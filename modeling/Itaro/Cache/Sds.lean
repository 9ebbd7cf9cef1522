/-
# Cache.Sds -- sds.h: strings that carry their length

A string is a pointer to its first byte; in front of it are the length and the
spare room, both 32 bits wide.  `Sds` is what is allocated for one: the content, a
NUL that the length does not count, and room for `free` more bytes.  The content
may hold any byte, NUL included.
-/
import Mathlib.Algebra.Group.Nat.Defs
import Mathlib.Data.List.Basic

namespace Itaro.Cache

set_option autoImplicit false

/-- `struct sdshdr` with the bytes behind it. -/
structure Sds where
  len : BitVec 32
  free : BitVec 32
  buf : List (BitVec 8)
  room : buf.length = len.toNat + free.toNat + 1
  terminated : buf[len.toNat]? = some 0
  deriving DecidableEq, Repr

/-- `sdslen` -/
def sdslen (s : Sds) : BitVec 64 := s.len.setWidth 64

namespace Sds

/-- The content. -/
def bytes (s : Sds) : List (BitVec 8) := s.buf.take s.len.toNat

theorem bytes_length (s : Sds) : s.bytes.length = s.len.toNat := by
  rw [bytes, List.length_take, s.room]
  omega

/-- What C sees at the pointer: the content and its terminator. -/
theorem buf_eq (s : Sds) : s.buf = s.bytes ++ 0 :: s.buf.drop (s.len.toNat + 1) := by
  have inside : s.len.toNat < s.buf.length := by
    rw [s.room]
    omega
  have terminator : s.buf[s.len.toNat] = 0 := by
    have at_end := s.terminated
    rw [List.getElem?_eq_getElem inside] at at_end
    exact Option.some.inj at_end
  calc s.buf = s.bytes ++ s.buf.drop s.len.toNat := (List.take_append_drop _ _).symm
    _ = s.bytes ++ 0 :: s.buf.drop (s.len.toNat + 1) := by
        rw [List.drop_eq_getElem_cons inside, terminator]

end Sds

/-- `sdsnewlen` for a length that its header can hold. -/
def sdsnewlen (init : List (BitVec 8)) (small : init.length < 2 ^ 32) : Sds where
  len := BitVec.ofNat 32 init.length
  free := 0
  buf := init ++ [0]
  room := by
    rw [BitVec.toNat_ofNat, Nat.mod_eq_of_lt small, List.length_append]
    rfl
  terminated := by
    rw [BitVec.toNat_ofNat, Nat.mod_eq_of_lt small, List.getElem?_append_right (Nat.le_refl _), Nat.sub_self]
    rfl

theorem bytes_sdsnewlen (init : List (BitVec 8)) (small : init.length < 2 ^ 32) :
    (sdsnewlen init small).bytes = init := by
  have length : (sdsnewlen init small).len.toNat = init.length := by
    rw [sdsnewlen, BitVec.toNat_ofNat, Nat.mod_eq_of_lt small]
  rw [Sds.bytes, length]
  exact List.take_left

end Itaro.Cache
