/-
# Theory.ByteStrings -- strings of bytes in memory

`memcpy m a bytes` writes a string at an address and `bytesAt m a n` reads one.  What
was written is read back (`bytesAt_memcpy`), and a string that lies outside of the
footprint of a change is still there (`ChangesOnly.bytesAt`).
-/
import Itaro.Theory.Memory

namespace Itaro.Theory

set_option autoImplicit false

/-- The `n` bytes at `a`. -/
def bytesAt (m : Mem) (a n : Nat) : List (BitVec 8) := (List.range n).map fun i => m (a + i)

/-- `memcpy(m + a, bytes, n)` -/
def memcpy (m : Mem) (a : Nat) (bytes : List (BitVec 8)) : Mem := fun x =>
  if a ≤ x then bytes[x - a]?.getD (m x) else m x

variable {m m' : Mem} {a b n : Nat} {bytes : List (BitVec 8)}

@[simp] theorem length_bytesAt : (bytesAt m a n).length = n := by simp [bytesAt]

theorem bytesAt_congr (same : ∀ i < n, m' (a + i) = m (a + i)) : bytesAt m' a n = bytesAt m a n :=
  List.map_congr_left fun i inside => same i (List.mem_range.mp inside)

theorem bytesAt_memcpy : bytesAt (memcpy m a bytes) a bytes.length = bytes := by
  apply List.ext_getElem
  · rw [length_bytesAt]
  · intro i inside inside'
    simp [bytesAt, memcpy, inside']

theorem memcpy_changesOnly : ChangesOnly (Span a bytes.length) m (memcpy m a bytes) := by
  intro x outside
  rw [memcpy]
  split
  case isTrue above =>
    have past : bytes.length ≤ x - a := by
      simp only [Span, not_and, not_lt] at outside
      have := outside above
      omega
    rw [List.getElem?_eq_none past, Option.getD_none]
  case isFalse => rfl

theorem ChangesOnly.bytesAt {F : Nat → Prop} (changes : ChangesOnly F m m')
    (misses : ∀ x, a ≤ x → x < a + n → ¬ F x) : Theory.bytesAt m' a n = Theory.bytesAt m a n :=
  bytesAt_congr fun i inside => changes _ (misses _ (by omega) (by omega))

/-- Two strings that do not touch. -/
theorem bytesAt_memcpy_of_disjoint (apart : b + n ≤ a ∨ a + bytes.length ≤ b) :
    bytesAt (memcpy m a bytes) b n = bytesAt m b n :=
  memcpy_changesOnly.bytesAt fun x lower upper inside => by
    simp only [Span] at inside
    omega

end Itaro.Theory
