/-
# Usmm.Bitmap -- bitmap.c

The bitmap is a pointer into memory.  Bit `index` is bit `index % 8` of byte
`index / 8`, least significant bit first; `bitmapSet`, `bitmapClr` and
`bitmapTest` agree on that, and the range operations are loops over the single
bit ones.

`bitmapFindRange` is the search for a run of clear bits.  It has two branches,
on whether the run is shorter than a byte, and it works with two masks: `lowrin`
has the low `range % 8` bits set, `highrin` the high ones.  The parameters are C
`int`s, divided and reduced towards zero as C does.

The `ASSERT` at the head of the search is a precondition in a build with DEBUG
and nothing otherwise; `Build` says which.
-/
import Itaro.Theory.Memory
import Itaro.Theory.Search

namespace Itaro.Usmm

set_option autoImplicit false

open Theory

/-! ## Assertions -/

/-- With or without `-DDEBUG`. -/
inductive Build
  | debug
  | release
  deriving DecidableEq, Repr

/-- Where a call stops: the conditions `ASSERT` states about values, and the one
value that may be read before it is set. -/
inductive Fault
  /-- `range > 1` in `bitmap_find_range` -/
  | rangeGtOne
  /-- `used != 0` in `usmm_slab_free` -/
  | usedNeZero
  /-- `slab->slice == slice` in `usmm_slice_free` -/
  | sliceEq
  /-- `slot < USMM_SLOTS_MAX` in the slot functions -/
  | slotLtMax
  /-- `slice` in `usmm_slice_free`, which `usmm_slab_find` has not set -/
  | sliceUnset
  deriving DecidableEq, Repr

/-- `ASSERT(condition)`: `assert` in a build with DEBUG, nothing otherwise. -/
def assert (b : Build) (condition : Bool) (which : Fault) : Except Fault Unit :=
  if b = .debug ∧ condition = false then .error which else .ok ()

@[simp] theorem assert_release (condition : Bool) (which : Fault) :
    assert .release condition which = .ok () := rfl

@[simp] theorem assert_true (b : Build) (which : Fault) : assert b true which = .ok () := by
  simp [assert]

theorem assert_debug_false (which : Fault) : assert .debug false which = .error which := rfl

/-! ## Single bits and ranges -/

def bitmapSet (m : Mem) (bitmap index : Nat) : Mem :=
  setU8 m (bitmap + index / 8) (m (bitmap + index / 8) ||| 1#8 <<< (index % 8))

def bitmapClr (m : Mem) (bitmap index : Nat) : Mem :=
  setU8 m (bitmap + index / 8) (m (bitmap + index / 8) &&& ~~~(1#8 <<< (index % 8)))

def bitmapTest (m : Mem) (bitmap index : Nat) : Bool :=
  m (bitmap + index / 8) &&& 1#8 <<< (index % 8) != 0

/-- `for (i = start; i < end; i++) bitmap_set(bitmap, i);` -/
def bitmapSetRange (m : Mem) (bitmap start stop : Nat) : Mem :=
  (List.range' start (stop - start)).foldl (fun m i => bitmapSet m bitmap i) m

/-- `for (i = start; i < end; i++) bitmap_clr(bitmap, i);` -/
def bitmapClrRange (m : Mem) (bitmap start stop : Nat) : Mem :=
  (List.range' start (stop - start)).foldl (fun m i => bitmapClr m bitmap i) m

/-! ## The search -/

/-- `max_dw` -/
def maxDw : BitVec 8 := 0xff

/-- `~(max_dw << rin)`, computed at the width of `int` and cut to a byte.  C
leaves a negative count undefined; the shift instruction takes it modulo 32. -/
def lowrin (rin : Int) : BitVec 8 :=
  (~~~(maxDw.setWidth 32 <<< (rin % 32).toNat)).setWidth 8

/-- `~(max_dw >> rin)` -/
def highrin (rin : Int) : BitVec 8 :=
  (~~~(maxDw.setWidth 32 >>> (rin % 32).toNat)).setWidth 8

/-- The branch `count == 0`: the run lies inside one byte. -/
def findNarrow (m : Mem) (bitmap : Nat) (rin max : Int) : Option Nat :=
  firstSome (max.tdiv 8).toNat fun i =>
    if m (bitmap + i) ≠ maxDw then
      firstSome (8 - rin).toNat fun j =>
        if (m (bitmap + i)).setWidth 32 &&& (lowrin rin).setWidth 32 <<< j = 0 then
          some (i * 8 + j)
        else none
    else none

/-- The other branch: `count` whole bytes and `rin` bits of the next one.  The
inner loop under `*ptr != 0` reads `*ptr` again and again, as the source does. -/
def findWide (m : Mem) (bitmap : Nat) (rin count max : Int) : Option Int :=
  firstSome ((max - count - 1).tdiv 8).toNat fun i =>
    if m (bitmap + i) &&& lowrin rin = 0 then
      if m (bitmap + i) ≠ 0 then
        if (breakAt (fun _ => m (bitmap + i) != 0) 0 count : Int) = count then
          some (i * 8 + 8 - rin)
        else none
      else
        let j := breakAt (fun j => m (bitmap + (i + j)) != 0) 1 count
        if (j : Int) = count then
          if m (bitmap + (i + j)) &&& highrin rin = 0 then some (i * 8) else none
        else none
    else none

/-- The search once the assertion has passed; `-1` when nothing is found. -/
def searchRange (m : Mem) (bitmap : Nat) (range max : Int) : Int :=
  let rin := range.tmod 8
  let count := range.tdiv 8
  if count = 0 then ((findNarrow m bitmap rin max).map Int.ofNat).getD (-1)
  else (findWide m bitmap rin count max).getD (-1)

def bitmapFindRange (b : Build) (m : Mem) (bitmap : Nat) (range max : Int) :
    Except Fault Int := do
  assert b (decide (range > 1)) .rangeGtOne
  return searchRange m bitmap range max

/-! ## What a single bit operation does -/

theorem and_one_shiftLeft (x : BitVec 8) (r : Nat) :
    (x &&& 1#8 <<< r != 0) = x.getLsbD r := by
  have mask : (1#8 <<< r : BitVec 8) = BitVec.twoPow 8 r := (BitVec.twoPow_eq 8 r).symm
  rw [mask, BitVec.and_twoPow]
  cases bit : x.getLsbD r with
  | false => simp
  | true =>
      have small : r < 8 := BitVec.lt_of_getLsbD bit
      have nonzero : BitVec.twoPow 8 r ≠ 0 := by
        intro zero
        have value := congrArg BitVec.toNat zero
        rw [BitVec.toNat_twoPow_of_lt small] at value
        have positive := Nat.two_pow_pos r
        simp at value
      simpa using nonzero

theorem bitmapTest_eq (m : Mem) (bitmap index : Nat) :
    bitmapTest m bitmap index = (m (bitmap + index / 8)).getLsbD (index % 8) :=
  and_one_shiftLeft _ _

/-- The mask for bit `i`, looked at where bit `k` of its byte is. -/
theorem getLsbD_mask {i k : Nat} (byte : k / 8 = i / 8) :
    (1#8 <<< (i % 8)).getLsbD (k % 8) = decide (k = i) := by
  rw [← BitVec.twoPow_eq, BitVec.getLsbD_twoPow]
  have bound : i % 8 < 8 := Nat.mod_lt _ (by decide)
  by_cases same : k = i
  · subst same
    simp [bound]
  · have apart : i % 8 ≠ k % 8 := by omega
    simp [same, apart]

theorem bitmapTest_bitmapSet (m : Mem) (bitmap i k : Nat) :
    bitmapTest (bitmapSet m bitmap i) bitmap k = (decide (k = i) || bitmapTest m bitmap k) := by
  simp only [bitmapTest_eq, bitmapSet, setU8_apply]
  by_cases byte : bitmap + k / 8 = bitmap + i / 8
  · rw [if_pos byte, BitVec.getLsbD_or, getLsbD_mask (by omega), byte, Bool.or_comm]
  · have apart : k ≠ i := fun same => byte (by rw [same])
    rw [if_neg byte]
    simp [apart]

theorem bitmapTest_bitmapClr (m : Mem) (bitmap i k : Nat) :
    bitmapTest (bitmapClr m bitmap i) bitmap k = (!decide (k = i) && bitmapTest m bitmap k) := by
  simp only [bitmapTest_eq, bitmapClr, setU8_apply]
  by_cases byte : bitmap + k / 8 = bitmap + i / 8
  · have bound : k % 8 < 8 := Nat.mod_lt _ (by decide)
    rw [if_pos byte, BitVec.getLsbD_and, BitVec.getLsbD_not, getLsbD_mask (by omega), byte,
      decide_eq_true bound, Bool.true_and, Bool.and_comm]
  · have apart : k ≠ i := fun same => byte (by rw [same])
    rw [if_neg byte]
    simp [apart]

theorem bitmapSet_changesOnly (m : Mem) (bitmap i : Nat) :
    ChangesOnly (Span (bitmap + i / 8) 1) m (bitmapSet m bitmap i) := setU8_changesOnly m _ _

theorem bitmapClr_changesOnly (m : Mem) (bitmap i : Nat) :
    ChangesOnly (Span (bitmap + i / 8) 1) m (bitmapClr m bitmap i) := setU8_changesOnly m _ _

/-- Bytes whose bits are the same are the same. -/
theorem byte_eq_of_bits {m m' : Mem} {bitmap n d : Nat}
    (bits : ∀ k < 8 * n, bitmapTest m' bitmap k = bitmapTest m bitmap k) (inside : d < n) :
    m' (bitmap + d) = m (bitmap + d) := by
  apply BitVec.eq_of_getLsbD_eq
  intro i bound
  have bit := bits (8 * d + i) (by omega)
  rwa [bitmapTest_eq, bitmapTest_eq, show (8 * d + i) / 8 = d by omega,
    show (8 * d + i) % 8 = i by omega] at bit

/-! ## What a range operation does -/

/-- A loop whose turn `i` leaves `value` in bit `i`, and the other bits alone,
leaves `value` in every bit it visits. -/
theorem bitmapTest_foldl {op : Mem → Nat → Mem} {bitmap k : Nat} {value : Bool}
    (each : ∀ m i, bitmapTest (op m i) bitmap k = if k = i then value else bitmapTest m bitmap k)
    (is : List Nat) (m : Mem) :
    bitmapTest (is.foldl op m) bitmap k = if k ∈ is then value else bitmapTest m bitmap k := by
  induction is generalizing m with
  | nil => simp
  | cons i is ih =>
      rw [List.foldl_cons, ih, each]
      by_cases same : k = i <;> by_cases member : k ∈ is <;> simp [same, member]

theorem mem_range'_sub {start stop k : Nat} :
    k ∈ List.range' start (stop - start) ↔ start ≤ k ∧ k < stop := by
  rw [List.mem_range'_1]; omega

/-- After `bitmap_set_range` a bit is set iff it is in the range or was set. -/
theorem bitmapTest_bitmapSetRange (m : Mem) (bitmap start stop k : Nat) :
    bitmapTest (bitmapSetRange m bitmap start stop) bitmap k =
      (decide (start ≤ k ∧ k < stop) || bitmapTest m bitmap k) := by
  have each : ∀ m i, bitmapTest (bitmapSet m bitmap i) bitmap k =
      if k = i then true else bitmapTest m bitmap k := by
    intro m i
    rw [bitmapTest_bitmapSet]
    by_cases same : k = i <;> simp [same]
  rw [bitmapSetRange, bitmapTest_foldl each]
  simp only [mem_range'_sub]
  by_cases inside : start ≤ k ∧ k < stop <;> simp [inside]

/-- After `bitmap_clr_range` a bit is set iff it was set outside the range. -/
theorem bitmapTest_bitmapClrRange (m : Mem) (bitmap start stop k : Nat) :
    bitmapTest (bitmapClrRange m bitmap start stop) bitmap k =
      (!decide (start ≤ k ∧ k < stop) && bitmapTest m bitmap k) := by
  have each : ∀ m i, bitmapTest (bitmapClr m bitmap i) bitmap k =
      if k = i then false else bitmapTest m bitmap k := by
    intro m i
    rw [bitmapTest_bitmapClr]
    by_cases same : k = i <;> simp [same]
  rw [bitmapClrRange, bitmapTest_foldl each]
  simp only [mem_range'_sub]
  by_cases inside : start ≤ k ∧ k < stop <;> simp [inside]

/-- The bytes of the bitmap that hold the bits `start, …, stop - 1`. -/
def BitSpan (bitmap start stop : Nat) : Nat → Prop :=
  fun x => ∃ k, start ≤ k ∧ k < stop ∧ x = bitmap + k / 8

theorem foldl_changesOnly {F : Nat → Prop} {op : Mem → Nat → Mem} {is : List Nat}
    (each : ∀ m, ∀ i ∈ is, ChangesOnly F m (op m i)) (m : Mem) :
    ChangesOnly F m (is.foldl op m) := by
  induction is generalizing m with
  | nil => exact .refl F m
  | cons i is ih =>
      exact (each m i List.mem_cons_self).trans
        (ih (fun m i member => each m i (List.mem_cons_of_mem _ member)) (op m i))

/-- A loop whose turn `i` writes the byte of bit `i` writes the bytes of its range. -/
theorem rangeLoop_changesOnly {op : Mem → Nat → Mem} {bitmap : Nat}
    (each : ∀ m i, ChangesOnly (Span (bitmap + i / 8) 1) m (op m i)) (m : Mem) (start stop : Nat) :
    ChangesOnly (BitSpan bitmap start stop) m
      ((List.range' start (stop - start)).foldl op m) := by
  refine foldl_changesOnly (fun m i member => ?_) m
  have inside := mem_range'_sub.mp member
  refine (each m i).mono fun x span => ?_
  simp only [Span] at span
  exact ⟨i, inside.1, inside.2, by omega⟩

theorem bitmapSetRange_changesOnly (m : Mem) (bitmap start stop : Nat) :
    ChangesOnly (BitSpan bitmap start stop) m (bitmapSetRange m bitmap start stop) :=
  rangeLoop_changesOnly (fun m i => bitmapSet_changesOnly m bitmap i) m start stop

theorem bitmapClrRange_changesOnly (m : Mem) (bitmap start stop : Nat) :
    ChangesOnly (BitSpan bitmap start stop) m (bitmapClrRange m bitmap start stop) :=
  rangeLoop_changesOnly (fun m i => bitmapClr_changesOnly m bitmap i) m start stop

end Itaro.Usmm
