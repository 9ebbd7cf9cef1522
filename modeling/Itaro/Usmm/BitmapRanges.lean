/-
# Usmm.BitmapRanges -- a range update is a set operation on the bits

`bitmap_set_range` and `bitmap_clr_range` are loops of read-modify-write steps
on bytes they share with the bits of other blocks.  Seen on the set of indices
whose bit is one (`bitsOf`) they are union and difference with the interval
`[start, end)` (`RangeUpdate.bitsOf_apply`), and so is every sequence of them
(`bitsOf_runUpdates`).

Memory is determined by its bytes below the bitmap, which no update writes, and
by the bits from there on (`mem_eq_of_bitsOf`).  What holds of sets of bits
therefore holds of the bytes:

* setting ranges that were clear and clearing them again, in any order, leaves
  the memory as it was (`runUpdates_clr_restores`);
* updates of disjoint ranges commute, and a run of pairwise disjoint updates has
  one result whatever its order (`runUpdates_perm`).

Updates whose ranges meet do not commute: the last update that covers an index
decides its bit (`mem_bitsOf_runUpdates_last`).

The bounds need not be ordered.  With `end <= start` the loop makes no turn and
the interval is empty.
-/
import Itaro.Usmm.Bitmap
import Mathlib.Data.List.Pairwise
import Mathlib.Order.BooleanAlgebra.Set
import Mathlib.Order.CompletePartialOrder
import Mathlib.Order.Interval.Set.Disjoint

namespace Itaro.Usmm

set_option autoImplicit false

open Theory

/-! ## The set of bits -/

/-- The indices `bitmap_test` answers yes for. -/
def bitsOf (m : Mem) (bitmap : Nat) : Set Nat := {k | bitmapTest m bitmap k = true}

@[simp] theorem mem_bitsOf {m : Mem} {bitmap k : Nat} :
    k ∈ bitsOf m bitmap ↔ bitmapTest m bitmap k = true := Iff.rfl

/-- Memories with the same bits and the same bytes below the bitmap are equal. -/
theorem mem_eq_of_bitsOf {m m' : Mem} {bitmap : Nat} (below : ∀ x < bitmap, m' x = m x)
    (same : bitsOf m' bitmap = bitsOf m bitmap) : m' = m := by
  funext x
  by_cases low : x < bitmap
  · exact below x low
  · obtain ⟨d, rfl⟩ := Nat.exists_eq_add_of_le (Nat.le_of_not_lt low)
    have bits : ∀ k < 8 * (d + 1), bitmapTest m' bitmap k = bitmapTest m bitmap k := by
      intro k _
      exact Bool.eq_iff_iff.mpr (Set.ext_iff.mp same k)
    exact byte_eq_of_bits bits (Nat.lt_succ_self d)

theorem bitsOf_bitmapSetRange (m : Mem) (bitmap start stop : Nat) :
    bitsOf (bitmapSetRange m bitmap start stop) bitmap =
      bitsOf m bitmap ∪ Set.Ico start stop := by
  ext k
  simp only [mem_bitsOf, bitmapTest_bitmapSetRange, Set.mem_union, Set.mem_Ico, Bool.or_eq_true,
    decide_eq_true_eq]
  exact or_comm

theorem bitsOf_bitmapClrRange (m : Mem) (bitmap start stop : Nat) :
    bitsOf (bitmapClrRange m bitmap start stop) bitmap =
      bitsOf m bitmap \ Set.Ico start stop := by
  ext k
  simp only [mem_bitsOf, bitmapTest_bitmapClrRange, Set.mem_sdiff, Set.mem_Ico, Bool.and_eq_true,
    Bool.not_eq_true', decide_eq_false_iff_not]
  exact and_comm

/-! ## One update -/

/-- A call of `bitmap_set_range` or `bitmap_clr_range` with its bounds. -/
inductive RangeUpdate
  | set (start stop : Nat)
  | clr (start stop : Nat)
  deriving DecidableEq, Repr

namespace RangeUpdate

def interval : RangeUpdate → Set Nat
  | .set start stop => Set.Ico start stop
  | .clr start stop => Set.Ico start stop

/-- The call on a bitmap in memory. -/
def apply (u : RangeUpdate) (bitmap : Nat) (m : Mem) : Mem :=
  match u with
  | .set start stop => bitmapSetRange m bitmap start stop
  | .clr start stop => bitmapClrRange m bitmap start stop

/-- What the call is for, on the set of bits. -/
def onBits (u : RangeUpdate) (bits : Set Nat) : Set Nat :=
  match u with
  | .set start stop => bits ∪ Set.Ico start stop
  | .clr start stop => bits \ Set.Ico start stop

/-- The bit the call leaves in its interval. -/
def value : RangeUpdate → Bool
  | .set _ _ => true
  | .clr _ _ => false

/-- The call on memory does to the bits what it is for. -/
theorem bitsOf_apply (u : RangeUpdate) (bitmap : Nat) (m : Mem) :
    bitsOf (u.apply bitmap m) bitmap = u.onBits (bitsOf m bitmap) := by
  cases u with
  | set start stop => exact bitsOf_bitmapSetRange m bitmap start stop
  | clr start stop => exact bitsOf_bitmapClrRange m bitmap start stop

/-- No update writes below the bitmap. -/
theorem apply_below (u : RangeUpdate) {bitmap x : Nat} (m : Mem) (low : x < bitmap) :
    u.apply bitmap m x = m x := by
  have outside : ∀ start stop, ¬ BitSpan bitmap start stop x := by
    rintro start stop ⟨k, -, -, rfl⟩
    omega
  cases u with
  | set start stop => exact bitmapSetRange_changesOnly m bitmap start stop x (outside _ _)
  | clr start stop => exact bitmapClrRange_changesOnly m bitmap start stop x (outside _ _)

theorem mem_onBits_of_mem {u : RangeUpdate} {k : Nat} (inside : k ∈ u.interval)
    (bits : Set Nat) : k ∈ u.onBits bits ↔ u.value = true := by
  cases u <;> simp_all [interval, onBits, value]

theorem mem_onBits_of_notMem {u : RangeUpdate} {k : Nat} (outside : k ∉ u.interval)
    (bits : Set Nat) : k ∈ u.onBits bits ↔ k ∈ bits := by
  cases u <;> simp_all [interval, onBits]

/-- On sets, updates of disjoint intervals commute. -/
theorem onBits_comm {u v : RangeUpdate} (apart : Disjoint u.interval v.interval)
    (bits : Set Nat) : v.onBits (u.onBits bits) = u.onBits (v.onBits bits) := by
  ext k
  by_cases first : k ∈ u.interval
  · have second : k ∉ v.interval := Set.disjoint_left.mp apart first
    rw [mem_onBits_of_notMem second, mem_onBits_of_mem first, mem_onBits_of_mem first]
  · by_cases second : k ∈ v.interval
    · rw [mem_onBits_of_mem second, mem_onBits_of_notMem first, mem_onBits_of_mem second]
    · simp only [mem_onBits_of_notMem second, mem_onBits_of_notMem first]

/-- Updates of disjoint intervals commute, bytes they share included. -/
theorem apply_comm {u v : RangeUpdate} (apart : Disjoint u.interval v.interval)
    (bitmap : Nat) (m : Mem) :
    v.apply bitmap (u.apply bitmap m) = u.apply bitmap (v.apply bitmap m) := by
  have below : ∀ x < bitmap,
      v.apply bitmap (u.apply bitmap m) x = u.apply bitmap (v.apply bitmap m) x := by
    intro x low
    simp only [apply_below _ _ low]
  apply mem_eq_of_bitsOf below
  simp only [bitsOf_apply]
  exact onBits_comm apart _

end RangeUpdate

/-! ## A run of updates -/

def runUpdates (us : List RangeUpdate) (bitmap : Nat) (m : Mem) : Mem :=
  us.foldl (fun m u => u.apply bitmap m) m

@[simp] theorem runUpdates_nil (bitmap : Nat) (m : Mem) : runUpdates [] bitmap m = m := rfl

@[simp] theorem runUpdates_cons (u : RangeUpdate) (us : List RangeUpdate) (bitmap : Nat) (m : Mem) :
    runUpdates (u :: us) bitmap m = runUpdates us bitmap (u.apply bitmap m) := rfl

theorem runUpdates_append (us vs : List RangeUpdate) (bitmap : Nat) (m : Mem) :
    runUpdates (us ++ vs) bitmap m = runUpdates vs bitmap (runUpdates us bitmap m) :=
  List.foldl_append

theorem bitsOf_runUpdates (us : List RangeUpdate) (bitmap : Nat) (m : Mem) :
    bitsOf (runUpdates us bitmap m) bitmap =
      us.foldl (fun bits u => u.onBits bits) (bitsOf m bitmap) := by
  induction us generalizing m with
  | nil => rfl
  | cons u us ih => rw [runUpdates_cons, ih, u.bitsOf_apply, List.foldl_cons]

theorem runUpdates_below (us : List RangeUpdate) {bitmap x : Nat} (m : Mem) (low : x < bitmap) :
    runUpdates us bitmap m x = m x := by
  induction us generalizing m with
  | nil => rfl
  | cons u us ih => rw [runUpdates_cons, ih, u.apply_below m low]

/-- A bit no update of the run covers is untouched. -/
theorem mem_bitsOf_runUpdates_of_notMem {us : List RangeUpdate} {k : Nat}
    (outside : ∀ u ∈ us, k ∉ u.interval) (bitmap : Nat) (m : Mem) :
    k ∈ bitsOf (runUpdates us bitmap m) bitmap ↔ k ∈ bitsOf m bitmap := by
  induction us generalizing m with
  | nil => rfl
  | cons u us ih =>
      rw [runUpdates_cons, ih (fun v member => outside v (List.mem_cons_of_mem u member)),
        u.bitsOf_apply]
      exact RangeUpdate.mem_onBits_of_notMem (outside u List.mem_cons_self) _

/-- The last update that covers an index decides its bit. -/
theorem mem_bitsOf_runUpdates_last {us vs : List RangeUpdate} {u : RangeUpdate} {k : Nat}
    (inside : k ∈ u.interval) (later : ∀ v ∈ vs, k ∉ v.interval) (bitmap : Nat) (m : Mem) :
    k ∈ bitsOf (runUpdates (us ++ u :: vs) bitmap m) bitmap ↔ u.value = true := by
  rw [runUpdates_append, runUpdates_cons, mem_bitsOf_runUpdates_of_notMem later, u.bitsOf_apply]
  exact RangeUpdate.mem_onBits_of_mem inside _

/-- If every update of a run leaves the same bit, so does the run where one covers. -/
theorem mem_bitsOf_runUpdates_of_value {us : List RangeUpdate} {b : Bool} {k : Nat}
    (values : ∀ u ∈ us, u.value = b) (covered : ∃ u ∈ us, k ∈ u.interval) (bitmap : Nat) (m : Mem) :
    k ∈ bitsOf (runUpdates us bitmap m) bitmap ↔ b = true := by
  induction us generalizing m with
  | nil =>
      obtain ⟨u, member, -⟩ := covered
      exact absurd member List.not_mem_nil
  | cons u us ih =>
      rw [runUpdates_cons]
      by_cases later : ∃ v ∈ us, k ∈ v.interval
      · exact ih (fun v member => values v (List.mem_cons_of_mem u member)) later _
      · have inside : k ∈ u.interval := by
          obtain ⟨v, member, inside⟩ := covered
          rcases List.mem_cons.mp member with rfl | member
          · exact inside
          · exact absurd ⟨v, member, inside⟩ later
        have outside : ∀ v ∈ us, k ∉ v.interval :=
          fun v member inside => later ⟨v, member, inside⟩
        rw [mem_bitsOf_runUpdates_of_notMem outside, u.bitsOf_apply,
          RangeUpdate.mem_onBits_of_mem inside, values u List.mem_cons_self]

/-- Whatever a run does inside intervals that were clear, clearing them in any
order restores the memory. -/
theorem runUpdates_clr_restores {us vs : List RangeUpdate} {bitmap : Nat} {m : Mem}
    (clears : ∀ v ∈ vs, v.value = false)
    (covered : ∀ u ∈ us, ∀ k ∈ u.interval, ∃ v ∈ vs, k ∈ v.interval)
    (clear : ∀ v ∈ vs, Disjoint v.interval (bitsOf m bitmap)) :
    runUpdates (us ++ vs) bitmap m = m := by
  have below : ∀ x < bitmap, runUpdates (us ++ vs) bitmap m x = m x :=
    fun x low => runUpdates_below (us ++ vs) m low
  apply mem_eq_of_bitsOf below
  ext k
  rw [runUpdates_append]
  by_cases inside : ∃ v ∈ vs, k ∈ v.interval
  · have now := mem_bitsOf_runUpdates_of_value clears inside bitmap (runUpdates us bitmap m)
    obtain ⟨v, member, inside⟩ := inside
    have before : k ∉ bitsOf m bitmap := Set.disjoint_left.mp (clear v member) inside
    rw [now]
    exact iff_of_false Bool.false_ne_true before
  · have late : ∀ v ∈ vs, k ∉ v.interval := fun v member hit => inside ⟨v, member, hit⟩
    have early : ∀ u ∈ us, k ∉ u.interval := fun u member hit => inside (covered u member k hit)
    rw [mem_bitsOf_runUpdates_of_notMem late, mem_bitsOf_runUpdates_of_notMem early]

/-- Pairwise disjoint updates have one result whatever their order. -/
theorem runUpdates_perm {us vs : List RangeUpdate} (perm : us.Perm vs)
    (apart : us.Pairwise fun u v => Disjoint u.interval v.interval) (bitmap : Nat) (m : Mem) :
    runUpdates us bitmap m = runUpdates vs bitmap m := by
  have symmetric : Std.Symm fun u v : RangeUpdate => Disjoint u.interval v.interval :=
    ⟨fun _ _ disjoint => disjoint.symm⟩
  apply perm.foldl_eq'
  intro u first v second m
  by_cases same : u = v
  · rw [same]
  · exact RangeUpdate.apply_comm (apart.forall first second same) bitmap m

/-! ## The laws of the two range operations -/

/-- Clearing a range that was clear before it was set restores the memory. -/
theorem bitmapClrRange_bitmapSetRange {m : Mem} {bitmap start stop : Nat}
    (clear : ∀ k < stop, start ≤ k → bitmapTest m bitmap k = false) :
    bitmapClrRange (bitmapSetRange m bitmap start stop) bitmap start stop = m := by
  have apart : Disjoint (Set.Ico start stop) (bitsOf m bitmap) := by
    apply Set.disjoint_left.mpr
    intro k inside one
    rw [mem_bitsOf, clear k inside.2 inside.1] at one
    exact Bool.false_ne_true one
  have restored : runUpdates ([.set start stop] ++ [.clr start stop]) bitmap m = m := by
    apply runUpdates_clr_restores
    · simp [RangeUpdate.value]
    · simp [RangeUpdate.interval]
    · simpa [RangeUpdate.interval] using apart
  exact restored

/-- The range operations change the bits of their interval and no others, so that
clearing undoes setting a clear range and updates of disjoint ranges commute. -/
theorem rangeUpdates_exact (m : Mem) (bitmap start stop : Nat) :
    (∀ k, bitmapTest (bitmapSetRange m bitmap start stop) bitmap k = true ↔
      (start ≤ k ∧ k < stop) ∨ bitmapTest m bitmap k = true) ∧
    (∀ k, bitmapTest (bitmapClrRange m bitmap start stop) bitmap k = true ↔
      bitmapTest m bitmap k = true ∧ ¬ (start ≤ k ∧ k < stop)) ∧
    ((∀ k < stop, start ≤ k → bitmapTest m bitmap k = false) →
      bitmapClrRange (bitmapSetRange m bitmap start stop) bitmap start stop = m) ∧
    (∀ u v : RangeUpdate, Disjoint u.interval v.interval →
      v.apply bitmap (u.apply bitmap m) = u.apply bitmap (v.apply bitmap m)) := by
  refine ⟨fun k => ?_, fun k => ?_, bitmapClrRange_bitmapSetRange, fun u v apart => ?_⟩
  · rw [← mem_bitsOf, bitsOf_bitmapSetRange, Set.union_comm]
    rfl
  · rw [← mem_bitsOf, bitsOf_bitmapClrRange]
    rfl
  · exact RangeUpdate.apply_comm apart bitmap m

/-- Byte 5 holds the bits 0 and 7 of two neighbours; the ranges between them share it. -/
def sharedByte : Mem := fun x => if x = 5 then 0x81#8 else 0xff#8

theorem rangeUpdates_exact_sharedByte :
    bitmapClrRange (bitmapSetRange sharedByte 5 1 7) 5 1 7 = sharedByte ∧
      bitmapClrRange (bitmapSetRange sharedByte 5 1 4) 5 6 11 =
        bitmapSetRange (bitmapClrRange sharedByte 5 6 11) 5 1 4 := by
  have laws := rangeUpdates_exact sharedByte 5 1 7
  have disjoint : Disjoint (Set.Ico 1 4) (Set.Ico 6 11) := Set.Ico_disjoint_Ico.mpr (by decide)
  exact ⟨laws.2.2.1 (by decide), laws.2.2.2 (.set 1 4) (.clr 6 11) disjoint⟩

end Itaro.Usmm
