/-
# Usmm.SliceSizes -- a slice is as large as requested

The class of a request is the least slice size that holds it (`Least.isLeast`), and a
request above 128 KB has no class.  But the request is a `size_t` and the parameter of
`usmm_slab_find` an `int`: what has a class is the low 32 bits of the request.  A
request of 4 GB and 8 bytes is answered with a slice of 8 bytes (`wide_request`).

So a call does what it should iff the request is for 128 KB at most, or is refused
all the same: its low 32 bits are no class, or there is no slab for that class.
-/
import Itaro.Usmm.Ownership
import Mathlib.Order.Bounds.Basic

namespace Itaro.Usmm

set_option autoImplicit false

open Theory

variable {c : UsmmConf} {w w' : World} {b : Build}

/-! ## The least class -/

theorem sliceSize_mono {j k : Nat} (le : j ≤ k) (bound : k < usmmSlabArrayMax) :
    sliceSize j ≤ sliceSize k := by
  have sorted : ∀ k < usmmSlabArrayMax, ∀ j ≤ k, sliceSize j ≤ sliceSize k := by decide
  exact sorted k bound j le

theorem mem_gsSlabArray {s : Nat} : s ∈ gsSlabArray ↔ ∃ k < usmmSlabArrayMax, sliceSize k = s := by
  have length : gsSlabArray.length = usmmSlabArrayMax := rfl
  rw [List.mem_iff_getElem]
  constructor
  · rintro ⟨k, bound, rfl⟩
    exact ⟨k, length ▸ bound, List.getD_eq_getElem _ _ bound⟩
  · rintro ⟨k, bound, rfl⟩
    exact ⟨k, length ▸ bound, (List.getD_eq_getElem _ _ _).symm⟩

theorem Least.isLeast {size k : Nat} (least : Least size k) :
    IsLeast {s | s ∈ gsSlabArray ∧ size ≤ s} (sliceSize k) := by
  obtain ⟨bound, fits, first⟩ := least
  refine ⟨⟨mem_gsSlabArray.mpr ⟨k, bound, rfl⟩, by exact_mod_cast fits⟩, ?_⟩
  rintro s ⟨member, holds⟩
  obtain ⟨j, jBound, rfl⟩ := mem_gsSlabArray.mp member
  by_cases before : j < k
  · -- the class before `k` is too small, and `j` is not above it
    have short : (sliceSize (k - 1) : Int) < size := by
      rcases first with zero | short
      · omega
      · exact short
    have below := sliceSize_mono (show j ≤ k - 1 by omega) (by omega)
    omega
  · exact sliceSize_mono (by omega) jBound

/-! ## One call -/

/-- A slice that is returned is of the least size that holds the request, and a
request above 128 KB is refused. -/
structure AsRequested (c : UsmmConf) (r : Region) (size : BitVec 64) : Prop where
  large : ∀ r' p, usmmSliceAlloc r size = (r', p) → p ≠ 0 →
    ∃ j, 1 ≤ j ∧ j < c.slabCount ∧ InSlab c (c.slabAddr j) p ∧
      IsLeast {s | s ∈ gsSlabArray ∧ size.toNat ≤ s} (slabAt r'.mem (c.slabAddr j)).slice.toNat
  refused : 128 * 1024 < size.toNat → usmmSliceAlloc r size = (r, 0)

/-- There is no slab for the class of the low 32 bits of the request. -/
def NoSlabFor (r : Region) (size : BitVec 64) : Prop :=
  ∀ k slice, usmmSlabFind (size.setWidth 32) = some (k, slice) →
    r.lists (.cls k) = [] ∧ r.lists .free = []

theorem toInt_setWidth_of_small {size : BitVec 64} (small : size.toNat ≤ 128 * 1024) :
    (size.setWidth 32).toInt = size.toNat := by
  have cut : (size.setWidth 32).toNat = size.toNat := by
    rw [BitVec.toNat_setWidth, Nat.mod_eq_of_lt (by omega)]
  rw [BitVec.toInt_eq_toNat_of_lt (by omega), cut]

/-- An allocation is counted, also one that returns `NULL`. -/
theorem Gave.counts {r r' : Region} {k j p : Nat} {fresh : Bool} {live : List Nat}
    (gave : Gave c r r' k j fresh live p) : r' ≠ r := by
  rintro rfl
  have ops : ((counters c r'.mem).stats k).ops = ((counters c r'.mem).stats k).ops + 1 := by
    conv_lhs => rw [gave.counted, Counters.take_own, Counters.cut_own]
  have zero : (1 : BitVec 64) = 0 := (BitVec.add_right_inj _).mp (ops.symm.trans (BitVec.add_zero _).symm)
  exact absurd zero (by decide)

theorem Inv.asRequested_iff (roomy : c.Roomy) (inv : Inv c w) (size : BitVec 64) :
    AsRequested c w.region size ↔ size.toNat ≤ 128 * 1024 ∨ NoSlabFor w.region size := by
  obtain ⟨⟨r', p⟩, result⟩ : ∃ t, usmmSliceAlloc w.region size = t := ⟨_, rfl⟩
  have cases := usmmSliceAlloc_cases roomy inv result
  constructor
  · intro requested
    by_cases small : size.toNat ≤ 128 * 1024
    · exact .inl small
    · have refused := requested.refused (by omega)
      rw [result] at refused
      rcases cases with ⟨-, -, none⟩ | ⟨k, j, fresh, -, -, gave⟩
      · exact .inr none
      · exact absurd (Prod.mk.inj refused).1 gave.counts
  · intro condition
    rcases cases with ⟨rfl, rfl, -⟩ | ⟨k, j, fresh, bound, found, gave⟩
    · refine ⟨fun r'' p' same given => ?_, fun _ => result⟩
      rw [result] at same
      exact absurd (Prod.mk.inj same).2.symm given
    · rcases condition with small | none
      · refine ⟨fun r'' p' same given => ?_, fun large => absurd small (by omega)⟩
        rw [result] at same
        obtain ⟨rfl, rfl⟩ := Prod.mk.inj same
        refine ⟨j, gave.positive, gave.below, (gave.slice roomy given).2.2, ?_⟩
        have least := (usmmSlabFind_eq_some found).2
        rw [toInt_setWidth_of_small small] at least
        have wide := (sliceSize_bounds k bound).2.1
        rw [gave.formatted.2.sliceEq, u64_ofNat_toNat (by omega)]
        exact least.isLeast
      · exact absurd (none k _ found).symm gave.not_nil

/-! ## Runs of slice calls -/

/-- A call of the slice allocator, for any size. -/
def SliceCall : Act → Prop
  | .sliceAlloc _ => True
  | .sliceFree _ => True
  | _ => False

/-- A slice call that frees where the mask finds the slab. -/
def SliceCallStep (c : UsmmConf) (b : Build) (w : World) (a : Act) (w' : World) : Prop :=
  Step b w a w' ∧ SliceCall a ∧ Finds c a

theorem SliceCallStep.heeding {a : Act} (step : SliceCallStep c b w a w') : HeedingStep c b w a w' := by
  obtain ⟨step, call, finds⟩ := step
  refine ⟨step, ?_, finds⟩
  cases a with
  | sliceAlloc size => trivial
  | sliceFree ptr => trivial
  | _ => exact call.elim

theorem sliceCallRun_inv (roomy : c.Roomy) (starts : Starts c w) {as : List Act}
    (run : Run (SliceCallStep c b) w as w') : Inv c w' :=
  run_inv roomy starts (run.mono fun _ _ _ step => step.heeding)

/-- **Slices are as large as requested**, after every run of slice calls, iff the
request does not exceed 128 KB or finds no slab. -/
theorem usmmSliceAlloc_asRequested_iff (roomy : c.Roomy) (starts : Starts c w) {as : List Act}
    (run : Run (SliceCallStep c b) w as w') (size : BitVec 64) :
    AsRequested c w'.region size ↔ size.toNat ≤ 128 * 1024 ∨ NoSlabFor w'.region size :=
  (sliceCallRun_inv roomy starts run).asRequested_iff roomy size

theorem usmmSliceAlloc_asRequested_iff_testConf : ∃ w w', Starts testConf w ∧
    Run (SliceCallStep testConf .debug) w [.sliceAlloc 8] w' ∧
    (AsRequested testConf w'.region 100 ↔
      (100 : BitVec 64).toNat ≤ 128 * 1024 ∨ NoSlabFor w'.region 100) := by
  obtain ⟨w, starts⟩ := exists_starts testConf_roomy
  have step : SliceCallStep testConf .debug w (.sliceAlloc 8) _ := ⟨⟨trivial, rfl⟩, trivial, trivial⟩
  exact ⟨w, _, starts, .single step,
    usmmSliceAlloc_asRequested_iff testConf_roomy starts (.single step) 100⟩

/-- Slabs are left, and 4 GB and 8 bytes are asked for. -/
theorem wide_request : ¬ ∀ (c : UsmmConf) (w w' : World) (as : List Act) (size : BitVec 64),
    Aligned c → Starts c w → Run (SliceCallStep c .debug) w as w' → AsRequested c w'.region size := by
  intro requested
  obtain ⟨w, starts⟩ := exists_starts testConf_roomy
  have inv := starts_inv testConf_roomy starts
  have answered := (inv.asRequested_iff testConf_roomy 0x100000008).mp
    (requested testConf w w [] _ testConf_aligned starts (.nil w))
  rcases answered with small | none
  · exact absurd small (by decide)
  · obtain ⟨-, opened⟩ := starts.fresh testConf_roomy
    have free : testConf.slabAddr 1 ∈ w.lists .free := by
      rw [opened]
      exact mem_initLists.mpr ⟨rfl, 1, le_rfl, by decide, rfl⟩
    have empty : w.lists .free = [] := (none 0 8 (by decide)).2
    rw [empty] at free
    exact absurd free List.not_mem_nil

end Itaro.Usmm
