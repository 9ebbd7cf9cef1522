/-
# Usmm.SliceComplete -- a slice is refused only when there is none

`usmm_slice_alloc` looks at the head of one class list and at `free_slabs`.  That is
enough because every slab with a slice left is on the list of its class and no full
slab is (`Tidy`): where the slabs of the class have slices, `NULL` means that every
one of them is taken and no slab is free (`exhausted_iff`).

Where the number of slices is negative, a slab is cut for the class, counted, and
answers `NULL` (`huge_slab_refuses`), so the call does what it should there only if
it finds no slab at all.
-/
import Itaro.Usmm.Placement
import Itaro.Usmm.SliceSizes

namespace Itaro.Usmm

set_option autoImplicit false

open Theory

variable {c : UsmmConf} {w w' : World} {b : Build}

/-- No slab is free, and all slices of every slab cut for class `k` are live. -/
def Exhausted (c : UsmmConf) (w : World) (k : Nat) : Prop :=
  w.lists .free = [] ∧ ∀ i, 1 ≤ i → i < c.slabCount →
    (slabAt w.mem (c.slabAddr i)).slice = BitVec.ofNat 64 (sliceSize k) →
    ∀ p ∈ sliceGrid (c.slabAddr i) (sliceSize k) (slabAt w.mem (c.slabAddr i)).total,
      ∃ x ∈ w.slices, x.ptr = p

/-- `NULL` is returned iff class `k` is exhausted, with nothing changed, and a slice
that is returned was not live. -/
structure NeverFailsEarly (c : UsmmConf) (w : World) (size : BitVec 64) (k : Nat) : Prop where
  null : (usmmSliceAlloc w.region size).2 = 0 ↔ Exhausted c w k
  unchanged : (usmmSliceAlloc w.region size).2 = 0 → (usmmSliceAlloc w.region size).1 = w.region
  unused : (usmmSliceAlloc w.region size).2 ≠ 0 →
    ∀ x ∈ w.slices, x.ptr ≠ (usmmSliceAlloc w.region size).2

/-! ## What a full slab says -/

/-- A slab with a slice left has a slice that is not live. -/
theorem Formatted.exists_dead {i k : Nat} (roomy : c.Roomy)
    (formatted : Formatted c w.mem (c.slabAddr i) k (livePtrs c w.slices (c.slabAddr i)))
    (left : (livePtrs c w.slices (c.slabAddr i)).length < (classTotal c k).toInt.toNat) :
    ∃ p ∈ sliceGrid (c.slabAddr i) (sliceSize k) (classTotal c k), ∀ x ∈ w.slices, x.ptr ≠ p := by
  by_contra all
  push Not at all
  have wide := (sliceSize_bounds k formatted.1).1
  have sub : sliceGrid (c.slabAddr i) (sliceSize k) (classTotal c k) ⊆
      livePtrs c w.slices (c.slabAddr i) := by
    intro p member
    have bounds := slice_bounds roomy formatted.1 member
    refine mem_livePtrs.mpr ⟨?_, all p member⟩
    simp only [InSlab]
    omega
  have nodup : (sliceGrid (c.slabAddr i) (sliceSize k) (classTotal c k)).Nodup :=
    grid_nodup (by omega)
  have length := nodup.length_le_of_subset sub
  rw [sliceGrid, grid_length] at length
  omega

/-- In a slab with as many live slices as it has slices, all are live. -/
theorem Formatted.live_of_full {m : Mem} {s k p : Nat} {live : List Nat}
    (formatted : Formatted c m s k live) (whole : live.length = (classTotal c k).toInt.toNat)
    (member : p ∈ sliceGrid s (sliceSize k) (classTotal c k)) : p ∈ live := by
  obtain ⟨free, -, perm⟩ := formatted.2.chain
  have length := perm.length_eq
  rw [List.length_append, sliceGrid, grid_length] at length
  have none : free = [] := List.length_eq_zero_iff.mp (by omega)
  rw [none, List.nil_append] at perm
  exact perm.mem_iff.mpr member

/-! ## The lists the call looks at -/

namespace TidyInv

variable {k : Nat}

theorem exhausted_of_nil (before : TidyInv c w) (bound : k < usmmSlabArrayMax)
    (free : w.lists .free = []) (cls : w.lists (.cls k) = []) : Exhausted c w k := by
  refine ⟨free, fun i positive below format p member => ?_⟩
  rcases before.inv.cover i positive below with ⟨h, listed⟩ | ⟨x, block, -⟩
  · cases h with
    | free =>
        rw [free] at listed
        cases listed
    | cls k' =>
        have formatted := before.inv.ok listed
        obtain rfl := sliceWord_injective formatted.1 bound (formatted.2.sliceEq.symm.trans format)
        rw [cls] at listed
        cases listed
    | full =>
        obtain ⟨k', formatted, -, whole⟩ := before.tidy.full listed
        obtain rfl := sliceWord_injective formatted.1 bound (formatted.2.sliceEq.symm.trans format)
        rw [formatted.2.totalEq] at member
        exact (mem_livePtrs.mp (formatted.live_of_full whole member)).2
  · rw [before.idle] at block
    cases block

/-- Where a slab has slices, the class is exhausted iff both lists are empty. -/
theorem exhausted_iff (before : TidyInv c w) (roomy : c.Roomy) (bound : k < usmmSlabArrayMax)
    (some : 0 < (classTotal c k).toInt) :
    Exhausted c w k ↔ w.lists .free = [] ∧ w.lists (.cls k) = [] := by
  constructor
  · rintro ⟨free, all⟩
    refine ⟨free, List.eq_nil_iff_forall_not_mem.mpr fun s listed => ?_⟩
    obtain ⟨i, positive, below, rfl⟩ := before.inv.slabs listed
    have formatted : Formatted c w.mem (c.slabAddr i) k _ := before.inv.ok listed
    obtain ⟨p, member, dead⟩ := formatted.exists_dead roomy (before.tidy.cls listed some).2
    rw [← formatted.2.totalEq] at member
    obtain ⟨x, held, same⟩ := all i positive below formatted.2.sliceEq p member
    exact dead x held same
  · rintro ⟨free, cls⟩
    exact before.exhausted_of_nil bound free cls

/-! ## One call -/

theorem neverFailsEarly_iff (before : TidyInv c w) (roomy : c.Roomy) {size : BitVec 64} {slice : Nat}
    (found : usmmSlabFind (size.setWidth 32) = some (k, slice)) :
    NeverFailsEarly c w size k ↔
      0 < (classTotal c k).toInt ∨ w.lists .free = [] ∧ w.lists (.cls k) = [] := by
  obtain ⟨inv, tidy, idle⟩ := before
  obtain ⟨rfl, bound, -⟩ := usmmSlabFind_eq_some found
  obtain ⟨⟨r', p⟩, result⟩ : ∃ t, usmmSliceAlloc w.region size = t := ⟨_, rfl⟩
  rcases usmmSliceAlloc_cases roomy inv result with
    ⟨rfl, rfl, refused⟩ | ⟨k', j, fresh, -, found', gave⟩
  · obtain ⟨cls, free⟩ := refused k _ found
    refine iff_of_true ⟨?_, fun _ => by rw [result], fun given => ?_⟩ (.inr ⟨free, cls⟩)
    · rw [result]
      exact iff_of_true rfl (exhausted_of_nil ⟨inv, tidy, idle⟩ bound free cls)
    · rw [result] at given
      exact absurd rfl given
  · obtain rfl : k' = k := by
      rw [found', Option.some.injEq, Prod.mk.injEq] at found
      exact found.1
    constructor
    · intro complete
      by_contra none
      -- a slab without slices answers `NULL`, and the call is counted
      have null : p = 0 := by
        by_contra given
        exact none (.inl (gave.total_pos given))
      have same := complete.unchanged (by rw [result]; exact null)
      rw [result] at same
      exact gave.counts same
    · intro condition
      have some : 0 < (classTotal c k').toInt := by
        rcases condition with some | none
        · exact some
        · exact absurd none gave.not_nil
      have given := gave.given_of_pos inv tidy some
      refine ⟨?_, fun null => ?_, fun _ x held same => ?_⟩
      · rw [result, exhausted_iff ⟨inv, tidy, idle⟩ roomy bound some]
        exact iff_of_false given gave.not_nil
      · rw [result] at null
        exact absurd null given
      · rw [result] at same
        obtain ⟨-, unused, inside⟩ := gave.slice roomy given
        exact unused (mem_livePtrs.mpr ⟨inside, x, held, same⟩)

end TidyInv

/-- **Slices never run out early**, after every run of slice calls and writes inside
slices, iff the slabs of the class have slices or the call finds none. -/
theorem usmmSliceAlloc_neverFailsEarly_iff (aligned : Aligned c) (starts : Starts c w)
    {as : List Act} (run : Run (SliceUseStep b) w as w') {size : BitVec 64} {k slice : Nat}
    (found : usmmSlabFind (size.setWidth 32) = some (k, slice)) :
    NeverFailsEarly c w' size k ↔
      0 < (classTotal c k).toInt ∨ w'.lists .free = [] ∧ w'.lists (.cls k) = [] :=
  (sliceUseRun_inv aligned starts run).neverFailsEarly_iff aligned.toRoomy found

theorem usmmSliceAlloc_neverFailsEarly_iff_testConf : ∃ w w', Starts testConf w ∧
    Run (SliceUseStep .debug) w [.sliceAlloc 8] w' ∧
    (NeverFailsEarly testConf w' 100 7 ↔
      0 < (classTotal testConf 7).toInt ∨ w'.lists .free = [] ∧ w'.lists (.cls 7) = []) := by
  obtain ⟨w, starts⟩ := exists_starts testConf_roomy
  have step : SliceUseStep .debug w (.sliceAlloc 8) _ := ⟨⟨trivial, rfl⟩, trivial⟩
  have found : usmmSlabFind ((100 : BitVec 64).setWidth 32) = some (7, 112) := by decide
  exact ⟨w, _, starts, .single step,
    usmmSliceAlloc_neverFailsEarly_iff testConf_aligned starts (.single step) found⟩

/-- All slabs of 32 GB are free, and a request for 8 bytes is answered with `NULL`. -/
theorem huge_slab_refuses : ¬ ∀ (c : UsmmConf) (w w' : World) (as : List Act) (size : BitVec 64)
    (k slice : Nat), Aligned c → Starts c w → Run (SliceUseStep .debug) w as w' →
    size.toNat ≤ 128 * 1024 → usmmSlabFind (size.setWidth 32) = some (k, slice) →
    NeverFailsEarly c w' size k := by
  intro complete
  obtain ⟨w, starts⟩ := exists_starts hugeConf_aligned.toRoomy
  have found : usmmSlabFind ((8 : BitVec 64).setWidth 32) = some (0, 8) := by decide
  have here := complete hugeConf w w [] 8 0 8 hugeConf_aligned starts (.nil w) (by decide) found
  have condition := ((starts.tidyInv hugeConf_aligned.toRoomy).neverFailsEarly_iff
    hugeConf_aligned.toRoomy found).mp here
  rcases condition with some | ⟨free, -⟩
  · exact absurd some (by decide)
  · obtain ⟨-, opened⟩ := starts.fresh hugeConf_aligned.toRoomy
    have listed : hugeConf.slabAddr 1 ∈ w.lists .free := by
      rw [opened]
      exact mem_initLists.mpr ⟨rfl, 1, le_rfl, by decide, rfl⟩
    rw [free] at listed
    cases listed

end Itaro.Usmm
