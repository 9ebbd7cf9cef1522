/-
# Usmm.Placement -- the counters of a slab determine its list

In a run of slice calls a slab is on `free_slabs` while it has no format, on the
list of its class while some but not all of its slices are taken, and on
`full_slabs` when all are (`placement`).  It takes two slices to a slab: a slab
that leaves `full_slabs` goes to its class even if it is empty by then.  The
number of slices is cut to an `int`.  It is never 1, but in slabs of 32 GB and
more it can be negative, and then a slab is put on a class list with nothing to
give (`misplaced`, `huge_slab_misplaced`).
-/
import Itaro.Usmm.Ownership
import Itaro.Usmm.SliceRuns
import Mathlib.Data.BitVec

namespace Itaro.Usmm

set_option autoImplicit false

open Theory

variable {c : UsmmConf} {w w' : World} {b : Build}

/-! ## The list a header names -/

/-- The list the header of a slab says it is on. -/
def HeadFits (slab : UsmmSlab) : Head → Prop
  | .free => slab.slice = 0 ∧ slab.total = 0 ∧ slab.used = 0
  | .cls k => k < usmmSlabArrayMax ∧ slab.slice = BitVec.ofNat 64 (sliceSize k) ∧
      0 < slab.used.toInt ∧ slab.used.toInt < slab.total.toInt
  | .full => ¬ (slab.slice = 0 ∧ slab.total = 0 ∧ slab.used = 0) ∧ slab.used = slab.total

theorem sliceWord_ne_zero {k : Nat} (bound : k < usmmSlabArrayMax) :
    BitVec.ofNat 64 (sliceSize k) ≠ 0 := by
  obtain ⟨lower, upper, -⟩ := sliceSize_bounds k bound
  intro zero
  have value := congrArg BitVec.toNat zero
  rw [u64_ofNat_toNat (by omega)] at value
  have : (0 : BitVec 64).toNat = 0 := rfl
  omega

/-- It says so of one list at most. -/
theorem HeadFits.unique {slab : UsmmSlab} {h h' : Head} (first : HeadFits slab h)
    (second : HeadFits slab h') : h = h' := by
  have apart : ∀ {k}, HeadFits slab (.cls k) → ¬ HeadFits slab .free ∧ ¬ HeadFits slab .full := by
    rintro k ⟨bound, class', -, less⟩
    refine ⟨fun blank => sliceWord_ne_zero bound (class'.symm.trans blank.1), fun full => ?_⟩
    rw [full.2] at less
    exact lt_irrefl _ less
  cases h with
  | free =>
      cases h' with
      | free => rfl
      | cls k => exact absurd first (apart second).1
      | full => exact absurd first second.1
  | cls k =>
      cases h' with
      | free => exact absurd second (apart first).1
      | cls k' =>
          rw [sliceWord_injective first.1 second.1 (first.2.1.symm.trans second.2.1)]
      | full => exact absurd second (apart first).2
  | full =>
      cases h' with
      | free => exact absurd second first.1
      | cls k => exact absurd first (apart second).2
      | full => rfl

/-! ## The invariant -/

/-- A slab on a class list has slices taken and slices left, and two at least; one
on `full_slabs` has them all taken, and two at least. -/
structure Settled (c : UsmmConf) (w : World) : Prop where
  cls : ∀ {k s}, s ∈ w.lists (.cls k) → 0 < (livePtrs c w.slices s).length ∧
    (livePtrs c w.slices s).length < (classTotal c k).toInt.toNat
  full : ∀ {s}, s ∈ w.lists .full → ∃ k, Formatted c w.mem s k (livePtrs c w.slices s) ∧
    2 ≤ (classTotal c k).toInt.toNat ∧
    (livePtrs c w.slices s).length = (classTotal c k).toInt.toNat

theorem Settled.tidy (settled : Settled c w) : Tidy c w where
  cls listed _ := settled.cls listed
  full listed := by
    obtain ⟨k, formatted, two, whole⟩ := settled.full listed
    exact ⟨k, formatted, by omega, whole⟩

theorem Settled.total_pos (settled : Settled c w) {k s : Nat} (listed : s ∈ w.lists (.cls k)) :
    0 < (classTotal c k).toInt := by
  have bounds := settled.cls listed
  omega

/-- A tidy state is settled if every class that is on its list has slices. -/
theorem Tidy.settled (tidy : Tidy c w) (aligned : Aligned c)
    (some : ∀ {k s}, s ∈ w.lists (.cls k) → 0 < (classTotal c k).toInt) : Settled c w where
  cls listed := tidy.cls listed (some listed)
  full listed := by
    obtain ⟨k, formatted, some, whole⟩ := tidy.full listed
    exact ⟨k, formatted, two_le_classTotal aligned formatted.1 some, whole⟩

/-! ## Steps and runs -/

/-- An action of the slice allocator. -/
def Slicing : Act → Prop
  | .sliceAlloc size => size.toNat ≤ 128 * 1024
  | .sliceFree _ => True
  | _ => False

/-- A slab that is cut in this step has slices, as the `int` counts them. -/
def CutsSome (c : UsmmConf) (w : World) : Act → Prop
  | .sliceAlloc size => ∀ k slice, usmmSlabFind (size.setWidth 32) = some (k, slice) →
      w.lists (.cls k) = [] → w.lists .free ≠ [] → 0 < (classTotal c k).toInt
  | _ => True

def SliceStep (c : UsmmConf) (b : Build) (w : World) (a : Act) (w' : World) : Prop :=
  Step b w a w' ∧ Slicing a ∧ CutsSome c w a

/-- What holds in every state of a run of slice calls. -/
structure SliceInv (c : UsmmConf) (w : World) : Prop where
  inv : Inv c w
  settled : Settled c w
  idle : w.blocks = []

/-- The class of an allocation has slices. -/
theorem Gave.cuts {r' : Region} {k j p : Nat} {fresh : Bool} {size : BitVec 64}
    (gave : Gave c w.region r' k j fresh (livePtrs c w.slices (c.slabAddr j)) p)
    (settled : Settled c w) (found : usmmSlabFind (size.setWidth 32) = some (k, sliceSize k))
    (cuts : CutsSome c w (.sliceAlloc size)) : 0 < (classTotal c k).toInt := by
  have listed := gave.listed
  cases fresh with
  | true => exact cuts k _ found (gave.spare rfl) (List.ne_nil_of_mem listed)
  | false => exact settled.total_pos listed

theorem Slicing.use {a : Act} (slicing : Slicing a) : SliceUse w a := by
  cases a with
  | sliceAlloc size => trivial
  | sliceFree ptr => trivial
  | _ => exact slicing.elim

/-- A class that comes onto its list has slices. -/
theorem Settled.step (settled : Settled c w) (aligned : Aligned c) (inv : Inv c w) {a : Act}
    (step : SliceStep c b w a w') {k s : Nat} (listed : s ∈ w'.lists (.cls k)) :
    0 < (classTotal c k).toInt := by
  have roomy := aligned.toRoomy
  obtain ⟨step, slicing, cuts⟩ := step
  cases a with
  | sliceAlloc size =>
      rcases step.sliceAlloc_cases roomy inv with
        ⟨rfl, -⟩ | ⟨r', p, k', j, fresh, rfl, bound, found, gave⟩
      · exact settled.total_pos listed
      · have some := gave.cuts settled found cuts
        rcases gave.moves.mem.mp listed with ⟨-, same⟩ | ⟨-, old⟩
        · unfold usedHead at same
          split at same
          · cases same
          · cases same
            exact some
        · exact settled.total_pos old
  | sliceFree ptr =>
      rcases step.sliceFree_cases roomy inv (aligned.ownerFound ptr) with
        rfl | ⟨x, r', k', j, h, slice, rfl, perm, rfl, found, freed⟩
      · exact settled.total_pos listed
      have some := freed.before.total_pos (List.ne_nil_of_mem freed.alive)
      -- the slab comes onto the list of its class, if any
      have own : ∀ {h₁}, (h₁ = .cls k' ∨ h₁ = .full ∨ h₁ = .free) →
          Queues.Moves w.lists r'.lists (c.slabAddr j) h₁ → 0 < (classTotal c k).toInt := by
        intro h₁ kind moves
        rcases moves.mem.mp listed with ⟨-, same⟩ | ⟨-, old⟩
        · rcases kind with rfl | rfl | rfl <;> cases same
          exact some
        · exact settled.total_pos old
      cases freed.outcome with
      | reopened full moves formatted counted => exact own (.inl rfl) moves
      | emptied notFull none moves blank counted => exact own (.inr (.inr rfl)) moves
      | kept notFull left moves formatted counted => exact own (freed.home.imp id .inl) moves
  | _ => exact slicing.elim

theorem SliceInv.step (aligned : Aligned c) (before : SliceInv c w) {a : Act}
    (step : SliceStep c b w a w') : SliceInv c w' := by
  obtain ⟨inv, settled, idle⟩ := before
  have after := TidyInv.step aligned ⟨inv, settled.tidy, idle⟩ ⟨step.1, step.2.1.use⟩
  exact ⟨after.inv, after.tidy.settled aligned (settled.step aligned inv step), after.idle⟩

theorem Starts.sliceInv (aligned : Aligned c) (starts : Starts c w) : SliceInv c w := by
  obtain ⟨inv, tidy, idle⟩ := starts.tidyInv aligned.toRoomy
  obtain ⟨-, opened⟩ := starts.fresh aligned.toRoomy
  refine ⟨inv, tidy.settled aligned fun {k s} listed => ?_, idle⟩
  rw [opened] at listed
  cases listed

theorem sliceRun_inv (aligned : Aligned c) (starts : Starts c w) {as : List Act}
    (run : Run (SliceStep c b) w as w') : SliceInv c w' :=
  run.invariant (fun _ _ _ before step => before.step aligned step)
    (starts.sliceInv aligned)

/-! ## Placement -/

structure Placement (c : UsmmConf) (w : World) : Prop where
  one : ∀ i, 1 ≤ i → i < c.slabCount → ∃! h, c.slabAddr i ∈ w.lists h
  once : ∀ h, (w.lists h).Nodup
  fits : ∀ i, 1 ≤ i → i < c.slabCount → ∀ h,
    c.slabAddr i ∈ w.lists h ↔ HeadFits (slabAt w.mem (c.slabAddr i)) h

/-- A listed slab is on the list its header names. -/
theorem SliceInv.headFits (before : SliceInv c w) {h : Head} {s : Nat} (listed : s ∈ w.lists h) :
    HeadFits (slabAt w.mem s) h := by
  have ok := before.inv.ok listed
  cases h with
  | free =>
      rw [HeadFits, ok.1]
      exact ⟨rfl, rfl, rfl⟩
  | cls k =>
      obtain ⟨bound, sliced⟩ := ok
      have bounds := before.settled.cls listed
      have small := toInt_toNat_lt (classTotal c k)
      have used := sliced.used_toNat
      refine ⟨bound, sliced.sliceEq, ?_⟩
      rw [BitVec.toInt_eq_toNat_of_lt (by omega), used, sliced.totalEq]
      omega
  | full =>
      obtain ⟨k, formatted, two, whole⟩ := before.settled.full listed
      have some : livePtrs c w.slices s ≠ [] := List.ne_nil_of_length_pos (by omega)
      have full := (formatted.isfull_iff some).mpr whole
      rw [UsmmSlab.isfull, Bool.and_eq_true, beq_iff_eq] at full
      refine ⟨fun blank => ?_, full.1⟩
      exact sliceWord_ne_zero formatted.1 (formatted.2.sliceEq.symm.trans blank.1)

theorem SliceInv.toPlacement (before : SliceInv c w) : Placement c w where
  one i positive below := by
    rcases before.inv.cover i positive below with ⟨h, listed⟩ | ⟨x, block, -⟩
    · exact ⟨h, listed, fun h' other => before.inv.placed.one other listed⟩
    · rw [before.idle] at block
      exact absurd block List.not_mem_nil
  once := before.inv.placed.nodup
  fits i positive below h := by
    refine ⟨before.headFits, fun fits => ?_⟩
    rcases before.inv.cover i positive below with ⟨h', listed⟩ | ⟨x, block, -⟩
    · rw [fits.unique (before.headFits listed)]
      exact listed
    · rw [before.idle] at block
      exact absurd block List.not_mem_nil

/-- **Placement.**  It holds after every run of slice calls in which each slab that
is cut has slices. -/
theorem placement (aligned : Aligned c) (starts : Starts c w) {as : List Act}
    (run : Run (SliceStep c b) w as w') : Placement c w' :=
  (sliceRun_inv aligned starts run).toPlacement

/-- A slab without slices is cut all the same, and answers `NULL`. -/
theorem gives_null (roomy : c.Roomy) (inv : Inv c w) {size : BitVec 64}
    (step : Step b w (.sliceAlloc size) w') (cuts : ¬ CutsSome c w (.sliceAlloc size)) :
    ∃ r' k j fresh, w' = { w with region := r' } ∧
      usmmSlabFind (size.setWidth 32) = some (k, sliceSize k) ∧
      (classTotal c k).toInt.toNat = 0 ∧
      Gave c w.region r' k j fresh (livePtrs c w.slices (c.slabAddr j)) 0 := by
  obtain ⟨k, slice, found, ready, spare, none⟩ : ∃ k slice,
      usmmSlabFind (size.setWidth 32) = some (k, slice) ∧ w.lists (.cls k) = [] ∧
      w.lists .free ≠ [] ∧ ¬ 0 < (classTotal c k).toInt := by
    simpa only [CutsSome, not_forall, exists_prop] using cuts
  rcases step.sliceAlloc_cases roomy inv with
    ⟨-, refused⟩ | ⟨r', p, k', j, fresh, rfl, bound, found', gave⟩
  · exact absurd (refused k slice found).2 spare
  · obtain rfl : k' = k := by
      rw [found', Option.some.injEq, Prod.mk.injEq] at found
      exact found.1
    have zero : (classTotal c k').toInt.toNat = 0 := by omega
    have null : p = 0 := by
      by_contra given
      have length := gave.formatted.2.length_le
      rw [grant, if_neg given, List.length_cons] at length
      omega
    subst null
    exact ⟨r', k', j, fresh, rfl, found', zero, gave⟩

/-- That slab stays on the list of its class with none taken. -/
theorem misplaced (roomy : c.Roomy) (inv : Inv c w) {size : BitVec 64}
    (step : Step b w (.sliceAlloc size) w') (cuts : ¬ CutsSome c w (.sliceAlloc size)) :
    ¬ Placement c w' := by
  obtain ⟨r', k, j, fresh, rfl, found, none, gave⟩ := gives_null roomy inv step cuts
  intro placement
  obtain ⟨-, sliced⟩ := gave.formatted
  have count := sliced.used_toNat
  have bounded := sliced.length_le
  have zero : (slabAt r'.mem (c.slabAddr j)).used = 0 :=
    BitVec.eq_of_toNat_eq (count.trans (by show _ = 0; omega))
  have there := gave.moves.listed
  rw [usedHead, UsmmSlab.isfull, zero, bne_self_eq_false, Bool.and_false,
    if_neg Bool.false_ne_true] at there
  have fits : HeadFits (slabAt r'.mem (c.slabAddr j)) (.cls k) :=
    (placement.fits j gave.positive gave.below _).mp there
  have some := fits.2.2.1
  rw [zero] at some
  exact absurd some (by decide)

/-! ## Two configurations -/

theorem testConf_cutsSome (a : Act) : CutsSome testConf w a := by
  have all : ∀ k < usmmSlabArrayMax, 0 < (classTotal testConf k).toInt := by decide
  cases a with
  | sliceAlloc size => exact fun k slice found _ _ => all k (usmmSlabFind_eq_some found).2.1
  | _ => trivial

/-- A slice is taken and given back, and then one of another class is taken. -/
theorem exists_run_slices (b : Build) : ∃ w w' p, Starts testConf w ∧
    Run (SliceStep testConf b) w [.sliceAlloc 8, .sliceFree p, .sliceAlloc 100] w' := by
  obtain ⟨w, starts⟩ := exists_starts testConf_roomy
  obtain ⟨-, opened⟩ := starts.fresh testConf_roomy
  have free : testConf.slabAddr 1 ∈ w.lists .free := by
    rw [opened]
    exact mem_initLists.mpr ⟨rfl, 1, le_rfl, by decide, rfl⟩
  have inv := starts_inv testConf_roomy starts
  obtain ⟨r, p, -, given⟩ := inv.perform_eight starts.slices (List.ne_nil_of_mem free) b
  have first : Step b w (.sliceAlloc 8) ⟨r, w.blocks, [⟨p, 8⟩]⟩ := ⟨trivial, given⟩
  have inv₁ := step_inv testConf_roomy inv (a := .sliceAlloc 8) trivial trivial first
  obtain ⟨w₂, released, -⟩ := @Inv.exists_sliceFree _ _ b inv₁ testConf_aligned _ List.mem_cons_self
  have again : Step b w₂ (.sliceAlloc 100) _ := ⟨trivial, rfl⟩
  have small : Slicing (.sliceAlloc 8) ∧ Slicing (.sliceAlloc 100) := by
    constructor <;> (show _ ≤ _; decide)
  exact ⟨w, _, p, starts, ((Run.single ⟨first, small.1, testConf_cutsSome _⟩).snoc
    ⟨released.1, trivial, trivial⟩).snoc ⟨again, small.2, testConf_cutsSome _⟩⟩

theorem placement_testConf : ∃ w w' p, Starts testConf w ∧
    Run (SliceStep testConf .debug) w [.sliceAlloc 8, .sliceFree p, .sliceAlloc 100] w' ∧
    Placement testConf w' := by
  obtain ⟨w, w', p, starts, run⟩ := exists_run_slices .debug
  exact ⟨w, w', p, starts, run, placement testConf_aligned starts run⟩

/-- Four slabs of 32 GB. -/
def hugeConf : UsmmConf :=
  { testConf with addr := 0x00003AA800000000, length := 2 ^ 37, slab := 2 ^ 35 }

theorem hugeConf_aligned : Aligned hugeConf where
  toRoomy := ⟨by decide, by decide, by decide, by decide⟩
  power := ⟨35, by decide⟩
  aligned := by decide

/-- The smallest class has 2^32 - 7 slices there, which is -7. -/
theorem Starts.not_cutsSome (starts : Starts hugeConf w) :
    ¬ CutsSome hugeConf w (.sliceAlloc 8) := by
  obtain ⟨-, opened⟩ := starts.fresh hugeConf_aligned.toRoomy
  intro cuts
  refine absurd (cuts 0 8 (by decide) ?_ ?_) (by decide)
  · rw [opened]
    rfl
  · rw [opened]
    exact List.ne_nil_of_mem (mem_initLists.mpr ⟨rfl, 1, le_rfl, by decide, rfl⟩)

theorem huge_slab_misplaced : ¬ ∀ (c : UsmmConf) (w w' : World) (as : List Act), Aligned c →
    Starts c w → Run (fun w a w' => Step .release w a w' ∧ Slicing a) w as w' →
    Placement c w' := by
  intro placed
  obtain ⟨w, starts⟩ := exists_starts hugeConf_aligned.toRoomy
  have inv := starts_inv hugeConf_aligned.toRoomy starts
  have step : Step .release w (.sliceAlloc 8) _ := ⟨trivial, rfl⟩
  refine misplaced hugeConf_aligned.toRoomy inv step starts.not_cutsSome ?_
  exact placed hugeConf w _ _ hugeConf_aligned starts (.single ⟨step, by show _ ≤ _; decide⟩)

end Itaro.Usmm
