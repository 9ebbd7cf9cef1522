/-
# Usmm.SliceRuns -- a slab that has slices left is on the list of its class

What a run of slice calls keeps, in every configuration with aligned slabs: a slab
on a class list has some but not all of its slices taken, and one on `full_slabs`
has them all taken (`Tidy`).  The number of slices is cut to an `int`.  It is never
1, and where it is negative the slabs of the class have no slice to give and stay
on the class list with none taken; `Tidy` asks nothing of those.
-/
import Itaro.Usmm.Steps

namespace Itaro.Usmm

set_option autoImplicit false

open Theory

variable {c : UsmmConf} {w w' : World} {b : Build}

/-! ## The counters of a formatted slab -/

section Counters

variable {m : Mem} {s k : Nat} {live : List Nat}

theorem Formatted.isfull_iff (formatted : Formatted c m s k live) (some : live ≠ []) :
    (slabAt m s).isfull = true ↔ live.length = (classTotal c k).toInt.toNat := by
  obtain ⟨-, sliced⟩ := formatted
  have used := sliced.used_toNat
  have bound := sliced.length_le
  have positive := List.length_pos_iff.mpr some
  have nonzero : (slabAt m s).used ≠ 0 := fun zero => by
    rw [zero] at used
    exact absurd used (by simp; omega)
  have signed : (classTotal c k).toNat = (classTotal c k).toInt.toNat := by
    rw [BitVec.toInt_eq_toNat_cond] at bound ⊢
    split at bound
    · rw [if_pos ‹_›, Int.toNat_natCast]
    · have := (classTotal c k).isLt
      omega
  rw [UsmmSlab.isfull, Bool.and_eq_true, beq_iff_eq, sliced.totalEq, bne_iff_ne,
    and_iff_left nonzero, ← signed, ← used]
  exact BitVec.toNat_inj.symm

theorem Formatted.class_unique {k' : Nat} {live' : List Nat} (first : Formatted c m s k live)
    (second : Formatted c m s k' live') : k = k' :=
  sliceWord_injective first.1 second.1 (first.2.sliceEq.symm.trans second.2.sliceEq)

/-- A slab with a live slice has slices, as the `int` counts them. -/
theorem Formatted.total_pos (formatted : Formatted c m s k live) (some : live ≠ []) :
    0 < (classTotal c k).toInt := by
  have bound := formatted.2.length_le
  have positive := List.length_pos_iff.mpr some
  omega

end Counters

/-! ## Slices of a slab -/

/-- Cut to 32 bits, the number of slices of a slab is never 1. -/
theorem slices_ne_one : ∀ e < 64, 21 ≤ e → ∀ k < usmmSlabArrayMax,
    (2 ^ e - slabHeaderSize) / sliceSize k % 2 ^ 32 ≠ 1 := by
  decide +kernel

theorem two_le_classTotal (aligned : Aligned c) {k : Nat} (bound : k < usmmSlabArrayMax)
    (some : 0 < (classTotal c k).toInt) : 2 ≤ (classTotal c k).toInt.toNat := by
  obtain ⟨e, power⟩ := aligned.power
  have large := aligned.large
  have small : c.slabSize < 2 ^ 64 := c.slab.isLt
  rw [power] at large small
  have lower : 21 ≤ e := (Nat.pow_le_pow_iff_right one_lt_two).mp large
  have upper : e < 64 := (Nat.pow_lt_pow_iff_right one_lt_two).mp small
  have ne := slices_ne_one e upper lower k bound
  rw [← power, ← slicesPerSlab, ← classTotal_toNat aligned.toRoomy bound] at ne
  have signed : (classTotal c k).toInt = (classTotal c k).toNat := by
    rw [BitVec.toInt_eq_toNat_cond] at some ⊢
    split at some
    · exact if_pos ‹_›
    · have := (classTotal c k).isLt
      omega
  omega

/-! ## The invariant -/

/-- Where a slab has slices: one on a class list has slices taken and slices left,
and one on `full_slabs` has them all taken. -/
structure Tidy (c : UsmmConf) (w : World) : Prop where
  cls : ∀ {k s}, s ∈ w.lists (.cls k) → 0 < (classTotal c k).toInt →
    0 < (livePtrs c w.slices s).length ∧
      (livePtrs c w.slices s).length < (classTotal c k).toInt.toNat
  full : ∀ {s}, s ∈ w.lists .full → ∃ k, Formatted c w.mem s k (livePtrs c w.slices s) ∧
    0 < (classTotal c k).toInt ∧ (livePtrs c w.slices s).length = (classTotal c k).toInt.toNat

/-- The slabs an operation did not work on stay tidy. -/
theorem Tidy.others (tidy : Tidy c w) {slices : List Piece} {r' : Region} {j : Nat} {h₁ : Head}
    (roomy : c.Roomy) (inv : Inv c w)
    (frame : ChangesOnly (OpSpan c .stats (· = j)) w.mem r'.mem)
    (moves : Queues.Moves w.lists r'.lists (c.slabAddr j) h₁)
    (live : ∀ i, i ≠ j → livePtrs c slices (c.slabAddr i) = livePtrs c w.slices (c.slabAddr i))
    (cls : ∀ k, h₁ = .cls k → 0 < (classTotal c k).toInt →
      0 < (livePtrs c slices (c.slabAddr j)).length ∧
        (livePtrs c slices (c.slabAddr j)).length < (classTotal c k).toInt.toNat)
    (full : h₁ = .full → ∃ k, Formatted c r'.mem (c.slabAddr j) k
        (livePtrs c slices (c.slabAddr j)) ∧ 0 < (classTotal c k).toInt ∧
      (livePtrs c slices (c.slabAddr j)).length = (classTotal c k).toInt.toNat) :
    Tidy c { w with region := r', slices := slices } where
  cls {k s} listed := by
    rcases moves.mem.mp listed with ⟨rfl, same⟩ | ⟨ne, old⟩
    · exact cls k same.symm
    · obtain ⟨i, -, -, rfl⟩ := inv.slabs old
      rw [live i fun same => ne (same ▸ rfl)]
      exact tidy.cls old
  full {s} listed := by
    rcases moves.mem.mp listed with ⟨rfl, same⟩ | ⟨ne, old⟩
    · exact full same.symm
    · obtain ⟨i, positive, below, rfl⟩ := inv.slabs old
      have other : i ≠ j := fun same => ne (same ▸ rfl)
      obtain ⟨k, formatted, some, whole⟩ := tidy.full old
      rw [live i other]
      exact ⟨k, formatted.of_opSpan roomy frame positive below other, some, whole⟩

section Allocation

variable {r' : Region} {k j p : Nat} {fresh : Bool}
  (gave : Gave c w.region r' k j fresh (livePtrs c w.slices (c.slabAddr j)) p)
include gave

/-- A slab that has slices gives one. -/
theorem Gave.given_of_pos (inv : Inv c w) (tidy : Tidy c w) (some : 0 < (classTotal c k).toInt) :
    p ≠ 0 := by
  intro null
  have whole := gave.null null
  have listed := gave.listed
  cases fresh with
  | true =>
      rw [(inv.ok listed).2, List.length_nil] at whole
      omega
  | false =>
      have bounds := tidy.cls listed some
      omega

/-- A slab that gives a slice has slices. -/
theorem Gave.total_pos (given : p ≠ 0) : 0 < (classTotal c k).toInt :=
  gave.formatted.total_pos (by rw [grant, if_neg given]; exact List.cons_ne_nil _ _)

/-- It has had one taken, unless it was cut just now. -/
theorem Gave.isfull_iff (given : p ≠ 0) : (slabAt r'.mem (c.slabAddr j)).isfull = true ↔
    (livePtrs c w.slices (c.slabAddr j)).length + 1 = (classTotal c k).toInt.toNat := by
  have formatted := gave.formatted
  rw [grant, if_neg given] at formatted
  rw [formatted.isfull_iff (List.cons_ne_nil _ _), List.length_cons]

theorem Tidy.alloc {size : BitVec 64} (tidy : Tidy c w) (roomy : c.Roomy) (inv : Inv c w) :
    Tidy c { w with region := r', slices := hold w.slices p size } := by
  have live : livePtrs c (hold w.slices p size) (c.slabAddr j) =
      grant (livePtrs c w.slices (c.slabAddr j)) p := gave.livePtrs_hold roomy
  have formatted := gave.formatted
  have bound := formatted.2.length_le
  refine tidy.others roomy inv gave.frame gave.moves (fun i ne => gave.livePtrs_others roomy ne)
    (fun k' same some => ?_) fun same => ?_
  · rw [live]
    unfold usedHead at same
    split at same
    · cases same
    · rename_i notFull
      cases same
      have given := gave.given_of_pos inv tidy some
      have short := mt (gave.isfull_iff given).mpr notFull
      rw [grant, if_neg given, List.length_cons] at bound ⊢
      omega
  · rw [live]
    unfold usedHead at same
    split at same
    · rename_i full
      have given : p ≠ 0 := by
        rintro rfl
        -- a slab that gave nothing has none taken, or has slices left
        rw [UsmmSlab.isfull, Bool.and_eq_true, bne_iff_ne] at full
        have used := formatted.2.used_toNat
        rw [grant, if_pos rfl] at used bound
        have count : (livePtrs c w.slices (c.slabAddr j)).length ≠ 0 := fun none =>
          full.2 (BitVec.eq_of_toNat_eq (used.trans none))
        exact gave.given_of_pos inv tidy (by omega) rfl
      have whole := (gave.isfull_iff given).mp full
      refine ⟨k, formatted, gave.total_pos given, ?_⟩
      rw [grant, if_neg given, List.length_cons, whole]
    · cases same

end Allocation

theorem Tidy.free {r' : Region} {k j p : Nat} {h : Head} (tidy : Tidy c w) (aligned : Aligned c)
    (inv : Inv c w) (freed : Freed c w.region r' k j h (livePtrs c w.slices (c.slabAddr j)) p) :
    Tidy c { w with region := r', slices := drop w.slices p } := by
  have roomy := aligned.toRoomy
  have live := livePtrs_drop (c := c) w.slices (c.slabAddr j) p
  have length := List.length_erase_of_mem freed.alive
  have some : livePtrs c w.slices (c.slabAddr j) ≠ [] := List.ne_nil_of_mem freed.alive
  have isfull := freed.before.isfull_iff some
  have bound := freed.before.2.length_le
  have two := two_le_classTotal aligned freed.before.1 (freed.before.total_pos some)
  have others : ∀ i, i ≠ j → livePtrs c (drop w.slices p) (c.slabAddr i) =
      livePtrs c w.slices (c.slabAddr i) := fun i ne =>
    livePtrs_drop_outside fun inside => ne (inside.unique freed.inside)
  cases freed.outcome with
  | reopened full moves formatted counted =>
      have whole := isfull.mp full
      refine tidy.others roomy inv freed.frame moves others (fun k' same _ => ?_) nofun
      cases same
      rw [live]
      omega
  | emptied notFull none moves blank counted =>
      exact tidy.others roomy inv freed.frame moves others nofun nofun
  | kept notFull left moves formatted counted =>
      have short : (livePtrs c w.slices (c.slabAddr j)).length ≠ (classTotal c k).toInt.toNat :=
        fun whole => Bool.eq_false_iff.mp notFull (isfull.mpr whole)
      have rest := List.length_pos_iff.mpr left
      refine tidy.others roomy inv freed.frame moves others (fun k' same _ => ?_) fun same => ?_
      · rcases freed.home with rfl | rfl
        · cases same
          rw [live]
          omega
        · cases same
      · subst same
        obtain ⟨k', formatted', -, whole⟩ := tidy.full freed.listed
        rw [Formatted.class_unique formatted' freed.before] at whole
        exact absurd whole short

theorem Tidy.client (tidy : Tidy c w) (roomy : c.Roomy) (inv : Inv c w) {x : Piece}
    (slice : x ∈ w.slices) {size k : Nat}
    (found : usmmSlabFind (x.size.setWidth 32) = some (k, size)) {m' : Mem}
    (changes : ChangesOnly (Span x.ptr size) w.mem m') :
    Tidy c { w with region := w.region.update fun _ => m' } where
  cls := tidy.cls
  full {s} listed := by
    obtain ⟨j, h, -, -, -, -, -, -, kept⟩ := inv.formatted_of_client roomy slice found changes
    obtain ⟨i, positive, below, rfl⟩ := inv.slabs listed
    obtain ⟨k', formatted, rest⟩ := tidy.full listed
    exact ⟨k', kept i k' positive below formatted, rest⟩

/-! ## Steps and runs -/

/-- An action of a client of the slice allocator: a call, or a write inside one of
its slices. -/
def SliceUse (w : World) : Act → Prop
  | .sliceAlloc _ | .sliceFree _ => True
  | .write addr _ => ∃ x ∈ w.slices, SliceBytes x addr
  | _ => False

def SliceUseStep (b : Build) (w : World) (a : Act) (w' : World) : Prop :=
  Step b w a w' ∧ SliceUse w a

/-- What holds in every state of a run of such actions. -/
structure TidyInv (c : UsmmConf) (w : World) : Prop where
  inv : Inv c w
  tidy : Tidy c w
  idle : w.blocks = []

theorem TidyInv.step (aligned : Aligned c) (before : TidyInv c w) {a : Act}
    (step : SliceUseStep b w a w') : TidyInv c w' := by
  have roomy := aligned.toRoomy
  obtain ⟨inv, tidy, idle⟩ := before
  obtain ⟨step, use⟩ := step
  cases a with
  | sliceAlloc size =>
      rcases step.sliceAlloc_cases roomy inv with
        ⟨rfl, -⟩ | ⟨r', p, k, j, fresh, rfl, bound, found, gave⟩
      · exact ⟨inv, tidy, idle⟩
      · exact ⟨gave.inv roomy inv found, tidy.alloc gave roomy inv, idle⟩
  | sliceFree ptr =>
      rcases step.sliceFree_cases roomy inv (aligned.ownerFound ptr) with
        rfl | ⟨x, r', k, j, h, slice, rfl, perm, rfl, found, freed⟩
      · exact ⟨inv, tidy, idle⟩
      · exact ⟨freed.inv roomy inv, tidy.free aligned inv freed, idle⟩
  | write addr byte =>
      obtain ⟨-, performed⟩ := step
      cases performed
      obtain ⟨x, slice, k, size, found, lower, upper⟩ := use
      have changes : ChangesOnly (Span x.ptr size) w.mem (setU8 w.mem addr byte) :=
        (setU8_changesOnly w.mem addr byte).mono fun y span => by
          simp only [Span] at span ⊢
          omega
      exact ⟨inv.client roomy slice found changes, tidy.client roomy inv slice found changes, idle⟩
  | _ => exact use.elim

theorem Starts.tidyInv (roomy : c.Roomy) (starts : Starts c w) : TidyInv c w := by
  obtain ⟨-, opened⟩ := starts.fresh roomy
  refine ⟨starts_inv roomy starts, ⟨fun {k s} listed => ?_, fun {s} listed => ?_⟩, starts.blocks⟩
  · rw [opened] at listed
    cases listed
  · rw [opened] at listed
    cases listed

theorem sliceUseRun_inv (aligned : Aligned c) (starts : Starts c w) {as : List Act}
    (run : Run (SliceUseStep b) w as w') : TidyInv c w' :=
  run.invariant (fun _ _ _ before step => before.step aligned step)
    (starts.tidyInv aligned.toRoomy)

end Itaro.Usmm
