/-
# Usmm.Statistics -- the counters equal the state they describe

An operation works on one slab, so it changes each count of slabs by what it does
to the header of that slab (`slabsThat_update`).  `Counted` says that the words of
the statistics are the counts, cut to their width; it is kept by every step
(`Counted.alloc`, `Counted.free`), and as there are fewer than 2^31 slabs and than
2^64 live slices, nothing is cut (`statistics`).

A request that gets `NULL` from a slab without slices is counted all the same
(`miscounted`), which happens in the runs that `Usmm.Placement` excludes.
-/
import Itaro.Theory.Count
import Itaro.Usmm.Placement

namespace Itaro.Usmm

set_option autoImplicit false

open Theory

/-! ## What is counted -/

namespace UsmmSlab

/-- The slab is cut for class `k`. -/
def ofClass (k : Nat) (slab : UsmmSlab) : Bool := slab.slice == BitVec.ofNat 64 (sliceSize k)

/-- The slab is cut for class `k` and full. -/
def fullOf (k : Nat) (slab : UsmmSlab) : Bool := slab.ofClass k && slab.isfull

/-- The slab has no format. -/
def blank (slab : UsmmSlab) : Bool := slab.slice == 0

end UsmmSlab

/-- The size of the slice is one of class `k`. -/
def Piece.ofClass (k : Nat) (x : Piece) : Bool :=
  usmmSlabFind (x.size.setWidth 32) == some (k, sliceSize k)

/-- The number of slabs from 1 on whose header passes `p`. -/
def slabsThat (c : UsmmConf) (m : Mem) (p : UsmmSlab → Bool) : Nat :=
  (List.range' 1 (c.slabCount - 1)).countP fun i => p (slabAt m (c.slabAddr i))

/-- The words of the statistics. -/
structure Counted (c : UsmmConf) (w : World) : Prop where
  free : (counters c w.mem).free = BitVec.ofNat 32 (slabsThat c w.mem UsmmSlab.blank)
  full : (counters c w.mem).full = BitVec.ofNat 32 (slabsThat c w.mem UsmmSlab.isfull)
  used : ∀ k < usmmSlabArrayMax, ((counters c w.mem).stats k).used =
    BitVec.ofNat 64 (w.slices.countP (Piece.ofClass k))
  slabs : ∀ k < usmmSlabArrayMax, ((counters c w.mem).stats k).slabs =
    BitVec.ofNat 32 (slabsThat c w.mem (UsmmSlab.ofClass k))
  sliceFull : ∀ k < usmmSlabArrayMax, ((counters c w.mem).stats k).full =
    BitVec.ofNat 32 (slabsThat c w.mem (UsmmSlab.fullOf k))

variable {c : UsmmConf} {w w' : World} {b : Build}

/-! ## Headers -/

section Headers

variable {m : Mem} {s k : Nat} {live : List Nat}

theorem ofClass_unformatted (bound : k < usmmSlabArrayMax) :
    UsmmSlab.unformatted.ofClass k = false :=
  beq_eq_false_iff_ne.mpr (sliceWord_ne_zero bound).symm

theorem Formatted.ofClass (formatted : Formatted c m s k live) {k' : Nat}
    (bound : k' < usmmSlabArrayMax) : (slabAt m s).ofClass k' = decide (k' = k) := by
  rw [UsmmSlab.ofClass, formatted.2.sliceEq, Bool.eq_iff_iff, beq_iff_eq, decide_eq_true_iff]
  constructor
  · exact fun same => (sliceWord_injective formatted.1 bound same).symm
  · exact fun same => by rw [same]

theorem Formatted.blank (formatted : Formatted c m s k live) : (slabAt m s).blank = false := by
  rw [UsmmSlab.blank, formatted.2.sliceEq]
  exact beq_eq_false_iff_ne.mpr (sliceWord_ne_zero formatted.1)

/-- A slab with a slice left is not full. -/
theorem Formatted.not_full (formatted : Formatted c m s k live)
    (short : live.length < (classTotal c k).toInt.toNat) : (slabAt m s).isfull = false := by
  refine Bool.eq_false_iff.mpr fun full => ?_
  have some : live ≠ [] := by
    rintro rfl
    rw [UsmmSlab.isfull, formatted.2.usedEq, Bool.and_eq_true] at full
    exact absurd full.2 (by decide)
  have whole := (formatted.isfull_iff some).mp full
  omega

end Headers

theorem Piece.ofClass_eq (x : Piece) {k k' : Nat}
    (found : usmmSlabFind (x.size.setWidth 32) = some (k, sliceSize k)) :
    x.ofClass k' = decide (k' = k) := by
  rw [Piece.ofClass, found, Bool.eq_iff_iff, beq_iff_eq, decide_eq_true_iff]
  constructor
  · intro same
    cases same
    rfl
  · exact fun same => by rw [same]

/-! ## One slab changes -/

/-- A count of slabs changes by what happens to the header of slab `j`. -/
theorem slabsThat_update (roomy : c.Roomy) {m m' : Mem} {j : Nat} (positive : 1 ≤ j)
    (below : j < c.slabCount) (frame : ChangesOnly (OpSpan c .stats (· = j)) m m')
    (p : UsmmSlab → Bool) : slabsThat c m' p + (p (slabAt m (c.slabAddr j))).toNat =
      slabsThat c m p + (p (slabAt m' (c.slabAddr j))).toNat := by
  have member : j ∈ List.range' 1 (c.slabCount - 1) := List.mem_range'_1.mpr ⟨positive, by omega⟩
  refine @countP_update _ _ (fun i => p (slabAt m (c.slabAddr i)))
    (fun i => p (slabAt m' (c.slabAddr i))) j List.nodup_range' member fun i member other => ?_
  rw [slabAt_of_opSpan roomy frame (List.mem_range'_1.mp member).1 other]

/-! ## The words of the statistics -/

/-- How the counters tick as a slab is cut for class `k`, if `fresh`, and gives a
slice, after which it is full iff `full`.  A release ticks them back. -/
structure Counters.Takes (t t' : Counters) (k : Nat) (fresh full : Bool) : Prop where
  free : Ticks t.free t'.free fresh false
  fullSlabs : Ticks t.full t'.full false full
  used : Ticks (t.stats k).used (t'.stats k).used false true
  slabs : Ticks (t.stats k).slabs (t'.stats k).slabs (!fresh) true
  sliceFull : Ticks (t.stats k).full (t'.stats k).full false full
  others : ∀ k', k' ≠ k → t'.stats k' = t.stats k'

namespace Counters

theorem takes (t : Counters) (k : Nat) (fresh full : Bool) :
    t.Takes ((t.cut k fresh).take k full) k fresh full where
  free := by
    rw [take_free, cut_free]
    cases fresh with
    | false => exact .refl _ _
    | true => exact .down _
  fullSlabs := by
    rw [take_full, cut_full]
    cases full with
    | false => exact .refl _ _
    | true => exact .up _
  used := by
    rw [take_own, cut_own]
    exact .up _
  slabs := by
    rw [take_own, cut_own]
    cases fresh with
    | false => exact .refl _ _
    | true => exact .up _
  sliceFull := by
    rw [take_own, cut_own]
    cases full with
    | false => exact .refl _ _
    | true => exact .up _
  others k' ne := by rw [take_other _ _ _ ne, cut_other _ _ _ ne]

/-- The release that reopens a full slab. -/
theorem takes_reopened (t : Counters) (k : Nat) :
    Takes (((t.addUsed k (-1)).addSliceFull k (-1)).addFull (-1)) t k false true where
  free := by
    rw [addFull_free, addSliceFull_free, addUsed_free]
    exact .refl _ _
  fullSlabs := by
    rw [addFull_full, addSliceFull_full, addUsed_full]
    exact Ticks.symm (.down _)
  used := by
    rw [addFull_stats, addSliceFull_own, addUsed_own]
    exact Ticks.symm (.down _)
  slabs := by
    rw [addFull_stats, addSliceFull_own, addUsed_own]
    exact .refl _ _
  sliceFull := by
    rw [addFull_stats, addSliceFull_own, addUsed_own]
    exact Ticks.symm (.down _)
  others k' ne := by rw [addFull_stats, addSliceFull_other _ _ _ ne, addUsed_other _ _ _ ne]

/-- The release that leaves a slab empty. -/
theorem takes_emptied (t : Counters) (k : Nat) :
    Takes (((t.addUsed k (-1)).addSlabs k (-1)).addFree 1) t k true false where
  free := by
    rw [addFree_free, addSlabs_free, addUsed_free]
    exact Ticks.symm (.up _)
  fullSlabs := by
    rw [addFree_full, addSlabs_full, addUsed_full]
    exact .refl _ _
  used := by
    rw [addFree_stats, addSlabs_own, addUsed_own]
    exact Ticks.symm (.down _)
  slabs := by
    rw [addFree_stats, addSlabs_own, addUsed_own]
    exact Ticks.symm (.down _)
  sliceFull := by
    rw [addFree_stats, addSlabs_own, addUsed_own]
    exact .refl _ _
  others k' ne := by rw [addFree_stats, addSlabs_other _ _ _ ne, addUsed_other _ _ _ ne]

/-- Any other release. -/
theorem takes_kept (t : Counters) (k : Nat) : Takes (t.addUsed k (-1)) t k false false where
  free := by
    rw [addUsed_free]
    exact .refl _ _
  fullSlabs := by
    rw [addUsed_full]
    exact .refl _ _
  used := by
    rw [addUsed_own]
    exact Ticks.symm (.down _)
  slabs := by
    rw [addUsed_own]
    exact .refl _ _
  sliceFull := by
    rw [addUsed_own]
    exact .refl _ _
  others k' ne := by rw [addUsed_other _ _ _ ne]

end Counters

/-! ## A slice more or less -/

/-- What the header of a slab says: it has no format, or is cut for class `k`. -/
structure UsmmSlab.Looks (slab : UsmmSlab) (k : Nat) (none full : Bool) : Prop where
  blank : slab.blank = none
  ofClass : ∀ k' < usmmSlabArrayMax, slab.ofClass k' = (!none && decide (k' = k))
  isfull : slab.isfull = full

/-- `w'` is `w` with a slice of class `k` more, from slab `j`. -/
structure Grown (c : UsmmConf) (w w' : World) (k j : Nat) (fresh full : Bool) : Prop where
  takes : (counters c w.mem).Takes (counters c w'.mem) k fresh full
  slabs : ∀ p : UsmmSlab → Bool, slabsThat c w'.mem p + (p (slabAt w.mem (c.slabAddr j))).toNat =
    slabsThat c w.mem p + (p (slabAt w'.mem (c.slabAddr j))).toNat
  slices : ∀ k', w'.slices.countP (Piece.ofClass k') =
    w.slices.countP (Piece.ofClass k') + (decide (k' = k)).toNat
  before : (slabAt w.mem (c.slabAddr j)).Looks k fresh false
  after : (slabAt w'.mem (c.slabAddr j)).Looks k false full

namespace Grown

variable {k j : Nat} {fresh full : Bool}

/-- A counter of slabs that ticks with the header of slab `j`. -/
theorem word (grown : Grown c w w' k j fresh full) {p : UsmmSlab → Bool} {x x' : BitVec 32}
    {before after : Bool} (ticks : Ticks x x' before after)
    (old : p (slabAt w.mem (c.slabAddr j)) = before)
    (new : p (slabAt w'.mem (c.slabAddr j)) = after) :
    x = BitVec.ofNat 32 (slabsThat c w.mem p) ↔ x' = BitVec.ofNat 32 (slabsThat c w'.mem p) := by
  subst old new
  exact ticks.count_iff (grown.slabs p)

/-- The same when the words are on the left of the equations. -/
theorem used_iff (grown : Grown c w w' k j fresh full) (k' : Nat) :
    ((counters c w.mem).stats k').used = BitVec.ofNat 64 (w.slices.countP (Piece.ofClass k')) ↔
      ((counters c w'.mem).stats k').used =
        BitVec.ofNat 64 (w'.slices.countP (Piece.ofClass k')) := by
  have step := grown.slices k'
  by_cases same : k' = k
  · rw [decide_eq_true same, same] at step
    rw [same]
    exact grown.takes.used.count_iff step
  · rw [decide_eq_false same] at step
    rw [grown.takes.others k' same]
    exact (Ticks.refl _ false).count_iff step

theorem slabs_iff (grown : Grown c w w' k j fresh full) {k' : Nat} (bound : k' < usmmSlabArrayMax) :
    ((counters c w.mem).stats k').slabs =
        BitVec.ofNat 32 (slabsThat c w.mem (UsmmSlab.ofClass k')) ↔
      ((counters c w'.mem).stats k').slabs =
        BitVec.ofNat 32 (slabsThat c w'.mem (UsmmSlab.ofClass k')) := by
  have old := grown.before.ofClass k' bound
  have new := grown.after.ofClass k' bound
  by_cases same : k' = k
  · rw [decide_eq_true same, Bool.and_true] at old new
    subst same
    exact grown.word grown.takes.slabs old new
  · rw [decide_eq_false same, Bool.and_false] at old new
    rw [grown.takes.others k' same]
    exact grown.word (.refl _ _) old new

theorem sliceFull_iff (grown : Grown c w w' k j fresh full) {k' : Nat}
    (bound : k' < usmmSlabArrayMax) : ((counters c w.mem).stats k').full =
        BitVec.ofNat 32 (slabsThat c w.mem (UsmmSlab.fullOf k')) ↔
      ((counters c w'.mem).stats k').full =
        BitVec.ofNat 32 (slabsThat c w'.mem (UsmmSlab.fullOf k')) := by
  have old : (slabAt w.mem (c.slabAddr j)).fullOf k' = false := by
    rw [UsmmSlab.fullOf, grown.before.isfull, Bool.and_false]
  have new : (slabAt w'.mem (c.slabAddr j)).fullOf k' = (decide (k' = k) && full) := by
    rw [UsmmSlab.fullOf, grown.after.ofClass k' bound, grown.after.isfull, Bool.not_false,
      Bool.true_and]
  by_cases same : k' = k
  · rw [decide_eq_true same, Bool.true_and] at new
    subst same
    exact grown.word grown.takes.sliceFull old new
  · rw [decide_eq_false same, Bool.false_and] at new
    rw [grown.takes.others k' same]
    exact grown.word (.refl _ _) old new

/-- **The words are the counts** before a slice is given iff they are afterwards. -/
theorem counted_iff (grown : Grown c w w' k j fresh full) : Counted c w ↔ Counted c w' := by
  have free := grown.word grown.takes.free grown.before.blank grown.after.blank
  have fullSlabs := grown.word grown.takes.fullSlabs grown.before.isfull grown.after.isfull
  constructor
  · intro counted
    exact ⟨free.mp counted.free, fullSlabs.mp counted.full,
      fun k' bound => (grown.used_iff k').mp (counted.used k' bound),
      fun k' bound => (grown.slabs_iff bound).mp (counted.slabs k' bound),
      fun k' bound => (grown.sliceFull_iff bound).mp (counted.sliceFull k' bound)⟩
  · intro counted
    exact ⟨free.mpr counted.free, fullSlabs.mpr counted.full,
      fun k' bound => (grown.used_iff k').mpr (counted.used k' bound),
      fun k' bound => (grown.slabs_iff bound).mpr (counted.slabs k' bound),
      fun k' bound => (grown.sliceFull_iff bound).mpr (counted.sliceFull k' bound)⟩

end Grown

theorem looks_unformatted (k : Nat) : UsmmSlab.unformatted.Looks k true false where
  blank := rfl
  ofClass _ bound := ofClass_unformatted bound
  isfull := rfl

theorem Formatted.looks {m : Mem} {s k : Nat} {live : List Nat} {full : Bool}
    (formatted : Formatted c m s k live) (isfull : (slabAt m s).isfull = full) :
    (slabAt m s).Looks k false full where
  blank := formatted.blank
  ofClass _ bound := formatted.ofClass bound
  isfull := isfull

/-- An allocation that gives a slice. -/
theorem Gave.grown (roomy : c.Roomy) (inv : Inv c w) (settled : Settled c w) {r' : Region}
    {k j p : Nat} {fresh : Bool} {size : BitVec 64}
    (gave : Gave c w.region r' k j fresh (livePtrs c w.slices (c.slabAddr j)) p)
    (found : usmmSlabFind (size.setWidth 32) = some (k, sliceSize k)) (given : p ≠ 0) :
    Grown c w { w with region := r', slices := hold w.slices p size } k j fresh
      (slabAt r'.mem (c.slabAddr j)).isfull where
  takes := by
    have counts : counters c r'.mem = _ := gave.counted
    show (counters c w.mem).Takes (counters c r'.mem) _ _ _
    rw [counts]
    exact Counters.takes _ _ _ _
  slabs := slabsThat_update roomy gave.positive gave.below gave.frame
  slices k' := by
    have one : (⟨p, size⟩ : Piece).ofClass k' = decide (k' = k) := Piece.ofClass_eq ⟨p, size⟩ found
    show (hold w.slices p size).countP _ = _
    rw [hold, if_neg given, List.countP_cons, one]
    cases decide (k' = k) <;> rfl
  before := by
    have ok := inv.ok gave.listed
    cases fresh with
    | true =>
        rw [ok.1]
        exact looks_unformatted k
    | false =>
        exact Formatted.looks ok (Formatted.not_full ok (settled.cls gave.listed).2)
  after := gave.formatted.looks rfl

/-- A release, read backwards, gives the slice. -/
theorem Freed.grown (roomy : c.Roomy) {r' : Region} {k j : Nat} {h : Head} {x : Piece}
    {slices : List Piece}
    (freed : Freed c w.region r' k j h (livePtrs c w.slices (c.slabAddr j)) x.ptr)
    (found : usmmSlabFind (x.size.setWidth 32) = some (k, sliceSize k))
    (perm : w.slices.Perm (x :: slices)) :
    ∃ fresh full, Grown c { w with region := r', slices := slices } w k j fresh full := by
  have slabs := fun p => (slabsThat_update roomy freed.positive freed.below freed.frame p).symm
  have count : ∀ k', w.slices.countP (Piece.ofClass k') =
      slices.countP (Piece.ofClass k') + (decide (k' = k)).toNat := fun k' => by
    rw [perm.countP_eq, List.countP_cons, Piece.ofClass_eq x found]
    cases decide (k' = k) <;> rfl
  have short : ((livePtrs c w.slices (c.slabAddr j)).erase x.ptr).length <
      (classTotal c k).toInt.toNat := by
    have length := List.length_erase_of_mem freed.alive
    have some := List.length_pos_of_mem freed.alive
    have bound := freed.before.2.length_le
    omega
  cases freed.outcome with
  | reopened full moves formatted counted =>
      refine ⟨false, true, ?_, slabs, count, formatted.looks (formatted.not_full short),
        freed.before.looks full⟩
      rw [show counters c r'.mem = _ from counted]
      exact Counters.takes_reopened _ k
  | emptied notFull none moves blank counted =>
      refine ⟨true, false, ?_, slabs, count, ?_, freed.before.looks notFull⟩
      · rw [show counters c r'.mem = _ from counted]
        exact Counters.takes_emptied _ k
      · rw [show slabAt r'.mem (c.slabAddr j) = _ from blank]
        exact looks_unformatted k
  | kept notFull left moves formatted counted =>
      refine ⟨false, false, ?_, slabs, count, formatted.looks (formatted.not_full short),
        freed.before.looks notFull⟩
      rw [show counters c r'.mem = _ from counted]
      exact Counters.takes_kept _ k

/-! ## Runs -/

/-- What holds in every state of a run of slice calls, counters included. -/
structure StatInv (c : UsmmConf) (w : World) : Prop extends SliceInv c w where
  counted : Counted c w

theorem StatInv.step (aligned : Aligned c) (before : StatInv c w) {a : Act}
    (step : SliceStep c b w a w') : StatInv c w' := by
  have roomy := aligned.toRoomy
  refine ⟨before.toSliceInv.step aligned step, ?_⟩
  obtain ⟨⟨inv, settled, idle⟩, counted⟩ := before
  obtain ⟨step, slicing, cuts⟩ := step
  cases a with
  | sliceAlloc size =>
      rcases step.sliceAlloc_cases roomy inv with
        ⟨rfl, -⟩ | ⟨r', p, k, j, fresh, rfl, bound, found, gave⟩
      · exact counted
      · have given := gave.given_of_pos inv settled.tidy (gave.cuts settled found cuts)
        exact (gave.grown roomy inv settled found given).counted_iff.mp counted
  | sliceFree ptr =>
      rcases step.sliceFree_cases roomy inv (aligned.ownerFound ptr) with
        rfl | ⟨x, r', k, j, h, slice, rfl, perm, rfl, found, freed⟩
      · exact counted
      · obtain ⟨fresh, full, grown⟩ := freed.grown roomy found perm
        exact grown.counted_iff.mpr counted
  | _ => exact slicing.elim

/-- Every slab is without a format. -/
theorem slabsThat_unformatted {m : Mem}
    (headers : ∀ i, 1 ≤ i → i < c.slabCount → slabAt m (c.slabAddr i) = .unformatted)
    (p : UsmmSlab → Bool) : slabsThat c m p = if p .unformatted then c.slabCount - 1 else 0 := by
  have each : ∀ i ∈ List.range' 1 (c.slabCount - 1),
      p (slabAt m (c.slabAddr i)) = p .unformatted := fun i member => by
    have inside := List.mem_range'_1.mp member
    rw [headers i inside.1 (by omega)]
  cases blank : p .unformatted with
  | false =>
      rw [if_neg Bool.false_ne_true, slabsThat, List.countP_eq_zero]
      intro i member
      rw [each i member, blank]
      exact Bool.false_ne_true
  | true =>
      rw [if_pos rfl, slabsThat, List.countP_eq_length.mpr, List.length_range']
      intro i member
      rw [each i member, blank]

theorem Starts.statInv (aligned : Aligned c) (starts : Starts c w) : StatInv c w := by
  refine ⟨starts.sliceInv aligned, ?_⟩
  obtain ⟨fresh, -⟩ := starts.fresh aligned.toRoomy
  have slices := starts.slices
  have stats : ∀ k < usmmSlabArrayMax, (counters c w.mem).stats k = ⟨0, 0, 0, 0⟩ :=
    fun k bound => (if_pos bound).trans (fresh.stats k bound)
  have none : ∀ p : UsmmSlab → Bool, p .unformatted = false → slabsThat c w.mem p = 0 :=
    fun p blank => by rw [slabsThat_unformatted fresh.headers, blank, if_neg Bool.false_ne_true]
  constructor
  · rw [slabsThat_unformatted fresh.headers]
    exact fresh.statFree
  · rw [none _ rfl]
    exact fresh.statFull
  · intro k bound
    rw [stats k bound, slices]
    rfl
  · intro k bound
    rw [stats k bound, none _ (ofClass_unformatted bound)]
    rfl
  · intro k bound
    rw [stats k bound, none _ (by rw [UsmmSlab.fullOf, ofClass_unformatted bound, Bool.false_and])]
    rfl

/-! ## No word is cut -/

/-- No two live slices are at one address. -/
theorem Inv.ptrs_nodup (inv : Inv c w) (roomy : c.Roomy) : (w.slices.map Piece.ptr).Nodup := by
  refine List.nodup_iff_count_le_one.mpr fun p => ?_
  by_cases member : p ∈ w.slices.map Piece.ptr
  · obtain ⟨x, held, rfl⟩ := List.mem_map.mp member
    obtain ⟨j, h, k, -, below, -, -, inside, -, ⟨bound, sliced⟩, -⟩ := inv.home held
    have nodup := sliced.nodup (sliceRoom roomy below bound)
    have filtered : livePtrs c w.slices (c.slabAddr j) =
        (w.slices.map Piece.ptr).filter fun p => InSlab c (c.slabAddr j) p := by
      rw [List.filter_map]
      rfl
    rw [filtered] at nodup
    rw [← List.count_filter (p := fun p => decide (InSlab c (c.slabAddr j) p))
      (decide_eq_true inside)]
    exact List.nodup_iff_count_le_one.mp nodup _
  · rw [List.count_eq_zero_of_not_mem member]
    exact Nat.zero_le 1

theorem Inv.slices_length_lt (inv : Inv c w) (roomy : c.Roomy) : w.slices.length < 2 ^ 64 := by
  have room := roomy.room
  have inside : w.slices.map Piece.ptr ⊆ List.range (c.base + c.length.toNat) := by
    intro p member
    obtain ⟨x, held, rfl⟩ := List.mem_map.mp member
    obtain ⟨j, h, k, -, below, -, -, inside, -⟩ := inv.home held
    have last := c.slabAddr_end below
    exact List.mem_range.mpr (by have := inside.2; omega)
  have length := (List.subperm_of_subset (inv.ptrs_nodup roomy) inside).length_le
  rw [List.length_map, List.length_range] at length
  omega

theorem slabsThat_lt (roomy : c.Roomy) (m : Mem) (p : UsmmSlab → Bool) :
    slabsThat c m p < 2 ^ 32 := by
  have bound : slabsThat c m p ≤ _ := List.countP_le_length
  have few := roomy.counted
  rw [List.length_range'] at bound
  omega

/-- A word that holds a count that fits. -/
theorem toNat_count {n a : Nat} {x : BitVec n} (word : x = BitVec.ofNat n a) (fits : a < 2 ^ n) :
    x.toNat = a := by
  rw [word, BitVec.toNat_ofNat, Nat.mod_eq_of_lt fits]

/-! ## Sums over the classes -/

/-- A slab is of one class, or has no format. -/
theorem SliceInv.looks (before : SliceInv c w) {i : Nat} (positive : 1 ≤ i)
    (below : i < c.slabCount) : ∃ k < usmmSlabArrayMax, ∃ none full,
      (slabAt w.mem (c.slabAddr i)).Looks k none full ∧ (none = true → full = false) := by
  rcases before.inv.cover i positive below with ⟨h, listed⟩ | ⟨x, block, -⟩
  · have ok := before.inv.ok listed
    cases h with
    | free =>
        rw [ok.1]
        exact ⟨0, by decide, true, false, looks_unformatted 0, fun _ => rfl⟩
    | cls k => exact ⟨k, ok.1, false, _, Formatted.looks ok rfl, nofun⟩
    | full =>
        obtain ⟨k, formatted⟩ := ok
        exact ⟨k, formatted.1, false, _, formatted.looks rfl, nofun⟩
  · rw [before.idle] at block
    exact absurd block List.not_mem_nil

/-- Of all classes, its own alone counts. -/
theorem UsmmSlab.Looks.sum {slab : UsmmSlab} {k : Nat} {none full : Bool}
    (looks : slab.Looks k none full) (bound : k < usmmSlabArrayMax) (flag : Bool) :
    ∑ k' ∈ Finset.range usmmSlabArrayMax, (slab.ofClass k' && flag).toNat =
      (!none && flag).toNat := by
  rw [Finset.sum_eq_single k]
  · rw [looks.ofClass k bound, decide_eq_true rfl, Bool.and_true]
  · intro k' member ne
    rw [looks.ofClass k' (Finset.mem_range.mp member), decide_eq_false ne, Bool.and_false,
      Bool.false_and]
    rfl
  · exact fun beyond => absurd (Finset.mem_range.mpr bound) beyond

theorem SliceInv.sum_fullOf (before : SliceInv c w) :
    ∑ k ∈ Finset.range usmmSlabArrayMax, slabsThat c w.mem (UsmmSlab.fullOf k) =
      slabsThat c w.mem UsmmSlab.isfull := by
  refine sum_countP fun i member => ?_
  have inside := List.mem_range'_1.mp member
  obtain ⟨k, bound, none, full, looks, never⟩ := before.looks inside.1 (by omega)
  refine (looks.sum bound _).trans ?_
  rw [looks.isfull]
  cases none with
  | false => rfl
  | true => rw [never rfl]; rfl

theorem SliceInv.sum_ofClass (before : SliceInv c w) : slabsThat c w.mem UsmmSlab.blank +
    ∑ k ∈ Finset.range usmmSlabArrayMax, slabsThat c w.mem (UsmmSlab.ofClass k) =
      c.slabCount - 1 := by
  have cut : ∑ k ∈ Finset.range usmmSlabArrayMax, slabsThat c w.mem (UsmmSlab.ofClass k) =
      slabsThat c w.mem fun slab => !slab.blank := by
    refine sum_countP fun i member => ?_
    have inside := List.mem_range'_1.mp member
    obtain ⟨k, bound, none, full, looks, -⟩ := before.looks inside.1 (by omega)
    have sum := looks.sum bound true
    simp only [Bool.and_true] at sum
    rw [sum, ← looks.blank]
  have all := List.length_eq_countP_add_countP (l := List.range' 1 (c.slabCount - 1))
    fun i => (slabAt w.mem (c.slabAddr i)).blank
  simp only [List.length_range', decide_not, Bool.decide_eq_true] at all
  rw [cut]
  exact all.symm

/-! ## The statistics -/

/-- The statistics are what they count.  The words are unsigned and equal to
natural numbers, so none of them went below zero. -/
structure Statistics (c : UsmmConf) (w : World) : Prop where
  used : ∀ k < usmmSlabArrayMax,
    (statAt w.mem (statAddr c.base k)).used.toNat = w.slices.countP (Piece.ofClass k)
  slabs : ∀ k < usmmSlabArrayMax,
    (statAt w.mem (statAddr c.base k)).slabs.toNat = slabsThat c w.mem (UsmmSlab.ofClass k)
  full : ∀ k < usmmSlabArrayMax,
    (statAt w.mem (statAddr c.base k)).full.toNat = slabsThat c w.mem (UsmmSlab.fullOf k)
  fullSlabs : (statFullSlabs w.mem c.base).toNat = ∑ k ∈ Finset.range usmmSlabArrayMax,
    (statAt w.mem (statAddr c.base k)).full.toNat
  freeSlabs : (statFreeSlabs w.mem c.base).toNat + ∑ k ∈ Finset.range usmmSlabArrayMax,
    (statAt w.mem (statAddr c.base k)).slabs.toNat = c.slabCount - 1
  restored : w.slices = [] →
    (∀ i, 1 ≤ i → i < c.slabCount → c.slabAddr i ∈ w.lists .free) ∧
    ∀ k < usmmSlabArrayMax, (statAt w.mem (statAddr c.base k)).used = 0 ∧
      (statAt w.mem (statAddr c.base k)).slabs = 0 ∧ (statAt w.mem (statAddr c.base k)).full = 0

/-- With no live slice every slab is on `free_slabs`. -/
theorem SliceInv.all_free (before : SliceInv c w) (none : w.slices = []) {i : Nat}
    (positive : 1 ≤ i) (below : i < c.slabCount) : c.slabAddr i ∈ w.lists .free := by
  have empty : livePtrs c w.slices (c.slabAddr i) = [] := by rw [none]; rfl
  rcases before.inv.cover i positive below with ⟨h, listed⟩ | ⟨x, block, -⟩
  · cases h with
    | free => exact listed
    | cls k =>
        have some := (before.settled.cls listed).1
        rw [empty] at some
        exact absurd some (lt_irrefl 0)
    | full =>
        obtain ⟨k, -, two, whole⟩ := before.settled.full listed
        rw [empty, List.length_nil] at whole
        omega
  · rw [before.idle] at block
    exact absurd block List.not_mem_nil

theorem StatInv.toStatistics (roomy : c.Roomy) (before : StatInv c w) : Statistics c w := by
  have stat : ∀ k < usmmSlabArrayMax,
      (counters c w.mem).stats k = statAt w.mem (statAddr c.base k) := fun k bound => if_pos bound
  have fits := slabsThat_lt roomy w.mem
  have live : ∀ k, w.slices.countP (Piece.ofClass k) < 2 ^ 64 := fun k =>
    List.countP_le_length.trans_lt (before.inv.slices_length_lt roomy)
  have counted := before.counted
  have used : ∀ k < usmmSlabArrayMax,
      (statAt w.mem (statAddr c.base k)).used.toNat = w.slices.countP (Piece.ofClass k) :=
    fun k bound => toNat_count (stat k bound ▸ counted.used k bound) (live k)
  have slabs : ∀ k < usmmSlabArrayMax,
      (statAt w.mem (statAddr c.base k)).slabs.toNat = slabsThat c w.mem (UsmmSlab.ofClass k) :=
    fun k bound => toNat_count (stat k bound ▸ counted.slabs k bound) (fits _)
  have full : ∀ k < usmmSlabArrayMax,
      (statAt w.mem (statAddr c.base k)).full.toNat = slabsThat c w.mem (UsmmSlab.fullOf k) :=
    fun k bound => toNat_count (stat k bound ▸ counted.sliceFull k bound) (fits _)
  refine ⟨used, slabs, full, ?_, ?_, fun none => ⟨fun i => before.all_free none, fun k bound => ?_⟩⟩
  · rw [Finset.sum_congr rfl fun k member => full k (Finset.mem_range.mp member),
      before.sum_fullOf]
    exact toNat_count counted.full (fits _)
  · rw [Finset.sum_congr rfl fun k member => slabs k (Finset.mem_range.mp member),
      ← before.sum_ofClass]
    exact congrArg (· + _) (toNat_count counted.free (fits _))
  · have headers : ∀ i, 1 ≤ i → i < c.slabCount → slabAt w.mem (c.slabAddr i) = .unformatted :=
      fun i positive below => (before.inv.ok (before.all_free none positive below)).1
    have idle : ∀ p : UsmmSlab → Bool, p .unformatted = false → slabsThat c w.mem p = 0 :=
      fun p blank => by rw [slabsThat_unformatted headers, blank, if_neg Bool.false_ne_true]
    refine ⟨BitVec.eq_of_toNat_eq ((used k bound).trans ?_),
      BitVec.eq_of_toNat_eq ((slabs k bound).trans ?_),
      BitVec.eq_of_toNat_eq ((full k bound).trans ?_)⟩
    · rw [none]
      rfl
    · exact idle _ (ofClass_unformatted bound)
    · exact idle _ (by rw [UsmmSlab.fullOf, ofClass_unformatted bound, Bool.false_and])

/-- **The statistics** after every run of slice calls in which each slab that is
cut has slices. -/
theorem statistics (aligned : Aligned c) (starts : Starts c w) {as : List Act}
    (run : Run (SliceStep c b) w as w') : Statistics c w' :=
  (run.invariant (fun _ _ _ before step => before.step aligned step)
    (starts.statInv aligned)).toStatistics aligned.toRoomy

/-- A request that a slab without slices answers is counted as a live slice. -/
theorem miscounted (roomy : c.Roomy) (before : StatInv c w) {size : BitVec 64}
    (step : Step b w (.sliceAlloc size) w') (cuts : ¬ CutsSome c w (.sliceAlloc size)) :
    ¬ Statistics c w' := by
  obtain ⟨r', k, j, fresh, rfl, found, none, gave⟩ := gives_null roomy before.inv step cuts
  intro after
  have bound := gave.formatted.1
  have old := (before.toStatistics roomy).used k bound
  have new : (statAt r'.mem (statAddr c.base k)).used.toNat = _ := after.used k bound
  have same := BitVec.eq_of_toNat_eq (new.trans old.symm)
  have counts := gave.counted
  have added : ((counters c r'.mem).stats k).used = ((counters c w.mem).stats k).used + 1 := by
    rw [counts, Counters.take_own, Counters.cut_own]
  rw [show (counters c r'.mem).stats k = _ from if_pos bound,
    show (counters c w.mem).stats k = _ from if_pos bound, same] at added
  have zero : 0#64 = 1 := (BitVec.add_right_inj _).mp ((BitVec.add_zero _).trans added)
  exact absurd zero (by decide)

theorem statistics_testConf : ∃ w w' p, Starts testConf w ∧
    Run (SliceStep testConf .debug) w [.sliceAlloc 8, .sliceFree p, .sliceAlloc 100] w' ∧
    Statistics testConf w' := by
  obtain ⟨w, w', p, starts, run⟩ := exists_run_slices .debug
  exact ⟨w, w', p, starts, run, statistics testConf_aligned starts run⟩

/-- In slabs of 32 GB the first slice of 8 bytes is counted but not given. -/
theorem huge_slab_miscounted : ¬ ∀ (c : UsmmConf) (w w' : World) (as : List Act), Aligned c →
    Starts c w → Run (fun w a w' => Step .release w a w' ∧ Slicing a) w as w' →
    Statistics c w' := by
  intro holds
  obtain ⟨w, starts⟩ := exists_starts hugeConf_aligned.toRoomy
  have before := starts.statInv hugeConf_aligned
  have step : Step .release w (.sliceAlloc 8) _ := ⟨trivial, rfl⟩
  refine miscounted hugeConf_aligned.toRoomy before step starts.not_cutsSome ?_
  exact holds hugeConf w _ _ hugeConf_aligned starts (.single ⟨step, by show _ ≤ _; decide⟩)

end Itaro.Usmm
