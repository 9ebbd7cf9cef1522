/-
# Usmm.SliceAlloc -- what usmm_slice_alloc does

Two steps: a free slab is cut for the class when the class list is empty
(`sliceFormat_spec`), and the first slab of the class gives a slice
(`sliceTake_spec`).  `Gave` is the outcome of both, with the counters; every fact
about an allocation is read off it, the invariant first (`Gave.inv`).
-/
import Itaro.Usmm.Counters

namespace Itaro.Usmm

set_option autoImplicit false

open Theory

section Slices

variable {c : UsmmConf} {w : World}

theorem Inv.stat (inv : Inv c w) (k : Nat) : w.region.stat k = statAddr c.base k := by
  rw [Region.stat, inv.us, inv.control.stats]
  rfl

/-- Changes inside slab `j`. -/
theorem slab_opSpan {reach : Reach} {j x : Nat} (positive : 1 ≤ j) {lower width : Nat}
    (start : c.slabAddr j ≤ lower) (inside : lower + width ≤ c.slabAddr j + c.slabSize)
    (span : Span lower width x) : OpSpan c reach (· = j) x := by
  refine .inr ⟨j, rfl, positive, ?_⟩
  simp only [Span] at span ⊢
  omega

/-! ## Formatting a slab -/

theorem sliceFormat_spec (roomy : c.Roomy) {r r' : Region} {k j : Nat} (us : r.us = c.base)
    (control : Control c r.mem) (bound : k < usmmSlabArrayMax) (positive : 1 ≤ j)
    (below : j < c.slabCount) (blank : slabAt r.mem (c.slabAddr j) = .unformatted)
    (result : sliceFormat r k (sliceSize k) (statAddr c.base k) (c.slabAddr j) = r') :
    r'.us = c.base ∧ ChangesOnly (OpSpan c .stats (· = j)) r.mem r'.mem ∧
      r'.lists = (r.lists.del (c.slabAddr j)).push (.cls k) (c.slabAddr j) ∧
      Formatted c r'.mem (c.slabAddr j) k [] ∧
      counters c r'.mem = ((counters c r.mem).addFree (-1)).addSlabs k 1 := by
  have large := roomy.large
  have small := (sliceSize_bounds k bound).2.1
  have width : (BitVec.ofNat 64 (sliceSize k)).toNat = sliceSize k := u64_ofNat_toNat (by omega)
  have inside := classTotal_room roomy bound
  have start := c.slabAddr_ge positive
  have create := @usmmSlabCreate_spec r.mem (c.slabAddr j) c.slab (BitVec.ofNat 64 (sliceSize k))
    blank (by rw [width]; exact sliceRoom roomy below bound)
  rw [width, show slabTotal c.slab _ = classTotal c k from rfl] at create
  obtain ⟨sliced, frame⟩ := create
  -- the region before its counters are updated
  obtain ⟨r₁, made⟩ : ∃ r₁, ((r.listDel (c.slabAddr j)).update fun m => usmmSlabCreate m
    (c.slabAddr j) (confSlab m r.us) (BitVec.ofNat 64 (sliceSize k))).listAdd
    (c.slabAddr j) (.cls k) = r₁ := ⟨_, rfl⟩
  have us₁ : r₁.us = c.base := by rw [← made, listAdd_us, update_us, listDel_us, us]
  have mem₁ : r₁.mem = usmmSlabCreate r.mem (c.slabAddr j) c.slab
      (BitVec.ofNat 64 (sliceSize k)) := by
    rw [← made, listAdd_mem, update_mem, listDel_mem, us, control.slab]
  have lists₁ : r₁.lists = (r.lists.del (c.slabAddr j)).push (.cls k) (c.slabAddr j) := by
    rw [← made, listAdd_lists, update_lists, listDel_lists]
  rw [← mem₁] at sliced frame
  have counters₁ : counters c r₁.mem = counters c r.mem :=
    counters_of_above roomy frame fun x span => by simp only [Span] at span; omega
  obtain rfl : addStatSlabs (addStatFree r₁ (-1)) (statAddr c.base k) 1 = r' := by
    rw [← result, ← made]
    rfl
  have frame₂ : ∀ {T}, ChangesOnly (OpSpan c .stats T) r₁.mem
      (addStatSlabs (addStatFree r₁ (-1)) (statAddr c.base k) 1).mem := fun {T} =>
    (addStatFree_changesOnly roomy r₁ us₁ (-1)).trans (addStatSlabs_changesOnly roomy _ bound 1)
  refine ⟨?_, ?_, ?_, ?_, ?_⟩
  · rw [addStatSlabs_us, addStatFree_us, us₁]
  · exact (frame.mono fun x span => slab_opSpan positive le_rfl (by omega) span).trans frame₂
  · rw [addStatSlabs_lists, addStatFree_lists, lists₁]
  · exact Formatted.of_opSpan roomy (@frame₂ fun _ => False) positive below id ⟨bound, sliced⟩
  · rw [counters_addStatSlabs bound, counters_addStatFree us₁, counters₁]

/-! ## Taking a slice -/

/-- The live slices once the slab has answered `p`. -/
def grant (live : List Nat) (p : Nat) : List Nat := if p = 0 then live else p :: live

/-- The list a slab of class `k` is put on. -/
def usedHead (slab : UsmmSlab) (k : Nat) : Head := if slab.isfull then .full else .cls k

/-- Beyond what `usmm_slab_alloc` does, only statistics are written. -/
theorem sliceTake_changesOnly (roomy : c.Roomy) {r r' : Region} {k slab p p₁ : Nat} {m₁ : Mem}
    {T : Nat → Prop} (us : r.us = c.base) (bound : k < usmmSlabArrayMax)
    (taking : usmmSlabAlloc r.mem slab = (m₁, p₁))
    (result : sliceTake r (statAddr c.base k) slab = (r', p)) :
    ChangesOnly (OpSpan c .stats T) m₁ r'.mem ∧ p = p₁ := by
  obtain ⟨r₁, made⟩ : ∃ r₁, addStatUsed (r.update fun _ => m₁) (statAddr c.base k) 1 = r₁ :=
    ⟨_, rfl⟩
  have us₁ : r₁.us = c.base := by rw [← made, addStatUsed_us, update_us, us]
  have used : ChangesOnly (OpSpan c .stats T) m₁ r₁.mem :=
    made ▸ addStatUsed_changesOnly roomy (r.update fun _ => m₁) bound 1
  simp only [sliceTake, taking, made] at result
  clear made
  split at result
  · obtain ⟨moved, rfl⟩ := Prod.mk.inj result
    obtain ⟨r₂, gone⟩ : ∃ r₂, (r₁.listDel slab).listAdd slab .full = r₂ := ⟨_, rfl⟩
    have us₂ : r₂.us = c.base := by rw [← gone, listAdd_us, listDel_us, us₁]
    have mem₂ : r₂.mem = r₁.mem := by rw [← gone, listAdd_mem, listDel_mem]
    refine ⟨used.trans ?_, rfl⟩
    rw [gone] at moved
    rw [← moved, ← mem₂]
    refine (addStatSliceFull_changesOnly roomy r₂ bound 1).trans (addStatFull_changesOnly roomy _ ?_ 1)
    rw [addStatSliceFull_us, us₂]
  · obtain ⟨rfl, rfl⟩ := Prod.mk.inj result
    exact ⟨used, rfl⟩

theorem sliceTake_spec (roomy : c.Roomy) {r r' : Region} {k j p : Nat} {live : List Nat}
    (us : r.us = c.base) (placed : r.lists.Placed) (positive : 1 ≤ j) (below : j < c.slabCount)
    (listed : c.slabAddr j ∈ r.lists (.cls k))
    (formatted : Formatted c r.mem (c.slabAddr j) k live)
    (result : sliceTake r (statAddr c.base k) (c.slabAddr j) = (r', p)) :
    r'.us = c.base ∧ ChangesOnly (OpSpan c .stats (· = j)) r.mem r'.mem ∧
      Queues.Moves r.lists r'.lists (c.slabAddr j) (usedHead (slabAt r'.mem (c.slabAddr j)) k) ∧
      Formatted c r'.mem (c.slabAddr j) k (grant live p) ∧
      (p = 0 → live.length = (classTotal c k).toInt.toNat) ∧
      counters c r'.mem =
        (counters c r.mem).take k (slabAt r'.mem (c.slabAddr j)).isfull := by
  have large := roomy.large
  have start := c.slabAddr_ge positive
  obtain ⟨bound, sliced⟩ := formatted
  obtain ⟨⟨m₁, p₁⟩, taking⟩ : ∃ taken, usmmSlabAlloc r.mem (c.slabAddr j) = taken := ⟨_, rfl⟩
  obtain ⟨frame, outcome⟩ := usmmSlabAlloc_spec sliced (sliceRoom roomy below bound)
  rw [taking] at frame outcome
  have counted {T : Nat → Prop} := @sliceTake_changesOnly c roomy r r' k _ p p₁ m₁ T us bound taking
    result
  obtain rfl : p = p₁ := (@counted fun _ => False).2
  have stats : ∀ {T}, ChangesOnly (OpSpan c .stats T) m₁ r'.mem := counted.1
  have granted : Formatted c m₁ (c.slabAddr j) k (grant live p) := by
    refine ⟨bound, ?_⟩
    rcases outcome with ⟨zero, rfl, -⟩ | ⟨nonzero, -, -, sliced'⟩
    · rw [grant, if_pos zero]
      exact sliced
    · rw [grant, if_neg nonzero]
      exact sliced'
  have null : p = 0 → live.length = (classTotal c k).toInt.toNat := by
    intro zero
    rcases outcome with ⟨-, -, whole⟩ | ⟨nonzero, -⟩
    · exact whole
    · exact absurd zero nonzero
  have header : slabAt r'.mem (c.slabAddr j) = slabAt m₁ (c.slabAddr j) :=
    slabAt_of_opSpan roomy (@stats fun _ => False) positive id
  -- the slice is counted
  obtain ⟨r₁, made⟩ : ∃ r₁, addStatUsed (r.update fun _ => m₁) (statAddr c.base k) 1 = r₁ :=
    ⟨_, rfl⟩
  have us₁ : r₁.us = c.base := by rw [← made, addStatUsed_us, update_us, us]
  have lists₁ : r₁.lists = r.lists := by rw [← made, addStatUsed_lists, update_lists]
  have used : ChangesOnly (OpSpan c .stats fun _ => False) m₁ r₁.mem :=
    made ▸ addStatUsed_changesOnly roomy (r.update fun _ => m₁) bound 1
  have header₁ : slabAt r₁.mem (c.slabAddr j) = slabAt m₁ (c.slabAddr j) :=
    slabAt_of_opSpan roomy used positive id
  have counters₁ : counters c r₁.mem = (counters c r.mem).addUsed k 1 := by
    rw [← made, counters_addStatUsed bound, update_mem, counters_of_above roomy frame]
    intro x span
    simp only [Span] at span
    omega
  have split : sliceTake r (statAddr c.base k) (c.slabAddr j) =
      if (slabAt r₁.mem (c.slabAddr j)).isfull then
        (addStatFull (addStatSliceFull ((r₁.listDel (c.slabAddr j)).listAdd (c.slabAddr j) .full)
          (statAddr c.base k) 1) 1, p)
      else (r₁, p) := by
    rw [sliceTake, taking, ← made]
  have frame' : ChangesOnly (OpSpan c .stats (· = j)) r.mem r'.mem :=
    (frame.mono fun x span => slab_opSpan positive (by omega) (by omega) span).trans stats
  have formatted' := granted.of_opSpan roomy (@stats fun _ => False) positive below id
  rw [split, header₁] at result
  rw [header]
  clear split made taking outcome counted
  cases full : (slabAt m₁ (c.slabAddr j)).isfull with
  | false =>
      rw [full, if_neg Bool.false_ne_true] at result
      obtain rfl := (Prod.mk.inj result).1
      rw [usedHead, Counters.take, full, if_neg Bool.false_ne_true, if_neg Bool.false_ne_true,
        lists₁]
      exact ⟨us₁, frame', .refl placed listed, formatted', null, counters₁⟩
  | true =>
      rw [full, if_pos rfl] at result
      have moved := (Prod.mk.inj result).1
      obtain ⟨r₂, gone⟩ : ∃ r₂, (r₁.listDel (c.slabAddr j)).listAdd (c.slabAddr j) .full = r₂ :=
        ⟨_, rfl⟩
      have us₂ : r₂.us = c.base := by rw [← gone, listAdd_us, listDel_us, us₁]
      have mem₂ : r₂.mem = r₁.mem := by rw [← gone, listAdd_mem, listDel_mem]
      have lists₂ : r₂.lists = (r.lists.del (c.slabAddr j)).push .full (c.slabAddr j) := by
        rw [← gone, listAdd_lists, listDel_lists, lists₁]
      rw [gone] at moved
      rw [usedHead, Counters.take, full, if_pos rfl, if_pos rfl]
      refine ⟨?_, frame', ?_, formatted', null, ?_⟩
      · rw [← moved, addStatFull_us, addStatSliceFull_us, us₂]
      · rw [← moved, addStatFull_lists, addStatSliceFull_lists, lists₂]
        exact .push placed _ _
      · rw [← moved, counters_addStatFull (by rw [addStatSliceFull_us, us₂]),
          counters_addStatSliceFull bound, mem₂, counters₁]

/-! ## The whole call -/

/-- The list the slab of an allocation comes from. -/
def sourceHead (fresh : Bool) (k : Nat) : Head := if fresh then .free else .cls k

/-- **An allocation.**  Slab `j`, cut for class `k` just now if `fresh`, had the
live slices `live` and gave `p`, or `NULL` if it had no slice to give. -/
structure Gave (c : UsmmConf) (r r' : Region) (k j : Nat) (fresh : Bool) (live : List Nat)
    (p : Nat) : Prop where
  positive : 1 ≤ j
  below : j < c.slabCount
  head : (r.lists (sourceHead fresh k)).head? = some (c.slabAddr j)
  spare : fresh = true → r.lists (.cls k) = []
  us : r'.us = c.base
  frame : ChangesOnly (OpSpan c .stats (· = j)) r.mem r'.mem
  moves : Queues.Moves r.lists r'.lists (c.slabAddr j)
    (usedHead (slabAt r'.mem (c.slabAddr j)) k)
  formatted : Formatted c r'.mem (c.slabAddr j) k (grant live p)
  null : p = 0 → live.length = (classTotal c k).toInt.toNat
  counted : counters c r'.mem =
    ((counters c r.mem).cut k fresh).take k (slabAt r'.mem (c.slabAddr j)).isfull

/-- A request is refused, or a slab of its class gives a slice. -/
theorem usmmSliceAlloc_cases (roomy : c.Roomy) (inv : Inv c w) {size : BitVec 64} {r' : Region}
    {p : Nat} (result : usmmSliceAlloc w.region size = (r', p)) :
    (r' = w.region ∧ p = 0 ∧ ∀ k slice, usmmSlabFind (size.setWidth 32) = some (k, slice) →
        w.lists (.cls k) = [] ∧ w.lists .free = []) ∨
      ∃ k j fresh, k < usmmSlabArrayMax ∧
        usmmSlabFind (size.setWidth 32) = some (k, sliceSize k) ∧
        Gave c w.region r' k j fresh (livePtrs c w.slices (c.slabAddr j)) p := by
  rw [usmmSliceAlloc] at result
  cases found : usmmSlabFind (size.setWidth 32) with
  | none =>
      simp only [found] at result
      obtain ⟨rfl, rfl⟩ := Prod.mk.inj result
      exact .inl ⟨rfl, rfl, fun _ _ some => by cases some⟩
  | some pair =>
      obtain ⟨k, slice⟩ := pair
      obtain ⟨rfl, bound, -⟩ := usmmSlabFind_eq_some found
      simp only [found, inv.stat] at result
      cases ready : w.region.lists (.cls k) with
      | cons slab rest =>
          simp only [ready] at result
          have head : (w.region.lists (.cls k)).head? = some slab := by rw [ready]; rfl
          have listed := List.mem_of_head? head
          obtain ⟨j, positive, below, rfl⟩ := inv.slabs listed
          obtain ⟨us, frame, moves, formatted, null, counted⟩ := sliceTake_spec roomy inv.us
            inv.placed positive below listed (inv.ok listed) result
          refine .inr ⟨k, j, false, bound, rfl, positive, below, head, nofun, us, frame, moves,
            formatted, null, ?_⟩
          rw [counted, Counters.cut, if_neg Bool.false_ne_true]
      | nil =>
          simp only [ready] at result
          cases spare : w.region.lists .free with
          | nil =>
              simp only [spare] at result
              obtain ⟨rfl, rfl⟩ := Prod.mk.inj result
              refine .inl ⟨rfl, rfl, fun k' slice same => ?_⟩
              cases same
              exact ⟨ready, spare⟩
          | cons slab rest =>
              simp only [spare] at result
              have head : (w.region.lists .free).head? = some slab := by rw [spare]; rfl
              have listed := List.mem_of_head? head
              obtain ⟨j, positive, below, rfl⟩ := inv.slabs listed
              obtain ⟨blank, empty⟩ := inv.ok listed
              obtain ⟨r₁, cut⟩ : ∃ r₁, sliceFormat w.region k (sliceSize k) (statAddr c.base k)
                (c.slabAddr j) = r₁ := ⟨_, rfl⟩
              obtain ⟨us₁, frame₁, lists₁, formatted₁, counted₁⟩ := sliceFormat_spec roomy inv.us
                inv.control bound positive below blank cut
              have moves₁ : Queues.Moves w.region.lists r₁.lists (c.slabAddr j) (.cls k) := by
                rw [lists₁]
                exact .push inv.placed _ _
              rw [cut] at result
              obtain ⟨us, frame, moves, formatted, null, counted⟩ := sliceTake_spec roomy us₁
                moves₁.placed positive below moves₁.listed formatted₁ result
              rw [← empty] at formatted null
              refine .inr ⟨k, j, true, bound, rfl, positive, below, head, fun _ => ready, us,
                frame₁.trans frame, moves₁.trans moves, formatted, null, ?_⟩
              rw [counted, counted₁, Counters.cut, if_pos rfl]

namespace Gave

variable {r' : Region} {k j p : Nat} {fresh : Bool}

theorem listed {r : Region} {live : List Nat} (gave : Gave c r r' k j fresh live p) :
    c.slabAddr j ∈ r.lists (sourceHead fresh k) := List.mem_of_head? gave.head

/-- There was a slab on one of the two lists. -/
theorem not_nil {r : Region} {live : List Nat} (gave : Gave c r r' k j fresh live p) :
    ¬ (r.lists .free = [] ∧ r.lists (.cls k) = []) := by
  rintro ⟨free, cls⟩
  have listed := gave.listed
  cases fresh with
  | true =>
      rw [sourceHead, if_pos rfl, free] at listed
      cases listed
  | false =>
      rw [sourceHead, if_neg Bool.false_ne_true, cls] at listed
      cases listed

/-- A slice that was given is one of the slab's, and was not live. -/
theorem slice {r : Region} {live : List Nat} (gave : Gave c r r' k j fresh live p) (roomy : c.Roomy)
    (given : p ≠ 0) :
    p ∈ sliceGrid (c.slabAddr j) (sliceSize k) (classTotal c k) ∧ p ∉ live ∧
      InSlab c (c.slabAddr j) p := by
  obtain ⟨bound, sliced⟩ := gave.formatted
  rw [grant, if_neg given] at sliced
  have member := sliced.mem_grid List.mem_cons_self
  have bounds := slice_bounds roomy bound member
  have wide := (sliceSize_bounds k bound).1
  have apart := List.nodup_cons.mp (sliced.nodup (sliceRoom roomy gave.below bound))
  refine ⟨member, apart.1, ?_⟩
  simp only [InSlab]
  omega

variable {size : BitVec 64}

/-- The live slices of the slab afterwards. -/
theorem livePtrs_hold
    (gave : Gave c w.region r' k j fresh (livePtrs c w.slices (c.slabAddr j)) p) (roomy : c.Roomy) :
    livePtrs c (hold w.slices p size) (c.slabAddr j) =
      grant (livePtrs c w.slices (c.slabAddr j)) p := by
  by_cases null : p = 0
  · rw [hold, if_pos null, grant, if_pos null]
  · rw [livePtrs_hold_inside null (gave.slice roomy null).2.2, grant, if_neg null]

/-- The live slices of the other slabs. -/
theorem livePtrs_others
    (gave : Gave c w.region r' k j fresh (livePtrs c w.slices (c.slabAddr j)) p) (roomy : c.Roomy)
    {i : Nat} (ne : i ≠ j) :
    livePtrs c (hold w.slices p size) (c.slabAddr i) = livePtrs c w.slices (c.slabAddr i) :=
  livePtrs_hold_outside fun given inside => ne (inside.unique (gave.slice roomy given).2.2)

/-- The invariant holds after an allocation. -/
theorem inv (gave : Gave c w.region r' k j fresh (livePtrs c w.slices (c.slabAddr j)) p)
    (roomy : c.Roomy) (before : Inv c w)
    (found : usmmSlabFind (size.setWidth 32) = some (k, sliceSize k)) :
    Inv c { w with region := r', slices := hold w.slices p size } := by
  have bound := gave.formatted.1
  have formatted := gave.formatted
  rw [← show livePtrs c (hold w.slices p size) (c.slabAddr j) = _ from
    gave.livePtrs_hold roomy] at formatted
  refine before.updateOne roomy (usedHead (slabAt r'.mem (c.slabAddr j)) k) gave.positive
    gave.below gave.listed gave.us rfl gave.frame gave.moves
    (fun i ne => gave.livePtrs_others roomy ne) ?_ fun x held => ?_
  · unfold usedHead
    split
    · exact ⟨k, formatted⟩
    · exact formatted
  · -- what lives in the slab is of its class
    have here : x ∈ hold w.slices p size → InSlab c (c.slabAddr j) x.ptr →
        usmmSlabFind (x.size.setWidth 32) = some (k, sliceSize k) →
        SliceOk c r'.mem r'.lists x := fun _ inside class' =>
      ⟨j, _, k, gave.positive, gave.below, gave.moves.listed, inside, bound, class',
        formatted.2.sliceEq⟩
    have old : x ∈ w.slices → SliceOk c r'.mem r'.lists x ∨
        x ∈ w.slices ∧ ¬ InSlab c (c.slabAddr j) x.ptr := by
      intro member
      by_cases inside : InSlab c (c.slabAddr j) x.ptr
      · obtain ⟨i, h, k', -, -, listed, kind, within, -, -, class'⟩ := before.home member
        obtain rfl := within.unique inside
        have list := before.placed.one listed gave.listed
        refine .inl (here held inside ?_)
        cases fresh <;> rcases kind with rfl | rfl <;> cases list
        exact class'
      · exact .inr ⟨member, inside⟩
    unfold hold at held
    split at held
    · exact old held
    · rename_i given
      rcases List.mem_cons.mp held with rfl | member
      · exact .inl (here (by rw [hold, if_neg given]; exact List.mem_cons_self)
          (gave.slice roomy given).2.2 found)
      · exact old member

end Gave

end Slices

end Itaro.Usmm
