/-
# Usmm.SliceFree -- what usmm_slice_free does

The slab of the slice is found by rounding and the slice goes back to its free
list.  A slab that was full returns to the list of its class, one that is empty
now returns to `free_slabs`, and any other stays where it is: these are the three
outcomes of `Freed`.  A slab that was full is never put on `free_slabs`, even when
it has become empty.
-/
import Itaro.Usmm.SliceAlloc

namespace Itaro.Usmm

set_option autoImplicit false

open Theory

variable {c : UsmmConf} {w : World}

/-- Rounding up and stepping back finds the slab of an address inside it. -/
theorem Aligned.ownerFound (aligned : Aligned c) (p : Nat) : OwnerFound c p := by
  intro i _ below lower upper
  have large := aligned.large
  have last := c.slabAddr_end below
  have room := aligned.room
  have size : c.slab.toNat = c.slabSize := rfl
  have start : (BitVec.ofNat 64 (c.slabAddr i)).toNat = c.slabAddr i := u64_ofNat_toNat (by omega)
  have offset : (BitVec.ofNat 64 (p - c.slabAddr i)).toNat = p - c.slabAddr i :=
    u64_ofNat_toNat (by omega)
  have multiple : c.slabSize ∣ c.slabAddr i :=
    Nat.dvd_add aligned.aligned (Nat.dvd_mul_left _ _)
  have exact := (alignUp_sub_eq_iff (s := c.slab) (by omega)
    (BitVec.ofNat 64 (c.slabAddr i))).mpr ⟨aligned.power, by rw [start]; exact multiple⟩
    (BitVec.ofNat 64 (p - c.slabAddr i)) (by omega) (by rw [offset]; omega)
  have sum : BitVec.ofNat 64 (c.slabAddr i) + BitVec.ofNat 64 (p - c.slabAddr i) =
      BitVec.ofNat 64 p := by
    rw [← BitVec.ofNat_add]
    congr 1
    omega
  rw [sum] at exact
  rw [ownerSlab, exact, start]

theorem Aligned.finds (aligned : Aligned c) (a : Act) : Finds c a := by
  cases a with
  | sliceFree ptr => exact aligned.ownerFound ptr
  | _ => trivial

/-! ## The outcomes -/

/-- What becomes of the slab, and of the counters `t`, once `live` is what is left. -/
inductive Release (c : UsmmConf) (r r' : Region) (k j : Nat) (h : Head) (live : List Nat)
    (t : Counters) : Prop
  | reopened (full : (slabAt r.mem (c.slabAddr j)).isfull = true)
      (moves : Queues.Moves r.lists r'.lists (c.slabAddr j) (.cls k))
      (formatted : Formatted c r'.mem (c.slabAddr j) k live)
      (counted : counters c r'.mem = (t.addSliceFull k (-1)).addFull (-1))
  | emptied (notFull : (slabAt r.mem (c.slabAddr j)).isfull = false) (none : live = [])
      (moves : Queues.Moves r.lists r'.lists (c.slabAddr j) .free)
      (blank : slabAt r'.mem (c.slabAddr j) = .unformatted)
      (counted : counters c r'.mem = (t.addSlabs k (-1)).addFree 1)
  | kept (notFull : (slabAt r.mem (c.slabAddr j)).isfull = false) (some : live ≠ [])
      (moves : Queues.Moves r.lists r'.lists (c.slabAddr j) h)
      (formatted : Formatted c r'.mem (c.slabAddr j) k live) (counted : counters c r'.mem = t)

/-- **A release.**  Slab `j`, cut for class `k`, was on list `h` with the live
slices `live`, and got `p` back. -/
structure Freed (c : UsmmConf) (r r' : Region) (k j : Nat) (h : Head) (live : List Nat) (p : Nat) :
    Prop where
  positive : 1 ≤ j
  below : j < c.slabCount
  listed : c.slabAddr j ∈ r.lists h
  home : h = .cls k ∨ h = .full
  inside : InSlab c (c.slabAddr j) p
  alive : p ∈ live
  before : Formatted c r.mem (c.slabAddr j) k live
  us : r'.us = c.base
  frame : ChangesOnly (OpSpan c .stats (· = j)) r.mem r'.mem
  outcome : Release c r r' k j h (live.erase p) ((counters c r.mem).addUsed k (-1))

theorem setWidth_sliceSize {k : Nat} :
    (BitVec.ofNat 64 (sliceSize k)).setWidth 32 = BitVec.ofNat 32 (sliceSize k) :=
  BitVec.setWidth_ofNat_of_le (by decide) _

/-- The class is found again in the header. -/
theorem Formatted.find {m : Mem} {s k : Nat} {live : List Nat} (formatted : Formatted c m s k live) :
    usmmSlabFind ((slabAt m s).slice.setWidth 32) = some (k, sliceSize k) := by
  rw [formatted.2.sliceEq, setWidth_sliceSize, usmmSlabFind_sliceSize k formatted.1]

/-- An empty slab has no live slice. -/
theorem Formatted.isempty_iff {m : Mem} {s k : Nat} {live : List Nat}
    (formatted : Formatted c m s k live) : (slabAt m s).isempty = true ↔ live = [] := by
  rw [UsmmSlab.isempty, beq_iff_eq, ← List.length_eq_zero_iff, ← formatted.2.used_toNat]
  exact BitVec.toNat_inj.symm

/-- The last part of the call, from a region where the slice is back. -/
theorem sliceRelease_spec (roomy : c.Roomy) {r₀ r : Region} {k j : Nat} {h : Head}
    {live : List Nat} (us : r.us = c.base) (placed : r.lists.Placed) (lists : r.lists = r₀.lists)
    (positive : 1 ≤ j) (below : j < c.slabCount) (listed : c.slabAddr j ∈ r.lists h)
    (formatted : Formatted c r.mem (c.slabAddr j) k live) :
    ∃ r', sliceRelease r (statAddr c.base k) (c.slabAddr j) (slabAt r₀.mem (c.slabAddr j)).isfull =
        .ok r' ∧ r'.us = c.base ∧ ChangesOnly (OpSpan c .stats (· = j)) r.mem r'.mem ∧
      Release c r₀ r' k j h live (counters c r.mem) := by
  have large := roomy.large
  have start := c.slabAddr_ge positive
  have bound := formatted.1
  cases full : (slabAt r₀.mem (c.slabAddr j)).isfull with
  | true =>
      obtain ⟨r₁, moved⟩ : ∃ r₁, (r.listDel (c.slabAddr j)).listAddTail (c.slabAddr j) (.cls k) = r₁ :=
        ⟨_, rfl⟩
      have us₁ : r₁.us = c.base := by rw [← moved, listAddTail_us, listDel_us, us]
      have mem₁ : r₁.mem = r.mem := by rw [← moved, listAddTail_mem, listDel_mem]
      have lists₁ : r₁.lists = (r.lists.del (c.slabAddr j)).append (.cls k) (c.slabAddr j) := by
        rw [← moved, listAddTail_lists, listDel_lists]
      obtain ⟨r', made⟩ : ∃ r', addStatFull (addStatSliceFull r₁ (statAddr c.base k) (-1)) (-1) = r' :=
        ⟨_, rfl⟩
      have counted : ∀ {T}, ChangesOnly (OpSpan c .stats T) r.mem r'.mem := fun {T} => by
        rw [← made, ← mem₁]
        refine (addStatSliceFull_changesOnly roomy r₁ bound (-1)).trans
          (addStatFull_changesOnly roomy _ ?_ (-1))
        rw [addStatSliceFull_us, us₁]
      refine ⟨r', ?_, ?_, counted, .reopened full ?_ ?_ ?_⟩
      · simp only [sliceRelease, if_true, listDel_mem, formatted.find, moved, made]
      · rw [← made, addStatFull_us, addStatSliceFull_us, us₁]
      · rw [← lists, ← made, addStatFull_lists, addStatSliceFull_lists, lists₁]
        exact .append placed _ _
      · exact formatted.of_opSpan roomy (@counted fun _ => False) positive below id
      · rw [← made, counters_addStatFull (by rw [addStatSliceFull_us, us₁]),
          counters_addStatSliceFull bound, mem₁]
  | false =>
      by_cases none : live = []
      · have isempty := formatted.isempty_iff.mpr none
        obtain ⟨r₁, moved⟩ : ∃ r₁, ((r.listDel (c.slabAddr j)).update fun m =>
          usmmSlabInit m (c.slabAddr j)).listAdd (c.slabAddr j) .free = r₁ := ⟨_, rfl⟩
        have us₁ : r₁.us = c.base := by rw [← moved, listAdd_us, update_us, listDel_us, us]
        have mem₁ : r₁.mem = usmmSlabInit r.mem (c.slabAddr j) := by
          rw [← moved, listAdd_mem, update_mem, listDel_mem]
        have lists₁ : r₁.lists = (r.lists.del (c.slabAddr j)).push .free (c.slabAddr j) := by
          rw [← moved, listAdd_lists, update_lists, listDel_lists]
        obtain ⟨r', made⟩ : ∃ r', addStatFree (addStatSlabs r₁ (statAddr c.base k) (-1)) 1 = r' :=
          ⟨_, rfl⟩
        have init := usmmSlabInit_changesOnly r.mem (c.slabAddr j)
        rw [← mem₁] at init
        have counted : ∀ {T}, ChangesOnly (OpSpan c .stats T) r₁.mem r'.mem := fun {T} => by
          rw [← made]
          refine (addStatSlabs_changesOnly roomy r₁ bound (-1)).trans
            (addStatFree_changesOnly roomy _ ?_ 1)
          rw [addStatSlabs_us, us₁]
        refine ⟨r', ?_, ?_, ?_, .emptied full none ?_ ?_ ?_⟩
        · simp only [sliceRelease, isempty, if_neg Bool.false_ne_true, if_true, moved, made]
        · rw [← made, addStatFree_us, addStatSlabs_us, us₁]
        · refine (init.mono fun x span => ?_).trans counted
          exact slab_opSpan positive le_rfl (by simp only [slabHeaderSize]; omega) span
        · rw [← lists, ← made, addStatFree_lists, addStatSlabs_lists, lists₁]
          exact .push placed _ _
        · rw [slabAt_of_opSpan roomy (@counted fun _ => False) positive id, mem₁]
          exact slabAt_usmmSlabInit r.mem _
        · rw [← made, counters_addStatFree (by rw [addStatSlabs_us, us₁]),
            counters_addStatSlabs bound, counters_of_above roomy init]
          intro x span
          simp only [Span] at span
          omega
      · have isempty : (slabAt r.mem (c.slabAddr j)).isempty = false :=
          Bool.eq_false_iff.mpr fun empty => none (formatted.isempty_iff.mp empty)
        refine ⟨r, ?_, us, .refl _ _, .kept full none ?_ formatted rfl⟩
        · simp only [sliceRelease, isempty, if_neg Bool.false_ne_true]
        · rw [← lists]
          exact .refl placed listed

/-- Unless the slab is empty now, only statistics are written. -/
theorem sliceRelease_changesOnly (roomy : c.Roomy) {r r' : Region} {k slab : Nat} {full : Bool}
    {T : Nat → Prop} (us : r.us = c.base) (bound : k < usmmSlabArrayMax)
    (left : full = true ∨ (slabAt r.mem slab).isempty = false)
    (result : sliceRelease r (statAddr c.base k) slab full = .ok r') :
    ChangesOnly (OpSpan c .stats T) r.mem r'.mem := by
  unfold sliceRelease at result
  split at result
  · dsimp only at result
    split at result
    · cases result
    · rename_i idx _ _
      obtain rfl := Except.ok.inj result
      exact (addStatSliceFull_changesOnly roomy ((r.listDel slab).listAddTail slab (.cls idx)) bound
        (-1)).trans (addStatFull_changesOnly roomy _
          (by rw [addStatSliceFull_us, listAddTail_us, listDel_us, us]) (-1))
  · rename_i notFull
    have some := left.resolve_left notFull
    rw [some, if_neg Bool.false_ne_true] at result
    obtain rfl := Except.ok.inj result
    exact .refl _ _

/-- The call on a live slice: the slice is put back and the slab is looked at. -/
theorem usmmSliceFree_eq (roomy : c.Roomy) (inv : Inv c w) (b : Build) {j k p : Nat}
    (positive : 1 ≤ j) (below : j < c.slabCount)
    (formatted : Formatted c w.mem (c.slabAddr j) k (livePtrs c w.slices (c.slabAddr j)))
    (live : p ∈ livePtrs c w.slices (c.slabAddr j)) (owner : OwnerFound c p) {m₁ : Mem}
    (freed : usmmSlabFree b w.mem (c.slabAddr j) p = .ok m₁) :
    usmmSliceFree b w.region p =
      sliceRelease (addStatUsed (w.region.update fun _ => m₁) (statAddr c.base k) (-1))
        (statAddr c.base k) (c.slabAddr j) (slabAt w.region.mem (c.slabAddr j)).isfull := by
  have bounds := slice_bounds roomy formatted.1 (formatted.2.mem_grid live)
  have inside := (mem_livePtrs.mp live).1.2
  have header : 0 < slabHeaderSize := by decide
  have slab := owner j positive below (by omega) inside
  have class' := Formatted.find (show Formatted c w.region.mem (c.slabAddr j) k _ from formatted)
  simp only [usmmSliceFree, if_neg (show p ≠ 0 by omega), inv.us,
    show confSlab w.region.mem c.base = c.slab from inv.control.slab, slab, class', inv.stat]
  rw [formatted.2.sliceEq, beq_self_eq_true, assert_true, freed]
  rfl

/-- A live slice is freed without a fault. -/
theorem usmmSliceFree_spec (roomy : c.Roomy) (inv : Inv c w) (b : Build) {x : Piece}
    (held : x ∈ w.slices) (owner : OwnerFound c x.ptr) :
    ∃ r' k j h, usmmSliceFree b w.region x.ptr = .ok r' ∧
      usmmSlabFind (x.size.setWidth 32) = some (k, sliceSize k) ∧
      Freed c w.region r' k j h (livePtrs c w.slices (c.slabAddr j)) x.ptr := by
  have large := roomy.large
  obtain ⟨j, h, k, positive, below, listed, home, inside, live, formatted, found⟩ := inv.home held
  obtain ⟨bound, sliced⟩ := formatted
  have bounds := slice_bounds roomy bound (sliced.mem_grid live)
  have wide := (sliceSize_bounds k bound).1
  have start := c.slabAddr_ge positive
  obtain ⟨m₁, freed, sliced', frame⟩ := usmmSlabFree_spec b sliced (sliceRoom roomy below bound) live
  obtain ⟨r, made⟩ : ∃ r, addStatUsed (w.region.update fun _ => m₁) (statAddr c.base k) (-1) = r :=
    ⟨_, rfl⟩
  have us : r.us = c.base := by rw [← made, addStatUsed_us, update_us, inv.us]
  have lists : r.lists = w.region.lists := by rw [← made, addStatUsed_lists, update_lists]
  have used : ∀ {T}, ChangesOnly (OpSpan c .stats T) m₁ r.mem := fun {T} =>
    made ▸ addStatUsed_changesOnly roomy (w.region.update fun _ => m₁) bound (-1)
  have after := Formatted.of_opSpan roomy (@used fun _ => False) positive below id
    (show Formatted c m₁ (c.slabAddr j) k _ from ⟨bound, sliced'⟩)
  have frame₁ : ChangesOnly (OpSpan c .stats (· = j)) w.mem r.mem := by
    refine (frame.mono fun y span => ?_).trans used
    rcases span with word | slice
    · exact slab_opSpan positive (by omega) (by omega) word
    · exact slab_opSpan positive (by omega) (by omega) slice
  have counted : counters c r.mem = (counters c w.mem).addUsed k (-1) := by
    rw [← made, counters_addStatUsed bound, update_mem, counters_of_above roomy frame]
    intro y span
    simp only [Span] at span
    omega
  have call := usmmSliceFree_eq roomy inv b positive below ⟨bound, sliced⟩ live owner freed
  rw [made] at call
  have placed : r.lists.Placed := by
    rw [lists]
    exact inv.placed
  have there : c.slabAddr j ∈ r.lists h := by
    rw [lists]
    exact listed
  obtain ⟨r', result, us', frame', outcome⟩ :=
    sliceRelease_spec roomy us placed lists positive below there after
  rw [counted] at outcome
  exact ⟨r', k, j, h, call.trans result, found, positive, below, listed, home, inside, live,
    ⟨bound, sliced⟩, us', frame₁.trans frame', outcome⟩

/-! ## The invariant afterwards -/

/-- A live slice of the slab an operation worked on, when the slab kept its class. -/
theorem SliceOk.of_here {w' : World} {x : Piece} {j : Nat} {h : Head}
    (ok : SliceOk c w.mem w.lists x) (inside : InSlab c (c.slabAddr j) x.ptr)
    (listed : c.slabAddr j ∈ w'.lists h)
    (same : (slabAt w'.mem (c.slabAddr j)).slice = (slabAt w.mem (c.slabAddr j)).slice) :
    SliceOk c w'.mem w'.lists x := by
  obtain ⟨i, h', k, positive, below, -, within, bound, found, format⟩ := ok
  obtain rfl := within.unique inside
  exact ⟨i, h, k, positive, below, listed, inside, bound, found, same.trans format⟩

namespace Freed

variable {r' : Region} {k j p : Nat} {h : Head}

/-- The slab keeps its format, on the list `h₁`. -/
theorem inv_formatted (freed : Freed c w.region r' k j h (livePtrs c w.slices (c.slabAddr j)) p)
    (roomy : c.Roomy) (before : Inv c w) {h₁ : Head} (kind : h₁ = .cls k ∨ h₁ = .full)
    (moves : Queues.Moves w.lists r'.lists (c.slabAddr j) h₁)
    (formatted : Formatted c r'.mem (c.slabAddr j) k
      ((livePtrs c w.slices (c.slabAddr j)).erase p)) :
    Inv c { w with region := r', slices := drop w.slices p } := by
  rw [← livePtrs_drop] at formatted
  refine before.updateOne roomy h₁ freed.positive freed.below freed.listed freed.us rfl freed.frame
    moves (fun i ne => livePtrs_drop_outside fun within => ne (within.unique freed.inside)) ?_
    fun x held => ?_
  · rcases kind with rfl | rfl
    · exact formatted
    · exact ⟨k, formatted⟩
  · have old : x ∈ w.slices := List.mem_of_mem_eraseP held
    by_cases within : InSlab c (c.slabAddr j) x.ptr
    · exact .inl (@SliceOk.of_here c w ⟨r', w.blocks, drop w.slices p⟩ x j h₁ (before.slices x old)
        within moves.listed (formatted.2.sliceEq.trans freed.before.2.sliceEq.symm))
    · exact .inr ⟨old, within⟩

/-- The invariant holds after a release. -/
theorem inv (freed : Freed c w.region r' k j h (livePtrs c w.slices (c.slabAddr j)) p)
    (roomy : c.Roomy) (before : Inv c w) :
    Inv c { w with region := r', slices := drop w.slices p } := by
  cases freed.outcome with
  | reopened full moves formatted counted =>
      exact freed.inv_formatted roomy before (.inl rfl) moves formatted
  | kept notFull some moves formatted counted =>
      exact freed.inv_formatted roomy before freed.home moves formatted
  | emptied notFull none moves blank counted =>
      have empty : livePtrs c (drop w.slices p) (c.slabAddr j) = [] := by
        rw [livePtrs_drop, none]
      refine before.updateOne roomy .free freed.positive freed.below freed.listed freed.us rfl
        freed.frame moves
        (fun i ne => livePtrs_drop_outside fun within => ne (within.unique freed.inside))
        ⟨blank, empty⟩ fun x held => .inr ⟨List.mem_of_mem_eraseP held, fun within => ?_⟩
      have live := mem_livePtrs.mpr ⟨within, x, held, rfl⟩
      rw [empty] at live
      exact absurd live List.not_mem_nil

end Freed

end Itaro.Usmm
