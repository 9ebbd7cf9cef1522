/-
# Usmm.LinkedRuns -- whole runs with the lists in memory

`Refines` relates a world of the model in `Usmm.World`, whose lists are sequences, to one
whose lists are in its memory.  It holds of what `usmm_init` leaves (`starts_refines`) and
every action of a heeding client is matched (`linked_step`), so a whole run is
(`linked_simulates`).  The searches of such a run stay in the region as long as no request
wraps round to −8 slabs or fewer (`Counted.searchInside`).
-/
import Itaro.Usmm.LinkedSteps
import Itaro.Usmm.Ownership

namespace Itaro.Usmm.Linked

set_option autoImplicit false

open Theory

variable {c : UsmmConf} {w w' : Usmm.World} {b : Build}

/-! ## Writes of the client -/

/-- The slab a byte of a block is in. -/
theorem exists_slab (roomy : c.Roomy) {lists : Queues Head Nat} {m : Mem} {x : Piece} (ok : BlockOk c m lists x)
    {addr : Nat} (bytes : HeapBytes c x addr) : ∃ j, Owns c x j ∧ Span (c.slabAddr j) c.slabSize addr := by
  have large := roomy.large
  obtain ⟨lower, upper⟩ := bytes
  have ptr := ok.ptr
  have lowest := c.slabAddr_ge ok.first
  have split := Nat.div_add_mod' (addr - c.base) c.slabSize
  have rest := Nat.mod_lt (addr - c.base) (show 0 < c.slabSize by omega)
  refine ⟨(addr - c.base) / c.slabSize, ⟨?_, ?_⟩, ?_⟩
  · rw [UsmmConf.slabAddr] at ptr
    exact (Nat.le_div_iff_mul_le (by omega)).mpr (by omega)
  · rw [UsmmConf.slabAddr] at upper
    exact (Nat.div_lt_iff_lt_mul (by omega)).mpr (by omega)
  · simp only [Span, UsmmConf.slabAddr]
    omega

section Writes

variable {loose : List Nat} {m : Mem} (rep : Rep c loose w.region m) (roomy : c.Roomy) (inv : Inv c w) {x : Piece}
  {addr : Nat} (value : BitVec 8)
include rep roomy inv

theorem Rep.writeBlock (block : x ∈ w.blocks) (bytes : HeapBytes c x addr) :
    Rep c loose (w.region.update fun m => Theory.setU8 m addr value) (Theory.setU8 m addr value) := by
  have ok := inv.blocks x block
  obtain ⟨j, owns, inside⟩ := exists_slab roomy ok bytes
  have frame : ∀ m, ChangesOnly (Span (c.slabAddr j) c.slabSize) m (Theory.setU8 m addr value) := by
    intro m
    refine (setU8_changesOnly m addr value).mono fun y span => ?_
    simp only [Span] at span inside ⊢
    omega
  exact rep.changeSlab roomy (ok.first.trans owns.1) (ok.unlisted j owns) (frame w.mem) (frame m)
    (rep.same.store addr 1 value.toNat)

theorem Rep.writeSlice (slice : x ∈ w.slices) (bytes : SliceBytes x addr) :
    Rep c loose (w.region.update fun m => Theory.setU8 m addr value) (Theory.setU8 m addr value) := by
  have large := roomy.large
  obtain ⟨k, size, found, lower, upper⟩ := bytes
  obtain ⟨j, h, k', positive, below, -, -, -, live, formatted, found'⟩ := inv.home slice
  obtain ⟨rfl, rfl⟩ : k = k' ∧ size = sliceSize k' := by
    simpa using found.symm.trans found'
  have bounds := slice_bounds roomy formatted.1 (formatted.2.mem_grid live)
  have start := c.slabAddr_ge positive
  simp only [slabHeaderSize] at bounds
  exact rep.setU8 (by omega) (unlinked_slab roomy positive (by omega) (by omega)) value

end Writes

/-! ## One step -/

/-- The memory of `v` holds the region of `w` with its lists, and the clients hold the same. -/
structure Refines (c : UsmmConf) (w : Usmm.World) (v : World) : Prop where
  us : v.us = c.base
  blocks : v.blocks = w.blocks
  slices : v.slices = w.slices
  rep : Rep c [] w.region v.mem

/-- **One step.** -/
theorem linked_step (roomy : c.Roomy) (mapped : Mapped c) (inv : Inv c w) {v : World} (refines : Refines c w v)
    {a : Act} (step : HeedingStep c b w a w') : ∃ v', Linked.perform b v a = .ok v' ∧ Refines c w' v' := by
  obtain ⟨⟨allowed, performed⟩, heeds, finds⟩ := step
  obtain ⟨us, m, blocks, slices⟩ := v
  obtain ⟨rfl, rfl, rfl, rep⟩ := refines
  dsimp only at rep
  cases a with
  | heapAlloc size =>
    rw [Usmm.perform] at performed
    cases result : Usmm.usmmHeapAlloc b w.region size with
    | error which =>
      rw [result] at performed
      cases performed
    | ok taken =>
      obtain ⟨r', p⟩ := taken
      rw [result] at performed
      cases performed
      obtain ⟨m', result', rep'⟩ := rep.usmmHeapAlloc roomy inv mapped heeds result
      rw [perform, result']
      exact ⟨_, rfl, rfl, rfl, rfl, rep'⟩
  | heapFree ptr =>
    cases performed
    obtain ⟨x, held, rfl⟩ := allowed
    exact ⟨_, rfl, rfl, rfl, rfl, rep.usmmHeapFree roomy inv.placed (inv.blocks x held)⟩
  | sliceAlloc size =>
    obtain ⟨given, rep'⟩ := rep.usmmSliceAlloc roomy inv size
    obtain ⟨⟨r', p⟩, result⟩ : ∃ t, Usmm.usmmSliceAlloc w.region size = t := ⟨_, rfl⟩
    obtain ⟨⟨m', p'⟩, result'⟩ : ∃ t, usmmSliceAlloc m c.base size = t := ⟨_, rfl⟩
    rw [result, result'] at given rep'
    obtain rfl : p' = p := given
    rw [Usmm.perform, result] at performed
    cases performed
    rw [perform, result']
    exact ⟨_, rfl, rfl, rfl, rfl, rep'⟩
  | sliceFree ptr =>
    cases allowed with
    | inl null =>
      subst null
      cases performed
      exact ⟨_, rfl, rfl, rfl, rfl, rep⟩
    | inr held =>
      obtain ⟨x, slice, rfl⟩ := held
      obtain ⟨r', k, j, h, result, -⟩ := usmmSliceFree_spec roomy inv b slice finds
      rw [Usmm.perform, result] at performed
      cases performed
      obtain ⟨m', result', rep'⟩ := rep.usmmSliceFree roomy inv b slice finds result
      rw [perform, result']
      exact ⟨_, rfl, rfl, rfl, rfl, rep'⟩
  | slotSet slot ptr =>
    have bound : slot < usmmSlotsMax := allowed
    rw [Usmm.perform, Usmm.usmmSlotSet, decide_eq_true bound, assert_true] at performed
    cases performed
    rw [perform, usmmSlotSet, decide_eq_true bound, assert_true]
    exact ⟨_, rfl, rfl, rfl, rfl, rep.setSlot roomy bound ptr⟩
  | slotGet slot =>
    have bound : slot < usmmSlotsMax := allowed
    rw [Usmm.perform, Usmm.usmmSlotGet, decide_eq_true bound, assert_true] at performed
    cases performed
    rw [perform, usmmSlotGet, decide_eq_true bound, assert_true]
    exact ⟨_, rfl, rfl, rfl, rfl, rep⟩
  | slotAppend ptr =>
    have rep' := rep.usmmSlotAppend roomy ptr
    obtain ⟨⟨r', slot⟩, result⟩ : ∃ t, Usmm.usmmSlotAppend w.region ptr = t := ⟨_, rfl⟩
    obtain ⟨⟨m', slot'⟩, result'⟩ : ∃ t, usmmSlotAppend m c.base ptr = t := ⟨_, rfl⟩
    rw [result, result'] at rep'
    rw [Usmm.perform, result] at performed
    cases performed
    rw [perform, result']
    exact ⟨_, rfl, rfl, rfl, rfl, rep'⟩
  | write addr byte =>
    cases performed
    rcases heeds with ⟨x, held, bytes⟩ | ⟨x, held, bytes⟩
    · exact ⟨_, rfl, rfl, rfl, rfl, rep.writeBlock roomy inv byte held bytes⟩
    · exact ⟨_, rfl, rfl, rfl, rfl, rep.writeSlice roomy inv byte held bytes⟩

/-! ## Runs -/

/-- Of what `usmm_init` leaves. -/
theorem starts_refines (roomy : c.Roomy) (starts : Starts c w) : Refines c w (openWorld c w.mem) := by
  have inv := starts_inv roomy starts
  obtain ⟨fresh, opened⟩ := starts.fresh roomy
  have lists := openWorld_lists fresh
  rw [← opened] at lists
  refine ⟨rfl, starts.blocks.symm, starts.slices.symm, inv.us, inv.control, .refl _ _, ⟨⟨?_, ?_⟩, ?_, ?_, ?_, ?_, ?_, ?_⟩⟩
  · intro h
    exact (inv.placed.nodup h).map node_injective
  · intro h h' x first second
    obtain ⟨s, mem, rfl⟩ := List.mem_map.mp first
    exact inv.placed.one mem (mem_nodes.mp second)
  · intro h x listed
    obtain ⟨s, mem, rfl⟩ := List.mem_map.mp listed
    rw [opened] at mem
    obtain ⟨rfl, -⟩ := mem_initLists.mp mem
    trivial
  · intro h alive
    exact .inl ⟨h, alive, rfl⟩
  · intro h x listed
    obtain ⟨s, mem, rfl⟩ := List.mem_map.mp listed
    obtain ⟨i, positive, below, rfl⟩ := inv.slabs mem
    exact .inr ⟨i, positive, below, rfl⟩
  · intro h h' _ _ same
    exact headAddr_injective same
  · intro h h' x alive listed
    obtain ⟨s, mem, rfl⟩ := List.mem_map.mp listed
    obtain ⟨i, positive, -, rfl⟩ := inv.slabs mem
    have := head_node_apart roomy alive positive
    omega
  · intro h alive
    cases h with
    | free => exact lists.1
    | full => exact lists.2.1
    | cls k => exact lists.2.2 k alive

theorem testConf_mapped : Mapped testConf := show testConf.slabCount + 8 ≤ usmmSlabBitmapSize by decide

/-- A run is matched action by action. -/
theorem linked_run (roomy : c.Roomy) (mapped : Mapped c) (starts : Starts c w) {as : List Act}
    (run : Run (HeedingStep c b) w as w') :
    ∃ v, Run (fun v a v' => Linked.perform b v a = .ok v') (openWorld c w.mem) as v ∧ Refines c w' v := by
  induction run with
  | nil => exact ⟨_, .nil _, starts_refines roomy starts⟩
  | snoc run last ih =>
    obtain ⟨v, linked, refines⟩ := ih
    obtain ⟨v', performed, refines'⟩ := linked_step roomy mapped (run_inv roomy starts run) refines last
    exact ⟨v', .snoc linked performed, refines'⟩

/-- The bytes that the search for this request may read (`searchRange_congr_bytes`) are in the region. -/
def SearchInside (c : UsmmConf) : Act → Prop
  | .heapAlloc size => usmmSlabBitmapOffset + searchBytes (heapNum size c.slab) c.slabCount ≤ c.length.toNat
  | _ => True

/-- The size does not wrap round to −8 slabs or fewer: for those the search reads on behind the bitmap. -/
def Counted (c : UsmmConf) : Act → Prop
  | .heapAlloc size => -8 < heapNum size c.slab
  | _ => True

theorem Counted.searchInside (roomy : c.Roomy) {a : Act} (counted : Counted c a) : SearchInside c a := by
  cases a with
  | heapAlloc size =>
    have read : searchBytes (heapNum size c.slab) c.slabCount ≤ c.slabCount := searchBytes_le counted
    have slabs : c.slabCount * c.slabSize ≤ c.length.toNat := by
      rw [c.slabCount_eq]
      exact Nat.div_mul_le_self _ _
    have some := roomy.one_le_slabCount
    have large := roomy.large
    calc usmmSlabBitmapOffset + searchBytes (heapNum size c.slab) c.slabCount
        ≤ usmmSlabBitmapOffset * c.slabCount + c.slabCount :=
          Nat.add_le_add (Nat.le_mul_of_pos_right _ some) read
      _ = c.slabCount * (usmmSlabBitmapOffset + 1) := by ring
      _ ≤ c.slabCount * c.slabSize :=
          Nat.mul_le_mul_left _ (le_trans (by decide) large)
      _ ≤ c.length.toNat := slabs
  | _ => trivial

/-- **Whole runs.**  From what `usmm_init` leaves, the program with its lists in memory performs
every run of a heeding client without a fault, and its searches stay in the region.  It hands out the
same pointers, its memory holds the sequences of the slabs as the lists of their heads, and every
other byte is the same. -/
theorem linked_simulates (roomy : c.Roomy) (mapped : Mapped c) (starts : Starts c w) {as : List Act}
    (run : Run (HeedingStep c b) w as w') (counted : ∀ a ∈ as, Counted c a) :
    ∃ v, Run (fun v a v' => Linked.perform b v a = .ok v' ∧ SearchInside c a) (openWorld c w.mem) as v ∧
      v.blocks = w'.blocks ∧ v.slices = w'.slices ∧
      (∀ h, liveHead h → ListAt v.mem (headAddr c.base h) ((w'.lists h).map node)) ∧
      ∀ x, (∀ h, liveHead h → ¬ Span (headAddr c.base h) 16 x) → (∀ h, ∀ s ∈ w'.lists h, ¬ Span (node s) 16 x) →
        v.mem x = w'.mem x := by
  obtain ⟨v, linked, -, blocks, slices, rep⟩ := linked_run roomy mapped starts run
  have inside := linked.restrict fun a member => (counted a member).searchInside roomy
  refine ⟨v, inside, blocks, slices, fun h alive => rep.stored.lists alive, fun x heads slabs => ?_⟩
  refine rep.same x ?_
  rintro ⟨a, uses | ⟨s, mem, -⟩, span⟩
  · rcases uses with ⟨h, alive, rfl⟩ | ⟨h, listed⟩
    · exact heads h alive span
    · obtain ⟨s, mem, rfl⟩ := List.mem_map.mp listed
      exact slabs h s mem span
  · exact absurd mem List.not_mem_nil

theorem linked_simulates_testConf : ∃ (w w' : Usmm.World) (v : World) (p : Nat), Starts testConf w ∧
    Run (HeedingStep testConf .debug) w (roundTrip p) w' ∧
    Run (fun v a v' => Linked.perform .debug v a = .ok v' ∧ SearchInside testConf a)
      (openWorld testConf w.mem) (roundTrip p) v ∧
    v.blocks = w'.blocks := by
  obtain ⟨w, w', p, starts, run⟩ := exists_run_roundTrip .debug
  have counted : ∀ a ∈ roundTrip p, Counted testConf a := by
    have two : -8 < heapNum twoSlabs testConf.slab := by decide
    simp [roundTrip, Counted, two]
  obtain ⟨v, linked, blocks, -⟩ := linked_simulates testConf_roomy testConf_mapped starts run counted
  exact ⟨w, w', v, p, starts, run, linked, blocks⟩

end Itaro.Usmm.Linked
