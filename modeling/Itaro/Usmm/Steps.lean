/-
# Usmm.Steps -- every step of a heeding client keeps the invariant

One lemma per kind of action: the four allocator calls are those of
`Usmm.SliceAlloc`, `Usmm.SliceFree` and `Usmm.HeapSteps`, the slot calls write in
the first slab alone, and a write stays past the length word of a block or inside
a slice.
`step_inv` puts them together and `run_inv` carries them over runs.
-/
import Itaro.Usmm.HeapSteps

namespace Itaro.Usmm

set_option autoImplicit false

open Theory

variable {c : UsmmConf} {w w' : World} {b : Build}

/-! ## Slots -/

theorem Region.slot_eq {r : Region} (us : r.us = c.base) (control : Control c r.mem) (slot : Nat) :
    r.slot slot = c.base + usmmSlotsOffset + slot * 16 + 8 := by
  rw [Region.slot, us, control.slots]

/-- Setting a slot that exists. -/
theorem setSlot_inv (roomy : c.Roomy) (inv : Inv c w) {slot : Nat} (ptr : BitVec 64)
    (bound : slot < usmmSlotsMax) :
    Inv c { w with region := w.region.update fun m => setU64 m (w.region.slot slot) ptr } := by
  have large := roomy.large
  simp only [usmmSlotsMax] at bound
  have frame : ChangesOnly (Span (c.base + usmmSlotsOffset + slot * 16 + 8) 8) w.mem
      (w.region.update fun m => setU64 m (w.region.slot slot) ptr).mem := by
    rw [update_mem, Region.slot_eq inv.us inv.control]
    exact setU64_changesOnly _ _ _
  refine @Inv.updateNone c w _ .control roomy inv (by rw [update_us, inv.us])
    (frame.mono fun x span => .inl ?_) (fun k below => ?_) rfl rfl rfl
  · simp only [Span, usmmSlotsOffset] at span
    simp only [Reach.stop]
    omega
  · -- the slots end where the bitmap begins, or before
    refine bitmapTest_of_changesOnly frame fun span => ?_
    simp only [Span, usmmSlotsOffset, usmmSlabBitmapOffset] at span
    omega

theorem usmmSlotAppend_cases (r : Region) (ptr : BitVec 64) :
    (usmmSlotAppend r ptr).1 = r ∨ ∃ slot < usmmSlotsMax,
      (usmmSlotAppend r ptr).1 = r.update fun m => setU64 m (r.slot slot) ptr := by
  unfold usmmSlotAppend
  split
  · exact .inl rfl
  · rename_i slot found
    obtain ⟨i, below, chosen, -⟩ := firstSome_eq_some.mp found
    obtain ⟨-, same⟩ := Option.ite_none_right_eq_some.mp chosen
    obtain rfl := Option.some.inj same
    exact .inr ⟨i, below, rfl⟩

theorem usmmSlotAppend_inv (roomy : c.Roomy) (inv : Inv c w) (ptr : BitVec 64) :
    Inv c { w with region := (usmmSlotAppend w.region ptr).1 } := by
  cases usmmSlotAppend_cases w.region ptr with
  | inl full =>
      rw [full]
      exact inv
  | inr set =>
      obtain ⟨slot, bound, set⟩ := set
      rw [set]
      exact setSlot_inv roomy inv ptr bound

/-! ## Writes of the client -/

/-- Two blocks that own one slab are the same block. -/
theorem Inv.owner_unique (inv : Inv c w) {x y : Piece} (xBlock : x ∈ w.blocks)
    (yBlock : y ∈ w.blocks) {i : Nat} (xOwns : Owns c x i) (yOwns : Owns c y i) : x = y := by
  by_contra ne
  have : Std.Symm fun x y => ∀ i, Owns c x i → ¬ Owns c y i :=
    ⟨fun _ _ apart i second first => apart i first second⟩
  exact inv.apart.forall xBlock yBlock ne i xOwns yOwns

/-- A byte of a block past its length word. -/
theorem writeBlock_inv (roomy : c.Roomy) (inv : Inv c w) {x : Piece} (block : x ∈ w.blocks)
    {addr : Nat} (bytes : HeapBytes c x addr) (byte : BitVec 8) :
    Inv c { w with region := w.region.update fun m => setU8 m addr byte } := by
  have large := roomy.large
  have ok := inv.blocks x block
  obtain ⟨lower, upper⟩ := bytes
  -- the slab the byte is in
  obtain ⟨j, owns, inside⟩ : ∃ j, Owns c x j ∧ Span (c.slabAddr j) c.slabSize addr := by
    have ptr := ok.ptr
    have lowest := c.slabAddr_ge ok.first
    have below : addr - c.base < (blockFirst c x + blockNum c x) * c.slabSize := by
      rw [UsmmConf.slabAddr] at upper
      omega
    have above : blockFirst c x * c.slabSize ≤ addr - c.base := by
      rw [UsmmConf.slabAddr] at ptr
      omega
    have split := Nat.div_add_mod' (addr - c.base) c.slabSize
    have rest := Nat.mod_lt (addr - c.base) (show 0 < c.slabSize by omega)
    refine ⟨(addr - c.base) / c.slabSize, ⟨(Nat.le_div_iff_mul_le (by omega)).mpr above,
      (Nat.div_lt_iff_lt_mul (by omega)).mpr below⟩, ?_⟩
    simp only [Span, UsmmConf.slabAddr]
    omega
  have positive : 1 ≤ j := ok.first.trans owns.1
  have frame : ChangesOnly (OpSpan c .stats (· = j)) w.mem (setU8 w.mem addr byte) :=
    (setU8_changesOnly _ _ _).mono fun y span => .inr ⟨j, rfl, positive, by
      simp only [Span] at span inside ⊢
      omega⟩
  refine inv.update roomy inv.us frame (fun k below => ?_) inv.placed inv.slabs (fun _ _ _ => Iff.rfl) (fun _ _ => rfl)
    (fun i same _ _ {h} listed => absurd listed (ok.unlisted i (same ▸ owns) h))
    (fun y slice => .inr ⟨slice, fun i same => inv.block_no_slice block slice (same ▸ owns)⟩)
    (fun y other => .inl ?_) inv.apart inv.cover
  · show bitmapTest (setU8 w.mem addr byte) _ k = true ↔ _
    rw [bits_of_opSpan roomy frame below]
    exact inv.bits k below
  have old := inv.blocks y other
  refine ⟨old.ptr, old.first, old.some, old.last, old.bits, ?_, old.unlisted⟩
  -- the length words of blocks are before `ptr`
  rw [← old.length]
  congr 1
  refine (setU8_changesOnly w.mem addr byte).u32 fun z low high span => ?_
  have some := old.some
  have ptr := ok.ptr
  by_cases same : blockFirst c y = j
  · have first : Owns c y j := ⟨same.le, by omega⟩
    obtain rfl := inv.owner_unique block other owns first
    simp only [Span] at span
    omega
  · simp only [Span] at span inside
    rcases c.slabAddr_apart same with before | after <;> omega

/-- Changes inside a live slice leave every slab as it is cut. -/
theorem Inv.formatted_of_client (roomy : c.Roomy) (inv : Inv c w) {x : Piece} (slice : x ∈ w.slices)
    {size k : Nat} (found : usmmSlabFind (x.size.setWidth 32) = some (k, size)) {m' : Mem}
    (changes : ChangesOnly (Span x.ptr size) w.mem m') :
    ∃ j h, 1 ≤ j ∧ j < c.slabCount ∧ c.slabAddr j ∈ w.lists h ∧
      ChangesOnly (OpSpan c .stats (· = j)) w.mem m' ∧
      (slabAt m' (c.slabAddr j)).slice = (slabAt w.mem (c.slabAddr j)).slice ∧
      (h = .cls k ∨ h = .full) ∧
      ∀ i k', 1 ≤ i → i < c.slabCount →
        Formatted c w.mem (c.slabAddr i) k' (livePtrs c w.slices (c.slabAddr i)) →
        Formatted c m' (c.slabAddr i) k' (livePtrs c w.slices (c.slabAddr i)) := by
  have large := roomy.large
  obtain ⟨j, h, k₁, positive, below, listed, home, inside, live, formatted, found₁⟩ := inv.home slice
  obtain ⟨rfl, rfl⟩ : k₁ = k ∧ sliceSize k₁ = size := by simpa [found, eq_comm] using found₁
  obtain ⟨bound, sliced⟩ := formatted
  have within := slice_bounds roomy bound (sliced.mem_grid live)
  have frame : ChangesOnly (OpSpan c .stats (· = j)) w.mem m' :=
    changes.mono fun y span => slab_opSpan positive (by omega) (by omega) span
  have sliced' := sliced.of_client live changes (sliceRoom roomy below bound)
  refine ⟨j, h, positive, below, listed, frame, sliced'.sliceEq.trans sliced.sliceEq.symm, home,
    fun i k' iPositive iBelow formatted => ?_⟩
  by_cases same : i = j
  · subst same
    obtain rfl : k' = k₁ :=
      sliceWord_injective formatted.1 bound (formatted.2.sliceEq.symm.trans sliced.sliceEq)
    exact ⟨bound, sliced'⟩
  · exact formatted.of_opSpan roomy frame iPositive iBelow same

/-- The client changes one of its slices. -/
theorem Inv.client (roomy : c.Roomy) (inv : Inv c w) {x : Piece} (slice : x ∈ w.slices)
    {size k : Nat} (found : usmmSlabFind (x.size.setWidth 32) = some (k, size)) {m' : Mem}
    (changes : ChangesOnly (Span x.ptr size) w.mem m') :
    Inv c { w with region := w.region.update fun _ => m' } := by
  obtain ⟨j, h, positive, below, listed, frame, format, home, formatted⟩ :=
    inv.formatted_of_client roomy slice found changes
  refine inv.updateOne roomy h positive below listed inv.us rfl frame
    (.refl inv.placed listed) (fun _ _ => rfl) ?_ fun y held => ?_
  · have ok := inv.ok listed
    rcases home with rfl | rfl
    · exact formatted j k positive below ok
    · obtain ⟨k', ok⟩ := ok
      exact ⟨k', formatted j k' positive below ok⟩
  · by_cases here : InSlab c (c.slabAddr j) y.ptr
    · exact .inl ((inv.slices y held).of_here here listed format)
    · exact .inr ⟨held, here⟩

/-- A byte of a slice. -/
theorem writeSlice_inv (roomy : c.Roomy) (inv : Inv c w) {x : Piece} (slice : x ∈ w.slices)
    {addr : Nat} (bytes : SliceBytes x addr) (byte : BitVec 8) :
    Inv c { w with region := w.region.update fun m => setU8 m addr byte } := by
  obtain ⟨k, size, found, lower, upper⟩ := bytes
  refine inv.client roomy slice found ((setU8_changesOnly w.mem addr byte).mono fun y span => ?_)
  simp only [Span] at span ⊢
  omega

/-! ## Steps and runs -/

/-- No live slice is at `NULL`. -/
theorem Inv.drop_null (inv : Inv c w) (roomy : c.Roomy) : drop w.slices 0 = w.slices := by
  have large := roomy.large
  refine List.eraseP_of_forall_not fun x held null => ?_
  obtain ⟨j, h, k, positive, -, -, -, inside, -⟩ := inv.home held
  have lowest := c.slabAddr_ge positive
  have lower := inside.1
  rw [beq_iff_eq.mp null] at lower
  omega

/-- The piece a release takes off the list of live slices. -/
theorem exists_dropped {slices : List Piece} {p : Nat} (held : ∃ x ∈ slices, x.ptr = p) :
    ∃ x ∈ slices, x.ptr = p ∧ slices.Perm (x :: drop slices p) := by
  obtain ⟨x, member, same⟩ := held
  obtain ⟨y, l, l', -, hit, split, rest⟩ := List.exists_of_eraseP (p := fun y => y.ptr == p)
    member (beq_iff_eq.mpr same)
  refine ⟨y, ?_, beq_iff_eq.mp hit, ?_⟩
  · rw [split]
    exact List.mem_append_right l List.mem_cons_self
  · rw [drop, rest, split]
    exact List.perm_middle

/-- A call for a slice changes nothing, when there is none left, or is given one. -/
theorem Step.sliceAlloc_cases (roomy : c.Roomy) (inv : Inv c w) {size : BitVec 64}
    (step : Step b w (.sliceAlloc size) w') :
    (w' = w ∧ ∀ k slice, usmmSlabFind (size.setWidth 32) = some (k, slice) →
        w.lists (.cls k) = [] ∧ w.lists .free = []) ∨
      ∃ r' p k j fresh, w' = ⟨r', w.blocks, hold w.slices p size⟩ ∧ k < usmmSlabArrayMax ∧
        usmmSlabFind (size.setWidth 32) = some (k, sliceSize k) ∧
        Gave c w.region r' k j fresh (livePtrs c w.slices (c.slabAddr j)) p := by
  obtain ⟨-, performed⟩ := step
  obtain ⟨⟨r', p⟩, result⟩ : ∃ t, usmmSliceAlloc w.region size = t := ⟨_, rfl⟩
  rw [perform, result] at performed
  cases performed
  rcases usmmSliceAlloc_cases roomy inv result with
    ⟨rfl, rfl, refused⟩ | ⟨k, j, fresh, bound, found, gave⟩
  · exact .inl ⟨rfl, refused⟩
  · exact .inr ⟨r', p, k, j, fresh, rfl, bound, found, gave⟩

/-- A release changes nothing, for `NULL`, or takes a live slice. -/
theorem Step.sliceFree_cases (roomy : c.Roomy) (inv : Inv c w) {ptr : Nat}
    (finds : OwnerFound c ptr) (step : Step b w (.sliceFree ptr) w') :
    w' = w ∨ ∃ x r' k j h, x ∈ w.slices ∧ x.ptr = ptr ∧ w.slices.Perm (x :: drop w.slices ptr) ∧
      w' = ⟨r', w.blocks, drop w.slices ptr⟩ ∧
      usmmSlabFind (x.size.setWidth 32) = some (k, sliceSize k) ∧
      Freed c w.region r' k j h (livePtrs c w.slices (c.slabAddr j)) ptr := by
  obtain ⟨allowed, performed⟩ := step
  rw [perform] at performed
  cases allowed with
  | inl null =>
      subst null
      cases performed
      rw [inv.drop_null roomy]
      exact .inl rfl
  | inr held =>
      obtain ⟨x, slice, rfl, perm⟩ := exists_dropped held
      obtain ⟨r', k, j, h, result, found, freed⟩ := usmmSliceFree_spec roomy inv b slice finds
      rw [result] at performed
      cases performed
      exact .inr ⟨x, r', k, j, h, slice, rfl, perm, rfl, found, freed⟩

/-- **One step.** -/
theorem step_inv (roomy : c.Roomy) (inv : Inv c w) {a : Act} (heeds : Heeds c w a)
    (finds : Finds c a) (step : Step b w a w') : Inv c w' := by
  obtain ⟨allowed, performed⟩ := step
  cases a with
  | heapAlloc size =>
      rw [perform] at performed
      cases result : usmmHeapAlloc b w.region size with
      | error which =>
          rw [result] at performed
          cases performed
      | ok taken =>
          rw [result] at performed
          cases performed
          exact usmmHeapAlloc_inv roomy inv heeds result
  | heapFree ptr =>
      cases performed
      exact usmmHeapFree_inv roomy inv allowed
  | sliceAlloc size =>
      rcases Step.sliceAlloc_cases roomy inv ⟨allowed, performed⟩ with
        ⟨rfl, -⟩ | ⟨r', p, k, j, fresh, rfl, bound, found, gave⟩
      · exact inv
      · exact gave.inv roomy inv found
  | sliceFree ptr =>
      rcases Step.sliceFree_cases roomy inv finds ⟨allowed, performed⟩ with
        rfl | ⟨x, r', k, j, h, slice, rfl, perm, rfl, found, freed⟩
      · exact inv
      · exact freed.inv roomy inv
  | slotSet slot ptr =>
      have bound : slot < usmmSlotsMax := allowed
      rw [perform, usmmSlotSet, decide_eq_true bound, assert_true] at performed
      cases performed
      exact setSlot_inv roomy inv ptr allowed
  | slotGet slot =>
      have bound : slot < usmmSlotsMax := allowed
      rw [perform, usmmSlotGet, decide_eq_true bound, assert_true] at performed
      cases performed
      exact inv
  | slotAppend ptr =>
      have result : { w with region := (usmmSlotAppend w.region ptr).1 } = w' :=
        Except.ok.inj performed
      rw [← result]
      exact usmmSlotAppend_inv roomy inv ptr
  | write addr byte =>
      cases performed
      cases heeds with
      | inl block =>
          obtain ⟨x, held, bytes⟩ := block
          exact writeBlock_inv roomy inv held bytes byte
      | inr slice =>
          obtain ⟨x, held, bytes⟩ := slice
          exact writeSlice_inv roomy inv held bytes byte

/-- A step of a client that keeps the protocol and heeds the defects. -/
def HeedingStep (c : UsmmConf) (b : Build) (w : World) (a : Act) (w' : World) : Prop :=
  Step b w a w' ∧ Heeds c w a ∧ Finds c a

/-- **Whole runs.** -/
theorem run_inv (roomy : c.Roomy) (starts : Starts c w) {as : List Act}
    (run : Run (HeedingStep c b) w as w') : Inv c w' :=
  run.invariant (fun _ _ _ inv ⟨step, heeds, finds⟩ => step_inv roomy inv heeds finds step)
    (starts_inv roomy starts)

end Itaro.Usmm
