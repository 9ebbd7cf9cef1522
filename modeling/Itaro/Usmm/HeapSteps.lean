/-
# Usmm.HeapSteps -- the heap allocator keeps the invariant

`usmm_heap_alloc` takes a window of slabs off their lists and `usmm_heap_free`
puts one back.  The two loops are handled by induction on the turns
(`takeSlabs_spec`, `giveSlabs_spec`).  Taking a window keeps the invariant when
every slab of it is on `free_slabs`, which is what `HeapHeeds` asks of the
position the search picks; giving a block back always does.
-/
import Itaro.Usmm.HeapSize
import Itaro.Usmm.SliceFree

namespace Itaro.Usmm

set_option autoImplicit false

open Theory

variable {c : UsmmConf} {w : World}

/-- The slabs `start, …, start + num - 1`. -/
def Window (start num i : Nat) : Prop := start ≤ i ∧ i < start + num

instance (start num i : Nat) : Decidable (Window start num i) :=
  inferInstanceAs (Decidable (_ ∧ _))

theorem slabSize_eq {r : Region} (us : r.us = c.base) (control : Control c r.mem) :
    r.slabSize = c.slabSize := by
  rw [Region.slabSize, us, control.slab]

theorem slab_eq {r : Region} (us : r.us = c.base) (control : Control c r.mem) (i : Nat) :
    r.us + i * r.slabSize = c.slabAddr i := by
  rw [slabSize_eq us control, us]
  rfl

/-- The word `stat_free_slabs` is in the first 112 bytes. -/
theorem statFreeSlabs_of_changesOnly {F : Nat → Prop} {m m' : Mem} (changes : ChangesOnly F m m')
    (misses : ∀ x, F x → c.base + 112 ≤ x) : statFreeSlabs m' c.base = statFreeSlabs m c.base :=
  changes.u32 fun x lower upper inside => by
    have := misses x inside
    omega

theorem statFreeSlabs_addStatFree {r : Region} (us : r.us = c.base) (n : BitVec 32) :
    statFreeSlabs (addStatFree r n).mem c.base = statFreeSlabs r.mem c.base + n :=
  congrArg Counters.free (counters_addStatFree us n)

/-! ## usmm_heap_alloc -/

/-- The loop over `is` takes these slabs off their lists and clears their headers. -/
theorem takeSlabs_spec (roomy : c.Roomy) {is : List Nat} (positive : ∀ i ∈ is, 1 ≤ i)
    {r r' : Region} (us : r.us = c.base) (control : Control c r.mem)
    (result : is.foldl takeSlab r = r') :
    r'.us = c.base ∧ Control c r'.mem ∧ ChangesOnly (OpSpan c .stats (· ∈ is)) r.mem r'.mem ∧
      r'.lists = r.lists.delAll (is.map c.slabAddr) ∧
      statFreeSlabs r'.mem c.base = statFreeSlabs r.mem c.base := by
  have large := roomy.large
  induction is generalizing r with
  | nil =>
      obtain rfl : r = r' := result
      exact ⟨us, control, .refl _ _, rfl, rfl⟩
  | cons i is ih =>
      rw [List.foldl_cons] at result
      obtain ⟨r₁, made⟩ : ∃ r₁, takeSlab r i = r₁ := ⟨_, rfl⟩
      have first : r₁ = (r.listDel (c.slabAddr i)).update fun m =>
          usmmSlabFini m (c.slabAddr i) := by
        rw [← made, takeSlab, slab_eq us control]
      have us₁ : r₁.us = c.base := by rw [first, update_us, listDel_us, us]
      have lists₁ : r₁.lists = r.lists.del (c.slabAddr i) := by
        rw [first, update_lists, listDel_lists]
      have start := c.slabAddr_ge (positive i List.mem_cons_self)
      have stat₁ : statFreeSlabs r₁.mem c.base = statFreeSlabs r.mem c.base := by
        rw [first, update_mem, listDel_mem]
        refine statFreeSlabs_of_changesOnly (usmmSlabFini_changesOnly r.mem (c.slabAddr i))
          fun x span => ?_
        simp only [Span] at span
        omega
      have frame₁ : ChangesOnly (OpSpan c .stats (· = i)) r.mem r₁.mem := by
        rw [first, update_mem, listDel_mem]
        refine (usmmSlabFini_changesOnly r.mem (c.slabAddr i)).mono fun x span => ?_
        exact slab_opSpan (positive i List.mem_cons_self) le_rfl
          (by simp only [slabHeaderSize]; omega) span
      rw [made] at result
      obtain ⟨us', control', frame', lists', stat'⟩ :=
        ih (fun j member => positive j (List.mem_cons_of_mem i member)) us₁
          (control.of_opSpan roomy frame₁) result
      refine ⟨us', control', ?_, ?_, stat'.trans stat₁⟩
      · refine (frame₁.mono fun x span => ?_).trans (frame'.mono fun x span => ?_)
        · rcases span with inside | ⟨j, rfl, rest⟩
          · exact .inl inside
          · exact .inr ⟨j, List.mem_cons_self, rest⟩
        · rcases span with inside | ⟨j, member, rest⟩
          · exact .inl inside
          · exact .inr ⟨j, List.mem_cons_of_mem i member, rest⟩
      · rw [lists', lists₁]
        rfl

/-- The block of a request begins behind its length word, in the first slab. -/
theorem heapTake_ptr (roomy : c.Roomy) {start num p : Nat} {r r' : Region} (us : r.us = c.base)
    (control : Control c r.mem) (first : 1 ≤ start) (result : heapTake r start num = (r', p)) :
    p = c.slabAddr start + 4 := by
  have large := roomy.large
  obtain ⟨r₁, made₁⟩ : ∃ r₁, (r.update fun m => bitmapSetRange m (slabBitmap m r.us) start
    ((start : Int) + num).toNat) = r₁ := ⟨_, rfl⟩
  have us₁ : r₁.us = c.base := by rw [← made₁, update_us, us]
  have control₁ : Control c r₁.mem := by
    rw [← made₁, update_mem, us, control.bitmap]
    refine control.of_changesOnly (bitmapSetRange_changesOnly _ _ _ _) fun x _ below span => ?_
    obtain ⟨k, -, -, rfl⟩ := span
    simp only [usmmSlabBitmapOffset] at below
    omega
  obtain ⟨r₂, made₂⟩ : ∃ r₂, (List.range' start (((start : Int) + num).toNat - start)).foldl
    takeSlab r₁ = r₂ := ⟨_, rfl⟩
  obtain ⟨us₂, control₂, -⟩ := takeSlabs_spec roomy
    (fun i member => first.trans (List.mem_range'_1.mp member).1) us₁ control₁ made₂
  have us₃ : (addStatFree r₂ (-BitVec.ofInt 32 num)).us = c.base := by rw [addStatFree_us, us₂]
  have control₃ : Control c (addStatFree r₂ (-BitVec.ofInt 32 num)).mem :=
    control₂.of_opSpan roomy (@addStatFree_changesOnly c .stats (fun _ => False) roomy r₂ us₂ _)
  rw [← (Prod.mk.inj result).2]
  simp only [made₁, made₂, slab_eq us₃ control₃]

/-- Bits below 8M are in the bitmap, which is in the first slab. -/
theorem bitSpan_opSpan (roomy : c.Roomy) {T : Nat → Prop} {start stop x : Nat}
    (below : stop ≤ usmmSlabBitmapSize)
    (span : BitSpan (c.base + usmmSlabBitmapOffset) start stop x) : OpSpan c .control T x := by
  have large := roomy.large
  obtain ⟨k, -, inside, rfl⟩ := span
  simp only [usmmSlabBitmapSize] at below
  refine .inl ?_
  simp only [usmmSlabBitmapOffset, Reach.stop]
  omega

theorem OpSpan.widen (roomy : c.Roomy) {T : Nat → Prop} {x : Nat} (span : OpSpan c .stats T x) :
    OpSpan c .control T x := by
  have stop := Reach.stop_le roomy .stats
  rcases span with first | rest
  · exact .inl ⟨first.1, by simp only [Reach.stop] at first stop ⊢; omega⟩
  · exact .inr rest

/-- **A window of slabs, taken**: marked, on no list, off the count of free slabs, and
its length in its first word. -/
structure Took (c : UsmmConf) (r r' : Region) (start num p : Nat) : Prop where
  first : 1 ≤ start
  some : 1 ≤ num
  bits : start + num ≤ usmmSlabBitmapSize
  ptr : p = c.slabAddr start + 4
  us : r'.us = c.base
  frame : ChangesOnly (OpSpan c .control (Window start num)) r.mem r'.mem
  marked : ∀ k < usmmSlabBitmapSize, bitmapTest r'.mem (c.base + usmmSlabBitmapOffset) k =
    (decide (Window start num k) || bitmapTest r.mem (c.base + usmmSlabBitmapOffset) k)
  placed : r'.lists.Placed
  moved : ∀ {h s}, s ∈ r'.lists h ↔ s ∈ r.lists h ∧ ∀ i, Window start num i → s ≠ c.slabAddr i
  length : (u32 r'.mem (c.slabAddr start)).toInt = num
  statFree : statFreeSlabs r'.mem c.base = statFreeSlabs r.mem c.base + -BitVec.ofInt 32 num

theorem heapTake_spec (roomy : c.Roomy) (inv : Inv c w) {start num p : Nat} {r' : Region}
    (some : 1 ≤ num) (small : num < 2 ^ 31) (first : 1 ≤ start)
    (bits : start + num ≤ usmmSlabBitmapSize)
    (result : heapTake w.region start num = (r', p)) : Took c w.region r' start num p := by
  have large := roomy.large
  have window : ∀ i, i ∈ List.range' start num ↔ Window start num i := fun i => List.mem_range'_1
  obtain ⟨r₁, made₁⟩ : ∃ r₁, (w.region.update fun m =>
      bitmapSetRange m (slabBitmap m w.region.us) start (start + num)) = r₁ := ⟨_, rfl⟩
  have us₁ : r₁.us = c.base := by rw [← made₁, update_us, inv.us]
  have lists₁ : r₁.lists = w.lists := by rw [← made₁, update_lists]
  have mem₁ : r₁.mem =
      bitmapSetRange w.mem (c.base + usmmSlabBitmapOffset) start (start + num) := by
    rw [← made₁, update_mem, inv.us, inv.control.bitmap]
  have frame₁ : ∀ {T}, ChangesOnly (OpSpan c .control T) w.mem r₁.mem := fun {T} => by
    rw [mem₁]
    exact (bitmapSetRange_changesOnly w.mem _ start (start + num)).mono fun x span =>
      bitSpan_opSpan roomy bits span
  have control₁ := inv.control.of_opSpan roomy (@frame₁ fun _ => False)
  have stat₁ : statFreeSlabs r₁.mem c.base = statFreeSlabs w.mem c.base := by
    rw [mem₁]
    refine statFreeSlabs_of_changesOnly (bitmapSetRange_changesOnly w.mem _ start (start + num))
      fun x span => ?_
    obtain ⟨k, -, -, rfl⟩ := span
    simp only [usmmSlabBitmapOffset]
    omega
  obtain ⟨r₂, made₂⟩ : ∃ r₂, (List.range' start num).foldl takeSlab r₁ = r₂ := ⟨_, rfl⟩
  obtain ⟨us₂, control₂, frame₂, lists₂, stat₂⟩ := takeSlabs_spec roomy
    (fun i member => first.trans ((window i).mp member).1) us₁ control₁ made₂
  obtain ⟨r₃, made₃⟩ : ∃ r₃, addStatFree r₂ (-BitVec.ofInt 32 num) = r₃ := ⟨_, rfl⟩
  have us₃ : r₃.us = c.base := by rw [← made₃, addStatFree_us, us₂]
  have lists₃ : r₃.lists = r₂.lists := by rw [← made₃, addStatFree_lists]
  have frame₃ : ∀ {T}, ChangesOnly (OpSpan c .stats T) r₂.mem r₃.mem := fun {T} =>
    made₃ ▸ addStatFree_changesOnly roomy r₂ us₂ _
  have control₃ := control₂.of_opSpan roomy (@frame₃ fun _ => False)
  have stat₃ : statFreeSlabs r₃.mem c.base = statFreeSlabs w.mem c.base + -BitVec.ofInt 32 num := by
    rw [← made₃, statFreeSlabs_addStatFree us₂, stat₂, stat₁]
  have unfolded : heapTake w.region start num =
      (r₃.update fun m => setU32 m (c.slabAddr start) (BitVec.ofInt 32 num),
        c.slabAddr start + 4) := by
    have stop : ((start : Int) + num).toNat = start + num := by omega
    rw [heapTake]
    simp only [stop, Nat.add_sub_cancel_left, made₁, made₂, made₃, slab_eq us₃ control₃]
  rw [unfolded, Prod.mk.injEq] at result
  obtain ⟨rfl, rfl⟩ := result
  have frame₄ : ChangesOnly (OpSpan c .stats (Window start num)) r₃.mem
      (setU32 r₃.mem (c.slabAddr start) (BitVec.ofInt 32 num)) := by
    refine (setU32_changesOnly _ _ _).mono fun x span => .inr ⟨start, ⟨le_rfl, by omega⟩, first, ?_⟩
    simp only [Span] at span ⊢
    omega
  have frame₂' : ChangesOnly (OpSpan c .stats (Window start num)) r₁.mem r₂.mem := by
    refine frame₂.mono fun x span => ?_
    rcases span with inside | ⟨j, member, rest⟩
    · exact .inl inside
    · exact .inr ⟨j, (window j).mp member, rest⟩
  have rest := frame₂'.trans (frame₃.trans frame₄)
  refine ⟨first, some, bits, rfl, ?_, ?_, fun k bound => ?_, ?_, fun {h s} => ?_, ?_, ?_⟩
  · rw [update_us, us₃]
  · rw [update_mem]
    exact frame₁.trans (rest.mono fun x span => span.widen roomy)
  · rw [update_mem, bits_of_opSpan roomy rest bound, mem₁, bitmapTest_bitmapSetRange]
    rfl
  · rw [update_lists, lists₃, lists₂, lists₁]
    exact inv.placed.delAll _
  · rw [update_lists, lists₃, lists₂, lists₁, Queues.mem_delAll inv.placed]
    refine and_congr_right fun _ => ?_
    simp only [List.mem_map, window, not_exists, not_and]
    exact ⟨fun apart i inside same => apart i inside same.symm,
      fun apart i inside same => apart i inside same.symm⟩
  · rw [update_mem, u32_setU32, BitVec.toInt_ofInt, Int.bmod_eq_of_le] <;> omega
  · rw [update_mem, ← stat₃]
    refine statFreeSlabs_of_changesOnly (setU32_changesOnly _ _ _) fun x span => ?_
    have above := c.slabAddr_ge first
    simp only [Span] at span
    omega

/-- What the search answers a heap request of this size. -/
def heapAnswer (c : UsmmConf) (m : Mem) (size : BitVec 64) : Int :=
  searchRange m (c.base + usmmSlabBitmapOffset) (heapNum size c.slab) c.slabCount

/-- A request for slabs is answered where the search picks, -/
theorem heapAnswer_eq_iff {m : Mem} {size : BitVec 64} {num start : Nat}
    (same : heapNum size c.slab = num) (some : 1 ≤ num) :
    heapAnswer c m size = start ↔
      Picks m (c.base + usmmSlabBitmapOffset) num c.slabCount start := by
  rw [heapAnswer, same]
  exact searchRange_eq_iff some

/-- and refused when there is nothing to pick. -/
theorem heapAnswer_neg_iff {m : Mem} {size : BitVec 64} : heapAnswer c m size < 0 ↔
    if 1 ≤ heapNum size c.slab then ∀ s,
      ¬ Passes m (c.base + usmmSlabBitmapOffset) (heapNum size c.slab).toNat c.slabCount s
    else heapNum size c.slab ≤ -8 ∨
      ∀ i < c.slabCount / 8, m (c.base + usmmSlabBitmapOffset + i) = maxDw := by
  by_cases some : 1 ≤ heapNum size c.slab
  · rw [if_pos some]
    obtain ⟨num, same⟩ : ∃ num : Nat, heapNum size c.slab = num :=
      ⟨(heapNum size c.slab).toNat, by omega⟩
    rw [same, Int.toNat_natCast]
    constructor
    · intro refused s passes
      obtain ⟨t, picks⟩ := exists_picks passes
      rw [(heapAnswer_eq_iff same (by omega)).mpr picks] at refused
      omega
    · intro never
      rw [heapAnswer, same, searchRange_of_none never]
      decide
  · rw [if_neg some, heapAnswer, searchRange_nonpos (by omega)]
    have turns : ((c.slabCount : Int).tdiv 8).toNat = c.slabCount / 8 := by
      rw [Int.tdiv_eq_ediv_of_nonneg (by omega)]
      omega
    rw [turns]

theorem usmmHeapAlloc_eq (roomy : c.Roomy) {r : Region} (us : r.us = c.base)
    (control : Control c r.mem) (b : Build) (size : BitVec 64) :
    usmmHeapAlloc b r size =
      (assert b (decide (1 < heapNum size c.slab)) .rangeGtOne).bind fun _ =>
        if heapAnswer c r.mem size < 0 then .ok (r, 0)
        else .ok (heapTake r (heapAnswer c r.mem size).toNat (heapNum size c.slab)) := by
  have max : intOfSize (c.length / c.slab) = c.slabCount := intOfSize_of_lt roomy.counted
  simp only [usmmHeapAlloc, us, control.slab, control.length, control.bitmap, max,
    bitmapFindRange, heapAnswer, bind, pure, Except.pure]
  cases assert b (decide (heapNum size c.slab > 1)) .rangeGtOne with
  | error which => rfl
  | ok _ => rfl

/-- A request that passes its assertion and is answered. -/
theorem usmmHeapAlloc_answered (roomy : c.Roomy) {r : Region} (us : r.us = c.base)
    (control : Control c r.mem) {b : Build} {size : BitVec 64}
    (passed : assert b (decide (1 < heapNum size c.slab)) .rangeGtOne = .ok ())
    {start : Nat} (answer : heapAnswer c r.mem size = start) :
    usmmHeapAlloc b r size = .ok (heapTake r start (heapNum size c.slab)) := by
  rw [usmmHeapAlloc_eq roomy us control, passed, Except.bind, answer, if_neg (by omega),
    Int.toNat_natCast]

/-- The two outcomes of a heap request that does not fail its assertion. -/
theorem usmmHeapAlloc_cases (roomy : c.Roomy) {r r' : Region} (us : r.us = c.base)
    (control : Control c r.mem) {b : Build} {size : BitVec 64} {p : Nat}
    (result : usmmHeapAlloc b r size = .ok (r', p)) :
    heapAnswer c r.mem size < 0 ∧ r' = r ∧ p = 0 ∨
      0 ≤ heapAnswer c r.mem size ∧
        heapTake r (heapAnswer c r.mem size).toNat (heapNum size c.slab) = (r', p) := by
  rw [usmmHeapAlloc_eq roomy us control] at result
  cases asserted : assert b (decide (1 < heapNum size c.slab)) .rangeGtOne with
  | error which =>
      rw [asserted] at result
      cases result
  | ok _ =>
      rw [asserted, Except.bind] at result
      split at result
      · rename_i refused
        rw [Except.ok.injEq, Prod.mk.injEq] at result
        exact .inl ⟨refused, result.1.symm, result.2.symm⟩
      · rename_i answered
        exact .inr ⟨by omega, Except.ok.inj result⟩

/-- A heeding request that is answered takes a window of free slabs. -/
theorem HeapHeeds.window {size : BitVec 64} (heeds : HeapHeeds c w size)
    (answered : 0 ≤ heapAnswer c w.mem size) : ∃ start num : Nat,
      heapAnswer c w.mem size = start ∧ heapNum size c.slab = num ∧ 1 ≤ num ∧ num < 2 ^ 31 ∧
      start + num ≤ usmmSlabBitmapSize ∧
      ∀ i, Window start num i → c.slabAddr i ∈ w.lists .free := by
  have bound := heapNum_lt size c.slab
  rw [HeapHeeds] at heeds
  by_cases some : 1 ≤ heapNum size c.slab
  · rw [if_pos some] at heeds
    obtain ⟨num, same⟩ : ∃ num : Nat, heapNum size c.slab = num :=
      ⟨(heapNum size c.slab).toNat, by omega⟩
    obtain ⟨start, answer⟩ : ∃ start : Nat, heapAnswer c w.mem size = start :=
      ⟨(heapAnswer c w.mem size).toNat, by omega⟩
    rw [same, Int.toNat_natCast] at heeds
    have picked := heeds start ((heapAnswer_eq_iff same (by omega)).mp answer)
    have last := (picked (start + num - 1) (by omega) (by omega)).2
    exact ⟨start, num, answer, same, by omega, by omega, by omega,
      fun i inside => (picked i inside.1 inside.2).1⟩
  · rw [if_neg some] at heeds
    have refused : heapAnswer c w.mem size < 0 := heapAnswer_neg_iff.mpr (by rwa [if_neg some])
    omega

/-- A heeding request is refused, or takes a window of free slabs. -/
theorem usmmHeapAlloc_spec (roomy : c.Roomy) (inv : Inv c w) {b : Build} {size : BitVec 64}
    (heeds : HeapHeeds c w size) {r' : Region} {p : Nat}
    (result : usmmHeapAlloc b w.region size = .ok (r', p)) :
    r' = w.region ∧ p = 0 ∨ ∃ start num : Nat, heapNum size c.slab = num ∧
      start + num ≤ c.slabCount ∧ (∀ i, Window start num i → c.slabAddr i ∈ w.lists .free) ∧
      Took c w.region r' start num p := by
  have large := roomy.large
  rcases usmmHeapAlloc_cases roomy inv.us inv.control result with ⟨-, rfl, rfl⟩ | ⟨answered, took⟩
  · exact .inl ⟨rfl, rfl⟩
  obtain ⟨start, num, answer, same, some, small, bits, free⟩ := heeds.window answered
  rw [answer, same, Int.toNat_natCast] at took
  -- the window lies among the slabs
  have index : ∀ i, Window start num i → 1 ≤ i ∧ i < c.slabCount := by
    intro i inside
    obtain ⟨j, positive, below, same⟩ := inv.slabs (free i inside)
    obtain rfl := c.slabAddr_injective (by omega) same
    exact ⟨positive, below⟩
  have last := (index (start + num - 1) ⟨by omega, by omega⟩).2
  exact .inr ⟨start, num, same, by omega, free,
    heapTake_spec roomy inv some small (index start ⟨le_rfl, by omega⟩).1 bits took⟩

/-- A request for slabs takes the window the search picks. -/
theorem Inv.takes_window (inv : Inv c w) (roomy : c.Roomy) (b : Build) {size : BitVec 64}
    {start num : Nat} (same : heapNum size c.slab = num) (two : 2 ≤ num)
    (picks : Picks w.mem (c.base + usmmSlabBitmapOffset) num c.slabCount start) (first : 1 ≤ start)
    (bits : start + num ≤ usmmSlabBitmapSize) :
    ∃ r₁ p, usmmHeapAlloc b w.region size = .ok (r₁, p) ∧ Took c w.region r₁ start num p := by
  have answer := (heapAnswer_eq_iff same (by omega)).mpr picks
  have range : decide (1 < heapNum size c.slab) = true := decide_eq_true (by omega)
  have bound := heapNum_lt size c.slab
  obtain ⟨⟨r₁, p⟩, taken⟩ : ∃ t, heapTake w.region start num = t := ⟨_, rfl⟩
  refine ⟨r₁, p, ?_, heapTake_spec roomy inv (by omega) (by omega) first bits taken⟩
  rw [usmmHeapAlloc_answered roomy inv.us inv.control (by rw [range, assert_true]) answer, same,
    taken]

/-- The piece a client holds after it was given a window. -/
theorem blockFirst_of_start (roomy : c.Roomy) (start : Nat) (size : BitVec 64) :
    blockFirst c ⟨c.slabAddr start + 4, size⟩ = start := by
  have large := roomy.large
  rw [blockFirst, UsmmConf.slabAddr, Nat.add_sub_cancel, Nat.add_sub_cancel_left,
    Nat.mul_div_cancel _ (by omega)]

theorem owns_of_start (roomy : c.Roomy) {start num i : Nat} {size : BitVec 64}
    (same : heapNum size c.slab = num) :
    Owns c ⟨c.slabAddr start + 4, size⟩ i ↔ Window start num i := by
  rw [Owns, blockFirst_of_start roomy, blockNum, same, Int.toNat_natCast, Window]

theorem Took.blockOk {r r' : Region} {start num p : Nat} (took : Took c r r' start num p)
    (roomy : c.Roomy) {size : BitVec 64} (same : heapNum size c.slab = num)
    (last : start + num ≤ c.slabCount) : BlockOk c r'.mem r'.lists ⟨p, size⟩ := by
  obtain rfl := took.ptr
  have first := blockFirst_of_start roomy start size
  have count : blockNum c ⟨c.slabAddr start + 4, size⟩ = num := by
    rw [blockNum, same, Int.toNat_natCast]
  refine ⟨by rw [first], by rw [first]; exact took.first, by rw [count]; exact took.some,
    by rw [first, count]; exact last, by rw [first, count]; exact took.bits,
    by rw [first, count]; exact took.length, fun i owned h member => ?_⟩
  exact (took.moved.mp member).2 i ((owns_of_start roomy same).mp owned) rfl

theorem usmmHeapAlloc_inv (roomy : c.Roomy) (inv : Inv c w) {b : Build} {size : BitVec 64}
    (heeds : HeapHeeds c w size) {r' : Region} {p : Nat}
    (result : usmmHeapAlloc b w.region size = .ok (r', p)) :
    Inv c { w with region := r', blocks := hold w.blocks p size } := by
  have large := roomy.large
  rcases usmmHeapAlloc_spec roomy inv heeds result with
    ⟨rfl, rfl⟩ | ⟨start, num, same, last, free, took⟩
  · exact inv
  have ok := took.blockOk roomy same last
  obtain ⟨first, some, bits, rfl, us, changes, marked, placed, moved, length, -⟩ := took
  have nonzero : c.slabAddr start + 4 ≠ 0 := by omega
  rw [hold, if_neg nonzero]
  have owns : ∀ i, Owns c ⟨c.slabAddr start + 4, size⟩ i ↔ Window start num i := fun i =>
    owns_of_start roomy same
  have distinct : ∀ {i j}, c.slabAddr i = c.slabAddr j → i = j :=
    c.slabAddr_injective (by omega)
  have others : ∀ i, ¬ Window start num i → ∀ h,
      c.slabAddr i ∈ r'.lists h ↔ c.slabAddr i ∈ w.lists h := fun i outside h => by
    rw [moved]
    exact ⟨And.left, fun old => ⟨old, fun j inside same => outside (distinct same ▸ inside)⟩⟩
  have gone : ∀ i, Window start num i → ∀ h, c.slabAddr i ∉ r'.lists h :=
    fun i inside h member => (moved.mp member).2 i inside rfl
  refine inv.update roomy us changes (fun k bound => ?_) placed
    (fun member => inv.slabs (moved.mp member).1) others (fun _ _ => rfl)
    (fun i inside _ _ h member => absurd member (gone i inside h))
    (fun x held => .inr ⟨held, fun i inside within => ?_⟩) (fun x member => ?_) ?_
    fun i positive below => ?_
  · show bitmapTest r'.mem _ k = true ↔ _
    rw [marked k bound, Bool.or_eq_true, decide_eq_true_iff, inv.bits k bound]
    rw [List.exists_mem_cons_iff, owns]
    exact or_left_comm.trans (or_congr_right or_left_comm)
  · -- a free slab holds no live slice
    have live := mem_livePtrs.mpr ⟨within, x, held, rfl⟩
    rw [(inv.ok (free i inside)).2] at live
    exact absurd live List.not_mem_nil
  · rcases List.mem_cons.mp member with rfl | old
    · exact .inl ok
    · exact .inr ⟨old, fun i owned inside =>
        (inv.blocks x old).unlisted i owned .free (free i inside)⟩
  · refine List.pairwise_cons.mpr ⟨fun y old i owned owned' => ?_, inv.apart⟩
    exact (inv.blocks y old).unlisted i owned' .free (free i ((owns i).mp owned))
  · by_cases inside : Window start num i
    · exact .inr ⟨_, List.mem_cons_self, (owns i).mpr inside⟩
    · rcases inv.cover i positive below with ⟨h, old⟩ | ⟨x, old, owned⟩
      · exact .inl ⟨h, (others i inside h).mpr old⟩
      · exact .inr ⟨x, List.mem_cons_of_mem _ old, owned⟩

/-! ## usmm_heap_free -/

/-- One turn: the slab is set up again, goes to `free_slabs` and loses its bit. -/
theorem giveSlab_spec (roomy : c.Roomy) {r r' : Region} {i p : Nat} (positive : 1 ≤ i)
    (bits : i < usmmSlabBitmapSize) (us : r.us = c.base) (control : Control c r.mem)
    (result : giveSlab (r, c.slabAddr i) i = (r', p)) :
    p = c.slabAddr (i + 1) ∧ r'.us = c.base ∧
      ChangesOnly (OpSpan c .control (· = i)) r.mem r'.mem ∧
      (∀ k < usmmSlabBitmapSize, bitmapTest r'.mem (c.base + usmmSlabBitmapOffset) k =
        (!decide (k = i) && bitmapTest r.mem (c.base + usmmSlabBitmapOffset) k)) ∧
      r'.lists = r.lists.push .free (c.slabAddr i) ∧
      slabAt r'.mem (c.slabAddr i) = .unformatted ∧
      statFreeSlabs r'.mem c.base = statFreeSlabs r.mem c.base := by
  have large := roomy.large
  have frame₁ : ChangesOnly (OpSpan c .stats (· = i)) r.mem (usmmSlabInit r.mem (c.slabAddr i)) :=
    (usmmSlabInit_changesOnly r.mem _).mono fun x span =>
      slab_opSpan positive le_rfl (by simp only [slabHeaderSize]; omega) span
  have control₁ := control.of_opSpan roomy frame₁
  have frame₂ : ∀ {T}, ChangesOnly (OpSpan c .control T) (usmmSlabInit r.mem (c.slabAddr i))
      (bitmapClr (usmmSlabInit r.mem (c.slabAddr i)) (c.base + usmmSlabBitmapOffset) i) :=
    fun {T} => (bitmapClr_changesOnly _ _ _).mono fun x span => by
      simp only [usmmSlabBitmapSize] at bits
      simp only [Span, usmmSlabBitmapOffset] at span
      exact .inl ⟨by omega, by simp only [Reach.stop]; omega⟩
  have made : r' = ((r.update fun m => usmmSlabInit m (c.slabAddr i)).listAdd
      (c.slabAddr i) .free).update fun m => bitmapClr m (c.base + usmmSlabBitmapOffset) i := by
    rw [← (Prod.mk.inj result).1]
    simp only [Region.update, Region.listAdd, us, control₁.bitmap]
  have mem : r'.mem = bitmapClr (usmmSlabInit r.mem (c.slabAddr i))
      (c.base + usmmSlabBitmapOffset) i := by
    rw [made, update_mem, listAdd_mem, update_mem]
  have us' : r'.us = c.base := by rw [made, update_us, listAdd_us, update_us, us]
  have control' : Control c r'.mem := by
    rw [mem]
    exact control₁.of_opSpan roomy (@frame₂ fun _ => False)
  refine ⟨?_, us', ?_, fun k bound => ?_, ?_, ?_, ?_⟩
  · rw [c.slabAddr_succ, ← slabSize_eq us' control', ← (Prod.mk.inj result).1]
    exact (Prod.mk.inj result).2.symm
  · rw [mem]
    exact (frame₁.mono fun x span => span.widen roomy).trans frame₂
  · rw [mem, bitmapTest_bitmapClr, bits_of_opSpan roomy frame₁ bound]
  · rw [made, update_lists, listAdd_lists, update_lists]
  · rw [mem, slabAt_of_opSpan roomy (@frame₂ fun _ => False) positive id]
    exact slabAt_usmmSlabInit r.mem _
  · have above := c.slabAddr_ge positive
    have init := statFreeSlabs_of_changesOnly (c := c)
      (usmmSlabInit_changesOnly r.mem (c.slabAddr i)) fun x span => by
        simp only [Span] at span
        omega
    rw [mem, ← init]
    refine statFreeSlabs_of_changesOnly (bitmapClr_changesOnly _ _ i) fun x span => ?_
    simp only [Span, usmmSlabBitmapOffset] at span
    omega

/-- After the loop the window is on `free_slabs`, and its slabs have no format. -/
theorem giveSlabs_spec (roomy : c.Roomy) {num start p : Nat} {r r' : Region} (positive : 1 ≤ start)
    (bits : start + num ≤ usmmSlabBitmapSize) (us : r.us = c.base) (control : Control c r.mem)
    (placed : r.lists.Placed) (unlisted : ∀ i, Window start num i → ∀ h, c.slabAddr i ∉ r.lists h)
    (result : (List.range' start num).foldl giveSlab (r, c.slabAddr start) = (r', p)) :
    r'.us = c.base ∧ ChangesOnly (OpSpan c .control (Window start num)) r.mem r'.mem ∧
      (∀ k < usmmSlabBitmapSize, bitmapTest r'.mem (c.base + usmmSlabBitmapOffset) k =
        (!decide (Window start num k) && bitmapTest r.mem (c.base + usmmSlabBitmapOffset) k)) ∧
      r'.lists.Placed ∧
      (∀ {h s}, s ∈ r'.lists h ↔
        s ∈ r.lists h ∨ h = .free ∧ ∃ i, Window start num i ∧ s = c.slabAddr i) ∧
      (∀ i, Window start num i → slabAt r'.mem (c.slabAddr i) = .unformatted) ∧
      statFreeSlabs r'.mem c.base = statFreeSlabs r.mem c.base := by
  have large := roomy.large
  induction num generalizing start r with
  | zero =>
      obtain ⟨rfl, -⟩ := Prod.mk.inj result
      have empty : ∀ i, ¬ Window start 0 i := fun i inside => by
        have := inside.1
        have := inside.2
        omega
      refine ⟨us, .refl _ _, fun k _ => ?_, placed, fun {h s} => ⟨.inl, fun
        | .inl old => old
        | .inr ⟨_, i, inside, _⟩ => absurd inside (empty i)⟩, fun i inside => absurd inside (empty i),
        rfl⟩
      rw [decide_eq_false (empty k), Bool.not_false, Bool.true_and]
  | succ num ih =>
      have split : ∀ i, Window start (num + 1) i ↔ i = start ∨ Window (start + 1) num i :=
        fun i => by simp only [Window]; omega
      rw [List.range'_succ, List.foldl_cons] at result
      obtain ⟨⟨r₁, p₁⟩, made⟩ : ∃ t, giveSlab (r, c.slabAddr start) start = t := ⟨_, rfl⟩
      obtain ⟨rfl, us₁, frame₁, bits₁, lists₁, format₁, stat₁⟩ :=
        giveSlab_spec roomy positive (by omega) us control made
      rw [made] at result
      have control₁ := control.of_opSpan roomy frame₁
      have placed₁ : r₁.lists.Placed := by
        rw [lists₁]
        exact placed.push _ (unlisted start ((split start).mpr (.inl rfl)))
      have unlisted₁ : ∀ i, Window (start + 1) num i → ∀ h, c.slabAddr i ∉ r₁.lists h := by
        intro i inside h member
        rw [lists₁] at member
        rcases Queues.mem_push.mp member with ⟨same, -⟩ | old
        · have := c.slabAddr_injective (by omega) same
          have := inside.1
          omega
        · exact unlisted i ((split i).mpr (.inr inside)) h old
      obtain ⟨us', frame', bits', placed', moved, format', stat'⟩ :=
        ih (by omega) (by omega) us₁ control₁ placed₁ unlisted₁ result
      refine ⟨us', ?_, fun k bound => ?_, placed', fun {h s} => ?_, fun i inside => ?_,
        stat'.trans stat₁⟩
      · refine (frame₁.mono fun x span => ?_).trans (frame'.mono fun x span => ?_)
        · rcases span with first | ⟨i, same, rest⟩
          · exact .inl first
          · exact .inr ⟨i, (split i).mpr (.inl same), rest⟩
        · rcases span with first | ⟨i, inside, rest⟩
          · exact .inl first
          · exact .inr ⟨i, (split i).mpr (.inr inside), rest⟩
      · rw [bits' k bound, bits₁ k bound, ← Bool.and_assoc, Bool.and_comm (!_), ← Bool.not_or,
          ← Bool.decide_or, decide_eq_decide.mpr (split k)]
      · rw [moved, lists₁, Queues.mem_push]
        constructor
        · rintro ((⟨rfl, rfl⟩ | old) | ⟨rfl, i, inside, rfl⟩)
          · exact .inr ⟨rfl, start, (split start).mpr (.inl rfl), rfl⟩
          · exact .inl old
          · exact .inr ⟨rfl, i, (split i).mpr (.inr inside), rfl⟩
        · rintro (old | ⟨rfl, i, inside, rfl⟩)
          · exact .inl (.inr old)
          · rcases (split i).mp inside with rfl | rest
            · exact .inl (.inl ⟨rfl, rfl⟩)
            · exact .inr ⟨rfl, i, rest, rfl⟩
      · rcases (split i).mp inside with rfl | rest
        · -- the rest of the loop is about other slabs
          have other : ¬ Window (i + 1) num i := fun within => by
            have := within.1
            omega
          rw [slabAt_of_opSpan roomy frame' positive other]
          exact format₁
        · exact format' i rest

/-- A slab of a heap block holds no live slice. -/
theorem Inv.block_no_slice (inv : Inv c w) {x y : Piece} (block : x ∈ w.blocks)
    (slice : y ∈ w.slices) {i : Nat} (owns : Owns c x i) : ¬ InSlab c (c.slabAddr i) y.ptr := by
  intro inside
  obtain ⟨j, h, -, -, -, listed, within, -⟩ := inv.slices y slice
  obtain rfl := inside.unique within
  exact (inv.blocks x block).unlisted i owns h listed

theorem usmmHeapFree_eq (roomy : c.Roomy) {r : Region} {x : Piece} (us : r.us = c.base)
    (control : Control c r.mem) {lists : Queues Head Nat} (ok : BlockOk c r.mem lists x) :
    usmmHeapFree r x.ptr = addStatFree
      ((List.range' (blockFirst c x) (blockNum c x)).foldl giveSlab
        (r, c.slabAddr (blockFirst c x))).1 (BitVec.ofInt 32 (blockNum c x)) := by
  have large := roomy.large
  have word : x.ptr - 4 = c.slabAddr (blockFirst c x) := by
    have := ok.ptr
    omega
  have index : (c.slabAddr (blockFirst c x) - r.us) / r.slabSize = blockFirst c x := by
    rw [slabSize_eq us control, us, ← word]
    rfl
  simp only [usmmHeapFree, index, word, ok.length, Int.toNat_natCast]

/-- **A heap release**: the slabs of block `x` are on `free_slabs` without a format,
unmarked and counted. -/
structure GaveBack (c : UsmmConf) (r r' : Region) (x : Piece) : Prop where
  us : r'.us = c.base
  frame : ChangesOnly (OpSpan c .control (Owns c x)) r.mem r'.mem
  cleared : ∀ k < usmmSlabBitmapSize, bitmapTest r'.mem (c.base + usmmSlabBitmapOffset) k =
    (!decide (Window (blockFirst c x) (blockNum c x) k) &&
      bitmapTest r.mem (c.base + usmmSlabBitmapOffset) k)
  placed : r'.lists.Placed
  moved : ∀ {h s}, s ∈ r'.lists h ↔
    s ∈ r.lists h ∨ h = .free ∧ ∃ i, Owns c x i ∧ s = c.slabAddr i
  blank : ∀ i, Owns c x i → slabAt r'.mem (c.slabAddr i) = .unformatted
  statFree : statFreeSlabs r'.mem c.base =
    statFreeSlabs r.mem c.base + BitVec.ofInt 32 (blockNum c x)

theorem usmmHeapFree_spec (roomy : c.Roomy) {r : Region} {x : Piece} (us : r.us = c.base)
    (control : Control c r.mem) (placed : r.lists.Placed) (ok : BlockOk c r.mem r.lists x) :
    GaveBack c r (usmmHeapFree r x.ptr) x := by
  obtain ⟨⟨r₁, p⟩, made⟩ : ∃ t, (List.range' (blockFirst c x) (blockNum c x)).foldl giveSlab
      (r, c.slabAddr (blockFirst c x)) = t := ⟨_, rfl⟩
  obtain ⟨us₁, frame, cleared, placed₁, moved, blank, stat⟩ :=
    giveSlabs_spec roomy ok.first ok.bits us control placed ok.unlisted made
  obtain ⟨r', freed⟩ : ∃ r', usmmHeapFree r x.ptr = r' := ⟨_, rfl⟩
  have final : r' = addStatFree r₁ (BitVec.ofInt 32 (blockNum c x)) := by
    rw [← freed, usmmHeapFree_eq roomy us control ok, made]
  have counter : ∀ {T}, ChangesOnly (OpSpan c .stats T) r₁.mem r'.mem := fun {T} =>
    final ▸ addStatFree_changesOnly roomy r₁ us₁ _
  rw [freed]
  refine ⟨?_, frame.trans (counter.mono fun x span => span.widen roomy), fun k bound => ?_, ?_,
    fun {h s} => ?_, fun i owns => ?_, ?_⟩
  · rw [final, addStatFree_us, us₁]
  · rw [bits_of_opSpan roomy (@counter fun _ => False) bound, cleared k bound]
  · rw [final, addStatFree_lists]
    exact placed₁
  · rw [final, addStatFree_lists]
    exact moved
  · rw [slabAt_of_opSpan roomy (@counter fun _ => False) (ok.first.trans owns.1) id]
    exact blank i owns
  · rw [final, statFreeSlabs_addStatFree us₁, stat]

/-- A live block is given back, and the invariant holds afterwards. -/
theorem usmmHeapFree_inv (roomy : c.Roomy) (inv : Inv c w) {ptr : Nat}
    (held : ∃ x ∈ w.blocks, x.ptr = ptr) :
    Inv c { w with region := usmmHeapFree w.region ptr, blocks := drop w.blocks ptr } := by
  have large := roomy.large
  obtain ⟨x, before, after, -, same, blocks, dropped⟩ :
      ∃ x before after, (∀ y ∈ before, ¬ (y.ptr == ptr) = true) ∧ (x.ptr == ptr) = true ∧
        w.blocks = before ++ x :: after ∧ drop w.blocks ptr = before ++ after := by
    obtain ⟨x, member, same⟩ := held
    exact List.exists_of_eraseP member (beq_iff_eq.mpr same)
  obtain rfl := beq_iff_eq.mp same
  have member : x ∈ w.blocks := by simp [blocks]
  have ok := inv.blocks x member
  have back := usmmHeapFree_spec roomy inv.us inv.control inv.placed ok
  obtain ⟨r', freed⟩ : ∃ r', usmmHeapFree w.region x.ptr = r' := ⟨_, rfl⟩
  rw [freed] at back
  rw [freed, dropped]
  clear freed
  obtain ⟨us', frame, cleared, placed', moved', format, -⟩ := back
  have distinct : ∀ {i j}, c.slabAddr i = c.slabAddr j → i = j :=
    c.slabAddr_injective (by omega)
  have rest : ∀ y, y ∈ before ++ after → y ∈ w.blocks := fun y member => by
    rw [blocks, List.mem_append, List.mem_cons]
    rcases List.mem_append.mp member with left | right
    · exact .inl left
    · exact .inr (.inr right)
  have apart := inv.apart
  rw [blocks, List.pairwise_append] at apart
  obtain ⟨apartBefore, apartAfter, across⟩ := apart
  rw [List.pairwise_cons] at apartAfter
  have apart' : ∀ y, y ∈ before ++ after → ∀ i, Owns c x i → ¬ Owns c y i := by
    intro y kept i owns owned
    rcases List.mem_append.mp kept with left | right
    · exact across y left x List.mem_cons_self i owned owns
    · exact apartAfter.1 y right i owns owned
  have others : ∀ y, y ∈ w.blocks → y = x ∨ y ∈ before ++ after := by
    intro y block
    rw [blocks, List.mem_append, List.mem_cons] at block
    rcases block with left | same | right
    · exact .inr (List.mem_append_left _ left)
    · exact .inl same
    · exact .inr (List.mem_append_right _ right)
  refine inv.update roomy us' frame (fun k bound => ?_) placed' (fun {h s} listed => ?_) (fun i outside h => ?_) (fun _ _ => rfl) (fun i owns positive _ {h} listed => ?_)
    (fun y slice => .inr ⟨slice, fun i owns => inv.block_no_slice member slice owns⟩)
    (fun y kept => .inr ⟨rest y kept, fun i owned owns => apart' y kept i owns owned⟩) ?_
    (fun i positive below => ?_)
  · show bitmapTest r'.mem _ k = true ↔ _
    rw [cleared k bound, Bool.and_eq_true, Bool.not_eq_true', decide_eq_false_iff_not,
      inv.bits k bound]
    constructor
    · rintro ⟨outside, zero | beyond | ⟨y, block, owned⟩⟩
      · exact .inl zero
      · exact .inr (.inl beyond)
      · rcases others y block with rfl | kept
        · exact absurd owned outside
        · exact .inr (.inr ⟨y, kept, owned⟩)
    · have first := ok.first
      have last := ok.last
      rintro (rfl | beyond | ⟨y, kept, owned⟩)
      · exact ⟨fun owns => by have := owns.1; omega, .inl rfl⟩
      · exact ⟨fun owns => by have := owns.2; omega, .inr (.inl beyond)⟩
      · exact ⟨fun owns => apart' y kept k owns owned, .inr (.inr ⟨y, rest y kept, owned⟩)⟩
  · rcases moved'.mp listed with old | ⟨-, i, owns, rfl⟩
    · exact inv.slabs old
    · have first := ok.first
      have last := ok.last
      exact ⟨i, by have := owns.1; omega, by have := owns.2; omega, rfl⟩
  · rw [moved']
    constructor
    · rintro (old | ⟨-, j, owns, same⟩)
      · exact old
      · exact absurd (distinct same ▸ owns) outside
    · exact .inl
  · rcases moved'.mp listed with old | ⟨rfl, -⟩
    · exact absurd old (ok.unlisted i owns h)
    · refine ⟨format i owns, List.eq_nil_iff_forall_not_mem.mpr fun q live => ?_⟩
      · obtain ⟨inside, y, slice, rfl⟩ := mem_livePtrs.mp live
        exact inv.block_no_slice member slice owns inside
  · exact List.pairwise_append.mpr ⟨apartBefore, apartAfter.2, fun y left z right =>
      across y left z (List.mem_cons_of_mem _ right)⟩
  · by_cases owns : Owns c x i
    · exact .inl ⟨.free, moved'.mpr (.inr ⟨rfl, i, owns, rfl⟩)⟩
    · rcases inv.cover i positive below with ⟨h, old⟩ | ⟨y, block, owned⟩
      · exact .inl ⟨h, moved'.mpr (.inl old)⟩
      · rcases others y block with rfl | kept
        · exact absurd owned owns
        · exact .inr ⟨y, kept, owned⟩

end Itaro.Usmm
