/-
# Usmm.LinkedSteps -- the lists in memory do what the sequences do

In a state of the invariant a call on the memory with its lists inside gives the same
answer as the call on the region, and leaves a memory that holds the region afterwards:
one lemma per operation, in the order of the calls (`Rep.usmmSliceAlloc`,
`Rep.usmmSliceFree`, `Rep.usmmHeapAlloc`, `Rep.usmmHeapFree`, `Rep.setSlot`).

The search of `usmm_heap_alloc` may run past the bitmap when it has no bit to spare
behind the last slab, so the number of slabs is bounded here (`Mapped`).
-/
import Itaro.Usmm.LinkedLists

namespace Itaro.Usmm.Linked

set_option autoImplicit false

open Theory

variable {c : UsmmConf}

/-- Behind the bits of the slabs the bitmap has eight to spare. -/
def Mapped (c : UsmmConf) : Prop := c.slabCount + 8 ≤ usmmSlabBitmapSize

/-! ## Links that list_del can follow -/

/-- Slab `s` is on no list and its node leads to itself, as after `INIT_LIST_HEAD`. -/
structure Alone (r : Region) (s : Nat) : Prop where
  unlisted : ∀ h, s ∉ r.lists h
  next : (u64 r.mem (node s)).toNat = node s
  prev : (u64 r.mem (node s + 8)).toNat = node s

/-- `list_del` on slab `s` does to the memory what the region's does to its lists. -/
def SoundLinks (r : Region) (s : Nat) : Prop := (∃ h, s ∈ r.lists h) ∨ Alone r s

section SoundLinks

variable {r r' : Region} {s : Nat} {F : Nat → Prop}

theorem Alone.of_changesOnly (alone : Alone r s) (unlisted : ∀ h, s ∉ r'.lists h)
    (changes : ChangesOnly F r.mem r'.mem) (misses : ∀ x, Span (node s) 16 x → ¬ F x) : Alone r' s where
  unlisted := unlisted
  next := by
    rw [changes.u64 fun x lower upper => misses x ⟨lower, by omega⟩]
    exact alone.next
  prev := by
    rw [changes.u64 fun x lower upper => misses x ⟨by omega, by omega⟩]
    exact alone.prev

theorem SoundLinks.of_changesOnly (sound : SoundLinks r s) (lists : r'.lists = r.lists)
    (changes : ChangesOnly F r.mem r'.mem) (misses : ∀ x, Span (node s) 16 x → ¬ F x) : SoundLinks r' s := by
  rcases sound with listed | alone
  · exact .inl (lists ▸ listed)
  · exact .inr (alone.of_changesOnly (lists ▸ alone.unlisted) changes misses)

/-- Taking one slab leaves the links of another. -/
theorem SoundLinks.take (roomy : c.Roomy) {i j : Nat} (sound : SoundLinks r (c.slabAddr j))
    (placed : r.lists.Placed) (ne : i ≠ j) :
    SoundLinks ((r.listDel (c.slabAddr i)).update fun m => usmmSlabFini m (c.slabAddr i)) (c.slabAddr j) := by
  have large := roomy.large
  rcases sound with ⟨h, listed⟩ | alone
  · refine .inl ⟨h, (Queues.mem_del placed).mpr ⟨fun same => ne ?_, listed⟩⟩
    exact (c.slabAddr_injective (by omega) same).symm
  · refine .inr (alone.of_changesOnly (fun h mem => alone.unlisted h (List.mem_of_mem_erase mem))
      (usmmSlabFini_changesOnly r.mem (c.slabAddr i)) fun x span inside => ?_)
    simp only [Span, node, slabHeaderSize] at span inside
    rcases c.slabAddr_apart ne with before | after <;> omega

end SoundLinks

namespace Rep

variable {loose : List Nat} {r : Region} {m : Mem}

/-! ## Counters -/

section Counters

variable (rep : Rep c loose r m) (roomy : c.Roomy)
include rep roomy

theorem addStatFree (n : BitVec 32) : Rep c loose (Usmm.addStatFree r n) (Linked.addStatFree m c.base n) := by
  have unlinked : Unlinked c (c.base + 104) 4 := unlinked_control roomy (by omega)
  have stored := rep.setU32 (by omega) unlinked (statFreeSlabs r.mem c.base + n)
  rw [Linked.addStatFree, statFreeSlabs, rep.u32 unlinked]
  rw [← rep.us] at stored ⊢
  exact stored

theorem addStatFull (n : BitVec 32) : Rep c loose (Usmm.addStatFull r n) (Linked.addStatFull m c.base n) := by
  have unlinked : Unlinked c (c.base + 108) 4 := unlinked_control roomy (by omega)
  have stored := rep.setU32 (by omega) unlinked (statFullSlabs r.mem c.base + n)
  rw [Linked.addStatFull, statFullSlabs, rep.u32 unlinked]
  rw [← rep.us] at stored ⊢
  exact stored

variable {k : Nat} (bound : k < usmmSlabArrayMax)
include bound

theorem addStatSlabs (n : BitVec 32) :
    Rep c loose (Usmm.addStatSlabs r (statAddr c.base k) n) (Linked.addStatSlabs m (statAddr c.base k) n) := by
  have unlinked : Unlinked c (statAddr c.base k + 16) 4 := unlinked_stat roomy bound (by omega) (by omega)
  have above : c.base + 104 ≤ statAddr c.base k + 16 := by simp only [statAddr, usmmStatSliceOffset]; omega
  rw [Linked.addStatSlabs, rep.u32 unlinked]
  exact rep.setU32 above unlinked _

theorem addStatSliceFull (n : BitVec 32) :
    Rep c loose (Usmm.addStatSliceFull r (statAddr c.base k) n)
      (Linked.addStatSliceFull m (statAddr c.base k) n) := by
  have unlinked : Unlinked c (statAddr c.base k + 20) 4 := unlinked_stat roomy bound (by omega) (by omega)
  have above : c.base + 104 ≤ statAddr c.base k + 20 := by simp only [statAddr, usmmStatSliceOffset]; omega
  rw [Linked.addStatSliceFull, rep.u32 unlinked]
  exact rep.setU32 above unlinked _

theorem addStatUsed (n : BitVec 64) :
    Rep c loose (Usmm.addStatUsed r (statAddr c.base k) n) (Linked.addStatUsed m (statAddr c.base k) n) := by
  have first : Unlinked c (statAddr c.base k) 8 := unlinked_stat roomy bound le_rfl (by omega)
  have second : Unlinked c (statAddr c.base k + 8) 8 := unlinked_stat roomy bound (by omega) (by omega)
  have above : c.base + 104 ≤ statAddr c.base k := by simp only [statAddr, usmmStatSliceOffset]; omega
  have counted := rep.setU64 above first (Theory.u64 r.mem (statAddr c.base k) + 1)
  rw [Linked.addStatUsed, rep.u64 first, counted.u64 second]
  exact counted.setU64 (by omega) second _

end Counters

/-! ## The bitmap -/

section Bitmap

variable (rep : Rep c loose r m) (roomy : c.Roomy)
include rep roomy

/-- The byte of a bit is in the bitmap, past the control block, and no link. -/
theorem bitmapByte {i : Nat} (below : i < usmmSlabBitmapSize) :
    c.base + 104 ≤ c.base + usmmSlabBitmapOffset + i / 8 ∧ Unlinked c (c.base + usmmSlabBitmapOffset + i / 8) 1 ∧
      m (c.base + usmmSlabBitmapOffset + i / 8) = r.mem (c.base + usmmSlabBitmapOffset + i / 8) := by
  have large := roomy.large
  simp only [usmmSlabBitmapSize] at below
  have unlinked : Unlinked c (c.base + usmmSlabBitmapOffset + i / 8) 1 :=
    unlinked_above roomy (by simp only [usmmSlotsOffset, usmmSlabBitmapOffset]; omega)
      (by simp only [usmmSlabBitmapOffset]; omega)
  exact ⟨by simp only [usmmSlabBitmapOffset]; omega, unlinked, rep.byte unlinked⟩

theorem bitmapTest {i : Nat} (below : i < usmmSlabBitmapSize) :
    Usmm.bitmapTest m (c.base + usmmSlabBitmapOffset) i = Usmm.bitmapTest r.mem (c.base + usmmSlabBitmapOffset) i := by
  rw [Usmm.bitmapTest, Usmm.bitmapTest, (rep.bitmapByte roomy below).2.2]

section Bit

-- the address of the bitmap is kept abstract: its offset is a large number
variable {bitmap i : Nat} (byte : c.base + 104 ≤ bitmap + i / 8 ∧ Unlinked c (bitmap + i / 8) 1 ∧
  m (bitmap + i / 8) = r.mem (bitmap + i / 8))
include byte

omit roomy

theorem setBit : Rep c loose (r.update fun m => Usmm.bitmapSet m bitmap i) (Usmm.bitmapSet m bitmap i) := by
  obtain ⟨above, unlinked, same⟩ := byte
  rw [Usmm.bitmapSet, same]
  exact rep.setU8 above unlinked _

theorem clrBit : Rep c loose (r.update fun m => Usmm.bitmapClr m bitmap i) (Usmm.bitmapClr m bitmap i) := by
  obtain ⟨above, unlinked, same⟩ := byte
  rw [Usmm.bitmapClr, same]
  exact rep.setU8 above unlinked _

omit rep byte in
theorem setBits (turn : ∀ {r m i}, Rep c loose r m → i < usmmSlabBitmapSize →
      Rep c loose (r.update fun m => Usmm.bitmapSet m bitmap i) (Usmm.bitmapSet m bitmap i))
    {is : List Nat} (below : ∀ i ∈ is, i < usmmSlabBitmapSize) (rep : Rep c loose r m) :
    Rep c loose (r.update fun m => is.foldl (fun m i => Usmm.bitmapSet m bitmap i) m)
      (is.foldl (fun m i => Usmm.bitmapSet m bitmap i) m) := by
  induction is generalizing r m with
  | nil => exact rep
  | cons i is ih =>
    exact ih (fun j mem => below j (List.mem_cons_of_mem i mem)) (turn rep (below i List.mem_cons_self))

end Bit

theorem bitmapClr {i : Nat} (below : i < usmmSlabBitmapSize) :
    Rep c loose (r.update fun m => Usmm.bitmapClr m (c.base + usmmSlabBitmapOffset) i)
      (Usmm.bitmapClr m (c.base + usmmSlabBitmapOffset) i) := rep.clrBit (rep.bitmapByte roomy below)

theorem bitmapSetRange (start : Nat) {stop : Nat} (bits : stop ≤ usmmSlabBitmapSize) :
    Rep c loose (r.update fun m => Usmm.bitmapSetRange m (c.base + usmmSlabBitmapOffset) start stop)
      (Usmm.bitmapSetRange m (c.base + usmmSlabBitmapOffset) start stop) := by
  refine setBits (fun rep below => rep.setBit (rep.bitmapByte roomy below)) (fun i mem => ?_) rep
  have := List.mem_range'_1.mp mem
  omega

end Bitmap

/-! ## One slab -/

section Slab

variable (rep : Rep c loose r m) (roomy : c.Roomy) {i : Nat} (positive : 1 ≤ i)
include rep roomy positive

/-- A word of the slab behind its links. -/
theorem slabU64 {a : Nat} (lower : c.slabAddr i + 24 ≤ a) (upper : a + 8 ≤ c.slabAddr i + c.slabSize) (v : BitVec 64) :
    Rep c loose (r.update fun m => Theory.setU64 m a v) (Theory.setU64 m a v) := by
  have large := roomy.large
  have start := c.slabAddr_ge positive
  exact rep.setU64 (by omega) (unlinked_slab roomy positive lower upper) v

theorem slabU32 {a : Nat} (lower : c.slabAddr i + 24 ≤ a) (upper : a + 4 ≤ c.slabAddr i + c.slabSize) (v : BitVec 32) :
    Rep c loose (r.update fun m => Theory.setU32 m a v) (Theory.setU32 m a v) := by
  have large := roomy.large
  have start := c.slabAddr_ge positive
  exact rep.setU32 (by omega) (unlinked_slab roomy positive lower upper) v

theorem createHeader (size slice : BitVec 64) :
    Rep c loose (r.update fun m => Usmm.createHeader m (c.slabAddr i) size slice)
      (Usmm.createHeader m (c.slabAddr i) size slice) := by
  have large := roomy.large
  have first := rep.slabU64 roomy positive (a := c.slabAddr i + 48) (by omega) (by omega) 0
  have second := first.slabU64 roomy positive (a := c.slabAddr i + 24) (by omega) (by omega) size
  have third := second.slabU64 roomy positive (a := c.slabAddr i + 32) (by omega) (by omega) slice
  exact third.slabU32 roomy positive (a := c.slabAddr i + 40) (by omega) (by omega) (slabTotal size slice)

theorem pushSlice {p : Nat} (lower : c.slabAddr i + slabHeaderSize ≤ p) (upper : p + 8 ≤ c.slabAddr i + c.slabSize) :
    Rep c loose (r.update fun m => Usmm.pushSlice m (c.slabAddr i) p) (Usmm.pushSlice m (c.slabAddr i) p) := by
  have large := roomy.large
  simp only [slabHeaderSize] at lower
  have linked := rep.slabU64 roomy positive (a := p) (by omega) upper (Usmm.slabAt r.mem (c.slabAddr i)).freeSlice
  rw [Usmm.pushSlice, rep.slabAt roomy positive]
  exact linked.slabU64 roomy positive (by omega) (by omega) _

variable (below : i < c.slabCount) {k : Nat}
include below

theorem linkSlices (bound : k < usmmSlabArrayMax)
    (slice : (Usmm.slabAt r.mem (c.slabAddr i)).slice = BitVec.ofNat 64 (sliceSize k))
    (start : (Usmm.slabAt r.mem (c.slabAddr i)).freeSlice = 0) {count : Nat}
    (fits : count ≤ (classTotal c k).toInt.toNat) :
    Rep c loose (r.update fun m => Usmm.linkSlices m (c.slabAddr i) count)
      (Usmm.linkSlices m (c.slabAddr i) count) := by
  induction count with
  | zero => exact rep
  | succ count ih =>
    have linked := ih (by omega)
    obtain ⟨first, -, header, -⟩ := linkSlices_spec (sliceRoom roomy below bound) slice start count (by omega)
    have small := (sliceSize_bounds k bound).2.1
    have wide := (sliceSize_bounds k bound).1
    have width : (Usmm.slabAt (Usmm.linkSlices r.mem (c.slabAddr i) count) (c.slabAddr i)).slice.toNat =
        sliceSize k := by
      rw [header]
      show (Usmm.slabAt r.mem (c.slabAddr i)).slice.toNat = sliceSize k
      rw [slice, u64_ofNat_toNat (by omega)]
    have width' : (Usmm.slabAt (Usmm.linkSlices m (c.slabAddr i) count) (c.slabAddr i)).slice.toNat =
        sliceSize k := (congrArg (fun slab => slab.slice.toNat) (linked.slabAt roomy positive)).trans width
    have room := classTotal_room roomy bound
    have turns := Nat.mul_le_mul_right (sliceSize k) fits
    rw [Nat.succ_mul] at turns
    have pushed := linked.pushSlice roomy positive (p := c.slabAddr i + slabHeaderSize + count * sliceSize k)
      (by omega) (by omega)
    rw [linkSlices_succ, width']
    have whole : (r.update fun m => Usmm.linkSlices m (c.slabAddr i) (count + 1)) =
        r.update fun _ => Usmm.pushSlice (Usmm.linkSlices r.mem (c.slabAddr i) count) (c.slabAddr i)
          (c.slabAddr i + slabHeaderSize + count * sliceSize k) := by
      simp only [Region.update, linkSlices_succ, width]
    rw [whole]
    exact pushed

/-- A slab is cut the same way in both memories. -/
theorem slabCreate (bound : k < usmmSlabArrayMax) :
    Rep c loose (r.update fun m => usmmSlabCreate m (c.slabAddr i) c.slab (BitVec.ofNat 64 (sliceSize k)))
      (usmmSlabCreate m (c.slabAddr i) c.slab (BitVec.ofNat 64 (sliceSize k))) := by
  have created := rep.createHeader roomy positive c.slab (BitVec.ofNat 64 (sliceSize k))
  have header := slabAt_createHeader r.mem (c.slabAddr i) c.slab (BitVec.ofNat 64 (sliceSize k))
  have total : (Usmm.slabAt (Usmm.createHeader r.mem (c.slabAddr i) c.slab (BitVec.ofNat 64 (sliceSize k)))
      (c.slabAddr i)).total = classTotal c k := by rw [header]; rfl
  have total' := (congrArg UsmmSlab.total (created.slabAt roomy positive)).trans total
  have linked := created.linkSlices roomy positive below bound (by rw [update_mem, header])
    (by rw [update_mem, header]) (le_refl (classTotal c k).toInt.toNat)
  rw [usmmSlabCreate, total']
  have whole : (r.update fun m => usmmSlabCreate m (c.slabAddr i) c.slab (BitVec.ofNat 64 (sliceSize k))) =
      (r.update fun m => Usmm.createHeader m (c.slabAddr i) c.slab (BitVec.ofNat 64 (sliceSize k))).update
        fun m => Usmm.linkSlices m (c.slabAddr i) (classTotal c k).toInt.toNat := by
    simp only [Region.update, usmmSlabCreate, total]
  rw [whole]
  exact linked

variable {live : List Nat} (formatted : Formatted c r.mem (c.slabAddr i) k live)
include formatted

/-- The slab gives the same slice, or none. -/
theorem slabAlloc : (usmmSlabAlloc m (c.slabAddr i)).2 = (usmmSlabAlloc r.mem (c.slabAddr i)).2 ∧
    Rep c loose (r.update fun _ => (usmmSlabAlloc r.mem (c.slabAddr i)).1) (usmmSlabAlloc m (c.slabAddr i)).1 := by
  have large := roomy.large
  have outcome := (usmmSlabAlloc_spec formatted.2 (sliceRoom roomy below formatted.1)).2
  have header := rep.slabAt roomy positive
  by_cases none : (Usmm.slabAt r.mem (c.slabAddr i)).freeSlice = 0
  · have same : ∀ {m'}, (Usmm.slabAt m' (c.slabAddr i)).freeSlice = 0 →
        usmmSlabAlloc m' (c.slabAddr i) = (m', 0) := fun null => by
      simp only [usmmSlabAlloc, null, ne_eq, not_true_eq_false, if_false]
    rw [same none, same (by rw [header, none])]
    exact ⟨rfl, rep⟩
  · have given := (slabAt_usmmSlabAlloc none).1
    have member : (Usmm.slabAt r.mem (c.slabAddr i)).freeSlice.toNat ∈
        sliceGrid (c.slabAddr i) (sliceSize k) (classTotal c k) := by
      rcases outcome with ⟨null, -⟩ | ⟨-, inside, -⟩
      · rw [given] at null
        exact absurd (BitVec.eq_of_toNat_eq null) none
      · rwa [given] at inside
    have bounds := slice_bounds roomy formatted.1 member
    have wide := (sliceSize_bounds k formatted.1).1
    simp only [slabHeaderSize] at bounds
    have next := rep.u64 (unlinked_slab roomy positive (w := 8) (by omega) (by omega) :
      Unlinked c (Usmm.slabAt r.mem (c.slabAddr i)).freeSlice.toNat 8)
    have popped := rep.slabU64 roomy positive (a := c.slabAddr i + 48) (by omega) (by omega)
      (Theory.u64 r.mem (Usmm.slabAt r.mem (c.slabAddr i)).freeSlice.toNat)
    have used := popped.slabAt roomy positive
    rw [usmmSlabAlloc, usmmSlabAlloc, header, if_pos none, if_pos none, next]
    dsimp only
    rw [used]
    exact ⟨rfl, popped.slabU32 roomy positive (by omega) (by omega) _⟩

omit below in
/-- A live slice goes back in both memories. -/
theorem slabFree (b : Build) {p : Nat} (alive : p ∈ live) : ∃ m₁ m₁', usmmSlabFree b r.mem (c.slabAddr i) p = .ok m₁ ∧
    usmmSlabFree b m (c.slabAddr i) p = .ok m₁' ∧ Rep c loose (r.update fun _ => m₁) m₁' := by
  have large := roomy.large
  have start := c.slabAddr_ge positive
  have bounds := slice_bounds roomy formatted.1 (formatted.2.mem_grid alive)
  have wide := (sliceSize_bounds k formatted.1).1
  have header := rep.slabAt roomy positive
  have some : (Usmm.slabAt r.mem (c.slabAddr i)).used ≠ 0 := by
    intro zero
    have count := formatted.2.used_toNat
    rw [zero] at count
    have := List.length_pos_of_mem alive
    simp at count
    omega
  have pushed := rep.pushSlice roomy positive bounds.1 (by omega)
  have used := pushed.slabAt roomy positive
  refine ⟨_, _, usmmSlabFree_eq b (by omega) some, usmmSlabFree_eq b (by omega) (by rwa [header]), ?_⟩
  rw [freedMem, freedMem, used]
  exact pushed.slabU32 roomy positive (by omega) (by omega) _

end Slab

/-! ## Where things are -/

section Addresses

variable (rep : Rep c loose r m) (roomy : c.Roomy)
include rep roomy

theorem slabs (k : Nat) : Linked.slabs m c.base k = headAddr c.base (.cls k) := by
  rw [Linked.slabs, (rep.control' roomy).slabs]
  rfl

theorem stat (k : Nat) : Linked.stat m c.base k = statAddr c.base k := by
  rw [Linked.stat, (rep.control' roomy).stats]
  rfl

theorem slabSize : Linked.slabSize m c.base = c.slabSize := congrArg BitVec.toNat (rep.control' roomy).slab

omit roomy in
/-- A slab that was taken off its list is on no other. -/
theorem gone (s : Nat) (h : Head) : s ∉ (r.listDel s).lists h := by
  rw [← mem_nodes, listDel_lists, nodes_del]
  exact rep.stored.placed.not_mem_del (node s) h

end Addresses

/-! ## usmm_slice_alloc -/

section SliceAlloc

variable (roomy : c.Roomy) {i k : Nat} (positive : 1 ≤ i) (below : i < c.slabCount)
include roomy positive below

theorem sliceFormat (rep : Rep c loose r m) (bound : k < usmmSlabArrayMax) (listed : c.slabAddr i ∈ r.lists .free) :
    Rep c loose (Usmm.sliceFormat r k (sliceSize k) (statAddr c.base k) (c.slabAddr i))
      (Linked.sliceFormat m c.base (sliceSize k) (statAddr c.base k) (headAddr c.base (.cls k)) (c.slabAddr i)) := by
  have deleted := rep.listDel roomy listed
  have created := deleted.slabCreate roomy positive below bound
  have added := created.listAdd roomy positive below (rep.gone (c.slabAddr i)) (h := .cls k) bound
  have counted := (added.addStatFree roomy (-1)).addStatSlabs roomy bound 1
  have slab := (deleted.control' roomy).slab
  have whole : Usmm.sliceFormat r k (sliceSize k) (statAddr c.base k) (c.slabAddr i) =
      Usmm.addStatSlabs (Usmm.addStatFree (((r.listDel (c.slabAddr i)).update fun m =>
        usmmSlabCreate m (c.slabAddr i) c.slab (BitVec.ofNat 64 (sliceSize k))).listAdd (c.slabAddr i) (.cls k))
          (-1)) (statAddr c.base k) 1 := by
    simp only [Usmm.sliceFormat, Region.update, listDel_us, listDel_mem, rep.us, rep.control.slab]
  rw [whole, Linked.sliceFormat, slab]
  exact counted

theorem sliceTake (rep : Rep c loose r m) {h : Head} (listed : c.slabAddr i ∈ r.lists h) {live : List Nat}
    (formatted : Formatted c r.mem (c.slabAddr i) k live) :
    (Linked.sliceTake m c.base (statAddr c.base k) (c.slabAddr i)).2 =
        (Usmm.sliceTake r (statAddr c.base k) (c.slabAddr i)).2 ∧
      Rep c loose (Usmm.sliceTake r (statAddr c.base k) (c.slabAddr i)).1
        (Linked.sliceTake m c.base (statAddr c.base k) (c.slabAddr i)).1 := by
  obtain ⟨⟨m₁, p⟩, taking⟩ : ∃ t, usmmSlabAlloc r.mem (c.slabAddr i) = t := ⟨_, rfl⟩
  obtain ⟨⟨m₁', p'⟩, taking'⟩ : ∃ t, usmmSlabAlloc m (c.slabAddr i) = t := ⟨_, rfl⟩
  obtain ⟨given, taken⟩ := rep.slabAlloc roomy positive below formatted
  rw [taking, taking'] at given taken
  obtain rfl : p' = p := given
  have used := taken.addStatUsed roomy formatted.1 1
  obtain ⟨r₁, made⟩ : ∃ r₁, Usmm.addStatUsed (r.update fun _ => m₁) (statAddr c.base k) 1 = r₁ := ⟨_, rfl⟩
  obtain ⟨m₂, made'⟩ : ∃ m₂, Linked.addStatUsed m₁' (statAddr c.base k) 1 = m₂ := ⟨_, rfl⟩
  have lists : r₁.lists = r.lists := by rw [← made, addStatUsed_lists, update_lists]
  rw [← lists] at listed
  dsimp only at used
  rw [made, made'] at used
  simp only [Linked.sliceTake, taking', made', Usmm.sliceTake, taking, made, used.slabAt roomy positive]
  split
  case isTrue full =>
    have deleted := used.listDel roomy listed
    have added := deleted.listAdd roomy positive below (used.gone (c.slabAddr i)) (h := .full) trivial
    exact ⟨rfl, (added.addStatSliceFull roomy formatted.1 1).addStatFull roomy 1⟩
  case isFalse left => exact ⟨rfl, used⟩

end SliceAlloc

theorem usmmSliceAlloc {w : Usmm.World} (rep : Rep c loose w.region m) (roomy : c.Roomy) (inv : Inv c w)
    (size : BitVec 64) :
    (Linked.usmmSliceAlloc m c.base size).2 = (Usmm.usmmSliceAlloc w.region size).2 ∧
      Rep c loose (Usmm.usmmSliceAlloc w.region size).1 (Linked.usmmSliceAlloc m c.base size).1 := by
  rw [Linked.usmmSliceAlloc, Usmm.usmmSliceAlloc]
  cases found : usmmSlabFind (size.setWidth 32) with
  | none => exact ⟨rfl, rep⟩
  | some pair =>
    obtain ⟨k, slice⟩ := pair
    obtain ⟨rfl, bound, -⟩ := usmmSlabFind_eq_some found
    have empty := rep.listEmpty (h := .cls k) bound
    have emptyFree := rep.listEmpty (h := .free) trivial
    dsimp only
    rw [rep.slabs roomy, rep.stat roomy, inv.stat]
    cases ready : w.region.lists (.cls k) with
    | cons slab rest =>
      have first : (w.region.lists (.cls k)).head? = some slab := by rw [ready]; rfl
      have listed := List.mem_of_head? first
      obtain ⟨j, positive, below, rfl⟩ := inv.slabs listed
      rw [if_neg (by rw [empty, ready]; exact List.cons_ne_nil _ _), rep.listFirstEntry (h := .cls k) bound first]
      exact rep.sliceTake roomy positive below listed (inv.ok listed)
    | nil =>
      rw [if_pos (empty.mpr ready)]
      cases spare : w.region.lists .free with
      | nil =>
        rw [show freeSlabs c.base = headAddr c.base .free from rfl, if_pos (emptyFree.mpr spare)]
        exact ⟨rfl, rep⟩
      | cons slab rest =>
        have first : (w.region.lists .free).head? = some slab := by rw [spare]; rfl
        have listed := List.mem_of_head? first
        obtain ⟨j, positive, below, rfl⟩ := inv.slabs listed
        obtain ⟨r₁, cut⟩ : ∃ r₁, Usmm.sliceFormat w.region k (sliceSize k) (statAddr c.base k) (c.slabAddr j) = r₁ :=
          ⟨_, rfl⟩
        obtain ⟨-, -, lists, formatted, -⟩ := sliceFormat_spec roomy inv.us inv.control bound positive below
          (inv.ok listed).1 cut
        have made := rep.sliceFormat roomy positive below bound listed
        have there : c.slabAddr j ∈ r₁.lists (.cls k) := by
          rw [lists]
          exact Queues.mem_push.mpr (.inl ⟨rfl, rfl⟩)
        rw [cut] at made
        rw [show freeSlabs c.base = headAddr c.base .free from rfl,
          if_neg (by rw [emptyFree, spare]; exact List.cons_ne_nil _ _), rep.listFirstEntry (h := .free) trivial first]
        dsimp only
        rw [cut]
        exact made.sliceTake roomy positive below there formatted

/-! ## usmm_slice_free -/

section SliceFree

variable (roomy : c.Roomy) {i k : Nat} (positive : 1 ≤ i) (below : i < c.slabCount)
include roomy positive below

theorem sliceRelease (rep : Rep c loose r m) {h : Head} (listed : c.slabAddr i ∈ r.lists h) {live : List Nat}
    (formatted : Formatted c r.mem (c.slabAddr i) k live) {full : Bool} {r' : Region}
    (result : Usmm.sliceRelease r (statAddr c.base k) (c.slabAddr i) full = .ok r') :
    ∃ m', Linked.sliceRelease m c.base (statAddr c.base k) (c.slabAddr i) full = .ok m' ∧ Rep c loose r' m' := by
  have bound := formatted.1
  have deleted := rep.listDel roomy listed
  have unlisted := rep.gone (c.slabAddr i)
  cases full with
  | true =>
    have found := congrArg (fun slab => usmmSlabFind (slab.slice.setWidth 32)) (deleted.slabAt roomy positive)
    have class' := found.trans formatted.find
    have added := deleted.listAddTail roomy positive below unlisted (h := .cls k) bound
    simp only [Usmm.sliceRelease, if_true, listDel_mem, formatted.find, Except.ok.injEq] at result
    obtain rfl := result
    simp only [Linked.sliceRelease, if_true, class', deleted.slabs roomy]
    exact ⟨_, rfl, (added.addStatSliceFull roomy bound (-1)).addStatFull roomy (-1)⟩
  | false =>
    simp only [Usmm.sliceRelease, if_neg Bool.false_ne_true] at result
    simp only [Linked.sliceRelease, if_neg Bool.false_ne_true, rep.slabAt roomy positive]
    split at result
    case isTrue empty =>
      obtain rfl := Except.ok.inj result
      rw [if_pos empty]
      have blank := deleted.slabInit roomy positive unlisted
      have added := blank.listAdd roomy positive below unlisted (h := .free) trivial
      exact ⟨_, rfl, (added.addStatSlabs roomy bound (-1)).addStatFree roomy 1⟩
    case isFalse some =>
      obtain rfl := Except.ok.inj result
      rw [if_neg some]
      exact ⟨_, rfl, rep⟩

end SliceFree

theorem usmmSliceFree {w : Usmm.World} (rep : Rep c loose w.region m) (roomy : c.Roomy) (inv : Inv c w) (b : Build)
    {x : Piece} (held : x ∈ w.slices) (owner : OwnerFound c x.ptr) {r' : Region}
    (result : Usmm.usmmSliceFree b w.region x.ptr = .ok r') :
    ∃ m', Linked.usmmSliceFree b m c.base x.ptr = .ok m' ∧ Rep c loose r' m' := by
  have large := roomy.large
  obtain ⟨j, h, k, positive, below, listed, -, -, live, formatted, -⟩ := inv.home held
  have bounds := slice_bounds roomy formatted.1 (formatted.2.mem_grid live)
  have inside := (mem_livePtrs.mp live).1.2
  have header : 0 < slabHeaderSize := by decide
  have start := c.slabAddr_ge positive
  have slab := owner j positive below (by omega) inside
  obtain ⟨m₁, m₁', freed, freed', back⟩ := rep.slabFree roomy positive formatted b live
  obtain ⟨m₀, freed₀, sliced, -⟩ := usmmSlabFree_spec b formatted.2 (sliceRoom roomy below formatted.1) live
  obtain rfl : m₀ = m₁ := Except.ok.inj (freed₀.symm.trans freed)
  rw [usmmSliceFree_eq roomy inv b positive below formatted live owner freed] at result
  have used := back.addStatUsed roomy formatted.1 (-1)
  have counted : ChangesOnly (OpSpan c .stats fun _ => False) m₀
      (Usmm.addStatUsed (w.region.update fun _ => m₀) (statAddr c.base k) (-1)).mem :=
    addStatUsed_changesOnly roomy (w.region.update fun _ => m₀) formatted.1 (-1)
  have after := Formatted.of_opSpan roomy counted positive below id
    (show Formatted c m₀ (c.slabAddr j) k _ from ⟨formatted.1, sliced⟩)
  obtain ⟨m', released, kept⟩ := used.sliceRelease roomy positive below listed after result
  refine ⟨m', ?_, kept⟩
  rw [← released]
  have class' : usmmSlabFind ((Usmm.slabAt m (c.slabAddr j)).slice.setWidth 32) = some (k, sliceSize k) := by
    rw [rep.slabAt roomy positive]
    exact Formatted.find (show Formatted c w.region.mem (c.slabAddr j) k _ from formatted)
  have equal : (Usmm.slabAt m (c.slabAddr j)).slice = BitVec.ofNat 64 (sliceSize k) := by
    rw [rep.slabAt roomy positive]
    exact formatted.2.sliceEq
  simp only [Linked.usmmSliceFree, if_neg (show x.ptr ≠ 0 by omega), (rep.control' roomy).slab, slab, class',
    rep.stat roomy]
  rw [equal, beq_self_eq_true, assert_true, freed', rep.slabAt roomy positive]
  rfl

end Rep

/-! ## usmm_heap_alloc -/

theorem usmmHeapAlloc_eq (roomy : c.Roomy) {m : Mem} (control : Control c m) (b : Build) (size : BitVec 64) :
    Linked.usmmHeapAlloc b m c.base size =
      (assert b (decide (1 < heapNum size c.slab)) .rangeGtOne).bind fun _ =>
        if heapAnswer c m size < 0 then .ok (m, 0)
        else .ok (Linked.heapTake m c.base (heapAnswer c m size).toNat (heapNum size c.slab)) := by
  have max : intOfSize (c.length / c.slab) = c.slabCount := intOfSize_of_lt roomy.counted
  simp only [Linked.usmmHeapAlloc, control.slab, control.length, control.bitmap, max, bitmapFindRange, heapAnswer,
    bind, pure, Except.pure]
  cases assert b (decide (heapNum size c.slab > 1)) .rangeGtOne with
  | error which => rfl
  | ok _ => rfl

namespace Rep

variable {loose : List Nat} {r : Region} {m : Mem}

section HeapAlloc

variable (roomy : c.Roomy)
include roomy

/-- `list_del` on a slab that is on no list and whose links lead to itself. -/
theorem listDelAlone (rep : Rep c [] r m) {i : Nat} (positive : 1 ≤ i) (below : i < c.slabCount)
    (alone : Alone r (c.slabAddr i)) :
    Rep c [c.slabAddr i] (r.listDel (c.slabAddr i)) (Links.listDel m (node (c.slabAddr i))) := by
  have large := roomy.large
  have slab : ∀ x, Span (node (c.slabAddr i)) 16 x → Span (c.slabAddr i) c.slabSize x := by
    intro x span
    simp only [Span, node] at span ⊢
    omega
  have kept : ∀ x, Span (node (c.slabAddr i)) 16 x → ¬ Differs c [] r.lists x := by
    rintro x span ⟨a, uses | ⟨s, mem, -⟩, cell⟩
    · exact rep.apart roomy positive alone.unlisted uses cell (slab x span)
    · exact absurd mem List.not_mem_nil
  have frame := Links.listDel_self_changesOnly m (node (c.slabAddr i))
    ((congrArg BitVec.toNat (rep.same.u64 fun x lower upper => kept x ⟨lower, by omega⟩)).trans alone.next)
    ((congrArg BitVec.toNat (rep.same.u64 fun x lower upper => kept x ⟨by omega, by omega⟩)).trans alone.prev)
  have lists : r.listDel (c.slabAddr i) = r.update fun _ => r.mem := by
    have same : r.lists.del (c.slabAddr i) = r.lists :=
      funext fun h => List.erase_of_not_mem (alone.unlisted h)
    rw [Region.listDel, same, Region.update]
  rw [lists]
  refine rep.changeSlab roomy positive alone.unlisted (.refl _ _) (frame.mono slab) ?_
  refine ((rep.loosen (c.slabAddr i)).same).trans (frame.mono fun x span => ?_)
  exact ⟨_, .inr ⟨_, List.mem_singleton_self _, rfl, .inr ⟨i, positive, below, rfl⟩⟩, span⟩

theorem takeSlab (rep : Rep c [] r m) {i : Nat} (positive : 1 ≤ i) (below : i < c.slabCount)
    (sound : SoundLinks r (c.slabAddr i)) : Rep c [] (Usmm.takeSlab r i) (Linked.takeSlab c.base m i) := by
  have deleted : Rep c [c.slabAddr i] (r.listDel (c.slabAddr i)) (Links.listDel m (node (c.slabAddr i))) := by
    rcases sound with ⟨h, listed⟩ | alone
    · exact rep.listDel roomy listed
    · exact rep.listDelAlone roomy positive below alone
  rw [Usmm.takeSlab, slab_eq rep.us rep.control, Linked.takeSlab, rep.slabSize roomy]
  exact deleted.slabFini roomy positive (rep.gone (c.slabAddr i))

/-- The loop over slabs whose links are sound. -/
theorem takeSlabs {is : List Nat} (inside : ∀ i ∈ is, 1 ≤ i ∧ i < c.slabCount) (nodup : is.Nodup)
    (rep : Rep c [] r m) (placed : r.lists.Placed) (sound : ∀ i ∈ is, SoundLinks r (c.slabAddr i)) :
    Rep c [] (is.foldl Usmm.takeSlab r) (is.foldl (Linked.takeSlab c.base) m) := by
  have large := roomy.large
  induction is generalizing r m with
  | nil => exact rep
  | cons i is ih =>
    obtain ⟨other, nodup⟩ := List.nodup_cons.mp nodup
    obtain ⟨positive, below⟩ := inside i List.mem_cons_self
    have taken := rep.takeSlab roomy positive below (sound i List.mem_cons_self)
    have made : Usmm.takeSlab r i = (r.listDel (c.slabAddr i)).update fun m => usmmSlabFini m (c.slabAddr i) := by
      rw [Usmm.takeSlab, slab_eq rep.us rep.control]
    rw [List.foldl_cons, List.foldl_cons]
    refine ih (fun j mem => inside j (List.mem_cons_of_mem i mem)) nodup taken ?_ fun j mem => ?_
    · rw [made, update_lists, listDel_lists]
      exact placed.del _
    · have ne : i ≠ j := fun same => other (same ▸ mem)
      rw [made]
      exact (sound j (List.mem_cons_of_mem i mem)).take roomy placed ne

/-- The first word of a slab is no link. -/
theorem unlinked_length {i : Nat} (positive : 1 ≤ i) : Unlinked c (c.slabAddr i) 4 := by
  have large := roomy.large
  intro x span
  simp only [Span] at span
  exact not_linkArea_slab roomy positive ⟨by omega, by omega⟩ (.inl (by omega))

theorem heapTake (rep : Rep c [] r m) (placed : r.lists.Placed) {start num : Nat} (first : 1 ≤ start)
    (last : start + num ≤ c.slabCount) (bits : start + num ≤ usmmSlabBitmapSize)
    (sound : ∀ i, Window start num i → SoundLinks r (c.slabAddr i)) :
    (Linked.heapTake m c.base start num).2 = (Usmm.heapTake r start num).2 ∧
      Rep c [] (Usmm.heapTake r start num).1 (Linked.heapTake m c.base start num).1 := by
  have large := roomy.large
  have start' := c.slabAddr_ge first
  have stop : ((start : Int) + num).toNat = start + num := by omega
  have marked := rep.bitmapSetRange roomy start bits
  have inside : ∀ i ∈ List.range' start num, 1 ≤ i ∧ i < c.slabCount := by
    intro i mem
    have window := List.mem_range'_1.mp mem
    omega
  have taken := marked.takeSlabs roomy inside List.nodup_range' placed fun i mem => by
    have above := c.slabAddr_ge (inside i mem).1
    refine (sound i (List.mem_range'_1.mp mem)).of_changesOnly rfl
      (bitmapSetRange_changesOnly r.mem _ start (start + num)) fun x span ⟨k, _, upper, same⟩ => ?_
    simp only [Span, node, usmmSlabBitmapOffset, usmmSlabBitmapSize] at span same bits
    omega
  have counted := taken.addStatFree roomy (-BitVec.ofInt 32 num)
  have sized := counted.setU32 (a := c.slabAddr start) (by omega) (unlinked_length roomy first) (BitVec.ofInt 32 num)
  have slab := counted.slabSize roomy
  have whole : Usmm.heapTake r start num = ((Usmm.addStatFree ((List.range' start num).foldl Usmm.takeSlab
      (r.update fun m => Usmm.bitmapSetRange m (c.base + usmmSlabBitmapOffset) start (start + num)))
      (-BitVec.ofInt 32 num)).update fun m => Theory.setU32 m (c.slabAddr start) (BitVec.ofInt 32 num),
      c.slabAddr start + 4) := by
    rw [Usmm.heapTake]
    simp only [stop, Nat.add_sub_cancel_left]
    have bitmap : (r.update fun m => Usmm.bitmapSetRange m (slabBitmap m r.us) start (start + num)) =
        r.update fun m => Usmm.bitmapSetRange m (c.base + usmmSlabBitmapOffset) start (start + num) := by
      simp only [Region.update, rep.us, rep.control.bitmap]
    rw [bitmap, slab_eq counted.us counted.control]
  rw [whole, Linked.heapTake]
  simp only [stop, Nat.add_sub_cancel_left, (rep.control' roomy).bitmap, slab]
  exact ⟨rfl, sized⟩

/-- The search answers the same. -/
theorem searchRange {w : Usmm.World} (rep : Rep c [] w.region m) (inv : Inv c w) (mapped : Mapped c) {num : Nat}
    (some : 1 ≤ num) : Usmm.searchRange m (c.base + usmmSlabBitmapOffset) num c.slabCount =
      Usmm.searchRange w.mem (c.base + usmmSlabBitmapOffset) num c.slabCount := by
  rw [Mapped] at mapped
  refine searchRange_congr (n := usmmSlabBitmapSize) (fun k below => rep.bitmapTest roomy below) ?_ mapped (by omega)
  exact (inv.bits c.slabCount (by omega)).mpr (.inr (.inl le_rfl))

/-- A window whose slabs have links that `list_del` can follow. -/
theorem takesWindow {w : Usmm.World} (rep : Rep c [] w.region m) (inv : Inv c w) (mapped : Mapped c)
    {b : Build} {size : BitVec 64} (passed : assert b (decide (1 < heapNum size c.slab)) .rangeGtOne = .ok ())
    {start num : Nat} (answer : heapAnswer c w.mem size = start) (same : heapNum size c.slab = num) (some : 1 ≤ num)
    (first : 1 ≤ start) (last : start + num ≤ c.slabCount) (bits : start + num ≤ usmmSlabBitmapSize)
    (sound : ∀ i, Window start num i → SoundLinks w.region (c.slabAddr i)) {r' : Region} {p : Nat}
    (took : Usmm.heapTake w.region start num = (r', p)) :
    ∃ m', Linked.usmmHeapAlloc b m c.base size = .ok (m', p) ∧ Rep c [] r' m' := by
  have answer' : heapAnswer c m size = start := by
    rw [← answer, heapAnswer, heapAnswer, same]
    exact rep.searchRange roomy inv mapped some
  obtain ⟨ptr, taken⟩ := rep.heapTake roomy inv.placed first last bits sound
  obtain ⟨⟨m', p'⟩, took'⟩ : ∃ t, Linked.heapTake m c.base start num = t := ⟨_, rfl⟩
  rw [took, took'] at ptr taken
  obtain rfl : p' = p := ptr
  refine ⟨m', ?_, taken⟩
  rw [Linked.usmmHeapAlloc_eq roomy (rep.control' roomy), passed, Except.bind, answer', if_neg (by omega), same,
    Int.toNat_natCast, took']

theorem usmmHeapAlloc {w : Usmm.World} (rep : Rep c [] w.region m) (inv : Inv c w) (mapped : Mapped c) {b : Build}
    {size : BitVec 64} (heeds : HeapHeeds c w size) {r' : Region} {p : Nat}
    (result : Usmm.usmmHeapAlloc b w.region size = .ok (r', p)) :
    ∃ m', Linked.usmmHeapAlloc b m c.base size = .ok (m', p) ∧ Rep c [] r' m' := by
  have large := roomy.large
  have passed : assert b (decide (1 < heapNum size c.slab)) .rangeGtOne = .ok () := by
    rw [Usmm.usmmHeapAlloc_eq roomy inv.us inv.control] at result
    cases asserted : assert b (decide (1 < heapNum size c.slab)) .rangeGtOne with
    | error which =>
      rw [asserted] at result
      cases result
    | ok _ => rfl
  rcases usmmHeapAlloc_cases roomy inv.us inv.control result with ⟨refused, rfl, rfl⟩ | ⟨answered, took⟩
  · have refused' : heapAnswer c m size < 0 := by
      by_cases some : 1 ≤ heapNum size c.slab
      · obtain ⟨num, same⟩ : ∃ num : Nat, heapNum size c.slab = num := ⟨(heapNum size c.slab).toNat, by omega⟩
        rw [heapAnswer, same] at refused ⊢
        rwa [rep.searchRange roomy inv mapped (by omega)]
      · rw [HeapHeeds, if_neg some] at heeds
        rw [heapAnswer_neg_iff, if_neg some]
        refine heeds.imp_right fun full i below => ?_
        rw [Mapped] at mapped
        have byte := (rep.bitmapByte roomy (show 8 * i < usmmSlabBitmapSize by omega)).2.2
        rw [show 8 * i / 8 = i by omega] at byte
        exact byte.trans (full i below)
    rw [Linked.usmmHeapAlloc_eq roomy (rep.control' roomy), passed, Except.bind, if_pos refused']
    exact ⟨m, rfl, rep⟩
  · obtain ⟨start, num, answer, same, some, small, bits, free⟩ := heeds.window answered
    rw [answer, same, Int.toNat_natCast] at took
    have index : ∀ i, Window start num i → 1 ≤ i ∧ i < c.slabCount := by
      intro i inside
      obtain ⟨j, positive, below, same⟩ := inv.slabs (free i inside)
      have := c.slabAddr_injective (by omega) same
      omega
    have stop := (index (start + num - 1) ⟨by omega, by omega⟩).2
    exact rep.takesWindow roomy inv mapped passed answer same some (index start ⟨le_rfl, by omega⟩).1
      (by omega) bits (fun i inside => .inl ⟨.free, free i inside⟩) took

end HeapAlloc

/-! ## usmm_heap_free -/

section HeapFree

variable (roomy : c.Roomy)
include roomy

theorem giveSlab (rep : Rep c loose r m) {i : Nat} (positive : 1 ≤ i) (below : i < c.slabCount)
    (bits : i < usmmSlabBitmapSize) (unlisted : ∀ h, c.slabAddr i ∉ r.lists h) :
    (Linked.giveSlab c.base (m, c.slabAddr i) i).2 = c.slabAddr (i + 1) ∧
      Rep c loose (Usmm.giveSlab (r, c.slabAddr i) i).1 (Linked.giveSlab c.base (m, c.slabAddr i) i).1 := by
  have blank := (rep.loosen (c.slabAddr i)).slabInit roomy positive unlisted
  have added := blank.listAdd roomy positive below unlisted (h := .free) trivial
  have cleared := added.bitmapClr roomy bits
  have whole : (Usmm.giveSlab (r, c.slabAddr i) i).1 =
      ((r.update fun m => usmmSlabInit m (c.slabAddr i)).listAdd (c.slabAddr i) .free).update
        fun m => Usmm.bitmapClr m (c.base + usmmSlabBitmapOffset) i := by
    have bitmap := added.control.bitmap
    simp only [Usmm.giveSlab, Region.update, Region.listAdd, rep.us] at bitmap ⊢
    rw [bitmap]
  rw [whole, Linked.giveSlab]
  dsimp only
  rw [show freeSlabs c.base = headAddr c.base .free from rfl, (added.control' roomy).bitmap, cleared.slabSize roomy,
    c.slabAddr_succ]
  exact ⟨rfl, cleared⟩

/-- The loop over slabs that are on no list. -/
theorem giveSlabs {num : Nat} (rep : Rep c loose r m) (placed : r.lists.Placed) {start : Nat} (positive : 1 ≤ start)
    (last : start + num ≤ c.slabCount) (bits : start + num ≤ usmmSlabBitmapSize)
    (unlisted : ∀ i, Window start num i → ∀ h, c.slabAddr i ∉ r.lists h) :
    Rep c loose ((List.range' start num).foldl Usmm.giveSlab (r, c.slabAddr start)).1
      ((List.range' start num).foldl (Linked.giveSlab c.base) (m, c.slabAddr start)).1 := by
  have large := roomy.large
  induction num generalizing r m start with
  | zero => exact rep
  | succ num ih =>
    have here := unlisted start ⟨le_rfl, by omega⟩
    obtain ⟨⟨r₁, p⟩, made⟩ : ∃ t, Usmm.giveSlab (r, c.slabAddr start) start = t := ⟨_, rfl⟩
    obtain ⟨⟨m₁, p'⟩, made'⟩ : ∃ t, Linked.giveSlab c.base (m, c.slabAddr start) start = t := ⟨_, rfl⟩
    obtain ⟨rfl, -, -, -, lists, -⟩ := giveSlab_spec roomy positive (by omega) rep.us rep.control made
    obtain ⟨next, given⟩ := rep.giveSlab roomy positive (by omega) (by omega) here
    rw [made'] at next given
    rw [made] at given
    obtain rfl : p' = c.slabAddr (start + 1) := next
    rw [List.range'_succ, List.foldl_cons, List.foldl_cons, made, made']
    refine ih given ?_ (by omega) (by omega) (by omega) fun i inside h => ?_
    · rw [lists]
      exact placed.push _ here
    · rw [lists, Queues.mem_push]
      obtain ⟨lower, upper⟩ := inside
      rintro (⟨same, -⟩ | old)
      · have := c.slabAddr_injective (by omega) same
        omega
      · exact unlisted i ⟨by omega, by omega⟩ h old

theorem usmmHeapFree (rep : Rep c loose r m) (placed : r.lists.Placed) {x : Piece} (ok : BlockOk c r.mem r.lists x) :
    Rep c loose (Usmm.usmmHeapFree r x.ptr) (Linked.usmmHeapFree m c.base x.ptr) := by
  have large := roomy.large
  have word : x.ptr - 4 = c.slabAddr (blockFirst c x) := by
    have := ok.ptr
    omega
  have index : (c.slabAddr (blockFirst c x) - c.base) / c.slabSize = blockFirst c x := by
    rw [← word]
    rfl
  have length : (Theory.u32 m (c.slabAddr (blockFirst c x))).toInt = blockNum c x := by
    rw [rep.u32 (unlinked_length roomy ok.first)]
    exact ok.length
  have given := rep.giveSlabs roomy placed ok.first ok.last ok.bits ok.unlisted
  rw [usmmHeapFree_eq roomy rep.us rep.control ok]
  simp only [Linked.usmmHeapFree, word, rep.slabSize roomy, index, length, Int.toNat_natCast]
  exact given.addStatFree roomy _

end HeapFree

/-! ## Slots -/

section Slots

variable (rep : Rep c loose r m) (roomy : c.Roomy)
include rep roomy

theorem slotPtr (slot : Nat) : Linked.slotPtr m c.base slot = c.base + usmmSlotsOffset + slot * 16 + 8 := by
  rw [Linked.slotPtr, (rep.control' roomy).slots]

omit rep in
theorem unlinked_slot {slot : Nat} (bound : slot < usmmSlotsMax) :
    Unlinked c (c.base + usmmSlotsOffset + slot * 16 + 8) 8 := by
  have large := roomy.large
  simp only [usmmSlotsMax] at bound
  exact unlinked_above roomy (by omega) (by simp only [usmmSlotsOffset]; omega)

theorem setSlot {slot : Nat} (bound : slot < usmmSlotsMax) (ptr : BitVec 64) :
    Rep c loose (r.update fun m => Theory.setU64 m (r.slot slot) ptr)
      (Theory.setU64 m (Linked.slotPtr m c.base slot) ptr) := by
  rw [Region.slot_eq rep.us rep.control, rep.slotPtr roomy]
  exact rep.setU64 (by simp only [usmmSlotsOffset]; omega) (unlinked_slot roomy bound) ptr

theorem getSlot {slot : Nat} (bound : slot < usmmSlotsMax) :
    Theory.u64 m (Linked.slotPtr m c.base slot) = Theory.u64 r.mem (r.slot slot) := by
  rw [Region.slot_eq rep.us rep.control, rep.slotPtr roomy]
  exact rep.u64 (unlinked_slot roomy bound)

theorem usmmSlotAppend (ptr : BitVec 64) :
    Rep c loose (Usmm.usmmSlotAppend r ptr).1 (Linked.usmmSlotAppend m c.base ptr).1 := by
  have same : firstSome usmmSlotsMax (fun i => if Theory.u64 m (Linked.slotPtr m c.base i) = 0 then some i else none) =
      firstSome usmmSlotsMax fun i => if Theory.u64 r.mem (r.slot i) = 0 then some i else none :=
    firstSome_congr fun i below => by rw [rep.getSlot roomy below]
  obtain ⟨answer, found⟩ : ∃ answer, firstSome usmmSlotsMax
      (fun i => if Theory.u64 r.mem (r.slot i) = 0 then some i else none) = answer := ⟨_, rfl⟩
  unfold Usmm.usmmSlotAppend Linked.usmmSlotAppend
  rw [same, found]
  cases answer with
  | none => exact rep
  | some slot =>
    obtain ⟨i, below, chosen, -⟩ := firstSome_eq_some.mp found
    obtain ⟨-, here⟩ := Option.ite_none_right_eq_some.mp chosen
    obtain rfl := Option.some.inj here
    exact rep.setSlot roomy below ptr

end Slots

end Rep

end Itaro.Usmm.Linked
