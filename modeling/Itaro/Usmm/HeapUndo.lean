/-
# Usmm.HeapUndo -- usmm_heap_free undoes usmm_heap_alloc

The release trusts the length word of the block and frees every slab the block
covers, so it takes back what the allocation took only if the allocation took free
slabs.  Where it did, the bitmap, `free_slabs` and its count are as before, and the
slabs that were not free are left alone by both calls (`usmmHeapFree_undoes_alloc`).

The search may answer with a window that runs into a block: it asks for the wrong
bits of the last byte.  The release then frees a slab of that block
(`Inv.not_undone`, `free_takes_block_slab`).
-/
import Itaro.Usmm.LinkedRuns

namespace Itaro.Usmm

set_option autoImplicit false

open Theory

variable {c : UsmmConf} {w w' : World} {b : Build}

/-! ## What is given back -/

/-- What lies between `r` and `r'` leaves alone what was not free in `r₀`: the bit,
the list and the bytes of every such slab. -/
structure SparesTaken (c : UsmmConf) (r₀ r r' : Region) : Prop where
  bit : ∀ i, 1 ≤ i → i < c.slabCount → c.slabAddr i ∉ r₀.lists .free → i < usmmSlabBitmapSize →
    bitmapTest r'.mem (c.base + usmmSlabBitmapOffset) i =
      bitmapTest r.mem (c.base + usmmSlabBitmapOffset) i
  lists : ∀ i, 1 ≤ i → i < c.slabCount → c.slabAddr i ∉ r₀.lists .free →
    ∀ h, c.slabAddr i ∈ r'.lists h ↔ c.slabAddr i ∈ r.lists h
  bytes : ∀ i, 1 ≤ i → i < c.slabCount → c.slabAddr i ∉ r₀.lists .free →
    ∀ x, Span (c.slabAddr i) c.slabSize x → r'.mem x = r.mem x

/-- A block is given by the call from `r` to `r₁` and freed by the one from `r₁` with
the memory `m₂` to `r₂`. -/
structure HeapUndone (c : UsmmConf) (r r₁ : Region) (m₂ : Mem) (r₂ : Region) : Prop where
  bitmap : ∀ d < usmmSlabBitmapSize / 8, r₂.mem (c.base + usmmSlabBitmapOffset + d) =
    r.mem (c.base + usmmSlabBitmapOffset + d)
  free : (r₂.lists .free).Perm (r.lists .free)
  once : (r₂.lists .free).Nodup
  statFree : statFreeSlabs r₂.mem c.base = statFreeSlabs r.mem c.base
  alloc : SparesTaken c r r r₁
  release : SparesTaken c r { r₁ with mem := m₂ } r₂

/-! ## Both calls -/

section Calls

variable {r r₁ r₂ : Region} {start num p : Nat}

theorem Took.spares (took : Took c r r₁ start num p) (roomy : c.Roomy)
    (free : ∀ i, Window start num i → c.slabAddr i ∈ r.lists .free) : SparesTaken c r r r₁ where
  bit i _ _ taken bound := by
    rw [took.marked i bound, decide_eq_false fun inside => taken (free i inside), Bool.false_or]
  lists i _ _ taken h := by
    have large := roomy.large
    rw [took.moved]
    refine ⟨And.left, fun old => ⟨old, fun j inside same => ?_⟩⟩
    rw [c.slabAddr_injective (by omega) same] at taken
    exact taken (free j inside)
  bytes i positive _ taken x span :=
    took.frame x (not_opSpan roomy positive (fun inside => taken (free i inside)) span)

theorem GaveBack.bit_inside {x : Piece} (back : GaveBack c r r₂ x) {k : Nat}
    (bound : k < usmmSlabBitmapSize) (owns : Owns c x k) :
    bitmapTest r₂.mem (c.base + usmmSlabBitmapOffset) k = false := by
  have inside : Window (blockFirst c x) (blockNum c x) k := owns
  rw [back.cleared k bound, decide_eq_true inside]
  rfl

theorem GaveBack.bit_outside {x : Piece} (back : GaveBack c r r₂ x) {k : Nat}
    (bound : k < usmmSlabBitmapSize) (outside : ¬ Owns c x k) :
    bitmapTest r₂.mem (c.base + usmmSlabBitmapOffset) k =
      bitmapTest r.mem (c.base + usmmSlabBitmapOffset) k := by
  have outside' : ¬ Window (blockFirst c x) (blockNum c x) k := outside
  rw [back.cleared k bound, decide_eq_false outside', Bool.not_false, Bool.true_and]

theorem GaveBack.spares {r₀ : Region} {x : Piece} (back : GaveBack c r r₂ x) (roomy : c.Roomy)
    (free : ∀ i, Owns c x i → c.slabAddr i ∈ r₀.lists .free) : SparesTaken c r₀ r r₂ where
  bit i _ _ taken bound := back.bit_outside bound fun owns => taken (free i owns)
  lists i _ _ taken h := by
    have large := roomy.large
    rw [back.moved]
    refine ⟨fun listed => listed.resolve_right ?_, .inl⟩
    rintro ⟨-, j, owns, same⟩
    rw [c.slabAddr_injective (by omega) same] at taken
    exact taken (free j owns)
  bytes i positive _ taken y span :=
    back.frame y (not_opSpan roomy positive (fun owns => taken (free i owns)) span)

/-- A free slab is not marked. -/
theorem Inv.unmarked (inv : Inv c w) (roomy : c.Roomy) {k : Nat} (bound : k < usmmSlabBitmapSize)
    (free : c.slabAddr k ∈ w.lists .free) :
    bitmapTest w.mem (c.base + usmmSlabBitmapOffset) k = false := by
  have large := roomy.large
  refine Bool.eq_false_iff.mpr fun marked => ?_
  obtain ⟨j, positive, below, place⟩ := inv.slabs free
  obtain rfl := c.slabAddr_injective (by omega) place
  rcases (inv.bits k bound).mp marked with zero | outside | ⟨x, block, owned⟩
  · omega
  · omega
  · exact (inv.blocks x block).unlisted k owned .free free

/-- A block that took free slabs, and what the client wrote behind its length word. -/
theorem Inv.heap_undone (inv : Inv c w) (roomy : c.Roomy) {size : BitVec 64}
    (same : heapNum size c.slab = num)
    (free : ∀ i, Window start num i → c.slabAddr i ∈ w.lists .free)
    (took : Took c w.region r₁ start num p) {m₂ : Mem}
    (written : ChangesOnly (HeapBytes c ⟨p, size⟩) r₁.mem m₂) (last : start + num ≤ c.slabCount) :
    HeapUndone c w.region r₁ m₂ (usmmHeapFree { r₁ with mem := m₂ } p) := by
  have large := roomy.large
  have ok := took.blockOk roomy same last
  obtain rfl := took.ptr
  have owns : ∀ i, Owns c ⟨c.slabAddr start + 4, size⟩ i ↔ Window start num i := fun i =>
    owns_of_start roomy same
  have above := c.slabAddr_ge took.first
  -- the client writes behind the first slab and the length word
  have beyond : ∀ x, HeapBytes c ⟨c.slabAddr start + 4, size⟩ x → c.base + c.slabSize + 4 ≤ x := by
    intro x bytes
    have lower : c.slabAddr start + 4 ≤ x := bytes.1
    omega
  have control : Control c m₂ := by
    refine (inv.control.of_opSpan roomy took.frame).of_changesOnly written fun x _ below bytes => ?_
    have := beyond x bytes
    omega
  have ok₂ : BlockOk c m₂ r₁.lists ⟨c.slabAddr start + 4, size⟩ := by
    refine ⟨ok.ptr, ok.first, ok.some, ok.last, ok.bits, ?_, ok.unlisted⟩
    rw [← ok.length]
    refine congrArg BitVec.toInt (written.u32 fun x _ below bytes => ?_)
    rw [blockFirst_of_start roomy] at below
    have lower : c.slabAddr start + 4 ≤ x := bytes.1
    omega
  have bits : ∀ k < usmmSlabBitmapSize, bitmapTest m₂ (c.base + usmmSlabBitmapOffset) k =
      bitmapTest r₁.mem (c.base + usmmSlabBitmapOffset) k := by
    intro k bound
    refine bitmapTest_of_changesOnly written fun bytes => ?_
    have := beyond _ bytes
    simp only [usmmSlabBitmapOffset, usmmSlabBitmapSize] at this bound
    omega
  have back := @usmmHeapFree_spec c roomy { r₁ with mem := m₂ } _ took.us control took.placed ok₂
  have restored : ∀ k < usmmSlabBitmapSize,
      bitmapTest (usmmHeapFree { r₁ with mem := m₂ } (c.slabAddr start + 4)).mem
        (c.base + usmmSlabBitmapOffset) k =
      bitmapTest w.mem (c.base + usmmSlabBitmapOffset) k := by
    intro k bound
    by_cases inside : Window start num k
    · rw [inv.unmarked roomy bound (free k inside)]
      exact back.bit_inside bound ((owns k).mpr inside)
    · refine (back.bit_outside bound fun owned => inside ((owns k).mp owned)).trans ?_
      refine (bits k bound).trans ?_
      rw [took.marked k bound, decide_eq_false inside, Bool.false_or]
  refine ⟨fun d inside => ?_, ?_, back.placed.nodup _, ?_, took.spares roomy free,
    back.spares roomy fun i owned => free i ((owns i).mp owned)⟩
  · exact byte_eq_of_bits (fun k below => restored k (by
      simp only [usmmSlabBitmapSize] at below ⊢
      omega)) inside
  · refine (List.perm_ext_iff_of_nodup (back.placed.nodup _) (inv.placed.nodup _)).mpr fun s => ?_
    rw [back.moved, took.moved]
    constructor
    · rintro (⟨old, -⟩ | ⟨-, i, owned, rfl⟩)
      · exact old
      · exact free i ((owns i).mp owned)
    · intro old
      by_cases inside : ∃ i, Window start num i ∧ s = c.slabAddr i
      · obtain ⟨i, window, rfl⟩ := inside
        exact .inr ⟨rfl, i, (owns i).mpr window, rfl⟩
      · exact .inl ⟨old, fun i window place => inside ⟨i, window, place⟩⟩
  · have stat₂ : statFreeSlabs m₂ c.base = statFreeSlabs r₁.mem c.base :=
      statFreeSlabs_of_changesOnly written fun x bytes => by
        have := beyond x bytes
        omega
    have number : blockNum c ⟨c.slabAddr start + 4, size⟩ = num := by
      rw [blockNum, same, Int.toNat_natCast]
    rw [back.statFree, number, show statFreeSlabs ({ r₁ with mem := m₂ } : Region).mem c.base = _
      from stat₂, took.statFree, BitVec.add_assoc, BitVec.add_left_neg, BitVec.add_zero]

end Calls

/-- **Free undoes alloc**, after every run in which each step heeds the defects, for
every request that heeds them. -/
theorem usmmHeapFree_undoes_alloc (roomy : c.Roomy) (starts : Starts c w) {as : List Act}
    (run : Run (HeedingStep c b) w as w') {size : BitVec 64} (heeds : HeapHeeds c w' size)
    {r₁ : Region} {p : Nat} (result : usmmHeapAlloc b w'.region size = .ok (r₁, p)) (given : p ≠ 0)
    {m₂ : Mem} (written : ChangesOnly (HeapBytes c ⟨p, size⟩) r₁.mem m₂) :
    HeapUndone c w'.region r₁ m₂ (usmmHeapFree { r₁ with mem := m₂ } p) := by
  have inv := run_inv roomy starts run
  rcases usmmHeapAlloc_spec roomy inv heeds result with
    ⟨-, null⟩ | ⟨start, num, same, last, free, took⟩
  · exact absurd null given
  · exact inv.heap_undone roomy same free took written last

/-- The client writes the first byte of two slabs in between. -/
theorem usmmHeapFree_undoes_alloc_testConf : ∃ w r₁ p, Starts testConf w ∧
    usmmHeapAlloc .debug w.region twoSlabs = .ok (r₁, p) ∧
    HeapUndone testConf w.region r₁ (setU8 r₁.mem p 7)
      (usmmHeapFree { r₁ with mem := setU8 r₁.mem p 7 } p) := by
  obtain ⟨w, starts⟩ := exists_starts testConf_roomy
  obtain ⟨-, r₁, result⟩ := @Inv.usmmHeapAlloc_two w (starts_inv testConf_roomy starts)
    starts.blocks .debug twoSlabs (by decide)
  have heeds : HeapHeeds testConf w twoSlabs := starts.heeds_twoSlabs
  refine ⟨w, r₁, _, starts, result, ?_⟩
  refine usmmHeapFree_undoes_alloc testConf_roomy starts (.nil w) heeds result
    (by decide) ((setU8_changesOnly r₁.mem _ 7).mono fun x span => ⟨span.1, ?_⟩)
  have single := span.2
  have stop : testConf.slabAddr 1 + 4 + 1 ≤ testConf.slabAddr
    (blockFirst testConf ⟨testConf.slabAddr 1 + 4, twoSlabs⟩ +
      blockNum testConf ⟨testConf.slabAddr 1 + 4, twoSlabs⟩) := by decide
  omega

/-! ## A window that is not free -/

/-- A slab of the window that was not free is freed. -/
theorem Inv.not_undone (inv : Inv c w) (roomy : c.Roomy) {size : BitVec 64} {start num p i : Nat}
    {r₁ : Region} (same : heapNum size c.slab = num) (took : Took c w.region r₁ start num p)
    (last : start + num ≤ c.slabCount) (inside : Window start num i)
    (taken : c.slabAddr i ∉ w.lists .free) :
    ¬ HeapUndone c w.region r₁ r₁.mem (usmmHeapFree r₁ p) := by
  intro undone
  have control := inv.control.of_opSpan roomy took.frame
  have back := @usmmHeapFree_spec c roomy r₁ _ took.us control took.placed
    (took.blockOk roomy same last)
  have owned : Owns c ⟨p, size⟩ i := by
    rw [took.ptr]
    exact (owns_of_start roomy same).mpr inside
  have freed : c.slabAddr i ∈ (usmmHeapFree r₁ p).lists .free :=
    back.moved.mpr (.inr ⟨rfl, i, owned, rfl⟩)
  exact taken (undone.free.mem_iff.mp freed)

/-! ## A run in the configuration of the tests -/

/-- Seven slabs fit into a byte of the bitmap that has no bit set but the last. -/
theorem picks_seven {m : Mem} {bitmap q : Nat} (below : q < 128)
    (marked : ∀ t < q, ∃ k, 8 * t ≤ k ∧ k < 8 * t + 7 ∧ bitmapTest m bitmap k = true)
    (clear : Clear m bitmap (8 * q) 7) : Picks m bitmap 7 (1024 : Nat) (8 * q) := by
  have turns : (((1024 : Nat) : Int).tdiv 8).toNat = 128 := by decide
  constructor
  · rw [Passes, if_pos (by decide), turns]
    exact ⟨by omega, by omega, clear⟩
  · intro t before passes
    rw [Passes, if_pos (by decide)] at passes
    obtain ⟨-, start, free⟩ := passes
    obtain ⟨k, lower, upper, set⟩ := marked (t / 8) (by omega)
    rw [free k (by omega) (by omega)] at set
    cases set

/-- For nine slabs the search asks for bits 8 to 15 and for bit 23. -/
theorem picks_nine {m : Mem} {bitmap : Nat} (first : bitmapTest m bitmap 0 = true)
    (clear : Clear m bitmap 8 8) (last : bitmapTest m bitmap 23 = false) :
    Picks m bitmap 9 (1024 : Nat) 8 := by
  constructor
  · rw [Passes, if_neg (by decide)]
    refine ⟨by decide, by decide, clear, fun k lower upper => ?_⟩
    obtain rfl : k = 23 := by omega
    exact last
  · intro t before passes
    rw [Passes, if_neg (by decide)] at passes
    obtain ⟨-, start, free, -⟩ := passes
    obtain rfl : t = 0 := by omega
    rw [free 0 le_rfl (by decide)] at first
    cases first

/-- 13 MB are seven slabs, 17 MB are nine. -/
def sevenSlabs : BitVec 64 := 13 * 1024 * 1024

def nineSlabs : BitVec 64 := 17 * 1024 * 1024

/-- Seven free slabs from a byte of the bitmap on, when the bytes before have no room. -/
theorem Inv.takes_seven (inv : Inv testConf w) {q s : Nat} (byte : s = 8 * q) (positive : 1 ≤ q)
    (below : q < 128) (marked : ∀ t < q, ∃ k, 8 * t ≤ k ∧ k < 8 * t + 7 ∧
      bitmapTest w.mem (testConf.base + usmmSlabBitmapOffset) k = true)
    (free : ∀ i, Window s 7 i → testConf.slabAddr i ∈ w.lists .free) :
    ∃ r₁, HeedingStep testConf .debug w (.heapAlloc sevenSlabs)
        ⟨r₁, ⟨testConf.slabAddr s + 4, sevenSlabs⟩ :: w.blocks, w.slices⟩ ∧
      Took testConf w.region r₁ s 7 (testConf.slabAddr s + 4) := by
  subst byte
  have same : heapNum sevenSlabs testConf.slab = (7 : Nat) := by decide
  have bound : ∀ i, Window (8 * q) 7 i → i < usmmSlabBitmapSize := by
    intro i inside
    have := inside.2
    simp only [usmmSlabBitmapSize]
    omega
  have picks : Picks w.mem (testConf.base + usmmSlabBitmapOffset) 7 testConf.slabCount (8 * q) :=
    picks_seven below marked fun k lower upper =>
      inv.unmarked testConf_roomy (bound k ⟨lower, upper⟩) (free k ⟨lower, upper⟩)
  have heeds : HeapHeeds testConf w sevenSlabs := by
    rw [HeapHeeds, if_pos (by decide), same]
    intro s picked i lower upper
    obtain rfl := picked.unique picks
    exact ⟨free i ⟨lower, upper⟩, bound i ⟨lower, upper⟩⟩
  have last := bound (8 * q + 6) ⟨by omega, by omega⟩
  obtain ⟨r₁, p, result, took⟩ :=
    inv.takes_window testConf_roomy .debug same (by decide) picks (by omega) (by omega)
  obtain rfl := took.ptr
  have held : hold w.blocks (testConf.slabAddr (8 * q) + 4) sevenSlabs =
      ⟨testConf.slabAddr (8 * q) + 4, sevenSlabs⟩ :: w.blocks := if_neg (Nat.succ_ne_zero _)
  refine ⟨r₁, ⟨⟨trivial, ?_⟩, heeds, trivial⟩, took⟩
  rw [perform, result, ← held]
  rfl

/-- The client writes `f 0, …, f (n - 1)` at `a`, inside a block it holds. -/
theorem run_writes {w₀ : World} {as : List Act} (before : Run (HeedingStep c b) w₀ as w) {x : Piece}
    (block : x ∈ w.blocks) {a n : Nat} (f : Nat → BitVec 8)
    (asked : ∀ i < n, x.ptr ≤ a + i ∧ a + i < x.ptr + x.size.toNat)
    (given : ∀ i < n, HeapBytes c x (a + i)) :
    Run (HeedingStep c b) w₀ (as ++ (List.range n).map fun i => .write (a + i) (f i))
      ⟨w.region.update (applyAll ((List.range n).map fun i => Write.u8 (a + i) (f i))),
        w.blocks, w.slices⟩ := by
  induction n with
  | zero =>
      rw [List.range_zero, List.map_nil, List.append_nil]
      exact before
  | succ n ih =>
      have earlier := ih (fun i below => asked i (by omega)) fun i below => given i (by omega)
      have writes : applyAll ((List.range (n + 1)).map fun i => Write.u8 (a + i) (f i)) = fun m =>
          setU8 (applyAll ((List.range n).map fun i => Write.u8 (a + i) (f i)) m) (a + n) (f n) := by
        funext m
        rw [List.range_succ, List.map_append, applyAll_append]
        rfl
      rw [List.range_succ, List.map_append, ← List.append_assoc, ← List.range_succ, writes]
      refine earlier.snoc ⟨⟨⟨x, List.mem_append_left _ block, asked n (by omega)⟩, rfl⟩, ?_, trivial⟩
      exact .inl ⟨x, block, given n (by omega)⟩

/-- The bytes of a list.h node at `a` that is alone in its ring. -/
def aloneByte (a i : Nat) : BitVec 8 := BitVec.ofNat 8 (a / 256 ^ (i % 8))

theorem aloneByte_word {m : Mem} {a : Nat} (small : a < 2 ^ 64) :
    let m' := applyAll ((List.range 16).map fun i => Write.u8 (a + i) (aloneByte a i)) m
    (u64 m' a).toNat = a ∧ (u64 m' (a + 8)).toNat = a := by
  intro m'
  have bytes : ∀ i < 16, m' (a + i) = aloneByte a i := fun i below => by
    rw [show m' = applyAll _ m from rfl, applyAll_copy, if_pos (by omega), Nat.add_sub_cancel_left]
  refine ⟨u64_of_bytes small fun i below => ?_, u64_of_bytes small fun i below => ?_⟩
  · rw [bytes i (by omega), aloneByte, Nat.mod_eq_of_lt below]
  · rw [Nat.add_assoc, bytes (8 + i) (by omega), aloneByte, Nat.add_mod_left, Nat.mod_eq_of_lt below]

/-- Two blocks of seven slabs, and the first is freed; the client of the second keeps an empty
list of its own in bytes 4 to 19 of its block. -/
def twoBlocks : List Act :=
  [.heapAlloc sevenSlabs] ++ [.heapAlloc sevenSlabs] ++ [.heapFree (testConf.slabAddr 8 + 4)] ++
    (List.range 16).map fun i =>
      .write (testConf.slabAddr 16 + 8 + i) (aloneByte (testConf.slabAddr 16 + 8) i)

/-- The second block. -/
def secondBlock : Piece := ⟨testConf.slabAddr 16 + 4, sevenSlabs⟩

theorem secondBlock_owns (k : Nat) : Owns testConf secondBlock k ↔ Window 16 7 k :=
  owns_of_start testConf_roomy (by decide)

theorem Inv.zero_marked (inv : Inv testConf w) :
    bitmapTest w.mem (testConf.base + usmmSlabBitmapOffset) 0 = true :=
  (inv.bits 0 (by decide)).mpr (.inl rfl)

/-- The three calls. -/
theorem exists_secondBlock : ∃ w r, Starts testConf w ∧
    Run (HeedingStep testConf .debug) w
      [.heapAlloc sevenSlabs, .heapAlloc sevenSlabs, .heapFree (testConf.slabAddr 8 + 4)]
      ⟨r, [secondBlock], w.slices⟩ := by
  obtain ⟨w, starts⟩ := exists_starts testConf_roomy
  have inv := starts_inv testConf_roomy starts
  obtain ⟨-, opened⟩ := starts.fresh testConf_roomy
  have free : ∀ i, 1 ≤ i → i < 1024 → testConf.slabAddr i ∈ w.lists .free := by
    intro i positive below
    have count : testConf.slabCount = 1024 := by decide
    rw [opened]
    exact mem_initLists.mpr ⟨rfl, i, positive, count ▸ below, rfl⟩
  -- the two blocks, in bytes 1 and 2 of the bitmap
  obtain ⟨r₁, first, took₁⟩ := @Inv.takes_seven w inv 1 8 rfl le_rfl (by decide)
    (fun t below => ⟨0, by omega, by omega, inv.zero_marked⟩)
    fun i inside => free i (by have := inside.1; omega) (by have := inside.2; omega)
  have run₁ := Run.single first
  have inv₁ := run_inv testConf_roomy starts run₁
  have owned₁ : Owns testConf ⟨testConf.slabAddr 8 + 4, sevenSlabs⟩ 8 :=
    (@owns_of_start testConf testConf_roomy 8 7 8 sevenSlabs (by decide)).mpr (by decide)
  obtain ⟨r₂, second, took₂⟩ := @Inv.takes_seven _ inv₁ 2 16 rfl (by decide) (by decide)
    (fun t below => by
      by_cases head : t = 0
      · exact ⟨0, by omega, by omega, inv₁.zero_marked⟩
      · refine ⟨8, by omega, by omega, (inv₁.bits 8 (by decide)).mpr (.inr (.inr ?_))⟩
        exact ⟨_, List.mem_cons_self, owned₁⟩)
    fun i inside => by
      have lower := inside.1
      have upper := inside.2
      refine took₁.moved.mpr ⟨free i (by omega) (by omega), fun j window place => ?_⟩
      have ne := testConf.slabAddr_injective (by decide) place
      have := window.2
      omega
  rw [starts.blocks] at second run₁
  -- the first of them is freed
  have third : HeedingStep testConf .debug ⟨r₂, [secondBlock,
      ⟨testConf.slabAddr 8 + 4, sevenSlabs⟩], w.slices⟩ (.heapFree (testConf.slabAddr 8 + 4))
      ⟨usmmHeapFree r₂ (testConf.slabAddr 8 + 4), [secondBlock], w.slices⟩ :=
    ⟨⟨⟨_, List.mem_cons_of_mem _ List.mem_cons_self, rfl⟩, rfl⟩, trivial, trivial⟩
  exact ⟨w, _, starts, (run₁.snoc second).snoc third⟩

/-- And the writes of the client of the second block. -/
theorem exists_twoBlocks : ∃ w w', Starts testConf w ∧
    Run (HeedingStep testConf .debug) w twoBlocks w' ∧ w'.blocks = [secondBlock] ∧
    Linked.Alone w'.region (testConf.slabAddr 16) := by
  obtain ⟨w, r, starts, run₃⟩ := exists_secondBlock
  have inv₃ := run_inv testConf_roomy starts run₃
  have size : sevenSlabs.toNat = 13631488 := by decide
  have place : secondBlock.ptr = testConf.slabAddr 16 + 4 := rfl
  have stop : testConf.slabAddr 16 + 24 ≤
      testConf.slabAddr (blockFirst testConf secondBlock + blockNum testConf secondBlock) := by decide
  have run₄ := run_writes run₃ (List.mem_singleton_self secondBlock)
    (aloneByte (testConf.slabAddr 16 + 8)) (a := testConf.slabAddr 16 + 8) (n := 16)
    (fun i below => by rw [place, show secondBlock.size.toNat = 13631488 from size]; omega)
    fun i below => ⟨by rw [place]; omega, by omega⟩
  have unlisted := (inv₃.blocks _ List.mem_cons_self).unlisted 16 ((secondBlock_owns 16).mpr (by decide))
  obtain ⟨next, prev⟩ := aloneByte_word (m := r.mem)
    (show testConf.slabAddr 16 + 8 < 2 ^ 64 by decide)
  exact ⟨w, _, starts, run₄, rfl, unlisted, next, prev⟩

/-- Byte 2 of the bitmap has its first seven bits taken and its last clear: nine slabs are found
from byte 1 on. -/
theorem Inv.picks_into (inv : Inv testConf w) (blocks : w.blocks = [secondBlock]) :
    Picks w.mem (testConf.base + usmmSlabBitmapOffset) 9 (1024 : Nat) 8 := by
  have unset : ∀ k, 1 ≤ k → k < 1024 → ¬ Window 16 7 k →
      bitmapTest w.mem (testConf.base + usmmSlabBitmapOffset) k = false := by
    intro k positive below outside
    refine Bool.eq_false_iff.mpr fun marked => ?_
    rcases (inv.bits k (by simp only [usmmSlabBitmapSize]; omega)).mp marked with
      null | beyond | ⟨x, block, owned⟩
    · omega
    · exact absurd (show (1024 : Nat) ≤ k from beyond) (by omega)
    · rw [blocks] at block
      obtain rfl := List.mem_singleton.mp block
      exact outside ((secondBlock_owns k).mp owned)
  refine picks_nine inv.zero_marked (fun k lower upper => ?_) (unset 23 (by decide) (by decide) (by decide))
  exact unset k (by omega) (by omega) fun inside => by
    have := inside.1
    omega

/-- A heap call or a write of the client; a request comes to two slabs at least. -/
def HeapCall (c : UsmmConf) : Act → Prop
  | .heapAlloc size => 2 ≤ slabsFor c size
  | .heapFree _ | .write _ _ => True
  | _ => False

theorem twoBlocks_calls : ∀ a ∈ twoBlocks, HeapCall testConf a := by
  have seven : 2 ≤ slabsFor testConf sevenSlabs := by decide
  intro a member
  rw [twoBlocks, List.mem_append] at member
  rcases member with calls | writes
  · simp only [List.cons_append, List.nil_append, List.mem_cons, List.not_mem_nil, or_false] at calls
    rcases calls with rfl | rfl | rfl
    · exact seven
    · exact seven
    · trivial
  · obtain ⟨i, -, rfl⟩ := List.mem_map.mp writes
    trivial

/-- `list_del` finds its way from each of the nine slabs: they are free, or slab 16. -/
theorem Inv.soundLinks (inv : Inv testConf w) (blocks : w.blocks = [secondBlock])
    (alone : Linked.Alone w.region (testConf.slabAddr 16)) {i : Nat} (inside : Window 8 9 i) :
    Linked.SoundLinks w.region (testConf.slabAddr i) := by
  obtain ⟨lower, upper⟩ := inside
  by_cases last : i = 16
  · subst last
    exact .inr alone
  · refine .inl ((inv.cover i (by omega) (show i < 1024 by omega)).resolve_right ?_)
    rintro ⟨x, member, owned⟩
    rw [blocks] at member
    obtain rfl := List.mem_singleton.mp member
    have := ((secondBlock_owns i).mp owned).1
    omega

/-- Nine slabs are given from byte 1 on, and the release frees slab 16, which belongs to the second
block.  With the lists in memory the calls do the same: the links that `list_del` follows from
slab 16 lead back to it. -/
theorem free_takes_block_slab : ∃ (w w' : World) (v : Linked.World) (r₁ : Region) (m₁ : Mem) (p : Nat),
    Starts testConf w ∧ Run (Step .debug) w twoBlocks w' ∧ (∀ a ∈ twoBlocks, HeapCall testConf a) ∧
    2 ≤ slabsFor testConf nineSlabs ∧ usmmHeapAlloc .debug w'.region nineSlabs = .ok (r₁, p) ∧ p ≠ 0 ∧
    ¬ HeapUndone testConf w'.region r₁ r₁.mem (usmmHeapFree r₁ p) ∧
    Run (fun v a v' => Linked.perform .debug v a = .ok v') (Linked.openWorld testConf w.mem) twoBlocks v ∧
    Linked.Rep testConf [] w'.region v.mem ∧
    Linked.usmmHeapAlloc .debug v.mem testConf.base nineSlabs = .ok (m₁, p) ∧
    Linked.Rep testConf [] r₁ m₁ ∧
    Linked.Rep testConf [] (usmmHeapFree r₁ p) (Linked.usmmHeapFree m₁ testConf.base p) := by
  obtain ⟨w, w', starts, run, blocks, alone⟩ := exists_twoBlocks
  have inv := run_inv testConf_roomy starts run
  have picks := inv.picks_into blocks
  have nine : heapNum nineSlabs testConf.slab = (9 : Nat) := by decide
  obtain ⟨r₁, p, result, took⟩ :=
    inv.takes_window testConf_roomy .debug nine (by decide) picks (by decide) (by decide)
  have held : secondBlock ∈ w'.blocks := blocks ▸ List.mem_singleton_self _
  have taken := (inv.blocks _ held).unlisted 16 ((secondBlock_owns 16).mpr (by decide)) .free
  have spoiled := inv.not_undone testConf_roomy nine took (by decide) (show Window 8 9 16 by decide) taken
  -- the same with the lists in memory
  obtain ⟨v, linked, us, -, -, rep⟩ := Linked.linked_run testConf_roomy Linked.testConf_mapped starts run
  have passed : assert .debug (decide (1 < heapNum nineSlabs testConf.slab)) .rangeGtOne = .ok () := by decide
  have answer : heapAnswer testConf w'.mem nineSlabs = (8 : Nat) := (heapAnswer_eq_iff nine (by decide)).mpr picks
  have made : heapTake w'.region 8 (9 : Nat) = (r₁, p) := by
    have call := usmmHeapAlloc_answered testConf_roomy inv.us inv.control passed answer
    rw [nine, result] at call
    exact (Except.ok.inj call).symm
  obtain ⟨m₁, result', rep₁⟩ := rep.takesWindow testConf_roomy inv Linked.testConf_mapped passed answer nine
    (by decide) (by decide) (by decide) (by decide) (fun i inside => inv.soundLinks blocks alone inside) made
  refine ⟨w, w', v, r₁, m₁, p, starts, run.mono fun _ _ _ step => step.1, twoBlocks_calls, by decide, result,
    by rw [took.ptr]; decide, spoiled, linked, rep, result', rep₁, ?_⟩
  exact rep₁.usmmHeapFree testConf_roomy took.placed (took.blockOk testConf_roomy nine (by decide))

end Itaro.Usmm
