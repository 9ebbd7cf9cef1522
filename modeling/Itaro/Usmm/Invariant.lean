/-
# Usmm.Invariant -- what holds in every state of a heeding client

`Inv` ties the four records of ownership together: the lists, the slab headers,
the client's slices and its heap blocks.  A slab on `free_slabs` has no format
and no live slice; a slab on a class list or on `full_slabs` is cut into slices
of a class, and its free list and its live slices make up the grid (`Sliced`); a
slab of a block is on no list; and every slab but the first is one or the other.
The bitmap marks the slabs of blocks and what is not a slab to hand out.

An operation changes the first slab and a few others, so the invariant is
re-established from what it did to those: `Inv.update` is the one lemma every
step goes through, and `Inv.updateOne` its form for a single slab.
-/
import Itaro.Usmm.World

namespace Itaro.Usmm

set_option autoImplicit false

open Theory

/-! ## The invariant -/

/-- `ptr` lies in slab `s`. -/
def InSlab (c : UsmmConf) (s ptr : Nat) : Prop := s ≤ ptr ∧ ptr < s + c.slabSize

instance (c : UsmmConf) (s ptr : Nat) : Decidable (InSlab c s ptr) :=
  inferInstanceAs (Decidable (_ ∧ _))

/-- The live slices of slab `s`. -/
def livePtrs (c : UsmmConf) (slices : List Piece) (s : Nat) : List Nat :=
  (slices.filter fun x => InSlab c s x.ptr).map Piece.ptr

/-- The `total` of a slab formatted for class `k`. -/
def classTotal (c : UsmmConf) (k : Nat) : BitVec 32 :=
  slabTotal c.slab (BitVec.ofNat 64 (sliceSize k))

/-- Slab `s` is cut into slices of class `k`, of which `live` are taken. -/
def Formatted (c : UsmmConf) (m : Mem) (s k : Nat) (live : List Nat) : Prop :=
  k < usmmSlabArrayMax ∧ Sliced m s (sliceSize k) (classTotal c k) live

/-- What the list a slab is on says about it. -/
def SlabOk (c : UsmmConf) (m : Mem) (s : Nat) (live : List Nat) : Head → Prop
  | .free => slabAt m s = .unformatted ∧ live = []
  | .cls k => Formatted c m s k live
  | .full => ∃ k, Formatted c m s k live

/-- A live slice lies in a listed slab cut for the class of its size. -/
def SliceOk (c : UsmmConf) (m : Mem) (lists : Queues Head Nat) (x : Piece) : Prop :=
  ∃ i h k, 1 ≤ i ∧ i < c.slabCount ∧ c.slabAddr i ∈ lists h ∧ InSlab c (c.slabAddr i) x.ptr ∧
    k < usmmSlabArrayMax ∧ usmmSlabFind (x.size.setWidth 32) = some (k, sliceSize k) ∧
    (slabAt m (c.slabAddr i)).slice = BitVec.ofNat 64 (sliceSize k)

/-- A live block begins with its length, and its slabs are on no list. -/
structure BlockOk (c : UsmmConf) (m : Mem) (lists : Queues Head Nat) (x : Piece) : Prop where
  ptr : x.ptr = c.slabAddr (blockFirst c x) + 4
  first : 1 ≤ blockFirst c x
  some : 1 ≤ blockNum c x
  last : blockFirst c x + blockNum c x ≤ c.slabCount
  bits : blockFirst c x + blockNum c x ≤ usmmSlabBitmapSize
  length : (u32 m (c.slabAddr (blockFirst c x))).toInt = blockNum c x
  unlisted : ∀ i, Owns c x i → ∀ h, c.slabAddr i ∉ lists h

structure Inv (c : UsmmConf) (w : World) : Prop where
  us : w.region.us = c.base
  control : Control c w.mem
  bits : ∀ k < usmmSlabBitmapSize, bitmapTest w.mem (c.base + usmmSlabBitmapOffset) k = true ↔
    k = 0 ∨ c.slabCount ≤ k ∨ ∃ x ∈ w.blocks, Owns c x k
  placed : w.lists.Placed
  slabs : ∀ {h s}, s ∈ w.lists h → ∃ i, 1 ≤ i ∧ i < c.slabCount ∧ s = c.slabAddr i
  ok : ∀ {h s}, s ∈ w.lists h → SlabOk c w.mem s (livePtrs c w.slices s) h
  slices : ∀ x ∈ w.slices, SliceOk c w.mem w.lists x
  blocks : ∀ x ∈ w.blocks, BlockOk c w.mem w.lists x
  apart : w.blocks.Pairwise fun x y => ∀ i, Owns c x i → ¬ Owns c y i
  cover : ∀ i, 1 ≤ i → i < c.slabCount →
    (∃ h, c.slabAddr i ∈ w.lists h) ∨ ∃ x ∈ w.blocks, Owns c x i

/-! ## Footprints of operations -/

/-- How far into the first slab an operation writes: the counters and statistics,
or all that follows the control block. -/
inductive Reach
  | stats
  | control

def Reach.stop (c : UsmmConf) : Reach → Nat
  | .stats => usmmSlotsOffset
  | .control => c.slabSize

/-- The part of the first slab an operation may write, and the slabs in `T`. -/
def OpSpan (c : UsmmConf) (reach : Reach) (T : Nat → Prop) (x : Nat) : Prop :=
  (c.base + 104 ≤ x ∧ x < c.base + reach.stop c) ∨
    ∃ i, T i ∧ 1 ≤ i ∧ Span (c.slabAddr i) c.slabSize x

section Footprints

variable {c : UsmmConf} {reach : Reach} {T : Nat → Prop} {m m' : Mem}

theorem Reach.stop_le (roomy : c.Roomy) (reach : Reach) : reach.stop c ≤ c.slabSize := by
  have large := roomy.large
  cases reach with
  | stats =>
      simp only [Reach.stop, usmmSlotsOffset]
      omega
  | control => exact le_rfl

theorem Reach.le_stop (roomy : c.Roomy) (reach : Reach) : usmmSlotsOffset ≤ reach.stop c := by
  have large := roomy.large
  cases reach with
  | stats => exact le_rfl
  | control =>
      simp only [Reach.stop, usmmSlotsOffset]
      omega

theorem Control.of_opSpan (roomy : c.Roomy) (control : Control c m)
    (changes : ChangesOnly (OpSpan c reach T) m m') : Control c m' := by
  have large := roomy.large
  refine control.of_changesOnly changes fun x _ below inside => ?_
  rcases inside with first | ⟨i, -, positive, span⟩
  · omega
  · have := c.slabAddr_ge positive
    simp only [Span] at span
    omega

/-- A slab not in `T` keeps its bytes. -/
theorem not_opSpan (roomy : c.Roomy) {j x : Nat} (positive : 1 ≤ j) (other : ¬ T j)
    (span : Span (c.slabAddr j) c.slabSize x) : ¬ OpSpan c reach T x := by
  have lower := c.slabAddr_ge positive
  have stop := reach.stop_le roomy
  simp only [Span] at span
  rintro (first | ⟨i, member, -, inside⟩)
  · omega
  · simp only [Span] at inside
    have ne : i ≠ j := fun same => other (same ▸ member)
    rcases c.slabAddr_apart ne with before | after <;> omega

theorem slabAt_of_opSpan (roomy : c.Roomy) (changes : ChangesOnly (OpSpan c reach T) m m') {j : Nat}
    (positive : 1 ≤ j) (other : ¬ T j) : slabAt m' (c.slabAddr j) = slabAt m (c.slabAddr j) := by
  have large := roomy.large
  exact slabAt_of_changesOnly changes fun x lower upper =>
    not_opSpan roomy positive other ⟨by omega, by omega⟩

theorem u32_of_opSpan (roomy : c.Roomy) (changes : ChangesOnly (OpSpan c reach T) m m') {j : Nat}
    (positive : 1 ≤ j) (other : ¬ T j) : u32 m' (c.slabAddr j) = u32 m (c.slabAddr j) := by
  have large := roomy.large
  exact changes.u32 fun x lower upper => not_opSpan roomy positive other ⟨lower, by omega⟩

/-- An operation that writes nothing past the statistics leaves the bitmap alone. -/
theorem bits_of_opSpan (roomy : c.Roomy) (changes : ChangesOnly (OpSpan c .stats T) m m') {k : Nat}
    (below : k < usmmSlabBitmapSize) :
    bitmapTest m' (c.base + usmmSlabBitmapOffset) k =
      bitmapTest m (c.base + usmmSlabBitmapOffset) k := by
  have large := roomy.large
  simp only [usmmSlabBitmapSize] at below
  refine bitmapTest_of_changesOnly changes ?_
  simp only [usmmSlabBitmapOffset]
  rintro (first | ⟨i, -, positive, span⟩)
  · simp only [Reach.stop, usmmSlotsOffset] at first
    omega
  · have lower := c.slabAddr_ge positive
    simp only [Span] at span
    omega

end Footprints

/-! ## Room for slices -/

section Room

variable {c : UsmmConf}

/-- The quotient `usmm_slab_create` computes, before it is cut to an `int`. -/
def slicesPerSlab (c : UsmmConf) (k : Nat) : Nat := (c.slabSize - slabHeaderSize) / sliceSize k

theorem classTotal_toNat (roomy : c.Roomy) {k : Nat} (bound : k < usmmSlabArrayMax) :
    (classTotal c k).toNat = slicesPerSlab c k % 2 ^ 32 := by
  have large := roomy.large
  obtain ⟨lower, upper, -⟩ := sliceSize_bounds k bound
  have width : (BitVec.ofNat 64 (sliceSize k)).toNat = sliceSize k := u64_ofNat_toNat (by omega)
  have header : (BitVec.ofNat 64 slabHeaderSize).toNat = slabHeaderSize := rfl
  have below : BitVec.ofNat 64 slabHeaderSize ≤ c.slab := by
    rw [BitVec.le_def, header]
    show slabHeaderSize ≤ c.slabSize
    simp only [slabHeaderSize]
    omega
  rw [classTotal, slabTotal, BitVec.toNat_setWidth, BitVec.toNat_udiv, width,
    BitVec.toNat_sub_of_le below, header]
  rfl

/-- The slices of a class fit behind the header of a slab. -/
theorem classTotal_room (roomy : c.Roomy) {k : Nat} (bound : k < usmmSlabArrayMax) :
    slabHeaderSize + (classTotal c k).toInt.toNat * sliceSize k ≤ c.slabSize := by
  have large := roomy.large
  have total : (classTotal c k).toInt.toNat ≤ slicesPerSlab c k := by
    have cut := Nat.mod_le (slicesPerSlab c k) (2 ^ 32)
    rw [← classTotal_toNat roomy bound] at cut
    have signed : (classTotal c k).toInt ≤ (classTotal c k).toNat := by
      rw [BitVec.toInt_eq_toNat_cond]
      split <;> omega
    omega
  have product := Nat.mul_le_mul_right (sliceSize k) total
  have whole := Nat.div_mul_le_self (c.slabSize - slabHeaderSize) (sliceSize k)
  have header : slabHeaderSize ≤ c.slabSize := by simp only [slabHeaderSize]; omega
  rw [slicesPerSlab] at product
  omega

theorem sliceRoom (roomy : c.Roomy) {i k : Nat} (below : i < c.slabCount)
    (bound : k < usmmSlabArrayMax) :
    SliceRoom (c.slabAddr i) (sliceSize k) (classTotal c k) := by
  obtain ⟨lower, upper, -⟩ := sliceSize_bounds k bound
  have inside := classTotal_room roomy bound
  have last := c.slabAddr_end below
  have room := roomy.room
  exact ⟨lower, by omega, by omega⟩

/-- A slice of slab `i` lies in slab `i`, behind the header. -/
theorem slice_bounds (roomy : c.Roomy) {i k p : Nat} (bound : k < usmmSlabArrayMax)
    (member : p ∈ sliceGrid (c.slabAddr i) (sliceSize k) (classTotal c k)) :
    c.slabAddr i + slabHeaderSize ≤ p ∧ p + sliceSize k ≤ c.slabAddr i + c.slabSize := by
  have inside := classTotal_room roomy bound
  have bounds := grid_bounds member
  exact ⟨bounds.1, by omega⟩

section Kept

variable {reach : Reach} {T : Nat → Prop} {m m' : Mem} {live : List Nat} {j : Nat}
  (roomy : c.Roomy) (changes : ChangesOnly (OpSpan c reach T) m m') (positive : 1 ≤ j)
  (below : j < c.slabCount) (other : ¬ T j)
include roomy changes positive below other

/-- A slab not in `T` keeps its format and its free list. -/
theorem Formatted.of_opSpan {k : Nat} (formatted : Formatted c m (c.slabAddr j) k live) :
    Formatted c m' (c.slabAddr j) k live := by
  have large := roomy.large
  obtain ⟨bound, sliced⟩ := formatted
  refine ⟨bound, sliced.of_changesOnly changes (fun x lower upper => ?_)
    (fun p member _ x lower upper => ?_) (sliceRoom roomy below bound)⟩
  · exact not_opSpan roomy positive other ⟨by omega, by omega⟩
  · have inside := slice_bounds roomy bound member
    have wide := (sliceSize_bounds k bound).1
    exact not_opSpan roomy positive other ⟨by omega, by omega⟩

theorem SlabOk.of_opSpan {h : Head} (ok : SlabOk c m (c.slabAddr j) live h) :
    SlabOk c m' (c.slabAddr j) live h := by
  cases h with
  | free => exact ⟨(slabAt_of_opSpan roomy changes positive other).trans ok.1, ok.2⟩
  | cls k => exact Formatted.of_opSpan roomy changes positive below other ok
  | full =>
      obtain ⟨k, formatted⟩ := ok
      exact ⟨k, formatted.of_opSpan roomy changes positive below other⟩

end Kept

end Room

/-! ## Live slices, slab by slab -/

section Live

variable {c : UsmmConf}

theorem InSlab.unique {i j p : Nat} (first : InSlab c (c.slabAddr i) p)
    (second : InSlab c (c.slabAddr j) p) : i = j := by
  by_contra ne
  simp only [InSlab] at first second
  rcases c.slabAddr_apart ne with before | after <;> omega

theorem mem_livePtrs {slices : List Piece} {s p : Nat} :
    p ∈ livePtrs c slices s ↔ InSlab c s p ∧ ∃ x ∈ slices, x.ptr = p := by
  simp only [livePtrs, List.mem_map, List.mem_filter, decide_eq_true_eq]
  constructor
  · rintro ⟨x, ⟨member, inside⟩, rfl⟩
    exact ⟨inside, x, member, rfl⟩
  · rintro ⟨inside, x, member, rfl⟩
    exact ⟨x, ⟨member, inside⟩, rfl⟩

theorem livePtrs_cons (x : Piece) (slices : List Piece) (s : Nat) :
    livePtrs c (x :: slices) s =
      if InSlab c s x.ptr then x.ptr :: livePtrs c slices s else livePtrs c slices s := by
  by_cases inside : InSlab c s x.ptr
  · rw [if_pos inside, livePtrs, List.filter_cons_of_pos (by simpa using inside)]
    rfl
  · rw [if_neg inside, livePtrs, List.filter_cons_of_neg (by simpa using inside)]
    rfl

theorem livePtrs_hold_inside {slices : List Piece} {s p : Nat} {size : BitVec 64}
    (nonzero : p ≠ 0) (inside : InSlab c s p) :
    livePtrs c (hold slices p size) s = p :: livePtrs c slices s := by
  rw [hold, if_neg nonzero, livePtrs_cons, if_pos inside]

theorem livePtrs_hold_outside {slices : List Piece} {s p : Nat} {size : BitVec 64}
    (outside : p ≠ 0 → ¬ InSlab c s p) :
    livePtrs c (hold slices p size) s = livePtrs c slices s := by
  by_cases zero : p = 0
  · rw [hold, if_pos zero]
  · rw [hold, if_neg zero, livePtrs_cons, if_neg (outside zero)]

theorem drop_cons (x : Piece) (slices : List Piece) (p : Nat) :
    drop (x :: slices) p = if x.ptr = p then slices else x :: drop slices p := by
  by_cases same : x.ptr = p
  · rw [if_pos same, drop, List.eraseP_cons_of_pos (by simpa using same)]
  · rw [if_neg same, drop, List.eraseP_cons_of_neg (by simpa using same), drop]

/-- A piece that is dropped is no live slice of its slab any more, -/
theorem livePtrs_drop (slices : List Piece) (s p : Nat) :
    livePtrs c (drop slices p) s = (livePtrs c slices s).erase p := by
  induction slices with
  | nil => rfl
  | cons x slices ih =>
      rw [drop_cons, livePtrs_cons]
      by_cases same : x.ptr = p
      · rw [if_pos same, same]
        split
        · rw [List.erase_cons_head]
        · rename_i outside
          rw [List.erase_of_not_mem fun member => outside (mem_livePtrs.mp member).1]
      · rw [if_neg same, livePtrs_cons, ih]
        split
        · rw [List.erase_cons_tail (by simpa using same)]
        · rfl

/-- and the other slabs have the same ones. -/
theorem livePtrs_drop_outside {slices : List Piece} {s p : Nat} (outside : ¬ InSlab c s p) :
    livePtrs c (drop slices p) s = livePtrs c slices s := by
  rw [livePtrs_drop, List.erase_of_not_mem fun member => outside (mem_livePtrs.mp member).1]

/-- The `slice` word of a header determines the class. -/
theorem sliceWord_injective {j k : Nat} (jBound : j < usmmSlabArrayMax)
    (kBound : k < usmmSlabArrayMax)
    (same : BitVec.ofNat 64 (sliceSize j) = BitVec.ofNat 64 (sliceSize k)) : j = k := by
  have jSmall := (sliceSize_bounds j jBound).2.1
  have kSmall := (sliceSize_bounds k kBound).2.1
  have sizes := congrArg BitVec.toNat same
  rw [u64_ofNat_toNat (by omega), u64_ofNat_toNat (by omega)] at sizes
  exact sliceSize_injective jBound kBound sizes

/-- The slab of a live slice: its list, its class and the slice among its live ones. -/
theorem Inv.home {w : World} (inv : Inv c w) {x : Piece} (held : x ∈ w.slices) :
    ∃ j h k, 1 ≤ j ∧ j < c.slabCount ∧ c.slabAddr j ∈ w.lists h ∧ (h = .cls k ∨ h = .full) ∧
      InSlab c (c.slabAddr j) x.ptr ∧ x.ptr ∈ livePtrs c w.slices (c.slabAddr j) ∧
      Formatted c w.mem (c.slabAddr j) k (livePtrs c w.slices (c.slabAddr j)) ∧
      usmmSlabFind (x.size.setWidth 32) = some (k, sliceSize k) := by
  obtain ⟨j, h, k, positive, below, listed, inside, bound, found, format⟩ := inv.slices x held
  have live : x.ptr ∈ livePtrs c w.slices (c.slabAddr j) := mem_livePtrs.mpr ⟨inside, x, held, rfl⟩
  have ok := inv.ok listed
  have same : ∀ {k'}, Formatted c w.mem (c.slabAddr j) k' (livePtrs c w.slices (c.slabAddr j)) →
      k' = k := fun formatted => sliceWord_injective formatted.1 bound
    (formatted.2.sliceEq.symm.trans format)
  cases h with
  | free =>
      rw [ok.2] at live
      exact absurd live List.not_mem_nil
  | cls k' =>
      obtain rfl := same ok
      exact ⟨j, _, k', positive, below, listed, .inl rfl, inside, live, ok, found⟩
  | full =>
      obtain ⟨k', ok⟩ := ok
      obtain rfl := same ok
      exact ⟨j, _, k', positive, below, listed, .inr rfl, inside, live, ok, found⟩

end Live

/-! ## Re-establishing the invariant -/

section Update

variable {c : UsmmConf} {w w' : World} {reach : Reach} {T : Nat → Prop}

theorem SliceOk.of_opSpan {x : Piece} (roomy : c.Roomy) (ok : SliceOk c w.mem w.lists x)
    (changes : ChangesOnly (OpSpan c reach T) w.mem w'.mem)
    (others : ∀ i, ¬ T i → ∀ h, c.slabAddr i ∈ w'.lists h ↔ c.slabAddr i ∈ w.lists h)
    (outside : ∀ i, T i → ¬ InSlab c (c.slabAddr i) x.ptr) : SliceOk c w'.mem w'.lists x := by
  obtain ⟨i, h, k, positive, below, listed, inside, bound, found, format⟩ := ok
  have other : ¬ T i := fun member => outside i member inside
  refine ⟨i, h, k, positive, below, (others i other h).mpr listed, inside, bound, found, ?_⟩
  rw [slabAt_of_opSpan roomy changes positive other]
  exact format

theorem BlockOk.of_opSpan {x : Piece} (roomy : c.Roomy) (ok : BlockOk c w.mem w.lists x)
    (changes : ChangesOnly (OpSpan c reach T) w.mem w'.mem)
    (others : ∀ i, ¬ T i → ∀ h, c.slabAddr i ∈ w'.lists h ↔ c.slabAddr i ∈ w.lists h)
    (outside : ∀ i, Owns c x i → ¬ T i) : BlockOk c w'.mem w'.lists x := by
  have some := ok.some
  have first : ¬ T (blockFirst c x) := outside _ ⟨le_rfl, by omega⟩
  refine ⟨ok.ptr, ok.first, ok.some, ok.last, ok.bits, ?_, fun i owns h listed => ?_⟩
  · rw [u32_of_opSpan roomy changes ok.first first]
    exact ok.length
  · exact ok.unlisted i owns h ((others i (outside i owns) h).mp listed)

/-- **The invariant after an operation**, from what it did to the slabs in `T`. -/
theorem Inv.update (roomy : c.Roomy) (inv : Inv c w) (us : w'.region.us = c.base)
    (changes : ChangesOnly (OpSpan c reach T) w.mem w'.mem)
    (bits : ∀ k < usmmSlabBitmapSize, bitmapTest w'.mem (c.base + usmmSlabBitmapOffset) k = true ↔
      k = 0 ∨ c.slabCount ≤ k ∨ ∃ x ∈ w'.blocks, Owns c x k)
    (placed : w'.lists.Placed)
    (slabs : ∀ {h s}, s ∈ w'.lists h → ∃ i, 1 ≤ i ∧ i < c.slabCount ∧ s = c.slabAddr i)
    (others : ∀ i, ¬ T i → ∀ h, c.slabAddr i ∈ w'.lists h ↔ c.slabAddr i ∈ w.lists h)
    (live : ∀ i, ¬ T i →
      livePtrs c w'.slices (c.slabAddr i) = livePtrs c w.slices (c.slabAddr i))
    (here : ∀ i, T i → 1 ≤ i → i < c.slabCount → ∀ {h}, c.slabAddr i ∈ w'.lists h →
      SlabOk c w'.mem (c.slabAddr i) (livePtrs c w'.slices (c.slabAddr i)) h)
    (slices : ∀ x ∈ w'.slices, SliceOk c w'.mem w'.lists x ∨
      x ∈ w.slices ∧ ∀ i, T i → ¬ InSlab c (c.slabAddr i) x.ptr)
    (blocks : ∀ x ∈ w'.blocks, BlockOk c w'.mem w'.lists x ∨
      x ∈ w.blocks ∧ ∀ i, Owns c x i → ¬ T i)
    (apart : w'.blocks.Pairwise fun x y => ∀ i, Owns c x i → ¬ Owns c y i)
    (cover : ∀ i, 1 ≤ i → i < c.slabCount →
      (∃ h, c.slabAddr i ∈ w'.lists h) ∨ ∃ x ∈ w'.blocks, Owns c x i) : Inv c w' where
  us := us
  control := inv.control.of_opSpan roomy changes
  bits := bits
  placed := placed
  slabs := slabs
  ok := by
    intro h s member
    obtain ⟨i, positive, below, rfl⟩ := slabs member
    by_cases touched : T i
    · exact here i touched positive below member
    · rw [live i touched]
      exact SlabOk.of_opSpan roomy changes positive below touched
        (inv.ok ((others i touched h).mp member))
  slices x member := by
    rcases slices x member with ok | ⟨old, outside⟩
    · exact ok
    · exact (inv.slices x old).of_opSpan roomy changes others outside
  blocks x member := by
    rcases blocks x member with ok | ⟨old, outside⟩
    · exact ok
    · exact (inv.blocks x old).of_opSpan roomy changes others outside
  apart := apart
  cover := cover

/-- The same for an operation on one listed slab, which ends up on one list. -/
theorem Inv.updateOne (roomy : c.Roomy) (inv : Inv c w) (h₁ : Head) {j : Nat} {h₀ : Head}
    (positive : 1 ≤ j) (below : j < c.slabCount) (listed : c.slabAddr j ∈ w.lists h₀)
    (us : w'.region.us = c.base) (blocks : w'.blocks = w.blocks)
    (changes : ChangesOnly (OpSpan c .stats (· = j)) w.mem w'.mem)
    (moves : Queues.Moves w.lists w'.lists (c.slabAddr j) h₁)
    (live : ∀ i, i ≠ j →
      livePtrs c w'.slices (c.slabAddr i) = livePtrs c w.slices (c.slabAddr i))
    (here : SlabOk c w'.mem (c.slabAddr j) (livePtrs c w'.slices (c.slabAddr j)) h₁)
    (slices : ∀ x ∈ w'.slices, SliceOk c w'.mem w'.lists x ∨
      x ∈ w.slices ∧ ¬ InSlab c (c.slabAddr j) x.ptr) : Inv c w' := by
  have large := roomy.large
  have distinct : ∀ {i}, i ≠ j → c.slabAddr i ≠ c.slabAddr j := fun ne same =>
    ne (c.slabAddr_injective (by omega) same)
  refine inv.update roomy us changes (fun k bound => ?_) moves.placed (fun {h s} member => ?_)
    (fun i ne h => ?_) live
    (fun i same _ _ h member => ?_) (fun x member => ?_) (fun x member => ?_) ?_
    (fun i iPos iBelow => ?_)
  · rw [bits_of_opSpan roomy changes bound, blocks]
    exact inv.bits k bound
  · rcases moves.mem.mp member with ⟨rfl, -⟩ | ⟨-, old⟩
    · exact ⟨j, positive, below, rfl⟩
    · exact inv.slabs old
  · rw [moves.mem]
    constructor
    · rintro (⟨same, -⟩ | ⟨-, old⟩)
      · exact absurd same (distinct ne)
      · exact old
    · exact fun old => .inr ⟨distinct ne, old⟩
  · subst same
    rcases moves.mem.mp member with ⟨-, rfl⟩ | ⟨other, -⟩
    · exact here
    · exact absurd rfl other
  · rcases slices x member with ok | ⟨old, outside⟩
    · exact .inl ok
    · exact .inr ⟨old, fun i same => same ▸ outside⟩
  · rw [blocks] at member
    refine .inr ⟨member, fun i owns same => ?_⟩
    exact (inv.blocks x member).unlisted i owns h₀ (same ▸ listed)
  · rw [blocks]
    exact inv.apart
  · by_cases same : i = j
    · exact .inl ⟨h₁, same ▸ moves.listed⟩
    · rcases inv.cover i iPos iBelow with ⟨h, old⟩ | ⟨x, member, owns⟩
      · exact .inl ⟨h, moves.mem.mpr (.inr ⟨distinct same, old⟩)⟩
      · exact .inr ⟨x, by rw [blocks]; exact member, owns⟩

/-- The same for an operation on the first slab alone. -/
theorem Inv.updateNone (roomy : c.Roomy) (inv : Inv c w) (us : w'.region.us = c.base)
    (changes : ChangesOnly (OpSpan c reach fun _ => False) w.mem w'.mem)
    (bits : ∀ k < usmmSlabBitmapSize, bitmapTest w'.mem (c.base + usmmSlabBitmapOffset) k =
      bitmapTest w.mem (c.base + usmmSlabBitmapOffset) k)
    (lists : w'.lists = w.lists) (blocks : w'.blocks = w.blocks) (slices : w'.slices = w.slices) :
    Inv c w' := by
  refine inv.update roomy us changes (fun k bound => ?_) (lists ▸ inv.placed)
    (fun member => inv.slabs (lists ▸ member)) (fun i _ h => by rw [lists]) (fun i _ => by rw [slices]) (fun i none => none.elim)
    (fun x member => .inr ⟨slices ▸ member, fun i none => none.elim⟩)
    (fun x member => .inr ⟨blocks ▸ member, fun i _ none => none⟩) (blocks ▸ inv.apart) ?_
  · rw [bits k bound, blocks]
    exact inv.bits k bound
  · rw [lists, blocks]
    exact inv.cover

end Update

/-! ## The start -/

theorem mem_initLists {c : UsmmConf} {h : Head} {s : Nat} :
    s ∈ initLists c h ↔ h = .free ∧ ∃ i, 1 ≤ i ∧ i < c.slabCount ∧ s = c.slabAddr i := by
  cases h with
  | free =>
      simp only [initLists, List.mem_map, List.mem_range'_1, true_and]
      constructor
      · rintro ⟨i, inside, rfl⟩
        exact ⟨i, by omega, by omega, rfl⟩
      · rintro ⟨i, positive, below, rfl⟩
        exact ⟨i, by omega, rfl⟩
  | full => simp [initLists]
  | cls k => simp [initLists]

theorem starts_inv {c : UsmmConf} {w : World} (roomy : c.Roomy) (starts : Starts c w) :
    Inv c w := by
  have large := roomy.large
  obtain ⟨fresh, opened⟩ := starts.fresh roomy
  generalize w.mem = m at fresh opened
  subst opened
  refine ⟨rfl, fresh.control, fun k bound => ?_, ⟨fun h => ?_, fun {h h' s} first second => ?_⟩, fun member => ?_,
    fun {h s} member => ?_, fun x member => absurd member List.not_mem_nil,
    fun x member => absurd member List.not_mem_nil, .nil, fun i positive below => ?_⟩
  · show bitmapTest m _ k = true ↔ _
    rw [fresh.bits k bound, decide_eq_true_iff]
    constructor
    · rintro (zero | beyond)
      · exact .inl zero
      · exact .inr (.inl beyond)
    · rintro (zero | beyond | ⟨x, member, -⟩)
      · exact .inl zero
      · exact .inr beyond
      · exact absurd member List.not_mem_nil
  · cases h with
    | free =>
        exact List.Nodup.map (fun i j same => c.slabAddr_injective (by omega) same)
          List.nodup_range'
    | full => exact List.nodup_nil
    | cls k => exact List.nodup_nil
  · rw [(mem_initLists.mp first).1, (mem_initLists.mp second).1]
  · exact (mem_initLists.mp member).2
  · obtain ⟨rfl, i, positive, below, rfl⟩ := mem_initLists.mp member
    exact ⟨fresh.headers i positive below, rfl⟩
  · exact .inl ⟨.free, mem_initLists.mpr ⟨rfl, i, positive, below, rfl⟩⟩

end Itaro.Usmm
