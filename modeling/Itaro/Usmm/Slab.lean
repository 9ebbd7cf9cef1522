/-
# Usmm.Slab -- usmm_slab.c: one slab and the slices cut from it

A slab begins with its header; `usmm_slab_create` cuts the rest into slices of
one size and links them into a free list inside themselves, `usmm_slab_alloc`
takes the first and `usmm_slab_free` puts one back.

`Sliced` is the invariant: the header counts the live slices, and the chain from
`free_slice` together with the live slices is a permutation of the grid of all
slices.  `total` is an `int`, cut from a 64-bit quotient; `slabTotal` is what it
ends up as, which for large slabs of small slices is not the quotient.
-/
import Itaro.Theory.Chain
import Itaro.Theory.Writes
import Itaro.Usmm.Bitmap
import Itaro.Usmm.Layout

namespace Itaro.Usmm

set_option autoImplicit false

open Theory

/-! ## The functions -/

/-- `INIT_LIST_HEAD` -/
def initListHead (list : Nat) : List Write :=
  [.u64 list (BitVec.ofNat 64 list), .u64 (list + 8) (BitVec.ofNat 64 list)]

/-- The writes of `usmm_slab_init`. -/
def usmmSlabInitWrites (slab : Nat) : List Write :=
  .u64 slab gsSlabMagic :: initListHead (slab + 8) ++
    [.u64 (slab + 24) 0, .u64 (slab + 32) 0, .u32 (slab + 40) 0, .u32 (slab + 44) 0,
      .u64 (slab + 48) 0]

def usmmSlabInit (m : Mem) (slab : Nat) : Mem := applyAll (usmmSlabInitWrites slab) m

/-- `memset(slab, 0, sizeof(*slab))` -/
def usmmSlabFini (m : Mem) (slab : Nat) : Mem := fill m slab slabHeaderSize 0#8

/-- `slice->next = slab->free_slice; slab->free_slice = slice;` -/
def pushSlice (m : Mem) (slab slice : Nat) : Mem :=
  setU64 (setU64 m slice (slabAt m slab).freeSlice) (slab + 48) (BitVec.ofNat 64 slice)

/-- `(size - sizeof(*slab)) / slice`, stored in an `int` -/
def slabTotal (size slice : BitVec 64) : BitVec 32 :=
  ((size - BitVec.ofNat 64 slabHeaderSize) / slice).setWidth 32

/-- The header fields `usmm_slab_create` sets before it links the slices. -/
def createHeader (m : Mem) (slab : Nat) (size slice : BitVec 64) : Mem :=
  let m := setU64 m (slab + 48) 0
  let m := setU64 m (slab + 24) size
  let m := setU64 m (slab + 32) slice
  setU32 m (slab + 40) (slabTotal size slice)

/-- The first `count` turns of the loop of `usmm_slab_create`. -/
def linkSlices (m : Mem) (slab count : Nat) : Mem :=
  (List.range count).foldl
    (fun m i => pushSlice m slab (slab + slabHeaderSize + i * (slabAt m slab).slice.toNat)) m

def usmmSlabCreate (m : Mem) (slab : Nat) (size slice : BitVec 64) : Mem :=
  let m := createHeader m slab size slice
  linkSlices m slab (slabAt m slab).total.toInt.toNat

/-- The memory afterwards and the slice, 0 for `NULL`. -/
def usmmSlabAlloc (m : Mem) (slab : Nat) : Mem × Nat :=
  let slice := (slabAt m slab).freeSlice
  if slice ≠ 0 then
    let m := setU64 m (slab + 48) (u64 m slice.toNat)
    (setU32 m (slab + 44) ((slabAt m slab).used + 1), slice.toNat)
  else (m, 0)

def usmmSlabFree (b : Build) (m : Mem) (slab ptr : Nat) : Except Fault Mem :=
  if ptr = 0 then .ok m
  else if (slabAt m slab).used = 0 then do
    assert b false .usedNeZero
    return m
  else
    let m := pushSlice m slab ptr
    .ok (setU32 m (slab + 44) ((slabAt m slab).used - 1))

namespace UsmmSlab

/-- `usmm_slab_isempty` -/
def isempty (slab : UsmmSlab) : Bool := slab.used == 0

/-- `usmm_slab_isfull` -/
def isfull (slab : UsmmSlab) : Bool := slab.used == slab.total && slab.used != 0

end UsmmSlab

/-! ## Headers -/

/-- The header of a slab without a format. -/
def UsmmSlab.unformatted : UsmmSlab := ⟨0, 0, 0, 0, 0⟩

section Headers

variable (m : Mem) (s : Nat)

theorem usmmSlabInitWrites_within {w : Write} (member : w ∈ usmmSlabInitWrites s) (x : Nat)
    (covers : w.Covers x) : Span s slabHeaderSize x := by
  simp only [usmmSlabInitWrites, initListHead, List.cons_append, List.nil_append, List.mem_cons,
    List.not_mem_nil, or_false] at member
  rcases member with rfl | rfl | rfl | rfl | rfl | rfl | rfl | rfl <;>
    simp only [Write.Covers, Write.u64, Write.u32, Span, slabHeaderSize] at covers ⊢ <;> omega

theorem usmmSlabInit_changesOnly : ChangesOnly (Span s slabHeaderSize) m (usmmSlabInit m s) :=
  applyAll_changesOnly (fun _ member => usmmSlabInitWrites_within s member) m

/-- `usmm_slab_init`, one store after another. -/
theorem usmmSlabInit_eq : usmmSlabInit m s =
    setU64 (setU32 (setU32 (setU64 (setU64 (setU64 (setU64 (setU64 m s gsSlabMagic)
      (s + 8) (BitVec.ofNat 64 (s + 8))) (s + 8 + 8) (BitVec.ofNat 64 (s + 8)))
      (s + 24) 0) (s + 32) 0) (s + 40) 0) (s + 44) 0) (s + 48) 0 := rfl

theorem slabAt_usmmSlabInit : slabAt (usmmSlabInit m s) s = .unformatted := by
  rw [usmmSlabInit_eq, slabAt_setFreeSlice, slabAt_setUsed, slabAt_setTotal, slabAt_setSlice,
    slabAt_setSize]
  rfl

theorem usmmSlabFini_changesOnly : ChangesOnly (Span s slabHeaderSize) m (usmmSlabFini m s) :=
  fill_changesOnly m s slabHeaderSize 0#8

theorem pushSlice_changesOnly (p : Nat) :
    ChangesOnly (fun x => Span (s + 48) 8 x ∨ Span p 8 x) m (pushSlice m s p) :=
  ((setU64_changesOnly m p _).mono fun _ => .inr).trans
    ((setU64_changesOnly _ (s + 48) _).mono fun _ => .inl)

theorem slabAt_pushSlice {p : Nat} (beyond : s + slabHeaderSize ≤ p) :
    slabAt (pushSlice m s p) s = { slabAt m s with freeSlice := BitVec.ofNat 64 p } := by
  have frame : slabAt (setU64 m p (slabAt m s).freeSlice) s = slabAt m s :=
    slabAt_of_changesOnly (setU64_changesOnly m p _) fun x _ upper inside => by
      simp only [Span, slabHeaderSize] at inside beyond
      omega
  rw [pushSlice, slabAt_setFreeSlice, frame]

theorem slabAt_createHeader (size slice : BitVec 64) :
    slabAt (createHeader m s size slice) s =
      ⟨size, slice, slabTotal size slice, (slabAt m s).used, 0⟩ := by
  simp only [createHeader, slabAt_setTotal, slabAt_setSlice, slabAt_setSize, slabAt_setFreeSlice]

theorem createHeader_changesOnly (size slice : BitVec 64) :
    ChangesOnly (Span s slabHeaderSize) m (createHeader m s size slice) := by
  have within : ∀ off w, off + w ≤ 56 → ∀ x, Span (s + off) w x → Span s slabHeaderSize x := by
    intro off w inside x span
    simp only [Span, slabHeaderSize] at span ⊢
    omega
  exact (((setU64_changesOnly m _ _).mono (within 48 8 (by omega))).trans
    ((setU64_changesOnly _ _ _).mono (within 24 8 (by omega)))).trans
    (((setU64_changesOnly _ _ _).mono (within 32 8 (by omega))).trans
    ((setU32_changesOnly _ _ _).mono (within 40 4 (by omega))))

end Headers

/-! ## The free list and the live slices -/

/-- The addresses `usmm_slab_create` cuts. -/
def sliceGrid (slab slice : Nat) (total : BitVec 32) : List Nat :=
  grid (slab + slabHeaderSize) slice total.toInt.toNat

/-- **The slab invariant.**  The header counts the live slices, and what is not
live is on the free list, once. -/
structure Sliced (m : Mem) (slab slice : Nat) (total : BitVec 32) (live : List Nat) : Prop where
  sliceEq : (slabAt m slab).slice = BitVec.ofNat 64 slice
  totalEq : (slabAt m slab).total = total
  usedEq : (slabAt m slab).used = BitVec.ofNat 32 live.length
  chain : ∃ free, Chain m (slabAt m slab).freeSlice.toNat free ∧
    (free ++ live).Perm (sliceGrid slab slice total)

/-- Slices hold a pointer, and the last of them ends below the end of memory. -/
structure SliceRoom (slab slice : Nat) (total : BitVec 32) : Prop where
  pointer : 8 ≤ slice
  narrow : slice < 2 ^ 64
  room : slab + slabHeaderSize + total.toInt.toNat * slice ≤ 2 ^ 64

theorem toInt_toNat_lt (total : BitVec 32) : total.toInt.toNat < 2 ^ 31 := by
  have := BitVec.toInt_lt (x := total)
  omega

namespace Sliced

variable {m m' : Mem} {s slice : Nat} {total : BitVec 32} {live : List Nat}

section Facts

variable (sliced : Sliced m s slice total live)
include sliced

theorem mem_grid {p : Nat} (member : p ∈ live) : p ∈ sliceGrid s slice total := by
  obtain ⟨free, -, perm⟩ := sliced.chain
  exact perm.mem_iff.mp (List.mem_append_right free member)

theorem nodup (room : SliceRoom s slice total) : live.Nodup := by
  obtain ⟨free, -, perm⟩ := sliced.chain
  have all := perm.nodup_iff.mpr (grid_nodup (by have := room.pointer; omega))
  exact (List.nodup_append.mp all).2.1

theorem length_le : live.length ≤ total.toInt.toNat := by
  obtain ⟨free, -, perm⟩ := sliced.chain
  have length := perm.length_eq
  rw [List.length_append, sliceGrid, grid_length] at length
  omega

theorem used_toNat : (slabAt m s).used.toNat = live.length := by
  have bound := sliced.length_le
  have small := toInt_toNat_lt total
  rw [sliced.usedEq, BitVec.toNat_ofNat, Nat.mod_eq_of_lt (by omega)]

/-- Changes outside the header and outside the free slices. -/
theorem of_changesOnly {F : Nat → Prop} (changes : ChangesOnly F m m')
    (header : ∀ x, s + 24 ≤ x → x < s + 56 → ¬ F x)
    (free : ∀ p ∈ sliceGrid s slice total, p ∉ live → ∀ x, p ≤ x → x < p + 8 → ¬ F x)
    (room : SliceRoom s slice total) : Sliced m' s slice total live := by
  have same : slabAt m' s = slabAt m s := slabAt_of_changesOnly changes header
  obtain ⟨nodes, chain, perm⟩ := sliced.chain
  have apart := (List.nodup_append.mp
    (perm.nodup_iff.mpr (grid_nodup (by have := room.pointer; omega)))).2.2
  have rest : Chain m' (slabAt m s).freeSlice.toNat nodes :=
    chain.of_changesOnly changes fun p member =>
      free p (perm.mem_iff.mp (List.mem_append_left live member))
        fun alive => apart p member p alive rfl
  constructor
  · rw [same]; exact sliced.sliceEq
  · rw [same]; exact sliced.totalEq
  · rw [same]; exact sliced.usedEq
  · rw [same]; exact ⟨nodes, rest, perm⟩

/-- Changes inside a live slice. -/
theorem of_client {p : Nat} (alive : p ∈ live) (changes : ChangesOnly (Span p slice) m m')
    (room : SliceRoom s slice total) : Sliced m' s slice total live := by
  have member := sliced.mem_grid alive
  have bounds := grid_bounds member
  refine sliced.of_changesOnly changes (fun x low high span => ?_)
    (fun q free dead x low high span => ?_) room
  · simp only [Span] at span
    simp only [slabHeaderSize] at bounds
    omega
  · have ne : q ≠ p := fun same => dead (same ▸ alive)
    have pointer := room.pointer
    simp only [Span] at span
    rcases grid_apart free member ne with before | after <;> omega

end Facts

end Sliced

/-! ## usmm_slab_create -/

theorem linkSlices_succ (m : Mem) (s count : Nat) : linkSlices m s (count + 1) =
    pushSlice (linkSlices m s count) s (s + slabHeaderSize +
      count * (slabAt (linkSlices m s count) s).slice.toNat) := by
  simp only [linkSlices, List.range_succ, List.foldl_append, List.foldl_cons, List.foldl_nil]

/-- After `i` turns the first `i` slices are on the list, the last of them first. -/
theorem linkSlices_spec {m : Mem} {s slice : Nat} {total : BitVec 32}
    (room : SliceRoom s slice total) (sliceEq : (slabAt m s).slice = BitVec.ofNat 64 slice)
    (start : (slabAt m s).freeSlice = 0) (i : Nat) (bound : i ≤ total.toInt.toNat) :
    ∃ first, ChangesOnly (Span s (slabHeaderSize + i * slice)) m (linkSlices m s i) ∧
      slabAt (linkSlices m s i) s = { slabAt m s with freeSlice := first } ∧
      Chain (linkSlices m s i) first.toNat (grid (s + slabHeaderSize) slice i).reverse := by
  induction i with
  | zero =>
      refine ⟨0, .refl _ _, ?_, rfl⟩
      rw [← start]
      rfl
  | succ i ih =>
      obtain ⟨first, frame, header, chain⟩ := ih (by omega)
      have pointer := room.pointer
      have narrow := room.narrow
      have whole := Nat.mul_le_mul_right slice bound
      rw [Nat.succ_mul] at whole
      have sum := room.room
      have width : (slabAt (linkSlices m s i) s).slice.toNat = slice := by
        rw [header]
        show (slabAt m s).slice.toNat = slice
        rw [sliceEq, BitVec.toNat_ofNat, Nat.mod_eq_of_lt narrow]
      rw [linkSlices_succ, width]
      generalize linkSlices m s i = m₁ at frame header chain
      generalize node : s + slabHeaderSize + i * slice = p
      refine ⟨BitVec.ofNat 64 p, ?_, ?_, ?_⟩
      · rw [Nat.succ_mul]
        refine (frame.mono fun x span => ?_).trans
          ((pushSlice_changesOnly m₁ s p).mono fun x span => ?_)
        · simp only [Span] at span ⊢; omega
        · simp only [Span, slabHeaderSize] at span node ⊢; omega
      · rw [slabAt_pushSlice m₁ s (by omega), header]
      · rw [grid_succ, List.reverse_append, List.reverse_cons, List.reverse_nil, List.nil_append,
          node, BitVec.toNat_ofNat, Nat.mod_eq_of_lt (by omega)]
        have linked := chain.push (a := p) (by simp only [slabHeaderSize] at node; omega)
          first.isLt fun b member => by
            have bounds := grid_bounds (List.mem_reverse.mp member)
            omega
        rw [pushSlice, header]
        dsimp only
        rw [BitVec.ofNat_toNat, BitVec.setWidth_eq] at linked
        refine linked.of_changesOnly (setU64_changesOnly _ (s + 48) _) fun b member x lower _ => ?_
        have bounds : s + slabHeaderSize ≤ b := by
          rcases List.mem_cons.mp member with rfl | member
          · omega
          · exact (grid_bounds (List.mem_reverse.mp member)).1
        simp only [Span, slabHeaderSize] at bounds ⊢
        omega

section Operations

variable {m : Mem} {s slice : Nat} {total : BitVec 32} {live : List Nat}

/-- A slab without a format, formatted: every slice is free. -/
theorem usmmSlabCreate_spec {size width : BitVec 64} (fresh : slabAt m s = .unformatted)
    (room : SliceRoom s width.toNat (slabTotal size width)) :
    let m' := usmmSlabCreate m s size width
    Sliced m' s width.toNat (slabTotal size width) [] ∧
      ChangesOnly
        (Span s (slabHeaderSize + (slabTotal size width).toInt.toNat * width.toNat)) m m' := by
  intro m'
  have header := slabAt_createHeader m s size width
  have own : slabAt (createHeader m s size width) s =
      ⟨size, width, slabTotal size width, 0, 0⟩ := by rw [header, fresh]; rfl
  have sliceEq : (slabAt (createHeader m s size width) s).slice =
      BitVec.ofNat 64 width.toNat := by
    rw [own, BitVec.ofNat_toNat, BitVec.setWidth_eq]
  obtain ⟨first, frame, header', chain⟩ :=
    linkSlices_spec room sliceEq (by rw [own]) _ le_rfl
  have unfolded : m' = linkSlices (createHeader m s size width) s
      (slabTotal size width).toInt.toNat := by
    simp only [m', usmmSlabCreate, own]
  rw [← unfolded] at frame header' chain
  rw [own] at header'
  refine ⟨⟨?_, ?_, ?_, (sliceGrid s width.toNat (slabTotal size width)).reverse, ?_, ?_⟩, ?_⟩
  · rw [header', BitVec.ofNat_toNat, BitVec.setWidth_eq]
  · rw [header']
  · rw [header']; rfl
  · rw [header']; exact chain
  · rw [List.append_nil]; exact List.reverse_perm _
  · refine ((createHeader_changesOnly m s size width).mono fun x span => ?_).trans frame
    simp only [Span] at span ⊢
    omega

/-! ## Taking a slice and putting it back -/

section Headers

variable {p : Nat}

/-- The slice is the first of the free list, and the next one follows. -/
theorem slabAt_usmmSlabAlloc (some : (slabAt m s).freeSlice ≠ 0) :
    (usmmSlabAlloc m s).2 = (slabAt m s).freeSlice.toNat ∧
      slabAt (usmmSlabAlloc m s).1 s = { slabAt m s with
        used := (slabAt m s).used + 1
        freeSlice := u64 m (slabAt m s).freeSlice.toNat } := by
  have result : usmmSlabAlloc m s =
      (setU32 (setU64 m (s + 48) (u64 m (slabAt m s).freeSlice.toNat)) (s + 44)
        ((slabAt (setU64 m (s + 48) (u64 m (slabAt m s).freeSlice.toNat)) s).used + 1),
        (slabAt m s).freeSlice.toNat) := by
    simp only [usmmSlabAlloc, if_pos some]
  rw [result]
  exact ⟨rfl, by rw [slabAt_setUsed, slabAt_setFreeSlice]⟩

/-- The memory after a slice is put back. -/
def freedMem (m : Mem) (s p : Nat) : Mem :=
  setU32 (pushSlice m s p) (s + 44) ((slabAt (pushSlice m s p) s).used - 1)

theorem usmmSlabFree_eq (b : Build) (nonzero : p ≠ 0) (some : (slabAt m s).used ≠ 0) :
    usmmSlabFree b m s p = .ok (freedMem m s p) := by
  simp only [usmmSlabFree, if_neg nonzero, if_neg some, freedMem]

/-- The slice is the first of the free list, and points to what was. -/
theorem slabAt_freedMem (beyond : s + slabHeaderSize ≤ p) :
    slabAt (freedMem m s p) s = { slabAt m s with
      used := (slabAt m s).used - 1
      freeSlice := BitVec.ofNat 64 p } ∧
      u64 (freedMem m s p) p = (slabAt m s).freeSlice := by
  simp only [slabHeaderSize] at beyond
  refine ⟨?_, ?_⟩
  · rw [freedMem, slabAt_setUsed, slabAt_pushSlice m s beyond]
  · rw [freedMem, u64_setU32_of_disjoint _ _ (.inr (by omega)), pushSlice,
      u64_setU64_of_disjoint _ _ (.inr (by omega)), u64_setU64]

theorem freedMem_changesOnly :
    ChangesOnly (fun x => Span (s + 44) 12 x ∨ Span p 8 x) m (freedMem m s p) := by
  refine ((pushSlice_changesOnly m s p).mono fun x span => ?_).trans
    ((setU32_changesOnly _ (s + 44) _).mono fun x span => ?_)
  · simp only [Span] at span ⊢; omega
  · simp only [Span] at span ⊢; omega

end Headers

/-- The slice `usmm_slab_alloc` returns was free; it returns NULL iff none is. -/
theorem usmmSlabAlloc_spec (sliced : Sliced m s slice total live)
    (room : SliceRoom s slice total) :
    let taken := usmmSlabAlloc m s
    ChangesOnly (Span (s + 44) 12) m taken.1 ∧
      ((taken.2 = 0 ∧ taken.1 = m ∧ live.length = total.toInt.toNat) ∨
        (taken.2 ≠ 0 ∧ taken.2 ∈ sliceGrid s slice total ∧ taken.2 ∉ live ∧
          Sliced taken.1 s slice total (taken.2 :: live))) := by
  intro taken
  obtain ⟨free, chain, perm⟩ := sliced.chain
  have length := perm.length_eq
  rw [List.length_append, sliceGrid, grid_length] at length
  cases free with
  | nil =>
      have empty : (slabAt m s).freeSlice = 0 := BitVec.eq_of_toNat_eq chain
      have unchanged : taken = (m, 0) := by
        show usmmSlabAlloc m s = _
        simp only [usmmSlabAlloc, empty, ne_eq, not_true_eq_false, if_false]
      rw [unchanged]
      exact ⟨.refl _ _, .inl ⟨rfl, rfl, by simpa using length⟩⟩
  | cons p free =>
      obtain ⟨pointer, nonzero, rest⟩ := chain
      have some : (slabAt m s).freeSlice ≠ 0 := by
        intro zero
        rw [zero] at pointer
        exact nonzero pointer.symm
      obtain ⟨second, header⟩ := slabAt_usmmSlabAlloc some
      rw [pointer] at second header
      have frame : ChangesOnly (Span (s + 44) 12) m taken.1 := by
        show ChangesOnly _ m (usmmSlabAlloc m s).1
        simp only [usmmSlabAlloc, if_pos some]
        refine ((setU64_changesOnly m _ _).mono fun x span => ?_).trans
          ((setU32_changesOnly _ _ _).mono fun x span => ?_) <;>
        · simp only [Span] at span ⊢; omega
      have all := perm.nodup_iff.mpr (grid_nodup (by have := room.pointer; omega))
      have fresh : p ∉ live := fun alive =>
        (List.nodup_append.mp all).2.2 p List.mem_cons_self p alive rfl
      have member : p ∈ sliceGrid s slice total :=
        perm.mem_iff.mp (List.mem_append_left live List.mem_cons_self)
      rw [show taken.2 = p from second]
      refine ⟨frame, .inr ⟨nonzero, member, fresh, ⟨?_, ?_, ?_, free, ?_, ?_⟩⟩⟩
      · rw [header]; exact sliced.sliceEq
      · rw [header]; exact sliced.totalEq
      · rw [header]
        dsimp only
        rw [sliced.usedEq, List.length_cons, BitVec.ofNat_add]
        rfl
      · rw [header]
        refine rest.of_changesOnly frame fun a inside x lower _ => ?_
        have bounds := grid_bounds (perm.mem_iff.mp
          (List.mem_append_left live (List.mem_cons_of_mem p inside)))
        simp only [Span, slabHeaderSize] at bounds ⊢
        omega
      · exact List.perm_middle.trans perm

/-- A live slice goes back to the front of the free list, and no assertion fails. -/
theorem usmmSlabFree_spec (b : Build) (sliced : Sliced m s slice total live)
    (room : SliceRoom s slice total) {p : Nat} (alive : p ∈ live) :
    ∃ m', usmmSlabFree b m s p = .ok m' ∧ Sliced m' s slice total (live.erase p) ∧
      ChangesOnly (fun x => Span (s + 44) 12 x ∨ Span p 8 x) m m' := by
  have bounds := grid_bounds (sliced.mem_grid alive)
  have pointer := room.pointer
  have sum := room.room
  have nonzero : p ≠ 0 := by simp only [slabHeaderSize] at bounds; omega
  have positive : 0 < live.length := List.length_pos_of_mem alive
  have some : (slabAt m s).used ≠ 0 := by
    intro zero
    have count := sliced.used_toNat
    rw [zero] at count
    exact absurd count (by simp; omega)
  obtain ⟨header, -⟩ := slabAt_freedMem (m := m) bounds.1
  refine ⟨freedMem m s p, usmmSlabFree_eq b nonzero some, ?_, freedMem_changesOnly⟩
  obtain ⟨free, chain, perm⟩ := sliced.chain
  have all := perm.nodup_iff.mpr (grid_nodup (by omega))
  refine ⟨?_, ?_, ?_, p :: free, ?_, ?_⟩
  · rw [header]; exact sliced.sliceEq
  · rw [header]; exact sliced.totalEq
  · rw [header]
    dsimp only
    rw [sliced.usedEq, List.length_erase_of_mem alive]
    obtain ⟨n, length⟩ : ∃ n, live.length = n + 1 := ⟨live.length - 1, by omega⟩
    rw [length, Nat.add_sub_cancel, BitVec.ofNat_add]
    exact BitVec.add_sub_cancel _ _
  · rw [header]
    dsimp only
    rw [BitVec.toNat_ofNat, Nat.mod_eq_of_lt (by omega)]
    have linked := chain.push nonzero (slabAt m s).freeSlice.isLt fun b inside => by
      have apart := grid_apart (perm.mem_iff.mp (List.mem_append_left live inside))
        (sliced.mem_grid alive)
        ((List.nodup_append.mp all).2.2 b inside p alive)
      omega
    rw [BitVec.ofNat_toNat, BitVec.setWidth_eq] at linked
    refine (linked.of_changesOnly (setU64_changesOnly _ (s + 48) _)
      fun a member x lower _ => ?_).of_changesOnly (setU32_changesOnly _ (s + 44) _)
      fun a member x lower _ => ?_
    all_goals
      have above : s + slabHeaderSize ≤ a := by
        rcases List.mem_cons.mp member with rfl | member
        · exact bounds.1
        · exact (grid_bounds (perm.mem_iff.mp (List.mem_append_left live member))).1
      simp only [Span, slabHeaderSize] at above ⊢
      omega
  · refine (List.perm_middle.symm.trans ?_).trans perm
    exact (List.Perm.refl free).append (List.perm_cons_erase alive).symm

/-- **A slice put back right after it was taken.**  The header is as it was and the
free list visits the same slices, whatever the client wrote in between. -/
theorem usmmSlabFree_undoes (b : Build) (sliced : Sliced m s slice total live)
    (room : SliceRoom s slice total) {p : Nat} (given : p ≠ 0) {F : Nat → Prop} {m₁ m₂ m₃ : Mem}
    (taken : usmmSlabAlloc m s = (m₁, p)) (changes : ChangesOnly F m₁ m₂)
    (header : ∀ x, s + 24 ≤ x → x < s + 56 → ¬ F x)
    (others : ∀ q ∈ sliceGrid s slice total, q ≠ p → ∀ x, q ≤ x → x < q + 8 → ¬ F x)
    (freed : usmmSlabFree b m₂ s p = .ok m₃) :
    slabAt m₃ s = slabAt m s ∧ ∃ free, Chain m (slabAt m s).freeSlice.toNat free ∧
      Chain m₃ (slabAt m s).freeSlice.toNat free ∧ ∀ q ∈ free, q ∈ sliceGrid s slice total := by
  have pointer := room.pointer
  obtain ⟨free, chain, perm⟩ := sliced.chain
  have outcome := (usmmSlabAlloc_spec sliced room).2
  have frame := (usmmSlabAlloc_spec sliced room).1
  rw [taken] at outcome frame
  rcases outcome with ⟨null, -⟩ | ⟨-, member, -, sliced₁⟩
  · exact absurd null given
  -- the slice was the first of the free list
  have some : (slabAt m s).freeSlice ≠ 0 := by
    intro zero
    rw [usmmSlabAlloc, if_neg (not_not_intro zero)] at taken
    exact given (Prod.mk.inj taken).2.symm
  obtain ⟨first, popped⟩ := slabAt_usmmSlabAlloc some
  rw [taken] at first popped
  have word₁ : BitVec.ofNat 64 p = (slabAt m s).freeSlice := by
    rw [show p = _ from first, BitVec.ofNat_toNat, BitVec.setWidth_eq]
  have bounds := grid_bounds member
  simp only [slabHeaderSize] at bounds
  have kept : slabAt m₂ s = slabAt m₁ s := slabAt_of_changesOnly changes header
  have used : (slabAt m₂ s).used ≠ 0 := by
    intro zero
    have count := sliced₁.used_toNat
    rw [← kept, zero, List.length_cons] at count
    exact absurd count (by simp)
  rw [usmmSlabFree_eq b given used] at freed
  obtain rfl := Except.ok.inj freed
  obtain ⟨pushed, word⟩ := slabAt_freedMem (m := m₂) bounds.1
  rw [kept, popped] at pushed word
  refine ⟨?_, free, chain, chain.congr fun a inside => ?_, fun q inside =>
    perm.mem_iff.mp (List.mem_append_left live inside)⟩
  · rw [pushed, word₁]
    simp only [BitVec.add_sub_cancel]
  · by_cases same : a = p
    · subst same
      exact word.trans (congrArg (u64 m) (Eq.symm first))
    · have inGrid := perm.mem_iff.mp (List.mem_append_left live inside)
      have above := (grid_bounds inGrid).1
      have apart := grid_apart inGrid member same
      simp only [slabHeaderSize] at above
      rw [freedMem_changesOnly.u64 fun x lower upper span => ?_,
        changes.u64 fun x lower upper => others a inGrid same x lower upper,
        frame.u64 fun x lower upper span => ?_]
      all_goals
        simp only [Span] at span
        omega

end Operations

end Itaro.Usmm
