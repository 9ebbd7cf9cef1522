/-
# Usmm.Layout -- usmm.h and usmm_slab.h: what lies where

Structures are read from memory at the offsets a 64-bit compiler gives them.

`usmm_t` (144 bytes, at the start of the region):

    0 magic[32]   32 conf.addr   40 conf.length   48 conf.slab   56 conf.fd
    64 slab_bitmap   72 slots   80 slab_num   88 slabs   96 stat_slices
    104 stat_free_slabs   108 stat_full_slabs   112 free_slabs   128 full_slabs

`usmm_slab_t` (56 bytes, at the start of every slab but the first):

    0 magic[8]   8 node   24 size   32 slice   40 total   44 used   48 free_slice

`usmm_slice_stat_t` (24 bytes): 0 ops, 8 used, 16 slabs, 20 full.

`usmm_slot_t` (16 bytes): 0 slot_id, 8 ptr.

`slab_num` is never used, and neither is `slot_id` nor the `fd` of a mapped
region.
-/
import Itaro.Theory.Align
import Itaro.Theory.Memory

namespace Itaro.Usmm

set_option autoImplicit false

open Theory

/-! ## Configuration -/

/-- `usmm_conf_t`, with the four bytes of padding at its end. -/
structure UsmmConf where
  addr : BitVec 64
  length : BitVec 64
  slab : BitVec 64
  fd : BitVec 32
  pad : BitVec 32
  deriving DecidableEq, Repr

namespace UsmmConf

variable (c : UsmmConf)

/-- The region starts where it is mapped, at `conf->addr`. -/
abbrev base : Nat := c.addr.toNat

abbrev slabSize : Nat := c.slab.toNat

/-- `conf->length / conf->slab` -/
def slabCount : Nat := (c.length / c.slab).toNat

theorem slabCount_eq : c.slabCount = c.length.toNat / c.slabSize := BitVec.toNat_udiv

/-- The bytes `mmap` maps: `conf->length`, up to the end of its last page. -/
def mapLength : Nat := (c.length.toNat + 4095) / 4096 * 4096

/-- The address of slab `i`. -/
def slabAddr (i : Nat) : Nat := c.base + i * c.slabSize

/-- The control structures fit in the first slab, there is a first slab, an `int`
counts the slabs, and the region ends before the address space does. -/
structure Roomy : Prop where
  large : 2 * 1024 * 1024 ≤ c.slabSize
  nonempty : c.slabSize ≤ c.length.toNat
  counted : c.slabCount < 2 ^ 31
  room : c.base + c.length.toNat < 2 ^ 64

/-- The first slab and the control structures are in the mapping, and an `int`
counts the slabs. -/
structure Completes : Prop where
  first : c.slabSize ≤ c.mapLength
  structures : 2 * 1024 * 1024 ≤ c.mapLength
  counted : c.slabCount < 2 ^ 31

variable {c}

theorem length_le_mapLength : c.length.toNat ≤ c.mapLength := by
  rw [mapLength]
  omega

theorem slabAddr_zero : c.slabAddr 0 = c.base := by rw [slabAddr, Nat.zero_mul, Nat.add_zero]

theorem slabAddr_succ (i : Nat) : c.slabAddr (i + 1) = c.slabAddr i + c.slabSize := by
  rw [slabAddr, slabAddr, Nat.succ_mul, Nat.add_assoc]

theorem slabAddr_mono {i j : Nat} (below : i < j) : c.slabAddr i + c.slabSize ≤ c.slabAddr j := by
  rw [← slabAddr_succ]
  exact Nat.add_le_add_left (Nat.mul_le_mul_right c.slabSize below) c.base

theorem slabAddr_ge {i : Nat} (positive : 1 ≤ i) : c.base + c.slabSize ≤ c.slabAddr i := by
  have step := slabAddr_mono (c := c) positive
  rwa [slabAddr_zero] at step

theorem slabAddr_end {i : Nat} (below : i < c.slabCount) :
    c.slabAddr i + c.slabSize ≤ c.base + c.length.toNat := by
  rw [slabCount_eq] at below
  have whole := Nat.mul_le_mul_right c.slabSize (Nat.succ_le_of_lt below)
  have divided := Nat.div_mul_le_self c.length.toNat c.slabSize
  rw [← slabAddr_succ, slabAddr]
  exact Nat.add_le_add_left (whole.trans divided) c.base

theorem slabAddr_apart {i j : Nat} (ne : i ≠ j) :
    c.slabAddr i + c.slabSize ≤ c.slabAddr j ∨ c.slabAddr j + c.slabSize ≤ c.slabAddr i := by
  rcases Nat.lt_or_gt_of_ne ne with below | above
  · exact .inl (slabAddr_mono below)
  · exact .inr (slabAddr_mono above)

theorem slabAddr_injective (positive : 0 < c.slabSize) {i j : Nat}
    (same : c.slabAddr i = c.slabAddr j) : i = j := by
  by_contra ne
  rcases slabAddr_apart (c := c) ne with before | after <;> omega

theorem Roomy.one_le_slabCount (roomy : c.Roomy) : 1 ≤ c.slabCount := by
  have large := roomy.large
  rw [slabCount_eq]
  exact Nat.div_pos roomy.nonempty (by omega)

/-- The structures do not reach the end of the address space. -/
theorem Roomy.offset_lt (roomy : c.Roomy) {n : Nat} (inside : n < 2 * 1024 * 1024) :
    c.base + n < 2 ^ 64 := by
  have large := roomy.large
  have nonempty := roomy.nonempty
  have room := roomy.room
  omega

theorem Roomy.completes (roomy : c.Roomy) : c.Completes := by
  have first := roomy.nonempty.trans length_le_mapLength
  exact ⟨first, roomy.large.trans first, roomy.counted⟩

end UsmmConf

/-- The configuration of usmm_test.c: 2 GB in slabs of 2 MB. -/
def testConf : UsmmConf where
  addr := 0x00003AAA00000000
  length := 0x0000000080000000
  slab := 2 * 1024 * 1024
  fd := 3
  pad := 0

theorem testConf_roomy : testConf.Roomy := ⟨by decide, by decide, by decide, by decide⟩

/-- A `size_t` passed as an `int`. -/
def intOfSize (n : BitVec 64) : Int := (n.setWidth 32).toInt

theorem intOfSize_of_lt {n : BitVec 64} (small : n.toNat < 2 ^ 31) : intOfSize n = n.toNat := by
  have width : (n.setWidth 32).toNat = n.toNat := by
    rw [BitVec.toNat_setWidth]
    exact Nat.mod_eq_of_lt (by omega)
  rw [intOfSize, BitVec.toInt_eq_toNat_of_lt (by omega), width]

/-- The slab header `usmm_slice_free` computes from a pointer: rounded up to the
slab size, one slab back. -/
def ownerSlab (ptr slab : BitVec 64) : BitVec 64 := alignUp ptr slab - slab

/-! ## Offsets in the first slab -/

def usmmStatSliceOffset : Nat := 32 * 1024

def usmmSlabsOffset : Nat := 64 * 1024

def usmmSlotsOffset : Nat := 96 * 1024

def usmmSlabBitmapOffset : Nat := 1024 * 1024

/-- In bits. -/
def usmmSlabBitmapSize : Nat := 1024 * 1024 * 8

def usmmSlotsMax : Nat := 32 * 1024

/-- `gs_magic` of usmm.c: 32 characters, the last of them NUL. -/
def gsMagic : List (BitVec 8) :=
  ("usmm-0xabcde9876543210-0xabefc.".toList.map fun ch => BitVec.ofNat 8 ch.toNat) ++ [0]

/-- `gs_magic` of usmm_slab.c. -/
def gsSlabMagic : BitVec 64 := 0xFFEEDDCCBBAA9988

/-! ## `usmm_t` -/

section Fields

variable (m : Mem) (us : Nat)

def confLength : BitVec 64 := u64 m (us + 40)

def confSlab : BitVec 64 := u64 m (us + 48)

def slabBitmap : Nat := (u64 m (us + 64)).toNat

def slotsPtr : Nat := (u64 m (us + 72)).toNat

def slabsPtr : Nat := (u64 m (us + 88)).toNat

def statSlices : Nat := (u64 m (us + 96)).toNat

def statFreeSlabs : BitVec 32 := u32 m (us + 104)

def statFullSlabs : BitVec 32 := u32 m (us + 108)

end Fields

/-- `memcmp(gs_magic, u->magic, 32) == 0` -/
def hasMagic (m : Mem) (u : Nat) : Prop := ∀ i < 32, m (u + i) = gsMagic.getD i 0

instance (m : Mem) (u : Nat) : Decidable (hasMagic m u) :=
  inferInstanceAs (Decidable (∀ i < 32, m (u + i) = gsMagic.getD i 0))

/-- What the first 104 bytes of an initialised region say, once and for all. -/
structure Control (c : UsmmConf) (m : Mem) : Prop where
  magic : hasMagic m c.base
  addr : u64 m (c.base + 32) = c.addr
  length : confLength m c.base = c.length
  slab : confSlab m c.base = c.slab
  bitmap : slabBitmap m c.base = c.base + usmmSlabBitmapOffset
  slots : slotsPtr m c.base = c.base + usmmSlotsOffset
  slabs : slabsPtr m c.base = c.base + usmmSlabsOffset
  stats : statSlices m c.base = c.base + usmmStatSliceOffset

theorem Control.of_changesOnly {c : UsmmConf} {F : Nat → Prop} {m m' : Mem} (control : Control c m)
    (changes : ChangesOnly F m m') (misses : ∀ x, c.base ≤ x → x < c.base + 104 → ¬ F x) :
    Control c m' := by
  have word : ∀ off, off + 8 ≤ 104 → u64 m' (c.base + off) = u64 m (c.base + off) :=
    fun off inside => changes.u64 fun x lower upper => misses x (by omega) (by omega)
  refine ⟨fun i below => ?_, ?_, ?_, ?_, ?_, ?_, ?_, ?_⟩
  · rw [changes _ (misses _ (by omega) (by omega))]
    exact control.magic i below
  · rw [word 32 (by omega)]; exact control.addr
  · rw [confLength, word 40 (by omega)]; exact control.length
  · rw [confSlab, word 48 (by omega)]; exact control.slab
  · rw [slabBitmap, word 64 (by omega)]; exact control.bitmap
  · rw [slotsPtr, word 72 (by omega)]; exact control.slots
  · rw [slabsPtr, word 88 (by omega)]; exact control.slabs
  · rw [statSlices, word 96 (by omega)]; exact control.stats

/-! ## `usmm_slab_t` -/

/-- The fields of a slab header the allocator reads. -/
@[ext] structure UsmmSlab where
  size : BitVec 64
  slice : BitVec 64
  total : BitVec 32
  used : BitVec 32
  freeSlice : BitVec 64
  deriving DecidableEq, Repr

/-- `sizeof(usmm_slab_t)` -/
def slabHeaderSize : Nat := 56

def slabAt (m : Mem) (s : Nat) : UsmmSlab where
  size := u64 m (s + 24)
  slice := u64 m (s + 32)
  total := u32 m (s + 40)
  used := u32 m (s + 44)
  freeSlice := u64 m (s + 48)

theorem slabAt_of_changesOnly {F : Nat → Prop} {m m' : Mem} {s : Nat}
    (changes : ChangesOnly F m m') (misses : ∀ x, s + 24 ≤ x → x < s + 56 → ¬ F x) :
    slabAt m' s = slabAt m s := by
  have word : ∀ off, 24 ≤ off → off + 8 ≤ 56 → u64 m' (s + off) = u64 m (s + off) :=
    fun off lower upper => changes.u64 fun x above below => misses x (by omega) (by omega)
  have half : ∀ off, 24 ≤ off → off + 4 ≤ 56 → u32 m' (s + off) = u32 m (s + off) :=
    fun off lower upper => changes.u32 fun x above below => misses x (by omega) (by omega)
  simp only [slabAt, word 24 (by omega) (by omega), word 32 (by omega) (by omega),
    half 40 (by omega) (by omega), half 44 (by omega) (by omega), word 48 (by omega) (by omega)]

section Setters

variable (m : Mem) (s : Nat)

theorem slabAt_setSize (v : BitVec 64) :
    slabAt (setU64 m (s + 24) v) s = { slabAt m s with size := v } := by
  ext1 <;> simp (disch := omega) [slabAt, u64_setU64, u64_setU64_of_disjoint,
    u32_setU64_of_disjoint]

theorem slabAt_setSlice (v : BitVec 64) :
    slabAt (setU64 m (s + 32) v) s = { slabAt m s with slice := v } := by
  ext1 <;> simp (disch := omega) [slabAt, u64_setU64, u64_setU64_of_disjoint,
    u32_setU64_of_disjoint]

theorem slabAt_setTotal (v : BitVec 32) :
    slabAt (setU32 m (s + 40) v) s = { slabAt m s with total := v } := by
  ext1 <;> simp (disch := omega) [slabAt, u32_setU32, u64_setU32_of_disjoint,
    u32_setU32_of_disjoint]

theorem slabAt_setUsed (v : BitVec 32) :
    slabAt (setU32 m (s + 44) v) s = { slabAt m s with used := v } := by
  ext1 <;> simp (disch := omega) [slabAt, u32_setU32, u64_setU32_of_disjoint,
    u32_setU32_of_disjoint]

theorem slabAt_setFreeSlice (v : BitVec 64) :
    slabAt (setU64 m (s + 48) v) s = { slabAt m s with freeSlice := v } := by
  ext1 <;> simp (disch := omega) [slabAt, u64_setU64, u64_setU64_of_disjoint,
    u32_setU64_of_disjoint]

end Setters

/-! ## `usmm_slice_stat_t` -/

@[ext] structure UsmmSliceStat where
  ops : BitVec 64
  used : BitVec 64
  slabs : BitVec 32
  full : BitVec 32
  deriving DecidableEq, Repr

def statAt (m : Mem) (a : Nat) : UsmmSliceStat where
  ops := u64 m a
  used := u64 m (a + 8)
  slabs := u32 m (a + 16)
  full := u32 m (a + 20)

theorem statAt_of_changesOnly {F : Nat → Prop} {m m' : Mem} {a : Nat}
    (changes : ChangesOnly F m m') (misses : ∀ x, a ≤ x → x < a + 24 → ¬ F x) :
    statAt m' a = statAt m a := by
  have first : u64 m' a = u64 m a :=
    changes.u64 fun x above below => misses x above (by omega)
  have second : u64 m' (a + 8) = u64 m (a + 8) :=
    changes.u64 fun x above below => misses x (by omega) (by omega)
  have third : u32 m' (a + 16) = u32 m (a + 16) :=
    changes.u32 fun x above below => misses x (by omega) (by omega)
  have fourth : u32 m' (a + 20) = u32 m (a + 20) :=
    changes.u32 fun x above below => misses x (by omega) (by omega)
  simp only [statAt, first, second, third, fourth]

section StatSetters

variable (m : Mem) (a : Nat)

theorem statAt_setOps (v : BitVec 64) :
    statAt (setU64 m a v) a = { statAt m a with ops := v } := by
  ext1 <;> simp (disch := omega) [statAt, u64_setU64, u64_setU64_of_disjoint,
    u32_setU64_of_disjoint]

theorem statAt_setUsed (v : BitVec 64) :
    statAt (setU64 m (a + 8) v) a = { statAt m a with used := v } := by
  ext1 <;> simp (disch := omega) [statAt, u64_setU64, u64_setU64_of_disjoint,
    u32_setU64_of_disjoint]

theorem statAt_setSlabs (v : BitVec 32) :
    statAt (setU32 m (a + 16) v) a = { statAt m a with slabs := v } := by
  ext1 <;> simp (disch := omega) [statAt, u32_setU32, u64_setU32_of_disjoint,
    u32_setU32_of_disjoint]

theorem statAt_setFull (v : BitVec 32) :
    statAt (setU32 m (a + 20) v) a = { statAt m a with full := v } := by
  ext1 <;> simp (disch := omega) [statAt, u32_setU32, u64_setU32_of_disjoint,
    u32_setU32_of_disjoint]

end StatSetters

end Itaro.Usmm
