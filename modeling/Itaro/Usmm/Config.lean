/-
# Usmm.Config -- which configurations usmm_init can serve

The comment at the head of usmm.c puts the controller into the first slab and allows
8M slabs, and `usmm_slice_free` finds a slab by rounding with a mask, which is exact
only for a power of two and an aligned region.  `usmm_init` checks none of this.
`Serves` states it of the region that is left: the control structures are where the
pointers in the control block lead, and the slabs are those on `free_slabs`.
`usmmInit_serves_iff` says for which configurations it holds, and which are accepted.
-/
import Itaro.Usmm.InitBounds

namespace Itaro.Usmm

set_option autoImplicit false

open Theory

/-- Address and size of what `usmm_init` keeps in the region, by the pointers it stored:
`usmm_t`, the statistics, the list heads, the slots and the bitmap. -/
def controlStructures (m : Mem) (us : Nat) : List (Nat × Nat) :=
  [(us, 144), (statSlices m us, usmmSlabArrayMax * 24), (slabsPtr m us, usmmSlabArrayMax * 16),
    (slotsPtr m us, usmmSlotsMax * 16), (slabBitmap m us, usmmSlabBitmapSize / 8)]

/-- The same as offsets. -/
def controlOffsets : List (Nat × Nat) :=
  [(0, 144), (usmmStatSliceOffset, usmmSlabArrayMax * 24), (usmmSlabsOffset, usmmSlabArrayMax * 16),
    (usmmSlotsOffset, usmmSlotsMax * 16), (usmmSlabBitmapOffset, usmmSlabBitmapSize / 8)]

/-- The address of slab `i` as the code computes it. -/
def slabPtr (c : UsmmConf) (i : Nat) : BitVec 64 := c.addr + BitVec.ofNat 64 i * c.slab

/-- The allocator can work on what `usmm_init` left in `m`. -/
structure Serves (c : UsmmConf) (m : Mem) : Prop where
  inside : ∀ p ∈ controlStructures m c.base, c.base ≤ p.1 ∧ p.1 + p.2 ≤ c.base + c.slabSize
  /-- A node of `free_slabs` is 8 bytes into its slab. -/
  apart : ∃ nodes, ListAt m (c.base + 112) nodes ∧
    ∀ p ∈ controlStructures m c.base, ∀ node ∈ nodes, p.1 + p.2 + 8 ≤ node
  bits : ∀ i < c.slabCount, i / 8 < usmmSlabBitmapSize / 8
  owner : ∀ i < c.slabCount, ∀ d : BitVec 64, 0 < d.toNat → d.toNat < c.slabSize →
    ownerSlab (slabPtr c i + d) c.slab = slabPtr c i

variable {c : UsmmConf} {m m' : Mem}

theorem Control.structures_eq (control : Control c m) :
    controlStructures m c.base = controlOffsets.map fun p => (c.base + p.1, p.2) := by
  rw [controlStructures, control.stats, control.slabs, control.slots, control.bitmap]
  rfl

/-- The structures end at 2 MB. -/
theorem controlOffsets_inside_iff (n : Nat) :
    (∀ p ∈ controlOffsets, p.1 + p.2 ≤ n) ↔ 2 * 1024 * 1024 ≤ n := by
  constructor
  · intro inside
    exact inside (usmmSlabBitmapOffset, usmmSlabBitmapSize / 8) (by simp [controlOffsets])
  · intro large p member
    have small : ∀ p ∈ controlOffsets, p.1 + p.2 ≤ 2 * 1024 * 1024 := by decide
    exact (small p member).trans large

theorem Control.inside_iff (control : Control c m) :
    (∀ p ∈ controlStructures m c.base, c.base ≤ p.1 ∧ p.1 + p.2 ≤ c.base + c.slabSize) ↔
      2 * 1024 * 1024 ≤ c.slabSize := by
  rw [control.structures_eq, List.forall_mem_map, ← controlOffsets_inside_iff]
  refine forall₂_congr fun p _ => ?_
  show c.base ≤ c.base + p.1 ∧ c.base + p.1 + p.2 ≤ c.base + c.slabSize ↔ _
  omega

theorem bits_iff (n : Nat) :
    (∀ i < n, i / 8 < usmmSlabBitmapSize / 8) ↔ n ≤ usmmSlabBitmapSize := by
  simp only [usmmSlabBitmapSize]
  constructor
  · intro all
    by_contra beyond
    have := all (1024 * 1024 * 8) (by omega)
    omega
  · intro bound i below
    omega

/-- With the region aligned every slab is. -/
theorem slabPtr_aligned {k : Nat} (power : c.slabSize = 2 ^ k) (aligned : c.slabSize ∣ c.base)
    (i : Nat) : c.slabSize ∣ (slabPtr c i).toNat := by
  have narrow : 2 ^ k ∣ 2 ^ 64 := by
    refine Nat.pow_dvd_pow 2 ?_
    rw [← Nat.pow_le_pow_iff_right (a := 2) (by decide), ← power]
    exact Nat.le_of_lt c.slab.isLt
  rw [power] at aligned ⊢
  have multiple : 2 ^ k ∣ (BitVec.ofNat 64 i * c.slab).toNat := by
    rw [BitVec.toNat_mul, Nat.dvd_mod_iff narrow, show c.slab.toNat = 2 ^ k from power]
    exact Nat.dvd_mul_left _ _
  rw [slabPtr, BitVec.toNat_add, Nat.dvd_mod_iff narrow]
  exact Nat.dvd_add aligned multiple

theorem owner_iff (large : 2 ≤ c.slabSize) :
    (∀ i < c.slabCount, ∀ d : BitVec 64, 0 < d.toNat → d.toNat < c.slabSize →
        ownerSlab (slabPtr c i + d) c.slab = slabPtr c i) ↔
      (0 < c.slabCount → (∃ k, c.slabSize = 2 ^ k) ∧ c.slabSize ∣ c.base) := by
  constructor
  · intro owner some
    have first := owner 0 some
    have start : slabPtr c 0 = c.addr := by
      rw [slabPtr, BitVec.zero_mul, BitVec.add_zero]
    rw [start] at first
    exact (alignUp_sub_eq_iff large c.addr).mp first
  · intro fits i below
    obtain ⟨⟨k, power⟩, aligned⟩ := fits (by omega)
    exact (alignUp_sub_eq_iff large (slabPtr c i)).mpr
      ⟨⟨k, power⟩, slabPtr_aligned power aligned i⟩

/-- What has to hold of a configuration. -/
def ServedConf (c : UsmmConf) : Prop :=
  2 * 1024 * 1024 ≤ c.slabSize ∧ c.slabCount ≤ usmmSlabBitmapSize ∧
    (0 < c.slabCount → (∃ k, c.slabSize = 2 ^ k) ∧ c.slabSize ∣ c.base)

/-! ## What the first-time branch left -/

/-- The control block it leaves, and the list of free slabs. -/
theorem usmmInit_leaves (header : 128 ≤ c.slabSize) (mapped : c.base + c.mapLength ≤ 2 ^ 63)
    (new : ¬ hasMagic m c.base) (result : usmmInit c (some c.base) m = .ok (c.base, m')) :
    Control c m' ∧ (c.slabCount ≤ 1 → ListAt m' (c.base + 112) []) := by
  have long := c.length_le_mapLength
  obtain ⟨⟨within, -, counted⟩, rfl⟩ := (usmmInit_ok_iff new).mp result
  exact (firstTime_keeps header (by omega) (.of_within mapped counted within) m).2

theorem servedConf_of_serves (mapped : c.base + c.mapLength ≤ 2 ^ 63) (new : ¬ hasMagic m c.base)
    (result : usmmInit c (some c.base) m = .ok (c.base, m')) (serves : Serves c m') :
    ServedConf c := by
  have header := (serves.inside (c.base, 144) List.mem_cons_self).2
  have control := (usmmInit_leaves (by omega) mapped new result).1
  have large := control.inside_iff.mp serves.inside
  exact ⟨large, (bits_iff _).mp serves.bits, (owner_iff (by omega)).mp serves.owner⟩

/-- Every slab on `free_slabs` lies behind the structures. -/
theorem free_slabs_apart (large : 2 * 1024 * 1024 ≤ c.slabSize)
    (mapped : c.base + c.mapLength ≤ 2 ^ 63) (new : ¬ hasMagic m c.base)
    (result : usmmInit c (some c.base) m = .ok (c.base, m')) : ∃ nodes,
      ListAt m' (c.base + 112) nodes ∧
      ∀ p ∈ controlStructures m' c.base, ∀ node ∈ nodes, p.1 + p.2 + 8 ≤ node := by
  have long := c.length_le_mapLength
  obtain ⟨control, empty⟩ := usmmInit_leaves (by omega) mapped new result
  rcases Nat.eq_zero_or_pos c.slabCount with none | some
  · exact ⟨[], empty (by omega), fun p _ node member => absurd member List.not_mem_nil⟩
  -- with a first slab the configuration is one of `Fresh`
  have first : c.slabSize ≤ c.length.toNat := by
    rw [c.slabCount_eq] at some
    exact Nat.le_of_not_lt fun short => by rw [Nat.div_eq_of_lt short] at some; omega
  obtain ⟨⟨-, -, counted⟩, rfl⟩ := (usmmInit_ok_iff new).mp result
  have fresh := firstTime_spec ⟨large, first, counted, by omega⟩ m
  refine ⟨_, fresh.freeSlabs, fun p member node listed => ?_⟩
  obtain ⟨i, index, rfl⟩ := List.mem_map.mp listed
  have behind := freeNode_ge (c := c) (List.mem_range'_1.mp index).1
  have inside := (control.inside_iff.mpr large p member).2
  omega

theorem serves_of_servedConf (mapped : c.base + c.mapLength ≤ 2 ^ 63) (new : ¬ hasMagic m c.base)
    (result : usmmInit c (some c.base) m = .ok (c.base, m')) (served : ServedConf c) :
    Serves c m' := by
  obtain ⟨large, bounded, fits⟩ := served
  have control := (usmmInit_leaves (by omega) mapped new result).1
  exact ⟨control.inside_iff.mpr large, free_slabs_apart large mapped new result,
    (bits_iff _).mpr bounded, (owner_iff (by omega)).mpr fits⟩

/-- **What usmm_init can serve, and what it accepts.**  A region it returns is served iff
`ServedConf` holds; from slabs of 128 bytes on it returns one whenever the first slab and
the structures are in the mapping and an `int` counts the slabs. -/
theorem usmmInit_serves_iff (c : UsmmConf) (m : Mem) (new : ¬ hasMagic m c.base)
    (mapped : c.base + c.mapLength ≤ 2 ^ 63) :
    (∀ m', usmmInit c (some c.base) m = .ok (c.base, m') → (Serves c m' ↔ ServedConf c)) ∧
    (128 ≤ c.slabSize →
      ((∃ m', usmmInit c (some c.base) m = .ok (c.base, m')) ↔ c.Completes)) :=
  ⟨fun _ result => ⟨servedConf_of_serves mapped new result, serves_of_servedConf mapped new result⟩,
    fun header => usmmInit_returns_iff header mapped new⟩

/-- A region of zeros with the test's configuration is accepted and served. -/
theorem usmmInit_serves_iff_testConf :
    ∃ m', usmmInit testConf (some testConf.base) (fun _ => 0) = .ok (testConf.base, m') ∧
      Serves testConf m' := by
  obtain ⟨serves, returns⟩ := usmmInit_serves_iff testConf (fun _ => 0) (blank_new _) (by decide)
  obtain ⟨m', result⟩ := (returns (by decide)).mpr testConf_roomy.completes
  exact ⟨m', result, (serves m' result).mpr ⟨by decide, by decide, fun _ => ⟨⟨21, by decide⟩, by decide⟩⟩⟩

/-- The test's region in slabs of 4 KB: accepted, and the bitmap lies over the slabs. -/
theorem usmmInit_accepts_unserved :
    ¬ ∀ (c : UsmmConf) (m m' : Mem), 0 < c.slabSize → ¬ hasMagic m c.base →
      usmmInit c (some c.base) m = .ok (c.base, m') → Serves c m' := by
  intro serves
  obtain ⟨m', result⟩ := (usmmInit_returns_iff (c := { testConf with slab := 4096 }) (by decide)
    (by decide) (blank_new _)).mpr ⟨by decide, by decide, by decide⟩
  have served := serves _ _ m' (by decide) (blank_new _) result
  have large := (servedConf_of_serves (by decide) (blank_new _) result served).1
  exact absurd large (by decide)

end Itaro.Usmm
