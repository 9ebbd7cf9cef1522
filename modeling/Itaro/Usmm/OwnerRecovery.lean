/-
# Usmm.OwnerRecovery -- from a bare pointer to slab and class

`usmm_slice_free` is given nothing but the address of a slice.  Rounding up to the
slab size and going one slab back is the slab, since a slice starts behind the
header and ends inside the slab (`ownerSlab_slice`); and the slice size in the
header is an entry of the table, for which `usmm_slab_find` answers with its own
index (`usmmSlabFind_sliceSize`).  So slab, statistics and list are those the slice
was taken from, for the first slice of a slab and for the last.
-/
import Itaro.Usmm.SliceFree

namespace Itaro.Usmm

set_option autoImplicit false

open Theory

variable {c : UsmmConf} {i k j : Nat}

/-- The address of slice `j` of slab `i`, in slices of class `k`. -/
def slicePtr (c : UsmmConf) (i k j : Nat) : Nat :=
  c.slabAddr i + slabHeaderSize + j * sliceSize k

/-- The configuration with one slab. -/
def UsmmConf.oneSlab (c : UsmmConf) : UsmmConf := { c with length := c.slab }

theorem UsmmConf.oneSlab_roomy (large : 2 * 1024 * 1024 ≤ c.slabSize) (positive : 1 ≤ i)
    (room : c.slabAddr i + c.slabSize < 2 ^ 64) : c.oneSlab.Roomy where
  large := large
  nonempty := Nat.le_refl _
  counted := by
    have one : c.oneSlab.slabCount = 1 := by
      rw [UsmmConf.slabCount_eq]
      exact Nat.div_self (by show 0 < c.slabSize; omega)
    rw [one]
    decide
  room := by
    have above := c.slabAddr_ge positive
    show c.base + c.slabSize < 2 ^ 64
    omega

section Slice

variable (large : 2 * 1024 * 1024 ≤ c.slabSize) (positive : 1 ≤ i)
  (room : c.slabAddr i + c.slabSize < 2 ^ 64) (bound : k < usmmSlabArrayMax)
  (below : (j : Int) < (classTotal c k).toInt)
include large positive room bound below

/-- A slice ends inside its slab. -/
theorem slicePtr_end : slicePtr c i k j + sliceSize k ≤ c.slabAddr i + c.slabSize := by
  have inside : slabHeaderSize + (classTotal c k).toInt.toNat * sliceSize k ≤ c.slabSize :=
    classTotal_room (UsmmConf.oneSlab_roomy large positive room) bound
  have index : j + 1 ≤ (classTotal c k).toInt.toNat := by omega
  have whole := Nat.mul_le_mul_right (sliceSize k) index
  rw [Nat.succ_mul] at whole
  rw [slicePtr]
  omega

variable {e : Nat} (power : c.slabSize = 2 ^ e) (aligned : c.slabSize ∣ c.base)
include power aligned

/-- Rounding up ends at the next slab, and does not wrap. -/
theorem alignUp_slicePtr :
    (BitVec.ofNat 64 (slicePtr c i k j)).toNat + c.slabSize - 1 < 2 ^ 64 ∧
      (alignUp (BitVec.ofNat 64 (slicePtr c i k j)) c.slab).toNat =
        c.slabAddr i + c.slabSize := by
  have last := slicePtr_end large positive room bound below
  have wide := (sliceSize_bounds k bound).1
  have start : slicePtr c i k j = c.slabAddr i + slabHeaderSize + j * sliceSize k := rfl
  simp only [slabHeaderSize] at start
  have pointer : (BitVec.ofNat 64 (slicePtr c i k j)).toNat = slicePtr c i k j :=
    u64_ofNat_toNat (by omega)
  obtain ⟨q, multiple⟩ : c.slabSize ∣ c.slabAddr i := Nat.dvd_add aligned (Nat.dvd_mul_left _ _)
  -- the region ends below 2^64, and so a whole slab below it
  have spare : c.slabAddr i + c.slabSize + c.slabSize ≤ 2 ^ 64 := by
    obtain ⟨t, whole⟩ : c.slabSize ∣ 2 ^ 64 := by
      rw [power]
      refine Nat.pow_dvd_pow 2 ?_
      rw [← Nat.pow_le_pow_iff_right one_lt_two, ← power]
      exact Nat.le_of_lt c.slab.isLt
    rw [multiple, whole] at room ⊢
    have slots : q + 1 < t := by
      rw [← Nat.mul_succ] at room
      exact Nat.lt_of_mul_lt_mul_left room
    have le := Nat.mul_le_mul_left c.slabSize (show q + 2 ≤ t from slots)
    rw [Nat.mul_add] at le
    omega
  have wrap : (BitVec.ofNat 64 (slicePtr c i k j)).toNat + c.slabSize - 1 < 2 ^ 64 := by
    rw [pointer]
    omega
  refine ⟨wrap, ?_⟩
  rw [toNat_alignUp_of_lt power wrap, pointer]
  have quotient : (slicePtr c i k j + c.slab.toNat - 1) / c.slab.toNat = q + 1 := by
    rw [Nat.div_eq_iff (by show 0 < c.slabSize; omega), Nat.mul_comm, Nat.mul_succ, ← multiple]
    have size : c.slab.toNat = c.slabSize := rfl
    omega
  rw [quotient, Nat.mul_comm, Nat.mul_succ, ← multiple]

theorem ownerSlab_slicePtr :
    (ownerSlab (BitVec.ofNat 64 (slicePtr c i k j)) c.slab).toNat = c.slabAddr i := by
  obtain ⟨-, rounded⟩ := alignUp_slicePtr large positive room bound below power aligned
  have above : c.slab ≤ alignUp (BitVec.ofNat 64 (slicePtr c i k j)) c.slab := by
    rw [BitVec.le_def, rounded]
    exact Nat.le_add_left _ _
  rw [ownerSlab, BitVec.toNat_sub_of_le above, rounded]
  exact Nat.add_sub_cancel _ _

end Slice

/-! ## What usmm_slice_free works on -/

/-- The slice size in a header is found again, with its class. -/
theorem usmmSlabFind_header (bound : k < usmmSlabArrayMax) :
    usmmSlabFind ((BitVec.ofNat 64 (sliceSize k)).setWidth 32) = some (k, sliceSize k) := by
  have small := (sliceSize_bounds k bound).2.1
  have cut : (BitVec.ofNat 64 (sliceSize k)).setWidth 32 = BitVec.ofNat 32 (sliceSize k) := by
    refine BitVec.eq_of_toNat_eq ?_
    rw [BitVec.toNat_setWidth, u64_ofNat_toNat (by omega), BitVec.toNat_ofNat]
  rw [cut]
  exact usmmSlabFind_sliceSize k bound

/-- `p` is freed into slab `s` and into the list and the statistics of class `k`. -/
structure FreesInto (b : Build) (r : Region) (p s k : Nat) : Prop where
  call : usmmSliceFree b r p = do
    let m ← usmmSlabFree b r.mem s p
    sliceRelease (addStatUsed (r.update fun _ => m) (r.stat k) (-1)) (r.stat k) s
      (slabAt r.mem s).isfull
  reopen : ∀ r' : Region, (slabAt r'.mem s).slice = (slabAt r.mem s).slice →
    sliceRelease r' (r.stat k) s true =
      .ok (addStatFull (addStatSliceFull ((r'.listDel s).listAddTail s (.cls k)) (r.stat k) (-1))
        (-1))

theorem freesInto {r : Region} {p s : Nat} (b : Build) (bound : k < usmmSlabArrayMax)
    (nonzero : p ≠ 0) (owner : (ownerSlab (BitVec.ofNat 64 p) (confSlab r.mem r.us)).toNat = s)
    (header : (slabAt r.mem s).slice = BitVec.ofNat 64 (sliceSize k)) : FreesInto b r p s k where
  call := by
    have same : ((slabAt r.mem s).slice == BitVec.ofNat 64 (sliceSize k)) = true :=
      beq_iff_eq.mpr header
    rw [usmmSliceFree, if_neg nonzero, owner]
    simp only [header, usmmSlabFind_header bound, beq_self_eq_true, assert_true]
    rfl
  reopen r' kept := by
    rw [sliceRelease, if_pos rfl]
    have class' : usmmSlabFind ((slabAt (r'.listDel s).mem s).slice.setWidth 32) =
        some (k, sliceSize k) := by
      rw [listDel_mem, kept, header, usmmSlabFind_header bound]
    simp only [class']

/-- **Owner recovery.**  The pointer of a slice leads to its slab, its class and the
list and statistics of that class. -/
theorem owner_recovered (large : 2 * 1024 * 1024 ≤ c.slabSize) {e : Nat} (power : c.slabSize = 2 ^ e)
    (aligned : c.slabSize ∣ c.base) (positive : 1 ≤ i)
    (room : c.slabAddr i + c.slabSize < 2 ^ 64) (bound : k < usmmSlabArrayMax)
    (below : (j : Int) < (classTotal c k).toInt) :
    ((BitVec.ofNat 64 (slicePtr c i k j)).toNat + c.slabSize - 1 < 2 ^ 64 ∧
      (ownerSlab (BitVec.ofNat 64 (slicePtr c i k j)) c.slab).toNat = c.slabAddr i) ∧
    slicePtr c i k j + sliceSize k ≤ c.slabAddr i + c.slabSize ∧
    usmmSlabFind ((BitVec.ofNat 64 (sliceSize k)).setWidth 32) = some (k, sliceSize k) ∧
    ∀ (b : Build) (r : Region), confSlab r.mem r.us = c.slab →
      (slabAt r.mem (c.slabAddr i)).slice = BitVec.ofNat 64 (sliceSize k) →
      FreesInto b r (slicePtr c i k j) (c.slabAddr i) k := by
  have owner := ownerSlab_slicePtr large positive room bound below power aligned
  refine ⟨⟨(alignUp_slicePtr large positive room bound below power aligned).1, owner⟩,
    slicePtr_end large positive room bound below, usmmSlabFind_header bound,
    fun b r conf header => freesInto b bound ?_ (by rw [conf]; exact owner) header⟩
  rw [slicePtr, slabHeaderSize]
  omega

/-- The last slice of 8 bytes of the first slab. -/
theorem owner_recovered_testConf :
    (ownerSlab (BitVec.ofNat 64 (slicePtr testConf 1 0 262136)) testConf.slab).toNat =
      testConf.slabAddr 1 :=
  (owner_recovered (c := testConf) (e := 21) (by decide) (by decide) (by decide) (by decide)
    (by decide) (by decide) (by decide)).1.2

end Itaro.Usmm
