/-
# Usmm.HeapSize -- the number of slabs of a heap request

`usmm_heap_alloc` rounds a size up to the slab with a mask, divides and stores
the quotient in an `int`.  For a power of two this is the number of slabs the
bytes take up, unless the sum wraps or the quotient is too large.  It leaves no
room for the length word, which goes into the first slab all the same:
`HeapFits` says when there is room.
-/
import Itaro.Theory.Align
import Itaro.Usmm.Region

namespace Itaro.Usmm

set_option autoImplicit false

open Theory

variable {c : UsmmConf} {size : BitVec 64}

/-- `USMM_ALIGN(size, us->conf.slab) / us->conf.slab` -/
def slabsFor (c : UsmmConf) (size : BitVec 64) : Nat := (alignUp size c.slab).toNat / c.slabSize

theorem toNat_alignUp_div : (alignUp size c.slab / c.slab).toNat = slabsFor c size :=
  BitVec.toNat_udiv

theorem heapNum_lt (size slab : BitVec 64) : heapNum size slab < 2 ^ 31 := by
  have := BitVec.toInt_lt (x := (alignUp size slab / slab).setWidth 32)
  rw [heapNum, intOfSize]
  omega

/-- A quotient that fits the `int` is what it was. -/
theorem heapNum_of_lt (small : slabsFor c size < 2 ^ 31) : heapNum size c.slab = slabsFor c size := by
  rw [heapNum, intOfSize_of_lt (by rw [toNat_alignUp_div]; exact small), toNat_alignUp_div]

/-- The slabs of a request have room for its bytes and its length word. -/
def HeapFits (c : UsmmConf) (size : BitVec 64) : Prop :=
  0 < slabsFor c size ∧ slabsFor c size < 2 ^ 31 ∧ size.toNat + 4 ≤ slabsFor c size * c.slabSize

/-- The `int` has the same to say, whatever was cut off. -/
theorem heapFits_iff_heapNum (roomy : c.Roomy) : HeapFits c size ↔
    1 ≤ heapNum size c.slab ∧ size.toNat + 4 ≤ (heapNum size c.slab).toNat * c.slabSize := by
  have large := roomy.large
  by_cases small : slabsFor c size < 2 ^ 31
  · rw [HeapFits, heapNum_of_lt small, Int.toNat_natCast]
    constructor
    · rintro ⟨some, -, room⟩
      exact ⟨by omega, room⟩
    · rintro ⟨some, room⟩
      exact ⟨by omega, small, room⟩
  · refine ⟨fun fits => absurd fits.2.1 small, fun ⟨_, room⟩ => ?_⟩
    -- the slabs left after the cut are fewer than the bytes take up
    have positive : 0 < c.slab.toNat := by
      show 0 < c.slabSize
      omega
    have bound := heapNum_lt size c.slab
    have cut : (heapNum size c.slab).toNat + 1 ≤ slabsFor c size := by omega
    have whole := Nat.div_mul_le_self (alignUp size c.slab).toNat c.slabSize
    have fewer := Nat.mul_le_mul_right c.slabSize cut
    rw [Nat.succ_mul] at fewer
    have upper : (alignUp size c.slab).toNat ≤ size.toNat + c.slabSize - 1 := by
      by_cases wraps : 2 ^ 64 ≤ size.toNat + c.slab.toNat - 1
      · have less := toNat_alignUp_lt_of_wraps positive wraps
        have zero : slabsFor c size = 0 := Nat.div_eq_of_lt less
        omega
      · have below := toNat_and_not_le (size + c.slab - 1) (c.slab - 1)
        rw [toNat_sum positive, Nat.mod_eq_of_lt (by omega)] at below
        exact below
    rw [slabsFor] at fewer
    omega

/-! ## Powers of two -/

theorem slabsFor_of_power {k : Nat} (power : c.slabSize = 2 ^ k)
    (room : size.toNat + c.slabSize ≤ 2 ^ 64) :
    slabsFor c size = (size.toNat + c.slabSize - 1) / c.slabSize := by
  have positive : 0 < c.slabSize := by rw [power]; exact Nat.two_pow_pos k
  have aligned := toNat_alignUp_of_lt power (n := size) (by
    show size.toNat + c.slabSize - 1 < 2 ^ 64
    omega)
  rw [slabsFor, aligned]
  exact Nat.mul_div_cancel _ positive

theorem slabsFor_of_wraps (roomy : c.Roomy) (wraps : 2 ^ 64 < size.toNat + c.slabSize) :
    slabsFor c size = 0 := by
  have large := roomy.large
  have size' : c.slab.toNat = c.slabSize := rfl
  exact Nat.div_eq_of_lt (toNat_alignUp_lt_of_wraps (by omega) (by omega))

/-- For a power of two: the size is not a multiple of the slab nor up to three
bytes short of one, and neither the sum nor the count is too large. -/
theorem heapFits_iff_of_power (roomy : c.Roomy) {k : Nat} (power : c.slabSize = 2 ^ k) :
    HeapFits c size ↔ 1 ≤ size.toNat % c.slabSize ∧ size.toNat % c.slabSize + 4 ≤ c.slabSize ∧
      size.toNat / c.slabSize + 1 < 2 ^ 31 ∧ size.toNat + c.slabSize ≤ 2 ^ 64 := by
  have large := roomy.large
  by_cases room : size.toNat + c.slabSize ≤ 2 ^ 64
  · rw [HeapFits, slabsFor_of_power power room]
    generalize quotient : size.toNat / c.slabSize = q
    generalize rest : size.toNat % c.slabSize = r
    have split := Nat.div_add_mod' size.toNat c.slabSize
    have bound := Nat.mod_lt size.toNat (show 0 < c.slabSize by omega)
    rw [quotient, rest] at split
    rw [rest] at bound
    by_cases multiple : r = 0
    · have count : (size.toNat + c.slabSize - 1) / c.slabSize = q := by
        rw [← split, multiple]
        refine Nat.div_eq_of_lt_le (by omega) ?_
        rw [Nat.succ_mul]
        omega
      rw [count]
      exact ⟨fun fits => absurd fits.2.2 (by omega), fun fits => absurd fits.1 (by omega)⟩
    · have count : (size.toNat + c.slabSize - 1) / c.slabSize = q + 1 := by
        rw [← split]
        refine Nat.div_eq_of_lt_le (by rw [Nat.succ_mul]; omega) ?_
        rw [Nat.succ_mul, Nat.succ_mul]
        omega
      rw [count, Nat.succ_mul]
      constructor
      · rintro ⟨-, small, fits⟩
        exact ⟨by omega, by omega, small, room⟩
      · rintro ⟨-, fits, small, -⟩
        exact ⟨by omega, small, by omega⟩
  · rw [HeapFits, slabsFor_of_wraps roomy (by omega)]
    exact ⟨fun fits => absurd fits.1 (by omega), fun fits => absurd fits.2.2.2 room⟩

/-- More than one slab, and not too many: the assertion on the range holds. -/
theorem one_lt_heapNum {k : Nat} (power : c.slabSize = 2 ^ k) (more : c.slabSize < size.toNat)
    (room : size.toNat + c.slabSize ≤ 2 ^ 64) (count : size.toNat ≤ (2 ^ 31 - 1) * c.slabSize) :
    1 < heapNum size c.slab := by
  have positive : 0 < c.slabSize := by rw [power]; exact Nat.two_pow_pos k
  have slabs := slabsFor_of_power power room
  have small : slabsFor c size < 2 ^ 31 := by
    rw [slabs, Nat.div_lt_iff_lt_mul positive]
    omega
  have some : 2 ≤ slabsFor c size := by
    rw [slabs, Nat.le_div_iff_mul_le positive]
    omega
  rw [heapNum_of_lt small]
  omega

end Itaro.Usmm
