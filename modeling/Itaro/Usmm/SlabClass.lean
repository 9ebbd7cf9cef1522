/-
# Usmm.SlabClass -- the 41 slice sizes and usmm_slab_find

A request for up to 128 KB is served from the least of 41 slice sizes that holds
it.  `usmmSlabFind` computes the index of the size without a search: the sizes
fall into bands of equal step, each band aligns the request to its step, lifts
it to the first size of the band and counts steps from there (`slabBand`).

`usmmSlabFind_eq_some` is what callers need: the index is in the table, the size
is the entry there, and the entry before it is too small.  The parameter is a C
`int`, so a `size_t` is cut to 32 bits on the way in.
-/
import Itaro.Theory.Align

namespace Itaro.Usmm

set_option autoImplicit false

open Theory

def gsSlabArray : List Nat := [
  8,
  16, 32, 48, 64, 80, 96, 112, 128,
  192, 256, 320, 384, 448, 512,
  768, 1024, 1280, 1536, 1792, 2048,
  4 * 1024, 6 * 1024, 8 * 1024, 10 * 1024, 12 * 1024, 14 * 1024, 16 * 1024,
  20 * 1024, 24 * 1024, 28 * 1024, 32 * 1024, 36 * 1024, 40 * 1024, 44 * 1024, 48 * 1024,
  64 * 1024, 80 * 1024, 96 * 1024, 112 * 1024, 128 * 1024]

/-- `USMM_SLAB_ARRAY_MAX` -/
def usmmSlabArrayMax : Nat := 41

/-- `gs_slab_array[idx]` -/
def sliceSize (idx : Nat) : Nat := gsSlabArray.getD idx 0

/-- One band: `size` aligned to `step`, lifted to `base`, in steps past `first`. -/
def slabBand (size step : BitVec 32) (base first : Nat) : Nat :=
  let aligned := (alignUp size step).toNat
  let lifted := if aligned < base then base else aligned
  (lifted - base) / step.toNat + first

/-- The class index and its slice size, or nothing for `-1`. -/
def usmmSlabFind (size : BitVec 32) : Option (Nat × Nat) :=
  let found := fun idx => some (idx, sliceSize idx)
  if size.toInt ≤ 8 then found 0
  else if size.toInt ≤ 128 then found (slabBand size 16 16 1)
  else if size.toInt ≤ 512 then found (slabBand size 64 192 9)
  else if size.toInt ≤ 2048 then found (slabBand size 256 768 15)
  else if size.toInt ≤ 16 * 1024 then found (slabBand size (2 * 1024) (4 * 1024) 21)
  else if size.toInt ≤ 48 * 1024 then found (slabBand size (4 * 1024) (20 * 1024) 28)
  else if size.toInt ≤ 128 * 1024 then found (slabBand size (16 * 1024) (64 * 1024) 36)
  else none

/-! ## The table -/

theorem usmmSlabFind_sliceSize : ∀ k < usmmSlabArrayMax,
    usmmSlabFind (BitVec.ofNat 32 (sliceSize k)) = some (k, sliceSize k) := by
  decide

theorem sliceSize_bounds : ∀ k < usmmSlabArrayMax,
    8 ≤ sliceSize k ∧ sliceSize k ≤ 128 * 1024 ∧ sliceSize k % 8 = 0 := by
  decide

theorem sliceSize_injective {j k : Nat} (jBound : j < usmmSlabArrayMax)
    (kBound : k < usmmSlabArrayMax) (same : sliceSize j = sliceSize k) : j = k := by
  have first := usmmSlabFind_sliceSize j jBound
  rw [same, usmmSlabFind_sliceSize k kBound] at first
  exact (Prod.ext_iff.mp (Option.some.inj first)).1.symm

/-! ## The formula -/

/-- A band whose sizes are `base, base + step, …` finds the least that holds the request. -/
theorem slabBand_spec {size step : BitVec 32} {k base first : Nat} (power : step.toNat = 2 ^ k)
    (room : size.toNat + step.toNat ≤ 2 ^ 32) (whole : step.toNat ∣ base) (positive : 0 < base) :
    let idx := slabBand size step base first
    first ≤ idx ∧ size.toNat ≤ base + (idx - first) * step.toNat ∧
      (idx = first ∨ base + (idx - 1 - first) * step.toNat < size.toNat) := by
  intro idx
  have stepPos : 0 < step.toNat := by rw [power]; exact Nat.two_pow_pos k
  have aligned : (alignUp size step).toNat =
      (size.toNat + step.toNat - 1) / step.toNat * step.toNat :=
    toNat_alignUp_of_lt power (by omega)
  obtain ⟨q, rfl⟩ := whole
  generalize turns : (size.toNat + step.toNat - 1) / step.toNat = t at aligned
  have upper : size.toNat + step.toNat - 1 < step.toNat * (t + 1) := by
    rw [← turns]; exact Nat.lt_mul_div_succ _ stepPos
  have lower : step.toNat * t ≤ size.toNat + step.toNat - 1 := by
    rw [← turns]; exact Nat.mul_div_le _ _
  rw [Nat.mul_succ] at upper
  have value : idx = (if t < q then 0 else t - q) + first := by
    show slabBand size step (step.toNat * q) first = _
    simp only [slabBand, aligned, Nat.mul_comm t, Nat.mul_lt_mul_left stepPos]
    split
    · rw [Nat.sub_self, Nat.zero_div]
    · rw [← Nat.mul_sub, Nat.mul_div_cancel_left _ stepPos]
  by_cases below : t < q
  · rw [if_pos below, Nat.zero_add] at value
    refine ⟨by omega, ?_, .inl value⟩
    have le : step.toNat * t ≤ step.toNat * q := Nat.mul_le_mul_left _ (by omega)
    omega
  · rw [if_neg below] at value
    obtain ⟨e, rfl⟩ : ∃ e, t = q + e := ⟨t - q, by omega⟩
    rw [Nat.mul_add] at lower upper
    refine ⟨by omega, ?_, ?_⟩
    · rw [value, show q + e - q + first - first = e by omega, Nat.mul_comm e]
      omega
    · rcases Nat.eq_zero_or_pos e with rfl | more
      · exact .inl (by omega)
      · refine .inr ?_
        obtain ⟨d, rfl⟩ : ∃ d, e = d + 1 := ⟨e - 1, by omega⟩
        rw [value, show q + (d + 1) - q + first - 1 - first = d by omega, Nat.mul_comm d]
        rw [Nat.mul_succ] at lower
        omega

/-- Class `idx` holds `size` bytes and the class before it does not. -/
def Least (size : Int) (idx : Nat) : Prop :=
  idx < usmmSlabArrayMax ∧ size ≤ sliceSize idx ∧ (idx = 0 ∨ (sliceSize (idx - 1) : Int) < size)

/-- The entries `first, …, next - 1` of the table are one band, and the request
is above the entry before the band and not above its last. -/
theorem slabBand_least {size step : BitVec 32} {k base first next : Nat}
    (power : step.toNat = 2 ^ k) (whole : step.toNat ∣ base) (positive : 0 < base)
    (table : ∀ j < next, first ≤ j → sliceSize j = base + (j - first) * step.toNat)
    (bounds : 0 < first ∧ first < next ∧ next ≤ usmmSlabArrayMax ∧ step.toNat ≤ 16 * 1024)
    (unsigned : size.toInt = size.toNat) (above : (sliceSize (first - 1) : Int) < size.toInt)
    (below : size.toInt ≤ sliceSize (next - 1)) :
    Least size.toInt (slabBand size step base first) := by
  have limit := (sliceSize_bounds (next - 1) (by omega)).2.1
  have room : size.toNat + step.toNat ≤ 2 ^ 32 := by omega
  obtain ⟨lower, fits, least⟩ := @slabBand_spec size step k base first power room whole positive
  generalize slabBand size step base first = idx at lower fits least
  have top := table (next - 1) (by omega) (by omega)
  have inside : idx < next := by
    rcases least with same | previous
    · omega
    · by_contra beyond
      have le := Nat.mul_le_mul_right step.toNat (show next - 1 - first ≤ idx - 1 - first by omega)
      omega
  refine ⟨by omega, ?_, .inr ?_⟩
  · rw [table idx inside lower]; omega
  · by_cases start : idx = first
    · rw [start]; exact above
    · rcases least with same | previous
      · exact absurd same start
      · rw [table (idx - 1) (by omega) (by omega)]; omega

theorem usmmSlabFind_eq_some {size : BitVec 32} {idx slice : Nat}
    (found : usmmSlabFind size = some (idx, slice)) :
    slice = sliceSize idx ∧ Least size.toInt idx := by
  have done : ∀ {k}, Least size.toInt k → some (k, sliceSize k) = some (idx, slice) →
      slice = sliceSize idx ∧ Least size.toInt idx := by
    intro k least same
    cases Option.some.inj same
    exact ⟨rfl, least⟩
  simp only [usmmSlabFind] at found
  split at found
  · exact done ⟨by decide, by simpa [sliceSize, gsSlabArray], .inl rfl⟩ found
  rename_i above
  have unsigned : size.toInt = size.toNat := by
    rw [BitVec.toInt_eq_toNat_cond] at above ⊢
    have := size.isLt
    split at above <;> omega
  -- one band after another
  split at found
  · exact done (@slabBand_least size 16 4 16 1 9 rfl (by decide) (by decide)
      (by decide) (by decide) unsigned (Int.not_le.mp above) ‹_›) found
  rename_i above
  split at found
  · exact done (@slabBand_least size 64 6 192 9 15 rfl (by decide) (by decide)
      (by decide) (by decide) unsigned (Int.not_le.mp above) ‹_›) found
  rename_i above
  split at found
  · exact done (@slabBand_least size 256 8 768 15 21 rfl (by decide) (by decide)
      (by decide) (by decide) unsigned (Int.not_le.mp above) ‹_›) found
  rename_i above
  split at found
  · exact done (@slabBand_least size (2 * 1024) 11 (4 * 1024) 21 28 rfl (by decide) (by decide)
      (by decide) (by decide) unsigned (Int.not_le.mp above) ‹_›) found
  rename_i above
  split at found
  · exact done (@slabBand_least size (4 * 1024) 12 (20 * 1024) 28 36 rfl (by decide) (by decide)
      (by decide) (by decide) unsigned (Int.not_le.mp above) ‹_›) found
  rename_i above
  split at found
  · exact done (@slabBand_least size (16 * 1024) 14 (64 * 1024) 36 41 rfl (by decide) (by decide)
      (by decide) (by decide) unsigned (Int.not_le.mp above) ‹_›) found
  · cases found

end Itaro.Usmm
