/-
# Theory.Align -- rounding up with a mask

`alignUp n s` is the macro `(n + s - 1) & ~(s - 1)` in machine arithmetic.  For
a power of two `s` it rounds the wrapped sum down to a multiple of `s`
(`toNat_alignUp`).  The mask is exact only then: if clearing the bits of `s - 1`
sends every address strictly between `b` and `b + s` back to `b`, then `s` is a
power of two and `b` one of its multiples (`alignUp_sub_eq_iff`).
-/
import Mathlib.Data.Nat.Bitwise
import Mathlib.Tactic.Common

namespace Itaro.Theory

set_option autoImplicit false

variable {w : Nat}

/-- `((n + s - 1) & (~(s - 1)))` -/
def alignUp (n s : BitVec w) : BitVec w := (n + s - 1) &&& ~~~(s - 1)

theorem getLsbD_eq_testBit (x : BitVec w) (i : Nat) : x.getLsbD i = x.toNat.testBit i := rfl

theorem toNat_sub_one {s : BitVec w} (positive : 0 < s.toNat) : (s - 1).toNat = s.toNat - 1 := by
  have bound := s.isLt
  rcases Nat.eq_zero_or_pos w with rfl | wide
  · simp at bound; omega
  · have one : (1 : BitVec w).toNat = 1 := by
      show (BitVec.ofNat w 1).toNat = 1
      rw [BitVec.toNat_ofNat]
      exact Nat.mod_eq_of_lt (Nat.one_lt_two_pow (by omega))
    rw [BitVec.toNat_sub_of_le (by rw [BitVec.le_def, one]; omega), one]

/-- Clearing the low `k` bits rounds down to a multiple of `2 ^ k`. -/
theorem toNat_and_not_mask {s : BitVec w} {k : Nat} (power : s.toNat = 2 ^ k) (x : BitVec w) :
    (x &&& ~~~(s - 1)).toNat = x.toNat / 2 ^ k * 2 ^ k := by
  apply Nat.eq_of_testBit_eq
  intro i
  have mask : (s - 1).getLsbD i = decide (i < k) := by
    rw [getLsbD_eq_testBit, toNat_sub_one (by rw [power]; exact Nat.two_pow_pos k), power,
      Nat.testBit_two_pow_sub_one]
  rw [← getLsbD_eq_testBit, BitVec.getLsbD_and, BitVec.getLsbD_not, mask,
    Nat.testBit_mul_two_pow, Nat.testBit_div_two_pow, getLsbD_eq_testBit]
  by_cases low : i < k
  · simp [low]
  · have index : i - k + k = i := by omega
    by_cases inside : i < w
    · simp [low, inside, index, show k ≤ i by omega]
    · have bit : x.toNat.testBit i = false := BitVec.getLsbD_of_ge x i (by omega)
      simp [bit, index]

theorem toNat_sum {n s : BitVec w} (positive : 0 < s.toNat) :
    (n + s - 1).toNat = (n.toNat + s.toNat - 1) % 2 ^ w := by
  have regroup : n + s - 1 = n + (s - 1) := by
    rw [BitVec.sub_eq_add_neg, BitVec.add_assoc, ← BitVec.sub_eq_add_neg]
  rw [regroup, BitVec.toNat_add, toNat_sub_one positive, Nat.add_sub_assoc positive]

theorem toNat_alignUp {s : BitVec w} {k : Nat} (power : s.toNat = 2 ^ k) (n : BitVec w) :
    (alignUp n s).toNat = (n.toNat + s.toNat - 1) % 2 ^ w / s.toNat * s.toNat := by
  have positive : 0 < s.toNat := by rw [power]; exact Nat.two_pow_pos k
  rw [alignUp, toNat_and_not_mask power, toNat_sum positive, power]

/-- With no wrap, the result is the least multiple of `s` at or above `n`. -/
theorem toNat_alignUp_of_lt {s : BitVec w} {k : Nat} (power : s.toNat = 2 ^ k) {n : BitVec w}
    (room : n.toNat + s.toNat - 1 < 2 ^ w) :
    (alignUp n s).toNat = (n.toNat + s.toNat - 1) / s.toNat * s.toNat := by
  rw [toNat_alignUp power, Nat.mod_eq_of_lt room]

/-! ## For any `s` -/

theorem toNat_and_not_le (x m : BitVec w) : (x &&& ~~~m).toNat ≤ x.toNat := by
  rw [BitVec.toNat_and]
  exact Nat.and_le_left

section Bounds

variable {n s : BitVec w} (positive : 0 < s.toNat)
include positive

/-- When the sum wraps the result is below `s`. -/
theorem toNat_alignUp_lt_of_wraps (wraps : 2 ^ w ≤ n.toNat + s.toNat - 1) :
    (alignUp n s).toNat < s.toNat := by
  have below := toNat_and_not_le (n + s - 1) (s - 1)
  have small := n.isLt
  have size := s.isLt
  rw [toNat_sum positive, Nat.mod_eq_sub_mod wraps, Nat.mod_eq_of_lt (by omega)] at below
  rw [alignUp]
  omega

end Bounds

/-! ## When the mask is exact -/

/-- Adding `2 ^ j` flips bit `j`. -/
theorem getLsbD_add_twoPow (x : BitVec w) {j : Nat} (inside : j < w) :
    (x + BitVec.twoPow w j).getLsbD j = !x.getLsbD j := by
  rw [getLsbD_eq_testBit, BitVec.toNat_add, Nat.testBit_mod_two_pow,
    BitVec.toNat_twoPow_of_lt inside, Nat.add_comm, Nat.testBit_two_pow_add_eq,
    decide_eq_true inside, Bool.true_and, getLsbD_eq_testBit]

/-- A positive number all of whose bits up to its length are set, but for the
top one when nothing else is set, is one less than a power of two. -/
theorem exists_two_pow_of_testBit {m : Nat} (positive : 0 < m)
    (bits : ∀ j, 2 ^ j + 1 ≤ m → m.testBit j = true) : ∃ k, m + 1 = 2 ^ k := by
  have top := Nat.log2_self_le (Nat.pos_iff_ne_zero.mp positive)
  have above : m < 2 ^ (m.log2 + 1) := Nat.lt_log2_self
  refine ⟨m.log2 + 1, ?_⟩
  have all : ∀ j ≤ m.log2, m.testBit j = true := by
    intro j below
    have le : 2 ^ j ≤ 2 ^ m.log2 := Nat.pow_le_pow_right (by decide) below
    by_cases exact : 2 ^ j + 1 ≤ m
    · exact bits j exact
    · -- then `m = 2 ^ j`, whose only set bit is `j`
      rw [show m = 2 ^ j by omega, Nat.testBit_two_pow_self]
  have same : m = 2 ^ (m.log2 + 1) - 1 := by
    apply Nat.eq_of_testBit_eq
    intro j
    rw [Nat.testBit_two_pow_sub_one]
    by_cases below : j < m.log2 + 1
    · simp [below, all j (by omega)]
    · have high : m < 2 ^ j :=
        Nat.lt_of_lt_of_le above (Nat.pow_le_pow_right (by decide) (by omega))
      simp [below, Nat.testBit_lt_two_pow high]
  omega

/-- The sum of an aligned address, a step and an offset, cut to `w` bits. -/
theorem aligned_sum_mod {k q r : Nat} (narrow : k ≤ w) (offset : r < 2 ^ k) :
    (2 ^ k * q + r) % 2 ^ w = 2 ^ k * (q % 2 ^ (w - k)) + r := by
  have split : 2 ^ w = 2 ^ k * 2 ^ (w - k) := by rw [← Nat.pow_add]; congr 1; omega
  rw [split, Nat.mod_mul, Nat.mul_add_mod, Nat.mod_eq_of_lt offset,
    Nat.mul_add_div (Nat.two_pow_pos k), Nat.div_eq_of_lt offset, Nat.add_zero, Nat.add_comm]

theorem alignUp_sub_eq_iff {s : BitVec w} (two : 2 ≤ s.toNat) (b : BitVec w) :
    (∀ d : BitVec w, 0 < d.toNat → d.toNat < s.toNat → alignUp (b + d) s - s = b) ↔
      (∃ k, s.toNat = 2 ^ k) ∧ s.toNat ∣ b.toNat := by
  have size := s.isLt
  have wide : 0 < w := by
    rcases Nat.eq_zero_or_pos w with rfl | wide
    · simp at size; omega
    · exact wide
  have mask := toNat_sub_one (s := s) (by omega)
  constructor
  · intro fixed
    -- with `d = e + 1` the masked sum is `b + s + e`
    have clear : ∀ e : BitVec w, e.toNat + 1 < s.toNat → (b + s + e) &&& ~~~(s - 1) = b + s := by
      intro e below
      have next : (e + 1).toNat = e.toNat + 1 := by
        have one : (1 : BitVec w).toNat = 1 := by
          show (BitVec.ofNat w 1).toNat = 1
          rw [BitVec.toNat_ofNat]
          exact Nat.mod_eq_of_lt (Nat.one_lt_two_pow (by omega))
        rw [BitVec.toNat_add, one, Nat.mod_eq_of_lt (by omega)]
      have here := fixed (e + 1) (by omega) (by omega)
      have sum : b + (e + 1) + s - 1 = b + s + e := by
        rw [BitVec.sub_eq_add_neg]
        calc b + (e + 1) + s + -1 = b + s + e + (1 + -1) := by ac_rfl
          _ = b + s + e := by rw [← BitVec.sub_eq_add_neg, BitVec.sub_self, BitVec.add_zero]
      rw [alignUp, sum] at here
      calc (b + s + e) &&& ~~~(s - 1) = ((b + s + e) &&& ~~~(s - 1)) - s + s :=
            (BitVec.sub_add_cancel _ _).symm
        _ = b + s := by rw [here]
    have bits : ∀ j, 2 ^ j + 1 ≤ s.toNat - 1 → (s.toNat - 1).testBit j = true := by
      intro j below
      have inside : j < w := by
        rw [← Nat.pow_lt_pow_iff_right (a := 2) (by decide)]
        omega
      have step := clear (BitVec.twoPow w j) (by rw [BitVec.toNat_twoPow_of_lt inside]; omega)
      have bit := congrArg (fun x => BitVec.getLsbD x j) step
      simp only [BitVec.getLsbD_and, BitVec.getLsbD_not, inside, decide_true, Bool.true_and,
        getLsbD_add_twoPow _ inside] at bit
      have masked : (s - 1).getLsbD j = true := by
        cases here : (s - 1).getLsbD j with
        | true => rfl
        | false =>
            rw [here] at bit
            cases value : (b + s).getLsbD j <;> simp [value] at bit
      rwa [getLsbD_eq_testBit, mask] at masked
    obtain ⟨k, power⟩ := exists_two_pow_of_testBit (m := s.toNat - 1) (by omega) bits
    rw [show s.toNat - 1 + 1 = s.toNat by omega] at power
    refine ⟨⟨k, power⟩, ?_⟩
    have narrow : k ≤ w := by
      rw [← Nat.pow_le_pow_iff_right (a := 2) (by decide), ← power]
      omega
    -- `e = 0` says that `b + s` is a multiple of `2 ^ k`
    have exact := congrArg BitVec.toNat (clear 0 (by simp; omega))
    rw [show b + s + 0 = b + s from BitVec.add_zero _, toNat_and_not_mask power,
      BitVec.toNat_add] at exact
    have multiple : 2 ^ k ∣ (b.toNat + s.toNat) % 2 ^ w := by
      rw [← exact]
      exact Nat.dvd_mul_left _ _
    rw [Nat.dvd_mod_iff (Nat.pow_dvd_pow 2 narrow), power] at multiple
    rw [power]
    exact (Nat.dvd_add_left (Nat.dvd_refl _)).mp multiple
  · rintro ⟨⟨k, power⟩, q, aligned⟩ d positive below
    have narrow : k ≤ w := by
      rw [← Nat.pow_le_pow_iff_right (a := 2) (by decide), ← power]
      omega
    have up : alignUp (b + d) s = b + s := by
      apply BitVec.eq_of_toNat_eq
      have sum : (b + d + s - 1).toNat = (2 ^ k * (q + 1) + (d.toNat - 1)) % 2 ^ w := by
        have regroup : b + d + s - 1 = b + d + (s - 1) := by
          rw [BitVec.sub_eq_add_neg, BitVec.add_assoc, ← BitVec.sub_eq_add_neg]
        rw [regroup, BitVec.toNat_add, BitVec.toNat_add, Nat.mod_add_mod, mask, aligned, power,
          Nat.mul_succ]
        congr 1
        omega
      rw [alignUp, toNat_and_not_mask power, sum, aligned_sum_mod narrow (by omega),
        Nat.mul_add_div (Nat.two_pow_pos k), Nat.div_eq_of_lt (by omega), Nat.add_zero,
        BitVec.toNat_add, aligned, power, ← Nat.mul_succ]
      have whole := aligned_sum_mod (w := w) (q := q + 1) (r := 0) narrow (Nat.two_pow_pos k)
      simp only [Nat.add_zero] at whole
      rw [whole, Nat.mul_comm]
    rw [up, BitVec.add_sub_cancel]

end Itaro.Theory
