/-
# Theory.ReverseCursor -- counting from the highest bit down

A cursor of `w` bits counts from its highest bit down: it is reversed, incremented and
reversed back.  `rank` is its place in that order.  The indices that agree with a
cursor in the low `k` bits, those of one bucket of a table of `2 ^ k`, are
neighbours there (`mod_eq_iff_rank`), and the step of a table of `2 ^ k` leads
behind them all (`rank_advance`).  So a cursor keeps its meaning when the table
changes its size: what has been passed is what has a lower rank.
-/
import Mathlib.Data.Nat.Bitwise
import Mathlib.Data.BitVec

namespace Itaro.Theory.ReverseCursor

set_option autoImplicit false

variable {w : Nat}

/-- The place of a cursor in the order of the reversed bits. -/
def rank (v : BitVec w) : Nat := v.reverse.toNat

/-- The mask of a table of `2 ^ k`. -/
def mask (w k : Nat) : BitVec w := BitVec.ofNat w (2 ^ k - 1)

/-- Behind all cursors with the same low `k` bits. -/
def advance (k : Nat) (v : BitVec w) : BitVec w := ((v ||| ~~~ mask w k).reverse + 1).reverse

/-- The increment of the bits from `k` on. -/
def bump (k : Nat) (v : BitVec w) : BitVec w :=
  (((v ||| mask w k) + 1) &&& ~~~ mask w k) ||| (v &&& mask w k)

theorem rank_lt (v : BitVec w) : rank v < 2 ^ w := v.reverse.isLt

theorem rank_reverse (v : BitVec w) : rank v.reverse = v.toNat := by
  rw [rank, BitVec.reverse_reverse_eq]

theorem rank_injective {u v : BitVec w} (same : rank u = rank v) : u = v := by
  have reversed : u.reverse = v.reverse := BitVec.eq_of_toNat_eq same
  rw [← BitVec.reverse_reverse_eq (x := u), reversed, BitVec.reverse_reverse_eq]

@[simp] theorem rank_zero : rank (0#w) = 0 := by
  rw [rank, BitVec.reverse_eq_zero_iff.mpr rfl]
  exact BitVec.toNat_zero

theorem testBit_rank (v : BitVec w) (i : Nat) :
    (rank v).testBit i = (decide (i < w) && v.getLsbD (w - 1 - i)) := by
  rw [rank, BitVec.testBit_toNat, BitVec.getLsbD_reverse, BitVec.getMsbD_eq_getLsbD]

theorem getLsbD_mask {k : Nat} (bound : k ≤ w) (i : Nat) :
    (mask w k).getLsbD i = decide (i < k) := by
  rw [mask, BitVec.getLsbD_ofNat, Nat.testBit_two_pow_sub_one]
  by_cases inside : i < k
  · have below : i < w := by omega
    simp [inside, below]
  · simp [inside]

theorem toNat_and_mask {k : Nat} (bound : k ≤ w) (v : BitVec w) :
    (v &&& mask w k).toNat = v.toNat % 2 ^ k := by
  apply Nat.eq_of_testBit_eq
  intro i
  rw [BitVec.testBit_toNat, BitVec.getLsbD_and, getLsbD_mask bound, Nat.testBit_mod_two_pow,
    BitVec.testBit_toNat, Bool.and_comm]

/-- Filling the low bits of a number. -/
theorem testBit_fill (a n i : Nat) :
    (2 ^ n * a + (2 ^ n - 1)).testBit i = if i < n then true else a.testBit (i - n) := by
  have small : 2 ^ n - 1 < 2 ^ n := Nat.sub_lt (Nat.two_pow_pos n) Nat.one_pos
  rw [Nat.testBit_two_pow_mul_add a small]
  by_cases below : i < n
  · simp [below, Nat.testBit_two_pow_sub_one]
  · simp [below]

/-! ## Buckets are intervals -/

theorem mod_eq_iff_bits {k : Nat} (x y : BitVec w) :
    x.toNat % 2 ^ k = y.toNat % 2 ^ k ↔ ∀ i < k, x.getLsbD i = y.getLsbD i := by
  constructor
  · intro same i below
    have bit := congrArg (fun n => n.testBit i) same
    simpa [Nat.testBit_mod_two_pow, below, BitVec.testBit_toNat] using bit
  · intro bits
    apply Nat.eq_of_testBit_eq
    intro i
    rw [Nat.testBit_mod_two_pow, Nat.testBit_mod_two_pow, BitVec.testBit_toNat,
      BitVec.testBit_toNat]
    by_cases below : i < k
    · rw [bits i below]
    · simp [below]

theorem div_rank_eq_iff_bits {k : Nat} (bound : k ≤ w) (x y : BitVec w) :
    rank x / 2 ^ (w - k) = rank y / 2 ^ (w - k) ↔ ∀ i < k, x.getLsbD i = y.getLsbD i := by
  constructor
  · intro same i below
    have bit := congrArg (fun n => n.testBit (k - 1 - i)) same
    have place : k - 1 - i + (w - k) < w := by omega
    have back : w - 1 - (k - 1 - i + (w - k)) = i := by omega
    simpa [Nat.testBit_div_two_pow, testBit_rank, place, back] using bit
  · intro bits
    apply Nat.eq_of_testBit_eq
    intro i
    rw [Nat.testBit_div_two_pow, Nat.testBit_div_two_pow, testBit_rank, testBit_rank]
    by_cases below : i + (w - k) < w
    · rw [bits (w - 1 - (i + (w - k))) (by omega)]
    · simp [below]

/-- The indices of one bucket are neighbours in the order of the cursor. -/
theorem mod_eq_iff_rank {k : Nat} (bound : k ≤ w) (x y : BitVec w) :
    x.toNat % 2 ^ k = y.toNat % 2 ^ k ↔ rank x / 2 ^ (w - k) = rank y / 2 ^ (w - k) := by
  rw [mod_eq_iff_bits, div_rank_eq_iff_bits bound]

/-! ## The steps -/

theorem div_rank_lt {k : Nat} (bound : k ≤ w) (v : BitVec w) : rank v / 2 ^ (w - k) < 2 ^ k := by
  apply Nat.div_lt_of_lt_mul
  rw [← Nat.pow_add, Nat.sub_add_cancel bound]
  exact rank_lt v

theorem rank_fill {k : Nat} (bound : k ≤ w) (v : BitVec w) :
    rank (v ||| ~~~ mask w k) = 2 ^ (w - k) * (rank v / 2 ^ (w - k)) + (2 ^ (w - k) - 1) := by
  apply Nat.eq_of_testBit_eq
  intro i
  rw [testBit_fill, testBit_rank, BitVec.getLsbD_or, BitVec.getLsbD_not, getLsbD_mask bound]
  by_cases inside : i < w
  · have index : w - 1 - i < w := by omega
    by_cases filled : i < w - k
    · have high : ¬ w - 1 - i < k := by omega
      simp [inside, index, filled, high]
    · have low : w - 1 - i < k := by omega
      have place : i - (w - k) + (w - k) = i := by omega
      simp [inside, low, filled, Nat.testBit_div_two_pow, testBit_rank, place]
  · have outside : ¬ i < w - k := by omega
    have place : i - (w - k) + (w - k) = i := by omega
    simp [inside, outside, Nat.testBit_div_two_pow, testBit_rank, place]

/-- One step leads to the next bucket, and from the last one to 0. -/
theorem rank_advance {k : Nat} (bound : k ≤ w) (v : BitVec w) :
    rank (advance k v) = (2 ^ (w - k) * (rank v / 2 ^ (w - k) + 1)) % 2 ^ w := by
  have filled := rank_fill bound v
  have positive := Nat.two_pow_pos (w - k)
  rw [advance, rank_reverse, BitVec.toNat_add, ← rank, filled, BitVec.ofNat_eq_ofNat,
    BitVec.toNat_ofNat, Nat.add_mod_mod, Nat.add_assoc, Nat.sub_add_cancel positive, Nat.mul_succ]

/-- The step either passes exactly the bucket, -/
theorem lt_rank_advance {k : Nat} (bound : k ≤ w) {v : BitVec w} (more : advance k v ≠ 0#w)
    (x : BitVec w) :
    rank x < rank (advance k v) ↔ rank x / 2 ^ (w - k) ≤ rank v / 2 ^ (w - k) := by
  have positive := Nat.two_pow_pos (w - k)
  have width : 2 ^ w = 2 ^ (w - k) * 2 ^ k := by rw [← Nat.pow_add]; congr 1; omega
  have last : rank v / 2 ^ (w - k) + 1 ≤ 2 ^ k := by
    apply Nat.div_lt_of_lt_mul
    rw [← width]
    exact rank_lt v
  have step := rank_advance bound v
  have inside : rank v / 2 ^ (w - k) + 1 ≠ 2 ^ k := by
    intro full
    rw [full, ← width, Nat.mod_self] at step
    exact more (rank_injective (step.trans rank_zero.symm))
  have small : 2 ^ (w - k) * (rank v / 2 ^ (w - k) + 1) < 2 ^ w := by
    rw [width]
    exact Nat.mul_lt_mul_of_pos_left (by omega) positive
  rw [step, Nat.mod_eq_of_lt small, Nat.mul_comm, ← Nat.div_lt_iff_lt_mul positive,
    Nat.lt_succ_iff]

/-- or was the step from the last, -/
theorem advance_eq_zero_iff {k : Nat} (bound : k ≤ w) {v : BitVec w} :
    advance k v = 0#w ↔ rank v / 2 ^ (w - k) + 1 = 2 ^ k := by
  have positive := Nat.two_pow_pos (w - k)
  have width : 2 ^ w = 2 ^ (w - k) * 2 ^ k := by rw [← Nat.pow_add]; congr 1; omega
  have step := rank_advance bound v
  constructor
  · intro done
    rw [done, rank_zero] at step
    have below := div_rank_lt bound v
    by_contra short
    have small : 2 ^ (w - k) * (rank v / 2 ^ (w - k) + 1) < 2 ^ w := by
      rw [width]
      exact Nat.mul_lt_mul_of_pos_left (by omega) positive
    rw [Nat.mod_eq_of_lt small] at step
    exact Nat.ne_of_lt (Nat.mul_pos positive (Nat.succ_pos _)) step
  · intro last
    apply rank_injective
    rw [step, last, ← width, Nat.mod_self, rank_zero]

/-- which leaves nothing ahead. -/
theorem le_of_advance_eq_zero {k : Nat} (bound : k ≤ w) {v : BitVec w} (done : advance k v = 0#w)
    (x : BitVec w) : rank x / 2 ^ (w - k) ≤ rank v / 2 ^ (w - k) := by
  have last := (advance_eq_zero_iff bound).mp done
  have below := div_rank_lt bound x
  omega

theorem rank_advance_of_ne_zero {k : Nat} (bound : k ≤ w) {v : BitVec w}
    (more : advance k v ≠ 0#w) : rank (advance k v) = 2 ^ (w - k) * (rank v / 2 ^ (w - k) + 1) := by
  have positive := Nat.two_pow_pos (w - k)
  have passed : rank v < rank (advance k v) := (lt_rank_advance bound more v).mpr (Nat.le_refl _)
  have step := rank_advance bound v
  rw [step, Nat.mod_eq_of_lt]
  by_contra wrapped
  have width : 2 ^ w = 2 ^ (w - k) * 2 ^ k := by rw [← Nat.pow_add]; congr 1; omega
  have last : rank v / 2 ^ (w - k) + 1 ≤ 2 ^ k := by
    apply Nat.div_lt_of_lt_mul
    rw [← width]
    exact rank_lt v
  have full : 2 ^ (w - k) * (rank v / 2 ^ (w - k) + 1) = 2 ^ w := by
    apply Nat.le_antisymm _ (Nat.le_of_not_lt wrapped)
    rw [width]
    exact Nat.mul_le_mul_left _ last
  rw [step, full, Nat.mod_self] at passed
  exact absurd passed (Nat.not_lt_zero _)

theorem div_rank_advance {k : Nat} (bound : k ≤ w) {v : BitVec w} (more : advance k v ≠ 0#w) :
    rank (advance k v) / 2 ^ (w - k) = rank v / 2 ^ (w - k) + 1 := by
  rw [rank_advance_of_ne_zero bound more, Nat.mul_div_cancel_left _ (Nat.two_pow_pos _)]

/-- The step depends on the low bits. -/
theorem advance_congr {k : Nat} (bound : k ≤ w) {u v : BitVec w}
    (same : u.toNat % 2 ^ k = v.toNat % 2 ^ k) : advance k u = advance k v := by
  apply rank_injective
  rw [rank_advance bound, rank_advance bound, (mod_eq_iff_rank bound u v).mp same]

/-- However fine the table, the step is one of its steps at least. -/
theorem div_rank_lt_advance {k n : Nat} (coarse : k ≤ n) (bound : n ≤ w) {v : BitVec w}
    (more : advance k v ≠ 0#w) :
    rank v / 2 ^ (w - n) < rank (advance k v) / 2 ^ (w - n) := by
  have positive := Nat.two_pow_pos (w - n)
  have width : 2 ^ (w - k) = 2 ^ (w - n) * 2 ^ (n - k) := by
    rw [← Nat.pow_add]
    congr 1
    omega
  have passed := (lt_rank_advance (Nat.le_trans coarse bound) more v).mpr (Nat.le_refl _)
  rw [rank_advance_of_ne_zero (Nat.le_trans coarse bound) more] at passed ⊢
  rw [width, Nat.mul_assoc] at passed ⊢
  rw [Nat.mul_div_cancel_left _ positive]
  exact Nat.div_lt_of_lt_mul passed

/-- The step leaves nothing above the mask. -/
theorem advance_lt {k : Nat} (bound : k ≤ w) (v : BitVec w) : (advance k v).toNat < 2 ^ k := by
  apply Nat.lt_pow_two_of_testBit
  intro i above
  rw [BitVec.testBit_toNat]
  by_cases inside : i < w
  · have bit := testBit_rank (advance k v) (w - 1 - i)
    have index : w - 1 - i < w := by omega
    have back : w - 1 - (w - 1 - i) = i := by omega
    have low : w - 1 - i < w - k := by omega
    rw [back] at bit
    rw [rank_advance bound, Nat.testBit_mod_two_pow, Nat.testBit_two_pow_mul] at bit
    simpa [index, Nat.not_le_of_lt low] using bit.symm
  · exact BitVec.getLsbD_of_ge _ _ (Nat.le_of_not_lt inside)

/-- In the larger of two tables, what is not passed yet of the bucket of a cursor lies
from the cursor on, if that has at most one bit above the mask of the smaller. -/
theorem mod_le_of_rank_le {k n : Nat} (coarse : k ≤ n) (bound : n ≤ w) {v x : BitVec w}
    (small : v.toNat < 2 ^ (k + 1)) (ahead : rank v ≤ rank x)
    (same : x.toNat % 2 ^ k = v.toNat % 2 ^ k) : v.toNat % 2 ^ n ≤ x.toNat % 2 ^ n := by
  have split := Nat.mod_mod_of_dvd x.toNat (Nat.pow_dvd_pow 2 coarse)
  have least : v.toNat % 2 ^ k ≤ x.toNat % 2 ^ n := by
    rw [← same, ← split]
    exact Nat.mod_le _ _
  rcases Nat.eq_or_lt_of_le coarse with rfl | finer
  · exact least
  have wide : v.toNat < 2 ^ n := Nat.lt_of_lt_of_le small (Nat.pow_le_pow_right Nat.two_pos finer)
  rw [Nat.mod_eq_of_lt wide]
  by_cases low : v.toNat < 2 ^ k
  · rwa [Nat.mod_eq_of_lt low] at least
  -- The one bit above the mask comes next in the order, so `x` has it too.
  have width : 2 ^ (w - k) = 2 ^ (w - (k + 1)) * 2 := by
    rw [← Nat.pow_succ]
    congr 1
    omega
  have odd : rank v / 2 ^ (w - (k + 1)) % 2 = 1 := by
    have bit := testBit_rank v (w - (k + 1))
    have index : w - (k + 1) < w := by omega
    have back : w - 1 - (w - (k + 1)) = k := by omega
    have set : v.toNat / 2 ^ k = 1 := by
      apply Nat.div_eq_of_lt_le
      · omega
      · rw [Nat.pow_succ] at small
        omega
    rw [back, ← BitVec.testBit_toNat, Nat.testBit_eq_decide_div_mod_eq,
      Nat.testBit_eq_decide_div_mod_eq, set] at bit
    simpa [index] using bit
  have halves := (mod_eq_iff_rank (by omega : k ≤ w) x v).mp same
  rw [width, ← Nat.div_div_eq_div_mul, ← Nat.div_div_eq_div_mul] at halves
  have order : rank v / 2 ^ (w - (k + 1)) ≤ rank x / 2 ^ (w - (k + 1)) := Nat.div_le_div_right ahead
  have next := (mod_eq_iff_rank (by omega : k + 1 ≤ w) x v).mpr (by omega)
  rw [Nat.mod_eq_of_lt small] at next
  rw [← next, ← Nat.mod_mod_of_dvd x.toNat (Nat.pow_dvd_pow 2 finer)]
  exact Nat.mod_le _ _

/-- The bits from `k` on are incremented by adding `2 ^ k`. -/
theorem bump_eq {k : Nat} (bound : k < w) (v : BitVec w) : bump k v = v + BitVec.twoPow w k := by
  have positive := Nat.two_pow_pos k
  have filled : (v ||| mask w k).toNat = 2 ^ k * (v.toNat / 2 ^ k) + (2 ^ k - 1) := by
    apply Nat.eq_of_testBit_eq
    intro i
    rw [BitVec.testBit_toNat, BitVec.getLsbD_or, getLsbD_mask bound.le, testBit_fill]
    by_cases low : i < k
    · simp [low]
    · have place : i - k + k = i := by omega
      simp [low, Nat.testBit_div_two_pow, place, BitVec.testBit_toNat]
  have carried : ((v ||| mask w k) + 1).toNat = 2 ^ k * (v.toNat / 2 ^ k + 1) % 2 ^ w := by
    rw [BitVec.toNat_add, filled, BitVec.ofNat_eq_ofNat, BitVec.toNat_ofNat, Nat.add_mod_mod,
      Nat.add_assoc, Nat.sub_add_cancel positive, Nat.mul_succ]
  have sum : (v + BitVec.twoPow w k).toNat =
      (2 ^ k * (v.toNat / 2 ^ k + 1) + v.toNat % 2 ^ k) % 2 ^ w := by
    have split := Nat.div_add_mod v.toNat (2 ^ k)
    rw [BitVec.toNat_add, BitVec.toNat_twoPow, Nat.add_mod_mod, Nat.mul_succ]
    congr 1
    omega
  apply BitVec.eq_of_getLsbD_eq
  intro i inside
  rw [← BitVec.testBit_toNat (x := v + _), sum, bump, BitVec.getLsbD_or, BitVec.getLsbD_and,
    BitVec.getLsbD_and, BitVec.getLsbD_not, getLsbD_mask bound.le, ← BitVec.testBit_toNat, carried,
    Nat.testBit_mod_two_pow, Nat.testBit_mod_two_pow,
    Nat.testBit_two_pow_mul_add _ (Nat.mod_lt _ positive), Nat.testBit_two_pow_mul]
  by_cases low : i < k
  · simp [inside, low, Nat.testBit_mod_two_pow, BitVec.testBit_toNat]
  · have high : k ≤ i := by omega
    simp [inside, low, high]

theorem bump_mod {k n : Nat} (bound : k < w) (wide : n ≤ w) (v : BitVec w) :
    (bump k v).toNat % 2 ^ n = (v.toNat + 2 ^ k) % 2 ^ n := by
  rw [bump_eq bound, BitVec.toNat_add, BitVec.toNat_twoPow, Nat.add_mod_mod,
    Nat.mod_mod_of_dvd _ (Nat.pow_dvd_pow 2 wide)]

/-- No bit is set between the masks of two tables. -/
theorem and_masks_eq_zero {k n : Nat} (coarse : k ≤ n) (bound : n ≤ w) (v : BitVec w) :
    v &&& (mask w k ^^^ mask w n) = 0#w ↔ v.toNat % 2 ^ n < 2 ^ k := by
  have between : ∀ i, (v &&& (mask w k ^^^ mask w n)).getLsbD i =
      (v.getLsbD i && (decide (i < n) && !decide (i < k))) := by
    intro i
    rw [BitVec.getLsbD_and, BitVec.getLsbD_xor, getLsbD_mask (Nat.le_trans coarse bound),
      getLsbD_mask bound]
    by_cases low : i < k
    · have high : i < n := Nat.lt_of_lt_of_le low coarse
      simp [low, high]
    · simp [low]
  constructor
  · intro clear
    apply Nat.lt_pow_two_of_testBit
    intro i high
    have bit := between i
    rw [clear, BitVec.getLsbD_zero] at bit
    rw [Nat.testBit_mod_two_pow, BitVec.testBit_toNat]
    by_cases inside : i < n
    · simpa [inside, Nat.not_lt_of_le high] using bit.symm
    · simp [inside]
  · intro small
    apply BitVec.eq_of_getLsbD_eq
    intro i _
    rw [between, BitVec.getLsbD_zero]
    by_cases inside : k ≤ i ∧ i < n
    · have bit := Nat.testBit_lt_two_pow (Nat.lt_of_lt_of_le small
        (Nat.pow_le_pow_right Nat.two_pos inside.1))
      rw [Nat.testBit_mod_two_pow, BitVec.testBit_toNat] at bit
      simp [inside.2] at bit
      simp [bit]
    · by_cases high : i < n
      · have low : i < k := by omega
        simp [low]
      · simp [high]

end Itaro.Theory.ReverseCursor
