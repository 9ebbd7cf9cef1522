/-
# Cache.CobjCount -- counting up and down

A number in the pointer and a number in text count alike, over any run of
increments and up to both ends of `long long` (`cobjSdsIncrby_lockstep`).

Counting down is counting up by the negated `int`.  That is subtraction for every
`int` but `INT_MIN`, which negation does not change: a decrement by it subtracts
2^31 where it should add as much (`cobjSdsDecrby_subtracts_iff`).
-/
import Itaro.Cache.Cobj

namespace Itaro.Cache

set_option autoImplicit false

/-! ## Both encodings -/

/-- An object with a number in its pointer. -/
def numbered (num : BitVec 64) : Cobj := ⟨.string, .int, 0, 1, .num num, rfl⟩

theorem numbered_denotes (num : BitVec 64) : (numbered num).Denotes .int num.toInt :=
  ⟨rfl, rfl, isLongLong_toInt num, rfl⟩

theorem cobjSdsCreate_denotes (num : BitVec 64) :
    (cobjSdsCreate (sdsfromlonglong num)).Denotes .raw num.toInt :=
  ⟨rfl, rfl, isLongLong_toInt num, bytes_sdsfromlonglong num⟩

/-- Call by call, an object with its number in the pointer and one with it in text
return the same; both denote the sum if it fits, and neither changes if it does not. -/
def Lockstep : Int → Cobj → Cobj → List (BitVec 32) → Prop
  | _, _, _, [] => True
  | n, a, b, incr :: incrs =>
      let (code, a') := cobjSdsIncrby a incr
      let (code', b') := cobjSdsIncrby b incr
      let sum := n + incr.toInt
      code = code' ∧ (code = 0 ↔ IsLongLong sum) ∧
        if IsLongLong sum then
          a'.Denotes .int sum ∧ b'.Denotes .raw sum ∧ Lockstep sum a' b' incrs
        else code = -einval ∧ a' = a ∧ b' = b ∧ Lockstep n a b incrs

theorem cobjSdsIncrby_lockstep {n : Int} {a b : Cobj} (int : a.Denotes .int n)
    (raw : b.Denotes .raw n) (incrs : List (BitVec 32)) : Lockstep n a b incrs := by
  induction incrs generalizing n a b with
  | nil => exact trivial
  | cons incr incrs ih =>
      unfold Lockstep cobjSdsIncrby
      by_cases fits : IsLongLong (n + incr.toInt)
      · obtain ⟨a', stepA, denotesA⟩ := int.incrby fits
        obtain ⟨b', stepB, denotesB⟩ := raw.incrby fits
        simp only [stepA, stepB, if_pos fits]
        exact ⟨trivial, iff_of_true trivial fits, denotesA, denotesB, ih denotesA denotesB⟩
      · have stepA := int.incrby_refused fits
        have stepB := raw.incrby_refused fits
        simp only [stepA, stepB, if_neg fits]
        exact ⟨trivial, iff_of_false (by decide) fits, trivial, trivial, trivial, ih int raw⟩

/-- One below `LLONG_MAX`: the second increment is refused, the others are not. -/
theorem cobjSdsIncrby_lockstep_at_the_end :
    Lockstep (llongMax - 1).toInt (numbered (llongMax - 1))
      (cobjSdsCreate (sdsfromlonglong (llongMax - 1))) [1, 1, 0x80000000] :=
  cobjSdsIncrby_lockstep (numbered_denotes _) (cobjSdsCreate_denotes _) _

/-! ## Down -/

def intMin : BitVec 32 := 0x80000000

theorem toInt_neg_of_ne {decr : BitVec 32} (ne : decr ≠ intMin) : (-decr).toInt = -decr.toInt :=
  BitVec.toInt_neg_of_ne_intMin ne

/-- A decrement subtracts what leaves a `long long`, and refuses the rest. -/
def Subtracts (co : Cobj) (encoding : Encoding) (n : Int) (decr : BitVec 32) : Prop :=
  let (code, co') := cobjSdsDecrby co decr
  let difference := n - decr.toInt
  (code = 0 ↔ IsLongLong difference) ∧
    if IsLongLong difference then co'.Denotes encoding difference else code = -einval ∧ co' = co

/-- Up and down again by `d` leads back. -/
def Restores (co : Cobj) (encoding : Encoding) (n : Int) (d : BitVec 32) : Prop :=
  ∀ co₁ co₂, cobjSdsIncrby co d = (0, co₁) → cobjSdsDecrby co₁ d = (0, co₂) →
    co₂.Denotes encoding n

section

variable {co : Cobj} {encoding : Encoding} {n : Int} {decr : BitVec 32}

theorem subtracts_of_ne (denotes : co.Denotes encoding n) (ne : decr ≠ intMin) :
    Subtracts co encoding n decr := by
  have negated := toInt_neg_of_ne ne
  unfold Subtracts cobjSdsDecrby
  rw [sub_eq_add_neg, ← negated]
  by_cases fits : IsLongLong (n + (-decr).toInt)
  · obtain ⟨co', step, denotes'⟩ := denotes.incrby fits
    simp only [step, if_pos fits]
    exact ⟨iff_of_true trivial fits, denotes'⟩
  · have step := denotes.incrby_refused fits
    simp only [step, if_neg fits]
    exact ⟨iff_of_false (by decide) fits, trivial, trivial⟩

theorem restores_of_ne (denotes : co.Denotes encoding n) (ne : decr ≠ intMin) :
    Restores co encoding n decr := by
  intro co₁ co₂ up down
  by_cases fits : IsLongLong (n + decr.toInt)
  · obtain ⟨_, step, raised⟩ := denotes.incrby fits
    cases up.symm.trans step
    have back : n + decr.toInt + (-decr).toInt = n := by
      rw [toInt_neg_of_ne ne]
      omega
    have fitsAgain : IsLongLong (n + decr.toInt + (-decr).toInt) := by
      rw [back]
      exact denotes.fits
    obtain ⟨_, step, lowered⟩ := raised.incrby fitsAgain
    cases down.symm.trans step
    rwa [back] at lowered
  · have refused := up.symm.trans (denotes.incrby_refused fits)
    cases refused

/-- A decrement by `INT_MIN` is an increment by it. -/
theorem not_subtracts_intMin (denotes : co.Denotes encoding n) :
    ¬Subtracts co encoding n intMin := by
  have wraps : -intMin = intMin := by decide
  have value : intMin.toInt = -2 ^ 31 := by decide
  have range := isLongLong_iff.mp denotes.fits
  unfold Subtracts cobjSdsDecrby
  rw [wraps]
  intro subtracts
  by_cases fits : IsLongLong (n + intMin.toInt)
  · obtain ⟨co', step, denotes'⟩ := denotes.incrby fits
    simp only [step] at subtracts
    have difference : IsLongLong (n - intMin.toInt) := subtracts.1.mp trivial
    rw [if_pos difference] at subtracts
    have same := denotes'.unique subtracts.2
    omega
  · -- Too small to add `INT_MIN` to, `n` is small enough to subtract it.
    have step := denotes.incrby_refused fits
    simp only [step] at subtracts
    have small := isLongLong_iff.not.mp fits
    have refused : -einval = 0 := subtracts.1.mpr (isLongLong_iff.mpr (by omega))
    cases refused

/-- Decrements are subtractions for every `int` but one. -/
theorem cobjSdsDecrby_subtracts_iff (denotes : co.Denotes encoding n) (decr : BitVec 32) :
    Subtracts co encoding n decr ∧ Restores co encoding n decr ↔ decr ≠ intMin := by
  constructor
  · rintro ⟨subtracts, -⟩ rfl
    exact not_subtracts_intMin denotes subtracts
  · exact fun ne => ⟨subtracts_of_ne denotes ne, restores_of_ne denotes ne⟩

end

theorem cobjSdsDecrby_subtracts_one :
    Subtracts (numbered 1) .int 1 1 ∧ Restores (numbered 1) .int 1 1 ↔ (1 : BitVec 32) ≠ intMin :=
  cobjSdsDecrby_subtracts_iff (numbered_denotes 1) 1

/-- 0 less `INT_MIN` comes out as `INT_MIN`, with code 0. -/
theorem decrement_by_intMin :
    cobjSdsDecrby (numbered 0) intMin = (0, numbered (-0x80000000)) ∧
      ¬(∀ (co : Cobj) (encoding : Encoding) (n : Int) (decr : BitVec 32), co.Denotes encoding n →
        Subtracts co encoding n decr ∧ Restores co encoding n decr) :=
  ⟨by decide, fun all =>
    not_subtracts_intMin (numbered_denotes 0) (all _ _ _ intMin (numbered_denotes 0)).1⟩

end Itaro.Cache
