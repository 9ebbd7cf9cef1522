/-
# Theory.Count -- counting the elements of a list that have a property

A state machine that keeps statistics changes one element at a time.
`countP_update` says what that does to a count, and `sum_countP` adds up the
counts of properties that exclude each other.

A count is kept in a machine word that is stepped up and down; `Ticks` relates the
word before and after to what the element had and has, and a word that ticks with
the count is the count, cut to its width (`Ticks.count`).
-/
import Mathlib.Algebra.BigOperators.Group.Finset.Basic
import Mathlib.Data.List.Nodup

namespace Itaro.Theory

set_option autoImplicit false

universe u v

variable {α : Type u} {κ : Type v} {l : List α}

/-- Two properties that agree off `j` differ in count by what they say about `j`. -/
theorem countP_update {p q : α → Bool} {j : α} (nodup : l.Nodup) (member : j ∈ l)
    (same : ∀ i ∈ l, i ≠ j → p i = q i) : l.countP q + (p j).toNat = l.countP p + (q j).toNat := by
  induction l with
  | nil => cases member
  | cons i l ih =>
      obtain ⟨fresh, nodup⟩ := List.nodup_cons.mp nodup
      rw [List.countP_cons, List.countP_cons]
      by_cases here : i = j
      · subst here
        have rest : l.countP q = l.countP p := List.countP_congr fun k inside => by
          rw [same k (List.mem_cons_of_mem i inside) fun eq => fresh (eq ▸ inside)]
        rw [rest]
        cases p i <;> cases q i <;> simp
      · have inside : j ∈ l := (List.mem_cons.mp member).resolve_left fun eq => here eq.symm
        have step := ih nodup inside fun k there => same k (List.mem_cons_of_mem i there)
        rw [same i List.mem_cons_self here]
        omega

/-- Every element has `q` iff it has one of the properties, and then just one. -/
theorem sum_countP {s : Finset κ} {p : κ → α → Bool} {q : α → Bool}
    (one : ∀ x ∈ l, ∑ k ∈ s, (p k x).toNat = (q x).toNat) :
    ∑ k ∈ s, l.countP (p k) = l.countP q := by
  induction l with
  | nil => simp
  | cons x l ih =>
      have rest := ih fun y inside => one y (List.mem_cons_of_mem x inside)
      have here := one x List.mem_cons_self
      have count : ∀ r : α → Bool, (x :: l).countP r = l.countP r + (r x).toNat := fun r => by
        rw [List.countP_cons]
        cases r x <;> rfl
      simp only [count, Finset.sum_add_distrib, rest, here]

/-! ## Counting in a word -/

/-- `x` became `x'` while an element that had the property iff `p` came to have it
iff `q`. -/
def Ticks {n : Nat} (x x' : BitVec n) (p q : Bool) : Prop :=
  x' + BitVec.ofNat n p.toNat = x + BitVec.ofNat n q.toNat

namespace Ticks

variable {n : Nat} {x x' y : BitVec n} {p q : Bool}

theorem refl (x : BitVec n) (p : Bool) : Ticks x x p p := rfl

theorem up (x : BitVec n) : Ticks x (x + 1) false true := BitVec.add_zero _

theorem down (x : BitVec n) : Ticks x (x + -1) true false := by
  show x + -1#n + 1#n = x + 0#n
  rw [BitVec.add_assoc, BitVec.add_left_neg]

theorem unique (first : Ticks x x' p q) (second : Ticks x y p q) : x' = y :=
  (BitVec.add_left_inj _).mp (first.trans second.symm)

theorem symm (ticks : Ticks x x' p q) : Ticks x' x q p := Eq.symm ticks

/-- A word that ticks with the count. -/
theorem count {a a' : Nat} (ticks : Ticks x x' p q) (step : a' + p.toNat = a + q.toNat)
    (word : x = BitVec.ofNat n a) : x' = BitVec.ofNat n a' := by
  refine ticks.unique ?_
  rw [Ticks, word, ← BitVec.ofNat_add, ← BitVec.ofNat_add, step]

theorem count_iff {a a' : Nat} (ticks : Ticks x x' p q) (step : a' + p.toNat = a + q.toNat) :
    x = BitVec.ofNat n a ↔ x' = BitVec.ofNat n a' :=
  ⟨ticks.count step, ticks.symm.count step.symm⟩

end Ticks

end Itaro.Theory
