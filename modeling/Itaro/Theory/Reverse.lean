/-
# Theory.Reverse -- reversing in place

Two cursors walk towards each other and exchange what they stand on until they
meet.  What lies between them at the start is then reversed, and nothing else has
changed.
-/
import Mathlib.Data.List.Basic

namespace Itaro.Theory

set_option autoImplicit false

variable {α : Type}

/-- `aux = l[s]; l[s] = l[p]; l[p] = aux` -/
def exchange (l : List α) (s p : Nat) : List α :=
  match l[s]?, l[p]? with
  | some a, some b => (l.set s b).set p a
  | _, _ => l

/-- `while (s < p) { exchange; s++; p--; }` -/
def reverseBetween : List α → Nat → Nat → List α
  | l, _, 0 => l
  | l, s, p + 1 => if s < p + 1 then reverseBetween (exchange l s (p + 1)) (s + 1) p else l

theorem getElem?_exchange {l : List α} {s p : Nat} (order : s < p) (inside : p < l.length) (k : Nat) :
    (exchange l s p)[k]? = if k = s then l[p]? else if k = p then l[s]? else l[k]? := by
  have before : s < l.length := by omega
  have left : l[s]? = some l[s] := List.getElem?_eq_getElem _
  have right : l[p]? = some l[p] := List.getElem?_eq_getElem _
  unfold exchange
  simp only [left, right, List.getElem?_set, List.length_set]
  grind

theorem length_exchange (l : List α) (s p : Nat) : (exchange l s p).length = l.length := by
  unfold exchange
  split <;> simp

/-- Between the cursors the order is turned round. -/
theorem getElem?_reverseBetween (l : List α) (s p : Nat) (inside : p < l.length) (k : Nat) :
    (reverseBetween l s p)[k]? = if s ≤ k ∧ k ≤ p then l[s + p - k]? else l[k]? := by
  induction p generalizing l s with
  | zero =>
      unfold reverseBetween
      grind
  | succ p ih =>
      unfold reverseBetween
      by_cases apart : s < p + 1
      · have room : p < (exchange l s (p + 1)).length := by
          rw [length_exchange]
          omega
        rw [if_pos apart, ih _ _ room]
        simp only [getElem?_exchange apart inside]
        grind
      · grind

/-- With the cursors on the ends of a block, the block is reversed. -/
theorem reverseBetween_append (block rest : List α) :
    reverseBetween (block ++ rest) 0 (block.length - 1) = block.reverse ++ rest := by
  by_cases empty : block = []
  · simp [empty, reverseBetween]
  have long : 0 < block.length := List.length_pos_of_ne_nil empty
  apply List.ext_getElem?
  intro k
  rw [getElem?_reverseBetween _ _ _ (by simp; omega)]
  by_cases within : k < block.length
  · rw [if_pos (by omega), List.getElem?_append_left (by omega),
      List.getElem?_append_left (by simpa), List.getElem?_reverse within]
    congr 1
    omega
  · rw [if_neg (by omega), List.getElem?_append_right (by omega),
      List.getElem?_append_right (by simpa using within), List.length_reverse]

end Itaro.Theory
