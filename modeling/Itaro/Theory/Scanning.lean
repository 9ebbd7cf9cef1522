/-
# Theory.Scanning -- reading a text from its front

`literal t s` is what follows `t` in `s`, if `s` starts with it.  A longest word with a
property is read with `List.span`; where the text goes on with something else, the
word is found again (`span_append`).
-/
import Mathlib.Data.List.TakeDrop

namespace Itaro.Theory

set_option autoImplicit false

universe u

variable {α : Type u}

def literal [DecidableEq α] (t s : List α) : Option (List α) :=
  if t <+: s then some (s.drop t.length) else none

@[simp] theorem literal_append [DecidableEq α] (t rest : List α) : literal t (t ++ rest) = some rest := by
  simp [literal]

theorem span_append {p : α → Bool} {word rest : List α} (inside : ∀ c ∈ word, p c = true)
    (stops : ∀ c, rest.head? = some c → p c = false) : (word ++ rest).span p = (word, rest) := by
  rw [List.span_eq_takeWhile_dropWhile, List.takeWhile_append_of_pos inside, List.dropWhile_append_of_pos inside]
  cases rest with
  | nil => simp
  | cons c rest => simp [stops c rfl]

end Itaro.Theory
