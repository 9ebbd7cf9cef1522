/-
# Theory.Outcomes -- computations that end in a value or in an error

`Ends x post err` says how `x` ends: in a value with `post` or in an error with `err`.
The rules follow how a computation is put together.  A loop over a list has an
invariant that knows what is left to do (`Ends.foldlM`).
-/
import Mathlib.Tactic.Common

namespace Itaro.Theory

set_option autoImplicit false

variable {ε α β σ : Type}

def Ends (x : Except ε α) (post : α → Prop) (err : ε → Prop) : Prop :=
  match x with
  | .ok a => post a
  | .error e => err e

namespace Ends

variable {x : Except ε α} {f : α → Except ε β} {post post' : α → Prop} {next : β → Prop}
  {err err' : ε → Prop}

@[simp] theorem ok_iff {a : α} : Ends (.ok a : Except ε α) post err ↔ post a := Iff.rfl

@[simp] theorem error_iff {e : ε} : Ends (.error e : Except ε α) post err ↔ err e := Iff.rfl

@[simp] theorem pure_iff {a : α} : Ends (pure a : Except ε α) post err ↔ post a := Iff.rfl

theorem mono (ends : Ends x post err) (value : ∀ a, post a → post' a) (error : ∀ e, err e → err' e) :
    Ends x post' err' := by
  cases x with
  | ok a => exact value a ends
  | error e => exact error e ends

theorem bind (first : Ends x post err) (rest : ∀ a, post a → Ends (f a) next err) :
    Ends (x >>= f) next err := by
  cases x with
  | ok a => exact rest a first
  | error e => exact first

/-- The first of two computations is known. -/
theorem bind_of_ok {a : α} (done : x = .ok a) (rest : Ends (f a) next err) : Ends (x >>= f) next err := by
  subst done
  exact rest

/-- **The rule for loops.** -/
theorem foldlM {turn : σ → α → Except ε σ} {I : List α → σ → Prop} {l : List α} {s : σ} (start : I l s)
    (turns : ∀ a l s, I (a :: l) s → Ends (turn s a) (I l) err) : Ends (l.foldlM turn s) (I []) err := by
  induction l generalizing s with
  | nil => exact start
  | cons a l ih =>
      rw [List.foldlM_cons]
      exact (turns a l s start).bind fun s' inv => ih inv

theorem exists_ok (ends : Ends x post fun _ => False) : ∃ a, x = .ok a ∧ post a := by
  cases x with
  | ok a => exact ⟨a, rfl, ends⟩
  | error e => exact ends.elim

theorem of_ok {a : α} (ends : Ends x post err) (done : x = .ok a) : post a := by
  subst done
  exact ends

theorem of_error {e : ε} (ends : Ends x post err) (failed : x = .error e) : err e := by
  subst failed
  exact ends

end Ends

end Itaro.Theory
