/-
# Theory.Runs -- finite runs of a labelled step relation

`Run step s as s'` says that the labels `as` lead from `s` to `s'`.  A property
that every step preserves holds at the end of every run (`Run.invariant`); as the
runs grow at their end, that is every state a run passes through.  A guard that is added to the steps, such
as a condition under which a step is well behaved, is a smaller step relation;
`Run.mono` moves a run between the two.  A run of a system is one of each of its parts, if
every step is one of the part or leaves it alone (`Run.project`).
-/
import Mathlib.Tactic.Common

namespace Itaro.Theory

set_option autoImplicit false

universe u v

variable {σ : Type u} {α : Type v}

/-- The labels lead from the first state to the last. -/
inductive Run (step : σ → α → σ → Prop) : σ → List α → σ → Prop
  | nil (s : σ) : Run step s [] s
  | snoc {s t t' : σ} {as : List α} {a : α} (run : Run step s as t) (last : step t a t') :
      Run step s (as ++ [a]) t'

namespace Run

variable {step step' : σ → α → σ → Prop} {s t : σ} {as : List α}

/-- **The invariant rule.** -/
theorem invariant {I : σ → Prop} (preserved : ∀ s a s', I s → step s a s' → I s')
    (run : Run step s as t) (initial : I s) : I t := by
  induction run with
  | nil => exact initial
  | snoc _ last ih => exact preserved _ _ _ ih last

theorem mono (sub : ∀ s a s', step s a s' → step' s a s') (run : Run step s as t) :
    Run step' s as t := by
  induction run with
  | nil => exact .nil _
  | snoc _ last ih => exact .snoc ih (sub _ _ _ last)

/-- An invariant may be used at every step. -/
theorem guarded {I : σ → Prop} (preserved : ∀ s a s', I s → step s a s' → I s')
    (run : Run step s as t) (initial : I s) : Run (fun s a s' => I s ∧ step s a s' ∧ I s') s as t := by
  induction run with
  | nil => exact .nil _
  | snoc run last ih =>
      have before := run.invariant preserved initial
      exact .snoc ih ⟨before, last, preserved _ _ _ before last⟩

/-- **The projection rule.**  `seen` says which steps are seen, and as what. -/
theorem project {τ : Type*} {β : Type*} {part : τ → β → τ → Prop} {f : σ → τ} {g : α → Option β}
    (seen : ∀ s a s' b, step s a s' → g a = some b → part (f s) b (f s'))
    (unseen : ∀ s a s', step s a s' → g a = none → f s' = f s) (run : Run step s as t) :
    Run part (f s) (as.filterMap g) (f t) := by
  induction run with
  | nil => exact .nil _
  | @snoc t t' as a run last ih =>
      rw [List.filterMap_append]
      cases visible : g a with
      | none =>
          rw [unseen _ _ _ last visible, List.filterMap_cons_none visible]
          exact (List.append_nil _).symm ▸ ih
      | some b =>
          rw [List.filterMap_cons_some visible]
          exact .snoc ih (seen _ _ _ b last visible)

/-- What holds of every label may be used at every step. -/
theorem restrict {G : α → Prop} (run : Run step s as t) (all : ∀ a ∈ as, G a) :
    Run (fun s a t => step s a t ∧ G a) s as t := by
  induction run with
  | nil => exact .nil _
  | snoc _ last ih =>
      have before := ih fun a member => all a (List.mem_append_left _ member)
      exact .snoc before ⟨last, all _ (List.mem_append_right _ List.mem_cons_self)⟩

theorem single {a : α} (only : step s a t) : Run step s [a] t := .snoc (.nil s) only

end Run

end Itaro.Theory
