/-
# Theory.Separators -- a sequence cut at each leftmost separator

`Splits sep s tokens`: reading `s` from the left, each token ends where the separator is
first met, and the search goes on behind it.  A sequence has at most one such splitting
(`Splits.unique`); joined with the separator the tokens are the sequence again
(`Splits.intercalate`), and none of them contains a separator (`Splits.clean`).  For a
separator of one letter the tokens are any without that letter (`Splits.of_clean`).
-/
import Mathlib.Data.List.Infix

namespace Itaro

set_option autoImplicit false

variable {α : Type}

/-- The separator behind `t` is the first one. -/
def Unmet (sep t : List α) : Prop := ∀ p < t.length, ¬ sep <+: (t ++ sep).drop p

inductive Splits (sep : List α) : List α → List (List α) → Prop
  | last {s : List α} (clean : ¬ sep <:+: s) : Splits sep s [s]
  | cut {t rest : List α} {tokens : List (List α)} (unmet : Unmet sep t) (splits : Splits sep rest tokens) :
      Splits sep (t ++ (sep ++ rest)) (t :: tokens)

/-- What is behind the separator cannot make one appear earlier. -/
theorem prefix_drop_iff {sep t : List α} (rest : List α) {p : Nat} (inside : p < t.length) :
    sep <+: (t ++ (sep ++ rest)).drop p ↔ sep <+: (t ++ sep).drop p := by
  have shorter : sep.length ≤ ((t ++ sep).drop p).length := by
    rw [List.length_drop, List.length_append]
    omega
  rw [← List.append_assoc, List.drop_append_of_le_length (by rw [List.length_append]; omega)]
  constructor
  · exact fun before => List.prefix_of_prefix_length_le before (List.prefix_append _ _) shorter
  · exact fun before => before.trans (List.prefix_append _ _)

theorem infix_iff_prefix_drop {sep s : List α} : sep <:+: s ↔ ∃ p, p + sep.length ≤ s.length ∧ sep <+: s.drop p := by
  constructor
  · rintro ⟨before, behind, rfl⟩
    refine ⟨before.length, ?_, behind, ?_⟩
    · simp only [List.length_append]
      omega
    · rw [List.append_assoc, List.drop_left]
  · rintro ⟨p, -, found⟩
    exact found.isInfix.trans (List.drop_suffix p s).isInfix

theorem mem_intercalate {sep t : List α} {tokens : List (List α)} {c : α} (mem : t ∈ tokens) (inside : c ∈ t) :
    c ∈ List.intercalate sep tokens := by
  induction tokens with
  | nil => exact absurd mem List.not_mem_nil
  | cons head tokens ih =>
    cases tokens with
    | nil =>
      rw [List.intercalate_singleton]
      exact List.mem_singleton.mp mem ▸ inside
    | cons next tokens =>
      rw [List.intercalate_cons_cons, List.mem_append, List.mem_append]
      rcases List.mem_cons.mp mem with rfl | later
      · exact .inl (.inl inside)
      · exact .inr (ih later)

namespace Splits

variable {sep s : List α} {tokens : List (List α)}

theorem ne_nil (splits : Splits sep s tokens) : tokens ≠ [] := by
  cases splits with
  | last => exact List.cons_ne_nil _ _
  | cut => exact List.cons_ne_nil _ _

theorem intercalate (splits : Splits sep s tokens) : List.intercalate sep tokens = s := by
  induction splits with
  | last => rw [List.intercalate_singleton]
  | @cut t rest tokens unmet splits ih =>
    obtain ⟨head, tail, rfl⟩ := List.exists_cons_of_ne_nil splits.ne_nil
    rw [List.intercalate_cons_cons, ih, List.append_assoc]

theorem clean (nonempty : sep ≠ []) (splits : Splits sep s tokens) : ∀ t ∈ tokens, ¬ sep <:+: t := by
  induction splits with
  | @last s clean =>
    intro t mem
    rw [List.mem_singleton.mp mem]
    exact clean
  | @cut t rest tokens unmet _ ih =>
    have first : ¬ sep <:+: t := by
      intro found
      obtain ⟨p, fits, starts⟩ := infix_iff_prefix_drop.mp found
      have some := List.length_pos_iff.mpr nonempty
      refine unmet p (by omega) ?_
      rw [List.drop_append_of_le_length (by omega)]
      exact starts.trans (List.prefix_append _ _)
    intro t' mem
    rcases List.mem_cons.mp mem with rfl | later
    · exact first
    · exact ih t' later

/-- Two first separators of one sequence are at the same place. -/
theorem unmet_length_le {t t' rest rest' : List α} (unmet : Unmet sep t)
    (same : t ++ (sep ++ rest) = t' ++ (sep ++ rest')) : t.length ≤ t'.length := by
  by_contra longer
  have inside : t'.length < t.length := by omega
  refine unmet t'.length inside ((prefix_drop_iff rest inside).mp ?_)
  rw [same, List.drop_left]
  exact List.prefix_append _ _

theorem unique {tokens' : List (List α)} (splits : Splits sep s tokens) (splits' : Splits sep s tokens') :
    tokens = tokens' := by
  induction splits generalizing tokens' with
  | @last s clean =>
    cases splits' with
    | last => rfl
    | cut => exact absurd ((List.prefix_append _ _).isInfix.trans (List.suffix_append _ _).isInfix) clean
  | @cut t rest tokens unmet splits ih =>
    generalize whole : t ++ (sep ++ rest) = s at splits'
    cases splits' with
    | last clean =>
      rw [← whole] at clean
      exact absurd ((List.prefix_append _ _).isInfix.trans (List.suffix_append _ _).isInfix) clean
    | @cut t' rest' tokens' unmet' splits' =>
      have length := Nat.le_antisymm (unmet_length_le unmet whole) (unmet_length_le unmet' whole.symm)
      obtain ⟨rfl, behind⟩ := List.append_inj whole length
      obtain rfl := List.append_cancel_left behind
      rw [ih splits']

/-- A letter that the tokens do not contain separates them. -/
theorem of_clean {c : α} {tokens : List (List α)} (some : tokens ≠ []) (without : ∀ t ∈ tokens, c ∉ t) :
    Splits [c] (List.intercalate [c] tokens) tokens := by
  induction tokens with
  | nil => exact absurd rfl some
  | cons t tokens ih =>
    have first : c ∉ t := without t List.mem_cons_self
    cases tokens with
    | nil =>
      rw [List.intercalate_singleton]
      exact .last fun found => first (found.subset List.mem_cons_self)
    | cons next tokens =>
      rw [List.intercalate_cons_cons, List.append_assoc]
      refine .cut ?_ (ih (List.cons_ne_nil _ _) fun t' mem => without t' (List.mem_cons_of_mem _ mem))
      intro p inside starts
      rw [List.drop_append_of_le_length (Nat.le_of_lt inside), List.drop_eq_getElem_cons inside,
        List.cons_append, List.cons_prefix_cons] at starts
      exact first (starts.1 ▸ List.getElem_mem inside)

end Splits

end Itaro
