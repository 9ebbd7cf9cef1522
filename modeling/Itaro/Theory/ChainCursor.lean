/-
# Theory.ChainCursor -- a cursor into a table of chains

A cursor has entered the first `n` chains of a table and stands in the last of them
before the element with the key `next`, or at its end.  `ahead` is what it still has
before it.  An insertion or a removal anywhere in the table leaves the other elements
on their side of the cursor (`mem_ahead_insert`), except for the removal of the element
the cursor stands at.
-/
import Mathlib.Data.List.Basic
import Mathlib.Data.List.Nodup

namespace Itaro.Theory.ChainCursor

set_option autoImplicit false

universe u v

variable {α : Type u} {κ : Type v} [DecidableEq κ] {key : α → κ}

/-- The rest of a chain from the element with a key on. -/
def rest (key : α → κ) (chain : List α) : Option κ → List α
  | none => []
  | some k => chain.dropWhile fun e => key e ≠ k

/-- What a cursor has before it. -/
def ahead (key : α → κ) (t : List (List α)) (n : Nat) (next : Option κ) : List α :=
  rest key (t[n - 1]?.getD []) next ++ (t.drop n).flatten

variable {t : List (List α)} {n : Nat} {next : Option κ} {chain pre post : List α} {e x : α}

/-! ## Moving on -/

theorem rest_suffix : rest key chain next <:+ chain := by
  cases next with
  | none => exact List.nil_suffix
  | some k => exact List.dropWhile_suffix _

theorem rest_head : rest key chain (chain.head?.map key) = chain := by
  cases chain with
  | nil => rfl
  | cons e post => simp [rest]

/-- From an element whose key is nowhere before it. -/
theorem rest_append (fresh : key e ∉ pre.map key) :
    rest key (pre ++ e :: post) (some (key e)) = e :: post := by
  induction pre with
  | nil => simp [rest]
  | cons a pre ih =>
      rw [List.map_cons, List.mem_cons, not_or] at fresh
      have skipped := ih fresh.2
      simp only [rest] at skipped ⊢
      rw [List.cons_append, List.dropWhile_cons_of_pos (by simpa using Ne.symm fresh.1), skipped]

theorem ahead_end (all : t.length ≤ n) : ahead key t n none = [] := by
  rw [ahead, List.drop_eq_nil_of_le all]
  rfl

/-- The next chain is entered. -/
theorem ahead_enter (there : t[n]? = some chain) :
    ahead key t n none = ahead key t (n + 1) (chain.head?.map key) := by
  obtain ⟨below, same⟩ := List.getElem?_eq_some_iff.mp there
  rw [ahead, ahead, Nat.add_sub_cancel, there, Option.getD_some, rest_head,
    List.drop_eq_getElem_cons below, same, List.flatten_cons]
  rfl

/-- The next element is passed. -/
theorem ahead_pass (there : t[n - 1]? = some (pre ++ e :: post))
    (distinct : ((pre ++ e :: post).map key).Nodup) :
    ahead key t n (some (key e)) = e :: ahead key t n (post.head?.map key) := by
  rw [List.map_append, List.map_cons, List.nodup_append] at distinct
  obtain ⟨-, behind, apart⟩ := distinct
  have first : key e ∉ pre.map key := fun member => apart _ member _ List.mem_cons_self rfl
  have later : rest key (pre ++ e :: post) (post.head?.map key) = post := by
    cases post with
    | nil => rfl
    | cons a post =>
        have fresh : key a ∉ (pre ++ [e]).map key := by
          rw [List.map_append, List.mem_append, not_or]
          refine ⟨fun member => apart _ member _ (by simp) rfl, fun same => ?_⟩
          rw [List.map_cons, List.map_nil, List.mem_singleton] at same
          rw [List.map_cons, same] at behind
          exact (List.nodup_cons.mp behind).1 List.mem_cons_self
        have shown : rest key (pre ++ [e] ++ a :: post) (some (key a)) = a :: post := rest_append fresh
        rwa [List.append_assoc, List.singleton_append] at shown
  rw [ahead, ahead, there, Option.getD_some, rest_append first, later, List.cons_append]

/-! ## Elements come and go -/

theorem drop_flatten_sublist : ((t.drop n).flatten).Sublist t.flatten := by
  conv_rhs => rw [← List.take_append_drop n t, List.flatten_append]
  exact List.sublist_append_right _ _

/-- Nothing is ahead that is not in the table. -/
theorem ahead_sublist (entered : next = none ∨ 0 < n) : (ahead key t n next).Sublist t.flatten := by
  rcases entered with rfl | entered
  · rw [ahead, rest, List.nil_append]
    exact drop_flatten_sublist
  · rcases Nat.lt_or_ge (n - 1) t.length with below | beyond
    · have split := List.drop_eq_getElem_cons below
      rw [Nat.sub_add_cancel entered] at split
      rw [ahead, List.getElem?_eq_getElem below, Option.getD_some]
      refine List.Sublist.trans ?_ (drop_flatten_sublist (n := n - 1))
      rw [split, List.flatten_cons]
      exact rest_suffix.sublist.append (.refl _)
    · have none : t[n - 1]? = none := List.getElem?_eq_none beyond
      have last : t.drop n = [] := List.drop_eq_nil_of_le (by omega)
      have empty : rest key ([] : List α) next = [] := List.suffix_nil.mp rest_suffix
      rw [ahead, none, last, Option.getD_none, empty]
      exact List.nil_sublist _

theorem mem_rest_insert (other : next ≠ some (key e)) (ne : x ≠ e) :
    x ∈ rest key (pre ++ e :: post) next ↔ x ∈ rest key (pre ++ post) next := by
  cases next with
  | none => exact Iff.rfl
  | some k =>
      induction pre with
      | nil =>
          have skipped : key e ≠ k := fun same => other (congrArg some same.symm)
          rw [List.nil_append, List.nil_append, rest, List.dropWhile_cons_of_pos (by simpa)]
          exact Iff.rfl
      | cons a pre ih =>
          by_cases here : key a = k
          · simp [rest, here, ne]
          · simp only [rest] at ih ⊢
            rw [List.cons_append, List.cons_append, List.dropWhile_cons_of_pos (by simpa),
              List.dropWhile_cons_of_pos (by simpa)]
            exact ih

theorem mem_drop_flatten :
    x ∈ (t.drop n).flatten ↔ ∃ i chain, t[n + i]? = some chain ∧ x ∈ chain := by
  rw [List.mem_flatten]
  constructor
  · rintro ⟨chain, inside, member⟩
    obtain ⟨i, there⟩ := List.mem_iff_getElem?.mp inside
    rw [List.getElem?_drop] at there
    exact ⟨i, chain, there, member⟩
  · rintro ⟨i, chain, there, member⟩
    rw [← List.getElem?_drop] at there
    exact ⟨chain, List.mem_of_getElem? there, member⟩

/-- An element more in a chain leaves the others where they were. -/
theorem mem_ahead_insert {i : Nat} (there : t[i]? = some (pre ++ post)) (other : next ≠ some (key e))
    (ne : x ≠ e) :
    x ∈ ahead key (t.set i (pre ++ e :: post)) n next ↔ x ∈ ahead key t n next := by
  obtain ⟨below, -⟩ := List.getElem?_eq_some_iff.mp there
  have here : x ∈ rest key ((t.set i (pre ++ e :: post))[n - 1]?.getD []) next ↔
      x ∈ rest key (t[n - 1]?.getD []) next := by
    by_cases same : i = n - 1
    · subst same
      rw [List.getElem?_set_self below, there, Option.getD_some, Option.getD_some]
      exact mem_rest_insert other ne
    · rw [List.getElem?_set_ne same]
  have behind : x ∈ ((t.set i (pre ++ e :: post)).drop n).flatten ↔ x ∈ (t.drop n).flatten := by
    rw [mem_drop_flatten, mem_drop_flatten]
    apply exists_congr
    intro j
    by_cases same : i = n + j
    · subst same
      rw [List.getElem?_set_self below, there]
      simp [ne]
    · rw [List.getElem?_set_ne same]
  rw [ahead, ahead, List.mem_append, List.mem_append, here, behind]

/-- Empty chains behind the table. -/
theorem ahead_append_nils (m : Nat) (inside : n ≤ t.length) (entered : next = none ∨ 0 < n) :
    ahead key (t ++ List.replicate m []) n next = ahead key t n next := by
  have here : rest key ((t ++ List.replicate m [])[n - 1]?.getD []) next =
      rest key (t[n - 1]?.getD []) next := by
    rcases entered with rfl | entered
    · rfl
    · rw [List.getElem?_append_left (by omega)]
  rw [ahead, ahead, here, List.drop_append_of_le_length inside, List.flatten_append,
    List.flatten_replicate_nil, List.append_nil]

/-- Elements change, but not their keys. -/
theorem ahead_map {f : α → α} (kept : ∀ a, key (f a) = key a) :
    ahead key (t.map (List.map f)) n next = (ahead key t n next).map f := by
  have here : rest key ((t.map (List.map f))[n - 1]?.getD []) next =
      (rest key (t[n - 1]?.getD []) next).map f := by
    rw [List.getElem?_map]
    cases t[n - 1]? with
    | none => cases next <;> rfl
    | some chain =>
        cases next with
        | none => rfl
        | some k =>
            rw [Option.map_some, Option.getD_some, Option.getD_some, rest, rest, List.dropWhile_map]
            simp only [Function.comp_def, kept]
  rw [ahead, ahead, here, List.map_append, List.map_flatten, List.map_drop]

end Itaro.Theory.ChainCursor
