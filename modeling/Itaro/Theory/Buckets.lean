/-
# Theory.Buckets -- entries filed in a table of buckets

A table is a list of buckets and an entry is filed in the bucket its `slot` says.
What a table holds is the list of all its entries, in any order: changing bucket
`i` changes that list by the entries of the bucket (`flatten_set_perm`), and an
entry with a given name can be looked for in one bucket instead of the whole table
(`Filed.find?_bucket`), because no name occurs twice.
-/
import Mathlib.Data.List.Nodup
import Mathlib.Data.List.Perm.Basic

namespace Itaro.Theory

set_option autoImplicit false

universe u v

variable {α : Type u} {β : Type v}

/-! ## Entries by name -/

section Names

variable [DecidableEq β] (name : α → β)

/-- The entry called `b`. -/
def named (es : List α) (b : β) : Option α := es.find? fun e => name e = b

variable {name} {es es' : List α} {e : α} {b : β}

theorem named_eq_none : named name es b = none ↔ b ∉ es.map name := by
  rw [named, List.find?_eq_none, List.mem_map]
  constructor
  · rintro absent ⟨e, member, same⟩
    exact absent e member (decide_eq_true same)
  · intro absent e member same
    exact absent ⟨e, member, of_decide_eq_true same⟩

theorem named_eq_some (distinct : (es.map name).Nodup) :
    named name es b = some e ↔ e ∈ es ∧ name e = b := by
  constructor
  · intro found
    exact ⟨List.mem_of_find?_eq_some found, of_decide_eq_true (List.find?_some found :)⟩
  · rintro ⟨member, rfl⟩
    cases found : named name es (name e) with
    | none => exact absurd (List.mem_map_of_mem member) (named_eq_none.mp found)
    | some e' =>
        have member' := List.mem_of_find?_eq_some found
        have same : name e' = name e := of_decide_eq_true (List.find?_some found :)
        rw [List.inj_on_of_nodup_map distinct member' member same]

/-- The order of the entries does not matter. -/
theorem named_perm (distinct : (es.map name).Nodup) (perm : es.Perm es') :
    named name es b = named name es' b := by
  have distinct' := (perm.map name).nodup_iff.mp distinct
  ext e
  rw [named_eq_some distinct, named_eq_some distinct', perm.mem_iff]

theorem named_cons_self : named name (e :: es) (name e) = some e :=
  List.find?_cons_of_pos (decide_eq_true rfl)

theorem named_cons_of_ne (ne : name e ≠ b) : named name (e :: es) b = named name es b :=
  List.find?_cons_of_neg (by simpa using ne)

end Names

/-! ## Tables -/

section Tables

variable {t : List (List α)} {i : Nat}

theorem flatten_set_perm (bound : i < t.length) (bucket : List α) :
    (t.set i bucket).flatten.Perm (bucket ++ (t.set i []).flatten) := by
  rw [List.set_eq_take_append_cons_drop, if_pos bound, List.set_eq_take_append_cons_drop,
    if_pos bound]
  simp only [List.flatten_append, List.flatten_cons, List.nil_append]
  exact List.perm_append_comm_assoc _ _ _

/-- The entries of bucket `i`, and the others. -/
theorem flatten_perm {bucket : List α} (there : t[i]? = some bucket) :
    t.flatten.Perm (bucket ++ (t.set i []).flatten) := by
  obtain ⟨bound, rfl⟩ := List.getElem?_eq_some_iff.mp there
  have whole := flatten_set_perm bound t[i]
  rwa [List.set_getElem_self] at whole

/-- Every entry is in the bucket its slot says. -/
def Filed (slot : α → Nat) (t : List (List α)) : Prop :=
  ∀ i bucket, t[i]? = some bucket → ∀ e ∈ bucket, slot e = i

variable {slot : α → Nat}

theorem Filed.set (filed : Filed slot t) {bucket : List α} (own : ∀ e ∈ bucket, slot e = i) :
    Filed slot (t.set i bucket) := by
  intro j b there e member
  by_cases same : i = j
  · subst same
    have bound : i < t.length := by
      have := (List.getElem?_eq_some_iff.mp there).1
      rwa [List.length_set] at this
    rw [List.getElem?_set_self bound] at there
    obtain rfl := Option.some.inj there
    exact own e member
  · rw [List.getElem?_set_ne same] at there
    exact filed j b there e member

theorem filed_replicate_nil (slot : α → Nat) (n : Nat) : Filed slot (List.replicate n []) := by
  intro i bucket there e member
  have empty : bucket = [] := List.eq_of_mem_replicate (List.mem_of_getElem? there)
  rw [empty] at member
  exact absurd member List.not_mem_nil

theorem Filed.mem_bucket (filed : Filed slot t) {e : α} (member : e ∈ t.flatten) :
    ∃ bucket, t[slot e]? = some bucket ∧ e ∈ bucket := by
  obtain ⟨bucket, inside, member⟩ := List.mem_flatten.mp member
  obtain ⟨i, there⟩ := List.mem_iff_getElem?.mp inside
  rw [filed i bucket there e member]
  exact ⟨bucket, there, member⟩

/-- One bucket has the entry called `b`, if the table has it. -/
theorem Filed.find?_bucket [DecidableEq β] {name : α → β} {b : β} (filed : Filed slot t)
    (distinct : (t.flatten.map name).Nodup) {bucket : List α} (there : t[i]? = some bucket)
    (home : ∀ e ∈ t.flatten, name e = b → slot e = i) :
    named name bucket b = named name t.flatten b := by
  have perm := flatten_perm there
  have distinct' : (bucket.map name).Nodup := by
    have all := (perm.map name).nodup_iff.mp distinct
    rw [List.map_append] at all
    exact (List.nodup_append.mp all).1
  ext e
  rw [named_eq_some distinct, named_eq_some distinct']
  constructor
  · rintro ⟨member, same⟩
    exact ⟨perm.mem_iff.mpr (List.mem_append_left _ member), same⟩
  · rintro ⟨member, same⟩
    obtain ⟨bucket', there', inside⟩ := filed.mem_bucket member
    rw [home e member same, there] at there'
    obtain rfl := Option.some.inj there'
    exact ⟨inside, same⟩

/-- Filtering for either of two conditions that exclude each other. -/
theorem filter_perm_append {es : List α} {p q r : α → Bool} (either : ∀ e ∈ es, p e = (q e || r e))
    (apart : ∀ e ∈ es, ¬ (q e = true ∧ r e = true)) :
    (es.filter p).Perm (es.filter q ++ es.filter r) := by
  induction es with
  | nil => simp
  | cons e es ih =>
      have rest := ih (fun e' member => either e' (List.mem_cons_of_mem e member))
        fun e' member => apart e' (List.mem_cons_of_mem e member)
      have or := either e List.mem_cons_self
      have and := apart e List.mem_cons_self
      cases first : q e with
      | true =>
          have second : r e = false := by simpa [first] using and
          simpa [List.filter_cons, or, first, second] using rest
      | false =>
          cases second : r e with
          | true =>
              simp only [List.filter_cons, or, first, second, Bool.false_or, if_true,
                Bool.false_eq_true, if_false]
              exact (rest.cons e).trans List.perm_middle.symm
          | false => simpa [List.filter_cons, or, first, second] using rest

/-- The entries whose slot is `i` are those of bucket `i`. -/
theorem Filed.filter_slot (filed : Filed slot t) {bucket : List α} (there : t[i]? = some bucket) :
    (t.flatten.filter fun e => slot e = i).Perm bucket := by
  have bound := (List.getElem?_eq_some_iff.mp there).1
  have own : bucket.filter (fun e => slot e = i) = bucket := by
    apply List.filter_eq_self.mpr
    intro e member
    exact decide_eq_true (filed i bucket there e member)
  have others : (t.set i []).flatten.filter (fun e => slot e = i) = [] := by
    apply List.filter_eq_nil_iff.mpr
    intro e member
    have rest : Filed slot (t.set i []) := filed.set fun _ member => absurd member List.not_mem_nil
    obtain ⟨bucket', there', inside⟩ := rest.mem_bucket member
    intro here
    rw [of_decide_eq_true here, List.getElem?_set_self bound] at there'
    obtain rfl := Option.some.inj there'
    exact absurd inside List.not_mem_nil
  have split := (flatten_perm there).filter fun e => decide (slot e = i)
  rwa [List.filter_append, own, others, List.append_nil] at split

/-- The buckets of several indices hold the entries with these slots. -/
theorem Filed.flatMap_perm (filed : Filed slot t) {is : List Nat} (distinct : is.Nodup)
    (inside : ∀ i ∈ is, i < t.length) :
    (is.flatMap fun i => t[i]?.getD []).Perm (t.flatten.filter fun e => slot e ∈ is) := by
  induction is with
  | nil => simp
  | cons i is ih =>
      obtain ⟨bucket, there⟩ : ∃ bucket, t[i]? = some bucket :=
        ⟨_, List.getElem?_eq_getElem (inside i List.mem_cons_self)⟩
      have fresh := List.nodup_cons.mp distinct
      have rest := ih fresh.2 fun j member => inside j (List.mem_cons_of_mem i member)
      have first := (filed.filter_slot there).symm
      have both : (t.flatten.filter fun e => slot e ∈ i :: is).Perm
          ((t.flatten.filter fun e => slot e = i) ++ t.flatten.filter fun e => slot e ∈ is) := by
        apply filter_perm_append
        · intro e _
          simp
        · rintro e - ⟨here, there⟩
          rw [of_decide_eq_true here] at there
          exact fresh.1 (of_decide_eq_true there)
      rw [List.flatMap_cons, there]
      exact (first.append rest).trans both.symm

end Tables

end Itaro.Theory
