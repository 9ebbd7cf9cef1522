/-
# Theory.Queues -- several lists that share out their elements

A family of lists indexed by their heads, with the three operations of an
intrusive list: take an element off the list it is on, put it at the front of
one, put it at the end of one.  An element that carries its own links can be on
one list only; `Placed` says so, and each operation keeps it.  What an operation
does is stated once, as membership; taking an element off its list and putting it
on another is `Moves`.
-/
import Mathlib.Data.List.Nodup
import Mathlib.Logic.Function.Basic

namespace Itaro.Theory

set_option autoImplicit false

universe u v

variable {κ : Type u} {α : Type v}

abbrev Queues (κ : Type u) (α : Type v) := κ → List α

namespace Queues

variable [DecidableEq κ] [DecidableEq α]

def del (q : Queues κ α) (x : α) : Queues κ α := fun h => (q h).erase x

def push (q : Queues κ α) (h : κ) (x : α) : Queues κ α := Function.update q h (x :: q h)

def append (q : Queues κ α) (h : κ) (x : α) : Queues κ α := Function.update q h (q h ++ [x])

omit [DecidableEq κ] [DecidableEq α] in
/-- No list holds an element twice, and no two lists share one. -/
structure Placed (q : Queues κ α) : Prop where
  nodup : ∀ h, (q h).Nodup
  one : ∀ {h h' x}, x ∈ q h → x ∈ q h' → h = h'

variable {q : Queues κ α} {h h' : κ} {x y : α}

omit [DecidableEq κ] in
theorem mem_del (placed : q.Placed) : x ∈ q.del y h ↔ x ≠ y ∧ x ∈ q h :=
  (placed.nodup h).mem_erase_iff

omit [DecidableEq α] in
theorem mem_push : x ∈ q.push h y h' ↔ (x = y ∧ h' = h) ∨ x ∈ q h' := by
  by_cases same : h' = h
  · subst same
    simp [push]
  · simp [push, same]

omit [DecidableEq α] in
theorem mem_append : x ∈ q.append h y h' ↔ (x = y ∧ h' = h) ∨ x ∈ q h' := by
  by_cases same : h' = h
  · subst same
    simp [append, or_comm]
  · simp [append, same]

namespace Placed

omit [DecidableEq κ] in
theorem del (placed : q.Placed) (y : α) : (q.del y).Placed where
  nodup h := (placed.nodup h).erase y
  one first second := placed.one ((mem_del placed).mp first).2 ((mem_del placed).mp second).2

omit [DecidableEq κ] in
theorem not_mem_del (placed : q.Placed) (y : α) (h : κ) : y ∉ q.del y h :=
  fun member => ((mem_del placed).mp member).1 rfl

omit [DecidableEq α] in
theorem push (placed : q.Placed) (h : κ) (fresh : ∀ h, y ∉ q h) : (q.push h y).Placed where
  nodup h' := by
    by_cases same : h' = h
    · subst same
      simpa [Queues.push] using ⟨fresh h', placed.nodup h'⟩
    · simpa [Queues.push, same] using placed.nodup h'
  one {h₁ h₂ x} first second := by
    rcases mem_push.mp first with ⟨rfl, rfl⟩ | old₁
    · rcases mem_push.mp second with ⟨-, rfl⟩ | old₂
      · rfl
      · exact absurd old₂ (fresh h₂)
    · rcases mem_push.mp second with ⟨rfl, -⟩ | old₂
      · exact absurd old₁ (fresh h₁)
      · exact placed.one old₁ old₂

omit [DecidableEq α] in
theorem append (placed : q.Placed) (h : κ) (fresh : ∀ h, y ∉ q h) : (q.append h y).Placed where
  nodup h' := by
    by_cases same : h' = h
    · subst same
      simp only [Queues.append, Function.update_self]
      exact (placed.nodup h').append (List.nodup_singleton y) fun x member only =>
        fresh h' (List.mem_singleton.mp only ▸ member)
    · simpa [Queues.append, same] using placed.nodup h'
  one {h₁ h₂ x} first second := by
    rcases mem_append.mp first with ⟨rfl, rfl⟩ | old₁
    · rcases mem_append.mp second with ⟨-, rfl⟩ | old₂
      · rfl
      · exact absurd old₂ (fresh h₂)
    · rcases mem_append.mp second with ⟨rfl, -⟩ | old₂
      · exact absurd old₁ (fresh h₁)
      · exact placed.one old₁ old₂

end Placed

/-! ## Taking off several -/

def delAll (q : Queues κ α) (xs : List α) : Queues κ α := xs.foldl del q

omit [DecidableEq κ] in
theorem Placed.delAll (placed : q.Placed) (xs : List α) : (q.delAll xs).Placed := by
  induction xs generalizing q with
  | nil => exact placed
  | cons x xs ih => exact ih (placed.del x)

omit [DecidableEq κ] in
theorem mem_delAll (placed : q.Placed) {xs : List α} : x ∈ q.delAll xs h ↔ x ∈ q h ∧ x ∉ xs := by
  induction xs generalizing q with
  | nil => simp [delAll]
  | cons y xs ih =>
      show x ∈ (q.del y).delAll xs h ↔ _
      rw [ih (placed.del y), mem_del placed, List.mem_cons, not_or]
      exact ⟨fun ⟨⟨ne, old⟩, rest⟩ => ⟨old, ne, rest⟩, fun ⟨old, ne, rest⟩ => ⟨⟨ne, old⟩, rest⟩⟩

/-! ## Moving one element -/

omit [DecidableEq κ] [DecidableEq α] in
/-- `x` ends up on list `h`, and everything else stays where it is. -/
structure Moves (q q' : Queues κ α) (x : α) (h : κ) : Prop where
  placed : q'.Placed
  mem : ∀ {h' y}, y ∈ q' h' ↔ y = x ∧ h' = h ∨ y ≠ x ∧ y ∈ q h'

namespace Moves

variable {q' q'' : Queues κ α}

omit [DecidableEq κ] [DecidableEq α] in
/-- An element that is left on its list. -/
theorem refl (placed : q.Placed) (listed : x ∈ q h) : Moves q q x h where
  placed := placed
  mem {h' y} := by
    constructor
    · intro member
      by_cases same : y = x
      · subst same
        exact .inl ⟨rfl, placed.one member listed⟩
      · exact .inr ⟨same, member⟩
    · rintro (⟨rfl, rfl⟩ | ⟨-, member⟩)
      · exact listed
      · exact member

theorem push (placed : q.Placed) (x : α) (h : κ) : Moves q ((q.del x).push h x) x h where
  placed := (placed.del x).push h (placed.not_mem_del x)
  mem := by
    intro h' y
    rw [mem_push, mem_del placed]

theorem append (placed : q.Placed) (x : α) (h : κ) : Moves q ((q.del x).append h x) x h where
  placed := (placed.del x).append h (placed.not_mem_del x)
  mem := by
    intro h' y
    rw [mem_append, mem_del placed]

omit [DecidableEq κ] [DecidableEq α] in
theorem trans (first : Moves q q' x h) (second : Moves q' q'' x h') : Moves q q'' x h' where
  placed := second.placed
  mem {k y} := by
    rw [second.mem, first.mem]
    constructor
    · rintro (moved | ⟨ne, ⟨same, -⟩ | kept⟩)
      · exact .inl moved
      · exact absurd same ne
      · exact .inr kept
    · rintro (moved | kept)
      · exact .inl moved
      · exact .inr ⟨kept.1, .inr kept⟩

omit [DecidableEq κ] [DecidableEq α] in
theorem listed (moves : Moves q q' x h) : x ∈ q' h := moves.mem.mpr (.inl ⟨rfl, rfl⟩)

omit [DecidableEq κ] [DecidableEq α] in
/-- An element that ends up where it was. -/
theorem perm (moves : Moves q q' x h) (placed : q.Placed) (listed : x ∈ q h) (h' : κ) :
    (q' h').Perm (q h') := by
  refine (List.perm_ext_iff_of_nodup (moves.placed.nodup h') (placed.nodup h')).mpr fun y => ?_
  exact moves.mem.trans (refl placed listed).mem.symm

end Moves

end Queues

end Itaro.Theory
