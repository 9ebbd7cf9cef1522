/-
# Theory.Search -- counting loops that leave early

C search loops have two shapes.  `for (i = 0; i < n; i++) { … return x; … }`
returns the first answer its body gives: `firstSome`.  `for (j = from; j < n;
j++) if (stop j) break;` leaves its counter at the first stop, or at the bound:
`breakAt`.  Each is characterised by its least witness.
-/
import Mathlib.Data.List.Find

namespace Itaro.Theory

set_option autoImplicit false

variable {β : Type}

/-- The first answer of `body` at `0, …, n - 1`. -/
def firstSome (n : Nat) (body : Nat → Option β) : Option β := (List.range n).findSome? body

theorem firstSome_succ (n : Nat) (body : Nat → Option β) :
    firstSome (n + 1) body = (firstSome n body).or (body n) := by
  simp [firstSome, List.range_succ, List.findSome?_append]

theorem firstSome_eq_none {n : Nat} {body : Nat → Option β} :
    firstSome n body = none ↔ ∀ i < n, body i = none := by
  simp [firstSome]

theorem firstSome_eq_some {n : Nat} {body : Nat → Option β} {b : β} :
    firstSome n body = some b ↔ ∃ i < n, body i = some b ∧ ∀ i' < i, body i' = none := by
  induction n with
  | zero => simp [firstSome]
  | succ n ih =>
      rw [firstSome_succ, Option.or_eq_some_iff, ih, firstSome_eq_none]
      constructor
      · rintro (⟨i, below, found, before⟩ | ⟨before, found⟩)
        · exact ⟨i, by omega, found, before⟩
        · exact ⟨n, by omega, found, before⟩
      · rintro ⟨i, below, found, before⟩
        by_cases last : i = n
        · subst last; exact .inr ⟨before, found⟩
        · exact .inl ⟨i, by omega, found, before⟩

theorem firstSome_congr {n : Nat} {body body' : Nat → Option β} (same : ∀ i < n, body i = body' i) :
    firstSome n body = firstSome n body' := by
  induction n with
  | zero => rfl
  | succ n ih =>
      rw [firstSome_succ, firstSome_succ, ih fun i below => same i (by omega), same n (by omega)]

/-- Where the counter of a loop from `start` below `count` stands when it leaves. -/
def breakAt (stop : Nat → Bool) (start : Nat) (count : Int) : Nat :=
  ((List.range' start (count.toNat - start)).find? stop).getD (max start count.toNat)

/-- The counter reaches the bound exactly when no earlier value stops the loop. -/
theorem breakAt_eq_count {stop : Nat → Bool} {start : Nat} {count : Int}
    (room : (start : Int) ≤ count) :
    (breakAt stop start count : Int) = count ↔
      ∀ j, start ≤ j → (j : Int) < count → stop j = false := by
  unfold breakAt
  cases found : (List.range' start (count.toNat - start)).find? stop with
  | none =>
      rw [List.find?_eq_none] at found
      simp only [Option.getD_none]
      refine ⟨fun _ j lower upper => ?_, fun _ => by omega⟩
      simpa using found j (List.mem_range'_1.mpr (by omega))
  | some j =>
      have inside := List.mem_range'_1.mp (List.mem_of_find?_eq_some found)
      have stops := List.find?_some found
      simp only [Option.getD_some]
      refine ⟨fun same => by omega, fun never => ?_⟩
      rw [never j inside.1 (by omega)] at stops
      cases stops

/-- A loop whose body stops at once, or whose bound is below its start, never
reaches a different bound. -/
theorem breakAt_eq_start {stop : Nat → Bool} {start : Nat} {count : Int}
    (immediate : stop start = true ∨ count ≤ start) : breakAt stop start count = start := by
  unfold breakAt
  by_cases empty : count ≤ start
  · have none : count.toNat - start = 0 := by omega
    simp only [none, List.range'_zero, List.find?_nil, Option.getD_none]
    omega
  · have stops := immediate.resolve_right empty
    obtain ⟨k, size⟩ : ∃ k, count.toNat - start = k + 1 := ⟨count.toNat - start - 1, by omega⟩
    simp [size, List.range'_succ, stops]

theorem breakAt_congr {stop stop' : Nat → Bool} {start : Nat} {count : Int}
    (same : ∀ j, start ≤ j → (j : Int) < count → stop j = stop' j) :
    breakAt stop start count = breakAt stop' start count := by
  have found : (List.range' start (count.toNat - start)).find? stop =
      (List.range' start (count.toNat - start)).find? stop' := by
    refine List.find?_congr fun j inside => ?_
    obtain ⟨lower, upper⟩ := List.mem_range'_1.mp inside
    exact same j lower (by omega)
  rw [breakAt, breakAt, found]

end Itaro.Theory
