/-
# Theory.Chain -- a free list threaded through the memory it lists

An allocator of equal blocks keeps its free list inside the free blocks: the
first word of each holds the address of the next, and the last holds zero.
`Chain m p free` says that following the words from `p` visits exactly `free`.

Every node is a word of memory that somebody may overwrite, so each rule says
which words it needs: a chain survives any change that leaves its nodes alone
(`Chain.congr`), and pushing a block needs only that the block is none of them
(`Chain.push`).  `grid` is where an allocator of equal blocks puts them.
-/
import Itaro.Theory.Memory
import Mathlib.Data.List.Nodup

namespace Itaro.Theory

set_option autoImplicit false

/-- The words from `p` on lead through `free` and end in zero. -/
def Chain (m : Mem) : Nat → List Nat → Prop
  | p, [] => p = 0
  | p, a :: free => p = a ∧ a ≠ 0 ∧ Chain m (u64 m a).toNat free

namespace Chain

variable {m m' : Mem} {p : Nat} {free : List Nat}

theorem congr (chain : Chain m p free) (same : ∀ a ∈ free, u64 m' a = u64 m a) :
    Chain m' p free := by
  induction free generalizing p with
  | nil => exact chain
  | cons a free ih =>
      obtain ⟨here, nonzero, rest⟩ := chain
      refine ⟨here, nonzero, ?_⟩
      rw [same a List.mem_cons_self]
      exact ih rest fun b member => same b (List.mem_cons_of_mem a member)

theorem of_changesOnly {F : Nat → Prop} (chain : Chain m p free) (changes : ChangesOnly F m m')
    (misses : ∀ a ∈ free, ∀ x, a ≤ x → x < a + 8 → ¬ F x) : Chain m' p free :=
  chain.congr fun a member => changes.u64 (misses a member)

/-- Link a block whose word is apart from every node to the front. -/
theorem push (chain : Chain m p free) {a : Nat} (nonzero : a ≠ 0) (pointer : p < 2 ^ 64)
    (apart : ∀ b ∈ free, b + 8 ≤ a ∨ a + 8 ≤ b) :
    Chain (setU64 m a (BitVec.ofNat 64 p)) a (a :: free) := by
  refine ⟨rfl, nonzero, ?_⟩
  rw [u64_setU64, BitVec.toNat_ofNat, Nat.mod_eq_of_lt pointer]
  exact chain.congr fun b member => u64_setU64_of_disjoint m _ (apart b member)

end Chain

/-! ## Equal blocks side by side -/

/-- The `count` addresses `start, start + width, …`. -/
def grid (start width count : Nat) : List Nat :=
  (List.range count).map fun i => start + i * width

section Grid

variable {start width count : Nat}

theorem mem_grid {a : Nat} : a ∈ grid start width count ↔ ∃ i < count, a = start + i * width := by
  simp only [grid, List.mem_map, List.mem_range, eq_comm]

theorem grid_succ : grid start width (count + 1) =
    grid start width count ++ [start + count * width] := by
  simp only [grid, List.range_succ, List.map_append, List.map_cons, List.map_nil]

theorem grid_length : (grid start width count).length = count := by
  simp only [grid, List.length_map, List.length_range]

theorem grid_bounds {a : Nat} (member : a ∈ grid start width count) :
    start ≤ a ∧ a + width ≤ start + count * width := by
  obtain ⟨i, below, rfl⟩ := mem_grid.mp member
  have next : (i + 1) * width ≤ count * width := Nat.mul_le_mul_right width below
  rw [Nat.succ_mul] at next
  omega

theorem grid_nodup (positive : 0 < width) : (grid start width count).Nodup := by
  refine List.Nodup.map (fun i j same => ?_) List.nodup_range
  exact Nat.eq_of_mul_eq_mul_right positive (Nat.add_left_cancel same)

/-- Two blocks of a grid do not overlap. -/
theorem grid_apart {a b : Nat} (aMember : a ∈ grid start width count)
    (bMember : b ∈ grid start width count) (ne : a ≠ b) : a + width ≤ b ∨ b + width ≤ a := by
  obtain ⟨i, -, rfl⟩ := mem_grid.mp aMember
  obtain ⟨j, -, rfl⟩ := mem_grid.mp bMember
  rcases Nat.lt_trichotomy i j with below | rfl | above
  · have next : (i + 1) * width ≤ j * width := Nat.mul_le_mul_right width below
    rw [Nat.succ_mul] at next
    omega
  · exact absurd rfl ne
  · have next : (j + 1) * width ≤ i * width := Nat.mul_le_mul_right width above
    rw [Nat.succ_mul] at next
    omega

end Grid

end Itaro.Theory
