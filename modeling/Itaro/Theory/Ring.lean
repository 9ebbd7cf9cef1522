/-
# Theory.Ring -- circular doubly linked lists in memory

A node is two words, the address of the next node and that of the one before it.
`Ring m node count` says that `node 0`, the head, `node 1`, … `node count` are
linked in this order and back to the head; `ListAt m head nodes` says the same
of a list of addresses.  Linking a node in before the head extends the ring by
one (`Ring.addTail`).
-/
import Itaro.Theory.Memory
import Mathlib.Data.List.Chain

namespace Itaro.Theory

set_option autoImplicit false

/-- `b` follows `a` and `a` precedes `b`. -/
def Link (m : Mem) (a b : Nat) : Prop :=
  (u64 m a).toNat = b ∧ (u64 m (b + 8)).toNat = a

/-- The list whose head is `head` holds `nodes`, in this order. -/
def ListAt (m : Mem) (head : Nat) (nodes : List Nat) : Prop :=
  List.IsChain (Link m) (head :: nodes ++ [head])

/-- The nodes `node 0, …, node count` form a ring. -/
def Ring (m : Mem) (node : Nat → Nat) (count : Nat) : Prop :=
  (∀ i < count, Link m (node i) (node (i + 1))) ∧ Link m (node count) (node 0)

theorem Link.congr {m m' : Mem} {a b : Nat} (link : Link m a b) (next : u64 m' a = u64 m a)
    (prev : u64 m' (b + 8) = u64 m (b + 8)) : Link m' a b := by
  rw [Link, next, prev]
  exact link

namespace Ring

variable {m m' : Mem} {node : Nat → Nat} {count : Nat}

theorem of_changesOnly {F : Nat → Prop} (ring : Ring m node count) (changes : ChangesOnly F m m')
    (misses : ∀ i ≤ count, ∀ x, node i ≤ x → x < node i + 16 → ¬ F x) : Ring m' node count := by
  have link : ∀ i ≤ count, ∀ j ≤ count, Link m (node i) (node j) → Link m' (node i) (node j) :=
    fun i iBound j jBound link => link.congr
      (changes.u64 fun x lower upper => misses i iBound x lower (by omega))
      (changes.u64 fun x lower upper => misses j jBound x (by omega) (by omega))
  exact ⟨fun i below => link i (by omega) (i + 1) below (ring.1 i below),
    link count le_rfl 0 (Nat.zero_le _) ring.2⟩

/-- The four stores of `__list_add(new, prev, next)` with `next` the head and
`prev` the last node. -/
theorem addTail (ring : Ring m node count)
    (small : ∀ i ≤ count + 1, node i + 16 ≤ 2 ^ 64)
    (apart : ∀ i ≤ count + 1, ∀ j ≤ count + 1, i ≠ j →
      node i + 16 ≤ node j ∨ node j + 16 ≤ node i) :
    Ring
      (setU64 (setU64 (setU64 (setU64 m (node 0 + 8) (BitVec.ofNat 64 (node (count + 1))))
        (node (count + 1)) (BitVec.ofNat 64 (node 0)))
        (node (count + 1) + 8) (BitVec.ofNat 64 (node count)))
        (node count) (BitVec.ofNat 64 (node (count + 1)))) node (count + 1) := by
  have word : ∀ i ≤ count + 1, (BitVec.ofNat 64 (node i)).toNat = node i := fun i bound => by
    have := small i bound
    rw [BitVec.toNat_ofNat, Nat.mod_eq_of_lt (by omega)]
  have newApart : ∀ i ≤ count, node i + 16 ≤ node (count + 1) ∨ node (count + 1) + 16 ≤ node i :=
    fun i bound => apart i (by omega) _ le_rfl (by omega)
  have headNew := newApart 0 (Nat.zero_le _)
  have lastNew := newApart count le_rfl
  have headLast : count = 0 ∨ node 0 + 16 ≤ node count ∨ node count + 16 ≤ node 0 := by
    rcases Nat.eq_zero_or_pos count with zero | positive
    · exact .inl zero
    · exact .inr (apart 0 (Nat.zero_le _) count (by omega) (by omega))
  refine ⟨fun i below => ?_, ?_⟩
  · rcases Nat.lt_succ_iff_lt_or_eq.mp below with inside | rfl
    · -- an old link: its next word is not the last node's, its prev word not the head's
      have next : node i + 16 ≤ node count ∨ node count + 16 ≤ node i :=
        apart i (by omega) count (by omega) (by omega)
      have prev : node (i + 1) + 16 ≤ node 0 ∨ node 0 + 16 ≤ node (i + 1) :=
        apart (i + 1) (by omega) 0 (by omega) (by omega)
      have nextNew := newApart i (by omega)
      have prevNew := newApart (i + 1) (by omega)
      have nextHead : node i = node 0 ∨ node i + 16 ≤ node 0 ∨ node 0 + 16 ≤ node i := by
        rcases Nat.eq_zero_or_pos i with rfl | positive
        · exact .inl rfl
        · exact .inr (apart i (by omega) 0 (by omega) (by omega))
      have prevLast : node (i + 1) = node count ∨ node (i + 1) + 16 ≤ node count ∨
          node count + 16 ≤ node (i + 1) := by
        rcases Nat.lt_or_eq_of_le (show i + 1 ≤ count from inside) with less | same
        · exact .inr (apart (i + 1) (by omega) count (by omega) (by omega))
        · exact .inl (by rw [same])
      refine (ring.1 i inside).congr ?_ ?_
      · rw [u64_setU64_of_disjoint _ _ (by omega), u64_setU64_of_disjoint _ _ (by omega),
          u64_setU64_of_disjoint _ _ (by omega), u64_setU64_of_disjoint _ _ (by omega)]
      · rw [u64_setU64_of_disjoint _ _ (by omega), u64_setU64_of_disjoint _ _ (by omega),
          u64_setU64_of_disjoint _ _ (by omega), u64_setU64_of_disjoint _ _ (by omega)]
    · refine ⟨?_, ?_⟩
      · rw [u64_setU64, word _ le_rfl]
      · rw [u64_setU64_of_disjoint _ _ (by omega), u64_setU64, word _ (by omega)]
  · refine ⟨?_, ?_⟩
    · rw [u64_setU64_of_disjoint _ _ (by omega), u64_setU64_of_disjoint _ _ (by omega), u64_setU64,
        word 0 (by omega)]
    · have lastWord : node 0 + 8 + 8 ≤ node count ∨ node count + 8 ≤ node 0 + 8 := by
        rcases headLast with rfl | headLast
        · exact .inr le_rfl
        · omega
      rw [u64_setU64_of_disjoint _ _ lastWord, u64_setU64_of_disjoint _ _ (by omega),
        u64_setU64_of_disjoint _ _ (by omega), u64_setU64, word _ le_rfl]

/-- A ring read off as a list. -/
theorem listAt (ring : Ring m node count) :
    ListAt m (node 0) ((List.range' 1 count).map node) := by
  have path : ∀ k ≤ count, List.IsChain (Link m) ((List.range' 0 (k + 1)).map node) := by
    intro k bound
    rw [List.isChain_iff_getElem]
    intro i inside
    simp only [List.length_map, List.length_range'] at inside
    simp only [List.getElem_map, List.getElem_range', Nat.one_mul, Nat.zero_add]
    exact ring.1 i (by omega)
  have whole := path count le_rfl
  rw [ListAt, ← List.map_cons, show 0 :: List.range' 1 count = List.range' 0 (count + 1) from rfl,
    List.isChain_append]
  refine ⟨whole, List.isChain_singleton _, fun x last y only => ?_⟩
  rw [List.getLast?_map, List.getLast?_range'] at last
  simp at last only
  subst last only
  exact ring.2

end Ring

end Itaro.Theory
