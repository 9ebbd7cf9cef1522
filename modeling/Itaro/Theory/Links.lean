/-
# Theory.Links -- several doubly linked lists in one memory

`listAdd`, `listAddTail` and `listDel` are the stores of an intrusive list: a new entry
between two neighbours, and the neighbours of an entry joined over it.  What a store does
to a list is said about the words of its cells (`insert_next`, `insert_prev`,
`listDel_next`, `listDel_prev`), and a list is a chain of links between them.

`Stored` says that a family of sequences is in memory, each as the list of its head, and
every list operation is the operation of `Theory.Queues` on the sequences
(`Stored.del`, `Stored.push`, `Stored.append`), written inside the cells in use
(`Stored.listDel_changesOnly`, `Stored.insert_changesOnly`).
-/
import Itaro.Theory.Queues
import Itaro.Theory.Ring

namespace Itaro.Theory.Links

set_option autoImplicit false

/-! ## The stores -/

/-- `__list_add(new, prev, next)` -/
def listInsert (m : Mem) (new prev next : Nat) : Mem :=
  let m := setU64 m (next + 8) (BitVec.ofNat 64 new)
  let m := setU64 m new (BitVec.ofNat 64 next)
  let m := setU64 m (new + 8) (BitVec.ofNat 64 prev)
  setU64 m prev (BitVec.ofNat 64 new)

/-- `list_add` -/
def listAdd (m : Mem) (new head : Nat) : Mem := listInsert m new head (u64 m head).toNat

/-- `list_add_tail` -/
def listAddTail (m : Mem) (new head : Nat) : Mem := listInsert m new (u64 m (head + 8)).toNat head

/-- `LIST_POISON1` -/
def listPoison1 : BitVec 64 := 0x00100100

/-- `LIST_POISON2` -/
def listPoison2 : BitVec 64 := 0x00200200

/-- `list_del`: the entry's own words are poisoned. -/
def listDel (m : Mem) (entry : Nat) : Mem :=
  let prev := (u64 m (entry + 8)).toNat
  let next := (u64 m entry).toNat
  let m := setU64 m (next + 8) (BitVec.ofNat 64 prev)
  let m := setU64 m prev (BitVec.ofNat 64 next)
  let m := setU64 m entry listPoison1
  setU64 m (entry + 8) listPoison2

/-! ## Cells -/

/-- Two words at each address of `S`, none of them shared. -/
structure Cells (S : Nat → Prop) : Prop where
  apart : ∀ {a b}, S a → S b → a ≠ b → a + 16 ≤ b ∨ b + 16 ≤ a
  small : ∀ {a}, S a → a + 16 ≤ 2 ^ 64

section Words

variable {S : Nat → Prop} (cells : Cells S) (m : Mem)
include cells

theorem Cells.word {a : Nat} (cell : S a) : (BitVec.ofNat 64 a).toNat = a := by
  have := cells.small cell
  rw [BitVec.toNat_ofNat, Nat.mod_eq_of_lt (by omega)]

/-- A first word and a second word do not overlap. -/
theorem Cells.mixed {a b : Nat} (aCell : S a) (bCell : S b) : a + 8 ≤ b + 8 ∨ b + 8 + 8 ≤ a := by
  by_cases same : a = b
  · omega
  · rcases cells.apart aCell bCell same with before | after <;> omega

section Insert

variable {new prev next : Nat} (newCell : S new) (prevCell : S prev) (nextCell : S next)
include newCell prevCell nextCell

theorem insert_next {a : Nat} (cell : S a) : u64 (listInsert m new prev next) a =
    if a = prev then BitVec.ofNat 64 new else if a = new then BitVec.ofNat 64 next else u64 m a := by
  have skip : ∀ {b}, S b → a ≠ b → a + 8 ≤ b ∨ b + 8 ≤ a := fun bCell ne => by
    rcases cells.apart cell bCell ne with before | after <;> omega
  rw [listInsert]
  split
  case isTrue same => rw [same, u64_setU64]
  case isFalse notPrev =>
    rw [u64_setU64_of_disjoint _ _ (skip prevCell notPrev),
      u64_setU64_of_disjoint _ _ (cells.mixed cell newCell)]
    split
    case isTrue same => rw [same, u64_setU64]
    case isFalse notNew =>
      rw [u64_setU64_of_disjoint _ _ (skip newCell notNew),
        u64_setU64_of_disjoint _ _ (cells.mixed cell nextCell)]

theorem insert_prev {b : Nat} (cell : S b) (fresh : new ≠ next) : u64 (listInsert m new prev next) (b + 8) =
    if b = next then BitVec.ofNat 64 new else if b = new then BitVec.ofNat 64 prev else u64 m (b + 8) := by
  have skip : ∀ {a}, S a → b ≠ a → b + 8 + 8 ≤ a + 8 ∨ a + 8 + 8 ≤ b + 8 := fun aCell ne => by
    rcases cells.apart cell aCell ne with before | after <;> omega
  rw [listInsert, u64_setU64_of_disjoint _ _ (cells.mixed prevCell cell).symm]
  split
  case isTrue same =>
    subst same
    rw [u64_setU64_of_disjoint _ _ (skip newCell fresh.symm),
      u64_setU64_of_disjoint _ _ (cells.mixed newCell cell).symm, u64_setU64]
  case isFalse notNext =>
    split
    case isTrue same => rw [same, u64_setU64]
    case isFalse notNew =>
      rw [u64_setU64_of_disjoint _ _ (skip newCell notNew),
        u64_setU64_of_disjoint _ _ (cells.mixed newCell cell).symm,
        u64_setU64_of_disjoint _ _ (skip nextCell notNext)]

end Insert

section Del

variable {entry prev next : Nat} (entryCell : S entry) (prevCell : S prev) (nextCell : S next)
  (before : (u64 m (entry + 8)).toNat = prev) (behind : (u64 m entry).toNat = next)
include entryCell prevCell nextCell before behind

theorem listDel_next {a : Nat} (cell : S a) (other : a ≠ entry) :
    u64 (listDel m entry) a = if a = prev then BitVec.ofNat 64 next else u64 m a := by
  have skip : ∀ {b}, S b → a ≠ b → a + 8 ≤ b ∨ b + 8 ≤ a := fun bCell ne => by
    rcases cells.apart cell bCell ne with before | after <;> omega
  rw [listDel, before, behind, u64_setU64_of_disjoint _ _ (cells.mixed cell entryCell),
    u64_setU64_of_disjoint _ _ (skip entryCell other)]
  split
  case isTrue same => rw [same, u64_setU64]
  case isFalse notPrev =>
    rw [u64_setU64_of_disjoint _ _ (skip prevCell notPrev),
      u64_setU64_of_disjoint _ _ (cells.mixed cell nextCell)]

theorem listDel_prev {b : Nat} (cell : S b) (other : b ≠ entry) :
    u64 (listDel m entry) (b + 8) = if b = next then BitVec.ofNat 64 prev else u64 m (b + 8) := by
  have skip : ∀ {a}, S a → b ≠ a → b + 8 + 8 ≤ a + 8 ∨ a + 8 + 8 ≤ b + 8 := fun aCell ne => by
    rcases cells.apart cell aCell ne with before | after <;> omega
  rw [listDel, before, behind, u64_setU64_of_disjoint _ _ (skip entryCell other),
    u64_setU64_of_disjoint _ _ (cells.mixed entryCell cell).symm,
    u64_setU64_of_disjoint _ _ (cells.mixed prevCell cell).symm]
  split
  case isTrue same => rw [same, u64_setU64]
  case isFalse notNext => rw [u64_setU64_of_disjoint _ _ (skip nextCell notNext)]

end Del

end Words

/-! ## Chains of links -/

theorem chain_congr {m m' : Mem} {l : List Nat} (chain : l.IsChain (Link m))
    (next : ∀ a ∈ l.dropLast, u64 m' a = u64 m a) (prev : ∀ b ∈ l.tail, u64 m' (b + 8) = u64 m (b + 8)) :
    l.IsChain (Link m') := by
  induction l with
  | nil => exact .nil
  | cons a l ih =>
    cases l with
    | nil => exact .singleton a
    | cons b l =>
      rw [List.isChain_cons_cons] at chain ⊢
      refine ⟨chain.1.congr (next a List.mem_cons_self) (prev b List.mem_cons_self), ih chain.2 ?_ ?_⟩
      · exact fun c mem => next c (List.mem_cons_of_mem a mem)
      · exact fun c mem => prev c (List.mem_cons_of_mem b mem)

section Chains

variable {S : Nat → Prop} (cells : Cells S) {m : Mem} {before behind : List Nat} {a b x : Nat}
  (beforeCells : ∀ c ∈ before, S c) (behindCells : ∀ c ∈ behind, S c) (aCell : S a) (bCell : S b) (xCell : S x)
  -- `a` is no first cell but its own, `b` no second one
  (aOnce : a ∉ before ∧ a ∉ (b :: behind).dropLast) (bOnce : b ∉ (before ++ [a]).tail ∧ b ∉ behind)
include cells beforeCells behindCells aCell bCell xCell aOnce bOnce

/-- A new cell between two neighbours. -/
theorem chain_insert (chain : (before ++ a :: b :: behind).IsChain (Link m))
    (xNew : x ∉ before ++ a :: b :: behind) :
    (before ++ a :: x :: b :: behind).IsChain (Link (listInsert m x a b)) := by
  simp only [List.mem_append, List.mem_cons, not_or] at xNew
  obtain ⟨xBefore, xa, xb, xBehind⟩ := xNew
  have ends : ∀ c ∈ (b :: behind).dropLast, c = b ∨ c ∈ behind := fun c mem =>
    List.mem_cons.mp (List.dropLast_subset _ mem)
  rw [List.isChain_split, List.isChain_cons_cons] at chain
  obtain ⟨front, -, back⟩ := chain
  rw [List.isChain_split, List.isChain_cons_cons, List.isChain_cons_cons]
  refine ⟨chain_congr front ?_ ?_, ⟨?_, ?_⟩, ⟨?_, ?_⟩, chain_congr back ?_ ?_⟩
  · intro c mem
    rw [List.dropLast_concat] at mem
    rw [insert_next cells m xCell aCell bCell (beforeCells c mem), if_neg (ne_of_mem_of_not_mem mem aOnce.1),
      if_neg (ne_of_mem_of_not_mem mem xBefore)]
  · intro c mem
    have cell : S c := by
      rcases List.mem_append.mp (List.mem_of_mem_tail mem) with early | last
      · exact beforeCells c early
      · exact List.mem_singleton.mp last ▸ aCell
    have fresh : c ≠ x := by
      rintro rfl
      rcases List.mem_append.mp (List.mem_of_mem_tail mem) with early | last
      · exact xBefore early
      · exact xa (List.mem_singleton.mp last)
    rw [insert_prev cells m xCell aCell bCell cell xb, if_neg (ne_of_mem_of_not_mem mem bOnce.1), if_neg fresh]
  · rw [insert_next cells m xCell aCell bCell aCell, if_pos rfl, cells.word xCell]
  · rw [insert_prev cells m xCell aCell bCell xCell xb, if_neg xb, if_pos rfl, cells.word aCell]
  · rw [insert_next cells m xCell aCell bCell xCell, if_neg xa, if_pos rfl, cells.word bCell]
  · rw [insert_prev cells m xCell aCell bCell bCell xb, if_pos rfl, cells.word xCell]
  · intro c mem
    have cell : S c := by
      rcases ends c mem with rfl | later
      · exact bCell
      · exact behindCells c later
    have fresh : c ≠ x := by
      rintro rfl
      rcases ends c mem with same | later
      · exact xb same
      · exact xBehind later
    rw [insert_next cells m xCell aCell bCell cell, if_neg (ne_of_mem_of_not_mem mem aOnce.2), if_neg fresh]
  · intro c mem
    rw [List.tail_cons] at mem
    rw [insert_prev cells m xCell aCell bCell (behindCells c mem) xb, if_neg (ne_of_mem_of_not_mem mem bOnce.2),
      if_neg (ne_of_mem_of_not_mem mem xBehind)]

/-- The neighbours of a cell, joined over it. -/
theorem chain_del (chain : (before ++ a :: x :: b :: behind).IsChain (Link m))
    (xOnce : x ∉ before ++ a :: b :: behind) :
    (before ++ a :: b :: behind).IsChain (Link (listDel m x)) := by
  simp only [List.mem_append, List.mem_cons, not_or] at xOnce
  obtain ⟨xBefore, xa, xb, xBehind⟩ := xOnce
  have ends : ∀ c ∈ (b :: behind).dropLast, c = b ∨ c ∈ behind := fun c mem =>
    List.mem_cons.mp (List.dropLast_subset _ mem)
  rw [List.isChain_split, List.isChain_cons_cons, List.isChain_cons_cons] at chain
  obtain ⟨front, ⟨-, prev⟩, ⟨next, -⟩, back⟩ := chain
  have nextWord : ∀ {c}, S c → c ≠ x → u64 (listDel m x) c = if c = a then BitVec.ofNat 64 b else u64 m c :=
    listDel_next cells m xCell aCell bCell prev next
  have prevWord : ∀ {c}, S c → c ≠ x →
      u64 (listDel m x) (c + 8) = if c = b then BitVec.ofNat 64 a else u64 m (c + 8) :=
    listDel_prev cells m xCell aCell bCell prev next
  rw [List.isChain_split, List.isChain_cons_cons]
  refine ⟨chain_congr front ?_ ?_, ⟨?_, ?_⟩, chain_congr back ?_ ?_⟩
  · intro c mem
    rw [List.dropLast_concat] at mem
    rw [nextWord (beforeCells c mem) (ne_of_mem_of_not_mem mem xBefore), if_neg (ne_of_mem_of_not_mem mem aOnce.1)]
  · intro c mem
    have cell : S c ∧ c ≠ x := by
      rcases List.mem_append.mp (List.mem_of_mem_tail mem) with early | last
      · exact ⟨beforeCells c early, fun same => xBefore (same ▸ early)⟩
      · exact ⟨List.mem_singleton.mp last ▸ aCell, fun same => xa (same ▸ List.mem_singleton.mp last)⟩
    rw [prevWord cell.1 cell.2, if_neg (ne_of_mem_of_not_mem mem bOnce.1)]
  · rw [nextWord aCell (Ne.symm xa), if_pos rfl, cells.word bCell]
  · rw [prevWord bCell (Ne.symm xb), if_pos rfl, cells.word aCell]
  · intro c mem
    have cell : S c ∧ c ≠ x := by
      rcases ends c mem with rfl | later
      · exact ⟨bCell, Ne.symm xb⟩
      · exact ⟨behindCells c later, fun same => xBehind (same ▸ later)⟩
    rw [nextWord cell.1 cell.2, if_neg (ne_of_mem_of_not_mem mem aOnce.2)]
  · intro c mem
    rw [List.tail_cons] at mem
    rw [prevWord (behindCells c mem) (ne_of_mem_of_not_mem mem xBehind), if_neg (ne_of_mem_of_not_mem mem bOnce.2)]

end Chains

/-! ## One list -/

/-- A place in a ring: the cell before it and the cell behind it. -/
theorem neighbours {head : Nat} {xs ys : List Nat} (nodup : (head :: (xs ++ ys)).Nodup) :
    ∃ before a b behind, head :: xs = before ++ [a] ∧ ys ++ [head] = b :: behind ∧
      (∀ c, c ∈ before ++ a :: b :: behind ↔ c ∈ head :: (xs ++ ys)) ∧
      (a ∉ before ∧ a ∉ (b :: behind).dropLast) ∧ b ∉ (before ++ [a]).tail ∧ b ∉ behind := by
  obtain ⟨before, a, front⟩ : ∃ before a, head :: xs = before ++ [a] :=
    ⟨_, _, (List.dropLast_append_getLast (List.cons_ne_nil head xs)).symm⟩
  obtain ⟨b, behind, back⟩ : ∃ b behind, ys ++ [head] = b :: behind :=
    List.exists_cons_of_ne_nil (List.append_ne_nil_of_right_ne_nil _ (List.cons_ne_nil _ _))
  rw [← List.cons_append, List.nodup_append'] at nodup
  obtain ⟨xsNodup, ysNodup, apart⟩ := nodup
  have headYs : head ∉ ys := List.disjoint_left.mp apart List.mem_cons_self
  have backNodup : (ys ++ [head]).Nodup := ysNodup.append (List.nodup_singleton head) (by simpa using headYs)
  have aMem : a ∈ head :: xs := front ▸ List.mem_append_right _ (List.mem_singleton_self a)
  have bMem : b ∈ ys ++ [head] := back ▸ List.mem_cons_self
  refine ⟨before, a, b, behind, front, back, fun c => ?_, ⟨?_, ?_⟩, ?_, ?_⟩
  · rw [List.append_cons, ← front, ← back]
    simp only [List.mem_append, List.mem_cons, List.not_mem_nil, or_false]
    grind
  · rw [front, List.nodup_append'] at xsNodup
    exact fun mem => List.disjoint_left.mp xsNodup.2.2 mem (List.mem_singleton_self a)
  · rw [← back, List.dropLast_concat]
    exact List.disjoint_left.mp apart aMem
  · rw [← front, List.tail_cons]
    intro mem
    rcases List.mem_append.mp bMem with early | last
    · exact List.disjoint_left.mp apart (List.mem_cons_of_mem _ mem) early
    · exact (List.nodup_cons.mp xsNodup).1 (List.mem_singleton.mp last ▸ mem)
  · rw [back] at backNodup
    exact (List.nodup_cons.mp backNodup).1

section Ring

variable {S : Nat → Prop} (cells : Cells S) {m : Mem} {head x : Nat}
include cells

theorem listAt_del {xs ys : List Nat} (inside : ∀ c ∈ head :: (xs ++ x :: ys), S c)
    (nodup : (head :: (xs ++ x :: ys)).Nodup) (list : ListAt m head (xs ++ x :: ys)) :
    ListAt (listDel m x) head (xs ++ ys) := by
  have perm : (head :: (xs ++ x :: ys)).Perm (x :: head :: (xs ++ ys)) :=
    (List.perm_middle.cons head).trans (List.Perm.swap x head _)
  obtain ⟨xOnce, others⟩ := List.nodup_cons.mp (perm.nodup_iff.mp nodup)
  obtain ⟨before, a, b, behind, front, back, same, aOnce, bOnce⟩ := neighbours others
  have cell : ∀ c ∈ before ++ a :: b :: behind, S c := by
    intro c mem
    exact inside c (perm.mem_iff.mpr (List.mem_cons_of_mem x ((same c).mp mem)))
  have chain : (before ++ a :: x :: b :: behind).IsChain (Link m) := by
    rw [List.append_cons, ← front, ← back]
    simpa [ListAt] using list
  have joined := chain_del cells (fun c mem => cell c (by simp [mem])) (fun c mem => cell c (by simp [mem]))
    (cell a (by simp)) (cell b (by simp)) (inside x (by simp)) aOnce bOnce chain
    (fun mem => xOnce ((same x).mp mem))
  rw [List.append_cons, ← front, ← back] at joined
  simpa [ListAt] using joined

/-- A new cell somewhere in a list, between the cells `a` and `b` that are there. -/
theorem listAt_insert (xs ys : List Nat) (inside : ∀ c ∈ head :: x :: (xs ++ ys), S c)
    (nodup : (head :: x :: (xs ++ ys)).Nodup) (list : ListAt m head (xs ++ ys)) :
    ∃ a b, (∃ before, head :: xs = before ++ [a]) ∧ (∃ behind, ys ++ [head] = b :: behind) ∧ Link m a b ∧
      ListAt (listInsert m x a b) head (xs ++ x :: ys) := by
  have perm : (head :: x :: (xs ++ ys)).Perm (x :: head :: (xs ++ ys)) := List.Perm.swap x head _
  obtain ⟨xNew, others⟩ := List.nodup_cons.mp (perm.nodup_iff.mp nodup)
  obtain ⟨before, a, b, behind, front, back, same, aOnce, bOnce⟩ := neighbours others
  have cell : ∀ c ∈ before ++ a :: b :: behind, S c := by
    intro c mem
    exact inside c (perm.mem_iff.mpr (List.mem_cons_of_mem x ((same c).mp mem)))
  have chain : (before ++ a :: b :: behind).IsChain (Link m) := by
    rw [List.append_cons, ← front, ← back]
    simpa [ListAt] using list
  have link : Link m a b := by
    rw [List.isChain_split, List.isChain_cons_cons] at chain
    exact chain.2.1
  have joined := chain_insert cells (fun c mem => cell c (by simp [mem])) (fun c mem => cell c (by simp [mem]))
    (cell a (by simp)) (cell b (by simp)) (inside x (by simp)) aOnce bOnce chain
    (fun mem => xNew ((same x).mp mem))
  rw [List.append_cons, ← front] at joined
  refine ⟨a, b, ⟨before, front⟩, ⟨behind, back⟩, link, ?_⟩
  rw [← back] at joined
  simpa [ListAt] using joined

theorem listAt_add {l : List Nat} (inside : ∀ c ∈ head :: x :: l, S c) (nodup : (head :: x :: l).Nodup)
    (list : ListAt m head l) : ListAt (listAdd m x head) head (x :: l) := by
  obtain ⟨a, b, ⟨before, front⟩, -, link, added⟩ := listAt_insert cells [] l inside nodup list
  obtain rfl : head = a := by simpa using congrArg List.getLast? front
  rw [listAdd, link.1]
  exact added

theorem listAt_addTail {l : List Nat} (inside : ∀ c ∈ head :: x :: l, S c) (nodup : (head :: x :: l).Nodup)
    (list : ListAt m head l) : ListAt (listAddTail m x head) head (l ++ [x]) := by
  obtain ⟨a, b, -, ⟨behind, back⟩, link, added⟩ := listAt_insert cells l []
    (by simpa using inside) (by simpa using nodup) (by simpa using list)
  obtain rfl : head = b := (List.cons.inj back).1
  rw [listAddTail, link.2]
  exact added

end Ring

/-- What follows the head: the head itself, or the first node. -/
theorem listAt_next {m : Mem} {head : Nat} {l : List Nat} (list : ListAt m head l) :
    (u64 m head).toNat = (l ++ [head]).head (by simp) := by
  cases l with
  | nil => exact (List.isChain_pair.mp list).1
  | cons x l => exact (List.isChain_cons_cons.mp list).1.1

/-- The neighbours of a node are cells of its list. -/
theorem listAt_near {m : Mem} {head x : Nat} {l : List Nat} (list : ListAt m head l) (mem : x ∈ l) :
    (u64 m x).toNat ∈ head :: l ∧ (u64 m (x + 8)).toNat ∈ head :: l := by
  obtain ⟨xs, ys, rfl⟩ := List.append_of_mem mem
  obtain ⟨before, a, front⟩ : ∃ before a, head :: xs = before ++ [a] :=
    ⟨_, _, (List.dropLast_append_getLast (List.cons_ne_nil head xs)).symm⟩
  obtain ⟨b, behind, back⟩ : ∃ b behind, ys ++ [head] = b :: behind :=
    List.exists_cons_of_ne_nil (List.append_ne_nil_of_right_ne_nil _ (List.cons_ne_nil _ _))
  have chain : (before ++ a :: x :: b :: behind).IsChain (Link m) := by
    rw [List.append_cons, ← front, ← back]
    simpa [ListAt] using list
  rw [List.isChain_split, List.isChain_cons_cons, List.isChain_cons_cons] at chain
  obtain ⟨-, ⟨-, prev⟩, ⟨next, -⟩, -⟩ := chain
  have aMem : a ∈ head :: xs := front ▸ List.mem_append_right _ (List.mem_singleton_self a)
  have bMem : b ∈ ys ++ [head] := back ▸ List.mem_cons_self
  rw [next, prev]
  grind

section Footprints

variable (m : Mem) (x : Nat)

theorem listDel_changesOnly : ChangesOnly
    (fun y => Span x 16 y ∨ Span (u64 m (x + 8)).toNat 16 y ∨ Span (u64 m x).toNat 16 y) m (listDel m x) := by
  rw [listDel]
  refine (((setU64_changesOnly m _ _).mono ?_).trans ((setU64_changesOnly _ _ _).mono ?_)).trans
    (((setU64_changesOnly _ _ _).mono ?_).trans ((setU64_changesOnly _ _ _).mono ?_)) <;>
  · intro y span
    simp only [Span] at span ⊢
    omega

/-- The links of an entry that is alone in its ring lead to the entry itself. -/
theorem listDel_self_changesOnly (next : (u64 m x).toNat = x) (prev : (u64 m (x + 8)).toNat = x) :
    ChangesOnly (Span x 16) m (listDel m x) := by
  have changes := listDel_changesOnly m x
  rw [next, prev] at changes
  exact changes.mono fun y span => by simpa using span

theorem listInsert_changesOnly (prev next : Nat) : ChangesOnly
    (fun y => Span x 16 y ∨ Span prev 16 y ∨ Span next 16 y) m (listInsert m x prev next) := by
  rw [listInsert]
  refine (((setU64_changesOnly m _ _).mono ?_).trans ((setU64_changesOnly _ _ _).mono ?_)).trans
    (((setU64_changesOnly _ _ _).mono ?_).trans ((setU64_changesOnly _ _ _).mono ?_)) <;>
  · intro y span
    simp only [Span] at span ⊢
    omega

end Footprints

/-! ## Several lists -/

/-- The sequences `q` are in memory, each as the list of its head, in cells of `S`.
There are heads for some indices; the other sequences are empty. -/
structure Stored {κ : Type} (S : Nat → Prop) (head : κ → Nat) (live : κ → Prop) (m : Mem) (q : Queues κ Nat) :
    Prop where
  placed : q.Placed
  indexed : ∀ {h x}, x ∈ q h → live h
  heads : ∀ {h}, live h → S (head h)
  nodes : ∀ {h x}, x ∈ q h → S x
  distinct : ∀ {h h'}, live h → live h' → head h = head h' → h = h'
  apart : ∀ {h h' x}, live h → x ∈ q h' → x ≠ head h
  lists : ∀ {h}, live h → ListAt m (head h) (q h)

namespace Stored

variable {κ : Type} {S : Nat → Prop} {head : κ → Nat} {live : κ → Prop} {m m' : Mem} {q : Queues κ Nat}

/-- The cells of the lists. -/
def Uses (head : κ → Nat) (live : κ → Prop) (q : Queues κ Nat) (a : Nat) : Prop :=
  (∃ h, live h ∧ a = head h) ∨ ∃ h, a ∈ q h

/-- The bytes of the lists. -/
def Bytes (head : κ → Nat) (live : κ → Prop) (q : Queues κ Nat) (x : Nat) : Prop :=
  ∃ a, Uses head live q a ∧ Span a 16 x

theorem cell (stored : Stored S head live m q) {a : Nat} (uses : Uses head live q a) : S a := by
  rcases uses with ⟨h, alive, rfl⟩ | ⟨h, mem⟩
  · exact stored.heads alive
  · exact stored.nodes mem

theorem ring (stored : Stored S head live m q) {h : κ} (alive : live h) :
    (∀ c ∈ head h :: q h, S c) ∧ (head h :: q h).Nodup := by
  constructor
  · intro c mem
    rcases List.mem_cons.mp mem with rfl | mem
    · exact stored.heads alive
    · exact stored.nodes mem
  · exact List.nodup_cons.mpr ⟨fun mem => stored.apart alive mem rfl, stored.placed.nodup h⟩

/-- Changes outside the cells of the lists. -/
theorem congr (stored : Stored S head live m q) (same : ∀ a, Uses head live q a →
    u64 m' a = u64 m a ∧ u64 m' (a + 8) = u64 m (a + 8)) : Stored S head live m' q where
  placed := stored.placed
  indexed := stored.indexed
  heads := stored.heads
  nodes := stored.nodes
  distinct := stored.distinct
  apart := stored.apart
  lists {h} alive := by
    have uses : ∀ c ∈ head h :: q h ++ [head h], Uses head live q c := by
      intro c mem
      simp only [List.cons_append, List.mem_cons, List.mem_append, List.not_mem_nil, or_false] at mem
      rcases mem with rfl | mem | rfl
      · exact .inl ⟨h, alive, rfl⟩
      · exact .inr ⟨h, mem⟩
      · exact .inl ⟨h, alive, rfl⟩
    exact chain_congr (stored.lists alive) (fun a mem => (same a (uses a (List.dropLast_subset _ mem))).1)
      (fun b mem => (same b (uses b (List.mem_of_mem_tail mem))).2)

theorem of_changesOnly {F : Nat → Prop} (stored : Stored S head live m q) (changes : ChangesOnly F m m')
    (misses : ∀ x, Bytes head live q x → ¬ F x) : Stored S head live m' q :=
  stored.congr fun a uses =>
    ⟨changes.u64 fun x lower upper => misses x ⟨a, uses, lower, by omega⟩,
      changes.u64 fun x lower upper => misses x ⟨a, uses, by omega, by omega⟩⟩

/-- Two lists have no cell in common. -/
theorem disjoint (stored : Stored S head live m q) {h h' : κ} (alive : live h) (alive' : live h') (ne : h ≠ h')
    {c : Nat} (mem : c ∈ head h :: q h) : c ∉ head h' :: q h' := by
  intro other
  rcases List.mem_cons.mp mem with rfl | mem <;> rcases List.mem_cons.mp other with same | other
  · exact ne (stored.distinct alive alive' same)
  · exact stored.apart alive other rfl
  · exact stored.apart alive' mem same
  · exact ne (stored.placed.one mem other)

theorem uses_of_mem {h : κ} (alive : live h) {c : Nat} (mem : c ∈ head h :: q h) : Uses head live q c := by
  rcases List.mem_cons.mp mem with rfl | mem
  · exact .inl ⟨h, alive, rfl⟩
  · exact .inr ⟨h, mem⟩

/-- A list whose cells are none of three keeps its links when only those change. -/
theorem frame (cells : Cells S) (stored : Stored S head live m q) {h : κ} (alive : live h)
    {x a b : Nat} (changes : ChangesOnly (fun y => Span x 16 y ∨ Span a 16 y ∨ Span b 16 y) m m')
    (xCell : S x) (aCell : S a) (bCell : S b)
    (apart : ∀ c ∈ head h :: q h, c ≠ x ∧ c ≠ a ∧ c ≠ b) : ListAt m' (head h) (q h) := by
  have kept : ∀ c ∈ head h :: q h, u64 m' c = u64 m c ∧ u64 m' (c + 8) = u64 m (c + 8) := by
    intro c mem
    have cell := (stored.ring alive).1 c mem
    obtain ⟨cx, ca, cb⟩ := apart c mem
    have miss : ∀ y, Span c 16 y → ¬ (Span x 16 y ∨ Span a 16 y ∨ Span b 16 y) := by
      intro y span
      have := cells.apart cell xCell cx
      have := cells.apart cell aCell ca
      have := cells.apart cell bCell cb
      simp only [Span] at span ⊢
      omega
    exact ⟨changes.u64 fun y lower upper => miss y ⟨lower, by omega⟩,
      changes.u64 fun y lower upper => miss y ⟨by omega, by omega⟩⟩
  have ring : ∀ c ∈ head h :: q h ++ [head h], c ∈ head h :: q h := by
    intro c mem
    rcases List.mem_append.mp mem with early | last
    · exact early
    · exact List.mem_singleton.mp last ▸ List.mem_cons_self
  exact chain_congr (stored.lists alive) (fun c mem => (kept c (ring c (List.dropLast_subset _ mem))).1)
    (fun c mem => (kept c (ring c (List.mem_of_mem_tail mem))).2)

section Del

variable (stored : Stored S head live m q) {h : κ} {x : Nat} (mem : x ∈ q h)
include stored mem

theorem del_changesOnly : ChangesOnly (Bytes head live q) m (listDel m x) := by
  have alive := stored.indexed mem
  obtain ⟨next, prev⟩ := listAt_near (stored.lists alive) mem
  refine (listDel_changesOnly m x).mono fun y span => ?_
  rcases span with here | before | behind
  · exact ⟨x, .inr ⟨h, mem⟩, here⟩
  · exact ⟨_, uses_of_mem alive prev, before⟩
  · exact ⟨_, uses_of_mem alive next, behind⟩

theorem del (cells : Cells S) : Stored S head live (listDel m x) (q.del x) where
  placed := stored.placed.del x
  indexed member := stored.indexed ((Queues.mem_del stored.placed).mp member).2
  heads := stored.heads
  nodes member := stored.nodes ((Queues.mem_del stored.placed).mp member).2
  distinct := stored.distinct
  apart alive member := stored.apart alive ((Queues.mem_del stored.placed).mp member).2
  lists {h'} alive' := by
    have alive := stored.indexed mem
    by_cases same : h' = h
    · subst same
      obtain ⟨xs, ys, -, split, erased⟩ := List.exists_erase_eq mem
      have list := stored.lists alive
      obtain ⟨inside, nodup⟩ := stored.ring alive
      rw [split] at list inside nodup
      rw [Queues.del, erased]
      exact listAt_del cells inside nodup list
    · have other : x ∉ q h' := fun member => same (stored.placed.one member mem)
      obtain ⟨next, prev⟩ := listAt_near (stored.lists alive) mem
      rw [Queues.del, List.erase_of_not_mem other]
      refine stored.frame cells alive' (listDel_changesOnly m x) (stored.nodes mem)
        ((stored.ring alive).1 _ prev) ((stored.ring alive).1 _ next) fun c inside => ?_
      have outside := stored.disjoint alive' alive same inside
      refine ⟨?_, ?_, ?_⟩
      · exact fun here => outside (here ▸ List.mem_cons_of_mem _ mem)
      · exact fun here => outside (here ▸ prev)
      · exact fun here => outside (here ▸ next)

end Del

section Insert

variable (stored : Stored S head live m q) {h : κ} (alive : live h) {x : Nat}
include stored alive

/-- The cells on either side of the head. -/
theorem ends : (u64 m (head h)).toNat ∈ head h :: q h ∧ (u64 m (head h + 8)).toNat ∈ head h :: q h := by
  have list := stored.lists alive
  constructor
  · rw [listAt_next list]
    have mem := List.head_mem (show q h ++ [head h] ≠ [] by simp)
    grind
  · obtain ⟨before, a, front⟩ : ∃ before a, head h :: q h = before ++ [a] :=
      ⟨_, _, (List.dropLast_append_getLast (List.cons_ne_nil _ _)).symm⟩
    have link : Link m a (head h) := by
      rw [ListAt, front, List.append_assoc, List.singleton_append, List.isChain_append_cons_cons] at list
      exact list.2.1
    rw [link.2, front]
    exact List.mem_append_right _ (List.mem_singleton_self a)

omit stored in
/-- What insertions write. -/
theorem insert_changesOnly (x : Nat) {a b : Nat} (aMem : a ∈ head h :: q h) (bMem : b ∈ head h :: q h) :
    ChangesOnly (fun y => Span x 16 y ∨ Bytes head live q y) m (listInsert m x a b) := by
  refine (listInsert_changesOnly m x a b).mono fun y span => ?_
  rcases span with here | before | behind
  · exact .inl here
  · exact .inr ⟨a, uses_of_mem alive aMem, before⟩
  · exact .inr ⟨b, uses_of_mem alive bMem, behind⟩

theorem add_changesOnly (x : Nat) :
    ChangesOnly (fun y => Span x 16 y ∨ Bytes head live q y) m (listAdd m x (head h)) :=
  insert_changesOnly alive x List.mem_cons_self (stored.ends alive).1

theorem addTail_changesOnly (x : Nat) :
    ChangesOnly (fun y => Span x 16 y ∨ Bytes head live q y) m (listAddTail m x (head h)) :=
  insert_changesOnly alive x (stored.ends alive).2 List.mem_cons_self

variable (cell : S x) (new : ∀ a, Uses head live q a → x ≠ a)
include cell new

/-- The new cell is on no list, and the ring with it has no cell twice. -/
theorem fresh : (∀ h', x ∉ q h') ∧ (∀ c ∈ head h :: x :: q h, S c) ∧ (head h :: x :: q h).Nodup := by
  obtain ⟨inside, nodup⟩ := stored.ring alive
  have unlisted : ∀ h', x ∉ q h' := fun h' mem => new x (.inr ⟨h', mem⟩) rfl
  have notHead : x ≠ head h := new _ (.inl ⟨h, alive, rfl⟩)
  refine ⟨unlisted, ?_, ?_⟩
  · intro c mem
    rcases List.mem_cons.mp mem with rfl | mem
    · exact inside _ List.mem_cons_self
    · rcases List.mem_cons.mp mem with rfl | mem
      · exact cell
      · exact inside c (List.mem_cons_of_mem _ mem)
  · refine (List.Perm.swap x (head h) _).nodup_iff.mpr (List.nodup_cons.mpr ⟨?_, nodup⟩)
    intro mem
    rcases List.mem_cons.mp mem with same | mem
    · exact notHead same
    · exact unlisted h mem

variable (cells : Cells S)
include cells

/-- What both insertions keep, from what they do to the one list. -/
theorem inserted {m' : Mem} {q' : Queues κ Nat} {a b : Nat} (placed : q'.Placed)
    (members : ∀ {h' y}, y ∈ q' h' ↔ (y = x ∧ h' = h) ∨ y ∈ q h') (others : ∀ h', h' ≠ h → q' h' = q h')
    (changes : ChangesOnly (fun y => Span x 16 y ∨ Span a 16 y ∨ Span b 16 y) m m')
    (aMem : a ∈ head h :: q h) (bMem : b ∈ head h :: q h) (list : ListAt m' (head h) (q' h)) :
    Stored S head live m' q' where
  placed := placed
  indexed member := by
    rcases members.mp member with ⟨-, rfl⟩ | old
    · exact alive
    · exact stored.indexed old
  heads := stored.heads
  nodes member := by
    rcases members.mp member with ⟨rfl, -⟩ | old
    · exact cell
    · exact stored.nodes old
  distinct := stored.distinct
  apart {h₁ h₂ y} alive₁ member := by
    rcases members.mp member with ⟨rfl, -⟩ | old
    · exact new _ (.inl ⟨h₁, alive₁, rfl⟩)
    · exact stored.apart alive₁ old
  lists {h'} alive' := by
    by_cases same : h' = h
    · subst same
      exact list
    · rw [others h' same]
      refine stored.frame cells alive' changes cell ((stored.ring alive).1 a aMem) ((stored.ring alive).1 b bMem)
        fun c inside => ?_
      have outside := stored.disjoint alive' alive same inside
      exact ⟨(new c (uses_of_mem alive' inside)).symm, fun here => outside (here ▸ aMem),
        fun here => outside (here ▸ bMem)⟩

variable [DecidableEq κ]

theorem push : Stored S head live (listAdd m x (head h)) (q.push h x) := by
  obtain ⟨unlisted, inside, nodup⟩ := stored.fresh alive cell new
  have near := stored.ends alive
  refine stored.inserted alive cell new cells (stored.placed.push h unlisted) Queues.mem_push ?_
    (listInsert_changesOnly m x _ _) List.mem_cons_self near.1 ?_
  · exact fun h' other => Function.update_of_ne other _ _
  · rw [Queues.push, Function.update_self]
    exact listAt_add cells inside nodup (stored.lists alive)

theorem append : Stored S head live (listAddTail m x (head h)) (q.append h x) := by
  obtain ⟨unlisted, inside, nodup⟩ := stored.fresh alive cell new
  have near := stored.ends alive
  refine stored.inserted alive cell new cells (stored.placed.append h unlisted) Queues.mem_append ?_
    (listInsert_changesOnly m x _ _) near.2 List.mem_cons_self ?_
  · exact fun h' other => Function.update_of_ne other _ _
  · rw [Queues.append, Function.update_self]
    exact listAt_addTail cells inside nodup (stored.lists alive)

end Insert

end Stored

end Itaro.Theory.Links
