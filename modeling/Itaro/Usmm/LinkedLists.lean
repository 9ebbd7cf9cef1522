/-
# Usmm.LinkedLists -- the lists of a region, found in its memory

`Rep c loose r m` relates a region, whose lists are sequences, to a memory that holds
them: the sequences are stored in `m` as the lists of their heads, and `m` is the
region's memory but for the cells of the lists and the nodes of the slabs in `loose`,
which are on no list just now.  Each list operation of the region is the one of list.h
in the memory (`Rep.listDel`, `Rep.listAdd`, `Rep.listAddTail`), and a store outside the
cells is made to both (`Rep.store`).  Nothing else an operation reads is in a cell
(`Rep.u64`, `Rep.slabAt`, `Rep.control'`).
-/
import Itaro.Usmm.Linked
import Itaro.Usmm.Steps

namespace Itaro.Usmm.Linked

set_option autoImplicit false

open Theory

/-! ## Cells -/

/-- The address of a list head. -/
def headAddr (u : Nat) : Head → Nat
  | .free => freeSlabs u
  | .full => fullSlabs u
  | .cls k => classHead u k

/-- The heads there are. -/
def liveHead : Head → Prop
  | .cls k => k < usmmSlabArrayMax
  | _ => True

/-- The cells of a region: its heads, and a node in every slab but the first. -/
def Cell (c : UsmmConf) (a : Nat) : Prop :=
  (∃ h, liveHead h ∧ a = headAddr c.base h) ∨ ∃ i, 1 ≤ i ∧ i < c.slabCount ∧ a = node (c.slabAddr i)

/-- The bytes of the cells. -/
def LinkArea (c : UsmmConf) (x : Nat) : Prop := ∃ a, Cell c a ∧ Span a 16 x

section Cells

variable {c : UsmmConf}

theorem headAddr_lt {u : Nat} {h : Head} (alive : liveHead h) :
    u + 112 ≤ headAddr u h ∧ headAddr u h + 16 ≤ u + usmmSlotsOffset := by
  cases h with
  | free => simp only [headAddr, freeSlabs, usmmSlotsOffset]; omega
  | full => simp only [headAddr, fullSlabs, usmmSlotsOffset]; omega
  | cls k =>
    simp only [liveHead, usmmSlabArrayMax] at alive
    simp only [headAddr, classHead, usmmSlabsOffset, usmmSlotsOffset]
    omega

/-- Where the heads are: two at the end of the control block, the others in their table. -/
theorem headAddr_cases {u : Nat} {h : Head} (alive : liveHead h) :
    headAddr u h + 16 ≤ u + 144 ∨ u + usmmSlabsOffset ≤ headAddr u h := by
  cases h with
  | free => simp only [headAddr, freeSlabs]; omega
  | full => simp only [headAddr, fullSlabs]; omega
  | cls k => simp only [headAddr, classHead]; omega

theorem headAddr_apart {u : Nat} {h h' : Head} (ne : h ≠ h') :
    headAddr u h + 16 ≤ headAddr u h' ∨ headAddr u h' + 16 ≤ headAddr u h := by
  cases h <;> cases h' <;>
    simp only [headAddr, freeSlabs, fullSlabs, classHead, usmmSlabsOffset, ne_eq, not_true_eq_false,
      Head.cls.injEq, reduceCtorEq, not_false_eq_true] at ne ⊢ <;> omega

theorem headAddr_injective {u : Nat} {h h' : Head} (same : headAddr u h = headAddr u h') : h = h' := by
  by_contra ne
  have := headAddr_apart (u := u) ne
  omega

/-- A head and a node are apart. -/
theorem head_node_apart (roomy : c.Roomy) {h : Head} {i : Nat} (alive : liveHead h) (positive : 1 ≤ i) :
    headAddr c.base h + 16 ≤ node (c.slabAddr i) := by
  have large := roomy.large
  have below := (headAddr_lt (u := c.base) alive).2
  have above := c.slabAddr_ge positive
  simp only [usmmSlotsOffset] at below
  simp only [node]
  omega

theorem cells (roomy : c.Roomy) : Links.Cells (Cell c) where
  apart {a b} aCell bCell ne := by
    have large := roomy.large
    rcases aCell with ⟨h, alive, rfl⟩ | ⟨i, iPos, iBelow, rfl⟩ <;>
      rcases bCell with ⟨h', alive', rfl⟩ | ⟨j, jPos, jBelow, rfl⟩
    · exact headAddr_apart fun same => ne (same ▸ rfl)
    · exact .inl (head_node_apart roomy alive jPos)
    · exact .inr (head_node_apart roomy alive' iPos)
    · have other : i ≠ j := fun same => ne (same ▸ rfl)
      simp only [node]
      rcases c.slabAddr_apart other with before | after <;> omega
  small {a} aCell := by
    have large := roomy.large
    have room := roomy.room
    have nonempty := roomy.nonempty
    rcases aCell with ⟨h, alive, rfl⟩ | ⟨i, iPos, iBelow, rfl⟩
    · have below := (headAddr_lt (u := c.base) alive).2
      simp only [usmmSlotsOffset] at below
      omega
    · have last := c.slabAddr_end iBelow
      simp only [node]
      omega

/-- The first slab holds no link outside the heads, and another slab none outside its node. -/
theorem LinkArea.cases {x : Nat} (area : LinkArea c x) :
    (c.base + 112 ≤ x ∧ x < c.base + 144) ∨ (c.base + usmmSlabsOffset ≤ x ∧ x < c.base + usmmSlotsOffset) ∨
      ∃ i, 1 ≤ i ∧ i < c.slabCount ∧ Span (node (c.slabAddr i)) 16 x := by
  obtain ⟨a, ⟨h, alive, rfl⟩ | ⟨i, positive, below, rfl⟩, span⟩ := area
  · have bounds := headAddr_lt (u := c.base) alive
    have place := headAddr_cases (u := c.base) alive
    simp only [Span] at span
    omega
  · exact .inr (.inr ⟨i, positive, below, span⟩)

theorem not_linkArea_first (roomy : c.Roomy) {x : Nat} (upper : x < c.base + c.slabSize)
    (place : x < c.base + 112 ∨ (c.base + 144 ≤ x ∧ x < c.base + usmmSlabsOffset) ∨ c.base + usmmSlotsOffset ≤ x) :
    ¬ LinkArea c x := by
  have large := roomy.large
  simp only [usmmSlabsOffset, usmmSlotsOffset] at place
  intro area
  rcases area.cases with control | table | ⟨i, positive, -, span⟩
  · omega
  · simp only [usmmSlabsOffset, usmmSlotsOffset] at table
    omega
  · have above := c.slabAddr_ge positive
    simp only [Span, node] at span
    omega

theorem not_linkArea_slab (roomy : c.Roomy) {i x : Nat} (positive : 1 ≤ i)
    (span : Span (c.slabAddr i) c.slabSize x) (place : x < c.slabAddr i + 8 ∨ c.slabAddr i + 24 ≤ x) :
    ¬ LinkArea c x := by
  have large := roomy.large
  have above := c.slabAddr_ge positive
  simp only [Span] at span
  intro area
  rcases area.cases with control | table | ⟨j, -, -, inside⟩
  · omega
  · simp only [usmmSlabsOffset, usmmSlotsOffset] at table
    omega
  · simp only [Span, node] at inside
    by_cases same : j = i
    · subst same
      omega
    · rcases c.slabAddr_apart same with before | after <;> omega

/-- The `w` bytes at `a` hold no link. -/
def Unlinked (c : UsmmConf) (a w : Nat) : Prop := ∀ x, Span a w x → ¬ LinkArea c x

variable {a w : Nat}

theorem unlinked_control (roomy : c.Roomy) (upper : a + w ≤ c.base + 112) : Unlinked c a w := by
  have large := roomy.large
  intro x span
  simp only [Span] at span
  exact not_linkArea_first roomy (by omega) (.inl (by omega))

theorem unlinked_stat (roomy : c.Roomy) {k : Nat} (bound : k < usmmSlabArrayMax) (lower : statAddr c.base k ≤ a)
    (upper : a + w ≤ statAddr c.base k + 24) : Unlinked c a w := by
  have large := roomy.large
  simp only [usmmSlabArrayMax] at bound
  simp only [statAddr, usmmStatSliceOffset] at lower upper
  intro x span
  simp only [Span] at span
  exact not_linkArea_first roomy (by omega) (.inr (.inl (by simp only [usmmSlabsOffset]; omega)))

theorem unlinked_above (roomy : c.Roomy) (lower : c.base + usmmSlotsOffset ≤ a)
    (upper : a + w ≤ c.base + c.slabSize) : Unlinked c a w := by
  intro x span
  simp only [Span] at span
  exact not_linkArea_first roomy (by omega) (.inr (.inr (by omega)))

theorem unlinked_slab (roomy : c.Roomy) {i : Nat} (positive : 1 ≤ i) (lower : c.slabAddr i + 24 ≤ a)
    (upper : a + w ≤ c.slabAddr i + c.slabSize) : Unlinked c a w := by
  intro x span
  simp only [Span] at span
  exact not_linkArea_slab roomy positive ⟨by omega, by omega⟩ (.inr (by omega))

end Cells

/-! ## Sequences of nodes -/

/-- The sequences of slabs, as the lists link them. -/
def nodes (q : Queues Head Nat) : Queues Head Nat := fun h => (q h).map node

theorem node_injective : Function.Injective node := fun _ _ same => Nat.add_right_cancel same

section Nodes

variable {q : Queues Head Nat} {h : Head} {s : Nat}

theorem mem_nodes : node s ∈ nodes q h ↔ s ∈ q h := List.mem_map_of_injective node_injective

theorem nodes_del : nodes (q.del s) = (nodes q).del (node s) := by
  funext h'
  exact List.map_erase node_injective (q h')

theorem nodes_push : nodes (q.push h s) = (nodes q).push h (node s) := by
  funext h'
  by_cases same : h' = h
  · subst same
    simp [nodes, Queues.push]
  · simp [nodes, Queues.push, same]

theorem nodes_append : nodes (q.append h s) = (nodes q).append h (node s) := by
  funext h'
  by_cases same : h' = h
  · subst same
    simp [nodes, Queues.append]
  · simp [nodes, Queues.append, same]

end Nodes

/-! ## The relation -/

/-- A cell of the lists `q`. -/
abbrev Uses (c : UsmmConf) (q : Queues Head Nat) : Nat → Prop := Links.Stored.Uses (headAddr c.base) liveHead (nodes q)

/-- The cells of the lists, and the nodes of the slabs of `loose`. -/
def Differs (c : UsmmConf) (loose : List Nat) (q : Queues Head Nat) (x : Nat) : Prop :=
  ∃ a, (Uses c q a ∨ ∃ s ∈ loose, a = node s ∧ Cell c a) ∧ Span a 16 x

/-- The memory `m` holds the region `r` and its lists. -/
structure Rep (c : UsmmConf) (loose : List Nat) (r : Region) (m : Mem) : Prop where
  us : r.us = c.base
  control : Control c r.mem
  same : ChangesOnly (Differs c loose r.lists) r.mem m
  stored : Links.Stored (Cell c) (headAddr c.base) liveHead m (nodes r.lists)

namespace Rep

variable {c : UsmmConf} {loose : List Nat} {r : Region} {m : Mem} (rep : Rep c loose r m)
include rep

theorem hidden {x : Nat} (differs : Differs c loose r.lists x) : LinkArea c x := by
  obtain ⟨a, uses | ⟨s, -, -, cell⟩, span⟩ := differs
  · exact ⟨a, rep.stored.cell uses, span⟩
  · exact ⟨a, cell, span⟩

/-! ## Reading -/

section Reading

variable {a : Nat}

theorem byte (unlinked : Unlinked c a 1) : m a = r.mem a :=
  rep.same a fun differs => unlinked a ⟨le_rfl, by omega⟩ (rep.hidden differs)

theorem u32 (unlinked : Unlinked c a 4) : Theory.u32 m a = Theory.u32 r.mem a :=
  rep.same.u32 fun x lower upper differs => unlinked x ⟨lower, upper⟩ (rep.hidden differs)

theorem u64 (unlinked : Unlinked c a 8) : Theory.u64 m a = Theory.u64 r.mem a :=
  rep.same.u64 fun x lower upper differs => unlinked x ⟨lower, upper⟩ (rep.hidden differs)

variable (roomy : c.Roomy)
include roomy

/-- The control block holds no link before the heads. -/
theorem control' : Control c m := by
  refine rep.control.of_changesOnly rep.same fun x _ upper differs => ?_
  exact unlinked_control roomy (show x + 1 ≤ c.base + 112 by omega) x ⟨le_rfl, by omega⟩ (rep.hidden differs)

theorem slabAt {i : Nat} (positive : 1 ≤ i) : Usmm.slabAt m (c.slabAddr i) = Usmm.slabAt r.mem (c.slabAddr i) := by
  have large := roomy.large
  refine slabAt_of_changesOnly rep.same fun x lower upper differs => ?_
  exact unlinked_slab roomy positive (show c.slabAddr i + 24 ≤ x from lower)
    (show x + 1 ≤ c.slabAddr i + c.slabSize by omega) x ⟨le_rfl, by omega⟩ (rep.hidden differs)

end Reading

/-! ## Writing -/

section Writing

/-- The same is done to both memories, outside the cells of the lists. -/
theorem change {m₁ m₁' : Mem} {F : Nat → Prop} (control : Control c m₁)
    (same : ChangesOnly (Differs c loose r.lists) m₁ m₁') (frame : ChangesOnly F m m₁')
    (misses : ∀ a, Uses c r.lists a → ∀ x, Span a 16 x → ¬ F x) :
    Rep c loose (r.update fun _ => m₁) m₁' where
  us := rep.us
  control := control
  same := same
  stored := rep.stored.of_changesOnly frame fun x ⟨a, uses, span⟩ => misses a uses x span

variable {a : Nat} (above : c.base + 104 ≤ a)
include above

theorem store {w : Nat} (unlinked : Unlinked c a w) (v : Nat) :
    Rep c loose (r.update fun m => Theory.store m a w v) (Theory.store m a w v) := by
  refine rep.change ?_ (rep.same.store a w v) (store_changesOnly m a w v) fun b uses x span inside => ?_
  · refine rep.control.of_changesOnly (store_changesOnly r.mem a w v) fun x _ upper span => ?_
    simp only [Span] at span
    omega
  · exact unlinked x inside ⟨b, rep.stored.cell uses, span⟩

theorem setU8 (unlinked : Unlinked c a 1) (v : BitVec 8) :
    Rep c loose (r.update fun m => Theory.setU8 m a v) (Theory.setU8 m a v) := rep.store above unlinked v.toNat

theorem setU32 (unlinked : Unlinked c a 4) (v : BitVec 32) :
    Rep c loose (r.update fun m => Theory.setU32 m a v) (Theory.setU32 m a v) := rep.store above unlinked v.toNat

theorem setU64 (unlinked : Unlinked c a 8) (v : BitVec 64) :
    Rep c loose (r.update fun m => Theory.setU64 m a v) (Theory.setU64 m a v) := rep.store above unlinked v.toNat

end Writing

/-! ## The lists -/

theorem loosen (s : Nat) : Rep c (s :: loose) r m where
  us := rep.us
  control := rep.control
  same := by
    refine rep.same.mono fun x ⟨a, place, span⟩ => ⟨a, ?_, span⟩
    rcases place with uses | ⟨t, mem, rest⟩
    · exact .inl uses
    · exact .inr ⟨t, List.mem_cons_of_mem s mem, rest⟩
  stored := rep.stored

/-- The slab of a node in use. -/
theorem index {h : Head} {s : Nat} (mem : s ∈ r.lists h) : ∃ i, 1 ≤ i ∧ i < c.slabCount ∧ s = c.slabAddr i := by
  have listed := mem_nodes.mpr mem
  rcases rep.stored.nodes listed with ⟨h', alive, same⟩ | ⟨i, positive, below, same⟩
  · exact absurd same (rep.stored.apart alive listed)
  · exact ⟨i, positive, below, node_injective same⟩

/-- The cells in use are outside a slab that is on no list. -/
theorem apart (roomy : c.Roomy) {i : Nat} (positive : 1 ≤ i) (unlisted : ∀ h, c.slabAddr i ∉ r.lists h) {a : Nat}
    (uses : Uses c r.lists a) {x : Nat} (span : Span a 16 x) : ¬ Span (c.slabAddr i) c.slabSize x := by
  have large := roomy.large
  have start := c.slabAddr_ge positive
  simp only [Span] at span ⊢
  rcases uses with ⟨h, alive, rfl⟩ | ⟨h, listed⟩
  · have below := (headAddr_lt (u := c.base) alive).2
    simp only [usmmSlotsOffset] at below
    omega
  · obtain ⟨s, mem, rfl⟩ := List.mem_map.mp listed
    obtain ⟨j, -, -, rfl⟩ := rep.index mem
    have ne : i ≠ j := fun same => unlisted h (same ▸ mem)
    simp only [node] at span
    rcases c.slabAddr_apart ne with before | behind <;> omega

/-- A change of a slab that is on no list. -/
theorem changeSlab (roomy : c.Roomy) {i : Nat} (positive : 1 ≤ i) (unlisted : ∀ h, c.slabAddr i ∉ r.lists h)
    {loose' : List Nat} {m₁ m₁' : Mem} (frame : ChangesOnly (Span (c.slabAddr i) c.slabSize) r.mem m₁)
    (frame' : ChangesOnly (Span (c.slabAddr i) c.slabSize) m m₁')
    (same : ChangesOnly (Differs c loose' r.lists) m₁ m₁') : Rep c loose' (r.update fun _ => m₁) m₁' where
  us := rep.us
  control := by
    have large := roomy.large
    have start := c.slabAddr_ge positive
    refine rep.control.of_changesOnly frame fun x _ upper span => ?_
    simp only [Span] at span
    omega
  same := same
  stored := rep.stored.of_changesOnly frame' fun x ⟨_, uses, span⟩ => rep.apart roomy positive unlisted uses span

omit rep in
theorem header_span (roomy : c.Roomy) (s x : Nat) (span : Span s slabHeaderSize x) : Span s c.slabSize x := by
  have large := roomy.large
  simp only [Span, slabHeaderSize] at span ⊢
  omega

/-- The header of such a slab is initialised. -/
theorem slabInit (roomy : c.Roomy) {i : Nat} (positive : 1 ≤ i) (unlisted : ∀ h, c.slabAddr i ∉ r.lists h) :
    Rep c loose (r.update fun m => usmmSlabInit m (c.slabAddr i)) (usmmSlabInit m (c.slabAddr i)) :=
  rep.changeSlab roomy positive unlisted ((usmmSlabInit_changesOnly r.mem _).mono (header_span roomy _))
    ((usmmSlabInit_changesOnly m _).mono (header_span roomy _)) (rep.same.applyAll _)

omit rep in
/-- The header is cleared, and its links are as in the region. -/
theorem slabFini {i : Nat} (rep : Rep c (c.slabAddr i :: loose) r m) (roomy : c.Roomy) (positive : 1 ≤ i)
    (unlisted : ∀ h, c.slabAddr i ∉ r.lists h) :
    Rep c loose (r.update fun m => usmmSlabFini m (c.slabAddr i)) (usmmSlabFini m (c.slabAddr i)) := by
  refine rep.changeSlab roomy positive unlisted ((usmmSlabFini_changesOnly r.mem _).mono (header_span roomy _))
    ((usmmSlabFini_changesOnly m _).mono (header_span roomy _)) ?_
  refine (rep.same.fill (c.slabAddr i) slabHeaderSize 0#8).mono fun x ⟨⟨a, place, span⟩, outside⟩ => ⟨a, ?_, span⟩
  rcases place with uses | ⟨t, member, rfl, cell⟩
  · exact .inl uses
  · rcases List.mem_cons.mp member with rfl | other
    · refine absurd ?_ outside
      simp only [Span, node, slabHeaderSize] at span ⊢
      omega
    · exact .inr ⟨t, other, rfl, cell⟩

/-! ## The list operations -/

section Lists

variable (roomy : c.Roomy) {s : Nat}
include roomy

theorem listDel {h : Head} (mem : s ∈ r.lists h) :
    Rep c (s :: loose) (r.listDel s) (Links.listDel m (node s)) where
  us := rep.us
  control := rep.control
  same := by
    have listed := mem_nodes.mpr mem
    have left : ∀ a, Uses c r.lists a → Uses c (r.lists.del s) a ∨ ∃ t ∈ s :: loose, a = node t ∧ Cell c a := by
      intro a uses
      rcases uses with head | ⟨h', member⟩
      · exact .inl (.inl head)
      · by_cases gone : a = node s
        · exact .inr ⟨s, List.mem_cons_self, gone, rep.stored.nodes member⟩
        · refine .inl (.inr ⟨h', ?_⟩)
          rw [nodes_del]
          exact (List.mem_erase_of_ne gone).mpr member
    refine (rep.same.mono ?_).trans ((rep.stored.del_changesOnly listed).mono ?_)
    · rintro x ⟨a, uses | ⟨t, member, rest⟩, span⟩
      · exact ⟨a, left a uses, span⟩
      · exact ⟨a, .inr ⟨t, List.mem_cons_of_mem s member, rest⟩, span⟩
    · rintro x ⟨a, uses, span⟩
      exact ⟨a, left a uses, span⟩
  stored := by
    rw [listDel_lists, nodes_del]
    exact rep.stored.del (mem_nodes.mpr mem) (cells roomy)

/-- The node of a slab that is on no list is none of the cells in use. -/
theorem fresh {i : Nat} (positive : 1 ≤ i) (unlisted : ∀ h, c.slabAddr i ∉ r.lists h) (a : Nat)
    (uses : Uses c r.lists a) : node (c.slabAddr i) ≠ a := by
  rintro rfl
  have large := roomy.large
  refine rep.apart roomy positive unlisted uses (x := node (c.slabAddr i)) ⟨le_rfl, by omega⟩ ?_
  simp only [Span, node]
  omega

end Lists

end Rep

namespace Rep

variable {c : UsmmConf} {loose : List Nat} {r : Region} {m : Mem}

section Insert

variable {i : Nat} {h : Head}

/-- What is new in the lists is the node, and it is no longer loose. -/
theorem inserted {m' : Mem} {q : Queues Head Nat} (rep : Rep c (c.slabAddr i :: loose) r m)
    (members : ∀ {h' a}, a ∈ nodes q h' ↔ (a = node (c.slabAddr i) ∧ h' = h) ∨ a ∈ nodes r.lists h')
    (changes : ChangesOnly (fun x => Span (node (c.slabAddr i)) 16 x ∨
      Links.Stored.Bytes (headAddr c.base) liveHead (nodes r.lists) x) m m') :
    ChangesOnly (Differs c loose q) r.mem m' := by
  have new : Uses c q (node (c.slabAddr i)) := .inr ⟨h, members.mpr (.inl ⟨rfl, rfl⟩)⟩
  have old : ∀ a, Uses c r.lists a → Uses c q a := by
    rintro a (head | ⟨h', member⟩)
    · exact .inl head
    · exact .inr ⟨h', members.mpr (.inr member)⟩
  refine (rep.same.mono ?_).trans (changes.mono ?_)
  · rintro x ⟨a, uses | ⟨t, member, rfl, cell⟩, span⟩
    · exact ⟨a, .inl (old a uses), span⟩
    · rcases List.mem_cons.mp member with rfl | other
      · exact ⟨_, .inl new, span⟩
      · exact ⟨_, .inr ⟨t, other, rfl, cell⟩, span⟩
  · rintro x (span | ⟨a, uses, span⟩)
    · exact ⟨_, .inl new, span⟩
    · exact ⟨a, .inl (old a uses), span⟩

variable (rep : Rep c (c.slabAddr i :: loose) r m) (roomy : c.Roomy) (positive : 1 ≤ i)
  (below : i < c.slabCount) (unlisted : ∀ h, c.slabAddr i ∉ r.lists h) (alive : liveHead h)
include rep roomy positive below unlisted alive

theorem listAdd :
    Rep c loose (r.listAdd (c.slabAddr i) h) (Links.listAdd m (node (c.slabAddr i)) (headAddr c.base h)) where
  us := rep.us
  control := rep.control
  same := by
    rw [listAdd_lists, listAdd_mem]
    refine rep.inserted (h := h) ?_ (rep.stored.add_changesOnly alive _)
    intro h' a
    rw [nodes_push]
    exact Queues.mem_push
  stored := by
    rw [listAdd_lists, nodes_push]
    exact rep.stored.push alive (.inr ⟨i, positive, below, rfl⟩) (rep.fresh roomy positive unlisted) (cells roomy)

theorem listAddTail :
    Rep c loose (r.listAddTail (c.slabAddr i) h) (Links.listAddTail m (node (c.slabAddr i)) (headAddr c.base h)) where
  us := rep.us
  control := rep.control
  same := by
    rw [listAddTail_lists, listAddTail_mem]
    refine rep.inserted (h := h) ?_ (rep.stored.addTail_changesOnly alive _)
    intro h' a
    rw [nodes_append]
    exact Queues.mem_append
  stored := by
    rw [listAddTail_lists, nodes_append]
    exact rep.stored.append alive (.inr ⟨i, positive, below, rfl⟩) (rep.fresh roomy positive unlisted) (cells roomy)

end Insert

/-! ## Looking at the lists -/

section Heads

variable (rep : Rep c loose r m) {h : Head} (alive : liveHead h)
include rep alive

theorem listEmpty : Linked.listEmpty m (headAddr c.base h) = true ↔ r.lists h = [] := by
  have next := Links.listAt_next (rep.stored.lists alive)
  rw [Linked.listEmpty, next, beq_iff_eq]
  cases list : r.lists h with
  | nil => simp [nodes, list]
  | cons s rest =>
    have listed : node s ∈ nodes r.lists h := mem_nodes.mpr (by rw [list]; exact List.mem_cons_self)
    have other := rep.stored.apart alive listed
    simp [nodes, list, other]

theorem listFirstEntry {s : Nat} (first : (r.lists h).head? = some s) :
    Linked.listFirstEntry m (headAddr c.base h) = s := by
  have next := Links.listAt_next (rep.stored.lists alive)
  obtain ⟨rest, list⟩ := List.head?_eq_some_iff.mp first
  rw [Linked.listFirstEntry, next]
  simp [nodes, list, node]

end Heads

end Rep

end Itaro.Usmm.Linked
