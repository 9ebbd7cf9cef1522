/-
# Usmm.SliceUndo -- usmm_slice_free undoes usmm_slice_alloc

A slice that is freed right after it was given leaves the region as it was, two
operations later (`usmmSliceFree_undoes_alloc`).  An allocation takes one of three
ways and the release takes it back: a slab cut for the request is empty again and
goes back to `free_slabs`; a slab whose last slice was taken goes back to the list
of its class; any other stays where it is.  It takes two slices to a slab, or a slab
that was cut for the request would be full and not come back.
-/
import Itaro.Usmm.Statistics

namespace Itaro.Usmm

set_option autoImplicit false

open Theory

variable {c : UsmmConf} {w w' : World} {b : Build}

/-! ## What is given back -/

/-- `n` operations on class `k`. -/
def Counters.addOps (t : Counters) (k : Nat) (n : BitVec 64) : Counters :=
  t.setStat k fun s => { s with ops := s.ops + n }

/-- `r'` is `r` two operations on class `k` later: the headers, the free lists of the
slabs, the members of each list and the counters. -/
structure Restored (c : UsmmConf) (r r' : Region) (k : Nat) : Prop where
  headers : ∀ i, 1 ≤ i → i < c.slabCount →
    slabAt r'.mem (c.slabAddr i) = slabAt r.mem (c.slabAddr i)
  chains : ∀ i, 1 ≤ i → i < c.slabCount → ∃ free,
    Chain r.mem (slabAt r.mem (c.slabAddr i)).freeSlice.toNat free ∧
      Chain r'.mem (slabAt r'.mem (c.slabAddr i)).freeSlice.toNat free
  lists : ∀ h, (r'.lists h).Perm (r.lists h)
  counted : counters c r'.mem = (counters c r.mem).addOps k 2

/-- Of the slabs and their lists, only slab `j` is touched.  The lists are sequences: the links that
list_add and list_del write in the headers of the neighbours of `j` are not in this memory, but in
that of `Usmm.Linked`. -/
structure OnlySlab (c : UsmmConf) (r r' : Region) (j : Nat) : Prop where
  frame : ChangesOnly (OpSpan c .stats (· = j)) r.mem r'.mem
  lists : ∀ i, i ≠ j → ∀ h, c.slabAddr i ∈ r'.lists h ↔ c.slabAddr i ∈ r.lists h

theorem OnlySlab.of_moves {r r' : Region} {j : Nat} {h : Head} (roomy : c.Roomy)
    (frame : ChangesOnly (OpSpan c .stats (· = j)) r.mem r'.mem)
    (moves : Queues.Moves r.lists r'.lists (c.slabAddr j) h) : OnlySlab c r r' j where
  frame := frame
  lists i ne h' := by
    have large := roomy.large
    have distinct : c.slabAddr i ≠ c.slabAddr j := fun same =>
      ne (c.slabAddr_injective (by omega) same)
    rw [moves.mem]
    constructor
    · rintro (⟨same, -⟩ | ⟨-, old⟩)
      · exact absurd same distinct
      · exact old
    · exact fun old => .inr ⟨distinct, old⟩

/-! ## The counters -/

/-- What ticked up and down again is as it was. -/
theorem Counters.Takes.undone {t t₁ t₂ : Counters} {k : Nat} {fresh full : Bool}
    (taken : t.Takes t₁ k fresh full) (released : t₂.Takes t₁ k fresh full)
    (ops : (t₂.stats k).ops = (t.stats k).ops + 2) : t₂ = t.addOps k 2 := by
  have free := (Ticks.symm released.free).unique (Ticks.symm taken.free)
  have fullSlabs := (Ticks.symm released.fullSlabs).unique (Ticks.symm taken.fullSlabs)
  have used := (Ticks.symm released.used).unique (Ticks.symm taken.used)
  have slabs := (Ticks.symm released.slabs).unique (Ticks.symm taken.slabs)
  have sliceFull := (Ticks.symm released.sliceFull).unique (Ticks.symm taken.sliceFull)
  refine Counters.ext free fullSlabs (funext fun k' => ?_)
  simp only [Counters.addOps, Counters.setStat, Function.update_apply]
  by_cases same : k' = k
  · subst same
    rw [if_pos rfl, ← ops, ← used, ← slabs, ← sliceFull]
  · rw [if_neg same, ← released.others k' same, taken.others k' same]

/-! ## The slabs -/

/-- The free list of a slab, which lies in the slab. -/
theorem TidyInv.exists_chain (before : TidyInv c w) (roomy : c.Roomy) {i : Nat} (positive : 1 ≤ i)
    (below : i < c.slabCount) :
    ∃ free, Chain w.mem (slabAt w.mem (c.slabAddr i)).freeSlice.toNat free ∧
      ∀ a ∈ free, c.slabAddr i ≤ a ∧ a + 8 ≤ c.slabAddr i + c.slabSize := by
  have cut : ∀ {k live}, Formatted c w.mem (c.slabAddr i) k live →
      ∃ free, Chain w.mem (slabAt w.mem (c.slabAddr i)).freeSlice.toNat free ∧
        ∀ a ∈ free, c.slabAddr i ≤ a ∧ a + 8 ≤ c.slabAddr i + c.slabSize := by
    intro k live formatted
    obtain ⟨free, chain, perm⟩ := formatted.2.chain
    refine ⟨free, chain, fun a member => ?_⟩
    have bounds := slice_bounds roomy formatted.1
      (perm.mem_iff.mp (List.mem_append_left live member))
    have wide := (sliceSize_bounds k formatted.1).1
    omega
  rcases before.inv.cover i positive below with ⟨h, listed⟩ | ⟨x, block, -⟩
  · have ok := before.inv.ok listed
    cases h with
    | free =>
        refine ⟨[], ?_, fun a member => absurd member List.not_mem_nil⟩
        rw [ok.1]
        rfl
    | cls k => exact cut ok
    | full =>
        obtain ⟨k, formatted⟩ := ok
        exact cut formatted
  · rw [before.idle] at block
    cases block

section Undo

variable {size : BitVec 64} {r₁ r₂ : Region} {k j p : Nat} {fresh : Bool} {m₂ : Mem} {h : Head}
  (gave : Gave c w.region r₁ k j fresh (livePtrs c w.slices (c.slabAddr j)) p) (given : p ≠ 0)
include gave given

/-- The header after the client wrote in the slice. -/
theorem Gave.header_kept (roomy : c.Roomy) (span : ChangesOnly (Span p (sliceSize k)) r₁.mem m₂) :
    slabAt m₂ (c.slabAddr j) = slabAt r₁.mem (c.slabAddr j) := by
  have bounds := slice_bounds roomy gave.formatted.1 (gave.slice roomy given).1
  refine slabAt_of_changesOnly span fun x lower upper inside => ?_
  simp only [slabHeaderSize] at bounds
  simp only [Span] at inside
  omega

/-- The release takes the way back. -/
theorem TidyInv.way_back (before : TidyInv c w) (aligned : Aligned c)
    (span : ChangesOnly (Span p (sliceSize k)) r₁.mem m₂)
    (freed : Freed c { r₁ with mem := m₂ } r₂ k j h (p :: livePtrs c w.slices (c.slabAddr j)) p) :
    Queues.Moves r₁.lists r₂.lists (c.slabAddr j) (sourceHead fresh k) ∧
      (counters c r₂.mem).Takes (counters c r₁.mem) k fresh
        (slabAt r₁.mem (c.slabAddr j)).isfull ∧
      ((counters c r₂.mem).stats k).ops = ((counters c r₁.mem).stats k).ops + 1 ∧
      (fresh = true → slabAt r₂.mem (c.slabAddr j) = .unformatted) ∧
      (fresh = false → (slabAt r₁.mem (c.slabAddr j)).isfull = true ∨
        livePtrs c w.slices (c.slabAddr j) ≠ []) := by
  have roomy := aligned.toRoomy
  have start := c.slabAddr_ge gave.positive
  have bounds := slice_bounds roomy gave.formatted.1 (gave.slice roomy given).1
  have header := gave.header_kept given roomy span
  have counted : counters c m₂ = counters c r₁.mem :=
    counters_of_above roomy span fun x inside => by
      simp only [Span] at inside
      omega
  have isfull := gave.isfull_iff given
  have two := two_le_classTotal aligned gave.formatted.1 (gave.total_pos given)
  have source := before.inv.ok gave.listed
  have alone : fresh = true → livePtrs c w.slices (c.slabAddr j) = [] := by
    rintro rfl
    exact source.2
  have shared : fresh = false → livePtrs c w.slices (c.slabAddr j) ≠ [] := by
    rintro rfl
    exact List.ne_nil_of_length_pos (before.tidy.cls gave.listed (gave.total_pos given)).1
  have outcome := freed.outcome
  rw [List.erase_cons_head] at outcome
  cases outcome with
  | reopened full moves formatted count =>
      rw [show slabAt ({ r₁ with mem := m₂ } : Region).mem _ = _ from header] at full
      have whole := isfull.mp full
      cases fresh with
      | true =>
          rw [alone rfl, List.length_nil] at whole
          omega
      | false =>
          rw [full, count, show counters c ({ r₁ with mem := m₂ } : Region).mem = _ from counted]
          refine ⟨moves, Counters.takes_reopened _ k, ?_, fun same => absurd same Bool.false_ne_true,
            fun _ => .inl rfl⟩
          rw [Counters.addFull_stats, Counters.addSliceFull_own, Counters.addUsed_own]
  | emptied notFull none moves blank count =>
      rw [show slabAt ({ r₁ with mem := m₂ } : Region).mem _ = _ from header] at notFull
      cases fresh with
      | true =>
          rw [notFull, count, show counters c ({ r₁ with mem := m₂ } : Region).mem = _ from counted]
          refine ⟨moves, Counters.takes_emptied _ k, ?_, fun _ => blank,
            fun same => absurd same.symm Bool.false_ne_true⟩
          rw [Counters.addFree_stats, Counters.addSlabs_own, Counters.addUsed_own]
      | false => exact absurd none (shared rfl)
  | kept notFull left moves formatted count =>
      rw [show slabAt ({ r₁ with mem := m₂ } : Region).mem _ = _ from header] at notFull
      cases fresh with
      | true => exact absurd (alone rfl) left
      | false =>
          -- the slab is on the list the allocation left it on
          have there := gave.moves.listed
          rw [usedHead, notFull, if_neg Bool.false_ne_true] at there
          obtain rfl := gave.moves.placed.one freed.listed there
          rw [notFull, count, show counters c ({ r₁ with mem := m₂ } : Region).mem = _ from counted]
          refine ⟨moves, Counters.takes_kept _ k, ?_, fun same => absurd same Bool.false_ne_true,
            fun _ => .inr left⟩
          rw [Counters.addUsed_own]

/-- The slab after the client wrote in the slice. -/
theorem Gave.formatted_kept (roomy : c.Roomy) (span : ChangesOnly (Span p (sliceSize k)) r₁.mem m₂) :
    Formatted c m₂ (c.slabAddr j) k (p :: livePtrs c w.slices (c.slabAddr j)) := by
  have formatted := gave.formatted
  rw [grant, if_neg given] at formatted
  exact ⟨formatted.1, formatted.2.of_client List.mem_cons_self span
    (sliceRoom roomy gave.below formatted.1)⟩

/-- A slab that was not cut for the request has its header and its free list back. -/
theorem TidyInv.slab_undone (before : TidyInv c w) (aligned : Aligned c) (old : fresh = false)
    (found : usmmSlabFind (size.setWidth 32) = some (k, sliceSize k))
    (result : usmmSliceAlloc w.region size = (r₁, p))
    (span : ChangesOnly (Span p (sliceSize k)) r₁.mem m₂)
    (inv₂ : Inv c ⟨{ r₁ with mem := m₂ }, w.blocks, hold w.slices p size⟩)
    (left : (slabAt r₁.mem (c.slabAddr j)).isfull = true ∨
      livePtrs c w.slices (c.slabAddr j) ≠ [])
    (released : usmmSliceFree b { r₁ with mem := m₂ } p = .ok r₂) :
    slabAt r₂.mem (c.slabAddr j) = slabAt w.mem (c.slabAddr j) ∧ ∃ free,
      Chain w.mem (slabAt w.mem (c.slabAddr j)).freeSlice.toNat free ∧
        Chain r₂.mem (slabAt r₂.mem (c.slabAddr j)).freeSlice.toNat free := by
  subst old
  have roomy := aligned.toRoomy
  have bound := gave.formatted.1
  have room := sliceRoom roomy gave.below bound
  have inSlab : ∀ {q}, q ∈ sliceGrid (c.slabAddr j) (sliceSize k) (classTotal c k) →
      c.slabAddr j + slabHeaderSize ≤ q ∧ q + 8 ≤ c.slabAddr j + c.slabSize := by
    intro q member
    have bounds := slice_bounds roomy bound member
    have wide := (sliceSize_bounds k bound).1
    omega
  have start := c.slabAddr_ge gave.positive
  have member := (gave.slice roomy given).1
  have here := inSlab member
  have formatted : Formatted c w.mem (c.slabAddr j) k _ := before.inv.ok gave.listed
  have formatted₂ := gave.formatted_kept given roomy span
  have live₂ : livePtrs c (hold w.slices p size) (c.slabAddr j) =
      p :: livePtrs c w.slices (c.slabAddr j) := by
    rw [gave.livePtrs_hold roomy, grant, if_neg given]
  -- what the two calls do to the slab, and what they do besides
  obtain ⟨⟨m₁, p₁⟩, taking⟩ : ∃ t, usmmSlabAlloc w.mem (c.slabAddr j) = t := ⟨_, rfl⟩
  have call : sliceTake w.region (statAddr c.base k) (c.slabAddr j) = (r₁, p) := by
    obtain ⟨rest, ready⟩ := List.head?_eq_some_iff.mp gave.head
    rw [sourceHead, if_neg Bool.false_ne_true] at ready
    rw [← result, usmmSliceAlloc]
    simp only [found, before.inv.stat, ready]
  obtain ⟨stats₁, rfl⟩ := @sliceTake_changesOnly c roomy w.region r₁ k (c.slabAddr j) p p₁ m₁
    (fun _ => False) before.inv.us bound taking call
  obtain ⟨m₃, freed, sliced₃, -⟩ := usmmSlabFree_spec b formatted₂.2 room List.mem_cons_self
  rw [List.erase_cons_head] at sliced₃
  rw [usmmSliceFree_eq roomy inv₂ b gave.positive gave.below (live₂ ▸ formatted₂)
    (live₂ ▸ List.mem_cons_self) (aligned.ownerFound p) freed] at released
  have used : ChangesOnly (OpSpan c .stats fun _ => False) m₃
      (addStatUsed (({ r₁ with mem := m₂ } : Region).update fun _ => m₃)
        (statAddr c.base k) (-1)).mem :=
    addStatUsed_changesOnly roomy (({ r₁ with mem := m₂ } : Region).update fun _ => m₃) bound (-1)
  have after := Formatted.of_opSpan roomy used gave.positive gave.below id
    (show Formatted c m₃ (c.slabAddr j) k _ from ⟨bound, sliced₃⟩)
  have stats₃ := used.trans (sliceRelease_changesOnly roomy
    (by rw [addStatUsed_us, update_us]; exact gave.us) bound
    (left.imp (fun full => by rw [gave.header_kept given roomy span, full])
      fun some => Bool.eq_false_iff.mpr fun empty => some (after.isempty_iff.mp empty)) released)
  have stats : ∀ {x}, Span (c.slabAddr j) c.slabSize x → ¬ OpSpan c .stats (fun _ => False) x :=
    fun span => not_opSpan roomy gave.positive id span
  simp only [slabHeaderSize] at here
  -- neither the statistics nor the client reach the header and the other slices
  obtain ⟨F, between⟩ : ∃ F, F = fun x => OpSpan c .stats (fun _ => False) x ∨ Span p (sliceSize k) x :=
    ⟨_, rfl⟩
  have changes : ChangesOnly F m₁ m₂ := by
    rw [between]
    exact (stats₁.mono fun x => .inl).trans (span.mono fun x => .inr)
  have misses : ∀ x, c.slabAddr j + 24 ≤ x → x < c.slabAddr j + 56 → ¬ F x := by
    rw [between]
    rintro x lower upper (stat | slice)
    · exact stats (by simp only [Span]; omega) stat
    · simp only [Span] at slice
      omega
  have others : ∀ q ∈ sliceGrid (c.slabAddr j) (sliceSize k) (classTotal c k), q ≠ p →
      ∀ x, q ≤ x → x < q + 8 → ¬ F x := by
    rw [between]
    rintro q other ne x lower upper (stat | slice)
    · have bounds := inSlab other
      exact stats (by simp only [Span]; omega) stat
    · have pointer := room.pointer
      simp only [Span] at slice
      rcases grid_apart other member ne with before | after <;> omega
  obtain ⟨header, free, chain, chain₃, inGrid⟩ :=
    usmmSlabFree_undoes b formatted.2 room given taking changes misses others freed
  have same : slabAt r₂.mem (c.slabAddr j) = slabAt w.mem (c.slabAddr j) :=
    (slabAt_of_opSpan roomy stats₃ gave.positive id).trans header
  refine ⟨same, free, chain, ?_⟩
  rw [same]
  refine chain₃.of_changesOnly stats₃ fun a inside x lower upper => stats ?_
  have bounds := inSlab (inGrid a inside)
  simp only [Span]
  omega

end Undo

/-! ## Both calls -/

/-- A slice at `p` is given by the call that ends in `r₁` and freed by the one from
`r₁` with the memory `m₂` to `r₂`: both work on the slab of the slice alone, and the
second undoes the first. -/
structure Undone (c : UsmmConf) (r r₁ : Region) (m₂ : Mem) (r₂ : Region) (p k j : Nat) : Prop where
  positive : 1 ≤ j
  below : j < c.slabCount
  inside : InSlab c (c.slabAddr j) p
  alloc : OnlySlab c r r₁ j
  free : OnlySlab c { r₁ with mem := m₂ } r₂ j
  restored : Restored c r r₂ k

theorem TidyInv.undone (before : TidyInv c w) (aligned : Aligned c) {size : BitVec 64} {r₁ : Region}
    {p : Nat} (result : usmmSliceAlloc w.region size = (r₁, p)) (given : p ≠ 0) {m₂ : Mem}
    (written : ChangesOnly (SliceBytes ⟨p, size⟩) r₁.mem m₂) :
    ∃ k j r₂, usmmSlabFind (size.setWidth 32) = some (k, sliceSize k) ∧
      usmmSliceFree b { r₁ with mem := m₂ } p = .ok r₂ ∧ Undone c w.region r₁ m₂ r₂ p k j := by
  have roomy := aligned.toRoomy
  rcases usmmSliceAlloc_cases roomy before.inv result with
    ⟨-, null, -⟩ | ⟨k, j, fresh, bound, found, gave⟩
  · exact absurd null given
  obtain ⟨member, -, inside⟩ := gave.slice roomy given
  have span : ChangesOnly (Span p (sliceSize k)) r₁.mem m₂ := by
    refine written.mono fun x ⟨k', slice, found', lower, upper⟩ => ?_
    cases found.symm.trans found'
    exact ⟨lower, upper⟩
  have held : (⟨p, size⟩ : Piece) ∈ hold w.slices p size := by
    rw [hold, if_neg given]
    exact List.mem_cons_self
  have inv₂ : Inv c ⟨{ r₁ with mem := m₂ }, w.blocks, hold w.slices p size⟩ :=
    (gave.inv roomy before.inv found).client roomy held found span
  obtain ⟨r₂, k', j', h, released, found', freed⟩ :=
    usmmSliceFree_spec roomy inv₂ b held (aligned.ownerFound p)
  obtain rfl : j' = j := freed.inside.unique inside
  obtain rfl : k' = k := by
    cases found.symm.trans found'
    rfl
  rw [show livePtrs c (hold w.slices p size) (c.slabAddr j') = _ from gave.livePtrs_hold roomy,
    grant, if_neg given] at freed
  obtain ⟨moves, takes, ops, blank, left⟩ := before.way_back gave given aligned span freed
  have bounds := slice_bounds roomy bound member
  have client : ChangesOnly (OpSpan c .stats (· = j')) r₁.mem m₂ :=
    span.mono fun x slice => slab_opSpan gave.positive (by omega) (by omega) slice
  have frame := (gave.frame.trans client).trans freed.frame
  -- the slab of the slice
  have here : slabAt r₂.mem (c.slabAddr j') = slabAt w.mem (c.slabAddr j') ∧ ∃ free,
      Chain w.mem (slabAt w.mem (c.slabAddr j')).freeSlice.toNat free ∧
        Chain r₂.mem (slabAt r₂.mem (c.slabAddr j')).freeSlice.toNat free := by
    cases fresh with
    | false => exact before.slab_undone gave given aligned rfl found result span inv₂ (left rfl) released
    | true =>
        have start := (before.inv.ok gave.listed).1
        rw [blank rfl, start]
        exact ⟨rfl, [], rfl, rfl⟩
  have listed := gave.listed
  refine ⟨k', j', r₂, found, released, gave.positive, gave.below, inside,
    .of_moves roomy gave.frame gave.moves, .of_moves roomy freed.frame moves,
    fun i positive below => ?_, fun i positive below => ?_,
    (gave.moves.trans moves).perm before.inv.placed listed, ?_⟩
  · by_cases same : i = j'
    · rw [same]
      exact here.1
    · exact slabAt_of_opSpan roomy frame positive same
  · by_cases same : i = j'
    · rw [same]
      exact here.2
    · obtain ⟨free, chain, within⟩ := before.exists_chain roomy positive below
      rw [slabAt_of_opSpan roomy frame positive same]
      refine ⟨free, chain, chain.of_changesOnly frame fun a node x lower upper => ?_⟩
      have bounds := within a node
      exact not_opSpan roomy positive same (by simp only [Span]; omega)
  · have taken := Counters.takes (counters c w.mem) k' fresh (slabAt r₁.mem (c.slabAddr j')).isfull
    rw [← show counters c r₁.mem = _ from gave.counted] at taken
    refine taken.undone takes ?_
    rw [ops, gave.counted, Counters.take_own, Counters.cut_own, BitVec.add_assoc]
    rfl

/-- **Free undoes alloc**, after every run of slice calls and writes inside slices. -/
theorem usmmSliceFree_undoes_alloc (aligned : Aligned c) (starts : Starts c w) {as : List Act}
    (run : Run (SliceUseStep b) w as w') {size : BitVec 64} {r₁ : Region} {p : Nat}
    (result : usmmSliceAlloc w'.region size = (r₁, p)) (given : p ≠ 0) {m₂ : Mem}
    (written : ChangesOnly (SliceBytes ⟨p, size⟩) r₁.mem m₂) :
    ∃ k j r₂, usmmSlabFind (size.setWidth 32) = some (k, sliceSize k) ∧
      usmmSliceFree b { r₁ with mem := m₂ } p = .ok r₂ ∧ Undone c w'.region r₁ m₂ r₂ p k j :=
  (sliceUseRun_inv aligned starts run).undone aligned result given written

/-- The first request of 8 bytes is given a slice. -/
theorem Starts.gives (starts : Starts testConf w) :
    ∃ r₁ p, usmmSliceAlloc w.region 8 = (r₁, p) ∧ p ≠ 0 := by
  obtain ⟨inv, tidy, -⟩ := starts.tidyInv testConf_roomy
  obtain ⟨⟨r₁, p⟩, result⟩ : ∃ t, usmmSliceAlloc w.region 8 = t := ⟨_, rfl⟩
  have found : usmmSlabFind ((8 : BitVec 64).setWidth 32) = some (0, 8) := by decide
  rcases usmmSliceAlloc_cases testConf_roomy inv result with
    ⟨-, -, refused⟩ | ⟨k, j, fresh, bound, -, gave⟩
  · obtain ⟨-, opened⟩ := starts.fresh testConf_roomy
    have free : testConf.slabAddr 1 ∈ w.lists .free := by
      rw [opened]
      exact mem_initLists.mpr ⟨rfl, 1, le_rfl, by decide, rfl⟩
    rw [(refused 0 8 found).2] at free
    exact absurd free List.not_mem_nil
  · have all : ∀ k < usmmSlabArrayMax, 0 < (classTotal testConf k).toInt := by decide
    exact ⟨r₁, p, result, gave.given_of_pos inv tidy (all k bound)⟩

/-- The client writes a byte in between. -/
theorem usmmSliceFree_undoes_alloc_testConf : ∃ w r₁ p, Starts testConf w ∧
    usmmSliceAlloc w.region 8 = (r₁, p) ∧
    ∃ k j r₂, usmmSlabFind ((8 : BitVec 64).setWidth 32) = some (k, sliceSize k) ∧
      usmmSliceFree .debug { r₁ with mem := setU8 r₁.mem p 7 } p = .ok r₂ ∧
      Undone testConf w.region r₁ (setU8 r₁.mem p 7) r₂ p k j := by
  obtain ⟨w, starts⟩ := exists_starts testConf_roomy
  obtain ⟨r₁, p, result, given⟩ := starts.gives
  have found : usmmSlabFind ((8 : BitVec 64).setWidth 32) = some (0, 8) := by decide
  refine ⟨w, r₁, p, starts, result, ?_⟩
  exact usmmSliceFree_undoes_alloc testConf_aligned starts (.nil w) result given
    ((setU8_changesOnly r₁.mem p 7).mono fun x span =>
      ⟨0, 8, found, span.1, by simp only [Span] at span ⊢; omega⟩)

end Itaro.Usmm
