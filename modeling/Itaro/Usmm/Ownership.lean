/-
# Usmm.Ownership -- who owns a slab

A slab other than the first is owned by the list it is on or by the heap block
it belongs to.  The heap allocator does not look at the lists when it searches:
it goes by the bitmap, in which the slabs of the slice allocator are not marked.
So ownership is exclusive in the runs in which every heap request happens to pick
slabs that are free (`one_owner`), and a request after a slice allocation takes
the slab of the live slice (`heap_takes_slice_slab`).
-/
import Itaro.Usmm.Steps

namespace Itaro.Usmm

set_option autoImplicit false

open Theory

variable {c : UsmmConf} {w w' : World} {b : Build}

/-- A list, or the heap block at an index of the client's blocks. -/
inductive Owner
  | list (h : Head)
  | block (n : Nat)

def IsOwner (c : UsmmConf) (w : World) (i : Nat) : Owner → Prop
  | .list h => c.slabAddr i ∈ w.lists h
  | .block n => ∃ x, w.blocks[n]? = some x ∧ Owns c x i

structure OneOwner (c : UsmmConf) (w : World) : Prop where
  owner : ∀ i, 1 ≤ i → i < c.slabCount → ∃! o, IsOwner c w i o
  once : ∀ h, (w.lists h).Nodup
  kind : ∀ {h s}, s ∈ w.lists h → SlabOk c w.mem s (livePtrs c w.slices s) h
  inside : ∀ x ∈ w.blocks, ∀ i, Owns c x i → 1 ≤ i ∧ i < c.slabCount
  apart : w.blocks.Pairwise fun x y => ∀ i, Owns c x i → ¬ Owns c y i
  slices : ∀ x ∈ w.blocks, ∀ i, Owns c x i → livePtrs c w.slices (c.slabAddr i) = []

/-- Blocks that share a slab are at the same index. -/
theorem Inv.index_unique (inv : Inv c w) {n n' : Nat} {x y : Piece} (first : w.blocks[n]? = some x)
    (second : w.blocks[n']? = some y) {i : Nat} (xOwns : Owns c x i) (yOwns : Owns c y i) :
    n = n' := by
  obtain ⟨bound, rfl⟩ := List.getElem?_eq_some_iff.mp first
  obtain ⟨bound', rfl⟩ := List.getElem?_eq_some_iff.mp second
  have apart := List.pairwise_iff_getElem.mp inv.apart
  rcases Nat.lt_trichotomy n n' with below | same | above
  · exact absurd yOwns (apart n n' bound bound' below i xOwns)
  · exact same
  · exact absurd xOwns (apart n' n bound' bound above i yOwns)

theorem Inv.owner_eq (inv : Inv c w) {i : Nat} {o o' : Owner} (first : IsOwner c w i o)
    (second : IsOwner c w i o') : o = o' := by
  cases o with
  | list h =>
      cases o' with
      | list h' => exact congrArg Owner.list (inv.placed.one first second)
      | block n =>
          obtain ⟨x, there, owns⟩ := second
          exact absurd first ((inv.blocks x (List.mem_of_getElem? there)).unlisted i owns h)
  | block n =>
      obtain ⟨x, there, owns⟩ := first
      cases o' with
      | list h' =>
          exact absurd second ((inv.blocks x (List.mem_of_getElem? there)).unlisted i owns h')
      | block n' =>
          obtain ⟨y, there', owns'⟩ := second
          exact congrArg Owner.block (inv.index_unique there there' owns owns')

theorem Inv.oneOwner (inv : Inv c w) : OneOwner c w where
  owner i positive below := by
    rcases inv.cover i positive below with ⟨h, listed⟩ | ⟨x, block, owns⟩
    · exact ⟨.list h, listed, fun o other => inv.owner_eq other listed⟩
    · obtain ⟨n, there⟩ := List.mem_iff_getElem?.mp block
      exact ⟨.block n, ⟨x, there, owns⟩, fun o other => inv.owner_eq other ⟨x, there, owns⟩⟩
  once := inv.placed.nodup
  kind := inv.ok
  inside x block i owns := by
    have ok := inv.blocks x block
    have first := ok.first
    have last := ok.last
    have lower := owns.1
    have upper := owns.2
    omega
  apart := inv.apart
  slices x block i owns := by
    refine List.eq_nil_iff_forall_not_mem.mpr fun p live => ?_
    obtain ⟨inside, y, slice, rfl⟩ := mem_livePtrs.mp live
    exact inv.block_no_slice block slice owns inside

/-- **One owner.**  It holds after every run in which each step heeds the defects. -/
theorem one_owner (aligned : Aligned c) (starts : Starts c w) {as : List Act}
    (run : Run (fun w a w' => Step b w a w' ∧ Heeds c w a) w as w') : OneOwner c w' :=
  (run_inv aligned.toRoomy starts
    (run.mono fun _ a _ ⟨step, heeds⟩ => ⟨step, heeds, aligned.finds a⟩)).oneOwner

/-! ## Runs in the configuration of the tests -/

theorem testConf_aligned : Aligned testConf where
  toRoomy := testConf_roomy
  power := ⟨21, by decide⟩
  aligned := by decide

theorem exists_starts (roomy : c.Roomy) : ∃ w, Starts c w :=
  ⟨_, _, _, blank_new c.base, usmmInit_first roomy (blank_new c.base), rfl⟩

/-- With no block out, two slabs are found right behind the first. -/
theorem Inv.picks_one (inv : Inv c w) (idle : w.blocks = []) (eight : 8 ≤ c.slabCount) :
    Picks w.mem (c.base + usmmSlabBitmapOffset) 2 c.slabCount 1 := by
  have bits : ∀ k < 3, bitmapTest w.mem (c.base + usmmSlabBitmapOffset) k = true ↔ k = 0 := by
    intro k below
    rw [inv.bits k (by simp only [usmmSlabBitmapSize]; omega), idle]
    constructor
    · rintro (zero | beyond | ⟨x, member, -⟩)
      · exact zero
      · omega
      · exact absurd member List.not_mem_nil
    · exact .inl
  constructor
  · rw [Passes, if_pos (by decide), Int.tdiv_eq_ediv_of_nonneg (by omega)]
    refine ⟨by omega, by decide, fun k lower upper => ?_⟩
    exact Bool.eq_false_iff.mpr fun marked => by have := (bits k (by omega)).mp marked; omega
  · intro t below passes
    obtain rfl : t = 0 := by omega
    rw [Passes, if_pos (by decide)] at passes
    have clear := passes.2.2 0 le_rfl (by decide)
    rw [(bits 0 (by decide)).mpr rfl] at clear
    cases clear

/-- A request that comes to two slabs is given the slabs 1 and 2, whatever list
they are on. -/
theorem Inv.usmmHeapAlloc_two (inv : Inv testConf w) (idle : w.blocks = []) (b : Build)
    {size : BitVec 64} (num : heapNum size testConf.slab = (2 : Nat)) :
    heapAnswer testConf w.mem size = (1 : Nat) ∧
      ∃ r, usmmHeapAlloc b w.region size = .ok (r, testConf.slabAddr 1 + 4) := by
  have picks := inv.picks_one idle (by decide)
  obtain ⟨r, p, result, took⟩ :=
    inv.takes_window testConf_roomy b num le_rfl picks le_rfl (by decide)
  obtain rfl := took.ptr
  exact ⟨(heapAnswer_eq_iff num (by decide)).mpr picks, r, result⟩

/-- A request of one slab and a byte. -/
def twoSlabs : BitVec 64 := 2 * 1024 * 1024 + 1

theorem Inv.perform_twoSlabs (inv : Inv testConf w) (idle : w.blocks = []) (b : Build) :
    ∃ r, perform b w (.heapAlloc twoSlabs) =
      .ok { region := r, blocks := [⟨testConf.slabAddr 1 + 4, twoSlabs⟩], slices := w.slices } := by
  obtain ⟨-, r, call⟩ := @Inv.usmmHeapAlloc_two w inv idle b twoSlabs (by decide)
  refine ⟨r, ?_⟩
  rw [perform, call, idle]
  rfl

/-- At the start that window is free. -/
theorem Starts.heeds_twoSlabs (starts : Starts testConf w) :
    Heeds testConf w (.heapAlloc twoSlabs) := by
  have inv := starts_inv testConf_roomy starts
  obtain ⟨-, opened⟩ := starts.fresh testConf_roomy
  have num : (heapNum twoSlabs testConf.slab).toNat = 2 := by decide
  show HeapHeeds testConf w twoSlabs
  rw [HeapHeeds, if_pos (by decide), num]
  intro s picks i lower upper
  obtain rfl := picks.unique (inv.picks_one starts.blocks (by decide))
  have count : testConf.slabCount = 1024 := by decide
  refine ⟨?_, by simp only [usmmSlabBitmapSize]; omega⟩
  rw [opened]
  exact mem_initLists.mpr ⟨rfl, i, lower, by omega, rfl⟩

/-- A slab without live slices has one of 8 bytes to give. -/
theorem Gave.given {r r' : Region} {j p s : Nat} {fresh : Bool}
    (gave : Gave testConf r r' 0 j fresh (livePtrs testConf [] s) p) : p ≠ 0 := fun null =>
  absurd (show 0 = (classTotal testConf 0).toInt.toNat from gave.null null) (by decide)

/-- Without slices out, 8 bytes are given as long as a slab is free. -/
theorem Inv.perform_eight (inv : Inv testConf w) (none : w.slices = []) (some : w.lists .free ≠ [])
    (b : Build) : ∃ r p, p ≠ 0 ∧
      perform b w (.sliceAlloc 8) = .ok { region := r, blocks := w.blocks, slices := [⟨p, 8⟩] } := by
  obtain ⟨⟨r, p⟩, result⟩ : ∃ t, usmmSliceAlloc w.region 8 = t := ⟨_, rfl⟩
  have found : usmmSlabFind ((8 : BitVec 64).setWidth 32) = .some (0, 8) := by decide
  rcases usmmSliceAlloc_cases testConf_roomy inv result with
    ⟨-, -, refused⟩ | ⟨k, j, fresh, bound, class', gave⟩
  · exact absurd (refused 0 8 found).2 some
  · obtain rfl : k = 0 := by rw [class', Option.some.injEq, Prod.mk.injEq] at found; exact found.1
    rw [none] at gave
    refine ⟨r, p, gave.given, ?_⟩
    rw [perform, result, none]
    exact congrArg (fun held => Except.ok (World.mk r w.blocks held)) (if_neg gave.given)

theorem Inv.exists_sliceFree (inv : Inv c w) (aligned : Aligned c) {x : Piece} (held : x ∈ w.slices) :
    ∃ w', HeedingStep c b w (.sliceFree x.ptr) w' ∧ w'.blocks = w.blocks := by
  obtain ⟨r, _, _, _, result, -⟩ :=
    usmmSliceFree_spec aligned.toRoomy inv b held (aligned.ownerFound x.ptr)
  refine ⟨⟨r, w.blocks, drop w.slices x.ptr⟩,
    ⟨⟨.inr ⟨x, held, rfl⟩, ?_⟩, trivial, aligned.finds _⟩, rfl⟩
  rw [perform, result]
  rfl

/-- The first byte of a slice may be written. -/
theorem Inv.heeding_write (inv : Inv c w) {x : Piece} (held : x ∈ w.slices) (some : 0 < x.size.toNat)
    (byte : BitVec 8) : HeedingStep c b w (.write x.ptr byte)
      { w with region := w.region.update fun m => setU8 m x.ptr byte } := by
  obtain ⟨_, _, k, _, _, _, _, _, _, formatted, found⟩ := inv.home held
  have wide := (sliceSize_bounds k formatted.1).1
  exact ⟨⟨⟨x, List.mem_append_right _ held, le_rfl, by omega⟩, rfl⟩,
    .inr ⟨x, held, k, _, found, le_rfl, by omega⟩, trivial⟩

/-- Two slabs and a slice are taken, written to and given back. -/
def roundTrip (p : Nat) : List Act :=
  [.heapAlloc twoSlabs, .sliceAlloc 8, .write (testConf.slabAddr 1 + 4) 7, .write p 7, .sliceFree p,
    .heapFree (testConf.slabAddr 1 + 4)]

theorem exists_run_roundTrip (b : Build) : ∃ w w' p, Starts testConf w ∧
    Run (HeedingStep testConf b) w (roundTrip p) w' := by
  obtain ⟨w, starts⟩ := exists_starts testConf_roomy
  have inv := starts_inv testConf_roomy starts
  have picks := inv.picks_one starts.blocks (by decide)
  have num : heapNum twoSlabs testConf.slab = (2 : Nat) := by decide
  obtain ⟨r₁, p₁, result₁, took⟩ :=
    inv.takes_window testConf_roomy b num le_rfl picks le_rfl (by decide)
  obtain rfl := took.ptr
  -- slab 3 stays free
  obtain ⟨-, opened⟩ := starts.fresh testConf_roomy
  have free : testConf.slabAddr 3 ∈ r₁.lists .free := by
    refine took.moved.mpr ⟨?_, fun i window same => ?_⟩
    · rw [show w.region.lists = w.lists from rfl, opened]
      exact mem_initLists.mpr ⟨rfl, 3, by decide, by decide, rfl⟩
    · obtain rfl := testConf.slabAddr_injective (by decide) same
      exact absurd window.2 (by decide)
  obtain ⟨x, made⟩ : ∃ x : Piece, x = ⟨testConf.slabAddr 1 + 4, twoSlabs⟩ := ⟨_, rfl⟩
  have performed : perform b w (.heapAlloc twoSlabs) = .ok ⟨r₁, [x], []⟩ := by
    rw [perform, result₁, starts.blocks, starts.slices, made]
    rfl
  have run₁ : Run (HeedingStep testConf b) w [.heapAlloc twoSlabs] ⟨r₁, [x], []⟩ :=
    .single ⟨⟨trivial, performed⟩, starts.heeds_twoSlabs, trivial⟩
  obtain ⟨r₂, p, -, given⟩ := (run_inv testConf_roomy starts run₁).perform_eight rfl
    (List.ne_nil_of_mem free) b
  have run₂ : Run (HeedingStep testConf b) w [.heapAlloc twoSlabs, .sliceAlloc 8]
      ⟨r₂, [x], [⟨p, 8⟩]⟩ := run₁.snoc ⟨⟨trivial, given⟩, trivial, trivial⟩
  -- a byte of the block and one of the slice
  have block : HeedingStep testConf b ⟨r₂, [x], [⟨p, 8⟩]⟩ (.write (testConf.slabAddr 1 + 4) 7)
      ⟨r₂.update fun m => setU8 m (testConf.slabAddr 1 + 4) 7, [x], [⟨p, 8⟩]⟩ := by
    refine ⟨⟨⟨x, List.mem_cons_self, ?_⟩, rfl⟩, .inl ⟨x, List.mem_cons_self, ?_⟩, trivial⟩
    · subst made
      decide
    · subst made
      exact ⟨le_rfl, by decide⟩
  have run₃ := run₂.snoc block
  have run₄ := run₃.snoc ((run_inv testConf_roomy starts run₃).heeding_write List.mem_cons_self
    (show 0 < (8#64).toNat by decide) 7)
  obtain ⟨w₅, free, blocks⟩ :=
    (run_inv testConf_roomy starts run₄).exists_sliceFree testConf_aligned List.mem_cons_self
  have returned : HeedingStep testConf b w₅ (.heapFree (testConf.slabAddr 1 + 4)) _ :=
    ⟨⟨⟨x, by rw [blocks]; exact List.mem_cons_self, congrArg Piece.ptr made⟩, rfl⟩, trivial, trivial⟩
  exact ⟨w, _, p, starts, (run₄.snoc free).snoc returned⟩

theorem one_owner_testConf : ∃ w w' p, Starts testConf w ∧
    Run (fun w a w' => Step .debug w a w' ∧ Heeds testConf w a) w (roundTrip p) w' ∧
    OneOwner testConf w' := by
  obtain ⟨w, w', p, starts, heeding⟩ := exists_run_roundTrip .debug
  have run := heeding.mono fun _ _ _ step => And.intro step.1 step.2.1
  exact ⟨w, w', p, starts, run, one_owner testConf_aligned starts run⟩

/-- A slice first, then two slabs: the block is given the slab of the slice. -/
theorem heap_takes_slice_slab : ¬ ∀ (c : UsmmConf) (w w' : World) (as : List Act), Aligned c →
    c.slabCount ≤ usmmSlabBitmapSize → Starts c w → Run (Step .debug) w as w' → OneOwner c w' := by
  intro owned
  obtain ⟨w, starts⟩ := exists_starts testConf_roomy
  have inv := starts_inv testConf_roomy starts
  obtain ⟨-, opened⟩ := starts.fresh testConf_roomy
  have idle := starts.blocks
  obtain ⟨⟨r, p⟩, result⟩ : ∃ t, usmmSliceAlloc w.region 8 = t := ⟨_, rfl⟩
  have free : w.lists .free = testConf.slabAddr 1 ::
      (List.range' 2 1022).map testConf.slabAddr := by
    rw [opened]
    rfl
  have found : usmmSlabFind ((8 : BitVec 64).setWidth 32) = some (0, 8) := by decide
  rcases usmmSliceAlloc_cases testConf_roomy inv result with
    ⟨-, -, refused⟩ | ⟨k, j, fresh, bound, class', gave⟩
  · rw [(refused 0 8 found).2] at free
    cases free
  · -- the slice comes from slab 1
    obtain rfl : k = 0 := by rw [class', Option.some.injEq, Prod.mk.injEq] at found; exact found.1
    have none := starts.slices
    have head := gave.head
    cases fresh with
    | false =>
        have empty : w.region.lists (.cls 0) = [] := by rw [opened]; rfl
        rw [sourceHead, if_neg Bool.false_ne_true, empty] at head
        cases head
    | true =>
        have first : some (testConf.slabAddr 1) = some (testConf.slabAddr j) := by
          rw [← head, sourceHead, if_pos rfl, show w.region.lists .free = _ from free]
          rfl
        obtain rfl := testConf.slabAddr_injective (by decide) (Option.some.inj first)
        have given : p ≠ 0 := by
          rw [none] at gave
          exact gave.given
        have inv' : Inv testConf ⟨r, w.blocks, hold w.slices p 8⟩ :=
          gave.inv testConf_roomy inv class'
        obtain ⟨r', performed⟩ := inv'.perform_twoSlabs idle .debug
        have slice : Step .debug w (.sliceAlloc 8) ⟨r, w.blocks, hold w.slices p 8⟩ :=
          ⟨trivial, by rw [perform, result]; rfl⟩
        have heap : Step .debug ⟨r, w.blocks, hold w.slices p 8⟩ (.heapAlloc twoSlabs) _ :=
          ⟨trivial, performed⟩
        have run := (Run.single slice).snoc heap
        have block := (owned testConf _ _ _ testConf_aligned (by decide) starts run).slices _
          List.mem_cons_self 1 ⟨by decide, by decide⟩
        have live : p ∈ livePtrs testConf (hold w.slices p 8) (testConf.slabAddr 1) := by
          rw [gave.livePtrs_hold testConf_roomy, grant, if_neg given]
          exact List.mem_cons_self
        rw [show livePtrs testConf (hold w.slices p 8) (testConf.slabAddr 1) = [] from block] at live
        exact absurd live List.not_mem_nil

end Itaro.Usmm
