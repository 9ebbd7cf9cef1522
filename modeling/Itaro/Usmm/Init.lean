/-
# Usmm.Init -- usmm_init

`usmm_init` maps the region and looks for the magic.  With the magic in place
it only sets the four pointers of the control block again (`pointerWrites`);
otherwise it runs the first-time branch.  The branch is given as the writes it
makes, in the order of the source (`firstTime`): a region outlives the process
that is writing to it, so every prefix of them is a state somebody may find.

`firstTime_spec` is the branch from beginning to end, and `Fresh` what it leaves
behind.  That it gets there is the matter of `Usmm.InitBounds`: nothing of the
configuration is checked, and a store outside the mapping is the end of the process.
-/
import Itaro.Theory.Ring
import Itaro.Theory.Writes
import Itaro.Usmm.Slab
import Itaro.Usmm.SlabClass

namespace Itaro.Usmm

set_option autoImplicit false

open Theory

/-! ## The writes -/

/-- `memset(map_addr, 0, conf->slab)` -/
def zeroWrites (u n : Nat) : List Write := (List.range n).map fun i => .u8 (u + i) 0

/-- `memcpy(u->magic, gs_magic, 32)` -/
def magicWrites (u : Nat) : List Write := (List.range 32).map fun i => .u8 (u + i) (gsMagic.getD i 0)

/-- `memcpy(&u->conf, conf, sizeof(*conf))` -/
def confWrites (c : UsmmConf) (u : Nat) : List Write :=
  [.u64 (u + 32) c.addr, .u64 (u + 40) c.length, .u64 (u + 48) c.slab, .u32 (u + 56) c.fd,
    .u32 (u + 60) c.pad]

def pointerWrites (u : Nat) : List Write :=
  [.u64 (u + 96) (BitVec.ofNat 64 (u + usmmStatSliceOffset)),
    .u64 (u + 88) (BitVec.ofNat 64 (u + usmmSlabsOffset)),
    .u64 (u + 64) (BitVec.ofNat 64 (u + usmmSlabBitmapOffset)),
    .u64 (u + 72) (BitVec.ofNat 64 (u + usmmSlotsOffset))]

/-- `bitmap_set` as a write. -/
def bitmapSetProg (bitmap index : Nat) : Prog := fun m =>
  [.u8 (bitmap + index / 8) (m (bitmap + index / 8) ||| 1#8 <<< (index % 8))]

/-- `bitmap_clr` as a write. -/
def bitmapClrProg (bitmap index : Nat) : Prog := fun m =>
  [.u8 (bitmap + index / 8) (m (bitmap + index / 8) &&& ~~~(1#8 <<< (index % 8)))]

/-- `list_add_tail(new, head)` -/
def listAddTail (new head : Nat) : Prog := fun m =>
  let prev := (u64 m (head + 8)).toNat
  [.u64 (head + 8) (BitVec.ofNat 64 new), .u64 new (BitVec.ofNat 64 head),
    .u64 (new + 8) (BitVec.ofNat 64 prev), .u64 prev (BitVec.ofNat 64 new)]

/-- `bitmap_set_range(u->slab_bitmap, 0, USMM_SLAB_BITMAP_SIZE)` -/
def setAllProg (u : Nat) : Prog :=
  Prog.reading (slabBitmap · u) fun bitmap => Prog.loop 0 usmmSlabBitmapSize (bitmapSetProg bitmap)

/-- `bitmap_clr_range(u->slab_bitmap, 0, u->conf.length / u->conf.slab)` -/
def clrSlabsProg (u : Nat) : Prog :=
  Prog.reading (slabBitmap · u) fun bitmap =>
    Prog.reading (fun m => (intOfSize (confLength m u / confSlab m u)).toNat) fun stop =>
      Prog.loop 0 stop (bitmapClrProg bitmap)

/-- The three bitmap calls. -/
def bitmapProg (u : Nat) : Prog :=
  Prog.seq (setAllProg u) <|
  Prog.seq (clrSlabsProg u)
  (Prog.reading (slabBitmap · u) fun bitmap => bitmapSetProg bitmap 0)

/-- One turn of the loop over the slabs. -/
def slabTurn (c : UsmmConf) (u i : Nat) : Prog :=
  let slab := u + i * c.slabSize
  Prog.seq (Prog.const (usmmSlabInitWrites slab)) <|
  Prog.seq (listAddTail (slab + 8) (u + 112))
  (Prog.reading (statFreeSlabs · u) fun count => Prog.const [.u32 (u + 104) (count + 1)])

/-- One turn of the loop over the class lists. -/
def classTurn (u i : Nat) : Prog :=
  Prog.reading (slabsPtr · u) fun slabs => Prog.const (initListHead (slabs + i * 16))

/-- The region cleared and the magic set. -/
def clearProg (c : UsmmConf) (u : Nat) : Prog :=
  Prog.const (zeroWrites u c.slabSize ++ magicWrites u)

/-- From the configuration to the last slab. -/
def slabsProg (c : UsmmConf) (u : Nat) : Prog :=
  Prog.seq (Prog.const (confWrites c u ++ pointerWrites u)) <|
  Prog.seq (bitmapProg u) <|
  Prog.seq (Prog.const (initListHead (u + 128))) <|
  Prog.seq (Prog.const (initListHead (u + 112)))
  (Prog.loop 1 (c.slabCount - 1) (slabTurn c u))

/-- The branch `case 1 : init usmm`. -/
def firstTime (c : UsmmConf) (u : Nat) : Prog :=
  Prog.seq (clearProg c u) <|
  Prog.seq (slabsProg c u)
  (Prog.loop 0 usmmSlabArrayMax (classTurn u))

/-- The writes of `usmm_init` to a region mapped at `u`. -/
def usmmInitProg (c : UsmmConf) (u : Nat) : Prog := fun m =>
  if hasMagic m u then pointerWrites u else firstTime c u m

/-- How `usmm_init` ends without a region: it returns a code, or it never returns. -/
inductive InitError
  | code (value : Int)
  /-- A store outside the mapping, a division by a slab size of 0, or slabs that the
  `int i` of the loop cannot count. -/
  | killed
  deriving DecidableEq, Repr

/-- `usmm_init`: the control block and the memory it leaves.  `mapped` is what `mmap`
returned, nothing for `MAP_FAILED`. -/
def usmmInit (c : UsmmConf) (mapped : Option Nat) (m : Mem) : Except InitError (Nat × Mem) :=
  match mapped with
  | none => .error (.code (-1))
  | some u =>
      if (usmmInitProg c u).inside u (u + c.mapLength) m = true ∧
          (hasMagic m u ∨ c.slab ≠ 0 ∧ c.slabCount < 2 ^ 31) then
        .ok (u, (usmmInitProg c u).exec m)
      else .error .killed

/-! ## What first initialisation leaves behind -/

/-- The head of the list of class `k`. -/
def classHead (u k : Nat) : Nat := u + usmmSlabsOffset + k * 16

/-- `us->stat_slices + k` -/
def statAddr (u k : Nat) : Nat := u + usmmStatSliceOffset + k * 24

/-- `&(us->slots + slot)->ptr` -/
def slotAddr (u slot : Nat) : Nat := u + usmmSlotsOffset + slot * 16 + 8

/-- Node 0 is the head of `free_slabs`, node `i` the node of slab `i`. -/
def freeNode (c : UsmmConf) (i : Nat) : Nat := if i = 0 then c.base + 112 else c.slabAddr i + 8

structure Fresh (c : UsmmConf) (m : Mem) : Prop where
  control : Control c m
  bits : ∀ k < usmmSlabBitmapSize,
    bitmapTest m (c.base + usmmSlabBitmapOffset) k = decide (k = 0 ∨ c.slabCount ≤ k)
  freeSlabs : ListAt m (c.base + 112) ((List.range' 1 (c.slabCount - 1)).map (freeNode c))
  fullSlabs : ListAt m (c.base + 128) []
  classes : ∀ k < usmmSlabArrayMax, ListAt m (classHead c.base k) []
  statFree : statFreeSlabs m c.base = BitVec.ofNat 32 (c.slabCount - 1)
  statFull : statFullSlabs m c.base = 0
  stats : ∀ k < usmmSlabArrayMax, statAt m (statAddr c.base k) = ⟨0, 0, 0, 0⟩
  slots : ∀ i < usmmSlotsMax, u64 m (slotAddr c.base i) = 0
  headers : ∀ i, 1 ≤ i → i < c.slabCount → slabAt m (c.slabAddr i) = .unformatted

/-! ## Stage by stage -/

theorem applyAll_zeroWrites (m : Mem) (u n : Nat) : applyAll (zeroWrites u n) m = fill m u n 0#8 := by
  induction n with
  | zero =>
      funext x
      exact (if_neg (by omega)).symm
  | succ n ih =>
      rw [zeroWrites, List.range_succ, List.map_append, applyAll_append, ← zeroWrites, ih]
      funext x
      show setU8 (fill m u n 0#8) (u + n) 0 x = _
      simp only [setU8_apply, fill]
      split <;> rename_i h
      · rw [if_pos (by omega)]; rfl
      · by_cases inside : u ≤ x ∧ x < u + n
        · rw [if_pos inside, if_pos (by omega)]
        · rw [if_neg inside, if_neg (by omega)]

/-- Storing the bytes of a function, one after another. -/
theorem applyAll_copy (f : Nat → BitVec 8) (m : Mem) (u n : Nat) (x : Nat) :
    applyAll ((List.range n).map fun i => Write.u8 (u + i) (f i)) m x =
      if u ≤ x ∧ x < u + n then f (x - u) else m x := by
  induction n with
  | zero => exact (if_neg (by omega)).symm
  | succ n ih =>
      rw [List.range_succ, List.map_append, applyAll_append]
      show setU8 (applyAll _ m) (u + n) (f n) x = _
      rw [setU8_apply, ih]
      by_cases last : x = u + n
      · rw [if_pos last, if_pos (by omega), last, Nat.add_sub_cancel_left]
      · rw [if_neg last]
        by_cases inside : u ≤ x ∧ x < u + n
        · rw [if_pos inside, if_pos (by omega)]
        · rw [if_neg inside, if_neg (by omega)]

/-- The magic alone in a first slab that is zero everywhere else. -/
structure Cleared (c : UsmmConf) (m : Mem) : Prop where
  magic : hasMagic m c.base
  zero : ∀ x, c.base + 32 ≤ x → x < c.base + c.slabSize → m x = 0#8

section Stages

variable {c : UsmmConf}

/-- What `clearProg` leaves, byte by byte. -/
theorem exec_clearProg (c : UsmmConf) (u : Nat) (m : Mem) (x : Nat) :
    (clearProg c u).exec m x = if u ≤ x ∧ x < u + 32 then gsMagic.getD (x - u) 0
      else if u ≤ x ∧ x < u + c.slabSize then 0#8 else m x := by
  rw [clearProg, Prog.exec_const, applyAll_append, applyAll_zeroWrites, magicWrites]
  exact applyAll_copy (fun i => gsMagic.getD i 0) _ u 32 x

theorem clearProg_spec (roomy : c.Roomy) (m : Mem) :
    Cleared c ((clearProg c c.base).exec m) := by
  have large := roomy.large
  refine ⟨fun i below => ?_, fun x lower upper => ?_⟩
  · rw [exec_clearProg, if_pos (by omega), Nat.add_sub_cancel_left]
  · rw [exec_clearProg, if_neg (by omega), if_pos (by omega)]

theorem u64_ofNat_toNat {a : Nat} (small : a < 2 ^ 64) : (BitVec.ofNat 64 a).toNat = a := by
  rw [BitVec.toNat_ofNat, Nat.mod_eq_of_lt small]

/-- The configuration and the pointers. -/
theorem control_spec (room : c.base + usmmSlabBitmapOffset < 2 ^ 64) {m : Mem}
    (magic : hasMagic m c.base) :
    let p := Prog.const (confWrites c c.base ++ pointerWrites c.base)
    p.Within (fun x => c.base + 32 ≤ x ∧ x < c.base + 104) m ∧ Control c (p.exec m) := by
  intro p
  simp only [usmmSlabBitmapOffset] at room
  have within : p.Within (fun x => c.base + 32 ≤ x ∧ x < c.base + 104) m := by
    intro w member x covers
    simp only [p, Prog.const, confWrites, pointerWrites, List.cons_append, List.nil_append,
      List.mem_cons, List.not_mem_nil, or_false] at member
    rcases member with rfl | rfl | rfl | rfl | rfl | rfl | rfl | rfl | rfl <;>
      simp only [Write.Covers, Write.u64, Write.u32, Span] at covers <;> omega
  have chain : p.exec m = setU64 (setU64 (setU64 (setU64 (setU32 (setU32 (setU64 (setU64 (setU64 m
      (c.base + 32) c.addr) (c.base + 40) c.length) (c.base + 48) c.slab)
      (c.base + 56) c.fd) (c.base + 60) c.pad)
      (c.base + 96) (BitVec.ofNat 64 (c.base + usmmStatSliceOffset)))
      (c.base + 88) (BitVec.ofNat 64 (c.base + usmmSlabsOffset)))
      (c.base + 64) (BitVec.ofNat 64 (c.base + usmmSlabBitmapOffset)))
      (c.base + 72) (BitVec.ofNat 64 (c.base + usmmSlotsOffset)) := rfl
  refine ⟨within, ⟨fun i below => ?_, ?_, ?_, ?_, ?_, ?_, ?_, ?_⟩⟩
  · rw [within.exec _ (by omega)]
    exact magic i below
  all_goals
    rw [chain]
    simp (disch := omega) only [confLength, confSlab, slabBitmap, slotsPtr, slabsPtr, statSlices,
      u64_setU64, u64_setU64_of_disjoint, u64_setU32_of_disjoint]
  all_goals
    refine u64_ofNat_toNat ?_
    simp only [usmmSlabBitmapOffset, usmmSlotsOffset, usmmSlabsOffset, usmmStatSliceOffset]
    omega

theorem exec_loop_bitmapSet (m : Mem) (bitmap count : Nat) :
    (Prog.loop 0 count (bitmapSetProg bitmap)).exec m = bitmapSetRange m bitmap 0 count := by
  induction count with
  | zero => rfl
  | succ count ih =>
      rw [Prog.exec_loop_succ, ih, bitmapSetRange, bitmapSetRange, Nat.sub_zero, Nat.sub_zero,
        List.range'_1_concat, List.foldl_append]
      rfl

theorem exec_loop_bitmapClr (m : Mem) (bitmap count : Nat) :
    (Prog.loop 0 count (bitmapClrProg bitmap)).exec m = bitmapClrRange m bitmap 0 count := by
  induction count with
  | zero => rfl
  | succ count ih =>
      rw [Prog.exec_loop_succ, ih, bitmapClrRange, bitmapClrRange, Nat.sub_zero, Nat.sub_zero,
        List.range'_1_concat, List.foldl_append]
      rfl

/-- A loop of writes at or above `a` stays there. -/
theorem loop_within {op : Nat → Prog} {a count : Nat}
    (each : ∀ i m, (op i).Within (fun x => a ≤ x) m) (m : Mem) :
    (Prog.loop 0 count op).Within (fun x => a ≤ x) m :=
  (Prog.loop_rule (I := fun _ _ => True) trivial fun i m _ _ _ => ⟨each i m, trivial⟩).1

theorem bitmapSetProg_within (bitmap i : Nat) (m : Mem) :
    (bitmapSetProg bitmap i).Within (fun x => bitmap ≤ x) m := by
  intro w member x covers
  rw [bitmapSetProg, List.mem_singleton] at member
  subst member
  simp only [Write.Covers, Write.u8, Span] at covers
  omega

theorem bitmapClrProg_within (bitmap i : Nat) (m : Mem) :
    (bitmapClrProg bitmap i).Within (fun x => bitmap ≤ x) m := by
  intro w member x covers
  rw [bitmapClrProg, List.mem_singleton] at member
  subst member
  simp only [Write.Covers, Write.u8, Span] at covers
  omega

theorem intOfSize_slabCount (counted : c.slabCount < 2 ^ 31) :
    (intOfSize (c.length / c.slab)).toNat = c.slabCount := by
  rw [intOfSize_of_lt counted]
  rfl

/-- Writes at or above the bitmap leave the control block alone. -/
theorem Control.of_above {m m' : Mem} (control : Control c m)
    (changes : ChangesOnly (fun x => c.base + usmmSlabBitmapOffset ≤ x) m m') : Control c m' :=
  control.of_changesOnly changes fun x _ upper inside => by
    simp only [usmmSlabBitmapOffset] at inside; omega

/-- The bits after the three bitmap calls. -/
theorem bitmap_spec (roomy : c.Roomy) {m : Mem} (control : Control c m) :
    (bitmapProg c.base).Within (fun x => c.base + usmmSlabBitmapOffset ≤ x) m ∧
      ∀ k < usmmSlabBitmapSize,
        bitmapTest ((bitmapProg c.base).exec m) (c.base + usmmSlabBitmapOffset) k =
          decide (k = 0 ∨ c.slabCount ≤ k) := by
  have setWithin : (setAllProg c.base).Within (fun x => c.base + usmmSlabBitmapOffset ≤ x) m := by
    refine Prog.Within.reading ?_
    rw [control.bitmap]
    exact loop_within (bitmapSetProg_within _) m
  have setExec : (setAllProg c.base).exec m =
      bitmapSetRange m (c.base + usmmSlabBitmapOffset) 0 usmmSlabBitmapSize := by
    rw [setAllProg, Prog.exec_reading, control.bitmap, exec_loop_bitmapSet]
  have control₁ := control.of_above setWithin.exec
  have clrWithin : (clrSlabsProg c.base).Within (fun x => c.base + usmmSlabBitmapOffset ≤ x)
      ((setAllProg c.base).exec m) := by
    refine Prog.Within.reading (Prog.Within.reading ?_)
    rw [control₁.bitmap]
    exact loop_within (bitmapClrProg_within _) _
  have clrExec : (clrSlabsProg c.base).exec ((setAllProg c.base).exec m) =
      bitmapClrRange ((setAllProg c.base).exec m) (c.base + usmmSlabBitmapOffset) 0
        c.slabCount := by
    rw [clrSlabsProg, Prog.exec_reading, Prog.exec_reading, control₁.bitmap, control₁.length,
      control₁.slab, intOfSize_slabCount roomy.counted, exec_loop_bitmapClr]
  have control₂ := control₁.of_above clrWithin.exec
  refine ⟨setWithin.seq (clrWithin.seq ?_), fun k below => ?_⟩
  · refine Prog.Within.reading ?_
    rw [control₂.bitmap]
    exact bitmapSetProg_within _ 0 _
  · have last : (bitmapProg c.base).exec m =
        bitmapSet ((clrSlabsProg c.base).exec ((setAllProg c.base).exec m))
          (c.base + usmmSlabBitmapOffset) 0 := by
      rw [bitmapProg, Prog.exec_seq, Prog.exec_seq, Prog.exec_reading, control₂.bitmap]
      rfl
    rw [last, bitmapTest_bitmapSet, clrExec, bitmapTest_bitmapClrRange, setExec,
      bitmapTest_bitmapSetRange, decide_eq_true (show 0 ≤ k ∧ k < usmmSlabBitmapSize by omega),
      Bool.true_or, Bool.and_true]
    rw [Bool.eq_iff_iff]
    simp

/-! ## The free list -/

theorem freeNode_zero : freeNode c 0 = c.base + 112 := rfl

theorem freeNode_pos {i : Nat} (positive : 1 ≤ i) : freeNode c i = c.slabAddr i + 8 :=
  if_neg (by omega)

theorem freeNode_ge {i : Nat} (positive : 1 ≤ i) : c.base + c.slabSize + 8 ≤ freeNode c i := by
  have lower := c.slabAddr_ge positive
  rw [freeNode_pos positive]
  omega

theorem freeNode_room (roomy : c.Roomy) {i : Nat} (below : i < c.slabCount) :
    freeNode c i + 16 ≤ 2 ^ 64 := by
  have large := roomy.large
  have nonempty := roomy.nonempty
  have room := roomy.room
  rcases Nat.eq_zero_or_pos i with rfl | positive
  · rw [freeNode_zero]; omega
  · have upper := c.slabAddr_end below
    rw [freeNode_pos positive]
    omega

theorem freeNode_apart (roomy : c.Roomy) {i j : Nat} (ne : i ≠ j) :
    freeNode c i + 16 ≤ freeNode c j ∨ freeNode c j + 16 ≤ freeNode c i := by
  have large := roomy.large
  rcases Nat.eq_zero_or_pos i with rfl | iPos
  · have := freeNode_ge (c := c) (show 1 ≤ j by omega)
    rw [freeNode_zero]; omega
  rcases Nat.eq_zero_or_pos j with rfl | jPos
  · have := freeNode_ge (c := c) iPos
    rw [freeNode_zero]; omega
  · rw [freeNode_pos iPos, freeNode_pos jPos]
    rcases c.slabAddr_apart ne with before | after <;> omega

theorem exec_initListHead (a : Nat) (m : Mem) : (Prog.const (initListHead a)).exec m =
    setU64 (setU64 m a (BitVec.ofNat 64 a)) (a + 8) (BitVec.ofNat 64 a) := rfl

theorem initListHead_within (a : Nat) (m : Mem) :
    (Prog.const (initListHead a)).Within (Span a 16) m := by
  intro w member x covers
  simp only [Prog.const, initListHead, List.mem_cons, List.not_mem_nil, or_false] at member
  rcases member with rfl | rfl <;>
    simp only [Write.Covers, Write.u64, Span] at covers ⊢ <;> omega

theorem initListHead_link {a : Nat} (small : a < 2 ^ 64) (m : Mem) :
    Link ((Prog.const (initListHead a)).exec m) a a := by
  rw [exec_initListHead]
  refine ⟨?_, ?_⟩
  · rw [u64_setU64_of_disjoint _ _ (by omega), u64_setU64, u64_ofNat_toNat small]
  · rw [u64_setU64, u64_ofNat_toNat small]

/-- Before turn `i` the slabs below `i` are initialised and on the list. -/
structure SlabsDone (c : UsmmConf) (i : Nat) (m : Mem) : Prop where
  control : Control c m
  ring : Ring m (freeNode c) (i - 1)
  count : statFreeSlabs m c.base = BitVec.ofNat 32 (i - 1)
  headers : ∀ j, 1 ≤ j → j < i → slabAt m (c.slabAddr j) = .unformatted

/-- Where the loop over the slabs writes. -/
def LoopSpan (c : UsmmConf) (x : Nat) : Prop :=
  Span (c.base + 104) 4 x ∨ Span (c.base + 112) 16 x ∨ c.base + c.slabSize ≤ x

theorem Control.of_loopSpan (roomy : c.Roomy) {m m' : Mem} (control : Control c m)
    (changes : ChangesOnly (LoopSpan c) m m') : Control c m' := by
  have large := roomy.large
  refine control.of_changesOnly changes fun x _ upper inside => ?_
  simp only [LoopSpan, Span] at inside
  omega

theorem exec_listAddTail {m : Mem} {new head last : Nat}
    (prev : (u64 m (head + 8)).toNat = last) :
    (listAddTail new head).exec m =
      setU64 (setU64 (setU64 (setU64 m (head + 8) (BitVec.ofNat 64 new))
        new (BitVec.ofNat 64 head)) (new + 8) (BitVec.ofNat 64 last))
        last (BitVec.ofNat 64 new) := by
  simp only [Prog.exec, listAddTail, prev, applyAll_cons, applyAll_nil, Write.apply_u64]

theorem listAddTail_within {F : Nat → Prop} {m : Mem} {new head last : Nat}
    (prev : (u64 m (head + 8)).toNat = last) (fHead : ∀ x, Span (head + 8) 8 x → F x)
    (fNew : ∀ x, Span new 16 x → F x) (fLast : ∀ x, Span last 8 x → F x) :
    (listAddTail new head).Within F m := by
  intro w member x covers
  simp only [listAddTail, List.mem_cons, List.not_mem_nil, or_false, prev] at member
  rcases member with rfl | rfl | rfl | rfl
  · exact fHead x covers
  · exact fNew x (by simp only [Write.Covers, Write.u64, Span] at covers ⊢; omega)
  · exact fNew x (by simp only [Write.Covers, Write.u64, Span] at covers ⊢; omega)
  · exact fLast x covers

/-- The first slab, and the list node of every other. -/
def NodeSpan (c : UsmmConf) (x : Nat) : Prop :=
  x < c.base + c.slabSize ∨ ∃ j, 1 ≤ j ∧ Span (c.slabAddr j + 8) 16 x

theorem slabAt_of_nodeSpan (roomy : c.Roomy) {m m' : Mem}
    (changes : ChangesOnly (NodeSpan c) m m') {i : Nat} (positive : 1 ≤ i) :
    slabAt m' (c.slabAddr i) = slabAt m (c.slabAddr i) := by
  have large := roomy.large
  have lower := c.slabAddr_ge positive
  refine slabAt_of_changesOnly changes fun x above below inside => ?_
  rcases inside with first | ⟨j, jPos, span⟩
  · omega
  · simp only [Span] at span
    rcases Nat.lt_trichotomy i j with before | rfl | after
    · have := c.slabAddr_mono before; omega
    · omega
    · have := c.slabAddr_mono after; omega

/-- First part of a turn: `usmm_slab_init`. -/
theorem slabTurn_init (roomy : c.Roomy) {k : Nat} {m : Mem} (done : SlabsDone c (k + 1) m) :
    let p := Prog.const (usmmSlabInitWrites (c.slabAddr (k + 1)))
    p.Within (LoopSpan c) m ∧ Control c (p.exec m) ∧ Ring (p.exec m) (freeNode c) k ∧
      statFreeSlabs (p.exec m) c.base = BitVec.ofNat 32 k ∧
      ∀ j, 1 ≤ j → j < k + 2 → slabAt (p.exec m) (c.slabAddr j) = .unformatted := by
  intro p
  have large := roomy.large
  have lower := c.slabAddr_ge (Nat.le_add_left 1 k)
  have within : p.Within (Span (c.slabAddr (k + 1)) slabHeaderSize) m :=
    fun _ member => usmmSlabInitWrites_within _ member
  have frame := within.exec
  have bound : p.Within (LoopSpan c) m := within.mono fun x span => by
    simp only [Span, LoopSpan] at span ⊢
    omega
  refine ⟨bound, done.control.of_loopSpan roomy bound.exec, ?_, ?_, fun j positive below => ?_⟩
  · refine Ring.of_changesOnly done.ring frame fun i bound x above upper inside => ?_
    simp only [Span, slabHeaderSize] at inside
    rcases Nat.eq_zero_or_pos i with rfl | positive
    · rw [freeNode_zero] at above upper; omega
    · have before := c.slabAddr_mono (show i < k + 1 by omega)
      rw [freeNode_pos positive] at upper
      omega
  · rw [statFreeSlabs, frame.u32 fun x _ upper inside => ?_]
    · exact done.count
    · simp only [Span] at inside; omega
  · rcases Nat.lt_succ_iff_lt_or_eq.mp below with old | rfl
    · rw [slabAt_of_changesOnly frame fun x _ upper inside => ?_]
      · exact done.headers j positive old
      · have before := c.slabAddr_mono old
        simp only [Span] at inside
        omega
    · exact slabAt_usmmSlabInit m _

/-- Second part: `list_add_tail`. -/
theorem slabTurn_link (roomy : c.Roomy) {k : Nat} {m : Mem} (below : k + 1 < c.slabCount)
    (ring : Ring m (freeNode c) k) :
    let p := listAddTail (c.slabAddr (k + 1) + 8) (c.base + 112)
    p.Within (fun x => LoopSpan c x ∧ NodeSpan c x ∧ ¬ Span (c.base + 104) 4 x) m ∧
      Ring (p.exec m) (freeNode c) (k + 1) := by
  intro p
  have large := roomy.large
  have lower := c.slabAddr_ge (Nat.le_add_left 1 k)
  have node : freeNode c (k + 1) = c.slabAddr (k + 1) + 8 := freeNode_pos (Nat.le_add_left 1 k)
  have link : Link m (freeNode c k) (c.base + 112) := ring.2
  refine ⟨listAddTail_within link.2 (fun x span => ?_) (fun x span => ?_) (fun x span => ?_), ?_⟩
  · simp only [Span] at span
    refine ⟨?_, .inl (by omega), ?_⟩ <;> simp only [LoopSpan, Span] <;> omega
  · refine ⟨?_, .inr ⟨k + 1, by omega, span⟩, ?_⟩ <;> simp only [LoopSpan, Span] at span ⊢ <;> omega
  · rcases Nat.eq_zero_or_pos k with rfl | positive
    · simp only [freeNode_zero, Span] at span
      refine ⟨?_, .inl (by omega), ?_⟩ <;> simp only [LoopSpan, Span] <;> omega
    · have first := c.slabAddr_ge positive
      rw [freeNode_pos positive] at span
      refine ⟨?_, .inr ⟨k, positive, ?_⟩, ?_⟩ <;> simp only [LoopSpan, Span] at span ⊢ <;> omega
  · have extended := ring.addTail (fun i bound => freeNode_room roomy (by omega))
      fun i _ j _ ne => freeNode_apart roomy ne
    rw [node, freeNode_zero] at extended
    show Ring ((listAddTail _ _).exec m) _ _
    rw [exec_listAddTail link.2]
    exact extended

theorem slabTurn_eq (i : Nat) : slabTurn c c.base i =
    Prog.seq (Prog.const (usmmSlabInitWrites (c.slabAddr i))) (Prog.seq
      (listAddTail (c.slabAddr i + 8) (c.base + 112))
      (Prog.reading (statFreeSlabs · c.base) fun count =>
        Prog.const [.u32 (c.base + 104) (count + 1)])) := rfl

theorem slabTurn_spec (roomy : c.Roomy) {i : Nat} {m : Mem} (positive : 1 ≤ i)
    (below : i < c.slabCount) (done : SlabsDone c i m) :
    (slabTurn c c.base i).Within (LoopSpan c) m ∧
      SlabsDone c (i + 1) ((slabTurn c c.base i).exec m) := by
  have large := roomy.large
  obtain ⟨k, rfl⟩ : ∃ k, i = k + 1 := ⟨i - 1, by omega⟩
  obtain ⟨initWithin, control, ring, count, headers⟩ := slabTurn_init roomy done
  generalize start : (Prog.const (usmmSlabInitWrites (c.slabAddr (k + 1)))).exec m = m₁
    at control ring count headers
  obtain ⟨linkWithin, ring₂⟩ := slabTurn_link roomy below ring
  have frame₂ := linkWithin.exec
  have control₂ := control.of_loopSpan roomy (frame₂.mono fun x => And.left)
  have headers₂ := fun j (positive : 1 ≤ j) (inside : j < k + 2) =>
    (slabAt_of_nodeSpan roomy (frame₂.mono fun x => And.left ∘ And.right) positive).trans
      (headers j positive inside)
  have count₂ := (frame₂.u32 fun x lower upper inside => inside.2.2 ⟨lower, upper⟩).trans count
  generalize middle : (listAddTail (c.slabAddr (k + 1) + 8) (c.base + 112)).exec m₁ = m₂
    at frame₂ control₂ headers₂ count₂ ring₂
  -- `u->stat_free_slabs ++`
  have last : ∀ v, (Prog.const [Write.u32 (c.base + 104) v]).Within (Span (c.base + 104) 4) m₂ := by
    intro v w member x covers
    rw [Prog.const, List.mem_singleton] at member
    subst member
    exact covers
  have frame₃ := (last (statFreeSlabs m₂ c.base + 1)).exec
  have within : (slabTurn c c.base (k + 1)).Within (LoopSpan c) m := by
    rw [slabTurn_eq]
    refine initWithin.seq (Prog.Within.seq ?_ (Prog.Within.reading ?_))
    · rw [start]
      exact linkWithin.mono fun x => And.left
    · rw [start, middle]
      exact (last _).mono fun x => .inl
  have result : (slabTurn c c.base (k + 1)).exec m =
      (Prog.const [Write.u32 (c.base + 104) (statFreeSlabs m₂ c.base + 1)]).exec m₂ := by
    rw [← middle, ← start]
    rw [slabTurn_eq, Prog.exec_seq, Prog.exec_seq, Prog.exec_reading]
  rw [result]
  refine ⟨within, ?_, ?_, ?_, fun j positive inside => ?_⟩
  · exact control₂.of_loopSpan roomy (frame₃.mono fun x => .inl)
  · refine ring₂.of_changesOnly frame₃ fun j _ x lower upper inside => ?_
    simp only [Span] at inside
    rcases Nat.eq_zero_or_pos j with rfl | positive
    · rw [freeNode_zero] at lower; omega
    · have := freeNode_ge (c := c) positive
      omega
  · show u32 (setU32 m₂ (c.base + 104) (u32 m₂ (c.base + 104) + 1)) (c.base + 104) =
      BitVec.ofNat 32 (k + 1)
    rw [u32_setU32]
    rw [count₂, BitVec.ofNat_add]
    rfl
  · rw [slabAt_of_nodeSpan roomy (frame₃.mono fun x span => .inl ?_) positive]
    · exact headers₂ j positive inside
    · simp only [Span] at span; omega

/-! ## The whole branch -/

theorem bitmapTest_of_changesOnly {F : Nat → Prop} {m m' : Mem} (changes : ChangesOnly F m m')
    {bitmap k : Nat} (misses : ¬ F (bitmap + k / 8)) :
    bitmapTest m' bitmap k = bitmapTest m bitmap k := by
  rw [bitmapTest_eq, bitmapTest_eq, changes _ misses]

/-- The state before the class lists are set up. -/
structure Prepared (c : UsmmConf) (m : Mem) : Prop where
  slabs : SlabsDone c c.slabCount m
  bits : ∀ k < usmmSlabBitmapSize,
    bitmapTest m (c.base + usmmSlabBitmapOffset) k = decide (k = 0 ∨ c.slabCount ≤ k)
  full : Link m (c.base + 128) (c.base + 128)
  statFull : statFullSlabs m c.base = 0
  zero : ∀ x, c.base + usmmStatSliceOffset ≤ x → x < c.base + usmmSlabBitmapOffset → m x = 0#8

/-- Where `slabsProg` writes: nothing of the magic, the statistics, the class
lists or the slots. -/
def SlabsSpan (c : UsmmConf) (x : Nat) : Prop :=
  c.base + 32 ≤ x ∧ x < c.base + usmmStatSliceOffset ∨ c.base + usmmSlabBitmapOffset ≤ x

theorem slabsProg_spec (roomy : c.Roomy) {m : Mem} (cleared : Cleared c m) :
    (slabsProg c c.base).Within (SlabsSpan c) m ∧ Prepared c ((slabsProg c c.base).exec m) := by
  have large := roomy.large
  have nonempty := roomy.nonempty
  have room := roomy.room
  have some := roomy.one_le_slabCount
  obtain ⟨within₁, control₁⟩ := control_spec (roomy.offset_lt (by decide)) cleared.magic
  generalize exec₁ : (Prog.const (confWrites c c.base ++ pointerWrites c.base)).exec m = m₁
    at control₁
  have frame₁ := exec₁ ▸ within₁.exec
  obtain ⟨within₂, bits₂⟩ := bitmap_spec roomy control₁
  generalize exec₂ : (bitmapProg c.base).exec m₁ = m₂ at bits₂
  have frame₂ := exec₂ ▸ within₂.exec
  have control₂ := control₁.of_above frame₂
  have within₃ := initListHead_within (c.base + 128) m₂
  have full₃ := initListHead_link (show c.base + 128 < 2 ^ 64 by omega) m₂
  generalize exec₃ : (Prog.const (initListHead (c.base + 128))).exec m₂ = m₃ at full₃
  have frame₃ := exec₃ ▸ within₃.exec
  have within₄ := initListHead_within (c.base + 112) m₃
  have free₄ := initListHead_link (show c.base + 112 < 2 ^ 64 by omega) m₃
  generalize exec₄ : (Prog.const (initListHead (c.base + 112))).exec m₃ = m₄ at free₄
  have frame₄ := exec₄ ▸ within₄.exec
  -- the state the loop starts from
  have control₄ : Control c m₄ := by
    refine (control₂.of_changesOnly frame₃ fun x _ upper inside => ?_).of_changesOnly frame₄
      fun x _ upper inside => ?_ <;>
    · simp only [Span] at inside; omega
  have zero₄ : ∀ x, c.base + 104 ≤ x → x < c.base + 112 ∨ c.base + 144 ≤ x →
      x < c.base + usmmSlabBitmapOffset → m₄ x = 0#8 := by
    intro x lower outside upper
    simp only [usmmSlabBitmapOffset] at upper
    rw [frame₄ x (by simp only [Span]; omega), frame₃ x (by simp only [Span]; omega),
      frame₂ x (by simp only [usmmSlabBitmapOffset]; omega), frame₁ x (by omega),
      cleared.zero x (by omega) (by omega)]
  have start : SlabsDone c 1 m₄ := by
    refine ⟨control₄, ⟨fun i below => absurd below (by omega), free₄⟩, ?_, fun j _ _ => by omega⟩
    have zeros : load m₄ (c.base + 104) 4 = 0 := load_eq_zero fun x lower upper =>
      zero₄ x lower (by omega) (by simp only [usmmSlabBitmapOffset]; omega)
    rw [statFreeSlabs, u32, zeros]
  obtain ⟨within₅, done⟩ := @Prog.loop_rule m₄ (LoopSpan c) (SlabsDone c) (slabTurn c c.base) 1
    (c.slabCount - 1) start fun i m lower upper done => slabTurn_spec roomy lower (by omega) done
  have frame₅ := within₅.exec
  have result : (slabsProg c c.base).exec m =
      (Prog.loop 1 (c.slabCount - 1) (slabTurn c c.base)).exec m₄ := by
    rw [slabsProg, Prog.exec_seq, Prog.exec_seq, Prog.exec_seq, Prog.exec_seq, exec₁, exec₂, exec₃,
      exec₄]
  have within : (slabsProg c c.base).Within (SlabsSpan c) m := by
    rw [slabsProg]
    refine (within₁.mono fun x _ => ?_).seq (Prog.Within.seq (exec₁ ▸ within₂.mono fun x _ => ?_)
      (Prog.Within.seq ?_ (Prog.Within.seq ?_ ?_)))
    · simp only [SlabsSpan, usmmStatSliceOffset]; omega
    · simp only [SlabsSpan, usmmSlabBitmapOffset] at *; omega
    · rw [exec₁, exec₂]
      refine within₃.mono fun x span => ?_
      simp only [SlabsSpan, Span, usmmStatSliceOffset] at span ⊢; omega
    · rw [exec₁, exec₂, exec₃]
      refine within₄.mono fun x span => ?_
      simp only [SlabsSpan, Span, usmmStatSliceOffset] at span ⊢; omega
    · rw [exec₁, exec₂, exec₃, exec₄]
      refine within₅.mono fun x span => ?_
      simp only [SlabsSpan, LoopSpan, Span, usmmStatSliceOffset, usmmSlabBitmapOffset] at span ⊢
      omega
  refine ⟨within, ?_, fun k below => ?_, ?_, ?_, fun x lower upper => ?_⟩
  · rw [result]
    rwa [show 1 + (c.slabCount - 1) = c.slabCount by omega] at done
  · simp only [usmmSlabBitmapSize] at below
    rw [result, bitmapTest_of_changesOnly frame₅ ?_, bitmapTest_of_changesOnly frame₄ ?_,
      bitmapTest_of_changesOnly frame₃ ?_]
    · exact bits₂ k below
    all_goals simp only [LoopSpan, Span, usmmSlabBitmapOffset]; omega
  · rw [result]
    refine Link.congr (Link.congr full₃ (frame₄.u64 ?_) (frame₄.u64 ?_)) (frame₅.u64 ?_)
      (frame₅.u64 ?_)
    all_goals
      intro x lower upper inside
      simp only [LoopSpan, Span] at inside
      omega
  · have zeros : load m₄ (c.base + 108) 4 = 0 := load_eq_zero fun x lower upper =>
      zero₄ x (by omega) (by omega) (by simp only [usmmSlabBitmapOffset]; omega)
    have kept : u32 _ (c.base + 108) = u32 m₄ (c.base + 108) :=
      frame₅.u32 fun x lower upper inside => by
        simp only [LoopSpan, Span] at inside; omega
    rw [result, statFullSlabs, kept, u32, zeros]
    rfl
  · simp only [usmmStatSliceOffset] at lower
    rw [result, frame₅ x ?_, zero₄ x (by omega) (by omega) upper]
    simp only [LoopSpan, Span, usmmSlabBitmapOffset] at upper ⊢; omega

/-- The heads of the class lists below `count`. -/
def ClassSpan (c : UsmmConf) (count x : Nat) : Prop :=
  classHead c.base 0 ≤ x ∧ x < classHead c.base count

theorem classTurn_eq {m : Mem} (control : Control c m) (i : Nat) :
    classTurn c.base i m = initListHead (classHead c.base i) := by
  show initListHead (slabsPtr m c.base + i * 16) = _
  rw [control.slabs]
  rfl

theorem classLoop_spec (room : c.base + usmmSlotsOffset < 2 ^ 64) {m : Mem}
    (control : Control c m) {count : Nat}
    (bound : count ≤ usmmSlabArrayMax) :
    (Prog.loop 0 count (classTurn c.base)).Within (ClassSpan c count) m ∧
      Control c ((Prog.loop 0 count (classTurn c.base)).exec m) ∧
      ∀ k < count, Link ((Prog.loop 0 count (classTurn c.base)).exec m)
        (classHead c.base k) (classHead c.base k) := by
  simp only [usmmSlotsOffset] at room
  have turn := @Prog.loop_rule m (ClassSpan c count)
    (fun i m => Control c m ∧ ∀ k < i, Link m (classHead c.base k) (classHead c.base k))
    (classTurn c.base) 0 count ⟨control, fun k below => absurd below (Nat.not_lt_zero k)⟩ ?_
  · rwa [Nat.zero_add] at turn
  · intro i m _ below ⟨control, links⟩
    have head : classTurn c.base i m = Prog.const (initListHead (classHead c.base i)) m :=
      classTurn_eq control i
    have within := initListHead_within (classHead c.base i) m
    have frame := within.exec
    have result : (classTurn c.base i).exec m =
        (Prog.const (initListHead (classHead c.base i))).exec m := by rw [Prog.exec, head]; rfl
    simp only [usmmSlabArrayMax] at bound
    refine ⟨?_, ?_, fun k inside => ?_⟩
    · intro w member x covers
      rw [head] at member
      have span := within w member x covers
      simp only [Span, ClassSpan, classHead] at span ⊢
      omega
    · rw [result]
      refine control.of_changesOnly frame fun x _ upper inside => ?_
      simp only [Span, classHead, usmmSlabsOffset] at inside
      omega
    · rw [result]
      rcases Nat.lt_succ_iff_lt_or_eq.mp inside with old | rfl
      · refine (links k old).congr (frame.u64 ?_) (frame.u64 ?_) <;>
        · intro x lower upper inside
          simp only [Span, classHead] at lower upper inside
          omega
      · refine initListHead_link ?_ m
        simp only [classHead, usmmSlabsOffset]
        omega

theorem listAt_nil {m : Mem} {head : Nat} (link : Link m head head) : ListAt m head [] := by
  rw [ListAt]
  exact List.isChain_pair.mpr link

/-- The class loop completes the preparation. -/
theorem fresh_of_prepared (roomy : c.Roomy) {m : Mem} (prepared : Prepared c m) :
    Fresh c ((Prog.loop 0 usmmSlabArrayMax (classTurn c.base)).exec m) := by
  have large := roomy.large
  have some := roomy.one_le_slabCount
  obtain ⟨within, control, links⟩ := classLoop_spec (roomy.offset_lt (by decide))
    prepared.slabs.control le_rfl
  have frame := within.exec
  generalize (Prog.loop 0 usmmSlabArrayMax (classTurn c.base)).exec m = m' at control links frame
  have span : ∀ {x}, ClassSpan c usmmSlabArrayMax x →
      c.base + 65536 ≤ x ∧ x < c.base + 66192 := by
    intro x inside
    simp only [ClassSpan, classHead, usmmSlabsOffset, usmmSlabArrayMax] at inside
    omega
  -- the class lists lie between the statistics and the slots
  have zero : ∀ x, c.base + usmmStatSliceOffset ≤ x → x < c.base + usmmSlabBitmapOffset →
      x < c.base + 65536 ∨ c.base + 66192 ≤ x → m' x = 0#8 := by
    intro x lower upper apart
    have outside : ¬ ClassSpan c usmmSlabArrayMax x := by
      intro inside
      have := span inside
      omega
    rw [frame x outside, prepared.zero x lower upper]
  refine ⟨control, fun k below => ?_, ?_, ?_, fun k below => listAt_nil (links k below), ?_, ?_,
    fun k below => ?_, fun i below => ?_, fun i positive below => ?_⟩
  · rw [bitmapTest_of_changesOnly frame fun inside => ?_]
    · exact prepared.bits k below
    · have := span inside
      simp only [usmmSlabBitmapOffset] at this
      omega
  · have ring := prepared.slabs.ring.of_changesOnly frame fun i _ x lower upper inside => by
      have := span inside
      rcases Nat.eq_zero_or_pos i with rfl | positive
      · rw [freeNode_zero] at upper; omega
      · have := freeNode_ge (c := c) positive; omega
    have listed := ring.listAt
    rwa [freeNode_zero] at listed
  · refine listAt_nil (prepared.full.congr (frame.u64 ?_) (frame.u64 ?_)) <;>
    · intro x _ upper inside
      have := span inside
      omega
  · rw [statFreeSlabs, frame.u32 fun x _ upper inside => ?_]
    · exact prepared.slabs.count
    · have := span inside; omega
  · rw [statFullSlabs, frame.u32 fun x _ upper inside => ?_]
    · exact prepared.statFull
    · have := span inside; omega
  · simp only [usmmSlabArrayMax] at below
    have bytes : ∀ x, statAddr c.base k ≤ x → x < statAddr c.base k + 24 → m' x = 0#8 := by
      intro x lower upper
      simp only [statAddr, usmmStatSliceOffset, usmmSlabBitmapOffset] at lower upper zero
      exact zero x (by omega) (by omega) (by omega)
    have word : ∀ off w, off + w ≤ 24 → load m' (statAddr c.base k + off) w = 0 :=
      fun off w inside => load_eq_zero fun x lower upper => bytes x (by omega) (by omega)
    have first := word 0 8 (by omega)
    rw [Nat.add_zero] at first
    simp only [statAt, u64, u32, first, word 8 8 (by omega), word 16 4 (by omega),
      word 20 4 (by omega)]
    rfl
  · simp only [usmmSlotsMax] at below
    rw [u64, load_eq_zero fun x lower upper => ?_]
    · rfl
    · simp only [slotAddr, usmmSlotsOffset, usmmStatSliceOffset, usmmSlabBitmapOffset]
        at lower upper zero
      exact zero x (by omega) (by omega) (by omega)
  · have lower := c.slabAddr_ge positive
    rw [slabAt_of_changesOnly frame fun x above _ inside => ?_]
    · exact prepared.slabs.headers i positive below
    · have := span inside; omega

/-- **What first initialisation does.** -/
theorem firstTime_spec (roomy : c.Roomy) (m : Mem) : Fresh c ((firstTime c c.base).exec m) := by
  obtain ⟨-, prepared⟩ := slabsProg_spec roomy (clearProg_spec roomy m)
  have fresh := fresh_of_prepared roomy prepared
  rw [firstTime, Prog.exec_seq, Prog.exec_seq]
  exact fresh

end Stages

end Itaro.Usmm
