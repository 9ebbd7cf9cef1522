/-
# Usmm.InitBounds -- usmm_init reaches its end

The first-time branch stores through pointers it has just stored itself: the bitmap
and the list heads are found in the control block, and `list_add_tail` writes to the
node that `free_slabs.prev` leads to.  So that no store leaves the mapping is an
invariant of the branch: the control block stays as it is (`Control`) and the last
node of the list is that of the slab before (`ListTail`).

It holds from slabs of 128 bytes on, where no header lies over the pointers, and then
`Completes` is all that is needed (`usmmInit_returns_iff`).  `usmmInit_first` and
`usmmInit_reload` are the two branches for a configuration that is `Roomy`.
-/
import Itaro.Usmm.Init

namespace Itaro.Usmm

set_option autoImplicit false

open Theory

variable {c : UsmmConf} {m : Mem}

/-- The bytes of the mapping. -/
def InMapping (c : UsmmConf) (x : Nat) : Prop := c.base ≤ x ∧ x < c.base + c.mapLength

theorem usmmInit_ok {us : Nat} {m' : Mem} (result : usmmInit c (some c.base) m = .ok (us, m')) :
    us = c.base ∧ m' = (usmmInitProg c c.base).exec m := by
  rw [usmmInit] at result
  split at result
  · obtain ⟨rfl, rfl⟩ := Prod.mk.inj (Except.ok.inj result)
    exact ⟨rfl, rfl⟩
  · cases result

/-- What a return of the first-time branch says. -/
theorem usmmInit_ok_iff (new : ¬ hasMagic m c.base) {m' : Mem} :
    usmmInit c (some c.base) m = .ok (c.base, m') ↔
      ((firstTime c c.base).Within (InMapping c) m ∧ 0 < c.slabSize ∧ c.slabCount < 2 ^ 31) ∧
        m' = (firstTime c c.base).exec m := by
  have prog : usmmInitProg c c.base m = firstTime c c.base m := if_neg new
  have inside : (usmmInitProg c c.base).inside c.base (c.base + c.mapLength) m = true ↔
      (firstTime c c.base).Within (InMapping c) m := by
    rw [Prog.inside_iff, Prog.Within, prog]
    rfl
  have slab : c.slab ≠ 0 ↔ 0 < c.slabSize := by
    rw [Nat.pos_iff_ne_zero, Ne, Ne, not_iff_not]
    exact BitVec.toNat_inj.symm
  have exec : (usmmInitProg c c.base).exec m = (firstTime c c.base).exec m := by
    rw [Prog.exec, prog, Prog.exec]
  rw [usmmInit]
  split
  · rename_i ends
    rw [Except.ok.injEq, Prod.mk.injEq, exec, eq_comm (a := m'), and_iff_right rfl]
    obtain ⟨positive, counted⟩ := ends.2.resolve_left new
    exact (and_iff_right ⟨inside.mp ends.1, slab.mp positive, counted⟩).symm
  · rename_i stuck
    refine iff_of_false (fun same => by cases same) ?_
    rintro ⟨⟨within, positive, counted⟩, -⟩
    exact stuck ⟨inside.mpr within, .inr ⟨slab.mpr positive, counted⟩⟩

/-! ## What has to be mapped -/

/-- A branch that stays in the mapping has cleared the first slab and set every bit of
the bitmap. -/
theorem UsmmConf.Completes.of_within (room : c.base + c.mapLength ≤ 2 ^ 63)
    (counted : c.slabCount < 2 ^ 31) (within : (firstTime c c.base).Within (InMapping c) m) :
    c.Completes := by
  refine ⟨?_, ?_, counted⟩
  · by_contra short
    have last : Write.u8 (c.base + c.mapLength) 0 ∈ clearProg c c.base m := by
      refine List.mem_append_left _ (List.mem_map.mpr ⟨c.mapLength, ?_, rfl⟩)
      exact List.mem_range.mpr (by omega)
    have outside := within.left _ last (c.base + c.mapLength) ⟨le_rfl, Nat.lt_succ_self _⟩
    exact absurd outside.2 (lt_irrefl _)
  · have control := (control_spec (c := c) (m := (clearProg c c.base).exec m)
      (by simp only [usmmSlabBitmapOffset]; omega) fun i below => by
        rw [exec_clearProg, if_pos (by omega), Nat.add_sub_cancel_left]).2
    have bits := within.right.left.right.left.left.of_reading
    rw [control.bitmap] at bits
    obtain ⟨_, last⟩ := bits.last (by decide)
    have byte := last _ List.mem_cons_self _ ⟨le_rfl, Nat.lt_succ_self _⟩
    have upper := byte.2
    simp only [usmmSlabBitmapOffset, usmmSlabBitmapSize, Write.u8] at upper
    omega

/-! ## The stages -/

section Stages

variable (header : 128 ≤ c.slabSize) (room : c.base + c.length.toNat < 2 ^ 64)

/-- From the bitmap on. -/
def BitmapArea (c : UsmmConf) (x : Nat) : Prop :=
  InMapping c x ∧ c.base + usmmSlabBitmapOffset ≤ x

/-- The bits are inside, however many there are to clear. -/
theorem bitmapProg_within (header : 128 ≤ c.slabSize) (completes : c.Completes)
    (control : Control c m) : (bitmapProg c.base).Within (BitmapArea c) m := by
  have structures := completes.structures
  have long := c.length_le_mapLength
  have slabs : 128 * c.slabCount ≤ c.length.toNat := by
    have divided := Nat.div_mul_le_self c.length.toNat c.slabSize
    rw [← c.slabCount_eq, Nat.mul_comm] at divided
    exact (Nat.mul_le_mul_right _ header).trans divided
  have bit : ∀ {i}, i / 8 < 1024 * 1024 ∨ i < c.slabCount → ∀ x,
      Span (c.base + usmmSlabBitmapOffset + i / 8) 1 x → BitmapArea c x := by
    intro i bound x span
    simp only [Span, usmmSlabBitmapOffset, BitmapArea, InMapping] at span ⊢
    omega
  have set : ∀ {i} m, i / 8 < 1024 * 1024 ∨ i < c.slabCount →
      (bitmapSetProg (c.base + usmmSlabBitmapOffset) i).Within (BitmapArea c) m := by
    intro i m bound w member x covers
    obtain rfl := List.mem_singleton.mp member
    exact bit bound x covers
  have clr : ∀ {i} m, i < c.slabCount → (bitmapClrProg (c.base + usmmSlabBitmapOffset) i).Within
      (BitmapArea c) m := by
    intro i m bound w member x covers
    obtain rfl := List.mem_singleton.mp member
    exact bit (.inr bound) x covers
  have first : (setAllProg c.base).Within (BitmapArea c) m := by
    refine Prog.Within.reading ?_
    rw [control.bitmap]
    exact (Prog.loop_rule (I := fun _ _ => True) trivial fun i m _ below _ =>
      ⟨set m (.inl (by simp only [usmmSlabBitmapSize] at below; omega)), trivial⟩).1
  have control₁ := control.of_above (first.exec.mono fun x => And.right)
  have second : (clrSlabsProg c.base).Within (BitmapArea c) ((setAllProg c.base).exec m) := by
    refine Prog.Within.reading (Prog.Within.reading ?_)
    rw [control₁.bitmap, control₁.length, control₁.slab, intOfSize_slabCount completes.counted]
    exact (Prog.loop_rule (I := fun _ _ => True) trivial fun i m _ below _ =>
      ⟨clr m (by omega), trivial⟩).1
  have control₂ := control₁.of_above (second.exec.mono fun x => And.right)
  refine first.seq (second.seq (Prog.Within.reading ?_))
  rw [control₂.bitmap]
  exact set _ (.inl (by decide))

/-- Before turn `i`: the last node of `free_slabs` is the head, or that of the slab before. -/
structure ListTail (c : UsmmConf) (i : Nat) (m : Mem) : Prop where
  control : Control c m
  last : (u64 m (c.base + 112 + 8)).toNat = freeNode c (i - 1)

theorem Control.of_listHeads {m' : Mem} {F : Nat → Prop} (control : Control c m)
    (changes : ChangesOnly F m m') (above : ∀ x, F x → c.base + 104 ≤ x) : Control c m' :=
  control.of_changesOnly changes fun x _ upper inside => by
    have := above x inside
    omega

include header room in
theorem slabTurn_tail {i : Nat} (positive : 1 ≤ i) (below : i < c.slabCount) (tail : ListTail c i m) :
    (slabTurn c c.base i).Within (InMapping c) m ∧ ListTail c (i + 1) ((slabTurn c c.base i).exec m) := by
  have start := c.slabAddr_ge positive
  have stop := c.slabAddr_end below
  have long := c.length_le_mapLength
  obtain ⟨q, last⟩ : ∃ q, freeNode c (i - 1) = q := ⟨_, rfl⟩
  have place : c.base + 112 ≤ q ∧ q + 8 ≤ c.slabAddr i ∧ (q = c.base + 112 ∨ c.base + 128 ≤ q) := by
    rw [← last]
    rcases Nat.eq_zero_or_pos (i - 1) with first | later
    · rw [first, freeNode_zero]
      omega
    · have above := c.slabAddr_ge later
      have before := c.slabAddr_mono (show i - 1 < i by omega)
      rw [freeNode_pos later]
      omega
  -- `usmm_slab_init`
  have init : (Prog.const (usmmSlabInitWrites (c.slabAddr i))).Within
      (Span (c.slabAddr i) slabHeaderSize) m := fun _ member => usmmSlabInitWrites_within _ member
  have frame₁ := init.exec
  have control₁ := tail.control.of_listHeads frame₁ fun x span => by simp only [Span] at span; omega
  have last₁ : (u64 _ (c.base + 112 + 8)).toNat = q :=
    (congrArg BitVec.toNat (frame₁.u64 fun x _ upper span => by
      simp only [Span] at span; omega)).trans (tail.last.trans last)
  generalize made₁ : (Prog.const (usmmSlabInitWrites (c.slabAddr i))).exec m = m₁
    at frame₁ control₁ last₁
  -- `list_add_tail`
  have link : (listAddTail (c.slabAddr i + 8) (c.base + 112)).Within
      (fun x => InMapping c x ∧ c.base + 104 ≤ x) m₁ := by
    refine listAddTail_within last₁ (fun x span => ?_) (fun x span => ?_) fun x span => ?_ <;>
    · simp only [Span, InMapping] at span ⊢
      omega
  have control₂ := control₁.of_listHeads link.exec fun x => And.right
  have last₂ : (u64 ((listAddTail (c.slabAddr i + 8) (c.base + 112)).exec m₁)
      (c.base + 112 + 8)).toNat = c.slabAddr i + 8 := by
    rw [exec_listAddTail last₁, u64_setU64_of_disjoint _ _ (by omega),
      u64_setU64_of_disjoint _ _ (by omega), u64_setU64_of_disjoint _ _ (by omega), u64_setU64,
      u64_ofNat_toNat (by omega)]
  generalize made₂ : (listAddTail (c.slabAddr i + 8) (c.base + 112)).exec m₁ = m₂
    at control₂ last₂
  -- `u->stat_free_slabs ++`
  have count : ∀ v, (Prog.const [Write.u32 (c.base + 104) v]).Within (Span (c.base + 104) 4) m₂ := by
    intro v w member x covers
    obtain rfl := List.mem_singleton.mp member
    exact covers
  have frame₃ := (count (statFreeSlabs m₂ c.base + 1)).exec
  rw [slabTurn_eq, Prog.exec_seq, Prog.exec_seq, Prog.exec_reading, made₁, made₂]
  refine ⟨Prog.Within.seq ?_ (Prog.Within.seq ?_ (Prog.Within.reading ?_)), ?_, ?_⟩
  · refine init.mono fun x span => ?_
    simp only [Span, slabHeaderSize, InMapping] at span ⊢
    omega
  · rw [made₁]
    exact link.mono fun x => And.left
  · rw [made₁, made₂]
    refine (count _).mono fun x span => ?_
    simp only [Span, InMapping] at span ⊢
    omega
  · exact control₂.of_listHeads frame₃ fun x => And.left
  · rw [Nat.add_sub_cancel, freeNode_pos positive, ← last₂]
    refine congrArg BitVec.toNat (frame₃.u64 fun x lower _ span => ?_)
    simp only [Span] at span
    omega

/-- From the configuration to the last slab. -/
theorem slabsProg_tail (header : 128 ≤ c.slabSize) (room : c.base + c.length.toNat < 2 ^ 64)
    (completes : c.Completes) (magic : hasMagic m c.base) :
    (slabsProg c c.base).Within (InMapping c) m ∧ Control c ((slabsProg c c.base).exec m) ∧
      (c.slabCount ≤ 1 → Link ((slabsProg c c.base).exec m) (c.base + 112) (c.base + 112)) := by
  have structures := completes.structures
  have long := c.length_le_mapLength
  rw [UsmmConf.mapLength] at structures
  obtain ⟨within₁, control₁⟩ := control_spec (show c.base + usmmSlabBitmapOffset < 2 ^ 64 by
    simp only [usmmSlabBitmapOffset]; omega) magic
  generalize exec₁ : (Prog.const (confWrites c c.base ++ pointerWrites c.base)).exec m = m₁
    at control₁
  have within₂ := bitmapProg_within header completes control₁
  have control₂ := control₁.of_above (within₂.exec.mono fun x => And.right)
  generalize exec₂ : (bitmapProg c.base).exec m₁ = m₂ at control₂
  have within₃ := initListHead_within (c.base + 128) m₂
  have control₃ := control₂.of_listHeads within₃.exec fun x span => by simp only [Span] at span; omega
  generalize exec₃ : (Prog.const (initListHead (c.base + 128))).exec m₂ = m₃ at control₃
  have within₄ := initListHead_within (c.base + 112) m₃
  have control₄ := control₃.of_listHeads within₄.exec fun x span => by simp only [Span] at span; omega
  have free₄ := initListHead_link (show c.base + 112 < 2 ^ 64 by omega) m₃
  generalize exec₄ : (Prog.const (initListHead (c.base + 112))).exec m₃ = m₄ at control₄ free₄
  have start : ListTail c 1 m₄ := ⟨control₄, by rw [Nat.sub_self, freeNode_zero, free₄.2]⟩
  obtain ⟨within₅, done⟩ := @Prog.loop_rule m₄ (InMapping c) (ListTail c) (slabTurn c c.base) 1
    (c.slabCount - 1) start fun i m lower upper tail =>
      slabTurn_tail header room lower (by omega) tail
  have result : (slabsProg c c.base).exec m =
      (Prog.loop 1 (c.slabCount - 1) (slabTurn c c.base)).exec m₄ := by
    rw [slabsProg, Prog.exec_seq, Prog.exec_seq, Prog.exec_seq, Prog.exec_seq, exec₁, exec₂, exec₃,
      exec₄]
  rw [result]
  refine ⟨?_, done.control, fun few => ?_⟩
  · rw [slabsProg]
    refine (within₁.mono fun x _ => ?_).seq (Prog.Within.seq (exec₁ ▸ within₂.mono fun x => And.left)
      (Prog.Within.seq ?_ (Prog.Within.seq ?_ ?_)))
    · simp only [InMapping]; omega
    · rw [exec₁, exec₂]
      refine within₃.mono fun x span => ?_
      simp only [Span, InMapping] at span ⊢; omega
    · rw [exec₁, exec₂, exec₃]
      refine within₄.mono fun x span => ?_
      simp only [Span, InMapping] at span ⊢; omega
    · rw [exec₁, exec₂, exec₃, exec₄]
      exact within₅
  · rw [show c.slabCount - 1 = 0 by omega, Prog.loop, Prog.exec_const, applyAll_nil]
    exact free₄

/-- **The first-time branch stays in the mapping** and leaves the control block in place. -/
theorem firstTime_keeps (header : 128 ≤ c.slabSize) (room : c.base + c.length.toNat < 2 ^ 64)
    (completes : c.Completes) (m : Mem) :
    (firstTime c c.base).Within (InMapping c) m ∧ Control c ((firstTime c c.base).exec m) ∧
      (c.slabCount ≤ 1 → ListAt ((firstTime c c.base).exec m) (c.base + 112) []) := by
  have first := completes.first
  have structures := completes.structures
  have long := c.length_le_mapLength
  have clear : (clearProg c c.base).Within (InMapping c) m := by
    intro w member x covers
    rcases List.mem_append.mp member with zero | magic
    · obtain ⟨i, below, rfl⟩ := List.mem_map.mp zero
      have := List.mem_range.mp below
      simp only [Write.Covers, Write.u8, Span, InMapping] at covers ⊢
      omega
    · obtain ⟨i, below, rfl⟩ := List.mem_map.mp magic
      have := List.mem_range.mp below
      simp only [Write.Covers, Write.u8, Span, InMapping] at covers ⊢
      omega
  have magic : hasMagic ((clearProg c c.base).exec m) c.base := fun i below => by
    rw [exec_clearProg, if_pos (by omega), Nat.add_sub_cancel_left]
  obtain ⟨slabs, control, empty⟩ := slabsProg_tail header room completes magic
  have low : c.base + usmmSlotsOffset < 2 ^ 64 := by
    rw [UsmmConf.mapLength] at structures
    simp only [usmmSlotsOffset]
    omega
  obtain ⟨classes, control', -⟩ := classLoop_spec low control le_rfl
  have frame := classes.exec
  have span : ∀ x, ClassSpan c usmmSlabArrayMax x →
      c.base + 65536 ≤ x ∧ x < c.base + 66192 := by
    intro x inside
    simp only [ClassSpan, classHead, usmmSlabsOffset, usmmSlabArrayMax] at inside
    omega
  rw [firstTime, Prog.exec_seq, Prog.exec_seq]
  refine ⟨clear.seq (slabs.seq (classes.mono fun x inside => ?_)), control', fun few => ?_⟩
  · have := span x inside
    simp only [InMapping]
    omega
  · refine listAt_nil ((empty few).congr (frame.u64 ?_) (frame.u64 ?_)) <;>
    · intro x _ upper inside
      have := span x inside
      omega

end Stages

/-! ## The two branches -/

/-- **When first initialisation comes to its end**, for slabs of 128 bytes and more. -/
theorem usmmInit_returns_iff (header : 128 ≤ c.slabSize) (room : c.base + c.mapLength ≤ 2 ^ 63)
    (new : ¬ hasMagic m c.base) :
    (∃ m', usmmInit c (some c.base) m = .ok (c.base, m')) ↔ c.Completes := by
  have long := c.length_le_mapLength
  constructor
  · rintro ⟨m', result⟩
    obtain ⟨⟨within, -, counted⟩, -⟩ := (usmmInit_ok_iff new).mp result
    exact .of_within room counted within
  · intro completes
    have within := (firstTime_keeps header (by omega) completes m).1
    exact ⟨_, (usmmInit_ok_iff new).mpr ⟨⟨within, by omega, completes.counted⟩, rfl⟩⟩

theorem usmmInit_first (roomy : c.Roomy) (new : ¬ hasMagic m c.base) :
    usmmInit c (some c.base) m = .ok (c.base, (firstTime c c.base).exec m) := by
  have large := roomy.large
  have within := (firstTime_keeps (by omega) roomy.room roomy.completes m).1
  exact (usmmInit_ok_iff new).mpr ⟨⟨within, by omega, roomy.counted⟩, rfl⟩

/-- Storing a pointer that is already there. -/
theorem setU64_of_toNat {a v : Nat} (same : (u64 m a).toNat = v) :
    setU64 m a (BitVec.ofNat 64 v) = m := by
  rw [← same, BitVec.ofNat_toNat, BitVec.setWidth_eq, setU64_u64]

/-- **Reload changes nothing.**  With the control block in place `usmm_init`
finds the magic and stores the pointers that are there. -/
theorem usmmInit_reload (roomy : c.Roomy) (control : Control c m) :
    usmmInit c (some c.base) m = .ok (c.base, m) := by
  have pointers : applyAll (pointerWrites c.base) m = m := by
    simp only [pointerWrites, applyAll_cons, applyAll_nil, Write.apply_u64]
    rw [setU64_of_toNat control.stats, setU64_of_toNat control.slabs,
      setU64_of_toNat control.bitmap, setU64_of_toNat control.slots]
  have prog : usmmInitProg c c.base m = pointerWrites c.base := if_pos control.magic
  have exec : (usmmInitProg c c.base).exec m = m := by rw [Prog.exec, prog, pointers]
  have structures := roomy.completes.structures
  have inside : (usmmInitProg c c.base).inside c.base (c.base + c.mapLength) m = true := by
    rw [Prog.inside_iff]
    intro w member x covers
    rw [prog] at member
    simp only [pointerWrites, List.mem_cons, List.not_mem_nil, or_false] at member
    rcases member with rfl | rfl | rfl | rfl <;>
    · simp only [Write.Covers, Write.u64, Span] at covers
      omega
  rw [usmmInit, if_pos ⟨inside, .inl control.magic⟩, exec]

/-- A new mapping of zeros does not carry the magic. -/
theorem blank_new (u : Nat) : ¬ hasMagic (fun _ => 0) u := fun magic =>
  absurd (show (0 : BitVec 8) = gsMagic.getD 0 0 from magic 0 (by decide)) (by decide)

end Itaro.Usmm
