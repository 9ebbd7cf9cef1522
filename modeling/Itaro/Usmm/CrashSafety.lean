/-
# Usmm.CrashSafety -- dying inside usmm_init

The first-time branch clears the first slab, sets the magic and only then writes
the bitmap, the lists and the counters.  The magic is what the next process goes
by.  Until its 31st byte is written (the 32nd is NUL, and the slab is zero by
then) the next `usmm_init` starts over, and since it clears the slab first it
forgets what the dead process wrote (`recover_early`).  From then until the last
write it reloads a region that is not finished: the last word of the last class
list is still zero (`unfinished`).

So recovery is exact on the prefixes before the magic and on the whole sequence,
and on no other (`usmmInit_crash_iff`).
-/
import Itaro.Usmm.InitBounds

namespace Itaro.Usmm

set_option autoImplicit false

open Theory

/-- After dying at write `k` of first initialisation, `usmm_init` run to its end
leaves what an uninterrupted one leaves. -/
def Recovers (c : UsmmConf) (m : Mem) (k : Nat) : Prop :=
  ∃ m', usmmInit c (some c.base) ((firstTime c c.base).crash m k) = .ok (c.base, m') ∧
    usmmInit c (some c.base) m = .ok (c.base, m') ∧ Fresh c m'

variable {c : UsmmConf}

/-! ## Before the magic -/

theorem zeroWrites_take {u n k : Nat} (below : k ≤ n) :
    (zeroWrites u n).take k = zeroWrites u k := by
  rw [zeroWrites, ← List.map_take, List.take_range, Nat.min_eq_left below, zeroWrites]

theorem magicWrites_take {u k : Nat} (below : k ≤ 32) : (magicWrites u).take k =
    (List.range k).map fun i => .u8 (u + i) (gsMagic.getD i 0) := by
  rw [magicWrites, ← List.map_take, List.take_range, Nat.min_eq_left below]

theorem zeroWrites_length (u n : Nat) : (zeroWrites u n).length = n := by
  rw [zeroWrites, List.length_map, List.length_range]

theorem magicWrites_length (u : Nat) : (magicWrites u).length = 32 := by
  rw [magicWrites, List.length_map, List.length_range]

theorem clearProg_length (u : Nat) (m : Mem) : (clearProg c u m).length = c.slabSize + 32 := by
  rw [clearProg, Prog.const, List.length_append, zeroWrites_length, magicWrites_length]

/-- Death inside the `memset`. -/
theorem crash_clear {k : Nat} (early : k ≤ c.slabSize) (m : Mem) :
    (clearProg c c.base).crash m k = fill m c.base k 0#8 := by
  rw [Prog.crash, clearProg, Prog.const, List.take_append_of_le_length
    (by rw [zeroWrites_length]; exact early), zeroWrites_take early, applyAll_zeroWrites]

/-- Death inside the `memcpy` of the magic, or right after it. -/
theorem crash_magic {j : Nat} (bound : j ≤ 32) (m : Mem) (x : Nat) :
    (clearProg c c.base).crash m (c.slabSize + j) x =
      if c.base ≤ x ∧ x < c.base + j then gsMagic.getD (x - c.base) 0
      else if c.base ≤ x ∧ x < c.base + c.slabSize then 0#8 else m x := by
  have take : (zeroWrites c.base c.slabSize ++ magicWrites c.base).take (c.slabSize + j) =
      zeroWrites c.base c.slabSize ++
        (List.range j).map fun i => .u8 (c.base + i) (gsMagic.getD i 0) := by
    rw [List.take_append, zeroWrites_length, Nat.add_sub_cancel_left, magicWrites_take bound,
      List.take_of_length_le (by rw [zeroWrites_length]; omega)]
  rw [Prog.crash, clearProg, Prog.const, take, applyAll_append, applyAll_zeroWrites]
  exact applyAll_copy (fun i => gsMagic.getD i 0) _ c.base j x

theorem crash_firstTime_early {k : Nat} (early : k ≤ c.slabSize + 32) (m : Mem) :
    (firstTime c c.base).crash m k = (clearProg c c.base).crash m k :=
  Prog.crash_seq_of_le (by rw [clearProg_length]; exact early)

/-- Nothing outside the first slab has been written, and the magic is not there. -/
theorem crash_before_magic (roomy : c.Roomy) {m : Mem} (new : ¬ hasMagic m c.base) {k : Nat}
    (early : k < c.slabSize + 31) :
    ¬ hasMagic ((firstTime c c.base).crash m k) c.base ∧
      ∀ x, ¬ (c.base ≤ x ∧ x < c.base + c.slabSize) → (firstTime c c.base).crash m k x = m x := by
  have large := roomy.large
  rw [crash_firstTime_early (by omega)]
  by_cases clearing : k ≤ c.slabSize
  · rw [crash_clear clearing]
    refine ⟨fun magic => ?_, fun x outside => if_neg (by omega)⟩
    rcases Nat.eq_zero_or_pos k with rfl | positive
    · have same : fill m c.base 0 0#8 = m := by
        funext x
        exact if_neg (by omega)
      rw [same] at magic
      exact new magic
    · -- the first byte is zero
      have byte := magic 0 (by decide)
      rw [fill, if_pos (by omega)] at byte
      exact absurd byte (by decide)
  · obtain ⟨j, rfl⟩ : ∃ j, k = c.slabSize + j := ⟨k - c.slabSize, by omega⟩
    refine ⟨fun magic => ?_, fun x outside => ?_⟩
    · -- the last byte but one is zero
      have byte := magic 30 (by decide)
      rw [crash_magic (by omega), if_neg (by omega), if_pos (by omega)] at byte
      exact absurd byte (by decide)
    · rw [crash_magic (by omega), if_neg (by omega), if_neg (by omega)]

/-- Clearing the slab erases what was in it. -/
theorem exec_firstTime_congr (roomy : c.Roomy) {m m' : Mem}
    (same : ∀ x, ¬ (c.base ≤ x ∧ x < c.base + c.slabSize) → m' x = m x) :
    (firstTime c c.base).exec m' = (firstTime c c.base).exec m := by
  have large := roomy.large
  have clear : (clearProg c c.base).exec m' = (clearProg c c.base).exec m := by
    funext x
    rw [exec_clearProg, exec_clearProg]
    split
    · rfl
    · split
      · rfl
      · rename_i outside
        exact same x outside
  rw [firstTime, Prog.exec_seq, Prog.exec_seq, Prog.exec_seq, Prog.exec_seq, clear]

theorem recover_early (roomy : c.Roomy) {m : Mem} (new : ¬ hasMagic m c.base) {k : Nat}
    (early : k < c.slabSize + 31) : Recovers c m k := by
  obtain ⟨still, same⟩ := crash_before_magic roomy new early
  refine ⟨(firstTime c c.base).exec m, ?_, usmmInit_first roomy new, firstTime_spec roomy m⟩
  rw [usmmInit_first roomy still, exec_firstTime_congr roomy same]

/-! ## After the last write -/

theorem recover_complete (roomy : c.Roomy) {m : Mem} (new : ¬ hasMagic m c.base) {k : Nat}
    (late : (firstTime c c.base m).length ≤ k) : Recovers c m k := by
  have fresh := firstTime_spec roomy m
  refine ⟨(firstTime c c.base).exec m, ?_, usmmInit_first roomy new, fresh⟩
  rw [Prog.crash_of_length_le late, usmmInit_reload roomy fresh.control]

/-! ## In between -/

/-- The magic and the last word to be written. -/
def Tail (c : UsmmConf) (x : Nat) : Prop :=
  c.base ≤ x ∧ x < c.base + 32 ∨ Span (classHead c.base 40 + 8) 8 x

/-- After the magic, only the very last write touches the magic or the last word. -/
theorem firstTime_tail (roomy : c.Roomy) (m : Mem) : ∃ front last,
    firstTime c c.base m = clearProg c c.base m ++ (front ++ [last]) ∧
      ∀ w ∈ front, ∀ x, w.Covers x → ¬ Tail c x := by
  have large := roomy.large
  obtain ⟨slabsWithin, prepared⟩ := slabsProg_spec roomy (clearProg_spec roomy m)
  obtain ⟨classWithin, control, -⟩ :=
    @classLoop_spec c (roomy.offset_lt (by decide)) _ prepared.slabs.control 40 (by decide)
  have unfolded : firstTime c c.base m = clearProg c c.base m ++
      (slabsProg c c.base ((clearProg c c.base).exec m) ++
        (Prog.loop 0 40 (classTurn c.base)
          ((slabsProg c c.base).exec ((clearProg c c.base).exec m)) ++
        classTurn c.base (0 + 40) ((Prog.loop 0 40 (classTurn c.base)).exec
          ((slabsProg c c.base).exec ((clearProg c c.base).exec m))))) := rfl
  rw [unfolded, classTurn_eq control]
  generalize (slabsProg c c.base).exec ((clearProg c c.base).exec m) = m₁ at classWithin
  generalize (clearProg c c.base).exec m = m₀ at slabsWithin
  refine ⟨slabsProg c c.base m₀ ++ (Prog.loop 0 40 (classTurn c.base) m₁ ++
    [.u64 (classHead c.base 40) (BitVec.ofNat 64 (classHead c.base 40))]),
    .u64 (classHead c.base 40 + 8) (BitVec.ofNat 64 (classHead c.base 40)), ?_, ?_⟩
  · simp only [initListHead, Nat.zero_add, List.append_assoc, List.cons_append, List.nil_append]
  · intro w member x covers tail
    simp only [Tail, Span, classHead, usmmSlabsOffset] at tail
    rcases List.mem_append.mp member with slabs | member
    · have span := slabsWithin w slabs x covers
      simp only [SlabsSpan, usmmStatSliceOffset, usmmSlabBitmapOffset] at span
      omega
    · rcases List.mem_append.mp member with classes | first
      · have span := classWithin w classes x covers
        simp only [ClassSpan, classHead, usmmSlabsOffset] at span
        omega
      · rw [List.mem_singleton] at first
        subst first
        simp only [Write.Covers, Write.u64, Span, classHead, usmmSlabsOffset] at covers
        omega

/-- From the magic on and before the end, the magic is there and the last word is zero. -/
theorem unfinished (roomy : c.Roomy) (m : Mem) {k : Nat} (late : c.slabSize + 31 ≤ k)
    (short : k < (firstTime c c.base m).length) :
    hasMagic ((firstTime c c.base).crash m k) c.base ∧
      u64 ((firstTime c c.base).crash m k) (classHead c.base 40 + 8) = 0 := by
  have large := roomy.large
  -- what the clearing leaves in these places
  have cleared : ∀ j, 31 ≤ j → j ≤ 32 →
      hasMagic ((clearProg c c.base).crash m (c.slabSize + j)) c.base ∧
        ∀ x, Span (classHead c.base 40 + 8) 8 x →
          (clearProg c c.base).crash m (c.slabSize + j) x = 0#8 := by
    intro j lower upper
    refine ⟨fun i below => ?_, fun x span => ?_⟩
    · rw [crash_magic upper]
      by_cases written : i < j
      · rw [if_pos (by omega), Nat.add_sub_cancel_left]
      · obtain rfl : i = 31 := by omega
        rw [if_neg (by omega), if_pos (by omega)]
        decide
    · simp only [Span, classHead, usmmSlabsOffset] at span
      rw [crash_magic upper, if_neg (by omega), if_pos (by omega)]
  have zeroWord : ∀ m', (∀ x, Span (classHead c.base 40 + 8) 8 x → m' x = 0#8) →
      u64 m' (classHead c.base 40 + 8) = 0 := fun m' zero => by
    rw [u64, load_eq_zero fun x lower upper => zero x ⟨lower, upper⟩]
    rfl
  by_cases early : k ≤ c.slabSize + 32
  · obtain ⟨j, rfl⟩ : ∃ j, k = c.slabSize + j := ⟨k - c.slabSize, by omega⟩
    obtain ⟨magic, zero⟩ := cleared j (by omega) (by omega)
    rw [crash_firstTime_early early]
    exact ⟨magic, zeroWord _ zero⟩
  · obtain ⟨magic, zero⟩ := cleared 32 (by omega) le_rfl
    obtain ⟨front, last, split, avoids⟩ := firstTime_tail roomy m
    have length := clearProg_length (c := c) c.base m
    have whole : (clearProg c c.base).crash m (c.slabSize + 32) = (clearProg c c.base).exec m :=
      Prog.crash_of_length_le (by rw [length])
    rw [split, List.length_append, List.length_append, List.length_singleton, length] at short
    -- only writes of `front` have followed
    have frame : ChangesOnly (fun x => ¬ Tail c x) ((clearProg c c.base).exec m)
        ((firstTime c c.base).crash m k) := by
      have crash : (firstTime c c.base).crash m k =
          applyAll (front.take (k - (c.slabSize + 32))) ((clearProg c c.base).exec m) := by
        rw [Prog.crash, split, List.take_append, length,
          List.take_of_length_le (by omega), applyAll_append,
          List.take_append_of_le_length (by omega)]
        rfl
      rw [crash]
      exact applyAll_changesOnly (fun w member => avoids w (List.mem_of_mem_take member)) _
    rw [whole] at magic zero
    refine ⟨fun i below => ?_, zeroWord _ fun x span => ?_⟩
    · rw [frame _ (not_not.mpr (.inl ⟨by omega, by omega⟩))]
      exact magic i below
    · rw [frame x (not_not.mpr (.inr span))]
      exact zero x span

theorem not_recovers (roomy : c.Roomy) {m : Mem} {k : Nat} (late : c.slabSize + 31 ≤ k)
    (short : k < (firstTime c c.base m).length) : ¬ Recovers c m k := by
  have large := roomy.large
  rintro ⟨m', reloaded, -, fresh⟩
  obtain ⟨magic, zero⟩ := unfinished roomy m late short
  generalize (firstTime c c.base).crash m k = crashed at reloaded magic zero
  have left := (usmmInit_ok reloaded).2
  rw [Prog.exec, usmmInitProg, if_pos magic] at left
  subst left
  -- reload sets the pointers of the control block and nothing else
  have kept : u64 (applyAll (pointerWrites c.base) crashed) (classHead c.base 40 + 8) = 0 := by
    rw [← zero]
    simp only [pointerWrites, applyAll_cons, applyAll_nil, Write.apply_u64, classHead,
      usmmSlabsOffset]
    simp (disch := omega) only [u64_setU64_of_disjoint]
  have empty := List.isChain_pair.mp (fresh.classes 40 (by decide))
  have prev := empty.2
  rw [kept] at prev
  simp only [classHead, usmmSlabsOffset] at prev
  simp at prev

/-- **When a crash is recovered from.**  The region must not carry the magic to
begin with, so that initialisation is the first. -/
theorem usmmInit_crash_iff (roomy : c.Roomy) (m : Mem) (new : ¬ hasMagic m c.base) (k : Nat) :
    Recovers c m k ↔ k < c.slabSize + 31 ∨ (firstTime c c.base m).length ≤ k := by
  constructor
  · intro recovers
    by_contra between
    rw [not_or, Nat.not_lt, Nat.not_le] at between
    exact not_recovers roomy between.1 between.2 recovers
  · rintro (early | late)
    · exact recover_early roomy new early
    · exact recover_complete roomy new late

/-- A region that was used for something else. -/
def usedBytes : Mem := fun _ => 0xff

theorem usedBytes_new (u : Nat) : ¬ hasMagic usedBytes u := fun magic =>
  absurd (show (0xff : BitVec 8) = gsMagic.getD 0 0 from magic 0 (by decide)) (by decide)

/-- The last byte of the magic is not the last write. -/
theorem magic_unfinished (m : Mem) :
    testConf.slabSize + 32 < (firstTime testConf testConf.base m).length := by
  obtain ⟨front, last, split, -⟩ := firstTime_tail testConf_roomy m
  have length := clearProg_length (c := testConf) testConf.base m
  rw [split, List.length_append, List.length_append, length, List.length_singleton]
  omega

/-- Death before the last two bytes of the magic is recovered from, and death right after
the magic is not. -/
theorem usmmInit_crash_iff_testConf : Recovers testConf usedBytes (testConf.slabSize + 30) ∧
    ¬ Recovers testConf usedBytes (testConf.slabSize + 32) := by
  have iff := usmmInit_crash_iff testConf_roomy usedBytes (usedBytes_new _)
  have unfinished := magic_unfinished usedBytes
  exact ⟨(iff _).mpr (.inl (by omega)), fun recovers => by
    rcases (iff _).mp recovers with early | late <;> omega⟩

/-- Death right after the magic of a new mapping. -/
theorem usmmInit_crash_unsafe :
    ¬ ∀ (c : UsmmConf) (m : Mem), c.Roomy → ¬ hasMagic m c.base → ∀ k, Recovers c m k := by
  intro safe
  exact not_recovers testConf_roomy (m := fun _ => 0) (k := testConf.slabSize + 32) (by omega)
    (magic_unfinished _) (safe testConf (fun _ => 0) testConf_roomy (blank_new _) _)

end Itaro.Usmm
