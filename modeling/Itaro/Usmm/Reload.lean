/-
# Usmm.Reload -- initialising a region again

`usmm_init` on a region that carries the magic stores the four pointers that are
there already and returns.  So in every state in which the control block is
intact a reload changes nothing (`reload_eq`), and a run with reloads anywhere in
it is the run without them (`reload_transparent`).  The control block does not
stay intact in every run: a heap request for no bytes comes to no slabs, is
placed at slab 0 and stores its length word over the magic (`empty_request`).
-/
import Itaro.Usmm.Ownership

namespace Itaro.Usmm

set_option autoImplicit false

open Theory

variable {c : UsmmConf} {w w' : World}

/-- `usmm_init` on the same mapping with the same configuration. -/
def reload (c : UsmmConf) (w : World) : Except InitError World := do
  let (us, m) ← usmmInit c (some c.base) w.mem
  return { w with region := { w.region with us := us, mem := m } }

/-- An action of the client, or a process that attaches to the region. -/
inductive Event
  | act (a : Act)
  | reload

/-- The actions among the events. -/
def Event.act? : Event → Option Act
  | .act a => some a
  | .reload => none

/-- A heeding step, or a reload. -/
def EventStep (c : UsmmConf) (w : World) (e : Event) (w' : World) : Prop :=
  match e with
  | .act a => HeedingStep c .release w a w'
  | .reload => Itaro.Usmm.reload c w = .ok w'

/-- What a reload that changes nothing says about the memory `usmm_init` leaves. -/
theorem mem_of_reload {us : Nat} {m : Mem} (init : usmmInit c (some c.base) w.mem = .ok (us, m))
    (same : reload c w = .ok w) : m = w.mem := by
  rw [reload, init] at same
  exact congrArg World.mem (Except.ok.inj same)

theorem Inv.reload_eq (inv : Inv c w) (roomy : c.Roomy) : reload c w = .ok w := by
  have us := inv.us
  obtain ⟨⟨u, m, lists⟩, blocks, slices⟩ := w
  obtain rfl : u = c.base := us
  rw [reload, usmmInit_reload roomy inv.control]
  rfl

/-- **Reload is transparent.**  Wherever the reloads are, the magic is there, a
further reload changes nothing, and the actions alone lead to the same world. -/
theorem reload_transparent (roomy : c.Roomy) (starts : Starts c w) {es : List Event}
    (run : Run (EventStep c) w es w') :
    hasMagic w'.mem c.base ∧ reload c w' = .ok w' ∧
      Run (HeedingStep c .release) w (es.filterMap Event.act?) w' := by
  have alone : Run (HeedingStep c .release) w (es.filterMap Event.act?) w' := by
    induction run with
    | nil => exact .nil _
    | snoc before last ih =>
        rename_i t t' es e
        rw [List.filterMap_append]
        cases e with
        | act a => exact ih.snoc last
        | reload =>
            have same := (run_inv roomy starts ih).reload_eq roomy
            rw [show Itaro.Usmm.reload c t = .ok t' from last, Except.ok.injEq] at same
            subst same
            rw [show List.filterMap Event.act? [Event.reload] = [] from rfl, List.append_nil]
            exact ih
  have inv := run_inv roomy starts alone
  exact ⟨inv.control.magic, inv.reload_eq roomy, alone⟩

theorem reload_transparent_testConf : ∃ w w', Starts testConf w ∧
    Run (EventStep testConf) w [.act (.heapAlloc twoSlabs), .reload] w' ∧
    hasMagic w'.mem testConf.base ∧ reload testConf w' = .ok w' := by
  obtain ⟨w, starts⟩ := exists_starts testConf_roomy
  have inv := starts_inv testConf_roomy starts
  obtain ⟨r, performed⟩ := inv.perform_twoSlabs starts.blocks .release
  have step : Step .release w (.heapAlloc twoSlabs) _ := ⟨trivial, performed⟩
  have heeding : HeedingStep testConf .release w _ _ := ⟨step, starts.heeds_twoSlabs, trivial⟩
  have after := step_inv testConf_roomy inv heeding.2.1 heeding.2.2 step
  have first : EventStep testConf w (.act (.heapAlloc twoSlabs)) _ := heeding
  have second : EventStep testConf _ .reload _ := after.reload_eq testConf_roomy
  have run := (Run.single first).snoc second
  obtain ⟨magic, again, -⟩ := reload_transparent testConf_roomy starts run
  exact ⟨w, _, starts, run, magic, again⟩

/-! ## A request for no bytes -/

/-- A search for no slabs stops at bit 0 when the first byte is not full. -/
theorem searchRange_zero {m : Mem} {bitmap : Nat} {max : Int} (eight : 8 ≤ max)
    (open' : m bitmap ≠ maxDw) : searchRange m bitmap 0 max = 0 := by
  have inner : firstSome (8 - (0 : Int)).toNat (fun j =>
      if (m (bitmap + 0)).setWidth 32 &&& (lowrin 0).setWidth 32 <<< j = 0 then
        some (0 * 8 + j) else none) = some 0 := by
    refine firstSome_eq_some.mpr ⟨0, by decide, ?_, fun i below => absurd below (by omega)⟩
    have mask : (lowrin 0).setWidth 32 = 0#32 := by decide
    rw [mask, if_pos (by simp)]
  have outer : findNarrow m bitmap 0 max = some 0 := by
    rw [findNarrow]
    refine firstSome_eq_some.mpr ⟨0, ?_, ?_, fun i below => absurd below (by omega)⟩
    · rw [Int.tdiv_eq_ediv_of_nonneg (by omega)]
      omega
    · rw [if_pos (by rw [Nat.add_zero]; exact open'), inner]
  have rin : (0 : Int).tmod 8 = 0 := by decide
  have count : (0 : Int).tdiv 8 = 0 := by decide
  simp only [searchRange, rin, count, if_true, outer]
  rfl

/-- Writing 0 at the start of a region takes the magic away. -/
theorem no_magic (m : Mem) (u : Nat) : ¬ hasMagic (setU32 m u 0) u := by
  intro magic
  have byte := magic 0 (by decide)
  have zero : setU32 m u 0 (u + 0) = 0#8 := by
    rw [setU32, store, if_pos ⟨by omega, by omega⟩]
    simp
  rw [zero] at byte
  exact absurd byte (by decide)

/-- A block of no slabs at slab 0: its length word goes to the start of the region. -/
theorem heapTake_zero {r r' : Region} {p : Nat} (result : heapTake r 0 0 = (r', p)) :
    ∃ m, r'.mem = setU32 m r.us 0 := by
  obtain ⟨r₁, made⟩ : ∃ r₁, addStatFree (r.update fun m =>
    bitmapSetRange m (slabBitmap m r.us) 0 0) (-0) = r₁ := ⟨_, rfl⟩
  have us : r₁.us = r.us := by rw [← made, addStatFree_us, update_us]
  have stop : (((0 : Nat) : Int) + 0).toNat = 0 := by decide
  have word : BitVec.ofInt 32 0 = 0 := by decide
  have unfolded : heapTake r 0 0 = (r₁.update fun m => setU32 m r.us 0, r.us + 4) := by
    simp only [heapTake, stop, word, Nat.sub_self, List.range'_zero, List.foldl_nil, made, us,
      Nat.zero_mul, Nat.add_zero]
  rw [unfolded] at result
  obtain ⟨rfl, -⟩ := Prod.mk.inj result
  exact ⟨r₁.mem, update_mem _ _⟩

/-- One call of `usmm_heap_alloc` with size 0, and the next process to attach
initialises the region from scratch. -/
theorem empty_request : ¬ ∀ (c : UsmmConf) (w w' : World) (as : List Act), Aligned c →
    Starts c w → Run (Step .release) w as w' → reload c w' = .ok w' := by
  intro transparent
  obtain ⟨w, starts⟩ := exists_starts testConf_roomy
  have inv := starts_inv testConf_roomy starts
  have idle := starts.blocks
  have num : heapNum 0 testConf.slab = 0 := by decide
  have open' : w.mem (testConf.base + usmmSlabBitmapOffset) ≠ maxDw := by
    intro full
    have clear := (inv.picks_one idle (by decide)).1
    rw [Passes, if_pos (by decide)] at clear
    have bit := clear.2.2 1 le_rfl (by decide)
    rw [bitmapTest, show testConf.base + usmmSlabBitmapOffset + 1 / 8 = _ from Nat.add_zero _,
      full] at bit
    exact absurd bit (by decide)
  have answer : heapAnswer testConf w.mem 0 = (0 : Nat) := by
    rw [heapAnswer, num]
    exact searchRange_zero (by decide) open'
  obtain ⟨⟨r, p⟩, took⟩ : ∃ t, heapTake w.region 0 0 = t := ⟨_, rfl⟩
  obtain ⟨m, mem⟩ := heapTake_zero took
  have performed : perform .release w (.heapAlloc 0) =
      .ok { region := r, blocks := hold w.blocks p 0, slices := w.slices } := by
    rw [perform, usmmHeapAlloc_answered testConf_roomy inv.us inv.control (assert_release _ _)
      answer, num, took]
    rfl
  have run : Run (Step .release) w [.heapAlloc 0] _ := .single ⟨trivial, performed⟩
  have again := transparent testConf _ _ _ testConf_aligned starts run
  have gone : ¬ hasMagic r.mem testConf.base := by
    rw [mem, inv.us]
    exact no_magic m testConf.base
  have restored := (firstTime_spec testConf_roomy r.mem).control.magic
  have same : (firstTime testConf testConf.base).exec r.mem = r.mem :=
    @mem_of_reload testConf ⟨r, hold w.blocks p 0, w.slices⟩ _ _ (usmmInit_first testConf_roomy gone) again
  rw [same] at restored
  exact gone restored

end Itaro.Usmm
