/-
# Usmm.NoFault -- no assertion fails

In a build with assertions a failed one is the end of every process attached to
the region.  The conditions on a slab are consequences of the invariant; the one
on the range of the search is not met by a request that comes to a single slab,
which is any request of at most `conf.slab` bytes.
-/
import Itaro.Usmm.Ownership

namespace Itaro.Usmm

set_option autoImplicit false

open Theory

variable {c : UsmmConf} {w w' : World} {b : Build}

/-- Heap requests are from 1 byte up to the length of the region. -/
def Ranged (c : UsmmConf) : Act → Prop
  | .heapAlloc size => 1 ≤ size.toNat ∧ size.toNat ≤ c.length.toNat
  | _ => True

/-- Heap requests are of more than one slab; rounding up stays below 2^64 bytes
and the slabs are counted by an `int`. -/
def Spacious (c : UsmmConf) : Act → Prop
  | .heapAlloc size => c.slabSize < size.toNat ∧ size.toNat + c.slabSize ≤ 2 ^ 64 ∧
      size.toNat ≤ (2 ^ 31 - 1) * c.slabSize
  | _ => True

/-- In a state of the invariant an action fails no assertion. -/
theorem Inv.perform_ok (inv : Inv c w) (aligned : Aligned c) (b : Build) {a : Act}
    (allowed : Allowed w a) (spacious : Spacious c a) : ∃ w', perform b w a = .ok w' := by
  have roomy := aligned.toRoomy
  cases a with
  | heapAlloc size =>
      obtain ⟨k, power⟩ := aligned.power
      obtain ⟨more, room, count⟩ := spacious
      have range := decide_eq_true (one_lt_heapNum power more room count)
      rw [perform, usmmHeapAlloc_eq roomy inv.us inv.control, range, assert_true]
      by_cases refused : heapAnswer c w.region.mem size < 0
      · rw [Except.bind, if_pos refused]
        exact ⟨_, rfl⟩
      · rw [Except.bind, if_neg refused]
        exact ⟨_, rfl⟩
  | heapFree ptr => exact ⟨_, rfl⟩
  | sliceAlloc size => exact ⟨_, rfl⟩
  | sliceFree ptr =>
      cases allowed with
      | inl null =>
          subst null
          exact ⟨_, rfl⟩
      | inr held =>
          obtain ⟨x, slice, rfl⟩ := held
          obtain ⟨r', k, j, h, result, -⟩ :=
            usmmSliceFree_spec roomy inv b slice (aligned.ownerFound x.ptr)
          rw [perform, result]
          exact ⟨_, rfl⟩
  | slotSet slot ptr =>
      have bound : slot < usmmSlotsMax := allowed
      rw [perform, usmmSlotSet, decide_eq_true bound, assert_true]
      exact ⟨_, rfl⟩
  | slotGet slot =>
      have bound : slot < usmmSlotsMax := allowed
      rw [perform, usmmSlotGet, decide_eq_true bound, assert_true]
      exact ⟨_, rfl⟩
  | slotAppend ptr => exact ⟨_, rfl⟩
  | write addr byte => exact ⟨_, rfl⟩

/-- **No fault** after a run in which each step heeds the defects, for a request
of more than one slab. -/
theorem no_fault (aligned : Aligned c) (starts : Starts c w) {as : List Act}
    (run : Run (fun w a w' => Step .debug w a w' ∧ Heeds c w a) w as w') {a : Act}
    (allowed : Allowed w' a) (spacious : Spacious c a) : ∃ w'', perform .debug w' a = .ok w'' :=
  (run_inv aligned.toRoomy starts
    (run.mono fun _ a _ ⟨step, heeds⟩ => ⟨step, heeds, aligned.finds a⟩)).perform_ok aligned .debug
      allowed spacious

theorem no_fault_testConf : ∃ w w' p, Starts testConf w ∧
    Run (fun w a w' => Step .debug w a w' ∧ Heeds testConf w a) w (roundTrip p) w' ∧
    ∃ w'', perform .debug w' (.heapAlloc twoSlabs) = .ok w'' := by
  obtain ⟨w, w', p, starts, heeding⟩ := exists_run_roundTrip .debug
  have run := heeding.mono fun _ _ _ step => And.intro step.1 step.2.1
  exact ⟨w, w', p, starts, run,
    no_fault testConf_aligned starts run trivial ⟨by decide, by decide, by decide⟩⟩

/-- A request of one slab fails the assertion on the range. -/
theorem one_slab_faults : ¬ ∀ (c : UsmmConf) (w w' : World) (as : List Act) (a : Act), Aligned c →
    Starts c w → Run (fun w a w' => Step .debug w a w' ∧ Ranged c a) w as w' → Allowed w' a →
    Ranged c a → ∃ w'', perform .debug w' a = .ok w'' := by
  intro safe
  obtain ⟨w, starts⟩ := exists_starts testConf_roomy
  have inv := starts_inv testConf_roomy starts
  obtain ⟨w', performed⟩ := safe testConf w w [] (.heapAlloc (2 * 1024 * 1024)) testConf_aligned
    starts (.nil w) trivial ⟨by decide, by decide⟩
  have range : decide (1 < heapNum (2 * 1024 * 1024) testConf.slab) = false := by decide
  rw [perform, usmmHeapAlloc_eq testConf_roomy inv.us inv.control, range, assert_debug_false]
    at performed
  cases performed

end Itaro.Usmm
