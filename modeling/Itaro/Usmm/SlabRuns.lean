/-
# Usmm.SlabRuns -- the free list of a slab is exact

One slab and its client: slices are taken and given back, and in between the client
writes what it likes inside the slices it holds.  The free list is threaded through
the slices that are not held, so no such write reaches it.  `Sliced` is the
invariant; `Exact` reads off it that the free list runs through the free slices
once each, that the slices held are distinct and inside the slab, and that the slab
answers `NULL` when it has given all of them.
-/
import Itaro.Theory.Runs
import Itaro.Usmm.Slab

namespace Itaro.Usmm

set_option autoImplicit false

open Theory

/-- A slab in memory and the slices its client holds. -/
structure SlabWorld where
  mem : Mem
  live : List Nat

inductive SlabAct
  | alloc
  | free (ptr : Nat)
  | write (addr : Nat) (byte : BitVec 8)
  deriving DecidableEq, Repr

section Run

variable (b : Build) (s : Nat) (slice : BitVec 64)

def slabPerform (w : SlabWorld) : SlabAct → Except Fault SlabWorld
  | .alloc =>
      let (m, p) := usmmSlabAlloc w.mem s
      return ⟨m, if p = 0 then w.live else p :: w.live⟩
  | .free ptr => do
      let m ← usmmSlabFree b w.mem s ptr
      return ⟨m, w.live.erase ptr⟩
  | .write addr byte => return { w with mem := setU8 w.mem addr byte }

/-- The client frees what it holds and writes inside what it holds. -/
def SlabAllowed (w : SlabWorld) : SlabAct → Prop
  | .alloc => True
  | .free ptr => ptr ∈ w.live
  | .write addr _ => ∃ p ∈ w.live, p ≤ addr ∧ addr < p + slice.toNat

def SlabStep (w : SlabWorld) (a : SlabAct) (w' : SlabWorld) : Prop :=
  SlabAllowed slice w a ∧ slabPerform b s w a = .ok w'

/-- A slab that was initialised and formatted. -/
def SlabStarts (size : BitVec 64) (w : SlabWorld) : Prop :=
  ∃ m, w = ⟨usmmSlabCreate (usmmSlabInit m s) s size slice, []⟩

end Run

/-- The slices of a slab of `size` bytes. -/
def sliceCount (size slice : BitVec 64) : Nat := (size.toNat - slabHeaderSize) / slice.toNat

/-- A slab has room for its header, its slices hold a pointer, an `int` counts them,
and it ends where memory does or before. -/
structure SlabFits (s : Nat) (size slice : BitVec 64) : Prop where
  pointer : 8 ≤ slice.toNat
  header : slabHeaderSize ≤ size.toNat
  counted : sliceCount size slice < 2 ^ 31
  room : s + size.toNat ≤ 2 ^ 64

section Sizes

variable {s : Nat} {size slice : BitVec 64}

theorem SlabFits.total (fits : SlabFits s size slice) :
    (slabTotal size slice).toInt = sliceCount size slice := by
  have header := fits.header
  have counted := fits.counted
  have constant : (BitVec.ofNat 64 slabHeaderSize).toNat = slabHeaderSize := rfl
  have below : BitVec.ofNat 64 slabHeaderSize ≤ size := by
    rw [BitVec.le_def, constant]
    exact header
  have total : (slabTotal size slice).toNat = sliceCount size slice := by
    rw [slabTotal, BitVec.toNat_setWidth, BitVec.toNat_udiv, BitVec.toNat_sub_of_le below, constant]
    exact Nat.mod_eq_of_lt (Nat.lt_trans counted (by decide))
  rw [BitVec.toInt_eq_toNat_of_lt (by omega), total]

theorem SlabFits.inside (fits : SlabFits s size slice) :
    s + slabHeaderSize + sliceCount size slice * slice.toNat ≤ s + size.toNat := by
  have header := fits.header
  have whole := Nat.div_mul_le_self (size.toNat - slabHeaderSize) slice.toNat
  rw [← sliceCount] at whole
  omega

theorem SlabFits.sliceRoom (fits : SlabFits s size slice) :
    SliceRoom s slice.toNat (slabTotal size slice) := by
  have inside := fits.inside
  have room := fits.room
  refine ⟨fits.pointer, slice.isLt, ?_⟩
  rw [fits.total, Int.toNat_natCast]
  omega

end Sizes

/-! ## Steps and runs -/

section Runs

variable {b : Build} {s : Nat} {size slice : BitVec 64} {w w' : SlabWorld}

/-- **One step.** -/
theorem SlabStep.sliced (room : SliceRoom s slice.toNat (slabTotal size slice))
    (sliced : Sliced w.mem s slice.toNat (slabTotal size slice) w.live) {a : SlabAct}
    (step : SlabStep b s slice w a w') :
    Sliced w'.mem s slice.toNat (slabTotal size slice) w'.live := by
  obtain ⟨allowed, performed⟩ := step
  cases a with
  | alloc =>
      obtain ⟨⟨m, p⟩, taken⟩ : ∃ t, usmmSlabAlloc w.mem s = t := ⟨_, rfl⟩
      obtain ⟨-, outcome⟩ := usmmSlabAlloc_spec sliced room
      rw [slabPerform, taken] at performed
      rw [taken] at outcome
      cases performed
      rcases outcome with ⟨null, same, -⟩ | ⟨given, -, -, sliced'⟩
      · rw [if_pos null]
        obtain rfl : m = w.mem := same
        exact sliced
      · rw [if_neg given]
        exact sliced'
  | free ptr =>
      obtain ⟨m, freed, sliced', -⟩ := usmmSlabFree_spec b sliced room allowed
      rw [slabPerform, freed] at performed
      cases performed
      exact sliced'
  | write addr byte =>
      cases performed
      obtain ⟨p, alive, lower, upper⟩ := allowed
      refine sliced.of_client alive ((setU8_changesOnly _ addr byte).mono fun x span => ?_) room
      simp only [Span] at span ⊢
      omega

theorem SlabStarts.sliced (fits : SlabFits s size slice) (starts : SlabStarts s slice size w) :
    Sliced w.mem s slice.toNat (slabTotal size slice) w.live := by
  obtain ⟨m, created⟩ := starts
  have live : w.live = [] := by rw [created]
  have mem : w.mem = usmmSlabCreate (usmmSlabInit m s) s size slice := by rw [created]
  rw [live, mem]
  exact (@usmmSlabCreate_spec (usmmSlabInit m s) s size slice (slabAt_usmmSlabInit m s)
    fits.sliceRoom).1

end Runs

/-- **The free list is exact.** -/
structure Exact (s : Nat) (size slice : BitVec 64) (w : SlabWorld) : Prop where
  used : (slabAt w.mem s).used.toNat = w.live.length
  total : (slabAt w.mem s).total.toNat = sliceCount size slice
  free : ∃ free, Chain w.mem (slabAt w.mem s).freeSlice.toNat free ∧
    free.length = (slabAt w.mem s).total.toNat - (slabAt w.mem s).used.toNat ∧ free.Nodup ∧
    ∀ p, p ∈ free ↔
      p ∉ w.live ∧ ∃ i < sliceCount size slice, p = s + slabHeaderSize + i * slice.toNat
  distinct : w.live.Nodup
  inside : ∀ p ∈ w.live, (∃ i < sliceCount size slice, p = s + slabHeaderSize + i * slice.toNat) ∧
    p + slice.toNat ≤ s + size.toNat
  null : (usmmSlabAlloc w.mem s).2 = 0 ↔ (slabAt w.mem s).used = (slabAt w.mem s).total

theorem Sliced.exact {s : Nat} {size slice : BitVec 64} {w : SlabWorld} (fits : SlabFits s size slice)
    (sliced : Sliced w.mem s slice.toNat (slabTotal size slice) w.live) : Exact s size slice w := by
  have room := fits.sliceRoom
  have total : (slabAt w.mem s).total.toNat = sliceCount size slice := by
    have signed := fits.total
    have small := fits.counted
    rw [sliced.totalEq]
    rw [BitVec.toInt_eq_toNat_cond] at signed
    split at signed <;> omega
  have count : (slabTotal size slice).toInt.toNat = sliceCount size slice := by
    rw [fits.total, Int.toNat_natCast]
  have used := sliced.used_toNat
  obtain ⟨free, chain, perm⟩ := sliced.chain
  have cut : sliceGrid s slice.toNat (slabTotal size slice) =
      grid (s + slabHeaderSize) slice.toNat (sliceCount size slice) := by rw [sliceGrid, count]
  rw [cut] at perm
  have all := perm.nodup_iff.mpr (grid_nodup (Nat.lt_of_lt_of_le (by decide) fits.pointer))
  have apart := List.nodup_append.mp all
  have length := perm.length_eq
  rw [List.length_append, grid_length] at length
  refine ⟨used, total, ⟨free, chain, by omega, apart.1, fun p => ?_⟩, apart.2.1, fun p alive => ?_, ?_⟩
  · rw [← Theory.mem_grid, ← perm.mem_iff, List.mem_append]
    constructor
    · exact fun member => ⟨fun alive => apart.2.2 p member p alive rfl, .inl member⟩
    · rintro ⟨dead, member | alive⟩
      · exact member
      · exact absurd alive dead
  · have member := perm.mem_iff.mp (List.mem_append_right free alive)
    have bounds := grid_bounds member
    have last := fits.inside
    exact ⟨Theory.mem_grid.mp member, by omega⟩
  · obtain ⟨-, outcome⟩ := usmmSlabAlloc_spec sliced room
    have equal : (slabAt w.mem s).used = (slabAt w.mem s).total ↔
        w.live.length = sliceCount size slice := by rw [← BitVec.toNat_inj, used, total]
    rw [equal]
    rcases outcome with ⟨null, -, whole⟩ | ⟨given, -, -, sliced'⟩
    · exact iff_of_true null (whole.trans count)
    · have more := sliced'.length_le
      rw [List.length_cons, count] at more
      exact iff_of_false given (by omega)

/-- The free list is exact after every run. -/
theorem slabRun_exact {b : Build} {s : Nat} {size slice : BitVec 64} {w w' : SlabWorld}
    (fits : SlabFits s size slice) (starts : SlabStarts s slice size w) {as : List SlabAct}
    (run : Run (SlabStep b s slice) w as w') : Exact s size slice w' :=
  Sliced.exact fits (Run.invariant
    (I := fun w => Sliced w.mem s slice.toNat (slabTotal size slice) w.live)
    (fun _ _ _ sliced step => step.sliced fits.sliceRoom sliced) run (starts.sliced fits))

/-- A slab that is not full gives a slice. -/
theorem Exact.exists_alloc {s : Nat} {size slice : BitVec 64} {w : SlabWorld} (exact : Exact s size slice w)
    (b : Build) (some : w.live.length < sliceCount size slice) :
    ∃ m p, SlabStep b s slice w .alloc ⟨m, p :: w.live⟩ := by
  obtain ⟨⟨m, p⟩, result⟩ : ∃ t, usmmSlabAlloc w.mem s = t := ⟨_, rfl⟩
  have given : p ≠ 0 := fun null => by
    have full := congrArg BitVec.toNat (exact.null.mp (by rw [result]; exact null))
    rw [exact.used, exact.total] at full
    omega
  refine ⟨m, p, trivial, ?_⟩
  rw [slabPerform, result]
  exact congrArg (fun live => Except.ok (SlabWorld.mk m live)) (if_neg given)

/-- A slab of 256 bytes in three slices: two are taken, one is written to and given back. -/
theorem slabRun_exact_small : ∃ w w' p, SlabStarts 4096 64 256 w ∧
    Run (SlabStep .debug 4096 64) w [.alloc, .alloc, .write p 7, .free p] w' ∧
    Exact 4096 256 64 w' := by
  have fits : SlabFits 4096 256 64 := ⟨by decide, by decide, by decide, by decide⟩
  obtain ⟨w, starts, none⟩ : ∃ w, SlabStarts 4096 64 256 w ∧ w.live = [] := ⟨_, ⟨fun _ => 0, rfl⟩, rfl⟩
  have sliced := starts.sliced fits
  obtain ⟨m₁, p, first⟩ := (sliced.exact fits).exists_alloc .debug (by rw [none]; decide)
  have sliced₁ := first.sliced fits.sliceRoom sliced
  obtain ⟨m₂, q, second⟩ := (sliced₁.exact fits).exists_alloc .debug (by rw [none]; exact (by decide : 1 < 3))
  have held : p ∈ q :: p :: w.live := by simp
  have written : SlabStep .debug 4096 64 ⟨m₂, q :: p :: w.live⟩ (.write p 7)
      ⟨setU8 m₂ p 7, q :: p :: w.live⟩ :=
    ⟨⟨p, held, le_rfl, Nat.lt_add_of_pos_right (by decide)⟩, rfl⟩
  have sliced₃ := written.sliced fits.sliceRoom (second.sliced fits.sliceRoom sliced₁)
  obtain ⟨m₄, freed, -⟩ := usmmSlabFree_spec .debug sliced₃ fits.sliceRoom held
  have given : SlabStep .debug 4096 64 ⟨setU8 m₂ p 7, q :: p :: w.live⟩ (.free p)
      ⟨m₄, (q :: p :: w.live).erase p⟩ := by
    refine ⟨held, ?_⟩
    rw [slabPerform, freed]
    rfl
  have run := (((Run.single first).snoc second).snoc written).snoc given
  exact ⟨w, _, p, starts, run, slabRun_exact fits starts run⟩

end Itaro.Usmm
