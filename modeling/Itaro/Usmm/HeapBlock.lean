/-
# Usmm.HeapBlock -- the bytes of a heap block

The block of a request lies in the slabs the request was given, behind its length
word, when the slabs have room for the word as well as for the bytes
(`usmmHeapAlloc_block_iff`).  They have not when the size is a multiple of the
slab or up to three bytes short of one, when rounding up wraps or when the slabs
do not fit an `int`.
-/
import Itaro.Usmm.Ownership

namespace Itaro.Usmm

set_option autoImplicit false

open Theory

variable {c : UsmmConf} {w : World} {r : Region}

/-- What a heap request relies on: the control block is intact and the first slab
is marked. -/
structure Initialised (c : UsmmConf) (r : Region) : Prop where
  us : r.us = c.base
  control : Control c r.mem
  first : bitmapTest r.mem (c.base + usmmSlabBitmapOffset) 0 = true

/-- It holds in every state of a run that heeds the defects. -/
theorem Inv.initialised (inv : Inv c w) : Initialised c w.region where
  us := inv.us
  control := inv.control
  first := (inv.bits 0 (by decide)).mpr (.inl rfl)

/-- The `size` bytes at `p` and the word before them lie in the `num` slabs from
`start` on, which are among those behind the first. -/
structure BlockInside (c : UsmmConf) (start num p size : Nat) : Prop where
  first : 1 ≤ start
  some : 1 ≤ num
  word : c.slabAddr start + 4 ≤ p ∧ p ≤ c.slabAddr (start + num)
  bytes : p + size ≤ c.slabAddr (start + num)

/-- The request is refused: the assertion on the range fails, or the search finds
no position. -/
def Refuses (b : Build) (c : UsmmConf) (m : Mem) (size : BitVec 64) : Prop :=
  let num := heapNum size c.slab
  b = .debug ∧ num ≤ 1 ∨
    if 1 ≤ num then ∀ s, ¬ Passes m (c.base + usmmSlabBitmapOffset) num.toNat c.slabCount s
    else num ≤ -8 ∨ ∀ i < c.slabCount / 8, m (c.base + usmmSlabBitmapOffset + i) = maxDw

/-- A position the search picks is behind the first slab, which is marked. -/
theorem Initialised.one_le (ready : Initialised c r) {num s : Nat} (some : 1 ≤ num)
    (picks : Picks r.mem (c.base + usmmSlabBitmapOffset) num c.slabCount s) : 1 ≤ s := by
  by_contra zero
  obtain rfl : s = 0 := by omega
  have marked := ready.first
  have passes := picks.1
  by_cases small : num < 8
  · rw [Passes, if_pos small] at passes
    rw [passes.2.2 0 le_rfl (by omega)] at marked
    cases marked
  · rw [Passes, if_neg small] at passes
    rw [passes.2.2.1 0 le_rfl (by omega)] at marked
    cases marked

/-- What an answered request does: the block is inside iff the slabs have room. -/
theorem block_inside_iff (roomy : c.Roomy) (ready : Initialised c r) {size : BitVec 64}
    {start : Nat} (answer : heapAnswer c r.mem size = start) {r' : Region} {p : Nat}
    (took : heapTake r start (heapNum size c.slab) = (r', p)) :
    BlockInside c start (heapNum size c.slab).toNat p size.toNat ↔ HeapFits c size := by
  have large := roomy.large
  rw [heapFits_iff_heapNum roomy]
  by_cases some : 1 ≤ heapNum size c.slab
  · obtain ⟨num, same⟩ : ∃ num : Nat, heapNum size c.slab = num :=
      ⟨(heapNum size c.slab).toNat, by omega⟩
    rw [same] at took some ⊢
    have first := ready.one_le (by omega) ((heapAnswer_eq_iff same (by omega)).mp answer)
    obtain rfl := heapTake_ptr roomy ready.us ready.control first took
    have stop : c.slabAddr (start + num) = c.slabAddr start + num * c.slabSize := by
      rw [UsmmConf.slabAddr, UsmmConf.slabAddr, Nat.add_mul, Nat.add_assoc]
    have whole : c.slabSize ≤ num * c.slabSize := Nat.le_mul_of_pos_left _ (by omega)
    rw [Int.toNat_natCast]
    constructor
    · intro inside
      have bytes := inside.bytes
      rw [stop] at bytes
      exact ⟨some, by omega⟩
    · rintro ⟨-, room⟩
      refine ⟨first, by omega, ⟨le_rfl, ?_⟩, ?_⟩ <;> rw [stop] <;> omega
  · constructor
    · intro inside
      have := inside.some
      omega
    · exact fun fits => absurd fits.1 some

/-- **The block is as large as requested** iff the request is refused or its slabs
have room for the bytes and the length word.  For slabs of a power of two that is
a matter of what is left over in the last slab. -/
theorem usmmHeapAlloc_block_iff (roomy : c.Roomy) (ready : Initialised c r) (b : Build)
    (size : BitVec 64) :
    ((∀ r' p, usmmHeapAlloc b r size = .ok (r', p) → p ≠ 0 →
        BlockInside c (heapAnswer c r.mem size).toNat (heapNum size c.slab).toNat p size.toNat) ↔
      Refuses b c r.mem size ∨ HeapFits c size) ∧
    ((∃ k, c.slabSize = 2 ^ k) → (HeapFits c size ↔
      1 ≤ size.toNat % c.slabSize ∧ size.toNat % c.slabSize + 4 ≤ c.slabSize ∧
        size.toNat / c.slabSize + 1 < 2 ^ 31 ∧ size.toNat + c.slabSize ≤ 2 ^ 64)) := by
  refine ⟨?_, fun ⟨k, power⟩ => heapFits_iff_of_power roomy power⟩
  constructor
  · intro inside
    by_cases refused : Refuses b c r.mem size
    · exact .inl refused
    · rw [Refuses, not_or, ← heapAnswer_neg_iff, not_and_or] at refused
      obtain ⟨asserted, answered⟩ := refused
      obtain ⟨start, answer⟩ : ∃ start : Nat, heapAnswer c r.mem size = start :=
        ⟨(heapAnswer c r.mem size).toNat, by omega⟩
      have passed : assert b (decide (1 < heapNum size c.slab)) .rangeGtOne = .ok () := by
        cases asserted with
        | inl release =>
            cases b with
            | debug => exact absurd rfl release
            | release => exact assert_release _ _
        | inr more => rw [decide_eq_true (show 1 < heapNum size c.slab by omega), assert_true]
      obtain ⟨⟨r', p⟩, took⟩ : ∃ t, heapTake r start (heapNum size c.slab) = t := ⟨_, rfl⟩
      have call := usmmHeapAlloc_answered roomy ready.us ready.control passed answer
      rw [took] at call
      have given : p ≠ 0 := by
        rw [← (Prod.mk.inj took).2]
        omega
      have block := inside r' p call given
      rw [answer, Int.toNat_natCast] at block
      exact .inr ((block_inside_iff roomy ready answer took).mp block)
  · intro condition r' p call given
    rcases usmmHeapAlloc_cases roomy ready.us ready.control call with ⟨-, -, null⟩ | ⟨answered, took⟩
    · exact absurd null given
    · obtain ⟨start, answer⟩ : ∃ start : Nat, heapAnswer c r.mem size = start :=
        ⟨(heapAnswer c r.mem size).toNat, by omega⟩
      rw [answer, Int.toNat_natCast] at took ⊢
      refine (block_inside_iff roomy ready answer took).mpr ?_
      cases condition with
      | inr fits => exact fits
      | inl refused =>
          rw [Refuses, ← heapAnswer_neg_iff] at refused
          cases refused with
          | inr silent => omega
          | inl failed =>
              obtain ⟨rfl, few⟩ := failed
              rw [usmmHeapAlloc_eq roomy ready.us ready.control,
                decide_eq_false (show ¬ 1 < heapNum size c.slab by omega), assert_debug_false] at call
              cases call

theorem usmmHeapAlloc_block_iff_twoSlabs : ∃ w, Starts testConf w ∧
    ∀ r' p, usmmHeapAlloc .debug w.region twoSlabs = .ok (r', p) → p ≠ 0 →
      BlockInside testConf (heapAnswer testConf w.mem twoSlabs).toNat
        (heapNum twoSlabs testConf.slab).toNat p twoSlabs.toNat := by
  obtain ⟨w, starts⟩ := exists_starts testConf_roomy
  have ready := (starts_inv testConf_roomy starts).initialised
  have both := usmmHeapAlloc_block_iff testConf_roomy ready .debug twoSlabs
  exact ⟨w, starts, both.1.mpr (.inr ((both.2 ⟨21, by decide⟩).mpr (by decide)))⟩

/-- A request of exactly two slabs gets a block that ends four bytes past them. -/
theorem multiple_overruns : ¬ ∀ (c : UsmmConf) (w : World) (b : Build) (size : BitVec 64),
    Aligned c → Starts c w → ∀ r' p, usmmHeapAlloc b w.region size = .ok (r', p) → p ≠ 0 →
      BlockInside c (heapAnswer c w.mem size).toNat (heapNum size c.slab).toNat p size.toNat := by
  intro inside
  obtain ⟨w, starts⟩ := exists_starts testConf_roomy
  have inv := starts_inv testConf_roomy starts
  have num : heapNum (4 * 1024 * 1024) testConf.slab = (2 : Nat) := by decide
  obtain ⟨answer, r, call⟩ := inv.usmmHeapAlloc_two starts.blocks .debug num
  have bytes := (inside testConf w .debug _ testConf_aligned starts _ _ call (by omega)).bytes
  rw [answer, num] at bytes
  exact absurd bytes (by decide)

end Itaro.Usmm
