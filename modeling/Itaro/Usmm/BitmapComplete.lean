/-
# Usmm.BitmapComplete -- what bitmap_find_range misses

The search gives up exactly when no position passes its test (`Passes`), so it
finds a run whenever there is one iff some position passes whenever there is one.
Often none does.  A run shorter than a byte has to lie inside one of the first
`max / 8` bytes and end before its last bit: the column loop stops one early.  A
longer run has to begin with a byte, no later than byte `(max - count - 1) / 8`,
and the bits that are asked for in the byte after its whole bytes are the wrong
ones.  A request for slabs is refused in the same cases.
-/
import Itaro.Usmm.BitmapSearch
import Itaro.Usmm.Region

namespace Itaro.Usmm

set_option autoImplicit false

open Theory

/-- There is a run of `range` clear bits below `max`. -/
def Room (m : Mem) (bitmap : Nat) (range max : Int) : Prop :=
  ∃ s : Nat, (s : Int) + range ≤ max ∧ Clear m bitmap s range.toNat

/-- Some position passes the test of the search. -/
def Findable (m : Mem) (bitmap : Nat) (range max : Int) : Prop :=
  ∃ s, Passes m bitmap range.toNat max s

section Search

variable {m : Mem} {bitmap : Nat} {range max : Int}

/-- The answer is a position that passes, or `-1`. -/
theorem searchRange_cases (positive : 0 < range) :
    (Findable m bitmap range max ∧ 0 ≤ searchRange m bitmap range max) ∨
      (¬ Findable m bitmap range max ∧ searchRange m bitmap range max = -1) := by
  obtain ⟨r, rfl⟩ : ∃ r : Nat, range = r := ⟨range.toNat, by omega⟩
  rw [Findable, Int.toNat_natCast]
  by_cases some : ∃ s, Passes m bitmap r max s
  · obtain ⟨s, passes⟩ := some
    obtain ⟨t, picks⟩ := exists_picks passes
    rw [searchRange_of_picks (by omega) picks]
    exact .inl ⟨⟨s, passes⟩, by omega⟩
  · exact .inr ⟨some, searchRange_of_none fun s passes => some ⟨s, passes⟩⟩

theorem searchRange_neg_iff (positive : 0 < range) :
    searchRange m bitmap range max < 0 ↔ ¬ Findable m bitmap range max := by
  rcases @searchRange_cases m bitmap range max positive with ⟨found, nonneg⟩ | ⟨never, gaveUp⟩
  · exact iff_of_false (by omega) (not_not.mpr found)
  · exact iff_of_true (by omega) never

theorem searchRange_eq_neg_one_iff (positive : 0 < range) :
    searchRange m bitmap range max = -1 ↔ ¬ Findable m bitmap range max := by
  rcases @searchRange_cases m bitmap range max positive with ⟨found, nonneg⟩ | ⟨never, gaveUp⟩
  · exact iff_of_false (by omega) (not_not.mpr found)
  · exact iff_of_true gaveUp never

theorem bitmapFindRange_eq (b : Build) (asserted : 1 < range) :
    bitmapFindRange b m bitmap range max = .ok (searchRange m bitmap range max) := by
  rw [bitmapFindRange, decide_eq_true asserted, assert_true]
  rfl

end Search

section Request

variable {r : Region} {size : BitVec 64}

/-- A request that is answered is answered with a pointer. -/
theorem heapTake_ptr_ne_zero (start : Nat) (num : Int) : (heapTake r start num).2 ≠ 0 :=
  Nat.succ_ne_zero _

/-- A request for two slabs or more is refused iff no position passes. -/
theorem usmmHeapAlloc_refused_iff (b : Build)
    (asserted : 1 < heapNum size (confSlab r.mem r.us)) :
    usmmHeapAlloc b r size = .ok (r, 0) ↔
      ¬ Findable r.mem (slabBitmap r.mem r.us) (heapNum size (confSlab r.mem r.us))
        (intOfSize (confLength r.mem r.us / confSlab r.mem r.us)) := by
  rw [← searchRange_neg_iff (by omega), usmmHeapAlloc, bitmapFindRange_eq b asserted]
  show (if _ then Except.ok (r, 0) else Except.ok (heapTake r _ _)) = _ ↔ _
  split
  · exact iff_of_true rfl ‹_›
  · refine iff_of_false (fun same => ?_) ‹_›
    exact heapTake_ptr_ne_zero _ _ (Prod.mk.inj (Except.ok.inj same)).2

end Request

/-- **When the search is complete.**  It finds a run of two bits or more that is
there, and a request for that many slabs is not refused, iff a position passes. -/
theorem bitmapFindRange_complete_iff (b : Build) {range : Int} (asserted : 1 < range) :
    (∀ (m : Mem) (bitmap : Nat) (max : Int),
      (Room m bitmap range max → bitmapFindRange b m bitmap range max ≠ .ok (-1)) ↔
        (Room m bitmap range max → Findable m bitmap range max)) ∧
    ∀ (r : Region) (size : BitVec 64), heapNum size (confSlab r.mem r.us) = range →
      ((usmmHeapAlloc b r size = .ok (r, 0) →
          ¬ Room r.mem (slabBitmap r.mem r.us) range
            (intOfSize (confLength r.mem r.us / confSlab r.mem r.us))) ↔
        (Room r.mem (slabBitmap r.mem r.us) range
            (intOfSize (confLength r.mem r.us / confSlab r.mem r.us)) →
          Findable r.mem (slabBitmap r.mem r.us) range
            (intOfSize (confLength r.mem r.us / confSlab r.mem r.us)))) := by
  have positive : 0 < range := by omega
  refine ⟨fun m bitmap max => imp_congr_right fun _ => ?_, fun r size num => ?_⟩
  · rw [bitmapFindRange_eq b asserted, Ne, Except.ok.injEq, searchRange_eq_neg_one_iff positive,
      not_not]
  · subst num
    rw [usmmHeapAlloc_refused_iff b asserted, imp_not_comm, not_not]

/-- The two last bits of a byte. -/
def topBits : Mem := fun x => if x = 0 then 0x3f else 0xff

theorem bitmapFindRange_misses : (∀ k : Nat, 8 ≤ k → bitmapTest topBits 0 k = true) ∧
    Room topBits 0 2 8 ∧ bitmapFindRange .debug topBits 0 2 8 = .ok (-1) := by
  refine ⟨fun k beyond => ?_, ⟨6, by decide, ?_⟩, by decide⟩
  · have set : ∀ j : Fin 8, (0xff : BitVec 8).getLsbD j = true := by decide
    rw [bitmapTest_eq, topBits, if_neg (by omega)]
    exact set ⟨k % 8, Nat.mod_lt k (by decide)⟩
  · show Clear topBits 0 6 2
    decide

/-- 64 slabs of 2 MB, the first of them taken; the bitmap is at 4096. -/
def oneTaken : Region where
  us := 0
  mem := setU8 (setU64 (setU64 (setU64 (fun _ => 0) 40 0x8000000) 48 0x200000) 64 4096) 4096 1
  lists _ := []

/-- Sixteen bits in whole bytes are found, and a request for as many slabs is served. -/
theorem bitmapFindRange_complete_iff_taken :
    Room oneTaken.mem 4096 16 64 ∧ bitmapFindRange .debug oneTaken.mem 4096 16 64 ≠ .ok (-1) ∧
      usmmHeapAlloc .debug oneTaken 0x2000000 ≠ .ok (oneTaken, 0) := by
  have complete := @bitmapFindRange_complete_iff .debug 16 (by decide)
  have bitmap : slabBitmap oneTaken.mem oneTaken.us = 4096 := by decide
  have count : intOfSize (confLength oneTaken.mem oneTaken.us / confSlab oneTaken.mem oneTaken.us) =
    64 := by decide
  have room : Room oneTaken.mem 4096 16 64 := by
    refine ⟨8, by decide, ?_⟩
    show Clear oneTaken.mem 4096 8 16
    decide
  have findable : Findable oneTaken.mem 4096 16 64 := by
    refine ⟨8, ?_⟩
    show Passes oneTaken.mem 4096 16 64 8
    rw [Passes, if_neg (by decide)]
    exact ⟨by decide, by decide, by decide, by decide⟩
  refine ⟨room, (complete.1 _ 4096 64).mpr (fun _ => findable) room, fun refused => ?_⟩
  have unserved := complete.2 oneTaken 0x2000000 (by decide)
  rw [bitmap, count] at unserved
  exact unserved.mpr (fun _ => findable) refused room

end Itaro.Usmm
