/-
# Usmm.BitmapSearch -- what bitmap_find_range finds

The search is first fit over a test.  `Passes` states the test for one position
in terms of single bits, and `searchRange_of_picks`, `searchRange_of_none` say
that the two loops return the least position that passes, or `-1`.

For a run shorter than a byte the test asks for exactly the bits of the run.
For a longer run it asks for the whole bytes of the run and then, in the byte
after them, for its *last* `range % 8` bits; the bits of the run are the *first*
`range % 8` of that byte.  `highrin` is the mask that does it.  So the search is
sound exactly when those first bits happen to be clear where it stops
(`bitmapFindRange_sound_iff`), which for runs of less than a byte and of whole
bytes they always are.

A request for no slabs or fewer passes the release build and is searched for as
well: `searchRange_nonpos` says when it is answered.  How far a search reads is
`searchBytes`.
-/
import Itaro.Usmm.Bitmap

namespace Itaro.Usmm

set_option autoImplicit false

open Theory

/-- The `r` bits from `s` on are clear. -/
def Clear (m : Mem) (bitmap s r : Nat) : Prop :=
  ∀ k, s ≤ k → k < s + r → bitmapTest m bitmap k = false

instance (m : Mem) (bitmap s r : Nat) : Decidable (Clear m bitmap s r) :=
  decidable_of_iff (∀ j < r, bitmapTest m bitmap (s + j) = false)
    ⟨fun all k lower upper => by
      have := all (k - s) (by omega)
      rwa [show s + (k - s) = k by omega] at this,
    fun clear j below => clear (s + j) (by omega) (by omega)⟩

/-- Position `s` passes the test of the search for `r` bits below `max`. -/
def Passes (m : Mem) (bitmap r : Nat) (max : Int) (s : Nat) : Prop :=
  if r < 8 then
    s / 8 < (max.tdiv 8).toNat ∧ s % 8 + r < 8 ∧ Clear m bitmap s r
  else
    s / 8 < ((max - (r / 8 : Nat) - 1).tdiv 8).toNat ∧ s % 8 = 0 ∧
      Clear m bitmap s (8 * (r / 8)) ∧ Clear m bitmap (s + 8 * (r / 8) + (8 - r % 8)) (r % 8)

/-- `s` is the first position that passes. -/
def Picks (m : Mem) (bitmap r : Nat) (max : Int) (s : Nat) : Prop :=
  Passes m bitmap r max s ∧ ∀ t < s, ¬ Passes m bitmap r max t

theorem exists_picks {m : Mem} {bitmap r : Nat} {max : Int} {s : Nat}
    (passes : Passes m bitmap r max s) : ∃ t, Picks m bitmap r max t := by
  classical
  have some : ∃ t, Passes m bitmap r max t := ⟨s, passes⟩
  exact ⟨Nat.find some, Nat.find_spec some, fun t below => Nat.find_min some below⟩

theorem Picks.unique {m : Mem} {bitmap r : Nat} {max : Int} {s t : Nat}
    (first : Picks m bitmap r max s) (second : Picks m bitmap r max t) : s = t := by
  rcases Nat.lt_trichotomy s t with below | same | above
  · exact absurd first.1 (second.2 s below)
  · exact same
  · exact absurd second.1 (first.2 t above)

/-! ## The masks, bit by bit -/

theorem lowrin_getLsbD {r i : Nat} (small : r < 8) (bit : i < 8) :
    (lowrin r).getLsbD i = decide (i < r) := by
  have all : ∀ r : Fin 8, ∀ i : Fin 8, (lowrin (r : Nat)).getLsbD i = decide ((i : Nat) < r) := by
    decide
  exact all ⟨r, small⟩ ⟨i, bit⟩

theorem highrin_getLsbD {r i : Nat} (small : r < 8) (bit : i < 8) :
    (highrin r).getLsbD i = decide (8 - r ≤ i) := by
  have all : ∀ r : Fin 8, ∀ i : Fin 8,
      (highrin (r : Nat)).getLsbD i = decide (8 - (r : Nat) ≤ i) := by
    decide
  exact all ⟨r, small⟩ ⟨i, bit⟩

/-- A masked byte is zero iff it has no bit under the mask. -/
theorem and_eq_zero_iff {w : Nat} (x mask : BitVec w) :
    x &&& mask = 0 ↔ ∀ i < w, mask.getLsbD i = true → x.getLsbD i = false := by
  constructor
  · intro zero i _ bit
    have value := congrArg (fun y => BitVec.getLsbD y i) zero
    simpa [bit] using value
  · intro none
    apply BitVec.eq_of_getLsbD_eq
    intro i bound
    cases bit : mask.getLsbD i with
    | false => simp [bit]
    | true => simp [none i bound bit]

theorem eq_zero_iff {w : Nat} (x : BitVec w) : x = 0 ↔ ∀ i < w, x.getLsbD i = false := by
  refine ⟨fun zero i _ => by simp [zero], fun none => ?_⟩
  exact BitVec.eq_of_getLsbD_eq fun i bound => by simp [none i bound]

section Bytes

variable {m : Mem} {bitmap : Nat}

/-- Bits `from, …, to - 1` of byte `i` are clear iff those of the bitmap are. -/
theorem clear_byte_iff {i lower upper : Nat} (inside : upper ≤ 8) :
    (∀ k, lower ≤ k → k < upper → (m (bitmap + i)).getLsbD k = false) ↔
      Clear m bitmap (8 * i + lower) (upper - lower) := by
  constructor
  · intro bits k above below
    rw [bitmapTest_eq, show k / 8 = i by omega]
    exact bits (k % 8) (by omega) (by omega)
  · intro clear k above below
    have bit := clear (8 * i + k) (by omega) (by omega)
    rwa [bitmapTest_eq, show (8 * i + k) / 8 = i by omega,
      show (8 * i + k) % 8 = k by omega] at bit

theorem byte_eq_zero_iff {i : Nat} : m (bitmap + i) = 0 ↔ Clear m bitmap (8 * i) 8 := by
  rw [eq_zero_iff]
  have bytes := @clear_byte_iff m bitmap i 0 8 le_rfl
  rw [Nat.add_zero] at bytes
  rw [← bytes]
  exact ⟨fun all k _ below => all k below, fun all k below => all k (Nat.zero_le k) below⟩

theorem and_highrin_eq_zero_iff {i r : Nat} (small : r < 8) :
    m (bitmap + i) &&& highrin r = 0 ↔ Clear m bitmap (8 * i + (8 - r)) r := by
  have bytes := @clear_byte_iff m bitmap i (8 - r) 8 le_rfl
  rw [show 8 - (8 - r) = r by omega] at bytes
  rw [and_eq_zero_iff, ← bytes]
  constructor
  · intro all k lower below
    exact all k (by omega) (by rw [highrin_getLsbD small (by omega)]; simpa using lower)
  · intro all k bound bit
    rw [highrin_getLsbD small bound] at bit
    exact all k (by simpa using bit) bound

/-- The shifted mask of the narrow branch covers bits `j, …, j + r - 1`. -/
theorem and_lowrin_shift_eq_zero_iff {i r j : Nat} (fits : j + r ≤ 8) (small : r < 8) :
    (m (bitmap + i)).setWidth 32 &&& (lowrin r).setWidth 32 <<< j = 0 ↔
      Clear m bitmap (8 * i + j) r := by
  have bytes := @clear_byte_iff m bitmap i j (j + r) fits
  rw [show j + r - j = r by omega] at bytes
  rw [and_eq_zero_iff, ← bytes]
  have mask : ∀ k < 32, ((lowrin r).setWidth 32 <<< j).getLsbD k = decide (j ≤ k ∧ k < j + r) := by
    intro k bound
    rw [BitVec.getLsbD_shiftLeft, BitVec.getLsbD_setWidth]
    by_cases below : k < j
    · simp [below, show ¬ j ≤ k by omega]
    · by_cases top : k - j < 8
      · rw [lowrin_getLsbD small top]
        simp [bound, below, show k - j < 32 by omega, show j ≤ k by omega]
        omega
      · rw [BitVec.getLsbD_of_ge _ _ (by omega)]
        simp [show ¬ k < j + r by omega]
  constructor
  · intro all k lower below
    have bit := all k (by omega) (by rw [mask k (by omega)]; simp [lower, below])
    rwa [BitVec.getLsbD_setWidth, show decide (k < 32) = true by simp; omega, Bool.true_and] at bit
  · intro all k bound bit
    rw [mask k bound] at bit
    have range := of_decide_eq_true bit
    rw [BitVec.getLsbD_setWidth, all k range.1 range.2, Bool.and_false]

theorem Clear.mono {s r s' r' : Nat} (clear : Clear m bitmap s r) (lower : s ≤ s')
    (upper : s' + r' ≤ s + r) : Clear m bitmap s' r' :=
  fun k above below => clear k (by omega) (by omega)

/-- Consecutive zero bytes are one run of clear bits. -/
theorem bytes_eq_zero_iff {i c : Nat} :
    (∀ j < c, m (bitmap + (i + j)) = 0) ↔ Clear m bitmap (8 * i) (8 * c) := by
  constructor
  · intro bytes k above below
    exact byte_eq_zero_iff.mp (bytes (k / 8 - i) (by omega)) k (by omega) (by omega)
  · intro clear j below
    exact byte_eq_zero_iff.mpr (clear.mono (by omega) (by omega))

end Bytes

/-! ## The two branches -/

section Branches

variable {m : Mem} {bitmap r : Nat} {max : Int}

/-- The test of the narrow branch at byte `i`, bit `j`. -/
theorem narrow_test_iff {i j : Nat} (small : r < 8) (below : j < 8 - r) :
    ((m (bitmap + i)).setWidth 32 &&& (lowrin r).setWidth 32 <<< j = 0 ↔
      Clear m bitmap (i * 8 + j) r) := by
  rw [and_lowrin_shift_eq_zero_iff (by omega) small, Nat.mul_comm]

theorem byte_ne_maxDw {i j : Nat} (positive : 0 < r) (fits : j + r ≤ 8)
    (clear : Clear m bitmap (i * 8 + j) r) : m (bitmap + i) ≠ maxDw := by
  intro full
  have bit := clear (i * 8 + j) (by omega) (by omega)
  rw [bitmapTest_eq, show (i * 8 + j) / 8 = i by omega, full,
    show (i * 8 + j) % 8 = j by omega] at bit
  have set : ∀ j : Fin 8, maxDw.getLsbD j = true := by decide
  exact absurd bit (by rw [set ⟨j, by omega⟩]; simp)

theorem passes_narrow_iff {i j : Nat} (small : r < 8) (below : j < 8 - r) :
    Passes m bitmap r max (i * 8 + j) ↔
      i < (max.tdiv 8).toNat ∧ Clear m bitmap (i * 8 + j) r := by
  rw [Passes, if_pos small, show (i * 8 + j) / 8 = i by omega]
  exact ⟨fun passes => ⟨passes.1, passes.2.2⟩, fun passes => ⟨passes.1, by omega, passes.2⟩⟩

theorem toNat_eight_sub (small : r < 8) : (8 - (r : Int)).toNat = 8 - r := by omega

theorem findNarrow_of_picks (positive : 0 < r) (small : r < 8) {s : Nat}
    (picks : Picks m bitmap r max s) : findNarrow m bitmap r max = some s := by
  have split : s = s / 8 * 8 + s % 8 := by omega
  have passes := picks.1
  rw [Passes, if_pos small] at passes
  obtain ⟨inside, fits, clear⟩ := passes
  -- an earlier position that passes the byte-level test would pass `Passes`
  have earlier : ∀ i j, i < (max.tdiv 8).toNat → j < 8 - r → i * 8 + j < s →
      ¬ Clear m bitmap (i * 8 + j) r := fun i j row column before here =>
    picks.2 _ before ((passes_narrow_iff small column).mpr ⟨row, here⟩)
  rw [findNarrow, firstSome_eq_some]
  refine ⟨s / 8, inside, ?_, fun i before => ?_⟩
  · rw [split] at clear
    rw [if_pos (byte_ne_maxDw positive (by omega) clear), firstSome_eq_some, toNat_eight_sub small]
    refine ⟨s % 8, by omega, ?_, fun j before => if_neg ?_⟩
    · rw [if_pos ((narrow_test_iff small (by omega)).mpr clear), ← split]
    · rw [narrow_test_iff small (by omega)]
      exact earlier (s / 8) j inside (by omega) (by omega)
  · split
    · rw [firstSome_eq_none, toNat_eight_sub small]
      intro j column
      rw [if_neg]
      rw [narrow_test_iff small column]
      exact earlier i j (by omega) column (by omega)
    · rfl

theorem findNarrow_of_none (small : r < 8) (never : ∀ s, ¬ Passes m bitmap r max s) :
    findNarrow m bitmap r max = none := by
  rw [findNarrow, firstSome_eq_none]
  intro i row
  split
  · rw [firstSome_eq_none, toNat_eight_sub small]
    intro j column
    rw [if_neg]
    rw [narrow_test_iff small column]
    exact fun clear => never _ ((passes_narrow_iff small column).mpr ⟨row, clear⟩)
  · rfl

/-- One turn of the wide loop: `some (i * 8)` exactly when `i * 8` passes. -/
theorem wide_turn (long : 8 ≤ r) (i : Nat) :
    (if m (bitmap + i) &&& lowrin (r % 8 : Nat) = 0 then
      if m (bitmap + i) ≠ 0 then
        if (breakAt (fun _ => m (bitmap + i) != 0) 0 (r / 8 : Nat) : Int) = (r / 8 : Nat) then
          some ((i : Int) * 8 + 8 - (r % 8 : Nat))
        else none
      else
        let j := breakAt (fun j => m (bitmap + (i + j)) != 0) 1 (r / 8 : Nat)
        if (j : Int) = (r / 8 : Nat) then
          if m (bitmap + (i + j)) &&& highrin (r % 8 : Nat) = 0 then some ((i : Int) * 8) else none
        else none
    else none) =
    open Classical in
      if Clear m bitmap (8 * i) (8 * (r / 8)) ∧
          Clear m bitmap (8 * i + 8 * (r / 8) + (8 - r % 8)) (r % 8) then
        some ((i : Int) * 8)
      else none := by
  have tail : r % 8 < 8 := Nat.mod_lt _ (by decide)
  have whole : 1 ≤ r / 8 := by omega
  by_cases zero : m (bitmap + i) = 0
  · have low : m (bitmap + i) &&& lowrin (r % 8 : Nat) = 0 := by simp [zero]
    rw [if_pos low, if_neg (not_not.mpr zero)]
    -- the inner loop runs to its bound iff the remaining whole bytes are zero
    have loop : (breakAt (fun j => m (bitmap + (i + j)) != 0) 1 (r / 8 : Nat) : Int) =
        (r / 8 : Nat) ↔ Clear m bitmap (8 * i) (8 * (r / 8)) := by
      rw [breakAt_eq_count (by exact_mod_cast whole), ← bytes_eq_zero_iff]
      constructor
      · intro rest j below
        rcases Nat.eq_zero_or_pos j with rfl | positive
        · exact zero
        · simpa using rest j positive (by exact_mod_cast below)
      · intro bytes j _ below
        simpa using bytes j (by exact_mod_cast below)
    by_cases reached : Clear m bitmap (8 * i) (8 * (r / 8))
    · have bound : breakAt (fun j => m (bitmap + (i + j)) != 0) 1 (r / 8 : Nat) = r / 8 := by
        exact_mod_cast loop.mpr reached
      have next : 8 * (i + r / 8) + (8 - r % 8) = 8 * i + 8 * (r / 8) + (8 - r % 8) := by ring
      simp only [bound, if_true, reached, true_and, and_highrin_eq_zero_iff tail, next]
    · simp only [loop, reached, false_and, if_false]
  · have first : ¬ Clear m bitmap (8 * i) (8 * (r / 8)) := fun clear =>
      zero (byte_eq_zero_iff.mpr (clear.mono le_rfl (by omega)))
    have stays : breakAt (fun _ => m (bitmap + i) != 0) 0 (r / 8 : Nat) = 0 :=
      breakAt_eq_start (.inl (by simpa using zero))
    have differs : ¬ ((0 : Nat) : Int) = (r / 8 : Nat) := by omega
    have right : ¬ (Clear m bitmap (8 * i) (8 * (r / 8)) ∧
        Clear m bitmap (8 * i + 8 * (r / 8) + (8 - r % 8)) (r % 8)) := fun both => first both.1
    rw [if_pos zero, stays, if_neg differs, if_neg right, ite_self]

theorem passes_wide_iff (long : 8 ≤ r) {i : Nat} :
    Passes m bitmap r max (8 * i) ↔ i < ((max - (r / 8 : Nat) - 1).tdiv 8).toNat ∧
      Clear m bitmap (8 * i) (8 * (r / 8)) ∧
      Clear m bitmap (8 * i + 8 * (r / 8) + (8 - r % 8)) (r % 8) := by
  rw [Passes, if_neg (by omega), show 8 * i / 8 = i by omega]
  exact ⟨fun passes => ⟨passes.1, passes.2.2⟩, fun passes => ⟨passes.1, by omega, passes.2⟩⟩

theorem findWide_of_picks (long : 8 ≤ r) {s : Nat} (picks : Picks m bitmap r max s) :
    findWide m bitmap (r % 8 : Nat) (r / 8 : Nat) max = some (s : Int) := by
  have whole : s % 8 = 0 := by
    have passes := picks.1
    rw [Passes, if_neg (by omega)] at passes
    exact passes.2.1
  obtain ⟨i, rfl⟩ : ∃ i, s = 8 * i := ⟨s / 8, by omega⟩
  have passes := (passes_wide_iff long).mp picks.1
  rw [findWide, firstSome_eq_some]
  refine ⟨i, passes.1, ?_, fun i' before => ?_⟩
  · rw [wide_turn long, if_pos passes.2]
    push_cast
    ring_nf
  · rw [wide_turn long, if_neg]
    exact fun clear => picks.2 (8 * i') (by omega)
      ((passes_wide_iff long).mpr ⟨by omega, clear⟩)

theorem findWide_of_none (long : 8 ≤ r) (never : ∀ s, ¬ Passes m bitmap r max s) :
    findWide m bitmap (r % 8 : Nat) (r / 8 : Nat) max = none := by
  rw [findWide, firstSome_eq_none]
  intro i row
  rw [wide_turn long, if_neg]
  exact fun clear => never (8 * i) ((passes_wide_iff long).mpr ⟨row, clear⟩)

/-! ## The search as first fit -/

theorem searchRange_natCast (r : Nat) : searchRange m bitmap r max =
    if r / 8 = 0 then ((findNarrow m bitmap (r % 8 : Nat) max).map Int.ofNat).getD (-1)
    else (findWide m bitmap (r % 8 : Nat) (r / 8 : Nat) max).getD (-1) := by
  have rin : (r : Int).tmod 8 = (r % 8 : Nat) := by
    rw [Int.tmod_eq_emod_of_nonneg (by omega)]; omega
  have count : (r : Int).tdiv 8 = (r / 8 : Nat) := by
    rw [Int.tdiv_eq_ediv_of_nonneg (by omega)]; omega
  have empty : ((r / 8 : Nat) : Int) = 0 ↔ r / 8 = 0 := by omega
  simp only [searchRange, rin, count, empty]

/-- **First fit.**  The search returns the first position that passes. -/
theorem searchRange_of_picks (positive : 0 < r) {s : Nat} (picks : Picks m bitmap r max s) :
    searchRange m bitmap r max = s := by
  rw [searchRange_natCast]
  by_cases small : r < 8
  · rw [if_pos (by omega), show r % 8 = r by omega, findNarrow_of_picks positive small picks]
    rfl
  · rw [if_neg (by omega), findWide_of_picks (by omega) picks, Option.getD_some]

/-- The search gives up only when no position passes. -/
theorem searchRange_of_none (never : ∀ s, ¬ Passes m bitmap r max s) :
    searchRange m bitmap r max = -1 := by
  rw [searchRange_natCast]
  by_cases small : r < 8
  · rw [if_pos (by omega), show r % 8 = r by omega, findNarrow_of_none small never]
    rfl
  · rw [if_neg (by omega), findWide_of_none (by omega) never, Option.getD_none]

theorem searchRange_eq_iff (positive : 0 < r) {s : Nat} :
    searchRange m bitmap r max = s ↔ Picks m bitmap r max s := by
  refine ⟨fun found => ?_, searchRange_of_picks positive⟩
  by_cases some : ∃ t, Passes m bitmap r max t
  · obtain ⟨t, passes⟩ := some
    obtain ⟨u, picks⟩ := exists_picks passes
    have same := searchRange_of_picks positive picks
    rw [found] at same
    rwa [show s = u by omega]
  · have gaveUp := searchRange_of_none fun t passes => some ⟨t, passes⟩
    omega

/-! ## The bits the search looks at -/

/-- A byte the search comes to lies before the bound. -/
theorem le_of_lt_tdiv {k : Nat} {x : Int} (inside : k < (x.tdiv 8).toNat) : 8 * (k + 1 : Int) ≤ x := by
  rcases Int.le_total 0 x with nonneg | nonpos
  · rw [Int.tdiv_eq_ediv_of_nonneg nonneg] at inside
    omega
  · obtain ⟨y, rfl⟩ : ∃ y, x = -y := ⟨-x, by omega⟩
    rw [Int.neg_tdiv, Int.tdiv_eq_ediv_of_nonneg (by omega)] at inside
    omega

section Agree

variable {m' : Mem} {n top : Nat} (same : ∀ k < n, bitmapTest m' bitmap k = bitmapTest m bitmap k)
include same

theorem Clear.congr {s t : Nat} (inside : s + t ≤ n) : Clear m' bitmap s t ↔ Clear m bitmap s t := by
  refine forall_congr' fun k => forall_congr' fun lower => forall_congr' fun upper => ?_
  rw [same k (by omega)]

variable (stop : bitmapTest m bitmap top = true) (room : top + 8 ≤ n)
include stop room

/-- A run from below a set bit is clear in both or in neither. -/
theorem Clear.congr_of_stop {s t : Nat} (start : s ≤ top) : Clear m' bitmap s t ↔ Clear m bitmap s t := by
  by_cases short : s + t ≤ top
  · exact Clear.congr same (by omega)
  · have stop' : bitmapTest m' bitmap top = true := (same top (by omega)).trans stop
    constructor
    · intro clear
      exact absurd (clear top start (by omega)) (by simp [stop'])
    · intro clear
      exact absurd (clear top start (by omega)) (by simp [stop])

/-- The search below a set bit depends on the bits up to the byte behind it. -/
theorem Passes.congr {s : Nat} : Passes m' bitmap r top s ↔ Passes m bitmap r top s := by
  rw [Passes, Passes]
  by_cases small : r < 8
  · rw [if_pos small, if_pos small]
    refine and_congr_right fun inside => and_congr_right fun fits => Clear.congr same ?_
    have := le_of_lt_tdiv inside
    omega
  · rw [if_neg small, if_neg small]
    refine and_congr_right fun inside => and_congr_right fun whole => ?_
    have := le_of_lt_tdiv inside
    rw [Clear.congr_of_stop same stop room (by omega)]
    refine and_congr_right fun bytes => Clear.congr same ?_
    -- the whole bytes end before the set bit
    have short : s + 8 * (r / 8) ≤ top := by
      by_contra long
      rw [bytes top (by omega) (by omega)] at stop
      cases stop
    omega

theorem searchRange_congr (positive : 0 < r) :
    searchRange m' bitmap r top = searchRange m bitmap r top := by
  have passes : ∀ s, Passes m' bitmap r top s ↔ Passes m bitmap r top s := fun s =>
    Passes.congr same stop room
  by_cases some : ∃ s, Passes m bitmap r top s
  · obtain ⟨s, found⟩ := some
    obtain ⟨t, picks⟩ := exists_picks found
    have picks' : Picks m' bitmap r top t :=
      ⟨(passes t).mpr picks.1, fun u below found => picks.2 u below ((passes u).mp found)⟩
    rw [searchRange_of_picks positive picks, searchRange_of_picks positive picks']
  · rw [searchRange_of_none fun s found => some ⟨s, found⟩,
      searchRange_of_none fun s found => some ⟨s, (passes s).mp found⟩]

end Agree

/-! ## What the search reads -/

/-- How many bytes of the bitmap the search for `range` of `max` bits may read. -/
def searchBytes (range max : Int) : Nat :=
  let count := range.tdiv 8
  if count = 0 then (max.tdiv 8).toNat
  else
    let turns := ((max - count - 1).tdiv 8).toNat
    if turns = 0 then 0 else turns + count.toNat

/-- Memories that agree on these bytes are searched alike. -/
theorem searchRange_congr_bytes {m' : Mem} {range : Int}
    (same : ∀ k < searchBytes range max, m' (bitmap + k) = m (bitmap + k)) :
    searchRange m' bitmap range max = searchRange m bitmap range max := by
  rw [searchRange, searchRange]
  simp only [searchBytes] at same
  by_cases narrow : range.tdiv 8 = 0
  · rw [if_pos narrow] at same
    have found : findNarrow m' bitmap (range.tmod 8) max = findNarrow m bitmap (range.tmod 8) max :=
      firstSome_congr fun i row => by rw [same i row]
    simp only [if_pos narrow, found]
  · rw [if_neg narrow] at same
    have found : findWide m' bitmap (range.tmod 8) (range.tdiv 8) max =
        findWide m bitmap (range.tmod 8) (range.tdiv 8) max := by
      refine firstSome_congr fun i row => ?_
      rw [if_neg (by omega)] at same
      have byte : ∀ j : Nat, (j : Int) ≤ range.tdiv 8 →
          m' (bitmap + (i + j)) = m (bitmap + (i + j)) := fun j inside => same (i + j) (by omega)
      have stops : breakAt (fun j => m' (bitmap + (i + j)) != 0) 1 (range.tdiv 8) =
          breakAt (fun j => m (bitmap + (i + j)) != 0) 1 (range.tdiv 8) :=
        breakAt_congr fun j _ below => by rw [byte j (by omega)]
      rw [same i (by omega), stops]
      refine if_congr Iff.rfl (if_congr Iff.rfl rfl ?_) rfl
      -- the byte behind is read once the loop has reached `count`
      by_cases reached :
          (breakAt (fun j => m (bitmap + (i + j)) != 0) 1 (range.tdiv 8) : Int) = range.tdiv 8
      · simp only [if_pos reached, byte _ (le_of_eq reached)]
      · simp only [if_neg reached]
    simp only [if_neg narrow, found]

/-- A request for more than −8 bits has it read no more bytes than there are bits. -/
theorem searchBytes_le {range : Int} (counted : -8 < range) : searchBytes range max ≤ max.toNat := by
  have whole : 0 ≤ range.tdiv 8 := by
    rcases Int.le_total 0 range with nonneg | nonpos
    · exact Int.tdiv_nonneg nonneg (by decide)
    · obtain ⟨r, rfl⟩ : ∃ r : Nat, range = -(r : Int) := ⟨(-range).toNat, by omega⟩
      rw [Int.neg_tdiv, Int.tdiv_eq_ediv_of_nonneg (by omega)]
      omega
  have bytes : ∀ x : Int, 0 < (x.tdiv 8).toNat → 8 * ((x.tdiv 8).toNat : Int) ≤ x := by
    intro x some
    have := le_of_lt_tdiv (Nat.sub_lt some one_pos)
    omega
  simp only [searchBytes]
  split
  case isTrue =>
    have := bytes max
    omega
  case isFalse =>
    have := bytes (max - range.tdiv 8 - 1)
    split <;> omega

/-! ## Requests for no bits or fewer -/

theorem byte_and_shifted (x : BitVec 8) (mask : BitVec 32) :
    x.setWidth 32 &&& mask <<< 8 = 0 := by
  rw [and_eq_zero_iff]
  intro i _ bit
  rw [BitVec.getLsbD_shiftLeft] at bit
  simp only [Bool.and_eq_true, Bool.not_eq_true', decide_eq_false_iff_not] at bit
  rw [BitVec.getLsbD_setWidth, BitVec.getLsbD_of_ge _ _ (by omega), Bool.and_false]

/-- A run of `-7, …, 0` bits is found in every byte that is not full. -/
theorem nonpos_turn {rin : Int} (lower : -7 ≤ rin) (upper : rin ≤ 0) (i : Nat) :
    firstSome (8 - rin).toNat (fun j =>
      if (m (bitmap + i)).setWidth 32 &&& (lowrin rin).setWidth 32 <<< j = 0 then
        some (i * 8 + j)
      else none) ≠ none := by
  rw [Ne, firstSome_eq_none]
  intro never
  rcases Int.lt_or_eq_of_le upper with negative | zero
  · have miss := never 8 (by omega)
    rw [if_pos (byte_and_shifted _ _)] at miss
    cases miss
  · subst zero
    have miss := never 0 (by decide)
    have mask : lowrin 0 = 0 := by decide
    simp [mask] at miss

/-- When a request for no bits or fewer is refused. -/
theorem searchRange_nonpos {range : Int} (nonpos : range ≤ 0) :
    searchRange m bitmap range max < 0 ↔
      range ≤ -8 ∨ ∀ i < (max.tdiv 8).toNat, m (bitmap + i) = maxDw := by
  obtain ⟨r, rfl⟩ : ∃ r : Nat, range = -(r : Int) := ⟨(-range).toNat, by omega⟩
  have rin : (-(r : Int)).tmod 8 = -(r % 8 : Nat) := by
    rw [Int.neg_tmod, Int.tmod_eq_emod_of_nonneg (by omega)]; omega
  have whole : (-(r : Int)).tdiv 8 = -(r / 8 : Nat) := by
    rw [Int.neg_tdiv, Int.tdiv_eq_ediv_of_nonneg (by omega)]; omega
  by_cases far : -(r : Int) ≤ -8
  · -- the counters start at 0 and 1 and never meet a negative `count`
    have negative : (-(r : Int)).tdiv 8 < 0 := by omega
    have none : findWide m bitmap ((-(r : Int)).tmod 8) ((-(r : Int)).tdiv 8) max = none := by
      rw [findWide, firstSome_eq_none]
      intro i _
      have zeroth : breakAt (fun _ => m (bitmap + i) != 0) 0 ((-(r : Int)).tdiv 8) = 0 :=
        breakAt_eq_start (.inr (by omega))
      have first : breakAt (fun j => m (bitmap + (i + j)) != 0) 1 ((-(r : Int)).tdiv 8) = 1 :=
        breakAt_eq_start (.inr (by omega))
      simp only [zeroth, first]
      rw [if_neg (show ¬ ((0 : Nat) : Int) = (-(r : Int)).tdiv 8 by omega),
        if_neg (show ¬ ((1 : Nat) : Int) = (-(r : Int)).tdiv 8 by omega), ite_self, ite_self]
    refine iff_of_true ?_ (.inl far)
    rw [searchRange, if_neg (show (-(r : Int)).tdiv 8 ≠ 0 by omega), none]
    decide
  · have count : (-(r : Int)).tdiv 8 = 0 := by omega
    have same : (-(r : Int)).tmod 8 = -(r : Int) := by omega
    simp only [searchRange, count, same, if_true, far, false_or]
    cases found : findNarrow m bitmap (-(r : Int)) max with
    | none =>
        rw [findNarrow, firstSome_eq_none] at found
        refine iff_of_true (by simp) fun i row => ?_
        have turn := found i row
        by_contra partly
        rw [if_pos partly] at turn
        exact nonpos_turn (by omega) nonpos i turn
    | some s =>
        rw [findNarrow, firstSome_eq_some] at found
        obtain ⟨i, row, here, -⟩ := found
        refine iff_of_false (by simp) fun full => ?_
        rw [if_neg (not_not.mpr (full i row))] at here
        cases here

end Branches

/-! ## Soundness -/

/-- Where the search stops, the first bits of the byte after the whole bytes of
the run are clear: those are the last bits of the run. -/
def TailClear (m : Mem) (bitmap range : Nat) (max : Int) : Prop :=
  ∀ s, Picks m bitmap range max s → Clear m bitmap (s + 8 * (range / 8)) (range % 8)

section Soundness

variable {m : Mem} {bitmap r : Nat} {max : Int} {s : Nat}

/-- A run the search stops at ends at `max` or before: the bits from `max` on are
set, and the test has seen a clear bit at or after the last one of the run. -/
theorem Passes.end_le (beyond : ∀ k : Nat, max ≤ k → bitmapTest m bitmap k = true)
    (positive : 0 < r) (passes : Passes m bitmap r max s) : (s : Int) + r ≤ max := by
  -- a clear bit lies below `max`
  have below : ∀ k, bitmapTest m bitmap k = false → (k : Int) < max := by
    intro k clear
    by_contra above
    rw [beyond k (by omega)] at clear
    cases clear
  by_cases small : r < 8
  · rw [Passes, if_pos small] at passes
    have last := below (s + r - 1) (passes.2.2 _ (by omega) (by omega))
    omega
  · rw [Passes, if_neg small] at passes
    obtain ⟨-, -, bytes, tail⟩ := passes
    by_cases exact : r % 8 = 0
    · have last := below (s + r - 1) (bytes _ (by omega) (by omega))
      omega
    · have last := below (s + 8 * (r / 8) + 7) (tail _ (by omega) (by omega))
      omega

theorem Passes.clear_iff (passes : Passes m bitmap r max s) :
    Clear m bitmap s r ↔ r < 8 ∨ r % 8 = 0 ∨ Clear m bitmap (s + 8 * (r / 8)) (r % 8) := by
  by_cases small : r < 8
  · rw [Passes, if_pos small] at passes
    exact iff_of_true passes.2.2 (.inl small)
  · rw [Passes, if_neg small] at passes
    obtain ⟨-, -, bytes, -⟩ := passes
    constructor
    · intro clear
      exact .inr (.inr (clear.mono (by omega) (by omega)))
    · intro tail k lower upper
      by_cases whole : k < s + 8 * (r / 8)
      · exact bytes k lower whole
      · rcases tail with small' | exact | clear
        · omega
        · omega
        · exact clear k (by omega) (by omega)

end Soundness

/-- **When the search is sound.**  On a bitmap whose bits from `max` on are set,
every answer of `bitmap_find_range` is a run of clear bits below `max` iff the
run is shorter than a byte, or is of whole bytes, or `TailClear` holds. -/
theorem bitmapFindRange_sound_iff (b : Build) (m : Mem) (bitmap : Nat) (range max : Int)
    (asserted : 1 < range) (beyond : ∀ k : Nat, max ≤ k → bitmapTest m bitmap k = true) :
    (∀ s : Int, bitmapFindRange b m bitmap range max = .ok s → 0 ≤ s →
        s + range ≤ max ∧ ∀ k : Nat, s ≤ k → k < s + range → bitmapTest m bitmap k = false) ↔
      (range < 8 ∨ range % 8 = 0 ∨ TailClear m bitmap range.toNat max) := by
  obtain ⟨r, rfl⟩ : ∃ r : Nat, range = r := ⟨range.toNat, by omega⟩
  have returns : bitmapFindRange b m bitmap r max = .ok (searchRange m bitmap r max) := by
    simp [bitmapFindRange, asserted, bind, Except.bind, pure, Except.pure]
  rw [returns, Int.toNat_natCast]
  have positive : 0 < r := by omega
  have cast : ∀ s : Nat, (∀ k : Nat, (s : Int) ≤ k → (k : Int) < s + r →
      bitmapTest m bitmap k = false) ↔ Clear m bitmap s r := fun s =>
    ⟨fun all k lower upper => all k (by omega) (by omega),
      fun clear k lower upper => clear k (by omega) (by omega)⟩
  constructor
  · intro sound
    by_cases small : r < 8
    · exact .inl (by omega)
    · refine .inr (or_iff_not_imp_left.mpr fun tail s picks => ?_)
      have found := searchRange_of_picks positive picks
      have clear := (cast s).mp (sound s (by rw [found]) (by omega)).2
      rcases picks.1.clear_iff.mp clear with small' | exact | here
      · omega
      · omega
      · exact here
  · intro condition s same nonneg
    rw [Except.ok.injEq] at same
    obtain ⟨n, rfl⟩ : ∃ n : Nat, s = n := ⟨s.toNat, by omega⟩
    have picks := (searchRange_eq_iff positive).mp same
    refine ⟨picks.1.end_le beyond positive, (cast n).mpr (picks.1.clear_iff.mpr ?_)⟩
    rcases condition with small | exact | tail
    · exact .inl (by omega)
    · exact .inr (.inl (by omega))
    · exact .inr (.inr (tail n picks))

/-- Slabs 0, 16 and everything from 32 on taken. -/
def holed : Mem := fun x =>
  if x = 0 ∨ x = 2 then 0x01 else if x = 1 ∨ x = 3 then 0x00 else 0xff

theorem holed_beyond : ∀ k : Nat, (32 : Int) ≤ k → bitmapTest holed 0 k = true := by
  intro k above
  have full : holed (0 + k / 8) = 0xff := by
    simp only [holed]
    rw [if_neg (by omega), if_neg (by omega)]
  have bound : k % 8 < 8 := Nat.mod_lt _ (by decide)
  have bits : ∀ j : Fin 8, (0xff : BitVec 8).getLsbD j = true := by decide
  rw [bitmapTest_eq, full]
  exact bits ⟨k % 8, bound⟩

/-- A request for nine bits is answered with position 8, whose ninth bit is set. -/
theorem bitmapFindRange_unsound :
    ¬ ∀ (b : Build) (m : Mem) (bitmap : Nat) (range max : Int), 1 < range →
      (∀ k : Nat, max ≤ k → bitmapTest m bitmap k = true) →
      ∀ s : Int, bitmapFindRange b m bitmap range max = .ok s → 0 ≤ s →
        s + range ≤ max ∧ ∀ k : Nat, s ≤ k → k < s + range → bitmapTest m bitmap k = false := by
  intro sound
  have found : bitmapFindRange .debug holed 0 9 32 = .ok 8 := by decide
  have clear := (sound .debug holed 0 9 32 (by decide) holed_beyond 8 found (by decide)).2 16
    (by decide) (by decide)
  exact absurd clear (by decide)

/-- Sixteen bits of the same bitmap, two whole bytes. -/
theorem bitmapFindRange_sound_iff_holed : (16 : Int) % 8 = 0 ∧
    ∀ s : Int, bitmapFindRange .debug holed 0 16 32 = .ok s → 0 ≤ s →
      s + 16 ≤ 32 ∧ ∀ k : Nat, s ≤ k → k < s + 16 → bitmapTest holed 0 k = false :=
  ⟨by decide, (bitmapFindRange_sound_iff .debug holed 0 16 32 (by decide) holed_beyond).mpr
    (.inr (.inl (by decide)))⟩

end Itaro.Usmm
