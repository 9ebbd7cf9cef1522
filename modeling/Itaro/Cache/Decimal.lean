/-
# Cache.Decimal -- numbers as text: `strtoll`, `sdsll2str`

`strtoll` is the C library's, for base 10 in the "C" locale: it reads white space, a
sign and digits off the front of a text, as far as they go, and clamps what a
`long long` cannot hold.  `sdsll2str` writes the digits backwards, the lowest first
and the sign last, and then turns the buffer round.  What it leaves is the canonical
text of the number (`sdsll2str_eq`), at `LLONG_MIN` too, and never leaves its buffer.
-/
import Itaro.Theory.Numeral
import Itaro.Theory.Reverse
import Itaro.Cache.Sds

namespace Itaro.Cache

set_option autoImplicit false

open Theory

/-! ## Characters and numbers -/

/-- `isdigit` -/
def isdigit (c : BitVec 8) : Bool := 0x30 ≤ c ∧ c ≤ 0x39

/-- `isspace`: blank, and `\t \n \v \f \r`. -/
def isspace (c : BitVec 8) : Bool := c = 0x20 ∨ (0x09 ≤ c ∧ c ≤ 0x0d)

/-- The alphabet of decimal numbers in ASCII. -/
def decimal : Alphabet (BitVec 8) where
  base := 10
  digit d := BitVec.ofNat 8 (0x30 + d)
  value c := c.toNat - 0x30
  isDigit := isdigit
  isSpace := isspace
  plus := 0x2b
  minus := 0x2d
  one_lt_base := by decide
  isDigit_digit := by decide
  value_digit := by decide
  space_not_digit := by decide
  plus_not_digit := by decide
  plus_not_space := by decide
  minus_not_digit := by decide
  minus_not_space := by decide

def llongMin : BitVec 64 := 0x8000000000000000

def llongMax : BitVec 64 := 0x7fffffffffffffff

/-- A `long long` can hold `n`. -/
def IsLongLong (n : Int) : Prop := llongMin.toInt ≤ n ∧ n ≤ llongMax.toInt

instance (n : Int) : Decidable (IsLongLong n) := inferInstanceAs (Decidable (_ ∧ _))

theorem isLongLong_iff {n : Int} : IsLongLong n ↔ -2 ^ 63 ≤ n ∧ n < 2 ^ 63 := by
  have low : llongMin.toInt = -2 ^ 63 := by decide
  have high : llongMax.toInt = 2 ^ 63 - 1 := by decide
  unfold IsLongLong
  omega

theorem isLongLong_toInt (v : BitVec 64) : IsLongLong v.toInt := by
  have low := BitVec.le_toInt v
  have high := BitVec.toInt_lt (x := v)
  exact isLongLong_iff.mpr ⟨by simpa using low, by simpa using high⟩

theorem bmod_of_isLongLong {n : Int} (fits : IsLongLong n) : n.bmod (2 ^ 64) = n := by
  obtain ⟨low, high⟩ := isLongLong_iff.mp fits
  exact Int.bmod_eq_of_le (by omega) (by omega)

theorem toInt_ofInt_of_isLongLong {n : Int} (fits : IsLongLong n) :
    (BitVec.ofInt 64 n).toInt = n := by
  rw [BitVec.toInt_ofInt, bmod_of_isLongLong fits]

theorem toInt_add_of_isLongLong {a b : BitVec 64} (fits : IsLongLong (a.toInt + b.toInt)) :
    (a + b).toInt = a.toInt + b.toInt := by
  rw [BitVec.toInt_add, bmod_of_isLongLong fits]

theorem toInt_sub_of_isLongLong {a b : BitVec 64} (fits : IsLongLong (a.toInt - b.toInt)) :
    (a - b).toInt = a.toInt - b.toInt := by
  rw [BitVec.toInt_sub, bmod_of_isLongLong fits]

/-- An `int` is widened to a `long long` of the same value. -/
theorem toInt_signExtend_int (incr : BitVec 32) : (incr.signExtend 64).toInt = incr.toInt :=
  BitVec.toInt_signExtend_of_le (by decide)

/-! ## strtoll -/

/-- Linux's numbers for them. -/
def einval : Int := 22

def erange : Int := 34

/-- What `strtoll` returns, the offset of `*endptr`, and `errno` if it was 0 before. -/
structure Conversion where
  value : BitVec 64
  endptr : Nat
  errno : Int

/-- `strtoll(nptr, &endptr, 10)` -/
def strtoll (nptr : List (BitVec 8)) : Conversion :=
  match decimal.scan nptr with
  | none => ⟨0, 0, 0⟩
  | some (n, endptr) =>
      if n < llongMin.toInt then ⟨llongMin, endptr, erange⟩
      else if llongMax.toInt < n then ⟨llongMax, endptr, erange⟩
      else ⟨BitVec.ofInt 64 n, endptr, 0⟩

/-- A conversion without error gives the number that is scanned. -/
theorem strtoll_eq_iff {nptr : List (BitVec 8)} {v : BitVec 64} {endptr : Nat} (moved : endptr ≠ 0) :
    strtoll nptr = ⟨v, endptr, 0⟩ ↔ decimal.scan nptr = some (v.toInt, endptr) := by
  have fits := isLongLong_toInt v
  have range : erange ≠ 0 := by decide
  unfold strtoll
  cases found : decimal.scan nptr with
  | none => simp [moved.symm]
  | some read =>
      obtain ⟨n, stop⟩ := read
      simp only [Option.some.injEq, Prod.mk.injEq]
      by_cases low : n < llongMin.toInt
      · rw [if_pos low]
        refine iff_of_false (by simp [range]) ?_
        rintro ⟨rfl, -⟩
        exact absurd fits.1 (not_le.mpr low)
      by_cases high : llongMax.toInt < n
      · rw [if_neg low, if_pos high]
        refine iff_of_false (by simp [range]) ?_
        rintro ⟨rfl, -⟩
        exact absurd fits.2 (not_le.mpr high)
      rw [if_neg low, if_neg high, Conversion.mk.injEq]
      have value := toInt_ofInt_of_isLongLong (n := n) ⟨not_lt.mp low, not_lt.mp high⟩
      constructor
      · rintro ⟨rfl, rfl, -⟩
        exact ⟨value.symm, rfl⟩
      · rintro ⟨rfl, rfl⟩
        exact ⟨BitVec.eq_of_toInt_eq value, rfl, rfl⟩

/-! ## sdsll2str -/

def sdsLlstrSize : Nat := 21

/-- The `do` loop: what it writes from `p` on, in `turns` turns at most. -/
def digitLoop : Nat → BitVec 64 → List (BitVec 8)
  | 0, _ => []
  | turns + 1, v =>
      (0x30 + v % 10).setWidth 8 :: (if v / 10 = 0 then [] else digitLoop turns (v / 10))

/-- `sdsll2str`: the buffer as far as it is written, NUL included, and the length.
Twenty digits are enough for 64 bits (`digitLoop_eq`). -/
def sdsll2str (value : BitVec 64) : List (BitVec 8) × Nat :=
  let v := if value.slt 0 then -value else value
  let p := digitLoop 20 v
  let p := if value.slt 0 then p ++ [0x2d] else p
  let l := p.length
  (reverseBetween (p ++ [0]) 0 (l - 1), l)

/-- One turn writes one digit, and there are turns for all of them. -/
theorem digitLoop_eq (turns : Nat) (v : BitVec 64) (enough : v.toNat < 10 ^ (turns + 1)) :
    digitLoop (turns + 1) v = decimal.lowFirst v.toNat := by
  have digit (v : BitVec 64) : (0x30 + v % 10).setWidth 8 = decimal.digit (v.toNat % 10) := by
    apply BitVec.eq_of_toNat_eq
    simp [decimal]
  have quotient (v : BitVec 64) : (v / 10).toNat = v.toNat / 10 := by simp
  have last (v : BitVec 64) : v / 10 = 0 ↔ v.toNat / 10 = 0 := by
    rw [← quotient, ← BitVec.toNat_inj]
    rfl
  have step := decimal.lowFirst_step v.toNat
  induction turns generalizing v with
  | zero =>
      have done : v.toNat / 10 = 0 := by omega
      rw [digitLoop, digit, if_pos ((last v).mpr done), step]
      exact congrArg _ (if_pos done).symm
  | succ turns ih =>
      have rest := ih (v / 10) (by rw [quotient]; omega) (decimal.lowFirst_step _)
      rw [digitLoop, digit, rest, quotient, step]
      exact congrArg _ (if_congr (last v) rfl rfl)

/-- The buffer holds the canonical text, with its terminator. -/
theorem sdsll2str_eq (value : BitVec 64) :
    sdsll2str value = (decimal.text value.toInt ++ [0], (decimal.text value.toInt).length) := by
  have size := value.isLt
  have negative : value.slt 0 = true ↔ value.toInt < 0 := by
    rw [BitVec.slt_iff_toInt_lt]
    rfl
  have number : (if value.slt 0 then -value else value).toNat = value.toInt.natAbs := by
    have cond := BitVec.toInt_eq_toNat_cond value
    by_cases below : value.toInt < 0
    · rw [if_pos (negative.mpr below), BitVec.toNat_neg]
      omega
    · rw [if_neg (negative.not.mpr below)]
      omega
  have digits : digitLoop 20 (if value.slt 0 then -value else value) =
      decimal.lowFirst value.toInt.natAbs := by
    rw [digitLoop_eq 19 _ (by omega), number]
  have written : (if value.slt 0 then decimal.lowFirst value.toInt.natAbs ++ [0x2d]
      else decimal.lowFirst value.toInt.natAbs) = (decimal.text value.toInt).reverse := by
    unfold Alphabet.text
    by_cases below : value.toInt < 0
    · rw [if_pos (negative.mpr below), if_pos below]
      simp [decimal]
    · rw [if_neg (negative.not.mpr below), if_neg below]
      simp
  unfold sdsll2str
  simp only [digits, written]
  rw [reverseBetween_append, List.reverse_reverse, List.length_reverse]

example : sdsll2str (-305) = ([0x2d, 0x33, 0x30, 0x35, 0], 4) := by decide

/-- The buffer of `sdsfromlonglong` is large enough. -/
theorem sdsll2str_fits (value : BitVec 64) : (sdsll2str value).1.length ≤ sdsLlstrSize := by
  have fits := isLongLong_iff.mp (isLongLong_toInt value)
  have short : (decimal.text value.toInt).length ≤ 19 + 1 :=
    decimal.text_length_le (by decide) (by change _ < 10 ^ 19; omega)
  rw [sdsll2str_eq, List.length_append]
  exact Nat.succ_le_succ short

def sdsfromlonglong (value : BitVec 64) : Sds :=
  let written := sdsll2str value
  sdsnewlen (written.1.take written.2) (by
    have fits := sdsll2str_fits value
    have room : sdsLlstrSize < 2 ^ 32 := by decide
    exact lt_of_le_of_lt ((List.length_take_le' _ _).trans fits) room)

theorem bytes_sdsfromlonglong (value : BitVec 64) :
    (sdsfromlonglong value).bytes = decimal.text value.toInt := by
  unfold sdsfromlonglong
  rw [bytes_sdsnewlen, sdsll2str_eq]
  exact List.take_left

end Itaro.Cache
