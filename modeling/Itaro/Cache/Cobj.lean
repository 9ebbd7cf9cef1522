/-
# Cache.Cobj -- cobj.c: strings that count

A string object holds its number in the pointer itself or as text.  Both are
incremented by `cobj_incrby`: the number is taken from the pointer or parsed, and
the sum put back the same way.  `Denotes.incrby` and `Denotes.incrby_refused` are all
that it does to an object that denotes a number, whichever the encoding.

Memory that runs out ends the process (`zmalloc`), so there is no branch for it.
-/
import Itaro.Cache.Decimal

namespace Itaro.Cache

set_option autoImplicit false

open Theory

/-! ## Objects -/

inductive CobjType
  | string
  | list
  | set
  | zset
  | hash
  deriving DecidableEq, Repr

inductive Encoding
  | raw
  | int
  | ht
  | zipmap
  | linkedlist
  | ziplist
  | intset
  | skiplist
  deriving DecidableEq, Repr

/-- `void *ptr`: a number in its place, or what it points to. -/
inductive Ptr
  | num (num : BitVec 64)
  | sds (val : Sds)
  deriving DecidableEq, Repr

def Ptr.isNum : Ptr → Bool
  | .num _ => true
  | .sds _ => false

/-- `cobj_t`.  The functions here look at the pointer of a string only. -/
structure Cobj where
  type : CobjType
  encoding : Encoding
  lru : BitVec 24
  refcount : BitVec 32
  ptr : Ptr
  /-- The encoding tells what the pointer is. -/
  encoded : ptr.isNum = decide (encoding = .int)
  deriving DecidableEq, Repr

def cobjSdsCreate (val : Sds) : Cobj where
  type := .string
  encoding := .raw
  lru := 0
  refcount := 1
  ptr := .sds val
  encoded := rfl

/-! ## Increments -/

/-- `sds_to_int64`: a negative code, or `*out`. -/
def sdsToInt64 (val : Sds) : Except Int (BitVec 64) :=
  let num := strtoll val.buf
  if num.errno ≠ 0 then .error (-num.errno)
  else if num.endptr = 0 then .error (-einval)
  else if val.buf[num.endptr]? ≠ some 0 then .error (-einval)
  else .ok num.value

/-- What the first test of the encoding decides: where the number is. -/
def Ptr.number : Ptr → Except Int (BitVec 64)
  | .num n => .ok n
  | .sds val => sdsToInt64 val

/-- What the second decides: a new string takes the place of the old one. -/
def Ptr.store (num : BitVec 64) : Ptr → Ptr
  | .num _ => .num num
  | .sds _ => .sds (sdsfromlonglong num)

theorem Ptr.isNum_store (num : BitVec 64) (ptr : Ptr) : (ptr.store num).isNum = ptr.isNum := by
  cases ptr <;> rfl

def Cobj.store (co : Cobj) (num : BitVec 64) : Cobj :=
  { co with
    ptr := co.ptr.store num
    encoded := (Ptr.isNum_store num co.ptr).trans co.encoded }

/-- "increment or decrement would overflow" -/
def overflows (incr num : BitVec 64) : Bool :=
  (incr.slt 0 && num.slt 0 && incr.slt (llongMin - num)) ||
    (BitVec.slt 0 incr && BitVec.slt 0 num && (llongMax - num).slt incr)

/-- `cobj_incrby`: the code, and the object after it. -/
def cobjIncrby (co : Cobj) (incr : BitVec 32) : Int × Cobj :=
  if co.type ≠ .string then (-1, co)
  else
    match co.ptr.number with
    | .error _ => (-einval, co)
    | .ok num =>
        if overflows (incr.signExtend 64) num then (-einval, co)
        else (0, co.store (num + incr.signExtend 64))

def cobjSdsIncrby (co : Cobj) (incr : BitVec 32) : Int × Cobj := cobjIncrby co incr

/-- The `int` is negated as an `int`.  C does not define that for `INT_MIN`, which the
machine's negation leaves as it is. -/
def cobjSdsDecrby (co : Cobj) (decr : BitVec 32) : Int × Cobj := cobjIncrby co (-decr)

/-! ## Parsing -/

/-- The parser accepts what is a number up to the first NUL, and fits. -/
theorem sdsToInt64_eq_ok_iff (val : Sds) (v : BitVec 64) :
    sdsToInt64 val = .ok v ↔
      ∃ w rest, val.buf = w ++ 0 :: rest ∧ decimal.Numeral w v.toInt := by
  constructor
  · intro accepted
    cases read : strtoll val.buf with
    | mk value endptr errno =>
        simp only [sdsToInt64, read] at accepted
        split_ifs at accepted with failed unmoved stop
        cases accepted
        cases not_not.mp failed
        obtain ⟨w, rest, text, rfl, numeral, -⟩ :=
          decimal.scan_eq_some_iff.mp ((strtoll_eq_iff unmoved).mp read)
        have terminator := not_not.mp stop
        rw [text, List.getElem?_append_right (Nat.le_refl _), Nat.sub_self] at terminator
        cases rest with
        | nil => cases terminator
        | cons c rest =>
            cases terminator
            exact ⟨w, rest, text, numeral⟩
  · rintro ⟨w, rest, text, numeral⟩
    have stops : Stops decimal.isDigit (0 :: rest) := by
      rintro c ⟨⟩
      decide
    have found : decimal.scan val.buf = some (v.toInt, w.length) :=
      decimal.scan_eq_some_iff.mpr ⟨w, 0 :: rest, text, rfl, numeral, stops⟩
    have moved : w.length ≠ 0 := by
      intro empty
      exact numeral.ne_nil (List.eq_nil_of_length_eq_zero empty)
    have terminator : val.buf[w.length]? = some 0 := by simp [text]
    unfold sdsToInt64
    simp [(strtoll_eq_iff moved).mpr found, moved, terminator]

/-! ## Overflow -/

/-- The test is exact: it stops the sums that a `long long` cannot hold. -/
theorem overflows_iff (incr num : BitVec 64) :
    overflows incr num = true ↔ ¬IsLongLong (num.toInt + incr.toInt) := by
  have incrFits := isLongLong_iff.mp (isLongLong_toInt incr)
  have numFits := isLongLong_iff.mp (isLongLong_toInt num)
  have zero : (0 : BitVec 64).toInt = 0 := by decide
  have least : llongMin.toInt = -2 ^ 63 := by decide
  have greatest : llongMax.toInt = 2 ^ 63 - 1 := by decide
  -- Neither difference overflows, under the sign that is tested before it.
  have low : num.toInt < 0 → (llongMin - num).toInt = -2 ^ 63 - num.toInt := by
    intro negative
    rw [toInt_sub_of_isLongLong (isLongLong_iff.mpr (by omega)), least]
  have high : 0 < num.toInt → (llongMax - num).toInt = 2 ^ 63 - 1 - num.toInt := by
    intro positive
    rw [toInt_sub_of_isLongLong (isLongLong_iff.mpr (by omega)), greatest]
  simp only [overflows, Bool.or_eq_true, Bool.and_eq_true, BitVec.slt_iff_toInt_lt, zero,
    isLongLong_iff]
  omega

/-! ## What an increment does -/

theorem cobjIncrby_of_number {co : Cobj} {num : BitVec 64} (string : co.type = .string)
    (number : co.ptr.number = .ok num) (incr : BitVec 32) :
    cobjIncrby co incr =
      if IsLongLong (num.toInt + incr.toInt) then (0, co.store (num + incr.signExtend 64))
      else (-einval, co) := by
  have test := overflows_iff (incr.signExtend 64) num
  rw [toInt_signExtend_int] at test
  unfold cobjIncrby
  simp only [string, number, ne_eq, not_true_eq_false, if_false]
  by_cases fits : IsLongLong (num.toInt + incr.toInt)
  · rw [if_pos fits, if_neg (test.not.mpr (not_not.mpr fits))]
  · rw [if_neg fits, if_pos (test.mpr fits)]

/-- What succeeds: the number is there, and the sum fits. -/
theorem cobjIncrby_eq_zero_iff {co : Cobj} (string : co.type = .string) (incr : BitVec 32) :
    (cobjIncrby co incr).1 = 0 ↔
      ∃ num, co.ptr.number = .ok num ∧ IsLongLong (num.toInt + incr.toInt) := by
  have failure : ¬-einval = 0 := by decide
  cases number : co.ptr.number with
  | error e =>
      have refused : cobjIncrby co incr = (-einval, co) := by
        unfold cobjIncrby
        rw [if_neg (not_not.mpr string), number]
      rw [refused]
      exact iff_of_false failure (by rintro ⟨num, ⟨⟩, -⟩)
  | ok num =>
      rw [cobjIncrby_of_number string number]
      by_cases fits : IsLongLong (num.toInt + incr.toInt)
      · rw [if_pos fits]
        exact iff_of_true rfl ⟨num, rfl, fits⟩
      · rw [if_neg fits]
        refine iff_of_false failure ?_
        rintro ⟨num', ⟨⟩, fits'⟩
        exact fits fits'

/-- An increment that fails leaves the object alone. -/
theorem cobjIncrby_unchanged {co : Cobj} {incr : BitVec 32} (fails : (cobjIncrby co incr).1 ≠ 0) :
    (cobjIncrby co incr).2 = co := by
  unfold cobjIncrby at fails ⊢
  by_cases string : co.type = .string
  · rw [if_neg (not_not.mpr string)] at fails ⊢
    cases number : co.ptr.number with
    | error _ => rfl
    | ok num =>
        rw [number] at fails
        by_cases tooBig : overflows (incr.signExtend 64) num = true
        · simp only [if_pos tooBig]
        · simp [tooBig] at fails
  · rw [if_pos string]

namespace Cobj

/-- The number itself, or its canonical text. -/
def Holds (n : Int) : Ptr → Prop
  | .num num => num.toInt = n
  | .sds val => val.bytes = decimal.text n

/-- A string object that denotes `n` under an encoding. -/
structure Denotes (co : Cobj) (encoding : Encoding) (n : Int) : Prop where
  string : co.type = .string
  encoding : co.encoding = encoding
  fits : IsLongLong n
  holds : Holds n co.ptr

variable {co : Cobj} {encoding : Encoding} {n : Int}

theorem Denotes.number (denotes : co.Denotes encoding n) :
    co.ptr.number = .ok (BitVec.ofInt 64 n) := by
  have value := toInt_ofInt_of_isLongLong denotes.fits
  have holds := denotes.holds
  cases pointer : co.ptr with
  | num num =>
      rw [pointer] at holds
      exact congrArg _ (BitVec.eq_of_toInt_eq (holds.trans value.symm))
  | sds val =>
      rw [pointer] at holds
      refine (sdsToInt64_eq_ok_iff val _).mpr ⟨val.bytes, _, val.buf_eq, ?_⟩
      rw [value, show val.bytes = decimal.text n from holds]
      exact decimal.numeral_text n

theorem Denotes.store (denotes : co.Denotes encoding n) (num : BitVec 64) :
    (co.store num).Denotes encoding num.toInt := by
  refine ⟨denotes.string, denotes.encoding, isLongLong_toInt num, ?_⟩
  change Holds num.toInt (co.ptr.store num)
  cases co.ptr with
  | num _ => exact rfl
  | sds _ => exact bytes_sdsfromlonglong num

theorem Denotes.unique {m : Int} (denotes : co.Denotes encoding n) (other : co.Denotes encoding m) :
    n = m := by
  have same : BitVec.ofInt 64 n = BitVec.ofInt 64 m :=
    Except.ok.inj (denotes.number.symm.trans other.number)
  rw [← toInt_ofInt_of_isLongLong denotes.fits, same, toInt_ofInt_of_isLongLong other.fits]

/-- Under either encoding an increment adds what fits, -/
theorem Denotes.incrby (denotes : co.Denotes encoding n) {incr : BitVec 32}
    (fits : IsLongLong (n + incr.toInt)) :
    ∃ co', cobjIncrby co incr = (0, co') ∧ co'.Denotes encoding (n + incr.toInt) := by
  have value := toInt_ofInt_of_isLongLong denotes.fits
  have sum : (BitVec.ofInt 64 n + incr.signExtend 64).toInt = n + incr.toInt := by
    rw [toInt_add_of_isLongLong (by rwa [value, toInt_signExtend_int]), value,
      toInt_signExtend_int]
  refine ⟨co.store (BitVec.ofInt 64 n + incr.signExtend 64), ?_, sum ▸ denotes.store _⟩
  rw [cobjIncrby_of_number denotes.string denotes.number, value, if_pos fits]

/-- and refuses what does not. -/
theorem Denotes.incrby_refused (denotes : co.Denotes encoding n) {incr : BitVec 32}
    (tooBig : ¬IsLongLong (n + incr.toInt)) : cobjIncrby co incr = (-einval, co) := by
  have value := toInt_ofInt_of_isLongLong denotes.fits
  rw [cobjIncrby_of_number denotes.string denotes.number, value, if_neg tooBig]

end Cobj

end Itaro.Cache
