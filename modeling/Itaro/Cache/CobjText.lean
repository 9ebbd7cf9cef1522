/-
# Cache.CobjText -- which texts count as numbers

An sds may hold any byte, and its length says where it ends; the parser ends at the
first NUL.  A content without NUL is incremented only if all of it is a number.  With
one, only what stands before the NUL is looked at, and a successful increment throws
away the rest: `cobjSdsIncrby_keepsText_iff` says for which contents.
-/
import Itaro.Cache.Cobj

namespace Itaro.Cache

set_option autoImplicit false

/-- All of `content` is a number that a `long long` can hold. -/
def IsNumber (content : List (BitVec 8)) : Prop :=
  ∃ n, IsLongLong n ∧ decimal.Numeral content n

/-- Only a number is incremented, and nothing else is changed. -/
def KeepsText (co : Cobj) (content : List (BitVec 8)) (incr : BitVec 32) : Prop :=
  ((cobjSdsIncrby co incr).1 = 0 → IsNumber content) ∧
    (¬IsNumber content → (cobjSdsIncrby co incr).1 ≠ 0 ∧ (cobjSdsIncrby co incr).2 = co)

/-- A number, then a NUL: the rest of the content is not looked at. -/
def HidesRest (content : List (BitVec 8)) (incr : BitVec 32) : Prop :=
  ∃ w rest n, content = w ++ 0 :: rest ∧ decimal.Numeral w n ∧
    IsLongLong n ∧ IsLongLong (n + incr.toInt)

/-- There is no NUL in a number. -/
theorem nul_not_mem {w : List (BitVec 8)} {n : Int} (numeral : decimal.Numeral w n) :
    (0 : BitVec 8) ∉ w :=
  Theory.Alphabet.Numeral.not_mem numeral (by decide) (by decide) (by decide)

theorem IsNumber.not_hidesRest {content : List (BitVec 8)} (number : IsNumber content)
    (incr : BitVec 32) : ¬HidesRest content incr := by
  obtain ⟨n, -, numeral⟩ := number
  rintro ⟨w, rest, _, rfl, -⟩
  exact nul_not_mem numeral (by simp)

/-- A NUL that a number stands in front of ends the content or is part of it. -/
theorem front_of_buf {val : Sds} {w : List (BitVec 8)} {n : Int} (numeral : decimal.Numeral w n) :
    (∃ rest, val.buf = w ++ 0 :: rest) ↔
      val.bytes = w ∨ ∃ rest, val.bytes = w ++ 0 :: rest := by
  obtain ⟨spare, whole⟩ : ∃ spare, val.buf = val.bytes ++ 0 :: spare := ⟨_, val.buf_eq⟩
  constructor
  · rintro ⟨rest, front⟩
    rw [whole, List.append_eq_append_iff] at front
    rcases front with ⟨tail, long, ends⟩ | ⟨tail, long, ends⟩
    · cases tail with
      | nil => exact .inl (by rw [long, List.append_nil])
      | cons c tail =>
          cases ends
          exact absurd (by simp [long]) (nul_not_mem numeral)
    · cases tail with
      | nil => exact .inl (by rw [long, List.append_nil])
      | cons c tail =>
          cases ends
          exact .inr ⟨tail, long⟩
  · rintro (ends | ⟨rest, inside⟩)
    · exact ⟨_, by rw [← ends]; exact whole⟩
    · refine ⟨rest ++ 0 :: spare, ?_⟩
      rw [whole, inside, List.append_assoc, List.cons_append]

/-- Code 0 is for a number whose sum fits, with the end of the content or a NUL behind it. -/
theorem cobjSdsIncrby_eq_zero_iff {co : Cobj} {val : Sds} (string : co.type = .string)
    (text : co.ptr = .sds val) (incr : BitVec 32) :
    (cobjSdsIncrby co incr).1 = 0 ↔
      (∃ n, IsLongLong n ∧ IsLongLong (n + incr.toInt) ∧ decimal.Numeral val.bytes n) ∨
        HidesRest val.bytes incr := by
  unfold cobjSdsIncrby
  rw [cobjIncrby_eq_zero_iff string, text]
  constructor
  · rintro ⟨num, parsed, sum⟩
    obtain ⟨w, rest, front, numeral⟩ := (sdsToInt64_eq_ok_iff val num).mp parsed
    obtain rfl | ⟨rest', inside⟩ := (front_of_buf numeral).mp ⟨rest, front⟩
    · exact .inl ⟨_, isLongLong_toInt num, sum, numeral⟩
    · exact .inr ⟨w, rest', _, inside, numeral, isLongLong_toInt num, sum⟩
  · intro accepted
    obtain ⟨w, n, fits, sum, numeral, front⟩ :
        ∃ w n, IsLongLong n ∧ IsLongLong (n + incr.toInt) ∧ decimal.Numeral w n ∧
          ∃ rest, val.buf = w ++ 0 :: rest := by
      rcases accepted with ⟨n, fits, sum, numeral⟩ | ⟨w, rest, n, inside, numeral, fits, sum⟩
      · exact ⟨_, n, fits, sum, numeral, (front_of_buf numeral).mpr (.inl rfl)⟩
      · exact ⟨w, n, fits, sum, numeral, (front_of_buf numeral).mpr (.inr ⟨rest, inside⟩)⟩
    obtain ⟨rest, front⟩ := front
    have value := toInt_ofInt_of_isLongLong fits
    refine ⟨BitVec.ofInt 64 n, ?_, by rwa [value]⟩
    exact (sdsToInt64_eq_ok_iff val _).mpr ⟨w, rest, front, by rwa [value]⟩

/-- Nothing but numbers is incremented exactly where no number hides the rest. -/
theorem cobjSdsIncrby_keepsText_iff {co : Cobj} {val : Sds} (string : co.type = .string)
    (text : co.ptr = .sds val) (incr : BitVec 32) :
    KeepsText co val.bytes incr ↔ ¬HidesRest val.bytes incr := by
  have accepts := cobjSdsIncrby_eq_zero_iff string text incr
  constructor
  · rintro ⟨onlyNumbers, -⟩ hides
    exact (onlyNumbers (accepts.mpr (.inr hides))).not_hidesRest incr hides
  · intro shows
    have onlyNumbers : (cobjSdsIncrby co incr).1 = 0 → IsNumber val.bytes := by
      intro code
      obtain ⟨n, fits, -, numeral⟩ := (accepts.mp code).resolve_right shows
      exact ⟨n, fits, numeral⟩
    refine ⟨onlyNumbers, fun other => ?_⟩
    have code : (cobjSdsIncrby co incr).1 ≠ 0 := fun zero => other (onlyNumbers zero)
    exact ⟨code, cobjIncrby_unchanged code⟩

theorem cobjSdsIncrby_keepsText_number :
    KeepsText (cobjSdsCreate (sdsfromlonglong 7)) (sdsfromlonglong 7).bytes 1 ↔
      ¬HidesRest (sdsfromlonglong 7).bytes 1 :=
  cobjSdsIncrby_keepsText_iff rfl rfl 1

/-- `12`, a NUL, and `ab`. -/
def hidden : Sds := sdsnewlen [0x31, 0x32, 0, 0x61, 0x62] (by decide)

/-- It is incremented to `13`. -/
theorem increment_discards_bytes :
    cobjSdsIncrby (cobjSdsCreate hidden) 1 = (0, cobjSdsCreate (sdsfromlonglong 13)) ∧
      ¬IsNumber hidden.bytes ∧ ¬KeepsText (cobjSdsCreate hidden) hidden.bytes 1 := by
  have incremented : cobjSdsIncrby (cobjSdsCreate hidden) 1 =
      (0, cobjSdsCreate (sdsfromlonglong 13)) := by decide
  have other : ¬IsNumber hidden.bytes := by
    rintro ⟨n, -, numeral⟩
    exact nul_not_mem numeral (by decide)
  refine ⟨incremented, other, ?_⟩
  rintro ⟨onlyNumbers, -⟩
  exact other (onlyNumbers (congrArg Prod.fst incremented))

end Itaro.Cache
