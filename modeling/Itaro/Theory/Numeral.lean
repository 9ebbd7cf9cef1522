/-
# Theory.Numeral -- integers written with digits

An alphabet says which characters are digits, signs and white space.  `text n` is
the canonical way to write `n`; `Numeral w n` says that all of `w` is a number, in
whatever way it is written, and `n` the value.  `scan` reads a number off the front
of a text and says where it ends.  It finds exactly the numerals that stop in front
of something that is no digit (`scan_eq_some_iff`), so that it reads back what
`text` writes.
-/
import Mathlib.Data.Nat.Digits.Lemmas
import Mathlib.Data.List.TakeWhile

namespace Itaro.Theory

set_option autoImplicit false

variable {α : Type}

/-! ## Longest prefixes -/

/-- Nothing at the front of `rest` satisfies `p`. -/
def Stops (p : α → Bool) (rest : List α) : Prop := ∀ c, rest.head? = some c → p c = false

theorem takeWhile_append_stop {p : α → Bool} {w rest : List α} (all : ∀ c ∈ w, p c = true)
    (stops : Stops p rest) : (w ++ rest).takeWhile p = w := by
  rw [List.takeWhile_append_of_pos all]
  cases rest with
  | nil => simp
  | cons c rest => simp [stops c rfl]

theorem stops_dropWhile (p : α → Bool) (l : List α) : Stops p (l.dropWhile p) := by
  intro c front
  have first := List.head?_dropWhile_not p l
  rw [front] at first
  exact first

/-! ## Alphabets -/

/-- The characters of numbers in base `base`. -/
structure Alphabet (α : Type) where
  base : Nat
  digit : Nat → α
  value : α → Nat
  isDigit : α → Bool
  isSpace : α → Bool
  plus : α
  minus : α
  one_lt_base : 1 < base
  isDigit_digit : ∀ d < base, isDigit (digit d) = true
  value_digit : ∀ d < base, value (digit d) = d
  space_not_digit : ∀ c, isSpace c = true → isDigit c = false
  plus_not_digit : isDigit plus = false
  plus_not_space : isSpace plus = false
  minus_not_digit : isDigit minus = false
  minus_not_space : isSpace minus = false

namespace Alphabet

variable (A : Alphabet α)

/-! ## Digits -/

/-- The digits of `n`, the lowest first: at least one. -/
def lowFirst (n : Nat) : List α :=
  (if n = 0 then [0] else A.base.digits n).map A.digit

/-- The number that digits denote, the highest first. -/
def toNat (digits : List α) : Nat := Nat.ofDigits A.base (digits.reverse.map A.value)

theorem lowFirst_ne_nil (n : Nat) : A.lowFirst n ≠ [] := by
  unfold lowFirst
  split
  · exact List.cons_ne_nil _ _
  case isFalse nonzero =>
      rw [Ne, List.map_eq_nil_iff]
      exact Nat.digits_ne_nil_iff_ne_zero.mpr nonzero

/-- The loop that writes the digits: one turn, and the turns after it. -/
theorem lowFirst_step (n : Nat) :
    A.lowFirst n =
      A.digit (n % A.base) :: (if n / A.base = 0 then [] else A.lowFirst (n / A.base)) := by
  have base := A.one_lt_base
  by_cases zero : n = 0
  · simp [lowFirst, zero]
  · by_cases last : n / A.base = 0
    · have below : n < A.base := (Nat.div_eq_zero_iff.mp last).resolve_left (by omega)
      simp [lowFirst, zero, last, Nat.digits_of_lt _ _ zero below, Nat.mod_eq_of_lt below]
    · rw [lowFirst, if_neg zero, Nat.digits_def' base (by omega), if_neg last, List.map_cons,
        lowFirst, if_neg last]

theorem lowFirst_digit {n : Nat} {c : α} (mem : c ∈ A.lowFirst n) :
    ∃ d < A.base, c = A.digit d := by
  have base := A.one_lt_base
  unfold lowFirst at mem
  obtain ⟨d, inside, rfl⟩ := List.mem_map.mp mem
  refine ⟨d, ?_, rfl⟩
  split at inside
  · cases List.mem_singleton.mp inside
    omega
  · exact Nat.digits_lt_base base inside

theorem lowFirst_isDigit {n : Nat} {c : α} (mem : c ∈ A.lowFirst n) : A.isDigit c = true := by
  obtain ⟨d, below, rfl⟩ := A.lowFirst_digit mem
  exact A.isDigit_digit d below

theorem lowFirst_length_le {n k : Nat} (some_digit : 0 < k) (below : n < A.base ^ k) :
    (A.lowFirst n).length ≤ k := by
  unfold lowFirst
  rw [List.length_map]
  split
  · exact some_digit
  · exact (Nat.digits_length_le_iff A.one_lt_base n).mpr below

/-- Written with the highest digit first, a number is read back. -/
theorem toNat_reverse_lowFirst (n : Nat) : A.toNat (A.lowFirst n).reverse = n := by
  have values : (A.lowFirst n).map A.value = if n = 0 then [0] else A.base.digits n := by
    unfold lowFirst
    rw [List.map_map, List.map_congr_left (g := id) ?_, List.map_id]
    intro d inside
    refine A.value_digit d ?_
    have base := A.one_lt_base
    split at inside
    · cases List.mem_singleton.mp inside
      omega
    · exact Nat.digits_lt_base base inside
  rw [toNat, List.reverse_reverse, values]
  split
  case isTrue zero => simp [zero]
  case isFalse => exact Nat.ofDigits_digits _ _

/-! ## Numerals -/

/-- How `n` is written: no white space, no plus, no leading zeros. -/
def text (n : Int) : List α :=
  (if n < 0 then [A.minus] else []) ++ (A.lowFirst n.natAbs).reverse

theorem text_length_le {n : Int} {k : Nat} (some_digit : 0 < k) (below : n.natAbs < A.base ^ k) :
    (A.text n).length ≤ k + 1 := by
  have digits := A.lowFirst_length_le some_digit below
  rw [text, List.length_append, List.length_reverse]
  split <;> simp <;> omega


variable [DecidableEq α]

def isSign (c : α) : Bool := c = A.plus ∨ c = A.minus

/-- `n` under a sign. -/
def signed (sign : List α) (n : Nat) : Int := if sign = [A.minus] then -n else n

/-- All of `w` is a number, `n`: white space, a sign or none, digits. -/
def Numeral (w : List α) (n : Int) : Prop :=
  ∃ spaces sign digits : List α,
    w = spaces ++ (sign ++ digits) ∧
    (∀ c ∈ spaces, A.isSpace c = true) ∧
    (sign = [] ∨ sign = [A.plus] ∨ sign = [A.minus]) ∧
    digits ≠ [] ∧ (∀ c ∈ digits, A.isDigit c = true) ∧
    n = A.signed sign (A.toNat digits)

theorem numeral_text (n : Int) : A.Numeral (A.text n) n := by
  refine ⟨[], if n < 0 then [A.minus] else [], (A.lowFirst n.natAbs).reverse, rfl, ?_, ?_, ?_, ?_, ?_⟩
  · simp
  · split
    · exact .inr (.inr rfl)
    · exact .inl rfl
  · simpa using A.lowFirst_ne_nil n.natAbs
  · intro c mem
    exact A.lowFirst_isDigit (List.mem_reverse.mp mem)
  · rw [toNat_reverse_lowFirst, signed]
    by_cases neg : n < 0
    · rw [if_pos neg, if_pos rfl]
      omega
    · rw [if_neg neg, if_neg (List.cons_ne_nil _ _).symm]
      omega

section

variable {A}

theorem Numeral.ne_nil {w : List α} {n : Int} (numeral : A.Numeral w n) : w ≠ [] := by
  obtain ⟨spaces, sign, digits, rfl, -, -, nonempty, -⟩ := numeral
  simp [nonempty]

/-- No numeral contains a character that is neither digit nor sign nor space. -/
theorem Numeral.not_mem {w : List α} {n : Int} (numeral : A.Numeral w n) {c : α}
    (space : A.isSpace c = false) (sign : A.isSign c = false) (digit : A.isDigit c = false) :
    c ∉ w := by
  obtain ⟨spaces, front, digits, rfl, allSpace, shape, -, allDigit, -⟩ := numeral
  intro mem
  rcases List.mem_append.mp mem with mem | mem
  · simp [allSpace c mem] at space
  rcases List.mem_append.mp mem with mem | mem
  · obtain rfl | rfl | rfl := shape
    · cases mem
    · simp [isSign, List.mem_singleton.mp mem] at sign
    · simp [isSign, List.mem_singleton.mp mem] at sign
  · simp [allDigit c mem] at digit

end

/-! ## Reading -/

/-- The sign at the front, if one is there. -/
def sign (l : List α) : List α := (l.take 1).takeWhile A.isSign

theorem sign_shape (l : List α) :
    (A.sign l = [] ∨ A.sign l = [A.plus] ∨ A.sign l = [A.minus]) ∧
      l = A.sign l ++ l.drop (A.sign l).length := by
  cases l with
  | nil => simp [sign]
  | cons c l =>
      by_cases plus : c = A.plus
      · simp [sign, isSign, plus]
      · by_cases minus : c = A.minus
        · simp [sign, isSign, minus]
        · simp [sign, isSign, plus, minus]

/-- The number at the front of a text, and where it ends: the longest one. -/
def scan (l : List α) : Option (Int × Nat) :=
  let spaces := l.takeWhile A.isSpace
  let rest := l.drop spaces.length
  let sign := A.sign rest
  let digits := (rest.drop sign.length).takeWhile A.isDigit
  if digits = [] then none
  else some (A.signed sign (A.toNat digits), spaces.length + sign.length + digits.length)

theorem scan_append {spaces sign digits rest : List α} (allSpace : ∀ c ∈ spaces, A.isSpace c = true)
    (shape : sign = [] ∨ sign = [A.plus] ∨ sign = [A.minus]) (nonempty : digits ≠ [])
    (allDigit : ∀ c ∈ digits, A.isDigit c = true) (stops : Stops A.isDigit rest) :
    A.scan (spaces ++ (sign ++ (digits ++ rest))) =
      some (A.signed sign (A.toNat digits), spaces.length + sign.length + digits.length) := by
  obtain ⟨d, ds, rfl⟩ := List.exists_cons_of_ne_nil nonempty
  have digit := allDigit d List.mem_cons_self
  have notSpace : A.isSpace d = false := by
    cases space : A.isSpace d with
    | false => rfl
    | true => rw [A.space_not_digit d space] at digit; cases digit
  have notSign : A.isSign d = false := by
    have plus : d ≠ A.plus := by
      rintro rfl
      rw [A.plus_not_digit] at digit
      cases digit
    have minus : d ≠ A.minus := by
      rintro rfl
      rw [A.minus_not_digit] at digit
      cases digit
    simp [isSign, plus, minus]
  have behind : Stops A.isSpace (sign ++ ((d :: ds) ++ rest)) := by
    intro c front
    obtain rfl | rfl | rfl := shape
    · cases front; exact notSpace
    · cases front; exact A.plus_not_space
    · cases front; exact A.minus_not_space
  have signs : A.sign (sign ++ ((d :: ds) ++ rest)) = sign := by
    obtain rfl | rfl | rfl := shape
    · simp [Alphabet.sign, notSign]
    · simp [Alphabet.sign, isSign]
    · simp [Alphabet.sign, isSign]
  simp only [scan, takeWhile_append_stop allSpace behind, List.drop_left, signs,
    takeWhile_append_stop allDigit stops, if_neg nonempty]

/-- `scan` finds the numeral at the front that ends where the digits end. -/
theorem scan_eq_some_iff {l : List α} {n : Int} {k : Nat} :
    A.scan l = some (n, k) ↔
      ∃ w rest, l = w ++ rest ∧ w.length = k ∧ A.Numeral w n ∧ Stops A.isDigit rest := by
  constructor
  · intro found
    unfold scan at found
    extract_lets spaces rest sign digits at found
    split at found
    · cases found
    case isFalse nonempty =>
      cases found
      obtain ⟨shape, signed⟩ := A.sign_shape rest
      refine ⟨spaces ++ (sign ++ digits), (rest.drop sign.length).dropWhile A.isDigit, ?_, ?_,
        ⟨spaces, sign, digits, rfl, ?_, shape, nonempty, ?_, rfl⟩, stops_dropWhile _ _⟩
      · have behind : rest = l.dropWhile A.isSpace := by
          have split := List.takeWhile_append_dropWhile (p := A.isSpace) (l := l)
          calc rest = (spaces ++ l.dropWhile A.isSpace).drop spaces.length := by rw [split]
            _ = l.dropWhile A.isSpace := List.drop_left
        calc l = spaces ++ rest := by rw [behind]; exact List.takeWhile_append_dropWhile.symm
          _ = spaces ++ (sign ++ rest.drop sign.length) := by rw [← signed]
          _ = spaces ++ (sign ++ digits) ++ (rest.drop sign.length).dropWhile A.isDigit := by
              rw [List.append_assoc, List.append_assoc, List.takeWhile_append_dropWhile]
      · simp [Nat.add_assoc]
      · exact fun c mem => List.mem_takeWhile_imp mem
      · exact fun c mem => List.mem_takeWhile_imp mem
  · rintro ⟨w, rest, rfl, rfl, ⟨spaces, sign, digits, rfl, allSpace, shape, nonempty, allDigit, rfl⟩, stops⟩
    have read := A.scan_append allSpace shape nonempty allDigit stops
    simpa [Nat.add_assoc] using read

end Alphabet

end Itaro.Theory
