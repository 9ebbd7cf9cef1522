/-
# Cache.SdsArgs -- sdscatrepr and sdssplitargs: arguments as one line of text

`sdscatrepr` writes a string in quotes, with escapes for what cannot be printed, and
`sdssplitargs` splits a line into arguments that may be quoted in that form.  Reading
behind the bytes of a line is a fault, apart from the error of unbalanced quotes.

* `sdssplitargs_repr`: what was written is read back, whatever bytes the arguments
  hold and whatever blanks stand between them;
* `sdssplitargs_terminated`: no line makes the parser read behind its first NUL, and
  what comes behind that has no effect.
-/
import Itaro.Cache.Decimal

namespace Itaro.Cache

set_option autoImplicit false

/-! ## Writing -/

/-- `isprint` in the "C" locale; a negative `char` is not printable. -/
def isprint (c : BitVec 8) : Bool := 0x20 ≤ c ∧ c ≤ 0x7e

/-- A digit of `%02x`. -/
def hexDigit (n : Nat) : BitVec 8 := BitVec.ofNat 8 (if n < 10 then 0x30 + n else 0x57 + n)

/-- One turn of the loop of `sdscatrepr`. -/
def reprByte (c : BitVec 8) : List (BitVec 8) :=
  if c = 0x5c ∨ c = 0x22 then [0x5c, c]
  else if c = 0x0a then [0x5c, 0x6e]
  else if c = 0x0d then [0x5c, 0x72]
  else if c = 0x09 then [0x5c, 0x74]
  else if c = 0x07 then [0x5c, 0x61]
  else if c = 0x08 then [0x5c, 0x62]
  else if isprint c then [c]
  else [0x5c, 0x78, hexDigit (c.toNat / 16), hexDigit (c.toNat % 16)]

/-- What `sdscatrepr` appends. -/
def sdscatrepr (p : List (BitVec 8)) : List (BitVec 8) := 0x22 :: p.flatMap reprByte ++ [0x22]

/-! ## Reading -/

inductive SplitError
  | overread
  /-- The label `err`. -/
  | err
  deriving DecidableEq, Repr

/-- `*(p+i)` -/
def deref (p : List (BitVec 8)) (i : Nat) : Except SplitError (BitVec 8) :=
  match p[i]? with
  | some c => .ok c
  | none => .error .overread

def isHexDigit (c : BitVec 8) : Bool :=
  (0x30 ≤ c ∧ c ≤ 0x39) ∨ (0x61 ≤ c ∧ c ≤ 0x66) ∨ (0x41 ≤ c ∧ c ≤ 0x46)

/-- The `switch` of `hex_digit_to_int`, by ranges. -/
def hexDigitToInt (c : BitVec 8) : Nat :=
  if 0x30 ≤ c ∧ c ≤ 0x39 then c.toNat - 0x30
  else if 0x61 ≤ c ∧ c ≤ 0x66 then c.toNat - 0x61 + 10
  else if 0x41 ≤ c ∧ c ≤ 0x46 then c.toNat - 0x41 + 10
  else 0

/-- What a character behind a backslash stands for in quotes. -/
def unescape (c : BitVec 8) : BitVec 8 :=
  if c = 0x6e then 0x0a
  else if c = 0x72 then 0x0d
  else if c = 0x74 then 0x09
  else if c = 0x62 then 0x08
  else if c = 0x61 then 0x07
  else c

/-- `inq` and `insq` -/
inductive Quotes
  | none
  | double
  | single
  deriving DecidableEq, Repr

/-- What one turn of `while(!done)` appends to the argument, and how far it moves `p`
before the `p++` at its end. -/
structure Turn where
  appended : List (BitVec 8)
  moved : Nat
  quotes : Quotes
  done : Bool
  deriving DecidableEq, Repr

/-- `*p == '\\' && *(p+1) == 'x' && is_hex_digit(*(p+2)) && is_hex_digit(*(p+3))` -/
def isHexEscape (p : List (BitVec 8)) : Except SplitError Bool := do
  if (← deref p 0) ≠ 0x5c then return false
  if (← deref p 1) ≠ 0x78 then return false
  if !isHexDigit (← deref p 2) then return false
  return isHexDigit (← deref p 3)

/-- `*p == '\\'`, and the character behind it passes. -/
def isEscape (p : List (BitVec 8)) (passes : BitVec 8 → Bool) : Except SplitError Bool := do
  if (← deref p 0) ≠ 0x5c then return false
  return passes (← deref p 1)

/-- A closing quote must be followed by a space or nothing at all. -/
def closeQuote (p : List (BitVec 8)) (quotes : Quotes) : Except SplitError Turn := do
  let next ← deref p 1
  if next ≠ 0 ∧ !isspace next then throw .err
  return ⟨[], 0, quotes, true⟩

/-- `if (inq)` -/
def doubleTurn (p : List (BitVec 8)) : Except SplitError Turn := do
  if ← isHexEscape p then
    let byte := hexDigitToInt (← deref p 2) * 16 + hexDigitToInt (← deref p 3)
    return ⟨[BitVec.ofNat 8 byte], 3, .double, false⟩
  if ← isEscape p (· ≠ 0) then return ⟨[unescape (← deref p 1)], 1, .double, false⟩
  let c ← deref p 0
  if c = 0x22 then closeQuote p .double
  else if c = 0 then throw .err
  else return ⟨[c], 0, .double, false⟩

/-- `else if (insq)` -/
def singleTurn (p : List (BitVec 8)) : Except SplitError Turn := do
  if ← isEscape p (· = 0x27) then return ⟨[0x27], 1, .single, false⟩
  let c ← deref p 0
  if c = 0x27 then closeQuote p .single
  else if c = 0 then throw .err
  else return ⟨[c], 0, .single, false⟩

def plainTurn (p : List (BitVec 8)) : Except SplitError Turn := do
  let c ← deref p 0
  if c = 0x20 ∨ c = 0x0a ∨ c = 0x0d ∨ c = 0x09 ∨ c = 0 then return ⟨[], 0, .none, true⟩
  else if c = 0x22 then return ⟨[], 0, .double, false⟩
  else if c = 0x27 then return ⟨[], 0, .single, false⟩
  else return ⟨[c], 0, .none, false⟩

def argTurn : Quotes → List (BitVec 8) → Except SplitError Turn
  | .none, p => plainTurn p
  | .double, p => doubleTurn p
  | .single, p => singleTurn p

/-- `while(!done)`: the argument and where it ends.  A turn that is not the last moves
`p`, so as many turns as there are bytes suffice. -/
def argLoop : Nat → Quotes → List (BitVec 8) → List (BitVec 8) →
    Except SplitError (List (BitVec 8) × List (BitVec 8))
  | 0, _, _, _ => .error .overread
  | turns + 1, quotes, p, current => do
      let turn ← argTurn quotes p
      let p := p.drop turn.moved
      let p := if (← deref p 0) ≠ 0 then p.drop 1 else p
      if turn.done then return (current ++ turn.appended, p)
      else argLoop turns turn.quotes p (current ++ turn.appended)

/-- `while(*p && isspace(*p)) p++;` -/
def skipBlanks : List (BitVec 8) → Except SplitError (List (BitVec 8))
  | [] => .error .overread
  | c :: p => if c ≠ 0 ∧ isspace c then skipBlanks p else .ok (c :: p)

/-- `while(1)` -/
def splitLoop : Nat → List (BitVec 8) → List (List (BitVec 8)) →
    Except SplitError (List (List (BitVec 8)))
  | 0, _, _ => .error .overread
  | turns + 1, p, vector => do
      let p ← skipBlanks p
      if (← deref p 0) ≠ 0 then
        let (current, p) ← argLoop (p.length + 1) .none p []
        splitLoop turns p (vector ++ [current])
      else return vector

def sdssplitargs (line : List (BitVec 8)) : Except SplitError (List (List (BitVec 8))) :=
  splitLoop (line.length + 1) line []

/-! ## Reading back -/

@[simp] theorem deref_cons_zero (c : BitVec 8) (p : List (BitVec 8)) : deref (c :: p) 0 = .ok c := rfl

@[simp] theorem deref_cons_succ (c : BitVec 8) (p : List (BitVec 8)) (i : Nat) :
    deref (c :: p) (i + 1) = deref p i := rfl

@[simp] theorem bind_deref {α β : Type} (a : α) (f : α → Except SplitError β) :
    (Except.ok a >>= f) = f a := rfl

theorem hexDigit_spec : ∀ n < 16, isHexDigit (hexDigit n) = true ∧ hexDigitToInt (hexDigit n) = n := by
  decide

variable {p rest current : List (BitVec 8)} {quotes : Quotes} {turn : Turn} {last : BitVec 8} {turns : Nat}

/-- A turn that is not the last. -/
theorem argLoop_next (one : argTurn quotes p = .ok turn) (place : p.drop turn.moved = last :: rest)
    (ne : last ≠ 0) (more : turn.done = false) :
    argLoop (turns + 1) quotes p current = argLoop turns turn.quotes rest (current ++ turn.appended) := by
  rw [argLoop, one, bind_deref]
  simp only [place, deref_cons_zero, bind_deref, more]
  rw [if_pos ne, if_neg Bool.false_ne_true]
  rfl

/-- The last turn, before a character that is not NUL. -/
theorem argLoop_last (one : argTurn quotes p = .ok turn) (place : p.drop turn.moved = last :: rest)
    (ne : last ≠ 0) (done : turn.done = true) :
    argLoop (turns + 1) quotes p current = .ok (current ++ turn.appended, rest) := by
  rw [argLoop, one, bind_deref]
  simp only [place, deref_cons_zero, bind_deref, done, if_true]
  rw [if_pos ne]
  rfl

/-- A backslash and a character that is not `x`. -/
theorem doubleTurn_escape {c : BitVec 8} (some : c ≠ 0) (plain : c ≠ 0x78) :
    doubleTurn (0x5c :: c :: rest) = .ok ⟨[unescape c], 1, .double, false⟩ := by
  have hex : isHexEscape (0x5c :: c :: rest) = .ok false := by
    simp only [isHexEscape, deref_cons_zero, deref_cons_succ, bind_deref]
    rw [if_neg (not_not_intro rfl), if_pos plain]
    rfl
  have escape : isEscape (0x5c :: c :: rest) (· ≠ 0) = .ok true := by
    simp only [isEscape, deref_cons_zero, deref_cons_succ, bind_deref, decide_eq_true some]
    rw [if_neg (not_not_intro rfl)]
    rfl
  rw [doubleTurn, hex, bind_deref, escape]
  rfl

theorem doubleTurn_hex {high low : Nat} (one : high < 16) (two : low < 16) :
    doubleTurn (0x5c :: 0x78 :: hexDigit high :: hexDigit low :: rest) =
      .ok ⟨[BitVec.ofNat 8 (high * 16 + low)], 3, .double, false⟩ := by
  obtain ⟨digit, value⟩ := hexDigit_spec high one
  obtain ⟨digit', value'⟩ := hexDigit_spec low two
  have hex : isHexEscape (0x5c :: 0x78 :: hexDigit high :: hexDigit low :: rest) = .ok true := by
    simp [isHexEscape, digit, digit', pure, Except.pure]
  have first : deref (0x5c :: 0x78 :: hexDigit high :: hexDigit low :: rest) 2 = .ok (hexDigit high) := rfl
  have second : deref (0x5c :: 0x78 :: hexDigit high :: hexDigit low :: rest) 3 = .ok (hexDigit low) := rfl
  rw [doubleTurn, hex, bind_deref, first, second]
  simp only [if_true, bind_deref, value, value']
  rfl

theorem doubleTurn_char {c : BitVec 8} (some : c ≠ 0) (plain : c ≠ 0x5c) (open_ : c ≠ 0x22) :
    doubleTurn (c :: rest) = .ok ⟨[c], 0, .double, false⟩ := by
  have hex : isHexEscape (c :: rest) = .ok false := by
    simp only [isHexEscape, deref_cons_zero, bind_deref]
    rw [if_pos plain]
    rfl
  have escape : isEscape (c :: rest) (· ≠ 0) = .ok false := by
    simp only [isEscape, deref_cons_zero, bind_deref]
    rw [if_pos plain]
    rfl
  rw [doubleTurn, hex, bind_deref, escape]
  simp only [deref_cons_zero, bind_deref, Bool.false_eq_true, if_false]
  rw [if_neg open_, if_neg some]
  rfl

/-- A byte of a quoted argument is read back in one turn. -/
theorem argLoop_reprByte (c : BitVec 8) :
    argLoop (turns + 1) .double (reprByte c ++ rest) current =
      argLoop turns .double rest (current ++ [c]) := by
  have escape : ∀ e : BitVec 8, e ≠ 0 → e ≠ 0x78 → unescape e = c →
      argLoop (turns + 1) .double ([0x5c, e] ++ rest) current =
        argLoop turns .double rest (current ++ [c]) := by
    intro e some plain same
    rw [← same]
    have turn : argTurn .double ([0x5c, e] ++ rest) = _ := doubleTurn_escape some plain
    exact argLoop_next turn rfl some rfl
  unfold reprByte
  split
  · rename_i special
    rcases special with rfl | rfl <;> exact escape _ (by decide) (by decide) (by decide)
  split
  · subst c; exact escape _ (by decide) (by decide) (by decide)
  split
  · subst c; exact escape _ (by decide) (by decide) (by decide)
  split
  · subst c; exact escape _ (by decide) (by decide) (by decide)
  split
  · subst c; exact escape _ (by decide) (by decide) (by decide)
  split
  · subst c; exact escape _ (by decide) (by decide) (by decide)
  rename_i special _ _ _ _ _
  rw [not_or] at special
  split
  · rename_i printable
    have some : c ≠ 0 := by
      rintro rfl
      exact absurd printable (by decide)
    have turn : argTurn .double ([c] ++ rest) = _ := doubleTurn_char some special.1 special.2
    exact argLoop_next turn rfl some rfl
  · have high : c.toNat / 16 < 16 := Nat.div_lt_of_lt_mul c.isLt
    have low : c.toNat % 16 < 16 := Nat.mod_lt _ (by decide)
    have value : BitVec.ofNat 8 (c.toNat / 16 * 16 + c.toNat % 16) = c := by
      rw [Nat.div_add_mod', BitVec.ofNat_toNat, BitVec.setWidth_eq]
    have turn : argTurn .double (0x5c :: 0x78 :: hexDigit (c.toNat / 16) ::
        hexDigit (c.toNat % 16) :: rest) = _ := doubleTurn_hex high low
    rw [value] at turn
    have nonzero : ∀ n < 16, hexDigit n ≠ 0 := by decide
    exact argLoop_next turn rfl (nonzero _ low) rfl

/-- The bytes of a quoted argument. -/
theorem argLoop_body (bytes : List (BitVec 8)) :
    argLoop (bytes.length + turns) .double (bytes.flatMap reprByte ++ rest) current =
      argLoop turns .double rest (current ++ bytes) := by
  induction bytes generalizing current with
  | nil => simp
  | cons c bytes ih =>
      rw [List.length_cons, Nat.add_right_comm, List.flatMap_cons, List.append_assoc,
        argLoop_reprByte, ih, List.append_assoc, List.singleton_append]

/-- A whole argument, with a blank or the end behind it. -/
theorem argLoop_repr (bytes : List (BitVec 8)) {next : BitVec 8} (stop : next = 0 ∨ isspace next)
    (enough : bytes.length + 2 ≤ turns) :
    argLoop turns .none (sdscatrepr bytes ++ next :: rest) [] = .ok (bytes, next :: rest) := by
  obtain ⟨spare, rfl⟩ := Nat.exists_eq_add_of_le enough
  have first : argTurn .none (sdscatrepr bytes ++ next :: rest) = .ok ⟨[], 0, .double, false⟩ := rfl
  have close : argTurn .double (0x22 :: next :: rest) = .ok ⟨[], 0, .double, true⟩ := by
    have hex : isHexEscape (0x22 :: next :: rest) = .ok false := rfl
    have escape : isEscape (0x22 :: next :: rest) (· ≠ 0) = .ok false := rfl
    have free : ¬ (next ≠ 0 ∧ (!isspace next) = true) := by
      rintro ⟨some, letter⟩
      rcases stop with none | space
      · exact some none
      · rw [space] at letter
        exact absurd letter (by decide)
    rw [argTurn, doubleTurn, hex, bind_deref, escape]
    simp only [closeQuote, deref_cons_zero, deref_cons_succ, bind_deref, if_neg free]
    rfl
  have split : bytes.length + 2 + spare = bytes.length + (spare + 1) + 1 := by omega
  have text : sdscatrepr bytes ++ next :: rest =
      0x22 :: (bytes.flatMap reprByte ++ 0x22 :: next :: rest) := by
    simp [sdscatrepr]
  rw [split, argLoop_next first text (by decide) rfl, argLoop_body]
  rw [argLoop_last close rfl (by decide) rfl]
  simp

/-! ## Lines of arguments -/

theorem skipBlanks_append {blanks : List (BitVec 8)} (all : ∀ c ∈ blanks, isspace c)
    (p : List (BitVec 8)) : skipBlanks (blanks ++ p) = skipBlanks p := by
  induction blanks with
  | nil => rfl
  | cons c blanks ih =>
      have space := all c List.mem_cons_self
      have some : c ≠ 0 := by
        rintro rfl
        exact absurd space (by decide)
      rw [List.cons_append, skipBlanks, if_pos ⟨some, space⟩]
      exact ih fun c member => all c (List.mem_cons_of_mem _ member)

/-- Arguments as they are written, with blanks before each. -/
def written (args : List (List (BitVec 8) × List (BitVec 8))) : List (BitVec 8) :=
  args.flatMap fun arg => arg.1 ++ sdscatrepr arg.2

/-- The blanks are blanks, and there are some between two arguments. -/
structure Spaced (args : List (List (BitVec 8) × List (BitVec 8))) : Prop where
  blank : ∀ arg ∈ args, ∀ c ∈ arg.1, isspace c
  apart : ∀ arg ∈ args.tail, arg.1 ≠ []

theorem length_reprByte_pos (c : BitVec 8) : 0 < (reprByte c).length := by
  unfold reprByte
  repeat' split
  all_goals exact Nat.succ_pos _

theorem length_le_sdscatrepr (bytes : List (BitVec 8)) :
    bytes.length + 2 ≤ (sdscatrepr bytes).length := by
  have body : bytes.length ≤ (bytes.flatMap reprByte).length := by
    induction bytes with
    | nil => exact Nat.le_refl 0
    | cons c bytes ih =>
        have one := length_reprByte_pos c
        rw [List.flatMap_cons, List.length_append, List.length_cons]
        omega
  simp only [sdscatrepr, List.length_append, List.length_cons, List.length_nil]
  omega

/-- An argument ends where the next blanks or the end of the line begin. -/
theorem written_stop {args : List (List (BitVec 8) × List (BitVec 8))} {blanks : List (BitVec 8)}
    (spaced : ∀ arg ∈ args, ∀ c ∈ arg.1, isspace c) (apart : ∀ arg ∈ args, arg.1 ≠ [])
    (trailing : ∀ c ∈ blanks, isspace c) (junk : List (BitVec 8)) :
    ∃ next rest, written args ++ (blanks ++ 0 :: junk) = next :: rest ∧ (next = 0 ∨ isspace next) := by
  cases args with
  | nil =>
      cases blanks with
      | nil => exact ⟨0, junk, rfl, .inl rfl⟩
      | cons c blanks => exact ⟨c, _, rfl, .inr (trailing c List.mem_cons_self)⟩
  | cons arg args =>
      have some := apart arg List.mem_cons_self
      cases first : arg.1 with
      | nil => exact absurd first some
      | cons c blanks' =>
          refine ⟨c, _, by rw [written, List.flatMap_cons, first]; rfl, .inr ?_⟩
          exact spaced arg List.mem_cons_self c (by rw [first]; exact List.mem_cons_self)

theorem splitLoop_written {args : List (List (BitVec 8) × List (BitVec 8))} (spaced : Spaced args)
    {blanks : List (BitVec 8)} (trailing : ∀ c ∈ blanks, isspace c) (junk : List (BitVec 8))
    {vector : List (List (BitVec 8))} (enough : args.length < turns) :
    splitLoop turns (written args ++ (blanks ++ 0 :: junk)) vector =
      .ok (vector ++ args.map Prod.snd) := by
  induction args generalizing turns vector with
  | nil =>
      obtain ⟨spare, rfl⟩ := Nat.exists_eq_add_of_lt enough
      have skipped : skipBlanks (blanks ++ 0 :: junk) = .ok (0 :: junk) :=
        skipBlanks_append trailing _
      rw [splitLoop]
      simp only [written, List.flatMap_nil, List.nil_append, skipped, bind_deref, deref_cons_zero]
      rw [if_neg (not_not_intro rfl)]
      simp
      rfl
  | cons arg args ih =>
      obtain ⟨spare, rfl⟩ : ∃ spare, turns = spare + 1 :=
        Nat.exists_eq_succ_of_ne_zero (Nat.ne_zero_of_lt enough)
      rw [List.length_cons, Nat.succ_lt_succ_iff] at enough
      have blank := spaced.blank arg List.mem_cons_self
      have others : ∀ arg' ∈ args, ∀ c ∈ arg'.1, isspace c := fun arg' member =>
        spaced.blank arg' (List.mem_cons_of_mem _ member)
      obtain ⟨next, rest, behind, stop⟩ := written_stop others spaced.apart trailing junk
      have line : written (arg :: args) ++ (blanks ++ 0 :: junk) =
          arg.1 ++ (sdscatrepr arg.2 ++ next :: rest) := by
        rw [← behind, written, List.flatMap_cons, written]
        simp only [List.append_assoc]
      have skipped : skipBlanks (sdscatrepr arg.2 ++ next :: rest) =
          .ok (sdscatrepr arg.2 ++ next :: rest) := rfl
      have opened : deref (sdscatrepr arg.2 ++ next :: rest) 0 = .ok 0x22 := rfl
      have read : argLoop ((sdscatrepr arg.2 ++ next :: rest).length + 1) .none
          (sdscatrepr arg.2 ++ next :: rest) [] = .ok (arg.2, next :: rest) := by
        have length := length_le_sdscatrepr arg.2
        apply argLoop_repr arg.2 stop
        rw [List.length_append]
        omega
      rw [splitLoop, line, skipBlanks_append blank, skipped]
      simp only [bind_deref, opened, read]
      rw [if_pos (by decide), ← behind, ih ⟨others, fun arg' member => ?_⟩ enough, List.append_assoc]
      · rfl
      · exact spaced.apart arg' (List.mem_of_mem_tail member)

/-- **What is written is read back**, with any blanks around and between. -/
theorem sdssplitargs_repr {args : List (List (BitVec 8) × List (BitVec 8))} (spaced : Spaced args)
    {blanks : List (BitVec 8)} (trailing : ∀ c ∈ blanks, isspace c) (junk : List (BitVec 8)) :
    sdssplitargs (written args ++ (blanks ++ 0 :: junk)) = .ok (args.map Prod.snd) := by
  have count : args.length ≤ (written args).length := by
    clear spaced
    induction args with
    | nil => exact Nat.le_refl 0
    | cons arg args ih =>
        have length := length_le_sdscatrepr arg.2
        rw [written] at ih
        rw [written, List.flatMap_cons, List.length_append, List.length_append, List.length_cons]
        omega
  apply splitLoop_written spaced trailing
  rw [List.length_append]
  omega

/-- Two arguments, one of them with a NUL and a quote in it. -/
theorem sdssplitargs_repr_two :
    sdssplitargs (written [([], [0x61, 0x20]), ([0x20, 0x0b], [0x00, 0x22, 0xff])] ++
      ([0x20] ++ 0 :: [])) = .ok [[0x61, 0x20], [0x00, 0x22, 0xff]] :=
  sdssplitargs_repr ⟨by decide, by decide⟩ (by decide) []

/-! ## No line is read behind its NUL -/

section Terminated

variable {l : List (BitVec 8)}

/-- The characters of a line and its NUL are there, whatever is behind them. -/
theorem deref_str {i : Nat} (inside : i ≤ l.length) :
    ∃ c, (∀ junk, deref (l ++ 0 :: junk) i = .ok c) ∧ (c ≠ 0 → i < l.length) ∧
      (i < l.length → c ∈ l) := by
  rcases Nat.lt_or_eq_of_le inside with below | rfl
  · refine ⟨l[i], fun junk => ?_, fun _ => below, fun _ => List.getElem_mem below⟩
    rw [deref, List.getElem?_append_left below, List.getElem?_eq_getElem below]
  · refine ⟨0, fun junk => ?_, fun some => absurd rfl some, fun below => absurd below (Nat.lt_irrefl _)⟩
    rw [deref, List.getElem?_append_right (Nat.le_refl _), Nat.sub_self]
    rfl

theorem isHexEscape_str : ∃ b, (∀ junk, isHexEscape (l ++ 0 :: junk) = .ok b) ∧
    (b = true → 4 ≤ l.length) := by
  obtain ⟨c₀, read₀, some₀, -⟩ := deref_str (l := l) (Nat.zero_le _)
  by_cases first : c₀ ≠ 0x5c
  · refine ⟨false, fun junk => ?_, fun b => Bool.noConfusion b⟩
    rw [isHexEscape, read₀, bind_deref, if_pos first]
    rfl
  obtain ⟨c₁, read₁, some₁, -⟩ := deref_str (l := l) (some₀ (by
    rw [not_not.mp first]
    decide))
  by_cases second : c₁ ≠ 0x78
  · refine ⟨false, fun junk => ?_, fun b => Bool.noConfusion b⟩
    rw [isHexEscape, read₀, bind_deref, if_neg first, read₁, bind_deref, if_pos second]
    rfl
  obtain ⟨c₂, read₂, some₂, -⟩ := deref_str (l := l) (some₁ (by
    rw [not_not.mp second]
    decide))
  have zero : isHexDigit 0 = false := by decide
  by_cases third : (!isHexDigit c₂) = true
  · refine ⟨false, fun junk => ?_, fun b => Bool.noConfusion b⟩
    rw [isHexEscape, read₀, bind_deref, if_neg first, read₁, bind_deref, if_neg second, read₂,
      bind_deref, if_pos third]
    rfl
  have inside : 2 < l.length := some₂ (by
    rintro rfl
    exact third (by rw [zero]; rfl))
  obtain ⟨c₃, read₃, some₃, -⟩ := deref_str inside
  refine ⟨isHexDigit c₃, fun junk => ?_, fun digit => some₃ ?_⟩
  · rw [isHexEscape, read₀, bind_deref, if_neg first, read₁, bind_deref, if_neg second, read₂,
      bind_deref, if_neg third, read₃]
    rfl
  · rintro rfl
    rw [zero] at digit
    exact Bool.noConfusion digit

theorem isEscape_str (passes : BitVec 8 → Bool) (zero : passes 0 = false) :
    ∃ b, (∀ junk, isEscape (l ++ 0 :: junk) passes = .ok b) ∧ (b = true → 2 ≤ l.length) := by
  obtain ⟨c₀, read₀, some₀, -⟩ := deref_str (l := l) (Nat.zero_le _)
  by_cases first : c₀ ≠ 0x5c
  · refine ⟨false, fun junk => ?_, fun b => Bool.noConfusion b⟩
    rw [isEscape, read₀, bind_deref, if_pos first]
    rfl
  obtain ⟨c₁, read₁, some₁, -⟩ := deref_str (l := l) (some₀ (by
    rw [not_not.mp first]
    decide))
  refine ⟨passes c₁, fun junk => ?_, fun passed => some₁ ?_⟩
  · rw [isEscape, read₀, bind_deref, if_neg first, read₁]
    rfl
  · rintro rfl
    rw [zero] at passed
    exact Bool.noConfusion passed

/-- A turn that ends in the error, or that stays within the line and ends at its end. -/
def Settles (l : List (BitVec 8)) (turn : List (BitVec 8) → Except SplitError Turn) : Prop :=
  (∀ junk, turn (l ++ 0 :: junk) = .error .err) ∨
    ∃ t : Turn, (l = [] → t.done = true ∧ t.moved = 0) ∧ (l ≠ [] → t.moved < l.length) ∧
      ∀ junk, turn (l ++ 0 :: junk) = .ok t

theorem closeQuote_str {c : BitVec 8} (rest : List (BitVec 8)) (quotes : Quotes) :
    Settles (c :: rest) (closeQuote · quotes) := by
  obtain ⟨next, read, -⟩ := deref_str (l := c :: rest) (i := 1) (Nat.succ_le_succ (Nat.zero_le _))
  by_cases letter : next ≠ 0 ∧ (!isspace next) = true
  · refine .inl fun junk => ?_
    simp only [closeQuote, read, bind_deref, if_pos letter]
    rfl
  · refine .inr ⟨⟨[], 0, quotes, true⟩, (fun none => by cases none), fun _ => Nat.succ_pos _, fun junk => ?_⟩
    simp only [closeQuote, read, bind_deref, if_neg letter]
    rfl

/-- The end of a turn in quotes. -/
theorem char_str (free : 0 ∉ l) {quote : BitVec 8} (some : quote ≠ 0) (quotes : Quotes) :
    Settles l fun p => do
      let c ← deref p 0
      if c = quote then closeQuote p quotes
      else if c = 0 then throw .err
      else return ⟨[c], 0, quotes, false⟩ := by
  cases l with
  | nil =>
      refine .inl fun junk => ?_
      simp only [List.nil_append, deref_cons_zero, bind_deref]
      rw [if_neg (Ne.symm some), if_pos trivial]
      rfl
  | cons c rest =>
      have nonzero : c ≠ 0 := fun zero => free (zero ▸ List.mem_cons_self)
      by_cases here : c = quote
      · rcases closeQuote_str (c := c) rest quotes with error | ⟨t, none, inside, result⟩
        · refine .inl fun junk => ?_
          simp only [List.cons_append, deref_cons_zero, bind_deref, if_pos here]
          exact error junk
        · refine .inr ⟨t, none, inside, fun junk => ?_⟩
          simp only [List.cons_append, deref_cons_zero, bind_deref, if_pos here]
          exact result junk
      · refine .inr ⟨⟨[c], 0, quotes, false⟩, (fun none => by cases none), fun _ => Nat.succ_pos _,
          fun junk => ?_⟩
        simp only [List.cons_append, deref_cons_zero, bind_deref, if_neg here, if_neg nonzero]
        rfl

/-- Turns that are the same on a line. -/
theorem Settles.congr {turn turn' : List (BitVec 8) → Except SplitError Turn}
    (settles : Settles l turn) (same : ∀ junk, turn' (l ++ 0 :: junk) = turn (l ++ 0 :: junk)) :
    Settles l turn' := by
  rcases settles with error | ⟨t, none, inside, result⟩
  · exact .inl fun junk => (same junk).trans (error junk)
  · exact .inr ⟨t, none, inside, fun junk => (same junk).trans (result junk)⟩

theorem doubleTurn_str (free : 0 ∉ l) : Settles l doubleTurn := by
  obtain ⟨hex, isHex, wide⟩ := isHexEscape_str (l := l)
  cases hex with
  | true =>
      have length := wide rfl
      obtain ⟨high, read₂, -⟩ := deref_str (l := l) (i := 2) (by omega)
      obtain ⟨low, read₃, -⟩ := deref_str (l := l) (i := 3) (by omega)
      refine .inr ⟨⟨[BitVec.ofNat 8 (hexDigitToInt high * 16 + hexDigitToInt low)], 3, .double, false⟩,
        fun none => ?_, fun _ => by show 3 < l.length; omega, fun junk => ?_⟩
      · rw [none] at length
        exact absurd length (by decide)
      · rw [doubleTurn, isHex, bind_deref, read₂, read₃]
        rfl
  | false =>
      obtain ⟨escape, isEsc, wide'⟩ := isEscape_str (l := l) (· ≠ 0) (by decide)
      cases escape with
      | true =>
          have length := wide' rfl
          obtain ⟨c, read₁, -⟩ := deref_str (l := l) (i := 1) (by omega)
          refine .inr ⟨⟨[unescape c], 1, .double, false⟩, fun none => ?_,
            fun _ => by show 1 < l.length; omega, fun junk => ?_⟩
          · rw [none] at length
            exact absurd length (by decide)
          · rw [doubleTurn, isHex, bind_deref, isEsc, bind_deref, read₁]
            rfl
      | false =>
          refine (char_str free (by decide : (0x22 : BitVec 8) ≠ 0) .double).congr fun junk => ?_
          rw [doubleTurn, isHex, bind_deref, isEsc, bind_deref]
          rfl

theorem singleTurn_str (free : 0 ∉ l) : Settles l singleTurn := by
  obtain ⟨escape, isEsc, wide⟩ := isEscape_str (l := l) (· = 0x27) (by decide)
  cases escape with
  | true =>
      have length := wide rfl
      refine .inr ⟨⟨[0x27], 1, .single, false⟩, fun none => ?_,
        fun _ => by show 1 < l.length; omega, fun junk => ?_⟩
      · rw [none] at length
        exact absurd length (by decide)
      · rw [singleTurn, isEsc]
        rfl
  | false =>
      refine (char_str free (by decide : (0x27 : BitVec 8) ≠ 0) .single).congr fun junk => ?_
      rw [singleTurn, isEsc]
      rfl

theorem plainTurn_str : Settles l plainTurn := by
  cases l with
  | nil => exact .inr ⟨⟨[], 0, .none, true⟩, fun _ => ⟨rfl, rfl⟩, fun some => absurd rfl some, fun _ => rfl⟩
  | cons c rest =>
      have settled : ∀ t : Turn, t.moved = 0 → (∀ junk, plainTurn (c :: rest ++ 0 :: junk) = .ok t) →
          Settles (c :: rest) plainTurn := fun t moved result =>
        .inr ⟨t, (fun none => by cases none), fun _ => moved ▸ Nat.succ_pos _, result⟩
      by_cases blank : c = 0x20 ∨ c = 0x0a ∨ c = 0x0d ∨ c = 0x09 ∨ c = 0
      · refine settled ⟨[], 0, .none, true⟩ rfl fun junk => ?_
        simp only [plainTurn, List.cons_append, deref_cons_zero, bind_deref, if_pos blank]
        rfl
      by_cases double : c = 0x22
      · refine settled ⟨[], 0, .double, false⟩ rfl fun junk => ?_
        simp only [plainTurn, List.cons_append, deref_cons_zero, bind_deref, if_neg blank, if_pos double]
        rfl
      by_cases single : c = 0x27
      · refine settled ⟨[], 0, .single, false⟩ rfl fun junk => ?_
        simp only [plainTurn, List.cons_append, deref_cons_zero, bind_deref, if_neg blank, if_neg double,
          if_pos single]
        rfl
      · refine settled ⟨[c], 0, .none, false⟩ rfl fun junk => ?_
        simp only [plainTurn, List.cons_append, deref_cons_zero, bind_deref, if_neg blank, if_neg double,
          if_neg single]
        rfl

theorem argTurn_str (free : 0 ∉ l) (quotes : Quotes) : Settles l (argTurn quotes) := by
  cases quotes with
  | none => exact plainTurn_str
  | double => exact doubleTurn_str free
  | single => exact singleTurn_str free

/-- An argument ends in the error, or within the line. -/
theorem argLoop_str (free : 0 ∉ l) (quotes : Quotes) (current : List (BitVec 8)) :
    (∀ turns, l.length < turns → ∀ junk,
        argLoop turns quotes (l ++ 0 :: junk) current = .error .err) ∨
      ∃ current' l', 0 ∉ l' ∧ l'.length ≤ l.length - 1 ∧ ∀ turns, l.length < turns →
        ∀ junk, argLoop turns quotes (l ++ 0 :: junk) current = .ok (current', l' ++ 0 :: junk) := by
  induction length : l.length using Nat.strong_induction_on generalizing l quotes current with
  | _ n ih =>
  subst length
  rcases argTurn_str free quotes with error | ⟨t, none, inside, result⟩
  · refine .inl fun turns enough junk => ?_
    obtain ⟨spare, rfl⟩ := Nat.exists_eq_add_of_lt enough
    rw [argLoop, error]
    rfl
  cases some : l.drop t.moved with
  | nil =>
      have empty : l = [] := by
        by_contra nonempty
        have below := inside nonempty
        rw [List.drop_eq_nil_iff] at some
        omega
      subst empty
      obtain ⟨done, moved⟩ := none rfl
      refine .inr ⟨current ++ t.appended, [], free, Nat.le_refl 0, fun turns enough junk => ?_⟩
      obtain ⟨spare, rfl⟩ := Nat.exists_eq_add_of_lt enough
      rw [argLoop, result, bind_deref]
      simp only [moved, List.drop_zero, List.nil_append, deref_cons_zero, bind_deref, done]
      rfl
  | cons c l' =>
      have nonempty : l ≠ [] := by
        rintro rfl
        rw [List.drop_nil] at some
        cases some
      have below := inside nonempty
      have member : c ∈ l := List.mem_of_mem_drop (some ▸ List.mem_cons_self)
      have nonzero : c ≠ 0 := fun zero => free (zero ▸ member)
      have free' : 0 ∉ l' := fun zero =>
        free (List.mem_of_mem_drop (some ▸ List.mem_cons_of_mem c zero))
      have shorter : l'.length < l.length := by
        have count := congrArg List.length some
        rw [List.length_drop, List.length_cons] at count
        omega
      have place : ∀ junk, (l ++ 0 :: junk).drop t.moved = c :: (l' ++ 0 :: junk) := by
        intro junk
        rw [List.drop_append_of_le_length below.le, some, List.cons_append]
      cases done : t.done with
      | true =>
          refine .inr ⟨current ++ t.appended, l', free', Nat.le_pred_of_lt shorter, fun turns enough junk => ?_⟩
          obtain ⟨spare, rfl⟩ := Nat.exists_eq_add_of_lt enough
          exact argLoop_last (result junk) (place junk) nonzero done
      | false =>
          have step : ∀ turns junk, argLoop (turns + 1) quotes (l ++ 0 :: junk) current =
              argLoop turns t.quotes (l' ++ 0 :: junk) (current ++ t.appended) :=
            fun turns junk => argLoop_next (result junk) (place junk) nonzero done
          rcases ih l'.length shorter free' t.quotes (current ++ t.appended) rfl with
            error | ⟨current', l'', free'', shorter', result'⟩
          · refine .inl fun turns enough junk => ?_
            obtain ⟨spare, rfl⟩ := Nat.exists_eq_add_of_lt enough
            rw [step]
            exact error _ (by omega) junk
          · refine .inr ⟨current', l'', free'', by omega, fun turns enough junk => ?_⟩
            obtain ⟨spare, rfl⟩ := Nat.exists_eq_add_of_lt enough
            rw [step]
            exact result' _ (by omega) junk

theorem skipBlanks_str (free : 0 ∉ l) :
    ∃ l', 0 ∉ l' ∧ l'.length ≤ l.length ∧
      ∀ junk, skipBlanks (l ++ 0 :: junk) = .ok (l' ++ 0 :: junk) := by
  induction l with
  | nil => exact ⟨[], free, Nat.le_refl 0, fun _ => rfl⟩
  | cons c l ih =>
      by_cases blank : c ≠ 0 ∧ isspace c = true
      · obtain ⟨l', free', shorter, result⟩ := ih fun zero => free (List.mem_cons_of_mem c zero)
        refine ⟨l', free', Nat.le_succ_of_le shorter, fun junk => ?_⟩
        rw [List.cons_append, skipBlanks, if_pos blank]
        exact result junk
      · refine ⟨c :: l, free, Nat.le_refl _, fun junk => ?_⟩
        rw [List.cons_append, skipBlanks, if_neg blank]

/-- The arguments are settled by the line. -/
theorem splitLoop_str (free : 0 ∉ l) (vector : List (List (BitVec 8))) :
    ∃ r, r ≠ .error .overread ∧ ∀ turns, l.length < turns → ∀ junk,
      splitLoop turns (l ++ 0 :: junk) vector = r := by
  induction length : l.length using Nat.strong_induction_on generalizing l vector with
  | _ n ih =>
  subst length
  obtain ⟨l₁, free₁, shorter, skipped⟩ := skipBlanks_str free
  cases l₁ with
  | nil =>
      refine ⟨.ok vector, by simp, fun turns enough junk => ?_⟩
      obtain ⟨spare, rfl⟩ := Nat.exists_eq_add_of_lt enough
      rw [splitLoop, skipped]
      rfl
  | cons c l₁ =>
      have nonzero : c ≠ 0 := fun zero => free₁ (zero ▸ List.mem_cons_self)
      have enough' : ∀ junk : List (BitVec 8), (c :: l₁).length < (c :: l₁ ++ 0 :: junk).length + 1 := by
        intro junk
        rw [List.length_append]
        omega
      have step : ∀ turns junk, splitLoop (turns + 1) (l ++ 0 :: junk) vector = (do
          let (current, p) ← argLoop ((c :: l₁ ++ 0 :: junk).length + 1) .none (c :: l₁ ++ 0 :: junk) []
          splitLoop turns p (vector ++ [current])) := by
        intro turns junk
        rw [splitLoop, skipped, bind_deref]
        exact if_pos nonzero
      rcases argLoop_str free₁ .none [] with error | ⟨current, l', free', inside, result⟩
      · refine ⟨.error .err, by simp, fun turns enough junk => ?_⟩
        obtain ⟨spare, rfl⟩ := Nat.exists_eq_add_of_lt enough
        rw [step, error _ (enough' junk)]
        rfl
      · rw [List.length_cons] at shorter inside
        obtain ⟨r, read, same⟩ := ih l'.length (by omega) free' (vector ++ [current]) rfl
        refine ⟨r, read, fun turns enough junk => ?_⟩
        obtain ⟨spare, rfl⟩ := Nat.exists_eq_add_of_lt enough
        rw [step, result _ (enough' junk)]
        exact same _ (by omega) junk

/-- **A line is read up to its NUL**: what the parser answers, arguments or the error of
unbalanced quotes, does not depend on what is behind, and nothing there is read. -/
theorem sdssplitargs_terminated (free : 0 ∉ l) :
    ∃ r, r ≠ .error .overread ∧ ∀ junk, sdssplitargs (l ++ 0 :: junk) = r := by
  obtain ⟨r, read, same⟩ := splitLoop_str free []
  refine ⟨r, read, fun junk => same _ ?_ junk⟩
  rw [List.length_append]
  omega

/-- A line that ends in an escape. -/
theorem sdssplitargs_terminated_escape :
    ∃ r, r ≠ .error .overread ∧ ∀ junk, sdssplitargs ([0x22, 0x5c, 0x78, 0x31] ++ 0 :: junk) = r :=
  sdssplitargs_terminated (by decide)

end Terminated

end Itaro.Cache
