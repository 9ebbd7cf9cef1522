/-
# Engine.Protocol -- memcache.cc: ascii_protocol

The parser is generated and hands over the parts of a command; here are the requests that
are made for them (`requests`) and the texts that answer them (`handle`).

An item is shown with the length that its client had announced when it was stored:
`ascii_prefix` keeps that text, and `incr` and `decr` keep `ascii_prefix`.  A client that
reads as many bytes as are announced (`readItem`) finds the value and what follows it if
and only if the length is right (`readItem_iff`).
-/
import Itaro.Engine.StoreRuns
import Itaro.Theory.Scanning

namespace Itaro.Engine

set_option autoImplicit false

open Theory

def ascii (s : String) : Bytes := s.toList.map fun c => BitVec.ofNat 8 c.toNat

/-! ## Texts -/

def blank : BitVec 8 := 0x20

def msgCrlf : Bytes := ascii "\r\n"
def msgError : Bytes := ascii "ERROR\r\n"
def msgStored : Bytes := ascii "STORED\r\n"
def msgNotStored : Bytes := ascii "NOT_STORED\r\n"
def msgEnd : Bytes := ascii "END\r\n"
def msgValue : Bytes := ascii "VALUE "
def msgDeleted : Bytes := ascii "DELETED\r\n"
def msgNotFound : Bytes := ascii "NOT_FOUND\r\n"
def msgOk : Bytes := ascii "OK\r\n"
def msgVersion : Bytes := ascii "VERSION seastar v1.0\r\n"
def msgExists : Bytes := ascii "EXISTS\r\n"
def msgOutOfMemory : Bytes := ascii "SERVER_ERROR Out of memory allocating new item\r\n"
def msgErrorNonNumericValue : Bytes := ascii "CLIENT_ERROR cannot increment or decrement non-numeric value\r\n"

/-! ## Commands -/

/-- `memcache_ascii_parser::state` -/
inductive Command
  | eof | error | cmdSet | cmdCas | cmdAdd | cmdReplace | cmdGet | cmdGets | cmdDelete | cmdFlushAll | cmdVersion
  | cmdStats | cmdStatsHash | cmdIncr | cmdDecr
  deriving DecidableEq, Repr

/-- What `memcache_ascii_parser` has read. -/
structure Parser where
  key : Bytes
  keys : List Bytes
  flagsStr : Bytes
  sizeStr : Bytes
  expiration : BitVec 32
  blob : Bytes
  version : BitVec 64
  u64 : BitVec 64
  noreply : Bool

def makePrefix (flagsStr sizeStr : Bytes) : Bytes := [blank] ++ flagsStr ++ [blank] ++ sizeStr

/-- `time` is `time(0)`. -/
def Parser.prepareInsertion (p : Parser) (time : BitVec 64) : ItemInsertionData :=
  ⟨p.key, makePrefix p.flagsStr p.sizeStr, p.blob, Engine.expiration time p.expiration⟩

/-- The requests that `handle` makes. -/
def Parser.requests (p : Parser) (time : BitVec 64) : Command → List Request
  | .cmdSet => [.set (p.prepareInsertion time)]
  | .cmdCas => [.cas (p.prepareInsertion time) p.version]
  | .cmdAdd => [.add (p.prepareInsertion time)]
  | .cmdReplace => [.replace (p.prepareInsertion time)]
  | .cmdGet | .cmdGets => p.keys.map .get
  | .cmdDelete => [.remove p.key]
  | .cmdFlushAll =>
      if p.expiration ≠ 0 then [.flushAt (Engine.expiration time p.expiration).toNat] else [.flushAll]
  | .cmdStats => [.stats]
  | .cmdIncr => [.incr p.key p.u64]
  | .cmdDecr => [.decr p.key p.u64]
  | .eof | .error | .cmdVersion | .cmdStatsHash => []

/-! ## Answers -/

def appendItem (withVersion : Bool) (key : Bytes) (e : Entry) : Bytes :=
  msgValue ++ key ++ e.asciiPrefix ++ (if withVersion then [blank] ++ toSstring e.version else []) ++ msgCrlf ++
    e.value ++ msgCrlf

/-- What `get` has found, in the order of its answers. -/
def found : List (Bytes × Reply Entry) → List (Bytes × Entry) :=
  List.filterMap fun
    | (key, .item (some e)) => some (key, e)
    | _ => none

def handleGet (withVersion : Bool) (replies : List (Bytes × Reply Entry)) : Bytes :=
  (found replies).flatMap (fun p => appendItem withVersion p.1 p.2) ++ msgEnd

def handleCount : Reply Entry → Bytes
  | .counter none _ => msgNotFound
  | .counter (some _) false => msgErrorNonNumericValue
  | .counter (some e) true => e.value ++ msgCrlf
  | _ => []

/-- The text for a command that makes one request. -/
def handleOne : Command → Reply Entry → Bytes
  | .cmdSet, _ => msgStored
  | .cmdCas, .cas .stored => msgStored
  | .cmdCas, .cas .notFound => msgNotFound
  | .cmdCas, .cas .badVersion => msgExists
  | .cmdAdd, .flag added => if added then msgStored else msgNotStored
  | .cmdReplace, .flag replaced => if replaced then msgStored else msgNotStored
  | .cmdDelete, .flag removed => if removed then msgDeleted else msgNotFound
  | .cmdIncr, reply | .cmdDecr, reply => handleCount reply
  | _, _ => []

/-- `report` is what `print_stats` and `print_hash_stats` write; `replies` come with the
keys they are about. -/
def Parser.handle (p : Parser) (report : Bytes) (command : Command) (replies : List (Bytes × Reply Entry)) : Bytes :=
  if replies.any (·.2 = .badAlloc) then if p.noreply then [] else msgOutOfMemory
  else
    match command with
    | .eof => []
    | .error => msgError
    | .cmdVersion => msgVersion
    | .cmdStats | .cmdStatsHash => report
    | .cmdGet => handleGet false replies
    | .cmdGets => handleGet true replies
    -- every shard has been asked
    | .cmdFlushAll => if p.noreply then [] else msgOk
    | command => if p.noreply then [] else replies.flatMap fun reply => handleOne command reply.2

/-! ## What a client reads -/

structure Header where
  key : Bytes
  flags : Bytes
  announced : Nat
  version : Option Nat
  deriving DecidableEq

structure Shown where
  key : Bytes
  flags : Bytes
  value : Bytes
  version : Option Nat
  deriving DecidableEq

def readVersion (withVersion : Bool) (s : Bytes) : Option (Option Nat × Bytes) :=
  if withVersion then do
    let s ← literal [blank] s
    let (digits, s) := s.span Cache.isdigit
    some (some (Cache.decimal.toNat digits), s)
  else some (none, s)

def readHeader (withVersion : Bool) (s : Bytes) : Option (Header × Bytes) := do
  let s ← literal msgValue s
  let (key, s) := s.span (· ≠ blank)
  let s ← literal [blank] s
  let (flags, s) := s.span (· ≠ blank)
  let s ← literal [blank] s
  let (size, s) := s.span Cache.isdigit
  let (version, s) ← readVersion withVersion s
  let s ← literal msgCrlf s
  some (⟨key, flags, Cache.decimal.toNat size, version⟩, s)

/-- An item, and what follows it. -/
def readItem (withVersion : Bool) (s : Bytes) : Option (Shown × Bytes) := do
  let (header, s) ← readHeader withVersion s
  if s.length < header.announced then none
  else
    let rest ← literal msgCrlf (s.drop header.announced)
    some (⟨header.key, header.flags, s.take header.announced, header.version⟩, rest)

/-- The items before the end, if there are less than so many. -/
def readItems (withVersion : Bool) : Nat → Bytes → Option (List Shown)
  | 0, _ => none
  | n + 1, s =>
      if s = msgEnd then some []
      else do
        let (item, rest) ← readItem withVersion s
        let items ← readItems withVersion n rest
        some (item :: items)

/-- No blank in it. -/
def Word (w : Bytes) : Prop := ∀ c ∈ w, c ≠ blank

instance (w : Bytes) : Decidable (Word w) := inferInstanceAs (Decidable (∀ c ∈ w, c ≠ blank))

/-- The announced length is that of the value. -/
def Announced (asciiPrefix value : Bytes) : Prop :=
  ∃ flags size, Word flags ∧ (∀ c ∈ size, Cache.isdigit c = true) ∧ asciiPrefix = makePrefix flags size ∧
    Cache.decimal.toNat size = value.length

section Reading

variable {withVersion : Bool} {key flags size rest : Bytes} {e : Entry}

theorem span_word {w : Bytes} (word : Word w) (rest : Bytes) :
    (w ++ ([blank] ++ rest)).span (· ≠ blank) = (w, [blank] ++ rest) :=
  span_append (fun c member => decide_eq_true (word c member)) fun c front => by
    cases front
    decide

theorem span_digits {w : Bytes} (digits : ∀ c ∈ w, Cache.isdigit c = true) {c : BitVec 8} (stops : Cache.isdigit c = false)
    (rest : Bytes) : (w ++ c :: rest).span Cache.isdigit = (w, c :: rest) :=
  span_append digits fun d front => by
    cases front
    exact stops

/-- How a client sees the version. -/
def shownVersion (withVersion : Bool) (e : Entry) : Option Nat := if withVersion then some e.version.toNat else none

def showing (withVersion : Bool) (key flags : Bytes) (e : Entry) : Shown :=
  ⟨key, flags, e.value, shownVersion withVersion e⟩

theorem readVersion_append (rest : Bytes) : readVersion withVersion
    ((if withVersion then [blank] ++ toSstring e.version else []) ++ (msgCrlf ++ rest)) =
      some (shownVersion withVersion e, msgCrlf ++ rest) := by
  cases withVersion with
  | false => rfl
  | true =>
      have digits := span_digits (w := toSstring e.version) (fun _ => isdigit_of_mem_toSstring)
        (c := 0x0d) rfl (0x0a :: rest)
      show readVersion true ([blank] ++ toSstring e.version ++ (0x0d :: 0x0a :: rest)) = _
      rw [readVersion, if_pos rfl, List.append_assoc, literal_append]
      simp only [Option.bind_eq_bind, Option.bind_some, digits, toNat_toSstring]
      rfl

/-- Behind the length stands a blank or the end of the line. -/
theorem span_size (digits : ∀ c ∈ size, Cache.isdigit c = true) (rest : Bytes) :
    (size ++ ((if withVersion then [blank] ++ toSstring e.version else []) ++ (msgCrlf ++ rest))).span Cache.isdigit =
      (size, (if withVersion then [blank] ++ toSstring e.version else []) ++ (msgCrlf ++ rest)) := by
  cases withVersion with
  | false => exact span_digits digits (c := 0x0d) rfl _
  | true => exact span_digits digits (c := blank) rfl _

theorem readHeader_append (word : Word key) (flagsWord : Word flags) (digits : ∀ c ∈ size, Cache.isdigit c = true)
    (announces : e.asciiPrefix = makePrefix flags size) (rest : Bytes) :
    readHeader withVersion (appendItem withVersion key e ++ rest) =
      some (⟨key, flags, Cache.decimal.toNat size, shownVersion withVersion e⟩, e.value ++ (msgCrlf ++ rest)) := by
  have text : appendItem withVersion key e ++ rest = msgValue ++ (key ++ ([blank] ++ (flags ++ ([blank] ++ (size ++
      ((if withVersion then [blank] ++ toSstring e.version else []) ++ (msgCrlf ++ (e.value ++ (msgCrlf ++ rest))))))))) := by
    simp only [appendItem, announces, makePrefix, List.append_assoc]
  rw [text, readHeader]
  simp only [literal_append, Option.bind_eq_bind, Option.bind_some, span_word word, span_word flagsWord, span_size digits,
    readVersion_append]

/-- **A client reads the value if and only if its length is announced.** -/
theorem readItem_iff (word : Word key) (flagsWord : Word flags) (digits : ∀ c ∈ size, Cache.isdigit c = true)
    (announces : e.asciiPrefix = makePrefix flags size) (rest : Bytes) :
    readItem withVersion (appendItem withVersion key e ++ rest) = some (showing withVersion key flags e, rest) ↔
      Cache.decimal.toNat size = e.value.length := by
  rw [readItem, readHeader_append word flagsWord digits announces]
  generalize Cache.decimal.toNat size = announced
  simp only [Option.bind_eq_bind, Option.bind_some]
  constructor
  · intro reads
    split at reads
    case isTrue short => cases reads
    case isFalse long =>
      obtain ⟨rest', -, result⟩ := Option.bind_eq_some_iff.mp reads
      have value : (e.value ++ (msgCrlf ++ rest)).take announced = e.value :=
        congrArg (fun p => p.1.value) (Option.some.inj result)
      have length := congrArg List.length value
      rwa [List.length_take_of_le (Nat.not_lt.mp long)] at length
  · rintro rfl
    rw [if_neg (by simp), List.drop_left, List.take_left, literal_append]
    rfl

theorem appendItem_ne_msgEnd (rest : Bytes) : appendItem withVersion key e ++ rest ≠ msgEnd := by
  have front : (appendItem withVersion key e ++ rest).head? = some 0x56 := by
    simp only [appendItem, List.append_assoc]
    rfl
  intro same
  rw [same] at front
  exact absurd front (by decide)

end Reading

end Itaro.Engine
