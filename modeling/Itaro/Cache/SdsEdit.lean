/-
# Cache.SdsEdit -- sds.c: strings that change in place

The operations work on a header and the bytes behind it (`Sdshdr`): what is written
outside of what is allocated is a fault, and what `zrealloc` adds holds any bytes, a
parameter.  `SdsHolds` says which string a header holds; `editSds_holds` is that each
operation does to it what it does to a list of bytes, and `editsSds_holds` that a run
of them does, as long as the strings stay below 2^31 bytes.
-/
import Itaro.Cache.Sds
import Mathlib.Data.BitVec
import Mathlib.Data.List.DropRight

namespace Itaro.Cache

set_option autoImplicit false

/-! ## Headers and memory -/

/-- `struct sdshdr` with what is allocated behind it. -/
structure Sdshdr where
  len : BitVec 32
  free : BitVec 32
  buf : List (BitVec 8)
  deriving DecidableEq, Repr

inductive SdsFault
  | overrun
  /-- An assertion of `sdsIncrLen`. -/
  | assertion
  deriving DecidableEq, Repr

/-- `memcpy(buf+i, bytes, n)` -/
def poke (buf : List (BitVec 8)) (i : Nat) (bytes : List (BitVec 8)) :
    Except SdsFault (List (BitVec 8)) :=
  if i + bytes.length ≤ buf.length then .ok (buf.take i ++ bytes ++ buf.drop (i + bytes.length))
  else .error .overrun

/-- `zrealloc` to `n` bytes; `fresh` is what new memory holds. -/
def realloc (fresh : Nat → BitVec 8) (buf : List (BitVec 8)) (n : Nat) : List (BitVec 8) :=
  buf.take n ++ (List.range' buf.length (n - buf.length)).map fresh

/-! ## The operations -/

/-- `SDS_MAX_PREALLOC` -/
def sdsMaxPrealloc : Nat := 1024 * 1024

section Operations

variable (fresh : Nat → BitVec 8) (sh : Sdshdr)

/-- `sdsMakeRoomFor`; a `size_t` has 64 bits. -/
def sdsMakeRoomFor (addlen : Nat) : Sdshdr :=
  if addlen ≤ sh.free.toNat then sh
  else
    let len := sh.len.toNat
    let newlen := (len + addlen) % 2 ^ 64
    let newlen := (if newlen < sdsMaxPrealloc then newlen * 2 else newlen + sdsMaxPrealloc) % 2 ^ 64
    { sh with
      free := BitVec.ofNat 64 newlen |>.sub (BitVec.ofNat 64 len) |>.setWidth 32
      buf := realloc fresh sh.buf (newlen + 1) }

def sdsRemoveFreeSpace : Sdshdr :=
  { sh with free := 0, buf := realloc fresh sh.buf (sh.len.toNat + 1) }

def sdscatlen (t : List (BitVec 8)) : Except SdsFault Sdshdr := do
  let curlen := sh.len.toNat
  let sh := sdsMakeRoomFor fresh sh t.length
  let buf ← poke sh.buf curlen t
  let buf ← poke buf (curlen + t.length) [0]
  return ⟨BitVec.ofNat 32 (curlen + t.length), sh.free - BitVec.ofNat 32 t.length, buf⟩

/-- `sdscpylen`; `totlen` is the sum of two `unsigned int`. -/
def sdscpylen (t : List (BitVec 8)) : Except SdsFault Sdshdr := do
  let totlen := (sh.free + sh.len).toNat
  let sh := if totlen < t.length then
      sdsMakeRoomFor fresh sh (BitVec.ofNat 64 t.length - sh.len.setWidth 64).toNat
    else sh
  let totlen := sh.free + sh.len
  let buf ← poke sh.buf 0 t
  let buf ← poke buf t.length [0]
  return ⟨BitVec.ofNat 32 t.length, totlen - BitVec.ofNat 32 t.length, buf⟩

def sdsgrowzero (len : Nat) : Except SdsFault Sdshdr := do
  let curlen := sh.len.toNat
  if len ≤ curlen then return sh
  let sh := sdsMakeRoomFor fresh sh (len - curlen)
  let buf ← poke sh.buf curlen (List.replicate (len - curlen + 1) 0)
  let totlen := sh.len + sh.free
  return ⟨BitVec.ofNat 32 len, totlen - BitVec.ofNat 32 len, buf⟩

def sdsclear : Except SdsFault Sdshdr := do
  let buf ← poke sh.buf 0 [0]
  return ⟨0, sh.free + sh.len, buf⟩

/-- `strlen`: the bytes before the first NUL. -/
def strlen (buf : List (BitVec 8)) : Nat := (buf.takeWhile (· ≠ 0)).length

/-- `sdsupdatelen`; `reallen` is an `int`. -/
def sdsupdatelen : Except SdsFault Sdshdr :=
  if sh.buf.all (· ≠ 0) then .error .overrun
  else
    let reallen := BitVec.ofNat 32 (strlen sh.buf)
    .ok { sh with free := sh.free + (sh.len - reallen), len := reallen }

/-- `sdsIncrLen`; both are 32 bits wide. -/
def sdsIncrLen (incr : BitVec 32) : Except SdsFault Sdshdr := do
  if 0 ≤ incr.toInt then
    if sh.free < incr then throw .assertion
  else if sh.len < -incr then throw .assertion
  let len := sh.len + incr
  let buf ← poke sh.buf len.toNat [0]
  return ⟨len, sh.free - incr, buf⟩

/-- `memmove(sh->buf, sh->buf+start, newlen)`, the terminator and the lengths. -/
def sdsKeep (start newlen : Nat) : Except SdsFault Sdshdr := do
  let buf ← poke sh.buf 0 ((sh.buf.drop start).take newlen)
  let buf ← poke buf newlen [0]
  return ⟨BitVec.ofNat 32 newlen, sh.free + (sh.len - BitVec.ofNat 32 newlen), buf⟩

/-- `sdstrim`: `strchr` finds the NUL of `cset` too. -/
def sdstrim (cset : List (BitVec 8)) : Except SdsFault Sdshdr :=
  let found := fun c => decide (c = 0 ∨ c ∈ cset)
  let bytes := sh.buf.take sh.len.toNat
  let sp := (bytes.takeWhile found).length
  let ep := bytes.length - (bytes.tail.reverse.takeWhile found).length
  sdsKeep sh sp (if ep ≤ sp then 0 else ep - sp)

/-- What is left of a number in an `int`. -/
def asInt (i : Int) : Int := (BitVec.ofInt 32 i).toInt

/-- `sdsrange`; `start` and `end` are `int`s, the length is a `size_t` that is cast to one. -/
def sdsrange (start end' : Int) : Except SdsFault Sdshdr :=
  let len : Int := sh.len.toNat
  if len = 0 then .ok sh
  else
    let start := if start < 0 then max (asInt (len + start)) 0 else start
    let end' := if end' < 0 then max (asInt (len + end')) 0 else end'
    let newlen := if end' < start then 0 else end' - start + 1
    if newlen = 0 then sdsKeep sh 0 0
    else if asInt len ≤ start then sdsKeep sh start.toNat 0
    else if asInt len ≤ end' then
      let end' := asInt (len - 1)
      sdsKeep sh start.toNat (if end' < start then 0 else end' - start + 1).toNat
    else sdsKeep sh start.toNat newlen.toNat

/-- The first `n` bytes, one after the other. -/
def sdsMap (f : BitVec 8 → BitVec 8) (n : Nat) : Sdshdr :=
  { sh with buf := (sh.buf.take n).map f ++ sh.buf.drop n }

/-- `tolower` of the C locale. -/
def tolower (c : BitVec 8) : BitVec 8 := if 65 ≤ c ∧ c ≤ 90 then c + 32 else c

/-- `toupper` of the C locale. -/
def toupper (c : BitVec 8) : BitVec 8 := if 97 ≤ c ∧ c ≤ 122 then c - 32 else c

/-- The loop counts up to an `int`. -/
def sdstolower : Sdshdr := sdsMap sh tolower (asInt sh.len.toNat).toNat

def sdstoupper : Sdshdr := sdsMap sh toupper (asInt sh.len.toNat).toNat

/-- The inner loop of `sdsmapchars`: `set` is `from[i]` with `to[i]`, below `setlen`. -/
def mapchar (set : List (BitVec 8 × BitVec 8)) (c : BitVec 8) : BitVec 8 :=
  match set with
  | [] => c
  | (old, new) :: set => if c = old then new else mapchar set c

def sdsmapchars (set : List (BitVec 8 × BitVec 8)) : Sdshdr := sdsMap sh (mapchar set) sh.len.toNat

end Operations

/-! ## What a header holds -/

/-- A header that tells the truth about `bytes`, a terminator and what is spare. -/
structure SdsHolds (sh : Sdshdr) (bytes : List (BitVec 8)) : Prop where
  len : sh.len.toNat = bytes.length
  buf : ∃ spare, sh.buf = bytes ++ 0 :: spare ∧ spare.length = sh.free.toNat
  small : sh.len.toNat + sh.free.toNat < 2 ^ 32

section Holding

variable {sh : Sdshdr} {bytes : List (BitVec 8)}

theorem SdsHolds.room (holds : SdsHolds sh bytes) : sh.buf.length = sh.len.toNat + sh.free.toNat + 1 := by
  obtain ⟨spare, buf, free⟩ := holds.buf
  rw [buf, List.length_append, List.length_cons, free, holds.len]
  omega

theorem SdsHolds.take (holds : SdsHolds sh bytes) : sh.buf.take sh.len.toNat = bytes := by
  obtain ⟨spare, buf, -⟩ := holds.buf
  rw [buf, holds.len, List.take_left]

/-- Such a header is the one of a well-formed string. -/
theorem SdsHolds.sds (holds : SdsHolds sh bytes) :
    ∃ s : Sds, s.len = sh.len ∧ s.free = sh.free ∧ s.buf = sh.buf ∧ s.bytes = bytes := by
  have terminated : sh.buf[sh.len.toNat]? = some 0 := by
    obtain ⟨spare, buf, -⟩ := holds.buf
    simp [buf, holds.len]
  exact ⟨⟨sh.len, sh.free, sh.buf, holds.room, terminated⟩, rfl, rfl, rfl, holds.take⟩

theorem poke_eq {buf t : List (BitVec 8)} {i : Nat} (fits : i + t.length ≤ buf.length) :
    poke buf i t = .ok (buf.take i ++ t ++ buf.drop (i + t.length)) :=
  if_pos fits

/-- Bytes and their terminator, written one after the other. -/
theorem poke_terminated {α : Type} (buf t : List (BitVec 8)) {i : Nat} (fits : i + t.length < buf.length)
    (next : List (BitVec 8) → Except SdsFault α) :
    (poke buf i t >>= fun buf => poke buf (i + t.length) [0] >>= next) =
      next (buf.take i ++ t ++ 0 :: buf.drop (i + t.length + 1)) := by
  have written : (buf.take i ++ t).length = i + t.length := by
    rw [List.length_append, List.length_take]
    omega
  have again : poke (buf.take i ++ t ++ buf.drop (i + t.length)) (i + t.length) [0] =
      .ok (buf.take i ++ t ++ 0 :: buf.drop (i + t.length + 1)) := by
    rw [poke_eq (by rw [List.length_append, written, List.length_drop, List.length_singleton]; omega)]
    rw [← written, List.take_left, List.length_singleton, List.drop_append, written]
    have behind : (buf.take i ++ t).drop (i + t.length + 1) = [] :=
      List.drop_eq_nil_of_le (by rw [written]; exact Nat.le_succ _)
    rw [behind, List.nil_append, Nat.add_sub_cancel_left, List.drop_drop]
    simp only [List.append_assoc, List.singleton_append]
  rw [poke_eq (Nat.le_of_lt fits)]
  exact congrArg (· >>= next) again

/-- The header after bytes and a terminator were written at `i`. -/
theorem SdsHolds.written (holds : SdsHolds sh bytes) {i : Nat} {t : List (BitVec 8)} {free : BitVec 32}
    (fits : i + t.length ≤ sh.len.toNat + sh.free.toNat)
    (rest : free.toNat = sh.len.toNat + sh.free.toNat - (i + t.length)) :
    SdsHolds ⟨BitVec.ofNat 32 (i + t.length), free, sh.buf.take i ++ t ++ 0 :: sh.buf.drop (i + t.length + 1)⟩
      (sh.buf.take i ++ t) := by
  have small := holds.small
  have room := holds.room
  have written : (sh.buf.take i ++ t).length = i + t.length := by
    rw [List.length_append, List.length_take]
    omega
  have len : (BitVec.ofNat 32 (i + t.length)).toNat = i + t.length := by
    rw [BitVec.toNat_ofNat, Nat.mod_eq_of_lt (by omega)]
  constructor
  case len => rw [len, written]
  case buf =>
    refine ⟨_, rfl, ?_⟩
    rw [List.length_drop, room, rest]
    omega
  case small =>
    rw [len, rest]
    omega

end Holding

/-! ## Room -/

section Room

variable (fresh : Nat → BitVec 8) {sh : Sdshdr} {bytes : List (BitVec 8)}

theorem sdsMakeRoomFor_len (sh : Sdshdr) (addlen : Nat) : (sdsMakeRoomFor fresh sh addlen).len = sh.len := by
  rw [sdsMakeRoomFor]
  split <;> rfl

/-- More memory behind the bytes is all that changes. -/
theorem sdsMakeRoomFor_holds (holds : SdsHolds sh bytes) {addlen : Nat} (short : bytes.length + addlen < 2 ^ 31) :
    SdsHolds (sdsMakeRoomFor fresh sh addlen) bytes ∧ addlen ≤ (sdsMakeRoomFor fresh sh addlen).free.toNat := by
  rw [sdsMakeRoomFor]
  split
  case isTrue enough => exact ⟨holds, enough⟩
  case isFalse scarce =>
    have len := holds.len
    have room := holds.room
    obtain ⟨spare, buf, -⟩ := holds.buf
    obtain ⟨newlen, new, atLeast, atMost⟩ : ∃ newlen,
        (if (sh.len.toNat + addlen) % 2 ^ 64 < sdsMaxPrealloc then (sh.len.toNat + addlen) % 2 ^ 64 * 2
          else (sh.len.toNat + addlen) % 2 ^ 64 + sdsMaxPrealloc) % 2 ^ 64 = newlen ∧
        sh.len.toNat + addlen ≤ newlen ∧ newlen < 2 ^ 32 := by
      refine ⟨_, rfl, ?_⟩
      rw [Nat.mod_eq_of_lt (a := sh.len.toNat + addlen) (by omega), sdsMaxPrealloc]
      split <;> omega
    have free : (BitVec.setWidth 32 ((BitVec.ofNat 64 newlen).sub (BitVec.ofNat 64 sh.len.toNat))).toNat =
        newlen - sh.len.toNat := by
      rw [BitVec.toNat_setWidth, BitVec.sub_eq, BitVec.toNat_sub, BitVec.toNat_ofNat, BitVec.toNat_ofNat]
      omega
    have longer : realloc fresh sh.buf (newlen + 1) =
        bytes ++ 0 :: (spare ++ (List.range' sh.buf.length (newlen + 1 - sh.buf.length)).map fresh) := by
      rw [realloc, List.take_of_length_le (by omega), ← List.cons_append, ← List.append_assoc, ← buf]
    simp only [new]
    refine ⟨⟨len, ⟨_, longer, ?_⟩, ?_⟩, ?_⟩
    · have spareLength := congrArg List.length buf
      rw [List.length_append, List.length_cons] at spareLength
      rw [List.length_append, List.length_map, List.length_range', free]
      omega
    · change sh.len.toNat + _ < 2 ^ 32
      rw [free]
      omega
    · rw [free]
      omega

theorem sdsRemoveFreeSpace_holds (holds : SdsHolds sh bytes) : SdsHolds (sdsRemoveFreeSpace fresh sh) bytes := by
  obtain ⟨spare, buf, -⟩ := holds.buf
  have room := holds.room
  refine ⟨holds.len, ⟨[], ?_, rfl⟩, ?_⟩
  · rw [sdsRemoveFreeSpace, realloc, holds.len, buf]
    simp [List.take_append]
  · exact Nat.lt_of_le_of_lt (Nat.add_le_add_left (Nat.zero_le _) _) holds.small

end Room

/-! ## One operation -/

section OneEdit

variable (fresh : Nat → BitVec 8) {sh : Sdshdr} {bytes : List (BitVec 8)}

theorem sdscatlen_holds (holds : SdsHolds sh bytes) {t : List (BitVec 8)} (short : bytes.length + t.length < 2 ^ 31) :
    ∃ sh', sdscatlen fresh sh t = .ok sh' ∧ SdsHolds sh' (bytes ++ t) := by
  obtain ⟨held, enough⟩ := sdsMakeRoomFor_holds fresh holds short
  have len := sdsMakeRoomFor_len fresh sh t.length
  have room := held.room
  have rest : ((sdsMakeRoomFor fresh sh t.length).free - BitVec.ofNat 32 t.length).toNat =
      (sdsMakeRoomFor fresh sh t.length).len.toNat + (sdsMakeRoomFor fresh sh t.length).free.toNat -
        ((sdsMakeRoomFor fresh sh t.length).len.toNat + t.length) := by
    rw [BitVec.toNat_sub, BitVec.toNat_ofNat]
    omega
  have written := held.written (Nat.add_le_add_left enough _) rest
  rw [held.take, len] at written
  refine ⟨_, ?_, written⟩
  rw [sdscatlen, ← len]
  refine (poke_terminated _ t (by omega) _).trans ?_
  rw [held.take]
  rfl

theorem sdscpylen_holds (holds : SdsHolds sh bytes) {t : List (BitVec 8)} (short : t.length < 2 ^ 31) : ∃ sh', sdscpylen fresh sh t = .ok sh' ∧ SdsHolds sh' t := by
  have total : (sh.free + sh.len).toNat = sh.len.toNat + sh.free.toNat := by
    have small := holds.small
    rw [BitVec.toNat_add, Nat.mod_eq_of_lt (by omega), Nat.add_comm]
  obtain ⟨roomy, made, held, enough⟩ : ∃ roomy,
      (if (sh.free + sh.len).toNat < t.length then
        sdsMakeRoomFor fresh sh (BitVec.ofNat 64 t.length - sh.len.setWidth 64).toNat else sh) = roomy ∧
      SdsHolds roomy bytes ∧ t.length ≤ roomy.len.toNat + roomy.free.toNat := by
    refine ⟨_, rfl, ?_⟩
    split
    case isTrue scarce =>
      have missing : (BitVec.ofNat 64 t.length - sh.len.setWidth 64).toNat = t.length - sh.len.toNat := by
        rw [BitVec.toNat_sub, BitVec.toNat_ofNat, BitVec.toNat_setWidth]
        omega
      have len := holds.len
      have shortAll : bytes.length + (t.length - sh.len.toNat) < 2 ^ 31 := by omega
      obtain ⟨held, enough⟩ := sdsMakeRoomFor_holds fresh holds shortAll
      rw [missing]
      refine ⟨held, ?_⟩
      rw [sdsMakeRoomFor_len]
      omega
    case isFalse plenty => exact ⟨holds, by omega⟩
  have room := held.room
  have small := held.small
  have rest : (roomy.free + roomy.len - BitVec.ofNat 32 t.length).toNat =
      roomy.len.toNat + roomy.free.toNat - (0 + t.length) := by
    rw [BitVec.toNat_sub, BitVec.toNat_add, BitVec.toNat_ofNat]
    omega
  have written := held.written (i := 0) (t := t) (by omega) rest
  have stored := poke_terminated roomy.buf t (i := 0) (by omega)
    (fun buf => .ok (Sdshdr.mk (BitVec.ofNat 32 t.length) (roomy.free + roomy.len - BitVec.ofNat 32 t.length) buf))
  rw [Nat.zero_add] at written stored
  refine ⟨_, ?_, written⟩
  rw [sdscpylen]
  simp only [made]
  exact stored

theorem sdsgrowzero_holds (holds : SdsHolds sh bytes) {len : Nat} (short : len < 2 ^ 31) :
    ∃ sh', sdsgrowzero fresh sh len = .ok sh' ∧ SdsHolds sh' (bytes ++ List.replicate (len - bytes.length) 0) := by
  have oldLen := holds.len
  rw [sdsgrowzero]
  by_cases already : len ≤ sh.len.toNat
  · refine ⟨sh, if_pos already, ?_⟩
    rw [Nat.sub_eq_zero_of_le (by omega)]
    simpa using holds
  · obtain ⟨more, sum⟩ : ∃ more, len = sh.len.toNat + more := ⟨_, (Nat.add_sub_of_le (by omega)).symm⟩
    subst sum
    have shortAll : bytes.length + more < 2 ^ 31 := by omega
    obtain ⟨held, enough⟩ := sdsMakeRoomFor_holds fresh holds shortAll
    have kept := sdsMakeRoomFor_len fresh sh more
    have room := held.room
    have small := held.small
    obtain ⟨roomy, made⟩ : ∃ roomy, sdsMakeRoomFor fresh sh more = roomy := ⟨_, rfl⟩
    rw [made] at held enough kept room small
    have rest : (roomy.len + roomy.free - BitVec.ofNat 32 (sh.len.toNat + more)).toNat =
        roomy.len.toNat + roomy.free.toNat - (roomy.len.toNat + (List.replicate more (0 : BitVec 8)).length) := by
      rw [BitVec.toNat_sub, BitVec.toNat_add, BitVec.toNat_ofNat, List.length_replicate, kept]
      rw [kept] at small
      omega
    have written := held.written (by rw [List.length_replicate]; omega) rest
    rw [held.take, List.length_replicate, kept] at written
    have zeros : poke roomy.buf sh.len.toNat (List.replicate (more + 1) 0) =
        .ok (bytes ++ List.replicate more 0 ++ 0 :: roomy.buf.drop (sh.len.toNat + more + 1)) := by
      rw [poke_eq (by rw [List.length_replicate, room, kept]; omega), ← kept, held.take, List.length_replicate,
        List.replicate_succ', Nat.add_assoc]
      simp only [List.append_assoc, List.singleton_append]
    refine ⟨_, ?_, by rw [Nat.add_comm, ← oldLen, Nat.add_sub_cancel]; exact written⟩
    rw [if_neg already, Nat.add_sub_cancel_left, made, ← kept]
    rw [← kept] at zeros
    exact congrArg (· >>= _) zeros

/-- A terminator further in front leaves the bytes before it. -/
theorem SdsHolds.cut (holds : SdsHolds sh bytes) {k : Nat} (inside : k ≤ bytes.length) {free : BitVec 32}
    (rest : free.toNat = sh.len.toNat + sh.free.toNat - k) :
    ∃ buf, poke sh.buf k [0] = .ok buf ∧ SdsHolds ⟨BitVec.ofNat 32 k, free, buf⟩ (bytes.take k) := by
  have len := holds.len
  have room := holds.room
  have written := holds.written (i := k) (t := []) (by simp only [List.length_nil]; omega) rest
  have front : sh.buf.take k = bytes.take k := by
    rw [← holds.take, List.take_take, Nat.min_eq_left (by omega)]
  rw [front] at written
  simp only [List.append_nil, List.length_nil, Nat.add_zero] at written
  refine ⟨_, ?_, written⟩
  rw [poke_eq (by rw [List.length_singleton]; omega), front]
  simp only [List.append_assoc, List.singleton_append, List.length_singleton]

theorem sdsclear_holds (holds : SdsHolds sh bytes) : ∃ sh', sdsclear sh = .ok sh' ∧ SdsHolds sh' [] := by
  have small := holds.small
  have rest : (sh.free + sh.len).toNat = sh.len.toNat + sh.free.toNat - 0 := by
    rw [BitVec.toNat_add]
    omega
  obtain ⟨buf, stored, cleared⟩ := holds.cut (Nat.zero_le _) rest
  refine ⟨_, ?_, cleared⟩
  rw [sdsclear, stored]
  rfl

/-- What the assertion lets through. -/
theorem sdsIncrLen_holds (holds : SdsHolds sh bytes) {incr : BitVec 32} (shrinks : incr.toInt ≤ 0)
    (enough : (-incr).toNat ≤ bytes.length) :
    ∃ sh', sdsIncrLen sh incr = .ok sh' ∧ SdsHolds sh' (bytes.take (bytes.length - (-incr).toNat)) := by
  have small := holds.small
  have len := holds.len
  have opposite : (-incr).toNat = (2 ^ 32 - incr.toNat) % 2 ^ 32 := BitVec.toNat_neg incr
  have rest : (sh.free - incr).toNat = sh.len.toNat + sh.free.toNat - (bytes.length - (-incr).toNat) := by
    rw [BitVec.toNat_sub]
    omega
  obtain ⟨buf, stored, cut⟩ := holds.cut (Nat.sub_le _ _) rest
  have newLen : sh.len + incr = BitVec.ofNat 32 (bytes.length - (-incr).toNat) := by
    apply BitVec.eq_of_toNat_eq
    rw [BitVec.toNat_add, BitVec.toNat_ofNat]
    omega
  have newLenNat : (sh.len + incr).toNat = bytes.length - (-incr).toNat := by
    rw [BitVec.toNat_add]
    omega
  have allowed : ¬ sh.len < -incr := by
    rw [BitVec.lt_def]
    omega
  refine ⟨_, ?_, cut⟩
  simp only [sdsIncrLen, newLenNat, stored]
  rw [newLen]
  by_cases zero : 0 ≤ incr.toInt
  · have none : incr = 0 := BitVec.eq_of_toInt_eq (Int.le_antisymm shrinks zero)
    have fits : ¬ sh.free < incr := by simp [none]
    rw [if_pos zero, if_neg fits]
    rfl
  · rw [if_neg zero, if_neg allowed]
    rfl

/-- A part of the bytes, moved to the front. -/
theorem sdsKeep_holds (holds : SdsHolds sh bytes) {start newlen : Nat} (inside : newlen ≤ bytes.length - start) :
    ∃ sh', sdsKeep sh start newlen = .ok sh' ∧ SdsHolds sh' ((bytes.drop start).take newlen) := by
  obtain ⟨spare, buf, -⟩ := holds.buf
  have len := holds.len
  have room := holds.room
  have small := holds.small
  have moved : (sh.buf.drop start).take newlen = (bytes.drop start).take newlen := by
    rw [buf, List.drop_append, List.take_append_of_le_length (by rw [List.length_drop]; exact inside)]
  have length : ((bytes.drop start).take newlen).length = newlen := by
    rw [List.length_take, List.length_drop, Nat.min_eq_left inside]
  have rest : (sh.free + (sh.len - BitVec.ofNat 32 newlen)).toNat =
      sh.len.toNat + sh.free.toNat - (0 + ((bytes.drop start).take newlen).length) := by
    rw [length, BitVec.toNat_add, BitVec.toNat_sub, BitVec.toNat_ofNat]
    omega
  have written := holds.written (by omega) rest
  have stored := poke_terminated sh.buf ((bytes.drop start).take newlen) (i := 0) (by omega)
    (fun buf => .ok (Sdshdr.mk (BitVec.ofNat 32 newlen) (sh.free + (sh.len - BitVec.ofNat 32 newlen)) buf))
  rw [Nat.zero_add, length] at written stored
  refine ⟨_, ?_, written⟩
  rw [sdsKeep, moved]
  exact stored

theorem takeWhile_append_hit {p : BitVec 8 → Bool} {l : List (BitVec 8)} (hit : ∃ c ∈ l, p c = false)
    (r : List (BitVec 8)) : (l ++ r).takeWhile p = l.takeWhile p := by
  induction l with
  | nil =>
    obtain ⟨c, mem, -⟩ := hit
    exact absurd mem List.not_mem_nil
  | cons head tail ih =>
    rw [List.cons_append, List.takeWhile_cons, List.takeWhile_cons]
    cases first : p head with
    | false => rfl
    | true =>
      obtain ⟨c, mem, fails⟩ := hit
      have later : c ∈ tail := by
        rcases List.mem_cons.mp mem with rfl | later
        · rw [first] at fails
          contradiction
        · exact later
      rw [if_pos rfl, if_pos rfl, ih ⟨c, later, fails⟩]

theorem strlen_terminated (bytes spare : List (BitVec 8)) :
    (bytes ++ 0 :: spare).takeWhile (· ≠ 0) = bytes.takeWhile (· ≠ 0) := by
  by_cases clean : ∀ c ∈ bytes, c ≠ 0
  · have all : ∀ c ∈ bytes, decide (c ≠ 0) = true := fun c mem => decide_eq_true (clean c mem)
    rw [List.takeWhile_append_of_pos all, List.takeWhile_cons_of_neg (by simp), List.append_nil,
      List.takeWhile_eq_self_iff.mpr all]
  · obtain ⟨c, mem, zero⟩ : ∃ c ∈ bytes, c = 0 := by simpa using clean
    exact takeWhile_append_hit ⟨c, mem, by simp [zero]⟩ _

/-- A buffer with a NUL in it, cut at the first one. -/
theorem terminated_split {buf : List (BitVec 8)} (terminated : 0 ∈ buf) :
    ∃ spare, buf = buf.takeWhile (· ≠ 0) ++ 0 :: spare := by
  have split := List.takeWhile_append_dropWhile (p := fun c : BitVec 8 => decide (c ≠ 0)) (l := buf)
  cases after : buf.dropWhile (· ≠ 0) with
  | nil =>
    rw [List.dropWhile_eq_nil_iff] at after
    exact absurd (after 0 terminated) (by simp)
  | cons head tail =>
    have stopped := List.head_dropWhile_not (fun c : BitVec 8 => decide (c ≠ 0)) (l := buf)
      (by rw [after]; exact List.cons_ne_nil _ _)
    simp only [after, List.head_cons, decide_eq_false_iff_not, Decidable.not_not] at stopped
    rw [after, stopped] at split
    exact ⟨tail, split.symm⟩

/-- Bytes after the first NUL are spare again. -/
theorem sdsupdatelen_holds (holds : SdsHolds sh bytes) :
    ∃ sh', sdsupdatelen sh = .ok sh' ∧ SdsHolds sh' (bytes.takeWhile (· ≠ 0)) := by
  obtain ⟨spare, buf, free⟩ := holds.buf
  have len := holds.len
  have small := holds.small
  have room := holds.room
  have counted : sh.buf.takeWhile (· ≠ 0) = bytes.takeWhile (· ≠ 0) := by
    rw [buf, strlen_terminated]
  have shorter : (bytes.takeWhile (· ≠ 0)).length ≤ bytes.length := (List.takeWhile_prefix _).length_le
  have terminated : 0 ∈ sh.buf := by simp [buf]
  obtain ⟨behind, split⟩ := terminated_split terminated
  rw [counted] at split
  have reallen : (BitVec.ofNat 32 (bytes.takeWhile (· ≠ 0)).length).toNat = (bytes.takeWhile (· ≠ 0)).length := by
    rw [BitVec.toNat_ofNat, Nat.mod_eq_of_lt (by omega)]
  have rest : (sh.free + (sh.len - BitVec.ofNat 32 (bytes.takeWhile (· ≠ 0)).length)).toNat =
      sh.free.toNat + (sh.len.toNat - (bytes.takeWhile (· ≠ 0)).length) := by
    rw [BitVec.toNat_add, BitVec.toNat_sub, reallen]
    omega
  have updated : sdsupdatelen sh = .ok ⟨BitVec.ofNat 32 (bytes.takeWhile (· ≠ 0)).length,
      sh.free + (sh.len - BitVec.ofNat 32 (bytes.takeWhile (· ≠ 0)).length), sh.buf⟩ := by
    have found : ¬ sh.buf.all (· ≠ 0) = true := fun all => by simpa using List.all_eq_true.mp all 0 terminated
    rw [sdsupdatelen, if_neg found, strlen, counted]
  refine ⟨_, updated, reallen, ⟨behind, split, ?_⟩, ?_⟩
  · rw [split, List.length_append, List.length_cons] at room
    rw [rest]
    omega
  · rw [rest, reallen]
    omega

/-- The two walks of `sdstrim`; the second one stops at the first byte. -/
theorem trim_eq (found : BitVec 8 → Bool) (l : List (BitVec 8)) :
    (l.drop (l.takeWhile found).length).take
      (if l.length - (l.tail.reverse.takeWhile found).length ≤ (l.takeWhile found).length then 0
        else l.length - (l.tail.reverse.takeWhile found).length - (l.takeWhile found).length) =
      (l.dropWhile found).rdropWhile found := by
  have split := List.takeWhile_append_dropWhile (p := found) (l := l)
  have front : l.drop (l.takeWhile found).length = l.dropWhile found := by
    conv_lhs => arg 2; rw [← split]
    exact List.drop_left
  have lengths := congrArg List.length split
  rw [List.length_append] at lengths
  have atMost : (l.tail.reverse.takeWhile found).length ≤ l.length - 1 :=
    (List.takeWhile_prefix _).length_le.trans (by rw [List.length_reverse, List.length_tail])
  rw [front]
  cases core : l.dropWhile found with
  | nil =>
    rw [core, List.length_nil, Nat.add_zero] at lengths
    rw [List.take_nil, List.rdropWhile_nil]
  | cons head rest =>
    have stops : found head = false := by
      have := List.head_dropWhile_not found (l := l) (by rw [core]; exact List.cons_ne_nil _ _)
      simpa only [core, List.head_cons] using this
    have hit : ∃ c ∈ (head :: rest).reverse, found c = false := ⟨head, by simp, stops⟩
    -- the first byte is looked at only if it is not the one that stops the walk
    have walked : l.tail.reverse.takeWhile found = (head :: rest).reverse.takeWhile found := by
      cases skipped : l.takeWhile found with
      | nil =>
        rw [skipped, core, List.nil_append] at split
        rw [← split, List.tail_cons, List.reverse_cons]
        by_cases more : ∃ c ∈ rest.reverse, found c = false
        · exact (takeWhile_append_hit more _).symm
        · have all : ∀ c ∈ rest.reverse, found c = true := by simpa using more
          rw [List.takeWhile_append_of_pos all, List.takeWhile_cons_of_neg (by simp [stops]), List.append_nil,
            List.takeWhile_eq_self_iff.mpr all]
      | cons first more =>
        rw [skipped, core, List.cons_append] at split
        rw [← split, List.tail_cons, List.reverse_append]
        exact takeWhile_append_hit hit _
    have kept := List.rdropWhile_append_rtakeWhile (p := found) (l := head :: rest)
    have keptLength := congrArg List.length kept
    rw [List.length_append, List.rtakeWhile, List.length_reverse] at keptLength
    rw [core] at lengths
    have newlen : (if l.length - ((head :: rest).reverse.takeWhile found).length ≤ (l.takeWhile found).length then 0
        else l.length - ((head :: rest).reverse.takeWhile found).length - (l.takeWhile found).length) =
        ((head :: rest).rdropWhile found).length := by
      split <;> omega
    rw [walked, newlen]
    conv_lhs => arg 2; rw [← kept]
    exact List.take_left

/-- What `strchr` finds in a set of characters: one of them, or the NUL behind them. -/
def inSet (cset : List (BitVec 8)) (c : BitVec 8) : Bool := decide (c = 0 ∨ c ∈ cset)

theorem sdstrim_holds (holds : SdsHolds sh bytes) (cset : List (BitVec 8)) :
    ∃ sh', sdstrim sh cset = .ok sh' ∧ SdsHolds sh' ((bytes.dropWhile (inSet cset)).rdropWhile (inSet cset)) := by
  rw [← trim_eq, sdstrim, holds.take]
  apply sdsKeep_holds holds
  split <;> omega

/-- The byte a possibly negative index stands for. -/
def index (len : Nat) (i : Int) : Nat := if i < 0 then (len + i).toNat else i.toNat

theorem asInt_eq {i : Int} (lower : -2 ^ 31 ≤ i) (upper : i < 2 ^ 31) : asInt i = i := by
  rw [asInt, BitVec.toInt_ofInt, Int.bmod_eq_of_le_mul_two] <;> omega

/-- A negative index counts from the end, and none is before the first byte. -/
theorem asInt_index {len : Nat} (short : len < 2 ^ 31) {i : Int} (lower : -2 ^ 31 ≤ i) :
    (if i < 0 then max (asInt (len + i)) 0 else i) = index len i := by
  rw [index]
  split
  case isTrue negative =>
    rw [asInt_eq (by omega) (by omega)]
    omega
  case isFalse => omega

theorem sdsrange_holds (holds : SdsHolds sh bytes) (short : bytes.length < 2 ^ 31) {start end' : Int}
    (startInt : -2 ^ 31 ≤ start) (endInt : -2 ^ 31 ≤ end') :
    ∃ sh', sdsrange sh start end' = .ok sh' ∧
      SdsHolds sh' ((bytes.take (index bytes.length end' + 1)).drop (index bytes.length start)) := by
  have len := holds.len
  have first : (if start < 0 then max (asInt (sh.len.toNat + start)) 0 else start) = index bytes.length start := by
    rw [len]
    exact asInt_index short startInt
  have last : (if end' < 0 then max (asInt (sh.len.toNat + end')) 0 else end') = index bytes.length end' := by
    rw [len]
    exact asInt_index short endInt
  have whole : asInt (sh.len.toNat : Int) = sh.len.toNat := asInt_eq (by omega) (by omega)
  by_cases empty : sh.len.toNat = 0
  · refine ⟨sh, ?_, ?_⟩
    · rw [sdsrange, if_pos (by omega)]
    · have none : bytes = [] := List.eq_nil_of_length_eq_zero (by omega)
      rw [none] at holds ⊢
      simpa using holds
  · have keeps : ∀ lo newlen, newlen ≤ bytes.length - lo →
        (bytes.drop lo).take newlen = (bytes.take (index bytes.length end' + 1)).drop (index bytes.length start) →
        ∃ sh', sdsKeep sh lo newlen = .ok sh' ∧
          SdsHolds sh' ((bytes.take (index bytes.length end' + 1)).drop (index bytes.length start)) := by
      intro lo newlen inside same
      rw [← same]
      exact sdsKeep_holds holds inside
    have nonempty : ¬ (sh.len.toNat : Int) = 0 := by omega
    have previous : asInt ((sh.len.toNat : Int) - 1) = sh.len.toNat - 1 := asInt_eq (by omega) (by omega)
    rw [sdsrange]
    simp only [first, last, whole, previous, if_neg nonempty]
    generalize index bytes.length start = lo at *
    generalize index bytes.length end' = hi at *
    by_cases crossed : hi < lo
    · -- nothing is between the indices
      have nothing : (bytes.take (hi + 1)).drop lo = [] :=
        List.drop_eq_nil_of_le (by rw [List.length_take]; omega)
      have before : (hi : Int) < lo := by omega
      simp only [if_pos before, if_true]
      refine keeps 0 0 (Nat.zero_le _) ?_
      rw [nothing, List.take_zero]
    · have notBefore : ¬ (hi : Int) < lo := by omega
      have some : ¬ (hi : Int) - lo + 1 = 0 := by omega
      simp only [if_neg notBefore, if_neg some]
      split
      case isTrue outside =>
        have nothing : (bytes.take (hi + 1)).drop lo = [] :=
          List.drop_eq_nil_of_le (by rw [List.length_take]; omega)
        refine keeps _ 0 (Nat.zero_le _) ?_
        rw [nothing, List.take_zero]
      case isFalse within =>
        have same : ∀ newlen, min newlen (bytes.length - lo) = min (hi + 1 - lo) (bytes.length - lo) →
            (bytes.drop lo).take newlen = (bytes.take (hi + 1)).drop lo := by
          intro newlen lengths
          rw [List.drop_take, List.take_eq_take_iff, List.length_drop]
          exact lengths
        split
        case isTrue long =>
          rw [if_neg (by omega)]
          exact keeps _ _ (by omega) (same _ (by omega))
        case isFalse short =>
          exact keeps _ _ (by omega) (same _ (by omega))

theorem sdsMap_holds (holds : SdsHolds sh bytes) (f : BitVec 8 → BitVec 8) :
    SdsHolds (sdsMap sh f sh.len.toNat) (bytes.map f) := by
  obtain ⟨spare, buf, free⟩ := holds.buf
  refine ⟨by rw [List.length_map]; exact holds.len, ⟨spare, ?_, free⟩, holds.small⟩
  rw [sdsMap, holds.take, buf, holds.len, List.drop_left]

/-- A length below 2^31 is the bound of the loops that count up to an `int`. -/
theorem SdsHolds.intLen (holds : SdsHolds sh bytes) (short : bytes.length < 2 ^ 31) :
    (asInt sh.len.toNat).toNat = sh.len.toNat := by
  have len := holds.len
  rw [asInt_eq (by omega) (by omega), Int.toNat_natCast]

theorem sdstolower_holds (holds : SdsHolds sh bytes) (short : bytes.length < 2 ^ 31) :
    SdsHolds (sdstolower sh) (bytes.map tolower) := by
  rw [sdstolower, holds.intLen short]
  exact sdsMap_holds holds tolower

theorem sdstoupper_holds (holds : SdsHolds sh bytes) (short : bytes.length < 2 ^ 31) :
    SdsHolds (sdstoupper sh) (bytes.map toupper) := by
  rw [sdstoupper, holds.intLen short]
  exact sdsMap_holds holds toupper

end OneEdit

/-! ## Runs -/

/-- A call that changes a string. -/
inductive SdsEdit
  | catlen (t : List (BitVec 8))
  | cpylen (t : List (BitVec 8))
  | growzero (len : Nat)
  | clear
  | updatelen
  | makeRoomFor (addlen : Nat)
  | removeFreeSpace
  | incrLen (incr : BitVec 32)
  /-- The schema of `sdsIncrLen`: room for `size` bytes, `t` read behind the string. -/
  | read (size : Nat) (t : List (BitVec 8))
  | trim (cset : List (BitVec 8))
  | range (start end' : Int)
  | tolower
  | toupper
  | mapchars (set : List (BitVec 8 × BitVec 8))

def editSds (fresh : Nat → BitVec 8) (sh : Sdshdr) : SdsEdit → Except SdsFault Sdshdr
  | .catlen t => sdscatlen fresh sh t
  | .cpylen t => sdscpylen fresh sh t
  | .growzero len => sdsgrowzero fresh sh len
  | .clear => sdsclear sh
  | .updatelen => sdsupdatelen sh
  | .makeRoomFor addlen => .ok (sdsMakeRoomFor fresh sh addlen)
  | .removeFreeSpace => .ok (sdsRemoveFreeSpace fresh sh)
  | .incrLen incr => sdsIncrLen sh incr
  | .read size t => do
      let sh := sdsMakeRoomFor fresh sh size
      let buf ← poke sh.buf sh.len.toNat t
      sdsIncrLen { sh with buf := buf } (BitVec.ofNat 32 t.length)
  | .trim cset => sdstrim sh cset
  | .range start end' => sdsrange sh start end'
  | .tolower => .ok (sdstolower sh)
  | .toupper => .ok (sdstoupper sh)
  | .mapchars set => .ok (sdsmapchars sh set)

/-- Each call with what new memory holds then. -/
def editsSds (sh : Sdshdr) (edits : List ((Nat → BitVec 8) × SdsEdit)) : Except SdsFault Sdshdr :=
  edits.foldlM (fun sh edit => editSds edit.1 sh edit.2) sh

namespace SdsEdit

/-- What the call means for the bytes. -/
def effect (bytes : List (BitVec 8)) : SdsEdit → List (BitVec 8)
  | catlen t => bytes ++ t
  | cpylen t => t
  | growzero len => bytes ++ List.replicate (len - bytes.length) 0
  | clear => []
  | updatelen => bytes.takeWhile (· ≠ 0)
  | makeRoomFor _ => bytes
  | removeFreeSpace => bytes
  | incrLen incr => bytes.take (bytes.length - (-incr).toNat)
  | read _ t => bytes ++ t
  | trim cset => (bytes.dropWhile (inSet cset)).rdropWhile (inSet cset)
  | range start end' => (bytes.take (index bytes.length end' + 1)).drop (index bytes.length start)
  | tolower => bytes.map Cache.tolower
  | toupper => bytes.map Cache.toupper
  | mapchars set => bytes.map (mapchar set)

/-- The string stays short, and what the call asks of its caller. -/
def Legal (bytes : List (BitVec 8)) : SdsEdit → Prop
  | catlen t => bytes.length + t.length < 2 ^ 31
  | cpylen t => t.length < 2 ^ 31
  | growzero len => len < 2 ^ 31
  | makeRoomFor addlen => bytes.length + addlen < 2 ^ 31
  | incrLen incr => incr.toInt ≤ 0 ∧ (-incr).toNat ≤ bytes.length
  | read size t => bytes.length + size < 2 ^ 31 ∧ t.length ≤ size
  -- `end-start+1` is an `int`, and so is the length
  | range start end' =>
      bytes.length < 2 ^ 31 ∧ -2 ^ 31 ≤ start ∧ start < 2 ^ 31 ∧ -2 ^ 31 ≤ end' ∧ end' < 2 ^ 31 - 1
  | tolower => bytes.length < 2 ^ 31
  | toupper => bytes.length < 2 ^ 31
  | _ => True

def effects (bytes : List (BitVec 8)) (edits : List SdsEdit) : List (BitVec 8) := edits.foldl effect bytes

/-- Each call is legal where it is made. -/
def LegalRun (bytes : List (BitVec 8)) : List SdsEdit → Prop
  | [] => True
  | edit :: edits => edit.Legal bytes ∧ LegalRun (edit.effect bytes) edits

end SdsEdit

/-- Bytes read behind the string become part of it. -/
theorem read_holds (fresh : Nat → BitVec 8) {sh : Sdshdr} {bytes : List (BitVec 8)} (holds : SdsHolds sh bytes)
    {size : Nat} {t : List (BitVec 8)} (short : bytes.length + size < 2 ^ 31) (fits : t.length ≤ size) :
    ∃ sh', editSds fresh sh (.read size t) = .ok sh' ∧ SdsHolds sh' (bytes ++ t) := by
  obtain ⟨held, enough⟩ := sdsMakeRoomFor_holds fresh holds short
  obtain ⟨roomy, made⟩ : ∃ roomy, sdsMakeRoomFor fresh sh size = roomy := ⟨_, rfl⟩
  rw [made] at held enough
  have room := held.room
  have small := held.small
  have len := held.len
  have rest : (roomy.free - BitVec.ofNat 32 t.length).toNat =
      roomy.len.toNat + roomy.free.toNat - (roomy.len.toNat + t.length) := by
    rw [BitVec.toNat_sub, BitVec.toNat_ofNat]
    omega
  have written := held.written (by omega) rest
  rw [held.take] at written
  have stored := poke_terminated roomy.buf t (i := roomy.len.toNat) (by omega)
    (fun buf => .ok (Sdshdr.mk (BitVec.ofNat 32 (roomy.len.toNat + t.length))
      (roomy.free - BitVec.ofNat 32 t.length) buf))
  rw [held.take] at stored
  have newLen : roomy.len + BitVec.ofNat 32 t.length = BitVec.ofNat 32 (roomy.len.toNat + t.length) := by
    apply BitVec.eq_of_toNat_eq
    rw [BitVec.toNat_add, BitVec.toNat_ofNat, BitVec.toNat_ofNat]
    omega
  have newLenNat : (BitVec.ofNat 32 (roomy.len.toNat + t.length)).toNat = roomy.len.toNat + t.length := by
    rw [BitVec.toNat_ofNat]
    omega
  have forward : 0 ≤ (BitVec.ofNat 32 t.length).toInt := by
    rw [BitVec.toInt_eq_toNat_of_lt (by rw [BitVec.toNat_ofNat]; omega)]
    exact Int.natCast_nonneg _
  have allowed : ¬ roomy.free < BitVec.ofNat 32 t.length := by
    rw [BitVec.lt_def, BitVec.toNat_ofNat]
    omega
  refine ⟨_, ?_, written⟩
  simp only [editSds, made, sdsIncrLen, newLen, newLenNat, if_pos forward, if_neg allowed]
  exact stored

theorem editSds_holds (fresh : Nat → BitVec 8) {sh : Sdshdr} {bytes : List (BitVec 8)} (holds : SdsHolds sh bytes)
    (edit : SdsEdit) (legal : edit.Legal bytes) :
    ∃ sh', editSds fresh sh edit = .ok sh' ∧ SdsHolds sh' (edit.effect bytes) := by
  cases edit with
  | catlen t => exact sdscatlen_holds fresh holds legal
  | cpylen t => exact sdscpylen_holds fresh holds legal
  | growzero len => exact sdsgrowzero_holds fresh holds legal
  | clear => exact sdsclear_holds holds
  | updatelen => exact sdsupdatelen_holds holds
  | makeRoomFor addlen => exact ⟨_, rfl, (sdsMakeRoomFor_holds fresh holds legal).1⟩
  | removeFreeSpace => exact ⟨_, rfl, sdsRemoveFreeSpace_holds fresh holds⟩
  | incrLen incr => exact sdsIncrLen_holds holds legal.1 legal.2
  | read size t => exact read_holds fresh holds legal.1 legal.2
  | trim cset => exact sdstrim_holds holds cset
  | range start end' => exact sdsrange_holds holds legal.1 legal.2.1 legal.2.2.2.1
  | tolower => exact ⟨_, rfl, sdstolower_holds holds legal⟩
  | toupper => exact ⟨_, rfl, sdstoupper_holds holds legal⟩
  | mapchars set => exact ⟨_, rfl, sdsMap_holds holds (mapchar set)⟩

/-- A run of calls on one string does to the header what it does to the bytes. -/
theorem editsSds_holds (edits : List ((Nat → BitVec 8) × SdsEdit)) {sh : Sdshdr} {bytes : List (BitVec 8)}
    (holds : SdsHolds sh bytes) (legal : SdsEdit.LegalRun bytes (edits.map Prod.snd)) :
    ∃ sh', editsSds sh edits = .ok sh' ∧ SdsHolds sh' (SdsEdit.effects bytes (edits.map Prod.snd)) := by
  induction edits generalizing sh bytes with
  | nil => exact ⟨sh, rfl, holds⟩
  | cons edit edits ih =>
    obtain ⟨mid, first, held⟩ := editSds_holds edit.1 holds edit.2 legal.1
    obtain ⟨final, rest, done⟩ := ih held legal.2
    refine ⟨final, ?_, done⟩
    rw [editsSds, List.foldlM_cons, first]
    exact rest

/-- " ab" with no room: "c" is appended, blanks are trimmed, all but the first byte is kept, and the
rest is written in capitals. -/
theorem editsSds_holds_three :
    ∃ sh', editsSds ⟨3, 0, [32, 97, 98, 0]⟩
        [(fun _ => 7, .catlen [99]), (fun _ => 9, .trim [32]), (fun _ => 0, .range 1 (-1)), (fun _ => 0, .toupper)] =
          .ok sh' ∧
      SdsHolds sh' [66, 67] := by
  have start : SdsHolds ⟨3, 0, [32, 97, 98, 0]⟩ [32, 97, 98] := ⟨rfl, ⟨[], rfl, rfl⟩, by decide⟩
  have legal : SdsEdit.LegalRun [32, 97, 98] [.catlen [99], .trim [32], .range 1 (-1), .toupper] := by
    refine ⟨?_, trivial, ⟨by decide, by decide, by decide, by decide, by decide⟩, ?_, trivial⟩
    · change 4 < 2 ^ 31
      decide
    · change 2 < 2 ^ 31
      decide
  exact editsSds_holds
    [(fun _ => 7, .catlen [99]), (fun _ => 9, .trim [32]), (fun _ => 0, .range 1 (-1)), (fun _ => 0, .toupper)]
    start legal

end Itaro.Cache
