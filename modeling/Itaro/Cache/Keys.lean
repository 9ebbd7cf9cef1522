/-
# Cache.Keys -- the keys of the cache, hashed and compared

`cacheDictType` hashes and compares sds strings.  Both callbacks cut the length to
an `int`.  For a key shorter than 2^31 bytes it is the length, comparing is
equality of contents (`dictSdsKeyCompare_short`) and the hash is a function of the
content (`dictSdsHash_congr`).  For a longer one it is negative: `memcmp` is asked
for nearly 2^64 bytes (`dictSdsKeyCompare_long`).
-/
import Itaro.Cache.Dict
import Itaro.Cache.Sds

namespace Itaro.Cache

set_option autoImplicit false

/-! ## dictGenHashFunction -/

/-- `dict_hash_function_seed` -/
def dictHashFunctionSeed : BitVec 32 := 5381

/-- `m` -/
def hashMul : BitVec 32 := 0x5bd1e995

def byteAt (data : List (BitVec 8)) (i : Nat) : BitVec 32 := (data.getD i 0).setWidth 32

/-- `*(uint32_t*)data`, little-endian. -/
def word (data : List (BitVec 8)) : BitVec 32 :=
  byteAt data 0 ||| byteAt data 1 <<< 8 ||| byteAt data 2 <<< 16 ||| byteAt data 3 <<< 24

/-- One turn of `while(len >= 4)`. -/
def hashMix (h : BitVec 32) (data : List (BitVec 8)) : BitVec 32 :=
  let k := word data * hashMul
  let k := k ^^^ k >>> 24
  let k := k * hashMul
  h * hashMul ^^^ k

/-- `turns` of them, and the data after them. -/
def hashLoop : Nat → BitVec 32 → List (BitVec 8) → BitVec 32 × List (BitVec 8)
  | 0, h, data => (h, data)
  | turns + 1, h, data => hashLoop turns (hashMix h data) (data.drop 4)

/-- The `switch(len)`, whose cases fall through. -/
def hashTail (len : Int) (h : BitVec 32) (data : List (BitVec 8)) : BitVec 32 :=
  let h := if len = 3 then h ^^^ byteAt data 2 <<< 16 else h
  let h := if len = 3 ∨ len = 2 then h ^^^ byteAt data 1 <<< 8 else h
  if len = 3 ∨ len = 2 ∨ len = 1 then (h ^^^ byteAt data 0) * hashMul else h

def dictGenHashFunction (key : List (BitVec 8)) (len : BitVec 32) : BitVec 32 :=
  let turns := (len.toInt / 4).toNat
  let (h, data) := hashLoop turns (dictHashFunctionSeed ^^^ len) key
  let h := hashTail (len.toInt - 4 * turns) h data
  let h := h ^^^ h >>> 13
  let h := h * hashMul
  h ^^^ h >>> 15

/-! ## The callbacks -/

/-- `memcmp(s1, s2, n) == 0` -/
def memcmpEq (s1 s2 : List (BitVec 8)) (n : Nat) : Except Fault Bool :=
  if s1.length < n ∨ s2.length < n then .error .overread
  else .ok (s1.take n == s2.take n)

def dictSdsKeyCompare (key1 key2 : Sds) : Except Fault Bool :=
  let l1 := (sdslen key1).setWidth 32
  let l2 := (sdslen key2).setWidth 32
  if l1 ≠ l2 then .ok false else memcmpEq key1.buf key2.buf (l1.signExtend 64).toNat

def dictSdsHash (key : Sds) : BitVec 32 := dictGenHashFunction key.buf ((sdslen key).setWidth 32)

def cacheDictType (υ : Type) : DictType Sds υ where
  hashFunction := dictSdsHash
  keyDup := none
  valDup := none
  keyCompare := dictSdsKeyCompare

/-! ## Short keys -/

/-- The length of the key is an `int`. -/
def Sds.Short (s : Sds) : Prop := s.len.toNat < 2 ^ 31

instance (s : Sds) : Decidable s.Short := inferInstanceAs (Decidable (_ < _))

theorem sdslen_int (s : Sds) : (sdslen s).setWidth 32 = s.len := by
  rw [sdslen, BitVec.setWidth_setWidth_of_le _ (by decide), BitVec.setWidth_eq]

theorem Sds.Short.toInt {s : Sds} (short : s.Short) : s.len.toInt = s.len.toNat :=
  BitVec.toInt_eq_toNat_of_lt (by have : s.len.toNat < 2 ^ 31 := short; omega)

/-- What `memcmp` is asked for. -/
theorem toNat_signExtend_len (s : Sds) : (s.len.signExtend 64).toNat =
    s.len.toNat + if s.Short then 0 else 2 ^ 64 - 2 ^ 32 := by
  have wide : (s.len.setWidth 64).toNat = s.len.toNat := by
    have := s.len.isLt
    rw [BitVec.toNat_setWidth, Nat.mod_eq_of_lt (by omega)]
  rw [BitVec.toNat_signExtend, wide, BitVec.msb_eq_decide]
  by_cases short : s.Short
  · have below : ¬ 2 ^ (32 - 1) ≤ s.len.toNat := Nat.not_le.mpr short
    rw [if_pos short, decide_eq_false below, if_neg Bool.false_ne_true]
  · have above : 2 ^ (32 - 1) ≤ s.len.toNat := Nat.not_lt.mp short
    rw [if_neg short, decide_eq_true above, if_pos rfl]

theorem dictSdsKeyCompare_short {a b : Sds} (short : a.Short) :
    dictSdsKeyCompare a b = .ok (decide (a.bytes = b.bytes)) := by
  simp only [dictSdsKeyCompare, sdslen_int, toNat_signExtend_len]
  by_cases same : a.len = b.len
  · have aRoom := a.room
    have bRoom := b.room
    rw [← same] at bRoom
    rw [if_neg (not_not.mpr same), if_pos short, Nat.add_zero, memcmpEq, if_neg (by omega),
      Sds.bytes, Sds.bytes, ← same, beq_eq_decide]
  · have ne : a.bytes ≠ b.bytes := fun eq => same (BitVec.eq_of_toNat_eq (by
      rw [← a.bytes_length, ← b.bytes_length, eq]))
    rw [if_pos same, decide_eq_false ne]

/-- Two keys of one length that is no `int`. -/
theorem dictSdsKeyCompare_long {a b : Sds} (long : ¬ a.Short) (same : a.len = b.len) :
    dictSdsKeyCompare a b = .error .overread := by
  have room := a.room
  have len := a.len.isLt
  have free := a.free.isLt
  simp only [dictSdsKeyCompare, sdslen_int, toNat_signExtend_len]
  rw [if_neg (not_not.mpr same), if_neg long, memcmpEq, if_pos (.inl (by omega))]

theorem byteAt_take {data : List (BitVec 8)} {i n : Nat} (below : i < n) :
    byteAt (data.take n) i = byteAt data i := by
  rw [byteAt, byteAt, List.getD_eq_getElem?_getD, List.getD_eq_getElem?_getD,
    List.getElem?_take_of_lt below]

/-- The loop reads the words it hashes and no more. -/
theorem hashLoop_take {turns : Nat} {h : BitVec 32} {data : List (BitVec 8)} {n : Nat}
    (inside : 4 * turns ≤ n) : hashLoop turns h (data.take n) =
      ((hashLoop turns h data).1, (hashLoop turns h data).2.take (n - 4 * turns)) := by
  induction turns generalizing h data n with
  | zero => rfl
  | succ turns ih =>
      have mixed : hashMix h (data.take n) = hashMix h data := by
        rw [hashMix, hashMix, word, word, byteAt_take (by omega), byteAt_take (by omega),
          byteAt_take (by omega), byteAt_take (by omega)]
      rw [hashLoop, hashLoop, mixed, List.drop_take, ih (by omega)]
      congr 2
      omega

theorem hashTail_take {len : Nat} {h : BitVec 32} {data : List (BitVec 8)} :
    hashTail len h (data.take len) = hashTail len h data := by
  have read : ∀ i < len, byteAt (data.take len) i = byteAt data i := fun i => byteAt_take
  -- a case reads only bytes below `len`
  have three : ∀ h, (if (len : Int) = 3 then h ^^^ byteAt (data.take len) 2 <<< 16 else h) =
      if (len : Int) = 3 then h ^^^ byteAt data 2 <<< 16 else h := fun h =>
    ite_congr rfl (fun _ => by rw [read 2 (by omega)]) fun _ => rfl
  have two : ∀ h, (if (len : Int) = 3 ∨ (len : Int) = 2 then
      h ^^^ byteAt (data.take len) 1 <<< 8 else h) =
      if (len : Int) = 3 ∨ (len : Int) = 2 then h ^^^ byteAt data 1 <<< 8 else h := fun h =>
    ite_congr rfl (fun _ => by rw [read 1 (by omega)]) fun _ => rfl
  have one : ∀ h, (if (len : Int) = 3 ∨ (len : Int) = 2 ∨ (len : Int) = 1 then
      (h ^^^ byteAt (data.take len) 0) * hashMul else h) =
      if (len : Int) = 3 ∨ (len : Int) = 2 ∨ (len : Int) = 1 then
        (h ^^^ byteAt data 0) * hashMul else h := fun h =>
    ite_congr rfl (fun _ => by rw [read 0 (by omega)]) fun _ => rfl
  unfold hashTail
  dsimp only
  rw [three, two, one]

/-- The hash reads `len` bytes. -/
theorem dictGenHashFunction_take {key : List (BitVec 8)} {len : BitVec 32} {n : Nat}
    (length : len.toInt = n) :
    dictGenHashFunction (key.take n) len = dictGenHashFunction key len := by
  have turns : ((n : Int) / 4).toNat = n / 4 := by omega
  have rest : (n : Int) - 4 * (n / 4 : Nat) = (n - 4 * (n / 4) : Nat) := by omega
  simp only [dictGenHashFunction, length, turns, rest]
  rw [hashLoop_take (by omega)]
  simp only [hashTail_take]

theorem dictSdsHash_congr {a b : Sds} (aShort : a.Short) (same : a.bytes = b.bytes) :
    dictSdsHash a = dictSdsHash b := by
  have lens : a.len = b.len := BitVec.eq_of_toNat_eq (by
    rw [← a.bytes_length, ← b.bytes_length, same])
  have int := aShort.toInt
  have content : ∀ s : Sds, s.len = a.len →
      dictSdsHash s = dictGenHashFunction s.bytes a.len := fun s eq => by
    rw [dictSdsHash, sdslen_int, Sds.bytes, eq, dictGenHashFunction_take int]
  rw [content a rfl, content b lens.symm, same]

end Itaro.Cache
