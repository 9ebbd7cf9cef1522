/-
# Engine.Item -- memcache.cc: keys, items and their sizes

An item lies in one block of the slab allocator: its fields and behind them the key,
the prefix of its answer and the value, each aligned to the size of a pointer.  The
constructor computes where in bytes, so that it is a key or a prefix of more than 248
bytes that is written over (`align_up` of 249 is 0 there).  Up to there what was
stored is read back (`key_new`, `asciiPrefix_new`, `value_new`), and the size of the
item is the one it was allocated with (`itemSize_new`).
-/
import Itaro.Cache.Decimal
import Itaro.Theory.Align
import Itaro.Theory.ByteStrings

namespace Itaro.Engine

set_option autoImplicit false

open Theory

abbrev Bytes := List (BitVec 8)

/-- What memcache.cc uses of Seastar, Boost and the compiler. -/
structure Platform where
  /-- `std::hash<item_key>` -/
  hash : Bytes → BitVec 64
  /-- `boost::lexical_cast<uint64_t>`, or that it throws -/
  lexicalCast : Bytes → Option (BitVec 64)
  /-- `sizeof(item)` -/
  sizeofItem : BitVec 64

/-- `to_sstring` of a `uint64_t` -/
def toSstring (n : BitVec 64) : Bytes := Cache.decimal.text n.toNat

/-! ## Expiration -/

/-- `seconds_in_a_month` -/
def secondsInAMonth : BitVec 32 := 60 * 60 * 24 * 30

/-- `expiration(seconds)`, with `time(0)`. -/
def expiration (time : BitVec 64) (seconds : BitVec 32) : BitVec 32 :=
  if seconds = 0 then 0
  else if seconds ≤ secondsInAMonth then (seconds.setWidth 64 + time).setWidth 32
  else seconds

def everExpires (expiry : BitVec 32) : Bool := expiry ≠ 0

/-! ## Items -/

/-- `item_insertion_data` -/
structure ItemInsertionData where
  key : Bytes
  asciiPrefix : Bytes
  data : Bytes
  expiry : BitVec 32
  deriving DecidableEq, Repr

/-- `item` without its links, its page and `_ref_count`, the one field that changes. -/
structure Item where
  version : BitVec 64
  keyHash : BitVec 64
  expiry : BitVec 32
  valueSize : BitVec 32
  keySize : BitVec 8
  asciiPrefixSize : BitVec 8
  data : Mem

namespace Item

variable (P : Platform) (it : Item)

/-- `field_alignment` -/
def fieldAlignment : BitVec 8 := 8

/-- `align_up(_key_size, field_alignment)`: both are `uint8_t`. -/
def asciiPrefixAt (keySize : BitVec 8) : Nat := (alignUp keySize fieldAlignment).toNat

def valueAt (keySize asciiPrefixSize : BitVec 8) : Nat :=
  asciiPrefixAt keySize + (alignUp asciiPrefixSize fieldAlignment).toNat

/-- The constructor; `fresh` is what the memory holds. -/
def new (fresh : Mem) (ins : ItemInsertionData) (version : BitVec 64) : Item :=
  let keySize := BitVec.ofNat 8 ins.key.length
  let asciiPrefixSize := BitVec.ofNat 8 ins.asciiPrefix.length
  let valueSize := BitVec.ofNat 32 ins.data.length
  let data := memcpy fresh 0 (ins.key.take keySize.toNat)
  let data := memcpy data (asciiPrefixAt keySize) (ins.asciiPrefix.take asciiPrefixSize.toNat)
  let data := memcpy data (valueAt keySize asciiPrefixSize) (ins.data.take valueSize.toNat)
  ⟨version, P.hash ins.key, ins.expiry, valueSize, keySize, asciiPrefixSize, data⟩

def key : Bytes := bytesAt it.data 0 it.keySize.toNat

def asciiPrefix : Bytes := bytesAt it.data (asciiPrefixAt it.keySize) it.asciiPrefixSize.toNat

def value : Bytes := bytesAt it.data (valueAt it.keySize it.asciiPrefixSize) it.valueSize.toNat

/-- What is behind an empty value is no number either. -/
def dataAsIntegral : Option (BitVec 64) :=
  if it.value.head? = some 0x2d then none
  else P.lexicalCast (it.value.reverse.dropWhile (· = 0x20)).reverse

/-- `operator==` -/
def same (a b : Item) : Bool := a.keyHash = b.keyHash ∧ a.keySize = b.keySize ∧ a.key = b.key

/-- `item_key_cmp` -/
def compare (key : Bytes) : Bool :=
  it.keyHash = P.hash key ∧ it.keySize.toNat = key.length ∧ it.key = key.take it.keySize.toNat

end Item

/-- `align_up` of `size_t`s. -/
def itemSize (P : Platform) (it : Item) : BitVec 64 :=
  P.sizeofItem + alignUp (it.keySize.setWidth 64) 8 + alignUp (it.asciiPrefixSize.setWidth 64) 8 +
    it.valueSize.setWidth 64

def insertionSize (P : Platform) (ins : ItemInsertionData) : BitVec 64 :=
  P.sizeofItem + alignUp (BitVec.ofNat 64 ins.key.length) 8 +
    alignUp (BitVec.ofNat 64 ins.asciiPrefix.length) 8 + BitVec.ofNat 64 ins.data.length

/-! ## What is stored -/

/-- The sizes have room in their fields, aligned. -/
structure ItemInsertionData.Fits (ins : ItemInsertionData) : Prop where
  key : ins.key.length ≤ 248
  asciiPrefix : ins.asciiPrefix.length ≤ 248
  data : ins.data.length < 2 ^ 32

namespace Item

variable {P : Platform} {fresh : Mem} {ins : ItemInsertionData} {version : BitVec 64}

theorem le_alignUp {n : Nat} (fits : n ≤ 248) :
    n ≤ (alignUp (BitVec.ofNat 8 n) fieldAlignment).toNat := by
  have eight : fieldAlignment.toNat = 2 ^ 3 := rfl
  have size : (BitVec.ofNat 8 n).toNat = n := by
    rw [BitVec.toNat_ofNat]
    omega
  rw [toNat_alignUp_of_lt eight (by rw [size, eight]; omega), size, eight]
  omega

variable (fits : ins.Fits)
include fits

theorem toNat_keySize : (BitVec.ofNat 8 ins.key.length).toNat = ins.key.length := by
  have := fits.key
  rw [BitVec.toNat_ofNat]
  omega

theorem toNat_asciiPrefixSize : (BitVec.ofNat 8 ins.asciiPrefix.length).toNat = ins.asciiPrefix.length := by
  have := fits.asciiPrefix
  rw [BitVec.toNat_ofNat]
  omega

theorem toNat_valueSize : (BitVec.ofNat 32 ins.data.length).toNat = ins.data.length := by
  have := fits.data
  rw [BitVec.toNat_ofNat]
  omega

theorem keySize_new : (new P fresh ins version).keySize.toNat = ins.key.length := toNat_keySize fits

theorem asciiPrefixSize_new : (new P fresh ins version).asciiPrefixSize.toNat = ins.asciiPrefix.length :=
  toNat_asciiPrefixSize fits

theorem valueSize_new : (new P fresh ins version).valueSize.toNat = ins.data.length := toNat_valueSize fits

/-- Nothing is cut off. -/
theorem data_new : (new P fresh ins version).data =
    memcpy (memcpy (memcpy fresh 0 ins.key) (asciiPrefixAt (BitVec.ofNat 8 ins.key.length)) ins.asciiPrefix)
      (valueAt (BitVec.ofNat 8 ins.key.length) (BitVec.ofNat 8 ins.asciiPrefix.length)) ins.data := by
  simp only [new, toNat_keySize fits, toNat_asciiPrefixSize fits, toNat_valueSize fits, List.take_length]

theorem key_new : (new P fresh ins version).key = ins.key := by
  have room := le_alignUp fits.key
  rw [key, keySize_new fits, data_new fits, bytesAt_memcpy_of_disjoint, bytesAt_memcpy_of_disjoint, bytesAt_memcpy]
  · simp only [asciiPrefixAt]; omega
  · simp only [valueAt, asciiPrefixAt]; omega

theorem asciiPrefix_new : (new P fresh ins version).asciiPrefix = ins.asciiPrefix := by
  have room := le_alignUp fits.asciiPrefix
  have here : (new P fresh ins version).keySize = BitVec.ofNat 8 ins.key.length := rfl
  rw [asciiPrefix, asciiPrefixSize_new fits, data_new fits, here, bytesAt_memcpy_of_disjoint, bytesAt_memcpy]
  simp only [valueAt]
  omega

theorem value_new : (new P fresh ins version).value = ins.data := by
  rw [value, valueSize_new fits, data_new fits]
  exact bytesAt_memcpy

/-- An item is found by its own key and by no other. -/
theorem compare_new {key : Bytes} : (new P fresh ins version).compare P key = decide (ins.key = key) := by
  rw [compare, key_new fits, keySize_new fits]
  apply decide_eq_decide.mpr
  constructor
  · rintro ⟨-, length, same⟩
    rw [same, length, List.take_length]
  · rintro rfl
    exact ⟨rfl, rfl, List.take_length.symm⟩

end Item

theorem itemSize_new {P : Platform} {fresh : Mem} {ins : ItemInsertionData} {version : BitVec 64} (fits : ins.Fits) :
    itemSize P (.new P fresh ins version) = insertionSize P ins := by
  have widened {w : Nat} {x : BitVec w} {n : Nat} (size : x.toNat = n) : x.setWidth 64 = BitVec.ofNat 64 n := by
    apply BitVec.eq_of_toNat_eq
    rw [BitVec.toNat_setWidth, BitVec.toNat_ofNat, size]
  rw [itemSize, insertionSize, widened (Item.keySize_new fits), widened (Item.asciiPrefixSize_new fits),
    widened (Item.valueSize_new fits)]

end Itaro.Engine
