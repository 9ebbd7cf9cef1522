/-
# Cache.Dict -- dict.c: a hash table that grows step by step

Two tables of chained buckets.  When the first has as many entries as buckets a
second one of twice the size is set up, and from then on each operation first
moves one bucket over, until the first is empty and the second takes its place.

The tables hold the entries themselves, in the order of the chains; `NULL` is the
table without buckets.  A bucket that does not exist cannot be read, and the index
of a new entry is an `int`.  Functions of a dictionary take its `type` apart from
it: nothing ever changes it.  The two static variables of the source are the
constants they are initialised with, since nothing here sets them.
-/
import Mathlib.Algebra.Group.Nat.Defs
import Mathlib.Data.List.Basic

namespace Itaro.Cache

set_option autoImplicit false

/-- What C leaves undefined, and the assertion of `dictRehash`. -/
inductive Fault
  | overread
  | badIndex
  | assertSize
  deriving DecidableEq, Repr

/-! ## The types -/

/-- `dictType`, without the destructors: they release memory, which is not modelled. -/
structure DictType (κ υ : Type) where
  hashFunction : κ → BitVec 32
  keyDup : Option (κ → κ)
  valDup : Option (υ → υ)
  keyCompare : κ → κ → Except Fault Bool

structure DictEntry (κ υ : Type) where
  key : κ
  val : υ
  deriving DecidableEq, Repr

structure Dictht (κ υ : Type) where
  table : List (List (DictEntry κ υ))
  used : Nat
  deriving DecidableEq, Repr

structure Dict (κ υ : Type) where
  ht0 : Dictht κ υ
  ht1 : Dictht κ υ
  /-- Nothing for -1: no rehashing in progress. -/
  rehashidx : Option Nat
  iterators : Nat
  deriving DecidableEq, Repr

variable {κ υ : Type}

namespace Dictht

variable (ht : Dictht κ υ)

def size : Nat := ht.table.length

/-- `size - 1`, and 0 for the table without buckets. -/
def sizemask : Nat := ht.size - 1

/-- `_dictReset` -/
def reset : Dictht κ υ := ⟨[], 0⟩

/-- `h & ht->sizemask` -/
def index (h : BitVec 32) : Nat := h.toNat &&& ht.sizemask

/-- `ht->table[idx]` -/
def bucket (idx : Nat) : Except Fault (List (DictEntry κ υ)) :=
  match ht.table[idx]? with
  | some chain => .ok chain
  | none => .error .badIndex

/-- `ht->table[idx] = chain` -/
def setBucket (idx : Nat) (chain : List (DictEntry κ υ)) : Dictht κ υ :=
  { ht with table := ht.table.set idx chain }

end Dictht

namespace Dict

variable (d : Dict κ υ)

/-- `dictIsRehashing` -/
def isRehashing : Bool := d.rehashidx.isSome

end Dict

/-- `dictCreate` -/
def dictCreate : Dict κ υ := ⟨.reset, .reset, none, 0⟩

/-- `DICT_OK` -/
def dictOk : Int := 0

/-- `DICT_ERR` -/
def dictErr : Int := 1

/-- `DICT_HT_INITIAL_SIZE` -/
def dictHtInitialSize : Nat := 4

def dictCanResize : Bool := true

def dictForceResizeRatio : Nat := 5

/-! ## Growing -/

/-- The loop of `_dictNextPower`; 62 turns take 4 past every size below `LONG_MAX`. -/
def nextPowerLoop (size : Nat) : Nat → Nat → Nat
  | 0, i => i
  | turns + 1, i => if size ≤ i then i else nextPowerLoop size turns (i * 2)

/-- `_dictNextPower`, with `LONG_MAX` for sizes from there on. -/
def dictNextPower (size : Nat) : Nat :=
  if 2 ^ 63 - 1 ≤ size then 2 ^ 63 - 1 else nextPowerLoop size 62 dictHtInitialSize

def dictExpand (d : Dict κ υ) (size : Nat) : Dict κ υ × Int :=
  let n : Dictht κ υ := ⟨List.replicate (dictNextPower size) [], 0⟩
  if d.isRehashing || decide (size < d.ht0.used) then (d, dictErr)
  else if d.ht0.table.isEmpty then ({ d with ht0 := n }, dictOk)
  else ({ d with ht1 := n, rehashidx := some 0 }, dictOk)

/-- `_dictExpandIfNeeded` -/
def dictExpandIfNeeded (d : Dict κ υ) : Dict κ υ × Int :=
  if d.isRehashing then (d, dictOk)
  else if d.ht0.size = 0 then dictExpand d dictHtInitialSize
  else if d.ht0.size ≤ d.ht0.used ∧
      (dictCanResize ∨ dictForceResizeRatio < d.ht0.used / d.ht0.size) then
    dictExpand d (d.ht0.used * 2)
  else (d, dictOk)

/-! ## Rehashing -/

/-- `while(d->ht[0].table[d->rehashidx] == NULL) d->rehashidx++;` over the buckets
from index `i` on. -/
def skipEmpty : List (List (DictEntry κ υ)) → Nat → Except Fault Nat
  | [], _ => .error .badIndex
  | [] :: rest, i => skipEmpty rest (i + 1)
  | (_ :: _) :: _, i => .ok i

/-- One turn of the inner loop: the entry moves to the front of its new chain. -/
def moveEntry (type : DictType κ υ) (hts : Dictht κ υ × Dictht κ υ) (de : DictEntry κ υ) :
    Except Fault (Dictht κ υ × Dictht κ υ) := do
  let (ht0, ht1) := hts
  let h := ht1.index (type.hashFunction de.key)
  let chain ← ht1.bucket h
  let ht1 := ht1.setBucket h (de :: chain)
  return ({ ht0 with used := ht0.used - 1 }, { ht1 with used := ht1.used + 1 })

/-- One turn of the outer loop once `ht[0].used` is not 0, from `rehashidx = i`. -/
def rehashBucket (type : DictType κ υ) (d : Dict κ υ) (i : Nat) : Except Fault (Dict κ υ × Nat) := do
  if d.ht0.size ≤ i then throw .assertSize
  let j ← skipEmpty (d.ht0.table.drop i) i
  let chain ← d.ht0.bucket j
  let (ht0, ht1) ← chain.foldlM (moveEntry type) (d.ht0, d.ht1)
  return ({ d with ht0 := ht0.setBucket j [], ht1 := ht1, rehashidx := some (j + 1) }, j + 1)

/-- `while(n--)` -/
def rehashLoop (type : DictType κ υ) : Nat → Dict κ υ → Nat → Except Fault (Dict κ υ × Int)
  | 0, d, _ => .ok (d, 1)
  | n + 1, d, i =>
      if d.ht0.used = 0 then
        .ok ({ d with ht0 := d.ht1, ht1 := .reset, rehashidx := none }, 0)
      else do
        let (d, i) ← rehashBucket type d i
        rehashLoop type n d i

def dictRehash (type : DictType κ υ) (d : Dict κ υ) (n : Nat) : Except Fault (Dict κ υ × Int) :=
  match d.rehashidx with
  | none => .ok (d, 0)
  | some i => rehashLoop type n d i

/-- `if (dictIsRehashing(d)) _dictRehashStep(d);` -/
def dictRehashStep (type : DictType κ υ) (d : Dict κ υ) : Except Fault (Dict κ υ) := do
  if d.isRehashing && d.iterators == 0 then
    let (d, _) ← dictRehash type d 1
    return d
  else return d

/-! ## Looking for a key -/

/-- The loop along a chain: its first entry with an equal key. -/
def chainFind (type : DictType κ υ) (key : κ) :
    List (DictEntry κ υ) → Except Fault (Option (DictEntry κ υ))
  | [] => .ok none
  | he :: next => do
      let equal ← type.keyCompare key he.key
      if equal then return some he else chainFind type key next

/-- One turn of the loop over the tables. -/
def tableFind (type : DictType κ υ) (ht : Dictht κ υ) (key : κ) :
    Except Fault (Option (DictEntry κ υ)) := do
  let chain ← ht.bucket (ht.index (type.hashFunction key))
  chainFind type key chain

/-- The entry found and the index in the table searched last. -/
def tablesFind (type : DictType κ υ) (d : Dict κ υ) (key : κ) :
    Except Fault (Option (DictEntry κ υ) × Nat) := do
  match ← tableFind type d.ht0 key with
  | some he => return (some he, d.ht0.index (type.hashFunction key))
  | none =>
      if d.isRehashing then
        let he ← tableFind type d.ht1 key
        return (he, d.ht1.index (type.hashFunction key))
      else return (none, d.ht0.index (type.hashFunction key))

/-- The dictionary afterwards, and the entry or nothing for `NULL`. -/
def dictFind (type : DictType κ υ) (d : Dict κ υ) (key : κ) :
    Except Fault (Dict κ υ × Option (DictEntry κ υ)) :=
  if d.ht0.size = 0 then .ok (d, none)
  else do
    let d ← dictRehashStep type d
    let (he, _) ← tablesFind type d key
    return (d, he)

/-- `_dictKeyIndex`: the index of a free slot, an `int`, or -1. -/
def dictKeyIndex (type : DictType κ υ) (d : Dict κ υ) (key : κ) :
    Except Fault (Dict κ υ × Int) := do
  let (d, expanded) := dictExpandIfNeeded d
  if expanded = dictErr then return (d, -1)
  else match ← tablesFind type d key with
    | (some _, _) => return (d, -1)
    | (none, idx) => return (d, (BitVec.ofNat 32 idx).toInt)

/-! ## Adding -/

def dictSetKey (type : DictType κ υ) (key : κ) : κ :=
  match type.keyDup with
  | some dup => dup key
  | none => key

def dictSetVal (type : DictType κ υ) (val : υ) : υ :=
  match type.valDup with
  | some dup => dup val
  | none => val

/-- The new entry at the head of chain `index`. -/
def addEntry (type : DictType κ υ) (ht : Dictht κ υ) (index : Int) (key : κ) (val : υ) :
    Except Fault (Dictht κ υ) := do
  if index < 0 then throw .badIndex
  let chain ← ht.bucket index.toNat
  let entry := ⟨dictSetKey type key, dictSetVal type val⟩
  return { ht.setBucket index.toNat (entry :: chain) with used := ht.used + 1 }

/-- `dictAddRaw` and the store of the value through the entry it returns; false for
`NULL`. -/
def dictAddRaw (type : DictType κ υ) (d : Dict κ υ) (key : κ) (val : υ) :
    Except Fault (Dict κ υ × Bool) := do
  let d ← dictRehashStep type d
  let (d, index) ← dictKeyIndex type d key
  if index = -1 then return (d, false)
  else if d.isRehashing then
    let ht ← addEntry type d.ht1 index key val
    return ({ d with ht1 := ht }, true)
  else
    let ht ← addEntry type d.ht0 index key val
    return ({ d with ht0 := ht }, true)

def dictAdd (type : DictType κ υ) (d : Dict κ υ) (key : κ) (val : υ) :
    Except Fault (Dict κ υ × Int) := do
  let (d, added) ← dictAddRaw type d key val
  return (d, if added then dictOk else dictErr)

/-! ## Deleting -/

/-- The loop along a chain: the chain without its first entry with an equal key, if
it has one. -/
def chainUnlink (type : DictType κ υ) (key : κ) :
    List (DictEntry κ υ) → Except Fault (Option (List (DictEntry κ υ)))
  | [] => .ok none
  | he :: next => do
      let equal ← type.keyCompare key he.key
      if equal then return some next
      else
        let rest ← chainUnlink type key next
        return rest.map (he :: ·)

/-- One turn of the loop over the tables: the table without the entry. -/
def tableUnlink (type : DictType κ υ) (ht : Dictht κ υ) (key : κ) :
    Except Fault (Option (Dictht κ υ)) := do
  let idx := ht.index (type.hashFunction key)
  let chain ← ht.bucket idx
  match ← chainUnlink type key chain with
  | some rest => return some { ht.setBucket idx rest with used := ht.used - 1 }
  | none => return none

/-- `dictDelete`, that is `dictGenericDelete` with `nofree = 0`. -/
def dictDelete (type : DictType κ υ) (d : Dict κ υ) (key : κ) : Except Fault (Dict κ υ × Int) :=
  if d.ht0.size = 0 then .ok (d, dictErr)
  else do
    let d ← dictRehashStep type d
    match ← tableUnlink type d.ht0 key with
    | some ht => return ({ d with ht0 := ht }, dictOk)
    | none =>
        if d.isRehashing then
          match ← tableUnlink type d.ht1 key with
          | some ht => return ({ d with ht1 := ht }, dictOk)
          | none => return (d, dictErr)
        else return (d, dictErr)

end Itaro.Cache
