/-
# Engine.Memcache -- memcache.cc: the cache of one shard

The items are where the slab allocator has put them and are known by their addresses.
`_cache` and `_alive` are the addresses of the items linked in them, the last first.
Which items the allocator evicts for a new one, where it puts that, or that it throws
`std::bad_alloc`, is a parameter (`Grant`); what it has promised, to evict what is
unlocked and to hand out what is free, is checked, and a promise it breaks is the fault
`slab`.  The other faults are the program's own.
-/
import Itaro.Engine.Item

namespace Itaro.Engine

set_option autoImplicit false

open Theory

inductive Fault
  /-- The allocator has broken a promise. -/
  | slab
  /-- An item is taken out of a container it is not in. -/
  | unlinked
  /-- An item that was freed is used. -/
  | dangling
  | assertion
  deriving DecidableEq, Repr

/-- `cache_stats` -/
structure CacheStats where
  getHits : BitVec 64 := 0
  getMisses : BitVec 64 := 0
  setAdds : BitVec 64 := 0
  setReplaces : BitVec 64 := 0
  casHits : BitVec 64 := 0
  casMisses : BitVec 64 := 0
  casBadval : BitVec 64 := 0
  deleteMisses : BitVec 64 := 0
  deleteHits : BitVec 64 := 0
  incrMisses : BitVec 64 := 0
  incrHits : BitVec 64 := 0
  decrMisses : BitVec 64 := 0
  decrHits : BitVec 64 := 0
  expired : BitVec 64 := 0
  evicted : BitVec 64 := 0
  bytes : BitVec 64 := 0
  resizeFailure : BitVec 64 := 0
  size : BitVec 64 := 0
  reclaims : BitVec 64 := 0
  deriving DecidableEq, Repr

/-- `cas_result` -/
inductive CasResult
  | notFound | stored | badVersion
  deriving DecidableEq, Repr

/-- What an operation answers; `ι` is what it says of an item. -/
inductive Reply (ι : Type)
  | done
  | flag (b : Bool)
  | item (it : Option ι)
  | cas (result : CasResult)
  | counter (it : Option ι) (changed : Bool)
  | stats (stats : CacheStats)
  /-- `std::bad_alloc` is thrown. -/
  | badAlloc
  deriving DecidableEq, Repr

/-- What the slab allocator does when an item is created. -/
structure Grant where
  victims : List Nat
  /-- The address, and what the memory there holds. -/
  place : Option (Nat × Mem)

/-- `cache` -/
structure Cache where
  items : Nat → Option Item
  refCount : Nat → BitVec 16
  cache : List Nat
  alive : List Nat
  bucketCount : Nat
  resizeUpThreshold : Nat
  flushTimer : Option Nat
  stats : CacheStats

namespace Cache

variable (P : Platform) (s : Cache)

/-! ## Items and containers -/

/-- `initial_bucket_count` -/
def initialBucketCount : Nat := 1 <<< 10

/-- `bucket_count * load_factor`, which is 0.75f. -/
def loaded (bucketCount : Nat) : Nat := bucketCount * 3 / 4

/-- The constructor. -/
def new : Cache where
  items _ := none
  refCount _ := 0
  cache := []
  alive := []
  bucketCount := initialBucketCount
  resizeUpThreshold := loaded initialBucketCount
  flushTimer := none
  stats := {}

def deref (a : Nat) : Except Fault Item :=
  match s.items a with
  | some it => .ok it
  | none => .error .dangling

/-- `slab->free` -/
def free (a : Nat) : Cache := { s with items := Function.update s.items a none }

/-- `intrusive_ptr_add_ref` -/
def addRef (a : Nat) : Except Fault Cache := do
  let _ ← s.deref a
  pure { s with refCount := Function.update s.refCount a (s.refCount a + 1) }

/-- `intrusive_ptr_release` -/
def release (a : Nat) : Except Fault Cache := do
  let _ ← s.deref a
  let s := { s with refCount := Function.update s.refCount a (s.refCount a - 1) }
  pure (if s.refCount a = 0 then s.free a else s)

/-- `_cache.erase` -/
def unlink (a : Nat) : Except Fault Cache :=
  if a ∈ s.cache then .ok { s with cache := s.cache.erase a } else .error .unlinked

/-- `_alive.remove` -/
def unlist (a : Nat) : Except Fault Cache :=
  if a ∈ s.alive then .ok { s with alive := s.alive.erase a } else .error .unlinked

/-- `_stats._bytes += size` -/
def addBytes (size : BitVec 64) : Cache := { s with stats.bytes := s.stats.bytes + size }

/-- `erase<IsInCache, IsInTimerList, Release>` -/
def erase (isInCache isInTimerList rel : Bool) (a : Nat) : Except Fault Cache := do
  let it ← s.deref a
  let s ← if isInCache then s.unlink a else pure s
  let s ← if isInTimerList && everExpires it.expiry then s.unlist a else pure s
  let s := s.addBytes (-itemSize P it)
  if rel then s.release a else pure s

/-- `find` -/
def find (key : Bytes) : Option Nat := s.cache.find? fun a => (s.items a).any (·.compare P key)

/-- `_cache.insert`, and whether there was no such item. -/
def insert (a : Nat) : Except Fault (Cache × Bool) := do
  let it ← s.deref a
  if s.cache.any fun b => (s.items b).any it.same then pure (s, false)
  else pure ({ s with cache := a :: s.cache }, true)

/-- `_alive.insert` of an item that expires. -/
def listAlive (expiry : BitVec 32) (a : Nat) : Cache :=
  if everExpires expiry then { s with alive := a :: s.alive } else s

/-- `is_unlocked` of a live item. -/
def Unlocked (a : Nat) : Prop := (s.items a).isSome ∧ s.refCount a = 1

instance (a : Nat) : Decidable (s.Unlocked a) := inferInstanceAs (Decidable (_ ∧ _))

/-- An item makes room: what is called back, and the allocator takes the memory. -/
def evict (a : Nat) : Except Fault Cache :=
  if s.Unlocked a then do
    let s ← s.erase P true true false a
    pure { s.free a with stats.evicted := s.stats.evicted + 1 }
  else .error .slab

/-- `slab->create` -/
def create (grant : Grant) (ins : ItemInsertionData) (version : BitVec 64) :
    Except Fault (Cache × Option Nat) := do
  let s ← grant.victims.foldlM (evict P) s
  match grant.place with
  | none => pure (s, none)
  | some (a, fresh) =>
      if (s.items a).isSome then .error .slab
      else
        pure ({ s with
          items := Function.update s.items a (some (.new P fresh ins version))
          refCount := Function.update s.refCount a 0 }, some a)

def addOverriding (grant : Grant) (i : Nat) (ins : ItemInsertionData) :
    Except Fault (Cache × Option Nat) := do
  let oldItem ← s.deref i
  let oldItemVersion := oldItem.version
  let s ← s.erase P true true true i
  let size := insertionSize P ins
  match ← s.create P grant ins (oldItemVersion + 1) with
  | (s, none) => pure (s, none)
  | (s, some newItem) =>
      let s ← s.addRef newItem
      let (s, inserted) ← s.insert newItem
      if inserted then pure ((s.listAlive ins.expiry newItem).addBytes size, some newItem)
      else .error .assertion

/-- `room`: the buckets can be allocated. -/
def maybeRehash (room : Bool) : Cache :=
  if s.resizeUpThreshold ≤ s.cache.length then
    if room then
      { s with bucketCount := s.bucketCount * 2, resizeUpThreshold := loaded (s.bucketCount * 2) }
    else { s with stats.resizeFailure := s.stats.resizeFailure + 1 }
  else s

/-- Whether the item was linked is not asked. -/
def addNew (grant : Grant) (room : Bool) (ins : ItemInsertionData) :
    Except Fault (Cache × Option Nat) := do
  let size := insertionSize P ins
  match ← s.create P grant ins 1 with
  | (s, none) => pure (s, none)
  | (s, some newItem) =>
      let s ← s.addRef newItem
      let (s, _) ← s.insert newItem
      pure (((s.listAlive ins.expiry newItem).addBytes size).maybeRehash room, some newItem)

/-! ## Timers -/

/-- `_alive.expire`: the items that are due. -/
def due (now : Nat) : List Nat :=
  s.alive.filter fun a => (s.items a).any fun it => it.expiry.toNat ≤ now

/-- One turn of the loop of `expire`. -/
def expireItem (a : Nat) : Except Fault Cache := do
  let s ← s.erase P true false true a
  pure { s with stats.expired := s.stats.expired + 1 }

def expire (now : Nat) : Except Fault Cache :=
  let exp := s.due now
  exp.foldlM (expireItem P) { s with alive := s.alive.filter fun a => a ∉ exp }

/-- `erase_and_dispose` of one item. -/
def dispose (a : Nat) : Except Fault Cache := do
  let s ← s.unlink a
  s.erase P false true true a

def flushAll : Except Fault Cache :=
  s.cache.foldlM (dispose P) { s with flushTimer := none }

def flushAt (time : Nat) : Cache := { s with flushTimer := some time }

/-! ## Operations -/

def tally (count : CacheStats → CacheStats) : Cache := { s with stats := count s.stats }

/-- The operation is counted after it was done. -/
def set (grant : Grant) (room : Bool) (ins : ItemInsertionData) :
    Except Fault (Cache × Reply Nat) :=
  match s.find P ins.key with
  | some i => do
      match ← s.addOverriding P grant i ins with
      | (s, none) => pure (s, .badAlloc)
      | (s, some _) => pure (s.tally fun c => { c with setReplaces := c.setReplaces + 1 }, .flag true)
  | none => do
      match ← s.addNew P grant room ins with
      | (s, none) => pure (s, .badAlloc)
      | (s, some _) => pure (s.tally fun c => { c with setAdds := c.setAdds + 1 }, .flag false)

/-- The operation is counted before it is done. -/
def add (grant : Grant) (room : Bool) (ins : ItemInsertionData) :
    Except Fault (Cache × Reply Nat) :=
  match s.find P ins.key with
  | some _ => pure (s, .flag false)
  | none => do
      let s := s.tally fun c => { c with setAdds := c.setAdds + 1 }
      match ← s.addNew P grant room ins with
      | (s, none) => pure (s, .badAlloc)
      | (s, some _) => pure (s, .flag true)

def replace (grant : Grant) (ins : ItemInsertionData) : Except Fault (Cache × Reply Nat) :=
  match s.find P ins.key with
  | none => pure (s, .flag false)
  | some i => do
      let s := s.tally fun c => { c with setReplaces := c.setReplaces + 1 }
      match ← s.addOverriding P grant i ins with
      | (s, none) => pure (s, .badAlloc)
      | (s, some _) => pure (s, .flag true)

def remove (key : Bytes) : Except Fault (Cache × Reply Nat) :=
  match s.find P key with
  | none => pure (s.tally fun c => { c with deleteMisses := c.deleteMisses + 1 }, .flag false)
  | some i => do
      let s := s.tally fun c => { c with deleteHits := c.deleteHits + 1 }
      pure (← s.erase P true true true i, .flag true)

/-- The item is held by the `item_ptr`. -/
def get (key : Bytes) : Except Fault (Cache × Reply Nat) :=
  match s.find P key with
  | none => pure (s.tally fun c => { c with getMisses := c.getMisses + 1 }, .item none)
  | some i => do
      let s := s.tally fun c => { c with getHits := c.getHits + 1 }
      pure (← s.addRef i, .item (some i))

def cas (grant : Grant) (ins : ItemInsertionData) (version : BitVec 64) :
    Except Fault (Cache × Reply Nat) :=
  match s.find P ins.key with
  | none => pure (s.tally fun c => { c with casMisses := c.casMisses + 1 }, .cas .notFound)
  | some i => do
      let it ← s.deref i
      if it.version = version then
        let s := s.tally fun c => { c with casHits := c.casHits + 1 }
        match ← s.addOverriding P grant i ins with
        | (s, none) => pure (s, .badAlloc)
        | (s, some _) => pure (s, .cas .stored)
      else pure (s.tally fun c => { c with casBadval := c.casBadval + 1 }, .cas .badVersion)

/-- What `incr` and `decr` share; the prefix of the answer and the expiry are kept. -/
def adjust (hit miss : CacheStats → CacheStats) (change : BitVec 64 → BitVec 64) (grant : Grant)
    (key : Bytes) : Except Fault (Cache × Reply Nat) :=
  match s.find P key with
  | none => pure (s.tally miss, .counter none false)
  | some i => do
      let s := s.tally hit
      let it ← s.deref i
      match it.dataAsIntegral P with
      | none => pure (← s.addRef i, .counter (some i) false)
      | some value =>
          match ← s.addOverriding P grant i ⟨key, it.asciiPrefix, toSstring (change value), it.expiry⟩ with
          | (s, none) => pure (s, .badAlloc)
          | (s, some i) => pure (← s.addRef i, .counter (some i) true)

def incr (grant : Grant) (key : Bytes) (delta : BitVec 64) : Except Fault (Cache × Reply Nat) :=
  s.adjust P (fun c => { c with incrHits := c.incrHits + 1 })
    (fun c => { c with incrMisses := c.incrMisses + 1 }) (fun value => value + delta) grant key

/-- `*value - std::min(*value, delta)` -/
def decr (grant : Grant) (key : Bytes) (delta : BitVec 64) : Except Fault (Cache × Reply Nat) :=
  s.adjust P (fun c => { c with decrHits := c.decrHits + 1 })
    (fun c => { c with decrMisses := c.decrMisses + 1 })
    (fun value => value - if delta < value then delta else value) grant key

/-- `stats` -/
def takeStats : Cache × Reply Nat :=
  let s := s.tally fun c => { c with size := BitVec.ofNat 64 s.cache.length }
  (s, .stats s.stats)

end Cache

/-! ## Requests -/

inductive Request
  | set (ins : ItemInsertionData)
  | add (ins : ItemInsertionData)
  | replace (ins : ItemInsertionData)
  | remove (key : Bytes)
  | get (key : Bytes)
  | cas (ins : ItemInsertionData) (version : BitVec 64)
  | incr (key : Bytes) (delta : BitVec 64)
  | decr (key : Bytes) (delta : BitVec 64)
  | flushAll
  | flushAt (time : Nat)
  | stats
  deriving DecidableEq, Repr

/-- What a request does, with what the allocators do. -/
def perform (P : Platform) (grant : Grant) (room : Bool) (s : Cache) :
    Request → Except Fault (Cache × Reply Nat)
  | .set ins => s.set P grant room ins
  | .add ins => s.add P grant room ins
  | .replace ins => s.replace P grant ins
  | .remove key => s.remove P key
  | .get key => s.get P key
  | .cas ins version => s.cas P grant ins version
  | .incr key delta => s.incr P grant key delta
  | .decr key delta => s.decr P grant key delta
  | .flushAll => do pure (← s.flushAll P, .done)
  | .flushAt time => pure (s.flushAt time, .done)
  | .stats => pure s.takeStats

end Itaro.Engine
