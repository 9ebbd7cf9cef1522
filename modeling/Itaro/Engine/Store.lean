/-
# Engine.Store -- what a memcached is for

A store maps keys to entries.  A request looks at the entry of its key, answers, and
keeps, drops or replaces the entry (`serve`).  A memcached may lose entries for want of
memory: `Step` says when, and which.  There are no items, references or statistics here.
-/
import Itaro.Engine.Memcache

namespace Itaro.Engine

set_option autoImplicit false

structure Entry where
  asciiPrefix : Bytes
  value : Bytes
  expiry : BitVec 32
  version : BitVec 64
  deriving DecidableEq, Repr

abbrev Store := Bytes → Option Entry

/-- What becomes of an entry. -/
inductive Change
  | keep
  | drop
  | put (e : Entry)
  deriving DecidableEq, Repr

def Change.isPut : Change → Bool
  | .put _ => true
  | _ => false

def ItemInsertionData.entry (ins : ItemInsertionData) (version : BitVec 64) : Entry :=
  ⟨ins.asciiPrefix, ins.data, ins.expiry, version⟩

/-- The number a value is, trailing blanks aside. -/
def integral (P : Platform) (value : Bytes) : Option (BitVec 64) :=
  if value.head? = some 0x2d then none else P.lexicalCast (value.reverse.dropWhile (· = 0x20)).reverse

/-- The key a request is about. -/
def Request.key? : Request → Option Bytes
  | .set ins | .add ins | .replace ins | .cas ins _ => some ins.key
  | .remove key | .get key | .incr key _ | .decr key _ => some key
  | .flushAll | .flushAt _ | .stats => none

def Request.Fits : Request → Prop
  | .set ins | .add ins | .replace ins | .cas ins _ => ins.Fits
  | _ => True

namespace Entry

def adjust (P : Platform) (change : BitVec 64 → BitVec 64) : Option Entry → Reply Entry × Change
  | none => (.counter none false, .keep)
  | some e =>
      match integral P e.value with
      | none => (.counter (some e) false, .keep)
      | some n =>
          let e := { e with value := toSstring (change n), version := e.version + 1 }
          (.counter (some e) true, .put e)

/-- The answer to a request about a key with this entry. -/
def serve (P : Platform) : Option Entry → Request → Reply Entry × Change
  | some e, .set ins => (.flag true, .put (ins.entry (e.version + 1)))
  | none, .set ins => (.flag false, .put (ins.entry 1))
  | some _, .add _ => (.flag false, .keep)
  | none, .add ins => (.flag true, .put (ins.entry 1))
  | some e, .replace ins => (.flag true, .put (ins.entry (e.version + 1)))
  | none, .replace _ => (.flag false, .keep)
  | some _, .remove _ => (.flag true, .drop)
  | none, .remove _ => (.flag false, .keep)
  | e, .get _ => (.item e, .keep)
  | some e, .cas ins version =>
      if e.version = version then (.cas .stored, .put (ins.entry (e.version + 1)))
      else (.cas .badVersion, .keep)
  | none, .cas _ _ => (.cas .notFound, .keep)
  | e, .incr _ delta => adjust P (fun n => n + delta) e
  | e, .decr _ delta => adjust P (fun n => n - if delta < n then delta else n) e
  | _, .flushAll | _, .flushAt _ | _, .stats => (.done, .keep)

end Entry

/-- What the outside sees of a run. -/
inductive Act
  | request (r : Request) (reply : Reply Entry)
  /-- The timer of the items that expire. -/
  | expire (now : Nat)
  | flushTimer
  /-- Memory is taken back from the allocator. -/
  | reclaim
  /-- An `item_ptr` goes away. -/
  | release

namespace Store

def empty : Store := fun _ => none

def without (m : Store) (lost : List Bytes) : Store := fun key => if key ∈ lost then none else m key

def change (m : Store) (key : Bytes) : Change → Store
  | .keep => m
  | .drop => Function.update m key none
  | .put e => Function.update m key (some e)

/-- What does not expire until `now`. -/
def unexpired (m : Store) (now : Nat) : Store := fun key =>
  (m key).filter fun e => !(everExpires e.expiry && decide (e.expiry.toNat ≤ now))

/-- Entries of other keys are lost only when one is put, and if there is no memory for it
at all, that of its key too. -/
inductive Step (P : Platform) : Store → Act → Store → Prop
  | serve {m : Store} {r : Request} {key : Bytes} (about : r.key? = some key) (lost : List Bytes)
      (others : key ∉ lost) (room : (Entry.serve P (m key) r).2.isPut = false → lost = []) :
      Step P m (.request r (Entry.serve P (m key) r).1) ((m.without lost).change key (Entry.serve P (m key) r).2)
  | badAlloc {m : Store} {r : Request} {key : Bytes} (about : r.key? = some key) (lost : List Bytes)
      (put : (Entry.serve P (m key) r).2.isPut = true) :
      Step P m (.request r .badAlloc) (m.without (key :: lost))
  | flushAll (m : Store) : Step P m (.request .flushAll .done) empty
  | flushAt (m : Store) (time : Nat) : Step P m (.request (.flushAt time) .done) m
  | stats (m : Store) (stats : CacheStats) : Step P m (.request .stats (.stats stats)) m
  | expire (m : Store) (now : Nat) : Step P m (.expire now) (m.unexpired now)
  | flushTimer (m : Store) : Step P m .flushTimer empty
  | reclaim (m : Store) (lost : List Bytes) : Step P m .reclaim (m.without lost)
  | release (m : Store) : Step P m .release m

end Store

end Itaro.Engine
