/-
# Usmm.Region -- usmm.c: the operations on an initialised region

A region is its memory and the sequences on its lists.  Everything but the lists
is read from and written to memory at the offsets of `Usmm.Layout`: the control
block, the statistics, the bitmap, the slots, the slab headers, the free slices
and the length words of heap blocks.  The lists are the sequences the list.h
primitives maintain; `list_del` takes a slab off the list its links are in.  On a slab
that is on none, list.h follows the two words in its header wherever they lead; here
nothing happens, which is right only when they lead to the slab's own node.  The stores
themselves are in `Usmm.Linked`.

Addresses are natural numbers and 0 is `NULL`.
-/
import Itaro.Theory.Queues
import Itaro.Usmm.Bitmap
import Itaro.Usmm.Slab
import Itaro.Usmm.SlabClass

namespace Itaro.Usmm

set_option autoImplicit false

open Theory

/-- The list heads: `free_slabs`, `full_slabs` and `slabs + idx`. -/
inductive Head
  | free
  | full
  | cls (idx : Nat)
  deriving DecidableEq, Repr

structure Region where
  us : Nat
  mem : Mem
  lists : Queues Head Nat

namespace Region

variable (r : Region)

def listDel (slab : Nat) : Region := { r with lists := r.lists.del slab }

def listAdd (slab : Nat) (h : Head) : Region := { r with lists := r.lists.push h slab }

def listAddTail (slab : Nat) (h : Head) : Region := { r with lists := r.lists.append h slab }

/-- Store to memory. -/
def update (f : Mem → Mem) : Region := { r with mem := f r.mem }

/-- `us->conf.slab` -/
def slabSize : Nat := (confSlab r.mem r.us).toNat

/-- `us->stat_slices + idx` -/
def stat (idx : Nat) : Nat := statSlices r.mem r.us + idx * 24

end Region

/-! ## Counters -/

/-- `us->stat_free_slabs += n` -/
def addStatFree (r : Region) (n : BitVec 32) : Region :=
  r.update fun m => setU32 m (r.us + 104) (statFreeSlabs m r.us + n)

/-- `us->stat_full_slabs += n` -/
def addStatFull (r : Region) (n : BitVec 32) : Region :=
  r.update fun m => setU32 m (r.us + 108) (statFullSlabs m r.us + n)

/-- `stat->ops ++; stat->used += n;` -/
def addStatUsed (r : Region) (stat : Nat) (n : BitVec 64) : Region :=
  r.update fun m =>
    let m := setU64 m stat (u64 m stat + 1)
    setU64 m (stat + 8) (u64 m (stat + 8) + n)

/-- `stat->slabs += n` -/
def addStatSlabs (r : Region) (stat : Nat) (n : BitVec 32) : Region :=
  r.update fun m => setU32 m (stat + 16) (u32 m (stat + 16) + n)

/-- `stat->full += n` -/
def addStatSliceFull (r : Region) (stat : Nat) (n : BitVec 32) : Region :=
  r.update fun m => setU32 m (stat + 20) (u32 m (stat + 20) + n)

/-! ## usmm_heap_alloc -/

/-- One turn of the loop: the slab leaves its list and its header is cleared. -/
def takeSlab (r : Region) (i : Nat) : Region :=
  let slab := r.us + i * r.slabSize
  (r.listDel slab).update fun m => usmmSlabFini m slab

/-- What `usmm_heap_alloc` does once the search has answered. -/
def heapTake (r : Region) (start : Nat) (num : Int) : Region × Nat :=
  let stop := (start + num).toNat
  let r := r.update fun m => bitmapSetRange m (slabBitmap m r.us) start stop
  let r := (List.range' start (stop - start)).foldl takeSlab r
  let r := addStatFree r (-BitVec.ofInt 32 num)
  let nlen := r.us + start * r.slabSize
  (r.update fun m => setU32 m nlen (BitVec.ofInt 32 num), nlen + 4)

/-- `num`, the slabs a request asks for. -/
def heapNum (size slab : BitVec 64) : Int := intOfSize (alignUp size slab / slab)

def usmmHeapAlloc (b : Build) (r : Region) (size : BitVec 64) : Except Fault (Region × Nat) := do
  let slab := confSlab r.mem r.us
  let num := heapNum size slab
  let start ← bitmapFindRange b r.mem (slabBitmap r.mem r.us) num
    (intOfSize (confLength r.mem r.us / slab))
  if start < 0 then return (r, 0) else return heapTake r start.toNat num

/-! ## usmm_heap_free -/

/-- One turn of the loop, with `ptr` as it moves along. -/
def giveSlab (p : Region × Nat) (i : Nat) : Region × Nat :=
  let (r, ptr) := p
  let r := r.update fun m => usmmSlabInit m ptr
  let r := r.listAdd ptr .free
  let r := r.update fun m => bitmapClr m (slabBitmap m r.us) i
  (r, ptr + r.slabSize)

def usmmHeapFree (r : Region) (ptr : Nat) : Region :=
  let nlen := ptr - 4
  let index := (nlen - r.us) / r.slabSize
  let num := (u32 r.mem nlen).toInt
  let r := ((List.range' index num.toNat).foldl giveSlab (r, nlen)).1
  addStatFree r (BitVec.ofInt 32 num)

/-! ## usmm_slice_alloc -/

/-- A slab from `free_slabs`, formatted and put on the list of its class. -/
def sliceFormat (r : Region) (idx slice stat slab : Nat) : Region :=
  let r := r.listDel slab
  let r := r.update fun m =>
    usmmSlabCreate m slab (confSlab m r.us) (BitVec.ofNat 64 slice)
  let r := r.listAdd slab (.cls idx)
  let r := addStatFree r (-1)
  addStatSlabs r stat 1

/-- A slice of the slab, which moves to `full_slabs` when that was the last. -/
def sliceTake (r : Region) (stat slab : Nat) : Region × Nat :=
  let taken := usmmSlabAlloc r.mem slab
  let r := r.update fun _ => taken.1
  let r := addStatUsed r stat 1
  if (slabAt r.mem slab).isfull then
    let r := (r.listDel slab).listAdd slab .full
    let r := addStatSliceFull r stat 1
    (addStatFull r 1, taken.2)
  else (r, taken.2)

/-- The region afterwards and the slice, 0 for `NULL`. -/
def usmmSliceAlloc (r : Region) (size : BitVec 64) : Region × Nat :=
  match usmmSlabFind (size.setWidth 32) with
  | none => (r, 0)
  | some (idx, slice) =>
      let stat := r.stat idx
      match r.lists (.cls idx) with
      | slab :: _ => sliceTake r stat slab
      | [] =>
          match r.lists .free with
          | slab :: _ => sliceTake (sliceFormat r idx slice stat slab) stat slab
          | [] => (r, 0)

/-! ## usmm_slice_free -/

/-- After the slice is back: a slab that was full returns to its class, one that
is empty now to `free_slabs`. -/
def sliceRelease (r : Region) (stat slab : Nat) (full : Bool) : Except Fault Region :=
  if full then
    let r := r.listDel slab
    match usmmSlabFind ((slabAt r.mem slab).slice.setWidth 32) with
    | none => .error .sliceUnset
    | some (idx, _) =>
        let r := r.listAddTail slab (.cls idx)
        let r := addStatSliceFull r stat (-1)
        .ok (addStatFull r (-1))
  else if (slabAt r.mem slab).isempty then
    let r := r.listDel slab
    let r := r.update fun m => usmmSlabInit m slab
    let r := r.listAdd slab .free
    let r := addStatSlabs r stat (-1)
    .ok (addStatFree r 1)
  else .ok r

def usmmSliceFree (b : Build) (r : Region) (ptr : Nat) : Except Fault Region :=
  if ptr = 0 then .ok r
  else
    let slab := (ownerSlab (BitVec.ofNat 64 ptr) (confSlab r.mem r.us)).toNat
    match usmmSlabFind ((slabAt r.mem slab).slice.setWidth 32) with
    | none => .error .sliceUnset
    | some (idx, slice) => do
        assert b ((slabAt r.mem slab).slice == BitVec.ofNat 64 slice) .sliceEq
        let stat := r.stat idx
        let full := (slabAt r.mem slab).isfull
        let m ← usmmSlabFree b r.mem slab ptr
        let r := r.update fun _ => m
        sliceRelease (addStatUsed r stat (-1)) stat slab full

/-! ## Slots -/

/-- `&(us->slots + slot)->ptr` -/
def Region.slot (r : Region) (slot : Nat) : Nat := slotsPtr r.mem r.us + slot * 16 + 8

/-- The region afterwards and what the slot held before. -/
def usmmSlotSet (b : Build) (r : Region) (slot : Nat) (ptr : BitVec 64) :
    Except Fault (Region × BitVec 64) := do
  assert b (decide (slot < usmmSlotsMax)) .slotLtMax
  return (r.update fun m => setU64 m (r.slot slot) ptr, u64 r.mem (r.slot slot))

def usmmSlotGet (b : Build) (r : Region) (slot : Nat) : Except Fault (BitVec 64) := do
  assert b (decide (slot < usmmSlotsMax)) .slotLtMax
  return u64 r.mem (r.slot slot)

/-- The first slot that holds `NULL`, or nothing for `-1`. -/
def usmmSlotAppend (r : Region) (ptr : BitVec 64) : Region × Option Nat :=
  match firstSome usmmSlotsMax fun i => if u64 r.mem (r.slot i) = 0 then some i else none with
  | none => (r, none)
  | some i => (r.update fun m => setU64 m (r.slot i) ptr, some i)

end Itaro.Usmm
