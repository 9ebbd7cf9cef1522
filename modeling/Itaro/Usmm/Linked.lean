/-
# Usmm.Linked -- usmm.c: the same operations with their lists in memory

In `Usmm.Region` the lists are sequences beside the memory.  Here they are where usmm.c
has them: a head is two words of the control block or of the class table, a slab carries
two words in its header, and the list.h stores link them.  The state is the memory alone;
everything else is computed as in `Usmm.Region`, from the same words.
-/
import Itaro.Theory.Links
import Itaro.Usmm.World

namespace Itaro.Usmm.Linked

set_option autoImplicit false

open Theory

/-! ## Addresses -/

/-- `&slab->node` -/
def node (slab : Nat) : Nat := slab + 8

section Addresses

variable (m : Mem) (us : Nat)

/-- `us->conf.slab` -/
def slabSize : Nat := (confSlab m us).toNat

/-- `us->stat_slices + idx` -/
def stat (idx : Nat) : Nat := statSlices m us + idx * 24

/-- `us->slabs + idx` -/
def slabs (idx : Nat) : Nat := slabsPtr m us + idx * 16

/-- `&us->free_slabs` -/
def freeSlabs : Nat := us + 112

/-- `&us->full_slabs` -/
def fullSlabs : Nat := us + 128

/-- `list_empty` -/
def listEmpty (head : Nat) : Bool := (u64 m head).toNat == head

/-- `list_first_entry(head, usmm_slab_t, node)` -/
def listFirstEntry (head : Nat) : Nat := (u64 m head).toNat - 8

end Addresses

/-! ## Counters -/

def addStatFree (m : Mem) (us : Nat) (n : BitVec 32) : Mem := setU32 m (us + 104) (statFreeSlabs m us + n)

def addStatFull (m : Mem) (us : Nat) (n : BitVec 32) : Mem := setU32 m (us + 108) (statFullSlabs m us + n)

def addStatUsed (m : Mem) (stat : Nat) (n : BitVec 64) : Mem :=
  let m := setU64 m stat (u64 m stat + 1)
  setU64 m (stat + 8) (u64 m (stat + 8) + n)

def addStatSlabs (m : Mem) (stat : Nat) (n : BitVec 32) : Mem := setU32 m (stat + 16) (u32 m (stat + 16) + n)

def addStatSliceFull (m : Mem) (stat : Nat) (n : BitVec 32) : Mem := setU32 m (stat + 20) (u32 m (stat + 20) + n)

/-! ## Heap blocks -/

/-- One turn of the loop of `usmm_heap_alloc`. -/
def takeSlab (us : Nat) (m : Mem) (i : Nat) : Mem :=
  let slab := us + i * slabSize m us
  let m := Links.listDel m (node slab)
  usmmSlabFini m slab

def heapTake (m : Mem) (us start : Nat) (num : Int) : Mem × Nat :=
  let stop := (start + num).toNat
  let m := bitmapSetRange m (slabBitmap m us) start stop
  let m := (List.range' start (stop - start)).foldl (takeSlab us) m
  let m := addStatFree m us (-BitVec.ofInt 32 num)
  let nlen := us + start * slabSize m us
  (setU32 m nlen (BitVec.ofInt 32 num), nlen + 4)

def usmmHeapAlloc (b : Build) (m : Mem) (us : Nat) (size : BitVec 64) : Except Fault (Mem × Nat) := do
  let slab := confSlab m us
  let num := heapNum size slab
  let start ← bitmapFindRange b m (slabBitmap m us) num (intOfSize (confLength m us / slab))
  if start < 0 then return (m, 0) else return heapTake m us start.toNat num

/-- One turn of the loop of `usmm_heap_free`. -/
def giveSlab (us : Nat) (p : Mem × Nat) (i : Nat) : Mem × Nat :=
  let (m, ptr) := p
  let m := usmmSlabInit m ptr
  let m := Links.listAdd m (node ptr) (freeSlabs us)
  let m := bitmapClr m (slabBitmap m us) i
  (m, ptr + slabSize m us)

def usmmHeapFree (m : Mem) (us ptr : Nat) : Mem :=
  let nlen := ptr - 4
  let index := (nlen - us) / slabSize m us
  let num := (u32 m nlen).toInt
  let m := ((List.range' index num.toNat).foldl (giveSlab us) (m, nlen)).1
  addStatFree m us (BitVec.ofInt 32 num)

/-! ## Slices -/

def sliceFormat (m : Mem) (us slice stat n slab : Nat) : Mem :=
  let m := Links.listDel m (node slab)
  let m := usmmSlabCreate m slab (confSlab m us) (BitVec.ofNat 64 slice)
  let m := Links.listAdd m (node slab) n
  let m := addStatFree m us (-1)
  addStatSlabs m stat 1

def sliceTake (m : Mem) (us stat slab : Nat) : Mem × Nat :=
  let taken := usmmSlabAlloc m slab
  let m := addStatUsed taken.1 stat 1
  if (slabAt m slab).isfull then
    let m := Links.listDel m (node slab)
    let m := Links.listAdd m (node slab) (fullSlabs us)
    let m := addStatSliceFull m stat 1
    (addStatFull m us 1, taken.2)
  else (m, taken.2)

def usmmSliceAlloc (m : Mem) (us : Nat) (size : BitVec 64) : Mem × Nat :=
  match usmmSlabFind (size.setWidth 32) with
  | none => (m, 0)
  | some (idx, slice) =>
    let n := slabs m us idx
    let stat := stat m us idx
    if listEmpty m n then
      if listEmpty m (freeSlabs us) then (m, 0)
      else
        let slab := listFirstEntry m (freeSlabs us)
        sliceTake (sliceFormat m us slice stat n slab) us stat slab
    else sliceTake m us stat (listFirstEntry m n)

def sliceRelease (m : Mem) (us stat slab : Nat) (full : Bool) : Except Fault Mem :=
  if full then
    let m := Links.listDel m (node slab)
    match usmmSlabFind ((slabAt m slab).slice.setWidth 32) with
    | none => .error .sliceUnset
    | some (idx, _) =>
      let m := Links.listAddTail m (node slab) (slabs m us idx)
      let m := addStatSliceFull m stat (-1)
      .ok (addStatFull m us (-1))
  else if (slabAt m slab).isempty then
    let m := Links.listDel m (node slab)
    let m := usmmSlabInit m slab
    let m := Links.listAdd m (node slab) (freeSlabs us)
    let m := addStatSlabs m stat (-1)
    .ok (addStatFree m us 1)
  else .ok m

def usmmSliceFree (b : Build) (m : Mem) (us ptr : Nat) : Except Fault Mem :=
  if ptr = 0 then .ok m
  else
    let slab := (ownerSlab (BitVec.ofNat 64 ptr) (confSlab m us)).toNat
    match usmmSlabFind ((slabAt m slab).slice.setWidth 32) with
    | none => .error .sliceUnset
    | some (idx, slice) => do
      assert b ((slabAt m slab).slice == BitVec.ofNat 64 slice) .sliceEq
      let stat := stat m us idx
      let full := (slabAt m slab).isfull
      let m ← usmmSlabFree b m slab ptr
      sliceRelease (addStatUsed m stat (-1)) us stat slab full

/-! ## Slots -/

/-- `&(us->slots + slot)->ptr` -/
def slotPtr (m : Mem) (us slot : Nat) : Nat := slotsPtr m us + slot * 16 + 8

def usmmSlotSet (b : Build) (m : Mem) (us slot : Nat) (ptr : BitVec 64) : Except Fault (Mem × BitVec 64) := do
  assert b (decide (slot < usmmSlotsMax)) .slotLtMax
  return (setU64 m (slotPtr m us slot) ptr, u64 m (slotPtr m us slot))

def usmmSlotGet (b : Build) (m : Mem) (us slot : Nat) : Except Fault (BitVec 64) := do
  assert b (decide (slot < usmmSlotsMax)) .slotLtMax
  return u64 m (slotPtr m us slot)

def usmmSlotAppend (m : Mem) (us : Nat) (ptr : BitVec 64) : Mem × Option Nat :=
  match firstSome usmmSlotsMax fun i => if u64 m (slotPtr m us i) = 0 then some i else none with
  | none => (m, none)
  | some i => (setU64 m (slotPtr m us i) ptr, some i)

/-! ## The allocator and its client -/

structure World where
  us : Nat
  mem : Mem
  blocks : List Piece
  slices : List Piece

def perform (b : Build) (w : World) : Act → Except Fault World
  | .heapAlloc size => do
    let (m, ptr) ← usmmHeapAlloc b w.mem w.us size
    return { w with mem := m, blocks := hold w.blocks ptr size }
  | .heapFree ptr => return { w with mem := usmmHeapFree w.mem w.us ptr, blocks := drop w.blocks ptr }
  | .sliceAlloc size =>
    let (m, ptr) := usmmSliceAlloc w.mem w.us size
    return { w with mem := m, slices := hold w.slices ptr size }
  | .sliceFree ptr => do
    let m ← usmmSliceFree b w.mem w.us ptr
    return { w with mem := m, slices := drop w.slices ptr }
  | .slotSet slot ptr => do
    let (m, _) ← usmmSlotSet b w.mem w.us slot ptr
    return { w with mem := m }
  | .slotGet slot => do
    let _ ← usmmSlotGet b w.mem w.us slot
    return w
  | .slotAppend ptr => return { w with mem := (usmmSlotAppend w.mem w.us ptr).1 }
  | .write addr byte => return { w with mem := setU8 w.mem addr byte }

/-- What `usmm_init` leaves. -/
def openWorld (c : UsmmConf) (m : Mem) : World := ⟨c.base, m, [], []⟩

end Itaro.Usmm.Linked
