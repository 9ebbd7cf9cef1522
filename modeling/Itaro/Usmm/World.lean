/-
# Usmm.World -- the allocator and its client

A world is a region together with what its client holds: heap blocks and slices,
each a pointer and the size that was asked for.  The client acts by calling the
allocator and by writing bytes.  `Allowed` is the protocol it keeps: it releases
only what it holds, by the matching function, names slots that exist and writes
only inside the bytes it asked for.

`Heeds` is narrower.  It states when an action stays clear of what the allocator
gets wrong: a heap request picks a window of slabs that really are free and have
their bits in the bitmap, and a write stays inside the memory that was set aside,
which can be less than what was asked for.  `Finds` is a matter of the
configuration: the mask finds the slab of a slice when the region is `Aligned`.
-/
import Itaro.Theory.Runs
import Itaro.Usmm.BitmapSearch
import Itaro.Usmm.InitBounds
import Itaro.Usmm.Region

namespace Itaro.Usmm

set_option autoImplicit false

open Theory

/-- A pointer a client holds, and the size it asked for. -/
structure Piece where
  ptr : Nat
  size : BitVec 64
  deriving DecidableEq, Repr

structure World where
  region : Region
  blocks : List Piece
  slices : List Piece

namespace World

abbrev mem (w : World) : Mem := w.region.mem

abbrev lists (w : World) : Queues Head Nat := w.region.lists

end World

inductive Act
  | heapAlloc (size : BitVec 64)
  | heapFree (ptr : Nat)
  | sliceAlloc (size : BitVec 64)
  | sliceFree (ptr : Nat)
  | slotSet (slot : Nat) (ptr : BitVec 64)
  | slotGet (slot : Nat)
  | slotAppend (ptr : BitVec 64)
  | write (addr : Nat) (byte : BitVec 8)
  deriving DecidableEq, Repr

/-- The client now holds `ptr`, unless it is `NULL`. -/
def hold (ps : List Piece) (ptr : Nat) (size : BitVec 64) : List Piece :=
  if ptr = 0 then ps else ⟨ptr, size⟩ :: ps

/-- The client no longer holds `ptr`. -/
def drop (ps : List Piece) (ptr : Nat) : List Piece := ps.eraseP fun p => p.ptr == ptr

def perform (b : Build) (w : World) : Act → Except Fault World
  | .heapAlloc size => do
      let (r, ptr) ← usmmHeapAlloc b w.region size
      return { w with region := r, blocks := hold w.blocks ptr size }
  | .heapFree ptr =>
      return { w with region := usmmHeapFree w.region ptr, blocks := drop w.blocks ptr }
  | .sliceAlloc size =>
      let (r, ptr) := usmmSliceAlloc w.region size
      return { w with region := r, slices := hold w.slices ptr size }
  | .sliceFree ptr => do
      let r ← usmmSliceFree b w.region ptr
      return { w with region := r, slices := drop w.slices ptr }
  | .slotSet slot ptr => do
      let (r, _) ← usmmSlotSet b w.region slot ptr
      return { w with region := r }
  | .slotGet slot => do
      let _ ← usmmSlotGet b w.region slot
      return w
  | .slotAppend ptr => return { w with region := (usmmSlotAppend w.region ptr).1 }
  | .write addr byte => return { w with region := w.region.update fun m => setU8 m addr byte }

/-- The protocol. -/
def Allowed (w : World) : Act → Prop
  | .heapFree ptr => ∃ x ∈ w.blocks, x.ptr = ptr
  | .sliceFree ptr => ptr = 0 ∨ ∃ x ∈ w.slices, x.ptr = ptr
  | .slotSet slot _ | .slotGet slot => slot < usmmSlotsMax
  | .write addr _ => ∃ x ∈ w.blocks ++ w.slices, x.ptr ≤ addr ∧ addr < x.ptr + x.size.toNat
  | _ => True

/-- One action of a client that keeps the protocol. -/
def Step (b : Build) (w : World) (a : Act) (w' : World) : Prop :=
  Allowed w a ∧ perform b w a = .ok w'

/-! ## The start -/

/-- The free list in index order, and nothing on the others. -/
def initLists (c : UsmmConf) : Queues Head Nat
  | .free => (List.range' 1 (c.slabCount - 1)).map c.slabAddr
  | _ => []

def openWorld (c : UsmmConf) (m : Mem) : World := ⟨⟨c.base, m, initLists c⟩, [], []⟩

/-- A region as the first-time branch of `usmm_init` hands it out. -/
def Starts (c : UsmmConf) (w : World) : Prop :=
  ∃ m m', ¬ hasMagic m c.base ∧ usmmInit c (some c.base) m = .ok (c.base, m') ∧ w = openWorld c m'

/-- The sequences a world starts with are those in its memory. -/
theorem openWorld_lists {c : UsmmConf} {m : Mem} (fresh : Fresh c m) :
    ListAt m (c.base + 112) (((openWorld c m).lists .free).map (· + 8)) ∧
      ListAt m (c.base + 128) (((openWorld c m).lists .full).map (· + 8)) ∧
      ∀ k < usmmSlabArrayMax,
        ListAt m (classHead c.base k) (((openWorld c m).lists (.cls k)).map (· + 8)) := by
  refine ⟨?_, fresh.fullSlabs, fresh.classes⟩
  have nodes : ((openWorld c m).lists .free).map (· + 8) =
      (List.range' 1 (c.slabCount - 1)).map (freeNode c) := by
    show ((List.range' 1 (c.slabCount - 1)).map c.slabAddr).map (· + 8) = _
    rw [List.map_map]
    refine List.map_congr_left fun i member => ?_
    have positive := (List.mem_range'_1.mp member).1
    exact (freeNode_pos positive).symm
  rw [nodes]
  exact fresh.freeSlabs

theorem Starts.fresh {c : UsmmConf} {w : World} (starts : Starts c w) (roomy : c.Roomy) :
    Fresh c w.mem ∧ w = openWorld c w.mem := by
  obtain ⟨m, m', new, first, rfl⟩ := starts
  obtain rfl := ((usmmInit_ok_iff new).mp first).2
  exact ⟨firstTime_spec roomy m, rfl⟩

/-- Nothing is handed out at the start. -/
theorem Starts.blocks {c : UsmmConf} {w : World} (starts : Starts c w) : w.blocks = [] := by
  obtain ⟨m, m', new, first, rfl⟩ := starts
  rfl

theorem Starts.slices {c : UsmmConf} {w : World} (starts : Starts c w) : w.slices = [] := by
  obtain ⟨m, m', new, first, rfl⟩ := starts
  rfl

/-! ## What is set aside -/

/-- `c` is well placed: its slabs are a power of two and the region is aligned. -/
structure Aligned (c : UsmmConf) : Prop extends c.Roomy where
  power : ∃ k, c.slabSize = 2 ^ k
  aligned : c.slabSize ∣ c.base

/-- The index of the first slab of a block. -/
def blockFirst (c : UsmmConf) (x : Piece) : Nat := (x.ptr - 4 - c.base) / c.slabSize

/-- The number of slabs of a block. -/
def blockNum (c : UsmmConf) (x : Piece) : Nat := (heapNum x.size c.slab).toNat

/-- Block `x` was given slab `i`. -/
def Owns (c : UsmmConf) (x : Piece) (i : Nat) : Prop :=
  blockFirst c x ≤ i ∧ i < blockFirst c x + blockNum c x

/-- `addr` is in the slabs of block `x`, past its length word. -/
def HeapBytes (c : UsmmConf) (x : Piece) (addr : Nat) : Prop :=
  x.ptr ≤ addr ∧ addr < c.slabAddr (blockFirst c x + blockNum c x)

/-- `addr` is in the slice `x`, which has the size of its class. -/
def SliceBytes (x : Piece) (addr : Nat) : Prop :=
  ∃ idx slice, usmmSlabFind (x.size.setWidth 32) = some (idx, slice) ∧
    x.ptr ≤ addr ∧ addr < x.ptr + slice

/-- The first position that passes the search's test begins a window of slabs
that are on `free_slabs` and have a bit in the bitmap. -/
def FreeWindow (c : UsmmConf) (w : World) (num : Nat) : Prop :=
  ∀ s, Picks w.mem (c.base + usmmSlabBitmapOffset) num c.slabCount s →
    ∀ i, s ≤ i → i < s + num → c.slabAddr i ∈ w.lists .free ∧ i < usmmSlabBitmapSize

/-- A request for slabs picks a free window; or the request comes to no slabs, and
the search, which is made all the same, passes over full bytes only.  For −8 slabs or
fewer it finds nothing, but reads on behind the bitmap (`Linked.Counted`). -/
def HeapHeeds (c : UsmmConf) (w : World) (size : BitVec 64) : Prop :=
  let num := heapNum size c.slab
  if 1 ≤ num then FreeWindow c w num.toNat
  else num ≤ -8 ∨ ∀ i < c.slabCount / 8, w.mem (c.base + usmmSlabBitmapOffset + i) = maxDw

/-- The action meets no defect of the allocator. -/
def Heeds (c : UsmmConf) (w : World) : Act → Prop
  | .heapAlloc size => HeapHeeds c w size
  | .write addr _ => (∃ x ∈ w.blocks, HeapBytes c x addr) ∨ ∃ x ∈ w.slices, SliceBytes x addr
  | _ => True

/-- The mask takes an address past the start of a slab to that start. -/
def OwnerFound (c : UsmmConf) (ptr : Nat) : Prop :=
  ∀ i, 1 ≤ i → i < c.slabCount → c.slabAddr i < ptr → ptr < c.slabAddr i + c.slabSize →
    (ownerSlab (BitVec.ofNat 64 ptr) c.slab).toNat = c.slabAddr i

/-- A slice that is freed is found in its slab. -/
def Finds (c : UsmmConf) : Act → Prop
  | .sliceFree ptr => OwnerFound c ptr
  | _ => True

end Itaro.Usmm
