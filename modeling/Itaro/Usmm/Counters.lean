/-
# Usmm.Counters -- the statistics, and what an operation leaves alone

The counters lie in the first slab, in front of the slots.  `counters` reads all
of them into one value, and each update of the source is an update of that value
(`counters_addStatUsed` and the others); work on the slabs themselves does not
touch it (`counters_of_above`).
-/
import Itaro.Usmm.Invariant

namespace Itaro.Usmm

set_option autoImplicit false

open Theory

/-! ## Fields -/

section Fields

variable (r : Region) (n : BitVec 32) (k : BitVec 64) (stat slab : Nat) (f : Mem → Mem) (h : Head)

@[simp] theorem update_us : (r.update f).us = r.us := rfl
@[simp] theorem update_mem : (r.update f).mem = f r.mem := rfl
@[simp] theorem update_lists : (r.update f).lists = r.lists := rfl
@[simp] theorem listDel_us : (r.listDel slab).us = r.us := rfl
@[simp] theorem listDel_mem : (r.listDel slab).mem = r.mem := rfl
@[simp] theorem listDel_lists : (r.listDel slab).lists = r.lists.del slab := rfl
@[simp] theorem listAdd_us : (r.listAdd slab h).us = r.us := rfl
@[simp] theorem listAdd_mem : (r.listAdd slab h).mem = r.mem := rfl
@[simp] theorem listAdd_lists : (r.listAdd slab h).lists = r.lists.push h slab := rfl
@[simp] theorem listAddTail_us : (r.listAddTail slab h).us = r.us := rfl
@[simp] theorem listAddTail_mem : (r.listAddTail slab h).mem = r.mem := rfl
@[simp] theorem listAddTail_lists : (r.listAddTail slab h).lists = r.lists.append h slab := rfl
@[simp] theorem addStatFree_us : (addStatFree r n).us = r.us := rfl
@[simp] theorem addStatFree_lists : (addStatFree r n).lists = r.lists := rfl
@[simp] theorem addStatFull_us : (addStatFull r n).us = r.us := rfl
@[simp] theorem addStatFull_lists : (addStatFull r n).lists = r.lists := rfl
@[simp] theorem addStatUsed_us : (addStatUsed r stat k).us = r.us := rfl
@[simp] theorem addStatUsed_lists : (addStatUsed r stat k).lists = r.lists := rfl
@[simp] theorem addStatSlabs_us : (addStatSlabs r stat n).us = r.us := rfl
@[simp] theorem addStatSlabs_lists : (addStatSlabs r stat n).lists = r.lists := rfl
@[simp] theorem addStatSliceFull_us : (addStatSliceFull r stat n).us = r.us := rfl
@[simp] theorem addStatSliceFull_lists : (addStatSliceFull r stat n).lists = r.lists := rfl

end Fields

/-! ## Footprints -/

section Footprints

variable {c : UsmmConf} {reach : Reach} {T : Nat → Prop} (roomy : c.Roomy) (r : Region)
include roomy

/-- A counter of the control block. -/
theorem counter_changesOnly {m : Mem} {a : Nat} (v : BitVec 32) (lower : c.base + 104 ≤ a)
    (upper : a + 4 ≤ c.base + 112) : ChangesOnly (OpSpan c reach T) m (setU32 m a v) := by
  have stop := reach.le_stop roomy
  simp only [usmmSlotsOffset] at stop
  refine (setU32_changesOnly m a v).mono fun x span => .inl ?_
  simp only [Span] at span
  omega

theorem addStatFree_changesOnly (us : r.us = c.base) (n : BitVec 32) :
    ChangesOnly (OpSpan c reach T) r.mem (addStatFree r n).mem :=
  counter_changesOnly roomy _ (by omega) (by omega)

theorem addStatFull_changesOnly (us : r.us = c.base) (n : BitVec 32) :
    ChangesOnly (OpSpan c reach T) r.mem (addStatFull r n).mem :=
  counter_changesOnly roomy _ (by omega) (by omega)

omit r in
/-- A word of the statistics of class `k`. -/
theorem stat_opSpan {k : Nat} (bound : k < usmmSlabArrayMax) {off w x : Nat} (inside : off + w ≤ 24)
    (span : Span (statAddr c.base k + off) w x) : OpSpan c reach T x := by
  have stop := reach.le_stop roomy
  simp only [usmmSlotsOffset] at stop
  simp only [usmmSlabArrayMax] at bound
  simp only [Span, statAddr, usmmStatSliceOffset] at span
  exact .inl (by omega)

variable {k : Nat} (bound : k < usmmSlabArrayMax)
include bound

theorem addStatUsed_changesOnly (n : BitVec 64) :
    ChangesOnly (OpSpan c reach T) r.mem (addStatUsed r (statAddr c.base k) n).mem :=
  ((setU64_changesOnly _ _ _).mono fun _ span =>
    stat_opSpan roomy bound (show 0 + 8 ≤ 24 by omega) span).trans
  ((setU64_changesOnly _ _ _).mono fun _ span =>
    stat_opSpan roomy bound (show 8 + 8 ≤ 24 by omega) span)

theorem addStatSlabs_changesOnly (n : BitVec 32) :
    ChangesOnly (OpSpan c reach T) r.mem (addStatSlabs r (statAddr c.base k) n).mem :=
  (setU32_changesOnly _ _ _).mono fun _ span =>
    stat_opSpan roomy bound (show 16 + 4 ≤ 24 by omega) span

theorem addStatSliceFull_changesOnly (n : BitVec 32) :
    ChangesOnly (OpSpan c reach T) r.mem (addStatSliceFull r (statAddr c.base k) n).mem :=
  (setU32_changesOnly _ _ _).mono fun _ span =>
    stat_opSpan roomy bound (show 20 + 4 ≤ 24 by omega) span

end Footprints

/-! ## The counters as one value -/

/-- `stat_free_slabs`, `stat_full_slabs` and the 41 `stat_slices`. -/
@[ext] structure Counters where
  free : BitVec 32
  full : BitVec 32
  stats : Nat → UsmmSliceStat

def counters (c : UsmmConf) (m : Mem) : Counters where
  free := statFreeSlabs m c.base
  full := statFullSlabs m c.base
  stats k := if k < usmmSlabArrayMax then statAt m (statAddr c.base k) else ⟨0, 0, 0, 0⟩

namespace Counters

def addFree (t : Counters) (n : BitVec 32) : Counters := { t with free := t.free + n }

def addFull (t : Counters) (n : BitVec 32) : Counters := { t with full := t.full + n }

def setStat (t : Counters) (k : Nat) (f : UsmmSliceStat → UsmmSliceStat) : Counters :=
  { t with stats := Function.update t.stats k (f (t.stats k)) }

def addUsed (t : Counters) (k : Nat) (n : BitVec 64) : Counters :=
  t.setStat k fun s => { s with ops := s.ops + 1, used := s.used + n }

def addSlabs (t : Counters) (k : Nat) (n : BitVec 32) : Counters :=
  t.setStat k fun s => { s with slabs := s.slabs + n }

def addSliceFull (t : Counters) (k : Nat) (n : BitVec 32) : Counters :=
  t.setStat k fun s => { s with full := s.full + n }

section Reads

variable (t : Counters) (k : Nat) {k' : Nat} (n : BitVec 32) (u : BitVec 64)

@[simp] theorem addFree_free : (t.addFree n).free = t.free + n := rfl
@[simp] theorem addFree_full : (t.addFree n).full = t.full := rfl
@[simp] theorem addFree_stats : (t.addFree n).stats = t.stats := rfl
@[simp] theorem addFull_free : (t.addFull n).free = t.free := rfl
@[simp] theorem addFull_full : (t.addFull n).full = t.full + n := rfl
@[simp] theorem addFull_stats : (t.addFull n).stats = t.stats := rfl
@[simp] theorem addUsed_free : (t.addUsed k u).free = t.free := rfl
@[simp] theorem addUsed_full : (t.addUsed k u).full = t.full := rfl
@[simp] theorem addSlabs_free : (t.addSlabs k n).free = t.free := rfl
@[simp] theorem addSlabs_full : (t.addSlabs k n).full = t.full := rfl
@[simp] theorem addSliceFull_free : (t.addSliceFull k n).free = t.free := rfl
@[simp] theorem addSliceFull_full : (t.addSliceFull k n).full = t.full := rfl

@[simp] theorem addUsed_own : (t.addUsed k u).stats k =
    ⟨(t.stats k).ops + 1, (t.stats k).used + u, (t.stats k).slabs, (t.stats k).full⟩ :=
  Function.update_self _ _ _

@[simp] theorem addSlabs_own : (t.addSlabs k n).stats k =
    ⟨(t.stats k).ops, (t.stats k).used, (t.stats k).slabs + n, (t.stats k).full⟩ :=
  Function.update_self _ _ _

@[simp] theorem addSliceFull_own : (t.addSliceFull k n).stats k =
    ⟨(t.stats k).ops, (t.stats k).used, (t.stats k).slabs, (t.stats k).full + n⟩ :=
  Function.update_self _ _ _

variable (ne : k' ≠ k)
include ne

theorem addUsed_other : (t.addUsed k u).stats k' = t.stats k' := Function.update_of_ne ne _ _

theorem addSlabs_other : (t.addSlabs k n).stats k' = t.stats k' := Function.update_of_ne ne _ _

theorem addSliceFull_other : (t.addSliceFull k n).stats k' = t.stats k' :=
  Function.update_of_ne ne _ _

end Reads

/-- The counters after a free slab was cut for class `k`, or not. -/
def cut (t : Counters) (k : Nat) (fresh : Bool) : Counters :=
  if fresh then (t.addFree (-1)).addSlabs k 1 else t

/-- The counters after a slice of class `k` was taken, the slab being full now or not. -/
def take (t : Counters) (k : Nat) (full : Bool) : Counters :=
  if full then ((t.addUsed k 1).addSliceFull k 1).addFull 1 else t.addUsed k 1

section Allocation

variable (t : Counters) (k : Nat) {k' : Nat} (fresh full : Bool)

theorem cut_free : (t.cut k fresh).free = if fresh then t.free + -1 else t.free := by
  cases fresh with
  | false => rfl
  | true => rw [cut, if_pos rfl, if_pos rfl, addSlabs_free, addFree_free]

theorem cut_full : (t.cut k fresh).full = t.full := by
  cases fresh with
  | false => rfl
  | true => rw [cut, if_pos rfl, addSlabs_full, addFree_full]

theorem cut_own : (t.cut k fresh).stats k = ⟨(t.stats k).ops, (t.stats k).used,
    if fresh then (t.stats k).slabs + 1 else (t.stats k).slabs, (t.stats k).full⟩ := by
  cases fresh with
  | false => rfl
  | true => rw [cut, if_pos rfl, addSlabs_own, addFree_stats, if_pos rfl]

theorem cut_other (ne : k' ≠ k) : (t.cut k fresh).stats k' = t.stats k' := by
  cases fresh with
  | false => rfl
  | true => rw [cut, if_pos rfl, addSlabs_other _ _ _ ne, addFree_stats]

theorem take_free : (t.take k full).free = t.free := by
  cases full <;> rfl

theorem take_full : (t.take k full).full = if full then t.full + 1 else t.full := by
  cases full <;> rfl

theorem take_own : (t.take k full).stats k = ⟨(t.stats k).ops + 1, (t.stats k).used + 1,
    (t.stats k).slabs, if full then (t.stats k).full + 1 else (t.stats k).full⟩ := by
  cases full with
  | false => rw [take, if_neg Bool.false_ne_true, addUsed_own, if_neg Bool.false_ne_true]
  | true => rw [take, if_pos rfl, addFull_stats, addSliceFull_own, addUsed_own, if_pos rfl]

theorem take_other (ne : k' ≠ k) : (t.take k full).stats k' = t.stats k' := by
  cases full with
  | false => rw [take, if_neg Bool.false_ne_true, addUsed_other _ _ _ ne]
  | true =>
      rw [take, if_pos rfl, addFull_stats, addSliceFull_other _ _ _ ne, addUsed_other _ _ _ ne]

end Allocation

end Counters

/-! ## Reading them after an update -/

section Updates

variable {c : UsmmConf} {r : Region}

/-- The counters, from their words. -/
theorem counters_congr {m m' : Mem} {t : Counters} (free : statFreeSlabs m' c.base = t.free)
    (full : statFullSlabs m' c.base = t.full)
    (stats : ∀ k < usmmSlabArrayMax, statAt m' (statAddr c.base k) = t.stats k)
    (rest : ∀ k, ¬ k < usmmSlabArrayMax → t.stats k = (counters c m).stats k) :
    counters c m' = t := by
  refine Counters.ext free full (funext fun k => ?_)
  by_cases bound : k < usmmSlabArrayMax
  · simp only [counters, if_pos bound]
    exact stats k bound
  · rw [rest k bound]
    simp only [counters, if_neg bound]

/-- Nothing below the second slab changed. -/
theorem counters_of_above (roomy : c.Roomy) {F : Nat → Prop} {m m' : Mem}
    (changes : ChangesOnly F m m') (above : ∀ x, F x → c.base + c.slabSize ≤ x) :
    counters c m' = counters c m := by
  have large := roomy.large
  refine @counters_congr c m m' _ (changes.u32 fun x lower upper inside => ?_)
    (changes.u32 fun x lower upper inside => ?_) (fun k bound => ?_) fun _ _ => rfl
  · have := above x inside
    omega
  · have := above x inside
    omega
  · simp only [counters, if_pos bound]
    refine statAt_of_changesOnly changes fun x lower upper inside => ?_
    have := above x inside
    simp only [usmmSlabArrayMax] at bound
    simp only [statAddr, usmmStatSliceOffset] at lower upper
    omega

theorem statAt_counter {m : Mem} {a : Nat} (v : BitVec 32) (upper : a + 4 ≤ c.base + 112) (k : Nat) :
    statAt (setU32 m a v) (statAddr c.base k) = statAt m (statAddr c.base k) := by
  refine statAt_of_changesOnly (setU32_changesOnly m a v) fun x lower _ span => ?_
  simp only [statAddr, usmmStatSliceOffset] at lower
  simp only [Span] at span
  omega

theorem counters_addStatFree (us : r.us = c.base) (n : BitVec 32) :
    counters c (addStatFree r n).mem = (counters c r.mem).addFree n := by
  have mem : (addStatFree r n).mem =
      setU32 r.mem (c.base + 104) (statFreeSlabs r.mem c.base + n) := by
    rw [addStatFree, update_mem, us]
  rw [mem]
  refine @counters_congr c r.mem _ _ (u32_setU32 _ _ _)
    (u32_setU32_of_disjoint _ _ (.inr (by omega))) (fun k bound => ?_) fun _ _ => rfl
  rw [statAt_counter _ (by omega)]
  exact (if_pos bound).symm

theorem counters_addStatFull (us : r.us = c.base) (n : BitVec 32) :
    counters c (addStatFull r n).mem = (counters c r.mem).addFull n := by
  have mem : (addStatFull r n).mem =
      setU32 r.mem (c.base + 108) (statFullSlabs r.mem c.base + n) := by
    rw [addStatFull, update_mem, us]
  rw [mem]
  refine @counters_congr c r.mem _ _ (u32_setU32_of_disjoint _ _ (.inl (by omega)))
    (u32_setU32 _ _ _) (fun k bound => ?_) fun _ _ => rfl
  rw [statAt_counter _ (by omega)]
  exact (if_pos bound).symm

/-- A change inside the statistics of class `k`. -/
theorem counters_setStat {k : Nat} (bound : k < usmmSlabArrayMax) {m m' : Mem}
    (changes : ChangesOnly (Span (statAddr c.base k) 24) m m') {f : UsmmSliceStat → UsmmSliceStat}
    (own : statAt m' (statAddr c.base k) = f (statAt m (statAddr c.base k))) :
    counters c m' = (counters c m).setStat k f := by
  refine @counters_congr c m m' _ (changes.u32 fun x lower upper span => ?_)
    (changes.u32 fun x lower upper span => ?_) (fun k' bound' => ?_) fun k' beyond => ?_
  · simp only [Span, statAddr, usmmStatSliceOffset] at span
    omega
  · simp only [Span, statAddr, usmmStatSliceOffset] at span
    omega
  · simp only [Counters.setStat, Function.update_apply]
    by_cases same : k' = k
    · subst same
      rw [if_pos rfl, own]
      simp only [counters, if_pos bound]
    · rw [if_neg same]
      simp only [counters, if_pos bound']
      refine statAt_of_changesOnly changes fun x lower upper span => ?_
      simp only [Span, statAddr] at span lower upper
      omega
  · simp only [Counters.setStat, Function.update_apply]
    rw [if_neg (by rintro rfl; exact beyond bound)]

variable {k : Nat} (bound : k < usmmSlabArrayMax)
include bound

theorem counters_addStatUsed (n : BitVec 64) :
    counters c (addStatUsed r (statAddr c.base k) n).mem = (counters c r.mem).addUsed k n := by
  refine counters_setStat bound (m := r.mem) ?_ ?_
  · exact ((setU64_changesOnly _ _ _).mono fun x span => by simp only [Span] at span ⊢; omega).trans
      ((setU64_changesOnly _ _ _).mono fun x span => by simp only [Span] at span ⊢; omega)
  · rw [addStatUsed, update_mem, statAt_setUsed, statAt_setOps,
      u64_setU64_of_disjoint _ _ (.inr (by omega))]
    rfl

theorem counters_addStatSlabs (n : BitVec 32) :
    counters c (addStatSlabs r (statAddr c.base k) n).mem = (counters c r.mem).addSlabs k n := by
  refine counters_setStat bound (m := r.mem) ?_ ?_
  · exact (setU32_changesOnly _ _ _).mono fun x span => by simp only [Span] at span ⊢; omega
  · rw [addStatSlabs, update_mem, statAt_setSlabs]
    rfl

theorem counters_addStatSliceFull (n : BitVec 32) :
    counters c (addStatSliceFull r (statAddr c.base k) n).mem =
      (counters c r.mem).addSliceFull k n := by
  refine counters_setStat bound (m := r.mem) ?_ ?_
  · exact (setU32_changesOnly _ _ _).mono fun x span => by simp only [Span] at span ⊢; omega
  · rw [addStatSliceFull, update_mem, statAt_setFull]
    rfl

end Updates

end Itaro.Usmm
