/-
# Engine.Items -- memcache.cc: what is linked, listed and held

`Kept P s handles` is the invariant of a cache whose items are held by `handles` besides
being linked: every item that is there is needed, its count is the number of those who
need it, no key is linked twice, and `_bytes` is what is linked.  `Timed` is the one of
`_alive`.  An item leaves in one way, whatever takes it out (`Drops`), and comes in one
(`Links`); the contents change by its key.
-/
import Itaro.Engine.Store
import Itaro.Theory.Buckets
import Itaro.Theory.Outcomes
import Mathlib.Algebra.BigOperators.Group.List.Basic
import Mathlib.Data.BitVec

namespace Itaro.Engine

set_option autoImplicit false

open Theory

/-! ## Items from the constructor -/

def Item.entry (it : Item) : Entry := ⟨it.asciiPrefix, it.value, it.expiry, it.version⟩

/-- An item that the constructor has made of what fits. -/
def Stored (P : Platform) (it : Item) : Prop :=
  ∃ fresh ins version, ItemInsertionData.Fits ins ∧ it = .new P fresh ins version

variable {P : Platform} {it it' : Item} {key : Bytes}

theorem Item.entry_new {fresh : Mem} {ins : ItemInsertionData} {version : BitVec 64} (fits : ins.Fits) :
    (Item.new P fresh ins version).entry = ins.entry version := by
  rw [Item.entry, asciiPrefix_new fits, value_new fits]
  rfl

theorem Stored.compare (stored : Stored P it) : it.compare P key = decide (it.key = key) := by
  obtain ⟨fresh, ins, version, fits, rfl⟩ := stored
  rw [Item.compare_new fits, Item.key_new fits]

theorem Stored.same (stored : Stored P it) (stored' : Stored P it') :
    it.same it' = decide (it.key = it'.key) := by
  obtain ⟨fresh, ins, version, fits, rfl⟩ := stored
  obtain ⟨fresh', ins', version', fits', rfl⟩ := stored'
  rw [Item.same, Item.key_new fits, Item.key_new fits']
  apply decide_eq_decide.mpr
  constructor
  · exact fun both => both.2.2
  · intro same
    refine ⟨congrArg P.hash same, ?_, same⟩
    show BitVec.ofNat 8 _ = BitVec.ofNat 8 _
    rw [same]

theorem Stored.key_le (stored : Stored P it) : it.key.length ≤ 248 := by
  obtain ⟨fresh, ins, version, fits, rfl⟩ := stored
  rw [Item.key_new fits]
  exact fits.key

theorem Stored.asciiPrefix_le (stored : Stored P it) : it.asciiPrefix.length ≤ 248 := by
  obtain ⟨fresh, ins, version, fits, rfl⟩ := stored
  rw [Item.asciiPrefix_new fits]
  exact fits.asciiPrefix

namespace Cache

/-- The items in `_cache`. -/
def linked (s : Cache) : List Item := s.cache.filterMap s.items

/-- The entries that are cached. -/
def contents (s : Cache) : Store := fun key => (named Item.key s.linked key).map Item.entry

end Cache

/-! ## The invariants -/

structure Kept (P : Platform) (s : Cache) (handles : List Nat) : Prop where
  nodup : s.cache.Nodup
  live : ∀ a ∈ s.cache, (s.items a).isSome
  held : ∀ a ∈ handles, (s.items a).isSome
  needed : ∀ a, (s.items a).isSome → a ∈ s.cache ∨ a ∈ handles
  count : ∀ a, (s.items a).isSome → (s.refCount a).toNat = s.cache.count a + handles.count a
  stored : ∀ a it, s.items a = some it → Stored P it
  keys : (s.linked.map Item.key).Nodup
  bytes : s.stats.bytes = (s.linked.map (itemSize P)).sum

/-- `popped` is what was taken out of `_alive` and is still linked. -/
structure Timed (s : Cache) (popped : List Nat) : Prop where
  nodup : s.alive.Nodup
  mem : ∀ a, a ∈ s.alive ↔ a ∈ s.cache ∧ a ∉ popped ∧ (s.items a).any (fun it => everExpires it.expiry) = true

theorem kept_new : Kept P .new [] where
  nodup := .nil
  live _ member := absurd member List.not_mem_nil
  held _ member := absurd member List.not_mem_nil
  needed _ there := Bool.noConfusion there
  count _ there := Bool.noConfusion there
  stored _ _ there := by cases there
  keys := .nil
  bytes := rfl

theorem timed_new : Timed .new [] where
  nodup := .nil
  mem a := by simp [Cache.new]

section Finding

variable {s : Cache} {handles : List Nat} {a : Nat}

theorem Cache.mem_linked : it ∈ s.linked ↔ ∃ a ∈ s.cache, s.items a = some it := List.mem_filterMap

theorem Cache.contents_eq_none : s.contents key = none ↔ key ∉ s.linked.map Item.key := by
  rw [contents, Option.map_eq_none_iff, named_eq_none]

variable (kept : Kept P s handles)
include kept

theorem Kept.contents_of_mem (member : a ∈ s.cache) (there : s.items a = some it) :
    s.contents it.key = some it.entry := by
  rw [Cache.contents, (named_eq_some kept.keys).mpr ⟨Cache.mem_linked.mpr ⟨a, member, there⟩, rfl⟩]
  rfl

theorem Kept.contents_eq_some {e : Entry} :
    s.contents key = some e ↔ ∃ a ∈ s.cache, ∃ it, s.items a = some it ∧ it.key = key ∧ it.entry = e := by
  constructor
  · intro found
    obtain ⟨it, called, rfl⟩ := Option.map_eq_some_iff.mp found
    obtain ⟨linked, same⟩ := (named_eq_some kept.keys).mp called
    obtain ⟨a, member, there⟩ := Cache.mem_linked.mp linked
    exact ⟨a, member, it, there, same, rfl⟩
  · rintro ⟨a, member, it, there, rfl, rfl⟩
    exact kept.contents_of_mem member there

/-- `find` finds the item of the key, by hash, size and bytes. -/
theorem Kept.find_eq_some (found : s.find P key = some a) :
    a ∈ s.cache ∧ ∃ it, s.items a = some it ∧ it.key = key := by
  have member := List.mem_of_find?_eq_some found
  refine ⟨member, ?_⟩
  have compared := List.find?_some found
  cases there : s.items a with
  | none =>
      rw [there] at compared
      exact Bool.noConfusion compared
  | some it =>
      rw [there, Option.any_some, (kept.stored a it there).compare, decide_eq_true_eq] at compared
      exact ⟨it, rfl, compared⟩

theorem Kept.find_eq_none (missed : s.find P key = none) : key ∉ s.linked.map Item.key := by
  intro member
  obtain ⟨it, linked, rfl⟩ := List.mem_map.mp member
  obtain ⟨a, member, there⟩ := Cache.mem_linked.mp linked
  have compared := List.find?_eq_none.mp missed a member
  rw [there, Option.any_some, (kept.stored a it there).compare] at compared
  exact compared (decide_eq_true rfl)

/-- Both in one: what is cached for the key, and where. -/
theorem Kept.find_cases (key : Bytes) :
    (s.find P key = none ∧ s.contents key = none ∧ key ∉ s.linked.map Item.key) ∨
      ∃ a it, s.find P key = some a ∧ a ∈ s.cache ∧ s.items a = some it ∧ it.key = key ∧
        s.contents key = some it.entry := by
  cases found : s.find P key with
  | none =>
      have absent := kept.find_eq_none found
      exact .inl ⟨rfl, Cache.contents_eq_none.mpr absent, absent⟩
  | some a =>
      obtain ⟨member, it, there, rfl⟩ := kept.find_eq_some found
      exact .inr ⟨a, it, rfl, member, there, rfl, kept.contents_of_mem member there⟩

end Finding

/-! ## Leaving -/

/-- The item `it` at `a` is taken out, and freed if nobody holds it. -/
structure Drops (P : Platform) (handles : List Nat) (s : Cache) (a : Nat) (it : Item) (s' : Cache) : Prop where
  member : a ∈ s.cache
  there : s.items a = some it
  cache : s'.cache = s.cache.erase a
  alive : s'.alive = s.alive.erase a
  others : ∀ b, b ≠ a → s'.items b = s.items b ∧ s'.refCount b = s.refCount b
  freed : a ∉ handles → s'.items a = none
  remains : a ∈ handles → s'.items a = some it ∧ (s'.refCount a).toNat = handles.count a
  bytes : s'.stats.bytes = s.stats.bytes + -itemSize P it

namespace Drops

variable {s s' : Cache} {handles popped popped' : List Nat} {a : Nat}

theorem held (drops : Drops P handles s a it s') : ∀ b ∈ handles, s'.items b = s.items b := by
  intro b member
  by_cases same : b = a
  · subst same
    rw [(drops.remains member).1, drops.there]
  · exact (drops.others b same).1

theorem linked_perm (drops : Drops P handles s a it s') (nodup : s.cache.Nodup) :
    s.linked.Perm (it :: s'.linked) := by
  have rest : (s.cache.erase a).filterMap s.items = s'.linked := by
    rw [Cache.linked, drops.cache]
    apply List.filterMap_congr
    intro b member
    exact (drops.others b (nodup.mem_erase_iff.mp member).1).1.symm
  have front : (a :: s.cache.erase a).filterMap s.items = it :: s'.linked := by
    rw [List.filterMap_cons_some drops.there, rest]
  rw [← front]
  exact (List.perm_cons_erase drops.member).filterMap s.items

theorem kept (drops : Drops P handles s a it s') (kept : Kept P s handles) : Kept P s' handles where
  nodup := by
    rw [drops.cache]
    exact kept.nodup.erase a
  live b member := by
    rw [drops.cache, kept.nodup.mem_erase_iff] at member
    rw [(drops.others b member.1).1]
    exact kept.live b member.2
  held b member := by
    rw [drops.held b member]
    exact kept.held b member
  needed b there := by
    by_cases same : b = a
    · subst same
      by_contra gone
      rw [drops.freed (not_or.mp gone).2] at there
      exact Bool.noConfusion there
    · rw [(drops.others b same).1] at there
      refine (kept.needed b there).imp_left fun member => ?_
      rw [drops.cache]
      exact kept.nodup.mem_erase_iff.mpr ⟨same, member⟩
  count b there := by
    by_cases same : b = a
    · subst same
      by_cases member : b ∈ handles
      · rw [(drops.remains member).2, drops.cache, List.count_eq_zero.mpr kept.nodup.not_mem_erase, Nat.zero_add]
      · rw [drops.freed member] at there
        exact Bool.noConfusion there
    · rw [(drops.others b same).1] at there
      rw [(drops.others b same).2, drops.cache, List.count_erase_of_ne same, kept.count b there]
  stored b it' there := by
    by_cases same : b = a
    · subst same
      by_cases member : b ∈ handles
      · rw [(drops.remains member).1, ← drops.there] at there
        exact kept.stored b it' there
      · rw [drops.freed member] at there
        cases there
    · rw [(drops.others b same).1] at there
      exact kept.stored b it' there
  keys := (List.nodup_cons.mp (((drops.linked_perm kept.nodup).map Item.key).nodup_iff.mp kept.keys)).2
  bytes := by
    have total := ((drops.linked_perm kept.nodup).map (itemSize P)).sum_eq
    rw [List.map_cons, List.sum_cons] at total
    rw [drops.bytes, kept.bytes, total]
    exact add_neg_cancel_comm _ _

theorem contents (drops : Drops P handles s a it s') (kept : Kept P s handles) :
    s'.contents = Function.update s.contents it.key none := by
  have perm := drops.linked_perm kept.nodup
  have distinct := (perm.map Item.key).nodup_iff.mp kept.keys
  have once := (List.nodup_cons.mp distinct).1
  funext key
  by_cases same : key = it.key
  · subst same
    rw [Function.update_self, Cache.contents_eq_none]
    exact once
  · rw [Function.update_of_ne same, Cache.contents, Cache.contents, named_perm kept.keys perm,
      named_cons_of_ne (Ne.symm same)]

theorem timed (drops : Drops P handles s a it s') (nodup : s.cache.Nodup) (timed : Timed s popped)
    (same : ∀ b, b ≠ a → (b ∈ popped' ↔ b ∈ popped)) : Timed s' popped' where
  nodup := by
    rw [drops.alive]
    exact timed.nodup.erase a
  mem b := by
    rw [drops.alive, drops.cache, timed.nodup.mem_erase_iff, nodup.mem_erase_iff, timed.mem]
    by_cases here : b = a
    · simp [here]
    · simp [here, same b here, (drops.others b here).1]

theorem length (drops : Drops P handles s a it s') : s'.cache.length + 1 = s.cache.length := by
  have := List.length_pos_of_mem drops.member
  rw [drops.cache, List.length_erase_of_mem drops.member]
  omega

end Drops

/-! ## Coming in -/

/-- The item `it` is put at `a`, linked, and listed if it expires. -/
structure Links (P : Platform) (s : Cache) (a : Nat) (it : Item) (s' : Cache) : Prop where
  fresh : s.items a = none
  items : s'.items = Function.update s.items a (some it)
  refCount : s'.refCount = Function.update s.refCount a 1
  cache : s'.cache = a :: s.cache
  alive : s'.alive = if everExpires it.expiry then a :: s.alive else s.alive
  bytes : s'.stats.bytes = s.stats.bytes + itemSize P it

namespace Links

variable {s s' : Cache} {handles : List Nat} {a : Nat}

theorem self (links : Links P s a it s') : s'.items a = some it := by
  rw [links.items, Function.update_self]

theorem others (links : Links P s a it s') {b : Nat} (there : (s.items b).isSome) :
    b ≠ a ∧ s'.items b = s.items b := by
  have apart : b ≠ a := by
    rintro rfl
    rw [links.fresh] at there
    exact Bool.noConfusion there
  rw [links.items, Function.update_of_ne apart]
  exact ⟨apart, rfl⟩

variable (links : Links P s a it s') (before : Kept P s handles)
include links before

theorem held : ∀ b ∈ handles, s'.items b = s.items b := fun b member => (links.others (before.held b member)).2

theorem not_mem : a ∉ s.cache := fun member => (links.others (before.live a member)).1 rfl

theorem not_held : a ∉ handles := fun member => (links.others (before.held a member)).1 rfl

theorem linked : s'.linked = it :: s.linked := by
  have rest : s.cache.filterMap s'.items = s.linked :=
    List.filterMap_congr fun b member => (links.others (before.live b member)).2
  rw [Cache.linked, links.cache, List.filterMap_cons_some links.self, rest]

theorem kept (stored : Stored P it) (new : it.key ∉ s.linked.map Item.key) : Kept P s' handles where
  nodup := by
    rw [links.cache]
    exact List.nodup_cons.mpr ⟨links.not_mem before, before.nodup⟩
  live b member := by
    rw [links.cache, List.mem_cons] at member
    rcases member with rfl | member
    · rw [links.self]
      rfl
    · rw [(links.others (before.live b member)).2]
      exact before.live b member
  held b member := by
    rw [links.held before b member]
    exact before.held b member
  needed b there := by
    rw [links.cache, List.mem_cons]
    by_cases same : b = a
    · exact .inl (.inl same)
    · rw [links.items, Function.update_of_ne same] at there
      exact (before.needed b there).imp_left .inr
  count b there := by
    rw [links.cache, links.refCount]
    by_cases same : b = a
    · subst same
      rw [Function.update_self, List.count_cons_self, List.count_eq_zero.mpr (links.not_mem before),
        List.count_eq_zero.mpr (links.not_held before)]
      rfl
    · rw [links.items, Function.update_of_ne same] at there
      rw [Function.update_of_ne same, List.count_cons_of_ne (Ne.symm same), before.count b there]
  stored b it' there := by
    by_cases same : b = a
    · subst same
      rw [links.self] at there
      cases there
      exact stored
    · rw [links.items, Function.update_of_ne same] at there
      exact before.stored b it' there
  keys := by
    rw [links.linked before, List.map_cons]
    exact List.nodup_cons.mpr ⟨new, before.keys⟩
  bytes := by
    rw [links.bytes, links.linked before, List.map_cons, List.sum_cons, before.bytes, add_comm]

theorem contents : s'.contents = Function.update s.contents it.key (some it.entry) := by
  funext key
  rw [Cache.contents, links.linked before]
  by_cases same : key = it.key
  · subst same
    rw [Function.update_self, named_cons_self]
    rfl
  · rw [Function.update_of_ne same, named_cons_of_ne (Ne.symm same)]
    rfl

theorem timed (timed : Timed s []) : Timed s' [] where
  nodup := by
    rw [links.alive]
    split
    · exact List.nodup_cons.mpr ⟨fun listed => links.not_mem before ((timed.mem a).mp listed).1, timed.nodup⟩
    · exact timed.nodup
  mem b := by
    have listed : b ∈ s'.alive ↔ (b = a ∧ everExpires it.expiry = true) ∨ b ∈ s.alive := by
      rw [links.alive]
      split
      case isTrue expires => simp [expires]
      case isFalse never => simp [never]
    rw [listed, timed.mem, links.cache, links.items]
    by_cases same : b = a
    · subst same
      simp [links.not_mem before]
    · simp [same]

end Links

/-! ## Holding -/

section Holding

variable {s : Cache} {handles : List Nat} {a : Nat}

/-- Another handle. -/
theorem Kept.addRef (kept : Kept P s handles) (there : (s.items a).isSome)
    (few : (a :: handles).count a < 2 ^ 16 - 1) :
    ∃ s', s.addRef a = .ok s' ∧ Kept P s' (a :: handles) ∧ s'.items = s.items ∧ s'.cache = s.cache ∧
      s'.alive = s.alive ∧ s'.stats = s.stats := by
  obtain ⟨it, same⟩ := Option.isSome_iff_exists.mp there
  refine ⟨{ s with refCount := Function.update s.refCount a (s.refCount a + 1) }, ?_, ?_, rfl, rfl, rfl, rfl⟩
  · rw [Cache.addRef, Cache.deref, same]
    rfl
  · refine ⟨kept.nodup, kept.live, ?_, ?_, ?_, kept.stored, kept.keys, kept.bytes⟩
    · rintro b (_ | ⟨_, member⟩)
      · exact there
      · exact kept.held b member
    · exact fun b there => (kept.needed b there).imp_right (List.mem_cons_of_mem a)
    · intro b there
      have count := kept.count b there
      by_cases here : b = a
      · subst here
        have once : s.cache.count b ≤ 1 := List.nodup_iff_count_le_one.mp kept.nodup b
        rw [List.count_cons_self] at few
        have one : (1 : BitVec 16).toNat = 1 := rfl
        simp only [Function.update_self, BitVec.toNat_add, one, List.count_cons_self]
        omega
      · simp only [Function.update_of_ne here, List.count_cons_of_ne (Ne.symm here)]
        exact count

theorem Kept.needed_erase (kept : Kept P s handles) {b : Nat} (apart : b ≠ a) (there : (s.items b).isSome) :
    b ∈ s.cache ∨ b ∈ handles.erase a :=
  (kept.needed b there).imp_right (List.mem_erase_of_ne apart).mpr

theorem Kept.count_erase (kept : Kept P s handles) {b : Nat} (apart : b ≠ a) (there : (s.items b).isSome) :
    (s.refCount b).toNat = s.cache.count b + (handles.erase a).count b := by
  rw [List.count_erase_of_ne apart]
  exact kept.count b there

theorem Kept.count_release (kept : Kept P s handles) (member : a ∈ handles) :
    (s.refCount a - 1).toNat = s.cache.count a + (handles.erase a).count a := by
  have count := kept.count a (kept.held a member)
  have holders : 0 < handles.count a := List.count_pos_iff.mpr member
  have one : (1 : BitVec 16).toNat = 1 := rfl
  rw [List.count_erase_self, BitVec.toNat_sub_of_le (by rw [BitVec.le_def, one]; omega), one]
  omega

/-- An item is freed that is not linked and has lost its only handle. -/
theorem Kept.free (kept : Kept P s handles) (unlinked : a ∉ s.cache) (released : a ∉ handles.erase a) :
    Kept P { s with items := Function.update s.items a none, refCount := Function.update s.refCount a 0 }
      (handles.erase a) := by
  have apart : ∀ b ∈ s.cache, b ≠ a := fun b member here => unlinked (here ▸ member)
  have linked : s.cache.filterMap (Function.update s.items a none) = s.linked :=
    List.filterMap_congr fun b member => Function.update_of_ne (apart b member) _ _
  have still {b : Nat} (there : (Function.update s.items a none b).isSome) : b ≠ a ∧ (s.items b).isSome := by
    by_cases here : b = a
    · subst here
      rw [Function.update_self] at there
      exact Bool.noConfusion there
    · rw [Function.update_of_ne here] at there
      exact ⟨here, there⟩
  refine ⟨kept.nodup, ?_, ?_, ?_, ?_, ?_, ?_, ?_⟩
  · intro b member
    simp only [Function.update_of_ne (apart b member)]
    exact kept.live b member
  · intro b member
    have here : b ≠ a := fun here => released (here ▸ member)
    simp only [Function.update_of_ne here]
    exact kept.held b (List.mem_of_mem_erase member)
  · intro b there
    obtain ⟨here, there⟩ := still there
    exact kept.needed_erase here there
  · intro b there
    obtain ⟨here, there⟩ := still there
    simp only [Function.update_of_ne here]
    exact kept.count_erase here there
  · intro b it there
    obtain ⟨here, -⟩ := still (Option.isSome_iff_exists.mpr ⟨it, there⟩)
    simp only [Function.update_of_ne here] at there
    exact kept.stored b it there
  · show ((s.cache.filterMap (Function.update s.items a none)).map Item.key).Nodup
    rw [linked]
    exact kept.keys
  · show _ = ((s.cache.filterMap (Function.update s.items a none)).map (itemSize P)).sum
    rw [linked]
    exact kept.bytes

/-- A handle goes, and the item stays. -/
theorem Kept.drop (kept : Kept P s handles) (member : a ∈ handles) (more : s.refCount a - 1 ≠ 0) :
    Kept P { s with refCount := Function.update s.refCount a (s.refCount a - 1) } (handles.erase a) := by
  have less := kept.count_release member
  refine ⟨kept.nodup, kept.live, fun b member => kept.held b (List.mem_of_mem_erase member), ?_, ?_,
    kept.stored, kept.keys, kept.bytes⟩
  · intro b there
    by_cases here : b = a
    · subst here
      by_contra unneeded
      obtain ⟨unlinked, released⟩ := not_or.mp unneeded
      rw [List.count_eq_zero.mpr unlinked, List.count_eq_zero.mpr released] at less
      exact more (BitVec.eq_of_toNat_eq less)
    · exact kept.needed_erase here there
  · intro b there
    by_cases here : b = a
    · subst here
      simp only [Function.update_self]
      exact less
    · simp only [Function.update_of_ne here]
      exact kept.count_erase here there

/-- A handle less; the last one frees an item that is not linked. -/
theorem Kept.release (kept : Kept P s handles) (member : a ∈ handles) :
    ∃ s', s.release a = .ok s' ∧ Kept P s' (handles.erase a) ∧ (∀ b ∈ s.cache, s'.items b = s.items b) ∧
      (∀ b ∈ handles.erase a, s'.items b = s.items b) ∧ s'.cache = s.cache ∧ s'.alive = s.alive ∧
      s'.stats = s.stats := by
  obtain ⟨it, same⟩ := Option.isSome_iff_exists.mp (kept.held a member)
  by_cases last : s.refCount a - 1 = 0
  · -- Nobody holds it, and it is not linked.
    have less := kept.count_release member
    rw [last] at less
    have zero : (0 : BitVec 16).toNat = 0 := rfl
    have unlinked : a ∉ s.cache := List.count_eq_zero.mp (by omega)
    have released : a ∉ handles.erase a := List.count_eq_zero.mp (by omega)
    refine ⟨_, ?_, kept.free unlinked released, ?_, ?_, rfl, rfl, rfl⟩
    · rw [Cache.release, Cache.deref, same]
      show Except.ok (if Function.update s.refCount a (s.refCount a - 1) a = 0 then _ else _) = _
      rw [last, Function.update_self, if_pos rfl]
      rfl
    · exact fun b member => Function.update_of_ne (fun here : b = a => unlinked (here ▸ member)) _ _
    · exact fun b member => Function.update_of_ne (fun here : b = a => released (here ▸ member)) _ _
  · refine ⟨_, ?_, kept.drop member last, fun _ _ => rfl, fun _ _ => rfl, rfl, rfl, rfl⟩
    rw [Cache.release, Cache.deref, same]
    show Except.ok (if Function.update s.refCount a (s.refCount a - 1) a = 0 then _ else _) = _
    rw [Function.update_self, if_neg last]

end Holding

end Itaro.Engine
