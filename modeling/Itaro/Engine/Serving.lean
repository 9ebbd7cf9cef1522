/-
# Engine.Serving -- memcache.cc: what the operations do to the cache

Each operation of a sound cache ends in a sound cache, answers what a store answers and
does to the contents what a step of the store does (`Serves`); or it ends in a fault,
and the only ones are those of the allocator: it has broken a promise, or it has chosen
an item that somebody holds (`Broken`).  Evicting, overriding and adding come first; the
operations are put together from them.
-/
import Itaro.Engine.Items
import Mathlib.Tactic.LinearCombination

namespace Itaro.Engine

set_option autoImplicit false

open Theory

variable {P : Platform}

/-- What the statistics have counted in and out, less what is there. -/
def Cache.balance (s : Cache) : BitVec 64 :=
  s.stats.setAdds - s.stats.deleteHits - s.stats.expired - s.stats.evicted - BitVec.ofNat 64 s.cache.length

def Cache.entryAt (s : Cache) (a : Nat) : Option Entry := (s.items a).map Item.entry

structure Sound (P : Platform) (s : Cache) (handles : List Nat) : Prop where
  kept : Kept P s handles
  timed : Timed s []

theorem sound_new : Sound P .new [] := ⟨kept_new, timed_new⟩

theorem Sound.tally {s : Cache} {handles : List Nat} (sound : Sound P s handles)
    {count : CacheStats → CacheStats} (bytes : (count s.stats).bytes = s.stats.bytes) :
    Sound P (s.tally count) handles where
  kept := { sound.kept with bytes := bytes.trans sound.kept.bytes }
  timed := ⟨sound.timed.nodup, sound.timed.mem⟩

/-! ## Taking out -/

/-- The faults that are the allocator's. -/
def Broken (victims handles : List Nat) (f : Fault) : Prop :=
  f = .slab ∨ (f = .unlinked ∧ ∃ a ∈ victims, a ∈ handles)

section Leaving

variable {s : Cache} {handles popped : List Nat} {a : Nat}

/-- `erase` up to the release. -/
def Cache.dropped (P : Platform) (s : Cache) (a : Nat) (it : Item) : Cache :=
  { s with
    cache := s.cache.erase a
    alive := s.alive.erase a
    stats.bytes := s.stats.bytes + -itemSize P it }

theorem Cache.erase_eq {it : Item} (timed : Timed s popped) (member : a ∈ s.cache) (there : s.items a = some it)
    {listed : Bool} (way : listed = true ↔ a ∉ popped) (rel : Bool) :
    s.erase P true listed rel a = if rel then (s.dropped P a it).release a else .ok (s.dropped P a it) := by
  have listing : a ∈ s.alive ↔ (listed && everExpires it.expiry) = true := by
    rw [timed.mem, there, Bool.and_eq_true, way, Option.any_some]
    exact and_iff_right member
  have unlinked : s.unlink a = .ok { s with cache := s.cache.erase a } := if_pos member
  unfold erase deref
  by_cases expires : (listed && everExpires it.expiry) = true
  · have unlisted : unlist { s with cache := s.cache.erase a } a =
        .ok { s with cache := s.cache.erase a, alive := s.alive.erase a } := if_pos (listing.mpr expires)
    simp only [there, if_pos, unlinked, bind, Except.bind, expires, unlisted]
    rfl
  · have same : s.alive.erase a = s.alive := List.erase_of_not_mem (mt listing.mp expires)
    simp only [there, if_pos, unlinked, bind, Except.bind, expires, dropped, same]
    rfl

theorem Cache.erase_drops (kept : Kept P s handles) (timed : Timed s popped) (member : a ∈ s.cache)
    (listed : Bool) (way : listed = true ↔ a ∉ popped) :
    ∃ it s', s.erase P true listed true a = .ok s' ∧ Drops P handles s a it s' ∧
      s'.stats = { s.stats with bytes := s.stats.bytes + -itemSize P it } := by
  have live := kept.live a member
  obtain ⟨it, there⟩ := Option.isSome_iff_exists.mp live
  have count := kept.count a live
  rw [List.count_eq_one_of_mem kept.nodup member] at count
  have one : (1 : BitVec 16).toNat = 1 := rfl
  have less : (s.refCount a - 1).toNat = handles.count a := by
    rw [BitVec.toNat_sub_of_le (by rw [BitVec.le_def, one]; omega), one]
    omega
  have released : (s.dropped P a it).release a = .ok (
      if s.refCount a - 1 = 0 then { s.dropped P a it with
        items := Function.update s.items a none
        refCount := Function.update s.refCount a (s.refCount a - 1) }
      else { s.dropped P a it with refCount := Function.update s.refCount a (s.refCount a - 1) }) := by
    rw [release, deref]
    simp only [dropped, there]
    show Except.ok (if Function.update s.refCount a (s.refCount a - 1) a = 0 then _ else _) = _
    rw [Function.update_self]
    rfl
  rw [erase_eq timed member there way, if_pos rfl, released]
  by_cases last : s.refCount a - 1 = 0
  · rw [last] at less
    have unheld : a ∉ handles := List.count_eq_zero.mp less.symm
    rw [if_pos last]
    refine ⟨it, _, rfl, ?_, rfl⟩
    refine ⟨member, there, rfl, rfl, ?_, fun _ => Function.update_self .., fun held => absurd held unheld, rfl⟩
    exact fun b apart => ⟨Function.update_of_ne apart .., Function.update_of_ne apart ..⟩
  · have held : a ∈ handles := by
      by_contra unheld
      rw [List.count_eq_zero.mpr unheld] at less
      exact last (BitVec.eq_of_toNat_eq less)
    rw [if_neg last]
    refine ⟨it, _, rfl, ?_, rfl⟩
    refine ⟨member, there, rfl, rfl, ?_, fun unheld => absurd held unheld, fun _ => ⟨there, ?_⟩, rfl⟩
    · exact fun b apart => ⟨rfl, Function.update_of_ne apart ..⟩
    · simp only [Function.update_self]
      exact less

/-- An unlocked item is linked and held by nobody, or held once and not linked. -/
theorem Cache.evict_ends (kept : Kept P s handles) (timed : Timed s []) :
    Ends (s.evict P a) (fun s' => a ∉ handles ∧ ∃ it, Drops P handles s a it s' ∧
      s'.stats = { s.stats with bytes := s.stats.bytes + -itemSize P it, evicted := s.stats.evicted + 1 })
      (Broken [a] handles) := by
  rw [evict]
  split
  case isFalse => exact .inl rfl
  case isTrue unlocked =>
      obtain ⟨live, one⟩ := unlocked
      obtain ⟨it, there⟩ := Option.isSome_iff_exists.mp live
      have count := kept.count a live
      rw [one] at count
      by_cases member : a ∈ s.cache
      · rw [List.count_eq_one_of_mem kept.nodup member] at count
        have unheld : a ∉ handles := List.count_eq_zero.mp (Nat.add_left_cancel count).symm
        refine Ends.bind_of_ok (erase_eq timed member there (iff_of_true rfl List.not_mem_nil) false) ?_
        refine ⟨unheld, it, ⟨member, there, rfl, rfl, ?_, ?_, fun held => absurd held unheld, rfl⟩, rfl⟩
        · exact fun b apart => ⟨Function.update_of_ne apart .., rfl⟩
        · exact fun _ => Function.update_self ..
      · have held : a ∈ handles := (kept.needed a live).resolve_left member
        have fault : s.erase P true true false a = .error .unlinked := by
          rw [erase, deref, there]
          show (if true = true then s.unlink a else pure s) >>= _ = _
          rw [if_pos rfl, unlink, if_neg member]
          rfl
        rw [fault]
        exact .inr ⟨rfl, a, List.mem_singleton_self a, held⟩

end Leaving

/-! ## Evicting -/

theorem without_nil (m : Store) : m.without [] = m := funext fun _ => if_neg List.not_mem_nil

theorem update_without (m : Store) (lost : List Bytes) (key : Bytes) :
    Function.update (m.without lost) key none = m.without (key :: lost) := by
  funext other
  by_cases same : other = key
  · simp [same, Store.without]
  · simp [same, Store.without]

theorem without_congr (m : Store) {lost lost' : List Bytes} (same : ∀ key, key ∈ lost ↔ key ∈ lost') :
    m.without lost = m.without lost' := by
  funext key
  simp only [Store.without, same]

/-- The keys of these items. -/
def Cache.keys (s : Cache) (addrs : List Nat) : List Bytes := addrs.filterMap fun a => (s.items a).map Item.key

theorem Cache.keys_append (s : Cache) (front back : List Nat) : s.keys (front ++ back) = s.keys front ++ s.keys back :=
  List.filterMap_append

theorem keys_congr {s s' : Cache} {addrs : List Nat} (same : ∀ a ∈ addrs, s'.items a = s.items a) :
    s'.keys addrs = s.keys addrs :=
  List.filterMap_congr fun a member => by rw [same a member]

/-- The victims, which were cached and nobody holds, are gone. -/
structure Evicts (P : Platform) (handles victims : List Nat) (s s' : Cache) : Prop where
  sound : Sound P s' handles
  held : ∀ a ∈ handles, s'.items a = s.items a
  cached : ∀ a ∈ victims, a ∈ s.cache
  items : ∀ a ∈ s'.cache, a ∈ s.cache ∧ s'.items a = s.items a
  contents : s'.contents = s.contents.without (s.keys victims)
  balance : s'.balance = s.balance

section Creating

variable {s s' : Cache} {handles victims : List Nat}

theorem Evicts.refl (sound : Sound P s handles) : Evicts P handles [] s s where
  sound := sound
  held _ _ := rfl
  cached _ member := absurd member List.not_mem_nil
  items _ member := ⟨member, rfl⟩
  contents := (without_nil _).symm
  balance := rfl

/-- What was not in the store is not there after an eviction either. -/
theorem Evicts.absent {key : Bytes} (evicts : Evicts P handles victims s s') (absent : s.contents key = none) :
    s'.contents key = none := by
  rw [evicts.contents, Store.without, absent, ite_self]

/-- Only what was in the store is lost. -/
theorem Evicts.not_mem_keys {key : Bytes} (evicts : Evicts P handles victims s s') (kept : Kept P s handles)
    (absent : s.contents key = none) : key ∉ s.keys victims := by
  intro member
  obtain ⟨a, victim, named⟩ := List.mem_filterMap.mp member
  obtain ⟨it, there, rfl⟩ := Option.map_eq_some_iff.mp named
  rw [kept.contents_of_mem (evicts.cached a victim) there] at absent
  cases absent

theorem Drops.balance {a : Nat} {it : Item} (drops : Drops P handles s a it s') (more : BitVec 64)
    (adds : s'.stats.setAdds = s.stats.setAdds)
    (gone : s'.stats.deleteHits + s'.stats.expired + s'.stats.evicted =
      s.stats.deleteHits + s.stats.expired + s.stats.evicted + more) :
    s'.balance = s.balance + 1 - more := by
  have length : BitVec.ofNat 64 s.cache.length = BitVec.ofNat 64 s'.cache.length + 1 := by
    rw [← drops.length, BitVec.ofNat_add]
    rfl
  rw [Cache.balance, Cache.balance, adds, length]
  generalize BitVec.ofNat 64 s'.cache.length = n at *
  linear_combination -gone

/-- One victim more. -/
theorem Evicts.snoc {a : Nat} {it : Item} {t : Cache} (evicts : Evicts P handles victims s t)
    (drops : Drops P handles t a it s') (stats : s'.stats = { t.stats with
      bytes := t.stats.bytes + -itemSize P it, evicted := t.stats.evicted + 1 }) :
    Evicts P handles (victims ++ [a]) s s' where
  sound := ⟨drops.kept evicts.sound.kept, drops.timed evicts.sound.kept.nodup evicts.sound.timed fun _ _ => Iff.rfl⟩
  held b held := (drops.held b held).trans (evicts.held b held)
  cached b member := by
    rcases List.mem_append.mp member with earlier | last
    · exact evicts.cached b earlier
    · cases List.mem_singleton.mp last
      exact (evicts.items a drops.member).1
  items b member := by
    rw [drops.cache, evicts.sound.kept.nodup.mem_erase_iff] at member
    obtain ⟨cached, same⟩ := evicts.items b member.2
    exact ⟨cached, (drops.others b member.1).1.trans same⟩
  contents := by
    have there : s.items a = some it := (evicts.items a drops.member).2.symm.trans drops.there
    have named : s.keys [a] = [it.key] := by
      rw [Cache.keys, List.filterMap_cons, there]
      rfl
    rw [drops.contents evicts.sound.kept, evicts.contents, update_without]
    refine without_congr _ fun key => ?_
    rw [Cache.keys_append, named, List.mem_append, List.mem_cons, List.mem_singleton]
    exact or_comm
  balance := by
    rw [drops.balance 1 (by rw [stats]) (by rw [stats]; ring), evicts.balance]
    exact add_sub_cancel_right _ _

/-- The victims of a grant, one after the other. -/
theorem evict_all_ends (sound : Sound P s handles) (victims : List Nat) :
    Ends (victims.foldlM (Cache.evict P) s)
      (fun s' => (∀ a ∈ victims, a ∉ handles) ∧ Evicts P handles victims s s') (Broken victims handles) := by
  refine Ends.mono (Ends.foldlM
    (I := fun left t => ∃ front, victims = front ++ left ∧ (∀ a ∈ front, a ∉ handles) ∧ Evicts P handles front s t)
    ⟨[], rfl, fun _ member => absurd member List.not_mem_nil, .refl sound⟩ ?_) ?_ fun _ broken => broken
  · rintro a left t ⟨front, all, unheld, evicts⟩
    have victim : a ∈ victims := all ▸ List.mem_append_right _ List.mem_cons_self
    refine (Cache.evict_ends evicts.sound.kept evicts.sound.timed).mono ?_ ?_
    · rintro t' ⟨free, it, drops, stats⟩
      refine ⟨front ++ [a], by rw [all, List.append_assoc]; rfl, ?_, evicts.snoc drops stats⟩
      intro b member
      rcases List.mem_append.mp member with member | member
      · exact unheld b member
      · cases List.mem_singleton.mp member
        exact free
    · rintro f (slab | ⟨unlinked, b, member, held⟩)
      · exact .inl slab
      · cases List.mem_singleton.mp member
        exact .inr ⟨unlinked, a, victim, held⟩
  · rintro t ⟨front, all, unheld, evicts⟩
    rw [List.append_nil] at all
    exact all ▸ ⟨unheld, evicts⟩

/-- The new item is there, and neither linked nor counted. -/
def Creates (P : Platform) (handles victims : List Nat) (ins : ItemInsertionData) (version : BitVec 64) (s : Cache) :
    Cache × Option Nat → Prop
  | (s', none) => Evicts P handles victims s s'
  | (s', some a) => ∃ t fresh, Evicts P handles victims s t ∧ t.items a = none ∧ s' = { t with
      items := Function.update t.items a (some (.new P fresh ins version))
      refCount := Function.update t.refCount a 0 }

theorem Creates.cached {ins : ItemInsertionData} {version : BitVec 64} {r : Cache × Option Nat}
    (creates : Creates P handles victims ins version s r) : ∀ a ∈ victims, a ∈ s.cache := by
  obtain ⟨s', place⟩ := r
  cases place with
  | none => exact Evicts.cached creates
  | some a =>
      obtain ⟨t, fresh, evicts, -⟩ := creates
      exact evicts.cached

theorem create_ends (sound : Sound P s handles) (grant : Grant) (ins : ItemInsertionData) (version : BitVec 64) :
    Ends (s.create P grant ins version)
      (fun r => (∀ a ∈ grant.victims, a ∉ handles) ∧ Creates P handles grant.victims ins version s r)
      (Broken grant.victims handles) := by
  refine (evict_all_ends sound grant.victims).bind ?_
  rintro t ⟨unheld, evicts⟩
  cases grant.place with
  | none => exact ⟨unheld, evicts⟩
  | some place =>
      obtain ⟨a, fresh⟩ := place
      show Ends (if (t.items a).isSome = true then _ else _) _ _
      split
      case isTrue => exact .inl rfl
      case isFalse free =>
          exact ⟨unheld, t, fresh, evicts, Option.not_isSome_iff_eq_none.mp free, rfl⟩

end Creating

/-! ## Putting in -/

/-- What came of storing an entry: it is there, or its key is lost for want of memory; the
victims are lost as well.  `paid` is 1 if an item was taken out for it. -/
def Stores (P : Platform) (handles victims : List Nat) (s : Cache) (key : Bytes) (e : Entry) (paid : BitVec 64) :
    Cache × Option Nat → Prop
  | (s', none) => Sound P s' handles ∧ (∀ a ∈ handles, s'.items a = s.items a) ∧
      s'.contents = s.contents.without (key :: s.keys victims)
  | (s', some a) => Sound P s' handles ∧ (∀ a ∈ handles, s'.items a = s.items a) ∧
      (key ∉ s.keys victims ∧ s'.contents = Function.update (s.contents.without (s.keys victims)) key (some e)) ∧
      s'.entryAt a = some e ∧ s'.balance + 1 = s.balance + paid

section Storing

variable {s t : Cache} {handles victims : List Nat} {a : Nat} {ins : ItemInsertionData} {version : BitVec 64}

theorem Cache.listAlive_eq {expiry : BitVec 32} : t.listAlive expiry a =
    { t with alive := if everExpires expiry then a :: t.alive else t.alive } := by
  unfold listAlive
  split <;> rfl

/-- The item is linked: there is no other of its key. -/
theorem insert_links (fresh : Mem) (version : BitVec 64) (kept : Kept P t handles) (free : t.items a = none) (fits : ins.Fits)
    (absent : t.contents ins.key = none) :
    ∃ s₁ s₂, Cache.addRef { t with
        items := Function.update t.items a (some (.new P fresh ins version))
        refCount := Function.update t.refCount a 0 } a = .ok s₁ ∧
      s₁.insert a = .ok (s₂, true) ∧
      Links P t a (.new P fresh ins version) ((s₂.listAlive ins.expiry a).addBytes (insertionSize P ins)) ∧
      ((s₂.listAlive ins.expiry a).addBytes (insertionSize P ins)).stats =
        { t.stats with bytes := t.stats.bytes + insertionSize P ins } := by
  have stored : Stored P (.new P fresh ins version) := ⟨fresh, ins, version, fits, rfl⟩
  have added : Cache.addRef { t with
      items := Function.update t.items a (some (.new P fresh ins version))
      refCount := Function.update t.refCount a 0 } a = .ok { t with
      items := Function.update t.items a (some (.new P fresh ins version))
      refCount := Function.update t.refCount a 1 } := by
    simp only [Cache.addRef, Cache.deref, Function.update_self, Function.update_idem]
    rfl
  have unlike : t.cache.any (fun b => (Function.update t.items a (some (Item.new P fresh ins version)) b).any
      (Item.same (.new P fresh ins version))) = false := by
    rw [List.any_eq_false]
    intro b member
    obtain ⟨it, there⟩ := Option.isSome_iff_exists.mp (kept.live b member)
    have apart : b ≠ a := by
      rintro rfl
      rw [free] at there
      cases there
    rw [Function.update_of_ne apart, there, Option.any_some, stored.same (kept.stored b it there), Item.key_new fits,
      decide_eq_true_eq]
    intro same
    rw [same, kept.contents_of_mem member there] at absent
    cases absent
  refine ⟨_, { t with
    items := Function.update t.items a (some (.new P fresh ins version))
    refCount := Function.update t.refCount a 1
    cache := a :: t.cache }, added, ?_, ?_, ?_⟩
  · simp only [Cache.insert, Cache.deref, Function.update_self]
    show (if _ then _ else _) = _
    rw [if_neg (by rw [unlike]; exact Bool.false_ne_true)]
    rfl
  · rw [Cache.listAlive_eq]
    exact ⟨free, rfl, rfl, rfl, rfl, congrArg (t.stats.bytes + ·) (itemSize_new fits).symm⟩
  · rw [Cache.listAlive_eq]
    rfl

/-- From what `create` has left to the entry. -/
theorem stores_of_links {fresh : Mem} {s₁ : Cache} (evicts : Evicts P handles victims s t)
    (before : Kept P s handles) (fits : ins.Fits) (absent : s.contents ins.key = none)
    (links : Links P t a (.new P fresh ins version) s₁)
    (stats : s₁.stats = { t.stats with bytes := t.stats.bytes + insertionSize P ins }) :
    Stores P handles victims s ins.key (ins.entry version) 0 (s₁, some a) := by
  have kept := evicts.sound.kept
  have gone : t.contents ins.key = none := evicts.absent absent
  have new : (Item.new P fresh ins version).key ∉ t.linked.map Item.key := by
    rw [Item.key_new fits]
    exact Cache.contents_eq_none.mp gone
  refine ⟨⟨links.kept kept ⟨fresh, ins, version, fits, rfl⟩ new, links.timed kept evicts.sound.timed⟩, ?_, ?_, ?_, ?_⟩
  · exact fun b member => (links.held kept b member).trans (evicts.held b member)
  · refine ⟨evicts.not_mem_keys before absent, ?_⟩
    rw [links.contents kept, evicts.contents, Item.key_new fits, Item.entry_new fits]
  · rw [Cache.entryAt, links.self, Option.map_some, Item.entry_new fits]
  · have length : BitVec.ofNat 64 s₁.cache.length = BitVec.ofNat 64 t.cache.length + 1 := by
      rw [links.cache, List.length_cons, BitVec.ofNat_add]
      rfl
    rw [← evicts.balance, Cache.balance, Cache.balance, stats, length]
    ring

/-- There was no memory, and there was no item of the key. -/
theorem stores_of_evicts {key : Bytes} (e : Entry) (evicts : Evicts P handles victims s t)
    (absent : s.contents key = none) :
    Stores P handles victims s key e 0 (t, none) := by
  refine ⟨evicts.sound, evicts.held, ?_⟩
  rw [evicts.contents, ← update_without, Function.update_eq_self_iff.mpr]
  rw [Store.without, absent, ite_self]

/-- The item that was taken out for it belongs to what was done. -/
theorem Stores.of_drops {old : Item} {e : Entry} {r : Cache × Option Nat} (drops : Drops P handles s a old t)
    (kept : Kept P s handles) (balance : t.balance = s.balance + 1) (cached : ∀ b ∈ victims, b ∈ t.cache)
    (stores : Stores P handles victims t old.key e 0 r) : Stores P handles victims s old.key e 1 r := by
  have keys : t.keys victims = s.keys victims := by
    refine keys_congr fun b victim => (drops.others b ?_).1
    have remains := cached b victim
    rw [drops.cache, kept.nodup.mem_erase_iff] at remains
    exact remains.1
  have removed : t.contents.without (s.keys victims) = s.contents.without (old.key :: s.keys victims) := by
    rw [drops.contents kept, ← update_without]
    funext key
    by_cases same : key = old.key
    · simp [same, Store.without]
    · simp [same, Store.without]
  obtain ⟨s', place⟩ := r
  cases place with
  | none =>
      obtain ⟨sound, held, contents⟩ := stores
      refine ⟨sound, fun b member => (held b member).trans (drops.held b member), ?_⟩
      rw [contents, keys, ← update_without, removed, update_without]
      exact without_congr _ fun key => by simp
  | some b =>
      obtain ⟨sound, held, ⟨others, contents⟩, here, paid⟩ := stores
      rw [keys] at others contents
      refine ⟨sound, fun b member => (held b member).trans (drops.held b member), ⟨others, ?_⟩, here, ?_⟩
      · rw [contents, removed, ← update_without, Function.update_idem]
      · rw [paid, balance, add_zero]

/-- The buckets say nothing of the items. -/
theorem Stores.maybeRehash {key : Bytes} {e : Entry} {paid : BitVec 64}
    (stores : Stores P handles victims s key e paid (t, some a)) (room : Bool) :
    Stores P handles victims s key e paid (t.maybeRehash room, some a) := by
  unfold Cache.maybeRehash
  split
  · split
    · obtain ⟨⟨kept, timed⟩, rest⟩ := stores
      exact ⟨⟨{ kept with }, { timed with }⟩, rest⟩
    · obtain ⟨⟨kept, timed⟩, rest⟩ := stores
      exact ⟨⟨{ kept with }, { timed with }⟩, rest⟩
  · exact stores

theorem addOverriding_ends {old : Item} (sound : Sound P s handles) (member : a ∈ s.cache)
    (there : s.items a = some old) (same : old.key = ins.key) (fits : ins.Fits) (grant : Grant) :
    Ends (s.addOverriding P grant a ins)
      (fun r => (∀ b ∈ grant.victims, b ∉ handles) ∧
        Stores P handles grant.victims s ins.key (ins.entry (old.version + 1)) 1 r)
      (Broken grant.victims handles) := by
  obtain ⟨it, s₁, erased, drops, stats⟩ := Cache.erase_drops sound.kept sound.timed member true
    (iff_of_true rfl List.not_mem_nil)
  cases there.symm.trans drops.there
  have sound₁ : Sound P s₁ handles := ⟨drops.kept sound.kept,
    drops.timed sound.kept.nodup sound.timed fun _ _ => Iff.rfl⟩
  have absent : s₁.contents ins.key = none := by
    rw [drops.contents sound.kept, same, Function.update_self]
  have balance : s₁.balance = s.balance + 1 := by
    rw [drops.balance 0 (by rw [stats]) (by rw [stats]; ring), sub_zero]
  have known : s.deref a = .ok old := by rw [Cache.deref, there]
  refine Ends.bind_of_ok known (Ends.bind_of_ok erased ((create_ends sound₁ grant ins _).bind ?_))
  rintro ⟨s', place⟩ ⟨unheld, created⟩
  refine Ends.mono ?_ (fun r
    (stores : Stores P handles grant.victims s₁ ins.key (ins.entry (old.version + 1)) 0 r) => ?_) fun _ broken => broken
  · cases place with
    | none => exact stores_of_evicts (ins.entry (old.version + 1)) created absent
    | some b =>
        obtain ⟨t, fresh, evicts, free, rfl⟩ := created
        have gone : t.contents ins.key = none := evicts.absent absent
        obtain ⟨s₂, s₃, added, inserted, links, stats⟩ :=
          insert_links fresh (old.version + 1) evicts.sound.kept free fits gone
        refine Ends.bind_of_ok added (Ends.bind_of_ok inserted ?_)
        exact stores_of_links evicts sound₁.kept fits absent links stats
  · refine ⟨unheld, ?_⟩
    rw [← same] at stores ⊢
    exact stores.of_drops drops sound.kept balance created.cached

theorem addNew_ends (sound : Sound P s handles) (absent : s.contents ins.key = none) (fits : ins.Fits)
    (grant : Grant) (room : Bool) :
    Ends (s.addNew P grant room ins)
      (fun r => (∀ b ∈ grant.victims, b ∉ handles) ∧ Stores P handles grant.victims s ins.key (ins.entry 1) 0 r)
      (Broken grant.victims handles) := by
  refine (create_ends sound grant ins 1).bind ?_
  rintro ⟨s', place⟩ ⟨unheld, created⟩
  cases place with
  | none => exact ⟨unheld, stores_of_evicts (ins.entry 1) created absent⟩
  | some b =>
      obtain ⟨t, fresh, evicts, free, rfl⟩ := created
      have gone : t.contents ins.key = none := evicts.absent absent
      obtain ⟨s₂, s₃, added, inserted, links, stats⟩ :=
        insert_links fresh 1 evicts.sound.kept free fits gone
      refine Ends.bind_of_ok added (Ends.bind_of_ok inserted ⟨unheld, ?_⟩)
      exact (stores_of_links evicts sound.kept fits absent links stats).maybeRehash room

end Storing

/-! ## Answers -/

namespace Reply

variable {ι κ : Type}

/-- The answer with what is seen of its item. -/
def look (see : ι → Option κ) : Reply ι → Reply κ
  | .done => .done
  | .flag b => .flag b
  | .item it => .item (it.bind see)
  | .cas result => .cas result
  | .counter it changed => .counter (it.bind see) changed
  | .stats c => .stats c
  | .badAlloc => .badAlloc

/-- The `item_ptr` in an answer. -/
def handles : Reply ι → List ι
  | .item (some it) => [it]
  | .counter (some it) _ => [it]
  | _ => []

end Reply

/-- The request puts an entry, and needs memory for it. -/
def Allocates (P : Platform) (m : Store) (r : Request) : Prop :=
  ∃ key, r.key? = some key ∧ (Entry.serve P (m key) r).2.isPut = true

theorem not_allocates {m : Store} {r : Request} {key : Bytes} {reply : Reply Entry} {change : Change}
    (about : r.key? = some key) (serve : Entry.serve P (m key) r = (reply, change)) (quiet : change.isPut = false) :
    ¬ Allocates P m r := by
  rintro ⟨key', about', put⟩
  cases about.symm.trans about'
  rw [serve, quiet] at put
  exact Bool.noConfusion put

/-- Of the keys a request is not about, those of the victims are lost if it needs memory, and
no others. -/
structure Loses (P : Platform) (victims : List Nat) (s : Cache) (r : Request) (s' : Cache) : Prop where
  evicted : Allocates P s.contents r → ∀ key, r.key? ≠ some key →
    s'.contents key = s.contents.without (s.keys victims) key
  quiet : ¬ Allocates P s.contents r → r ≠ .flushAll → ∀ key, r.key? ≠ some key → s'.contents key = s.contents key

/-- What came of a request: a sound cache, in which what was held is as it was, and a step of
the store.  Items that are not counted are lost to a flush or for want of memory only. -/
structure Serves (P : Platform) (handles victims : List Nat) (s : Cache) (r : Request) (p : Cache × Reply Nat) : Prop where
  sound : Sound P p.1 (p.2.handles ++ handles)
  held : ∀ a ∈ handles, p.1.items a = s.items a
  step : Store.Step P s.contents (.request r (p.2.look p.1.entryAt)) p.1.contents
  balance : p.2 ≠ .badAlloc → r ≠ .flushAll → p.1.balance = s.balance
  loses : Loses P victims s r p.1

/-- What is counted is neither in the balance nor the size. -/
def Neutral (count : CacheStats → CacheStats) : Prop :=
  ∀ c, (count c).bytes = c.bytes ∧ (count c).setAdds = c.setAdds ∧ (count c).deleteHits = c.deleteHits ∧
    (count c).expired = c.expired ∧ (count c).evicted = c.evicted

section Serving

variable {s s₀ s' t : Cache} {handles victims : List Nat} {r : Request} {key : Bytes} {a : Nat} {e : Entry}
  {reply : Reply Nat} {shown : Reply Entry} {paid : BitVec 64}

theorem Neutral.balance {count : CacheStats → CacheStats} (neutral : Neutral count) :
    (s.tally count).balance = s.balance := by
  obtain ⟨-, adds, deletes, expired, evicted⟩ := neutral s.stats
  simp only [Cache.balance, Cache.tally, adds, deletes, expired, evicted]

theorem Neutral.sound {count : CacheStats → CacheStats} (neutral : Neutral count) (sound : Sound P s handles) :
    Sound P (s.tally count) handles := sound.tally (neutral s.stats).1

theorem contents_congr (items : t.items = s.items) (cache : t.cache = s.cache) : t.contents = s.contents := by
  unfold Cache.contents Cache.linked
  rw [items, cache]

theorem Serves.keep (about : r.key? = some key) (serve : Entry.serve P (s.contents key) r = (shown, .keep))
    (sound : Sound P t (reply.handles ++ handles)) (items : t.items = s.items) (cache : t.cache = s.cache)
    (look : reply.look t.entryAt = shown) (balance : t.balance = s.balance) :
    Serves P handles victims s r (t, reply) where
  sound := sound
  held a _ := congrFun items a
  step := by
    have step := Store.Step.serve (P := P) (m := s.contents) about [] List.not_mem_nil fun _ => rfl
    rw [serve] at step
    rw [look, contents_congr items cache]
    rwa [without_nil] at step
  balance _ _ := balance
  loses := ⟨fun allocates => absurd allocates (not_allocates about serve rfl),
    fun _ _ key _ => congrFun (contents_congr items cache) key⟩

theorem Serves.put (stores : Stores P handles victims s₀ key e paid (s', some a)) (about : r.key? = some key)
    (serve : Entry.serve P (s.contents key) r = (shown, .put e)) (contents : s₀.contents = s.contents)
    (before : s₀.items = s.items) (sound : Sound P t (reply.handles ++ handles))
    (items : t.items = s'.items) (cache : t.cache = s'.cache) (look : reply.look t.entryAt = shown)
    (balance : t.balance = s.balance) : Serves P handles victims s r (t, reply) where
  sound := sound
  held b member := by
    rw [items, ← before]
    exact stores.2.1 b member
  step := by
    obtain ⟨-, -, ⟨others, after⟩, -⟩ := stores
    have step := Store.Step.serve (P := P) (m := s.contents) about _ others fun kept => by
      rw [serve] at kept
      exact Bool.noConfusion kept
    rw [serve] at step
    rw [look, contents_congr items cache, after, contents]
    exact step
  balance _ _ := balance
  loses := by
    refine ⟨fun _ other apart => ?_, fun quiet => absurd ⟨key, about, by rw [serve]; rfl⟩ quiet⟩
    obtain ⟨-, -, ⟨-, after⟩, -⟩ := stores
    have elsewhere : other ≠ key := fun same => apart (same ▸ about)
    rw [contents_congr items cache, after, contents, Function.update_of_ne elsewhere,
      keys_congr fun b _ => congrFun before b]

theorem Serves.badAlloc (stores : Stores P handles victims s₀ key e 0 (s', none)) (about : r.key? = some key)
    (serve : Entry.serve P (s.contents key) r = (shown, .put e)) (contents : s₀.contents = s.contents)
    (before : s₀.items = s.items) : Serves P handles victims s r (s', .badAlloc) where
  sound := stores.1
  held b member := by
    rw [← before]
    exact stores.2.1 b member
  step := by
    obtain ⟨-, -, after⟩ := stores
    have step := Store.Step.badAlloc (P := P) (m := s.contents) about (s₀.keys victims) (by rw [serve]; rfl)
    rw [← contents, ← after] at step
    rw [← contents]
    exact step
  balance thrown := absurd rfl thrown
  loses := by
    refine ⟨fun _ other apart => ?_, fun quiet => absurd ⟨key, about, by rw [serve]; rfl⟩ quiet⟩
    have elsewhere : other ≠ key := fun same => apart (same ▸ about)
    rw [stores.2.2, contents, ← update_without, Function.update_of_ne elsewhere,
      keys_congr fun b _ => congrFun before b]

/-- A handle more, in an answer. -/
theorem Sound.addRef (sound : Sound P s handles) (there : (s.items a).isSome) (few : handles.count a < 2 ^ 16 - 2) :
    ∃ t, s.addRef a = .ok t ∧ Sound P t (a :: handles) ∧ t.items = s.items ∧ t.cache = s.cache ∧
      t.balance = s.balance := by
  obtain ⟨t, added, kept, items, cache, alive, stats⟩ := sound.kept.addRef there
    (by rw [List.count_cons_self]; omega)
  refine ⟨t, added, ⟨kept, ?_⟩, items, cache, ?_⟩
  · refine ⟨alive ▸ sound.timed.nodup, ?_⟩
    rw [alive, items, cache]
    exact sound.timed.mem
  · rw [Cache.balance, Cache.balance, stats, cache]

end Serving

end Itaro.Engine
