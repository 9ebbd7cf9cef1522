/-
# Engine.CacheRuns -- memcache.cc: whole runs of a cache

A world is the cache of one shard and the `item_ptr`s that are held somewhere.  Its steps
are requests, timers, memory that is taken back and handles that are let go, in any
order; the allocator does what it likes as far as it keeps its promises.

* `contents_refines`: seen from outside, a run of the cache is a run of a store, which loses
  the keys of what is evicted.
* `references`: an item is there as long as it is cached or held, and its count is exact.
* `held_unchanged`: what is held is not freed or written, whatever happens to its key.
* `served_iff`: the one thing that can go wrong is that the allocator evicts what is held.
* `statistics_exact`: `bytes` is what is cached, and the counters account for each item.
* `cas_stored_iff`: a `cas` succeeds if and only if the key was not written since.
* `counter_exact`: `incr` and `decr` lose nothing.
-/
import Itaro.Engine.Operations
import Itaro.Engine.StoreRuns

namespace Itaro.Engine

set_option autoImplicit false

open Theory

variable {P : Platform}

structure World where
  cache : Cache
  handles : List Nat

/-- Before the first request. -/
def World.start : World := ⟨.new, []⟩

/-- `few`: no item has 2^16 - 2 holders, which its count has no room for. -/
inductive World.Step (P : Platform) : World → Act → World → Prop
  | request {w : World} {r : Request} {grant : Grant} {room : Bool} {cache : Cache} {reply : Reply Nat} (fits : r.Fits)
      (few : ∀ a, w.handles.count a < 2 ^ 16 - 2) (done : perform P grant room w.cache r = .ok (cache, reply)) :
      Step P w (.request r (reply.look cache.entryAt)) ⟨cache, reply.handles ++ w.handles⟩
  | expire {w : World} {now : Nat} {cache : Cache} (done : w.cache.expire P now = .ok cache) :
      Step P w (.expire now) ⟨cache, w.handles⟩
  | flushTimer {w : World} {cache : Cache} (armed : w.cache.flushTimer.isSome) (done : w.cache.flushAll P = .ok cache) :
      Step P w .flushTimer ⟨cache, w.handles⟩
  | reclaim {w : World} {cache : Cache} (victims : List Nat) (done : victims.foldlM (Cache.evict P) w.cache = .ok cache) :
      Step P w .reclaim ⟨cache, w.handles⟩
  | release {w : World} {cache : Cache} (a : Nat) (held : a ∈ w.handles) (done : w.cache.release a = .ok cache) :
      Step P w .release ⟨cache, w.handles.erase a⟩

/-- Nothing is flushed and no allocation fails. -/
def Act.Counted : Act → Prop
  | .request r reply => r ≠ .flushAll ∧ reply ≠ .badAlloc
  | .flushTimer => False
  | _ => True

section Steps

variable {w w' : World} {a : Act}

/-- What one step does. -/
structure Moves (P : Platform) (w : World) (a : Act) (w' : World) : Prop where
  sound : Sound P w'.cache w'.handles
  store : Store.Step P w.cache.contents a w'.cache.contents
  held : ∀ b ∈ w.handles, b ∈ w'.handles → w'.cache.items b = w.cache.items b
  balance : a.Counted → w'.cache.balance = w.cache.balance

theorem contents_of_linked {s t : Cache} (items : ∀ b ∈ s.cache, t.items b = s.items b) (cache : t.cache = s.cache) :
    t.contents = s.contents := by
  have linked : t.linked = s.linked := by
    rw [Cache.linked, cache]
    exact List.filterMap_congr items
  unfold Cache.contents
  rw [linked]

theorem World.Step.moves (sound : Sound P w.cache w.handles) (step : World.Step P w a w') : Moves P w a w' := by
  cases step with
  | @request r grant room cache reply fits few done =>
      obtain ⟨-, serves⟩ := (perform_ends sound fits few).of_ok done
      refine ⟨serves.sound, serves.step, fun b member _ => serves.held b member, fun counted => ?_⟩
      refine serves.balance (fun thrown => counted.2 ?_) counted.1
      have here : reply = .badAlloc := thrown
      rw [here]
      rfl
  | @expire now cache done =>
      obtain ⟨cache', done', sound', held, contents, balance⟩ := expire_ends sound now
      cases done'.symm.trans done
      refine ⟨sound', ?_, fun b member _ => held b member, fun _ => balance⟩
      show Store.Step P _ _ cache.contents
      rw [contents]
      exact .expire _ now
  | @flushTimer cache armed done =>
      obtain ⟨cache', done', sound', held, contents⟩ := flushAll_ends sound
      cases done'.symm.trans done
      refine ⟨sound', ?_, fun b member _ => held b member, fun counted => counted.elim⟩
      show Store.Step P _ _ cache.contents
      rw [contents]
      exact .flushTimer _
  | @reclaim cache victims done =>
      obtain ⟨-, evicts⟩ := (evict_all_ends sound victims).of_ok done
      refine ⟨evicts.sound, ?_, fun b member _ => evicts.held b member, fun _ => evicts.balance⟩
      show Store.Step P _ _ cache.contents
      rw [evicts.contents]
      exact .reclaim _ _
  | @release cache b held done =>
      obtain ⟨cache', done', kept, items, others, linked, alive, stats⟩ := sound.kept.release held
      cases done'.symm.trans done
      refine ⟨⟨kept, ?_⟩, ?_, fun b _ member => others b member, fun _ => ?_⟩
      · refine ⟨alive ▸ sound.timed.nodup, fun b => ?_⟩
        rw [alive, linked, sound.timed.mem]
        refine and_congr_right fun member => ?_
        rw [items b member]
      · show Store.Step P _ _ cache.contents
        rw [contents_of_linked items linked]
        exact .release _
      · rw [Cache.balance, Cache.balance, stats, linked]

end Steps

/-! ## A platform, and a few steps -/

/-- `boost::lexical_cast<uint64_t>` of what has no minus. -/
def lexicalCastDecimal (bytes : Bytes) : Option (BitVec 64) :=
  let digits := if bytes.head? = some 0x2b then bytes.tail else bytes
  if digits ≠ [] ∧ digits.all Cache.isdigit ∧ Cache.decimal.toNat digits < 2 ^ 64 then
    some (BitVec.ofNat 64 (Cache.decimal.toNat digits))
  else none

/-- Keys are hashed by their length. -/
def plain : Platform where
  hash key := BitVec.ofNat 64 key.length
  lexicalCast := lexicalCastDecimal
  sizeofItem := 72

theorem plain_reads (n : BitVec 64) : plain.lexicalCast (toSstring n) = some n := by
  have unsigned : (toSstring n).head? ≠ some 0x2b := by
    intro front
    exact absurd (isdigit_of_mem_toSstring (List.mem_of_head? front)) (by decide)
  have nonempty : toSstring n ≠ [] := by
    rw [toSstring_eq]
    simpa using Cache.decimal.lowFirst_ne_nil n.toNat
  have digits : (toSstring n).all Cache.isdigit = true := List.all_eq_true.mpr fun _ => isdigit_of_mem_toSstring
  show lexicalCastDecimal (toSstring n) = _
  simp only [lexicalCastDecimal, if_neg unsigned, toNat_toSstring]
  rw [if_pos ⟨nonempty, digits, n.isLt⟩, BitVec.ofNat_toNat, BitVec.setWidth_eq]

/-- "a" is 5. -/
def five : ItemInsertionData := ⟨[0x61], [0x20, 0x30, 0x20, 0x31], [0x35], 0⟩

theorem five_fits : five.Fits := ⟨by decide, by decide, by decide⟩

/-- "b" is 6. -/
def six : ItemInsertionData := ⟨[0x62], [0x20, 0x30, 0x20, 0x31], [0x36], 0⟩

theorem six_fits : six.Fits := ⟨by decide, by decide, by decide⟩

/-- What is evicted, and an address with memory for an item. -/
def grantAt (victims : List Nat) (a : Nat) : Grant := ⟨victims, some (a, fun _ => 0)⟩

/-- The cache after a request that is served. -/
def served (w : World) (r : Request) (a : Nat) : Cache :=
  match perform plain (grantAt [] a) true w.cache r with
  | .ok (cache, _) => cache
  | .error _ => w.cache

/-- "a" is set, at 8. -/
def worldSet : World := ⟨served .start (.set five) 8, []⟩

/-- And held. -/
def worldGet : World := ⟨served worldSet (.get [0x61]) 16, [8]⟩

/-- And removed. -/
def worldRemoved : World := ⟨served worldGet (.remove [0x61]) 16, [8]⟩

def worldIncr : World := ⟨served worldSet (.incr [0x61] 3) 16, [16]⟩

def worldCas : World := ⟨served worldGet (.cas five 1) 16, [8]⟩

theorem step_set : World.Step plain .start (.request (.set five) (.flag false)) worldSet := by
  have done : perform plain (grantAt [] 8) true .new (.set five) = .ok (worldSet.cache, .flag false) := rfl
  exact .request (w := .start) (r := .set five) five_fits (fun a => Nat.zero_lt_succ _) done

theorem step_get : World.Step plain worldSet (.request (.get [0x61]) (.item (some (five.entry 1)))) worldGet := by
  have done : perform plain (grantAt [] 16) true worldSet.cache (.get [0x61]) =
      .ok (worldGet.cache, .item (some 8)) := rfl
  have look : (Reply.item (some 8)).look worldGet.cache.entryAt = .item (some (five.entry 1)) := by decide +kernel
  rw [← look]
  exact .request (r := .get [0x61]) trivial (fun a => Nat.zero_lt_succ _) done

theorem few_eight (a : Nat) : [8].count a < 2 ^ 16 - 2 :=
  Nat.lt_of_le_of_lt List.count_le_length (by decide)

theorem step_remove : World.Step plain worldGet (.request (.remove [0x61]) (.flag true)) worldRemoved := by
  have done : perform plain (grantAt [] 16) true worldGet.cache (.remove [0x61]) =
      .ok (worldRemoved.cache, .flag true) := rfl
  exact .request (w := worldGet) (r := .remove [0x61]) trivial few_eight done

theorem step_incr : World.Step plain worldSet
    (.request (.incr [0x61] 3) (.counter (some ⟨five.asciiPrefix, [0x38], 0, 2⟩) true)) worldIncr := by
  have done : perform plain (grantAt [] 16) true worldSet.cache (.incr [0x61] 3) =
      .ok (worldIncr.cache, .counter (some 16) true) := rfl
  have look : (Reply.counter (some 16) true).look worldIncr.cache.entryAt =
      .counter (some ⟨five.asciiPrefix, [0x38], 0, 2⟩) true := by decide +kernel
  rw [← look]
  exact .request (r := .incr [0x61] 3) trivial (fun a => Nat.zero_lt_succ _) done

theorem step_cas : World.Step plain worldGet (.request (.cas five 1) (.cas .stored)) worldCas := by
  have done : perform plain (grantAt [] 16) true worldGet.cache (.cas five 1) =
      .ok (worldCas.cache, .cas .stored) := rfl
  exact .request (w := worldGet) (r := .cas five 1) five_fits few_eight done

theorem run_set : Run (World.Step plain) .start [.request (.set five) (.flag false)] worldSet := .single step_set

theorem run_get : Run (World.Step plain) .start
    [.request (.set five) (.flag false), .request (.get [0x61]) (.item (some (five.entry 1)))] worldGet :=
  .snoc run_set step_get

theorem run_removed : Run (World.Step plain) .start
    [.request (.set five) (.flag false), .request (.get [0x61]) (.item (some (five.entry 1))),
      .request (.remove [0x61]) (.flag true)] worldRemoved :=
  .snoc run_get step_remove

section Runs

variable {w w' : World} {acts : List Act}

theorem run_sound (run : Run (World.Step P) .start acts w) : Sound P w.cache w.handles :=
  run.invariant (I := fun w => Sound P w.cache w.handles) (fun _ _ _ sound step => (step.moves sound).sound) sound_new

/-- A run of the cache, seen as one of a store. -/
theorem refines_of_sound {step : World → Act → World → Prop} (also : Store → Act → Store → Prop)
    (sub : ∀ w a w', step w a w' → World.Step P w a w')
    (seen : ∀ w a w', step w a w' → Store.Step P w.cache.contents a w'.cache.contents →
      also w.cache.contents a w'.cache.contents)
    (sound : Sound P w.cache w.handles) (run : Run step w acts w') :
    Sound P w'.cache w'.handles ∧ Run also w.cache.contents acts w'.cache.contents := by
  induction run with
  | nil => exact ⟨sound, .nil _⟩
  | snoc run last ih =>
      have moves := (sub _ _ _ last).moves ih.1
      exact ⟨moves.sound, .snoc ih.2 (seen _ _ _ last moves.store)⟩

/-- **The cache refines the store.**  In every state it reaches, a request loses the keys of the
items that are evicted for it, and no key besides but its own; so does taking memory back. -/
theorem contents_refines (run : Run (World.Step P) .start acts w) :
    Run (Store.Step P) .empty acts w.cache.contents ∧
      (∀ {r : Request} {grant : Grant} {room : Bool} {cache : Cache} {reply : Reply Nat}, r.Fits →
        (∀ a, w.handles.count a < 2 ^ 16 - 2) → perform P grant room w.cache r = .ok (cache, reply) →
        Loses P grant.victims w.cache r cache) ∧
      ∀ {victims : List Nat} {cache : Cache}, victims.foldlM (Cache.evict P) w.cache = .ok cache →
        cache.contents = w.cache.contents.without (w.cache.keys victims) := by
  have sound := run_sound run
  refine ⟨(refines_of_sound _ (fun _ _ _ => id) (fun _ _ _ _ => id) sound_new run).2, ?_, ?_⟩
  · intro r grant room cache reply fits few done
    exact ((perform_ends sound fits few).of_ok done).2.loses
  · intro victims cache done
    exact ((evict_all_ends sound victims).of_ok done).2.contents

/-- "a" is read, or evicted for the next key. -/
theorem contents_refines_get : Run (Store.Step plain) .empty
      [.request (.set five) (.flag false), .request (.get [0x61]) (.item (some (five.entry 1)))]
      worldGet.cache.contents ∧
    ∃ cache, perform plain (grantAt [8] 16) true worldSet.cache (.set six) = .ok (cache, .flag false) ∧
      Loses plain [8] worldSet.cache (.set six) cache ∧ worldSet.cache.keys [8] = [[0x61]] := by
  obtain ⟨cache, done⟩ : ∃ cache, perform plain (grantAt [8] 16) true worldSet.cache (.set six) =
      .ok (cache, .flag false) := ⟨_, rfl⟩
  refine ⟨(contents_refines run_get).1, cache, done, ?_, by decide +kernel⟩
  exact (contents_refines run_set).2.1 (r := .set six) six_fits (fun a => Nat.zero_lt_succ _) done

/-- **Items live as long as they are needed.**  Their counts are exact, and what is unlocked
is cached and not held, or held once and no longer cached. -/
theorem references (run : Run (World.Step P) .start acts w) (a : Nat) :
    ((w.cache.items a).isSome ↔ a ∈ w.cache.cache ∨ a ∈ w.handles) ∧
      ((w.cache.items a).isSome → (w.cache.refCount a).toNat = w.cache.cache.count a + w.handles.count a) ∧
      (w.cache.Unlocked a ↔
        (a ∈ w.cache.cache ∧ a ∉ w.handles) ∨ (a ∉ w.cache.cache ∧ w.handles.count a = 1)) := by
  have kept := (run_sound run).kept
  have live : (w.cache.items a).isSome ↔ a ∈ w.cache.cache ∨ a ∈ w.handles :=
    ⟨kept.needed a, fun needed => needed.elim (kept.live a) (kept.held a)⟩
  refine ⟨live, kept.count a, ?_⟩
  have once : w.cache.cache.count a ≤ 1 := List.nodup_iff_count_le_one.mp kept.nodup a
  have counts : w.cache.Unlocked a ↔ w.cache.cache.count a + w.handles.count a = 1 := by
    constructor
    · rintro ⟨there, one⟩
      rw [← kept.count a there, one]
      rfl
    · intro one
      have there : (w.cache.items a).isSome := by
        rw [live, ← List.count_pos_iff, ← List.count_pos_iff]
        omega
      exact ⟨there, BitVec.eq_of_toNat_eq ((kept.count a there).trans one)⟩
  rw [counts, ← List.count_pos_iff, ← List.count_pos_iff]
  omega

/-- An item that is held once, and no longer cached, is unlocked. -/
theorem references_removed :
    ((worldRemoved.cache.items 8).isSome ↔ 8 ∈ worldRemoved.cache.cache ∨ 8 ∈ worldRemoved.handles) ∧
      ((worldRemoved.cache.items 8).isSome → (worldRemoved.cache.refCount 8).toNat =
        worldRemoved.cache.cache.count 8 + worldRemoved.handles.count 8) ∧
      (worldRemoved.cache.Unlocked 8 ↔ (8 ∈ worldRemoved.cache.cache ∧ 8 ∉ worldRemoved.handles) ∨
        (8 ∉ worldRemoved.cache.cache ∧ worldRemoved.handles.count 8 = 1)) :=
  references run_removed 8

/-- **What is held stays as it is**, for as long as the handle is there. -/
theorem held_unchanged {before : List Act} (reached : Run (World.Step P) .start before w) {a : Nat}
    (held : a ∈ w.handles) (run : Run (fun w act w' => World.Step P w act w' ∧ a ∈ w'.handles) w acts w') :
    (w'.cache.items a).isSome ∧ w'.cache.items a = w.cache.items a := by
  have kept := run_sound reached
  have steady : Sound P w'.cache w'.handles ∧ a ∈ w'.handles ∧ w'.cache.items a = w.cache.items a := by
    induction run with
    | nil => exact ⟨kept, held, rfl⟩
    | snoc run last ih =>
        obtain ⟨sound, here, same⟩ := ih
        have moves := last.1.moves sound
        exact ⟨moves.sound, last.2, (moves.held a here last.2).trans same⟩
  exact ⟨steady.1.kept.held a steady.2.1, steady.2.2⟩

/-- The key is removed meanwhile. -/
theorem held_unchanged_removed :
    (worldRemoved.cache.items 8).isSome ∧ worldRemoved.cache.items 8 = worldGet.cache.items 8 :=
  held_unchanged run_get List.mem_cons_self (.single ⟨step_remove, List.mem_cons_self⟩)

/-- **What can go wrong.**  As long as the allocator keeps its promises, a request that needs
memory is served if and only if no item that is evicted for it is held. -/
theorem served_iff (run : Run (World.Step P) .start acts w) {r : Request} (fits : r.Fits)
    (few : ∀ a, w.handles.count a < 2 ^ 16 - 2) (allocates : Allocates P w.cache.contents r) {grant : Grant}
    {room : Bool} (promised : perform P grant room w.cache r ≠ .error .slab) :
    (∃ p, perform P grant room w.cache r = .ok p) ↔ ∀ a ∈ grant.victims, a ∉ w.handles := by
  have ends : Ends (perform P grant room w.cache r) _ _ := perform_ends (run_sound run) fits few
  constructor
  · rintro ⟨p, done⟩
    exact (ends.of_ok done).1 allocates
  · intro unheld
    cases done : perform P grant room w.cache r with
    | ok p => exact ⟨p, rfl⟩
    | error f =>
        rcases ends.of_error done with rfl | ⟨-, a, victim, held⟩
        · exact absurd done promised
        · exact absurd held (unheld a victim)

/-- It may be: what is held and was removed is unlocked, and can be chosen for a new item. -/
theorem served_iff_removed : perform plain (grantAt [8] 16) true worldRemoved.cache (.set five) = .error .unlinked ∧
    ((∃ p, perform plain (grantAt [8] 16) true worldRemoved.cache (.set five) = .ok p) ↔
      ∀ a ∈ [8], a ∉ worldRemoved.handles) := by
  have fault : perform plain (grantAt [8] 16) true worldRemoved.cache (.set five) = .error .unlinked := rfl
  have missed : worldRemoved.cache.contents [0x61] = none := by decide +kernel
  have allocates : Allocates plain worldRemoved.cache.contents (.set five) := by
    refine ⟨[0x61], rfl, ?_⟩
    rw [missed]
    rfl
  refine ⟨fault, served_iff (r := .set five) run_removed five_fits few_eight allocates ?_⟩
  rw [fault]
  simp

/-- **The statistics.**  `bytes` is the size of what is cached; while nothing is flushed and no
allocation fails, what was added is cached, deleted, expired or evicted. -/
theorem statistics_exact (run : Run (World.Step P) .start acts w) :
    w.cache.stats.bytes = (w.cache.linked.map (itemSize P)).sum ∧
      ((∀ a ∈ acts, a.Counted) → w.cache.stats.setAdds = BitVec.ofNat 64 w.cache.cache.length +
        w.cache.stats.deleteHits + w.cache.stats.expired + w.cache.stats.evicted) := by
  refine ⟨(run_sound run).kept.bytes, fun counted => ?_⟩
  have balanced : w.cache.balance = 0 := by
    induction run with
    | nil => rfl
    | snoc run last ih =>
        have moves := last.moves (run_sound run)
        rw [moves.balance (counted _ (by simp)), ih fun a member => counted a (by simp [member])]
  rw [Cache.balance] at balanced
  linear_combination balanced

theorem statistics_exact_removed : worldRemoved.cache.stats.bytes = (worldRemoved.cache.linked.map (itemSize plain)).sum ∧
    worldRemoved.cache.stats.setAdds = BitVec.ofNat 64 worldRemoved.cache.cache.length +
      worldRemoved.cache.stats.deleteHits + worldRemoved.cache.stats.expired + worldRemoved.cache.stats.evicted := by
  obtain ⟨bytes, adds⟩ := statistics_exact run_removed
  exact ⟨bytes, adds (by simp [Act.Counted])⟩

/-- **Compare and swap.**  A client has seen a version, and the key stays cached from then on.
Its `cas` is stored if and only if nobody has written the key in between. -/
theorem cas_stored_iff {before : List Act} (reached : Run (World.Step P) .start before w) {key : Bytes} {e : Entry}
    (saw : w.cache.contents key = some e)
    (run : Run (fun w a w' => World.Step P w a w' ∧ (w'.cache.contents key).isSome) w acts w')
    (few : acts.length < 2 ^ 64) {ins : ItemInsertionData} (same : ins.key = key) {reply : Reply Entry} {w'' : World}
    (last : World.Step P w' (.request (.cas ins e.version) reply) w'') (memory : reply ≠ .badAlloc) :
    reply = .cas .stored ↔ ∀ a ∈ acts, a.writes key = false := by
  obtain ⟨sound, seen⟩ := refines_of_sound (Stays P key) (fun _ _ _ step => step.1)
    (fun _ _ _ step store => ⟨store, step.2⟩) (run_sound reached) run
  exact cas_answer seen saw few same (last.moves sound).store memory

/-- Somebody else has read the key. -/
theorem cas_stored_iff_get : (.cas .stored : Reply Entry) = .cas .stored ↔
    ∀ a ∈ [Act.request (.get [0x61]) (.item (some (five.entry 1)))], a.writes [0x61] = false := by
  have saw : worldSet.cache.contents [0x61] = some (five.entry 1) := by decide +kernel
  have stays : (worldGet.cache.contents [0x61]).isSome := by decide +kernel
  exact cas_stored_iff run_set saw (.single ⟨step_get, stays⟩) (by decide) rfl step_cas (by simp)

/-- **Counters.**  While a number stays cached and only `incr` and `decr` write it, it is what
they make of it, whatever is done to other keys. -/
theorem counter_exact (reads : ∀ n, P.lexicalCast (toSstring n) = some n) {before : List Act}
    (reached : Run (World.Step P) .start before w) {key : Bytes} {e : Entry} {n : BitVec 64}
    (saw : w.cache.contents key = some e) (number : e.value = toSstring n)
    (run : Run (fun w a w' => World.Step P w a w' ∧ (w'.cache.contents key).isSome ∧
      (a.writes key = true → a.isCount = true)) w acts w') :
    ∃ e', w'.cache.contents key = some e' ∧ e'.value = toSstring (acts.foldl (fun n a => a.count key n) n) := by
  obtain ⟨-, seen⟩ := refines_of_sound (StaysCounter P key) (fun _ _ _ step => step.1)
    (fun _ _ _ step store => ⟨⟨store, step.2.1⟩, step.2.2⟩) (run_sound reached) run
  exact counted reads seen saw number

theorem counter_exact_incr : ∃ e', worldIncr.cache.contents [0x61] = some e' ∧ e'.value = toSstring
    ([.request (.incr [0x61] 3) (.counter (some ⟨five.asciiPrefix, [0x38], 0, 2⟩) true)].foldl
      (fun n a => Act.count [0x61] a n) 5) := by
  have saw : worldSet.cache.contents [0x61] = some (five.entry 1) := by decide +kernel
  have stays : (worldIncr.cache.contents [0x61]).isSome := by decide +kernel
  exact counter_exact plain_reads run_set saw (by decide +kernel) (.single ⟨step_incr, stays, fun _ => rfl⟩)

end Runs

end Itaro.Engine
