/-
# Engine.Operations -- memcache.cc: requests and timers, one by one

`perform_ends` says how every request ends, whatever the allocator does: served, with an
item evicted only if nobody holds it, or in one of the allocator's faults.  Expiring and
flushing are loops over items that are taken out; neither can fail.
-/
import Itaro.Engine.Serving

namespace Itaro.Engine

set_option autoImplicit false

open Theory

variable {P : Platform} {s : Cache} {handles : List Nat} {grant : Grant} {room : Bool} {key : Bytes}
  {ins : ItemInsertionData}

def Served (P : Platform) (handles : List Nat) (grant : Grant) (s : Cache) (r : Request) (p : Cache × Reply Nat) :
    Prop :=
  (Allocates P s.contents r → ∀ a ∈ grant.victims, a ∉ handles) ∧ Serves P handles grant.victims s r p

/-! ## Requests that put an entry -/

theorem set_ends (sound : Sound P s handles) (fits : ins.Fits) :
    Ends (s.set P grant room ins) (Served P handles grant s (.set ins)) (Broken grant.victims handles) := by
  unfold Cache.set
  rcases sound.kept.find_cases ins.key with ⟨missed, none, -⟩ | ⟨a, it, found, member, there, same, some⟩
  · rw [missed]
    refine (addNew_ends sound none fits grant room).bind ?_
    have serve : Entry.serve P (s.contents ins.key) (.set ins) = (.flag false, .put (ins.entry 1)) := by rw [none]; rfl
    rintro ⟨s', place⟩ ⟨unheld, stores⟩
    cases place with
    | none => exact ⟨fun _ => unheld, .badAlloc stores rfl serve rfl rfl⟩
    | some b =>
        have balance : (s'.tally fun c => { c with setAdds := c.setAdds + 1 }).balance = s.balance := by
          have paid := stores.2.2.2.2
          rw [add_zero] at paid
          rw [← paid, Cache.balance, Cache.balance, Cache.tally]
          ring
        exact ⟨fun _ => unheld, .put stores rfl serve rfl rfl (stores.1.tally rfl) rfl rfl rfl balance⟩
  · rw [found]
    refine (addOverriding_ends sound member there same fits grant).bind ?_
    have serve : Entry.serve P (s.contents ins.key) (.set ins) =
        (.flag true, .put (ins.entry (it.version + 1))) := by rw [some]; rfl
    rintro ⟨s', place⟩ ⟨unheld, stores⟩
    cases place with
    | none => exact ⟨fun _ => unheld, .badAlloc stores rfl serve rfl rfl⟩
    | some b =>
        have balance : (s'.tally fun c => { c with setReplaces := c.setReplaces + 1 }).balance = s.balance :=
          add_right_cancel stores.2.2.2.2
        exact ⟨fun _ => unheld, .put stores rfl serve rfl rfl (stores.1.tally rfl) rfl rfl rfl balance⟩

theorem add_ends (sound : Sound P s handles) (fits : ins.Fits) :
    Ends (s.add P grant room ins) (Served P handles grant s (.add ins)) (Broken grant.victims handles) := by
  unfold Cache.add
  rcases sound.kept.find_cases ins.key with ⟨missed, none, -⟩ | ⟨a, it, found, member, there, same, some⟩
  · rw [missed]
    have serve : Entry.serve P (s.contents ins.key) (.add ins) = (.flag true, .put (ins.entry 1)) := by rw [none]; rfl
    have sound₀ : Sound P (s.tally fun c => { c with setAdds := c.setAdds + 1 }) handles := sound.tally rfl
    refine (addNew_ends sound₀ none fits grant room).bind ?_
    rintro ⟨s', place⟩ ⟨unheld, stores⟩
    cases place with
    | none => exact ⟨fun _ => unheld, .badAlloc stores rfl serve rfl rfl⟩
    | some b =>
        have balance : s'.balance = s.balance := by
          have paid := stores.2.2.2.2
          rw [add_zero] at paid
          apply add_right_cancel (b := 1)
          rw [paid, Cache.balance, Cache.balance, Cache.tally]
          ring
        exact ⟨fun _ => unheld, .put stores rfl serve rfl rfl stores.1 rfl rfl rfl balance⟩
  · rw [found]
    have serve : Entry.serve P (s.contents ins.key) (.add ins) = (.flag false, .keep) := by rw [some]; rfl
    exact ⟨fun allocates => absurd allocates (not_allocates rfl serve rfl), .keep rfl serve sound rfl rfl rfl rfl⟩

theorem replace_ends (sound : Sound P s handles) (fits : ins.Fits) :
    Ends (s.replace P grant ins) (Served P handles grant s (.replace ins)) (Broken grant.victims handles) := by
  unfold Cache.replace
  rcases sound.kept.find_cases ins.key with ⟨missed, none, -⟩ | ⟨a, it, found, member, there, same, some⟩
  · rw [missed]
    have serve : Entry.serve P (s.contents ins.key) (.replace ins) = (.flag false, .keep) := by rw [none]; rfl
    exact ⟨fun allocates => absurd allocates (not_allocates rfl serve rfl), .keep rfl serve sound rfl rfl rfl rfl⟩
  · rw [found]
    have serve : Entry.serve P (s.contents ins.key) (.replace ins) =
        (.flag true, .put (ins.entry (it.version + 1))) := by rw [some]; rfl
    have sound₀ : Sound P (s.tally fun c => { c with setReplaces := c.setReplaces + 1 }) handles := sound.tally rfl
    refine (addOverriding_ends sound₀ member there same fits grant).bind ?_
    rintro ⟨s', place⟩ ⟨unheld, stores⟩
    cases place with
    | none => exact ⟨fun _ => unheld, .badAlloc stores rfl serve rfl rfl⟩
    | some b =>
        exact ⟨fun _ => unheld, .put stores rfl serve rfl rfl stores.1 rfl rfl rfl (add_right_cancel stores.2.2.2.2)⟩

theorem cas_ends (sound : Sound P s handles) (fits : ins.Fits) (version : BitVec 64) :
    Ends (s.cas P grant ins version) (Served P handles grant s (.cas ins version)) (Broken grant.victims handles) := by
  unfold Cache.cas
  rcases sound.kept.find_cases ins.key with ⟨missed, none, -⟩ | ⟨a, it, found, member, there, same, some⟩
  · rw [missed]
    have serve : Entry.serve P (s.contents ins.key) (.cas ins version) = (.cas .notFound, .keep) := by rw [none]; rfl
    exact ⟨fun allocates => absurd allocates (not_allocates rfl serve rfl),
      .keep rfl serve (sound.tally rfl) rfl rfl rfl rfl⟩
  · rw [found]
    have known : s.deref a = .ok it := by rw [Cache.deref, there]
    refine Ends.bind_of_ok known ?_
    by_cases current : it.version = version
    · rw [if_pos current]
      have serve : Entry.serve P (s.contents ins.key) (.cas ins version) =
          (.cas .stored, .put (ins.entry (it.version + 1))) := by
        rw [some]
        exact if_pos current
      have sound₀ : Sound P (s.tally fun c => { c with casHits := c.casHits + 1 }) handles := sound.tally rfl
      refine (addOverriding_ends sound₀ member there same fits grant).bind ?_
      rintro ⟨s', place⟩ ⟨unheld, stores⟩
      cases place with
      | none => exact ⟨fun _ => unheld, .badAlloc stores rfl serve rfl rfl⟩
      | some b =>
          exact ⟨fun _ => unheld, .put stores rfl serve rfl rfl stores.1 rfl rfl rfl
            (add_right_cancel stores.2.2.2.2)⟩
    · rw [if_neg current]
      have serve : Entry.serve P (s.contents ins.key) (.cas ins version) = (.cas .badVersion, .keep) := by
        rw [some]
        exact if_neg current
      exact ⟨fun allocates => absurd allocates (not_allocates rfl serve rfl),
        .keep rfl serve (sound.tally rfl) rfl rfl rfl rfl⟩

/-! ## Requests that hold an item -/

theorem get_ends (sound : Sound P s handles) (few : ∀ a, handles.count a < 2 ^ 16 - 2) :
    Ends (s.get P key) (Served P handles grant s (.get key)) (Broken grant.victims handles) := by
  unfold Cache.get
  have serve : Entry.serve P (s.contents key) (.get key) = (.item (s.contents key), .keep) := by
    cases s.contents key <;> rfl
  rcases sound.kept.find_cases key with ⟨missed, none, -⟩ | ⟨a, it, found, member, there, same, some⟩
  · rw [missed]
    rw [none] at serve
    exact ⟨fun allocates => absurd allocates (not_allocates rfl (none.symm ▸ serve) rfl),
      .keep rfl (none.symm ▸ serve) (sound.tally rfl) rfl rfl rfl rfl⟩
  · rw [found]
    have sound₀ : Sound P (s.tally fun c => { c with getHits := c.getHits + 1 }) handles := sound.tally rfl
    obtain ⟨t, added, sound', items, cache, balance⟩ := sound₀.addRef (sound.kept.live a member) (few a)
    refine Ends.bind_of_ok added ?_
    have look : (Reply.item (.some a)).look t.entryAt = .item (s.contents key) := by
      rw [some]
      show Reply.item ((t.items a).map Item.entry) = _
      rw [items]
      exact congrArg (fun o => Reply.item (o.map Item.entry)) there
    exact ⟨fun allocates => absurd allocates (not_allocates rfl serve rfl), .keep rfl serve sound' items cache look balance⟩

theorem length_toSstring (n : BitVec 64) : (toSstring n).length ≤ 21 :=
  Cache.decimal.text_length_le (by decide) (by
    have bound := n.isLt
    show n.toNat < 10 ^ 20
    omega)

/-- `incr` and `decr`. -/
theorem adjust_ends (sound : Sound P s handles) (few : ∀ a, handles.count a < 2 ^ 16 - 2)
    {hit miss : CacheStats → CacheStats} (hits : Neutral hit) (misses : Neutral miss)
    {change : BitVec 64 → BitVec 64} {r : Request} (about : r.key? = some key)
    (serve : ∀ e, Entry.serve P e r = Entry.adjust P change e) :
    Ends (s.adjust P hit miss change grant key) (Served P handles grant s r) (Broken grant.victims handles) := by
  unfold Cache.adjust
  have sound₀ : Sound P (s.tally hit) handles := hits.sound sound
  rcases sound.kept.find_cases key with ⟨missed, none, -⟩ | ⟨a, it, found, member, there, same, some⟩
  · rw [missed]
    have serve : Entry.serve P (s.contents key) r = (.counter .none false, .keep) := by
      rw [serve, none]
      rfl
    exact ⟨fun allocates => absurd allocates (not_allocates about serve rfl),
      .keep about serve (misses.sound sound) rfl rfl rfl misses.balance⟩
  · rw [found]
    have known : (s.tally hit).deref a = .ok it := by simp only [Cache.deref, Cache.tally, there]
    refine Ends.bind_of_ok known ?_
    have number : it.dataAsIntegral P = integral P it.value := rfl
    rw [number]
    cases reads : integral P it.value with
    | none =>
        have serve : Entry.serve P (s.contents key) r = (.counter (.some it.entry) false, .keep) := by
          rw [serve, some]
          simp only [Entry.adjust, Item.entry, reads]
        obtain ⟨t, added, sound', items, cache, balance⟩ := sound₀.addRef (sound.kept.live a member) (few a)
        refine Ends.bind_of_ok added ?_
        have look : (Reply.counter (.some a) false).look t.entryAt = .counter (.some it.entry) false := by
          show Reply.counter ((t.items a).map Item.entry) false = _
          rw [items]
          exact congrArg (fun o => Reply.counter (o.map Item.entry) false) there
        exact ⟨fun allocates => absurd allocates (not_allocates about serve rfl),
          .keep about serve sound' items cache look (balance.trans hits.balance)⟩
    | some n =>
        have stored := sound.kept.stored a it there
        have fits : ItemInsertionData.Fits ⟨key, it.asciiPrefix, toSstring (change n), it.expiry⟩ := by
          have length := length_toSstring (change n)
          exact ⟨same ▸ stored.key_le, stored.asciiPrefix_le, by show (toSstring (change n)).length < _; omega⟩
        have serve : Entry.serve P (s.contents key) r =
            (.counter (.some { it.entry with value := toSstring (change n), version := it.version + 1 }) true,
              .put { it.entry with value := toSstring (change n), version := it.version + 1 }) := by
          rw [serve, some]
          simp only [Entry.adjust, Item.entry, reads]
        refine (addOverriding_ends sound₀ member there same fits grant).bind ?_
        rintro ⟨s', place⟩ ⟨unheld, stores⟩
        cases place with
        | none => exact ⟨fun _ => unheld, .badAlloc stores about serve rfl rfl⟩
        | some b =>
            have here := stores.2.2.2.1
            have live : (s'.items b).isSome := by
              cases there' : s'.items b with
              | none =>
                  rw [Cache.entryAt, there'] at here
                  cases here
              | some _ => rfl
            obtain ⟨t, added, sound', items, cache, balance⟩ := stores.1.addRef live (few b)
            refine Ends.bind_of_ok added ?_
            have look : (Reply.counter (.some b) true).look t.entryAt =
                .counter (.some { it.entry with value := toSstring (change n), version := it.version + 1 }) true := by
              show Reply.counter ((t.items b).map Item.entry) true = _
              rw [items]
              exact congrArg (fun o => Reply.counter o true) here
            exact ⟨fun _ => unheld, .put stores about serve rfl rfl sound' items cache look
              (balance.trans ((add_right_cancel stores.2.2.2.2).trans hits.balance))⟩

/-! ## Requests and timers that take out -/

theorem remove_ends (sound : Sound P s handles) :
    Ends (s.remove P key) (Served P handles grant s (.remove key)) (Broken grant.victims handles) := by
  unfold Cache.remove
  rcases sound.kept.find_cases key with ⟨missed, none, -⟩ | ⟨a, it, found, member, there, same, some⟩
  · rw [missed]
    have serve : Entry.serve P (s.contents key) (.remove key) = (.flag false, .keep) := by rw [none]; rfl
    exact ⟨fun allocates => absurd allocates (not_allocates rfl serve rfl),
      .keep rfl serve (sound.tally rfl) rfl rfl rfl rfl⟩
  · rw [found]
    have serve : Entry.serve P (s.contents key) (.remove key) = (.flag true, .drop) := by rw [some]; rfl
    have sound₀ : Sound P (s.tally fun c => { c with deleteHits := c.deleteHits + 1 }) handles := sound.tally rfl
    obtain ⟨it', s', erased, drops, stats⟩ := Cache.erase_drops sound₀.kept sound₀.timed member true
      (iff_of_true rfl List.not_mem_nil)
    cases there.symm.trans drops.there
    have quiet : ¬ Allocates P s.contents (.remove key) := not_allocates rfl serve rfl
    refine Ends.bind_of_ok erased ⟨fun allocates => absurd allocates quiet, ?_, drops.held, ?_, fun _ _ => ?_,
      fun allocates => absurd allocates quiet, fun _ _ other apart => ?_⟩
    · exact ⟨drops.kept sound₀.kept, drops.timed sound₀.kept.nodup sound₀.timed fun _ _ => Iff.rfl⟩
    · have step := Store.Step.serve (P := P) (m := s.contents) (r := .remove key) rfl [] List.not_mem_nil fun _ => rfl
      rw [serve, without_nil] at step
      have contents := drops.contents sound₀.kept
      rw [same] at contents
      show Store.Step P s.contents _ s'.contents
      rw [contents]
      exact step
    · have counted : (s.tally fun c => { c with deleteHits := c.deleteHits + 1 }).balance = s.balance - 1 := by
        rw [Cache.balance, Cache.balance, Cache.tally]
        ring
      show s'.balance = s.balance
      rw [drops.balance 0 (by rw [stats]) (by rw [stats]; ring), counted]
      ring
    · have elsewhere : other ≠ key := fun removed => apart (congrArg Option.some removed.symm)
      show s'.contents other = s.contents other
      rw [drops.contents sound₀.kept, same, Function.update_of_ne elsewhere]
      rfl

/-- What is unlinked first is taken out as always. -/
theorem dispose_eq {a : Nat} {it : Item} (member : a ∈ s.cache) (there : s.items a = some it) :
    s.dispose P a = s.erase P true true true a := by
  simp only [Cache.dispose, Cache.erase, Cache.unlink, Cache.deref, member, there, if_true, bind, Except.bind]
  rfl

theorem flushAll_ends (sound : Sound P s handles) :
    ∃ s', s.flushAll P = .ok s' ∧ Sound P s' handles ∧ (∀ a ∈ handles, s'.items a = s.items a) ∧
      s'.contents = .empty := by
  have loop : Ends (s.flushAll P) (fun t => Sound P t handles ∧ t.cache = [] ∧ ∀ a ∈ handles, t.items a = s.items a)
      fun _ => False := by
    refine Ends.foldlM
      (I := fun left t => Sound P t handles ∧ t.cache = left ∧ ∀ a ∈ handles, t.items a = s.items a)
      ⟨⟨{ sound.kept with }, { sound.timed with }⟩, rfl, fun _ _ => rfl⟩ ?_
    rintro a left t ⟨sound, cache, held⟩
    have member : a ∈ t.cache := cache ▸ List.mem_cons_self
    obtain ⟨it, t', erased, drops, -⟩ := Cache.erase_drops sound.kept sound.timed member true
      (iff_of_true rfl List.not_mem_nil)
    rw [dispose_eq member drops.there, erased]
    refine ⟨⟨drops.kept sound.kept, drops.timed sound.kept.nodup sound.timed fun _ _ => Iff.rfl⟩, ?_, ?_⟩
    · rw [drops.cache, cache, List.erase_cons_head]
    · exact fun b member => (drops.held b member).trans (held b member)
  obtain ⟨s', flushed, sound', cache, held⟩ := loop.exists_ok
  refine ⟨s', flushed, sound', held, funext fun key => Cache.contents_eq_none.mpr ?_⟩
  rw [Cache.linked, cache]
  exact List.not_mem_nil

/-- All that is due is taken out, and only that. -/
theorem expire_ends (sound : Sound P s handles) (now : Nat) :
    ∃ s', s.expire P now = .ok s' ∧ Sound P s' handles ∧ (∀ a ∈ handles, s'.items a = s.items a) ∧
      s'.contents = s.contents.unexpired now ∧ s'.balance = s.balance := by
  have start : Timed { s with alive := s.alive.filter fun a => a ∉ s.due now } (s.due now) := by
    refine ⟨sound.timed.nodup.filter _, fun a => ?_⟩
    simp only [List.mem_filter, decide_eq_true_eq, sound.timed.mem a, List.not_mem_nil, not_false_eq_true, true_and]
    tauto
  have listed (a : Nat) : a ∈ s.due now ↔ a ∈ s.alive ∧ (s.items a).any (fun it => it.expiry.toNat ≤ now) = true :=
    List.mem_filter
  have loop : Ends (s.expire P now) (fun t => Kept P t handles ∧ Timed t [] ∧
      (∀ a, a ∈ t.cache ↔ a ∈ s.cache ∧ a ∉ s.due now) ∧ (∀ a ∈ t.cache, t.items a = s.items a) ∧
      (∀ a ∈ handles, t.items a = s.items a) ∧ t.balance = s.balance) fun _ => False := by
    refine Ends.mono (Ends.foldlM
      (I := fun left t => Kept P t handles ∧ Timed t left ∧ left.Nodup ∧ (∀ a ∈ left, a ∈ s.due now) ∧
        (∀ a, a ∈ t.cache ↔ a ∈ s.cache ∧ (a ∈ s.due now → a ∈ left)) ∧
        (∀ a ∈ t.cache, t.items a = s.items a) ∧ (∀ a ∈ handles, t.items a = s.items a) ∧ t.balance = s.balance)
      ⟨{ sound.kept with }, start, sound.timed.nodup.filter _, fun _ => id, fun a => ?_, fun _ _ => rfl,
        fun _ _ => rfl, rfl⟩ ?_) ?_ fun _ => id
    · exact (and_iff_left id).symm
    · rintro a left t ⟨kept, timed, nodup, due, cache, items, held, balance⟩
      obtain ⟨fresh, nodup'⟩ := List.nodup_cons.mp nodup
      have here : a ∈ s.due now := due a List.mem_cons_self
      have linked := ((sound.timed.mem a).mp ((listed a).mp here).1).1
      have member : a ∈ t.cache := (cache a).mpr ⟨linked, fun _ => List.mem_cons_self⟩
      obtain ⟨it, t', erased, drops, stats⟩ := Cache.erase_drops kept timed member false
        (iff_of_false Bool.false_ne_true (not_not_intro List.mem_cons_self))
      refine Ends.bind_of_ok erased ?_
      have drops' : Drops P handles t a it { t' with stats.expired := t'.stats.expired + 1 } := { drops with }
      refine ⟨drops'.kept kept, drops'.timed kept.nodup timed fun b apart => ?_, nodup', ?_, fun b => ?_, ?_, ?_, ?_⟩
      · simp [apart]
      · exact fun b member => due b (List.mem_cons_of_mem a member)
      · show b ∈ t'.cache ↔ _
        rw [drops.cache, kept.nodup.mem_erase_iff, cache b, List.mem_cons]
        by_cases same : b = a
        · subst same
          simp [here, fresh]
        · simp [same]
      · intro b member
        rw [drops'.cache, kept.nodup.mem_erase_iff] at member
        exact (drops'.others b member.1).1.trans (items b member.2)
      · exact fun b member => (drops'.held b member).trans (held b member)
      · rw [drops'.balance 1 (by simp only [stats]) (by simp only [stats]; ring), balance]
        ring
    · rintro t ⟨kept, timed, -, -, cache, items, held, balance⟩
      exact ⟨kept, timed, fun a => by rw [cache, imp_iff_not List.not_mem_nil], items, held, balance⟩
  obtain ⟨s', expired, kept, timed, cache, items, held, balance⟩ := loop.exists_ok
  refine ⟨s', expired, ⟨kept, timed⟩, held, funext fun key => Option.ext fun e => ?_, balance⟩
  rw [kept.contents_eq_some, Store.unexpired, Option.filter_eq_some_iff, sound.kept.contents_eq_some]
  have remains {a : Nat} {it : Item} (member : a ∈ s.cache) (there : s.items a = some it) :
      a ∉ s.due now ↔ (!(everExpires it.entry.expiry && decide (it.entry.expiry.toNat ≤ now))) = true := by
    have expiry : it.entry.expiry = it.expiry := rfl
    rw [listed, sound.timed.mem, there, expiry, Option.any_some, Option.any_some]
    cases everExpires it.expiry <;> simp [member]
  constructor
  · rintro ⟨a, member, it, there, same, rfl⟩
    obtain ⟨linked, left⟩ := (cache a).mp member
    rw [items a member] at there
    exact ⟨⟨a, linked, it, there, same, rfl⟩, (remains linked there).mp left⟩
  · rintro ⟨⟨a, linked, it, there, same, rfl⟩, left⟩
    have member := (cache a).mpr ⟨linked, (remains linked there).mpr left⟩
    exact ⟨a, member, it, (items a member).trans there, same, rfl⟩

/-! ## All of them -/

/-- **What a request comes to**, whatever the allocators do. -/
theorem perform_ends (sound : Sound P s handles) {r : Request} (fits : r.Fits)
    (few : ∀ a, handles.count a < 2 ^ 16 - 2) :
    Ends (perform P grant room s r) (Served P handles grant s r) (Broken grant.victims handles) := by
  cases r with
  | set ins => exact set_ends sound fits
  | add ins => exact add_ends sound fits
  | replace ins => exact replace_ends sound fits
  | remove key => exact remove_ends sound
  | get key => exact get_ends sound few
  | cas ins version => exact cas_ends sound fits version
  | incr key delta =>
      refine adjust_ends sound few (fun c => ?_) (fun c => ?_) rfl fun e => ?_
      · exact ⟨rfl, rfl, rfl, rfl, rfl⟩
      · exact ⟨rfl, rfl, rfl, rfl, rfl⟩
      · cases e <;> rfl
  | decr key delta =>
      refine adjust_ends sound few (fun c => ?_) (fun c => ?_) rfl fun e => ?_
      · exact ⟨rfl, rfl, rfl, rfl, rfl⟩
      · exact ⟨rfl, rfl, rfl, rfl, rfl⟩
      · cases e <;> rfl
  | flushAll =>
      obtain ⟨s', flushed, sound', held, contents⟩ := flushAll_ends sound
      have quiet : ¬ Allocates P s.contents .flushAll := by
        rintro ⟨key, about, -⟩
        cases about
      refine Ends.bind_of_ok flushed ⟨fun allocates => absurd allocates quiet, sound', held, ?_,
        fun _ other => absurd rfl other, fun allocates => absurd allocates quiet, fun _ other => absurd rfl other⟩
      show Store.Step P s.contents (.request .flushAll .done) s'.contents
      rw [contents]
      exact .flushAll _
  | flushAt time =>
      have quiet : ¬ Allocates P s.contents (.flushAt time) := by
        rintro ⟨key, about, -⟩
        cases about
      exact ⟨fun allocates => absurd allocates quiet, ⟨{ sound.kept with }, { sound.timed with }⟩, fun _ _ => rfl,
        .flushAt _ time, fun _ _ => rfl, fun allocates => absurd allocates quiet, fun _ _ _ _ => rfl⟩
  | stats =>
      have sized : Sound P (s.tally fun c => { c with size := BitVec.ofNat 64 s.cache.length }) handles :=
        sound.tally rfl
      have quiet : ¬ Allocates P s.contents .stats := by
        rintro ⟨key, about, -⟩
        cases about
      exact ⟨fun allocates => absurd allocates quiet, sized, fun _ _ => rfl, .stats _ _, fun _ _ => rfl,
        fun allocates => absurd allocates quiet, fun _ _ _ _ => rfl⟩

end Itaro.Engine
