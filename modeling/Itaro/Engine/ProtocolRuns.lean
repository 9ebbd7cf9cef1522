/-
# Engine.ProtocolRuns -- memcache.cc: what the clients of a sharded cache read

* `replies_read_back`: a client reads from the answer to `get` or `gets` what its items
  are, as long as whoever stores a value announces its length and no counter changes the
  number of its digits.
* `counter_read_iff`: where one does, the item is misread from then on.
-/
import Itaro.Engine.Protocol
import Itaro.Engine.ShardRuns

namespace Itaro.Engine

set_option autoImplicit false

open Theory

variable {P : Platform}

/-! ## Announced lengths -/

section Announcing

variable {m : Store} {r : Request} {key flags size flags' size' asciiPrefix value value' : Bytes} {e : Entry}

/-- `flags` as a client reads them. -/
def flagsOf (asciiPrefix : Bytes) : Bytes := (asciiPrefix.tail.span (· ≠ blank)).1

theorem flagsOf_makePrefix (word : Word flags) : flagsOf (makePrefix flags size) = flags := by
  have text : (makePrefix flags size).tail = flags ++ ([blank] ++ size) := by simp [makePrefix]
  rw [flagsOf, text, span_word word]

theorem size_unique (word : Word flags) (word' : Word flags') (same : makePrefix flags size = makePrefix flags' size') :
    size = size' := by
  have flagsSame : flags = flags' := by rw [← flagsOf_makePrefix word, same, flagsOf_makePrefix word']
  subst flagsSame
  simpa [makePrefix] using same

/-- Once a prefix announces a length, it announces that one only. -/
theorem Announced.iff_length (announced : Announced asciiPrefix value) :
    Announced asciiPrefix value' ↔ value'.length = value.length := by
  obtain ⟨flags, size, word, digits, rfl, length⟩ := announced
  constructor
  · rintro ⟨flags', size', word', -, same, length'⟩
    rw [← length', ← size_unique word word' same, length]
  · intro same
    exact ⟨flags, size, word, digits, rfl, length.trans same.symm⟩

/-- What is stored is announced, and counters keep the number of their digits. -/
def Request.Announces (P : Platform) (m : Store) : Request → Prop
  | .set ins | .add ins | .replace ins | .cas ins _ => Announced ins.asciiPrefix ins.data
  | .incr key delta => ∀ e n, m key = some e → integral P e.value = some n →
      (toSstring (n + delta)).length = e.value.length
  | .decr key delta => ∀ e n, m key = some e → integral P e.value = some n →
      (toSstring (n - if delta < n then delta else n)).length = e.value.length
  | _ => True

theorem serve_incr (o : Option Entry) (key : Bytes) (delta : BitVec 64) :
    Entry.serve P o (.incr key delta) = Entry.adjust P (fun n => n + delta) o := by
  cases o <;> rfl

theorem serve_decr (o : Option Entry) (key : Bytes) (delta : BitVec 64) :
    Entry.serve P o (.decr key delta) = Entry.adjust P (fun n => n - if delta < n then delta else n) o := by
  cases o <;> rfl

/-- What a counter becomes. -/
theorem adjust_put {change : BitVec 64 → BitVec 64} {o : Option Entry} (put : (Entry.adjust P change o).2 = .put e) :
    ∃ e₀ n, o = some e₀ ∧ integral P e₀.value = some n ∧ e.asciiPrefix = e₀.asciiPrefix ∧
      e.value = toSstring (change n) ∧ (Entry.adjust P change o).1 = .counter (some e) true := by
  cases o with
  | none => cases put
  | some e₀ =>
      rw [Entry.adjust] at put ⊢
      split at put
      · cases put
      case h_2 n number =>
        cases put
        exact ⟨e₀, n, rfl, number, rfl, rfl, rfl⟩

theorem Store.Step.counts {m' : Store} {e' : Entry} {change : BitVec 64 → BitVec 64}
    (step : Store.Step P m (.request r (.counter (some e') true)) m') (about : r.key? = some key)
    (before : m key = some e) (serve : Entry.serve P (some e) r = Entry.adjust P change (some e)) :
    m' key = some e' ∧ e'.asciiPrefix = e.asciiPrefix := by
  generalize answer : Reply.counter (some e') true = reply at step
  cases step with
  | serve about' lost others room =>
      cases about.symm.trans about'
      rw [before, serve] at answer ⊢
      cases number : integral P e.value with
      | none =>
          rw [Entry.adjust, number] at answer
          cases answer
      | some n =>
          rw [Entry.adjust, number] at answer ⊢
          cases answer
          exact ⟨Function.update_self .., rfl⟩
  | _ => cases answer

theorem announced_of_put (announces : r.Announces P m) (about : r.key? = some key)
    (before : ∀ e, m key = some e → Announced e.asciiPrefix e.value) (put : (Entry.serve P (m key) r).2 = .put e) :
    Announced e.asciiPrefix e.value := by
  have counted {change : BitVec 64 → BitVec 64} (put : (Entry.adjust P change (m key)).2 = .put e)
      (keeps : ∀ e n, m key = some e → integral P e.value = some n → (toSstring (change n)).length = e.value.length) :
      Announced e.asciiPrefix e.value := by
    obtain ⟨e₀, n, here, number, asciiPrefix, value, -⟩ := adjust_put put
    rw [asciiPrefix, (before e₀ here).iff_length, value]
    exact keeps e₀ n here number
  cases r with
  | incr k delta =>
      cases about
      rw [serve_incr] at put
      exact counted put announces
  | decr k delta =>
      cases about
      rw [serve_decr] at put
      exact counted put announces
  | set ins =>
      cases here : m key <;> rw [here] at put <;> cases put
      · exact announces
      · exact announces
  | add ins =>
      cases here : m key <;> rw [here] at put <;> cases put
      exact announces
  | replace ins =>
      cases here : m key <;> rw [here] at put <;> cases put
      exact announces
  | cas ins version =>
      cases here : m key with
      | none =>
          rw [here] at put
          cases put
      | some e₀ =>
          rw [here, Entry.serve] at put
          split at put
          · cases put
            exact announces
          · cases put
  | remove k => cases here : m key <;> rw [here] at put <;> cases put
  | get k => cases here : m key <;> rw [here] at put <;> cases put
  | _ => cases about

end Announcing

/-- What the parser promises: as many bytes as were announced. -/
structure Parser.Promises (p : Parser) : Prop where
  flags : Word p.flagsStr
  size : ∀ c ∈ p.sizeStr, Cache.isdigit c = true
  blob : Cache.decimal.toNat p.sizeStr = p.blob.length

/-- No command announces a length falsely, with the exception of the counters. -/
theorem Parser.Promises.announces {p : Parser} (promises : p.Promises) (time : BitVec 64) (m : Store) {command : Command}
    (counter : command ≠ .cmdIncr ∧ command ≠ .cmdDecr) : ∀ r ∈ p.requests time command, r.Announces P m := by
  have stored : Announced (p.prepareInsertion time).asciiPrefix (p.prepareInsertion time).data :=
    ⟨_, _, promises.flags, promises.size, rfl, promises.blob⟩
  intro r member
  cases command with
  | cmdSet =>
      cases List.mem_singleton.mp member
      exact stored
  | cmdCas =>
      cases List.mem_singleton.mp member
      exact stored
  | cmdAdd =>
      cases List.mem_singleton.mp member
      exact stored
  | cmdReplace =>
      cases List.mem_singleton.mp member
      exact stored
  | cmdGet =>
      obtain ⟨key, -, rfl⟩ := List.mem_map.mp member
      trivial
  | cmdGets =>
      obtain ⟨key, -, rfl⟩ := List.mem_map.mp member
      trivial
  | cmdDelete =>
      cases List.mem_singleton.mp member
      trivial
  | cmdFlushAll =>
      rw [Parser.requests] at member
      split at member <;> cases List.mem_singleton.mp member <;> trivial
  | cmdStats =>
      cases List.mem_singleton.mp member
      trivial
  | cmdIncr => exact absurd rfl counter.1
  | cmdDecr => exact absurd rfl counter.2
  | _ => cases member

/-! ## Runs -/

section Runs

variable {n : Nat} [NeZero n] {s s' : Shards n} {acts : List (ShardAct n)} {key : Bytes} {e : Entry} {b : ShardAct n}

/-- A step in which no length is announced falsely. -/
def AnnouncedStep (P : Platform) (s : Shards n) (b : ShardAct n) (s' : Shards n) : Prop :=
  Shards.Step P s b s' ∧ ∀ i r reply, b = .shard i (.request r reply) → r.Announces P (s.contents P)

structure AllAnnounced (P : Platform) (s : Shards n) : Prop where
  routed : Routed P s
  announced : ∀ key e, s.contents P key = some e → Announced e.asciiPrefix e.value

theorem AnnouncedStep.allAnnounced (all : AllAnnounced P s) (step : AnnouncedStep P s b s') : AllAnnounced P s' := by
  obtain ⟨step, announces⟩ := step
  refine ⟨step.routed all.routed, fun key e after => ?_⟩
  obtain ⟨here, r, -, peers⟩ | ⟨i, a, w, rfl, move, -, peers⟩ := step.cases all.routed
  · rw [Shards.contents, peers] at after
    exact all.announced key e after
  · by_cases here : getCpu P key = i
    · subst here
      rw [Shards.contents, peers, Function.update_self] at after
      have store := (move.moves (all.routed.sound _)).store
      rcases store.entry_cases after with ⟨r, rfl, about, put⟩ | ⟨-, before⟩
      · exact announced_of_put (announces _ r _ rfl) about (all.announced key) put
      · exact all.announced key e before
    · rw [Shards.contents_other peers here] at after
      exact all.announced key e after

theorem run_announced (run : Run (AnnouncedStep P) .start acts s) : AllAnnounced P s :=
  run.invariant (fun _ _ _ all step => step.allAnnounced all) ⟨routed_start, fun _ _ none => nomatch none⟩

/-- An answer to `get`, some time. -/
def Answers (n : Nat) [NeZero n] (P : Platform) (key : Bytes) (reply : Reply Entry) : Prop :=
  ∃ (acts : List (ShardAct n)) (s s' : Shards n) (i : Fin n), Run (AnnouncedStep P) .start acts s ∧
    Shards.Step P s (.shard i (.request (.get key) reply)) s'

/-- What a request is answered with, when it is about a key. -/
theorem Shards.Step.serves {i : Fin n} {r : Request} {reply : Reply Entry} (routed : Routed P s)
    (step : Shards.Step P s (.shard i (.request r reply)) s') (about : r.key? = some key) :
    Store.Step P (s.contents P) (.request r reply) (s'.contents P) := by
  have shard := step.shardStep routed
  generalize place : (i, Act.request r reply) = p at shard
  cases shard with
  | whole _ store =>
      cases place
      exact store
  | part unkeyed _ _ =>
      cases place
      cases about.symm.trans unkeyed

theorem Answers.item {reply : Reply Entry} (answers : Answers n P key reply) :
    ∃ found, reply = .item found ∧ ∀ e, found = some e → Announced e.asciiPrefix e.value := by
  obtain ⟨acts, s, s', i, run, step⟩ := answers
  have all := run_announced run
  have store := step.serves all.routed rfl
  generalize s'.contents P = m' at store
  refine ⟨s.contents P key, ?_, all.announced key⟩
  cases store with
  | serve about lost others room =>
      cases about
      cases s.contents P key <;> rfl
  | badAlloc about lost put =>
      cases about
      cases here : s.contents P key <;> rw [here] at put <;> cases put

/-- What a client should read. -/
def shown (withVersion : Bool) (replies : List (Bytes × Reply Entry)) : List Shown :=
  (found replies).map fun p => showing withVersion p.1 (flagsOf p.2.asciiPrefix) p.2

theorem readItems_handleGet (withVersion : Bool) {replies : List (Bytes × Reply Entry)}
    (words : ∀ p ∈ replies, Word p.1)
    (announced : ∀ p ∈ replies, ∀ e, p.2 = .item (some e) → Announced e.asciiPrefix e.value)
    {turns : Nat} (enough : replies.length < turns) :
    readItems withVersion turns (handleGet withVersion replies) = some (shown withVersion replies) := by
  induction replies generalizing turns with
  | nil =>
      obtain ⟨turns, rfl⟩ := Nat.exists_eq_add_one_of_ne_zero (Nat.ne_zero_of_lt enough)
      rfl
  | cons p replies ih =>
      have rest {turns : Nat} (enough : replies.length < turns) := ih (fun p member => words p (List.mem_cons_of_mem _ member))
        (fun p member => announced p (List.mem_cons_of_mem _ member)) enough
      have fewer : replies.length < turns := Nat.lt_of_succ_lt enough
      obtain ⟨key, reply⟩ := p
      cases reply with
      | item it =>
          cases it with
          | none => exact rest fewer
          | some e =>
              obtain ⟨turns, rfl⟩ := Nat.exists_eq_add_one_of_ne_zero (Nat.ne_zero_of_lt enough)
              obtain ⟨flags, size, word, digits, asciiPrefix, length⟩ := announced _ List.mem_cons_self e rfl
              have front : handleGet withVersion ((key, .item (some e)) :: replies) =
                  appendItem withVersion key e ++ handleGet withVersion replies := by
                simp [handleGet, found]
              have reads : readItem withVersion (appendItem withVersion key e ++ handleGet withVersion replies) =
                  some (showing withVersion key flags e, handleGet withVersion replies) :=
                (readItem_iff (words _ List.mem_cons_self) word digits asciiPrefix _).mpr length
              have same : flagsOf e.asciiPrefix = flags := by rw [asciiPrefix, flagsOf_makePrefix word]
              rw [front, readItems, if_neg (appendItem_ne_msgEnd _), reads]
              simp only [Option.bind_eq_bind, Option.bind_some, rest (Nat.lt_of_succ_lt_succ enough)]
              rw [← same]
              rfl
      | _ => exact rest fewer

/-! ## "a" is set, and read by `gets` -/

theorem five_announced : Announced five.asciiPrefix five.data :=
  ⟨[0x30], [0x31], by decide, by decide, rfl, by decide⟩

theorem run_set_announced : Run (AnnouncedStep plain) .start
    [.send 0 (.set five), .shard 1 (.request (.set five) (.flag false))] (second worldSet) := by
  refine .snoc (.single ⟨step_sending, fun i r reply same => nomatch same⟩) ⟨step_delivered, fun i r reply same => ?_⟩
  cases same
  exact five_announced

theorem five_answers : Answers 2 plain [0x61] (.item (some (five.entry 1))) := by
  have call : ShardedCache.call plain (1 : Fin 2) (.get [0x61]) = .invokeOn [1] := rfl
  have asking : Shards.Step plain (second worldSet) (.send 1 (.get [0x61])) shardsGetting := .send call
  have sent : shardsGetting.messages = [] ++ (1, .get [0x61]) :: [] := rfl
  have getting : World.Step plain (shardsGetting.peers 1) _ worldGet := (peers_second worldSet).symm ▸ step_get
  exact ⟨_, _, _, 1, .snoc run_set_announced ⟨asking, fun i r reply same => nomatch same⟩, .deliver sent getting⟩

def parserGets : Parser := ⟨[], [[0x61]], [], [], 0, [], 0, 0, false⟩

/-- **A client reads what is there.**  The answers of a multiple `get` come at different times and
in any order. -/
theorem replies_read_back (p : Parser) (report : Bytes) (withVersion : Bool) {replies : List (Bytes × Reply Entry)}
    (words : ∀ p ∈ replies, Word p.1) (answers : ∀ p ∈ replies, Answers n P p.1 p.2) {turns : Nat}
    (enough : replies.length < turns) :
    readItems withVersion turns (p.handle report (if withVersion then .cmdGets else .cmdGet) replies) =
      some (shown withVersion replies) := by
  have served : replies.any (·.2 = .badAlloc) = false := by
    rw [List.any_eq_false]
    intro q member thrown
    obtain ⟨found, item, -⟩ := (answers q member).item
    rw [item] at thrown
    exact absurd (of_decide_eq_true thrown) (by simp)
  have text : p.handle report (if withVersion then .cmdGets else .cmdGet) replies = handleGet withVersion replies := by
    unfold Parser.handle
    rw [served]
    cases withVersion <;> rfl
  rw [text]
  refine readItems_handleGet withVersion words (fun q member e item => ?_) enough
  obtain ⟨found, item', announced⟩ := (answers q member).item
  rw [item'] at item
  cases item
  exact announced e rfl

theorem replies_read_back_five : readItems true 2 (parserGets.handle [] .cmdGets [([0x61], .item (some (five.entry 1)))]) =
    some [showing true [0x61] (flagsOf five.asciiPrefix) (five.entry 1)] := by
  have words : ∀ p ∈ [(([0x61] : Bytes), Reply.item (some (five.entry 1)))], Word p.1 := by decide
  have answers : ∀ p ∈ [(([0x61] : Bytes), Reply.item (some (five.entry 1)))], Answers 2 plain p.1 p.2 := by
    intro p member
    cases List.mem_singleton.mp member
    exact five_answers
  exact replies_read_back parserGets [] true words answers (by decide)

/-- "a" is incremented by 5. -/
def worldTen : World := ⟨served worldSet (.incr [0x61] 5) 16, [16]⟩

def ten : Entry := ⟨five.asciiPrefix, [0x31, 0x30], 0, 2⟩

theorem step_ten : World.Step plain worldSet (.request (.incr [0x61] 5) (.counter (some ten) true)) worldTen := by
  have done : perform plain (grantAt [] 16) true worldSet.cache (.incr [0x61] 5) =
      .ok (worldTen.cache, .counter (some 16) true) := rfl
  have look : (Reply.counter (some 16) true).look worldTen.cache.entryAt = .counter (some ten) true := by decide +kernel
  rw [← look]
  exact .request (r := .incr [0x61] 5) trivial (fun a => Nat.zero_lt_succ _) done

/-- **Counters and lengths.**  After a counter was changed, its item is read back if and only if
the number of its digits is what it was. -/
theorem counter_read_iff (run : Run (AnnouncedStep P) .start acts s) {i : Fin n} {r : Request} {e' : Entry}
    (about : r.key? = some key) (count : (Act.request r (.counter (some e') true)).isCount = true)
    (saw : s.contents P key = some e) (step : Shards.Step P s (.shard i (.request r (.counter (some e') true))) s')
    (word : Word key) (withVersion : Bool) (rest : Bytes) :
    s'.contents P key = some e' ∧
      (readItem withVersion (appendItem withVersion key e' ++ rest) =
        some (showing withVersion key (flagsOf e'.asciiPrefix) e', rest) ↔ e'.value.length = e.value.length) := by
  have all := run_announced run
  obtain ⟨flags, size, flagsWord, digits, asciiPrefix, length⟩ := all.announced key e saw
  have store := step.serves all.routed about
  obtain ⟨put, kept⟩ : s'.contents P key = some e' ∧ e'.asciiPrefix = e.asciiPrefix := by
    cases r with
    | incr k delta => exact store.counts about saw (serve_incr _ _ _)
    | decr k delta => exact store.counts about saw (serve_decr _ _ _)
    | _ => cases count
  refine ⟨put, ?_⟩
  have announces : e'.asciiPrefix = makePrefix flags size := kept.trans asciiPrefix
  have same : flagsOf e'.asciiPrefix = flags := by rw [announces, flagsOf_makePrefix flagsWord]
  rw [same, readItem_iff word flagsWord digits announces, length]
  exact eq_comm

/-- "5" of length 1 has become "10" of length 1. -/
theorem counter_read_iff_ten : (second worldTen).contents plain [0x61] = some ten ∧
    (readItem false (appendItem false [0x61] ten ++ msgEnd) =
      some (showing false [0x61] (flagsOf ten.asciiPrefix) ten, msgEnd) ↔ ten.value.length = (five.entry 1).value.length) :=
  counter_read_iff run_set_announced (r := .incr [0x61] 5) rfl rfl saw_sent (second_step rfl step_ten) (by decide) false msgEnd

end Runs

end Itaro.Engine
