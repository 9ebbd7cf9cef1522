/-
# Engine.ShardRuns -- memcache.cc: whole runs of a sharded cache

The shards take turns in any order, and what they send each other arrives when it likes.

* `shards_refine`: they are one store all the same.  A request about a key is answered as if
  one cache had all the keys; flushing and timers go shard by shard.
* `shards_cas_stored_iff`: a `cas` succeeds if and only if no shard has served a write of the
  key since.
* `shards_counter_exact`: no `incr` or `decr` is lost, wherever it came from.
-/
import Itaro.Engine.Shards

namespace Itaro.Engine

set_option autoImplicit false

open Theory

variable {P : Platform}

/-! ## One store -/

namespace Store

variable {ι : Type} [DecidableEq ι] {cpu : Bytes → ι}

/-- The entries of one shard. -/
def ofShard (cpu : Bytes → ι) (m : Store) (i : ι) : Store := fun key => if cpu key = i then m key else none

/-- What one of the shards does. -/
inductive ShardStep (P : Platform) (cpu : Bytes → ι) : Store → ι × Act → Store → Prop
  | whole {m m' : Store} {a : Act} {key : Bytes} (about : a.key? = some key) (step : Step P m a m') :
      ShardStep P cpu m (cpu key, a) m'
  | part {m m' : Store} {i : ι} {a : Act} (about : a.key? = none) (step : Step P (m.ofShard cpu i) a (m'.ofShard cpu i))
      (others : ∀ key, cpu key ≠ i → m' key = m key) : ShardStep P cpu m (i, a) m'

variable {m m' : Store} {key k : Bytes} {c : Change}

theorem change_congr (same : m k = m' k) : m.change key c k = m'.change key c k := by
  cases c with
  | keep => exact same
  | drop =>
      by_cases here : k = key
      · simp [change, here]
      · simp [change, here, same]
  | put e =>
      by_cases here : k = key
      · simp [change, here]
      · simp [change, here, same]

theorem change_other (other : k ≠ key) : m.change key c k = m k := by
  cases c with
  | keep => rfl
  | drop => exact Function.update_of_ne other _ _
  | put e => exact Function.update_of_ne other _ _

/-- Of what is lost, only what is the shard's own counts. -/
theorem ofShard_without {i : ι} {lost : List Bytes} (here : cpu k = i) :
    (m.ofShard cpu i).without lost k = m.without (lost.filter (cpu · = i)) k := by
  simp [without, ofShard, here]

theorem without_other {i : ι} {lost : List Bytes} (there : cpu k ≠ i) : m.without (lost.filter (cpu · = i)) k = m k := by
  simp [without, there]

/-- A shard answers a request about one of its keys like a store that has the others too. -/
theorem Step.whole {a : Act} (step : Step P (m.ofShard cpu (cpu key)) a (m'.ofShard cpu (cpu key)))
    (about : a.key? = some key) (others : ∀ k, cpu k ≠ cpu key → m' k = m k) : Step P m a m' := by
  have after {m₁ : Store} (result : m'.ofShard cpu (cpu key) = m₁) {m₂ : Store}
      (inside : ∀ k, cpu k = cpu key → m₁ k = m₂ k) (outside : ∀ k, cpu k ≠ cpu key → m₂ k = m k) : m' = m₂ := by
    funext k
    by_cases here : cpu k = cpu key
    · rw [← inside k here, ← result, ofShard, if_pos here]
    · rw [others k here, outside k here]
  have looked : m.ofShard cpu (cpu key) key = m key := if_pos rfl
  generalize result : m'.ofShard cpu (cpu key) = m₁ at step
  cases step with
  | @serve r key' about' lost foreign room =>
      cases about.symm.trans about'
      rw [looked] at result room ⊢
      have changed : m' = (m.without (lost.filter (cpu · = cpu key))).change key (Entry.serve P (m key) r).2 := by
        refine after result (fun k here => change_congr (ofShard_without here)) fun k there => ?_
        rw [change_other fun same => there (congrArg cpu same), without_other there]
      rw [changed]
      refine .serve about _ (fun member => foreign (List.mem_of_mem_filter member)) fun kept => ?_
      rw [room kept]
      rfl
  | @badAlloc r key' about' lost put =>
      cases about.symm.trans about'
      rw [looked] at put
      have own : (key :: lost).filter (cpu · = cpu key) = key :: lost.filter (cpu · = cpu key) :=
        List.filter_cons_of_pos (decide_eq_true rfl)
      have changed : m' = m.without (key :: lost.filter (cpu · = cpu key)) := by
        refine after result (fun k here => ?_) fun k there => ?_
        · rw [ofShard_without here, own]
        · rw [← own, without_other there]
      rw [changed]
      exact .badAlloc about _ put
  | _ => cases about

end Store

/-! ## Projections -/

section Projecting

variable {n : Nat} [NeZero n] {s s' : Shards n} {i : Fin n} {a : Act} {b : ShardAct n} {acts : List (ShardAct n)}
  {key : Bytes}

/-- What is executed, and where. -/
def ShardAct.executed : ShardAct n → Option (Fin n × Act)
  | .send _ _ => none
  | .shard i a => some (i, a)

/-- What is executed by one shard. -/
def ShardAct.on (i : Fin n) : ShardAct n → Option Act
  | .send _ _ => none
  | .shard j a => if j = i then some a else none

theorem Shards.ofShard_contents (routed : Routed P s) (i : Fin n) :
    (s.contents P).ofShard (getCpu P) i = (s.peers i).cache.contents := by
  funext key
  rw [Store.ofShard, contents]
  split
  case isTrue here => rw [here]
  case isFalse there =>
    by_contra cached
    exact there (routed.home i key (Ne.symm cached)).symm

theorem Shards.contents_other {w : World} (peers : s'.peers = Function.update s.peers i w) (there : getCpu P key ≠ i) :
    s'.contents P key = s.contents P key := by
  rw [contents, contents, peers, Function.update_of_ne there]

theorem Shards.Step.shardStep (routed : Routed P s) (step : Shards.Step P s (.shard i a) s') :
    Store.ShardStep P (getCpu P) (s.contents P) (i, a) (s'.contents P) := by
  have routed' := step.routed routed
  obtain ⟨here, r, other, -⟩ | ⟨j, a', w, same, move, home, peers⟩ := step.cases routed
  · cases other
  · cases same
    have store := (move.moves (routed.sound i)).store
    have after : (s'.peers i).cache.contents = w.cache.contents := by rw [peers, Function.update_self]
    rw [← after, ← ofShard_contents routed, ← ofShard_contents routed'] at store
    cases keyed : a.key? with
    | none => exact .part keyed store fun key there => contents_other peers there
    | some key =>
        cases home key keyed
        exact .whole keyed (store.whole keyed fun k there => contents_other peers there)

/-- What a run does, seen from one shard. -/
theorem run_on {also : World → Act → World → Prop} {step : Shards n → ShardAct n → Shards n → Prop}
    (sub : ∀ s b s', step s b s' → Shards.Step P s b s')
    (guards : ∀ s a s', step s (.shard i a) s' → World.Step P (s.peers i) a (s'.peers i) → also (s.peers i) a (s'.peers i))
    (routed : Routed P s) (run : Run step s acts s') : Run also (s.peers i) (acts.filterMap (ShardAct.on i)) (s'.peers i) := by
  have guarded := run.guarded (I := Routed P) (fun _ b _ routed last => (sub _ b _ last).routed routed) routed
  refine guarded.project (f := fun s => s.peers i) ?_ ?_
  · rintro s b s' a ⟨routed, last, -⟩ seen
    obtain ⟨here, r, rfl, -⟩ | ⟨j, a', w, rfl, move, -, peers⟩ := (sub _ _ _ last).cases routed
    · cases seen
    · rw [ShardAct.on] at seen
      split at seen
      case isTrue same =>
        cases seen
        cases same
        refine guards _ _ _ last ?_
        rw [peers, Function.update_self]
        exact move
      case isFalse other => cases seen
  · rintro s b s' ⟨routed, last, -⟩ unseen
    obtain ⟨here, r, rfl, peers⟩ | ⟨j, a', w, rfl, move, -, peers⟩ := (sub _ _ _ last).cases routed
    · exact congrFun peers i
    · rw [ShardAct.on] at unseen
      split at unseen
      case isTrue same => cases unseen
      case isFalse other =>
        show s'.peers i = s.peers i
        rw [peers, Function.update_of_ne (Ne.symm other)]

/-- Each request was executed where its key is at home. -/
theorem run_home (routed : Routed P s) (run : Run (Shards.Step P) s acts s') :
    ∀ p ∈ acts.filterMap ShardAct.executed, Home P p.1 p.2.key? := by
  have guarded := run.guarded (I := Routed P) (fun _ _ _ routed last => last.routed routed) routed
  clear run
  induction guarded with
  | nil => exact fun _ member => absurd member List.not_mem_nil
  | snoc run last ih =>
      obtain ⟨routed, last, -⟩ := last
      intro p member
      rw [List.filterMap_append] at member
      rcases List.mem_append.mp member with before | now
      · exact ih p before
      · obtain ⟨here, r, rfl, -⟩ | ⟨j, a, w, rfl, -, home, -⟩ := last.cases routed
        · cases now
        · cases List.mem_singleton.mp now
          exact home

omit [NeZero n] in
theorem mem_on {a : Act} : a ∈ acts.filterMap (ShardAct.on i) ↔ (i, a) ∈ acts.filterMap ShardAct.executed := by
  rw [List.mem_filterMap, List.mem_filterMap]
  refine exists_congr fun b => and_congr_right fun _ => ?_
  cases b with
  | send here r => simp [ShardAct.on, ShardAct.executed]
  | shard j a' =>
      rw [ShardAct.on, ShardAct.executed]
      split
      case isTrue same => simp [same]
      case isFalse other => simp [other]

theorem key_of_writes (writes : a.writes key = true) : a.key? = some key := by
  cases a with
  | request r reply => exact of_decide_eq_true (Bool.and_elim_left writes)
  | _ => cases writes

/-- What other shards do makes nothing of the number of a key. -/
theorem foldl_on (home : ∀ p ∈ acts.filterMap ShardAct.executed, Home P p.1 p.2.key?) (n₀ : BitVec 64) :
    (acts.filterMap (ShardAct.on (getCpu P key))).foldl (fun n a => a.count key n) n₀ =
      (acts.filterMap ShardAct.executed).foldl (fun n p => p.2.count key n) n₀ := by
  induction acts generalizing n₀ with
  | nil => rfl
  | cons b acts ih =>
      cases b with
      | send here r => exact ih home n₀
      | shard j a =>
          have rest := ih fun p member => home p (List.mem_cons_of_mem _ member)
          by_cases same : j = getCpu P key
          · have seen : ShardAct.on (getCpu P key) (.shard j a) = some a := if_pos same
            rw [List.filterMap_cons_some seen]
            exact rest _
          · have unseen : ShardAct.on (getCpu P key) (.shard j a) = none := if_neg same
            rw [List.filterMap_cons_none unseen, rest]
            have idle : a.count key n₀ = n₀ := by
              have away := home (j, a) List.mem_cons_self key
              cases a with
              | request r reply =>
                  cases r with
                  | incr k delta => exact if_neg fun here => same (away (congrArg some here))
                  | decr k delta => exact if_neg fun here => same (away (congrArg some here))
                  | _ => rfl
              | _ => rfl
            show _ = (acts.filterMap ShardAct.executed).foldl _ (a.count key n₀)
            rw [idle]

end Projecting

/-! ## Two shards, and a few steps -/

/-- "a" is set by shard 0, which is not its own. -/
def shardsSending : Shards 2 := ⟨fun _ => .start, [(1, .set five)]⟩

/-- Of two shards, the second has moved. -/
def second (w : World) : Shards 2 := ⟨Function.update (fun _ => .start) 1 w, []⟩

/-- "a" is read; `get` is sent, also at home. -/
def shardsGetting : Shards 2 := ⟨(second worldSet).peers, [(1, .get [0x61])]⟩

theorem peers_second (w : World) : (second w).peers 1 = w := by simp [second]

theorem second_step {w w' : World} {r : Request} {reply : Reply Entry}
    (call : ShardedCache.call plain (1 : Fin 2) r = .atOnce) (step : World.Step plain w (.request r reply) w') :
    Shards.Step plain (second w) (.shard 1 (.request r reply)) (second w') := by
  have moved : World.Step plain ((second w).peers 1) (.request r reply) w' := by
    rw [peers_second]
    exact step
  have after := Shards.Step.atOnce call moved
  rwa [second, Function.update_idem] at after

theorem step_sending : Shards.Step plain .start (.send 0 (.set five)) shardsSending := by
  have call : ShardedCache.call plain (0 : Fin 2) (.set five) = .invokeOn [1] := rfl
  exact .send call

theorem step_delivered : Shards.Step plain shardsSending (.shard 1 (.request (.set five) (.flag false)))
    (second worldSet) := by
  have sent : shardsSending.messages = [] ++ (1, .set five) :: [] := rfl
  exact .deliver sent step_set

theorem run_sent : Run (Shards.Step plain) .start [.send 0 (.set five), .shard 1 (.request (.set five) (.flag false))]
    (second worldSet) :=
  .snoc (.single step_sending) step_delivered

theorem contents_second (w : World) {key : Bytes} (here : (getCpu plain key : Fin 2) = 1) :
    (second w).contents plain key = w.cache.contents key := by
  rw [Shards.contents, here, peers_second]

def worldStale : World := ⟨served worldIncr (.cas five 1) 24, [16]⟩

theorem step_stale : World.Step plain worldIncr (.request (.cas five 1) (.cas .badVersion)) worldStale := by
  have done : perform plain (grantAt [] 24) true worldIncr.cache (.cas five 1) =
      .ok (worldStale.cache, .cas .badVersion) := rfl
  have few (a : Nat) : [16].count a < 2 ^ 16 - 2 := Nat.lt_of_le_of_lt List.count_le_length (by decide)
  exact .request (w := worldIncr) (r := .cas five 1) five_fits few done

theorem saw_sent : (second worldSet).contents plain [0x61] = some (five.entry 1) := by
  rw [contents_second worldSet rfl]
  decide +kernel

theorem second_counts : Shards.Step plain (second worldSet)
    (.shard 1 (.request (.incr [0x61] 3) (.counter (some ⟨five.asciiPrefix, [0x38], 0, 2⟩) true))) (second worldIncr) :=
  second_step rfl step_incr

theorem stays_incr : ((second worldIncr).contents plain [0x61]).isSome := by
  rw [contents_second worldIncr rfl]
  decide +kernel

section Runs

variable {n : Nat} [NeZero n] {s s' s'' : Shards n} {acts : List (ShardAct n)} {key : Bytes} {e : Entry}

/-- **The shards are one store**, and a key is cached by its own shard only. -/
theorem shards_refine (run : Run (Shards.Step P) .start acts s) :
    Run (Store.ShardStep P (getCpu P)) .empty (acts.filterMap ShardAct.executed) (s.contents P) ∧
      ∀ i key, (s.peers i).cache.contents key ≠ none → i = getCpu P key := by
  refine ⟨?_, (run_routed run).home⟩
  have guarded := run.guarded (I := Routed P) (fun _ _ _ routed step => step.routed routed) routed_start
  refine guarded.project (f := Shards.contents P) ?_ ?_
  · rintro s b s' p ⟨routed, step, -⟩ seen
    cases b with
    | send here r => cases seen
    | shard i a =>
        cases seen
        exact step.shardStep routed
  · rintro s b s' ⟨routed, step, -⟩ unseen
    cases b with
    | send here r =>
        cases step
        rfl
    | shard i a => cases unseen

theorem shards_refine_sent : Run (Store.ShardStep plain (getCpu plain)) .empty
      [((1 : Fin 2), .request (.set five) (.flag false))] ((second worldSet).contents plain) ∧
    ∀ (i : Fin 2) (key : Bytes), ((second worldSet).peers i).cache.contents key ≠ none → i = getCpu plain key :=
  shards_refine run_sent

/-- **Compare and swap**, from any shard to any other. -/
theorem shards_cas_stored_iff {before : List (ShardAct n)} (reached : Run (Shards.Step P) .start before s)
    (saw : s.contents P key = some e)
    (run : Run (fun s b s' => Shards.Step P s b s' ∧ (s'.contents P key).isSome) s acts s')
    (few : acts.length < 2 ^ 64) {ins : ItemInsertionData} (same : ins.key = key) {i : Fin n} {reply : Reply Entry}
    (last : Shards.Step P s' (.shard i (.request (.cas ins e.version) reply)) s'') (memory : reply ≠ .badAlloc) :
    reply = .cas .stored ↔ ∀ p ∈ acts.filterMap ShardAct.executed, p.2.writes key = false := by
  have routed := run_routed reached
  have steps : Run (Shards.Step P) s acts s' := run.mono fun _ _ _ step => step.1
  have routed' := steps.invariant (fun _ _ _ routed step => step.routed routed) routed
  have seen : Run (fun w a w' => World.Step P w a w' ∧ (w'.cache.contents key).isSome) (s.peers (getCpu P key))
      (acts.filterMap (ShardAct.on (getCpu P key))) (s'.peers (getCpu P key)) :=
    run_on (fun _ _ _ step => step.1) (fun _ _ _ step moved => ⟨moved, step.2⟩) routed run
  obtain ⟨-, store⟩ := refines_of_sound (Stays P key) (fun _ _ _ step => step.1)
    (fun _ _ _ step store => ⟨store, step.2⟩) (routed.sound _) seen
  obtain ⟨here, r, other, -⟩ | ⟨j, a, w, act, move, home, -⟩ := last.cases routed'
  · cases other
  · cases act
    cases home key (congrArg some same)
    rw [cas_answer store saw (Nat.lt_of_le_of_lt (List.length_filterMap_le _ _) few) same
      (move.moves (routed'.sound _)).store memory]
    refine ⟨fun quiet p member => ?_, fun quiet a member => quiet _ (mem_on.mp member)⟩
    by_contra writes
    have wrote := Bool.eq_true_of_not_eq_false writes
    have place := run_home routed steps p member key (key_of_writes wrote)
    exact writes (quiet p.2 (mem_on.mpr (place ▸ member)))

/-- An `incr` came in between. -/
theorem shards_cas_stored_iff_incr : (.cas .badVersion : Reply Entry) = .cas .stored ↔
    ∀ p ∈ [((1 : Fin 2), Act.request (.incr [0x61] 3) (.counter (some ⟨five.asciiPrefix, [0x38], 0, 2⟩) true))],
      p.2.writes [0x61] = false := by
  exact shards_cas_stored_iff run_sent saw_sent (.single ⟨second_counts, stays_incr⟩) (by decide) rfl (second_step rfl step_stale) (by simp)

/-- **Counters** that any shards change, as many as like at a time. -/
theorem shards_counter_exact (reads : ∀ n, P.lexicalCast (toSstring n) = some n) {before : List (ShardAct n)}
    (reached : Run (Shards.Step P) .start before s) {n₀ : BitVec 64} (saw : s.contents P key = some e)
    (number : e.value = toSstring n₀)
    (run : Run (fun s b s' => Shards.Step P s b s' ∧ (s'.contents P key).isSome ∧
      ∀ i a, b = .shard i a → a.writes key = true → a.isCount = true) s acts s') :
    ∃ e', s'.contents P key = some e' ∧
      e'.value = toSstring ((acts.filterMap ShardAct.executed).foldl (fun n p => p.2.count key n) n₀) := by
  have routed := run_routed reached
  have steps : Run (Shards.Step P) s acts s' := run.mono fun _ _ _ step => step.1
  have seen : Run (fun w a w' => World.Step P w a w' ∧ (w'.cache.contents key).isSome ∧
      (a.writes key = true → a.isCount = true)) (s.peers (getCpu P key))
      (acts.filterMap (ShardAct.on (getCpu P key))) (s'.peers (getCpu P key)) :=
    run_on (fun _ _ _ step => step.1) (fun _ a _ step moved => ⟨moved, step.2.1, step.2.2 _ a rfl⟩) routed run
  obtain ⟨-, store⟩ := refines_of_sound (StaysCounter P key) (fun _ _ _ step => step.1)
    (fun _ _ _ step store => ⟨⟨store, step.2.1⟩, step.2.2⟩) (routed.sound _) seen
  rw [← foldl_on (run_home routed steps)]
  have result := counted reads store saw number
  exact result

theorem shards_counter_exact_sent : ∃ e', (second worldIncr).contents plain [0x61] = some e' ∧ e'.value = toSstring
    ([((1 : Fin 2), Act.request (.incr [0x61] 3) (.counter (some ⟨five.asciiPrefix, [0x38], 0, 2⟩) true))].foldl
      (fun n p => Act.count [0x61] p.2 n) 5) := by
  exact shards_counter_exact plain_reads run_sent saw_sent (by decide +kernel)
    (.single ⟨second_counts, stays_incr, fun i a same _ => by cases same; rfl⟩)

end Runs

end Itaro.Engine
