/-
# Engine.Shards -- memcache.cc: sharded_cache

Each shard has a cache that it alone touches; `get_cpu` names the shard of a key.  A
request that comes in at its shard is executed at once, with the exception of `get` and
`remove`; otherwise it is sent.  What is sent is executed some time later, in any order,
while the shards go on.

`Routed` is what the routing is for: every key is cached by its own shard only.
-/
import Itaro.Engine.CacheRuns

namespace Itaro.Engine

set_option autoImplicit false

open Theory

variable {P : Platform} {n : Nat} [NeZero n]

/-- `n` is `smp::count`. -/
def getCpu (P : Platform) (key : Bytes) : Fin n := Fin.ofNat n (P.hash key).toNat

/-- How a request is executed. -/
inductive Call (n : Nat)
  /-- `_peers.local()` -/
  | atOnce
  /-- `_peers.invoke_on`, `_peers.invoke_on_all` and `_peers.map_reduce` -/
  | invokeOn (cpus : List (Fin n))
  deriving DecidableEq

namespace ShardedCache

/-- `here` is `engine().cpu_id()`. -/
def orLocal (P : Platform) (here : Fin n) (key : Bytes) : Call n :=
  let cpu := getCpu P key
  if here = cpu then .atOnce else .invokeOn [cpu]

def flushAll : Call n := .invokeOn (List.finRange n)

def flushAt : Call n := .invokeOn (List.finRange n)

def set (P : Platform) (here : Fin n) (ins : ItemInsertionData) : Call n := orLocal P here ins.key

def add (P : Platform) (here : Fin n) (ins : ItemInsertionData) : Call n := orLocal P here ins.key

def replace (P : Platform) (here : Fin n) (ins : ItemInsertionData) : Call n := orLocal P here ins.key

def remove (P : Platform) (key : Bytes) : Call n := .invokeOn [getCpu P key]

def get (P : Platform) (key : Bytes) : Call n := .invokeOn [getCpu P key]

def cas (P : Platform) (here : Fin n) (ins : ItemInsertionData) : Call n := orLocal P here ins.key

def stats : Call n := .invokeOn (List.finRange n)

def incr (P : Platform) (here : Fin n) (key : Bytes) : Call n := orLocal P here key

def decr (P : Platform) (here : Fin n) (key : Bytes) : Call n := orLocal P here key

def call (P : Platform) (here : Fin n) : Request → Call n
  | .set ins => set P here ins
  | .add ins => add P here ins
  | .replace ins => replace P here ins
  | .remove key => remove P key
  | .get key => get P key
  | .cas ins _ => cas P here ins
  | .incr key _ => incr P here key
  | .decr key _ => decr P here key
  | .flushAll => flushAll
  | .flushAt _ => flushAt
  | .stats => stats

end ShardedCache

structure Shards (n : Nat) where
  peers : Fin n → World
  /-- What is sent and not yet executed. -/
  messages : List (Fin n × Request)

def Shards.start : Shards n := ⟨fun _ => .start, []⟩

inductive ShardAct (n : Nat)
  | send (here : Fin n) (r : Request)
  | shard (i : Fin n) (a : Act)

/-- The key of the request that is executed, if there is one. -/
def Act.key? : Act → Option Bytes
  | .request r _ => r.key?
  | _ => none

def Act.isRequest : Act → Bool
  | .request _ _ => true
  | _ => false

/-- The caller keeps what a request refers to until it is executed. -/
inductive Shards.Step (P : Platform) : Shards n → ShardAct n → Shards n → Prop
  | send {s : Shards n} {here : Fin n} {r : Request} {cpus : List (Fin n)}
      (call : ShardedCache.call P here r = .invokeOn cpus) :
      Step P s (.send here r) ⟨s.peers, s.messages ++ cpus.map (·, r)⟩
  | atOnce {s : Shards n} {here : Fin n} {r : Request} {reply : Reply Entry} {w : World}
      (call : ShardedCache.call P here r = .atOnce) (step : World.Step P (s.peers here) (.request r reply) w) :
      Step P s (.shard here (.request r reply)) ⟨Function.update s.peers here w, s.messages⟩
  | deliver {s : Shards n} {i : Fin n} {r : Request} {reply : Reply Entry} {w : World}
      {before after : List (Fin n × Request)} (sent : s.messages = before ++ (i, r) :: after)
      (step : World.Step P (s.peers i) (.request r reply) w) :
      Step P s (.shard i (.request r reply)) ⟨Function.update s.peers i w, before ++ after⟩
  /-- Timers, memory and handles are the shard's own business. -/
  | alone {s : Shards n} {i : Fin n} {a : Act} {w : World} (own : a.isRequest = false)
      (step : World.Step P (s.peers i) a w) :
      Step P s (.shard i a) ⟨Function.update s.peers i w, s.messages⟩

/-- What the shards have together. -/
def Shards.contents (P : Platform) (s : Shards n) : Store := fun key => (s.peers (getCpu P key)).cache.contents key

/-! ## Routing -/

/-- A request is about a key of the shard that executes it. -/
def Home (P : Platform) (i : Fin n) (key? : Option Bytes) : Prop := ∀ key, key? = some key → i = getCpu P key

structure Routed (P : Platform) (s : Shards n) : Prop where
  sound : ∀ i, Sound P (s.peers i).cache (s.peers i).handles
  messages : ∀ i r, (i, r) ∈ s.messages → Home P i r.key?
  home : ∀ i key, (s.peers i).cache.contents key ≠ none → i = getCpu P key

theorem routed_start : Routed P (.start : Shards n) where
  sound _ := sound_new
  messages _ _ member := absurd member List.not_mem_nil
  home _ _ cached := absurd rfl cached

section Routing

variable {here i : Fin n} {r : Request} {cpus : List (Fin n)} {s s' : Shards n} {a : Act} {b : ShardAct n}

theorem ShardedCache.home_of_atOnce (call : ShardedCache.call P here r = .atOnce) : Home P here r.key? := by
  have mine {key : Bytes} (now : ShardedCache.orLocal P here key = .atOnce) : here = getCpu P key := by
    rw [ShardedCache.orLocal] at now
    split at now
    case isTrue same => exact same
    case isFalse other => cases now
  intro key about
  cases r with
  | set ins => cases about; exact mine call
  | add ins => cases about; exact mine call
  | replace ins => cases about; exact mine call
  | cas ins version => cases about; exact mine call
  | incr k delta => cases about; exact mine call
  | decr k delta => cases about; exact mine call
  | remove k => cases call
  | get k => cases call
  | _ => cases about

theorem ShardedCache.home_of_invokeOn (call : ShardedCache.call P here r = .invokeOn cpus) (member : i ∈ cpus) :
    Home P i r.key? := by
  have sent {key : Bytes} (sending : ShardedCache.orLocal P here key = .invokeOn cpus) : i = getCpu P key := by
    rw [ShardedCache.orLocal] at sending
    split at sending
    case isTrue same => cases sending
    case isFalse other =>
      cases sending
      exact List.mem_singleton.mp member
  intro key about
  cases r with
  | set ins => cases about; exact sent call
  | add ins => cases about; exact sent call
  | replace ins => cases about; exact sent call
  | cas ins version => cases about; exact sent call
  | incr k delta => cases about; exact sent call
  | decr k delta => cases about; exact sent call
  | remove k => cases about; cases call; exact List.mem_singleton.mp member
  | get k => cases about; cases call; exact List.mem_singleton.mp member
  | _ => cases about

/-- Entries come from requests about their keys. -/
theorem Store.Step.new_key {m m' : Store} {key : Bytes} (step : Store.Step P m a m') (there : m' key ≠ none) :
    m key ≠ none ∨ a.key? = some key := by
  obtain ⟨e, after⟩ := Option.ne_none_iff_exists'.mp there
  rcases step.entry_cases after with ⟨r, rfl, about, -⟩ | ⟨-, before⟩
  · exact .inr about
  · exact .inl (before ▸ Option.some_ne_none e)

/-- A step is a request that is sent, or one of the worlds moves. -/
theorem Shards.Step.cases (routed : Routed P s) (step : Shards.Step P s b s') :
    (∃ here r, b = .send here r ∧ s'.peers = s.peers) ∨
      ∃ i a w, b = .shard i a ∧ World.Step P (s.peers i) a w ∧ Home P i a.key? ∧
        s'.peers = Function.update s.peers i w := by
  cases step with
  | send call => exact .inl ⟨_, _, rfl, rfl⟩
  | atOnce call step => exact .inr ⟨_, _, _, rfl, step, ShardedCache.home_of_atOnce call, rfl⟩
  | deliver sent step =>
      have member := sent ▸ List.mem_append_right _ List.mem_cons_self
      exact .inr ⟨_, _, _, rfl, step, routed.messages _ _ member, rfl⟩
  | @alone i a w own step =>
      refine .inr ⟨i, a, w, rfl, step, ?_, rfl⟩
      cases a with
      | request r reply => cases own
      | _ => exact fun _ about => nomatch about

theorem Shards.Step.messages (routed : Routed P s) (step : Shards.Step P s b s') :
    ∀ i r, (i, r) ∈ s'.messages → Home P i r.key? := by
  cases step with
  | send call =>
      intro i r member
      rcases List.mem_append.mp member with old | new
      · exact routed.messages i r old
      · obtain ⟨cpu, chosen, pair⟩ := List.mem_map.mp new
        cases pair
        exact ShardedCache.home_of_invokeOn call chosen
  | atOnce call step => exact routed.messages
  | deliver sent step =>
      intro i r member
      refine routed.messages i r ?_
      rw [sent]
      rcases List.mem_append.mp member with front | back
      · exact List.mem_append_left _ front
      · exact List.mem_append_right _ (List.mem_cons_of_mem _ back)
  | alone own step => exact routed.messages

theorem Shards.Step.routed (routed : Routed P s) (step : Shards.Step P s b s') : Routed P s' := by
  have sent := step.messages routed
  obtain ⟨here, r, -, peers⟩ | ⟨i, a, w, -, move, home, peers⟩ := step.cases routed
  · exact ⟨peers ▸ routed.sound, sent, peers ▸ routed.home⟩
  · have moves := move.moves (routed.sound i)
    refine ⟨fun j => ?_, sent, fun j key => ?_⟩
    · rw [peers]
      by_cases same : j = i
      · subst same
        rw [Function.update_self]
        exact moves.sound
      · rw [Function.update_of_ne same]
        exact routed.sound j
    · rw [peers]
      by_cases same : j = i
      · subst same
        rw [Function.update_self]
        intro there
        rcases moves.store.new_key there with before | about
        · exact routed.home j key before
        · exact home key about
      · rw [Function.update_of_ne same]
        exact routed.home j key

theorem run_routed {acts : List (ShardAct n)} (run : Run (Shards.Step P) .start acts s) : Routed P s :=
  run.invariant (fun _ _ _ routed step => step.routed routed) routed_start

end Routing

end Itaro.Engine
