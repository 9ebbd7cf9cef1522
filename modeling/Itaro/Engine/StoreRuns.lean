/-
# Engine.StoreRuns -- versions and counters of a store

While a key stays in a store, its version counts the requests that have put an entry
for it (`versions`), so that a version that is seen again means that nothing was written
in between, for less than 2^64 writes.  A counter that only `incr` and `decr` write is
the number they make of it (`counted`).
-/
import Itaro.Engine.Store
import Itaro.Theory.Runs
import Mathlib.Data.BitVec

namespace Itaro.Engine

set_option autoImplicit false

open Theory

variable {P : Platform} {m m' : Store} {key : Bytes} {e e' : Entry} {a : Act}

/-! ## Writing -/

/-- The answer says that an entry was put. -/
def Request.stores {ι : Type} : Request → Reply ι → Bool
  | .set _, .flag _ => true
  | .add _, .flag b | .replace _, .flag b => b
  | .cas _ _, .cas result => result = .stored
  | .incr _ _, .counter _ changed | .decr _ _, .counter _ changed => changed
  | _, _ => false

def Act.writes (key : Bytes) : Act → Bool
  | .request r reply => r.key? = some key && r.stores reply
  | _ => false

theorem stores_serve (o : Option Entry) (r : Request) :
    r.stores (Entry.serve P o r).1 = (Entry.serve P o r).2.isPut := by
  have adjusted (change : BitVec 64 → BitVec 64) : ∃ it changed, (Entry.adjust P change o).1 = .counter it changed ∧
      changed = (Entry.adjust P change o).2.isPut := by
    cases o with
    | none => exact ⟨_, _, rfl, rfl⟩
    | some e =>
        rw [Entry.adjust]
        cases integral P e.value <;> exact ⟨_, _, rfl, rfl⟩
  cases r with
  | incr k delta =>
      obtain ⟨it, changed, reply, put⟩ := adjusted fun n => n + delta
      cases o <;> rw [Entry.serve, reply, ← put] <;> rfl
  | decr k delta =>
      obtain ⟨it, changed, reply, put⟩ := adjusted fun n => n - if delta < n then delta else n
      cases o <;> rw [Entry.serve, reply, ← put] <;> rfl
  | cas ins version =>
      cases o with
      | none => rfl
      | some e =>
          rw [Entry.serve]
          split <;> rfl
  | set ins => cases o <;> rfl
  | add ins => cases o <;> rfl
  | replace ins => cases o <;> rfl
  | remove k => cases o <;> rfl
  | get k => cases o <;> rfl
  | flushAll => cases o <;> rfl
  | flushAt time => cases o <;> rfl
  | stats => cases o <;> rfl

/-- An entry that replaces another has the next version. -/
theorem version_of_put {r : Request} (put : (Entry.serve P (some e) r).2 = .put e') : e'.version = e.version + 1 := by
  have adjusted {change : BitVec 64 → BitVec 64} (put : (Entry.adjust P change (some e)).2 = .put e') :
      e'.version = e.version + 1 := by
    rw [Entry.adjust] at put
    split at put
    · cases put
    · cases put
      rfl
  cases r with
  | set ins => cases put; rfl
  | add ins => cases put
  | replace ins => cases put; rfl
  | remove k => cases put
  | get k => cases put
  | cas ins version =>
      rw [Entry.serve] at put
      split at put
      · cases put
        rfl
      · cases put
  | incr k delta => exact adjusted put
  | decr k delta => exact adjusted put
  | flushAll => cases put
  | flushAt time => cases put
  | stats => cases put

/-- Where an entry comes from: a request about its key has put it, or it was there. -/
theorem Store.Step.entry_cases (step : Store.Step P m a m') (after : m' key = some e') :
    (∃ r, a = .request r (Entry.serve P (m key) r).1 ∧ r.key? = some key ∧
      (Entry.serve P (m key) r).2 = .put e') ∨ (a.writes key = false ∧ m key = some e') := by
  have lasts {lost : List Bytes} (here : m.without lost key = some e') : m key = some e' := by
    rw [without] at here
    split at here
    · cases here
    · exact here
  cases step with
  | @serve r key' about lost others room =>
      by_cases same : key' = key
      · subst same
        cases change : (Entry.serve P (m key') r).2 with
        | put e'' =>
            rw [change, Store.change, Function.update_self] at after
            cases after
            exact .inl ⟨r, rfl, about, change⟩
        | keep =>
            rw [change] at after
            refine .inr ⟨?_, lasts after⟩
            rw [Act.writes, stores_serve, change]
            exact Bool.and_false _
        | drop =>
            rw [change, Store.change, Function.update_self] at after
            cases after
      · refine .inr ⟨?_, ?_⟩
        · have other : r.key? ≠ some key := by
            rw [about]
            exact fun h => same (Option.some.inj h)
          rw [Act.writes, decide_eq_false other, Bool.false_and]
        · cases change : (Entry.serve P (m key') r).2 with
          | keep =>
              rw [change] at after
              exact lasts after
          | drop =>
              rw [change, Store.change, Function.update_of_ne (Ne.symm same)] at after
              exact lasts after
          | put e'' =>
              rw [change, Store.change, Function.update_of_ne (Ne.symm same)] at after
              exact lasts after
  | @badAlloc r key' about lost put =>
      refine .inr ⟨?_, lasts after⟩
      rw [Act.writes]
      cases r <;> simp [Request.stores]
  | flushAll => cases after
  | flushAt time => exact .inr ⟨rfl, after⟩
  | stats c => exact .inr ⟨rfl, after⟩
  | expire now =>
      rw [unexpired, Option.filter_eq_some_iff] at after
      exact .inr ⟨rfl, after.1⟩
  | flushTimer => cases after
  | reclaim lost => exact .inr ⟨rfl, lasts after⟩
  | release => exact .inr ⟨rfl, after⟩

/-- What a step does to a key that stays: it is written by a request about it, or it is as
it was. -/
theorem Store.Step.cases_of_stays (step : Store.Step P m a m') (before : m key = some e) (after : m' key = some e') :
    (∃ r, a = .request r (Entry.serve P (some e) r).1 ∧ r.key? = some key ∧
      (Entry.serve P (some e) r).2 = .put e') ∨ (a.writes key = false ∧ e' = e) := by
  have origin := step.entry_cases after
  rw [before] at origin
  exact origin.imp_right fun ⟨quiet, same⟩ => ⟨quiet, (Option.some.inj same).symm⟩

/-- The steps of a store in which the key stays. -/
def Stays (P : Platform) (key : Bytes) (m : Store) (a : Act) (m' : Store) : Prop :=
  Store.Step P m a m' ∧ (m' key).isSome = true

theorem versions {acts : List Act} (run : Run (Stays P key) m acts m') (before : m key = some e) :
    ∃ e', m' key = some e' ∧ e'.version = e.version + BitVec.ofNat 64 (acts.countP (Act.writes key)) := by
  induction run with
  | nil => exact ⟨e, before, (add_zero _).symm⟩
  | @snoc t t' acts a run last ih =>
      obtain ⟨e₁, middle, version⟩ := ih
      obtain ⟨step, stays⟩ := last
      obtain ⟨e', after⟩ := Option.isSome_iff_exists.mp stays
      refine ⟨e', after, ?_⟩
      rw [List.countP_append, List.countP_singleton, BitVec.ofNat_add, ← add_assoc, ← version]
      rcases step.cases_of_stays middle after with ⟨r, rfl, about, put⟩ | ⟨quiet, rfl⟩
      · have writes : Act.writes key (.request r (Entry.serve P (some e₁) r).1) = true := by
          rw [Act.writes, stores_serve, put, decide_eq_true about]
          rfl
        rw [writes, version_of_put put]
        rfl
      · rw [quiet]
        exact (add_zero _).symm

/-- The answer to a `cas` with a version that was seen, when the key has stayed since. -/
theorem cas_answer {acts : List Act} (run : Run (Stays P key) m acts m') (before : m key = some e)
    (few : acts.length < 2 ^ 64) {ins : ItemInsertionData} (same : ins.key = key) {reply : Reply Entry} {m'' : Store}
    (last : Store.Step P m' (.request (.cas ins e.version) reply) m'') (memory : reply ≠ .badAlloc) :
    reply = .cas .stored ↔ ∀ a ∈ acts, a.writes key = false := by
  subst same
  obtain ⟨e', there, version⟩ := versions run before
  have answer : reply = if e'.version = e.version then .cas .stored else .cas .badVersion := by
    cases last with
    | serve about lost others room =>
        cases about
        rw [there, Entry.serve]
        split <;> rfl
    | badAlloc about lost put => exact absurd rfl memory
  have none : acts.countP (Act.writes ins.key) = 0 ↔ ∀ a ∈ acts, a.writes ins.key = false := by
    simp [List.countP_eq_zero]
  have bound : acts.countP (Act.writes ins.key) < 2 ^ 64 := Nat.lt_of_le_of_lt List.countP_le_length few
  have unwritten : e'.version = e.version ↔ acts.countP (Act.writes ins.key) = 0 := by
    rw [version, add_eq_left]
    constructor
    · intro zero
      have count := congrArg BitVec.toNat zero
      rw [BitVec.toNat_ofNat, Nat.mod_eq_of_lt bound] at count
      exact count
    · intro zero
      rw [zero]
      rfl
  rw [answer, ← none, ← unwritten]
  split
  case isTrue current => exact iff_of_true rfl current
  case isFalse stale => exact iff_of_false (by simp) stale

/-! ## Counters -/

/-- What a request makes of the number of its key. -/
def Act.count (key : Bytes) : Act → BitVec 64 → BitVec 64
  | .request (.incr k delta) _, n => if k = key then n + delta else n
  | .request (.decr k delta) _, n => if k = key then n - if delta < n then delta else n else n
  | _, n => n

def Act.isCount : Act → Bool
  | .request (.incr _ _) _ | .request (.decr _ _) _ => true
  | _ => false

theorem toSstring_eq (n : BitVec 64) : toSstring n = (Cache.decimal.lowFirst n.toNat).reverse := by
  have positive : ¬ (n.toNat : Int) < 0 := Int.not_lt.mpr (Int.natCast_nonneg _)
  rw [toSstring, Alphabet.text, if_neg positive]
  rfl

theorem toNat_toSstring (n : BitVec 64) : Cache.decimal.toNat (toSstring n) = n.toNat := by
  rw [toSstring_eq, Cache.decimal.toNat_reverse_lowFirst]

theorem isdigit_of_mem_toSstring {n : BitVec 64} {c : BitVec 8} (member : c ∈ toSstring n) : Cache.isdigit c = true := by
  rw [toSstring_eq, List.mem_reverse] at member
  exact Cache.decimal.lowFirst_isDigit member

/-- What `to_sstring` writes has no sign and ends in no blank. -/
theorem integral_toSstring (reads : ∀ n, P.lexicalCast (toSstring n) = some n) (n : BitVec 64) :
    integral P (toSstring n) = some n := by
  have unsigned : (toSstring n).head? ≠ some 0x2d := by
    intro front
    have sign := isdigit_of_mem_toSstring (List.mem_of_head? front)
    exact absurd sign (by decide)
  have whole : (toSstring n).reverse.dropWhile (· = 0x20) = (toSstring n).reverse := by
    rw [List.dropWhile_eq_self_iff]
    intro nonempty blank
    have last := isdigit_of_mem_toSstring (List.mem_reverse.mp (List.getElem_mem nonempty))
    rw [of_decide_eq_true blank] at last
    exact absurd last (by decide)
  rw [integral, if_neg unsigned, whole, List.reverse_reverse, reads]

/-- The steps in which the key stays and only `incr` and `decr` write it. -/
def StaysCounter (P : Platform) (key : Bytes) (m : Store) (a : Act) (m' : Store) : Prop :=
  Stays P key m a m' ∧ (a.writes key = true → a.isCount = true)

/-- A request that makes something of a number writes it. -/
theorem Store.Step.writes_of_counts {r : Request} {reply : Reply Entry} {change : BitVec 64 → BitVec 64} {n : BitVec 64}
    (step : Store.Step P m (.request r reply) m') (before : m key = some e) (after : m' key = some e')
    (number : integral P e.value = some n) (about : r.key? = some key)
    (serve : Entry.serve P (some e) r = Entry.adjust P change (some e)) :
    Act.writes key (.request r reply) = true := by
  have put : (Entry.serve P (some e) r).2.isPut = true := by
    rw [serve, Entry.adjust, number]
    rfl
  cases step with
  | serve about' lost others room =>
      cases about.symm.trans about'
      rw [before, Act.writes, stores_serve, put, decide_eq_true about]
      rfl
  | badAlloc about' lost put' =>
      cases about.symm.trans about'
      rw [without, if_pos List.mem_cons_self] at after
      cases after
  | flushAll => cases about
  | flushAt time => cases about
  | stats c => cases about

theorem counted (reads : ∀ n, P.lexicalCast (toSstring n) = some n) {acts : List Act} {n : BitVec 64}
    (run : Run (StaysCounter P key) m acts m') (before : m key = some e) (number : e.value = toSstring n) :
    ∃ e', m' key = some e' ∧ e'.value = toSstring (acts.foldl (fun n a => a.count key n) n) := by
  induction run with
  | nil => exact ⟨e, before, number⟩
  | @snoc t t' acts a run last ih =>
      obtain ⟨e₁, middle, value⟩ := ih
      obtain ⟨⟨step, stays⟩, only⟩ := last
      obtain ⟨e', after⟩ := Option.isSome_iff_exists.mp stays
      refine ⟨e', after, ?_⟩
      rw [List.foldl_append]
      generalize acts.foldl (fun n a => a.count key n) n = n₁ at value
      show e'.value = toSstring (a.count key n₁)
      have reading : integral P e₁.value = some n₁ := by rw [value, integral_toSstring reads]
      rcases step.cases_of_stays middle after with ⟨r, rfl, about, put⟩ | ⟨quiet, rfl⟩
      · have writes : Act.writes key (.request r (Entry.serve P (some e₁) r).1) = true := by
          rw [Act.writes, stores_serve, put, decide_eq_true about]
          rfl
        have count := only writes
        cases r with
        | incr k delta =>
            cases about
            rw [Entry.serve, Entry.adjust, reading] at put
            cases put
            exact congrArg toSstring (if_pos rfl).symm
        | decr k delta =>
            cases about
            rw [Entry.serve, Entry.adjust, reading] at put
            cases put
            exact congrArg toSstring (if_pos rfl).symm
        | _ => exact Bool.noConfusion count
      · suffices same : a.count key n₁ = n₁ by rw [same, value]
        cases a with
        | request r reply =>
            cases r with
            | incr k delta =>
                refine if_neg fun here => ?_
                subst here
                rw [step.writes_of_counts middle after reading rfl rfl] at quiet
                exact Bool.noConfusion quiet
            | decr k delta =>
                refine if_neg fun here => ?_
                subst here
                rw [step.writes_of_counts middle after reading rfl rfl] at quiet
                exact Bool.noConfusion quiet
            | _ => rfl
        | _ => rfl

end Itaro.Engine
