/-
# Cache.DictPasses -- passes of dictScan over a dictionary that changes

Between the calls of a pass the dictionary may change and its tables be resized.  What
a pass has behind it is what has a lower `rank` than its cursor.

* `scan_present`: a key that is present at each call of a pass is returned, if no
  table shrinks to less than half in between;
* `shrink_misses`: and if one does, it can be missed: the expansions of a cursor are
  visited upwards, but the cursor counts from the other end;
* `scan_ends`: a pass has no more calls than the tables have buckets;
* `scanAll_perm`: over a dictionary at rest, also in the middle of rehashing, a pass
  returns each entry once.
-/
import Itaro.Cache.DictScan
import Itaro.Theory.Runs

namespace Itaro.Cache

set_option autoImplicit false

open Theory ReverseCursor

variable {κ υ : Type}

/-! ## A pass over a dictionary that changes -/

/-- A pass: where it stands, and what it has returned. -/
structure Scan (κ υ : Type) where
  dict : Dict κ υ
  cursor : BitVec 64
  returned : List (DictEntry κ υ)
  deriving DecidableEq

inductive ScanAct (κ υ : Type)
  | op (op : DictOp κ υ)
  | call

def ScanAct.isCall : ScanAct κ υ → Bool
  | .op _ => false
  | .call => true

/-- The cursor has at most one bit above the mask; a call over a table of up to twice the
size leaves it like that (`dictScan_near`). -/
def Scan.Near (s : Scan κ υ) : Prop := s.cursor.toNat < 2 * s.dict.smaller.size

instance (s : Scan κ υ) : Decidable s.Near := inferInstanceAs (Decidable (_ < _))

section Pass

variable [DecidableEq κ] {β : Type} [DecidableEq β] {type : DictType κ υ} {good : κ → Prop}
  {name : κ → β}

def scanAct (type : DictType κ υ) (s : Scan κ υ) : ScanAct κ υ → Except Fault (Scan κ υ)
  | .op op => do
      let (d, _) ← perform type s.dict op
      return { s with dict := d }
  | .call => do
      let (es, v) ← dictScan s.dict s.cursor
      return ⟨s.dict, v, s.returned ++ es⟩

/-- An operation that is legal, or a call. -/
structure ScanStep (type : DictType κ υ) (good : κ → Prop) (s : Scan κ υ) (a : ScanAct κ υ)
    (s' : Scan κ υ) : Prop where
  legal : ∀ op, a = .op op → op.Legal good ∧ s.dict.entries.length < 2 ^ 30
  does : scanAct type s a = .ok s'

/-- The hash of a key as a cursor. -/
def wordHash (type : DictType κ υ) (key : κ) : BitVec 64 := (type.hashFunction key).setWidth 64

omit [DecidableEq κ] in
theorem toNat_wordHash (key : κ) : (wordHash type key).toNat = (type.hashFunction key).toNat := by
  rw [wordHash, BitVec.toNat_setWidth]
  exact Nat.mod_eq_of_lt (Nat.lt_of_lt_of_le (type.hashFunction key).isLt (by decide))

/-- What a pass has behind it is returned: what every act keeps. -/
structure Behind (type : DictType κ υ) (good : κ → Prop) (name : κ → β) (key : κ) (s : Scan κ υ) :
    Prop where
  ready : Ready type good name s.dict
  returned : rank (wordHash type key) < rank s.cursor → ∃ e ∈ s.returned, name e.key = name key

variable {key : κ} {s s' : Scan κ υ}

theorem ScanStep.ready {a : ScanAct κ υ} (step : ScanStep type good s a s')
    (lawful : Lawful type good name) (ready : Ready type good name s.dict) :
    Ready type good name s'.dict := by
  have does := step.does
  cases a with
  | op op =>
      obtain ⟨legal, room⟩ := step.legal op rfl
      obtain ⟨d', answer, performed, ready', -⟩ := perform_eq ready lawful legal room
      rw [scanAct, performed] at does
      cases does
      exact ready'
  | call =>
      obtain ⟨⟨es, v⟩, -, same⟩ := exists_of_bind does
      cases same
      exact ready

/-- A call has behind it what it returned and what was behind it before. -/
theorem ScanStep.call_behind (step : ScanStep type good s .call s')
    (lawful : Lawful type good name) (own : good key) (behind : Behind type good name key s)
    (near : s.Near) (present : (s.dict.contents name (name key)).isSome)
    (passed : rank (wordHash type key) < rank s'.cursor ∨ s'.cursor = 0) :
    ∃ e ∈ s'.returned, name e.key = name key := by
  obtain ⟨e, there⟩ : ∃ e, named (entryName name) s.dict.entries (name key) = some e := by
    rw [Dict.contents, Option.isSome_map] at present
    exact Option.isSome_iff_exists.mp present
  obtain ⟨member, called⟩ := (named_eq_some behind.ready.sound.distinct).mp there
  have held := s.dict.smaller_larger_perm.mem_iff.mpr member
  obtain ⟨k, es, bound, size, scanned, perm⟩ :=
    dictScan_eq behind.ready (List.ne_nil_of_mem member) s.cursor
  have does := step.does
  rw [scanAct, scanned] at does
  cases does
  by_cases before : rank (wordHash type key) < rank s.cursor
  · obtain ⟨e', old, called'⟩ := behind.returned before
    exact ⟨e', List.mem_append_left _ old, called'⟩
  · have ahead : rank s.cursor ≤ rank (wordHash type key) := Nat.le_of_not_lt before
    have upto : rank (wordHash type key) / 2 ^ (64 - k) ≤ rank s.cursor / 2 ^ (64 - k) := by
      by_cases done : advance k s.cursor = 0#64
      · exact le_of_advance_eq_zero (by omega) done _
      · exact (lt_rank_advance (by omega) done _).mp (passed.resolve_right done)
    have bucket := (mod_eq_iff_rank (by omega : k ≤ 64) (wordHash type key) s.cursor).mpr
      (Nat.le_antisymm upto (Nat.div_le_div_right ahead))
    have good' : good e.key := by
      rcases List.mem_append.mp member with first | second
      · exact behind.ready.sound.first.good e first
      · exact behind.ready.sound.second.good e second
    have hash : (type.hashFunction e.key).toNat = (wordHash type key).toNat := by
      rw [toNat_wordHash, lawful.hash good' own called]
    have meets : Meets type s.dict.smaller s.cursor e := by
      rw [Meets, size, hash, bucket]
    refine ⟨e, List.mem_append_right _ (perm.mem_iff.mpr (mem_scanned.mpr ?_)), called⟩
    rcases List.mem_append.mp held with first | second
    · exact .inl ⟨first, meets⟩
    · obtain ⟨n, bound', size', order⟩ := behind.ready.larger second
      rw [size, size'] at order
      have coarse : k ≤ n := (Nat.pow_le_pow_iff_right (by decide)).mp order
      have small : s.cursor.toNat < 2 ^ (k + 1) := by
        have close := near
        rw [Scan.Near, size] at close
        rw [Nat.pow_succ]
        omega
      have follows := mod_le_of_rank_le coarse (by omega) small ahead bucket
      exact .inr ⟨second, meets, by rwa [Follows, size', hash]⟩

theorem ScanStep.behind {a : ScanAct κ υ} (step : ScanStep type good s a s')
    (lawful : Lawful type good name) (own : good key) (behind : Behind type good name key s)
    (called : a = .call → s.Near ∧ (s.dict.contents name (name key)).isSome) :
    Behind type good name key s' where
  ready := step.ready lawful behind.ready
  returned passed := by
    cases a with
    | call => exact step.call_behind lawful own behind (called rfl).1 (called rfl).2 (.inl passed)
    | op op =>
        obtain ⟨⟨d, answer⟩, -, same⟩ := exists_of_bind step.does
        cases same
        exact behind.returned passed

/-- The steps of a pass in which a key is present at each call, and no table shrinks to
less than half from one call to the next. -/
structure Attended (type : DictType κ υ) (good : κ → Prop) (name : κ → β) (key : κ)
    (s : Scan κ υ) (a : ScanAct κ υ) (s' : Scan κ υ) : Prop where
  step : ScanStep type good s a s'
  near : a = .call → s.Near
  present : a = .call → (s.dict.contents name (name key)).isSome

/-- **A pass is complete.**  Whatever happens between the calls, a key that is present at
each of them is returned by the one that ends the pass. -/
theorem scan_present (lawful : Lawful type good name) (own : good key) {d : Dict κ υ}
    (ready : Ready type good name d) {acts : List (ScanAct κ υ)}
    (run : Run (Attended type good name key) ⟨d, 0, []⟩ acts s)
    (last : Attended type good name key s .call s') (done : s'.cursor = 0) :
    ∃ e ∈ s'.returned, name e.key = name key := by
  have start : Behind type good name key (⟨d, 0, []⟩ : Scan κ υ) := by
    refine ⟨ready, fun passed => ?_⟩
    have zero : rank (0 : BitVec 64) = 0 := rank_zero
    rw [zero] at passed
    exact absurd passed (Nat.not_lt_zero _)
  have behind := run.invariant (fun _ _ _ behind one =>
    one.step.behind lawful own behind fun call => ⟨one.near call, one.present call⟩) start
  exact last.step.call_behind lawful own behind (last.near rfl) (last.present rfl) (.inr done)

/-- One entry, in bucket 1 of four. -/
def oneEntry : Dict Nat Nat := ⟨⟨[[], [⟨5, 0⟩], [], []], 1⟩, .reset, none, 0⟩

/-- The same with a table of eight set up. -/
def oneEntryGrowing : Dict Nat Nat :=
  ⟨⟨[[], [⟨5, 0⟩], [], []], 1⟩, ⟨List.replicate 8 [], 0⟩, some 0, 0⟩

/-- A table that grows between the calls. -/
theorem scan_present_growing : ∃ e ∈ [(⟨5, 0⟩ : DictEntry Nat Nat)], id e.key = id 5 := by
  have start : Run (Attended numbers (fun _ => True) id 5) ⟨dictCreate, 0, []⟩ []
    ⟨dictCreate, 0, []⟩ := .nil _
  have added : Attended numbers (fun _ => True) id 5 ⟨dictCreate, 0, []⟩ (.op (.add 5 0))
      ⟨oneEntry, 0, []⟩ :=
    ⟨⟨by rintro _ ⟨⟩; exact ⟨trivial, by decide⟩, by decide +kernel⟩, by simp, by simp⟩
  have first : Attended numbers (fun _ => True) id 5 ⟨oneEntry, 0, []⟩ .call ⟨oneEntry, 2, []⟩ :=
    ⟨⟨by simp, by decide +kernel⟩, fun _ => by decide, fun _ => by decide⟩
  have grown : Attended numbers (fun _ => True) id 5 ⟨oneEntry, 2, []⟩ (.op (.expand 8))
      ⟨oneEntryGrowing, 2, []⟩ :=
    ⟨⟨by rintro _ ⟨⟩; exact ⟨(by decide : 8 ≤ 2 ^ 31), by decide⟩, by decide +kernel⟩, by simp, by simp⟩
  have second : Attended numbers (fun _ => True) id 5 ⟨oneEntryGrowing, 2, []⟩ .call
      ⟨oneEntryGrowing, 1, []⟩ :=
    ⟨⟨by simp, by decide +kernel⟩, fun _ => by decide, fun _ => by decide⟩
  have third : Attended numbers (fun _ => True) id 5 ⟨oneEntryGrowing, 1, []⟩ .call
      ⟨oneEntryGrowing, 3, [⟨5, 0⟩]⟩ :=
    ⟨⟨by simp, by decide +kernel⟩, fun _ => by decide, fun _ => by decide⟩
  have fourth : Attended numbers (fun _ => True) id 5 ⟨oneEntryGrowing, 3, [⟨5, 0⟩]⟩ .call
      ⟨oneEntryGrowing, 0, [⟨5, 0⟩]⟩ :=
    ⟨⟨by simp, by decide +kernel⟩, fun _ => by decide, fun _ => by decide⟩
  exact scan_present numbers_lawful trivial dictCreate_ready
    ((((start.snoc added).snoc first).snoc grown).snoc second |>.snoc third) fourth rfl

/-- The table of 16 with an entry in bucket 4, and then one of 4 set up besides. -/
def shrinkActs : List (ScanAct Nat Nat) :=
  [.op (.expand 16), .op (.add 4 0), .call, .op .resize, .call, .call, .call, .call]

/-- After bucket 0 the cursor is at bucket 8 of 16, which is bucket 0 of 4.  The expansions
of that from 8 on are 8 and 12; the cursor has 4 ahead of it all the same. -/
theorem shrink_misses : (shrinkActs.foldlM (scanAct numbers) ⟨dictCreate, 0, []⟩).map
    (fun s => (s.cursor, s.returned, s.dict.contents id 4)) = .ok (0, [], some 0) := by
  decide +kernel

omit [DecidableEq κ] [DecidableEq β] in
/-- The cursor of a call fits tables of half the size. -/
theorem dictScan_near {d : Dict κ υ} (ready : Ready type good name d) {v v' : BitVec 64}
    {es : List (DictEntry κ υ)} (scanned : dictScan d v = .ok (es, v')) :
    v' = 0 ∨ v'.toNat < d.smaller.size := by
  by_cases filled : d.entries = []
  · rw [dictScan_empty ready filled] at scanned
    cases scanned
    exact .inl rfl
  · obtain ⟨k, es, bound, size, scanned', -⟩ := dictScan_eq ready filled v
    obtain ⟨-, rfl⟩ := Prod.mk.inj (Except.ok.inj (scanned'.symm.trans scanned))
    rw [size]
    exact .inr (advance_lt (by omega) v)

/-- The calls of a pass, if no call ends it. -/
theorem scan_ends (lawful : Lawful type good name) {d : Dict κ υ} (ready : Ready type good name d)
    {n : Nat} (bound : n ≤ 64) {acts : List (ScanAct κ υ)}
    (run : Run (fun s a s' => ScanStep type good s a s' ∧
        (a.isCall → s.dict.smaller.size ≤ 2 ^ n ∧ s'.cursor ≠ 0)) ⟨d, 0, []⟩ acts s) :
    acts.countP ScanAct.isCall < 2 ^ n := by
  have counted : Ready type good name s.dict ∧
      acts.countP ScanAct.isCall ≤ rank s.cursor / 2 ^ (64 - n) := by
    induction run with
    | nil => exact ⟨ready, Nat.zero_le _⟩
    | snoc run last ih =>
        obtain ⟨ready, count⟩ := ih
        refine ⟨last.1.ready lawful ready, ?_⟩
        rename_i t t' acts a
        rw [List.countP_append, List.countP_singleton]
        cases a with
        | op op =>
            obtain ⟨⟨d, answer⟩, -, same⟩ := exists_of_bind last.1.does
            cases same
            exact count
        | call =>
            obtain ⟨fine, more⟩ := last.2 rfl
            have advanced : rank t.cursor / 2 ^ (64 - n) < rank t'.cursor / 2 ^ (64 - n) := by
              have does := last.1.does
              by_cases filled : t.dict.entries = []
              · rw [scanAct, dictScan_empty ready filled] at does
                cases does
                exact absurd rfl more
              · obtain ⟨k, es, -, size, scanned, -⟩ := dictScan_eq ready filled t.cursor
                rw [scanAct, scanned] at does
                cases does
                rw [size] at fine
                exact div_rank_lt_advance ((Nat.pow_le_pow_iff_right (by decide)).mp fine) bound more
            have one : (if ScanAct.isCall (.call : ScanAct κ υ) then 1 else 0) = 1 := rfl
            rw [one]
            omega
  exact Nat.lt_of_le_of_lt counted.2 (div_rank_lt bound _)

/-- The first call over a table of four. -/
theorem scan_ends_first : [(.op (.add 5 0)), .call].countP
    (ScanAct.isCall : ScanAct Nat Nat → Bool) < 2 ^ 2 := by
  have start : Run (fun (s : Scan Nat Nat) a s' => ScanStep numbers (fun _ => True) s a s' ∧
      (a.isCall → s.dict.smaller.size ≤ 2 ^ 2 ∧ s'.cursor ≠ 0)) ⟨dictCreate, 0, []⟩ []
    ⟨dictCreate, 0, []⟩ := .nil _
  have added : ScanStep numbers (fun _ => True) ⟨dictCreate, 0, []⟩ (.op (.add 5 0))
      ⟨oneEntry, 0, []⟩ :=
    ⟨by rintro _ ⟨⟩; exact ⟨trivial, by decide⟩, by decide +kernel⟩
  have first : ScanStep numbers (fun _ => True) ⟨oneEntry, 0, []⟩ .call ⟨oneEntry, 2, []⟩ :=
    ⟨by simp, by decide +kernel⟩
  exact scan_ends numbers_lawful dictCreate_ready (by decide)
    ((start.snoc ⟨added, by simp [ScanAct.isCall]⟩).snoc ⟨first, fun _ => by decide⟩)

end Pass

/-! ## A pass over a dictionary at rest -/

/-- Calls until the cursor is 0 again. -/
def scanAll (d : Dict κ υ) :
    Nat → BitVec 64 → Except Fault (List (DictEntry κ υ) × BitVec 64)
  | 0, v => .ok ([], v)
  | calls + 1, v => do
      let (es, v) ← dictScan d v
      if v = 0 then return (es, v)
      else
        let (rest, v) ← scanAll d calls v
        return (es ++ rest, v)

section AtRest

variable {β : Type} {type : DictType κ υ} {good : κ → Prop} {name : κ → β} {d : Dict κ υ}

/-- A cursor without bits above the mask goes through the whole bucket. -/
theorem scanned_perm (ready : Ready type good name d) {v : BitVec 64}
    (small : v.toNat < d.smaller.size) :
    (d.scanned type v).Perm (d.entries.filter fun e => Meets type d.smaller v e) := by
  have whole : d.scanned type v =
      (d.smaller.entries ++ d.larger.entries).filter fun e => Meets type d.smaller v e := by
    rw [Dict.scanned, List.filter_append]
    congr 1
    apply List.filter_congr
    intro e member
    apply decide_eq_decide.mpr
    refine and_iff_left_of_imp fun meets => ?_
    obtain ⟨n, -, size, order⟩ := ready.larger member
    have held := List.mem_append_right d.smaller.entries member
    obtain ⟨k, -, size'⟩ := ready.smaller_pow
      (List.ne_nil_of_mem (d.smaller_larger_perm.mem_iff.mp held))
    have divides : d.smaller.size ∣ d.larger.size := by
      rw [size, size'] at order ⊢
      exact Nat.pow_dvd_pow 2 ((Nat.pow_le_pow_iff_right (by decide)).mp order)
    rw [Follows, Nat.mod_eq_of_lt (Nat.lt_of_lt_of_le small order), ← Nat.mod_eq_of_lt small,
      ← (meets : _ % _ = _), ← Nat.mod_mod_of_dvd _ divides]
    exact Nat.mod_le _ _
  rw [whole]
  exact d.smaller_larger_perm.filter _

/-- From bucket `i` on, in the order of the cursor. -/
theorem scanAll_from (ready : Ready type good name d) {k : Nat} (bound : k ≤ 64)
    (size : d.smaller.size = 2 ^ k) {calls : Nat} {v : BitVec 64} (small : v.toNat < 2 ^ k)
    (left : calls + rank v / 2 ^ (64 - k) = 2 ^ k) :
    ∃ es, scanAll d calls v = .ok (es, 0) ∧ es.Perm (d.entries.filter fun e =>
      rank v / 2 ^ (64 - k) ≤ rank (wordHash type e.key) / 2 ^ (64 - k)) := by
  induction calls generalizing v with
  | zero =>
      have below := div_rank_lt bound v
      omega
  | succ calls ih =>
      have here : ∀ e : DictEntry κ υ, Meets type d.smaller v e ↔
          rank (wordHash type e.key) / 2 ^ (64 - k) = rank v / 2 ^ (64 - k) := by
        intro e
        rw [Meets, size, ← toNat_wordHash, mod_eq_iff_rank bound]
      by_cases filled : d.entries = []
      · refine ⟨[], ?_, by simp [filled]⟩
        rw [scanAll, dictScan_empty ready filled, bind_ok]
        rfl
      obtain ⟨k', es, -, size', scanned, perm⟩ := dictScan_eq ready filled v
      obtain rfl : k = k' := Nat.pow_right_injective (Nat.le_refl 2) (size.symm.trans size')
      have bucket := perm.trans (scanned_perm ready (size ▸ small))
      rw [scanAll, scanned, bind_ok]
      by_cases last : calls = 0
      · have done := (advance_eq_zero_iff bound (v := v)).mpr (by omega)
        refine ⟨es, ?_, bucket.trans (List.Perm.of_eq (List.filter_congr fun e _ => ?_))⟩
        · simp only [done]
          rfl
        · apply decide_eq_decide.mpr
          have below := div_rank_lt bound (wordHash type e.key)
          rw [here]
          omega
      · have more : advance k v ≠ 0#64 := by
          intro done
          have reached := (advance_eq_zero_iff bound).mp done
          omega
        have next := div_rank_advance bound more
        obtain ⟨rest, scanned', perm'⟩ := ih (advance_lt bound v) (by omega)
        refine ⟨es ++ rest, ?_, (bucket.append perm').trans (filter_perm_append ?_ ?_).symm⟩
        · refine (if_neg more).trans ?_
          rw [scanned']
          rfl
        · intro e _
          rw [next, ← Bool.decide_or]
          apply decide_eq_decide.mpr
          rw [here]
          omega
        · rintro e - ⟨first, second⟩
          rw [decide_eq_true_eq, here] at first
          rw [decide_eq_true_eq, next] at second
          omega

/-- **A pass over a dictionary at rest** takes a call for each bucket of the smaller table
and returns each entry once, also in the middle of rehashing. -/
theorem scanAll_perm (ready : Ready type good name d) :
    ∃ es, scanAll d d.smaller.size 0 = .ok (es, 0) ∧ es.Perm d.entries := by
  by_cases filled : d.entries = []
  · rw [filled]
    refine ⟨[], ?_, .refl _⟩
    cases d.smaller.size with
    | zero => rfl
    | succ calls => rw [scanAll, dictScan_empty ready filled]; rfl
  · obtain ⟨k, bound, size⟩ := ready.smaller_pow filled
    have zero : rank (0 : BitVec 64) = 0 := rank_zero
    obtain ⟨es, scanned, perm⟩ := scanAll_from ready (by omega) size (v := 0) (Nat.two_pow_pos k)
      (by rw [zero, Nat.zero_div]; exact Nat.add_zero _)
    refine ⟨es, size ▸ scanned, perm.trans (List.Perm.of_eq (List.filter_eq_self.mpr ?_))⟩
    intro e _
    rw [zero, Nat.zero_div]
    exact decide_eq_true (Nat.zero_le _)

theorem oneEntryGrowing_ready : Ready numbers (fun _ => True) id oneEntryGrowing := by
  have done : performs numbers dictCreate [.add 5 0, .expand 8] =
      .ok (oneEntryGrowing, [.code 0, .code 0]) := by decide +kernel
  exact .of_performs numbers_lawful (by simp [DictOp.Legal]) dictCreate_ready (by decide) done

theorem scanAll_perm_growing :
    ∃ es, scanAll oneEntryGrowing oneEntryGrowing.smaller.size 0 = .ok (es, 0) ∧
      es.Perm oneEntryGrowing.entries :=
  scanAll_perm oneEntryGrowing_ready

end AtRest

end Itaro.Cache
