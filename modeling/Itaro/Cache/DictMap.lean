/-
# Cache.DictMap -- a dictionary is a finite map

`Dict.contents` is the map a dictionary stands for: the value under each name of a
key.  `Documented` is what dict.h promises of adding, finding and deleting in terms
of it.  A sound dictionary keeps the promise as long as its tables have no more
buckets than an `int` can number (`documented_of_indexable`): the index at which
`dictAddRaw` puts a new entry is an `int`.
-/
import Itaro.Cache.DictSpec
import Mathlib.Logic.Function.Basic

namespace Itaro.Cache

set_option autoImplicit false

open Theory

variable {κ υ β : Type} [DecidableEq β] {type : DictType κ υ} {good : κ → Prop} {name : κ → β}

/-! ## Looking and unlinking in one table -/

section Search

variable {key : κ}

/-- One turn of the walk, on the names. -/
theorem named_entry_cons (he : DictEntry κ υ) (next : List (DictEntry κ υ)) :
    named (entryName name) (he :: next) (name key) =
      if name key = name he.key then some he else named (entryName name) next (name key) := by
  by_cases same : name key = name he.key
  · rw [if_pos same, same]
    exact named_cons_self
  · rw [if_neg same]
    exact named_cons_of_ne fun eq => same eq.symm

theorem chainFind_eq (lawful : Lawful type good name) (own : good key)
    {chain : List (DictEntry κ υ)} (all : ∀ e ∈ chain, good e.key) :
    chainFind type key chain = .ok (named (entryName name) chain (name key)) := by
  induction chain with
  | nil => rfl
  | cons he next ih =>
      have rest := ih fun e member => all e (List.mem_cons_of_mem he member)
      rw [chainFind, lawful.compare own (all he List.mem_cons_self), bind_ok, named_entry_cons]
      by_cases same : name key = name he.key
      · rw [decide_eq_true same, if_pos rfl, if_pos same]
        rfl
      · rw [decide_eq_false same, if_neg Bool.false_ne_true, if_neg same, rest]

/-- A chain loses the entry that is found in it. -/
theorem chainUnlink_eq (lawful : Lawful type good name) (own : good key)
    {chain : List (DictEntry κ υ)} (all : ∀ e ∈ chain, good e.key) :
    match named (entryName name) chain (name key) with
    | none => chainUnlink type key chain = .ok none
    | some e => ∃ rest, chainUnlink type key chain = .ok (some rest) ∧ chain.Perm (e :: rest) := by
  induction chain with
  | nil => rfl
  | cons he next ih =>
      have rest := ih fun e member => all e (List.mem_cons_of_mem he member)
      rw [chainUnlink, lawful.compare own (all he List.mem_cons_self), bind_ok, named_entry_cons]
      by_cases same : name key = name he.key
      · rw [if_pos same, decide_eq_true same, if_pos rfl]
        exact ⟨next, rfl, .refl _⟩
      · rw [if_neg same, decide_eq_false same, if_neg Bool.false_ne_true]
        cases there : named (entryName name) next (name key) with
        | none =>
            rw [there] at rest
            have missed : chainUnlink type key next = .ok none := rest
            rw [missed]
            rfl
        | some e =>
            rw [there] at rest
            obtain ⟨left, unlinked, perm⟩ := rest
            refine ⟨he :: left, ?_, (perm.cons he).trans (.swap e he left)⟩
            rw [unlinked]
            rfl

variable {ht : Dictht κ υ}

/-- The chain of a key, with the entry that the table has for it. -/
theorem TableOk.home (ok : TableOk type good ht) (lawful : Lawful type good name) (own : good key)
    (sized : 0 < ht.size) (distinct : (ht.entries.map (entryName name)).Nodup) :
    ∃ chain, ht.table[ht.index (type.hashFunction key)]? = some chain ∧
      named (entryName name) chain (name key) = named (entryName name) ht.entries (name key) := by
  obtain ⟨chain, there⟩ := Dictht.exists_bucket (Dictht.index_lt sized (type.hashFunction key))
  refine ⟨chain, there, ok.filed.find?_bucket distinct there fun e member same => ?_⟩
  rw [Dictht.slot, lawful.hash (ok.good e member) own same]

theorem tableFind_eq (ok : TableOk type good ht) (lawful : Lawful type good name) (own : good key)
    (sized : 0 < ht.size) (distinct : (ht.entries.map (entryName name)).Nodup) :
    tableFind type ht key = .ok (named (entryName name) ht.entries (name key)) := by
  obtain ⟨chain, there, same⟩ := ok.home lawful own sized distinct
  rw [tableFind, Dictht.bucket_eq there, bind_ok,
    chainFind_eq lawful own fun e member => (ok.mem_chain there member).2, same]

/-- A table loses the entry that is found in it. -/
theorem tableUnlink_eq (ok : TableOk type good ht) (lawful : Lawful type good name) (own : good key)
    (sized : 0 < ht.size) (distinct : (ht.entries.map (entryName name)).Nodup) :
    match named (entryName name) ht.entries (name key) with
    | none => tableUnlink type ht key = .ok none
    | some e => ∃ ht', tableUnlink type ht key = .ok (some ht') ∧ TableOk type good ht' ∧
        ht'.size = ht.size ∧ ht.entries.Perm (e :: ht'.entries) ∧
        ∀ j : Nat, ht.table[j]? = some [] → ht'.table[j]? = some [] := by
  obtain ⟨chain, there, same⟩ := ok.home lawful own sized distinct
  have bound := (List.getElem?_eq_some_iff.mp there).1
  have unlink := chainUnlink_eq lawful own fun e member => (ok.mem_chain there member).2
  rw [← same]
  cases found : named (entryName name) chain (name key) with
  | none =>
      rw [found] at unlink
      have missed : chainUnlink type key chain = .ok none := unlink
      simp only [tableUnlink, Dictht.bucket_eq there, bind_ok, missed]
      rfl
  | some e =>
      rw [found] at unlink
      obtain ⟨rest, unlinked, perm⟩ := unlink
      refine ⟨⟨ht.table.set (ht.index (type.hashFunction key)) rest, ht.used - 1⟩, ?_,
        ok.set there (fun x member => ?_) ?_, List.length_set, ?_, fun j empty => ?_⟩
      · simp only [tableUnlink, Dictht.bucket_eq there, bind_ok, unlinked]
        rfl
      · exact ok.mem_chain there (perm.mem_iff.mpr (List.mem_cons_of_mem e member))
      · have one := perm.length_eq
        have whole := (flatten_perm there).length_eq
        have used : ht.used = ht.table.flatten.length := ok.used
        rw [List.length_append] at whole
        rw [List.length_cons] at one
        omega
      · have before := (flatten_perm there).trans (perm.append_right _)
        exact before.trans ((flatten_set_perm bound rest).symm.cons e)
      · have elsewhere : ht.index (type.hashFunction key) ≠ j := by
          intro here
          rw [here, empty] at there
          obtain rfl := Option.some.inj there
          exact absurd perm.length_eq (by simp)
        show (ht.table.set _ rest)[j]? = _
        rw [List.getElem?_set_ne elsewhere]
        exact empty

end Search

/-! ## Growing -/

theorem nextPowerLoop_pos {size turns i : Nat} (pos : 0 < i) : 0 < nextPowerLoop size turns i := by
  induction turns generalizing i with
  | zero => exact pos
  | succ turns ih =>
      rw [nextPowerLoop]
      split
      · exact pos
      · exact ih (Nat.mul_pos pos Nat.two_pos)

theorem dictNextPower_pos (size : Nat) : 0 < dictNextPower size := by
  unfold dictNextPower
  split
  · decide
  · exact nextPowerLoop_pos (by decide)

/-- Doubling from a power of two stops at the latest where the size is covered. -/
theorem nextPowerLoop_le {size k n turns : Nat} (small : size ≤ 2 ^ n) (below : k ≤ n) :
    nextPowerLoop size turns (2 ^ k) ≤ 2 ^ n := by
  induction turns generalizing k with
  | zero => exact Nat.pow_le_pow_right Nat.two_pos below
  | succ turns ih =>
      rw [nextPowerLoop]
      split
      · exact Nat.pow_le_pow_right Nat.two_pos below
      · rcases Nat.lt_or_eq_of_le below with less | rfl
        · exact ih less
        · contradiction

theorem dictNextPower_le {size : Nat} (small : size ≤ 2 ^ 31) : dictNextPower size ≤ 2 ^ 31 := by
  unfold dictNextPower
  rw [if_neg (by omega)]
  exact nextPowerLoop_le small (k := 2) (by decide)

section Growing

variable {d : Dict κ υ}

omit [DecidableEq β] in
theorem Sound.sized_of_moving (sound : Sound type good name d) (moving : d.isRehashing) :
    0 < d.ht0.size := by
  obtain ⟨i, some⟩ := Option.isSome_iff_exists.mp moving
  exact (sound.moving i some).1

omit [DecidableEq β] in
/-- Growing sets up a table: the first, or the second and rehashing begins. -/
theorem dictExpand_eq (sound : Sound type good name d) (idle : d.isRehashing = false) {size : Nat}
    (enough : d.ht0.used ≤ size) :
    ∃ d', dictExpand d size = (d', dictOk) ∧ Sound type good name d' ∧ d'.entries = d.entries ∧
      0 < d'.ht0.size ∧ (Indexable d → size ≤ 2 ^ 31 → Indexable d') := by
  have none : d.rehashidx = none := Option.not_isSome_iff_eq_none.mp (Bool.eq_false_iff.mp idle)
  have single := sound.idle none
  have new : TableOk type good (⟨List.replicate (dictNextPower size) [], 0⟩ : Dictht κ υ) :=
    .replicate _
  have empty : (⟨List.replicate (dictNextPower size) [], 0⟩ : Dictht κ υ).entries = [] :=
    List.eq_nil_of_length_eq_zero new.used.symm
  have length : (⟨List.replicate (dictNextPower size) [], 0⟩ : Dictht κ υ).size =
      dictNextPower size := List.length_replicate
  have wide : ¬ (d.isRehashing || decide (size < d.ht0.used)) = true := by
    rw [idle, Bool.false_or, decide_eq_true_eq]
    omega
  rw [dictExpand, if_neg wide]
  cases table : d.ht0.table with
  | nil =>
      have nothing : d.ht0.entries = [] := by
        rw [Dictht.entries, table]
        rfl
      have same : Dict.entries { d with ht0 := ⟨List.replicate (dictNextPower size) [], 0⟩ } =
          d.entries := by
        rw [Dict.entries, Dict.entries, nothing]
        exact congrArg (· ++ d.ht1.entries) empty
      refine ⟨_, rfl, ⟨new, sound.second, same ▸ sound.distinct, sound.idle, ?_⟩, same, ?_,
        fun small bound => ⟨?_, small.second, same ▸ small.few⟩⟩
      · intro i some
        rw [none] at some
        cases some
      · exact Nat.lt_of_lt_of_eq (dictNextPower_pos size) length.symm
      · exact Nat.le_trans (Nat.le_of_eq length) (dictNextPower_le bound)
  | cons chain rest =>
      have sized : 0 < d.ht0.size := by
        rw [Dictht.size, table]
        exact Nat.succ_pos _
      have same : Dict.entries { d with
          ht1 := ⟨List.replicate (dictNextPower size) [], 0⟩, rehashidx := some 0 } = d.entries := by
        rw [sound.entries_idle none, Dict.entries]
        exact (congrArg (d.ht0.entries ++ ·) empty).trans (List.append_nil _)
      refine ⟨_, rfl, ⟨sound.first, new, same ▸ sound.distinct, ?_, ?_⟩, same, sized,
        fun small bound => ⟨small.first, ?_, same ▸ small.few⟩⟩
      · intro idle
        cases idle
      · intro i some
        obtain rfl := Option.some.inj some
        exact ⟨sized, Nat.lt_of_lt_of_eq (dictNextPower_pos size) length.symm,
          fun j below => absurd below j.not_lt_zero⟩
      · exact Nat.le_trans (Nat.le_of_eq length) (dictNextPower_le bound)

omit [DecidableEq β] in
/-- Before an entry is added there is a table for it. -/
theorem dictExpandIfNeeded_eq (sound : Sound type good name d) :
    ∃ d', dictExpandIfNeeded d = (d', dictOk) ∧ Rearranged type good name d d' ∧
      0 < d'.ht0.size := by
  unfold dictExpandIfNeeded
  cases moving : d.isRehashing with
  | true =>
      rw [if_pos rfl]
      exact ⟨d, rfl, sound.refl, sound.sized_of_moving moving⟩
  | false =>
      have used : d.ht0.used = d.ht0.table.flatten.length := sound.first.used
      rw [if_neg Bool.false_ne_true]
      split
      · rename_i empty
        have table : d.ht0.table = [] := List.eq_nil_of_length_eq_zero empty
        have unused : d.ht0.used ≤ dictHtInitialSize := by
          rw [used, table]
          exact Nat.zero_le _
        obtain ⟨d', grown, sound', same, sized, indexable⟩ := dictExpand_eq sound moving unused
        exact ⟨d', grown, ⟨sound', .of_eq same, fun _ => sized,
          fun small => indexable small (by decide)⟩, sized⟩
      · rename_i sized
        split
        · obtain ⟨d', grown, sound', same, sized', indexable⟩ :=
            dictExpand_eq sound moving (Nat.le_mul_of_pos_right d.ht0.used Nat.two_pos)
          refine ⟨d', grown, ⟨sound', .of_eq same, fun _ => sized', fun small => indexable small ?_⟩,
            sized'⟩
          have few := small.few
          rw [Dict.entries, List.length_append, Dictht.entries] at few
          omega
        · exact ⟨d, rfl, sound.refl, Nat.pos_of_ne_zero sized⟩

end Growing

/-! ## Both tables -/

section Tables

variable {d : Dict κ υ} {key : κ}

/-- The table new entries go to. -/
def Dict.newest (d : Dict κ υ) : Dictht κ υ := if d.isRehashing then d.ht1 else d.ht0

/-- The entry of a name is in the first table or, while it is rehashed, in the second. -/
theorem tablesFind_eq (sound : Sound type good name d) (lawful : Lawful type good name)
    (own : good key) (sized : 0 < d.ht0.size) :
    ∃ idx, tablesFind type d key = .ok (named (entryName name) d.entries (name key), idx) ∧
      (named (entryName name) d.entries (name key) = none →
        idx = d.newest.index (type.hashFunction key)) := by
  have first := tableFind_eq sound.first lawful own sized sound.distinct_first
  have both : named (entryName name) d.entries (name key) =
      (named (entryName name) d.ht0.entries (name key)).or
        (named (entryName name) d.ht1.entries (name key)) := List.find?_append
  cases found : named (entryName name) d.ht0.entries (name key) with
  | some he =>
      rw [both, found]
      rw [found] at first
      refine ⟨d.ht0.index (type.hashFunction key), ?_, nofun⟩
      rw [tablesFind, first]
      rfl
  | none =>
      rw [both, found, Option.none_or]
      rw [found] at first
      cases moving : d.isRehashing with
      | true =>
          obtain ⟨i, some⟩ := Option.isSome_iff_exists.mp moving
          have second := tableFind_eq sound.second lawful own (sound.moving i some).2.1
            sound.distinct_second
          refine ⟨d.ht1.index (type.hashFunction key), ?_, fun _ => ?_⟩
          · rw [tablesFind, first, bind_ok]
            simp only [moving, if_true, second]
            rfl
          · rw [Dict.newest, if_pos moving]
      | false =>
          have idle := Option.not_isSome_iff_eq_none.mp (Bool.eq_false_iff.mp moving)
          have empty : named (entryName name) d.ht1.entries (name key) = none := by
            rw [sound.idle idle]
            rfl
          refine ⟨d.ht0.index (type.hashFunction key), ?_, fun _ => ?_⟩
          · rw [tablesFind, first, bind_ok, empty]
            simp only [moving]
            rfl
          · rw [Dict.newest, moving, if_neg Bool.false_ne_true]

omit [DecidableEq β] in
/-- The first table changes. -/
theorem Sound.setFirst (sound : Sound type good name d) {ht : Dictht κ υ} (ok : TableOk type good ht)
    (size : ht.size = d.ht0.size)
    (kept : d.isRehashing → ∀ j : Nat, d.ht0.table[j]? = some [] → ht.table[j]? = some [])
    (distinct : ((ht.entries ++ d.ht1.entries).map (entryName name)).Nodup) :
    Sound type good name { d with ht0 := ht } where
  first := ok
  second := sound.second
  distinct := distinct
  idle := sound.idle
  moving i some := by
    obtain ⟨sized, sized', passed⟩ := sound.moving i some
    exact ⟨size ▸ sized, sized', fun j below =>
      kept (Option.isSome_iff_exists.mpr ⟨i, some⟩) j (passed j below)⟩

omit [DecidableEq β] in
/-- The second table changes while the first is rehashed. -/
theorem Sound.setSecond (sound : Sound type good name d) {ht : Dictht κ υ}
    (ok : TableOk type good ht) (size : ht.size = d.ht1.size) (moving : d.isRehashing)
    (distinct : ((d.ht0.entries ++ ht.entries).map (entryName name)).Nodup) :
    Sound type good name { d with ht1 := ht } where
  first := sound.first
  second := ok
  distinct := distinct
  idle idle := absurd moving (Option.not_isSome_iff_eq_none.mpr idle)
  moving i some := by
    obtain ⟨sized, sized', passed⟩ := sound.moving i some
    exact ⟨sized, size ▸ sized', passed⟩

end Tables

/-! ## Contents -/

/-- The value under the keys called `b`. -/
def Dict.contents (d : Dict κ υ) (name : κ → β) (b : β) : Option υ :=
  (named (entryName name) d.entries b).map DictEntry.val

namespace Rearranged

variable {d d' : Dict κ υ}

/-- The entry of a name is the same. -/
theorem named_eq (moved : Rearranged type good name d d') (b : β) :
    named (entryName name) d'.entries b = named (entryName name) d.entries b :=
  named_perm moved.sound.distinct moved.perm

theorem contents_eq (moved : Rearranged type good name d d') :
    d'.contents name = d.contents name := by
  funext b
  rw [Dict.contents, Dict.contents, moved.named_eq]

end Rearranged

/-! ## The operations -/

/-- `d'` came out of one operation on `d`. -/
structure Kept (type : DictType κ υ) (good : κ → Prop) (name : κ → β) (d d' : Dict κ υ) : Prop where
  sound : Sound type good name d'
  grown : d'.entries.length ≤ d.entries.length + 1
  indexable : Indexable d → d'.entries.length ≤ 2 ^ 30 → Indexable d'

omit [DecidableEq β] in
theorem Rearranged.kept {d d' : Dict κ υ} (moved : Rearranged type good name d d') :
    Kept type good name d d' :=
  ⟨moved.sound, Nat.le_succ_of_le (Nat.le_of_eq moved.perm.length_eq),
    fun small _ => moved.indexable small⟩

omit [DecidableEq β] in
theorem Rearranged.kept_trans {d d' d'' : Dict κ υ} (moved : Rearranged type good name d d')
    (kept : Kept type good name d' d'') : Kept type good name d d'' :=
  ⟨kept.sound, moved.perm.length_eq ▸ kept.grown,
    fun small few => kept.indexable (moved.indexable small) few⟩

/-- What dict.h promises of `dictAdd`. -/
def Adds (name : κ → β) (d : Dict κ υ) (key : κ) (val : υ) (d' : Dict κ υ) (code : Int) : Prop :=
  match d.contents name (name key) with
  | some _ => code = dictErr ∧ d'.contents name = d.contents name
  | none => code = dictOk ∧
      d'.contents name = Function.update (d.contents name) (name key) (some val)

/-- What dict.h promises of `dictFind`. -/
def Finds (name : κ → β) (d : Dict κ υ) (key : κ) (d' : Dict κ υ) (he : Option (DictEntry κ υ)) :
    Prop :=
  he.map DictEntry.val = d.contents name (name key) ∧ d'.contents name = d.contents name

/-- What dict.h promises of `dictDelete`. -/
def Deletes (name : κ → β) (d : Dict κ υ) (key : κ) (d' : Dict κ υ) (code : Int) : Prop :=
  code = (if (d.contents name (name key)).isSome then dictOk else dictErr) ∧
    d'.contents name = Function.update (d.contents name) (name key) none

/-- The map operations of dict.h, at one dictionary. -/
structure Documented (type : DictType κ υ) (good : κ → Prop) (name : κ → β) (d : Dict κ υ) :
    Prop where
  add : ∀ key val, good key → ∃ d' code,
    dictAdd type d key val = .ok (d', code) ∧ Adds name d key val d' code
  find : ∀ key, good key → ∃ d' he,
    dictFind type d key = .ok (d', he) ∧ Finds name d key d' he
  delete : ∀ key, good key → ∃ d' code,
    dictDelete type d key = .ok (d', code) ∧ Deletes name d key d' code

section Operations

variable {d : Dict κ υ} {key : κ}

/-- An entry under a new name. -/
theorem contents_cons {d' : Dict κ υ} (distinct : (d'.entries.map (entryName name)).Nodup)
    {e : DictEntry κ υ} (perm : d'.entries.Perm (e :: d.entries)) :
    d'.contents name = Function.update (d.contents name) (name e.key) (some e.val) := by
  funext b
  rw [Dict.contents, named_perm distinct perm]
  by_cases same : name e.key = b
  · subst same
    have found : named (entryName name) (e :: d.entries) (name e.key) = some e := named_cons_self
    rw [found, Function.update_self]
    rfl
  · have skipped : named (entryName name) (e :: d.entries) b = named (entryName name) d.entries b :=
      named_cons_of_ne same
    rw [skipped, Function.update_of_ne (Ne.symm same)]
    rfl

/-- An entry is gone. -/
theorem contents_of_cons {d' : Dict κ υ} (distinct : (d.entries.map (entryName name)).Nodup)
    {e : DictEntry κ υ} (perm : d.entries.Perm (e :: d'.entries)) :
    d'.contents name = Function.update (d.contents name) (name e.key) none := by
  have names := (perm.map (entryName name)).nodup_iff.mp distinct
  rw [List.map_cons, List.nodup_cons] at names
  have gone : named (entryName name) d'.entries (name e.key) = none := named_eq_none.mpr names.1
  rw [contents_cons distinct perm, Function.update_idem]
  refine (Function.update_eq_self_iff.mpr ?_).symm
  rw [Dict.contents, gone]
  rfl

/-- The bucket a new entry goes to has an index that is an `int`. -/
theorem addEntry_eq {ht : Dictht κ υ} (ok : TableOk type good ht) (sized : 0 < ht.size)
    (small : ht.size ≤ 2 ^ 31) (lawful : Lawful type good name) (own : good key) (val : υ) :
    ∃ index ht', (BitVec.ofNat 32 (ht.index (type.hashFunction key))).toInt = index ∧
      index ≠ -1 ∧ addEntry type ht index key val = .ok ht' ∧ TableOk type good ht' ∧
      ht'.size = ht.size ∧ ht'.entries.Perm (⟨key, val⟩ :: ht.entries) := by
  have below := Dictht.index_lt sized (type.hashFunction key)
  obtain ⟨chain, ht', there, pushed, ok', size, perm⟩ := ok.push (e := ⟨key, val⟩) sized own
  have int : (BitVec.ofNat 32 (ht.index (type.hashFunction key))).toInt =
      (ht.index (type.hashFunction key) : Nat) := by
    rw [BitVec.toInt_eq_toNat_of_lt] <;> rw [BitVec.toNat_ofNat] <;> omega
  refine ⟨_, ht', int, by omega, ?_, ok', size, perm⟩
  have entry : (⟨dictSetKey type key, dictSetVal type val⟩ : DictEntry κ υ) = ⟨key, val⟩ := by
    rw [dictSetKey, dictSetVal, lawful.keyDup, lawful.valDup]
  rw [addEntry, if_neg (by omega), Int.toNat_natCast, entry]
  rw [Dictht.slot] at there pushed
  simp only [there, bind_ok, pushed]
  rfl

/-- The new entry goes to the table that is filled. -/
theorem addNewest_eq (sound : Sound type good name d) (small : Indexable d)
    (sized : 0 < d.ht0.size) (lawful : Lawful type good name) (own : good key) (val : υ)
    (absent : named (entryName name) d.entries (name key) = none) :
    ∃ index d', (BitVec.ofNat 32 (d.newest.index (type.hashFunction key))).toInt = index ∧
      index ≠ -1 ∧
      (if d.isRehashing then do
        let ht ← addEntry type d.ht1 index key val
        return ({ d with ht1 := ht }, true)
      else do
        let ht ← addEntry type d.ht0 index key val
        return ({ d with ht0 := ht }, true)) = (Except.ok (d', true) : Except Fault (Dict κ υ × Bool)) ∧
      Sound type good name d' ∧ d'.entries.Perm (⟨key, val⟩ :: d.entries) ∧
      (d'.entries.length ≤ 2 ^ 30 → Indexable d') := by
  have names : (((⟨key, val⟩ :: d.entries : List (DictEntry κ υ))).map (entryName name)).Nodup :=
    List.nodup_cons.mpr ⟨named_eq_none.mp absent, sound.distinct⟩
  cases moving : d.isRehashing with
  | true =>
      obtain ⟨i, some⟩ := Option.isSome_iff_exists.mp moving
      obtain ⟨index, ht, int, ne, added, ok, size, perm⟩ :=
        addEntry_eq sound.second (sound.moving i some).2.1 small.second lawful own val
      have whole : (d.ht0.entries ++ ht.entries).Perm (⟨key, val⟩ :: d.entries) :=
        (perm.append_left _).trans List.perm_middle
      refine ⟨index, { d with ht1 := ht }, ?_, ne, ?_,
        sound.setSecond ok size moving ((whole.map _).nodup_iff.mpr names), whole,
        fun few => ⟨small.first, size ▸ small.second, few⟩⟩
      · rw [Dict.newest, if_pos moving]
        exact int
      · rw [if_pos rfl, added]
        rfl
  | false =>
      obtain ⟨index, ht, int, ne, added, ok, size, perm⟩ :=
        addEntry_eq sound.first sized small.first lawful own val
      have whole : (ht.entries ++ d.ht1.entries).Perm (⟨key, val⟩ :: d.entries) :=
        perm.append_right _
      have idle : ¬ d.isRehashing = true := Bool.eq_false_iff.mp moving
      refine ⟨index, { d with ht0 := ht }, ?_, ne, ?_,
        sound.setFirst ok size (fun moving => absurd moving idle)
          ((whole.map _).nodup_iff.mpr names), whole,
        fun few => ⟨size ▸ small.first, small.second, few⟩⟩
      · rw [Dict.newest, if_neg idle]
        exact int
      · rw [if_neg Bool.false_ne_true, added]
        rfl

/-- `dictAdd` puts in an entry under a new key, and otherwise changes nothing. -/
theorem dictAdd_eq (sound : Sound type good name d) (small : Indexable d)
    (lawful : Lawful type good name) (own : good key) (val : υ) :
    ∃ d' code, dictAdd type d key val = .ok (d', code) ∧ Kept type good name d d' ∧
      Adds name d key val d' code := by
  obtain ⟨d₁, stepped, moved₁⟩ := dictRehashStep_eq sound
  obtain ⟨d₂, expanded, moved₂, sized⟩ := dictExpandIfNeeded_eq moved₁.sound
  obtain ⟨idx, searched, place⟩ := tablesFind_eq moved₂.sound lawful own sized
  have moved := moved₁.trans moved₂
  have small₂ := moved.indexable small
  have ok : ¬ dictOk = dictErr := by decide
  cases found : named (entryName name) d₂.entries (name key) with
  | some e =>
      rw [found] at searched
      have present : d.contents name (name key) = some e.val := by
        rw [Dict.contents, ← moved.named_eq, found]
        rfl
      refine ⟨d₂, dictErr, ?_, moved.kept, ?_⟩
      · rw [dictAdd, dictAddRaw, stepped, bind_ok]
        simp only [dictKeyIndex, expanded, if_neg ok, searched, bind_ok]
        rfl
      · rw [Adds, present]
        exact ⟨rfl, moved.contents_eq⟩
  | none =>
      rw [found] at searched
      obtain rfl := place found
      have absent : d.contents name (name key) = none := by
        rw [Dict.contents, ← moved.named_eq, found]
        rfl
      obtain ⟨index, d', int, ne, added, sound', perm, indexable⟩ :=
        addNewest_eq moved₂.sound small₂ sized lawful own val found
      have count := perm.length_eq
      rw [List.length_cons] at count
      refine ⟨d', dictOk, ?_, moved.kept_trans ⟨sound', Nat.le_of_eq count,
        fun _ => indexable⟩, ?_⟩
      · rw [dictAdd, dictAddRaw, stepped, bind_ok]
        simp only [dictKeyIndex, expanded, if_neg ok, searched, bind_ok]
        rw [int, pure_bind]
        simp only [if_neg ne]
        rw [added]
        rfl
      · rw [Adds, absent]
        have put : d'.contents name =
            Function.update (d₂.contents name) (name key) (some val) :=
          contents_cons sound'.distinct perm
        rw [moved.contents_eq] at put
        exact ⟨rfl, put⟩

omit [DecidableEq β] in
/-- Without buckets there is no entry. -/
theorem Sound.entries_unsized (sound : Sound type good name d) (unsized : d.ht0.size = 0) :
    d.entries = [] := by
  have idle : d.rehashidx = none := by
    cases moving : d.rehashidx with
    | none => rfl
    | some i => exact absurd unsized (Nat.ne_of_gt (sound.moving i moving).1)
  have table : d.ht0.table = [] := List.eq_nil_of_length_eq_zero unsized
  rw [sound.entries_idle idle, Dictht.entries, table]
  rfl

/-- `dictFind` answers with the entry and changes nothing. -/
theorem dictFind_eq (sound : Sound type good name d) (lawful : Lawful type good name)
    (own : good key) :
    ∃ d' he, dictFind type d key = .ok (d', he) ∧ Rearranged type good name d d' ∧
      Finds name d key d' he := by
  unfold dictFind
  split
  · rename_i unsized
    refine ⟨d, none, rfl, sound.refl, ?_, rfl⟩
    rw [Dict.contents, sound.entries_unsized unsized]
    rfl
  · rename_i sized
    obtain ⟨d', stepped, moved⟩ := dictRehashStep_eq sound
    obtain ⟨idx, searched, -⟩ :=
      tablesFind_eq moved.sound lawful own (moved.sized (Nat.pos_of_ne_zero sized))
    refine ⟨d', named (entryName name) d'.entries (name key), ?_, moved, ?_, moved.contents_eq⟩
    · rw [stepped, bind_ok, searched]
      rfl
    · rw [moved.named_eq]
      rfl

theorem deletes_absent {d' : Dict κ υ} (moved : Rearranged type good name d d')
    (absent : named (entryName name) d'.entries (name key) = none) :
    Deletes name d key d' dictErr := by
  have none : d.contents name (name key) = none := by
    rw [← moved.contents_eq, Dict.contents, absent]
    rfl
  refine ⟨by rw [none]; rfl, ?_⟩
  rw [moved.contents_eq]
  exact (Function.update_eq_self_iff.mpr none.symm).symm

theorem deletes_present {d₁ d' : Dict κ υ} (moved : Rearranged type good name d d₁)
    {e : DictEntry κ υ} (found : named (entryName name) d₁.entries (name key) = some e)
    (perm : d₁.entries.Perm (e :: d'.entries)) : Deletes name d key d' dictOk := by
  have same : name e.key = name key := ((named_eq_some moved.sound.distinct).mp found).2
  have present : d.contents name (name key) = some e.val := by
    rw [← moved.contents_eq, Dict.contents, found]
    rfl
  refine ⟨by rw [present]; rfl, ?_⟩
  rw [← moved.contents_eq, ← same]
  exact contents_of_cons moved.sound.distinct perm

omit [DecidableEq β] in
theorem kept_of_cons {d₁ d' : Dict κ υ} (moved : Rearranged type good name d d₁)
    (sound : Sound type good name d') {e : DictEntry κ υ}
    (perm : d₁.entries.Perm (e :: d'.entries))
    (indexable : Indexable d₁ → d'.entries.length ≤ 2 ^ 30 → Indexable d') :
    Kept type good name d d' := by
  have count := perm.length_eq
  rw [List.length_cons] at count
  exact moved.kept_trans ⟨sound, by omega, indexable⟩

/-- `dictDelete` takes out the entry of a name, if there is one. -/
theorem dictDelete_eq (sound : Sound type good name d) (lawful : Lawful type good name)
    (own : good key) :
    ∃ d' code, dictDelete type d key = .ok (d', code) ∧ Kept type good name d d' ∧
      Deletes name d key d' code := by
  unfold dictDelete
  split
  · rename_i unsized
    refine ⟨d, dictErr, rfl, sound.refl.kept, deletes_absent sound.refl ?_⟩
    rw [sound.entries_unsized unsized]
    rfl
  · rename_i sized
    obtain ⟨d₁, stepped, moved⟩ := dictRehashStep_eq sound
    have sound₁ := moved.sound
    have first := tableUnlink_eq sound₁.first lawful own (moved.sized (Nat.pos_of_ne_zero sized))
      sound₁.distinct_first
    have both : named (entryName name) d₁.entries (name key) =
        (named (entryName name) d₁.ht0.entries (name key)).or
          (named (entryName name) d₁.ht1.entries (name key)) := List.find?_append
    have names := fun (e : DictEntry κ υ) (es : List (DictEntry κ υ))
        (perm : d₁.entries.Perm (e :: es)) =>
      (List.nodup_cons.mp ((perm.map (entryName name)).nodup_iff.mp sound₁.distinct)).2
    rw [stepped, bind_ok]
    cases found : named (entryName name) d₁.ht0.entries (name key) with
    | some e =>
        rw [found] at first both
        obtain ⟨ht, unlinked, ok, size, perm, kept⟩ := first
        have whole : d₁.entries.Perm (e :: (ht.entries ++ d₁.ht1.entries)) := perm.append_right _
        refine ⟨{ d₁ with ht0 := ht }, dictOk, ?_, ?_, deletes_present moved both whole⟩
        · rw [unlinked]
          rfl
        · exact kept_of_cons moved (sound₁.setFirst ok size (fun _ => kept) (names _ _ whole)) whole
            fun small few => ⟨size ▸ small.first, small.second, few⟩
    | none =>
        rw [found] at first both
        rw [Option.none_or] at both
        have missed : tableUnlink type d₁.ht0 key = .ok none := first
        rw [missed, bind_ok]
        cases moving : d₁.isRehashing with
        | false =>
            have idle := Option.not_isSome_iff_eq_none.mp (Bool.eq_false_iff.mp moving)
            have empty : named (entryName name) d₁.ht1.entries (name key) = none := by
              rw [sound₁.idle idle]
              rfl
            exact ⟨d₁, dictErr, rfl, moved.kept, deletes_absent moved (both.trans empty)⟩
        | true =>
            obtain ⟨i, some⟩ := Option.isSome_iff_exists.mp moving
            have second := tableUnlink_eq sound₁.second lawful own (sound₁.moving i some).2.1
              sound₁.distinct_second
            cases found' : named (entryName name) d₁.ht1.entries (name key) with
            | none =>
                rw [found'] at second both
                have missed' : tableUnlink type d₁.ht1 key = .ok none := second
                refine ⟨d₁, dictErr, ?_, moved.kept, deletes_absent moved both⟩
                rw [missed']
                rfl
            | some e =>
                rw [found'] at second both
                obtain ⟨ht, unlinked, ok, size, perm, -⟩ := second
                have whole : d₁.entries.Perm (e :: (d₁.ht0.entries ++ ht.entries)) :=
                  (perm.append_left _).trans List.perm_middle
                refine ⟨{ d₁ with ht1 := ht }, dictOk, ?_, ?_, deletes_present moved both whole⟩
                · rw [unlinked]
                  rfl
                · exact kept_of_cons moved (sound₁.setSecond ok size moving (names _ _ whole)) whole
                    fun small few => ⟨small.first, size ▸ small.second, few⟩

theorem documented_of_indexable (sound : Sound type good name d) (small : Indexable d)
    (lawful : Lawful type good name) : Documented type good name d where
  add _ val own :=
    have ⟨d', code, added, _, adds⟩ := dictAdd_eq sound small lawful own val
    ⟨d', code, added, adds⟩
  find _ own :=
    have ⟨d', he, found, _, finds⟩ := dictFind_eq sound lawful own
    ⟨d', he, found, finds⟩
  delete _ own :=
    have ⟨d', code, deleted, _, deletes⟩ := dictDelete_eq sound lawful own
    ⟨d', code, deleted, deletes⟩

end Operations

end Itaro.Cache
