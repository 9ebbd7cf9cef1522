/-
# Cache.DictOps -- replacing, resizing and emptying, and runs of all operations

The operations that are left over by `Cache.Dict`, and runs of any of them
(`DictOp`, `perform`).  `Ready` is what every operation keeps (`perform_eq`): the
invariant, tables that an `int` can number, and sizes that are powers of two, which
the masks of all lookups rely on.  A run is then one of a map (`performs_eq`).

The store through a pointer to an entry is told by the key of the entry, itself a
pointer: no two entries share it.
-/
import Itaro.Cache.DictMap

namespace Itaro.Cache

set_option autoImplicit false

open Theory

variable {κ υ : Type}

/-! ## The operations -/

/-- `entry->v.val = val`, if this is the entry with the key. -/
def DictEntry.storeVal [DecidableEq κ] (key : κ) (val : υ) (entry : DictEntry κ υ) :
    DictEntry κ υ :=
  if entry.key = key then { entry with val := val } else entry

def Dictht.storeVal [DecidableEq κ] (ht : Dictht κ υ) (key : κ) (val : υ) : Dictht κ υ :=
  { ht with table := ht.table.map (List.map (DictEntry.storeVal key val)) }

def Dict.storeVal [DecidableEq κ] (d : Dict κ υ) (key : κ) (val : υ) : Dict κ υ :=
  { d with ht0 := d.ht0.storeVal key val, ht1 := d.ht1.storeVal key val }

/-- 1 for a new key, 0 for a new value; `NULL` is not an entry to store to. -/
def dictReplace [DecidableEq κ] (type : DictType κ υ) (d : Dict κ υ) (key : κ) (val : υ) :
    Except Fault (Dict κ υ × Int) := do
  let (d, code) ← dictAdd type d key val
  if code = dictOk then return (d, 1)
  match ← dictFind type d key with
  | (d, some entry) => return (d.storeVal entry.key (dictSetVal type val), 0)
  | (_, none) => throw .overread

def dictFetchValue (type : DictType κ υ) (d : Dict κ υ) (key : κ) :
    Except Fault (Dict κ υ × Option υ) := do
  let (d, he) ← dictFind type d key
  return (d, he.map DictEntry.val)

/-- `dictResize`; `minimal` is an `int`. -/
def dictResize (d : Dict κ υ) : Dict κ υ × Int :=
  if !dictCanResize || d.isRehashing then (d, dictErr)
  else
    let minimal := (BitVec.ofNat 32 d.ht0.used).toInt
    let minimal := if minimal < dictHtInitialSize then (dictHtInitialSize : Int) else minimal
    dictExpand d minimal.toNat

/-- The loop of `_dictClear` over the buckets that are left: the entries it destroys. -/
def clearLoop : List (List (DictEntry κ υ)) → Nat → List (DictEntry κ υ)
  | [], _ => []
  | _ :: _, 0 => []
  | chain :: rest, used + 1 => chain ++ clearLoop rest (used + 1 - chain.length)

/-- `_dictClear` -/
def dictClear (ht : Dictht κ υ) : Dictht κ υ × List (DictEntry κ υ) :=
  (.reset, clearLoop ht.table ht.used)

def dictEmpty (d : Dict κ υ) : Dict κ υ × List (DictEntry κ υ) :=
  let (ht0, destroyed) := dictClear d.ht0
  let (ht1, destroyed') := dictClear d.ht1
  (⟨ht0, ht1, none, 0⟩, destroyed ++ destroyed')

inductive DictOp (κ υ : Type)
  | add (key : κ) (val : υ)
  | replace (key : κ) (val : υ)
  | fetch (key : κ)
  | delete (key : κ)
  | resize
  | expand (size : Nat)
  | rehash (n : Nat)
  | empty
  deriving DecidableEq, Repr

inductive DictAnswer (υ : Type)
  | code (c : Int)
  | value (v : Option υ)
  | void
  deriving DecidableEq, Repr

def perform [DecidableEq κ] (type : DictType κ υ) (d : Dict κ υ) :
    DictOp κ υ → Except Fault (Dict κ υ × DictAnswer υ)
  | .add key val => do
      let (d, code) ← dictAdd type d key val
      return (d, .code code)
  | .replace key val => do
      let (d, code) ← dictReplace type d key val
      return (d, .code code)
  | .fetch key => do
      let (d, val) ← dictFetchValue type d key
      return (d, .value val)
  | .delete key => do
      let (d, code) ← dictDelete type d key
      return (d, .code code)
  | .resize => .ok ((dictResize d).1, .code (dictResize d).2)
  | .expand size => .ok ((dictExpand d size).1, .code (dictExpand d size).2)
  | .rehash n => do
      let (d, code) ← dictRehash type d n
      return (d, .code code)
  | .empty => .ok ((dictEmpty d).1, .void)

/-! ## Sizes -/

/-- No buckets, or as many as a power of two. -/
def Dictht.Sized (ht : Dictht κ υ) : Prop := ht.size = 0 ∨ ∃ k, ht.size = 2 ^ k

structure Powers (d : Dict κ υ) : Prop where
  first : d.ht0.Sized
  second : d.ht1.Sized

theorem Dictht.Sized.reset : (.reset : Dictht κ υ).Sized := .inl rfl

theorem Dictht.Sized.of_size {ht ht' : Dictht κ υ} (sized : ht.Sized) (same : ht'.size = ht.size) :
    ht'.Sized := by
  rw [Dictht.Sized, same]
  exact sized

/-- Doubling keeps a power of two. -/
theorem nextPowerLoop_pow (size turns k : Nat) : ∃ j, nextPowerLoop size turns (2 ^ k) = 2 ^ j := by
  induction turns generalizing k with
  | zero => exact ⟨k, rfl⟩
  | succ turns ih =>
      rw [nextPowerLoop]
      split
      · exact ⟨k, rfl⟩
      · exact ih (k + 1)

theorem dictNextPower_pow {size : Nat} (small : size < 2 ^ 63 - 1) :
    ∃ j, dictNextPower size = 2 ^ j := by
  rw [dictNextPower, if_neg (by omega)]
  exact nextPowerLoop_pow size 62 2

theorem dictExpand_powers {d : Dict κ υ} (powers : Powers d) {size : Nat}
    (small : size < 2 ^ 63 - 1) : Powers (dictExpand d size).1 := by
  have new : (⟨List.replicate (dictNextPower size) [], 0⟩ : Dictht κ υ).Sized := by
    obtain ⟨j, power⟩ := dictNextPower_pow small
    exact .inr ⟨j, List.length_replicate.trans power⟩
  unfold dictExpand
  split
  · exact powers
  · split
    · exact ⟨new, powers.second⟩
    · exact ⟨powers.first, new⟩

theorem dictExpandIfNeeded_powers {d : Dict κ υ} (powers : Powers d) (few : d.ht0.used ≤ 2 ^ 30) :
    Powers (dictExpandIfNeeded d).1 := by
  unfold dictExpandIfNeeded
  split
  · exact powers
  split
  · exact dictExpand_powers powers (by decide)
  split
  · exact dictExpand_powers powers (by omega)
  · exact powers

section Rehash

variable {type : DictType κ υ}

/-- Moving entries leaves the tables their sizes. -/
theorem moveEntries_size {chain : List (DictEntry κ υ)} {hts hts' : Dictht κ υ × Dictht κ υ}
    (moved : chain.foldlM (moveEntry type) hts = .ok hts') :
    hts'.1.size = hts.1.size ∧ hts'.2.size = hts.2.size := by
  induction chain generalizing hts with
  | nil => cases moved; exact ⟨rfl, rfl⟩
  | cons e chain ih =>
      rw [List.foldlM_cons] at moved
      obtain ⟨between, one, rest⟩ := exists_of_bind moved
      obtain ⟨old, there, filed⟩ := exists_of_bind one
      cases filed
      obtain ⟨first, second⟩ := ih rest
      refine ⟨first, second.trans ?_⟩
      simp [Dictht.size, Dictht.setBucket]

theorem rehashBucket_size {d d' : Dict κ υ} {i j : Nat}
    (moved : rehashBucket type d i = .ok (d', j)) :
    d'.ht0.size = d.ht0.size ∧ d'.ht1.size = d.ht1.size := by
  unfold rehashBucket at moved
  split at moved
  · cases moved
  · obtain ⟨k, -, moved⟩ := exists_of_bind moved
    obtain ⟨chain, -, moved⟩ := exists_of_bind moved
    obtain ⟨hts, all, moved⟩ := exists_of_bind moved
    cases moved
    obtain ⟨first, second⟩ := moveEntries_size all
    refine ⟨?_, second⟩
    simpa [Dictht.size, Dictht.setBucket] using first

theorem rehashLoop_powers {n : Nat} {d d' : Dict κ υ} {i : Nat} {r : Int} (powers : Powers d)
    (rehashed : rehashLoop type n d i = .ok (d', r)) : Powers d' := by
  induction n generalizing d i with
  | zero => cases rehashed; exact powers
  | succ n ih =>
      rw [rehashLoop] at rehashed
      split at rehashed
      · cases rehashed
        exact ⟨powers.second, .reset⟩
      · obtain ⟨⟨d₁, j⟩, one, rest⟩ := exists_of_bind rehashed
        obtain ⟨first, second⟩ := rehashBucket_size one
        exact ih ⟨powers.first.of_size first, powers.second.of_size second⟩ rest

theorem dictRehash_powers {n : Nat} {d d' : Dict κ υ} {r : Int} (powers : Powers d)
    (rehashed : dictRehash type d n = .ok (d', r)) : Powers d' := by
  unfold dictRehash at rehashed
  split at rehashed
  · cases rehashed; exact powers
  · exact rehashLoop_powers powers rehashed

theorem dictRehashStep_powers {d d' : Dict κ υ} (powers : Powers d)
    (stepped : dictRehashStep type d = .ok d') : Powers d' := by
  unfold dictRehashStep at stepped
  split at stepped
  · obtain ⟨⟨d₁, r⟩, rehashed, stepped⟩ := exists_of_bind stepped
    cases stepped
    exact dictRehash_powers powers rehashed
  · cases stepped; exact powers

end Rehash

section Size

variable {type : DictType κ υ} {key : κ} {ht ht' : Dictht κ υ}

theorem addEntry_size {index : Int} {val : υ} (added : addEntry type ht index key val = .ok ht') :
    ht'.size = ht.size := by
  unfold addEntry at added
  split at added
  · cases added
  · obtain ⟨chain, -, added⟩ := exists_of_bind added
    cases added
    simp [Dictht.size, Dictht.setBucket]

theorem tableUnlink_size (unlinked : tableUnlink type ht key = .ok (some ht')) :
    ht'.size = ht.size := by
  unfold tableUnlink at unlinked
  obtain ⟨chain, -, unlinked⟩ := exists_of_bind unlinked
  obtain ⟨rest, -, unlinked⟩ := exists_of_bind unlinked
  cases rest with
  | none => cases unlinked
  | some rest =>
      cases unlinked
      simp [Dictht.size, Dictht.setBucket]

theorem dictKeyIndex_fst {d d' : Dict κ υ} {index : Int}
    (keyed : dictKeyIndex type d key = .ok (d', index)) : d' = (dictExpandIfNeeded d).1 := by
  unfold dictKeyIndex at keyed
  split at keyed
  rename_i d₁ code expanded
  rw [expanded]
  split at keyed
  · cases keyed; rfl
  · obtain ⟨⟨he, idx⟩, -, keyed⟩ := exists_of_bind keyed
    cases he <;> cases keyed <;> rfl

variable {β : Type} {good : κ → Prop} {name : κ → β} {d d' : Dict κ υ}

theorem dictAdd_powers (sound : Sound type good name d) (small : Indexable d) (powers : Powers d)
    {val : υ} {code : Int} (added : dictAdd type d key val = .ok (d', code)) : Powers d' := by
  obtain ⟨⟨d₃, b⟩, raw, same⟩ := exists_of_bind added
  cases same
  obtain ⟨d₁, stepped, moved⟩ := dictRehashStep_eq sound
  rw [dictAddRaw, stepped, bind_ok] at raw
  obtain ⟨⟨d₂, index⟩, keyed, put⟩ := exists_of_bind raw
  have few : d₁.ht0.used ≤ 2 ^ 30 := by
    have all := (moved.indexable small).few
    rw [Dict.entries, List.length_append, ← moved.sound.first.used] at all
    omega
  have powers₂ : Powers d₂ := by
    rw [dictKeyIndex_fst keyed]
    exact dictExpandIfNeeded_powers (dictRehashStep_powers powers stepped) few
  simp only at put
  split at put
  · cases put; exact powers₂
  split at put
  · obtain ⟨ht, filed, same⟩ := exists_of_bind put
    cases same
    exact ⟨powers₂.first, powers₂.second.of_size (addEntry_size filed)⟩
  · obtain ⟨ht, filed, same⟩ := exists_of_bind put
    cases same
    exact ⟨powers₂.first.of_size (addEntry_size filed), powers₂.second⟩

theorem dictFind_powers {he : Option (DictEntry κ υ)} (powers : Powers d)
    (found : dictFind type d key = .ok (d', he)) : Powers d' := by
  unfold dictFind at found
  split at found
  · cases found; exact powers
  · obtain ⟨d₁, stepped, found⟩ := exists_of_bind found
    obtain ⟨searched, -, found⟩ := exists_of_bind found
    cases found
    exact dictRehashStep_powers powers stepped

theorem dictDelete_powers {code : Int} (powers : Powers d)
    (deleted : dictDelete type d key = .ok (d', code)) : Powers d' := by
  unfold dictDelete at deleted
  split at deleted
  · cases deleted; exact powers
  · obtain ⟨d₁, stepped, deleted⟩ := exists_of_bind deleted
    have powers₁ := dictRehashStep_powers powers stepped
    obtain ⟨first, unlinked, deleted⟩ := exists_of_bind deleted
    cases first with
    | some ht =>
        cases deleted
        exact ⟨powers₁.first.of_size (tableUnlink_size unlinked), powers₁.second⟩
    | none =>
        simp only at deleted
        split at deleted
        · obtain ⟨second, unlinked', deleted⟩ := exists_of_bind deleted
          cases second with
          | some ht =>
              cases deleted
              exact ⟨powers₁.first, powers₁.second.of_size (tableUnlink_size unlinked')⟩
          | none => cases deleted; exact powers₁
        · cases deleted; exact powers₁

end Size

/-! ## Storing a value -/

section Store

variable [DecidableEq κ] {β : Type} {type : DictType κ υ} {good : κ → Prop} {name : κ → β}
  {key : κ} {val : υ}

@[simp] theorem DictEntry.storeVal_key (e : DictEntry κ υ) : (e.storeVal key val).key = e.key := by
  unfold DictEntry.storeVal
  split <;> rfl

@[simp] theorem Dictht.size_storeVal (ht : Dictht κ υ) : (ht.storeVal key val).size = ht.size :=
  List.length_map _

@[simp] theorem Dictht.entries_storeVal (ht : Dictht κ υ) :
    (ht.storeVal key val).entries = ht.entries.map (DictEntry.storeVal key val) :=
  List.map_flatten.symm

theorem Dict.entries_storeVal (d : Dict κ υ) :
    (d.storeVal key val).entries = d.entries.map (DictEntry.storeVal key val) := by
  simp [Dict.entries, Dict.storeVal]

theorem TableOk.storeVal {ht : Dictht κ υ} (ok : TableOk type good ht) :
    TableOk type good (ht.storeVal key val) := by
  constructor
  · rw [Dictht.entries_storeVal, List.length_map]
    exact ok.used
  · intro i chain there e member
    rw [Dictht.storeVal, List.getElem?_map, Option.map_eq_some_iff] at there
    obtain ⟨old, there, rfl⟩ := there
    obtain ⟨e, inside, rfl⟩ := List.mem_map.mp member
    have home := ok.filed i old there e inside
    simpa [Dictht.slot, Dictht.index, Dictht.sizemask] using home
  · intro e member
    rw [Dictht.entries_storeVal] at member
    obtain ⟨e, inside, rfl⟩ := List.mem_map.mp member
    simpa using ok.good e inside

theorem map_name_storeVal (es : List (DictEntry κ υ)) :
    (es.map (DictEntry.storeVal key val)).map (entryName name) = es.map (entryName name) := by
  rw [List.map_map]
  apply List.map_congr_left
  intro e _
  simp [entryName]

theorem Sound.storeVal {d : Dict κ υ} (sound : Sound type good name d) :
    Sound type good name (d.storeVal key val) where
  first := sound.first.storeVal
  second := sound.second.storeVal
  distinct := by
    rw [Dict.entries_storeVal, map_name_storeVal]
    exact sound.distinct
  idle none := by
    have reset := sound.idle none
    simp only [Dict.storeVal, reset]
    rfl
  moving i some := by
    obtain ⟨sized, sized', passed⟩ := sound.moving i some
    refine ⟨by simpa [Dict.storeVal] using sized, by simpa [Dict.storeVal] using sized', ?_⟩
    intro j below
    simp [Dict.storeVal, Dictht.storeVal, passed j below]

theorem named_storeVal [DecidableEq β] (es : List (DictEntry κ υ)) (b : β) :
    named (entryName name) (es.map (DictEntry.storeVal key val)) b =
      (named (entryName name) es b).map (DictEntry.storeVal key val) := by
  rw [named, List.find?_map]
  congr 2
  funext e
  show decide (name (e.storeVal key val).key = b) = decide (name e.key = b)
  rw [DictEntry.storeVal_key]

/-- The value changes under the name of the key. -/
theorem contents_storeVal [DecidableEq β] {d : Dict κ υ} {entry : DictEntry κ υ}
    (there : named (entryName name) d.entries (name entry.key) = some entry) :
    (d.storeVal entry.key val).contents name =
      Function.update (d.contents name) (name entry.key) (some val) := by
  funext b
  rw [Dict.contents, Dict.entries_storeVal, named_storeVal]
  by_cases same : b = name entry.key
  · subst same
    rw [there, Function.update_self]
    simp [DictEntry.storeVal]
  · rw [Function.update_of_ne same, Dict.contents]
    cases found : named (entryName name) d.entries b with
    | none => rfl
    | some e =>
        have named : name e.key = b := of_decide_eq_true (List.find?_some found :)
        have other : e.key ≠ entry.key := by
          rintro alike
          rw [alike] at named
          exact same named.symm
        simp [DictEntry.storeVal, other]

end Store

/-! ## What every operation keeps -/

section Runs

variable {β : Type} [DecidableEq β] {type : DictType κ υ} {good : κ → Prop} {name : κ → β}

structure Ready (type : DictType κ υ) (good : κ → Prop) (name : κ → β) (d : Dict κ υ) : Prop where
  sound : Sound type good name d
  small : Indexable d
  powers : Powers d

omit [DecidableEq β] in
theorem dictCreate_ready : Ready type good name (dictCreate : Dict κ υ) where
  sound := dictCreate_sound
  small := ⟨Nat.zero_le _, Nat.zero_le _, Nat.zero_le _⟩
  powers := ⟨.reset, .reset⟩

variable {d : Dict κ υ} {key : κ}

omit [DecidableEq β] in
theorem Ready.used_le (ready : Ready type good name d) : d.ht0.used ≤ 2 ^ 30 := by
  have all := ready.small.few
  rw [Dict.entries, List.length_append, ← ready.sound.first.used] at all
  omega

omit [DecidableEq β] in
/-- A table is set up, or the request is refused. -/
theorem dictExpand_ready (ready : Ready type good name d) {size : Nat} (bound : size ≤ 2 ^ 31) :
    Ready type good name (dictExpand d size).1 ∧ (dictExpand d size).1.entries = d.entries := by
  by_cases refused : d.isRehashing || decide (size < d.ht0.used)
  · rw [dictExpand, if_pos refused]
    exact ⟨ready, rfl⟩
  · have idle : d.isRehashing = false := by
      simp only [Bool.or_eq_true, decide_eq_true_eq, not_or, Bool.not_eq_true] at refused
      exact refused.1
    have enough : d.ht0.used ≤ size := by
      simp only [Bool.or_eq_true, decide_eq_true_eq, not_or] at refused
      exact Nat.le_of_not_lt refused.2
    have powers : Powers (dictExpand d size).1 := dictExpand_powers ready.powers (by omega)
    obtain ⟨d', expanded, sound, same, -, indexable⟩ := dictExpand_eq ready.sound idle enough
    rw [expanded] at powers ⊢
    exact ⟨⟨sound, indexable ready.small bound, powers⟩, same⟩

omit [DecidableEq β] in
theorem dictResize_ready (ready : Ready type good name d) :
    Ready type good name (dictResize d).1 ∧ (dictResize d).1.entries = d.entries := by
  unfold dictResize
  split
  · exact ⟨ready, rfl⟩
  · have few := ready.used_le
    have minimal : (BitVec.ofNat 32 d.ht0.used).toInt = d.ht0.used := by
      rw [BitVec.toInt_eq_toNat_of_lt] <;> rw [BitVec.toNat_ofNat] <;> omega
    simp only [minimal]
    apply dictExpand_ready ready
    split
    · decide
    · omega

omit [DecidableEq β] in
theorem dictRehash_ready (ready : Ready type good name d) (n : Nat) :
    ∃ d' r, dictRehash type d n = .ok (d', r) ∧ Ready type good name d' ∧
      Rearranged type good name d d' := by
  obtain ⟨d', r, rehashed, moved⟩ := dictRehash_eq ready.sound n
  exact ⟨d', r, rehashed,
    ⟨moved.sound, moved.indexable ready.small, dictRehash_powers ready.powers rehashed⟩, moved⟩

/-- The entry `dictFind` leads to. -/
theorem dictFind_named (sound : Sound type good name d) (lawful : Lawful type good name)
    (own : good key) {d' : Dict κ υ} {he : Option (DictEntry κ υ)}
    (found : dictFind type d key = .ok (d', he)) :
    he = named (entryName name) d'.entries (name key) := by
  unfold dictFind at found
  split at found
  · rename_i unsized
    cases found
    rw [sound.entries_unsized unsized]
    rfl
  · rename_i sized
    obtain ⟨d₁, stepped, moved⟩ := dictRehashStep_eq sound
    obtain ⟨idx, searched, -⟩ :=
      tablesFind_eq moved.sound lawful own (moved.sized (Nat.pos_of_ne_zero sized))
    rw [stepped, bind_ok, searched] at found
    cases found
    rfl

theorem dictAdd_ready (ready : Ready type good name d) (lawful : Lawful type good name)
    (own : good key) (room : d.entries.length < 2 ^ 30) (val : υ) :
    ∃ d' code, dictAdd type d key val = .ok (d', code) ∧ Ready type good name d' ∧
      d'.entries.length ≤ d.entries.length + 1 ∧ Adds name d key val d' code := by
  obtain ⟨d', code, added, kept, adds⟩ := dictAdd_eq ready.sound ready.small lawful own val
  have few : d'.entries.length ≤ 2 ^ 30 := Nat.le_trans kept.grown room
  exact ⟨d', code, added, ⟨kept.sound, kept.indexable ready.small few,
    dictAdd_powers ready.sound ready.small ready.powers added⟩, kept.grown, adds⟩

theorem dictFind_ready (ready : Ready type good name d) (lawful : Lawful type good name)
    (own : good key) :
    ∃ d' he, dictFind type d key = .ok (d', he) ∧ Ready type good name d' ∧
      d'.entries.Perm d.entries ∧ Finds name d key d' he := by
  obtain ⟨d', he, found, moved, finds⟩ := dictFind_eq ready.sound lawful own
  exact ⟨d', he, found, ⟨moved.sound, moved.indexable ready.small,
    dictFind_powers ready.powers found⟩, moved.perm, finds⟩

theorem dictDelete_ready (ready : Ready type good name d) (lawful : Lawful type good name)
    (own : good key) (room : d.entries.length < 2 ^ 30) :
    ∃ d' code, dictDelete type d key = .ok (d', code) ∧ Ready type good name d' ∧
      d'.entries.length ≤ d.entries.length + 1 ∧ Deletes name d key d' code := by
  obtain ⟨d', code, deleted, kept, deletes⟩ := dictDelete_eq ready.sound lawful own
  have few : d'.entries.length ≤ 2 ^ 30 := Nat.le_trans kept.grown room
  exact ⟨d', code, deleted, ⟨kept.sound, kept.indexable ready.small few,
    dictDelete_powers ready.powers deleted⟩, kept.grown, deletes⟩

/-- A new entry, or a new value in the entry of the key. -/
theorem dictReplace_ready [DecidableEq κ] (ready : Ready type good name d)
    (lawful : Lawful type good name) (own : good key) (room : d.entries.length < 2 ^ 30) (val : υ) :
    ∃ d' code, dictReplace type d key val = .ok (d', code) ∧ Ready type good name d' ∧
      d'.entries.length ≤ d.entries.length + 1 ∧
      code = (if (d.contents name (name key)).isSome then 0 else 1) ∧
      d'.contents name = Function.update (d.contents name) (name key) (some val) := by
  obtain ⟨d₁, code, added, ready₁, grown, adds⟩ := dictAdd_ready ready lawful own room val
  unfold Adds at adds
  cases before : d.contents name (name key) with
  | none =>
      rw [before] at adds
      obtain ⟨rfl, put⟩ := adds
      refine ⟨d₁, 1, ?_, ready₁, grown, rfl, put⟩
      rw [dictReplace, added]
      rfl
  | some old =>
      rw [before] at adds
      obtain ⟨rfl, same⟩ := adds
      obtain ⟨d₂, he, found, ready₂, perm, value, same₂⟩ := dictFind_ready ready₁ lawful own
      have entry := dictFind_named ready₁.sound lawful own found
      rw [same, before] at value
      obtain ⟨e, rfl, -⟩ := Option.map_eq_some_iff.mp value
      have called : name e.key = name key :=
        ((named_eq_some ready₂.sound.distinct).mp entry.symm).2
      have stored : dictSetVal type val = val := by rw [dictSetVal, lawful.valDup]
      rw [← called] at entry
      refine ⟨d₂.storeVal e.key val, 0, ?_, ⟨ready₂.sound.storeVal, ⟨?_, ?_, ?_⟩, ⟨?_, ?_⟩⟩, ?_,
        rfl, ?_⟩
      · have refused : ¬ dictErr = dictOk := by decide
        rw [dictReplace, added, bind_ok]
        simp only [if_neg refused, found, stored]
        rfl
      · simpa [Dict.storeVal] using ready₂.small.first
      · simpa [Dict.storeVal] using ready₂.small.second
      · simpa [Dict.entries_storeVal] using ready₂.small.few
      · exact ready₂.powers.first.of_size (Dictht.size_storeVal _)
      · exact ready₂.powers.second.of_size (Dictht.size_storeVal _)
      · rw [Dict.entries_storeVal, List.length_map, perm.length_eq]
        exact grown
      · rw [contents_storeVal entry.symm, same₂, same, called]

/-! ## A map, in any order of operations -/

/-- The map after an operation. -/
def DictOp.effect (name : κ → β) (m : β → Option υ) : DictOp κ υ → β → Option υ
  | .add key val => if (m (name key)).isSome then m else Function.update m (name key) (some val)
  | .replace key val => Function.update m (name key) (some val)
  | .delete key => Function.update m (name key) none
  | .fetch _ | .resize | .expand _ | .rehash _ => m
  | .empty => fun _ => none

/-- What a map answers; nothing where the answer is about the tables. -/
def DictOp.reply (name : κ → β) (m : β → Option υ) : DictOp κ υ → Option (DictAnswer υ)
  | .add key _ => some (.code (if (m (name key)).isSome then dictErr else dictOk))
  | .replace key _ => some (.code (if (m (name key)).isSome then 0 else 1))
  | .fetch key => some (.value (m (name key)))
  | .delete key => some (.code (if (m (name key)).isSome then dictOk else dictErr))
  | .resize | .expand _ | .rehash _ => none
  | .empty => some .void

/-- Good keys, and no table larger than an `int` can number. -/
def DictOp.Legal (good : κ → Prop) : DictOp κ υ → Prop
  | .add key _ | .replace key _ | .fetch key | .delete key => good key
  | .expand size => size ≤ 2 ^ 31
  | .resize | .rehash _ | .empty => True

theorem contents_congr {d' : Dict κ υ} (same : d'.entries = d.entries) :
    d'.contents name = d.contents name := by
  funext b
  rw [Dict.contents, Dict.contents, same]

/-- **One operation**: it succeeds and does what it does to the map. -/
theorem perform_eq [DecidableEq κ] (ready : Ready type good name d)
    (lawful : Lawful type good name) {op : DictOp κ υ} (legal : op.Legal good)
    (room : d.entries.length < 2 ^ 30) :
    ∃ d' answer, perform type d op = .ok (d', answer) ∧ Ready type good name d' ∧
      d'.entries.length ≤ d.entries.length + 1 ∧
      d'.contents name = op.effect name (d.contents name) ∧
      ∀ said, op.reply name (d.contents name) = some said → answer = said := by
  cases op with
  | add key val =>
      obtain ⟨d', code, added, ready', grown, adds⟩ := dictAdd_ready ready lawful legal room val
      refine ⟨d', .code code, by rw [perform, added]; rfl, ready', grown, ?_⟩
      unfold Adds at adds
      cases before : d.contents name (name key) with
      | none =>
          rw [before] at adds
          obtain ⟨rfl, put⟩ := adds
          simp [DictOp.effect, DictOp.reply, before, put]
      | some old =>
          rw [before] at adds
          obtain ⟨rfl, same⟩ := adds
          simp [DictOp.effect, DictOp.reply, before, same]
  | replace key val =>
      obtain ⟨d', code, replaced, ready', grown, rfl, put⟩ :=
        dictReplace_ready ready lawful legal room val
      refine ⟨d', _, by rw [perform, replaced]; rfl, ready', grown, put, ?_⟩
      simp [DictOp.reply]
  | fetch key =>
      obtain ⟨d', he, found, ready', perm, value, same⟩ := dictFind_ready ready lawful legal
      refine ⟨d', .value (he.map DictEntry.val), ?_, ready', by rw [perm.length_eq]; omega, same, ?_⟩
      · rw [perform, dictFetchValue, found]
        rfl
      · simp [DictOp.reply, value]
  | delete key =>
      obtain ⟨d', code, deleted, ready', grown, rfl, gone⟩ :=
        dictDelete_ready ready lawful legal room
      refine ⟨d', _, by rw [perform, deleted]; rfl, ready', grown, gone, ?_⟩
      simp [DictOp.reply]
  | resize =>
      obtain ⟨ready', same⟩ := dictResize_ready ready
      exact ⟨_, _, rfl, ready', by rw [same]; omega, contents_congr same,
        fun _ none => by cases none⟩
  | expand size =>
      obtain ⟨ready', same⟩ := dictExpand_ready ready legal
      exact ⟨_, _, rfl, ready', by rw [same]; omega, contents_congr same,
        fun _ none => by cases none⟩
  | rehash n =>
      obtain ⟨d', r, rehashed, ready', moved⟩ := dictRehash_ready ready n
      exact ⟨d', .code r, by rw [perform, rehashed]; rfl, ready', by rw [moved.perm.length_eq]; omega,
        moved.contents_eq, fun _ none => by cases none⟩
  | empty =>
      refine ⟨dictCreate, .void, rfl, dictCreate_ready, Nat.zero_le _, rfl, ?_⟩
      simp [DictOp.reply]

/-- One operation after the other. -/
def performs [DecidableEq κ] (type : DictType κ υ) :
    Dict κ υ → List (DictOp κ υ) → Except Fault (Dict κ υ × List (DictAnswer υ))
  | d, [] => .ok (d, [])
  | d, op :: ops => do
      let (d, answer) ← perform type d op
      let (d, answers) ← performs type d ops
      return (d, answer :: answers)

/-- The map after operations. -/
def effects (name : κ → β) (m : β → Option υ) : List (DictOp κ υ) → β → Option υ
  | [] => m
  | op :: ops => effects name (op.effect name m) ops

/-- Each answer is that of the map at its time. -/
def Replied (name : κ → β) : (β → Option υ) → List (DictOp κ υ) → List (DictAnswer υ) → Prop
  | m, op :: ops, answer :: answers =>
      (∀ said, op.reply name m = some said → answer = said) ∧
        Replied name (op.effect name m) ops answers
  | _, ops, answers => ops = [] ∧ answers = []

theorem performs_ready [DecidableEq κ] (lawful : Lawful type good name) {ops : List (DictOp κ υ)}
    (legal : ∀ op ∈ ops, op.Legal good) (ready : Ready type good name d)
    (room : d.entries.length + ops.length ≤ 2 ^ 30) :
    ∃ d' answers, performs type d ops = .ok (d', answers) ∧ Ready type good name d' ∧
      d'.contents name = effects name (d.contents name) ops ∧
      Replied name (d.contents name) ops answers := by
  induction ops generalizing d with
  | nil => exact ⟨d, [], rfl, ready, rfl, rfl, rfl⟩
  | cons op ops ih =>
      rw [List.length_cons] at room
      obtain ⟨d₁, answer, one, ready₁, grown, effect, reply⟩ :=
        perform_eq ready lawful (legal op List.mem_cons_self) (by omega)
      obtain ⟨d', answers, rest, ready', effect', replies⟩ :=
        ih (fun op member => legal op (List.mem_cons_of_mem _ member)) ready₁ (by omega)
      rw [effect] at effect' replies
      refine ⟨d', answer :: answers, ?_, ready', effect', reply, replies⟩
      rw [performs, one, bind_ok]
      simp only [rest, bind_ok]
      rfl

theorem Ready.of_performs [DecidableEq κ] (lawful : Lawful type good name)
    {ops : List (DictOp κ υ)} (legal : ∀ op ∈ ops, op.Legal good) (ready : Ready type good name d)
    (room : d.entries.length + ops.length ≤ 2 ^ 30) {d' : Dict κ υ} {answers : List (DictAnswer υ)}
    (done : performs type d ops = .ok (d', answers)) : Ready type good name d' := by
  obtain ⟨_, _, done', ready', -⟩ := performs_ready lawful legal ready room
  cases done'.symm.trans done
  exact ready'

/-- **Runs.**  Whatever is resized or rehashed in between, a dictionary is a map. -/
theorem performs_eq [DecidableEq κ] (lawful : Lawful type good name) {ops : List (DictOp κ υ)}
    (legal : ∀ op ∈ ops, op.Legal good) (few : ops.length ≤ 2 ^ 30) :
    ∃ d answers, performs type dictCreate ops = .ok (d, answers) ∧
      d.contents name = effects name (fun _ => none) ops ∧
      Replied name (fun _ => none) ops answers := by
  have room : (dictCreate : Dict κ υ).entries.length + ops.length ≤ 2 ^ 30 := by
    have none : (dictCreate : Dict κ υ).entries.length = 0 := rfl
    omega
  obtain ⟨d, answers, done, -, effect, replies⟩ :=
    performs_ready lawful legal dictCreate_ready room
  exact ⟨d, answers, done, effect, replies⟩

/-- A type with a hash and no other callback: keys are compared as pointers. -/
def DictType.plain [DecidableEq κ] (hash : κ → BitVec 32) : DictType κ υ where
  hashFunction := hash
  keyDup := none
  valDup := none
  keyCompare a b := .ok (decide (a = b))

theorem DictType.plain_lawful [DecidableEq κ] (hash : κ → BitVec 32) :
    Lawful (DictType.plain hash : DictType κ υ) (fun _ => True) id where
  compare _ _ := rfl
  hash _ _ same := congrArg hash same
  keyDup := rfl
  valDup := rfl

/-- Numbers that are their own hashes. -/
def numbers : DictType Nat Nat := .plain (BitVec.ofNat 32)

theorem numbers_lawful : Lawful numbers (fun _ => True) id := DictType.plain_lawful _

/-- A second value, a resize in the middle, and a key that is gone. -/
theorem performs_numbers :
    ∃ d answers, performs numbers dictCreate
        [.add 1 5, .replace 1 6, .expand 16, .add 17 7, .rehash 1, .delete 1] = .ok (d, answers) ∧
      d.contents id = effects id (fun _ => none)
        [.add 1 5, .replace 1 6, .expand 16, .add 17 7, .rehash 1, .delete 1] ∧
      Replied id (fun _ => none)
        [.add 1 5, .replace 1 6, .expand 16, .add 17 7, .rehash 1, .delete 1] answers :=
  performs_eq numbers_lawful (by simp [DictOp.Legal]) (by decide)

end Runs

end Itaro.Cache
