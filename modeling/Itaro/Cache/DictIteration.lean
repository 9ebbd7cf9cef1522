/-
# Cache.DictIteration -- iterating over a dictionary while it changes

While a safe iterator is in use nothing is rehashed, so each operation changes at most
one chain (`dictAdd_calm`, `dictDelete_calm`), and a table that is set up in the
meantime is empty and comes last.  Entries that stay therefore stay on their side of
the iterator:

* `iterate_once`: a key that is present all the time is returned once, whatever else is
  added, replaced and deleted, as long as the entry that comes next is not;
* `iterate_release`: released, the iterator leaves the count of iterators as it was.
-/
import Itaro.Cache.DictIterator
import Itaro.Theory.Runs

namespace Itaro.Cache

set_option autoImplicit false

open Theory

variable {κ υ : Type}

/-! ## What an operation changes -/

/-- The tables are the same up to their chains. -/
structure Frame (d d' : Dict κ υ) : Prop where
  first : d'.ht0.size = d.ht0.size
  second : d'.ht1.size = d.ht1.size
  rehashidx : d'.rehashidx = d.rehashidx
  iterators : d'.iterators = d.iterators

/-- A table is set up, if any. -/
inductive Grown (d : Dict κ υ) : Dict κ υ → Prop
  | same : Grown d d
  | first (n : Nat) (empty : d.ht0.table = []) (idle : d.rehashidx = none) :
      Grown d { d with ht0 := ⟨List.replicate n [], 0⟩ }
  | second (n : Nat) (idle : d.rehashidx = none) :
      Grown d { d with ht1 := ⟨List.replicate n [], 0⟩, rehashidx := some 0 }

/-- An entry is put at the head of its chain. -/
structure Pushed (d d' : Dict κ υ) (e : DictEntry κ υ) : Prop where
  frame : Frame d d'
  chains : ∃ i chain, d.chains[i]? = some chain ∧ d'.chains = d.chains.set i (e :: chain)

/-- An entry is taken out of its chain. -/
structure Unlinked (d d' : Dict κ υ) (e : DictEntry κ υ) : Prop where
  frame : Frame d d'
  chains : ∃ i pre post, d.chains[i]? = some (pre ++ e :: post) ∧
    d'.chains = d.chains.set i (pre ++ post)

section Calm

variable {type : DictType κ υ} {d d' : Dict κ υ} {key : κ}

theorem dictRehashStep_calm (busy : d.iterators ≠ 0) : dictRehashStep type d = .ok d := by
  have still : ¬ (d.isRehashing && d.iterators == 0) = true := by simp [busy]
  rw [dictRehashStep, if_neg still]
  rfl

theorem dictExpand_grown (d : Dict κ υ) (size : Nat) : Grown d (dictExpand d size).1 := by
  unfold dictExpand
  split
  · exact .same
  · rename_i free
    simp only [Bool.or_eq_true, not_or, Bool.not_eq_true] at free
    have idle := Option.not_isSome_iff_eq_none.mp (Bool.eq_false_iff.mp free.1)
    split
    · exact .first _ (List.isEmpty_iff.mp ‹_›) idle
    · exact .second _ idle

theorem dictExpandIfNeeded_grown (d : Dict κ υ) : Grown d (dictExpandIfNeeded d).1 := by
  unfold dictExpandIfNeeded
  split
  · exact .same
  split
  · exact dictExpand_grown d _
  split
  · exact dictExpand_grown d _
  · exact .same

theorem Dictht.bucket_some {ht : Dictht κ υ} {i : Nat} {chain : List (DictEntry κ υ)}
    (read : ht.bucket i = .ok chain) : ht.table[i]? = some chain := by
  unfold Dictht.bucket at read
  split at read
  · cases read; assumption
  · cases read

theorem addEntry_table {ht ht' : Dictht κ υ} {index : Int} {val : υ}
    (added : addEntry type ht index key val = .ok ht') :
    ∃ i chain, ht.table[i]? = some chain ∧ ht'.size = ht.size ∧
      ht'.table = ht.table.set i (⟨dictSetKey type key, dictSetVal type val⟩ :: chain) := by
  have size := addEntry_size added
  unfold addEntry at added
  split at added
  · cases added
  · obtain ⟨chain, read, added⟩ := exists_of_bind added
    cases added
    exact ⟨_, chain, Dictht.bucket_some read, size, rfl⟩

/-- While an iterator is in use, `dictAdd` puts an entry into a chain or refuses. -/
theorem dictAdd_calm (busy : d.iterators ≠ 0) {val : υ} {code : Int}
    (added : dictAdd type d key val = .ok (d', code)) :
    ∃ d₁, Grown d d₁ ∧ (code = dictErr ∧ d' = d₁ ∨
      code = dictOk ∧ Pushed d₁ d' ⟨dictSetKey type key, dictSetVal type val⟩) := by
  obtain ⟨⟨d₃, b⟩, raw, same⟩ := exists_of_bind added
  cases same
  rw [dictAddRaw, dictRehashStep_calm busy, bind_ok] at raw
  obtain ⟨⟨d₂, index⟩, keyed, put⟩ := exists_of_bind raw
  have grown := dictExpandIfNeeded_grown d
  rw [← dictKeyIndex_fst keyed] at grown
  refine ⟨d₂, grown, ?_⟩
  simp only at put
  split at put
  · cases put
    exact .inl ⟨rfl, rfl⟩
  split at put
  · obtain ⟨ht, filed, same⟩ := exists_of_bind put
    cases same
    obtain ⟨i, chain, there, size, table⟩ := addEntry_table filed
    refine .inr ⟨rfl, ⟨rfl, size, rfl, rfl⟩, d₂.ht0.table.length + i, chain, ?_, ?_⟩
    · rw [Dict.chains, List.getElem?_append_right (Nat.le_add_right _ _), Nat.add_sub_cancel_left]
      exact there
    · simp only [Dict.chains, table]
      rw [List.set_append_right _ _ (Nat.le_add_right _ _), Nat.add_sub_cancel_left]
  · obtain ⟨ht, filed, same⟩ := exists_of_bind put
    cases same
    obtain ⟨i, chain, there, size, table⟩ := addEntry_table filed
    have inside := (List.getElem?_eq_some_iff.mp there).1
    refine .inr ⟨rfl, ⟨size, rfl, rfl, rfl⟩, i, chain, ?_, ?_⟩
    · rw [Dict.chains, List.getElem?_append_left inside]
      exact there
    · simp only [Dict.chains, table]
      rw [List.set_append_left _ _ inside]

theorem dictFind_calm (busy : d.iterators ≠ 0) {he : Option (DictEntry κ υ)}
    (found : dictFind type d key = .ok (d', he)) : d' = d := by
  unfold dictFind at found
  split at found
  · cases found; rfl
  · rw [dictRehashStep_calm busy, bind_ok] at found
    obtain ⟨searched, -, found⟩ := exists_of_bind found
    cases found
    rfl

theorem chainUnlink_split {chain rest : List (DictEntry κ υ)}
    (unlinked : chainUnlink type key chain = .ok (some rest)) :
    ∃ pre e post, chain = pre ++ e :: post ∧ rest = pre ++ post ∧
      type.keyCompare key e.key = .ok true := by
  induction chain generalizing rest with
  | nil => cases unlinked
  | cons he next ih =>
      obtain ⟨equal, compared, unlinked⟩ := exists_of_bind unlinked
      cases equal with
      | true =>
          cases unlinked
          exact ⟨[], he, next, rfl, rfl, compared⟩
      | false =>
          obtain ⟨left, inner, unlinked⟩ := exists_of_bind unlinked
          cases left with
          | none => cases unlinked
          | some left =>
              cases unlinked
              obtain ⟨pre, e, post, rfl, rfl, equal⟩ := ih inner
              exact ⟨he :: pre, e, post, rfl, rfl, equal⟩

theorem tableUnlink_table {ht ht' : Dictht κ υ}
    (unlinked : tableUnlink type ht key = .ok (some ht')) :
    ∃ i pre e post, ht.table[i]? = some (pre ++ e :: post) ∧ ht'.size = ht.size ∧
      ht'.table = ht.table.set i (pre ++ post) ∧ type.keyCompare key e.key = .ok true := by
  have size := tableUnlink_size unlinked
  unfold tableUnlink at unlinked
  obtain ⟨chain, read, unlinked⟩ := exists_of_bind unlinked
  obtain ⟨rest, inner, unlinked⟩ := exists_of_bind unlinked
  cases rest with
  | none => cases unlinked
  | some rest =>
      cases unlinked
      obtain ⟨pre, e, post, rfl, rfl, equal⟩ := chainUnlink_split inner
      exact ⟨_, pre, e, post, Dictht.bucket_some read, size, rfl, equal⟩

/-- While an iterator is in use, `dictDelete` takes one entry out of its chain. -/
theorem dictDelete_calm (busy : d.iterators ≠ 0) {code : Int}
    (deleted : dictDelete type d key = .ok (d', code)) :
    d' = d ∨ ∃ e, type.keyCompare key e.key = .ok true ∧ Unlinked d d' e := by
  unfold dictDelete at deleted
  split at deleted
  · cases deleted
    exact .inl rfl
  · rw [dictRehashStep_calm busy, bind_ok] at deleted
    obtain ⟨first, unlinked, deleted⟩ := exists_of_bind deleted
    cases first with
    | some ht =>
        cases deleted
        obtain ⟨i, pre, e, post, there, size, table, equal⟩ := tableUnlink_table unlinked
        have inside := (List.getElem?_eq_some_iff.mp there).1
        refine .inr ⟨e, equal, ⟨size, rfl, rfl, rfl⟩, i, pre, post, ?_, ?_⟩
        · rw [Dict.chains, List.getElem?_append_left inside]
          exact there
        · simp only [Dict.chains, table]
          rw [List.set_append_left _ _ inside]
    | none =>
        simp only at deleted
        split at deleted
        · obtain ⟨second, unlinked', deleted⟩ := exists_of_bind deleted
          cases second with
          | none =>
              cases deleted
              exact .inl rfl
          | some ht =>
              cases deleted
              obtain ⟨i, pre, e, post, there, size, table, equal⟩ := tableUnlink_table unlinked'
              refine .inr ⟨e, equal, ⟨rfl, size, rfl, rfl⟩, d.ht0.table.length + i, pre, post, ?_, ?_⟩
              · rw [Dict.chains, List.getElem?_append_right (Nat.le_add_right _ _),
                  Nat.add_sub_cancel_left]
                exact there
              · simp only [Dict.chains, table]
                rw [List.set_append_right _ _ (Nat.le_add_right _ _), Nat.add_sub_cancel_left]
        · cases deleted
          exact .inl rfl

end Calm

/-! ## What an iterator notices of it -/

section Settled

variable [DecidableEq κ] {type : DictType κ υ} {good : κ → Prop} {β : Type} {name : κ → β}
  {d d' : Dict κ υ} {iter : DictIterator κ} {e x : DictEntry κ υ}

omit [DecidableEq κ] in
theorem Grown.chains (sound : Sound type good name d) (grown : Grown d d') :
    ∃ m, d'.chains = d.chains ++ List.replicate m [] := by
  cases grown with
  | same => exact ⟨0, (List.append_nil _).symm⟩
  | first n empty idle =>
      refine ⟨n, ?_⟩
      simp only [Dict.chains, empty, sound.idle idle, Dictht.reset, List.append_nil, List.nil_append]
  | second n idle =>
      refine ⟨n, ?_⟩
      simp only [Dict.chains, sound.idle idle, Dictht.reset, List.append_nil]

/-- A new table changes nothing for an iterator. -/
theorem Grown.settled (sound : Sound type good name d) (grown : Grown d d') (here : InPlace d iter) :
    InPlace d' iter ∧ d'.ahead iter = d.ahead iter ∧ d'.iterators = d.iterators ∧
      d'.entries = d.entries := by
  obtain ⟨m, chains⟩ := grown.chains sound
  have inside := here.spot_le
  have entries : d'.entries = d.entries := by
    rw [← Dict.chains_flatten, chains, List.flatten_append, List.flatten_replicate_nil,
      List.append_nil, Dict.chains_flatten]
  have spot : d'.spot iter = d.spot iter := by
    unfold Dict.spot
    split
    · rfl
    · rename_i second
      obtain ⟨-, moving, -⟩ := here.table.resolve_left fun first => second first.1
      obtain ⟨i, some⟩ := Option.isSome_iff_exists.mp moving
      cases grown with
      | same => rfl
      | first n empty idle => rw [idle] at some; cases some
      | second n idle => rfl
  have iterators : d'.iterators = d.iterators := by cases grown <;> rfl
  refine ⟨⟨here.index, ?_, here.entered, fun k next => ?_⟩, ?_, iterators, entries⟩
  · rcases here.table with ⟨first, bound⟩ | ⟨second, moving, index, bound⟩
    · refine .inl ⟨first, ?_⟩
      cases grown with
      | same => exact bound
      | first n empty idle =>
          have none : d.ht0.size = 0 := by rw [Dictht.size, empty]; rfl
          rw [none] at bound
          exact Int.le_trans bound (Int.natCast_nonneg _)
      | second n idle => exact bound
    · obtain ⟨i, some⟩ := Option.isSome_iff_exists.mp moving
      cases grown with
      | same => exact .inr ⟨second, moving, index, bound⟩
      | first n empty idle => rw [idle] at some; cases some
      | second n idle => rw [idle] at some; cases some
  · obtain ⟨pre, e, post, place, same⟩ := here.pending k next
    refine ⟨pre, e, post, ?_, same⟩
    rw [spot, chains, List.getElem?_append_left (List.getElem?_eq_some_iff.mp place).1]
    exact place
  · rw [Dict.ahead, spot, chains, ChainCursor.ahead_append_nils m inside here.entered_spot]
    rfl

omit [DecidableEq κ] in
theorem Frame.spot (frame : Frame d d') : d'.spot iter = d.spot iter := by
  rw [Dict.spot, Dict.spot, frame.first]

omit [DecidableEq κ] in
theorem Frame.inPlace (frame : Frame d d') (here : InPlace d iter)
    (pending : ∀ k, iter.pending = some k → ∃ chain, d'.chains[d.spot iter - 1]? = some chain ∧
      ∃ e ∈ chain, e.key = k) : InPlace d' iter where
  index := here.index
  table := by
    rw [frame.first, frame.second, Dict.isRehashing, frame.rehashidx]
    exact here.table
  entered := here.entered
  pending k next := by
    obtain ⟨chain, place, e, member, same⟩ := pending k next
    obtain ⟨pre, post, rfl⟩ := List.append_of_mem member
    exact ⟨pre, e, post, by rw [frame.spot]; exact place, same⟩

/-- A new entry leaves the others on their side of the iterator. -/
theorem Pushed.settled (pushed : Pushed d d' e) (here : InPlace d iter)
    (other : iter.pending ≠ some e.key) :
    InPlace d' iter ∧ ∀ x, x ≠ e → (x ∈ d'.ahead iter ↔ x ∈ d.ahead iter) := by
  obtain ⟨frame, i, chain, there, chains⟩ := pushed
  refine ⟨frame.inPlace here fun k next => ?_, fun x ne => ?_⟩
  · obtain ⟨pre, e', post, place, same⟩ := here.pending k next
    have member : e' ∈ pre ++ e' :: post := List.mem_append_right _ List.mem_cons_self
    rw [chains]
    by_cases own : i = d.spot iter - 1
    · subst own
      obtain rfl := Option.some.inj (place.symm.trans there)
      exact ⟨_, List.getElem?_set_self (List.getElem?_eq_some_iff.mp there).1, e',
        List.mem_cons_of_mem _ member, same⟩
    · exact ⟨_, (List.getElem?_set_ne own).trans place, e', member, same⟩
  · have place : d.chains[i]? = some ([] ++ chain) := there
    rw [Dict.ahead, frame.spot, chains]
    exact ChainCursor.mem_ahead_insert place other ne

/-- So does an entry that is taken out. -/
theorem Unlinked.settled (unlinked : Unlinked d d' e) (here : InPlace d iter)
    (other : iter.pending ≠ some e.key) :
    InPlace d' iter ∧ ∀ x, x ≠ e → (x ∈ d'.ahead iter ↔ x ∈ d.ahead iter) := by
  obtain ⟨frame, i, pre, post, there, chains⟩ := unlinked
  have inside := (List.getElem?_eq_some_iff.mp there).1
  refine ⟨frame.inPlace here fun k next => ?_, fun x ne => ?_⟩
  · obtain ⟨pre', e', post', place, rfl⟩ := here.pending k next
    have member : e' ∈ pre' ++ e' :: post' := List.mem_append_right _ List.mem_cons_self
    rw [chains]
    by_cases own : i = d.spot iter - 1
    · subst own
      rw [Option.some.inj (place.symm.trans there)] at member
      have ne : e' ≠ e := by
        rintro rfl
        exact other next
      refine ⟨_, List.getElem?_set_self inside, e', ?_, rfl⟩
      rcases List.mem_append.mp member with before | behind
      · exact List.mem_append_left _ before
      · exact List.mem_append_right _ ((List.mem_cons.mp behind).resolve_left ne)
    · exact ⟨_, (List.getElem?_set_ne own).trans place, e', member, rfl⟩
  · have back : d.chains = d'.chains.set i (pre ++ e :: post) := by
      rw [chains, List.set_set]
      obtain ⟨_, same⟩ := List.getElem?_eq_some_iff.mp there
      rw [← same, List.set_getElem_self]
    have place : d'.chains[i]? = some (pre ++ post) := by
      rw [chains, List.getElem?_set_self inside]
    have left := ChainCursor.mem_ahead_insert (n := d.spot iter) place other ne
    rw [← back] at left
    rw [Dict.ahead, frame.spot]
    exact left.symm

theorem mem_ahead_names {b : β}
    (settled : ∀ x : DictEntry κ υ, name x.key = b → (x ∈ d'.ahead iter ↔ x ∈ d.ahead iter)) :
    b ∈ (d'.ahead iter).map (entryName name) ↔ b ∈ (d.ahead iter).map (entryName name) := by
  rw [List.mem_map, List.mem_map]
  constructor
  · rintro ⟨x, member, named⟩
    exact ⟨x, (settled x named).mp member, named⟩
  · rintro ⟨x, member, named⟩
    exact ⟨x, (settled x named).mpr member, named⟩

/-- A new value changes no key. -/
theorem storeVal_settled (name : κ → β) (here : InPlace d iter) (key : κ) (val : υ) :
    InPlace (d.storeVal key val) iter ∧ ((d.storeVal key val).ahead iter).map (entryName name) =
      (d.ahead iter).map (entryName name) := by
  have chains : (d.storeVal key val).chains = d.chains.map (List.map (DictEntry.storeVal key val)) := by
    simp only [Dict.chains, Dict.storeVal, Dictht.storeVal, List.map_append]
  have frame : Frame d (d.storeVal key val) :=
    ⟨Dictht.size_storeVal _, Dictht.size_storeVal _, rfl, rfl⟩
  refine ⟨frame.inPlace here fun k next => ?_, ?_⟩
  · obtain ⟨pre, e, post, place, same⟩ := here.pending k next
    rw [chains, List.getElem?_map, place]
    refine ⟨_, rfl, e.storeVal key val, List.mem_map_of_mem ?_, by rw [DictEntry.storeVal_key, same]⟩
    exact List.mem_append_right _ List.mem_cons_self
  · rw [Dict.ahead, frame.spot, chains, ChainCursor.ahead_map DictEntry.storeVal_key,
      map_name_storeVal]
    rfl

end Settled

/-! ## Operations while an iterator is in use -/

/-- The operations that are allowed while a safe iterator is in use. -/
def DictOp.Calm : DictOp κ υ → Prop
  | .rehash _ | .empty => False
  | _ => True

section Operations

variable [DecidableEq κ] {type : DictType κ υ} {good : κ → Prop} {β : Type} [DecidableEq β]
  {name : κ → β} {d d' : Dict κ υ} {iter : DictIterator κ} {key : κ}

/-- The names of the entries. -/
def Dict.names (d : Dict κ υ) (name : κ → β) : List β := d.entries.map (entryName name)

omit [DecidableEq κ] in
theorem Dict.mem_names {b : β} : b ∈ d.names name ↔ (d.contents name b).isSome := by
  rw [Dict.contents, Option.isSome_map, ← not_iff_not, Bool.not_eq_true, Option.isSome_eq_false_iff,
    Option.isNone_iff_eq_none, named_eq_none]
  exact Iff.rfl

/-- The iterator is in place, and has before it what it had of the keys that stay. -/
structure Undisturbed (name : κ → β) (d d' : Dict κ υ) (iter : DictIterator κ) : Prop where
  inPlace : InPlace d' iter
  iterators : d'.iterators = d.iterators
  ahead : ∀ b, b ∈ d.names name → b ∈ d'.names name →
    (b ∈ (d'.ahead iter).map (entryName name) ↔ b ∈ (d.ahead iter).map (entryName name))

omit [DecidableEq β] in
theorem Grown.undisturbed (sound : Sound type good name d) (grown : Grown d d')
    (here : InPlace d iter) : Undisturbed name d d' iter := by
  obtain ⟨inPlace, ahead, iterators, -⟩ := grown.settled sound here
  exact ⟨inPlace, iterators, fun b _ _ => by rw [ahead]⟩

omit [DecidableEq κ] [DecidableEq β] in
/-- What comes next is an entry of the dictionary. -/
theorem InPlace.pending_mem (here : InPlace d iter) {k : κ} (next : iter.pending = some k) :
    name k ∈ d.names name := by
  obtain ⟨pre, e, post, place, rfl⟩ := here.pending k next
  have member : e ∈ d.chains.flatten := List.mem_flatten.mpr
    ⟨_, List.mem_of_getElem? place, List.mem_append_right _ List.mem_cons_self⟩
  rw [Dict.chains_flatten] at member
  exact List.mem_map_of_mem (f := entryName name) member

theorem dictAdd_undisturbed (ready : Ready type good name d) (lawful : Lawful type good name)
    (own : good key) (room : d.entries.length < 2 ^ 30) (busy : d.iterators ≠ 0)
    (here : InPlace d iter) {val : υ} {code : Int}
    (added : dictAdd type d key val = .ok (d', code)) :
    Undisturbed name d d' iter ∧ (code = dictErr → d'.entries = d.entries) := by
  obtain ⟨d₁, grown, calm⟩ := dictAdd_calm busy added
  obtain ⟨inPlace, ahead, iterators, entries⟩ := grown.settled ready.sound here
  rcases calm with ⟨-, rfl⟩ | ⟨rfl, pushed⟩
  · exact ⟨grown.undisturbed ready.sound here, fun _ => entries⟩
  · have entry : (⟨dictSetKey type key, dictSetVal type val⟩ : DictEntry κ υ) = ⟨key, val⟩ := by
      rw [dictSetKey, dictSetVal, lawful.keyDup, lawful.valDup]
    rw [entry] at pushed
    obtain ⟨_, _, added', -, -, adds⟩ := dictAdd_ready ready lawful own room val
    cases added'.symm.trans added
    have absent : name key ∉ d.names name := by
      rw [Dict.mem_names]
      intro present
      obtain ⟨old, before⟩ := Option.isSome_iff_exists.mp present
      rw [Adds, before] at adds
      exact absurd adds.1 (by decide)
    have other : iter.pending ≠ some key := fun next => absent (here.pending_mem next)
    obtain ⟨inPlace', settled⟩ := pushed.settled inPlace other
    refine ⟨⟨inPlace', pushed.frame.iterators.trans iterators, fun b before _ => ?_⟩,
      fun refused => absurd refused (by decide)⟩
    rw [← ahead]
    refine mem_ahead_names fun x named => settled x ?_
    rintro rfl
    exact absent (named ▸ before)

theorem dictReplace_undisturbed (ready : Ready type good name d) (lawful : Lawful type good name)
    (own : good key) (room : d.entries.length < 2 ^ 30) (busy : d.iterators ≠ 0)
    (here : InPlace d iter) {val : υ} {code : Int}
    (replaced : dictReplace type d key val = .ok (d', code)) : Undisturbed name d d' iter := by
  obtain ⟨⟨d₁, code₁⟩, added, rest⟩ := exists_of_bind replaced
  obtain ⟨settled, refused⟩ := dictAdd_undisturbed ready lawful own room busy here added
  simp only at rest
  split at rest
  · cases rest
    exact settled
  · rename_i failed
    obtain ⟨⟨d₂, he⟩, found, rest⟩ := exists_of_bind rest
    obtain rfl := dictFind_calm (by rw [settled.iterators]; exact busy) found
    cases he with
    | none => cases rest
    | some entry =>
        cases rest
        obtain ⟨inPlace, ahead⟩ := storeVal_settled name settled.inPlace entry.key
          (dictSetVal type val)
        refine ⟨inPlace, settled.iterators, fun b before after => ?_⟩
        rw [ahead]
        refine settled.ahead b before ?_
        rwa [Dict.names, Dict.entries_storeVal, map_name_storeVal] at after

theorem dictDelete_undisturbed (ready : Ready type good name d) (lawful : Lawful type good name)
    (own : good key) (busy : d.iterators ≠ 0) (here : InPlace d iter) {code : Int}
    (kept : ∀ k, iter.pending = some k → name k ≠ name key)
    (deleted : dictDelete type d key = .ok (d', code)) : Undisturbed name d d' iter := by
  rcases dictDelete_calm busy deleted with rfl | ⟨e, equal, unlinked⟩
  · exact ⟨here, rfl, fun _ _ _ => Iff.rfl⟩
  · have member : e ∈ d.entries := by
      obtain ⟨-, i, pre, post, there, -⟩ := unlinked
      rw [← Dict.chains_flatten]
      exact List.mem_flatten.mpr
        ⟨_, List.mem_of_getElem? there, List.mem_append_right _ List.mem_cons_self⟩
    have good' : good e.key := by
      rcases List.mem_append.mp member with first | second
      · exact ready.sound.first.good e first
      · exact ready.sound.second.good e second
    have called : name e.key = name key := by
      have same := (lawful.compare own good').symm.trans equal
      exact (of_decide_eq_true (Except.ok.inj same)).symm
    have other : iter.pending ≠ some e.key := fun next => kept _ next called
    obtain ⟨inPlace, settled⟩ := unlinked.settled here other
    refine ⟨inPlace, unlinked.frame.iterators, fun b _ after => ?_⟩
    refine mem_ahead_names fun x named => settled x ?_
    rintro rfl
    obtain ⟨_, _, deleted', -, deletes⟩ := dictDelete_eq ready.sound lawful own
    cases deleted'.symm.trans deleted
    rw [Dict.mem_names, deletes.2, ← named, called, Function.update_self] at after
    cases after

/-- **An operation** leaves an iterator what it has of the keys that stay. -/
theorem perform_undisturbed (ready : Ready type good name d) (lawful : Lawful type good name)
    {op : DictOp κ υ} (legal : op.Legal good) (room : d.entries.length < 2 ^ 30) (calm : op.Calm)
    (busy : d.iterators ≠ 0) (here : InPlace d iter)
    (kept : ∀ key, op = .delete key → ∀ k, iter.pending = some k → name k ≠ name key)
    {answer : DictAnswer υ} (performed : perform type d op = .ok (d', answer)) :
    Undisturbed name d d' iter := by
  cases op with
  | add key val =>
      obtain ⟨⟨d₁, code⟩, added, same⟩ := exists_of_bind performed
      cases same
      exact (dictAdd_undisturbed ready lawful legal room busy here added).1
  | replace key val =>
      obtain ⟨⟨d₁, code⟩, replaced, same⟩ := exists_of_bind performed
      cases same
      exact dictReplace_undisturbed ready lawful legal room busy here replaced
  | fetch key =>
      obtain ⟨⟨d₁, val⟩, fetched, same⟩ := exists_of_bind performed
      obtain ⟨⟨d₂, he⟩, found, same'⟩ := exists_of_bind fetched
      cases same
      cases same'
      obtain rfl := dictFind_calm busy found
      exact ⟨here, rfl, fun _ _ _ => Iff.rfl⟩
  | delete key =>
      obtain ⟨⟨d₁, code⟩, deleted, same⟩ := exists_of_bind performed
      cases same
      exact dictDelete_undisturbed ready lawful legal busy here (kept key rfl) deleted
  | resize =>
      cases performed
      refine Grown.undisturbed ready.sound ?_ here
      unfold dictResize
      split
      · exact .same
      · exact dictExpand_grown d _
  | expand size =>
      cases performed
      exact (dictExpand_grown d size).undisturbed ready.sound here
  | rehash n => exact absurd calm id
  | empty => exact absurd calm id

end Operations

/-! ## Iterations -/

/-- An iteration: the keys of the entries returned, and whether it has come to `NULL`. -/
structure Iteration (κ υ : Type) where
  dict : Dict κ υ
  iter : DictIterator κ
  returned : List κ
  ended : Bool
  deriving DecidableEq

inductive IterAct (κ υ : Type)
  | op (op : DictOp κ υ)
  | next

section Iterations

variable [DecidableEq κ] {type : DictType κ υ} {good : κ → Prop} {β : Type} [DecidableEq β]
  {name : κ → β} {key : κ} {s s' : Iteration κ υ}

def iterAct (type : DictType κ υ) (s : Iteration κ υ) : IterAct κ υ → Except Fault (Iteration κ υ)
  | .op op => do
      let (d, _) ← perform type s.dict op
      return { s with dict := d }
  | .next => do
      let (d, iter, entry) ← dictNext s.dict s.iter
      match entry with
      | some k => return ⟨d, iter, s.returned ++ [k], false⟩
      | none => return ⟨d, iter, s.returned, true⟩

/-- A step of an iteration that has not ended: `dictNext`, or an operation once that has
been called.  The entry that comes next is not deleted. -/
structure IterStep (type : DictType κ υ) (good : κ → Prop) (name : κ → β) (s : Iteration κ υ)
    (a : IterAct κ υ) (s' : Iteration κ υ) : Prop where
  running : s.ended = false
  legal : ∀ op, a = .op op → op.Legal good ∧ op.Calm ∧ s.dict.entries.length < 2 ^ 30 ∧
    0 ≤ s.iter.index
  kept : ∀ key, a = .op (.delete key) → ∀ k, s.iter.pending = some k → name k ≠ name key
  does : iterAct type s a = .ok s'

/-- A safe iterator in use, besides `n` others. -/
structure InUse (type : DictType κ υ) (good : κ → Prop) (name : κ → β) (n : Nat)
    (s : Iteration κ υ) : Prop where
  ready : Ready type good name s.dict
  safe : s.iter.safe = true
  inPlace : s.ended = false → InPlace s.dict s.iter
  started : 0 ≤ s.iter.index → s.dict.iterators = n + 1
  fresh : ¬ 0 ≤ s.iter.index → s.iter = dictGetSafeIterator ∧ s.dict.iterators = n

/-- What one step does: an operation goes by, an entry is returned, or there is none. -/
inductive Steps (name : κ → β) (s s' : Iteration κ υ) : Prop
  | op (running : s'.ended = false) (returned : s'.returned = s.returned)
      (ahead : ∀ b, b ∈ s.dict.names name → b ∈ s'.dict.names name →
        (b ∈ (s'.dict.ahead s'.iter).map (entryName name) ↔
          b ∈ (s.dict.ahead s.iter).map (entryName name)))
  | entry (e : DictEntry κ υ) (running : s'.ended = false)
      (returned : s'.returned = s.returned ++ [e.key])
      (ahead : s.dict.ahead s.iter = e :: s'.dict.ahead s'.iter)
  | null (ended : s'.ended = true) (returned : s'.returned = s.returned)
      (ahead : s.dict.ahead s.iter = [])

/-- What holds while a key is present: it was returned or is going to be, once. -/
structure Once (name : κ → β) (key : κ) (s : Iteration κ υ) : Prop where
  done : s.ended = true → (s.returned.map name).count (name key) = 1
  once : s.ended = false → (s.returned.map name).count (name key) =
    if name key ∈ (s.dict.ahead s.iter).map (entryName name) then 0 else 1

omit [DecidableEq β] in
/-- What is ahead has distinct names. -/
theorem ahead_nodup {d : Dict κ υ} {iter : DictIterator κ} (sound : Sound type good name d)
    (here : InPlace d iter) : ((d.ahead iter).map (entryName name)).Nodup := by
  have names := sound.distinct
  rw [← Dict.chains_flatten] at names
  exact ((ChainCursor.ahead_sublist here.entered_spot).map _).nodup names

omit [DecidableEq κ] [DecidableEq β] in
theorem Ready.iterators {d : Dict κ υ} (ready : Ready type good name d) (n : Nat) :
    Ready type good name { d with iterators := n } :=
  ⟨ready.sound.iterators n, ⟨ready.small.first, ready.small.second, ready.small.few⟩,
    ⟨ready.powers.first, ready.powers.second⟩⟩

omit [DecidableEq κ] in
/-- The first name ahead becomes the last one returned. -/
theorem count_returned {before ahead : List β} {b c : β} (distinct : (c :: ahead).Nodup)
    (once : before.count b = if b ∈ c :: ahead then 0 else 1) :
    (before ++ [c]).count b = if b ∈ ahead then 0 else 1 := by
  rw [List.count_append, once]
  by_cases this : b = c
  · subst this
    have gone : b ∉ ahead := (List.nodup_cons.mp distinct).1
    simp [gone]
  · simp [this, Ne.symm this]

theorem IterStep.cases {a : IterAct κ υ} {n : Nat} (step : IterStep type good name s a s')
    (lawful : Lawful type good name) (inUse : InUse type good name n s) :
    InUse type good name n s' ∧ Steps name s s' := by
  have here := inUse.inPlace step.running
  have does := step.does
  cases a with
  | op op =>
      obtain ⟨legal, calm, room, index⟩ := step.legal op rfl
      obtain ⟨d', answer, performed, ready', -⟩ := perform_eq inUse.ready lawful legal room
      have busy : s.dict.iterators ≠ 0 := by
        rw [inUse.started index]
        exact Nat.succ_ne_zero n
      have settled := perform_undisturbed inUse.ready lawful legal room calm busy here
        (fun key same => step.kept key (congrArg IterAct.op same)) performed
      rw [iterAct, performed] at does
      cases does
      refine ⟨⟨ready', inUse.safe, fun _ => settled.inPlace, fun _ => ?_,
        fun fresh => absurd index fresh⟩, .op step.running rfl settled.ahead⟩
      exact settled.iterators.trans (inUse.started index)
  | next =>
      have counted : (countIterator s.dict s.iter).iterators = n + 1 := by
        by_cases index : 0 ≤ s.iter.index
        · rw [countIterator_of_index index]
          exact inUse.started index
        · obtain ⟨fresh, iterators⟩ := inUse.fresh index
          rw [fresh, ← iterators]
          rfl
      obtain ⟨m, same⟩ := countIterator_eq s.dict s.iter
      rcases dictNext_eq inUse.ready.sound here with
        ⟨none, iter', safe, index, result⟩ | ⟨e, rest, iter', some, returned, result⟩
      · rw [iterAct, result] at does
        cases does
        exact ⟨⟨same ▸ inUse.ready.iterators m, safe.trans inUse.safe,
          fun running => Bool.noConfusion running, fun _ => counted,
          fun fresh => absurd index fresh⟩, .null rfl rfl none⟩
      · rw [iterAct, result] at does
        cases does
        have ahead : (countIterator s.dict s.iter).ahead iter' = rest := by
          rw [same]
          exact returned.ahead
        exact ⟨⟨same ▸ inUse.ready.iterators m, returned.safe.trans inUse.safe,
          fun _ => same ▸ returned.inPlace.iterators m, fun _ => counted,
          fun fresh => absurd returned.index fresh⟩, .entry e rfl rfl (by rw [some, ahead])⟩

theorem Steps.once (steps : Steps name s s') (running : s.ended = false)
    (distinct : ((s.dict.ahead s.iter).map (entryName name)).Nodup)
    (present : name key ∈ s.dict.names name) (present' : name key ∈ s'.dict.names name)
    (once : Once name key s) : Once name key s' := by
  have before := once.once running
  cases steps with
  | op running' returned ahead =>
      refine ⟨fun ended => ?_, fun _ => ?_⟩
      · rw [running'] at ended
        cases ended
      · rw [returned, before]
        simp only [ahead _ present present']
  | entry e running' returned ahead =>
      refine ⟨fun ended => ?_, fun _ => ?_⟩
      · rw [running'] at ended
        cases ended
      · rw [ahead, List.map_cons] at distinct before
        rw [returned, List.map_append]
        exact count_returned distinct before
  | null ended returned ahead =>
      refine ⟨fun _ => ?_, fun running' => ?_⟩
      · rw [ahead] at before
        rw [returned]
        simpa using before
      · rw [ended] at running'
        cases running'

/-- The steps of an iteration in which a key is present all the time. -/
structure Accompanied (type : DictType κ υ) (good : κ → Prop) (name : κ → β) (key : κ)
    (s : Iteration κ υ) (a : IterAct κ υ) (s' : Iteration κ υ) : Prop where
  step : IterStep type good name s a s'
  before : name key ∈ s.dict.names name
  after : name key ∈ s'.dict.names name

omit [DecidableEq κ] [DecidableEq β] in
/-- An iteration that begins over a dictionary with `d.iterators` others. -/
theorem dictGetSafeIterator_inUse {d : Dict κ υ} (ready : Ready type good name d) :
    InUse type good name d.iterators ⟨d, dictGetSafeIterator, [], false⟩ where
  ready := ready
  safe := rfl
  inPlace _ := dictGetSafeIterator_inPlace d
  started index := absurd index (by decide : ¬ (0 : Int) ≤ -1)
  fresh _ := ⟨rfl, rfl⟩

/-- **An iteration is complete and returns nothing twice.**  A key that is present all the
time is returned once when the iterator has come to its end, and not more than once
before. -/
theorem iterate_once {d : Dict κ υ} (lawful : Lawful type good name)
    (ready : Ready type good name d) (present : name key ∈ d.names name)
    {acts : List (IterAct κ υ)}
    (run : Run (Accompanied type good name key) ⟨d, dictGetSafeIterator, [], false⟩ acts s) :
    (s.returned.map name).count (name key) ≤ 1 ∧
      (s.ended = true → (s.returned.map name).count (name key) = 1) := by
  have start : Once name key (⟨d, dictGetSafeIterator, [], false⟩ : Iteration κ υ) := by
    refine ⟨fun ended => Bool.noConfusion ended, fun _ => ?_⟩
    rw [ahead_dictGetSafeIterator]
    exact (if_pos present).symm
  obtain ⟨-, kept⟩ := run.invariant
    (I := fun s => InUse type good name d.iterators s ∧ Once name key s)
    (fun s a s' ⟨inUse, once⟩ one => by
      obtain ⟨inUse', steps⟩ := one.step.cases lawful inUse
      have distinct := ahead_nodup inUse.ready.sound (inUse.inPlace one.step.running)
      exact ⟨inUse', steps.once one.step.running distinct one.before one.after once⟩)
    ⟨dictGetSafeIterator_inUse ready, start⟩
  refine ⟨?_, kept.done⟩
  cases ended : s.ended with
  | true => exact Nat.le_of_eq (kept.done ended)
  | false =>
      rw [kept.once ended]
      split
      · exact Nat.zero_le 1
      · exact Nat.le_refl 1

/-- A chain of two in four buckets, and `n` iterators. -/
def twoEntries (n : Nat) : Dict Nat Nat := ⟨⟨[[], [⟨5, 0⟩, ⟨1, 0⟩], [], []], 2⟩, .reset, none, n⟩

theorem twoEntries_ready : Ready numbers (fun _ => True) id (twoEntries 0) := by
  have done : performs numbers dictCreate [.add 1 0, .add 5 0] =
      .ok (twoEntries 0, [.code 0, .code 0]) := by decide +kernel
  exact .of_performs numbers_lawful (by simp [DictOp.Legal]) dictCreate_ready (by decide) done

/-- The first of the two is deleted. -/
def oneLeft : Dict Nat Nat := ⟨⟨[[], [⟨1, 0⟩], [], []], 1⟩, .reset, none, 1⟩

/-- Another is added in the next bucket. -/
def oneMore : Dict Nat Nat := ⟨⟨[[], [⟨1, 0⟩], [⟨2, 0⟩], []], 2⟩, .reset, none, 1⟩

/-- 5 is returned. -/
theorem step_five : IterStep numbers (fun _ => True) id
    ⟨twoEntries 0, dictGetSafeIterator, [], false⟩ .next
    ⟨twoEntries 1, ⟨1, 0, true, some 5, some 1⟩, [5], false⟩ :=
  ⟨rfl, by simp, by simp, by decide +kernel⟩

/-- 5 is deleted; 1 is the one that comes next. -/
theorem step_delete_five : IterStep numbers (fun _ => True) id
    ⟨twoEntries 1, ⟨1, 0, true, some 5, some 1⟩, [5], false⟩ (.op (.delete 5))
    ⟨oneLeft, ⟨1, 0, true, some 5, some 1⟩, [5], false⟩ :=
  ⟨rfl, by rintro _ ⟨⟩; exact ⟨trivial, trivial, by decide, by decide⟩, by rintro _ ⟨⟩ _ ⟨⟩; decide,
    by decide +kernel⟩

theorem step_add_two : IterStep numbers (fun _ => True) id
    ⟨oneLeft, ⟨1, 0, true, some 5, some 1⟩, [5], false⟩ (.op (.add 2 0))
    ⟨oneMore, ⟨1, 0, true, some 5, some 1⟩, [5], false⟩ :=
  ⟨rfl, by rintro _ ⟨⟩; exact ⟨trivial, trivial, by decide, by decide⟩, by simp, by decide +kernel⟩

theorem iterate_once_two :
    (([5, 1, 2] : List Nat).map id).count (id 1) ≤ 1 ∧
      (true = true → (([5, 1, 2] : List Nat).map id).count (id 1) = 1) := by
  have start : Run (Accompanied numbers (fun _ => True) id 1)
    ⟨twoEntries 0, dictGetSafeIterator, [], false⟩ []
    ⟨twoEntries 0, dictGetSafeIterator, [], false⟩ := .nil _
  have added := ((start.snoc ⟨step_five, by decide, by decide⟩).snoc
    ⟨step_delete_five, by decide, by decide⟩).snoc ⟨step_add_two, by decide, by decide⟩
  have second : Accompanied numbers (fun _ => True) id 1
      ⟨oneMore, ⟨1, 0, true, some 5, some 1⟩, [5], false⟩ .next
      ⟨oneMore, ⟨1, 0, true, some 1, none⟩, [5, 1], false⟩ :=
    ⟨⟨rfl, by simp, by simp, by decide +kernel⟩, by decide, by decide⟩
  have third : Accompanied numbers (fun _ => True) id 1
      ⟨oneMore, ⟨1, 0, true, some 1, none⟩, [5, 1], false⟩ .next
      ⟨oneMore, ⟨2, 0, true, some 2, none⟩, [5, 1, 2], false⟩ :=
    ⟨⟨rfl, by simp, by simp, by decide +kernel⟩, by decide, by decide⟩
  have last : Accompanied numbers (fun _ => True) id 1
      ⟨oneMore, ⟨2, 0, true, some 2, none⟩, [5, 1, 2], false⟩ .next
      ⟨oneMore, ⟨4, 0, true, none, none⟩, [5, 1, 2], true⟩ :=
    ⟨⟨rfl, by simp, by simp, by decide +kernel⟩, by decide, by decide⟩
  exact iterate_once numbers_lawful twoEntries_ready (by decide)
    (((added.snoc second).snoc third).snoc last)

/-- **The rehashing steps are stopped for the time of the iteration**, and released, the
iterator leaves them as they were before. -/
theorem iterate_release {d : Dict κ υ} (lawful : Lawful type good name)
    (ready : Ready type good name d) {acts : List (IterAct κ υ)}
    (run : Run (IterStep type good name) ⟨d, dictGetSafeIterator, [], false⟩ acts s) :
    (0 ≤ s.iter.index → s.dict.iterators ≠ 0) ∧
      (dictReleaseIterator s.dict s.iter).iterators = d.iterators := by
  have inUse := run.invariant (fun _ _ _ inUse one => (one.cases lawful inUse).1)
    (dictGetSafeIterator_inUse ready)
  by_cases index : 0 ≤ s.iter.index
  · have count := inUse.started index
    have used : ¬ (s.iter.index = -1 ∧ s.iter.table = 0) ∧ s.iter.safe = true :=
      ⟨by omega, inUse.safe⟩
    refine ⟨fun _ => by rw [count]; exact Nat.succ_ne_zero _, ?_⟩
    rw [dictReleaseIterator, if_pos used]
    show s.dict.iterators - 1 = _
    rw [count]
    rfl
  · obtain ⟨fresh, count⟩ := inUse.fresh index
    refine ⟨fun index' => absurd index' index, ?_⟩
    rw [fresh]
    exact count

/-- In between, the entry it has returned is deleted and another is added. -/
theorem iterate_release_two :
    (0 ≤ (1 : Int) → oneMore.iterators ≠ 0) ∧
      (dictReleaseIterator oneMore ⟨1, 0, true, some 5, some 1⟩).iterators =
        (twoEntries 0).iterators := by
  have start : Run (IterStep numbers (fun _ => True) id)
    ⟨twoEntries 0, dictGetSafeIterator, [], false⟩ []
    ⟨twoEntries 0, dictGetSafeIterator, [], false⟩ := .nil _
  exact iterate_release numbers_lawful twoEntries_ready
    (((start.snoc step_five).snoc step_delete_five).snoc step_add_two)

end Iterations

end Itaro.Cache
