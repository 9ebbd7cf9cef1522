/-
# Cache.DictIterator -- safe iterators over a dictionary that changes

A safe iterator stops the rehashing steps of the other operations, so entries stay in
their buckets, and it keeps the entry after the one it returns, which may be deleted.
In both tables one after the other it is a cursor into a table of chains, and `ahead`
is what it is still going to return (`dictNext_eq`).

Pointers to entries are told by the keys of the entries.  An entry that is in no chain
is freed memory, which is not read.
-/
import Itaro.Cache.DictOps
import Itaro.Theory.ChainCursor

namespace Itaro.Cache

set_option autoImplicit false

open Theory

variable {κ υ : Type}

/-! ## The iterator -/

/-- `dictIterator`, without the dictionary and the fingerprint. -/
structure DictIterator (κ : Type) where
  index : Int
  table : Nat
  safe : Bool
  entry : Option κ
  nextEntry : Option κ
  deriving DecidableEq, Repr

def dictGetIterator : DictIterator κ := ⟨-1, 0, false, none, none⟩

def dictGetSafeIterator : DictIterator κ := { dictGetIterator with safe := true }

/-- `d->ht[table]` -/
def Dict.ht (d : Dict κ υ) (table : Nat) : Dictht κ υ := if table = 0 then d.ht0 else d.ht1

section Next

variable [DecidableEq κ]

/-- The entry after the one with this key, if it is in the chain. -/
def chainNext (key : κ) : List (DictEntry κ υ) → Option (Option κ)
  | [] => none
  | e :: next => if e.key = key then some (next.head?.map DictEntry.key) else chainNext key next

/-- `entry->next` -/
def entryNext (d : Dict κ υ) (key : κ) : Except Fault (Option κ) :=
  match (d.ht0.table ++ d.ht1.table).findSome? (chainNext key) with
  | some next => .ok next
  | none => .error .overread

omit [DecidableEq κ] in
/-- The first `dictNext` of a safe iterator counts it. -/
def countIterator (d : Dict κ υ) (iter : DictIterator κ) : Dict κ υ :=
  if iter.index = -1 ∧ iter.table = 0 ∧ iter.safe then { d with iterators := d.iterators + 1 } else d

omit [DecidableEq κ] in
/-- The next bucket, from an iterator without an entry; false for `break`. -/
def nextBucket (d : Dict κ υ) (iter : DictIterator κ) :
    Except Fault (Dict κ υ × DictIterator κ × Bool) :=
  let d := countIterator d iter
  let ht := d.ht iter.table
  let iter := { iter with index := iter.index + 1 }
  if (ht.size : Int) ≤ iter.index then
    if d.isRehashing && iter.table == 0 then do
      let chain ← d.ht1.bucket 0
      return (d, { iter with
        table := iter.table + 1, index := 0, entry := chain.head?.map DictEntry.key }, true)
    else return (d, iter, false)
  else do
    let chain ← ht.bucket iter.index.toNat
    return (d, { iter with entry := chain.head?.map DictEntry.key }, true)

/-- `while (1)`; the turns suffice (`dictNext_eq`). -/
def nextLoop : Nat → Dict κ υ → DictIterator κ →
    Except Fault (Dict κ υ × DictIterator κ × Option κ)
  | 0, _, _ => .error .badIndex
  | turns + 1, d, iter => do
      let (d, iter, more) ← match iter.entry with
        | none => nextBucket d iter
        | some _ => .ok (d, { iter with entry := iter.nextEntry }, true)
      if !more then return (d, iter, none)
      match iter.entry with
      | some entry =>
          let next ← entryNext d entry
          return (d, { iter with nextEntry := next }, some entry)
      | none => nextLoop turns d iter

/-- `dictNext`: the key of the entry, or nothing for `NULL`. -/
def dictNext (d : Dict κ υ) (iter : DictIterator κ) :
    Except Fault (Dict κ υ × DictIterator κ × Option κ) :=
  nextLoop (d.ht0.size + d.ht1.size + 2) d iter

omit [DecidableEq κ] in
def dictReleaseIterator (d : Dict κ υ) (iter : DictIterator κ) : Dict κ υ :=
  if ¬ (iter.index = -1 ∧ iter.table = 0) ∧ iter.safe then { d with iterators := d.iterators - 1 }
  else d

end Next

/-! ## Where an iterator stands -/

/-- The chains of both tables. -/
def Dict.chains (d : Dict κ υ) : List (List (DictEntry κ υ)) := d.ht0.table ++ d.ht1.table

theorem Dict.chains_flatten (d : Dict κ υ) : d.chains.flatten = d.entries := List.flatten_append

theorem Dict.chains_length (d : Dict κ υ) : d.chains.length = d.ht0.size + d.ht1.size :=
  List.length_append

/-- How many chains the iterator has entered. -/
def Dict.spot (d : Dict κ υ) (iter : DictIterator κ) : Nat :=
  (iter.index + 1).toNat + if iter.table = 0 then 0 else d.ht0.size

/-- The entry that comes next in the chain. -/
def DictIterator.pending (iter : DictIterator κ) : Option κ := iter.entry.bind fun _ => iter.nextEntry

/-- What the iterator is still going to return. -/
def Dict.ahead [DecidableEq κ] (d : Dict κ υ) (iter : DictIterator κ) : List (DictEntry κ υ) :=
  ChainCursor.ahead DictEntry.key d.chains (d.spot iter) iter.pending

/-- An iterator that is in one of the tables, and whose next entry is in its chain. -/
structure InPlace (d : Dict κ υ) (iter : DictIterator κ) : Prop where
  index : -1 ≤ iter.index
  table : iter.table = 0 ∧ iter.index + 1 ≤ d.ht0.size ∨
    iter.table = 1 ∧ d.isRehashing ∧ 0 ≤ iter.index ∧ iter.index + 1 ≤ d.ht1.size
  entered : iter.entry ≠ none → 0 ≤ iter.index
  pending : ∀ k, iter.pending = some k →
    ∃ pre e post, d.chains[d.spot iter - 1]? = some (pre ++ e :: post) ∧ e.key = k

theorem dictGetSafeIterator_inPlace (d : Dict κ υ) : InPlace d dictGetSafeIterator where
  index := Int.le_refl _
  table := .inl ⟨rfl, Int.natCast_nonneg _⟩
  entered some := absurd rfl some
  pending k some := by cases some

theorem ahead_dictGetSafeIterator [DecidableEq κ] (d : Dict κ υ) :
    d.ahead dictGetSafeIterator = d.entries := d.chains_flatten

section Spec

variable {type : DictType κ υ} {good : κ → Prop} {β : Type} {name : κ → β} {d : Dict κ υ}
  {iter : DictIterator κ}

theorem InPlace.spot_le (here : InPlace d iter) : d.spot iter ≤ d.chains.length := by
  rw [Dict.chains_length, Dict.spot]
  have index := here.index
  rcases here.table with ⟨first, inside⟩ | ⟨second, -, -, inside⟩
  · rw [if_pos first]
    omega
  · rw [if_neg (by omega)]
    omega

theorem InPlace.entered_spot (here : InPlace d iter) : iter.pending = none ∨ 0 < d.spot iter := by
  cases entry : iter.entry with
  | none => exact .inl (by rw [DictIterator.pending, entry]; rfl)
  | some k =>
      have index := here.entered (by rw [entry]; exact Option.some_ne_none k)
      refine .inr ?_
      rw [Dict.spot]
      omega

@[simp] theorem countIterator_ht0 : (countIterator d iter).ht0 = d.ht0 := by
  unfold countIterator
  split <;> rfl

@[simp] theorem countIterator_ht1 : (countIterator d iter).ht1 = d.ht1 := by
  unfold countIterator
  split <;> rfl

@[simp] theorem countIterator_rehashidx : (countIterator d iter).rehashidx = d.rehashidx := by
  unfold countIterator
  split <;> rfl

@[simp] theorem countIterator_isRehashing :
    (countIterator d iter).isRehashing = d.isRehashing := by
  rw [Dict.isRehashing, Dict.isRehashing, countIterator_rehashidx]

/-- Where the next bucket is. -/
structure Entered (d : Dict κ υ) (iter : DictIterator κ) (chain : List (DictEntry κ υ))
    (iter' : DictIterator κ) : Prop where
  there : d.chains[d.spot iter]? = some chain
  spot : d.spot iter' = d.spot iter + 1
  entry : iter'.entry = chain.head?.map DictEntry.key
  safe : iter'.safe = iter.safe
  index : 0 ≤ iter'.index
  table : iter'.table = 0 ∧ iter'.index + 1 ≤ d.ht0.size ∨
    iter'.table = 1 ∧ d.isRehashing ∧ 0 ≤ iter'.index ∧ iter'.index + 1 ≤ d.ht1.size

/-- The next bucket is the next chain, or there is none. -/
theorem nextBucket_eq (sound : Sound type good name d) (here : InPlace d iter) :
    (∃ chain iter', Entered d iter chain iter' ∧
        nextBucket d iter = .ok (countIterator d iter, iter', true)) ∨
      d.spot iter = d.chains.length ∧
        nextBucket d iter = .ok (countIterator d iter, { iter with index := iter.index + 1 }, false) := by
  have least := here.index
  unfold nextBucket
  rcases here.table with ⟨first, inside⟩ | ⟨second, moving, index, inside⟩
  · have spot : d.spot iter = (iter.index + 1).toNat := by
      rw [Dict.spot, if_pos first, Nat.add_zero]
    have table : (countIterator d iter).ht iter.table = d.ht0 := by
      rw [Dict.ht, if_pos first, countIterator_ht0]
    simp only [table, countIterator_ht1, countIterator_isRehashing]
    by_cases more : (d.ht0.size : Int) ≤ iter.index + 1
    · rw [if_pos more]
      cases moving : d.isRehashing with
      | true =>
          obtain ⟨i, some⟩ := Option.isSome_iff_exists.mp moving
          obtain ⟨chain, there⟩ := Dictht.exists_bucket (sound.moving i some).2.1
          have width := (List.getElem?_eq_some_iff.mp there).1
          refine .inl ⟨chain, { iter with
              table := iter.table + 1, index := 0, entry := chain.head?.map DictEntry.key },
            ⟨?_, ?_, rfl, rfl, Int.le_refl 0, .inr ⟨?_, moving, Int.le_refl 0, ?_⟩⟩, ?_⟩
          · rw [spot, Dict.chains, List.getElem?_append_right]
            · have start : (iter.index + 1).toNat - d.ht0.table.length = 0 := by
                rw [Dictht.size] at inside
                omega
              rw [start]
              exact there
            · rw [Dictht.size] at more
              omega
          · rw [spot, Dict.spot]
            simp only [first]
            rw [if_neg (by decide)]
            omega
          · simp [first]
          · simp only [Dictht.size]
            omega
          · simp only [first, Dictht.bucket_eq there, bind_ok]
            rfl
      | false =>
          have idle := Option.not_isSome_iff_eq_none.mp (Bool.eq_false_iff.mp moving)
          have single : d.ht1.size = 0 := by
            rw [sound.idle idle]
            rfl
          refine .inr ⟨?_, rfl⟩
          rw [spot, Dict.chains_length]
          omega
    · obtain ⟨chain, there⟩ := Dictht.exists_bucket
        (show (iter.index + 1).toNat < d.ht0.size by omega)
      rw [if_neg more, Dictht.bucket_eq there]
      refine .inl ⟨chain, { iter with
          index := iter.index + 1, entry := chain.head?.map DictEntry.key },
        ⟨?_, ?_, rfl, rfl, ?_, .inl ⟨first, ?_⟩⟩, rfl⟩
      · rw [spot, Dict.chains, List.getElem?_append_left (List.getElem?_eq_some_iff.mp there).1]
        exact there
      · rw [spot, Dict.spot, if_pos first]
        show (iter.index + 1 + 1).toNat + 0 = _
        omega
      · show 0 ≤ iter.index + 1
        omega
      · show iter.index + 1 + 1 ≤ (d.ht0.size : Int)
        omega
  · have spot : d.spot iter = (iter.index + 1).toNat + d.ht0.size := by
      rw [Dict.spot, if_neg (by omega)]
    have table : (countIterator d iter).ht iter.table = d.ht1 := by
      rw [Dict.ht, if_neg (by omega), countIterator_ht1]
    simp only [table]
    by_cases more : (d.ht1.size : Int) ≤ iter.index + 1
    · rw [if_pos more]
      refine .inr ⟨?_, ?_⟩
      · rw [spot, Dict.chains_length]
        omega
      · rw [if_neg (by simp [second])]
        rfl
    · obtain ⟨chain, there⟩ := Dictht.exists_bucket
        (show (iter.index + 1).toNat < d.ht1.size by omega)
      rw [if_neg more, Dictht.bucket_eq there]
      refine .inl ⟨chain, { iter with
          index := iter.index + 1, entry := chain.head?.map DictEntry.key },
        ⟨?_, ?_, rfl, rfl, ?_, .inr ⟨second, moving, ?_, ?_⟩⟩, rfl⟩
      · rw [spot]
        show (d.ht0.table ++ d.ht1.table)[(iter.index + 1).toNat + d.ht0.table.length]? = _
        rw [List.getElem?_append_right (Nat.le_add_left _ _), Nat.add_sub_cancel]
        exact there
      · rw [spot, Dict.spot, if_neg (by omega : ¬ iter.table = 0)]
        show (iter.index + 1 + 1).toNat + _ = _
        omega
      · show 0 ≤ iter.index + 1
        omega
      · show 0 ≤ iter.index + 1
        omega
      · show iter.index + 1 + 1 ≤ (d.ht1.size : Int)
        omega

end Spec

/-! ## One call -/

section Call

variable [DecidableEq κ] {type : DictType κ υ} {good : κ → Prop} {β : Type} {name : κ → β}
  {d : Dict κ υ} {iter : DictIterator κ}

theorem chainNext_none {key : κ} {chain : List (DictEntry κ υ)}
    (absent : key ∉ chain.map DictEntry.key) : chainNext key chain = none := by
  induction chain with
  | nil => rfl
  | cons e next ih =>
      rw [List.map_cons, List.mem_cons, not_or] at absent
      rw [chainNext, if_neg (Ne.symm absent.1), ih absent.2]

theorem chainNext_some {pre post : List (DictEntry κ υ)} {e : DictEntry κ υ}
    (fresh : e.key ∉ pre.map DictEntry.key) :
    chainNext e.key (pre ++ e :: post) = some (post.head?.map DictEntry.key) := by
  induction pre with
  | nil => rw [List.nil_append, chainNext, if_pos rfl]
  | cons a pre ih =>
      rw [List.map_cons, List.mem_cons, not_or] at fresh
      rw [List.cons_append, chainNext, if_neg (Ne.symm fresh.1), ih fresh.2]

omit [DecidableEq κ] in
theorem Sound.keys_nodup (sound : Sound type good name d) :
    (d.chains.flatten.map DictEntry.key).Nodup := by
  have names := sound.distinct
  rw [Dict.chains_flatten]
  have split : d.entries.map (entryName name) = (d.entries.map DictEntry.key).map name := by
    rw [List.map_map]
    rfl
  rw [split] at names
  exact names.of_map

omit [DecidableEq κ] in
theorem Sound.chain_nodup (sound : Sound type good name d) {i : Nat} {chain : List (DictEntry κ υ)}
    (there : d.chains[i]? = some chain) : (chain.map DictEntry.key).Nodup :=
  ((List.sublist_flatten_of_mem (List.mem_of_getElem? there)).map _).nodup sound.keys_nodup

/-- The pointer leads to the entry in its only chain. -/
theorem entryNext_eq (sound : Sound type good name d) {i : Nat} {pre post : List (DictEntry κ υ)}
    {e : DictEntry κ υ} (there : d.chains[i]? = some (pre ++ e :: post)) :
    entryNext d e.key = .ok (post.head?.map DictEntry.key) := by
  obtain ⟨below, same⟩ := List.getElem?_eq_some_iff.mp there
  have split : d.chains = d.chains.take i ++ (pre ++ e :: post) :: d.chains.drop (i + 1) := by
    rw [← same, ← List.drop_eq_getElem_cons below, List.take_append_drop]
  have distinct := sound.keys_nodup
  rw [split, List.flatten_append, List.flatten_cons, List.map_append, List.map_append] at distinct
  have apart := (List.nodup_append.mp distinct).2.2
  have inside := sound.chain_nodup there
  rw [List.map_append, List.map_cons] at inside
  have fresh : e.key ∉ pre.map DictEntry.key := fun member =>
    (List.nodup_append.mp inside).2.2 _ member _ List.mem_cons_self rfl
  have found : d.chains.findSome? (chainNext e.key) = some (post.head?.map DictEntry.key) := by
    refine List.findSome?_eq_some_iff.mpr ⟨_, _, _, split, chainNext_some fresh, ?_⟩
    intro chain member
    apply chainNext_none
    intro key
    obtain ⟨x, inner, alike⟩ := List.mem_map.mp key
    have outer : x ∈ (d.chains.take i).flatten := List.mem_flatten.mpr ⟨chain, member, inner⟩
    refine apart _ (List.mem_map_of_mem outer) e.key ?_ alike
    simp
  have all : d.ht0.table ++ d.ht1.table = d.chains := rfl
  rw [entryNext, all, found]

omit [DecidableEq κ] in
theorem countIterator_eq (d : Dict κ υ) (iter : DictIterator κ) :
    ∃ n, countIterator d iter = { d with iterators := n } := by
  unfold countIterator
  split
  · exact ⟨_, rfl⟩
  · exact ⟨_, rfl⟩

omit [DecidableEq κ] in
theorem countIterator_of_index (started : 0 ≤ iter.index) : countIterator d iter = d := by
  rw [countIterator, if_neg (by omega)]

omit [DecidableEq κ] in
theorem Sound.iterators (sound : Sound type good name d) (n : Nat) :
    Sound type good name { d with iterators := n } :=
  ⟨sound.first, sound.second, sound.distinct, sound.idle, sound.moving⟩

omit [DecidableEq κ] in
theorem InPlace.iterators (here : InPlace d iter) (n : Nat) :
    InPlace { d with iterators := n } iter :=
  ⟨here.index, here.table, here.entered, here.pending⟩

/-- An iterator that returned an entry and has the rest still to return. -/
structure Returned (d : Dict κ υ) (iter iter' : DictIterator κ) (e : DictEntry κ υ)
    (rest : List (DictEntry κ υ)) : Prop where
  inPlace : InPlace d iter'
  entry : iter'.entry = some e.key
  ahead : d.ahead iter' = rest
  safe : iter'.safe = iter.safe
  index : 0 ≤ iter'.index

/-- The entry a pointer leads to is returned, and the one after it kept. -/
theorem returned_pass {pre post : List (DictEntry κ υ)}
    {e : DictEntry κ υ} (there : d.chains[d.spot iter - 1]? = some (pre ++ e :: post))
    (index : 0 ≤ iter.index)
    (table : iter.table = 0 ∧ iter.index + 1 ≤ d.ht0.size ∨
      iter.table = 1 ∧ d.isRehashing ∧ 0 ≤ iter.index ∧ iter.index + 1 ≤ d.ht1.size) :
    Returned d iter { iter with
        entry := some e.key, nextEntry := post.head?.map DictEntry.key } e
      (ChainCursor.ahead DictEntry.key d.chains (d.spot iter) (post.head?.map DictEntry.key)) where
  inPlace := by
    refine ⟨Int.le_trans (by decide) index, table, fun _ => index, fun k next => ?_⟩
    obtain ⟨x, first, rfl⟩ := Option.map_eq_some_iff.mp (next : post.head?.map DictEntry.key = some k)
    obtain ⟨post', rfl⟩ := List.head?_eq_some_iff.mp first
    exact ⟨pre ++ [e], x, post', by rw [List.append_assoc]; exact there, rfl⟩
  entry := rfl
  ahead := rfl
  safe := rfl
  index := index

/-- What a call answers, of an iterator that has `ahead` before it. -/
def Answers (d : Dict κ υ) (iter : DictIterator κ)
    (result : Except Fault (Dict κ υ × DictIterator κ × Option κ)) : Prop :=
  (d.ahead iter = [] ∧ ∃ iter' : DictIterator κ, iter'.safe = iter.safe ∧ 0 ≤ iter'.index ∧
      result = .ok (countIterator d iter, iter', none)) ∨
    ∃ e rest iter', d.ahead iter = e :: rest ∧ Returned d iter iter' e rest ∧
      result = .ok (countIterator d iter, iter', some e.key)

/-- From an iterator without an entry. -/
theorem nextLoop_eq (sound : Sound type good name d) (here : InPlace d iter)
    (vacant : iter.entry = none) {turns : Nat} (enough : d.chains.length < d.spot iter + turns) :
    Answers d iter (nextLoop turns d iter) := by
  induction turns generalizing d iter with
  | zero =>
      have inside := here.spot_le
      omega
  | succ turns ih =>
      have pending : iter.pending = none := by rw [DictIterator.pending, vacant]; rfl
      obtain ⟨n, counted⟩ := countIterator_eq d iter
      rw [nextLoop, vacant]
      rcases nextBucket_eq sound here with ⟨chain, iter', entered, bucket⟩ | ⟨last, bucket⟩
      · have place : d.chains[d.spot iter' - 1]? = some chain := by
          rw [entered.spot, Nat.add_sub_cancel]
          exact entered.there
        have step : d.ahead iter =
            ChainCursor.ahead DictEntry.key d.chains (d.spot iter') (chain.head?.map DictEntry.key) := by
          rw [Dict.ahead, pending, ChainCursor.ahead_enter entered.there, entered.spot]
        simp only [bucket, bind_ok]
        cases chain with
        | nil =>
            have vacant' : iter'.entry = none := entered.entry
            have pending' : iter'.pending = none := by rw [DictIterator.pending, vacant']; rfl
            have inPlace : InPlace d iter' := by
              refine ⟨Int.le_trans (by decide) entered.index, entered.table,
                fun _ => entered.index, fun k next => ?_⟩
              rw [pending'] at next
              cases next
            have same : d.ahead iter = d.ahead iter' := by
              rw [step, Dict.ahead, pending']
              rfl
            have more : d.chains.length < d.spot iter' + turns := by
              rw [entered.spot]
              omega
            have answers := ih (sound.iterators n) (inPlace.iterators n) vacant' more
            rw [← counted] at answers
            have settled : countIterator (countIterator d iter) iter' = countIterator d iter :=
              countIterator_of_index entered.index
            simp only [vacant', Bool.not_true, Bool.false_eq_true, if_false]
            rcases answers with ⟨none, iter'', safe, index, result⟩ | ⟨e, rest, iter'', some, returned, result⟩
            · rw [settled] at result
              rw [counted] at none
              exact .inl ⟨same.trans none, iter'', safe.trans entered.safe, index, result⟩
            · rw [settled] at result
              rw [counted] at some returned
              refine .inr ⟨e, rest, iter'', same.trans some, ⟨?_, returned.entry, returned.ahead,
                returned.safe.trans entered.safe, returned.index⟩, result⟩
              exact returned.inPlace.iterators d.iterators
        | cons e post =>
            have occupied : iter'.entry = some e.key := entered.entry
            have front : d.chains[d.spot iter' - 1]? = some ([] ++ e :: post) := place
            have next := entryNext_eq (d := { d with iterators := n }) (sound.iterators n) front
            rw [← counted] at next
            have passed := returned_pass front entered.index entered.table
            have only := ChainCursor.ahead_pass front (sound.chain_nodup front)
            refine .inr ⟨e, _, _, step.trans only, ⟨passed.inPlace, passed.entry, passed.ahead,
              passed.safe.trans entered.safe, passed.index⟩, ?_⟩
            simp only [occupied, Bool.not_true, Bool.false_eq_true, if_false, next, bind_ok]
            rfl
      · have index := here.index
        refine .inl ⟨?_, { iter with index := iter.index + 1 }, rfl, ?_, ?_⟩
        · rw [Dict.ahead, pending, ChainCursor.ahead_end (Nat.le_of_eq last.symm)]
        · show 0 ≤ iter.index + 1
          omega
        · simp only [bucket, bind_ok, Bool.not_false, if_true]
          rfl

/-- **One call** returns the first entry that is ahead, and leaves the others there. -/
theorem dictNext_eq (sound : Sound type good name d) (here : InPlace d iter) :
    Answers d iter (dictNext d iter) := by
  have length := d.chains_length
  have inside := here.spot_le
  cases occupied : iter.entry with
  | none => exact nextLoop_eq sound here occupied (by omega)
  | some k =>
      have index := here.entered (by rw [occupied]; exact Option.some_ne_none k)
      have settled : countIterator d iter = d := countIterator_of_index index
      have pending : iter.pending = iter.nextEntry := by rw [DictIterator.pending, occupied]; rfl
      rw [dictNext, nextLoop, occupied, bind_ok]
      cases next : iter.nextEntry with
      | none =>
          have inPlace : InPlace d { iter with entry := none, nextEntry := none } :=
            ⟨here.index, here.table, fun _ => index, fun k next => by cases next⟩
          have same : d.ahead iter = d.ahead { iter with entry := none, nextEntry := none } := by
            rw [Dict.ahead, pending, next]
            rfl
          have more : d.chains.length <
              d.spot { iter with entry := none, nextEntry := none } + (d.ht0.size + d.ht1.size + 1) := by
            omega
          have answers := nextLoop_eq sound inPlace rfl more
          have settled' : countIterator d { iter with entry := none, nextEntry := none } = d :=
            countIterator_of_index index
          simp only [Bool.not_true, Bool.false_eq_true, if_false]
          rcases answers with ⟨none, iter', safe, index', result⟩ | ⟨e, rest, iter', some, returned, result⟩
          · rw [settled'] at result
            exact .inl ⟨same.trans none, iter', safe, index', settled.symm ▸ result⟩
          · rw [settled'] at result
            exact .inr ⟨e, rest, iter', same.trans some, ⟨returned.inPlace, returned.entry,
              returned.ahead, returned.safe, returned.index⟩, settled.symm ▸ result⟩
      | some k' =>
          obtain ⟨pre, e, post, place, rfl⟩ := here.pending k' (pending.trans next)
          have only := ChainCursor.ahead_pass place (sound.chain_nodup place)
          have step : d.ahead iter = e :: ChainCursor.ahead DictEntry.key d.chains (d.spot iter)
              (post.head?.map DictEntry.key) := by
            rw [Dict.ahead, pending, next, only]
          refine .inr ⟨e, _, _, step, returned_pass place index here.table, ?_⟩
          simp only [Bool.not_true, Bool.false_eq_true, if_false, entryNext_eq sound place, bind_ok,
            settled]
          rfl

end Call

end Itaro.Cache
