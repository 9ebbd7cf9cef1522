/-
# Cache.DictSpec -- the invariant of the two tables, and rehashing

`Sound` is the invariant: entries are filed by their hash, no two have equal keys,
the second table is in use while the first is rehashed, and what has been passed
there is empty.  What a sound dictionary holds is the list of its entries up to
order; rehashing only rearranges it (`Rearranged`).
-/
import Itaro.Cache.Dict
import Itaro.Theory.Buckets

namespace Itaro.Cache

set_option autoImplicit false

open Theory

/-- The callbacks of a type whose keys have names: for good keys, comparing
compares the names and the hash depends on the name. -/
structure Lawful {κ υ β : Type} [DecidableEq β] (type : DictType κ υ) (good : κ → Prop)
    (name : κ → β) : Prop where
  compare : ∀ {a b}, good a → good b → type.keyCompare a b = .ok (decide (name a = name b))
  hash : ∀ {a b}, good a → good b → name a = name b → type.hashFunction a = type.hashFunction b
  keyDup : type.keyDup = none
  valDup : type.valDup = none

variable {κ υ β : Type} {type : DictType κ υ} {good : κ → Prop} {name : κ → β}

theorem bind_ok {α γ : Type} (a : α) (f : α → Except Fault γ) : (Except.ok a >>= f) = f a := rfl

theorem exists_of_bind {α γ : Type} {x : Except Fault α} {f : α → Except Fault γ} {r : γ}
    (bound : (x >>= f) = .ok r) : ∃ a, x = .ok a ∧ f a = .ok r := by
  cases x with
  | error fault => cases bound
  | ok a => exact ⟨a, rfl, bound⟩

/-! ## Tables -/

namespace Dictht

variable (ht : Dictht κ υ)

def entries : List (DictEntry κ υ) := ht.table.flatten

/-- The bucket an entry belongs in. -/
def slot (type : DictType κ υ) (e : DictEntry κ υ) : Nat := ht.index (type.hashFunction e.key)

variable {ht}

theorem index_lt (sized : 0 < ht.size) (h : BitVec 32) : ht.index h < ht.size := by
  have masked : ht.index h ≤ ht.sizemask := Nat.and_le_right
  rw [sizemask] at masked
  omega

theorem bucket_eq {i : Nat} {chain : List (DictEntry κ υ)} (there : ht.table[i]? = some chain) :
    ht.bucket i = .ok chain := by
  rw [bucket, there]

theorem exists_bucket {i : Nat} (below : i < ht.size) : ∃ chain, ht.table[i]? = some chain :=
  ⟨_, List.getElem?_eq_getElem below⟩

end Dictht

structure TableOk (type : DictType κ υ) (good : κ → Prop) (ht : Dictht κ υ) : Prop where
  used : ht.used = ht.entries.length
  filed : Filed (ht.slot type) ht.table
  good : ∀ e ∈ ht.entries, good e.key

namespace TableOk

variable {ht : Dictht κ υ} {i : Nat} {chain : List (DictEntry κ υ)}

theorem reset : TableOk type good (.reset : Dictht κ υ) where
  used := rfl
  filed _ _ there := by cases there
  good _ member := absurd member List.not_mem_nil

/-- A new table. -/
theorem replicate (n : Nat) : TableOk type good (⟨List.replicate n [], 0⟩ : Dictht κ υ) := by
  have empty : (List.replicate n ([] : List (DictEntry κ υ))).flatten = [] :=
    List.flatten_replicate_nil
  constructor
  · rw [Dictht.entries, empty]
    rfl
  · exact filed_replicate_nil _ n
  · intro e member
    rw [Dictht.entries, empty] at member
    exact absurd member List.not_mem_nil

theorem mem_chain (ok : TableOk type good ht) (there : ht.table[i]? = some chain)
    {e : DictEntry κ υ} (member : e ∈ chain) : ht.slot type e = i ∧ good e.key :=
  ⟨ok.filed i chain there e member,
    ok.good e (List.mem_flatten.mpr ⟨chain, List.mem_of_getElem? there, member⟩)⟩

/-- One chain changes. -/
theorem set (ok : TableOk type good ht) (there : ht.table[i]? = some chain)
    {chain' : List (DictEntry κ υ)} (own : ∀ e ∈ chain', ht.slot type e = i ∧ good e.key)
    {used : Nat} (count : used + chain.length = ht.used + chain'.length) :
    TableOk type good ⟨ht.table.set i chain', used⟩ := by
  have bound := (List.getElem?_eq_some_iff.mp there).1
  have slots : Dictht.slot (⟨ht.table.set i chain', used⟩ : Dictht κ υ) type = ht.slot type := by
    funext e
    simp only [Dictht.slot, Dictht.index, Dictht.sizemask, Dictht.size, List.length_set]
  have before := (flatten_perm there).length_eq
  have after := (flatten_set_perm bound chain').length_eq
  rw [List.length_append] at before after
  have total : ht.used = ht.table.flatten.length := ok.used
  constructor
  · show used = (ht.table.set i chain').flatten.length
    omega
  · rw [slots]
    exact ok.filed.set fun e member => (own e member).1
  · intro e member
    have split : e ∈ chain' ++ (ht.table.set i []).flatten :=
      (flatten_set_perm bound chain').mem_iff.mp member
    rcases List.mem_append.mp split with new | old
    · exact (own e new).2
    · exact ok.good e ((flatten_perm there).mem_iff.mpr (List.mem_append_right _ old))

end TableOk

/-- An entry at the head of its chain. -/
theorem TableOk.push {ht : Dictht κ υ} (ok : TableOk type good ht) (sized : 0 < ht.size)
    {e : DictEntry κ υ} (own : good e.key) :
    ∃ chain ht', ht.bucket (ht.slot type e) = .ok chain ∧
      { ht.setBucket (ht.slot type e) (e :: chain) with used := ht.used + 1 } = ht' ∧
      TableOk type good ht' ∧ ht'.size = ht.size ∧ ht'.entries.Perm (e :: ht.entries) := by
  obtain ⟨chain, there⟩ := Dictht.exists_bucket (Dictht.index_lt sized (type.hashFunction e.key))
  have bound := (List.getElem?_eq_some_iff.mp there).1
  refine ⟨chain, _, Dictht.bucket_eq there, rfl, ok.set there ?_ ?_, List.length_set, ?_⟩
  · intro x member
    rcases List.mem_cons.mp member with rfl | old
    · exact ⟨rfl, own⟩
    · exact ok.mem_chain there old
  · rw [List.length_cons]
    omega
  · exact (flatten_set_perm bound _).trans (((flatten_perm there).symm).cons e)

/-! ## The invariant -/

/-- The name of an entry is the name of its key. -/
def entryName (name : κ → β) (e : DictEntry κ υ) : β := name e.key

/-- All entries, of both tables. -/
def Dict.entries (d : Dict κ υ) : List (DictEntry κ υ) := d.ht0.entries ++ d.ht1.entries

structure Sound (type : DictType κ υ) (good : κ → Prop) (name : κ → β) (d : Dict κ υ) : Prop where
  first : TableOk type good d.ht0
  second : TableOk type good d.ht1
  distinct : (d.entries.map (entryName name)).Nodup
  idle : d.rehashidx = none → d.ht1 = .reset
  moving : ∀ i, d.rehashidx = some i → 0 < d.ht0.size ∧ 0 < d.ht1.size ∧
    ∀ j < i, d.ht0.table[j]? = some []

/-- The tables have buckets that an `int` can number, the next table included. -/
structure Indexable (d : Dict κ υ) : Prop where
  first : d.ht0.size ≤ 2 ^ 31
  second : d.ht1.size ≤ 2 ^ 31
  few : d.entries.length ≤ 2 ^ 30

/-- `d'` holds what `d` holds. -/
structure Rearranged (type : DictType κ υ) (good : κ → Prop) (name : κ → β) (d d' : Dict κ υ) :
    Prop where
  sound : Sound type good name d'
  perm : d'.entries.Perm d.entries
  sized : 0 < d.ht0.size → 0 < d'.ht0.size
  indexable : Indexable d → Indexable d'

theorem dictCreate_sound : Sound type good name dictCreate where
  first := .reset
  second := .reset
  distinct := List.nodup_nil
  idle _ := rfl
  moving _ some := by cases some

namespace Sound

variable {d : Dict κ υ} (sound : Sound type good name d)
include sound

theorem distinct_first : (d.ht0.entries.map (entryName name)).Nodup := by
  have all := sound.distinct
  rw [Dict.entries, List.map_append] at all
  exact (List.nodup_append.mp all).1

theorem distinct_second : (d.ht1.entries.map (entryName name)).Nodup := by
  have all := sound.distinct
  rw [Dict.entries, List.map_append] at all
  exact (List.nodup_append.mp all).2.1

theorem entries_idle (idle : d.rehashidx = none) : d.entries = d.ht0.entries := by
  rw [Dict.entries, sound.idle idle]
  exact List.append_nil _

theorem refl : Rearranged type good name d d := ⟨sound, .refl _, id, id⟩

end Sound

theorem Rearranged.trans {d d' d'' : Dict κ υ} (first : Rearranged type good name d d')
    (second : Rearranged type good name d' d'') : Rearranged type good name d d'' :=
  ⟨second.sound, second.perm.trans first.perm, second.sized ∘ first.sized,
    second.indexable ∘ first.indexable⟩

/-! ## Rehashing -/

/-- With an entry left, a chain that is not empty is reached. -/
theorem skipEmpty_eq {rest : List (List (DictEntry κ υ))} (some : rest.flatten ≠ []) (i : Nat) :
    ∃ k chain, skipEmpty rest i = .ok (i + k) ∧ rest[k]? = Option.some chain ∧
      ∀ j < k, rest[j]? = Option.some [] := by
  induction rest generalizing i with
  | nil => exact absurd rfl some
  | cons bucket rest ih =>
      cases bucket with
      | nil =>
          obtain ⟨k, chain, reached, there, before⟩ := ih some (i + 1)
          refine ⟨k + 1, chain, ?_, there, fun j below => ?_⟩
          · rw [skipEmpty, reached]
            congr 1
            omega
          · cases j with
            | zero => rfl
            | succ j => exact before j (by omega)
      | cons e chain =>
          exact ⟨0, e :: chain, rfl, rfl, fun j below => absurd below (Nat.not_lt_zero j)⟩

/-- The entries of a chain move to the second table. -/
theorem moveEntries_eq {ht1 : Dictht κ υ} (ok : TableOk type good ht1) (sized : 0 < ht1.size)
    {chain : List (DictEntry κ υ)} (own : ∀ e ∈ chain, good e.key) (ht0 : Dictht κ υ) :
    ∃ ht1', chain.foldlM (moveEntry type) (ht0, ht1) =
        .ok ({ ht0 with used := ht0.used - chain.length }, ht1') ∧
      TableOk type good ht1' ∧ ht1'.size = ht1.size ∧
      ht1'.entries.Perm (chain ++ ht1.entries) := by
  induction chain generalizing ht0 ht1 with
  | nil => exact ⟨ht1, rfl, ok, rfl, .refl _⟩
  | cons e chain ih =>
      obtain ⟨old, ht, there, pushed, ok', size, perm⟩ := ok.push sized (own e List.mem_cons_self)
      obtain ⟨ht1', moved, ok'', size', perm'⟩ := ih ok' (size ▸ sized)
        (fun x member => own x (List.mem_cons_of_mem e member)) { ht0 with used := ht0.used - 1 }
      have one : moveEntry type (ht0, ht1) e = .ok ({ ht0 with used := ht0.used - 1 }, ht) := by
        rw [← pushed]
        simp only [moveEntry]
        rw [← Dictht.slot, there]
        rfl
      refine ⟨ht1', ?_, ok'', size'.trans size, ?_⟩
      · rw [List.foldlM_cons, one, bind_ok, moved, List.length_cons]
        congr 3
        show ht0.used - 1 - chain.length = _
        omega
      · exact (perm'.trans (perm.append_left chain)).trans List.perm_middle

/-- What has been passed holds nothing. -/
theorem flatten_drop {t : List (List (DictEntry κ υ))} {i : Nat}
    (passed : ∀ j < i, t[j]? = some []) : (t.drop i).flatten = t.flatten := by
  have none : (t.take i).flatten = [] := by
    rw [List.flatten_eq_nil_iff]
    intro bucket member
    obtain ⟨j, there⟩ := List.mem_iff_getElem?.mp member
    have below : j < i := by
      have := (List.getElem?_eq_some_iff.mp there).1
      rw [List.length_take] at this
      omega
    rw [List.getElem?_take_of_lt below, passed j below] at there
    exact (Option.some.inj there).symm
  conv_rhs => rw [← List.take_append_drop i t, List.flatten_append, none, List.nil_append]

/-- One bucket moves. -/
theorem rehashBucket_eq {d : Dict κ υ} (sound : Sound type good name d) {i : Nat}
    (moving : d.rehashidx = some i) (left : d.ht0.used ≠ 0) :
    ∃ d' j, rehashBucket type d i = .ok (d', j) ∧ d'.rehashidx = some j ∧
      Rearranged type good name d d' := by
  obtain ⟨sized, sized', passed⟩ := sound.moving i moving
  have used : d.ht0.used = d.ht0.table.flatten.length := sound.first.used
  have some : (d.ht0.table.drop i).flatten ≠ [] := by
    rw [flatten_drop passed]
    exact List.ne_nil_of_length_pos (by omega)
  obtain ⟨k, chain, reached, there, between⟩ := skipEmpty_eq some i
  rw [List.getElem?_drop] at there
  have bound := (List.getElem?_eq_some_iff.mp there).1
  have split := flatten_perm there
  have count := split.length_eq
  rw [List.length_append] at count
  obtain ⟨ht1, moved, ok, size, perm⟩ := moveEntries_eq sound.second sized'
    (fun e member => (sound.first.mem_chain there member).2) d.ht0
  have first : TableOk type good
      ⟨d.ht0.table.set (i + k) [], d.ht0.used - chain.length⟩ :=
    sound.first.set there (fun _ member => absurd member List.not_mem_nil)
      (by rw [List.length_nil]; omega)
  have whole : ((d.ht0.table.set (i + k) []).flatten ++ ht1.entries).Perm d.entries := by
    have back := (perm.append_left (d.ht0.table.set (i + k) []).flatten).trans
      (List.perm_append_comm_assoc _ _ _)
    rw [← List.append_assoc] at back
    exact back.trans (split.symm.append_right _)
  refine ⟨⟨⟨d.ht0.table.set (i + k) [], d.ht0.used - chain.length⟩, ht1, Option.some (i + k + 1),
    d.iterators⟩, i + k + 1, ?_, rfl, ⟨first, ok, ?_, nofun, ?_⟩, whole, fun _ => ?_, fun small => ?_⟩
  · have inside : ¬ d.ht0.size ≤ i := by
      rw [Dictht.size]
      omega
    simp only [rehashBucket, if_neg inside, reached, Dictht.bucket_eq there, bind_ok]
    rw [moved]
    rfl
  · exact ((whole.map _).nodup_iff).mpr sound.distinct
  · intro j same
    obtain rfl := Option.some.inj same
    refine ⟨?_, size ▸ sized', fun j below => ?_⟩
    · rw [Dictht.size, List.length_set]
      exact sized
    · show (d.ht0.table.set (i + k) [])[j]? = _
      by_cases here : i + k = j
      · subst here
        exact List.getElem?_set_self bound
      · rw [List.getElem?_set_ne here]
        by_cases before : j < i
        · exact passed j before
        · have gap := between (j - i) (by omega)
          rwa [List.getElem?_drop, show i + (j - i) = j by omega] at gap
  · rw [Dictht.size, List.length_set]
    exact sized
  · refine ⟨?_, size ▸ small.second, whole.length_eq ▸ small.few⟩
    rw [Dictht.size, List.length_set]
    exact small.first

/-- The second table takes the place of the first. -/
theorem rehashDone {d : Dict κ υ} (sound : Sound type good name d) {i : Nat}
    (moving : d.rehashidx = some i) (done : d.ht0.used = 0) :
    Rearranged type good name d { d with ht0 := d.ht1, ht1 := .reset, rehashidx := none } := by
  have empty : d.ht0.entries = [] := List.eq_nil_of_length_eq_zero (sound.first.used.symm.trans done)
  have same : d.ht1.entries ++ (.reset : Dictht κ υ).entries = d.entries := by
    rw [Dict.entries, empty]
    exact List.append_nil _
  refine ⟨⟨sound.second, .reset, ?_, fun _ => rfl, nofun⟩, List.Perm.of_eq same,
    fun _ => (sound.moving i moving).2.1, fun small => ⟨small.second, Nat.zero_le _, ?_⟩⟩
  · exact (congrArg (fun es => (es.map (entryName name)).Nodup) same).mpr sound.distinct
  · exact Nat.le_trans (Nat.le_of_eq (congrArg List.length same)) small.few

theorem rehashLoop_eq {d : Dict κ υ} (sound : Sound type good name d) {i : Nat}
    (moving : d.rehashidx = some i) (n : Nat) :
    ∃ d' r, rehashLoop type n d i = .ok (d', r) ∧ Rearranged type good name d d' := by
  induction n generalizing d i with
  | zero => exact ⟨d, 1, rfl, sound.refl⟩
  | succ n ih =>
      rw [rehashLoop]
      by_cases done : d.ht0.used = 0
      · rw [if_pos done]
        exact ⟨_, 0, rfl, rehashDone sound moving done⟩
      · obtain ⟨d₁, j, one, moving₁, moved⟩ := rehashBucket_eq sound moving done
        obtain ⟨d', r, rest, moved'⟩ := ih moved.sound moving₁
        rw [if_neg done, one]
        exact ⟨d', r, rest, moved.trans moved'⟩

theorem dictRehash_eq {d : Dict κ υ} (sound : Sound type good name d) (n : Nat) :
    ∃ d' r, dictRehash type d n = .ok (d', r) ∧ Rearranged type good name d d' := by
  unfold dictRehash
  split
  · exact ⟨d, 0, rfl, sound.refl⟩
  · exact rehashLoop_eq sound ‹_› n

theorem dictRehashStep_eq {d : Dict κ υ} (sound : Sound type good name d) :
    ∃ d', dictRehashStep type d = .ok d' ∧ Rearranged type good name d d' := by
  obtain ⟨d', r, step, moved⟩ := dictRehash_eq sound 1
  unfold dictRehashStep
  split
  · exact ⟨d', by rw [step]; rfl, moved⟩
  · exact ⟨d, rfl, sound.refl⟩

end Itaro.Cache
