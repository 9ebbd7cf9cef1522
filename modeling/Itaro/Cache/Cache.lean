/-
# Cache.Cache -- cache.c: the cache keeps the first value set

`cache_set` is `dictAdd`, which does not replace: on a key that is there it answers
1 and keeps the old value.  So what `cache_get` returns is the value of the last
`cache_set` that answered 0 (`LastSet`), and not of the last one
(`second_set_refused`).

Values are pointers and stay abstract.  Keys are passed as what is in their buffer:
a key that a set has taken over belongs to the dictionary from then on.
-/
import Itaro.Cache.DictMap
import Itaro.Cache.Keys
import Mathlib.Data.List.Induction

namespace Itaro.Cache

set_option autoImplicit false
set_option linter.dupNamespace false

variable {υ : Type}

/-! ## The functions -/

/-- `cache_t` -/
structure Cache (υ : Type) where
  dict : Dict Sds υ

/-- `cache_create`, when there is memory for it. -/
def cacheCreate : Cache υ := ⟨dictCreate⟩

/-- `ENOENT` -/
def enoent : Int := 2

/-- `cache_set`; `expire` is ignored. -/
def cacheSet (ce : Cache υ) (key : Sds) (val : υ) (_expire : BitVec 32) :
    Except Fault (Cache υ × Int) := do
  let (d, ret) ← dictAdd (cacheDictType υ) ce.dict key val
  return (⟨d⟩, ret)

/-- `cache_get`: the code, and what is stored through `val`. -/
def cacheGet (ce : Cache υ) (key : Sds) : Except Fault (Cache υ × Int × Option υ) := do
  let (d, de) ← dictFind (cacheDictType υ) ce.dict key
  match de with
  | some de => return (⟨d⟩, 0, some de.val)
  | none => return (⟨d⟩, -enoent, none)

/-- `cache_del` -/
def cacheDel (ce : Cache υ) (key : Sds) : Except Fault (Cache υ × Int) := do
  let (d, ret) ← dictDelete (cacheDictType υ) ce.dict key
  return (⟨d⟩, ret)

/-! ## Runs -/

inductive Call (υ : Type)
  | set (key : Sds) (val : υ) (expire : BitVec 32)
  | get (key : Sds)
  | del (key : Sds)

def Call.key : Call υ → Sds
  | .set key _ _ => key
  | .get key => key
  | .del key => key

/-- The code a call returns and the value it stores. -/
structure Answer (υ : Type) where
  code : Int
  val : Option υ
  deriving DecidableEq, Repr

def cacheCall (ce : Cache υ) : Call υ → Except Fault (Cache υ × Answer υ)
  | .set key val expire => do
      let (ce, code) ← cacheSet ce key val expire
      return (ce, ⟨code, none⟩)
  | .get key => do
      let (ce, code, val) ← cacheGet ce key
      return (ce, ⟨code, val⟩)
  | .del key => do
      let (ce, code) ← cacheDel ce key
      return (ce, ⟨code, none⟩)

/-- The calls one after the other, each with its answer. -/
def cacheRun (ce : Cache υ) : List (Call υ) → Except Fault (Cache υ × List (Call υ × Answer υ))
  | [] => .ok (ce, [])
  | call :: calls => do
      let (ce, answer) ← cacheCall ce call
      let (ce, history) ← cacheRun ce calls
      return (ce, (call, answer) :: history)

theorem cacheRun_snoc {ce ce' ce'' : Cache υ} {calls : List (Call υ)} {call : Call υ}
    {history : List (Call υ × Answer υ)} {answer : Answer υ}
    (run : cacheRun ce calls = .ok (ce', history))
    (last : cacheCall ce' call = .ok (ce'', answer)) :
    cacheRun ce (calls ++ [call]) = .ok (ce'', history ++ [(call, answer)]) := by
  induction calls generalizing ce history with
  | nil =>
      cases run
      rw [List.nil_append, cacheRun, last]
      rfl
  | cons first calls ih =>
      obtain ⟨⟨ce₁, answer₁⟩, one, run⟩ := exists_of_bind run
      obtain ⟨⟨ce₂, history₂⟩, rest, run⟩ := exists_of_bind run
      cases run
      rw [List.cons_append, cacheRun, one, bind_ok]
      dsimp only
      rw [ih rest]
      rfl

/-! ## What a history sets -/

/-- A set of `v` under the content `b` that was answered with 0. -/
def Sets (b : List (BitVec 8)) (v : υ) : Call υ × Answer υ → Prop
  | (.set key val _, answer) => key.bytes = b ∧ val = v ∧ answer.code = 0
  | (.get _, _) => False
  | (.del _, _) => False

/-- A delete of the content `b`. -/
def Dels (b : List (BitVec 8)) : Call υ × Answer υ → Prop
  | (.set _ _ _, _) => False
  | (.get _, _) => False
  | (.del key, _) => key.bytes = b

/-- The last set under `b` that was answered with 0 set `v`, and there is no delete of
`b` after it. -/
def LastSet (history : List (Call υ × Answer υ)) (b : List (BitVec 8)) (v : υ) : Prop :=
  ∃ before x after, history = before ++ x :: after ∧ Sets b v x ∧
    ∀ y ∈ after, (∀ w, ¬ Sets b w y) ∧ ¬ Dels b y

section History

variable {b : List (BitVec 8)} {v : υ} {x : Call υ × Answer υ} {history : List (Call υ × Answer υ)}

theorem not_lastSet_nil : ¬ LastSet ([] : List (Call υ × Answer υ)) b v := by
  rintro ⟨before, x, after, split, -⟩
  exact absurd split.symm (List.append_ne_nil_of_right_ne_nil _ (List.cons_ne_nil _ _))

/-- The last call decides, unless it is about another key. -/
theorem lastSet_snoc : LastSet (history ++ [x]) b v ↔
    Sets b v x ∨ (∀ w, ¬ Sets b w x) ∧ ¬ Dels b x ∧ LastSet history b v := by
  constructor
  · rintro ⟨before, y, after, split, set, untouched⟩
    rcases List.eq_nil_or_concat after with rfl | ⟨after, z, rfl⟩
    · obtain ⟨-, last⟩ := List.append_inj' split rfl
      obtain rfl : x = y := List.head_eq_of_cons_eq last
      exact .inl set
    · rw [List.concat_eq_append, ← List.cons_append, ← List.append_assoc] at split
      obtain ⟨rest, last⟩ := List.append_inj' split rfl
      obtain rfl : x = z := List.head_eq_of_cons_eq last
      have own := untouched x (by rw [List.concat_eq_append]; exact List.mem_append_right _ (.head _))
      refine .inr ⟨own.1, own.2, before, y, after, rest, set, fun z member => untouched z ?_⟩
      rw [List.concat_eq_append]
      exact List.mem_append_left _ member
  · rintro (set | ⟨unset, kept, before, y, after, rfl, set, untouched⟩)
    · exact ⟨history, x, [], rfl, set, fun z member => absurd member List.not_mem_nil⟩
    · refine ⟨before, y, after ++ [x], by rw [List.append_assoc, List.cons_append], set, ?_⟩
      intro z member
      rcases List.mem_append.mp member with old | new
      · exact untouched z old
      · obtain rfl := List.mem_singleton.mp new
        exact ⟨unset, kept⟩

end History

/-! ## The cache is a map -/

/-- The keys of the cache are named by their content. -/
theorem cacheDictType_lawful : Lawful (cacheDictType υ) Sds.Short Sds.bytes where
  compare aShort _ := dictSdsKeyCompare_short aShort
  hash aShort _ same := dictSdsHash_congr aShort same
  keyDup := rfl
  valDup := rfl

/-- What the cache holds under a content. -/
def Cache.contents (ce : Cache υ) : List (BitVec 8) → Option υ := ce.dict.contents Sds.bytes

/-- The dictionary works as documented. -/
def Cache.Documented (ce : Cache υ) : Prop :=
  Itaro.Cache.Documented (cacheDictType υ) Sds.Short Sds.bytes ce.dict

/-- The cache holds what the history set last. -/
def Holds (ce : Cache υ) (history : List (Call υ × Answer υ)) : Prop :=
  ∀ b v, ce.contents b = some v ↔ LastSet history b v

variable {ce : Cache υ} {history : List (Call υ × Answer υ)}

theorem cacheCreate_holds : Holds (cacheCreate : Cache υ) [] := by
  intro b v
  refine ⟨fun found => ?_, fun last => absurd last not_lastSet_nil⟩
  cases found

/-- One more call. -/
theorem Holds.snoc (holds : Holds ce history) {ce' : Cache υ} {x : Call υ × Answer υ}
    (step : ∀ b v, ce'.contents b = some v ↔
      Sets b v x ∨ (∀ w, ¬ Sets b w x) ∧ ¬ Dels b x ∧ ce.contents b = some v) :
    Holds ce' (history ++ [x]) := by
  intro b v
  rw [lastSet_snoc, ← holds b v]
  exact step b v

theorem cacheSet_holds (documented : ce.Documented) (holds : Holds ce history) {key : Sds}
    (short : key.Short) (val : υ) (expire : BitVec 32) :
    ∃ ce' answer, cacheCall ce (.set key val expire) = .ok (ce', answer) ∧
      Holds ce' (history ++ [(.set key val expire, answer)]) := by
  obtain ⟨d, ret, added, adds⟩ := documented.add key val short
  refine ⟨⟨d⟩, ⟨ret, none⟩, ?_, holds.snoc fun b v => ?_⟩
  · rw [cacheCall, cacheSet, added]
    rfl
  have before : ce.dict.contents Sds.bytes = ce.contents := rfl
  rw [Adds, before] at adds
  rw [Cache.contents]
  cases there : ce.contents key.bytes with
  | some old =>
      rw [there] at adds
      obtain ⟨rfl, same⟩ := adds
      have refused : ∀ w, ¬ Sets b w (.set key val expire, (⟨dictErr, none⟩ : Answer υ)) :=
        fun w set => absurd set.2.2 (show ¬ dictErr = 0 by decide)
      rw [same]
      exact ⟨fun found => .inr ⟨refused, id, found⟩,
        fun last => last.elim (fun set => absurd set (refused v)) fun kept => kept.2.2⟩
  | none =>
      rw [there] at adds
      obtain ⟨rfl, put⟩ := adds
      rw [put]
      by_cases own : key.bytes = b
      · subst own
        have set : ∀ w, Sets key.bytes w (.set key val expire, (⟨dictOk, none⟩ : Answer υ)) ↔
            val = w := fun w => ⟨fun set => set.2.1, fun same => ⟨rfl, same, rfl⟩⟩
        rw [Function.update_self, Option.some.injEq, set]
        exact ⟨.inl, fun last => last.elim id fun kept => absurd ((set val).mpr rfl) (kept.1 val)⟩
      · rw [Function.update_of_ne (Ne.symm own)]
        exact ⟨fun found => .inr ⟨fun w set => own set.1, id, found⟩,
          fun last => last.elim (fun set => absurd set.1 own) fun kept => kept.2.2⟩

theorem cacheGet_eq (documented : ce.Documented) {key : Sds} (short : key.Short) :
    ∃ ce', ce'.contents = ce.contents ∧ cacheGet ce key = .ok (match ce.contents key.bytes with
      | some v => (ce', 0, some v)
      | none => (ce', -enoent, none)) := by
  obtain ⟨d, he, found, value, same⟩ := documented.find key short
  refine ⟨⟨d⟩, same, ?_⟩
  rw [Cache.contents, ← value, cacheGet, found]
  cases he with
  | some de => rfl
  | none => rfl

theorem cacheGet_holds (documented : ce.Documented) (holds : Holds ce history) {key : Sds}
    (short : key.Short) :
    ∃ ce' answer, cacheCall ce (.get key) = .ok (ce', answer) ∧
      Holds ce' (history ++ [(.get key, answer)]) := by
  obtain ⟨ce', same, got⟩ := cacheGet_eq documented short
  have step : ∀ answer, Holds ce' (history ++ [(.get key, answer)]) := fun answer =>
    holds.snoc fun b v => by
      rw [same]
      exact ⟨fun found => .inr ⟨fun _ => id, id, found⟩,
        fun last => last.elim False.elim fun kept => kept.2.2⟩
  rw [cacheCall, got]
  cases ce.contents key.bytes with
  | some v => exact ⟨ce', ⟨0, some v⟩, rfl, step _⟩
  | none => exact ⟨ce', ⟨-enoent, none⟩, rfl, step _⟩

theorem cacheDel_holds (documented : ce.Documented) (holds : Holds ce history) {key : Sds}
    (short : key.Short) :
    ∃ ce' answer, cacheCall ce (.del key) = .ok (ce', answer) ∧
      Holds ce' (history ++ [(.del key, answer)]) := by
  obtain ⟨d, ret, deleted, code, gone⟩ := documented.delete key short
  refine ⟨⟨d⟩, ⟨ret, none⟩, ?_, holds.snoc fun b v => ?_⟩
  · rw [cacheCall, cacheDel, deleted]
    rfl
  rw [Cache.contents, gone]
  by_cases own : key.bytes = b
  · subst own
    rw [Function.update_self]
    exact ⟨nofun, fun last => last.elim False.elim fun kept => absurd rfl kept.2.1⟩
  · rw [Function.update_of_ne (Ne.symm own)]
    exact ⟨fun found => .inr ⟨fun _ => id, own, found⟩,
      fun last => last.elim False.elim fun kept => kept.2.2⟩

theorem cacheCall_holds (documented : ce.Documented) (holds : Holds ce history) {call : Call υ}
    (short : call.key.Short) :
    ∃ ce' answer, cacheCall ce call = .ok (ce', answer) ∧
      Holds ce' (history ++ [(call, answer)]) := by
  cases call with
  | set key val expire => exact cacheSet_holds documented holds short val expire
  | get key => exact cacheGet_holds documented holds short
  | del key => exact cacheDel_holds documented holds short

/-- The dictionary works as documented before each call and after the last. -/
def DocumentedAlong (calls : List (Call υ)) : Prop :=
  ∀ before after ce history, calls = before ++ after →
    cacheRun cacheCreate before = .ok (ce, history) → ce.Documented

theorem cacheRun_holds {calls : List (Call υ)} (short : ∀ call ∈ calls, call.key.Short)
    (documented : DocumentedAlong calls) :
    ∃ ce history, cacheRun cacheCreate calls = .ok (ce, history) ∧
      history.map Prod.fst = calls ∧ Holds ce history := by
  induction calls using List.reverseRecOn with
  | nil => exact ⟨cacheCreate, [], rfl, rfl, cacheCreate_holds⟩
  | append_singleton calls call ih =>
      obtain ⟨ce, history, run, labels, holds⟩ := ih
        (fun c member => short c (List.mem_append_left _ member))
        (fun before after ce history split => documented before (after ++ [call]) ce history
          (by rw [split, List.append_assoc]))
      obtain ⟨ce', answer, last, holds'⟩ := cacheCall_holds
        (documented calls [call] ce history rfl run) holds
        (short call (List.mem_append_right _ (.head _)))
      refine ⟨ce', _, cacheRun_snoc run last, ?_, holds'⟩
      rw [List.map_append, labels]
      rfl

/-- **What `cache_get` returns** after any calls. -/
theorem get_last_set {calls : List (Call υ)} (short : ∀ call ∈ calls, call.key.Short)
    (documented : DocumentedAlong calls) :
    ∃ ce history, cacheRun cacheCreate calls = .ok (ce, history) ∧
      history.map Prod.fst = calls ∧ ∀ key : Sds, key.Short →
        ∃ ce', (∀ v, LastSet history key.bytes v → cacheGet ce key = .ok (ce', 0, some v)) ∧
          ((∀ v, ¬ LastSet history key.bytes v) →
            cacheGet ce key = .ok (ce', -enoent, none)) := by
  obtain ⟨ce, history, run, labels, holds⟩ := cacheRun_holds short documented
  refine ⟨ce, history, run, labels, fun key own => ?_⟩
  obtain ⟨ce', -, got⟩ :=
    cacheGet_eq (documented calls [] ce history (List.append_nil _).symm run) own
  refine ⟨ce', fun v last => ?_, fun unset => ?_⟩
  · rw [got, (holds key.bytes v).mpr last]
  · have absent : ce.contents key.bytes = none := by
      cases there : ce.contents key.bytes with
      | none => rfl
      | some v => exact absurd ((holds key.bytes v).mp there) (unset v)
    rw [got, absent]

/-! ## The assumption on the dictionary -/

/-- A call keeps the dictionary sound and adds at most one entry. -/
theorem cacheCall_kept (sound : Sound (cacheDictType υ) Sds.Short Sds.bytes ce.dict)
    (small : Indexable ce.dict) {call : Call υ} (short : call.key.Short) {ce' : Cache υ}
    {answer : Answer υ} (called : cacheCall ce call = .ok (ce', answer)) :
    Kept (cacheDictType υ) Sds.Short Sds.bytes ce.dict ce'.dict := by
  cases call with
  | set key val expire =>
      obtain ⟨d, code, added, kept, -⟩ := dictAdd_eq sound small cacheDictType_lawful short val
      have own : dictAdd (cacheDictType υ) ce.dict key val = .ok (d, code) := added
      rw [cacheCall, cacheSet, own] at called
      cases called
      exact kept
  | get key =>
      obtain ⟨d, he, found, moved, -⟩ := dictFind_eq sound cacheDictType_lawful short
      have own : dictFind (cacheDictType υ) ce.dict key = .ok (d, he) := found
      rw [cacheCall, cacheGet, own] at called
      cases he with
      | some de =>
          cases called
          exact moved.kept
      | none =>
          cases called
          exact moved.kept
  | del key =>
      obtain ⟨d, code, deleted, kept, -⟩ := dictDelete_eq sound cacheDictType_lawful short
      have own : dictDelete (cacheDictType υ) ce.dict key = .ok (d, code) := deleted
      rw [cacheCall, cacheDel, own] at called
      cases called
      exact kept

theorem cacheRun_kept {calls : List (Call υ)} (short : ∀ call ∈ calls, call.key.Short)
    (sound : Sound (cacheDictType υ) Sds.Short Sds.bytes ce.dict) (small : Indexable ce.dict)
    (few : ce.dict.entries.length + calls.length ≤ 2 ^ 30) {ce' : Cache υ}
    (run : cacheRun ce calls = .ok (ce', history)) :
    Sound (cacheDictType υ) Sds.Short Sds.bytes ce'.dict ∧ Indexable ce'.dict := by
  induction calls generalizing ce history with
  | nil =>
      cases run
      exact ⟨sound, small⟩
  | cons call calls ih =>
      rw [List.length_cons] at few
      obtain ⟨⟨ce₁, answer⟩, called, run⟩ := exists_of_bind run
      obtain ⟨⟨ce₂, history₂⟩, rest, run⟩ := exists_of_bind run
      cases run
      have kept := cacheCall_kept sound small (short call (.head _)) called
      have grown := kept.grown
      exact ih (fun c member => short c (.tail _ member)) kept.sound
        (kept.indexable small (by omega)) (by omega) rest

/-- In 2^30 calls the tables do not outgrow an `int`. -/
theorem documentedAlong {calls : List (Call υ)} (short : ∀ call ∈ calls, call.key.Short)
    (few : calls.length ≤ 2 ^ 30) : DocumentedAlong calls := by
  rintro before after ce history rfl run
  rw [List.length_append] at few
  have empty : (cacheCreate : Cache υ).dict.entries.length = 0 := rfl
  have first : Sound (cacheDictType υ) Sds.Short Sds.bytes (cacheCreate : Cache υ).dict :=
    dictCreate_sound
  obtain ⟨sound, small⟩ := cacheRun_kept (fun c member => short c (List.mem_append_left _ member))
    first ⟨Nat.zero_le _, Nat.zero_le _, Nat.zero_le _⟩ (by omega) run
  exact documented_of_indexable sound small cacheDictType_lawful

/-! ## Where the cache departs from a map that replaces -/

section LongKey

variable (key : Sds) (val : υ)

/-- The table after the first set, of a key with hash `h`. -/
def firstTable (h : BitVec 32) : Dictht Sds υ :=
  ⟨(List.replicate 4 []).set (h.toNat &&& 3) [⟨key, val⟩], 1⟩

theorem firstTable_index (h : BitVec 32) : (firstTable key val h).index h = h.toNat &&& 3 := by
  rw [Dictht.index, Dictht.sizemask, Dictht.size, firstTable, List.length_set]
  rfl

theorem firstTable_bucket (h : BitVec 32) :
    (firstTable key val h).bucket (h.toNat &&& 3) = .ok [⟨key, val⟩] := by
  have below : h.toNat &&& 3 ≤ 3 := Nat.and_le_right
  refine Dictht.bucket_eq (List.getElem?_set_self ?_)
  rw [List.length_replicate]
  omega

theorem cacheSet_first (expire : BitVec 32) :
    cacheSet cacheCreate key val expire =
      .ok (⟨⟨firstTable key val (dictSdsHash key), .reset, none, 0⟩⟩, 0) := by
  have stepped : dictRehashStep (cacheDictType υ) dictCreate = .ok dictCreate := rfl
  have grown : dictExpandIfNeeded (dictCreate : Dict Sds υ) =
      (⟨⟨List.replicate 4 [], 0⟩, .reset, none, 0⟩, dictOk) := rfl
  have ok : ¬ dictOk = dictErr := by decide
  have vacant : ∀ h : BitVec 32, (⟨List.replicate 4 [], 0⟩ : Dictht Sds υ).bucket
      (h.toNat &&& 3) = .ok [] := fun h => by
    have below : h.toNat &&& 3 ≤ 3 := Nat.and_le_right
    exact Dictht.bucket_eq (List.getElem?_replicate_of_lt (by omega))
  have int : ∀ h : BitVec 32, (BitVec.ofNat 32 (h.toNat &&& 3)).toInt = (h.toNat &&& 3 : Nat) :=
    fun h => by
      have below : h.toNat &&& 3 ≤ 3 := Nat.and_le_right
      rw [BitVec.toInt_eq_toNat_of_lt] <;> rw [BitVec.toNat_ofNat] <;> omega
  have index : ∀ h : BitVec 32, (⟨List.replicate 4 [], 0⟩ : Dictht Sds υ).index h =
      h.toNat &&& 3 := fun h => rfl
  have hash : (cacheDictType υ).hashFunction key = dictSdsHash key := rfl
  have searched : tablesFind (cacheDictType υ) ⟨⟨List.replicate 4 [], 0⟩, .reset, none, 0⟩ key =
      .ok (none, (dictSdsHash key).toNat &&& 3) := by
    rw [tablesFind, tableFind, hash, index, vacant]
    rfl
  have keyed : dictKeyIndex (cacheDictType υ) dictCreate key = .ok
      (⟨⟨List.replicate 4 [], 0⟩, .reset, none, 0⟩, ((dictSdsHash key).toNat &&& 3 : Nat)) := by
    rw [dictKeyIndex, grown]
    simp only [if_neg ok, searched, bind_ok]
    rw [int]
    rfl
  have added : addEntry (cacheDictType υ) ⟨List.replicate 4 [], 0⟩
      ((dictSdsHash key).toNat &&& 3 : Nat) key val =
        .ok (firstTable key val (dictSdsHash key)) := by
    rw [addEntry, if_neg (by omega), Int.toNat_natCast, vacant]
    rfl
  have raw : dictAddRaw (cacheDictType υ) dictCreate key val =
      .ok (⟨firstTable key val (dictSdsHash key), .reset, none, 0⟩, true) := by
    rw [dictAddRaw, stepped, bind_ok, keyed, bind_ok]
    have still : ¬ (⟨⟨List.replicate 4 [], 0⟩, .reset, none, 0⟩ : Dict Sds υ).isRehashing = true :=
      Bool.false_ne_true
    dsimp only
    rw [if_neg (by omega), if_neg still, added]
    rfl
  have all : dictAdd (cacheDictType υ) (cacheCreate : Cache υ).dict key val =
      .ok (⟨firstTable key val (dictSdsHash key), .reset, none, 0⟩, dictOk) := by
    rw [dictAdd]
    exact congrArg (· >>= _) raw
  rw [cacheSet, all]
  rfl

variable {key}

/-- A key of 2^31 bytes or more can be set, and then no longer be looked for. -/
theorem long_key_overread (long : ¬ key.Short) (expire : BitVec 32) :
    ∃ ce, cacheSet cacheCreate key val expire = .ok (ce, 0) ∧
      cacheGet ce key = .error .overread := by
  refine ⟨_, cacheSet_first key val expire, ?_⟩
  have sized : ¬ (firstTable key val (dictSdsHash key)).size = 0 := by
    rw [Dictht.size, firstTable, List.length_set, List.length_replicate]
    exact Nat.succ_ne_zero 3
  have stepped : dictRehashStep (cacheDictType υ) ⟨firstTable key val (dictSdsHash key), .reset, none, 0⟩ =
      .ok ⟨firstTable key val (dictSdsHash key), .reset, none, 0⟩ := rfl
  have searched : tableFind (cacheDictType υ) (firstTable key val (dictSdsHash key)) key = .error .overread := by
    have hash : (cacheDictType υ).hashFunction key = dictSdsHash key := rfl
    rw [tableFind, hash, firstTable_index, firstTable_bucket, bind_ok, chainFind]
    have compared : (cacheDictType υ).keyCompare key key = .error .overread :=
      dictSdsKeyCompare_long long rfl
    rw [compared]
    rfl
  rw [cacheGet, dictFind, if_neg sized, stepped, bind_ok, tablesFind, searched]
  rfl

end LongKey

def hello : Sds := sdsnewlen [104, 101, 108, 108, 111] (by decide)

/-- A key of 2^31 zero bytes. -/
def longKey : Sds := sdsnewlen (List.replicate (2 ^ 31) 0) (by
  rw [List.length_replicate]
  exact Nat.pow_lt_pow_right (Nat.lt_succ_self 1) (Nat.lt_succ_self 31))

theorem longKey_not_short : ¬ longKey.Short := by
  have length := longKey.bytes_length
  rw [longKey, bytes_sdsnewlen, List.length_replicate] at length
  rw [Sds.Short, longKey, ← length]
  exact Nat.lt_irrefl _

/-- The second value set under a key is not the one returned, and under a key that is
too long none is. -/
theorem second_set_refused :
    (cacheRun (cacheCreate : Cache Nat) [.set hello 1 0, .set hello 2 0, .get hello]).map
        (fun r => r.2.map Prod.snd) = .ok [⟨0, none⟩, ⟨1, none⟩, ⟨0, some 1⟩] ∧
      ∃ ce, cacheSet (cacheCreate : Cache Nat) longKey 1 0 = .ok (ce, 0) ∧
        cacheGet ce longKey = .error .overread :=
  ⟨by decide +kernel, long_key_overread 1 longKey_not_short 0⟩

/-- A refused set, a delete and a set after it. -/
def helloCalls : List (Call Nat) :=
  [.set hello 1 0, .set hello 2 0, .del hello, .set hello 3 0]

theorem get_last_set_hello :
    ∃ ce history, cacheRun cacheCreate helloCalls = .ok (ce, history) ∧
      history.map Prod.fst = helloCalls ∧ ∀ key : Sds, key.Short →
        ∃ ce', (∀ v, LastSet history key.bytes v → cacheGet ce key = .ok (ce', 0, some v)) ∧
          ((∀ v, ¬ LastSet history key.bytes v) →
            cacheGet ce key = .ok (ce', -enoent, none)) :=
  have short : ∀ call ∈ helloCalls, call.key.Short := by decide +kernel
  get_last_set short (documentedAlong short (by decide))

end Itaro.Cache
