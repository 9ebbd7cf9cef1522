/-
# Cache.DictScan -- dictScan: one call of a stateless iteration

`dictScan` returns the entries of one bucket and the cursor of the next call.  The
cursor counts from its highest bit down: reversed, incremented and reversed back
(`rev_eq`, the parallel swap of blocks is the reversal).  While two tables are in use a
call goes through the bucket of the smaller one and all its expansions in the larger
one, from the cursor on; `dictScan_eq` says which entries these are.
-/
import Itaro.Cache.DictOps
import Itaro.Theory.ReverseCursor

namespace Itaro.Cache

set_option autoImplicit false

open Theory ReverseCursor

variable {κ υ : Type}

/-! ## Reversing a cursor -/

/-- One turn of the loop of `rev`, `s` halved, on the mask and the word. -/
def revTurn (state : BitVec 64 × BitVec 64) (s : Nat) : BitVec 64 × BitVec 64 :=
  let (mask, v) := state
  let mask := mask ^^^ (mask <<< s)
  (mask, ((v >>> s) &&& mask) ||| ((v <<< s) &&& ~~~mask))

/-- `while ((s >>= 1) > 0)` from 64. -/
def rev (v : BitVec 64) : BitVec 64 :=
  ([32, 16, 8, 4, 2, 1].foldl revTurn (BitVec.allOnes 64, v)).2

/-- A turn swaps the halves of each block of `2 * s` bits. -/
theorem swap_getLsbD {s : Nat} {mask : BitVec 64}
    (blocks : ∀ i < 64, if mask.getLsbD i then i + s = i ^^^ s else s ≤ i ∧ i - s = i ^^^ s)
    (v : BitVec 64) {i : Nat} (inside : i < 64) :
    (((v >>> s) &&& mask) ||| ((v <<< s) &&& ~~~mask)).getLsbD i = v.getLsbD (i ^^^ s) := by
  have block := blocks i inside
  simp only [BitVec.getLsbD_or, BitVec.getLsbD_and, BitVec.getLsbD_ushiftRight,
    BitVec.getLsbD_shiftLeft, BitVec.getLsbD_not, inside, decide_true, Bool.true_and]
  by_cases high : mask.getLsbD i
  · rw [if_pos high] at block
    simp [high, ← block, Nat.add_comm]
  · rw [if_neg high] at block
    have shifted : ¬ i < s := Nat.not_lt_of_le block.1
    simp [high, ← block.2, shifted]

theorem xor_lt_64 {i s : Nat} (inside : i < 64) (small : s < 64) : i ^^^ s < 64 :=
  Nat.xor_lt_two_pow (n := 6) inside small

/-- The algorithm reverses the bits. -/
theorem rev_eq (v : BitVec 64) : rev v = v.reverse := by
  have all : ∀ i < 64, i ^^^ 1 ^^^ 2 ^^^ 4 ^^^ 8 ^^^ 16 ^^^ 32 = 63 - i := by decide
  apply BitVec.eq_of_getLsbD_eq
  intro i inside
  rw [BitVec.getLsbD_reverse, BitVec.getMsbD_eq_getLsbD]
  simp only [rev, List.foldl_cons, List.foldl_nil, revTurn]
  have h1 := xor_lt_64 inside (by decide : 1 < 64)
  have h2 := xor_lt_64 h1 (by decide : 2 < 64)
  have h4 := xor_lt_64 h2 (by decide : 4 < 64)
  have h8 := xor_lt_64 h4 (by decide : 8 < 64)
  have h16 := xor_lt_64 h8 (by decide : 16 < 64)
  rw [swap_getLsbD (by decide) _ inside, swap_getLsbD (by decide) _ h1,
    swap_getLsbD (by decide) _ h2, swap_getLsbD (by decide) _ h4, swap_getLsbD (by decide) _ h8,
    swap_getLsbD (by decide) _ h16, all i inside]
  simp [inside]

/-! ## One call -/

/-- `sizemask` as a word. -/
def Dictht.wordMask (ht : Dictht κ υ) : BitVec 64 := BitVec.ofNat 64 ht.sizemask

/-- The entries at a cursor. -/
def emit (ht : Dictht κ υ) (v : BitVec 64) : Except Fault (List (DictEntry κ υ)) :=
  ht.bucket (v &&& ht.wordMask).toNat

/-- The loop over the expansions of the cursor in the larger table; `turns` are enough if
they are as many as it has buckets. -/
def expandLoop (m0 m1 : BitVec 64) (t1 : Dictht κ υ) :
    Nat → BitVec 64 → Except Fault (List (DictEntry κ υ) × BitVec 64)
  | 0, v => .ok ([], v)
  | turns + 1, v => do
      let emitted ← t1.bucket (v &&& m1).toNat
      let v := (((v ||| m0) + 1) &&& ~~~m0) ||| (v &&& m0)
      if v &&& (m0 ^^^ m1) = 0 then return (emitted, v)
      else
        let (rest, v) ← expandLoop m0 m1 t1 turns v
        return (emitted ++ rest, v)

/-- The increment of the reversed cursor. -/
def nextCursor (m0 v : BitVec 64) : BitVec 64 := rev (rev (v ||| ~~~m0) + 1)

/-- `dictScan`: the entries that `fn` is called with, and the next cursor. -/
def dictScan (d : Dict κ υ) (v : BitVec 64) : Except Fault (List (DictEntry κ υ) × BitVec 64) :=
  if d.ht0.used + d.ht1.used = 0 then .ok ([], 0)
  else if !d.isRehashing then do
    let emitted ← emit d.ht0 v
    return (emitted, nextCursor d.ht0.wordMask v)
  else do
    let (t0, t1) := if d.ht1.size < d.ht0.size then (d.ht1, d.ht0) else (d.ht0, d.ht1)
    let emitted ← emit t0 v
    let (expanded, v) ← expandLoop t0.wordMask t1.wordMask t1 t1.size v
    return (emitted ++ expanded, nextCursor t0.wordMask v)

/-- The table whose buckets the calls go through. -/
def Dict.smaller (d : Dict κ υ) : Dictht κ υ :=
  if d.isRehashing && decide (d.ht1.size < d.ht0.size) then d.ht1 else d.ht0

def Dict.larger (d : Dict κ υ) : Dictht κ υ :=
  if d.isRehashing && decide (d.ht1.size < d.ht0.size) then d.ht0 else d.ht1

theorem Dict.smaller_larger_perm (d : Dict κ υ) :
    (d.smaller.entries ++ d.larger.entries).Perm d.entries := by
  unfold Dict.smaller Dict.larger Dict.entries
  split
  · exact List.perm_append_comm
  · exact .refl _

theorem Dictht.wordMask_eq {ht : Dictht κ υ} {k : Nat} (size : ht.size = 2 ^ k) :
    ht.wordMask = mask 64 k := by
  rw [wordMask, sizemask, size, mask]

/-- A cursor and a hash are taken modulo the size. -/
theorem Dictht.index_eq_mod {ht : Dictht κ υ} {k : Nat} (size : ht.size = 2 ^ k) (h : BitVec 32) :
    ht.index h = h.toNat % ht.size := by
  rw [index, sizemask, size, Nat.and_two_pow_sub_one_eq_mod]

theorem nextCursor_eq (k : Nat) (v : BitVec 64) : nextCursor (mask 64 k) v = advance k v := by
  rw [nextCursor, rev_eq, rev_eq, advance]

section Call

variable {type : DictType κ υ} {good : κ → Prop} {ht : Dictht κ υ}

/-- The expansions of a cursor from itself on. -/
def expansions (k n v : Nat) : List Nat :=
  (List.range' (v % 2 ^ n / 2 ^ k) (2 ^ (n - k) - v % 2 ^ n / 2 ^ k)).map
    fun i => v % 2 ^ k + 2 ^ k * i

theorem mem_expansions {k n v i : Nat} (coarse : k ≤ n) :
    i ∈ expansions k n v ↔ i < 2 ^ n ∧ i % 2 ^ k = v % 2 ^ k ∧ v % 2 ^ n ≤ i := by
  have positive := Nat.two_pow_pos k
  have width : 2 ^ n = 2 ^ k * 2 ^ (n - k) := by
    rw [← Nat.pow_add]
    congr 1
    omega
  have low : v % 2 ^ n % 2 ^ k = v % 2 ^ k := Nat.mod_mod_of_dvd v (Nat.pow_dvd_pow 2 coarse)
  have split := Nat.div_add_mod (v % 2 ^ n) (2 ^ k)
  have last : v % 2 ^ n / 2 ^ k < 2 ^ (n - k) := by
    apply Nat.div_lt_of_lt_mul
    rw [← width]
    exact Nat.mod_lt _ (Nat.two_pow_pos n)
  rw [expansions, List.mem_map]
  simp only [List.mem_range'_1]
  constructor
  · rintro ⟨j, ⟨first, below⟩, rfl⟩
    have small : v % 2 ^ k < 2 ^ k := Nat.mod_lt _ positive
    have room : 2 ^ k * (j + 1) ≤ 2 ^ k * 2 ^ (n - k) := Nat.mul_le_mul_left _ (by omega)
    have order : 2 ^ k * (v % 2 ^ n / 2 ^ k) ≤ 2 ^ k * j := Nat.mul_le_mul_left _ first
    rw [Nat.mul_succ] at room
    refine ⟨by omega, ?_, by omega⟩
    rw [Nat.add_mul_mod_self_left, Nat.mod_mod]
  · rintro ⟨below, same, from_⟩
    have split' := Nat.div_add_mod i (2 ^ k)
    have order : v % 2 ^ n / 2 ^ k ≤ i / 2 ^ k := Nat.div_le_div_right from_
    have inside : i / 2 ^ k < 2 ^ (n - k) := Nat.div_lt_of_lt_mul (width ▸ below)
    exact ⟨i / 2 ^ k, by omega, by omega⟩

theorem expansions_nodup (k n v : Nat) : (expansions k n v).Nodup := by
  have positive := Nat.two_pow_pos k
  apply List.Nodup.map _ (List.nodup_range' : (List.range' _ _ 1).Nodup)
  intro i j same
  have products : 2 ^ k * i = 2 ^ k * j := Nat.add_left_cancel same
  exact Nat.eq_of_mul_eq_mul_left positive products

theorem expansions_cons {k n v v' : Nat} (coarse : k ≤ n) (low : v' % 2 ^ k = v % 2 ^ k)
    (next : v' % 2 ^ n / 2 ^ k = v % 2 ^ n / 2 ^ k + 1)
    (more : v % 2 ^ n / 2 ^ k + 1 < 2 ^ (n - k)) :
    expansions k n v = v % 2 ^ n :: expansions k n v' := by
  have here : v % 2 ^ k + 2 ^ k * (v % 2 ^ n / 2 ^ k) = v % 2 ^ n := by
    rw [← Nat.mod_mod_of_dvd v (Nat.pow_dvd_pow 2 coarse), Nat.mod_add_div]
  obtain ⟨rest, count⟩ : ∃ rest, 2 ^ (n - k) - v % 2 ^ n / 2 ^ k = rest + 1 :=
    Nat.exists_eq_add_one.mpr (by omega)
  have left : 2 ^ (n - k) - (v % 2 ^ n / 2 ^ k + 1) = rest := by omega
  rw [expansions, expansions, next, low, left, count, List.range'_succ, List.map_cons, here]

theorem expansions_last {k n v : Nat} (coarse : k ≤ n)
    (last : v % 2 ^ n / 2 ^ k + 1 = 2 ^ (n - k)) : expansions k n v = [v % 2 ^ n] := by
  have here : v % 2 ^ k + 2 ^ k * (v % 2 ^ n / 2 ^ k) = v % 2 ^ n := by
    rw [← Nat.mod_mod_of_dvd v (Nat.pow_dvd_pow 2 coarse), Nat.mod_add_div]
  rw [expansions, ← last, Nat.add_sub_cancel_left, List.range'_one, List.map_cons, here, List.map_nil]

/-- The loop goes through the expansions of the cursor, and leaves its low bits. -/
theorem expandLoop_eq {k n : Nat} (coarse : k ≤ n) (bound : n < 64) (size : ht.size = 2 ^ n)
    {turns : Nat} {v : BitVec 64}
    (enough : 2 ^ (n - k) - v.toNat % 2 ^ n / 2 ^ k ≤ turns) :
    ∃ v', expandLoop (mask 64 k) (mask 64 n) ht turns v =
        .ok ((expansions k n v.toNat).flatMap fun i => ht.table[i]?.getD [], v') ∧
      v'.toNat % 2 ^ k = v.toNat % 2 ^ k := by
  have positive := Nat.two_pow_pos k
  have width : 2 ^ n = 2 ^ k * 2 ^ (n - k) := by
    rw [← Nat.pow_add]
    congr 1
    omega
  induction turns generalizing v with
  | zero =>
      have last : v.toNat % 2 ^ n / 2 ^ k < 2 ^ (n - k) := by
        apply Nat.div_lt_of_lt_mul
        rw [← width]
        exact Nat.mod_lt _ (Nat.two_pow_pos n)
      omega
  | succ turns ih =>
      have below : v.toNat % 2 ^ n < 2 ^ n := Nat.mod_lt _ (Nat.two_pow_pos n)
      obtain ⟨chain, there⟩ : ∃ chain, ht.table[v.toNat % 2 ^ n]? = some chain :=
        Dictht.exists_bucket (size ▸ below)
      have bucket : ht.bucket (v &&& mask 64 n).toNat = .ok chain := by
        rw [toNat_and_mask (by omega)]
        exact Dictht.bucket_eq there
      have low : (bump k v).toNat % 2 ^ k = v.toNat % 2 ^ k := by
        rw [bump_mod (by omega) (by omega), Nat.add_mod_right]
      have next : (bump k v).toNat % 2 ^ n = (v.toNat % 2 ^ n + 2 ^ k) % 2 ^ n := by
        rw [bump_mod (by omega) (by omega), Nat.mod_add_mod]
      have inside : v.toNat % 2 ^ n / 2 ^ k < 2 ^ (n - k) :=
        Nat.div_lt_of_lt_mul (width ▸ below)
      have split := Nat.div_add_mod (v.toNat % 2 ^ n) (2 ^ k)
      have rest : v.toNat % 2 ^ n % 2 ^ k < 2 ^ k := Nat.mod_lt _ positive
      have folded : (((v ||| mask 64 k) + 1) &&& ~~~mask 64 k) ||| (v &&& mask 64 k) = bump k v := rfl
      rw [expandLoop, bucket, bind_ok]
      simp only [folded]
      by_cases last : v.toNat % 2 ^ n / 2 ^ k + 1 = 2 ^ (n - k)
      · have whole : 2 ^ n = 2 ^ k * (v.toNat % 2 ^ n / 2 ^ k) + 2 ^ k := by
          rw [← Nat.mul_succ, Nat.succ_eq_add_one, last]
          exact width
        have wrapped : v.toNat % 2 ^ n + 2 ^ k = 2 ^ n + v.toNat % 2 ^ n % 2 ^ k := by omega
        have clear : bump k v &&& (mask 64 k ^^^ mask 64 n) = 0 := by
          refine (and_masks_eq_zero coarse (by omega) _).mpr ?_
          rw [next, wrapped, Nat.add_mod_left]
          exact Nat.lt_of_le_of_lt (Nat.mod_le _ _) rest
        refine ⟨bump k v, ?_, low⟩
        rw [if_pos clear, expansions_last coarse last, List.flatMap_singleton, there]
        rfl
      · have room : v.toNat % 2 ^ n + 2 ^ k < 2 ^ n := by
          have products : 2 ^ k * (v.toNat % 2 ^ n / 2 ^ k + 2) ≤ 2 ^ k * 2 ^ (n - k) :=
            Nat.mul_le_mul_left _ (by omega)
          rw [Nat.mul_add] at products
          omega
        rw [Nat.mod_eq_of_lt room] at next
        have step : (bump k v).toNat % 2 ^ n / 2 ^ k = v.toNat % 2 ^ n / 2 ^ k + 1 := by
          rw [next, Nat.add_div_right _ positive]
        have more : ¬ bump k v &&& (mask 64 k ^^^ mask 64 n) = 0 := by
          refine fun clear => absurd ((and_masks_eq_zero coarse (by omega) _).mp clear) ?_
          rw [next]
          omega
        obtain ⟨v', looped, low'⟩ := ih (v := bump k v) (by omega)
        refine ⟨v', ?_, low'.trans low⟩
        rw [if_neg more, looped, expansions_cons coarse low step (by omega), List.flatMap_cons, there]
        rfl

/-- An entry that is in the same bucket of the table as a cursor. -/
def Meets (type : DictType κ υ) (ht : Dictht κ υ) (v : BitVec 64) (e : DictEntry κ υ) : Prop :=
  (type.hashFunction e.key).toNat % ht.size = v.toNat % ht.size

instance (v : BitVec 64) (e : DictEntry κ υ) : Decidable (Meets type ht v e) :=
  inferInstanceAs (Decidable (_ = _))

/-- The bucket of an entry is at or behind that of a cursor. -/
def Follows (type : DictType κ υ) (ht : Dictht κ υ) (v : BitVec 64) (e : DictEntry κ υ) : Prop :=
  v.toNat % ht.size ≤ (type.hashFunction e.key).toNat % ht.size

instance (v : BitVec 64) (e : DictEntry κ υ) : Decidable (Follows type ht v e) :=
  inferInstanceAs (Decidable (_ ≤ _))

theorem emit_eq (ok : TableOk type good ht) {k : Nat} (size : ht.size = 2 ^ k) (bound : k < 64)
    (v : BitVec 64) :
    ∃ es, emit ht v = .ok es ∧ es.Perm (ht.entries.filter fun e => Meets type ht v e) := by
  obtain ⟨chain, there⟩ : ∃ chain, ht.table[v.toNat % 2 ^ k]? = some chain :=
    Dictht.exists_bucket (Nat.lt_of_lt_of_eq (Nat.mod_lt _ (Nat.two_pow_pos k)) size.symm)
  refine ⟨chain, ?_, ?_⟩
  · rw [emit, Dictht.wordMask_eq size, toNat_and_mask (by omega)]
    exact Dictht.bucket_eq there
  · refine (ok.filed.filter_slot there).symm.trans (List.Perm.of_eq ?_)
    apply List.filter_congr
    intro e _
    apply decide_eq_decide.mpr
    rw [Dictht.slot, Dictht.index_eq_mod size, Meets, size]

/-- The entries at the expansions of a cursor. -/
theorem expand_perm (ok : TableOk type good ht) {small : Dictht κ υ} {k n : Nat} (coarse : k ≤ n)
    (size : small.size = 2 ^ k) (size' : ht.size = 2 ^ n) (v : BitVec 64) :
    ((expansions k n v.toNat).flatMap fun i => ht.table[i]?.getD []).Perm
      (ht.entries.filter fun e => Meets type small v e ∧ Follows type ht v e) := by
  have inside : ∀ i ∈ expansions k n v.toNat, i < ht.table.length := by
    intro i member
    have below := ((mem_expansions coarse).mp member).1
    rwa [← size'] at below
  refine (ok.filed.flatMap_perm (expansions_nodup k n v.toNat) inside).trans (List.Perm.of_eq ?_)
  apply List.filter_congr
  intro e _
  apply decide_eq_decide.mpr
  rw [mem_expansions coarse, Dictht.slot, Dictht.index_eq_mod size', Meets, Follows, size, size',
    Nat.mod_mod_of_dvd _ (Nat.pow_dvd_pow 2 coarse)]
  exact and_iff_right (Nat.mod_lt _ (Nat.two_pow_pos n))

/-- A call while the dictionary is rehashed. -/
theorem scanBoth_eq {small : Dictht κ υ} {k n : Nat} (coarse : k ≤ n) (bound : n ≤ 31)
    (size : small.size = 2 ^ k) (size' : ht.size = 2 ^ n) (ok : TableOk type good small)
    (ok' : TableOk type good ht) (v : BitVec 64) :
    ∃ es, (do
        let emitted ← emit small v
        let (expanded, v) ← expandLoop small.wordMask ht.wordMask ht ht.size v
        return (emitted ++ expanded, nextCursor small.wordMask v)) =
        (Except.ok (es, advance k v) : Except Fault (List (DictEntry κ υ) × BitVec 64)) ∧
      es.Perm ((small.entries.filter fun e => Meets type small v e) ++
        ht.entries.filter fun e => Meets type small v e ∧ Follows type ht v e) := by
  obtain ⟨es, emitted, perm⟩ := emit_eq ok size (by omega) v
  have enough : 2 ^ (n - k) - v.toNat % 2 ^ n / 2 ^ k ≤ ht.size := by
    rw [size']
    exact Nat.le_trans (Nat.sub_le _ _) (Nat.pow_le_pow_right Nat.two_pos (Nat.sub_le _ _))
  obtain ⟨v', looped, low⟩ := expandLoop_eq coarse (by omega) size' enough
  refine ⟨es ++ (expansions k n v.toNat).flatMap fun i => ht.table[i]?.getD [], ?_,
    perm.append (expand_perm ok' coarse size size' v)⟩
  rw [Dictht.wordMask_eq size, Dictht.wordMask_eq size', emitted, bind_ok, looped, bind_ok]
  simp only [nextCursor_eq]
  rw [advance_congr (by omega) low]
  rfl

variable {β : Type} {name : κ → β} {d : Dict κ υ}

/-- What one call goes through. -/
def Dict.scanned (type : DictType κ υ) (d : Dict κ υ) (v : BitVec 64) : List (DictEntry κ υ) :=
  (d.smaller.entries.filter fun e => Meets type d.smaller v e) ++
    d.larger.entries.filter fun e => Meets type d.smaller v e ∧ Follows type d.larger v e

theorem Ready.exists_pow {ht : Dictht κ υ} (sized : ht.Sized) (some : 0 < ht.size)
    (small : ht.size ≤ 2 ^ 31) : ∃ k, k ≤ 31 ∧ ht.size = 2 ^ k := by
  rcases sized with none | ⟨k, size⟩
  · omega
  · refine ⟨k, ?_, size⟩
    rw [size] at small
    exact (Nat.pow_le_pow_iff_right (by decide)).mp small

/-- **One call**: it returns what is in the bucket, and moves on behind it. -/
theorem dictScan_eq (ready : Ready type good name d) (filled : d.entries ≠ []) (v : BitVec 64) :
    ∃ k es, k ≤ 31 ∧ d.smaller.size = 2 ^ k ∧ dictScan d v = .ok (es, advance k v) ∧
      es.Perm (d.scanned type v) := by
  have counted : ¬ d.ht0.used + d.ht1.used = 0 := by
    rw [ready.sound.first.used, ready.sound.second.used, ← List.length_append]
    exact fun none => filled (List.eq_nil_of_length_eq_zero none)
  rw [dictScan, if_neg counted]
  cases moving : d.isRehashing with
  | false =>
      have idle := Option.not_isSome_iff_eq_none.mp (Bool.eq_false_iff.mp moving)
      have sized : 0 < d.ht0.size :=
        Nat.pos_of_ne_zero fun unsized => filled (ready.sound.entries_unsized unsized)
      obtain ⟨k, bound, size⟩ := Ready.exists_pow ready.powers.first sized ready.small.first
      obtain ⟨es, emitted, perm⟩ := emit_eq ready.sound.first size (by omega) v
      have smaller : d.smaller = d.ht0 := by simp [Dict.smaller, moving]
      have larger : d.larger = .reset := by simp [Dict.larger, moving, ready.sound.idle idle]
      refine ⟨k, es, bound, by rw [smaller, size], ?_, ?_⟩
      · rw [Bool.not_false, if_pos rfl, emitted, bind_ok, Dictht.wordMask_eq size, nextCursor_eq]
        rfl
      · rw [Dict.scanned, smaller, larger]
        exact perm.trans (List.Perm.of_eq (List.append_nil _).symm)
  | true =>
      obtain ⟨i, some⟩ := Option.isSome_iff_exists.mp moving
      obtain ⟨sized, sized', -⟩ := ready.sound.moving i some
      obtain ⟨k₀, bound₀, size₀⟩ := Ready.exists_pow ready.powers.first sized ready.small.first
      obtain ⟨k₁, bound₁, size₁⟩ := Ready.exists_pow ready.powers.second sized' ready.small.second
      rw [Bool.not_true, if_neg Bool.false_ne_true]
      by_cases shrinking : d.ht1.size < d.ht0.size
      · have smaller : d.smaller = d.ht1 := by simp [Dict.smaller, moving, shrinking]
        have larger : d.larger = d.ht0 := by simp [Dict.larger, moving, shrinking]
        have coarse : k₁ ≤ k₀ := by
          rw [size₀, size₁] at shrinking
          exact ((Nat.pow_lt_pow_iff_right (by decide)).mp shrinking).le
        obtain ⟨es, scanned, perm⟩ :=
          scanBoth_eq coarse bound₀ size₁ size₀ ready.sound.second ready.sound.first v
        rw [if_pos shrinking, Dict.scanned, smaller, larger]
        exact ⟨k₁, es, bound₁, size₁, scanned, perm⟩
      · have smaller : d.smaller = d.ht0 := by simp [Dict.smaller, shrinking]
        have larger : d.larger = d.ht1 := by simp [Dict.larger, shrinking]
        have coarse : k₀ ≤ k₁ := by
          rw [size₀, size₁] at shrinking
          exact (Nat.pow_le_pow_iff_right (by decide)).mp (Nat.le_of_not_lt shrinking)
        obtain ⟨es, scanned, perm⟩ :=
          scanBoth_eq coarse bound₁ size₀ size₁ ready.sound.first ready.sound.second v
        rw [if_neg shrinking, Dict.scanned, smaller, larger]
        exact ⟨k₀, es, bound₀, size₀, scanned, perm⟩

/-- Without entries there is nothing to scan. -/
theorem dictScan_empty (ready : Ready type good name d) (empty : d.entries = []) (v : BitVec 64) :
    dictScan d v = .ok ([], 0) := by
  have counted : d.ht0.used + d.ht1.used = 0 := by
    rw [ready.sound.first.used, ready.sound.second.used, ← List.length_append]
    exact List.length_eq_zero_iff.mpr empty
  rw [dictScan, if_pos counted]

theorem mem_scanned {v : BitVec 64} {e : DictEntry κ υ} :
    e ∈ d.scanned type v ↔ (e ∈ d.smaller.entries ∧ Meets type d.smaller v e) ∨
      e ∈ d.larger.entries ∧ Meets type d.smaller v e ∧ Follows type d.larger v e := by
  rw [Dict.scanned, List.mem_append, List.mem_filter, List.mem_filter, decide_eq_true_eq,
    decide_eq_true_eq]

/-- With an entry there are buckets. -/
theorem Ready.smaller_pow (ready : Ready type good name d) (filled : d.entries ≠ []) :
    ∃ k, k ≤ 31 ∧ d.smaller.size = 2 ^ k := by
  obtain ⟨k, es, bound, size, -⟩ := dictScan_eq ready filled 0
  exact ⟨k, bound, size⟩

/-- A larger table that is in use has at least the buckets of the smaller one. -/
theorem Ready.larger (ready : Ready type good name d) {e : DictEntry κ υ}
    (member : e ∈ d.larger.entries) :
    ∃ n, n ≤ 31 ∧ d.larger.size = 2 ^ n ∧ d.smaller.size ≤ d.larger.size := by
  have some : 0 < d.larger.size := by
    obtain ⟨chain, inside, -⟩ := List.mem_flatten.mp member
    exact List.length_pos_of_mem inside
  unfold Dict.larger Dict.smaller at *
  split at member
  · rename_i shrinking
    simp only [if_pos shrinking] at some ⊢
    obtain ⟨n, bound, size⟩ := Ready.exists_pow ready.powers.first some ready.small.first
    simp only [Bool.and_eq_true, decide_eq_true_eq] at shrinking
    exact ⟨n, bound, size, shrinking.2.le⟩
  · rename_i growing
    simp only [if_neg growing] at some ⊢
    obtain ⟨n, bound, size⟩ := Ready.exists_pow ready.powers.second some ready.small.second
    simp only [Bool.and_eq_true, decide_eq_true_eq, not_and, Nat.not_lt] at growing
    refine ⟨n, bound, size, growing ?_⟩
    by_contra still
    have idle := Option.not_isSome_iff_eq_none.mp still
    rw [ready.sound.idle idle] at some
    exact absurd some (Nat.lt_irrefl 0)

end Call

end Itaro.Cache
