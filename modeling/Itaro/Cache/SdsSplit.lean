/-
# Cache.SdsSplit -- sds.c: one string from many, and many from one

`sdssplitlen` cuts a string at each leftmost separator, of any length, and its array of
tokens always has room for the next one (`sdssplitlen_splits`).  `sdsjoin` puts C strings
together again: it undoes a splitting (`sdsjoin_sdssplitlen`), and for a separator of
one byte a splitting undoes it (`sdssplitlen_sdsjoin`).
-/
import Itaro.Theory.Separators
import Itaro.Cache.SdsEdit

namespace Itaro.Cache

set_option autoImplicit false

/-! ## Splitting -/

/-- The variables of `sdssplitlen`, which are `int`s there; `elements` is the number of tokens. -/
structure Split where
  tokens : List (List (BitVec 8))
  slots : Nat
  start : Nat
  j : Nat
  deriving DecidableEq, Repr

/-- `tokens[elements] = ...`, where `slots` were allocated. -/
def Split.store (st : Split) (token : List (BitVec 8)) : Except SdsFault (List (List (BitVec 8))) :=
  if st.tokens.length < st.slots then .ok (st.tokens ++ [token]) else .error .overrun

section Splitting

variable (s sep : List (BitVec 8))

/-- The separator is at `j`. -/
def sepAt (j : Nat) : Bool :=
  (sep.length = 1 ∧ s[j]? = sep[0]?) ∨ (s.drop j).take sep.length = sep

/-- The loop over `j`, for the bytes that are left. -/
def splitlenLoop : Nat → Split → Except SdsFault Split
  | 0, st => .ok st
  | fuel + 1, st =>
    if st.j < s.length - (sep.length - 1) then do
      let st := if st.slots < st.tokens.length + 2 then { st with slots := st.slots * 2 } else st
      if sepAt s sep st.j then
        let tokens ← st.store ((s.drop st.start).take (st.j - st.start))
        splitlenLoop fuel ⟨tokens, st.slots, st.j + sep.length, st.j + sep.length - 1 + 1⟩
      else splitlenLoop fuel { st with j := st.j + 1 }
    else .ok st

/-- `sdssplitlen`: `none` is NULL. -/
def sdssplitlen : Except SdsFault (Option (List (List (BitVec 8)))) := do
  if sep.length < 1 then return none
  if s.length = 0 then return some []
  let st ← splitlenLoop s sep s.length ⟨[], 5, 0, 0⟩
  let tokens ← st.store ((s.drop st.start).take (s.length - st.start))
  return some tokens

end Splitting

/-! ## The loop finds what is first -/

section Loop

variable {s sep : List (BitVec 8)}

theorem sepAt_iff (nonempty : sep ≠ []) (j : Nat) : sepAt s sep j = true ↔ sep <+: s.drop j := by
  rw [sepAt, decide_eq_true_iff, List.prefix_iff_eq_take, eq_comm (b := sep)]
  refine ⟨?_, Or.inr⟩
  rintro (⟨one, same⟩ | here)
  · obtain ⟨c, rfl⟩ := List.length_eq_one_iff.mp one
    obtain ⟨inside, here⟩ := List.getElem?_eq_some_iff.mp same
    rw [List.drop_eq_getElem_cons inside, here]
    rfl
  · exact here

/-- Where the search is: nothing was found since `start`, and the array has room. -/
structure Split.Searching (s sep : List (BitVec 8)) (st : Split) : Prop where
  ordered : st.start ≤ st.j
  inside : st.start ≤ s.length
  unmet : ∀ p, st.start ≤ p → p < st.j → ¬ sep <+: s.drop p
  room : st.tokens.length < st.slots

/-- A separator found at `j` ends the token that began at `start`. -/
theorem Split.Searching.cut {st : Split} (searching : st.Searching s sep)
    {rest : List (BitVec 8)} (behind : sep ++ rest = s.drop st.j) {tokens : List (List (BitVec 8))}
    (splits : Splits sep (s.drop (st.j + sep.length)) tokens) :
    Splits sep (s.drop st.start) ((s.drop st.start).take (st.j - st.start) :: tokens) := by
  have ordered := searching.ordered
  have after : s.drop (st.j + sep.length) = rest := by
    rw [← List.drop_drop, ← behind, List.drop_left]
  have whole : (s.drop st.start).take (st.j - st.start) ++ (sep ++ rest) = s.drop st.start := by
    have remainder : (s.drop st.start).drop (st.j - st.start) = s.drop st.j := by
      rw [List.drop_drop, Nat.add_sub_of_le ordered]
    rw [behind, ← remainder, List.take_append_drop]
  rw [after] at splits
  have cut := Splits.cut (t := (s.drop st.start).take (st.j - st.start)) ?_ splits
  · rwa [whole] at cut
  · intro p inside found
    rw [← prefix_drop_iff rest inside, whole, List.drop_drop] at found
    rw [List.length_take] at inside
    exact searching.unmet _ (Nat.le_add_right _ _) (by omega) found

/-- The rest of the search, and the token stored last. -/
theorem splitlenLoop_splits (nonempty : sep ≠ []) : ∀ (fuel : Nat) (st : Split), st.Searching s sep →
    s.length ≤ st.j + fuel → ∃ st' tokens, splitlenLoop s sep fuel st = .ok st' ∧
      st'.store ((s.drop st'.start).take (s.length - st'.start)) = .ok (st.tokens ++ tokens) ∧
      Splits sep (s.drop st.start) tokens := by
  have some := List.length_pos_iff.mpr nonempty
  -- the string ends before another separator fits
  have ends : ∀ st : Split, st.Searching s sep → s.length - (sep.length - 1) ≤ st.j →
      st.store ((s.drop st.start).take (s.length - st.start)) = .ok (st.tokens ++ [s.drop st.start]) ∧
        Splits sep (s.drop st.start) [s.drop st.start] := by
    intro st searching atEnd
    refine ⟨?_, .last ?_⟩
    · rw [Split.store, if_pos searching.room, List.take_of_length_le (by rw [List.length_drop])]
    · intro found
      obtain ⟨p, fits, starts⟩ := infix_iff_prefix_drop.mp found
      rw [List.length_drop] at fits
      rw [List.drop_drop] at starts
      exact searching.unmet _ (Nat.le_add_right _ _) (by omega) starts
  intro fuel
  induction fuel with
  | zero =>
    intro st searching enough
    exact ⟨st, _, rfl, ends st searching (by omega)⟩
  | succ fuel ih =>
    intro st searching enough
    rw [splitlenLoop]
    by_cases more : st.j < s.length - (sep.length - 1)
    · rw [if_pos more]
      obtain ⟨roomy, made, tokens, start, j, room⟩ : ∃ roomy : Split,
          (if st.slots < st.tokens.length + 2 then { st with slots := st.slots * 2 } else st) = roomy ∧
          roomy.tokens = st.tokens ∧ roomy.start = st.start ∧ roomy.j = st.j ∧
          roomy.tokens.length + 1 < roomy.slots := by
        have room := searching.room
        refine ⟨_, rfl, ?_⟩
        split
        case isTrue full => exact ⟨rfl, rfl, rfl, by change st.tokens.length + 1 < st.slots * 2; omega⟩
        case isFalse wide => exact ⟨rfl, rfl, rfl, by omega⟩
      simp only [made, start, j]
      by_cases here : sepAt s sep st.j = true
      · obtain ⟨rest, behind⟩ := (sepAt_iff nonempty st.j).mp here
        have fits := congrArg List.length behind
        rw [List.length_append, List.length_drop] at fits
        have store : roomy.store ((s.drop st.start).take (st.j - st.start)) =
            .ok (st.tokens ++ [(s.drop st.start).take (st.j - st.start)]) := by
          rw [Split.store, if_pos (by omega), tokens]
        have next : Split.Searching s sep ⟨st.tokens ++ [(s.drop st.start).take (st.j - st.start)], roomy.slots,
            st.j + sep.length, st.j + sep.length - 1 + 1⟩ := by
          constructor
          case ordered =>
            change st.j + sep.length ≤ st.j + sep.length - 1 + 1
            omega
          case inside =>
            change st.j + sep.length ≤ s.length
            omega
          case unmet =>
            intro p lower upper
            change st.j + sep.length ≤ p at lower
            change p < st.j + sep.length - 1 + 1 at upper
            omega
          case room =>
            rw [List.length_append, List.length_singleton, ← tokens]
            exact room
        have enoughNext : s.length ≤ st.j + sep.length - 1 + 1 + fuel := by omega
        obtain ⟨st', later, loop, stored, splits⟩ := ih _ next enoughNext
        refine ⟨st', (s.drop st.start).take (st.j - st.start) :: later, ?_, ?_, ?_⟩
        · rw [if_pos here, store]
          exact loop
        · rw [stored, List.append_assoc, List.singleton_append]
        · exact searching.cut behind splits
      · have next : Split.Searching s sep { roomy with j := st.j + 1 } := by
          refine ⟨?_, ?_, ?_, Nat.lt_of_succ_lt room⟩
          · rw [start]
            exact Nat.le_succ_of_le searching.ordered
          · rw [start]
            exact searching.inside
          · intro p lower upper
            rw [start] at lower
            rcases Nat.lt_succ_iff_lt_or_eq.mp upper with before | rfl
            · exact searching.unmet p lower before
            · exact fun found => here ((sepAt_iff nonempty _).mpr found)
        obtain ⟨st', later, loop, stored, splits⟩ := ih _ next (by rw [Nat.add_right_comm]; exact enough)
        rw [tokens] at stored
        rw [start] at splits
        rw [if_neg here]
        rw [start] at loop
        exact ⟨st', later, loop, stored, splits⟩
    · rw [if_neg more]
      exact ⟨st, _, rfl, ends st searching (by omega)⟩

end Loop

/-- Every token array is long enough, and the tokens end at the first separators. -/
theorem sdssplitlen_splits {s sep : List (BitVec 8)} (nonempty : sep ≠ []) (some : s ≠ []) :
    ∃ tokens, sdssplitlen s sep = .ok (.some tokens) ∧ Splits sep s tokens := by
  have start : Split.Searching s sep ⟨[], 5, 0, 0⟩ :=
    ⟨Nat.le_refl _, Nat.zero_le _, fun p _ upper => absurd upper (Nat.not_lt_zero _), by decide⟩
  have enough : s.length ≤ 0 + s.length := by rw [Nat.zero_add]
  obtain ⟨st, tokens, loop, stored, splits⟩ := splitlenLoop_splits nonempty s.length _ start enough
  have sepLength : ¬ sep.length < 1 := by
    have := List.length_pos_iff.mpr nonempty
    omega
  have length : ¬ s.length = 0 := fun zero => some (List.eq_nil_of_length_eq_zero zero)
  refine ⟨tokens, ?_, splits⟩
  rw [List.nil_append] at stored
  rw [sdssplitlen, if_neg sepLength, if_neg length, loop]
  exact congrArg (fun stored : Except SdsFault _ => stored >>= fun tokens => Except.ok (Option.some tokens)) stored

/-! ## Joining -/

/-- The C string in a buffer. -/
def cstring (buf : List (BitVec 8)) : List (BitVec 8) := buf.takeWhile (· ≠ 0)

def sdscat (fresh : Nat → BitVec 8) (sh : Sdshdr) (t : List (BitVec 8)) : Except SdsFault Sdshdr :=
  sdscatlen fresh sh (cstring t)

def sdsempty : Sdshdr := ⟨0, 0, [0]⟩

section Joining

-- what new memory holds, for each concatenation
variable (fresh : Nat → Nat → BitVec 8)

def joinLoop (argc : Nat) (sep : List (BitVec 8)) : Nat → Sdshdr → List (List (BitVec 8)) → Except SdsFault Sdshdr
  | _, join, [] => .ok join
  | j, join, arg :: argv => do
    let join ← sdscat (fresh (2 * j)) join arg
    let join ← if j ≠ argc - 1 then sdscat (fresh (2 * j + 1)) join sep else pure join
    joinLoop argc sep (j + 1) join argv

def sdsjoin (argv : List (List (BitVec 8))) (sep : List (BitVec 8)) : Except SdsFault Sdshdr :=
  joinLoop fresh argv.length sep 0 sdsempty argv

theorem joinLoop_holds {argc : Nat} {sep : List (BitVec 8)} (argv : List (List (BitVec 8))) {j : Nat} {join : Sdshdr}
    {bytes : List (BitVec 8)} (holds : SdsHolds join bytes) (counted : j + argv.length = argc)
    (short : (bytes ++ List.intercalate (cstring sep) (argv.map cstring)).length < 2 ^ 31) :
    ∃ sh, joinLoop fresh argc sep j join argv = .ok sh ∧
      SdsHolds sh (bytes ++ List.intercalate (cstring sep) (argv.map cstring)) := by
  induction argv generalizing j join bytes with
  | nil => exact ⟨join, rfl, by simpa using holds⟩
  | cons arg argv ih =>
    rw [List.length_cons] at counted
    have argShort : bytes.length + (cstring arg).length < 2 ^ 31 := by
      refine Nat.lt_of_le_of_lt ?_ short
      rw [List.length_append]
      cases argv <;> simp
    obtain ⟨mid, added, held⟩ := sdscatlen_holds (fresh (2 * j)) holds argShort
    cases argv with
    | nil =>
      have last : ¬ j ≠ argc - 1 := by
        rw [List.length_nil] at counted
        omega
      refine ⟨mid, ?_, by simpa using held⟩
      simp only [joinLoop, sdscat, added, if_neg last]
      rfl
    | cons next argv =>
      have more : j ≠ argc - 1 := by
        rw [List.length_cons] at counted
        omega
      have whole : bytes ++ List.intercalate (cstring sep) ((arg :: next :: argv).map cstring) =
          bytes ++ cstring arg ++ cstring sep ++ List.intercalate (cstring sep) ((next :: argv).map cstring) := by
        simp only [List.map_cons, List.intercalate_cons_cons, List.append_assoc]
      rw [whole] at short
      have sepShort : (bytes ++ cstring arg).length + (cstring sep).length < 2 ^ 31 := by
        refine Nat.lt_of_le_of_lt ?_ short
        rw [← List.length_append]
        exact (List.prefix_append _ _).length_le
      obtain ⟨both, separated, heldBoth⟩ := sdscatlen_holds (fresh (2 * j + 1)) held sepShort
      have countedNext : j + 1 + (next :: argv).length = argc := by
        rw [← counted]
        omega
      obtain ⟨sh, rest, done⟩ := ih heldBoth countedNext short
      refine ⟨sh, ?_, by rw [whole]; exact done⟩
      rw [joinLoop, sdscat, added]
      simp only [if_pos more, sdscat]
      exact (congrArg (fun join : Except SdsFault _ => join >>= fun join =>
        joinLoop fresh argc sep (j + 1) join (next :: argv)) separated).trans rest

theorem sdsjoin_holds (argv : List (List (BitVec 8))) (sep : List (BitVec 8))
    (short : (List.intercalate (cstring sep) (argv.map cstring)).length < 2 ^ 31) :
    ∃ sh, sdsjoin fresh argv sep = .ok sh ∧ SdsHolds sh (List.intercalate (cstring sep) (argv.map cstring)) := by
  have empty : SdsHolds sdsempty [] := ⟨rfl, ⟨[], rfl, rfl⟩, by decide⟩
  exact joinLoop_holds fresh argv empty (Nat.zero_add _) short

theorem cstring_terminated {bytes : List (BitVec 8)} (clean : 0 ∉ bytes) : cstring (bytes ++ [0]) = bytes := by
  rw [cstring, strlen_terminated, List.takeWhile_eq_self_iff]
  exact fun c mem => decide_eq_true fun zero => clean (zero ▸ mem)

theorem map_cstring_terminated {tokens : List (List (BitVec 8))} (clean : ∀ t ∈ tokens, 0 ∉ t) :
    (tokens.map (· ++ [0])).map cstring = tokens := by
  rw [List.map_map]
  exact (List.map_congr_left fun t mem => cstring_terminated (clean t mem)).trans (List.map_id _)

/-- A string that was split is joined again, by any separator. -/
theorem sdsjoin_sdssplitlen {s sep : List (BitVec 8)} (nonempty : sep ≠ []) (clean : 0 ∉ s) (cleanSep : 0 ∉ sep)
    (short : s.length < 2 ^ 31) :
    ∃ tokens sh, sdssplitlen s sep = .ok (.some tokens) ∧ (∀ t ∈ tokens, ¬ sep <:+: t) ∧
      sdsjoin fresh (tokens.map (· ++ [0])) (sep ++ [0]) = .ok sh ∧ SdsHolds sh s := by
  by_cases empty : s = []
  · subst empty
    refine ⟨[], sdsempty, ?_, fun t mem => absurd mem List.not_mem_nil, rfl, ⟨rfl, ⟨[], rfl, rfl⟩, by decide⟩⟩
    have sepLength : ¬ sep.length < 1 := by
      have := List.length_pos_iff.mpr nonempty
      omega
    rw [sdssplitlen, if_neg sepLength]
    rfl
  · obtain ⟨tokens, split, splits⟩ := sdssplitlen_splits nonempty empty
    have whole := splits.intercalate
    have cleanTokens : ∀ t ∈ tokens, 0 ∉ t := by
      intro t mem zero
      rw [← whole] at clean
      exact clean (mem_intercalate mem zero)
    have strings : List.intercalate (cstring (sep ++ [0])) ((tokens.map (· ++ [0])).map cstring) = s := by
      rw [cstring_terminated cleanSep, map_cstring_terminated cleanTokens, whole]
    obtain ⟨sh, joined, holds⟩ := sdsjoin_holds fresh (tokens.map (· ++ [0])) (sep ++ [0]) (by rw [strings]; exact short)
    rw [strings] at holds
    exact ⟨tokens, sh, split, splits.clean nonempty, joined, holds⟩

/-- "a--b", split at "--". -/
theorem sdsjoin_sdssplitlen_two :
    ∃ tokens sh, sdssplitlen [97, 45, 45, 98] [45, 45] = .ok (.some tokens) ∧ (∀ t ∈ tokens, ¬ [45, 45] <:+: t) ∧
      sdsjoin (fun _ _ => 7) (tokens.map (· ++ [0])) ([45, 45] ++ [0]) = .ok sh ∧ SdsHolds sh [97, 45, 45, 98] :=
  sdsjoin_sdssplitlen (fun _ _ => 7) (by simp) (by simp) (by simp) (by simp)

/-- Strings that were joined with a byte in none of them are split again. -/
theorem sdssplitlen_sdsjoin {argv : List (List (BitVec 8))} {c : BitVec 8} (without : ∀ t ∈ argv, c ∉ t)
    (clean : ∀ t ∈ argv, 0 ∉ t) (nul : c ≠ 0) (visible : argv ≠ [[]])
    (short : (List.intercalate [c] argv).length < 2 ^ 31) :
    ∃ sh bytes, sdsjoin fresh (argv.map (· ++ [0])) [c, 0] = .ok sh ∧ SdsHolds sh bytes ∧
      sdssplitlen bytes [c] = .ok (.some argv) := by
  have strings : List.intercalate (cstring [c, 0]) ((argv.map (· ++ [0])).map cstring) = List.intercalate [c] argv := by
    have separator : cstring ([c] ++ [0]) = [c] := cstring_terminated (by simpa using nul.symm)
    rw [map_cstring_terminated clean]
    exact congrArg (List.intercalate · argv) separator
  obtain ⟨sh, joined, holds⟩ := sdsjoin_holds fresh (argv.map (· ++ [0])) [c, 0] (by rw [strings]; exact short)
  rw [strings] at holds
  refine ⟨sh, _, joined, holds, ?_⟩
  by_cases none : argv = []
  · subst none
    rfl
  · have splits := Splits.of_clean none without
    have some : List.intercalate [c] argv ≠ [] := by
      cases argv with
      | nil => exact absurd rfl none
      | cons t argv =>
        cases argv with
        | nil =>
          rw [List.intercalate_singleton]
          exact fun empty => visible (by rw [empty])
        | cons next argv => simp [List.intercalate_cons_cons]
    obtain ⟨tokens, split, splits'⟩ := sdssplitlen_splits (List.cons_ne_nil c []) some
    rw [split, splits.unique splits']

/-- "a" and an empty string, joined with ",". -/
theorem sdssplitlen_sdsjoin_two :
    ∃ sh bytes, sdsjoin (fun _ _ => 7) ([[97], []].map (· ++ [0])) [44, 0] = .ok sh ∧ SdsHolds sh bytes ∧
      sdssplitlen bytes [44] = .ok (.some [[97], []]) :=
  sdssplitlen_sdsjoin (fun _ _ => 7) (by simp) (by simp) (by simp) (by simp) (by simp [List.intercalate_cons_cons])

end Joining

end Itaro.Cache
