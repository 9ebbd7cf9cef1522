/-
# Theory.Writes -- a program as the writes it makes, and what a crash leaves

A program that updates memory is the list of writes it makes when it is run in
a given memory (`Prog`).  Running it to the end applies them all (`Prog.exec`);
dying after `k` of them applies the first `k` (`Prog.crash`).  Sequencing
(`Prog.seq`) runs the second program in the memory the first one leaves, so what
it reads may depend on what was written before.

`Prog.Within F` bounds the writes of a program by a footprint.  It frames the
finished program (`Within.exec`), and `Prog.loop_rule` proves it for a loop together with the loop's invariant, since
what a turn writes to may be an address an earlier turn stored.  `Prog.inside` computes it for an
interval of addresses.
-/
import Itaro.Theory.Memory

namespace Itaro.Theory

set_option autoImplicit false

/-- Store the low `width` bytes of `val` at `addr`. -/
structure Write where
  addr : Nat
  width : Nat
  val : Nat
  deriving DecidableEq, Repr

namespace Write

def apply (w : Write) (m : Mem) : Mem := store m w.addr w.width w.val

def u8 (a : Nat) (v : BitVec 8) : Write := ⟨a, 1, v.toNat⟩

def u32 (a : Nat) (v : BitVec 32) : Write := ⟨a, 4, v.toNat⟩

def u64 (a : Nat) (v : BitVec 64) : Write := ⟨a, 8, v.toNat⟩

/-- The write covers address `x`. -/
def Covers (w : Write) (x : Nat) : Prop := Span w.addr w.width x

/-- Every byte of the write lies in `[lo, hi)`. -/
def inside (lo hi : Nat) (w : Write) : Bool :=
  w.width == 0 || (decide (lo ≤ w.addr) && decide (w.addr + w.width ≤ hi))

theorem inside_iff {lo hi : Nat} {w : Write} :
    w.inside lo hi = true ↔ ∀ x, w.Covers x → lo ≤ x ∧ x < hi := by
  simp only [inside, Bool.or_eq_true, beq_iff_eq, Bool.and_eq_true, decide_eq_true_eq, Covers, Span]
  constructor
  · rintro (none | ⟨lower, upper⟩) x ⟨above, below⟩ <;> omega
  · intro covered
    by_cases none : w.width = 0
    · exact .inl none
    · have first := covered w.addr (by omega)
      have last := covered (w.addr + w.width - 1) (by omega)
      exact .inr ⟨first.1, by omega⟩

@[simp] theorem apply_u8 (a : Nat) (v : BitVec 8) (m : Mem) : (u8 a v).apply m = setU8 m a v := rfl

@[simp] theorem apply_u32 (a : Nat) (v : BitVec 32) (m : Mem) :
    (u32 a v).apply m = setU32 m a v := rfl

@[simp] theorem apply_u64 (a : Nat) (v : BitVec 64) (m : Mem) :
    (u64 a v).apply m = setU64 m a v := rfl

end Write

def applyAll (ws : List Write) (m : Mem) : Mem := ws.foldl (fun m w => w.apply m) m

@[simp] theorem applyAll_nil (m : Mem) : applyAll [] m = m := rfl

@[simp] theorem applyAll_cons (w : Write) (ws : List Write) (m : Mem) :
    applyAll (w :: ws) m = applyAll ws (w.apply m) := rfl

theorem applyAll_append (ws vs : List Write) (m : Mem) :
    applyAll (ws ++ vs) m = applyAll vs (applyAll ws m) := List.foldl_append

/-- A byte no write covers is unchanged. -/
theorem applyAll_of_misses {ws : List Write} {x : Nat} (misses : ∀ w ∈ ws, ¬ w.Covers x)
    (m : Mem) : applyAll ws m x = m x := by
  induction ws generalizing m with
  | nil => rfl
  | cons w ws ih =>
      rw [applyAll_cons, ih fun v member => misses v (List.mem_cons_of_mem _ member)]
      exact store_changesOnly m _ _ _ x (misses w List.mem_cons_self)

theorem applyAll_changesOnly {F : Nat → Prop} {ws : List Write}
    (within : ∀ w ∈ ws, ∀ x, w.Covers x → F x) (m : Mem) : ChangesOnly F m (applyAll ws m) :=
  fun x outside => applyAll_of_misses (fun w member covers => outside (within w member x covers)) m

/-- The same writes to two memories. -/
theorem ChangesOnly.applyAll {D : Nat → Prop} {m m' : Mem} (changes : ChangesOnly D m m') (ws : List Write) :
    ChangesOnly D (Theory.applyAll ws m) (Theory.applyAll ws m') := by
  induction ws generalizing m m' with
  | nil => exact changes
  | cons w ws ih => exact ih (changes.store w.addr w.width w.val)

/-- The writes a program makes when it is run in a memory. -/
abbrev Prog := Mem → List Write

namespace Prog

def exec (p : Prog) (m : Mem) : Mem := applyAll (p m) m

/-- What a death after `k` writes leaves. -/
def crash (p : Prog) (m : Mem) (k : Nat) : Mem := applyAll ((p m).take k) m

/-- Writes that do not depend on memory. -/
def const (ws : List Write) : Prog := fun _ => ws

def seq (p q : Prog) : Prog := fun m => p m ++ q (p.exec m)

/-- Read a value first, and go on with it. -/
def reading {α : Type} (f : Mem → α) (p : α → Prog) : Prog := fun m => p (f m) m

/-- `for (i = start; i < start + count; i++) body(i);` -/
def loop (start : Nat) : Nat → (Nat → Prog) → Prog
  | 0, _ => const []
  | count + 1, body => (loop start count body).seq (body (start + count))

variable {p q : Prog} {m : Mem} {F G : Nat → Prop}

@[simp] theorem exec_const (ws : List Write) (m : Mem) : (const ws).exec m = applyAll ws m := rfl

@[simp] theorem exec_seq (m : Mem) : (p.seq q).exec m = q.exec (p.exec m) := applyAll_append _ _ m

theorem exec_reading {α : Type} (f : Mem → α) (p : α → Prog) (m : Mem) :
    (reading f p).exec m = (p (f m)).exec m := rfl

theorem exec_loop_succ (start count : Nat) (body : Nat → Prog) (m : Mem) :
    (loop start (count + 1) body).exec m =
      (body (start + count)).exec ((loop start count body).exec m) := exec_seq m

theorem crash_of_length_le {k : Nat} (done : (p m).length ≤ k) :
    p.crash m k = p.exec m := by
  rw [crash, List.take_of_length_le done, exec]

/-- A crash in the first part of a sequence. -/
theorem crash_seq_of_le {k : Nat} (early : k ≤ (p m).length) :
    (p.seq q).crash m k = p.crash m k := by
  rw [crash, seq, List.take_append_of_le_length early, crash]

/-- Every write made in `m` stays inside `F`. -/
def Within (p : Prog) (F : Nat → Prop) (m : Mem) : Prop := ∀ w ∈ p m, ∀ x, w.Covers x → F x

namespace Within

theorem exec (within : p.Within F m) : ChangesOnly F m (p.exec m) := applyAll_changesOnly within m

theorem mono (within : p.Within F m) (sub : ∀ x, F x → G x) : p.Within G m :=
  fun w member x covers => sub x (within w member x covers)

theorem seq (first : p.Within F m) (second : q.Within F (p.exec m)) : (p.seq q).Within F m := by
  intro w member
  rcases List.mem_append.mp member with early | late
  · exact first w early
  · exact second w late

theorem reading {α : Type} {f : Mem → α} {p : α → Prog} (within : (p (f m)).Within F m) :
    (Prog.reading f p).Within F m := within

theorem of_reading {α : Type} {f : Mem → α} {p : α → Prog} (within : (Prog.reading f p).Within F m) :
    (p (f m)).Within F m := within

theorem left (both : (p.seq q).Within F m) : p.Within F m :=
  fun w member => both w (List.mem_append_left _ member)

theorem right (both : (p.seq q).Within F m) : q.Within F (p.exec m) :=
  fun w member => both w (List.mem_append_right _ member)

/-- The last turn of a loop. -/
theorem last {start count : Nat} {body : Nat → Prog} (whole : (loop start count body).Within F m)
    (some : 0 < count) : ∃ m', (body (start + (count - 1))).Within F m' := by
  cases count with
  | zero => exact absurd some (lt_irrefl 0)
  | succ count => exact ⟨_, whole.right⟩

end Within

/-- No write made in `m` leaves `[lo, hi)`. -/
def inside (p : Prog) (lo hi : Nat) (m : Mem) : Bool := (p m).all (Write.inside lo hi)

theorem inside_iff {lo hi : Nat} :
    p.inside lo hi m = true ↔ p.Within (fun x => lo ≤ x ∧ x < hi) m := by
  rw [inside, List.all_eq_true]
  exact forall₂_congr fun w _ => Write.inside_iff

/-- **The loop rule**: an invariant indexed by the turn, and a bound on each turn. -/
theorem loop_rule {I : Nat → Mem → Prop} {body : Nat → Prog} {start count : Nat}
    (initial : I start m)
    (turn : ∀ i m, start ≤ i → i < start + count → I i m →
      (body i).Within F m ∧ I (i + 1) ((body i).exec m)) :
    (loop start count body).Within F m ∧ I (start + count) ((loop start count body).exec m) := by
  induction count with
  | zero => exact ⟨fun w member => absurd member List.not_mem_nil, initial⟩
  | succ count ih =>
      obtain ⟨within, holds⟩ := ih fun i m lower upper => turn i m lower (by omega)
      obtain ⟨last, next⟩ := turn (start + count) _ (by omega) (by omega) holds
      refine ⟨within.seq last, ?_⟩
      rw [exec_loop_succ]
      exact next

end Prog

end Itaro.Theory
