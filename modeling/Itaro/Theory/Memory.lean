/-
# Theory.Memory -- byte-addressed memory with little-endian words

A memory is a total map from addresses to bytes.  `load` and `store` move a
word of `w` bytes, least significant byte first; `u32`, `u64` and their setters
are the two widths C code uses for `int`, `uint32_t`, `size_t` and pointers.

Reasoning about a store has two halves.  At the stored address the value comes
back (`u32_setU32`, `u64_setU64`).  Everywhere else nothing happens, and this is
said once for a whole operation: `ChangesOnly F m m'` names the footprint `F`
outside which `m'` is `m`.  Footprints compose (`ChangesOnly.trans`) and any
load that misses the footprint reads what it read before (`ChangesOnly.load`).
-/
import Mathlib.Tactic.Common
import Mathlib.Tactic.Ring

namespace Itaro.Theory

set_option autoImplicit false

/-- A byte-addressed memory. -/
abbrev Mem := Nat → BitVec 8

/-- The `w`-byte little-endian word at `a`. -/
def load (m : Mem) (a : Nat) : Nat → Nat
  | 0 => 0
  | w + 1 => (m a).toNat + 256 * load m (a + 1) w

/-- Write the low `w` bytes of `v` at `a`, least significant byte first. -/
def store (m : Mem) (a w v : Nat) : Mem := fun x =>
  if a ≤ x ∧ x < a + w then BitVec.ofNat 8 (v / 256 ^ (x - a)) else m x

/-! ## Loads after stores -/

theorem load_congr {m m' : Mem} {a w : Nat} (same : ∀ x, a ≤ x → x < a + w → m' x = m x) :
    load m' a w = load m a w := by
  induction w generalizing a with
  | zero => rfl
  | succ w ih =>
      have tail := ih (a := a + 1) fun x lower upper => same x (by omega) (by omega)
      simp only [load, same a (by omega) (by omega), tail]

theorem load_lt (m : Mem) (a w : Nat) : load m a w < 256 ^ w := by
  induction w generalizing a with
  | zero => simp [load]
  | succ w ih =>
      have byte := (m a).isLt
      have tail := ih (a + 1)
      simp only [load, Nat.pow_succ]
      omega

/-- The tail of a stored word is the stored tail of the word. -/
theorem load_store_tail (m : Mem) (a w v : Nat) :
    load (store m a (w + 1) v) (a + 1) w = load (store m (a + 1) w (v / 256)) (a + 1) w := by
  refine load_congr fun x lower upper => ?_
  have index : x - a = (x - (a + 1)) + 1 := by omega
  simp only [store, if_pos (show a ≤ x ∧ x < a + (w + 1) by omega),
    if_pos (show a + 1 ≤ x ∧ x < a + 1 + w by omega), index, Nat.pow_succ]
  rw [Nat.mul_comm, Nat.div_div_eq_div_mul]

theorem load_store (m : Mem) (a w v : Nat) : load (store m a w v) a w = v % 256 ^ w := by
  induction w generalizing m a v with
  | zero => simp [load, Nat.mod_one]
  | succ w ih =>
      have head : (store m a (w + 1) v a).toNat = v % 256 := by
        simp [store]
      simp only [load, head, load_store_tail, ih]
      rw [Nat.pow_succ, Nat.mul_comm (256 ^ w) 256, Nat.mod_mul]

theorem load_div_mod (m : Mem) {a w i : Nat} (inside : i < w) :
    load m a w / 256 ^ i % 256 = (m (a + i)).toNat := by
  induction w generalizing a i with
  | zero => omega
  | succ w ih =>
      have byte := (m a).isLt
      cases i with
      | zero => simp only [load, Nat.pow_zero, Nat.div_one, Nat.add_zero]; omega
      | succ i =>
          have step : load m a (w + 1) / 256 ^ (i + 1) = load m (a + 1) w / 256 ^ i := by
            rw [Nat.pow_succ, Nat.mul_comm, ← Nat.div_div_eq_div_mul]
            congr 1
            simp only [load]
            omega
          rw [step, ih (by omega), Nat.add_right_comm, Nat.add_assoc]

/-- Storing the word that is already there changes nothing. -/
theorem store_load (m : Mem) (a w : Nat) : store m a w (load m a w) = m := by
  funext x
  simp only [store]
  split
  · rename_i inside
    have word := load_div_mod m (a := a) (show x - a < w by omega)
    rw [show a + (x - a) = x by omega] at word
    apply BitVec.eq_of_toNat_eq
    simpa using word
  · rfl

/-! ## Footprints -/

/-- `m'` is `m` outside the footprint `F`. -/
def ChangesOnly (F : Nat → Prop) (m m' : Mem) : Prop := ∀ x, ¬ F x → m' x = m x

namespace ChangesOnly

variable {F G : Nat → Prop} {m m' m'' : Mem}

theorem refl (F : Nat → Prop) (m : Mem) : ChangesOnly F m m := fun _ _ => rfl

theorem trans (first : ChangesOnly F m m') (second : ChangesOnly F m' m'') :
    ChangesOnly F m m'' := fun x outside => (second x outside).trans (first x outside)

theorem mono (changes : ChangesOnly F m m') (sub : ∀ x, F x → G x) : ChangesOnly G m m' :=
  fun x outside => changes x fun inside => outside (sub x inside)

theorem load {a w : Nat} (changes : ChangesOnly F m m')
    (misses : ∀ x, a ≤ x → x < a + w → ¬ F x) : Theory.load m' a w = Theory.load m a w :=
  load_congr fun x lower upper => changes x (misses x lower upper)

end ChangesOnly

/-- The addresses `a, …, a + w - 1`. -/
def Span (a w : Nat) : Nat → Prop := fun x => a ≤ x ∧ x < a + w

theorem store_changesOnly (m : Mem) (a w v : Nat) : ChangesOnly (Span a w) m (store m a w v) :=
  fun _ outside => if_neg outside

theorem load_store_of_disjoint (m : Mem) {a w v b u : Nat} (apart : b + u ≤ a ∨ a + w ≤ b) :
    load (store m a w v) b u = load m b u :=
  (store_changesOnly m a w v).load fun x lower upper inside => by
    simp only [Span] at inside; omega

/-! ## The machine widths -/

def setU8 (m : Mem) (a : Nat) (b : BitVec 8) : Mem := store m a 1 b.toNat

def u32 (m : Mem) (a : Nat) : BitVec 32 := BitVec.ofNat 32 (load m a 4)

def u64 (m : Mem) (a : Nat) : BitVec 64 := BitVec.ofNat 64 (load m a 8)

def setU32 (m : Mem) (a : Nat) (v : BitVec 32) : Mem := store m a 4 v.toNat

def setU64 (m : Mem) (a : Nat) (v : BitVec 64) : Mem := store m a 8 v.toNat

theorem u32_setU32 (m : Mem) (a : Nat) (v : BitVec 32) : u32 (setU32 m a v) a = v := by
  apply BitVec.eq_of_toNat_eq
  have bound := v.isLt
  simp only [u32, setU32, load_store, BitVec.toNat_ofNat]
  omega

theorem u64_setU64 (m : Mem) (a : Nat) (v : BitVec 64) : u64 (setU64 m a v) a = v := by
  apply BitVec.eq_of_toNat_eq
  have bound := v.isLt
  simp only [u64, setU64, load_store, BitVec.toNat_ofNat]
  omega

/-- A word written byte by byte. -/
theorem u64_of_bytes {m : Mem} {a v : Nat} (small : v < 2 ^ 64)
    (bytes : ∀ i < 8, m (a + i) = BitVec.ofNat 8 (v / 256 ^ i)) : (u64 m a).toNat = v := by
  have stored : load m a 8 = load (store m a 8 v) a 8 := by
    refine load_congr fun x lower upper => ?_
    rw [store, if_pos ⟨lower, upper⟩, ← bytes (x - a) (by omega), Nat.add_sub_cancel' lower]
  rw [u64, stored, load_store, BitVec.toNat_ofNat]
  omega

theorem setU64_u64 (m : Mem) (a : Nat) : setU64 m a (u64 m a) = m := by
  have bound := load_lt m a 8
  have whole : load m a 8 % 2 ^ 64 = load m a 8 := Nat.mod_eq_of_lt (by simpa using bound)
  simp only [setU64, u64, BitVec.toNat_ofNat, whole, store_load]

theorem setU8_apply (m : Mem) (a : Nat) (b : BitVec 8) (x : Nat) :
    setU8 m a b x = if x = a then b else m x := by
  by_cases same : x = a
  · subst same; simp [setU8, store]
  · rw [if_neg same, setU8, store, if_neg (by omega)]

theorem setU8_changesOnly (m : Mem) (a : Nat) (b : BitVec 8) :
    ChangesOnly (Span a 1) m (setU8 m a b) := store_changesOnly m a 1 b.toNat

theorem setU32_changesOnly (m : Mem) (a : Nat) (v : BitVec 32) :
    ChangesOnly (Span a 4) m (setU32 m a v) := store_changesOnly m a 4 v.toNat

theorem setU64_changesOnly (m : Mem) (a : Nat) (v : BitVec 64) :
    ChangesOnly (Span a 8) m (setU64 m a v) := store_changesOnly m a 8 v.toNat

/-- `memset(a, b, n)` -/
def fill (m : Mem) (a n : Nat) (b : BitVec 8) : Mem := fun x =>
  if a ≤ x ∧ x < a + n then b else m x

theorem fill_changesOnly (m : Mem) (a n : Nat) (b : BitVec 8) :
    ChangesOnly (Span a n) m (fill m a n b) := fun _ outside => if_neg outside

theorem load_eq_zero {m : Mem} {a w : Nat} (zero : ∀ x, a ≤ x → x < a + w → m x = 0#8) :
    load m a w = 0 := by
  induction w generalizing a with
  | zero => rfl
  | succ w ih =>
      rw [load, zero a (by omega) (by omega),
        ih fun x lower upper => zero x (by omega) (by omega)]
      rfl

namespace ChangesOnly

variable {F : Nat → Prop} {m m' : Mem} {a : Nat}

theorem u32 (changes : ChangesOnly F m m') (misses : ∀ x, a ≤ x → x < a + 4 → ¬ F x) :
    Theory.u32 m' a = Theory.u32 m a := by
  simp only [Theory.u32, changes.load misses]

theorem u64 (changes : ChangesOnly F m m') (misses : ∀ x, a ≤ x → x < a + 8 → ¬ F x) :
    Theory.u64 m' a = Theory.u64 m a := by
  simp only [Theory.u64, changes.load misses]

end ChangesOnly

/-! ## The same operation on two memories -/

namespace ChangesOnly

variable {D : Nat → Prop} {m m' : Mem}

/-- A store brings two memories no further apart. -/
theorem store (changes : ChangesOnly D m m') (a w v : Nat) :
    ChangesOnly D (Theory.store m a w v) (Theory.store m' a w v) := by
  intro x outside
  simp only [Theory.store, changes x outside]

/-- The bytes of a fill are the same afterwards. -/
theorem fill (changes : ChangesOnly D m m') (a n : Nat) (b : BitVec 8) :
    ChangesOnly (fun x => D x ∧ ¬ Span a n x) (Theory.fill m a n b) (Theory.fill m' a n b) := by
  intro x outside
  simp only [Theory.fill]
  split
  case isTrue inside => rfl
  case isFalse apart => exact changes x fun differs => outside ⟨differs, apart⟩

end ChangesOnly

section Disjoint

variable (m : Mem) {a b : Nat}

theorem u32_setU32_of_disjoint (v : BitVec 32) (apart : b + 4 ≤ a ∨ a + 4 ≤ b) :
    u32 (setU32 m a v) b = u32 m b := by
  simp only [u32, setU32, load_store_of_disjoint m apart]

theorem u32_setU64_of_disjoint (v : BitVec 64) (apart : b + 4 ≤ a ∨ a + 8 ≤ b) :
    u32 (setU64 m a v) b = u32 m b := by
  simp only [u32, setU64, load_store_of_disjoint m apart]

theorem u64_setU32_of_disjoint (v : BitVec 32) (apart : b + 8 ≤ a ∨ a + 4 ≤ b) :
    u64 (setU32 m a v) b = u64 m b := by
  simp only [u64, setU32, load_store_of_disjoint m apart]

theorem u64_setU64_of_disjoint (v : BitVec 64) (apart : b + 8 ≤ a ∨ a + 8 ≤ b) :
    u64 (setU64 m a v) b = u64 m b := by
  simp only [u64, setU64, load_store_of_disjoint m apart]

end Disjoint

end Itaro.Theory
