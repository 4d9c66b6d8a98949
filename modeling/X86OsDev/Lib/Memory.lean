import Mathlib.Data.Nat.Basic
import Mathlib.Data.UInt
import Mathlib.Tactic.Common

/-! # Byte memories

A memory is a function from addresses to bytes. Words are little endian and
read as natural numbers. The frame lemmas come from one fact: a store changes
only the bytes of its range, and a load depends only on the bytes of its range.
-/
namespace X86OsDev.Memory

abbrev Mem := ℕ → UInt8

def load8 (m : Mem) (a : ℕ) : ℕ := (m a).toNat
def load16 (m : Mem) (a : ℕ) : ℕ := load8 m a + 2 ^ 8 * load8 m (a + 1)
def load32 (m : Mem) (a : ℕ) : ℕ := load16 m a + 2 ^ 16 * load16 m (a + 2)

def store8 (m : Mem) (a v : ℕ) : Mem := fun x => if x = a then UInt8.ofNat v else m x
def store16 (m : Mem) (a v : ℕ) : Mem := store8 (store8 m a v) (a + 1) (v / 2 ^ 8)
def store32 (m : Mem) (a v : ℕ) : Mem := store16 (store16 m a v) (a + 2) (v / 2 ^ 16)

/-- `memset` -/
def fill (m : Mem) (a n : ℕ) (b : UInt8) : Mem := fun x => if a ≤ x ∧ x < a + n then b else m x

/-- `memmove` of bytes that are given by their offset. -/
def copy (m : Mem) (a n : ℕ) (src : ℕ → UInt8) : Mem := fun x =>
  if a ≤ x ∧ x < a + n then src (x - a) else m x

/-- Two memories agree on the `n` bytes at `a`. -/
def SameOn (m m' : Mem) (a n : ℕ) : Prop := ∀ x, a ≤ x → x < a + n → m x = m' x

/-- Two ranges have no byte in common. -/
def Apart (a n b k : ℕ) : Prop := a + n ≤ b ∨ b + k ≤ a

section Loads
variable {m m' : Mem} {a : ℕ}

theorem SameOn.mono {b n k : ℕ} (h : SameOn m m' a n) (hb : a ≤ b) (hk : b + k ≤ a + n) :
    SameOn m m' b k := fun x h1 h2 => h x (by omega) (by omega)

theorem SameOn.symm {n : ℕ} (h : SameOn m m' a n) : SameOn m' m a n :=
  fun x h1 h2 => (h x h1 h2).symm

theorem load8_congr (h : SameOn m m' a 1) : load8 m a = load8 m' a := by
  unfold load8
  rw [h a le_rfl (by omega)]

theorem load16_congr (h : SameOn m m' a 2) : load16 m a = load16 m' a := by
  unfold load16
  rw [load8_congr (h.mono le_rfl (by omega)), load8_congr (h.mono (by omega) (by omega))]

theorem load32_congr (h : SameOn m m' a 4) : load32 m a = load32 m' a := by
  unfold load32
  rw [load16_congr (h.mono le_rfl (by omega)), load16_congr (h.mono (by omega) (by omega))]

theorem load8_lt (m : Mem) (a : ℕ) : load8 m a < 2 ^ 8 := (m a).toNat_lt

theorem load16_lt (m : Mem) (a : ℕ) : load16 m a < 2 ^ 16 := by
  have h1 := load8_lt m a
  have h2 := load8_lt m (a + 1)
  unfold load16
  omega

theorem load32_lt (m : Mem) (a : ℕ) : load32 m a < 2 ^ 32 := by
  have h1 := load16_lt m a
  have h2 := load16_lt m (a + 2)
  unfold load32
  omega

end Loads

section Stores
variable (m : Mem) {a : ℕ} (v : ℕ)

theorem store8_sameOn {b k : ℕ} (h : Apart a 1 b k) : SameOn (store8 m a v) m b k := by
  intro x h1 h2
  have : x ≠ a := by unfold Apart at h; omega
  simp [store8, this]

theorem store16_sameOn {b k : ℕ} (h : Apart a 2 b k) : SameOn (store16 m a v) m b k := by
  intro x h1 h2
  unfold Apart at h
  unfold store16
  rw [store8_sameOn _ _ (b := x) (k := 1) (by unfold Apart; omega) x le_rfl (by omega),
    store8_sameOn _ _ (b := x) (k := 1) (by unfold Apart; omega) x le_rfl (by omega)]

theorem store32_sameOn {b k : ℕ} (h : Apart a 4 b k) : SameOn (store32 m a v) m b k := by
  intro x h1 h2
  unfold Apart at h
  unfold store32
  rw [store16_sameOn _ _ (b := x) (k := 1) (by unfold Apart; omega) x le_rfl (by omega),
    store16_sameOn _ _ (b := x) (k := 1) (by unfold Apart; omega) x le_rfl (by omega)]

theorem fill_sameOn {n b k : ℕ} {c : UInt8} (h : Apart a n b k) : SameOn (fill m a n c) m b k := by
  intro x h1 h2
  unfold Apart at h
  have : ¬ (a ≤ x ∧ x < a + n) := by omega
  simp [fill, this]

theorem copy_sameOn {n b k : ℕ} {src : ℕ → UInt8} (h : Apart a n b k) :
    SameOn (copy m a n src) m b k := by
  intro x h1 h2
  unfold Apart at h
  have : ¬ (a ≤ x ∧ x < a + n) := by omega
  simp [copy, this]

theorem load8_store8 (a : ℕ) : load8 (store8 m a v) a = v % 2 ^ 8 := by
  simp [load8, store8]

theorem load16_store16 (a : ℕ) : load16 (store16 m a v) a = v % 2 ^ 16 := by
  unfold load16 store16
  rw [load8_store8, load8_congr (store8_sameOn _ _ (.inr (by omega))), load8_store8]
  omega

theorem load32_store32 (a : ℕ) : load32 (store32 m a v) a = v % 2 ^ 32 := by
  unfold load32 store32
  rw [load16_store16, load16_congr (store16_sameOn _ _ (.inr (by omega))), load16_store16]
  omega

theorem load32_fill_zero {n b : ℕ} (h1 : a ≤ b) (h2 : b + 4 ≤ a + n) : load32 (fill m a n 0) b = 0 := by
  have h : SameOn (fill m a n 0) (fun _ => 0) b 4 := by
    intro x hx1 hx2
    have : a ≤ x ∧ x < a + n := by omega
    simp [fill, this]
  rw [load32_congr h]
  rfl

end Stores

/-- A word is unchanged by a store apart from it. -/
theorem load32_store32_of_apart (m : Mem) {a b : ℕ} (v : ℕ) (h : Apart a 4 b 4) :
    load32 (store32 m a v) b = load32 m b := load32_congr (store32_sameOn m v h)

/-- A memory differs from another one only on the `n` bytes at `a`. -/
def ChangedIn (m m' : Mem) (a n : ℕ) : Prop := ∀ x, ¬ (a ≤ x ∧ x < a + n) → m' x = m x

section Changes
variable {m m' m'' : Mem} {a n : ℕ}

theorem ChangedIn.refl (m : Mem) (a n : ℕ) : ChangedIn m m a n := fun _ _ => rfl

theorem ChangedIn.trans (h : ChangedIn m m' a n) (h' : ChangedIn m' m'' a n) :
    ChangedIn m m'' a n := fun x hx => (h' x hx).trans (h x hx)

theorem ChangedIn.mono {b k : ℕ} (h : ChangedIn m m' b k) (hb : a ≤ b) (hk : b + k ≤ a + n) :
    ChangedIn m m' a n := fun x hx => h x (by omega)

theorem ChangedIn.sameOn {b k : ℕ} (h : ChangedIn m m' a n) (hb : Apart a n b k) :
    SameOn m' m b k := by
  intro x h1 h2
  unfold Apart at hb
  exact h x (by omega)

theorem ChangedIn.of_sameOn (h : ∀ b k, Apart a n b k → SameOn m' m b k) : ChangedIn m m' a n := by
  intro x hx
  exact h x 1 (by unfold Apart; omega) x le_rfl (by omega)

theorem store8_changedIn (m : Mem) (a v : ℕ) : ChangedIn m (store8 m a v) a 1 :=
  .of_sameOn fun _ _ h => store8_sameOn m v h

theorem store32_changedIn (m : Mem) (a v : ℕ) : ChangedIn m (store32 m a v) a 4 :=
  .of_sameOn fun _ _ h => store32_sameOn m v h

end Changes

/-- The words of a list at successive addresses. -/
def storeWords (m : Mem) (a : ℕ) : List ℕ → Mem
  | [] => m
  | w :: ws => storeWords (store32 m a w) (a + 4) ws

theorem storeWords_sameOn {m : Mem} {a b k : ℕ} (ws : List ℕ) (h : Apart a (4 * ws.length) b k) :
    SameOn (storeWords m a ws) m b k := by
  induction ws generalizing m a with
  | nil => exact fun _ _ _ => rfl
  | cons w ws ih =>
    intro x h1 h2
    unfold Apart at h
    rw [List.length_cons] at h
    rw [storeWords, ih (m := store32 m a w) (by unfold Apart; omega) x h1 h2]
    exact store32_sameOn m w (by unfold Apart; omega) x h1 h2

theorem load32_storeWords {m : Mem} {a k : ℕ} (ws : List ℕ) (h : k < ws.length) :
    load32 (storeWords m a ws) (a + 4 * k) = ws[k] % 2 ^ 32 := by
  induction ws generalizing m a k with
  | nil => exact absurd h (Nat.not_lt_zero _)
  | cons w ws ih =>
    rw [storeWords]
    cases k with
    | zero =>
      rw [load32_congr (storeWords_sameOn ws (by unfold Apart; omega)), Nat.mul_zero, Nat.add_zero,
        load32_store32, List.getElem_cons_zero]
    | succ k =>
      rw [show a + 4 * (k + 1) = a + 4 + 4 * k by omega, ih (Nat.lt_of_succ_lt_succ h),
        List.getElem_cons_succ]

theorem load16_fill_zero {m : Mem} {a n b : ℕ} (h1 : a ≤ b) (h2 : b + 2 ≤ a + n) :
    load16 (fill m a n 0) b = 0 := by
  have h : SameOn (fill m a n 0) (fun _ => 0) b 2 := by
    intro x hx1 hx2
    have : a ≤ x ∧ x < a + n := by omega
    simp [fill, this]
  rw [load16_congr h]
  rfl

/-- The signed value of a 16 bit word (`short`). -/
def sint16 (v : ℕ) : ℤ := if v < 2 ^ 15 then v else (v : ℤ) - 2 ^ 16

/-- The signed value of a 32 bit word (`int`). -/
def sint32 (v : ℕ) : ℤ := if v < 2 ^ 31 then v else (v : ℤ) - 2 ^ 32

theorem sint32_of_lt {v : ℕ} (h : v < 2 ^ 31) : sint32 v = v := if_pos h

/-- The value of an unsigned 32 bit expression. -/
def u32 (n : ℕ) : ℕ := n % 2 ^ 32

/-- Unsigned 32 bit subtraction. -/
def sub32 (a b : ℕ) : ℕ := if b ≤ a then a - b else a + 2 ^ 32 - b

theorem u32_of_lt {n : ℕ} (h : n < 2 ^ 32) : u32 n = n := Nat.mod_eq_of_lt h

theorem sub32_of_le {a b : ℕ} (h : b ≤ a) : sub32 a b = a - b := if_pos h

/-- A word of a memory that is seen from another base. -/
theorem load32_shift (m : Mem) (a b : ℕ) : load32 (fun x => m (a + x)) b = load32 m (a + b) := by
  unfold load32 load16 load8
  simp only [Nat.add_assoc]

theorem load32_eq_zero {m : Mem} {a : ℕ} (h : load32 m a = 0) : m a = 0 := by
  unfold load32 load16 load8 at h
  exact UInt8.toNat_inj.mp (by simp; omega)

/-- The memory with these words. -/
def ofWords (w : ℕ → ℕ) : Mem := fun x => UInt8.ofNat (w (x / 4) / 2 ^ (8 * (x % 4)))

theorem load8_ofWords (w : ℕ → ℕ) {a k : ℕ} (h : a = 4 * k) : load8 (ofWords w) a = w k % 2 ^ 8 := by
  unfold load8 ofWords
  rw [show a / 4 = k by omega, show a % 4 = 0 by omega]
  simp

theorem load32_ofWords (w : ℕ → ℕ) {a k : ℕ} (h : a = 4 * k) : load32 (ofWords w) a = w k % 2 ^ 32 := by
  have hbyte : ∀ i < 4, load8 (ofWords w) (a + i) = w k / 2 ^ (8 * i) % 2 ^ 8 := by
    intro i hi
    unfold load8 ofWords
    rw [show (a + i) / 4 = k by omega, show (a + i) % 4 = i by omega]
    simp
  have h0 := hbyte 0 (by omega)
  have h1 := hbyte 1 (by omega)
  have h2 := hbyte 2 (by omega)
  have h3 := hbyte 3 (by omega)
  unfold load32 load16
  rw [Nat.add_zero] at h0
  rw [h0, h1, h2, show a + 2 + 1 = a + 3 from rfl, h3]
  omega

attribute [irreducible] load16 load32 store16 store32

end X86OsDev.Memory
