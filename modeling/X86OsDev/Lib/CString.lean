import X86OsDev.Lib.Memory
import Mathlib.Data.List.GetD

/-! # Strings in memory

Bytes at an address, and strings that end at the first zero byte. A string
argument is an address or a literal, which no store reaches.
-/
namespace X86OsDev.Memory

/-- The bytes of a list lie at an address. -/
def BytesAt (m : Mem) (a : ℕ) (s : List UInt8) : Prop := ∀ i (h : i < s.length), m (a + i) = s[i]

section Bytes
variable {m m' : Mem} {a : ℕ} {s t : List UInt8}

theorem bytesAt_nil : BytesAt m a [] := fun _ h => absurd h (Nat.not_lt_zero _)

theorem bytesAt_append : BytesAt m a (s ++ t) ↔ BytesAt m a s ∧ BytesAt m (a + s.length) t := by
  constructor
  · intro h
    constructor
    · intro i hi
      rw [h i (by rw [List.length_append]; omega), List.getElem_append_left hi]
    · intro i hi
      rw [Nat.add_assoc, h (s.length + i) (by rw [List.length_append]; omega),
        List.getElem_append_right (Nat.le_add_right _ _)]
      simp only [Nat.add_sub_cancel_left]
  · rintro ⟨h1,h2⟩ i hi
    rw [List.length_append] at hi
    by_cases hs : i < s.length
    · rw [List.getElem_append_left hs, h1 i hs]
    · have h3 := h2 (i - s.length) (by omega)
      rw [show a + s.length + (i - s.length) = a + i by omega] at h3
      rw [h3, List.getElem_append_right (by omega)]

theorem BytesAt.congr (h : BytesAt m a s) (hm : SameOn m' m a s.length) : BytesAt m' a s := by
  intro i hi
  rw [hm _ (by omega) (by omega), h i hi]

/-- The elements of a list of byte strings follow each other. -/
theorem BytesAt.flatMap {α : Type} {f : α → List UInt8} {l : List α} (h : BytesAt m a (l.flatMap f)) (i : ℕ)
    (hi : i < l.length) : BytesAt m (a + ((l.take i).map fun x => (f x).length).sum) (f l[i]) := by
  induction l generalizing a i with
  | nil => exact absurd hi (Nat.not_lt_zero _)
  | cons x l ih =>
    rw [List.flatMap_cons] at h
    obtain ⟨h1,h2⟩ := bytesAt_append.mp h
    cases i with
    | zero => simpa using h1
    | succ i =>
      have h3 := ih h2 i (Nat.lt_of_succ_lt_succ hi)
      simpa [Nat.add_assoc] using h3

end Bytes

section Copies
variable (m : Mem) (a : ℕ) (src : ℕ → UInt8)

theorem copy_zero : copy m a 0 src = m := by
  funext x
  simp only [copy]
  rw [if_neg (by omega)]

/-- One byte more. -/
theorem store8_copy (n : ℕ) : store8 (copy m a n src) (a + n) (src n).toNat = copy m a (n + 1) src := by
  funext x
  simp only [store8, copy, UInt8.ofNat_toNat]
  by_cases hx : x = a + n
  · subst hx
    rw [if_pos rfl, if_pos (by omega), Nat.add_sub_cancel_left]
  · by_cases hin : a ≤ x ∧ x < a + n
    · rw [if_neg hx, if_pos hin, if_pos (by omega)]
    · rw [if_neg hx, if_neg hin, if_neg (by omega)]

theorem bytesAt_copy (s : List UInt8) (d : UInt8) : BytesAt (copy m a s.length fun k => s.getD k d) a s := by
  intro i hi
  simp only [copy]
  rw [if_pos (by omega), Nat.add_sub_cancel_left, List.getD_eq_getElem s d hi]

theorem copy_changedIn (n : ℕ) : ChangedIn m (copy m a n src) a n :=
  .of_sameOn fun _ _ h => copy_sameOn m h

end Copies

/-- A string that is passed to a function. -/
inductive Str
  | addr (a : ℕ)
  | lit (s : List UInt8)

/-- `str[i]` -/
def Str.byte (m : Mem) : Str → ℕ → UInt8
  | .addr a, i => m (a + i)
  | .lit s, i => s.getD i 0

/-- The `n` bytes of a string lie apart from the `k` bytes at `dest`. -/
def Str.Clear (x : Str) (n dest k : ℕ) : Prop :=
  match x with
  | .addr a => Apart dest k a n
  | .lit _ => True

/-- The string ends with the first zero byte. -/
structure StringAt (m : Mem) (x : Str) (s : List UInt8) : Prop where
  bytes : ∀ i (h : i < s.length), x.byte m i = s[i]
  stop : x.byte m s.length = 0
  nonzero : 0 ∉ s

namespace StringAt
variable {m m' : Mem} {x : Str} {a : ℕ} {s t : List UInt8}

theorem lit (m : Mem) (hs : 0 ∉ s) : StringAt m (.lit s) s where
  bytes i h := by simp [Str.byte, h]
  stop := by simp [Str.byte]
  nonzero := hs

theorem byte_ne (h : StringAt m x s) {i : ℕ} (hi : i < s.length) : x.byte m i ≠ 0 := by
  rw [h.bytes i hi]
  exact fun h0 => h.nonzero (h0 ▸ List.getElem_mem hi)

theorem bytesAt (h : StringAt m (.addr a) s) : BytesAt m a s := h.bytes

theorem congr (h : StringAt m (.addr a) s) (hm : SameOn m' m a (s.length + 1)) : StringAt m' (.addr a) s where
  bytes i hi := (hm _ (by omega) (by omega)).trans (h.bytes i hi)
  stop := (hm _ (by omega) (by omega)).trans h.stop
  nonzero := h.nonzero

/-- Bytes in front of a string. -/
theorem append (hs : BytesAt m a s) (h0 : 0 ∉ s) (ht : StringAt m (.addr (a + s.length)) t) :
    StringAt m (.addr a) (s ++ t) where
  bytes := bytesAt_append.mpr ⟨hs,ht.bytes⟩
  stop := by
    have := ht.stop
    simp only [Str.byte] at this ⊢
    rwa [List.length_append, ← Nat.add_assoc]
  nonzero := by simp [h0, ht.nonzero]

/-- Up to a zero byte there is a string. -/
theorem exists_of_zero (m : Mem) (n a : ℕ) (h : m (a + n) = 0) : ∃ s, StringAt m (.addr a) s ∧ s.length ≤ n := by
  induction n generalizing a with
  | zero => exact ⟨[],⟨fun _ h => absurd h (Nat.not_lt_zero _),h,by simp⟩,le_rfl⟩
  | succ n ih =>
    by_cases h0 : m a = 0
    · exact ⟨[],⟨fun _ h => absurd h (Nat.not_lt_zero _),h0,by simp⟩,Nat.zero_le _⟩
    · obtain ⟨s,hs,hlen⟩ := ih (a + 1) (by rwa [show a + 1 + n = a + (n + 1) by omega])
      have hone : BytesAt m a [m a] := by
        intro i hi
        obtain rfl : i = 0 := by simpa using hi
        rfl
      refine ⟨[m a] ++ s,.append hone ?_ hs,?_⟩
      · simpa using fun h => h0 h.symm
      · rw [List.length_append, List.length_singleton]
        omega

end StringAt
end X86OsDev.Memory
