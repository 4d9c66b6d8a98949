import Mathlib.Data.Nat.Digits.Lemmas
import Mathlib.Data.UInt

/-! # Numerals

The numeral of a number in a base up to sixteen, its most significant digit
first. It has no zero in front unless it is the numeral of zero.
-/
namespace X86OsDev.Numeral

/-- The character of a digit: `0` to `9`, then `a` to `f`. -/
def digit (d : ℕ) : UInt8 := if d < 10 then UInt8.ofNat (48 + d) else UInt8.ofNat (97 + (d - 10))

def digitValue (c : UInt8) : ℕ := if c.toNat < 97 then c.toNat - 48 else c.toNat - 97 + 10

def numeral (b n : ℕ) : List UInt8 := if n = 0 then [digit 0] else (Nat.digits b n).reverse.map digit

/-- The number that a string of digits stands for. -/
def value (b : ℕ) (s : List UInt8) : ℕ := s.foldl (fun n c => n * b + digitValue c) 0

variable {b n d : ℕ}

theorem digit_toNat (hd : d < 16) : (digit d).toNat = if d < 10 then 48 + d else 97 + (d - 10) := by
  unfold digit
  split <;> exact UInt8.toNat_ofNat_of_lt (by simp only [UInt8.size]; omega)

theorem digit_ne_zero (hd : d < 16) : digit d ≠ 0 := by
  intro h
  have h1 := digit_toNat hd
  rw [h, UInt8.toNat_zero] at h1
  split at h1 <;> omega

theorem digitValue_digit (hd : d < 16) : digitValue (digit d) = d := by
  unfold digitValue
  rw [digit_toNat hd]
  by_cases h : d < 10
  · rw [if_pos h, if_pos (by omega)]
    omega
  · rw [if_neg h, if_neg (by omega)]
    omega

theorem numeral_of_lt (h : n < b) : numeral b n = [digit n] := by
  by_cases h0 : n = 0
  · subst h0
    rfl
  · rw [numeral, if_neg h0, Nat.digits_of_lt b n h0 h]
    rfl

/-- The last digit of a longer numeral. -/
theorem numeral_of_le (hb : 1 < b) (h : b ≤ n) : numeral b n = numeral b (n / b) ++ [digit (n % b)] := by
  have h0 : n ≠ 0 := by omega
  have h1 : n / b ≠ 0 := (Nat.div_pos h (by omega)).ne'
  rw [numeral, numeral, if_neg h0, if_neg h1, Nat.digits_eq_cons_digits_div hb h0, List.reverse_cons, List.map_append]
  rfl

/-- There is no zero in front. -/
theorem head_numeral (hb : 1 < b) (hb16 : b ≤ 16) (hn : n ≠ 0) : (numeral b n).head? ≠ some (digit 0) := by
  have hne : Nat.digits b n ≠ [] := Nat.digits_ne_nil_iff_ne_zero.mpr hn
  rw [numeral, if_neg hn, List.head?_map, List.head?_reverse, List.getLast?_eq_some_getLast hne, Option.map_some]
  intro h
  have hlt : (Nat.digits b n).getLast hne < 16 :=
    (Nat.digits_lt_base hb (List.getLast_mem hne)).trans_le hb16
  have hv := congrArg digitValue (Option.some.inj h)
  rw [digitValue_digit hlt, digitValue_digit (by omega)] at hv
  exact Nat.getLast_digit_ne_zero b hn hv

theorem value_append (s t : List UInt8) (b : ℕ) :
    value b (s ++ t) = t.foldl (fun n c => n * b + digitValue c) (value b s) := by
  rw [value, List.foldl_append]
  rfl

/-- Reading the numeral gives the number back. -/
theorem value_numeral (hb : 1 < b) (hb16 : b ≤ 16) (n : ℕ) : value b (numeral b n) = n := by
  induction n using Nat.strong_induction_on with
  | _ n ih =>
    rcases lt_or_ge n b with h | h
    · rw [numeral_of_lt h]
      simp [value, digitValue_digit (h.trans_le hb16)]
    · have hlast : digitValue (digit (n % b)) = n % b :=
        digitValue_digit ((Nat.mod_lt n (by omega)).trans_le hb16)
      rw [numeral_of_le hb h, value_append, ih _ (Nat.div_lt_self (by omega) hb), List.foldl_cons, List.foldl_nil, hlast]
      exact Nat.div_add_mod' n b

end X86OsDev.Numeral
