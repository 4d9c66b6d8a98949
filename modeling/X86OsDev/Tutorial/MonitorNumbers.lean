import X86OsDev.Tutorial.Monitor

/-! # The numbers that the monitor prints

`monitor_write_hex` drops the zeros in front as it goes. `monitor_write_dec` takes
the digits of a signed copy of its argument, last digit first, and turns them around.
-/
namespace X86OsDev.Tutorial.Monitor
open Numeral

section Print
variable {σ : Type} (put : σ → UInt8 → σ)

/-- A string is put up to its end. -/
theorem monitorWrite_append (s : σ) {cs : List UInt8} (hcs : 0 ∉ cs) (rest : List UInt8) :
    monitorWrite put s (cs ++ 0 :: rest) = cs.foldl put s := by
  induction cs generalizing s with
  | nil => simp [monitorWrite]
  | cons c cs ih =>
    have hc : c ≠ 0 := fun h => hcs (h ▸ List.mem_cons_self)
    rw [List.cons_append, monitorWrite, if_neg hc, ih _ fun h => hcs (List.mem_cons_of_mem c h), List.foldl_cons]

theorem putHex_eq (s : σ) (d : ℕ) : putHex put s d = put s (digit d) := by
  unfold putHex digit
  by_cases h : d < 10
  · rw [if_neg (by omega), if_pos h, Nat.add_comm]
  · rw [if_pos (by omega), if_neg h, Nat.add_comm]

theorem nibble_toNat (n : BitVec 32) (i : ℕ) : (n >>> i &&& 0xF).toNat = n.toNat / 2 ^ i % 16 := by
  rw [BitVec.toNat_and, BitVec.toNat_ushiftRight, Nat.shiftRight_eq_div_pow]
  exact Nat.and_two_pow_sub_one_eq_mod _ 4

/-- What the loop has put once it is down to a shift: the numeral of the bits above, if there are any. -/
def putAbove (s : σ) (n : ℕ) : σ := if n = 0 then s else (numeral 16 n).foldl put s

/-- One round of the loop puts one digit more. -/
theorem putAbove_step (s : σ) (m d : ℕ) (hd : d < 16) :
    putAbove put s (m * 16 + d) = if d = 0 ∧ m = 0 then putAbove put s m else put (putAbove put s m) (digit d) := by
  unfold putAbove
  by_cases hm : m = 0
  · subst hm
    by_cases h0 : d = 0
    · simp [h0]
    · rw [if_neg (by omega), if_neg (by omega), if_pos rfl, Nat.zero_mul, Nat.zero_add, numeral_of_lt hd]
      rfl
  · have hdiv : (m * 16 + d) / 16 = m := by omega
    have hmod : (m * 16 + d) % 16 = d := by omega
    rw [if_neg (by omega), if_neg (by omega), if_neg hm, numeral_of_le (by omega) (by omega), hdiv, hmod,
      List.foldl_append]
    rfl

/-- The shifts from `4 * k` down. -/
def shifts : ℕ → List ℕ
  | 0 => []
  | k + 1 => 4 * (k + 1) :: shifts k

/-- The loop goes from the bits above one shift to the bits above the last one. -/
theorem hexLoop_spec (n : BitVec 32) (s : σ) (k : ℕ) :
    hexLoop put n (decide (n.toNat / 2 ^ (4 * (k + 1)) = 0)) (putAbove put s (n.toNat / 2 ^ (4 * (k + 1)))) (shifts k) =
      putAbove put s (n.toNat / 2 ^ 4) := by
  induction k with
  | zero => rfl
  | succ k ih =>
    set m := n.toNat / 2 ^ (4 * (k + 1 + 1)) with hm
    have hlow : n.toNat / 2 ^ (4 * (k + 1)) / 16 = m := by
      rw [hm, Nat.div_div_eq_div_mul, show 4 * (k + 1 + 1) = 4 * (k + 1) + 4 by omega, Nat.pow_add]
    set d := n.toNat / 2 ^ (4 * (k + 1)) % 16 with hd
    have hsplit : n.toNat / 2 ^ (4 * (k + 1)) = m * 16 + d := by omega
    have hlt : d < 16 := Nat.mod_lt _ (by omega)
    rw [hsplit, putAbove_step put s m d hlt] at ih
    simp only [shifts, hexLoop]
    rw [nibble_toNat, ← hd]
    by_cases hz : d = 0 ∧ m = 0
    · have hstay : decide (m * 16 + d = 0) = decide (m = 0) := decide_eq_decide.mpr (by omega)
      rw [if_pos ⟨hz.1,decide_eq_true hz.2⟩, ← hstay]
      rwa [if_pos hz] at ih
    · have hgo : decide (m * 16 + d = 0) = false := decide_eq_false (by omega)
      rw [if_neg (by simpa using hz), putHex_eq]
      rwa [if_neg hz, hgo] at ih

/-- `monitor_write_hex` puts `0x` and the numeral. -/
theorem monitorWriteHex_eq (s : σ) (n : BitVec 32) :
    monitorWriteHex put s n = (48 :: 120 :: numeral 16 n.toNat).foldl put s := by
  have hloop := hexLoop_spec put n (put (put s 48) 120) 7
  have htop : n.toNat / 2 ^ (4 * (7 + 1)) = 0 := Nat.div_eq_of_lt n.isLt
  rw [htop] at hloop
  have hprefix : monitorWrite put s [48,120,0] = put (put s 48) 120 := rfl
  have hlast := nibble_toNat n 0
  rw [BitVec.ushiftRight_zero, Nat.pow_zero, Nat.div_one] at hlast
  simp only [monitorWriteHex, hprefix]
  rw [putHex_eq, hlast]
  change put (hexLoop put n true (put (put s 48) 120) (shifts 7)) _ = _
  rw [show hexLoop put n true (put (put s 48) 120) (shifts 7) = _ from hloop, List.foldl_cons, List.foldl_cons, putAbove]
  by_cases h : n.toNat / 2 ^ 4 = 0
  · have hlt : n.toNat < 16 := by omega
    rw [if_pos h, numeral_of_lt hlt, Nat.mod_eq_of_lt hlt]
    rfl
  · rw [if_neg h, numeral_of_le (by omega) (show 16 ≤ n.toNat by omega), List.foldl_append]
    rfl

/-- The first loop leaves the digits in `c`, last digit first. -/
theorem decLoop_spec (k m : ℕ) (c : ℕ → UInt8) (i : ℕ) (hk : (Nat.digits 10 m).length ≤ k) :
    (decLoop k m c i).2 = i + (Nat.digits 10 m).length ∧ (∀ j < i, (decLoop k m c i).1 j = c j) ∧
      ∀ j (h : j < (Nat.digits 10 m).length), (decLoop k m c i).1 (i + j) = digit (Nat.digits 10 m)[j] := by
  induction k generalizing m c i with
  | zero =>
    have hlen := Nat.le_zero.mp hk
    exact ⟨by rw [hlen]; rfl,fun _ _ => rfl,fun j h => absurd h (by omega)⟩
  | succ k ih =>
    by_cases hm : m = 0
    · subst hm
      exact ⟨rfl,fun _ _ => rfl,fun j h => absurd h (Nat.not_lt_zero j)⟩
    · have hdigits := Nat.digits_eq_cons_digits_div (b := 10) (by omega) hm
      have hlen : (Nat.digits 10 m).length = (Nat.digits 10 (m / 10)).length + 1 := by rw [hdigits, List.length_cons]
      have hchar : UInt8.ofNat (48 + (m : ℤ).tmod 10).toNat = digit (m % 10) := by
        rw [show (m : ℤ).tmod 10 = ((m % 10 : ℕ) : ℤ) from rfl, digit, if_pos (by omega)]
        congr 1
      have hstep : decLoop (k + 1) m c i =
          decLoop k (m / 10 : ℕ) (Function.update c i (digit (m % 10))) (i + 1) := by
        rw [decLoop, if_pos (by omega), hchar]
        rfl
      obtain ⟨h1,h2,h3⟩ := ih (m / 10) (Function.update c i (digit (m % 10))) (i + 1) (by omega)
      rw [hstep]
      refine ⟨by omega,fun j hj => ?_,fun j hj => ?_⟩
      · rw [h2 j (by omega), Function.update_of_ne (by omega)]
      · cases j with
        | zero =>
          have hfirst := h2 i (by omega)
          rw [Function.update_self] at hfirst
          simp only [hdigits, List.getElem_cons_zero]
          exact hfirst
        | succ j =>
          rw [show i + (j + 1) = i + 1 + j by omega, h3 j (by omega)]
          simp only [hdigits, List.getElem_cons_succ]

/-- The second loop copies `c` back to front. -/
theorem reverseLoop_spec (c : ℕ → UInt8) (i j : ℕ) (c2 : ℕ → UInt8) (k : ℕ) :
    reverseLoop c i j c2 k = if k < i then c (j + (i - 1 - k)) else c2 k := by
  induction i generalizing j c2 with
  | zero => rfl
  | succ i ih =>
    rw [reverseLoop, ih]
    by_cases hk : k < i
    · rw [if_pos hk, if_pos (by omega), show j + 1 + (i - 1 - k) = j + (i + 1 - 1 - k) by omega]
    · by_cases hi : k = i
      · subst hi
        rw [if_neg hk, if_pos (by omega), Function.update_self, Nat.add_sub_cancel, Nat.sub_self, Nat.add_zero]
      · rw [if_neg hk, if_neg (by omega), Function.update_of_ne hi]

/-- A positive `int` is put as its numeral. -/
theorem monitorWriteDec_of_pos (s : σ) {n : BitVec 32} (h0 : n ≠ 0) (hlt : n.toNat < 2 ^ 31) (c c2 : ℕ → UInt8) :
    monitorWriteDec put s n c c2 = (numeral 10 n.toNat).foldl put s := by
  have hne : n.toNat ≠ 0 := fun h => h0 (BitVec.eq_of_toNat_eq h)
  have hint : n.toInt = n.toNat := BitVec.toInt_eq_toNat_of_lt (by omega)
  have hten : (Nat.digits 10 n.toNat).length ≤ 10 := (Nat.digits_length_le_iff (by omega) _).mpr (by omega)
  obtain ⟨h1,-,h3⟩ := decLoop_spec 32 n.toNat c 0 (by omega)
  rw [Nat.zero_add] at h1
  simp only [monitorWriteDec, if_neg h0, hint, h1]
  set len := (Nat.digits 10 n.toNat).length with hlen
  set buf := reverseLoop (Function.update (decLoop 32 n.toNat c 0).1 len 0) len 0 (Function.update c2 len 0) with hbuf
  -- the digits, the zero byte that ends them, and what is left of the buffer
  have hdigits : ((List.range 32).map buf).take len = numeral 10 n.toNat := by
    refine List.ext_getElem (by simp [numeral, hne]; omega) fun j hj1 hj2 => ?_
    have hj : j < len := by
      rw [List.length_take] at hj1
      omega
    have hch := h3 (len - 1 - j) (by omega)
    rw [Nat.zero_add] at hch
    rw [List.getElem_take, List.getElem_map, List.getElem_range, hbuf, reverseLoop_spec, if_pos hj, Nat.zero_add,
      Function.update_of_ne (by omega), hch]
    simp [numeral, hne, ← hlen]
  have hstop : buf len = 0 := by rw [hbuf, reverseLoop_spec, if_neg (by omega), Function.update_self]
  have hsplit : (List.range 32).map buf = numeral 10 n.toNat ++ 0 :: ((List.range 32).map buf).drop (len + 1) := by
    rw [← hdigits, ← hstop]
    conv_lhs => rw [← List.take_append_drop len ((List.range 32).map buf)]
    rw [List.drop_eq_getElem_cons (by simp; omega), List.getElem_map, List.getElem_range]
  have hzero : 0 ∉ numeral 10 n.toNat := by
    rw [numeral, if_neg hne]
    intro hmem
    obtain ⟨d,hd,hd0⟩ := List.mem_map.mp hmem
    have hd10 := Nat.digits_lt_base (by omega) (List.mem_reverse.mp hd)
    exact digit_ne_zero (by omega) hd0
  rw [hsplit, monitorWrite_append put s hzero]

/-- A negative one is not put at all. -/
theorem monitorWriteDec_of_neg (s : σ) {n : BitVec 32} (hle : 2 ^ 31 ≤ n.toNat) (c c2 : ℕ → UInt8) :
    monitorWriteDec put s n c c2 = s := by
  have h0 : n ≠ 0 := by
    rintro rfl
    exact absurd hle (by decide)
  have hneg : n.toInt ≤ 0 := by
    rw [BitVec.toInt_eq_toNat_cond, if_neg (by omega)]
    have := n.isLt
    omega
  have hloop : decLoop 32 n.toInt c 0 = (c,0) := if_neg (by omega)
  simp only [monitorWriteDec, if_neg h0, hloop, reverseLoop]
  rfl

end Print

/-- The characters that the calls put. -/
def emittedHex (n : BitVec 32) : List UInt8 := monitorWriteHex (fun l c => l ++ [c]) [] n
def emittedDec (n : BitVec 32) (c c2 : ℕ → UInt8) : List UInt8 := monitorWriteDec (fun l c => l ++ [c]) [] n c c2

theorem foldl_snoc (l : List UInt8) : l.foldl (fun l c => l ++ [c]) [] = l := by
  induction l using List.reverseRecOn with
  | nil => rfl
  | append_singleton l c ih => rw [List.foldl_append, ih, List.foldl_cons, List.foldl_nil]

theorem emittedHex_eq (n : BitVec 32) : emittedHex n = [48,120] ++ numeral 16 n.toNat := by
  rw [emittedHex, monitorWriteHex_eq, foldl_snoc, List.cons_append, List.singleton_append]

theorem emittedDec_eq (n : BitVec 32) (c c2 : ℕ → UInt8) :
    emittedDec n c c2 = if n.toNat < 2 ^ 31 then numeral 10 n.toNat else [] := by
  by_cases hlt : n.toNat < 2 ^ 31
  · rw [if_pos hlt]
    by_cases h0 : n = 0
    · subst h0
      rfl
    · rw [emittedDec, monitorWriteDec_of_pos _ _ h0 hlt, foldl_snoc]
  · rw [if_neg hlt, emittedDec, monitorWriteDec_of_neg _ _ (by omega)]

/-- On the monitor the calls show what they emit. -/
theorem monitorWriteHex_shows (m : Display) (n : BitVec 32) :
    monitorWriteHex monitorPut m n = (emittedHex n).foldl monitorPut m := by
  rw [monitorWriteHex_eq, emittedHex_eq, List.cons_append, List.singleton_append]

theorem monitorWriteDec_shows (m : Display) (n : BitVec 32) (c c2 : ℕ → UInt8) :
    monitorWriteDec monitorPut m n c c2 = (emittedDec n c c2).foldl monitorPut m := by
  rw [emittedDec_eq]
  by_cases hlt : n.toNat < 2 ^ 31
  · rw [if_pos hlt]
    by_cases h0 : n = 0
    · subst h0
      rfl
    · exact monitorWriteDec_of_pos _ _ h0 hlt c c2
  · rw [if_neg hlt]
    exact monitorWriteDec_of_neg _ _ (by omega) c c2

/-- The canonical numeral of a number, which can be read back. -/
structure Canonical (b : ℕ) (digits : List UInt8) (n : ℕ) : Prop where
  numeral : digits = numeral b n
  leading : n ≠ 0 → digits.head? ≠ some (digit 0)
  parsed : value b digits = n

theorem canonical_numeral {b : ℕ} (hb : 1 < b) (hb16 : b ≤ 16) (n : ℕ) : Canonical b (numeral b n) n where
  numeral := rfl
  leading := head_numeral hb hb16
  parsed := value_numeral hb hb16 n

/-- Both calls print their argument exactly when it is not negative as an `int`. -/
theorem numbers_printed (n : BitVec 32) (c c2 : ℕ → UInt8) :
    (Canonical 10 (emittedDec n c c2) n.toNat ∧
      ∃ digits, emittedHex n = [48,120] ++ digits ∧ Canonical 16 digits n.toNat) ↔ n.toNat < 2 ^ 31 := by
  constructor
  · rintro ⟨hdec,-⟩
    by_contra hle
    have hread := hdec.parsed
    rw [emittedDec_eq, if_neg hle] at hread
    have h0 : n.toNat = 0 := hread.symm
    omega
  · intro hlt
    refine ⟨?_,numeral 16 n.toNat,emittedHex_eq n,canonical_numeral (by omega) (by omega) _⟩
    rw [emittedDec_eq, if_pos hlt]
    exact canonical_numeral (by omega) (by omega) _

/-- An address of the upper half is not printed. -/
theorem upper_half_not_printed : emittedDec 0xC0000000 (fun _ => 0) (fun _ => 0) = [] ∧
    ¬ Canonical 10 (emittedDec 0xC0000000 (fun _ => 0) (fun _ => 0)) (0xC0000000 : BitVec 32).toNat := by
  have hnone : emittedDec 0xC0000000 (fun _ => 0) (fun _ => 0) = [] := emittedDec_eq _ _ _
  refine ⟨hnone,fun h => ?_⟩
  have hread := h.parsed
  rw [hnone] at hread
  exact absurd hread (by decide)

end X86OsDev.Tutorial.Monitor
