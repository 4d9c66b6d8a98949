import Mathlib.Data.BitVec
import Mathlib.Data.List.Basic
import Mathlib.Logic.Function.Basic

/-! # Rings with wrapping indexes

A ring of `n` slots and indexes of `w` bits. The indexes wrap, but since `n`
divides their range the slots of `n` indexes in a row are still distinct.
-/
namespace X86OsDev.RingBuffer
variable {α : Type*} {n w : ℕ} [NeZero n]

/-- The slot of an index. -/
def slot (n : ℕ) [NeZero n] (i : BitVec w) : Fin n := Fin.ofNat n i.toNat

/-- The slots from index `i` on hold the list. -/
def Contains (buf : Fin n → α) (i : BitVec w) (l : List α) : Prop :=
  ∀ k (h : k < l.length), buf (slot n (i + BitVec.ofNat w k)) = l[k]

variable {buf : Fin n → α} {i : BitVec w} {l t : List α} {a : α}

theorem slot_add (hw : n ∣ 2 ^ w) (i : BitVec w) (k : ℕ) : (slot n (i + BitVec.ofNat w k)).val = (i.toNat + k) % n := by
  change (i + BitVec.ofNat w k).toNat % n = _
  rw [BitVec.toNat_add, BitVec.toNat_ofNat, Nat.add_mod_mod, Nat.mod_mod_of_dvd _ hw]

theorem slot_add_inj (hw : n ∣ 2 ^ w) {j k : ℕ} (hj : j < n) (hk : k < n)
    (h : slot n (i + BitVec.ofNat w j) = slot n (i + BitVec.ofNat w k)) : j = k := by
  have hval := congrArg Fin.val h
  rw [slot_add hw, slot_add hw] at hval
  exact Nat.ModEq.eq_of_lt_of_lt (Nat.ModEq.add_left_cancel' _ hval) hj hk

theorem contains_nil : Contains buf i [] := fun _ h => absurd h (Nat.not_lt_zero _)

theorem Contains.left (h : Contains buf i (l ++ t)) : Contains buf i l := by
  intro k hk
  rw [h k (by rw [List.length_append]; omega), List.getElem_append_left hk]

/-- The slot after the list takes another element. -/
theorem Contains.put (h : Contains buf i l) (hw : n ∣ 2 ^ w) (hl : l.length < n) (a : α) :
    Contains (Function.update buf (slot n (i + BitVec.ofNat w l.length)) a) i (l ++ [a]) := by
  intro k hk
  rw [List.length_append, List.length_singleton] at hk
  by_cases hlast : k = l.length
  · subst hlast
    rw [Function.update_self, List.getElem_append_right le_rfl]
    simp
  · have hne : slot n (i + BitVec.ofNat w k) ≠ slot n (i + BitVec.ofNat w l.length) := fun hc =>
      hlast (slot_add_inj hw (by omega) hl hc)
    rw [Function.update_of_ne hne, h k (by omega), List.getElem_append_left]

theorem Contains.head (h : Contains buf i (a :: l)) : buf (slot n i) = a := by
  have h0 := h 0 (Nat.succ_pos _)
  rwa [BitVec.add_zero] at h0

theorem Contains.tail (h : Contains buf i (a :: l)) : Contains buf (i + 1) l := by
  intro k hk
  have hnext : i + 1 + BitVec.ofNat w k = i + BitVec.ofNat w (k + 1) := by
    rw [BitVec.add_assoc, Nat.add_comm k 1, BitVec.ofNat_add]
    rfl
  rw [hnext, h (k + 1) (Nat.succ_lt_succ hk), List.getElem_cons_succ]

end X86OsDev.RingBuffer
