import Mathlib.Data.List.Range
import Mathlib.Logic.Function.Basic

/-! # Copies between ranges that may overlap

A loop that copies one cell after the other reads cells that it may have written
before. Upwards it repeats the first cells when the target overlaps the end of the
source, and downwards the copy is right there.
-/
namespace X86OsDev.Copying
variable {α : Type*} (m : ℕ → α) (d s n : ℕ)

/-- The `n` cells at `d` are those that were at `s`. -/
def moved : ℕ → α := fun x => if d ≤ x ∧ x < d + n then m (s + (x - d)) else m x

def copyUp : ℕ → α := (List.range n).foldl (fun m i => Function.update m (d + i) (m (s + i))) m

def copyDown : ℕ → α := (List.range n).foldr (fun i m => Function.update m (d + i) (m (s + i))) m

/-- The cells come again after `p` of them. -/
def Periodic (p : ℕ) : Prop := ∀ k, p ≤ k → k < n → m (s + k) = m (s + (k - p))

theorem copyUp_succ : copyUp m d s (n + 1) = Function.update (copyUp m d s n) (d + n) (copyUp m d s n (s + n)) := by
  rw [copyUp, List.range_succ, List.foldl_append]
  rfl

theorem copyDown_succ : copyDown m d s (n + 1) = copyDown (Function.update m (d + n) (m (s + n))) d s n := by
  rw [copyDown, List.range_succ, List.foldr_append]
  rfl

variable {d s n}

theorem moved_of_not_mem {x : ℕ} (h : ¬ (d ≤ x ∧ x < d + n)) : moved m d s n x = m x := if_neg h

theorem moved_add {k : ℕ} (h : k < n) : moved m d s n (d + k) = m (s + k) := by
  rw [moved, if_pos (by omega), Nat.add_sub_cancel_left]

theorem copyUp_of_not_mem {x : ℕ} (h : ¬ (d ≤ x ∧ x < d + n)) : copyUp m d s n x = m x := by
  induction n with
  | zero => rfl
  | succ n ih => rw [copyUp_succ, Function.update_of_ne (by omega), ih (by omega)]

/-- A cell of the target is the cell of the source, or what was copied to it before. -/
theorem copyUp_add {k : ℕ} (h : k < n) : copyUp m d s n (d + k) =
    if s < d ∧ d ≤ s + k then copyUp m d s n (s + k) else m (s + k) := by
  induction n with
  | zero => omega
  | succ n ih =>
    rw [copyUp_succ]
    by_cases hk : k = n
    · subst hk
      rw [Function.update_self]
      by_cases hread : s < d ∧ d ≤ s + k
      · rw [if_pos hread, Function.update_of_ne (by omega)]
      · rw [if_neg hread, copyUp_of_not_mem m (by omega)]
    · rw [Function.update_of_ne (by omega), ih (by omega)]
      by_cases hread : s < d ∧ d ≤ s + k
      · rw [if_pos hread, if_pos hread, Function.update_of_ne (by omega)]
      · rw [if_neg hread, if_neg hread]

/-- Upwards the copy is right as long as nothing is read after it was written, or if the cells
that are read so are the ones that belong there. -/
theorem copyUp_eq_moved_iff : copyUp m d s n = moved m d s n ↔ (s < d → Periodic m s n (d - s)) := by
  constructor
  · intro h hlt k hk hkn
    have hcell := copyUp_add m (d := d) (s := s) hkn
    have hsource : s + k = d + (k - (d - s)) := by omega
    rw [if_pos (by omega), h, moved_add m hkn] at hcell
    rw [hcell, hsource, moved_add m (by omega)]
  · intro h
    -- by induction on the offset, since a cell may come from one before it
    have hcells : ∀ k < n, copyUp m d s n (d + k) = m (s + k) := by
      intro k
      induction k using Nat.strong_induction_on with
      | _ k ih =>
        intro hkn
        rw [copyUp_add m hkn]
        by_cases hread : s < d ∧ d ≤ s + k
        · have hsource : s + k = d + (k - (d - s)) := by omega
          rw [if_pos hread, h hread.1 k (by omega) hkn, ← ih _ (by omega) (by omega), hsource]
        · rw [if_neg hread]
    funext x
    by_cases hx : d ≤ x ∧ x < d + n
    · obtain ⟨k,rfl⟩ := Nat.exists_eq_add_of_le hx.1
      rw [hcells k (by omega), moved_add m (by omega)]
    · rw [copyUp_of_not_mem m hx, moved_of_not_mem m hx]

/-- Downwards the copy is right if the target is not below the source. -/
theorem copyDown_eq_moved (h : s ≤ d) : copyDown m d s n = moved m d s n := by
  induction n generalizing m with
  | zero =>
    funext x
    rw [moved_of_not_mem m (by omega)]
    rfl
  | succ n ih =>
    rw [copyDown_succ, ih]
    funext x
    by_cases hx : d ≤ x ∧ x < d + n
    · rw [moved, moved, if_pos hx, if_pos (by omega), Function.update_of_ne (by omega)]
    · rw [moved_of_not_mem _ hx]
      by_cases hlast : x = d + n
      · rw [hlast, Function.update_self, moved_add m (by omega)]
      · rw [Function.update_of_ne hlast, moved_of_not_mem m (by omega)]

end X86OsDev.Copying
