import Mathlib.Algebra.BigOperators.Group.Finset.Basic
import Mathlib.Data.Fintype.Basic
import Mathlib.Algebra.Order.BigOperators.Group.Finset
import Mathlib.Algebra.Order.Group.Multiset
import Mathlib.Tactic.Abel

/-! # Sums over the components of a system

A step of a system of finitely many components changes one of them. These
lemmas say what that does to a sum over all components.
-/
namespace X86OsDev.Counting

variable {ι κ M : Type*} [Fintype ι] [DecidableEq ι] [AddCommMonoid M]

/-- Changing one component trades its old summand for the new one. -/
theorem sum_update_add (f : ι → κ) (g : κ → M) (i : ι) (x : κ) :
    (∑ j, g (Function.update f i x j)) + g (f i) = (∑ j, g (f j)) + g x := by
  rw [← Finset.add_sum_erase _ _ (Finset.mem_univ i),
    ← Finset.add_sum_erase (Finset.univ) (fun j => g (f j)) (Finset.mem_univ i)]
  have h : ∑ j ∈ Finset.univ.erase i, g (Function.update f i x j) =
      ∑ j ∈ Finset.univ.erase i, g (f j) := by
    refine Finset.sum_congr rfl (fun j hj => ?_)
    rw [Function.update_of_ne (Finset.ne_of_mem_erase hj)]
  rw [h, Function.update_self]
  abel

omit [Fintype ι] in
/-- The same for a sum over some of the components. -/
theorem sum_change {S : Finset ι} {f g : ι → M} {i : ι} (hi : i ∈ S)
    (h : ∀ j ∈ S, j ≠ i → g j = f j) : (∑ j ∈ S, g j) + f i = (∑ j ∈ S, f j) + g i := by
  rw [← Finset.add_sum_erase S g hi, ← Finset.add_sum_erase S f hi]
  have : ∑ j ∈ S.erase i, g j = ∑ j ∈ S.erase i, f j :=
    Finset.sum_congr rfl fun j hj => h j (Finset.mem_of_mem_erase hj) (Finset.ne_of_mem_erase hj)
  rw [this]
  abel

section Multisets
variable {α : Type*} {S : Finset ι} {F : ι → Multiset α}

omit [Fintype ι] [DecidableEq ι] in
theorem mem_sum_of_mem {i : ι} {x : α} (hi : i ∈ S) (hx : x ∈ F i) : x ∈ ∑ j ∈ S, F j :=
  Multiset.mem_of_le (Finset.single_le_sum (fun _ _ => Multiset.zero_le _) hi) hx

omit [Fintype ι] in
/-- A multiset without repetitions has each element in one summand only. -/
theorem eq_of_mem_of_nodup (h : (∑ j ∈ S, F j).Nodup) {i j : ι} (hi : i ∈ S) (hj : j ∈ S) {x : α}
    (hxi : x ∈ F i) (hxj : x ∈ F j) : i = j := by
  by_contra hne
  rw [← Finset.add_sum_erase S F hi] at h
  have hx : x ∈ ∑ j ∈ S.erase i, F j :=
    mem_sum_of_mem (Finset.mem_erase.mpr ⟨Ne.symm hne,hj⟩) hxj
  exact Multiset.disjoint_left.mp (Multiset.nodup_add.mp h).2.2 hxi hx

end Multisets

end X86OsDev.Counting
