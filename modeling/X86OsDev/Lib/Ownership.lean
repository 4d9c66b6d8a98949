import Mathlib.Data.Set.Basic
import Mathlib.Logic.Function.Basic

/-! # References into a pool

A table of references into a pool of cells, some of them null, in which no cell
is referred to twice, and a mark on each cell that is referred to. Taking a
cell and dropping one keep that.
-/
namespace X86OsDev.Ownership
variable {ι β : Type*}

/-- Each cell of the pool is marked if and only if one reference has it. -/
structure Owns (null : β) (pool : Set β) (R : ι → β) (marked : β → Prop) : Prop where
  mem : ∀ i, R i ≠ null → R i ∈ pool
  once : ∀ i j, R i ≠ null → R i = R j → i = j
  marked : ∀ b ∈ pool, marked b ↔ ∃ i, R i = b

variable {null : β} {pool : Set β} {R : ι → β} {marked marked' : β → Prop}

theorem Owns.marked_of_ref (h : Owns null pool R marked) {i : ι} (hi : R i ≠ null) :
    marked (R i) := (h.marked _ (h.mem i hi)).mpr ⟨i,rfl⟩

theorem Owns.congr (h : Owns null pool R marked) (hm : ∀ b ∈ pool, marked' b ↔ marked b) :
    Owns null pool R marked' :=
  ⟨h.mem,h.once,fun b hb => (hm b hb).trans (h.marked b hb)⟩

variable [DecidableEq ι]

/-- A null reference takes an unmarked cell. -/
theorem Owns.take (h : Owns null pool R marked) (hnull : null ∉ pool) {i : ι} {b : β}
    (hi : R i = null) (hb : b ∈ pool) (hfree : ¬ marked b)
    (hm : ∀ c ∈ pool, marked' c ↔ marked c ∨ c = b) :
    Owns null pool (Function.update R i b) marked' where
  mem j hj := by
    by_cases hji : j = i
    · rw [hji, Function.update_self]
      exact hb
    · rw [Function.update_of_ne hji] at hj ⊢
      exact h.mem j hj
  once j k hj hjk := by
    have hne : ∀ l, R l ≠ b := fun l hl => hfree ((h.marked b hb).mpr ⟨l,hl⟩)
    by_cases hji : j = i
    · by_cases hki : k = i
      · rw [hji, hki]
      · rw [hji, Function.update_self, Function.update_of_ne hki] at hjk
        exact absurd hjk.symm (hne k)
    · rw [Function.update_of_ne hji] at hj hjk
      by_cases hki : k = i
      · rw [hki, Function.update_self] at hjk
        exact absurd hjk (hne j)
      · rw [Function.update_of_ne hki] at hjk
        exact h.once j k hj hjk
  marked c hc := by
    rw [hm c hc, h.marked c hc]
    constructor
    · rintro (⟨j,rfl⟩ | rfl)
      · refine ⟨j,Function.update_of_ne ?_ _ _⟩
        rintro rfl
        exact hnull (hi ▸ hc)
      · exact ⟨i,Function.update_self _ _ _⟩
    · rintro ⟨j,hj⟩
      by_cases hji : j = i
      · rw [hji, Function.update_self] at hj
        exact .inr hj.symm
      · rw [Function.update_of_ne hji] at hj
        exact .inl ⟨j,hj⟩

/-- A reference gives its cell back. -/
theorem Owns.drop (h : Owns null pool R marked) (hnull : null ∉ pool) {i : ι}
    (hi : R i ≠ null) (hm : ∀ c ∈ pool, marked' c ↔ marked c ∧ c ≠ R i) :
    Owns null pool (Function.update R i null) marked' where
  mem j hj := by
    by_cases hji : j = i
    · rw [hji, Function.update_self] at hj
      exact absurd rfl hj
    · rw [Function.update_of_ne hji] at hj ⊢
      exact h.mem j hj
  once j k hj hjk := by
    by_cases hji : j = i
    · rw [hji, Function.update_self] at hj
      exact absurd rfl hj
    · rw [Function.update_of_ne hji] at hj hjk
      by_cases hki : k = i
      · rw [hki, Function.update_self] at hjk
        exact absurd hjk hj
      · rw [Function.update_of_ne hki] at hjk
        exact h.once j k hj hjk
  marked c hc := by
    rw [hm c hc, h.marked c hc]
    constructor
    · rintro ⟨⟨j,rfl⟩,hne⟩
      refine ⟨j,Function.update_of_ne ?_ _ _⟩
      rintro rfl
      exact hne rfl
    · rintro ⟨j,hj⟩
      by_cases hji : j = i
      · rw [hji, Function.update_self] at hj
        exact absurd (hj ▸ hc) hnull
      · rw [Function.update_of_ne hji] at hj
        subst hj
        exact ⟨⟨j,rfl⟩,fun he => hji (h.once j i (he ▸ hi) he)⟩

end X86OsDev.Ownership
