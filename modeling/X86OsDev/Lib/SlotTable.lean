import Mathlib.Data.List.Basic
import Mathlib.Logic.Function.Basic

/-! # Tables of slots

A table is a list of slots, each free or with a key and a value. If no key is in
two slots, the table stands for a finite map: a slot that is free or past the end
takes a new key, and a slot that is freed loses its key.
-/
namespace X86OsDev.SlotTable

abbrev Table (κ ν : Type) := List (Option (κ × ν))

variable {κ ν : Type} {t t' : Table κ ν} {i j : ℕ} {k l : κ} {v w : ν}

/-- Slot `i` has the key and the value. -/
def Holds (t : Table κ ν) (i : ℕ) (k : κ) (v : ν) : Prop := t[i]? = some (some (k,v))

/-- No key is in two slots. -/
def Distinct (t : Table κ ν) : Prop := ∀ i j k v w, Holds t i k v → Holds t j k w → i = j

/-- The first free slot, or the end. -/
def firstFree (t : Table κ ν) : ℕ := t.findIdx Option.isNone

/-- The table `t'` is `t` with another slot `i`. -/
def IsPut (t : Table κ ν) (i : ℕ) (e : Option (κ × ν)) (t' : Table κ ν) : Prop :=
  ∀ j, t'[j]? = if j = i then some e else t[j]?

theorem firstFree_free : ¬ Holds t (firstFree t) k v := by
  intro h
  have hlt : firstFree t < t.length := by
    by_contra hge
    rw [Holds, List.getElem?_eq_none (Nat.le_of_not_lt hge)] at h
    cases h
  have hfree : (t[firstFree t]).isNone = true := List.findIdx_getElem (w := hlt)
  rw [Holds, List.getElem?_eq_getElem hlt] at h
  rw [Option.some.inj h] at hfree
  cases hfree

theorem distinct_of_nodup (h : (t.filterMap (Option.map Prod.fst)).Nodup) : Distinct t := by
  have hpair := List.pairwise_iff_getElem.mp (List.pairwise_filterMap.mp h)
  have hlt {a b : ℕ} {l : κ} {x y : ν} (ha : Holds t a l x) (hb : Holds t b l y) : ¬ a < b := by
    intro hab
    obtain ⟨hal,hae⟩ := List.getElem?_eq_some_iff.mp ha
    obtain ⟨hbl,hbe⟩ := List.getElem?_eq_some_iff.mp hb
    exact hpair a b hal hbl hab l (by rw [hae]; rfl) l (by rw [hbe]; rfl) rfl
  intro a b l x y ha hb
  exact Nat.le_antisymm (Nat.le_of_not_lt (hlt hb ha)) (Nat.le_of_not_lt (hlt ha hb))

theorem IsPut.holds_self {e : Option (κ × ν)} (h : IsPut t i e t') : Holds t' i k v ↔ e = some (k,v) := by
  rw [Holds, h i, if_pos rfl, Option.some_inj]

theorem IsPut.holds_of_ne {e : Option (κ × ν)} (h : IsPut t i e t') (hj : j ≠ i) : Holds t' j k v ↔ Holds t j k v := by
  rw [Holds, Holds, h j, if_neg hj]

variable [DecidableEq κ]

/-- The map that the table stands for. -/
def lookup (t : Table κ ν) (k : κ) : Option ν := t.findSome? fun e => e.bind fun p => if p.1 = k then some p.2 else none

theorem lookup_eq_none : lookup t k = none ↔ ∀ i v, ¬ Holds t i k v := by
  rw [lookup, List.findSome?_eq_none_iff]
  constructor
  · intro h i v hi
    have hmem := h _ (List.mem_of_getElem? hi)
    simp at hmem
  · intro h e he
    obtain ⟨i,hi⟩ := List.getElem?_of_mem he
    match e with
    | none => rfl
    | some (k',v) =>
      refine if_neg fun hk => h i v ?_
      rw [Holds, hi, ← hk]

theorem holds_of_lookup (h : lookup t k = some v) : ∃ i, Holds t i k v := by
  obtain ⟨e,he,hv⟩ := List.exists_of_findSome?_eq_some h
  obtain ⟨i,hi⟩ := List.getElem?_of_mem he
  refine ⟨i,?_⟩
  match e with
  | none => cases hv
  | some (k',v') =>
    change (if k' = k then some v' else none) = some v at hv
    split at hv
    · rename_i hk
      cases hv
      rw [Holds, hi, hk]
    · cases hv

/-- The map takes the first slot with a key. -/
theorem first_of_lookup (h : lookup t k = some v) : ∃ j, Holds t j k v ∧ ∀ l < j, ∀ w, ¬ Holds t l k w := by
  obtain ⟨t1,e,t2,rfl,he,hno⟩ := List.findSome?_eq_some_iff.mp h
  refine ⟨t1.length,?_,fun l hl w hw => ?_⟩
  · match e with
    | none => cases he
    | some (k',v') =>
      change (if k' = k then some v' else none) = some v at he
      split at he
      · rename_i hk
        cases he
        rw [Holds, List.getElem?_append_right (Nat.le_refl _), Nat.sub_self, hk]
        rfl
      · cases he
  · rw [Holds, List.getElem?_append_left hl] at hw
    have hnone := hno _ (List.mem_of_getElem? hw)
    simp at hnone

theorem Distinct.lookup_eq_some (h : Distinct t) : lookup t k = some v ↔ ∃ i, Holds t i k v := by
  constructor
  · exact holds_of_lookup
  · rintro ⟨i,hi⟩
    cases hl : lookup t k with
    | none => exact absurd hi (lookup_eq_none.mp hl i v)
    | some w =>
      obtain ⟨j,hj⟩ := holds_of_lookup hl
      obtain rfl := h i j k v w hi hj
      rw [Holds, hi] at hj
      cases hj
      rfl

/-! ## Taking and freeing slots -/

section Add
variable (h : Distinct t) (hnew : lookup t k = none) (hp : IsPut t i (some (k,v)) t')
include h hnew hp

theorem Distinct.add : Distinct t' := by
  have hkey {a b : ℕ} {l : κ} {x y : ν} (ha : Holds t' a l x) (hb : Holds t' b l y) (hai : a = i) : b = i := by
    subst hai
    cases hp.holds_self.mp ha
    by_contra hne
    exact lookup_eq_none.mp hnew b y ((hp.holds_of_ne hne).mp hb)
  intro a b l x y ha hb
  by_cases hai : a = i
  · exact hai.trans (hkey ha hb hai).symm
  · have hbi : b ≠ i := fun hbi => hai (hkey hb ha hbi)
    exact h a b l x y ((hp.holds_of_ne hai).mp ha) ((hp.holds_of_ne hbi).mp hb)

theorem Distinct.lookup_add (hfree : ∀ l w, ¬ Holds t i l w) : lookup t' = Function.update (lookup t) k (some v) := by
  funext l
  apply Option.ext
  intro w
  rw [(h.add hnew hp).lookup_eq_some]
  by_cases hl : l = k
  · subst hl
    rw [Function.update_self]
    constructor
    · rintro ⟨j,hj⟩
      by_cases hji : j = i
      · subst hji
        cases hp.holds_self.mp hj
        rfl
      · exact absurd ((hp.holds_of_ne hji).mp hj) (lookup_eq_none.mp hnew j w)
    · intro hw
      cases hw
      exact ⟨i,hp.holds_self.mpr rfl⟩
  · rw [Function.update_of_ne hl, h.lookup_eq_some]
    apply exists_congr
    intro j
    by_cases hji : j = i
    · subst hji
      rw [hp.holds_self]
      constructor
      · intro hw
        cases hw
        exact absurd rfl hl
      · exact fun hw => absurd hw (hfree l w)
    · exact hp.holds_of_ne hji

end Add

section Remove
variable (h : Distinct t) (hp : IsPut t i none t')
include h hp

omit [DecidableEq κ] in
theorem Distinct.remove : Distinct t' := by
  have hkeep {a : ℕ} {l : κ} {x : ν} (ha : Holds t' a l x) : Holds t a l x := by
    refine (hp.holds_of_ne fun hai => ?_).mp ha
    subst hai
    cases hp.holds_self.mp ha
  exact fun a b l x y ha hb => h a b l x y (hkeep ha) (hkeep hb)

theorem Distinct.lookup_remove (hi : Holds t i k v) : lookup t' = Function.update (lookup t) k none := by
  funext l
  apply Option.ext
  intro w
  rw [(h.remove hp).lookup_eq_some]
  by_cases hl : l = k
  · subst hl
    rw [Function.update_self]
    constructor
    · rintro ⟨j,hj⟩
      by_cases hji : j = i
      · subst hji
        cases hp.holds_self.mp hj
      · exact absurd (h _ _ _ _ _ ((hp.holds_of_ne hji).mp hj) hi) hji
    · exact fun hw => by cases hw
  · rw [Function.update_of_ne hl, h.lookup_eq_some]
    apply exists_congr
    intro j
    by_cases hji : j = i
    · subst hji
      rw [hp.holds_self]
      constructor
      · exact fun hw => by cases hw
      · intro hw
        rw [Holds, hi] at hw
        cases hw
        exact absurd rfl hl
    · exact hp.holds_of_ne hji

end Remove

end X86OsDev.SlotTable
