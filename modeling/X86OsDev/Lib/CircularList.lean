import Mathlib.Data.List.Nodup
import Mathlib.Logic.Function.Iterate
import Mathlib.Logic.Function.Basic
import Mathlib.Tactic.Common

/-! # Circular doubly linked lists

Two pointer functions on nodes, and a head. The nodes from the head back to it
are a list; unlinking a node removes it from the list, linking one behind the
head puts it in front.
-/
namespace X86OsDev.CircularList

variable {α : Type*} {next prev next' prev' : α → α} {a b h z : α} {l m : List α}

/-- From `a` along `next`, and back along `prev`, through the nodes of a list to `z`. -/
def Seg (next prev : α → α) : α → List α → α → Prop
  | a, [], z => next a = z ∧ prev z = a
  | a, b :: l, z => next a = b ∧ prev b = a ∧ Seg next prev b l z

/-- The nodes of a list are a ring with the head `h`. -/
structure IsRing (next prev : α → α) (h : α) (l : List α) : Prop where
  seg : Seg next prev h l h
  nodup : (h :: l).Nodup

theorem seg_append : Seg next prev a (l ++ b :: m) z ↔ Seg next prev a l b ∧ Seg next prev b m z := by
  induction l generalizing a with
  | nil => exact ⟨fun ⟨h1,h2,h3⟩ => ⟨⟨h1,h2⟩,h3⟩,fun ⟨⟨h1,h2⟩,h3⟩ => ⟨h1,h2,h3⟩⟩
  | cons c l ih =>
    constructor
    · rintro ⟨h1,h2,h3⟩
      obtain ⟨h4,h5⟩ := ih.mp h3
      exact ⟨⟨h1,h2,h4⟩,h5⟩
    · rintro ⟨⟨h1,h2,h4⟩,h5⟩
      exact ⟨h1,h2,ih.mpr ⟨h4,h5⟩⟩

/-- A segment depends on `next` before its end and on `prev` after its start. -/
theorem Seg.congr (hs : Seg next prev a l z) (hn : ∀ x ∈ a :: l, next' x = next x)
    (hp : ∀ x ∈ l ++ [z], prev' x = prev x) : Seg next' prev' a l z := by
  induction l generalizing a with
  | nil =>
    obtain ⟨h1,h2⟩ := hs
    exact ⟨(hn a List.mem_cons_self).trans h1,(hp z List.mem_cons_self).trans h2⟩
  | cons b l ih =>
    obtain ⟨h1,h2,h3⟩ := hs
    refine ⟨(hn a List.mem_cons_self).trans h1,(hp b List.mem_cons_self).trans h2,?_⟩
    exact ih h3 (fun x hx => hn x (List.mem_cons_of_mem _ hx))
      (fun x hx => hp x (List.mem_cons_of_mem _ hx))

theorem Seg.next_mem (hs : Seg next prev a l z) : next a ∈ l ++ [z] := by
  cases l with
  | nil => simp [hs.1]
  | cons b l => simp [hs.1]

theorem Seg.prev_mem (hs : Seg next prev a l z) : prev z ∈ a :: l := by
  induction l generalizing a with
  | nil => simp [hs.2]
  | cons b l ih => exact List.mem_cons_of_mem _ (ih hs.2.2)

/-- Inside a segment `prev` undoes `next`. -/
theorem Seg.prev_next (hs : Seg next prev a l z) : ∀ x ∈ a :: l, prev (next x) = x := by
  induction l generalizing a with
  | nil =>
    intro x hx
    rw [List.mem_singleton.mp hx, hs.1, hs.2]
  | cons b l ih =>
    intro x hx
    rcases List.mem_cons.mp hx with rfl | hx
    · rw [hs.1, hs.2.1]
    · exact ih hs.2.2 x hx

/-- The nodes of a segment are the iterates of `next`. -/
theorem Seg.iterate (hs : Seg next prev a l z) :
    (List.range l.length).map (fun k => next^[k + 1] a) = l ∧ next^[l.length + 1] a = z := by
  induction l generalizing a with
  | nil => exact ⟨rfl,hs.1⟩
  | cons b l ih =>
    obtain ⟨h1,-,h3⟩ := hs
    obtain ⟨h4,h5⟩ := ih h3
    have hshift : ∀ k, next^[k + 1] a = next^[k] b := by
      intro k
      rw [Function.iterate_succ_apply, h1]
    constructor
    · rw [List.length_cons, List.range_succ_eq_map, List.map_cons, List.map_map]
      congr 1
      refine Eq.trans (List.map_congr_left fun k _ => ?_) h4
      exact hshift (k + 1)
    · rw [List.length_cons, hshift]
      exact h5

theorem IsRing.prev_next (hr : IsRing next prev h l) (ha : a ∈ h :: l) : prev (next a) = a :=
  hr.seg.prev_next a ha

/-- The other way round, with the list reversed. -/
theorem Seg.reverse (hs : Seg next prev a l z) : Seg prev next z l.reverse a := by
  induction l generalizing a with
  | nil => exact ⟨hs.2,hs.1⟩
  | cons b l ih =>
    rw [List.reverse_cons, seg_append]
    exact ⟨ih hs.2.2,hs.2.1,hs.1⟩

theorem IsRing.reverse (hr : IsRing next prev h l) : IsRing prev next h l.reverse :=
  ⟨hr.seg.reverse,by simpa using hr.nodup⟩

theorem IsRing.next_prev (hr : IsRing next prev h l) (ha : a ∈ h :: l) : next (prev a) = a :=
  hr.reverse.prev_next (by simpa using ha)

variable [DecidableEq α]

/-- A loop along the ring over at most `n` nodes: the first one that a test accepts, or the head. -/
def scan (succ : α → α) (h : α) (p : α → Bool) : ℕ → α → Option (Option α)
  | 0, _ => none
  | n + 1, a =>
    if a = h then some none
    else if p a then some (some a)
    else scan succ h p n (succ a)

/-- The loop comes back to the head and finds what a search of the list finds. -/
theorem Seg.scan_eq (p : α → Bool) {n : ℕ} (hs : Seg next prev a l h) (hh : h ∉ l)
    (hn : l.length < n) : scan next h p n (next a) = some (l.find? p) := by
  induction l generalizing a n with
  | nil =>
    cases n with
    | zero => cases hn
    | succ n => rw [hs.1, scan, if_pos rfl, List.find?_nil]
  | cons b l ih =>
    obtain ⟨h1,-,h3⟩ := hs
    have hb : b ≠ h := fun he => hh (he ▸ List.mem_cons_self)
    cases n with
    | zero => cases hn
    | succ n =>
      rw [h1, scan, if_neg hb, List.find?_cons]
      cases hp : p b with
      | true => rfl
      | false =>
        exact ih h3 (fun hm => hh (List.mem_cons_of_mem _ hm)) (Nat.lt_of_succ_lt_succ hn)

/-- `b->next->prev = b->prev; b->prev->next = b->next` -/
theorem Seg.unlink (hl : Seg next prev a l b) (hm : Seg next prev b m z)
    (hnd : (a :: (l ++ b :: m)).Nodup) (hz : z ∉ l ++ b :: m) :
    Seg (Function.update next (prev b) (next b)) (Function.update prev (next b) (prev b)) a
      (l ++ m) z := by
  induction l generalizing a with
  | nil =>
    obtain ⟨h1,h2⟩ := hl
    rw [h2]
    have hab : a ∉ m := fun hx => (List.nodup_cons.mp hnd).1 (List.mem_cons_of_mem _ hx)
    cases m with
    | nil =>
      rw [hm.1]
      exact ⟨Function.update_self ..,Function.update_self ..⟩
    | cons q m =>
      obtain ⟨h3,-,h5⟩ := hm
      rw [h3]
      have hq : (q :: m).Nodup := (List.nodup_cons.mp (List.nodup_cons.mp hnd).2).2
      refine ⟨Function.update_self ..,Function.update_self ..,h5.congr ?_ ?_⟩
      · intro x hx
        refine Function.update_of_ne ?_ ..
        rintro rfl
        exact hab hx
      · intro x hx
        refine Function.update_of_ne ?_ ..
        rintro rfl
        rcases List.mem_append.mp hx with hx | hx
        · exact (List.nodup_cons.mp hq).1 hx
        · rw [List.mem_singleton.mp hx] at hz
          exact hz (by simp)
  | cons c l ih =>
    obtain ⟨h1,h2,h3⟩ := hl
    have hnd' := List.nodup_cons.mp hnd
    have hz' : z ∉ l ++ b :: m := fun hx => hz (List.mem_cons_of_mem _ hx)
    refine ⟨?_,?_,ih h3 hnd'.2 hz'⟩
    · rw [Function.update_of_ne]
      · exact h1
      · -- the node before `b` is after `a`
        intro he
        have hp := h3.prev_mem
        rw [← he] at hp
        apply hnd'.1
        rcases List.mem_cons.mp hp with rfl | hp
        · simp
        · simp [hp]
    · rw [Function.update_of_ne]
      · exact h2
      · -- the node after `b` is not before it
        intro he
        have hn := hm.next_mem
        rw [← he] at hn
        rcases List.mem_append.mp hn with hn | hn
        · exact (List.nodup_cons.mp hnd'.2).1 (by simp [hn])
        · rw [List.mem_singleton.mp hn] at hz
          exact hz (by simp)

theorem IsRing.unlink (hr : IsRing next prev h (l ++ b :: m)) :
    IsRing (Function.update next (prev b) (next b)) (Function.update prev (next b) (prev b)) h
      (l ++ m) := by
  obtain ⟨hs,hnd⟩ := hr
  obtain ⟨h1,h2⟩ := seg_append.mp hs
  refine ⟨h1.unlink h2 hnd (List.nodup_cons.mp hnd).1,?_⟩
  exact hnd.sublist (((List.Sublist.refl l).append (List.sublist_cons_self b m)).cons_cons h)

/-- `b->next = h.next; b->prev = &h; h.next->prev = b; h.next = b` -/
theorem IsRing.insert (hr : IsRing next prev h l) (hb : b ∉ h :: l) :
    IsRing (Function.update (Function.update next b (next h)) h b)
      (Function.update (Function.update prev b h) (next h) b) h (b :: l) := by
  obtain ⟨hs,hnd⟩ := hr
  have hbh : b ≠ h := fun he => hb (he ▸ List.mem_cons_self)
  have hn : next h ∈ l ++ [h] := hs.next_mem
  have hbn : next h ≠ b := by
    rintro rfl
    rcases List.mem_append.mp hn with hn | hn
    · exact hb (List.mem_cons_of_mem _ hn)
    · exact hbh (List.mem_singleton.mp hn)
  constructor
  · refine ⟨Function.update_self ..,?_,?_⟩
    · rw [Function.update_of_ne hbn.symm, Function.update_self]
    · cases l with
      | nil =>
        rw [hs.1]
        refine ⟨?_,Function.update_self ..⟩
        rw [Function.update_of_ne hbh, Function.update_self]
      | cons c l =>
        obtain ⟨h1,-,h3⟩ := hs
        rw [h1] at hbn ⊢
        refine ⟨?_,Function.update_self ..,h3.congr ?_ ?_⟩
        · rw [Function.update_of_ne hbh, Function.update_self]
        · intro x hx
          have hxh : x ≠ h := fun he => (List.nodup_cons.mp hnd).1 (he ▸ hx)
          have hxb : x ≠ b := fun he => hb (List.mem_cons_of_mem _ (he ▸ hx))
          rw [Function.update_of_ne hxh, Function.update_of_ne hxb]
        · intro x hx
          have hxc : x ≠ c := by
            rintro rfl
            rcases List.mem_append.mp hx with hx | hx
            · exact (List.nodup_cons.mp (List.nodup_cons.mp hnd).2).1 hx
            · rw [List.mem_singleton.mp hx] at hnd
              exact (List.nodup_cons.mp hnd).1 List.mem_cons_self
          have hxb : x ≠ b := by
            rintro rfl
            rcases List.mem_append.mp hx with hx | hx
            · exact hb (by simp [hx])
            · exact hbh (List.mem_singleton.mp hx)
          rw [Function.update_of_ne hxc, Function.update_of_ne hxb]
  · refine List.nodup_cons.mpr ⟨?_,List.nodup_cons.mpr ⟨?_,(List.nodup_cons.mp hnd).2⟩⟩
    · intro hm
      rcases List.mem_cons.mp hm with he | hm
      · exact hbh he.symm
      · exact (List.nodup_cons.mp hnd).1 hm
    · exact fun hm => hb (List.mem_cons_of_mem _ hm)

end X86OsDev.CircularList
