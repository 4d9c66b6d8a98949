import Mathlib.Logic.Function.Basic
import Mathlib.Data.List.Basic

/-! # Singly linked queues

A queue is a pointer to its first element, and each element points to the next.
Appending walks to the end, so it is a search that a cycle would keep going
forever; the walk gets fuel for the elements there are.
-/
namespace X86OsDev.LinkedQueue
variable {β : Type} {next next' : β → Option β} {q : Option β} {l : List β} {b : β}

/-- The elements from a pointer on. -/
def Linked (next : β → Option β) : Option β → List β → Prop
  | q, [] => q = none
  | q, b :: l => q = some b ∧ Linked next (next b) l

theorem Linked.congr (h : Linked next q l) (hn : ∀ x ∈ l, next' x = next x) : Linked next' q l := by
  induction l generalizing q with
  | nil => exact h
  | cons x l ih =>
    obtain ⟨hq,hl⟩ := h
    refine ⟨hq,?_⟩
    rw [hn x List.mem_cons_self]
    exact ih hl fun y hy => hn y (List.mem_cons_of_mem _ hy)

theorem Linked.unique {l' : List β} (h : Linked next q l) (h' : Linked next q l') : l = l' := by
  induction l generalizing q l' with
  | nil =>
    obtain rfl := h
    cases l' with
    | nil => rfl
    | cons y l' => cases h'.1
  | cons x l ih =>
    obtain ⟨rfl,hl⟩ := h
    cases l' with
    | nil => cases h'
    | cons y l' =>
      obtain ⟨hxy,hl'⟩ := h'
      cases hxy
      rw [ih hl hl']

theorem Linked.none_iff (h : Linked next q l) : q = none ↔ l = [] := by
  cases l with
  | nil => exact ⟨fun _ => rfl,fun _ => h⟩
  | cons x l => simp [h.1]

/-- The walk from an element to the last one. -/
def last (next : β → Option β) : ℕ → β → Option β
  | 0, _ => none
  | fuel + 1, x =>
    match next x with
    | none => some x
    | some y => last next fuel y

variable [DecidableEq β]

/-- Append an element: it is made the last one, and what was last, or the queue itself, gets to point to it. -/
def append (next : β → Option β) (fuel : ℕ) (q : Option β) (b : β) : Option (Option β × (β → Option β)) :=
  let next := Function.update next b none
  match q with
  | none => some (some b,next)
  | some x => (last next fuel x).map fun y => (q,Function.update next y (some b))

theorem Linked.walk {x : β} (h : Linked next (some x) l) (hb : b ∉ l) (hnext : next b = none) (hd : l.Nodup) {fuel : ℕ}
    (hf : l.length ≤ fuel) :
    ∃ y, last next fuel x = some y ∧ y ∈ l ∧ Linked (Function.update next y (some b)) (some x) (l ++ [b]) := by
  induction l generalizing x fuel with
  | nil => cases h
  | cons z l ih =>
    obtain ⟨hz,hl⟩ := h
    obtain rfl : x = z := Option.some.inj hz
    obtain ⟨hzl,hd⟩ := List.nodup_cons.mp hd
    have hbz : b ≠ x := fun h => hb (h ▸ List.mem_cons_self)
    have hbl : b ∉ l := fun h => hb (List.mem_cons_of_mem _ h)
    cases fuel with
    | zero => exact absurd hf (Nat.not_succ_le_zero _)
    | succ fuel =>
      rw [last]
      cases hn : next x with
      | none =>
        obtain rfl := hl.none_iff.mp hn
        refine ⟨x,rfl,List.mem_cons_self,rfl,?_⟩
        rw [Function.update_self]
        refine ⟨rfl,?_⟩
        rw [Function.update_of_ne hbz]
        exact hnext
      | some w =>
        rw [hn] at hl
        obtain ⟨y,hy,hmem,hlink⟩ := ih hl hbl hd (Nat.le_of_succ_le_succ hf)
        refine ⟨y,hy,List.mem_cons_of_mem _ hmem,rfl,?_⟩
        rw [Function.update_of_ne (ne_of_mem_of_not_mem hmem hzl).symm, hn]
        exact hlink

/-- An element that is not in the queue goes to its end. -/
theorem Linked.append (h : Linked next q l) (hd : l.Nodup) (hb : b ∉ l) {fuel : ℕ} (hf : l.length ≤ fuel) :
    ∃ q' next', append next fuel q b = some (q',next') ∧ Linked next' q' (l ++ [b]) ∧
      (q' = some b ↔ l = []) := by
  have h0 : Linked (Function.update next b none) q l :=
    h.congr fun x hx => Function.update_of_ne (ne_of_mem_of_not_mem hx hb) _ _
  unfold LinkedQueue.append
  cases q with
  | none =>
    obtain rfl := h.none_iff.mp rfl
    exact ⟨_,_,rfl,⟨rfl,Function.update_self _ _ _⟩,by simp⟩
  | some x =>
    obtain ⟨y,hy,-,hlink⟩ := h0.walk hb (Function.update_self _ _ _) hd hf
    simp only [hy, Option.map_some]
    refine ⟨_,_,rfl,hlink,?_⟩
    cases l with
    | nil => cases h
    | cons z l =>
      obtain ⟨hz,-⟩ := h
      cases hz
      simp only [Option.some.injEq, reduceCtorEq, iff_false]
      exact fun hxb => hb (hxb ▸ List.mem_cons_self)

end X86OsDev.LinkedQueue
