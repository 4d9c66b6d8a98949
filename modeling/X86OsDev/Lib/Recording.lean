import Mathlib.Data.List.Basic
import Mathlib.Tactic.Common

/-! # Computations that record the calls they make

A computation that may stop early is written once more with a record of the calls
it makes on one of its parts. Without the record it is the computation again,
and the part it leaves is the one that the recorded calls lead to.
-/
namespace X86OsDev.Recording

universe u v
variable {ε : Type u} {α β : Type v} {σ : Type*}

/-- The calls made and the result, which is missing when the computation stopped. -/
structure Recorded (ε : Type u) (α : Type v) where
  calls : List ε
  result : Option α

namespace Recorded

instance : Monad (Recorded ε) where
  pure a := ⟨[],some a⟩
  bind x f := match x.result with
    | none => ⟨x.calls,none⟩
    | some a => ⟨x.calls ++ (f a).calls,(f a).result⟩

/-- It stops without a call. -/
def stop : Recorded ε α := ⟨[],none⟩

@[simp] theorem result_pure (a : α) : (pure a : Recorded ε α).result = some a := rfl
@[simp] theorem calls_pure (a : α) : (pure a : Recorded ε α).calls = [] := rfl
@[simp] theorem result_stop : (stop : Recorded ε α).result = none := rfl
@[simp] theorem calls_stop : (stop : Recorded ε α).calls = [] := rfl

theorem bind_of_some {x : Recorded ε α} {a : α} (h : x.result = some a) (f : α → Recorded ε β) :
    x >>= f = ⟨x.calls ++ (f a).calls,(f a).result⟩ := by
  change (match x.result with
    | none => _
    | some a => _) = _
  rw [h]

theorem bind_of_none {x : Recorded ε α} (h : x.result = none) (f : α → Recorded ε β) :
    x >>= f = ⟨x.calls,none⟩ := by
  change (match x.result with
    | none => _
    | some a => _) = _
  rw [h]

@[simp] theorem result_bind (x : Recorded ε α) (f : α → Recorded ε β) :
    (x >>= f).result = x.result.bind fun a => (f a).result := by
  cases h : x.result with
  | none => rw [bind_of_none h, Option.bind_none]
  | some a => rw [bind_of_some h, Option.bind_some]

/-- Leaving out the record of a loop. -/
theorem result_foldlM {γ : Type*} {f : α → γ → Recorded ε α} {g : α → γ → Option α}
    (h : ∀ a c, (f a c).result = g a c) (l : List γ) (a : α) :
    (l.foldlM f a).result = l.foldlM g a := by
  induction l generalizing a with
  | nil => rfl
  | cons c l ih =>
    rw [List.foldlM_cons, List.foldlM_cons, result_bind, h]
    exact congrArg _ (funext fun b => ih b)

/-- The part that a computation leaves is the one its calls lead to. -/
def Follows (after : σ → ε → σ) (part : α → σ) (x : Recorded ε α) (s : σ) : Prop :=
  ∀ a, x.result = some a → part a = x.calls.foldl after s

section Follows
variable {after : σ → ε → σ} {part : α → σ} {part' : β → σ} {s : σ}

theorem Follows.pure {a : α} (h : part a = s) : (pure a : Recorded ε α).Follows after part s := by
  intro b hb
  cases hb
  exact h

theorem Follows.stop : (stop : Recorded ε α).Follows after part s := fun _ hb => by cases hb

theorem Follows.bind {x : Recorded ε α} {f : α → Recorded ε β} (hx : x.Follows after part s)
    (hf : ∀ a, x.result = some a → (f a).Follows after part' (part a)) :
    (x >>= f).Follows after part' s := by
  intro b hb
  cases h : x.result with
  | none =>
    rw [bind_of_none h] at hb
    cases hb
  | some a =>
    rw [bind_of_some h] at hb ⊢
    rw [List.foldl_append, ← hx a h]
    exact hf a h b hb

theorem Follows.foldlM {γ : Type*} {f : α → γ → Recorded ε α}
    (hf : ∀ a c, (f a c).Follows after part (part a)) (l : List γ) (a : α) :
    (l.foldlM f a).Follows after part (part a) := by
  induction l generalizing a with
  | nil => exact Follows.pure rfl
  | cons c l ih =>
    rw [List.foldlM_cons]
    exact (hf a c).bind fun b _ => ih b

end Follows
end Recorded

/-- Every call of a list meets a condition at the state in which it is made. -/
def Along (after : σ → ε → σ) (P : σ → ε → Prop) : σ → List ε → Prop
  | _, [] => True
  | s, c :: cs => P s c ∧ Along after P (after s c) cs

section Along
variable {after : σ → ε → σ} {P Q : σ → ε → Prop} {s : σ} {cs ds : List ε}

theorem along_append : Along after P s (cs ++ ds) ↔ Along after P s cs ∧ Along after P (cs.foldl after s) ds := by
  induction cs generalizing s with
  | nil => simp [Along]
  | cons c cs ih => simp [Along, ih, and_assoc]

/-- Two conditions that agree where an invariant holds agree along every list of calls. -/
theorem along_iff {I : σ → Prop} (hPQ : ∀ s c, I s → (P s c ↔ Q s c))
    (hnext : ∀ s c, I s → P s c → I (after s c)) (hs : I s) :
    Along after P s cs ↔ Along after Q s cs := by
  induction cs generalizing s with
  | nil => exact Iff.rfl
  | cons c cs ih =>
    unfold Along
    rw [← hPQ s c hs]
    exact and_congr_right fun h => ih (hnext s c hs h)

/-- Each recorded call meets a condition. -/
def Recorded.Obeys {α : Type v} (after : σ → ε → σ) (P : σ → ε → Prop) (x : Recorded ε α) (s : σ) : Prop :=
  Along after P s x.calls

theorem Recorded.Obeys.pure {α : Type v} {a : α} : (pure a : Recorded ε α).Obeys after P s := trivial

/-- Two computations in a row. -/
theorem Recorded.Obeys.bind {α β : Type v} {x : Recorded ε α} {f : α → Recorded ε β} {part : α → σ}
    (h : x.Obeys after P s) (hx : x.Follows after part s)
    (hf : ∀ a, x.result = some a → (f a).Obeys after P (part a)) : (x >>= f).Obeys after P s := by
  unfold Recorded.Obeys
  cases hr : x.result with
  | none =>
    rw [Recorded.bind_of_none hr]
    exact h
  | some a =>
    rw [Recorded.bind_of_some hr]
    refine along_append.mpr ⟨h,?_⟩
    rw [← hx a hr]
    exact hf a hr

end Along
end X86OsDev.Recording
