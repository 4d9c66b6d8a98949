import Mathlib.Tactic.Common

/-! # Programs that a power cut can interrupt

A program works on a state, part of which is persistent. It is run with a
number of persistent updates after which the power fails, or with none. Triples
have two postconditions: one for a run that ends, one for the state in which
the power fails or the program stops itself.
-/
namespace X86OsDev.Crash

/-- The persistent updates left before the power fails; `none` for no failure. -/
abbrev Power := Option ℕ

inductive Outcome (σ α : Type)
  | done (a : α) (s : σ) (power : Power)
  | cut (s : σ)
  | halted (s : σ)

/-- The state in which a run ended, for whatever reason. -/
def Outcome.state {σ α : Type} : Outcome σ α → σ
  | .done _ s _ => s
  | .cut s => s
  | .halted s => s

def Prog (σ α : Type) := σ → Power → Outcome σ α

namespace Prog
variable {σ α β : Type}

def ret (a : α) : Prog σ α := fun s p => .done a s p

def andThen (m : Prog σ α) (f : α → Prog σ β) : Prog σ β := fun s p =>
  match m s p with
  | .done a s p => f a s p
  | .cut s => .cut s
  | .halted s => .halted s

instance : Monad (Prog σ) where
  pure := ret
  bind := andThen

/-- Continue with the state as it is now. -/
def withState (f : σ → Prog σ α) : Prog σ α := fun s p => f s s p

/-- An update of the volatile part. -/
def modify (f : σ → σ) : Prog σ Unit := fun s p => .done () (f s) p

/-- An atomic persistent update: the power fails before it or it takes effect. -/
def persist (f : σ → σ) : Prog σ Unit := fun s p =>
  match p with
  | none => .done () (f s) none
  | some 0 => .cut s
  | some (k + 1) => .done () (f s) (some k)

/-- The program stops itself. -/
def halt : Prog σ α := fun s _ => .halted s

/-- `for(i = 0; i < n; i++) body(i)` -/
def forUpTo (body : ℕ → Prog σ Unit) : ℕ → Prog σ Unit
  | 0 => pure ()
  | n + 1 => do forUpTo body n; body n

/-- The elements of a list in order. -/
def forEach (body : α → Prog σ Unit) : List α → Prog σ Unit
  | [] => pure ()
  | a :: l => do body a; forEach body l

end Prog

open Prog
variable {σ α β : Type}

/-- From `P`, a run that ends is in `Q` and one that does not is in `C`. -/
def Triple (P : σ → Prop) (m : Prog σ α) (Q : α → σ → Prop) (C : σ → Prop) : Prop :=
  ∀ s p, P s → match m s p with
    | .done a t _ => Q a t
    | .cut t => C t
    | .halted t => C t

/-- Without a power cut the program runs to its end. -/
def Total (m : Prog σ α) : Prop := ∀ s, ∃ a t, m s none = .done a t none

section Rules
variable {P P' : σ → Prop} {Q Q' : α → σ → Prop} {R : β → σ → Prop} {C C' : σ → Prop}

theorem Triple.conseq {m : Prog σ α} (h : Triple P' m Q' C') (hP : ∀ s, P s → P' s)
    (hQ : ∀ a s, Q' a s → Q a s) (hC : ∀ s, C' s → C s) : Triple P m Q C := by
  intro s p hs
  have hm := h s p (hP s hs)
  cases hr : m s p with
  | done a t q => exact hQ a t (by simpa [hr] using hm)
  | cut t => exact hC t (by simpa [hr] using hm)
  | halted t => exact hC t (by simpa [hr] using hm)

theorem Triple.ret (a : α) (h : ∀ s, P s → Q a s) : Triple P (pure a) Q C := fun s _ hs => h s hs

theorem Triple.bind {m : Prog σ α} {f : α → Prog σ β} (hm : Triple P m Q C)
    (hf : ∀ a, Triple (Q a) (f a) R C) : Triple P (m >>= f) R C := by
  intro s p hs
  have h1 := hm s p hs
  change match andThen m f s p with | .done a t _ => R a t | .cut t => C t | .halted t => C t
  unfold andThen
  cases hr : m s p with
  | done a t q => exact hf a t q (by simpa [hr] using h1)
  | cut t => simpa [hr] using h1
  | halted t => simpa [hr] using h1

theorem Triple.withState {f : σ → Prog σ α} (h : ∀ s, P s → Triple (fun t => t = s) (f s) Q C) :
    Triple P (withState f) Q C := fun s p hs => h s hs s p rfl

theorem Triple.modify {Q : Unit → σ → Prop} {f : σ → σ} (h : ∀ s, P s → Q () (f s)) :
    Triple P (modify f) Q C := fun s _ hs => h s hs

theorem Triple.persist {Q : Unit → σ → Prop} {f : σ → σ} (h : ∀ s, P s → Q () (f s))
    (hC : ∀ s, P s → C s) : Triple P (persist f) Q C := by
  intro s p hs
  match p with
  | none => exact h s hs
  | some 0 => exact hC s hs
  | some (k + 1) => exact h s hs

theorem Triple.halt (hC : ∀ s, P s → C s) : Triple P (halt : Prog σ α) Q C := fun s _ hs => hC s hs

/-- The loop rule: an invariant of the number of rounds made. -/
theorem Triple.forUpTo {body : ℕ → Prog σ Unit} {I : ℕ → σ → Prop} {n : ℕ}
    (h : ∀ i < n, Triple (I i) (body i) (fun _ => I (i + 1)) C) :
    Triple (I 0) (forUpTo body n) (fun _ => I n) C := by
  induction n with
  | zero => exact Triple.ret () (fun _ hs => hs)
  | succ n ih => exact Triple.bind (ih (fun i hi => h i (by omega))) (fun _ => h n (by omega))

/-- What a run without a power cut gives. -/
theorem Triple.of_total {m : Prog σ α} (h : Triple P m Q C) (ht : Total m) {s : σ} (hs : P s) :
    ∃ a t, m s none = .done a t none ∧ Q a t := by
  obtain ⟨a,t,hm⟩ := ht s
  have := h s none hs
  rw [hm] at this
  exact ⟨a,t,hm,this⟩

theorem Triple.state {m : Prog σ α} (h : Triple P m Q C) (hQ : ∀ a s, Q a s → C s) {s : σ}
    (hs : P s) (p : Power) : C (m s p).state := by
  have hm := h s p hs
  cases hr : m s p with
  | done a t q => exact hQ a t (by simpa [hr] using hm)
  | cut t => simpa [hr, Outcome.state] using hm
  | halted t => simpa [hr, Outcome.state] using hm

end Rules

section Totality

theorem Total.ret (a : α) : Total (pure a : Prog σ α) := fun s => ⟨a,s,rfl⟩

theorem Total.bind {m : Prog σ α} {f : α → Prog σ β} (hm : Total m) (hf : ∀ a, Total (f a)) :
    Total (m >>= f) := by
  intro s
  obtain ⟨a,t,h1⟩ := hm s
  obtain ⟨b,u,h2⟩ := hf a t
  refine ⟨b,u,?_⟩
  change andThen m f s none = _
  rw [andThen, h1]
  exact h2

theorem Total.withState {f : σ → Prog σ α} (h : ∀ s, Total (f s)) : Total (Prog.withState f) :=
  fun s => h s s

theorem Total.modify (f : σ → σ) : Total (Prog.modify f) := fun s => ⟨(),f s,rfl⟩

theorem Total.persist (f : σ → σ) : Total (Prog.persist f) := fun s => ⟨(),f s,rfl⟩

theorem Total.forUpTo {body : ℕ → Prog σ Unit} (h : ∀ i, Total (body i)) (n : ℕ) :
    Total (Prog.forUpTo body n) := by
  induction n with
  | zero => exact Total.ret ()
  | succ n ih => exact Total.bind ih (fun _ => h n)

end Totality

end X86OsDev.Crash
