import Mathlib.Logic.Relation

/-! # Runs of labelled transition relations

A system is given by its initial states and a relation between a state, an
action and the next state. A run is never materialized: the reached states are
an inductive predicate, and a run whose steps all meet a condition is a run of
the relation cut down to those steps.
-/
namespace X86OsDev.Transition

variable {σ α : Type*} {start : σ → Prop} {step : σ → α → σ → Prop}

/-- The states reached from the initial ones by finitely many steps. -/
inductive Reachable (start : σ → Prop) (step : σ → α → σ → Prop) : σ → Prop
  | base {s : σ} (h : start s) : Reachable start step s
  | next {s t : σ} {a : α} (hs : Reachable start step s) (h : step s a t) : Reachable start step t

/-- The steps taken from a state and by an action that meet a condition. -/
def Guarded (cond : σ → α → Prop) (step : σ → α → σ → Prop) (s : σ) (a : α) (t : σ) : Prop :=
  cond s a ∧ step s a t

/-- One state leads to another by finitely many steps. -/
def Leads (step : σ → α → σ → Prop) : σ → σ → Prop :=
  Relation.ReflTransGen (fun s t => ∃ a, step s a t)

/-- The relation of a partial step function. -/
def OfFun (f : σ → α → Option σ) (s : σ) (a : α) (t : σ) : Prop := f s a = some t

/-- What holds at first and is kept by each step holds in every reached state. -/
theorem Reachable.invariant {s : σ} (h : Reachable start step s) {I : σ → Prop}
    (hbase : ∀ s, start s → I s) (hstep : ∀ s a t, I s → step s a t → I t) : I s := by
  induction h with
  | base h => exact hbase _ h
  | next _ h ih => exact hstep _ _ _ ih h

/-- A run of guarded steps is a run. -/
theorem Reachable.of_guarded {cond : σ → α → Prop} {s : σ}
    (h : Reachable start (Guarded cond step) s) : Reachable start step s := by
  induction h with
  | base h => exact .base h
  | next _ h ih => exact .next ih h.2

theorem Reachable.leads {s t : σ} (h : Reachable start step s) (hl : Leads step s t) :
    Reachable start step t := by
  induction hl with
  | refl => exact h
  | tail _ h ih =>
    obtain ⟨a,ha⟩ := h
    exact .next ih ha

/-- Running a list of actions from a reached state reaches a state. -/
theorem Reachable.foldlM {f : σ → α → Option σ} {s t : σ} (l : List α)
    (h : Reachable start (OfFun f) s) (hl : l.foldlM f s = some t) : Reachable start (OfFun f) t := by
  induction l generalizing s with
  | nil =>
    cases hl
    exact h
  | cons a l ih =>
    rw [List.foldlM_cons, Option.bind_eq_bind, Option.bind_eq_some_iff] at hl
    obtain ⟨u,hu,hl⟩ := hl
    exact ih (.next h hu) hl

theorem Leads.head {s t u : σ} {a : α} (h : step s a t) (hl : Leads step t u) : Leads step s u :=
  Relation.ReflTransGen.head ⟨a,h⟩ hl

theorem Leads.refl (s : σ) : Leads step s s := Relation.ReflTransGen.refl

end X86OsDev.Transition
