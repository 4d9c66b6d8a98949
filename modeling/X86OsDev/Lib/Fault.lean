import Mathlib.Logic.Basic
import Mathlib.Order.Defs.Unbundled

/-! # Programs with state that may fault

A program takes a state and either returns a value and a state or stops with a
fault. The rules say how a sequence of programs runs once it is known how its
parts run.
-/
namespace X86OsDev.Fault

abbrev Prog (σ ε : Type) := StateT σ (Except ε)

variable {σ ε α β : Type} {x : Prog σ ε α} {f : α → Prog σ ε β} {s s' : σ} {a : α} {e : ε}

theorem bind_ok (h : x s = .ok (a,s')) : (x >>= f) s = f a s' := by
  change (x s >>= fun p => f p.1 p.2) = _
  rw [h]
  rfl

theorem bind_error (h : x s = .error e) : (x >>= f) s = .error e := by
  change (x s >>= fun p => f p.1 p.2) = _
  rw [h]
  rfl

/-- A program that runs alike from two states runs alike in front of a sequence. -/
theorem bind_same {s t : σ} (h : x s = x t) : (x >>= f) s = (x >>= f) t := by
  change (x s >>= fun p => f p.1 p.2) = (x t >>= fun p => f p.1 p.2)
  rw [h]

theorem bind_eq_ok {b : β} (h : (x >>= f) s = .ok (b,s')) :
    ∃ a t, x s = .ok (a,t) ∧ f a t = .ok (b,s') := by
  cases hx : x s with
  | error e =>
    rw [bind_error hx] at h
    cases h
  | ok p =>
    rw [bind_ok (a := p.1) hx] at h
    exact ⟨p.1,p.2,rfl,h⟩

@[simp] theorem pure_ok : (pure a : Prog σ ε α) s = .ok (a,s) := rfl
@[simp] theorem get_ok : (get : Prog σ ε σ) s = .ok (s,s) := rfl
@[simp] theorem set_ok : (set s' : Prog σ ε PUnit) s = .ok (⟨⟩,s') := rfl
@[simp] theorem modify_ok (g : σ → σ) : (modify g : Prog σ ε PUnit) s = .ok (⟨⟩,g s) := rfl
@[simp] theorem throw_error : (throw e : Prog σ ε α) s = .error e := rfl

/-- A program returns with `Q` or stops with a fault that `E` allows. -/
def Ends (x : Prog σ ε α) (s : σ) (E : ε → Prop) (Q : α → σ → Prop) : Prop :=
  match x s with
  | .ok (a,t) => Q a t
  | .error e => E e

section Ends
variable {E E' : ε → Prop} {Q Q' : α → σ → Prop} {R : β → σ → Prop}

theorem ends_of_ok (h : x s = .ok (a,s')) : Ends x s E Q ↔ Q a s' := by
  unfold Ends
  rw [h]

theorem ends_of_error (h : x s = .error e) : Ends x s E Q ↔ E e := by
  unfold Ends
  rw [h]

theorem Ends.ok (h : Ends x s E Q) (hx : x s = .ok (a,s')) : Q a s' := (ends_of_ok hx).mp h

theorem Ends.error (h : Ends x s E Q) (hx : x s = .error e) : E e := (ends_of_error hx).mp h

theorem Ends.intro (hok : ∀ a s', x s = .ok (a,s') → Q a s') (herr : ∀ e, x s = .error e → E e) :
    Ends x s E Q := by
  unfold Ends
  cases hx : x s with
  | error e => exact herr e hx
  | ok p => exact hok p.1 p.2 hx

/-- The rule of sequences. -/
theorem Ends.bind (h : Ends x s E fun a t => Ends (f a) t E R) : Ends (x >>= f) s E R := by
  cases hx : x s with
  | error e => exact (ends_of_error (bind_error hx)).mpr (h.error hx)
  | ok p =>
    unfold Ends
    rw [bind_ok (a := p.1) hx]
    exact h.ok hx

/-- The rule of consequence. -/
theorem Ends.mono (h : Ends x s E Q) (hQ : ∀ a t, Q a t → Q' a t) (hE : ∀ e, E e → E' e) :
    Ends x s E' Q' :=
  .intro (fun a t hx => hQ a t (h.ok hx)) (fun e hx => hE e (h.error hx))

theorem Ends.imp (h : Ends x s E Q) (hQ : ∀ a t, Q a t → Q' a t) : Ends x s E Q' :=
  h.mono hQ fun _ => id

/-- A program whose specification is known runs before the rest of a sequence. -/
theorem Ends.seq (h : Ends x s E Q) (hf : ∀ a t, Q a t → Ends (f a) t E R) :
    Ends (x >>= f) s E R := .bind (h.imp hf)

theorem Ends.seq_ok (h : x s = .ok (a,s')) (hf : Ends (f a) s' E R) : Ends (x >>= f) s E R :=
  .bind ((ends_of_ok h).mpr hf)

/-- What two specifications say of a program holds together. -/
theorem Ends.and (h : Ends x s E Q) (h' : Ends x s E' Q') :
    Ends x s (fun e => E e ∧ E' e) fun a t => Q a t ∧ Q' a t :=
  .intro (fun _ _ hx => ⟨h.ok hx,h'.ok hx⟩) fun _ hx => ⟨h.error hx,h'.error hx⟩

theorem Ends.exists_ok (h : Ends x s E Q) (hE : ∀ e, ¬ E e) : ∃ a t, x s = .ok (a,t) ∧ Q a t := by
  cases hx : x s with
  | error e => exact absurd (h.error hx) (hE e)
  | ok p => exact ⟨p.1,p.2,rfl,h.ok hx⟩

theorem Ends.exists_error (h : Ends x s E Q) (hQ : ∀ a t, ¬ Q a t) : ∃ e, x s = .error e ∧ E e := by
  cases hx : x s with
  | error e => exact ⟨e,rfl,h.error hx⟩
  | ok p => exact absurd (h.ok hx) (hQ p.1 p.2)

@[simp] theorem ends_pure : Ends (pure a : Prog σ ε α) s E Q ↔ Q a s := .rfl
@[simp] theorem ends_throw : Ends (throw e : Prog σ ε α) s E Q ↔ E e := .rfl

end Ends

/-- The state that a program leaves is related to the one it found. -/
def Respects (R : σ → σ → Prop) (x : Prog σ ε α) : Prop := ∀ s a s', x s = .ok (a,s') → R s s'

section Respects
variable {R : σ → σ → Prop} [IsPreorder σ R]

theorem Respects.pure (a : α) : Respects R (pure a : Prog σ ε α) := by
  intro s b s' h
  cases h
  exact refl_of R s

theorem Respects.get : Respects R (get : Prog σ ε σ) := by
  intro s b s' h
  cases h
  exact refl_of R s

omit [IsPreorder σ R] in
theorem Respects.throw (e : ε) : Respects R (throw e : Prog σ ε α) := by
  intro s b s' h
  cases h

omit [IsPreorder σ R] in
theorem Respects.modify {g : σ → σ} (h : ∀ s, R s (g s)) : Respects R (modify g : Prog σ ε PUnit) := by
  intro s b s' hs
  cases hs
  exact h s

theorem Respects.bind (hx : Respects R x) (hf : ∀ a, Respects R (f a)) : Respects R (x >>= f) := by
  intro s b s' h
  obtain ⟨a,t,h1,h2⟩ := bind_eq_ok h
  exact trans_of R (hx s a t h1) (hf a t b s' h2)

end Respects

/-- A program keeps an invariant, and what it returns meets a condition. -/
def Preserves (I : σ → Prop) (x : Prog σ ε α) (P : α → Prop) : Prop := ∀ s a t, I s → x s = .ok (a,t) → I t ∧ P a

section Preserves
variable {I : σ → Prop} {P P' : α → Prop} {Q : β → Prop}

theorem Preserves.pure (h : P a) : Preserves I (pure a : Prog σ ε α) P := by
  intro s b t hs hx
  cases hx
  exact ⟨hs,h⟩

theorem Preserves.throw (e : ε) : Preserves I (throw e : Prog σ ε α) P := by
  intro s b t hs hx
  cases hx

theorem Preserves.modify {g : σ → σ} (h : ∀ s, I s → I (g s)) : Preserves I (modify g : Prog σ ε PUnit) fun _ => True := by
  intro s b t hs hx
  cases hx
  exact ⟨h s hs,trivial⟩

theorem Preserves.bind (hx : Preserves I x P) (hf : ∀ a, P a → Preserves I (f a) Q) : Preserves I (x >>= f) Q := by
  intro s b t hs hb
  obtain ⟨a,u,h1,h2⟩ := bind_eq_ok hb
  obtain ⟨hu,ha⟩ := hx s a u hs h1
  exact hf a ha u b t hu h2

theorem Preserves.get_bind {g : σ → Prog σ ε β} (hg : ∀ s, I s → Preserves I (g s) Q) : Preserves I (get >>= g) Q :=
  fun s b t hs hb => hg s hs s b t hs hb

theorem Preserves.imp (hx : Preserves I x P) (h : ∀ a, P a → P' a) : Preserves I x P' := fun s a t hs ha =>
  (hx s a t hs ha).imp_right (h a)

/-- Only what a program returns counts if nothing is asked of the state. -/
theorem Preserves.of_last (hf : ∀ a, Preserves (fun _ => True) (f a) Q) : Preserves (fun _ => True) (x >>= f) Q :=
  Preserves.bind (P := fun _ => True) (fun _ _ _ _ _ => ⟨trivial,trivial⟩) fun a _ => hf a

end Preserves

end X86OsDev.Fault
