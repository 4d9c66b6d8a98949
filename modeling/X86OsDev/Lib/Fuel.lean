import Mathlib.Order.Nat
import Mathlib.Data.Option.Basic

/-! # Computations with fuel

A recursion that may not end is cut off at a depth. More fuel gives more results
and never another one: with a step that keeps this order, all the results that a
computation has at any depth are one.
-/
namespace X86OsDev.Fuel

variable {α β : Type*} {x y z : Option α}

/-- Whatever the first computation gives, the second one gives. -/
def Below (x y : Option α) : Prop := ∀ a, x = some a → y = some a

theorem Below.refl (x : Option α) : Below x x := fun _ h => h

theorem Below.trans (h : Below x y) (h' : Below y z) : Below x z := fun a ha => h' a (h a ha)

theorem Below.none (y : Option α) : Below .none y := fun _ h => by cases h

theorem Below.bind {f g : α → Option β} (h : Below x y) (hf : ∀ a, Below (f a) (g a)) : Below (x.bind f) (y.bind g) := by
  intro b hb
  obtain ⟨a,ha,hb⟩ := Option.bind_eq_some_iff.mp hb
  exact Option.bind_eq_some_iff.mpr ⟨a,h a ha,hf a b hb⟩

theorem Below.foldlM {σ : Type*} {f g : σ → α → Option σ} (h : ∀ s a, Below (f s a) (g s a)) (l : List α) (s : σ) :
    Below (l.foldlM f s) (l.foldlM g s) := by
  induction l generalizing s with
  | nil => exact .refl _
  | cons a l ih => exact (h s a).bind ih

/-- What each unit of fuel keeps holds for all the fuel. -/
theorem below_of_le {f : ℕ → α → Option β} (h : ∀ n a, Below (f n a) (f (n + 1) a)) {n k : ℕ} (hle : n ≤ k) (a : α) :
    Below (f n a) (f k a) := by
  induction hle with
  | refl => exact .refl _
  | step _ ih => exact ih.trans (h _ a)

/-- A computation has one result. -/
theorem result_unique {f : ℕ → α → Option β} (h : ∀ n a, Below (f n a) (f (n + 1) a)) {n k : ℕ} {a : α} {b c : β}
    (hb : f n a = some b) (hc : f k a = some c) : b = c := by
  have hb' := below_of_le h (le_max_left n k) a b hb
  have hc' := below_of_le h (le_max_right n k) a c hc
  exact Option.some.inj (hb'.symm.trans hc')

end X86OsDev.Fuel
