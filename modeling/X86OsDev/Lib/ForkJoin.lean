import Mathlib.Algebra.BigOperators.Group.Finset.Basic
import Mathlib.Data.Set.Card
import Mathlib.Data.Finset.Lattice.Fold

/-! # Processes that fork, wait and exit

A process is named by the forks that led to it, the last one first. The label
of a fork tells whether the parent waits for the child. A discipline gives the
number of children that a process has yet to wait for; where all processes
follow it, one that waits for nobody has no waited child below it.
-/
namespace X86OsDev.ForkJoin

inductive Slot (α : Type)
  | unused
  | zombie
  | live (a : α)
  deriving DecidableEq

def Slot.isZombie {α : Type} : Slot α → Bool
  | .zombie => true
  | _ => false

theorem Slot.eq_zombie {α : Type} {s : Slot α} (h : s.isZombie) : s = .zombie := by
  cases s with
  | zombie => rfl
  | unused => cases h
  | live a => cases h

/-- The processes. `names` has all names that were given, `parent` is `none` for a process whose parent
has exited. -/
structure Tree (ι α : Type) where
  names : Finset (List ι)
  slot : List ι → Slot α
  parent : List ι → Option (List ι)

variable {ι α : Type} [DecidableEq ι] (t : Tree ι α)

/-- The process `p` goes on as `a`. -/
def Tree.put (p : List ι) (a : α) : Tree ι α :=
  { t with slot := Function.update t.slot p (.live a) }

/-- The process `p` goes on as `a` and has a new child `b`. -/
def Tree.fork (p : List ι) (x : ι) (a b : α) : Tree ι α where
  names := insert (x :: p) t.names
  slot := Function.update (Function.update t.slot p (.live a)) (x :: p) (.live b)
  parent := Function.update t.parent (x :: p) (some p)

def Tree.exit (p : List ι) : Tree ι α :=
  { t with
    slot := Function.update t.slot p .zombie
    parent := fun q => if t.parent q = some p then none else t.parent q }

/-- The slot of the zombie `q` is given back. -/
def Tree.free (q : List ι) : Tree ι α :=
  { t with slot := Function.update t.slot q .unused, parent := Function.update t.parent q none }

/-- The process `p` waits for its child `q` and goes on as `a`. -/
def Tree.wait (p q : List ι) (a : α) : Tree ι α := (t.put p a).free q

def Tree.hasChild (p : List ι) : Bool := decide (∃ q ∈ t.names, t.parent q = some p)

/-- `owes` is the number of waited children that a process has yet to wait for. A loose process may have
children that nobody waits for, and then it owes nothing. -/
structure Discipline (ι α : Type) where
  waited : ι → Prop
  owes : α → ℕ
  loose : α → Prop
  owes_loose : ∀ a, loose a → owes a = 0

variable {t} (D : Discipline ι α)

def Tree.waiting (t : Tree ι α) (p : List ι) : Set ι := {x | D.waited x ∧ t.parent (x :: p) = some p}

/-- The children that a process has yet to wait for are there. -/
structure Discipline.Inv (t : Tree ι α) : Prop where
  named : ∀ p, t.slot p ≠ .unused → p ∈ t.names
  child : ∀ p q, t.parent q = some p → (∃ x, q = x :: p) ∧ t.slot q ≠ .unused
  parent : ∀ p q, t.parent q = some p → ∃ a, t.slot p = .live a
  enough : ∀ p a, t.slot p = .live a → D.owes a ≤ (t.waiting D p).encard
  waited : ∀ p a x, t.slot p = .live a → ¬ D.loose a → t.parent (x :: p) = some p → D.waited x

/-- A process has no other waited children, and no waited process is left by its parent. -/
structure Discipline.Joined (t : Tree ι α) : Prop where
  few : ∀ p a, t.slot p = .live a → (t.waiting D p).encard ≤ D.owes a
  kept : ∀ p x, D.waited x → t.slot (x :: p) ≠ .unused → t.parent (x :: p) = some p

section Ops
variable {D} {p q : List ι} {x : ι} {a a' b : α}

theorem slot_put : (t.put p a').slot q = if q = p then .live a' else t.slot q := by
  simp [Tree.put,Function.update_apply]

theorem slot_fork : (t.fork p x a' b).slot q =
    if q = x :: p then .live b else if q = p then .live a' else t.slot q := by
  simp [Tree.fork,Function.update_apply]

theorem parent_fork : (t.fork p x a' b).parent q = if q = x :: p then some p else t.parent q := by
  simp [Tree.fork,Function.update_apply]

theorem slot_exit : (t.exit p).slot q = if q = p then .zombie else t.slot q := by
  simp [Tree.exit,Function.update_apply]

theorem slot_free : (t.free p).slot q = if q = p then .unused else t.slot q := by
  simp [Tree.free,Function.update_apply]

theorem parent_free : (t.free p).parent q = if q = p then none else t.parent q := by
  simp [Tree.free,Function.update_apply]

theorem parent_exit {r : List ι} : (t.exit p).parent q = some r ↔ t.parent q = some r ∧ r ≠ p := by
  simp only [Tree.exit]
  split_ifs with h
  · simp [h,eq_comm]
  · constructor
    · rintro hr
      exact ⟨hr,fun hp => h (hr.trans (congrArg some hp))⟩
    · exact And.left

end Ops

/-! ### What holds of each process -/

section Each
variable {I : List ι → α → Prop} {p q : List ι} {x : ι} {a a' b : α}

/-- Each process that has not exited satisfies `I`. -/
def Tree.Each (I : List ι → α → Prop) (t : Tree ι α) : Prop := ∀ p a, t.slot p = .live a → I p a

theorem Tree.Each.put (h : t.Each I) (ha : I p a') : (t.put p a').Each I := by
  intro r c hc
  rw [slot_put] at hc
  split_ifs at hc with hr
  · cases hc
    exact hr ▸ ha
  · exact h r c hc

theorem Tree.Each.fork (h : t.Each I) (ha : I p a') (hb : I (x :: p) b) : (t.fork p x a' b).Each I := by
  intro r c hc
  rw [slot_fork] at hc
  split_ifs at hc with hr hr
  · cases hc
    exact hr ▸ hb
  · cases hc
    exact hr ▸ ha
  · exact h r c hc

theorem Tree.Each.exit (h : t.Each I) : (t.exit p).Each I := by
  intro r c hc
  rw [slot_exit] at hc
  split_ifs at hc
  exact h r c hc

theorem Tree.Each.free (h : t.Each I) : (t.free q).Each I := by
  intro r c hc
  rw [slot_free] at hc
  split_ifs at hc
  exact h r c hc

theorem Tree.Each.wait (h : t.Each I) (ha : I p a') : (t.wait p q a').Each I := (h.put ha).free

end Each

namespace Discipline
variable {D} {p q : List ι} {x : ι} {a a' b : α}

theorem Inv.put (h : D.Inv t) (hp : t.slot p = .live a) (ho : D.owes a' ≤ D.owes a) (hl : D.loose a → D.loose a') :
    D.Inv (t.put p a') where
  named r hr := by
    rw [slot_put] at hr
    split_ifs at hr with hrp
    · exact h.named r (by rw [hrp,hp]; simp)
    · exact h.named r hr
  child r q hq := by
    obtain ⟨hx,hs⟩ := h.child r q hq
    refine ⟨hx,?_⟩
    rw [slot_put]
    split_ifs
    · simp
    · exact hs
  parent r q hq := by
    obtain ⟨c,hc⟩ := h.parent r q hq
    rw [slot_put]
    split_ifs
    · exact ⟨a',rfl⟩
    · exact ⟨c,hc⟩
  enough r c hc := by
    rw [slot_put] at hc
    split_ifs at hc with hr
    · cases hc
      subst hr
      exact (Nat.cast_le.mpr ho).trans (h.enough r a hp)
    · exact h.enough r c hc
  waited r c y hc hn hy := by
    rw [slot_put] at hc
    split_ifs at hc with hr
    · cases hc
      subst hr
      exact h.waited r a y hp (fun ha => hn (hl ha)) hy
    · exact h.waited r c y hc hn hy

theorem Joined.put (h : D.Joined t) (hp : t.slot p = .live a) (ho : D.owes a ≤ D.owes a') :
    D.Joined (t.put p a') where
  few r c hc := by
    rw [slot_put] at hc
    split_ifs at hc with hr
    · cases hc
      subst hr
      exact (h.few r a hp).trans (Nat.cast_le.mpr ho)
    · exact h.few r c hc
  kept r y hy hs := by
    rw [slot_put] at hs
    split_ifs at hs with hr
    · exact h.kept r y hy (by rw [hr,hp]; simp)
    · exact h.kept r y hy hs

variable (D) in
/-- The fork `x` by which `a` goes on as `a'` and has the child `b` follows the discipline. -/
structure Forks (a : α) (x : ι) (a' b : α) : Prop where
  join : D.waited x → D.owes a' = D.owes a + 1
  detach : ¬ D.waited x → D.loose a' ∧ D.owes a = 0
  loose : D.loose a → D.loose a'
  fresh : D.owes b = 0

omit [DecidableEq ι] in
theorem Inv.no_children (h : D.Inv t) (hp : t.slot p = .unused) : t.parent q ≠ some p := by
  intro hq
  obtain ⟨a,ha⟩ := h.parent p q hq
  rw [hp] at ha
  cases ha

omit [DecidableEq ι] in
theorem Inv.parent_unused (h : D.Inv t) (hq : t.slot q = .unused) : t.parent q ≠ some p :=
  fun hp => (h.child p q hp).2 hq

theorem waiting_fork (hx : D.waited x) : (t.fork p x a' b).waiting D p = insert x (t.waiting D p) := by
  ext y
  simp only [Tree.waiting,Set.mem_ofPred_eq,Set.mem_insert_iff,parent_fork,List.cons.injEq,and_true]
  split_ifs with hy
  · simp [hy,hx]
  · simp [hy]

theorem waiting_fork_detached (hq : t.parent (x :: p) ≠ some p) (hx : ¬ D.waited x) :
    (t.fork p x a' b).waiting D p = t.waiting D p := by
  ext y
  simp only [Tree.waiting,Set.mem_ofPred_eq,parent_fork,List.cons.injEq,and_true]
  split_ifs with hy
  · subst hy
    simp [hx]
  · rfl

theorem waiting_fork_other {r : List ι} (hr : r ≠ p) : (t.fork p x a' b).waiting D r = t.waiting D r := by
  ext y
  simp [Tree.waiting,parent_fork,hr]

omit [DecidableEq ι] in
theorem Inv.notMem_waiting (h : D.Inv t) (hq : t.slot (x :: p) = .unused) : x ∉ t.waiting D p :=
  fun hx => h.parent_unused hq hx.2

theorem Inv.fork (h : D.Inv t) (hp : t.slot p = .live a) (hq : t.slot (x :: p) = .unused)
    (hf : D.Forks a x a' b) : D.Inv (t.fork p x a' b) where
  named r hr := by
    rw [slot_fork] at hr
    refine Finset.mem_insert.mpr ?_
    split_ifs at hr with hrx hrp
    · exact .inl hrx
    · exact .inr (h.named r (by rw [hrp,hp]; simp))
    · exact .inr (h.named r hr)
  child r q hr := by
    rw [parent_fork] at hr
    rw [slot_fork]
    split_ifs at hr ⊢ with hqx hqp
    · cases hr
      exact ⟨⟨x,hqx⟩,by simp⟩
    · exact ⟨(h.child r q hr).1,by simp⟩
    · exact h.child r q hr
  parent r q hr := by
    rw [slot_fork]
    split_ifs with hrx hrp
    · exact ⟨b,rfl⟩
    · exact ⟨a',rfl⟩
    · rw [parent_fork] at hr
      split_ifs at hr with hqx
      · cases hr
        exact absurd rfl hrp
      · exact h.parent r q hr
  enough r c hc := by
    rw [slot_fork] at hc
    split_ifs at hc with hrx hrp
    · cases hc
      rw [hf.fresh]
      exact zero_le
    · cases hc
      subst hrp
      by_cases hx : D.waited x
      · rw [waiting_fork hx,Set.encard_insert_of_notMem (h.notMem_waiting hq),hf.join hx]
        push_cast
        gcongr
        exact h.enough r a hp
      · rw [D.owes_loose a' (hf.detach hx).1]
        exact zero_le
    · rw [waiting_fork_other hrp]
      exact h.enough r c hc
  waited r c y hc hn hy := by
    rw [slot_fork] at hc
    rw [parent_fork] at hy
    by_cases hyx : y :: r = x :: p
    · obtain ⟨rfl,rfl⟩ := List.cons.inj hyx
      rw [if_neg (List.cons_ne_self y r).symm,if_pos rfl] at hc
      cases hc
      by_contra hw
      exact hn (hf.detach hw).1
    rw [if_neg hyx] at hy
    rw [if_neg (by rintro rfl; exact h.no_children hq hy)] at hc
    split_ifs at hc with hr
    · cases hc
      subst hr
      exact h.waited r a y hp (fun ha => hn (hf.loose ha)) hy
    · exact h.waited r c y hc hn hy

theorem Joined.fork (hi : D.Inv t) (h : D.Joined t) (hp : t.slot p = .live a) (hq : t.slot (x :: p) = .unused)
    (hf : D.Forks a x a' b) : D.Joined (t.fork p x a' b) where
  few r c hc := by
    rw [slot_fork] at hc
    split_ifs at hc with hrx hrp
    · subst hrx
      rw [waiting_fork_other (List.cons_ne_self x p)]
      have he : t.waiting D (x :: p) = ∅ := Set.eq_empty_of_forall_notMem fun y hy => hi.no_children hq hy.2
      simp [he]
    · cases hc
      subst hrp
      by_cases hx : D.waited x
      · rw [waiting_fork hx,Set.encard_insert_of_notMem (hi.notMem_waiting hq),hf.join hx]
        push_cast
        gcongr
        exact h.few r a hp
      · rw [waiting_fork_detached (hi.parent_unused hq) hx]
        refine (h.few r a hp).trans ?_
        rw [(hf.detach hx).2]
        exact zero_le
    · rw [waiting_fork_other hrp]
      exact h.few r c hc
  kept r y hy hs := by
    rw [slot_fork] at hs
    rw [parent_fork]
    split_ifs with hyx
    · rw [(List.cons.inj hyx).2]
    rw [if_neg hyx] at hs
    split_ifs at hs with hr
    · exact h.kept r y hy (by rw [hr,hp]; simp)
    · exact h.kept r y hy hs

theorem waiting_exit {r : List ι} (hr : r ≠ p) : (t.exit p).waiting D r = t.waiting D r := by
  ext y
  simp [Tree.waiting,parent_exit,hr]

theorem Inv.exit (h : D.Inv t) (hp : t.slot p = .live a) : D.Inv (t.exit p) where
  named r hr := by
    rw [slot_exit] at hr
    split_ifs at hr with hrp
    · exact h.named r (by rw [hrp,hp]; simp)
    · exact h.named r hr
  child r q hq := by
    obtain ⟨hx,hs⟩ := h.child r q (parent_exit.mp hq).1
    refine ⟨hx,?_⟩
    rw [slot_exit]
    split_ifs
    · simp
    · exact hs
  parent r q hq := by
    obtain ⟨hq,hr⟩ := parent_exit.mp hq
    rw [slot_exit,if_neg hr]
    exact h.parent r q hq
  enough r c hc := by
    rw [slot_exit] at hc
    split_ifs at hc with hr
    rw [waiting_exit hr]
    exact h.enough r c hc
  waited r c y hc hn hy := by
    obtain ⟨hy,hr⟩ := parent_exit.mp hy
    rw [slot_exit,if_neg hr] at hc
    exact h.waited r c y hc hn hy

theorem Joined.exit (h : D.Joined t) (hp : t.slot p = .live a) (ho : D.owes a = 0) : D.Joined (t.exit p) where
  few r c hc := by
    rw [slot_exit] at hc
    split_ifs at hc with hr
    rw [waiting_exit hr]
    exact h.few r c hc
  kept r y hy hs := by
    rw [slot_exit] at hs
    have hk : t.parent (y :: r) = some r := by
      split_ifs at hs with hyr
      · exact h.kept r y hy (by rw [hyr,hp]; simp)
      · exact h.kept r y hy hs
    refine parent_exit.mpr ⟨hk,?_⟩
    -- a process that owes nothing has no waited children
    rintro rfl
    have hf := h.few r a hp
    rw [ho,Nat.cast_zero,nonpos_iff_eq_zero,Set.encard_eq_zero] at hf
    exact Set.notMem_empty y (hf ▸ ⟨hy,hk⟩)

theorem waiting_free {r : List ι} (hr : t.parent q ≠ some r) : (t.free q).waiting D r = t.waiting D r := by
  ext y
  simp only [Tree.waiting,Set.mem_ofPred_eq,parent_free]
  split_ifs with hy
  · simp [hy,hr]
  · rfl

theorem waiting_free_child : (t.free (x :: p)).waiting D p = t.waiting D p \ {x} := by
  ext y
  simp only [Tree.waiting,Set.mem_ofPred_eq,parent_free,List.cons.injEq,and_true,Set.mem_sdiff,Set.mem_singleton_iff]
  split_ifs with hy
  · simp [hy]
  · simp [hy]

/-- The parts of the invariant that do not count are kept by any `free`. -/
theorem Inv.free (h : D.Inv t) (hq : t.slot q = .zombie)
    (henough : ∀ r a, t.slot r = .live a → D.owes a ≤ ((t.free q).waiting D r).encard) : D.Inv (t.free q) where
  named r hr := by
    rw [slot_free] at hr
    split_ifs at hr with hrq
    · exact absurd rfl hr
    · exact h.named r hr
  child r u hu := by
    rw [parent_free] at hu
    split_ifs at hu with huq
    rw [slot_free,if_neg huq]
    exact h.child r u hu
  parent r u hu := by
    rw [parent_free] at hu
    split_ifs at hu with huq
    obtain ⟨c,hc⟩ := h.parent r u hu
    rw [slot_free,if_neg (by rintro rfl; rw [hq] at hc; cases hc)]
    exact ⟨c,hc⟩
  enough r c hc := by
    rw [slot_free] at hc
    split_ifs at hc with hr
    exact henough r c hc
  waited r c y hc hn hy := by
    rw [slot_free] at hc
    rw [parent_free] at hy
    split_ifs at hc hy with hr hyq
    exact h.waited r c y hc hn hy

theorem Inv.free_orphan (h : D.Inv t) (hq : t.slot q = .zombie) (ho : t.parent q = none) : D.Inv (t.free q) :=
  h.free hq fun r a hr => by
    rw [waiting_free (by simp [ho])]
    exact h.enough r a hr

theorem Inv.wait (h : D.Inv t) (hp : t.slot p = .live a) (hq : t.parent q = some p) (hz : t.slot q = .zombie)
    (ho : D.owes a' ≤ D.owes a - 1) (hl : D.loose a → D.loose a') : D.Inv (t.wait p q a') := by
  obtain ⟨⟨x,rfl⟩,-⟩ := h.child p q hq
  have hput : D.Inv (t.put p a') := h.put hp (ho.trans (Nat.sub_le _ _)) hl
  refine hput.free (by rw [slot_put,if_neg (List.cons_ne_self x p),hz]) ?_
  intro r c hc
  by_cases hr : r = p
  · subst hr
    rw [slot_put,if_pos rfl] at hc
    cases hc
    rw [waiting_free_child]
    by_cases hx : D.waited x
    · change (D.owes a' : ℕ∞) ≤ (t.waiting D r \ {x}).encard
      calc (D.owes a' : ℕ∞)
        _ ≤ ((D.owes a - 1 : ℕ) : ℕ∞) := Nat.cast_le.mpr ho
        _ = D.owes a - 1 := by push_cast; rfl
        _ ≤ (t.waiting D r).encard - 1 := tsub_le_tsub_right (h.enough r a hp) 1
        _ = (t.waiting D r \ {x}).encard :=
            (Set.encard_sdiff_singleton_of_mem (show x ∈ t.waiting D r from ⟨hx,hq⟩)).symm
    · -- then the process is loose and owes nothing
      have ha : D.loose a := by
        by_contra hn
        exact hx (h.waited r a x hp hn hq)
      rw [D.owes_loose a ha] at ho
      rw [Nat.le_zero.mp ho]
      exact zero_le
  · rw [waiting_free]
    · exact hput.enough r c hc
    · intro hr'
      exact hr (Option.some.inj (hr'.symm.trans hq))

theorem Joined.wait (hi : D.Inv t) (h : D.Joined t) (hp : t.slot p = .live a) (hq : t.parent q = some p)
    (ho : D.owes a - 1 ≤ D.owes a') : D.Joined (t.wait p q a') := by
  obtain ⟨⟨x,rfl⟩,-⟩ := hi.child p q hq
  constructor
  · intro r c hc
    rw [Tree.wait,slot_free,slot_put] at hc
    split_ifs at hc with hrx hr
    · cases hc
      subst hr
      rw [Tree.wait,waiting_free_child]
      change (t.waiting D r \ {x}).encard ≤ (D.owes a' : ℕ∞)
      by_cases hx : D.waited x
      · calc (t.waiting D r \ {x}).encard
          _ = (t.waiting D r).encard - 1 :=
            Set.encard_sdiff_singleton_of_mem (show x ∈ t.waiting D r from ⟨hx,hq⟩)
          _ ≤ D.owes a - 1 := tsub_le_tsub_right (h.few r a hp) 1
          _ = ((D.owes a - 1 : ℕ) : ℕ∞) := by push_cast; rfl
          _ ≤ D.owes a' := Nat.cast_le.mpr ho
      · have ha : D.loose a := by
          by_contra hn
          exact hx (hi.waited r a x hp hn hq)
        refine (Set.encard_le_encard Set.sdiff_subset).trans ((h.few r a hp).trans ?_)
        rw [D.owes_loose a ha]
        exact zero_le
    · rw [Tree.wait,waiting_free]
      · exact h.few r c hc
      · intro hr'
        exact hr (Option.some.inj (hr'.symm.trans hq))
  · intro r y hy hs
    rw [Tree.wait,slot_free,slot_put] at hs
    rw [Tree.wait,parent_free]
    split_ifs at hs ⊢ with hyr hyp
    · exact absurd rfl hs
    · exact h.kept r y hy (by rw [hyp,hp]; simp)
    · exact h.kept r y hy hs

theorem Joined.free_orphan (h : D.Joined t) (ho : t.parent q = none) :
    D.Joined (t.free q) where
  few r c hc := by
    rw [slot_free] at hc
    split_ifs at hc with hr
    rw [waiting_free (by simp [ho])]
    exact h.few r c hc
  kept r y hy hs := by
    rw [slot_free] at hs
    rw [parent_free]
    split_ifs at hs ⊢ with hyr
    · exact absurd rfl hs
    · exact h.kept r y hy hs

omit [DecidableEq ι] in
/-- Below a process that owes nothing there is none that is waited for, zombies included. -/
theorem Joined.all_gone (hi : D.Inv t) (h : D.Joined t) (hp : t.slot p = .live a) (ho : D.owes a = 0)
    (l : List ι) (hl : l ≠ []) (hw : ∀ x ∈ l, D.waited x) : t.slot (l ++ p) = .unused := by
  induction l with
  | nil => exact absurd rfl hl
  | cons x l ih =>
    by_contra hs
    rw [List.cons_append] at hs
    have hx := hw x (List.mem_cons_self)
    have hk := h.kept (l ++ p) x hx hs
    obtain ⟨b,hb⟩ := hi.parent (l ++ p) _ hk
    cases l with
    | nil =>
      rw [List.nil_append] at hk
      have hf := h.few p a hp
      rw [ho,Nat.cast_zero,nonpos_iff_eq_zero,Set.encard_eq_zero] at hf
      exact Set.notMem_empty x (hf ▸ ⟨hx,hk⟩)
    | cons y l =>
      have hu := ih (by simp) fun z hz => hw z (List.mem_cons_of_mem x hz)
      rw [hu] at hb
      cases hb

omit [DecidableEq ι] in
/-- Below a process that waits, some process that waits can go on, or one that owes nothing is at work. -/
theorem Inv.some_ready (h : D.Inv t) (hp : t.slot p = .live a) (ho : 0 < D.owes a) :
    ∃ l x b, (∀ y ∈ x :: l, D.waited y) ∧ t.slot (l ++ p) = .live b ∧ 0 < D.owes b ∧
      t.parent (x :: (l ++ p)) = some (l ++ p) ∧
      (t.slot (x :: (l ++ p)) = .zombie ∨ ∃ c, t.slot (x :: (l ++ p)) = .live c ∧ D.owes c = 0) := by
  -- a child that waits in turn has a longer name, and the names are finitely many
  generalize hn : t.names.sup List.length - p.length = n
  induction n using Nat.strong_induction_on generalizing p a with
  | h n ih =>
    have he := h.enough p a hp
    have hne : (t.waiting D p).Nonempty := by
      rw [← Set.encard_pos]
      exact lt_of_lt_of_le (ENat.natCast_lt_natCast.mpr ho) he
    obtain ⟨x,hx,hxp⟩ := hne
    have hs := (h.child p _ hxp).2
    cases hc : t.slot (x :: p) with
    | unused => exact absurd hc hs
    | zombie => exact ⟨[],x,a,by simpa using hx,hp,ho,hxp,.inl hc⟩
    | live c =>
      by_cases hoc : D.owes c = 0
      · exact ⟨[],x,a,by simpa using hx,hp,ho,hxp,.inr ⟨c,hc,hoc⟩⟩
      have hlen : (x :: p).length ≤ t.names.sup List.length := Finset.le_sup (h.named _ hs)
      rw [List.length_cons] at hlen
      obtain ⟨l,y,b,hw,hrest⟩ := ih _ (by rw [List.length_cons]; omega) hc (Nat.pos_of_ne_zero hoc) rfl
      refine ⟨l ++ [x],y,b,?_,by simpa using hrest⟩
      intro z hz
      rw [← List.cons_append,List.mem_append,List.mem_singleton] at hz
      rcases hz with hz | rfl
      · exact hw z hz
      · exact hx

end Discipline

/-! ### The weight of all processes -/

def Slot.weight (w : α → ℕ) : Slot α → ℕ
  | .live a => w a
  | _ => 0

def Tree.weight (w : α → ℕ) (t : Tree ι α) : ℕ := ∑ q ∈ t.names, (t.slot q).weight w

section Weight
variable {w : α → ℕ} {p q : List ι} {x : ι} {a a' b : α}

theorem sum_update (names : Finset (List ι)) (f : List ι → Slot α) (s : Slot α) (hp : p ∈ names) :
    ∑ q ∈ names, (Function.update f p s q).weight w + (f p).weight w =
      ∑ q ∈ names, (f q).weight w + s.weight w := by
  rw [← Finset.add_sum_erase names _ hp,← Finset.add_sum_erase names (fun q => (f q).weight w) hp,
    Function.update_self]
  have h : ∑ q ∈ names.erase p, (Function.update f p s q).weight w = ∑ q ∈ names.erase p, (f q).weight w :=
    Finset.sum_congr rfl fun q hq => by rw [Function.update_of_ne (Finset.ne_of_mem_erase hq)]
  omega

theorem weight_put (hp : p ∈ t.names) (ha : t.slot p = .live a) :
    (t.put p a').weight w + w a = t.weight w + w a' := by
  have h := sum_update (w := w) t.names t.slot (.live a') hp
  rw [ha] at h
  exact h

theorem weight_exit (hp : p ∈ t.names) (ha : t.slot p = .live a) : (t.exit p).weight w + w a = t.weight w := by
  have h := sum_update (w := w) t.names t.slot .zombie hp
  rw [ha] at h
  exact h

theorem weight_free (hp : p ∈ t.names) (hz : t.slot p = .zombie) : (t.free p).weight w = t.weight w := by
  have h := sum_update (w := w) t.names t.slot .unused hp
  rw [hz] at h
  exact h

theorem weight_wait (a' : α) (hp : p ∈ t.names) (hq : q ∈ t.names) (ha : t.slot p = .live a) (hz : t.slot q = .zombie) :
    (t.wait p q a').weight w + w a = t.weight w + w a' := by
  have hqp : q ≠ p := by
    rintro rfl
    rw [ha] at hz
    cases hz
  have hz' : (t.put p a').slot q = .zombie := by rw [slot_put,if_neg hqp,hz]
  rw [← weight_put hp ha,Tree.wait,weight_free (t := t.put p a') hq hz']

theorem weight_fork (hp : p ∈ t.names) (ha : t.slot p = .live a) (hu : t.slot (x :: p) = .unused) :
    (t.fork p x a' b).weight w + w a = t.weight w + w a' + w b := by
  have h1 := sum_update (w := w) t.names t.slot (.live a') hp
  have hx : Function.update t.slot p (.live a') (x :: p) = .unused := by
    rw [Function.update_of_ne (List.cons_ne_self x p),hu]
  have h2 := sum_update (w := w) (insert (x :: p) t.names) (Function.update t.slot p (.live a')) (.live b)
    (Finset.mem_insert_self (x :: p) t.names)
  -- a name that is new adds a slot that weighs nothing
  have h3 : ∑ q ∈ insert (x :: p) t.names, (Function.update t.slot p (.live a') q).weight w =
      ∑ q ∈ t.names, (Function.update t.slot p (.live a') q).weight w :=
    Finset.sum_insert_of_eq_zero_if_notMem fun _ => by rw [hx]; rfl
  rw [ha] at h1
  rw [hx,h3] at h2
  change (t.fork p x a' b).weight w + 0 = _ + w b at h2
  change _ + w a = t.weight w + w a' at h1
  omega

end Weight

end X86OsDev.ForkJoin
