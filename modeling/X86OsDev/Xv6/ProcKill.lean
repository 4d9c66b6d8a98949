import X86OsDev.Xv6.Proc

/-! # Kill and the slots of the process table

`kill` matches pids without looking at the state of the slot, and neither
`allocproc` nor the failure paths reset `killed`. The law of `kill` therefore
depends on which slot carries the pid first, and a new process starts without
its `killed` flag as long as every kill hits a slot in use.
-/
namespace X86OsDev.Xv6.Ptable
open Transition

/-- What `kill(pid)` is for: it answers 0 only for a process in the table and
touches no other slot, and it fails without effect when there is none. -/
def KillSpec (t : Table) (pid : BitVec 32) : Prop :=
  ((kill t pid).1 = 0 → ∃ p, (t.proc p).state ≠ .unused ∧ (t.proc p).pid = pid ∧
    ∀ q, q ≠ p → (kill t pid).2.proc q = t.proc q) ∧
  ((∀ p, (t.proc p).state ≠ .unused → (t.proc p).pid ≠ pid) → kill t pid = (-1, t))

/-- A process that `allocproc` returns has not been killed. -/
def AllocSpec (t : Table) : Prop :=
  ∀ kstack p t', allocproc t kstack = (some p, t') → (t'.proc p).killed = false

/-- The first slot that carries the pid, if there is one, is in use. -/
def FirstInUse (t : Table) (pid : BitVec 32) : Prop :=
  ∀ p, (t.proc p).pid = pid → (∀ q < p, (t.proc q).pid ≠ pid) → (t.proc p).state ≠ .unused

/-- Every kill of the run is of a pid whose first slot is in use. -/
def KillsInUse (t : Table) : Act → Prop
  | .kill pid => FirstInUse t pid
  | _ => True

namespace Table
variable {t : Table} {hit : Proc → Bool} {p : Fin nproc}

theorem scan_hit (h : t.scan hit = some p) : hit (t.proc p) = true := by
  simpa using List.find?_some h

theorem scan_none (h : t.scan hit = none) (q : Fin nproc) : hit (t.proc q) = false := by
  have := List.find?_eq_none.mp h q (List.mem_finRange q)
  simpa using this

theorem scan_first (h : t.scan hit = some p) {q : Fin nproc} (hq : q < p) :
    hit (t.proc q) = false := by
  obtain ⟨-,as,bs,heq,has⟩ := List.find?_eq_some_iff_append.mp h
  have hsorted := List.pairwise_lt_finRange nproc
  rw [heq, List.pairwise_append] at hsorted
  have hmem : q ∈ as ++ p :: bs := heq ▸ List.mem_finRange q
  rcases List.mem_append.mp hmem with hm | hm
  · simpa using has q hm
  · rcases List.mem_cons.mp hm with rfl | hm
    · exact absurd hq (lt_irrefl _)
    · exact absurd hq (lt_asymm ((List.pairwise_cons.mp hsorted.2.1).1 q hm))

end Table

theorem kill_of_none {t : Table} {pid : BitVec 32}
    (h : t.scan (fun pr => pr.pid = pid) = none) : kill t pid = (-1, t) := by
  simp [kill, h]

theorem kill_of_some {t : Table} {pid : BitVec 32} {p : Fin nproc}
    (h : t.scan (fun pr => pr.pid = pid) = some p) :
    (kill t pid).1 = 0 ∧ (∀ q, q ≠ p → (kill t pid).2.proc q = t.proc q) ∧
    ((kill t pid).2.proc p).killed = true := by
  simp only [kill, h]
  refine ⟨trivial,fun q hq => t.set_of_ne _ hq,?_⟩
  rw [Table.set_self]
  split <;> rfl

/-- Slots not in use carry no `killed` flag. -/
def UnusedNotKilled (t : Table) : Prop := ∀ p, (t.proc p).state = .unused → (t.proc p).killed = false

/-- `kill` does what it is for exactly when the first slot with the pid is in use. -/
theorem killSpec_iff {t : Table} (ht : UnusedNotKilled t) (pid : BitVec 32) :
    KillSpec t pid ↔ FirstInUse t pid := by
  cases hs : t.scan (fun pr => pr.pid = pid) with
  | none =>
    have hn : ∀ p, (t.proc p).pid ≠ pid := fun p => by simpa using Table.scan_none hs p
    have hk := kill_of_none hs
    constructor
    · intro _ p hp
      exact absurd hp (hn p)
    · intro _
      refine ⟨?_,fun _ => hk⟩
      intro h0
      rw [hk] at h0
      simp at h0
  | some p =>
    obtain ⟨hret,hframe,hkilled⟩ := kill_of_some hs
    have hpid : (t.proc p).pid = pid := by simpa using Table.scan_hit hs
    have hfirst : ∀ q < p, (t.proc q).pid ≠ pid := fun q hq => by simpa using Table.scan_first hs hq
    constructor
    · rintro ⟨hzero,hnone⟩ q hq hqfirst hunused
      -- the two slots that carry the pid first are the same one
      have hqp : q = p := by
        rcases lt_trichotomy q p with h | h | h
        · exact absurd hq (hfirst q h)
        · exact h
        · exact absurd hpid (hqfirst p h)
      subst hqp
      obtain ⟨r,hr,-,hother⟩ := hzero hret
      have hrq : q ≠ r := by rintro rfl; exact hr hunused
      have hq' := ht q hunused
      rw [← hother q hrq, hkilled] at hq'
      cases hq'
    · intro h
      have huse := h p hpid hfirst
      refine ⟨fun _ => ⟨p,huse,hpid,hframe⟩,fun hno => ?_⟩
      exact absurd hpid (hno p huse)

theorem UnusedNotKilled.set {t : Table} (ht : UnusedNotKilled t) {p : Fin nproc} {pr : Proc}
    (hpr : pr.state = .unused → pr.killed = false) : UnusedNotKilled (t.set p pr) := by
  intro q hq
  by_cases hqp : q = p
  · subst hqp
    rw [Table.set_self] at hq ⊢
    exact hpr hq
  · rw [Table.set_of_ne _ _ hqp] at hq ⊢
    exact ht q hq

theorem UnusedNotKilled.wakeup1 {t : Table} (ht : UnusedNotKilled t) (c : Chan) :
    UnusedNotKilled (wakeup1 t c) := by
  intro p hp
  simp only [Ptable.wakeup1] at hp ⊢
  split at hp
  · cases hp
  · rename_i hc
    rw [if_neg hc]
    exact ht p hp

theorem UnusedNotKilled.reparent {t : Table} (ht : UnusedNotKilled t) (cur : Fin nproc) :
    UnusedNotKilled (reparent t cur) := by
  unfold Ptable.reparent
  generalize List.finRange nproc = l
  induction l generalizing t with
  | nil => exact ht
  | cons p l ih =>
    rw [List.foldl_cons]
    apply ih
    have hset : UnusedNotKilled (t.set p { t.proc p with parent := some t.initproc }) :=
      ht.set (ht p)
    dsimp only
    split
    · split
      · exact hset.wakeup1 _
      · exact hset
    · exact ht

theorem allocproc_killed {t t' : Table} {kstack : Bool} {r : Option (Fin nproc)}
    (ht : UnusedNotKilled t) (h : allocproc t kstack = (r, t')) :
    UnusedNotKilled t' ∧ ∀ p, r = some p → (t'.proc p).killed = false := by
  unfold allocproc at h
  split at h
  · cases h
    exact ⟨ht,by simp⟩
  · rename_i p hp
    have hp : (t.proc p).killed = false := ht p (by simpa using Table.scan_hit hp)
    have hset : UnusedNotKilled
        { t.set p { t.proc p with state := .embryo, pid := t.nextpid } with
          nextpid := t.nextpid + 1 } := ht.set (by simp)
    split at h
    · cases h
      refine ⟨hset,fun q hq => ?_⟩
      cases hq
      simpa using hp
    · cases h
      refine ⟨hset.set ?_,by simp⟩
      simpa using hp

theorem step_unusedNotKilled {t t' : Table} {a : Act} (ht : UnusedNotKilled t)
    (hk : KillsInUse t a) (h : step t a = some t') : UnusedNotKilled t' := by
  cases a with
  | fork cur kstack copied =>
    simp only [step] at h
    split at h
    · cases h
      rcases ha : allocproc t kstack with ⟨r,u⟩
      obtain ⟨hu,hr⟩ := allocproc_killed ht ha
      cases r with
      | none => simpa [fork, ha] using hu
      | some np =>
        simp only [fork, ha]
        split
        · exact hu.set (by simp)
        · exact hu.set (fun _ => hr np rfl)
    · cases h
  | exit cur =>
    simp only [step] at h
    split at h
    · cases h
      simp only [exit]
      split
      · exact ((ht.wakeup1 _).reparent cur).set (by simp)
      · exact (ht.reparent cur).set (by simp)
    · cases h
  | wait cur =>
    simp only [step] at h
    split at h
    · cases h
      simp only [wait]
      split
      · exact ht.set (by simp)
      · split
        · exact ht
        · exact ht.set (by simp)
    · cases h
  | kill pid =>
    simp only [step, Option.some.injEq] at h
    subst h
    cases hs : t.scan (fun pr => pr.pid = pid) with
    | none => rwa [kill_of_none hs]
    | some p =>
      have huse := hk p (by simpa using Table.scan_hit hs)
        (fun q hq => by simpa using Table.scan_first hs hq)
      simp only [kill, hs]
      apply ht.set
      split
      · simp
      · intro hu
        exact absurd hu huse
  | sleep cur c =>
    simp only [step] at h
    split at h
    · cases h
      exact ht.set (by simp)
    · cases h
  | wakeup c =>
    simp only [step, Option.some.injEq] at h
    subst h
    exact ht.wakeup1 c
  | yield cur =>
    simp only [step] at h
    split at h
    · cases h
      exact ht.set (by simp)
    · cases h
  | schedule p =>
    simp only [step] at h
    split at h
    · cases h
      exact ht.set (by simp)
    · cases h
  | fault cur =>
    simp only [step] at h
    split at h
    · rename_i hrun
      cases h
      exact ht.set (by simp [hrun])
    · cases h

theorem booted_unusedNotKilled : UnusedNotKilled booted := by
  intro p _
  by_cases hp : p = 0
  · subst hp
    rfl
  · simp [booted, Function.update_of_ne hp, zeroProc]

end X86OsDev.Xv6.Ptable
