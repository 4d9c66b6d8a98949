import X86OsDev.Xv6.ProcKill

/-! # Runs of the process table, one locked section at a time

`fork` takes the table lock twice and stores the parent of the new process, or
gives the slot back, between the two. `wait` is in its loop until it returns.
The lists record the pids of the processes that exited and of those that `wait`
returned, each with the pid of the parent and of the caller.
-/
namespace X86OsDev.Xv6.Ptable
open Transition

/-- Where a process is inside `fork` or `wait`. -/
inductive Stage
  | user
  | waiting
  /-- `allocproc` has found the slot. -/
  | forking (np : Fin nproc)
  /-- `np->parent` is set. -/
  | linked (np : Fin nproc)
  deriving DecidableEq

/-- The slot that a process is filling. -/
def Stage.builds : Stage → Option (Fin nproc)
  | .forking np => some np
  | .linked np => some np
  | _ => none

/-- `forks` counts the forks that have found a slot. -/
structure Sys where
  table : Table
  stage : Fin nproc → Stage
  forks : ℕ
  exits : List (BitVec 32 × BitVec 32)
  waits : List (BitVec 32 × BitVec 32)

inductive Section
  | forkAlloc (cur : Fin nproc)
  | forkFail (cur : Fin nproc)
  | forkParent (cur : Fin nproc)
  | forkReady (cur : Fin nproc)
  | exit (cur : Fin nproc)
  | wait (cur : Fin nproc)
  | kill (pid : BitVec 32)
  | sleep (cur : Fin nproc) (addr : ℕ)
  | wakeup (addr : ℕ)
  | yield (cur : Fin nproc)
  | schedule (p : Fin nproc)
  | fault (cur : Fin nproc)

namespace Sys

def goto (s : Sys) (cur : Fin nproc) (st : Stage) : Sys :=
  { s with stage := Function.update s.stage cur st }

/-- The pid that `exit` finds in its parent's slot. -/
def parentPid (s : Sys) (cur : Fin nproc) : BitVec 32 :=
  match (s.table.proc cur).parent with
  | some q => (s.table.proc q).pid
  | none => 0

/-- The zombie that `wait` finds first. -/
def zombieChild (t : Table) (cur : Fin nproc) : Option (Fin nproc) :=
  t.scan (fun pr => pr.parent = some cur ∧ pr.state = .zombie)

/-- One section of a running process, or one move of the scheduler. -/
def run (s : Sys) : Section → Option Sys
  | .forkAlloc cur =>
    if (s.table.proc cur).state = .running ∧ s.stage cur = .user then
      match allocproc s.table true with
      | (none, _) => some s
      | (some np, t) => some { s.goto cur (.forking np) with table := t, forks := s.forks + 1 }
    else none
  | .forkFail cur =>
    if (s.table.proc cur).state = .running then
      match s.stage cur with
      | .forking np =>
        some { s.goto cur .user with table := s.table.set np { s.table.proc np with state := .unused } }
      | _ => none
    else none
  | .forkParent cur =>
    if (s.table.proc cur).state = .running then
      match s.stage cur with
      | .forking np =>
        some { s.goto cur (.linked np) with
          table := s.table.set np { s.table.proc np with parent := some cur } }
      | _ => none
    else none
  | .forkReady cur =>
    if (s.table.proc cur).state = .running then
      match s.stage cur with
      | .linked np =>
        some { s.goto cur .user with table := s.table.set np { s.table.proc np with state := .runnable } }
      | _ => none
    else none
  | .exit cur =>
    if (s.table.proc cur).state = .running ∧ s.stage cur = .user ∧ cur ≠ s.table.initproc then
      some { s with
        table := Ptable.exit s.table cur
        exits := s.exits ++ [((s.table.proc cur).pid,s.parentPid cur)] }
    else none
  | .wait cur =>
    if (s.table.proc cur).state = .running ∧ (s.stage cur = .user ∨ s.stage cur = .waiting) then
      let (ret, t) := Ptable.wait s.table cur
      let waits := match zombieChild s.table cur with
        | some p => s.waits ++ [((s.table.proc p).pid,(s.table.proc cur).pid)]
        | none => s.waits
      some { s.goto cur (if ret = none then .waiting else .user) with table := t, waits := waits }
    else none
  | .kill pid => some { s with table := (Ptable.kill s.table pid).2 }
  | .sleep cur addr =>
    if (s.table.proc cur).state = .running ∧ s.stage cur = .user then
      some { s with
        table := s.table.set cur
          { s.table.proc cur with chan := some (.other addr), state := .sleeping } }
    else none
  | .wakeup addr => some { s with table := wakeup1 s.table (.other addr) }
  | .yield cur =>
    if (s.table.proc cur).state = .running then
      some { s with table := s.table.set cur { s.table.proc cur with state := .runnable } } else none
  | .schedule p =>
    if (s.table.proc p).state = .runnable then
      some { s with table := s.table.set p { s.table.proc p with state := .running, chan := none } }
    else none
  | .fault cur =>
    if (s.table.proc cur).state = .running then
      some { s with table := s.table.set cur { s.table.proc cur with killed := true } } else none

end Sys

/-- The state after `userinit`. -/
def bootedSys : Sys := ⟨booted,fun _ => .user,0,[],[]⟩

abbrev RunsTo (s : Sys) : Prop := Reachable (fun s => s = bootedSys) (OfFun Sys.run) s

def ProcState.Live (st : ProcState) : Prop := st = .runnable ∨ st = .running ∨ st = .sleeping

instance (st : ProcState) : Decidable st.Live := inferInstanceAs (Decidable (_ ∨ _))

theorem ProcState.Live.ne {st : ProcState} (h : st.Live) :
    st ≠ .unused ∧ st ≠ .embryo ∧ st ≠ .zombie := by
  rcases h with rfl | rfl | rfl <;> decide

/-- A change of the table that only moves live processes between their states. -/
structure Steady (t t' : Table) : Prop where
  nextpid : t'.nextpid = t.nextpid
  initproc : t'.initproc = t.initproc
  pid : ∀ p, (t'.proc p).pid = (t.proc p).pid
  parent : ∀ p, (t'.proc p).parent = (t.proc p).parent
  state : ∀ p, (t'.proc p).state = (t.proc p).state ∨
    (t.proc p).state.Live ∧ (t'.proc p).state.Live

/-- A steady change that puts nobody to sleep in `wait`. -/
structure Calm (t t' : Table) : Prop extends Steady t t' where
  asleep : ∀ p c, (t'.proc p).state = .sleeping → (t'.proc p).chan = some (.proc c) →
    (t.proc p).state = .sleeping ∧ (t.proc p).chan = some (.proc c)

namespace Steady
variable {t t' : Table}

/-- A steady change of one slot. -/
theorem set {p : Fin nproc} {pr : Proc} (hpid : pr.pid = (t.proc p).pid)
    (hparent : pr.parent = (t.proc p).parent)
    (hstate : pr.state = (t.proc p).state ∨ (t.proc p).state.Live ∧ pr.state.Live) :
    Steady t (t.set p pr) := by
  have hcases : ∀ q, q = p ∨ (t.set p pr).proc q = t.proc q := fun q => by
    by_cases hq : q = p
    · exact .inl hq
    · exact .inr (t.set_of_ne pr hq)
  refine ⟨rfl,rfl,?_,?_,?_⟩
  · intro q
    rcases hcases q with rfl | hq
    · simpa using hpid
    · rw [hq]
  · intro q
    rcases hcases q with rfl | hq
    · simpa using hparent
    · rw [hq]
  · intro q
    rcases hcases q with rfl | hq
    · simpa using hstate
    · rw [hq]
      exact .inl rfl

theorem live (h : Steady t t') (p : Fin nproc) : (t'.proc p).state.Live ↔ (t.proc p).state.Live := by
  rcases h.state p with h | ⟨h1,h2⟩
  · rw [h]
  · exact ⟨fun _ => h1,fun _ => h2⟩

/-- A slot that is not live keeps its state. -/
theorem state_eq (h : Steady t t') {p : Fin nproc} {st : ProcState} (hst : ¬ st.Live) :
    (t'.proc p).state = st ↔ (t.proc p).state = st := by
  rcases h.state p with h | ⟨h1,h2⟩
  · rw [h]
  · exact ⟨fun h => absurd (h ▸ h2) hst,fun h => absurd (h ▸ h1) hst⟩

end Steady

namespace Calm
variable {t : Table}

theorem refl (t : Table) : Calm t t :=
  ⟨⟨rfl,rfl,fun _ => rfl,fun _ => rfl,fun _ => .inl rfl⟩,fun _ _ h1 h2 => ⟨h1,h2⟩⟩

/-- A calm change of one slot. -/
theorem set {p : Fin nproc} {pr : Proc} (hpid : pr.pid = (t.proc p).pid)
    (hparent : pr.parent = (t.proc p).parent)
    (hstate : pr.state = (t.proc p).state ∨ (t.proc p).state.Live ∧ pr.state.Live)
    (hasleep : ∀ c, pr.state = .sleeping → pr.chan = some (.proc c) →
      (t.proc p).state = .sleeping ∧ (t.proc p).chan = some (.proc c)) : Calm t (t.set p pr) := by
  refine ⟨.set hpid hparent hstate,?_⟩
  intro q c
  by_cases hq : q = p
  · subst hq
    simpa using hasleep c
  · rw [t.set_of_ne pr hq]
    exact fun h1 h2 => ⟨h1,h2⟩

end Calm

theorem wakeup1_calm (t : Table) (c : Chan) : Calm t (wakeup1 t c) := by
  refine ⟨⟨rfl,rfl,?_,?_,?_⟩,?_⟩
  · intro p
    simp only [wakeup1]
    split <;> rfl
  · intro p
    simp only [wakeup1]
    split <;> rfl
  · intro p
    simp only [wakeup1]
    split
    · rename_i h
      exact .inr ⟨.inr (.inr h.1),.inl rfl⟩
    · exact .inl rfl
  · intro p d
    simp only [wakeup1]
    split
    · simp
    · exact fun h1 h2 => ⟨h1,h2⟩

/-- Nobody sleeps on the channel after its wakeup. -/
theorem wakeup1_awake (t : Table) (c : Chan) (p : Fin nproc) :
    ¬ (((wakeup1 t c).proc p).state = .sleeping ∧ ((wakeup1 t c).proc p).chan = some c) := by
  simp only [wakeup1]
  split
  · simp
  · rename_i h
    exact h

theorem kill_calm (t : Table) (pid : BitVec 32) : Calm t (kill t pid).2 := by
  cases hs : t.scan (fun pr => pr.pid = pid) with
  | none =>
    rw [kill_of_none hs]
    exact .refl t
  | some p =>
    simp only [kill, hs]
    by_cases hsl : (t.proc p).state = .sleeping
    · rw [if_pos hsl]
      exact .set rfl rfl (.inr ⟨.inr (.inr hsl),.inl rfl⟩) (by simp)
    · rw [if_neg hsl]
      exact .set rfl rfl (.inl rfl) fun c h => absurd h hsl

end X86OsDev.Xv6.Ptable
