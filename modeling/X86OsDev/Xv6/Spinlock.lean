import X86OsDev.Lib.Transition
import Mathlib.Data.Int.Notation
import Mathlib.Data.Nat.Notation
import Mathlib.Logic.Function.Basic

/-! # Interrupts around spinlocks and switches (spinlock.c, proc.c)

Any number of processes have a kernel thread each, and each processor has the thread
of its scheduler. A call of `acquire` is a `pushcli` and then the taking of the lock,
and a call of `release` gives the lock up before its `popcli`. Interrupts are
taken where the flag allows them, and their handlers run on the thread they meet.
-/
namespace X86OsDev.Xv6.Spinlock
open Transition

/-- `struct cpu`, with the interrupt flag. No process is running while the scheduler is. -/
structure Cpu (P : Type*) where
  ncli : ℤ
  intena : Bool
  iflag : Bool
  proc : Option P

section Calls
variable {P : Type*}

/-- The panics of `popcli`. -/
inductive Panic
  | interruptible
  | negative
  deriving DecidableEq

/-- `pushcli` from its `cli` on, when the flag was `eflags` before. -/
def pushcli (eflags : Bool) (cpu : Cpu P) : Cpu P :=
  { cpu with
    iflag := false
    intena := if cpu.ncli = 0 then eflags else cpu.intena
    ncli := cpu.ncli + 1 }

/-- `popcli` -/
def popcli (cpu : Cpu P) : Except Panic (Cpu P) :=
  if cpu.iflag = true then .error .interruptible
  else if cpu.ncli - 1 < 0 then .error .negative
  else .ok { cpu with
    ncli := cpu.ncli - 1
    iflag := if cpu.ncli - 1 = 0 ∧ cpu.intena = true then true else cpu.iflag }

end Calls

/-- What a thread has on its stack: the flags that an unfinished `pushcli` has read, the `intena`
that `sched` keeps, and the flags that an interrupt returns to. -/
inductive Frame
  | push (eflags : Bool)
  | sched (intena : Bool)
  | trap (eflags : Bool)
  deriving DecidableEq

/-- Code runs that is in none of these calls. -/
def Ready : List Frame → Prop
  | [] => True
  | .trap _ :: _ => True
  | _ => False

/-- A thread with its calls of `pushcli` that are not undone, among them one for each lock. -/
structure Thread (L : Type*) where
  stack : List Frame
  depth : ℕ
  held : List L

inductive Tid (C P : Type*)
  | scheduler (c : C)
  | process (p : P)
  deriving DecidableEq

inductive ProcState
  | embryo
  | sleeping
  | runnable
  | running
  | zombie
  deriving DecidableEq

/-- The processors, threads, processes, and which processor holds a lock. -/
structure State (C P L : Type*) where
  cpu : C → Cpu P
  thread : Tid C P → Thread L
  state : P → ProcState
  lock : L → Option C

inductive Action (C P L : Type*)
  | readeflags (c : C)
  | cli (c : C)
  | popcli (c : C)
  | take (c : C) (l : L)
  | giveUp (c : C) (l : L)
  | sched (c : C) (p : P)
  | swtch (c : C) (p : P)
  | restore (c : C)
  | interrupt (c : C)
  | iret (c : C)
  | sti (c : C)
  | wakeup (c : C) (p : P)

variable {C P L : Type*} [DecidableEq C] [DecidableEq P] [DecidableEq L]

namespace State

/-- The thread that runs on a processor. -/
def running (s : State C P L) (c : C) : Tid C P :=
  match (s.cpu c).proc with
  | none => .scheduler c
  | some p => .process p

def current (s : State C P L) (c : C) : Thread L := s.thread (s.running c)

/-- A step of the thread that runs on a processor. -/
def act (s : State C P L) (c : C) (cpu : Cpu P) (th : Thread L) : State C P L :=
  { s with cpu := Function.update s.cpu c cpu, thread := Function.update s.thread (s.running c) th }

/-- There is a `pushcli` left to undo that is not the one of a lock. -/
def MayPop (s : State C P L) (c : C) : Prop :=
  Ready (s.current c).stack ∧ (s.current c).held.length < (s.current c).depth

end State

/-- A new process returns from `forkret` to user space, and holds `ptable.lock` for the scheduler
that switches to it. -/
def newThread (ptable : L) : Thread L := ⟨[.trap true],1,[ptable]⟩

/-- The processors come with interrupts disabled to their schedulers, which hold no lock. -/
structure Boot (ptable : L) (s : State C P L) : Prop where
  cpu : ∀ c, (s.cpu c).ncli = 0 ∧ (s.cpu c).iflag = false ∧ (s.cpu c).proc = none
  scheduler : ∀ c, s.thread (.scheduler c) = ⟨[],0,[]⟩
  process : ∀ p, s.thread (.process p) = newThread ptable ∧ s.state p = .embryo
  lock : ∀ l, s.lock l = none

/-- The steps of the threads. In `sched` the state of the process was set under `ptable.lock`, and
between `swtch` and `restore` its `sched` goes on on another processor, it may be. -/
inductive Step (ptable : L) (s : State C P L) : Action C P L → State C P L → Prop
  /-- the first instruction of `pushcli` -/
  | readeflags {c : C} (hready : Ready (s.current c).stack) :
      Step ptable s (.readeflags c)
        (s.act c (s.cpu c) { s.current c with stack := .push (s.cpu c).iflag :: (s.current c).stack })
  | cli {c : C} {eflags : Bool} {rest : List Frame} (hstack : (s.current c).stack = .push eflags :: rest) :
      Step ptable s (.cli c)
        (s.act c (pushcli eflags (s.cpu c)) { s.current c with stack := rest, depth := (s.current c).depth + 1 })
  | popcli {c : C} {cpu : Cpu P} (hpop : s.MayPop c) (hcall : popcli (s.cpu c) = .ok cpu) :
      Step ptable s (.popcli c) (s.act c cpu { s.current c with depth := (s.current c).depth - 1 })
  /-- the `xchg` of `acquire`, for a lock that is free -/
  | take {c : C} {l : L} (hpush : s.MayPop c) (hfree : s.lock l = none) :
      Step ptable s (.take c l)
        { s.act c (s.cpu c) { s.current c with held := l :: (s.current c).held } with
          lock := Function.update s.lock l (some c) }
  /-- `release` before its `popcli` -/
  | giveUp {c : C} {l : L} (hready : Ready (s.current c).stack) (hheld : l ∈ (s.current c).held)
      (hlock : s.lock l = some c) :
      Step ptable s (.giveUp c l)
        { s.act c (s.cpu c) { s.current c with held := (s.current c).held.erase l } with
          lock := Function.update s.lock l none }
  /-- `sched` up to its `swtch`, where none of its panics happens -/
  | sched {c : C} {p : P} {st : ProcState} (hproc : (s.cpu c).proc = some p) (hready : Ready (s.current c).stack)
      (hheld : (s.current c).held = [ptable]) (hlock : s.lock ptable = some c) (hncli : (s.cpu c).ncli = 1)
      (hst : st ≠ .running) (hflag : (s.cpu c).iflag = false) :
      Step ptable s (.sched c p)
        { s.act c { s.cpu c with proc := none }
            { s.current c with stack := .sched (s.cpu c).intena :: (s.current c).stack } with
          state := Function.update s.state p st }
  /-- the `swtch` of the scheduler, in the loop that holds `ptable.lock` -/
  | swtch {c : C} {p : P} (hproc : (s.cpu c).proc = none) (hstack : (s.current c).stack = [])
      (hdepth : (s.current c).depth = 1) (hheld : (s.current c).held = [ptable]) (hlock : s.lock ptable = some c)
      (hp : s.state p = .runnable) :
      Step ptable s (.swtch c p)
        { s with
          cpu := Function.update s.cpu c { s.cpu c with proc := some p }
          state := Function.update s.state p .running }
  /-- the end of `sched` -/
  | restore {c : C} {intena : Bool} {rest : List Frame} (hstack : (s.current c).stack = .sched intena :: rest) :
      Step ptable s (.restore c) (s.act c { s.cpu c with intena := intena } { s.current c with stack := rest })
  | interrupt {c : C} (hflag : (s.cpu c).iflag = true) :
      Step ptable s (.interrupt c)
        (s.act c { s.cpu c with iflag := false } { s.current c with stack := .trap true :: (s.current c).stack })
  /-- the return from an interrupt, when its handler has undone each `pushcli` -/
  | iret {c : C} {eflags : Bool} {rest : List Frame} (hstack : (s.current c).stack = .trap eflags :: rest)
      (hdepth : (s.current c).depth = 0) :
      Step ptable s (.iret c) (s.act c { s.cpu c with iflag := eflags } { s.current c with stack := rest })
  /-- the `sti` of the scheduler -/
  | sti {c : C} (hproc : (s.cpu c).proc = none) (hstack : (s.current c).stack = [])
      (hdepth : (s.current c).depth = 0) :
      Step ptable s (.sti c) (s.act c { s.cpu c with iflag := true } (s.current c))
  /-- a process becomes runnable, in `fork` or `wakeup` of a thread that holds `ptable.lock` -/
  | wakeup {c : C} {p : P} (hheld : ptable ∈ (s.current c).held) (hlock : s.lock ptable = some c)
      (hp : s.state p = .embryo ∨ s.state p = .sleeping) :
      Step ptable s (.wakeup c p) { s with state := Function.update s.state p .runnable }

abbrev Reached (ptable : L) (s : State C P L) : Prop := Reachable (Boot ptable) (Step ptable) s

end X86OsDev.Xv6.Spinlock
