import X86OsDev.Lib.Transition
import Mathlib.Logic.Function.Basic

/-! # `sleep`, `wakeup` and `kill` (proc.c)

The processes run code over shared data, any number of spinlocks and
`ptable.lock`. Taking or releasing a spinlock is one step, and so is each
stretch of code between. What a process does in user space or in other parts of
the kernel is a step of its own code.
-/
namespace X86OsDev.Xv6.Sleep
open Transition

inductive Lock (K : Type)
  | ptable
  | lk (k : K)
  deriving DecidableEq

/-- A spinlock is held by a process, or by the scheduler of a processor. -/
inductive Holder (P : Type)
  | proc (i : P)
  | scheduler
  deriving DecidableEq

inductive ProcState
  | running
  | runnable
  | sleeping
  deriving DecidableEq

/-- What the code of a process does next. `wakeup1` is for code that holds `ptable.lock`. -/
inductive Cmd (K C D L : Type)
  | acquire (k : Lock K) (next : L)
  | release (k : Lock K) (next : L)
  | sleep (c : C) (k : Lock K) (next : L)
  | wakeup (c : C) (next : L)
  | wakeup1 (c : C) (next : L)
  | update (f : D → D × L)

/-- The calls that do one thing with `ptable.lock` held. -/
inductive Job (P C : Type)
  | wakeup (c : C)
  | kill (i : P)
  | yield

/-- Where a process is: in its own code, or in a call that returns to a point of that code.
The points of `sleep(chan, lk)` are: before `acquire(&ptable.lock)`, before `release(lk)`, before
`p->chan = chan`, in `sched()`, before `p->chan = 0`, and before `acquire(lk)`. -/
inductive Ctl (P K C L : Type)
  | user (l : L)
  | sleep (c : C) (k : K) (l : L)
  | sleepRelease (c : C) (k : K) (l : L)
  | sleepMark (c : C) (k : Lock K) (l : L)
  | sleepSched (c : C) (k : Lock K) (l : L)
  | sleepTidy (c : C) (k : Lock K) (l : L)
  | sleepAcquire (c : C) (k : K) (l : L)
  | enter (job : Job P C) (l : L)
  | inside (job : Job P C) (l : L)
  | yieldSched (l : L)
  | leave (l : L)

structure Sys (P K C D L : Type) where
  data : D
  held : Lock K → Option (Holder P)
  state : P → ProcState
  chan : P → Option C
  killed : P → Bool
  ctl : P → Ctl P K C L

/-- A process goes on with its code, calls `kill` or is told to `yield` by the timer, or a
scheduler takes `ptable.lock`, releases it, or hands it to a process that it lets run. -/
inductive Act (P : Type)
  | run (i : P)
  | kill (i j : P)
  | yield (i : P)
  | schedAcquire
  | schedRelease
  | dispatch (i : P)

variable {P K C D L : Type} [DecidableEq P] [DecidableEq K] [DecidableEq C]

namespace Sys

def goto (s : Sys P K C D L) (i : P) (x : Ctl P K C L) : Sys P K C D L := { s with ctl := Function.update s.ctl i x }

def hand (s : Sys P K C D L) (k : Lock K) (h : Option (Holder P)) : Sys P K C D L :=
  { s with held := Function.update s.held k h }

def setState (s : Sys P K C D L) (i : P) (x : ProcState) : Sys P K C D L :=
  { s with state := Function.update s.state i x }

def setChan (s : Sys P K C D L) (i : P) (x : Option C) : Sys P K C D L := { s with chan := Function.update s.chan i x }

/-- `wakeup1`: every process asleep on the channel becomes runnable. -/
def wakeup1 (s : Sys P K C D L) (c : C) : Sys P K C D L :=
  { s with state := fun i => if s.state i = .sleeping ∧ s.chan i = some c then .runnable else s.state i }

/-- `kill`, once the process is found -/
def kill1 (s : Sys P K C D L) (i : P) : Sys P K C D L :=
  { s with
    killed := Function.update s.killed i true
    state := Function.update s.state i (if s.state i = .sleeping then .runnable else s.state i) }

/-- `acquire` returns when the lock is free. -/
def acquire (s : Sys P K C D L) (i : P) (k : Lock K) (x : Ctl P K C L) : Option (Sys P K C D L) :=
  if s.held k = none then some ((s.hand k (some (.proc i))).goto i x) else none

/-- `release` panics if the process does not hold the lock. -/
def release (s : Sys P K C D L) (i : P) (k : Lock K) (x : Ctl P K C L) : Option (Sys P K C D L) :=
  if s.held k = some (.proc i) then some ((s.hand k none).goto i x) else none

end Sys

/-- The code of each process. -/
abbrev Code (P K C D L : Type) := P → L → Cmd K C D L

/-- A step of the process's own code. `sched` panics if `ptable.lock` is not held. -/
def runCmd (s : Sys P K C D L) (i : P) : Cmd K C D L → Option (Sys P K C D L)
  | .acquire k next => s.acquire i k (.user next)
  | .release k next => s.release i k (.user next)
  | .sleep c .ptable next =>
    if s.held .ptable = some (.proc i) then some (s.goto i (.sleepMark c .ptable next)) else none
  | .sleep c (.lk k) next => some (s.goto i (.sleep c k next))
  | .wakeup c next => some (s.goto i (.enter (.wakeup c) next))
  | .wakeup1 c next =>
    if s.held .ptable = some (.proc i) then some ((s.wakeup1 c).goto i (.user next)) else none
  | .update f => some ({ s with data := (f s.data).1 }.goto i (.user (f s.data).2))

/-- What a call does with `ptable.lock` held. -/
def runJob (s : Sys P K C D L) (i : P) (l : L) : Job P C → Sys P K C D L
  | .wakeup c => (s.wakeup1 c).goto i (.leave l)
  | .kill j => (s.kill1 j).goto i (.leave l)
  | .yield => ((s.setState i .runnable).hand .ptable (some .scheduler)).goto i (.yieldSched l)

/-- A step of a running process. -/
def runProc (code : Code P K C D L) (s : Sys P K C D L) (i : P) : Option (Sys P K C D L) :=
  match s.ctl i with
  | .user l => runCmd s i (code i l)
  | .sleep c k l => s.acquire i .ptable (.sleepRelease c k l)
  | .sleepRelease c k l => s.release i (.lk k) (.sleepMark c (.lk k) l)
  | .sleepMark c k l =>
    some ((((s.setChan i (some c)).setState i .sleeping).hand .ptable (some .scheduler)).goto i (.sleepSched c k l))
  | .sleepSched .. => none
  | .sleepTidy _ .ptable l => some ((s.setChan i none).goto i (.user l))
  | .sleepTidy c (.lk k) l => (s.setChan i none).release i .ptable (.sleepAcquire c k l)
  | .sleepAcquire _ k l => s.acquire i (.lk k) (.user l)
  | .enter job l => s.acquire i .ptable (.inside job l)
  | .inside job l => some (runJob s i l job)
  | .yieldSched _ => none
  | .leave l => s.release i .ptable (.user l)

/-- Where a process is once the scheduler has switched to it. -/
def Ctl.resume : Ctl P K C L → Ctl P K C L
  | .sleepSched c k l => .sleepTidy c k l
  | .yieldSched l => .leave l
  | x => x

/-- A call that a process makes from a point of its own code. The kernel yields only where no lock
is held; the model lets it do so anywhere. -/
def call (s : Sys P K C D L) (i : P) (job : Job P C) : Option (Sys P K C D L) :=
  match s.ctl i with
  | .user l => if s.state i = .running then some (s.goto i (.enter job l)) else none
  | _ => none

def step (code : Code P K C D L) (s : Sys P K C D L) : Act P → Option (Sys P K C D L)
  | .run i => if s.state i = .running then runProc code s i else none
  | .kill i j => call s i (.kill j)
  | .yield i => call s i .yield
  | .schedAcquire => if s.held .ptable = none then some (s.hand .ptable (some .scheduler)) else none
  | .schedRelease => if s.held .ptable = some .scheduler then some (s.hand .ptable none) else none
  | .dispatch i =>
    if s.held .ptable = some .scheduler ∧ s.state i = .runnable then
      some (((s.setState i .running).hand .ptable (some (.proc i))).goto i (s.ctl i).resume)
    else none

/-- Every process is at the start of its code and no lock is held. -/
def Start (d : D) (l : L) (s : Sys P K C D L) : Prop :=
  s.data = d ∧ (∀ k, s.held k = none) ∧ (∀ i, s.state i = .running) ∧ ∀ i, s.ctl i = .user l

abbrev Reached (code : Code P K C D L) (d : D) (l : L) (s : Sys P K C D L) : Prop :=
  Reachable (Start d l) (OfFun (step code)) s

end X86OsDev.Xv6.Sleep
