import X86OsDev.Lib.Transition
import X86OsDev.Xv6.Param
import Mathlib.Data.BitVec
import Mathlib.Data.List.FinRange
import Mathlib.Logic.Function.Basic

/-! # The process table

`struct proc` with the fields the table functions read and write, and the
sections of `proc.c` that run under `ptable.lock`. A fork is given the two
answers the allocators return to it, so that every failure path is a run.
-/
namespace X86OsDev.Xv6.Ptable
open Transition

inductive ProcState
  | unused
  | embryo
  | sleeping
  | runnable
  | running
  | zombie
  deriving DecidableEq

/-- Wait channels: a process sleeps on itself in `wait`, elsewhere on other objects. -/
inductive Chan
  | proc (p : Fin nproc)
  | other (addr : ℕ)
  deriving DecidableEq

structure Proc where
  state : ProcState
  pid : BitVec 32
  parent : Option (Fin nproc)
  chan : Option Chan
  killed : Bool
  deriving DecidableEq

structure Table where
  proc : Fin nproc → Proc
  nextpid : BitVec 32
  initproc : Fin nproc

namespace Table

/-- Replace one slot. -/
def set (t : Table) (p : Fin nproc) (pr : Proc) : Table :=
  { t with proc := Function.update t.proc p pr }

@[simp] theorem set_self (t : Table) (p : Fin nproc) (pr : Proc) : (t.set p pr).proc p = pr :=
  Function.update_self ..

@[simp] theorem set_of_ne (t : Table) {p q : Fin nproc} (pr : Proc) (h : q ≠ p) :
    (t.set p pr).proc q = t.proc q := Function.update_of_ne h ..

/-- `for(p = ptable.proc; p < &ptable.proc[NPROC]; p++)` up to the first hit. -/
def scan (t : Table) (hit : Proc → Bool) : Option (Fin nproc) :=
  (List.finRange nproc).find? (fun p => hit (t.proc p))

end Table

/-- `allocproc`; `kstack` tells whether `kalloc` had a page for the stack. -/
def allocproc (t : Table) (kstack : Bool) : Option (Fin nproc) × Table :=
  match t.scan (fun pr => pr.state = .unused) with
  | none => (none, t)
  | some p =>
    let t := { t.set p { t.proc p with state := .embryo, pid := t.nextpid } with
      nextpid := t.nextpid + 1 }
    if kstack then (some p, t) else (none, t.set p { t.proc p with state := .unused })

/-- `fork` by `cur`; `copied` tells whether `copyuvm` succeeded. -/
def fork (t : Table) (cur : Fin nproc) (kstack copied : Bool) : BitVec 32 × Table :=
  match allocproc t kstack with
  | (none, t) => (-1, t)
  | (some np, t) =>
    if copied then
      ((t.proc np).pid, t.set np { t.proc np with parent := some cur, state := .runnable })
    else (-1, t.set np { t.proc np with state := .unused })

/-- `wakeup1(chan)` -/
def wakeup1 (t : Table) (c : Chan) : Table :=
  { t with proc := fun p =>
      if (t.proc p).state = .sleeping ∧ (t.proc p).chan = some c then
        { t.proc p with state := .runnable } else t.proc p }

/-- The loop of `exit` that passes children to init. -/
def reparent (t : Table) (cur : Fin nproc) : Table :=
  (List.finRange nproc).foldl (fun t p =>
    if (t.proc p).parent = some cur then
      let t := t.set p { t.proc p with parent := some t.initproc }
      if (t.proc p).state = .zombie then wakeup1 t (.proc t.initproc) else t
    else t) t

/-- The section of `exit` under the table lock. -/
def exit (t : Table) (cur : Fin nproc) : Table :=
  let t := match (t.proc cur).parent with
    | some par => wakeup1 t (.proc par)
    | none => t
  let t := reparent t cur
  t.set cur { t.proc cur with state := .zombie }

/-- `wait` reaps a zombie child, fails, or sleeps on the caller. -/
def wait (t : Table) (cur : Fin nproc) : Option (BitVec 32) × Table :=
  match t.scan (fun pr => pr.parent = some cur ∧ pr.state = .zombie) with
  | some p =>
    (some (t.proc p).pid,
      t.set p { t.proc p with pid := 0, parent := none, killed := false, state := .unused })
  | none =>
    if (t.scan (fun pr => pr.parent = some cur)).isNone ∨ (t.proc cur).killed = true then
      (some (-1), t)
    else (none, t.set cur { t.proc cur with chan := some (.proc cur), state := .sleeping })

/-- `kill(pid)`: the loop looks at the pid only. -/
def kill (t : Table) (pid : BitVec 32) : BitVec 32 × Table :=
  match t.scan (fun pr => pr.pid = pid) with
  | none => (-1, t)
  | some p =>
    let pr := { t.proc p with killed := true }
    (0, t.set p (if pr.state = .sleeping then { pr with state := .runnable } else pr))

inductive Act
  | fork (cur : Fin nproc) (kstack copied : Bool)
  | exit (cur : Fin nproc)
  | wait (cur : Fin nproc)
  | kill (pid : BitVec 32)
  | sleep (cur : Fin nproc) (c : Chan)
  | wakeup (c : Chan)
  | yield (cur : Fin nproc)
  | schedule (p : Fin nproc)
  | fault (cur : Fin nproc)

/-- One call, or one move of the scheduler. Calls are made by running processes,
`exit` never by init (it panics), and a trap kills the process that caused it. -/
def step (t : Table) : Act → Option Table
  | .fork cur kstack copied =>
    if (t.proc cur).state = .running then some (fork t cur kstack copied).2 else none
  | .exit cur =>
    if (t.proc cur).state = .running ∧ cur ≠ t.initproc then some (exit t cur) else none
  | .wait cur => if (t.proc cur).state = .running then some (wait t cur).2 else none
  | .kill pid => some (kill t pid).2
  | .sleep cur c =>
    if (t.proc cur).state = .running then
      some (t.set cur { t.proc cur with chan := some c, state := .sleeping }) else none
  | .wakeup c => some (wakeup1 t c)
  | .yield cur =>
    if (t.proc cur).state = .running then
      some (t.set cur { t.proc cur with state := .runnable }) else none
  | .schedule p =>
    if (t.proc p).state = .runnable then
      some (t.set p { t.proc p with state := .running, chan := none }) else none
  | .fault cur =>
    if (t.proc cur).state = .running then
      some (t.set cur { t.proc cur with killed := true }) else none

/-- A slot of the zeroed table. -/
def zeroProc : Proc := ⟨.unused,0,none,none,false⟩

/-- The table `userinit` leaves: init in the first slot, runnable. -/
def booted : Table where
  proc := Function.update (fun _ => zeroProc) 0 { zeroProc with state := .runnable, pid := 1 }
  nextpid := 2
  initproc := 0

abbrev Boot (t : Table) : Prop := t = booted

abbrev Reached (t : Table) : Prop := Reachable Boot (OfFun step) t

end X86OsDev.Xv6.Ptable
