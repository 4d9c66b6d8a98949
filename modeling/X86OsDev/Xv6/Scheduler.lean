import X86OsDev.Xv6.Proc

/-! # The scheduler, instruction by instruction (proc.c)

Each processor executes one stack, its boot stack or a kernel stack, and `swtch` changes it.
Other code comes between any two points of `proc.c`, also under `ptable.lock`, and a thread that
does not hold the lock can call more of these functions or be interrupted by them.
-/
namespace X86OsDev.Xv6.Scheduler
open Transition Ptable

/-- The boot stack of a processor, or a page for the kernel stack of a process. -/
inductive Stack (C A : Type*)
  | boot (c : C)
  | page (a : A)
  deriving DecidableEq

/-- Calls on top of what a thread does. `own` tells whether the lock of `sleep` is `ptable.lock`. -/
inductive Frame
  | yieldAcquire
  | yieldState
  | yieldRelease
  | sched
  | sleepStart (chan : Option Chan) (own : Bool)
  | sleepAcquire (p : Fin nproc) (chan : Option Chan)
  | sleepChan (p : Fin nproc) (chan : Option Chan) (own : Bool)
  | sleepState (p : Fin nproc) (own : Bool)
  | sleepTidy (p : Fin nproc) (own : Bool)
  | sleepRelease
  | wakeupAcquire (chan : Option Chan)
  | wakeup1 (chan : Option Chan) (i : ℕ)
  | wakeupRelease
  deriving DecidableEq

/-- What a thread does below these calls, with the local variables: `cur` is `curproc`, and `me`
the `c` of `scheduler`. The code of `fork` goes on behind that of `allocproc`. -/
inductive Call (C : Type*)
  | other
  | forkStart
  | allocAcquire (cur : Fin nproc)
  | allocScan (cur : Fin nproc) (i : ℕ)
  | allocRelease (cur : Fin nproc) (found : Option (Fin nproc))
  | allocStack (cur np : Fin nproc)
  | allocFail (np : Fin nproc)
  | forkCopy (cur np : Fin nproc)
  | forkFree (np : Fin nproc)
  | forkClear (np : Fin nproc)
  | forkDrop (np : Fin nproc)
  | forkParent (cur np : Fin nproc)
  | forkAcquire (np : Fin nproc)
  | forkState (np : Fin nproc)
  | forkRelease
  | exitStart
  | exitClose (cur : Fin nproc)
  | exitAcquire (cur : Fin nproc)
  | exitWake (cur : Fin nproc)
  | exitScan (cur : Fin nproc) (i : ℕ)
  | exitState (cur : Fin nproc)
  | exitDead
  | waitStart
  | waitAcquire (cur : Fin nproc)
  | waitScan (cur : Fin nproc) (i : ℕ) (havekids : Bool)
  | waitFree (p : Fin nproc)
  | waitClear (p : Fin nproc)
  | waitReap (p : Fin nproc)
  | waitRelease
  | killAcquire (pid : BitVec 32)
  | killScan (pid : BitVec 32) (i : ℕ)
  | killState (p : Fin nproc)
  | killRelease
  | forkret
  | schedulerStart (me : C)
  | schedulerLoop (me : C)
  | schedulerAcquire (me : C)
  | schedulerScan (me : C) (i : ℕ)
  | schedulerRun (me : C) (p : Fin nproc)
  | schedulerSwtch (me : C) (p : Fin nproc)
  | schedulerBack (me : C) (p : Fin nproc)
  | schedulerRelease (me : C)
  deriving DecidableEq

structure Thread (C : Type*) where
  call : Call C
  above : List Frame

inductive Panic
  | acquire
  | release
  | schedLock
  | schedRunning
  | sleep
  | initExiting
  | zombieExit
  | kfree
  | switchuvm
  deriving DecidableEq

def Panic.text : Panic → String
  | acquire => "acquire"
  | release => "release"
  | schedLock => "sched ptable.lock"
  | schedRunning => "sched running"
  | sleep => "sleep"
  | initExiting => "init exiting"
  | zombieExit => "zombie exit"
  | kfree => "kfree"
  | switchuvm => "switchuvm: no kstack"

/-- A point of the code goes on, spins, panics, or follows a null pointer. -/
inductive Outcome (σ : Type*)
  | next (s : σ)
  | spin
  | panic (e : Panic)
  | fault

/-- A page is on the list of `kalloc`, a kernel stack, or in use for something else. -/
inductive PageUse
  | free
  | stack
  | other
  deriving DecidableEq

structure Sys (C A : Type*) where
  table : Table
  kstack : Fin nproc → Option A
  context : Fin nproc → Option (Stack C A)
  proc : C → Option (Fin nproc)
  scheduler : C → Option (Stack C A)
  lock : Option C
  use : A → PageUse
  on : C → Stack C A
  code : Stack C A → Thread C

variable {C A : Type*} [DecidableEq C] [DecidableEq A]

namespace Sys
variable (s : Sys C A) (c : C)

abbrev state (p : Fin nproc) : ProcState := (s.table.proc p).state

/-- The thread that a processor executes. -/
abbrev thread : Thread C := s.code (s.on c)

def put (t : Thread C) : Sys C A := { s with code := Function.update s.code (s.on c) t }

/-- The thread goes on at another point, with no calls on top of it. -/
def goto (k : Call C) : Sys C A := s.put c ⟨k,[]⟩

/-- The calls on top change. -/
def calls (l : List Frame) : Sys C A := s.put c ⟨(s.thread c).call,l⟩

def setProc (p : Fin nproc) (pr : Proc) : Sys C A := { s with table := s.table.set p pr }

def setState (p : Fin nproc) (st : ProcState) : Sys C A := s.setProc p { s.table.proc p with state := st }

def setStack (p : Fin nproc) (a : Option A) : Sys C A := { s with kstack := Function.update s.kstack p a }

def setUse (a : A) (u : PageUse) : Sys C A := { s with use := Function.update s.use a u }

def setCpuProc (p : Option (Fin nproc)) : Sys C A := { s with proc := Function.update s.proc c p }

/-- `acquire(&ptable.lock)`, and the thread goes on as `t`. -/
def acquire (t : Thread C) : Outcome (Sys C A) :=
  if s.lock = some c then .panic .acquire
  else if s.lock = none then .next { s.put c t with lock := some c }
  else .spin

/-- `release(&ptable.lock)` -/
def release (t : Thread C) : Outcome (Sys C A) :=
  if s.lock = some c then .next { s.put c t with lock := none } else .panic .release

/-- The loop body of `wakeup1`, and the `if` of `kill`. -/
def rouse (p : Fin nproc) : Sys C A := if s.state p = .sleeping then s.setState p .runnable else s

/-- `allocproc` found a slot. -/
def embryo (p : Fin nproc) : Sys C A :=
  { s with table := { s.table.set p { s.table.proc p with state := .embryo, pid := s.table.nextpid } with
      nextpid := s.table.nextpid + 1 } }

/-- A new kernel stack, which starts at `forkret`. -/
def newStack (np : Fin nproc) (a : A) : Sys C A :=
  { (s.setStack np (some a)).setUse a .stack with
    context := Function.update s.context np (some (.page a))
    code := Function.update s.code (.page a) ⟨.forkret,[]⟩ }

/-- `swtch(&p->context, mycpu()->scheduler)` -/
def leave (p : Fin nproc) (target : Stack C A) : Sys C A :=
  { s with
    context := Function.update s.context p (some (s.on c))
    on := Function.update s.on c target }

/-- `swtch(&(c->scheduler), p->context)` -/
def resume (me : C) (target : Stack C A) : Sys C A :=
  { s with
    scheduler := Function.update s.scheduler me (some (s.on c))
    on := Function.update s.on c target }

/-- The top call of a thread, over the calls `rest`. -/
def runFrame (rest : List Frame) : Frame → Outcome (Sys C A)
  | .yieldAcquire => s.acquire c ⟨(s.thread c).call,.yieldState :: rest⟩
  | .yieldState =>
    match s.proc c with
    | none => .fault
    | some p => .next ((s.setState p .runnable).calls c (.sched :: .yieldRelease :: rest))
  | .yieldRelease => s.release c ⟨(s.thread c).call,rest⟩
  | .sched =>
    match s.proc c, s.scheduler c with
    | some p, some target =>
      if s.lock ≠ some c then .panic .schedLock
      else if s.state p = .running then .panic .schedRunning
      else .next ((s.calls c rest).leave c p target)
    | _, _ => .fault
  | .sleepStart chan own =>
    match s.proc c with
    | none => .panic .sleep
    | some p => .next (s.calls c ((if own then .sleepChan p chan true else .sleepAcquire p chan) :: rest))
  | .sleepAcquire p chan => s.acquire c ⟨(s.thread c).call,.sleepChan p chan false :: rest⟩
  | .sleepChan p chan own =>
    .next ((s.setProc p { s.table.proc p with chan := chan }).calls c (.sleepState p own :: rest))
  | .sleepState p own => .next ((s.setState p .sleeping).calls c (.sched :: .sleepTidy p own :: rest))
  | .sleepTidy p own =>
    .next ((s.setProc p { s.table.proc p with chan := none }).calls c (if own then rest else .sleepRelease :: rest))
  | .sleepRelease => s.release c ⟨(s.thread c).call,rest⟩
  | .wakeupAcquire chan => s.acquire c ⟨(s.thread c).call,.wakeup1 chan 0 :: .wakeupRelease :: rest⟩
  | .wakeup1 chan i =>
    if h : i < nproc then
      .next ((if (s.table.proc ⟨i,h⟩).chan = chan then s.rouse ⟨i,h⟩ else s).calls c (.wakeup1 chan (i + 1) :: rest))
    else .next (s.calls c rest)
  | .wakeupRelease => s.release c ⟨(s.thread c).call,rest⟩

/-- A thread with no calls on top. `page` is the answer of `kalloc`, and `copied` tells whether
`copyuvm` succeeds. -/
def runCall (page : Option A) (copied : Bool) : Call C → Outcome (Sys C A)
  | .other => .spin
  | .forkStart =>
    match s.proc c with
    | none => .fault
    | some cur => .next (s.goto c (.allocAcquire cur))
  | .allocAcquire cur => s.acquire c ⟨.allocScan cur 0,[]⟩
  | .allocScan cur i =>
    if h : i < nproc then
      if s.state ⟨i,h⟩ = .unused then .next ((s.embryo ⟨i,h⟩).goto c (.allocRelease cur (some ⟨i,h⟩)))
      else .next (s.goto c (.allocScan cur (i + 1)))
    else .next (s.goto c (.allocRelease cur none))
  | .allocRelease _ none => s.release c ⟨.other,[]⟩
  | .allocRelease cur (some np) => s.release c ⟨.allocStack cur np,[]⟩
  | .allocStack cur np =>
    match page with
    | none => .next ((s.setStack np none).goto c (.allocFail np))
    | some a => if s.use a = .free then .next ((s.newStack np a).goto c (.forkCopy cur np)) else .spin
  | .allocFail np => .next ((s.setState np .unused).goto c .other)
  | .forkCopy cur np => .next (s.goto c (if copied then .forkParent cur np else .forkFree np))
  | .forkFree np =>
    match s.kstack np with
    | none => .panic .kfree
    | some a => .next ((s.setUse a .free).goto c (.forkClear np))
  | .forkClear np => .next ((s.setStack np none).goto c (.forkDrop np))
  | .forkDrop np => .next ((s.setState np .unused).goto c .other)
  | .forkParent cur np =>
    .next ((s.setProc np { s.table.proc np with parent := some cur }).goto c (.forkAcquire np))
  | .forkAcquire np => s.acquire c ⟨.forkState np,[]⟩
  | .forkState np => .next ((s.setState np .runnable).goto c .forkRelease)
  | .forkRelease => s.release c ⟨.other,[]⟩
  | .exitStart =>
    match s.proc c with
    | none => .fault
    | some cur => if cur = s.table.initproc then .panic .initExiting else .next (s.goto c (.exitClose cur))
  | .exitClose cur => .next (s.goto c (.exitAcquire cur))
  | .exitAcquire cur => s.acquire c ⟨.exitWake cur,[]⟩
  | .exitWake cur => .next (s.put c ⟨.exitScan cur 0,[.wakeup1 ((s.table.proc cur).parent.map .proc) 0]⟩)
  | .exitScan cur i =>
    if h : i < nproc then
      if (s.table.proc ⟨i,h⟩).parent = some cur then
        .next ((s.setProc ⟨i,h⟩ { s.table.proc ⟨i,h⟩ with parent := some s.table.initproc }).put c
          ⟨.exitScan cur (i + 1),
            if s.state ⟨i,h⟩ = .zombie then [.wakeup1 (some (.proc s.table.initproc)) 0] else []⟩)
      else .next (s.goto c (.exitScan cur (i + 1)))
    else .next (s.goto c (.exitState cur))
  | .exitState cur => .next ((s.setState cur .zombie).put c ⟨.exitDead,[.sched]⟩)
  | .exitDead => .panic .zombieExit
  | .waitStart =>
    match s.proc c with
    | none => .fault
    | some cur => .next (s.goto c (.waitAcquire cur))
  | .waitAcquire cur => s.acquire c ⟨.waitScan cur 0 false,[]⟩
  | .waitScan cur i havekids =>
    if h : i < nproc then
      if (s.table.proc ⟨i,h⟩).parent ≠ some cur then .next (s.goto c (.waitScan cur (i + 1) havekids))
      else if s.state ⟨i,h⟩ = .zombie then .next (s.goto c (.waitFree ⟨i,h⟩))
      else .next (s.goto c (.waitScan cur (i + 1) true))
    else if havekids = false ∨ (s.table.proc cur).killed = true then .next (s.goto c .waitRelease)
    else .next (s.put c ⟨.waitScan cur 0 false,[.sleepStart (some (.proc cur)) true]⟩)
  | .waitFree p =>
    match s.kstack p with
    | none => .panic .kfree
    | some a => .next ((s.setUse a .free).goto c (.waitClear p))
  | .waitClear p => .next ((s.setStack p none).goto c (.waitReap p))
  | .waitReap p =>
    .next ((s.setProc p { s.table.proc p with pid := 0, parent := none, killed := false, state := .unused }).goto c
      .waitRelease)
  | .waitRelease => s.release c ⟨.other,[]⟩
  | .killAcquire pid => s.acquire c ⟨.killScan pid 0,[]⟩
  | .killScan pid i =>
    if h : i < nproc then
      if (s.table.proc ⟨i,h⟩).pid = pid then
        .next ((s.setProc ⟨i,h⟩ { s.table.proc ⟨i,h⟩ with killed := true }).goto c (.killState ⟨i,h⟩))
      else .next (s.goto c (.killScan pid (i + 1)))
    else .next (s.goto c .killRelease)
  | .killState p => .next ((s.rouse p).goto c .killRelease)
  | .killRelease => s.release c ⟨.other,[]⟩
  | .forkret => s.release c ⟨.other,[]⟩
  | .schedulerStart me => .next ((s.setCpuProc me none).goto c (.schedulerLoop me))
  | .schedulerLoop me => .next (s.goto c (.schedulerAcquire me))
  | .schedulerAcquire me => s.acquire c ⟨.schedulerScan me 0,[]⟩
  | .schedulerScan me i =>
    if h : i < nproc then
      if s.state ⟨i,h⟩ = .runnable then
        .next ((s.setCpuProc me (some ⟨i,h⟩)).goto c (.schedulerRun me ⟨i,h⟩))
      else .next (s.goto c (.schedulerScan me (i + 1)))
    else .next (s.goto c (.schedulerRelease me))
  | .schedulerRun me p =>
    if (s.kstack p).isNone then .panic .switchuvm
    else .next ((s.setState p .running).goto c (.schedulerSwtch me p))
  | .schedulerSwtch me p =>
    match s.context p with
    | none => .fault
    | some target => .next ((s.goto c (.schedulerBack me p)).resume c me target)
  | .schedulerBack me p => .next ((s.setCpuProc me none).goto c (.schedulerScan me (p + 1)))
  | .schedulerRelease me => s.release c ⟨.schedulerLoop me,[]⟩

/-- What a processor executes next. -/
def exec (page : Option A) (copied : Bool) : Outcome (Sys C A) :=
  match (s.thread c).above with
  | [] => s.runCall c page copied (s.thread c).call
  | f :: rest => s.runFrame c rest f

end Sys

/-- The system calls of this file. -/
inductive Syscall
  | fork
  | exit
  | wait
  | kill (pid : BitVec 32)

def Syscall.call : Syscall → Call C
  | fork => .forkStart
  | exit => .exitStart
  | wait => .waitStart
  | kill pid => .killAcquire pid

/-- `run` executes the next point of a processor. The others are steps of the code outside
`ptable.lock`: a system call, a `yield`, `sleep` or `wakeup`, and pages taken and given back. -/
inductive Action (C A : Type*)
  | run (c : C) (page : Option A) (copied : Bool)
  | syscall (c : C) (k : Syscall)
  | yield (c : C)
  | sleep (c : C) (chan : Option Chan)
  | wakeup (c : C) (chan : Option Chan)
  | take (a : A)
  | give (a : A)

/-- The next state. `trap` looks at the process before it calls `yield`, and only code of a process
calls `sleep`. -/
def step (s : Sys C A) : Action C A → Option (Sys C A)
  | .run c page copied =>
    match s.exec c page copied with
    | .next t => some t
    | _ => none
  | .syscall c k =>
    if (s.thread c).above = [] ∧ (s.thread c).call = .other then some (s.goto c k.call) else none
  | .yield c =>
    match s.proc c with
    | none => none
    | some p =>
      if s.lock ≠ some c ∧ s.state p = .running then some (s.calls c (.yieldAcquire :: (s.thread c).above)) else none
  | .sleep c chan =>
    if s.lock ≠ some c ∧ (s.proc c).isSome then some (s.calls c (.sleepStart chan false :: (s.thread c).above))
    else none
  | .wakeup c chan =>
    if s.lock ≠ some c then some (s.calls c (.wakeupAcquire chan :: (s.thread c).above)) else none
  | .take a => if s.use a = .free then some (s.setUse a .other) else none
  | .give a => if s.use a = .other then some (s.setUse a .free) else none

/-- The state that `main` leaves: init is runnable, and each processor comes to `scheduler`. -/
structure Boot (s : Sys C A) : Prop where
  table : s.table = booted
  stack : ∃ a, s.kstack = Function.update (fun _ => none) 0 (some a) ∧ s.context 0 = some (.page a) ∧
    s.use a = .stack ∧ s.code (.page a) = ⟨.forkret,[]⟩ ∧ ∀ b ≠ a, s.code (.page b) = ⟨.other,[]⟩
  proc : ∀ c, s.proc c = none
  lock : s.lock = none
  on : ∀ c, s.on c = .boot c
  code : ∀ c, s.code (.boot c) = ⟨.schedulerStart c,[]⟩

abbrev Reached (s : Sys C A) : Prop := Reachable Boot (OfFun step) s

end X86OsDev.Xv6.Scheduler
