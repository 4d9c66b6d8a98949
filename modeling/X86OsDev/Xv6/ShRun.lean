import X86OsDev.Lib.ForkJoin
import X86OsDev.Lib.Transition
import X86OsDev.Xv6.Param
import X86OsDev.Xv6.Sh

/-! # The shell runs its commands (sh.c)

The processes of the shell and of the programs it starts take their steps in any
order; a step of the shell ends with a system call. An action says which process
steps and whether a call that may fail succeeds. Programs fork, exit, wait and
change their own descriptors as they like. No process is killed.
-/
namespace X86OsDev.Xv6.ShRun
open Memory Sh ForkJoin

/-- Where in the shell a process was forked. -/
inductive Role
  /-- `main` -/
  | line
  /-- `case LIST` -/
  | listLeft
  /-- The first `fork1` of `case PIPE`. -/
  | pipeLeft
  /-- The second one. -/
  | pipeRight
  /-- `case BACK` -/
  | back
  /-- By a program. -/
  | program
  deriving DecidableEq, Repr

structure Fork where
  pid : ℕ
  role : Role
  deriving DecidableEq, Repr

/-- The forks that led to a process, the last one first. `main` is `[]`. -/
abbrev Name := List Fork

/-- The open files. A pipe is named by the process that made it, which makes no other. -/
inductive Obj
  | console
  | file (name ename mode : ℕ)
  /-- `rf` and, if `writable`, `wf` of `pipealloc` -/
  | pipe (writable : Bool) (maker : Name)
  /-- A file or pipe that a program opened. -/
  | own (n : ℕ)
  deriving DecidableEq, Repr

/-- `ofile` -/
abbrev Table := ℕ → Option Obj

def Table.close (t : Table) (fd : ℕ) : Table := Function.update t fd none

def fdalloc (t : Table) (f : Obj) : Option (ℕ × Table) :=
  ((List.range nofile).find? fun fd => (t fd).isNone).map fun fd => (fd,Function.update t fd (some f))

def Table.dup (t : Table) (fd : ℕ) : Table :=
  match t fd with
  | none => t
  | some f => ((fdalloc t f).map Prod.snd).getD t

/-- `pipe(p)`: `p[0]`, `p[1]` and the descriptors -/
def pipe (t : Table) (maker : Name) : Option (ℕ × ℕ × Table) := do
  let (p0,t) ← fdalloc t (.pipe false maker)
  let (p1,t) ← fdalloc t (.pipe true maker)
  some (p0,p1,t)

/-- The first loop of `main`; the console can be opened -/
def openConsoles : ℕ → Table → Table
  | 0, t => t
  | n + 1, t =>
    match fdalloc t .console with
    | none => t
    | some (fd,t) => if 3 ≤ fd then t.close fd else openConsoles n t

/-- What is printed before `exit`. -/
inductive Message
  /-- A panic of the parser. -/
  | parse (e : Stop)
  /-- "exec %s failed" -/
  | exec (argv0 : ℕ × ℕ)
  /-- "open %s failed" -/
  | opening (file efile : ℕ)
  /-- "pipe" -/
  | pipe
  /-- "fork" -/
  | fork
  deriving DecidableEq, Repr

/-- The system call that a process comes to next, and the variables that it still needs. -/
inductive Point
  /-- `getcmd` -/
  | prompt
  /-- `fork1` of `main` -/
  | mainFork (parsed : Except Stop Cmd)
  | mainWait
  /-- `parsecmd(buf)` in the child -/
  | parse (parsed : Except Stop Cmd)
  | run (cmd : Cmd)
  /-- `open(rcmd->file, rcmd->mode)` -/
  | redirOpen (cmd : Cmd) (file efile mode : ℕ)
  | listWait (right : Cmd)
  | leftFork (p0 p1 : ℕ) (left right : Cmd)
  | rightFork (p0 p1 : ℕ) (right : Cmd)
  /-- `close(p[0])` of the parent -/
  | parentClose0 (p0 p1 : ℕ)
  | parentClose1 (p1 : ℕ)
  | pipeWait1
  | pipeWait2
  /-- `close(1)` of the left child, `close(0)` of the right one -/
  | closeStd (std p0 p1 : ℕ) (cmd : Cmd)
  /-- `dup(p[1])` of the left child, `dup(p[0])` of the right one -/
  | dupEnd (std p0 p1 : ℕ) (cmd : Cmd)
  | close0 (p0 p1 : ℕ) (cmd : Cmd)
  | close1 (p1 : ℕ) (cmd : Cmd)
  | printf (message : Message)
  | exit
  /-- After `exec`. -/
  | program (argv : List (ℕ × ℕ))

/-- `line` is the command that `main` forked for. -/
structure Proc where
  point : Point
  ofile : Table
  line : Option Cmd

inductive Outcome
  | go (proc : Proc)
  | fork (role : Role) (proc child : Proc)
  | exits

/-- `fork1()`: the parent goes on at one point, the child at the other -/
def fork1 (ok : Bool) (role : Role) (proc : Proc) (parent child : Point) : Outcome :=
  if ok then .fork role { proc with point := parent } { proc with point := child }
  else .go { proc with point := .printf .fork }

/-- `exec(ecmd->argv[0], ecmd->argv)` -/
def exec (ok : Bool) (proc : Proc) : List (ℕ × ℕ) → Outcome
  | [] => .go { proc with point := .exit }
  | argv0 :: argv =>
    if ok then .go { proc with point := .program (argv0 :: argv) }
    else .go { proc with point := .printf (.exec argv0) }

/-- `open(rcmd->file, rcmd->mode)` -/
def redirOpen (ok : Bool) (proc : Proc) (cmd : Cmd) (file efile mode : ℕ) : Outcome :=
  match if ok then fdalloc proc.ofile (.file file efile mode) else none with
  | none => .go { proc with point := .printf (.opening file efile) }
  | some (_,t) => .go { proc with point := .run cmd, ofile := t }

/-- `runcmd` up to the next system call -/
def runcmd (q : Name) (ok : Bool) (proc : Proc) : Cmd → Outcome
  | .exec argv => exec ok proc argv
  | .redir cmd file efile mode fd =>
    .go { proc with point := .redirOpen cmd file efile mode, ofile := proc.ofile.close fd }
  | .list left right => fork1 ok .listLeft proc (.listWait right) (.run left)
  | .pipe left right =>
    match if ok then pipe proc.ofile q else none with
    | none => .go { proc with point := .printf .pipe }
    | some (p0,p1,t) => .go { proc with point := .leftFork p0 p1 left right, ofile := t }
  | .back cmd => fork1 ok .back proc .exit (.run cmd)

/-- One step of a process of the shell; nothing at the points where it waits for something else. -/
def next (q : Name) (ok : Bool) (proc : Proc) : Option Outcome :=
  match proc.point with
  | .mainFork (.ok cmd) => some (fork1 ok .line { proc with line := some cmd } .mainWait (.parse (.ok cmd)))
  | .mainFork (.error e) => some (fork1 ok .line { proc with line := none } .mainWait (.parse (.error e)))
  | .parse (.ok cmd) => some (.go { proc with point := .run cmd })
  | .parse (.error e) => some (.go { proc with point := .printf (.parse e) })
  | .run cmd => some (runcmd q ok proc cmd)
  | .redirOpen cmd file efile mode => some (redirOpen ok proc cmd file efile mode)
  | .leftFork p0 p1 left right =>
    some (fork1 ok .pipeLeft proc (.rightFork p0 p1 right) (.closeStd 1 p0 p1 left))
  | .rightFork p0 p1 right => some (fork1 ok .pipeRight proc (.parentClose0 p0 p1) (.closeStd 0 p0 p1 right))
  | .parentClose0 p0 p1 => some (.go { proc with point := .parentClose1 p1, ofile := proc.ofile.close p0 })
  | .parentClose1 p1 => some (.go { proc with point := .pipeWait1, ofile := proc.ofile.close p1 })
  | .closeStd std p0 p1 cmd =>
    some (.go { proc with point := .dupEnd std p0 p1 cmd, ofile := proc.ofile.close std })
  | .dupEnd std p0 p1 cmd =>
    some (.go { proc with point := .close0 p0 p1 cmd, ofile := proc.ofile.dup (if std = 1 then p1 else p0) })
  | .close0 p0 p1 cmd => some (.go { proc with point := .close1 p1 cmd, ofile := proc.ofile.close p0 })
  | .close1 p1 cmd => some (.go { proc with point := .run cmd, ofile := proc.ofile.close p1 })
  | .printf _ => some (.go { proc with point := .exit })
  | .exit => some .exits
  | .prompt | .mainWait | .listWait _ | .pipeWait1 | .pipeWait2 | .program _ => none

/-- Where a process goes on when `wait` returns. -/
def afterWait : Point → Option Point
  | .mainWait => some .prompt
  | .listWait right => some (.run right)
  | .pipeWait1 => some .pipeWait2
  | .pipeWait2 => some .exit
  | .program argv => some (.program argv)
  | _ => none

/-- The line that `getcmd` returns: the end of the input, a `cd`, or a command in memory. -/
inductive Line
  | eof
  | cd
  | cmd (fuel : ℕ) (m : Mem) (s : ℕ)

def getcmd : Line → Point
  | .eof => .exit
  | .cd => .prompt
  | .cmd fuel m s => .mainFork ((parsecmd fuel m s).map Prod.fst)

/-- What a program does besides waiting. -/
inductive Op
  | fork
  | exit
  | exec (argv : List (ℕ × ℕ))
  | close (fd : ℕ)
  | dup (fd : ℕ)
  /-- It puts a file of its own in a descriptor. -/
  | opens (fd n : ℕ)

def program (proc : Proc) : Op → Outcome
  | .fork => .fork .program proc proc
  | .exit => .exits
  | .exec argv => .go { proc with point := .program argv }
  | .close fd => .go { proc with ofile := proc.ofile.close fd }
  | .dup fd => .go { proc with ofile := proc.ofile.dup fd }
  | .opens fd n => .go { proc with ofile := Function.update proc.ofile fd (some (.own n)) }

structure State where
  procs : Tree Fork Proc
  nextpid : ℕ

inductive Action
  | getcmd (line : Line)
  | shell (q : Name) (ok : Bool)
  | program (q : Name) (op : Op)
  /-- `wait` of `p` finds the zombie `q`. -/
  | wait (p q : Name)
  /-- `wait` of `p` returns -1. -/
  | noChild (p : Name)
  /-- `init` waits for an orphan. -/
  | init (q : Name)

/-- `q` is at `proc` and what it does next is `out`. -/
def State.does (s : State) (q : Name) (out : Outcome) : State :=
  match out with
  | .go proc => { s with procs := s.procs.put q proc }
  | .fork role proc child => ⟨s.procs.fork q ⟨s.nextpid,role⟩ proc child,s.nextpid + 1⟩
  | .exits => { s with procs := s.procs.exit q }

def State.proc? (s : State) (q : Name) : Option Proc :=
  match s.procs.slot q with
  | .live proc => some proc
  | _ => none

def step (s : State) : Action → Option State
  | .getcmd line =>
    match s.proc? [] with
    | some ⟨.prompt,t,l⟩ => some (s.does [] (.go ⟨ShRun.getcmd line,t,l⟩))
    | _ => none
  | .shell q ok => do
    let proc ← s.proc? q
    let out ← next q ok proc
    some (s.does q out)
  | .program q op =>
    match s.proc? q with
    | some ⟨.program argv,t,l⟩ => some (s.does q (ShRun.program ⟨.program argv,t,l⟩ op))
    | _ => none
  | .wait p q => do
    let proc ← s.proc? p
    let point ← afterWait proc.point
    if s.procs.parent q = some p ∧ (s.procs.slot q).isZombie then
      some { s with procs := s.procs.wait p q { proc with point := point } }
    else none
  | .noChild p => do
    let proc ← s.proc? p
    let point ← afterWait proc.point
    if s.procs.hasChild p then none else some (s.does p (.go { proc with point := point }))
  | .init q =>
    if s.procs.parent q = none ∧ (s.procs.slot q).isZombie then some { s with procs := s.procs.free q }
    else none

/-- `main` comes to its prompt with the descriptors `t`. -/
def start (t : Table) : State where
  procs := ⟨{[]},Function.update (fun _ => .unused) [] (.live ⟨.prompt,openConsoles nofile t,none⟩),fun _ => none⟩
  nextpid := 1

end X86OsDev.Xv6.ShRun
