import Mathlib.Data.List.FinRange
import X86OsDev.Xv6.Exec

/-! # The calls that allocate and free pages (main.c, proc.c, file.c, pipe.c, sysfile.c)

The state is the machine, the process table, the file table and the open ends
of the pipes, each pipe named by its page. A call is one program of this layer.
What it does outside of pages, files and processes (the trap frame, the current
directory, wakeups) is left out.
-/
namespace X86OsDev.Xv6.Pages
open Memory Fault

/-- A live process is SLEEPING, RUNNABLE or RUNNING. -/
inductive ProcState
  | unused
  | embryo
  | live
  | zombie
  deriving DecidableEq

inductive FileType
  | none
  | pipe
  | inode
  deriving DecidableEq

structure OpenFile where
  type : FileType
  ref : ℕ
  readable : Bool
  writable : Bool
  pipe : ℕ
  deriving DecidableEq

structure PipeEnds where
  readopen : Bool
  writeopen : Bool
  deriving DecidableEq

structure Proc where
  state : ProcState
  parent : Option (Fin nproc)
  kstack : ℕ
  pgdir : ℕ
  sz : ℕ
  ofile : Fin nofile → Option (Fin nfile)

structure Sys where
  mach : Machine
  kpgdir : ℕ
  cpuStacks : List ℕ
  initproc : Fin nproc
  proc : Fin nproc → Proc
  file : Fin nfile → OpenFile
  pipe : ℕ → PipeEnds

/-- Ways to stop. The last three are the null pointers that the boot code does not check for. -/
inductive Stop
  | vm (e : VmFault)
  | filedup
  | fileclose
  | initExiting
  | userinit
  | inituvm
  | nullKpgdir
  | nullStack
  | nullPage
  deriving DecidableEq

abbrev Kern := Prog Sys Stop

/-- A program of the machine. -/
def vm {α : Type} (x : Vm α) : Kern α := fun s =>
  match x s.mach with
  | .ok (a,m) => .ok (a,{ s with mach := m })
  | .error e => .error (.vm e)

def updProc (p : Fin nproc) (g : Proc → Proc) : Kern Unit :=
  modify fun s => { s with proc := Function.update s.proc p (g (s.proc p)) }

def updFile (f : Fin nfile) (g : OpenFile → OpenFile) : Kern Unit :=
  modify fun s => { s with file := Function.update s.file f (g (s.file f)) }

def updPipe (p : ℕ) (g : PipeEnds → PipeEnds) : Kern Unit :=
  modify fun s => { s with pipe := Function.update s.pipe p (g (s.pipe p)) }

/-- The first slot of a table that meets a condition. -/
def first {n : ℕ} (hit : Fin n → Bool) : Option (Fin n) := (List.finRange n).find? hit

/-! ## Files and pipes -/

def filealloc : Kern (Option (Fin nfile)) := do
  let s ← get
  match first fun f => (s.file f).ref = 0 with
  | none => return none
  | some f =>
    updFile f fun e => { e with ref := 1 }
    return some f

def filedup (f : Fin nfile) : Kern Unit := do
  let s ← get
  if (s.file f).ref < 1 then throw .filedup
  else updFile f fun e => { e with ref := e.ref + 1 }

variable (k : Kernel)

def pipeclose (p : ℕ) (writable : Bool) : Kern Unit := do
  if writable then updPipe p fun e => { e with writeopen := false }
  else updPipe p fun e => { e with readopen := false }
  let s ← get
  if (s.pipe p).readopen = false ∧ (s.pipe p).writeopen = false then vm (Vm.kfree k p)
  else return ()

/-- `fileclose`. Putting an inode back frees no page. -/
def fileclose (f : Fin nfile) : Kern Unit := do
  let s ← get
  if (s.file f).ref < 1 then throw .fileclose
  else if 0 < (s.file f).ref - 1 then updFile f fun e => { e with ref := e.ref - 1 }
  else
    updFile f fun e => { e with ref := 0, type := .none }
    match (s.file f).type with
    | .pipe => pipeclose k (s.file f).pipe (s.file f).writable
    | _ => return ()

def pipealloc : Kern (Option (Fin nfile × Fin nfile)) := do
  match ← filealloc with
  | none => return none
  | some f0 =>
    match ← filealloc with
    | none =>
      fileclose k f0
      return none
    | some f1 =>
      match ← vm Vm.kalloc with
      | none =>
        fileclose k f0
        fileclose k f1
        return none
      | some p =>
        updPipe p fun _ => ⟨true,true⟩
        updFile f0 fun e => { e with type := .pipe, readable := true, writable := false, pipe := p }
        updFile f1 fun e => { e with type := .pipe, readable := false, writable := true, pipe := p }
        return some (f0,f1)

def fdalloc (cur : Fin nproc) (f : Fin nfile) : Kern (Option (Fin nofile)) := do
  let s ← get
  match first fun fd => ((s.proc cur).ofile fd).isNone with
  | none => return none
  | some fd =>
    updProc cur fun pr => { pr with ofile := Function.update pr.ofile fd (some f) }
    return some fd

/-- `sys_pipe` up to the two stores into the user's array -/
def sysPipe (cur : Fin nproc) : Kern (Option (Fin nofile × Fin nofile)) := do
  match ← pipealloc k with
  | none => return none
  | some (rf,wf) =>
    match ← fdalloc cur rf with
    | none =>
      fileclose k rf
      fileclose k wf
      return none
    | some fd0 =>
      match ← fdalloc cur wf with
      | none =>
        updProc cur fun pr => { pr with ofile := Function.update pr.ofile fd0 none }
        fileclose k rf
        fileclose k wf
        return none
      | some fd1 => return some (fd0,fd1)

/-- `sys_close`: `false` stands for -1 -/
def sysClose (cur : Fin nproc) (fd : Fin nofile) : Kern Bool := do
  let s ← get
  match (s.proc cur).ofile fd with
  | none => return false
  | some f =>
    updProc cur fun pr => { pr with ofile := Function.update pr.ofile fd none }
    fileclose k f
    return true

def sysDup (cur : Fin nproc) (fd : Fin nofile) : Kern (Option (Fin nofile)) := do
  let s ← get
  match (s.proc cur).ofile fd with
  | none => return none
  | some f =>
    match ← fdalloc cur f with
    | none => return none
    | some fd' =>
      filedup f
      return some fd'

/-! ## Processes -/

def allocproc : Kern (Option (Fin nproc)) := do
  let s ← get
  match first fun p => (s.proc p).state = .unused with
  | none => return none
  | some p =>
    updProc p fun pr => { pr with state := .embryo }
    match ← vm Vm.kalloc with
    | none =>
      updProc p fun pr => { pr with kstack := 0, state := .unused }
      return none
    | some kstack =>
      updProc p fun pr => { pr with kstack := kstack }
      return some p

/-- The loop of `fork` over the open files. -/
def dupFiles (cur np : Fin nproc) : List (Fin nofile) → Kern Unit
  | [] => return ()
  | fd :: rest => do
    let s ← get
    match (s.proc cur).ofile fd with
    | none => dupFiles cur np rest
    | some f =>
      filedup f
      updProc np fun pr => { pr with ofile := Function.update pr.ofile fd (some f) }
      dupFiles cur np rest

/-- `fork`: the slot of the child -/
def fork (cur : Fin nproc) : Kern (Option (Fin nproc)) := do
  match ← allocproc with
  | none => return none
  | some np =>
    let s ← get
    match ← vm (Vm.copyuvm k (s.proc cur).pgdir (s.proc cur).sz) with
    | none =>
      vm (Vm.kfree k (s.proc np).kstack)
      updProc np fun pr => { pr with pgdir := 0, kstack := 0, state := .unused }
      return none
    | some d =>
      updProc np fun pr => { pr with pgdir := d, sz := (s.proc cur).sz, parent := some cur }
      dupFiles cur np (List.finRange nofile)
      updProc np fun pr => { pr with state := .live }
      return some np

/-- `growproc`: `false` stands for -1 -/
def growproc (cur : Fin nproc) (n : BitVec 32) : Kern Bool := do
  let s ← get
  let pr := s.proc cur
  if 0 < n.toInt then
    let sz ← vm (Vm.allocuvm k pr.pgdir pr.sz (u32 (pr.sz + n.toNat)))
    if sz = 0 then return false
    else
      updProc cur fun pr => { pr with sz := sz }
      return true
  else if n.toInt < 0 then
    let sz ← vm (Vm.deallocuvm k pr.pgdir pr.sz (u32 (pr.sz + n.toNat)))
    if sz = 0 then return false
    else
      updProc cur fun pr => { pr with sz := sz }
      return true
  else return true

/-- `exec` of the file that `namei` found, if any: `false` stands for -1 -/
def exec (cur : Fin nproc) (ip : Option File) (argv : List (List UInt8)) : Kern Bool := do
  match ip with
  | none => return false
  | some f =>
    let s ← get
    match ← vm (Vm.exec k f argv (s.proc cur).pgdir) with
    | none => return false
    | some im =>
      updProc cur fun pr => { pr with pgdir := im.pgdir, sz := im.sz }
      return true

/-- The loop of `exit` over the open files. -/
def closeFiles (cur : Fin nproc) : List (Fin nofile) → Kern Unit
  | [] => return ()
  | fd :: rest => do
    let s ← get
    match (s.proc cur).ofile fd with
    | none => closeFiles cur rest
    | some f =>
      fileclose k f
      updProc cur fun pr => { pr with ofile := Function.update pr.ofile fd none }
      closeFiles cur rest

def exit (cur : Fin nproc) : Kern Unit := do
  let s ← get
  if cur = s.initproc then throw .initExiting
  else
    closeFiles k cur (List.finRange nofile)
    modify fun s => { s with proc := fun p =>
      if (s.proc p).parent = some cur then { s.proc p with parent := some s.initproc } else s.proc p }
    updProc cur fun pr => { pr with state := .zombie }

/-- `wait` when it finds a zombie; it fails or sleeps otherwise. -/
def wait (cur : Fin nproc) : Kern (Option (Fin nproc)) := do
  let s ← get
  match first fun p => (s.proc p).parent = some cur ∧ (s.proc p).state = .zombie with
  | none => return none
  | some p =>
    vm (Vm.kfree k (s.proc p).kstack)
    updProc p fun pr => { pr with kstack := 0 }
    vm (Vm.freevm k (s.proc p).pgdir)
    updProc p fun pr => { pr with parent := none, state := .unused }
    return some p

/-- A store of the user program: it reaches memory only through a page that is mapped for
the user, else the processor traps. -/
def userStore (cur : Fin nproc) (addr : BitVec 32) (b : UInt8) : Kern Unit := do
  let s ← get
  let va := addr.toNat
  match ← vm (Vm.walkpgdir (s.proc cur).pgdir va false) with
  | none => return ()
  | some pte =>
    let e ← vm (Vm.load pte)
    if present e ∧ user e then vm (Vm.memset (p2v (pteAddr e) + va % 4096) b 1)
    else return ()

/-! ## Boot -/

/-- The loop of `freerange`, over `n` pages from `p` on. -/
def freerangeLoop : ℕ → ℕ → Vm Unit
  | 0, _ => return ()
  | n + 1, p => do
    Vm.kfree k p
    freerangeLoop n (p + pgsize)

def freerange (vstart vend : ℕ) : Vm Unit :=
  freerangeLoop k ((vend - pgroundup vstart) / pgsize) (pgroundup vstart)

def kvmalloc : Kern Unit := do
  match ← vm (Vm.setupkvm k) with
  | none => throw .nullKpgdir
  | some d => modify fun s => { s with kpgdir := d }

/-- `startothers`: a stack for each of the `n` other processors -/
def startothers : ℕ → Kern Unit
  | 0 => return ()
  | n + 1 => do
    match ← vm Vm.kalloc with
    | none => throw .nullStack
    | some p =>
      modify fun s => { s with cpuStacks := p :: s.cpuStacks }
      startothers n

def inituvm (pgdir : ℕ) (init : List UInt8) : Kern Unit := do
  if pgsize ≤ init.length then throw .inituvm
  else
    match ← vm Vm.kalloc with
    | none => throw .nullPage
    | some mem =>
      vm (Vm.memset mem 0 pgsize)
      let _ ← vm (Vm.mappages pgdir 0 pgsize (v2p mem) (pteW ||| pteU))
      vm (Vm.memmove mem (Vm.stringBytes init) init.length)

def userinit (init : List UInt8) : Kern Unit := do
  match ← allocproc with
  | none => throw .nullStack
  | some p =>
    modify fun s => { s with initproc := p }
    match ← vm (Vm.setupkvm k) with
    | none => throw .userinit
    | some d =>
      inituvm d init
      updProc p fun pr => { pr with pgdir := d, sz := pgsize }
      updProc p fun pr => { pr with state := .live }

/-- `main` up to the scheduler, with `n` other processors -/
def main (n : ℕ) (init : List UInt8) : Kern Unit := do
  vm (freerange k k.kend (p2v 0x400000))
  kvmalloc k
  startothers n
  vm (freerange k (p2v 0x400000) (p2v phystop))
  userinit k init

/-- The state before `main`. -/
def zeroed (m : Mem) : Sys where
  mach := ⟨m,[]⟩
  kpgdir := 0
  cpuStacks := []
  initproc := ⟨0,by decide⟩
  proc := fun _ => ⟨.unused,none,0,0,0,fun _ => none⟩
  file := fun _ => ⟨.none,0,false,false,0⟩
  pipe := fun _ => ⟨false,false⟩

/-! ## Runs -/

inductive Op
  | fork (cur : Fin nproc)
  | exec (cur : Fin nproc) (ip : Option File) (argv : List (List UInt8))
  | exit (cur : Fin nproc)
  | wait (cur : Fin nproc)
  | sbrk (cur : Fin nproc) (n : BitVec 32)
  | pipe (cur : Fin nproc)
  | close (cur : Fin nproc) (fd : Fin nofile)
  | dup (cur : Fin nproc) (fd : Fin nofile)
  | store (cur : Fin nproc) (addr : BitVec 32) (b : UInt8)

def Op.cur : Op → Fin nproc
  | .fork p => p
  | .exec p _ _ => p
  | .exit p => p
  | .wait p => p
  | .sbrk p _ => p
  | .pipe p => p
  | .close p _ => p
  | .dup p _ => p
  | .store p _ _ => p

def Op.run : Op → Kern Unit
  | .fork p => do let _ ← Pages.fork k p
  | .exec p ip argv => do let _ ← Pages.exec k p ip argv
  | .exit p => Pages.exit k p
  | .wait p => do let _ ← Pages.wait k p
  | .sbrk p n => do let _ ← growproc k p n
  | .pipe p => do let _ ← sysPipe k p
  | .close p fd => do let _ ← sysClose k p fd
  | .dup p fd => do let _ ← sysDup p fd
  | .store p addr b => userStore p addr b

end X86OsDev.Xv6.Pages
