import X86OsDev.Lib.LinkedQueue
import X86OsDev.Lib.Transition
import X86OsDev.Xv6.Disk
import Mathlib.Data.Fintype.Card

/-! # The disk drivers (ide.c, memide.c)

Processes in `iderw`, the interrupt handler and the drive take steps in any
order. A spinlock is taken in one step and released in another. `sleep(b, &idelock)`
goes to sleep and gives up the lock in one step, and the process takes the lock
again once it is awake. A panic and a loop that goes on forever have no next
state. `appended` and `completed` are history that no step reads.
-/
namespace X86OsDev.Xv6.Ide
open LinkedQueue Transition

/-- `struct buf`, of which `flags` has two bits -/
structure Buf where
  dev : ℕ
  blockno : ℕ
  valid : Bool
  dirty : Bool
  data : Block

/-- `(b->flags & (B_VALID|B_DIRTY)) == B_VALID` -/
def Buf.done (b : Buf) : Bool := b.valid && !b.dirty

/-- The blocks of a disk. -/
abbrev Disk := ℕ → Block

/-- `iderw` of memide.c, for a buffer that the caller has locked or not -/
def memIderw (disksize : ℕ) (locked : Bool) (memdisk : Disk) (b : Buf) : Option (Buf × Disk) :=
  if locked = false then none
  else if b.done then none
  else if b.dev ≠ 1 then none
  else if disksize ≤ b.blockno then none
  else if b.dirty then some ({ b with dirty := false, valid := true },Function.update memdisk b.blockno b.data)
  else some ({ b with data := memdisk b.blockno, valid := true },memdisk)

/-- A command that the drive is given: the drive bit, the sector, and the data of a write. -/
inductive Cmd
  | read (drive sector : ℕ)
  | write (drive sector : ℕ) (data : Block)

/-- Where a process is in `iderw`. -/
inductive Point (β : Type)
  | out
  | enter (b : β)
  | append (b : β)
  | test (b : β)
  | asleep (b : β)
  | woken (b : β)
  | leave (b : β)
  | returned (b : β)

/-- Where the interrupt handler is in `ideintr`. -/
inductive Intr
  | none
  | enter
  | body
  | leave
  deriving DecidableEq

inductive Holder (P : Type)
  | proc (p : P)
  | intr
  deriving DecidableEq

structure Sys (P β : Type) where
  buf : β → Buf
  /-- the holder of the sleep lock of a buffer -/
  owner : β → Option P
  idequeue : Option β
  qnext : β → Option β
  idelock : Option (Holder P)
  point : P → Point β
  intr : Intr
  /-- the disks, the command that the drive works on, its data port, and the interrupts it has raised -/
  disk : ℕ → Disk
  cmd : Option Cmd
  port : Block
  irq : ℕ
  appended : List β
  completed : List (β × Buf)

/-- A process takes or gives up the sleep lock of a buffer, changes a buffer it has locked, calls `iderw`,
goes on, or is made to run by `kill`; the drive completes its command; an interrupt is taken; the handler
goes on. -/
inductive Act (P β : Type)
  | lock (p : P) (b : β)
  | unlock (p : P) (b : β)
  | store (p : P) (b : β) (x : Buf)
  | call (p : P) (b : β)
  | run (p : P)
  | wake (p : P)
  | complete
  | interrupt
  | handle

variable {P β : Type} [DecidableEq P] [DecidableEq β]

namespace Sys

def goto (s : Sys P β) (p : P) (x : Point β) : Sys P β := { s with point := Function.update s.point p x }

def setBuf (s : Sys P β) (b : β) (x : Buf) : Sys P β := { s with buf := Function.update s.buf b x }

/-- The command for a buffer. -/
def cmdOf (s : Sys P β) (b : β) : Cmd :=
  let x := s.buf b
  if x.dirty then .write (x.dev % 2) x.blockno x.data else .read (x.dev % 2) x.blockno

/-- `idestart`; `idewait` waits for the drive to be done with its command. -/
def idestart (s : Sys P β) (b : β) : Option (Sys P β) :=
  if fssize ≤ (s.buf b).blockno then none
  else if s.cmd.isSome then none
  else some { s with cmd := some (s.cmdOf b) }

/-- "Append b to idequeue" and "Start disk if necessary" in `iderw` -/
def append [Fintype β] (s : Sys P β) (b : β) : Option (Sys P β) := do
  let (q, next) ← LinkedQueue.append s.qnext (Fintype.card β) s.idequeue b
  let s := { s with idequeue := q, qnext := next, appended := s.appended ++ [b] }
  if s.idequeue = some b then s.idestart b else some s

/-- `wakeup(b)` -/
def wakeup (s : Sys P β) (b : β) : Sys P β :=
  { s with point := fun p => match s.point p with
    | .asleep c => if c = b then .woken c else .asleep c
    | x => x }

/-- The buffer once the command for it is complete. -/
def finish (s : Sys P β) (x : Buf) : Buf :=
  { x with data := if x.dirty then x.data else s.port, valid := true, dirty := false }

/-- `ideintr` with the lock held. `idewait` waits for the drive before the data of a read is taken. -/
def ideintr (s : Sys P β) : Option (Sys P β) :=
  match s.idequeue with
  | none => some s
  | some b =>
    let x := s.buf b
    if x.dirty = false ∧ s.cmd.isSome then none
    else
      let s := { s with idequeue := s.qnext b, completed := s.completed ++ [(b,x)] }
      let s := (s.setBuf b (s.finish x)).wakeup b
      match s.idequeue with
      | none => some s
      | some c => s.idestart c

/-- The drive completes its command and raises an interrupt. -/
def complete (s : Sys P β) : Option (Sys P β) :=
  match s.cmd with
  | none => none
  | some (.read drive sector) => some { s with cmd := none, port := s.disk drive sector, irq := s.irq + 1 }
  | some (.write drive sector data) =>
    some { s with cmd := none, disk := Function.update s.disk drive (Function.update (s.disk drive) sector data), irq := s.irq + 1 }

end Sys

/-- The next step of a process in `iderw`. -/
def run [Fintype β] (s : Sys P β) (p : P) : Option (Sys P β) :=
  match s.point p with
  | .out => none
  | .enter b => if s.idelock = none then some ({ s with idelock := some (.proc p) }.goto p (.append b)) else none
  | .append b => (s.append b).map fun t => t.goto p (.test b)
  | .test b =>
    if (s.buf b).done then some (s.goto p (.leave b)) else some ({ s with idelock := none }.goto p (.asleep b))
  | .asleep _ => none
  | .woken b => if s.idelock = none then some ({ s with idelock := some (.proc p) }.goto p (.test b)) else none
  | .leave b => some ({ s with idelock := none }.goto p (.returned b))
  | .returned _ => some (s.goto p .out)

/-- The next step of the interrupt handler. -/
def handle (s : Sys P β) : Option (Sys P β) :=
  match s.intr with
  | .none => none
  | .enter => if s.idelock = none then some { s with idelock := some .intr, intr := .body } else none
  | .body => s.ideintr.map fun t => { t with intr := .leave }
  | .leave => some { s with idelock := none, intr := .none }

/-- A process is not in `iderw`. -/
def Point.isOut : Point β → Bool
  | .out => true
  | _ => false

def step [Fintype β] (havedisk1 : Bool) (s : Sys P β) : Act P β → Option (Sys P β)
  | .lock p b =>
    if (s.point p).isOut ∧ s.owner b = none then some { s with owner := Function.update s.owner b (some p) } else none
  | .unlock p b =>
    if (s.point p).isOut ∧ s.owner b = some p then some { s with owner := Function.update s.owner b none } else none
  | .store p b x => if (s.point p).isOut ∧ s.owner b = some p then some (s.setBuf b x) else none
  | .call p b =>
    if (s.point p).isOut then
      if s.owner b ≠ some p then none
      else if (s.buf b).done then none
      else if (s.buf b).dev ≠ 0 ∧ havedisk1 = false then none
      else some (s.goto p (.enter b))
    else none
  | .run p => run s p
  | .wake p =>
    match s.point p with
    | .asleep b => some (s.goto p (.woken b))
    | _ => none
  | .complete => s.complete
  | .interrupt => if 0 < s.irq ∧ s.intr = .none then some { s with irq := s.irq - 1, intr := .enter } else none
  | .handle => handle s

/-- Nothing is under way. -/
def Start (disk : ℕ → Disk) (s : Sys P β) : Prop :=
  s.idequeue = none ∧ s.idelock = none ∧ (∀ p, s.point p = .out) ∧ s.intr = .none ∧ s.disk = disk ∧ s.cmd = none ∧
    s.irq = 0 ∧ s.appended = [] ∧ s.completed = []

abbrev Reached [Fintype β] (havedisk1 : Bool) (disk : ℕ → Disk) (s : Sys P β) : Prop :=
  Reachable (Start disk) (OfFun (step havedisk1)) s

end X86OsDev.Xv6.Ide
