import X86OsDev.Lib.Transition
import X86OsDev.Xv6.Param
import Mathlib.Data.Finset.Card
import Mathlib.Logic.Function.Basic

/-! # The commit protocol of the log

`begin_op`, `log_write`, `end_op` and the steps of `commit`, as steps of any
number of processes. A section under `log.lock` is one step; the tests that
`log_write` makes before it takes the lock are a step of their own, and so are
the two halves of `commit`, which runs without the lock.
-/
namespace X86OsDev.Xv6.LogProtocol
open Transition

inductive Panic
  | tooBig
  | outsideTrans
  | committing
  deriving DecidableEq

def Panic.text : Panic → String
  | .tooBig => "too big a transaction"
  | .outsideTrans => "log_write outside of trans"
  | .committing => "log.committing"

/-- `struct log` in memory; `block` is `lh.block[0..lh.n)`. -/
structure Log where
  block : List ℕ
  outstanding : ℤ
  committing : Bool
  size : ℕ

/-- `log.lh.n` -/
def Log.n (l : Log) : ℕ := l.block.length

/-- Where a process is. Inside an operation it carries the distinct blocks the
operation has recorded so far. -/
inductive Pc
  | idle
  | starting
  | asleep
  | inOp (written : Finset ℕ)
  | logging (written : Finset ℕ) (b : ℕ)
  | writing
  | cleared

structure Sys (P : Type*) where
  log : Log
  pc : P → Pc
  panicked : Option Panic

inductive Act (P : Type*)
  | begin (i : P)
  | test (i : P)
  | logWrite (i : P) (b : ℕ)
  | append (i : P)
  | endOp (i : P)
  | clear (i : P)
  | finish (i : P)

/-- The test `begin_op` makes of the reserved space. -/
def Log.admits (l : Log) : Bool :=
  !l.committing && (l.n + (l.outstanding + 1) * maxopblocks ≤ logsize)

/-- The test `log_write` makes before it takes the lock. -/
def Log.isFull (l : Log) : Bool := logsize ≤ l.n || (l.size : ℤ) - 1 ≤ l.n

/-- `log.lh.block[i] = b->blockno` at the first match, or at the end. -/
def Log.record (l : Log) (b : ℕ) : Log :=
  if b ∈ l.block then l else { l with block := l.block ++ [b] }

/-- `wakeup(&log)` for one process. -/
def Pc.woken : Pc → Pc
  | .asleep => .starting
  | pc => pc

variable {P : Type*} [DecidableEq P]

/-- Process `i` moves on. -/
def Sys.goto (s : Sys P) (i : P) (pc : Pc) : Sys P := { s with pc := Function.update s.pc i pc }

def Sys.wakeup (s : Sys P) : Sys P := { s with pc := fun i => (s.pc i).woken }

/-- One step of one process. An operation records at most `MAXOPBLOCKS` distinct
blocks: that is what the callers promise. -/
def advance (s : Sys P) : Act P → Option (Sys P)
  | .begin i =>
    match s.pc i with
    | .idle => some (s.goto i .starting)
    | _ => none
  | .test i =>
    match s.pc i with
    | .starting =>
      if s.log.admits then
        some { s.goto i (.inOp ∅) with
          log := { s.log with outstanding := s.log.outstanding + 1 } }
      else some (s.goto i .asleep)
    | _ => none
  | .logWrite i b =>
    match s.pc i with
    | .inOp written =>
      if (insert b written).card ≤ maxopblocks then
        if s.log.isFull then some { s with panicked := some .tooBig }
        else if s.log.outstanding < 1 then some { s with panicked := some .outsideTrans }
        else some (s.goto i (.logging written b))
      else none
    | _ => none
  | .append i =>
    match s.pc i with
    | .logging written b => some { s.goto i (.inOp (insert b written)) with log := s.log.record b }
    | _ => none
  | .endOp i =>
    match s.pc i with
    | .inOp _ =>
      let s := { s with log := { s.log with outstanding := s.log.outstanding - 1 } }
      if s.log.committing then some { s with panicked := some .committing }
      else if s.log.outstanding = 0 then
        some { s.goto i .writing with log := { s.log with committing := true } }
      else some (s.goto i .idle).wakeup
    | _ => none
  | .clear i =>
    match s.pc i with
    | .writing => some { s.goto i .cleared with log := { s.log with block := [] } }
    | _ => none
  | .finish i =>
    match s.pc i with
    | .cleared =>
      some { (s.goto i .idle).wakeup with log := { s.log with committing := false } }
    | _ => none

/-- Nothing moves after a panic. -/
def step (s : Sys P) (a : Act P) : Option (Sys P) :=
  if s.panicked = none then advance s a else none

/-- The log after recovery, on the layout `mkfs` writes (`sb.nlog = LOGSIZE`). -/
structure Start (s : Sys P) : Prop where
  block : s.log.block = []
  outstanding : s.log.outstanding = 0
  committing : s.log.committing = false
  size : s.log.size = logsize
  idle : ∀ i, s.pc i = .idle
  panicked : s.panicked = none

abbrev Reached (s : Sys P) : Prop := Reachable Start (OfFun step) s

/-- The same steps without the promise of the callers: an operation may record any number of
blocks. -/
def advanceAny (s : Sys P) : Act P → Option (Sys P)
  | .logWrite i b =>
    match s.pc i with
    | .inOp written =>
      if s.log.isFull then some { s with panicked := some .tooBig }
      else if s.log.outstanding < 1 then some { s with panicked := some .outsideTrans }
      else some (s.goto i (.logging written b))
    | _ => none
  | a => advance s a

def stepAny (s : Sys P) (a : Act P) : Option (Sys P) :=
  if s.panicked = none then advanceAny s a else none

/-- The log after recovery, on any layout. -/
structure Recovered (s : Sys P) : Prop where
  block : s.log.block = []
  outstanding : s.log.outstanding = 0
  committing : s.log.committing = false
  idle : ∀ i, s.pc i = .idle
  panicked : s.panicked = none

end X86OsDev.Xv6.LogProtocol
