import X86OsDev.Lib.Transition
import Mathlib.Data.BitVec
import Mathlib.Logic.Function.Basic
import Mathlib.Tactic.Ring

/-! # Pipes and the processes that sleep on them

Each stretch of `pipewrite`, `piperead` and `pipeclose` between taking the pipe
lock and releasing it (or sleeping on it) is one function of the pipe. The
system around it holds the processes inside a pipe call, the descriptors open
on the two ends, and the bytes put in and taken out so far.
-/
namespace X86OsDev.Xv6.Pipes
open Transition

abbrev pipeSize : ℕ := 512

/-- `struct pipe` without its spinlock; the counters are `uint` and wrap. -/
structure Pipe where
  data : Fin pipeSize → UInt8
  nread : BitVec 32
  nwrite : BitVec 32
  readopen : Bool
  writeopen : Bool

namespace Pipe

/-- The number of bytes in the pipe, from the wrapping counters. -/
def count (p : Pipe) : ℕ := (p.nwrite - p.nread).toNat

def room (p : Pipe) : ℕ := pipeSize - p.count

def isEmpty (p : Pipe) : Prop := p.nread = p.nwrite
def isFull (p : Pipe) : Prop := p.nwrite = p.nread + BitVec.ofNat 32 pipeSize

instance (p : Pipe) : Decidable p.isEmpty := inferInstanceAs (Decidable (_ = _))
instance (p : Pipe) : Decidable p.isFull := inferInstanceAs (Decidable (_ = _))

/-- `i % PIPESIZE` as an index of the ring. -/
def slot (i : BitVec 32) : Fin pipeSize := ⟨i.toNat % pipeSize, Nat.mod_lt _ (by decide)⟩

/-- `p->data[p->nwrite++ % PIPESIZE] = b` -/
def push (p : Pipe) (b : UInt8) : Pipe :=
  { p with data := Function.update p.data (slot p.nwrite) b, nwrite := p.nwrite + 1 }

/-- `p->data[p->nread++ % PIPESIZE]` -/
def pop (p : Pipe) : UInt8 × Pipe := (p.data (slot p.nread), { p with nread := p.nread + 1 })

end Pipe

/-- How a stretch of `pipewrite` ends: `return n` after waking the readers,
`return -1`, or waking the readers and sleeping on `&p->nwrite` with bytes left. -/
inductive WriteEnd
  | returned
  | failed
  | asleep (rest : List UInt8)

/-- The loop of `pipewrite` from a point where the lock is held. -/
def pipewrite (killed : Bool) : Pipe → List UInt8 → Pipe × WriteEnd
  | p, [] => (p, .returned)
  | p, b :: bs =>
    if p.isFull then
      if p.readopen = false ∨ killed = true then (p, .failed) else (p, .asleep (b :: bs))
    else pipewrite killed (p.push b) bs

/-- The copy loop of `piperead`, with the bytes it delivers. -/
def copyOut : ℕ → Pipe → List UInt8 × Pipe
  | 0, p => ([], p)
  | n + 1, p =>
    if p.isEmpty then ([], p)
    else
      let (b, q) := p.pop
      let (bs, q) := copyOut n q
      (b :: bs, q)

/-- How a stretch of `piperead` ends: the bytes returned after waking the
writers, `return -1`, or sleeping on `&p->nread`. -/
inductive ReadEnd
  | returned (bytes : List UInt8)
  | failed
  | asleep

def piperead (killed : Bool) (p : Pipe) (n : ℤ) : Pipe × ReadEnd :=
  if p.isEmpty ∧ p.writeopen = true then
    if killed = true then (p, .failed) else (p, .asleep)
  else
    let (bs, q) := copyOut n.toNat p
    (q, .returned bs)

inductive Chan
  | nread
  | nwrite
  deriving DecidableEq

def pipeclose (p : Pipe) (writable : Bool) : Pipe :=
  if writable then { p with writeopen := false } else { p with readopen := false }

/-- What a process is doing: nothing with this pipe, or inside a call on it. -/
inductive Call
  | user
  | piperead (n : ℤ)
  | pipewrite (rest : List UInt8)

/-- `chan` is set while the process is SLEEPING; `ret` is the last result. -/
structure Proc where
  killed : Bool
  call : Call
  chan : Option Chan
  ret : Option ℤ

/-- `rd` and `wr` list the owner of each descriptor open on an end. `sent` and
`delivered` record the bytes put in and taken out, in order. -/
structure Sys (P : Type*) where
  pipe : Pipe
  proc : P → Proc
  rd : List P
  wr : List P
  sent : List UInt8
  delivered : List UInt8

inductive Act (P : Type*)
  | read (i : P) (n : ℤ)
  | write (i : P) (bytes : List UInt8)
  | run (i : P)
  | share (i j : P) (writable : Bool)
  | close (i : P) (writable : Bool)
  | kill (i : P)

variable {P : Type*} [DecidableEq P]

/-- `wakeup(chan)`: every process sleeping on the channel becomes runnable. -/
def wakeup (c : Chan) (proc : P → Proc) : P → Proc := fun i =>
  if (proc i).chan = some c then { proc i with chan := none } else proc i

/-- One stretch of the call process `i` is in, with its wakeups and its sleep. -/
def runCall (s : Sys P) (i : P) : Option (Sys P) :=
  let pr := s.proc i
  match pr.call with
  | .user => none
  | .piperead n =>
    match piperead pr.killed s.pipe n with
    | (p, .returned bs) =>
      let proc := Function.update s.proc i { pr with call := .user, ret := some bs.length }
      some { s with
        pipe := p, proc := wakeup .nwrite proc, delivered := s.delivered ++ bs }
    | (p, .failed) =>
      some { s with
        pipe := p, proc := Function.update s.proc i { pr with call := .user, ret := some (-1) } }
    | (p, .asleep) =>
      some { s with pipe := p, proc := Function.update s.proc i { pr with chan := some .nread } }
  | .pipewrite rest =>
    match pipewrite pr.killed s.pipe rest with
    | (p, .returned) =>
      let proc := Function.update s.proc i { pr with call := .user, ret := some rest.length }
      some { s with pipe := p, proc := wakeup .nread proc, sent := s.sent ++ rest }
    | (p, .failed) =>
      some { s with
        pipe := p
        proc := Function.update s.proc i { pr with call := .user, ret := some (-1) }
        sent := s.sent ++ rest.take (s.pipe.room) }
    | (p, .asleep left) =>
      some { s with
        pipe := p
        proc := Function.update (wakeup .nread s.proc) i
          { pr with call := .pipewrite left, chan := some .nwrite }
        sent := s.sent ++ rest.take (rest.length - left.length) }

/-- `fileclose` on one descriptor of an end: the last one closes the end. -/
def closeEnd (s : Sys P) (i : P) : Bool → Sys P
  | true =>
    if s.wr.erase i = [] then
      { s with wr := [], pipe := pipeclose s.pipe true, proc := wakeup .nread s.proc }
    else { s with wr := s.wr.erase i }
  | false =>
    if s.rd.erase i = [] then
      { s with rd := [], pipe := pipeclose s.pipe false, proc := wakeup .nwrite s.proc }
    else { s with rd := s.rd.erase i }

/-- A step of one process. A call starts only in a process that is not killed
(`trap` makes a killed one exit), and `run` needs a process that is not asleep. -/
def step (s : Sys P) : Act P → Option (Sys P)
  | .read i n =>
    match (s.proc i).call with
    | .user =>
      if i ∈ s.rd ∧ (s.proc i).killed = false then
        some { s with proc := Function.update s.proc i { s.proc i with call := .piperead n } }
      else none
    | _ => none
  | .write i bytes =>
    match (s.proc i).call with
    | .user =>
      if i ∈ s.wr ∧ (s.proc i).killed = false then
        some { s with proc := Function.update s.proc i { s.proc i with call := .pipewrite bytes } }
      else none
    | _ => none
  | .run i => if (s.proc i).chan = none then runCall s i else none
  | .share i j writable =>
    if writable then
      if i ∈ s.wr then some { s with wr := j :: s.wr } else none
    else
      if i ∈ s.rd then some { s with rd := j :: s.rd } else none
  | .close i writable =>
    match (s.proc i).call with
    | .user => if i ∈ (if writable then s.wr else s.rd) then some (closeEnd s i writable) else none
    | _ => none
  | .kill i =>
    some { s with proc := Function.update s.proc i { s.proc i with killed := true, chan := none } }

/-- The state `pipealloc` and `sys_pipe` leave: an empty pipe with both ends
open in one process, and nobody inside a call on it. -/
structure Start (s : Sys P) : Prop where
  nread : s.pipe.nread = 0
  nwrite : s.pipe.nwrite = 0
  readopen : s.pipe.readopen = true
  writeopen : s.pipe.writeopen = true
  owner : ∃ i, s.rd = [i] ∧ s.wr = [i]
  user : ∀ i, (s.proc i).call = .user ∧ (s.proc i).chan = none
  sent : s.sent = []
  delivered : s.delivered = []

abbrev Reached (s : Sys P) : Prop := Reachable Start (OfFun step) s

namespace Pipe

theorem isEmpty_iff (p : Pipe) : p.isEmpty ↔ p.count = 0 := by
  unfold isEmpty count
  bv_omega

theorem isFull_iff (p : Pipe) : p.isFull ↔ p.count = pipeSize := by
  unfold isFull count pipeSize
  bv_omega

theorem count_push (p : Pipe) (b : UInt8) (h : p.count < pipeSize) :
    (p.push b).count = p.count + 1 := by
  unfold count push pipeSize at *
  bv_omega

theorem count_pop (p : Pipe) (h : 0 < p.count) : p.pop.2.count = p.count - 1 := by
  unfold count pop at *
  bv_omega

@[simp] theorem push_readopen (p : Pipe) (b : UInt8) : (p.push b).readopen = p.readopen := rfl
@[simp] theorem push_writeopen (p : Pipe) (b : UInt8) : (p.push b).writeopen = p.writeopen := rfl
@[simp] theorem push_nread (p : Pipe) (b : UInt8) : (p.push b).nread = p.nread := rfl
@[simp] theorem pop_readopen (p : Pipe) : p.pop.2.readopen = p.readopen := rfl
@[simp] theorem pop_writeopen (p : Pipe) : p.pop.2.writeopen = p.writeopen := rfl
@[simp] theorem pop_nwrite (p : Pipe) : p.pop.2.nwrite = p.nwrite := rfl

theorem not_isEmpty_of_isFull {p : Pipe} (h : p.isFull) : ¬ p.isEmpty := by
  rw [isFull_iff] at h
  rw [isEmpty_iff, h]
  decide

end Pipe

/-- What a stretch of `pipewrite` leaves behind. -/
structure Wrote (p q : Pipe) (put : ℕ) : Prop where
  count : q.count = p.count + put
  readopen : q.readopen = p.readopen
  writeopen : q.writeopen = p.writeopen

/-- With room for every byte the loop returns. -/
theorem pipewrite_fits (killed : Bool) (p : Pipe) (l : List UInt8)
    (h : p.count + l.length ≤ pipeSize) :
    (pipewrite killed p l).2 = .returned ∧ Wrote p (pipewrite killed p l).1 l.length := by
  induction l generalizing p with
  | nil => exact ⟨rfl,rfl,rfl,rfl⟩
  | cons b bs ih =>
    simp only [List.length_cons] at h
    have hc := p.count_push b (by omega)
    have hf : ¬ p.isFull := by rw [Pipe.isFull_iff]; omega
    obtain ⟨he,hw⟩ := ih (p.push b) (by omega)
    simp only [pipewrite, if_neg hf, List.length_cons]
    refine ⟨he,?_,by simpa using hw.readopen,by simpa using hw.writeopen⟩
    rw [hw.count, hc]
    omega

/-- Without room for every byte the loop fills the pipe, and then gives up when
the reader is gone or the process is killed, and sleeps otherwise. -/
theorem pipewrite_fills (killed : Bool) (p : Pipe) (l : List UInt8)
    (hp : p.count ≤ pipeSize) (h : pipeSize < p.count + l.length) :
    (pipewrite killed p l).2 = (if p.readopen = false ∨ killed = true then .failed
      else .asleep (l.drop p.room)) ∧ Wrote p (pipewrite killed p l).1 p.room := by
  induction l generalizing p with
  | nil => simp at h; omega
  | cons b bs ih =>
    simp only [List.length_cons] at h
    by_cases hf : p.isFull
    · have hr : p.room = 0 := by rw [Pipe.isFull_iff] at hf; unfold Pipe.room; omega
      simp only [pipewrite, if_pos hf, hr, List.drop_zero]
      split
      · exact ⟨rfl,rfl,rfl,rfl⟩
      · exact ⟨rfl,rfl,rfl,rfl⟩
    · have hlt : p.count < pipeSize := by rw [Pipe.isFull_iff] at hf; omega
      have hc := p.count_push b hlt
      have hr : p.room = (p.push b).room + 1 := by unfold Pipe.room; omega
      obtain ⟨he,hw⟩ := ih (p.push b) (by omega) (by omega)
      simp only [pipewrite, if_neg hf]
      refine ⟨by rw [he, hr]; rfl,?_,by simpa using hw.readopen,by simpa using hw.writeopen⟩
      rw [hw.count, hc, hr]
      omega

/-- The copy loop only takes bytes out. -/
theorem copyOut_spec (n : ℕ) (p : Pipe) :
    (copyOut n p).2.count = p.count - (copyOut n p).1.length ∧
    (copyOut n p).1.length = min n p.count ∧
    (copyOut n p).2.readopen = p.readopen ∧ (copyOut n p).2.writeopen = p.writeopen := by
  induction n generalizing p with
  | zero => simp [copyOut]
  | succ n ih =>
    by_cases he : p.isEmpty
    · have := (Pipe.isEmpty_iff p).mp he
      simp [copyOut, he, this]
    · have hpos : 0 < p.count := by
        rw [Pipe.isEmpty_iff] at he
        omega
      obtain ⟨h1,h2,h3,h4⟩ := ih p.pop.2
      have hc := p.count_pop hpos
      simp only [copyOut, if_neg he, List.length_cons]
      refine ⟨?_,?_,by simpa using h3,by simpa using h4⟩
      · rw [h1, hc]
        omega
      · rw [h2, hc]
        omega

end X86OsDev.Xv6.Pipes
