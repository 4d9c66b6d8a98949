import X86OsDev.Lib.CircularList
import X86OsDev.Lib.Transition
import X86OsDev.Xv6.Disk
import X86OsDev.Xv6.LogProtocol

/-! # The buffer cache (bio.c, memide.c)

`bget`, `bread`, `bwrite`, `brelse` and `log_write` as steps of any number of
processes. A section under `bcache.lock`, an acquired or released sleep lock and
a transfer from or to the disk are one step each. A call of `bget` that no
`brelse` has matched yet is an entry of `calls`, and a commit is a process that
reads, stores and writes like the others.
-/
namespace X86OsDev.Xv6.BufCache
open Transition CircularList
open LogProtocol (Log)

inductive Panic
  | noBuffers
  | bwrite
  | brelse
  | notLocked
  | nothingToDo
  | notDisk1
  | outOfRange
  | tooBig
  | outsideTrans
  deriving DecidableEq

def Panic.text : Panic → String
  | .noBuffers => "bget: no buffers"
  | .bwrite => "bwrite"
  | .brelse => "brelse"
  | .notLocked => "iderw: buf not locked"
  | .nothingToDo => "iderw: nothing to do"
  | .notDisk1 => "iderw: request not for disk 1"
  | .outOfRange => "iderw: block out of range"
  | .tooBig => "too big a transaction"
  | .outsideTrans => "log_write outside of trans"

/-- `struct buf` without its links. The sleep lock is its holder. -/
structure Buf (P : Type*) where
  valid : Bool
  dirty : Bool
  dev : ℕ
  blockno : ℕ
  lock : Option P
  refcnt : ℕ
  data : Block

/-- A buffer, or `none` for `bcache.head`. -/
abbrev Node := Option (Fin nbuf)

structure Links where
  next : Node → Node
  prev : Node → Node

/-- `b->next = head.next; b->prev = &head; head.next->prev = b; head.next = b` -/
def Links.linkFront (l : Links) (b : Node) : Links :=
  let next := Function.update l.next b (l.next none)
  let prev := Function.update l.prev b none
  let prev := Function.update prev (next none) b
  ⟨Function.update next none b,prev⟩

/-- `b->next->prev = b->prev; b->prev->next = b->next` -/
def Links.unlink (l : Links) (b : Node) : Links :=
  let prev := Function.update l.prev (l.next b) (l.prev b)
  ⟨Function.update l.next (prev b) (l.next b),prev⟩

/-- The list that `binit` makes, whatever the links were. -/
def binit (l : Links) : Links :=
  (List.finRange nbuf).foldl (fun l b => l.linkFront (some b))
    ⟨Function.update l.next none none,Function.update l.prev none none⟩

/-- Where a call of `bget` or `bread` is: it waits for the sleep lock, has just got it, has
returned the buffer (which its holder may have changed since it was last written), or is inside
`brelse`. -/
inductive Phase
  | waiting
  | locked
  | held (changed : Bool)
  | releasing
  deriving DecidableEq

structure Call (P : Type*) where
  proc : P
  buf : Fin nbuf
  blockno : ℕ
  /-- the call is of `bread` -/
  reads : Bool
  phase : Phase

structure Sys (P : Type*) where
  buf : Fin nbuf → Buf P
  links : Links
  disk : ℕ → Block
  disksize : ℕ
  log : Log
  calls : List (Call P)
  /-- the content that a holder who called `log_write` or `bwrite` last stored into a block -/
  stored : ℕ → Option Block
  /-- the disk when the cache was made -/
  initial : ℕ → Block
  panicked : Option Panic

/-- What the readers of a block have to see. -/
def Sys.content {P : Type*} (s : Sys P) (n : ℕ) : Block := (s.stored n).getD (s.initial n)

inductive Act (P : Type*)
  | bget (i : P) (n : ℕ) (reads : Bool)
  | acquiresleep (k : ℕ)
  | bread (k : ℕ)
  | store (k : ℕ) (data : Block)
  | bwrite (k : ℕ)
  | logWrite (k : ℕ)
  | releasesleep (k : ℕ)
  | brelse (k : ℕ)
  | log (l : Log)

variable {P : Type*}

def Sys.setBuf (s : Sys P) (b : Fin nbuf) (v : Buf P) : Sys P :=
  { s with buf := Function.update s.buf b v }

def Sys.setPhase (s : Sys P) (k : ℕ) (c : Call P) (phase : Phase) : Sys P :=
  { s with calls := s.calls.set k { c with phase := phase } }

/-- The call at an index, if it has returned its buffer. -/
def Sys.holder (s : Sys P) (k : ℕ) : Option (Call P) := do
  let c ← s.calls[k]?
  match c.phase with
  | .held _ => some c
  | _ => none

def Sys.panic (s : Sys P) (p : Panic) : Sys P := { s with panicked := some p }

/-- The test of the first search of `bget`: the block is cached here. -/
def Sys.isCached (s : Sys P) (n : ℕ) : Node → Bool
  | some b => (s.buf b).dev = rootdev && (s.buf b).blockno = n
  | none => false

/-- The test of the second one: nobody uses the buffer, and the log has not pinned it. -/
def Sys.isUnused (s : Sys P) : Node → Bool
  | some b => (s.buf b).refcnt = 0 && !(s.buf b).dirty
  | none => false

/-- The two searches of `bget` and what it does to the buffer it takes. It always looks at the whole
list, so a search that is not over after all buffers never ends. -/
def bget (s : Sys P) (i : P) (n : ℕ) (reads : Bool) : Option (Sys P) :=
  match scan s.links.next none (s.isCached n) (nbuf + 1) (s.links.next none) with
  | some (some (some b)) =>
    some { s.setBuf b { s.buf b with refcnt := (s.buf b).refcnt + 1 } with
      calls := ⟨i,b,n,reads,.waiting⟩ :: s.calls }
  | some _ =>
    match scan s.links.prev none s.isUnused (nbuf + 1) (s.links.prev none) with
    | some (some (some b)) =>
      some { s.setBuf b { s.buf b with
          dev := rootdev, blockno := n, valid := false, dirty := false, refcnt := 1 } with
        calls := ⟨i,b,n,reads,.waiting⟩ :: s.calls }
    | some _ => some (s.panic .noBuffers)
    | none => none
  | none => none

variable [DecidableEq P]

/-- `iderw` of memide.c -/
def iderw (s : Sys P) (i : P) (b : Fin nbuf) : Sys P :=
  let v := s.buf b
  if v.lock ≠ some i then s.panic .notLocked
  else if v.valid && !v.dirty then s.panic .nothingToDo
  else if v.dev ≠ 1 then s.panic .notDisk1
  else if s.disksize ≤ v.blockno then s.panic .outOfRange
  else if v.dirty then
    { s.setBuf b { v with dirty := false, valid := true } with
      disk := Function.update s.disk v.blockno v.data }
  else s.setBuf b { v with data := s.disk v.blockno, valid := true }

/-- One step of one process. A holder that has changed the data calls `log_write` or `bwrite`
before `brelse`: that is what the interface asks for. -/
def advance (s : Sys P) : Act P → Option (Sys P)
  | .bget i n reads => bget s i n reads
  | .acquiresleep k => do
    let c ← s.calls[k]?
    let v := s.buf c.buf
    if c.phase = .waiting ∧ v.lock = none then
      some ((s.setBuf c.buf { v with lock := some c.proc }).setPhase k c .locked)
    else none
  | .bread k => do
    let c ← s.calls[k]?
    if c.phase = .locked then
      if c.reads && !(s.buf c.buf).valid then
        some ((iderw s c.proc c.buf).setPhase k c (.held false))
      else some (s.setPhase k c (.held false))
    else none
  | .store k data => do
    let c ← s.holder k
    some ((s.setBuf c.buf { s.buf c.buf with data := data }).setPhase k c (.held true))
  | .bwrite k => do
    let c ← s.holder k
    let v := s.buf c.buf
    if v.lock ≠ some c.proc then some (s.panic .bwrite)
    else
      let t := iderw (s.setBuf c.buf { v with dirty := true }) c.proc c.buf
      if t.panicked ≠ none then some t
      else some { t.setPhase k c (.held false) with
        stored := Function.update t.stored v.blockno (some v.data) }
  | .logWrite k => do
    let c ← s.holder k
    let v := s.buf c.buf
    if s.log.isFull then some (s.panic .tooBig)
    else if s.log.outstanding < 1 then some (s.panic .outsideTrans)
    else some { (s.setBuf c.buf { v with dirty := true }).setPhase k c (.held false) with
      log := s.log.record v.blockno
      stored := Function.update s.stored v.blockno (some v.data) }
  | .releasesleep k => do
    let c ← s.calls[k]?
    if c.phase = .held false then
      let v := s.buf c.buf
      if v.lock ≠ some c.proc then some (s.panic .brelse)
      else some ((s.setBuf c.buf { v with lock := none }).setPhase k c .releasing)
    else none
  | .brelse k => do
    let c ← s.calls[k]?
    if c.phase = .releasing then
      let v := s.buf c.buf
      let s := { s.setBuf c.buf { v with refcnt := v.refcnt - 1 } with
        calls := s.calls.eraseIdx k }
      if v.refcnt - 1 = 0 then
        some { s with links := (s.links.unlink (some c.buf)).linkFront (some c.buf) }
      else some s
    else none
  -- `begin_op`, `end_op` and the end of a commit change fields of the log
  | .log l => some { s with log := l }

/-- Nothing moves after a panic. -/
def step (s : Sys P) (a : Act P) : Option (Sys P) :=
  if s.panicked = none then advance s a else none

/-- What `binit` leaves of zeroed memory, with any disk. -/
structure Start (s : Sys P) : Prop where
  buf : ∀ b, (s.buf b).valid = false ∧ (s.buf b).dirty = false ∧ (s.buf b).dev = 0 ∧
    (s.buf b).lock = none ∧ (s.buf b).refcnt = 0
  links : ∃ l, s.links = binit l
  calls : s.calls = []
  stored : ∀ n, s.stored n = none
  initial : s.initial = s.disk
  panicked : s.panicked = none

abbrev Reached (s : Sys P) : Prop := Reachable Start (OfFun step) s

/-! ## The law of the cache -/

/-- Following `next` from the head visits each buffer once and comes back, and `prev` undoes it. -/
structure Links.IsList (l : Links) : Prop where
  visits : ((List.range nbuf).map fun k => l.next^[k + 1] none).Perm
    ((List.finRange nbuf).map some)
  returns : l.next^[nbuf + 1] none = none
  prev_next : ∀ a, l.prev (l.next a) = a
  next_prev : ∀ a, l.next (l.prev a) = a

/-- How many calls of `bget` for a buffer are not matched by a `brelse`. -/
def Sys.gets (s : Sys P) (b : Fin nbuf) : ℕ := s.calls.countP (fun c => c.buf = b)

structure CacheLaw (s : Sys P) : Prop where
  links : s.links.IsList
  unique : ∀ b c, (s.buf b).dev = rootdev → (s.buf c).dev = rootdev →
    (s.buf b).blockno = (s.buf c).blockno → b = c
  refcnt : ∀ b, (s.buf b).refcnt = s.gets b
  named : ∀ c ∈ s.calls, (s.buf c.buf).dev = rootdev ∧ (s.buf c.buf).blockno = c.blockno
  data : ∀ c ∈ s.calls, c.phase = .held false → (s.buf c.buf).valid = true →
    (s.buf c.buf).data = s.content c.blockno

/-- What a step may do to a buffer in use, and what `bread` returns. -/
structure StepLaw (s : Sys P) (a : Act P) (t : Sys P) : Prop where
  pinned : ∀ b, 0 < (s.buf b).refcnt ∨ (s.buf b).dirty = true →
    (t.buf b).dev = (s.buf b).dev ∧ (t.buf b).blockno = (s.buf b).blockno
  returned : ∀ k c, a = .bread k → s.calls[k]? = some c → c.reads = true → t.panicked = none →
    (t.buf c.buf).blockno = c.blockno ∧ (t.buf c.buf).valid = true ∧
    (t.buf c.buf).lock = some c.proc ∧ (t.buf c.buf).data = s.content c.blockno

end X86OsDev.Xv6.BufCache
