import X86OsDev.Lib.RingBuffer
import X86OsDev.Lib.Transition

/-! # Console input (console.c)

`consoleintr` and each stretch of `consoleread` between taking `cons.lock` and
releasing it or sleeping are one function of the ring. The system around it has
the readers that sleep, and a trace of what was typed and what readers got. `Line`
says what the input means: the committed characters, those taken, and the tail.
-/
namespace X86OsDev.Xv6.Console
open RingBuffer Transition

/-- `INPUT_BUF` -/
abbrev inputBuf : ℕ := 128

/-- `C(x)` -/
def ctrl (x : Char) : UInt8 := x.toUInt8 - '@'.toUInt8

def newline : UInt8 := '\n'.toUInt8
def cr : UInt8 := '\r'.toUInt8
def del : UInt8 := 0x7f

/-- `input` -/
structure Input where
  buf : Fin inputBuf → UInt8
  r : BitVec 32
  w : BitVec 32
  e : BitVec 32

/-- The loop of kill line; it turns at most `e - w` times. -/
def killLoop : ℕ → Input → Input
  | 0, i => i
  | n + 1, i => if i.e ≠ i.w ∧ i.buf (slot inputBuf (i.e - 1)) ≠ newline then killLoop n { i with e := i.e - 1 } else i

/-- `input.buf[input.e++ % INPUT_BUF] = c`, and `input.w = input.e` if that ends the line or the ring is full. -/
def put (i : Input) (c : UInt8) : Input :=
  let j := { i with buf := Function.update i.buf (slot inputBuf i.e) c, e := i.e + 1 }
  if c = newline ∨ c = ctrl 'D' ∨ j.e = j.r + BitVec.ofNat 32 inputBuf then { j with w := j.e } else j

/-- The switch of `consoleintr`. -/
def consoleintr1 (i : Input) (c : UInt8) : Input :=
  if c = ctrl 'P' then i
  else if c = ctrl 'U' then killLoop (i.e - i.w).toNat i
  else if c = ctrl 'H' ∨ c = del then if i.e ≠ i.w then { i with e := i.e - 1 } else i
  else if c ≠ 0 ∧ (i.e - i.r).toNat < inputBuf then put i (if c = cr then newline else c)
  else i

def consoleintr (i : Input) (cs : List UInt8) : Input := cs.foldl consoleintr1 i

/-- Where `consoleread` returns. -/
inductive Why
  /-- the `break` after a newline -/
  | newline
  /-- `n` is 0 -/
  | full
  /-- the `break` at a control-D -/
  | eof
  /-- `return -1` -/
  | killed
  deriving DecidableEq, Repr

/-- How a stretch of `consoleread` ends. -/
inductive ReadEnd
  | returned (why : Why) (value : ℤ)
  | asleep
  deriving DecidableEq, Repr

/-- The loop of `consoleread` with `n` bytes to go, and the bytes it stores. -/
def readLoop (killed : Bool) (target : ℕ) : ℕ → Input → Input × List UInt8 × ReadEnd
  | 0, i => (i,[],.returned .full target)
  | n + 1, i =>
    if i.r = i.w then (i,[],if killed then .returned .killed (-1) else .asleep)
    else
      let c := i.buf (slot inputBuf i.r)
      let j := { i with r := i.r + 1 }
      if c = ctrl 'D' then (if n + 1 < target then { j with r := j.r - 1 } else j,[],.returned .eof (target - (n + 1 : ℕ)))
      else if c = newline then (j,[c],.returned .newline (target - n))
      else ((readLoop killed target n j).1,c :: (readLoop killed target n j).2.1,(readLoop killed target n j).2.2)

/-- A call of `consoleread` that sleeps: `target`, and the bytes stored so far. -/
structure Reader where
  target : ℕ
  out : List UInt8
  deriving DecidableEq, Repr

/-- What can be observed: a character from the keyboard, a byte stored for a reader, and a
call that returns, with its size and all it stored. -/
inductive Event
  | typed (c : UInt8)
  | byte (p : ℕ) (c : UInt8)
  | ret (p n : ℕ) (out : List UInt8) (why : Why) (value : ℤ)
  deriving DecidableEq, Repr

structure Sys where
  input : Input
  killed : ℕ → Bool
  reader : ℕ → Option Reader
  trace : List Event

/-- Process `p` runs in `consoleread` until it sleeps or returns. -/
def Sys.runReader (s : Sys) (p : ℕ) (rd : Reader) : Sys :=
  let x := readLoop (s.killed p) rd.target (rd.target - rd.out.length) s.input
  let out := rd.out ++ x.2.1
  match x.2.2 with
  | .asleep => { s with
      input := x.1
      reader := Function.update s.reader p (some ⟨rd.target,out⟩)
      trace := s.trace ++ x.2.1.map (.byte p) }
  | .returned why v => { s with
      input := x.1
      reader := Function.update s.reader p none
      trace := s.trace ++ x.2.1.map (.byte p) ++ [.ret p rd.target out why v] }

inductive Op
  /-- an interrupt with the characters that `getc` gives -/
  | intr (cs : List UInt8)
  /-- a call of `consoleread` by a process -/
  | read (p n : ℕ)
  /-- a process that sleeps in `consoleread` runs again -/
  | resume (p : ℕ)
  /-- a process is marked as killed -/
  | kill (p : ℕ)
  deriving DecidableEq, Repr

def step (s : Sys) : Op → Option Sys
  | .intr cs => some { s with input := consoleintr s.input cs, trace := s.trace ++ cs.map .typed }
  | .read p n => if s.reader p = none then some (s.runReader p ⟨n,[]⟩) else none
  | .resume p => (s.reader p).map (s.runReader p)
  | .kill p => some { s with killed := Function.update s.killed p true }

def booted : Sys := ⟨⟨fun _ => 0,0,0,0⟩,fun _ => false,fun _ => none,[]⟩

abbrev Reached (s : Sys) : Prop := Reachable (fun s => s = booted) (OfFun step) s

/-! ## What the input means -/

/-- The characters committed so far, how many of them were taken, and the uncommitted tail. -/
structure Line where
  committed : List UInt8
  taken : ℕ
  tail : List UInt8
  deriving DecidableEq, Repr

namespace Line

/-- The characters that are still to be taken. -/
def pending (l : Line) : List UInt8 := l.committed.drop l.taken

/-- A character is accepted. A newline, a control-D or a full ring commits the tail. -/
def add (l : Line) (c : UInt8) : Line :=
  let tail := l.tail ++ [c]
  if c = newline ∨ c = ctrl 'D' ∨ l.pending.length + tail.length = inputBuf then
    { l with committed := l.committed ++ tail, tail := [] }
  else { l with tail := tail }

def type (l : Line) (c : UInt8) : Line :=
  if c = ctrl 'P' then l
  else if c = ctrl 'U' then { l with tail := [] }
  else if c = ctrl 'H' ∨ c = del then { l with tail := l.tail.dropLast }
  else if c ≠ 0 ∧ l.pending.length + l.tail.length < inputBuf then l.add (if c = cr then newline else c)
  else l

/-- A byte takes a character, and so does a control-D that a call meets with nothing stored. -/
def see (l : Line) : Event → Line
  | .typed c => l.type c
  | .byte _ _ => { l with taken := l.taken + 1 }
  | .ret _ _ out why _ => if why = .eof ∧ out = [] then { l with taken := l.taken + 1 } else l

/-- The line after the events of a trace. -/
def after (trace : List Event) : Line := trace.foldl see ⟨[],0,[]⟩

end Line

/-- The bytes stored for a process since its last return. -/
def since (p : ℕ) (trace : List Event) : List UInt8 :=
  trace.foldl (fun out ev => match ev with
    | .typed _ => out
    | .byte q c => if q = p then out ++ [c] else out
    | .ret q _ _ _ _ => if q = p then [] else out) []

/-- All bytes stored for readers. -/
def handed (trace : List Event) : List UInt8 :=
  trace.filterMap fun ev => match ev with
    | .byte _ c => some c
    | _ => none

/-- What the line allows a reader to see after a trace. -/
def Allowed (trace : List Event) : Event → Prop
  | .typed _ => True
  | .byte _ c => (Line.after trace).pending.head? = some c ∧ c ≠ ctrl 'D'
  | .ret p n out why v => out = since p trace ∧ out.length ≤ n ∧ newline ∉ out.dropLast ∧ match why with
    | .newline => v = out.length ∧ out.getLast? = some newline
    | .full => v = out.length ∧ out.length = n
    | .eof => v = out.length ∧ (Line.after trace).pending.head? = some (ctrl 'D')
    | .killed => v = -1 ∧ (Line.after trace).pending = []

/-- Every event of the trace is allowed where it stands. -/
def Fair (trace : List Event) : Prop := ∀ before ev rest, trace = before ++ ev :: rest → Allowed before ev

end X86OsDev.Xv6.Console
