import X86OsDev.Lib.Counting
import X86OsDev.Lib.Transition
import X86OsDev.Xv6.FsWrite

/-! # Reading and writing through a shared `struct file` (file.c)

Any number of processes have calls of `fileread` and `filewrite` on one `struct
file` under way. The part of a call under the inode's lock is one step, and so
are `begin_op` and `end_op`; a step that stops the kernel has no next state.
`ranges` is history that no step reads.
-/
namespace X86OsDev.Xv6.Fs
open Fault Memory Transition
open LogProtocol (Log)

variable (sb : Superblock) (f : Fin nfile)

/-- `if(r > 0) f->off += r` -/
def advanceOff (r : ℕ) : FsProg Unit :=
  if 0 < r then
    modify fun s => { s with file := Function.update s.file f { s.file f with off := u32 ((s.file f).off + r) } }
  else return ()

/-- `fileread` of an `FD_INODE` -/
def fileread (me : Fin nproc) (n : ℕ) : FsProg (Option (List UInt8)) := do
  let ip := ((← get).file f).ip
  ilock sb me ip
  let r ← readi sb me ip ((← get).file f).off n
  advanceOff f ((r.map List.length).getD 0)
  iunlock me ip
  return r

/-- `max` in `filewrite` -/
def maxWrite : ℕ := (maxopblocks - 1 - 1 - 2) / 2 * 512

/-- The part of the loop in `filewrite` under the inode's lock. -/
def writeChunk (me : Fin nproc) (src : ℕ → UInt8) (n1 : ℕ) : FsProg (Option ℕ) := do
  let ip := ((← get).file f).ip
  ilock sb me ip
  let r ← writei sb me ip src ((← get).file f).off n1
  advanceOff f (r.getD 0)
  iunlock me ip
  return r

/-- `begin_op` once it does not have to wait -/
def beginOp (l : Log) : Log := { l with outstanding := l.outstanding + 1 }

/-- `end_op`; no transaction begins until `commit` has emptied the log. -/
def endOp (l : Log) : Log :=
  { l with
    outstanding := l.outstanding - 1
    block := if l.outstanding - 1 = 0 then [] else l.block }

/-- Where a process is: in `fileread`, or in the loop of `filewrite` at its test, after `begin_op`, and before
`end_op` with what `writei` returned. -/
inductive Call
  | idle
  | read (n : ℕ)
  | write (src : ℕ → UInt8) (n i : ℕ)
  | inOp (src : ℕ → UInt8) (n i : ℕ)
  | wrote (src : ℕ → UInt8) (n i : ℕ) (r : Option ℕ)

/-- Bytes that a process has read or written, and the offset it had. -/
structure Range where
  proc : Fin nproc
  written : Bool
  start : ℕ
  bytes : List UInt8

/-- Where a range ends. -/
def Range.stop (r : Range) : ℕ := r.start + r.bytes.length

structure Shared where
  sys : Sys
  call : Fin nproc → Call
  ranges : List Range

namespace Shared

def goto (s : Shared) (p : Fin nproc) (c : Call) : Shared := { s with call := Function.update s.call p c }

/-- A section has read or written bytes, from the offset that it found. -/
def note (s : Shared) (p : Fin nproc) (written : Bool) (bytes : List UInt8) (t : Sys) : Shared :=
  { s with
    sys := t
    ranges := if bytes = [] then s.ranges else s.ranges ++ [⟨p,written,(s.sys.file f).off,bytes⟩] }

def setLog (s : Shared) (l : Log) : Shared := { s with sys := { s.sys with log := l } }

end Shared

/-- The bytes of a chunk that was written. -/
def chunkBytes (src : ℕ → UInt8) (i : ℕ) : Option ℕ → List UInt8
  | none => []
  | some r => (List.range r).map fun j => src (i + j)

/-- What the file has, whether or not its inode has been read from the disk. -/
def fileBytes (s : Sys) : List UInt8 :=
  content s.disk (sb.dinode s.disk (s.icache (s.file f).ip).inum)

/-- A regular file, whose inode nobody has locked. -/
structure Settled (s : Sys) : Prop where
  consistent : Consistent sb s.disk
  busy : s.busy = []
  type : (s.file f).type = .inode
  off : (s.file f).off < 2 ^ 32
  ref : 0 < (s.icache (s.file f).ip).ref
  lock : (s.icache (s.file f).ip).lock = none
  inum : (s.icache (s.file f).ip).inum < sb.ninodes
  node : (s.icache (s.file f).ip).valid = true →
    (s.icache (s.file f).ip).node = sb.dinode s.disk (s.icache (s.file f).ip).inum
  regular : (sb.dinode s.disk (s.icache (s.file f).ip).inum).type = tFile

/-- A process is between `begin_op` and `end_op`. -/
def Call.inside : Call → ℕ
  | .inOp _ _ _ | .wrote _ _ _ _ => 1
  | _ => 0

/-- The processes between `begin_op` and `end_op`. -/
def Shared.inside (s : Shared) : ℕ := ∑ p, (s.call p).inside

/-- What the rest of the kernel does: it leaves the `struct file` and the content of the file alone, and ends no
transaction but its own. -/
structure Elsewhere (s : Shared) (t : Sys) : Prop where
  settled : Settled sb f t
  file : t.file f = s.sys.file f
  bytes : fileBytes sb f t = fileBytes sb f s.sys
  inside : s.inside ≤ t.log.outstanding

/-- A step of a process, or of the rest of the kernel. `n` is an `int` that the system call has checked. -/
inductive Step : Shared → Option (Fin nproc) → Shared → Prop
  | read {s : Shared} {p : Fin nproc} {n : ℕ} (hp : s.call p = .idle) (hn : n < 2 ^ 31) (hr : (s.sys.file f).readable = true) :
    Step s (some p) (s.goto p (.read n))
  | readSection {s : Shared} {p : Fin nproc} {n : ℕ} {r : Option (List UInt8)} {t : Sys} (hp : s.call p = .read n)
    (hrun : fileread sb f p n s.sys = .ok (r,t)) : Step s (some p) ((s.note f p false (r.getD []) t).goto p .idle)
  | write {s : Shared} {p : Fin nproc} {src : ℕ → UInt8} {n : ℕ} (hp : s.call p = .idle) (hn : n < 2 ^ 31)
    (hw : (s.sys.file f).writable = true) : Step s (some p) (s.goto p (.write src n 0))
  | beginOp {s : Shared} {p : Fin nproc} {src : ℕ → UInt8} {n i : ℕ} (hp : s.call p = .write src n i) (hi : i < n)
    (hlog : s.sys.log.admits = true) : Step s (some p) ((s.setLog (beginOp s.sys.log)).goto p (.inOp src n i))
  | writeSection {s : Shared} {p : Fin nproc} {src : ℕ → UInt8} {n i : ℕ} {r : Option ℕ} {t : Sys}
    (hp : s.call p = .inOp src n i)
    (hrun : writeChunk sb f p (fun j => src (i + j)) (min (n - i) maxWrite) s.sys = .ok (r,t)) :
    Step s (some p) ((s.note f p true (chunkBytes src i r) t).goto p (.wrote src n i r))
  | failed {s : Shared} {p : Fin nproc} {src : ℕ → UInt8} {n i : ℕ} (hp : s.call p = .wrote src n i none)
    (hlog : s.sys.log.committing = false) : Step s (some p) ((s.setLog (endOp s.sys.log)).goto p .idle)
  | endOp {s : Shared} {p : Fin nproc} {src : ℕ → UInt8} {n i r : ℕ} (hp : s.call p = .wrote src n i (some r))
    (hlog : s.sys.log.committing = false) (hr : r = min (n - i) maxWrite) :
    Step s (some p) ((s.setLog (endOp s.sys.log)).goto p (.write src n (i + r)))
  | done {s : Shared} {p : Fin nproc} {src : ℕ → UInt8} {n i : ℕ} (hp : s.call p = .write src n i) (hi : n ≤ i) :
    Step s (some p) (s.goto p .idle)
  | elsewhere {s : Shared} {t : Sys} (h : Elsewhere sb f s t) : Step s none { s with sys := t }

/-- Nobody has a call under way. -/
structure FileStart (s : Shared) : Prop where
  settled : Settled sb f s.sys
  idle : ∀ p, s.call p = .idle
  outstanding : 0 ≤ s.sys.log.outstanding
  ranges : s.ranges = []

abbrev FileReached (start : ℕ) (s : Shared) : Prop :=
  Reachable (fun s => FileStart sb f s ∧ (s.sys.file f).off = start) (Step sb f) s

end X86OsDev.Xv6.Fs
