import X86OsDev.Lib.Crash
import X86OsDev.Xv6.Disk
import Mathlib.Logic.Function.Basic

/-! # Committing and recovering the log

The functions of `log.c` that write to the disk, on a machine with a disk, the
buffers that hold data the disk does not have yet, and the header in memory.
Each `bwrite` is one atomic persistent update. Two ghost fields record how many
commits have finished and whether the header of the running one is on the disk.
-/
namespace X86OsDev.Xv6.LogRecovery
open Memory Crash Crash.Prog

/-- `struct logheader` -/
structure Header where
  n : ℤ
  block : ℕ → ℕ

/-- `log.start` and `log.size`, from the super block; the header block counts. -/
structure Geometry where
  start : ℕ
  size : ℕ
  pos : 0 < size

structure Machine where
  disk : ℕ → Block
  dirty : ℕ → Option Block
  lh : Header
  finished : ℕ
  headed : Bool

/-- The content of the buffer for a block: a clean one holds what the disk has. -/
def bread (s : Machine) (b : ℕ) : Block := (s.dirty b).getD (s.disk b)

/-- The buffer is written to the disk and is clean. -/
def Machine.write (s : Machine) (b : ℕ) (data : Block) : Machine :=
  { s with disk := Function.update s.disk b data, dirty := Function.update s.dirty b none }

def bwrite (b : Machine → ℕ) (data : Machine → Block) : Prog Machine Unit :=
  persist (fun s => s.write (b s) (data s))

/-- `log.lh.n` rounds of a loop. -/
def forLogged (body : ℕ → Prog Machine Unit) : Prog Machine Unit :=
  withState (fun s => forUpTo body s.lh.n.toNat)

/-- The header fields laid over the block that holds them. -/
def putHeader (lh : Header) (b : Block) : Block :=
  (List.range lh.n.toNat).foldl (fun b i => b.setWord (4 + 4 * i) (lh.block i))
    (b.setWord 0 (lh.n % 2 ^ 32).toNat)

variable (g : Geometry)

def installTrans : Prog Machine Unit :=
  forLogged (fun tail => bwrite (fun s => s.lh.block tail) (fun s => bread s (g.start + tail + 1)))

def readHead : Prog Machine Unit :=
  modify (fun s =>
    let b := bread s g.start
    let n := sint32 (b.word 0)
    { s with lh :=
      { n := n, block := fun i => if (i : ℤ) < n then b.word (4 + 4 * i) else s.lh.block i } })

def writeHead : Prog Machine Unit :=
  persist (fun s =>
    { s.write g.start (putHeader s.lh (bread s g.start)) with
      headed := s.headed || decide (0 < s.lh.n) })

/-- `log.lh.n = 0` -/
def clearHead : Prog Machine Unit := modify (fun s => { s with lh := { s.lh with n := 0 } })

def recoverFromLog : Prog Machine Unit := do
  readHead g
  installTrans g
  clearHead
  writeHead g

def writeLog : Prog Machine Unit :=
  forLogged (fun tail => bwrite (fun _ => g.start + tail + 1) (fun s => bread s (s.lh.block tail)))

def commit : Prog Machine Unit := do
  withState (fun s =>
    if 0 < s.lh.n then do
      writeLog g
      writeHead g
      installTrans g
      clearHead
      writeHead g
    else pure ())
  modify (fun s => { s with finished := s.finished + 1, headed := false })

/-- The first index below `n` that holds the block, or `n`. -/
def Header.slot (lh : Header) (b : ℕ) : ℕ :=
  ((List.range lh.n.toNat).find? (fun i => lh.block i = b)).getD lh.n.toNat

/-- `log_write(b)` after the caller has put `data` into the buffer. -/
def logWrite (b : ℕ) (data : Block) : Prog Machine Unit :=
  withState (fun s =>
    if (logsize : ℤ) ≤ s.lh.n ∨ (g.size : ℤ) - 1 ≤ s.lh.n then halt
    else modify (fun s =>
      let i := s.lh.slot b
      { s with
        lh := { n := if (i : ℤ) = s.lh.n then s.lh.n + 1 else s.lh.n
                block := Function.update s.lh.block i b }
        dirty := Function.update s.dirty b (some data) }))

/-- The blocks an operation modifies and logs, with their new content. -/
abbrev Txn := List (ℕ × Block)

def runTxn (t : Txn) : Prog Machine Unit := do
  forEach (fun w : ℕ × Block => logWrite g w.1 w.2) t
  commit g

def runTxns : List Txn → Prog Machine Unit := forEach (runTxn g)

/-- The machine after a boot that found a clean log. -/
def boot (d : ℕ → Block) : Machine := ⟨d,fun _ => none,⟨0,fun _ => 0⟩,0,false⟩

/-- Recovery after each of a list of power cuts, and once more to its end. -/
def recoverAll : List ℕ → (ℕ → Block) → (ℕ → Block)
  | [], d => (recoverFromLog g (boot d) none).state.disk
  | k :: ks, d => recoverAll ks (recoverFromLog g (boot d) (some k)).state.disk

/-- Blocks outside the log area; block numbers are 32 bit. -/
def Geometry.IsHome (b : ℕ) : Prop := b < 2 ^ 32 ∧ (b < g.start ∨ g.start + g.size ≤ b)

/-- What a transaction means for the blocks. -/
def applyTxn (h : ℕ → Block) (t : Txn) : ℕ → Block :=
  t.foldl (fun h w => Function.update h w.1 w.2) h

def applyTxns (h : ℕ → Block) (ts : List Txn) : ℕ → Block := ts.foldl applyTxn h

end X86OsDev.Xv6.LogRecovery
