import X86OsDev.Lib.Fault
import X86OsDev.Xv6.FsFormat
import X86OsDev.Xv6.LogProtocol

/-! # Blocks and inodes (fs.c, log.c, sleeplock.c)

The lower half of the file system, on its one device: the block allocator, the
inode cache and the content of inodes. `disk` holds the blocks as the buffer
cache shows them, so a change of `bp->data` is a change of `disk`; a sleep lock
that cannot be taken stops the program with `asleep`.
-/
namespace X86OsDev.Xv6.Fs
open Fault Memory
open LogProtocol (Log)

/-- `struct inode`; the sleep lock is its holder. -/
structure Inode where
  inum : ℕ
  ref : ℕ
  lock : Option (Fin nproc)
  valid : Bool
  node : Dinode

inductive FileType
  | none
  | pipe
  | inode
  deriving DecidableEq

/-- `struct file` without its pipe -/
structure File where
  type : FileType
  ref : ℕ
  readable : Bool
  writable : Bool
  ip : Fin ninode
  off : ℕ

/-- The current directory and the open files of a process; an unused slot has no directory. -/
structure Proc where
  cwd : Option (Fin ninode)
  ofile : Fin nofile → Option (Fin nfile)

structure Sys where
  disk : ℕ → Block
  /-- the blocks whose buffers are locked -/
  busy : List ℕ
  log : Log
  icache : Fin ninode → Inode
  file : Fin nfile → File
  proc : Fin nproc → Proc
  /-- what the next read of so many bytes from the console gives -/
  console : ℕ → Option (List UInt8)

inductive Panic
  | incorrectBlockno
  | brelse
  | tooBig
  | outsideTrans
  | committing
  | balloc
  | bfree
  | ialloc
  | iget
  | ilock
  | noType
  | iunlock
  | bmap
  | dirlookup
  | dirlookupRead
  | dirlinkRead
  | dirlink
  | isdirempty
  | unlinkNlink
  | unlinkWritei
  | createDots
  | createDirlink
  | filedup
  | fileclose
  | fileread
  | filewrite
  | shortFilewrite
  deriving DecidableEq

def Panic.text : Panic → String
  | .incorrectBlockno => "incorrect blockno"
  | .brelse => "brelse"
  | .tooBig => "too big a transaction"
  | .outsideTrans => "log_write outside of trans"
  | .committing => "log.committing"
  | .balloc => "balloc: out of blocks"
  | .bfree => "freeing free block"
  | .ialloc => "ialloc: no inodes"
  | .iget => "iget: no inodes"
  | .ilock => "ilock"
  | .noType => "ilock: no type"
  | .iunlock => "iunlock"
  | .bmap => "bmap: out of range"
  | .dirlookup => "dirlookup not DIR"
  | .dirlookupRead => "dirlookup read"
  | .dirlinkRead => "dirlink read"
  | .dirlink => "dirlink"
  | .isdirempty => "isdirempty: readi"
  | .unlinkNlink => "unlink: nlink < 1"
  | .unlinkWritei => "unlink: writei"
  | .createDots => "create dots"
  | .createDirlink => "create: dirlink"
  | .filedup => "filedup"
  | .fileclose => "fileclose"
  | .fileread => "fileread"
  | .filewrite => "filewrite"
  | .shortFilewrite => "short filewrite"

/-- How a program stops without returning. -/
inductive Stop
  | panic (p : Panic)
  | asleep
  deriving DecidableEq

abbrev FsProg (α : Type) := Prog Sys Stop α

def panic {α : Type} (p : Panic) : FsProg α := throw (.panic p)

/-! ## Buffers and the log -/

/-- `bread`: the driver has `FSSIZE` blocks, and `bget` takes the buffer's sleep lock. -/
def bread (b : ℕ) : FsProg Block := do
  let s ← get
  if fssize ≤ b then panic .incorrectBlockno
  else if b ∈ s.busy then throw .asleep
  else
    set { s with busy := b :: s.busy }
    return s.disk b

def brelse (b : ℕ) : FsProg Unit := do
  let s ← get
  if b ∈ s.busy then set { s with busy := s.busy.erase b }
  else panic .brelse

/-- A store into the data of a buffer. -/
def putData (b : ℕ) (data : Block) : FsProg Unit :=
  modify fun s => { s with disk := Function.update s.disk b data }

def logWrite (b : ℕ) : FsProg Unit := do
  let s ← get
  if s.log.isFull then panic .tooBig
  else if s.log.outstanding < 1 then panic .outsideTrans
  else set { s with log := s.log.record b }

/-- How every change of a block ends: a store into the buffer, `log_write` and `brelse`. -/
def bupdate (b : ℕ) (data : Block) : FsProg Unit := do
  putData b data
  logWrite b
  brelse b

def bzero (b : ℕ) : FsProg Unit := do
  let _ ← bread b
  bupdate b Block.zero

variable (sb : Superblock)

/-! ## Blocks -/

/-- The inner loop of `balloc`: the first clear bit of the map block of `b`, with `n` bits left
from `bi` on. -/
def freeBit (blk : Block) (b : ℕ) : ℕ → ℕ → Option ℕ
  | 0, _ => none
  | n + 1, bi =>
    if b + bi < sb.size then
      if blk.bit bi = false then some bi
      else freeBit blk b n (bi + 1)
    else none

def ballocLoop : ℕ → ℕ → FsProg ℕ
  | 0, _ => panic .balloc
  | n + 1, b =>
    if b < sb.size then do
      let blk ← bread (sb.bblock b)
      match freeBit sb blk b bpb 0 with
      | some bi =>
        bupdate (sb.bblock b) (blk.setBit bi)
        bzero (b + bi)
        return b + bi
      | none =>
        brelse (sb.bblock b)
        ballocLoop n (b + bpb)
    else panic .balloc

def balloc : FsProg ℕ := ballocLoop sb (sb.size + 1) 0

def bfree (b : ℕ) : FsProg Unit := do
  let blk ← bread (sb.bblock b)
  if blk.bit (b % bpb) = false then panic .bfree
  else
    bupdate (sb.bblock b) (blk.clearBit (b % bpb))

/-! ## Inodes -/

def setInode (ip : Fin ninode) (g : Inode → Inode) : FsProg Unit :=
  modify fun s => { s with icache := Function.update s.icache ip (g (s.icache ip)) }

/-- An assignment to fields of the copy of the disk inode. -/
def setNode (ip : Fin ninode) (g : Dinode → Dinode) : FsProg Unit :=
  setInode ip fun e => { e with node := g e.node }

def iget (inum : ℕ) : FsProg (Fin ninode) := do
  let s ← get
  match (List.finRange ninode).find? fun ip => decide (0 < (s.icache ip).ref ∧ (s.icache ip).inum = inum) with
  | some ip =>
    setInode ip fun e => { e with ref := e.ref + 1 }
    return ip
  | none =>
    match (List.finRange ninode).find? fun ip => decide ((s.icache ip).ref = 0) with
    | none => panic .iget
    | some ip =>
      setInode ip fun e => { e with inum := inum, ref := 1, valid := false }
      return ip

def idup (ip : Fin ninode) : FsProg Unit := setInode ip fun e => { e with ref := e.ref + 1 }

def iallocLoop (type : ℕ) : ℕ → ℕ → FsProg (Fin ninode)
  | 0, _ => panic .ialloc
  | n + 1, inum =>
    if inum < sb.ninodes then do
      let blk ← bread (sb.iblock inum)
      if (blk.dinode inum).type = 0 then
        bupdate (sb.iblock inum) (blk.newDinode inum type)
        iget inum
      else
        brelse (sb.iblock inum)
        iallocLoop type n (inum + 1)
    else panic .ialloc

def ialloc (type : ℕ) : FsProg (Fin ninode) := iallocLoop sb type sb.ninodes 1

def iupdate (ip : Fin ninode) : FsProg Unit := do
  let e := (← get).icache ip
  let blk ← bread (sb.iblock e.inum)
  bupdate (sb.iblock e.inum) (blk.setDinode e.inum e.node)

/-- `acquiresleep(&ip->lock)` -/
def acquiresleep (me : Fin nproc) (ip : Fin ninode) : FsProg Unit := do
  let s ← get
  if (s.icache ip).lock = none then setInode ip fun e => { e with lock := some me }
  else throw .asleep

/-- `releasesleep(&ip->lock)` -/
def releasesleep (ip : Fin ninode) : FsProg Unit := setInode ip fun e => { e with lock := none }

def ilock (me : Fin nproc) (ip : Fin ninode) : FsProg Unit := do
  let s ← get
  if (s.icache ip).ref < 1 then panic .ilock
  else
    acquiresleep me ip
    if (s.icache ip).valid = false then
      let blk ← bread (sb.iblock (s.icache ip).inum)
      setNode ip fun _ => blk.dinode (s.icache ip).inum
      brelse (sb.iblock (s.icache ip).inum)
      setInode ip fun e => { e with valid := true }
      if (blk.dinode (s.icache ip).inum).type = 0 then panic .noType
      else return ()
    else return ()

def iunlock (me : Fin nproc) (ip : Fin ninode) : FsProg Unit := do
  let s ← get
  if (s.icache ip).lock ≠ some me ∨ (s.icache ip).ref < 1 then panic .iunlock
  else releasesleep ip

/-! ## Content -/

def setAddr (ip : Fin ninode) (k : Fin (ndirect + 1)) (b : ℕ) : FsProg Unit :=
  setNode ip fun n => n.setAddr k b

/-- `ip->addrs[k]`, with a block allocated for it if it is zero. -/
def addrOf (ip : Fin ninode) (k : Fin (ndirect + 1)) : FsProg ℕ := do
  let s ← get
  if (s.icache ip).node.addrs k = 0 then
    let b ← balloc sb
    setAddr ip k b
    return b
  else return (s.icache ip).node.addrs k

def bmap (ip : Fin ninode) (bn : ℕ) : FsProg ℕ :=
  if h : bn < ndirect then addrOf sb ip ⟨bn,Nat.lt_succ_of_lt h⟩
  else if bn - ndirect < nindirect then do
    let addr ← addrOf sb ip (Fin.last ndirect)
    let a ← bread addr
    if a.word (4 * (bn - ndirect)) = 0 then
      let b ← balloc sb
      bupdate addr (a.setWord (4 * (bn - ndirect)) b)
      return b
    else
      brelse addr
      return a.word (4 * (bn - ndirect))
  else panic .bmap

/-- The first loop of `itrunc`, from address `i` on. -/
def truncDirect (ip : Fin ninode) : List (Fin (ndirect + 1)) → FsProg Unit
  | [] => return ()
  | k :: ks => do
    let s ← get
    if (s.icache ip).node.addrs k ≠ 0 then
      bfree sb ((s.icache ip).node.addrs k)
      setAddr ip k 0
      truncDirect ip ks
    else truncDirect ip ks

/-- The second loop of `itrunc`, over the words of the indirect block. -/
def truncIndirect (a : Block) : List ℕ → FsProg Unit
  | [] => return ()
  | j :: js =>
    if a.word (4 * j) ≠ 0 then do
      bfree sb (a.word (4 * j))
      truncIndirect a js
    else truncIndirect a js

/-- The part of `itrunc` for the indirect block. -/
def freeIndirect (ip : Fin ninode) : FsProg Unit := do
  let s ← get
  if (s.icache ip).node.addrs (Fin.last ndirect) ≠ 0 then
    let a ← bread ((s.icache ip).node.addrs (Fin.last ndirect))
    truncIndirect sb a (List.range nindirect)
    brelse ((s.icache ip).node.addrs (Fin.last ndirect))
    bfree sb ((s.icache ip).node.addrs (Fin.last ndirect))
    setAddr ip (Fin.last ndirect) 0
  else return ()

def itrunc (ip : Fin ninode) : FsProg Unit := do
  truncDirect sb ip ((List.finRange ndirect).map Fin.castSucc)
  freeIndirect sb ip
  setNode ip fun n => { n with size := 0 }
  iupdate sb ip

/-- What `iput` does with an inode that has no links and no other references. -/
def freeInode (ip : Fin ninode) : FsProg Unit := do
  itrunc sb ip
  setNode ip fun n => { n with type := 0 }
  iupdate sb ip
  setInode ip fun e => { e with valid := false }

def freeUnlinked (ip : Fin ninode) : FsProg Unit := do
  let s ← get
  if (s.icache ip).valid = true ∧ (s.icache ip).node.nlink = 0 ∧ (s.icache ip).ref = 1 then
    freeInode sb ip
  else return ()

/-- The part of `iput` under the inode's lock. -/
def iputLocked (me : Fin nproc) (ip : Fin ninode) : FsProg Unit := do
  acquiresleep me ip
  freeUnlinked sb ip
  releasesleep ip

/-- `ip->ref--` -/
def putRef (ip : Fin ninode) : FsProg Unit := setInode ip fun e => { e with ref := e.ref - 1 }

def iput (me : Fin nproc) (ip : Fin ninode) : FsProg Unit := do
  iputLocked sb me ip
  putRef ip

def iunlockput (me : Fin nproc) (ip : Fin ninode) : FsProg Unit := do
  iunlock me ip
  iput sb me ip

/-! ## Reading and writing -/

def console : ℕ := 1

/-- The functions the device switch has: only the console's. -/
def noDevice (major : ℕ) : Prop := sint16 major < 0 ∨ (ndev : ℤ) ≤ sint16 major ∨ major ≠ console

instance (major : ℕ) : Decidable (noDevice major) := inferInstanceAs (Decidable (_ ∨ _ ∨ _))

/-- `consoleread`; the inode is unlocked while it waits for input. -/
def consoleread (me : Fin nproc) (ip : Fin ninode) (n : ℕ) : FsProg (Option (List UInt8)) := do
  iunlock me ip
  let s ← get
  ilock sb me ip
  return s.console n

def consolewrite (me : Fin nproc) (ip : Fin ninode) (n : ℕ) : FsProg (Option ℕ) := do
  iunlock me ip
  ilock sb me ip
  return some n

/-- The loop of `readi`, with the bytes copied so far. -/
def readLoop (ip : Fin ninode) (n : ℕ) : ℕ → ℕ → ℕ → List UInt8 → FsProg (List UInt8)
  | 0, _, _, dst => return dst
  | fuel + 1, tot, off, dst =>
    if tot < n then do
      let b ← bmap sb ip (off / bsize)
      let data ← bread b
      let m := min (n - tot) (bsize - off % bsize)
      brelse b
      readLoop ip n fuel (tot + m) (off + m)
        (dst ++ (List.range m).map fun i => data.mem (off % bsize + i))
    else return dst

/-- `readi`: `none` for -1, else the bytes it copies. -/
def readi (me : Fin nproc) (ip : Fin ninode) (off n : ℕ) : FsProg (Option (List UInt8)) := do
  let node := ((← get).icache ip).node
  if node.type = tDev then
    if noDevice node.major then return none
    else consoleread sb me ip n
  else if node.size < off ∨ u32 (off + n) < off then return none
  else
    let n := if node.size < u32 (off + n) then node.size - off else n
    let dst ← readLoop sb ip n n 0 off []
    return some dst

/-- The loop of `writei`; it returns the offset it got to. -/
def writeLoop (ip : Fin ninode) (src : ℕ → UInt8) (n : ℕ) : ℕ → ℕ → ℕ → FsProg ℕ
  | 0, _, off => return off
  | fuel + 1, tot, off =>
    if tot < n then do
      let b ← bmap sb ip (off / bsize)
      let data ← bread b
      let m := min (n - tot) (bsize - off % bsize)
      bupdate b (.ofMem (copy data.mem (off % bsize) m fun i => src (tot + i)))
      writeLoop ip src n fuel (tot + m) (off + m)
    else return off

/-- The end of `writei`: a larger size is stored and written back. -/
def growTo (ip : Fin ninode) (n off : ℕ) : FsProg Unit := do
  let s ← get
  if 0 < n ∧ (s.icache ip).node.size < off then
    setNode ip fun e => { e with size := off }
    iupdate sb ip
  else return ()

/-- `writei` of the bytes at `src`: `none` for -1, else the count. -/
def writei (me : Fin nproc) (ip : Fin ninode) (src : ℕ → UInt8) (off n : ℕ) :
    FsProg (Option ℕ) := do
  let node := ((← get).icache ip).node
  if node.type = tDev then
    if noDevice node.major then return none
    else consolewrite sb me ip n
  else if node.size < off ∨ u32 (off + n) < off then return none
  else if maxfile * bsize < u32 (off + n) then return none
  else
    let off ← writeLoop sb ip src n n 0 off
    growTo sb ip n off
    return some n

end X86OsDev.Xv6.Fs
