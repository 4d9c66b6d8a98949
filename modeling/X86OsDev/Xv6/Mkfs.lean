import X86OsDev.Lib.Fault
import X86OsDev.Xv6.FsFormat

/-! # Making a file system image (mkfs.c)

The image is a file of the host, as long as what has been written to it. A
failed read or assertion ends the program with a status other than 0. The names
on the command line have no zero byte, and numbers have the byte order of the
kernel already.
-/
namespace X86OsDev.Xv6.Mkfs
open Fault Memory

def ninodes : ℕ := 200
def nbitmap : ℕ := fssize / (bsize * 8) + 1
def ninodeblocks : ℕ := ninodes / ipb + 1
def nlog : ℕ := logsize
def nmeta : ℕ := 2 + nlog + ninodeblocks + nbitmap

/-- The superblock that `main` fills in. -/
def sb : Superblock where
  size := fssize
  nblocks := fssize - nmeta
  ninodes := ninodes
  nlog := nlog
  logstart := 2
  inodestart := 2 + nlog
  bmapstart := 2 + nlog + ninodeblocks

/-- The open image: its sectors, of which the file has the first `nsect`, and the next free inode and block. -/
structure Img where
  sect : ℕ → Block
  nsect : ℕ
  freeinode : ℕ
  freeblock : ℕ

inductive Failure
  | open
  | read
  | assertion
  deriving DecidableEq

abbrev Mk (α : Type) := Prog Img Failure α

/-- `assert(p)` -/
def assert (p : Bool) : Mk Unit := if p then return () else throw .assertion

def wsect (sec : ℕ) (buf : Block) : Mk Unit :=
  modify fun m => { m with sect := Function.update m.sect sec buf, nsect := max m.nsect (sec + 1) }

def rsect (sec : ℕ) : Mk Block := do
  let m ← get
  if sec < m.nsect then return m.sect sec
  else throw .read

def winode (inum : ℕ) (ip : Dinode) : Mk Unit := do
  let buf ← rsect (sb.iblock inum)
  wsect (sb.iblock inum) (buf.setDinode inum ip)

def rinode (inum : ℕ) : Mk Dinode := do
  let buf ← rsect (sb.iblock inum)
  return buf.dinode inum

def ialloc (type : ℕ) : Mk ℕ := do
  let inum := (← get).freeinode
  modify fun m => { m with freeinode := m.freeinode + 1 }
  winode inum ⟨type,0,0,1,0,fun _ => 0⟩
  return inum

/-- `freeblock++` -/
def nextBlock : Mk ℕ := do
  let b := (← get).freeblock
  modify fun m => { m with freeblock := m.freeblock + 1 }
  return b

/-- The address `din.addrs[k]`, which is given a block if it has none. -/
def addrOf (din : Dinode) (k : Fin (ndirect + 1)) : Mk (Dinode × ℕ) :=
  if din.addrs k = 0 then do
    let b ← nextBlock
    return (din.setAddr k b,b)
  else return (din,din.addrs k)

/-- The block `x` that `iappend` finds for block `fbn` of the file. -/
def fileBlock (din : Dinode) (fbn : ℕ) : Mk (Dinode × ℕ) :=
  if h : fbn < ndirect then addrOf din ⟨fbn,Nat.lt_succ_of_lt h⟩
  else do
    let (din, a) ← addrOf din (Fin.last ndirect)
    let indirect ← rsect a
    if indirect.word (4 * (fbn - ndirect)) = 0 then
      let b ← nextBlock
      wsect a (indirect.setWord (4 * (fbn - ndirect)) b)
      return (din,b)
    else return (din,indirect.word (4 * (fbn - ndirect)))

/-- The loop of `iappend` for the bytes that are left. -/
def appendLoop : ℕ → Dinode → ℕ → List UInt8 → Mk (Dinode × ℕ)
  | 0, din, off, _ => return (din,off)
  | fuel + 1, din, off, p =>
    if 0 < p.length then do
      let fbn := off / bsize
      assert (fbn < maxfile)
      let (din, x) ← fileBlock din fbn
      let n1 := min p.length ((fbn + 1) * bsize - off)
      let buf ← rsect x
      wsect x (.ofMem (copy buf.mem (off - fbn * bsize) n1 fun i => p.getD i 0))
      appendLoop fuel din (off + n1) (p.drop n1)
    else return (din,off)

def iappend (inum : ℕ) (p : List UInt8) : Mk Unit := do
  let din ← rinode inum
  let (din, off) ← appendLoop p.length din din.size p
  winode inum { din with size := off }

/-- The bitmap with the first `used` blocks marked. -/
def bitmap (used : ℕ) : Block := (List.range used).foldl Block.setBit Block.zero

def balloc (used : ℕ) : Mk Unit := do
  assert (used < bsize * 8)
  wsect sb.bmapstart (bitmap used)

/-- A `struct dirent` whose name is filled up with zeroes. -/
def dirent (inum : ℕ) (name : List UInt8) : List UInt8 :=
  [UInt8.ofNat inum, UInt8.ofNat (inum / 256)] ++ name.take dirsiz ++ List.replicate (dirsiz - name.length) 0

/-- A file on the command line, with its content if it can be opened. -/
structure HostFile where
  name : List UInt8
  data : Option (List UInt8)

/-- `while((cc = read(fd, buf, sizeof(buf))) > 0) iappend(inum, buf, cc)` -/
def copyIn (inum : ℕ) : ℕ → List UInt8 → Mk Unit
  | 0, _ => return ()
  | fuel + 1, data =>
    if 0 < data.length then do
      iappend inum (data.take bsize)
      copyIn inum fuel (data.drop bsize)
    else return ()

def slash : UInt8 := 47
def underscore : UInt8 := 95
def dot : UInt8 := 46

/-- The name in the file system, without one leading underscore. -/
def baseName (name : List UInt8) : List UInt8 := if name.head? = some underscore then name.tail else name

/-- One round of the loop over the files. -/
def addFile (root : ℕ) (file : HostFile) : Mk Unit := do
  assert (slash ∉ file.name)
  match file.data with
  | none => throw .open
  | some data =>
    let inum ← ialloc tFile
    iappend root (dirent inum (baseName file.name))
    copyIn inum data.length data

def addFiles (root : ℕ) : List HostFile → Mk Unit
  | [] => return ()
  | file :: files => do
    addFile root file
    addFiles root files

def zeroSectors : ℕ → Mk Unit
  | 0 => return ()
  | n + 1 => do
    zeroSectors n
    wsect n Block.zero

/-- The block of the superblock. -/
def superBlock : Block :=
  let fields := [sb.size, sb.nblocks, sb.ninodes, sb.nlog, sb.logstart, sb.inodestart, sb.bmapstart]
  (List.range 7).foldl (fun buf i => buf.setWord (4 * i) (fields.getD i 0)) Block.zero

/-- "fix size of root inode dir" -/
def fixRoot (root : ℕ) : Mk Unit := do
  let din ← rinode root
  winode root { din with size := u32 ((din.size / bsize + 1) * bsize) }

def main (files : List HostFile) : Mk Unit := do
  zeroSectors fssize
  wsect 1 superBlock
  let root ← ialloc tDir
  assert (root = rootino)
  iappend root (dirent root [dot])
  iappend root (dirent root [dot, dot])
  addFiles root files
  fixRoot root
  balloc (← get).freeblock

/-- The image before `main`: an empty file. -/
def empty : Img := ⟨fun _ => Block.zero,0,1,nmeta⟩

/-- `mkfs` with a status of 0, and the image it leaves. -/
def Makes (files : List HostFile) (img : Img) : Prop := main files empty = .ok ((),img)

end X86OsDev.Xv6.Mkfs
