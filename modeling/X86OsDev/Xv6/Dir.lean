import X86OsDev.Xv6.Fs

/-! # Directories (fs.c, sysfile.c, string.c)

The content of a directory is a sequence of entries; an entry with inode number
zero is free. The name of an entry has `DIRSIZ` bytes and ends before its first
zero, if it has one. A name that is passed is the bytes from its pointer on.
-/
namespace X86OsDev.Xv6.Fs

/-- The loop of `strncmp`, from byte `i` on. -/
def strncmpFrom (p q : ℕ → UInt8) : ℕ → ℕ → ℤ
  | 0, _ => 0
  | n + 1, i =>
    if p i ≠ 0 ∧ p i = q i then strncmpFrom p q n (i + 1)
    else (p i).toNat - (q i).toNat

def strncmp (p q : ℕ → UInt8) (n : ℕ) : ℤ := strncmpFrom p q n 0

/-- The bytes that `strncpy` stores, from byte `i` on. -/
def strncpyFrom (t : ℕ → UInt8) : ℕ → ℕ → List UInt8
  | 0, _ => []
  | n + 1, i => t i :: if t i ≠ 0 then strncpyFrom t n (i + 1) else List.replicate n 0

def strncpy (t : ℕ → UInt8) (n : ℕ) : List UInt8 := strncpyFrom t n 0

def namecmp (s t : ℕ → UInt8) : ℤ := strncmp s t dirsiz

/-- `struct dirent` -/
structure Dirent where
  inum : ℕ
  name : List UInt8

/-- `sizeof(struct dirent)` -/
def direntSize : ℕ := 16

def Dirent.ofBytes (bs : List UInt8) : Dirent := ⟨(bs.getD 0 0).toNat + 256 * (bs.getD 1 0).toNat,bs.drop 2⟩

def Dirent.bytes (de : Dirent) : List UInt8 := UInt8.ofNat de.inum :: UInt8.ofNat (de.inum / 256) :: de.name

variable (sb : Superblock)

/-- `readi` of an entry, which has to succeed. -/
def readDirent (p : Panic) (me : Fin nproc) (dp : Fin ninode) (off : ℕ) : FsProg Dirent := do
  match ← readi sb me dp off direntSize with
  | some bs => if bs.length = direntSize then return .ofBytes bs else panic p
  | none => panic p

/-- `writei` of an entry, which has to succeed. -/
def writeDirent (p : Panic) (me : Fin nproc) (dp : Fin ninode) (bs : List UInt8) (off : ℕ) : FsProg Unit := do
  match ← writei sb me dp (fun i => bs.getD i 0) off direntSize with
  | some n => if n = direntSize then return () else panic p
  | none => panic p

/-- The loop of `dirlookup`. -/
def dirlookupLoop (me : Fin nproc) (dp : Fin ninode) (name : ℕ → UInt8) : ℕ → ℕ → FsProg (Option (Fin ninode × ℕ))
  | 0, _ => return none
  | n + 1, off => do
    if off < ((← get).icache dp).node.size then
      let de ← readDirent sb .dirlookupRead me dp off
      if de.inum = 0 then dirlookupLoop me dp name n (off + direntSize)
      else if namecmp name (de.name.getD · 0) = 0 then
        let ip ← iget de.inum
        return some (ip,off)
      else dirlookupLoop me dp name n (off + direntSize)
    else return none

/-- `dirlookup`: the inode and what `*poff` is set to -/
def dirlookup (me : Fin nproc) (dp : Fin ninode) (name : ℕ → UInt8) : FsProg (Option (Fin ninode × ℕ)) := do
  let node := ((← get).icache dp).node
  if node.type ≠ tDir then panic .dirlookup
  else dirlookupLoop sb me dp name node.size 0

/-- The loop of `dirlink`: the offset of a free entry or of the end. -/
def freeDirent (me : Fin nproc) (dp : Fin ninode) : ℕ → ℕ → FsProg ℕ
  | 0, off => return off
  | n + 1, off => do
    if off < ((← get).icache dp).node.size then
      let de ← readDirent sb .dirlinkRead me dp off
      if de.inum = 0 then return off
      else freeDirent me dp n (off + direntSize)
    else return off

def dirlink (me : Fin nproc) (dp : Fin ninode) (name : ℕ → UInt8) (inum : ℕ) : FsProg ℤ := do
  match ← dirlookup sb me dp name with
  | some (ip,_) =>
    iput sb me ip
    return -1
  | none =>
    let off ← freeDirent sb me dp ((← get).icache dp).node.size 0
    writeDirent sb .dirlink me dp (Dirent.bytes ⟨inum,strncpy name dirsiz⟩) off
    return 0

/-- The loop of `isdirempty`. -/
def isdiremptyLoop (me : Fin nproc) (dp : Fin ninode) : ℕ → ℕ → FsProg Bool
  | 0, _ => return true
  | n + 1, off => do
    if off < ((← get).icache dp).node.size then
      let de ← readDirent sb .isdirempty me dp off
      if de.inum ≠ 0 then return false
      else isdiremptyLoop me dp n (off + direntSize)
    else return true

def isdirempty (me : Fin nproc) (dp : Fin ninode) : FsProg Bool := do
  isdiremptyLoop sb me dp ((← get).icache dp).node.size (2 * direntSize)

/-- How `sys_unlink` clears an entry. -/
def clearDirent (me : Fin nproc) (dp : Fin ninode) (off : ℕ) : FsProg Unit :=
  writeDirent sb .unlinkWritei me dp (List.replicate direntSize 0) off

end X86OsDev.Xv6.Fs
