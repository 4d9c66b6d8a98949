import X86OsDev.Xv6.DirLink

/-! # Path names (fs.c)

`skipelem` takes the next element off a path, and `namex` looks the elements up
one after the other. A path is the bytes before its zero, and `name` the bytes
from its pointer on; an element of `DIRSIZ` bytes leaves no zero in it.
-/
namespace X86OsDev.Xv6.Fs
open Fault Memory SlotTable

/-- `'/'` -/
def pathSep : UInt8 := 47

/-- `skipelem`: the path behind the next element, and `name`. -/
def skipelem (path : List UInt8) (name : ℕ → UInt8) : Option (List UInt8 × (ℕ → UInt8)) :=
  let s := path.dropWhile (· = pathSep)
  if s = [] then none
  else
    let len := (s.takeWhile (· ≠ pathSep)).length
    let name := if dirsiz ≤ len then copy name 0 dirsiz (s.getD · 0)
      else Function.update (copy name 0 len (s.getD · 0)) len 0
    some ((s.drop len).dropWhile (· = pathSep),name)

theorem skipelem_lt {path path' : List UInt8} {name name' : ℕ → UInt8} (h : skipelem path name = some (path',name')) :
    path'.length < path.length := by
  unfold skipelem at h
  dsimp only at h
  have hle : (path.dropWhile (· = pathSep)).length ≤ path.length := (List.dropWhile_suffix _).length_le
  have hhead := List.head?_dropWhile_not (· = pathSep) path
  generalize path.dropWhile (· = pathSep) = s at h hle hhead
  cases s with
  | nil => exact absurd h (by simp)
  | cons c s =>
    rw [if_neg (List.cons_ne_nil _ _)] at h
    have hc : c ≠ pathSep := by simpa using hhead
    have hrest := ((List.dropWhile_suffix (· = pathSep)).length_le :
      (((c :: s).drop ((c :: s).takeWhile (· ≠ pathSep)).length).dropWhile (· = pathSep)).length ≤ _)
    rw [(Prod.mk.inj (Option.some.inj h)).1, List.takeWhile_cons_of_pos (by simpa using hc), List.length_cons, List.drop_succ_cons,
      List.length_drop] at hrest
    rw [List.length_cons] at hle
    omega

variable (sb : Superblock) (me : Fin nproc)

/-- The loop of `namex`, with `name` as it leaves it. -/
def namexLoop (nameiparent : Bool) (path : List UInt8) (name : ℕ → UInt8) (ip : Fin ninode) :
    FsProg (Option (Fin ninode) × (ℕ → UInt8)) :=
  match _h : skipelem path name with
  | none =>
    if nameiparent = true then do
      iput sb me ip
      return (none,name)
    else return (some ip,name)
  | some (path',name') => do
    ilock sb me ip
    if ((← get).icache ip).node.type ≠ tDir then
      iunlockput sb me ip
      return (none,name')
    else if nameiparent = true ∧ path' = [] then
      iunlock me ip
      return (some ip,name')
    else match ← dirlookup sb me ip name' with
      | none =>
        iunlockput sb me ip
        return (none,name')
      | some (next,_) =>
        iunlockput sb me ip
        namexLoop nameiparent path' name' next
termination_by path.length
decreasing_by exact skipelem_lt _h

/-- `idup(myproc()->cwd)`; a process that runs has a current directory. -/
def idupCwd : FsProg (Fin ninode) := do
  match ((← get).proc me).cwd with
  | some ip =>
    idup ip
    return ip
  | none => throw .asleep

def namex (path : List UInt8) (nameiparent : Bool) (name : ℕ → UInt8) : FsProg (Option (Fin ninode) × (ℕ → UInt8)) := do
  let ip ← if path.head? = some pathSep then iget rootino else idupCwd me
  namexLoop sb me nameiparent path name ip

/-- `buf` is what the buffer for the name has before. -/
def namei (path : List UInt8) (buf : ℕ → UInt8) : FsProg (Option (Fin ninode)) := do
  let r ← namex sb me path false buf
  return r.1

def nameiparent (path : List UInt8) (name : ℕ → UInt8) : FsProg (Option (Fin ninode) × (ℕ → UInt8)) := namex sb me path true name

/-! ## What a path stands for -/

/-- The maximal runs of bytes other than `/`, each cut to `DIRSIZ` bytes. -/
def components (path : List UInt8) : List (List UInt8) :=
  ((path.splitOnP (· = pathSep)).filter (· ≠ [])).map (·.take dirsiz)

/-- What calling `skipelem` again and again gives. -/
def elements (path : List UInt8) (name : ℕ → UInt8) : List (List UInt8) :=
  match _h : skipelem path name with
  | none => []
  | some (path',name') => nameOf name' :: elements path' name'
termination_by path.length
decreasing_by exact skipelem_lt _h

/-- The entry for a name in inode `i`, which has none if it is not a directory. -/
def dirEntry (d : ℕ → Block) (i : ℕ) (key : List UInt8) : Option ℕ :=
  if (sb.dinode d i).type = tDir then lookup (table (content d (sb.dinode d i))) key else none

/-- The left fold of the lookups over the components of a path. -/
def walk (d : ℕ → Block) (start : ℕ) (cs : List (List UInt8)) : Option ℕ := cs.foldlM (dirEntry sb d) start

/-- The directory that the last component is looked up in. -/
def parentOf (d : ℕ → Block) (start : ℕ) (cs : List (List UInt8)) : Option ℕ :=
  if cs = [] then none else (walk sb d start cs.dropLast).filter fun i => (sb.dinode d i).type = tDir

end X86OsDev.Xv6.Fs
