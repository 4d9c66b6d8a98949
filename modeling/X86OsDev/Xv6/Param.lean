import Mathlib.Algebra.GroupWithZero.Nat
/-! # Constants of the kernel configuration and of the disk format

The names are those of `param.h` and `fs.h`.
-/
namespace X86OsDev.Xv6

/-- Maximum number of processes. -/
abbrev nproc : Nat := 64
theorem nproc_ne_zero : nproc ≠ 0 := by decide
instance : NeZero nproc := ⟨nproc_ne_zero⟩
/-- Open files per process. -/
abbrev nofile : Nat := 16
/-- Open files per system. -/
abbrev nfile : Nat := 100
/-- Maximum number of active inodes. -/
abbrev ninode : Nat := 50
instance : NeZero ninode := ⟨by decide⟩
/-- Maximum major device number. -/
abbrev ndev : Nat := 10
abbrev rootdev : Nat := 1
/-- Maximum number of exec arguments. -/
abbrev maxarg : Nat := 32
/-- Maximum number of blocks any file system operation writes. -/
abbrev maxopblocks : Nat := 10
/-- Maximum number of data blocks in the on-disk log. -/
abbrev logsize : Nat := maxopblocks * 3
/-- Size of the disk block cache. -/
abbrev nbuf : Nat := maxopblocks * 3
/-- Size of the file system image in blocks. -/
abbrev fssize : Nat := 1000

abbrev rootino : Nat := 1
/-- Block size in bytes. -/
abbrev bsize : Nat := 512

/-- Direct block addresses of an inode. -/
abbrev ndirect : Nat := 12
/-- Block addresses in an indirect block. -/
abbrev nindirect : Nat := bsize / 4
abbrev maxfile : Nat := ndirect + nindirect
/-- Inodes per block. -/
abbrev ipb : Nat := bsize / 64
/-- Bitmap bits per block. -/
abbrev bpb : Nat := bsize * 8
/-- Bytes of a name in a directory entry. -/
abbrev dirsiz : Nat := 14

end X86OsDev.Xv6
