import X86OsDev.Xv6.Param
import X86OsDev.Xv6.Vm

/-! # Running a program file (exec.c, elf.h, and the arguments of `sys_exec`)

The program is a regular file, given by its size and its bytes. The argument
strings are read from the memory of the calling process, which does not change
while the new address space is built.
-/
namespace X86OsDev.Xv6
open Memory Fault

structure File where
  size : ℕ
  bytes : Mem
  size_lt : size < 2 ^ 32

/-- The user memory of the calling process. -/
structure Caller where
  mem : Mem
  sz : ℕ
  sz_lt : sz < kernbase

/-- `readi` on a regular file: the number of bytes, `none` for -1 -/
def File.readi (f : File) (off n : ℕ) : Option ℕ :=
  if f.size < off ∨ u32 (off + n) < off then none
  else if f.size < u32 (off + n) then some (f.size - off)
  else some n

def elfMagic : ℕ := 0x464C457F
def elfProgLoad : ℕ := 1

namespace File
variable (f : File)

/-! `struct elfhdr`, 52 bytes at the start of the file -/
def magic : ℕ := load32 f.bytes 0
def entry : ℕ := load32 f.bytes 24
def phoff : ℕ := load32 f.bytes 28
def phnum : ℕ := load16 f.bytes 44

/-! `struct proghdr`, 32 bytes -/
def phType (off : ℕ) : ℕ := load32 f.bytes off
def phOff (off : ℕ) : ℕ := load32 f.bytes (off + 4)
def phVaddr (off : ℕ) : ℕ := load32 f.bytes (off + 8)
def phFilesz (off : ℕ) : ℕ := load32 f.bytes (off + 16)
def phMemsz (off : ℕ) : ℕ := load32 f.bytes (off + 20)

end File

namespace Caller
variable (c : Caller)

def fetchint (addr : ℕ) : Option ℕ :=
  if c.sz ≤ addr ∨ c.sz < u32 (addr + 4) then none else some (load32 c.mem addr)

/-- The loop of `fetchstr` over the `n` bytes from `s` on: the string without its nul -/
def scanstr : ℕ → ℕ → Option (List UInt8)
  | 0, _ => none
  | n + 1, s => if c.mem s = 0 then some [] else (scanstr n (s + 1)).map (c.mem s :: ·)

def fetchstr (addr : ℕ) : Option (List UInt8) :=
  if c.sz ≤ addr then none else c.scanstr (c.sz - addr) addr

/-- The loop of `sys_exec` that collects the argument strings, from the `i`th on -/
def fetchArgv (uargv : ℕ) : ℕ → ℕ → Option (List (List UInt8))
  | 0, _ => none
  | n + 1, i =>
    match c.fetchint (u32 (uargv + 4 * i)) with
    | none => none
    | some 0 => some []
    | some uarg =>
      match c.fetchstr uarg with
      | none => none
      | some a => (fetchArgv uargv n (i + 1)).map (a :: ·)

/-- The argument vector that `sys_exec` passes to `exec`. -/
def argv (uargv : ℕ) : Option (List (List UInt8)) := c.fetchArgv uargv maxarg 0

end Caller

namespace Vm
variable (k : Kernel) (f : File)

/-- The loop of `loaduvm`, over `n` pages from offset `i` on -/
def loaduvmLoop (pgdir addr offset sz : ℕ) : ℕ → ℕ → Vm Bool
  | 0, _ => return true
  | n + 1, i => do
    match ← walkpgdir pgdir (u32 (addr + i)) false with
    | none => panic .loaduvmMissing
    | some pte =>
      let pa := pteAddr (← load pte)
      let n' := if sz - i < pgsize then sz - i else pgsize
      match f.readi (u32 (offset + i)) n' with
      | none => return false
      | some got =>
        memmove (p2v pa) (fun x => f.bytes (u32 (offset + i) + x)) got
        if got ≠ n' then return false
        else loaduvmLoop pgdir addr offset sz n (i + pgsize)

/-- `loaduvm`: `false` stands for -1 -/
def loaduvm (pgdir addr offset sz : ℕ) : Vm Bool := do
  if addr % pgsize ≠ 0 then panic .loaduvmUnaligned
  else loaduvmLoop f pgdir addr offset sz ((sz + (pgsize - 1)) / pgsize) 0

/-- The loop over the program headers: the size of the image, `none` for `goto bad` -/
def loadSegments (pgdir : ℕ) : ℕ → ℕ → ℕ → Vm (Option ℕ)
  | 0, _, sz => return some sz
  | n + 1, off, sz => do
    if f.readi off 32 ≠ some 32 then return none
    else if f.phType off ≠ elfProgLoad then loadSegments pgdir n (u32 (off + 32)) sz
    else if f.phMemsz off < f.phFilesz off then return none
    else if u32 (f.phVaddr off + f.phMemsz off) < f.phVaddr off then return none
    else
      let sz ← allocuvm k pgdir sz (u32 (f.phVaddr off + f.phMemsz off))
      if sz = 0 then return none
      else if f.phVaddr off % pgsize ≠ 0 then return none
      else if ← loaduvm f pgdir (f.phVaddr off) (f.phOff off) (f.phFilesz off) then
        loadSegments pgdir n (u32 (off + 32)) sz
      else return none

/-- `exec` up to the empty stack: the page directory and the stack pointer -/
def loadImage : Vm (Option (ℕ × ℕ)) := do
  if f.readi 0 52 ≠ some 52 then return none
  else if f.magic ≠ elfMagic then return none
  else
    match ← setupkvm k with
    | none => return none
    | some pgdir =>
      match ← loadSegments k f pgdir f.phnum f.phoff 0 with
      | none =>
        freevm k pgdir
        return none
      | some sz =>
        let sz := pgroundup sz
        let sz ← allocuvm k pgdir sz (u32 (sz + 2 * pgsize))
        if sz = 0 then
          freevm k pgdir
          return none
        else
          clearpteu pgdir (sub32 sz (2 * pgsize))
          return some (pgdir,sz)

/-- A string as `strlen(s) + 1` bytes. -/
def stringBytes (s : List UInt8) : ℕ → UInt8 := fun i => s.getD i 0

/-- An array of 32 bit words as bytes. -/
def wordBytes (ws : List ℕ) : ℕ → UInt8 := fun i => UInt8.ofNat (ws.getD (i / 4) 0 / 2 ^ (8 * (i % 4)))

/-- `(sp - (strlen(s) + 1)) & ~3` -/
def pushSp (sp : ℕ) (s : List UInt8) : ℕ := sub32 sp (s.length + 1) / 4 * 4

/-- The loop that pushes the argument strings: the stack pointer and `ustack[3..]` -/
def pushArgs (pgdir : ℕ) : ℕ → List ℕ → List (List UInt8) → Vm (Option (ℕ × List ℕ))
  | sp, ptrs, [] => return some (sp,ptrs)
  | sp, ptrs, a :: rest => do
    if maxarg ≤ ptrs.length then return none
    else if ← copyout pgdir (pushSp sp a) (stringBytes a) (a.length + 1) then
      pushArgs pgdir (pushSp sp a) (ptrs ++ [pushSp sp a]) rest
    else return none

/-- `ustack` when all strings are pushed. -/
def ustack (sp : ℕ) (ptrs : List ℕ) : List ℕ :=
  [0xffffffff,ptrs.length,sub32 sp ((ptrs.length + 1) * 4)] ++ ptrs ++ [0]

/-- The new image: what `exec` writes into the process. -/
structure Image where
  pgdir : ℕ
  sz : ℕ
  eip : ℕ
  esp : ℕ
  deriving DecidableEq

/-- `exec` for a file that `namei` found: `none` for -1 -/
def exec (argv : List (List UInt8)) (oldpgdir : ℕ) : Vm (Option Image) := do
  match ← loadImage k f with
  | none => return none
  | some (pgdir,sz) =>
    match ← pushArgs pgdir sz [] argv with
    | none =>
      freevm k pgdir
      return none
    | some (sp,ptrs) =>
      let sp' := sub32 sp ((3 + ptrs.length + 1) * 4)
      if ← copyout pgdir sp' (wordBytes (ustack sp ptrs)) ((3 + ptrs.length + 1) * 4) then
        freevm k oldpgdir
        return some ⟨pgdir,sz,f.entry,sp'⟩
      else
        freevm k pgdir
        return none

end Vm
end X86OsDev.Xv6
