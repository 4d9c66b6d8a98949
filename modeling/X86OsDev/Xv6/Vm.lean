import X86OsDev.Lib.Fault
import X86OsDev.Xv6.Mmu

/-! # Physical pages and page tables (kalloc.c, vm.c)

Physical memory is addressed by the addresses at which the kernel maps it. The
free list is a list of pages. A program of this layer returns, or it panics, or
it follows the null pointer that `walkpgdir` returned to `uva2ka`.
-/
namespace X86OsDev.Xv6
open Memory Fault

/-- Where the linker script put the kernel (kernel.ld): read-only data ends at a
page boundary, and the kernel lies in the first four megabytes. -/
structure Kernel where
  data : ℕ
  kend : ℕ
  data_aligned : data % 4096 = 0
  kernlink_lt : kernlink < data
  data_le : data ≤ kend
  kend_le : kend ≤ kernbase + 0x400000

structure Machine where
  mem : Mem
  freelist : List ℕ

inductive VmPanic
  | kfree
  | remap
  | phystopTooHigh
  | freevmNoPgdir
  | loaduvmUnaligned
  | loaduvmMissing
  | clearpteu
  | copyuvmNoPte
  | copyuvmNotPresent
  deriving DecidableEq

inductive VmFault
  | panic (p : VmPanic)
  | nullPte
  deriving DecidableEq

abbrev Vm := Prog Machine VmFault

namespace Vm
variable (k : Kernel)

def panic {α : Type} (p : VmPanic) : Vm α := throw (.panic p)

def load (a : ℕ) : Vm ℕ := do return load32 (← get).mem a
def store (a v : ℕ) : Vm Unit := modify fun s => { s with mem := store32 s.mem a v }
def memset (a : ℕ) (c : UInt8) (n : ℕ) : Vm Unit := modify fun s => { s with mem := fill s.mem a n c }
def memmove (a : ℕ) (src : ℕ → UInt8) (n : ℕ) : Vm Unit :=
  modify fun s => { s with mem := copy s.mem a n src }

theorem load_ok (s : Machine) (a : ℕ) : load a s = .ok (load32 s.mem a,s) := rfl
theorem store_ok (s : Machine) (a v : ℕ) :
    store a v s = .ok ((),{ s with mem := store32 s.mem a v }) := rfl
theorem memset_ok (s : Machine) (a : ℕ) (c : UInt8) (n : ℕ) :
    memset a c n s = .ok ((),{ s with mem := fill s.mem a n c }) := rfl
theorem memmove_ok (s : Machine) (a : ℕ) (src : ℕ → UInt8) (n : ℕ) :
    memmove a src n s = .ok ((),{ s with mem := copy s.mem a n src }) := rfl

/-- `kfree`, with the link to the next free page in the first word of the page -/
def kfree (v : ℕ) : Vm Unit := do
  if v % pgsize ≠ 0 ∨ v < k.kend ∨ phystop ≤ v2p v then panic .kfree
  else
    memset v 1 pgsize
    store v ((← get).freelist.headD 0)
    modify fun s => { s with freelist := v :: s.freelist }

def kalloc : Vm (Option ℕ) := do
  match (← get).freelist with
  | [] => return none
  | r :: rest =>
    modify fun s => { s with freelist := rest }
    return some r

/-- `walkpgdir`: the address of the entry, `none` for the null pointer -/
def walkpgdir (pgdir va : ℕ) (alloc : Bool) : Vm (Option ℕ) := do
  let pde ← load (pgdir + 4 * pdx va)
  if present pde then
    return some (p2v (pteAddr pde) + 4 * ptx va)
  else if !alloc then
    return none
  else
    match ← kalloc with
    | none => return none
    | some pgtab =>
      memset pgtab 0 pgsize
      store (pgdir + 4 * pdx va) (v2p pgtab ||| pteP ||| pteW ||| pteU)
      return some (pgtab + 4 * ptx va)

/-- One round of the loop of `mappages`. -/
def mappage (pgdir a pa perm : ℕ) : Vm Bool := do
  match ← walkpgdir pgdir a true with
  | none => return false
  | some pte =>
    if present (← load pte) then panic .remap
    else
      store pte (pa ||| perm ||| pteP)
      return true

def mappagesLoop (pgdir perm : ℕ) : ℕ → ℕ → ℕ → Vm Bool
  | 0, a, pa => mappage pgdir a pa perm
  | n + 1, a, pa => do
    if ← mappage pgdir a pa perm then
      mappagesLoop pgdir perm n (u32 (a + pgsize)) (u32 (pa + pgsize))
    else return false

/-- `mappages`: `false` stands for -1. The loop goes from the page of the first
byte to the page of the last one. -/
def mappages (pgdir va size pa perm : ℕ) : Vm Bool :=
  let a := pgrounddown va
  let last := pgrounddown (sub32 (u32 (va + size)) 1)
  mappagesLoop pgdir perm (sub32 last a / pgsize) a pa

/-- The loop of `deallocuvm`. The counter only bounds the number of rounds. -/
def deallocuvmLoop (pgdir oldsz : ℕ) : ℕ → ℕ → Vm Unit
  | 0, _ => return ()
  | n + 1, a => do
    if a < oldsz then
      match ← walkpgdir pgdir a false with
      | none => deallocuvmLoop pgdir oldsz n (u32 ((pdx a + 1) * 2 ^ 22))
      | some pte =>
        let e ← load pte
        if present e then
          if pteAddr e = 0 then panic .kfree
          else
            kfree k (p2v (pteAddr e))
            store pte 0
        deallocuvmLoop pgdir oldsz n (u32 (a + pgsize))
    else return ()

def deallocuvm (pgdir oldsz newsz : ℕ) : Vm ℕ := do
  if oldsz ≤ newsz then return oldsz
  else
    deallocuvmLoop k pgdir oldsz (oldsz / pgsize + 1) (pgroundup newsz)
    return newsz

/-- The second loop of `freevm`, over the `n` entries from `i` on. -/
def freevmLoop (pgdir : ℕ) : ℕ → ℕ → Vm Unit
  | 0, _ => return ()
  | n + 1, i => do
    let pde ← load (pgdir + 4 * i)
    if present pde then kfree k (p2v (pteAddr pde))
    freevmLoop pgdir n (i + 1)

def freevm (pgdir : ℕ) : Vm Unit := do
  if pgdir = 0 then panic .freevmNoPgdir
  else
    let _ ← deallocuvm k pgdir kernbase 0
    freevmLoop k pgdir npdentries 0
    kfree k pgdir

/-- `kmap`: the kernel's mappings, as address, first and last physical address, permissions -/
def kmap : List (ℕ × ℕ × ℕ × ℕ) :=
  [(kernbase,0,extmem,pteW), (kernlink,v2p kernlink,v2p k.data,0),
    (k.data,v2p k.data,phystop,pteW), (devspace,devspace,0,pteW)]

def setupkvmLoop (pgdir : ℕ) : List (ℕ × ℕ × ℕ × ℕ) → Vm (Option ℕ)
  | [] => return some pgdir
  | (virt,physStart,physEnd,perm) :: rest => do
    if ← mappages pgdir virt (sub32 physEnd physStart) physStart perm then setupkvmLoop pgdir rest
    else
      freevm k pgdir
      return none

def setupkvm : Vm (Option ℕ) := do
  match ← kalloc with
  | none => return none
  | some pgdir =>
    memset pgdir 0 pgsize
    if devspace < p2v phystop then panic .phystopTooHigh
    else setupkvmLoop k pgdir (kmap k)

/-- The loop of `allocuvm`, over `n` pages from `a` on. -/
def allocuvmLoop (pgdir oldsz newsz : ℕ) : ℕ → ℕ → Vm ℕ
  | 0, _ => return newsz
  | n + 1, a => do
    match ← kalloc with
    | none =>
      let _ ← deallocuvm k pgdir newsz oldsz
      return 0
    | some mem =>
      memset mem 0 pgsize
      if ← mappages pgdir a pgsize (v2p mem) (pteW ||| pteU) then
        allocuvmLoop pgdir oldsz newsz n (u32 (a + pgsize))
      else
        let _ ← deallocuvm k pgdir newsz oldsz
        kfree k mem
        return 0

/-- `allocuvm`: the pages from `PGROUNDUP(oldsz)` up to `newsz` -/
def allocuvm (pgdir oldsz newsz : ℕ) : Vm ℕ := do
  if kernbase ≤ newsz then return 0
  else if newsz < oldsz then return oldsz
  else
    let a := pgroundup oldsz
    allocuvmLoop k pgdir oldsz newsz ((newsz - a + (pgsize - 1)) / pgsize) a

def clearpteu (pgdir uva : ℕ) : Vm Unit := do
  match ← walkpgdir pgdir uva false with
  | none => panic .clearpteu
  | some pte => store pte (clearU (← load pte))

/-- The loop of `copyuvm`, over `n` pages from `i` on. -/
def copyuvmLoop (pgdir d : ℕ) : ℕ → ℕ → Vm (Option ℕ)
  | 0, _ => return some d
  | n + 1, i => do
    match ← walkpgdir pgdir i false with
    | none => panic .copyuvmNoPte
    | some pte =>
      let e ← load pte
      if !present e then panic .copyuvmNotPresent
      else
        match ← kalloc with
        | none =>
          freevm k d
          return none
        | some mem =>
          let m := (← get).mem
          memmove mem (fun x => m (p2v (pteAddr e) + x)) pgsize
          if ← mappages d i pgsize (v2p mem) (pteFlags e) then
            copyuvmLoop pgdir d n (u32 (i + pgsize))
          else
            kfree k mem
            freevm k d
            return none

def copyuvm (pgdir sz : ℕ) : Vm (Option ℕ) := do
  match ← setupkvm k with
  | none => return none
  | some d => copyuvmLoop k pgdir d ((sz + (pgsize - 1)) / pgsize) 0

/-- `uva2ka`, which follows what `walkpgdir` returns without a check -/
def uva2ka (pgdir uva : ℕ) : Vm (Option ℕ) := do
  match ← walkpgdir pgdir uva false with
  | none => throw .nullPte
  | some pte =>
    let e ← load pte
    if !present e then return none
    else if !user e then return none
    else return some (p2v (pteAddr e))

/-- The loop of `copyout`. Each round copies a byte at least, so `len` bounds the rounds. -/
def copyoutLoop (pgdir : ℕ) (buf : ℕ → UInt8) : ℕ → ℕ → ℕ → ℕ → Vm Bool
  | 0, _, _, _ => return true
  | fuel + 1, va, off, len => do
    if len = 0 then return true
    else
      let va0 := pgrounddown va
      match ← uva2ka pgdir va0 with
      | none => return false
      | some pa0 =>
        let n := min (pgsize - (va - va0)) len
        memmove (pa0 + (va - va0)) (fun x => buf (off + x)) n
        copyoutLoop pgdir buf fuel (u32 (va0 + pgsize)) (off + n) (len - n)

/-- `copyout`: `false` stands for -1 -/
def copyout (pgdir va : ℕ) (buf : ℕ → UInt8) (len : ℕ) : Vm Bool :=
  copyoutLoop pgdir buf len va 0 len

end Vm
end X86OsDev.Xv6
