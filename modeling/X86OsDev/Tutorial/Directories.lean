import X86OsDev.Tutorial.Frames

/-! # Page directories and the kernel heap of the tutorial kernel (paging.c, kheap.c, task.c)

A directory holds pointers to page tables. `clone_directory` shares the tables
that the source shares with `kernel_directory` and copies the others, and
`expand` adds tables to `kernel_directory` alone. The memory is seen in three
ways, as directories, as tables and as the bytes of task structures; only
`memset` runs from one into another.
-/
namespace X86OsDev.Tutorial.Directories
open Memory Transition
open Frames (Bits allocFrame freeFrame copyFlags)

def kheapStart : ℕ := 0xC0000000
def kheapInitialSize : ℕ := 0x100000
def heapIndexSize : ℕ := 0x20000
def heapMinSize : ℕ := 0x70000

/-- `sizeof(header_t)` and `sizeof(footer_t)` -/
def headerSize : ℕ := 12
def footerSize : ℕ := 8

/-- `sizeof(page_directory_t)`, `sizeof(page_table_t)`, `sizeof(heap_t)` -/
def directorySize : ℕ := 8196
def tableSize : ℕ := 4096
def heapSize : ℕ := 32

/-- `sizeof(task_t)` and the offset of `page_directory` in it -/
def taskSize : ℕ := 28
def taskDirectory : ℕ := 16

/-- `page_directory_t` -/
structure Directory where
  tables : ℕ → ℕ
  tablesPhysical : ℕ → ℕ
  physicalAddr : ℕ

structure Sys where
  frames : Bits
  nframes : ℕ
  /-- `page_table_t` at each address -/
  table : ℕ → ℕ → Page
  /-- `page_directory_t` at each address -/
  dir : ℕ → Directory
  /-- the bytes of the task structures -/
  mem : Mem
  kernelDirectory : ℕ
  currentDirectory : ℕ
  placementAddress : ℕ
  /-- `kheap` is not null -/
  kheap : Bool
  startAddress : ℕ
  endAddress : ℕ
  maxAddress : ℕ
  /-- the ready queue: each task with the directory it was made with -/
  tasks : List (ℕ × ℕ)
  /-- blocks of the heap that are in use -/
  live : List (ℕ × ℕ)
  /-- those of them that a caller of `kmalloc` may free again -/
  data : List ℕ
  /-- what `find_smallest_hole` will find: nothing, or a block at an address -/
  holes : List (Option ℕ)
  /-- what a call of `first_frame` without a return value gives -/
  junk : BitVec 32

/-- `memset(a, 0, n)` -/
def memset (s : Sys) (a n : ℕ) : Sys :=
  { s with
    dir := fun d =>
      ⟨fun i => if a ≤ d + 4 * i ∧ d + 4 * i < a + n then 0 else (s.dir d).tables i,
        fun i => if a ≤ d + 0x1000 + 4 * i ∧ d + 0x1000 + 4 * i < a + n then 0
          else (s.dir d).tablesPhysical i,
        if a ≤ d + 0x2000 ∧ d + 0x2000 < a + n then 0 else (s.dir d).physicalAddr⟩
    table := fun t i => if a ≤ t + 4 * i ∧ t + 4 * i < a + n then .blank else s.table t i
    mem := fill s.mem a n 0 }

def setTable (s : Sys) (d i t : ℕ) : Sys :=
  let dir := { s.dir d with tables := Function.update (s.dir d).tables i t }
  { s with dir := Function.update s.dir d dir }

def setPhysical (s : Sys) (d i phys : ℕ) : Sys :=
  let dir := { s.dir d with tablesPhysical := Function.update (s.dir d).tablesPhysical i phys }
  { s with dir := Function.update s.dir d dir }

def setPhysicalAddr (s : Sys) (d phys : ℕ) : Sys :=
  let dir := { s.dir d with physicalAddr := phys }
  { s with dir := Function.update s.dir d dir }

/-- The store of a page entry and the frames that go with it. -/
def setPage (s : Sys) (p : ℕ × ℕ) (r : Bits × Page) : Sys :=
  { s with
    frames := r.1
    table := Function.update s.table p.1 (Function.update (s.table p.1) p.2 r.2) }

def allocFrameAt (s : Sys) (p : ℕ × ℕ) (isKernel isWriteable : ℤ) : Sys :=
  setPage s p (allocFrame s.frames s.nframes (s.table p.1 p.2) isKernel isWriteable s.junk)

def freeFrameAt (s : Sys) (p : ℕ × ℕ) : Sys := setPage s p (freeFrame s.frames (s.table p.1 p.2))

/-- `get_page` without `make`; `none` is the null pointer. -/
def findPage (s : Sys) (address d : ℕ) : Option (ℕ × ℕ) :=
  let address := address / 0x1000
  let tableIdx := address / 1024
  if (s.dir d).tables tableIdx ≠ 0 then some ((s.dir d).tables tableIdx,address % 1024) else none

/-- What `alloc` promises of a block: it lies in the heap and, with its header and footer, touches
no block in use. -/
def Fresh (s : Sys) (a size : ℕ) (pageAlign : Bool) : Prop :=
  s.startAddress + headerSize ≤ a ∧ a + size + footerSize ≤ s.endAddress ∧
  (pageAlign = true → a % 0x1000 = 0) ∧
  ∀ b ∈ s.live, a + size + footerSize + headerSize ≤ b.1 ∨
    b.1 + b.2 + footerSize + headerSize ≤ a

instance (s : Sys) (a size : ℕ) (pageAlign : Bool) : Decidable (Fresh s a size pageAlign) :=
  inferInstanceAs (Decidable (_ ∧ _ ∧ _ ∧ _))

/-- The type of `alloc`. -/
abbrev Alloc := ℕ → Bool → Sys → Option (ℕ × Sys)

/-- The placement allocation of `kmalloc_int`, before there is a heap. -/
def place (size : ℕ) (align : Bool) (s : Sys) : ℕ × Sys :=
  let p := s.placementAddress
  let p := if align = true ∧ p / 0x1000 ≠ 0 then p / 0x1000 * 0x1000 + 0x1000 else p
  (p,{ s with placementAddress := u32 (p + size) })

/-- `kmalloc_int` without `phys` -/
def kmallocInt (alloc : Alloc) (size : ℕ) (align : Bool) (s : Sys) : Option (ℕ × Sys) :=
  if s.kheap then alloc size align s else some (place size align s)

/-- `kmalloc_ap`: the address, the physical address and the new state -/
def kmallocAp (alloc : Alloc) (size : ℕ) (s : Sys) : Option (ℕ × ℕ × Sys) := do
  let r ← kmallocInt alloc size true s
  if s.kheap then
    let page ← findPage r.2 r.1 r.2.kernelDirectory
    some (r.1,u32 ((r.2.table page.1 page.2).frame.toNat * 0x1000 + r.1 % 0x1000),r.2)
  else some (r.1,r.1,r.2)

/-- `get_page` with `make` -/
def getPage (alloc : Alloc) (address d : ℕ) (s : Sys) : Option ((ℕ × ℕ) × Sys) :=
  match findPage s address d with
  | some p => some (p,s)
  | none => do
    let tableIdx := address / 0x1000 / 1024
    let r ← kmallocAp alloc tableSize s
    let s := setTable r.2.2 d tableIdx r.1
    let s := memset s r.1 0x1000
    some ((r.1,address / 0x1000 % 1024),setPhysical s d tableIdx (r.2.1 ||| 0x7))

/-- `alloc_frame(get_page(address, 1, d), is_kernel, is_writeable)` -/
def allocPage (alloc : Alloc) (isKernel isWriteable : ℤ) (d : ℕ) (s : Sys) (address : ℕ) :
    Option Sys := do
  let r ← getPage alloc address d s
  some (allocFrameAt r.2 r.1 isKernel isWriteable)

/-- The loop of `expand` over at most `n` pages. -/
def expandFrom (alloc : Alloc) (newSize : ℕ) : ℕ → ℕ → Sys → Option Sys
  | 0, _, _ => none
  | n + 1, i, s =>
    if i < newSize then do
      let s ← allocPage alloc 0 1 s.kernelDirectory s (u32 (s.startAddress + i))
      expandFrom alloc newSize n (u32 (i + 0x1000)) s
    else some s

/-- `expand`. The test of the size is `new_size & (0xFFFFF000 != 0)`, so only odd sizes are
rounded up. -/
def expand (alloc : Alloc) (newSize : ℕ) (s : Sys) : Option Sys :=
  let oldSize := sub32 s.endAddress s.startAddress
  if ¬ oldSize < newSize then none
  else
    let newSize := if newSize % 2 = 1 then u32 (newSize / 0x1000 * 0x1000 + 0x1000) else newSize
    if ¬ u32 (s.startAddress + newSize) ≤ s.maxAddress then none
    else do
      let s ← expandFrom alloc newSize (2 ^ 20 + 1) oldSize s
      some { s with endAddress := u32 (s.startAddress + newSize) }

/-- `alloc`, nested at most `n` deep: `expand` may need a page table and come back to it. -/
def alloc : ℕ → Alloc
  | 0, _, _, _ => none
  | n + 1, size, pageAlign, s =>
    match s.holes with
    | [] => none
    | some a :: holes =>
      if Fresh s a size pageAlign then
        some (a,{ s with holes := holes, live := (a,size) :: s.live })
      else none
    | none :: holes => do
      let newSize := u32 (size + headerSize + footerSize)
      let oldLength := sub32 s.endAddress s.startAddress
      let s ← expand (alloc n) (u32 (oldLength + newSize)) { s with holes := holes }
      alloc n size pageAlign s

/-- The loop of `contract` over at most `n` pages. -/
def contractFrom (newSize : ℕ) : ℕ → ℕ → Sys → Option Sys
  | 0, _, _ => none
  | n + 1, i, s =>
    if newSize < i then do
      let p ← findPage s (u32 (s.startAddress + i)) s.kernelDirectory
      contractFrom newSize n (sub32 i 0x1000) (freeFrameAt s p)
    else some s

/-- `contract`, with its test of one bit of the size -/
def contract (newSize : ℕ) (s : Sys) : Option Sys :=
  let oldSize := sub32 s.endAddress s.startAddress
  if ¬ newSize < oldSize then none
  else
    let newSize := if newSize / 0x1000 % 2 = 1 then 0x1000 + 0x1000 else newSize
    let newSize := if newSize < heapMinSize then heapMinSize else newSize
    do
      let s ← contractFrom newSize (2 ^ 20 + 1) (sub32 oldSize 0x1000) s
      some { s with endAddress := u32 (s.startAddress + newSize) }

/-- One round of the loop of `clone_table`. -/
def clonePage (src table : ℕ) (s : Sys) (i : ℕ) : Sys :=
  if (s.table src i).frame = 0 then s
  else
    let r := allocFrame s.frames s.nframes (s.table table i) 0 0 s.junk
    setPage s (table,i) (r.1,copyFlags (s.table src i) r.2)

/-- `clone_table`. It clears the size of a directory, more than the block it was given. -/
def cloneTable (alloc : Alloc) (src : ℕ) (s : Sys) : Option (ℕ × ℕ × Sys) := do
  let r ← kmallocAp alloc tableSize s
  let s := memset r.2.2 r.1 directorySize
  some (r.1,r.2.1,(List.range 1024).foldl (clonePage src r.1) s)

/-- One round of the loop of `clone_directory`. -/
def cloneEntry (alloc : Alloc) (src d : ℕ) (s : Sys) (i : ℕ) : Option Sys :=
  let t := (s.dir src).tables i
  if t = 0 then some s
  else if (s.dir s.kernelDirectory).tables i = t then
    let s := setTable s d i t
    some (setPhysical s d i ((s.dir src).tablesPhysical i))
  else do
    let r ← cloneTable alloc t s
    some (setPhysical (setTable r.2.2 d i r.1) d i (r.2.1 ||| 0x07))

/-- `clone_directory` -/
def cloneDirectory (alloc : Alloc) (src : ℕ) (s : Sys) : Option (ℕ × Sys) := do
  let r ← kmallocAp alloc directorySize s
  let d := r.1
  let s := setPhysicalAddr (memset r.2.2 d directorySize) d (r.2.1 + 0x1000)
  let s ← (List.range 1024).foldlM (cloneEntry alloc src d) s
  some (d,s)

/-! ## The boot -/

/-- The part of `initialise_paging` up to the kernel directory. The bits are 128 words, of which it
allocates and clears 128 bytes. -/
def bootDirectory (s : Sys) : Sys :=
  let nframes := 0x1000000 / 0x1000
  let r := place (nframes / 32) false s
  let s := { r.2 with
    nframes := nframes
    frames := fun i => if i < nframes / 32 / 4 then 0 else s.frames i }
  let r := place directorySize true s
  let s := memset { r.2 with kernelDirectory := r.1 } r.1 directorySize
  setPhysicalAddr s r.1 (r.1 + 0x1000)

/-- The pages of the first heap, and those below 4 MB. -/
def heapPages : List ℕ := (List.range 256).map fun k => kheapStart + k * 0x1000
def lowPages : List ℕ := (List.range 1024).map fun k => k * 0x1000

/-- `create_heap(KHEAP_START, KHEAP_START+KHEAP_INITIAL_SIZE, 0xCFFFF000, 0, 0)`. The start is moved
past the index; the test of its alignment is again one of the lowest bit. -/
def createHeap (s : Sys) : Sys :=
  { (place heapSize false s).2 with
    kheap := true
    startAddress := kheapStart + 4 * heapIndexSize
    endAddress := kheapStart + kheapInitialSize
    maxAddress := 0xCFFFF000 }

/-- `initialise_paging` up to the new heap -/
def bootHeap (alloc : Alloc) (s : Sys) : Option Sys := do
  let s := bootDirectory s
  let s ← heapPages.foldlM
    (fun s a => (getPage alloc a s.kernelDirectory s).map Prod.snd) s
  let s ← lowPages.foldlM (fun s a => allocPage alloc 0 0 s.kernelDirectory s a) s
  let s ← heapPages.foldlM (fun s a => allocPage alloc 0 0 s.kernelDirectory s a) s
  some (createHeap { s with currentDirectory := s.kernelDirectory })

/-- `initialise_paging` -/
def initialisePaging (alloc : Alloc) (s : Sys) : Option Sys := do
  let s ← bootHeap alloc s
  let r ← cloneDirectory alloc s.kernelDirectory s
  some { r.2 with currentDirectory := r.1 }

/-! ## Tasks -/

/-- The task structure that `initialise_tasking` and `fork` fill, and the stack after it. -/
def makeTask (alloc : Alloc) (d : ℕ) (s : Sys) : Option Sys := do
  let r ← kmallocInt alloc taskSize false s
  let s := { r.2 with
    mem := store32 r.2.mem (r.1 + taskDirectory) d
    tasks := r.2.tasks ++ [(r.1,d)] }
  let r ← kmallocInt alloc 2048 true s
  some r.2

/-- The pages of `move_stack((void*)0xE0000000, 0x2000)`. -/
def stackPages : List ℕ := [0xE0000000,0xDFFFF000,0xDFFFE000]

/-- `initialise_tasking`. What `move_stack` copies is not modelled. -/
def initialiseTasking (alloc : Alloc) (s : Sys) : Option Sys :=
  if s.tasks ≠ [] then none
  else do
    let s ← stackPages.foldlM (fun s a => allocPage alloc 0 1 s.currentDirectory s a) s
    makeTask alloc s.currentDirectory s

/-- `fork` -/
def fork (alloc : Alloc) (s : Sys) : Option Sys :=
  if s.tasks = [] then none
  else do
    let r ← cloneDirectory alloc s.currentDirectory s
    makeTask alloc r.1 r.2

/-- `switch_task` to the `k`-th task of the queue -/
def switchTask (k : ℕ) (s : Sys) : Option Sys := do
  let task ← s.tasks[k]?
  some { s with currentDirectory := load32 s.mem (task.1 + taskDirectory) }

/-- A call of `kmalloc` or `kmalloc_a` from elsewhere in the kernel. -/
def kmalloc (alloc : Alloc) (size : ℕ) (align : Bool) (s : Sys) : Option Sys := do
  let r ← kmallocInt alloc size align s
  some { r.2 with data := r.1 :: r.2.data }

/-- `kfree`, with the size that `free` asks `contract` for when it does -/
def kfree (a : ℕ) (newSize : Option ℕ) (s : Sys) : Option Sys :=
  if a ∉ s.data then none
  else
    let s := { s with live := s.live.filter (·.1 ≠ a), data := s.data.filter (· ≠ a) }
    match newSize with
    | none => some s
    | some newSize => contract newSize s

inductive Act
  | cloneDirectory (src : ℕ)
  | initialiseTasking
  | fork
  | switchTask (k : ℕ)
  | kmalloc (size : ℕ) (align : Bool)
  | kfree (a : ℕ) (newSize : Option ℕ)

def act (alloc : Alloc) (s : Sys) : Act → Option Sys
  | .cloneDirectory src =>
    if src = s.kernelDirectory ∨ src = s.currentDirectory ∨ src ∈ s.tasks.map Prod.snd then
      (cloneDirectory alloc src s).map Prod.snd
    else none
  | .initialiseTasking => initialiseTasking alloc s
  | .fork => fork alloc s
  | .switchTask k => switchTask k s
  | .kmalloc size align => kmalloc alloc size align s
  | .kfree a newSize => kfree a newSize s

/-- A call, with the depth its allocations may reach and the holes they will find. -/
structure Call where
  act : Act
  depth : ℕ
  holes : List (Option ℕ)

def step (s : Sys) (c : Call) : Option Sys :=
  act (alloc c.depth) { s with holes := c.holes } c.act

/-- What `initialise_paging` leaves, of a kernel loaded below 4 MB. -/
def Start (s : Sys) : Prop := ∃ boot depth, boot.kheap = false ∧ boot.placementAddress ≤ 0x400000 ∧
  boot.tasks = [] ∧ boot.live = [] ∧ boot.data = [] ∧
  initialisePaging (alloc depth) boot = some s

abbrev Reached : Sys → Prop := Reachable Start (OfFun step)

/-- The frame that a directory maps an address to. -/
def translate (s : Sys) (d address : ℕ) : Option (BitVec 20) :=
  match findPage s address d with
  | some p => if (s.table p.1 p.2).present then some (s.table p.1 p.2).frame else none
  | none => none

/-- A task's directory, or the current one. -/
def Used (s : Sys) (d : ℕ) : Prop :=
  d = s.currentDirectory ∨ ∃ p ∈ s.tasks, d = load32 s.mem (p.1 + taskDirectory)

/-- Every directory in use maps the heap as the kernel's does. -/
def HeapLaw (s : Sys) : Prop := ∀ d, Used s d → ∀ address, kheapStart ≤ address →
  address < s.endAddress → translate s d address = translate s s.kernelDirectory address

/-- Every task structure still holds the directory it was made with. -/
def Intact (s : Sys) : Prop := ∀ p ∈ s.tasks, load32 s.mem (p.1 + taskDirectory) = p.2

end X86OsDev.Tutorial.Directories
