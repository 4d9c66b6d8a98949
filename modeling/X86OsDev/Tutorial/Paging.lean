import X86OsDev.Tutorial.Heap
import X86OsDev.Tutorial.Frames

/-! # get_page and the heap that it allocates from (paging.c, kheap.c)

Directories, page tables and the heap lie in one flat memory. A page table that
is missing comes from `kmalloc_ap`, whose heap may have to grow, and growing goes
through `get_page` again. `none` is an assertion that fails, a read through the
null pointer or a recursion deeper than the fuel.
-/
namespace X86OsDev.Tutorial.Paging
open Memory
open Frames (Bits allocFrame)

/-- The fields of a `page_t` -/
def pageOf (w : ℕ) : Page :=
  ⟨w.testBit 0,w.testBit 1,w.testBit 2,w.testBit 3,w.testBit 4,BitVec.ofNat 20 (w / 0x1000)⟩

/-- The field `unused` of a `page_t` -/
def unusedOf (w : ℕ) : ℕ := w / 32 % 128

/-- A `page_t` with these fields -/
def wordOf (p : Page) (unused : ℕ) : ℕ :=
  p.present.toNat + 2 * p.rw.toNat + 4 * p.user.toNat + 8 * p.accessed.toNat + 16 * p.dirty.toNat + 32 * unused +
    0x1000 * p.frame.toNat

/-- The kernel. The memory is that of the heap structure; its field `tables` plays no part, since the
tables are read from memory. -/
structure Kernel where
  heap : Heap
  /-- `kheap` is not null -/
  kheap : Bool
  /-- `kheap->supervisor` and `kheap->readonly` -/
  supervisor : ℕ
  readonly : ℕ
  placementAddress : ℕ
  kernelDirectory : ℕ
  frames : Bits
  nframes : ℕ
  /-- what a call of `first_frame` without a return value gives -/
  junk : BitVec 32

/-- The type of `alloc`. -/
abbrev Alloc := ℕ → Bool → Kernel → Option (Kernel × ℕ)

/-- The addresses that the loop of `expand` goes through -/
def expandPages (h : Heap) (newSize : ℕ) : List ℕ :=
  (List.range ((newSize - h.length + 0xFFF) / 0x1000)).map fun k => u32 (h.startAddress + h.length + 0x1000 * k)

namespace Kernel

/-- `dir->tables[i]` -/
def tables (s : Kernel) (dir i : ℕ) : ℕ := load32 s.heap.mem (dir + 4 * i)

/-- `dir->tablesPhysical[i]` -/
def tablesPhysical (s : Kernel) (dir i : ℕ) : ℕ := load32 s.heap.mem (dir + 0x1000 + 4 * i)

/-- The page entry at an address. -/
def page (s : Kernel) (p : ℕ) : Page := pageOf (load32 s.heap.mem p)

/-- `alloc_frame` -/
def allocFrameAt (s : Kernel) (p : ℕ) (isKernel isWriteable : ℤ) : Kernel :=
  if (s.page p).frame ≠ 0 then s
  else
    let r := allocFrame s.frames s.nframes (s.page p) isKernel isWriteable s.junk
    { s with
      heap.mem := store32 s.heap.mem p (wordOf r.2 (unusedOf (load32 s.heap.mem p)))
      frames := r.1 }

/-- `get_page(address, 0, dir)`; `none` is the null pointer. -/
def findPage (s : Kernel) (address dir : ℕ) : Option ℕ :=
  let address := address / 0x1000
  let tableIdx := address / 1024
  if s.tables dir tableIdx ≠ 0 then some (s.tables dir tableIdx + 4 * (address % 1024)) else none

/-- `kmalloc_int` before there is a heap -/
def place (s : Kernel) (sz : ℕ) (align : Bool) : Kernel × ℕ :=
  let p := s.placementAddress
  let p := if align = true ∧ pageDown p ≠ 0 then u32 (pageDown p + 0x1000) else p
  ({ s with placementAddress := u32 (p + sz) },p)

/-- `kmalloc_int` with `phys`: the kernel after the call, the address and the physical address. -/
def kmallocInt (alloc : Alloc) (sz : ℕ) (align : Bool) (s : Kernel) : Option (Kernel × ℕ × ℕ) :=
  if s.kheap then do
    let r ← alloc sz align s
    let page ← r.1.findPage r.2 r.1.kernelDirectory
    some (r.1,r.2,u32 ((r.1.page page).frame.toNat * 0x1000 + r.2 % 0x1000))
  else some ((s.place sz align).1,(s.place sz align).2,(s.place sz align).2)

/-- `kmalloc_ap` -/
def kmallocAp (alloc : Alloc) (sz : ℕ) (s : Kernel) : Option (Kernel × ℕ × ℕ) := kmallocInt alloc sz true s

/-- `get_page(address, 1, dir)`: the kernel after the call and the entry. -/
def getPage (alloc : Alloc) (address dir : ℕ) (s : Kernel) : Option (Kernel × ℕ) :=
  match s.findPage address dir with
  | some p => some (s,p)
  | none => do
    let tableIdx := address / 0x1000 / 1024
    let r ← kmallocAp alloc 0x1000 s
    let m := store32 r.1.heap.mem (dir + 4 * tableIdx) r.2.1
    let m := fill m (load32 m (dir + 4 * tableIdx)) 0x1000 0
    let m := store32 m (dir + 0x1000 + 4 * tableIdx) (r.2.2 ||| 0x7)
    some ({ r.1 with heap.mem := m },load32 m (dir + 4 * tableIdx) + 4 * (address / 0x1000 % 1024))

/-- A round of the loop of `expand` -/
def expandPage (alloc : Alloc) (s : Kernel) (address : ℕ) : Option Kernel := do
  let r ← getPage alloc address s.kernelDirectory s
  some (r.1.allocFrameAt r.2 (if s.supervisor ≠ 0 then 1 else 0) (if s.readonly ≠ 0 then 0 else 1))

/-- `expand` -/
def expand (alloc : Alloc) (newSize : ℕ) (s : Kernel) : Option Kernel :=
  if newSize ≤ s.heap.length then none
  else
    let newSize := roundUp newSize
    if s.heap.maxAddress < u32 (s.heap.startAddress + newSize) then none
    else do
      let s ← (expandPages s.heap newSize).foldlM (expandPage alloc) s
      some { s with heap.endAddress := u32 (s.heap.startAddress + newSize) }

/-- `alloc`. The fuel bounds the depth of the recursion, through `expand` and `get_page` too. -/
def alloc : ℕ → Alloc
  | 0, _, _, _ => none
  | fuel + 1, size, pageAlign, s =>
    let newSize := u32 (size + headerSize + footerSize)
    match s.heap.findSmallestHole newSize pageAlign with
    | none => do
      let t ← s.expand (alloc fuel) (u32 (s.heap.length + newSize))
      alloc fuel size pageAlign { t with heap := t.heap.addSpace s.heap.length s.heap.endAddress }
    | some iterator =>
      let r := s.heap.allocAt iterator size newSize pageAlign
      some ({ s with heap := r.1 },r.2)

/-- Where the bytes of an address are: `kernel_directory` maps it once there is a heap, and before that
memory is mapped to itself. -/
def physical (s : Kernel) (a : ℕ) : Option ℕ :=
  if s.kheap then do
    let p ← s.findPage a s.kernelDirectory
    if (s.page p).present then some ((s.page p).frame.toNat * 0x1000 + a % 0x1000) else none
  else some a

end Kernel
end X86OsDev.Tutorial.Paging
