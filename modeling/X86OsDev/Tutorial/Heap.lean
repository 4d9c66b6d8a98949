import X86OsDev.Tutorial.OrderedArray
import X86OsDev.Lib.Transition

/-! # The kernel heap of the tutorial kernel (kheap.c)

Headers, footers and the index of the holes lie in the memory that the heap
manages. The memory is flat: of the paging code only `get_page` takes part,
since a missing page table is itself allocated from the heap. An assertion that
fails stops the kernel and gives `none`.
-/
namespace X86OsDev.Tutorial
open Memory

def kheapStart : ℕ := 0xC0000000
def kheapInitialSize : ℕ := 0x100000
def heapIndexSize : ℕ := 0x20000
def heapMagic : ℕ := 0x123890AB
def heapMinSize : ℕ := 0x70000

/-- `sizeof(header_t)`: magic, is_hole and three bytes of padding, size -/
def headerSize : ℕ := 12
/-- `sizeof(footer_t)`: magic, header -/
def footerSize : ℕ := 8

/-- `header->magic` and `footer->magic` -/
def magicOf (m : Mem) (a : ℕ) : ℕ := load32 m a
def isHoleOf (m : Mem) (header : ℕ) : ℕ := load8 m (header + 4)
def sizeOf (m : Mem) (header : ℕ) : ℕ := load32 m (header + 8)
def headerOf (m : Mem) (footer : ℕ) : ℕ := load32 m (footer + 4)

def setSize (m : Mem) (header size : ℕ) : Mem := store32 m (header + 8) size

def writeHeader (m : Mem) (header size isHole : ℕ) : Mem :=
  store32 (store8 (store32 m header heapMagic) (header + 4) isHole) (header + 8) size

def writeFooter (m : Mem) (footer header : ℕ) : Mem :=
  store32 (store32 m footer heapMagic) (footer + 4) header

/-- `heap_t`, with the memory and with the page tables that `kernel_directory` has -/
structure Heap where
  mem : Mem
  index : OrderedArray
  startAddress : ℕ
  endAddress : ℕ
  maxAddress : ℕ
  tables : ℕ → Bool

/-- `x & 0xFFFFF000` -/
def pageDown (x : ℕ) : ℕ := x / 0x1000 * 0x1000

/-- The rounding in `create_heap` and `expand`. The test `x & 0xFFFFF000 != 0` is
`x & (0xFFFFF000 != 0)`, so only odd sizes are rounded. -/
def roundUp (x : ℕ) : ℕ := if x % 2 = 1 then u32 (pageDown x + 0x1000) else x

namespace Heap

/-- `header_t_less_than` -/
def headerLessThan (m : Mem) (a b : ℕ) : Bool := decide (sizeOf m a < sizeOf m b)

/-- `insert_ordered_array(header, &heap->index)` -/
def insertIndex (h : Heap) (header : ℕ) : Heap :=
  { h with
    mem := (h.index.insert h.mem (headerLessThan h.mem) header).1
    index := (h.index.insert h.mem (headerLessThan h.mem) header).2 }

/-- `remove_ordered_array(i, &heap->index)` -/
def removeIndex (h : Heap) (i : ℕ) : Heap :=
  { h with
    mem := (h.index.remove h.mem i).1
    index := (h.index.remove h.mem i).2 }

/-- `get_page(address, 1, kernel_directory)`: a missing table comes from `kmalloc_ap`. -/
def getPage (kmallocAp : Heap → Option (Heap × ℕ)) (h : Heap) (address : ℕ) : Option Heap :=
  let tableIdx := address / 0x1000 / 1024
  if h.tables tableIdx then some h
  else do
    let (h, table) ← kmallocAp h
    some { h with
      mem := fill h.mem table 0x1000 0
      tables := fun i => if i = tableIdx then true else h.tables i }

/-- `heap->end_address - heap->start_address` -/
def length (h : Heap) : ℕ := sub32 h.endAddress h.startAddress

/-- `expand` -/
def expand (kmallocAp : Heap → Option (Heap × ℕ)) (h : Heap) (newSize : ℕ) : Option Heap :=
  if newSize ≤ h.length then none
  else
    let newSize := roundUp newSize
    if h.maxAddress < u32 (h.startAddress + newSize) then none
    else do
      let pages := (newSize - h.length + 0xFFF) / 0x1000
      let h ← (List.range pages).foldlM
        (fun g k => getPage kmallocAp g (u32 (h.startAddress + h.length + 0x1000 * k))) h
      some { h with endAddress := u32 (h.startAddress + newSize) }

/-- The size that `contract` settles on, which is not a page boundary:
`new_size & 0x1000` looks at one bit and keeps that bit only. -/
def contractSize (newSize : ℕ) : ℕ :=
  let newSize := if newSize / 0x1000 % 2 = 1 then 0x1000 + 0x1000 else newSize
  if newSize < heapMinSize then heapMinSize else newSize

/-- `contract` -/
def contract (h : Heap) (newSize : ℕ) : Option (Heap × ℕ) :=
  if h.length ≤ newSize then none
  else some ({ h with endAddress := u32 (h.startAddress + contractSize newSize) },
    contractSize newSize)

/-- The test in the loop of `find_smallest_hole`. Here too `&` binds weaker than `!=`. -/
def fits (m : Mem) (size : ℕ) (pageAlign : Bool) (header : ℕ) : Bool :=
  if pageAlign then
    let offset : ℤ := if u32 (header + headerSize) % 2 = 1 then
      0x1000 - (u32 (header + headerSize) % 0x1000 : ℕ) else 0
    decide (sint32 size ≤ sint32 (sizeOf m header) - offset)
  else decide (size ≤ sizeOf m header)

/-- `find_smallest_hole`, where `none` stands for -1 -/
def findSmallestHole (h : Heap) (size : ℕ) (pageAlign : Bool) : Option ℕ :=
  let iterator := h.index.search h.mem (fits h.mem size pageAlign)
  if iterator = h.index.size then none else some iterator

/-- `create_heap` -/
def create (m : Mem) (tables : ℕ → Bool) (start endAddr max : ℕ) : Option Heap :=
  if start % 0x1000 = 0 ∧ endAddr % 0x1000 = 0 then
    let placed := OrderedArray.place m start heapIndexSize
    let start := roundUp (u32 (start + 4 * heapIndexSize))
    let h : Heap := ⟨writeHeader placed.1 start (sub32 endAddr start) 1,placed.2,start,endAddr,max,tables⟩
    some (h.insertIndex start)
  else none

/-- The loop of `alloc` that looks for the hole at the highest address: its slot and its address. -/
def endmost (h : Heap) : Option ℕ × ℕ :=
  (List.range h.index.size).foldl
    (fun best i => if best.2 < h.index.slot h.mem i then (some i,h.index.slot h.mem i) else best)
    (none,0)

/-- `alloc` after `expand`: the new space becomes a hole or joins the endmost one. -/
def addSpace (h : Heap) (oldLength oldEndAddress : ℕ) : Heap :=
  let grown := sub32 h.length oldLength
  match (endmost h).1 with
  | none =>
    let m := writeHeader h.mem oldEndAddress grown 1
    let m := writeFooter m (sub32 (u32 (oldEndAddress + sizeOf m oldEndAddress)) footerSize)
      oldEndAddress
    { h with mem := m }.insertIndex oldEndAddress
  | some idx =>
    let header := h.index.slot h.mem idx
    let m := setSize h.mem header (u32 (sizeOf h.mem header + grown))
    { h with mem := writeFooter m (sub32 (u32 (header + sizeOf m header)) footerSize) header }

/-- `alloc` from "Overwrite the original header" on: the block and the hole after it. -/
def writeBlock (h : Heap) (pos holeSize size newSize : ℕ) : Heap × ℕ :=
  let m := writeHeader h.mem pos newSize 0
  let m := writeFooter m (u32 (pos + headerSize + size)) pos
  let rest := sub32 holeSize newSize
  if 0 < rest then
    let hole := u32 (pos + headerSize + size + footerSize)
    let m := writeHeader m hole rest 1
    let footer := sub32 (u32 (hole + rest)) footerSize
    let m := if footer < h.endAddress then writeFooter m footer hole else m
    ({ h with mem := m }.insertIndex hole,u32 (pos + headerSize))
  else ({ h with mem := m },u32 (pos + headerSize))

/-- `alloc` once a hole is found. -/
def allocAt (h : Heap) (iterator size newSize : ℕ) (pageAlign : Bool) : Heap × ℕ :=
  let pos := h.index.slot h.mem iterator
  let holeSize := sizeOf h.mem pos
  let absorb := decide (sub32 holeSize newSize < headerSize + footerSize)
  let size := if absorb then u32 (size + sub32 holeSize newSize) else size
  let newSize := if absorb then holeSize else newSize
  if pageAlign ∧ pageDown pos ≠ 0 then
    let front := sub32 (0x1000 - pos % 0x1000) headerSize
    let m := writeHeader h.mem pos front 1
    let newLocation := u32 (pos + front)
    let m := writeFooter m (sub32 newLocation footerSize) pos
    { h with mem := m }.writeBlock newLocation (sub32 holeSize (sizeOf m pos)) size newSize
  else (h.removeIndex iterator).writeBlock pos holeSize size newSize

/-- `alloc`: the heap after the call and the pointer. The fuel bounds the depth
of the recursion, through `expand` and `get_page` too. -/
def alloc : ℕ → Heap → ℕ → Bool → Option (Heap × ℕ)
  | 0, _, _, _ => none
  | fuel + 1, h, size, pageAlign =>
    let newSize := u32 (size + headerSize + footerSize)
    match h.findSmallestHole newSize pageAlign with
    | none => do
      let g ← h.expand (fun g => alloc fuel g 0x1000 true) (u32 (h.length + newSize))
      alloc fuel (g.addSpace h.length h.endAddress) size pageAlign
    | some iterator => some (h.allocAt iterator size newSize pageAlign)

/-- "Unify left" in `free`: the memory, the header and `do_add`. -/
def unifyLeft (m : Mem) (header footer : ℕ) : Mem × ℕ × Bool :=
  let testFooter := sub32 header footerSize
  if magicOf m testFooter = heapMagic ∧ isHoleOf m (headerOf m testFooter) = 1 then
    let left := headerOf m testFooter
    let cacheSize := sizeOf m header
    let m := store32 m (footer + 4) left
    (setSize m left (u32 (sizeOf m left + cacheSize)),left,false)
  else (m,header,true)

/-- "Unify right" in `free`: the heap and the footer. -/
def unifyRight (h : Heap) (header footer : ℕ) : Option (Heap × ℕ) :=
  let testHeader := u32 (footer + footerSize)
  if magicOf h.mem testHeader = heapMagic ∧ isHoleOf h.mem testHeader ≠ 0 then
    let m := setSize h.mem header (u32 (sizeOf h.mem header + sizeOf h.mem testHeader))
    let footer := sub32 (u32 (testHeader + sizeOf m testHeader)) footerSize
    let iterator := h.index.search m (fun x => x == testHeader)
    if iterator < h.index.size then some ({ h with mem := m }.removeIndex iterator,footer) else none
  else some (h,footer)

/-- The end of `free` that gives space back when the hole is the last one. -/
def shrink (h : Heap) (header footer testHeader : ℕ) : Option Heap :=
  if u32 (footer + footerSize) = h.endAddress then do
    let (g, newLength) ← h.contract (sub32 header h.startAddress)
    let gone := sub32 h.length newLength
    if 0 < sub32 (sizeOf g.mem header) gone then
      let m := setSize g.mem header (sub32 (sizeOf g.mem header) gone)
      some { g with mem := writeFooter m (sub32 (u32 (header + sizeOf m header)) footerSize) header }
    else
      let iterator := g.index.search g.mem (fun x => x == testHeader)
      if iterator < g.index.size then some (g.removeIndex iterator) else some g
  else some h

/-- `free` -/
def free (h : Heap) (p : ℕ) : Option Heap :=
  if p = 0 then some h
  else
    let header := sub32 p headerSize
    let footer := sub32 (u32 (header + sizeOf h.mem header)) footerSize
    if magicOf h.mem header = heapMagic ∧ magicOf h.mem footer = heapMagic then do
      let (m, header, doAdd) := unifyLeft (store8 h.mem (header + 4) 1) header footer
      let testHeader := u32 (footer + footerSize)
      let (h, footer) ← { h with mem := m }.unifyRight header footer
      let h ← h.shrink header footer testHeader
      some (if doAdd then h.insertIndex header else h)
    else none

end Heap

/-! ## Runs of the heap -/

/-- The heap, the pointers handed out with the sizes asked for, and how many calls were made. -/
structure HeapRun where
  heap : Heap
  live : List (ℕ × ℕ)
  calls : ℕ

inductive HeapAction
  | alloc (size : ℕ)
  | free (p : ℕ)
  | write (a : ℕ) (v : UInt8)
  | outside (m : Mem) (tables : ℕ → Bool)

namespace HeapRun

/-- The run starts where `create_heap` is done. -/
def Created (max : ℕ) (s : HeapRun) : Prop :=
  ∃ m tables h, Heap.create m tables kheapStart (kheapStart + kheapInitialSize) max = some h ∧
    s = ⟨h,[],0⟩

/-- The heap that `expand` would make for a request does not reach past `max_address`. -/
def BelowMax (h : Heap) (size : ℕ) : Prop :=
  let newSize := h.length + (size + headerSize + footerSize)
  h.startAddress + (if newSize % 2 = 1 then pageDown newSize + 0x1000 else newSize) ≤ h.maxAddress

/-- The calls, the writes of the clients and what the rest of the kernel does
outside the heap. -/
inductive Step : HeapRun → HeapAction → HeapRun → Prop
  | alloc {s : HeapRun} {size fuel p : ℕ} {h : Heap}
      (hsize : size + headerSize + footerSize < 2 ^ 32)
      (hmax : s.heap.findSmallestHole (size + headerSize + footerSize) false = none →
        BelowMax s.heap size)
      (hcall : s.heap.alloc fuel size false = some (h,p)) :
      Step s (.alloc size) ⟨h,(p,size) :: s.live,s.calls + 1⟩
  | free {s : HeapRun} {p n : ℕ} {h : Heap} (hlive : (p,n) ∈ s.live)
      (hcall : s.heap.free p = some h) :
      Step s (.free p) ⟨h,s.live.erase (p,n),s.calls + 1⟩
  | write {s : HeapRun} {p n a : ℕ} {v : UInt8} (hlive : (p,n) ∈ s.live) (ha : p ≤ a ∧ a < p + n) :
      Step s (.write a v) { s with heap.mem := fun x => if x = a then v else s.heap.mem x }
  | outside {s : HeapRun} {m : Mem} {tables : ℕ → Bool}
      (hm : SameOn m s.heap.mem s.heap.index.array (s.heap.endAddress - s.heap.index.array)) :
      Step s (.outside m tables) { s with heap.mem := m, heap.tables := tables }

end HeapRun
end X86OsDev.Tutorial
