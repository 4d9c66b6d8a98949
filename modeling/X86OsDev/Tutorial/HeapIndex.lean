import X86OsDev.Tutorial.HeapLaw
import X86OsDev.Tutorial.OrderedArrayBounds

/-! # The index of the heap (kheap.c)

The heap uses its index through the calls of the ordered array alone. Its
functions are written once more with a record of these calls, also of those made
before an assertion stops the kernel and of those that `get_page` makes when it
has to allocate a page table.
-/
namespace X86OsDev.Tutorial
open Memory Recording Recorded

namespace Heap
open OrderedArray (Access after Room InBounds)

abbrev Calls := Recorded Access

/-- `lookup_ordered_array` for each of the first `n` elements. -/
def lookups (n : ℕ) : List Access := (List.range n).map .lookup

def lookupCalls (h : Heap) (i : ℕ) : Calls ℕ := ⟨[.lookup i],some (h.index.slot h.mem i)⟩

/-- The loops over the index that stop at the first element that meets a test. -/
def searchCalls (h : Heap) (m : Mem) (p : ℕ → Bool) : Calls ℕ :=
  ⟨lookups (min (h.index.search m p + 1) h.index.size),some (h.index.search m p)⟩

def insertIndexCalls (h : Heap) (header : ℕ) : Calls Heap :=
  ⟨[.insert h.mem (headerLessThan h.mem) header],some (h.insertIndex header)⟩

def removeIndexCalls (h : Heap) (i : ℕ) : Calls Heap := ⟨[.remove h.mem i],some (h.removeIndex i)⟩

/-- `get_page` -/
def getPageCalls (kmallocAp : Heap → Calls (Heap × ℕ)) (h : Heap) (address : ℕ) : Calls Heap :=
  let tableIdx := address / 0x1000 / 1024
  if h.tables tableIdx then pure h
  else do
    let (h, table) ← kmallocAp h
    pure { h with
      mem := fill h.mem table 0x1000 0
      tables := fun i => if i = tableIdx then true else h.tables i }

/-- `expand` -/
def expandCalls (kmallocAp : Heap → Calls (Heap × ℕ)) (h : Heap) (newSize : ℕ) : Calls Heap :=
  if newSize ≤ h.length then stop
  else
    let newSize := roundUp newSize
    if h.maxAddress < u32 (h.startAddress + newSize) then stop
    else do
      let pages := (newSize - h.length + 0xFFF) / 0x1000
      let h ← (List.range pages).foldlM
        (fun g k => getPageCalls kmallocAp g (u32 (h.startAddress + h.length + 0x1000 * k))) h
      pure { h with endAddress := u32 (h.startAddress + newSize) }

/-- `find_smallest_hole` -/
def findSmallestHoleCalls (h : Heap) (size : ℕ) (pageAlign : Bool) : Calls (Option ℕ) := do
  let iterator ← h.searchCalls h.mem (fits h.mem size pageAlign)
  pure (if iterator = h.index.size then none else some iterator)

/-- The loop of `alloc` over the whole index. -/
def endmostCalls (h : Heap) : Calls (Option ℕ) := ⟨lookups h.index.size,some (endmost h).1⟩

/-- `alloc` after `expand` -/
def addSpaceCalls (h : Heap) (oldLength oldEndAddress : ℕ) : Calls Heap := do
  let grown := sub32 h.length oldLength
  match ← h.endmostCalls with
  | none =>
    let m := writeHeader h.mem oldEndAddress grown 1
    let m := writeFooter m (sub32 (u32 (oldEndAddress + sizeOf m oldEndAddress)) footerSize)
      oldEndAddress
    { h with mem := m }.insertIndexCalls oldEndAddress
  | some idx =>
    let header ← h.lookupCalls idx
    let m := setSize h.mem header (u32 (sizeOf h.mem header + grown))
    pure { h with mem := writeFooter m (sub32 (u32 (header + sizeOf m header)) footerSize) header }

/-- The block and the hole after it. -/
def writeBlockCalls (h : Heap) (pos holeSize size newSize : ℕ) : Calls (Heap × ℕ) :=
  let m := writeHeader h.mem pos newSize 0
  let m := writeFooter m (u32 (pos + headerSize + size)) pos
  let rest := sub32 holeSize newSize
  if 0 < rest then do
    let hole := u32 (pos + headerSize + size + footerSize)
    let m := writeHeader m hole rest 1
    let footer := sub32 (u32 (hole + rest)) footerSize
    let m := if footer < h.endAddress then writeFooter m footer hole else m
    let g ← { h with mem := m }.insertIndexCalls hole
    pure (g,u32 (pos + headerSize))
  else pure ({ h with mem := m },u32 (pos + headerSize))

/-- `alloc` once a hole is found. -/
def allocAtCalls (h : Heap) (iterator size newSize : ℕ) (pageAlign : Bool) : Calls (Heap × ℕ) := do
  let pos ← h.lookupCalls iterator
  let holeSize := sizeOf h.mem pos
  let absorb := decide (sub32 holeSize newSize < headerSize + footerSize)
  let size := if absorb then u32 (size + sub32 holeSize newSize) else size
  let newSize := if absorb then holeSize else newSize
  if pageAlign ∧ pageDown pos ≠ 0 then
    let front := sub32 (0x1000 - pos % 0x1000) headerSize
    let m := writeHeader h.mem pos front 1
    let newLocation := u32 (pos + front)
    let m := writeFooter m (sub32 newLocation footerSize) pos
    { h with mem := m }.writeBlockCalls newLocation (sub32 holeSize (sizeOf m pos)) size newSize
  else
    let g ← h.removeIndexCalls iterator
    g.writeBlockCalls pos holeSize size newSize

/-- `alloc` -/
def allocCalls : ℕ → Heap → ℕ → Bool → Calls (Heap × ℕ)
  | 0, _, _, _ => stop
  | fuel + 1, h, size, pageAlign => do
    let newSize := u32 (size + headerSize + footerSize)
    match ← h.findSmallestHoleCalls newSize pageAlign with
    | none =>
      let g ← h.expandCalls (fun g => allocCalls fuel g 0x1000 true) (u32 (h.length + newSize))
      let g ← g.addSpaceCalls h.length h.endAddress
      allocCalls fuel g size pageAlign
    | some iterator => h.allocAtCalls iterator size newSize pageAlign

/-- "Unify right" in `free`. -/
def unifyRightCalls (h : Heap) (header footer : ℕ) : Calls (Heap × ℕ) :=
  let testHeader := u32 (footer + footerSize)
  if magicOf h.mem testHeader = heapMagic ∧ isHoleOf h.mem testHeader ≠ 0 then do
    let m := setSize h.mem header (u32 (sizeOf h.mem header + sizeOf h.mem testHeader))
    let footer := sub32 (u32 (testHeader + sizeOf m testHeader)) footerSize
    let iterator ← h.searchCalls m (fun x => x == testHeader)
    if iterator < h.index.size then do
      let g ← { h with mem := m }.removeIndexCalls iterator
      pure (g,footer)
    else stop
  else pure (h,footer)

/-- The end of `free` that gives space back. -/
def shrinkCalls (h : Heap) (header footer testHeader : ℕ) : Calls Heap :=
  if u32 (footer + footerSize) = h.endAddress then
    match h.contract (sub32 header h.startAddress) with
    | none => stop
    | some (g, newLength) =>
      let gone := sub32 h.length newLength
      if 0 < sub32 (sizeOf g.mem header) gone then
        let m := setSize g.mem header (sub32 (sizeOf g.mem header) gone)
        pure { g with mem := writeFooter m (sub32 (u32 (header + sizeOf m header)) footerSize) header }
      else do
        let iterator ← g.searchCalls g.mem (fun x => x == testHeader)
        if iterator < g.index.size then g.removeIndexCalls iterator else pure g
  else pure h

/-- `free` -/
def freeCalls (h : Heap) (p : ℕ) : Calls Heap :=
  if p = 0 then pure h
  else
    let header := sub32 p headerSize
    let footer := sub32 (u32 (header + sizeOf h.mem header)) footerSize
    if magicOf h.mem header = heapMagic ∧ magicOf h.mem footer = heapMagic then do
      let left := unifyLeft (store8 h.mem (header + 4) 1) header footer
      let testHeader := u32 (footer + footerSize)
      let (h, footer) ← { h with mem := left.1 }.unifyRightCalls left.2.1 footer
      let h ← h.shrinkCalls left.2.1 footer testHeader
      if left.2.2 then h.insertIndexCalls left.2.1 else pure h
    else stop

/-- `create_heap` after the index is placed. -/
def createCalls (m : Mem) (tables : ℕ → Bool) (start endAddr max : ℕ) : Calls Heap :=
  if start % 0x1000 = 0 ∧ endAddr % 0x1000 = 0 then
    let placed := OrderedArray.place m start heapIndexSize
    let start := roundUp (u32 (start + 4 * heapIndexSize))
    let h : Heap := ⟨writeHeader placed.1 start (sub32 endAddr start) 1,placed.2,start,endAddr,max,tables⟩
    h.insertIndexCalls start
  else stop

/-! ## Without the record -/

section Results
variable {k : Heap → Calls (Heap × ℕ)} {kmallocAp : Heap → Option (Heap × ℕ)} (h : Heap)

@[simp] theorem insertIndexCalls_result (header : ℕ) :
    (h.insertIndexCalls header).result = some (h.insertIndex header) := rfl

@[simp] theorem removeIndexCalls_result (i : ℕ) : (h.removeIndexCalls i).result = some (h.removeIndex i) := rfl

@[simp] theorem lookupCalls_result (i : ℕ) : (h.lookupCalls i).result = some (h.index.slot h.mem i) := rfl

@[simp] theorem searchCalls_result (m : Mem) (p : ℕ → Bool) :
    (h.searchCalls m p).result = some (h.index.search m p) := rfl

@[simp] theorem endmostCalls_result : h.endmostCalls.result = some (endmost h).1 := rfl

@[simp] theorem findSmallestHoleCalls_result (size : ℕ) (pageAlign : Bool) :
    (h.findSmallestHoleCalls size pageAlign).result = some (h.findSmallestHole size pageAlign) := rfl

theorem getPageCalls_result (hk : ∀ g, (k g).result = kmallocAp g) (address : ℕ) :
    (h.getPageCalls k address).result = h.getPage kmallocAp address := by
  unfold getPageCalls getPage
  dsimp only
  split
  · rfl
  · rw [result_bind, hk]
    rfl

theorem expandCalls_result (hk : ∀ g, (k g).result = kmallocAp g) (newSize : ℕ) :
    (h.expandCalls k newSize).result = h.expand kmallocAp newSize := by
  unfold expandCalls expand
  dsimp only
  split
  · rfl
  · split
    · rfl
    · rw [result_bind, result_foldlM fun g n => getPageCalls_result g hk _]
      rfl

theorem addSpaceCalls_result (oldLength oldEndAddress : ℕ) :
    (h.addSpaceCalls oldLength oldEndAddress).result = some (h.addSpace oldLength oldEndAddress) := by
  unfold addSpaceCalls addSpace
  rw [result_bind, endmostCalls_result, Option.bind_some]
  cases (endmost h).1 <;> rfl

theorem writeBlockCalls_result (pos holeSize size newSize : ℕ) :
    (h.writeBlockCalls pos holeSize size newSize).result = some (h.writeBlock pos holeSize size newSize) := by
  unfold writeBlockCalls writeBlock
  dsimp only
  split <;> rfl

theorem allocAtCalls_result (iterator size newSize : ℕ) (pageAlign : Bool) :
    (h.allocAtCalls iterator size newSize pageAlign).result = some (h.allocAt iterator size newSize pageAlign) := by
  unfold allocAtCalls allocAt
  rw [result_bind, lookupCalls_result, Option.bind_some]
  dsimp only
  split
  · rw [writeBlockCalls_result]
  · rw [result_bind, removeIndexCalls_result, Option.bind_some, writeBlockCalls_result]

theorem allocCalls_result (fuel : ℕ) (h : Heap) (size : ℕ) (pageAlign : Bool) :
    (allocCalls fuel h size pageAlign).result = alloc fuel h size pageAlign := by
  induction fuel generalizing h size pageAlign with
  | zero => rfl
  | succ fuel ih =>
    unfold allocCalls alloc
    rw [result_bind, findSmallestHoleCalls_result, Option.bind_some]
    dsimp only
    cases h.findSmallestHole (u32 (size + headerSize + footerSize)) pageAlign with
    | none =>
      rw [result_bind, expandCalls_result h fun g => ih g _ _]
      refine Option.bind_congr fun g _ => ?_
      rw [result_bind, addSpaceCalls_result, Option.bind_some, ih]
    | some iterator => exact allocAtCalls_result h _ _ _ _

theorem unifyRightCalls_result (header footer : ℕ) :
    (h.unifyRightCalls header footer).result = h.unifyRight header footer := by
  unfold unifyRightCalls unifyRight
  dsimp only
  split
  · rw [result_bind, searchCalls_result, Option.bind_some]
    split <;> rfl
  · rfl

theorem shrinkCalls_result (header footer testHeader : ℕ) :
    (h.shrinkCalls header footer testHeader).result = h.shrink header footer testHeader := by
  unfold shrinkCalls shrink
  split
  · cases h.contract (sub32 header h.startAddress) with
    | none => rfl
    | some r =>
      obtain ⟨g,newLength⟩ := r
      change Recorded.result (if _ then _ else _) = (if _ then _ else _)
      split
      · rfl
      · rw [result_bind, searchCalls_result, Option.bind_some]
        split <;> rfl
  · rfl

theorem freeCalls_result (p : ℕ) : (h.freeCalls p).result = h.free p := by
  unfold freeCalls free
  dsimp only
  split
  · rfl
  · split
    · rw [result_bind, unifyRightCalls_result]
      refine Option.bind_congr fun r _ => ?_
      obtain ⟨g,last⟩ := r
      dsimp only
      rw [result_bind, shrinkCalls_result]
      refine Option.bind_congr fun g _ => ?_
      split <;> rfl
    · rfl

theorem createCalls_result (m : Mem) (tables : ℕ → Bool) (start endAddr max : ℕ) :
    (createCalls m tables start endAddr max).result = create m tables start endAddr max := by
  unfold createCalls create
  split <;> rfl

end Results

/-! ## The index that the calls lead to -/

section Follows
variable {k : Heap → Calls (Heap × ℕ)} {h : Heap}

theorem foldl_lookups (a : OrderedArray) (l : List ℕ) : (l.map Access.lookup).foldl after a = a := by
  induction l with
  | nil => rfl
  | cons i l ih => exact ih

theorem insertIndexCalls_follows (h : Heap) (header : ℕ) :
    (h.insertIndexCalls header).Follows after index h.index := by
  intro g hg
  cases hg
  rfl

theorem removeIndexCalls_follows (h : Heap) (i : ℕ) : (h.removeIndexCalls i).Follows after index h.index := by
  intro g hg
  cases hg
  rfl

theorem lookupCalls_follows (h : Heap) (i : ℕ) : (h.lookupCalls i).Follows after (fun _ => h.index) h.index :=
  fun _ _ => rfl

theorem searchCalls_follows (h : Heap) (m : Mem) (p : ℕ → Bool) :
    (h.searchCalls m p).Follows after (fun _ => h.index) h.index :=
  fun _ _ => (foldl_lookups _ _).symm

theorem endmostCalls_follows (h : Heap) : h.endmostCalls.Follows after (fun _ => h.index) h.index :=
  fun _ _ => (foldl_lookups _ _).symm

theorem findSmallestHoleCalls_follows (h : Heap) (size : ℕ) (pageAlign : Bool) :
    (h.findSmallestHoleCalls size pageAlign).Follows after (fun _ => h.index) h.index :=
  (h.searchCalls_follows _ _).bind fun _ _ => Follows.pure rfl

theorem getPageCalls_follows (hk : ∀ g, (k g).Follows after (fun r => r.1.index) g.index) (address : ℕ) :
    (h.getPageCalls k address).Follows after index h.index := by
  unfold getPageCalls
  dsimp only
  split
  · exact Follows.pure rfl
  · exact (hk h).bind fun _ _ => Follows.pure rfl

theorem expandCalls_follows (hk : ∀ g, (k g).Follows after (fun r => r.1.index) g.index) (newSize : ℕ) :
    (h.expandCalls k newSize).Follows after index h.index := by
  unfold expandCalls
  dsimp only
  split
  · exact Follows.stop
  · split
    · exact Follows.stop
    · exact (Follows.foldlM (fun g n => getPageCalls_follows hk _) _ _).bind fun _ _ => Follows.pure rfl

theorem addSpaceCalls_follows (h : Heap) (oldLength oldEndAddress : ℕ) :
    (h.addSpaceCalls oldLength oldEndAddress).Follows after index h.index := by
  unfold addSpaceCalls
  refine h.endmostCalls_follows.bind fun idx _ => ?_
  cases idx with
  | none => exact insertIndexCalls_follows _ _
  | some idx => exact (h.lookupCalls_follows idx).bind fun _ _ => Follows.pure rfl

theorem writeBlockCalls_follows (h : Heap) (pos holeSize size newSize : ℕ) :
    (h.writeBlockCalls pos holeSize size newSize).Follows after (fun r => r.1.index) h.index := by
  unfold writeBlockCalls
  dsimp only
  split
  · exact (insertIndexCalls_follows _ _).bind fun _ _ => Follows.pure rfl
  · exact Follows.pure rfl

theorem allocAtCalls_follows (h : Heap) (iterator size newSize : ℕ) (pageAlign : Bool) :
    (h.allocAtCalls iterator size newSize pageAlign).Follows after (fun r => r.1.index) h.index := by
  unfold allocAtCalls
  refine (h.lookupCalls_follows iterator).bind fun pos _ => ?_
  dsimp only
  split
  · exact writeBlockCalls_follows _ _ _ _ _
  · exact (removeIndexCalls_follows _ _).bind fun g _ => writeBlockCalls_follows g _ _ _ _

theorem allocCalls_follows (fuel : ℕ) (h : Heap) (size : ℕ) (pageAlign : Bool) :
    (allocCalls fuel h size pageAlign).Follows after (fun r => r.1.index) h.index := by
  induction fuel generalizing h size pageAlign with
  | zero => exact Follows.stop
  | succ fuel ih =>
    unfold allocCalls
    refine (h.findSmallestHoleCalls_follows _ _).bind fun found _ => ?_
    cases found with
    | none =>
      exact (expandCalls_follows (fun g => ih g _ _) _).bind fun g _ =>
        (g.addSpaceCalls_follows _ _).bind fun g _ => ih g _ _
    | some iterator => exact h.allocAtCalls_follows _ _ _ _

theorem unifyRightCalls_follows (h : Heap) (header footer : ℕ) :
    (h.unifyRightCalls header footer).Follows after (fun r => r.1.index) h.index := by
  unfold unifyRightCalls
  dsimp only
  split
  · refine (h.searchCalls_follows _ _).bind fun i _ => ?_
    split
    · exact (removeIndexCalls_follows _ _).bind fun _ _ => Follows.pure rfl
    · exact Follows.stop
  · exact Follows.pure rfl

theorem contract_index {g : Heap} {newSize newLength : ℕ} (hc : h.contract newSize = some (g,newLength)) :
    g.index = h.index := by
  unfold contract at hc
  split at hc
  · cases hc
  · cases hc
    rfl

theorem shrinkCalls_follows (h : Heap) (header footer testHeader : ℕ) :
    (h.shrinkCalls header footer testHeader).Follows after index h.index := by
  unfold shrinkCalls
  split
  · cases hc : h.contract (sub32 header h.startAddress) with
    | none => exact Follows.stop
    | some r =>
      obtain ⟨g,newLength⟩ := r
      dsimp only
      rw [← contract_index hc]
      split
      · exact Follows.pure rfl
      · refine (g.searchCalls_follows _ _).bind fun i _ => ?_
        split
        · exact removeIndexCalls_follows g i
        · exact Follows.pure rfl
  · exact Follows.pure rfl

theorem freeCalls_follows (h : Heap) (p : ℕ) : (h.freeCalls p).Follows after index h.index := by
  unfold freeCalls
  dsimp only
  split
  · exact Follows.pure rfl
  · split
    · refine (unifyRightCalls_follows _ _ _).bind fun r _ => ?_
      refine (shrinkCalls_follows r.1 _ _ _).bind fun g _ => ?_
      split
      · exact insertIndexCalls_follows g _
      · exact Follows.pure rfl
    · exact Follows.stop

theorem createCalls_follows (m : Mem) (tables : ℕ → Bool) (start endAddr max : ℕ) :
    (createCalls m tables start endAddr max).Follows after index (OrderedArray.place m start heapIndexSize).2 := by
  unfold createCalls
  split
  · exact insertIndexCalls_follows _ _
  · exact Follows.stop

end Follows

end Heap
end X86OsDev.Tutorial
