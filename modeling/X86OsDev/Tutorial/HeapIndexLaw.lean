import X86OsDev.Tutorial.HeapAligned
import X86OsDev.Tutorial.HeapIndex

/-! # The ordered array and the index of the heap stay in bounds

An array keeps within its slots exactly in the runs whose insertions find a free
slot and whose removals find an element, and a free slot as well. The index of
the heap is such an array, whatever the memory holds.
-/
namespace X86OsDev.Tutorial
open Memory Tiling Recording Recorded

namespace Heap
open OrderedArray (Access after Room InBounds)

/-- The calls on the heap. The rest of the kernel may leave any memory and any page tables. -/
inductive HeapCall
  | alloc (fuel size : ℕ) (pageAlign : Bool)
  | free (p : ℕ)
  | elsewhere (m : Mem) (tables : ℕ → Bool)

/-- What a call does. -/
def call (h : Heap) : HeapCall → Option Heap
  | .alloc fuel size pageAlign => (alloc fuel h size pageAlign).map (·.1)
  | .free p => h.free p
  | .elsewhere m tables => some { h with mem := m, tables := tables }

/-- The same with a record of its calls on the index. -/
def callCalls (h : Heap) : HeapCall → Calls Heap
  | .alloc fuel size pageAlign => do
    let r ← allocCalls fuel h size pageAlign
    pure r.1
  | .free p => h.freeCalls p
  | .elsewhere m tables => pure { h with mem := m, tables := tables }

/-- `create_heap` as `initialise_paging` calls it, and calls on that heap. -/
def run (m : Mem) (tables : ℕ → Bool) (max : ℕ) (cs : List HeapCall) : Option Heap := do
  let h ← create m tables kheapStart (kheapStart + kheapInitialSize) max
  cs.foldlM call h

def runCalls (m : Mem) (tables : ℕ → Bool) (max : ℕ) (cs : List HeapCall) : Calls Heap := do
  let h ← createCalls m tables kheapStart (kheapStart + kheapInitialSize) max
  cs.foldlM callCalls h

theorem callCalls_result (h : Heap) (c : HeapCall) : (h.callCalls c).result = h.call c := by
  cases c with
  | alloc fuel size pageAlign =>
    change Recorded.result (_ >>= _) = (alloc fuel h size pageAlign).map _
    rw [result_bind, allocCalls_result, Option.map_eq_bind]
    rfl
  | free p => exact h.freeCalls_result p
  | elsewhere m tables => rfl

theorem callCalls_follows (h : Heap) (c : HeapCall) : (h.callCalls c).Follows after index h.index := by
  cases c with
  | alloc fuel size pageAlign => exact (allocCalls_follows fuel h size pageAlign).bind fun _ _ => Follows.pure rfl
  | free p => exact h.freeCalls_follows p
  | elsewhere m tables => exact Follows.pure rfl

theorem runCalls_result (m : Mem) (tables : ℕ → Bool) (max : ℕ) (cs : List HeapCall) :
    (runCalls m tables max cs).result = run m tables max cs := by
  unfold runCalls run
  rw [result_bind, createCalls_result]
  exact Option.bind_congr fun h _ => result_foldlM callCalls_result cs h

/-- Every run of the heap leaves the index that the recorded calls lead to. -/
theorem runCalls_follows (m : Mem) (tables : ℕ → Bool) (max : ℕ) (cs : List HeapCall) :
    (runCalls m tables max cs).Follows after index (OrderedArray.place m kheapStart heapIndexSize).2 :=
  (createCalls_follows _ _ _ _ _).bind fun h _ => Follows.foldlM callCalls_follows cs h

/-! ## Calls that need one free slot -/

section Rooms
variable {h : Heap}

/-- The index has a free slot. -/
def Slack (h : Heap) : Prop := h.index.size < h.index.maxSize

theorem room_lookups (a : OrderedArray) (l : List ℕ) : Along after Room a (l.map Access.lookup) := by
  induction l with
  | nil => trivial
  | cons i l ih => exact ⟨trivial,ih⟩

theorem insertIndexCalls_room (hs : h.Slack) (header : ℕ) :
    (h.insertIndexCalls header).Obeys after Room h.index := ⟨hs,trivial⟩

theorem removeIndexCalls_room (hs : h.Slack) {i : ℕ} (hi : i < h.index.size) :
    (h.removeIndexCalls i).Obeys after Room h.index := ⟨⟨by omega,fun _ => hs⟩,trivial⟩

theorem searchCalls_room (h : Heap) (m : Mem) (p : ℕ → Bool) : (h.searchCalls m p).Obeys after Room h.index :=
  room_lookups _ _

theorem Slack.removeIndex (hs : h.Slack) {i : ℕ} (hi : i < h.index.size) : (h.removeIndex i).Slack :=
  (removeIndex_size_lt hi).trans hs

theorem writeBlockCalls_room (hs : h.Slack) (pos holeSize size newSize : ℕ) :
    (h.writeBlockCalls pos holeSize size newSize).Obeys after Room h.index := by
  unfold writeBlockCalls
  dsimp only
  split
  · refine .bind (insertIndexCalls_room ?_ _) (insertIndexCalls_follows _ _) fun _ _ => .pure
    exact hs
  · trivial

theorem allocAtCalls_room (hs : h.Slack) {i : ℕ} (hi : i < h.index.size) (size newSize : ℕ) (pageAlign : Bool) :
    (h.allocAtCalls i size newSize pageAlign).Obeys after Room h.index := by
  unfold allocAtCalls
  have hlookup : (h.lookupCalls i).Obeys after Room h.index := ⟨trivial,trivial⟩
  refine hlookup.bind (h.lookupCalls_follows i) fun pos _ => ?_
  dsimp only
  split
  · exact writeBlockCalls_room (by exact hs) _ _ _ _
  · refine (removeIndexCalls_room hs hi).bind (h.removeIndexCalls_follows i) fun g hg => ?_
    cases hg
    exact writeBlockCalls_room (hs.removeIndex hi) _ _ _ _

/-- An `alloc` that finds a hole. -/
theorem allocCalls_room (hs : h.Slack) {size i : ℕ} {pageAlign : Bool}
    (hf : h.findSmallestHole (u32 (size + headerSize + footerSize)) pageAlign = some i) (fuel : ℕ) :
    (allocCalls (fuel + 1) h size pageAlign).Obeys after Room h.index := by
  have hfind : (h.findSmallestHoleCalls (u32 (size + headerSize + footerSize)) pageAlign).Obeys after Room h.index :=
    (h.searchCalls_room _ _).bind (h.searchCalls_follows _ _) fun _ _ => .pure
  unfold allocCalls
  refine hfind.bind (h.findSmallestHoleCalls_follows _ _) fun found hfound => ?_
  rw [findSmallestHoleCalls_result, hf] at hfound
  cases hfound
  exact allocAtCalls_room hs (findSmallestHole_lt hf) _ _ _

theorem unifyRightCalls_room (hs : h.Slack) (header footer : ℕ) :
    (h.unifyRightCalls header footer).Obeys after Room h.index ∧
    ∀ r, (h.unifyRightCalls header footer).result = some r → r.1.Slack := by
  unfold unifyRightCalls
  dsimp only
  split
  · refine ⟨(h.searchCalls_room _ _).bind (h.searchCalls_follows _ _) fun i _ => ?_,fun r hr => ?_⟩
    · split
      · rename_i hi
        refine .bind (removeIndexCalls_room ?_ hi) (removeIndexCalls_follows _ i) fun _ _ => .pure
        exact hs
      · trivial
    · rw [result_bind, searchCalls_result, Option.bind_some] at hr
      split at hr
      · rename_i hi
        cases hr
        exact (removeIndex_size_lt hi).trans hs
      · cases hr
  · refine ⟨trivial,fun r hr => ?_⟩
    cases hr
    exact hs

theorem shrinkCalls_room (hs : h.Slack) (header footer testHeader : ℕ) :
    (h.shrinkCalls header footer testHeader).Obeys after Room h.index ∧
    ∀ g, (h.shrinkCalls header footer testHeader).result = some g → g.Slack := by
  unfold shrinkCalls
  split
  · cases hc : h.contract (sub32 header h.startAddress) with
    | none => exact ⟨trivial,fun g hg => by cases hg⟩
    | some r =>
      obtain ⟨g,newLength⟩ := r
      have hg : g.Slack := by
        unfold Slack
        rwa [contract_index hc]
      dsimp only
      rw [← contract_index hc]
      split
      · refine ⟨trivial,fun g' hg' => ?_⟩
        cases hg'
        exact hg
      · refine ⟨(g.searchCalls_room _ _).bind (g.searchCalls_follows _ _) fun i _ => ?_,fun g' hg' => ?_⟩
        · split
          · rename_i hi
            exact removeIndexCalls_room hg hi
          · trivial
        · rw [result_bind, searchCalls_result, Option.bind_some] at hg'
          split at hg'
          · rename_i hi
            cases hg'
            exact hg.removeIndex hi
          · cases hg'
            exact hg
  · refine ⟨trivial,fun g hg => ?_⟩
    cases hg
    exact hs

theorem freeCalls_room (hs : h.Slack) (p : ℕ) : (h.freeCalls p).Obeys after Room h.index := by
  unfold freeCalls
  dsimp only
  split
  · trivial
  · split
    · have hright := fun m header footer => unifyRightCalls_room (h := { h with mem := m }) hs header footer
      refine (hright _ _ _).1.bind (unifyRightCalls_follows _ _ _) fun r hr => ?_
      obtain ⟨hroom,hslack⟩ := shrinkCalls_room ((hright _ _ _).2 r hr) _ _ _
      refine hroom.bind (shrinkCalls_follows r.1 _ _ _) fun g hg => ?_
      split
      · exact insertIndexCalls_room (hslack g hg) _
      · trivial
    · trivial

end Rooms
end Heap

/-- The index of a tiled heap is short: each element is a hole of at least twenty bytes. -/
theorem HeapRun.Law.index_le {s : HeapRun} (h : s.Law) :
    20 * s.heap.index.size ≤ s.heap.endAddress - s.heap.startAddress := by
  obtain ⟨ts,htiles,hindex,-⟩ := h
  have hlen := htiles.length_le fun t (ht : Formed s.heap.mem t) => ht.head.fit
  have hholes : (holes ts).length ≤ ts.length := by
    unfold holes
    rw [List.length_map]
    exact List.length_filter_le _ _
  have hsize := hindex.length_eq
  rw [OrderedArray.length_entries] at hsize
  omega

namespace OrderedArray
open Heap (HeapCall Slack call create run runCalls freeCalls allocCalls findSmallestHole)

/-- The ordered array stays within its slots if and only if there is room for each call. The index
of the heap lies right below the first block, and it is used by such calls only; a call of
`free`, and one of `alloc` that finds a hole, needs one free slot. -/
theorem stays_in_bounds (m : Mem) (addr maxSize : ℕ) (hmax : 4 * maxSize ≤ 2 ^ 32) (cs : List Access)
    (tables : ℕ → Bool) (maxAddress : ℕ) (hs : List HeapCall) :
    ((place m addr maxSize).2.size ≤ maxSize ∧
      (Along after InBounds (place m addr maxSize).2 cs ↔ Along after Room (place m addr maxSize).2 cs)) ∧
    ((∀ h, create m tables kheapStart (kheapStart + kheapInitialSize) maxAddress = some h →
        h.index.array = kheapStart ∧ h.startAddress = kheapStart + 4 * heapIndexSize) ∧
      (∀ h, run m tables maxAddress hs = some h →
        h.index = (runCalls m tables maxAddress hs).calls.foldl after (place m kheapStart heapIndexSize).2) ∧
      (Along after InBounds (place m kheapStart heapIndexSize).2 (runCalls m tables maxAddress hs).calls ↔
        Along after Room (place m kheapStart heapIndexSize).2 (runCalls m tables maxAddress hs).calls)) ∧
    ∀ h : Heap, h.Slack →
      (∀ p, Along after Room h.index (h.freeCalls p).calls) ∧
      ∀ fuel size pageAlign, h.findSmallestHole (u32 (size + headerSize + footerSize)) pageAlign ≠ none →
        Along after Room h.index (allocCalls fuel h size pageAlign).calls := by
  refine ⟨⟨Nat.zero_le _,along_inBounds_iff (Nat.zero_le _) hmax⟩,
    ⟨fun h hc => ?_,fun h hr => ?_,along_inBounds_iff (Nat.zero_le _) (show 4 * heapIndexSize ≤ 2 ^ 32 by decide)⟩,
    fun h hs => ⟨Heap.freeCalls_room hs,fun fuel size pageAlign hf => ?_⟩⟩
  · rw [create, if_pos (by decide)] at hc
    cases hc
    exact ⟨insert_array _ _,show roundUp (u32 (kheapStart + 4 * heapIndexSize)) = _ by decide⟩
  · exact Heap.runCalls_follows m tables maxAddress hs h ((Heap.runCalls_result m tables maxAddress hs).trans hr)
  · cases fuel with
    | zero => trivial
    | succ fuel =>
      obtain ⟨i,hi⟩ := Option.ne_none_iff_exists'.mp hf
      exact Heap.allocCalls_room hs hi fuel

/-- One insertion and one removal in an array of two slots. -/
theorem two_slots_in_bounds :
    Along after InBounds (place (fun _ => 0) 0x1000 2).2
      [.insert (fun _ => 0) (fun x y => decide (x < y)) 5,.remove (fun _ => 0) 0] :=
  (stays_in_bounds (fun _ => 0) 0x1000 2 (by decide) _ (fun _ => true) 0 []).1.2.mpr
    ⟨by decide,by decide,trivial⟩

/-- An array of one slot after one insertion. -/
def oneSlot : Mem × OrderedArray :=
  (place (fun _ => 0) 0x1000 1).2.insert (place (fun _ => 0) 0x1000 1).1 (fun x y => decide (x < y)) 5

/-- The second insertion writes behind the only slot. -/
theorem second_insert_overruns :
    ¬ ∀ (m : Mem) (addr max : ℕ) (cs : List Access), 4 * max ≤ 2 ^ 32 →
      Along after InBounds (place m addr max).2 cs := by
  intro h
  have hrun := h (fun _ => 0) 0x1000 1 [.insert (place (fun _ => 0) 0x1000 1).1 (fun x y => decide (x < y)) 5,
    .insert oneSlot.1 (fun x y => decide (x < y)) 7] (by decide)
  have hslot : (1 : ℕ) ∈ oneSlot.2.slots (.insert oneSlot.1 (fun x y => decide (x < y)) 7) := by decide +kernel
  exact absurd (hrun.2.1.1 1 hslot) (by decide +kernel)

end OrderedArray
end X86OsDev.Tutorial
