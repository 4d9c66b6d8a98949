import X86OsDev.Lib.Recording
import X86OsDev.Tutorial.OrderedArray

/-! # The slots that the ordered array reads and writes (ordered_array.c)

`max_size` is set when the array is placed and no operation looks at it. A
call is described here by the slots it touches and by the size it leaves, over
whatever the memory holds at that time.
-/
namespace X86OsDev.Tutorial
open Memory Recording

namespace OrderedArray

/-- What the search loops read: `iterator < size` stands before the element is read. -/
def searchSlots (a : OrderedArray) (m : Mem) (p : ℕ → Bool) : List ℕ :=
  List.range (min (a.search m p + 1) a.size)

/-- `insert_ordered_array`: the search, then the slot of the item and each slot
from there up to the one after the last. -/
def insertSlots (a : OrderedArray) (m : Mem) (lessThan : ℕ → ℕ → Bool) (item : ℕ) : List ℕ :=
  let iterator := a.position m lessThan item
  a.searchSlots m (fun x => !lessThan x item) ++
    if iterator = a.size then [a.size] else List.range' iterator (a.size - iterator + 1)

/-- `lookup_ordered_array` -/
def lookupSlots (a : OrderedArray) (i : ℕ) : List ℕ := if i < a.size then [i] else []

/-- `remove_ordered_array`: `array[i] = array[i+1]` for each slot from `i` on. -/
def removeSlots (a : OrderedArray) (i : ℕ) : List ℕ :=
  (List.range' i (a.size - i)).flatMap fun j => [j + 1,j]

/-- A call on the array, with the memory it finds. -/
inductive Access
  | insert (m : Mem) (lessThan : ℕ → ℕ → Bool) (item : ℕ)
  | lookup (i : ℕ)
  | remove (m : Mem) (i : ℕ)

/-- The array after a call. -/
def after (a : OrderedArray) : Access → OrderedArray
  | .insert m lessThan item => (a.insert m lessThan item).2
  | .lookup _ => a
  | .remove m i => (a.remove m i).2

/-- The slots that a call reads or writes. -/
def slots (a : OrderedArray) : Access → List ℕ
  | .insert m lessThan item => a.insertSlots m lessThan item
  | .lookup i => a.lookupSlots i
  | .remove _ i => a.removeSlots i

/-- A call that touches only slots below `max_size` and leaves no more elements than that. -/
def InBounds (a : OrderedArray) (c : Access) : Prop :=
  (∀ i ∈ a.slots c, i < a.maxSize) ∧ (a.after c).size ≤ a.maxSize

/-- An insertion needs a free slot. A removal needs an element, and a free slot
when it moves elements down, since it reads the one after the last. -/
def Room (a : OrderedArray) : Access → Prop
  | .insert _ _ _ => a.size < a.maxSize
  | .lookup _ => True
  | .remove _ i => 0 < a.size ∧ (i < a.size → a.size < a.maxSize)

instance (a : OrderedArray) : DecidablePred a.Room
  | .insert _ _ _ => Nat.decLt _ _
  | .lookup _ => .isTrue trivial
  | .remove _ _ => inferInstanceAs (Decidable (_ ∧ _))

variable {a : OrderedArray}

@[simp] theorem after_maxSize (a : OrderedArray) (c : Access) : (a.after c).maxSize = a.maxSize := by
  cases c with
  | insert m lessThan item => exact insert_maxSize lessThan item
  | lookup i => rfl
  | remove m i => rfl

@[simp] theorem after_array (a : OrderedArray) (c : Access) : (a.after c).array = a.array := by
  cases c with
  | insert m lessThan item => exact insert_array lessThan item
  | lookup i => rfl
  | remove m i => rfl

/-- An insertion touches the slot after the last and none beyond it. -/
theorem insertSlots_lt {m : Mem} {lessThan : ℕ → ℕ → Bool} {item k : ℕ} :
    (∀ i ∈ a.insertSlots m lessThan item, i < k) ↔ a.size < k := by
  have hle := a.position_le m lessThan item
  unfold insertSlots searchSlots
  constructor
  · intro h
    refine h a.size (List.mem_append_right _ ?_)
    split
    · exact List.mem_singleton_self _
    · exact List.mem_range'_1.mpr ⟨hle,by omega⟩
  · intro hk i hi
    rcases List.mem_append.mp hi with hi | hi
    · have := List.mem_range.mp hi
      omega
    · split at hi
      · rwa [List.mem_singleton.mp hi]
      · have := List.mem_range'_1.mp hi
        omega

/-- A removal that moves elements touches the slot after the last and none beyond it. -/
theorem removeSlots_lt {i k : ℕ} : (∀ j ∈ a.removeSlots i, j < k) ↔ (i < a.size → a.size < k) := by
  unfold removeSlots
  constructor
  · intro h hi
    refine h a.size (List.mem_flatMap.mpr ⟨a.size - 1,List.mem_range'_1.mpr ⟨by omega,by omega⟩,?_⟩)
    rw [Nat.sub_add_cancel (by omega)]
    exact List.mem_cons_self
  · intro hk j hj
    obtain ⟨l,hl,hj⟩ := List.mem_flatMap.mp hj
    have := List.mem_range'_1.mp hl
    simp only [List.mem_cons, List.not_mem_nil, or_false] at hj
    omega

theorem lookupSlots_lt {i k : ℕ} (h : a.size ≤ k) : ∀ j ∈ a.lookupSlots i, j < k := by
  intro j hj
  unfold lookupSlots at hj
  split at hj
  · rw [List.mem_singleton.mp hj]
    omega
  · cases hj

/-- One call on an array within its bounds stays there exactly if there is room for it. -/
theorem inBounds_iff (h : a.size ≤ a.maxSize) (hmax : 4 * a.maxSize ≤ 2 ^ 32) (c : Access) :
    a.InBounds c ↔ a.Room c := by
  unfold InBounds
  cases c with
  | insert m lessThan item =>
    simp only [slots, after, Room, insertSlots_lt]
    refine ⟨And.left,fun hlt => ⟨hlt,?_⟩⟩
    rw [insert_size lessThan item (by omega)]
    exact hlt
  | lookup i => exact ⟨fun _ => trivial,fun _ => ⟨lookupSlots_lt h,h⟩⟩
  | remove m i =>
    simp only [slots, after, Room, removeSlots_lt]
    rcases Nat.eq_zero_or_pos a.size with h0 | hpos
    · -- the size wraps to 2^32 - 1
      have hwrap : (a.remove m i).2.size = 2 ^ 32 - 1 := by
        change sub32 a.size 1 = _
        rw [h0]
        rfl
      omega
    · have hsize := a.remove_size m i hpos
      refine ⟨fun hb => ⟨hpos,hb.1⟩,fun hr => ⟨hr.2,?_⟩⟩
      omega

/-- A sequence of calls stays within the bounds exactly if there is room for each of them. -/
theorem along_inBounds_iff {cs : List Access} (h : a.size ≤ a.maxSize) (hmax : 4 * a.maxSize ≤ 2 ^ 32) :
    Along after InBounds a cs ↔ Along after Room a cs := by
  refine along_iff (I := fun b => b.size ≤ b.maxSize ∧ 4 * b.maxSize ≤ 2 ^ 32)
    (fun b c hb => inBounds_iff hb.1 hb.2 c) (fun b c hb hin => ?_) ⟨h,hmax⟩
  rw [after_maxSize]
  exact ⟨hin.2,hb.2⟩

end OrderedArray
end X86OsDev.Tutorial
