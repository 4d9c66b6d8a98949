import Mathlib.Data.List.Basic
import Mathlib.Data.List.Perm.Basic
import X86OsDev.Lib.Memory

/-! # The ordered array (ordered_array.c)

The elements are 32 bit words that lie in memory from `array` on. The loops of
the source become searches and folds over ranges of slot numbers, and each
operation is described by what it does to the list of the elements.
-/
namespace X86OsDev.Tutorial
open Memory

/-- `ordered_array_t`, less its predicate -/
structure OrderedArray where
  array : ℕ
  size : ℕ
  maxSize : ℕ

namespace OrderedArray

/-- `array[i]` -/
def slot (a : OrderedArray) (m : Mem) (i : ℕ) : ℕ := load32 m (a.array + 4 * i)

def setSlot (a : OrderedArray) (m : Mem) (i v : ℕ) : Mem := store32 m (a.array + 4 * i) v

/-- The elements in their order. -/
def entries (a : OrderedArray) (m : Mem) : List ℕ := (List.range a.size).map (a.slot m)

/-- The first slot that meets a test, or `size` when the loop ran to the end. -/
def search (a : OrderedArray) (m : Mem) (p : ℕ → Bool) : ℕ :=
  ((List.range a.size).find? (fun i => p (a.slot m i))).getD a.size

/-- `place_ordered_array` -/
def place (m : Mem) (addr maxSize : ℕ) : Mem × OrderedArray :=
  (fill m addr (maxSize * 4) 0, ⟨addr,0,maxSize⟩)

/-- The second loop of `insert_ordered_array`: the word `tmp` goes to slot `j`
and each of the `n` words from there on one slot up. -/
def shiftUp (a : OrderedArray) (m : Mem) (tmp j : ℕ) : ℕ → Mem
  | 0 => m
  | n + 1 => a.shiftUp (a.setSlot m j tmp) (a.slot m j) (j + 1) n

/-- `insert_ordered_array` -/
def insert (a : OrderedArray) (m : Mem) (lessThan : ℕ → ℕ → Bool) (item : ℕ) : Mem × OrderedArray :=
  let iterator := a.search m (fun x => !lessThan x item)
  if iterator = a.size then
    (a.setSlot m a.size item, { a with size := u32 (a.size + 1) })
  else
    (a.shiftUp (a.setSlot m iterator item) (a.slot m iterator) (iterator + 1) (a.size - iterator),
      { a with size := u32 (a.size + 1) })

/-- `lookup_ordered_array`, where the assertion gives `none` -/
def lookup (a : OrderedArray) (m : Mem) (i : ℕ) : Option ℕ :=
  if i < a.size then some (a.slot m i) else none

/-- The loop of `remove_ordered_array`. -/
def shiftDown (a : OrderedArray) (m : Mem) (i : ℕ) : ℕ → Mem
  | 0 => m
  | n + 1 => a.shiftDown (a.setSlot m i (a.slot m (i + 1))) (i + 1) n

/-- `remove_ordered_array` -/
def remove (a : OrderedArray) (m : Mem) (i : ℕ) : Mem × OrderedArray :=
  (a.shiftDown m i (a.size - i), { a with size := sub32 a.size 1 })

variable {a : OrderedArray} {m m' : Mem}

theorem slot_setSlot (a : OrderedArray) (m : Mem) (i j : ℕ) {v : ℕ} (hv : v < 2 ^ 32) :
    a.slot (a.setSlot m i v) j = if j = i then v else a.slot m j := by
  unfold slot setSlot
  split
  · subst j
    rw [load32_store32, Nat.mod_eq_of_lt hv]
  · exact load32_store32_of_apart m v (by unfold Apart; omega)

theorem slot_lt (a : OrderedArray) (m : Mem) (i : ℕ) : a.slot m i < 2 ^ 32 := load32_lt _ _

theorem setSlot_sameOn (a : OrderedArray) (m : Mem) {i v b k : ℕ}
    (h : Apart (a.array + 4 * i) 4 b k) : SameOn (a.setSlot m i v) m b k := store32_sameOn m v h

theorem slot_shiftUp (a : OrderedArray) (n : ℕ) :
    ∀ (m : Mem) (tmp j i : ℕ), tmp < 2 ^ 32 → a.slot (a.shiftUp m tmp j n) i =
      if j ≤ i ∧ i < j + n then (if i = j then tmp else a.slot m (i - 1)) else a.slot m i := by
  induction n with
  | zero =>
    intro m tmp j i _
    rw [if_neg (by omega)]
    rfl
  | succ n ih =>
    intro m tmp j i htmp
    rw [shiftUp, ih _ _ _ _ (slot_lt a m j), slot_setSlot a m j i htmp, slot_setSlot a m j _ htmp]
    split_ifs <;> first | rfl | omega | (congr 1; omega)

theorem slot_shiftDown (a : OrderedArray) (n : ℕ) :
    ∀ (m : Mem) (j i : ℕ), a.slot (a.shiftDown m j n) i =
      if j ≤ i ∧ i < j + n then a.slot m (i + 1) else a.slot m i := by
  induction n with
  | zero =>
    intro m j i
    rw [if_neg (by omega)]
    rfl
  | succ n ih =>
    intro m j i
    have hlt := slot_lt a m (j + 1)
    rw [shiftDown, ih, slot_setSlot a m j _ hlt, slot_setSlot a m j _ hlt]
    split_ifs <;> first | rfl | omega | (subst i; rfl)

theorem shiftUp_sameOn (a : OrderedArray) (n : ℕ) {b k : ℕ} :
    ∀ (m : Mem) (tmp j : ℕ), Apart (a.array + 4 * j) (4 * n) b k →
      SameOn (a.shiftUp m tmp j n) m b k := by
  induction n with
  | zero => intro m tmp j _ x _ _; rfl
  | succ n ih =>
    intro m tmp j h x h1 h2
    unfold Apart at h
    rw [shiftUp, ih _ _ _ (by unfold Apart; omega) x h1 h2]
    exact setSlot_sameOn a m (by unfold Apart; omega) x h1 h2

theorem shiftDown_sameOn (a : OrderedArray) (n : ℕ) {b k : ℕ} :
    ∀ (m : Mem) (j : ℕ), Apart (a.array + 4 * j) (4 * n) b k → SameOn (a.shiftDown m j n) m b k := by
  induction n with
  | zero => intro m j _ x _ _; rfl
  | succ n ih =>
    intro m j h x h1 h2
    unfold Apart at h
    rw [shiftDown, ih _ _ (by unfold Apart; omega) x h1 h2]
    exact setSlot_sameOn a m (by unfold Apart; omega) x h1 h2

theorem search_le (a : OrderedArray) (m : Mem) (p : ℕ → Bool) : a.search m p ≤ a.size := by
  unfold search
  cases h : (List.range a.size).find? (fun i => p (a.slot m i)) with
  | none => simp
  | some i => exact (List.mem_range.mp (List.mem_of_find?_eq_some h)).le

theorem search_spec (a : OrderedArray) (m : Mem) (p : ℕ → Bool) (h : a.search m p < a.size) :
    p (a.slot m (a.search m p)) = true := by
  unfold search at *
  cases hf : (List.range a.size).find? (fun i => p (a.slot m i)) with
  | none =>
    rw [hf] at h
    simp at h
  | some i => simpa using List.find?_some hf

theorem search_eq_size (a : OrderedArray) (m : Mem) (p : ℕ → Bool) (h : a.search m p = a.size) :
    ∀ i < a.size, p (a.slot m i) = false := by
  unfold search at h
  cases hf : (List.range a.size).find? (fun i => p (a.slot m i)) with
  | none =>
    intro i hi
    have := List.find?_eq_none.mp hf i (List.mem_range.mpr hi)
    simpa using this
  | some i =>
    rw [hf] at h
    have := List.mem_range.mp (List.mem_of_find?_eq_some hf)
    simp only [Option.getD_some] at h
    omega

/-- A slot that meets the test is found, or one before it. -/
theorem search_lt (a : OrderedArray) {m : Mem} {p : ℕ → Bool} {i : ℕ} (hi : i < a.size) (h : p (a.slot m i) = true) :
    a.search m p < a.size := by
  refine lt_of_le_of_ne (a.search_le m p) fun heq => ?_
  have hno := a.search_eq_size m p heq i hi
  rw [h] at hno
  cases hno

@[simp] theorem length_entries (a : OrderedArray) (m : Mem) : (a.entries m).length = a.size := by
  simp [entries]

@[simp] theorem getElem_entries (a : OrderedArray) (m : Mem) (i : ℕ) (h : i < (a.entries m).length) :
    (a.entries m)[i] = a.slot m i := by simp [entries]

theorem mem_entries {x : ℕ} : x ∈ a.entries m ↔ ∃ i < a.size, a.slot m i = x := by
  simp [entries]

theorem entries_congr (h : SameOn m m' a.array (4 * a.size)) : a.entries m = a.entries m' := by
  refine List.map_congr_left fun i hi => ?_
  have := List.mem_range.mp hi
  exact load32_congr (h.mono (by omega) (by omega))

/-- The slot that `insert` gives to the item. -/
def position (a : OrderedArray) (m : Mem) (lessThan : ℕ → ℕ → Bool) (item : ℕ) : ℕ :=
  a.search m (fun x => !lessThan x item)

theorem position_le (a : OrderedArray) (m : Mem) (lessThan : ℕ → ℕ → Bool) (item : ℕ) :
    a.position m lessThan item ≤ a.size := a.search_le m _

/-- What `insert` leaves in each slot. -/
theorem slot_insert (a : OrderedArray) (m : Mem) (lessThan : ℕ → ℕ → Bool) {item : ℕ}
    (hitem : item < 2 ^ 32) (i : ℕ) :
    a.slot (a.insert m lessThan item).1 i =
      if i < a.position m lessThan item then a.slot m i
      else if i = a.position m lessThan item then item
      else if i ≤ a.size then a.slot m (i - 1) else a.slot m i := by
  have hle := a.search_le m (fun x => !lessThan x item)
  unfold position
  simp only [insert]
  split
  · rename_i h
    rw [slot_setSlot a m _ _ hitem, h]
    split_ifs <;> first | rfl | omega
  · rename_i h
    rw [slot_shiftUp a _ _ _ _ _ (slot_lt a m _), slot_setSlot a m _ _ hitem,
      slot_setSlot a m _ _ hitem]
    split_ifs <;> first | rfl | omega | (congr 1; omega)

theorem insert_sameOn (a : OrderedArray) (m : Mem) (lessThan : ℕ → ℕ → Bool) (item : ℕ) {b k : ℕ}
    (h : Apart a.array (4 * (a.size + 1)) b k) :
    SameOn (a.insert m lessThan item).1 m b k := by
  have hle := a.search_le m (fun x => !lessThan x item)
  unfold Apart at h
  simp only [insert]
  split
  · exact setSlot_sameOn a m (by unfold Apart; omega)
  · intro x h1 h2
    have hs : a.search m (fun x => !lessThan x item) < a.size := by omega
    dsimp only
    rw [shiftUp_sameOn a _ _ _ _ (by unfold Apart; omega) x h1 h2]
    exact setSlot_sameOn a m (by unfold Apart; omega) x h1 h2

@[simp] theorem insert_array (lessThan : ℕ → ℕ → Bool) (item : ℕ) :
    (a.insert m lessThan item).2.array = a.array := by
  unfold insert
  dsimp only
  split <;> rfl

@[simp] theorem insert_maxSize (lessThan : ℕ → ℕ → Bool) (item : ℕ) :
    (a.insert m lessThan item).2.maxSize = a.maxSize := by
  unfold insert
  dsimp only
  split <;> rfl

theorem insert_size (lessThan : ℕ → ℕ → Bool) (item : ℕ) (h : a.size + 1 < 2 ^ 32) :
    (a.insert m lessThan item).2.size = a.size + 1 := by
  unfold insert
  dsimp only
  split <;> exact u32_of_lt h

/-- `insert` puts the item into the list of the elements. -/
theorem entries_insert (a : OrderedArray) (m : Mem) (lessThan : ℕ → ℕ → Bool) {item : ℕ}
    (hitem : item < 2 ^ 32) (hsize : a.size + 1 < 2 ^ 32) :
    (a.insert m lessThan item).2.entries (a.insert m lessThan item).1 =
      (a.entries m).insertIdx (a.position m lessThan item) item := by
  have hle := a.position_le m lessThan item
  have hlen := insert_size (m := m) lessThan item hsize
  refine List.ext_getElem ?_ fun i h1 h2 => ?_
  · rw [length_entries, hlen, List.length_insertIdx_of_le_length (by simpa using hle),
      length_entries]
  · rw [length_entries, hlen] at h1
    have hslot := slot_insert a m lessThan hitem i
    rw [List.getElem_insertIdx, getElem_entries]
    have harr : (a.insert m lessThan item).2.slot (a.insert m lessThan item).1 i =
        a.slot (a.insert m lessThan item).1 i := by simp [slot]
    rw [harr, hslot]
    split_ifs <;> first | rfl | omega | simp

theorem insert_perm (a : OrderedArray) (m : Mem) (lessThan : ℕ → ℕ → Bool) {item : ℕ}
    (hitem : item < 2 ^ 32) (hsize : a.size + 1 < 2 ^ 32) :
    ((a.insert m lessThan item).2.entries (a.insert m lessThan item).1).Perm
      (item :: a.entries m) := by
  rw [entries_insert a m lessThan hitem hsize]
  exact List.perm_insertIdx _ _ (by simpa using a.position_le m lessThan item)

theorem remove_sameOn (a : OrderedArray) (m : Mem) {i b k : ℕ} (hi : i ≤ a.size)
    (h : Apart a.array (4 * a.size) b k) : SameOn (a.remove m i).1 m b k := by
  unfold Apart at h
  exact shiftDown_sameOn a _ _ _ (by unfold Apart; omega)

@[simp] theorem remove_array (i : ℕ) : (a.remove m i).2.array = a.array := rfl

@[simp] theorem remove_maxSize (i : ℕ) : (a.remove m i).2.maxSize = a.maxSize := rfl

theorem remove_size (a : OrderedArray) (m : Mem) (i : ℕ) (h : 0 < a.size) :
    (a.remove m i).2.size = a.size - 1 := sub32_of_le h

/-- What `remove` leaves in each slot. -/
theorem slot_remove (a : OrderedArray) (m : Mem) (i j : ℕ) :
    a.slot (a.remove m i).1 j =
      if i ≤ j ∧ j < i + (a.size - i) then a.slot m (j + 1) else a.slot m j :=
  slot_shiftDown a _ m i j

/-- `remove` takes the element out of the list of the elements. -/
theorem entries_remove (a : OrderedArray) (m : Mem) {i : ℕ} (hi : i < a.size) :
    (a.remove m i).2.entries (a.remove m i).1 = (a.entries m).eraseIdx i := by
  have hlen := remove_size a m i (by omega)
  refine List.ext_getElem ?_ fun j h1 h2 => ?_
  · rw [length_entries, hlen, List.length_eraseIdx_of_lt (by simpa using hi), length_entries]
  · rw [length_entries, hlen] at h1
    rw [getElem_entries, List.getElem_eraseIdx]
    have harr : (a.remove m i).2.slot (a.remove m i).1 j = a.slot (a.remove m i).1 j := by simp [slot]
    rw [harr, slot_remove]
    split_ifs <;> first | omega | simp

theorem remove_perm (a : OrderedArray) (m : Mem) {i : ℕ} (hi : i < a.size) :
    (a.entries m).Perm (a.slot m i :: (a.remove m i).2.entries (a.remove m i).1) := by
  rw [entries_remove a m hi]
  have hl : i < (a.entries m).length := by simpa using hi
  have := (List.getElem_cons_eraseIdx_perm hl).symm
  rwa [getElem_entries] at this

end OrderedArray
end X86OsDev.Tutorial
