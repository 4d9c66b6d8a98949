import Mathlib.Data.BitVec
import Mathlib.Data.List.Sort
import X86OsDev.Tutorial.OrderedArray

/-! # The ordered array stays sorted

The elements are compared as words. An insertion is the one of lists before the
first element that is not less, and a run of calls is a run on a list.
-/
namespace X86OsDev.Tutorial.OrderedArray
open Memory

abbrev Word := BitVec 32

/-- `less_than` on the words that the slots hold. -/
def onWords (lt : Word → Word → Bool) (x y : ℕ) : Bool := lt (BitVec.ofNat 32 x) (BitVec.ofNat 32 y)

def elements (a : OrderedArray) (m : Mem) : List Word := (a.entries m).map (BitVec.ofNat 32)

/-- Not less: the place of an element is behind that of one that it is not less than. -/
def NotLess (lt : Word → Word → Bool) (x y : Word) : Prop := lt y x = false

instance (lt : Word → Word → Bool) : DecidableRel (NotLess lt) := fun x y =>
  inferInstanceAs (Decidable (lt y x = false))

def Sorted (lt : Word → Word → Bool) (l : List Word) : Prop := l.Pairwise (NotLess lt)

inductive Call
  | insert (item : Word)
  | remove (i : ℕ)

namespace Call

/-- What a call does to the array in memory, and to a list. -/
def run (lt : Word → Word → Bool) (s : Mem × OrderedArray) : Call → Mem × OrderedArray
  | insert item => s.2.insert s.1 (onWords lt) item.toNat
  | remove i => s.2.remove s.1 i

def onList (lt : Word → Word → Bool) (l : List Word) : Call → List Word
  | insert item => l.orderedInsert (NotLess lt) item
  | remove i => l.eraseIdx i

/-- There is room for the item, or an element to remove. -/
def Allowed (maxSize : ℕ) (l : List Word) : Call → Prop
  | insert _ => l.length < maxSize
  | remove i => i < l.length

instance (maxSize : ℕ) (l : List Word) : ∀ c : Call, Decidable (c.Allowed maxSize l)
  | insert _ => Nat.decLt _ _
  | remove _ => Nat.decLt _ _

end Call

/-- Each call of the sequence is allowed when its turn comes. -/
def AllAllowed (lt : Word → Word → Bool) (maxSize : ℕ) : List Word → List Call → Prop
  | _, [] => True
  | l, c :: cs => c.Allowed maxSize l ∧ AllAllowed lt maxSize (c.onList lt l) cs

section Order
variable (lt : Word → Word → Bool) [IsStrictWeakOrder Word fun x y => lt x y = true]

theorem notLess_total : Std.Total (NotLess lt) where
  total x y := by
    by_contra h
    obtain ⟨hx,hy⟩ := not_or.mp h
    have hyx : lt y x = true := Bool.eq_true_of_not_eq_false hx
    have hxy : lt x y = true := Bool.eq_true_of_not_eq_false hy
    exact irrefl_of (fun x y => lt x y = true) x (trans_of (fun x y => lt x y = true) hxy hyx)

theorem notLess_trans : IsTrans Word (NotLess lt) where
  trans x y z hxy hyz := by
    by_contra h
    have hyx : ¬ lt y x = true := Bool.eq_false_iff.mp hxy
    have hzy : ¬ lt z y = true := Bool.eq_false_iff.mp hyz
    have hzx : lt z x = true := Bool.eq_true_of_not_eq_false h
    -- `y` is equivalent to both
    have hxy' : ¬ lt x y = true := fun hlt => hzy (trans_of (fun x y => lt x y = true) hzx hlt)
    have hyz' : ¬ lt y z = true := fun hlt => hyx (trans_of (fun x y => lt x y = true) hlt hzx)
    have hxz := @IsStrictWeakOrder.incomp_trans _ (fun x y => lt x y = true) _ x y z ⟨hxy',hyx⟩ ⟨hyz',hzy⟩
    exact hxz.2 hzx

theorem Sorted.orderedInsert {l : List Word} (h : Sorted lt l) (item : Word) :
    Sorted lt (l.orderedInsert (NotLess lt) item) :=
  have := notLess_total lt
  have := notLess_trans lt
  List.Pairwise.orderedInsert item l h

omit [IsStrictWeakOrder Word fun x y => lt x y = true] in
theorem Sorted.eraseIdx {l : List Word} (h : Sorted lt l) (i : ℕ) : Sorted lt (l.eraseIdx i) :=
  List.Pairwise.sublist (List.eraseIdx_sublist l i) h

/-- The two sides of the item in a sorted list. -/
theorem orderedInsert_split {l : List Word} (h : Sorted lt l) (item : Word) :
    ∃ before after, l = before ++ after ∧ l.orderedInsert (NotLess lt) item = before ++ item :: after ∧
      (∀ x ∈ before, lt x item = true) ∧ ∀ x ∈ after, lt x item = false := by
  have htrans := notLess_trans lt
  induction l with
  | nil => exact ⟨[],[],rfl,rfl,by simp,by simp⟩
  | cons y l ih =>
    by_cases hy : NotLess lt item y
    · refine ⟨[],y :: l,rfl,by rw [List.orderedInsert_cons, if_pos hy, List.nil_append],by simp,fun x hx => ?_⟩
      rcases List.mem_cons.mp hx with rfl | hx
      · exact hy
      · exact htrans.trans _ _ _ hy (List.rel_of_pairwise_cons h hx)
    · obtain ⟨before,after,hl,hins,hbefore,hafter⟩ := ih (List.Pairwise.of_cons h)
      refine ⟨y :: before,after,by rw [hl, List.cons_append],?_,fun x hx => ?_,hafter⟩
      · rw [List.orderedInsert_cons, if_neg hy, hins, List.cons_append]
      · rcases List.mem_cons.mp hx with rfl | hx
        · exact Bool.eq_true_of_not_eq_false hy
        · exact hbefore x hx

end Order

/-- The first element that is not less is where the item goes. -/
theorem orderedInsert_eq_insertIdx {α : Type*} (r : α → α → Prop) [DecidableRel r] (l : List α) (x : α) :
    l.orderedInsert r x = l.insertIdx (l.findIdx fun y => decide (r x y)) x := by
  induction l with
  | nil => rfl
  | cons y l ih =>
    rw [List.orderedInsert_cons, List.findIdx_cons]
    by_cases h : r x y
    · simp [h]
    · simp [h, ih]

section Calls
variable (lt : Word → Word → Bool) {a : OrderedArray} {m : Mem}

/-- The loops that look for a slot find the first element that meets the test. -/
theorem search_eq_findIdx (a : OrderedArray) (m : Mem) (p : ℕ → Bool) : a.search m p = (a.entries m).findIdx p := by
  by_cases h : a.search m p < a.size
  · symm
    rw [List.findIdx_eq (by simpa using h)]
    refine ⟨by simpa using a.search_spec m p h,fun j hj => ?_⟩
    unfold search at h hj
    cases hf : (List.range a.size).find? (fun i => p (a.slot m i)) with
    | none => simp [hf] at h
    | some i =>
      rw [hf, Option.getD_some] at hj
      simpa using (List.find?_range_eq_some.mp hf).2.2 j hj
  · have heq : a.search m p = a.size := le_antisymm (a.search_le m p) (by omega)
    rw [heq, ← length_entries a m]
    symm
    rw [List.findIdx_eq_length]
    intro x hx
    obtain ⟨i,hi,rfl⟩ := mem_entries.mp hx
    exact a.search_eq_size m p heq i hi

@[simp] theorem length_elements (a : OrderedArray) (m : Mem) : (a.elements m).length = a.size := by simp [elements]

theorem lookup_eq (a : OrderedArray) (m : Mem) (i : ℕ) : a.lookup m i = (a.elements m)[i]?.map BitVec.toNat := by
  unfold lookup elements
  by_cases h : i < a.size
  · have hlen : i < (a.entries m).length := by simpa using h
    rw [if_pos h, List.getElem?_map, List.getElem?_eq_getElem hlen, getElem_entries]
    simpa using (Nat.mod_eq_of_lt (slot_lt a m i)).symm
  · rw [if_neg h, List.getElem?_eq_none (by simpa using h)]
    rfl

theorem elements_insert (item : Word) (h : a.size + 1 < 2 ^ 32) :
    (a.insert m (onWords lt) item.toNat).2.elements (a.insert m (onWords lt) item.toNat).1 =
      (a.elements m).orderedInsert (NotLess lt) item := by
  have hpos : a.position m (onWords lt) item.toNat =
      (a.elements m).findIdx fun x => decide (NotLess lt item x) := by
    rw [position, search_eq_findIdx, elements, List.findIdx_map]
    congr 1
    funext x
    cases h : lt (BitVec.ofNat 32 x) item <;> simp [onWords, NotLess, h]
  rw [elements, entries_insert a m (onWords lt) item.isLt h, orderedInsert_eq_insertIdx, hpos, elements,
    List.map_insertIdx, BitVec.ofNat_toNat, BitVec.setWidth_eq]

theorem elements_remove {i : ℕ} (hi : i < a.size) :
    (a.remove m i).2.elements (a.remove m i).1 = (a.elements m).eraseIdx i := by
  rw [elements, entries_remove a m hi, ← List.eraseIdx_map, elements]

/-- One call on the array is the call on the list, and the array keeps its capacity. -/
theorem Call.run_spec (hmax : a.maxSize < 2 ^ 32) {c : Call} (hc : c.Allowed a.maxSize (a.elements m)) :
    (c.run lt (m,a)).2.elements (c.run lt (m,a)).1 = c.onList lt (a.elements m) ∧
    (c.run lt (m,a)).2.maxSize = a.maxSize := by
  cases c with
  | insert item =>
    simp only [Call.Allowed, length_elements] at hc
    have hsize : a.size + 1 < 2 ^ 32 := hmax.trans_le' hc
    exact ⟨elements_insert lt item hsize,insert_maxSize _ _⟩
  | remove i =>
    simp only [Call.Allowed, length_elements] at hc
    exact ⟨elements_remove hc,rfl⟩

/-- A sequence of calls, by induction over it. -/
theorem elements_run (cs : List Call) (hmax : a.maxSize < 2 ^ 32)
    (hcs : AllAllowed lt a.maxSize (a.elements m) cs) :
    (cs.foldl (Call.run lt) (m,a)).2.elements (cs.foldl (Call.run lt) (m,a)).1 =
      cs.foldl (Call.onList lt) (a.elements m) := by
  induction cs generalizing a m with
  | nil => rfl
  | cons c cs ih =>
    obtain ⟨hc,hcs⟩ := hcs
    obtain ⟨helems,hsame⟩ := c.run_spec lt hmax hc
    rw [← helems, ← hsame] at hcs
    rw [List.foldl_cons, List.foldl_cons, ← helems]
    exact ih (hsame ▸ hmax) hcs

theorem Sorted.foldl [IsStrictWeakOrder Word fun x y => lt x y = true] (cs : List Call) {l : List Word}
    (h : Sorted lt l) : Sorted lt (cs.foldl (Call.onList lt) l) := by
  induction cs generalizing l with
  | nil => exact h
  | cons c cs ih =>
    cases c with
    | insert item => exact ih (h.orderedInsert lt item)
    | remove i => exact ih (h.eraseIdx lt i)

end Calls

/-- The array stays sorted. An item goes before the elements that are equivalent to it, a removal
takes one element out, and after a sequence of calls the array can be read like the list. -/
theorem stays_sorted (lt : Word → Word → Bool) [IsStrictWeakOrder Word fun x y => lt x y = true]
    (a : OrderedArray) (m : Mem) (hmax : a.maxSize < 2 ^ 32) (hsorted : Sorted lt (a.elements m)) :
    (a.size < a.maxSize → ∀ item : Word,
      let s := a.insert m (onWords lt) item.toNat
      Sorted lt (s.2.elements s.1) ∧ (s.2.elements s.1).Perm (item :: a.elements m) ∧
      ∃ before after, a.elements m = before ++ after ∧ s.2.elements s.1 = before ++ item :: after ∧
        (∀ x ∈ before, lt x item = true) ∧ ∀ x ∈ after, lt x item = false) ∧
    (∀ i < a.size, let s := a.remove m i
      Sorted lt (s.2.elements s.1) ∧ s.2.elements s.1 = (a.elements m).eraseIdx i) ∧
    ∀ cs, AllAllowed lt a.maxSize (a.elements m) cs → let s := cs.foldl (Call.run lt) (m,a)
      let l := cs.foldl (Call.onList lt) (a.elements m)
      Sorted lt l ∧ ∀ i, s.2.lookup s.1 i = l[i]?.map BitVec.toNat := by
  refine ⟨fun hsize item => ?_,fun i hi => ?_,fun cs hcs => ⟨hsorted.foldl lt cs,fun i => ?_⟩⟩
  · dsimp only
    rw [elements_insert lt item (by omega)]
    exact ⟨hsorted.orderedInsert lt item,List.perm_orderedInsert _ item _,orderedInsert_split lt hsorted item⟩
  · dsimp only
    rw [elements_remove hi]
    exact ⟨hsorted.eraseIdx lt i,rfl⟩
  · rw [lookup_eq, elements_run lt cs hmax hcs]

/-- `standard_lessthan_predicate` -/
def standardLessThan (x y : Word) : Bool := decide (x.toNat < y.toNat)

instance : IsStrictWeakOrder Word fun x y => standardLessThan x y = true where
  irrefl x := by simp [standardLessThan]
  trans x y z := by
    simp only [standardLessThan, decide_eq_true_eq]
    exact Nat.lt_trans
  incomp_trans x y z := by
    simp only [standardLessThan, decide_eq_true_eq]
    omega

theorem stays_sorted_place :
    let cs : List Call := [.insert 3,.insert 1,.remove 0]
    let s := cs.foldl (Call.run standardLessThan) (place (fun _ => 0) 0x1000 4)
    s.2.lookup s.1 0 = some 3 :=
  ((stays_sorted standardLessThan ⟨0x1000,0,4⟩ _ (by decide) List.Pairwise.nil).2.2 [.insert 3,.insert 1,.remove 0]
    ⟨by decide,by decide,by decide,trivial⟩).2 0

end X86OsDev.Tutorial.OrderedArray
