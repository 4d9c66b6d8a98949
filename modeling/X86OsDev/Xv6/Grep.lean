import Mathlib.Computability.Language

/-! # The matcher of grep (grep.c)

A string is the list of its bytes; the nul after it is what a read past the last
byte gives. A pattern is read as items, with a language for each, and the matcher
looks for a word of their product.
-/
namespace X86OsDev.Xv6.Grep

def star : UInt8 := '*'.toUInt8
def dot : UInt8 := '.'.toUInt8
def dollar : UInt8 := '$'.toUInt8
def caret : UInt8 := '^'.toUInt8
def newline : UInt8 := '\n'.toUInt8

/-- `s[i]` -/
def charAt (s : List UInt8) (i : ℕ) : UInt8 := s.getD i 0

theorem ne_nil_of_charAt {s : List UInt8} (h : charAt s 0 ≠ 0) : s ≠ [] := fun hs => h (by rw [hs]; rfl)

theorem length_drop_lt {s : List UInt8} {n : ℕ} (h : charAt s 0 ≠ 0) (hn : 0 < n) : (s.drop n).length < s.length := by
  have hpos := List.length_pos_of_ne_nil (ne_nil_of_charAt h)
  rw [List.length_drop]
  omega

mutual

/-- search for `re` at the beginning of `text` -/
def matchhere (re text : List UInt8) : Bool :=
  if charAt re 0 = 0 then true
  else if charAt re 1 = star then matchstar (charAt re 0) (re.drop 2) text
  else if charAt re 0 = dollar ∧ charAt re 1 = 0 then charAt text 0 = 0
  else if charAt text 0 ≠ 0 ∧ (charAt re 0 = dot ∨ charAt re 0 = charAt text 0) then
    matchhere (re.drop 1) (text.drop 1)
  else false
termination_by (re.length,text.length,0)
decreasing_by
  · exact Prod.Lex.left _ _ (length_drop_lt ‹_› Nat.two_pos)
  · exact Prod.Lex.left _ _ (length_drop_lt ‹_› Nat.one_pos)

/-- search for `c*re` at the beginning of `text` -/
def matchstar (c : UInt8) (re text : List UInt8) : Bool :=
  if matchhere re text then true
  else if charAt text 0 ≠ 0 ∧ (charAt text 0 = c ∨ c = dot) then matchstar c re (text.drop 1)
  else false
termination_by (re.length,text.length,1)
decreasing_by
  · exact Prod.Lex.right _ (Prod.Lex.right _ Nat.one_pos)
  · rename_i h
    exact Prod.Lex.right _ (Prod.Lex.left _ _ (length_drop_lt h.1 Nat.one_pos))

end

/-- The loop of `match`, which must look at the empty string too. -/
def matchLoop (re : List UInt8) : List UInt8 → Bool
  | [] => matchhere re []
  | c :: text => if matchhere re (c :: text) then true else if c ≠ 0 then matchLoop re text else false

/-- `match(re, text)` -/
def matchText (re text : List UInt8) : Bool :=
  if charAt re 0 = caret then matchhere (re.drop 1) text else matchLoop re text

/-! ## What a pattern means -/

/-- A character or a dot, and whether a star follows it. -/
structure Item where
  char : UInt8
  starred : Bool
  deriving DecidableEq, Repr

structure Pattern where
  anchored : Bool
  items : List Item
  ended : Bool
  deriving DecidableEq, Repr

/-- The items of a pattern, and whether a final `$` follows them. -/
def readItems : List UInt8 → List Item × Bool
  | [] => ([],false)
  | [c] => if c = dollar then ([],true) else ([⟨c,false⟩],false)
  | c :: d :: re =>
    if d = star then (⟨c,true⟩ :: (readItems re).1,(readItems re).2)
    else (⟨c,false⟩ :: (readItems (d :: re)).1,(readItems (d :: re)).2)

def readPattern (re : List UInt8) : Pattern :=
  if charAt re 0 = caret then ⟨true,(readItems (re.drop 1)).1,(readItems (re.drop 1)).2⟩
  else ⟨false,(readItems re).1,(readItems re).2⟩

/-- A byte that the character of an item stands for. -/
def Stands (c a : UInt8) : Prop := c = dot ∨ c = a

/-- The words of one byte. -/
def letters (c : UInt8) : Language UInt8 := {w | ∃ a, Stands c a ∧ w = [a]}

open Computability in
/-- The words of an item. -/
def Item.words (i : Item) : Language UInt8 := if i.starred then (letters i.char)∗ else letters i.char

def wordsOf (l : List Item) : Language UInt8 := (l.map Item.words).prod

/-- Some part of the text is a word of the pattern: at the start if it is anchored, at the
end if it has a final `$`. -/
def Pattern.Matches (p : Pattern) (text : List UInt8) : Prop :=
  ∃ before w after, text = before ++ w ++ after ∧ w ∈ wordsOf p.items ∧ (p.anchored → before = []) ∧ (p.ended → after = [])

/-! ## The pattern that is read -/

def Item.spell (i : Item) : List UInt8 := if i.starred then [i.char,star] else [i.char]

def spellItems (p : List Item × Bool) : List UInt8 := p.1.flatMap Item.spell ++ if p.2 then [dollar] else []

def Pattern.spell (p : Pattern) : List UInt8 := (if p.anchored then [caret] else []) ++ spellItems (p.items,p.ended)

theorem spellItems_cons (i : Item) (l : List Item) (e : Bool) : spellItems (i :: l,e) = i.spell ++ spellItems (l,e) := by
  rw [spellItems, List.flatMap_cons, List.append_assoc]
  rfl

theorem spell_readItems (re : List UInt8) : spellItems (readItems re) = re := by
  induction re using readItems.induct with
  | case1 => rfl
  | case2 => rfl
  | case3 c hc =>
    rw [readItems, if_neg hc]
    rfl
  | case4 c re ih =>
    rw [readItems, if_pos rfl, spellItems_cons, ih]
    rfl
  | case5 c d re hd ih =>
    rw [readItems, if_neg hd, spellItems_cons, ih]
    rfl

/-- A pattern is read as one that is spelled like it. -/
theorem spell_readPattern (re : List UInt8) : (readPattern re).spell = re := by
  rw [readPattern]
  split
  · rename_i h
    cases re with
    | nil => exact absurd h (by decide)
    | cons c re =>
      have hc : c = caret := h
      subst hc
      exact congrArg (caret :: ·) (spell_readItems re)
  · exact spell_readItems re

/-! ## The matcher finds the words -/

/-- The text begins with a word of the items, and a final `$` leaves nothing after it. -/
def Begins (p : List Item × Bool) (text : List UInt8) : Prop :=
  ∃ w after, text = w ++ after ∧ w ∈ wordsOf p.1 ∧ (p.2 → after = [])

section Begins
variable {c : UInt8} {i : Item} {l : List Item} {e : Bool} {text : List UInt8}

theorem begins_nil : Begins ([],e) text ↔ (e → text = []) := by
  constructor
  · rintro ⟨w,after,rfl,hw,he⟩ h
    rw [show w = [] from hw, he h]
    rfl
  · exact fun h => ⟨[],text,rfl,Language.nil_mem_one,h⟩

theorem begins_cons : Begins (i :: l,e) text ↔ ∃ u v, text = u ++ v ∧ u ∈ i.words ∧ Begins (l,e) v := by
  constructor
  · rintro ⟨w,after,rfl,hw,he⟩
    rw [wordsOf, List.map_cons, List.prod_cons] at hw
    obtain ⟨u,hu,v,hv,rfl⟩ := Language.mem_mul.mp hw
    exact ⟨u,v ++ after,by rw [List.append_assoc],hu,v,after,rfl,hv,he⟩
  · rintro ⟨u,v,rfl,hu,w,after,rfl,hw,he⟩
    exact ⟨u ++ w,after,by rw [List.append_assoc],Language.mem_mul.mpr ⟨u,hu,w,hw,rfl⟩,he⟩

theorem begins_once : Begins (⟨c,false⟩ :: l,e) text ↔ ∃ a v, text = a :: v ∧ Stands c a ∧ Begins (l,e) v := by
  rw [begins_cons]
  constructor
  · rintro ⟨_,v,rfl,⟨a,ha,rfl⟩,hv⟩
    exact ⟨a,v,rfl,ha,hv⟩
  · rintro ⟨a,v,rfl,ha,hv⟩
    exact ⟨[a],v,rfl,⟨a,ha,rfl⟩,hv⟩

open Computability in
/-- A word of a star is empty or has one more letter than another. -/
theorem mem_kstar_letters {u : List UInt8} :
    u ∈ (letters c)∗ ↔ u = [] ∨ ∃ a v, Stands c a ∧ v ∈ (letters c)∗ ∧ u = a :: v := by
  rw [← Language.one_add_self_mul_kstar_eq_kstar, Language.mem_add, Language.mem_one, Language.mem_mul,
    Language.one_add_self_mul_kstar_eq_kstar]
  refine or_congr_right ?_
  constructor
  · rintro ⟨_,⟨a,ha,rfl⟩,v,hv,rfl⟩
    exact ⟨a,v,ha,hv,rfl⟩
  · rintro ⟨a,v,ha,hv,rfl⟩
    exact ⟨[a],⟨a,ha,rfl⟩,v,hv,rfl⟩

theorem begins_star : Begins (⟨c,true⟩ :: l,e) text ↔
    Begins (l,e) text ∨ ∃ a v, text = a :: v ∧ Stands c a ∧ Begins (⟨c,true⟩ :: l,e) v := by
  simp only [begins_cons]
  constructor
  · rintro ⟨u,v,rfl,hu,hv⟩
    rcases mem_kstar_letters.mp hu with rfl | ⟨a,w,ha,hw,rfl⟩
    · exact Or.inl hv
    · exact Or.inr ⟨a,w ++ v,rfl,ha,w,v,rfl,hw,hv⟩
  · rintro (h | ⟨a,_,rfl,ha,u,v,rfl,hu,hv⟩)
    · exact ⟨[],text,rfl,mem_kstar_letters.mpr (Or.inl rfl),h⟩
    · exact ⟨a :: u,v,rfl,mem_kstar_letters.mpr (Or.inr ⟨a,u,ha,hu,rfl⟩),hv⟩

end Begins

section Matcher
variable {c d : UInt8} {re text : List UInt8}

theorem charAt_eq_zero (h : 0 ∉ text) : charAt text 0 = 0 ↔ text = [] := by
  cases text with
  | nil => exact Iff.intro (fun _ => rfl) fun _ => rfl
  | cons a text => exact iff_of_false (fun ha => h (List.mem_cons.mpr (Or.inl (Eq.symm ha)))) (List.cons_ne_nil _ _)

theorem head_ne_zero (h : 0 ∉ c :: text) : c ≠ 0 := fun h0 => h (List.mem_cons.mpr (Or.inl h0.symm))

theorem matchhere_nil : matchhere [] text = true := by
  rw [matchhere]
  rfl

theorem matchhere_cons : matchhere (c :: re) text =
    if c = 0 then true
    else if charAt re 0 = star then matchstar c (re.drop 1) text
    else if c = dollar ∧ charAt re 0 = 0 then decide (charAt text 0 = 0)
    else if charAt text 0 ≠ 0 ∧ (c = dot ∨ c = charAt text 0) then matchhere re (text.drop 1) else false := by
  rw [matchhere]
  rfl

theorem matchstar_iff {p : List Item × Bool} (h : ∀ text, 0 ∉ text → (matchhere re text = true ↔ Begins p text))
    (htext : 0 ∉ text) : matchstar c re text = true ↔ Begins (⟨c,true⟩ :: p.1,p.2) text := by
  induction text with
  | nil =>
    rw [matchstar, begins_star, ← h [] htext]
    by_cases hm : matchhere re [] = true
    · simp [hm]
    · rw [if_neg hm, if_neg fun h0 => h0.1 rfl]
      simp [hm]
  | cons a text ih =>
    have ha : a ≠ 0 := head_ne_zero htext
    rw [matchstar, begins_star, ← h _ htext]
    by_cases hm : matchhere re (a :: text) = true
    · simp [hm]
    · rw [if_neg hm]
      change (if a ≠ 0 ∧ (a = c ∨ c = dot) then matchstar c re text else false) = true ↔ _
      by_cases hc : Stands c a
      · rw [if_pos ⟨ha,hc.symm.imp_left Eq.symm⟩, ih fun h0 => htext (List.mem_cons_of_mem _ h0)]
        constructor
        · exact fun hb => Or.inr ⟨a,text,rfl,hc,hb⟩
        · rintro (hb | ⟨_,_,heq,_,hb⟩)
          · exact absurd hb hm
          · obtain ⟨rfl,rfl⟩ := List.cons.inj heq
            exact hb
      · rw [if_neg fun h0 => hc (h0.2.symm.imp_right Eq.symm)]
        refine iff_of_false Bool.false_ne_true ?_
        rintro (hb | ⟨_,_,heq,hs,_⟩)
        · exact hm hb
        · obtain ⟨rfl,rfl⟩ := List.cons.inj heq
          exact hc hs

/-- One character that no star follows. -/
theorem matchhere_once {p : List Item × Bool} (h : ∀ text, 0 ∉ text → (matchhere re text = true ↔ Begins p text))
    (hc : c ≠ 0) (hstar : charAt re 0 ≠ star) (hend : ¬ (c = dollar ∧ charAt re 0 = 0)) (htext : 0 ∉ text) :
    matchhere (c :: re) text = true ↔ Begins (⟨c,false⟩ :: p.1,p.2) text := by
  rw [matchhere_cons, if_neg hc, if_neg hstar, if_neg hend, begins_once]
  cases text with
  | nil =>
    rw [if_neg fun h0 => h0.1 rfl]
    exact iff_of_false Bool.false_ne_true fun ⟨_,_,heq,_⟩ => List.cons_ne_nil _ _ heq.symm
  | cons a text =>
    have ha : a ≠ 0 := head_ne_zero htext
    change (if a ≠ 0 ∧ (c = dot ∨ c = a) then matchhere re text else false) = true ↔ _
    by_cases hs : Stands c a
    · rw [if_pos ⟨ha,hs⟩, h _ fun h0 => htext (List.mem_cons_of_mem _ h0)]
      constructor
      · exact fun hb => ⟨a,text,rfl,hs,hb⟩
      · rintro ⟨_,_,heq,_,hb⟩
        obtain ⟨rfl,rfl⟩ := List.cons.inj heq
        exact hb
    · rw [if_neg fun h0 => hs h0.2]
      refine iff_of_false Bool.false_ne_true ?_
      rintro ⟨_,_,heq,h0,_⟩
      obtain ⟨rfl,rfl⟩ := List.cons.inj heq
      exact hs h0

theorem matchhere_iff (hre : 0 ∉ re) (htext : 0 ∉ text) : matchhere re text = true ↔ Begins (readItems re) text := by
  induction re using readItems.induct generalizing text with
  | case1 =>
    rw [matchhere_nil, readItems, begins_nil]
    simp
  | case2 =>
    rw [matchhere_cons, if_neg (by decide), if_neg (by decide), if_pos ⟨rfl,rfl⟩, decide_eq_true_iff, charAt_eq_zero htext,
      readItems, if_pos rfl, begins_nil]
    simp
  | case3 c hc =>
    rw [readItems, if_neg hc]
    have hnil : ∀ text, 0 ∉ text → (matchhere [] text = true ↔ Begins ([],false) text) := fun text _ => by
      rw [matchhere_nil, begins_nil]
      simp
    exact matchhere_once hnil (head_ne_zero hre) (by decide) (fun h => hc h.1) htext
  | case4 c re ih =>
    have hstar : charAt (star :: re) 0 = star := rfl
    rw [matchhere_cons, if_neg (head_ne_zero hre), if_pos hstar, readItems, if_pos rfl]
    have hre' : 0 ∉ re := fun h0 => hre (List.mem_cons_of_mem _ (List.mem_cons_of_mem _ h0))
    exact matchstar_iff (fun _ h0 => ih hre' h0) htext
  | case5 c d re hd ih =>
    have hre' : 0 ∉ d :: re := fun h0 => hre (List.mem_cons_of_mem _ h0)
    rw [readItems, if_neg hd]
    exact matchhere_once (fun _ h0 => ih hre' h0) (head_ne_zero hre) hd (fun h => head_ne_zero hre' h.2) htext

theorem matchLoop_iff {p : List Item × Bool} (h : ∀ text, 0 ∉ text → (matchhere re text = true ↔ Begins p text))
    (htext : 0 ∉ text) : matchLoop re text = true ↔ ∃ before rest, text = before ++ rest ∧ Begins p rest := by
  induction text with
  | nil =>
    rw [matchLoop, h _ htext]
    constructor
    · exact fun hb => ⟨[],[],rfl,hb⟩
    · rintro ⟨before,rest,heq,hb⟩
      rwa [(List.append_eq_nil_iff.mp heq.symm).2] at hb
  | cons a text ih =>
    rw [matchLoop]
    by_cases hm : matchhere re (a :: text) = true
    · rw [if_pos hm]
      exact iff_of_true rfl ⟨[],a :: text,rfl,(h _ htext).mp hm⟩
    · rw [if_neg hm, if_pos (head_ne_zero htext), ih fun h0 => htext (List.mem_cons_of_mem _ h0)]
      constructor
      · rintro ⟨before,rest,rfl,hb⟩
        exact ⟨a :: before,rest,rfl,hb⟩
      · rintro ⟨before,rest,heq,hb⟩
        cases before with
        | nil =>
          rw [List.nil_append] at heq
          exact absurd ((h _ htext).mpr (heq ▸ hb)) hm
        | cons b before =>
          exact ⟨before,rest,(List.cons.inj heq).2,hb⟩

/-- `match` returns 1 if and only if the text has a part that the pattern means. -/
theorem match_finds (hre : 0 ∉ re) (htext : 0 ∉ text) :
    matchText re text = true ↔ (readPattern re).Matches text := by
  by_cases hc : charAt re 0 = caret
  · have hre' : 0 ∉ re.drop 1 := fun h0 => hre (List.mem_of_mem_drop h0)
    rw [matchText, if_pos hc, matchhere_iff hre' htext, readPattern, if_pos hc]
    constructor
    · rintro ⟨w,after,rfl,hw,he⟩
      exact ⟨[],w,after,rfl,hw,fun _ => rfl,he⟩
    · rintro ⟨before,w,after,rfl,hw,ha,he⟩
      exact ⟨w,after,by rw [ha rfl, List.nil_append],hw,he⟩
  · rw [matchText, if_neg hc, matchLoop_iff (fun _ h0 => matchhere_iff hre h0) htext, readPattern, if_neg hc]
    constructor
    · rintro ⟨before,_,rfl,w,after,rfl,hw,he⟩
      exact ⟨before,w,after,by rw [List.append_assoc],hw,fun h0 => absurd h0 Bool.false_ne_true,he⟩
    · rintro ⟨before,w,after,rfl,hw,-,he⟩
      exact ⟨before,w ++ after,by rw [List.append_assoc],w,after,rfl,hw,he⟩

end Matcher

/-- `a*b$` finds its word at the end of `xaab`. -/
theorem match_finds_end : matchText [97,42,98,36] [120,97,97,98] = true ↔
    (readPattern [97,42,98,36]).Matches [120,97,97,98] :=
  match_finds (by decide) (by decide)

end X86OsDev.Xv6.Grep
