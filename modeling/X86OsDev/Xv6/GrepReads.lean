import X86OsDev.Xv6.Grep

/-! # How grep reads its input (grep.c)

`grep` keeps the start of an unfinished line for the next read, but drops it if
the buffer has no newline yet. So a line that is cut by a read is matched as a
whole or from the cut on.
-/
namespace X86OsDev.Xv6.Grep
variable {pattern l s t : List UInt8}

/-- `strchr(s, c)`, as the offset from `s` -/
def strchr (s : List UInt8) (c : UInt8) : Option ℕ :=
  match s with
  | [] => none
  | a :: s => if a = 0 then none else if a = c then some 0 else (strchr s c).map (· + 1)

theorem strchr_lt {c : UInt8} {k : ℕ} (h : strchr s c = some k) : k < s.length := by
  induction s generalizing k with
  | nil => exact absurd h (Option.some_ne_none _).symm
  | cons a s ih =>
    rw [strchr] at h
    split at h
    · exact absurd h (Option.some_ne_none _).symm
    · split at h
      · rw [← Option.some.inj h]
        exact Nat.succ_pos _
      · obtain ⟨j,hj,rfl⟩ := Option.map_eq_some_iff.mp h
        exact Nat.succ_lt_succ (ih hj)

/-- The loop over the lines of the buffer: what it writes, and what `p` points to after it. -/
def lineLoop (pattern p : List UInt8) : List UInt8 × List UInt8 :=
  match _ : strchr p newline with
  | none => ([],p)
  | some q =>
    let r := lineLoop pattern (p.drop (q + 1))
    ((if matchText pattern (p.take q) then p.take (q + 1) else []) ++ r.1,r.2)
termination_by p.length
decreasing_by
  rename_i hq
  have := strchr_lt hq
  rw [List.length_drop]
  omega

/-- `sizeof(buf)` -/
def bufSize : ℕ := 1024

/-- What the first `m` bytes of the buffer are after a turn of the loop. -/
def carried (pattern buf : List UInt8) : List UInt8 :=
  let p := (lineLoop pattern buf).2
  if p.length = buf.length then [] else p

/-- The loop of `grep` over the pieces that the reads give, with the first `m` bytes of the buffer. -/
def readLoop (pattern : List UInt8) : List UInt8 → List (List UInt8) → List UInt8
  | _, [] => []
  | m, piece :: pieces =>
    (lineLoop pattern (m ++ piece)).1 ++ readLoop pattern (carried pattern (m ++ piece)) pieces

/-- `grep(pattern, fd)`: what it writes -/
def grep (pattern : List UInt8) (pieces : List (List UInt8)) : List UInt8 := readLoop pattern [] pieces

/-- Each piece is what a `read` of `sizeof(buf)-m-1` bytes can give before the end. -/
def Fits (pattern : List UInt8) : List UInt8 → List (List UInt8) → Prop
  | _, [] => True
  | m, piece :: pieces =>
    piece ≠ [] ∧ piece.length ≤ bufSize - m.length - 1 ∧ Fits pattern (carried pattern (m ++ piece)) pieces

/-- A way in which reads can split the stream. -/
def Splits (pattern stream : List UInt8) (pieces : List (List UInt8)) : Prop :=
  pieces.flatten = stream ∧ Fits pattern [] pieces

/-! ## The lines of a stream -/

/-- The lines that a newline ends, and the bytes after the last newline. -/
def splitLines : List UInt8 → List (List UInt8) × List UInt8
  | [] => ([],[])
  | c :: s =>
    if c = newline then ([] :: (splitLines s).1,(splitLines s).2)
    else match splitLines s with
      | ([],t) => ([],c :: t)
      | (l :: ls,t) => ((c :: l) :: ls,t)

def linesOf (s : List UInt8) : List (List UInt8) := (splitLines s).1

def lastOf (s : List UInt8) : List UInt8 := (splitLines s).2

/-- The lines that match, with their newlines. -/
def matching (pattern s : List UInt8) : List UInt8 :=
  ((linesOf s).filter (matchText pattern)).flatMap (· ++ [newline])

/-- The lines have at most 1023 bytes with the newline, and no nul. -/
structure ShortLines (s : List UInt8) : Prop where
  nul : 0 ∉ s
  line : ∀ l ∈ linesOf s, l.length + 1 ≤ bufSize - 1
  last : (lastOf s).length ≤ bufSize - 1

theorem splitLines_tail (h : newline ∉ t) : splitLines t = ([],t) := by
  induction t with
  | nil => rfl
  | cons c t ih =>
    rw [splitLines, if_neg fun hc => h (List.mem_cons.mpr (Or.inl hc.symm)), ih fun ht => h (List.mem_cons_of_mem _ ht)]

theorem splitLines_line (h : newline ∉ l) : splitLines (l ++ newline :: s) = (l :: linesOf s,lastOf s) := by
  induction l with
  | nil =>
    rw [List.nil_append, splitLines, if_pos rfl]
    rfl
  | cons c l ih =>
    rw [List.cons_append, splitLines, if_neg fun hc => h (List.mem_cons.mpr (Or.inl hc.symm)),
      ih fun hl => h (List.mem_cons_of_mem _ hl)]

/-- Every stream has no newline or starts with a line. -/
theorem lines_induction {P : List UInt8 → Prop} (tail : ∀ t, newline ∉ t → P t)
    (line : ∀ l s, newline ∉ l → P s → P (l ++ newline :: s)) (s : List UInt8) : P s := by
  obtain ⟨n,hn⟩ : ∃ n, s.length = n := ⟨_,rfl⟩
  induction n using Nat.strong_induction_on generalizing s with
  | _ n ih =>
    by_cases h : newline ∈ s
    · obtain ⟨l,s,rfl,hl⟩ := List.eq_append_cons_of_mem h
      refine line l s hl (ih s.length ?_ s rfl)
      rw [List.length_append, List.length_cons] at hn
      omega
    · exact tail s h

theorem linesOf_tail (h : newline ∉ t) : linesOf t = [] := congrArg Prod.fst (splitLines_tail h)

theorem linesOf_line (h : newline ∉ l) : linesOf (l ++ newline :: s) = l :: linesOf s := congrArg Prod.fst (splitLines_line h)

theorem lastOf_tail (h : newline ∉ t) : lastOf t = t := congrArg Prod.snd (splitLines_tail h)

theorem lastOf_line (h : newline ∉ l) : lastOf (l ++ newline :: s) = lastOf s := by
  rw [lastOf, splitLines_line h]

theorem matching_tail (h : newline ∉ t) : matching pattern t = [] := by
  rw [matching, linesOf_tail h]
  rfl

theorem matching_line (h : newline ∉ l) : matching pattern (l ++ newline :: s) =
    (if matchText pattern l then l ++ [newline] else []) ++ matching pattern s := by
  rw [matching, linesOf_line h, List.filter_cons]
  split
  · rfl
  · rfl

/-! ## The loop over the lines -/

theorem strchr_tail (h : newline ∉ t) : strchr t newline = none := by
  induction t with
  | nil => rfl
  | cons c t ih =>
    rw [strchr, ih fun ht => h (List.mem_cons_of_mem _ ht), if_neg fun hc : c = newline => h (List.mem_cons.mpr (Or.inl hc.symm))]
    exact ite_self _

theorem strchr_line (h : newline ∉ l) (h0 : 0 ∉ l) : strchr (l ++ newline :: s) newline = some l.length := by
  induction l with
  | nil => rfl
  | cons c l ih =>
    rw [List.cons_append, strchr, if_neg (head_ne_zero h0), if_neg fun hc => h (List.mem_cons.mpr (Or.inl hc.symm)),
      ih (fun hl => h (List.mem_cons_of_mem _ hl)) fun hl => h0 (List.mem_cons_of_mem _ hl)]
    rfl

theorem lineLoop_tail (h : newline ∉ t) : lineLoop pattern t = ([],t) := by
  rw [lineLoop]
  split
  · rfl
  · rename_i hq
    rw [strchr_tail h] at hq
    exact absurd hq (Option.some_ne_none _).symm

theorem lineLoop_line (h : newline ∉ l) (h0 : 0 ∉ l) : lineLoop pattern (l ++ newline :: s) =
    ((if matchText pattern l then l ++ [newline] else []) ++ (lineLoop pattern s).1,(lineLoop pattern s).2) := by
  have hat := strchr_line (s := s) h h0
  rw [lineLoop]
  split
  · rename_i hq
    rw [hat] at hq
    exact absurd hq (Option.some_ne_none _)
  · rename_i q hq
    obtain rfl : l.length = q := Option.some.inj (hat.symm.trans hq)
    have hdrop : (l ++ newline :: s).drop (l.length + 1) = s := by
      rw [List.drop_append, List.drop_of_length_le (Nat.le_succ _), Nat.add_sub_cancel_left]
      rfl
    have htake : (l ++ newline :: s).take (l.length + 1) = l ++ [newline] := by
      rw [List.take_append, List.take_of_length_le (Nat.le_succ _), Nat.add_sub_cancel_left]
      rfl
    rw [hdrop, htake, List.take_left]

theorem lineLoop_eq (h0 : 0 ∉ s) : lineLoop pattern s = (matching pattern s,lastOf s) := by
  induction s using lines_induction with
  | tail t ht => rw [lineLoop_tail ht, matching_tail ht, lastOf_tail ht]
  | line l s hl ih =>
    have hs0 : 0 ∉ s := fun h => h0 (List.mem_append_right _ (List.mem_cons_of_mem _ h))
    rw [lineLoop_line hl fun h => h0 (List.mem_append_left _ h), ih hs0, matching_line hl, lastOf_line hl]

theorem linesOf_append (s t : List UInt8) : linesOf (s ++ t) = linesOf s ++ linesOf (lastOf s ++ t) := by
  induction s using lines_induction with
  | tail r hr =>
    rw [lastOf_tail hr, linesOf_tail hr]
    rfl
  | line l s hl ih =>
    rw [List.append_assoc, List.cons_append, linesOf_line hl, ih, lastOf_line hl, linesOf_line hl, List.cons_append]

theorem matching_append (s t : List UInt8) :
    matching pattern (s ++ t) = matching pattern s ++ matching pattern (lastOf s ++ t) := by
  rw [matching, linesOf_append, List.filter_append, List.flatMap_append]
  rfl

theorem newline_not_mem_lastOf (s : List UInt8) : newline ∉ lastOf s := by
  induction s using lines_induction with
  | tail t ht => rwa [lastOf_tail ht]
  | line l s hl ih => rwa [lastOf_line hl]

theorem lastOf_suffix (s : List UInt8) : lastOf s <:+ s := by
  induction s using lines_induction with
  | tail t ht => rw [lastOf_tail ht]
  | line l s hl ih =>
    rw [lastOf_line hl]
    exact ih.trans ((List.suffix_cons newline s).trans (List.suffix_append l _))

theorem length_lastOf_lt (h : newline ∈ s) : (lastOf s).length < s.length := by
  refine lt_of_le_of_ne (lastOf_suffix s).length_le fun hlen => ?_
  rw [← (lastOf_suffix s).eq_of_length hlen] at h
  exact newline_not_mem_lastOf s h

theorem carried_cut (h : newline ∉ s) : carried pattern s = [] := by
  rw [carried, lineLoop_tail h]
  exact if_pos rfl

theorem carried_line (h : newline ∈ s) (h0 : 0 ∉ s) : carried pattern s = lastOf s := by
  rw [carried, lineLoop_eq h0]
  exact if_neg (length_lastOf_lt h).ne

/-! ## A run over the pieces -/

section Run
variable {m piece : List UInt8} {pieces : List (List UInt8)}

/-- One read, if dropping the start of a line does not change what matches. -/
theorem readLoop_step (h0 : 0 ∉ m ++ piece)
    (hcut : newline ∉ m ++ piece → matching pattern (m ++ piece ++ pieces.flatten) = matching pattern pieces.flatten)
    (hrest : readLoop pattern (carried pattern (m ++ piece)) pieces =
      matching pattern (carried pattern (m ++ piece) ++ pieces.flatten)) :
    readLoop pattern m (piece :: pieces) = matching pattern (m ++ (piece :: pieces).flatten) := by
  rw [readLoop, hrest, List.flatten_cons, ← List.append_assoc, lineLoop_eq h0]
  by_cases h : newline ∈ m ++ piece
  · rw [carried_line h h0]
    exact (matching_append _ _).symm
  · rw [carried_cut h, hcut h, matching_tail h]
    rfl

/-- No suffix of a line with bytes matches. -/
def NoSuffixMatches (pattern s : List UInt8) : Prop :=
  ∀ l ∈ linesOf s, l ≠ [] → ∀ t, t <:+ l → matchText pattern t = false

theorem NoSuffixMatches.rest (h : NoSuffixMatches pattern (s ++ t)) : NoSuffixMatches pattern (lastOf s ++ t) := fun l hl =>
  h l (by rw [linesOf_append]; exact List.mem_append_right _ hl)

/-- The bytes that are dropped did not belong to a line that matches, and neither does what is left of it. -/
theorem NoSuffixMatches.cut (h : NoSuffixMatches pattern (s ++ t)) (hne : s ≠ []) (hs : newline ∉ s) :
    matching pattern (s ++ t) = matching pattern t ∧ NoSuffixMatches pattern t := by
  by_cases ht : newline ∈ t
  · obtain ⟨l,t,rfl,hl⟩ := List.eq_append_cons_of_mem ht
    have hsl : newline ∉ s ++ l := fun hmem => (List.mem_append.mp hmem).elim hs hl
    rw [← List.append_assoc] at h ⊢
    have hno : ∀ u, u <:+ s ++ l → matchText pattern u = false :=
      h (s ++ l) (by rw [linesOf_line hsl]; exact List.mem_cons_self) (List.append_ne_nil_of_left_ne_nil hne l)
    constructor
    · rw [matching_line hsl, matching_line hl, hno _ List.suffix_rfl, hno l (List.suffix_append s l)]
      rfl
    · intro k hk hkne u hu
      rw [linesOf_line hl] at hk
      rcases List.mem_cons.mp hk with rfl | hk
      · exact hno u (hu.trans (List.suffix_append s k))
      · exact h k (by rw [linesOf_line hsl]; exact List.mem_cons_of_mem _ hk) hkne u hu
  · have hst : newline ∉ s ++ t := fun hmem => (List.mem_append.mp hmem).elim hs ht
    refine ⟨by rw [matching_tail hst, matching_tail ht],fun l hl => ?_⟩
    rw [linesOf_tail ht] at hl
    exact absurd hl List.not_mem_nil

theorem readLoop_of_noSuffix (hne : ∀ p ∈ pieces, p ≠ []) (h0 : 0 ∉ m ++ pieces.flatten)
    (h : NoSuffixMatches pattern (m ++ pieces.flatten)) (hm : newline ∉ m) :
    readLoop pattern m pieces = matching pattern (m ++ pieces.flatten) := by
  induction pieces generalizing m with
  | nil => rw [readLoop, List.flatten_nil, List.append_nil, matching_tail hm]
  | cons piece pieces ih =>
    have hne' : m ++ piece ≠ [] := List.append_ne_nil_of_right_ne_nil m (hne piece List.mem_cons_self)
    rw [List.flatten_cons, ← List.append_assoc] at h0 h
    have hb0 : 0 ∉ m ++ piece := fun hmem => h0 (List.mem_append_left _ hmem)
    refine readLoop_step hb0 (fun hcut => (h.cut hne' hcut).1) ?_
    have hps : ∀ p ∈ pieces, p ≠ [] := fun p hp => hne p (List.mem_cons_of_mem _ hp)
    by_cases hmem : newline ∈ m ++ piece
    · rw [carried_line hmem hb0]
      refine ih hps (fun hz => h0 ?_) h.rest (newline_not_mem_lastOf _)
      exact List.mem_append.mpr ((List.mem_append.mp hz).imp_left ((lastOf_suffix _).mem ·))
    · rw [carried_cut hmem]
      exact ih hps (fun hz => h0 (List.mem_append_right _ hz)) (h.cut hne' hmem).2 List.not_mem_nil

/-- Reads that each end a line, up to the last newline, give what matches. -/
theorem readLoop_of_newlines (h0 : 0 ∉ m ++ pieces.flatten) (hm : newline ∉ m)
    (h : ∀ before p after, pieces = before ++ p :: after → newline ∈ p ∨ newline ∉ after.flatten) :
    readLoop pattern m pieces = matching pattern (m ++ pieces.flatten) := by
  induction pieces generalizing m with
  | nil => rw [readLoop, List.flatten_nil, List.append_nil, matching_tail hm]
  | cons piece pieces ih =>
    rw [List.flatten_cons, ← List.append_assoc] at h0
    have hb0 : 0 ∉ m ++ piece := fun hmem => h0 (List.mem_append_left _ hmem)
    have hps : ∀ before p after, pieces = before ++ p :: after → newline ∈ p ∨ newline ∉ after.flatten := fun before p after he =>
      h (piece :: before) p after (congrArg (piece :: ·) he)
    refine readLoop_step hb0 (fun hcut => ?_) ?_
    · have hrest : newline ∉ pieces.flatten := (h [] piece pieces rfl).resolve_left fun hp => hcut (List.mem_append_right _ hp)
      rw [matching_tail hrest, matching_tail fun hmem => (List.mem_append.mp hmem).elim hcut hrest]
    · by_cases hmem : newline ∈ m ++ piece
      · rw [carried_line hmem hb0]
        refine ih (fun hz => h0 ?_) (newline_not_mem_lastOf _) hps
        exact List.mem_append.mpr ((List.mem_append.mp hz).imp_left ((lastOf_suffix _).mem ·))
      · rw [carried_cut hmem]
        exact ih (fun hz => h0 (List.mem_append_right _ hz)) List.not_mem_nil hps

theorem Fits.ne_nil (h : Fits pattern m pieces) : ∀ p ∈ pieces, p ≠ [] := by
  induction pieces generalizing m with
  | nil => exact fun p hp => absurd hp List.not_mem_nil
  | cons piece pieces ih =>
    intro p hp
    rcases List.mem_cons.mp hp with rfl | hp
    · exact h.1
    · exact ih h.2.2 p hp

end Run

/-! ## Every place for a cut -/

theorem ShortLines.after (h : ShortLines (l ++ newline :: s)) (hl : newline ∉ l) : ShortLines s where
  nul := fun h0 => h.nul (List.mem_append_right _ (List.mem_cons_of_mem _ h0))
  line := fun k hk => h.line k (by rw [linesOf_line hl]; exact List.mem_cons_of_mem _ hk)
  last := by
    have := h.last
    rwa [lastOf_line hl] at this

theorem ShortLines.first (h : ShortLines (l ++ newline :: s)) (hl : newline ∉ l) : l.length + 1 ≤ bufSize - 1 ∧ 0 ∉ l :=
  ⟨h.line l (by rw [linesOf_line hl]; exact List.mem_cons_self),fun h0 => h.nul (List.mem_append_left _ h0)⟩

section Pieces
variable {pieces : List (List UInt8)}

/-- A read that gives the rest of a line. -/
theorem read_line (hl : newline ∉ l) (hlen : l.length + 1 ≤ bufSize - 1) (h0 : 0 ∉ l) (hs : Splits pattern s pieces) :
    Splits pattern (l ++ newline :: s) ((l ++ [newline]) :: pieces) ∧
      grep pattern ((l ++ [newline]) :: pieces) =
        (if matchText pattern l then l ++ [newline] else []) ++ grep pattern pieces := by
  have hb0 : 0 ∉ l ++ [newline] := fun h => (List.mem_append.mp h).elim h0 (by decide)
  have hcarried : carried pattern (l ++ [newline]) = [] := by
    rw [carried_line (List.mem_append_right _ List.mem_cons_self) hb0, lastOf_line hl]
    rfl
  constructor
  · constructor
    · rw [List.flatten_cons, hs.1, List.append_assoc]
      rfl
    · refine ⟨List.append_ne_nil_of_right_ne_nil l (List.cons_ne_nil _ _),?_,?_⟩
      · rw [List.length_append]
        exact hlen
      · rw [List.nil_append, hcarried]
        exact hs.2
  · rw [grep, readLoop, List.nil_append, hcarried, lineLoop_eq hb0, matching_line hl, matching_tail List.not_mem_nil,
      List.append_nil]
    rfl

/-- A read that gives the start of a line, which is dropped. -/
theorem read_cut (hl : newline ∉ l) (hne : l ≠ []) (hlen : l.length ≤ bufSize - 1) (hs : Splits pattern s pieces) :
    Splits pattern (l ++ s) (l :: pieces) ∧ grep pattern (l :: pieces) = grep pattern pieces := by
  constructor
  · constructor
    · rw [List.flatten_cons, hs.1]
    · refine ⟨hne,hlen,?_⟩
      rw [List.nil_append, carried_cut hl]
      exact hs.2
  · rw [grep, readLoop, List.nil_append, carried_cut hl, lineLoop_tail hl]
    rfl

/-- A read for each line. -/
theorem exists_splits (pattern : List UInt8) (h : ShortLines s) : ∃ pieces, Splits pattern s pieces ∧ grep pattern pieces = matching pattern s := by
  induction s using lines_induction with
  | tail t ht =>
    have hnil : Splits pattern [] [] := ⟨rfl,trivial⟩
    rw [matching_tail ht]
    by_cases hne : t = []
    · exact ⟨[],hne ▸ hnil,rfl⟩
    · have hlast := h.last
      rw [lastOf_tail ht] at hlast
      obtain ⟨h1,h2⟩ := read_cut ht hne hlast hnil
      rw [List.append_nil] at h1
      exact ⟨[t],h1,h2⟩
  | line l s hl ih =>
    obtain ⟨pieces,h1,h2⟩ := ih (h.after hl)
    obtain ⟨h3,h4⟩ := read_line hl (h.first hl).1 (h.first hl).2 h1
    exact ⟨_,h3,by rw [h4, h2, matching_line hl]⟩

/-- A read for each line, but one line is cut. -/
theorem exists_cut (pattern : List UInt8) (h : ShortLines s) {u t : List UInt8} (hut : u ++ t ∈ linesOf s) (hu : u ≠ []) :
    ∃ pieces before after, Splits pattern s pieces ∧
      grep pattern pieces = before ++ (if matchText pattern t then t ++ [newline] else []) ++ after ∧
      matching pattern s = before ++ (if matchText pattern (u ++ t) then u ++ t ++ [newline] else []) ++ after := by
  induction s using lines_induction with
  | tail r hr =>
    rw [linesOf_tail hr] at hut
    exact absurd hut List.not_mem_nil
  | line l s hl ih =>
    rw [linesOf_line hl] at hut
    rcases List.mem_cons.mp hut with rfl | hut
    · obtain ⟨hlen,h0⟩ := h.first hl
      rw [List.length_append] at hlen
      obtain ⟨pieces,h1,h2⟩ := exists_splits pattern (h.after hl)
      obtain ⟨h3,h4⟩ := read_line (l := t) (fun hmem => hl (List.mem_append_right _ hmem)) (by omega)
        (fun hmem => h0 (List.mem_append_right _ hmem)) h1
      obtain ⟨h5,h6⟩ := read_cut (fun hmem => hl (List.mem_append_left _ hmem)) hu (by omega) h3
      refine ⟨u :: (t ++ [newline]) :: pieces,[],matching pattern s,?_,?_,?_⟩
      · rw [List.append_assoc]
        exact h5
      · rw [h6, h4, h2, List.nil_append]
      · rw [matching_line hl, List.nil_append]
    · obtain ⟨pieces,before,after,h1,h2,h3⟩ := ih (h.after hl) hut
      obtain ⟨h4,h5⟩ := read_line hl (h.first hl).1 (h.first hl).2 h1
      refine ⟨(l ++ [newline]) :: pieces,(if matchText pattern l then l ++ [newline] else []) ++ before,after,h4,?_,?_⟩
      · rw [h5, h2]
        simp only [List.append_assoc]
      · rw [matching_line hl, h3]
        simp only [List.append_assoc]

end Pieces

/-- Any two ways to split the stream give the same output: the lines that match. -/
def SameForAllReads (pattern stream : List UInt8) : Prop :=
  ∀ pieces pieces', Splits pattern stream pieces → Splits pattern stream pieces' →
    grep pattern pieces = grep pattern pieces' ∧ grep pattern pieces = matching pattern stream

theorem sameForAllReads_of_noSuffix (h0 : 0 ∉ s) (h : NoSuffixMatches pattern s) : SameForAllReads pattern s := by
  have hgrep : ∀ pieces, Splits pattern s pieces → grep pattern pieces = matching pattern s := by
    rintro pieces ⟨rfl,hfits⟩
    exact readLoop_of_noSuffix (m := []) hfits.ne_nil h0 h List.not_mem_nil
  exact fun _ _ h1 h2 => ⟨(hgrep _ h1).trans (hgrep _ h2).symm,hgrep _ h1⟩

/-- A line that is cut gives the same output only if neither it nor what is left of it matches. -/
theorem noSuffix_of_sameForAllReads (hs : ShortLines s) (h : SameForAllReads pattern s) : NoSuffixMatches pattern s := by
  have hcut : ∀ u t, u ++ t ∈ linesOf s → u ≠ [] → (if matchText pattern t then t ++ [newline] else []) =
      if matchText pattern (u ++ t) then u ++ t ++ [newline] else [] := by
    intro u t hut hu
    obtain ⟨pieces,before,after,h1,h2,h3⟩ := exists_cut pattern hs hut hu
    have heq := (h pieces pieces h1 h1).2
    rw [h2, h3] at heq
    exact List.append_cancel_left (List.append_cancel_right heq)
  intro l hl hne
  have hwhole : matchText pattern l = false := by
    by_contra hm
    have hlen := congrArg List.length (hcut l [] (by rwa [List.append_nil]) hne)
    have hpos := List.length_pos_of_ne_nil hne
    rw [List.append_nil, Bool.eq_true_of_not_eq_false hm, if_pos (Eq.refl true), List.length_append] at hlen
    split at hlen
    · rw [List.nil_append] at hlen
      omega
    · rw [List.length_nil] at hlen
      omega
  rintro t ⟨u,rfl⟩
  by_cases hu : u = []
  · subst hu
    exact hwhole
  · have heq := hcut u t hl hu
    rw [hwhole, if_neg Bool.false_ne_true] at heq
    by_contra hm
    rw [Bool.eq_true_of_not_eq_false hm, if_pos (Eq.refl true)] at heq
    exact List.append_ne_nil_of_right_ne_nil t (List.cons_ne_nil _ _) heq

/-- The output of `grep` does not depend on the reads if and only if no suffix of a line
with bytes matches; reads that each end a line always give the lines that match. -/
theorem grep_sameForAllReads_iff (h : ShortLines s) :
    (SameForAllReads pattern s ↔ NoSuffixMatches pattern s) ∧
      ∀ pieces, Splits pattern s pieces →
        (∀ before p after, pieces = before ++ p :: after → newline ∈ p ∨ newline ∉ after.flatten) →
        grep pattern pieces = matching pattern s := by
  refine ⟨⟨noSuffix_of_sameForAllReads h,sameForAllReads_of_noSuffix h.nul⟩,?_⟩
  rintro pieces ⟨rfl,-⟩ hends
  exact readLoop_of_newlines (m := []) h.nul List.not_mem_nil hends

theorem noMatch_sameForAllReads : ShortLines [98,10] ∧ ((SameForAllReads [97] [98,10] ↔ NoSuffixMatches [97] [98,10]) ∧
    ∀ pieces, Splits [97] [98,10] pieces →
      (∀ before p after, pieces = before ++ p :: after → newline ∈ p ∨ newline ∉ after.flatten) →
      grep [97] pieces = matching [97] [98,10]) :=
  ⟨⟨by decide,by decide,by decide⟩,grep_sameForAllReads_iff ⟨by decide,by decide,by decide⟩⟩

/-- The line `ab` matches `a`, but it is lost if the first read gives its first byte. -/
theorem cut_line_is_lost : ShortLines [97,98,10] ∧ Splits [97] [97,98,10] [[97],[98,10]] ∧
    grep [97] [[97],[98,10]] = [] ∧ matching [97] [97,98,10] = [97,98,10] ∧ ¬ SameForAllReads [97] [97,98,10] := by
  have hb : matchText [97] [98] = false := by
    simp +decide [matchText, matchLoop, matchhere_cons]
  have hab : matchText [97] [97,98] = true := by
    simp +decide [matchText, matchLoop, matchhere_cons, matchhere_nil]
  have hnil : Splits [97] [] [] := ⟨rfl,trivial⟩
  obtain ⟨h1,h2⟩ := read_line (l := [98]) (by decide) (by decide) (by decide) hnil
  obtain ⟨h3,h4⟩ := read_cut (l := [97]) (by decide) (List.cons_ne_nil _ _) (by decide) h1
  have hgrep : grep [97] [[97],[98,10]] = [] := by
    refine h4.trans (h2.trans ?_)
    rw [hb]
    rfl
  have hmatching : matching [97] [97,98,10] = [97,98,10] := by
    refine (matching_line (l := [97,98]) (s := []) (by decide)).trans ?_
    rw [hab]
    rfl
  refine ⟨⟨by decide,by decide,by decide⟩,h3,hgrep,hmatching,fun h => ?_⟩
  exact List.cons_ne_nil _ _ (hmatching.symm.trans ((h _ _ h3 h3).2.symm.trans hgrep))

end X86OsDev.Xv6.Grep
