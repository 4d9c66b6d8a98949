import X86OsDev.Xv6.ShParse
import Mathlib.Data.List.TakeWhile

/-! # The strings of a parsed command

`nulterminate` writes a nul behind each word, over a character of the line that
belongs to no word. So the words of the line become the strings of the command.
-/
namespace X86OsDev.Xv6.Sh
open Memory

/-- The strings and the file names of a command. -/
def Cmd.words : Cmd → List (ℕ × ℕ)
  | .exec argv => argv
  | .redir cmd file efile _ _ => cmd.words ++ [(file,efile)]
  | .pipe left right => left.words ++ right.words
  | .list left right => left.words ++ right.words
  | .back cmd => cmd.words

/-- The argument vectors of a command. -/
def Cmd.argvs : Cmd → List (List (ℕ × ℕ))
  | .exec argv => [argv]
  | .redir cmd _ _ _ _ => cmd.argvs
  | .pipe left right => left.argvs ++ right.argvs
  | .list left right => left.argvs ++ right.argvs
  | .back cmd => cmd.argvs

/-- Where the words of a line lie. -/
def wordTokens (ts : List Token) : List (ℕ × ℕ) := (ts.filter (·.ret = chr 'a')).map fun t => (t.q,t.eq)

/-- The characters from the first address up to the second. -/
def text (m : Mem) (w : ℕ × ℕ) : List UInt8 := (List.range (w.2 - w.1)).map fun i => m (w.1 + i)

/-- The strings of the command are the words of the line, and those of one argument vector are in the order of the
line. -/
structure Terminated (m m' : Mem) (ts : List Token) (cmd : Cmd) : Prop where
  strings : ∀ w ∈ cmd.words, StringAt m' (.addr w.1) (text m w)
  words : cmd.words.Perm (wordTokens ts)
  order : ∀ argv ∈ cmd.argvs, argv.Sublist (wordTokens ts)

/-! ## The words of a derivation -/

section Words
variable {ts us : List Token} {t : Token}

@[simp] theorem wordTokens_append : wordTokens (ts ++ us) = wordTokens ts ++ wordTokens us := by simp [wordTokens]

@[simp] theorem wordTokens_nil : wordTokens [] = [] := rfl

theorem wordTokens_word (h : t.ret = chr 'a') : wordTokens (t :: ts) = (t.q,t.eq) :: wordTokens ts := by
  simp [wordTokens, h]

theorem wordTokens_symbol (h : t.ret ≠ chr 'a') : wordTokens (t :: ts) = wordTokens ts := by
  simp [wordTokens, h]

/-- The words of a tree are those of its tokens. -/
structure Holds (ts : List Token) (cmd : Cmd) : Prop where
  words : cmd.words.Perm (wordTokens ts)
  order : ∀ argv ∈ cmd.argvs, argv.Sublist (wordTokens ts)

/-- The name of the file of a redirection. -/
def fileName (r : Token × Token) : ℕ × ℕ := (r.2.q,r.2.eq)

theorem words_foldl (rs : List (Token × Token)) : ∀ cmd, (rs.foldl wrap cmd).words = cmd.words ++ rs.map fileName ∧
    (rs.foldl wrap cmd).argvs = cmd.argvs := by
  induction rs with
  | nil => intro cmd; simp
  | cons r rs ih =>
    intro cmd
    have hwrap : (wrap cmd r).words = cmd.words ++ [fileName r] ∧ (wrap cmd r).argvs = cmd.argvs := by
      unfold wrap
      split
      · exact ⟨rfl,rfl⟩
      · exact ⟨rfl,rfl⟩
    obtain ⟨h1,h2⟩ := ih (wrap cmd r)
    rw [List.foldl_cons, h1, h2, hwrap.1, hwrap.2, List.append_assoc]
    exact ⟨rfl,rfl⟩

theorem Redirs.words {rs : List (Token × Token)} (h : Redirs ts rs) : wordTokens ts = rs.map fileName := by
  induction h with
  | nil => rfl
  | @cons op file ts rs hop hfile h ih =>
    rw [wordTokens_symbol fun ha => word_not_redir ha hop, wordTokens_word hfile, ih]
    rfl

theorem perm_front (xs ys zs : List (ℕ × ℕ)) : (xs ++ (ys ++ zs)).Perm (ys ++ (xs ++ zs)) := by
  rw [← List.append_assoc, ← List.append_assoc]
  exact List.perm_append_comm.append_right _

theorem Words.words {ws : List (ℕ × ℕ)} {qs : List (Token × Token)} (h : Words ts ws qs) :
    (ws ++ qs.map fileName).Perm (wordTokens ts) ∧ ws.Sublist (wordTokens ts) := by
  induction h with
  | nil => exact ⟨.nil,.slnil⟩
  | @cons word ts us ws rs qs hw hr h ih =>
    rw [wordTokens_word hw, wordTokens_append, hr.words, List.map_append]
    refine ⟨?_,(ih.2.trans (List.sublist_append_right _ _)).cons_cons _⟩
    exact (((perm_front _ _ _).trans (ih.1.append_left _)).cons _)

theorem wordTokens_backs {bs : List Token} (hb : ∀ b ∈ bs, b.ret = chr '&') : wordTokens bs = [] := by
  induction bs with
  | nil => rfl
  | cons b bs ih =>
    rw [wordTokens_symbol (by rw [hb b (by simp)]; decide)]
    exact ih fun b' hb' => hb b' (by simp [hb'])

theorem words_backs (n : ℕ) (cmd : Cmd) : (Cmd.back^[n] cmd).words = cmd.words ∧ (Cmd.back^[n] cmd).argvs = cmd.argvs := by
  induction n generalizing cmd with
  | zero => exact ⟨rfl,rfl⟩
  | succ n ih => exact ih (.back cmd)

/-- Two commands one after the other. -/
theorem Holds.append {left right : Cmd} (h : Holds ts left) (h' : Holds us right) :
    (left.words ++ right.words).Perm (wordTokens ts ++ wordTokens us) ∧
      ∀ argv ∈ left.argvs ++ right.argvs, argv.Sublist (wordTokens ts ++ wordTokens us) := by
  refine ⟨h.words.append h'.words,fun argv ha => ?_⟩
  rcases List.mem_append.mp ha with ha | ha
  · exact (h.order argv ha).trans (List.sublist_append_left _ _)
  · exact (h'.order argv ha).trans (List.sublist_append_right _ _)

mutual

theorem LineOf.holds : ∀ {ts : List Token} {cmd : Cmd}, LineOf ts cmd → Holds ts cmd
  | _, _, @LineOf.last ts bs cmd h hb => by
    obtain ⟨h1,h2⟩ := words_backs bs.length cmd
    have hp := h.holds
    constructor
    · rw [h1, wordTokens_append, wordTokens_backs hb, List.append_nil]
      exact hp.words
    · rw [h2, wordTokens_append, wordTokens_backs hb, List.append_nil]
      exact hp.order
  | _, _, @LineOf.next ts bs us semi cmd right h hb hs hr => by
    obtain ⟨h1,h2⟩ := words_backs bs.length cmd
    have hboth := h.holds.append hr.holds
    have hwords : wordTokens (ts ++ (bs ++ semi :: us)) = wordTokens ts ++ wordTokens us := by
      rw [wordTokens_append, wordTokens_append, wordTokens_backs hb, wordTokens_symbol (by rw [hs]; decide)]
      rfl
    constructor
    · rw [hwords, Cmd.words, h1]
      exact hboth.1
    · rw [hwords, Cmd.argvs, h2]
      exact hboth.2

theorem PipeOf.holds : ∀ {ts : List Token} {cmd : Cmd}, PipeOf ts cmd → Holds ts cmd
  | _, _, .last h => h.holds
  | _, _, @PipeOf.next ts us bar left right h hb hr => by
    have hboth := h.holds.append hr.holds
    have hwords : wordTokens (ts ++ bar :: us) = wordTokens ts ++ wordTokens us := by
      rw [wordTokens_append, wordTokens_symbol (by rw [hb]; decide)]
    constructor
    · rw [hwords]
      exact hboth.1
    · rw [hwords]
      exact hboth.2

theorem ExecOf.holds : ∀ {ts : List Token} {cmd : Cmd}, ExecOf ts cmd → Holds ts cmd
  | _, _, @ExecOf.block ts us l r cmd rs hl h hr hrs => by
    obtain ⟨h1,h2⟩ := words_foldl rs cmd
    have hp := h.holds
    have hwords : wordTokens (l :: (ts ++ r :: us)) = wordTokens ts ++ rs.map fileName := by
      rw [wordTokens_symbol (by rw [hl]; decide), wordTokens_append, wordTokens_symbol (by rw [hr]; decide), hrs.words]
    constructor
    · rw [h1, hwords]
      exact hp.words.append_right _
    · rw [h2, hwords]
      exact fun argv ha => (hp.order argv ha).trans (List.sublist_append_left _ _)
  | _, _, @ExecOf.words ts us ws rs qs hrs hw hfew => by
    obtain ⟨h1,h2⟩ := words_foldl (rs ++ qs) (.exec ws)
    constructor
    · rw [h1, wordTokens_append, hrs.words, List.map_append]
      exact (perm_front _ _ _).trans (hw.words.1.append_left _)
    · rw [h2, wordTokens_append]
      intro argv ha
      obtain rfl := List.mem_singleton.mp ha
      exact hw.words.2.trans (List.sublist_append_right _ _)

end

end Words

/-! ## Where the words lie -/

section Places
variable {m : Mem} {lo es : ℕ}

/-- A word of the line: its characters, and that it ends before a character of another kind or with the line. -/
structure WordAt (m : Mem) (lo es : ℕ) (w : ℕ × ℕ) : Prop where
  low : lo ≤ w.1
  lt : w.1 < w.2
  high : w.2 ≤ es
  chars : ∀ x, w.1 ≤ x → x < w.2 → wordChar (m x) = true
  stop : w.2 < es → wordChar (m w.2) = false

theorem gettoken_word {s : ℕ} (L : Line m lo es) (hlo : lo ≤ s) (hs : s ≤ es) (hw : (gettoken m es s).1.ret = chr 'a') :
    WordAt m lo es ((gettoken m es s).1.q,(gettoken m es s).1.eq) := by
  obtain ⟨hskip,-,-⟩ := skip_spec (m := m) hs
  rcases gettoken_spec L hlo hs with ⟨-,hret,-⟩ | ⟨hlt,-,hq,hqe,hle,hes⟩
  · rw [hret] at hw
    exact absurd hw (by decide)
  · obtain ⟨hchars,hstop⟩ := tokenAt_word (L.nonzero _ (hlo.trans hskip) hlt) hlt hw
    exact ⟨by rw [hq]; omega,hqe,hle.trans hes,hchars,hstop⟩

theorem wordTokens_placed (L : Line m lo es) (n : ℕ) : ∀ s, lo ≤ s → s ≤ es → ∀ w ∈ wordTokens (tokens m es n s),
    WordAt m lo es w := by
  induction n with
  | zero => intro s _ _ w hw; cases hw
  | succ n ih =>
    intro s hlo hs w hw
    rw [tokens] at hw
    rcases gettoken_spec L hlo hs with ⟨-,hret,-⟩ | ⟨-,hret,hq,hlt,hle,hes⟩
    · rw [if_pos hret] at hw
      cases hw
    · obtain ⟨hskip,-,-⟩ := skip_spec (m := m) hs
      rw [if_neg hret] at hw
      by_cases ha : (gettoken m es s).1.ret = chr 'a'
      · rw [wordTokens_word ha] at hw
        rcases List.mem_cons.mp hw with rfl | hw
        · exact gettoken_word L hlo hs ha
        · exact ih _ (by omega) hes w hw
      · rw [wordTokens_symbol ha] at hw
        exact ih _ (by omega) hes w hw

theorem foldl_store8 (l : List (ℕ × ℕ)) (x : ℕ) : ∀ m : Mem, (l.foldl (fun m w => store8 m w.2 0) m) x =
    if ∃ w ∈ l, w.2 = x then 0 else m x := by
  induction l with
  | nil => intro m; simp
  | cons w l ih =>
    intro m
    rw [List.foldl_cons, ih]
    by_cases hl : ∃ w ∈ l, w.2 = x
    · obtain ⟨w',hw',hx⟩ := hl
      rw [if_pos ⟨w',hw',hx⟩, if_pos ⟨w',List.mem_cons_of_mem _ hw',hx⟩]
    · rw [if_neg hl]
      unfold store8
      by_cases hx : x = w.2
      · rw [if_pos hx, if_pos ⟨w,List.mem_cons_self,hx.symm⟩]
        rfl
      · rw [if_neg hx, if_neg]
        rintro ⟨w',hw',hx'⟩
        rcases List.mem_cons.mp hw' with rfl | hw'
        · exact hx hx'.symm
        · exact hl ⟨w',hw',hx'⟩

/-- `nulterminate` writes a nul behind each word of the command, and nothing else. -/
theorem nulterminate_eq (cmd : Cmd) : ∀ m : Mem, (∀ w ∈ cmd.words, w.1 ≠ 0) →
    nulterminate cmd m = cmd.words.foldl (fun m w => store8 m w.2 0) m := by
  induction cmd with
  | exec argv =>
    intro m hw
    have hall : argv.takeWhile (fun w => decide (w.1 ≠ 0)) = argv :=
      List.takeWhile_eq_self_iff.mpr fun w hw' => decide_eq_true (hw w hw')
    rw [nulterminate, hall]
    rfl
  | redir cmd file efile mode fd ih =>
    intro m hw
    rw [nulterminate, Cmd.words, List.foldl_append, ih m fun w hw' => hw w (List.mem_append_left _ hw')]
    rfl
  | pipe left right ihl ihr =>
    intro m hw
    rw [nulterminate, Cmd.words, List.foldl_append, ihl m fun w hw' => hw w (List.mem_append_left _ hw')]
    exact ihr _ fun w hw' => hw w (List.mem_append_right _ hw')
  | list left right ihl ihr =>
    intro m hw
    rw [nulterminate, Cmd.words, List.foldl_append, ihl m fun w hw' => hw w (List.mem_append_left _ hw')]
    exact ihr _ fun w hw' => hw w (List.mem_append_right _ hw')
  | back cmd ih =>
    intro m hw
    exact ih m hw

/-- No nul falls into a word, so each word ends where it ended in the line. -/
theorem WordAt.stringAt {l : List (ℕ × ℕ)} {w : ℕ × ℕ} (L : Line m lo es) (hl : ∀ w ∈ l, WordAt m lo es w) (hw : w ∈ l) :
    StringAt (l.foldl (fun m w => store8 m w.2 0) m) (.addr w.1) (text m w) := by
  have h := hl w hw
  have hlt := h.lt
  have hlen : (text m w).length = w.2 - w.1 := by simp [text]
  refine ⟨fun i hi => ?_,?_,fun h0 => ?_⟩
  · rw [hlen] at hi
    have hno : ¬ ∃ w' ∈ l, w'.2 = w.1 + i := by
      rintro ⟨w',hw',hx⟩
      have hchar := h.chars (w.1 + i) (by omega) (by omega)
      have hhigh := h.high
      rw [← hx, (hl w' hw').stop (by omega)] at hchar
      cases hchar
    rw [Str.byte, foldl_store8, if_neg hno]
    simp [text]
  · rw [hlen, Str.byte, foldl_store8, if_pos ⟨w,hw,by omega⟩]
  · obtain ⟨i,hi,hz⟩ := List.mem_map.mp h0
    have hi := List.mem_range.mp hi
    have hlow := h.low
    have hhigh := h.high
    exact L.nonzero (w.1 + i) (by omega) (by omega) hz

end Places

/-- After `parsecmd` the strings of the command are exactly the words of the line. -/
theorem parsecmd_words {m m' : Mem} {s fuel : ℕ} {line : List UInt8} {cmd : Cmd} (h : StringAt m (.addr s) line) (hs : 0 < s)
    (hfuel : 4 * line.length + 4 ≤ fuel) (hrun : parsecmd fuel m s = .ok (cmd,m')) :
    Terminated m m' (lineTokens m (s + line.length) s) cmd := by
  have L := line_of_string h
  rw [(parsecmd_eq h hfuel).2] at hrun
  obtain ⟨hline,rfl⟩ := finish_ok (tokens_ret _ _) hrun
  obtain ⟨hwords,horder⟩ := hline.holds
  have hplaced : ∀ w ∈ cmd.words, WordAt m s (s + line.length) w := fun w hw =>
    wordTokens_placed L _ s le_rfl (Nat.le_add_right _ _) w (hwords.mem_iff.mp hw)
  refine ⟨fun w hw => ?_,hwords,horder⟩
  rw [nulterminate_eq cmd m fun w hw => Nat.ne_of_gt (hs.trans_le (hplaced w hw).low)]
  exact WordAt.stringAt L hplaced hw

/-! ## A line without spaces -/

/-- A line in memory. -/
def placed (s : ℕ) (line : List UInt8) : Mem := fun x => if x < s then 0 else line.getD (x - s) 0

theorem placed_string {line : List UInt8} (s : ℕ) (h0 : 0 ∉ line) : StringAt (placed s line) (.addr s) line where
  bytes i hi := by
    simp only [Str.byte, placed]
    rw [if_neg (by omega), Nat.add_sub_cancel_left, List.getD_eq_getElem _ _ hi]
  stop := by
    simp only [Str.byte, placed]
    rw [if_neg (by omega), Nat.add_sub_cancel_left, List.getD_eq_default _ _ le_rfl]
  nonzero := h0

/-- `a|b>c` -/
def tightLine : List UInt8 := [chr 'a',chr '|',chr 'b',chr '>',chr 'c']

theorem tightLine_string : StringAt (placed 1 tightLine) (.addr 1) tightLine :=
  placed_string 1 (by decide)

/-- The tree of `a|b>c`. -/
def tightCmd : Cmd := .pipe (.exec [(1,2)]) (.redir (.exec [(3,4)]) 5 6 (oWronly ||| oCreate) 1)

theorem tightLine_run : parsecmd 24 (placed 1 tightLine) 1 = .ok (tightCmd,nulterminate tightCmd (placed 1 tightLine)) := rfl

theorem tightLine_words :
    Terminated (placed 1 tightLine) (nulterminate tightCmd (placed 1 tightLine)) (lineTokens (placed 1 tightLine) 6 1) tightCmd :=
  parsecmd_words tightLine_string (by decide) (by decide) tightLine_run

theorem tightLine_accepted : LineOf (lineTokens (placed 1 tightLine) 6 1) tightCmd :=
  (((parsecmd_accepts tightLine_string (by decide)).2.1 _ _).mp tightLine_run).1

end X86OsDev.Xv6.Sh
