import X86OsDev.Xv6.Sh

/-! # The tokens of a command line

Every token ends after it begins, so a line has finitely many, and the parser on
the line does what it does on the list of its tokens.
-/
namespace X86OsDev.Xv6.Sh
open Memory

/-- No nul before `es` from `lo` on, and one at `es`. -/
structure Line (m : Mem) (lo es : ℕ) : Prop where
  nonzero : ∀ x, lo ≤ x → x < es → m x ≠ 0
  stop : m es = 0

section Scan
variable {m : Mem} {p : UInt8 → Bool}

theorem scan_spec (n : ℕ) : ∀ s, s ≤ scan m p n s ∧ scan m p n s ≤ s + n ∧
    (∀ x, s ≤ x → x < scan m p n s → p (m x) = true) ∧ (scan m p n s < s + n → p (m (scan m p n s)) = false) := by
  induction n with
  | zero =>
    intro s
    refine ⟨le_rfl,le_rfl,fun x h1 h2 => ?_,fun h => ?_⟩
    · exact absurd h1 (Nat.not_le_of_lt h2)
    · exact absurd h (lt_irrefl s)
  | succ n ih =>
    intro s
    rw [scan]
    split
    · rename_i hp
      obtain ⟨h1,h2,h3,h4⟩ := ih (s + 1)
      refine ⟨by omega,by omega,fun x hx1 hx2 => ?_,fun h => h4 (by omega)⟩
      by_cases hx : x = s
      · rw [hx]
        exact hp
      · exact h3 x (by omega) hx2
    · rename_i hp
      exact ⟨le_rfl,by omega,fun x h1 h2 => by omega,fun _ => Bool.eq_false_iff.mpr hp⟩

theorem scan_of_not {n s : ℕ} (h : p (m s) = false) : scan m p n s = s := by
  cases n with
  | zero => rfl
  | succ n => rw [scan, h]; rfl

end Scan

section Tokens
variable {m : Mem} {lo es s : ℕ}

theorem skip_spec (hs : s ≤ es) : s ≤ skip m es s ∧ skip m es s ≤ es ∧
    (skip m es s < es → strchr whitespace (m (skip m es s)) = false) := by
  obtain ⟨h1,h2,-,h4⟩ := scan_spec (m := m) (p := strchr whitespace) (es - s) s
  unfold skip
  exact ⟨h1,by omega,fun h => h4 (by omega)⟩

theorem skip_skip (hs : s ≤ es) : skip m es (skip m es s) = skip m es s := by
  obtain ⟨-,h2,h3⟩ := skip_spec (m := m) hs
  rcases Nat.lt_or_eq_of_le h2 with h | h
  · exact scan_of_not (h3 h)
  · rw [h]
    unfold skip
    rw [Nat.sub_self]
    rfl

/-- The character that a token with this value begins with, if it is not a word. -/
def firstChar (ret : UInt8) : UInt8 := if ret = chr '+' then chr '>' else ret

theorem simple_symbol {c : UInt8} (h : strchr [chr '|',chr '(',chr ')',chr ';',chr '&',chr '<'] c = true) :
    strchr symbols c = true ∧ firstChar c = c ∧ c ≠ chr 'a' := by
  have hc := List.contains_iff_mem.mp h
  simp only [List.mem_cons, List.not_mem_nil, or_false] at hc
  rcases hc with rfl | rfl | rfl | rfl | rfl | rfl
  all_goals decide

theorem not_symbol {c : UInt8} (h : ¬ strchr [chr '|',chr '(',chr ')',chr ';',chr '&',chr '<'] c = true)
    (hgt : c ≠ chr '>') : strchr symbols c = false := by
  refine Bool.eq_false_iff.mpr fun hc => ?_
  have hc := List.contains_iff_mem.mp hc
  simp only [symbols, List.mem_cons, List.not_mem_nil, or_false] at hc
  refine h (List.contains_iff_mem.mpr ?_)
  simp only [List.mem_cons, List.not_mem_nil, or_false]
  tauto

/-- A token is a symbol, or a word as long as it can be. -/
theorem tokenAt_cases (es : ℕ) (hne : m s ≠ 0) :
    (strchr symbols (m s) = true ∧ firstChar (tokenAt m es s).1 = m s ∧ (tokenAt m es s).1 ≠ 0 ∧
        (tokenAt m es s).1 ≠ chr 'a' ∧
        ((tokenAt m es s).2 = s + 1 ∨ m (s + 1) = chr '>' ∧ (tokenAt m es s).2 = s + 2)) ∨
      (strchr symbols (m s) = false ∧ tokenAt m es s = (chr 'a',scan m wordChar (es - s) s)) := by
  unfold tokenAt
  rw [if_neg hne]
  split
  · rename_i hsym
    obtain ⟨h1,h2,h3⟩ := simple_symbol hsym
    exact .inl ⟨h1,h2,hne,h3,.inl rfl⟩
  · rename_i hsym
    split
    · rename_i hgt
      refine .inl ?_
      split
      · rename_i hnext
        rw [hgt]
        dsimp only
        exact ⟨by decide,by decide,by decide,by decide,.inr ⟨hnext,rfl⟩⟩
      · rw [hgt]
        dsimp only
        exact ⟨by decide,by decide,by decide,by decide,.inl rfl⟩
    · rename_i hgt
      exact .inr ⟨not_symbol hsym hgt,rfl⟩

/-- The token at a character of the line. -/
theorem tokenAt_spec (L : Line m lo es) (hlo : lo ≤ s) (hlt : s < es) (hspace : strchr whitespace (m s) = false) :
    (tokenAt m es s).1 ≠ 0 ∧ s < (tokenAt m es s).2 ∧ (tokenAt m es s).2 ≤ es := by
  rcases tokenAt_cases es (L.nonzero s hlo hlt) with ⟨-,-,hret,-,hend⟩ | ⟨hsym,heq⟩
  · rcases hend with hend | ⟨hnext,hend⟩
    · exact ⟨hret,by omega,by omega⟩
    · have hin : s + 1 ≠ es := by
        rintro rfl
        rw [L.stop] at hnext
        revert hnext
        decide
      exact ⟨hret,by omega,by omega⟩
  · obtain ⟨h1,h2,-,h4⟩ := scan_spec (m := m) (p := wordChar) (es - s) s
    have hword : wordChar (m s) = true := by
      unfold wordChar
      rw [hspace, hsym]
      rfl
    rw [heq]
    dsimp only
    refine ⟨by decide,?_,by omega⟩
    rcases Nat.lt_or_eq_of_le h1 with h | h
    · exact h
    · have := h4 (by omega)
      rw [← h, hword] at this
      cases this

/-- A word ends at a character that no word has, or with the line. -/
theorem tokenAt_word (hne : m s ≠ 0) (hlt : s < es) (hw : (tokenAt m es s).1 = chr 'a') :
    (∀ x, s ≤ x → x < (tokenAt m es s).2 → wordChar (m x) = true) ∧
      ((tokenAt m es s).2 < es → wordChar (m (tokenAt m es s).2) = false) := by
  rcases tokenAt_cases es hne with ⟨-,-,-,hnot,-⟩ | ⟨-,heq⟩
  · exact absurd hw hnot
  · obtain ⟨-,-,h3,h4⟩ := scan_spec (m := m) (p := wordChar) (es - s) s
    rw [heq]
    exact ⟨h3,fun h => h4 (by dsimp only at h; omega)⟩

/-- `gettoken` at the end of the line, and before it. -/
theorem gettoken_spec (L : Line m lo es) (hlo : lo ≤ s) (hs : s ≤ es) :
    (skip m es s = es ∧ (gettoken m es s).1.ret = 0 ∧ (gettoken m es s).2 = es) ∨
      (skip m es s < es ∧ (gettoken m es s).1.ret ≠ 0 ∧ (gettoken m es s).1.q = skip m es s ∧
        (gettoken m es s).1.q < (gettoken m es s).1.eq ∧ (gettoken m es s).1.eq ≤ (gettoken m es s).2 ∧
        (gettoken m es s).2 ≤ es) := by
  obtain ⟨h1,h2,h3⟩ := skip_spec (m := m) hs
  rcases Nat.lt_or_eq_of_le h2 with h | h
  · obtain ⟨hret,hlt,hle⟩ := tokenAt_spec L (hlo.trans h1) h (h3 h)
    obtain ⟨h4,h5,-⟩ := skip_spec (m := m) hle
    exact .inr ⟨h,hret,rfl,hlt,h4,h5⟩
  · refine .inl ⟨h,?_,?_⟩
    · unfold gettoken tokenAt
      dsimp only
      rw [h, if_pos L.stop]
    · unfold gettoken tokenAt
      dsimp only
      rw [h, if_pos L.stop]
      unfold skip
      rw [Nat.sub_self]
      rfl

end Tokens

/-- The tokens from `s` on, of which there are at most `n`. -/
def tokens (m : Mem) (es : ℕ) : ℕ → ℕ → List Token
  | 0, _ => []
  | n + 1, s => if (gettoken m es s).1.ret = 0 then []
    else (gettoken m es s).1 :: tokens m es n (gettoken m es s).2

def lineTokens (m : Mem) (es s : ℕ) : List Token := tokens m es (es - s) s

section List
variable {m : Mem} {lo es s : ℕ}

theorem tokens_fuel (L : Line m lo es) (n : ℕ) : ∀ k s, lo ≤ s → s ≤ es → es - s ≤ n → es - s ≤ k →
    tokens m es n s = tokens m es k s := by
  have hend : ∀ k, lo ≤ es → tokens m es k es = [] := by
    intro k hlo
    cases k with
    | zero => rfl
    | succ k =>
      rcases gettoken_spec L hlo le_rfl with ⟨-,hret,-⟩ | ⟨hlt,-⟩
      · rw [tokens, if_pos hret]
      · have := (skip_spec (m := m) (le_refl es)).1
        omega
  induction n with
  | zero =>
    intro k s hlo hs h1 h2
    obtain rfl : s = es := by omega
    rw [hend k hlo]
    rfl
  | succ n ih =>
    intro k s hlo hs h1 h2
    cases k with
    | zero =>
      obtain rfl : s = es := by omega
      rw [hend _ hlo]
      rfl
    | succ k =>
      rw [tokens, tokens]
      rcases gettoken_spec L hlo hs with ⟨-,hret,-⟩ | ⟨-,hret,hq,hlt,hle,hes⟩
      · rw [if_pos hret, if_pos hret]
      · have := (skip_spec (m := m) hs).1
        rw [if_neg hret, if_neg hret, ih k _ (by omega) hes (by omega) (by omega)]

theorem lineTokens_nil (L : Line m lo es) (hlo : lo ≤ s) (hs : s ≤ es) (hret : (gettoken m es s).1.ret = 0) :
    lineTokens m es s = [] := by
  unfold lineTokens
  rw [tokens_fuel L _ (es - s + 1) s hlo hs le_rfl (by omega), tokens, if_pos hret]

theorem lineTokens_cons (L : Line m lo es) (hlo : lo ≤ s) (hs : s ≤ es) (hret : (gettoken m es s).1.ret ≠ 0) :
    lineTokens m es s = (gettoken m es s).1 :: lineTokens m es (gettoken m es s).2 := by
  rcases gettoken_spec L hlo hs with ⟨-,h0,-⟩ | ⟨-,-,hq,hlt,hle,hes⟩
  · exact absurd h0 hret
  · have := (skip_spec (m := m) hs).1
    unfold lineTokens
    rw [tokens_fuel L _ (es - s + 1) s hlo hs le_rfl (by omega), tokens, if_neg hret,
      tokens_fuel L (es - s) _ _ (by omega) hes (by omega) le_rfl]

theorem gettoken_skip (hs : s ≤ es) : gettoken m es (skip m es s) = gettoken m es s := by
  unfold gettoken
  rw [skip_skip hs]

theorem lineTokens_skip (L : Line m lo es) (hlo : lo ≤ s) (hs : s ≤ es) :
    lineTokens m es (skip m es s) = lineTokens m es s := by
  obtain ⟨h1,h2,-⟩ := skip_spec (m := m) hs
  by_cases hret : (gettoken m es s).1.ret = 0
  · rw [lineTokens_nil L hlo hs hret, lineTokens_nil L (hlo.trans h1) h2 (by rw [gettoken_skip hs]; exact hret)]
  · rw [lineTokens_cons L hlo hs hret, lineTokens_cons L (hlo.trans h1) h2 (by rw [gettoken_skip hs]; exact hret),
      gettoken_skip hs]

end List

/-! ## The parser on the list of the tokens -/

/-- A list of tokens as a line. -/
def tokenCursor : Cursor (List Token) where
  gettoken
    | [] => (⟨0,0,0⟩,[])
    | t :: ts => (t,ts)
  peek
    | [], _ => (false,[])
    | t :: ts, toks => (strchr toks (firstChar t.ret),t :: ts)

/-- Two cursors at places that are related: they see the same characters and the same tokens, but for the
addresses of the end of the line. -/
structure Simulates {σ τ : Type} (c : Cursor σ) (d : Cursor τ) (R : σ → τ → Prop) : Prop where
  peek : ∀ s t toks, R s t → (∀ x ∈ toks, x ∈ symbols) →
    (c.peek s toks).1 = (d.peek t toks).1 ∧ R (c.peek s toks).2 (d.peek t toks).2
  gettoken : ∀ s t, R s t → R (c.gettoken s).2 (d.gettoken t).2 ∧
    ((c.gettoken s).1 = (d.gettoken t).1 ∨ (c.gettoken s).1.ret = 0 ∧ (d.gettoken t).1.ret = 0)

-- over the whole of Mathlib `decide` would go through all characters
theorem mem_of_all {l l' : List UInt8} (h : (l.all fun x => decide (x ∈ l')) = true) : ∀ x ∈ l, x ∈ l' := by
  simpa using h

/-- Two results that are equal up to the places of the cursors. -/
def Agree {σ τ : Type} (R : σ → τ → Prop) : Except Stop (Cmd × σ) → Except Stop (Cmd × τ) → Prop
  | .error e, .error e' => e = e'
  | .ok (cmd,s), .ok (cmd',t) => cmd = cmd' ∧ R s t
  | _, _ => False

section Sim
variable {σ τ : Type} {c : Cursor σ} {d : Cursor τ} {R : σ → τ → Prop}

theorem Agree.bind {x : Except Stop (Cmd × σ)} {y : Except Stop (Cmd × τ)} {f : Cmd × σ → Except Stop (Cmd × σ)}
    {g : Cmd × τ → Except Stop (Cmd × τ)} (h : Agree R x y) (hf : ∀ cmd s t, R s t → Agree R (f (cmd,s)) (g (cmd,t))) :
    Agree R (x >>= f) (y >>= g) := by
  match x, y, h with
  | .error e, .error e', h => exact h
  | .ok (cmd,s), .ok (cmd',t), h =>
    obtain ⟨rfl,hR⟩ := h
    exact hf cmd s t hR

theorem Simulates.ret (h : Simulates c d R) {s : σ} {t : τ} (hR : R s t) :
    (c.gettoken s).1.ret = (d.gettoken t).1.ret := by
  rcases (h.gettoken s t hR).2 with heq | ⟨h1,h2⟩
  · rw [heq]
  · rw [h1, h2]

theorem Simulates.token (h : Simulates c d R) {s : σ} {t : τ} (hR : R s t) (hret : (d.gettoken t).1.ret ≠ 0) :
    (c.gettoken s).1 = (d.gettoken t).1 := by
  rcases (h.gettoken s t hR).2 with heq | ⟨-,h2⟩
  · exact heq
  · exact absurd h2 hret

theorem Simulates.parseredirs (h : Simulates c d R) (n : ℕ) : ∀ cmd s t, R s t →
    Agree R (parseredirs c n cmd s) (parseredirs d n cmd t) := by
  induction n with
  | zero => intro cmd s t _; rfl
  | succ n ih =>
    intro cmd s t hR
    obtain ⟨hp,hR⟩ := h.peek s t [chr '<',chr '>'] hR (mem_of_all (by decide))
    rw [Sh.parseredirs, Sh.parseredirs]
    dsimp only
    rw [hp]
    by_cases hfound : (d.peek t [chr '<',chr '>']).1 = true
    · have hR1 := (h.gettoken _ _ hR).1
      have hR2 := (h.gettoken _ _ hR1).1
      rw [if_pos hfound, if_pos hfound, h.ret hR, h.ret hR1]
      by_cases hfile : (d.gettoken (d.gettoken (d.peek t [chr '<',chr '>']).2).2).1.ret = chr 'a'
      · rw [if_neg (not_not.mpr hfile), if_neg (not_not.mpr hfile), h.token hR1 (by rw [hfile]; decide)]
        exact ih _ _ _ hR2
      · rw [if_pos hfile, if_pos hfile]
        rfl
    · rw [if_neg hfound, if_neg hfound]
      exact ⟨rfl,hR⟩

theorem Simulates.parseargs (h : Simulates c d R) (n : ℕ) : ∀ argc ret s t, R s t →
    Agree R (parseargs c n argc ret s) (parseargs d n argc ret t) := by
  induction n with
  | zero => intro argc ret s t _; rfl
  | succ n ih =>
    intro argc ret s t hR
    obtain ⟨hp,hR⟩ := h.peek s t [chr '|',chr ')',chr '&',chr ';'] hR (mem_of_all (by decide))
    have hR1 := (h.gettoken _ _ hR).1
    have hret := h.ret hR
    rw [Sh.parseargs, Sh.parseargs]
    dsimp only
    rw [hp, hret]
    split
    · exact ⟨rfl,hR⟩
    · split
      · exact ⟨rfl,hR1⟩
      · rename_i hzero
        split
        · rfl
        · split
          · rfl
          · rw [h.token hR hzero]
            exact (h.parseredirs n _ _ _ hR1).bind fun cmd s t hR => ih _ _ _ _ hR

theorem Simulates.parsebacks (h : Simulates c d R) (n : ℕ) : ∀ cmd s t, R s t →
    Agree R (parsebacks c n cmd s) (parsebacks d n cmd t) := by
  induction n with
  | zero => intro cmd s t _; rfl
  | succ n ih =>
    intro cmd s t hR
    obtain ⟨hp,hR⟩ := h.peek s t [chr '&'] hR (mem_of_all (by decide))
    rw [Sh.parsebacks, Sh.parsebacks]
    dsimp only
    rw [hp]
    split
    · exact ih _ _ _ (h.gettoken _ _ hR).1
    · exact ⟨rfl,hR⟩

/-- The parser does the same with both cursors. -/
theorem Simulates.parse (h : Simulates c d R) (n : ℕ) : ∀ s t, R s t →
    Agree R (parseline c n s) (parseline d n t) ∧ Agree R (parsepipe c n s) (parsepipe d n t) ∧
      Agree R (parseexec c n s) (parseexec d n t) ∧ Agree R (parseblock c n s) (parseblock d n t) := by
  induction n with
  | zero => intro s t _; exact ⟨rfl,rfl,rfl,rfl⟩
  | succ n ih =>
    intro s t hR
    refine ⟨?_,?_,?_,?_⟩
    · rw [parseline, parseline]
      refine (ih s t hR).2.1.bind fun cmd s t hR => (h.parsebacks n cmd s t hR).bind fun cmd s t hR => ?_
      obtain ⟨hp,hR⟩ := h.peek s t [chr ';'] hR (mem_of_all (by decide))
      dsimp only
      rw [hp]
      split
      · exact (ih _ _ (h.gettoken _ _ hR).1).1.bind fun right s t hR => ⟨rfl,hR⟩
      · exact ⟨rfl,hR⟩
    · rw [parsepipe, parsepipe]
      refine (ih s t hR).2.2.1.bind fun cmd s t hR => ?_
      obtain ⟨hp,hR⟩ := h.peek s t [chr '|'] hR (mem_of_all (by decide))
      dsimp only
      rw [hp]
      split
      · exact (ih _ _ (h.gettoken _ _ hR).1).2.1.bind fun right s t hR => ⟨rfl,hR⟩
      · exact ⟨rfl,hR⟩
    · obtain ⟨hp,hR⟩ := h.peek s t [chr '('] hR (mem_of_all (by decide))
      rw [parseexec, parseexec]
      dsimp only
      rw [hp]
      split
      · exact (ih _ _ hR).2.2.2
      · exact (h.parseredirs n _ _ _ hR).bind fun ret s t hR => h.parseargs n 0 ret s t hR
    · obtain ⟨hp,hR⟩ := h.peek s t [chr '('] hR (mem_of_all (by decide))
      rw [parseblock, parseblock]
      dsimp only
      rw [hp]
      split
      · rfl
      · refine (ih _ _ (h.gettoken _ _ hR).1).1.bind fun cmd s t hR => ?_
        obtain ⟨hp,hR⟩ := h.peek s t [chr ')'] hR (mem_of_all (by decide))
        dsimp only
        rw [hp]
        split
        · rfl
        · exact h.parseredirs n cmd _ _ (h.gettoken _ _ hR).1

end Sim

section
variable {m : Mem} {lo es s : ℕ}

theorem strchr_eq_false {toks : List UInt8} {x : UInt8} (htoks : ∀ x ∈ toks, x ∈ symbols) (hx : strchr symbols x = false) :
    strchr toks x = false := by
  refine Bool.eq_false_iff.mpr fun hc => ?_
  have hmem := List.contains_iff_mem.mpr (htoks x (List.contains_iff_mem.mp hc))
  unfold strchr at hx
  rw [hx] at hmem
  cases hmem

/-- What `peek` sees is the first character of the next token. -/
theorem strchr_first {toks : List UInt8} (htoks : ∀ x ∈ toks, x ∈ symbols) (hne : m s ≠ 0) :
    strchr toks (m s) = strchr toks (firstChar (tokenAt m es s).1) := by
  rcases tokenAt_cases es hne with ⟨-,hfirst,-⟩ | ⟨hsym,heq⟩
  · rw [hfirst]
  · rw [heq, strchr_eq_false htoks hsym]
    exact (strchr_eq_false htoks (show strchr symbols (firstChar (chr 'a')) = false by decide)).symm

/-- The line does what the list of its tokens does. -/
theorem line_simulates (L : Line m lo es) :
    Simulates (lineCursor m es) tokenCursor fun s ts => lo ≤ s ∧ s ≤ es ∧ lineTokens m es s = ts where
  peek := by
    rintro s ts toks ⟨hlo,hs,rfl⟩ htoks
    obtain ⟨h1,h2,-⟩ := skip_spec (m := m) hs
    have hskip := lineTokens_skip L hlo hs
    have hpeek : (lineCursor m es).peek s toks =
      (decide (m (skip m es s) ≠ 0) && strchr toks (m (skip m es s)),skip m es s) := rfl
    rw [hpeek]
    dsimp only
    rw [hskip]
    rcases gettoken_spec L hlo hs with ⟨hend,hret,-⟩ | ⟨hlt,hret,-⟩
    · rw [lineTokens_nil L hlo hs hret, hend, L.stop]
      exact ⟨rfl,hlo.trans hs,le_rfl,rfl⟩
    · have hne := L.nonzero _ (hlo.trans h1) hlt
      rw [lineTokens_cons L hlo hs hret, strchr_first htoks hne, decide_eq_true hne]
      exact ⟨rfl,hlo.trans h1,h2,rfl⟩
  gettoken := by
    rintro s ts ⟨hlo,hs,rfl⟩
    have htoken : (lineCursor m es).gettoken s = gettoken m es s := rfl
    rw [htoken]
    rcases gettoken_spec L hlo hs with ⟨-,hret,hes⟩ | ⟨-,hret,hq,hlt,hle,hes⟩
    · have hnil : lineTokens m es es = [] := by
        unfold lineTokens
        rw [Nat.sub_self]
        rfl
      rw [lineTokens_nil L hlo hs hret, hes]
      exact ⟨⟨hlo.trans hs,le_rfl,hnil⟩,.inr ⟨hret,rfl⟩⟩
    · have := (skip_spec (m := m) hs).1
      rw [lineTokens_cons L hlo hs hret]
      exact ⟨⟨by omega,hes,rfl⟩,.inl rfl⟩

end
end X86OsDev.Xv6.Sh
