import X86OsDev.Xv6.ShTokens
import Mathlib.Data.List.Basic

/-! # The grammar of the shell

`LineOf ts cmd` says that the tokens are a command line and that the grammar
gives it this tree. The parser finds exactly these trees: what it returns is
derived by the grammar, and a derivation is followed by the parser token by
token, since one token decides how to go on.
-/
namespace X86OsDev.Xv6.Sh
open Memory

/-- The command with one more redirection, given by its operator and its file. -/
def wrap (cmd : Cmd) (r : Token × Token) : Cmd :=
  if r.1.ret = chr '<' then .redir cmd r.2.q r.2.eq oRdonly 0
  else .redir cmd r.2.q r.2.eq (oWronly ||| oCreate) 1

def Token.IsRedir (t : Token) : Prop := t.ret = chr '<' ∨ t.ret = chr '>' ∨ t.ret = chr '+'

instance (t : Token) : Decidable t.IsRedir := inferInstanceAs (Decidable (_ ∨ _ ∨ _))

/-- `redirs` -/
inductive Redirs : List Token → List (Token × Token) → Prop
  | nil : Redirs [] []
  | cons {op file : Token} {ts : List Token} {rs : List (Token × Token)} (hop : op.IsRedir) (hfile : file.ret = chr 'a')
      (h : Redirs ts rs) : Redirs (op :: file :: ts) ((op,file) :: rs)

/-- `{word redirs}` -/
inductive Words : List Token → List (ℕ × ℕ) → List (Token × Token) → Prop
  | nil : Words [] [] []
  | cons {word : Token} {ts us : List Token} {ws : List (ℕ × ℕ)} {rs qs : List (Token × Token)} (hw : word.ret = chr 'a')
      (hr : Redirs ts rs) (h : Words us ws qs) : Words (word :: (ts ++ us)) ((word.q,word.eq) :: ws) (rs ++ qs)

mutual

/-- `pipe {'&'} [';' line]` -/
inductive LineOf : List Token → Cmd → Prop
  | last {ts bs : List Token} {cmd : Cmd} (h : PipeOf ts cmd) (hb : ∀ b ∈ bs, b.ret = chr '&') :
      LineOf (ts ++ bs) (Cmd.back^[bs.length] cmd)
  | next {ts bs us : List Token} {semi : Token} {cmd right : Cmd} (h : PipeOf ts cmd) (hb : ∀ b ∈ bs, b.ret = chr '&')
      (hs : semi.ret = chr ';') (hr : LineOf us right) :
      LineOf (ts ++ (bs ++ semi :: us)) (.list (Cmd.back^[bs.length] cmd) right)

/-- `exec ['|' pipe]` -/
inductive PipeOf : List Token → Cmd → Prop
  | last {ts : List Token} {cmd : Cmd} (h : ExecOf ts cmd) : PipeOf ts cmd
  | next {ts us : List Token} {bar : Token} {left right : Cmd} (h : ExecOf ts left) (hb : bar.ret = chr '|')
      (hr : PipeOf us right) : PipeOf (ts ++ bar :: us) (.pipe left right)

/-- `'(' line ')' redirs | redirs {word redirs}` -/
inductive ExecOf : List Token → Cmd → Prop
  | block {ts us : List Token} {l r : Token} {cmd : Cmd} {rs : List (Token × Token)} (hl : l.ret = chr '(')
      (h : LineOf ts cmd) (hr : r.ret = chr ')') (hrs : Redirs us rs) : ExecOf (l :: (ts ++ r :: us)) (rs.foldl wrap cmd)
  | words {ts us : List Token} {ws : List (ℕ × ℕ)} {rs qs : List (Token × Token)} (hrs : Redirs ts rs)
      (hw : Words us ws qs) (hfew : ws.length < maxargs) : ExecOf (ts ++ us) ((rs ++ qs).foldl wrap (.exec ws))

end

/-! ## One token decides -/

section Peek
variable {t : Token} {ts : List Token}

@[simp] theorem gettoken_cons : tokenCursor.gettoken (t :: ts) = (t,ts) := rfl

@[simp] theorem gettoken_nil : tokenCursor.gettoken [] = (⟨0,0,0⟩,[]) := rfl

@[simp] theorem peek_nil (toks : List UInt8) : tokenCursor.peek [] toks = (false,[]) := rfl

/-- Looking for symbols other than `>`. -/
theorem peek_cons {toks : List UInt8} (htoks : chr '>' ∉ toks ∧ chr '+' ∉ toks) :
    tokenCursor.peek (t :: ts) toks = (decide (t.ret ∈ toks),t :: ts) := by
  change (strchr toks (firstChar t.ret),t :: ts) = _
  unfold strchr firstChar
  split
  · rename_i h
    rw [h, decide_eq_false htoks.2]
    simp [htoks.1]
  · simp

theorem peek_redir : tokenCursor.peek (t :: ts) [chr '<',chr '>'] = (decide t.IsRedir,t :: ts) := by
  change (strchr [chr '<',chr '>'] (firstChar t.ret),t :: ts) = _
  by_cases h : t.IsRedir
  · rw [decide_eq_true h]
    rcases h with h | h | h
    all_goals
      rw [h]
      rfl
  · rw [decide_eq_false h]
    unfold Token.IsRedir at h
    unfold strchr firstChar
    rw [if_neg (by tauto)]
    simp only [List.contains_cons, List.contains_nil, Bool.or_false, Prod.mk.injEq, and_true, Bool.or_eq_false_iff,
      beq_eq_false_iff_ne, ne_eq]
    tauto

end Peek

theorem redirect_eq {op file : Token} (h : op.IsRedir) (cmd : Cmd) : redirect op.ret cmd file = wrap cmd (op,file) := by
  unfold redirect wrap
  rcases h with h | h | h
  · rw [if_pos h, if_pos h]
  · have hne : op.ret ≠ chr '<' := by rw [h]; decide
    rw [if_neg hne, if_neg hne, if_pos h]
  · have hne : op.ret ≠ chr '<' := by rw [h]; decide
    have hne' : op.ret ≠ chr '>' := by rw [h]; decide
    rw [if_neg hne, if_neg hne, if_neg hne', if_pos h]

theorem addArg_wrap (cmd : Cmd) (r : Token × Token) (w : ℕ × ℕ) : (wrap cmd r).addArg w = wrap (cmd.addArg w) r := by
  unfold wrap
  split <;> rfl

/-- A string goes to the command below the redirections. -/
theorem addArg_foldl (w : ℕ × ℕ) (rs : List (Token × Token)) : ∀ cmd,
    (rs.foldl wrap cmd).addArg w = rs.foldl wrap (cmd.addArg w) := by
  induction rs with
  | nil => intro cmd; rfl
  | cons r rs ih => intro cmd; rw [List.foldl_cons, List.foldl_cons, ih, addArg_wrap]

/-! ## What each function does with the next token -/

section Steps
variable {n argc : ℕ} {cmd : Cmd} {t file : Token} {ts : List Token}

theorem parseredirs_nil : parseredirs tokenCursor (n + 1) cmd [] = .ok (cmd,[]) := rfl

theorem parseredirs_stop (h : ¬ t.IsRedir) : parseredirs tokenCursor (n + 1) cmd (t :: ts) = .ok (cmd,t :: ts) := by
  rw [parseredirs, peek_redir, decide_eq_false h]
  rfl

theorem parseredirs_file (h : t.IsRedir) (hf : file.ret = chr 'a') :
    parseredirs tokenCursor (n + 1) cmd (t :: file :: ts) = parseredirs tokenCursor n (wrap cmd (t,file)) ts := by
  rw [parseredirs, peek_redir, decide_eq_true h, ← redirect_eq h]
  simp only [gettoken_cons, if_true, hf, ne_eq, not_true_eq_false, if_false]

theorem parseredirs_missing (h : t.IsRedir) (hf : ∀ file us, ts = file :: us → file.ret ≠ chr 'a') :
    parseredirs tokenCursor (n + 1) cmd (t :: ts) = .error .missingFile := by
  rw [parseredirs, peek_redir, decide_eq_true h]
  simp only [gettoken_cons, if_true]
  cases ts with
  | nil => rfl
  | cons file ts => exact if_pos (hf file ts rfl)

/-- The tokens before which the strings of a command end. -/
def Token.EndsArgs (t : Token) : Prop := t.ret ∈ [chr '|',chr ')',chr '&',chr ';']

instance (t : Token) : Decidable t.EndsArgs := inferInstanceAs (Decidable (_ ∈ _))

theorem peek_args : tokenCursor.peek (t :: ts) [chr '|',chr ')',chr '&',chr ';'] = (decide t.EndsArgs,t :: ts) :=
  peek_cons (by decide)

theorem Token.EndsArgs.not_redir (h : t.EndsArgs) : ¬ t.IsRedir := by
  unfold Token.EndsArgs at h
  unfold Token.IsRedir
  simp only [List.mem_cons, List.not_mem_nil, or_false] at h
  rcases h with h | h | h | h
  all_goals
    rw [h]
    decide

theorem parseargs_nil : parseargs tokenCursor (n + 1) argc cmd [] = .ok (cmd,[]) := rfl

theorem parseargs_stop (h : t.EndsArgs) : parseargs tokenCursor (n + 1) argc cmd (t :: ts) = .ok (cmd,t :: ts) := by
  rw [parseargs, peek_args, decide_eq_true h]
  rfl

theorem parseargs_word (h : t.ret = chr 'a') : parseargs tokenCursor (n + 1) argc cmd (t :: ts) =
    if maxargs ≤ argc + 1 then .error .tooManyArgs
    else parseredirs tokenCursor n (cmd.addArg (t.q,t.eq)) ts >>= fun p => parseargs tokenCursor n (argc + 1) p.1 p.2 := by
  have hend : ¬ t.EndsArgs := by
    unfold Token.EndsArgs
    rw [h]
    decide
  rw [parseargs, peek_args, decide_eq_false hend]
  simp only [gettoken_cons, Bool.false_eq_true, if_false, h, ne_eq, not_true_eq_false]
  rfl

theorem parseargs_other (h : ¬ t.EndsArgs) (h0 : t.ret ≠ 0) (ha : t.ret ≠ chr 'a') :
    parseargs tokenCursor (n + 1) argc cmd (t :: ts) = .error .syntaxError := by
  rw [parseargs, peek_args, decide_eq_false h]
  simp only [gettoken_cons, Bool.false_eq_true, if_false, h0, ha, ne_eq, not_false_eq_true, if_true]

theorem parsebacks_nil : parsebacks tokenCursor (n + 1) cmd [] = .ok (cmd,[]) := rfl

theorem parsebacks_and (h : t.ret = chr '&') :
    parsebacks tokenCursor (n + 1) cmd (t :: ts) = parsebacks tokenCursor n (.back cmd) ts := by
  rw [parsebacks, peek_cons (by decide), decide_eq_true (by rw [h]; decide)]
  rfl

theorem parsebacks_stop (h : t.ret ≠ chr '&') : parsebacks tokenCursor (n + 1) cmd (t :: ts) = .ok (cmd,t :: ts) := by
  rw [parsebacks, peek_cons (by decide), decide_eq_false (by simpa using h)]
  rfl

/-! The functions with their continuations -/

theorem parseline_succ {σ : Type} (c : Cursor σ) (ps : σ) : parseline c (n + 1) ps =
    parsepipe c n ps >>= fun p => parsebacks c n p.1 p.2 >>= fun q =>
      if (c.peek q.2 [chr ';']).1 = true then
        parseline c n (c.gettoken (c.peek q.2 [chr ';']).2).2 >>= fun r => .ok (.list q.1 r.1,r.2)
      else .ok (q.1,(c.peek q.2 [chr ';']).2) := by
  rw [parseline]

theorem parsepipe_succ {σ : Type} (c : Cursor σ) (ps : σ) : parsepipe c (n + 1) ps =
    parseexec c n ps >>= fun p =>
      if (c.peek p.2 [chr '|']).1 = true then
        parsepipe c n (c.gettoken (c.peek p.2 [chr '|']).2).2 >>= fun r => .ok (.pipe p.1 r.1,r.2)
      else .ok (p.1,(c.peek p.2 [chr '|']).2) := by
  rw [parsepipe]

theorem parseexec_succ {σ : Type} (c : Cursor σ) (ps : σ) : parseexec c (n + 1) ps =
    if (c.peek ps [chr '(']).1 = true then parseblock c n (c.peek ps [chr '(']).2
    else parseredirs c n (.exec []) (c.peek ps [chr '(']).2 >>= fun p => parseargs c n 0 p.1 p.2 := by
  rw [parseexec]

theorem parseblock_succ {σ : Type} (c : Cursor σ) (ps : σ) : parseblock c (n + 1) ps =
    if (!(c.peek ps [chr '(']).1) = true then .error .parseblock
    else parseline c n (c.gettoken (c.peek ps [chr '(']).2).2 >>= fun p =>
      if (!(c.peek p.2 [chr ')']).1) = true then .error .missingParen
      else parseredirs c n p.1 (c.gettoken (c.peek p.2 [chr ')']).2).2 := by
  rw [parseblock]

end Steps

/-! ## What is parsed is derived -/

section Sound
variable {cmd cmd' : Cmd} {ts rest : List Token}

theorem parseredirs_sound (n : ℕ) : ∀ cmd ts, parseredirs tokenCursor n cmd ts = .ok (cmd',rest) →
    ∃ us rs, ts = us ++ rest ∧ Redirs us rs ∧ cmd' = rs.foldl wrap cmd := by
  induction n with
  | zero => intro cmd ts h; cases h
  | succ n ih =>
    intro cmd ts h
    cases ts with
    | nil =>
      rw [parseredirs_nil] at h
      cases h
      exact ⟨[],[],rfl,.nil,rfl⟩
    | cons t ts =>
      by_cases hop : t.IsRedir
      · cases ts with
        | nil =>
          rw [parseredirs_missing hop (fun file us h => by cases h)] at h
          cases h
        | cons file ts =>
          by_cases hf : file.ret = chr 'a'
          · rw [parseredirs_file hop hf] at h
            obtain ⟨us,rs,rfl,hr,rfl⟩ := ih _ _ h
            exact ⟨t :: file :: us,(t,file) :: rs,rfl,.cons hop hf hr,rfl⟩
          · rw [parseredirs_missing hop (fun file us h => by cases h; exact hf)] at h
            cases h
      · rw [parseredirs_stop hop] at h
        cases h
        exact ⟨[],[],rfl,.nil,rfl⟩

theorem bind_ok {α β : Type} {x : Except Stop α} {f : α → Except Stop β} {b : β} (h : (x >>= f) = .ok b) :
    ∃ a, x = .ok a ∧ f a = .ok b := by
  cases x with
  | error e => cases h
  | ok a => exact ⟨a,rfl,h⟩

/-- The loop of `parseexec` when some strings and redirections are there already. -/
theorem parseargs_sound (n : ℕ) : ∀ (ws0 : List (ℕ × ℕ)) (qs0 : List (Token × Token)) (ts : List Token),
    (∀ t ∈ ts, t.ret ≠ 0) → ws0.length < maxargs →
    parseargs tokenCursor n ws0.length (qs0.foldl wrap (.exec ws0)) ts = .ok (cmd',rest) →
    ∃ us ws qs, ts = us ++ rest ∧ Words us ws qs ∧ (ws0 ++ ws).length < maxargs ∧
      cmd' = (qs0 ++ qs).foldl wrap (.exec (ws0 ++ ws)) := by
  induction n with
  | zero => intro ws0 qs0 ts _ _ h; cases h
  | succ n ih =>
    intro ws0 qs0 ts hret hfew h
    -- nothing more is read
    have hstop : cmd' = qs0.foldl wrap (.exec ws0) → ts = rest → ∃ us ws qs, ts = us ++ rest ∧ Words us ws qs ∧
        (ws0 ++ ws).length < maxargs ∧ cmd' = (qs0 ++ qs).foldl wrap (.exec (ws0 ++ ws)) := by
      rintro rfl rfl
      exact ⟨[],[],[],rfl,.nil,by simpa using hfew,by simp⟩
    cases ts with
    | nil =>
      rw [parseargs_nil] at h
      cases h
      exact hstop rfl rfl
    | cons t ts =>
      by_cases hend : t.EndsArgs
      · rw [parseargs_stop hend] at h
        cases h
        exact hstop rfl rfl
      by_cases hw : t.ret = chr 'a'
      · rw [parseargs_word hw] at h
        split at h
        · cases h
        · rename_i hmany
          obtain ⟨⟨cmd1,ts1⟩,h1,h2⟩ := bind_ok h
          obtain ⟨us,rs,rfl,hr,rfl⟩ := parseredirs_sound n _ _ h1
          rw [addArg_foldl, ← List.foldl_append] at h2
          obtain ⟨vs,ws,qs,rfl,hws,hfew',rfl⟩ := ih (ws0 ++ [(t.q,t.eq)]) (qs0 ++ rs) ts1
            (fun t ht => hret t (by simp [ht])) (by simpa using hmany) (by simpa [Cmd.addArg] using h2)
          refine ⟨t :: (us ++ vs),(t.q,t.eq) :: ws,rs ++ qs,by simp,.cons hw hr hws,by simpa using hfew',by simp⟩
      · rw [parseargs_other hend (hret t (by simp)) hw] at h
        cases h

theorem parsebacks_sound (n : ℕ) : ∀ cmd ts, parsebacks tokenCursor n cmd ts = .ok (cmd',rest) →
    ∃ bs, ts = bs ++ rest ∧ (∀ b ∈ bs, b.ret = chr '&') ∧ cmd' = Cmd.back^[bs.length] cmd := by
  induction n with
  | zero => intro cmd ts h; cases h
  | succ n ih =>
    intro cmd ts h
    cases ts with
    | nil =>
      rw [parsebacks_nil] at h
      cases h
      exact ⟨[],rfl,by simp,rfl⟩
    | cons t ts =>
      by_cases ht : t.ret = chr '&'
      · rw [parsebacks_and ht] at h
        obtain ⟨bs,rfl,hb,rfl⟩ := ih _ _ h
        exact ⟨t :: bs,rfl,by simpa [ht] using hb,rfl⟩
      · rw [parsebacks_stop ht] at h
        cases h
        exact ⟨[],rfl,by simp,rfl⟩

/-- Looking for one symbol and taking it. -/
theorem peek_one {x : UInt8} (hx : x ≠ chr '>' ∧ x ≠ chr '+') (ts : List Token) :
    (∃ t us, ts = t :: us ∧ t.ret = x ∧ tokenCursor.peek ts [x] = (true,ts)) ∨
      ((∀ t us, ts = t :: us → t.ret ≠ x) ∧ tokenCursor.peek ts [x] = (false,ts)) := by
  cases ts with
  | nil => exact .inr ⟨fun t us h => (by cases h),rfl⟩
  | cons t ts =>
    rw [peek_cons (by simpa using ⟨hx.1.symm,hx.2.symm⟩)]
    by_cases ht : t.ret = x
    · exact .inl ⟨t,ts,rfl,ht,by simp [ht]⟩
    · exact .inr ⟨fun t' us h => (by cases h; exact ht),by simp [ht]⟩

theorem parse_sound (n : ℕ) : ∀ (ts : List Token) (p : Cmd × List Token), (∀ t ∈ ts, t.ret ≠ 0) →
    (parseline tokenCursor n ts = .ok p → ∃ us, ts = us ++ p.2 ∧ LineOf us p.1) ∧
    (parsepipe tokenCursor n ts = .ok p → ∃ us, ts = us ++ p.2 ∧ PipeOf us p.1) ∧
    (parseexec tokenCursor n ts = .ok p → ∃ us, ts = us ++ p.2 ∧ ExecOf us p.1) ∧
    (parseblock tokenCursor n ts = .ok p → ∃ us, ts = us ++ p.2 ∧ ExecOf us p.1) := by
  induction n with
  | zero =>
    intro ts p _
    exact ⟨fun h => (by cases h),fun h => (by cases h),fun h => (by cases h),fun h => (by cases h)⟩
  | succ n ih =>
    intro ts p hret
    refine ⟨fun h => ?_,fun h => ?_,fun h => ?_,fun h => ?_⟩
    · rw [parseline_succ] at h
      obtain ⟨⟨cmd1,ts1⟩,h1,hk⟩ := bind_ok h
      obtain ⟨⟨cmd2,ts2⟩,h2,hk⟩ := bind_ok hk
      obtain ⟨us,rfl,hpipe⟩ := (ih _ _ hret).2.1 h1
      obtain ⟨bs,rfl,hb,rfl⟩ := parsebacks_sound n _ _ h2
      rcases peek_one (x := chr ';') (by decide) ts2 with ⟨t,vs,rfl,ht,hp⟩ | ⟨-,hp⟩
      · rw [hp, if_pos rfl] at hk
        obtain ⟨r,h3,hk⟩ := bind_ok hk
        obtain ⟨ws,rfl,hline⟩ := (ih _ _ (fun t ht => hret t (by simp at ht ⊢; tauto))).1 h3
        cases hk
        exact ⟨us ++ (bs ++ t :: ws),by simp,.next hpipe hb ht hline⟩
      · rw [hp, if_neg Bool.false_ne_true] at hk
        cases hk
        exact ⟨us ++ bs,by simp,.last hpipe hb⟩
    · rw [parsepipe_succ] at h
      obtain ⟨⟨cmd1,ts1⟩,h1,hk⟩ := bind_ok h
      obtain ⟨us,rfl,hexec⟩ := (ih _ _ hret).2.2.1 h1
      rcases peek_one (x := chr '|') (by decide) ts1 with ⟨t,vs,rfl,ht,hp⟩ | ⟨-,hp⟩
      · rw [hp, if_pos rfl] at hk
        obtain ⟨r,h3,hk⟩ := bind_ok hk
        obtain ⟨ws,rfl,hpipe⟩ := (ih _ _ (fun t ht => hret t (by simp at ht ⊢; tauto))).2.1 h3
        cases hk
        exact ⟨us ++ t :: ws,by simp,.next hexec ht hpipe⟩
      · rw [hp, if_neg Bool.false_ne_true] at hk
        cases hk
        exact ⟨us,rfl,.last hexec⟩
    · rw [parseexec_succ] at h
      rcases peek_one (x := chr '(') (by decide) ts with ⟨t,vs,rfl,ht,hp⟩ | ⟨-,hp⟩
      · rw [hp, if_pos rfl] at h
        exact (ih _ _ hret).2.2.2 h
      · rw [hp, if_neg Bool.false_ne_true] at h
        obtain ⟨⟨ret,ts1⟩,h1,h⟩ := bind_ok h
        obtain ⟨us,rs,rfl,hr,rfl⟩ := parseredirs_sound n _ _ h1
        obtain ⟨vs,ws,qs,rfl,hw,hfew,heq⟩ := parseargs_sound n [] rs ts1 (fun t ht => hret t (by simp [ht])) (by decide) h
        rw [heq]
        exact ⟨us ++ vs,by simp,.words hr hw (by simpa using hfew)⟩
    · rw [parseblock_succ] at h
      rcases peek_one (x := chr '(') (by decide) ts with ⟨t,vs,rfl,ht,hp⟩ | ⟨-,hp⟩
      · rw [hp, if_neg (by simp)] at h
        obtain ⟨⟨cmd1,ts1⟩,h1,hk⟩ := bind_ok h
        obtain ⟨us,rfl,hline⟩ := (ih _ _ (fun t ht => hret t (by simp at ht ⊢; tauto))).1 h1
        rcases peek_one (x := chr ')') (by decide) ts1 with ⟨r,ws,rfl,hr,hp'⟩ | ⟨-,hp'⟩
        · rw [hp', if_neg (by simp)] at hk
          obtain ⟨xs,rs,rfl,hrs,heq⟩ := parseredirs_sound n _ _ hk
          rw [heq]
          exact ⟨t :: (us ++ r :: xs),by simp,.block ht hline hr hrs⟩
        · rw [hp'] at hk
          cases hk
      · rw [hp] at h
        cases h

end Sound
end X86OsDev.Xv6.Sh
