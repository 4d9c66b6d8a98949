import X86OsDev.Xv6.ShGrammar

/-! # The parser accepts the grammar

With fuel for four calls a token the parser does not run out of it. A derivation
is followed to its end, and there the next token is not one that the parser
would go on with.
-/
namespace X86OsDev.Xv6.Sh
open Memory

/-- The parser comes to an end. -/
def Ends {α : Type} (x : Except Stop α) : Prop := x ≠ .error .outOfFuel

section Ends
variable {α β : Type} {x : Except Stop α} {f : α → Except Stop β}

theorem Ends.bind (hx : Ends x) (hf : ∀ a, x = .ok a → Ends (f a)) : Ends (x >>= f) := by
  cases x with
  | error e => exact fun h => hx (by cases h; rfl)
  | ok a => exact hf a rfl

theorem Ends.left (h : Ends (x >>= f)) : Ends x := by
  rintro rfl
  exact h rfl

theorem Ends.ok (a : α) : Ends (.ok a : Except Stop α) := by
  intro h
  cases h

theorem Ends.stop {e : Stop} (he : e ≠ .outOfFuel) : Ends (.error e : Except Stop α) := by
  intro h
  cases h
  exact he rfl

end Ends

section Fuel

theorem parseredirs_ends (n : ℕ) : ∀ cmd ts, ts.length < n → Ends (parseredirs tokenCursor n cmd ts) := by
  induction n with
  | zero => intro cmd ts h; exact absurd h (Nat.not_lt_zero _)
  | succ n ih =>
    intro cmd ts h
    cases ts with
    | nil => exact .ok _
    | cons t ts =>
      by_cases hop : t.IsRedir
      · cases ts with
        | nil =>
          rw [parseredirs_missing hop (fun file us h => by cases h)]
          exact .stop (by decide)
        | cons file ts =>
          by_cases hf : file.ret = chr 'a'
          · rw [parseredirs_file hop hf]
            exact ih _ _ (by simp only [List.length_cons] at h; omega)
          · rw [parseredirs_missing hop (fun file us h => by cases h; exact hf)]
            exact .stop (by decide)
      · rw [parseredirs_stop hop]
        exact .ok _

theorem parseargs_ends (n : ℕ) : ∀ argc cmd ts, (∀ t ∈ ts, t.ret ≠ 0) → ts.length < n →
    Ends (parseargs tokenCursor n argc cmd ts) := by
  induction n with
  | zero => intro argc cmd ts _ h; exact absurd h (Nat.not_lt_zero _)
  | succ n ih =>
    intro argc cmd ts hret h
    cases ts with
    | nil => exact .ok _
    | cons t ts =>
      rw [List.length_cons] at h
      by_cases hend : t.EndsArgs
      · rw [parseargs_stop hend]
        exact .ok _
      by_cases hw : t.ret = chr 'a'
      · rw [parseargs_word hw]
        split
        · exact .stop (by decide)
        · refine (parseredirs_ends n _ _ (by omega)).bind fun p hp => ?_
          obtain ⟨us,rs,rfl,-,-⟩ := parseredirs_sound n _ _ hp
          rw [List.length_append] at h
          exact ih _ _ _ (fun t ht => hret t (by simp [ht])) (by omega)
      · rw [parseargs_other hend (hret t (by simp)) hw]
        exact .stop (by decide)

theorem parsebacks_ends (n : ℕ) : ∀ cmd ts, ts.length < n → Ends (parsebacks tokenCursor n cmd ts) := by
  induction n with
  | zero => intro cmd ts h; exact absurd h (Nat.not_lt_zero _)
  | succ n ih =>
    intro cmd ts h
    cases ts with
    | nil => exact .ok _
    | cons t ts =>
      by_cases ht : t.ret = chr '&'
      · rw [parsebacks_and ht]
        exact ih _ _ (by rw [List.length_cons] at h; omega)
      · rw [parsebacks_stop ht]
        exact .ok _

/-- A call of each of the four functions for each token is enough. -/
theorem parse_ends (n : ℕ) : ∀ ts : List Token, (∀ t ∈ ts, t.ret ≠ 0) →
    (4 * ts.length + 4 ≤ n → Ends (parseline tokenCursor n ts)) ∧
    (4 * ts.length + 3 ≤ n → Ends (parsepipe tokenCursor n ts)) ∧
    (4 * ts.length + 2 ≤ n → Ends (parseexec tokenCursor n ts)) ∧
    (4 * ts.length + 1 ≤ n → Ends (parseblock tokenCursor n ts)) := by
  induction n with
  | zero =>
    intro ts _
    exact ⟨fun h => absurd h (by omega),fun h => absurd h (by omega),fun h => absurd h (by omega),fun h => absurd h (by omega)⟩
  | succ n ih =>
    intro ts hret
    refine ⟨fun h => ?_,fun h => ?_,fun h => ?_,fun h => ?_⟩
    · rw [parseline_succ]
      refine ((ih ts hret).2.1 (by omega)).bind fun p hp => ?_
      obtain ⟨us,rfl,-⟩ := (parse_sound n _ _ hret).2.1 hp
      rw [List.length_append] at h
      refine (parsebacks_ends n _ _ (by omega)).bind fun q hq => ?_
      obtain ⟨bs,hbs,-,-⟩ := parsebacks_sound n _ _ hq
      rw [hbs] at hret h
      rw [List.length_append] at h
      rcases peek_one (x := chr ';') (by decide) q.2 with ⟨t,vs,hvs,-,hp⟩ | ⟨-,hp⟩
      · rw [hp, if_pos rfl, hvs]
        rw [hvs] at hret h
        rw [List.length_cons] at h
        exact ((ih vs fun t ht => hret t (by simp [ht])).1 (by omega)).bind fun r _ => .ok _
      · rw [hp, if_neg Bool.false_ne_true]
        exact .ok _
    · rw [parsepipe_succ]
      refine ((ih ts hret).2.2.1 (by omega)).bind fun p hp => ?_
      obtain ⟨us,rfl,-⟩ := (parse_sound n _ _ hret).2.2.1 hp
      rcases peek_one (x := chr '|') (by decide) p.2 with ⟨t,vs,hvs,-,hp⟩ | ⟨-,hp⟩
      · rw [hp, if_pos rfl, hvs]
        rw [hvs] at hret h
        rw [List.length_append, List.length_cons] at h
        exact ((ih vs fun t ht => hret t (by simp [ht])).2.1 (by omega)).bind fun r _ => .ok _
      · rw [hp, if_neg Bool.false_ne_true]
        exact .ok _
    · rw [parseexec_succ]
      rcases peek_one (x := chr '(') (by decide) ts with ⟨t,vs,-,-,hp⟩ | ⟨-,hp⟩
      · rw [hp, if_pos rfl]
        exact (ih ts hret).2.2.2 (by omega)
      · rw [hp, if_neg Bool.false_ne_true]
        refine (parseredirs_ends n _ _ (by dsimp only; omega)).bind fun p hp => ?_
        obtain ⟨us,rs,rfl,-,-⟩ := parseredirs_sound n _ _ hp
        rw [List.length_append] at h
        exact parseargs_ends n _ _ _ (fun t ht => hret t (by simp [ht])) (by omega)
    · rw [parseblock_succ]
      rcases peek_one (x := chr '(') (by decide) ts with ⟨t,vs,rfl,-,hp⟩ | ⟨-,hp⟩
      · rw [hp, if_neg (by simp)]
        rw [List.length_cons] at h
        have hret' : ∀ t ∈ vs, t.ret ≠ 0 := fun t ht => hret t (by simp [ht])
        refine ((ih vs hret').1 (by omega)).bind fun p hp => ?_
        obtain ⟨us,rfl,-⟩ := (parse_sound n _ _ hret').1 hp
        rcases peek_one (x := chr ')') (by decide) p.2 with ⟨r,ws,hws,-,hp⟩ | ⟨-,hp⟩
        · rw [hp, if_neg (by simp), hws]
          rw [hws, List.length_append, List.length_cons] at h
          exact parseredirs_ends n _ _ (by dsimp only [gettoken_cons]; omega)
        · rw [hp]
          exact .stop (by decide)
      · rw [hp]
        exact .stop (by decide)

end Fuel

/-! ## What is derived is parsed -/

/-- The tokens end here, or go on with one of these. -/
def Stops (l : List UInt8) (rest : List Token) : Prop := ∀ t us, rest = t :: us → t.ret ∈ l

section Complete
variable {us rest : List Token} {l l' : List UInt8} {rs qs qs0 : List (Token × Token)} {ws ws0 : List (ℕ × ℕ)} {cmd : Cmd}

theorem Stops.mono (h : Stops l rest) (hl : ∀ x ∈ l, x ∈ l') : Stops l' rest := fun t us ht => hl _ (h t us ht)

theorem Stops.cons {t : Token} (h : t.ret ∈ l) : Stops l (t :: rest) := by
  intro t' us ht
  cases ht
  exact h

theorem parseredirs_complete (h : Redirs us rs) : ∀ n cmd, (∀ t ts, rest = t :: ts → ¬ t.IsRedir) →
    Ends (parseredirs tokenCursor n cmd (us ++ rest)) →
    parseredirs tokenCursor n cmd (us ++ rest) = .ok (rs.foldl wrap cmd,rest) := by
  induction h with
  | nil =>
    intro n cmd hrest hends
    cases n with
    | zero => exact absurd rfl hends
    | succ n =>
      cases rest with
      | nil => rfl
      | cons t ts => exact parseredirs_stop (hrest t ts rfl)
  | cons hop hfile h ih =>
    intro n cmd hrest hends
    cases n with
    | zero => exact absurd rfl hends
    | succ n =>
      rw [List.cons_append, List.cons_append, parseredirs_file hop hfile] at hends ⊢
      exact ih n _ hrest hends

theorem word_not_redir {t : Token} (h : t.ret = chr 'a') : ¬ t.IsRedir := by
  unfold Token.IsRedir
  rw [h]
  decide

/-- What ends the strings of a command. -/
abbrev argEnds : List UInt8 := [chr '|',chr ')',chr '&',chr ';']

theorem Words.not_redir (h : Words us ws qs) (hrest : Stops argEnds rest) :
    ∀ t ts, us ++ rest = t :: ts → ¬ t.IsRedir := by
  intro t ts ht
  cases h with
  | nil => exact Token.EndsArgs.not_redir (hrest t ts ht)
  | cons hw hr h =>
    obtain ⟨rfl,-⟩ := List.cons.inj ht
    exact word_not_redir hw

theorem parseargs_complete (h : Words us ws qs) : ∀ n ws0 qs0, Stops argEnds rest → (ws0 ++ ws).length < maxargs →
    Ends (parseargs tokenCursor n ws0.length (qs0.foldl wrap (.exec ws0)) (us ++ rest)) →
    parseargs tokenCursor n ws0.length (qs0.foldl wrap (.exec ws0)) (us ++ rest) =
      .ok ((qs0 ++ qs).foldl wrap (.exec (ws0 ++ ws)),rest) := by
  induction h with
  | nil =>
    intro n ws0 qs0 hrest _ hends
    rw [List.append_nil, List.append_nil]
    cases n with
    | zero => exact absurd rfl hends
    | succ n =>
      cases rest with
      | nil => rfl
      | cons t ts => exact parseargs_stop (hrest t ts rfl)
  | @cons word ts us ws rs qs hw hr h ih =>
    intro n ws0 qs0 hrest hfew hends
    cases n with
    | zero => exact absurd rfl hends
    | succ n =>
      have hmany : ¬ maxargs ≤ ws0.length + 1 := by
        rw [List.length_append, List.length_cons] at hfew
        omega
      rw [List.cons_append, List.append_assoc, parseargs_word hw, if_neg hmany, addArg_foldl] at hends ⊢
      have hredirs := parseredirs_complete hr n _ (h.not_redir hrest) hends.left
      rw [hredirs] at hends ⊢
      have hargs := ih n (ws0 ++ [(word.q,word.eq)]) (qs0 ++ rs) hrest (by simpa using hfew)
      rw [List.length_append, List.length_singleton, List.foldl_append, List.append_assoc, List.append_assoc] at hargs
      exact hargs hends

theorem parsebacks_complete (bs : List Token) (hb : ∀ b ∈ bs, b.ret = chr '&') : ∀ n cmd,
    (∀ t ts, rest = t :: ts → t.ret ≠ chr '&') → Ends (parsebacks tokenCursor n cmd (bs ++ rest)) →
    parsebacks tokenCursor n cmd (bs ++ rest) = .ok (Cmd.back^[bs.length] cmd,rest) := by
  induction bs with
  | nil =>
    intro n cmd hrest hends
    cases n with
    | zero => exact absurd rfl hends
    | succ n =>
      cases rest with
      | nil => rfl
      | cons t ts => exact parsebacks_stop (hrest t ts rfl)
  | cons b bs ih =>
    intro n cmd hrest hends
    cases n with
    | zero => exact absurd rfl hends
    | succ n =>
      rw [List.cons_append, parsebacks_and (hb b (by simp))] at hends ⊢
      exact ih (fun b' hb' => hb b' (by simp [hb'])) n _ hrest hends

/-- One token that is looked for, and one that is not. -/
theorem peek_here {t : Token} {ts : List Token} {x : UInt8} (hx : x ≠ chr '>' ∧ x ≠ chr '+') (ht : t.ret = x) :
    tokenCursor.peek (t :: ts) [x] = (true,t :: ts) := by
  rcases peek_one hx (t :: ts) with ⟨-,-,-,-,hp⟩ | ⟨hno,-⟩
  · exact hp
  · exact absurd ht (hno t ts rfl)

theorem peek_not {ts : List Token} {x : UInt8} (hx : x ≠ chr '>' ∧ x ≠ chr '+') (ht : ∀ t us, ts = t :: us → t.ret ≠ x) :
    tokenCursor.peek ts [x] = (false,ts) := by
  rcases peek_one hx ts with ⟨t,us,rfl,hret,-⟩ | ⟨-,hp⟩
  · exact absurd hret (ht t us rfl)
  · exact hp

theorem Stops.ne (h : Stops l rest) {x : UInt8} (hx : x ∉ l) : ∀ t us, rest = t :: us → t.ret ≠ x := by
  rintro t us ht rfl
  exact hx (h t us ht)

theorem Stops.append {bs : List Token} (hb : ∀ b ∈ bs, b.ret ∈ l) (h : Stops l rest) : Stops l (bs ++ rest) := by
  cases bs with
  | nil => exact h
  | cons b bs => exact .cons (hb b (by simp))

theorem ok_bind {α β : Type} (a : α) (f : α → Except Stop β) : ((.ok a : Except Stop α) >>= f) = f a := rfl

/-- A command that does not begin with a parenthesis. -/
theorem not_paren (hr : Redirs us rs) {vs : List Token} (hw : Words vs ws qs) (hrest : Stops argEnds rest) :
    ∀ t ts, us ++ vs ++ rest = t :: ts → t.ret ≠ chr '(' := by
  intro t ts ht
  cases hr with
  | nil =>
    cases hw with
    | nil => exact (hrest.ne (by decide)) t ts ht
    | cons hw _ _ =>
      obtain ⟨rfl,-⟩ := List.cons.inj ht
      rw [hw]
      decide
  | cons hop _ _ =>
    obtain ⟨rfl,-⟩ := List.cons.inj ht
    rcases hop with h | h | h
    all_goals
      rw [h]
      decide

theorem parse_complete (n : ℕ) : ∀ (us rest : List Token) (cmd : Cmd),
    (LineOf us cmd → Stops [chr ')'] rest → Ends (parseline tokenCursor n (us ++ rest)) →
      parseline tokenCursor n (us ++ rest) = .ok (cmd,rest)) ∧
    (PipeOf us cmd → Stops [chr ')',chr '&',chr ';'] rest → Ends (parsepipe tokenCursor n (us ++ rest)) →
      parsepipe tokenCursor n (us ++ rest) = .ok (cmd,rest)) ∧
    (ExecOf us cmd → Stops argEnds rest → Ends (parseexec tokenCursor n (us ++ rest)) →
      parseexec tokenCursor n (us ++ rest) = .ok (cmd,rest)) ∧
    (ExecOf us cmd → Stops argEnds rest → (∃ l ts, us = l :: ts ∧ l.ret = chr '(') →
      Ends (parseblock tokenCursor n (us ++ rest)) → parseblock tokenCursor n (us ++ rest) = .ok (cmd,rest)) := by
  induction n with
  | zero =>
    intro us rest cmd
    exact ⟨fun _ _ h => absurd rfl h,fun _ _ h => absurd rfl h,fun _ _ h => absurd rfl h,fun _ _ _ h => absurd rfl h⟩
  | succ n ih =>
    intro us rest cmd
    refine ⟨fun hline hrest hends => ?_,fun hpipe hrest hends => ?_,fun hexec hrest hends => ?_,
      fun hexec hrest hl hends => ?_⟩
    · rw [parseline_succ] at hends ⊢
      cases hline with
      | @last ts bs cmd h hb =>
        rw [List.append_assoc] at hends ⊢
        have hstop : Stops [chr ')',chr '&',chr ';'] (bs ++ rest) :=
          .append (fun b hb' => by rw [hb b hb']; decide) (hrest.mono (mem_of_all (by decide)))
        have hfirst := (ih ts (bs ++ rest) cmd).2.1 h hstop hends.left
        rw [hfirst, ok_bind] at hends ⊢
        have hbacks := parsebacks_complete bs hb n cmd (hrest.ne (by decide)) hends.left
        rw [hbacks, ok_bind] at hends ⊢
        rw [peek_not (by decide) (hrest.ne (by decide)), if_neg Bool.false_ne_true]
      | @next ts bs vs semi cmd right h hb hs hr =>
        rw [List.append_assoc, List.append_assoc, List.cons_append] at hends ⊢
        have hstop : Stops [chr ')',chr '&',chr ';'] (bs ++ semi :: (vs ++ rest)) :=
          .append (fun b hb' => by rw [hb b hb']; decide) (.cons (by rw [hs]; decide))
        have hsemi : ∀ t us, semi :: (vs ++ rest) = t :: us → t.ret ≠ chr '&' := by
          rintro t us ht
          obtain ⟨rfl,-⟩ := List.cons.inj ht
          rw [hs]
          decide
        have hfirst := (ih ts _ cmd).2.1 h hstop hends.left
        rw [hfirst, ok_bind] at hends ⊢
        have hbacks := parsebacks_complete bs hb n cmd hsemi hends.left
        rw [hbacks, ok_bind] at hends ⊢
        rw [peek_here (by decide) hs, if_pos rfl, gettoken_cons] at hends ⊢
        rw [(ih vs rest right).1 hr hrest hends.left]
        rfl
    · rw [parsepipe_succ] at hends ⊢
      cases hpipe with
      | last h =>
        have hfirst := (ih us rest cmd).2.2.1 h (hrest.mono (mem_of_all (by decide))) hends.left
        rw [hfirst, ok_bind] at hends ⊢
        rw [peek_not (by decide) (hrest.ne (by decide)), if_neg Bool.false_ne_true]
      | @next ts vs bar left right h hb hr =>
        rw [List.append_assoc, List.cons_append] at hends ⊢
        have hfirst := (ih ts (bar :: (vs ++ rest)) left).2.2.1 h (.cons (by rw [hb]; decide)) hends.left
        rw [hfirst, ok_bind] at hends ⊢
        rw [peek_here (by decide) hb, if_pos rfl, gettoken_cons] at hends ⊢
        rw [(ih vs rest right).2.1 hr hrest hends.left]
        rfl
    · rw [parseexec_succ] at hends ⊢
      cases id hexec with
      | @block ts vs l r cmd rs hl h hr hrs =>
        rw [List.cons_append, peek_here (by decide) hl, if_pos rfl] at hends ⊢
        exact (ih _ rest _).2.2.2 hexec hrest ⟨l,_,rfl,hl⟩ hends
      | @words ts vs ws rs qs hrs hw hfew =>
        rw [peek_not (by decide) (not_paren hrs hw hrest), if_neg Bool.false_ne_true, List.append_assoc] at hends ⊢
        have hfirst := parseredirs_complete hrs n _ (hw.not_redir hrest) hends.left
        rw [hfirst, ok_bind] at hends ⊢
        exact parseargs_complete hw n [] rs hrest (by simpa using hfew) hends
    · rw [parseblock_succ] at hends ⊢
      cases hexec with
      | @block ts vs l r cmd rs hparen h hr hrs =>
        rw [List.cons_append, peek_here (by decide) hparen, if_neg (by simp), gettoken_cons, List.append_assoc,
          List.cons_append] at hends ⊢
        have hfirst := (ih ts (r :: (vs ++ rest)) cmd).1 h (.cons (by rw [hr]; decide)) hends.left
        rw [hfirst, ok_bind] at hends ⊢
        rw [peek_here (by decide) hr, if_neg (by simp), gettoken_cons] at hends ⊢
        exact parseredirs_complete hrs n cmd (fun t ts ht => Token.EndsArgs.not_redir (hrest t ts ht)) hends
      | @words ts vs ws rs qs hrs hw hfew =>
        obtain ⟨l,ts',heq,hl⟩ := hl
        exact absurd hl (not_paren hrs hw hrest l (ts' ++ rest) (by rw [heq]; rfl))

end Complete

/-! ## The whole line -/

section Whole
variable {m : Mem} {s es fuel : ℕ} {line : List UInt8}

theorem line_of_string (h : StringAt m (.addr s) line) : Line m s (s + line.length) where
  nonzero := by
    intro x h1 h2
    have := h.byte_ne (i := x - s) (by omega)
    rwa [Str.byte, Nat.add_sub_cancel' h1] at this
  stop := h.stop

theorem strlen_string (h : StringAt m (.addr s) line) (hfuel : line.length ≤ fuel) : strlen m fuel s = line.length := by
  have L := line_of_string h
  obtain ⟨h1,h2,h3,h4⟩ := scan_spec (m := m) (p := (· != 0)) fuel s
  unfold strlen
  rcases Nat.lt_trichotomy (scan m (· != 0) fuel s) (s + line.length) with hlt | heq | hgt
  · have hne := L.nonzero _ h1 hlt
    have hstop := h4 (by omega)
    simp [hne] at hstop
  · omega
  · have hzero := h3 (s + line.length) (by omega) hgt
    simp [L.stop] at hzero

theorem tokens_ret (n : ℕ) : ∀ s, ∀ t ∈ tokens m es n s, t.ret ≠ 0 := by
  induction n with
  | zero => intro s t ht; cases ht
  | succ n ih =>
    intro s t ht
    rw [tokens] at ht
    split at ht
    · cases ht
    · rename_i hret
      rcases List.mem_cons.mp ht with rfl | ht
      · exact hret
      · exact ih _ t ht

theorem length_tokens (n : ℕ) : ∀ s, (tokens m es n s).length ≤ n := by
  induction n with
  | zero => intro s; exact le_rfl
  | succ n ih =>
    intro s
    rw [tokens]
    split
    · exact Nat.zero_le _
    · exact Nat.succ_le_succ (ih _)

/-- Nothing but white space is left. -/
theorem skip_eq_iff {lo : ℕ} (L : Line m lo es) (hlo : lo ≤ s) (hs : s ≤ es) : skip m es s = es ↔ lineTokens m es s = [] := by
  rcases gettoken_spec L hlo hs with ⟨hend,hret,-⟩ | ⟨hlt,hret,-⟩
  · exact iff_of_true hend (lineTokens_nil L hlo hs hret)
  · refine iff_of_false (Nat.ne_of_lt hlt) fun hnil => ?_
    rw [lineTokens_cons L hlo hs hret] at hnil
    cases hnil

/-- A derivation of all tokens is what the parser finds. -/
theorem parse_all {ts : List Token} {cmd : Cmd} {n : ℕ} (h : LineOf ts cmd) (hends : Ends (parseline tokenCursor n ts)) :
    parseline tokenCursor n ts = .ok (cmd,[]) := by
  have hall := (parse_complete n ts [] cmd).1 h (fun t us ht => by cases ht)
  rw [List.append_nil] at hall
  exact hall hends

/-- What `parsecmd` makes of the result on the tokens. -/
def finish (m : Mem) : Except Stop (Cmd × List Token) → Except Stop (Cmd × Mem)
  | .error e => .error e
  | .ok (cmd,[]) => .ok (cmd,nulterminate cmd m)
  | .ok (_,_ :: _) => .error .leftovers

theorem parsecmd_eq (h : StringAt m (.addr s) line) (hfuel : 4 * line.length + 4 ≤ fuel) :
    Ends (parseline tokenCursor fuel (lineTokens m (s + line.length) s)) ∧
      parsecmd fuel m s = finish m (parseline tokenCursor fuel (lineTokens m (s + line.length) s)) := by
  have L := line_of_string h
  have hlen : (lineTokens m (s + line.length) s).length ≤ line.length := by
    unfold lineTokens
    rw [Nat.add_sub_cancel_left]
    exact length_tokens _ _
  refine ⟨(parse_ends fuel (lineTokens m (s + line.length) s) (tokens_ret _ _)).1 (by omega),?_⟩
  have hagree := ((line_simulates L).parse fuel s _ ⟨le_rfl,Nat.le_add_right _ _,rfl⟩).1
  unfold parsecmd
  rw [strlen_string h (by omega)]
  dsimp only
  revert hagree
  generalize parseline tokenCursor fuel (lineTokens m (s + line.length) s) = y
  generalize parseline (lineCursor m (s + line.length)) fuel s = x
  intro hagree
  match x, y, hagree with
  | .error e, .error e', hagree =>
    cases hagree
    rfl
  | .ok (cmd,ps), .ok (cmd',rest), hagree =>
    obtain ⟨rfl,hlo,hps,rfl⟩ := hagree
    rw [ok_bind]
    have hiff := skip_eq_iff L hlo hps
    change (if skip m (s + line.length) ps ≠ s + line.length then _ else _) = _
    cases hrest : lineTokens m (s + line.length) ps with
    | nil =>
      rw [if_neg (not_not.mpr (hiff.mpr hrest))]
      rfl
    | cons t ts =>
      rw [hrest] at hiff
      rw [if_pos fun heq => List.cons_ne_nil t ts (hiff.mp heq)]
      rfl

/-- A returned command is derived from all tokens of the line. -/
theorem finish_ok {ts : List Token} {cmd : Cmd} {m' : Mem} (hret : ∀ t ∈ ts, t.ret ≠ 0)
    (h : finish m (parseline tokenCursor fuel ts) = .ok (cmd,m')) : LineOf ts cmd ∧ m' = nulterminate cmd m := by
  generalize hy : parseline tokenCursor fuel ts = y at h
  match y, h with
  | .ok (cmd0,[]), h =>
    cases h
    obtain ⟨us,hus,hline⟩ := (parse_sound fuel ts _ hret).1 hy
    rw [List.append_nil] at hus
    rw [hus]
    exact ⟨hline,rfl⟩

/-- `parsecmd` returns for every line, it accepts the lines of the grammar, and it returns the tree that the grammar
gives them. -/
theorem parsecmd_accepts (h : StringAt m (.addr s) line) (hfuel : 4 * line.length + 4 ≤ fuel) :
    Ends (parsecmd fuel m s) ∧ (∀ cmd m', parsecmd fuel m s = .ok (cmd,m') ↔
      LineOf (lineTokens m (s + line.length) s) cmd ∧ m' = nulterminate cmd m) ∧
    ∀ cmd cmd', LineOf (lineTokens m (s + line.length) s) cmd → LineOf (lineTokens m (s + line.length) s) cmd' → cmd = cmd' := by
  obtain ⟨hends,heq⟩ := parsecmd_eq h hfuel
  rw [heq]
  refine ⟨?_,fun cmd m' => ⟨finish_ok (tokens_ret _ _),?_⟩,fun cmd cmd' h1 h2 => ?_⟩
  · generalize parseline tokenCursor fuel (lineTokens m (s + line.length) s) = y at hends
    match y with
    | .error e => exact fun hc => hends (by cases hc; rfl)
    | .ok (cmd,[]) => exact .ok _
    | .ok (cmd,_ :: _) => exact .stop (by decide)
  · rintro ⟨hline,rfl⟩
    rw [parse_all hline hends]
    rfl
  · have hall := (parse_all h1 hends).symm.trans (parse_all h2 hends)
    cases hall
    rfl

end Whole
end X86OsDev.Xv6.Sh
