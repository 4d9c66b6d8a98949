import X86OsDev.Xv6.ShGrammar
import X86OsDev.Xv6.ShRunJoin

/-! # The descriptors of what the shell runs

`Reaches` is the meaning of a command: what each of its parts runs with, as
changes of the descriptors of the line. The calls of `close`, `dup`, `open` and
`pipe` bring it about, since a command of the parser redirects only the first
three descriptors, and these are open and no others are.
-/
namespace X86OsDev.Xv6.ShRun
open Sh ForkJoin Transition

/-! ### Redirections of the parser -/

/-- The redirections are of the first three descriptors. -/
def Fits : Cmd → Prop
  | .exec _ => True
  | .redir cmd _ _ _ fd => fd < 3 ∧ Fits cmd
  | .pipe left right => Fits left ∧ Fits right
  | .list left right => Fits left ∧ Fits right
  | .back cmd => Fits cmd

/-- What a function of the parser returns fits. -/
def Returns {σ : Type} (x : Except Stop (Cmd × σ)) : Prop := ∀ r, x = .ok r → Fits r.1

section Parser
variable {σ τ : Type} {c : Cursor σ} {cmd : Cmd} {ps : σ}

theorem Returns.bind {x : Except Stop (Cmd × τ)} {f : Cmd × τ → Except Stop (Cmd × σ)} (hx : Returns x)
    (hf : ∀ r, Fits r.1 → Returns (f r)) : Returns (x >>= f) := by
  intro r hr
  obtain ⟨a,ha,hr⟩ := bind_ok hr
  exact hf a (hx a ha) r hr

theorem Returns.ok (h : Fits cmd) : Returns (.ok (cmd,ps)) := by
  intro r hr
  cases hr
  exact h

theorem Returns.error {e : Stop} : Returns (.error e : Except Stop (Cmd × σ)) := by
  intro r hr
  cases hr

theorem redirect_fits {tok : UInt8} {file : Token} (h : Fits cmd) : Fits (redirect tok cmd file) := by
  unfold redirect
  split_ifs
  · exact ⟨by decide,h⟩
  · exact ⟨by decide,h⟩
  · exact ⟨by decide,h⟩
  · exact h

theorem addArg_fits {w : ℕ × ℕ} (h : Fits cmd) : Fits (cmd.addArg w) := by
  induction cmd with
  | exec argv => trivial
  | redir cmd file efile mode fd ih => exact ⟨h.1,ih h.2⟩
  | pipe left right => exact h
  | list left right => exact h
  | back cmd => exact h

theorem parseredirs_returns (n : ℕ) : ∀ cmd ps, Fits cmd → Returns (parseredirs c n cmd ps) := by
  induction n with
  | zero => exact fun _ _ _ => .error
  | succ n ih =>
    intro cmd ps h
    simp only [parseredirs]
    split_ifs
    · exact .error
    · exact ih _ _ (redirect_fits h)
    · exact .ok h

theorem parseargs_returns (n : ℕ) : ∀ argc cmd ps, Fits cmd → Returns (parseargs c n argc cmd ps) := by
  induction n with
  | zero => exact fun _ _ _ _ => .error
  | succ n ih =>
    intro argc cmd ps h
    simp only [parseargs]
    split_ifs
    · exact .ok h
    · exact .ok h
    · exact .error
    · exact .error
    · exact (parseredirs_returns n _ _ (addArg_fits h)).bind fun r hr => ih _ _ _ hr

theorem parsebacks_returns (n : ℕ) : ∀ cmd ps, Fits cmd → Returns (parsebacks c n cmd ps) := by
  induction n with
  | zero => exact fun _ _ _ => .error
  | succ n ih =>
    intro cmd ps h
    simp only [parsebacks]
    split_ifs
    · exact ih _ _ h
    · exact .ok h

theorem parse_returns (n : ℕ) : ∀ ps : σ, Returns (parseline c n ps) ∧ Returns (parsepipe c n ps) ∧
    Returns (parseexec c n ps) ∧ Returns (parseblock c n ps) := by
  induction n with
  | zero => exact fun _ => ⟨.error,.error,.error,.error⟩
  | succ n ih =>
    intro ps
    refine ⟨?_,?_,?_,?_⟩
    · rw [parseline_succ]
      refine (ih _).2.1.bind fun p hp => (parsebacks_returns n _ _ hp).bind fun q hq => ?_
      split_ifs
      · exact (ih _).1.bind fun r hr => .ok ⟨hq,hr⟩
      · exact .ok hq
    · rw [parsepipe_succ]
      refine (ih _).2.2.1.bind fun p hp => ?_
      split_ifs
      · exact (ih _).2.1.bind fun r hr => .ok ⟨hp,hr⟩
      · exact .ok hp
    · rw [parseexec_succ]
      split_ifs
      · exact (ih _).2.2.2
      · exact (parseredirs_returns n (.exec []) _ trivial).bind fun p hp => parseargs_returns n 0 _ _ hp
    · rw [parseblock_succ]
      split_ifs
      · exact .error
      · refine (ih _).1.bind fun p hp => ?_
        split_ifs
        · exact .error
        · exact parseredirs_returns n _ _ hp

theorem parsecmd_fits {fuel s : ℕ} {m m' : Memory.Mem} (h : parsecmd fuel m s = .ok (cmd,m')) : Fits cmd := by
  unfold parsecmd at h
  obtain ⟨⟨cmd',ps⟩,hp,h⟩ := bind_ok h
  have hfits := (parse_returns fuel s).1 _ hp
  dsimp only at h
  split_ifs at h
  cases h
  exact hfits

end Parser

/-! ### The meaning of a command -/

/-- In the line `c₀`, which is given the descriptors `t₀`, the process `q` comes to run a part with some descriptors. -/
inductive Reaches (c₀ : Cmd) (t₀ : Table) : Name → Cmd → Table → Prop
  | line (n : ℕ) : Reaches c₀ t₀ [⟨n,.line⟩] c₀ t₀
  | redir {q : Name} {cmd : Cmd} {file efile mode fd : ℕ} {t : Table}
    (h : Reaches c₀ t₀ q (.redir cmd file efile mode fd) t) :
    Reaches c₀ t₀ q cmd (Function.update t fd (some (.file file efile mode)))
  | listLeft {q : Name} {left right : Cmd} {t : Table} (n : ℕ) (h : Reaches c₀ t₀ q (.list left right) t) :
    Reaches c₀ t₀ (⟨n,.listLeft⟩ :: q) left t
  | listRight {q : Name} {left right : Cmd} {t : Table} (h : Reaches c₀ t₀ q (.list left right) t) :
    Reaches c₀ t₀ q right t
  | pipeLeft {q : Name} {left right : Cmd} {t : Table} (n : ℕ) (h : Reaches c₀ t₀ q (.pipe left right) t) :
    Reaches c₀ t₀ (⟨n,.pipeLeft⟩ :: q) left (Function.update t 1 (some (.pipe true q)))
  | pipeRight {q : Name} {left right : Cmd} {t : Table} (n : ℕ) (h : Reaches c₀ t₀ q (.pipe left right) t) :
    Reaches c₀ t₀ (⟨n,.pipeRight⟩ :: q) right (Function.update t 0 (some (.pipe false q)))
  | back {q : Name} {cmd : Cmd} {t : Table} (n : ℕ) (h : Reaches c₀ t₀ q (.back cmd) t) :
    Reaches c₀ t₀ (⟨n,.back⟩ :: q) cmd t

/-- Exactly the first three descriptors are open. -/
def Std (t : Table) : Prop := ∀ fd, (t fd).isSome ↔ fd < 3

variable {c₀ c : Cmd} {t₀ t : Table} {q : Name} {fd : ℕ}

theorem Std.update (h : Std t) (hfd : fd < 3) (f : Obj) : Std (Function.update t fd (some f)) := by
  intro i
  rw [Function.update_apply]
  split_ifs with hi
  · simp [hi,hfd]
  · exact h i

theorem Reaches.fits (h : Reaches c₀ t₀ q c t) (hc : Fits c₀) : Fits c := by
  induction h with
  | line n => exact hc
  | redir h ih => exact ih.2
  | listLeft n h ih => exact ih.1
  | listRight h ih => exact ih.2
  | pipeLeft n h ih => exact ih.1
  | pipeRight n h ih => exact ih.2
  | back n h ih => exact ih

theorem Reaches.std (h : Reaches c₀ t₀ q c t) (hc : Fits c₀) (ht : Std t₀) : Std t := by
  induction h with
  | line n => exact ht
  | redir h ih => exact ih.update (h.fits hc).1 _
  | listLeft n h ih => exact ih
  | listRight h ih => exact ih
  | pipeLeft n h ih => exact ih.update (by decide) _
  | pipeRight n h ih => exact ih.update (by decide) _
  | back n h ih => exact ih

/-- The side of a pipe that has this end. -/
def side : Bool → Role
  | true => .pipeLeft
  | false => .pipeRight

/-- The ends of pipes are held below the side that has them only. -/
def Held (q : Name) (t : Table) : Prop := ∀ fd w k, t fd = some (.pipe w k) → ∃ n, ⟨n,side w⟩ :: k <:+ q

theorem Held.cons (h : Held q t) (f : Fork) : Held (f :: q) t := by
  intro fd w k hfd
  obtain ⟨n,hn⟩ := h fd w k hfd
  exact ⟨n,hn.trans (List.suffix_cons _ _)⟩

theorem Held.update (h : Held q t) {f : Obj} (hf : ∀ w k, f = .pipe w k → ∃ n, ⟨n,side w⟩ :: k <:+ q) (fd : ℕ) :
    Held q (Function.update t fd (some f)) := by
  intro i w k hi
  rw [Function.update_apply] at hi
  split_ifs at hi
  · exact hf w k (Option.some.inj hi)
  · exact h i w k hi

theorem Held.close (h : Held q t) (fd : ℕ) : Held q (t.close fd) := by
  intro i w k hi
  rw [Table.close,Function.update_apply] at hi
  split_ifs at hi
  exact h i w k hi

theorem Reaches.held (h : Reaches c₀ t₀ q c t) (ht : Held [] t₀) : Held q t := by
  induction h with
  | line n => exact ht.cons _
  | redir h ih => exact ih.update (fun w k hf => by cases hf) _
  | listLeft n h ih => exact ih.cons _
  | listRight h ih => exact ih
  | pipeLeft n h ih => exact (ih.cons _).update (fun w k hf => by cases hf; exact ⟨n,List.suffix_rfl⟩) _
  | pipeRight n h ih => exact (ih.cons _).update (fun w k hf => by cases hf; exact ⟨n,List.suffix_rfl⟩) _
  | back n h ih => exact ih.cons _

/-! ### The calls -/

theorem fdalloc_eq (fd : ℕ) (hlow : ∀ i < fd, (t i).isSome) (hfd : t fd = none) (hn : fd < nofile) (f : Obj) :
    fdalloc t f = some (fd,Function.update t fd (some f)) := by
  have h : (List.range nofile).find? (fun fd => (t fd).isNone) = some fd := by
    rw [List.find?_range_eq_some]
    refine ⟨by simp [hfd],List.mem_range.mpr hn,fun i hi => ?_⟩
    simp [hlow i hi]
  rw [fdalloc,h]
  rfl

/-- The descriptors after `pipe`. -/
def piped (t : Table) (k : Name) : Table :=
  Function.update (Function.update t 3 (some (.pipe false k))) 4 (some (.pipe true k))

theorem close_self (t : Table) (fd : ℕ) : t.close fd fd = none := Function.update_self _ _ _

theorem Std.eq_none (h : Std t) (hfd : 3 ≤ fd) : t fd = none := by
  by_contra hn
  have hlt := (h fd).mp (Option.isSome_iff_ne_none.mpr hn)
  omega

theorem Std.pipe (h : Std t) (k : Name) : ShRun.pipe t k = some (3,4,piped t k) := by
  unfold ShRun.pipe
  rw [fdalloc_eq 3 (fun i hi => (h i).mpr hi) (h.eq_none le_rfl) (by decide),Option.bind_eq_bind,Option.bind_some]
  dsimp only
  rw [fdalloc_eq 4 _ _ (by decide)]
  · rfl
  · intro i hi
    rw [Function.update_apply]
    split_ifs
    · rfl
    · exact (h i).mpr (by omega)
  · rw [Function.update_of_ne (by decide),h.eq_none (by decide)]

/-- The calls of `open` after `close` fills the descriptor that was closed. -/
theorem Std.reopen (h : Std t) (hfd : fd < 3) (f : Obj) :
    fdalloc (t.close fd) f = some (fd,Function.update t fd (some f)) := by
  rw [fdalloc_eq fd _ (close_self t fd) (hfd.trans (by decide)),Table.close,Function.update_idem]
  intro i hi
  rw [Table.close,Function.update_of_ne (by omega)]
  exact (h i).mpr (by omega)

/-- The child of a pipe puts its end in its place. -/
theorem Std.dup (h : Std t) (w : Bool) (k : Name) :
    ((piped t k).close w.toNat).dup (if w.toNat = 1 then 4 else 3) =
      Function.update (piped t k) w.toNat (some (.pipe w k)) := by
  have hw : w.toNat < 3 := by cases w <;> decide
  have hp : ((piped t k).close w.toNat) (if w.toNat = 1 then 4 else 3) = some (.pipe w k) := by
    cases w <;> rfl
  rw [Table.dup,hp]
  dsimp only
  rw [fdalloc_eq w.toNat _ (close_self _ _) (hw.trans (by decide)),Table.close,Function.update_idem]
  · rfl
  intro i hi
  rw [Table.close,Function.update_of_ne (by omega),piped,Function.update_of_ne (by omega),
    Function.update_of_ne (by omega)]
  exact (h i).mpr (by omega)

theorem Std.close_piped (h : Std t) (k : Name) : ((piped t k).close 3).close 4 = t := by
  funext i
  simp only [Table.close,piped,Function.update_apply]
  split_ifs with h4 h3
  · rw [h4,h.eq_none (by decide)]
  · rw [h3,h.eq_none (by decide)]
  · rfl

theorem Std.close_child (h : Std t) (w : Bool) (k : Name) :
    Table.close (Table.close (Function.update (piped t k) w.toNat (some (.pipe w k))) 3) 4 =
      Function.update t w.toNat (some (.pipe w k)) := by
  have hw : w.toNat < 3 := by cases w <;> decide
  conv_rhs => rw [← h.close_piped k]
  simp only [Table.close]
  rw [Function.update_comm (by omega : w.toNat ≠ 3),Function.update_comm (by omega : w.toNat ≠ 4)]

theorem openConsoles_open (n : ℕ) (hlow : ∀ i < fd, (t i).isSome) (hfd : t fd = none) (h3 : fd < 3) :
    openConsoles (n + 1) t = openConsoles n (Function.update t fd (some .console)) := by
  rw [openConsoles,fdalloc_eq fd hlow hfd (h3.trans (by decide))]
  dsimp only
  rw [if_neg (by omega)]

/-- The first loop of `main`, once the first `k` descriptors are open, leaves exactly the first three open. -/
theorem openConsoles_std (j : ℕ) : ∀ (k n : ℕ) (t : Table), k + j = 3 → j < n → (∀ i < k, (t i).isSome) →
    (∀ i, 3 ≤ i → t i = none) → Std (openConsoles n t) := by
  induction j with
  | zero =>
    intro k n t hk hn hlow hhigh
    obtain ⟨n,rfl⟩ := Nat.exists_eq_succ_of_ne_zero hn.ne'
    have hk : k = 3 := hk
    subst hk
    rw [openConsoles,fdalloc_eq 3 hlow (hhigh 3 le_rfl) (by decide)]
    dsimp only
    rw [if_pos le_rfl]
    intro i
    rw [Table.close,Function.update_idem,Function.update_apply]
    split_ifs with hi
    · simp [hi]
    · refine ⟨fun h => ?_,hlow i⟩
      by_contra hlt
      rw [hhigh i (by omega)] at h
      cases h
  | succ j ih =>
    intro k n t hk hn hlow hhigh
    obtain ⟨n,rfl⟩ := Nat.exists_eq_succ_of_ne_zero (by omega : n ≠ 0)
    by_cases hopen : (t k).isSome
    · refine ih (k + 1) (n + 1) t (by omega) (by omega) (fun i hi => ?_) hhigh
      rcases Nat.lt_succ_iff_lt_or_eq.mp hi with hi | rfl
      · exact hlow i hi
      · exact hopen
    · rw [openConsoles_open n hlow (by simpa using hopen) (by omega)]
      refine ih (k + 1) n _ (by omega) (by omega) (fun i hi => ?_) (fun i hi => ?_)
      · rw [Function.update_apply]
        split_ifs with hik
        · rfl
        · exact hlow i (by omega)
      · rw [Function.update_of_ne (by omega),hhigh i hi]

theorem fdalloc_some {f : Obj} {t' : Table} (h : fdalloc t f = some (fd,t')) : t' = Function.update t fd (some f) := by
  obtain ⟨i,-,hi⟩ := Option.map_eq_some_iff.mp h
  cases hi
  rfl

theorem openConsoles_held (n : ℕ) : ∀ t, Held q t → Held q (openConsoles n t) := by
  induction n with
  | zero => exact fun _ h => h
  | succ n ih =>
    intro t h
    rw [openConsoles]
    split
    · exact h
    · rename_i fd t' ht
      have ht' := fdalloc_some ht
      have hheld : Held q t' := ht' ▸ h.update (fun w k hf => by cases hf) fd
      split_ifs
      · exact hheld.close fd
      · exact ih t' hheld

theorem Held.dup (h : Held q t) (fd : ℕ) : Held q (t.dup fd) := by
  unfold Table.dup
  split
  · exact h
  · rename_i f hf
    cases hd : fdalloc t f with
    | none => exact h
    | some r =>
      have hr := fdalloc_some hd
      rw [Option.map_some,Option.getD_some,hr]
      exact h.update (fun w k hw => h fd w k (hw ▸ hf)) r.1

end X86OsDev.Xv6.ShRun
