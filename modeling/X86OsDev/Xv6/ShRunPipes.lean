import X86OsDev.Xv6.ShRunFiles

/-! # Pipes and redirections of the shell

What is open in a process of the shell follows from where it stands. So each
command runs with the descriptors that its line gives it, and an end of a pipe
is open below the side that uses it only, once the pipe is set up.
-/
namespace X86OsDev.Xv6.ShRun
open Sh ForkJoin Transition

variable {c₀ c : Cmd} {t₀ t : Table} {q : Name} {fd : ℕ}

/-! ### The descriptors at each point -/

section Points
variable {T : Table} {P : Proc} {k : Name} {w : Bool}

/-- The process is to run `c` with the descriptors `t` for the line of `main`, which has `T`. -/
def Runs (T : Table) (line : Option Cmd) (q : Name) (c : Cmd) (t : Table) : Prop :=
  ∃ c₀, line = some c₀ ∧ Fits c₀ ∧ Reaches c₀ T q c t

/-- The process is the child of `k` that is to run `c` on one side of a pipe. -/
def Child (T : Table) (line : Option Cmd) (q : Name) (w : Bool) (k : Name) (c : Cmd) (t : Table) : Prop :=
  ∃ n other, q = ⟨n,side w⟩ :: k ∧ Runs T line k (if w then .pipe c other else .pipe other c) t

/-- As `Held`, but a process may still hold the pipe that it made. -/
def HeldOrMade (q : Name) (t : Table) : Prop :=
  ∀ fd w k, t fd = some (.pipe w k) → q = k ∨ ∃ n, ⟨n,side w⟩ :: k <:+ q

/-- What the variables and descriptors are at each point. -/
def Sound (T : Table) (q : Name) (P : Proc) : Prop :=
  match P.point with
  | .prompt | .mainWait => q = [] ∧ P.ofile = T
  | .mainFork parsed => q = [] ∧ P.ofile = T ∧ ∀ c, parsed = .ok c → Fits c
  | .parse parsed => P.ofile = T ∧ ∀ c, parsed = .ok c → Runs T P.line q c T
  | .run c => Runs T P.line q c P.ofile
  | .redirOpen c file efile mode => ∃ fd t, Runs T P.line q (.redir c file efile mode fd) t ∧ P.ofile = t.close fd
  | .listWait right => ∃ left, Runs T P.line q (.list left right) P.ofile
  | .leftFork p0 p1 left right =>
    p0 = 3 ∧ p1 = 4 ∧ ∃ t, Runs T P.line q (.pipe left right) t ∧ P.ofile = piped t q
  | .rightFork p0 p1 right =>
    p0 = 3 ∧ p1 = 4 ∧ ∃ left t, Runs T P.line q (.pipe left right) t ∧ P.ofile = piped t q
  | .parentClose0 p0 p1 =>
    p0 = 3 ∧ p1 = 4 ∧ ∃ left right t, Runs T P.line q (.pipe left right) t ∧ P.ofile = piped t q
  | .parentClose1 p1 => p1 = 4 ∧ ∃ left right t, Runs T P.line q (.pipe left right) t ∧ P.ofile = (piped t q).close 3
  | .pipeWait1 | .pipeWait2 => ∃ left right, Runs T P.line q (.pipe left right) P.ofile
  | .closeStd std p0 p1 c =>
    p0 = 3 ∧ p1 = 4 ∧ ∃ w k t, std = w.toNat ∧ Child T P.line q w k c t ∧ P.ofile = piped t k
  | .dupEnd std p0 p1 c =>
    p0 = 3 ∧ p1 = 4 ∧ ∃ w k t, std = w.toNat ∧ Child T P.line q w k c t ∧ P.ofile = (piped t k).close w.toNat
  | .close0 p0 p1 c => p0 = 3 ∧ p1 = 4 ∧ ∃ w k t, Child T P.line q w k c t ∧
    P.ofile = Function.update (piped t k) w.toNat (some (.pipe w k))
  | .close1 p1 c => p1 = 4 ∧ ∃ w k t, Child T P.line q w k c t ∧
    P.ofile = Table.close (Function.update (piped t k) w.toNat (some (.pipe w k))) 3
  | .printf _ | .exit => HeldOrMade q P.ofile
  | .program _ => Held q P.ofile

variable {line : Option Cmd}

theorem Runs.std (h : Runs T line q c t) (hT : Std T) : Std t := by
  obtain ⟨c₀,-,hc,hr⟩ := h
  exact hr.std hc hT

theorem Runs.held (h : Runs T line q c t) (hT : Held [] T) : Held q t := by
  obtain ⟨c₀,-,-,hr⟩ := h
  exact hr.held hT

theorem Held.made (h : Held q t) : HeldOrMade q t := fun fd w k hfd => .inr (h fd w k hfd)

theorem Held.piped (h : Held q t) : HeldOrMade q (piped t q) := by
  intro fd w k hfd
  rw [ShRun.piped,Function.update_apply,Function.update_apply] at hfd
  split_ifs at hfd
  · cases hfd
    exact .inl rfl
  · cases hfd
    exact .inl rfl
  · exact .inr (h fd w k hfd)

theorem Child.std (h : Child T line q w k c t) (hT : Std T) : Std t := by
  obtain ⟨n,other,-,hr⟩ := h
  exact hr.std hT

theorem Child.runs (h : Child T line q w k c t) :
    Runs T line q c (Function.update t w.toNat (some (.pipe w k))) := by
  obtain ⟨n,other,rfl,c₀,hline,hc,hr⟩ := h
  refine ⟨c₀,hline,hc,?_⟩
  cases w with
  | true => exact .pipeLeft n hr
  | false => exact .pipeRight n hr

theorem Held.of_nil (h : Held [] t) : ∀ q, Held q t
  | [] => h
  | f :: q => (h.of_nil q).cons f

theorem runcmd_sound {ok : Bool} {l : Option Cmd} (hT : Std T) (h0 : Held [] T) (h : Runs T l q c t) :
    (runcmd q ok ⟨.run c,t,l⟩ c).Keeps (Sound T) q := by
  have hheld := h.held h0
  obtain ⟨c₀,rfl,hc,hr⟩ := h
  cases c with
  | exec argv =>
    cases argv with
    | nil => exact hheld.made
    | cons argv0 argv =>
      cases ok with
      | true => exact hheld
      | false => exact hheld.made
  | redir cmd file efile mode fd => exact ⟨fd,t,⟨c₀,rfl,hc,hr⟩,rfl⟩
  | list left right =>
    exact keeps_fork1 (I := Sound T) ⟨left,c₀,rfl,hc,hr⟩ (fun n => ⟨c₀,rfl,hc,.listLeft n hr⟩) hheld.made
  | pipe left right =>
    unfold runcmd
    dsimp only
    cases ok with
    | true =>
      rw [if_pos rfl,(hr.std hc hT).pipe q]
      exact ⟨rfl,rfl,t,⟨c₀,rfl,hc,hr⟩,rfl⟩
    | false => exact hheld.made
  | back cmd => exact keeps_fork1 (I := Sound T) hheld.made (fun n => ⟨c₀,rfl,hc,.back n hr⟩) hheld.made

theorem redirOpen_sound {ok : Bool} {l : Option Cmd} {file efile mode : ℕ} (hT : Std T) (h0 : Held [] T)
    (h : Runs T l q (.redir c file efile mode fd) t) :
    (redirOpen ok ⟨.redirOpen c file efile mode,t.close fd,l⟩ c file efile mode).Keeps (Sound T) q := by
  have hheld := h.held h0
  obtain ⟨c₀,rfl,hc,hr⟩ := h
  unfold redirOpen
  cases ok with
  | true =>
    rw [if_pos rfl,(hr.std hc hT).reopen (hr.fits hc).1]
    exact ⟨c₀,rfl,hc,.redir hr⟩
  | false => exact (hheld.close fd).made

theorem next_sound {ok : Bool} {out : Outcome} (hT : Std T) (h0 : Held [] T) (h : Sound T q P)
    (hout : next q ok P = some out) : out.Keeps (Sound T) q := by
  obtain ⟨pt,t,l⟩ := P
  unfold next at hout
  dsimp only at hout
  split at hout
  all_goals cases hout
  · obtain ⟨rfl,rfl,hfits⟩ := h
    refine keeps_fork1 (I := Sound t) ⟨rfl,rfl⟩ (fun n => ⟨rfl,?_⟩) h0.made
    intro c hc
    cases hc
    exact ⟨_,rfl,hfits _ rfl,.line n⟩
  · obtain ⟨rfl,rfl,hfits⟩ := h
    refine keeps_fork1 (I := Sound t) ⟨rfl,rfl⟩ (fun n => ⟨rfl,?_⟩) h0.made
    intro c hc
    cases hc
  · obtain ⟨rfl,hruns⟩ := h
    exact hruns _ rfl
  · obtain ⟨rfl,-⟩ := h
    exact (h0.of_nil q).made
  · exact runcmd_sound hT h0 h
  · obtain ⟨fd,t,hruns,rfl⟩ := h
    exact redirOpen_sound hT h0 hruns
  · obtain ⟨rfl,rfl,t,hruns,rfl⟩ := h
    refine keeps_fork1 (I := Sound T) ⟨rfl,rfl,_,t,hruns,rfl⟩ (fun n => ?_) (hruns.held h0).piped
    exact ⟨rfl,rfl,true,q,t,rfl,⟨n,_,rfl,hruns⟩,rfl⟩
  · obtain ⟨rfl,rfl,left,t,hruns,rfl⟩ := h
    refine keeps_fork1 (I := Sound T) ⟨rfl,rfl,left,_,t,hruns,rfl⟩ (fun n => ?_) (hruns.held h0).piped
    exact ⟨rfl,rfl,false,q,t,rfl,⟨n,left,rfl,hruns⟩,rfl⟩
  · obtain ⟨rfl,rfl,left,right,t,hruns,rfl⟩ := h
    exact ⟨rfl,left,right,t,hruns,rfl⟩
  · obtain ⟨rfl,left,right,t,hruns,rfl⟩ := h
    refine ⟨left,right,?_⟩
    dsimp only
    rw [(hruns.std hT).close_piped]
    exact hruns
  · obtain ⟨rfl,rfl,w,k,t,rfl,hchild,rfl⟩ := h
    exact ⟨rfl,rfl,w,k,t,rfl,hchild,rfl⟩
  · obtain ⟨rfl,rfl,w,k,t,rfl,hchild,rfl⟩ := h
    exact ⟨rfl,rfl,w,k,t,hchild,(hchild.std hT).dup w k⟩
  · obtain ⟨rfl,rfl,w,k,t,hchild,rfl⟩ := h
    exact ⟨rfl,w,k,t,hchild,rfl⟩
  · obtain ⟨rfl,w,k,t,hchild,rfl⟩ := h
    change Runs T l q _ _
    rw [(hchild.std hT).close_child]
    exact hchild.runs
  · exact h
  · trivial

theorem program_sound {op : Op} {argv : List (ℕ × ℕ)} (hP : P.point = .program argv) (h : Sound T q P) :
    (program P op).Keeps (Sound T) q := by
  obtain ⟨pt,t,l⟩ := P
  cases hP
  have h : Held q t := h
  cases op with
  | fork => exact ⟨h,fun n => h.cons _⟩
  | exit => trivial
  | exec argv => exact h
  | close fd => exact h.close fd
  | dup fd => exact h.dup fd
  | opens fd n => exact h.update (fun w k hf => by cases hf) fd

theorem wait_sound {point : Point} (h0 : Held [] T) (h : Sound T q P) (hpoint : afterWait P.point = some point) :
    Sound T q { P with point := point } := by
  obtain ⟨pt,t,l⟩ := P
  dsimp only at hpoint
  cases pt
  all_goals cases hpoint
  case mainWait => exact h
  case listWait right =>
    obtain ⟨left,c₀,rfl,hc,hr⟩ := h
    exact ⟨c₀,rfl,hc,.listRight hr⟩
  case pipeWait1 => exact h
  case pipeWait2 =>
    obtain ⟨left,right,hruns⟩ := h
    exact (hruns.held h0).made
  case program argv => exact h

theorem getcmd_sound {l : Line} (h0 : Held [] T) (hP : P.point = .prompt) (h : Sound T [] P) :
    Sound T [] { P with point := getcmd l } := by
  obtain ⟨pt,t,line⟩ := P
  cases hP
  obtain ⟨-,rfl⟩ := h
  cases l with
  | eof => exact h0.made
  | cd => exact ⟨rfl,rfl⟩
  | cmd fuel m s =>
    refine ⟨rfl,rfl,fun c hc => ?_⟩
    cases hp : parsecmd fuel m s with
    | error e =>
      rw [hp] at hc
      cases hc
    | ok r =>
      rw [hp] at hc
      cases hc
      exact parsecmd_fits hp

theorem sound_kept (hT : Std T) (h0 : Held [] T) : Kept (Sound T) where
  getcmd _ _ hP h := getcmd_sound h0 hP h
  next _ _ _ _ h hout := next_sound hT h0 h hout
  program _ _ _ _ hP h := program_sound hP h
  wait _ _ _ h hpoint := wait_sound h0 h hpoint

end Points

/-- The descriptors that `init` gives the shell: some of the first three, and none of them a pipe. -/
structure FromInit (t : Table) : Prop where
  low : ∀ fd, 3 ≤ fd → t fd = none
  files : ∀ fd w k, t fd ≠ some (.pipe w k)

theorem FromInit.held (h : FromInit t) : Held [] t := fun fd w k hfd => absurd hfd (h.files fd w k)

theorem FromInit.std (h : FromInit t) : Std (openConsoles nofile t) :=
  openConsoles_std 3 0 nofile t rfl (by decide) (fun i hi => absurd hi (Nat.not_lt_zero i)) h.low

variable {s : State} {P : Proc}

theorem Reached.sound (h : Reached t s) (ht : FromInit t) (hq : s.procs.slot q = .live P) :
    Sound (openConsoles nofile t) q P :=
  (sound_kept ht.std (openConsoles_held nofile t ht.held)).reached ⟨rfl,rfl⟩ h q P hq

/-- Whatever else runs, a command runs with exactly the first three descriptors open, and they are those
that the line gives it. -/
theorem runs_with (h : Reached t s) (ht : FromInit t) (hq : s.procs.slot q = .live P) (hP : P.point = .run c) :
    (∃ c₀, P.line = some c₀ ∧ Reaches c₀ (openConsoles nofile t) q c P.ofile) ∧ ∀ fd, (P.ofile fd).isSome ↔ fd < 3 := by
  have hs := h.sound ht hq
  obtain ⟨pt,u,l⟩ := P
  cases hP
  have hs : Runs (openConsoles nofile t) l q c u := hs
  refine ⟨?_,hs.std ht.std⟩
  obtain ⟨c₀,hl,-,hr⟩ := hs
  exact ⟨c₀,hl,hr⟩

/-- The points at which a process has a pipe that it made. -/
def Point.HasPipe : Point → Prop
  | .leftFork _ _ _ _ | .rightFork _ _ _ | .parentClose0 _ _ | .parentClose1 _ | .printf _ | .exit => True
  | _ => False

/-- The points at which the child of a pipe has both ends. -/
def Point.SetsUp : Point → Prop
  | .closeStd _ _ _ _ | .dupEnd _ _ _ _ | .close0 _ _ _ | .close1 _ _ => True
  | _ => False

theorem HeldOrMade.close (h : HeldOrMade q t) (fd : ℕ) : HeldOrMade q (t.close fd) := by
  intro i w k hi
  rw [Table.close,Function.update_apply] at hi
  split_ifs at hi
  exact h i w k hi

theorem HeldOrMade.update (h : HeldOrMade q t) (fd : ℕ) (w : Bool) :
    HeldOrMade q (Function.update t fd (some (.pipe w q))) := by
  intro i v k hi
  rw [Function.update_apply] at hi
  split_ifs at hi
  · cases hi
    exact .inl rfl
  · exact h i v k hi

/-- Who has an end of the pipe of `k` open. -/
def EndAt (P : Proc) (q : Name) (w : Bool) (k : Name) : Prop :=
  (∃ n, ⟨n,side w⟩ :: k <:+ q) ∨ (q = k ∧ P.point.HasPipe) ∨ ((∃ n v, q = ⟨n,side v⟩ :: k) ∧ P.point.SetsUp)

theorem HeldOrMade.endAt {w : Bool} {k : Name} (h : HeldOrMade q P.ofile) (hP : P.point.HasPipe)
    (hfd : P.ofile fd = some (.pipe w k)) : EndAt P q w k := by
  rcases h fd w k hfd with rfl | h
  · exact .inr (.inl ⟨rfl,hP⟩)
  · exact .inl h

theorem Child.endAt {T : Table} {v w : Bool} {j k : Name} (h : Child T P.line q v j c t) (hj : HeldOrMade j P.ofile)
    (hP : P.point.SetsUp) (hfd : P.ofile fd = some (.pipe w k)) : EndAt P q w k := by
  obtain ⟨n,other,rfl,-⟩ := h
  rcases hj fd w k hfd with rfl | ⟨m,hm⟩
  · exact .inr (.inr ⟨⟨n,v,rfl⟩,hP⟩)
  · exact .inl ⟨m,hm.trans (List.suffix_cons _ _)⟩

theorem Child.held {T : Table} {line : Option Cmd} {w : Bool} {k : Name} (h : Child T line q w k c t) (h0 : Held [] T) :
    Held k t := by
  obtain ⟨n,other,-,hruns⟩ := h
  exact hruns.held h0

/-- While a pipe is set up, the process that made it and its two children may have both ends open. Otherwise
the writable end is open in the left side and what runs below it only, and the readable end in the right side. -/
theorem pipe_ends {w : Bool} {k : Name} (h : Reached t s) (ht : FromInit t) (hq : s.procs.slot q = .live P)
    (hfd : P.ofile fd = some (.pipe w k)) :
    (∃ n, ⟨n,side w⟩ :: k <:+ q) ∨ (q = k ∧ P.point.HasPipe) ∨ ((∃ n v, q = ⟨n,side v⟩ :: k) ∧ P.point.SetsUp) := by
  have hs := h.sound ht hq
  have h0 : Held [] (openConsoles nofile t) := openConsoles_held nofile t ht.held
  obtain ⟨pt,u,l⟩ := P
  cases pt
  case prompt | mainWait =>
    obtain ⟨rfl,rfl⟩ := hs
    exact .inl (h0 fd w k hfd)
  case mainFork parsed =>
    obtain ⟨rfl,rfl,-⟩ := hs
    exact .inl (h0 fd w k hfd)
  case parse parsed =>
    obtain ⟨rfl,-⟩ := hs
    exact .inl (h0.of_nil q fd w k hfd)
  case run cmd => exact .inl (Runs.held hs h0 fd w k hfd)
  case redirOpen cmd file efile mode =>
    obtain ⟨i,t,hruns,rfl⟩ := hs
    exact .inl ((hruns.held h0).close i fd w k hfd)
  case listWait right =>
    obtain ⟨left,hruns⟩ := hs
    exact .inl (hruns.held h0 fd w k hfd)
  case leftFork p0 p1 left right =>
    obtain ⟨-,-,t,hruns,rfl⟩ := hs
    exact (hruns.held h0).piped.endAt trivial hfd
  case rightFork p0 p1 right =>
    obtain ⟨-,-,left,t,hruns,rfl⟩ := hs
    exact (hruns.held h0).piped.endAt trivial hfd
  case parentClose0 p0 p1 =>
    obtain ⟨-,-,left,right,t,hruns,rfl⟩ := hs
    exact (hruns.held h0).piped.endAt trivial hfd
  case parentClose1 p1 =>
    obtain ⟨-,left,right,t,hruns,rfl⟩ := hs
    exact ((hruns.held h0).piped.close 3).endAt trivial hfd
  case pipeWait1 | pipeWait2 =>
    obtain ⟨left,right,hruns⟩ := hs
    exact .inl (hruns.held h0 fd w k hfd)
  case closeStd std p0 p1 cmd =>
    obtain ⟨-,-,v,j,t,-,hchild,rfl⟩ := hs
    exact hchild.endAt (hchild.held h0).piped trivial hfd
  case dupEnd std p0 p1 cmd =>
    obtain ⟨-,-,v,j,t,-,hchild,rfl⟩ := hs
    exact hchild.endAt ((hchild.held h0).piped.close _) trivial hfd
  case close0 p0 p1 cmd =>
    obtain ⟨-,-,v,j,t,hchild,rfl⟩ := hs
    exact hchild.endAt ((hchild.held h0).piped.update _ v) trivial hfd
  case close1 p1 cmd =>
    obtain ⟨-,v,j,t,hchild,rfl⟩ := hs
    exact hchild.endAt (((hchild.held h0).piped.update _ v).close 3) trivial hfd
  case printf message => exact HeldOrMade.endAt hs trivial hfd
  case exit => exact HeldOrMade.endAt hs trivial hfd
  case program argv => exact .inl (hs fd w k hfd)

section Example

/-- `main` reads `a|b` and its child makes the pipe. -/
def pipeLine : List Action :=
  [.getcmd (.cmd 20 (fun a => [chr 'a',chr '|',chr 'b'].getD a 0) 0),.shell [] true,.shell [⟨1,.line⟩] true,
    .shell [⟨1,.line⟩] true]

theorem fromInit_consoles : FromInit consoles where
  low fd h := by
    rw [consoles,if_neg (by omega)]
  files fd w k h := by
    unfold consoles at h
    split_ifs at h
    cases h

theorem runs_with_line : ∃ s P, (pipeLine.take 3).foldlM step (start consoles) = some s ∧
    s.procs.slot [⟨1,.line⟩] = .live P ∧ ∀ fd, (P.ofile fd).isSome ↔ fd < 3 := by
  obtain ⟨s,P,c,hs,hq,hP⟩ : ∃ s P c, (pipeLine.take 3).foldlM step (start consoles) = some s ∧
    s.procs.slot [⟨1,.line⟩] = .live P ∧ P.point = .run c := ⟨_,_,_,rfl,rfl,rfl⟩
  exact ⟨s,P,hs,hq,(runs_with (Reachable.foldlM _ (.base rfl) hs) fromInit_consoles hq hP).2⟩

theorem pipe_ends_line : ∃ s P, pipeLine.foldlM step (start consoles) = some s ∧
    s.procs.slot [⟨1,.line⟩] = .live P ∧ EndAt P [⟨1,.line⟩] true [⟨1,.line⟩] := by
  obtain ⟨s,P,hs,hq,hfd⟩ : ∃ s P, pipeLine.foldlM step (start consoles) = some s ∧
    s.procs.slot [⟨1,.line⟩] = .live P ∧ P.ofile 4 = some (.pipe true [⟨1,.line⟩]) := ⟨_,_,rfl,rfl,rfl⟩
  exact ⟨s,P,hs,hq,pipe_ends (Reachable.foldlM _ (.base rfl) hs) fromInit_consoles hq hfd⟩

end Example

end X86OsDev.Xv6.ShRun
