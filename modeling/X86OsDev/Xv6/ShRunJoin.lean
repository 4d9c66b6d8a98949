import X86OsDev.Xv6.ShRun

/-! # The shell waits for what it starts

A process of the shell owes as many calls of `wait` as it has children that are
not in the background. Only a `fork1` that fails for the right side of a pipe
leaves a child behind.
-/
namespace X86OsDev.Xv6.ShRun
open Sh ForkJoin Transition

/-- The forks whose child the shell waits for. -/
def Fork.Waited (f : Fork) : Prop := f.role ≠ .back ∧ f.role ≠ .program

/-- The calls of `wait` to come. -/
def Point.owes : Point → ℕ
  | .mainWait | .listWait _ | .rightFork _ _ _ | .pipeWait2 => 1
  | .parentClose0 _ _ | .parentClose1 _ | .pipeWait1 => 2
  | _ => 0

/-- The points at which there can be children that nobody waits for. -/
def Point.Loose : Point → Prop
  | .exit | .program _ => True
  | _ => False

theorem Point.owes_loose (p : Point) (h : p.Loose) : p.owes = 0 := by
  cases p <;> first | rfl | exact h.elim

def discipline : Discipline Fork Proc where
  waited := Fork.Waited
  owes P := P.point.owes
  loose P := P.point.Loose
  owes_loose P := P.point.owes_loose

variable {s s' : State} {q : Name} {P : Proc} {out : Outcome} {a : Action}

/-- The action `a` takes the process `q` from `P` to the outcome. -/
inductive Does (s : State) : Action → Name → Proc → Outcome → Prop
  | getcmd (line : Line) (P : Proc) (h : P.point = .prompt) :
    Does s (.getcmd line) [] P (.go { P with point := ShRun.getcmd line })
  | shell (q : Name) (ok : Bool) (P : Proc) (out : Outcome) (h : next q ok P = some out) :
    Does s (.shell q ok) q P out
  | program (q : Name) (op : Op) (P : Proc) (argv : List (ℕ × ℕ)) (h : P.point = .program argv) :
    Does s (.program q op) q P (ShRun.program P op)
  | noChild (p : Name) (P : Proc) (point : Point) (h : afterWait P.point = some point)
    (hno : s.procs.hasChild p = false) : Does s (.noChild p) p P (.go { P with point := point })

/-- What a step can do. -/
inductive Stepped (s : State) : Action → State → Prop
  | does (a : Action) (q : Name) (P : Proc) (out : Outcome) (hq : s.procs.slot q = .live P) (h : Does s a q P out) :
    Stepped s a (s.does q out)
  | wait (p q : Name) (P : Proc) (point : Point) (hp : s.procs.slot p = .live P)
    (h : afterWait P.point = some point) (hq : s.procs.parent q = some p) (hz : s.procs.slot q = .zombie) :
    Stepped s (.wait p q) { s with procs := s.procs.wait p q { P with point := point } }
  | init (q : Name) (hq : s.procs.parent q = none) (hz : s.procs.slot q = .zombie) :
    Stepped s (.init q) { s with procs := s.procs.free q }

theorem proc?_eq_some (h : s.proc? q = some P) : s.procs.slot q = .live P := by
  unfold State.proc? at h
  split at h
  · rename_i P' hP
    cases h
    exact hP
  · cases h

theorem step_cases (h : step s a = some s') : Stepped s a s' := by
  cases a with
  | getcmd line =>
    simp only [step] at h
    split at h
    · rename_i t l hP
      cases h
      exact .does _ _ _ _ (proc?_eq_some hP) (.getcmd line ⟨.prompt,t,l⟩ rfl)
    · cases h
  | shell q ok =>
    simp only [step,Option.bind_eq_bind,Option.bind_eq_some_iff] at h
    obtain ⟨P,hP,out,hout,h⟩ := h
    cases h
    exact .does _ _ _ _ (proc?_eq_some hP) (.shell q ok P out hout)
  | program q op =>
    simp only [step] at h
    split at h
    · rename_i argv t l hP
      cases h
      exact .does _ _ _ _ (proc?_eq_some hP) (.program q op ⟨.program argv,t,l⟩ argv rfl)
    · cases h
  | wait p q =>
    simp only [step,Option.bind_eq_bind,Option.bind_eq_some_iff] at h
    obtain ⟨P,hP,point,hpoint,h⟩ := h
    split_ifs at h with hq
    cases h
    exact .wait p q P point (proc?_eq_some hP) hpoint hq.1 (Slot.eq_zombie hq.2)
  | noChild p =>
    simp only [step,Option.bind_eq_bind,Option.bind_eq_some_iff] at h
    obtain ⟨P,hP,point,hpoint,h⟩ := h
    split_ifs at h with hno
    cases h
    exact .does _ _ _ _ (proc?_eq_some hP) (.noChild p P point hpoint (by simpa using hno))
  | init q =>
    simp only [step] at h
    split_ifs at h with hq
    cases h
    exact .init q hq.1 (Slot.eq_zombie hq.2)

/-- What the discipline asks of a step from `P`. -/
def Follows (P : Proc) : Outcome → Prop
  | .go P' => P'.point.owes = P.point.owes ∧ (P.point.Loose → P'.point.Loose)
  | .fork role P' C => ∀ n, discipline.Forks P ⟨n,role⟩ P' C
  | .exits => P.point.owes = 0

/-- `fork1` fails for the right side of a pipe. -/
def LeavesChild (ok : Bool) (P : Proc) (out : Outcome) : Prop :=
  ok = false ∧ (∃ p0 p1 right, P.point = .rightFork p0 p1 right) ∧ out = .go { P with point := .printf .fork }

theorem fork1_follows {ok : Bool} {role : Role} {pt parent child : Point} {t : Table} {l l' : Option Cmd}
    (hp : ¬ pt.Loose) (hf : ∀ n, discipline.Forks ⟨pt,t,l⟩ ⟨n,role⟩ ⟨parent,t,l'⟩ ⟨child,t,l'⟩)
    (ho : pt.owes = 0 ∨ ok = true) : Follows ⟨pt,t,l⟩ (fork1 ok role ⟨pt,t,l'⟩ parent child) := by
  cases ok with
  | true => exact hf
  | false =>
    refine ⟨?_,fun h => absurd h hp⟩
    rcases ho with ho | ho
    · exact ho.symm
    · cases ho

theorem go_follows {pt pt' : Point} {t t' : Table} {l l' : Option Cmd} (ho : pt'.owes = pt.owes) (hl : ¬ pt.Loose) :
    Follows ⟨pt,t,l⟩ (.go ⟨pt',t',l'⟩) := ⟨ho,fun h => absurd h hl⟩

theorem forks_of {role : Role} {n : ℕ} {P' C : Proc} (hw : Fork.Waited ⟨n,role⟩)
    (hp : P'.point.owes = P.point.owes + 1) (hl : ¬ P.point.Loose) (hc : C.point.owes = 0) :
    discipline.Forks P ⟨n,role⟩ P' C where
  join _ := hp
  detach h := absurd hw h
  loose h := absurd h hl
  fresh := hc

theorem forks_detached {role : Role} {n : ℕ} {P' C : Proc} (hw : ¬ Fork.Waited ⟨n,role⟩) (hp : P'.point.Loose)
    (ho : P.point.owes = 0) (hc : C.point.owes = 0) : discipline.Forks P ⟨n,role⟩ P' C where
  join h := absurd h hw
  detach _ := ⟨hp,ho⟩
  loose _ := hp
  fresh := hc

theorem runcmd_follows {ok : Bool} {cmd : Cmd} {t : Table} {l : Option Cmd} :
    Follows ⟨.run cmd,t,l⟩ (runcmd q ok ⟨.run cmd,t,l⟩ cmd) := by
  cases cmd with
  | exec argv =>
    cases argv with
    | nil => exact go_follows rfl id
    | cons argv0 argv => cases ok <;> exact go_follows rfl id
  | redir cmd file efile mode fd => exact go_follows rfl id
  | list left right =>
    exact fork1_follows id (fun n => forks_of ⟨by simp,by simp⟩ rfl id rfl) (.inl rfl)
  | pipe left right =>
    unfold runcmd
    dsimp only
    split <;> exact go_follows rfl id
  | back cmd => exact fork1_follows id (fun n => forks_detached (fun h => h.1 rfl) trivial rfl rfl) (.inl rfl)

theorem next_follows {ok : Bool} (h : next q ok P = some out) : Follows P out ∨ LeavesChild ok P out := by
  obtain ⟨pt,t,l⟩ := P
  unfold next at h
  dsimp only at h
  split at h
  all_goals cases h
  · exact .inl (fork1_follows id (fun n => forks_of ⟨by simp,by simp⟩ rfl id rfl) (.inl rfl))
  · exact .inl (fork1_follows id (fun n => forks_of ⟨by simp,by simp⟩ rfl id rfl) (.inl rfl))
  · exact .inl (go_follows rfl id)
  · exact .inl (go_follows rfl id)
  · exact .inl runcmd_follows
  · unfold redirOpen
    split <;> exact .inl (go_follows rfl id)
  · exact .inl (fork1_follows id (fun n => forks_of ⟨by simp,by simp⟩ rfl id rfl) (.inl rfl))
  · cases ok with
    | true => exact .inl (fork1_follows id (fun n => forks_of ⟨by simp,by simp⟩ rfl id rfl) (.inr rfl))
    | false => exact .inr ⟨rfl,⟨_,_,_,rfl⟩,rfl⟩
  all_goals first | exact .inl (go_follows rfl id) | exact .inl ⟨rfl,fun _ => trivial⟩ | exact .inl rfl

theorem program_follows {op : Op} {argv : List (ℕ × ℕ)} (h : P.point = .program argv) : Follows P (program P op) := by
  obtain ⟨pt,t,l⟩ := P
  cases h
  cases op with
  | fork => exact fun n => forks_detached (fun h => h.2 rfl) trivial rfl rfl
  | exit => rfl
  | exec argv => exact ⟨rfl,id⟩
  | close fd => exact ⟨rfl,id⟩
  | dup fd => exact ⟨rfl,id⟩
  | opens fd n => exact ⟨rfl,id⟩

theorem afterWait_owes {pt pt' : Point} (h : afterWait pt = some pt') :
    pt'.owes = pt.owes - 1 ∧ (pt.Loose → pt'.Loose) := by
  cases pt <;> cases h <;> first | exact ⟨rfl,id⟩ | exact ⟨rfl,fun h => h.elim⟩

theorem owes_of_no_child (h : discipline.Inv s.procs) (hq : s.procs.slot q = .live P)
    (hno : s.procs.hasChild q = false) : P.point.owes = 0 := by
  have he := h.enough q P hq
  have hempty : s.procs.waiting discipline q = ∅ := by
    refine Set.eq_empty_of_forall_notMem fun x hx => ?_
    have hmem := h.named _ (h.child q _ hx.2).2
    simp only [Tree.hasChild,decide_eq_false_iff_not,not_exists,not_and] at hno
    exact hno _ hmem hx.2
  rw [hempty,Set.encard_empty] at he
  exact Nat.le_zero.mp (Nat.cast_le.mp he)

theorem Does.follows (hd : Does s a q P out) (h : discipline.Inv s.procs) (hq : s.procs.slot q = .live P) :
    Follows P out ∨ ∃ ok, a = .shell q ok ∧ LeavesChild ok P out := by
  cases hd with
  | getcmd line P hP =>
    obtain ⟨pt,t,l⟩ := P
    cases hP
    cases line <;> exact .inl ⟨rfl,fun h => h.elim⟩
  | shell q ok P out hout =>
    rcases next_follows hout with hf | hf
    · exact .inl hf
    · exact .inr ⟨ok,rfl,hf⟩
  | program q op P argv hP => exact .inl (program_follows hP)
  | noChild q P point hpoint hno =>
    obtain ⟨ho,hl⟩ := afterWait_owes hpoint
    have hz := owes_of_no_child h hq hno
    exact .inl ⟨by rw [ho,hz],hl⟩

/-- The names that were given are below `nextpid`. -/
structure Inv (s : State) : Prop where
  tree : discipline.Inv s.procs
  below : ∀ p ∈ s.procs.names, ∀ x ∈ p, x.pid < s.nextpid

theorem Inv.fresh (h : Inv s) (p : Name) (role : Role) : s.procs.slot (⟨s.nextpid,role⟩ :: p) = .unused := by
  by_contra hs
  exact absurd (h.below _ (h.tree.named _ hs) _ (List.mem_cons_self)) (lt_irrefl _)

theorem Inv.does (h : Inv s) (hq : s.procs.slot q = .live P) (hf : Follows P out ∨ ∃ ok, LeavesChild ok P out) :
    Inv (s.does q out) := by
  cases out with
  | go P' =>
    refine ⟨?_,h.below⟩
    rcases hf with hf | ⟨ok,-,⟨p0,p1,right,hP⟩,hout⟩
    · exact h.tree.put hq hf.1.le hf.2
    · cases hout
      exact h.tree.put hq (Nat.zero_le _) (fun hl => by change P.point.Loose at hl; rw [hP] at hl; exact hl.elim)
  | fork role P' C =>
    rcases hf with hf | ⟨ok,-,-,hout⟩
    · refine ⟨h.tree.fork hq (h.fresh q role) (hf _),?_⟩
      intro p hp x hx
      rcases Finset.mem_insert.mp hp with rfl | hp
      · rcases List.mem_cons.mp hx with rfl | hx
        · exact Nat.lt_succ_self _
        · exact (h.below q (h.tree.named q (by rw [hq]; simp)) x hx).trans (Nat.lt_succ_self _)
      · exact (h.below p hp x hx).trans (Nat.lt_succ_self _)
    · cases hout
  | exits => exact ⟨h.tree.exit hq,h.below⟩

theorem Inv.step (h : Inv s) (hs : step s a = some s') : Inv s' := by
  cases step_cases hs with
  | does a q P out hq hd =>
    rcases hd.follows h.tree hq with hf | ⟨ok,-,hf⟩
    · exact h.does hq (.inl hf)
    · exact h.does hq (.inr ⟨ok,hf⟩)
  | wait p q P point hp hpoint hq hz =>
    obtain ⟨ho,hl⟩ := afterWait_owes hpoint
    exact ⟨h.tree.wait hp hq hz ho.le hl,h.below⟩
  | init q hq hz => exact ⟨h.tree.free_orphan hz hq,h.below⟩

/-- No `fork1` fails for the right side of a pipe. -/
def RightForks (s : State) (a : Action) : Prop :=
  ∀ q P p0 p1 right, a = .shell q false → s.procs.slot q = .live P → P.point ≠ .rightFork p0 p1 right

theorem joined_does (h : discipline.Inv s.procs) (hj : discipline.Joined s.procs) (hq : s.procs.slot q = .live P)
    (hfresh : ∀ role, s.procs.slot (⟨s.nextpid,role⟩ :: q) = .unused) (hf : Follows P out) :
    discipline.Joined (s.does q out).procs := by
  cases out with
  | go P' => exact hj.put hq hf.1.ge
  | fork role P' C => exact .fork h hj hq (hfresh role) (hf _)
  | exits => exact hj.exit hq hf

theorem joined_step (h : Inv s) (hj : discipline.Joined s.procs) (hright : RightForks s a)
    (hs : ShRun.step s a = some s') : discipline.Joined s'.procs := by
  cases step_cases hs with
  | does a q P out hq hd =>
    rcases hd.follows h.tree hq with hf | ⟨ok,ha,rfl,⟨p0,p1,right,hP⟩,-⟩
    · exact joined_does h.tree hj hq (h.fresh q) hf
    · exact absurd hP (hright q P p0 p1 right ha hq)
  | wait p q P point hp hpoint hq hz => exact .wait h.tree hj hp hq (afterWait_owes hpoint).1.ge
  | init q hq hz => exact hj.free_orphan hq

/-! ### Runs -/

/-- The states that the shell reaches from its first prompt, where `main` was given the descriptors `t`. -/
def Reached (t : Table) : State → Prop := Reachable (· = start t) (OfFun step)

theorem slot_start (t : Table) : (start t).procs.slot q =
    if q = [] then .live ⟨.prompt,openConsoles nofile t,none⟩ else .unused := by
  simp [start,Function.update_apply]

theorem start_slot {t : Table} (h : (start t).procs.slot q = .live P) :
    q = [] ∧ P = ⟨.prompt,openConsoles nofile t,none⟩ := by
  rw [slot_start] at h
  split_ifs at h with hq
  cases h
  exact ⟨hq,rfl⟩

theorem start_inv (t : Table) : Inv (start t) where
  tree := {
    named := by
      intro p hp
      rw [start,Finset.mem_singleton]
      by_contra hne
      exact hp (by rw [slot_start,if_neg hne])
    child := by
      intro p q hq
      cases hq
    parent := by
      intro p q hq
      cases hq
    enough := by
      intro p P hp
      obtain ⟨-,rfl⟩ := start_slot hp
      exact zero_le
    waited := by
      intro p P x _ _ hx
      cases hx }
  below := by
    intro p hp x hx
    rw [start,Finset.mem_singleton] at hp
    rw [hp] at hx
    cases hx

theorem start_joined (t : Table) : discipline.Joined (start t).procs where
  few p P hp := by
    have hempty : (start t).procs.waiting discipline p = ∅ :=
      Set.eq_empty_of_forall_notMem fun x hx => by cases hx.2
    rw [hempty,Set.encard_empty]
    exact zero_le
  kept p x _ hx := by
    rw [slot_start,if_neg (List.cons_ne_nil x p)] at hx
    exact absurd rfl hx

theorem Reached.inv {t : Table} (h : Reached t s) : Inv s :=
  Reachable.invariant h (by rintro s rfl; exact start_inv t) (fun _ _ _ => Inv.step)

section Example

/-- The console at the first three descriptors, as `init` leaves them. -/
def consoles : Table := fun fd => if fd < 3 then some .console else none

/-- `main` reads an empty line and its child runs and exits. -/
def emptyLine : List Action :=
  [.getcmd (.cmd 8 (fun _ => 0) 0),.shell [] true,.shell [⟨1,.line⟩] true,.shell [⟨1,.line⟩] true,
    .shell [⟨1,.line⟩] true,.wait [] [⟨1,.line⟩]]

theorem guarded_foldlM {start : State → Prop} (acts : List Action) (ha : ∀ a ∈ acts, ∀ q, a ≠ .shell q false)
    (h : Reachable start (Guarded RightForks (OfFun step)) s) (hs : acts.foldlM step s = some s') :
    Reachable start (Guarded RightForks (OfFun step)) s' := by
  induction acts generalizing s with
  | nil =>
    cases hs
    exact h
  | cons a acts ih =>
    rw [List.foldlM_cons,Option.bind_eq_bind,Option.bind_eq_some_iff] at hs
    obtain ⟨u,hu,hs⟩ := hs
    have hright : RightForks s a := fun q P p0 p1 right hq => absurd hq (ha a (List.mem_cons_self) q)
    exact ih (fun b hb => ha b (List.mem_cons_of_mem a hb)) (.next h ⟨hright,hu⟩) hs

end Example

/-! ### What holds of each process of a run -/

/-- The process `q` and the child that it forks satisfy `I` afterwards. -/
def Outcome.Keeps (I : Name → Proc → Prop) (q : Name) : Outcome → Prop
  | .go P => I q P
  | .fork role P C => I q P ∧ ∀ n, I (⟨n,role⟩ :: q) C
  | .exits => True

/-- Every step of a process keeps `I`. -/
structure Kept (I : Name → Proc → Prop) : Prop where
  getcmd : ∀ line P, P.point = .prompt → I [] P → I [] { P with point := ShRun.getcmd line }
  next : ∀ q ok P out, I q P → next q ok P = some out → out.Keeps I q
  program : ∀ q P argv op, P.point = .program argv → I q P → (program P op).Keeps I q
  wait : ∀ q P point, I q P → afterWait P.point = some point → I q { P with point := point }

variable {I : Name → Proc → Prop}

theorem Kept.does (hk : Kept I) (hI : I q P) (hd : Does s a q P out) : out.Keeps I q := by
  cases hd with
  | getcmd line P hP => exact hk.getcmd line P hP hI
  | shell q ok P out hout => exact hk.next q ok P out hI hout
  | program q op P argv hP => exact hk.program q P argv op hP hI
  | noChild q P point hpoint hno => exact hk.wait q P point hI hpoint

theorem Kept.step (hk : Kept I) (h : s.procs.Each I) (hs : ShRun.step s a = some s') : s'.procs.Each I := by
  cases step_cases hs with
  | does a q P out hq hd =>
    have hout := hk.does (h q P hq) hd
    cases out with
    | go P' => exact h.put hout
    | fork role P' C => exact h.fork hout.1 (hout.2 _)
    | exits => exact h.exit
  | wait p q P point hp hpoint hq hz => exact h.wait (hk.wait p P point (h p P hp) hpoint)
  | init q hq hz => exact h.free

theorem Kept.reached (hk : Kept I) {t : Table} (h0 : I [] ⟨.prompt,openConsoles nofile t,none⟩) (h : Reached t s) :
    s.procs.Each I := by
  refine Reachable.invariant h (I := fun s => s.procs.Each I) ?_ fun _ _ _ hI hs => hk.step hI hs
  rintro s rfl q P hq
  obtain ⟨rfl,rfl⟩ := start_slot hq
  exact h0

/-! ### No process of the shell waits for ever -/

/-- The points of `main` alone. -/
def Point.OfMain : Point → Prop
  | .prompt | .mainFork _ | .mainWait => True
  | _ => False

theorem keeps_fork1 {ok : Bool} {role : Role} {parent child : Point}
    (hp : I q { P with point := parent }) (hc : ∀ n, I (⟨n,role⟩ :: q) { P with point := child })
    (hf : I q { P with point := .printf .fork }) : (fork1 ok role P parent child).Keeps I q := by
  cases ok with
  | true => exact ⟨hp,hc⟩
  | false => exact hf

theorem runcmd_ofMain {ok : Bool} {cmd : Cmd} :
    (runcmd q ok P cmd).Keeps (fun q P => P.point.OfMain → q = []) q := by
  cases cmd with
  | exec argv =>
    cases argv with
    | nil => exact fun h => h.elim
    | cons argv0 argv => cases ok <;> exact fun h => h.elim
  | redir cmd file efile mode fd => exact fun h => h.elim
  | list left right => exact keeps_fork1 (fun h => h.elim) (fun _ h => h.elim) (fun h => h.elim)
  | pipe left right =>
    unfold runcmd
    dsimp only
    split <;> exact fun h => h.elim
  | back cmd => exact keeps_fork1 (fun h => h.elim) (fun _ h => h.elim) (fun h => h.elim)

theorem ofMain_kept : Kept fun q P => P.point.OfMain → q = [] where
  getcmd _ _ _ _ _ := rfl
  next q ok P out hI h := by
    obtain ⟨pt,t,l⟩ := P
    unfold ShRun.next at h
    dsimp only at h
    split at h
    all_goals cases h
    · exact keeps_fork1 (fun _ => hI trivial) (fun _ h => h.elim) (fun h => h.elim)
    · exact keeps_fork1 (fun _ => hI trivial) (fun _ h => h.elim) (fun h => h.elim)
    · exact fun h => h.elim
    · exact fun h => h.elim
    · exact runcmd_ofMain
    · unfold redirOpen
      split <;> exact fun h => h.elim
    · exact keeps_fork1 (fun h => h.elim) (fun _ h => h.elim) (fun h => h.elim)
    · exact keeps_fork1 (fun h => h.elim) (fun _ h => h.elim) (fun h => h.elim)
    all_goals first | exact fun h => h.elim | trivial
  program q P argv op hP hI := by
    obtain ⟨pt,t,l⟩ := P
    cases hP
    cases op with
    | fork => exact ⟨fun h => h.elim,fun _ h => h.elim⟩
    | exit => trivial
    | exec argv => exact fun h => h.elim
    | close fd => exact fun h => h.elim
    | dup fd => exact fun h => h.elim
    | opens fd n => exact fun h => h.elim
  wait q P point hI h := by
    obtain ⟨pt,t,l⟩ := P
    dsimp only at h
    cases pt <;> cases h <;> first | exact fun _ => hI trivial | exact fun h => h.elim

/-- The process `q` can take a step now, or it runs a program. -/
def CanStep (s : State) (q : Name) : Prop :=
  (∃ s', ShRun.step s (.shell q true) = some s') ∨ (∃ r s', ShRun.step s (.wait q r) = some s') ∨
    ∃ P argv, s.procs.slot q = .live P ∧ P.point = .program argv

theorem proc?_of_live (hq : s.procs.slot q = .live P) : s.proc? q = some P := by
  unfold State.proc?
  rw [hq]

theorem canStep_of_next {P : Proc} (hq : s.procs.slot q = .live P) (h : ShRun.next q true P ≠ none) : CanStep s q := by
  obtain ⟨out,hout⟩ := Option.ne_none_iff_exists'.mp h
  refine .inl ⟨s.does q out,?_⟩
  simp [ShRun.step,proc?_of_live hq,hout]

theorem canStep_of_zombie {P : Proc} {r : Name} {point : Point} (hq : s.procs.slot q = .live P)
    (hw : afterWait P.point = some point) (hr : s.procs.parent r = some q) (hz : s.procs.slot r = .zombie) :
    CanStep s q := by
  refine .inr (.inl ⟨r,{ s with procs := s.procs.wait q r { P with point := point } },?_⟩)
  simp only [ShRun.step,proc?_of_live hq,Option.bind_eq_bind,Option.bind_some,hw]
  rw [if_pos ⟨hr,by rw [hz]; rfl⟩]

/-- A process that owes nothing and is not `main` is not held up. -/
theorem canStep_of_owes (hq : s.procs.slot q = .live P) (ho : P.point.owes = 0) (hmain : ¬ P.point.OfMain) :
    CanStep s q := by
  obtain ⟨pt,t,l⟩ := P
  cases pt
  case program argv => exact .inr (.inr ⟨_,argv,hq,rfl⟩)
  case parse parsed => exact canStep_of_next hq (by cases parsed <;> simp [ShRun.next])
  case prompt | mainFork | mainWait => exact absurd trivial hmain
  case listWait | rightFork | parentClose0 | parentClose1 | pipeWait1 | pipeWait2 => cases ho
  all_goals exact canStep_of_next hq (by simp [ShRun.next])

/-- A process that waits can go on when there is a zombie. -/
theorem canStep_of_child {r : Name} (hq : s.procs.slot q = .live P) (ho : 0 < P.point.owes)
    (hr : s.procs.parent r = some q) (hz : s.procs.slot r = .zombie) : CanStep s q := by
  obtain ⟨pt,t,l⟩ := P
  cases pt
  case mainWait | listWait | pipeWait1 | pipeWait2 => exact canStep_of_zombie hq rfl hr hz
  case rightFork | parentClose0 | parentClose1 => exact canStep_of_next hq (by simp [ShRun.next])
  all_goals cases ho

/-- Below each process of the shell that has calls of `wait` to come, or at it, some process in the
foreground can take a step or runs a program. -/
theorem some_canStep {t : Table} (h : Reached t s) (hq : s.procs.slot q = .live P) (ho : 0 < P.point.owes) :
    ∃ l : Name, (∀ f ∈ l, f.Waited) ∧ CanStep s (l ++ q) := by
  obtain ⟨l,x,b,hw,hb,hob,hpar,hz | ⟨c,hc,hoc⟩⟩ := h.inv.tree.some_ready hq ho
  · exact ⟨l,fun f hf => hw f (List.mem_cons_of_mem x hf),canStep_of_child hb hob hpar hz⟩
  · refine ⟨x :: l,hw,canStep_of_owes hc hoc fun hmain => ?_⟩
    have hnil := ofMain_kept.reached (fun _ => rfl) h _ c hc hmain
    cases hnil

theorem some_canStep_empty : ∃ s, (emptyLine.take 4).foldlM step (start consoles) = some s ∧
    ∃ l : Name, (∀ f ∈ l, f.Waited) ∧ CanStep s (l ++ []) := by
  obtain ⟨s,P,hs,hq,ho⟩ : ∃ s P, (emptyLine.take 4).foldlM step (start consoles) = some s ∧
    s.procs.slot [] = .live P ∧ 0 < P.point.owes := ⟨_,_,rfl,rfl,by decide⟩
  exact ⟨s,hs,some_canStep (Reachable.foldlM _ (.base rfl) hs) hq ho⟩

end X86OsDev.Xv6.ShRun
