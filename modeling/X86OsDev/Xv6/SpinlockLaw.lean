import X86OsDev.Xv6.Spinlock
import Mathlib.Tactic.SplitIfs

/-! # Interrupts come back as they were

The count of a processor is that of the thread that runs there. A thread that is
away from the processors has the flag of its first `pushcli` in its `sched`, and
otherwise it is in `intena` of its processor.
-/
set_option linter.unusedSectionVars false

namespace X86OsDev.Xv6.Spinlock
open Transition

/-- An interrupt returns to the flag that an unfinished `pushcli` has read, and below a call in
progress is code that runs. -/
def StackOk : List Frame → Prop
  | [] => True
  | .push _ :: rest => Ready rest ∧ StackOk rest
  | .sched _ :: rest => Ready rest ∧ StackOk rest
  | .trap eflags :: rest => (∀ e rest', rest = .push e :: rest' → eflags = e) ∧ StackOk rest

/-- The `intena` that belongs to the thread with this stack. -/
def savedIntena (intena : Bool) : List Frame → Bool
  | .sched x :: _ => x
  | _ => intena

theorem not_ready_push {e : Bool} {rest : List Frame} : ¬ Ready (.push e :: rest) := id

theorem Ready.savedIntena {stack : List Frame} (h : Ready stack) (intena : Bool) : savedIntena intena stack = intena := by
  cases stack with
  | nil => rfl
  | cons f rest =>
    cases f with
    | push e => rfl
    | sched x => exact h.elim
    | trap e => rfl

theorem StackOk.tail {f : Frame} {rest : List Frame} (h : StackOk (f :: rest)) : StackOk rest := by
  cases f <;> exact h.2

variable {C P L : Type*} [DecidableEq C] [DecidableEq P] [DecidableEq L] {ptable : L} {s s' : State C P L}

/-- The law of the counts, of the flag and of the stacks. -/
structure Inv (s : State C P L) : Prop where
  ncli : ∀ c, (s.cpu c).ncli = (s.current c).depth
  disabled : ∀ c, 0 < (s.cpu c).ncli → (s.cpu c).iflag = false
  state : ∀ c p, (s.cpu c).proc = some p → s.state p = .running
  alone : ∀ c c' p, (s.cpu c).proc = some p → (s.cpu c').proc = some p → c = c'
  away : ∀ p, (∀ c, (s.cpu c).proc ≠ some p) →
    (s.thread (.process p)).depth = 1 ∧ ∀ e rest, (s.thread (.process p)).stack ≠ .push e :: rest
  scheduler : ∀ c p, (s.cpu c).proc = some p →
    (s.thread (.scheduler c)).depth = 1 ∧ (s.thread (.scheduler c)).stack = []
  nesting : ∀ t, StackOk (s.thread t).stack
  pushing : ∀ c e rest, (s.current c).stack = .push e :: rest → (s.cpu c).iflag = e

section Act
variable {c : C} {cpu : Cpu P} {th : Thread L}

theorem current_of_proc {p : P} (h : (s.cpu c).proc = some p) : s.current c = s.thread (.process p) := by
  unfold State.current State.running
  rw [h]

theorem current_of_none (h : (s.cpu c).proc = none) : s.current c = s.thread (.scheduler c) := by
  unfold State.current State.running
  rw [h]

theorem running_eq_process {p : P} : s.running c = .process p ↔ (s.cpu c).proc = some p := by
  unfold State.running
  cases h : (s.cpu c).proc with
  | none => simp
  | some q => simp

theorem running_eq_scheduler {c' : C} : s.running c = .scheduler c' ↔ (s.cpu c).proc = none ∧ c = c' := by
  unfold State.running
  cases h : (s.cpu c).proc with
  | none => simp
  | some q => simp

/-- Different processors run different threads. -/
theorem Inv.running_inj (h : Inv s) {c c' : C} (heq : s.running c = s.running c') : c = c' := by
  cases hp : (s.cpu c').proc with
  | none =>
    have hc' : s.running c' = .scheduler c' := running_eq_scheduler.mpr ⟨hp,rfl⟩
    exact (running_eq_scheduler.mp (heq.trans hc')).2
  | some p =>
    have hc' : s.running c' = .process p := running_eq_process.mpr hp
    exact h.alone c c' p (running_eq_process.mp (heq.trans hc')) hp

@[simp] theorem act_cpu_self : (s.act c cpu th).cpu c = cpu := Function.update_self _ _ _

theorem act_cpu_of_ne {c' : C} (h : c' ≠ c) : (s.act c cpu th).cpu c' = s.cpu c' := Function.update_of_ne h _ _

theorem act_proc (hproc : cpu.proc = (s.cpu c).proc) (c' : C) : ((s.act c cpu th).cpu c').proc = (s.cpu c').proc := by
  by_cases h : c' = c
  · rw [h, act_cpu_self, hproc]
  · rw [act_cpu_of_ne h]

theorem act_running (hproc : cpu.proc = (s.cpu c).proc) (c' : C) : (s.act c cpu th).running c' = s.running c' := by
  unfold State.running
  rw [act_proc hproc]

theorem act_thread_of_ne {t : Tid C P} (h : t ≠ s.running c) : (s.act c cpu th).thread t = s.thread t :=
  Function.update_of_ne h _ _

theorem act_current_self (hproc : cpu.proc = (s.cpu c).proc) : (s.act c cpu th).current c = th := by
  rw [State.current, act_running hproc]
  exact Function.update_self _ _ _

theorem Inv.act_current_of_ne (h : Inv s) (hproc : cpu.proc = (s.cpu c).proc) {c' : C} (hc : c' ≠ c) :
    (s.act c cpu th).current c' = s.current c' := by
  rw [State.current, act_running hproc, act_thread_of_ne fun heq => hc (h.running_inj heq)]
  rfl

/-- A step of a thread that stays where it is keeps the law if it keeps it for its processor. -/
theorem Inv.act (h : Inv s) (hproc : cpu.proc = (s.cpu c).proc) (hncli : cpu.ncli = th.depth)
    (hdisabled : 0 < cpu.ncli → cpu.iflag = false) (hstack : StackOk th.stack)
    (hpushing : ∀ e rest, th.stack = .push e :: rest → cpu.iflag = e) : Inv (s.act c cpu th) where
  ncli c' := by
    by_cases hc : c' = c
    · rw [hc, act_cpu_self, act_current_self hproc, hncli]
    · rw [act_cpu_of_ne hc, h.act_current_of_ne hproc hc, h.ncli]
  disabled c' := by
    by_cases hc : c' = c
    · rw [hc, act_cpu_self]
      exact hdisabled
    · rw [act_cpu_of_ne hc]
      exact h.disabled c'
  state c' p hp := by
    rw [act_proc hproc] at hp
    exact h.state c' p hp
  alone c₁ c₂ p h₁ h₂ := by
    rw [act_proc hproc] at h₁ h₂
    exact h.alone c₁ c₂ p h₁ h₂
  away p hp := by
    simp only [act_proc hproc] at hp
    have hne : (.process p : Tid C P) ≠ s.running c := fun heq => hp c (running_eq_process.mp heq.symm)
    rw [act_thread_of_ne hne]
    exact h.away p hp
  scheduler c' p hp := by
    rw [act_proc hproc] at hp
    have hne : (.scheduler c' : Tid C P) ≠ s.running c := fun heq => by
      obtain ⟨hnone,rfl⟩ := running_eq_scheduler.mp heq.symm
      rw [hnone] at hp
      cases hp
    rw [act_thread_of_ne hne]
    exact h.scheduler c' p hp
  nesting t := by
    by_cases ht : t = s.running c
    · have hth : (s.act c cpu th).thread t = th := by
        rw [ht]
        exact Function.update_self _ _ _
      rw [hth]
      exact hstack
    · rw [act_thread_of_ne ht]
      exact h.nesting t
  pushing c' e rest hs := by
    by_cases hc : c' = c
    · rw [hc, act_current_self hproc] at hs
      rw [hc, act_cpu_self]
      exact hpushing e rest hs
    · rw [h.act_current_of_ne hproc hc] at hs
      rw [act_cpu_of_ne hc]
      exact h.pushing c' e rest hs

/-- The law does not look at the locks. -/
theorem Inv.setLock (h : Inv s) (lock : L → Option C) : Inv { s with lock := lock } :=
  ⟨h.ncli,h.disabled,h.state,h.alone,h.away,h.scheduler,h.nesting,h.pushing⟩

end Act

section Calls
variable {c : C} {cpu : Cpu P}

theorem popcli_spec (hcall : popcli (s.cpu c) = .ok cpu) :
    cpu.proc = (s.cpu c).proc ∧ cpu.ncli = (s.cpu c).ncli - 1 ∧ cpu.intena = (s.cpu c).intena ∧
    cpu.iflag = decide ((s.cpu c).ncli = 1 ∧ (s.cpu c).intena = true) := by
  unfold popcli at hcall
  split_ifs at hcall with hflag hneg hzero
  · cases hcall
    have hone : (s.cpu c).ncli = 1 := by omega
    exact ⟨rfl,rfl,rfl,by simp [hone, hzero.2]⟩
  · cases hcall
    have hnot : ¬ ((s.cpu c).ncli = 1 ∧ (s.cpu c).intena = true) := fun h => hzero ⟨by omega,h.2⟩
    exact ⟨rfl,rfl,rfl,by simpa [hnot] using hflag⟩

/-- `popcli` does not panic where there is a `pushcli` to undo. -/
theorem Inv.popcli_ok (h : Inv s) (hpop : s.MayPop c) : ∃ cpu, popcli (s.cpu c) = .ok cpu := by
  have hncli := h.ncli c
  have hpos : 0 < (s.cpu c).ncli := by
    have := hpop.2
    omega
  unfold popcli
  rw [h.disabled c hpos, if_neg Bool.false_ne_true, if_neg (by omega)]
  exact ⟨_,rfl⟩

end Calls

section Steps

theorem Boot.inv (h : Boot ptable s) : Inv s where
  ncli c := by
    obtain ⟨hncli,-,hproc⟩ := h.cpu c
    rw [hncli, current_of_none hproc, h.scheduler]
    rfl
  disabled c _ := (h.cpu c).2.1
  state c p hp := by
    rw [(h.cpu c).2.2] at hp
    cases hp
  alone c _ p hp := by
    rw [(h.cpu c).2.2] at hp
    cases hp
  away p _ := by
    rw [(h.process p).1]
    exact ⟨rfl,by simp [newThread]⟩
  scheduler c p hp := by
    rw [(h.cpu c).2.2] at hp
    cases hp
  nesting t := by
    cases t with
    | scheduler c =>
      rw [h.scheduler]
      trivial
    | process p =>
      rw [(h.process p).1]
      exact ⟨by simp,trivial⟩
  pushing c e rest hs := by
    rw [current_of_none (h.cpu c).2.2, h.scheduler] at hs
    cases hs

/-- `sched` puts its process away, and the scheduler goes on with the same count. -/
theorem Inv.sched (h : Inv s) {c : C} {p : P} {st : ProcState} (hproc : (s.cpu c).proc = some p)
    (hready : Ready (s.current c).stack) (hncli : (s.cpu c).ncli = 1) (hflag : (s.cpu c).iflag = false)
    (hcpu : ∀ c', s'.cpu c' = if c' = c then { s.cpu c with proc := none } else s.cpu c')
    (hthread : ∀ t, s'.thread t = if t = .process p then
      { s.current c with stack := .sched (s.cpu c).intena :: (s.current c).stack } else s.thread t)
    (hstate : s'.state = Function.update s.state p st) : Inv s' := by
  have hcur := current_of_proc hproc
  have hdepth := h.ncli c
  have hsched := h.scheduler c p hproc
  have hself : s'.current c = s.thread (.scheduler c) := by
    rw [current_of_none (by rw [hcpu, if_pos rfl]), hthread, if_neg (by simp)]
  have hother : ∀ c', c' ≠ c → s'.current c' = s.current c' := fun c' hc => by
    have hrun : s'.running c' = s.running c' := by
      unfold State.running
      rw [hcpu, if_neg hc]
    have hne : s.running c' ≠ .process p := fun heq => hc (h.alone c' c p (running_eq_process.mp heq) hproc)
    rw [State.current, hrun, hthread, if_neg hne]
    rfl
  have hprocs : ∀ c' q, (s'.cpu c').proc = some q → c' ≠ c ∧ q ≠ p ∧ (s.cpu c').proc = some q := fun c' q hq => by
    rw [hcpu] at hq
    split_ifs at hq with hc
    refine ⟨hc,?_,hq⟩
    rintro rfl
    exact hc (h.alone c' c q hq hproc)
  refine ⟨fun c' => ?_,fun c' => ?_,fun c' q hq => ?_,fun c₁ c₂ q h₁ h₂ => ?_,fun q hq => ?_,fun c' q hq => ?_,
    fun t => ?_,fun c' e rest hs => ?_⟩
  · by_cases hc : c' = c
    · rw [hc, hself, hcpu, if_pos rfl, hsched.1]
      exact hncli
    · rw [hother c' hc, hcpu, if_neg hc, h.ncli]
  · rw [hcpu]
    split_ifs
    · exact fun _ => hflag
    · exact h.disabled c'
  · obtain ⟨-,hqp,hq⟩ := hprocs c' q hq
    rw [hstate, Function.update_of_ne hqp, h.state c' q hq]
  · exact h.alone c₁ c₂ q (hprocs c₁ q h₁).2.2 (hprocs c₂ q h₂).2.2
  · by_cases hqp : q = p
    · subst hqp
      rw [hthread, if_pos rfl]
      refine ⟨?_,by simp⟩
      dsimp only
      omega
    · rw [hthread, if_neg (by simpa using hqp)]
      refine h.away q fun c' hq' => ?_
      by_cases hc : c' = c
      · rw [hc, hproc] at hq'
        exact hqp (Option.some.inj hq').symm
      · refine hq c' ?_
        rw [hcpu, if_neg hc, hq']
  · rw [hthread, if_neg (by simp)]
    exact h.scheduler c' q (hprocs c' q hq).2.2
  · rw [hthread]
    split_ifs
    · exact ⟨hready,hcur ▸ h.nesting _⟩
    · exact h.nesting t
  · by_cases hc : c' = c
    · rw [hc, hself, hsched.2] at hs
      cases hs
    · rw [hother c' hc] at hs
      rw [hcpu, if_neg hc]
      exact h.pushing c' e rest hs

/-- `swtch` runs a process that was away, on a count that fits its own. -/
theorem Inv.swtch (h : Inv s) {c : C} {p : P} (hproc : (s.cpu c).proc = none) (hstack : (s.current c).stack = [])
    (hdepth : (s.current c).depth = 1) (hp : s.state p = .runnable)
    (hcpu : ∀ c', s'.cpu c' = if c' = c then { s.cpu c with proc := some p } else s.cpu c')
    (hthread : s'.thread = s.thread) (hstate : s'.state = Function.update s.state p .running) : Inv s' := by
  have hcur := current_of_none hproc
  have hncli := h.ncli c
  have hfree : ∀ c', (s.cpu c').proc ≠ some p := fun c' hq => by
    have := h.state c' p hq
    rw [hp] at this
    cases this
  have haway := h.away p hfree
  have hself : s'.current c = s.thread (.process p) := by
    rw [current_of_proc (by rw [hcpu, if_pos rfl]), hthread]
  have hother : ∀ c', c' ≠ c → s'.current c' = s.current c' := fun c' hc => by
    unfold State.current State.running
    rw [hcpu, if_neg hc, hthread]
  have hprocs : ∀ c' q, (s'.cpu c').proc = some q → c' = c ∧ q = p ∨ c' ≠ c ∧ q ≠ p ∧ (s.cpu c').proc = some q := by
    intro c' q hq
    rw [hcpu] at hq
    split_ifs at hq with hc
    · exact .inl ⟨hc,(Option.some.inj hq).symm⟩
    · refine .inr ⟨hc,?_,hq⟩
      rintro rfl
      exact hfree c' hq
  refine ⟨fun c' => ?_,fun c' => ?_,fun c' q hq => ?_,fun c₁ c₂ q h₁ h₂ => ?_,fun q hq => ?_,fun c' q hq => ?_,
    fun t => ?_,fun c' e rest hs => ?_⟩
  · by_cases hc : c' = c
    · rw [hc, hself, hcpu, if_pos rfl, haway.1]
      dsimp only
      omega
    · rw [hother c' hc, hcpu, if_neg hc, h.ncli]
  · rw [hcpu]
    split_ifs
    · exact h.disabled c
    · exact h.disabled c'
  · rcases hprocs c' q hq with ⟨-,rfl⟩ | ⟨-,hqp,hq⟩
    · rw [hstate, Function.update_self]
    · rw [hstate, Function.update_of_ne hqp, h.state c' q hq]
  · rcases hprocs c₁ q h₁ with ⟨hc₁,hq₁⟩ | ⟨-,hq₁,h₁⟩
    · rcases hprocs c₂ q h₂ with ⟨hc₂,-⟩ | ⟨-,hq₂,-⟩
      · rw [hc₁, hc₂]
      · exact absurd hq₁ hq₂
    · rcases hprocs c₂ q h₂ with ⟨-,hq₂⟩ | ⟨-,-,h₂⟩
      · exact absurd hq₂ hq₁
      · exact h.alone c₁ c₂ q h₁ h₂
  · rw [hthread]
    refine h.away q fun c' hq' => hq c' ?_
    have hc : c' ≠ c := by
      rintro rfl
      rw [hproc] at hq'
      cases hq'
    rw [hcpu, if_neg hc, hq']
  · rw [hthread]
    rcases hprocs c' q hq with ⟨rfl,-⟩ | ⟨-,-,hq⟩
    · rw [← hcur]
      exact ⟨hdepth,hstack⟩
    · exact h.scheduler c' q hq
  · rw [hthread]
    exact h.nesting t
  · by_cases hc : c' = c
    · rw [hc, hself] at hs
      exact absurd hs (haway.2 e rest)
    · rw [hother c' hc] at hs
      rw [hcpu, if_neg hc]
      exact h.pushing c' e rest hs

/-- A process that is woken was not running. -/
theorem Inv.wakeup (h : Inv s) {p : P} (hp : s.state p = .embryo ∨ s.state p = .sleeping) :
    Inv { s with state := Function.update s.state p .runnable } := by
  refine ⟨h.ncli,h.disabled,fun c q hq => ?_,h.alone,h.away,h.scheduler,h.nesting,h.pushing⟩
  have hrunning := h.state c q hq
  have hqp : q ≠ p := by
    rintro rfl
    rw [hrunning] at hp
    simp at hp
  dsimp only
  rw [Function.update_of_ne hqp, hrunning]

/-- Each step keeps the law. -/
theorem Inv.step (h : Inv s) {a : Action C P L} (hs : Step ptable s a s') : Inv s' := by
  cases hs with
  | @readeflags c hready =>
    refine h.act rfl (h.ncli c) (h.disabled c) ⟨hready,h.nesting _⟩ fun e rest heq => ?_
    cases heq
    rfl
  | @cli c e rest hstack =>
    have hok : StackOk (.push e :: rest) := hstack ▸ h.nesting (s.running c)
    have hncli := h.ncli c
    refine h.act rfl ?_ (fun _ => rfl) hok.2 fun e' rest' heq => ?_
    · dsimp only [pushcli]
      omega
    · subst heq
      exact (not_ready_push hok.1).elim
  | @popcli c cpu hpop hcall =>
    obtain ⟨hproc,hncli,-,hflag⟩ := popcli_spec hcall
    have hdepth := h.ncli c
    have hpos := hpop.2
    refine h.act hproc ?_ (fun hlt => ?_) (h.nesting _) fun e rest heq => ?_
    · dsimp only
      omega
    · rw [hflag]
      exact decide_eq_false fun hone => by omega
    · have hready := hpop.1
      dsimp only at heq
      rw [heq] at hready
      exact (not_ready_push hready).elim
  | @take c l hpush hfree =>
    refine Inv.setLock (h.act rfl ?_ ?_ ?_ ?_) _
    exacts [h.ncli c,h.disabled c,h.nesting _,h.pushing c]
  | @giveUp c l hready hheld hlock =>
    refine Inv.setLock (h.act rfl ?_ ?_ ?_ ?_) _
    exacts [h.ncli c,h.disabled c,h.nesting _,h.pushing c]
  | @sched c p st hproc hready hheld hlock hncli hst hflag =>
    refine h.sched hproc hready hncli hflag (fun c' => ?_) (fun t => ?_) rfl
    · exact Function.update_apply _ _ _ _
    · have hrun : s.running c = .process p := running_eq_process.mpr hproc
      rw [← hrun]
      exact Function.update_apply _ _ _ _
  | @swtch c p hproc hstack hdepth hheld hlock hp =>
    exact h.swtch hproc hstack hdepth hp (fun c' => Function.update_apply _ _ _ _) rfl rfl
  | @restore c x rest hstack =>
    have hok : StackOk (.sched x :: rest) := hstack ▸ h.nesting (s.running c)
    refine h.act rfl (h.ncli c) (h.disabled c) hok.2 fun e rest' heq => ?_
    subst heq
    exact (not_ready_push hok.1).elim
  | @interrupt c hflag =>
    refine h.act rfl (h.ncli c) (fun _ => rfl) ⟨fun e rest heq => ?_,h.nesting _⟩ fun e rest heq => ?_
    · exact hflag ▸ h.pushing c e rest heq
    · cases heq
  | @iret c e rest hstack hdepth =>
    have hok : StackOk (.trap e :: rest) := hstack ▸ h.nesting (s.running c)
    have hncli := h.ncli c
    refine h.act rfl (h.ncli c) (fun hlt => ?_) hok.2 hok.1
    dsimp only at hlt
    omega
  | @sti c hproc hstack hdepth =>
    have hncli := h.ncli c
    refine h.act rfl (h.ncli c) (fun hlt => ?_) (h.nesting _) fun e rest heq => ?_
    · dsimp only at hlt
      omega
    · rw [hstack] at heq
      cases heq
  | @wakeup c p hheld hlock hp => exact h.wakeup hp

theorem Reached.inv (h : Reached ptable s) : Inv s := h.invariant (fun _ => Boot.inv) fun _ _ _ hi => hi.step

end Steps

/-- The flag from before the first `pushcli` of the process that is not undone: in `intena` of its
processor, or in its `sched`. -/
structure Saved (s : State C P L) (p : P) (b : Bool) : Prop where
  runs : ∀ c, (s.cpu c).proc = some p → savedIntena (s.cpu c).intena (s.thread (.process p)).stack = b
  away : (∀ c, (s.cpu c).proc ≠ some p) → ∃ rest, (s.thread (.process p)).stack = .sched b :: rest

/-- A stretch of a run in which the process has a `pushcli` to undo after each step. -/
def Inside (ptable : L) (p : P) : State C P L → State C P L → Prop :=
  Relation.ReflTransGen fun s t => (∃ a, Step ptable s a t) ∧ 0 < (t.thread (.process p)).depth

section Segments
variable {p : P} {b : Bool} {c : C} {cpu : Cpu P} {th : Thread L}

/-- Steps of other threads. -/
theorem Saved.congr (h : Saved s p b) (hthread : s'.thread (.process p) = s.thread (.process p))
    (hproc : ∀ c, (s'.cpu c).proc = some p ↔ (s.cpu c).proc = some p)
    (hintena : ∀ c, (s.cpu c).proc = some p → (s'.cpu c).intena = (s.cpu c).intena) : Saved s' p b where
  runs c hc := by
    have hc := (hproc c).mp hc
    rw [hthread, hintena c hc]
    exact h.runs c hc
  away hc := by
    rw [hthread]
    exact h.away fun c hp => hc c ((hproc c).mpr hp)

/-- A step of one thread on its processor. -/
theorem Saved.act (hinv : Inv s) (h : Saved s p b) (hproc : cpu.proc = (s.cpu c).proc)
    (hsame : (s.cpu c).proc = some p →
      savedIntena cpu.intena th.stack = savedIntena (s.cpu c).intena (s.current c).stack) :
    Saved (s.act c cpu th) p b := by
  by_cases hp : (s.cpu c).proc = some p
  · have hrun : s.running c = .process p := running_eq_process.mpr hp
    refine ⟨fun c' hc' => ?_,fun haway => ?_⟩
    · rw [act_proc hproc] at hc'
      obtain rfl := hinv.alone c' c p hc' hp
      have hth : (s.act c' cpu th).thread (.process p) = th := by
        rw [← hrun]
        exact Function.update_self _ _ _
      rw [act_cpu_self, hth, hsame hp, current_of_proc hp]
      exact h.runs c' hp
    · have hcpu := haway c
      rw [act_proc hproc] at hcpu
      exact absurd hp hcpu
  · have hne : (.process p : Tid C P) ≠ s.running c := fun heq => hp (running_eq_process.mp heq.symm)
    refine h.congr (act_thread_of_ne hne) (fun c' => by rw [act_proc hproc]) fun c' hc' => ?_
    have hc : c' ≠ c := by
      rintro rfl
      exact hp hc'
    rw [act_cpu_of_ne hc]

theorem Saved.setLock (h : Saved s p b) (lock : L → Option C) : Saved { s with lock := lock } p b := ⟨h.runs,h.away⟩

theorem Inv.depth_pos (hinv : Inv s) (hp : (s.cpu c).proc = some p) (hdepth : 0 < (s.thread (.process p)).depth) :
    0 < (s.cpu c).ncli := by
  rw [hinv.ncli, current_of_proc hp]
  exact Int.natCast_pos.mpr hdepth

/-- While the process has a `pushcli` to undo, no step changes the flag that is kept for it. -/
theorem Saved.step (hinv : Inv s) (h : Saved s p b) (hdepth : 0 < (s.thread (.process p)).depth) {a : Action C P L}
    (hs : Step ptable s a s') : Saved s' p b := by
  cases hs with
  | @readeflags c hready => exact h.act hinv rfl fun _ => by rw [hready.savedIntena]; rfl
  | @cli c e rest hstack =>
    have hok : StackOk (.push e :: rest) := hstack ▸ hinv.nesting (s.running c)
    refine h.act hinv rfl fun hp => ?_
    have hpos := hinv.depth_pos hp hdepth
    have hkept : (pushcli e (s.cpu c)).intena = (s.cpu c).intena := if_neg (by omega)
    rw [hstack, hkept, hok.1.savedIntena]
    rfl
  | @popcli c cpu hpop hcall =>
    obtain ⟨hproc,-,hintena,-⟩ := popcli_spec hcall
    exact h.act hinv hproc fun _ => by rw [hintena]
  | @take c l hpush hfree =>
    refine Saved.setLock (h.act hinv rfl ?_) _
    exact fun _ => rfl
  | @giveUp c l hready hheld hlock =>
    refine Saved.setLock (h.act hinv rfl ?_) _
    exact fun _ => rfl
  | @sched c q st hproc hready hheld hlock hncli hst hflag =>
    have hrun : s.running c = .process q := running_eq_process.mpr hproc
    by_cases hq : q = p
    · subst hq
      refine ⟨fun c' hc' => ?_,fun _ => ⟨(s.current c).stack,?_⟩⟩
      · by_cases hc : c' = c
        · rw [hc] at hc'
          simp at hc'
        · have hc' : (s.cpu c').proc = some q := by simpa [act_cpu_of_ne hc] using hc'
          exact absurd (hinv.alone c' c q hc' hproc) hc
      · have hsaved := h.runs c hproc
        rw [← current_of_proc hproc, hready.savedIntena] at hsaved
        simp only [State.act, hrun, Function.update_self, hsaved]
    · refine h.congr ?_ (fun c' => ?_) fun c' hc' => ?_
      · simp only [State.act, hrun]
        exact Function.update_of_ne (by simpa using Ne.symm hq) _ _
      · by_cases hc : c' = c
        · rw [hc]
          simp [hproc, hq]
        · simp [act_cpu_of_ne hc]
      · have hc : c' ≠ c := by
          rintro rfl
          rw [hproc] at hc'
          exact hq (Option.some.inj hc')
        simp [act_cpu_of_ne hc]
  | @swtch c q hproc hstack hdepth hheld hlock hq =>
    by_cases hqp : q = p
    · subst hqp
      obtain ⟨rest,hrest⟩ := h.away fun c' hc' => by
        have := hinv.state c' q hc'
        rw [hq] at this
        cases this
      refine ⟨fun c' _ => ?_,fun haway => ?_⟩
      · dsimp only
        rw [hrest]
        rfl
      · have := haway c
        simp at this
    · refine h.congr rfl (fun c' => ?_) fun c' hc' => ?_
      · by_cases hc : c' = c
        · rw [hc]
          simp [hproc, hqp]
        · simp [hc]
      · have hc : c' ≠ c := by
          rintro rfl
          rw [hproc] at hc'
          cases hc'
        simp [hc]
  | @restore c x rest hstack =>
    have hok : StackOk (.sched x :: rest) := hstack ▸ hinv.nesting (s.running c)
    refine h.act hinv rfl fun _ => ?_
    rw [hstack, hok.1.savedIntena]
    rfl
  | @interrupt c hflag =>
    refine h.act hinv rfl fun hp => ?_
    have hoff := hinv.disabled c (hinv.depth_pos hp hdepth)
    rw [hflag] at hoff
    cases hoff
  | @iret c e rest hstack hzero =>
    refine h.act hinv rfl fun hp => ?_
    rw [current_of_proc hp] at hzero
    omega
  | @sti c hproc hstack hzero => exact h.act hinv rfl fun _ => rfl
  | @wakeup c q hheld hlock hq => exact ⟨h.runs,h.away⟩

/-- A stretch of a run, by induction over its steps. -/
theorem Saved.inside (hinv : Inv s) (h : Saved s p b) (hdepth : 0 < (s.thread (.process p)).depth)
    (hs : Inside ptable p s s') : Inv s' ∧ Saved s' p b ∧ 0 < (s'.thread (.process p)).depth := by
  induction hs with
  | refl => exact ⟨hinv,h,hdepth⟩
  | tail _ hstep ih =>
    obtain ⟨⟨a,ha⟩,hpos⟩ := hstep
    exact ⟨ih.1.step ha,ih.2.1.step ih.1 ih.2.2 ha,hpos⟩

/-- The first `pushcli` keeps the flag. -/
theorem Inv.saved_cli (hinv : Inv s) {e : Bool} {rest : List Frame} (hp : (s.cpu c).proc = some p)
    (hstack : (s.thread (.process p)).stack = .push e :: rest) (hzero : (s.cpu c).ncli = 0)
    (hs : Step ptable s (.cli c) s') :
    Saved s' p e ∧ 0 < (s'.thread (.process p)).depth ∧ (s.cpu c).iflag = e := by
  have hcur := current_of_proc hp
  have hrun : s.running c = .process p := running_eq_process.mpr hp
  have hok : StackOk (.push e :: rest) := hstack ▸ hinv.nesting (.process p)
  have hsame : (pushcli e (s.cpu c)).proc = (s.cpu c).proc := rfl
  have hflag := hinv.pushing c e rest (hcur ▸ hstack)
  cases hs with
  | @cli _ e' rest' hstack' =>
    rw [hcur, hstack] at hstack'
    cases hstack'
    have hthread : (s.act c (pushcli e (s.cpu c)) { s.current c with stack := rest, depth := (s.current c).depth + 1 }).thread
        (.process p) = { s.current c with stack := rest, depth := (s.current c).depth + 1 } := by
      rw [← hrun]
      exact Function.update_self _ _ _
    refine ⟨⟨fun c' hc' => ?_,fun haway => ?_⟩,?_,hflag⟩
    · have hproc : (s.cpu c').proc = some p := by
        rwa [act_proc hsame] at hc'
      obtain rfl := hinv.alone c' c p hproc hp
      rw [hthread, act_cpu_self, hok.1.savedIntena]
      exact if_pos hzero
    · have hcpu := haway c
      rw [act_proc hsame] at hcpu
      exact absurd hp hcpu
    · rw [hthread]
      exact Nat.succ_pos _

/-- The last `popcli` gives the flag back. -/
theorem Saved.popcli (h : Saved s p b) (hp : (s.cpu c).proc = some p) (hs : Step ptable s (.popcli c) s') (hzero : (s'.cpu c).ncli = 0) :
    (s'.cpu c).iflag = b := by
  cases hs with
  | @popcli _ cpu hpop hcall =>
    obtain ⟨-,hncli,-,hflag⟩ := popcli_spec hcall
    rw [act_cpu_self] at hzero ⊢
    have hone : (s.cpu c).ncli = 1 := by omega
    have hsaved := h.runs c hp
    rw [← current_of_proc hp, hpop.1.savedIntena] at hsaved
    rw [hflag, hone, hsaved]
    simp

end Segments

/-- Interrupts are off while a processor counts a `pushcli`, `popcli` does not panic, and when a
process undoes its first `pushcli` it has the flag from before, where and after whatever that is. -/
theorem interrupts_restored (hs : Reached ptable s) :
    (∀ c, 0 < (s.cpu c).ncli → (s.cpu c).iflag = false) ∧
    (∀ c, s.MayPop c → ∃ cpu, popcli (s.cpu c) = .ok cpu) ∧
    ∀ (p : P) (c c' : C) (e : Bool) (rest : List Frame) (s₁ s₂ s₃ : State C P L), (s.cpu c).proc = some p →
      (s.thread (.process p)).stack = .push e :: rest → (s.cpu c).ncli = 0 → Step ptable s (.cli c) s₁ →
      Inside ptable p s₁ s₂ → (s₂.cpu c').proc = some p → Step ptable s₂ (.popcli c') s₃ → (s₃.cpu c').ncli = 0 →
      (s.cpu c).iflag = e ∧ (s₃.cpu c').iflag = e := by
  have hinv := Reached.inv hs
  refine ⟨hinv.disabled,fun c => hinv.popcli_ok,?_⟩
  intro p c c' e rest s₁ s₂ s₃ hp hstack hzero hcli hinside hp' hpop hzero'
  obtain ⟨hsaved,hdepth,hflag⟩ := hinv.saved_cli hp hstack hzero hcli
  obtain ⟨-,hsaved₂,-⟩ := hsaved.inside (hinv.step hcli) hdepth hinside
  exact ⟨hflag,hsaved₂.popcli hp' hpop hzero'⟩

/-- One processor, one process and one lock. -/
def boot : State Unit Unit Unit where
  cpu _ := ⟨0,false,false,none⟩
  thread
    | .scheduler _ => ⟨[],0,[]⟩
    | .process _ => newThread ()
  state _ := .embryo
  lock _ := none

/-- The process comes out of `forkret` and calls `pushcli` and `popcli`. -/
theorem boot_interrupts_restored : ∃ s s₁ s₃ : State Unit Unit Unit, Reached () s ∧ (s.cpu ()).iflag = true ∧
    Step () s (.cli ()) s₁ ∧ (s₁.cpu ()).iflag = false ∧ Step () s₁ (.popcli ()) s₃ ∧ (s₃.cpu ()).iflag = true := by
  have h₀ : Reached () boot := .base ⟨fun _ => ⟨rfl,rfl,rfl⟩,fun _ => rfl,fun _ => ⟨rfl,rfl⟩,fun _ => rfl⟩
  have h₁ := h₀.next (.sti (c := ()) rfl rfl rfl)
  have h₂ := h₁.next (.readeflags (c := ()) trivial)
  have h₃ := h₂.next (.cli (c := ()) rfl)
  have h₄ := h₃.next (.take (c := ()) (l := ()) ⟨trivial,by decide⟩ rfl)
  have h₅ := h₄.next (.wakeup (c := ()) (p := ()) (List.mem_singleton.mpr rfl) rfl (.inl rfl))
  have h₆ := h₅.next (.swtch (c := ()) (p := ()) rfl rfl rfl rfl rfl rfl)
  have h₇ := h₆.next (.giveUp (c := ()) (l := ()) trivial (List.mem_singleton.mpr rfl) rfl)
  have h₈ := h₇.next (.popcli (c := ()) ⟨trivial,by decide⟩ rfl)
  have h₉ := h₈.next (.readeflags (c := ()) trivial)
  refine ⟨_,_,_,h₉,rfl,.cli (c := ()) rfl,rfl,.popcli (c := ()) ⟨trivial,by decide⟩ rfl,?_⟩
  exact ((interrupts_restored h₉).2.2 () () () true _ _ _ _ rfl rfl rfl (.cli (c := ()) rfl) .refl rfl
    (.popcli (c := ()) ⟨trivial,by decide⟩ rfl) rfl).2

end X86OsDev.Xv6.Spinlock
