import X86OsDev.Xv6.Sleep

/-! # No wakeup is missed

A process that is inside `sleep(chan, lk)` when a process that holds `lk` wakes
the channel is not asleep again before it has got `lk` back.
-/
set_option linter.unusedSectionVars false

namespace X86OsDev.Xv6.Sleep
open Transition

variable {P K C D L : Type} [DecidableEq P] [DecidableEq K] [DecidableEq C]
variable {code : Code P K C D L} {s t u : Sys P K C D L} {i j : P} {k : Lock K} {c : C} {a : Act P} {d : D} {l : L}

/-! ## What a step leaves alone -/

/-- What a step may change at a process that does not take it: it may be woken. -/
structure Others (s t : Sys P K C D L) (j : P) : Prop where
  ctl : t.ctl j = s.ctl j
  chan : t.chan j = s.chan j
  state : t.state j = s.state j ∨ (s.state j = .sleeping ∧ t.state j = .runnable)
  held : ∀ k, t.held k = some (.proc j) ↔ s.held k = some (.proc j)

namespace Others

theorem trans (h : Others s t j) (h' : Others t u j) : Others s u j := by
  refine ⟨h'.ctl.trans h.ctl,h'.chan.trans h.chan,?_,fun k => (h'.held k).trans (h.held k)⟩
  rcases h.state with h1 | ⟨h1,h2⟩
  · rw [← h1]
    exact h'.state
  · rcases h'.state with h3 | ⟨h3,-⟩
    · exact .inr ⟨h1,h3.trans h2⟩
    · rw [h2] at h3
      cases h3

theorem goto (hj : j ≠ i) (x : Ctl P K C L) : Others s (s.goto i x) j :=
  ⟨Function.update_of_ne hj ..,rfl,.inl (rfl),fun _ => .rfl⟩

theorem setState (hj : j ≠ i) (x : ProcState) : Others s (s.setState i x) j :=
  ⟨rfl,rfl,.inl (Function.update_of_ne hj ..),fun _ => .rfl⟩

theorem setChan (hj : j ≠ i) (x : Option C) : Others s (s.setChan i x) j :=
  ⟨rfl,Function.update_of_ne hj ..,.inl (rfl),fun _ => .rfl⟩

theorem setData (d : D) : Others s { s with data := d } j := ⟨rfl,rfl,.inl (rfl),fun _ => .rfl⟩

theorem hand {h : Option (Holder P)} (hs : s.held k ≠ some (.proc j)) (hh : h ≠ some (.proc j)) :
    Others s (s.hand k h) j := by
  refine ⟨rfl,rfl,.inl (rfl),fun k' => ?_⟩
  by_cases hk : k' = k
  · subst hk
    unfold Sys.hand
    dsimp only
    rw [Function.update_self]
    exact iff_of_false hh hs
  · unfold Sys.hand
    dsimp only
    rw [Function.update_of_ne hk]

theorem wakeup1 (c : C) : Others s (s.wakeup1 c) j := by
  refine ⟨rfl,rfl,?_,fun _ => .rfl⟩
  unfold Sys.wakeup1
  dsimp only
  split
  · rename_i h
    exact .inr ⟨h.1,rfl⟩
  · exact .inl (rfl)

theorem kill1 (i : P) : Others s (s.kill1 i) j := by
  refine ⟨rfl,rfl,?_,fun _ => .rfl⟩
  unfold Sys.kill1
  dsimp only
  by_cases hj : j = i
  · subst hj
    rw [Function.update_self]
    split
    · rename_i h
      exact .inr ⟨h,rfl⟩
    · exact .inl (rfl)
  · exact .inl (Function.update_of_ne hj ..)

end Others

theorem acquire_eq {x : Ctl P K C L} (h : s.acquire i k x = some t) :
    s.held k = none ∧ t = (s.hand k (some (.proc i))).goto i x := by
  unfold Sys.acquire at h
  split at h
  · rename_i hk
    cases h
    exact ⟨hk,rfl⟩
  · cases h

theorem release_eq {x : Ctl P K C L} (h : s.release i k x = some t) :
    s.held k = some (.proc i) ∧ t = (s.hand k none).goto i x := by
  unfold Sys.release at h
  split at h
  · rename_i hk
    cases h
    exact ⟨hk,rfl⟩
  · cases h

theorem Others.acquire (hj : j ≠ i) {x : Ctl P K C L} (h : s.acquire i k x = some t) : Others s t j := by
  obtain ⟨hk,rfl⟩ := acquire_eq h
  refine (Others.hand ?_ ?_).trans (.goto hj x)
  · rw [hk]
    exact fun hc => by cases hc
  · rintro ⟨rfl⟩
    exact hj rfl

theorem Others.release (hj : j ≠ i) {x : Ctl P K C L} (h : s.release i k x = some t) : Others s t j := by
  obtain ⟨hk,rfl⟩ := release_eq h
  refine (Others.hand ?_ (by simp)).trans (.goto hj x)
  rw [hk]
  rintro ⟨rfl⟩
  exact hj rfl

/-! ## Where a process is and what it holds -/

/-- The state of a process fits where it is, and it holds `ptable.lock` where it should. -/
def ProcOk (s : Sys P K C D L) (i : P) : Prop :=
  match s.ctl i with
  | .user _ => s.state i = .running
  | .sleep .. => s.state i = .running
  | .sleepRelease .. => s.state i = .running ∧ s.held .ptable = some (.proc i)
  | .sleepMark .. => s.state i = .running ∧ s.held .ptable = some (.proc i)
  | .sleepSched c _ _ => (s.state i = .sleeping ∨ s.state i = .runnable) ∧ s.chan i = some c
  | .sleepTidy .. => s.state i = .running ∧ s.held .ptable = some (.proc i)
  | .sleepAcquire .. => s.state i = .running
  | .enter .. => s.state i = .running
  | .inside .. => s.state i = .running ∧ s.held .ptable = some (.proc i)
  | .yieldSched _ => s.state i = .runnable
  | .leave _ => s.state i = .running ∧ s.held .ptable = some (.proc i)

theorem ProcOk.others (h : ProcOk s j) (ho : Others s t j) : ProcOk t j := by
  have hst : ∀ x, x ≠ .sleeping → s.state j = x → t.state j = x := by
    rintro x hx rfl
    rcases ho.state with h1 | ⟨h1,-⟩
    · exact h1
    · exact absurd h1 hx
  unfold ProcOk at h ⊢
  rw [ho.ctl]
  cases hc : s.ctl j <;> rw [hc] at h <;> dsimp only at h ⊢
  case sleepSched c k l =>
    rw [ho.chan]
    refine ⟨?_,h.2⟩
    rcases ho.state with h1 | ⟨-,h1⟩
    · rw [h1]
      exact h.1
    · exact .inr h1
  all_goals first
    | exact hst _ (by simp) h
    | exact ⟨hst _ (by simp) h.1,(ho.held _).mpr h.2⟩

/-- The process that takes a step. -/
def Act.actor : Act P → Option P
  | .run i => some i
  | .kill i _ => some i
  | .yield i => some i
  | .schedAcquire => none
  | .schedRelease => none
  | .dispatch i => some i

theorem Others.handOver (hj : j ≠ i) (hi : s.held k = some (.proc i)) : Others s (s.hand k (some .scheduler)) j := by
  refine .hand ?_ (by simp)
  rw [hi]
  rintro ⟨rfl⟩
  exact hj rfl

theorem Others.runCmd (hj : j ≠ i) {cmd : Cmd K C D L} (h : Sleep.runCmd s i cmd = some t) : Others s t j := by
  cases cmd with
  | acquire k next => exact .acquire hj h
  | release k next => exact .release hj h
  | sleep c k next =>
    cases k with
    | ptable =>
      simp only [Sleep.runCmd] at h
      split at h
      · cases h
        exact .goto hj _
      · cases h
    | lk k =>
      cases h
      exact .goto hj _
  | wakeup c next =>
    cases h
    exact .goto hj _
  | wakeup1 c next =>
    simp only [Sleep.runCmd] at h
    split at h
    · cases h
      exact (Others.wakeup1 c).trans (.goto hj _)
    · cases h
  | update f =>
    cases h
    exact (Others.setData _).trans (.goto hj _)

theorem Others.runProc (hj : j ≠ i) (hi : ProcOk s i) (h : Sleep.runProc code s i = some t) : Others s t j := by
  unfold Sleep.runProc at h
  unfold ProcOk at hi
  cases hc : s.ctl i with
  | user l =>
    rw [hc] at h
    exact .runCmd hj h
  | sleep c k l =>
    rw [hc] at h
    exact .acquire hj h
  | sleepRelease c k l =>
    rw [hc] at h
    exact .release hj h
  | sleepMark c k l =>
    rw [hc] at h hi
    cases h
    have hmark : Others s ((s.setChan i (some c)).setState i .sleeping) j :=
      (Others.setChan hj _).trans (.setState hj _)
    exact (hmark.trans (.handOver hj hi.2)).trans (.goto hj _)
  | sleepSched c k l =>
    rw [hc] at h
    cases h
  | sleepTidy c k l =>
    rw [hc] at h
    cases k with
    | ptable =>
      cases h
      exact (Others.setChan hj _).trans (.goto hj _)
    | lk k => exact (Others.setChan hj none).trans (.release hj h)
  | sleepAcquire c k l =>
    rw [hc] at h
    exact .acquire hj h
  | enter job l =>
    rw [hc] at h
    exact .acquire hj h
  | inside job l =>
    rw [hc] at h hi
    cases h
    cases job with
    | wakeup c => exact (Others.wakeup1 c).trans (.goto hj _)
    | kill i' => exact (Others.kill1 i').trans (.goto hj _)
    | yield => exact ((Others.setState hj _).trans (.handOver hj hi.2)).trans (.goto hj _)
  | yieldSched l =>
    rw [hc] at h
    cases h
  | leave l =>
    rw [hc] at h
    exact .release hj h

theorem call_eq {job : Job P C} (h : call s i job = some t) :
    ∃ l, s.ctl i = .user l ∧ t = s.goto i (.enter job l) := by
  unfold call at h
  split at h
  · rename_i l hl
    split at h
    · cases h
      exact ⟨l,hl,rfl⟩
    · cases h
  · cases h

/-- A step leaves the processes alone that do not take it, but for waking them. -/
theorem step_others (hok : ∀ i, ProcOk s i) (h : step code s a = some t) (hj : a.actor ≠ some j) : Others s t j := by
  cases a with
  | run i =>
    simp only [step] at h
    split at h
    · exact .runProc (fun hc => hj (by rw [hc]; rfl)) (hok i) h
    · cases h
  | kill i i' =>
    obtain ⟨l,-,rfl⟩ := call_eq h
    exact .goto (fun hc => hj (by rw [hc]; rfl)) _
  | yield i =>
    obtain ⟨l,-,rfl⟩ := call_eq h
    exact .goto (fun hc => hj (by rw [hc]; rfl)) _
  | schedAcquire =>
    simp only [step] at h
    split at h
    · rename_i hk
      cases h
      exact .hand (by rw [hk]; simp) (by simp)
    · cases h
  | schedRelease =>
    simp only [step] at h
    split at h
    · rename_i hk
      cases h
      exact .hand (by rw [hk]; simp) (by simp)
    · cases h
  | dispatch i =>
    have hji : j ≠ i := fun hc => hj (by rw [hc]; rfl)
    simp only [step] at h
    split at h
    · rename_i hk
      cases h
      refine ((Others.setState hji _).trans (.hand ?_ ?_)).trans (.goto hji _)
      · change s.held .ptable ≠ _
        rw [hk.1]
        simp
      · rintro ⟨rfl⟩
        exact hji rfl
    · cases h

/-! ## Every step keeps it -/

section Self
variable {h : Option (Holder P)} {x : Ctl P K C L}

@[simp] theorem goto_ctl : (s.goto i x).ctl i = x := Function.update_self ..
@[simp] theorem goto_ctl_of_ne (hj : j ≠ i) : (s.goto i x).ctl j = s.ctl j := Function.update_of_ne hj ..
@[simp] theorem goto_state : (s.goto i x).state = s.state := rfl
@[simp] theorem goto_chan : (s.goto i x).chan = s.chan := rfl
@[simp] theorem goto_held : (s.goto i x).held = s.held := rfl
@[simp] theorem goto_data : (s.goto i x).data = s.data := rfl
@[simp] theorem hand_held : (s.hand k h).held k = h := Function.update_self ..
@[simp] theorem hand_held_of_ne {k' : Lock K} (hk : k' ≠ k) : (s.hand k h).held k' = s.held k' :=
  Function.update_of_ne hk ..
@[simp] theorem hand_state : (s.hand k h).state = s.state := rfl
@[simp] theorem hand_chan : (s.hand k h).chan = s.chan := rfl
@[simp] theorem hand_ctl : (s.hand k h).ctl = s.ctl := rfl
@[simp] theorem hand_data : (s.hand k h).data = s.data := rfl
@[simp] theorem setState_state {y : ProcState} : (s.setState i y).state i = y := Function.update_self ..
@[simp] theorem setState_held {y : ProcState} : (s.setState i y).held = s.held := rfl
@[simp] theorem setState_chan {y : ProcState} : (s.setState i y).chan = s.chan := rfl
@[simp] theorem setState_ctl {y : ProcState} : (s.setState i y).ctl = s.ctl := rfl
@[simp] theorem setState_data {y : ProcState} : (s.setState i y).data = s.data := rfl
@[simp] theorem setChan_chan {y : Option C} : (s.setChan i y).chan i = y := Function.update_self ..
@[simp] theorem setChan_held {y : Option C} : (s.setChan i y).held = s.held := rfl
@[simp] theorem setChan_state {y : Option C} : (s.setChan i y).state = s.state := rfl
@[simp] theorem setChan_ctl {y : Option C} : (s.setChan i y).ctl = s.ctl := rfl
@[simp] theorem setChan_data {y : Option C} : (s.setChan i y).data = s.data := rfl
@[simp] theorem wakeup1_held : (s.wakeup1 c).held = s.held := rfl
@[simp] theorem wakeup1_chan : (s.wakeup1 c).chan = s.chan := rfl
@[simp] theorem wakeup1_ctl : (s.wakeup1 c).ctl = s.ctl := rfl
@[simp] theorem wakeup1_data : (s.wakeup1 c).data = s.data := rfl
@[simp] theorem kill1_held : (s.kill1 i).held = s.held := rfl
@[simp] theorem kill1_chan : (s.kill1 i).chan = s.chan := rfl
@[simp] theorem kill1_ctl : (s.kill1 i).ctl = s.ctl := rfl
@[simp] theorem kill1_data : (s.kill1 i).data = s.data := rfl

end Self

theorem wakeup1_running (h : s.state i = .running) : (s.wakeup1 c).state i = .running := by
  unfold Sys.wakeup1
  simp [h]

theorem kill1_running (h : s.state i = .running) : (s.kill1 j).state i = .running := by
  rcases (Others.kill1 (s := s) (j := i) j).state with h1 | ⟨h1,-⟩
  · rw [h1, h]
  · rw [h] at h1
    cases h1

theorem ProcOk.runCmd (hst : s.state i = .running) {cmd : Cmd K C D L} (h : Sleep.runCmd s i cmd = some t) :
    ProcOk t i := by
  cases cmd with
  | acquire k next =>
    obtain ⟨-,rfl⟩ := acquire_eq h
    simpa [ProcOk] using hst
  | release k next =>
    obtain ⟨-,rfl⟩ := release_eq h
    simpa [ProcOk] using hst
  | sleep c k next =>
    cases k with
    | ptable =>
      simp only [Sleep.runCmd] at h
      split at h
      · rename_i hk
        cases h
        simpa [ProcOk] using ⟨hst,hk⟩
      · cases h
    | lk k =>
      cases h
      simpa [ProcOk] using hst
  | wakeup c next =>
    cases h
    simpa [ProcOk] using hst
  | wakeup1 c next =>
    simp only [Sleep.runCmd] at h
    split at h
    · cases h
      simpa [ProcOk] using wakeup1_running hst
    · cases h
  | update f =>
    cases h
    simpa [ProcOk] using hst

theorem ProcOk.runProc (hi : ProcOk s i) (hst : s.state i = .running) (h : Sleep.runProc code s i = some t) :
    ProcOk t i := by
  unfold Sleep.runProc at h
  unfold ProcOk at hi
  cases hc : s.ctl i with
  | user l =>
    rw [hc] at h
    exact .runCmd hst h
  | sleep c k l =>
    rw [hc] at h
    obtain ⟨-,rfl⟩ := acquire_eq h
    simpa [ProcOk] using hst
  | sleepRelease c k l =>
    rw [hc] at h hi
    obtain ⟨-,rfl⟩ := release_eq h
    simpa [ProcOk] using hi
  | sleepMark c k l =>
    rw [hc] at h
    cases h
    simp [ProcOk]
  | sleepSched c k l =>
    rw [hc] at h
    cases h
  | sleepTidy c k l =>
    rw [hc] at h
    cases k with
    | ptable =>
      cases h
      simpa [ProcOk] using hst
    | lk k =>
      obtain ⟨-,rfl⟩ := release_eq h
      simpa [ProcOk] using hst
  | sleepAcquire c k l =>
    rw [hc] at h
    obtain ⟨-,rfl⟩ := acquire_eq h
    simpa [ProcOk] using hst
  | enter job l =>
    rw [hc] at h
    obtain ⟨-,rfl⟩ := acquire_eq h
    simpa [ProcOk] using hst
  | inside job l =>
    rw [hc] at h hi
    cases h
    cases job with
    | wakeup c => simpa [ProcOk,runJob] using ⟨wakeup1_running hst,hi.2⟩
    | kill j => simpa [ProcOk,runJob] using ⟨kill1_running hst,hi.2⟩
    | yield => simp [ProcOk,runJob]
  | yieldSched l =>
    rw [hc] at h
    cases h
  | leave l =>
    rw [hc] at h
    obtain ⟨-,rfl⟩ := release_eq h
    simpa [ProcOk] using hst

theorem ProcOk.call {job : Job P C} (hi : ProcOk s i) (h : Sleep.call s i job = some t) : ProcOk t i := by
  obtain ⟨l,hl,rfl⟩ := call_eq h
  unfold ProcOk at hi
  rw [hl] at hi
  simpa [ProcOk] using hi

theorem ProcOk.dispatch (hi : ProcOk s i) (hst : s.state i = .runnable) :
    ProcOk (((s.setState i .running).hand .ptable (some (.proc i))).goto i (s.ctl i).resume) i := by
  unfold ProcOk at hi
  cases hc : s.ctl i <;> rw [hc] at hi <;> simp_all [ProcOk,Ctl.resume]

theorem step_ok (hok : ∀ i, ProcOk s i) (h : step code s a = some t) (j : P) : ProcOk t j := by
  by_cases hj : a.actor = some j
  · cases a with
    | run i =>
      cases hj
      simp only [step] at h
      split at h
      · rename_i hst
        exact (hok j).runProc hst h
      · cases h
    | kill i i' =>
      cases hj
      exact (hok j).call h
    | yield i =>
      cases hj
      exact (hok j).call h
    | schedAcquire => cases hj
    | schedRelease => cases hj
    | dispatch i =>
      cases hj
      simp only [step] at h
      split at h
      · rename_i hst
        cases h
        exact (hok j).dispatch hst.2
      · cases h
  · exact (hok j).others (step_others hok h hj)

theorem reached_ok (h : Reached code d l s) : ∀ i, ProcOk s i := by
  refine h.invariant (I := fun s => ∀ i, ProcOk s i) (fun s hs i => ?_) fun s a t hs hstep => step_ok hs hstep
  obtain ⟨-,-,hst,hctl⟩ := hs
  unfold ProcOk
  rw [hctl]
  exact hst i

/-! ## Wakeups -/

/-- Inside a call `sleep(c, k)`. -/
def Ctl.Sleeps (c : C) (k : Lock K) : Ctl P K C L → Prop
  | .sleep c' k' _ => c' = c ∧ .lk k' = k
  | .sleepRelease c' k' _ => c' = c ∧ .lk k' = k
  | .sleepMark c' k' _ => c' = c ∧ k' = k
  | .sleepSched c' k' _ => c' = c ∧ k' = k
  | .sleepTidy c' k' _ => c' = c ∧ k' = k
  | .sleepAcquire c' k' _ => c' = c ∧ .lk k' = k
  | _ => False

/-- About to run `wakeup1(c)`, from `wakeup(c)` or from code that holds `ptable.lock`. -/
def Wakes (code : Code P K C D L) (s : Sys P K C D L) (i : P) (c : C) : Prop :=
  (∃ l, s.ctl i = .inside (.wakeup c) l) ∨ ∃ l next, s.ctl i = .user l ∧ code i l = .wakeup1 c next

/-- A process in `sleep(chan, k)` that must take `k` before it can be asleep again. -/
def Roused (s : Sys P K C D L) (j : P) (k : Lock K) : Prop :=
  s.held k ≠ some (.proc j) ∧
  match s.ctl j with
  | .sleep _ k' _ => .lk k' = k
  | .sleepRelease _ k' _ => .lk k' = k
  | .sleepSched _ k' _ => k' = k ∧ s.state j = .runnable
  | .sleepTidy _ k' _ => k' = k
  | .sleepAcquire _ k' _ => .lk k' = k
  | _ => False

theorem Roused.not_sleeping (hok : ProcOk s j) (h : Roused s j k) : s.state j ≠ .sleeping := by
  intro hs
  unfold Roused at h
  unfold ProcOk at hok
  cases hc : s.ctl j <;> rw [hc] at h hok <;> simp_all

/-- Such a process stays so as long as it does not get the lock. -/
theorem Roused.step (hok : ∀ i, ProcOk s i) (h : Roused s j k) (hstep : step code s a = some t)
    (hk : t.held k ≠ some (.proc j)) : Roused t j k := by
  by_cases hj : a.actor = some j
  · have hrun := h.2
    have hno := h.1
    cases a with
    | run i =>
      cases hj
      simp only [Sleep.step] at hstep
      split at hstep
      · rename_i hst
        unfold Sleep.runProc at hstep
        refine ⟨hk,?_⟩
        cases hc : s.ctl j with
        | sleep c k' l =>
          rw [hc] at hstep hrun
          obtain ⟨-,rfl⟩ := acquire_eq hstep
          simpa using hrun
        | sleepRelease c k' l =>
          -- `release(lk)` would need the lock
          rw [hc] at hstep hrun
          obtain ⟨hheld,-⟩ := release_eq hstep
          rw [← hrun] at hno
          exact absurd hheld hno
        | sleepTidy c k' l =>
          rw [hc] at hstep hrun
          obtain rfl : k' = k := hrun
          cases k' with
          | ptable =>
            have hp := hok j
            unfold ProcOk at hp
            rw [hc] at hp
            exact absurd hp.2 hno
          | lk k' =>
            obtain ⟨-,rfl⟩ := release_eq hstep
            simp
        | sleepAcquire c k' l =>
          rw [hc] at hstep hrun
          obtain ⟨-,rfl⟩ := acquire_eq hstep
          rw [← hrun] at hk
          simp at hk
        | sleepSched c k' l =>
          rw [hc] at hstep
          cases hstep
        | user l => simp [hc] at hrun
        | sleepMark c k' l => simp [hc] at hrun
        | enter job l => simp [hc] at hrun
        | inside job l => simp [hc] at hrun
        | yieldSched l => simp [hc] at hrun
        | leave l => simp [hc] at hrun
      · cases hstep
    | kill i i' =>
      cases hj
      obtain ⟨l,hl,-⟩ := call_eq hstep
      simp [hl] at hrun
    | yield i =>
      cases hj
      obtain ⟨l,hl,-⟩ := call_eq hstep
      simp [hl] at hrun
    | schedAcquire => cases hj
    | schedRelease => cases hj
    | dispatch i =>
      cases hj
      simp only [Sleep.step] at hstep
      split at hstep
      · rename_i hst
        cases hstep
        refine ⟨hk,?_⟩
        have hp := hok j
        unfold ProcOk at hp
        cases hc : s.ctl j <;> rw [hc] at hrun hp <;> simp_all [Ctl.resume]
      · cases hstep
  · have ho := step_others hok hstep hj
    refine ⟨hk,?_⟩
    have hrun := h.2
    rw [ho.ctl]
    cases hc : s.ctl j <;> rw [hc] at hrun
    case sleepSched c k' l =>
      refine ⟨hrun.1,?_⟩
      rcases ho.state with h1 | ⟨-,h1⟩
      · exact h1.trans hrun.2
      · exact h1
    all_goals exact hrun

/-- The step that runs `wakeup1(c)`. -/
theorem wakes_step (hok : ProcOk s i) (hw : Wakes code s i c) (h : step code s (.run i) = some t) :
    s.held .ptable = some (.proc i) ∧ ∃ x, t = (s.wakeup1 c).goto i x := by
  simp only [step] at h
  split at h
  · unfold runProc at h
    rcases hw with ⟨l,hl⟩ | ⟨l,next,hl,hcode⟩
    · unfold ProcOk at hok
      rw [hl] at h hok
      cases h
      exact ⟨hok.2,_,rfl⟩
    · rw [hl] at h
      dsimp only at h
      rw [hcode] at h
      simp only [runCmd] at h
      split at h
      · rename_i hk
        cases h
        exact ⟨hk,_,rfl⟩
      · cases h
  · cases h

/-- A process inside `sleep(c, k)` when a process that holds `k` wakes `c` has been roused. -/
theorem roused_of_wakes (hok : ∀ i, ProcOk s i) (hw : Wakes code s i c) (hk : s.held k = some (.proc i))
    (h : step code s (.run i) = some t) (hj : (s.ctl j).Sleeps c k) : Roused t j k := by
  obtain ⟨hpt,x,rfl⟩ := wakes_step (hok i) hw h
  have hne : j ≠ i := by
    rintro rfl
    rcases hw with ⟨l,hl⟩ | ⟨l,next,hl,-⟩
    · rw [hl] at hj
      exact hj
    · rw [hl] at hj
      exact hj
  have hnot : ∀ k', s.held k' = some (.proc i) → s.held k' ≠ some (.proc j) := by
    intro k' h1 h2
    rw [h1] at h2
    cases h2
    exact hne rfl
  have hp := hok j
  refine ⟨hnot k hk,?_⟩
  rw [goto_ctl_of_ne hne, wakeup1_ctl, goto_state]
  unfold ProcOk at hp
  cases hc : s.ctl j with
  | sleep c' k' l =>
    rw [hc] at hj
    exact hj.2
  | sleepRelease c' k' l =>
    rw [hc] at hp
    exact absurd hp.2 (hnot _ hpt)
  | sleepMark c' k' l =>
    rw [hc] at hp
    exact absurd hp.2 (hnot _ hpt)
  | sleepSched c' k' l =>
    rw [hc] at hp hj
    obtain ⟨rfl,rfl⟩ := hj
    refine ⟨rfl,?_⟩
    unfold Sys.wakeup1
    rcases hp.1 with h1 | h1
    · simp [h1,hp.2]
    · simp [h1]
  | sleepTidy c' k' l =>
    rw [hc] at hp
    exact absurd hp.2 (hnot _ hpt)
  | sleepAcquire c' k' l =>
    rw [hc] at hj
    exact hj.2
  | user l => simp [hc,Ctl.Sleeps] at hj
  | enter job l => simp [hc,Ctl.Sleeps] at hj
  | inside job l => simp [hc,Ctl.Sleeps] at hj
  | yieldSched l => simp [hc,Ctl.Sleeps] at hj
  | leave l => simp [hc,Ctl.Sleeps] at hj

/-- The steps after which a process does not hold a lock. -/
def Without (code : Code P K C D L) (j : P) (k : Lock K) (s : Sys P K C D L) (a : Act P) (t : Sys P K C D L) : Prop :=
  step code s a = some t ∧ t.held k ≠ some (.proc j)

/-- No wakeup is missed: a process inside `sleep(c, k)` when `c` is woken by a process that holds
`k` is not asleep in any later state until it has got `k` back. -/
theorem not_asleep_of_wakes (hs : Reached code d l s) (hw : Wakes code s i c) (hk : s.held k = some (.proc i))
    (h : step code s (.run i) = some t) (hj : (s.ctl j).Sleeps c k) (hu : Leads (Without code j k) t u) :
    u.state j ≠ .sleeping := by
  have hok := reached_ok hs
  have hrun : (∀ i, ProcOk u i) ∧ Roused u j k := by
    induction hu with
    | refl => exact ⟨step_ok hok h,roused_of_wakes hok hw hk h hj⟩
    | tail _ hstep ih =>
      obtain ⟨a,ha,hfree⟩ := hstep
      exact ⟨step_ok ih.1 ha,ih.2.step ih.1 ha hfree⟩
  exact hrun.2.not_sleeping (hrun.1 j)

end X86OsDev.Xv6.Sleep
