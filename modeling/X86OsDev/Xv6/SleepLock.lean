import Mathlib.Data.Nat.Notation
import X86OsDev.Xv6.SleepWakeup

/-! # Sleep-locks (sleeplock.c)

The processes take and give back one sleep-lock again and again, while any of
them may be killed. The lock excludes, and no process is left asleep on a free
lock.
-/
set_option linter.unusedSectionVars false

namespace X86OsDev.Xv6.SleepLock
open Transition Sleep

/-- `struct sleeplock` without its spinlock. -/
structure Data where
  locked : Bool
  pid : ℕ
  deriving DecidableEq

/-- The points of `acquiresleep`, from `idle` to `inside`, and of `releasesleep`, from `inside` to
`idle`. -/
inductive Point
  | idle
  | test
  | sleep
  | set
  | unlock
  | inside
  | clear
  | wake
  | done
  deriving DecidableEq

variable {P : Type} [DecidableEq P]

/-- `acquiresleep` and `releasesleep`, in turn -/
def code (pid : P → ℕ) : Code P Unit Unit Data Point := fun i l =>
  match l with
  | .idle => .acquire (.lk ()) .test
  | .test => .update fun d => (d,if d.locked then .sleep else .set)
  | .sleep => .sleep () (.lk ()) .test
  | .set => .update fun _ => (⟨true,pid i⟩,.unlock)
  | .unlock => .release (.lk ()) .inside
  | .inside => .acquire (.lk ()) .clear
  | .clear => .update fun _ => (⟨false,0⟩,.wake)
  | .wake => .wakeup () .done
  | .done => .release (.lk ()) .idle

abbrev State (P : Type) := Sys P Unit Unit Data Point

abbrev LockReached (pid : P → ℕ) (s : State P) : Prop := Reached (code pid) ⟨false,0⟩ .idle s

/-- The point of its code that a process is at or returns to. -/
def point : Ctl P Unit Unit Point → Point
  | .user l => l
  | .sleep _ _ l => l
  | .sleepRelease _ _ l => l
  | .sleepMark _ _ l => l
  | .sleepSched _ _ l => l
  | .sleepTidy _ _ l => l
  | .sleepAcquire _ _ l => l
  | .enter _ l => l
  | .inside _ l => l
  | .yieldSched l => l
  | .leave l => l

/-- Between a completed `acquiresleep` and its `releasesleep`. -/
def Holding (s : State P) (i : P) : Prop := point (s.ctl i) = .inside

/-! ## The phases of a process -/

/-- What a process is about to do with the lock. `about` has seen that it is taken and still has the
spinlock, `marked` has given the spinlock up and is asleep or about to be, and `back` comes out of
`sleep`. -/
inductive Phase
  | out
  | testing
  | about
  | marked
  | back
  | set
  | unlock
  | inside
  | clear
  | wake
  | done
  deriving DecidableEq

def Point.phase : Point → Phase
  | .idle => .out
  | .test => .testing
  | .sleep => .about
  | .set => .set
  | .unlock => .unlock
  | .inside => .inside
  | .clear => .clear
  | .wake => .wake
  | .done => .done

def phase : Ctl P Unit Unit Point → Phase
  | .user l => l.phase
  | .sleep .. => .about
  | .sleepRelease .. => .about
  | .sleepMark .. => .marked
  | .sleepSched .. => .marked
  | .sleepTidy .. => .back
  | .sleepAcquire .. => .back
  | .enter (.wakeup _) _ => .wake
  | .inside (.wakeup _) _ => .wake
  | .enter _ l => l.phase
  | .inside _ l => l.phase
  | .yieldSched l => l.phase
  | .leave l => l.phase

/-- The phases with the spinlock of the sleep-lock held. -/
def Phase.holds : Phase → Bool
  | .out => false
  | .marked => false
  | .back => false
  | .inside => false
  | _ => true

/-- The phases of a process that has the sleep-lock. -/
def Phase.owns : Phase → Bool
  | .unlock => true
  | .inside => true
  | .clear => true
  | _ => false

/-- A call returns to the point that its caller goes on from. -/
def Returns : Ctl P Unit Unit Point → Prop
  | .sleep _ _ l => l = .test
  | .sleepRelease _ _ l => l = .test
  | .sleepMark _ k l => k = .lk () ∧ l = .test
  | .sleepSched _ k l => k = .lk () ∧ l = .test
  | .sleepTidy _ k l => k = .lk () ∧ l = .test
  | .sleepAcquire _ _ l => l = .test
  | .enter (.wakeup _) l => l = .done
  | .inside (.wakeup _) l => l = .done
  | _ => True

/-- Asleep, or to be asleep without another test. -/
def Doomed (s : State P) (i : P) : Prop := phase (s.ctl i) = .marked ∧ s.state i ≠ .runnable

/-- What a step does with the lock, at the process that takes it. -/
inductive Turn (pid : P → ℕ) (s t : State P) (i : P) : Prop
  | same (hp : phase (t.ctl i) = phase (s.ctl i)) (hd : t.data = s.data)
    (hl : t.held (.lk ()) = s.held (.lk ())) (hdoom : Doomed t i → Doomed s i)
  | take (hp : (phase (s.ctl i),phase (t.ctl i)) ∈ [(Phase.out,Phase.testing),(.back,.testing),(.inside,.clear)])
    (hd : t.data = s.data) (hs : s.held (.lk ()) = none) (hl : t.held (.lk ()) = some (.proc i))
  | drop (hp : (phase (s.ctl i),phase (t.ctl i)) ∈ [(Phase.about,Phase.marked),(.unlock,.inside),(.done,.out)])
    (hd : t.data = s.data) (hl : t.held (.lk ()) = none)
  | test (hp : phase (s.ctl i) = .testing) (hp' : phase (t.ctl i) = if s.data.locked then .about else .set)
    (hd : t.data = s.data) (hl : t.held (.lk ()) = s.held (.lk ()))
  | set (hp : phase (s.ctl i) = .set) (hp' : phase (t.ctl i) = .unlock) (hd : t.data = ⟨true,pid i⟩)
    (hl : t.held (.lk ()) = s.held (.lk ()))
  | clear (hp : phase (s.ctl i) = .clear) (hp' : phase (t.ctl i) = .wake) (hd : t.data = ⟨false,0⟩)
    (hl : t.held (.lk ()) = s.held (.lk ()))
  | wake (hp : phase (s.ctl i) = .wake) (hp' : phase (t.ctl i) = .done) (hd : t.data = s.data)
    (hl : t.held (.lk ()) = s.held (.lk ())) (hdoom : ∀ j, ¬ Doomed t j)
  | back (hp : phase (s.ctl i) = .marked) (hp' : phase (t.ctl i) = .back) (hd : t.data = s.data)
    (hl : t.held (.lk ()) = s.held (.lk ()))

variable {pid : P → ℕ} {s t : State P} {i j : P} {a : Act P}

/-- Running `wakeup1` leaves no process asleep. -/
theorem not_doomed_of_wakeup1 (hok : ∀ i, ProcOk s i) (hi : s.held .ptable = some (.proc i))
    {x : Ctl P Unit Unit Point} (hx : phase x ≠ .marked) (j : P) : ¬ Doomed ((s.wakeup1 ()).goto i x) j := by
  rintro ⟨hp,hst⟩
  by_cases hj : j = i
  · subst hj
    rw [goto_ctl] at hp
    exact hx hp
  · rw [goto_ctl_of_ne hj, wakeup1_ctl] at hp
    have hok' := hok j
    unfold ProcOk at hok'
    cases hc : s.ctl j <;> rw [hc] at hok' hp
    case sleepMark c k l =>
      rw [hi] at hok'
      exact hj (by injection hok'.2 with h; injection h with h; exact h.symm)
    case sleepSched c k l =>
      refine hst ?_
      rw [goto_state]
      unfold Sys.wakeup1
      rcases hok'.1 with h1 | h1
      · simp [h1,hok'.2]
      · simp [h1]
    case user l => cases l <;> simp [phase,Point.phase] at hp
    case enter job l => cases job <;> cases l <;> simp [phase,Point.phase] at hp
    case inside job l => cases job <;> cases l <;> simp [phase,Point.phase] at hp
    case yieldSched l => cases l <;> simp [phase,Point.phase] at hp
    case leave l => cases l <;> simp [phase,Point.phase] at hp
    all_goals simp [phase] at hp

/-- A step of a process in its own code. -/
theorem turn_user {l : Point} (hl : s.ctl i = .user l) (h : runCmd s i (code pid i l) = some t) :
    Turn pid s t i ∧ Returns (t.ctl i) := by
  have hlk : (Lock.lk () : Lock Unit) ≠ .ptable := by simp
  cases l with
  | idle =>
    obtain ⟨hk,rfl⟩ := acquire_eq h
    exact ⟨.take (by simp [hl,phase,Point.phase]) rfl hk (by simp),by simp [Returns]⟩
  | test =>
    cases h
    refine ⟨.test (by simp [hl,phase,Point.phase]) ?_ rfl rfl,by simp [Returns]⟩
    cases hlocked : s.data.locked <;> simp [phase,Point.phase,hlocked]
  | sleep =>
    cases h
    refine ⟨.same (by simp [hl,phase,Point.phase]) rfl rfl fun hd => ?_,by simp [Returns]⟩
    simp [Doomed,phase] at hd
  | set =>
    cases h
    exact ⟨.set (by simp [hl,phase,Point.phase]) (by simp [phase,Point.phase]) rfl rfl,by simp [Returns]⟩
  | unlock =>
    obtain ⟨hk,rfl⟩ := release_eq h
    exact ⟨.drop (by simp [hl,phase,Point.phase]) rfl (by simp),by simp [Returns]⟩
  | inside =>
    obtain ⟨hk,rfl⟩ := acquire_eq h
    exact ⟨.take (by simp [hl,phase,Point.phase]) rfl hk (by simp),by simp [Returns]⟩
  | clear =>
    cases h
    exact ⟨.clear (by simp [hl,phase,Point.phase]) (by simp [phase,Point.phase]) rfl rfl,by simp [Returns]⟩
  | wake =>
    cases h
    refine ⟨.same (by simp [hl,phase,Point.phase]) rfl rfl fun hd => ?_,by simp [Returns]⟩
    simp [Doomed,phase] at hd
  | done =>
    obtain ⟨hk,rfl⟩ := release_eq h
    exact ⟨.drop (by simp [hl,phase,Point.phase]) rfl (by simp),by simp [Returns]⟩

theorem not_doomed_point {l : Point} : l.phase ≠ .marked := by
  cases l <;> simp [Point.phase]

/-- A step inside a call. -/
theorem turn_runProc (hok : ∀ i, ProcOk s i) (hr : Returns (s.ctl i)) (h : runProc (code pid) s i = some t) :
    Turn pid s t i ∧ Returns (t.ctl i) := by
  have hlk : (Lock.lk () : Lock Unit) ≠ .ptable := by simp
  have hoki := hok i
  unfold ProcOk at hoki
  unfold runProc at h
  cases hc : s.ctl i with
  | user l =>
    rw [hc] at h
    exact turn_user hc h
  | sleep c k l =>
    rw [hc] at h hr
    obtain ⟨-,rfl⟩ := acquire_eq h
    refine ⟨.same (by simp [hc,phase]) rfl (by simp) fun hd => ?_,by simpa [Returns] using hr⟩
    simp [Doomed,phase] at hd
  | sleepRelease c k l =>
    rw [hc] at h hr
    obtain ⟨-,rfl⟩ := release_eq h
    exact ⟨.drop (by simp [hc,phase]) rfl (by simp),by simpa [Returns] using hr⟩
  | sleepMark c k l =>
    rw [hc] at h hr hoki
    cases h
    refine ⟨.same (by simp [hc,phase]) rfl (by simp) fun _ => ?_,by simpa [Returns] using hr⟩
    simp [Doomed,hc,phase,hoki.1]
  | sleepSched c k l =>
    rw [hc] at h
    cases h
  | sleepTidy c k l =>
    rw [hc] at h hr
    obtain ⟨rfl,rfl⟩ := hr
    obtain ⟨-,rfl⟩ := release_eq h
    refine ⟨.same (by simp [hc,phase]) rfl (by simp) fun hd => ?_,by simp [Returns]⟩
    simp [Doomed,phase] at hd
  | sleepAcquire c k l =>
    rw [hc] at h hr
    obtain rfl := hr
    obtain ⟨hk,rfl⟩ := acquire_eq h
    exact ⟨.take (by simp [hc,phase,Point.phase]) rfl hk (by simp),by simp [Returns]⟩
  | enter job l =>
    rw [hc] at h hr
    obtain ⟨-,rfl⟩ := acquire_eq h
    rw [goto_ctl]
    cases job with
    | wakeup c =>
      refine ⟨.same (by simp [hc,phase]) rfl (by simp) fun hd => ?_,hr⟩
      simp [Doomed,phase] at hd
    | kill j =>
      refine ⟨.same (by simp [hc,phase]) rfl (by simp) fun hd => ?_,trivial⟩
      have hd := hd.1
      rw [goto_ctl] at hd
      exact absurd hd not_doomed_point
    | yield =>
      refine ⟨.same (by simp [hc,phase]) rfl (by simp) fun hd => ?_,trivial⟩
      have hd := hd.1
      rw [goto_ctl] at hd
      exact absurd hd not_doomed_point
  | inside job l =>
    rw [hc] at h hr hoki
    cases h
    cases job with
    | wakeup c =>
      obtain rfl := hr
      refine ⟨.wake (by simp [hc,phase]) (by simp [runJob,phase,Point.phase]) rfl rfl fun j => ?_,by simp [runJob,Returns]⟩
      exact not_doomed_of_wakeup1 hok hoki.2 (by simp [phase,Point.phase]) j
    | kill j =>
      refine ⟨.same (by simp [hc,runJob,phase]) rfl rfl fun hd => ?_,by simp [runJob,Returns]⟩
      have hd := hd.1
      simp only [runJob, goto_ctl] at hd
      exact absurd hd not_doomed_point
    | yield =>
      refine ⟨.same (by simp [hc,runJob,phase]) rfl (by simp [runJob]) fun hd => ?_,by simp [runJob,Returns]⟩
      have hd := hd.1
      simp only [runJob, goto_ctl] at hd
      exact absurd hd not_doomed_point
  | yieldSched l =>
    rw [hc] at h
    cases h
  | leave l =>
    rw [hc] at h
    obtain ⟨-,rfl⟩ := release_eq h
    refine ⟨.same (by simp [hc,phase]) rfl (by simp) fun hd => ?_,by simp [Returns]⟩
    have hd := hd.1
    rw [goto_ctl] at hd
    exact absurd hd not_doomed_point

/-- A process that is killed or told to yield goes on as before. -/
theorem turn_call {job : Job P Unit} (hjob : ∀ c, job ≠ .wakeup c) (h : call s i job = some t) :
    Turn pid s t i ∧ Returns (t.ctl i) := by
  obtain ⟨l,hl,rfl⟩ := call_eq h
  have hphase : phase (Ctl.enter job l : Ctl P Unit Unit Point) = l.phase := by
    cases job with
    | wakeup c => exact absurd rfl (hjob c)
    | kill j => rfl
    | yield => rfl
  refine ⟨.same (by rw [goto_ctl, hl]; exact hphase) rfl rfl fun hd => ?_,?_⟩
  · have hd := hd.1
    rw [goto_ctl, hphase] at hd
    exact absurd hd not_doomed_point
  · rw [goto_ctl]
    cases job with
    | wakeup c => exact absurd rfl (hjob c)
    | kill j => trivial
    | yield => trivial

theorem turn_dispatch (hr : Returns (s.ctl i)) (hok : ProcOk s i) (hst : s.state i = .runnable) :
    Turn pid s (((s.setState i .running).hand .ptable (some (.proc i))).goto i (s.ctl i).resume) i ∧
      Returns (s.ctl i).resume := by
  have hlk : (Lock.lk () : Lock Unit) ≠ .ptable := by simp
  unfold ProcOk at hok
  cases hc : s.ctl i <;> rw [hc] at hr hok
  case sleepSched c k l =>
    exact ⟨.back (by simp [hc,phase]) (by simp [Ctl.resume,phase]) rfl (by simp),hr⟩
  case yieldSched l =>
    refine ⟨.same (by simp [hc,Ctl.resume,phase]) rfl (by simp) fun hd => ?_,trivial⟩
    have hd := hd.1
    rw [goto_ctl] at hd
    exact absurd hd not_doomed_point
  all_goals simp [hst] at hok

theorem turn_step (hok : ∀ i, ProcOk s i) (hr : ∀ i, Returns (s.ctl i)) (h : step (code pid) s a = some t) :
    (a.actor = none ∧ t.data = s.data ∧ t.held (.lk ()) = s.held (.lk ())) ∨
      ∃ i, a.actor = some i ∧ Turn pid s t i ∧ Returns (t.ctl i) := by
  have hlk : (Lock.lk () : Lock Unit) ≠ .ptable := by simp
  cases a with
  | run i =>
    simp only [step] at h
    split at h
    · exact .inr ⟨i,rfl,turn_runProc hok (hr i) h⟩
    · cases h
  | kill i j => exact .inr ⟨i,rfl,turn_call (by simp) h⟩
  | yield i => exact .inr ⟨i,rfl,turn_call (by simp) h⟩
  | schedAcquire =>
    simp only [step] at h
    split at h
    · cases h
      exact .inl ⟨rfl,rfl,by simp⟩
    · cases h
  | schedRelease =>
    simp only [step] at h
    split at h
    · cases h
      exact .inl ⟨rfl,rfl,by simp⟩
    · cases h
  | dispatch i =>
    simp only [step] at h
    split at h
    · rename_i hst
      cases h
      refine .inr ⟨i,rfl,?_⟩
      rw [goto_ctl]
      exact turn_dispatch (hr i) (hok i) hst.2
    · cases h

/-! ## The invariant -/

structure LockInv (pid : P → ℕ) (s : State P) : Prop where
  ok : ∀ i, ProcOk s i
  returns : ∀ i, Returns (s.ctl i)
  held : ∀ i, (phase (s.ctl i)).holds = true ↔ s.held (.lk ()) = some (.proc i)
  owner : ∀ i, (phase (s.ctl i)).owns = true → s.data = ⟨true,pid i⟩
  only : ∀ i j, (phase (s.ctl i)).owns = true → (phase (s.ctl j)).owns = true → i = j
  set : ∀ i, phase (s.ctl i) = .set → s.data.locked = false
  about : ∀ i, phase (s.ctl i) = .about → s.data.locked = true
  doomed : ∀ i, Doomed s i → s.data.locked = true ∨ ∃ j, phase (s.ctl j) = .wake

/-- Two processes do not have the spinlock at once. -/
theorem LockInv.holds_unique (h : LockInv pid s) (hi : (phase (s.ctl i)).holds = true)
    (hj : (phase (s.ctl j)).holds = true) : j = i := by
  have h1 := (h.held i).mp hi
  have h2 := (h.held j).mp hj
  rw [h1] at h2
  injection h2 with h2
  injection h2 with h2
  exact h2.symm

theorem Doomed.others (ho : Others s t j) (h : Doomed t j) : Doomed s j := by
  refine ⟨by rw [← ho.ctl]; exact h.1,fun hst => h.2 ?_⟩
  rcases ho.state with h1 | ⟨-,h1⟩
  · rw [h1, hst]
  · exact h1

/-- A step that changes neither the lock nor the phase of any process. -/
theorem LockInv.keep (h : LockInv pid s) (hok : ∀ i, ProcOk t i) (hr : ∀ i, Returns (t.ctl i))
    (hp : ∀ i, phase (t.ctl i) = phase (s.ctl i)) (hd : t.data = s.data)
    (hl : t.held (.lk ()) = s.held (.lk ())) (hdoom : ∀ i, Doomed t i → Doomed s i) : LockInv pid t := by
  refine ⟨hok,hr,fun i => ?_,fun i hi => ?_,fun i j hi hj => ?_,fun i hi => ?_,fun i hi => ?_,fun i hi => ?_⟩
  · rw [hp, hl]
    exact h.held i
  · rw [hd]
    exact h.owner i (by rwa [hp] at hi)
  · rw [hp] at hi hj
    exact h.only i j hi hj
  · rw [hd]
    exact h.set i (by rwa [hp] at hi)
  · rw [hd]
    exact h.about i (by rwa [hp] at hi)
  · rw [hd]
    rcases h.doomed i (hdoom i hi) with h1 | ⟨j,hj⟩
    · exact .inl h1
    · exact .inr ⟨j,by rwa [hp]⟩

/-- What a step of one process must meet for the invariant to hold after it. -/
theorem LockInv.turn (h : LockInv pid s) (hok : ∀ i, ProcOk t i) (hr : ∀ i, Returns (t.ctl i))
    (ho : ∀ j ≠ i, Others s t j) (hheld : (phase (t.ctl i)).holds = true ↔ t.held (.lk ()) = some (.proc i))
    (howner : ∀ j ≠ i, (phase (s.ctl j)).owns = true → t.data = s.data ∧ (phase (t.ctl i)).owns = false)
    (hself : (phase (t.ctl i)).owns = true → t.data = ⟨true,pid i⟩)
    (hdata : ∀ j ≠ i, (phase (s.ctl j)).holds = true → t.data.locked = s.data.locked)
    (hset : phase (t.ctl i) = .set → t.data.locked = false)
    (habout : phase (t.ctl i) = .about → t.data.locked = true)
    (hdoom : ∀ j, Doomed t j → t.data.locked = true ∨ ∃ j, phase (t.ctl j) = .wake) : LockInv pid t := by
  have hphase : ∀ j ≠ i, phase (t.ctl j) = phase (s.ctl j) := fun j hj => by rw [(ho j hj).ctl]
  refine ⟨hok,hr,fun j => ?_,fun j hj => ?_,fun j j' hj hj' => ?_,fun j hj => ?_,fun j hj => ?_,hdoom⟩
  · by_cases hji : j = i
    · subst hji
      exact hheld
    · rw [hphase j hji, (ho j hji).held]
      exact h.held j
  · by_cases hji : j = i
    · subst hji
      exact hself hj
    · rw [hphase j hji] at hj
      rw [(howner j hji hj).1]
      exact h.owner j hj
  · by_cases hji : j = i
    · by_cases hji' : j' = i
      · exact hji.trans hji'.symm
      · rw [hphase j' hji'] at hj'
        rw [hji, (howner j' hji' hj').2] at hj
        cases hj
    · rw [hphase j hji] at hj
      by_cases hji' : j' = i
      · rw [hji', (howner j hji hj).2] at hj'
        cases hj'
      · rw [hphase j' hji'] at hj'
        exact h.only j j' hj hj'
  · by_cases hji : j = i
    · subst hji
      exact hset hj
    · rw [hphase j hji] at hj
      rw [hdata j hji (by rw [hj]; rfl)]
      exact h.set j hj
  · by_cases hji : j = i
    · subst hji
      exact habout hj
    · rw [hphase j hji] at hj
      rw [hdata j hji (by rw [hj]; rfl)]
      exact h.about j hj

/-- A process other than the one that takes the step is asleep for the reason it was. -/
theorem LockInv.doomed_other (h : LockInv pid s) (ho : ∀ j ≠ i, Others s t j) (hp : phase (s.ctl i) ≠ .wake)
    (hd : t.data = s.data) (hj : j ≠ i) (hdoom : Doomed t j) :
    t.data.locked = true ∨ ∃ j, phase (t.ctl j) = .wake := by
  rcases h.doomed j (hdoom.others (ho j hj)) with h1 | ⟨j',hj'⟩
  · exact .inl (by rw [hd]; exact h1)
  · have hne : j' ≠ i := by
      rintro rfl
      exact hp hj'
    exact .inr ⟨j',by rw [(ho j' hne).ctl]; exact hj'⟩

theorem LockInv.step_turn (h : LockInv pid s) (hok : ∀ i, ProcOk t i) (hr : ∀ i, Returns (t.ctl i))
    (ho : ∀ j ≠ i, Others s t j) (hturn : Turn pid s t i) : LockInv pid t := by
  -- another process does not own the lock while this one does
  have halone : (phase (s.ctl i)).owns = true → ∀ j ≠ i, (phase (s.ctl j)).owns ≠ true :=
    fun hi j hj hc => hj (h.only j i hc hi)
  have hnot : ∀ j, phase (t.ctl i) ≠ .marked → Doomed t j → j ≠ i := by
    rintro j hp hdoom rfl
    exact hp hdoom.1
  cases hturn with
  | same hp hd hl hdoom =>
    refine h.keep hok hr (fun j => ?_) hd hl fun j hj => ?_
    · by_cases hji : j = i
      · rw [hji, hp]
      · rw [(ho j hji).ctl]
    · by_cases hji : j = i
      · subst hji
        exact hdoom hj
      · exact hj.others (ho j hji)
  | take hp hd hs hl =>
    simp only [List.mem_cons, Prod.mk.injEq, List.not_mem_nil, or_false] at hp
    rcases hp with ⟨hp,hp'⟩ | ⟨hp,hp'⟩ | ⟨hp,hp'⟩
    · refine h.turn hok hr ho (by simp [hp',hl,Phase.holds]) (fun j _ _ => ⟨hd,by rw [hp']; rfl⟩)
        (by simp [hp',Phase.owns]) (fun j _ _ => by rw [hd]) (by simp [hp']) (by simp [hp']) fun j hj => ?_
      exact h.doomed_other ho (by simp [hp]) hd (hnot j (by simp [hp']) hj) hj
    · refine h.turn hok hr ho (by simp [hp',hl,Phase.holds]) (fun j _ _ => ⟨hd,by rw [hp']; rfl⟩)
        (by simp [hp',Phase.owns]) (fun j _ _ => by rw [hd]) (by simp [hp']) (by simp [hp']) fun j hj => ?_
      exact h.doomed_other ho (by simp [hp]) hd (hnot j (by simp [hp']) hj) hj
    · have hown : (phase (s.ctl i)).owns = true := by rw [hp]; rfl
      refine h.turn hok hr ho (by simp [hp',hl,Phase.holds]) (fun j hj hc => absurd hc (halone hown j hj))
        (fun _ => by rw [hd]; exact h.owner i hown) (fun j _ _ => by rw [hd]) (by simp [hp']) (by simp [hp'])
        fun j hj => ?_
      exact h.doomed_other ho (by simp [hp]) hd (hnot j (by simp [hp']) hj) hj
  | drop hp hd hl =>
    simp only [List.mem_cons, Prod.mk.injEq, List.not_mem_nil, or_false] at hp
    rcases hp with ⟨hp,hp'⟩ | ⟨hp,hp'⟩ | ⟨hp,hp'⟩
    · refine h.turn hok hr ho (by simp [hp',hl,Phase.holds]) (fun j _ _ => ⟨hd,by rw [hp']; rfl⟩)
        (by simp [hp',Phase.owns]) (fun j _ _ => by rw [hd]) (by simp [hp']) (by simp [hp']) fun j hj => ?_
      -- it saw the lock taken while it had the spinlock
      by_cases hji : j = i
      · exact .inl (by rw [hd]; exact h.about i hp)
      · exact h.doomed_other ho (by simp [hp]) hd hji hj
    · have hown : (phase (s.ctl i)).owns = true := by rw [hp]; rfl
      refine h.turn hok hr ho (by simp [hp',hl,Phase.holds]) (fun j hj hc => absurd hc (halone hown j hj))
        (fun _ => by rw [hd]; exact h.owner i hown) (fun j _ _ => by rw [hd]) (by simp [hp']) (by simp [hp'])
        fun j hj => ?_
      exact h.doomed_other ho (by simp [hp]) hd (hnot j (by simp [hp']) hj) hj
    · refine h.turn hok hr ho (by simp [hp',hl,Phase.holds]) (fun j _ _ => ⟨hd,by rw [hp']; rfl⟩)
        (by simp [hp',Phase.owns]) (fun j _ _ => by rw [hd]) (by simp [hp']) (by simp [hp']) fun j hj => ?_
      exact h.doomed_other ho (by simp [hp]) hd (hnot j (by simp [hp']) hj) hj
  | test hp hp' hd hl =>
    have hheld := (h.held i).mp (by rw [hp]; rfl)
    cases hlocked : s.data.locked with
    | true =>
      rw [hlocked, if_pos rfl] at hp'
      refine h.turn hok hr ho (by simp [hp',hl,hheld,Phase.holds]) (fun j _ _ => ⟨hd,by rw [hp']; rfl⟩)
        (by simp [hp',Phase.owns]) (fun j _ _ => by rw [hd]) (by simp [hp'])
        (fun _ => by rw [hd, hlocked]) fun j hj => .inl (by rw [hd, hlocked])
    | false =>
      rw [hlocked, if_neg (by simp)] at hp'
      refine h.turn hok hr ho (by simp [hp',hl,hheld,Phase.holds]) (fun j _ _ => ⟨hd,by rw [hp']; rfl⟩)
        (by simp [hp',Phase.owns]) (fun j _ _ => by rw [hd]) (fun _ => by rw [hd, hlocked]) (by simp [hp'])
        fun j hj => ?_
      exact h.doomed_other ho (by simp [hp]) hd (hnot j (by simp [hp']) hj) hj
  | set hp hp' hd hl =>
    have hheld := (h.held i).mp (by rw [hp]; rfl)
    refine h.turn hok hr ho (by simp [hp',hl,hheld,Phase.holds]) (fun j hj hc => ?_) (fun _ => hd)
      (fun j hj hc => absurd (h.holds_unique (by rw [hp]; rfl) hc) hj) (by simp [hp']) (by simp [hp'])
      fun j hj => .inl (by rw [hd])
    have hfree := h.set i hp
    rw [h.owner j hc] at hfree
    cases hfree
  | clear hp hp' hd hl =>
    have hheld := (h.held i).mp (by rw [hp]; rfl)
    exact h.turn hok hr ho (by simp [hp',hl,hheld,Phase.holds])
      (fun j hj hc => absurd hc (halone (by rw [hp]; rfl) j hj)) (by simp [hp',Phase.owns])
      (fun j hj hc => absurd (h.holds_unique (by rw [hp]; rfl) hc) hj) (by simp [hp']) (by simp [hp'])
      fun j hj => .inr ⟨i,hp'⟩
  | wake hp hp' hd hl hdoom =>
    have hheld := (h.held i).mp (by rw [hp]; rfl)
    exact h.turn hok hr ho (by simp [hp',hl,hheld,Phase.holds]) (fun j _ _ => ⟨hd,by rw [hp']; rfl⟩)
      (by simp [hp',Phase.owns]) (fun j _ _ => by rw [hd]) (by simp [hp']) (by simp [hp'])
      fun j hj => absurd hj (hdoom j)
  | back hp hp' hd hl =>
    have hheld : s.held (.lk ()) ≠ some (.proc i) := fun hc => by
      have := (h.held i).mpr hc
      rw [hp] at this
      cases this
    refine h.turn hok hr ho (by simp [hp',hl,hheld,Phase.holds]) (fun j _ _ => ⟨hd,by rw [hp']; rfl⟩)
      (by simp [hp',Phase.owns]) (fun j _ _ => by rw [hd]) (by simp [hp']) (by simp [hp']) fun j hj => ?_
    exact h.doomed_other ho (by simp [hp]) hd (hnot j (by simp [hp']) hj) hj

theorem LockInv.step (h : LockInv pid s) (hstep : step (code pid) s a = some t) : LockInv pid t := by
  have hok := step_ok h.ok hstep
  rcases turn_step h.ok h.returns hstep with ⟨ha,hd,hl⟩ | ⟨i,ha,hturn,hret⟩
  · have ho : ∀ j, Others s t j := fun j => step_others h.ok hstep (by rw [ha]; simp)
    exact h.keep hok (fun j => by rw [(ho j).ctl]; exact h.returns j) (fun j => by rw [(ho j).ctl]) hd hl
      fun j hj => hj.others (ho j)
  · have ho : ∀ j ≠ i, Others s t j := fun j hj => step_others h.ok hstep (by
      rw [ha]
      rintro ⟨rfl⟩
      exact hj rfl)
    refine h.step_turn hok (fun j => ?_) ho hturn
    by_cases hj : j = i
    · rw [hj]
      exact hret
    · rw [(ho j hj).ctl]
      exact h.returns j

theorem reached_lockInv (h : LockReached pid s) : LockInv pid s := by
  refine h.invariant (I := LockInv pid) (fun s hs => ?_) fun s a t hs hstep => hs.step hstep
  have hreached : LockReached pid s := .base hs
  have hok := reached_ok hreached
  obtain ⟨-,hheld,-,hctl⟩ := hs
  refine ⟨hok,fun i => ?_,fun i => ?_,fun i hi => ?_,fun i j hi => ?_,fun i hi => ?_,fun i hi => ?_,fun i hi => ?_⟩
  · simp [hctl,Returns]
  · simp [hctl,phase,Point.phase,Phase.holds,hheld]
  · simp [hctl,phase,Point.phase,Phase.owns] at hi
  · simp [hctl,phase,Point.phase,Phase.owns] at hi
  · simp [hctl,phase,Point.phase] at hi
  · simp [hctl,phase,Point.phase] at hi
  · simp [Doomed,hctl,phase,Point.phase] at hi

/-! ## The law of sleep-locks -/

theorem LockInv.owns_of_holding (h : LockInv pid s) (hi : Holding s i) : (phase (s.ctl i)).owns = true := by
  have hr := h.returns i
  unfold Holding at hi
  cases hc : s.ctl i <;> rw [hc] at hi hr <;> simp only [point] at hi <;> rw [hi] at hr
  case enter job l => cases job <;> simp_all [phase,Point.phase,Phase.owns,Returns]
  case inside job l => cases job <;> simp_all [phase,Point.phase,Phase.owns,Returns]
  all_goals simp_all [phase,Point.phase,Phase.owns,Returns]

theorem LockInv.sleeping_doomed (h : LockInv pid s) (hi : s.state i = .sleeping) : Doomed s i := by
  have hok := h.ok i
  unfold ProcOk at hok
  refine ⟨?_,by rw [hi]; simp⟩
  cases hc : s.ctl i <;> rw [hc] at hok <;> simp_all [phase]

/-- The sleep-lock excludes, it names its holder, and no process sleeps on it while it is free and
no spinlock is held. For any code of the processes, no wakeup by a process that holds the lock
passed to `sleep` is missed. -/
theorem sleep_and_wakeup :
    (∀ (P : Type) [DecidableEq P] (pid : P → ℕ) (s : State P), LockReached pid s →
      (∀ i j, Holding s i → Holding s j → i = j) ∧
      (∀ i, Holding s i → s.data.locked = true ∧ s.data.pid = pid i) ∧
      (s.held (.lk ()) = none → s.held .ptable = none →
        ∀ i, s.state i = .sleeping → s.chan i = some () → s.data.locked = true)) ∧
    ∀ (P K C D L : Type) [DecidableEq P] [DecidableEq K] [DecidableEq C] (code : Code P K C D L) (d : D) (l : L)
      (s t u : Sys P K C D L) (i j : P) (c : C) (k : Lock K), Reached code d l s → Wakes code s i c →
      s.held k = some (.proc i) → step code s (.run i) = some t → (s.ctl j).Sleeps c k →
      Leads (Without code j k) t u → u.state j ≠ .sleeping := by
  refine ⟨fun P _ pid s hs => ?_,fun P K C D L _ _ _ code d l s t u i j c k hs hw hk ht hj hu => ?_⟩
  · have h := reached_lockInv hs
    refine ⟨fun i j hi hj => h.only i j (h.owns_of_holding hi) (h.owns_of_holding hj),fun i hi => ?_,
      fun hl _ i hi _ => ?_⟩
    · rw [h.owner i (h.owns_of_holding hi)]
      exact ⟨rfl,rfl⟩
    · refine (h.doomed i (h.sleeping_doomed hi)).resolve_right ?_
      rintro ⟨j,hj⟩
      have hheld := (h.held j).mp (by rw [hj]; rfl)
      rw [hl] at hheld
      cases hheld
  · exact not_asleep_of_wakes hs hw hk ht hj hu

/-- Two processes, of which one takes the lock and the other goes to sleep on it. -/
def contend : List (Act Bool) :=
  [.run true,.run true,.run true,.run true,.run false,.run false,.run false,.run false,.run false,.run false,
    .schedRelease]

def fresh : State Bool :=
  ⟨⟨false,0⟩,fun _ => none,fun _ => .running,fun _ => none,fun _ => false,fun _ => .user .idle⟩

theorem contend_sleeps : ∃ s : State Bool, LockReached Bool.toNat s ∧ Holding s true ∧
    s.state false = .sleeping ∧ s.data.locked = true ∧ s.data.pid = 1 := by
  have hrun : ∃ s, contend.foldlM (step (code Bool.toNat)) fresh = some s ∧ Holding s true ∧
      s.state false = .sleeping := ⟨_,rfl,rfl,rfl⟩
  obtain ⟨s,hs,hold,hsleep⟩ := hrun
  have hreach : LockReached Bool.toNat s :=
    Reachable.foldlM contend (.base ⟨rfl,fun _ => rfl,fun _ => rfl,fun _ => rfl⟩) hs
  have hlaw := (sleep_and_wakeup.1 Bool Bool.toNat s hreach).2.1 true hold
  exact ⟨s,hreach,hold,hsleep,hlaw.1,hlaw.2⟩

end X86OsDev.Xv6.SleepLock
