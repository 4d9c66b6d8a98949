import X86OsDev.Xv6.Scheduler

/-! # The lock and the processors

Which points of the code hold `ptable.lock`, what a processor has as its process while it executes
a stack, and how the steps keep it. The state of the process and the stack change at different
points under the lock, so there are states between.
-/
set_option linter.unusedSectionVars false

namespace X86OsDev.Xv6.Scheduler
open Transition Ptable

variable {C A : Type*}

/-- The points where `ptable.lock` is held. -/
def Call.locked : Call C → Bool
  | .allocScan .. | .allocRelease .. | .forkState .. | .forkRelease => true
  | .exitWake .. | .exitScan .. | .exitState .. | .exitDead => true
  | .waitScan .. | .waitFree .. | .waitClear .. | .waitReap .. | .waitRelease => true
  | .killScan .. | .killState .. | .killRelease | .forkret => true
  | .schedulerScan .. | .schedulerRun .. | .schedulerSwtch .. | .schedulerBack .. | .schedulerRelease .. => true
  | _ => false

def Frame.locked : Frame → Bool
  | .yieldAcquire | .sleepAcquire .. | .wakeupAcquire .. => false
  | .sleepStart _ own => own
  | _ => true

/-- The calls that only look for sleeping processes. -/
def Frame.wakes : Frame → Bool
  | .wakeupAcquire .. | .wakeup1 .. | .wakeupRelease => true
  | _ => false

/-- The points that a `swtch` to the stack comes to. -/
def Frame.resumes : Frame → Bool
  | .yieldRelease | .sleepTidy .. => true
  | _ => false

def Call.resumes : Call C → Bool
  | .exitDead | .forkret => true
  | _ => false

namespace Thread

def locked (t : Thread C) : Bool :=
  match t.above with
  | [] => t.call.locked
  | f :: _ => f.locked

def resumes (t : Thread C) : Bool :=
  match t.above with
  | [] => t.call.resumes
  | f :: _ => f.resumes

/-- The state of the process is set, and the `swtch` to the scheduler comes next. -/
def leaving (t : Thread C) : Bool := t.above.head? = some .sched

end Thread

/-- Where a call is made from. -/
def Frame.Above (call : Call C) (rest : List Frame) : Frame → Prop
  | .sched => (Thread.mk call rest).resumes = true
  | .wakeup1 .. => rest.head? = some .wakeupRelease ∨ (rest = [] ∧ ∃ cur i, call = .exitScan cur i)
  | .sleepStart _ true | .sleepChan _ _ true | .sleepState _ true | .sleepTidy _ true =>
    rest = [] ∧ ∃ cur i k, call = .waitScan cur i k
  | _ => (Thread.mk call rest).locked = false

def Nested (call : Call C) : List Frame → Prop
  | [] => True
  | f :: rest => f.Above call rest ∧ Nested call rest

theorem Frame.locked_of_resumes {f : Frame} (h : f.resumes = true) : f.locked = true := by
  cases f <;> first | rfl | cases h

theorem Thread.locked_of_resumes {t : Thread C} (h : t.resumes = true) : t.locked = true := by
  obtain ⟨call,above⟩ := t
  cases above with
  | nil => cases call <;> first | rfl | cases h
  | cons f rest => exact Frame.locked_of_resumes h

theorem Thread.not_leaving_of_resumes {t : Thread C} (h : t.resumes = true) : t.leaving = false := by
  obtain ⟨call,above⟩ := t
  cases above with
  | nil => rfl
  | cons f rest => cases f <;> first | rfl | cases h

theorem Thread.locked_of_leaving {t : Thread C} (h : t.leaving = true) : t.locked = true := by
  obtain ⟨call,above⟩ := t
  cases above with
  | nil => cases h
  | cons f rest =>
    cases Option.some_inj.mp (of_decide_eq_true h)
    rfl

/-- Where no call is made from under the lock, none is on top. -/
theorem nested_nil {call : Call C} {above : List Frame} (h : Nested call above) (hl : call.locked = true)
    (hr : call.resumes = false) (he : ∀ cur i, call ≠ .exitScan cur i) (hw : ∀ cur i k, call ≠ .waitScan cur i k) :
    above = [] := by
  induction above with
  | nil => rfl
  | cons f rest ih =>
    cases ih h.2
    have htop := h.1
    unfold Frame.Above at htop
    split at htop
    · exact absurd (hr.symm.trans htop) nofun
    · obtain hn | ⟨-,cur,i,hc⟩ := htop
      · cases hn
      · exact absurd hc (he cur i)
    iterate 4
      · obtain ⟨-,cur,i,k,hc⟩ := htop
        exact absurd hc (hw cur i k)
    · exact absurd (hl.symm.trans htop) nofun

/-- A state that a process has when it gives its processor up. -/
def Left (st : ProcState) : Prop := st ≠ .unused ∧ st ≠ .embryo ∧ st ≠ .running

section
variable (s : Sys C A)

/-- What a processor on its boot stack has as its process. -/
def BootCall (c : C) : Call C → Prop
  | .schedulerStart me | .schedulerLoop me | .schedulerAcquire me | .schedulerScan me _ | .schedulerRelease me =>
    me = c ∧ s.proc c = none
  | .schedulerRun me p => me = c ∧ s.proc c = some p ∧ s.state p = .runnable
  | .schedulerSwtch me p => me = c ∧ s.proc c = some p ∧ s.state p = .running
  | .schedulerBack me p => me = c ∧ s.proc c = some p ∧ Left (s.state p)
  | _ => False

structure BootOk (c : C) (t : Thread C) : Prop where
  call : BootCall s c t.call
  above : ∀ f ∈ t.above, f.wakes = true

/-- A processor executes the kernel stack of its process, and the scheduler waits for it. -/
structure Runs (c : C) (p : Fin nproc) (a : A) : Prop where
  proc : s.proc c = some p
  kstack : s.kstack p = some a
  scheduler : s.scheduler c = some (.boot c)
  back : s.code (.boot c) = ⟨.schedulerBack c p,[]⟩
  state : if (s.code (.page a)).leaving = true then Left (s.state p) else s.state p = .running

/-- The law of the lock and of the processors. -/
structure CpuInv : Prop where
  lock : ∀ c, s.lock = some c ↔ (s.thread c).locked = true
  nested : ∀ S, Nested (s.code S).call (s.code S).above
  boot : ∀ c c', s.on c = .boot c' → c' = c ∧ BootOk s c (s.code (.boot c))
  page : ∀ c a, s.on c = .page a → ∃ p, Runs s c p a
  one : ∀ c c', s.on c = s.on c' → c = c'
  alone : ∀ c c' p, s.proc c = some p → s.proc c' = some p → c = c'
  running : ∀ p, s.state p = .running → ∃ c, s.proc c = some p

end

variable {s : Sys C A} {c c' : C} {p : Fin nproc} {a : A}

section Facts

theorem CpuInv.of_not_locked (h : CpuInv s) (hl : s.lock ≠ some c) : (s.thread c).locked = false :=
  Bool.eq_false_iff.mpr fun hc => hl ((h.lock c).mpr hc)

theorem Runs.running (h : Runs s c p a) (hl : (s.code (.page a)).leaving = false) : s.state p = .running := by
  have hst := h.state
  rwa [hl, if_neg Bool.false_ne_true] at hst

theorem Runs.left (h : Runs s c p a) (hl : (s.code (.page a)).leaving = true) : Left (s.state p) := by
  have hst := h.state
  rwa [if_pos hl] at hst

/-- A processor has a process on its boot stack in the middle of a loop body of `scheduler` only. -/
theorem BootCall.proc_cases {k : Call C} (h : BootCall s c k) : s.proc c = none ∨ ∃ p, s.proc c = some p ∧
    (k = .schedulerRun c p ∧ s.state p = .runnable ∨ k = .schedulerSwtch c p ∧ s.state p = .running ∨
      k = .schedulerBack c p ∧ Left (s.state p)) := by
  unfold BootCall at h
  split at h
  case h_6 =>
    obtain ⟨rfl,hp,hst⟩ := h
    exact .inr ⟨_,hp,.inl ⟨rfl,hst⟩⟩
  case h_7 =>
    obtain ⟨rfl,hp,hst⟩ := h
    exact .inr ⟨_,hp,.inr (.inl ⟨rfl,hst⟩)⟩
  case h_8 =>
    obtain ⟨rfl,hp,hst⟩ := h
    exact .inr ⟨_,hp,.inr (.inr ⟨rfl,hst⟩)⟩
  case h_9 => exact h.elim
  all_goals exact .inl h.2

/-- A scheduler with a process holds the lock. -/
theorem CpuInv.boot_lock (h : CpuInv s) (hc : s.on c = .boot c) (hp : s.proc c = some p) :
    s.lock = some c ∧ (s.state p = .running ∨ Left (s.state p)) := by
  obtain hn | ⟨q,hq,hst⟩ := (h.boot c c hc).2.call.proc_cases
  · exact absurd (hp.symm.trans hn) nofun
  · cases hp.symm.trans hq
    have hlock {k : Call C} (hk : (s.code (.boot c)).call = k) (hl : k.locked = true) (hr : k.resumes = false)
        (he : ∀ cur i, k ≠ .exitScan cur i) (hw : ∀ cur i n, k ≠ .waitScan cur i n) : s.lock = some c := by
      subst hk
      rw [h.lock, Sys.thread, hc, Thread.locked, nested_nil (h.nested _) hl hr he hw]
      exact hl
    obtain ⟨hk,hst⟩ | ⟨hk,hst⟩ | ⟨hk,hst⟩ := hst
    · exact ⟨hlock hk rfl rfl nofun nofun,.inr (hst ▸ ⟨nofun,nofun,nofun⟩)⟩
    · exact ⟨hlock hk rfl rfl nofun nofun,.inl hst⟩
    · exact ⟨hlock hk rfl rfl nofun nofun,.inr hst⟩

/-- The process of a processor is running, or the processor holds the lock. -/
theorem CpuInv.proc_state (h : CpuInv s) (hp : s.proc c = some p) :
    s.state p = .running ∨ Left (s.state p) ∧ s.lock = some c := by
  cases hc : s.on c with
  | boot b =>
    obtain ⟨rfl,-⟩ := h.boot c b hc
    obtain ⟨hl,hst⟩ := h.boot_lock hc hp
    exact hst.imp_right fun hst => ⟨hst,hl⟩
  | page a =>
    obtain ⟨q,hq⟩ := h.page c a hc
    cases hp.symm.trans hq.proc
    cases hl : (s.code (.page a)).leaving with
    | false => exact .inl (hq.running hl)
    | true =>
      refine .inr ⟨hq.left hl,(h.lock c).mpr ?_⟩
      rw [Sys.thread, hc]
      exact Thread.locked_of_leaving hl

/-- The process of a processor is alive. -/
theorem CpuInv.alive (h : CpuInv s) (hp : s.proc c = some p) : s.state p ≠ .unused ∧ s.state p ≠ .embryo := by
  obtain hst | ⟨hst,-⟩ := h.proc_state hp
  · exact ⟨hst ▸ nofun,hst ▸ nofun⟩
  · exact ⟨hst.1,hst.2.1⟩

end Facts

section SetState
variable {st : ProcState} {q : Fin nproc}

theorem setState_self : (s.setState p st).state p = st := by
  simp [Sys.state, Sys.setState, Sys.setProc]

theorem setState_of_ne (h : q ≠ p) : (s.setState p st).state q = s.state q := by
  simp [Sys.state, Sys.setState, Sys.setProc, Table.set_of_ne _ _ h]

theorem embryo_self : (s.embryo p).state p = .embryo := by
  simp [Sys.state, Sys.embryo]

theorem embryo_of_ne (h : q ≠ p) : (s.embryo p).state q = s.state q := by
  simp [Sys.state, Sys.embryo, Table.set_of_ne _ _ h]

end SetState

variable [DecidableEq C] [DecidableEq A] {s' : Sys C A}

section Put
variable {t : Thread C} {S : Stack C A}

theorem put_code_self : (s.put c t).code (s.on c) = t := Function.update_self ..

theorem put_code_of_ne (h : S ≠ s.on c) : (s.put c t).code S = s.code S := Function.update_of_ne h ..

/-- The scheduler of a processor that executes another stack stays where it is. -/
theorem CpuInv.put_boot (h : CpuInv s) (hc : s.on c' = .page a) : (s.put c t).code (.boot c') = s.code (.boot c') := by
  refine put_code_of_ne fun hon => ?_
  obtain ⟨rfl,-⟩ := h.boot c c' hon.symm
  cases hc.symm.trans hon.symm

end Put

theorem Runs.congr (h : Runs s c p a) (hproc : s'.proc c = s.proc c) (hkstack : s'.kstack p = s.kstack p)
    (hscheduler : s'.scheduler c = s.scheduler c) (hback : s'.code (.boot c) = s.code (.boot c))
    (hleaving : (s'.code (.page a)).leaving = (s.code (.page a)).leaving) (hstate : s'.state p = s.state p) :
    Runs s' c p a where
  proc := hproc.trans h.proc
  kstack := hkstack.trans h.kstack
  scheduler := hscheduler.trans h.scheduler
  back := hback.trans h.back
  state := by
    rw [hleaving, hstate]
    exact h.state

/-- A step of another processor does not touch what this one executes. -/
structure Untouched (s s' : Sys C A) (b : C) : Prop where
  on : s'.on b = s.on b
  proc : s'.proc b = s.proc b
  scheduler : s'.scheduler b = s.scheduler b
  code : s'.code (s.on b) = s.code (s.on b)
  boot : s'.code (.boot b) = s.code (.boot b)
  slot : ∀ q, s.proc b = some q → s'.state q = s.state q ∧ s'.kstack q = s.kstack q

theorem Untouched.bootOk {t : Thread C} (hu : Untouched s s' c) (h : BootOk s c t) : BootOk s' c t := by
  refine ⟨?_,h.above⟩
  have hcall := h.call
  unfold BootCall at hcall ⊢
  rw [hu.proc]
  split at hcall
  case h_6 =>
    obtain ⟨hme,hq,hst⟩ := hcall
    exact ⟨hme,hq,(hu.slot _ hq).1.trans hst⟩
  case h_7 =>
    obtain ⟨hme,hq,hst⟩ := hcall
    exact ⟨hme,hq,(hu.slot _ hq).1.trans hst⟩
  case h_8 =>
    obtain ⟨hme,hq,hst⟩ := hcall
    exact ⟨hme,hq,(hu.slot _ hq).1 ▸ hst⟩
  all_goals exact hcall

/-- A change to nothing that the processors and their stacks are about. -/
theorem CpuInv.same (h : CpuInv s) (hlock : s'.lock = s.lock) (hon : s'.on = s.on) (hproc : s'.proc = s.proc)
    (hscheduler : s'.scheduler = s.scheduler) (hcode : s'.code = s.code) (hkstack : s'.kstack = s.kstack)
    (hstate : ∀ q, s'.state q = s.state q) : CpuInv s' := by
  have hu (b : C) : Untouched s s' b :=
    ⟨by rw [hon],by rw [hproc],by rw [hscheduler],by rw [hcode],by rw [hcode],fun q _ => ⟨hstate q,by rw [hkstack]⟩⟩
  constructor
  · intro b
    rw [hlock, h.lock, Sys.thread, Sys.thread, hon, hcode]
  · exact hcode ▸ h.nested
  · intro b b' hb
    obtain ⟨rfl,hok⟩ := h.boot b b' (hon ▸ hb)
    exact ⟨rfl,hcode ▸ (hu b').bootOk hok⟩
  · intro b a hb
    obtain ⟨p,hp⟩ := h.page b a (hon ▸ hb)
    exact ⟨p,hp.congr (hu b).proc (by rw [hkstack]) (hu b).scheduler (hu b).boot (by rw [hcode]) (hstate p)⟩
  · exact hon ▸ h.one
  · exact hproc ▸ h.alone
  · intro p hp
    rw [hproc]
    exact h.running p ((hstate p).symm.trans hp)

/-- What a processor executes after its step: its own boot stack, or the stack of its process. -/
def Executes (s : Sys C A) (c : C) : Prop :=
  s.on c = .boot c ∧ BootOk s c (s.code (.boot c)) ∨ ∃ a p, s.on c = .page a ∧ Runs s c p a

/-- A step of one processor. -/
theorem CpuInv.turn (h : CpuInv s) (hlock : s'.lock = some c ↔ (s'.thread c).locked = true)
    (hother : ∀ b, b ≠ c → (s'.lock = some b ↔ s.lock = some b)) (hkeep : ∀ b, b ≠ c → Untouched s s' b)
    (hnest : ∀ S, Nested (s'.code S).call (s'.code S).above) (hc : Executes s' c) (hone : ∀ b, b ≠ c → s.on b ≠ s'.on c)
    (halone : ∀ b p, b ≠ c → s.proc b = some p → s'.proc c ≠ some p)
    (hrun : ∀ p, s'.state p = .running → s'.proc c = some p ∨ s.state p = .running ∧ s.proc c ≠ some p) :
    CpuInv s' where
  lock b := by
    by_cases hb : b = c
    · exact hb ▸ hlock
    · have hu := hkeep b hb
      rw [hother b hb, h.lock, Sys.thread, Sys.thread, hu.on, hu.code]
  nested := hnest
  boot b b' hon := by
    by_cases hb : b = c
    · subst hb
      obtain ⟨hboot,hok⟩ | ⟨a,p,ha,-⟩ := hc
      · cases hon.symm.trans hboot
        exact ⟨rfl,hok⟩
      · cases hon.symm.trans ha
    · have hu := hkeep b hb
      obtain ⟨rfl,hok⟩ := h.boot b b' (hu.on.symm.trans hon)
      exact ⟨rfl,hu.boot ▸ hu.bootOk hok⟩
  page b a hon := by
    by_cases hb : b = c
    · subst hb
      obtain ⟨hboot,-⟩ | ⟨a',p,ha,hp⟩ := hc
      · cases hon.symm.trans hboot
      · cases hon.symm.trans ha
        exact ⟨p,hp⟩
    · have hu := hkeep b hb
      have hon' : s.on b = .page a := hu.on.symm.trans hon
      obtain ⟨p,hp⟩ := h.page b a hon'
      obtain ⟨hst,hk⟩ := hu.slot p hp.proc
      exact ⟨p,hp.congr hu.proc hk hu.scheduler hu.boot (congrArg Thread.leaving (hon' ▸ hu.code)) hst⟩
  one b b' hon := by
    by_cases hb : b = c
    · by_cases hb' : b' = c
      · exact hb.trans hb'.symm
      · rw [hb, (hkeep b' hb').on] at hon
        exact absurd hon.symm (hone b' hb')
    · rw [(hkeep b hb).on] at hon
      by_cases hb' : b' = c
      · exact absurd (hb' ▸ hon) (hone b hb)
      · rw [(hkeep b' hb').on] at hon
        exact h.one b b' hon
  alone b b' p hp hp' := by
    by_cases hb : b = c
    · by_cases hb' : b' = c
      · exact hb.trans hb'.symm
      · exact absurd (hb ▸ hp) (halone b' p hb' ((hkeep b' hb').proc ▸ hp'))
    · rw [(hkeep b hb).proc] at hp
      by_cases hb' : b' = c
      · exact absurd (hb' ▸ hp') (halone b p hb hp)
      · exact h.alone b b' p hp ((hkeep b' hb').proc ▸ hp')
  running p hp := by
    obtain hpc | ⟨hst,hne⟩ := hrun p hp
    · exact ⟨c,hpc⟩
    · obtain ⟨b,hb⟩ := h.running p hst
      have hbc : b ≠ c := fun he => hne (he ▸ hb)
      exact ⟨b,(hkeep b hbc).proc.trans hb⟩

section Put
variable {t : Thread C} {S : Stack C A} {l : Option C}

/-- Another processor executes another stack, and its scheduler is on another one as well. -/
theorem CpuInv.put_untouched (h : CpuInv s) {b : C} (hb : b ≠ c) (hon : s'.on b = s.on b) (hproc : s'.proc b = s.proc b)
    (hscheduler : s'.scheduler b = s.scheduler b) (hcode : ∀ S, S ≠ s.on c → s'.code S = s.code S)
    (hslot : ∀ q, s.proc b = some q → s'.state q = s.state q ∧ s'.kstack q = s.kstack q) : Untouched s s' b where
  on := hon
  proc := hproc
  scheduler := hscheduler
  code := hcode _ fun he => hb (h.one b c he)
  boot := hcode _ fun he => hb (h.boot c b he.symm).1
  slot := hslot

theorem put_nested (h : ∀ S, Nested (s.code S).call (s.code S).above) (ht : Nested t.call t.above) (S : Stack C A) :
    Nested ((s.put c t).code S).call ((s.put c t).code S).above := by
  by_cases hS : S = s.on c
  · rw [hS, put_code_self]
    exact ht
  · rw [put_code_of_ne hS]
    exact h S

/-- A step of a thread that leaves the table alone, and may take the lock or give it up. -/
theorem CpuInv.move (h : CpuInv s) (hl : l = some c ↔ t.locked = true)
    (hother : ∀ b, b ≠ c → (l = some b ↔ s.lock = some b)) (hnest : Nested t.call t.above)
    (hboot : BootOk s c (s.thread c) → BootOk s c t) (hstay : (s.thread c).leaving = false)
    (hstay' : t.leaving = false) : CpuInv { s.put c t with lock := l } := by
  refine h.turn (c := c) ?_ hother (fun b hb => h.put_untouched hb rfl rfl rfl (fun S hS => put_code_of_ne hS)
    fun q _ => ⟨rfl,rfl⟩) (put_nested h.nested hnest) ?_ (fun b hb he => hb (h.one b c he))
    (fun b p hb hp he => hb (h.alone b c p hp he)) ?_
  · simpa only [Sys.thread, Sys.put, Function.update_self] using hl
  · cases hon : s.on c with
    | boot b =>
      obtain ⟨rfl,hok⟩ := h.boot c b hon
      have hcode : (s.put b t).code (.boot b) = t := hon ▸ put_code_self
      have hok' := hboot (by rwa [Sys.thread, hon])
      rw [← hcode] at hok'
      exact .inl ⟨hon,hok'.call,hok'.above⟩
    | page a =>
      obtain ⟨p,hp⟩ := h.page c a hon
      have hcode : (s.put c t).code (.page a) = t := hon ▸ put_code_self
      refine .inr ⟨a,p,hon,hp.congr rfl rfl rfl (h.put_boot hon) ?_ rfl⟩
      change ((s.put c t).code (.page a)).leaving = _
      rw [hcode, hstay', ← hstay, Sys.thread, hon]
  · intro p hp
    by_cases hpc : s.proc c = some p
    · exact .inl hpc
    · exact .inr ⟨hp,hpc⟩

end Put

/-- A change to a slot that is not running, and to a stack that is not executed. -/
theorem CpuInv.slot (h : CpuInv s) (hlock : s'.lock = s.lock) (hon : s'.on = s.on) (hproc : s'.proc = s.proc)
    (hscheduler : s'.scheduler = s.scheduler) (hcode : ∀ c, s'.code (s.on c) = s.code (s.on c))
    (hboot : ∀ c, s'.code (.boot c) = s.code (.boot c)) (hnest : ∀ S, Nested (s'.code S).call (s'.code S).above)
    (hstate : ∀ q, q ≠ p → s'.state q = s.state q) (hkstack : ∀ q, q ≠ p → s'.kstack q = s.kstack q)
    (hrun : s.state p ≠ .running) (hrun' : s'.state p ≠ .running)
    (hp : ∀ c, s.proc c = some p → s'.kstack p = s.kstack p ∧ s.state p ≠ .runnable ∧ Left (s'.state p)) :
    CpuInv s' where
  lock c := by
    rw [hlock, h.lock, Sys.thread, Sys.thread, hon, hcode]
  nested := hnest
  boot b b' hb := by
    rw [hon] at hb
    obtain ⟨rfl,hok⟩ := h.boot b b' hb
    rw [hboot]
    refine ⟨rfl,?_,hok.above⟩
    have hcall := hok.call
    unfold BootCall at hcall ⊢
    rw [hproc]
    split at hcall
    case h_6 me q _ =>
      obtain ⟨hme,hq,hst⟩ := hcall
      have hne : q ≠ p := fun he => (hp b' (he ▸ hq)).2.1 (he ▸ hst)
      exact ⟨hme,hq,(hstate q hne).trans hst⟩
    case h_7 me q _ =>
      obtain ⟨hme,hq,hst⟩ := hcall
      exact ⟨hme,hq,(hstate q fun he => hrun (he ▸ hst)).trans hst⟩
    case h_8 me q _ =>
      obtain ⟨hme,hq,hst⟩ := hcall
      refine ⟨hme,hq,?_⟩
      by_cases he : q = p
      · exact he ▸ (hp b' (he ▸ hq)).2.2
      · exact hstate q he ▸ hst
    all_goals exact hcall
  page b a hb := by
    rw [hon] at hb
    obtain ⟨q,hq⟩ := h.page b a hb
    have hpage : s'.code (.page a) = s.code (.page a) := hb ▸ hcode b
    by_cases he : q = p
    · subst he
      obtain ⟨hk,-,hleft⟩ := hp b hq.proc
      refine ⟨q,⟨hproc ▸ hq.proc,hk.trans hq.kstack,hscheduler ▸ hq.scheduler,(hboot b).trans hq.back,?_⟩⟩
      have hst := hq.state
      rw [hpage]
      split at hst
      · rwa [if_pos ‹_›]
      · exact absurd hst hrun
    · exact ⟨q,hq.congr (congrFun hproc b) (hkstack q he) (congrFun hscheduler b) (hboot b)
        (congrArg Thread.leaving hpage) (hstate q he)⟩
  one b b' hb := h.one b b' (by rwa [hon] at hb)
  alone b b' q := by
    rw [hproc]
    exact h.alone b b' q
  running q hq := by
    have hne : q ≠ p := fun he => hrun' (he ▸ hq)
    rw [hproc]
    exact h.running q (hstate q hne ▸ hq)

section Switch
variable {t : Thread C} {st : ProcState}

/-- The state of the process is set, and its `sched` comes next. -/
theorem CpuInv.depart (h : CpuInv s) (hon : s.on c = .page a) (hr : Runs s c p a) (hl : (s.thread c).locked = true)
    (hst : Left st) (ht : t.leaving = true) (hnest : Nested t.call t.above) : CpuInv ((s.setState p st).put c t) := by
  have hcode : ((s.setState p st).put c t).code (.page a) = t := hon ▸ put_code_self
  refine h.turn (c := c) ?_ (fun _ _ => Iff.rfl) (fun b hb => h.put_untouched hb rfl rfl rfl
    (fun S hS => put_code_of_ne hS) fun q hq => ⟨setState_of_ne fun he => ?_,rfl⟩)
    (put_nested (s := s.setState p st) h.nested hnest) (.inr ⟨a,p,hon,?_⟩)
    (fun b hb he => hb (h.one b c he)) (fun b q hb hq he => hb (h.alone b c q hq he)) fun q hq => ?_
  · change s.lock = some c ↔ (((s.setState p st).put c t).code (s.on c)).locked = true
    rw [h.lock, hon, hcode]
    exact iff_of_true hl (Thread.locked_of_leaving ht)
  · exact hb (h.alone b c q hq (he ▸ hr.proc))
  · refine ⟨hr.proc,hr.kstack,hr.scheduler,(h.put_boot hon).trans hr.back,?_⟩
    rw [hcode, if_pos ht]
    change Left ((s.setState p st).state p)
    rwa [setState_self]
  · have hne : q ≠ p := by
      rintro rfl
      exact hst.2.2 (setState_self.symm.trans hq)
    refine .inr ⟨(setState_of_ne hne).symm.trans hq,fun he => hne ?_⟩
    exact Option.some_inj.mp (Eq.trans (Eq.symm he) hr.proc)

/-- `swtch` to the scheduler. -/
theorem CpuInv.leave (h : CpuInv s) (hon : s.on c = .page a) (hr : Runs s c p a) {call : Call C} {rest : List Frame}
    (hth : s.code (.page a) = ⟨call,.sched :: rest⟩) : CpuInv ((s.put c ⟨call,rest⟩).leave c p (.boot c)) := by
  have hleft := hr.left (by rw [hth]; rfl)
  have hnest := h.nested (.page a)
  rw [hth] at hnest
  have hb : (s.put c ⟨call,rest⟩).code (.boot c) = ⟨.schedulerBack c p,[]⟩ := (h.put_boot hon).trans hr.back
  have hnew : ((s.put c ⟨call,rest⟩).leave c p (.boot c)).on c = .boot c := Function.update_self ..
  have hother : ∀ b, b ≠ c → ((s.put c ⟨call,rest⟩).leave c p (.boot c)).on b = s.on b :=
    fun b hb => Function.update_of_ne hb ..
  refine h.turn (c := c) ?_ (fun _ _ => Iff.rfl) (fun b hb => h.put_untouched hb (hother b hb) rfl rfl
    (fun S hS => put_code_of_ne hS) fun q _ => ⟨rfl,rfl⟩) (put_nested h.nested hnest.2) (.inl ⟨hnew,?_,?_⟩)
    (fun b hb he => hb (h.boot b c (he.trans hnew)).1.symm)
    (fun b q hb hq he => hb (h.alone b c q hq he)) fun q hq => ?_
  · change s.lock = some c ↔
      ((s.put c ⟨call,rest⟩).code (((s.put c ⟨call,rest⟩).leave c p (.boot c)).on c)).locked = true
    rw [hnew, hb, h.lock, Sys.thread, hon, hth]
    exact iff_of_true rfl rfl
  · change BootCall _ c ((s.put c ⟨call,rest⟩).code (.boot c)).call
    rw [hb]
    exact ⟨rfl,hr.proc,hleft⟩
  · change ∀ f ∈ ((s.put c ⟨call,rest⟩).code (.boot c)).above, f.wakes = true
    rw [hb]
    exact fun f hf => nomatch hf
  · by_cases hpc : s.proc c = some q
    · exact .inl hpc
    · exact .inr ⟨hq,hpc⟩

/-- `swtch` to the process. -/
theorem CpuInv.resume (h : CpuInv s) (hon : s.on c = .boot c) (hth : s.code (.boot c) = ⟨.schedulerSwtch c p,[]⟩)
    (hk : s.kstack p = some a) (hres : (s.code (.page a)).resumes = true) (hfree : ∀ b, s.on b ≠ .page a) :
    CpuInv ((s.goto c (.schedulerBack c p)).resume c c (.page a)) := by
  obtain ⟨-,hp,hst⟩ : BootCall s c (.schedulerSwtch c p) := by
    have hcall := (h.boot c c hon).2.call
    rwa [hth] at hcall
  have hnew : ((s.goto c (.schedulerBack c p)).resume c c (.page a)).on c = .page a := Function.update_self ..
  have hpage : (s.goto c (.schedulerBack c p)).code (.page a) = s.code (.page a) :=
    put_code_of_ne fun he => hfree c he.symm
  refine h.turn (c := c) ?_ (fun _ _ => Iff.rfl) (fun b hb => h.put_untouched hb (Function.update_of_ne hb ..) rfl
    (Function.update_of_ne hb ..) (fun S hS => put_code_of_ne hS) fun q _ => ⟨rfl,rfl⟩) (put_nested h.nested trivial)
    (.inr ⟨a,p,hnew,?_⟩) (fun b hb he => hfree b (he.trans hnew)) (fun b q hb hq he => hb (h.alone b c q hq he))
    fun q hq => ?_
  · change s.lock = some c ↔ ((s.goto c (.schedulerBack c p)).code
      (((s.goto c (.schedulerBack c p)).resume c c (.page a)).on c)).locked = true
    rw [hnew, hpage, h.lock, Sys.thread, hon, hth]
    exact iff_of_true rfl (Thread.locked_of_resumes hres)
  · refine ⟨hp,hk,(Function.update_self ..).trans (congrArg some hon),?_,?_⟩
    · change (s.put c ⟨.schedulerBack c p,[]⟩).code (.boot c) = _
      rw [← hon]
      exact put_code_self
    · change if ((s.goto c (.schedulerBack c p)).code (.page a)).leaving = true then _ else _
      rw [hpage, Thread.not_leaving_of_resumes hres]
      exact hst
  · by_cases hpc : s.proc c = some q
    · exact .inl hpc
    · exact .inr ⟨hq,hpc⟩

/-- A step of the scheduler, which may change its process and the state of that one. -/
theorem CpuInv.boots (h : CpuInv s) (hon : s.on c = .boot c) {call call' : Call C}
    (hth : s.code (.boot c) = ⟨call,[]⟩) (hlock : s'.lock = s.lock) (hon' : s'.on = s.on)
    (hscheduler : s'.scheduler = s.scheduler) (hcode : s'.code = Function.update s.code (.boot c) ⟨call',[]⟩)
    (hl : call'.locked = call.locked) (hproc : ∀ b, b ≠ c → s'.proc b = s.proc b)
    (hslot : ∀ b q, b ≠ c → s.proc b = some q → s'.state q = s.state q ∧ s'.kstack q = s.kstack q)
    (hcall : BootCall s' c call') (halone : ∀ b p, b ≠ c → s.proc b = some p → s'.proc c ≠ some p)
    (hrun : ∀ p, s'.state p = .running → s'.proc c = some p ∨ s.state p = .running ∧ s.proc c ≠ some p) :
    CpuInv s' := by
  have hself : s'.code (.boot c) = ⟨call',[]⟩ := by rw [hcode, Function.update_self]
  have hne {S : Stack C A} (hS : S ≠ .boot c) : s'.code S = s.code S := by rw [hcode, Function.update_of_ne hS]
  refine h.turn (c := c) ?_ (fun b _ => by rw [hlock]) (fun b hb => h.put_untouched hb (congrFun hon' b) (hproc b hb)
    (congrFun hscheduler b) (fun S hS => hne (hon ▸ hS)) (hslot b · hb)) (fun S => ?_)
    (.inl ⟨(congrFun hon' c).trans hon,?_⟩)
    (fun b hb he => hb (h.one b c (by rwa [hon'] at he))) halone hrun
  · rw [hlock, h.lock, Sys.thread, Sys.thread, hon', hon, hself, hth]
    exact (congrArg (· = true) hl).symm.to_iff
  · by_cases hS : S = .boot c
    · rw [hS, hself]
      trivial
    · rw [hne hS]
      exact h.nested S
  · rw [hself]
    exact ⟨hcall,fun f hf => nomatch hf⟩

end Switch

end X86OsDev.Xv6.Scheduler
