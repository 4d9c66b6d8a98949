import X86OsDev.Xv6.SchedulerStacks
import Mathlib.Tactic.SplitIfs

/-! # The steps of the scheduler

Each point of the code keeps the law of the processors and that of the stacks.
-/
set_option linter.unusedSectionVars false

namespace X86OsDev.Xv6.Scheduler
open Transition Ptable

variable {C A : Type*}

structure Inv (s : Sys C A) : Prop where
  cpu : CpuInv s
  stack : StackInv s

variable {s s' : Sys C A} {c : C} {p : Fin nproc} {a : A}

/-- A thread that clears the slot of a zombie has no call on top. -/
theorem nested_zombie {k : Call C} {above : List Frame} {g : Stage} (h : Nested k above)
    (hk : k.claim = some (p,.zombie,g)) :
    above = [] ∧ k.locked = true ∧ k.resumes = false := by
  have hl : k.locked = true ∧ k.resumes = false ∧ (∀ cur i, k ≠ .exitScan cur i) ∧
      ∀ cur i n, k ≠ .waitScan cur i n := by
    unfold Call.claim at hk
    split at hk
    all_goals first
      | (cases hk; done)
      | (cases hk; exact ⟨rfl,rfl,nofun,nofun⟩)
  exact ⟨nested_nil h hl.1 hl.2.1 hl.2.2.1 hl.2.2.2,hl.1,hl.2.1⟩

/-- A point of a system call and the next, which write no slot of `curproc`. -/
structure Goes (k k' : Call C) : Prop where
  locked : k'.locked = k.locked
  user : k.scheduling = false
  user' : k'.scheduling = false
  owner : k'.owner = none
  dead : k' ≠ .exitDead

theorem BootCall.scheduling {k : Call C} (h : BootCall s c k) : k.scheduling = true := by
  unfold BootCall at h
  split at h
  case h_9 => exact h.elim
  all_goals rfl

theorem Goes.not_boot {k k' : Call C} (hg : Goes k k') {above : List Frame} : ¬ BootOk s c ⟨k,above⟩ :=
  fun h => absurd (hg.user.symm.trans h.call.scheduling) nofun

namespace Inv

theorem claim_boot (h : Inv s) (hon : s.on c = .boot c) : claim s (.boot c) = none := by
  have hcall := (h.cpu.boot c c hon).2.call
  unfold BootCall at hcall
  rw [claim]
  split at hcall
  case h_9 => exact hcall.elim
  all_goals
    rename_i hk
    rw [hk]
    rfl

/-- The process of a processor is in nobody's hands. -/
theorem proc_unclaimed (h : Inv s) (hp : s.proc c = some p) (S : Stack C A) (st : ProcState) (g : Stage) :
    claim s S ≠ some (p,st,g) := by
  intro hc
  have hok := h.stack.claims S p st g hc
  obtain rfl | rfl := Call.claim_state hc
  · exact (h.cpu.alive hp).2 hok.state
  · obtain ⟨b,hb,hl⟩ := hok.lock rfl
    obtain hst | ⟨-,hlc⟩ := h.cpu.proc_state hp
    · exact absurd (hok.state.symm.trans hst) nofun
    · cases Option.some_inj.mp (hl.symm.trans hlc)
      cases hon : s.on c with
      | boot b =>
        obtain ⟨rfl,-⟩ := h.cpu.boot c b hon
        have hnone := h.claim_boot hon
        rw [← hb, hon, hnone] at hc
        cases hc
      | page a =>
        obtain ⟨q,hq⟩ := h.cpu.page c a hon
        cases hp.symm.trans hq.proc
        rw [← hb, hon] at hc
        have hnil := (nested_zombie (h.cpu.nested (.page a)) hc).1
        have hrun := hq.running (by rw [Thread.leaving, hnil]; rfl)
        exact absurd (hok.state.symm.trans hrun) nofun

theorem owns (h : Inv s) (hp : s.proc c = some p) (hk : s.kstack p = some a) : Owns s p a :=
  owns_of_unclaimed hk (h.proc_unclaimed hp)

/-- The owner of an executed stack is the process of the processor. -/
theorem runs_of_owns (h : Inv s) (hon : s.on c = .page a) (ho : Owns s p a) : Runs s c p a := by
  obtain ⟨q,hq⟩ := h.cpu.page c a hon
  cases h.stack.apart p q a ho (h.owns hq.proc hq.kstack)
  exact hq

variable [DecidableEq C] [DecidableEq A] {t : Thread C} {l : Option C}

theorem move (h : Inv s) (hl : l = some c ↔ t.locked = true) (hother : ∀ b, b ≠ c → (l = some b ↔ s.lock = some b))
    (hnest : Nested t.call t.above) (hboot : BootOk s c (s.thread c) → BootOk s c t)
    (hstay : (s.thread c).leaving = false) (hstay' : t.leaving = false) (ht : t.call.claim = (s.thread c).call.claim)
    (hzombie : ∀ p g, t.call.claim = some (p,.zombie,g) → l = some c)
    (hpage : ∀ p a, s.on c = .page a → Runs s c p a → StackOk s p a →
      Mine t p ∧ (t.call = .exitDead ↔ s.state p = .zombie) ∧ s.state p ≠ .embryo) :
    Inv { s.put c t with lock := l } where
  cpu := h.cpu.move hl hother hnest hboot hstay hstay'
  stack := h.stack.move ht hzombie (fun b hb => (hother b hb).mpr) fun p a hon ho hok =>
    hpage p a hon (h.runs_of_owns hon ho) hok

theorem zombie_lock (h : Inv s) {g : Stage} (hc : claim s (s.on c) = some (p,.zombie,g)) : s.lock = some c := by
  obtain ⟨b,hb,hl⟩ := (h.stack.claims _ p _ g hc).lock rfl
  exact h.cpu.one b c hb ▸ hl

section Thread
variable {k k' : Call C} {above above' : List Frame}

/-- A thread goes on, with its local variables and with its process. -/
theorem put (h : Inv s) (hth : s.thread c = ⟨k,above⟩) (hl : l = some c ↔ (Thread.mk k' above').locked = true)
    (hother : ∀ b, b ≠ c → (l = some b ↔ s.lock = some b)) (hnest : Nested k' above')
    (hstay : (Thread.mk k above).leaving = false) (hstay' : (Thread.mk k' above').leaving = false)
    (hboot : BootOk s c ⟨k,above⟩ → BootOk s c ⟨k',above'⟩)
    (hclaim : k'.claim = k.claim) (hzombie : ∀ p g, k.claim = some (p,.zombie,g) → l = some c)
    (huser : k'.scheduling = k.scheduling) (hdead : k' = .exitDead → k = .exitDead)
    (howner : ∀ q, k'.owner = some q → k.owner = some q ∨ s.proc c = some q)
    (hover : ∀ f ∈ above', ∀ q, f.owner = some q → (∃ g ∈ above, g.owner = some q) ∨ s.proc c = some q) :
    Inv { s.put c ⟨k',above'⟩ with lock := l } := by
  refine h.move hl hother hnest (hth ▸ hboot) (hth ▸ hstay) hstay' (hth ▸ hclaim)
    (fun p g hc => hzombie p g (hclaim ▸ hc)) fun p a hon hr hok => ?_
  have hm := hok.mine
  have hd := hok.dead
  have hrun := hr.running (by rw [← hon, ← Sys.thread, hth, hstay])
  rw [← hon, ← Sys.thread, hth] at hm hd
  have hne : s.state p ≠ .zombie := hrun.trans_ne (by decide)
  refine ⟨⟨huser.trans hm.user,fun q hq => ?_,fun f hf q hq => ?_⟩,
    iff_of_false (fun hk => hne (hd.mp (hdead hk))) hne,hrun.trans_ne (by decide)⟩
  · obtain hold | hp := howner q hq
    · exact hm.call q hold
    · exact Option.some_inj.mp (hp.symm.trans hr.proc)
  · obtain ⟨g,hg,hgq⟩ | hp := hover f hf q hq
    · exact hm.above g hg q hgq
    · exact Option.some_inj.mp (hp.symm.trans hr.proc)

theorem lock_thread (h : Inv s) (hth : s.thread c = ⟨k,above⟩) :
    s.lock = some c ↔ (Thread.mk k above).locked = true := by
  rw [h.cpu.lock, hth]

theorem nested_thread (h : Inv s) (hth : s.thread c = ⟨k,above⟩) : Nested k above := by
  have hn := h.cpu.nested (s.on c)
  rwa [← Sys.thread, hth] at hn

theorem claim_thread (hth : s.thread c = ⟨k,above⟩) : claim s (s.on c) = k.claim := congrArg (·.call.claim) hth

/-- From one point of a call to the next. -/
theorem goto (h : Inv s) (hth : s.thread c = ⟨k,[]⟩) (hl : k'.locked = k.locked)
    (hcall : BootCall s c k → BootCall s c k')
    (hclaim : k'.claim = k.claim) (huser : k'.scheduling = k.scheduling) (hdead : k' = .exitDead → k = .exitDead)
    (howner : ∀ q, k'.owner = some q → k.owner = some q ∨ s.proc c = some q) : Inv (s.goto c k') :=
  h.put hth ((h.lock_thread hth).trans (by rw [Thread.locked, Thread.locked, hl])) (fun _ _ => Iff.rfl) trivial rfl rfl
    (fun hb => ⟨hcall hb.call,nofun⟩) hclaim (fun p g hc => h.zombie_lock (g := g) ((claim_thread hth).trans hc)) huser
    hdead howner
    fun f hf => nomatch hf

/-- The calls on top of a thread change. -/
theorem calls (h : Inv s) (hth : s.thread c = ⟨k,above⟩) (hl : (Thread.mk k above').locked = (Thread.mk k above).locked)
    (hnest : Nested k above') (hstay : (Thread.mk k above).leaving = false)
    (hstay' : (Thread.mk k above').leaving = false)
    (hwakes : (∀ f ∈ above, f.wakes = true) → ∀ f ∈ above', f.wakes = true)
    (hover : ∀ f ∈ above', ∀ q, f.owner = some q → (∃ g ∈ above, g.owner = some q) ∨ s.proc c = some q) :
    Inv (s.calls c above') := by
  have heq : s.calls c above' = { s.put c ⟨k,above'⟩ with lock := s.lock } := by
    rw [Sys.calls, hth]
    rfl
  rw [heq]
  exact h.put hth ((h.lock_thread hth).trans (by rw [hl])) (fun _ _ => Iff.rfl) hnest hstay hstay'
    (fun hb => ⟨hb.call,hwakes hb.above⟩) rfl
    (fun p g hc => h.zombie_lock (g := g) ((claim_thread hth).trans hc)) rfl id (fun _ => .inl) hover

theorem acquire_spec (hx : s.acquire c t = .next s') : s.lock = none ∧ s' = { s.put c t with lock := some c } := by
  unfold Sys.acquire at hx
  split_ifs at hx with h1 h2
  exact ⟨h2,(Outcome.next.inj hx).symm⟩

theorem release_spec (hx : s.release c t = .next s') : s.lock = some c ∧ s' = { s.put c t with lock := none } := by
  unfold Sys.release at hx
  split_ifs at hx with h1
  exact ⟨h1,(Outcome.next.inj hx).symm⟩

theorem acquire (h : Inv s) (hx : s.acquire c ⟨k',above'⟩ = .next s') (hth : s.thread c = ⟨k,above⟩)
    (hl : (Thread.mk k' above').locked = true) (hnest : Nested k' above')
    (hstay' : (Thread.mk k' above').leaving = false)
    (hcall : BootCall s c k → BootCall s c k') (hwakes : (∀ f ∈ above, f.wakes = true) → ∀ f ∈ above', f.wakes = true)
    (hclaim : k'.claim = k.claim) (huser : k'.scheduling = k.scheduling) (hdead : k' = .exitDead → k = .exitDead)
    (howner : ∀ q, k'.owner = some q → k.owner = some q ∨ s.proc c = some q)
    (hover : ∀ f ∈ above', ∀ q, f.owner = some q → (∃ g ∈ above, g.owner = some q) ∨ s.proc c = some q) : Inv s' := by
  obtain ⟨hnone,rfl⟩ := acquire_spec hx
  have hun : (Thread.mk k above).locked = false := by
    refine Bool.eq_false_iff.mpr fun hlocked => ?_
    rw [(h.lock_thread hth).mpr hlocked] at hnone
    cases hnone
  refine h.put hth (iff_of_true rfl hl) (fun b hb => iff_of_false (fun he => hb (Option.some_inj.mp he).symm) ?_)
    hnest ?_
    hstay' (fun hb => ⟨hcall hb.call,hwakes hb.above⟩) hclaim (fun p g hc => ?_) huser hdead howner hover
  · exact hnone ▸ nofun
  · refine Bool.eq_false_iff.mpr fun hlv => ?_
    rw [Thread.locked_of_leaving hlv] at hun
    cases hun
  · exact absurd ((h.zombie_lock (g := g) ((claim_thread hth).trans hc)).symm.trans hnone) nofun

theorem release (h : Inv s) (hx : s.release c ⟨k',above'⟩ = .next s') (hth : s.thread c = ⟨k,above⟩)
    (hl : (Thread.mk k' above').locked = false) (hnest : Nested k' above') (hstay : (Thread.mk k above).leaving = false)
    (hcall : BootCall s c k → BootCall s c k') (hwakes : (∀ f ∈ above, f.wakes = true) → ∀ f ∈ above', f.wakes = true)
    (hclaim : k'.claim = k.claim) (hzombie : ∀ p g, k.claim ≠ some (p,.zombie,g))
    (huser : k'.scheduling = k.scheduling) (hdead : k' = .exitDead → k = .exitDead)
    (howner : ∀ q, k'.owner = some q → k.owner = some q ∨ s.proc c = some q)
    (hover : ∀ f ∈ above', ∀ q, f.owner = some q → (∃ g ∈ above, g.owner = some q) ∨ s.proc c = some q) : Inv s' := by
  obtain ⟨hsome,rfl⟩ := release_spec hx
  refine h.put hth (iff_of_false nofun (by rw [hl]; nofun)) (fun b hb => iff_of_false nofun fun he => ?_) hnest hstay ?_
    (fun hb => ⟨hcall hb.call,hwakes hb.above⟩) hclaim (fun p g hc => absurd hc (hzombie p g)) huser hdead howner hover
  · exact hb (Option.some_inj.mp (he.symm.trans hsome))
  · refine Bool.eq_false_iff.mpr fun hlv => ?_
    rw [Thread.locked_of_leaving hlv] at hl
    cases hl

end Thread

section Slots

theorem restates (h : Inv s) (hcode : s'.code = s.code) (hon : s'.on = s.on) (hlock : s'.lock = s.lock)
    (hproc : s'.proc = s.proc) (hscheduler : s'.scheduler = s.scheduler) (hkstack : s'.kstack = s.kstack)
    (hcontext : s'.context = s.context) (huse : s'.use = s.use) (hstate : ∀ q, q ≠ p → s'.state q = s.state q)
    (hun : ∀ S st g, claim s S ≠ some (p,st,g)) (hrun : s.state p ≠ .running) (hrun' : s'.state p ≠ .running)
    (hproc' : ∀ b, s.proc b = some p → s.state p ≠ .runnable ∧ Left (s'.state p))
    (hdead : ∀ a, Owns s p a → ((s.code (.page a)).call = .exitDead ↔ s'.state p = .zombie) ∧ s'.state p ≠ .embryo)
    (hbare : s'.state p = .unused → s.kstack p = none)
    (hfit : s'.state p ≠ .unused → s'.state p ≠ .embryo → ∃ a, s.kstack p = some a) : Inv s' where
  cpu := h.cpu.slot (p := p) hlock hon hproc hscheduler (fun _ => by rw [hcode]) (fun _ => by rw [hcode])
    (hcode ▸ h.cpu.nested) hstate (fun _ _ => by rw [hkstack]) hrun hrun'
    fun b hb => ⟨by rw [hkstack],hproc' b hb⟩
  stack := h.stack.restate hcode hon hlock hkstack hcontext huse hstate hun hdead hbare hfit

/-- A sleeping process becomes runnable. -/
theorem rouse (h : Inv s) (p : Fin nproc) : Inv (s.rouse p) := by
  unfold Sys.rouse
  split_ifs with hst
  · have hun := h.stack.unclaimed (p := p) (hst ▸ nofun) (hst ▸ nofun)
    refine h.restates (p := p) rfl rfl rfl rfl rfl rfl rfl rfl (fun q hq => setState_of_ne hq) hun (hst ▸ nofun)
      (setState_self ▸ nofun) (fun b _ => ⟨hst ▸ nofun,setState_self ▸ ⟨nofun,nofun,nofun⟩⟩) (fun a ho => ?_)
      (fun hu => absurd (setState_self.symm.trans hu) nofun)
      (fun _ _ => h.stack.fitted p (hst ▸ nofun) (hst ▸ nofun) hun)
    have hd := (h.stack.stack p a ho).dead
    rw [hst] at hd
    rw [setState_self]
    exact ⟨iff_of_false (fun hc => absurd (hd.mp hc) nofun) nofun,nofun⟩
  · exact h

/-- The fields of the slots other than their states. -/
theorem table (h : Inv s) {T : Table} (hT : ∀ q, (T.proc q).state = s.state q) : Inv { s with table := T } :=
  ⟨h.cpu.same rfl rfl rfl rfl rfl rfl hT,h.stack.same rfl rfl rfl rfl rfl (fun _ => id) hT⟩

/-- A page that is no kernel stack. -/
theorem setUse (h : Inv s) {u : PageUse} (ha : s.use a ≠ .stack) : Inv (s.setUse a u) := by
  refine ⟨h.cpu.same rfl rfl rfl rfl rfl rfl fun _ => rfl,h.stack.same rfl rfl rfl rfl rfl (fun b hb => ?_)
    fun _ => rfl⟩
  have hne : b ≠ a := by
    rintro rfl
    exact ha hb
  exact (Function.update_of_ne hne ..).trans hb

theorem setProc (h : Inv s) {pr : Proc} (hpr : pr.state = s.state p) : Inv (s.setProc p pr) := by
  refine h.table fun q => ?_
  by_cases hq : q = p
  · rw [hq, Table.set_self, hpr]
  · rw [Table.set_of_ne _ _ hq]

theorem embryo (h : Inv s) (hst : s.state p = .unused) : Inv (s.embryo p) := by
  have hnone := h.stack.bare p hst
  refine h.restates (p := p) rfl rfl rfl rfl rfl rfl rfl rfl (fun q hq => embryo_of_ne hq)
    (h.stack.unclaimed (hst ▸ nofun) (hst ▸ nofun)) (hst ▸ nofun) (embryo_self ▸ nofun) (fun b hb => ?_)
    (fun a ho => ?_)
    (fun _ => hnone) fun _ he => absurd embryo_self he
  · exact absurd hst (h.cpu.alive hb).1
  · exact absurd (ho.kstack.symm.trans hnone) nofun

/-- Where a thread takes a slot into its hands, does something to it, or lets it go. -/
theorem hand {s₁ : Sys C A} {k k' : Call C} (h : Inv s) (hth : s.thread c = ⟨k,[]⟩) (hcode : s₁.code = s.code)
    (hon : s₁.on = s.on) (hlock : s₁.lock = s.lock) (hproc : s₁.proc = s.proc) (hscheduler : s₁.scheduler = s.scheduler)
    (hcontext : s₁.context = s.context) (hslot : ∀ q, q ≠ p → s₁.state q = s.state q ∧ s₁.kstack q = s.kstack q)
    (huse : ∀ a, s₁.use a ≠ s.use a → Owns s p a ∧ (s.state p = .embryo ∨ s.state p = .zombie))
    (hrun : s.state p ≠ .running) (hrun' : s₁.state p ≠ .running) (hzombie : s₁.state p = .zombie → s.state p = .zombie)
    (hidle : ∀ b, s.proc b ≠ some p) (hold : ∀ q st g, k.claim = some (q,st,g) → q = p)
    (hnew : ∀ q st g, k'.claim = some (q,st,g) → q = p ∧ s₁.state p = st ∧ (g = .bare → s₁.kstack p = none) ∧
      (g ≠ .bare → ∃ a, s₁.kstack p = some a) ∧ (st = .zombie → s.lock = some c))
    (hfree : ∀ S, S ≠ s.on c → ∀ st g, claim s S ≠ some (p,st,g)) (hg : Goes k k')
    (hstack : (∃ st, k'.claim = some (p,st,.freed)) ∨ ∀ a, s₁.kstack p = some a →
      Owns s p a ∧ s₁.use a = s.use a ∧ (s.state p = .embryo ∨ s₁.state p = s.state p))
    (hbare : s₁.state p = .unused → s₁.kstack p = none)
    (hfit : s₁.state p ≠ .unused → s₁.state p ≠ .embryo → k'.claim = none → ∃ a, s₁.kstack p = some a) :
    Inv (s₁.goto c k') := by
  have hth₁ : s₁.thread c = ⟨k,[]⟩ := by
    rw [Sys.thread, hcode, hon]
    exact hth
  have hself : (s₁.goto c k').code (s.on c) = ⟨k',[]⟩ := hon ▸ put_code_self
  have hne {S : Stack C A} (hS : S ≠ s.on c) : (s₁.goto c k').code S = s.code S :=
    (put_code_of_ne (hon ▸ hS)).trans (congrFun hcode S)
  have hnp {a : A} (hS : s.on c = .page a) (ho : Owns s p a) : False := hidle c (h.runs_of_owns hS ho).proc
  constructor
  · have hcpu : CpuInv s₁ := h.cpu.slot (p := p) hlock hon hproc hscheduler (fun _ => by rw [hcode])
      (fun _ => by rw [hcode]) (hcode ▸ h.cpu.nested) (fun q hq => (hslot q hq).1) (fun q hq => (hslot q hq).2) hrun
      hrun'
      fun b hb => absurd hb (hidle b)
    refine hcpu.move (l := s₁.lock) ?_ (fun _ _ => Iff.rfl) trivial (fun hb => ?_) (hth₁ ▸ rfl) rfl
    · rw [hcpu.lock, hth₁]
      exact (congrArg (· = true) hg.locked).symm.to_iff
    · rw [hth₁] at hb
      exact absurd hb hg.not_boot
  · refine h.stack.turn (c := c) (p := p) hon hlock (fun S hS => congrArg (·.call.claim) (hne hS))
      (fun q a _ _ hS => hne (Ne.symm hS)) (fun q hq => ⟨(hslot q hq).1,(hslot q hq).2,by rw [← hcontext]; rfl⟩) ?_ ?_
      (fun q st g hc => hold q st g ((claim_thread hth).symm.trans hc)) ?_ hfree ?_ ?_ hbare ?_
    · intro q a hq ho
      by_contra hu
      exact hq (h.stack.apart q p a ho (huse a hu).1)
    · intro a hc
      by_contra hu
      obtain ⟨ho,hst⟩ := huse a hu
      have hok := h.stack.stack p a ho
      obtain hst | hst := hst
      · rw [claim, hok.fresh hst] at hc
        exact hc rfl
      · rw [claim, hok.dead.mpr hst] at hc
        exact hc rfl
    · intro q st g hc
      rw [claim, hself] at hc
      obtain ⟨hq,hst,hb,hf,hlk⟩ := hnew q st g hc
      refine ⟨hq,hst,hb,hf,fun hz => ⟨c,congrFun hon c,hlock.trans (hlk hz)⟩,fun a ha => ?_⟩
      obtain ⟨r,hr⟩ := h.cpu.page c a ha
      have ho := h.owns hr.proc hr.kstack
      by_contra hu
      have hdiff : s₁.use a ≠ s.use a := fun he => hu (he.trans (h.stack.stack r a ho).use)
      exact hnp ha (huse a hdiff).1
    · intro q a _ hS ho hok
      have hrun := (h.runs_of_owns hS ho).running (by rw [← hS, ← Sys.thread, hth]; rfl)
      rw [← hS, hself, hrun]
      refine ⟨⟨hg.user',fun r hr => ?_,fun f hf => (by cases hf)⟩,iff_of_false hg.dead (by rintro ⟨⟩),(by rintro ⟨⟩)⟩
      cases hg.owner.symm.trans hr
    · intro a ho
      obtain ⟨st,hf⟩ | hst := hstack
      · exact absurd ⟨s.on c,st,by rw [claim, hself, hf]⟩ ho.here
      · obtain ⟨ho',hu,hstate⟩ := hst a ho.kstack
        have hok := h.stack.stack p a ho'
        have hS : Stack.page a ≠ s.on c := fun he => hnp he.symm ho'
        refine ⟨⟨hu.trans hok.use,?_,?_,?_,?_⟩,fun q hq hoq => hq (h.stack.apart q p a hoq ho')⟩
        · rw [hne hS]
          exact hok.mine
        · rw [hne hS, hok.dead]
          refine ⟨fun hz => ?_,hzombie⟩
          obtain he | he := hstate
          · cases he.symm.trans hz
          · exact he.trans hz
        · rw [hne hS]
          intro he
          obtain he' | he' := hstate
          · exact hok.fresh he'
          · exact hok.fresh (he'.symm.trans he)
        · rw [hne hS]
          change (∀ b, s₁.on b ≠ _) → s₁.context p = _ ∧ _
          rw [hon, hcontext]
          exact hok.saved
    · intro hu he hc
      rw [claim, hself] at hc
      exact hfit hu he hc

section Claimed
variable {k k' : Call C} {st : ProcState} {g : Stage}

/-- Two threads do not have one slot in their hands. -/
theorem other_claim (h : Inv s) (hth : s.thread c = ⟨k,[]⟩) (hk : k.claim = some (p,st,g)) (S : Stack C A)
    (hS : S ≠ s.on c) (st' : ProcState) (g' : Stage) : claim s S ≠ some (p,st',g') :=
  fun hc => hS (h.stack.unique _ _ _ _ _ _ _ hc ((claim_thread hth).trans hk))

theorem claimed (h : Inv s) (hth : s.thread c = ⟨k,[]⟩) (hk : k.claim = some (p,st,g)) : ClaimOk s (s.on c) p st g :=
  h.stack.claims _ _ _ _ ((claim_thread hth).trans hk)

theorem owns_of_claim (h : Inv s) (hth : s.thread c = ⟨k,[]⟩) (hk : k.claim = some (p,st,.fitted))
    (ha : s.kstack p = some a) : Owns s p a := by
  refine ⟨ha,fun ⟨S,st',hc⟩ => ?_⟩
  by_cases hS : S = s.on c
  · rw [hS, claim_thread hth, hk] at hc
    cases hc
  · exact h.other_claim hth hk S hS st' _ hc

/-- The next point of a thread with a slot in its hands. -/
theorem handle (h : Inv s) (s₁ : Sys C A) (hth : s.thread c = ⟨k,[]⟩) (hk : k.claim = some (p,st,g))
    (hcode : s₁.code = s.code)
    (hon : s₁.on = s.on) (hlock : s₁.lock = s.lock) (hproc : s₁.proc = s.proc) (hscheduler : s₁.scheduler = s.scheduler)
    (hcontext : s₁.context = s.context) (hslot : ∀ q, q ≠ p → s₁.state q = s.state q ∧ s₁.kstack q = s.kstack q)
    (huse : ∀ a, s₁.use a ≠ s.use a → Owns s p a) (hrun' : s₁.state p ≠ .running)
    (hzombie : s₁.state p = .zombie → s.state p = .zombie)
    (hnew : ∀ q st g, k'.claim = some (q,st,g) → q = p ∧ s₁.state p = st ∧ (g = .bare → s₁.kstack p = none) ∧
      (g ≠ .bare → ∃ a, s₁.kstack p = some a) ∧ (st = .zombie → s.lock = some c))
    (hg : Goes k k')
    (hstack : (∃ st, k'.claim = some (p,st,.freed)) ∨ ∀ a, s₁.kstack p = some a →
      Owns s p a ∧ s₁.use a = s.use a ∧ (s.state p = .embryo ∨ s₁.state p = s.state p))
    (hbare : s₁.state p = .unused → s₁.kstack p = none)
    (hfit : s₁.state p ≠ .unused → s₁.state p ≠ .embryo → k'.claim = none → ∃ a, s₁.kstack p = some a) :
    Inv (s₁.goto c k') := by
  have hok := h.claimed hth hk
  have hst : s.state p = .embryo ∨ s.state p = .zombie := hok.state ▸ Call.claim_state hk
  refine h.hand hth hcode hon hlock hproc hscheduler hcontext hslot (fun a ha => ⟨huse a ha,hst⟩) ?_ hrun' hzombie
    (fun b hb => h.proc_unclaimed hb _ _ _ ((claim_thread hth).trans hk)) ?_ hnew (h.other_claim hth hk) hg
    hstack hbare hfit
  · obtain hst | hst := hst
    · exact hst ▸ nofun
    · exact hst ▸ nofun
  · intro q st' g' hc
    cases hk.symm.trans hc
    rfl

/-- The slot becomes unused. -/
theorem drop (h : Inv s) (hth : s.thread c = ⟨k,[]⟩) (hk : k.claim = some (p,st,.bare)) {pr : Proc}
    (hpr : pr.state = .unused) (hk' : k'.claim = none) (hg : Goes k k') :
    Inv ((s.setProc p pr).goto c k') := by
  have hnone := (h.claimed hth hk).bare rfl
  have hself : (s.setProc p pr).state p = .unused := by simp [Sys.state, Sys.setProc, hpr]
  exact h.handle (s.setProc p pr) hth hk rfl rfl rfl rfl rfl rfl
    (fun q hq => ⟨by simp [Sys.state, Sys.setProc, Table.set_of_ne _ _ hq],rfl⟩) (fun a ha => absurd rfl ha)
    (hself.trans_ne (by decide)) (fun hz => by cases hself.symm.trans hz) (fun q st g hc => by cases hk'.symm.trans hc)
    hg (.inr fun a ha => by cases ha.symm.trans hnone) (fun _ => hnone)
    fun hu => absurd hself hu

/-- `kfree` of the stack. -/
theorem freeStack (h : Inv s) (hth : s.thread c = ⟨k,[]⟩) (hk : k.claim = some (p,st,.fitted))
    (ha : s.kstack p = some a)
    (hk' : k'.claim = some (p,st,.freed)) (hg : Goes k k') : Inv ((s.setUse a .free).goto c k') := by
  have hok := h.claimed hth hk
  have hst := Call.claim_state hk
  have hself : (s.setUse a .free).state p = st := hok.state
  refine h.handle (s.setUse a .free) hth hk rfl rfl rfl rfl rfl rfl (fun _ _ => ⟨rfl,rfl⟩) (fun b hb => ?_) ?_ id
    (fun q st' g' hc => ?_) hg (.inl ⟨st,hk'⟩) (h.stack.bare p) ?_
  · have hab : b = a := by
      by_contra hne
      exact hb (Function.update_of_ne hne ..)
    exact hab ▸ h.owns_of_claim hth hk ha
  · rw [hself]
    obtain rfl | rfl := hst
    · nofun
    · nofun
  · cases hk'.symm.trans hc
    refine ⟨rfl,hself,nofun,fun _ => ⟨a,ha⟩,?_⟩
    rintro rfl
    exact h.zombie_lock ((claim_thread hth).trans hk)
  · exact fun _ _ hc => absurd (hk'.symm.trans hc) nofun

/-- The pointer to the stack is cleared. -/
theorem clearStack (h : Inv s) (hth : s.thread c = ⟨k,[]⟩) (hk : k.claim = some (p,st,g))
    (hk' : k'.claim = some (p,st,.bare)) (hg : Goes k k') : Inv ((s.setStack p none).goto c k') := by
  have hok := h.claimed hth hk
  have hst := Call.claim_state hk
  have hnone : (s.setStack p none).kstack p = none := Function.update_self ..
  have hself : (s.setStack p none).state p = st := hok.state
  refine h.handle (s.setStack p none) hth hk rfl rfl rfl rfl rfl rfl
    (fun q hq => ⟨rfl,Function.update_of_ne hq ..⟩) (fun a ha => absurd rfl ha) ?_ id (fun q st' g' hc => ?_) hg
    (.inr fun a ha => absurd (ha.symm.trans hnone) nofun) (fun _ => hnone)
    fun _ _ hc => absurd (hk'.symm.trans hc) nofun
  · rw [hself]
    obtain rfl | rfl := hst
    · nofun
    · nofun
  · cases hk'.symm.trans hc
    refine ⟨rfl,hself,fun _ => hnone,fun hg => absurd rfl hg,?_⟩
    rintro rfl
    exact h.zombie_lock ((claim_thread hth).trans hk)

/-- The new process becomes runnable. -/
theorem ready (h : Inv s) (hth : s.thread c = ⟨k,[]⟩) (hk : k.claim = some (p,.embryo,.fitted)) (hk' : k'.claim = none)
    (hg : Goes k k') : Inv ((s.setState p .runnable).goto c k') := by
  have hok := h.claimed hth hk
  refine h.handle (s.setState p .runnable) hth hk rfl rfl rfl rfl rfl rfl (fun q hq => ⟨setState_of_ne hq,rfl⟩)
    (fun a ha => absurd rfl ha) (setState_self ▸ nofun) (fun hz => absurd (setState_self.symm.trans hz) nofun)
    (fun q st' g' hc => absurd (hk'.symm.trans hc) nofun) hg
    (.inr fun a ha => ⟨h.owns_of_claim hth hk ha,rfl,.inl hok.state⟩)
    (fun hu => absurd (setState_self.symm.trans hu) nofun) fun _ _ _ => hok.fitted nofun

/-- A thread takes a slot into its hands. -/
theorem gain (h : Inv s) (hth : s.thread c = ⟨k,[]⟩) (hk : k.claim = none) (hk' : k'.claim = some (p,st,g))
    (hst : s.state p = st) (hidle : ∀ b, s.proc b ≠ some p)
    (hun : ∀ S st g, claim s S ≠ some (p,st,g)) (hbare : g = .bare → s.kstack p = none)
    (hfit : g ≠ .bare → ∃ a, s.kstack p = some a) (hlock : st = .zombie → s.lock = some c) (hg : Goes k k') :
    Inv (s.goto c k') := by
  have hrun : s.state p ≠ .running := by
    rw [hst]
    obtain rfl | rfl := Call.claim_state hk'
    · nofun
    · nofun
  refine h.hand (p := p) hth rfl rfl rfl rfl rfl rfl (fun _ _ => ⟨rfl,rfl⟩) (fun a ha => absurd rfl ha) hrun hrun id
    hidle
    (fun q st' g' hc => absurd (hk.symm.trans hc) nofun) (fun q st' g' hc => ?_) (fun S _ => hun S) hg
    (.inr fun a ha => ⟨owns_of_unclaimed ha hun,rfl,.inr rfl⟩) (h.stack.bare p)
    fun _ _ hc => absurd (hk'.symm.trans hc) nofun
  cases hk'.symm.trans hc
  exact ⟨rfl,hst,hbare,hfit,hlock⟩

/-- No thread on a free page has a slot in its hands, and no processor executes it. -/
theorem free_idle (h : Inv s) (ha : s.use a = .free) : claim s (.page a) = none ∧ ∀ b, s.on b ≠ .page a := by
  constructor
  · cases hc : claim s (.page a) with
    | none => rfl
    | some x =>
      obtain ⟨q,st,g⟩ := x
      exact absurd (((h.stack.claims _ q st g hc).use a rfl).symm.trans ha) nofun
  · intro b hb
    obtain ⟨q,hq⟩ := h.cpu.page b a hb
    exact absurd ((h.stack.stack q a (h.owns hq.proc hq.kstack)).use.symm.trans ha) nofun

/-- The new process gets its stack. -/
theorem newStack (h : Inv s) (hth : s.thread c = ⟨k,[]⟩) (hk : k.claim = some (p,.embryo,.bare)) (ha : s.use a = .free)
    (hk' : k'.claim = some (p,.embryo,.fitted)) (hg : Goes k k') : Inv ((s.newStack p a).goto c k') := by
  have hok := h.claimed hth hk
  obtain ⟨hnoclaim,hnoon⟩ := h.free_idle ha
  have hpage : (s.newStack p a).code (.page a) = ⟨.forkret,[]⟩ := Function.update_self ..
  have hcode {S : Stack C A} (hS : S ≠ .page a) : (s.newStack p a).code S = s.code S := Function.update_of_ne hS ..
  have hth₁ : (s.newStack p a).thread c = ⟨k,[]⟩ := (hcode (hnoon c)).trans hth
  have hself : ((s.newStack p a).goto c k').code (s.on c) = ⟨k',[]⟩ := put_code_self
  have hne {S : Stack C A} (hS : S ≠ s.on c) : ((s.newStack p a).goto c k').code S = (s.newStack p a).code S :=
    put_code_of_ne hS
  have hkstack : (s.newStack p a).kstack p = some a := Function.update_self ..
  have hidle (b : C) : s.proc b ≠ some p := fun hb => h.proc_unclaimed hb _ _ _ ((claim_thread hth).trans hk)
  have hnotfree {q : Fin nproc} (ho : Owns s q a) : False :=
    by cases (h.stack.stack q a ho).use.symm.trans ha
  constructor
  · have hcpu : CpuInv (s.newStack p a) := by
      refine h.cpu.slot (p := p) rfl rfl rfl rfl (fun b => hcode (hnoon b)) (fun b => hcode (by rintro ⟨⟩))
        (fun S => ?_)
        (fun _ _ => rfl) (fun q hq => Function.update_of_ne hq ..) (hok.state.trans_ne (by decide)) ?_
        fun b hb => absurd hb (hidle b)
      · by_cases hS : S = .page a
        · rw [hS, hpage]
          trivial
        · rw [hcode hS]
          exact h.cpu.nested S
      · change s.state p ≠ .running
        exact hok.state.trans_ne (by decide)
    refine hcpu.move (l := s.lock) ?_ (fun _ _ => Iff.rfl) trivial (fun hb => ?_) (hth₁ ▸ rfl) rfl
    · have hlock := hcpu.lock c
      rw [hth₁] at hlock
      exact hlock.trans (congrArg (· = true) hg.locked).symm.to_iff
    · rw [hth₁] at hb
      exact absurd hb hg.not_boot
  · refine h.stack.turn (c := c) (p := p) rfl rfl (fun S hS => ?_) (fun q b hq ho hS => ?_)
      (fun q hq => ⟨rfl,Function.update_of_ne hq ..,Function.update_of_ne hq ..⟩) (fun q b hq ho => ?_) (fun b hb => ?_)
      (fun q st g hc => ?_) (fun q st g hc => ?_) (h.other_claim hth hk) (fun q b hq hS ho hokq => ?_) (fun b ho => ?_)
      ?_ ?_
    · rw [claim, hne hS]
      by_cases hSa : S = .page a
      · rw [hSa, hpage, hnoclaim]
        rfl
      · rw [hcode hSa]
        rfl
    · rw [hne (Ne.symm hS), hcode]
      rintro heq
      cases heq
      exact hnotfree ho
    · refine Function.update_of_ne ?_ ..
      rintro rfl
      exact hnotfree ho
    · refine Function.update_of_ne ?_ ..
      rintro rfl
      exact hb hnoclaim
    · cases hk.symm.trans ((claim_thread hth).symm.trans hc)
      rfl
    · rw [claim, hself, hk'] at hc
      cases hc
      refine ⟨rfl,hok.state,(by rintro ⟨⟩),fun _ => ⟨a,hkstack⟩,(by rintro ⟨⟩),fun b hb => ?_⟩
      have hba : b ≠ a := fun he => hnoon c (he ▸ hb)
      exact (Function.update_of_ne hba ..).trans (hok.use b hb)
    · have hrun := (h.runs_of_owns hS ho).running (by rw [← hS, ← Sys.thread, hth]; rfl)
      rw [← hS, hself, hrun]
      exact ⟨⟨hg.user',fun r hr => (by cases hg.owner.symm.trans hr),fun f hf => (by cases hf)⟩,
        iff_of_false hg.dead (by rintro ⟨⟩),(by rintro ⟨⟩)⟩
    · cases hkstack.symm.trans ho.kstack
      have hcode' : ((s.newStack p a).goto c k').code (.page a) = ⟨.forkret,[]⟩ :=
        (hne fun he => hnoon c he.symm).trans hpage
      refine ⟨⟨Function.update_self ..,?_,?_,?_,?_⟩,fun q _ hq => hnotfree hq⟩
      · rw [hcode']
        exact ⟨rfl,(by rintro _ ⟨⟩),fun f hf => (by cases hf)⟩
      · rw [hcode']
        refine iff_of_false (by rintro ⟨⟩) ?_
        change s.state p ≠ .zombie
        exact hok.state.trans_ne (by decide)
      · rw [hcode']
        exact fun _ => rfl
      · rw [hcode']
        exact fun _ => ⟨Function.update_self ..,rfl⟩
    · change s.state p = .unused → _
      exact fun hu => by cases hok.state.symm.trans hu
    · exact fun _ _ _ => ⟨a,hkstack⟩

end Claimed

end Slots

section Switches
variable {k k' : Call C} {above rest : List Frame} {st : ProcState}

/-- A thread that is no scheduler runs on the stack of the process. -/
theorem on_page (h : Inv s) (hno : ¬ BootOk s c (s.thread c)) : ∃ p a, s.on c = .page a ∧ Runs s c p a := by
  cases hon : s.on c with
  | boot b =>
    obtain ⟨rfl,hok⟩ := h.cpu.boot c b hon
    exact absurd (by rwa [Sys.thread, hon]) hno
  | page a =>
    obtain ⟨p,hp⟩ := h.cpu.page c a hon
    exact ⟨p,a,rfl,hp⟩

/-- The state is set in `yield` or `sleep`. -/
theorem depart (h : Inv s) (hth : s.thread c = ⟨k,above⟩) (hp : s.proc c = some p)
    (hno : ¬ BootOk s c (s.thread c)) (hstay : (Thread.mk k above).leaving = false)
    (hl : (Thread.mk k above).locked = true) (hst : Left st) (hz : st ≠ .zombie) (hnest : Nested k (.sched :: rest))
    (hover : ∀ f ∈ rest, ∀ q, f.owner = some q → (∃ g ∈ above, g.owner = some q) ∨ s.proc c = some q) :
    Inv ((s.setState p st).calls c (.sched :: rest)) := by
  obtain ⟨q,a,hon,hr⟩ := h.on_page hno
  cases hp.symm.trans hr.proc
  have hrun := hr.running (by rw [← hon, ← Sys.thread, hth, hstay])
  have heq : (s.setState p st).calls c (.sched :: rest) = (s.setState p st).put c ⟨k,.sched :: rest⟩ :=
    congrArg (fun t : Thread C => (s.setState p st).put c ⟨t.call,.sched :: rest⟩) hth
  have hpage : s.code (.page a) = ⟨k,above⟩ := by rw [← hon, ← Sys.thread, hth]
  have hk {b : A} (ho : Owns s p b) : k ≠ .exitDead := by
    cases hr.kstack.symm.trans ho.kstack
    intro hk
    have hdead := (h.stack.stack p a ho).dead.mp (by rw [hpage, hk])
    cases hrun.symm.trans hdead
  rw [heq]
  refine ⟨h.cpu.depart hon hr (hth ▸ hl) hst rfl hnest,?_⟩
  have hstack : StackInv (s.setState p st) := by
    refine h.stack.restate (p := p) rfl rfl rfl rfl rfl rfl (fun q hq => setState_of_ne hq) (h.proc_unclaimed hp)
      (fun b ho => ?_) (fun hu => absurd (setState_self.symm.trans hu) hst.1) fun _ _ => ⟨a,hr.kstack⟩
    rw [setState_self]
    refine ⟨iff_of_false (fun hd => hk ho ?_) hz,hst.2.1⟩
    cases hr.kstack.symm.trans ho.kstack
    rwa [hpage] at hd
  refine hstack.move (l := s.lock) (congrArg (·.call.claim) hth).symm (fun q g hc => ?_) (fun _ _ => id)
    fun q b hb ho hok => ?_
  · exact h.zombie_lock (g := g) ((claim_thread hth).trans hc)
  · cases hon.symm.trans hb
    have ho' : Owns s q a := ⟨ho.kstack,ho.here⟩
    cases hp.symm.trans (h.runs_of_owns hon ho').proc
    have hm := hok.mine
    change Mine (s.code (.page a)) p at hm
    rw [hpage] at hm
    rw [setState_self]
    refine ⟨⟨hm.user,hm.call,fun f hf r hfr => ?_⟩,iff_of_false (hk ho') hz,hst.2.1⟩
    obtain rfl | hf := List.mem_cons.mp hf
    · cases hfr
    · obtain ⟨g,hg,hgr⟩ | hpr := hover f hf r hfr
      · exact hm.above g hg r hgr
      · exact Option.some_inj.mp (hpr.symm.trans hp)

/-- The end of `exit`. -/
theorem die (h : Inv s) (hth : s.thread c = ⟨.exitState p,[]⟩) :
    Inv ((s.setState p .zombie).put c ⟨.exitDead,[.sched]⟩) := by
  obtain ⟨q,a,hon,hr⟩ := h.on_page (c := c) (by
    rw [hth]
    exact fun hb => hb.call)
  have hpage : s.code (.page a) = ⟨.exitState p,[]⟩ := by rw [← hon, ← Sys.thread, hth]
  have howns := h.owns hr.proc hr.kstack
  have hp : p = q := (h.stack.stack q a howns).mine.call p (by rw [hpage]; rfl)
  subst hp
  have hrun := hr.running (by rw [hpage]; rfl)
  have hself : ((s.setState p .zombie).put c ⟨.exitDead,[.sched]⟩).code (.page a) = ⟨.exitDead,[.sched]⟩ :=
    hon ▸ put_code_self
  have hne {S : Stack C A} (hS : S ≠ s.on c) : ((s.setState p .zombie).put c ⟨.exitDead,[.sched]⟩).code S = s.code S :=
    put_code_of_ne hS
  refine ⟨h.cpu.depart hon hr (hth ▸ rfl) ⟨by rintro ⟨⟩,by rintro ⟨⟩,by rintro ⟨⟩⟩ rfl ⟨rfl,trivial⟩,?_⟩
  refine h.stack.turn (c := c) (p := p) rfl rfl (fun S hS => congrArg (·.call.claim) (hne hS))
    (fun q b _ _ hb => hne (Ne.symm hb)) (fun q hq => ⟨setState_of_ne hq,rfl,rfl⟩) (fun _ _ _ _ => rfl) (fun _ _ => rfl)
    (fun q st g hc => ?_) (fun q st g hc => ?_) (fun S _ => h.proc_unclaimed hr.proc S) (fun q b hq hb ho _ => ?_)
    (fun b ho => ?_) (fun hu => by cases setState_self.symm.trans hu) fun _ _ _ => ⟨a,hr.kstack⟩
  · rw [claim_thread hth] at hc
    cases hc
  · rw [claim, hon, hself] at hc
    cases hc
  · exact absurd (Option.some_inj.mp ((h.runs_of_owns hb ho).proc.symm.trans hr.proc)) hq
  · cases hr.kstack.symm.trans ho.kstack
    have hok := h.stack.stack p a howns
    refine ⟨⟨hok.use,?_,?_,fun he => (by cases setState_self.symm.trans he),fun hn => absurd hon (hn c)⟩,
      fun q hq hoq => hq (h.stack.apart q p a hoq howns)⟩
    · rw [hself]
      exact ⟨rfl,(by rintro _ ⟨⟩),fun f hf r hfr => by cases List.mem_singleton.mp hf; cases hfr⟩
    · rw [hself]
      exact iff_of_true rfl setState_self

/-- `swtch` to the scheduler. -/
theorem leave (h : Inv s) (hth : s.thread c = ⟨k,.sched :: rest⟩) (hp : s.proc c = some p) :
    s.scheduler c = some (.boot c) ∧ Inv ((s.calls c rest).leave c p (.boot c)) := by
  obtain ⟨q,a,hon,hr⟩ := h.on_page (c := c) (by
    rw [hth]
    exact fun hb => by cases hb.above _ List.mem_cons_self)
  cases hp.symm.trans hr.proc
  have hpage : s.code (.page a) = ⟨k,.sched :: rest⟩ := by rw [← hon, ← Sys.thread, hth]
  have heq : s.calls c rest = s.put c ⟨k,rest⟩ := congrArg (fun t : Thread C => s.put c ⟨t.call,rest⟩) hth
  have hnest : Nested k (.sched :: rest) := h.nested_thread hth
  have hself : (s.put c ⟨k,rest⟩).code (.page a) = ⟨k,rest⟩ := hon ▸ put_code_self
  rw [heq]
  refine ⟨hr.scheduler,h.cpu.leave hon hr hpage,?_⟩
  have hzombie (q : Fin nproc) (g : Stage) : k.claim ≠ some (q,.zombie,g) :=
    fun hc => by cases (nested_zombie hnest hc).1
  have hmove : StackInv (s.put c ⟨k,rest⟩) := by
    refine h.stack.move (l := s.lock) (congrArg (·.call.claim) hth).symm (fun q g hc => absurd hc (hzombie q g))
      (fun _ _ => id) fun q b hb ho hok => ?_
    cases hon.symm.trans hb
    have hm := hok.mine
    have hd := hok.dead
    rw [hpage] at hm hd
    have hq := (h.runs_of_owns hon ho).left (by rw [hpage]; rfl)
    exact ⟨⟨hm.user,hm.call,fun f hf => hm.above f (List.mem_cons_of_mem _ hf)⟩,hd,hq.2.1⟩
  have howns {q : Fin nproc} {b : A} (ho : Owns (s.put c ⟨k,rest⟩) q b) : Owns s q b := by
    refine ⟨ho.kstack,fun he => ?_⟩
    obtain ⟨S,st,hc⟩ := he
    exact ho.here ⟨S,st,(claim_put (congrArg (·.call.claim) hth).symm).trans hc⟩
  refine hmove.switch (c := c) rfl rfl rfl rfl rfl (fun b hb => Function.update_of_ne hb ..) (fun q g => ?_)
    (fun q b hb ho => ?_) fun q b hb ho => ?_
  · change claim (s.put c ⟨k,rest⟩) (s.on c) ≠ _
    rw [hon, claim, hself]
    exact hzombie q g
  · cases hon.symm.trans hb
    cases hp.symm.trans (h.runs_of_owns hon (howns ho)).proc
    rw [hself]
    exact ⟨(Function.update_self ..).trans (congrArg some hon),hnest.1⟩
  · have hq : q ≠ p := by
      rintro rfl
      cases hr.kstack.symm.trans ho.kstack
      exact hb hon
    exact Function.update_of_ne hq ..

end Switches

section Scheduling
variable {k k' : Call C} {me : C}

theorem on_boot {above : List Frame} (h : Inv s) (hth : s.thread c = ⟨k,above⟩) (hk : k.scheduling = true) :
    s.on c = .boot c ∧ BootCall s c k := by
  cases hon : s.on c with
  | boot b =>
    obtain ⟨rfl,hok⟩ := h.cpu.boot c b hon
    rw [← hon, ← Sys.thread, hth] at hok
    exact ⟨rfl,hok.call⟩
  | page a =>
    obtain ⟨p,hp⟩ := h.cpu.page c a hon
    have huser := (h.stack.stack p a (h.owns hp.proc hp.kstack)).mine.user
    rw [← hon, ← Sys.thread, hth] at huser
    cases hk.symm.trans huser

theorem boot_code (s₁ : Sys C A) (k' : Call C) (hon : s₁.on c = .boot c) :
    (s₁.goto c k').code = Function.update s₁.code (.boot c) ⟨k',[]⟩ :=
  congrArg (fun S => Function.update s₁.code S ⟨k',[]⟩) hon

/-- The stacks do not depend on what a scheduler does between its switches. -/
theorem stack_boot (h : StackInv s) (k' : Call C) (hon : s.on c = .boot c) (hth : s.thread c = ⟨k,[]⟩)
    (hk : k.claim = none)
    (hk' : k'.claim = none) : StackInv (s.goto c k') := by
  refine h.move (l := s.lock) (hk'.trans (by rw [hth, hk])) (fun p g hc => absurd (hk'.symm.trans hc) nofun)
    (fun _ _ => id) fun p a ha => ?_
  cases hon.symm.trans ha

/-- A process is chosen. -/
theorem pick {i : ℕ} (h : Inv s) (hth : s.thread c = ⟨.schedulerScan me i,[]⟩) (hst : s.state p = .runnable) :
    Inv ((s.setCpuProc me (some p)).goto c (.schedulerRun me p)) := by
  obtain ⟨hon,rfl,hnone⟩ := h.on_boot hth rfl
  have hlock : s.lock = some me := (h.lock_thread hth).mpr rfl
  have hboot : s.code (.boot me) = ⟨.schedulerScan me i,[]⟩ := by rw [← hon, ← Sys.thread, hth]
  have hidle {b : C} (hb : s.proc b = some p) : False := by
    obtain hrun | ⟨-,hl⟩ := h.cpu.proc_state hb
    · cases hst.symm.trans hrun
    · cases Option.some_inj.mp (hl.symm.trans hlock)
      cases hnone.symm.trans hb
  have hself : (s.setCpuProc me (some p)).proc me = some p := Function.update_self ..
  have hcode := boot_code (s.setCpuProc me (some p)) (.schedulerRun me p) hon
  constructor
  · refine h.cpu.boots hon hboot rfl rfl rfl hcode rfl (fun b hb => Function.update_of_ne hb ..)
      (fun b q _ _ => ⟨rfl,rfl⟩) ⟨rfl,hself,hst⟩ (fun b q hb hq he => ?_) fun q hq => .inr ⟨hq,by rw [hnone]; rintro ⟨⟩⟩
    cases Option.some_inj.mp (hself.symm.trans he)
    exact hidle hq
  · exact (stack_boot h.stack _ hon hth rfl rfl).same rfl rfl rfl rfl rfl (fun _ => id) fun _ => rfl

/-- The chosen process is set running. -/
theorem run (h : Inv s) (hth : s.thread c = ⟨.schedulerRun me p,[]⟩) :
    (∃ a, s.kstack p = some a) ∧ Inv ((s.setState p .running).goto c (.schedulerSwtch me p)) := by
  obtain ⟨hon,rfl,hp,hst⟩ := h.on_boot hth rfl
  have hboot : s.code (.boot me) = ⟨.schedulerRun me p,[]⟩ := by rw [← hon, ← Sys.thread, hth]
  have hun := h.proc_unclaimed hp
  obtain ⟨a,ha⟩ := h.stack.fitted p (hst.trans_ne (by decide)) (hst.trans_ne (by decide)) hun
  have hcode := boot_code (s.setState p .running) (.schedulerSwtch me p) hon
  refine ⟨⟨a,ha⟩,?_,?_⟩
  · refine h.cpu.boots hon hboot rfl rfl rfl hcode rfl (fun _ _ => rfl)
      (fun b q hb hq => ⟨setState_of_ne fun he => ?_,rfl⟩) ⟨rfl,hp,setState_self⟩
      (fun b q hb hq he => hb (h.cpu.alone b me q hq he)) fun q hq => ?_
    · exact hb (h.cpu.alone b me q hq (he ▸ hp))
    · by_cases hqp : q = p
      · exact .inl (hqp ▸ hp)
      · refine .inr ⟨(setState_of_ne hqp).symm.trans hq,fun he => hqp ?_⟩
        exact Option.some_inj.mp (he.symm.trans hp)
  · have hstack : StackInv (s.setState p .running) := by
      refine h.stack.restate (p := p) rfl rfl rfl rfl rfl rfl (fun q hq => setState_of_ne hq) hun (fun b ho => ?_)
        (fun hu => by cases setState_self.symm.trans hu) fun _ _ => ⟨a,ha⟩
      have hd := (h.stack.stack p b ho).dead
      rw [hst] at hd
      rw [setState_self]
      exact ⟨iff_of_false (fun hc => by cases hd.mp hc) (by rintro ⟨⟩),(by rintro ⟨⟩)⟩
    exact stack_boot hstack _ hon hth rfl rfl

/-- `swtch` to the chosen process. -/
theorem resume (h : Inv s) (hth : s.thread c = ⟨.schedulerSwtch me p,[]⟩) :
    ∃ a, s.context p = some (.page a) ∧ Inv ((s.goto c (.schedulerBack me p)).resume c me (.page a)) := by
  obtain ⟨hon,rfl,hp,hst⟩ := h.on_boot hth rfl
  have hboot : s.code (.boot me) = ⟨.schedulerSwtch me p,[]⟩ := by rw [← hon, ← Sys.thread, hth]
  obtain ⟨a,ha⟩ := h.stack.fitted p (hst.trans_ne (by decide)) (hst.trans_ne (by decide)) (h.proc_unclaimed hp)
  have howns := h.owns hp ha
  have hoff (b : C) : s.on b ≠ .page a := by
    intro hb
    have hbc := h.cpu.alone b me p (h.runs_of_owns hb howns).proc hp
    cases hon.symm.trans (hbc ▸ hb)
  obtain ⟨hctx,hres⟩ := (h.stack.stack p a howns).saved hoff
  refine ⟨a,hctx,h.cpu.resume hon hboot ha hres hoff,?_⟩
  have hmove := stack_boot h.stack (.schedulerBack me p) hon hth rfl rfl
  refine hmove.switch (c := me) rfl rfl rfl rfl rfl (fun b hb => Function.update_of_ne hb ..) (fun q g hc => ?_)
    (fun q b hb => ?_) fun _ _ _ _ => rfl
  · have hself : claim (s.goto me (.schedulerBack me p)) (s.on me) = none :=
      congrArg (·.call.claim) (put_code_self (t := ⟨.schedulerBack me p,[]⟩))
    cases hself.symm.trans hc
  · cases hon.symm.trans hb

/-- The scheduler is back from a process. -/
theorem back {i : ℕ} (h : Inv s) (hth : s.thread c = ⟨.schedulerBack me p,[]⟩) :
    Inv ((s.setCpuProc me none).goto c (.schedulerScan me i)) := by
  obtain ⟨hon,rfl,hp,hst⟩ := h.on_boot hth rfl
  have hboot : s.code (.boot me) = ⟨.schedulerBack me p,[]⟩ := by rw [← hon, ← Sys.thread, hth]
  have hself : (s.setCpuProc me none).proc me = none := Function.update_self ..
  have hcode := boot_code (s.setCpuProc me none) (.schedulerScan me i) hon
  constructor
  · refine h.cpu.boots hon hboot rfl rfl rfl hcode rfl (fun b hb => Function.update_of_ne hb ..)
      (fun b q _ _ => ⟨rfl,rfl⟩) ⟨rfl,hself⟩ (fun b q hb hq he => by cases hself.symm.trans he)
      fun q hq => .inr ⟨hq,fun he => ?_⟩
    cases hp.symm.trans he
    exact hst.2.2 hq
  · exact (stack_boot h.stack _ hon hth rfl rfl).same rfl rfl rfl rfl rfl (fun _ => id) fun _ => rfl

end Scheduling

end Inv

end X86OsDev.Xv6.Scheduler
