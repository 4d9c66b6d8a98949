import X86OsDev.Xv6.SchedulerSteps

/-! # A process runs on one processor

Outside `ptable.lock` the running processes are those that the processors have in `c->proc`, no
kernel stack is executed twice or freed while it is executed, and none of the panics of this code
happens except that of an exiting init.
-/
set_option linter.unusedSectionVars false

namespace X86OsDev.Xv6.Scheduler
open Transition Ptable

variable {C A : Type*} [DecidableEq C] [DecidableEq A] {s s' : Sys C A} {c : C}

section Frames
variable {k : Call C} {f g : Frame} {rest : List Frame}

theorem owner_tail : ∀ x ∈ rest, ∀ q, x.owner = some q → (∃ y ∈ f :: rest, y.owner = some q) ∨ s.proc c = some q :=
  fun x hx _ hq => .inl ⟨x,List.mem_cons_of_mem _ hx,hq⟩

theorem owner_cons (hg : ∀ q, g.owner = some q → f.owner = some q ∨ s.proc c = some q) :
    ∀ x ∈ g :: rest, ∀ q, x.owner = some q → (∃ y ∈ f :: rest, y.owner = some q) ∨ s.proc c = some q := by
  intro x hx q hq
  obtain rfl | hx := List.mem_cons.mp hx
  · exact (hg q hq).imp_left fun hf => ⟨f,List.mem_cons_self,hf⟩
  · exact owner_tail x hx q hq

theorem wakes_tail : (∀ x ∈ f :: rest, x.wakes = true) → ∀ x ∈ rest, x.wakes = true :=
  fun h x hx => h x (List.mem_cons_of_mem _ hx)

theorem wakes_cons (hg : f.wakes = true → g.wakes = true) :
    (∀ x ∈ f :: rest, x.wakes = true) → ∀ x ∈ g :: rest, x.wakes = true := by
  intro h x hx
  obtain rfl | hx := List.mem_cons.mp hx
  · exact hg (h f List.mem_cons_self)
  · exact wakes_tail h x hx

/-- The return of a call that has taken the lock. -/
theorem Inv.return (h : Inv s) (hth : s.thread c = ⟨k,f :: rest⟩) (hx : s.release c ⟨(s.thread c).call,rest⟩ = .next s')
    (hf : f ≠ .sched) (hun : (Thread.mk k rest).locked = false) : Inv s' := by
  rw [hth] at hx
  have hnest := h.nested_thread hth
  exact h.release hx hth hun hnest.2 (by cases f <;> first | rfl | exact absurd rfl hf) id wakes_tail rfl
    (fun p g hc => nomatch (nested_zombie hnest hc).1) rfl id (fun _ => .inl) owner_tail

theorem rouse_thread (p : Fin nproc) : (s.rouse p).thread c = s.thread c := by
  unfold Sys.rouse
  split <;> rfl

/-- A step of a call on top of a thread. -/
theorem Inv.runFrame (h : Inv s) (hth : s.thread c = ⟨k,f :: rest⟩) (hx : s.runFrame c rest f = .next s') : Inv s' := by
  have hnest := h.nested_thread hth
  cases f with
  | yieldAcquire =>
    rw [Sys.runFrame, hth] at hx
    exact h.acquire hx hth rfl hnest rfl id (wakes_cons (by rintro ⟨⟩)) rfl rfl id (fun _ => .inl)
      (owner_cons (by rintro _ ⟨⟩))
  | yieldState =>
    rw [Sys.runFrame] at hx
    split at hx
    · cases hx
    · rename_i p hp
      cases hx
      exact h.depart hth hp (by rw [hth]; exact fun hb => by cases hb.above _ List.mem_cons_self) rfl rfl
        ⟨by rintro ⟨⟩,by rintro ⟨⟩,by rintro ⟨⟩⟩ (by rintro ⟨⟩) ⟨rfl,hnest⟩ (owner_cons (by rintro _ ⟨⟩))
  | yieldRelease => exact h.return hth hx (by rintro ⟨⟩) hnest.1
  | sched =>
    rw [Sys.runFrame] at hx
    split at hx
    · rename_i p target hp htarget
      split_ifs at hx
      cases hx
      obtain ⟨hboot,hinv⟩ := h.leave hth hp
      cases htarget.symm.trans hboot
      exact hinv
    · cases hx
  | sleepStart chan own =>
    rw [Sys.runFrame] at hx
    split at hx
    · cases hx
    · rename_i p hp
      cases hx
      cases own with
      | false =>
        exact h.calls hth rfl hnest rfl rfl (wakes_cons (by rintro ⟨⟩)) (owner_cons fun q hq => .inr (hp.trans hq))
      | true =>
        exact h.calls hth rfl hnest rfl rfl (wakes_cons (by rintro ⟨⟩)) (owner_cons fun q hq => .inr (hp.trans hq))
  | sleepAcquire p chan =>
    rw [Sys.runFrame, hth] at hx
    exact h.acquire hx hth rfl hnest rfl id (wakes_cons (by rintro ⟨⟩)) rfl rfl id (fun _ => .inl)
      (owner_cons fun _ => .inl)
  | sleepChan p chan own =>
    cases hx
    have h₁ : Inv (s.setProc p { s.table.proc p with chan := chan }) := h.setProc rfl
    cases own with
    | false => exact h₁.calls hth rfl hnest rfl rfl (wakes_cons (by rintro ⟨⟩)) (owner_cons fun _ => .inl)
    | true => exact h₁.calls hth rfl hnest rfl rfl (wakes_cons (by rintro ⟨⟩)) (owner_cons fun _ => .inl)
  | sleepState p own =>
    cases hx
    obtain ⟨q,a,hon,hr⟩ := h.on_page (c := c) (by rw [hth]; exact fun hb => by cases hb.above _ List.mem_cons_self)
    have hmine := (h.stack.stack q a (h.owns hr.proc hr.kstack)).mine
    rw [← hon, ← Sys.thread, hth] at hmine
    have hp : s.proc c = some p := hmine.above _ List.mem_cons_self p rfl ▸ hr.proc
    have hnest' : Nested k (.sched :: .sleepTidy p own :: rest) := ⟨rfl,by cases own <;> exact hnest⟩
    exact h.depart hth hp (by rw [hth]; exact fun hb => by cases hb.above _ List.mem_cons_self) rfl rfl
      ⟨by rintro ⟨⟩,by rintro ⟨⟩,by rintro ⟨⟩⟩ (by rintro ⟨⟩) hnest' (owner_cons fun _ => .inl)
  | sleepTidy p own =>
    cases hx
    have h₁ : Inv (s.setProc p { s.table.proc p with chan := none }) := h.setProc rfl
    cases own with
    | false => exact h₁.calls hth rfl hnest rfl rfl (wakes_cons (by rintro ⟨⟩)) (owner_cons (by rintro _ ⟨⟩))
    | true =>
      obtain ⟨⟨rfl,cur,i,n,rfl⟩,-⟩ := hnest
      exact h₁.calls hth rfl trivial rfl rfl wakes_tail owner_tail
  | sleepRelease => exact h.return hth hx (by rintro ⟨⟩) hnest.1
  | wakeupAcquire chan =>
    rw [Sys.runFrame, hth] at hx
    refine h.acquire hx hth rfl ⟨.inl rfl,hnest⟩ rfl id (fun hw => ?_) rfl rfl id (fun _ => .inl) (fun x hx => ?_)
    · have hw' := wakes_cons (g := .wakeupRelease) (fun _ => rfl) hw
      intro x hx
      obtain rfl | hx := List.mem_cons.mp hx
      · rfl
      · exact hw' x hx
    · obtain rfl | hx := List.mem_cons.mp hx
      · rintro _ ⟨⟩
      · exact owner_cons (g := .wakeupRelease) (by rintro _ ⟨⟩) x hx
  | wakeup1 chan i =>
    rw [Sys.runFrame] at hx
    by_cases hi : i < nproc
    · rw [dif_pos hi] at hx
      cases hx
      have hnest' : Nested k (.wakeup1 chan (i + 1) :: rest) := hnest
      split
      · exact (h.rouse ⟨i,hi⟩).calls ((rouse_thread _).trans hth) rfl hnest' rfl rfl (wakes_cons fun _ => rfl)
          (owner_cons (by rintro _ ⟨⟩))
      · exact h.calls hth rfl hnest' rfl rfl (wakes_cons fun _ => rfl) (owner_cons (by rintro _ ⟨⟩))
    · rw [dif_neg hi] at hx
      cases hx
      have hl : (Thread.mk k rest).locked = true ∧ (Thread.mk k rest).leaving = false := by
        obtain hr | ⟨rfl,cur,n,rfl⟩ := hnest.1
        · obtain ⟨rest',rfl⟩ := List.head?_eq_some_iff.mp hr
          exact ⟨rfl,rfl⟩
        · exact ⟨rfl,rfl⟩
      exact h.calls hth hl.1 hnest.2 rfl hl.2 wakes_tail owner_tail
  | wakeupRelease => exact h.return hth hx (by rintro ⟨⟩) hnest.1

end Frames

section Calls
variable {k k' : Call C} {p : Fin nproc}

/-- The next point of a system call. -/
theorem Inv.goes (h : Inv s) (hth : s.thread c = ⟨k,[]⟩) (hl : k'.locked = k.locked) (hk : k.scheduling = false)
    (hk' : k'.scheduling = false) (hclaim : k'.claim = k.claim) (hdead : k' ≠ .exitDead)
    (howner : ∀ q, k'.owner = some q → k.owner = some q ∨ s.proc c = some q) : Inv (s.goto c k') :=
  h.goto hth hl (fun hb => absurd (hk.symm.trans hb.scheduling) nofun) hclaim (hk'.trans hk.symm)
    (fun he => absurd he hdead) howner

/-- The last point of a system call, or the end of `allocproc`. -/
theorem Inv.releases (h : Inv s) (hx : s.release c ⟨k',[]⟩ = .next s') (hth : s.thread c = ⟨k,[]⟩)
    (hl : k'.locked = false) (hk : k.scheduling = false) (hk' : k'.scheduling = false) (hclaim : k'.claim = k.claim)
    (hzombie : ∀ p g, k.claim ≠ some (p,.zombie,g)) (hdead : k' ≠ .exitDead) (howner : k'.owner = none) : Inv s' :=
  h.release hx hth hl trivial rfl (fun hb => absurd (hk.symm.trans hb.scheduling) nofun) (fun _ => nofun) hclaim hzombie
    (hk'.trans hk.symm) (fun he => absurd he hdead) (fun _ hq => absurd (howner.symm.trans hq) nofun) nofun

theorem Inv.acquires (h : Inv s) (hx : s.acquire c ⟨k',[]⟩ = .next s') (hth : s.thread c = ⟨k,[]⟩)
    (hl : k'.locked = true) (hk : k.scheduling = false) (hk' : k'.scheduling = false) (hclaim : k'.claim = k.claim)
    (hdead : k' ≠ .exitDead) (howner : ∀ q, k'.owner = some q → k.owner = some q ∨ s.proc c = some q) : Inv s' :=
  h.acquire hx hth hl trivial rfl (fun hb => absurd (hk.symm.trans hb.scheduling) nofun) (fun _ => nofun) hclaim
    (hk'.trans hk.symm) (fun he => absurd he hdead) howner nofun

/-- A call under the lock. -/
theorem Inv.nests {f : Frame} (h : Inv s) (hth : s.thread c = ⟨k,[]⟩) (hl : f.locked = true) (hl' : k.locked = true)
    (hclaim : k'.claim = k.claim) (hnest : Nested k' [f]) (hk : k.scheduling = false) (hk' : k'.scheduling = false)
    (hdead : k' ≠ .exitDead) (hf : (Thread.mk k' [f]).leaving ≠ true)
    (howner : ∀ q, k'.owner = some q → k.owner = some q ∨ s.proc c = some q) (hover : f.owner = none) :
    Inv (s.put c ⟨k',[f]⟩) := by
  refine h.put (l := s.lock) hth ((h.lock_thread hth).trans (iff_of_true hl' hl)) (fun _ _ => Iff.rfl) hnest rfl
    (Bool.eq_false_iff.mpr hf) (fun hb => absurd (hk.symm.trans hb.call.scheduling) nofun) hclaim
    (fun p g hc => h.zombie_lock (g := g) ((Inv.claim_thread hth).trans hc)) (hk'.trans hk.symm)
    (fun he => absurd he hdead) howner fun x hx q hq => ?_
  cases List.mem_singleton.mp hx
  exact absurd (hover.symm.trans hq) nofun

/-- `wait` has found a zombie. -/
theorem Inv.reaps {cur : Fin nproc} {i : ℕ} {havekids : Bool} (h : Inv s)
    (hth : s.thread c = ⟨.waitScan cur i havekids,[]⟩)
    (hst : s.state p = .zombie) : Inv (s.goto c (.waitFree p)) := by
  have hlock : s.lock = some c := (h.lock_thread hth).mpr rfl
  have hun (S : Stack C A) (st : ProcState) (g : Stage) : claim s S ≠ some (p,st,g) := by
    intro hc
    have hok := h.stack.claims S p st g hc
    obtain ⟨b,hb,hl⟩ := hok.lock (hok.state.symm.trans hst)
    cases Option.some_inj.mp (hl.symm.trans hlock)
    rw [← hb, Inv.claim_thread hth] at hc
    cases hc
  refine h.gain (p := p) hth rfl rfl hst (fun b hb => ?_) hun nofun
    (fun _ => h.stack.fitted p (hst ▸ nofun) (hst ▸ nofun) hun) (fun _ => hlock) ⟨rfl,rfl,rfl,rfl,nofun⟩
  obtain hrun | ⟨-,hl⟩ := h.cpu.proc_state hb
  · exact absurd (hst.symm.trans hrun) nofun
  · cases Option.some_inj.mp (hl.symm.trans hlock)
    obtain ⟨q,a,hon,hr⟩ := h.on_page (c := c) (by rw [hth]; exact fun hb => hb.call)
    cases hb.symm.trans hr.proc
    have hrun := hr.running (by rw [← hon, ← Sys.thread, hth]; rfl)
    exact absurd (hst.symm.trans hrun) nofun

/-- A step of a thread with no calls on top. -/
theorem Inv.runCall {page : Option A} {copied : Bool} (h : Inv s) (hth : s.thread c = ⟨k,[]⟩)
    (hx : s.runCall c page copied k = .next s') : Inv s' := by
  cases k with
  | other => cases hx
  | forkStart =>
    rw [Sys.runCall] at hx
    split at hx
    · cases hx
    · cases hx
      exact h.goes hth rfl rfl rfl rfl nofun nofun
  | allocAcquire cur => exact h.acquires hx hth rfl rfl rfl rfl nofun nofun
  | allocScan cur i =>
    rw [Sys.runCall] at hx
    split_ifs at hx with hi hst
    · cases hx
      have hst' : (s.embryo ⟨i,hi⟩).state ⟨i,hi⟩ = .embryo := embryo_self
      have h₁ : Inv (s.embryo ⟨i,hi⟩) := h.embryo hst
      exact h₁.gain (p := ⟨i,hi⟩) hth rfl rfl hst' (fun b hb => (h.cpu.alive hb).1 hst)
        (h.stack.unclaimed (hst ▸ nofun) (hst ▸ nofun)) (fun _ => h.stack.bare _ hst) (fun hg => absurd rfl hg) nofun
        ⟨rfl,rfl,rfl,rfl,nofun⟩
    · cases hx
      exact h.goes hth rfl rfl rfl rfl nofun nofun
    · cases hx
      exact h.goes hth rfl rfl rfl rfl nofun nofun
  | allocRelease cur found =>
    cases found with
    | none => exact h.releases hx hth rfl rfl rfl rfl nofun nofun rfl
    | some np => exact h.releases hx hth rfl rfl rfl rfl nofun nofun rfl
  | allocStack cur np =>
    cases page with
    | none =>
      cases hx
      exact h.clearStack hth rfl rfl ⟨rfl,rfl,rfl,rfl,nofun⟩
    | some a =>
      rw [Sys.runCall] at hx
      split_ifs at hx with ha
      cases hx
      exact h.newStack hth rfl ha rfl ⟨rfl,rfl,rfl,rfl,nofun⟩
  | allocFail np =>
    cases hx
    exact h.drop hth rfl rfl rfl ⟨rfl,rfl,rfl,rfl,nofun⟩
  | forkCopy cur np =>
    cases hx
    cases copied with
    | false => exact h.goes hth rfl rfl rfl rfl nofun nofun
    | true => exact h.goes hth rfl rfl rfl rfl nofun nofun
  | forkFree np =>
    rw [Sys.runCall] at hx
    split at hx
    · cases hx
    · rename_i a ha
      cases hx
      exact h.freeStack hth rfl ha rfl ⟨rfl,rfl,rfl,rfl,nofun⟩
  | forkClear np =>
    cases hx
    exact h.clearStack hth rfl rfl ⟨rfl,rfl,rfl,rfl,nofun⟩
  | forkDrop np =>
    cases hx
    exact h.drop hth rfl rfl rfl ⟨rfl,rfl,rfl,rfl,nofun⟩
  | forkParent cur np =>
    cases hx
    have h₁ : Inv (s.setProc np { s.table.proc np with parent := some cur }) := h.setProc rfl
    exact h₁.goes hth rfl rfl rfl rfl nofun nofun
  | forkAcquire np => exact h.acquires hx hth rfl rfl rfl rfl nofun nofun
  | forkState np =>
    cases hx
    exact h.ready hth rfl rfl ⟨rfl,rfl,rfl,rfl,nofun⟩
  | forkRelease => exact h.releases hx hth rfl rfl rfl rfl nofun nofun rfl
  | exitStart =>
    rw [Sys.runCall] at hx
    split at hx
    · cases hx
    · rename_i cur hcur
      split_ifs at hx
      cases hx
      exact h.goes hth rfl rfl rfl rfl nofun fun q hq => .inr (hcur.trans hq)
  | exitClose cur =>
    cases hx
    exact h.goes hth rfl rfl rfl rfl nofun fun _ => .inl
  | exitAcquire cur => exact h.acquires hx hth rfl rfl rfl rfl nofun fun _ => .inl
  | exitWake cur =>
    cases hx
    exact h.nests hth rfl rfl rfl ⟨.inr ⟨rfl,cur,0,rfl⟩,trivial⟩ rfl rfl nofun nofun (fun _ => .inl)
      (by simp [Frame.owner])
  | exitScan cur i =>
    rw [Sys.runCall] at hx
    by_cases hi : i < nproc
    · rw [dif_pos hi] at hx
      split_ifs at hx with hp hst
      · cases hx
        have h₁ : Inv (s.setProc ⟨i,hi⟩ { s.table.proc ⟨i,hi⟩ with parent := some s.table.initproc }) := h.setProc rfl
        exact h₁.nests hth rfl rfl rfl ⟨.inr ⟨rfl,cur,i + 1,rfl⟩,trivial⟩ rfl rfl nofun nofun (fun _ => .inl)
          (by simp [Frame.owner])
      · cases hx
        have h₁ : Inv (s.setProc ⟨i,hi⟩ { s.table.proc ⟨i,hi⟩ with parent := some s.table.initproc }) := h.setProc rfl
        exact h₁.goes hth rfl rfl rfl rfl nofun fun _ => .inl
      · cases hx
        exact h.goes hth rfl rfl rfl rfl nofun fun _ => .inl
    · rw [dif_neg hi] at hx
      cases hx
      exact h.goes hth rfl rfl rfl rfl nofun fun _ => .inl
  | exitState cur =>
    cases hx
    exact h.die hth
  | exitDead => cases hx
  | waitStart =>
    rw [Sys.runCall] at hx
    split at hx
    · cases hx
    · cases hx
      exact h.goes hth rfl rfl rfl rfl nofun nofun
  | waitAcquire cur => exact h.acquires hx hth rfl rfl rfl rfl nofun nofun
  | waitScan cur i havekids =>
    rw [Sys.runCall] at hx
    split_ifs at hx with hi hp hst hk
    · cases hx
      exact h.goes hth rfl rfl rfl rfl nofun nofun
    · cases hx
      exact h.reaps hth hst
    · cases hx
      exact h.goes hth rfl rfl rfl rfl nofun nofun
    · cases hx
      exact h.goes hth rfl rfl rfl rfl nofun nofun
    · cases hx
      exact h.nests hth rfl rfl rfl ⟨⟨rfl,cur,0,false,rfl⟩,trivial⟩ rfl rfl nofun nofun nofun (by simp [Frame.owner])
  | waitFree p =>
    rw [Sys.runCall] at hx
    split at hx
    · cases hx
    · rename_i a ha
      cases hx
      exact h.freeStack hth rfl ha rfl ⟨rfl,rfl,rfl,rfl,nofun⟩
  | waitClear p =>
    cases hx
    exact h.clearStack hth rfl rfl ⟨rfl,rfl,rfl,rfl,nofun⟩
  | waitReap p =>
    cases hx
    exact h.drop hth rfl rfl rfl ⟨rfl,rfl,rfl,rfl,nofun⟩
  | waitRelease => exact h.releases hx hth rfl rfl rfl rfl nofun nofun rfl
  | killAcquire pid => exact h.acquires hx hth rfl rfl rfl rfl nofun nofun
  | killScan pid i =>
    rw [Sys.runCall] at hx
    split_ifs at hx with hi hp
    · cases hx
      have h₁ : Inv (s.setProc ⟨i,hi⟩ { s.table.proc ⟨i,hi⟩ with killed := true }) := h.setProc rfl
      exact h₁.goes hth rfl rfl rfl rfl nofun nofun
    · cases hx
      exact h.goes hth rfl rfl rfl rfl nofun nofun
    · cases hx
      exact h.goes hth rfl rfl rfl rfl nofun nofun
  | killState p =>
    cases hx
    exact (h.rouse p).goes ((rouse_thread p).trans hth) rfl rfl rfl rfl nofun nofun
  | killRelease => exact h.releases hx hth rfl rfl rfl rfl nofun nofun rfl
  | forkret => exact h.releases hx hth rfl rfl rfl rfl nofun nofun rfl
  | schedulerStart me =>
    cases hx
    obtain ⟨-,rfl,hnone⟩ := h.on_boot hth rfl
    have heq : s.setCpuProc me none = s := by rw [Sys.setCpuProc, ← hnone, Function.update_eq_self]
    rw [heq]
    exact h.goto hth rfl id rfl rfl nofun nofun
  | schedulerLoop me =>
    cases hx
    exact h.goto hth rfl id rfl rfl nofun nofun
  | schedulerAcquire me =>
    exact h.acquire hx hth rfl trivial rfl id (fun _ => nofun) rfl rfl nofun nofun nofun
  | schedulerScan me i =>
    rw [Sys.runCall] at hx
    split_ifs at hx with hi hst
    · cases hx
      exact h.pick hth hst
    · cases hx
      exact h.goto hth rfl id rfl rfl nofun nofun
    · cases hx
      exact h.goto hth rfl id rfl rfl nofun nofun
  | schedulerRun me p =>
    rw [Sys.runCall] at hx
    split_ifs at hx
    cases hx
    exact (h.run hth).2
  | schedulerSwtch me p =>
    rw [Sys.runCall] at hx
    split at hx
    · cases hx
    · rename_i target htarget
      cases hx
      obtain ⟨a,ha,hinv⟩ := h.resume hth
      cases htarget.symm.trans ha
      exact hinv
  | schedulerBack me p =>
    cases hx
    exact h.back hth
  | schedulerRelease me =>
    exact h.release hx hth rfl trivial rfl id (fun _ => nofun) rfl nofun rfl nofun nofun nofun

end Calls

section Runs
variable {a : A} {p : Fin nproc}

theorem Inv.exec {page : Option A} {copied : Bool} (h : Inv s) (hx : s.exec c page copied = .next s') : Inv s' := by
  unfold Sys.exec at hx
  cases hth : s.thread c with
  | mk k above =>
    rw [hth] at hx
    cases above with
    | nil => exact h.runCall hth hx
    | cons f rest => exact h.runFrame hth hx

/-- Code outside the lock makes a call. -/
theorem Inv.enters {f : Frame} (h : Inv s) (hl : s.lock ≠ some c)
    (hf : f.locked = false ∧ f.owner = none ∧ ∀ rest, f.Above (s.thread c).call rest ↔
      (Thread.mk (s.thread c).call rest).locked = false)
    (hproc : f.wakes = true ∨ (s.proc c).isSome = true) : Inv (s.calls c (f :: (s.thread c).above)) := by
  obtain ⟨hfl,hfo,habove⟩ := hf
  have hth : s.thread c = ⟨(s.thread c).call,(s.thread c).above⟩ := rfl
  have hun := h.cpu.of_not_locked hl
  have hstay : (s.thread c).leaving = false :=
    Bool.eq_false_iff.mpr fun hlv => absurd ((Thread.locked_of_leaving hlv).symm.trans hun) nofun
  refine h.put (l := s.lock) hth ?_ (fun _ _ => Iff.rfl) ⟨(habove _).mpr hun,h.nested_thread hth⟩ hstay ?_
    (fun hb => ?_) rfl
    (fun p g hc => h.zombie_lock (g := g) hc) rfl id (fun _ => .inl) fun x hx q hq => ?_
  · exact iff_of_false hl fun hf => absurd (hfl.symm.trans hf) nofun
  · exact Bool.eq_false_iff.mpr fun hlv => absurd (hfl.symm.trans (Thread.locked_of_leaving hlv)) nofun
  · refine ⟨hb.call,fun x hx => ?_⟩
    obtain rfl | hx := List.mem_cons.mp hx
    · refine hproc.resolve_right fun hsome => ?_
      obtain ⟨p,hp⟩ := Option.isSome_iff_exists.mp hsome
      exact hl (h.cpu.boot_lock (h.on_boot hth hb.call.scheduling).1 hp).1
    · exact hb.above x hx
  · obtain rfl | hx := List.mem_cons.mp hx
    · exact absurd (hfo.symm.trans hq) nofun
    · exact .inl ⟨x,hx,hq⟩

theorem Inv.after {act : Action C A} (h : Inv s) (hs : step s act = some s') : Inv s' := by
  cases act with
  | run c page copied =>
    rw [step] at hs
    split at hs
    · rename_i t hx
      cases hs
      exact h.exec hx
    · cases hs
  | syscall c k =>
    rw [step] at hs
    split_ifs at hs with hc
    cases hs
    have hth : s.thread c = ⟨.other,[]⟩ := by
      rw [← hc.1, ← hc.2]
    cases k with
    | fork => exact h.goes hth rfl rfl rfl rfl nofun nofun
    | exit => exact h.goes hth rfl rfl rfl rfl nofun nofun
    | wait => exact h.goes hth rfl rfl rfl rfl nofun nofun
    | kill pid => exact h.goes hth rfl rfl rfl rfl nofun nofun
  | yield c =>
    rw [step] at hs
    split at hs
    · cases hs
    · rename_i p hp
      split_ifs at hs with hc
      cases hs
      exact h.enters hc.1 ⟨rfl,rfl,fun _ => Iff.rfl⟩ (.inr (hp ▸ rfl))
  | sleep c chan =>
    rw [step] at hs
    split_ifs at hs with hc
    cases hs
    exact h.enters hc.1 ⟨rfl,rfl,fun _ => Iff.rfl⟩ (.inr hc.2)
  | wakeup c chan =>
    rw [step] at hs
    split_ifs at hs with hc
    cases hs
    exact h.enters hc ⟨rfl,rfl,fun _ => Iff.rfl⟩ (.inl rfl)
  | take a =>
    rw [step] at hs
    split_ifs at hs with ha
    cases hs
    exact h.setUse (ha ▸ nofun)
  | give a =>
    rw [step] at hs
    split_ifs at hs with ha
    cases hs
    exact h.setUse (ha ▸ nofun)

theorem booted_state (h : Boot s) : s.state p = if p = 0 then .runnable else .unused := by
  rw [Sys.state, h.table]
  change (Function.update (fun _ => zeroProc) 0 { zeroProc with state := .runnable, pid := 1 } p).state = _
  by_cases hp : p = 0
  · rw [hp, Function.update_self, if_pos rfl]
  · rw [Function.update_of_ne hp, if_neg hp]
    rfl

theorem Boot.inv (h : Boot s) : Inv s := by
  obtain ⟨a,hk,hctx,huse,hcode,hother⟩ := h.stack
  have hpage (b : A) : s.code (.page b) = if b = a then ⟨.forkret,[]⟩ else ⟨.other,[]⟩ := by
    by_cases hb : b = a
    · rw [if_pos hb, hb, hcode]
    · rw [if_neg hb, hother b hb]
  have hclaim (S : Stack C A) : claim s S = none := by
    cases S with
    | boot b => rw [claim, h.code]; rfl
    | page b =>
      rw [claim, hpage]
      split <;> rfl
  have hkstack {p : Fin nproc} {b : A} (hp : s.kstack p = some b) : p = 0 ∧ b = a := by
    rw [hk] at hp
    by_cases h0 : p = 0
    · rw [h0, Function.update_self] at hp
      exact ⟨h0,(Option.some_inj.mp hp).symm⟩
    · rw [Function.update_of_ne h0] at hp
      cases hp
  constructor
  · constructor
    · intro c
      rw [h.lock, Sys.thread, h.on, h.code]
      exact iff_of_false (by rintro ⟨⟩) (by rintro ⟨⟩)
    · intro S
      cases S with
      | boot b => rw [h.code]; trivial
      | page b =>
        rw [hpage]
        split <;> trivial
    · intro c c' hc
      cases (h.on c).symm.trans hc
      rw [h.code]
      exact ⟨rfl,⟨rfl,h.proc c⟩,(by rintro _ ⟨⟩)⟩
    · intro c b hc
      cases (h.on c).symm.trans hc
    · intro c c' hc
      rw [h.on, h.on] at hc
      exact Stack.boot.inj hc
    · intro c c' p hp
      cases (h.proc c).symm.trans hp
    · intro p hp
      rw [booted_state h] at hp
      split at hp <;> cases hp
  · constructor
    · intro p b ho
      obtain ⟨rfl,rfl⟩ := hkstack ho.kstack
      have hst : s.state 0 = .runnable := booted_state h
      refine ⟨huse,hcode ▸ ⟨rfl,by rintro _ ⟨⟩,by rintro _ ⟨⟩⟩,?_,fun he => (by cases hst.symm.trans he),
        fun _ => ⟨hctx,hcode ▸ rfl⟩⟩
      rw [hcode, hst]
      exact iff_of_false (by rintro ⟨⟩) (by rintro ⟨⟩)
    · intro p q b hp hq
      exact (hkstack hp.kstack).1.trans (hkstack hq.kstack).1.symm
    · exact fun S p st g hc => by cases (hclaim S).symm.trans hc
    · exact fun S S' p st st' g g' hc => by cases (hclaim S).symm.trans hc
    · intro p hp
      rw [booted_state h] at hp
      split at hp
      · cases hp
      · rename_i h0
        rw [hk, Function.update_of_ne h0]
    · intro p hu he _
      have h0 : p = 0 := by
        by_contra h0
        exact hu (by rw [booted_state h, if_neg h0])
      exact ⟨a,by rw [hk, h0, Function.update_self]⟩

theorem Reached.inv (h : Reached s) : Inv s :=
  h.invariant (fun _ hb => hb.inv) fun _ _ _ hi hs => hi.after hs

end Runs

section Panics
variable {k : Call C} {f : Frame} {rest : List Frame} {t : Thread C}

/-- What a processor may execute: it panics in the exit of init only, and does not spin with the
lock. -/
def Safe (s : Sys C A) (c : C) : Outcome (Sys C A) → Prop
  | .next _ => True
  | .spin => s.lock ≠ some c
  | .panic e => e = .initExiting ∧ s.proc c = some s.table.initproc ∧ s.lock ≠ some c
  | .fault => False

theorem acquire_safe (hl : s.lock ≠ some c) : Safe s c (s.acquire c t) := by
  unfold Sys.acquire
  rw [if_neg hl]
  split
  · trivial
  · exact hl

theorem release_safe (hl : s.lock = some c) : Safe s c (s.release c t) := by
  unfold Sys.release
  rw [if_pos hl]
  trivial

theorem Inv.runFrame_safe (h : Inv s) (hth : s.thread c = ⟨k,f :: rest⟩) : Safe s c (s.runFrame c rest f) := by
  have hlock := h.lock_thread hth
  have hun (hf : f.locked = false) : s.lock ≠ some c := fun hl => absurd (hf.symm.trans (hlock.mp hl)) nofun
  have hpage (hf : f.wakes = false) : ∃ p a, s.on c = .page a ∧ Runs s c p a := h.on_page (by
    rw [hth]
    exact fun hb => absurd (hf.symm.trans (hb.above f List.mem_cons_self)) nofun)
  cases f with
  | yieldAcquire => exact acquire_safe (hun rfl)
  | yieldState =>
    obtain ⟨p,a,-,hr⟩ := hpage rfl
    rw [Sys.runFrame, hr.proc]
    trivial
  | yieldRelease => exact release_safe (hlock.mpr rfl)
  | sched =>
    obtain ⟨p,a,hon,hr⟩ := hpage rfl
    have hleft := hr.left (by rw [← hon, ← Sys.thread, hth]; rfl)
    rw [Sys.runFrame, hr.proc, hr.scheduler]
    dsimp only
    rw [if_neg (not_not_intro (hlock.mpr rfl)), if_neg hleft.2.2]
    trivial
  | sleepStart chan own =>
    obtain ⟨p,a,-,hr⟩ := hpage rfl
    rw [Sys.runFrame, hr.proc]
    trivial
  | sleepAcquire p chan => exact acquire_safe (hun rfl)
  | sleepChan p chan own => trivial
  | sleepState p own => trivial
  | sleepTidy p own => trivial
  | sleepRelease => exact release_safe (hlock.mpr rfl)
  | wakeupAcquire chan => exact acquire_safe (hun rfl)
  | wakeup1 chan i =>
    rw [Sys.runFrame]
    split <;> trivial
  | wakeupRelease => exact release_safe (hlock.mpr rfl)

theorem Inv.runCall_safe (h : Inv s) (hth : s.thread c = ⟨k,[]⟩) (page : Option A) (copied : Bool) :
    Safe s c (s.runCall c page copied k) := by
  have hlock := h.lock_thread hth
  have hun (hk : k.locked = false) : s.lock ≠ some c := fun hl => by cases hk.symm.trans (hlock.mp hl)
  have hpage (hk : k.scheduling = false) : ∃ p a, s.on c = .page a ∧ Runs s c p a := h.on_page (by
    rw [hth]
    exact fun hb => by cases hk.symm.trans hb.call.scheduling)
  cases k with
  | other => exact hun rfl
  | forkStart =>
    obtain ⟨p,a,-,hr⟩ := hpage rfl
    rw [Sys.runCall, hr.proc]
    trivial
  | allocAcquire cur => exact acquire_safe (hun rfl)
  | allocScan cur i =>
    rw [Sys.runCall]
    split
    · split <;> trivial
    · trivial
  | allocRelease cur found => cases found <;> exact release_safe (hlock.mpr rfl)
  | allocStack cur np =>
    cases page with
    | none => trivial
    | some a =>
      rw [Sys.runCall]
      split
      · trivial
      · exact hun rfl
  | allocFail np => trivial
  | forkCopy cur np => trivial
  | forkFree np =>
    obtain ⟨a,ha⟩ := (h.claimed hth rfl).fitted (by rintro ⟨⟩)
    rw [Sys.runCall, ha]
    trivial
  | forkClear np => trivial
  | forkDrop np => trivial
  | forkParent cur np => trivial
  | forkAcquire np => exact acquire_safe (hun rfl)
  | forkState np => trivial
  | forkRelease => exact release_safe (hlock.mpr rfl)
  | exitStart =>
    obtain ⟨p,a,-,hr⟩ := hpage rfl
    rw [Sys.runCall, hr.proc]
    dsimp only
    split
    · rename_i hp
      exact ⟨rfl,hp ▸ hr.proc,hun rfl⟩
    · trivial
  | exitClose cur => trivial
  | exitAcquire cur => exact acquire_safe (hun rfl)
  | exitWake cur => trivial
  | exitScan cur i =>
    rw [Sys.runCall]
    split
    · split <;> trivial
    · trivial
  | exitState cur => trivial
  | exitDead =>
    obtain ⟨p,a,hon,hr⟩ := hpage rfl
    have hcode : s.code (.page a) = ⟨.exitDead,[]⟩ := by rw [← hon, ← Sys.thread, hth]
    have hrun := hr.running (by rw [hcode]; rfl)
    have hdead := (h.stack.stack p a (h.owns hr.proc hr.kstack)).dead.mp (by rw [hcode])
    cases hrun.symm.trans hdead
  | waitStart =>
    obtain ⟨p,a,-,hr⟩ := hpage rfl
    rw [Sys.runCall, hr.proc]
    trivial
  | waitAcquire cur => exact acquire_safe (hun rfl)
  | waitScan cur i havekids =>
    rw [Sys.runCall]
    split
    · split
      · trivial
      · split <;> trivial
    · split <;> trivial
  | waitFree p =>
    obtain ⟨a,ha⟩ := (h.claimed hth rfl).fitted (by rintro ⟨⟩)
    rw [Sys.runCall, ha]
    trivial
  | waitClear p => trivial
  | waitReap p => trivial
  | waitRelease => exact release_safe (hlock.mpr rfl)
  | killAcquire pid => exact acquire_safe (hun rfl)
  | killScan pid i =>
    rw [Sys.runCall]
    split
    · split <;> trivial
    · trivial
  | killState p => trivial
  | killRelease => exact release_safe (hlock.mpr rfl)
  | forkret => exact release_safe (hlock.mpr rfl)
  | schedulerStart me => trivial
  | schedulerLoop me => trivial
  | schedulerAcquire me => exact acquire_safe (hun rfl)
  | schedulerScan me i =>
    rw [Sys.runCall]
    split
    · split <;> trivial
    · trivial
  | schedulerRun me p =>
    obtain ⟨⟨a,ha⟩,-⟩ := h.run hth
    rw [Sys.runCall, ha]
    trivial
  | schedulerSwtch me p =>
    obtain ⟨a,ha,-⟩ := h.resume hth
    rw [Sys.runCall, ha]
    trivial
  | schedulerBack me p => trivial
  | schedulerRelease me => exact release_safe (hlock.mpr rfl)

theorem Inv.safe (h : Inv s) (c : C) (page : Option A) (copied : Bool) : Safe s c (s.exec c page copied) := by
  unfold Sys.exec
  cases hth : s.thread c with
  | mk k above =>
    cases above with
    | nil => exact h.runCall_safe hth page copied
    | cons f rest => exact h.runFrame_safe hth

end Panics

section Aside
variable {b : C} {p : Fin nproc}

theorem rouse_code : (s.rouse p).code = s.code ∧ (s.rouse p).on = s.on := by
  unfold Sys.rouse
  split <;> exact ⟨rfl,rfl⟩

/-- What a step of a processor does to the lock and the others. -/
structure Aside (s s' : Sys C A) (b : C) : Prop where
  lock : s'.lock = s.lock ∨ s.lock = none ∧ s'.lock = some b ∨ s.lock = some b ∧ s'.lock = none
  on : ∀ c, c ≠ b → s'.on c = s.on c
  quiet : s'.on = s.on ∨ s'.use = s.use
  code : ∀ S, S ≠ s.on b → (∀ a, S = .page a → s.use a ≠ .free) → s'.code S = s.code S

theorem aside_put {t : Thread C} {s₁ : Sys C A} (hlock : s₁.lock = s.lock) (hon : s₁.on = s.on)
    (hcode : s₁.code = s.code) :
    Aside s (s₁.put b t) b where
  lock := .inl hlock
  on d _ := congrFun hon d
  quiet := .inl hon
  code S hS _ := (put_code_of_ne (hon ▸ hS)).trans (congrFun hcode S)

theorem aside_acquire {t : Thread C} (hx : s.acquire b t = .next s') : Aside s s' b := by
  obtain ⟨hnone,rfl⟩ := Inv.acquire_spec hx
  exact ⟨.inr (.inl ⟨hnone,rfl⟩),fun _ _ => rfl,.inl rfl,fun S hS _ => put_code_of_ne hS⟩

theorem aside_release {t : Thread C} (hx : s.release b t = .next s') : Aside s s' b := by
  obtain ⟨hsome,rfl⟩ := Inv.release_spec hx
  exact ⟨.inr (.inr ⟨hsome,rfl⟩),fun _ _ => rfl,.inl rfl,fun S hS _ => put_code_of_ne hS⟩

theorem runFrame_aside {f : Frame} {rest : List Frame} (hx : s.runFrame b rest f = .next s') : Aside s s' b := by
  cases f with
  | yieldAcquire | sleepAcquire | wakeupAcquire => exact aside_acquire hx
  | yieldRelease | sleepRelease | wakeupRelease => exact aside_release hx
  | yieldState | sleepStart =>
    rw [Sys.runFrame] at hx
    split at hx
    · cases hx
    · cases hx
      exact aside_put rfl rfl rfl
  | sched =>
    rw [Sys.runFrame] at hx
    split at hx
    · split_ifs at hx
      cases hx
      exact ⟨.inl rfl,fun c hc => Function.update_of_ne hc ..,.inr rfl,fun S hS _ => put_code_of_ne hS⟩
    · cases hx
  | sleepChan | sleepState | sleepTidy =>
    cases hx
    exact aside_put rfl rfl rfl
  | wakeup1 chan i =>
    rw [Sys.runFrame] at hx
    by_cases hi : i < nproc
    · rw [dif_pos hi] at hx
      cases hx
      split
      · refine aside_put ?_ rouse_code.2 rouse_code.1
        unfold Sys.rouse
        split <;> rfl
      · exact aside_put rfl rfl rfl
    · rw [dif_neg hi] at hx
      cases hx
      exact aside_put rfl rfl rfl

theorem runCall_aside {page : Option A} {copied : Bool} {k : Call C} (hx : s.runCall b page copied k = .next s') :
    Aside s s' b := by
  cases k with
  | allocAcquire | forkAcquire | exitAcquire | waitAcquire | killAcquire | schedulerAcquire => exact aside_acquire hx
  | forkRelease | waitRelease | killRelease | forkret | schedulerRelease => exact aside_release hx
  | allocRelease cur found => cases found <;> exact aside_release hx
  | other | exitDead => cases hx
  | forkStart | waitStart | forkFree | waitFree =>
    rw [Sys.runCall] at hx
    split at hx
    · cases hx
    · cases hx
      exact aside_put rfl rfl rfl
  | exitStart =>
    rw [Sys.runCall] at hx
    split at hx
    · cases hx
    · split_ifs at hx
      cases hx
      exact aside_put rfl rfl rfl
  | allocScan | waitScan | killScan | schedulerScan =>
    rw [Sys.runCall] at hx
    split_ifs at hx
    all_goals
      cases hx
      exact aside_put rfl rfl rfl
  | exitScan cur i =>
    rw [Sys.runCall] at hx
    by_cases hi : i < nproc
    · rw [dif_pos hi] at hx
      split_ifs at hx
      all_goals
        cases hx
        exact aside_put rfl rfl rfl
    · rw [dif_neg hi] at hx
      cases hx
      exact aside_put rfl rfl rfl
  | allocStack cur np =>
    cases page with
    | none =>
      cases hx
      exact aside_put rfl rfl rfl
    | some a =>
      rw [Sys.runCall] at hx
      split_ifs at hx with ha
      cases hx
      refine ⟨.inl rfl,fun _ _ => rfl,.inl rfl,fun S hS hfree => ?_⟩
      have hne : S ≠ .page a := fun he => hfree a he ha
      exact (put_code_of_ne (s := s.newStack np a) hS).trans (Function.update_of_ne hne ..)
  | killState p =>
    cases hx
    refine aside_put ?_ rouse_code.2 rouse_code.1
    unfold Sys.rouse
    split <;> rfl
  | schedulerRun me p =>
    rw [Sys.runCall] at hx
    split_ifs at hx
    cases hx
    exact aside_put rfl rfl rfl
  | schedulerSwtch me p =>
    rw [Sys.runCall] at hx
    split at hx
    · cases hx
    · cases hx
      exact ⟨.inl rfl,fun c hc => Function.update_of_ne hc ..,.inr rfl,fun S hS _ => put_code_of_ne hS⟩
  | _ =>
    cases hx
    exact aside_put rfl rfl rfl

theorem exec_aside {page : Option A} {copied : Bool} (hx : s.exec b page copied = .next s') : Aside s s' b := by
  unfold Sys.exec at hx
  split at hx
  · exact runCall_aside hx
  · exact runFrame_aside hx

theorem step_quiet {act : Action C A} (hs : step s act = some s') : s'.on = s.on ∨ s'.use = s.use := by
  cases act with
  | run b page copied =>
    unfold step at hs
    dsimp only at hs
    split at hs
    · rename_i t hx
      cases hs
      exact (exec_aside hx).quiet
    · cases hs
  | yield b =>
    unfold step at hs
    dsimp only at hs
    split at hs
    · cases hs
    · split_ifs at hs
      cases hs
      exact .inl rfl
  | _ =>
    unfold step at hs
    dsimp only at hs
    split_ifs at hs
    cases hs
    exact .inl rfl

end Aside

section Main

/-- While the lock is free, the running processes are those that one processor each has in
`c->proc`. -/
theorem running_on_one_processor (h : Reached s) (hl : s.lock = none) :
    (∀ p, s.state p = .running ↔ ∃! c, s.proc c = some p) ∧ (∀ c p, s.proc c = some p → s.state p = .running) ∧
    ∀ c c' p, s.proc c = some p → s.proc c' = some p → c = c' := by
  have hinv := h.inv.cpu
  have hrun (c : C) (p : Fin nproc) (hp : s.proc c = some p) : s.state p = .running := by
    obtain hst | ⟨-,hc⟩ := hinv.proc_state hp
    · exact hst
    · exact absurd (hc.symm.trans hl) nofun
  refine ⟨fun p => ⟨fun hst => ?_,fun ⟨c,hc,_⟩ => hrun c p hc⟩,hrun,hinv.alone⟩
  obtain ⟨c,hc⟩ := hinv.running p hst
  exact ⟨c,hc,fun c' hc' => hinv.alone c' c p hc' hc⟩

/-- Two processors never execute one stack, a kernel stack that is executed is that of the process
of the processor, and a step that gives a kernel stack back to `kalloc` leaves nobody on it. -/
theorem stacks_on_one_processor (h : Reached s) :
    (∀ c c', s.on c = s.on c' → c = c') ∧
    (∀ c a, s.on c = .page a → s.use a = .stack ∧ ∃ p, s.proc c = some p ∧ s.kstack p = some a) ∧
    ∀ act s' a c, step s act = some s' → s.use a = .stack → s'.use a ≠ .stack →
      s.on c ≠ .page a ∧ s'.on c ≠ .page a := by
  have huse {s : Sys C A} (h : Inv s) {c : C} {a : A} (hon : s.on c = .page a) :
      s.use a = .stack ∧ ∃ p, s.proc c = some p ∧ s.kstack p = some a := by
    obtain ⟨p,hp⟩ := h.cpu.page c a hon
    exact ⟨(h.stack.stack p a (h.owns hp.proc hp.kstack)).use,p,hp.proc,hp.kstack⟩
  refine ⟨h.inv.cpu.one,fun c a => huse h.inv,fun act s' a c hs hst hst' => ?_⟩
  have hafter : s'.on c ≠ .page a := fun hon => hst' (huse (h.inv.after hs) hon).1
  refine ⟨?_,hafter⟩
  have hquiet : s'.on = s.on ∨ s'.use = s.use := step_quiet hs
  obtain hon | hu := hquiet
  · rwa [← hon]
  · exact absurd (hu ▸ hst) hst'

end Main

section Witness

/-- Two processors, and the stack of init in the first page. -/
def bootSys : Sys Bool ℕ where
  table := booted
  kstack := Function.update (fun _ => none) 0 (some 0)
  context := Function.update (fun _ => none) 0 (some (.page 0))
  proc _ := none
  scheduler _ := none
  lock := none
  use a := if a = 0 then .stack else .free
  on := .boot
  code
    | .boot c => ⟨.schedulerStart c,[]⟩
    | .page a => if a = 0 then ⟨.forkret,[]⟩ else ⟨.other,[]⟩

theorem bootSys_boot : Boot bootSys where
  table := rfl
  stack := ⟨0,rfl,rfl,rfl,rfl,fun _ hb => if_neg hb⟩
  proc _ := rfl
  lock := rfl
  on _ := rfl
  code _ := rfl

/-- The first processor chooses init, which returns from `forkret`. -/
def firstRun : List (Action Bool ℕ) := List.replicate 7 (.run false none false)

theorem firstRun_isSome : (firstRun.foldlM step bootSys).isSome = true := by decide +kernel

/-- The state in which init runs. -/
def initRuns : Sys Bool ℕ := (firstRun.foldlM step bootSys).get firstRun_isSome

theorem initRuns_reached : Reached initRuns :=
  Reachable.foldlM firstRun (.base bootSys_boot) (Option.some_get firstRun_isSome).symm

theorem init_on_one_processor : initRuns.lock = none ∧ initRuns.state 0 = .running ∧
    ∃! c, initRuns.proc c = some 0 := by
  have hl : initRuns.lock = none := by decide +kernel
  have hst : initRuns.state 0 = .running := by decide +kernel
  exact ⟨hl,hst,((running_on_one_processor initRuns_reached hl).1 0).mp hst⟩

theorem init_stack : initRuns.on false = .page 0 ∧ initRuns.use 0 = .stack := by
  have hon : initRuns.on false = .page 0 := by decide +kernel
  exact ⟨hon,((stacks_on_one_processor initRuns_reached).2.1 false 0 hon).1⟩

end Witness

end X86OsDev.Xv6.Scheduler
