import X86OsDev.Xv6.ProcExit

/-! # Exit and wait

A process is reaped once, by its parent at its exit or by init, every process
but init has a live parent, and nobody sleeps in `wait` while a child is a
zombie.
-/
namespace X86OsDev.Xv6.Ptable
open Transition

/-- Slots under construction belong to one fork, the others have a live parent, and the records
of exits and waits agree. -/
structure Inv (s : Sys) : Prop where
  initLive : (s.table.proc s.table.initproc).state.Live
  initPid : (s.table.proc s.table.initproc).pid = 1
  initParent : (s.table.proc s.table.initproc).parent = none
  notSelf : ∀ p, (s.table.proc p).parent ≠ some p
  free : ∀ p, (s.table.proc p).state = .unused → (s.table.proc p).parent = none
  forking : ∀ c np, s.stage c = .forking np →
    (s.table.proc np).state = .embryo ∧ (s.table.proc np).parent = none
  linked : ∀ c np, s.stage c = .linked np →
    (s.table.proc np).state = .embryo ∧ (s.table.proc np).parent = some c
  builder : ∀ c np, (s.stage c).builds = some np → (s.table.proc c).state.Live
  alone : ∀ c d np, (s.stage c).builds = some np → (s.stage d).builds = some np → c = d
  parents : ∀ p, p ≠ s.table.initproc → (s.table.proc p).state ≠ .unused →
    (s.table.proc p).state ≠ .embryo →
    ∃ q, (s.table.proc p).parent = some q ∧ (s.table.proc q).state.Live
  sleepers : ∀ p, SleepsInWait s.table p → ∀ q, (s.table.proc q).parent = some p →
    (s.table.proc q).state ≠ .zombie
  exited : ∀ p q, (s.table.proc p).state = .zombie → (s.table.proc p).parent = some q →
    ((s.table.proc p).pid,(s.table.proc q).pid) ∈ s.exits ∨
      q = s.table.initproc ∧ ∃ x, ((s.table.proc p).pid,x) ∈ s.exits
  waited : ∀ e ∈ s.waits, e ∈ s.exits ∨ e.2 = 1 ∧ ∃ x, (e.1,x) ∈ s.exits

theorem bootedSys_inv : Inv bootedSys := by
  have h0 : ∀ p, booted.proc p = if p = 0 then { zeroProc with state := .runnable, pid := 1 } else zeroProc := by
    intro p
    by_cases hp : p = 0
    · subst hp
      simp [booted]
    · simp [booted, hp]
  refine ⟨.inl rfl,rfl,rfl,?_,?_,by simp [bootedSys],by simp [bootedSys],?_,?_,?_,?_,?_,
    by simp [bootedSys]⟩
  · intro p
    simp only [bootedSys, h0]
    split <;> simp [zeroProc]
  · intro p
    simp only [bootedSys, h0]
    split <;> simp [zeroProc]
  · simp [bootedSys, Stage.builds]
  · simp [bootedSys, Stage.builds]
  · intro p hp
    have : p ≠ 0 := hp
    simp [bootedSys, h0, this, zeroProc]
  · rintro p ⟨hs,-⟩
    simp only [bootedSys, h0] at hs
    split at hs <;> simp [zeroProc] at hs
  · intro p q hz
    simp only [bootedSys, h0] at hz
    split at hz <;> simp [zeroProc] at hz

namespace Inv
variable {s : Sys}

/-- A zombie is not init, so it has a live parent. -/
theorem zombie_parent (h : Inv s) {p : Fin nproc} (hz : (s.table.proc p).state = .zombie) :
    ∃ q, (s.table.proc p).parent = some q ∧ (s.table.proc q).state.Live := by
  refine h.parents p ?_ (by simp [hz]) (by simp [hz])
  rintro rfl
  exact h.initLive.ne.2.2 hz

/-- Whoever fills a slot has a slot of its own. -/
theorem embryo_of_builds (h : Inv s) {c np : Fin nproc} (hb : (s.stage c).builds = some np) :
    (s.table.proc np).state = .embryo := by
  cases hst : s.stage c with
  | forking m =>
    rw [hst] at hb
    cases hb
    exact (h.forking c _ hst).1
  | linked m =>
    rw [hst] at hb
    cases hb
    exact (h.linked c _ hst).1
  | user => simp [hst, Stage.builds] at hb
  | waiting => simp [hst, Stage.builds] at hb

theorem steady (h : Inv s) {t : Table} (hc : Steady s.table t)
    (hsleep : ∀ p, SleepsInWait t p → ∀ q, (s.table.proc q).parent = some p →
      (s.table.proc q).state ≠ .zombie) : Inv { s with table := t } := by
  have hemb : ∀ p, (t.proc p).state = .embryo ↔ (s.table.proc p).state = .embryo :=
    fun p => hc.state_eq (by decide)
  have huns : ∀ p, (t.proc p).state = .unused ↔ (s.table.proc p).state = .unused :=
    fun p => hc.state_eq (by decide)
  have hzom : ∀ p, (t.proc p).state = .zombie ↔ (s.table.proc p).state = .zombie :=
    fun p => hc.state_eq (by decide)
  refine ⟨?_,?_,?_,?_,?_,?_,?_,?_,h.alone,?_,?_,?_,h.waited⟩
  · simp only [hc.initproc, hc.live]
    exact h.initLive
  · simp only [hc.initproc, hc.pid]
    exact h.initPid
  · simp only [hc.initproc, hc.parent]
    exact h.initParent
  · intro p
    simp only [hc.parent]
    exact h.notSelf p
  · intro p
    simp only [huns, hc.parent]
    exact h.free p
  · intro c np
    simp only [hemb, hc.parent]
    exact h.forking c np
  · intro c np
    simp only [hemb, hc.parent]
    exact h.linked c np
  · intro c np
    simp only [hc.live]
    exact h.builder c np
  · intro p
    simp only [ne_eq, huns, hemb, hc.initproc, hc.parent, hc.live]
    exact h.parents p
  · intro p hp q
    simp only [ne_eq, hc.parent, hzom]
    exact hsleep p hp q
  · intro p q
    simp only [hzom, hc.parent, hc.pid, hc.initproc]
    exact h.exited p q

theorem calm (h : Inv s) {t : Table} (hc : Calm s.table t) : Inv { s with table := t } :=
  h.steady hc.toSteady fun p hp => h.sleepers p (hc.asleep p p hp.1 hp.2)

/-- A section of `fork` or `wait` changes a slot that is not live and the stage of the caller. -/
theorem fill (h : Inv s) {np : Fin nproc} {pr : Proc} {n : BitVec 32} {k : ℕ} {stage : Fin nproc → Stage}
    (hnp : ¬ (s.table.proc np).state.Live) (hz : pr.state ≠ .zombie)
    (hsl : pr.state ≠ .sleeping) (hself : pr.parent ≠ some np)
    (hfree : pr.state = .unused → pr.parent = none)
    (hforking : ∀ c m, stage c = .forking m →
      if m = np then pr.state = .embryo ∧ pr.parent = none
      else (s.table.proc m).state = .embryo ∧ (s.table.proc m).parent = none)
    (hlinked : ∀ c m, stage c = .linked m →
      if m = np then pr.state = .embryo ∧ pr.parent = some c
      else (s.table.proc m).state = .embryo ∧ (s.table.proc m).parent = some c)
    (hbuilder : ∀ c m, (stage c).builds = some m → (s.table.proc c).state.Live)
    (halone : ∀ c d m, (stage c).builds = some m → (stage d).builds = some m → c = d)
    (hparents : pr.state ≠ .unused → pr.state ≠ .embryo →
      ∃ q, pr.parent = some q ∧ (s.table.proc q).state.Live) :
    Inv { s with table := { s.table.set np pr with nextpid := n }, stage := stage, forks := k } := by
  have hset : ∀ q, (s.table.set np pr).proc q = if q = np then pr else s.table.proc q := by
    intro q
    by_cases hq : q = np
    · subst hq
      simp
    · rw [s.table.set_of_ne _ hq, if_neg hq]
  have hlive : ∀ q, (s.table.proc q).state.Live → q ≠ np := by
    rintro q hq rfl
    exact hnp hq
  have hkeep : ∀ q, (s.table.proc q).state.Live → (s.table.set np pr).proc q = s.table.proc q :=
    fun q hq => s.table.set_of_ne _ (hlive q hq)
  refine ⟨?_,?_,?_,?_,?_,?_,?_,?_,halone,?_,?_,?_,h.waited⟩
  · change ((s.table.set np pr).proc s.table.initproc).state.Live
    rw [hkeep _ h.initLive]
    exact h.initLive
  · change ((s.table.set np pr).proc s.table.initproc).pid = 1
    rw [hkeep _ h.initLive]
    exact h.initPid
  · change ((s.table.set np pr).proc s.table.initproc).parent = none
    rw [hkeep _ h.initLive]
    exact h.initParent
  · intro p
    dsimp only
    rw [hset]
    split
    · rename_i he
      exact he ▸ hself
    · exact h.notSelf p
  · intro p hp
    dsimp only at hp ⊢
    rw [hset] at hp ⊢
    split at hp
    · rename_i he
      rw [if_pos he]
      exact hfree hp
    · rename_i he
      rw [if_neg he]
      exact h.free p hp
  · intro c m hc
    have := hforking c m hc
    dsimp only
    rw [hset]
    split at this
    · rename_i he
      rwa [if_pos he]
    · rename_i he
      rwa [if_neg he]
  · intro c m hc
    have := hlinked c m hc
    dsimp only
    rw [hset]
    split at this
    · rename_i he
      rwa [if_pos he]
    · rename_i he
      rwa [if_neg he]
  · intro c m hc
    have := hbuilder c m hc
    change ((s.table.set np pr).proc c).state.Live
    rw [hkeep c this]
    exact this
  · intro p hp h1 h2
    change ∃ q, ((s.table.set np pr).proc p).parent = some q ∧ ((s.table.set np pr).proc q).state.Live
    have hex : ∃ q, ((s.table.set np pr).proc p).parent = some q ∧ (s.table.proc q).state.Live := by
      dsimp only at hp h1 h2
      rw [hset] at h1 h2 ⊢
      by_cases he : p = np
      · rw [if_pos he] at h1 h2 ⊢
        exact hparents h1 h2
      · rw [if_neg he] at h1 h2 ⊢
        exact h.parents p hp h1 h2
    obtain ⟨q,hq,hl⟩ := hex
    exact ⟨q,hq,by rw [hkeep q hl]; exact hl⟩
  · rintro p ⟨h1,h2⟩ q
    dsimp only at h1 h2 ⊢
    rw [hset] at h1 h2 ⊢
    by_cases hp : p = np
    · rw [if_pos hp] at h1
      exact absurd h1 hsl
    · rw [if_neg hp] at h1 h2
      split
      · exact fun _ => hz
      · exact h.sleepers p ⟨h1,h2⟩ q
  · intro p q h1 h2
    dsimp only at h1 h2 ⊢
    rw [hset p] at h1 h2 ⊢
    by_cases hp : p = np
    · rw [if_pos hp] at h1
      exact absurd h1 hz
    · rw [if_neg hp] at h1 h2 ⊢
      obtain ⟨q',hq',hl⟩ := h.zombie_parent h1
      rw [h2] at hq'
      cases hq'
      rw [hkeep q hl]
      exact h.exited p q h1 h2

/-- A caller that fills no slot moves between the user and the loop of `wait`. -/
theorem stage (h : Inv s) {cur : Fin nproc} {st : Stage} (hold : (s.stage cur).builds = none)
    (hnew : st.builds = none) : Inv (s.goto cur st) := by
  have hother : ∀ c np, ((s.goto cur st).stage c).builds = some np → (s.goto cur st).stage c = s.stage c := by
    intro c np hc
    by_cases he : c = cur
    · subst he
      simp [Sys.goto, hnew] at hc
    · simp [Sys.goto, he]
  refine ⟨h.initLive,h.initPid,h.initParent,h.notSelf,h.free,?_,?_,?_,?_,h.parents,h.sleepers,h.exited,
    h.waited⟩
  · intro c np hc
    rw [hother c np (by rw [hc]; rfl)] at hc
    exact h.forking c np hc
  · intro c np hc
    rw [hother c np (by rw [hc]; rfl)] at hc
    exact h.linked c np hc
  · intro c np hc
    rw [hother c np hc] at hc
    exact h.builder c np hc
  · intro c d np hc hd
    rw [hother c np hc] at hc
    rw [hother d np hd] at hd
    exact h.alone c d np hc hd

theorem alloc (h : Inv s) {cur np : Fin nproc} (hcur : (s.table.proc cur).state = .running)
    (hnp : (s.table.proc np).state = .unused) {n m : BitVec 32} {k : ℕ} :
    Inv { s.goto cur (.forking np) with
      table := { s.table.set np { s.table.proc np with state := .embryo, pid := m } with nextpid := n }
      forks := k } := by
  have hne : ∀ c m, (s.stage c).builds = some m → m ≠ np := by
    rintro c m hc rfl
    have := h.embryo_of_builds hc
    simp [hnp] at this
  have hcases : ∀ c, c = cur ∨ (s.goto cur (.forking np)).stage c = s.stage c := by
    intro c
    by_cases he : c = cur
    · exact .inl he
    · exact .inr (by simp [Sys.goto, he])
  have hself : (s.goto cur (.forking np)).stage cur = .forking np := by simp [Sys.goto]
  apply h.fill (fun hl => hl.ne.1 hnp)
  · simp
  · simp
  · simp [h.free np hnp]
  · simp
  · intro c m hc
    rcases hcases c with rfl | he
    · rw [hself] at hc
      cases hc
      simp [h.free np hnp]
    · rw [he] at hc
      rw [if_neg (hne c m (by rw [hc]; rfl))]
      exact h.forking c m hc
  · intro c m hc
    rcases hcases c with rfl | he
    · rw [hself] at hc
      cases hc
    · rw [he] at hc
      rw [if_neg (hne c m (by rw [hc]; rfl))]
      exact h.linked c m hc
  · intro c m hc
    rcases hcases c with rfl | he
    · exact .inr (.inl hcur)
    · rw [he] at hc
      exact h.builder c m hc
  · intro c d m hc hd
    rcases hcases c with rfl | hc'
    · rw [hself] at hc
      cases hc
      rcases hcases d with rfl | hd'
      · rfl
      · rw [hd'] at hd
        exact absurd rfl (hne d np hd)
    · rw [hc'] at hc
      rcases hcases d with rfl | hd'
      · rw [hself] at hd
        cases hd
        exact absurd rfl (hne c np hc)
      · rw [hd'] at hd
        exact h.alone c d m hc hd
  · simp

/-- The later sections of `fork`, on the slot that the caller fills. -/
theorem build (h : Inv s) {cur np : Fin nproc} {pr : Proc} {st : Stage}
    (hb : (s.stage cur).builds = some np) (hz : pr.state ≠ .zombie) (hsl : pr.state ≠ .sleeping)
    (hpar : pr.parent = none ∨ pr.parent = some cur) (hfree : pr.state = .unused → pr.parent = none)
    (hst : st = .user ∨ st = .linked np ∧ pr.state = .embryo ∧ pr.parent = some cur)
    (hparents : pr.state ≠ .unused → pr.state ≠ .embryo → pr.parent = some cur) :
    Inv { s.goto cur st with table := s.table.set np pr } := by
  have hother : ∀ c m, c ≠ cur → (s.stage c).builds = some m → m ≠ np := by
    rintro c m hc hm rfl
    exact hc (h.alone c cur _ hm hb)
  have hcases : ∀ c, c = cur ∨ c ≠ cur ∧ (s.goto cur st).stage c = s.stage c := by
    intro c
    by_cases he : c = cur
    · exact .inl he
    · exact .inr ⟨he,by simp [Sys.goto, he]⟩
  have hself : (s.goto cur st).stage cur = st := by simp [Sys.goto]
  have hbuilds : ∀ m, st.builds = some m → m = np := by
    intro m hm
    rcases hst with rfl | ⟨rfl,-⟩
    · cases hm
    · cases hm
      rfl
  have hne : cur ≠ np := by
    rintro rfl
    exact (h.builder cur cur hb).ne.2.1 (h.embryo_of_builds hb)
  refine h.fill (n := s.table.nextpid) (k := s.forks) 
    (fun hl => hl.ne.2.1 (h.embryo_of_builds hb)) hz hsl ?_ hfree ?_ ?_ ?_ ?_ ?_
  · rcases hpar with e | e
    · simp [e]
    · simpa [e] using hne
  · intro c m hc
    rcases hcases c with rfl | ⟨hne,he⟩
    · rw [hself] at hc
      rcases hst with rfl | ⟨rfl,-⟩ <;> cases hc
    · rw [he] at hc
      rw [if_neg (hother c m hne (by rw [hc]; rfl))]
      exact h.forking c m hc
  · intro c m hc
    rcases hcases c with rfl | ⟨hne,he⟩
    · rw [hself] at hc
      rcases hst with rfl | ⟨rfl,h1,h2⟩
      · cases hc
      · cases hc
        rw [if_pos rfl]
        exact ⟨h1,h2⟩
    · rw [he] at hc
      rw [if_neg (hother c m hne (by rw [hc]; rfl))]
      exact h.linked c m hc
  · intro c m hc
    rcases hcases c with rfl | ⟨-,he⟩
    · exact h.builder c np hb
    · rw [he] at hc
      exact h.builder c m hc
  · intro c d m hc hd
    rcases hcases c with rfl | ⟨hc1,hc2⟩
    · rw [hself] at hc
      have hm := hbuilds m hc
      rcases hcases d with rfl | ⟨hd1,hd2⟩
      · rfl
      · rw [hd2] at hd
        exact absurd hm (hother d m hd1 hd)
    · rw [hc2] at hc
      rcases hcases d with rfl | ⟨-,hd2⟩
      · rw [hself] at hd
        exact absurd (hbuilds m hd) (hother c m hc1 hc)
      · rw [hd2] at hd
        exact h.alone c d m hc hd
  · intro h1 h2
    exact ⟨cur,hparents h1 h2,h.builder cur np hb⟩

theorem exits (h : Inv s) {cur : Fin nproc} {t : Table}
    (hcur : (s.table.proc cur).state = .running) (huser : s.stage cur = .user)
    (hinit : cur ≠ s.table.initproc) (ht : Exits s.table cur t) :
    Inv { s with table := t, exits := s.exits ++ [((s.table.proc cur).pid,s.parentPid cur)] } := by
  have hst : ∀ p st, ¬ ProcState.Live st → p ≠ cur →
      ((t.proc p).state = st ↔ (s.table.proc p).state = st) := by
    intro p st hnl hp
    rcases ht.state p hp with e | ⟨e1,e2⟩
    · rw [e]
    · exact ⟨fun e => absurd (e ▸ e2) hnl,fun e => absurd (e ▸ e1) hnl⟩
  have hlive : ∀ p, p ≠ cur → (s.table.proc p).state.Live → (t.proc p).state.Live := by
    intro p hp hl
    rcases ht.state p hp with e | ⟨-,e⟩
    · rwa [e]
    · exact e
  have hncur : ∀ c np, (s.stage c).builds = some np → c ≠ cur ∧ np ≠ cur := by
    intro c np hc
    constructor
    · rintro rfl
      simp [huser, Stage.builds] at hc
    · rintro rfl
      have := h.embryo_of_builds hc
      simp [hcur] at this
  obtain ⟨par,hpar,hparl⟩ := h.parents cur hinit (by simp [hcur]) (by simp [hcur])
  have hpid : s.parentPid cur = (s.table.proc par).pid := by simp [Sys.parentPid, hpar]
  refine ⟨?_,?_,?_,?_,?_,?_,?_,?_,h.alone,?_,?_,?_,?_⟩
  · rw [ht.initproc]
    exact hlive _ (Ne.symm hinit) h.initLive
  · rw [ht.initproc]
    exact (ht.pid _).trans h.initPid
  · rw [ht.initproc, ht.parent, h.initParent]
    simp
  · intro p
    dsimp only
    rw [ht.parent]
    split
    · rename_i hp
      intro he
      cases he
      simp [h.initParent] at hp
    · exact h.notSelf p
  · intro p hp
    dsimp only at hp ⊢
    have hpc : p ≠ cur := by
      rintro rfl
      rw [ht.zombie] at hp
      cases hp
    have := h.free p ((hst p _ (by decide) hpc).mp hp)
    rw [ht.parent, this]
    simp
  · intro c np hc
    have hne := hncur c np (by rw [hc]; rfl)
    obtain ⟨h1,h2⟩ := h.forking c np hc
    refine ⟨(hst np _ (by decide) hne.2).mpr h1,?_⟩
    rw [ht.parent, h2]
    simp
  · intro c np hc
    have hne := hncur c np (by rw [hc]; rfl)
    obtain ⟨h1,h2⟩ := h.linked c np hc
    refine ⟨(hst np _ (by decide) hne.2).mpr h1,?_⟩
    rw [ht.parent, h2]
    simp [hne.1]
  · intro c np hc
    exact hlive c (hncur c np hc).1 (h.builder c np hc)
  · intro p hp h1 h2
    dsimp only at hp h1 h2 ⊢
    rw [ht.initproc] at hp
    rw [ht.parent]
    by_cases hpc : (s.table.proc p).parent = some cur
    · rw [if_pos hpc]
      exact ⟨_,rfl,hlive _ (Ne.symm hinit) h.initLive⟩
    · rw [if_neg hpc]
      have hp' : ∃ q, (s.table.proc p).parent = some q ∧ (s.table.proc q).state.Live := by
        by_cases he : p = cur
        · subst he
          exact ⟨par,hpar,hparl⟩
        · exact h.parents p hp (fun e => h1 ((hst p _ (by decide) he).mpr e))
            (fun e => h2 ((hst p _ (by decide) he).mpr e))
      obtain ⟨q,hq,hl⟩ := hp'
      refine ⟨q,hq,hlive q ?_ hl⟩
      rintro rfl
      exact hpc hq
  · rintro p hp q hq hz
    dsimp only at hp hq hz
    rw [ht.parent] at hq
    by_cases hqc : q = cur
    · -- the new zombie: its parent is awake
      subst hqc
      rw [if_neg (h.notSelf q)] at hq
      exact ht.parentAwake p hq hp
    · have hz' := (hst q _ (by decide) hqc).mp hz
      by_cases hc : (s.table.proc q).parent = some cur
      · rw [if_pos hc] at hq
        cases hq
        exact ht.awake q ⟨hc,hz'⟩ hp
      · rw [if_neg hc] at hq
        exact h.sleepers p (ht.asleep p p hp.1 hp.2) q hq hz'
  · intro p q hz hq
    dsimp only at hz hq ⊢
    rw [ht.pid, ht.pid, ht.initproc]
    rw [ht.parent] at hq
    by_cases hpc : p = cur
    · subst hpc
      rw [if_neg (h.notSelf p), hpar] at hq
      cases hq
      exact .inl (by simp [hpid])
    · have hz' := (hst p _ (by decide) hpc).mp hz
      split at hq
      · rename_i hc
        cases hq
        rcases h.exited p cur hz' hc with he | ⟨he,-⟩
        · exact .inr ⟨rfl,_,List.mem_append_left _ he⟩
        · exact absurd he hinit
      · rcases h.exited p q hz' hq with he | ⟨he,x,hx⟩
        · exact .inl (List.mem_append_left _ he)
        · exact .inr ⟨he,x,List.mem_append_left _ hx⟩
  · intro e he
    rcases h.waited e he with hw | ⟨hw,x,hx⟩
    · exact .inl (List.mem_append_left _ hw)
    · exact .inr ⟨hw,x,List.mem_append_left _ hx⟩

/-- The slot of a zombie is given back. -/
theorem free_zombie (h : Inv s) {p : Fin nproc} (hz : (s.table.proc p).state = .zombie) :
    Inv { s with
      table := s.table.set p
        { s.table.proc p with pid := 0, parent := none, killed := false, state := .unused } } := by
  have hne : ∀ c m, (s.stage c).builds = some m → m ≠ p := by
    rintro c m hc rfl
    have := h.embryo_of_builds hc
    simp [hz] at this
  apply h.fill (n := s.table.nextpid) (k := s.forks) (fun hl => hl.ne.2.2 hz)
  · simp
  · simp
  · simp
  · simp
  · intro c m hc
    rw [if_neg (hne c m (by rw [hc]; rfl))]
    exact h.forking c m hc
  · intro c m hc
    rw [if_neg (hne c m (by rw [hc]; rfl))]
    exact h.linked c m hc
  · exact h.builder
  · exact h.alone
  · simp

/-- A process without zombie children goes to sleep in `wait`. -/
theorem sleep (h : Inv s) {cur : Fin nproc} (hcur : (s.table.proc cur).state = .running)
    (hno : ∀ q, (s.table.proc q).parent = some cur → (s.table.proc q).state ≠ .zombie) :
    Inv { s with
      table := s.table.set cur
        { s.table.proc cur with chan := some (.proc cur), state := .sleeping } } := by
  have hc : Steady s.table (s.table.set cur
      { s.table.proc cur with chan := some (.proc cur), state := .sleeping }) :=
    .set rfl rfl (.inr ⟨.inr (.inl hcur),.inr (.inr rfl)⟩)
  apply h.steady hc
  intro p hp q hq
  by_cases hpc : p = cur
  · subst hpc
    exact hno q hq
  · have hs : SleepsInWait s.table p := by
      unfold SleepsInWait at hp
      rwa [s.table.set_of_ne _ hpc] at hp
    exact h.sleepers p hs q hq

theorem wait (h : Inv s) {e : BitVec 32 × BitVec 32}
    (he : e ∈ s.exits ∨ e.2 = 1 ∧ ∃ x, (e.1,x) ∈ s.exits) : Inv { s with waits := s.waits ++ [e] } := by
  refine ⟨h.initLive,h.initPid,h.initParent,h.notSelf,h.free,h.forking,h.linked,h.builder,h.alone,h.parents,
    h.sleepers,h.exited,?_⟩
  intro d hd
  rcases List.mem_append.mp hd with hd | hd
  · exact h.waited d hd
  · rw [List.mem_singleton.mp hd]
    exact he

end Inv

theorem Runs.inv {s s' : Sys} {a : Section} (hr : Runs s a s') (h : Inv s) : Inv s' := by
  cases hr with
  | calm a t hc => exact h.calm hc
  | alloc cur np hcur huser hnp => exact h.alloc hcur hnp
  | fail cur np hst =>
    obtain ⟨-,hpar⟩ := h.forking cur np hst
    exact h.build (by rw [hst]; rfl) (by simp) (by simp) (.inl hpar) (fun _ => hpar) (.inl rfl) (by simp)
  | link cur np hst =>
    obtain ⟨hemb,-⟩ := h.forking cur np hst
    exact h.build (by rw [hst]; rfl) (by simp [hemb]) (by simp [hemb]) (.inr rfl) (by simp [hemb])
      (.inr ⟨rfl,hemb,rfl⟩) (fun _ _ => rfl)
  | ready cur np hst =>
    obtain ⟨-,hpar⟩ := h.linked cur np hst
    exact h.build (by rw [hst]; rfl) (by simp) (by simp) (.inr hpar) (by simp) (.inl rfl) fun _ _ => hpar
  | exits cur hcur huser hinit t ht => exact h.exits hcur huser hinit ht
  | reaps cur p hcur hst hp hz =>
    have he : ((s.table.proc p).pid,(s.table.proc cur).pid) ∈ s.exits ∨
        (s.table.proc cur).pid = 1 ∧ ∃ x, ((s.table.proc p).pid,x) ∈ s.exits := by
      rcases h.exited p cur hz hp with e | ⟨rfl,e⟩
      · exact .inl e
      · exact .inr ⟨h.initPid,e⟩
    exact ((h.free_zombie hz).wait he).stage hst rfl
  | returns cur hst => exact h.stage hst rfl
  | sleeps cur hcur hst hno => exact (h.sleep hcur hno).stage hst rfl

end X86OsDev.Xv6.Ptable
