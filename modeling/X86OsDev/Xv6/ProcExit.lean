import X86OsDev.Xv6.ProcRuns

/-! # What each section does to the table

`exit` wakes the parent, hands its children to init and becomes a zombie in one
section; whoever has a new zombie child afterwards is awake. Most of the other
sections only move live processes between their states.
-/
namespace X86OsDev.Xv6.Ptable
open Transition

/-- `p` sleeps in `wait`. -/
def SleepsInWait (t : Table) (p : Fin nproc) : Prop :=
  (t.proc p).state = .sleeping ∧ (t.proc p).chan = some (.proc p)

/-- One round of the loop that passes children to init. -/
def passChild (cur : Fin nproc) (t : Table) (p : Fin nproc) : Table :=
  if (t.proc p).parent = some cur then
    let t := t.set p { t.proc p with parent := some t.initproc }
    if (t.proc p).state = .zombie then wakeup1 t (.proc t.initproc) else t
  else t

theorem reparent_eq (t : Table) (cur : Fin nproc) :
    reparent t cur = (List.finRange nproc).foldl (passChild cur) t := rfl

/-- What passing some of the slots to init does. -/
structure Passed (cur : Fin nproc) (l : List (Fin nproc)) (t t' : Table) : Prop where
  nextpid : t'.nextpid = t.nextpid
  initproc : t'.initproc = t.initproc
  pid : ∀ p, (t'.proc p).pid = (t.proc p).pid
  chan : ∀ p, (t'.proc p).chan = (t.proc p).chan
  parent : ∀ p, (t'.proc p).parent =
    if p ∈ l ∧ (t.proc p).parent = some cur then some t.initproc else (t.proc p).parent
  state : ∀ p, (t'.proc p).state = (t.proc p).state ∨
    (t.proc p).state = .sleeping ∧ (t'.proc p).state = .runnable
  awake : (∃ q ∈ l, (t.proc q).parent = some cur ∧ (t.proc q).state = .zombie) →
    ¬ SleepsInWait t' t.initproc

theorem passChild_passed (cur : Fin nproc) (t : Table) (p : Fin nproc) :
    Passed cur [p] t (passChild cur t p) := by
  by_cases hp : (t.proc p).parent = some cur
  · have hset : ∀ q, (t.set p { t.proc p with parent := some t.initproc }).proc q =
        if q = p then { t.proc p with parent := some t.initproc } else t.proc q := by
      intro q
      by_cases hq : q = p
      · subst hq
        simp
      · rw [t.set_of_ne _ hq, if_neg hq]
    have hpar : ∀ q, ((t.set p { t.proc p with parent := some t.initproc }).proc q).parent =
        if q ∈ [p] ∧ (t.proc q).parent = some cur then some t.initproc else (t.proc q).parent := by
      intro q
      rw [hset]
      by_cases hq : q = p
      · subst hq
        simp [hp]
      · simp [hq]
    have hrest : ∀ q, ((t.set p { t.proc p with parent := some t.initproc }).proc q).pid =
          (t.proc q).pid ∧
        ((t.set p { t.proc p with parent := some t.initproc }).proc q).chan = (t.proc q).chan ∧
        ((t.set p { t.proc p with parent := some t.initproc }).proc q).state = (t.proc q).state := by
      intro q
      rw [hset]
      by_cases hq : q = p
      · subst hq
        simp
      · simp [hq]
    unfold passChild
    rw [if_pos hp]
    dsimp only
    by_cases hz : (t.proc p).state = .zombie
    · rw [if_pos ((hrest p).2.2.trans hz)]
      have hc := wakeup1_calm (t.set p { t.proc p with parent := some t.initproc }) (.proc t.initproc)
      refine ⟨rfl,rfl,fun q => (hc.pid q).trans (hrest q).1,?_,fun q => (hc.parent q).trans (hpar q),
        ?_,fun _ => wakeup1_awake _ _ _⟩
      · intro q
        rw [← (hrest q).2.1]
        simp only [wakeup1]
        split <;> rfl
      · intro q
        rw [← (hrest q).2.2]
        simp only [wakeup1]
        split
        · rename_i h
          exact .inr ⟨h.1,rfl⟩
        · exact .inl rfl
    · rw [if_neg (by rw [(hrest p).2.2]; exact hz)]
      refine ⟨rfl,rfl,fun q => (hrest q).1,fun q => (hrest q).2.1,hpar,fun q => .inl (hrest q).2.2,?_⟩
      rintro ⟨q,hq,-,hqz⟩
      rw [List.mem_singleton.mp hq] at hqz
      exact absurd hqz hz
  · unfold passChild
    rw [if_neg hp]
    refine ⟨rfl,rfl,fun _ => rfl,fun _ => rfl,?_,fun _ => .inl rfl,?_⟩
    · intro q
      by_cases hq : q = p
      · subst hq
        simp [hp]
      · simp [hq]
    · rintro ⟨q,hq,hqp,-⟩
      rw [List.mem_singleton.mp hq] at hqp
      exact absurd hqp hp

theorem Passed.awake_mono {cur : Fin nproc} {l : List (Fin nproc)} {t t' : Table}
    (h : Passed cur l t t') {p : Fin nproc} (hp : ¬ SleepsInWait t p) : ¬ SleepsInWait t' p := by
  rintro ⟨h1,h2⟩
  rcases h.state p with hs | ⟨-,hs⟩
  · exact hp ⟨hs ▸ h1,h.chan p ▸ h2⟩
  · rw [hs] at h1
    cases h1

theorem passChildren_passed {cur : Fin nproc} (l : List (Fin nproc)) (t : Table)
    (hcur : cur ≠ t.initproc) : Passed cur l t (l.foldl (passChild cur) t) := by
  induction l generalizing t with
  | nil =>
    exact ⟨rfl,rfl,fun _ => rfl,fun _ => rfl,by simp,fun _ => .inl rfl,by simp⟩
  | cons p l ih =>
    have h1 := passChild_passed cur t p
    have h2 := ih (passChild cur t p) (h1.initproc ▸ hcur)
    rw [List.foldl_cons]
    refine ⟨h2.nextpid.trans h1.nextpid,h2.initproc.trans h1.initproc,
      fun q => (h2.pid q).trans (h1.pid q),fun q => (h2.chan q).trans (h1.chan q),?_,?_,?_⟩
    · intro q
      rw [h2.parent, h1.parent, h1.initproc]
      by_cases hqc : (t.proc q).parent = some cur
      · by_cases hqp : q = p
        · subst hqp
          simp [hqc, Ne.symm hcur]
        · simp [hqp, hqc]
      · simp [hqc]
    · intro q
      rcases h1.state q with e1 | ⟨e1,f1⟩
      · rcases h2.state q with e2 | ⟨e2,f2⟩
        · exact .inl (e2.trans e1)
        · exact .inr ⟨e1 ▸ e2,f2⟩
      · rcases h2.state q with e2 | ⟨e2,-⟩
        · exact .inr ⟨e1,e2.trans f1⟩
        · rw [f1] at e2
          cases e2
    · rintro ⟨q,hq,hqp,hqz⟩
      by_cases hqe : q = p
      · subst hqe
        exact h2.awake_mono (h1.awake ⟨q,by simp,hqp,hqz⟩)
      · have hql : q ∈ l := (List.mem_cons.mp hq).resolve_left hqe
        rw [← h1.initproc]
        refine h2.awake ⟨q,hql,?_,?_⟩
        · rw [h1.parent]
          simp [hqe, hqp]
        · rcases h1.state q with e | ⟨e,-⟩
          · exact e.trans hqz
          · rw [hqz] at e
            cases e

/-- What `exit` does to the table. -/
structure Exits (t : Table) (cur : Fin nproc) (t' : Table) : Prop where
  nextpid : t'.nextpid = t.nextpid
  initproc : t'.initproc = t.initproc
  pid : ∀ p, (t'.proc p).pid = (t.proc p).pid
  parent : ∀ p, (t'.proc p).parent =
    if (t.proc p).parent = some cur then some t.initproc else (t.proc p).parent
  zombie : (t'.proc cur).state = .zombie
  state : ∀ p, p ≠ cur → (t'.proc p).state = (t.proc p).state ∨
    (t.proc p).state.Live ∧ (t'.proc p).state.Live
  asleep : ∀ p c, (t'.proc p).state = .sleeping → (t'.proc p).chan = some (.proc c) →
    (t.proc p).state = .sleeping ∧ (t.proc p).chan = some (.proc c)
  /-- Whoever has a zombie child that it did not have before is awake. -/
  awake : ∀ p, (t.proc p).parent = some cur ∧ (t.proc p).state = .zombie →
    ¬ SleepsInWait t' t.initproc
  parentAwake : ∀ q, (t.proc cur).parent = some q → ¬ SleepsInWait t' q

theorem exit_exits (t : Table) {cur : Fin nproc} (hcur : cur ≠ t.initproc) :
    Exits t cur (exit t cur) := by
  obtain ⟨t1,t2,ht,hc1,h2,hpar1⟩ : ∃ t1 t2, exit t cur =
      t2.set cur { t2.proc cur with state := .zombie } ∧ Calm t t1 ∧
      Passed cur (List.finRange nproc) t1 t2 ∧
      ∀ q, (t.proc cur).parent = some q → ¬ SleepsInWait t1 q := by
    cases hp : (t.proc cur).parent with
    | none =>
      exact ⟨t,_,by simp only [exit, hp, reparent_eq],.refl t,passChildren_passed _ _ hcur,by simp⟩
    | some q =>
      refine ⟨wakeup1 t (.proc q),_,by simp only [exit, hp, reparent_eq],wakeup1_calm _ _,
        passChildren_passed _ _ hcur,?_⟩
      intro q' hq
      cases hq
      exact wakeup1_awake _ _ _
  have hpid : ∀ p, ((exit t cur).proc p).pid = (t.proc p).pid := by
    intro p
    rw [ht]
    by_cases hp : p = cur
    · subst hp
      rw [Table.set_self]
      exact (h2.pid p).trans (hc1.pid p)
    · rw [Table.set_of_ne _ _ hp]
      exact (h2.pid p).trans (hc1.pid p)
  have hparent : ∀ p, ((exit t cur).proc p).parent =
      if (t.proc p).parent = some cur then some t.initproc else (t.proc p).parent := by
    intro p
    have hpar := h2.parent p
    simp only [List.mem_finRange, true_and, hc1.parent, hc1.initproc] at hpar
    rw [ht]
    by_cases hp : p = cur
    · subst hp
      rw [Table.set_self]
      exact hpar
    · rw [Table.set_of_ne _ _ hp]
      exact hpar
  have hother : ∀ p, p ≠ cur → (exit t cur).proc p = t2.proc p := by
    intro p hp
    rw [ht, Table.set_of_ne _ _ hp]
  have hz : ((exit t cur).proc cur).state = .zombie := by rw [ht, Table.set_self]
  -- a sleeper after the call slept before it
  have hsleep : ∀ p, ((exit t cur).proc p).state = .sleeping → (t2.proc p).state = .sleeping ∧
      (t1.proc p).state = .sleeping ∧ ((exit t cur).proc p).chan = (t1.proc p).chan := by
    intro p hp
    by_cases hpc : p = cur
    · subst hpc
      rw [hz] at hp
      cases hp
    · rw [hother p hpc] at hp ⊢
      refine ⟨hp,?_,h2.chan p⟩
      rcases h2.state p with e | ⟨-,e⟩
      · exact e ▸ hp
      · rw [e] at hp
        cases hp
  refine ⟨?_,?_,hpid,hparent,hz,?_,?_,?_,?_⟩
  · rw [ht]
    exact h2.nextpid.trans hc1.nextpid
  · rw [ht]
    exact h2.initproc.trans hc1.initproc
  · intro p hp
    rw [hother p hp]
    rcases h2.state p with e | ⟨e1,e2⟩
    · rw [e]
      exact hc1.state p
    · have : (t1.proc p).state.Live := .inr (.inr e1)
      exact .inr ⟨(hc1.live p).mp this,.inl e2⟩
  · intro p c h1 h2'
    obtain ⟨-,hs,hch⟩ := hsleep p h1
    exact hc1.asleep p c hs (hch ▸ h2')
  · rintro p ⟨hp,hpz⟩ ⟨hs,hch⟩
    obtain ⟨hs2,-,hch2⟩ := hsleep _ hs
    refine h2.awake ⟨p,List.mem_finRange p,(hc1.parent p).trans hp,?_⟩ ?_
    · exact (hc1.state_eq (by decide)).mpr hpz
    · rw [hc1.initproc]
      exact ⟨hs2,by rw [h2.chan, ← hch2]; exact hch⟩
  · rintro q hq ⟨hs,hch⟩
    obtain ⟨-,hs1,hch1⟩ := hsleep _ hs
    exact hpar1 q hq ⟨hs1,hch1 ▸ hch⟩

/-- Every way a section can go. -/
inductive Runs (s : Sys) : Section → Sys → Prop
  | calm (a : Section) (t : Table) (hc : Calm s.table t) : Runs s a { s with table := t }
  | alloc (cur np : Fin nproc) (hcur : (s.table.proc cur).state = .running)
      (huser : s.stage cur = .user) (hnp : (s.table.proc np).state = .unused) :
      Runs s (.forkAlloc cur) { s.goto cur (.forking np) with
        table := { s.table.set np { s.table.proc np with state := .embryo, pid := s.table.nextpid } with
          nextpid := s.table.nextpid + 1 }
        forks := s.forks + 1 }
  | fail (cur np : Fin nproc) (hst : s.stage cur = .forking np) :
      Runs s (.forkFail cur) { s.goto cur .user with
        table := s.table.set np { s.table.proc np with state := .unused } }
  | link (cur np : Fin nproc) (hst : s.stage cur = .forking np) :
      Runs s (.forkParent cur) { s.goto cur (.linked np) with
        table := s.table.set np { s.table.proc np with parent := some cur } }
  | ready (cur np : Fin nproc) (hst : s.stage cur = .linked np) :
      Runs s (.forkReady cur) { s.goto cur .user with
        table := s.table.set np { s.table.proc np with state := .runnable } }
  | exits (cur : Fin nproc) (hcur : (s.table.proc cur).state = .running)
      (huser : s.stage cur = .user) (hinit : cur ≠ s.table.initproc) (t : Table)
      (ht : Exits s.table cur t) :
      Runs s (.exit cur) { s with
        table := t, exits := s.exits ++ [((s.table.proc cur).pid,s.parentPid cur)] }
  | reaps (cur p : Fin nproc) (hcur : (s.table.proc cur).state = .running)
      (hst : (s.stage cur).builds = none) (hp : (s.table.proc p).parent = some cur)
      (hz : (s.table.proc p).state = .zombie) :
      Runs s (.wait cur) { s.goto cur .user with
        table := s.table.set p
          { s.table.proc p with pid := 0, parent := none, killed := false, state := .unused }
        waits := s.waits ++ [((s.table.proc p).pid,(s.table.proc cur).pid)] }
  | returns (cur : Fin nproc) (hst : (s.stage cur).builds = none) :
      Runs s (.wait cur) (s.goto cur .user)
  | sleeps (cur : Fin nproc) (hcur : (s.table.proc cur).state = .running)
      (hst : (s.stage cur).builds = none)
      (hno : ∀ q, (s.table.proc q).parent = some cur → (s.table.proc q).state ≠ .zombie) :
      Runs s (.wait cur) { s.goto cur .waiting with
        table := s.table.set cur
          { s.table.proc cur with chan := some (.proc cur), state := .sleeping } }

theorem run_runs {s s' : Sys} {a : Section} (h : s.run a = some s') : Runs s a s' := by
  cases a with
  | forkAlloc cur =>
    simp only [Sys.run] at h
    split at h
    · rename_i hg
      cases hs : s.table.scan (fun pr => pr.state = .unused) with
      | none =>
        simp only [allocproc, hs, Option.some.injEq] at h
        subst h
        exact .calm _ s.table (.refl _)
      | some np =>
        simp only [allocproc, hs, if_true, Option.some.injEq] at h
        subst h
        exact .alloc cur np hg.1 hg.2 (by simpa using Table.scan_hit hs)
    · cases h
  | forkFail cur =>
    simp only [Sys.run] at h
    split at h
    · split at h
      · cases h
        exact .fail cur _ ‹_›
      · cases h
    · cases h
  | forkParent cur =>
    simp only [Sys.run] at h
    split at h
    · split at h
      · cases h
        exact .link cur _ ‹_›
      · cases h
    · cases h
  | forkReady cur =>
    simp only [Sys.run] at h
    split at h
    · split at h
      · cases h
        exact .ready cur _ ‹_›
      · cases h
    · cases h
  | exit cur =>
    simp only [Sys.run] at h
    split at h
    · rename_i hg
      cases h
      exact .exits cur hg.1 hg.2.1 hg.2.2 _ (exit_exits _ hg.2.2)
    · cases h
  | wait cur =>
    simp only [Sys.run] at h
    split at h
    · rename_i hg
      have hst : (s.stage cur).builds = none := by
        rcases hg.2 with e | e <;> rw [e] <;> rfl
      cases hs : s.table.scan (fun pr => pr.parent = some cur ∧ pr.state = .zombie) with
      | some p =>
        simp only [wait, Sys.zombieChild, hs, Option.some.injEq, reduceCtorEq, if_false] at h
        subst h
        have hp : (s.table.proc p).parent = some cur ∧ (s.table.proc p).state = .zombie := by
          simpa using Table.scan_hit hs
        exact .reaps cur p hg.1 hst hp.1 hp.2
      | none =>
        simp only [wait, Sys.zombieChild, hs] at h
        split at h
        · simp only [reduceCtorEq, if_false, Option.some.injEq] at h
          subst h
          exact .returns cur hst
        · simp only [if_true, Option.some.injEq] at h
          subst h
          refine .sleeps cur hg.1 hst fun q hq hz => ?_
          have := Table.scan_none hs q
          simp [hq, hz] at this
    · cases h
  | kill pid =>
    simp only [Sys.run, Option.some.injEq] at h
    subst h
    exact .calm _ _ (kill_calm _ _)
  | sleep cur addr =>
    simp only [Sys.run] at h
    split at h
    · rename_i hg
      cases h
      exact .calm _ _ (.set rfl rfl (.inr ⟨.inr (.inl hg.1),.inr (.inr rfl)⟩) (by simp))
    · cases h
  | wakeup addr =>
    simp only [Sys.run, Option.some.injEq] at h
    subst h
    exact .calm _ _ (wakeup1_calm _ _)
  | yield cur =>
    simp only [Sys.run] at h
    split at h
    · rename_i hg
      cases h
      exact .calm _ _ (.set rfl rfl (.inr ⟨.inr (.inl hg),.inl rfl⟩) (by simp))
    · cases h
  | schedule p =>
    simp only [Sys.run] at h
    split at h
    · rename_i hg
      cases h
      exact .calm _ _ (.set rfl rfl (.inr ⟨.inl hg,.inr (.inl rfl)⟩) (by simp))
    · cases h
  | fault cur =>
    simp only [Sys.run] at h
    split at h
    · rename_i hg
      cases h
      exact .calm _ _ (.set rfl rfl (.inl rfl) fun c hs => absurd hs (by simp [hg]))
    · cases h

end X86OsDev.Xv6.Ptable
