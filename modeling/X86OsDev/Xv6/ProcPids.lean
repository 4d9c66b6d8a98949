import X86OsDev.Xv6.ProcWait

/-! # Pids, and the law of exit and wait

`nextpid` counts the forks, so pids are distinct as long as it does not wrap.
A pid that `wait` has returned is in no slot any more.
-/
namespace X86OsDev.Xv6.Ptable
open Transition

/-- Every pid in use, or returned by `wait`, was handed out once. -/
structure Pids (s : Sys) : Prop where
  nextpid : s.table.nextpid.toNat = s.forks + 2
  bound : ∀ p, (s.table.proc p).state ≠ .unused → (s.table.proc p).pid.toNat < s.forks + 2
  distinct : ∀ p q, (s.table.proc p).state ≠ .unused → (s.table.proc q).state ≠ .unused →
    (s.table.proc p).pid = (s.table.proc q).pid → p = q
  waited : ∀ e ∈ s.waits, e.1.toNat < s.forks + 2 ∧
    ∀ p, (s.table.proc p).state ≠ .unused → (s.table.proc p).pid ≠ e.1
  once : (s.waits.map Prod.fst).Nodup

theorem bootedSys_pids : Pids bootedSys := by
  have h0 : ∀ p, (booted.proc p).state ≠ .unused → p = 0 := by
    intro p hp
    by_contra hne
    exact hp (by simp [booted, hne, zeroProc])
  refine ⟨rfl,?_,?_,by simp [bootedSys],by simp [bootedSys]⟩
  · intro p hp
    rw [h0 p hp]
    decide
  · intro p q hp hq _
    rw [h0 p hp, h0 q hq]

namespace Pids
variable {s s' : Sys}

/-- A section that keeps the pids and takes no slot into use. -/
theorem keep (h : Pids s) (hnext : s'.table.nextpid = s.table.nextpid) (hforks : s'.forks = s.forks)
    (hwaits : s'.waits = s.waits)
    (hproc : ∀ p, (s'.table.proc p).state ≠ .unused →
      (s.table.proc p).state ≠ .unused ∧ (s'.table.proc p).pid = (s.table.proc p).pid) : Pids s' := by
  refine ⟨by rw [hnext, hforks]; exact h.nextpid,?_,?_,?_,by rw [hwaits]; exact h.once⟩
  · intro p hp
    obtain ⟨h1,h2⟩ := hproc p hp
    rw [h2, hforks]
    exact h.bound p h1
  · intro p q hp hq he
    obtain ⟨h1,h2⟩ := hproc p hp
    obtain ⟨h3,h4⟩ := hproc q hq
    exact h.distinct p q h1 h3 (by rw [← h2, ← h4]; exact he)
  · intro e he
    rw [hwaits] at he
    refine ⟨hforks ▸ (h.waited e he).1,fun p hp => ?_⟩
    obtain ⟨h1,h2⟩ := hproc p hp
    rw [h2]
    exact (h.waited e he).2 p h1

theorem alloc (h : Pids s) {cur np : Fin nproc} (hlt : s.forks + 1 < 2 ^ 31) :
    Pids { s.goto cur (.forking np) with
      table := { s.table.set np { s.table.proc np with state := .embryo, pid := s.table.nextpid } with
        nextpid := s.table.nextpid + 1 }
      forks := s.forks + 1 } := by
  have hn := h.nextpid
  have hproc : ∀ p, p = np ∨ p ≠ np ∧
      (s.table.set np { s.table.proc np with state := .embryo, pid := s.table.nextpid }).proc p =
        s.table.proc p := by
    intro p
    by_cases hp : p = np
    · exact .inl hp
    · exact .inr ⟨hp,s.table.set_of_ne _ hp⟩
  have hpid : ((s.table.set np
      { s.table.proc np with state := .embryo, pid := s.table.nextpid }).proc np).pid = s.table.nextpid := by
    rw [Table.set_self]
  refine ⟨?_,?_,?_,?_,h.once⟩
  · change (s.table.nextpid + 1).toNat = s.forks + 1 + 2
    have h1 : (1 : BitVec 32).toNat = 1 := rfl
    rw [BitVec.toNat_add, h1]
    omega
  · intro p hp
    dsimp only at hp ⊢
    rcases hproc p with rfl | ⟨-,e⟩
    · rw [hpid]
      omega
    · rw [e] at hp ⊢
      have := h.bound p hp
      omega
  · intro p q hp hq he
    dsimp only at hp hq he
    -- the new pid is above every other one
    rcases hproc p with rfl | ⟨-,e1⟩
    · rcases hproc q with rfl | ⟨-,e2⟩
      · rfl
      · rw [e2] at hq he
        rw [hpid] at he
        have := h.bound q hq
        rw [← he] at this
        omega
    · rw [e1] at hp he
      rcases hproc q with rfl | ⟨-,e2⟩
      · rw [hpid] at he
        have := h.bound p hp
        rw [he] at this
        omega
      · rw [e2] at hq he
        exact h.distinct p q hp hq he
  · intro e he
    obtain ⟨h1,h2⟩ := h.waited e he
    refine ⟨by dsimp only; omega,fun p hp => ?_⟩
    dsimp only at hp ⊢
    rcases hproc p with rfl | ⟨-,e1⟩
    · rw [hpid]
      intro he
      rw [← he] at h1
      omega
    · rw [e1] at hp ⊢
      exact h2 p hp

theorem reap (h : Pids s) {cur p : Fin nproc} (hz : (s.table.proc p).state = .zombie) :
    Pids { s.goto cur .user with
      table := s.table.set p
        { s.table.proc p with pid := 0, parent := none, killed := false, state := .unused }
      waits := s.waits ++ [((s.table.proc p).pid,(s.table.proc cur).pid)] } := by
  have hp : (s.table.proc p).state ≠ .unused := by simp [hz]
  have hproc : ∀ q, ((s.table.set p
      { s.table.proc p with pid := 0, parent := none, killed := false, state := .unused }).proc q).state ≠
        .unused → q ≠ p ∧ (s.table.set p
      { s.table.proc p with pid := 0, parent := none, killed := false, state := .unused }).proc q =
        s.table.proc q := by
    intro q hq
    have hne : q ≠ p := by
      rintro rfl
      simp at hq
    exact ⟨hne,s.table.set_of_ne _ hne⟩
  refine ⟨h.nextpid,?_,?_,?_,?_⟩
  · intro q hq
    obtain ⟨-,e⟩ := hproc q hq
    dsimp only at hq ⊢
    rw [e] at hq ⊢
    exact h.bound q hq
  · intro q r hq hr he
    obtain ⟨-,e1⟩ := hproc q hq
    obtain ⟨-,e2⟩ := hproc r hr
    dsimp only at hq hr he
    rw [e1] at hq he
    rw [e2] at hr he
    exact h.distinct q r hq hr he
  · intro e he
    have hold : e.1.toNat < s.forks + 2 ∧ ∀ q, q ≠ p → (s.table.proc q).state ≠ .unused →
        (s.table.proc q).pid ≠ e.1 := by
      rcases List.mem_append.mp he with he | he
      · exact ⟨(h.waited e he).1,fun q _ => (h.waited e he).2 q⟩
      · rw [List.mem_singleton.mp he]
        exact ⟨h.bound p hp,fun q hne hq hpid => hne (h.distinct q p hq hp hpid)⟩
    refine ⟨hold.1,fun q hq => ?_⟩
    obtain ⟨hne,e1⟩ := hproc q hq
    dsimp only at hq ⊢
    rw [e1] at hq ⊢
    exact hold.2 q hne hq
  · dsimp only
    rw [List.map_append, List.nodup_append]
    refine ⟨h.once,by simp,?_⟩
    rintro a ha b hb rfl
    obtain ⟨e,he,rfl⟩ := List.mem_map.mp ha
    simp only [List.map_cons, List.map_nil, List.mem_singleton] at hb
    exact (h.waited e he).2 p hp hb.symm

end Pids

/-- A section counts at most one fork, and keeps the pids below the bound of the claim. -/
theorem Runs.pids {s s' : Sys} {a : Section} (hr : Runs s a s') (hi : Inv s)
    (h : s.forks < 2 ^ 31 → Pids s) (hlt : s'.forks < 2 ^ 31) : Pids s' := by
  cases hr with
  | calm a t hc =>
    refine (h hlt).keep hc.nextpid rfl rfl fun p hp => ⟨?_,hc.pid p⟩
    intro hu
    exact hp ((hc.state_eq (by decide)).mpr hu)
  | alloc cur np hcur huser hnp =>
    have h1 : s.forks + 1 < 2 ^ 31 := hlt
    exact (h (by omega)).alloc h1
  | fail cur np hst =>
    have hemb := (hi.forking cur np hst).1
    refine (h hlt).keep rfl rfl rfl fun p hp => ?_
    have hne : p ≠ np := by
      rintro rfl
      simp at hp
    dsimp only at hp ⊢
    rw [s.table.set_of_ne _ hne] at hp ⊢
    exact ⟨hp,rfl⟩
  | link cur np hst =>
    have hemb := (hi.forking cur np hst).1
    refine (h hlt).keep rfl rfl rfl fun p hp => ?_
    dsimp only at hp ⊢
    by_cases hne : p = np
    · subst hne
      simp [hemb]
    · rw [s.table.set_of_ne _ hne] at hp ⊢
      exact ⟨hp,rfl⟩
  | ready cur np hst =>
    have hemb := (hi.linked cur np hst).1
    refine (h hlt).keep rfl rfl rfl fun p hp => ?_
    dsimp only at hp ⊢
    by_cases hne : p = np
    · subst hne
      simp [hemb]
    · rw [s.table.set_of_ne _ hne] at hp ⊢
      exact ⟨hp,rfl⟩
  | exits cur hcur huser hinit t ht =>
    refine (h hlt).keep ht.nextpid rfl rfl fun p hp => ⟨?_,ht.pid p⟩
    intro hu
    have hne : p ≠ cur := by
      rintro rfl
      simp [hcur] at hu
    rcases ht.state p hne with e | ⟨e,-⟩
    · exact hp (e.trans hu)
    · exact e.ne.1 hu
  | reaps cur p hcur hst hp hz => exact (h hlt).reap hz
  | returns cur hst => exact (h hlt).keep rfl rfl rfl fun p hp => ⟨hp,rfl⟩
  | sleeps cur hcur hst hno =>
    refine (h hlt).keep rfl rfl rfl fun p hp => ?_
    dsimp only at hp ⊢
    by_cases hne : p = cur
    · subst hne
      simp [hcur]
    · rw [s.table.set_of_ne _ hne] at hp ⊢
      exact ⟨hp,rfl⟩

/-- Only `wait` gives a slot back that has held a process. -/
theorem Runs.unused {s s' : Sys} {a : Section} (hr : Runs s a s') (hi : Inv s) {p : Fin nproc}
    (h1 : (s.table.proc p).state ≠ .unused) (h2 : (s.table.proc p).state ≠ .embryo)
    (h3 : (s'.table.proc p).state = .unused) :
    ∃ cur, a = .wait cur ∧ (s.table.proc p).parent = some cur ∧ (s.table.proc p).state = .zombie := by
  -- a section that sets one slot changes this one only if it is that slot
  have hset : ∀ q pr, ((s.table.set q pr).proc p).state = .unused → p = q ∧ pr.state = .unused := by
    intro q pr hq
    by_cases he : p = q
    · subst he
      exact ⟨rfl,by simpa using hq⟩
    · rw [s.table.set_of_ne _ he] at hq
      exact absurd hq h1
  cases hr with
  | calm a t hc => exact absurd ((hc.state_eq (by decide)).mp h3) h1
  | alloc cur np hcur huser hnp =>
    obtain ⟨rfl,-⟩ := hset np _ h3
    exact absurd hnp h1
  | fail cur np hst =>
    obtain ⟨rfl,-⟩ := hset np _ h3
    exact absurd (hi.forking cur p hst).1 h2
  | link cur np hst =>
    obtain ⟨rfl,-⟩ := hset np _ h3
    exact absurd (hi.forking cur p hst).1 h2
  | ready cur np hst =>
    obtain ⟨rfl,-⟩ := hset np _ h3
    exact absurd (hi.linked cur p hst).1 h2
  | exits cur hcur huser hinit t ht =>
    by_cases hne : p = cur
    · subst hne
      have := ht.zombie.symm.trans h3
      cases this
    · rcases ht.state p hne with e | ⟨-,e⟩
      · exact absurd (e.symm.trans h3) h1
      · exact absurd h3 e.ne.1
  | reaps cur q hcur hst hp hz =>
    obtain ⟨rfl,-⟩ := hset q _ h3
    exact ⟨cur,rfl,hp,hz⟩
  | returns cur hst => exact absurd h3 h1
  | sleeps cur hcur hst hno =>
    obtain ⟨-,he⟩ := hset cur _ h3
    cases he

/-- What exit and wait promise, in every run of the sections: the pids that `wait` has returned
are distinct and each is of a process that exited, returned to its parent or to init; a slot is
given back only by `wait`; every process but init has a live parent; the pids in use are
distinct; and nobody sleeps in `wait` with a zombie child. -/
theorem exit_and_wait (s : Sys) (h : RunsTo s) :
    (s.forks < 2 ^ 31 → (s.waits.map Prod.fst).Nodup) ∧
    (∀ e ∈ s.waits, e ∈ s.exits ∨
      e.2 = (s.table.proc s.table.initproc).pid ∧ ∃ x, (e.1,x) ∈ s.exits) ∧
    (∀ a s' p, OfFun Sys.run s a s' → (s.table.proc p).state ≠ .unused →
      (s.table.proc p).state ≠ .embryo → (s'.table.proc p).state = .unused →
      ∃ cur, a = .wait cur ∧ (s.table.proc p).parent = some cur ∧ (s.table.proc p).state = .zombie) ∧
    (∀ p, p ≠ s.table.initproc → (s.table.proc p).state ≠ .unused →
      (s.table.proc p).state ≠ .embryo → ∃ q, (s.table.proc p).parent = some q ∧
        (s.table.proc q).state ≠ .unused ∧ (s.table.proc q).state ≠ .zombie) ∧
    (s.forks < 2 ^ 31 → ∀ p q, (s.table.proc p).state ≠ .unused → (s.table.proc q).state ≠ .unused →
      (s.table.proc p).pid = (s.table.proc q).pid → p = q) ∧
    ∀ p, SleepsInWait s.table p → ∀ q, (s.table.proc q).parent = some p →
      (s.table.proc q).state ≠ .zombie := by
  have hI : Inv s ∧ (s.forks < 2 ^ 31 → Pids s) := by
    refine h.invariant (I := fun s => Inv s ∧ (s.forks < 2 ^ 31 → Pids s)) ?_ ?_
    · rintro s rfl
      exact ⟨bootedSys_inv,fun _ => bootedSys_pids⟩
    · rintro s a t ⟨hi,hp⟩ hst
      have hr := run_runs hst
      exact ⟨hr.inv hi,hr.pids hi hp⟩
  obtain ⟨hi,hp⟩ := hI
  refine ⟨fun hlt => (hp hlt).once,?_,?_,?_,fun hlt => (hp hlt).distinct,hi.sleepers⟩
  · rw [hi.initPid]
    exact hi.waited
  · intro a s' p hst h1 h2 h3
    exact (run_runs hst).unused hi h1 h2 h3
  · intro p hne h1 h2
    obtain ⟨q,hq,hl⟩ := hi.parents p hne h1 h2
    exact ⟨q,hq,hl.ne.1,hl.ne.2.2⟩

/-- Init forks, the child exits and init reaps it. -/
theorem exit_and_wait_reaped : ∃ s : Sys, s.waits = [(2,1)] ∧ s.exits = [(2,1)] ∧
    (s.waits.map Prod.fst).Nodup := by
  have hrun : ([.schedule 0,.forkAlloc 0,.forkParent 0,.forkReady 0,.schedule 1,.exit 1,.wait 0].foldlM
      Sys.run bootedSys).map (fun s => (s.waits,s.exits,s.forks)) = some ([(2,1)],[(2,1)],1) := by
    decide +kernel
  obtain ⟨s,hs,he⟩ := Option.map_eq_some_iff.mp hrun
  simp only [Prod.mk.injEq] at he
  have h := exit_and_wait s (Reachable.foldlM _ (.base rfl) hs)
  exact ⟨s,he.1,he.2.1,h.1 (by omega)⟩

end X86OsDev.Xv6.Ptable
