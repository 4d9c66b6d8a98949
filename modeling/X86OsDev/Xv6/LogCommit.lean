import X86OsDev.Xv6.LogAdmission

/-! # Committing against the operations in progress

The counters of the log, the entries of its header and the sleepers in
`begin_op` are kept by one invariant. It does not bound what an operation
records, so it holds of callers that keep no promise.
-/
namespace X86OsDev.Xv6.LogProtocol
open Transition Counting

variable {P : Type*} [Fintype P] [DecidableEq P] {s t : Sys P} {a : Act P}

omit [Fintype P] in
/-- Only a `log_write` past the promise of the callers is not already a step. -/
theorem stepAny_cases (h : stepAny s a = some t) : Moves s a t ∨
    ∃ i b w, a = .logWrite i b ∧ s.pc i = .inOp w ∧ t = s.goto i (.logging w b) := by
  unfold stepAny at h
  split at h
  case isFalse => cases h
  case isTrue hp =>
    cases a with
    | logWrite i b =>
      simp only [advanceAny] at h
      split at h
      · rename_i w hpc
        split at h
        · cases h
          exact .inl (.full i b ‹_›)
        · split at h
          · cases h
            exact .inl (.outside i b w hpc ‹_›)
          · cases h
            exact .inr ⟨i,b,w,rfl,hpc,rfl⟩
      · cases h
    | _ =>
      refine .inl (step_moves ?_)
      rw [step, if_pos hp]
      exact h

/-- The counters count the processes, the header is empty between transactions and its entries
are distinct, and whoever sleeps would not be admitted. -/
structure Coherent (s : Sys P) : Prop where
  outstanding : s.log.outstanding = s.active
  committers : s.committers = s.log.committing.toNat
  quiet : s.log.committing = true → s.active = 0
  nodup : s.log.block.Nodup
  empty : s.active = 0 → s.log.committing = false → s.log.block = []
  cleared : ∀ i, s.pc i = .cleared → s.log.block = []
  sleepers : ∀ i, s.pc i = .asleep → s.log.admits = false
  fine : s.panicked ≠ some .committing

omit [DecidableEq P] in
theorem Recovered.coherent (h : Recovered s) : Coherent s where
  outstanding := by simp [h.outstanding, Sys.active, h.idle, Pc.active]
  committers := by simp [h.committing, Sys.committers, h.idle, Pc.committer]
  quiet := by simp [h.committing]
  nodup := by simp [h.block]
  empty := by simp [h.block]
  cleared := by simp [h.block]
  sleepers := by simp [h.idle]
  fine := by simp [h.panicked]

namespace Coherent

omit [DecidableEq P] in
theorem not_committing (h : Coherent s) {i : P} (hi : (s.pc i).active = 1) :
    s.log.committing = false := by
  by_contra hc
  have := h.quiet (by simpa using hc)
  have := active_le s i
  omega

omit [DecidableEq P] in
theorem committing (h : Coherent s) {i : P} (hi : (s.pc i).committer = 1) :
    s.log.committing = true ∧ s.active = 0 := by
  have hc : s.log.committing = true := by
    by_contra hc
    have h1 := h.committers
    have h2 := committer_le s i
    simp only [Bool.not_eq_true] at hc
    simp [hc] at h1
    omega
  exact ⟨hc,h.quiet hc⟩

omit [DecidableEq P] in
/-- Nobody has cleared the log while an operation is in progress. -/
theorem not_cleared (h : Coherent s) {i j : P} (hi : (s.pc i).active = 1) : s.pc j ≠ .cleared := by
  intro hj
  have h1 := h.not_committing hi
  have h2 := (h.committing (i := j) (by simp [hj, Pc.committer])).1
  simp [h1] at h2

/-- The invariant after one process moves and the log changes. -/
theorem goto (h : Coherent s) (i : P) (pc : Pc) (l : Log) (q : Option Panic)
    (hout : l.outstanding + (s.pc i).active = s.log.outstanding + pc.active)
    (hcom : l.committing.toNat + (s.pc i).committer = s.log.committing.toNat + pc.committer)
    (hquiet : l.committing = true → s.active + pc.active = (s.pc i).active)
    (hnodup : l.block.Nodup)
    (hempty : s.active + pc.active = (s.pc i).active → l.committing = false → l.block = [])
    (hcleared : ∀ j, j ≠ i → s.pc j = .cleared → l.block = []) (hpc : pc = .cleared → l.block = [])
    (hsleep : ∀ j, j ≠ i → s.pc j = .asleep → l.admits = false) (hpc' : pc = .asleep → l.admits = false)
    (hq : q ≠ some .committing) :
    Coherent ({ pc := (s.goto i pc).pc, log := l, panicked := q } : Sys P) := by
  have ha := goto_active s i pc
  have hc := goto_committers s i pc
  refine ⟨?_,?_,?_,hnodup,?_,?_,?_,hq⟩
  · have h1 := h.outstanding
    change l.outstanding = ((s.goto i pc).active : ℤ)
    omega
  · have h1 := h.committers
    change (s.goto i pc).committers = l.committing.toNat
    omega
  · intro hl
    have h1 := hquiet hl
    change (s.goto i pc).active = 0
    omega
  · intro hz
    change (s.goto i pc).active = 0 at hz
    exact hempty (by omega)
  · intro j hj
    by_cases hji : j = i
    · subst hji
      exact hpc (by simpa [Sys.goto] using hj)
    · exact hcleared j hji (by simpa [Sys.goto, Function.update_of_ne hji] using hj)
  · intro j hj
    by_cases hji : j = i
    · subst hji
      exact hpc' (by simpa [Sys.goto] using hj)
    · exact hsleep j hji (by simpa [Sys.goto, Function.update_of_ne hji] using hj)

/-- The invariant after one process moves and the log stays as it is. -/
theorem move (h : Coherent s) (i : P) (pc : Pc) (ha : pc.active = (s.pc i).active)
    (hc : pc.committer = (s.pc i).committer) (hcl : pc ≠ .cleared)
    (hsl : pc = .asleep → s.log.admits = false) : Coherent (s.goto i pc) := by
  refine h.goto i pc s.log s.panicked (by rw [ha]) (by rw [hc]) ?_ h.nodup ?_
    (fun j _ => h.cleared j) (fun hp => absurd hp hcl) (fun j _ => h.sleepers j) hsl h.fine
  · intro hl
    have := h.quiet hl
    omega
  · intro hz
    exact h.empty (by omega)

omit [DecidableEq P] in
/-- A wakeup may come with any change of the log that keeps the rest. -/
theorem wakeup (h : Coherent s) : Coherent s.wakeup where
  outstanding := by rw [wakeup_active]; exact h.outstanding
  committers := by rw [wakeup_committers]; exact h.committers
  quiet := by rw [wakeup_active]; exact h.quiet
  nodup := h.nodup
  empty := by rw [wakeup_active]; exact h.empty
  cleared := by
    intro i hi
    change (s.pc i).woken = .cleared at hi
    refine h.cleared i ?_
    cases hpc : s.pc i <;> simp_all [Pc.woken]
  sleepers := by
    intro i hi
    change (s.pc i).woken = .asleep at hi
    cases hpc : s.pc i <;> simp_all [Pc.woken]
  fine := h.fine

/-- The invariant after one process goes idle and wakes everyone, whatever the log now refuses. -/
theorem goto_idle (h : Coherent s) (i : P) (l : Log)
    (hout : l.outstanding + (s.pc i).active = s.log.outstanding)
    (hcom : l.committing.toNat + (s.pc i).committer = s.log.committing.toNat)
    (hquiet : l.committing = true → s.active = (s.pc i).active) (hnodup : l.block.Nodup)
    (hempty : s.active = (s.pc i).active → l.committing = false → l.block = [])
    (hcleared : ∀ j, j ≠ i → s.pc j = .cleared → l.block = []) :
    Coherent ({ s.goto i .idle with log := l } : Sys P).wakeup := by
  have hw : ({ s.goto i .idle with log := l } : Sys P).wakeup =
      { pc := (s.wakeup.goto i .idle).pc, log := l, panicked := s.panicked } := by
    simp only [Sys.wakeup, Sys.goto, Sys.mk.injEq, and_true, true_and]
    funext j
    by_cases hj : j = i
    · subst hj
      simp [Pc.woken]
    · simp [Function.update_of_ne hj]
  have hpc : ∀ j, s.wakeup.pc j = (s.pc j).woken := fun j => rfl
  rw [hw]
  apply h.wakeup.goto i .idle l s.panicked
  · rw [hpc, Pc.woken_active]
    exact hout.trans (add_zero _).symm
  · rw [hpc, Pc.woken_committer]
    exact hcom.trans (add_zero _).symm
  · rw [hpc, Pc.woken_active, wakeup_active]
    simpa [Pc.active] using hquiet
  · exact hnodup
  · rw [hpc, Pc.woken_active, wakeup_active]
    simpa [Pc.active] using hempty
  · intro j hj hc
    refine hcleared j hj ?_
    rw [hpc] at hc
    cases hp : s.pc j <;> simp_all [Pc.woken]
  · simp
  · intro j _ hj
    rw [hpc] at hj
    cases hp : s.pc j <;> simp_all [Pc.woken]
  · simp
  · exact h.fine

end Coherent

/-- A log that refuses refuses with more entries too. -/
theorem Log.record_admits (l : Log) (b : ℕ) (h : l.admits = false) : (l.record b).admits = false := by
  have hn : l.n ≤ (l.record b).n := by
    unfold Log.record Log.n
    split
    · exact le_rfl
    · simp
  simp only [Log.admits, Log.record_committing, Log.record_outstanding] at h ⊢
  cases hc : l.committing with
  | true => rfl
  | false =>
    simp only [hc, Bool.not_false, Bool.true_and, decide_eq_false_iff_not, not_le] at h ⊢
    omega

theorem Moves.coherent (h : Moves s a t) (hs : Coherent s) : Coherent t := by
  cases h with
  | begins i hpc =>
    exact hs.move i .starting (by simp [hpc, Pc.active]) (by simp [hpc, Pc.committer]) (by simp) (by simp)
  | admitted i hpc hadm =>
    have hc : s.log.committing = false := by
      simp only [Log.admits, Bool.and_eq_true, Bool.not_eq_true'] at hadm
      exact hadm.1
    refine hs.goto i _ _ _ ?_ ?_ ?_ hs.nodup ?_ (fun j _ => hs.cleared j) (by simp) ?_ (by simp) hs.fine
    · simp [hpc, Pc.active]
    · simp [hpc, Pc.committer]
    · simp [hc]
    · simp [hpc, Pc.active]
    · intro j _ hj
      exact absurd (hs.sleepers j hj) (by simp [hadm])
  | sleeps i hpc hadm =>
    exact hs.move i .asleep (by simp [hpc, Pc.active]) (by simp [hpc, Pc.committer]) (by simp)
      fun _ => by simpa using hadm
  | full i b hfull =>
    exact ⟨hs.outstanding,hs.committers,hs.quiet,hs.nodup,hs.empty,hs.cleared,hs.sleepers,by simp⟩
  | outside i b w hpc hout =>
    exact ⟨hs.outstanding,hs.committers,hs.quiet,hs.nodup,hs.empty,hs.cleared,hs.sleepers,by simp⟩
  | tested i b w hpc hcard =>
    exact hs.move i (.logging w b) (by simp [hpc, Pc.active]) (by simp [hpc, Pc.committer]) (by simp) (by simp)
  | appended i b w hpc =>
    have hi : (s.pc i).active = 1 := by simp [hpc, Pc.active]
    have hc := hs.not_committing hi
    have hle := active_le s i
    refine hs.goto i _ _ _ ?_ ?_ ?_ (Log.record_nodup hs.nodup b) ?_ ?_ (by simp) ?_ (by simp) hs.fine
    · simp [hpc, Pc.active]
    · simp [hpc, Pc.committer]
    · simp [hc]
    · intro hz
      simp only [hpc, Pc.active] at hz hle
      omega
    · intro j _ hj
      exact absurd hj (hs.not_cleared hi)
    · intro j _ hj
      exact s.log.record_admits b (hs.sleepers j hj)
  | clashes i w hpc hc =>
    have := hs.not_committing (i := i) (by simp [hpc, Pc.active])
    simp [this] at hc
  | commits i w hpc hlast =>
    have hi : (s.pc i).active = 1 := by simp [hpc, Pc.active]
    have hc := hs.not_committing hi
    have hout := hs.outstanding
    refine hs.goto i _ _ _ ?_ ?_ ?_ hs.nodup (by simp) ?_ (by simp) (by simp [Log.admits]) (by simp) hs.fine
    · simp [hpc, Pc.active]
    · simp [hpc, hc, Pc.committer]
    · intro _
      simp only [hpc, Pc.active]
      omega
    · intro j _ hj
      exact absurd hj (hs.not_cleared hi)
  | leaves i w hpc hmore =>
    have hi : (s.pc i).active = 1 := by simp [hpc, Pc.active]
    have hc := hs.not_committing hi
    have hout := hs.outstanding
    apply hs.goto_idle i
    · simp [hi]
    · simp [hpc, Pc.committer]
    · simp [hc]
    · exact hs.nodup
    · intro hz
      omega
    · intro j _ hj
      exact absurd hj (hs.not_cleared hi)
  | clears i hpc =>
    obtain ⟨hc,hquiet⟩ := hs.committing (i := i) (by simp [hpc, Pc.committer])
    refine hs.goto i _ _ _ ?_ ?_ ?_ List.nodup_nil (by simp) (by simp) (by simp) ?_ (by simp) hs.fine
    · simp [hpc, Pc.active]
    · simp [hpc, Pc.committer]
    · simp [hpc, hquiet, Pc.active]
    · simp [Log.admits, hc]
  | finishes i hpc =>
    obtain ⟨hc,hquiet⟩ := hs.committing (i := i) (by simp [hpc, Pc.committer])
    have hblock := hs.cleared i hpc
    apply hs.goto_idle i
    · simp [hpc, Pc.active]
    · simp [hpc, hc, Pc.committer]
    · simp
    · exact hs.nodup
    · simp [hblock]
    · simp [hblock]

theorem stepAny_coherent (hs : Coherent s) (h : stepAny s a = some t) : Coherent t := by
  rcases stepAny_cases h with h | ⟨i,b,w,rfl,hpc,rfl⟩
  · exact h.coherent hs
  · exact hs.move i (.logging w b) (by simp [hpc, Pc.active]) (by simp [hpc, Pc.committer]) (by simp)
      (by simp)

/-- Nobody is inside an operation while the log commits, so nobody calls `log_write`. -/
theorem Coherent.no_logWrite (hs : Coherent s) (hc : s.log.committing = true) (i : P) (b : ℕ) :
    stepAny s (.logWrite i b) = none ∧ stepAny s (.append i) = none := by
  have hz : (s.pc i).active = 0 := by
    have := active_le s i
    have := hs.quiet hc
    omega
  unfold stepAny
  constructor <;> split
  · cases hpc : s.pc i <;> simp_all [advanceAny, Pc.active]
  · rfl
  · cases hpc : s.pc i <;> simp_all [advanceAny, advance, Pc.active]
  · rfl

omit [DecidableEq P] in
/-- A sleeper waits for a commit, or for an operation that holds the room it needs. -/
theorem Coherent.sleeper (hs : Coherent s) {i : P} (hi : s.pc i = .asleep) :
    s.log.committing = true ∨
      (logsize : ℤ) < s.log.n + (s.log.outstanding + 1) * maxopblocks ∧ 1 ≤ s.log.outstanding := by
  have h := hs.sleepers i hi
  cases hc : s.log.committing with
  | true => exact .inl rfl
  | false =>
    simp only [Log.admits, hc, Bool.not_false, Bool.true_and, decide_eq_false_iff_not, not_le] at h
    refine .inr ⟨h,?_⟩
    have hout := hs.outstanding
    by_contra hlt
    have hzero : s.active = 0 := by omega
    have hn : s.log.n = 0 := by rw [Log.n, hs.empty hzero hc]; rfl
    rw [hn, hout, hzero] at h
    revert h
    decide

/-- In every run of `begin_op`, `log_write`, `end_op` and `commit`, with any number of blocks
recorded by an operation. -/
theorem commit_protocol (s : Sys P) (h : Reachable Recovered (OfFun stepAny) s) :
    (s.log.committing = true → s.log.outstanding = 0 ∧
      ∀ i b, stepAny s (.logWrite i b) = none ∧ stepAny s (.append i) = none) ∧
    s.panicked ≠ some .committing ∧
    s.log.block.Nodup ∧
    (s.log.outstanding = 0 → s.log.committing = false → s.log.n = 0) ∧
    ∀ i, s.pc i = .asleep → s.log.committing = true ∨
      (logsize : ℤ) < s.log.n + (s.log.outstanding + 1) * maxopblocks ∧ 1 ≤ s.log.outstanding := by
  have hs : Coherent s :=
    h.invariant (fun _ hs => hs.coherent) (fun _ _ _ hs hst => stepAny_coherent hs hst)
  refine ⟨fun hc => ⟨?_,hs.no_logWrite hc⟩,hs.fine,hs.nodup,fun hz hc => ?_,fun i => hs.sleeper⟩
  · rw [hs.outstanding, hs.quiet hc]
    rfl
  · have hzero : s.active = 0 := by
      have := hs.outstanding
      omega
    rw [Log.n, hs.empty hzero hc]
    rfl

/-- Two operations are in progress and one block is recorded when the third process sleeps. -/
theorem commit_protocol_sleeper : ∃ s : Sys (Fin 3), s.pc 2 = .asleep ∧ s.log.block = [40] ∧
    (s.log.committing = true ∨
      (logsize : ℤ) < s.log.n + (s.log.outstanding + 1) * maxopblocks ∧ 1 ≤ s.log.outstanding) := by
  have h0 : Reachable Recovered (OfFun stepAny) quietLog :=
    .base ⟨rfl,rfl,rfl,fun _ => rfl,rfl⟩
  have h1 := Reachable.next h0 (show OfFun stepAny _ (.begin 0) _ from rfl)
  have h2 := Reachable.next h1 (show OfFun stepAny _ (.test 0) _ from rfl)
  have h3 := Reachable.next h2 (show OfFun stepAny _ (.begin 1) _ from rfl)
  have h4 := Reachable.next h3 (show OfFun stepAny _ (.test 1) _ from rfl)
  have h5 := Reachable.next h4 (show OfFun stepAny _ (.logWrite 0 40) _ from rfl)
  have h6 := Reachable.next h5 (show OfFun stepAny _ (.append 0) _ from rfl)
  have h7 := Reachable.next h6 (show OfFun stepAny _ (.begin 2) _ from rfl)
  have h8 := Reachable.next h7 (show OfFun stepAny _ (.test 2) _ from rfl)
  exact ⟨_,rfl,rfl,(commit_protocol _ h8).2.2.2.2 2 rfl⟩

end X86OsDev.Xv6.LogProtocol
