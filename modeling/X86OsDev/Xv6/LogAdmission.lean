import X86OsDev.Xv6.LogProtocol
import X86OsDev.Lib.Counting
import Mathlib.Algebra.Order.BigOperators.Group.Finset
import Mathlib.Data.Fintype.EquivFin
import Mathlib.Tactic.FinCases

/-! # Admission against capacity

`begin_op` admits an operation when `lh.n + (outstanding+1)*MAXOPBLOCKS` fits in
`LOGSIZE`, while `log_write` panics from `log.size - 1` entries on, header block
excluded, and also when it would only absorb. What an admission can still lead
to is the entries of the log plus the unused part of each reservation.
-/
namespace X86OsDev.Xv6.LogProtocol
open Transition Counting

namespace Pc

/-- The blocks the operation of a process has recorded. -/
def written : Pc → Finset ℕ
  | .inOp w => w
  | .logging w _ => w
  | _ => ∅

def active : Pc → ℕ
  | .inOp _ => 1
  | .logging _ _ => 1
  | _ => 0

def committer : Pc → ℕ
  | .writing => 1
  | .cleared => 1
  | _ => 0

/-- What is left of the reservation of a process. -/
def unused (pc : Pc) : ℕ := pc.active * (maxopblocks - pc.written.card)

/-- An operation stays within its reservation, also with the block at hand. -/
def Within : Pc → Prop
  | .inOp w => w.card ≤ maxopblocks
  | .logging w b => (insert b w).card ≤ maxopblocks
  | _ => True

@[simp] theorem woken_active (pc : Pc) : pc.woken.active = pc.active := by cases pc <;> rfl
@[simp] theorem woken_committer (pc : Pc) : pc.woken.committer = pc.committer := by cases pc <;> rfl
@[simp] theorem woken_written (pc : Pc) : pc.woken.written = pc.written := by cases pc <;> rfl
@[simp] theorem woken_unused (pc : Pc) : pc.woken.unused = pc.unused := by simp [unused]
@[simp] theorem woken_within (pc : Pc) : pc.woken.Within ↔ pc.Within := by cases pc <;> rfl

theorem written_of_active_zero {pc : Pc} (h : pc.active = 0) : pc.written = ∅ := by
  cases pc <;> simp_all [active, written]

end Pc

variable {P : Type*} [Fintype P]

def Sys.active (s : Sys P) : ℕ := ∑ i, (s.pc i).active
def Sys.committers (s : Sys P) : ℕ := ∑ i, (s.pc i).committer
def Sys.unused (s : Sys P) : ℕ := ∑ i, (s.pc i).unused

/-- The counters count the processes, and what an operation has recorded is in
the log until everyone is out and the log is cleared. -/
structure Inv (s : Sys P) : Prop where
  outstanding : s.log.outstanding = s.active
  committers : s.committers = s.log.committing.toNat
  quiet : s.log.committing = true → s.active = 0
  recorded : ∀ i, (s.pc i).written ⊆ s.log.block.toFinset
  within : ∀ i, (s.pc i).Within
  nodup : s.log.block.Nodup

section Goto
variable [DecidableEq P] (s : Sys P) (i : P) (pc : Pc)

theorem goto_active : (s.goto i pc).active + (s.pc i).active = s.active + pc.active :=
  sum_update_add s.pc Pc.active i pc

theorem goto_committers :
    (s.goto i pc).committers + (s.pc i).committer = s.committers + pc.committer :=
  sum_update_add s.pc Pc.committer i pc

theorem goto_unused : (s.goto i pc).unused + (s.pc i).unused = s.unused + pc.unused :=
  sum_update_add s.pc Pc.unused i pc

omit [DecidableEq P] in
@[simp] theorem wakeup_active : s.wakeup.active = s.active := by simp [Sys.active, Sys.wakeup]
omit [DecidableEq P] in
@[simp] theorem wakeup_committers : s.wakeup.committers = s.committers := by
  simp [Sys.committers, Sys.wakeup]
omit [DecidableEq P] in
@[simp] theorem wakeup_unused : s.wakeup.unused = s.unused := by simp [Sys.unused, Sys.wakeup]

omit [DecidableEq P] in
theorem active_le (i : P) : (s.pc i).active ≤ s.active :=
  Finset.single_le_sum (f := fun i => (s.pc i).active) (fun _ _ => Nat.zero_le _) (Finset.mem_univ i)

omit [DecidableEq P] in
theorem committer_le (i : P) : (s.pc i).committer ≤ s.committers :=
  Finset.single_le_sum (f := fun i => (s.pc i).committer) (fun _ _ => Nat.zero_le _)
    (Finset.mem_univ i)

omit [Fintype P] in
/-- A property of every process after one of them moves. -/
theorem forall_goto {Q : Pc → Prop} (h : ∀ j, Q (s.pc j)) (hpc : Q pc) (j : P) :
    Q ((s.goto i pc).pc j) := by
  by_cases hj : j = i
  · subst hj
    simpa [Sys.goto] using hpc
  · simpa [Sys.goto, Function.update_of_ne hj] using h j

end Goto

theorem Log.record_block (l : Log) (b : ℕ) :
    l.block ⊆ (l.record b).block ∧ b ∈ (l.record b).block := by
  unfold record
  split
  · rename_i h
    exact ⟨List.Subset.refl _,h⟩
  · exact ⟨List.subset_append_left _ _,by simp⟩

theorem Log.record_nodup {l : Log} (h : l.block.Nodup) (b : ℕ) : (l.record b).block.Nodup := by
  unfold record
  split
  · exact h
  · rename_i hb
    rw [List.nodup_append]
    refine ⟨h,List.nodup_singleton b,?_⟩
    rintro a ha c hc rfl
    exact hb (List.mem_singleton.mp hc ▸ ha)

@[simp] theorem Log.record_outstanding (l : Log) (b : ℕ) :
    (l.record b).outstanding = l.outstanding := by unfold record; split <;> rfl
@[simp] theorem Log.record_committing (l : Log) (b : ℕ) :
    (l.record b).committing = l.committing := by unfold record; split <;> rfl
@[simp] theorem Log.record_size (l : Log) (b : ℕ) : (l.record b).size = l.size := by
  unfold record; split <;> rfl

theorem Start.inv {s : Sys P} (h : Start s) : Inv s := by
  refine ⟨?_,?_,?_,?_,?_,?_⟩
  · simp [h.outstanding, Sys.active, h.idle, Pc.active]
  · simp [h.committing, Sys.committers, h.idle, Pc.committer]
  · simp [h.committing]
  · simp [h.idle, Pc.written]
  · simp [h.idle, Pc.Within]
  · simp [h.block]

/-- While someone is inside an operation nobody commits. -/
theorem Inv.not_committing {s : Sys P} (h : Inv s) {i : P} (hi : (s.pc i).active = 1) :
    s.log.committing = false := by
  by_contra hc
  have := h.quiet (by simpa using hc)
  have := active_le s i
  omega

/-- Nobody is inside an operation while someone commits. -/
theorem Inv.committing {s : Sys P} (h : Inv s) {i : P} (hi : (s.pc i).committer = 1) :
    s.log.committing = true ∧ s.active = 0 := by
  have hc : s.log.committing = true := by
    by_contra hc
    have h1 := h.committers
    have h2 := committer_le s i
    simp only [Bool.not_eq_true] at hc
    simp [hc] at h1
    omega
  exact ⟨hc,h.quiet hc⟩

theorem Inv.written_empty {s : Sys P} (h : s.active = 0) (i : P) : (s.pc i).written = ∅ := by
  have := active_le s i
  exact Pc.written_of_active_zero (by omega)

variable [DecidableEq P]

/-- Every way a step can go, with the tests it passed. -/
inductive Moves (s : Sys P) : Act P → Sys P → Prop
  | begins (i : P) (hpc : s.pc i = .idle) : Moves s (.begin i) (s.goto i .starting)
  | admitted (i : P) (hpc : s.pc i = .starting) (hadm : s.log.admits = true) :
      Moves s (.test i) { s.goto i (.inOp ∅) with
        log := { s.log with outstanding := s.log.outstanding + 1 } }
  | sleeps (i : P) (hpc : s.pc i = .starting) (hadm : ¬ s.log.admits = true) :
      Moves s (.test i) (s.goto i .asleep)
  | full (i : P) (b : ℕ) (hfull : s.log.isFull = true) :
      Moves s (.logWrite i b) { s with panicked := some .tooBig }
  | outside (i : P) (b : ℕ) (w : Finset ℕ) (hpc : s.pc i = .inOp w) (hout : s.log.outstanding < 1) :
      Moves s (.logWrite i b) { s with panicked := some .outsideTrans }
  | tested (i : P) (b : ℕ) (w : Finset ℕ) (hpc : s.pc i = .inOp w)
      (hcard : (insert b w).card ≤ maxopblocks) :
      Moves s (.logWrite i b) (s.goto i (.logging w b))
  | appended (i : P) (b : ℕ) (w : Finset ℕ) (hpc : s.pc i = .logging w b) :
      Moves s (.append i) { s.goto i (.inOp (insert b w)) with log := s.log.record b }
  | clashes (i : P) (w : Finset ℕ) (hpc : s.pc i = .inOp w) (hc : s.log.committing = true) :
      Moves s (.endOp i) { s with
        log := { s.log with outstanding := s.log.outstanding - 1 }
        panicked := some .committing }
  | commits (i : P) (w : Finset ℕ) (hpc : s.pc i = .inOp w) (hlast : s.log.outstanding - 1 = 0) :
      Moves s (.endOp i) { s.goto i .writing with
        log := { s.log with outstanding := s.log.outstanding - 1, committing := true } }
  | leaves (i : P) (w : Finset ℕ) (hpc : s.pc i = .inOp w) (hmore : ¬ s.log.outstanding - 1 = 0) :
      Moves s (.endOp i) ({ s.goto i .idle with
        log := { s.log with outstanding := s.log.outstanding - 1 } } : Sys P).wakeup
  | clears (i : P) (hpc : s.pc i = .writing) :
      Moves s (.clear i) { s.goto i .cleared with log := { s.log with block := [] } }
  | finishes (i : P) (hpc : s.pc i = .cleared) :
      Moves s (.finish i) ({ s.goto i .idle with
        log := { s.log with committing := false } } : Sys P).wakeup

omit [Fintype P] in
theorem step_moves {s t : Sys P} {a : Act P} (h : step s a = some t) : Moves s a t := by
  unfold step at h
  split at h
  case isFalse => cases h
  case isTrue =>
    cases a with
    | begin i =>
      simp only [advance] at h
      split at h
      · cases h
        exact .begins i ‹_›
      · cases h
    | test i =>
      simp only [advance] at h
      split at h
      · split at h
        · cases h
          exact .admitted i ‹_› ‹_›
        · cases h
          exact .sleeps i ‹_› ‹_›
      · cases h
    | logWrite i b =>
      simp only [advance] at h
      split at h
      · rename_i w hpc
        split at h
        · rename_i hcard
          split at h
          · cases h
            exact .full i b ‹_›
          · split at h
            · cases h
              exact .outside i b w hpc ‹_›
            · cases h
              exact .tested i b w hpc hcard
        · cases h
      · cases h
    | append i =>
      simp only [advance] at h
      split at h
      · cases h
        exact .appended i _ _ ‹_›
      · cases h
    | endOp i =>
      simp only [advance] at h
      split at h
      · rename_i w hpc
        split at h
        · cases h
          exact .clashes i w hpc ‹_›
        · split at h
          · cases h
            exact .commits i w hpc ‹_›
          · cases h
            exact .leaves i w hpc ‹_›
      · cases h
    | clear i =>
      simp only [advance] at h
      split at h
      · cases h
        exact .clears i ‹_›
      · cases h
    | finish i =>
      simp only [advance] at h
      split at h
      · cases h
        exact .finishes i ‹_›
      · cases h

/-- The invariant after one process moves and the log changes. -/
theorem Inv.goto {s : Sys P} (hs : Inv s) (i : P) (pc : Pc) (l : Log) (q : Option Panic)
    (hout : l.outstanding + (s.pc i).active = s.log.outstanding + pc.active)
    (hcom : l.committing.toNat + (s.pc i).committer = s.log.committing.toNat + pc.committer)
    (hquiet : l.committing = true → s.active + pc.active = (s.pc i).active)
    (hrec : ∀ j, (s.pc j).written ⊆ l.block.toFinset) (hpc : pc.written ⊆ l.block.toFinset)
    (hwithin : pc.Within) (hnodup : l.block.Nodup) :
    Inv ({ pc := (s.goto i pc).pc, log := l, panicked := q } : Sys P) := by
  have ha := goto_active s i pc
  have hc := goto_committers s i pc
  refine ⟨?_,?_,?_,forall_goto (Q := fun pc => pc.written ⊆ l.block.toFinset) s i pc hrec hpc,
    forall_goto s i pc hs.within hwithin,hnodup⟩
  · have h1 := hs.outstanding
    change l.outstanding = ((s.goto i pc).active : ℤ)
    omega
  · have h1 := hs.committers
    change (s.goto i pc).committers = _
    simp only
    omega
  · intro h
    have h1 := hquiet h
    change (s.goto i pc).active = 0
    omega

omit [DecidableEq P] in
theorem Inv.wakeup {s : Sys P} (hs : Inv s) : Inv s.wakeup := by
  refine ⟨?_,?_,?_,?_,?_,hs.nodup⟩
  · rw [wakeup_active]
    exact hs.outstanding
  · rw [wakeup_committers]
    exact hs.committers
  · rw [wakeup_active]
    exact hs.quiet
  · intro i
    simpa [Sys.wakeup] using hs.recorded i
  · intro i
    simpa [Sys.wakeup] using hs.within i

theorem Moves.inv {s t : Sys P} {a : Act P} (h : Moves s a t) (hs : Inv s) : Inv t := by
  cases h with
  | begins i hpc =>
    refine hs.goto i _ s.log _ ?_ ?_ ?_ hs.recorded ?_ trivial hs.nodup
    all_goals simp [hpc, Pc.active, Pc.committer, Pc.written]
    exact hs.quiet
  | admitted i hpc hadm =>
    have hc : s.log.committing = false := by
      simp only [Log.admits, Bool.and_eq_true, Bool.not_eq_true'] at hadm
      exact hadm.1
    refine hs.goto i _ _ _ ?_ ?_ ?_ hs.recorded ?_ (by simp [Pc.Within]) hs.nodup
    all_goals simp [hpc, hc, Pc.active, Pc.committer, Pc.written]
  | sleeps i hpc hadm =>
    refine hs.goto i _ s.log _ ?_ ?_ ?_ hs.recorded ?_ trivial hs.nodup
    all_goals simp [hpc, Pc.active, Pc.committer, Pc.written]
    exact hs.quiet
  | full i b hfull => exact ⟨hs.outstanding,hs.committers,hs.quiet,hs.recorded,hs.within,hs.nodup⟩
  | outside i b w hpc hout =>
    exact ⟨hs.outstanding,hs.committers,hs.quiet,hs.recorded,hs.within,hs.nodup⟩
  | tested i b w hpc hcard =>
    have hw := hs.recorded i
    refine hs.goto i _ s.log _ ?_ ?_ ?_ hs.recorded ?_ hcard hs.nodup
    all_goals simp_all [Pc.active, Pc.committer, Pc.written]
    exact hs.quiet
  | appended i b w hpc =>
    obtain ⟨hsub,hb⟩ := s.log.record_block b
    have hw := hs.recorded i
    have hin := hs.within i
    have hmono : ∀ j, (s.pc j).written ⊆ (s.log.record b).block.toFinset := by
      intro j x hx
      exact List.mem_toFinset.mpr (hsub (List.mem_toFinset.mp (hs.recorded j hx)))
    refine hs.goto i _ _ _ ?_ ?_ ?_ hmono ?_ (by simpa [hpc, Pc.Within] using hin)
      (Log.record_nodup hs.nodup b)
    · simp [hpc, Pc.active]
    · simp [hpc, Pc.committer]
    · simp only [Log.record_committing, hpc, Pc.active]
      intro hc
      have := hs.not_committing (i := i) (by simp [hpc, Pc.active])
      simp [this] at hc
    · have := hmono i
      simp only [hpc, Pc.written] at this ⊢
      exact Finset.insert_subset (List.mem_toFinset.mpr hb) this
  | clashes i w hpc hc =>
    have := hs.not_committing (i := i) (by simp [hpc, Pc.active])
    simp [this] at hc
  | commits i w hpc hlast =>
    have hc := hs.not_committing (i := i) (by simp [hpc, Pc.active])
    have hout := hs.outstanding
    refine hs.goto i _ _ _ ?_ ?_ ?_ hs.recorded ?_ trivial hs.nodup
    all_goals simp [hpc, hc, Pc.active, Pc.committer, Pc.written]
    omega
  | leaves i w hpc _ =>
    have hc := hs.not_committing (i := i) (by simp [hpc, Pc.active])
    refine (hs.goto i .idle { s.log with outstanding := s.log.outstanding - 1 } s.panicked
      ?_ ?_ ?_ hs.recorded ?_ trivial hs.nodup).wakeup
    all_goals simp [hpc, hc, Pc.active, Pc.committer, Pc.written]
  | clears i hpc =>
    obtain ⟨hc,hquiet⟩ := hs.committing (i := i) (by simp [hpc, Pc.committer])
    refine hs.goto i _ _ _ ?_ ?_ ?_ ?_ ?_ trivial List.nodup_nil
    all_goals simp [hpc, hc, hquiet, Pc.active, Pc.committer, Pc.written]
    exact fun j => Inv.written_empty hquiet j
  | finishes i hpc =>
    obtain ⟨hc,hquiet⟩ := hs.committing (i := i) (by simp [hpc, Pc.committer])
    refine (hs.goto i .idle { s.log with committing := false } s.panicked
      ?_ ?_ ?_ hs.recorded ?_ trivial hs.nodup).wakeup
    all_goals simp [hpc, hc, Pc.active, Pc.committer, Pc.written]

/-- The number of entries from which on `log_write` panics. -/
def Log.capacity (l : Log) : ℕ := min logsize (l.size - 1)

theorem Log.isFull_iff (l : Log) : l.isFull = true ↔ l.capacity ≤ l.n := by
  simp only [isFull, capacity, Bool.or_eq_true, decide_eq_true_eq]
  omega

/-- An operation is let in only when the log has room below its capacity for
everything the admitted operations have not used yet. -/
def Fits (s : Sys P) : Act P → Prop
  | .test _ => s.log.admits = true → s.log.n + s.unused + maxopblocks < s.log.capacity
  | _ => True

/-- The entries and the unused reservations together stay below the capacity. -/
structure Bounded (s : Sys P) : Prop where
  room : s.log.n + s.unused < s.log.capacity
  fine : s.panicked ≠ some .tooBig

omit [DecidableEq P] in
theorem Start.bounded {s : Sys P} (h : Start s) : Bounded s := by
  refine ⟨?_,by simp [h.panicked]⟩
  have hcap : s.log.capacity = 29 := by rw [Log.capacity, h.size]; rfl
  simp [hcap, Log.n, h.block, Sys.unused, h.idle, Pc.unused, Pc.active]

/-- Recording a block uses up what it adds to the log. -/
theorem record_unused {s : Sys P} (hs : Inv s) {i : P} {w : Finset ℕ} {b : ℕ}
    (hpc : s.pc i = .logging w b) :
    (s.log.record b).n + (s.goto i (.inOp (insert b w))).unused ≤ s.log.n + s.unused ∧
    (b ∉ s.log.block →
      (s.log.record b).n + (s.goto i (.inOp (insert b w))).unused = s.log.n + s.unused) := by
  have hu := goto_unused s i (.inOp (insert b w))
  have hcard : (insert b w).card ≤ maxopblocks := by simpa [hpc, Pc.Within] using hs.within i
  have hle := Finset.card_le_card (Finset.subset_insert b w)
  simp only [hpc, Pc.unused, Pc.active, Pc.written, one_mul] at hu
  by_cases hb : b ∈ s.log.block
  · have hr : (s.log.record b).n = s.log.n := by simp [Log.n, Log.record, hb]
    exact ⟨by omega,fun h => absurd hb h⟩
  · have hbw : b ∉ w := by
      intro hbw
      have := hs.recorded i (by simpa [hpc, Pc.written] using hbw)
      exact hb (List.mem_toFinset.mp this)
    have hc := Finset.card_insert_of_notMem hbw
    simp only [Log.n, Log.record, if_neg hb, List.length_append, List.length_singleton]
    omega

omit [DecidableEq P] in
theorem Bounded.of_le {s t : Sys P} (hb : Bounded s)
    (hle : t.log.n + t.unused ≤ s.log.n + s.unused) (hsize : t.log.size = s.log.size)
    (hfine : t.panicked ≠ some .tooBig) : Bounded t := by
  have h := hb.room
  refine ⟨?_,hfine⟩
  simp only [Log.capacity] at h ⊢
  rw [hsize]
  omega

theorem Moves.bounded {s t : Sys P} {a : Act P} (h : Moves s a t) (hs : Inv s) (hb : Bounded s)
    (hf : Fits s a) : Bounded t := by
  have hroom := hb.room
  have hfine := hb.fine
  cases h with
  | begins i hpc =>
    have hu := goto_unused s i .starting
    simp only [hpc, Pc.unused, Pc.active, zero_mul] at hu
    exact hb.of_le (by change s.log.n + _ ≤ _; omega) rfl hfine
  | admitted i hpc hadm =>
    have hu := goto_unused s i (.inOp ∅)
    have hfit := hf hadm
    simp only [hpc, Pc.unused, Pc.active, Pc.written, Finset.card_empty, zero_mul, one_mul] at hu
    refine ⟨?_,hfine⟩
    change s.log.n + (s.goto i (.inOp ∅)).unused < s.log.capacity
    omega
  | sleeps i hpc hadm =>
    have hu := goto_unused s i .asleep
    simp only [hpc, Pc.unused, Pc.active, zero_mul] at hu
    exact hb.of_le (by change s.log.n + _ ≤ _; omega) rfl hfine
  | full i b hfull =>
    rw [Log.isFull_iff] at hfull
    omega
  | outside i b w hpc hout => exact hb.of_le le_rfl rfl (by simp)
  | tested i b w hpc hcard =>
    have hu := goto_unused s i (.logging w b)
    simp only [hpc, Pc.unused, Pc.active, Pc.written] at hu
    exact hb.of_le (by change s.log.n + _ ≤ _; omega) rfl hfine
  | appended i b w hpc => exact hb.of_le (record_unused hs hpc).1 (by simp) hfine
  | clashes i w hpc hc => exact hb.of_le le_rfl rfl (by simp)
  | commits i w hpc hlast =>
    have hu := goto_unused s i .writing
    simp only [hpc, Pc.unused, Pc.active, zero_mul] at hu
    exact hb.of_le (by change s.log.n + (s.goto i .writing).unused ≤ _; omega) rfl hfine
  | leaves i w hpc _ =>
    have hu := goto_unused s i .idle
    simp only [hpc, Pc.unused, Pc.active, zero_mul] at hu
    refine hb.of_le ?_ rfl hfine
    rw [wakeup_unused]
    change s.log.n + (s.goto i .idle).unused ≤ _
    omega
  | clears i hpc =>
    have hu := goto_unused s i .cleared
    simp only [hpc, Pc.unused, Pc.active, zero_mul] at hu
    refine hb.of_le ?_ rfl hfine
    change 0 + (s.goto i .cleared).unused ≤ _
    omega
  | finishes i hpc =>
    have hu := goto_unused s i .idle
    simp only [hpc, Pc.unused, Pc.active, zero_mul] at hu
    refine hb.of_le ?_ rfl hfine
    rw [wakeup_unused]
    change s.log.n + (s.goto i .idle).unused ≤ _
    omega

/-- Nobody is between the tests and the locked section of `log_write`. -/
def NoneInFlight (s : Sys P) : Prop := ∀ i w b, s.pc i ≠ .logging w b

omit [DecidableEq P] in
theorem exists_inOp {s : Sys P} {g : Pc → ℕ} (hg : ∀ pc : Pc, 0 < g pc → pc.active = 1)
    (hpos : 0 < ∑ i, g (s.pc i)) (hn : NoneInFlight s) : ∃ i w, s.pc i = .inOp w ∧ 0 < g (.inOp w) := by
  obtain ⟨i,-,hi⟩ := Finset.exists_ne_zero_of_sum_ne_zero (by omega : ∑ i, g (s.pc i) ≠ 0)
  have ha := hg (s.pc i) (by omega)
  cases hpc : s.pc i with
  | inOp w => exact ⟨i,w,hpc,by rw [hpc] at hi; omega⟩
  | logging w b => exact absurd hpc (hn i w b)
  | _ => simp [hpc, Pc.active] at ha

/-- A full log panics at the next `log_write`, even of a block it has already. -/
theorem full_log_panics {s : Sys P} (hs : Inv s) (hp : s.panicked = none) (hn : NoneInFlight s)
    (hact : 0 < s.active) (hfull : s.log.capacity ≤ s.log.n) :
    ∃ t, Leads (OfFun step) s t ∧ t.panicked = some .tooBig := by
  obtain ⟨i,w,hpc,-⟩ := exists_inOp (g := Pc.active) (fun pc h => by
    cases pc <;> simp_all [Pc.active]) hact hn
  obtain ⟨b,hb⟩ : ∃ b, (insert b w).card ≤ maxopblocks := by
    rcases w.eq_empty_or_nonempty with rfl | ⟨b,hb⟩
    · exact ⟨0,by simp [maxopblocks]⟩
    · refine ⟨b,?_⟩
      rw [Finset.insert_eq_of_mem hb]
      simpa [hpc, Pc.Within] using hs.within i
  refine ⟨{ s with panicked := some .tooBig },?_,rfl⟩
  refine Leads.head (a := .logWrite i b) ?_ (.refl _)
  simp [OfFun, step, hp, advance, hpc, if_pos hb, (Log.isFull_iff _).mpr hfull]

/-- An operation with an unused part of its reservation records a fresh block. -/
theorem records_fresh {s : Sys P} (hs : Inv s) (hp : s.panicked = none) (hn : NoneInFlight s)
    (hroom : s.log.n < s.log.capacity) (hfree : 0 < s.unused) :
    ∃ t, Leads (OfFun step) s t ∧ Inv t ∧ t.panicked = none ∧ NoneInFlight t ∧
      t.active = s.active ∧ t.log.capacity = s.log.capacity ∧ t.log.n = s.log.n + 1 ∧
      t.log.n + t.unused = s.log.n + s.unused := by
  obtain ⟨i,w,hpc,hw⟩ := exists_inOp (g := Pc.unused) (fun pc h => by
    cases pc <;> simp_all [Pc.unused, Pc.active]) hfree hn
  obtain ⟨b,hb⟩ := Infinite.exists_notMem_finset s.log.block.toFinset
  have hblock : b ∉ s.log.block := fun h => hb (List.mem_toFinset.mpr h)
  have hcard : (insert b w).card ≤ maxopblocks := by
    have := Finset.card_insert_le b w
    simp only [Pc.unused, Pc.active, Pc.written] at hw
    omega
  have hout : ¬ s.log.outstanding < 1 := by
    have h1 := hs.outstanding
    have h2 := active_le s i
    simp only [hpc, Pc.active] at h2
    omega
  have hnot : ¬ s.log.isFull = true := by
    rw [Log.isFull_iff]
    omega
  let s1 := s.goto i (.logging w b)
  let s2 : Sys P := { s1.goto i (.inOp (insert b w)) with log := s1.log.record b }
  have h1 : OfFun step s (.logWrite i b) s1 := by
    simp [s1, OfFun, step, hp, advance, hpc, if_pos hcard, hnot, if_neg hout]
  have hs1 := (step_moves h1).inv hs
  have hpc1 : s1.pc i = .logging w b := by simp [s1, Sys.goto]
  have h2 : OfFun step s1 (.append i) s2 := by simp [s1, s2, OfFun, step, Sys.goto, hp, advance]
  have hu1 : s1.unused + (s.pc i).unused = s.unused + (Pc.logging w b).unused := goto_unused s i _
  have hu2 := (record_unused hs1 hpc1).2 hblock
  have ha1 : s1.active + (s.pc i).active = s.active + (Pc.logging w b).active := goto_active s i _
  have ha2 : s2.active + (s1.pc i).active = s1.active + 1 := goto_active s1 i (.inOp (insert b w))
  simp only [hpc, hpc1, Pc.unused, Pc.active, Pc.written] at hu1 ha1 ha2
  have hn1 : (s.log.record b).n = s.log.n + 1 := by simp [Log.n, Log.record, hblock]
  refine ⟨s2,.head h1 (.head h2 (.refl _)),(step_moves h2).inv hs1,hp,?_,by omega,?_,hn1,?_⟩
  · intro j w' b'
    by_cases hj : j = i
    · subst hj
      simp [s2, Sys.goto]
    · simpa [s2, s1, Sys.goto, Function.update_of_ne hj] using hn j w' b'
  · simp [s2, s1, Sys.goto, Log.capacity]
  · change (s.log.record b).n + s2.unused = _
    change (s.log.record b).n + s2.unused = s.log.n + s1.unused at hu2
    omega

/-- Unused reservations beyond the capacity can be used up: fresh blocks fill
the log and the next `log_write` panics. -/
theorem overbooked_panics {s : Sys P} (hs : Inv s) (hp : s.panicked = none) (hn : NoneInFlight s)
    (hact : 0 < s.active) (hover : s.log.capacity ≤ s.log.n + s.unused) :
    ∃ t, Leads (OfFun step) s t ∧ t.panicked = some .tooBig := by
  induction hk : s.log.capacity - s.log.n generalizing s with
  | zero => exact full_log_panics hs hp hn hact (by omega)
  | succ k ih =>
    obtain ⟨t,hst,ht,htp,htn,hta,htc,htl,htu⟩ :=
      records_fresh hs hp hn (by omega) (by omega)
    obtain ⟨u,htu',hup⟩ := ih ht htp htn (by omega) (by omega) (by omega)
    exact ⟨u,hst.trans htu',hup⟩

/-- Three processes and an empty log on the layout of `mkfs`. -/
def quietLog : Sys (Fin 3) where
  log := ⟨[],0,false,logsize⟩
  pc _ := .idle
  panicked := none

theorem quietLog_start : Start quietLog := ⟨rfl,rfl,rfl,rfl,fun _ => rfl,rfl⟩

/-- Three operations are admitted together, for 30 blocks in a log of 29. -/
theorem three_admitted : ∃ s : Sys (Fin 3), Reached s ∧ s.panicked = none ∧
    (∀ i, s.pc i = .inOp ∅) ∧ s.log.capacity = 29 := by
  have h0 : Reached quietLog := .base quietLog_start
  have h1 := Reachable.next h0 (show OfFun step _ (.begin 0) _ from rfl)
  have h2 := Reachable.next h1 (show OfFun step _ (.test 0) _ from rfl)
  have h3 := Reachable.next h2 (show OfFun step _ (.begin 1) _ from rfl)
  have h4 := Reachable.next h3 (show OfFun step _ (.test 1) _ from rfl)
  have h5 := Reachable.next h4 (show OfFun step _ (.begin 2) _ from rfl)
  have h6 := Reachable.next h5 (show OfFun step _ (.test 2) _ from rfl)
  refine ⟨_,h6,rfl,?_,rfl⟩
  intro i
  fin_cases i <;> rfl

end X86OsDev.Xv6.LogProtocol
