import X86OsDev.Xv6.Pipe
import Mathlib.Tactic.FinCases

/-! # Sleepers on a pipe

The wakeup law says that a process sleeps on an end of the pipe only while it
has a reason to: readers while the pipe is empty and may still be written,
writers while it is full and may still be read. One return path of `pipewrite`
breaks it, and this module shows that it is the only one.
-/
namespace X86OsDev.Xv6.Pipes
open Transition
variable {P : Type*}

/-- A sleeper on `&p->nread` waits for bytes, one on `&p->nwrite` for room. -/
def NoLostWakeup (s : Sys P) : Prop :=
  ∀ i, ((s.proc i).chan = some .nread → s.pipe.isEmpty ∧ s.pipe.writeopen = true) ∧
    ((s.proc i).chan = some .nwrite → s.pipe.isFull ∧ s.pipe.readopen = true)

/-- A killed process does not run a stretch of `pipewrite` that has more bytes
than the pipe has room for while a reader is asleep. -/
def KilledWriterFits (s : Sys P) : Act P → Prop
  | .run i => ∀ rest, (s.proc i).call = .pipewrite rest → (s.proc i).killed = true →
      s.pipe.room < rest.length → ∀ j, (s.proc j).chan ≠ some .nread
  | _ => True

/-- A process inside a call holds a descriptor of its end, and sleeps only on
the channel of that call. -/
def Proc.Ok (pr : Proc) (reads writes : Prop) : Prop :=
  match pr.call with
  | .user => pr.chan = none
  | .piperead _ => reads ∧ (pr.chan = none ∨ pr.chan = some .nread)
  | .pipewrite _ => writes ∧ (pr.chan = none ∨ pr.chan = some .nwrite)

/-- What holds of the pipe, the calls and the descriptors in every run. -/
structure Shape (s : Sys P) : Prop where
  count : s.pipe.count ≤ pipeSize
  readopen : s.pipe.readopen = true ↔ s.rd ≠ []
  writeopen : s.pipe.writeopen = true ↔ s.wr ≠ []
  proc : ∀ i, (s.proc i).Ok (i ∈ s.rd) (i ∈ s.wr)

theorem Start.shape {s : Sys P} (h : Start s) : Shape s := by
  obtain ⟨i,hr,hw⟩ := h.owner
  refine ⟨?_,?_,?_,?_⟩
  · simp [Pipe.count, h.nread, h.nwrite]
  · simp [h.readopen, hr]
  · simp [h.writeopen, hw]
  · intro j
    simp [Proc.Ok, h.user j]

theorem Proc.Ok.mono {pr : Proc} {r w r' w' : Prop} (h : pr.Ok r w) (hr : r → r') (hw : w → w') :
    pr.Ok r' w' := by
  unfold Proc.Ok at h ⊢
  split at h
  · exact h
  · exact ⟨hr h.1,h.2⟩
  · exact ⟨hw h.1,h.2⟩

/-- Waking a process, or setting its flags, keeps it well formed. -/
theorem Proc.Ok.awake {pr q : Proc} {r w : Prop} (h : pr.Ok r w) (hcall : q.call = pr.call)
    (hchan : q.chan = pr.chan ∨ q.chan = none) : q.Ok r w := by
  unfold Proc.Ok at h ⊢
  rw [hcall]
  split at h
  · rcases hchan with hq | hq
    · rw [hq, h]
    · exact hq
  · refine ⟨h.1,?_⟩
    rcases hchan with hq | hq
    · rw [hq]
      exact h.2
    · exact .inl hq
  · refine ⟨h.1,?_⟩
    rcases hchan with hq | hq
    · rw [hq]
      exact h.2
    · exact .inl hq

theorem Proc.Ok.reader {pr : Proc} {r w : Prop} (h : pr.Ok r w) (hc : pr.chan = some .nread) : r := by
  unfold Proc.Ok at h
  split at h
  · simp [hc] at h
  · exact h.1
  · simp [hc] at h

theorem Start.noLostWakeup {s : Sys P} (h : Start s) : NoLostWakeup s := by
  intro i
  simp [(h.user i).2]

/-- A stretch leaves the channels of the other processes, or clears them. -/
theorem wakeup_chan (c : Chan) (proc : P → Proc) (i : P) :
    (wakeup c proc i).chan = if (proc i).chan = some c then none else (proc i).chan := by
  unfold wakeup
  split <;> rfl

@[simp] theorem wakeup_call (c : Chan) (proc : P → Proc) (i : P) :
    (wakeup c proc i).call = (proc i).call := by
  unfold wakeup
  split <;> rfl

theorem wakeup_chan_eq {c d : Chan} {proc : P → Proc} {i : P}
    (h : (wakeup c proc i).chan = some d) : (proc i).chan = some d ∧ d ≠ c := by
  rw [wakeup_chan] at h
  split at h
  · cases h
  · rename_i hc
    refine ⟨h,?_⟩
    rintro rfl
    exact hc h

variable [DecidableEq P]

/-- How one stretch of a call moves the system. -/
inductive Stretch (s : Sys P) (i : P) : Sys P → Prop
  /-- `piperead` returns the bytes it took and wakes the writers. -/
  | took (n : ℤ) (t : Sys P) (hcall : (s.proc i).call = .piperead n)
      (hne : ¬ (s.pipe.isEmpty ∧ s.pipe.writeopen = true))
      (hpipe : t.pipe.count ≤ s.pipe.count ∧ t.pipe.readopen = s.pipe.readopen ∧
        t.pipe.writeopen = s.pipe.writeopen)
      (hproc : t.proc = wakeup .nwrite
        (Function.update s.proc i { s.proc i with call := .user, ret := (t.proc i).ret }))
      (hends : t.rd = s.rd ∧ t.wr = s.wr) : Stretch s i t
  /-- A call returns `-1` and has put in what there was room for. -/
  | gaveUp (t : Sys P) (hcall : (s.proc i).call ≠ .user)
      (hpipe : (∃ n, (s.proc i).call = .piperead n) ∧ t.pipe = s.pipe ∨ ∃ rest, (s.proc i).call = .pipewrite rest ∧
        s.pipe.room < rest.length ∧ Wrote s.pipe t.pipe s.pipe.room ∧
        (s.pipe.readopen = false ∨ (s.proc i).killed = true))
      (hproc : t.proc = Function.update s.proc i { s.proc i with call := .user, ret := some (-1) })
      (hends : t.rd = s.rd ∧ t.wr = s.wr) : Stretch s i t
  /-- `piperead` finds nothing to take and sleeps. -/
  | waits (n : ℤ) (t : Sys P) (hcall : (s.proc i).call = .piperead n)
      (hempty : s.pipe.isEmpty ∧ s.pipe.writeopen = true) (hpipe : t.pipe = s.pipe)
      (hproc : t.proc = Function.update s.proc i { s.proc i with chan := some .nread })
      (hends : t.rd = s.rd ∧ t.wr = s.wr) : Stretch s i t
  /-- `pipewrite` puts in its last byte, wakes the readers and returns. -/
  | put (rest : List UInt8) (t : Sys P) (hcall : (s.proc i).call = .pipewrite rest)
      (hroom : rest.length ≤ s.pipe.room) (hpipe : Wrote s.pipe t.pipe rest.length)
      (hproc : t.proc = wakeup .nread
        (Function.update s.proc i { s.proc i with call := .user, ret := some rest.length }))
      (hends : t.rd = s.rd ∧ t.wr = s.wr) : Stretch s i t
  /-- `pipewrite` fills the pipe, wakes the readers and sleeps. -/
  | blocks (rest left : List UInt8) (t : Sys P) (hcall : (s.proc i).call = .pipewrite rest)
      (hroom : s.pipe.room < rest.length)
      (hopen : s.pipe.readopen = true ∧ (s.proc i).killed = false)
      (hpipe : Wrote s.pipe t.pipe s.pipe.room)
      (hproc : t.proc = Function.update (wakeup .nread s.proc) i
        { s.proc i with call := .pipewrite left, chan := some .nwrite })
      (hends : t.rd = s.rd ∧ t.wr = s.wr) : Stretch s i t

theorem runCall_stretch {s t : Sys P} {i : P} (hc : s.pipe.count ≤ pipeSize)
    (h : runCall s i = some t) : Stretch s i t := by
  unfold runCall at h
  cases hcall : (s.proc i).call with
  | user => simp [hcall] at h
  | piperead n =>
    simp only [hcall, piperead] at h
    by_cases he : s.pipe.isEmpty ∧ s.pipe.writeopen = true
    · by_cases hk : (s.proc i).killed = true
      · simp only [if_pos he, if_pos hk, Option.some.injEq] at h
        subst h
        exact .gaveUp _ (by simp [hcall]) (.inl ⟨⟨n,hcall⟩,rfl⟩) rfl ⟨rfl,rfl⟩
      · simp only [if_pos he, if_neg hk, Option.some.injEq] at h
        subst h
        exact .waits n _ hcall he rfl (by rw [← hcall]) ⟨rfl,rfl⟩
    · simp only [if_neg he, Option.some.injEq] at h
      obtain ⟨h1,h2,h3,h4⟩ := copyOut_spec n.toNat s.pipe
      subst h
      refine .took n _ hcall he ⟨by rw [h1]; omega,h3,h4⟩ ?_ ⟨rfl,rfl⟩
      simp only [wakeup, Function.update_self]
      split <;> rfl
  | pipewrite rest =>
    simp only [hcall] at h
    by_cases hfit : s.pipe.count + rest.length ≤ pipeSize
    · obtain ⟨he,hw⟩ := pipewrite_fits (s.proc i).killed s.pipe rest hfit
      have hp : pipewrite (s.proc i).killed s.pipe rest =
          ((pipewrite (s.proc i).killed s.pipe rest).1, .returned) := Prod.ext rfl he
      rw [hp] at h
      simp only [Option.some.injEq] at h
      subst h
      exact .put rest _ hcall (by unfold Pipe.room; omega) hw rfl ⟨rfl,rfl⟩
    · have hroom : s.pipe.room < rest.length := by unfold Pipe.room; omega
      obtain ⟨he,hw⟩ := pipewrite_fills (s.proc i).killed s.pipe rest hc (by omega)
      rcases hq : pipewrite (s.proc i).killed s.pipe rest with ⟨q,e⟩
      simp only [hq] at h he hw
      by_cases hg : s.pipe.readopen = false ∨ (s.proc i).killed = true
      · rw [if_pos hg] at he
        subst he
        simp only [Option.some.injEq] at h
        subst h
        exact .gaveUp _ (by simp [hcall]) (.inr ⟨rest,hcall,hroom,hw,hg⟩) rfl ⟨rfl,rfl⟩
      · rw [if_neg hg] at he
        subst he
        simp only [Option.some.injEq] at h
        subst h
        exact .blocks rest _ _ hcall hroom (by simpa using hg) hw rfl ⟨rfl,rfl⟩

section Processes
variable {proc : P → Proc} {R W : P → Prop} {i j : P} {pr : Proc} {c : Chan}

theorem ok_update (hpr : pr.Ok (R i) (W i)) (h : ∀ j, (proc j).Ok (R j) (W j)) (j : P) :
    (Function.update proc i pr j).Ok (R j) (W j) := by
  by_cases hj : j = i
  · subst hj
    rwa [Function.update_self]
  · rw [Function.update_of_ne hj]
    exact h j

omit [DecidableEq P] in
theorem ok_wakeup (c : Chan) (h : ∀ j, (proc j).Ok (R j) (W j)) (j : P) :
    (wakeup c proc j).Ok (R j) (W j) := by
  refine (h j).awake (wakeup_call c proc j) ?_
  rw [wakeup_chan]
  split
  · exact .inr rfl
  · exact .inl rfl

/-- The channel of a process when some process was rewritten without one. -/
theorem update_chan_eq (h : (Function.update proc i pr j).chan = some c) (hpr : pr.chan = none) :
    (proc j).chan = some c := by
  by_cases hj : j = i
  · subst hj
    simp [hpr] at h
  · rwa [Function.update_of_ne hj] at h

end Processes

variable {s t : Sys P} {i : P}

omit [DecidableEq P] in
/-- The shape of a state with the ends and the open flags of another. -/
theorem Shape.of_ends (hs : Shape s) (hends : t.rd = s.rd ∧ t.wr = s.wr)
    (hcount : t.pipe.count ≤ pipeSize) (hr : t.pipe.readopen = s.pipe.readopen)
    (hw : t.pipe.writeopen = s.pipe.writeopen)
    (hproc : ∀ j, (t.proc j).Ok (j ∈ s.rd) (j ∈ s.wr)) : Shape t := by
  refine ⟨hcount,?_,?_,?_⟩
  · rw [hr, hends.1]
    exact hs.readopen
  · rw [hw, hends.2]
    exact hs.writeopen
  · rw [hends.1, hends.2]
    exact hproc

theorem Stretch.shape (h : Stretch s i t) (hs : Shape s) (hi : (s.proc i).chan = none) : Shape t := by
  have hcount := hs.count
  have hok := hs.proc i
  cases h with
  | took n _ hcall hne hpipe hproc hends =>
    refine hs.of_ends hends (hpipe.1.trans hcount) hpipe.2.1 hpipe.2.2 ?_
    rw [hproc]
    exact ok_wakeup _ (ok_update (by simpa [Proc.Ok] using hi) hs.proc)
  | gaveUp _ hcall hpipe hproc hends =>
    have hp : ∀ j, (t.proc j).Ok (j ∈ s.rd) (j ∈ s.wr) := by
      rw [hproc]
      exact ok_update (by simpa [Proc.Ok] using hi) hs.proc
    rcases hpipe with ⟨-,hpipe⟩ | ⟨rest,-,-,hpipe,-⟩
    · exact hs.of_ends hends (hpipe ▸ hcount) (by rw [hpipe]) (by rw [hpipe]) hp
    · refine hs.of_ends hends ?_ hpipe.readopen hpipe.writeopen hp
      rw [hpipe.count]
      unfold Pipe.room
      omega
  | waits n _ hcall hempty hpipe hproc hends =>
    refine hs.of_ends hends (hpipe ▸ hcount) (by rw [hpipe]) (by rw [hpipe]) ?_
    rw [hproc]
    refine ok_update ?_ hs.proc
    simp only [Proc.Ok, hcall] at hok ⊢
    exact ⟨hok.1,.inr trivial⟩
  | put rest _ hcall hroom hpipe hproc hends =>
    refine hs.of_ends hends ?_ hpipe.readopen hpipe.writeopen ?_
    · rw [hpipe.count]
      unfold Pipe.room at hroom
      omega
    · rw [hproc]
      exact ok_wakeup _ (ok_update (by simpa [Proc.Ok] using hi) hs.proc)
  | blocks rest left _ hcall hroom hopen hpipe hproc hends =>
    refine hs.of_ends hends ?_ hpipe.readopen hpipe.writeopen ?_
    · rw [hpipe.count]
      unfold Pipe.room
      omega
    · rw [hproc]
      refine ok_update ?_ (ok_wakeup _ hs.proc)
      simp only [Proc.Ok, hcall] at hok ⊢
      exact ⟨hok.1,.inr trivial⟩

/-- A writer asleep leaves no room, so a stretch of another writer puts in nothing. -/
theorem Wrote.isFull {p q : Pipe} {put : ℕ} (h : Wrote p q put) (hfull : p.isFull)
    (hput : put ≤ p.room) : q.isFull := by
  rw [Pipe.isFull_iff] at hfull ⊢
  have := h.count
  unfold Pipe.room at hput
  omega

theorem Wrote.fills {p q : Pipe} (h : Wrote p q p.room) (hp : p.count ≤ pipeSize) : q.isFull := by
  rw [Pipe.isFull_iff, h.count]
  unfold Pipe.room
  omega

theorem Stretch.noLostWakeup (h : Stretch s i t) (hs : Shape s) (hi : (s.proc i).chan = none)
    (hl : NoLostWakeup s) (hfits : KilledWriterFits s (.run i)) : NoLostWakeup t := by
  intro j
  cases h with
  | took n _ hcall hne hpipe hproc hends =>
    rw [hproc]
    constructor
    · intro hj
      exact absurd ((hl j).1 (update_chan_eq (wakeup_chan_eq hj).1 hi)) hne
    · intro hj
      exact absurd rfl (wakeup_chan_eq hj).2
  | gaveUp _ hcall hpipe hproc hends =>
    rw [hproc]
    rcases hpipe with ⟨-,hpipe⟩ | ⟨rest,hcall,hroom,hpipe,hg⟩
    · rw [hpipe]
      exact ⟨fun hj => (hl j).1 (update_chan_eq hj hi), fun hj => (hl j).2 (update_chan_eq hj hi)⟩
    · constructor
      · intro hj
        have hj := update_chan_eq hj hi
        rcases hg with hg | hg
        · have hopen := hs.readopen.mpr (List.ne_nil_of_mem ((hs.proc j).reader hj))
          simp [hg] at hopen
        · exact absurd hj (hfits rest hcall hg hroom j)
      · intro hj
        have hj := (hl j).2 (update_chan_eq hj hi)
        exact ⟨hpipe.isFull hj.1 le_rfl,hpipe.readopen ▸ hj.2⟩
  | waits n _ hcall hempty hpipe hproc hends =>
    rw [hproc, hpipe]
    by_cases hji : j = i
    · subst hji
      simp [hempty]
    · rw [Function.update_of_ne hji]
      exact hl j
  | put rest _ hcall hroom hpipe hproc hends =>
    rw [hproc]
    constructor
    · intro hj
      exact absurd rfl (wakeup_chan_eq hj).2
    · intro hj
      have hj := (hl j).2 (update_chan_eq (wakeup_chan_eq hj).1 hi)
      exact ⟨hpipe.isFull hj.1 hroom,hpipe.readopen ▸ hj.2⟩
  | blocks rest left _ hcall hroom hopen hpipe hproc hends =>
    rw [hproc]
    have hfull := hpipe.fills hs.count
    have hopen := hpipe.readopen.trans hopen.1
    constructor
    · intro hj
      by_cases hji : j = i
      · subst hji
        simp at hj
      · rw [Function.update_of_ne hji] at hj
        exact absurd rfl (wakeup_chan_eq hj).2
    · intro _
      exact ⟨hfull,hopen⟩

/-- Descriptors are closed by a process outside any call, so the callers keep theirs. -/
theorem mem_erase_of_call {l : List P} {j : P} (hcall : (s.proc i).call = .user)
    (hj : (s.proc j).call ≠ .user) (h : j ∈ l) : j ∈ l.erase i := by
  refine (List.mem_erase_of_ne ?_).mpr h
  rintro rfl
  exact hj hcall

theorem ok_erase_wr (hs : Shape s) (hcall : (s.proc i).call = .user) (j : P) :
    (s.proc j).Ok (j ∈ s.rd) (j ∈ s.wr.erase i) := by
  have hj := hs.proc j
  unfold Proc.Ok at hj ⊢
  split at hj
  · exact hj
  · exact hj
  · rename_i hc
    exact ⟨mem_erase_of_call hcall (by simp [hc]) hj.1,hj.2⟩

theorem ok_erase_rd (hs : Shape s) (hcall : (s.proc i).call = .user) (j : P) :
    (s.proc j).Ok (j ∈ s.rd.erase i) (j ∈ s.wr) := by
  have hj := hs.proc j
  unfold Proc.Ok at hj ⊢
  split at hj
  · exact hj
  · rename_i hc
    exact ⟨mem_erase_of_call hcall (by simp [hc]) hj.1,hj.2⟩
  · exact hj

theorem closeEnd_shape (writable : Bool) (hs : Shape s) (hcall : (s.proc i).call = .user) :
    Shape (closeEnd s i writable) := by
  cases writable with
  | true =>
    have hproc := ok_erase_wr hs hcall
    by_cases hl : s.wr.erase i = []
    · simp only [hl] at hproc
      simp only [closeEnd, if_pos hl, pipeclose, if_true]
      exact ⟨hs.count,hs.readopen,by simp,ok_wakeup _ hproc⟩
    · have hwr : s.wr ≠ [] := by rintro h; simp [h] at hl
      simp only [closeEnd, if_neg hl]
      exact ⟨hs.count,hs.readopen,by simp [hl, hs.writeopen, hwr],hproc⟩
  | false =>
    have hproc := ok_erase_rd hs hcall
    by_cases hl : s.rd.erase i = []
    · simp only [hl] at hproc
      simp only [closeEnd, if_pos hl, pipeclose, Bool.false_eq_true, if_false]
      exact ⟨hs.count,by simp,hs.writeopen,ok_wakeup _ hproc⟩
    · have hrd : s.rd ≠ [] := by rintro h; simp [h] at hl
      simp only [closeEnd, if_neg hl]
      exact ⟨hs.count,by simp [hl, hs.readopen, hrd],hs.writeopen,hproc⟩

theorem closeEnd_noLostWakeup (writable : Bool) (hl : NoLostWakeup s) :
    NoLostWakeup (closeEnd s i writable) := by
  intro j
  cases writable with
  | true =>
    simp only [closeEnd]
    split
    · refine ⟨fun hj => absurd rfl (wakeup_chan_eq hj).2,fun hj => ?_⟩
      exact (hl j).2 (wakeup_chan_eq hj).1
    · exact hl j
  | false =>
    simp only [closeEnd]
    split
    · refine ⟨fun hj => ?_,fun hj => absurd rfl (wakeup_chan_eq hj).2⟩
      exact (hl j).1 (wakeup_chan_eq hj).1
    · exact hl j

theorem step_shape {a : Act P} (hs : Shape s) (h : step s a = some t) : Shape t := by
  cases a with
  | read i n =>
    simp only [step] at h
    split at h
    · rename_i hcall
      split at h
      · rename_i hg
        cases h
        refine hs.of_ends ⟨rfl,rfl⟩ hs.count rfl rfl (ok_update ?_ hs.proc)
        have := hs.proc i
        simp only [Proc.Ok, hcall] at this ⊢
        exact ⟨hg.1,.inl this⟩
      · cases h
    · cases h
  | write i bytes =>
    simp only [step] at h
    split at h
    · rename_i hcall
      split at h
      · rename_i hg
        cases h
        refine hs.of_ends ⟨rfl,rfl⟩ hs.count rfl rfl (ok_update ?_ hs.proc)
        have := hs.proc i
        simp only [Proc.Ok, hcall] at this ⊢
        exact ⟨hg.1,.inl this⟩
      · cases h
    · cases h
  | run i =>
    simp only [step] at h
    split at h
    · rename_i hi
      exact (runCall_stretch hs.count h).shape hs hi
    · cases h
  | share i j writable =>
    cases writable with
    | true =>
      simp only [step, if_true] at h
      split at h
      · rename_i hi
        cases h
        refine ⟨hs.count,hs.readopen,?_,fun k => (hs.proc k).mono id (List.mem_cons_of_mem _)⟩
        simp [hs.writeopen, List.ne_nil_of_mem hi]
      · cases h
    | false =>
      simp only [step, Bool.false_eq_true, if_false] at h
      split at h
      · rename_i hi
        cases h
        refine ⟨hs.count,?_,hs.writeopen,fun k => (hs.proc k).mono (List.mem_cons_of_mem _) id⟩
        simp [hs.readopen, List.ne_nil_of_mem hi]
      · cases h
  | close i writable =>
    simp only [step] at h
    split at h
    · rename_i hcall
      by_cases hi : i ∈ (if writable then s.wr else s.rd)
      · rw [if_pos hi] at h
        cases h
        exact closeEnd_shape writable hs hcall
      · rw [if_neg hi] at h
        cases h
    · cases h
  | kill i =>
    simp only [step, Option.some.injEq] at h
    subst h
    exact hs.of_ends ⟨rfl,rfl⟩ hs.count rfl rfl
      (ok_update ((hs.proc i).awake rfl (.inr rfl)) hs.proc)

theorem step_noLostWakeup {a : Act P} (hs : Shape s) (hl : NoLostWakeup s)
    (hfits : KilledWriterFits s a) (h : step s a = some t) : NoLostWakeup t := by
  cases a with
  | read i n =>
    simp only [step] at h
    split at h
    · rename_i hcall
      have hi : (s.proc i).chan = none := by simpa [Proc.Ok, hcall] using hs.proc i
      split at h
      · cases h
        intro j
        exact ⟨fun hj => (hl j).1 (update_chan_eq hj hi),fun hj => (hl j).2 (update_chan_eq hj hi)⟩
      · cases h
    · cases h
  | write i bytes =>
    simp only [step] at h
    split at h
    · rename_i hcall
      have hi : (s.proc i).chan = none := by simpa [Proc.Ok, hcall] using hs.proc i
      split at h
      · cases h
        intro j
        exact ⟨fun hj => (hl j).1 (update_chan_eq hj hi),fun hj => (hl j).2 (update_chan_eq hj hi)⟩
      · cases h
    · cases h
  | run i =>
    simp only [step] at h
    split at h
    · rename_i hi
      exact (runCall_stretch hs.count h).noLostWakeup hs hi hl hfits
    · cases h
  | share i j writable =>
    simp only [step] at h
    split at h <;> split at h <;> cases h <;> exact hl
  | close i writable =>
    simp only [step] at h
    split at h
    · by_cases hi : i ∈ (if writable then s.wr else s.rd)
      · rw [if_pos hi] at h
        cases h
        exact closeEnd_noLostWakeup writable hl
      · rw [if_neg hi] at h
        cases h
    · cases h
  | kill i =>
    simp only [step, Option.some.injEq] at h
    subst h
    intro j
    exact ⟨fun hj => (hl j).1 (update_chan_eq hj rfl),fun hj => (hl j).2 (update_chan_eq hj rfl)⟩

/-- The step the condition leaves out breaks the law: the reader still sleeps
and the pipe is full. -/
theorem killed_writer_loses_wakeup {a : Act P} (hs : Shape s)
    (hfits : ¬ KilledWriterFits s a) (h : step s a = some t) : ¬ NoLostWakeup t := by
  cases a with
  | run i =>
    simp only [KilledWriterFits, not_forall, not_not] at hfits
    obtain ⟨rest,hcall,hk,hroom,j,hj⟩ := hfits
    simp only [step] at h
    split at h
    · rename_i hi
      have hji : j ≠ i := by rintro rfl; simp [hi] at hj
      cases runCall_stretch hs.count h with
      | took n _ hread => simp [hcall] at hread
      | waits n _ hread => simp [hcall] at hread
      | put left _ hput hfit =>
        rw [hcall] at hput
        cases hput
        omega
      | blocks left _ _ _ _ hopen => simp [hk] at hopen
      | gaveUp _ _ hpipe hproc _ =>
        rcases hpipe with ⟨⟨n,hread⟩,-⟩ | ⟨_,_,_,hw,_⟩
        · simp [hcall] at hread
        · intro ht
          have := ((ht j).1 (by rw [hproc, Function.update_of_ne hji]; exact hj)).1
          exact Pipe.not_isEmpty_of_isFull (hw.fills hs.count) this
    · cases h
  | _ => exact absurd trivial hfits

/-- A pipe with both ends in process 0 and nobody in a call. -/
def freshPipe : Sys (Fin 2) where
  pipe := ⟨fun _ => 0,0,0,true,true⟩
  proc _ := ⟨false,.user,none,none⟩
  rd := [0]
  wr := [0]
  sent := []
  delivered := []

theorem freshPipe_start : Start freshPipe :=
  ⟨rfl,rfl,rfl,rfl,⟨0,rfl,rfl⟩,fun _ => ⟨rfl,rfl⟩,rfl,rfl⟩

theorem runCall_isSome (h : (s.proc i).call ≠ .user) : ∃ t, runCall s i = some t := by
  unfold runCall
  cases hcall : (s.proc i).call with
  | user => exact absurd hcall h
  | piperead n =>
    simp only [hcall]
    split <;> exact ⟨_,rfl⟩
  | pipewrite rest =>
    simp only [hcall]
    split <;> exact ⟨_,rfl⟩

/-- Process 0 sleeps in `piperead`; process 1 is killed inside `pipewrite`. -/
theorem killed_writer_run (rest : List UInt8) : ∃ s : Sys (Fin 2), Reached s ∧
    (s.proc 1).killed = true ∧ (s.proc 1).call = .pipewrite rest ∧ (s.proc 1).chan = none ∧
    (s.proc 0).chan = some .nread ∧ s.pipe.count = 0 := by
  have h0 : Reached freshPipe := .base freshPipe_start
  have h1 := Reachable.next h0 (show OfFun step _ (.share 0 1 true) _ from rfl)
  have h2 := Reachable.next h1 (show OfFun step _ (.read 0 1) _ from rfl)
  have h3 := Reachable.next h2 (show OfFun step _ (.run 0) _ from rfl)
  have h4 := Reachable.next h3 (show OfFun step _ (.write 1 rest) _ from rfl)
  have h5 := Reachable.next h4 (show OfFun step _ (.kill 1) _ from rfl)
  exact ⟨_,h5,rfl,rfl,rfl,rfl,show ((0 : BitVec 32) - 0).toNat = 0 by decide⟩

end X86OsDev.Xv6.Pipes
