import X86OsDev.Xv6.SchedulerLaw

/-! # The lock is given back

The processor that holds `ptable.lock` goes from the scheduler to a process and back, and each time
to a later slot. So it gives the lock up after boundedly many of its own steps, whatever the other
processors do meanwhile.
-/
set_option linter.unusedSectionVars false

namespace X86OsDev.Xv6.Scheduler
open Transition Ptable

variable {C A : Type*}

/-- Steps that are enough for a slot of the table. -/
def slotSteps : ℕ := 2 * nproc + nproc * (nproc + 3) + 12

/-- The steps under the lock that are left to a call, up to its `release` or `sched`, or to the
scheduler while no process runs. -/
def Call.left : Call C → ℕ
  | .allocScan _ i => nproc - i + 2
  | .forkState _ | .exitState _ | .waitReap _ | .killState _ => 2
  | .exitWake _ => nproc + nproc * (nproc + 3) + 5
  | .exitScan _ i => (nproc - i) * (nproc + 3) + 3
  | .waitScan _ i _ => nproc - i + 6
  | .waitFree _ => 4
  | .waitClear _ => 3
  | .killScan _ i => nproc - i + 3
  | .schedulerScan _ i => (nproc - i) * slotSteps + 2
  | .schedulerRun _ p => (nproc - p) * slotSteps + 1
  | .schedulerSwtch _ p => (nproc - p) * slotSteps
  | .schedulerBack _ p => (nproc - (p + 1)) * slotSteps + 3
  | _ => 1

def Frame.left (call : Call C) (rest : List Frame) : Frame → ℕ
  | .yieldState | .sleepState .. => 2
  | .sleepStart .. => 4
  | .sleepChan .. => 3
  | .sleepTidy _ own => if own then nproc + 7 else 2
  | .wakeup1 _ i => nproc - i + 1 + (match rest with
    | [] => call.left
    | _ => 1)
  | _ => 1

def Thread.left (t : Thread C) : ℕ :=
  match t.above with
  | [] => t.call.left
  | f :: rest => f.left t.call rest

theorem Call.left_le {k : Call C} (hk : k.scheduling = false) : k.left ≤ nproc + nproc * (nproc + 3) + 5 := by
  have h1 : 1 ≤ nproc * (nproc + 3) := by decide
  cases k with
  | exitScan cur i =>
    have h := Nat.mul_le_mul_right (nproc + 3) (Nat.sub_le nproc i)
    simp only [Call.left]
    omega
  | schedulerScan | schedulerRun | schedulerSwtch | schedulerBack => cases hk
  | _ => simp only [Call.left]; omega

theorem Thread.left_le {t : Thread C} (ht : t.call.scheduling = false) : t.left + 5 ≤ slotSteps := by
  obtain ⟨k,above⟩ := t
  have hk : k.left ≤ nproc + nproc * (nproc + 3) + 5 := Call.left_le ht
  cases above with
  | nil =>
    change k.left + 5 ≤ slotSteps
    rw [slotSteps]
    omega
  | cons f rest =>
    cases f with
    | wakeup1 chan i =>
      change nproc - i + 1 + _ + 5 ≤ slotSteps
      rw [slotSteps]
      split
      · change _ + k.left + 5 ≤ _
        omega
      · omega
    | sleepTidy p own =>
      simp only [Thread.left, Frame.left, slotSteps]
      split <;> omega
    | _ => simp only [Thread.left, Frame.left, slotSteps]; omega

variable [DecidableEq C] [DecidableEq A] {s s' : Sys C A} {c : C} {p : Fin nproc} {a : A}

/-- The steps of a processor under the lock that are left. -/
def Sys.left (s : Sys C A) (c : C) : ℕ :=
  match s.on c with
  | .boot _ => (s.thread c).left
  | .page _ => (s.code (.boot c)).left + (s.thread c).left

/-- A step of the thread alone. -/
theorem left_put {t : Thread C} (h : CpuInv s) (hon : s'.on c = s.on c) (hcode : s'.code = (s.put c t).code)
    (ht : t.left < (s.thread c).left) : s'.left c < s.left c := by
  have hself : s'.code (s.on c) = t := hcode ▸ put_code_self
  unfold Sys.left
  rw [Sys.thread, hon, hself]
  cases hc : s.on c with
  | boot b =>
    exact ht
  | page a =>
    dsimp only
    have hb : s'.code (.boot c) = s.code (.boot c) := hcode ▸ h.put_boot hc
    rw [hb]
    exact Nat.add_lt_add_left ht _

/-- A `swtch` to the scheduler. -/
theorem left_leave {k : Call C} {rest : List Frame} (h : Inv s) (hth : s.thread c = ⟨k,.sched :: rest⟩) :
    ((s.calls c rest).leave c p (.boot c)).left c < s.left c := by
  obtain ⟨q,a,hon,hr⟩ := h.on_page (c := c) (by
    rw [hth]
    exact fun hb => nomatch hb.above _ List.mem_cons_self)
  have hnew : ((s.calls c rest).leave c p (.boot c)).on c = .boot c := Function.update_self ..
  have hcode : ((s.calls c rest).leave c p (.boot c)).code (.boot c) = s.code (.boot c) := h.cpu.put_boot hon
  unfold Sys.left
  rw [Sys.thread, hnew, hon, hth]
  dsimp only
  rw [hcode]
  exact Nat.lt_add_one _

/-- A `swtch` to a process. -/
theorem left_resume {me : C} (h : Inv s) (hth : s.thread c = ⟨.schedulerSwtch me p,[]⟩)
    (hinv : Inv ((s.goto c (.schedulerBack me p)).resume c me (.page a))) :
    ((s.goto c (.schedulerBack me p)).resume c me (.page a)).left c < s.left c := by
  obtain ⟨hon,rfl,-⟩ := h.on_boot hth rfl
  have hnew : ((s.goto me (.schedulerBack me p)).resume me me (.page a)).on me = .page a := Function.update_self ..
  have hback : ((s.goto me (.schedulerBack me p)).resume me me (.page a)).code (.boot me) =
    ⟨.schedulerBack me p,[]⟩ := by
    change (s.put me ⟨.schedulerBack me p,[]⟩).code (.boot me) = _
    rw [← hon]
    exact put_code_self
  obtain ⟨q,hq⟩ := hinv.cpu.page me a hnew
  have hle := Thread.left_le (hinv.stack.stack q a (hinv.owns hq.proc hq.kstack)).mine.user
  unfold Sys.left
  rw [Sys.thread, hnew, hon, hth]
  dsimp only
  rw [hback]
  simp only [Thread.left, Call.left] at hle ⊢
  have hmul : (nproc - p) * slotSteps = (nproc - (p + 1)) * slotSteps + slotSteps := by
    rw [← Nat.succ_mul]
    congr 1
    have := p.isLt
    omega
  omega

section Own
variable {k : Call C} {f : Frame} {rest : List Frame}

theorem left_goto {k' : Call C} {s₁ : Sys C A} (h : Inv s) (hth : s.thread c = ⟨k,[]⟩) (hcode : s₁.code = s.code)
    (hon : s₁.on = s.on) (hlt : k'.left < k.left) : (s₁.goto c k').left c < s.left c := by
  refine left_put (t := ⟨k',[]⟩) h.cpu (congrFun hon c) ?_ (by rw [hth]; exact hlt)
  change Function.update s₁.code (s₁.on c) _ = Function.update s.code (s.on c) _
  rw [hcode, hon]

theorem left_calls {above : List Frame} {s₁ : Sys C A} (h : Inv s) (above' : List Frame) (hth : s.thread c = ⟨k,above⟩)
    (hcode : s₁.code = s.code) (hon : s₁.on = s.on) (hlt : (Thread.mk k above').left < (Thread.mk k above).left) :
    (s₁.calls c above').left c < s.left c := by
  refine left_put (t := ⟨k,above'⟩) h.cpu (congrFun hon c) ?_ (by rw [hth]; exact hlt)
  change Function.update s₁.code (s₁.on c) ⟨(s₁.code (s₁.on c)).call,above'⟩ = Function.update s.code (s.on c) _
  rw [hcode, hon, ← Sys.thread, hth]

/-- A step of a call on top, under the lock. -/
theorem runFrame_left (h : Inv s) (hth : s.thread c = ⟨k,f :: rest⟩) (hl : s.lock = some c)
    (hx : s.runFrame c rest f = .next s') : s'.lock = none ∨ s'.left c < s.left c := by
  have hlock := (h.lock_thread hth).mp hl
  have hnest := h.nested_thread hth
  cases f with
  | yieldAcquire => cases hlock
  | yieldState =>
    rw [Sys.runFrame] at hx
    split at hx
    · cases hx
    · cases hx
      exact .inr (left_calls h _ hth rfl rfl (Nat.lt_succ_self 1))
  | yieldRelease => exact .inl ((Inv.release_spec hx).2 ▸ rfl)
  | sched =>
    rw [Sys.runFrame] at hx
    split at hx
    · rename_i p target hp htarget
      split_ifs at hx
      cases hx
      cases htarget.symm.trans (h.leave hth hp).1
      exact .inr (left_leave h hth)
    · cases hx
  | sleepStart chan own =>
    cases own with
    | false => cases hlock
    | true =>
      rw [Sys.runFrame] at hx
      split at hx
      · cases hx
      · cases hx
        exact .inr (left_calls h _ hth rfl rfl (Nat.lt_succ_self 3))
  | sleepAcquire p chan => cases hlock
  | sleepChan p chan own =>
    cases hx
    exact .inr (left_calls h (.sleepState p own :: rest) hth rfl rfl (Nat.lt_succ_self 2))
  | sleepState p own =>
    cases hx
    exact .inr (left_calls h (.sched :: .sleepTidy p own :: rest) hth rfl rfl (Nat.lt_succ_self 1))
  | sleepTidy p own =>
    cases hx
    cases own with
    | false => exact .inr (left_calls h _ hth rfl rfl (Nat.lt_succ_self 1))
    | true =>
      obtain ⟨⟨rfl,cur,i,n,rfl⟩,-⟩ := hnest
      refine .inr (left_calls h _ hth rfl rfl ?_)
      change nproc - i + 6 < nproc + 7
      omega
  | sleepRelease => exact .inl ((Inv.release_spec hx).2 ▸ rfl)
  | wakeupAcquire chan => cases hlock
  | wakeup1 chan i =>
    rw [Sys.runFrame] at hx
    by_cases hi : i < nproc
    · rw [dif_pos hi] at hx
      cases hx
      have hlt : (Thread.mk k (.wakeup1 chan (i + 1) :: rest)).left < (Thread.mk k (.wakeup1 chan i :: rest)).left := by
        change nproc - (i + 1) + 1 + _ < nproc - i + 1 + _
        exact Nat.add_lt_add_right (by omega) _
      split
      · exact .inr (left_calls h _ hth rouse_code.1 rouse_code.2 hlt)
      · exact .inr (left_calls h _ hth rfl rfl hlt)
    · rw [dif_neg hi] at hx
      cases hx
      refine .inr (left_calls h _ hth rfl rfl ?_)
      obtain hr | ⟨rfl,cur,n,rfl⟩ := hnest.1
      · obtain ⟨rest',rfl⟩ := List.head?_eq_some_iff.mp hr
        change 1 < nproc - i + 1 + 1
        omega
      · change (Call.exitScan (C := C) cur n).left < nproc - i + 1 + (Call.exitScan (C := C) cur n).left
        omega
  | wakeupRelease => exact .inl ((Inv.release_spec hx).2 ▸ rfl)

/-- A step of a thread with no calls on top, under the lock. -/
theorem runCall_left {page : Option A} {copied : Bool} (h : Inv s) (hth : s.thread c = ⟨k,[]⟩) (hl : s.lock = some c)
    (hx : s.runCall c page copied k = .next s') : s'.lock = none ∨ s'.left c < s.left c := by
  have hlock : k.locked = true := (h.lock_thread hth).mp hl
  cases k with
  | allocScan cur i =>
    rw [Sys.runCall] at hx
    split_ifs at hx with hi hst
    · cases hx
      refine .inr (left_goto h hth rfl rfl ?_)
      change 1 < nproc - i + 2
      omega
    · cases hx
      refine .inr (left_goto h hth rfl rfl ?_)
      change nproc - (i + 1) + 2 < nproc - i + 2
      omega
    · cases hx
      refine .inr (left_goto h hth rfl rfl ?_)
      change 1 < nproc - i + 2
      omega
  | allocRelease cur found => cases found <;> exact .inl ((Inv.release_spec hx).2 ▸ rfl)
  | forkState np =>
    cases hx
    exact .inr (left_goto h hth rfl rfl (Nat.lt_succ_self 1))
  | exitWake cur =>
    cases hx
    refine .inr (left_put h.cpu rfl rfl ?_)
    rw [hth]
    change nproc - 0 + 1 + ((nproc - 0) * (nproc + 3) + 3) < nproc + nproc * (nproc + 3) + 5
    rw [Nat.sub_zero]
    omega
  | exitScan cur i =>
    rw [Sys.runCall] at hx
    by_cases hi : i < nproc
    · have hmul : (nproc - i) * (nproc + 3) = (nproc - (i + 1)) * (nproc + 3) + (nproc + 3) := by
        rw [← Nat.succ_mul]
        congr 1
        omega
      rw [dif_pos hi] at hx
      split_ifs at hx with hp hst
      · cases hx
        refine .inr (left_put h.cpu rfl rfl ?_)
        rw [hth]
        change nproc - 0 + 1 + ((nproc - (i + 1)) * (nproc + 3) + 3) < (nproc - i) * (nproc + 3) + 3
        omega
      · cases hx
        refine .inr (left_goto h hth rfl rfl ?_)
        change (nproc - (i + 1)) * (nproc + 3) + 3 < (nproc - i) * (nproc + 3) + 3
        omega
      · cases hx
        refine .inr (left_goto h hth rfl rfl ?_)
        change (nproc - (i + 1)) * (nproc + 3) + 3 < (nproc - i) * (nproc + 3) + 3
        omega
    · rw [dif_neg hi] at hx
      cases hx
      refine .inr (left_goto h hth rfl rfl ?_)
      change 2 < (nproc - i) * (nproc + 3) + 3
      omega
  | exitState cur =>
    cases hx
    refine .inr (left_put h.cpu rfl rfl ?_)
    rw [hth]
    exact Nat.lt_succ_self 1
  | exitDead => cases hx
  | waitScan cur i havekids =>
    rw [Sys.runCall] at hx
    split_ifs at hx with hi hp hst hk
    · cases hx
      refine .inr (left_goto h hth rfl rfl ?_)
      change nproc - (i + 1) + 6 < nproc - i + 6
      omega
    · cases hx
      refine .inr (left_goto h hth rfl rfl ?_)
      change 4 < nproc - i + 6
      omega
    · cases hx
      refine .inr (left_goto h hth rfl rfl ?_)
      change nproc - (i + 1) + 6 < nproc - i + 6
      omega
    · cases hx
      refine .inr (left_goto h hth rfl rfl ?_)
      change 1 < nproc - i + 6
      omega
    · cases hx
      refine .inr (left_put h.cpu rfl rfl ?_)
      rw [hth]
      change 4 < nproc - i + 6
      omega
  | waitFree p =>
    rw [Sys.runCall] at hx
    split at hx
    · cases hx
    · cases hx
      exact .inr (left_goto h hth rfl rfl (Nat.lt_succ_self 3))
  | waitClear p =>
    cases hx
    exact .inr (left_goto h hth rfl rfl (Nat.lt_succ_self 2))
  | waitReap p =>
    cases hx
    exact .inr (left_goto h hth rfl rfl (Nat.lt_succ_self 1))
  | killScan pid i =>
    rw [Sys.runCall] at hx
    split_ifs at hx with hi hp
    · cases hx
      refine .inr (left_goto h hth rfl rfl ?_)
      change 2 < nproc - i + 3
      omega
    · cases hx
      refine .inr (left_goto h hth rfl rfl ?_)
      change nproc - (i + 1) + 3 < nproc - i + 3
      omega
    · cases hx
      refine .inr (left_goto h hth rfl rfl ?_)
      change 1 < nproc - i + 3
      omega
  | killState p =>
    cases hx
    exact .inr (left_goto h hth rouse_code.1 rouse_code.2 (Nat.lt_succ_self 1))
  | schedulerScan me i =>
    rw [Sys.runCall] at hx
    split_ifs at hx with hi hst
    · cases hx
      exact .inr (left_goto h hth rfl rfl (Nat.lt_succ_self _))
    · cases hx
      have hmul := Nat.mul_le_mul_right slotSteps (Nat.sub_le_sub_left (Nat.le_succ i) nproc)
      have hpos : 0 < slotSteps := by decide
      have hlt := Nat.mul_lt_mul_of_pos_right (Nat.sub_lt_sub_left hi (Nat.lt_succ_self i)) hpos
      refine .inr (left_goto h hth rfl rfl ?_)
      exact Nat.add_lt_add_right hlt 2
    · cases hx
      refine .inr (left_goto h hth rfl rfl ?_)
      change 1 < (nproc - i) * slotSteps + 2
      omega
  | schedulerRun me p =>
    rw [Sys.runCall] at hx
    split_ifs at hx
    cases hx
    exact .inr (left_goto h hth rfl rfl (Nat.lt_succ_self _))
  | schedulerSwtch me p =>
    have hinv := h.runCall hth hx
    rw [Sys.runCall] at hx
    split at hx
    · cases hx
    · rename_i target htarget
      cases hx
      obtain ⟨a,ha,-⟩ := h.resume hth
      cases htarget.symm.trans ha
      exact .inr (left_resume h hth hinv)
  | schedulerBack me p =>
    cases hx
    exact .inr (left_goto h hth rfl rfl (Nat.lt_succ_self _))
  | forkRelease | waitRelease | killRelease | forkret | schedulerRelease => exact .inl ((Inv.release_spec hx).2 ▸ rfl)
  | _ => cases hlock

theorem exec_left {page : Option A} {copied : Bool} (h : Inv s) (hl : s.lock = some c)
    (hx : s.exec c page copied = .next s') : s'.lock = none ∨ s'.left c < s.left c := by
  unfold Sys.exec at hx
  cases hth : s.thread c with
  | mk k above =>
    rw [hth] at hx
    cases above with
    | nil => exact runCall_left h hth hl hx
    | cons f rest => exact runFrame_left h hth hl hx

end Own

section Bound
variable {act : Action C A} {b : C}

/-- Another processor leaves the holder where it is. -/
theorem Aside.left (ha : Aside s s' b) (h : Inv s) (hc : c ≠ b) : s'.left c = s.left c := by
  have hfree (a : A) (hon : s.on c = .page a) : s.use a ≠ .free := by
    obtain ⟨p,hp⟩ := h.cpu.page c a hon
    exact (h.stack.stack p a (h.owns hp.proc hp.kstack)).use.trans_ne (by decide)
  have hcode : s'.code (s.on c) = s.code (s.on c) := ha.code _ (fun he => hc (h.cpu.one c b he)) hfree
  unfold Sys.left
  rw [Sys.thread, Sys.thread, ha.on c hc, hcode]
  cases hon : s.on c with
  | boot d => rfl
  | page a =>
    dsimp only
    rw [ha.code (.boot c) (fun he => hc (h.cpu.boot b c he.symm).1) (by rintro _ ⟨⟩)]

/-- The points of one processor. -/
def Action.isRun (c : C) : Action C A → Bool
  | .run b _ _ => b = c
  | _ => false

/-- Steps that are enough to give the lock up. -/
def holdSteps : ℕ := (nproc + 1) * slotSteps

theorem Inv.left_le (h : Inv s) (c : C) : s.left c < holdSteps := by
  have hmul : (nproc + 1) * slotSteps = nproc * slotSteps + slotSteps := Nat.succ_mul ..
  have hslot : 12 ≤ slotSteps := by decide
  have hsub (i : ℕ) : (nproc - i) * slotSteps ≤ nproc * slotSteps := Nat.mul_le_mul_right _ (Nat.sub_le ..)
  unfold Sys.left holdSteps
  cases hon : s.on c with
  | boot b =>
    obtain ⟨rfl,hok⟩ := h.cpu.boot c b hon
    dsimp only
    rw [Sys.thread, hon]
    have hnest := h.cpu.nested (.boot b)
    revert hok hnest
    cases s.code (.boot b) with
    | mk k above =>
      intro hok hnest
      cases above with
      | nil =>
        have hcall : BootCall s b k := hok.call
        change k.left < _
        cases k with
        | schedulerScan me i =>
          have hi := hsub i
          simp only [Call.left]
          omega
        | schedulerRun me p | schedulerSwtch me p =>
          have hi := hsub p
          simp only [Call.left]
          omega
        | schedulerBack me p =>
          have hi := hsub (p + 1)
          simp only [Call.left]
          omega
        | schedulerStart | schedulerLoop | schedulerAcquire | schedulerRelease =>
          change 1 < _
          omega
        | _ => exact hcall.elim
      | cons f rest =>
        have hsmall : nproc + 3 ≤ slotSteps := by decide
        have hw := hok.above f List.mem_cons_self
        cases f with
        | wakeup1 chan i =>
          obtain hr | ⟨-,cur,n,rfl⟩ := hnest.1
          · obtain ⟨rest',rfl⟩ := List.head?_eq_some_iff.mp hr
            change nproc - i + 1 + 1 < _
            omega
          · exact hok.call.elim
        | wakeupAcquire | wakeupRelease =>
          change 1 < _
          omega
        | _ => cases hw
  | page a =>
    obtain ⟨p,hp⟩ := h.cpu.page c a hon
    have hle := Thread.left_le (h.stack.stack p a (h.owns hp.proc hp.kstack)).mine.user
    dsimp only
    rw [hp.back, Sys.thread, hon]
    have hi := hsub (p + 1)
    change (nproc - (p + 1)) * slotSteps + 3 + _ < _
    have hlt : (nproc - (p + 1)) * slotSteps + slotSteps ≤ nproc * slotSteps := by
      rw [← Nat.succ_mul]
      refine Nat.mul_le_mul_right _ ?_
      have := p.isLt
      omega
    omega

/-- A step of any processor while one holds the lock. -/
theorem Inv.hold (h : Inv s) (hl : s.lock = some c) (hs : step s act = some s') :
    s'.lock = none ∨ s'.lock = some c ∧ s'.left c + (if act.isRun c then 1 else 0) ≤ s.left c := by
  have hstay {b : C} (hb : b ≠ c) (ha : Aside s s' b) (hact : act.isRun c = false) :
      s'.lock = none ∨ s'.lock = some c ∧ s'.left c + (if act.isRun c then 1 else 0) ≤ s.left c := by
    obtain hlock | ⟨hlock,-⟩ | ⟨hlock,-⟩ := ha.lock
    · refine .inr ⟨hlock.trans hl,?_⟩
      rw [ha.left h hb.symm, hact]
      exact le_rfl
    · exact absurd (hlock.symm.trans hl) nofun
    · exact absurd (Option.some_inj.mp (hlock.symm.trans hl)) hb
  cases act with
  | run b page copied =>
    unfold step at hs
    dsimp only at hs
    split at hs
    · rename_i t hx
      cases hs
      by_cases hb : b = c
      · subst hb
        obtain hlock | ⟨hlock,-⟩ | ⟨-,hlock⟩ := (exec_aside hx).lock
        · refine (exec_left h hl hx).imp_right fun hlt => ⟨hlock.trans hl,?_⟩
          rw [Action.isRun, decide_eq_true rfl, if_pos rfl]
          exact hlt
        · exact absurd (hlock.symm.trans hl) nofun
        · exact .inl hlock
      · exact hstay hb (exec_aside hx) (decide_eq_false hb)
    · cases hs
  | syscall b k =>
    unfold step at hs
    dsimp only at hs
    split_ifs at hs with hc
    cases hs
    refine hstay (b := b) ?_ (aside_put rfl rfl rfl) rfl
    rintro rfl
    have hlocked := (h.cpu.lock b).mp hl
    rw [Thread.locked, hc.1] at hlocked
    dsimp only at hlocked
    rw [hc.2] at hlocked
    cases hlocked
  | yield b =>
    unfold step at hs
    dsimp only at hs
    split at hs
    · cases hs
    · split_ifs at hs with hc
      cases hs
      exact hstay (b := b) (fun he => hc.1 (he ▸ hl)) (aside_put rfl rfl rfl) rfl
  | sleep b chan =>
    unfold step at hs
    dsimp only at hs
    split_ifs at hs with hc
    cases hs
    exact hstay (b := b) (fun he => hc.1 (he ▸ hl)) (aside_put rfl rfl rfl) rfl
  | wakeup b chan =>
    unfold step at hs
    dsimp only at hs
    split_ifs at hs with hc
    cases hs
    exact hstay (b := b) (fun he => hc (he ▸ hl)) (aside_put rfl rfl rfl) rfl
  | take a | give a =>
    unfold step at hs
    dsimp only at hs
    split_ifs at hs
    cases hs
    exact .inr ⟨hl,le_rfl⟩

/-- A run with enough steps of the holder comes to a state with the lock free. -/
theorem Inv.hold_run {acts : List (Action C A)} {t : Sys C A} (h : Inv s) (hl : s.lock = some c)
    (hrun : acts.foldlM step s = some t) (hn : s.left c < acts.countP (·.isRun c)) :
    ∃ pre u, pre <+: acts ∧ pre.foldlM step s = some u ∧ u.lock = none := by
  induction acts generalizing s with
  | nil => cases hn
  | cons act acts ih =>
    rw [List.foldlM_cons, Option.bind_eq_bind, Option.bind_eq_some_iff] at hrun
    obtain ⟨u,hu,hrun⟩ := hrun
    obtain hfree | ⟨hlock,hle⟩ := h.hold hl hu
    · exact ⟨[act],u,List.prefix_append [act] acts,by rw [List.foldlM_cons, hu]; rfl,hfree⟩
    · rw [List.countP_cons] at hn
      obtain ⟨pre,v,hpre,hv,hfree⟩ := ih (h.after hu) hlock hrun (by omega)
      exact ⟨act :: pre,v,List.cons_prefix_cons.mpr ⟨rfl,hpre⟩,by rw [List.foldlM_cons, hu]; exact hv,hfree⟩

/-- Once a processor holds `ptable.lock`, every run with `holdSteps` of its steps comes to a state
with the lock free, through all its switches to processes and back, whatever the others do. -/
theorem lock_given_back {acts : List (Action C A)} {t : Sys C A} (h : Reached s) (hl : s.lock = some c)
    (hrun : acts.foldlM step s = some t) (hn : holdSteps ≤ acts.countP (·.isRun c)) :
    ∃ pre u, pre <+: acts ∧ pre.foldlM step s = some u ∧ u.lock = none :=
  h.inv.hold_run hl hrun (Nat.lt_of_lt_of_le (h.inv.left_le c) hn)

/-- A processor that goes round the loop of `scheduler` while no process is runnable. -/
structure Idle (s : Sys C A) (c : C) : Prop where
  state : ∀ p, s.state p ≠ .runnable
  code : (s.thread c).above = [] ∧
    (s.lock = none ∧ ((s.thread c).call = .schedulerLoop c ∨ (s.thread c).call = .schedulerAcquire c) ∨
      s.lock = some c ∧ ((s.thread c).call = .schedulerRelease c ∨ ∃ i, (s.thread c).call = .schedulerScan c i))

theorem Idle.after (h : Idle s c) (page : Option A) (copied : Bool) :
    ∃ t, step s (.run c page copied) = some t ∧ Idle t c := by
  obtain ⟨hover,hcall⟩ := h.code
  have hself (k : Call C) : (s.put c ⟨k,[]⟩).thread c = ⟨k,[]⟩ := put_code_self
  have hstep {t : Sys C A} (hx : s.runCall c page copied (s.thread c).call = .next t) :
      step s (.run c page copied) = some t := by
    unfold step Sys.exec
    dsimp only
    rw [hover]
    dsimp only
    rw [hx]
  obtain ⟨hl,hk | hk⟩ | ⟨hl,hk | ⟨i,hk⟩⟩ := hcall
  · refine ⟨s.goto c (.schedulerAcquire c),hstep (by rw [hk]; rfl),h.state,?_⟩
    rw [Sys.goto, hself]
    exact ⟨rfl,.inl ⟨hl,.inr rfl⟩⟩
  · refine ⟨{ s.put c ⟨.schedulerScan c 0,[]⟩ with lock := some c },hstep ?_,h.state,?_⟩
    · rw [hk, Sys.runCall, Sys.acquire, hl, if_neg (by rintro ⟨⟩), if_pos rfl]
    · exact ⟨congrArg Thread.above (hself _),.inr ⟨rfl,.inr ⟨0,congrArg Thread.call (hself _)⟩⟩⟩
  · refine ⟨{ s.put c ⟨.schedulerLoop c,[]⟩ with lock := none },hstep ?_,h.state,?_⟩
    · rw [hk, Sys.runCall, Sys.release, if_pos hl]
    · exact ⟨congrArg Thread.above (hself _),.inl ⟨rfl,.inl (congrArg Thread.call (hself _))⟩⟩
  · by_cases hi : i < nproc
    · refine ⟨s.goto c (.schedulerScan c (i + 1)),hstep ?_,h.state,?_⟩
      · rw [hk, Sys.runCall, dif_pos hi, if_neg (h.state _)]
      · rw [Sys.goto, hself]
        exact ⟨rfl,.inr ⟨hl,.inr ⟨i + 1,rfl⟩⟩⟩
    · refine ⟨s.goto c (.schedulerRelease c),hstep ?_,h.state,?_⟩
      · rw [hk, Sys.runCall, dif_neg hi]
      · rw [Sys.goto, hself]
        exact ⟨rfl,.inr ⟨hl,.inl rfl⟩⟩

/-- An idle processor goes on as long as the others do nothing. -/
theorem Idle.run (h : Idle s c) (page : Option A) (copied : Bool) (n : ℕ) :
    ∃ t, (List.replicate n (.run c page copied)).foldlM step s = some t := by
  induction n generalizing s with
  | zero => exact ⟨s,rfl⟩
  | succ n ih =>
    obtain ⟨u,hu,hidle⟩ := h.after page copied
    obtain ⟨t,ht⟩ := ih hidle
    exact ⟨t,by rw [List.replicate_succ, List.foldlM_cons, hu]; exact ht⟩

end Bound

section Witness
/-- Init runs on the first processor, and the second one comes to its `scheduler`. -/
theorem secondRun_isSome :
    ((List.replicate 3 (.run true none false)).foldlM step initRuns).isSome = true := by decide +kernel

/-- The state in which the second processor looks for a process. -/
def secondScans : Sys Bool ℕ := ((List.replicate 3 (.run true none false)).foldlM step initRuns).get secondRun_isSome

theorem secondScans_given_back : secondScans.lock = some true ∧ ∃ acts t pre u,
    acts.foldlM step secondScans = some t ∧ pre <+: acts ∧ pre.foldlM step secondScans = some u ∧ u.lock = none := by
  have hr : Reached secondScans := initRuns_reached.foldlM _ (Option.some_get secondRun_isSome).symm
  have hl : secondScans.lock = some true := by decide +kernel
  have hidle : Idle secondScans true :=
    ⟨by decide +kernel,by decide +kernel,.inr ⟨hl,.inr ⟨0,by decide +kernel⟩⟩⟩
  obtain ⟨t,ht⟩ := hidle.run none false holdSteps
  have hn : holdSteps ≤ (List.replicate holdSteps (.run true none false : Action Bool ℕ)).countP (·.isRun true) := by
    rw [List.countP_replicate]
    exact le_rfl
  obtain ⟨pre,u,hpre,hu,hfree⟩ := lock_given_back hr hl ht hn
  exact ⟨hl,_,t,pre,u,ht,hpre,hu,hfree⟩

end Witness

end X86OsDev.Xv6.Scheduler
