import X86OsDev.Xv6.SchedulerInv

/-! # The kernel stacks

A slot that is being built or cleared is in the hands of one thread, and its stack may be back at
`kalloc` while the slot has the pointer still. Every other pointer to a kernel stack is the only
one to that page, and what runs there next is in `p->context`.
-/
set_option linter.unusedSectionVars false

namespace X86OsDev.Xv6.Scheduler
open Transition Ptable

variable {C A : Type*}

/-- A slot in the hands of a thread has no stack, has one, or has a pointer to a freed one. -/
inductive Stage
  | bare
  | fitted
  | freed
  deriving DecidableEq

/-- The slot that `allocproc` and `fork` build, or that `wait` clears, and its state meanwhile. -/
def Call.claim : Call C → Option (Fin nproc × ProcState × Stage)
  | .allocRelease _ (some np) | .allocStack _ np | .allocFail np | .forkDrop np => some (np,.embryo,.bare)
  | .forkCopy _ np | .forkFree np | .forkParent _ np | .forkAcquire np | .forkState np => some (np,.embryo,.fitted)
  | .forkClear np => some (np,.embryo,.freed)
  | .waitFree p => some (p,.zombie,.fitted)
  | .waitClear p => some (p,.zombie,.freed)
  | .waitReap p => some (p,.zombie,.bare)
  | _ => none

/-- The process that a call has in `curproc`, where it is written to. -/
def Call.owner : Call C → Option (Fin nproc)
  | .exitClose cur | .exitAcquire cur | .exitWake cur | .exitScan cur _ | .exitState cur => some cur
  | _ => none

def Frame.owner : Frame → Option (Fin nproc)
  | .sleepAcquire p _ | .sleepChan p _ _ | .sleepState p _ | .sleepTidy p _ => some p
  | _ => none

def Call.scheduling : Call C → Bool
  | .schedulerStart .. | .schedulerLoop .. | .schedulerAcquire .. | .schedulerScan .. | .schedulerRun .. => true
  | .schedulerSwtch .. | .schedulerBack .. | .schedulerRelease .. => true
  | _ => false

/-- A thread of a process, which has this process in its local variables. -/
structure Mine (t : Thread C) (p : Fin nproc) : Prop where
  user : t.call.scheduling = false
  call : ∀ q, t.call.owner = some q → q = p
  above : ∀ f ∈ t.above, ∀ q, f.owner = some q → q = p

theorem Call.claim_state {k : Call C} {p : Fin nproc} {st : ProcState} {g : Stage} (h : k.claim = some (p,st,g)) :
    st = .embryo ∨ st = .zombie := by
  unfold Call.claim at h
  split at h
  all_goals first
    | (cases h; exact .inl rfl)
    | (cases h; exact .inr rfl)
    | cases h

section
variable (s : Sys C A)

def claim (S : Stack C A) : Option (Fin nproc × ProcState × Stage) := (s.code S).call.claim

/-- The page of the slot is back at `kalloc`. -/
def Gone (p : Fin nproc) : Prop := ∃ S st, claim s S = some (p,st,.freed)

structure Owns (p : Fin nproc) (a : A) : Prop where
  kstack : s.kstack p = some a
  here : ¬ Gone s p

structure StackOk (p : Fin nproc) (a : A) : Prop where
  use : s.use a = .stack
  mine : Mine (s.code (.page a)) p
  dead : (s.code (.page a)).call = .exitDead ↔ s.state p = .zombie
  fresh : s.state p = .embryo → (s.code (.page a)).call = .forkret
  saved : (∀ c, s.on c ≠ .page a) → s.context p = some (.page a) ∧ (s.code (.page a)).resumes = true

structure ClaimOk (S : Stack C A) (p : Fin nproc) (st : ProcState) (g : Stage) : Prop where
  state : s.state p = st
  bare : g = .bare → s.kstack p = none
  fitted : g ≠ .bare → ∃ a, s.kstack p = some a
  lock : st = .zombie → ∃ c, s.on c = S ∧ s.lock = some c
  use : ∀ a, S = .page a → s.use a = .stack

structure StackInv : Prop where
  stack : ∀ p a, Owns s p a → StackOk s p a
  apart : ∀ p q a, Owns s p a → Owns s q a → p = q
  claims : ∀ S p st g, claim s S = some (p,st,g) → ClaimOk s S p st g
  unique : ∀ S S' p st st' g g', claim s S = some (p,st,g) → claim s S' = some (p,st',g') → S = S'
  bare : ∀ p, s.state p = .unused → s.kstack p = none
  fitted : ∀ p, s.state p ≠ .unused → s.state p ≠ .embryo → (∀ S st g, claim s S ≠ some (p,st,g)) →
    ∃ a, s.kstack p = some a

end

variable {s s' : Sys C A} {c : C} {p : Fin nproc} {a : A}

/-- A process that is not an embryo or a zombie is in nobody's hands. -/
theorem StackInv.unclaimed (h : StackInv s) (he : s.state p ≠ .embryo) (hz : s.state p ≠ .zombie) (S : Stack C A)
    (st : ProcState) (g : Stage) : claim s S ≠ some (p,st,g) := by
  intro hc
  have hst := (h.claims S p st g hc).state
  obtain rfl | rfl := Call.claim_state hc
  · exact he hst
  · exact hz hst

/-- A slot in nobody's hands owns its stack. -/
theorem owns_of_unclaimed (hk : s.kstack p = some a) (hun : ∀ S st g, claim s S ≠ some (p,st,g)) : Owns s p a :=
  ⟨hk,fun ⟨S,st,hc⟩ => hun S st .freed hc⟩

variable [DecidableEq C] [DecidableEq A]

section Move
variable {t : Thread C} {l : Option C}

theorem claim_put {S : Stack C A} (ht : t.call.claim = (s.thread c).call.claim) : claim (s.put c t) S = claim s S := by
  by_cases hS : S = s.on c
  · rw [claim, hS, put_code_self]
    exact ht
  · rw [claim, put_code_of_ne hS]
    rfl

/-- A step that changes no slot, and has the same slot in its hands. -/
theorem StackInv.move (h : StackInv s) (ht : t.call.claim = (s.thread c).call.claim)
    (hlock : ∀ p g, t.call.claim = some (p,.zombie,g) → l = some c) (hother : ∀ b, b ≠ c → s.lock = some b → l = some b)
    (hpage : ∀ p a, s.on c = .page a → Owns s p a → StackOk s p a →
      Mine t p ∧ (t.call = .exitDead ↔ s.state p = .zombie) ∧ s.state p ≠ .embryo) :
    StackInv { s.put c t with lock := l } := by
  have hclaim (S : Stack C A) : claim { s.put c t with lock := l } S = claim s S := claim_put ht
  have howns {p : Fin nproc} {a : A} (ho : Owns { s.put c t with lock := l } p a) : Owns s p a :=
    ⟨ho.kstack,fun ⟨S,st,hc⟩ => ho.here ⟨S,st,(hclaim S).trans hc⟩⟩
  constructor
  · intro p a ho
    have hok := h.stack p a (howns ho)
    by_cases hS : s.on c = .page a
    · have hcode : (s.put c t).code (.page a) = t := hS ▸ put_code_self
      obtain ⟨hm,hd,he⟩ := hpage p a hS (howns ho) hok
      refine ⟨hok.use,?_,?_,fun hst => absurd hst he,fun hn => absurd hS (hn c)⟩
      · change Mine ((s.put c t).code (.page a)) p
        rw [hcode]
        exact hm
      · change ((s.put c t).code (.page a)).call = _ ↔ _
        rw [hcode]
        exact hd
    · have hcode : (s.put c t).code (.page a) = s.code (.page a) := put_code_of_ne (Ne.symm hS)
      refine ⟨hok.use,?_,?_,?_,?_⟩
      · change Mine ((s.put c t).code (.page a)) p
        rw [hcode]
        exact hok.mine
      · change ((s.put c t).code (.page a)).call = _ ↔ _
        rw [hcode]
        exact hok.dead
      · change _ → ((s.put c t).code (.page a)).call = _
        rw [hcode]
        exact hok.fresh
      · change _ → _ ∧ ((s.put c t).code (.page a)).resumes = true
        rw [hcode]
        exact hok.saved
  · exact fun p q a hp hq => h.apart p q a (howns hp) (howns hq)
  · intro S p st g hc
    rw [hclaim] at hc
    have hok := h.claims S p st g hc
    refine ⟨hok.state,hok.bare,hok.fitted,fun hst => ?_,hok.use⟩
    obtain ⟨b,hb,hl⟩ := hok.lock hst
    by_cases hbc : b = c
    · subst hbc
      refine ⟨b,hb,hlock p g ?_⟩
      rw [ht, Sys.thread, hb, ← hst]
      exact hc
    · exact ⟨b,hb,hother b hbc hl⟩
  · intro S S' p st st' g g' hc hc'
    rw [hclaim] at hc hc'
    exact h.unique S S' p st st' g g' hc hc'
  · exact h.bare
  · exact fun p hu he hn => h.fitted p hu he fun S st g hc => hn S st g ((hclaim S).trans hc)

end Move

/-- A step about one slot that no other thread has in its hands. -/
theorem StackInv.turn (h : StackInv s) (hon : s'.on = s.on) (hlock : s'.lock = s.lock)
    (hclaim : ∀ S, S ≠ s.on c → claim s' S = claim s S)
    (hcode : ∀ q a, q ≠ p → Owns s q a → s.on c ≠ .page a → s'.code (.page a) = s.code (.page a))
    (hslot : ∀ q, q ≠ p → s'.state q = s.state q ∧ s'.kstack q = s.kstack q ∧ s'.context q = s.context q)
    (huse : ∀ q a, q ≠ p → Owns s q a → s'.use a = s.use a)
    (hbusy : ∀ a, claim s (.page a) ≠ none → s'.use a = s.use a)
    (hold : ∀ q st g, claim s (s.on c) = some (q,st,g) → q = p)
    (hnew : ∀ q st g, claim s' (s.on c) = some (q,st,g) → q = p ∧ ClaimOk s' (s.on c) p st g)
    (hfree : ∀ S, S ≠ s.on c → ∀ st g, claim s S ≠ some (p,st,g))
    (hmine : ∀ q a, q ≠ p → s.on c = .page a → Owns s q a → StackOk s q a →
      Mine (s'.code (.page a)) q ∧ ((s'.code (.page a)).call = .exitDead ↔ s.state q = .zombie) ∧ s.state q ≠ .embryo)
    (hstack : ∀ a, Owns s' p a → StackOk s' p a ∧ ∀ q, q ≠ p → ¬ Owns s q a)
    (hbare : s'.state p = .unused → s'.kstack p = none)
    (hfit : s'.state p ≠ .unused → s'.state p ≠ .embryo → claim s' (s.on c) = none → ∃ a, s'.kstack p = some a) :
    StackInv s' := by
  have howns {q : Fin nproc} {a : A} (hq : q ≠ p) (ho : Owns s' q a) : Owns s q a := by
    refine ⟨(hslot q hq).2.1.symm.trans ho.kstack,fun ⟨S,st,hc⟩ => ?_⟩
    by_cases hS : S = s.on c
    · exact hq (hold q st _ (hS ▸ hc))
    · exact ho.here ⟨S,st,(hclaim S hS).trans hc⟩
  constructor
  · intro q a ho
    by_cases hq : q = p
    · exact hq ▸ (hstack a (hq ▸ ho)).1
    · have ho' := howns hq ho
      have hok := h.stack q a ho'
      obtain ⟨hst,-,hctx⟩ := hslot q hq
      by_cases hS : s.on c = .page a
      · obtain ⟨hm,hd,he⟩ := hmine q a hq hS ho' hok
        refine ⟨(huse q a hq ho').trans hok.use,hm,hst ▸ hd,fun hst' => absurd (hst.symm.trans hst') he,fun hn => ?_⟩
        exact absurd hS (hon ▸ hn c)
      · have hpage := hcode q a hq ho' hS
        refine ⟨(huse q a hq ho').trans hok.use,hpage ▸ hok.mine,?_,?_,fun hn => ?_⟩
        · rw [hpage, hst]
          exact hok.dead
        · rw [hpage, hst]
          exact hok.fresh
        · rw [hctx, hpage]
          exact hok.saved (hon ▸ hn)
  · intro q r a hq hr
    by_cases hqp : q = p
    · by_cases hrp : r = p
      · exact hqp.trans hrp.symm
      · exact absurd (howns hrp hr) ((hstack a (hqp ▸ hq)).2 r hrp)
    · by_cases hrp : r = p
      · exact absurd (howns hqp hq) ((hstack a (hrp ▸ hr)).2 q hqp)
      · exact h.apart q r a (howns hqp hq) (howns hrp hr)
  · intro S q st g hc
    by_cases hS : S = s.on c
    · subst hS
      obtain ⟨rfl,hok⟩ := hnew q st g hc
      exact hok
    · rw [hclaim S hS] at hc
      have hok := h.claims S q st g hc
      have hq : q ≠ p := fun he => hfree S hS st g (he ▸ hc)
      obtain ⟨hst,hk,-⟩ := hslot q hq
      refine ⟨hst.trans hok.state,fun hg => hk.trans (hok.bare hg),fun hg => hk ▸ hok.fitted hg,?_,fun a ha => ?_⟩
      · rw [hon, hlock]
        exact hok.lock
      · refine (hbusy a ?_).trans (hok.use a ha)
        rw [← ha, hc]
        nofun
  · intro S S' q st st' g g' hc hc'
    by_cases hS : S = s.on c
    · by_cases hS' : S' = s.on c
      · exact hS.trans hS'.symm
      · have hq := (hnew q st g (hS ▸ hc)).1
        exact absurd ((hclaim S' hS').symm.trans hc') (hq ▸ hfree S' hS' st' g')
    · by_cases hS' : S' = s.on c
      · have hq := (hnew q st' g' (hS' ▸ hc')).1
        exact absurd ((hclaim S hS).symm.trans hc) (hq ▸ hfree S hS st g)
      · exact h.unique S S' q st st' g g' ((hclaim S hS).symm.trans hc) ((hclaim S' hS').symm.trans hc')
  · intro q hq
    by_cases hqp : q = p
    · exact hqp ▸ hbare (hqp ▸ hq)
    · obtain ⟨hst,hk,-⟩ := hslot q hqp
      exact hk.trans (h.bare q (hst.symm.trans hq))
  · intro q hu he hn
    by_cases hqp : q = p
    · subst hqp
      refine hfit hu he ?_
      cases hc : claim s' (s.on c) with
      | none => rfl
      | some x =>
        obtain ⟨r,st,g⟩ := x
        exact absurd ((hnew r st g hc).1 ▸ hc) (hn _ st g)
    · obtain ⟨hst,hk,-⟩ := hslot q hqp
      rw [hk]
      refine h.fitted q (hst ▸ hu) (hst ▸ he) fun S st g hc => ?_
      by_cases hS : S = s.on c
      · exact hqp (hold q st g (hS ▸ hc))
      · exact hn S st g ((hclaim S hS).trans hc)

/-- A slot in nobody's hands gets another state. -/
theorem StackInv.restate (h : StackInv s) (hcode : s'.code = s.code) (hon : s'.on = s.on) (hlock : s'.lock = s.lock)
    (hkstack : s'.kstack = s.kstack) (hcontext : s'.context = s.context) (huse : s'.use = s.use)
    (hstate : ∀ q, q ≠ p → s'.state q = s.state q) (hun : ∀ S st g, claim s S ≠ some (p,st,g))
    (hdead : ∀ a, Owns s p a → ((s.code (.page a)).call = .exitDead ↔ s'.state p = .zombie) ∧ s'.state p ≠ .embryo)
    (hbare : s'.state p = .unused → s.kstack p = none)
    (hfit : s'.state p ≠ .unused → s'.state p ≠ .embryo → ∃ a, s.kstack p = some a) : StackInv s' := by
  have hclaim (S : Stack C A) : claim s' S = claim s S := congrArg (fun f => (f S).call.claim) hcode
  have howns {q : Fin nproc} {a : A} (ho : Owns s' q a) : Owns s q a :=
    ⟨hkstack ▸ ho.kstack,fun ⟨S,st,hc⟩ => ho.here ⟨S,st,(hclaim S).trans hc⟩⟩
  constructor
  · intro q a ho
    have hok := h.stack q a (howns ho)
    refine ⟨huse ▸ hok.use,hcode ▸ hok.mine,?_,?_,?_⟩
    · rw [hcode]
      by_cases hq : q = p
      · subst hq
        exact (hdead a (howns ho)).1
      · rw [hstate q hq]
        exact hok.dead
    · rw [hcode]
      by_cases hq : q = p
      · subst hq
        exact fun he => absurd he (hdead a (howns ho)).2
      · rw [hstate q hq]
        exact hok.fresh
    · rw [hon, hcontext, hcode]
      exact hok.saved
  · exact fun q r a hq hr => h.apart q r a (howns hq) (howns hr)
  · intro S q st g hc
    rw [hclaim] at hc
    have hok := h.claims S q st g hc
    have hq : q ≠ p := fun he => hun S st g (he ▸ hc)
    refine ⟨(hstate q hq).trans hok.state,hkstack ▸ hok.bare,hkstack ▸ hok.fitted,?_,huse ▸ hok.use⟩
    rw [hon, hlock]
    exact hok.lock
  · intro S S' q st st' g g' hc hc'
    rw [hclaim] at hc hc'
    exact h.unique S S' q st st' g g' hc hc'
  · intro q hq
    rw [hkstack]
    by_cases hqp : q = p
    · exact hqp ▸ hbare (hqp ▸ hq)
    · exact h.bare q ((hstate q hqp).symm.trans hq)
  · intro q hu he hn
    rw [hkstack]
    by_cases hqp : q = p
    · subst hqp
      exact hfit hu he
    · rw [hstate q hqp] at hu he
      exact h.fitted q hu he fun S st g hc => hn S st g ((hclaim S).trans hc)

/-- A change to nothing that the stacks are about. -/
theorem StackInv.same (h : StackInv s) (hcode : s'.code = s.code) (hon : s'.on = s.on) (hlock : s'.lock = s.lock)
    (hkstack : s'.kstack = s.kstack) (hcontext : s'.context = s.context)
    (huse : ∀ a, s.use a = .stack → s'.use a = .stack)
    (hstate : ∀ q, s'.state q = s.state q) : StackInv s' := by
  have hclaim (S : Stack C A) : claim s' S = claim s S := congrArg (fun f => (f S).call.claim) hcode
  have howns {q : Fin nproc} {a : A} (ho : Owns s' q a) : Owns s q a :=
    ⟨hkstack ▸ ho.kstack,fun ⟨S,st,hc⟩ => ho.here ⟨S,st,(hclaim S).trans hc⟩⟩
  constructor
  · intro q a ho
    have hok := h.stack q a (howns ho)
    refine ⟨huse a hok.use,hcode ▸ hok.mine,hcode ▸ hstate q ▸ hok.dead,hcode ▸ hstate q ▸ hok.fresh,?_⟩
    rw [hon, hcode, hcontext]
    exact hok.saved
  · exact fun q r a hq hr => h.apart q r a (howns hq) (howns hr)
  · intro S q st g hc
    rw [hclaim] at hc
    have hok := h.claims S q st g hc
    refine ⟨(hstate q).trans hok.state,hkstack ▸ hok.bare,hkstack ▸ hok.fitted,?_,fun a ha => huse a (hok.use a ha)⟩
    rw [hon, hlock]
    exact hok.lock
  · intro S S' q st st' g g' hc hc'
    rw [hclaim] at hc hc'
    exact h.unique S S' q st st' g g' hc hc'
  · intro q hq
    rw [hkstack]
    exact h.bare q ((hstate q).symm.trans hq)
  · intro q hu he hn
    rw [hkstack]
    rw [hstate q] at hu he
    exact h.fitted q hu he fun S st g hc => hn S st g ((hclaim S).trans hc)

/-- A `swtch`, which saves a context of one process or of none. -/
theorem StackInv.switch (h : StackInv s) (hcode : s'.code = s.code) (htable : s'.table = s.table)
    (hlock : s'.lock = s.lock) (hkstack : s'.kstack = s.kstack) (huse : s'.use = s.use)
    (hother : ∀ b, b ≠ c → s'.on b = s.on b) (hidle : ∀ p g, claim s (s.on c) ≠ some (p,.zombie,g))
    (hleft : ∀ p a, s.on c = .page a → Owns s p a → s'.context p = some (.page a) ∧ (s.code (.page a)).resumes = true)
    (hsaved : ∀ p a, s.on c ≠ .page a → Owns s p a → s'.context p = s.context p) : StackInv s' := by
  have hclaim (S : Stack C A) : claim s' S = claim s S := congrArg (fun f => (f S).call.claim) hcode
  have howns {q : Fin nproc} {a : A} (ho : Owns s' q a) : Owns s q a :=
    ⟨hkstack ▸ ho.kstack,fun ⟨S,st,hc⟩ => ho.here ⟨S,st,(hclaim S).trans hc⟩⟩
  have hstate (q : Fin nproc) : s'.state q = s.state q := congrArg (fun t : Table => (t.proc q).state) htable
  constructor
  · intro q a ho
    have hok := h.stack q a (howns ho)
    refine ⟨huse ▸ hok.use,hcode ▸ hok.mine,hcode ▸ hstate q ▸ hok.dead,hcode ▸ hstate q ▸ hok.fresh,fun hn => ?_⟩
    rw [hcode]
    by_cases hc : s.on c = .page a
    · exact hleft q a hc (howns ho)
    · rw [hsaved q a hc (howns ho)]
      refine hok.saved fun b hb => ?_
      by_cases hbc : b = c
      · exact hc (hbc ▸ hb)
      · exact hn b ((hother b hbc).trans hb)
  · exact fun q r a hq hr => h.apart q r a (howns hq) (howns hr)
  · intro S q st g hc
    rw [hclaim] at hc
    have hok := h.claims S q st g hc
    refine ⟨(hstate q).trans hok.state,hkstack ▸ hok.bare,hkstack ▸ hok.fitted,fun hz => ?_,huse ▸ hok.use⟩
    obtain ⟨b,hb,hl⟩ := hok.lock hz
    have hbc : b ≠ c := by
      rintro rfl
      exact hidle q g (hz ▸ hb ▸ hc)
    exact ⟨b,(hother b hbc).trans hb,hlock.trans hl⟩
  · intro S S' q st st' g g' hc hc'
    rw [hclaim] at hc hc'
    exact h.unique S S' q st st' g g' hc hc'
  · intro q hq
    rw [hkstack]
    exact h.bare q ((hstate q).symm.trans hq)
  · intro q hu he hn
    rw [hkstack]
    rw [hstate q] at hu he
    exact h.fitted q hu he fun S st g hc => hn S st g ((hclaim S).trans hc)

end X86OsDev.Xv6.Scheduler
