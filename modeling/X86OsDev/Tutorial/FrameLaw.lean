import X86OsDev.Tutorial.Frames

/-! # The law of the frame allocator

As long as no page that holds a frame is freed, the bits and the pages agree.
The first `free_frame` of such a page clears the bit of another frame and
leaves the page present, and the frame given out next is held twice.
-/
namespace X86OsDev.Tutorial.Frames
open Memory Transition

variable {ι : Type} [DecidableEq ι] {s t : Sys ι} {p : ι}

/-- The pages agree with the bits, and the frame field says whether a page holds a frame. -/
structure Inv (s : Sys ι) : Prop extends Accounted s where
  nframes : s.nframes < 2 ^ 20
  below : ∀ p f, Holds (s.page p) f → f < s.nframes
  field : ∀ p, (s.page p).frame ≠ 0 → (s.page p).present = true

omit [DecidableEq ι] in
theorem Start.inv (h : Start s) : Inv s := by
  have hno : ∀ p f, ¬ Holds (s.page p) f := by
    rintro p f ⟨hp,-⟩
    rw [h.pages] at hp
    cases hp
  refine ⟨⟨?_,fun p q f hp => absurd hp (hno p f)⟩,h.nframes,fun p f hp => absurd hp (hno p f),?_⟩
  · intro f hf
    constructor
    · intro hb
      rw [bit, h.frames] at hb
      simp at hb
    · rintro ⟨p,hp⟩
      exact absurd hp (hno p f)
  · intro p hp
    rw [h.pages] at hp
    exact absurd rfl hp

omit [DecidableEq ι] in
/-- What `alloc_frame` does under the condition: nothing to a page with a frame, and otherwise it
takes the lowest free frame. -/
theorem allocFrame_spec (h : Inv s) (hfit : AllocFits s p) (k w : ℤ) (junk : BitVec 32) :
    (allocFrame s.frames s.nframes (s.page p) k w junk = (s.frames,s.page p) ∧
      (s.page p).present = true) ∨
    ∃ f < s.nframes, bit s.frames f = false ∧ (∀ g < f, bit s.frames g = true) ∧
      (s.page p).present = false ∧
      Holds (allocFrame s.frames s.nframes (s.page p) k w junk).2 f ∧
      ∀ g, bit (allocFrame s.frames s.nframes (s.page p) k w junk).1 g =
        (decide (g = f) || bit s.frames g) := by
  by_cases hz : (s.page p).frame = 0
  · right
    rcases hfit with hne | ⟨hpres,hfree⟩
    · exact absurd hz hne
    obtain ⟨f,hlt,hfirst,hclear,hlow⟩ := firstFrame_spec s.frames hfree
    have hf : f < 2 ^ 20 := by
      have := h.nframes
      omega
    refine ⟨f,hlt,hclear,hlow,hpres,?_,?_⟩
    · simp only [allocFrame, hz, ne_eq, not_true_eq_false, if_false, hfirst, Holds, true_and]
      rw [BitVec.toNat_ofNat]
      exact Nat.mod_eq_of_lt hf
    · intro g
      simp only [allocFrame, hz, ne_eq, not_true_eq_false, if_false, hfirst]
      exact bit_setFrame s.frames hf g
  · left
    exact ⟨if_pos hz,h.field p hz⟩

/-- A page that gets the lowest free frame, with any other flags. -/
theorem Inv.give (h : Inv s) {f : ℕ} (hf : f < s.nframes) (hclear : bit s.frames f = false)
    (hpres : (s.page p).present = false) {r : Bits × Page} (hr : Holds r.2 f)
    (hbits : ∀ g, bit r.1 g = (decide (g = f) || bit s.frames g)) : Inv (s.set p r) := by
  have hself : (s.set p r).page p = r.2 := Function.update_self ..
  have hother : ∀ q, q ≠ p → (s.set p r).page q = s.page q := fun q hq => Function.update_of_ne hq ..
  -- the frame was free, so no page held it
  have hfresh : ∀ q, ¬ Holds (s.page q) f := by
    intro q hq
    have := (h.bits f hf).mpr ⟨q,hq⟩
    rw [hclear] at this
    cases this
  have hp : ∀ g, ¬ Holds (s.page p) g := by
    rintro g ⟨hg,-⟩
    rw [hpres] at hg
    cases hg
  have hholds : ∀ q g, Holds ((s.set p r).page q) g ↔ (q = p ∧ g = f) ∨ Holds (s.page q) g := by
    intro q g
    by_cases hq : q = p
    · subst hq
      rw [hself]
      constructor
      · rintro ⟨-,hg⟩
        exact .inl ⟨rfl,by rw [← hg, hr.2]⟩
      · rintro (⟨-,rfl⟩ | hg)
        · exact hr
        · exact absurd hg (hp g)
    · rw [hother q hq]
      simp [hq]
  refine ⟨⟨?_,?_⟩,h.nframes,?_,?_⟩
  · intro g hg
    change bit r.1 g = true ↔ _
    rw [hbits, Bool.or_eq_true, decide_eq_true_iff, h.bits g hg]
    constructor
    · rintro (rfl | ⟨q,hq⟩)
      · exact ⟨p,(hholds p g).mpr (.inl ⟨rfl,rfl⟩)⟩
      · exact ⟨q,(hholds q g).mpr (.inr hq)⟩
    · rintro ⟨q,hq⟩
      rcases (hholds q g).mp hq with ⟨-,rfl⟩ | hq
      · exact .inl rfl
      · exact .inr ⟨q,hq⟩
  · intro q q' g hq hq'
    rcases (hholds q g).mp hq with ⟨h1,h2⟩ | h1
    · rcases (hholds q' g).mp hq' with ⟨h3,-⟩ | h3
      · rw [h1, h3]
      · exact absurd (h2 ▸ h3) (hfresh q')
    · rcases (hholds q' g).mp hq' with ⟨-,h3⟩ | h3
      · exact absurd (h3 ▸ h1) (hfresh q)
      · exact h.alone q q' g h1 h3
  · intro q g hq
    rcases (hholds q g).mp hq with ⟨-,rfl⟩ | hq
    · exact hf
    · exact h.below q g hq
  · intro q hq
    by_cases hqp : q = p
    · subst hqp
      rw [hself]
      exact hr.1
    · rw [hother q hqp] at hq ⊢
      exact h.field q hq

/-- Flags do not matter while the page stays present. -/
theorem Inv.flags (h : Inv s) {page : Page} (hpres : page.present = (s.page p).present)
    (hframe : page.frame = (s.page p).frame) : Inv (s.set p (s.frames,page)) := by
  have hsame : ∀ q, ((s.set p (s.frames,page)).page q).present = (s.page q).present ∧
      ((s.set p (s.frames,page)).page q).frame = (s.page q).frame := by
    intro q
    by_cases hq : q = p
    · subst hq
      simp [Sys.set, hpres, hframe]
    · simp [Sys.set, hq]
  have hholds : ∀ q g, Holds ((s.set p (s.frames,page)).page q) g ↔ Holds (s.page q) g := by
    intro q g
    rw [Holds, (hsame q).1, (hsame q).2]
    exact Iff.rfl
  refine ⟨⟨?_,?_⟩,h.nframes,?_,?_⟩
  · intro f hf
    simp only [hholds]
    exact h.bits f hf
  · intro q q' f
    simp only [hholds]
    exact h.alone q q' f
  · intro q f
    simp only [hholds]
    exact h.below q f
  · intro q
    rw [(hsame q).1, (hsame q).2]
    exact h.field q

/-- `alloc_frame`, and the copy of the flags after it, as one of the two outcomes. -/
theorem alloc_law (h : Inv s) (hfit : AllocFits s p) (k w : ℤ) (junk : BitVec 32) {page : Page}
    (hpres : page.present = (allocFrame s.frames s.nframes (s.page p) k w junk).2.present)
    (hframe : page.frame = (allocFrame s.frames s.nframes (s.page p) k w junk).2.frame) :
    Inv (s.set p ((allocFrame s.frames s.nframes (s.page p) k w junk).1,page)) ∧
    AllocSpec s p (s.set p ((allocFrame s.frames s.nframes (s.page p) k w junk).1,page)) := by
  have hother : ∀ r : Bits × Page, ∀ q, q ≠ p → (s.set p r).page q = s.page q :=
    fun r q hq => Function.update_of_ne hq ..
  rcases allocFrame_spec h hfit k w junk with ⟨heq,hold⟩ | ⟨f,hlt,hclear,hlow,hold,hr,hbits⟩
  · rw [heq] at hpres hframe ⊢
    refine ⟨h.flags hpres hframe,hother _,fun _ => ⟨rfl,?_⟩,fun hc => ?_⟩
    · rw [← hframe]
      simp [Sys.set]
    · rw [hold] at hc
      cases hc
  · have hr' : Holds page f := ⟨hpres.trans hr.1,by rw [hframe]; exact hr.2⟩
    refine ⟨h.give hlt hclear hold hr' hbits,hother _,fun hc => ?_,fun _ => .inl ?_⟩
    · rw [hold] at hc
      cases hc
    · refine ⟨f,hlt,hclear,hlow,?_,hbits⟩
      simpa [Sys.set] using hr'

/-- A call that meets the condition keeps the invariant and does what is promised. -/
theorem step_law (h : Inv s) {c : Call ι} (hfit : Fits s c) :
    Inv (step s c) ∧ CallSpec s (step s c) c := by
  cases c with
  | alloc p k w junk => exact alloc_law h hfit k w junk rfl rfl
  | free p =>
    have hz : (s.page p).frame = 0 := by
      by_contra hne
      have := h.field p hne
      rw [show (s.page p).present = false from hfit] at this
      cases this
    have hstep : step s (.free p) = s.set p (s.frames,s.page p) := by simp [step, freeFrame, hz]
    have hpage : ∀ q, (s.set p (s.frames,s.page p)).page q = s.page q := by
      intro q
      simp [Sys.set]
    rw [hstep]
    refine ⟨h.flags rfl rfl,fun q _ => hpage q,by rw [hpage]; exact hfit,fun g => ?_⟩
    rw [show (s.page p).present = false from hfit]
    simp [Sys.set]
  | clone src p junk =>
    simp only [step, CallSpec]
    by_cases hz : (s.page src).frame = 0
    · rw [if_pos hz, if_pos hz]
      exact ⟨h,rfl⟩
    · rw [if_neg hz, if_neg hz]
      have hfit' : AllocFits s p := hfit.resolve_left hz
      refine alloc_law h hfit' 0 0 junk ?_ rfl
      have hp : (allocFrame s.frames s.nframes (s.page p) 0 0 junk).2.present = true := by
        rcases allocFrame_spec h hfit' 0 0 junk with ⟨heq,hold⟩ | ⟨f,-,-,-,-,hr,-⟩
        · rw [heq]
          exact hold
        · exact hr.1
      simp [copyFlags, hp]

/-- A routine whose calls meet the condition keeps the invariant. -/
theorem calls_inv (l : List (Call ι)) (h : Inv s) (hfit : AllFit s l) : Inv (l.foldl step s) := by
  induction l generalizing s with
  | nil => exact h
  | cons c l ih => exact ih (step_law h hfit.1).1 hfit.2

/-- In every run whose calls meet `Fits` the bits and the pages agree, and every further call
that meets it does what is promised of it. -/
theorem frames_accounted (s : Sys ι)
    (h : Reachable Start (Guarded (fun s r => AllFit s r.calls) Step) s) :
    Accounted s ∧ ∀ c, Fits s c → CallSpec s (step s c) c := by
  have hI : Inv s := by
    refine h.invariant (fun _ hs => hs.inv) ?_
    rintro s r t hs ⟨hfit,rfl⟩
    exact calls_inv r.calls hs hfit
  exact ⟨hI.toAccounted,fun c hfit => (step_law hI hfit).2⟩

/-- 16 MB of memory and no page mapped. -/
def clearSys : Sys ℕ := ⟨fun _ => 0,4096,fun _ => .blank⟩

theorem clearSys_start : Start clearSys := ⟨fun _ => rfl,fun _ => rfl,by decide⟩

/-- The first two pages get the first two frames. -/
theorem two_pages_accounted :
    Holds ((step (step clearSys (.alloc 0 0 0 0)) (.alloc 1 0 0 0)).page 1) 1 ∧
    Accounted (step (step clearSys (.alloc 0 0 0 0)) (.alloc 1 0 0 0)) := by
  have h1 : Fits clearSys (.alloc 0 0 0 0) := .inr ⟨rfl,0,by decide,rfl⟩
  have h2 : Fits (step clearSys (.alloc 0 0 0 0)) (.alloc 1 0 0 0) := .inr ⟨rfl,1,by decide,by decide⟩
  have hr := Reachable.next (.next (.base clearSys_start)
    (show Guarded (fun s r => AllFit s r.calls) Step _ (.direct (.alloc 0 0 0 0)) _ from
      ⟨⟨h1,trivial⟩,rfl⟩))
    (show Guarded (fun s r => AllFit s r.calls) Step _ (.direct (.alloc 1 0 0 0)) _ from
      ⟨⟨h2,trivial⟩,rfl⟩)
  exact ⟨⟨by decide,by decide⟩,(frames_accounted _ hr).1⟩

/-- After one `free_frame` two pages hold frame 0. -/
theorem freed_frame_held_twice : ¬ ∀ s : Sys ℕ, Reached s → Accounted s := by
  intro hall
  have h0 : Reached clearSys := .base clearSys_start
  have h1 := Reachable.next h0 (show Step _ (.direct (.alloc 0 0 0 0)) _ from rfl)
  have h2 := Reachable.next h1 (show Step _ (.direct (.alloc 1 0 0 0)) _ from rfl)
  have h3 := Reachable.next h2 (show Step _ (.direct (.free 1)) _ from rfl)
  have h4 := Reachable.next h3 (show Step _ (.direct (.alloc 2 0 0 0)) _ from rfl)
  have h := (hall _ h4).alone 0 2 0 ⟨by decide,by decide⟩ ⟨by decide,by decide⟩
  cases h

end X86OsDev.Tutorial.Frames
