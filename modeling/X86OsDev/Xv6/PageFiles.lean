import X86OsDev.Xv6.PageInv

/-! # Files and pipes keep the partition -/
namespace X86OsDev.Xv6.Pages
open Memory Fault Counting

variable {k : Kernel} {s s' : Sys} {refs refs' : Fin nfile → ℕ} {f : Fin nfile}

/-- Only reference counts change. -/
theorem FileInv.congr (h : FileInv refs s) (hpipe : s'.pipe = s.pipe)
    (hsame : ∀ g, (s'.file g).type = (s.file g).type ∧ (s'.file g).pipe = (s.file g).pipe ∧
      (s'.file g).writable = (s.file g).writable)
    (href : ∀ g, (s'.file g).ref = refs' g) (hfree : ∀ g, refs' g = 0 → (s.file g).type = .none) :
    FileInv refs' s' where
  ref := href
  free g hg := by
    rw [(hsame g).1]
    exact hfree g hg
  ends g hg := by
    obtain ⟨h1,h2,h3⟩ := hsame g
    rw [h1] at hg
    rw [hpipe, h2, h3]
    exact h.ends g hg
  only g g' hg hg' he hw := by
    obtain ⟨h1,h2,h3⟩ := hsame g
    obtain ⟨h1',h2',h3'⟩ := hsame g'
    rw [h1] at hg
    rw [h1'] at hg'
    rw [h2, h2'] at he
    rw [h3, h3'] at hw
    exact h.only g g' hg hg' he hw
  entry g w hg hw := by
    obtain ⟨h1,h2,-⟩ := hsame g
    rw [h1] at hg
    rw [hpipe, h2] at hw
    obtain ⟨r,hr1,hr2,hr3⟩ := h.entry g w hg hw
    obtain ⟨e1,e2,e3⟩ := hsame r
    exact ⟨r,e1.trans hr1,by rw [e2, hr2, h2],e3.trans hr3⟩

theorem pipeBuffers_of_file (h : ∀ g, (s'.file g).type = (s.file g).type ∧ (s'.file g).pipe = (s.file g).pipe) :
    pipeBuffers s' = pipeBuffers s := by
  refine pipeBuffers_congr fun x => ?_
  rw [mem_pipeBuffers, mem_pipeBuffers]
  refine exists_congr fun g => ?_
  rw [(h g).1, (h g).2]

/-- A new reference count changes nothing else. -/
theorem setRef_same (file : Fin nfile → OpenFile) (f : Fin nfile) (r : ℕ) (g : Fin nfile) :
    (Function.update file f { file f with ref := r } g).type = (file g).type ∧
      (Function.update file f { file f with ref := r } g).pipe = (file g).pipe ∧
      (Function.update file f { file f with ref := r } g).writable = (file g).writable := by
  by_cases hg : g = f
  · subst hg
    rw [Function.update_self]
    exact ⟨rfl,rfl,rfl⟩
  · rw [Function.update_of_ne hg]
    exact ⟨rfl,rfl,rfl⟩

theorem FileInv.setRef (h : FileInv refs s) {r : ℕ} (hr : r = 0 → (s.file f).type = .none) :
    FileInv (Function.update refs f r)
      { s with file := Function.update s.file f { s.file f with ref := r } } := by
  refine h.congr rfl (setRef_same s.file f r) (fun g => ?_) fun g hg => ?_
  · by_cases hgf : g = f
    · subst hgf
      simp
    · simp only [Function.update_of_ne hgf]
      exact h.ref g
  · by_cases hgf : g = f
    · subst hgf
      rw [Function.update_self] at hg
      exact hr hg
    · rw [Function.update_of_ne hgf] at hg
      exact h.free g hg

/-- A state in which only the reference counts differ. -/
structure SameFiles (s s' : Sys) : Prop where
  mach : s'.mach = s.mach
  kpgdir : s'.kpgdir = s.kpgdir
  cpuStacks : s'.cpuStacks = s.cpuStacks
  initproc : s'.initproc = s.initproc
  proc : s'.proc = s.proc
  pipe : s'.pipe = s.pipe
  type : ∀ g, (s'.file g).type = (s.file g).type
  page : ∀ g, (s'.file g).pipe = (s.file g).pipe

theorem SameFiles.setRef (s : Sys) (f : Fin nfile) (r : ℕ) :
    SameFiles s { s with file := Function.update s.file f { s.file f with ref := r } } :=
  ⟨rfl,rfl,rfl,rfl,rfl,rfl,fun g => (setRef_same s.file f r g).1,fun g => (setRef_same s.file f r g).2.1⟩

theorem SameFiles.pipeBuffers (h : SameFiles s s') :
    Pages.pipeBuffers s' = Pages.pipeBuffers s :=
  pipeBuffers_of_file fun g => ⟨h.type g,h.page g⟩

theorem PageInv.sameFiles (h : PageInv k s) (hs : SameFiles s s') : PageInv k s' :=
  h.frame hs.mach hs.kpgdir hs.cpuStacks (fun q => by rw [hs.proc]) hs.pipeBuffers

theorem filealloc_spec (h : FileInv refs s) :
    filealloc s = .ok (none,s) ∨
    ∃ f s', filealloc s = .ok (some f,s') ∧ refs f = 0 ∧ SameFiles s s' ∧
      FileInv (Function.update refs f 1) s' := by
  unfold filealloc
  rw [bind_ok get_ok]
  cases hfirst : first (fun f => decide ((s.file f).ref = 0)) with
  | none => exact .inl rfl
  | some f =>
    have hf := of_decide_eq_true (first_spec hfirst)
    exact .inr ⟨f,_,rfl,by rw [← h.ref f]; exact hf,.setRef s f 1,h.setRef (by omega)⟩

theorem filedup_spec (h : FileInv refs s) (hpos : 0 < refs f) :
    ∃ s', filedup f s = .ok ((),s') ∧ SameFiles s s' ∧ FileInv (Function.update refs f (refs f + 1)) s' := by
  refine ⟨_,?_,.setRef s f (refs f + 1),h.setRef (by omega)⟩
  unfold filedup
  rw [bind_ok get_ok, if_neg (by rw [h.ref f]; omega), ← h.ref f]
  rfl

/-! ## Closing -/

/-- A pipe with one end closed. -/
def PipeEnds.close (e : PipeEnds) (w : Bool) : PipeEnds :=
  if w then { e with writeopen := false } else { e with readopen := false }

theorem PipeEnds.isOpen_close (e : PipeEnds) (w w' : Bool) :
    (e.close w).isOpen w' = if w' = w then false else e.isOpen w' := by
  cases w <;> cases w' <;> rfl

theorem pipeclose_eq (p : ℕ) (w : Bool) (s : Sys) :
    pipeclose k p w s =
      if (s.pipe p).isOpen (!w) = false then
        vm (Vm.kfree k p) { s with pipe := Function.update s.pipe p ((s.pipe p).close w) }
      else .ok ((),{ s with pipe := Function.update s.pipe p ((s.pipe p).close w) }) := by
  have hstate : ∀ w, (if w = true then updPipe p fun e => { e with writeopen := false }
      else updPipe p fun e => { e with readopen := false }) s =
      .ok ((),{ s with pipe := Function.update s.pipe p ((s.pipe p).close w) }) := by
    intro w
    cases w <;> rfl
  have hrun : pipeclose k p w = (if w = true then updPipe p fun e => { e with writeopen := false }
      else updPipe p fun e => { e with readopen := false }) >>= fun _ => do
        let s ← get
        if (s.pipe p).readopen = false ∧ (s.pipe p).writeopen = false then vm (Vm.kfree k p)
        else return () := by
    cases w <;> rfl
  rw [hrun, bind_ok (hstate w), bind_ok get_ok]
  have hcond : (({ s with pipe := Function.update s.pipe p ((s.pipe p).close w) } : Sys).pipe p).readopen = false ∧
      (({ s with pipe := Function.update s.pipe p ((s.pipe p).close w) } : Sys).pipe p).writeopen = false ↔
      (s.pipe p).isOpen (!w) = false := by
    dsimp only
    rw [Function.update_self]
    cases w <;> simp [PipeEnds.close,PipeEnds.isOpen]
  simp only [hcond]
  split <;> rfl

/-- The file table after the last reference to an entry is gone, with the ends of the pipes
that are open then. -/
theorem FileInv.drop (h : FileInv refs s) {m : Machine} (pipe' : ℕ → PipeEnds)
    (hopen : ∀ g w, g ≠ f → (s.file g).type = .pipe → ((pipe' (s.file g).pipe).isOpen w = true ↔
      (s.pipe (s.file g).pipe).isOpen w = true ∧
        ¬ ((s.file f).type = .pipe ∧ (s.file g).pipe = (s.file f).pipe ∧ w = (s.file f).writable))) :
    FileInv (Function.update refs f 0)
      { s with
        mach := m
        file := Function.update s.file f { s.file f with ref := 0, type := .none }
        pipe := pipe' } := by
  have hother : ∀ g, (Function.update s.file f { s.file f with ref := 0, type := .none } g).type = .pipe →
      g ≠ f ∧ (s.file g).type = .pipe ∧
        Function.update s.file f { s.file f with ref := 0, type := .none } g = s.file g := by
    intro g hg
    by_cases hgf : g = f
    · subst hgf
      rw [Function.update_self] at hg
      cases hg
    · rw [Function.update_of_ne hgf] at hg ⊢
      exact ⟨hgf,hg,rfl⟩
  constructor
  · intro g
    by_cases hgf : g = f
    · subst hgf
      simp
    · simp only [Function.update_of_ne hgf]
      exact h.ref g
  · intro g hg
    by_cases hgf : g = f
    · subst hgf
      simp
    · simp only [Function.update_of_ne hgf] at hg ⊢
      exact h.free g hg
  · intro g hg
    obtain ⟨hgf,h1,he⟩ := hother g hg
    dsimp only
    rw [he, hopen g _ hgf h1]
    exact ⟨h.ends g h1,fun hc => hgf (h.only g f h1 hc.1 hc.2.1 hc.2.2)⟩
  · intro g g' hg hg' hp hw
    obtain ⟨-,h1,he⟩ := hother g hg
    obtain ⟨-,h1',he'⟩ := hother g' hg'
    dsimp only at hp hw
    rw [he, he'] at hp hw
    exact h.only g g' h1 h1' hp hw
  · intro g w hg hw
    obtain ⟨hgf,h1,he⟩ := hother g hg
    dsimp only at hw ⊢
    rw [he, hopen g w hgf h1] at hw
    obtain ⟨r,hr1,hr2,hr3⟩ := h.entry g w h1 hw.1
    have hrf : r ≠ f := fun hc => hw.2 ⟨hc ▸ hr1,by rw [← hr2, hc],by rw [← hr3, hc]⟩
    refine ⟨r,?_⟩
    rw [Function.update_of_ne hrf, he]
    exact ⟨hr1,hr2,hr3⟩

/-- Which pages hold pipes once an entry is gone. -/
theorem mem_pipeBuffers_drop {m : Machine} {pipe' : ℕ → PipeEnds} {x : ℕ} :
    x ∈ pipeBuffers { s with
      mach := m
      file := Function.update s.file f { s.file f with ref := 0, type := .none }
      pipe := pipe' } ↔ ∃ g ≠ f, (s.file g).type = .pipe ∧ (s.file g).pipe = x := by
  rw [mem_pipeBuffers]
  constructor
  · rintro ⟨g,h1,h2⟩
    dsimp only at h1 h2
    by_cases hgf : g = f
    · subst hgf
      rw [Function.update_self] at h1
      cases h1
    · rw [Function.update_of_ne hgf] at h1 h2
      exact ⟨g,hgf,h1,h2⟩
  · rintro ⟨g,hgf,h1,h2⟩
    refine ⟨g,?_⟩
    dsimp only
    rw [Function.update_of_ne hgf]
    exact ⟨h1,h2⟩

theorem isOpen_close_iff {g : Fin nfile} {w : Bool} (ht : (s.file f).type = .pipe) :
    (Function.update s.pipe (s.file f).pipe ((s.pipe (s.file f).pipe).close (s.file f).writable)
        (s.file g).pipe).isOpen w = true ↔
      (s.pipe (s.file g).pipe).isOpen w = true ∧
        ¬ ((s.file f).type = .pipe ∧ (s.file g).pipe = (s.file f).pipe ∧ w = (s.file f).writable) := by
  by_cases hp : (s.file g).pipe = (s.file f).pipe
  · rw [hp, Function.update_self, PipeEnds.isOpen_close]
    simp [ht]
    tauto
  · rw [Function.update_of_ne hp]
    simp [hp]

/-- A page that holds a pipe or is free stays so. -/
def Recycles (s s' : Sys) : Prop :=
  ∀ pg, pg ∈ pipeBuffers s ∨ pg ∈ s.mach.freelist → pg ∈ pipeBuffers s' ∨ pg ∈ s'.mach.freelist

theorem Recycles.trans {s'' : Sys} (h : Recycles s s') (h' : Recycles s' s'') : Recycles s s'' :=
  fun pg hpg => h' pg (h pg hpg)

theorem Recycles.of_same (hbuf : pipeBuffers s' = pipeBuffers s) (hm : s'.mach = s.mach) : Recycles s s' := by
  intro pg hpg
  rwa [hbuf, hm]

/-- A page that holds a pipe goes on to do so or is free. -/
def PipesKept (s s' : Sys) : Prop := ∀ pg ∈ pipeBuffers s, pg ∈ pipeBuffers s' ∨ pg ∈ s'.mach.freelist

theorem PipesKept.of_subset (h : pipeBuffers s ⊆ pipeBuffers s') : PipesKept s s' := fun _ hpg => .inl (h hpg)

theorem PipesKept.of_eq (h : pipeBuffers s' = pipeBuffers s) : PipesKept s s' := .of_subset (by rw [h]; exact fun _ => id)

theorem PipesKept.recycles {s'' : Sys} (h : PipesKept s s') (h' : Recycles s' s'') : PipesKept s s'' :=
  fun pg hpg => h' pg (h pg hpg)

/-- `fileclose` gives up one reference. -/
theorem fileclose_spec (hp : PageInv k s) (hf : FileInv refs s) (hpos : 0 < refs f) :
    ∃ s', fileclose k f s = .ok ((),s') ∧ PageInv k s' ∧
      FileInv (Function.update refs f (refs f - 1)) s' ∧ s'.proc = s.proc ∧ s'.initproc = s.initproc ∧
      Recycles s s' := by
  have href := hf.ref f
  unfold fileclose
  rw [bind_ok get_ok, if_neg (by omega)]
  split
  · rename_i hmore
    refine ⟨_,rfl,hp.sameFiles (.setRef s f _),?_,rfl,rfl,.of_same (pipeBuffers_of_file fun g => ?_) rfl⟩
    · rw [← href]
      exact hf.setRef fun hc => by omega
    · exact ⟨(setRef_same s.file f _ g).1,(setRef_same s.file f _ g).2.1⟩
  · have hlast : refs f - 1 = 0 := by omega
    rw [hlast, bind_ok (updFile_ok _ _ _)]
    by_cases ht : (s.file f).type = .pipe
    · rw [ht]
      dsimp only
      rw [pipeclose_eq]
      have hkeep : ∀ g w, g ≠ f → (s.file g).type = .pipe → _ := fun g w _ _ => isOpen_close_iff (g := g) (w := w) ht
      dsimp only
      split
      · -- the other end is closed: the page goes back
        rename_i hend
        have hnot : (s.file f).pipe ∉ pipeBuffers { s with
            file := Function.update s.file f { s.file f with ref := 0, type := .none }
            pipe := Function.update s.pipe (s.file f).pipe
              ((s.pipe (s.file f).pipe).close (s.file f).writable) } := by
          rw [mem_pipeBuffers_drop]
          rintro ⟨g,hgf,hg,hgp⟩
          have hopen := hf.ends g hg
          have hw : (s.file g).writable ≠ (s.file f).writable := fun hc => hgf (hf.only g f hg ht hgp hc)
          rw [hgp, Bool.eq_not_of_ne hw, hend] at hopen
          cases hopen
        have hbuf := pipeBuffers_cons (s := s) hnot fun x => by
          rw [mem_pipeBuffers_drop, mem_pipeBuffers]
          constructor
          · rintro ⟨g,hg,hgp⟩
            by_cases hgf : g = f
            · exact .inl (by rw [← hgp, hgf])
            · exact .inr ⟨g,hgf,hg,hgp⟩
          · rintro (rfl | ⟨g,-,hg,hgp⟩)
            · exact ⟨f,ht,rfl⟩
            · exact ⟨g,hg,hgp⟩
        have hown := hp.owns
        rw [hbuf, add_left_comm] at hown
        obtain ⟨m,hrun,hown',hkeeps⟩ := hown.kfree
        refine ⟨_,vm_ok hrun,?_,hf.drop _ hkeep,rfl,rfl,fun pg hpg => ?_⟩
        · exact ⟨hown',hp.kernel.congr (hkeeps _ (Multiset.mem_cons_self _ _)),fun q hq =>
            (hp.spaces q hq).congr (hkeeps _ (mem_pageDirs hq))⟩
        · rw [hbuf, Multiset.singleton_add, Multiset.mem_cons] at hpg
          dsimp only
          rw [Vm.kfree_freelist hrun, List.mem_cons]
          rcases hpg with (hpg | hpg) | hpg
          · exact .inr (.inl hpg)
          · exact .inl hpg
          · exact .inr (.inr hpg)
      · rename_i hend
        have hbuf : pipeBuffers { s with
            file := Function.update s.file f { s.file f with ref := 0, type := .none }
            pipe := Function.update s.pipe (s.file f).pipe
              ((s.pipe (s.file f).pipe).close (s.file f).writable) } = pipeBuffers s := by
          refine pipeBuffers_congr fun x => ?_
          rw [mem_pipeBuffers_drop, mem_pipeBuffers]
          constructor
          · rintro ⟨g,-,hg,hgp⟩
            exact ⟨g,hg,hgp⟩
          · rintro ⟨g,hg,hgp⟩
            by_cases hgf : g = f
            · subst hgf
              obtain ⟨r,hr1,hr2,hr3⟩ := hf.entry g _ hg (Bool.not_eq_false _ ▸ hend)
              refine ⟨r,fun hc => ?_,hr1,hr2.trans hgp⟩
              rw [hc] at hr3
              cases hw : (s.file g).writable <;> simp [hw] at hr3
            · exact ⟨g,hgf,hg,hgp⟩
        exact ⟨_,rfl,hp.frame rfl rfl rfl (fun _ => rfl) hbuf,hf.drop _ hkeep,rfl,rfl,.of_same hbuf rfl⟩
    · have hbuf : pipeBuffers { s with
          file := Function.update s.file f { s.file f with ref := 0, type := .none } } = pipeBuffers s := by
        refine pipeBuffers_congr fun x => ?_
        refine (mem_pipeBuffers_drop (m := s.mach)).trans ?_
        rw [mem_pipeBuffers]
        constructor
        · rintro ⟨g,-,hg,hgp⟩
          exact ⟨g,hg,hgp⟩
        · rintro ⟨g,hg,hgp⟩
          exact ⟨g,fun hc => ht (hc ▸ hg),hg,hgp⟩
      have hdrop := hf.drop (f := f) (m := s.mach) s.pipe fun g w _ _ => by simp [ht]
      refine ⟨{ s with file := Function.update s.file f { s.file f with ref := 0, type := .none } },?_,
        hp.frame rfl rfl rfl (fun _ => rfl) hbuf,hdrop,rfl,rfl,.of_same hbuf rfl⟩
      cases hc : (s.file f).type with
      | none => rfl
      | pipe => exact absurd hc ht
      | inode => rfl

end X86OsDev.Xv6.Pages
