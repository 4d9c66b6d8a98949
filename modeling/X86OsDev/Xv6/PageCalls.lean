import X86OsDev.Xv6.PageFiles

/-! # The calls on files keep the partition -/
namespace X86OsDev.Xv6.Pages
open Memory Fault Counting

variable {k : Kernel} {s s' : Sys} {refs : Fin nfile → ℕ} {f : Fin nfile} {cur p : Fin nproc} {fd : Fin nofile}

/-! ## References from descriptors -/

/-- The state after a descriptor was changed. -/
def setFd (s : Sys) (p : Fin nproc) (fd : Fin nofile) (x : Option (Fin nfile)) : Sys :=
  { s with
    proc := Function.update s.proc p { s.proc p with ofile := Function.update (s.proc p).ofile fd x } }

theorem setFd_ofile (s : Sys) (p : Fin nproc) (fd : Fin nofile) (x : Option (Fin nfile)) (q : Fin nproc)
    (fd' : Fin nofile) :
    ((setFd s p fd x).proc q).ofile fd' = if q = p ∧ fd' = fd then x else (s.proc q).ofile fd' := by
  unfold setFd
  dsimp only
  by_cases hq : q = p
  · subst hq
    rw [Function.update_self]
    by_cases hfd : fd' = fd
    · subst hfd
      simp
    · simp [hfd]
  · rw [Function.update_of_ne hq, if_neg fun hc => hq hc.1]

theorem setFd_core (s : Sys) (p : Fin nproc) (fd : Fin nofile) (x : Option (Fin nfile)) (q : Fin nproc) :
    ((setFd s p fd x).proc q).core = (s.proc q).core := by
  unfold setFd
  dsimp only
  by_cases hq : q = p
  · subst hq
    rw [Function.update_self]
    rfl
  · rw [Function.update_of_ne hq]

theorem count_setFd (s : Sys) (p : Fin nproc) (fd : Fin nofile) (x : Option (Fin nfile)) (g : Fin nfile) :
    count (setFd s p fd x) g + (if (s.proc p).ofile fd = some g then 1 else 0) =
      count s g + if x = some g then 1 else 0 := by
  have h1 := sum_update_add s.proc (fun pr : Proc => ∑ fd, if pr.ofile fd = some g then 1 else 0) p
    { s.proc p with ofile := Function.update (s.proc p).ofile fd x }
  have h2 := sum_update_add (s.proc p).ofile (fun y => if y = some g then 1 else 0) fd x
  dsimp only at h1 h2
  unfold count setFd
  dsimp only
  omega

theorem count_pos (h : (s.proc p).ofile fd = some f) : 0 < count s f := by
  have := count_setFd s p fd none f
  rw [if_pos h, if_neg (by simp)] at this
  omega

/-- A free descriptor takes up a reference. -/
theorem count_setFd_some (h : (s.proc p).ofile fd = none) :
    count (setFd s p fd (some f)) = Function.update (count s) f (count s f + 1) := by
  funext g
  have := count_setFd s p fd (some f) g
  rw [h] at this
  by_cases hg : g = f
  · subst hg
    simpa using this
  · rw [Function.update_of_ne hg]
    simpa [Ne.symm hg] using this

/-- A closed descriptor gives up a reference. -/
theorem count_setFd_none (h : (s.proc p).ofile fd = some f) :
    count (setFd s p fd none) = Function.update (count s) f (count s f - 1) := by
  funext g
  have := count_setFd s p fd none g
  rw [h] at this
  by_cases hg : g = f
  · subst hg
    simp at this
    rw [Function.update_self]
    omega
  · rw [Function.update_of_ne hg]
    simpa [Ne.symm hg] using this

theorem count_congr (h : ∀ q, (s'.proc q).ofile = (s.proc q).ofile) : count s' = count s := by
  funext g
  unfold count
  simp only [h]

theorem FileInv.of_same (h : FileInv refs s) (hfile : s'.file = s.file) (hpipe : s'.pipe = s.pipe) :
    FileInv refs s' :=
  h.congr hpipe (fun g => by rw [hfile]; exact ⟨rfl,rfl,rfl⟩) (fun g => by rw [hfile]; exact h.ref g) h.free

theorem Proc.state_of_core {pr pr' : Proc} (h : pr'.core = pr.core) : pr'.state = pr.state :=
  congrArg Prod.fst h

theorem Closed.setFd (h : Closed s) (hcur : (s.proc cur).state = .live) (fd : Fin nofile)
    (x : Option (Fin nfile)) : Closed (setFd s cur fd x) := by
  intro q hq fd'
  rw [Proc.state_of_core (setFd_core s cur fd x q)] at hq
  rw [setFd_ofile, if_neg, h q hq fd']
  rintro ⟨rfl,-⟩
  exact hq hcur

theorem PageInv.setFd (h : PageInv k s) (p : Fin nproc) (fd : Fin nofile) (x : Option (Fin nfile)) :
    PageInv k (setFd s p fd x) :=
  h.frame rfl rfl rfl (setFd_core s p fd x) rfl

theorem fdalloc_spec (s : Sys) (cur : Fin nproc) (f : Fin nfile) :
    fdalloc cur f s = .ok (none,s) ∨
    ∃ fd, fdalloc cur f s = .ok (some fd,setFd s cur fd (some f)) ∧ (s.proc cur).ofile fd = none := by
  unfold fdalloc
  rw [bind_ok get_ok]
  cases hfirst : first (fun fd => ((s.proc cur).ofile fd).isNone) with
  | none => exact .inl rfl
  | some fd => exact .inr ⟨fd,rfl,Option.isNone_iff_eq_none.mp (first_spec hfirst)⟩

/-! ## `pipe` -/

/-- Taking an unused entry and giving it up again. -/
theorem update_twice (h : refs f = 0) : Function.update (Function.update refs f 1) f (1 - 1) = refs := by
  rw [Function.update_idem]
  exact Function.update_eq_self_iff.mpr h.symm

/-- The entries of the ends of a new pipe. -/
def pipeFiles (file : Fin nfile → OpenFile) (f0 f1 : Fin nfile) (p : ℕ) : Fin nfile → OpenFile :=
  let file0 := Function.update file f0
    { file f0 with type := .pipe, readable := true, writable := false, pipe := p }
  Function.update file0 f1
    { file0 f1 with type := .pipe, readable := false, writable := true, pipe := p }

section NewPipe
variable {f0 f1 : Fin nfile} {pg : ℕ}

theorem pipeFiles_ref (file : Fin nfile → OpenFile) (f0 f1 g : Fin nfile) (pg : ℕ) :
    (pipeFiles file f0 f1 pg g).ref = (file g).ref := by
  unfold pipeFiles
  dsimp only
  by_cases h1 : g = f1
  · subst h1
    rw [Function.update_self]
    by_cases h0 : g = f0
    · subst h0
      rw [Function.update_self]
    · rw [Function.update_of_ne h0]
  · rw [Function.update_of_ne h1]
    by_cases h0 : g = f0
    · subst h0
      rw [Function.update_self]
    · rw [Function.update_of_ne h0]

theorem pipeFiles_write (file : Fin nfile → OpenFile) (f0 f1 : Fin nfile) (pg : ℕ) :
    (pipeFiles file f0 f1 pg f1).type = .pipe ∧ (pipeFiles file f0 f1 pg f1).pipe = pg ∧
      (pipeFiles file f0 f1 pg f1).writable = true := by
  unfold pipeFiles
  dsimp only
  rw [Function.update_self]
  exact ⟨rfl,rfl,rfl⟩

theorem pipeFiles_read (file : Fin nfile → OpenFile) (hne : f0 ≠ f1) (pg : ℕ) :
    (pipeFiles file f0 f1 pg f0).type = .pipe ∧ (pipeFiles file f0 f1 pg f0).pipe = pg ∧
      (pipeFiles file f0 f1 pg f0).writable = false := by
  unfold pipeFiles
  dsimp only
  rw [Function.update_of_ne hne, Function.update_self]
  exact ⟨rfl,rfl,rfl⟩

theorem pipeFiles_other (file : Fin nfile → OpenFile) {g : Fin nfile} (h0 : g ≠ f0) (h1 : g ≠ f1) :
    pipeFiles file f0 f1 pg g = file g := by
  unfold pipeFiles
  dsimp only
  rw [Function.update_of_ne h1, Function.update_of_ne h0]

/-- The state with a new pipe. -/
def withPipe (s : Sys) (m : Machine) (f0 f1 : Fin nfile) (pg : ℕ) : Sys :=
  { s with
    mach := m
    file := pipeFiles s.file f0 f1 pg
    pipe := Function.update s.pipe pg ⟨true,true⟩ }

/-- An entry of a pipe is one of the new ends, or it was there before. -/
theorem withPipe_cases {m : Machine} (hne : f0 ≠ f1) (hp : pg ∉ pipeBuffers s)
    (ht0 : (s.file f0).type ≠ .pipe) (ht1 : (s.file f1).type ≠ .pipe) (g : Fin nfile) :
    ((withPipe s m f0 f1 pg).file g).type = .pipe ↔
      g = f0 ∨ g = f1 ∨ (g ≠ f0 ∧ g ≠ f1 ∧ (s.file g).type = .pipe ∧ (s.file g).pipe ≠ pg) := by
  unfold withPipe
  dsimp only
  by_cases h0 : g = f0
  · subst h0
    simp [pipeFiles_read s.file hne pg]
  by_cases h1 : g = f1
  · subst h1
    simp [pipeFiles_write s.file f0 g pg]
  rw [pipeFiles_other s.file h0 h1]
  constructor
  · intro hg
    exact .inr (.inr ⟨h0,h1,hg,fun hc => hp (mem_pipeBuffers.mpr ⟨g,hg,hc⟩)⟩)
  · rintro (hc | hc | ⟨-,-,hg,-⟩)
    · exact absurd hc h0
    · exact absurd hc h1
    · exact hg

theorem FileInv.withPipe (h : FileInv refs s) {m : Machine} (hne : f0 ≠ f1) (hp : pg ∉ pipeBuffers s)
    (h0 : 0 < refs f0) (h1 : 0 < refs f1) (ht0 : (s.file f0).type ≠ .pipe)
    (ht1 : (s.file f1).type ≠ .pipe) : FileInv refs (withPipe s m f0 f1 pg) := by
  have hcases := withPipe_cases (m := m) hne hp ht0 ht1
  obtain ⟨r1,r2,r3⟩ := pipeFiles_read s.file hne pg
  obtain ⟨w1,w2,w3⟩ := pipeFiles_write s.file f0 f1 pg
  have hother : ∀ g, g ≠ f0 → g ≠ f1 → (Pages.withPipe s m f0 f1 pg).file g = s.file g :=
    fun g hg0 hg1 => pipeFiles_other s.file hg0 hg1
  have hopen : ∀ w, ((Pages.withPipe s m f0 f1 pg).pipe pg).isOpen w = true := by
    intro w
    unfold Pages.withPipe
    dsimp only
    rw [Function.update_self]
    cases w <;> rfl
  have hpipe : ∀ x, x ≠ pg → (Pages.withPipe s m f0 f1 pg).pipe x = s.pipe x :=
    fun x hx => Function.update_of_ne hx _ _
  constructor
  · intro g
    exact (pipeFiles_ref s.file f0 f1 g pg).trans (h.ref g)
  · intro g hg
    rw [hother g (fun hc => by subst hc; omega) (fun hc => by subst hc; omega)]
    exact h.free g hg
  · intro g hg
    rcases (hcases g).mp hg with rfl | rfl | ⟨hg0,hg1,hg2,hg3⟩
    · rw [show ((Pages.withPipe s m g f1 pg).file g).pipe = pg from r2]
      exact hopen _
    · rw [show ((Pages.withPipe s m f0 g pg).file g).pipe = pg from w2]
      exact hopen _
    · rw [hother g hg0 hg1, hpipe _ hg3]
      exact h.ends g hg2
  · intro g g' hg hg' he hw
    rcases (hcases g).mp hg with rfl | rfl | ⟨hg0,hg1,hg2,hg3⟩
    · rcases (hcases g').mp hg' with rfl | rfl | ⟨hg0',hg1',-,hg3'⟩
      · rfl
      · exact absurd (r3.symm.trans (hw.trans w3)) (by simp)
      · rw [hother g' hg0' hg1'] at he
        exact absurd (he.symm.trans r2) hg3'
    · rcases (hcases g').mp hg' with rfl | rfl | ⟨hg0',hg1',-,hg3'⟩
      · exact absurd (w3.symm.trans (hw.trans r3)) (by simp)
      · rfl
      · rw [hother g' hg0' hg1'] at he
        exact absurd (he.symm.trans w2) hg3'
    · rw [hother g hg0 hg1] at he hw
      rcases (hcases g').mp hg' with rfl | rfl | ⟨hg0',hg1',hg2',-⟩
      · exact absurd (he.trans r2) hg3
      · exact absurd (he.trans w2) hg3
      · rw [hother g' hg0' hg1'] at he hw
        exact h.only g g' hg2 hg2' he hw
  · intro g w hg hw
    have hnew : ∃ g', ((Pages.withPipe s m f0 f1 pg).file g').type = .pipe ∧
        ((Pages.withPipe s m f0 f1 pg).file g').pipe = pg ∧
        ((Pages.withPipe s m f0 f1 pg).file g').writable = w := by
      cases w
      · exact ⟨f0,r1,r2,r3⟩
      · exact ⟨f1,w1,w2,w3⟩
    rcases (hcases g).mp hg with rfl | rfl | ⟨hg0,hg1,hg2,hg3⟩
    · rw [show ((Pages.withPipe s m g f1 pg).file g).pipe = pg from r2]
      exact hnew
    · rw [show ((Pages.withPipe s m f0 g pg).file g).pipe = pg from w2]
      exact hnew
    · rw [hother g hg0 hg1, hpipe _ hg3] at hw
      obtain ⟨r,hr1,hr2,hr3⟩ := h.entry g w hg2 hw
      have hr0 : r ≠ f0 := fun hc => ht0 (hc ▸ hr1)
      have hr1' : r ≠ f1 := fun hc => ht1 (hc ▸ hr1)
      refine ⟨r,?_⟩
      rw [hother r hr0 hr1', hother g hg0 hg1]
      exact ⟨hr1,hr2,hr3⟩

theorem pipeBuffers_withPipe {m : Machine} (hne : f0 ≠ f1) (hp : pg ∉ pipeBuffers s)
    (ht0 : (s.file f0).type ≠ .pipe) (ht1 : (s.file f1).type ≠ .pipe) :
    pipeBuffers (withPipe s m f0 f1 pg) = {pg} + pipeBuffers s := by
  have hcases := withPipe_cases (m := m) hne hp ht0 ht1
  refine pipeBuffers_cons hp fun x => ?_
  rw [mem_pipeBuffers, mem_pipeBuffers]
  constructor
  · rintro ⟨g,hg,hgp⟩
    rcases (hcases g).mp hg with rfl | rfl | ⟨hg0,hg1,hg2,-⟩
    · exact .inl (hgp.symm.trans (pipeFiles_read s.file hne pg).2.1)
    · exact .inl (hgp.symm.trans (pipeFiles_write s.file f0 g pg).2.1)
    · refine .inr ⟨g,hg2,hgp ▸ ?_⟩
      exact (congrArg OpenFile.pipe (pipeFiles_other s.file hg0 hg1)).symm
  · rintro (rfl | ⟨g,hg,rfl⟩)
    · exact ⟨f0,(pipeFiles_read s.file hne x).1,(pipeFiles_read s.file hne x).2.1⟩
    · have hg0 : g ≠ f0 := fun hc => ht0 (hc ▸ hg)
      have hg1 : g ≠ f1 := fun hc => ht1 (hc ▸ hg)
      refine ⟨g,?_⟩
      rw [show (withPipe s m f0 f1 pg).file g = s.file g from pipeFiles_other s.file hg0 hg1]
      exact ⟨hg,rfl⟩

end NewPipe

/-- Giving up two entries that have one reference each. -/
theorem fileclose_both {f0 f1 : Fin nfile} (hp : PageInv k s)
    (hf : FileInv (Function.update (Function.update refs f0 1) f1 1) s) (hr0 : refs f0 = 0)
    (hr1 : refs f1 = 0) (hne : f0 ≠ f1) {α : Type} (a : α) :
    ∃ s', (do fileclose k f0; fileclose k f1; return a : Kern α) s = .ok (a,s') ∧ PageInv k s' ∧
      FileInv refs s' ∧ s'.proc = s.proc ∧ s'.initproc = s.initproc ∧ Recycles s s' := by
  obtain ⟨s1,hrun1,hp1,hf1,hproc1,hinit1,hrec1⟩ := fileclose_spec hp hf (f := f0)
    (by rw [Function.update_of_ne hne]; simp)
  obtain ⟨s2,hrun2,hp2,hf2,hproc2,hinit2,hrec2⟩ := fileclose_spec hp1 hf1 (f := f1)
    (by rw [Function.update_of_ne hne.symm]; simp)
  have hback : Function.update (Function.update (Function.update (Function.update refs f0 1) f1 1) f0 0) f1 0
      = refs := by
    funext g
    simp only [Function.update_apply]
    split
    · rename_i hg
      rw [hg, hr1]
    · split
      · rename_i hg
        rw [hg, hr0]
      · rfl
  refine ⟨s2,?_,hp2,?_,hproc2.trans hproc1,hinit2.trans hinit1,hrec1.trans hrec2⟩
  · rw [bind_ok hrun1, bind_ok hrun2]
    rfl
  · simpa [Function.update_of_ne hne,Function.update_of_ne hne.symm,hback] using hf2

/-- `pipealloc`: nothing, or two entries with one reference each. -/
theorem pipealloc_spec (hp : PageInv k s) (hf : FileInv refs s) :
    ∃ r s', pipealloc k s = .ok (r,s') ∧ PageInv k s' ∧ s'.proc = s.proc ∧ s'.initproc = s.initproc ∧
      PipesKept s s' ∧
      match r with
      | none => FileInv refs s'
      | some (f0,f1) => FileInv (Function.update (Function.update refs f0 1) f1 1) s' ∧
          refs f0 = 0 ∧ refs f1 = 0 ∧ f0 ≠ f1 := by
  unfold pipealloc
  rcases filealloc_spec hf with hrun | ⟨f0,s1,hrun0,hr0,hs1,hf1⟩
  · rw [bind_ok hrun]
    exact ⟨none,s,rfl,hp,rfl,rfl,.of_subset fun _ => id,hf⟩
  have hp1 := hp.sameFiles hs1
  have hkept1 : PipesKept s s1 := .of_eq hs1.pipeBuffers
  rw [bind_ok hrun0]
  dsimp only
  rcases filealloc_spec hf1 with hrun | ⟨f1,s2,hrun1,hr1,hs2,hf2⟩
  · obtain ⟨s2,hclose,hp2,hf2,hproc2,hinit2,hrec⟩ := fileclose_spec hp1 hf1 (f := f0) (by simp)
    rw [Function.update_self, update_twice hr0] at hf2
    rw [bind_ok hrun]
    dsimp only
    rw [bind_ok hclose]
    exact ⟨none,s2,rfl,hp2,hproc2.trans hs1.proc,hinit2.trans hs1.initproc,hkept1.recycles hrec,hf2⟩
  have hne : f0 ≠ f1 := by
    rintro rfl
    simp at hr1
  rw [Function.update_of_ne hne.symm] at hr1
  have hp2 := hp1.sameFiles hs2
  have hproc2 := hs2.proc.trans hs1.proc
  have hinit2 := hs2.initproc.trans hs1.initproc
  have hbuf2 : pipeBuffers s2 = pipeBuffers s := hs2.pipeBuffers.trans hs1.pipeBuffers
  rw [bind_ok hrun1]
  dsimp only
  have ht : ∀ g, refs g = 0 → (s2.file g).type = .none := fun g hg => by
    rw [hs2.type, hs1.type, hf.free g hg]
  rcases hp2.owns.kalloc with ⟨hrun,-⟩ | ⟨pg,m,hrun,hmem,hown,-⟩
  · obtain ⟨s3,hclose,hp3,hf3,hproc3,hinit3,hrec⟩ := fileclose_both hp2 hf2 hr0 hr1 hne
      (none : Option (Fin nfile × Fin nfile))
    have hkept2 : PipesKept s s2 := .of_eq hbuf2
    rw [bind_ok (vm_ok hrun)]
    exact ⟨none,s3,hclose,hp3,hproc3.trans hproc2,hinit3.trans hinit2,hkept2.recycles hrec,hf3⟩
  · -- the new page holds no other pipe
    have hfresh : pg ∉ pipeBuffers s2 := by
      have hn := hown.raw_nodup
      rw [Multiset.singleton_add] at hn
      exact fun hc => (Multiset.nodup_cons.mp hn).1 (Multiset.mem_add.mpr (.inr hc))
    have ht0 : (s2.file f0).type ≠ .pipe := by
      rw [ht f0 hr0]
      exact fun hc => by cases hc
    have ht1 : (s2.file f1).type ≠ .pipe := by
      rw [ht f1 hr1]
      exact fun hc => by cases hc
    have hf3 := hf2.withPipe (m := m) hne hfresh (by rw [Function.update_of_ne hne]; simp) (by simp) ht0 ht1
    have hbuf := pipeBuffers_withPipe (m := m) hne hfresh ht0 ht1
    rw [bind_ok (vm_ok hrun)]
    dsimp only
    rw [bind_ok (updPipe_ok _ _ _), bind_ok (updFile_ok _ _ _), bind_ok (updFile_ok _ _ _)]
    have hkept : PipesKept s (withPipe s2 m f0 f1 pg) := by
      refine .of_subset ?_
      rw [hbuf, hbuf2, Multiset.singleton_add]
      exact Multiset.subset_cons _ _
    refine ⟨some (f0,f1),withPipe s2 m f0 f1 pg,rfl,⟨?_,?_,fun q hq => ?_⟩,hproc2,hinit2,hkept,hf3,hr0,hr1,hne⟩
    · rw [hbuf, add_left_comm]
      exact hown
    · have := hp2.kernel
      rwa [← hmem] at this
    · have := hp2.spaces q hq
      rwa [← hmem] at this

/-! ## What the calls preserve -/

theorem sysPipe_inv (h : Inv k s) (hcur : (s.proc cur).state = .live) :
    ∃ r s', sysPipe k cur s = .ok (r,s') ∧ Inv k s' ∧ PipesKept s s' := by
  obtain ⟨r,s1,hrun1,hp1,hproc1,-,hkept1,hres⟩ := pipealloc_spec h.pages h.files
  have hofile1 : ∀ q, (s1.proc q).ofile = (s.proc q).ofile := fun q => by rw [hproc1]
  have hclosed1 : Closed s1 := by
    unfold Closed
    rw [hproc1]
    exact h.closed
  have hcur1 : (s1.proc cur).state = .live := by rw [hproc1, hcur]
  unfold sysPipe
  rw [bind_ok hrun1]
  cases r with
  | none =>
    refine ⟨none,s1,rfl,⟨hp1,?_,hclosed1⟩,hkept1⟩
    rw [count_congr hofile1]
    exact hres
  | some ends =>
    obtain ⟨rf,wf⟩ := ends
    obtain ⟨hf1,hr0,hr1,hne⟩ := hres
    -- giving both entries up leads back to the references of the descriptors
    have hundo : ∀ s2, PageInv k s2 → (∀ q, (s2.proc q).ofile = (s.proc q).ofile) → Closed s2 →
        FileInv (Function.update (Function.update (count s) rf 1) wf 1) s2 → PipesKept s s2 →
        ∃ r s', (do fileclose k rf; fileclose k wf; return none : Kern (Option (Fin nofile × Fin nofile))) s2 =
          .ok (r,s') ∧ Inv k s' ∧ PipesKept s s' := by
      intro s2 hp2 hofile2 hclosed2 hf2 hkept2
      obtain ⟨s3,hrun,hp3,hf3,hproc3,-,hrec⟩ := fileclose_both hp2 hf2 hr0 hr1 hne
        (none : Option (Fin nofile × Fin nofile))
      refine ⟨none,s3,hrun,⟨hp3,?_,?_⟩,hkept2.recycles hrec⟩
      · rw [count_congr (s := s) fun q => by rw [hproc3, hofile2 q]]
        exact hf3
      · unfold Closed
        rw [hproc3]
        exact hclosed2
    dsimp only
    rcases fdalloc_spec s1 cur rf with hrun2 | ⟨fd0,hrun2,hfd0⟩
    · rw [bind_ok hrun2]
      exact hundo s1 hp1 hofile1 hclosed1 hf1 hkept1
    rw [bind_ok hrun2]
    dsimp only
    have hf2 : FileInv _ (setFd s1 cur fd0 (some rf)) := hf1.of_same rfl rfl
    have hp2 := hp1.setFd cur fd0 (some rf)
    have hclosed2 := hclosed1.setFd hcur1 fd0 (some rf)
    have hcur2 : ((setFd s1 cur fd0 (some rf)).proc cur).state = .live := by
      rw [Proc.state_of_core (setFd_core s1 cur fd0 (some rf) cur), hcur1]
    rcases fdalloc_spec (setFd s1 cur fd0 (some rf)) cur wf with hrun3 | ⟨fd1,hrun3,hfd1⟩
    · rw [bind_ok hrun3]
      dsimp only
      rw [bind_ok (updProc_ok _ _ _)]
      refine hundo (setFd (setFd s1 cur fd0 (some rf)) cur fd0 none) (hp2.setFd cur fd0 none) (fun q => ?_)
        (hclosed2.setFd hcur2 fd0 none) (hf2.of_same rfl rfl) hkept1
      funext fd'
      rw [setFd_ofile, setFd_ofile, ← hofile1]
      by_cases hq : q = cur ∧ fd' = fd0
      · rw [if_pos hq, hq.1, hq.2, hfd0]
      · rw [if_neg hq, if_neg hq]
    · rw [bind_ok hrun3]
      refine ⟨some (fd0,fd1),_,rfl,⟨hp2.setFd cur fd1 (some wf),?_,hclosed2.setFd hcur2 fd1 (some wf)⟩,hkept1⟩
      have hcount : count (setFd (setFd s1 cur fd0 (some rf)) cur fd1 (some wf)) =
          Function.update (Function.update (count s) rf 1) wf 1 := by
        rw [count_setFd_some hfd1, count_setFd_some hfd0, count_congr hofile1, hr0,
          Function.update_of_ne hne.symm, hr1]
      rw [hcount]
      exact hf2.of_same rfl rfl

/-- Closing a descriptor, in either order of its two steps. -/
theorem Inv.closeFd (h : Inv k s) (ho : (s.proc cur).ofile fd = some f) {s1 : Sys} (hp1 : PageInv k s1)
    (hf1 : FileInv (Function.update (count s) f (count s f - 1)) s1) (hproc : s1.proc = (setFd s cur fd none).proc) :
    Inv k s1 := by
  have hcur : (s.proc cur).state = .live := by
    by_contra hc
    rw [h.closed cur hc fd] at ho
    cases ho
  refine ⟨hp1,?_,?_⟩
  · rw [count_congr (s := setFd s cur fd none) fun q => by rw [hproc], count_setFd_none ho]
    exact hf1
  · unfold Closed
    rw [hproc]
    exact h.closed.setFd hcur fd none

theorem sysClose_inv (h : Inv k s) :
    ∃ r s', sysClose k cur fd s = .ok (r,s') ∧ Inv k s' ∧ Recycles s s' := by
  unfold sysClose
  rw [bind_ok get_ok]
  cases ho : (s.proc cur).ofile fd with
  | none => exact ⟨false,s,rfl,h,.of_same rfl rfl⟩
  | some f =>
    have hf1 : FileInv (count s) (setFd s cur fd none) := h.files.of_same rfl rfl
    obtain ⟨s2,hrun2,hp2,hf2,hproc2,-,hrec⟩ := fileclose_spec (h.pages.setFd cur fd none) hf1 (count_pos ho)
    dsimp only
    rw [bind_ok (updProc_ok _ _ _)]
    exact ⟨true,s2,(bind_ok hrun2).trans rfl,h.closeFd ho hp2 hf2 hproc2,hrec⟩

theorem sysDup_inv (h : Inv k s) (hcur : (s.proc cur).state = .live) :
    ∃ r s', sysDup cur fd s = .ok (r,s') ∧ Inv k s' := by
  unfold sysDup
  rw [bind_ok get_ok]
  cases ho : (s.proc cur).ofile fd with
  | none => exact ⟨none,s,rfl,h⟩
  | some f =>
    dsimp only
    rcases fdalloc_spec s cur f with hrun1 | ⟨fd',hrun1,hfd'⟩
    · rw [bind_ok hrun1]
      exact ⟨none,s,rfl,h⟩
    · have hf1 : FileInv (count s) (setFd s cur fd' (some f)) := h.files.of_same rfl rfl
      obtain ⟨s2,hrun2,hs2,hf2⟩ := filedup_spec hf1 (count_pos ho)
      rw [bind_ok hrun1]
      dsimp only
      rw [bind_ok hrun2]
      refine ⟨some fd',s2,rfl,(h.pages.setFd cur fd' (some f)).sameFiles hs2,?_,?_⟩
      · rw [count_congr (s := setFd s cur fd' (some f)) fun q => by rw [hs2.proc], count_setFd_some hfd']
        exact hf2
      · unfold Closed
        rw [hs2.proc]
        exact h.closed.setFd hcur fd' (some f)

/-- The loop of `exit` over the open files. -/
theorem closeFiles_inv (fds : List (Fin nofile)) : ∀ (s : Sys), Inv k s →
    ∃ s', closeFiles k cur fds s = .ok ((),s') ∧ Inv k s' ∧ s'.initproc = s.initproc ∧
      (∀ q, (s'.proc q).core = (s.proc q).core) ∧ (∀ fd ∈ fds, (s'.proc cur).ofile fd = none) ∧
      (∀ fd, (s.proc cur).ofile fd = none → (s'.proc cur).ofile fd = none) ∧ Recycles s s' := by
  induction fds with
  | nil =>
    intro s h
    exact ⟨s,rfl,h,rfl,fun _ => rfl,fun _ hc => by simp at hc,fun _ hc => hc,.of_same rfl rfl⟩
  | cons fd rest ih =>
    intro s h
    rw [closeFiles, bind_ok get_ok]
    cases ho : (s.proc cur).ofile fd with
    | none =>
      obtain ⟨s',hrun,h',hinit,hcore,hnone,hkeep,hrec⟩ := ih s h
      refine ⟨s',hrun,h',hinit,hcore,fun fd' hfd' => ?_,hkeep,hrec⟩
      rcases List.mem_cons.mp hfd' with rfl | hfd'
      · exact hkeep fd' ho
      · exact hnone fd' hfd'
    | some f =>
      obtain ⟨s1,hrun1,hp1,hf1,hproc1,hinit1,hrec1⟩ := fileclose_spec h.pages h.files (count_pos ho)
      have hproc2 : (setFd s1 cur fd none).proc = (setFd s cur fd none).proc := by
        unfold setFd
        dsimp only
        rw [hproc1]
      have h2 : Inv k (setFd s1 cur fd none) :=
        h.closeFd ho (hp1.setFd cur fd none) (hf1.of_same rfl rfl) hproc2
      obtain ⟨s',hrun,h',hinit,hcore,hnone,hkeep,hrec⟩ := ih _ h2
      dsimp only
      rw [bind_ok hrun1, bind_ok (updProc_ok _ _ _)]
      have hofile : ∀ fd', ((setFd s1 cur fd none).proc cur).ofile fd' =
          if fd' = fd then none else (s.proc cur).ofile fd' := by
        intro fd'
        rw [hproc2, setFd_ofile]
        simp
      have hrec2 : Recycles s (setFd s1 cur fd none) := hrec1.trans (.of_same rfl rfl)
      refine ⟨s',hrun,h',hinit.trans hinit1,fun q => ?_,fun fd' hfd' => ?_,fun fd' hfd' => ?_,hrec2.trans hrec⟩
      · rw [hcore q, hproc2]
        exact setFd_core s cur fd none q
      · rcases List.mem_cons.mp hfd' with rfl | hfd'
        · exact hkeep fd' (by rw [hofile, if_pos rfl])
        · exact hnone fd' hfd'
      · refine hkeep fd' ?_
        rw [hofile]
        split
        · rfl
        · exact hfd'

/-- The loop of `fork` over the open files. -/
theorem dupFiles_spec {np : Fin nproc} (fds : List (Fin nofile)) : ∀ (s : Sys),
    FileInv (count s) s → fds.Nodup → (∀ fd ∈ fds, (s.proc np).ofile fd = none) →
    ∃ s', dupFiles cur np fds s = .ok ((),s') ∧ FileInv (count s') s' ∧ s'.mach = s.mach ∧
      s'.kpgdir = s.kpgdir ∧ s'.cpuStacks = s.cpuStacks ∧ pipeBuffers s' = pipeBuffers s ∧
      (∀ q, (s'.proc q).core = (s.proc q).core) ∧ ∀ q ≠ np, s'.proc q = s.proc q := by
  induction fds with
  | nil =>
    intro s h _ _
    exact ⟨s,rfl,h,rfl,rfl,rfl,rfl,fun _ => rfl,fun _ _ => rfl⟩
  | cons fd rest ih =>
    intro s h hnd hnone
    rw [List.nodup_cons] at hnd
    rw [dupFiles, bind_ok get_ok]
    cases ho : (s.proc cur).ofile fd with
    | none => exact ih s h hnd.2 fun fd' hfd' => hnone fd' (by simp [hfd'])
    | some f =>
      obtain ⟨s1,hrun1,hs1,hf1⟩ := filedup_spec h (count_pos ho)
      have hfd : (s1.proc np).ofile fd = none := by
        rw [hs1.proc]
        exact hnone fd (by simp)
      have hf2 : FileInv (count (setFd s1 np fd (some f))) (setFd s1 np fd (some f)) := by
        rw [count_setFd_some hfd, count_congr (s := s) fun q => by rw [hs1.proc]]
        exact hf1.of_same rfl rfl
      obtain ⟨s',hrun,h',hm,hk,hcpu,hbuf,hcore,hother⟩ := ih (setFd s1 np fd (some f)) hf2 hnd.2
        fun fd' hfd' => by
          have hne : ¬ (np = np ∧ fd' = fd) := fun hc => hnd.1 (hc.2 ▸ hfd')
          rw [setFd_ofile, if_neg hne, hs1.proc]
          exact hnone fd' (by simp [hfd'])
      dsimp only
      rw [bind_ok hrun1, bind_ok (updProc_ok _ _ _)]
      refine ⟨s',hrun,h',hm.trans hs1.mach,hk.trans hs1.kpgdir,hcpu.trans hs1.cpuStacks,
        hbuf.trans (pipeBuffers_of_file fun g => ⟨hs1.type g,hs1.page g⟩),fun q => ?_,fun q hq => ?_⟩
      · rw [hcore q, setFd_core, hs1.proc]
      · rw [hother q hq]
        unfold setFd
        dsimp only
        rw [Function.update_of_ne hq, hs1.proc]

end X86OsDev.Xv6.Pages
