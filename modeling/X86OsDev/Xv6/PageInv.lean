import X86OsDev.Xv6.Pages
import X86OsDev.Xv6.VmOwners

/-! # Who owns a page

The classes of pages in a state of the kernel, and the invariant: the classes
and the free list are all pages, each once.
-/
namespace X86OsDev.Xv6.Pages
open Memory Fault Counting

/-- A process that has an address space. -/
def Proc.HasSpace (pr : Proc) : Prop := pr.state = .live ∨ pr.state = .zombie

instance (pr : Proc) : Decidable pr.HasSpace := inferInstanceAs (Decidable (_ ∨ _))

def Proc.dir (pr : Proc) : Multiset ℕ := if pr.HasSpace then {pr.pgdir} else 0

def Proc.stack (pr : Proc) : Multiset ℕ := if pr.state = .unused then 0 else {pr.kstack}

/-- What decides which pages a process owns. -/
def Proc.core (pr : Proc) : ProcState × ℕ × ℕ × ℕ := (pr.state,pr.kstack,pr.pgdir,pr.sz)

/-- The page directories: the kernel's and those of the processes. -/
def pageDirs (s : Sys) : Multiset ℕ := s.kpgdir ::ₘ ∑ p, (s.proc p).dir

/-- The stacks of the other processors and of the processes. -/
def kernelStacks (s : Sys) : Multiset ℕ := s.cpuStacks + ∑ p, (s.proc p).stack

def pipeBuffers (s : Sys) : Multiset ℕ :=
  ((Finset.univ.filter fun f => (s.file f).type = .pipe).image fun f => (s.file f).pipe).val

/-- `n` pages from `a` on. -/
def pagesFrom (a n : ℕ) : List ℕ := (List.range n).map fun i => a + i * 4096

/-- The pages that `kinit1` and `kinit2` hand to the allocator. -/
def allPages (k : Kernel) : Multiset ℕ :=
  pagesFrom (pgroundup k.kend) ((p2v 0x400000 - pgroundup k.kend) / pgsize) +
    pagesFrom (p2v 0x400000) ((p2v phystop - p2v 0x400000) / pgsize)

structure PageInv (k : Kernel) (s : Sys) : Prop where
  owns : Owns k (allPages k) s.mach (pageDirs s) (kernelStacks s + pipeBuffers s)
  kernel : Loaded s.mach.mem s.kpgdir 0
  spaces : ∀ p, (s.proc p).HasSpace → Space s.mach.mem (s.proc p).pgdir (s.proc p).sz

/-- One end of a pipe: the writing one or the reading one. -/
def PipeEnds.isOpen (e : PipeEnds) (writable : Bool) : Bool := if writable then e.writeopen else e.readopen

/-- The file table, with the number of references each entry should have: an entry of a
pipe is an open end of it, and each open end has one entry. -/
structure FileInv (refs : Fin nfile → ℕ) (s : Sys) : Prop where
  ref : ∀ f, (s.file f).ref = refs f
  free : ∀ f, refs f = 0 → (s.file f).type = .none
  ends : ∀ f, (s.file f).type = .pipe → (s.pipe (s.file f).pipe).isOpen (s.file f).writable = true
  only : ∀ f g, (s.file f).type = .pipe → (s.file g).type = .pipe → (s.file f).pipe = (s.file g).pipe →
    (s.file f).writable = (s.file g).writable → f = g
  entry : ∀ f w, (s.file f).type = .pipe → (s.pipe (s.file f).pipe).isOpen w = true →
    ∃ g, (s.file g).type = .pipe ∧ (s.file g).pipe = (s.file f).pipe ∧ (s.file g).writable = w

/-- The references to an entry from the processes. -/
def count (s : Sys) (f : Fin nfile) : ℕ :=
  ∑ p, ∑ fd, if (s.proc p).ofile fd = some f then 1 else 0

/-- A process that is not live has no descriptors. -/
def Closed (s : Sys) : Prop := ∀ p, (s.proc p).state ≠ .live → ∀ fd, (s.proc p).ofile fd = none

structure Inv (k : Kernel) (s : Sys) : Prop where
  pages : PageInv k s
  files : FileInv (count s) s
  closed : Closed s

variable {k : Kernel} {s s' : Sys} {refs : Fin nfile → ℕ}

/-! ## Programs of the machine -/

theorem vm_ok {α : Type} {x : Vm α} {a : α} {m : Machine} (h : x s.mach = .ok (a,m)) :
    vm x s = .ok (a,{ s with mach := m }) := by
  unfold vm
  rw [h]

theorem updProc_ok (p : Fin nproc) (g : Proc → Proc) (s : Sys) :
    updProc p g s = .ok ((),{ s with proc := Function.update s.proc p (g (s.proc p)) }) := rfl

theorem updFile_ok (f : Fin nfile) (g : OpenFile → OpenFile) (s : Sys) :
    updFile f g s = .ok ((),{ s with file := Function.update s.file f (g (s.file f)) }) := rfl

theorem updPipe_ok (p : ℕ) (g : PipeEnds → PipeEnds) (s : Sys) :
    updPipe p g s = .ok ((),{ s with pipe := Function.update s.pipe p (g (s.pipe p)) }) := rfl

theorem first_spec {n : ℕ} {hit : Fin n → Bool} {i : Fin n} (h : first hit = some i) : hit i = true :=
  List.find?_some h

/-! ## Replacing one process -/

/-- The directories and the stacks of all but one process. -/
def restDirs (s : Sys) (p : Fin nproc) : Multiset ℕ :=
  s.kpgdir ::ₘ ∑ q ∈ Finset.univ.erase p, (s.proc q).dir

def restStacks (s : Sys) (p : Fin nproc) : Multiset ℕ :=
  s.cpuStacks + ∑ q ∈ Finset.univ.erase p, (s.proc q).stack

theorem pageDirs_eq (s : Sys) (p : Fin nproc) : pageDirs s = (s.proc p).dir + restDirs s p := by
  unfold pageDirs restDirs
  rw [← Finset.add_sum_erase _ _ (Finset.mem_univ p), Multiset.add_cons]

theorem kernelStacks_eq (s : Sys) (p : Fin nproc) :
    kernelStacks s = (s.proc p).stack + restStacks s p := by
  unfold kernelStacks restStacks
  rw [← Finset.add_sum_erase _ _ (Finset.mem_univ p), add_left_comm]

theorem Proc.hasSpace_of_core {pr pr' : Proc} (h : pr'.core = pr.core) :
    pr'.HasSpace ↔ pr.HasSpace := by
  simp only [core, Prod.mk.injEq] at h
  unfold HasSpace
  rw [h.1]

theorem Proc.dir_of_core {pr pr' : Proc} (h : pr'.core = pr.core) : pr'.dir = pr.dir := by
  have hspace := hasSpace_of_core h
  simp only [core, Prod.mk.injEq] at h
  simp only [dir, hspace, h.2.2.1]

theorem Proc.stack_of_core {pr pr' : Proc} (h : pr'.core = pr.core) : pr'.stack = pr.stack := by
  simp only [core, Prod.mk.injEq] at h
  obtain ⟨h1,h2,h3,h4⟩ := h
  unfold stack
  rw [h1, h2]

theorem mem_restDirs {p q : Fin nproc} (hq : q ≠ p) (h : (s.proc q).HasSpace) :
    (s.proc q).pgdir ∈ restDirs s p := by
  refine Multiset.mem_cons_of_mem (mem_sum_of_mem (Finset.mem_erase.mpr ⟨hq,Finset.mem_univ q⟩) ?_)
  unfold Proc.dir
  rw [if_pos h]
  exact Multiset.mem_singleton_self _

theorem mem_pageDirs {q : Fin nproc} (h : (s.proc q).HasSpace) : (s.proc q).pgdir ∈ pageDirs s := by
  refine Multiset.mem_cons_of_mem (mem_sum_of_mem (Finset.mem_univ q) ?_)
  unfold Proc.dir
  rw [if_pos h]
  exact Multiset.mem_singleton_self _

namespace PageInv

theorem at_proc (h : PageInv k s) (p : Fin nproc) :
    Owns k (allPages k) s.mach ((s.proc p).dir + restDirs s p)
      ((s.proc p).stack + (restStacks s p + pipeBuffers s)) := by
  have := h.owns
  rwa [pageDirs_eq s p, kernelStacks_eq s p, add_assoc] at this

/-- A step that changes the machine and one process. -/
theorem replace (h : PageInv k s) (p : Fin nproc) (hk : s'.kpgdir = s.kpgdir)
    (hcpu : s'.cpuStacks = s.cpuStacks) (hq : ∀ q ≠ p, (s'.proc q).core = (s.proc q).core)
    (hown : Owns k (allPages k) s'.mach ((s'.proc p).dir + restDirs s p)
      ((s'.proc p).stack + (restStacks s p + pipeBuffers s')))
    (hkeep : Keeps s.mach.mem s'.mach.mem (restDirs s p))
    (hsp : (s'.proc p).HasSpace → Space s'.mach.mem (s'.proc p).pgdir (s'.proc p).sz) :
    PageInv k s' := by
  have hdirs : restDirs s' p = restDirs s p := by
    unfold restDirs
    rw [hk, Finset.sum_congr rfl fun q hq' => Proc.dir_of_core (hq q (Finset.ne_of_mem_erase hq'))]
  have hstacks : restStacks s' p = restStacks s p := by
    unfold restStacks
    rw [hcpu, Finset.sum_congr rfl fun q hq' => Proc.stack_of_core (hq q (Finset.ne_of_mem_erase hq'))]
  refine ⟨?_,?_,fun q hspace => ?_⟩
  · rw [pageDirs_eq s' p, kernelStacks_eq s' p, hdirs, hstacks, add_assoc]
    exact hown
  · rw [hk]
    exact h.kernel.congr (hkeep _ (Multiset.mem_cons_self _ _))
  · by_cases hqp : q = p
    · subst hqp
      exact hsp hspace
    · have hcore := hq q hqp
      have hspace' := (Proc.hasSpace_of_core hcore).mp hspace
      simp only [Proc.core, Prod.mk.injEq] at hcore
      rw [hcore.2.2.1, hcore.2.2.2]
      exact (h.spaces q hspace').congr (hkeep _ (mem_restDirs hqp hspace'))

/-- A step that changes no page and no owner. -/
theorem frame (h : PageInv k s) (hm : s'.mach = s.mach) (hk : s'.kpgdir = s.kpgdir)
    (hcpu : s'.cpuStacks = s.cpuStacks) (hq : ∀ q, (s'.proc q).core = (s.proc q).core)
    (hpipe : pipeBuffers s' = pipeBuffers s) : PageInv k s' := by
  have p : Fin nproc := 0
  have hcore := hq p
  simp only [Proc.core, Prod.mk.injEq] at hcore
  refine h.replace p hk hcpu (fun q _ => hq q) ?_ ?_ fun hspace => ?_
  · rw [hm, Proc.dir_of_core (hq p), Proc.stack_of_core (hq p), hpipe]
    exact h.at_proc p
  · rw [hm]
    exact .refl _ _
  · rw [hm, hcore.2.2.1, hcore.2.2.2]
    exact h.spaces p ((Proc.hasSpace_of_core (hq p)).mp hspace)

end PageInv

/-! ## Pipes and files -/

theorem mem_pipeBuffers {x : ℕ} : x ∈ pipeBuffers s ↔ ∃ f, (s.file f).type = .pipe ∧ (s.file f).pipe = x := by
  unfold pipeBuffers
  simp

theorem pipeBuffers_nodup (s : Sys) : (pipeBuffers s).Nodup := Finset.nodup _

theorem pipeBuffers_congr (h : ∀ x, x ∈ pipeBuffers s' ↔ x ∈ pipeBuffers s) :
    pipeBuffers s' = pipeBuffers s :=
  (Multiset.Nodup.ext (pipeBuffers_nodup s') (pipeBuffers_nodup s)).mpr h

theorem pipeBuffers_cons {p : ℕ} (hp : p ∉ pipeBuffers s')
    (h : ∀ x, x ∈ pipeBuffers s ↔ x = p ∨ x ∈ pipeBuffers s') :
    pipeBuffers s = {p} + pipeBuffers s' := by
  rw [Multiset.singleton_add]
  refine (Multiset.Nodup.ext (pipeBuffers_nodup s) (Multiset.nodup_cons.mpr ⟨hp,pipeBuffers_nodup s'⟩)).mpr
    fun x => ?_
  rw [Multiset.mem_cons]
  exact h x

end X86OsDev.Xv6.Pages
