import X86OsDev.Xv6.PageLaw

/-! # Opening a file, and the entries that a call may change

`sys_open` keeps the partition of the pages. The rules below say which fields of
the file table a call leaves alone.
-/
namespace X86OsDev.Xv6.Pages
open Memory Fault Counting Transition

variable {k : Kernel} {s s' : Sys} {refs : Fin nfile → ℕ} {f : Fin nfile} {cur p : Fin nproc} {fd : Fin nofile}

def oWronly : BitVec 32 := 0x001
def oRdwr : BitVec 32 := 0x002

variable (k) in
/-- `sys_open` once `create` or `namei` has found an inode that may be opened, or has not. -/
def sysOpen (cur : Fin nproc) (found : Bool) (omode : BitVec 32) : Kern (Option (Fin nofile)) := do
  if found then
    match ← filealloc with
    | none => return none
    | some f =>
      match ← fdalloc cur f with
      | none =>
        fileclose k f
        return none
      | some fd =>
        updFile f fun e => { e with
          type := .inode
          readable := omode &&& oWronly = 0
          writable := omode &&& oWronly ≠ 0 ∨ omode &&& oRdwr ≠ 0 }
        return some fd
  else return none

/-! ## `open` keeps the partition -/

/-- An entry in use that is not the end of a pipe becomes another one that is not. -/
theorem FileInv.retype (h : FileInv refs s) (hpos : 0 < refs f) (ht : (s.file f).type ≠ .pipe) {e : OpenFile}
    (he : e.type ≠ .pipe) (href : e.ref = (s.file f).ref) :
    FileInv refs { s with file := Function.update s.file f e } := by
  have hself : Function.update s.file f e f = e := Function.update_self ..
  have hother : ∀ g ≠ f, Function.update s.file f e g = s.file g := fun g hg => Function.update_of_ne hg ..
  have hne : ∀ g, (Function.update s.file f e g).type = .pipe → g ≠ f := by
    rintro g hg rfl
    rw [hself] at hg
    exact he hg
  refine ⟨fun g => ?_,fun g hg => ?_,fun g hg => ?_,fun g g' hg hg' hpipe hw => ?_,fun g w hg hopen => ?_⟩
  · by_cases hgf : g = f
    · subst hgf
      dsimp only
      rw [hself, href]
      exact h.ref g
    · dsimp only
      rw [hother g hgf]
      exact h.ref g
  · have hgf : g ≠ f := by
      rintro rfl
      omega
    dsimp only
    rw [hother g hgf]
    exact h.free g hg
  · have hgf := hne g hg
    dsimp only at hg ⊢
    rw [hother g hgf] at hg ⊢
    exact h.ends g hg
  · have hgf := hne g hg
    have hgf' := hne g' hg'
    dsimp only at hg hg' hpipe hw
    rw [hother g hgf] at hg hpipe hw
    rw [hother g' hgf'] at hg' hpipe hw
    exact h.only g g' hg hg' hpipe hw
  · have hgf := hne g hg
    dsimp only at hg hopen
    rw [hother g hgf] at hg hopen
    obtain ⟨g',hg1,hg2,hg3⟩ := h.entry g w hg hopen
    have hgf' : g' ≠ f := fun hc => ht (hc ▸ hg1)
    refine ⟨g',?_⟩
    dsimp only
    rw [hother g' hgf', hother g hgf]
    exact ⟨hg1,hg2,hg3⟩

theorem pipeBuffers_retype (ht : (s.file f).type ≠ .pipe) {e : OpenFile} (he : e.type ≠ .pipe) :
    pipeBuffers { s with file := Function.update s.file f e } = pipeBuffers s := by
  have hself : Function.update s.file f e f = e := Function.update_self ..
  refine pipeBuffers_congr fun x => ?_
  rw [mem_pipeBuffers, mem_pipeBuffers]
  refine exists_congr fun g => ?_
  by_cases hg : g = f
  · subst hg
    dsimp only
    rw [hself]
    exact ⟨fun hc => absurd hc.1 he,fun hc => absurd hc.1 ht⟩
  · dsimp only
    rw [Function.update_of_ne hg]

theorem sysOpen_inv (h : Inv k s) (hcur : (s.proc cur).state = .live) (found : Bool) (omode : BitVec 32) :
    ∃ r s', sysOpen k cur found omode s = .ok (r,s') ∧ Inv k s' ∧ PipesKept s s' := by
  unfold sysOpen
  cases found with
  | false => exact ⟨none,s,rfl,h,.of_eq rfl⟩
  | true =>
    rw [if_pos rfl]
    rcases filealloc_spec h.files with hrun | ⟨f,s1,hrun1,hr,hs1,hf1⟩
    · rw [bind_ok hrun]
      exact ⟨none,s,rfl,h,.of_eq rfl⟩
    have hp1 := h.pages.sameFiles hs1
    have hofile1 : ∀ q, (s1.proc q).ofile = (s.proc q).ofile := fun q => by rw [hs1.proc]
    have hclosed1 : Closed s1 := by
      unfold Closed
      rw [hs1.proc]
      exact h.closed
    rw [bind_ok hrun1]
    dsimp only
    rcases fdalloc_spec s1 cur f with hrun2 | ⟨fd,hrun2,hfd⟩
    · obtain ⟨s2,hrun3,hp2,hf2,hproc2,-,hrec⟩ := fileclose_spec hp1 hf1 (f := f) (by simp)
      rw [Function.update_self, update_twice hr] at hf2
      rw [bind_ok hrun2]
      dsimp only
      rw [bind_ok hrun3]
      have hkept : PipesKept s s1 := .of_eq hs1.pipeBuffers
      refine ⟨none,s2,rfl,⟨hp2,?_,?_⟩,hkept.recycles hrec⟩
      · rw [count_congr (s := s) fun q => by rw [hproc2, hofile1]]
        exact hf2
      · unfold Closed
        rw [hproc2]
        exact hclosed1
    · -- the entry was unused, so it is not the end of a pipe
      have ht : ((setFd s1 cur fd (some f)).file f).type ≠ .pipe := by
        change (s1.file f).type ≠ .pipe
        rw [hs1.type, h.files.free f hr]
        exact fun hc => by cases hc
      have hcur1 : (s1.proc cur).state = .live := by rw [hs1.proc, hcur]
      have hcount : count (setFd s1 cur fd (some f)) = Function.update (count s) f 1 := by
        rw [count_setFd_some hfd, count_congr hofile1, hr]
      have hf2 : FileInv (Function.update (count s) f 1) (setFd s1 cur fd (some f)) := hf1.of_same rfl rfl
      have hbuf {e : OpenFile} (he : e.type ≠ .pipe) := pipeBuffers_retype ht he
      rw [bind_ok hrun2]
      dsimp only
      rw [bind_ok (updFile_ok _ _ _)]
      refine ⟨some fd,_,rfl,⟨?_,?_,?_⟩,.of_eq ?_⟩
      · exact (hp1.setFd cur fd (some f)).frame rfl rfl rfl (fun _ => rfl) (hbuf (by simp))
      · rw [← hcount] at hf2
        exact hf2.retype (by simp [hcount]) ht (by simp) rfl
      · exact hclosed1.setFd hcur1 fd (some f)
      · exact (hbuf (by simp)).trans hs1.pipeBuffers

/-! ## What no call changes in the file table -/

/-- Each entry is related to what it was. -/
def EachFile (r : OpenFile → OpenFile → Prop) (s s' : Sys) : Prop := ∀ f, r (s.file f) (s'.file f)

section Respects
variable {α : Type} {r : OpenFile → OpenFile → Prop} [IsPreorder OpenFile r]

instance : IsPreorder Sys (EachFile r) where
  refl s f := refl_of r (s.file f)
  trans _ _ _ h h' f := trans_of r (h f) (h' f)

theorem respects_of_file {g : Sys → Sys} (h : ∀ s, (g s).file = s.file) :
    Respects (EachFile r) (modify g : Kern Unit) :=
  .modify fun s f => by
    rw [h]
    exact refl_of r (s.file f)

theorem respects_vm (x : Vm α) : Respects (EachFile r) (vm x) := by
  intro s a s' h f
  unfold vm at h
  split at h
  · cases h
    exact refl_of r (s.file f)
  · cases h

theorem respects_updProc (p : Fin nproc) (g : Proc → Proc) : Respects (EachFile r) (updProc p g) :=
  respects_of_file fun _ => rfl

theorem respects_updPipe (p : ℕ) (g : PipeEnds → PipeEnds) : Respects (EachFile r) (updPipe p g) :=
  respects_of_file fun _ => rfl

theorem respects_updFile (f : Fin nfile) {g : OpenFile → OpenFile} (h : ∀ e, r e (g e)) :
    Respects (EachFile r) (updFile f g) := by
  refine .modify fun s f' => ?_
  by_cases hf : f' = f
  · subst hf
    dsimp only
    rw [Function.update_self]
    exact h _
  · dsimp only
    rw [Function.update_of_ne hf]
    exact refl_of r _

theorem respects_allocproc : Respects (EachFile r) allocproc := by
  refine .bind .get fun s => ?_
  split
  · exact .pure _
  · refine .bind (respects_updProc _ _) fun _ => .bind (respects_vm _) fun x => ?_
    cases x with
    | none => exact .bind (respects_updProc _ _) fun _ => .pure _
    | some ks => exact .bind (respects_updProc _ _) fun _ => .pure _

theorem respects_fdalloc (cur : Fin nproc) (f : Fin nfile) : Respects (EachFile r) (fdalloc cur f) := by
  refine .bind .get fun s => ?_
  split
  · exact .pure _
  · exact .bind (respects_updProc _ _) fun _ => .pure _

theorem respects_wait (cur : Fin nproc) : Respects (EachFile r) (wait k cur) := by
  refine .bind .get fun s => ?_
  split
  · exact .pure _
  · exact .bind (respects_vm _) fun _ => .bind (respects_updProc _ _) fun _ =>
      .bind (respects_vm _) fun _ => .bind (respects_updProc _ _) fun _ => .pure _

/-- The boot code opens no file. -/
theorem respects_startothers (n : ℕ) : Respects (EachFile r) (startothers n) := by
  induction n with
  | zero => exact .pure _
  | succ n ih =>
    refine .bind (respects_vm _) fun x => ?_
    cases x with
    | none => exact .throw _
    | some p => exact .bind (respects_of_file fun _ => rfl) fun _ => ih

theorem respects_inituvm (d : ℕ) (init : List UInt8) : Respects (EachFile r) (inituvm d init) := by
  unfold inituvm
  split
  · exact .throw _
  · refine .bind (respects_vm _) fun x => ?_
    cases x with
    | none => exact .throw _
    | some mem => exact .bind (respects_vm _) fun _ => .bind (respects_vm _) fun _ => respects_vm _

theorem respects_userinit (init : List UInt8) : Respects (EachFile r) (userinit k init) := by
  refine .bind respects_allocproc fun x => ?_
  cases x with
  | none => exact .throw _
  | some p =>
    refine .bind (respects_of_file fun _ => rfl) fun _ => .bind (respects_vm _) fun y => ?_
    cases y with
    | none => exact .throw _
    | some d =>
      exact .bind (respects_inituvm d init) fun _ => .bind (respects_updProc _ _) fun _ => respects_updProc _ _

theorem respects_main (n : ℕ) (init : List UInt8) : Respects (EachFile r) (main k n init) := by
  refine .bind (respects_vm _) fun _ => .bind (.bind (respects_vm _) fun x => ?_) fun _ =>
    .bind (respects_startothers n) fun _ => .bind (respects_vm _) fun _ => respects_userinit init
  cases x with
  | none => exact .throw _
  | some d => exact respects_of_file fun _ => rfl

section Ref
variable (href : ∀ e n, r e { e with ref := n })
include href

theorem respects_filealloc : Respects (EachFile r) filealloc := by
  refine .bind .get fun s => ?_
  split
  · exact .pure _
  · exact .bind (respects_updFile _ fun e => href e 1) fun _ => .pure _

theorem respects_filedup (f : Fin nfile) : Respects (EachFile r) (filedup f) := by
  refine .bind .get fun s => ?_
  split
  · exact .throw _
  · exact respects_updFile _ fun e => href e _

theorem respects_sysDup (cur : Fin nproc) (fd : Fin nofile) : Respects (EachFile r) (sysDup cur fd) := by
  refine .bind .get fun s => ?_
  split
  · exact .pure _
  · refine .bind (respects_fdalloc _ _) fun x => ?_
    cases x with
    | none => exact .pure _
    | some fd' => exact .bind (respects_filedup href _) fun _ => .pure _

theorem respects_dupFiles (cur np : Fin nproc) (fds : List (Fin nofile)) :
    Respects (EachFile r) (dupFiles cur np fds) := by
  induction fds with
  | nil => exact .pure _
  | cons fd rest ih =>
    refine .bind .get fun s => ?_
    split
    · exact ih
    · exact .bind (respects_filedup href _) fun _ => .bind (respects_updProc _ _) fun _ => ih

theorem respects_fork (cur : Fin nproc) : Respects (EachFile r) (fork k cur) := by
  refine .bind respects_allocproc fun x => ?_
  cases x with
  | none => exact .pure _
  | some np =>
    refine .bind .get fun s => .bind (respects_vm _) fun y => ?_
    cases y with
    | none => exact .bind (respects_vm _) fun _ => .bind (respects_updProc _ _) fun _ => .pure _
    | some d =>
      exact .bind (respects_updProc _ _) fun _ => .bind (respects_dupFiles href _ _ _) fun _ =>
        .bind (respects_updProc _ _) fun _ => .pure _

section Close
variable (hclose : ∀ e, r e { e with ref := 0, type := .none })
include hclose

theorem respects_fileclose (f : Fin nfile) : Respects (EachFile r) (fileclose k f) := by
  refine .bind .get fun s => ?_
  split
  · exact .throw _
  split
  · exact respects_updFile _ fun e => href e _
  refine .bind (respects_updFile _ hclose) fun _ => ?_
  split
  · unfold pipeclose
    have hlast : ∀ p, Respects (EachFile r) (do
        let s ← get
        if (s.pipe p).readopen = false ∧ (s.pipe p).writeopen = false then vm (Vm.kfree k p)
        else return () : Kern Unit) := by
      refine fun p => .bind .get fun s => ?_
      split
      · exact respects_vm _
      · exact .pure _
    split
    · exact .bind (respects_updPipe _ _) fun _ => hlast _
    · exact .bind (respects_updPipe _ _) fun _ => hlast _
  · exact .pure _

theorem respects_sysClose (cur : Fin nproc) (fd : Fin nofile) : Respects (EachFile r) (sysClose k cur fd) := by
  refine .bind .get fun s => ?_
  split
  · exact .pure _
  · exact .bind (respects_updProc _ _) fun _ => .bind (respects_fileclose href hclose _) fun _ => .pure _

theorem respects_closeFiles (cur : Fin nproc) (fds : List (Fin nofile)) :
    Respects (EachFile r) (closeFiles k cur fds) := by
  induction fds with
  | nil => exact .pure _
  | cons fd rest ih =>
    refine .bind .get fun s => ?_
    split
    · exact ih
    · exact .bind (respects_fileclose href hclose _) fun _ => .bind (respects_updProc _ _) fun _ => ih

theorem respects_exit (cur : Fin nproc) : Respects (EachFile r) (exit k cur) := by
  refine .bind .get fun s => ?_
  split
  · exact .throw _
  · exact .bind (respects_closeFiles href hclose _ _) fun _ => .bind (respects_of_file fun _ => rfl) fun _ =>
      respects_updProc _ _

end Close
end Ref
end Respects

end X86OsDev.Xv6.Pages
