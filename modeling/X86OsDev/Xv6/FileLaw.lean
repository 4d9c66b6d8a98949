import X86OsDev.Xv6.FileTable

/-! # The law of the file table

Along every sequence of calls the counts of the entries are those of the
descriptors, and the page of a pipe is given back with its last end.
-/
namespace X86OsDev.Xv6.Pages
open Memory Fault Counting Transition

variable {k : Kernel} {s s' : Sys}

/-! ## The two ends of a pipe -/

/-- The entry of a pipe is for reading or for writing, not both. -/
def OpenFile.OneWay (e : OpenFile) : Prop := e.type = .pipe → e.readable = !e.writable

/-- Entries that were one way stay so. -/
def StaysOneWay (e e' : OpenFile) : Prop := e.OneWay → e'.OneWay

/-- An entry is the same end of the same pipe. -/
def SameEnd (e e' : OpenFile) : Prop := e'.type = e.type ∧ e'.pipe = e.pipe

instance : IsPreorder OpenFile StaysOneWay where
  refl _ h := h
  trans _ _ _ h h' := h' ∘ h

instance : IsPreorder OpenFile SameEnd where
  refl _ := ⟨rfl,rfl⟩
  trans _ _ _ h h' := ⟨h'.1.trans h.1,h'.2.trans h.2⟩

theorem staysOneWay_ref (e : OpenFile) (n : ℕ) : StaysOneWay e { e with ref := n } := id

theorem staysOneWay_close (e : OpenFile) : StaysOneWay e { e with ref := 0, type := .none } :=
  fun _ hc => by cases hc

theorem respects_pipealloc : Respects (EachFile StaysOneWay) (pipealloc k) := by
  have hclose := @respects_fileclose k _ _ staysOneWay_ref staysOneWay_close
  refine .bind (respects_filealloc staysOneWay_ref) fun x => ?_
  cases x with
  | none => exact .pure _
  | some f0 =>
    refine .bind (respects_filealloc staysOneWay_ref) fun y => ?_
    cases y with
    | none => exact .bind (hclose f0) fun _ => .pure _
    | some f1 =>
      refine .bind (respects_vm _) fun z => ?_
      cases z with
      | none => exact .bind (hclose f0) fun _ => .bind (hclose f1) fun _ => .pure _
      | some p =>
        exact .bind (respects_updPipe _ _) fun _ => .bind (respects_updFile _ fun _ _ _ => rfl) fun _ =>
          .bind (respects_updFile _ fun _ _ _ => rfl) fun _ => .pure _

theorem respects_sysPipe (cur : Fin nproc) : Respects (EachFile StaysOneWay) (sysPipe k cur) := by
  have hclose := @respects_fileclose k _ _ staysOneWay_ref staysOneWay_close
  refine .bind respects_pipealloc fun x => ?_
  match x with
  | none => exact .pure _
  | some (rf,wf) =>
    refine .bind (respects_fdalloc _ _) fun y => ?_
    cases y with
    | none => exact .bind (hclose rf) fun _ => .bind (hclose wf) fun _ => .pure _
    | some fd0 =>
      refine .bind (respects_fdalloc _ _) fun z => ?_
      cases z with
      | none =>
        exact .bind (respects_updProc _ _) fun _ => .bind (hclose rf) fun _ => .bind (hclose wf) fun _ => .pure _
      | some fd1 => exact .pure _

theorem respects_sysOpen (cur : Fin nproc) (found : Bool) (omode : BitVec 32) :
    Respects (EachFile StaysOneWay) (sysOpen k cur found omode) := by
  unfold sysOpen
  split
  · refine .bind (respects_filealloc staysOneWay_ref) fun x => ?_
    cases x with
    | none => exact .pure _
    | some f =>
      refine .bind (respects_fdalloc _ _) fun y => ?_
      cases y with
      | none => exact .bind (respects_fileclose staysOneWay_ref staysOneWay_close f) fun _ => .pure _
      | some fd => exact .bind (respects_updFile _ fun _ _ hc => by cases hc) fun _ => .pure _
  · exact .pure _

/-! ## Runs -/

/-- The calls on open files. A call with a descriptor out of range returns -1 and does nothing. -/
inductive Call
  | sysOpen (cur : Fin nproc) (found : Bool) (omode : BitVec 32)
  | sysClose (cur : Fin nproc) (fd : Fin nofile)
  | sysDup (cur : Fin nproc) (fd : Fin nofile)
  | sysPipe (cur : Fin nproc)
  | fork (cur : Fin nproc)
  | exit (cur : Fin nproc)
  | wait (cur : Fin nproc)

def Call.cur : Call → Fin nproc
  | .sysOpen p _ _ => p
  | .sysClose p _ => p
  | .sysDup p _ => p
  | .sysPipe p => p
  | .fork p => p
  | .exit p => p
  | .wait p => p

variable (k) in
def Call.run : Call → Kern Unit
  | .sysOpen p found omode => do let _ ← Pages.sysOpen k p found omode
  | .sysClose p fd => do let _ ← Pages.sysClose k p fd
  | .sysDup p fd => do let _ ← Pages.sysDup p fd
  | .sysPipe p => do let _ ← Pages.sysPipe k p
  | .fork p => do let _ ← Pages.fork k p
  | .exit p => Pages.exit k p
  | .wait p => do let _ ← Pages.wait k p

/-- A live process makes the call, and init does not exit. -/
def Call.Allowed (c : Call) (s : Sys) : Prop :=
  (s.proc c.cur).state = .live ∧ ∀ p, c = .exit p → p ≠ s.initproc

def CallStep (k : Kernel) (s : Sys) (c : Call) (s' : Sys) : Prop := c.Allowed s ∧ c.run k s = .ok ((),s')

abbrev CallReached (k : Kernel) (s : Sys) : Prop := Reachable (Booted k) (CallStep k) s

/-- A call returns, it keeps the invariant, and it loses the page of no pipe. -/
theorem Call.run_inv (h : Inv k s) {c : Call} (hc : c.Allowed s) :
    ∃ s', c.run k s = .ok ((),s') ∧ Inv k s' ∧ PipesKept s s' := by
  obtain ⟨hcur,hinit⟩ := hc
  have hdrop : ∀ {α : Type} {x : Kern α}, (∃ r s', x s = .ok (r,s') ∧ Inv k s' ∧ PipesKept s s') →
      ∃ s', (do let _ ← x : Kern Unit) s = .ok ((),s') ∧ Inv k s' ∧ PipesKept s s' := by
    rintro α x ⟨r,s',hrun,h'⟩
    exact ⟨s',(bind_ok hrun).trans rfl,h'⟩
  have hsame : ∀ {α : Type} {x : Kern α}, Respects (EachFile SameEnd) x →
      (∃ r s', x s = .ok (r,s') ∧ Inv k s') → ∃ r s', x s = .ok (r,s') ∧ Inv k s' ∧ PipesKept s s' := by
    rintro α x hx ⟨r,s',hrun,h'⟩
    exact ⟨r,s',hrun,h',.of_eq (pipeBuffers_of_file (hx s r s' hrun))⟩
  have hkept : ∀ {s'}, Recycles s s' → PipesKept s s' := fun hrec pg hpg => hrec pg (.inl hpg)
  have href : ∀ e n, SameEnd e { e with ref := n } := fun _ _ => ⟨rfl,rfl⟩
  cases c with
  | sysOpen cur found omode => exact hdrop (sysOpen_inv h hcur found omode)
  | sysClose cur fd =>
    obtain ⟨r,s',hrun,h',hrec⟩ := @sysClose_inv _ _ cur fd h
    exact hdrop ⟨r,s',hrun,h',hkept hrec⟩
  | sysDup cur fd => exact hdrop (hsame (respects_sysDup href cur fd) (sysDup_inv h hcur))
  | sysPipe cur => exact hdrop (sysPipe_inv h hcur)
  | fork cur => exact hdrop (hsame (respects_fork href cur) (fork_inv h hcur))
  | exit cur =>
    obtain ⟨s',hrun,h',hrec⟩ := exit_inv h hcur (hinit cur rfl)
    exact ⟨s',hrun,h',hkept hrec⟩
  | wait cur => exact hdrop (hsame (respects_wait cur) (wait_inv h))

theorem Call.respects_run (c : Call) : Respects (EachFile StaysOneWay) (c.run k) := by
  have hdrop : ∀ {α : Type} {x : Kern α}, Respects (EachFile StaysOneWay) x →
      Respects (EachFile StaysOneWay) (do let _ ← x : Kern Unit) := fun hx => .bind hx fun _ => .pure _
  cases c with
  | sysOpen cur found omode => exact hdrop (respects_sysOpen cur found omode)
  | sysClose cur fd => exact hdrop (respects_sysClose staysOneWay_ref staysOneWay_close cur fd)
  | sysDup cur fd => exact hdrop (respects_sysDup staysOneWay_ref cur fd)
  | sysPipe cur => exact hdrop (respects_sysPipe cur)
  | fork cur => exact hdrop (respects_fork staysOneWay_ref cur)
  | exit cur => exact respects_exit staysOneWay_ref staysOneWay_close cur
  | wait cur => exact hdrop (respects_wait cur)

theorem callReached_inv (h : CallReached k s) : Inv k s ∧ ∀ f, (s.file f).OneWay := by
  refine h.invariant (I := fun s => Inv k s ∧ ∀ f, (s.file f).OneWay)
    (fun s hs => ⟨booted_inv hs,fun f => ?_⟩) fun s c t hs hstep => ?_
  · obtain ⟨n,init,m,hrun⟩ := hs
    exact respects_main (r := StaysOneWay) n init _ _ _ hrun f fun hc => by cases hc
  · obtain ⟨t',hrun,ht',-⟩ := Call.run_inv hs.1 hstep.1
    rw [hstep.2] at hrun
    cases hrun
    exact ⟨ht',fun f => c.respects_run s () t hstep.2 f (hs.2 f)⟩

/-! ## The law of the file table -/

/-- An entry with references that is an end of the pipe in a page. -/
def EndOf (s : Sys) (pg : ℕ) (f : Fin nfile) : Prop :=
  0 < (s.file f).ref ∧ (s.file f).type = .pipe ∧ (s.file f).pipe = pg

/-- The counts are those of the descriptors, and a pipe is open where an entry is. -/
structure Counted (s : Sys) : Prop where
  ref : ∀ f, (s.file f).ref = count s f
  free : ∀ f, (s.file f).ref = 0 → (s.file f).type = .none ∧ ∀ p fd, (s.proc p).ofile fd ≠ some f
  unused : ∀ p, (s.proc p).state = .unused → ∀ fd, (s.proc p).ofile fd = none
  readopen : ∀ pg ∈ pipeBuffers s, (s.pipe pg).readopen = true ↔ ∃ f, EndOf s pg f ∧ (s.file f).readable = true
  writeopen : ∀ pg ∈ pipeBuffers s, (s.pipe pg).writeopen = true ↔ ∃ f, EndOf s pg f ∧ (s.file f).writable = true

/-- What becomes of the page of a pipe: an end is open and it is in use, or none is and it was
given back once. -/
def FreedLast (s : Sys) (pg : ℕ) : Prop :=
  ((∃ f, EndOf s pg f) ∧ pg ∉ s.mach.freelist) ∨ ((¬ ∃ f, EndOf s pg f) ∧ s.mach.freelist.count pg = 1)

theorem Inv.endOf (h : Inv k s) {pg : ℕ} : (∃ f, EndOf s pg f) ↔ pg ∈ pipeBuffers s := by
  rw [mem_pipeBuffers]
  refine exists_congr fun f => ⟨fun hf => hf.2,fun hf => ⟨?_,hf⟩⟩
  by_contra hc
  have ht := h.files.free f (by rw [← h.files.ref f]; omega)
  rw [hf.1] at ht
  cases ht

/-- An end of a pipe is open if and only if an entry of the table is that end. -/
theorem Inv.isOpen_iff (h : Inv k s) {pg : ℕ} (hpg : pg ∈ pipeBuffers s) (w : Bool) :
    (s.pipe pg).isOpen w = true ↔ ∃ f, EndOf s pg f ∧ (s.file f).writable = w := by
  constructor
  · intro hopen
    obtain ⟨f,hf,rfl⟩ := mem_pipeBuffers.mp hpg
    obtain ⟨g,hg1,hg2,hg3⟩ := h.files.entry f w hf hopen
    refine ⟨g,⟨?_,hg1,hg2⟩,hg3⟩
    by_contra hc
    have ht := h.files.free g (by rw [← h.files.ref g]; omega)
    rw [hg1] at ht
    cases ht
  · rintro ⟨f,⟨-,hf,rfl⟩,rfl⟩
    exact h.files.ends f hf

theorem Inv.counted (h : Inv k s) (hway : ∀ f, (s.file f).OneWay) : Counted s := by
  refine ⟨h.files.ref,fun f hf => ⟨h.files.free f (by rw [← h.files.ref f, hf]),fun p fd hfd => ?_⟩,
    fun p hp fd => h.closed p (by rw [hp]; simp) fd,fun pg hpg => ?_,fun pg hpg => h.isOpen_iff hpg true⟩
  · have hpos := count_pos hfd
    rw [← h.files.ref f] at hpos
    omega
  · refine (h.isOpen_iff hpg false).trans (exists_congr fun f => and_congr_right fun hf => ?_)
    have hone := hway f hf.2.1
    rw [hone]
    simp

theorem Inv.pipe_not_free (h : Inv k s) {pg : ℕ} (hpg : pg ∈ pipeBuffers s) : pg ∉ s.mach.freelist := by
  have hnd := h.pages.owns.pool.nodup
  rw [← h.pages.owns.owned, Multiset.nodup_add] at hnd
  intro hfree
  exact Multiset.disjoint_left.mp hnd.2.2 (Multiset.mem_coe.mpr hfree)
    (Multiset.mem_add.mpr (.inr (Multiset.mem_add.mpr (.inr hpg))))

theorem Inv.free_once (h : Inv k s) {pg : ℕ} (hpg : pg ∈ s.mach.freelist) : s.mach.freelist.count pg = 1 := by
  have hnd := h.pages.owns.pool.nodup
  rw [← h.pages.owns.owned, Multiset.nodup_add] at hnd
  exact List.count_eq_one_of_mem (Multiset.coe_nodup.mp hnd.1) hpg

end X86OsDev.Xv6.Pages
