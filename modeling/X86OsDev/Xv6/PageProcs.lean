import X86OsDev.Xv6.PageCalls

/-! # The calls on processes keep the partition -/
namespace X86OsDev.Xv6.Pages
open Memory Fault Counting

variable {k : Kernel} {s s' : Sys} {cur p : Fin nproc}

/-- The pages that are neither free nor part of an address space. -/
def rawAt (s : Sys) (p : Fin nproc) : Multiset ℕ := (s.proc p).stack + (restStacks s p + pipeBuffers s)

theorem Proc.dir_space {pr : Proc} (h : pr.HasSpace) : pr.dir = {pr.pgdir} := if_pos h

theorem Proc.dir_none {pr : Proc} (h : ¬ pr.HasSpace) : pr.dir = 0 := if_neg h

theorem hasSpace_live (h : (s.proc p).state = .live) : (s.proc p).HasSpace := .inl h

theorem PageInv.at_space (h : PageInv k s) (hp : (s.proc p).HasSpace) :
    Owns k (allPages k) s.mach ((s.proc p).pgdir ::ₘ restDirs s p) (rawAt s p) := by
  have := h.at_proc p
  rwa [Proc.dir_space hp, Multiset.singleton_add] at this

/-! ## One process gets another address space -/

/-- The state in which a process has another address space. -/
def withSpace (s : Sys) (m : Machine) (p : Fin nproc) (d sz : ℕ) : Sys :=
  { s with
    mach := m
    proc := Function.update s.proc p { s.proc p with pgdir := d, sz := sz } }

theorem Inv.withSpace (h : Inv k s) (hcur : (s.proc cur).state = .live) {m : Machine} {d sz : ℕ}
    (hown : Owns k (allPages k) m (d ::ₘ restDirs s cur) (rawAt s cur))
    (hkeep : Keeps s.mach.mem m.mem (restDirs s cur)) (hsp : Space m.mem d sz) :
    Inv k (withSpace s m cur d sz) := by
  have hproc : (Pages.withSpace s m cur d sz).proc cur = { s.proc cur with pgdir := d, sz := sz } :=
    Function.update_self ..
  have hother : ∀ q ≠ cur, (Pages.withSpace s m cur d sz).proc q = s.proc q := fun q hq =>
    Function.update_of_ne hq ..
  have hspace : ((Pages.withSpace s m cur d sz).proc cur).HasSpace := by
    rw [hproc]
    exact .inl hcur
  have hstack : ((Pages.withSpace s m cur d sz).proc cur).stack = (s.proc cur).stack := by
    rw [hproc]
    rfl
  have hofile : ∀ q, ((Pages.withSpace s m cur d sz).proc q).ofile = (s.proc q).ofile := by
    intro q
    by_cases hq : q = cur
    · subst hq
      rw [hproc]
    · rw [hother q hq]
  refine ⟨?_,?_,fun q hq fd => ?_⟩
  · refine h.pages.replace cur rfl rfl (fun q hq => by rw [hother q hq]) ?_ hkeep fun _ => ?_
    · rw [Proc.dir_space hspace, hstack, hproc, Multiset.singleton_add]
      exact hown
    · rw [hproc]
      exact hsp
  · rw [count_congr hofile]
    exact h.files.of_same rfl rfl
  · rw [hofile]
    by_cases hqc : q = cur
    · subst hqc
      rw [hproc] at hq
      exact absurd hcur hq
    · rw [hother q hqc] at hq
      exact h.closed q hq fd

theorem withSpace_self (s : Sys) (m : Machine) (p : Fin nproc) :
    withSpace s m p (s.proc p).pgdir (s.proc p).sz = { s with mach := m } := by
  unfold withSpace
  rw [Function.update_eq_self]

theorem growproc_inv (h : Inv k s) (hcur : (s.proc cur).state = .live) {n : BitVec 32}
    (hneg : n.toInt < 0 → u32 ((s.proc cur).sz + n.toNat) ≠ 0) :
    ∃ r s', growproc k cur n s = .ok (r,s') ∧ Inv k s' := by
  have hspace := hasSpace_live hcur
  have hown := h.pages.at_space hspace
  have hsp := h.pages.spaces cur hspace
  unfold growproc
  rw [bind_ok get_ok]
  split
  · obtain ⟨r,m,hrun,hown',hkeep,hres⟩ := hown.allocuvm hsp (u32 ((s.proc cur).sz + n.toNat))
    rw [bind_ok (vm_ok hrun)]
    by_cases hr : r = 0
    · rw [if_pos hr]
      have hsp' : Space m.mem (s.proc cur).pgdir (s.proc cur).sz := by
        rcases hres with ⟨-,hsp'⟩ | hsp'
        · exact hsp'
        · have := hsp'.pos
          omega
      refine ⟨false,_,rfl,?_⟩
      rw [← withSpace_self s m cur]
      exact h.withSpace hcur hown' hkeep hsp'
    · rw [if_neg hr]
      rcases hres with ⟨hr',-⟩ | hsp'
      · exact absurd hr' hr
      · exact ⟨true,_,rfl,h.withSpace hcur hown' hkeep hsp'⟩
  · split
    · rename_i hlt
      obtain ⟨r,m,hrun,hown',hkeep,hsp'⟩ := hown.deallocuvm hsp (hneg hlt)
      have hpos := hsp'.pos
      rw [bind_ok (vm_ok hrun), if_neg (by omega)]
      exact ⟨true,_,rfl,h.withSpace hcur hown' hkeep hsp'⟩
    · exact ⟨true,s,rfl,h⟩

theorem exec_inv (h : Inv k s) (hcur : (s.proc cur).state = .live) {ip : Option File}
    {argv : List (List UInt8)}
    (hlen : ∀ a ∈ argv, a.length + 1 < 0x80000000) (hgap : ∀ f ∈ ip, ¬ HitsGap f.stackTop 0 argv) :
    ∃ r s', exec k cur ip argv s = .ok (r,s') ∧ Inv k s' := by
  have hspace := hasSpace_live hcur
  have hsp := h.pages.spaces cur hspace
  unfold exec
  cases ip with
  | none => exact ⟨false,s,rfl,h⟩
  | some f =>
    dsimp only
    rw [bind_ok get_ok]
    rcases (h.pages.at_space hspace).exec hlen (hgap f rfl) with
      ⟨m,hrun,hown,hkeep⟩ | ⟨im,m,hrun,hown,hkeep,hsp'⟩
    · rw [bind_ok (vm_ok hrun)]
      refine ⟨false,_,rfl,?_⟩
      rw [← withSpace_self s m cur]
      exact h.withSpace hcur hown (fun d hd => hkeep d (Multiset.mem_cons_of_mem hd))
        (hsp.congr (hkeep _ (Multiset.mem_cons_self _ _)))
    · rw [bind_ok (vm_ok hrun)]
      exact ⟨true,_,rfl,h.withSpace hcur hown hkeep hsp'⟩

/-- A store of the user program changes no mapping. -/
theorem userStore_inv (h : Inv k s) (hcur : (s.proc cur).state = .live) (addr : BitVec 32) (b : UInt8) :
    ∃ s', userStore cur addr b s = .ok ((),s') ∧ Inv k s' := by
  have hspace := hasSpace_live hcur
  have hown := h.pages.at_space hspace
  have hsp := h.pages.spaces cur hspace
  have hva : addr.toNat < 2 ^ 32 := addr.isLt
  unfold userStore
  rw [bind_ok get_ok]
  cases hpd : present (pde s.mach.mem (s.proc cur).pgdir (pdx addr.toNat)) with
  | false =>
    rw [bind_ok (vm_ok (Vm.walkpgdir_miss hpd))]
    exact ⟨s,rfl,h⟩
  | true =>
    rw [bind_ok (vm_ok (Vm.walkpgdir_hit hpd false))]
    dsimp only
    rw [bind_ok (vm_ok (Vm.load_ok _ _)), load_entryAddr hpd]
    dsimp only
    split
    · rename_i hpu
      have hlow : addr.toNat < 0x80000000 := by
        by_contra hc
        rw [hsp.kernel.noUser addr.toNat (by omega) hva] at hpu
        cases hpu.2
      have hdir := hown.dir
      have hch : ChangedIn s.mach.mem (fill s.mach.mem
          (p2v (pteAddr (pteOf s.mach.mem (s.proc cur).pgdir addr.toNat)) + addr.toNat % 4096) 1 b)
          (p2v (pteAddr (pteOf s.mach.mem (s.proc cur).pgdir addr.toNat))) 4096 :=
        (ChangedIn.of_sameOn fun _ _ => fill_sameOn _).mono (by omega) (by omega)
      obtain ⟨h1,h2,h3,h4⟩ := hdir.writeUser (mem_userPages hlow hpu.1) hch
      obtain ⟨hown',hkeep⟩ := Owns.of_dir h1 h2
      rw [vm_ok (Vm.memset_ok _ _ _ _)]
      refine ⟨_,rfl,?_⟩
      dsimp only
      rw [← withSpace_self s _ cur]
      exact h.withSpace hcur hown' hkeep (hsp.congr ⟨h3,h4⟩)
    · exact ⟨s,rfl,h⟩

/-! ## `exit` and `wait` -/

theorem exit_inv (h : Inv k s) (hcur : (s.proc cur).state = .live) (hinit : cur ≠ s.initproc) :
    ∃ s', exit k cur s = .ok ((),s') ∧ Inv k s' ∧ Recycles s s' := by
  obtain ⟨s1,hrun1,h1,-,hcore1,hnone1,-,hrec1⟩ := closeFiles_inv (k := k) (List.finRange nofile) s h
  have hcur1 : (s1.proc cur).state = .live := by
    rw [Proc.state_of_core (hcore1 cur), hcur]
  unfold exit
  rw [bind_ok get_ok, if_neg hinit, bind_ok hrun1, bind_ok (modify_ok _), updProc_ok]
  refine ⟨_,rfl,?_,hrec1.trans (.of_same rfl rfl)⟩
  -- all processes but `cur` keep their pages, and `cur` keeps them as a zombie
  generalize hproc : (fun p => if (s1.proc p).parent = some cur then
    { s1.proc p with parent := some s1.initproc } else s1.proc p) = proc2
  have hsame : ∀ q, (proc2 q).core = (s1.proc q).core ∧ (proc2 q).ofile = (s1.proc q).ofile := by
    intro q
    subst hproc
    dsimp only
    split <;> exact ⟨rfl,rfl⟩
  dsimp only
  have hself : Function.update proc2 cur { proc2 cur with state := .zombie } cur =
      { proc2 cur with state := .zombie } := Function.update_self ..
  have hother : ∀ q ≠ cur, Function.update proc2 cur { proc2 cur with state := .zombie } q = proc2 q :=
    fun q hq => Function.update_of_ne hq ..
  have hofile : ∀ q, (Function.update proc2 cur { proc2 cur with state := .zombie } q).ofile =
      (s1.proc q).ofile := by
    intro q
    by_cases hq : q = cur
    · subst hq
      rw [hself]
      exact (hsame q).2
    · rw [hother q hq]
      exact (hsame q).2
  have hc := (hsame cur).1
  simp only [Proc.core, Prod.mk.injEq] at hc
  obtain ⟨-,hks,hpg,hsz⟩ := hc
  have hown := h1.pages.at_space (hasSpace_live hcur1)
  refine ⟨?_,?_,fun q hq fd => ?_⟩
  · refine h1.pages.replace cur rfl rfl (fun q hq => ?_) ?_ (.refl _ _) fun _ => ?_
    · dsimp only
      rw [hother q hq]
      exact (hsame q).1
    · dsimp only
      rw [hself, Proc.dir_space (.inr rfl), Multiset.singleton_add]
      unfold Proc.stack
      rw [if_neg (by simp), hks, hpg]
      unfold rawAt Proc.stack at hown
      rw [if_neg (by rw [hcur1]; simp)] at hown
      exact hown
    · dsimp only
      rw [hself, hpg, hsz]
      exact h1.pages.spaces cur (hasSpace_live hcur1)
  · rw [count_congr (s := s1) hofile]
    exact h1.files.of_same rfl rfl
  · dsimp only
    rw [hofile]
    by_cases hqc : q = cur
    · subst hqc
      exact hnone1 fd (List.mem_finRange fd)
    · dsimp only at hq
      rw [hother q hqc, Proc.state_of_core (hsame q).1] at hq
      exact h1.closed q hq fd

/-- A slot becomes unused: its pages are free by now. -/
theorem Inv.clear (h : Inv k s) (hp : (s.proc p).state ≠ .live) {m : Machine} {pr : Proc}
    (hst : pr.state = .unused) (hof : pr.ofile = (s.proc p).ofile)
    (hown : Owns k (allPages k) m (restDirs s p) (restStacks s p + pipeBuffers s))
    (hkeep : Keeps s.mach.mem m.mem (restDirs s p)) :
    Inv k { s with mach := m, proc := Function.update s.proc p pr } := by
  have hself : Function.update s.proc p pr p = pr := Function.update_self ..
  have hother : ∀ q ≠ p, Function.update s.proc p pr q = s.proc q := fun q hq => Function.update_of_ne hq ..
  have hno : ¬ pr.HasSpace := by
    unfold Proc.HasSpace
    simp [hst]
  have hofile : ∀ q, (Function.update s.proc p pr q).ofile = (s.proc q).ofile := by
    intro q
    by_cases hq : q = p
    · subst hq
      rw [hself, hof]
    · rw [hother q hq]
  refine ⟨?_,?_,fun q hq fd => ?_⟩
  · refine h.pages.replace p rfl rfl (fun q hq => ?_) ?_ hkeep fun hc => ?_
    · dsimp only
      rw [hother q hq]
    · dsimp only
      unfold Proc.stack
      rw [hself, Proc.dir_none hno, if_pos hst, zero_add, zero_add]
      exact hown
    · dsimp only at hc
      rw [hself] at hc
      exact absurd hc hno
  · rw [count_congr (s := s) hofile]
    exact h.files.of_same rfl rfl
  · dsimp only
    rw [hofile]
    by_cases hqp : q = p
    · subst hqp
      exact h.closed q hp fd
    · dsimp only at hq
      rw [hother q hqp] at hq
      exact h.closed q hq fd

theorem wait_inv (h : Inv k s) : ∃ r s', wait k cur s = .ok (r,s') ∧ Inv k s' := by
  unfold wait
  rw [bind_ok get_ok]
  cases hfirst : first (fun p => decide ((s.proc p).parent = some cur ∧ (s.proc p).state = .zombie)) with
  | none => exact ⟨none,s,rfl,h⟩
  | some p =>
    have hz := (of_decide_eq_true (first_spec hfirst)).2
    have hown := h.pages.at_space (p := p) (.inr hz)
    unfold rawAt Proc.stack at hown
    rw [if_neg (by rw [hz]; simp)] at hown
    obtain ⟨m1,hrun1,hown1,hkeep1⟩ := hown.kfree
    obtain ⟨m2,hrun2,hown2,hkeep2⟩ := hown1.freevm
    dsimp only
    rw [bind_ok (vm_ok hrun1), bind_ok (updProc_ok _ _ _)]
    rw [bind_ok (vm_ok (s := { s with mach := m1, proc := Function.update s.proc p _ }) hrun2)]
    rw [bind_ok (updProc_ok _ _ _)]
    dsimp only
    rw [Function.update_idem, Function.update_self]
    refine ⟨some p,_,rfl,h.clear (p := p) (by rw [hz]; simp) rfl rfl hown2 ?_⟩
    exact fun d hd => (hkeep1 d (Multiset.mem_cons_of_mem hd)).trans (hkeep2 d hd)

/-! ## `fork` -/

/-- `allocproc`: no slot, or a slot with a stack. -/
theorem allocproc_spec (h : Inv k s) :
    (∃ s', allocproc s = .ok (none,s') ∧ Inv k s' ∧
      ((∀ p, (s.proc p).state ≠ .unused) ∨ s.mach.freelist = [])) ∨
    ∃ p s', allocproc s = .ok (some p,s') ∧ Inv k s' ∧ (s'.proc p).state = .embryo ∧
      (s.proc p).state = .unused ∧ (∀ q ≠ p, s'.proc q = s.proc q) ∧ s'.mach.mem = s.mach.mem ∧
      s'.mach.freelist.length + 1 = s.mach.freelist.length ∧ s'.kpgdir = s.kpgdir := by
  unfold allocproc
  rw [bind_ok get_ok]
  cases hfirst : first (fun p => decide ((s.proc p).state = .unused)) with
  | none =>
    refine .inl ⟨s,rfl,h,.inl fun p hp => ?_⟩
    have := List.find?_eq_none.mp hfirst p (List.mem_finRange p)
    simp [hp] at this
  | some p =>
    have hu := of_decide_eq_true (first_spec hfirst)
    have hno : ¬ (s.proc p).HasSpace := by
      unfold Proc.HasSpace
      simp [hu]
    have hown := h.pages.at_proc p
    unfold Proc.stack at hown
    rw [Proc.dir_none hno, if_pos hu, zero_add, zero_add] at hown
    dsimp only
    rw [bind_ok (updProc_ok _ _ _)]
    rcases hown.kalloc with ⟨hrun,hempty⟩ | ⟨ks,m,hrun,hmem,hown',hlen⟩
    · rw [bind_ok (vm_ok (s := { s with proc := Function.update s.proc p _ }) hrun)]
      dsimp only
      rw [bind_ok (updProc_ok _ _ _)]
      dsimp only
      rw [Function.update_idem, Function.update_self]
      exact .inl ⟨_,rfl,h.clear (by rw [hu]; simp) rfl rfl hown (.refl _ _),.inr hempty⟩
    · rw [bind_ok (vm_ok (s := { s with proc := Function.update s.proc p _ }) hrun)]
      dsimp only
      rw [bind_ok (updProc_ok _ _ _)]
      dsimp only
      rw [Function.update_idem, Function.update_self]
      have hself : ∀ pr : Proc, Function.update s.proc p pr p = pr := fun pr => Function.update_self ..
      have hother : ∀ (pr : Proc), ∀ q ≠ p, Function.update s.proc p pr q = s.proc q :=
        fun pr q hq => Function.update_of_ne hq ..
      refine .inr ⟨p,_,rfl,⟨?_,?_,fun q hq fd => ?_⟩,by dsimp only; rw [hself],hu,hother _,hmem,hlen,rfl⟩
      · refine h.pages.replace p rfl rfl (fun q hq => ?_) ?_ ?_ fun hc => ?_
        · dsimp only
          rw [hother _ q hq]
        · dsimp only
          rw [hself, Proc.dir_none (by simp [Proc.HasSpace]), zero_add]
          exact hown'
        · dsimp only
          rw [hmem]
          exact .refl _ _
        · dsimp only at hc
          rw [hself] at hc
          simp [Proc.HasSpace] at hc
      · rw [count_congr (s := s) fun q => by
          by_cases hq : q = p
          · subst hq
            dsimp only
            rw [hself]
          · dsimp only
            rw [hother _ q hq]]
        exact h.files.of_same rfl rfl
      · by_cases hqp : q = p
        · subst hqp
          dsimp only
          rw [hself]
          exact h.closed q (by rw [hu]; simp) fd
        · dsimp only at hq ⊢
          rw [hother _ q hqp] at hq ⊢
          exact h.closed q hq fd

/-- The slot of the new process gets its address space and its files. -/
theorem Inv.spawn (h : Inv k s) {np : Fin nproc} (hemb : (s.proc np).state = .embryo) {m : Machine} {d sz : ℕ}
    (hown : Owns k (allPages k) m (d ::ₘ restDirs s np) (rawAt s np))
    (hkeep : Keeps s.mach.mem m.mem (restDirs s np)) (hsp : Space m.mem d sz)
    (hm : s'.mach = m) (hk : s'.kpgdir = s.kpgdir) (hcpu : s'.cpuStacks = s.cpuStacks)
    (hbuf : pipeBuffers s' = pipeBuffers s) (hf : FileInv (count s') s')
    (hnp : (s'.proc np).core = (.live,(s.proc np).kstack,d,sz)) (hother : ∀ q ≠ np, s'.proc q = s.proc q) :
    Inv k s' := by
  simp only [Proc.core, Prod.mk.injEq] at hnp
  obtain ⟨hst,hks,hpg,hsz⟩ := hnp
  refine ⟨?_,hf,fun q hq fd => ?_⟩
  · refine h.pages.replace np hk hcpu (fun q hq => by rw [hother q hq]) ?_ (by rw [hm]; exact hkeep) fun _ => ?_
    · unfold rawAt Proc.stack at hown
      rw [if_neg (by rw [hemb]; simp)] at hown
      unfold Proc.stack
      rw [Proc.dir_space (.inl hst), if_neg (by rw [hst]; simp), hm, hpg, hks, hbuf, Multiset.singleton_add]
      exact hown
    · rw [hm, hpg, hsz]
      exact hsp
  · by_cases hqp : q = np
    · subst hqp
      exact absurd hst hq
    · rw [hother q hqp] at hq ⊢
      exact h.closed q hq fd

theorem fork_inv (h : Inv k s) (hcur : (s.proc cur).state = .live) :
    ∃ r s', fork k cur s = .ok (r,s') ∧ Inv k s' := by
  unfold fork
  rcases allocproc_spec h with ⟨s1,hrun1,h1,-⟩ | ⟨np,s1,hrun1,h1,hemb,hu,hother1,-,-,-⟩
  · rw [bind_ok hrun1]
    exact ⟨none,s1,rfl,h1⟩
  have hne : cur ≠ np := by
    rintro rfl
    rw [hu] at hcur
    cases hcur
  have hcur1 : (s1.proc cur).state = .live := by rw [hother1 cur hne, hcur]
  have hno : ¬ (s1.proc np).HasSpace := by simp [Proc.HasSpace,hemb]
  have hown := h1.pages.at_proc np
  rw [Proc.dir_none hno, zero_add] at hown
  have hspace := hasSpace_live hcur1
  rw [bind_ok hrun1]
  dsimp only
  rw [bind_ok get_ok]
  rcases hown.copyuvm (mem_restDirs hne hspace) (h1.pages.spaces cur hspace) with
    ⟨m,hrun,hown2,hkeep2⟩ | ⟨d,m,hrun,hown2,hkeep2,hsp2⟩
  · rw [bind_ok (vm_ok hrun)]
    dsimp only
    unfold Proc.stack at hown2
    rw [if_neg (by rw [hemb]; simp)] at hown2
    obtain ⟨m3,hrun3,hown3,hkeep3⟩ := hown2.kfree
    rw [bind_ok (vm_ok (s := { s1 with mach := m }) hrun3), bind_ok (updProc_ok _ _ _)]
    exact ⟨none,_,rfl,h1.clear (by rw [hemb]; simp) rfl rfl hown3 (hkeep2.trans hkeep3)⟩
  · rw [bind_ok (vm_ok hrun)]
    dsimp only
    rw [bind_ok (updProc_ok _ _ _)]
    dsimp only
    generalize hpr : ({ s1.proc np with pgdir := d, sz := (s1.proc cur).sz, parent := some cur } : Proc) = pr
    have hofile : pr.ofile = (s1.proc np).ofile := by rw [← hpr]
    have hcore : pr.core = (.embryo,(s1.proc np).kstack,d,(s1.proc cur).sz) := by
      rw [← hpr, ← hemb]
      rfl
    have hself : Function.update s1.proc np pr np = pr := Function.update_self ..
    have hother2 : ∀ q ≠ np, Function.update s1.proc np pr q = s1.proc q := fun q hq => Function.update_of_ne hq ..
    have hcount : count { s1 with mach := m, proc := Function.update s1.proc np pr } = count s1 :=
      count_congr fun q => by
        by_cases hq : q = np
        · subst hq
          dsimp only
          rw [hself, hofile]
        · dsimp only
          rw [hother2 q hq]
    obtain ⟨s3,hrun3,hf3,hm3,hk3,hcpu3,hbuf3,hcore3,hother3⟩ := dupFiles_spec
      (List.finRange nofile) { s1 with mach := m, proc := Function.update s1.proc np pr }
      (by rw [hcount]; exact h1.files.of_same rfl rfl) (List.nodup_finRange _) fun fd _ => by
        dsimp only
        rw [hself, hofile]
        exact h1.closed np (by rw [hemb]; simp) fd
    rw [bind_ok hrun3, bind_ok (updProc_ok _ _ _)]
    refine ⟨some np,_,rfl,h1.spawn hemb hown2 hkeep2 hsp2 hm3 hk3 hcpu3 hbuf3 ?_ ?_ fun q hq => ?_⟩
    · rw [count_congr (s := s3) fun q => by
        by_cases hq : q = np
        · subst hq
          dsimp only
          rw [Function.update_self]
        · dsimp only
          rw [Function.update_of_ne hq]]
      exact hf3.of_same rfl rfl
    · have hnp := hcore3 np
      dsimp only at hnp ⊢
      rw [hself, hcore] at hnp
      rw [Function.update_self]
      simp only [Proc.core, Prod.mk.injEq] at hnp ⊢
      exact ⟨trivial,hnp.2⟩
    · dsimp only
      rw [Function.update_of_ne hq, hother3 q hq]
      exact hother2 q hq

end X86OsDev.Xv6.Pages
