import X86OsDev.Lib.Transition
import X86OsDev.Xv6.PageBoot

/-! # The partition of physical memory

In every state that the kernel reaches, each page that was handed to the
allocator is in one class, and a user page is mapped at one address of one
process.
-/
namespace X86OsDev.Xv6.Pages
open Memory Fault Counting Transition

variable {k : Kernel} {s s' : Sys}

/-- No string of the vector makes the stack pointer of the new image wrap around. -/
def NoWrap (top : ℕ) (argv : List (List UInt8)) : Prop := ∀ t, firstOver 0 argv = some t → t ≤ top

/-- A call that a process may make: the strings of `exec` lie in its memory and do not wrap the
stack pointer, init does not exit, and a process is not shrunk to nothing. -/
def Allowed (s : Sys) (op : Op) : Prop :=
  (s.proc op.cur).state = .live ∧
  match op with
  | .exec cur ip argv => argv.length < maxarg ∧ (∀ a ∈ argv, a.length + 1 ≤ (s.proc cur).sz) ∧
      ∀ f ∈ ip, NoWrap f.stackTop argv
  | .exit cur => cur ≠ s.initproc
  | .sbrk cur n => n.toInt < 0 → u32 ((s.proc cur).sz + n.toNat) ≠ 0
  | _ => True

def Step (k : Kernel) (s : Sys) (op : Op) (s' : Sys) : Prop := Allowed s op ∧ op.run k s = .ok ((),s')

/-- The states that `main` leaves, with any number of processors. -/
def Booted (k : Kernel) (s : Sys) : Prop := ∃ n init m, main k n init (zeroed m) = .ok ((),s)

abbrev Reached (k : Kernel) (s : Sys) : Prop := Reachable (Booted k) (Step k) s

theorem not_hitsGap_of_noWrap {top : ℕ} {argv : List (List UInt8)} (h : NoWrap top argv) :
    ¬ HitsGap top 0 argv := by
  rintro ⟨t,ht,hlow,-⟩
  have := h t ht
  omega

/-- A call returns, and it keeps the invariant. -/
theorem run_inv (h : Inv k s) {op : Op} (hop : Allowed s op) : ∃ s', op.run k s = .ok ((),s') ∧ Inv k s' := by
  obtain ⟨hcur,hop⟩ := hop
  have hdrop : ∀ {α : Type} {x : Kern α}, (∃ r s', x s = .ok (r,s') ∧ Inv k s') →
      ∃ s', (do let _ ← x : Kern Unit) s = .ok ((),s') ∧ Inv k s' := by
    rintro α x ⟨r,s',hrun,h'⟩
    exact ⟨s',(bind_ok hrun).trans rfl,h'⟩
  cases op with
  | fork cur => exact hdrop (fork_inv h hcur)
  | exec cur ip argv =>
    have hlt := (h.pages.spaces cur (hasSpace_live hcur)).lt
    obtain ⟨-,hlen,hwrap⟩ := hop
    exact hdrop (exec_inv h hcur (fun a ha => (hlen a ha).trans_lt hlt)
      fun f hf => not_hitsGap_of_noWrap (hwrap f hf))
  | exit cur =>
    obtain ⟨s',hrun,h',-⟩ := exit_inv h hcur hop
    exact ⟨s',hrun,h'⟩
  | wait cur => exact hdrop (wait_inv h)
  | sbrk cur n => exact hdrop (growproc_inv h hcur hop)
  | pipe cur =>
    obtain ⟨r,s',hrun,h',-⟩ := sysPipe_inv h hcur
    exact hdrop ⟨r,s',hrun,h'⟩
  | close cur fd =>
    obtain ⟨r,s',hrun,h',-⟩ := sysClose_inv h
    exact hdrop ⟨r,s',hrun,h'⟩
  | dup cur fd => exact hdrop (sysDup_inv h hcur)
  | store cur addr b => exact userStore_inv h hcur addr b

theorem booted_inv (h : Booted k s) : Inv k s := by
  obtain ⟨n,init,m,hrun⟩ := h
  rcases main_spec k n init m with ⟨⟨e,he⟩,-⟩ | ⟨s',hrun',h'⟩
  · rw [he] at hrun
    cases hrun
  · rw [hrun'] at hrun
    cases hrun
    exact h'

theorem reached_inv (h : Reached k s) : Inv k s := by
  refine h.invariant (fun s hs => booted_inv hs) fun s op t hs hstep => ?_
  obtain ⟨t',hrun,ht'⟩ := run_inv hs hstep.1
  rw [hstep.2] at hrun
  cases hrun
  exact ht'

/-! ## The classes of pages -/

/-- The page-table pages: the kernel's and those of the processes. -/
def pageTables (s : Sys) : Multiset ℕ :=
  tablePages s.mach.mem s.kpgdir +
    ∑ p, if (s.proc p).HasSpace then tablePages s.mach.mem (s.proc p).pgdir else 0

/-- The user pages of one process. -/
def userPagesAt (s : Sys) (p : Fin nproc) : Multiset ℕ :=
  if (s.proc p).HasSpace then userPages s.mach.mem (s.proc p).pgdir else 0

def allUserPages (s : Sys) : Multiset ℕ := ∑ p, userPagesAt s p

/-- A page is mapped by a process at a page of virtual addresses below `KERNBASE`. -/
def MappedAt (s : Sys) (x : ℕ) (p : Fin nproc) (j : ℕ) : Prop :=
  (s.proc p).HasSpace ∧ 4096 * j < kernbase ∧ present (pteOf s.mach.mem (s.proc p).pgdir (4096 * j)) = true ∧
    p2v (pteAddr (pteOf s.mach.mem (s.proc p).pgdir (4096 * j))) = x

theorem sum_dirs (s : Sys) (g : ℕ → Multiset ℕ) : ((∑ p, (s.proc p).dir).map g).sum =
    ∑ p, if (s.proc p).HasSpace then g (s.proc p).pgdir else 0 := by
  have hmap : ∀ S : Finset (Fin nproc), ((∑ p ∈ S, (s.proc p).dir).map g).sum =
      ∑ p ∈ S, if (s.proc p).HasSpace then g (s.proc p).pgdir else 0 := by
    intro S
    induction S using Finset.induction_on with
    | empty => simp
    | insert p S hp ih =>
      rw [Finset.sum_insert hp, Finset.sum_insert hp, Multiset.map_add, Multiset.sum_add, ih]
      congr 1
      unfold Proc.dir
      split <;> simp
  exact hmap Finset.univ

/-- The kernel's own directory maps no user page. -/
theorem Inv.kernel_userPages (h : Inv k s) : userPages s.mach.mem s.kpgdir = 0 := by
  refine Finset.sum_eq_zero fun j hj => pageOf_absent (Bool.eq_false_iff.mpr fun hc => ?_)
  have := mem_userIndices.mp hj
  exact absurd ((h.pages.kernel.maps (4096 * j) (by omega)).mp hc) (by omega)

/-- All pages of the address spaces, by class. -/
theorem Inv.vm_classes (h : Inv k s) : ((pageDirs s).map (vmPages s.mach.mem)).sum =
    pageDirs s + (pageTables s + allUserPages s) := by
  have hdirs : ∑ p, (s.proc p).dir = ∑ p, if (s.proc p).HasSpace then {(s.proc p).pgdir} else 0 := rfl
  unfold pageDirs pageTables allUserPages userPagesAt
  rw [Multiset.map_cons, Multiset.sum_cons, sum_dirs, hdirs, vmPages, h.kernel_userPages,
    ← Multiset.singleton_add]
  have hsum : ∑ p, (if (s.proc p).HasSpace then vmPages s.mach.mem (s.proc p).pgdir else 0) =
      ∑ p, (if (s.proc p).HasSpace then {(s.proc p).pgdir} else 0) +
        (∑ p, (if (s.proc p).HasSpace then tablePages s.mach.mem (s.proc p).pgdir else 0) +
          ∑ p, if (s.proc p).HasSpace then userPages s.mach.mem (s.proc p).pgdir else 0) := by
    rw [← Finset.sum_add_distrib, ← Finset.sum_add_distrib]
    refine Finset.sum_congr rfl fun p _ => ?_
    split
    · rfl
    · simp
  rw [hsum]
  abel

theorem mem_userPages_iff {m : Mem} {d x : ℕ} : x ∈ userPages m d ↔
    ∃ j, 4096 * j < kernbase ∧ present (pteOf m d (4096 * j)) = true ∧ p2v (pteAddr (pteOf m d (4096 * j))) = x := by
  constructor
  · intro hx
    obtain ⟨j,hj,hxj⟩ := Multiset.mem_sum.mp hx
    have := mem_userIndices.mp hj
    obtain ⟨h1,h2⟩ := mem_pageOf.mp hxj
    exact ⟨j,by unfold kernbase; omega,h1,h2.symm⟩
  · rintro ⟨j,hj,h1,rfl⟩
    exact mem_userPages (by unfold kernbase at hj; omega) h1

/-- A user page has one place. -/
theorem Inv.mapped_once (h : Inv k s) {x : ℕ} (hx : x ∈ allUserPages s) :
    ∃! pj : Fin nproc × ℕ, MappedAt s x pj.1 pj.2 := by
  have hnd : (allUserPages s).Nodup := by
    have hn := h.pages.owns.pool.nodup
    rw [← h.pages.owns.owned, h.vm_classes] at hn
    have h1 := (Multiset.nodup_add.mp (Multiset.nodup_add.mp hn).2.1).1
    exact (Multiset.nodup_add.mp (Multiset.nodup_add.mp h1).2.1).2.1
  have hmem : ∀ p j, MappedAt s x p j → x ∈ userPagesAt s p := by
    rintro p j ⟨hsp,hj,h1,h2⟩
    unfold userPagesAt
    rw [if_pos hsp]
    exact mem_userPages_iff.mpr ⟨j,hj,h1,h2⟩
  obtain ⟨p,hp,hxp⟩ := Multiset.mem_sum.mp hx
  have hxp' := hxp
  unfold userPagesAt at hxp
  split at hxp
  swap
  · simp at hxp
  rename_i hsp
  obtain ⟨j,hj,h1,h2⟩ := mem_userPages_iff.mp hxp
  refine ⟨(p,j),⟨hsp,hj,h1,h2⟩,?_⟩
  rintro ⟨q,i⟩ hqi
  obtain rfl : q = p := eq_of_mem_of_nodup hnd (Finset.mem_univ q) hp (hmem q i hqi) hxp'
  have hndq : (userPages s.mach.mem (s.proc q).pgdir).Nodup := by
    have hle : userPagesAt s q ≤ allUserPages s :=
      Finset.single_le_sum (f := userPagesAt s) (fun _ _ => Multiset.zero_le _) (Finset.mem_univ q)
    unfold userPagesAt at hle
    rw [if_pos hsp] at hle
    exact Multiset.nodup_of_le hle hnd
  obtain ⟨-,hi,h1',h2'⟩ := hqi
  unfold kernbase at hi hj
  obtain rfl : i = j := eq_of_mem_of_nodup hndq (mem_userIndices.mpr (by omega))
    (mem_userIndices.mpr (by omega)) (mem_pageOf.mpr ⟨h1',h2'.symm⟩) (mem_pageOf.mpr ⟨h1,h2.symm⟩)
  rfl

/-- Nothing above `KERNBASE` is open to user programs. -/
theorem Inv.no_user_kernel (h : Inv k s) {d va : ℕ} (hd : d ∈ pageDirs s) (hva : kernbase ≤ va)
    (hlt : va < 2 ^ 32) : user (pteOf s.mach.mem d va) = false := by
  unfold kernbase at hva
  rcases Multiset.mem_cons.mp hd with rfl | hd
  · exact h.pages.kernel.kernel.noUser va hva hlt
  · obtain ⟨p,-,hp⟩ := Multiset.mem_sum.mp hd
    unfold Proc.dir at hp
    split at hp
    · rename_i hsp
      rw [Multiset.mem_singleton.mp hp]
      exact (h.pages.spaces p hsp).kernel.noUser va hva hlt
    · simp at hp

/-- In every reached state the pages of the allocator are partitioned, each user page is
mapped once, the kernel half is closed to user programs, and no call panics. -/
theorem page_partition (h : Reached k s) :
    ((s.mach.freelist : Multiset ℕ) + kernelStacks s + pageDirs s + pageTables s + pipeBuffers s +
      allUserPages s = allPages k ∧ (allPages k).Nodup) ∧
    (∀ x ∈ allUserPages s, ∃! pj : Fin nproc × ℕ, MappedAt s x pj.1 pj.2) ∧
    (∀ d ∈ pageDirs s, ∀ va, kernbase ≤ va → va < 2 ^ 32 → user (pteOf s.mach.mem d va) = false) ∧
    ∀ op, Allowed s op → ∃ s', op.run k s = .ok ((),s') := by
  have hinv := reached_inv h
  refine ⟨⟨?_,hinv.pages.owns.pool.nodup⟩,fun x hx => hinv.mapped_once hx,
    fun d hd va h1 h2 => hinv.no_user_kernel hd h1 h2,fun op hop => ?_⟩
  · have ho := hinv.pages.owns.owned
    rw [hinv.vm_classes] at ho
    rw [← ho]
    abel
  · obtain ⟨s',hrun,-⟩ := run_inv hinv hop
    exact ⟨s',hrun⟩

theorem smallKernel_partition : ∃ s, Booted smallKernel s ∧
    (s.mach.freelist : Multiset ℕ) + kernelStacks s + pageDirs s + pageTables s + pipeBuffers s +
      allUserPages s = allPages smallKernel := by
  rcases main_spec smallKernel 1 [] (fun _ => 0) with ⟨-,hbad⟩ | ⟨s,hrun,-⟩
  · have hearly : earlyPages smallKernel = 746 := by decide
    simp [hearly] at hbad
  · have hboot : Booted smallKernel s := ⟨1,[],_,hrun⟩
    exact ⟨s,hboot,(page_partition (.base hboot)).1.1⟩

end X86OsDev.Xv6.Pages
