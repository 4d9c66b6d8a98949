import X86OsDev.Xv6.PageProcs

/-! # Booting establishes the partition -/
namespace X86OsDev.Xv6.Pages
open Memory Fault Counting

variable {k : Kernel} {all ds raw : Multiset ℕ} {s s' : Sys}

theorem mem_pagesFrom {a n x : ℕ} : x ∈ pagesFrom a n ↔ ∃ i < n, x = a + i * 4096 := by
  unfold pagesFrom
  simp [eq_comm]

theorem pagesFrom_nodup (a n : ℕ) : (pagesFrom a n).Nodup :=
  List.Nodup.map (fun i j h => by simpa using h) List.nodup_range

theorem pagesFrom_succ (a n : ℕ) : pagesFrom a (n + 1) = a :: pagesFrom (a + 4096) n := by
  unfold pagesFrom
  rw [List.range_succ_eq_map, List.map_cons, List.map_map, Nat.zero_mul, Nat.add_zero]
  refine congrArg _ (List.map_congr_left fun i _ => ?_)
  simp only [Function.comp_apply]
  omega

theorem pool_allPages (k : Kernel) : Pool k (allPages k) := by
  have h1 := k.kend_le
  have h2 := k.kernlink_lt
  have h3 := k.data_le
  have hp4 : p2v 0x400000 = 0x80400000 := rfl
  have hps : p2v phystop = 0x8E000000 := rfl
  unfold kernlink kernbase extmem at h2
  unfold kernbase at h1
  have hround : pgroundup k.kend = (k.kend + 4095) / 4096 * 4096 := by
    unfold pgroundup pgsize
    rw [u32_of_lt (by omega)]
    omega
  unfold allPages pgsize
  rw [hround, hp4, hps]
  refine ⟨?_,fun p hp => ?_⟩
  · refine Multiset.nodup_add.mpr ⟨pagesFrom_nodup _ _,pagesFrom_nodup _ _,?_⟩
    refine Multiset.disjoint_left.mpr fun {x} hx hy => ?_
    obtain ⟨i,hi,rfl⟩ := mem_pagesFrom.mp (Multiset.mem_coe.mp hx)
    obtain ⟨j,hj,hij⟩ := mem_pagesFrom.mp (Multiset.mem_coe.mp hy)
    omega
  · rcases Multiset.mem_add.mp hp with hx | hx
    · obtain ⟨i,hi,rfl⟩ := mem_pagesFrom.mp (Multiset.mem_coe.mp hx)
      omega
    · obtain ⟨i,hi,rfl⟩ := mem_pagesFrom.mp (Multiset.mem_coe.mp hx)
      omega

/-- `freerange` hands pages to the allocator that nobody has yet. -/
theorem freerangeLoop_spec (n : ℕ) : ∀ (all : Multiset ℕ) (s : Machine) (p : ℕ), Owns k all s ds raw →
    Pool k (all + pagesFrom p n) →
    ∃ s', freerangeLoop k n p s = .ok ((),s') ∧ Owns k (all + pagesFrom p n) s' ds raw ∧
      Keeps s.mem s'.mem ds ∧ s'.freelist.length = s.freelist.length + n := by
  induction n with
  | zero =>
    intro all s p h _
    refine ⟨s,rfl,?_,.refl _ _,rfl⟩
    rw [show pagesFrom p 0 = [] from rfl, Multiset.coe_nil, add_zero]
    exact h
  | succ n ih =>
    intro all s p h hpool
    rw [pagesFrom_succ, ← Multiset.cons_coe, Multiset.add_cons, ← Multiset.cons_add] at hpool ⊢
    have hmem : p ∈ p ::ₘ all + pagesFrom (p + 4096) n := by
      rw [Multiset.cons_add]
      exact Multiset.mem_cons_self _ _
    have hfresh : p ∉ all := by
      have hn := hpool.nodup
      rw [Multiset.cons_add] at hn
      exact fun hc => (Multiset.nodup_cons.mp hn).1 (Multiset.mem_add.mpr (.inl hc))
    have hle : (ds.map (vmPages s.mem)).sum + raw ≤ all := by
      rw [← h.owned]
      exact Multiset.le_add_left _ _
    obtain ⟨s1,hrun1,hfree1,hch⟩ := Vm.kfree_ok hpool hmem s
    have hsame : SamePages s.mem s1.mem ((ds.map (vmPages s.mem)).sum + raw) :=
      samePages_of_changedIn hch (hpool.bounds hmem).1
        (fun q hq => (h.pool.bounds (Multiset.mem_of_le hle hq)).1)
        fun hc => hfresh (Multiset.mem_of_le hle hc)
    obtain ⟨h1,hkeep1⟩ := Owns.of_free (s := s)
      (hpool.mono (Multiset.le_add_right (p ::ₘ all) _)) (by
        rw [hfree1, ← Multiset.cons_coe, Multiset.cons_add, h.owned]) hsame
    obtain ⟨s',hrun,h',hkeep,hlen⟩ := ih (p ::ₘ all) s1 (p + 4096) h1 hpool
    rw [freerangeLoop, bind_ok hrun1]
    refine ⟨s',hrun,h',hkeep1.trans hkeep,?_⟩
    rw [hlen, hfree1, List.length_cons]
    omega

/-- `startothers` takes a page for each processor, or there are too few. -/
theorem startothers_spec (n : ℕ) : ∀ s : Sys, Owns k all s.mach ds s.cpuStacks →
    ((∃ e, startothers n s = .error e) ∧ s.mach.freelist.length < n) ∨
    ∃ m l, startothers n s = .ok ((),{ s with mach := m, cpuStacks := l }) ∧ Owns k all m ds l ∧
      m.mem = s.mach.mem := by
  induction n with
  | zero =>
    intro s h
    exact .inr ⟨s.mach,s.cpuStacks,rfl,h,rfl⟩
  | succ n ih =>
    intro s h
    rw [startothers]
    rcases h.kalloc with ⟨hrun,hempty⟩ | ⟨p,m,hrun,hmem,hown,hlen⟩
    · rw [bind_ok (vm_ok hrun), hempty]
      exact .inl ⟨⟨_,rfl⟩,by simp⟩
    · rw [bind_ok (vm_ok hrun)]
      dsimp only
      rw [bind_ok (modify_ok _)]
      rw [Multiset.singleton_add, Multiset.cons_coe] at hown
      rcases ih { s with mach := m, cpuStacks := p :: s.cpuStacks } hown with ⟨he,hlow⟩ | ⟨m',l,hrun',hown',hmem'⟩
      · dsimp only at hlow
        exact .inl ⟨he,by omega⟩
      · exact .inr ⟨m',l,hrun',hown',hmem'.trans hmem⟩

/-- `inituvm` into an empty address space, with memory left. -/
theorem inituvm_spec {d : ℕ} (init : List UInt8) (h : Owns k all s.mach (d ::ₘ ds) raw)
    (hl : Loaded s.mach.mem d 0) (hfree : 2 ≤ s.mach.freelist.length) (hinit : init.length < 4096) :
    ∃ m, inituvm d init s = .ok ((),{ s with mach := m }) ∧ Owns k all m (d ::ₘ ds) raw ∧
      Keeps s.mach.mem m.mem ds ∧ Space m.mem d 4096 := by
  have hnone : ∀ va < 0x80000000, present (pteOf s.mach.mem d va) = false := fun va hva =>
    Bool.eq_false_iff.mpr fun hc => absurd ((hl.maps va hva).mp hc) (by omega)
  cases hf : s.mach.freelist with
  | nil => simp [hf] at hfree
  | cons p rest =>
    have hd := h.dir
    have hp : p ∈ all := (hd.free_facts hf).1
    have hmod := hd.pool.v2p_mod hp
    obtain ⟨h1,hsame1,hpte1,hpde1⟩ := Vm.write_taken (Vm.take_page hd hf)
      (m := fill s.mach.mem p 4096 0) (.of_sameOn fun _ _ => fill_sameOn _)
    dsimp only at h1 hsame1 hpte1 hpde1
    rcases Vm.mappage_user h1 (show 0 < 0x80000000 by omega) (show pteW ||| pteU < 4096 by decide)
        (by rw [(hpte1 0).pte]; exact hnone 0 (by omega)) with
      ⟨-,hempty⟩ | ⟨s2,hmap,h2,hnew2,hkeep2,hsame2,hpde2,-⟩
    · dsimp only at hempty
      simp [hf,hempty] at hfree
    have hkept : ∀ va < 2 ^ 32, va / 4096 ≠ 0 / 4096 → pteOf s2.mem d va = pteOf s.mach.mem d va :=
      fun va hva hne => ((hpte1 va).trans (hkeep2 va hva hne)).pte
    have hpage : pteOf s2.mem d 0 = v2p p + ((pteW ||| pteU) ||| pteP) := hnew2 0 (by omega) rfl
    have hphys : p2v (pteAddr (pteOf s2.mem d 0)) = p := by
      rw [hpage, pteAddr_add hmod (by decide), hd.pool.p2v_v2p hp]
    have hpres : present (pteOf s2.mem d 0) = true := by
      rw [hpage, present_add hmod]
      exact present_lor _
    obtain ⟨h3,hsame3,hmap3⟩ := h2.writeMapped (a := p) (n := init.length) (by omega) hpres (by rw [hphys]) (by rw [hphys]; omega)
    have hsame : SamePages s.mach.mem (copy s2.mem p init.length (Vm.stringBytes init))
        ((ds.map (vmPages s.mach.mem)).sum + raw) :=
      hsame1.trans ((hsame2.mono (Multiset.le_add_left _ _)).trans hsame3)
    obtain ⟨hown,hkeep⟩ := Owns.of_dir h3 hsame
    refine ⟨{ s2 with mem := copy s2.mem p init.length (Vm.stringBytes init) },?_,hown,hkeep,by omega,by omega,
      hmap3.kernel (hl.kernel.congr (fun va h1 h2 => ?_) fun i hi hpi => ?_),fun va hva => ?_⟩
    · unfold inituvm
      rw [if_neg (by unfold pgsize; omega), bind_ok (vm_ok (Vm.kalloc_cons hf))]
      dsimp only
      rw [bind_ok (vm_ok (Vm.memset_ok _ _ _ _))]
      unfold pgsize
      rw [Vm.mappages_page rfl (by omega), bind_ok (vm_ok hmap)]
      exact vm_ok (Vm.memmove_ok _ _ _ _)
    · exact hkept va h2 (by omega)
    · rcases hpde2 i hi hpi with hp3 | rfl
      · exact .inl (by rwa [hpde1 i hi] at hp3)
      · right
        rw [pdx_of_lt (by omega)]
        omega
    · rw [hmap3.pte]
      by_cases hfirst : va / 4096 = 0 / 4096
      · rw [hnew2 va (by omega) hfirst, present_add hmod]
        exact ⟨fun _ => by omega,fun _ => present_lor _⟩
      · rw [hkept va (by omega) hfirst, hnone va hva]
        exact ⟨fun hc => (by cases hc),fun hc => absurd hc (by omega)⟩

/-- The pages that `kinit1` hands out. -/
def earlyPages (k : Kernel) : ℕ := (p2v 0x400000 - pgroundup k.kend) / pgsize

/-- The state when all pages are with the allocator and no process exists. -/
theorem inv_idle {m0 m : Mem} {l : List ℕ} {d : ℕ} {mach : Machine} (hm : mach.mem = m)
    (hown : Owns k (allPages k) mach {d} (l : Multiset ℕ)) (hl : Loaded m d 0) :
    Inv k { zeroed m0 with mach := mach, kpgdir := d, cpuStacks := l } := by
  subst hm
  refine ⟨⟨?_,hl,fun p hp => ?_⟩,⟨fun f => ?_,fun _ _ => rfl,fun f hf => ?_,fun f g hf => ?_,fun f w hf => ?_⟩,
    fun _ _ _ => rfl⟩
  · have hdirs : pageDirs { zeroed m0 with mach := mach, kpgdir := d, cpuStacks := l } = {d} := by
      have hsum : ∑ p, ((zeroed m0).proc p).dir = 0 := Finset.sum_eq_zero fun p _ => rfl
      exact congrArg (d ::ₘ ·) hsum
    have hstacks : kernelStacks { zeroed m0 with mach := mach, kpgdir := d, cpuStacks := l } = l := by
      have hsum : ∑ p, ((zeroed m0).proc p).stack = 0 := Finset.sum_eq_zero fun p _ => rfl
      exact (congrArg ((l : Multiset ℕ) + ·) hsum).trans (add_zero _)
    have hbuf : pipeBuffers { zeroed m0 with mach := mach, kpgdir := d, cpuStacks := l } = 0 := by
      refine Multiset.eq_zero_of_forall_notMem fun x hx => ?_
      obtain ⟨f,hf,-⟩ := mem_pipeBuffers.mp hx
      cases hf
    rw [hdirs, hstacks, hbuf, add_zero]
    exact hown
  · rcases hp with hc | hc <;> cases hc
  · unfold count
    exact (Finset.sum_eq_zero fun p _ => Finset.sum_eq_zero fun fd _ => if_neg (by
      intro hc
      cases hc)).symm
  · cases hf
  · cases hf
  · cases hf

/-- `userinit` on a kernel with plenty of memory. -/
theorem userinit_spec {init : List UInt8} (h : Inv k s) (hu : ∀ p, (s.proc p).state = .unused)
    (hfree : 70 ≤ s.mach.freelist.length) :
    ((∃ e, userinit k init s = .error e) ∧ 4096 ≤ init.length) ∨
    ∃ s', userinit k init s = .ok ((),s') ∧ Inv k s' := by
  unfold userinit
  rcases allocproc_spec h with ⟨s1,-,-,hbad⟩ | ⟨p,s1,hrun1,h1,hemb,-,hother1,-,hlen1,-⟩
  · rcases hbad with hbad | hbad
    · exact absurd (hu 0) (hbad 0)
    · simp [hbad] at hfree
  have hno : ¬ (s1.proc p).HasSpace := by simp [Proc.HasSpace,hemb]
  have hown := h1.pages.at_proc p
  rw [Proc.dir_none hno, zero_add] at hown
  rw [bind_ok hrun1]
  dsimp only
  rw [bind_ok (modify_ok _)]
  rcases hown.setupkvm with ⟨m,-,hcard⟩ | ⟨d,m,hrun2,hown2,hkeep2,hl2,hlen2⟩
  · have := hown.card
    rw [Multiset.card_add] at this hcard
    omega
  rw [bind_ok (vm_ok (s := { s1 with initproc := p }) hrun2)]
  dsimp only
  by_cases hinit : 4096 ≤ init.length
  · refine .inl ⟨⟨.inituvm,bind_error ?_⟩,hinit⟩
    unfold inituvm pgsize
    rw [if_pos hinit]
    rfl
  obtain ⟨m3,hrun3,hown3,hkeep3,hsp3⟩ := inituvm_spec init
    (s := { s1 with initproc := p, mach := m })
    hown2 hl2 (by dsimp only; omega) (by omega)
  rw [bind_ok hrun3, bind_ok (updProc_ok _ _ _), updProc_ok]
  dsimp only
  rw [Function.update_idem, Function.update_self]
  have hother : ∀ (pr : Proc), ∀ q ≠ p, Function.update s1.proc p pr q = s1.proc q :=
    fun pr q hq => Function.update_of_ne hq ..
  refine .inr ⟨_,rfl,h1.spawn hemb hown3 (hkeep2.trans hkeep3) hsp3 rfl rfl rfl rfl ?_ ?_ (hother _)⟩
  · rw [count_congr (s := s1) fun q => by
      by_cases hq : q = p
      · subst hq
        dsimp only
        rw [Function.update_self]
      · dsimp only
        rw [hother _ q hq]]
    exact h1.files.of_same rfl rfl
  · dsimp only
    rw [Function.update_self]
    rfl

/-- Booting stops early for want of memory, or it establishes the invariant. -/
theorem main_spec (k : Kernel) (n : ℕ) (init : List UInt8) (m : Mem) :
    ((∃ e, main k n init (zeroed m) = .error e) ∧ (earlyPages k < 66 + n ∨ 4096 ≤ init.length)) ∨
    ∃ s, main k n init (zeroed m) = .ok ((),s) ∧ Inv k s := by
  have hpool := pool_allPages k
  have hsplit : allPages k = pagesFrom (pgroundup k.kend) (earlyPages k) +
    pagesFrom (p2v 0x400000) ((p2v phystop - p2v 0x400000) / pgsize) := rfl
  have hearly : Pool k (pagesFrom (pgroundup k.kend) (earlyPages k)) := by
    refine hpool.mono ?_
    rw [hsplit]
    exact Multiset.le_add_right _ _
  have hnone : Owns k 0 (zeroed m).mach 0 0 := ⟨hearly.mono (Multiset.zero_le _),rfl⟩
  obtain ⟨m1,hrun1,h1,-,hlen1⟩ := freerangeLoop_spec (earlyPages k) 0 (zeroed m).mach (pgroundup k.kend) hnone
    (by rw [zero_add]; exact hearly)
  rw [zero_add] at h1
  have hlen1' : m1.freelist.length = earlyPages k := by
    rw [hlen1]
    exact Nat.zero_add _
  unfold main
  rw [bind_ok (vm_ok (x := freerange k k.kend (p2v 0x400000)) hrun1)]
  unfold kvmalloc
  rcases h1.setupkvm with ⟨m2,hrun2,hcard⟩ | ⟨d,m2,hrun2,h2,-,hl2,hlen2⟩
  · refine .inl ⟨⟨_,bind_error ((bind_ok (vm_ok hrun2)).trans rfl)⟩,.inl ?_⟩
    have := h1.card
    omega
  rw [bind_ok (a := ())
    ((bind_ok (vm_ok hrun2)).trans rfl)]
  rcases startothers_spec n { zeroed m with mach := m2, kpgdir := d } h2 with
    ⟨⟨e,he⟩,hlow⟩ | ⟨m3,l,hrun3,h3,hmem3⟩
  · dsimp only at hlow
    exact .inl ⟨⟨e,bind_error he⟩,.inl (by omega)⟩
  rw [bind_ok hrun3]
  have hpool4 := hpool
  rw [hsplit] at hpool4
  obtain ⟨m4,hrun4,h4,hkeep4,hlen4⟩ := freerangeLoop_spec ((p2v phystop - p2v 0x400000) / pgsize) _ m3
    (p2v 0x400000) h3 hpool4
  rw [← hsplit] at h4
  have hrange : freerange k (p2v 0x400000) (p2v phystop) =
      freerangeLoop k ((p2v phystop - p2v 0x400000) / pgsize) (p2v 0x400000) := by
    unfold freerange
    rw [show pgroundup (p2v 0x400000) = p2v 0x400000 by decide]
  rw [hrange, bind_ok (vm_ok hrun4)]
  have hl4 : Loaded m4.mem d 0 := by
    have hl3 := hl2
    dsimp only at hmem3
    rw [← hmem3] at hl3
    exact hl3.congr (hkeep4 d (Multiset.mem_cons_self _ _))
  have hinv : Inv k { zeroed m with mach := m4, kpgdir := d, cpuStacks := l } := inv_idle rfl h4 hl4
  have hfree : 70 ≤ m4.freelist.length := by
    have : (p2v phystop - p2v 0x400000) / pgsize = 56320 := by decide
    omega
  rcases userinit_spec hinv (fun _ => rfl) hfree with ⟨he,hinit⟩ | hok
  · exact .inl ⟨he,.inr hinit⟩
  · exact .inr hok

end X86OsDev.Xv6.Pages
