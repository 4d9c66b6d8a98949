import X86OsDev.Xv6.VmPages

/-! # What the functions of vm.c do to a page directory -/
namespace X86OsDev.Xv6
open Memory Fault Counting

variable {k : Kernel} {all oth : Multiset ℕ} {s : Machine} {d : ℕ}

/-- An entry that is present has its page table. -/
theorem present_pde_of_pteOf {m : Mem} {va : ℕ} (h : present (pteOf m d va) = true) :
    present (pde m d (pdx va)) = true := by
  unfold pteOf at h
  split at h
  · rename_i hp
    exact hp
  · simp at h

theorem load_entryAddr {m : Mem} {va : ℕ} (h : present (pde m d (pdx va)) = true) :
    load32 m (entryAddr m d va) = pteOf m d va := (if_pos h).symm

/-- The entry that `mappages` writes. -/
theorem mapEntry_eq {pa perm : ℕ} (hpa : pa % 4096 = 0) (hperm : perm < 4096) :
    pa ||| perm ||| pteP = pa + (perm ||| pteP) := by
  rw [Nat.lor_assoc]
  exact lor_eq_add hpa (Nat.or_lt_two_pow (n := 12) hperm (by decide))

theorem present_lor (perm : ℕ) : present (perm ||| pteP) = true := by
  unfold present pteP
  rw [beq_iff_eq]
  exact Nat.or_mod_two_eq_one.mpr (.inr rfl)

namespace Vm

/-- One page is mapped, unless a page table is needed and there is no memory for it. -/
theorem mappage_cases (h : Dir k all s d oth) {va pa perm : ℕ}
    (hno : present (pteOf s.mem d va) = false) :
    (mappage d va pa perm s = .ok (false,s) ∧ s.freelist = []) ∨
    ∃ s', mappage d va pa perm s =
        .ok (true,{ s' with mem := store32 s'.mem (entryAddr s'.mem d va) (pa ||| perm ||| pteP) }) ∧
      Dir k all s' d oth ∧ present (pde s'.mem d (pdx va)) = true ∧
      (∀ va', SameAt s.mem s'.mem d va') ∧ SamePages s.mem s'.mem oth ∧
      (∀ i < 1024, i ≠ pdx va → pde s'.mem d i = pde s.mem d i) ∧
      s.freelist.length ≤ s'.freelist.length + 1 := by
  unfold mappage
  rcases walkpgdir_spec h va with ⟨hw,hf,-⟩ | ⟨s',hw,hd,hp,hpte,hsame,hpde,hlen⟩
  · left
    rw [bind_ok hw]
    exact ⟨rfl,hf⟩
  · right
    refine ⟨s',?_,hd,hp,hpte,hsame,hpde,hlen⟩
    rw [bind_ok hw]
    dsimp only
    rw [bind_ok (load_ok _ _), load_entryAddr hp, (hpte va).pte, hno]
    rfl

/-- Mapping a page that nobody owned gives it to the directory. -/
theorem mappage_user {p va perm : ℕ} (h : Dir k all s d ({p} + oth)) (hva : va < 0x80000000)
    (hperm : perm < 4096) (hno : present (pteOf s.mem d va) = false) :
    (mappage d va (v2p p) perm s = .ok (false,s) ∧ s.freelist = []) ∨
    ∃ s', mappage d va (v2p p) perm s = .ok (true,s') ∧ Dir k all s' d oth ∧
      (∀ va' < 2 ^ 32, va' / 4096 = va / 4096 → pteOf s'.mem d va' = v2p p + (perm ||| pteP)) ∧
      (∀ va' < 2 ^ 32, va' / 4096 ≠ va / 4096 → SameAt s.mem s'.mem d va') ∧
      SamePages s.mem s'.mem ({p} + oth) ∧
      (∀ i < 1024, present (pde s'.mem d i) = true → present (pde s.mem d i) = true ∨ i = pdx va) ∧
      s.freelist.length ≤ s'.freelist.length + 1 := by
  have hp : p ∈ all := Multiset.mem_of_le h.oth_le (by simp)
  have hmod := h.pool.v2p_mod hp
  have hlt := h.pool.v2p_lt hp
  have hor : perm ||| pteP < 4096 := Nat.or_lt_two_pow (n := 12) hperm (by decide)
  rcases mappage_cases h hno with
    hc | ⟨s',hrun,hd,hpres,hpte,hsame,hpde,hlen⟩
  · exact .inl hc
  · right
    rw [mapEntry_eq hmod hperm] at hrun
    have hv : v2p p + (perm ||| pteP) < 2 ^ 32 := by omega
    have hpage : pageOf (v2p p + (perm ||| pteP)) = {p} := by
      rw [pageOf_present (by rw [present_add hmod]; exact present_lor perm), pteAddr_add hmod hor,
        h.pool.p2v_v2p hp]
    have hvm := hd.vmPages_storeEntry hpres hva hv
    rw [(hpte va).pte, pageOf_absent hno, add_zero, hpage] at hvm
    refine ⟨_,hrun,⟨h.pool,?_⟩,fun va' hva' heq => ?_,fun va' hva' hne => ?_,
      hsame.trans (hd.samePages_storeEntry hpres),fun i hi hi2 => ?_,hlen⟩
    · rw [hvm, ← hd.owned]
      abel
    · rw [hd.pteOf_storeEntry hpres (by omega) hv hva', if_pos heq]
    · exact (hpte va').trans (hd.sameAt_storeEntry hpres (by omega) hv hva' hne)
    · rw [hd.pde_storeEntry hpres hi] at hi2
      by_cases hix : i = pdx va
      · exact .inr hix
      · exact .inl (by rwa [← hpde i hi hix])

/-- Mapping above `KERNBASE` changes no ownership. -/
theorem mappage_kernel {va pa perm : ℕ} (h : Dir k all s d oth) (hva : va < 2 ^ 32)
    (hk : 0x80000000 ≤ va) (hpa : pa % 4096 = 0) (hpa2 : pa + 4096 ≤ 2 ^ 32) (hperm : perm < 4096)
    (hno : present (pteOf s.mem d va) = false) :
    (mappage d va pa perm s = .ok (false,s) ∧ s.freelist = []) ∨
    ∃ s', mappage d va pa perm s = .ok (true,s') ∧ Dir k all s' d oth ∧
      (∀ va' < 2 ^ 32, pteOf s'.mem d va' =
        if va' / 4096 = va / 4096 then pa + (perm ||| pteP) else pteOf s.mem d va') ∧
      SamePages s.mem s'.mem oth ∧
      (∀ i < 1024, present (pde s'.mem d i) = true → present (pde s.mem d i) = true ∨ i = pdx va) := by
  have hor : perm ||| pteP < 4096 := Nat.or_lt_two_pow (n := 12) hperm (by decide)
  rcases mappage_cases h hno with hc | ⟨s',hrun,hd,hpres,hpte,hsame,hpde,-⟩
  · exact .inl hc
  · right
    rw [mapEntry_eq hpa hperm] at hrun
    have hv : pa + (perm ||| pteP) < 2 ^ 32 := by omega
    refine ⟨_,hrun,⟨h.pool,?_⟩,fun va' hva' => ?_,hsame.trans (hd.samePages_storeEntry hpres),
      fun i hi hi2 => ?_⟩
    · rw [hd.vmPages_storeEntry_kernel hpres hk hva hv]
      exact hd.owned
    · rw [hd.pteOf_storeEntry hpres hva hv hva', (hpte va').pte]
    · rw [hd.pde_storeEntry hpres hi] at hi2
      by_cases hix : i = pdx va
      · exact .inr hix
      · exact .inl (by rwa [← hpde i hi hix])

/-- The loop of `mappages` above `KERNBASE`. -/
theorem mappagesLoop_kernel {perm : ℕ} (hperm : perm < 4096) (hu : user (perm ||| pteP) = false)
    (n : ℕ) : ∀ (s : Machine) (a pa : ℕ), Dir k all s d oth → a % 4096 = 0 → 0x80000000 ≤ a →
    a + (n + 1) * 4096 ≤ 2 ^ 32 → pa % 4096 = 0 → pa + (n + 1) * 4096 ≤ 2 ^ 32 →
    (∀ va, a ≤ va → va < a + (n + 1) * 4096 → present (pteOf s.mem d va) = false) →
    ∃ r s', mappagesLoop d perm n a pa s = .ok (r,s') ∧ Dir k all s' d oth ∧
      SamePages s.mem s'.mem oth ∧
      (∀ va < 2 ^ 32, va < a ∨ a + (n + 1) * 4096 ≤ va → pteOf s'.mem d va = pteOf s.mem d va) ∧
      (∀ i < 1024, present (pde s'.mem d i) = true →
        present (pde s.mem d i) = true ∨ pdx a ≤ i ∧ i ≤ pdx (a + n * 4096)) ∧
      (r = true → ∀ va, a ≤ va → va < a + (n + 1) * 4096 →
        present (pteOf s'.mem d va) = true ∧ user (pteOf s'.mem d va) = false) ∧
      (r = false → s'.freelist = []) := by
  induction n with
  | zero =>
    intro s a pa h ha hk hlt hpa hpa2 hno
    rw [mappagesLoop]
    rcases mappage_kernel h (by omega) hk hpa (by omega) hperm (hno a le_rfl (by omega)) with
      ⟨hrun,hf⟩ | ⟨s',hrun,hd,hpte,hsame,hpde⟩
    · exact ⟨false,s,hrun,h,.refl _ _,fun _ _ _ => rfl,fun _ _ hp => .inl hp,
        nofun,fun _ => hf⟩
    · refine ⟨true,s',hrun,hd,hsame,fun va hva hout => ?_,fun i hi hp => ?_,fun _ va h1 h2 => ?_,
        nofun⟩
      · rw [hpte va hva, if_neg (by omega)]
      · rcases hpde i hi hp with h1 | rfl
        · exact .inl h1
        · exact .inr ⟨le_rfl,le_rfl⟩
      · rw [hpte va (by omega), if_pos (by omega), present_add hpa, user_add hpa]
        exact ⟨present_lor perm,hu⟩
  | succ n ih =>
    intro s a pa h ha hk hlt hpa hpa2 hno
    rw [mappagesLoop]
    rcases mappage_kernel h (by omega) hk hpa (by omega) hperm (hno a le_rfl (by omega)) with
      ⟨hrun,hf⟩ | ⟨s1,hrun,hd,hpte,hsame,hpde⟩
    · rw [bind_ok hrun]
      exact ⟨false,s,rfl,h,.refl _ _,fun _ _ _ => rfl,fun _ _ hp => .inl hp,
        nofun,fun _ => hf⟩
    · rw [bind_ok hrun]
      have hnext : u32 (a + pgsize) = a + 4096 := u32_of_lt (by unfold pgsize; omega)
      have hnextp : u32 (pa + pgsize) = pa + 4096 := u32_of_lt (by unfold pgsize; omega)
      have hx1 := pdx_of_lt (show a < 2 ^ 32 by omega)
      have hx2 := pdx_of_lt (show a + 4096 < 2 ^ 32 by omega)
      have hx3 := pdx_of_lt (show a + (n + 1) * 4096 < 2 ^ 32 by omega)
      obtain ⟨r,s',hrun',hd',hsame',hout,htab,hok,hbad⟩ := ih s1 (a + 4096) (pa + 4096) hd (by omega)
        (by omega) (by omega) (by omega) (by omega)
        (fun va h1 h2 => by rw [hpte va (by omega), if_neg (by omega)]; exact hno va (by omega) (by omega))
      simp only [if_true, hnext, hnextp]
      refine ⟨r,s',hrun',hd',hsame.trans hsame',fun va hva ho => ?_,fun i hi hp => ?_,
        fun hr va h1 h2 => ?_,hbad⟩
      · rw [hout va hva (by omega), hpte va hva, if_neg (by omega)]
      · rw [show a + 4096 + n * 4096 = a + (n + 1) * 4096 by omega] at htab
        rcases htab i hi hp with h1 | h1
        · rcases hpde i hi h1 with h2 | rfl
          · exact .inl h2
          · exact .inr (by omega)
        · exact .inr (by omega)
      · by_cases hfirst : va < a + 4096
        · rw [hout va (by omega) (.inl hfirst), hpte va (by omega), if_pos (by omega),
            present_add hpa, user_add hpa]
          exact ⟨present_lor perm,hu⟩
        · exact hok hr va (by omega) (by omega)

/-- `mappages` of one page below `KERNBASE`. -/
theorem mappages_page {va pa perm : ℕ} (ha : va % 4096 = 0) (hva : va < 0x80000000) :
    mappages d va 4096 pa perm = mappage d va pa perm := by
  have h1 : pgrounddown va = va := by unfold pgrounddown pgsize; omega
  have h2 : pgrounddown (sub32 (u32 (va + 4096)) 1) = va := by
    rw [u32_of_lt (by omega), sub32_of_le (by omega)]
    unfold pgrounddown pgsize
    omega
  unfold mappages
  rw [h1, h2]
  dsimp only
  rw [sub32_of_le le_rfl, Nat.sub_self, Nat.zero_div]
  rfl

end Vm
end X86OsDev.Xv6
