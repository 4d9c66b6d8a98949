import X86OsDev.Xv6.VmMap

/-! # Giving pages back -/
namespace X86OsDev.Xv6
open Memory Fault Counting

variable {k : Kernel} {all oth : Multiset ℕ} {s : Machine} {d : ℕ}

namespace Dir

theorem tables_aligned (h : Dir k all s d oth) : ∀ q ∈ {d} + tablePages s.mem d, q % 4096 = 0 :=
  fun _ hq => (h.pool.bounds (Multiset.mem_of_le h.tables_le hq)).1

end Dir

namespace Vm

/-- `kfree` of a page that somebody else owned. -/
theorem kfree_oth {p : ℕ} (h : Dir k all s d ({p} + oth)) :
    ∃ s', kfree k p s = .ok ((),s') ∧ Dir k all s' d oth ∧ SamePages s.mem s'.mem oth ∧
      (∀ va, SameAt s.mem s'.mem d va) ∧ ∀ i < 1024, pde s'.mem d i = pde s.mem d i := by
  have hp : p ∈ all := Multiset.mem_of_le h.oth_le (by simp)
  have hnot : p ∉ vmPages s.mem d := fun hc => h.not_mem_oth hc (by simp)
  have hno : p ∉ oth := by
    have hn := Multiset.nodup_of_le h.oth_le h.pool.nodup
    rw [Multiset.singleton_add] at hn
    exact (Multiset.nodup_cons.mp hn).1
  obtain ⟨s',hrun,hfree,hch⟩ := kfree_ok h.pool hp s
  have ha := (h.pool.bounds hp).1
  have hvm : SamePages s.mem s'.mem ({d} + tablePages s.mem d) :=
    samePages_of_changedIn hch ha h.tables_aligned
      fun hc => hnot (Multiset.mem_of_le (Dir.tables_le_vm s.mem d) hc)
  have hd : SameOn s'.mem s.mem d 4096 := hvm d (by simp)
  refine ⟨s',hrun,⟨h.pool,?_⟩,?_,fun va => ?_,fun i hi => pde_congr hd hi⟩
  · rw [vmPages_congr hvm, hfree, ← h.owned, ← Multiset.cons_coe, ← Multiset.singleton_add]
    abel
  · exact samePages_of_changedIn hch ha (fun q hq => h.oth_aligned q (by simp [hq])) hno
  · exact h.sameAt_of_changedIn hch ha (pteOf_congr hd (hvm.mono (Multiset.le_add_left _ _)) va)
      fun hva hpr heq => hnot (heq ▸ Dir.user_mem_vm (mem_userPages hva hpr))

/-- The body of the loop of `deallocuvm`: a mapped page is freed and unmapped. -/
theorem unmap (h : Dir k all s d oth) {va : ℕ} (hva : va < 0x80000000)
    (hp : present (pteOf s.mem d va) = true) :
    ∃ s1 s', kfree k (p2v (pteAddr (pteOf s.mem d va))) s = .ok ((),s1) ∧
      store (entryAddr s.mem d va) 0 s1 = .ok ((),s') ∧ Dir k all s' d oth ∧
      SamePages s.mem s'.mem oth ∧
      (∀ va' < 2 ^ 32, va' / 4096 = va / 4096 → pteOf s'.mem d va' = 0) ∧
      (∀ va' < 2 ^ 32, va' / 4096 ≠ va / 4096 → SameAt s.mem s'.mem d va') ∧
      ∀ i < 1024, pde s'.mem d i = pde s.mem d i := by
  have hmem := mem_userPages hva hp
  obtain ⟨hall,hno⟩ := h.user_mem hmem
  obtain ⟨s1,hrun,hfree,hch⟩ := kfree_ok h.pool hall s
  have ha := (h.pool.bounds hall).1
  have hvm : SamePages s.mem s1.mem ({d} + tablePages s.mem d) :=
    samePages_of_changedIn hch ha h.tables_aligned (h.user_not_table hmem)
  have hd : SameOn s1.mem s.mem d 4096 := hvm d (by simp)
  have hpte := pteOf_congr hd (hvm.mono (Multiset.le_add_left _ _))
  have hpde : ∀ i < 1024, pde s1.mem d i = pde s.mem d i := fun i hi => pde_congr hd hi
  -- the page is in the free list already, so the directory is looked at with the old list
  have h1 : Dir k all ⟨s1.mem,s.freelist⟩ d oth := ⟨h.pool,by rw [vmPages_congr hvm]; exact h.owned⟩
  have hpres : present (pde s1.mem d (pdx va)) = true := by
    rw [hpde _ (pdx_lt va)]
    exact present_pde_of_pteOf hp
  have hea : entryAddr s.mem d va = entryAddr s1.mem d va :=
    (entryAddr_congr (hpde _ (pdx_lt va))).symm
  refine ⟨s1,{ s1 with mem := store32 s1.mem (entryAddr s1.mem d va) 0 },hrun,by rw [hea]; rfl,
    ⟨h.pool,?_⟩,?_,fun va' hva' heq => ?_,fun va' hva' hne => ?_,fun i hi => ?_⟩
  · have hv := h1.vmPages_storeEntry (v := 0) hpres hva (by omega)
    dsimp only at hv
    rw [hpte, pageOf_present hp, pageOf_absent present_zero, add_zero, vmPages_congr hvm] at hv
    dsimp only
    rw [hfree, ← h.owned, ← hv, ← Multiset.cons_coe, ← Multiset.singleton_add]
    abel
  · exact (samePages_of_changedIn hch ha h.oth_aligned hno).trans (h1.samePages_storeEntry hpres)
  · rw [h1.pteOf_storeEntry hpres (by omega) (by omega) hva', if_pos heq]
  · refine (h.sameAt_of_changedIn hch ha (hpte va') fun hlt hpr heq => hne ?_).trans
      (h1.sameAt_storeEntry hpres (by omega) (by omega) hva' hne)
    exact (h.user_inj hva hlt hp hpr heq).symm
  · exact (h1.pde_storeEntry hpres hi).trans (hpde i hi)

/-- The loop of `deallocuvm` unmaps everything from `a` up to the page of `oldsz`. -/
theorem deallocuvmLoop_spec {oldsz : ℕ} (hold : oldsz ≤ 0x80000000) (n : ℕ) :
    ∀ (s : Machine) (a : ℕ), Dir k all s d oth → a % 4096 = 0 → oldsz ≤ a + n * 4096 →
    ∃ s', deallocuvmLoop k d oldsz n a s = .ok ((),s') ∧ Dir k all s' d oth ∧
      SamePages s.mem s'.mem oth ∧
      (∀ va < 2 ^ 32, va < a ∨ (oldsz + 4095) / 4096 * 4096 ≤ va → SameAt s.mem s'.mem d va) ∧
      (∀ va, a ≤ va → va < (oldsz + 4095) / 4096 * 4096 → present (pteOf s'.mem d va) = false) ∧
      ∀ i < 1024, pde s'.mem d i = pde s.mem d i := by
  induction n with
  | zero =>
    intro s a h ha hfuel
    exact ⟨s,rfl,h,.refl _ _,fun _ _ _ => .refl _ _ _,fun va h1 h2 => by omega,fun _ _ => rfl⟩
  | succ n ih =>
    intro s a h ha hfuel
    rw [deallocuvmLoop]
    by_cases hlt : a < oldsz
    · rw [if_pos hlt]
      have hnext : u32 (a + pgsize) = a + 4096 := u32_of_lt (by unfold pgsize; omega)
      cases hpd : present (pde s.mem d (pdx a)) with
      | false =>
        -- no page table: the loop goes on at the next one
        have hx := pdx_of_lt (show a < 2 ^ 32 by omega)
        have hskip : u32 ((pdx a + 1) * 2 ^ 22) = (pdx a + 1) * 2 ^ 22 := u32_of_lt (by omega)
        rw [bind_ok (walkpgdir_miss hpd)]
        dsimp only
        rw [hskip]
        obtain ⟨s',hrun,hd,hsame,hout,hin,hpde⟩ := ih s ((pdx a + 1) * 2 ^ 22) h (by omega) (by omega)
        have hnone : ∀ va, a ≤ va → va < (pdx a + 1) * 2 ^ 22 → pteOf s.mem d va = 0 := by
          intro va h1 h2
          have hxa : pdx va = pdx a := by
            rw [pdx_of_lt (by omega)]
            omega
          unfold pteOf
          rw [hxa, hpd]
          rfl
        refine ⟨s',hrun,hd,hsame,fun va hva ho => ?_,fun va h1 h2 => ?_,hpde⟩
        · exact hout va hva (by omega)
        · by_cases hin2 : va < (pdx a + 1) * 2 ^ 22
          · rw [(hout va (by omega) (.inl hin2)).pte, hnone va h1 hin2]
            exact present_zero
          · exact hin va (by omega) h2
      | true =>
        rw [bind_ok (walkpgdir_hit hpd false)]
        dsimp only
        rw [bind_ok (load_ok _ _), load_entryAddr hpd, hnext]
        cases hpt : present (pteOf s.mem d a) with
        | false =>
          simp only [Bool.false_eq_true, if_false]
          obtain ⟨s',hrun,hd,hsame,hout,hin,hpde⟩ := ih s (a + 4096) h (by omega) (by omega)
          refine ⟨s',hrun,hd,hsame,fun va hva ho => hout va hva (by omega),fun va h1 h2 => ?_,hpde⟩
          by_cases hfirst : va < a + 4096
          · rw [(hout va (by omega) (.inl hfirst)).pte, ← pteOf_page, show va / 4096 = a / 4096 by omega,
              pteOf_page]
            exact hpt
          · exact hin va (by omega) h2
        | true =>
          obtain ⟨s1,s2,hfree,hstore,hd2,hsame2,hzero2,hkeep2,hpde2⟩ := unmap h (by omega) hpt
          have hne : pteAddr (pteOf s.mem d a) ≠ 0 := by
            intro hz
            have hb := h.pool.bounds (h.user_mem (mem_userPages (by omega) hpt)).1
            rw [hz] at hb
            unfold p2v kernbase u32 at hb
            omega
          obtain ⟨s',hrun,hd,hsame,hout,hin,hpde⟩ := ih s2 (a + 4096) hd2 (by omega) (by omega)
          simp only [if_true]
          rw [if_neg hne, bind_ok hfree, bind_ok hstore]
          refine ⟨s',hrun,hd,hsame2.trans hsame,fun va hva ho => ?_,fun va h1 h2 => ?_,
            fun i hi => (hpde i hi).trans (hpde2 i hi)⟩
          · exact (hkeep2 va hva (by omega)).trans (hout va hva (by omega))
          · by_cases hfirst : va < a + 4096
            · rw [(hout va (by omega) (.inl hfirst)).pte, hzero2 va (by omega) (by omega)]
              exact present_zero
            · exact hin va (by omega) h2
    · rw [if_neg hlt]
      exact ⟨s,rfl,h,.refl _ _,fun _ _ _ => .refl _ _ _,fun va h1 h2 => by omega,fun _ _ => rfl⟩

/-- `deallocuvm` unmaps the pages between two sizes. -/
theorem deallocuvm_spec (h : Dir k all s d oth) {oldsz newsz : ℕ} (hold : oldsz ≤ 0x80000000)
    (hnew : newsz < oldsz) :
    ∃ s', deallocuvm k d oldsz newsz s = .ok (newsz,s') ∧ Dir k all s' d oth ∧
      SamePages s.mem s'.mem oth ∧
      (∀ va < 2 ^ 32, va < (newsz + 4095) / 4096 * 4096 ∨ (oldsz + 4095) / 4096 * 4096 ≤ va →
        SameAt s.mem s'.mem d va) ∧
      (∀ va, (newsz + 4095) / 4096 * 4096 ≤ va → va < (oldsz + 4095) / 4096 * 4096 →
        present (pteOf s'.mem d va) = false) ∧
      ∀ i < 1024, pde s'.mem d i = pde s.mem d i := by
  have hround := pgroundup_eq (show newsz ≤ kernbase by unfold kernbase; omega)
  obtain ⟨s',hrun,hrest⟩ := deallocuvmLoop_spec (k := k) hold (oldsz / pgsize + 1) s (pgroundup newsz) h
    (by rw [hround]; omega) (by rw [hround]; unfold pgsize; omega)
  rw [hround] at hrest
  refine ⟨s',?_,hrest⟩
  unfold deallocuvm
  rw [if_neg (by omega), bind_ok hrun]
  rfl

/-- The page tables from an entry of the directory on. -/
def tablesFrom (m : Mem) (d i : ℕ) : Multiset ℕ := ∑ j ∈ dirIndices with i ≤ j, pageOf (pde m d j)

theorem tablesFrom_zero (m : Mem) (d : ℕ) : tablesFrom m d 0 = tablePages m d := by
  unfold tablesFrom tablePages
  rw [Finset.filter_true_of_mem fun j _ => Nat.zero_le j]

theorem tablesFrom_succ (m : Mem) (d : ℕ) {i : ℕ} (hi : i < 1024) :
    tablesFrom m d i = pageOf (pde m d i) + tablesFrom m d (i + 1) := by
  have hset : dirIndices.filter (i ≤ ·) = insert i (dirIndices.filter (i + 1 ≤ ·)) := by
    ext j
    simp only [Finset.mem_filter, Finset.mem_insert, mem_dirIndices]
    omega
  unfold tablesFrom
  rw [hset, Finset.sum_insert (by simp)]

theorem tablesFrom_end (m : Mem) (d : ℕ) : tablesFrom m d 1024 = 0 := by
  unfold tablesFrom
  rw [Finset.filter_false_of_mem fun j hj => by have := mem_dirIndices.mp hj; omega]
  rfl

theorem tablesFrom_congr {m m' : Mem} (h : SameOn m' m d 4096) (i : ℕ) :
    tablesFrom m' d i = tablesFrom m d i :=
  Finset.sum_congr rfl fun j hj => by
    rw [pde_congr h (mem_dirIndices.mp (Finset.mem_filter.mp hj).1)]

/-- `kfree` of a page, where nothing else is known about its owner. -/
theorem kfree_owned (hpool : Pool k all) {p : ℕ} {rest : Multiset ℕ}
    (ho : (s.freelist : Multiset ℕ) + ({p} + rest) = all) :
    ∃ s', kfree k p s = .ok ((),s') ∧ (s'.freelist : Multiset ℕ) + rest = all ∧
      SamePages s.mem s'.mem rest := by
  have hle : {p} + rest ≤ all := by
    rw [← ho]
    exact Multiset.le_add_left _ _
  have hp : p ∈ all := Multiset.mem_of_le hle (by simp)
  have hn := Multiset.nodup_of_le hle hpool.nodup
  rw [Multiset.singleton_add] at hn
  obtain ⟨s',hrun,hfree,hch⟩ := kfree_ok hpool hp s
  refine ⟨s',hrun,?_,samePages_of_changedIn hch (hpool.bounds hp).1 (fun q hq => ?_)
    (Multiset.nodup_cons.mp hn).1⟩
  · rw [hfree, ← ho, ← Multiset.cons_coe, ← Multiset.singleton_add]
    abel
  · exact (hpool.bounds (Multiset.mem_of_le hle (by simp [hq]))).1

/-- The second loop of `freevm` gives back the page tables. -/
theorem freevmLoop_spec (hpool : Pool k all) (n : ℕ) : ∀ (s : Machine) (i : ℕ), i + n = 1024 →
    (s.freelist : Multiset ℕ) + (tablesFrom s.mem d i + ({d} + oth)) = all →
    ∃ s', freevmLoop k d n i s = .ok ((),s') ∧ (s'.freelist : Multiset ℕ) + ({d} + oth) = all ∧
      SamePages s.mem s'.mem ({d} + oth) := by
  induction n with
  | zero =>
    intro s i hi ho
    obtain rfl : i = 1024 := by omega
    rw [tablesFrom_end, zero_add] at ho
    exact ⟨s,rfl,ho,.refl _ _⟩
  | succ n ih =>
    intro s i hi ho
    rw [freevmLoop, bind_ok (load_ok _ _)]
    change ∃ s', (if present (pde s.mem d i) = true then _ else _ : Vm Unit) s = _ ∧ _
    rw [tablesFrom_succ _ _ (by omega)] at ho
    cases hp : present (pde s.mem d i) with
    | false =>
      rw [pageOf_absent hp, zero_add] at ho
      exact ih s (i + 1) (by omega) ho
    | true =>
      rw [pageOf_present hp, add_assoc] at ho
      obtain ⟨s1,hrun1,ho1,hsame1⟩ := kfree_owned hpool ho
      have hd1 : SameOn s1.mem s.mem d 4096 := hsame1 d (by simp)
      rw [← tablesFrom_congr hd1] at ho1
      obtain ⟨s',hrun,ho',hsame⟩ := ih s1 (i + 1) (by omega) ho1
      simp only [if_true]
      refine ⟨s',(bind_ok hrun1).trans hrun,ho',?_⟩
      exact (hsame1.mono (Multiset.le_add_left _ _)).trans hsame

/-- `freevm` gives back every page of the directory. -/
theorem freevm_spec (h : Dir k all s d oth) :
    ∃ s', freevm k d s = .ok ((),s') ∧ (s'.freelist : Multiset ℕ) + oth = all ∧
      SamePages s.mem s'.mem oth := by
  have hd0 : d ≠ 0 := by
    have := h.pool.bounds h.dir_mem
    omega
  obtain ⟨s1,hrun1,h1,hsame1,-,hnone,-⟩ := deallocuvm_spec h le_rfl
    (show 0 < 0x80000000 by omega)
  have huser : userPages s1.mem d = 0 := by
    refine Finset.sum_eq_zero fun j hj => pageOf_absent ?_
    have := mem_userIndices.mp hj
    exact hnone (4096 * j) (by omega) (by omega)
  have ho1 := h1.owned
  unfold vmPages at ho1
  rw [huser, add_zero, ← tablesFrom_zero, add_assoc, add_left_comm ({d} : Multiset ℕ)] at ho1
  obtain ⟨s2,hrun2,ho2,hsame2⟩ := freevmLoop_spec h.pool 1024 s1 0 rfl ho1
  obtain ⟨s3,hrun3,ho3,hsame3⟩ := kfree_owned h.pool ho2
  refine ⟨s3,?_,ho3,hsame1.trans ((hsame2.mono (Multiset.le_add_left _ _)).trans hsame3)⟩
  unfold freevm
  rw [if_neg hd0]
  exact (bind_ok hrun1).trans ((bind_ok hrun2).trans hrun3)

end Vm
end X86OsDev.Xv6
