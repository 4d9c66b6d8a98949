import Mathlib.Algebra.BigOperators.Group.Finset.Piecewise
import Mathlib.Order.Interval.Finset.Nat
import X86OsDev.Xv6.VmFree

/-! # Building address spaces -/
namespace X86OsDev.Xv6
open Memory Fault Counting

variable {k : Kernel} {all oth : Multiset ℕ} {s : Machine} {d : ℕ}

/-- The entries of a page directory that hold the kernel's page tables. -/
def KernelTable (i : ℕ) : Prop := 512 ≤ i ∧ i < 568 ∨ 1016 ≤ i

/-- The addresses in `R` are mapped for the kernel, and no others. -/
structure Mapped (m : Mem) (d : ℕ) (R : ℕ → Prop) : Prop where
  inside : ∀ va < 2 ^ 32, R va → present (pteOf m d va) = true ∧ user (pteOf m d va) = false
  outside : ∀ va < 2 ^ 32, ¬ R va → pteOf m d va = 0
  tables : ∀ i < 1024, present (pde m d i) = true → KernelTable i

/-- The kernel half of a page directory. -/
structure KernelMapped (m : Mem) (d : ℕ) : Prop where
  noUser : ∀ va, 0x80000000 ≤ va → va < 2 ^ 32 → user (pteOf m d va) = false
  mapped : ∀ va < 2 ^ 32, 0x80000000 ≤ va ∧ va < 0x8E000000 ∨ 0xFE000000 ≤ va →
    present (pteOf m d va) = true
  tables : ∀ i < 1024, 512 ≤ i → present (pde m d i) = true → KernelTable i

/-- With no user page and no page tables but the kernel's, a directory has at most 65 pages. -/
theorem card_vmPages_le {m : Mem} (hu : ∀ va < 0x80000000, present (pteOf m d va) = false)
    (ht : ∀ i < 1024, present (pde m d i) = true → KernelTable i) :
    Multiset.card (vmPages m d) ≤ 65 := by
  have huser : userPages m d = 0 := by
    refine Finset.sum_eq_zero fun j hj => pageOf_absent (hu _ ?_)
    have := mem_userIndices.mp hj
    omega
  have hcard : ∀ i, Multiset.card (pageOf (pde m d i)) = if present (pde m d i) = true then 1 else 0 := by
    intro i
    unfold pageOf
    split <;> rfl
  have htab : Multiset.card (tablePages m d) ≤ 64 := by
    unfold tablePages
    rw [Multiset.card_sum, Finset.sum_congr rfl fun i _ => hcard i, ← Finset.card_filter]
    have hsub : dirIndices.filter (fun i => present (pde m d i) = true) ⊆
        Finset.Ico 512 568 ∪ Finset.Ico 1016 1024 := by
      intro i hi
      obtain ⟨h1,h2⟩ := Finset.mem_filter.mp hi
      have hk := ht i (mem_dirIndices.mp h1) h2
      have hi2 := mem_dirIndices.mp h1
      unfold KernelTable at hk
      rw [Finset.mem_union, Finset.mem_Ico, Finset.mem_Ico]
      omega
    refine (Finset.card_le_card hsub).trans ((Finset.card_union_le _ _).trans ?_)
    simp
  unfold vmPages
  rw [huser, add_zero, Multiset.card_add, Multiset.card_singleton]
  omega

namespace Vm

/-- `mappages` of whole pages is the loop over them. -/
theorem mappages_eq {virt size pa perm : ℕ} (hv : virt % 4096 = 0) (hs : size % 4096 = 0)
    (hpos : 0 < size) (hle : virt + size ≤ 2 ^ 32) :
    mappages d virt size pa perm = mappagesLoop d perm (size / 4096 - 1) virt pa := by
  have h1 : pgrounddown virt = virt := by unfold pgrounddown pgsize; omega
  have h2 : sub32 (u32 (virt + size)) 1 = virt + size - 1 := by
    unfold u32 sub32
    split <;> omega
  have h3 : pgrounddown (virt + size - 1) = virt + (size - 4096) := by
    unfold pgrounddown pgsize
    omega
  unfold mappages
  rw [h1, h2, h3]
  dsimp only
  rw [sub32_of_le (by omega)]
  unfold pgsize
  congr 1
  omega

/-- One entry of `kmap`: it is mapped, or everything is given back. -/
theorem setupkvmLoop_cons (h : Dir k all s d oth) {R : ℕ → Prop} (hm : Mapped s.mem d R)
    {virt ps pe perm size : ℕ} {rest : List (ℕ × ℕ × ℕ × ℕ)} (hsize : sub32 pe ps = size)
    (hv : virt % 4096 = 0) (hs : size % 4096 = 0) (hpos : 0 < size) (hle : virt + size ≤ 2 ^ 32)
    (hk : 0x80000000 ≤ virt) (hps : ps % 4096 = 0) (hps2 : ps + size ≤ 2 ^ 32) (hperm : perm < 4096)
    (hu : user (perm ||| pteP) = false) (hR : ∀ va, R va → 0x80000000 ≤ va ∧ ¬ (virt ≤ va ∧ va < virt + size))
    (htab : ∀ i, virt / 2 ^ 22 ≤ i → i ≤ (virt + size - 1) / 2 ^ 22 → KernelTable i) :
    (∃ s', setupkvmLoop k d ((virt,ps,pe,perm) :: rest) s = .ok (none,s') ∧
      (s'.freelist : Multiset ℕ) + oth = all ∧ SamePages s.mem s'.mem oth ∧
      Multiset.card all ≤ Multiset.card oth + 65) ∨
    ∃ s', setupkvmLoop k d ((virt,ps,pe,perm) :: rest) s = setupkvmLoop k d rest s' ∧
      Dir k all s' d oth ∧ SamePages s.mem s'.mem oth ∧
      Mapped s'.mem d (fun va => R va ∨ virt ≤ va ∧ va < virt + size) := by
  have hn : (size / 4096 - 1 + 1) * 4096 = size := by omega
  obtain ⟨r,s1,hrun,hd,hsame,hout,htables,hok,hbad⟩ := mappagesLoop_kernel (k := k) (d := d) hperm hu (size / 4096 - 1) s virt ps h hv hk (by omega) hps (by omega)
    (fun va h1 h2 => by
      rw [hm.outside va (by omega) (fun hc => (hR va hc).2 (by omega))]
      exact present_zero)
  rw [hn] at hout hok
  have hx1 := pdx_of_lt (show virt < 2 ^ 32 by omega)
  have hx2 := pdx_of_lt (show virt + (size / 4096 - 1) * 4096 < 2 ^ 32 by omega)
  have htables' : ∀ i < 1024, present (pde s1.mem d i) = true → KernelTable i := by
    intro i hi hp
    rcases htables i hi hp with h1 | h1
    · exact hm.tables i hi h1
    · exact htab i (by omega) (by omega)
  rw [setupkvmLoop, hsize, mappages_eq hv hs hpos hle, bind_ok hrun]
  cases r with
  | false =>
    left
    obtain ⟨s',hfree,ho,hsame'⟩ := freevm_spec hd
    refine ⟨s',?_,ho,hsame.trans hsame',?_⟩
    · simp only [Bool.false_eq_true, if_false]
      rw [bind_ok hfree]
      rfl
    · have hcard := card_vmPages_le (d := d) (m := s1.mem) (fun va hva => by
        rw [hout va (by omega) (by omega), hm.outside va (by omega) (fun hc => by
          have := (hR va hc).1
          omega)]
        exact present_zero) htables'
      rw [← hd.owned, hbad rfl, Multiset.coe_nil, zero_add, Multiset.card_add]
      omega
  | true =>
    right
    refine ⟨s1,rfl,hd,hsame,fun va hva hc => ?_,fun va hva hc => ?_,htables'⟩
    · by_cases hin : virt ≤ va ∧ va < virt + size
      · exact hok rfl va hin.1 hin.2
      · rw [hout va hva (by omega)]
        exact hm.inside va hva (hc.resolve_right hin)
    · rw [hout va hva (by omega)]
      exact hm.outside va hva (fun h1 => hc (.inl h1))

/-- A page of zeros is a page directory that maps nothing. -/
theorem zeroed_mapped (m : Mem) (d : ℕ) : Mapped (fill m d 4096 0) d (fun va => va < 0) := by
  have hpde : ∀ i < 1024, pde (fill m d 4096 0) d i = 0 := fun i hi =>
    load32_fill_zero m (by omega) (by omega)
  refine ⟨fun va _ hc => by omega,fun va _ _ => ?_,fun i hi hp => ?_⟩
  · unfold pteOf
    rw [hpde _ (pdx_lt va), present_zero]
    rfl
  · rw [hpde i hi, present_zero] at hp
    cases hp

theorem vmPages_zeroed (m : Mem) (d : ℕ) : vmPages (fill m d 4096 0) d = {d} := by
  have hpde : ∀ i < 1024, pde (fill m d 4096 0) d i = 0 := fun i hi =>
    load32_fill_zero m (by omega) (by omega)
  have ht : tablePages (fill m d 4096 0) d = 0 :=
    Finset.sum_eq_zero fun i hi => by rw [hpde i (mem_dirIndices.mp hi)]; exact pageOf_absent present_zero
  have hu : userPages (fill m d 4096 0) d = 0 := by
    refine Finset.sum_eq_zero fun j hj => ?_
    have := mem_userIndices.mp hj
    rw [(zeroed_mapped m d).outside _ (by omega) (by omega)]
    exact pageOf_absent present_zero
  unfold vmPages
  rw [ht, hu]
  rfl

/-- `setupkvm`: a directory with the kernel half, or nothing has changed hands and
memory was short. -/
theorem setupkvm_spec (hpool : Pool k all) (ho : (s.freelist : Multiset ℕ) + oth = all) :
    (∃ s', setupkvm k s = .ok (none,s') ∧ (s'.freelist : Multiset ℕ) + oth = all ∧
      SamePages s.mem s'.mem oth ∧ Multiset.card all ≤ Multiset.card oth + 65) ∨
    ∃ d s', setupkvm k s = .ok (some d,s') ∧ Dir k all s' d oth ∧ SamePages s.mem s'.mem oth ∧
      KernelMapped s'.mem d ∧ (∀ va < 0x80000000, pteOf s'.mem d va = 0) ∧
      (∀ i < 512, present (pde s'.mem d i) = false) := by
  unfold setupkvm
  cases hf : s.freelist with
  | nil =>
    left
    rw [bind_ok (kalloc_nil hf)]
    refine ⟨s,rfl,ho,.refl _ _,?_⟩
    rw [hf, Multiset.coe_nil, zero_add] at ho
    rw [ho]
    omega
  | cons d rest =>
    rw [bind_ok (kalloc_cons hf)]
    dsimp only
    rw [bind_ok (memset_ok _ _ _ _), if_neg (by decide)]
    have hle : {d} + oth ≤ all := by
      rw [← ho, hf, ← Multiset.cons_coe, ← Multiset.singleton_add]
      exact add_le_add_left (Multiset.le_add_right _ _) _
    have hd : d ∈ all := Multiset.mem_of_le hle (by simp)
    have hno : d ∉ oth := by
      have hn := Multiset.nodup_of_le hle hpool.nodup
      rw [Multiset.singleton_add] at hn
      exact (Multiset.nodup_cons.mp hn).1
    have h0 : Dir k all ⟨fill s.mem d 4096 0,rest⟩ d oth := by
      refine ⟨hpool,?_⟩
      rw [vmPages_zeroed, ← ho, hf, ← Multiset.cons_coe, ← Multiset.singleton_add]
      abel
    have hsame0 : SamePages s.mem (fill s.mem d 4096 0) oth :=
      samePages_of_changedIn (.of_sameOn fun _ _ => fill_sameOn _) (hpool.bounds hd).1 h0.oth_aligned hno
    have hdata := k.kernlink_lt
    have hal := k.data_aligned
    have hend := k.data_le.trans k.kend_le
    unfold kernlink kernbase extmem at hdata
    unfold kernbase at hend
    have hv1 : v2p kernlink = 0x100000 := by decide
    have hv2 : v2p k.data = k.data - 0x80000000 := sub32_of_le (by unfold kernbase; omega)
    have huw : user (pteW ||| pteP) = false := by unfold user; decide
    have hu0 : user (0 ||| pteP) = false := by unfold user; decide
    change (∃ s', setupkvmLoop k d (kmap k) ⟨fill s.mem d 4096 0,rest⟩ = .ok (none,s') ∧ _) ∨
      ∃ d' s', setupkvmLoop k d (kmap k) ⟨fill s.mem d 4096 0,rest⟩ = .ok (some d',s') ∧ _
    unfold kmap
    rcases setupkvmLoop_cons h0 (zeroed_mapped s.mem d)
        (show sub32 extmem 0 = 0x100000 by decide) (show kernbase % 4096 = 0 by decide) (by decide)
        (by decide) (by decide) (by decide) (by decide) (by decide) (by decide) huw (fun va hc => by omega)
        (fun i h1 h2 => by unfold kernbase at h1 h2; unfold KernelTable; omega) with
      ⟨s',h1,h2,h3,h4⟩ | ⟨s1,hrun1,hd1,hsame1,hm1⟩
    · exact .inl ⟨s',h1,h2,hsame0.trans h3,h4⟩
    rcases setupkvmLoop_cons hd1 hm1
        (show sub32 (v2p k.data) (v2p kernlink) = k.data - 0x80100000 by
          rw [hv1, hv2, sub32_of_le (by omega)]; omega) (show kernlink % 4096 = 0 by decide) (by omega) (by omega)
        (by unfold kernlink kernbase extmem; omega) (by decide) (by decide)
        (by rw [hv1]; omega) (by decide) hu0
        (fun va hc => by unfold kernbase at hc; unfold kernlink kernbase extmem; omega)
        (fun i h1 h2 => by unfold kernlink kernbase extmem at h1 h2; unfold KernelTable; omega) with
      ⟨s',h1,h2,h3,h4⟩ | ⟨s2,hrun2,hd2,hsame2,hm2⟩
    · exact .inl ⟨s',hrun1.trans h1,h2,hsame0.trans (hsame1.trans h3),h4⟩
    rcases setupkvmLoop_cons hd2 hm2
        (show sub32 phystop (v2p k.data) = 0x8E000000 - k.data by
          rw [hv2, sub32_of_le (by unfold phystop; omega)]; unfold phystop; omega) hal (by omega)
        (by omega) (by omega) (by omega) (by rw [hv2]; omega) (by rw [hv2]; omega) (by decide) huw
        (fun va hc => by unfold kernlink kernbase extmem at hc; omega)
        (fun i h1 h2 => by unfold KernelTable; omega) with
      ⟨s',h1,h2,h3,h4⟩ | ⟨s3,hrun3,hd3,hsame3,hm3⟩
    · exact .inl ⟨s',hrun1.trans (hrun2.trans h1),h2,hsame0.trans (hsame1.trans (hsame2.trans h3)),h4⟩
    rcases setupkvmLoop_cons hd3 hm3 (show sub32 0 devspace = 0x2000000 by decide)
        (show devspace % 4096 = 0 by decide) (by decide)
        (by decide) (by decide) (by decide) (by decide) (by decide) (by decide) huw
        (fun va hc => by unfold kernlink kernbase extmem at hc; unfold devspace; omega)
        (fun i h1 h2 => by unfold devspace at h1 h2; unfold KernelTable; omega) with
      ⟨s',h1,h2,h3,h4⟩ | ⟨s4,hrun4,hd4,hsame4,hm4⟩
    · exact .inl ⟨s',hrun1.trans (hrun2.trans (hrun3.trans h1)),h2,
        hsame0.trans (hsame1.trans (hsame2.trans (hsame3.trans h3))),h4⟩
    right
    refine ⟨d,s4,hrun1.trans (hrun2.trans (hrun3.trans hrun4)),hd4,
      hsame0.trans (hsame1.trans (hsame2.trans (hsame3.trans hsame4))),?_,fun va hva => ?_,fun i hi => ?_⟩
    · unfold kernlink kernbase extmem devspace at hm4
      refine ⟨fun va h1 h2 => ?_,fun va h1 h2 => (hm4.inside va h1 (by omega)).1,
        fun i h1 _ h2 => hm4.tables i h1 h2⟩
      by_cases hin : va < 0x8E000000 ∨ 0xFE000000 ≤ va
      · exact (hm4.inside va h2 (by omega)).2
      · rw [hm4.outside va h2 (by omega)]
        exact user_zero
    · unfold kernlink kernbase extmem devspace at hm4
      exact hm4.outside va (by omega) (by omega)
    · cases hp : present (pde s4.mem d i) with
      | false => rfl
      | true =>
        have := hm4.tables i (by omega) hp
        unfold KernelTable at this
        omega

end Vm
end X86OsDev.Xv6
