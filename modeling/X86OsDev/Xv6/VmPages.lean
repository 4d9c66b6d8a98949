import X86OsDev.Lib.Counting
import X86OsDev.Xv6.Vm

/-! # The pages of a page directory

A page directory owns its own page, its page-table pages and the pages that it
maps below `KERNBASE`. Pages are counted in multisets, so that a page that is
owned twice shows. The entry for a virtual address is read through `pteOf`, and
the operations of vm.c are described by what they do to that function and to
the owned pages.
-/
namespace X86OsDev.Xv6
open Memory Fault Counting

/-- The entry of the page directory. -/
def pde (m : Mem) (d i : ℕ) : ℕ := load32 m (d + 4 * i)

/-- The page-table page of an entry of the page directory. -/
def tableOf (m : Mem) (d i : ℕ) : ℕ := p2v (pteAddr (pde m d i))

/-- Where the entry for a virtual address lies. -/
def entryAddr (m : Mem) (d va : ℕ) : ℕ := tableOf m d (pdx va) + 4 * ptx va

/-- The entry for a virtual address, zero when there is no page table for it. -/
def pteOf (m : Mem) (d va : ℕ) : ℕ :=
  if present (pde m d (pdx va)) then load32 m (entryAddr m d va) else 0

/-- The page that an entry refers to. -/
def pageOf (e : ℕ) : Multiset ℕ := if present e then {p2v (pteAddr e)} else 0

/-- The entries of a page directory, and the pages below `KERNBASE`. -/
@[irreducible] def dirIndices : Finset ℕ := Finset.range 1024
@[irreducible] def userIndices : Finset ℕ := Finset.range 0x80000

theorem mem_dirIndices {i : ℕ} : i ∈ dirIndices ↔ i < 1024 := by
  unfold dirIndices
  exact Finset.mem_range

theorem mem_userIndices {j : ℕ} : j ∈ userIndices ↔ j < 0x80000 := by
  unfold userIndices
  exact Finset.mem_range

def tablePages (m : Mem) (d : ℕ) : Multiset ℕ := ∑ i ∈ dirIndices, pageOf (pde m d i)

/-- The pages mapped below `KERNBASE`, one for each page of virtual addresses. -/
def userPages (m : Mem) (d : ℕ) : Multiset ℕ := ∑ j ∈ userIndices, pageOf (pteOf m d (4096 * j))

def vmPages (m : Mem) (d : ℕ) : Multiset ℕ := {d} + (tablePages m d + userPages m d)

/-- The memory of some pages is the same. -/
def SamePages (m m' : Mem) (ps : Multiset ℕ) : Prop := ∀ p ∈ ps, SameOn m' m p 4096

/-- A virtual address has the same entry, and a user page the same bytes. -/
structure SameAt (m m' : Mem) (d va : ℕ) : Prop where
  pte : pteOf m' d va = pteOf m d va
  page : va < 0x80000000 → present (pteOf m d va) = true →
    SameOn m' m (p2v (pteAddr (pteOf m d va))) 4096

/-- The pages that the allocator was given. -/
structure Pool (k : Kernel) (all : Multiset ℕ) : Prop where
  nodup : all.Nodup
  good : ∀ p ∈ all, p % 4096 = 0 ∧ k.kend ≤ p ∧ p + 4096 ≤ 0x8E000000

/-- The page directory `d` and the owners of the pages `oth` share all pages with the free list. -/
structure Dir (k : Kernel) (all : Multiset ℕ) (s : Machine) (d : ℕ) (oth : Multiset ℕ) : Prop where
  pool : Pool k all
  owned : (s.freelist : Multiset ℕ) + (vmPages s.mem d + oth) = all

variable {k : Kernel} {all oth : Multiset ℕ} {s : Machine} {d : ℕ}

section Frames
variable {m m' m'' : Mem} {ps qs : Multiset ℕ} {p q : ℕ}

theorem SamePages.refl (m : Mem) (ps : Multiset ℕ) : SamePages m m ps := fun _ _ _ _ _ => rfl

theorem SamePages.trans (h : SamePages m m' ps) (h' : SamePages m' m'' ps) : SamePages m m'' ps :=
  fun p hp x h1 h2 => (h' p hp x h1 h2).trans (h p hp x h1 h2)

theorem SamePages.mono (h : SamePages m m' ps) (hq : qs ≤ ps) : SamePages m m' qs :=
  fun p hp => h p (Multiset.mem_of_le hq hp)

theorem SameAt.refl (m : Mem) (d va : ℕ) : SameAt m m d va := ⟨rfl,fun _ _ _ _ _ => rfl⟩

theorem SameAt.trans {va : ℕ} (h : SameAt m m' d va) (h' : SameAt m' m'' d va) : SameAt m m'' d va where
  pte := h'.pte.trans h.pte
  page hva hp x h1 h2 := by
    rw [← h.page hva hp x h1 h2]
    rw [← h.pte] at hp h1 h2
    exact h'.page hva hp x h1 h2

theorem pages_apart (hp : p % 4096 = 0) (hq : q % 4096 = 0) (h : p ≠ q) : Apart p 4096 q 4096 := by
  unfold Apart
  omega

/-- A change inside one page leaves the other pages alone. -/
theorem samePages_of_changedIn (hch : ChangedIn m m' p 4096) (hp : p % 4096 = 0)
    (hps : ∀ q ∈ ps, q % 4096 = 0) (hnot : p ∉ ps) : SamePages m m' ps := by
  intro q hq
  exact hch.sameOn (pages_apart hp (hps q hq) fun h => hnot (h ▸ hq))

theorem pde_congr {i : ℕ} (h : SameOn m' m d 4096) (hi : i < 1024) : pde m' d i = pde m d i :=
  load32_congr (h.mono (by omega) (by omega))

theorem mem_pageOf {e x : ℕ} : x ∈ pageOf e ↔ present e = true ∧ x = p2v (pteAddr e) := by
  unfold pageOf
  split <;> simp_all

theorem pageOf_present {e : ℕ} (h : present e = true) : pageOf e = {p2v (pteAddr e)} := if_pos h

theorem pageOf_absent {e : ℕ} (h : present e = false) : pageOf e = 0 := by simp [pageOf,h]

theorem tableOf_mem {i : ℕ} (hi : i < 1024) (h : present (pde m d i) = true) :
    tableOf m d i ∈ tablePages m d :=
  mem_sum_of_mem (mem_dirIndices.mpr hi) (mem_pageOf.mpr ⟨h,rfl⟩)

theorem entryAddr_congr {va : ℕ} (h : pde m' d (pdx va) = pde m d (pdx va)) :
    entryAddr m' d va = entryAddr m d va := by
  unfold entryAddr tableOf
  rw [h]

theorem pteOf_congr (hd : SameOn m' m d 4096) (ht : SamePages m m' (tablePages m d)) (va : ℕ) :
    pteOf m' d va = pteOf m d va := by
  have hpde := pde_congr hd (pdx_lt va)
  unfold pteOf
  rw [hpde]
  split
  · rename_i hpres
    have hx := ptx_lt va
    rw [entryAddr_congr hpde]
    exact load32_congr ((ht _ (tableOf_mem (pdx_lt va) hpres)).mono
      (by unfold entryAddr; omega) (by unfold entryAddr; omega))
  · rfl

/-- The pages depend on the directory and its page tables only. -/
theorem vmPages_congr (h : SamePages m m' ({d} + tablePages m d)) : vmPages m' d = vmPages m d := by
  have hd : SameOn m' m d 4096 := h d (by simp)
  have ht : SamePages m m' (tablePages m d) := h.mono (Multiset.le_add_left _ _)
  unfold vmPages tablePages userPages
  congr 2
  · exact Finset.sum_congr rfl fun i hi => by rw [pde_congr hd (mem_dirIndices.mp hi)]
  · exact Finset.sum_congr rfl fun j _ => by rw [pteOf_congr hd ht]

end Frames

namespace Pool
variable {p : ℕ}

/-- A page of the allocator lies above the kernel and below the end of physical memory. -/
theorem bounds (h : Pool k all) (hp : p ∈ all) :
    p % 4096 = 0 ∧ k.kend ≤ p ∧ 0x80100000 < p ∧ p + 4096 ≤ 0x8E000000 := by
  obtain ⟨h1,h2,h3⟩ := h.good p hp
  have h4 := k.kernlink_lt
  have h5 := k.data_le
  unfold kernlink kernbase extmem at h4
  omega

theorem mono (h : Pool k all) {sub : Multiset ℕ} (hle : sub ≤ all) : Pool k sub :=
  ⟨Multiset.nodup_of_le hle h.nodup,fun p hp => h.good p (Multiset.mem_of_le hle hp)⟩

theorem p2v_v2p (h : Pool k all) (hp : p ∈ all) : p2v (v2p p) = p := by
  obtain ⟨-,-,h1,h2⟩ := h.bounds hp
  exact Xv6.p2v_v2p (by unfold kernbase; omega) (by omega)

theorem v2p_mod (h : Pool k all) (hp : p ∈ all) : v2p p % 4096 = 0 := by
  obtain ⟨h0,-,h1,-⟩ := h.bounds hp
  exact Xv6.v2p_mod (by unfold kernbase; omega) h0

theorem v2p_lt (h : Pool k all) (hp : p ∈ all) : v2p p + 4096 ≤ 0xE000000 := by
  obtain ⟨-,-,h1,h2⟩ := h.bounds hp
  unfold v2p
  rw [sub32_of_le (by unfold kernbase; omega)]
  unfold kernbase
  omega

end Pool

namespace Dir

theorem vm_le (h : Dir k all s d oth) : vmPages s.mem d ≤ all := by
  rw [← h.owned]
  exact (Multiset.le_add_right _ _).trans (Multiset.le_add_left _ _)

theorem oth_le (h : Dir k all s d oth) : oth ≤ all := by
  rw [← h.owned]
  exact (Multiset.le_add_left _ _).trans (Multiset.le_add_left _ _)

theorem free_le (h : Dir k all s d oth) : (s.freelist : Multiset ℕ) ≤ all := by
  rw [← h.owned]
  exact Multiset.le_add_right _ _

theorem dir_mem (h : Dir k all s d oth) : d ∈ all :=
  Multiset.mem_of_le h.vm_le (by simp [vmPages])

theorem tables_le_vm (m : Mem) (d : ℕ) : {d} + tablePages m d ≤ vmPages m d := by
  unfold vmPages
  rw [← add_assoc]
  exact Multiset.le_add_right _ _

theorem tables_le (h : Dir k all s d oth) : {d} + tablePages s.mem d ≤ all :=
  (tables_le_vm s.mem d).trans h.vm_le

theorem table_mem (h : Dir k all s d oth) {i : ℕ} (hi : i < 1024)
    (hp : present (pde s.mem d i) = true) : tableOf s.mem d i ∈ all :=
  Multiset.mem_of_le h.tables_le (Multiset.mem_add.mpr (.inr (tableOf_mem hi hp)))

theorem table_ne_dir (h : Dir k all s d oth) {i : ℕ} (hi : i < 1024)
    (hp : present (pde s.mem d i) = true) : tableOf s.mem d i ≠ d := by
  have hn := Multiset.nodup_of_le h.tables_le h.pool.nodup
  intro heq
  exact Multiset.disjoint_left.mp (Multiset.nodup_add.mp hn).2.2 (by simp) (heq ▸ tableOf_mem hi hp)

theorem table_inj (h : Dir k all s d oth) {i j : ℕ} (hi : i < 1024) (hj : j < 1024)
    (hpi : present (pde s.mem d i) = true) (hpj : present (pde s.mem d j) = true)
    (heq : tableOf s.mem d i = tableOf s.mem d j) : i = j := by
  have hn := Multiset.nodup_of_le h.tables_le h.pool.nodup
  exact eq_of_mem_of_nodup (Multiset.nodup_add.mp hn).2.1 (mem_dirIndices.mpr hi)
    (mem_dirIndices.mpr hj) (mem_pageOf.mpr ⟨hpi,rfl⟩) (mem_pageOf.mpr ⟨hpj,heq⟩)

/-- A page of the directory belongs to nobody else. -/
theorem not_mem_oth (h : Dir k all s d oth) {p : ℕ} (hp : p ∈ vmPages s.mem d) : p ∉ oth := by
  have hn := h.pool.nodup
  rw [← h.owned] at hn
  have h2 := (Multiset.nodup_add.mp (Multiset.nodup_add.mp hn).2.1).2.2
  exact Multiset.disjoint_left.mp h2 hp

theorem oth_aligned (h : Dir k all s d oth) : ∀ q ∈ oth, q % 4096 = 0 :=
  fun _ hq => (h.pool.bounds (Multiset.mem_of_le h.oth_le hq)).1

theorem vm_aligned (h : Dir k all s d oth) : ∀ q ∈ vmPages s.mem d, q % 4096 = 0 :=
  fun _ hq => (h.pool.bounds (Multiset.mem_of_le h.vm_le hq)).1

end Dir

theorem pteOf_page (m : Mem) (d va : ℕ) : pteOf m d (4096 * (va / 4096)) = pteOf m d va := by
  have h1 : pdx (4096 * (va / 4096)) = pdx va := by unfold pdx; omega
  have h2 : ptx (4096 * (va / 4096)) = ptx va := by unfold ptx; omega
  unfold pteOf entryAddr
  rw [h1, h2]

theorem mem_userPages {m : Mem} {va : ℕ} (hva : va < 0x80000000)
    (hp : present (pteOf m d va) = true) : p2v (pteAddr (pteOf m d va)) ∈ userPages m d := by
  refine mem_sum_of_mem (i := va / 4096) (mem_userIndices.mpr (by omega)) ?_
  rw [pteOf_page]
  exact mem_pageOf.mpr ⟨hp,rfl⟩

namespace Dir

/-- A user page is neither the directory nor a page table. -/
theorem user_not_table (h : Dir k all s d oth) {p : ℕ} (hp : p ∈ userPages s.mem d) :
    p ∉ {d} + tablePages s.mem d := by
  have hn := Multiset.nodup_of_le h.vm_le h.pool.nodup
  unfold vmPages at hn
  rw [← add_assoc] at hn
  exact fun hc => Multiset.disjoint_left.mp (Multiset.nodup_add.mp hn).2.2 hc hp

theorem user_mem_vm {m : Mem} {p : ℕ} (hp : p ∈ userPages m d) : p ∈ vmPages m d :=
  Multiset.mem_add.mpr (.inr (Multiset.mem_add.mpr (.inr hp)))

theorem user_mem (h : Dir k all s d oth) {p : ℕ} (hp : p ∈ userPages s.mem d) :
    p ∈ all ∧ p ∉ oth :=
  ⟨Multiset.mem_of_le h.vm_le (user_mem_vm hp),h.not_mem_oth (user_mem_vm hp)⟩

/-- Each user page is mapped at one address only. -/
theorem user_inj (h : Dir k all s d oth) {va va' : ℕ} (hva : va < 0x80000000) (hva' : va' < 0x80000000)
    (hp : present (pteOf s.mem d va) = true) (hp' : present (pteOf s.mem d va') = true)
    (heq : p2v (pteAddr (pteOf s.mem d va)) = p2v (pteAddr (pteOf s.mem d va'))) :
    va / 4096 = va' / 4096 := by
  have hn := Multiset.nodup_of_le h.vm_le h.pool.nodup
  unfold vmPages at hn
  have hu := (Multiset.nodup_add.mp (Multiset.nodup_add.mp hn).2.1).2.1
  refine eq_of_mem_of_nodup hu (x := p2v (pteAddr (pteOf s.mem d va))) (mem_userIndices.mpr (by omega))
    (mem_userIndices.mpr (by omega)) ?_ ?_
  · rw [pteOf_page]
    exact mem_pageOf.mpr ⟨hp,rfl⟩
  · rw [pteOf_page, heq]
    exact mem_pageOf.mpr ⟨hp',rfl⟩

/-- A change inside one page leaves the bytes of the user pages other than it alone. -/
theorem sameAt_of_changedIn (h : Dir k all s d oth) {m : Mem} {p va : ℕ} (hch : ChangedIn s.mem m p 4096)
    (hp : p % 4096 = 0) (hpte : pteOf m d va = pteOf s.mem d va)
    (hne : va < 0x80000000 → present (pteOf s.mem d va) = true → p ≠ p2v (pteAddr (pteOf s.mem d va))) :
    SameAt s.mem m d va where
  pte := hpte
  page hva hpr := hch.sameOn (pages_apart hp (h.pool.bounds (h.user_mem (mem_userPages hva hpr)).1).1 (hne hva hpr))

end Dir

/-! ## Changing an entry -/

section Entry
variable {va v : ℕ}

theorem entry_changedIn (m : Mem) (d va v : ℕ) :
    ChangedIn m (store32 m (entryAddr m d va) v) (tableOf m d (pdx va)) 4096 := by
  have hx := ptx_lt va
  exact (store32_changedIn m _ v).mono (by unfold entryAddr; omega) (by unfold entryAddr; omega)

/-- Two addresses with the same indexes lie in the same page. -/
theorem page_eq_of_index {va va' : ℕ} (h : va < 2 ^ 32) (h' : va' < 2 ^ 32) :
    va' / 4096 = va / 4096 ↔ pdx va' = pdx va ∧ ptx va' = ptx va := by
  unfold pdx ptx
  omega

namespace Dir

theorem pde_storeEntry (h : Dir k all s d oth) (hp : present (pde s.mem d (pdx va)) = true) {i : ℕ}
    (hi : i < 1024) : pde (store32 s.mem (entryAddr s.mem d va) v) d i = pde s.mem d i := by
  have ht := h.table_mem (pdx_lt va) hp
  refine pde_congr ((entry_changedIn s.mem d va v).sameOn ?_) hi
  exact pages_apart (h.pool.bounds ht).1 (h.pool.bounds h.dir_mem).1 (h.table_ne_dir (pdx_lt va) hp)

/-- An entry that is stored replaces the entry of its page and no other one. -/
theorem pteOf_storeEntry (h : Dir k all s d oth) (hp : present (pde s.mem d (pdx va)) = true)
    (hva : va < 2 ^ 32) (hv : v < 2 ^ 32) {va' : ℕ} (hva' : va' < 2 ^ 32) :
    pteOf (store32 s.mem (entryAddr s.mem d va) v) d va' =
      if va' / 4096 = va / 4096 then v else pteOf s.mem d va' := by
  have hpde := h.pde_storeEntry (v := v) hp (pdx_lt va')
  have hea := entryAddr_congr hpde
  unfold pteOf
  rw [hpde, hea]
  by_cases hpage : va' / 4096 = va / 4096
  · obtain ⟨h1,h2⟩ := (page_eq_of_index hva hva').mp hpage
    have heq : entryAddr s.mem d va' = entryAddr s.mem d va := by
      unfold entryAddr
      rw [h1, h2]
    rw [if_pos hpage, h1, if_pos hp, heq, load32_store32, Nat.mod_eq_of_lt hv]
  · rw [if_neg hpage]
    split
    · rename_i hp'
      refine load32_store32_of_apart _ _ ?_
      have hx := ptx_lt va
      have hx' := ptx_lt va'
      by_cases hd : pdx va' = pdx va
      · have hne : ptx va' ≠ ptx va := fun hx => hpage ((page_eq_of_index hva hva').mpr ⟨hd,hx⟩)
        unfold Apart entryAddr
        rw [hd]
        omega
      · have hap := pages_apart (h.pool.bounds (h.table_mem (pdx_lt va) hp)).1
          (h.pool.bounds (h.table_mem (pdx_lt va') hp')).1
          (fun heq => hd (h.table_inj (pdx_lt va') (pdx_lt va) hp' hp heq.symm))
        unfold Apart entryAddr at *
        omega
    · rfl

theorem samePages_storeEntry (h : Dir k all s d oth) (hp : present (pde s.mem d (pdx va)) = true) :
    SamePages s.mem (store32 s.mem (entryAddr s.mem d va) v) oth := by
  have hmem := tableOf_mem (pdx_lt va) hp
  refine samePages_of_changedIn (entry_changedIn s.mem d va v) (h.pool.bounds (h.table_mem (pdx_lt va) hp)).1
    h.oth_aligned (h.not_mem_oth ?_)
  exact Multiset.mem_add.mpr (.inr (Multiset.mem_add.mpr (.inl hmem)))

/-- Storing an entry changes no byte of a user page. -/
theorem page_storeEntry (h : Dir k all s d oth) (hp : present (pde s.mem d (pdx va)) = true) {va' : ℕ}
    (hva' : va' < 0x80000000) (hp' : present (pteOf s.mem d va') = true) :
    SameOn (store32 s.mem (entryAddr s.mem d va) v) s.mem (p2v (pteAddr (pteOf s.mem d va'))) 4096 := by
  have hmem := mem_userPages hva' hp'
  refine (entry_changedIn s.mem d va v).sameOn (pages_apart (h.pool.bounds (h.table_mem (pdx_lt va) hp)).1
    (h.pool.bounds (h.user_mem hmem).1).1 fun heq => h.user_not_table hmem ?_)
  rw [← heq]
  exact Multiset.mem_add.mpr (.inr (tableOf_mem (pdx_lt va) hp))

theorem sameAt_storeEntry (h : Dir k all s d oth) (hp : present (pde s.mem d (pdx va)) = true)
    (hva : va < 2 ^ 32) (hv : v < 2 ^ 32) {va' : ℕ} (hva' : va' < 2 ^ 32)
    (hne : va' / 4096 ≠ va / 4096) :
    SameAt s.mem (store32 s.mem (entryAddr s.mem d va) v) d va' where
  pte := by
    rw [h.pteOf_storeEntry hp hva hv hva', if_neg hne]
  page hlt hp' := h.page_storeEntry hp hlt hp'

theorem tablePages_storeEntry (h : Dir k all s d oth) (hp : present (pde s.mem d (pdx va)) = true) :
    tablePages (store32 s.mem (entryAddr s.mem d va) v) d = tablePages s.mem d :=
  Finset.sum_congr rfl fun i hi => by rw [h.pde_storeEntry hp (mem_dirIndices.mp hi)]

/-- Below `KERNBASE` the page of the new entry takes the place of the page of the old one. -/
theorem vmPages_storeEntry (h : Dir k all s d oth) (hp : present (pde s.mem d (pdx va)) = true)
    (hva : va < 0x80000000) (hv : v < 2 ^ 32) :
    vmPages (store32 s.mem (entryAddr s.mem d va) v) d + pageOf (pteOf s.mem d va) =
      vmPages s.mem d + pageOf v := by
  have hpte : ∀ j < 0x80000, pteOf (store32 s.mem (entryAddr s.mem d va) v) d (4096 * j) =
      if j = va / 4096 then v else pteOf s.mem d (4096 * j) := by
    intro j hj
    rw [h.pteOf_storeEntry hp (by omega) hv (by omega), show 4096 * j / 4096 = j by omega]
  have hj : va / 4096 ∈ userIndices := mem_userIndices.mpr (by omega)
  have hsum := sum_change (f := fun j => pageOf (pteOf s.mem d (4096 * j)))
    (g := fun j => pageOf (pteOf (store32 s.mem (entryAddr s.mem d va) v) d (4096 * j))) hj
    (fun j hj hne => by rw [hpte j (mem_userIndices.mp hj), if_neg hne])
  rw [hpte _ (mem_userIndices.mp hj), if_pos rfl, pteOf_page] at hsum
  unfold vmPages userPages
  rw [h.tablePages_storeEntry hp, add_assoc, add_assoc, hsum, add_assoc, add_assoc]

/-- Above `KERNBASE` nothing changes hands. -/
theorem vmPages_storeEntry_kernel (h : Dir k all s d oth)
    (hp : present (pde s.mem d (pdx va)) = true) (hk : 0x80000000 ≤ va) (hva : va < 2 ^ 32)
    (hv : v < 2 ^ 32) :
    vmPages (store32 s.mem (entryAddr s.mem d va) v) d = vmPages s.mem d := by
  have hu : userPages (store32 s.mem (entryAddr s.mem d va) v) d = userPages s.mem d := by
    refine Finset.sum_congr rfl fun j hj => ?_
    have := mem_userIndices.mp hj
    rw [h.pteOf_storeEntry hp hva hv (by omega), if_neg (by omega)]
  unfold vmPages
  rw [h.tablePages_storeEntry hp, hu]

end Dir
end Entry

/-! ## A new page table -/

section Grow
variable {va r : ℕ} {rest : List ℕ}

/-- The memory after `walkpgdir` has made the page `r` the page table for `va`. -/
def growMem (m : Mem) (d va r : ℕ) : Mem :=
  store32 (fill m r 4096 0) (d + 4 * pdx va) (v2p r ||| pteP ||| pteW ||| pteU)

namespace Dir

theorem free_facts (h : Dir k all s d oth) (hf : s.freelist = r :: rest) :
    r ∈ all ∧ r ∉ vmPages s.mem d ∧ r ∉ oth ∧
      (rest : Multiset ℕ) + (vmPages s.mem d + ({r} + oth)) = all := by
  have ho := h.owned
  have hn := h.pool.nodup
  rw [hf, ← Multiset.cons_coe] at ho
  rw [← ho] at hn
  have hr : r ∉ (rest : Multiset ℕ) + (vmPages s.mem d + oth) := by
    rw [Multiset.cons_add] at hn
    exact (Multiset.nodup_cons.mp hn).1
  rw [Multiset.mem_add, Multiset.mem_add] at hr
  refine ⟨?_,fun h1 => hr (.inr (.inl h1)),fun h1 => hr (.inr (.inr h1)),?_⟩
  · rw [← ho]
    simp
  · rw [← ho, ← Multiset.singleton_add]
    abel

theorem newEntry_eq (hp : Pool k all) (hr : r ∈ all) :
    v2p r ||| pteP ||| pteW ||| pteU = v2p r + 7 := by
  rw [Nat.lor_assoc, Nat.lor_assoc]
  exact lor_eq_add (hp.v2p_mod hr) (by decide)

theorem pde_grow (h : Dir k all s d oth) (hf : s.freelist = r :: rest) {i : ℕ} (hi : i < 1024) :
    pde (growMem s.mem d va r) d i = if i = pdx va then v2p r + 7 else pde s.mem d i := by
  obtain ⟨hr,hvm,-,-⟩ := h.free_facts hf
  have hx := pdx_lt va
  have hlt := h.pool.v2p_lt hr
  have hap := pages_apart (h.pool.bounds hr).1 (h.pool.bounds h.dir_mem).1
    (fun heq => hvm (by simp [vmPages,heq]))
  unfold pde growMem
  rw [newEntry_eq h.pool hr]
  split
  · rename_i heq
    rw [heq, load32_store32, Nat.mod_eq_of_lt (by omega)]
  · rw [load32_store32_of_apart _ _ (by unfold Apart; omega)]
    exact load32_congr (fill_sameOn _ (by unfold Apart at *; omega))

theorem tableOf_grow (h : Dir k all s d oth) (hf : s.freelist = r :: rest) :
    tableOf (growMem s.mem d va r) d (pdx va) = r := by
  obtain ⟨hr,-⟩ := h.free_facts hf
  unfold tableOf
  rw [h.pde_grow hf (pdx_lt va), if_pos rfl, pteAddr_add (h.pool.v2p_mod hr) (by omega),
    h.pool.p2v_v2p hr]

theorem present_grow (h : Dir k all s d oth) (hf : s.freelist = r :: rest) :
    present (pde (growMem s.mem d va r) d (pdx va)) = true := by
  obtain ⟨hr,-⟩ := h.free_facts hf
  rw [h.pde_grow hf (pdx_lt va), if_pos rfl, present_add (h.pool.v2p_mod hr)]
  unfold present
  rfl

/-- A new page table changes no entry. -/
theorem pteOf_grow (h : Dir k all s d oth) (hf : s.freelist = r :: rest)
    (hp : present (pde s.mem d (pdx va)) = false) (va' : ℕ) :
    pteOf (growMem s.mem d va r) d va' = pteOf s.mem d va' := by
  obtain ⟨hr,hvm,-,-⟩ := h.free_facts hf
  have hx := ptx_lt va'
  have hdx := pdx_lt va
  have hra := (h.pool.bounds hr).1
  have hda := (h.pool.bounds h.dir_mem).1
  have hrd := pages_apart hra hda (fun heq => hvm (by simp [vmPages,heq]))
  by_cases hi : pdx va' = pdx va
  · have h1 : present (pde (growMem s.mem d va r) d (pdx va')) = true := by
      rw [hi]
      exact h.present_grow hf
    have h2 : pteOf s.mem d va' = 0 := by
      unfold pteOf
      rw [hi, if_neg (by simp [hp])]
    unfold pteOf at h2 ⊢
    rw [h2, if_pos h1, entryAddr, hi, h.tableOf_grow hf]
    unfold growMem
    rw [load32_store32_of_apart _ _ (by unfold Apart at *; omega)]
    exact load32_fill_zero _ (by omega) (by omega)
  · have hpde : pde (growMem s.mem d va r) d (pdx va') = pde s.mem d (pdx va') := by
      rw [h.pde_grow hf (pdx_lt va'), if_neg hi]
    unfold pteOf
    rw [hpde, entryAddr_congr hpde]
    split
    · rename_i hp'
      have hta := (h.pool.bounds (h.table_mem (pdx_lt va') hp')).1
      have htd := pages_apart hda hta (h.table_ne_dir (pdx_lt va') hp').symm
      have hmem := tableOf_mem (pdx_lt va') hp'
      have htr := pages_apart hra hta (fun heq => hvm (by
        rw [heq]
        exact Multiset.mem_add.mpr (.inr (Multiset.mem_add.mpr (.inl hmem)))))
      unfold growMem entryAddr
      rw [load32_store32_of_apart _ _ (by unfold Apart at *; omega)]
      exact load32_congr (fill_sameOn _ (by unfold Apart at *; omega))
    · rfl

theorem vmPages_grow (h : Dir k all s d oth) (hf : s.freelist = r :: rest)
    (hp : present (pde s.mem d (pdx va)) = false) :
    vmPages (growMem s.mem d va r) d = vmPages s.mem d + {r} := by
  obtain ⟨hr,-⟩ := h.free_facts hf
  have hi : pdx va ∈ dirIndices := mem_dirIndices.mpr (pdx_lt va)
  have hsum := sum_change (f := fun i => pageOf (pde s.mem d i))
    (g := fun i => pageOf (pde (growMem s.mem d va r) d i)) hi
    (fun i hi hne => by rw [h.pde_grow hf (mem_dirIndices.mp hi), if_neg hne])
  rw [pageOf_absent hp, add_zero, pageOf_present (h.present_grow hf), ← tableOf, h.tableOf_grow hf] at hsum
  have hu : userPages (growMem s.mem d va r) d = userPages s.mem d :=
    Finset.sum_congr rfl fun j _ => by rw [h.pteOf_grow hf hp]
  unfold vmPages
  rw [hu, tablePages, hsum, ← tablePages]
  abel

theorem samePages_grow (h : Dir k all s d oth) (hf : s.freelist = r :: rest) :
    SamePages s.mem (growMem s.mem d va r) oth := by
  obtain ⟨hr,-,ho,-⟩ := h.free_facts hf
  have hx := pdx_lt va
  refine @SamePages.trans _ (fill s.mem r 4096 0) _ _ ?_ ?_
  · exact samePages_of_changedIn (.of_sameOn fun _ _ => fill_sameOn _) (h.pool.bounds hr).1 h.oth_aligned ho
  · exact samePages_of_changedIn ((store32_changedIn _ _ _).mono (by omega) (by omega))
      (h.pool.bounds h.dir_mem).1 h.oth_aligned (h.not_mem_oth (by simp [vmPages]))

theorem sameAt_grow (h : Dir k all s d oth) (hf : s.freelist = r :: rest)
    (hp : present (pde s.mem d (pdx va)) = false) (va' : ℕ) :
    SameAt s.mem (growMem s.mem d va r) d va' where
  pte := h.pteOf_grow hf hp va'
  page hlt hp' := by
    obtain ⟨hr,hvm,-,-⟩ := h.free_facts hf
    have hmem := mem_userPages hlt hp'
    have ha := (h.pool.bounds (h.user_mem hmem).1).1
    have hx := pdx_lt va
    have hrp := pages_apart (h.pool.bounds hr).1 ha fun heq => hvm (heq ▸ user_mem_vm hmem)
    have hdp := pages_apart (h.pool.bounds h.dir_mem).1 ha fun heq => h.user_not_table hmem (by simp [← heq])
    intro x h1 h2
    unfold growMem
    rw [store32_sameOn _ _ (show Apart (d + 4 * pdx va) 4 _ 4096 by unfold Apart at *; omega) x h1 h2]
    exact fill_sameOn _ hrp x h1 h2

theorem grow (h : Dir k all s d oth) (hf : s.freelist = r :: rest)
    (hp : present (pde s.mem d (pdx va)) = false) :
    Dir k all ⟨growMem s.mem d va r,rest⟩ d oth where
  pool := h.pool
  owned := by
    rw [h.vmPages_grow hf hp, ← (h.free_facts hf).2.2.2]
    abel

end Dir
end Grow

/-! ## The allocator and `walkpgdir` -/

namespace Vm

theorem kalloc_cons {r : ℕ} {rest : List ℕ} (hf : s.freelist = r :: rest) :
    kalloc s = .ok (some r,{ s with freelist := rest }) := by
  unfold kalloc
  rw [bind_ok get_ok, hf]
  rfl

theorem kalloc_nil (hf : s.freelist = []) : kalloc s = .ok (none,s) := by
  unfold kalloc
  rw [bind_ok get_ok, hf]
  rfl

/-- `kfree` of a page of the allocator. -/
theorem kfree_ok (hpool : Pool k all) {p : ℕ} (hp : p ∈ all) (s : Machine) :
    ∃ s', kfree k p s = .ok ((),s') ∧ s'.freelist = p :: s.freelist ∧
      ChangedIn s.mem s'.mem p 4096 := by
  obtain ⟨h1,h2,h3,h4⟩ := hpool.bounds hp
  have h5 := hpool.v2p_lt hp
  unfold kfree
  rw [if_neg (by unfold pgsize phystop; omega)]
  refine ⟨_,rfl,rfl,?_⟩
  exact (ChangedIn.of_sameOn fun _ _ => fill_sameOn _).trans
    ((store32_changedIn _ _ _).mono le_rfl (by omega))

theorem kfree_freelist {p : ℕ} {s' : Machine} (h : kfree k p s = .ok ((),s')) : s'.freelist = p :: s.freelist := by
  unfold kfree at h
  split at h
  · cases h
  · cases h
    rfl

theorem walkpgdir_hit {va : ℕ} (hp : present (pde s.mem d (pdx va)) = true) (alloc : Bool) :
    walkpgdir d va alloc s = .ok (some (entryAddr s.mem d va),s) := by
  unfold walkpgdir
  rw [bind_ok (load_ok _ _)]
  unfold pde at hp
  rw [if_pos hp]
  rfl

theorem walkpgdir_miss {va : ℕ} (hp : present (pde s.mem d (pdx va)) = false) :
    walkpgdir d va false s = .ok (none,s) := by
  unfold walkpgdir
  rw [bind_ok (load_ok _ _)]
  unfold pde at hp
  rw [if_neg (by simp [hp])]
  rfl

theorem walkpgdir_full {va : ℕ} (hp : present (pde s.mem d (pdx va)) = false) (hf : s.freelist = []) :
    walkpgdir d va true s = .ok (none,s) := by
  unfold walkpgdir
  rw [bind_ok (load_ok _ _)]
  unfold pde at hp
  rw [if_neg (by simp [hp])]
  simp only [Bool.not_true, Bool.false_eq_true, if_false]
  rw [bind_ok (kalloc_nil hf)]
  rfl

theorem walkpgdir_grow {va r : ℕ} {rest : List ℕ} (hp : present (pde s.mem d (pdx va)) = false)
    (hf : s.freelist = r :: rest) :
    walkpgdir d va true s = .ok (some (r + 4 * ptx va),⟨growMem s.mem d va r,rest⟩) := by
  unfold walkpgdir
  rw [bind_ok (load_ok _ _)]
  unfold pde at hp
  rw [if_neg (by simp [hp])]
  simp only [Bool.not_true, Bool.false_eq_true, if_false]
  rw [bind_ok (kalloc_cons hf)]
  rfl

/-- What `walkpgdir` with `alloc` does: it finds or makes the page table, or it is out of memory. -/
theorem walkpgdir_spec (h : Dir k all s d oth) (va : ℕ) :
    (walkpgdir d va true s = .ok (none,s) ∧ s.freelist = [] ∧ present (pde s.mem d (pdx va)) = false) ∨
    ∃ s', walkpgdir d va true s = .ok (some (entryAddr s'.mem d va),s') ∧ Dir k all s' d oth ∧
      present (pde s'.mem d (pdx va)) = true ∧ (∀ va', SameAt s.mem s'.mem d va') ∧
      SamePages s.mem s'.mem oth ∧
      (∀ i < 1024, i ≠ pdx va → pde s'.mem d i = pde s.mem d i) ∧
      s.freelist.length ≤ s'.freelist.length + 1 := by
  cases hp : present (pde s.mem d (pdx va)) with
  | true =>
    exact .inr ⟨s,walkpgdir_hit hp true,h,hp,fun _ => .refl _ _ _,.refl _ _,fun _ _ _ => rfl,
      Nat.le_succ _⟩
  | false =>
    cases hf : s.freelist with
    | nil => exact .inl ⟨walkpgdir_full hp hf,rfl,rfl⟩
    | cons r rest =>
      refine .inr ⟨⟨growMem s.mem d va r,rest⟩,?_,h.grow hf hp,h.present_grow hf,h.sameAt_grow hf hp,
        h.samePages_grow hf,fun i hi hne => ?_,by simp⟩
      · rw [walkpgdir_grow hp hf]
        unfold entryAddr
        rw [h.tableOf_grow hf]
      · rw [h.pde_grow hf hi, if_neg hne]

end Vm

end X86OsDev.Xv6
