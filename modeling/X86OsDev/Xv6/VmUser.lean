import X86OsDev.Xv6.VmBuild

/-! # User memory: growing, copying and writing it -/
namespace X86OsDev.Xv6
open Memory Fault Counting

variable {k : Kernel} {all oth : Multiset ℕ} {s : Machine} {d : ℕ}

/-- Writing into a user page changes no mapping. -/
theorem Dir.writeUser (h : Dir k all s d oth) {p : ℕ} {m : Mem} (hp : p ∈ userPages s.mem d)
    (hch : ChangedIn s.mem m p 4096) :
    Dir k all { s with mem := m } d oth ∧ SamePages s.mem m oth ∧
      (∀ va, pteOf m d va = pteOf s.mem d va) ∧ ∀ i < 1024, pde m d i = pde s.mem d i := by
  obtain ⟨hall,hno⟩ := h.user_mem hp
  have ha := (h.pool.bounds hall).1
  have hvm : SamePages s.mem m ({d} + tablePages s.mem d) :=
    samePages_of_changedIn hch ha h.tables_aligned (h.user_not_table hp)
  have hd : SameOn m s.mem d 4096 := hvm d (by simp)
  refine ⟨⟨h.pool,?_⟩,samePages_of_changedIn hch ha h.oth_aligned hno,
    pteOf_congr hd (hvm.mono (Multiset.le_add_left _ _)),fun i hi => pde_congr hd hi⟩
  rw [vmPages_congr hvm]
  exact h.owned

/-- The kernel half does not change when only user entries do. -/
theorem KernelMapped.congr {m m' : Mem} (h : KernelMapped m d)
    (hpte : ∀ va, 0x80000000 ≤ va → va < 2 ^ 32 → pteOf m' d va = pteOf m d va)
    (hpde : ∀ i < 1024, present (pde m' d i) = true → present (pde m d i) = true ∨ i < 512) :
    KernelMapped m' d where
  noUser va h1 h2 := by
    rw [hpte va h1 h2]
    exact h.noUser va h1 h2
  mapped va h1 h2 := by
    rw [hpte va (by omega) h1]
    exact h.mapped va h1 h2
  tables i h1 h2 h3 := by
    rcases hpde i h1 h3 with h4 | h4
    · exact h.tables i h1 h2 h4
    · omega

/-- The user pages are exactly those below a size. -/
def MapsBelow (m : Mem) (d sz : ℕ) : Prop :=
  ∀ va < 0x80000000, present (pteOf m d va) = true ↔ va < (sz + 4095) / 4096 * 4096

/-- A page as `allocuvm` maps it: accessible to the user and zero. -/
structure Fresh (m : Mem) (d va : ℕ) : Prop where
  present : present (pteOf m d va) = true
  user : user (pteOf m d va) = true
  zero : SameOn m (fun _ => 0) (p2v (pteAddr (pteOf m d va))) 4096

theorem Fresh.congr {m m' : Mem} {va : ℕ} (h : Fresh m d va) (hva : va < 0x80000000) (hs : SameAt m m' d va) :
    Fresh m' d va where
  present := by
    rw [hs.pte]
    exact h.present
  user := by
    rw [hs.pte]
    exact h.user
  zero x h1 h2 := by
    rw [hs.pte] at h1 h2
    rw [hs.page hva h.present x h1 h2]
    exact h.zero x h1 h2

/-- The directory `d` maps an address to a copy of the page that `src` maps it to. -/
structure CopyAt (m : Mem) (src : ℕ) (m' : Mem) (d va : ℕ) : Prop where
  present : present (pteOf m' d va) = true
  flags : pteFlags (pteOf m' d va) = pteFlags (pteOf m src va)
  bytes : ∀ x < 4096, m' (p2v (pteAddr (pteOf m' d va)) + x) = m (p2v (pteAddr (pteOf m src va)) + x)

namespace CopyAt
variable {m m' m'' : Mem} {src va : ℕ}

theorem congr (h : CopyAt m src m' d va) (hva : va < 0x80000000) (hs : SameAt m' m'' d va) :
    CopyAt m src m'' d va where
  present := by
    rw [hs.pte]
    exact h.present
  flags := by
    rw [hs.pte]
    exact h.flags
  bytes x hx := by
    rw [hs.pte, hs.page hva h.present _ (by omega) (by omega)]
    exact h.bytes x hx

theorem of_source (h : CopyAt m' src m'' d va) (hva : va < 0x80000000)
    (hp : Xv6.present (pteOf m src va) = true) (hs : SameAt m m' src va) : CopyAt m src m'' d va where
  present := h.present
  flags := by rw [h.flags, hs.pte]
  bytes x hx := by rw [h.bytes x hx, hs.pte, hs.page hva hp _ (by omega) (by omega)]

end CopyAt

namespace Vm

/-- Taking a page from the free list. -/
theorem take_page (h : Dir k all s d oth) {p : ℕ} {rest : List ℕ} (hf : s.freelist = p :: rest) :
    Dir k all { s with freelist := rest } d ({p} + oth) :=
  ⟨h.pool,(h.free_facts hf).2.2.2⟩

/-- A page that was taken may be written. -/
theorem write_taken {p : ℕ} (h : Dir k all s d ({p} + oth)) {m : Mem} (hch : ChangedIn s.mem m p 4096) :
    Dir k all { s with mem := m } d ({p} + oth) ∧ SamePages s.mem m oth ∧
      (∀ va, SameAt s.mem m d va) ∧ ∀ i < 1024, pde m d i = pde s.mem d i := by
  have hp : p ∈ all := Multiset.mem_of_le h.oth_le (by simp)
  have ha := (h.pool.bounds hp).1
  have hvm : SamePages s.mem m ({d} + tablePages s.mem d) :=
    samePages_of_changedIn hch ha h.tables_aligned fun hc =>
      h.not_mem_oth (Multiset.mem_of_le (Dir.tables_le_vm s.mem d) hc) (by simp)
  have hd : SameOn m s.mem d 4096 := hvm d (by simp)
  have hno : p ∉ oth := by
    have hn := Multiset.nodup_of_le h.oth_le h.pool.nodup
    rw [Multiset.singleton_add] at hn
    exact (Multiset.nodup_cons.mp hn).1
  refine ⟨⟨h.pool,?_⟩,samePages_of_changedIn hch ha (fun q hq => h.oth_aligned q (by simp [hq])) hno,
    fun va => ?_,fun i hi => pde_congr hd hi⟩
  · rw [vmPages_congr hvm]
    exact h.owned
  · exact h.sameAt_of_changedIn hch ha (pteOf_congr hd (hvm.mono (Multiset.le_add_left _ _)) va)
      fun hva hpr heq => h.not_mem_oth (Dir.user_mem_vm (mem_userPages hva hpr)) (by simp [← heq])

/-- The loop of `allocuvm`: the pages from `a` to `hi` are mapped for the user, or all
pages from `lo` on are unmapped again and memory was short. -/
theorem allocuvmLoop_spec {oldsz newsz lo hi : ℕ} (hnew : newsz < 0x80000000)
    (hlo : lo = (oldsz + 4095) / 4096 * 4096) (hhi : hi = (newsz + 4095) / 4096 * 4096) (n : ℕ) :
    ∀ (s : Machine) (a : ℕ), Dir k all s d oth → a % 4096 = 0 → lo ≤ a → a + n * 4096 = hi →
    (∀ va, a ≤ va → va < hi → present (pteOf s.mem d va) = false) →
    ∃ r s', allocuvmLoop k d oldsz newsz n a s = .ok (r,s') ∧ Dir k all s' d oth ∧
      SamePages s.mem s'.mem oth ∧
      (∀ va < 2 ^ 32, va < lo ∨ hi ≤ va → SameAt s.mem s'.mem d va) ∧
      (∀ i < 1024, present (pde s'.mem d i) = true → present (pde s.mem d i) = true ∨ i < 512) ∧
      ((r = newsz ∧ (∀ va, a ≤ va → va < hi → Fresh s'.mem d va) ∧
          ∀ va, lo ≤ va → va < a → SameAt s.mem s'.mem d va) ∨
        (r = 0 ∧ (∀ va, lo ≤ va → va < hi → present (pteOf s'.mem d va) = false) ∧
          s.freelist.length < 2 * n)) := by
  induction n with
  | zero =>
    intro s a h ha hla hn hno
    exact ⟨newsz,s,rfl,h,.refl _ _,fun _ _ _ => .refl _ _ _,fun _ _ hp => .inl hp,
      .inl ⟨rfl,fun va h1 h2 => by omega,fun _ _ _ => .refl _ _ _⟩⟩
  | succ n ih =>
    intro s a h ha hla hn hno
    rw [allocuvmLoop]
    have hround := pgroundup_eq (show oldsz ≤ kernbase by unfold kernbase; omega)
    cases hf : s.freelist with
    | nil =>
      obtain ⟨s',hrun,hd,hsame,hout,hin,hpde⟩ := deallocuvm_spec h
        (by omega) (show oldsz < newsz by omega)
      rw [← hlo, ← hhi] at hout
      rw [← hlo, ← hhi] at hin
      rw [bind_ok (kalloc_nil hf)]
      dsimp only
      rw [bind_ok hrun]
      refine ⟨0,s',rfl,hd,hsame,hout,fun i hi hp => .inl (by rwa [← hpde i hi]),.inr ⟨rfl,hin,?_⟩⟩
      simp
    | cons p rest =>
      have hp : p ∈ all := (h.free_facts hf).1
      have hmod := h.pool.v2p_mod hp
      obtain ⟨h1,hsame1,hpte1,hpde1⟩ := write_taken (take_page h hf)
        (m := fill s.mem p 4096 0) (.of_sameOn fun _ _ => fill_sameOn _)
      dsimp only at h1 hsame1 hpte1 hpde1
      rw [bind_ok (kalloc_cons hf)]
      dsimp only
      rw [bind_ok (memset_ok _ _ _ _)]
      unfold pgsize
      rw [mappages_page ha (by omega)]
      have hno1 : present (pteOf (fill s.mem p 4096 0) d a) = false := by
        rw [(hpte1 a).pte]
        exact hno a le_rfl (by omega)
      rcases mappage_user h1 (by omega) (show pteW ||| pteU < 4096 by decide) hno1 with
        ⟨hmap,hempty⟩ | ⟨s2,hmap,h2,hnew2,hkeep2,hsame2,hpde2,hlen2⟩
      · -- no memory for the page table
        obtain ⟨s3,hrun3,h3,hsame3,hout3,hin3,hpde3⟩ := deallocuvm_spec h1
          (by omega) (show oldsz < newsz by omega)
        obtain ⟨s4,hrun4,h4,hsame4,hpte4,hpde4⟩ := kfree_oth h3
        rw [← hlo, ← hhi] at hout3 hin3
        dsimp only at hempty
        rw [bind_ok hmap]
        simp only [Bool.false_eq_true, if_false]
        rw [bind_ok hrun3, bind_ok hrun4]
        refine ⟨0,s4,rfl,h4,hsame1.trans ((hsame3.mono (Multiset.le_add_left _ _)).trans hsame4),
          fun va hva ho => ?_,fun i hi hp => .inl ?_,.inr ⟨rfl,fun va hv1 hv2 => ?_,?_⟩⟩
        · exact (hpte1 va).trans ((hout3 va hva ho).trans (hpte4 va))
        · rwa [hpde4 i hi, hpde3 i hi, hpde1 i hi] at hp
        · rw [(hpte4 va).pte]
          exact hin3 va hv1 hv2
        · rw [hempty]
          simp only [List.length_cons, List.length_nil]
          omega
      · rw [bind_ok hmap]
        have hnext : u32 (a + 4096) = a + 4096 := u32_of_lt (by omega)
        simp only [if_true, hnext]
        have hkeep : ∀ va < 2 ^ 32, va / 4096 ≠ a / 4096 → SameAt s.mem s2.mem d va := fun va hva hne =>
          (hpte1 va).trans (hkeep2 va hva hne)
        have hfresh : ∀ va, a ≤ va → va < a + 4096 → Fresh s2.mem d va := by
          intro va hv1 hv2
          have hpte := hnew2 va (by omega) (by omega)
          have hpage : p2v (pteAddr (pteOf s2.mem d va)) = p := by
            rw [hpte, pteAddr_add hmod (by decide), h.pool.p2v_v2p hp]
          refine ⟨?_,?_,fun x hx1 hx2 => ?_⟩
          · rw [hpte, present_add hmod]
            exact present_lor _
          · rw [hpte, user_add hmod]
            unfold user
            decide
          · rw [hpage] at hx1 hx2
            rw [hsame2 p (by simp) x hx1 hx2]
            exact if_pos ⟨hx1,hx2⟩
        obtain ⟨r,s',hrun,hd,hsame,hout,htab,hres⟩ := ih s2 (a + 4096) h2 (by omega) (by omega)
          (by omega) (fun va h1 h2 => by
            rw [(hkeep va (by omega) (by omega)).pte]
            exact hno va (by omega) h2)
        dsimp only at hlen2
        refine ⟨r,s',hrun,hd,hsame1.trans ((hsame2.mono (Multiset.le_add_left _ _)).trans hsame),
          fun va hva ho => ?_,fun i hi hp => ?_,?_⟩
        · exact (hkeep va hva (by omega)).trans (hout va hva ho)
        · rcases htab i hi hp with hp2 | hp2
          · rcases hpde2 i hi hp2 with hp3 | rfl
            · exact .inl (by rwa [hpde1 i hi] at hp3)
            · right
              rw [pdx_of_lt (by omega)]
              omega
          · exact .inr hp2
        · rcases hres with ⟨rfl,hin,hlow⟩ | ⟨rfl,hin,hlen⟩
          · refine .inl ⟨rfl,fun va hv1 hv2 => ?_,fun va hv1 hv2 => ?_⟩
            · by_cases hfirst : va < a + 4096
              · exact (hfresh va hv1 hfirst).congr (by omega) (hlow va (by omega) hfirst)
              · exact hin va (by omega) hv2
            · exact (hkeep va (by omega) (by omega)).trans (hlow va hv1 (by omega))
          · refine .inr ⟨rfl,hin,?_⟩
            simp only [List.length_cons]
            omega

/-- `allocuvm`. -/
theorem allocuvm_spec (h : Dir k all s d oth) {oldsz newsz : ℕ} (hnew : newsz < 0x80000000)
    (hle : oldsz ≤ newsz)
    (hno : ∀ va, (oldsz + 4095) / 4096 * 4096 ≤ va → va < (newsz + 4095) / 4096 * 4096 →
      present (pteOf s.mem d va) = false) :
    ∃ r s', allocuvm k d oldsz newsz s = .ok (r,s') ∧ Dir k all s' d oth ∧
      SamePages s.mem s'.mem oth ∧
      (∀ va < 2 ^ 32, va < (oldsz + 4095) / 4096 * 4096 ∨ (newsz + 4095) / 4096 * 4096 ≤ va →
        SameAt s.mem s'.mem d va) ∧
      (∀ i < 1024, present (pde s'.mem d i) = true → present (pde s.mem d i) = true ∨ i < 512) ∧
      ((r = newsz ∧ ∀ va, (oldsz + 4095) / 4096 * 4096 ≤ va → va < (newsz + 4095) / 4096 * 4096 →
          Fresh s'.mem d va) ∨
        (r = 0 ∧ (∀ va, (oldsz + 4095) / 4096 * 4096 ≤ va → va < (newsz + 4095) / 4096 * 4096 →
          present (pteOf s'.mem d va) = false) ∧ s.freelist.length < 2 * (newsz / 4096 + 1))) := by
  have hround := pgroundup_eq (show oldsz ≤ kernbase by unfold kernbase; omega)
  obtain ⟨n,hn,hcount,hbound⟩ : ∃ n, (newsz - (oldsz + 4095) / 4096 * 4096 + 4095) / 4096 = n ∧
      (oldsz + 4095) / 4096 * 4096 + n * 4096 = (newsz + 4095) / 4096 * 4096 ∧ n ≤ newsz / 4096 + 1 :=
    ⟨_,rfl,by omega,by omega⟩
  obtain ⟨r,s',hrun,hd,hsame,hout,htab,hres⟩ := allocuvmLoop_spec (k := k) hnew rfl rfl n s
    ((oldsz + 4095) / 4096 * 4096) h (by omega) le_rfl hcount hno
  refine ⟨r,s',?_,hd,hsame,hout,htab,?_⟩
  · unfold allocuvm
    rw [if_neg (by unfold kernbase; omega), if_neg (by omega), hround]
    unfold pgsize
    rw [hn]
    exact hrun
  · rcases hres with ⟨h1,h2,-⟩ | ⟨h1,h2,h3⟩
    · exact .inl ⟨h1,h2⟩
    · exact .inr ⟨h1,h2,by omega⟩

/-- `clearpteu` of a mapped page. -/
theorem clearpteu_spec (h : Dir k all s d oth) {uva : ℕ} (hva : uva < 0x80000000)
    (hp : present (pteOf s.mem d uva) = true) :
    ∃ s', clearpteu d uva s = .ok ((),s') ∧ Dir k all s' d oth ∧ SamePages s.mem s'.mem oth ∧
      (∀ va < 2 ^ 32, pteOf s'.mem d va =
        if va / 4096 = uva / 4096 then clearU (pteOf s.mem d uva) else pteOf s.mem d va) ∧
      (∀ va < 0x80000000, present (pteOf s.mem d va) = true →
        SameOn s'.mem s.mem (p2v (pteAddr (pteOf s.mem d va))) 4096) ∧
      ∀ i < 1024, pde s'.mem d i = pde s.mem d i := by
  have hpd := present_pde_of_pteOf hp
  have hlt : clearU (pteOf s.mem d uva) < 2 ^ 32 := by
    rw [← load_entryAddr hpd]
    exact (clearU_le _).trans_lt (load32_lt _ _)
  refine ⟨{ s with mem := store32 s.mem (entryAddr s.mem d uva) (clearU (pteOf s.mem d uva)) },?_,
    ⟨h.pool,?_⟩,h.samePages_storeEntry hpd,fun va hv => h.pteOf_storeEntry hpd (by omega) hlt hv,
    fun va hv hpr => h.page_storeEntry hpd hv hpr,fun i hi => h.pde_storeEntry hpd hi⟩
  · unfold clearpteu
    rw [bind_ok (walkpgdir_hit hpd false)]
    dsimp only
    rw [bind_ok (load_ok _ _), load_entryAddr hpd]
    rfl
  · have hvm := h.vmPages_storeEntry hpd hva hlt
    have hpage : pageOf (clearU (pteOf s.mem d uva)) = pageOf (pteOf s.mem d uva) := by
      unfold pageOf
      rw [present_clearU, pteAddr_clearU]
    rw [hpage] at hvm
    dsimp only
    rw [add_right_cancel hvm]
    exact h.owned

/-- A directory whose pages others own is read as before. -/
theorem src_congr {src : ℕ} {m m' : Mem} (hsame : SamePages m m' oth) (hsrc : vmPages m src ≤ oth) :
    (∀ va, SameAt m m' src va) ∧ vmPages m' src = vmPages m src := by
  have h1 := hsame.mono hsrc
  have h2 := h1.mono (Dir.tables_le_vm m src)
  have hd : SameOn m' m src 4096 := h2 src (by simp)
  refine ⟨fun va => ⟨pteOf_congr hd (h2.mono (Multiset.le_add_left _ _)) va,fun hva hp => ?_⟩,vmPages_congr h2⟩
  exact h1 _ (Dir.user_mem_vm (mem_userPages hva hp))

theorem pteFlags_lor {e : ℕ} (h : present e = true) : pteFlags e ||| pteP = pteFlags e := by
  obtain ⟨q,hq⟩ : ∃ q, pteFlags e = 2 * q + 1 := by
    unfold present at h
    rw [beq_iff_eq] at h
    unfold pteFlags pgsize
    exact ⟨e % 4096 / 2,by omega⟩
  rw [hq]
  apply Nat.eq_of_testBit_eq
  intro j
  rw [Nat.testBit_or]
  cases j with
  | zero => simp [pteP]
  | succ j => simp [pteP, Nat.testBit_succ]

/-- The loop of `copyuvm`. -/
theorem copyuvmLoop_spec {src : ℕ} (n : ℕ) : ∀ (s : Machine) (i : ℕ), Dir k all s d oth →
    vmPages s.mem src ≤ oth → i % 4096 = 0 → i + n * 4096 ≤ 0x80000000 →
    (∀ va, i ≤ va → va < i + n * 4096 → present (pteOf s.mem src va) = true) →
    (∀ va, i ≤ va → va < i + n * 4096 → present (pteOf s.mem d va) = false) →
    (∃ s', copyuvmLoop k src d n i s = .ok (none,s') ∧ (s'.freelist : Multiset ℕ) + oth = all ∧
      SamePages s.mem s'.mem oth) ∨
    ∃ s', copyuvmLoop k src d n i s = .ok (some d,s') ∧ Dir k all s' d oth ∧
      SamePages s.mem s'.mem oth ∧
      (∀ va < 2 ^ 32, va < i ∨ i + n * 4096 ≤ va → SameAt s.mem s'.mem d va) ∧
      (∀ va, i ≤ va → va < i + n * 4096 → CopyAt s.mem src s'.mem d va) ∧
      ∀ j < 1024, present (pde s'.mem d j) = true → present (pde s.mem d j) = true ∨ j < 512 := by
  induction n with
  | zero =>
    intro s i h hsrc hi hle hpres hno
    exact .inr ⟨s,rfl,h,.refl _ _,fun _ _ _ => .refl _ _ _,fun va h1 h2 => by omega,fun _ _ hp => .inl hp⟩
  | succ n ih =>
    intro s i h hsrc hi hle hpres hno
    have hpi := hpres i le_rfl (by omega)
    have hpd := present_pde_of_pteOf hpi
    rw [copyuvmLoop, bind_ok (walkpgdir_hit hpd false)]
    dsimp only
    rw [bind_ok (load_ok _ _), load_entryAddr hpd, hpi]
    simp only [Bool.not_true, Bool.false_eq_true, if_false]
    cases hf : s.freelist with
    | nil =>
      rw [bind_ok (kalloc_nil hf)]
      dsimp only
      obtain ⟨s',hrun,ho,hsame⟩ := freevm_spec h
      rw [bind_ok hrun]
      exact .inl ⟨s',rfl,ho,hsame⟩
    | cons p rest =>
      have hp : p ∈ all := (h.free_facts hf).1
      have hmod := h.pool.v2p_mod hp
      obtain ⟨h1,hsame1,hpte1,hpde1⟩ := write_taken (take_page h hf)
        (m := copy s.mem p 4096 (fun x => s.mem (p2v (pteAddr (pteOf s.mem src i)) + x)))
        (.of_sameOn fun _ _ => copy_sameOn _)
      dsimp only at h1 hsame1 hpte1 hpde1
      rw [bind_ok (kalloc_cons hf)]
      dsimp only
      rw [bind_ok get_ok, bind_ok (memmove_ok _ _ _ _)]
      unfold pgsize
      dsimp only
      rw [mappages_page hi (by omega)]
      have hfl : pteFlags (pteOf s.mem src i) < 4096 := Nat.mod_lt _ (by decide)
      rcases mappage_user h1 (show i < 0x80000000 by omega) hfl
          (by rw [(hpte1 i).pte]; exact hno i le_rfl (by omega)) with
        ⟨hmap,-⟩ | ⟨s2,hmap,h2,hnew2,hkeep2,hsame2,hpde2,-⟩
      · left
        obtain ⟨s3,hrun3,h3,hsame3,-,-⟩ := kfree_oth h1
        obtain ⟨s4,hrun4,ho4,hsame4⟩ := freevm_spec h3
        rw [bind_ok hmap]
        simp only [Bool.false_eq_true, if_false]
        rw [bind_ok hrun3, bind_ok hrun4]
        exact ⟨s4,rfl,ho4,hsame1.trans (hsame3.trans hsame4)⟩
      · have hsame12 : SamePages s.mem s2.mem oth :=
          hsame1.trans (hsame2.mono (Multiset.le_add_left _ _))
        obtain ⟨hsrcpte,hsrcvm⟩ := src_congr hsame12 hsrc
        have hkeep : ∀ va < 2 ^ 32, va / 4096 ≠ i / 4096 → SameAt s.mem s2.mem d va := fun va hva hne =>
          (hpte1 va).trans (hkeep2 va hva hne)
        rw [pteFlags_lor hpi] at hnew2
        have hcopy : ∀ va, i ≤ va → va < i + 4096 → CopyAt s.mem src s2.mem d va := by
          intro va hv1 hv2
          have hpte := hnew2 va (by omega) (by omega)
          have hsrcpage : pteOf s.mem src va = pteOf s.mem src i := by
            rw [← pteOf_page, show va / 4096 = i / 4096 by omega, pteOf_page]
          have hpage : p2v (pteAddr (pteOf s2.mem d va)) = p := by
            rw [hpte, pteAddr_add hmod hfl, h.pool.p2v_v2p hp]
          refine ⟨?_,?_,fun x hx => ?_⟩
          · rw [hpte, present_add hmod, ← pteFlags_lor hpi]
            exact present_lor _
          · rw [hpte, pteFlags_add hmod hfl, hsrcpage]
          · rw [hpage, hsame2 p (by simp) (p + x) (by omega) (by omega), hsrcpage]
            dsimp only
            unfold copy
            rw [if_pos (by omega), show p + x - p = x by omega]
        have hnext : u32 (i + 4096) = i + 4096 := u32_of_lt (by omega)
        rw [bind_ok hmap]
        simp only [if_true, hnext]
        rcases ih s2 (i + 4096) h2 (by rw [hsrcvm]; exact hsrc) (by omega) (by omega)
            (fun va h1 h2 => by rw [(hsrcpte va).pte]; exact hpres va (by omega) (by omega))
            (fun va h1 h2 => by
              rw [(hkeep va (by omega) (by omega)).pte]
              exact hno va (by omega) (by omega)) with
          ⟨s',hrun,ho,hsame⟩ | ⟨s',hrun,hd,hsame,hout,hin,htab⟩
        · exact .inl ⟨s',hrun,ho,hsame12.trans hsame⟩
        · refine .inr ⟨s',hrun,hd,hsame12.trans hsame,fun va hva ho => ?_,fun va hv1 hv2 => ?_,
            fun j hj hpj => ?_⟩
          · exact (hkeep va hva (by omega)).trans (hout va hva (by omega))
          · by_cases hfirst : va < i + 4096
            · exact (hcopy va hv1 hfirst).congr (by omega) (hout va (by omega) (.inl hfirst))
            · have hv := hpres va (by omega) (by omega)
              exact (hin va (by omega) (by omega)).of_source (by omega) hv (hsrcpte va)
          · rcases htab j hj hpj with hp2 | hp2
            · rcases hpde2 j hj hp2 with hp3 | rfl
              · exact .inl (by rwa [hpde1 j hj] at hp3)
              · right
                rw [pdx_of_lt (by omega)]
                omega
            · exact .inr hp2

/-- `copyuvm`: a copy of the address space, or nothing has changed hands. -/
theorem copyuvm_spec (hpool : Pool k all) (ho : (s.freelist : Multiset ℕ) + oth = all) {src sz : ℕ}
    (hsrc : vmPages s.mem src ≤ oth) (hmaps : MapsBelow s.mem src sz) (hsz : sz < 0x80000000) :
    (∃ s', copyuvm k src sz s = .ok (none,s') ∧ (s'.freelist : Multiset ℕ) + oth = all ∧
      SamePages s.mem s'.mem oth) ∨
    ∃ d s', copyuvm k src sz s = .ok (some d,s') ∧ Dir k all s' d oth ∧ SamePages s.mem s'.mem oth ∧
      KernelMapped s'.mem d ∧ MapsBelow s'.mem d sz ∧
      ∀ va < (sz + 4095) / 4096 * 4096, CopyAt s.mem src s'.mem d va := by
  unfold copyuvm
  rcases setupkvm_spec hpool ho with ⟨s1,hrun1,ho1,hsame1,-⟩ | ⟨d,s1,hrun1,h1,hsame1,hker,hzero,-⟩
  · left
    rw [bind_ok hrun1]
    exact ⟨s1,rfl,ho1,hsame1⟩
  · rw [bind_ok hrun1]
    dsimp only
    unfold pgsize
    obtain ⟨hpte1,hvm1⟩ := src_congr hsame1 hsrc
    have hpres : ∀ va < (sz + 4095) / 4096 * 4096, present (pteOf s.mem src va) = true :=
      fun va hva => (hmaps va (by omega)).mpr hva
    rcases copyuvmLoop_spec (k := k) ((sz + 4095) / 4096) s1 0 h1
        (by rw [hvm1]; exact hsrc) rfl (by omega)
        (fun va _ h2 => by rw [(hpte1 va).pte]; exact hpres va (by omega))
        (fun va _ h2 => by rw [hzero va (by omega)]; exact present_zero) with
      ⟨s',hrun,ho',hsame⟩ | ⟨s',hrun,hd,hsame,hout,hin,htab⟩
    · exact .inl ⟨s',hrun,ho',hsame1.trans hsame⟩
    · refine .inr ⟨d,s',hrun,hd,hsame1.trans hsame,hker.congr (fun va h1 h2 => ?_) htab,fun va hva => ?_,
        fun va hva => ?_⟩
      · exact (hout va h2 (by omega)).pte
      · constructor
        · intro hp
          by_contra hge
          rw [(hout va (by omega) (by omega)).pte, hzero va hva, present_zero] at hp
          cases hp
        · intro hlt
          exact (hin va (by omega) (by omega)).present
      · exact (hin va (by omega) (by omega)).of_source (by omega) (hpres va hva) (hpte1 va)

end Vm

/-! ## What the user reads -/

/-- The user entry of an address, if it is mapped. -/
def userEntry (m : Mem) (d va : ℕ) : Option ℕ :=
  if present (pteOf m d va) then some (pteOf m d va) else none

/-- The byte that the user reads at an address, if it is mapped. -/
def userByte (m : Mem) (d va : ℕ) : Option UInt8 :=
  (userEntry m d va).map fun e => m (p2v (pteAddr e) + va % 4096)

section Bytes
variable {m m' : Mem} {va : ℕ}

theorem SameAt.userEntry (h : SameAt m m' d va) : userEntry m' d va = userEntry m d va := by
  unfold Xv6.userEntry
  rw [h.pte]

theorem SameAt.userByte (h : SameAt m m' d va) (hva : va < 0x80000000) :
    userByte m' d va = userByte m d va := by
  unfold Xv6.userByte
  rw [h.userEntry]
  unfold Xv6.userEntry
  split
  · rename_i hp
    exact congrArg some (h.page hva hp _ (by omega) (by omega))
  · rfl

theorem Fresh.userByte (h : Fresh m d va) : userByte m d va = some 0 := by
  unfold Xv6.userByte Xv6.userEntry
  rw [if_pos h.present]
  exact congrArg some (h.zero _ (by omega) (by omega))

theorem userEntry_absent (h : present (pteOf m d va) = false) : userEntry m d va = none :=
  if_neg (by rw [h]; exact Bool.false_ne_true)

end Bytes

/-- A size is bounded by physical memory, since each user page is a page of its own. -/
theorem Dir.size_lt (h : Dir k all s d oth) {sz : ℕ} (hmaps : MapsBelow s.mem d sz) :
    sz < 0x80000000 := by
  by_contra hbig
  have hpres : ∀ j ∈ userIndices, present (pteOf s.mem d (4096 * j)) = true := by
    intro j hj
    have := mem_userIndices.mp hj
    exact (hmaps (4096 * j) (by omega)).mpr (by omega)
  have hle : userIndices.card ≤ (Finset.Ico 0x80100 0x8E000).card := by
    apply Finset.card_le_card_of_injOn fun j => p2v (pteAddr (pteOf s.mem d (4096 * j))) / 4096
    · intro j hj
      have hj' := mem_userIndices.mp hj
      have hb := h.pool.bounds (h.user_mem (mem_userPages (by omega) (hpres j hj))).1
      rw [Finset.mem_coe, Finset.mem_Ico]
      dsimp only
      omega
    · intro i hi j hj heq
      have hi' := mem_userIndices.mp hi
      have hj' := mem_userIndices.mp hj
      have hbi := h.pool.bounds (h.user_mem (mem_userPages (by omega) (hpres i hi))).1
      have hbj := h.pool.bounds (h.user_mem (mem_userPages (by omega) (hpres j hj))).1
      have := h.user_inj (by omega) (by omega) (hpres i hi) (hpres j hj) (by dsimp only at heq; omega)
      omega
  unfold userIndices at hle
  rw [Finset.card_range, Nat.card_Ico] at hle
  omega

end X86OsDev.Xv6
