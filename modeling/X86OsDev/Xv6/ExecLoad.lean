import X86OsDev.Xv6.Exec
import X86OsDev.Xv6.VmUser

/-! # The image that `exec` loads -/
namespace X86OsDev.Xv6
open Memory Fault Counting

variable {k : Kernel} {all oth : Multiset ℕ} {s : Machine} {d : ℕ} {f : File}

/-- The end of the image that the program headers ask for, starting with `sz`. -/
def File.imageEnd (f : File) : ℕ → ℕ → ℕ → ℕ
  | 0, _, sz => sz
  | n + 1, off, sz =>
    if f.phType off ≠ elfProgLoad then f.imageEnd n (u32 (off + 32)) sz
    else f.imageEnd n (u32 (off + 32)) (max sz (u32 (f.phVaddr off + f.phMemsz off)))

/-- The top of the stack: two pages above the image. -/
def File.stackTop (f : File) : ℕ := pgroundup (f.imageEnd f.phnum f.phoff 0) + 2 * pgsize

/-- The contents of user memory when the segments are loaded one after another into the contents `g`. -/
def File.loadedBytes (f : File) : ℕ → ℕ → (ℕ → UInt8) → ℕ → UInt8
  | 0, _, g => g
  | n + 1, off, g =>
    if f.phType off ≠ elfProgLoad then f.loadedBytes n (u32 (off + 32)) g
    else f.loadedBytes n (u32 (off + 32)) fun va =>
      if f.phVaddr off ≤ va ∧ va < f.phVaddr off + f.phFilesz off then f.bytes (f.phOff off + (va - f.phVaddr off))
      else g va

/-- The contents of the user memory of a new image. -/
def File.image (f : File) : ℕ → UInt8 := f.loadedBytes f.phnum f.phoff fun _ => 0

/-- The pages below a size have the contents `g`, which is zero above them. -/
structure Holds (m : Mem) (d sz : ℕ) (g : ℕ → UInt8) : Prop where
  bytes : ∀ va < (sz + 4095) / 4096 * 4096, userByte m d va = some (g va)
  zero : ∀ va, (sz + 4095) / 4096 * 4096 ≤ va → g va = 0

/-- An address space with `sz` bytes of user memory, all of it accessible. -/
structure Loaded (m : Mem) (d sz : ℕ) : Prop where
  lt : sz < 0x80000000
  kernel : KernelMapped m d
  maps : MapsBelow m d sz
  accessible : ∀ va < (sz + 4095) / 4096 * 4096, user (pteOf m d va) = true

/-- An address space with a stack page at the top and an inaccessible page below it. -/
structure Stacked (m : Mem) (d sz : ℕ) : Prop where
  aligned : sz % 4096 = 0
  low : 8192 ≤ sz
  lt : sz < 0x80000000
  kernel : KernelMapped m d
  maps : MapsBelow m d sz
  accessible : ∀ va < sz, user (pteOf m d va) = true ↔ ¬ (sz - 8192 ≤ va ∧ va < sz - 4096)

/-- No entry of the directory `d` or of its page tables differs. -/
structure SameMap (m m' : Mem) (d : ℕ) : Prop where
  pte : ∀ va, pteOf m' d va = pteOf m d va
  dir : ∀ i < 1024, pde m' d i = pde m d i

theorem SameMap.refl (m : Mem) (d : ℕ) : SameMap m m d := ⟨fun _ => rfl,fun _ _ => rfl⟩

theorem SameMap.trans {m m' m'' : Mem} (h : SameMap m m' d) (h' : SameMap m' m'' d) :
    SameMap m m'' d :=
  ⟨fun va => (h'.pte va).trans (h.pte va),fun i hi => (h'.dir i hi).trans (h.dir i hi)⟩

theorem SameMap.kernel {m m' : Mem} (h : SameMap m m' d) (hk : KernelMapped m d) : KernelMapped m' d :=
  hk.congr (fun va _ _ => h.pte va) fun i hi hp => .inl (by rwa [← h.dir i hi])

theorem Loaded.congr {m m' : Mem} {sz : ℕ} (hl : Loaded m d sz) (h : SameMap m m' d) :
    Loaded m' d sz where
  lt := hl.lt
  kernel := h.kernel hl.kernel
  maps va hva := by
    rw [h.pte]
    exact hl.maps va hva
  accessible va hva := by
    rw [h.pte]
    exact hl.accessible va hva

theorem Stacked.congr {m m' : Mem} {sz : ℕ} (hl : Stacked m d sz) (h : SameMap m m' d) :
    Stacked m' d sz where
  aligned := hl.aligned
  low := hl.low
  lt := hl.lt
  kernel := h.kernel hl.kernel
  maps va hva := by
    rw [h.pte]
    exact hl.maps va hva
  accessible va hva := by
    rw [h.pte]
    exact hl.accessible va hva

/-- Writing inside the page that a user address is mapped to. -/
theorem Dir.writeMapped (h : Dir k all s d oth) {va a n : ℕ} {src : ℕ → UInt8} (hva : va < 0x80000000)
    (hp : present (pteOf s.mem d va) = true) (ha : p2v (pteAddr (pteOf s.mem d va)) ≤ a)
    (hn : a + n ≤ p2v (pteAddr (pteOf s.mem d va)) + 4096) :
    Dir k all { s with mem := copy s.mem a n src } d oth ∧ SamePages s.mem (copy s.mem a n src) oth ∧
      SameMap s.mem (copy s.mem a n src) d := by
  have hch : ChangedIn s.mem (copy s.mem a n src) a n := .of_sameOn fun _ _ => copy_sameOn _
  obtain ⟨h1,h2,h3,h4⟩ := h.writeUser (mem_userPages hva hp) (hch.mono ha hn)
  exact ⟨h1,h2,⟨h3,h4⟩⟩

/-- What the user reads after bytes were copied into the page of `va0`. -/
theorem Dir.userByte_copy (h : Dir k all s d oth) {va va0 o n : ℕ} {b : ℕ → UInt8} (hva0 : va0 < 0x80000000)
    (hp : present (pteOf s.mem d va0) = true) (hn : o + n ≤ 4096) (hva : va < 0x80000000) :
    userByte (copy s.mem (p2v (pteAddr (pteOf s.mem d va0)) + o) n b) d va =
      if va / 4096 = va0 / 4096 ∧ o ≤ va % 4096 ∧ va % 4096 < o + n then some (b (va % 4096 - o))
      else userByte s.mem d va := by
  have hmap : SameMap s.mem (copy s.mem (p2v (pteAddr (pteOf s.mem d va0)) + o) n b) d :=
    (h.writeMapped hva0 hp (by omega) (by omega)).2.2
  unfold userByte userEntry
  rw [hmap.pte]
  by_cases hpage : va / 4096 = va0 / 4096
  · have hpte : pteOf s.mem d va = pteOf s.mem d va0 := by
      rw [← pteOf_page, hpage, pteOf_page]
    rw [hpte, if_pos hp, Option.map_some, Option.map_some]
    unfold copy
    split
    · rw [if_pos ⟨hpage,by omega,by omega⟩]
      congr 2
      omega
    · rw [if_neg (by omega)]
  · have hout : ¬ (va / 4096 = va0 / 4096 ∧ o ≤ va % 4096 ∧ va % 4096 < o + n) := fun hc => hpage hc.1
    rw [if_neg hout]
    by_cases hpv : present (pteOf s.mem d va) = true
    · have hne : p2v (pteAddr (pteOf s.mem d va0)) ≠ p2v (pteAddr (pteOf s.mem d va)) := fun heq =>
        hpage (h.user_inj hva0 hva hp hpv heq).symm
      have hap := pages_apart (h.pool.bounds (h.user_mem (mem_userPages hva0 hp)).1).1
        (h.pool.bounds (h.user_mem (mem_userPages hva hpv)).1).1 hne
      rw [if_pos hpv, Option.map_some, Option.map_some]
      unfold copy
      rw [if_neg (by unfold Apart at hap; omega)]
    · rw [if_neg hpv, Option.map_none, Option.map_none]

namespace Holds
variable {m m' : Mem} {sz sz' : ℕ} {g : ℕ → UInt8}

/-- More pages, all zero. -/
theorem grow (h : Holds m d sz g) (hle : sz ≤ sz') (hlt : sz' < 0x80000000)
    (hkeep : ∀ va < (sz + 4095) / 4096 * 4096, SameAt m m' d va)
    (hnew : ∀ va, (sz + 4095) / 4096 * 4096 ≤ va → va < (sz' + 4095) / 4096 * 4096 → Fresh m' d va) :
    Holds m' d sz' g where
  bytes va hva := by
    rcases Nat.lt_or_ge va ((sz + 4095) / 4096 * 4096) with hlo | hlo
    · rw [(hkeep va hlo).userByte (by omega)]
      exact h.bytes va hlo
    · rw [(hnew va hlo hva).userByte, h.zero va hlo]
  zero va hva := by
    have hround : (sz + 4095) / 4096 ≤ (sz' + 4095) / 4096 := Nat.div_le_div_right (Nat.add_le_add_right hle _)
    exact h.zero va ((Nat.mul_le_mul_right 4096 hround).trans hva)

/-- A segment of the file. -/
theorem load {addr fsz : ℕ} {src : ℕ → UInt8} (h : Holds m d sz g) (hle : addr + fsz ≤ sz) (hlt : sz < 0x80000000)
    (hbytes : ∀ va < 0x80000000, userByte m' d va =
      if addr ≤ va ∧ va < addr + fsz then some (src va) else userByte m d va) :
    Holds m' d sz (fun va => if addr ≤ va ∧ va < addr + fsz then src va else g va) where
  bytes va hva := by
    rw [hbytes va (by omega), h.bytes va hva]
    split <;> rfl
  zero va hva := by
    rw [if_neg (by omega)]
    exact h.zero va hva

end Holds

namespace Vm

theorem readi_le {off n got : ℕ} (h : f.readi off n = some got) (hw : off + n < 2 ^ 32) : got ≤ n := by
  unfold File.readi at h
  rw [u32_of_lt hw] at h
  split at h
  · cases h
  · split at h <;> cases h <;> omega

theorem readi_le_of_wrap {off n got : ℕ} (h : f.readi off n = some got) (ho : off < 2 ^ 32)
    (hn : n < 2 ^ 32) : got ≤ n := by
  rcases Nat.lt_or_ge (off + n) (2 ^ 32) with hw | hw
  · exact readi_le h hw
  · have hu : u32 (off + n) < off := by
      unfold u32
      omega
    unfold File.readi at h
    rw [if_pos (.inr hu)] at h
    cases h

/-- A read that is not cut short does not wrap around. -/
theorem readi_no_wrap {off n : ℕ} (h : f.readi off n = some n) (ho : off < 2 ^ 32) (hn : n < 2 ^ 32) :
    off + n < 2 ^ 32 := by
  by_contra hw
  have hu : u32 (off + n) < off := by
    unfold u32
    omega
  unfold File.readi at h
  rw [if_pos (.inr hu)] at h
  cases h

/-- The loop of `loaduvm` writes user pages only, and the bytes of the file if it succeeds. -/
theorem loaduvmLoop_spec {addr offset sz : ℕ} (n : ℕ) : ∀ (s : Machine) (i : ℕ), Dir k all s d oth →
    addr % 4096 = 0 → i % 4096 = 0 → i + n * 4096 = (sz + 4095) / 4096 * 4096 → addr + sz < 0x80000000 →
    (0 < n → offset + i < 2 ^ 32) →
    (∀ va, addr ≤ va → va < addr + sz → present (pteOf s.mem d va) = true) →
    ∃ r s', loaduvmLoop f d addr offset sz n i s = .ok (r,s') ∧ Dir k all s' d oth ∧
      SamePages s.mem s'.mem oth ∧ SameMap s.mem s'.mem d ∧
      (r = true → ∀ va < 0x80000000, userByte s'.mem d va =
        if addr + i ≤ va ∧ va < addr + sz then some (f.bytes (offset + (va - addr)))
        else userByte s.mem d va) := by
  induction n with
  | zero =>
    intro s i h _ _ _ _ _ _
    refine ⟨true,s,rfl,h,.refl _ _,.refl _ _,fun _ va _ => ?_⟩
    rw [if_neg (by omega)]
  | succ n ih =>
    intro s i h ha hi hn hlt hoff hpres
    have hpi := hpres (addr + i) (by omega) (by omega)
    have hpd := present_pde_of_pteOf hpi
    rw [loaduvmLoop, u32_of_lt (by omega), bind_ok (walkpgdir_hit hpd false)]
    dsimp only
    rw [bind_ok (load_ok _ _), load_entryAddr hpd]
    obtain ⟨count,hc,hcount,hround⟩ : ∃ count, (if sz - i < pgsize then sz - i else pgsize) = count ∧
        count ≤ 4096 ∧ (count = sz - i ∧ n = 0 ∨ count = 4096 ∧ i + 4096 ≤ sz) :=
      ⟨_,rfl,by unfold pgsize; split <;> omega,by unfold pgsize; split <;> omega⟩
    rw [hc, u32_of_lt (hoff (Nat.succ_pos n))]
    cases hread : f.readi (offset + i) count with
    | none => exact ⟨false,s,rfl,h,.refl _ _,.refl _ _,fun hc => (by cases hc)⟩
    | some got =>
      have hgot := readi_le_of_wrap hread (hoff (Nat.succ_pos n)) (by omega)
      have hbyte : ∀ va < 0x80000000, _ := fun va hva => h.userByte_copy (o := 0) (n := got)
        (b := fun x => f.bytes (offset + i + x)) (show addr + i < 0x80000000 by omega) hpi (by omega) hva
      obtain ⟨h1,hsame1,hmap1⟩ := h.writeMapped (a := p2v (pteAddr (pteOf s.mem d (addr + i))))
        (n := got) (by omega) hpi le_rfl (by omega)
      dsimp only
      rw [bind_ok (memmove_ok _ _ _ _)]
      rw [Nat.add_zero] at hbyte
      generalize copy s.mem (p2v (pteAddr (pteOf s.mem d (addr + i)))) got
        (fun x => f.bytes (offset + i + x)) = m1 at h1 hsame1 hmap1 hbyte ⊢
      split
      · exact ⟨false,_,rfl,h1,hsame1,hmap1,fun hc => (by cases hc)⟩
      · rename_i hall
        obtain rfl : got = count := not_not.mp hall
        have hno := readi_no_wrap hread (hoff (Nat.succ_pos n)) (by omega)
        obtain ⟨r,s',hrun,h2,hsame2,hmap2,hbytes⟩ := ih _ (i + 4096) h1 ha (by omega) (by omega) hlt
          (by omega) fun va h1 h2 => by
            rw [hmap1.pte]
            exact hpres va h1 h2
        refine ⟨r,s',hrun,h2,hsame1.trans hsame2,hmap1.trans hmap2,fun hr va hva => ?_⟩
        rw [hbytes hr va hva]
        dsimp only
        rw [hbyte va hva]
        by_cases hlate : addr + (i + 4096) ≤ va ∧ va < addr + sz
        · rw [if_pos hlate, if_pos ⟨by omega,hlate.2⟩]
        · rw [if_neg hlate]
          by_cases hnow : addr + i ≤ va ∧ va < addr + sz
          · rw [if_pos ⟨by omega,by omega,by omega⟩, if_pos hnow]
            congr 2
            omega
          · rw [if_neg (by omega), if_neg hnow]

theorem loaduvm_spec (h : Dir k all s d oth) {addr offset sz : ℕ} (ha : addr % 4096 = 0)
    (hlt : addr + sz < 0x80000000) (hoff : offset < 2 ^ 32)
    (hpres : ∀ va, addr ≤ va → va < addr + sz → present (pteOf s.mem d va) = true) :
    ∃ r s', loaduvm f d addr offset sz s = .ok (r,s') ∧ Dir k all s' d oth ∧
      SamePages s.mem s'.mem oth ∧ SameMap s.mem s'.mem d ∧
      (r = true → ∀ va < 0x80000000, userByte s'.mem d va =
        if addr ≤ va ∧ va < addr + sz then some (f.bytes (offset + (va - addr)))
        else userByte s.mem d va) := by
  obtain ⟨r,s',hrun,hrest⟩ := loaduvmLoop_spec (f := f) ((sz + 4095) / 4096) s 0 h ha
    rfl (by omega) hlt (fun _ => hoff) hpres
  refine ⟨r,s',?_,hrest⟩
  unfold loaduvm
  rw [if_neg (by unfold pgsize; omega)]
  exact hrun

/-- `allocuvm` of an image, whatever size is asked for. -/
theorem allocuvm_loaded (h : Dir k all s d oth) {sz newsz : ℕ} (hl : Loaded s.mem d sz) :
    ∃ r s', allocuvm k d sz newsz s = .ok (r,s') ∧ Dir k all s' d oth ∧ SamePages s.mem s'.mem oth ∧
      (r ≠ 0 → r = max sz newsz ∧ Loaded s'.mem d r ∧
        (∀ va < (sz + 4095) / 4096 * 4096, SameAt s.mem s'.mem d va) ∧
        ∀ va, (sz + 4095) / 4096 * 4096 ≤ va → va < (r + 4095) / 4096 * 4096 → Fresh s'.mem d va) := by
  by_cases hbig : kernbase ≤ newsz
  · refine ⟨0,s,?_,h,.refl _ _,fun hc => absurd rfl hc⟩
    unfold allocuvm
    rw [if_pos hbig]
    rfl
  by_cases hsmall : newsz < sz
  · refine ⟨sz,s,?_,h,.refl _ _,fun _ => ⟨by omega,hl,fun _ _ => .refl _ _ _,fun va h1 h2 => by omega⟩⟩
    unfold allocuvm
    rw [if_neg hbig, if_pos hsmall]
    rfl
  unfold kernbase at hbig
  obtain ⟨r,s',hrun,h',hsame,hout,htab,hres⟩ := allocuvm_spec h (by omega)
    (show sz ≤ newsz by omega) fun va h1 h2 => Bool.eq_false_iff.mpr fun hc =>
      absurd ((hl.maps va (by omega)).mp hc) (by omega)
  refine ⟨r,s',hrun,h',hsame,fun hr => ?_⟩
  rcases hres with ⟨rfl,hin⟩ | ⟨rfl,-,-⟩
  · have hle : (sz + 4095) / 4096 * 4096 ≤ (r + 4095) / 4096 * 4096 := by omega
    have hlt := hl.lt
    refine ⟨by omega,⟨by omega,hl.kernel.congr (fun va h1 h2 => (hout va h2 (by omega)).pte) htab,
      fun va hva => ?_,fun va hva => ?_⟩,fun va hva => hout va (by omega) (.inl hva),hin⟩
    · rcases Nat.lt_or_ge va ((sz + 4095) / 4096 * 4096) with hlo | hlo
      · rw [(hout va (by omega) (.inl hlo)).pte]
        exact ⟨fun _ => hlo.trans_le hle,fun _ => (hl.maps va hva).mpr hlo⟩
      · rcases Nat.lt_or_ge va ((r + 4095) / 4096 * 4096) with hhi | hhi
        · exact ⟨fun _ => hhi,fun _ => (hin va hlo hhi).present⟩
        · rw [(hout va (by omega) (.inr hhi)).pte]
          exact ⟨fun hp => absurd ((hl.maps va hva).mp hp) (by omega),fun hc => absurd hc (by omega)⟩
    · rcases Nat.lt_or_ge va ((sz + 4095) / 4096 * 4096) with hlo | hlo
      · rw [(hout va (by omega) (.inl hlo)).pte]
        exact hl.accessible va hlo
      · exact (hin va hlo hva).user
  · exact absurd rfl hr

/-- The loop over the program headers. -/
theorem loadSegments_spec (n : ℕ) : ∀ (s : Machine) (off sz : ℕ) (g : ℕ → UInt8), Dir k all s d oth →
    Loaded s.mem d sz → Holds s.mem d sz g →
    ∃ r s', loadSegments k f d n off sz s = .ok (r,s') ∧ Dir k all s' d oth ∧
      SamePages s.mem s'.mem oth ∧
      ∀ sz', r = some sz' → sz' = f.imageEnd n off sz ∧ Loaded s'.mem d sz' ∧
        Holds s'.mem d sz' (f.loadedBytes n off g) := by
  induction n with
  | zero =>
    intro s off sz g h hl hg
    exact ⟨some sz,s,rfl,h,.refl _ _,fun sz' hr => by cases hr; exact ⟨rfl,hl,hg⟩⟩
  | succ n ih =>
    intro s off sz g h hl hg
    have hbad : ∀ {x : Vm (Option ℕ)} {s1 : Machine}, x = pure none → Dir k all s1 d oth →
        SamePages s.mem s1.mem oth → ∃ r s', x s1 = .ok (r,s') ∧ Dir k all s' d oth ∧
          SamePages s.mem s'.mem oth ∧
          ∀ sz', r = some sz' → sz' = f.imageEnd (n + 1) off sz ∧ Loaded s'.mem d sz' ∧
            Holds s'.mem d sz' (f.loadedBytes (n + 1) off g) := by
      intro x s1 hx h1 hsame1
      subst hx
      exact ⟨none,s1,rfl,h1,hsame1,fun _ hr => by cases hr⟩
    rw [loadSegments]
    split
    · exact hbad rfl h (.refl _ _)
    split
    · rename_i htype
      obtain ⟨r,s',hrun,h',hsame,hr⟩ := ih s (u32 (off + 32)) sz g h hl hg
      refine ⟨r,s',hrun,h',hsame,fun sz' hs => ?_⟩
      rw [File.imageEnd, File.loadedBytes, if_pos htype, if_pos htype]
      exact hr sz' hs
    split
    · exact hbad rfl h (.refl _ _)
    split
    · exact hbad rfl h (.refl _ _)
    rename_i htype hmem hwrap
    obtain ⟨sz1,s1,hrun1,h1,hsame1,hres1⟩ := allocuvm_loaded h hl
    rw [bind_ok hrun1]
    split
    · exact hbad rfl h1 hsame1
    rename_i hne
    obtain ⟨hsz1,hl1,hkeep1,hfresh1⟩ := hres1 hne
    split
    · exact hbad rfl h1 hsame1
    rename_i hal
    -- the segment ends at or below the new size
    have hv : f.phVaddr off < 2 ^ 32 := load32_lt _ _
    have hm : f.phMemsz off < 2 ^ 32 := load32_lt _ _
    have hend : f.phVaddr off + f.phMemsz off ≤ sz1 := by
      unfold u32 at hwrap hsz1
      omega
    have hlt := hl1.lt
    have hg1 : Holds s1.mem d sz1 g := hg.grow (by omega) hlt hkeep1 hfresh1
    obtain ⟨r2,s2,hrun2,h2,hsame2,hmap2,hbytes2⟩ := loaduvm_spec (f := f) h1
      (show f.phVaddr off % 4096 = 0 by unfold pgsize at hal; omega)
      (show f.phVaddr off + f.phFilesz off < 0x80000000 by omega) (show f.phOff off < 2 ^ 32 from load32_lt _ _)
      fun va hv1 hv2 => (hl1.maps va (by omega)).mpr (by omega)
    rw [bind_ok hrun2]
    split
    · rename_i hr2
      have hg2 := hg1.load (show f.phVaddr off + f.phFilesz off ≤ sz1 by omega) hlt (hbytes2 hr2)
      obtain ⟨r,s',hrun,h',hsame,hr⟩ := ih s2 (u32 (off + 32)) sz1 _ h2 (hl1.congr hmap2) hg2
      refine ⟨r,s',hrun,h',hsame1.trans (hsame2.trans hsame),fun sz' hs => ?_⟩
      rw [File.imageEnd, File.loadedBytes, if_neg htype, if_neg htype, ← hsz1]
      exact hr sz' hs
    · exact hbad rfl h2 (hsame1.trans hsame2)

/-- The kernel half alone is an image of size zero. -/
theorem loaded_zero {m : Mem} (hk : KernelMapped m d) (hz : ∀ va < 0x80000000, pteOf m d va = 0) :
    Loaded m d 0 where
  lt := by omega
  kernel := hk
  maps va hva := by
    rw [hz va hva, present_zero]
    constructor
    · intro h
      cases h
    · intro h
      omega
  accessible va hva := by omega

/-- The stack and the inaccessible page below it. -/
theorem clearpteu_stacked (h : Dir k all s d oth) {sz : ℕ} (hl : Loaded s.mem d sz) (hal : sz % 4096 = 0)
    (hlow : 8192 ≤ sz) :
    ∃ s', clearpteu d (sub32 sz (2 * pgsize)) s = .ok ((),s') ∧ Dir k all s' d oth ∧
      SamePages s.mem s'.mem oth ∧ Stacked s'.mem d sz ∧
      ∀ va < 0x80000000, userByte s'.mem d va = userByte s.mem d va := by
  have hlt := hl.lt
  have hsub : sub32 sz (2 * pgsize) = sz - 8192 := sub32_of_le hlow
  have hp := (hl.maps (sz - 8192) (by omega)).mpr (by omega)
  obtain ⟨s',hrun,h',hsame,hpte,hpages,hpde⟩ := clearpteu_spec h (by omega) hp
  have hpres : ∀ va < 2 ^ 32, present (pteOf s'.mem d va) = present (pteOf s.mem d va) := by
    intro va hva
    rw [hpte va hva]
    split
    · rename_i hpage
      rw [present_clearU, ← pteOf_page s.mem d va, hpage, pteOf_page]
    · rfl
  have haddr : ∀ va < 2 ^ 32, pteAddr (pteOf s'.mem d va) = pteAddr (pteOf s.mem d va) := by
    intro va hva
    rw [hpte va hva]
    split
    · rename_i hpage
      rw [pteAddr_clearU, ← pteOf_page s.mem d va, hpage, pteOf_page]
    · rfl
  refine ⟨s',by rw [hsub]; exact hrun,h',hsame,⟨hal,hlow,hlt,?_,fun va hva => ?_,fun va hva => ?_⟩,
    fun va hva => ?_⟩
  · refine hl.kernel.congr (fun va h1 h2 => ?_) fun i hi hp => .inl (by rwa [← hpde i hi])
    rw [hpte va h2, if_neg (by omega)]
  · rw [hpres va (by omega)]
    exact hl.maps va hva
  · rw [hpte va (by omega)]
    split
    · rw [user_clearU]
      constructor
      · intro hc
        cases hc
      · intro hc
        omega
    · rw [hl.accessible va (by omega)]
      constructor
      · intro _
        omega
      · intro _
        rfl
  · unfold userByte userEntry
    rw [hpres va (by omega)]
    by_cases hpv : present (pteOf s.mem d va) = true
    · rw [if_pos hpv, if_pos hpv, Option.map_some, Option.map_some, haddr va (by omega),
        hpages va hva hpv _ (by omega) (by omega)]
    · rw [if_neg hpv, if_neg hpv, Option.map_none, Option.map_none]

/-- What `exec` has when the stack is still empty. -/
theorem loadImage_spec (hpool : Pool k all) (ho : (s.freelist : Multiset ℕ) + oth = all) :
    (∃ s', loadImage k f s = .ok (none,s') ∧ (s'.freelist : Multiset ℕ) + oth = all ∧
      SamePages s.mem s'.mem oth) ∨
    ∃ d s', loadImage k f s = .ok (some (d,f.stackTop),s') ∧ Dir k all s' d oth ∧
      SamePages s.mem s'.mem oth ∧ Stacked s'.mem d f.stackTop ∧ Holds s'.mem d f.stackTop f.image ∧
      f.imageEnd f.phnum f.phoff 0 + 8192 ≤ f.stackTop := by
  unfold loadImage
  split
  · exact .inl ⟨s,rfl,ho,.refl _ _⟩
  split
  · exact .inl ⟨s,rfl,ho,.refl _ _⟩
  rcases setupkvm_spec hpool ho with ⟨s1,hrun1,ho1,hsame1,-⟩ | ⟨d,s1,hrun1,h1,hsame1,hker,hzero,-⟩
  · rw [bind_ok hrun1]
    exact .inl ⟨s1,rfl,ho1,hsame1⟩
  rw [bind_ok hrun1]
  dsimp only
  obtain ⟨r2,s2,hrun2,h2,hsame2,hr2⟩ := loadSegments_spec (f := f) f.phnum s1 f.phoff 0 (fun _ => 0) h1
    (loaded_zero hker hzero) ⟨fun va hva => by omega,fun _ _ => rfl⟩
  rw [bind_ok hrun2]
  cases r2 with
  | none =>
    obtain ⟨s3,hrun3,ho3,hsame3⟩ := freevm_spec h2
    dsimp only
    rw [bind_ok hrun3]
    exact .inl ⟨s3,rfl,ho3,hsame1.trans (hsame2.trans hsame3)⟩
  | some sz =>
    obtain ⟨hsz,hl2,hg2⟩ := hr2 sz rfl
    have hlt := hl2.lt
    have hround := pgroundup_eq (show sz ≤ kernbase by unfold kernbase; omega)
    have hl2' : pgroundup sz < 0x80000000 → Loaded s2.mem d (pgroundup sz) := by
      intro hlt'
      have hsame : (pgroundup sz + 4095) / 4096 * 4096 = (sz + 4095) / 4096 * 4096 := by
        rw [hround]
        omega
      refine ⟨hlt',hl2.kernel,fun va hva => ?_,fun va hva => hl2.accessible va (hsame ▸ hva)⟩
      rw [hsame]
      exact hl2.maps va hva
    dsimp only
    have hnew : u32 (pgroundup sz + 2 * pgsize) = pgroundup sz + 8192 := u32_of_lt (by
      rw [hround]
      unfold pgsize
      omega)
    rw [hnew]
    have hfree : ∀ s3, Dir k all s3 d oth → SamePages s2.mem s3.mem oth →
        allocuvm k d (pgroundup sz) (pgroundup sz + 8192) s2 = .ok (0,s3) →
        ∃ s', (do
          let sz ← allocuvm k d (pgroundup sz) (pgroundup sz + 8192)
          if sz = 0 then
            freevm k d
            return none
          else
            clearpteu d (sub32 sz (2 * pgsize))
            return some (d,sz) : Vm (Option (ℕ × ℕ))) s2 = .ok (none,s') ∧
          (s'.freelist : Multiset ℕ) + oth = all ∧ SamePages s.mem s'.mem oth := by
      intro s3 h3 hsame3 hrun3
      obtain ⟨s4,hrun4,ho4,hsame4⟩ := freevm_spec h3
      refine ⟨s4,?_,ho4,hsame1.trans (hsame2.trans (hsame3.trans hsame4))⟩
      rw [bind_ok hrun3, if_pos rfl, bind_ok hrun4]
      rfl
    by_cases hbig : 0x80000000 ≤ pgroundup sz + 8192
    · left
      refine hfree s2 h2 (.refl _ _) ?_
      unfold allocuvm
      rw [if_pos (by unfold kernbase; omega)]
      rfl
    · obtain ⟨r3,s3,hrun3,h3,hsame3,hr3⟩ := allocuvm_loaded h2
        (hl2' (by omega))
      by_cases hr : r3 = 0
      · subst hr
        exact .inl (hfree s3 h3 hsame3 hrun3)
      · obtain ⟨hr3,hl3,hkeep3,hfresh3⟩ := hr3 hr
        have hround' : (pgroundup sz + 4095) / 4096 * 4096 = (sz + 4095) / 4096 * 4096 := by
          rw [hround]
          omega
        rw [hround'] at hkeep3 hfresh3
        have hg3 : Holds s3.mem d r3 f.image := hg2.grow (by omega) hl3.lt hkeep3 hfresh3
        have htop : r3 = f.stackTop := by
          unfold File.stackTop
          rw [← hsz, hr3]
          unfold pgsize
          omega
        obtain ⟨s4,hrun4,h4,hsame4,hst,hbytes4⟩ := clearpteu_stacked h3 hl3 (by omega) (by omega)
        have hlt4 := hst.lt
        have hal4 := hst.aligned
        rw [bind_ok hrun3, if_neg hr, bind_ok hrun4, htop]
        rw [htop] at hst hg3
        refine .inr ⟨d,s4,rfl,h4,hsame1.trans (hsame2.trans (hsame3.trans hsame4)),hst,⟨fun va hva => ?_,hg3.zero⟩,?_⟩
        · rw [hbytes4 va (by omega)]
          exact hg3.bytes va hva
        · rw [← htop, ← hsz]
          omega

end Vm
end X86OsDev.Xv6
