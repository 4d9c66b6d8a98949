import X86OsDev.Xv6.PageInv
import X86OsDev.Xv6.VmFork

/-! # Growing and shrinking a process (proc.c) -/
namespace X86OsDev.Xv6
open Memory Fault Counting

variable {k : Kernel} {all oth : Multiset ℕ} {d sz : ℕ}

/-- Every user address reads as before. -/
def SameMemory (m m' : Mem) (d : ℕ) : Prop :=
  ∀ va < kernbase, userEntry m' d va = userEntry m d va ∧ userByte m' d va = userByte m d va

namespace Vm
variable {s : Machine} {newsz : ℕ}

/-- `allocuvm` to a larger size: all of it, or nothing. -/
theorem allocuvm_grows (h : Dir k all s d oth) (hmaps : MapsBelow s.mem d sz) (hnew : newsz < 0x80000000)
    (hle : sz ≤ newsz) :
    ∃ r s', allocuvm k d sz newsz s = .ok (r,s') ∧
      ((r = newsz ∧ MapsBelow s'.mem d newsz ∧ (∀ va < pgroundup sz, SameAt s.mem s'.mem d va) ∧
          ∀ va, pgroundup sz ≤ va → va < pgroundup newsz → Fresh s'.mem d va) ∨
        r = 0 ∧ SameMemory s.mem s'.mem d) := by
  have hno : ∀ va < 0x80000000, (sz + 4095) / 4096 * 4096 ≤ va → present (pteOf s.mem d va) = false :=
    fun va hva hge => Bool.eq_false_iff.mpr fun hc => absurd ((hmaps va hva).mp hc) (by omega)
  obtain ⟨r,s',hrun,-,-,hout,-,hres⟩ := allocuvm_spec h hnew hle fun va h1 h2 => hno va (by omega) h1
  rw [pgroundup_eq (by unfold kernbase; omega), pgroundup_eq (by unfold kernbase; omega)]
  have hround : (sz + 4095) / 4096 * 4096 ≤ (newsz + 4095) / 4096 * 4096 := by omega
  refine ⟨r,s',hrun,?_⟩
  rcases hres with ⟨rfl,hin⟩ | ⟨rfl,hin,-⟩
  · refine .inl ⟨rfl,fun va hva => ?_,fun va hva => hout va (by omega) (.inl hva),hin⟩
    rcases Nat.lt_or_ge va ((sz + 4095) / 4096 * 4096) with hlo | hlo
    · rw [(hout va (by omega) (.inl hlo)).pte]
      exact ⟨fun _ => hlo.trans_le hround,fun _ => (hmaps va hva).mpr hlo⟩
    · rcases Nat.lt_or_ge va ((r + 4095) / 4096 * 4096) with hhi | hhi
      · exact ⟨fun _ => hhi,fun _ => (hin va hlo hhi).present⟩
      · rw [(hout va (by omega) (.inr hhi)).pte, hno va hva hlo]
        exact ⟨fun hc => (by cases hc),fun hc => absurd hc (by omega)⟩
  · refine .inr ⟨rfl,fun va hva => ?_⟩
    unfold kernbase at hva
    by_cases hin' : (sz + 4095) / 4096 * 4096 ≤ va ∧ va < (newsz + 4095) / 4096 * 4096
    · have h1 := userEntry_absent (hin va hin'.1 hin'.2)
      have h2 := userEntry_absent (hno va hva hin'.1)
      unfold userByte
      rw [h1, h2]
      exact ⟨rfl,rfl⟩
    · have hs := hout va (by omega) (by omega)
      exact ⟨hs.userEntry,hs.userByte hva⟩

/-- `deallocuvm` to a smaller size. -/
theorem deallocuvm_shrinks (h : Dir k all s d oth) (hmaps : MapsBelow s.mem d sz) (hsz : sz < 0x80000000)
    (hlt : newsz < sz) :
    ∃ s', deallocuvm k d sz newsz s = .ok (newsz,s') ∧ MapsBelow s'.mem d newsz ∧
      ∀ va < pgroundup newsz, SameAt s.mem s'.mem d va := by
  obtain ⟨s',hrun,-,-,hout,hin,-⟩ := deallocuvm_spec h (by omega) hlt
  rw [pgroundup_eq (by unfold kernbase; omega)]
  have hround : (newsz + 4095) / 4096 * 4096 ≤ (sz + 4095) / 4096 * 4096 := by omega
  refine ⟨s',hrun,fun va hva => ?_,fun va hva => hout va (by omega) (.inl hva)⟩
  rcases Nat.lt_or_ge va ((newsz + 4095) / 4096 * 4096) with hlo | hlo
  · rw [(hout va (by omega) (.inl hlo)).pte]
    exact ⟨fun _ => hlo,fun _ => (hmaps va hva).mpr (hlo.trans_le hround)⟩
  · rcases Nat.lt_or_ge va ((sz + 4095) / 4096 * 4096) with hhi | hhi
    · rw [hin va hlo hhi]
      exact ⟨fun hc => (by cases hc),fun hc => absurd hc (by omega)⟩
    · rw [(hout va (by omega) (.inr hhi)).pte]
      exact ⟨fun hc => absurd ((hmaps va hva).mp hc) (by omega),fun hc => absurd hc (by omega)⟩

end Vm

namespace Pages
variable {s s' : Sys} {cur : Fin nproc}

/-- The process has `n` bytes more: it maps the pages below its new size, those that it
kept with their bytes and the new ones with zeros. -/
structure Resized (s s' : Sys) (cur : Fin nproc) (n : ℤ) : Prop where
  pgdir : (s'.proc cur).pgdir = (s.proc cur).pgdir
  size : ((s'.proc cur).sz : ℤ) = (s.proc cur).sz + n
  lt : (s'.proc cur).sz < kernbase
  maps : MapsBelow s'.mach.mem (s'.proc cur).pgdir (s'.proc cur).sz
  kept : ∀ va < kernbase, va < pgroundup (s.proc cur).sz → va < pgroundup (s'.proc cur).sz →
    userEntry s'.mach.mem (s'.proc cur).pgdir va = userEntry s.mach.mem (s.proc cur).pgdir va ∧
    userByte s'.mach.mem (s'.proc cur).pgdir va = userByte s.mach.mem (s.proc cur).pgdir va
  zero : ∀ va < kernbase, pgroundup (s.proc cur).sz ≤ va → va < pgroundup (s'.proc cur).sz →
    userByte s'.mach.mem (s'.proc cur).pgdir va = some 0

/-- The process has the size and the user memory that it had. -/
structure SameUser (s s' : Sys) (cur : Fin nproc) : Prop where
  pgdir : (s'.proc cur).pgdir = (s.proc cur).pgdir
  size : (s'.proc cur).sz = (s.proc cur).sz
  entries : ∀ va < kernbase,
    userEntry s'.mach.mem (s'.proc cur).pgdir va = userEntry s.mach.mem (s.proc cur).pgdir va
  bytes : ∀ va < kernbase,
    userByte s'.mach.mem (s'.proc cur).pgdir va = userByte s.mach.mem (s.proc cur).pgdir va

/-- `growproc` returns 0 and has resized the process, or it returns -1 and has changed nothing. -/
def GrowsOrFails (k : Kernel) (cur : Fin nproc) (n : BitVec 32) (s : Sys) : Prop :=
  ∃ r s', growproc k cur n s = .ok (r,s') ∧
    (r = true ∧ Resized s s' cur n.toInt ∨ r = false ∧ SameUser s s' cur)

theorem SameUser.refl (s : Sys) (cur : Fin nproc) : SameUser s s cur :=
  ⟨rfl,rfl,fun _ _ => rfl,fun _ _ => rfl⟩

section Growproc
variable {n : BitVec 32}

theorem toInt_of_neg (hn : n.toInt < 0) : n.toInt = n.toNat - 2 ^ 32 ∧ n.toNat < 2 ^ 32 := by
  have := n.isLt
  rw [BitVec.toInt_eq_toNat_cond] at hn ⊢
  split at hn
  · omega
  · rename_i hge
    rw [if_neg hge]
    omega

theorem toInt_of_pos (hn : 0 < n.toInt) : n.toInt = n.toNat ∧ n.toNat < 0x80000000 := by
  have := n.isLt
  rw [BitVec.toInt_eq_toNat_cond] at hn ⊢
  split at hn
  · rename_i hlt
    rw [if_pos hlt]
    omega
  · omega

/-- Growing: the sum of the sizes does not wrap around. -/
theorem growproc_grows (h : Dir k all s.mach (s.proc cur).pgdir oth)
    (hmaps : MapsBelow s.mach.mem (s.proc cur).pgdir (s.proc cur).sz) (hn : 0 < n.toInt) :
    GrowsOrFails k cur n s := by
  have hsz := h.size_lt hmaps
  have hint := toInt_of_pos hn
  have hsum : u32 ((s.proc cur).sz + n.toNat) = (s.proc cur).sz + n.toNat := u32_of_lt (by omega)
  unfold GrowsOrFails growproc
  rw [bind_ok get_ok, if_pos hn, hsum]
  by_cases hbig : kernbase ≤ (s.proc cur).sz + n.toNat
  · have hrun : Vm.allocuvm k (s.proc cur).pgdir (s.proc cur).sz ((s.proc cur).sz + n.toNat) s.mach =
        .ok (0,s.mach) := by
      unfold Vm.allocuvm
      rw [if_pos hbig]
      rfl
    rw [bind_ok (vm_ok hrun)]
    exact ⟨false,s,rfl,.inr ⟨rfl,.refl s cur⟩⟩
  · unfold kernbase at hbig
    obtain ⟨r,m,hrun,hres⟩ := Vm.allocuvm_grows h hmaps
      (show (s.proc cur).sz + n.toNat < 0x80000000 by omega) (by omega)
    rw [bind_ok (vm_ok hrun)]
    rcases hres with ⟨rfl,hmaps',hkeep,hnew⟩ | ⟨rfl,hsame⟩
    · rw [if_neg (by omega), bind_ok (updProc_ok _ _ _)]
      refine ⟨true,_,rfl,.inl ⟨rfl,?_⟩⟩
      constructor
      all_goals dsimp only
      all_goals rw [Function.update_self]
      · rw [hint.1]
        push_cast
        rfl
      · change (s.proc cur).sz + n.toNat < 0x80000000
        omega
      · exact hmaps'
      · intro va hva h1 _
        exact ⟨(hkeep va h1).userEntry,(hkeep va h1).userByte hva⟩
      · intro va hva h1 h2
        exact (hnew va h1 h2).userByte
    · rw [if_pos rfl]
      exact ⟨false,_,rfl,.inr ⟨rfl,rfl,rfl,fun va hva => (hsame va hva).1,fun va hva => (hsame va hva).2⟩⟩

/-- Shrinking, when the new size is positive. -/
theorem growproc_shrinks (h : Dir k all s.mach (s.proc cur).pgdir oth)
    (hmaps : MapsBelow s.mach.mem (s.proc cur).pgdir (s.proc cur).sz) (hn : n.toInt < 0)
    (hpos : 0 < (s.proc cur).sz + n.toInt) : GrowsOrFails k cur n s := by
  have hsz := h.size_lt hmaps
  have hint := toInt_of_neg hn
  obtain ⟨newsz,hnew⟩ : ∃ newsz : ℕ, (newsz : ℤ) = (s.proc cur).sz + n.toInt := ⟨_,Int.toNat_of_nonneg hpos.le⟩
  have hsum : u32 ((s.proc cur).sz + n.toNat) = newsz := by
    unfold u32
    omega
  obtain ⟨m,hrun,hmaps',hkeep⟩ := Vm.deallocuvm_shrinks h hmaps hsz (show newsz < (s.proc cur).sz by omega)
  unfold GrowsOrFails growproc
  rw [bind_ok get_ok, if_neg (by omega), if_pos hn, hsum, bind_ok (vm_ok hrun), if_neg (by omega),
    bind_ok (updProc_ok _ _ _)]
  refine ⟨true,_,rfl,.inl ⟨rfl,?_⟩⟩
  constructor
  all_goals dsimp only
  all_goals rw [Function.update_self]
  · exact hnew
  · change newsz < 0x80000000
    omega
  · exact hmaps'
  · intro va hva _ h2
    exact ⟨(hkeep va h2).userEntry,(hkeep va h2).userByte hva⟩
  · intro va hva h1 h2
    change va < pgroundup newsz at h2
    rw [pgroundup_eq (by unfold kernbase; omega)] at h1 h2
    omega

/-- Shrinking by as much as the size or more does the same as nothing, or else it loses the
user memory and reports a failure. -/
theorem growproc_below_zero (h : Dir k all s.mach (s.proc cur).pgdir oth)
    (hmaps : MapsBelow s.mach.mem (s.proc cur).pgdir (s.proc cur).sz) (hn : n.toInt < 0)
    (hneg : (s.proc cur).sz + n.toInt ≤ 0) (hpos : 0 < (s.proc cur).sz) :
    ∃ r s', growproc k cur n s = .ok (r,s') ∧ (s'.proc cur).pgdir = (s.proc cur).pgdir ∧
      (s'.proc cur).sz = (s.proc cur).sz ∧
      (r = true ∨ r = false ∧ MapsBelow s'.mach.mem (s.proc cur).pgdir 0) := by
  have hsz := h.size_lt hmaps
  have hint := toInt_of_neg hn
  unfold growproc
  rw [bind_ok get_ok, if_neg (by omega), if_pos hn]
  by_cases hzero : (s.proc cur).sz + n.toInt = 0
  · have hsum : u32 ((s.proc cur).sz + n.toNat) = 0 := by
      unfold u32
      omega
    obtain ⟨m,hrun,hmaps',-⟩ := Vm.deallocuvm_shrinks h hmaps hsz hpos
    rw [hsum, bind_ok (vm_ok hrun), if_pos rfl]
    exact ⟨false,_,rfl,rfl,rfl,.inr ⟨rfl,hmaps'⟩⟩
  · -- the sum wraps around to an address above the size
    have hsum : (s.proc cur).sz ≤ u32 ((s.proc cur).sz + n.toNat) := by
      unfold u32
      omega
    have hrun : Vm.deallocuvm k (s.proc cur).pgdir (s.proc cur).sz (u32 ((s.proc cur).sz + n.toNat)) s.mach =
        .ok ((s.proc cur).sz,s.mach) := by
      unfold Vm.deallocuvm
      rw [if_pos hsum]
      rfl
    rw [bind_ok (vm_ok hrun), if_neg (by omega), bind_ok (updProc_ok _ _ _)]
    refine ⟨true,_,rfl,?_,?_,.inl rfl⟩
    · dsimp only
      rw [Function.update_self]
    · dsimp only
      rw [Function.update_self]

/-- So neither outcome is reached. -/
theorem not_growsOrFails (h : Dir k all s.mach (s.proc cur).pgdir oth)
    (hmaps : MapsBelow s.mach.mem (s.proc cur).pgdir (s.proc cur).sz) (hn : n.toInt < 0)
    (hneg : (s.proc cur).sz + n.toInt ≤ 0) (hpos : 0 < (s.proc cur).sz) : ¬ GrowsOrFails k cur n s := by
  obtain ⟨r,s',hrun,hdir,hsize,hres⟩ := growproc_below_zero h hmaps hn hneg hpos
  rintro ⟨r',t,hrun',hout⟩
  rw [hrun] at hrun'
  cases hrun'
  rcases hout with ⟨rfl,hgrow⟩ | ⟨rfl,hsame⟩
  · have := hgrow.size
    omega
  · obtain ⟨-,hmaps'⟩ := hres.resolve_left Bool.false_ne_true
    -- address 0 was mapped and is not any more
    have hentry := hsame.entries 0 (by decide)
    have h1 : present (pteOf s.mach.mem (s.proc cur).pgdir 0) = true := (hmaps 0 (by omega)).mpr (by omega)
    have h2 : present (pteOf s'.mach.mem (s.proc cur).pgdir 0) = false :=
      Bool.eq_false_iff.mpr fun hc => absurd ((hmaps' 0 (by omega)).mp hc) (by omega)
    rw [hdir, userEntry_absent h2, userEntry, if_pos h1] at hentry
    cases hentry

/-- A process of size zero cannot be shrunk, and `growproc` says so. -/
theorem growproc_empty (hn : n.toInt < 0) (hzero : (s.proc cur).sz = 0) : GrowsOrFails k cur n s := by
  have hrun : Vm.deallocuvm k (s.proc cur).pgdir (s.proc cur).sz (u32 ((s.proc cur).sz + n.toNat)) s.mach =
      .ok (0,s.mach) := by
    unfold Vm.deallocuvm
    rw [hzero, if_pos (Nat.zero_le _)]
    rfl
  unfold GrowsOrFails growproc
  rw [bind_ok get_ok, if_neg (by omega), if_pos hn, bind_ok (vm_ok hrun), if_pos rfl]
  exact ⟨false,s,rfl,.inr ⟨rfl,.refl s cur⟩⟩

end Growproc

/-- `growproc` resizes the process or fails without a change, unless a process with user
memory is shrunk by its size or more. -/
theorem growproc_resizes (h : Dir k all s.mach (s.proc cur).pgdir oth)
    (hmaps : MapsBelow s.mach.mem (s.proc cur).pgdir (s.proc cur).sz) (n : BitVec 32) :
    GrowsOrFails k cur n s ↔ 0 ≤ n.toInt ∨ 0 < (s.proc cur).sz + n.toInt ∨ (s.proc cur).sz = 0 := by
  constructor
  · intro hgrow
    by_contra hcond
    rw [not_or, not_or] at hcond
    exact not_growsOrFails h hmaps (by omega) (by omega) (by omega) hgrow
  · intro hcond
    rcases lt_trichotomy n.toInt 0 with hn | hn | hn
    · rcases hcond with hc | hc | hc
      · omega
      · exact growproc_shrinks h hmaps hn hc
      · exact growproc_empty hn hc
    · refine ⟨true,s,?_,.inl ⟨rfl,rfl,by omega,h.size_lt hmaps,hmaps,fun _ _ _ _ => ⟨rfl,rfl⟩,
        fun va _ h1 h2 => by omega⟩⟩
      unfold growproc
      rw [bind_ok get_ok, if_neg (by omega), if_neg (by omega)]
      rfl
    · exact growproc_grows h hmaps hn

/-! ## A process of one page -/

def onePageSys : Sys :=
  { zeroed (fun _ => 0) with
    mach := onePage
    proc := Function.update (zeroed fun _ => 0).proc (zeroed fun _ => 0).initproc
      ⟨.live,none,0,0x80400000,4096,fun _ => none⟩ }

/-- The only process of `onePageSys`. -/
theorem onePageSys_space : Dir smallKernel smallPages onePageSys.mach
      (onePageSys.proc onePageSys.initproc).pgdir 0 ∧
    MapsBelow onePageSys.mach.mem (onePageSys.proc onePageSys.initproc).pgdir
      (onePageSys.proc onePageSys.initproc).sz ∧
    (onePageSys.proc onePageSys.initproc).sz = 4096 := by
  have hproc : onePageSys.proc onePageSys.initproc = ⟨.live,none,0,0x80400000,4096,fun _ => none⟩ := by
    unfold onePageSys
    dsimp only
    rw [Function.update_self]
  rw [hproc]
  exact ⟨onePage_dir.1,onePage_dir.2,rfl⟩

theorem growproc_half_page : GrowsOrFails smallKernel onePageSys.initproc (-2048) onePageSys := by
  obtain ⟨hd,hmaps,hsz⟩ := onePageSys_space
  refine (growproc_resizes hd hmaps (-2048)).mpr ?_
  rw [hsz]
  decide

/-- Shrinking the process by its size frees its page and reports a failure. -/
theorem growproc_whole_page : MapsBelow onePageSys.mach.mem (onePageSys.proc onePageSys.initproc).pgdir
      (onePageSys.proc onePageSys.initproc).sz ∧
    ¬ GrowsOrFails smallKernel onePageSys.initproc (-4096) onePageSys := by
  obtain ⟨hd,hmaps,hsz⟩ := onePageSys_space
  refine ⟨hmaps,not_growsOrFails hd hmaps (by decide) ?_ ?_⟩
  · rw [hsz]
    decide
  · rw [hsz]
    decide

end Pages
end X86OsDev.Xv6
