import X86OsDev.Xv6.ExecStack

/-! # Where `exec` writes the arguments -/
namespace X86OsDev.Xv6
open Memory Fault Counting

variable {k : Kernel} {all oth : Multiset ℕ} {s : Machine} {d : ℕ} {f : File}

section Argv
variable {c : Caller} {a : List UInt8}

theorem Caller.scanstr_length (n : ℕ) : ∀ (p : ℕ) (a : List UInt8),
    c.scanstr n p = some a → a.length + 1 ≤ n := by
  induction n with
  | zero =>
    intro p a h
    cases h
  | succ n ih =>
    intro p a h
    rw [scanstr] at h
    split at h
    · cases h
      simp
    · obtain ⟨b,hb,rfl⟩ := Option.map_eq_some_iff.mp h
      have := ih _ _ hb
      simp only [List.length_cons]
      omega

theorem Caller.fetchstr_length {addr : ℕ} (h : c.fetchstr addr = some a) : a.length + 1 ≤ c.sz := by
  unfold fetchstr at h
  split at h
  · cases h
  · have := scanstr_length _ _ _ h
    omega

theorem Caller.fetchArgv_bounds {uargv : ℕ} (n : ℕ) : ∀ (i : ℕ) (argv : List (List UInt8)),
    c.fetchArgv uargv n i = some argv → argv.length < n ∧ ∀ a ∈ argv, a.length + 1 ≤ c.sz := by
  induction n with
  | zero =>
    intro i argv h
    cases h
  | succ n ih =>
    intro i argv h
    rw [fetchArgv] at h
    split at h
    · cases h
    · cases h
      simp
    · split at h
      · cases h
      · rename_i ha
        obtain ⟨rest,hrest,rfl⟩ := Option.map_eq_some_iff.mp h
        obtain ⟨h1,h2⟩ := ih _ _ hrest
        refine ⟨by simp only [List.length_cons]; omega,fun b hb => ?_⟩
        rcases List.mem_cons.mp hb with rfl | hb
        · exact fetchstr_length ha
        · exact h2 b hb

/-- The vectors that `sys_exec` passes on: few strings, each inside the caller. -/
theorem Caller.argv_bounds {uargv : ℕ} {argv : List (List UInt8)} (h : c.argv uargv = some argv) :
    argv.length < maxarg ∧ ∀ a ∈ argv, a.length + 1 < 0x80000000 := by
  obtain ⟨h1,h2⟩ := fetchArgv_bounds maxarg 0 argv h
  have := c.sz_lt
  unfold kernbase at this
  exact ⟨h1,fun a ha => (h2 a ha).trans_lt this⟩

end Argv

/-- The pages of two directories, seen from the other one. -/
theorem Dir.swap {s' : Machine} {d e : ℕ} (h : Dir k all s' d (vmPages s.mem e + oth))
    (hsame : SamePages s.mem s'.mem (vmPages s.mem e + oth)) :
    Dir k all s' e (vmPages s'.mem d + oth) where
  pool := h.pool
  owned := by
    have he : vmPages s'.mem e = vmPages s.mem e :=
      vmPages_congr (hsame.mono ((tables_le_vm s.mem e).trans (Multiset.le_add_right _ _)))
    rw [he, ← h.owned]
    abel

theorem SameMap.of_samePages {m m' : Mem} (h : SamePages m m' ({d} + tablePages m d)) :
    SameMap m m' d := by
  have hd : SameOn m' m d 4096 := h d (by simp)
  exact ⟨pteOf_congr hd (h.mono (Multiset.le_add_left _ _)),fun i hi => pde_congr hd hi⟩

namespace Vm
variable {old : ℕ} {argv : List (List UInt8)}

/-- Freeing one of two address spaces leaves the other one as it was. -/
theorem freevm_other {e : ℕ} (h : Dir k all s e (vmPages s.mem d + oth)) :
    ∃ s', freevm k e s = .ok ((),s') ∧ Dir k all s' d oth ∧ SamePages s.mem s'.mem oth ∧
      SameMap s.mem s'.mem d ∧ (∀ va, SameAt s.mem s'.mem d va) ∧ vmPages s.mem e ≤ s'.freelist := by
  obtain ⟨s',hrun,ho,hsame⟩ := freevm_spec h
  have hvm : SamePages s.mem s'.mem ({d} + tablePages s.mem d) :=
    hsame.mono ((Dir.tables_le_vm s.mem d).trans (Multiset.le_add_right _ _))
  refine ⟨s',hrun,⟨h.pool,?_⟩,hsame.mono (Multiset.le_add_left _ _),.of_samePages hvm,
    (src_congr hsame (Multiset.le_add_right _ _)).1,?_⟩
  · rw [vmPages_congr hvm]
    exact ho
  · have hfree : (s'.freelist : Multiset ℕ) = s.freelist + vmPages s.mem e := by
      have howned := h.owned
      rw [← add_assoc, ← ho] at howned
      exact (add_right_cancel howned).symm
    rw [hfree]
    exact Multiset.le_add_left _ _

/-- `exec` of a vector that does not hit the gap: the old image stays and nothing else has
changed hands, or a new image has taken its place. -/
theorem exec_spec (h : Dir k all s old oth) (hlen : ∀ a ∈ argv, a.length + 1 < 0x80000000)
    (hgap : ¬ HitsGap f.stackTop 0 argv) :
    (∃ s', exec k f argv old s = .ok (none,s') ∧ Dir k all s' old oth ∧
      SamePages s.mem s'.mem (vmPages s.mem old + oth)) ∨
    ∃ im s', exec k f argv old s = .ok (some im,s') ∧ Dir k all s' im.pgdir oth ∧
      SamePages s.mem s'.mem oth ∧ Stacked s'.mem im.pgdir im.sz ∧ vmPages s.mem old ≤ s'.freelist ∧
      im.sz = f.stackTop ∧ f.imageEnd f.phnum f.phoff 0 + 8192 ≤ im.sz ∧
      ∀ x < im.sz - 8192, userByte s'.mem im.pgdir x = some (f.image x) := by
  have hback : ∀ s', (s'.freelist : Multiset ℕ) + (vmPages s.mem old + oth) = all →
      SamePages s.mem s'.mem (vmPages s.mem old + oth) → Dir k all s' old oth := by
    intro s' ho hsame
    refine ⟨h.pool,?_⟩
    rw [vmPages_congr (hsame.mono ((Dir.tables_le_vm s.mem old).trans (Multiset.le_add_right _ _)))]
    exact ho
  unfold exec
  rcases loadImage_spec (f := f) h.pool h.owned with ⟨s1,hrun1,ho1,hsame1⟩ | ⟨d,s1,hrun1,h1,hsame1,hst1,hg1,hend1⟩
  · rw [bind_ok hrun1]
    exact .inl ⟨s1,rfl,hback s1 ho1 hsame1,hsame1⟩
  rw [bind_ok hrun1]
  dsimp only
  obtain ⟨r2,s2,hrun2,h2,hsame2,hmap2,hr2⟩ := pushArgs_spec argv s1 0 [] h1 hst1 rfl (by omega) hlen hgap
  rw [Nat.sub_zero] at hrun2
  rw [bind_ok hrun2]
  have hst2 := hst1.congr hmap2
  have hsame12 := hsame1.trans hsame2
  -- both ways out that free the new directory
  have hbad : ∀ s3, Dir k all s3 d (vmPages s.mem old + oth) →
      SamePages s.mem s3.mem (vmPages s.mem old + oth) →
      ∃ s', (do freevm k d; return none : Vm (Option Image)) s3 = .ok (none,s') ∧
        Dir k all s' old oth ∧ SamePages s.mem s'.mem (vmPages s.mem old + oth) := by
    intro s3 h3 hsame3
    obtain ⟨s4,hrun4,ho4,hsame4⟩ := freevm_spec h3
    refine ⟨s4,?_,hback s4 ho4 (hsame3.trans hsame4),hsame3.trans hsame4⟩
    rw [bind_ok hrun4]
    rfl
  cases r2 with
  | none => exact .inl (hbad s2 h2 hsame12)
  | some p =>
    obtain ⟨sp,ptrs⟩ := p
    obtain ⟨hsp,hfit,-,hfew,hbytes2⟩ := hr2 sp ptrs rfl
    have hfew : ptrs.length ≤ maxarg := hfew (Nat.zero_le _)
    unfold maxarg at hfew
    dsimp only
    have hlow := hst1.low
    have hlt := hst1.lt
    have hsub : sub32 sp ((3 + ptrs.length + 1) * 4) = sp - (3 + ptrs.length + 1) * 4 := sub32_of_le (by omega)
    have hle : sub32 sp ((3 + ptrs.length + 1) * 4) + (3 + ptrs.length + 1) * 4 ≤ f.stackTop := by
      rw [hsub]
      omega
    obtain ⟨r3,s3,hrun3,h3,hsame3,hmap3,hw3,-⟩ := copyout_spec h2 hst2 hle
    rw [bind_ok hrun3]
    cases r3 with
    | false => exact .inl (hbad s3 h3 (hsame12.trans hsame3))
    | true =>
      have hsame := hsame12.trans hsame3
      have hold : vmPages s3.mem old = vmPages s.mem old :=
        vmPages_congr (hsame.mono ((Dir.tables_le_vm s.mem old).trans (Multiset.le_add_right _ _)))
      obtain ⟨s4,hrun4,h4,hsame4,hmap4,hat4,hfree4⟩ := freevm_other (h3.swap hsame)
      rw [if_pos rfl, bind_ok hrun4]
      refine .inr ⟨_,s4,rfl,h4,(hsame.mono (Multiset.le_add_left _ _)).trans hsame4,
        (hst2.congr hmap3).congr hmap4,by rw [← hold]; exact hfree4,rfl,hend1,fun x hx => ?_⟩
      dsimp only at hx ⊢
      have hx' : x < f.stackTop - 4096 := hx.trans_le (Nat.sub_le_sub_left (by decide) _)
      rw [(hat4 x).userByte (by omega), hw3.userByte h2 hst2.kernel hmap3 (by omega) fun j hj => ?_,
        hbytes2 x hx', hg1.bytes x (by omega)]
      rw [hsub, u32_of_lt (by omega)]
      omega

/-- Strings that all fit take up to a page from the strings after them. -/
theorem hitsGap_append {sz : ℕ} (hsz : 8192 ≤ sz) (rest pre : List (List UInt8)) : ∀ t : ℕ,
    t + (pre.map padded).sum ≤ 4096 →
    (HitsGap sz t (pre ++ rest) ↔ HitsGap sz (t + (pre.map padded).sum) rest) := by
  induction pre with
  | nil =>
    intro t _
    simp
  | cons a pre ih =>
    intro t ht
    rw [List.map_cons, List.sum_cons, ← add_assoc] at ht ⊢
    rw [List.cons_append, hitsGap_cons hsz, ← ih (t + padded a) ht]
    constructor
    · rintro (⟨h1,h2⟩ | ⟨h1,h2⟩)
      · omega
      · exact h2
    · intro h2
      exact .inr ⟨by omega,h2⟩

theorem sum_padded_mod (pre : List (List UInt8)) : (pre.map padded).sum % 4 = 0 := by
  induction pre with
  | nil => rfl
  | cons a pre ih =>
    rw [List.map_cons, List.sum_cons]
    unfold padded at *
    omega

/-- The image can be loaded, so that `exec` gets to the arguments. -/
def Loads (k : Kernel) (f : File) (s : Machine) : Prop :=
  ∃ d sz s', loadImage k f s = .ok (some (d,sz),s')

theorem loadImage_inv (h : Dir k all s old oth) {sz : ℕ} {s1 : Machine}
    (hrun : loadImage k f s = .ok (some (d,sz),s1)) :
    sz = f.stackTop ∧ Dir k all s1 d (vmPages s.mem old + oth) ∧ Stacked s1.mem d sz := by
  rcases loadImage_spec (f := f) h.pool h.owned with ⟨s1',hrun',-,-⟩ | ⟨d',s1',hrun',h1,-,hst1,-⟩
  · rw [hrun] at hrun'
    cases hrun'
  · rw [hrun] at hrun'
    cases hrun'
    exact ⟨rfl,h1,hst1⟩

/-- What holds when some strings have been pushed. -/
theorem pushArgs_inv {sz sp : ℕ} {s1 s2 : Machine} {ptrs : List ℕ} (h1 : Dir k all s1 d oth)
    (hst : Stacked s1.mem d sz) (hfew : argv.length < maxarg)
    (hlen : ∀ a ∈ argv, a.length + 1 < 0x80000000)
    (hrun : pushArgs d sz [] argv s1 = .ok (some (sp,ptrs),s2)) :
    Dir k all s2 d oth ∧ Stacked s2.mem d sz ∧ sp = sz - (argv.map padded).sum ∧
      (argv.map padded).sum ≤ 4096 ∧ ptrs.length = argv.length := by
  have hgap : ¬ HitsGap sz 0 argv := by
    intro hgap
    have := pushArgs_gap argv s1 0 [] h1 hst rfl (by omega) hlen (by simp only [List.length_nil]; omega) hgap
    rw [Nat.sub_zero, hrun] at this
    cases this
  obtain ⟨r,s',hrun',h2,-,hmap,hr⟩ := pushArgs_spec argv s1 0 [] h1 hst rfl (by omega) hlen hgap
  rw [Nat.sub_zero, hrun] at hrun'
  cases hrun'
  obtain ⟨e1,e2,e3,-⟩ := hr sp ptrs rfl
  rw [zero_add] at e1 e2
  exact ⟨h2,hst.congr hmap,e1,e2,by simpa using e3⟩

/-- Each `copyout` of `exec` stays in the new image when no string hits the gap. -/
theorem stackCall_safe (h : Dir k all s old oth) (hfew : argv.length < maxarg)
    (hlen : ∀ a ∈ argv, a.length + 1 < 0x80000000) (hgap : ¬ HitsGap f.stackTop 0 argv)
    {s2 : Machine} {va len : ℕ} {buf : ℕ → UInt8} (hcall : StackCall k f argv s s2 d va buf len) :
    ∃ r s', copyout d va buf len s2 = .ok (r,s') ∧ WritesUser s2.mem s'.mem d va len := by
  cases hcall with
  | @string d sz sp s1 s2 pre rest a ptrs hload hsplit hpush _ =>
    obtain ⟨rfl,h1,hst1⟩ := loadImage_inv h hload
    subst hsplit
    rw [List.length_append] at hfew
    obtain ⟨h2,hst2,rfl,hfit,-⟩ := pushArgs_inv h1 hst1 (by omega)
      (fun b hb => hlen b (by simp [hb])) hpush
    have hgap' := (hitsGap_append hst2.low (a :: rest) pre 0 (by omega)).not.mp hgap
    rw [zero_add, hitsGap_cons hst2.low, not_or] at hgap'
    obtain ⟨r,s',hrun,-,-,-,hw,-⟩ := push_string h2 hst2 (sum_padded_mod pre) hfit (hlen a (by simp)) hgap'.1
    exact ⟨r,s',hrun,hw⟩
  | @vector d sz sp s1 s2 ptrs hload hpush =>
    obtain ⟨rfl,h1,hst1⟩ := loadImage_inv h hload
    obtain ⟨h2,hst2,rfl,hfit,hptrs⟩ := pushArgs_inv h1 hst1 hfew hlen hpush
    have hlow := hst2.low
    unfold maxarg at hfew
    have hle : sub32 (f.stackTop - (argv.map padded).sum) ((3 + ptrs.length + 1) * 4) +
        (3 + ptrs.length + 1) * 4 ≤ f.stackTop := by
      rw [sub32_of_le (by omega)]
      omega
    obtain ⟨r,s',hrun,-,-,-,hw,-⟩ := copyout_spec h2 hst2 hle
    exact ⟨r,s',hrun,hw⟩

/-- A string that hits the gap makes `exec` follow a null pointer. -/
theorem exec_gap (h : Dir k all s old oth) (hfew : argv.length < maxarg)
    (hlen : ∀ a ∈ argv, a.length + 1 < 0x80000000) (hload : Loads k f s)
    (hgap : HitsGap f.stackTop 0 argv) : exec k f argv old s = .error .nullPte := by
  obtain ⟨d,sz,s1,hrun⟩ := hload
  obtain ⟨rfl,h1,hst1⟩ := loadImage_inv h hrun
  have hpush := pushArgs_gap argv s1 0 [] h1 hst1 rfl (by omega) hlen
    (by simp only [List.length_nil]; omega) hgap
  rw [Nat.sub_zero] at hpush
  unfold exec
  rw [bind_ok hrun]
  exact bind_error hpush

end Vm

/-- `exec` copies the arguments into the new image and nowhere else, unless the stack
pointer wraps around into the addresses between physical memory and the devices. -/
theorem exec_copies_into_image (c : Caller) {uargv old : ℕ} {argv : List (List UInt8)}
    (h : Dir k all s old oth) (hargv : c.argv uargv = some argv) :
    ExecSafe k f argv old s ↔ (Vm.Loads k f s → ¬ HitsGap f.stackTop 0 argv) := by
  obtain ⟨hfew,hlen⟩ := c.argv_bounds hargv
  constructor
  · rintro ⟨⟨r,s',hrun⟩,-⟩ hload hgap
    rw [Vm.exec_gap h hfew hlen hload hgap] at hrun
    cases hrun
  · intro hcond
    by_cases hload : Vm.Loads k f s
    · refine ⟨?_,fun s2 d va buf len hcall => Vm.stackCall_safe h hfew hlen (hcond hload) hcall⟩
      rcases Vm.exec_spec (f := f) h hlen (hcond hload) with ⟨s',hrun,-⟩ | ⟨im,s',hrun,-⟩
      · exact ⟨_,s',hrun⟩
      · exact ⟨_,s',hrun⟩
    · refine ⟨?_,fun s2 d va buf len hcall => ?_⟩
      · rcases Vm.loadImage_spec (f := f) h.pool h.owned with ⟨s1,hrun,-,-⟩ | ⟨d,s1,hrun,-⟩
        · unfold Vm.exec
          rw [bind_ok hrun]
          exact ⟨none,s1,rfl⟩
        · exact absurd ⟨d,_,s1,hrun⟩ hload
      · cases hcall with
        | string hl _ _ _ => exact absurd ⟨_,_,_,hl⟩ hload
        | vector hl _ => exact absurd ⟨_,_,_,hl⟩ hload

/-! ## A string of 33 megabytes -/

namespace Vm

/-- With 71 pages a program without segments can be loaded. -/
theorem loads_empty (hpool : Pool k all) (ho : (s.freelist : Multiset ℕ) + oth = all)
    (hread : f.readi 0 52 = some 52) (hmagic : f.magic = elfMagic) (hnum : f.phnum = 0)
    (hcard : Multiset.card oth + 71 ≤ Multiset.card all) : Loads k f s := by
  rcases setupkvm_spec hpool ho with ⟨s1,-,-,-,hfull⟩ | ⟨d,s1,hrun1,h1,-,hker,hzero,hnone⟩
  · omega
  have hvm : Multiset.card (vmPages s1.mem d) ≤ 65 :=
    card_vmPages_le (fun va hva => by rw [hzero va hva]; exact present_zero) fun i hi hp => by
      rcases Nat.lt_or_ge i 512 with hi' | hi'
      · rw [hnone i hi'] at hp
        cases hp
      · exact hker.tables i hi hi' hp
  have hfree : 6 ≤ s1.freelist.length := by
    have := congrArg Multiset.card h1.owned
    rw [Multiset.card_add, Multiset.card_add, Multiset.coe_card] at this
    omega
  obtain ⟨r2,s2,hrun2,h2,-,-,-,hres2⟩ := allocuvm_spec h1 (by omega)
    (show 0 ≤ 8192 by omega) fun va _ hva => by
      rw [hzero va (by omega)]
      exact present_zero
  obtain ⟨r2',s2',hrun2',-,-,hl2⟩ := allocuvm_loaded h1 (loaded_zero hker hzero)
  rw [hrun2] at hrun2'
  cases hrun2'
  rcases hres2 with ⟨rfl,-⟩ | ⟨-,-,hlow⟩
  · obtain ⟨-,hl2,-⟩ := hl2 (by omega)
    obtain ⟨s3,hrun3,-,-,-⟩ := clearpteu_stacked h2 hl2 rfl le_rfl
    refine ⟨d,8192,s3,?_⟩
    unfold loadImage
    rw [if_neg (fun hc => hc hread), if_neg (fun hc => hc hmagic), bind_ok hrun1, hnum]
    dsimp only
    rw [bind_ok (a := some 0) rfl]
    exact (bind_ok hrun2).trans (bind_ok hrun3)
  · omega

end Vm

section String
variable {c : Caller} {b : UInt8}

theorem Caller.scanstr_replicate (hb : b ≠ 0) (n : ℕ) : ∀ (fuel p : ℕ), n < fuel →
    (∀ x, p ≤ x → x < p + n → c.mem x = b) → c.mem (p + n) = 0 →
    c.scanstr fuel p = some (List.replicate n b) := by
  induction n with
  | zero =>
    intro fuel p hf _ hz
    obtain ⟨fuel,rfl⟩ : ∃ n, fuel = n + 1 := ⟨fuel - 1,by omega⟩
    rw [Nat.add_zero] at hz
    rw [scanstr, if_pos hz]
    rfl
  | succ n ih =>
    intro fuel p hf hall hz
    obtain ⟨fuel,rfl⟩ : ∃ n, fuel = n + 1 := ⟨fuel - 1,by omega⟩
    have hp := hall p le_rfl (by omega)
    rw [scanstr, hp, if_neg hb, ih fuel (p + 1) (by omega) (fun x h1 h2 => hall x (by omega) (by omega))
      (by rw [← hz]; congr 1; omega)]
    rfl

theorem Caller.argv_one {uargv p : ℕ} {a : List UInt8} (h0 : c.fetchint (u32 (uargv + 4 * 0)) = some p)
    (hp : p ≠ 0) (ha : c.fetchstr p = some a) (h1 : c.fetchint (u32 (uargv + 4 * 1)) = some 0) :
    c.argv uargv = some [a] := by
  unfold argv
  rw [show maxarg = 30 + 1 + 1 from rfl, fetchArgv, h0]
  obtain ⟨p,rfl⟩ : ∃ q, p = q + 1 := ⟨p - 1,by omega⟩
  simp only [ha]
  rw [fetchArgv, h1]
  rfl

end String

/-- A kernel with 72 pages of memory left, of which the first one is the directory of the
calling process. -/
def smallKernel : Kernel where
  data := 0x80108000
  kend := 0x80116000
  data_aligned := by decide
  kernlink_lt := by decide
  data_le := by decide
  kend_le := by decide

def smallPages : List ℕ := (List.range 72).map fun i => 0x80400000 + 4096 * i

def smallMachine : Machine where
  mem := fill (fun _ => 0) 0x80400000 4096 0
  freelist := smallPages.tail

/-- A header without program headers. -/
def emptyProgram : File where
  size := 52
  bytes := store32 (fun _ => 0) 0 elfMagic
  size_lt := by decide

/-- A process with the vector at address 0 and a string of `n` bytes at address 4096. -/
def stringCaller (n : ℕ) (hn : 4096 + n + 1 < kernbase) : Caller where
  mem := store32 (fill (fun _ => 0) 4096 n 97) 0 4096
  sz := 4096 + n + 1
  sz_lt := hn

theorem smallMachine_dir : Dir smallKernel smallPages smallMachine 0x80400000 0 where
  pool := by
    refine ⟨?_,fun p hp => ?_⟩
    · rw [Multiset.coe_nodup]
      exact List.Nodup.map (fun i j h => by simpa using h) List.nodup_range
    · obtain ⟨i,hi,rfl⟩ := List.mem_map.mp (Multiset.mem_coe.mp hp)
      have := List.mem_range.mp hi
      unfold smallKernel
      dsimp only
      omega
  owned := by
    unfold smallMachine
    dsimp only
    rw [Vm.vmPages_zeroed, add_zero, add_comm, Multiset.singleton_add, Multiset.cons_coe]
    rfl

theorem emptyProgram_magic : emptyProgram.magic = elfMagic := by
  unfold File.magic emptyProgram
  dsimp only
  rw [load32_store32]
  decide

theorem emptyProgram_phnum : emptyProgram.phnum = 0 := by
  unfold File.phnum emptyProgram
  dsimp only
  rw [load16_congr (store32_sameOn _ _ (.inl (by omega)))]
  unfold load16
  rfl

theorem emptyProgram_readi : emptyProgram.readi 0 52 = some 52 := by decide

theorem smallMachine_card : Multiset.card (vmPages smallMachine.mem 0x80400000 + 0) + 71 ≤
    Multiset.card (smallPages : Multiset ℕ) := by
  have hmem : smallMachine.mem = fill (fun _ => 0) 0x80400000 4096 0 := rfl
  have hlen : smallPages.length = 72 := by
    unfold smallPages
    rw [List.length_map, List.length_range]
  rw [hmem, Vm.vmPages_zeroed, add_zero, Multiset.card_singleton, Multiset.coe_card, hlen]

theorem emptyProgram_loads : Vm.Loads smallKernel emptyProgram smallMachine :=
  Vm.loads_empty smallMachine_dir.pool smallMachine_dir.owned emptyProgram_readi emptyProgram_magic
    emptyProgram_phnum smallMachine_card

theorem stringCaller_argv (n : ℕ) (hn : 4096 + n + 1 < kernbase) :
    (stringCaller n hn).argv 0 = some [List.replicate n 97] := by
  unfold kernbase at hn
  have hmem : ∀ x, 4 ≤ x → (stringCaller n hn).mem x = fill (fun _ => 0) 4096 n 97 x := fun x hx =>
    store32_sameOn _ _ (b := x) (k := 1) (.inl (by omega)) x le_rfl (by omega)
  refine Caller.argv_one (p := 4096) ?_ (by omega) ?_ ?_
  · unfold Caller.fetchint stringCaller u32
    rw [if_neg (by dsimp only; omega)]
    exact congrArg some (load32_store32 _ _ _)
  · unfold Caller.fetchstr
    rw [if_neg (by unfold stringCaller; dsimp only; omega)]
    refine Caller.scanstr_replicate (by decide) n _ _ (by unfold stringCaller; dsimp only; omega)
      (fun x h1 h2 => ?_) ?_
    · rw [hmem x (by omega)]
      exact if_pos ⟨h1,h2⟩
    · rw [hmem _ (by omega)]
      exact if_neg (by omega)
  · unfold Caller.fetchint u32
    rw [if_neg (by unfold stringCaller; dsimp only; omega)]
    have hsame : SameOn (stringCaller n hn).mem (fun _ => 0) 4 4 := by
      intro x h1 h2
      rw [hmem x h1]
      exact if_neg (by omega)
    rw [show (0 + 4 * 1) % 2 ^ 32 = 4 from rfl, load32_congr hsame]
    unfold load32 load16
    rfl

theorem emptyProgram_stackTop : emptyProgram.stackTop = 8192 := by
  unfold File.stackTop
  rw [emptyProgram_phnum]
  rfl

theorem exec_short_string : ExecSafe smallKernel emptyProgram [List.replicate 1 97] 0x80400000 smallMachine :=
  (exec_copies_into_image (stringCaller 1 (by decide)) smallMachine_dir (stringCaller_argv 1 (by decide))).mpr
    fun _ hc => by
      obtain ⟨t,ht,-⟩ := hc
      cases ht

/-- A string that wraps the stack pointer around into the gap. -/
theorem exec_string_null {n : ℕ} (h1 : 0x2002000 ≤ n) (h2 : n + 4 ≤ 0x72002000) :
    Vm.exec smallKernel emptyProgram [List.replicate n 97] 0x80400000 smallMachine =
      .error .nullPte := by
  have hpad : 0 + padded (List.replicate n 97) = (n + 4) / 4 * 4 := by
    unfold padded
    rw [List.length_replicate]
    omega
  refine Vm.exec_gap smallMachine_dir (by simp [maxarg]) (fun a ha => ?_) emptyProgram_loads ?_
  · rw [List.mem_singleton.mp ha, List.length_replicate]
    omega
  · refine ⟨(n + 4) / 4 * 4,?_,?_,?_⟩
    · rw [firstOver, hpad, if_pos (by unfold pgsize; omega)]
    · rw [emptyProgram_stackTop]
      unfold devspace
      omega
    · rw [emptyProgram_stackTop]
      unfold kernbase phystop
      omega

theorem exec_follows_null :
    (stringCaller 0x2100000 (by decide)).argv 0 = some [List.replicate 0x2100000 97] ∧
    Vm.exec smallKernel emptyProgram [List.replicate 0x2100000 97] 0x80400000 smallMachine =
      .error .nullPte :=
  ⟨stringCaller_argv _ _,exec_string_null (by decide) (by decide)⟩

end X86OsDev.Xv6
