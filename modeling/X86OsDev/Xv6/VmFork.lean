import X86OsDev.Xv6.ExecLaw

/-! # Two address spaces that share no page (`copyuvm` in vm.c) -/
namespace X86OsDev.Xv6
open Memory Fault Counting

/-- Two directories with pages of their own. -/
structure Isolated (m : Mem) (d e : ℕ) : Prop where
  nodup : (vmPages m d + vmPages m e).Nodup
  aligned : ∀ q ∈ vmPages m d + vmPages m e, q % 4096 = 0

/-- A byte stored through the user half of a directory; without a mapping the store traps. -/
def userWrite (d va : ℕ) (b : UInt8) (m : Mem) : Mem :=
  if va < kernbase ∧ present (pteOf m d va) then
    fill m (p2v (pteAddr (pteOf m d va)) + va % 4096) 1 b
  else m

/-- Stores through two directories, each with the directory that it goes through. -/
def userWrites (dirs : Bool → ℕ) (ws : List (Bool × ℕ × UInt8)) (m : Mem) : Mem :=
  ws.foldl (fun m w => userWrite (dirs w.1) w.2.1 w.2.2 m) m

variable {k : Kernel} {all oth : Multiset ℕ} {s : Machine} {m m' : Mem} {d e va : ℕ} {b : UInt8}

theorem Isolated.symm (h : Isolated m d e) : Isolated m e d := by
  obtain ⟨h1,h2⟩ := h
  rw [add_comm] at h1 h2
  exact ⟨h1,h2⟩

theorem Isolated.congr (h : Isolated m d e) (hd : SamePages m m' ({d} + tablePages m d))
    (he : SamePages m m' ({e} + tablePages m e)) : Isolated m' d e := by
  obtain ⟨h1,h2⟩ := h
  rw [← vmPages_congr hd, ← vmPages_congr he] at h1 h2
  exact ⟨h1,h2⟩

/-- A store changes one byte of one user page, or nothing. -/
theorem userWrite_cases (d va : ℕ) (b : UInt8) (m : Mem) : userWrite d va b m = m ∨
    ∃ p ∈ userPages m d, ChangedIn m (userWrite d va b m) p 4096 := by
  unfold userWrite
  split
  · rename_i hw
    refine .inr ⟨_,mem_userPages hw.1 hw.2,?_⟩
    exact (ChangedIn.of_sameOn fun _ _ => fill_sameOn _).mono (by omega) (by omega)
  · exact .inl rfl

namespace Isolated

/-- A store through one directory changes neither of the page tables and no page of the other one. -/
theorem write (h : Isolated m d e) (va : ℕ) (b : UInt8) :
    SamePages m (userWrite d va b m) ({d} + tablePages m d) ∧
      SamePages m (userWrite d va b m) (vmPages m e) := by
  rcases userWrite_cases d va b m with heq | ⟨p,hp,hch⟩
  · rw [heq]
    exact ⟨.refl _ _,.refl _ _⟩
  · have hpd : p ∈ vmPages m d := Dir.user_mem_vm hp
    have hnd := Multiset.nodup_add.mp h.nodup
    have hal := h.aligned p (Multiset.mem_add.mpr (.inl hpd))
    refine ⟨samePages_of_changedIn hch hal (fun q hq => h.aligned q ?_) ?_,
      samePages_of_changedIn hch hal (fun q hq => h.aligned q (Multiset.mem_add.mpr (.inr hq)))
        (Multiset.disjoint_left.mp hnd.2.2 hpd)⟩
    · exact Multiset.mem_add.mpr (.inl (Multiset.mem_of_le (Dir.tables_le_vm m d) hq))
    · have hvm := hnd.1
      unfold vmPages at hvm
      rw [← add_assoc] at hvm
      exact fun hc => Multiset.disjoint_left.mp (Multiset.nodup_add.mp hvm).2.2 hc hp

theorem after_write (h : Isolated m d e) (va : ℕ) (b : UInt8) : Isolated (userWrite d va b m) d e :=
  h.congr (h.write va b).1 ((h.write va b).2.mono (Dir.tables_le_vm m e))

end Isolated

/-- Two memories in which the directory `d` has the same pages with the same bytes, apart from `e`. -/
structure SeenFrom (d e : ℕ) (m m' : Mem) : Prop where
  left : Isolated m d e
  right : Isolated m' d e
  same : SamePages m m' (vmPages m d)

namespace SeenFrom

theorem read (h : SeenFrom d e m m') (va : ℕ) : SameAt m m' d va := (Vm.src_congr h.same le_rfl).1 va

/-- A store through `e` in one of the memories is not seen. -/
theorem write_other (h : SeenFrom d e m m') (va : ℕ) (b : UInt8) : SeenFrom d e (userWrite e va b m) m' where
  left := (h.left.symm.after_write va b).symm
  right := h.right
  same := by
    obtain ⟨-,hw⟩ := h.left.symm.write va b
    rw [vmPages_congr (hw.mono (Dir.tables_le_vm m d))]
    intro p hp x h1 h2
    rw [h.same p hp x h1 h2, hw p hp x h1 h2]

/-- The same store through `d` in both memories. -/
theorem write_both (h : SeenFrom d e m m') (va : ℕ) (b : UInt8) :
    SeenFrom d e (userWrite d va b m) (userWrite d va b m') where
  left := h.left.after_write va b
  right := h.right.after_write va b
  same := by
    rw [vmPages_congr (h.left.write va b).1]
    intro p hp x h1 h2
    have hx := h.same p hp x h1 h2
    unfold userWrite
    rw [(h.read va).pte]
    split
    · unfold fill
      split
      · rfl
      · exact hx
    · exact hx

/-- Of stores through both directories, those through `d` decide what is seen. -/
theorem writes {dirs : Bool → ℕ} {i : Bool} (ws : List (Bool × ℕ × UInt8)) : ∀ m m' : Mem,
    SeenFrom (dirs i) (dirs !i) m m' →
    SeenFrom (dirs i) (dirs !i) (userWrites dirs ws m) (userWrites dirs (ws.filter (·.1 == i)) m') := by
  induction ws with
  | nil =>
    intro m m' h
    exact h
  | cons w ws ih =>
    intro m m' h
    by_cases hw : w.1 = i
    · rw [List.filter_cons_of_pos (by simp [hw])]
      refine ih _ _ ?_
      dsimp only
      rw [hw]
      exact h.write_both w.2.1 w.2.2
    · rw [List.filter_cons_of_neg (by simp [hw])]
      have hw' : w.1 = !i := by
        cases hi : i <;> cases hc : w.1 <;> simp_all
      refine ih _ _ ?_
      dsimp only
      rw [hw']
      exact h.write_other w.2.1 w.2.2

end SeenFrom

/-- Stores through one directory never show through the other one. -/
def NoInterference (dirs : Bool → ℕ) (m : Mem) : Prop :=
  ∀ ws i, ∀ va < kernbase, userByte (userWrites dirs ws m) (dirs i) va =
    userByte (userWrites dirs (ws.filter (·.1 == i)) m) (dirs i) va

theorem Isolated.noInterference {dirs : Bool → ℕ} (h : Isolated m (dirs false) (dirs true)) :
    NoInterference dirs m := by
  intro ws i va hva
  have hi : Isolated m (dirs i) (dirs !i) := by
    cases i with
    | false => exact h
    | true => exact h.symm
  have hs := SeenFrom.writes (i := i) ws m m ⟨hi,hi,.refl _ _⟩
  exact ((hs.read va).userByte hva).symm

/-- What `copyuvm` promises of the directory `d` that it returns. -/
structure Duplicates (s s' : Machine) (pgdir d sz : ℕ) : Prop where
  copies : ∀ va < sz, CopyAt s.mem pgdir s'.mem d va
  distinct : ∀ va < kernbase, ∀ va' < kernbase, present (pteOf s'.mem d va) = true →
    present (pteOf s'.mem d va') = true →
    p2v (pteAddr (pteOf s'.mem d va)) = p2v (pteAddr (pteOf s'.mem d va')) → va / 4096 = va' / 4096
  disjoint : ∀ va < kernbase, present (pteOf s'.mem d va) = true →
    p2v (pteAddr (pteOf s'.mem d va)) ∉ vmPages s'.mem pgdir
  bounded : ∀ va < kernbase, pgroundup sz ≤ va → present (pteOf s'.mem d va) = false
  parent : SamePages s.mem s'.mem (vmPages s.mem pgdir)
  isolation : NoInterference (fun child => if child then d else pgdir) s'.mem

/-- `copyuvm` returns a copy of the address space with pages of its own, or everything is as
it was. It does not panic. -/
theorem copyuvm_duplicates {pgdir sz : ℕ} (h : Dir k all s pgdir oth) (hmaps : MapsBelow s.mem pgdir sz) :
    ∃ r s', Vm.copyuvm k pgdir sz s = .ok (r,s') ∧ (∀ d, r = some d → Duplicates s s' pgdir d sz) ∧
      (r = none → SamePages s.mem s'.mem (vmPages s.mem pgdir) ∧
        (s'.freelist : Multiset ℕ) = s.freelist) := by
  have hsz := h.size_lt hmaps
  rcases Vm.copyuvm_spec h.pool h.owned (Multiset.le_add_right _ _) hmaps hsz with
    ⟨s',hrun,ho,hsame⟩ | ⟨d,s',hrun,hd,hsame,-,hmaps',hcopy⟩
  · refine ⟨none,s',hrun,fun _ hc => (by cases hc),fun _ => ⟨hsame.mono (Multiset.le_add_right _ _),?_⟩⟩
    exact add_right_cancel (ho.trans h.owned.symm)
  · have hparent := hsame.mono (Multiset.le_add_right _ _)
    have hvm : vmPages s'.mem pgdir = vmPages s.mem pgdir :=
      vmPages_congr (hparent.mono (Dir.tables_le_vm s.mem pgdir))
    have hroom : vmPages s'.mem pgdir + vmPages s'.mem d ≤ all := by
      rw [← hd.owned, hvm, add_comm (vmPages s.mem pgdir)]
      exact (add_le_add_right (Multiset.le_add_right _ _) _).trans (Multiset.le_add_left _ _)
    have hiso : Isolated s'.mem pgdir d :=
      ⟨Multiset.nodup_of_le hroom hd.pool.nodup,fun q hq => (hd.pool.bounds (Multiset.mem_of_le hroom hq)).1⟩
    refine ⟨some d,s',hrun,fun d' hd' => ?_,fun hc => (by cases hc)⟩
    cases hd'
    refine ⟨fun va hva => hcopy va (by omega),fun va h1 va' h2 hp hp' heq => hd.user_inj h1 h2 hp hp' heq,
      fun va hva hp hc => ?_,fun va hva hge => ?_,hparent,hiso.noInterference⟩
    · exact Multiset.disjoint_left.mp (Multiset.nodup_add.mp hiso.nodup).2.2 hc
        (Dir.user_mem_vm (mem_userPages hva hp))
    · rw [pgroundup_eq (by unfold kernbase; omega)] at hge
      exact Bool.eq_false_iff.mpr fun hc => absurd ((hmaps' va hva).mp hc) (by omega)

/-! ## A process of one page -/

/-- What `allocuvm` makes of the directory of `smallMachine`. -/
def onePage : Machine :=
  match Vm.allocuvm smallKernel 0x80400000 0 4096 smallMachine with
  | .ok (_,m) => m
  | .error _ => smallMachine

theorem onePage_dir : Dir smallKernel smallPages onePage 0x80400000 0 ∧
    MapsBelow onePage.mem 0x80400000 4096 := by
  have hzero : ∀ va < 0x80000000, present (pteOf smallMachine.mem 0x80400000 va) = false := by
    intro va hva
    have hout := (Vm.zeroed_mapped (fun _ => 0) 0x80400000).outside va (by omega) (by omega)
    unfold smallMachine
    rw [hout]
    exact present_zero
  have hfree : smallMachine.freelist.length = 71 := by
    unfold smallMachine smallPages
    rw [List.length_tail, List.length_map, List.length_range]
  obtain ⟨r,m,hrun,hd,-,hout,-,hres⟩ := Vm.allocuvm_spec smallMachine_dir
    (show 4096 < 0x80000000 by omega) (Nat.zero_le _) fun va _ h2 => hzero va (by omega)
  have hm : onePage = m := by
    unfold onePage
    rw [hrun]
  rw [hm]
  refine ⟨hd,fun va hva => ?_⟩
  rcases hres with ⟨-,hin⟩ | ⟨-,-,hlow⟩
  · rcases Nat.lt_or_ge va 4096 with hlt | hge
    · exact ⟨fun _ => by omega,fun _ => (hin va (by omega) (by omega)).present⟩
    · rw [(hout va (by omega) (by omega)).pte, hzero va hva]
      exact ⟨fun hc => (by cases hc),fun hc => absurd hc (by omega)⟩
  · omega

theorem copyuvm_one_page : ∃ r s', Vm.copyuvm smallKernel 0x80400000 4096 onePage = .ok (r,s') ∧
    (∀ d, r = some d → Duplicates onePage s' 0x80400000 d 4096) ∧
    (r = none → SamePages onePage.mem s'.mem (vmPages onePage.mem 0x80400000) ∧
      (s'.freelist : Multiset ℕ) = onePage.freelist) :=
  copyuvm_duplicates onePage_dir.1 onePage_dir.2

end X86OsDev.Xv6
