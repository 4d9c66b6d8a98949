import X86OsDev.Xv6.ExecLoad

/-! # The argument strings of `exec`

The stack pointer for a string is computed by unsigned subtraction. As long as
the strings fit on the stack page, `copyout` writes there. The first string
that does not fit is refused, unless the stack pointer wraps around to an
address between the end of physical memory and the devices: no page table
exists there, and `uva2ka` follows a null pointer.
-/
namespace X86OsDev.Xv6
open Memory Fault Counting

variable {k : Kernel} {all oth : Multiset ℕ} {s : Machine} {d : ℕ} {f : File}

/-- The bytes that a string takes on the stack. -/
def padded (a : List UInt8) : ℕ := (a.length + 1 + 3) / 4 * 4

/-- The bytes taken when the strings first need more than the stack page. -/
def firstOver : ℕ → List (List UInt8) → Option ℕ
  | _, [] => none
  | t, a :: rest => if pgsize < t + padded a then some (t + padded a) else firstOver (t + padded a) rest

/-- The stack pointer wraps around into the addresses without page tables. -/
def HitsGap (top t : ℕ) (argv : List (List UInt8)) : Prop :=
  ∃ t', firstOver t argv = some t' ∧ top + (2 ^ 32 - devspace) < t' ∧
    t' ≤ top + (2 ^ 32 - (kernbase + phystop))

/-- Every byte that differs is one of the `len` bytes from `va` on, in a page that the
directory maps for the user at that address. -/
def WritesUser (m m' : Mem) (d va len : ℕ) : Prop :=
  ∀ x, m' x ≠ m x → ∃ j < len, present (pteOf m d (u32 (va + j))) = true ∧
    user (pteOf m d (u32 (va + j))) = true ∧
    x = p2v (pteAddr (pteOf m d (u32 (va + j)))) + u32 (va + j) % 4096

/-- The calls of `copyout` while `exec` builds the stack: one for each string whose
predecessors were pushed, and one for the vector when all were. -/
inductive StackCall (k : Kernel) (f : File) (argv : List (List UInt8)) (s : Machine) :
    Machine → ℕ → ℕ → (ℕ → UInt8) → ℕ → Prop
  | string {d sz sp : ℕ} {s1 s2 : Machine} {pre rest : List (List UInt8)} {a : List UInt8} {ptrs : List ℕ}
    (load : Vm.loadImage k f s = .ok (some (d,sz),s1)) (split : argv = pre ++ a :: rest)
    (push : Vm.pushArgs d sz [] pre s1 = .ok (some (sp,ptrs),s2)) (few : ptrs.length < maxarg) :
    StackCall k f argv s s2 d (Vm.pushSp sp a) (Vm.stringBytes a) (a.length + 1)
  | vector {d sz sp : ℕ} {s1 s2 : Machine} {ptrs : List ℕ}
    (load : Vm.loadImage k f s = .ok (some (d,sz),s1))
    (push : Vm.pushArgs d sz [] argv s1 = .ok (some (sp,ptrs),s2)) :
    StackCall k f argv s s2 d (sub32 sp ((3 + ptrs.length + 1) * 4))
      (Vm.wordBytes (Vm.ustack sp ptrs)) ((3 + ptrs.length + 1) * 4)

/-- `exec` returns, and each `copyout` writes into the new image only. -/
def ExecSafe (k : Kernel) (f : File) (argv : List (List UInt8)) (oldpgdir : ℕ) (s : Machine) : Prop :=
  (∃ r s', Vm.exec k f argv oldpgdir s = .ok (r,s')) ∧
    ∀ s2 d va buf len, StackCall k f argv s s2 d va buf len →
      ∃ r s', Vm.copyout d va buf len s2 = .ok (r,s') ∧ WritesUser s2.mem s'.mem d va len

theorem WritesUser.refl (m : Mem) (d va len : ℕ) : WritesUser m m d va len :=
  fun _ hx => absurd rfl hx

/-- A write below `KERNBASE` is not seen outside of its addresses. -/
theorem WritesUser.userByte {m : Mem} {va len x : ℕ} (hw : WritesUser s.mem m d va len) (h : Dir k all s d oth)
    (hk : KernelMapped s.mem d) (hmap : SameMap s.mem m d) (hx : x < 0x80000000)
    (hout : ∀ j < len, u32 (va + j) ≠ x) : userByte m d x = userByte s.mem d x := by
  have hpage : present (pteOf s.mem d x) = true → m (p2v (pteAddr (pteOf s.mem d x)) + x % 4096) =
      s.mem (p2v (pteAddr (pteOf s.mem d x)) + x % 4096) := by
    intro hp
    by_contra hne
    obtain ⟨j,hj,hj1,hj2,hj3⟩ := hw _ hne
    have hlow : u32 (va + j) < 0x80000000 := by
      by_contra hhigh
      rw [hk.noUser _ (by omega) (by unfold u32; omega)] at hj2
      cases hj2
    have ha1 := (h.pool.bounds (h.user_mem (mem_userPages hx hp)).1).1
    have ha2 := (h.pool.bounds (h.user_mem (mem_userPages hlow hj1)).1).1
    have hpages := h.user_inj hx hlow hp hj1 (by omega)
    exact hout j hj (by omega)
  unfold Xv6.userByte userEntry
  rw [hmap.pte]
  by_cases hp : present (pteOf s.mem d x) = true
  · rw [if_pos hp, Option.map_some, Option.map_some, hpage hp]
  · rw [if_neg hp, Option.map_none, Option.map_none]

namespace Vm

theorem uva2ka_mapped {va : ℕ} (hp : present (pteOf s.mem d va) = true) :
    uva2ka d va s = .ok (if user (pteOf s.mem d va) then some (p2v (pteAddr (pteOf s.mem d va))) else none,s) := by
  have hpd := present_pde_of_pteOf hp
  unfold uva2ka
  rw [bind_ok (walkpgdir_hit hpd false)]
  dsimp only
  rw [bind_ok (load_ok _ _), load_entryAddr hpd, hp]
  cases user (pteOf s.mem d va) <;> rfl

theorem uva2ka_null {va : ℕ} (hp : present (pde s.mem d (pdx va)) = false) :
    uva2ka d va s = .error .nullPte := by
  unfold uva2ka
  rw [bind_ok (walkpgdir_miss hp)]
  rfl

theorem pgrounddown_eq (va : ℕ) : pgrounddown va = va / 4096 * 4096 := rfl

theorem copyoutLoop_succ {buf : ℕ → UInt8} {fuel va off len : ℕ} (hlen : len ≠ 0) :
    copyoutLoop d buf (fuel + 1) va off len = (do
      match ← uva2ka d (pgrounddown va) with
      | none => return false
      | some pa0 =>
        memmove (pa0 + (va - pgrounddown va))
          (fun x => buf (off + x)) (min (pgsize - (va - pgrounddown va)) len)
        copyoutLoop d buf fuel (u32 (pgrounddown va + pgsize))
          (off + min (pgsize - (va - pgrounddown va)) len)
          (len - min (pgsize - (va - pgrounddown va)) len)) := by
  exact Eq.trans (if_neg hlen) rfl

/-- `copyout` below the top of the stack. -/
theorem copyoutLoop_spec {buf : ℕ → UInt8} {sz : ℕ} (fuel : ℕ) : ∀ (s : Machine) (va off len : ℕ),
    Dir k all s d oth → Stacked s.mem d sz → len ≤ fuel → va + len ≤ sz →
    ∃ r s', copyoutLoop d buf fuel va off len s = .ok (r,s') ∧ Dir k all s' d oth ∧
      SamePages s.mem s'.mem oth ∧ SameMap s.mem s'.mem d ∧ WritesUser s.mem s'.mem d va len ∧
      (r = true ↔ ∀ x, va ≤ x → x < va + len → user (pteOf s.mem d x) = true) := by
  induction fuel with
  | zero =>
    intro s va off len h _ hf _
    exact ⟨true,s,rfl,h,.refl _ _,.refl _ _,.refl _ _ _ _,fun _ x h1 h2 => by omega,fun _ => rfl⟩
  | succ fuel ih =>
    intro s va off len h hst hf hle
    by_cases hlen : len = 0
    · subst hlen
      exact ⟨true,s,rfl,h,.refl _ _,.refl _ _,.refl _ _ _ _,fun _ x h1 h2 => by omega,fun _ => rfl⟩
    have hal := hst.aligned
    have hlt := hst.lt
    have hva0 : pteOf s.mem d (va / 4096 * 4096) = pteOf s.mem d va := by
      rw [Nat.mul_comm]
      exact pteOf_page s.mem d va
    have hp : present (pteOf s.mem d va) = true := (hst.maps va (by omega)).mpr (by omega)
    rw [copyoutLoop_succ hlen, pgrounddown_eq]
    rw [bind_ok (uva2ka_mapped (by rw [hva0]; exact hp)), hva0]
    cases hu : user (pteOf s.mem d va) with
    | false =>
      refine ⟨false,s,rfl,h,.refl _ _,.refl _ _,.refl _ _ _ _,fun hc => (by cases hc),fun hc => ?_⟩
      rw [hc va le_rfl (by omega)] at hu
      cases hu
    | true =>
      simp only [if_true]
      obtain ⟨n,hn,hn1,hn2⟩ : ∃ n, min (pgsize - (va - va / 4096 * 4096)) len = n ∧ n ≤ len ∧
          (n = len ∧ va % 4096 + n ≤ 4096 ∨ va % 4096 + n = 4096) :=
        ⟨_,rfl,by omega,by unfold pgsize; omega⟩
      have hoff : va - va / 4096 * 4096 = va % 4096 := by omega
      rw [hn, hoff, bind_ok (memmove_ok _ _ _ _), u32_of_lt (by unfold pgsize; omega)]
      obtain ⟨h1,hsame1,hmap1⟩ := h.writeMapped (n := n)
        (a := p2v (pteAddr (pteOf s.mem d va)) + va % 4096) (by omega) hp (by omega) (by omega)
      have hw1 : ∀ x, copy s.mem (p2v (pteAddr (pteOf s.mem d va)) + va % 4096) n
          (fun x => buf (off + x)) x ≠ s.mem x →
          ∃ j < n, x = p2v (pteAddr (pteOf s.mem d va)) + (va % 4096 + j) := by
        intro x hx
        unfold copy at hx
        split at hx
        · exact ⟨x - (p2v (pteAddr (pteOf s.mem d va)) + va % 4096),by omega,by omega⟩
        · exact absurd rfl hx
      generalize copy s.mem (p2v (pteAddr (pteOf s.mem d va)) + va % 4096) n
        (fun x => buf (off + x)) = m1 at h1 hsame1 hmap1 hw1 ⊢
      obtain ⟨r,s',hrun,h2,hsame2,hmap2,hw2,hr⟩ := ih ⟨m1,s.freelist⟩ (va / 4096 * 4096 + pgsize)
        (off + n) (len - n) h1 (hst.congr hmap1) (by omega) (by unfold pgsize; omega)
      dsimp only at hsame2 hmap2 hw2 hr
      -- the bytes of this round all lie in the page of `va`
      have hpage : ∀ j, va % 4096 + j < 4096 → pteOf s.mem d (va + j) = pteOf s.mem d va := by
        intro j hj
        rw [← pteOf_page s.mem d (va + j), ← pteOf_page s.mem d va,
          show (va + j) / 4096 = va / 4096 by omega]
      refine ⟨r,s',hrun,h2,hsame1.trans hsame2,hmap1.trans hmap2,fun x hx => ?_,fun hr' x hx1 hx2 => ?_,
        fun hall => hr.mpr fun x hx1 hx2 => ?_⟩
      · by_cases hx' : m1 x = s.mem x
        · obtain ⟨j,hj,hj1,hj2,hj3⟩ := hw2 x (by rw [hx']; exact hx)
          have hnext : va / 4096 * 4096 + pgsize + j = va + (n + j) := by unfold pgsize; omega
          rw [hmap1.pte, hnext] at hj1 hj2 hj3
          exact ⟨n + j,by omega,hj1,hj2,hj3⟩
        · obtain ⟨j,hj,hj1⟩ := hw1 x hx'
          refine ⟨j,by omega,?_⟩
          rw [u32_of_lt (by omega), hpage j (by omega)]
          exact ⟨hp,hu,by omega⟩
      · by_cases hx' : x < va + n
        · have := hpage (x - va) (by omega)
          rw [show va + (x - va) = x by omega] at this
          rw [this]
          exact hu
        · have hux := hr.mp hr' x (by unfold pgsize; omega) (by unfold pgsize; omega)
          rwa [hmap1.pte] at hux
      · rw [hmap1.pte]
        unfold pgsize at hx1 hx2
        exact hall x (by omega) (by omega)

theorem copyout_spec (h : Dir k all s d oth) {sz va len : ℕ} {buf : ℕ → UInt8} (hst : Stacked s.mem d sz)
    (hle : va + len ≤ sz) :
    ∃ r s', copyout d va buf len s = .ok (r,s') ∧ Dir k all s' d oth ∧
      SamePages s.mem s'.mem oth ∧ SameMap s.mem s'.mem d ∧ WritesUser s.mem s'.mem d va len ∧
      (r = true ↔ ∀ x, va ≤ x → x < va + len → user (pteOf s.mem d x) = true) :=
  copyoutLoop_spec len s va 0 len h hst le_rfl hle

/-- Where the kernel is mapped, `copyout` refuses at once. -/
theorem copyout_kernel {sz va len : ℕ} {buf : ℕ → UInt8} (hst : Stacked s.mem d sz) (hlen : len ≠ 0)
    (hva : va < 2 ^ 32) (hk : 0x80000000 ≤ va ∧ va < 0x8E000000 ∨ 0xFE000000 ≤ va) :
    copyout d va buf len s = .ok (false,s) := by
  obtain ⟨n,rfl⟩ : ∃ n, len = n + 1 := ⟨len - 1,by omega⟩
  have hp := hst.kernel.mapped (va / 4096 * 4096) (by omega) (by omega)
  have hu := hst.kernel.noUser (va / 4096 * 4096) (by omega) (by omega)
  unfold copyout
  rw [copyoutLoop_succ hlen, pgrounddown_eq, bind_ok (uva2ka_mapped hp), hu]
  rfl

/-- Between physical memory and the devices there is no page table. -/
theorem copyout_gap {sz va len : ℕ} {buf : ℕ → UInt8} (hst : Stacked s.mem d sz) (hlen : len ≠ 0)
    (h1 : 0x8E000000 ≤ va) (h2 : va < 0xFE000000) : copyout d va buf len s = .error .nullPte := by
  obtain ⟨n,rfl⟩ : ∃ n, len = n + 1 := ⟨len - 1,by omega⟩
  have hx : pdx (va / 4096 * 4096) = va / 2 ^ 22 := by
    rw [pdx_of_lt (by omega)]
    omega
  have hp : present (pde s.mem d (pdx (va / 4096 * 4096))) = false := by
    refine Bool.eq_false_iff.mpr fun hc => ?_
    have := hst.kernel.tables _ (pdx_lt _) (by omega) hc
    unfold KernelTable at this
    omega
  unfold copyout
  rw [copyoutLoop_succ hlen, pgrounddown_eq, bind_error (uva2ka_null hp)]

/-! ## The strings -/

section Push
variable {a : List UInt8} {sz t : ℕ}

/-- The stack pointer below `t` bytes of strings, if the next string is pushed. -/
theorem pushSp_eq (hal : sz % 4096 = 0) (ht : t % 4 = 0) (hts : t ≤ sz) (hsz : sz < 0x80000000)
    (ha : a.length + 1 < 0x80000000) :
    pushSp (sz - t) a = if t + padded a ≤ sz then sz - (t + padded a) else sz + 2 ^ 32 - (t + padded a) := by
  unfold pushSp padded sub32
  split <;> split <;> omega

/-- Pushing one string. -/
theorem push_string (h : Dir k all s d oth) (hst : Stacked s.mem d sz) (ht : t % 4 = 0) (hts : t ≤ 4096)
    (ha : a.length + 1 < 0x80000000)
    (hgap : ¬ (sz + 0x2000000 < t + padded a ∧ t + padded a ≤ sz + 0x72000000)) :
    ∃ r s', copyout d (pushSp (sz - t) a) (stringBytes a) (a.length + 1) s = .ok (r,s') ∧
      Dir k all s' d oth ∧ SamePages s.mem s'.mem oth ∧ SameMap s.mem s'.mem d ∧
      WritesUser s.mem s'.mem d (pushSp (sz - t) a) (a.length + 1) ∧
      (r = true ↔ t + padded a ≤ 4096) := by
  have hal := hst.aligned
  have hlt := hst.lt
  have hlow := hst.low
  have hsp := pushSp_eq (a := a) hal ht (by omega) hlt ha
  have hpad : a.length + 1 ≤ padded a ∧ padded a ≤ a.length + 1 + 3 := by
    unfold padded
    omega
  split at hsp
  · rename_i hfit
    obtain ⟨r,s',hrun,h',hsame,hmap,hw,hr⟩ := copyout_spec h hst
      (show pushSp (sz - t) a + (a.length + 1) ≤ sz by omega)
    refine ⟨r,s',hrun,h',hsame,hmap,hw,fun hc => ?_,fun hle => hr.mpr fun x hx1 hx2 => ?_⟩
    · by_contra hover
      -- the string reaches into the page below the stack
      obtain ⟨x,hx1,hx2,hx3,hx4⟩ : ∃ x, pushSp (sz - t) a ≤ x ∧
          x < pushSp (sz - t) a + (a.length + 1) ∧ sz - 8192 ≤ x ∧ x < sz - 4096 :=
        ⟨max (pushSp (sz - t) a) (sz - 8192),by omega,by omega,by omega,by omega⟩
      exact (hst.accessible x (by omega)).mp (hr.mp hc x hx1 hx2) ⟨hx3,hx4⟩
    · exact (hst.accessible x (by omega)).mpr (by omega)
  · refine ⟨false,s,copyout_kernel hst (by omega) (by omega) (by omega),h,.refl _ _,.refl _ _,.refl _ _ _ _,
      fun hc => (by cases hc),fun hc => by omega⟩

/-- Pushing one string when the stack pointer wraps around into the gap. -/
theorem push_string_gap (hst : Stacked s.mem d sz) (ht : t % 4 = 0) (hts : t ≤ 4096)
    (ha : a.length + 1 < 0x80000000) (h1 : sz + 0x2000000 < t + padded a)
    (h2 : t + padded a ≤ sz + 0x72000000) :
    copyout d (pushSp (sz - t) a) (stringBytes a) (a.length + 1) s = .error .nullPte := by
  have hlow := hst.low
  have hsp := pushSp_eq (a := a) hst.aligned ht (by omega) hst.lt ha
  rw [if_neg (by omega)] at hsp
  exact copyout_gap hst (by omega) (by omega) (by omega)

theorem hitsGap_cons {rest : List (List UInt8)} (hsz : 8192 ≤ sz) : HitsGap sz t (a :: rest) ↔
    (sz + 0x2000000 < t + padded a ∧ t + padded a ≤ sz + 0x72000000) ∨
      (t + padded a ≤ 4096 ∧ HitsGap sz (t + padded a) rest) := by
  unfold HitsGap devspace kernbase phystop
  rw [firstOver]
  unfold pgsize
  constructor
  · rintro ⟨t',h1,h2,h3⟩
    split at h1
    · cases h1
      exact .inl ⟨by omega,by omega⟩
    · exact .inr ⟨by omega,t',h1,h2,h3⟩
  · rintro (⟨h1,h2⟩ | ⟨h1,t',h2,h3,h4⟩)
    · exact ⟨_,if_pos (by omega),by omega,by omega⟩
    · exact ⟨t',by rw [if_neg (by omega)]; exact h2,h3,h4⟩

/-- Pushing all strings, unless one hits the gap. -/
theorem pushArgs_spec (argv : List (List UInt8)) : ∀ (s : Machine) (t : ℕ) (ptrs : List ℕ),
    Dir k all s d oth → Stacked s.mem d sz → t % 4 = 0 → t ≤ 4096 →
    (∀ a ∈ argv, a.length + 1 < 0x80000000) → ¬ HitsGap sz t argv →
    ∃ r s', pushArgs d (sz - t) ptrs argv s = .ok (r,s') ∧ Dir k all s' d oth ∧
      SamePages s.mem s'.mem oth ∧ SameMap s.mem s'.mem d ∧
      ∀ sp ptrs', r = some (sp,ptrs') → sp = sz - (t + (argv.map padded).sum) ∧
        t + (argv.map padded).sum ≤ 4096 ∧ ptrs'.length = ptrs.length + argv.length ∧
        (ptrs.length ≤ maxarg → ptrs'.length ≤ maxarg) ∧
        ∀ x < sz - 4096, userByte s'.mem d x = userByte s.mem d x := by
  induction argv with
  | nil =>
    intro s t ptrs h hst ht hts _ _
    refine ⟨some (sz - t,ptrs),s,rfl,h,.refl _ _,.refl _ _,fun sp ptrs' hr => ?_⟩
    cases hr
    simp [hts]
  | cons a rest ih =>
    intro s t ptrs h hst ht hts hlen hgap
    rw [pushArgs]
    split
    · exact ⟨none,s,rfl,h,.refl _ _,.refl _ _,fun _ _ hr => by cases hr⟩
    rename_i hfew
    rw [hitsGap_cons hst.low, not_or] at hgap
    have ha := hlen a (by simp)
    obtain ⟨r1,s1,hrun1,h1,hsame1,hmap1,hw1,hr1⟩ := push_string h hst ht hts ha hgap.1
    rw [bind_ok hrun1]
    cases r1 with
    | false => exact ⟨none,s1,rfl,h1,hsame1,hmap1,fun _ _ hr => by cases hr⟩
    | true =>
      have hfit := hr1.mp rfl
      have hlow := hst.low
      have hsp := pushSp_eq (a := a) hst.aligned ht (by omega) hst.lt ha
      rw [if_pos (by omega)] at hsp
      rw [if_pos rfl, hsp]
      obtain ⟨r,s',hrun,h',hsame,hmap,hr⟩ := ih s1 (t + padded a) (ptrs ++ [sz - (t + padded a)]) h1
        (hst.congr hmap1) (by unfold padded; omega) hfit (fun b hb => hlen b (by simp [hb]))
        (fun hc => hgap.2 ⟨hfit,hc⟩)
      refine ⟨r,s',hrun,h',hsame1.trans hsame,hmap1.trans hmap,fun sp ptrs' he => ?_⟩
      obtain ⟨e1,e2,e3,e4,e5⟩ := hr sp ptrs' he
      rw [List.map_cons, List.sum_cons, ← add_assoc]
      have hlt := hst.lt
      have hpad : a.length + 1 ≤ padded a := by
        unfold padded
        omega
      refine ⟨e1,e2,?_,fun _ => e4 ?_,fun x hx => ?_⟩
      · rw [e3]
        simp only [List.length_append, List.length_cons, List.length_nil]
        omega
      · simp only [List.length_append, List.length_cons, List.length_nil]
        omega
      · rw [e5 x hx]
        refine hw1.userByte h hst.kernel hmap1 (by omega) fun j hj => ?_
        rw [hsp, u32_of_lt (by omega)]
        omega

/-- When the strings hit the gap, the kernel follows the null pointer. -/
theorem pushArgs_gap (argv : List (List UInt8)) : ∀ (s : Machine) (t : ℕ) (ptrs : List ℕ),
    Dir k all s d oth → Stacked s.mem d sz → t % 4 = 0 → t ≤ 4096 →
    (∀ a ∈ argv, a.length + 1 < 0x80000000) → ptrs.length + argv.length ≤ maxarg → HitsGap sz t argv →
    pushArgs d (sz - t) ptrs argv s = .error .nullPte := by
  induction argv with
  | nil =>
    rintro s t ptrs - - - - - - ⟨t',h,-⟩
    cases h
  | cons a rest ih =>
    intro s t ptrs h hst ht hts hlen hfew hgap
    rw [List.length_cons] at hfew
    have ha := hlen a (by simp)
    have hlow := hst.low
    rw [pushArgs, if_neg (by omega)]
    rcases (hitsGap_cons hlow).mp hgap with ⟨h1,h2⟩ | ⟨hfit,hrest⟩
    · rw [bind_error (push_string_gap hst ht hts ha h1 h2)]
    · obtain ⟨r1,s1,hrun1,h1,-,hmap1,-,hr1⟩ := push_string h hst ht hts ha (by omega)
      have hsp := pushSp_eq (a := a) hst.aligned ht (by omega) hst.lt ha
      rw [if_pos (by omega)] at hsp
      obtain rfl : r1 = true := hr1.mpr hfit
      rw [bind_ok hrun1, if_pos rfl, hsp]
      exact ih s1 (t + padded a) _ h1 (hst.congr hmap1) (by unfold padded; omega) hfit
        (fun b hb => hlen b (by simp [hb])) (by simp only [List.length_append, List.length_cons, List.length_nil]; omega) hrest

end Push
end Vm
end X86OsDev.Xv6
