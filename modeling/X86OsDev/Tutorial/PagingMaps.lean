import X86OsDev.Tutorial.HeapCut
import X86OsDev.Tutorial.Paging

/-! # What expand does to the page tables

The directories and the page tables lie in memory that was handed out. The loop of
`expand` gives frames to pages of the kernel directory: nothing else changes, as
long as these pages have tables. Where one has none the loop comes back to `alloc`
with the heap that it started from.
-/
namespace X86OsDev.Tutorial.Paging
open Memory
open Frames (Bits allocFrame)

/-! ## Page entries as words -/

theorem wordOf_testBit (p : Page) (unused : ℕ) (i : ℕ) : (wordOf p unused).testBit i = decide (wordOf p unused / 2 ^ i % 2 = 1) := by
  rw [Nat.testBit_eq_decide_div_mod_eq]

/-- The fields read back as they were written. -/
theorem pageOf_wordOf (p : Page) {unused : ℕ} (hu : unused < 128) : pageOf (wordOf p unused) = p := by
  obtain ⟨present,rw,user,accessed,dirty,frame⟩ := p
  have hlow : ∀ b : Bool, b.toNat < 2 := Bool.toNat_lt
  have hbit : ∀ b : Bool, decide (b.toNat = 1) = b := by decide
  have h0 := hlow present
  have h1 := hlow rw
  have h2 := hlow user
  have h3 := hlow accessed
  have h4 := hlow dirty
  have hf := frame.isLt
  unfold pageOf
  simp only [wordOf_testBit]
  unfold wordOf
  dsimp only
  congr 1
  · refine (decide_eq_decide.mpr ?_).trans (hbit present)
    omega
  · refine (decide_eq_decide.mpr ?_).trans (hbit rw)
    omega
  · refine (decide_eq_decide.mpr ?_).trans (hbit user)
    omega
  · refine (decide_eq_decide.mpr ?_).trans (hbit accessed)
    omega
  · refine (decide_eq_decide.mpr ?_).trans (hbit dirty)
    omega
  · apply BitVec.eq_of_toNat_eq
    rw [BitVec.toNat_ofNat]
    omega

theorem wordOf_lt (p : Page) {unused : ℕ} (hu : unused < 128) : wordOf p unused < 2 ^ 32 := by
  have h0 := Bool.toNat_lt p.present
  have h1 := Bool.toNat_lt p.rw
  have h2 := Bool.toNat_lt p.user
  have h3 := Bool.toNat_lt p.accessed
  have h4 := Bool.toNat_lt p.dirty
  have hf := p.frame.isLt
  unfold wordOf
  omega

namespace Kernel
variable {s t u : Kernel} {dirs : List ℕ} {live : List (ℕ × ℕ)}

theorem page_congr {q : ℕ} (h : SameOn t.heap.mem s.heap.mem q 4) : t.page q = s.page q :=
  congrArg pageOf (load32_congr h)

/-! ## One entry -/

section Entry
variable (s) (q : ℕ) (k w : ℤ)

theorem allocFrameAt_of_frame (h : (s.page q).frame ≠ 0) : s.allocFrameAt q k w = s := if_pos h

/-- `alloc_frame` changes the entry and the bits of the frames. -/
theorem allocFrameAt_eq : ∃ m frames, s.allocFrameAt q k w = { s with heap.mem := m, frames := frames } ∧
    ChangedIn s.heap.mem m q 4 := by
  unfold allocFrameAt
  split
  · exact ⟨s.heap.mem,s.frames,rfl,.refl _ _ _⟩
  · exact ⟨_,_,rfl,store32_changedIn _ _ _⟩

theorem allocFrameAt_present (h : (s.page q).frame = 0) : ((s.allocFrameAt q k w).page q).present = true := by
  have hu : unusedOf (load32 s.heap.mem q) < 128 := Nat.mod_lt _ (by decide)
  unfold allocFrameAt
  rw [if_neg (not_not.mpr h)]
  unfold page
  dsimp only
  rw [load32_store32, Nat.mod_eq_of_lt (wordOf_lt _ hu), pageOf_wordOf _ hu]
  change ((allocFrame s.frames s.nframes (s.page q) k w s.junk).2).present = true
  unfold allocFrame
  rw [if_neg (not_not.mpr h)]

end Entry

/-! ## Kernels between two calls -/

/-- A byte that was handed out: below the placement address or in a block of the heap in use. -/
def Owns (s : Kernel) (live : List (ℕ × ℕ)) (x : ℕ) : Prop :=
  x < s.placementAddress ∨ (s.kheap = true ∧ InUse live x)

def Owned (s : Kernel) (live : List (ℕ × ℕ)) (a n : ℕ) : Prop := ∀ x, a ≤ x → x < a + n → s.Owns live x

/-- The directories and their page tables are handed out, each of the two apart from all the others but for
tables that directories share, and a page of the kernel directory that has a frame is present. -/
structure Sane (s : Kernel) (dirs : List ℕ) (live : List (ℕ × ℕ)) : Prop where
  placement : s.placementAddress ≤ 0xC0000000
  heap : s.kheap = true → Ready s.heap live
  kernel : s.kernelDirectory ∈ dirs
  owned : ∀ d ∈ dirs, s.Owned live d 0x2004
  apart : ∀ d ∈ dirs, ∀ e ∈ dirs, d = e ∨ Apart d 0x2004 e 0x2004
  table : ∀ d ∈ dirs, ∀ i < 1024, s.tables d i ≠ 0 → s.Owned live (s.tables d i) 0x1000
  clear : ∀ d ∈ dirs, ∀ i < 1024, s.tables d i ≠ 0 → ∀ e ∈ dirs, Apart (s.tables d i) 0x1000 e 0x2004
  tables : ∀ d ∈ dirs, ∀ i < 1024, s.tables d i ≠ 0 → ∀ e ∈ dirs, ∀ j < 1024, s.tables e j ≠ 0 →
    s.tables d i = s.tables e j ∨ Apart (s.tables d i) 0x1000 (s.tables e j) 0x1000
  distinct : ∀ d ∈ dirs, ∀ i < 1024, ∀ j < 1024, s.tables d i ≠ 0 → s.tables d i = s.tables d j → i = j
  present : ∀ i < 1024, s.tables s.kernelDirectory i ≠ 0 → ∀ j < 1024,
    (s.page (s.tables s.kernelDirectory i + 4 * j)).frame ≠ 0 → (s.page (s.tables s.kernelDirectory i + 4 * j)).present = true

/-- An entry of a page table of the directory. -/
def IsEntry (s : Kernel) (d q : ℕ) : Prop := ∃ i < 1024, ∃ j < 1024, s.tables d i ≠ 0 ∧ q = s.tables d i + 4 * j

theorem Owned.apart {a n b k : ℕ} (h : s.Owned live a n) (hfree : ∀ x, b ≤ x → x < b + k → ¬ s.Owns live x) (hn : 0 < n)
    (hk : 0 < k) : Apart a n b k := by
  unfold Apart
  by_contra hne
  exact hfree (max a b) (by omega) (by omega) (h (max a b) (by omega) (by omega))

theorem findPage_eq (s : Kernel) (a d : ℕ) : s.findPage a d =
    if s.tables d (a / 0x1000 / 1024) ≠ 0 then some (s.tables d (a / 0x1000 / 1024) + 4 * (a / 0x1000 % 1024)) else none := rfl

theorem findPage_eq_none {a d : ℕ} : s.findPage a d = none ↔ s.tables d (a / 0x1000 / 1024) = 0 := by
  rw [findPage_eq]
  split <;> simp_all

theorem findPage_eq_some {a d q : ℕ} : s.findPage a d = some q ↔ s.tables d (a / 0x1000 / 1024) ≠ 0 ∧
    q = s.tables d (a / 0x1000 / 1024) + 4 * (a / 0x1000 % 1024) := by
  rw [findPage_eq]
  split <;> simp_all [eq_comm]

theorem isEntry_of_findPage {a d q : ℕ} (ha : a < 2 ^ 32) (h : s.findPage a d = some q) : s.IsEntry d q := by
  obtain ⟨h1,h2⟩ := findPage_eq_some.mp h
  exact ⟨_,by omega,_,Nat.mod_lt _ (by decide),h1,h2⟩

section Sane
variable {d e q r : ℕ}

theorem Sane.entry_owned (h : Sane s dirs live) (hd : d ∈ dirs) (hq : s.IsEntry d q) : s.Owned live q 4 := by
  obtain ⟨i,hi,j,hj,hne,rfl⟩ := hq
  exact fun x h1 h2 => h.table d hd i hi hne x (by omega) (by omega)

theorem Sane.entry_clear (h : Sane s dirs live) (hd : d ∈ dirs) (hq : s.IsEntry d q) (he : e ∈ dirs) : Apart q 4 e 0x2004 := by
  obtain ⟨i,hi,j,hj,hne,rfl⟩ := hq
  have := h.clear d hd i hi hne e he
  unfold Apart at this ⊢
  omega

theorem Sane.entry_eq_or_apart (h : Sane s dirs live) (hd : d ∈ dirs) (hq : s.IsEntry d q) (he : e ∈ dirs)
    (hr : s.IsEntry e r) : q = r ∨ Apart q 4 r 4 := by
  obtain ⟨i,hi,j,hj,hne,rfl⟩ := hq
  obtain ⟨i',hi',j',hj',hne',rfl⟩ := hr
  rcases h.tables d hd i hi hne e he i' hi' hne' with heq | hap
  · unfold Apart
    omega
  · unfold Apart at hap ⊢
    omega

theorem Sane.entry_present (h : Sane s dirs live) (hq : s.IsEntry s.kernelDirectory q) (hf : (s.page q).frame ≠ 0) :
    (s.page q).present = true := by
  obtain ⟨i,hi,j,hj,hne,rfl⟩ := hq
  exact h.present i hi hne j hj hf

theorem tables_congr (h : SameOn t.heap.mem s.heap.mem d 0x2004) {i : ℕ} (hi : i < 1024) : t.tables d i = s.tables d i :=
  load32_congr (h.mono (by omega) (by omega))

theorem findPage_congr (h : SameOn t.heap.mem s.heap.mem d 0x2004) {a : ℕ} (ha : a < 2 ^ 32) :
    t.findPage a d = s.findPage a d := by
  rw [findPage_eq, findPage_eq, tables_congr h (by omega)]

theorem IsEntry.congr (h : s.IsEntry d q) (hd : SameOn t.heap.mem s.heap.mem d 0x2004) : t.IsEntry d q := by
  obtain ⟨i,hi,j,hj,hne,rfl⟩ := h
  have heq := tables_congr hd hi
  exact ⟨i,hi,j,hj,heq.trans_ne hne,by rw [heq]⟩

/-- More may be handed out, as long as the directories stay as they are. -/
theorem Sane.transfer {live' : List (ℕ × ℕ)} (h : Sane s dirs live) (hplace : t.placementAddress ≤ 0xC0000000)
    (hheap : t.kheap = true → Ready t.heap live') (hkernel : t.kernelDirectory = s.kernelDirectory)
    (howns : ∀ x, s.Owns live x → t.Owns live' x) (hdirs : ∀ d ∈ dirs, SameOn t.heap.mem s.heap.mem d 0x2004)
    (hpresent : ∀ q, s.IsEntry s.kernelDirectory q → (t.page q).frame ≠ 0 → (t.page q).present = true) : Sane t dirs live' := by
  have htables : ∀ d ∈ dirs, ∀ i < 1024, t.tables d i = s.tables d i := fun d hd i hi => tables_congr (hdirs d hd) hi
  refine ⟨hplace,hheap,hkernel ▸ h.kernel,fun d hd x h1 h2 => howns x (h.owned d hd x h1 h2),h.apart,?_,?_,?_,?_,?_⟩
  · intro d hd i hi hne x h1 h2
    rw [htables d hd i hi] at hne h1 h2
    exact howns x (h.table d hd i hi hne x h1 h2)
  · intro d hd i hi
    rw [htables d hd i hi]
    exact h.clear d hd i hi
  · intro d hd i hi hne e he j hj
    rw [htables d hd i hi] at hne ⊢
    rw [htables e he j hj]
    exact h.tables d hd i hi hne e he j hj
  · intro d hd i hi j hj
    rw [htables d hd i hi, htables d hd j hj]
    exact h.distinct d hd i hi j hj
  · intro i hi hne j hj
    rw [hkernel, htables _ h.kernel i hi] at hne ⊢
    exact hpresent _ ⟨i,hi,j,hj,hne,rfl⟩

end Sane

/-! ## The loop of expand -/

/-- The kernel with its memory and the bits of its frames replaced. -/
def withMem (s : Kernel) (m : Mem) (frames : Bits) : Kernel := { s with heap.mem := m, frames := frames }

/-- The memory `m` is that of the kernel with frames for these pages of the kernel directory. -/
structure Mapped (s : Kernel) (l : List ℕ) (m : Mem) : Prop where
  entry : ∀ x, m x ≠ s.heap.mem x → ∃ p ∈ l, ∃ q, s.findPage p s.kernelDirectory = some q ∧ (s.page q).frame = 0 ∧
    q ≤ x ∧ x < q + 4
  present : ∀ p ∈ l, ∀ q, s.findPage p s.kernelDirectory = some q → (pageOf (load32 m q)).present = true

theorem Mapped.nil (s : Kernel) : Mapped s [] s.heap.mem := ⟨fun _ h => absurd rfl h,fun _ h => absurd h List.not_mem_nil⟩

section Mapped
variable {l : List ℕ} {m : Mem} {d q : ℕ}

/-- The entries that are other than before were without a frame. -/
theorem Mapped.word (h : Mapped s l m) (hs : Sane s dirs live) (hl : ∀ p ∈ l, p < 2 ^ 32) (hd : d ∈ dirs) (hq : s.IsEntry d q) :
    load32 m q = load32 s.heap.mem q ∨ ∃ p ∈ l, s.findPage p s.kernelDirectory = some q ∧ (s.page q).frame = 0 := by
  by_cases hsame : SameOn m s.heap.mem q 4
  · exact .inl (load32_congr hsame)
  · unfold SameOn at hsame
    push Not at hsame
    obtain ⟨x,h1,h2,hne⟩ := hsame
    obtain ⟨p,hp,r,hr,hf,h3,h4⟩ := h.entry x hne
    rcases hs.entry_eq_or_apart hd hq hs.kernel (isEntry_of_findPage (hl p hp) hr) with rfl | hap
    · exact .inr ⟨p,hp,hr,hf⟩
    · unfold Apart at hap
      omega

theorem Mapped.intact (h : Mapped s l m) (hs : Sane s dirs live) (hl : ∀ p ∈ l, p < 2 ^ 32) {x : ℕ} (hx : ¬ s.Owns live x) :
    m x = s.heap.mem x := by
  by_contra hne
  obtain ⟨p,hp,q,hq,-,h1,h2⟩ := h.entry x hne
  exact hx (hs.entry_owned hs.kernel (isEntry_of_findPage (hl p hp) hq) x h1 h2)

theorem Mapped.sameOn_dir (h : Mapped s l m) (hs : Sane s dirs live) (hl : ∀ p ∈ l, p < 2 ^ 32) (hd : d ∈ dirs) :
    SameOn m s.heap.mem d 0x2004 := by
  intro x h1 h2
  by_contra hne
  obtain ⟨p,hp,q,hq,-,h3,h4⟩ := h.entry x hne
  have := hs.entry_clear hs.kernel (isEntry_of_findPage (hl p hp) hq) hd
  unfold Apart at this
  omega

theorem Mapped.sane (h : Mapped s l m) (hs : Sane s dirs live) (hl : ∀ p ∈ l, p < 2 ^ 32) (frames : Bits) :
    Sane (s.withMem m frames) dirs live := by
  refine hs.transfer hs.placement (fun hk => (hs.heap hk).keep fun x h1 _ h2 => h.intact hs hl ?_) rfl (fun _ hx => hx)
    (fun d => h.sameOn_dir hs hl) fun q hq hf => ?_
  · rintro (h3 | ⟨-,h3⟩)
    · exact absurd (lt_of_lt_of_le h3 hs.placement) (not_lt.mpr h1)
    · exact h2 h3
  · rcases h.word hs hl hs.kernel hq with heq | ⟨p,hp,hfind,-⟩
    · have hpage : (s.withMem m frames).page q = s.page q := congrArg pageOf heq
      rw [hpage] at hf ⊢
      exact hs.entry_present hq hf
    · exact h.present p hp q hfind

/-- A page that was present still is. -/
theorem Mapped.keeps_present (h : Mapped s l m) (hs : Sane s dirs live) (hl : ∀ p ∈ l, p < 2 ^ 32)
    (hq : s.IsEntry s.kernelDirectory q) (hp : (s.page q).present = true) : (pageOf (load32 m q)).present = true := by
  rcases h.word hs hl hs.kernel hq with heq | ⟨p,hmem,hfind,-⟩
  · rwa [heq]
  · exact h.present p hmem q hfind

/-- A round of the loop for a page that has a table. -/
theorem Mapped.step (h : Mapped s l m) (hs : Sane s dirs live) (hl : ∀ p ∈ l, p < 2 ^ 32) {p : ℕ} (hp : p < 2 ^ 32)
    (hq : s.findPage p s.kernelDirectory = some q) (frames : Bits) (k w : ℤ) :
    ∃ m' frames', (s.withMem m frames).allocFrameAt q k w = s.withMem m' frames' ∧ Mapped s (l ++ [p]) m' := by
  have hentry := isEntry_of_findPage hp hq
  have hmem : ∀ {r}, r ∈ l ++ [p] ↔ r ∈ l ∨ r = p := by simp
  by_cases hf : ((s.withMem m frames).page q).frame = 0
  · obtain ⟨m',frames',heq,hchg⟩ := allocFrameAt_eq (s.withMem m frames) q k w
    have hpresent := allocFrameAt_present (s.withMem m frames) q k w hf
    rw [heq] at hpresent
    refine ⟨m',frames',heq,fun x hx => ?_,fun r hr q' hq' => ?_⟩
    · by_cases hin : q ≤ x ∧ x < q + 4
      · -- the entry had no frame before the loop either
        rcases h.word hs hl hs.kernel hentry with hsame | ⟨r,hr,hfind,h0⟩
        · refine ⟨p,hmem.mpr (.inr rfl),q,hq,?_,hin⟩
          unfold page at hf ⊢
          rwa [← hsame]
        · exact ⟨r,hmem.mpr (.inl hr),q,hfind,h0,hin⟩
      · have hback : m' x = m x := hchg x hin
        obtain ⟨r,hr,h1⟩ := h.entry x (by rwa [← hback])
        exact ⟨r,hmem.mpr (.inl hr),h1⟩
    · have hentry' : s.IsEntry s.kernelDirectory q' := by
        refine isEntry_of_findPage ?_ hq'
        rcases hmem.mp hr with hr | rfl
        · exact hl r hr
        · exact hp
      rcases hs.entry_eq_or_apart hs.kernel hentry hs.kernel hentry' with rfl | hap
      · exact hpresent
      · rcases hmem.mp hr with hr | rfl
        · rw [load32_congr (hchg.sameOn hap)]
          exact h.present r hr q' hq'
        · rw [hq] at hq'
          cases hq'
          unfold Apart at hap
          omega
  · refine ⟨m,frames,allocFrameAt_of_frame _ _ _ _ hf,fun x hx => ?_,fun r hr q' hq' => ?_⟩
    · obtain ⟨r,hr,h1⟩ := h.entry x hx
      exact ⟨r,hmem.mpr (.inl hr),h1⟩
    · rcases hmem.mp hr with hr | rfl
      · exact h.present r hr q' hq'
      · rw [hq] at hq'
        cases hq'
        exact (h.sane hs hl frames).entry_present (hentry.congr (h.sameOn_dir hs hl hs.kernel)) hf

end Mapped

/-- A round of `expand` on a page that has a table. -/
theorem expandPage_eq (alloc : Alloc) {p q : ℕ} (h : s.findPage p s.kernelDirectory = some q) : expandPage alloc s p =
    some (s.allocFrameAt q (if s.supervisor ≠ 0 then 1 else 0) (if s.readonly ≠ 0 then 0 else 1)) := by
  unfold expandPage getPage
  rw [h]
  rfl

/-- On a page that has none it fails where `alloc` does. -/
theorem expandPage_eq_none {alloc : Alloc} {p : ℕ} (hk : s.kheap = true) (h : s.findPage p s.kernelDirectory = none)
    (hno : alloc 0x1000 true s = none) : expandPage alloc s p = none := by
  unfold expandPage getPage kmallocAp kmallocInt
  rw [h, if_pos hk, hno]
  rfl

section Loop
variable {alloc : Alloc} {l l' : List ℕ} {m : Mem} {frames : Bits}

theorem Mapped.expand (alloc : Alloc) (frames : Bits) (hs : Sane s dirs live) (hM : Mapped s l m) (hl : ∀ p ∈ l ++ l', p < 2 ^ 32)
    (htables : ∀ p ∈ l', s.findPage p s.kernelDirectory ≠ none) :
    ∃ m' frames', l'.foldlM (expandPage alloc) (s.withMem m frames) = some (s.withMem m' frames') ∧ Mapped s (l ++ l') m' := by
  induction l' generalizing l m frames with
  | nil => exact ⟨m,frames,rfl,by rwa [List.append_nil]⟩
  | cons p l' ih =>
    have hl1 : ∀ r ∈ l, r < 2 ^ 32 := fun r hr => hl r (List.mem_append_left _ hr)
    have hp : p < 2 ^ 32 := hl p (by simp)
    obtain ⟨q,hq⟩ := Option.ne_none_iff_exists'.mp (htables p List.mem_cons_self)
    have hq' : (s.withMem m frames).findPage p s.kernelDirectory = some q :=
      (findPage_congr (t := s.withMem m frames) (hM.sameOn_dir hs hl1 hs.kernel) hp).trans hq
    obtain ⟨m',frames',heq,hM'⟩ := hM.step hs hl1 hp hq frames (if s.supervisor ≠ 0 then 1 else 0)
      (if s.readonly ≠ 0 then 0 else 1)
    have hassoc : l ++ [p] ++ l' = l ++ p :: l' := by simp
    obtain ⟨m2,frames2,hfold,hM2⟩ := ih frames' hM' (by rwa [hassoc]) fun r hr => htables r (List.mem_cons_of_mem _ hr)
    refine ⟨m2,frames2,?_,by rwa [← hassoc]⟩
    rw [List.foldlM_cons, expandPage_eq alloc (s := s.withMem m frames) hq']
    exact (congrArg (fun u => l'.foldlM (expandPage alloc) u) heq).trans hfold

/-- Where a page has no table, the loop calls `alloc` on a heap that is as it was. -/
theorem Mapped.expand_eq_none (hs : Sane s dirs live) (hk : s.kheap = true) (hM : Mapped s l m)
    (hl : ∀ p ∈ l ++ l', p < 2 ^ 32) (hmissing : ∃ p ∈ l', s.findPage p s.kernelDirectory = none)
    (hno : ∀ l m frames, (∀ p ∈ l, p < 2 ^ 32) → Mapped s l m → alloc 0x1000 true (s.withMem m frames) = none) :
    l'.foldlM (expandPage alloc) (s.withMem m frames) = none := by
  induction l' generalizing l m frames with
  | nil =>
    obtain ⟨p,hp,-⟩ := hmissing
    exact absurd hp List.not_mem_nil
  | cons p l' ih =>
    have hl1 : ∀ r ∈ l, r < 2 ^ 32 := fun r hr => hl r (List.mem_append_left _ hr)
    have hp : p < 2 ^ 32 := hl p (by simp)
    have hsame : (s.withMem m frames).findPage p s.kernelDirectory = s.findPage p s.kernelDirectory :=
      findPage_congr (t := s.withMem m frames) (hM.sameOn_dir hs hl1 hs.kernel) hp
    rw [List.foldlM_cons]
    cases hq : s.findPage p s.kernelDirectory with
    | none =>
      rw [expandPage_eq_none (s := s.withMem m frames) hk (hsame.trans hq) (hno l m frames hl1 hM)]
      rfl
    | some q =>
      obtain ⟨m',frames',heq,hM'⟩ := hM.step hs hl1 hp hq frames (if s.supervisor ≠ 0 then 1 else 0)
        (if s.readonly ≠ 0 then 0 else 1)
      have hassoc : l ++ [p] ++ l' = l ++ p :: l' := by simp
      have hrest : ∃ r ∈ l', s.findPage r s.kernelDirectory = none := by
        obtain ⟨r,hr,hnone⟩ := hmissing
        rcases List.mem_cons.mp hr with rfl | hr
        · rw [hq] at hnone
          cases hnone
        · exact ⟨r,hr,hnone⟩
      rw [expandPage_eq alloc (s := s.withMem m frames) (hsame.trans hq)]
      exact (congrArg (fun u => l'.foldlM (expandPage alloc) u) heq).trans (ih hM' (by rwa [hassoc]) hrest)

end Loop

end Kernel
end X86OsDev.Tutorial.Paging
