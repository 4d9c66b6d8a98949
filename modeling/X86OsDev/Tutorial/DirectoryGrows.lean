import X86OsDev.Tutorial.Directories

/-! # What allocations do to page directories

Whatever an operation allocates, expands and clears on its way, the directories
in use keep their tables of the heap, and the kernel's may get more of them.
-/
namespace X86OsDev.Tutorial.Directories
open Memory Transition
open Frames (Bits allocFrame freeFrame copyFlags)

variable {s t u : Sys} {a d i n size address : ℕ}

/-- Both pointers to a table. -/
def entry (s : Sys) (d i : ℕ) : ℕ × ℕ := ((s.dir d).tables i,(s.dir d).tablesPhysical i)

/-- The tables that the heap can span. -/
def InHeap (i : ℕ) : Prop := 768 ≤ i ∧ i < 832

/-- The kernel directory was placed below the heap, and all blocks are in it. -/
structure Well (s : Sys) : Prop where
  kheap : s.kheap = true
  start : s.startAddress = 0xC0080000
  kernel : s.kernelDirectory + directorySize ≤ s.startAddress
  live : ∀ b ∈ s.live, s.startAddress ≤ b.1
  data : ∀ a ∈ s.data, ∃ size, (a,size) ∈ s.live

/-- What the calls of an operation do to the directories: those in use keep the tables of the heap,
and the kernel's may get more of them. -/
structure Grows (s t : Sys) : Prop where
  kernelDirectory : t.kernelDirectory = s.kernelDirectory
  currentDirectory : t.currentDirectory = s.currentDirectory
  tasks : t.tasks = s.tasks
  data : t.data = s.data
  live : ∀ b ∈ s.live, b ∈ t.live
  dirs : ∀ d, (d,directorySize) ∈ s.live → d % 0x1000 = 0 → ∀ i, InHeap i →
    entry t d i = entry s d i
  kernel : ∀ i, InHeap i → (s.dir s.kernelDirectory).tables i ≠ 0 →
    entry t s.kernelDirectory i = entry s s.kernelDirectory i

theorem Grows.refl (s : Sys) : Grows s s :=
  ⟨rfl,rfl,rfl,rfl,fun _ h => h,fun _ _ _ _ _ => rfl,fun _ _ _ => rfl⟩

theorem Grows.trans (h : Grows s t) (h' : Grows t u) : Grows s u := by
  refine ⟨h'.kernelDirectory.trans h.kernelDirectory,h'.currentDirectory.trans h.currentDirectory,
    h'.tasks.trans h.tasks,h'.data.trans h.data,fun b hb => h'.live b (h.live b hb),?_,?_⟩
  · intro d hd ha i hi
    exact (h'.dirs d (h.live _ hd) ha i hi).trans (h.dirs d hd ha i hi)
  · intro i hi hne
    have h1 := h.kernel i hi hne
    have h2 := h'.kernel i hi
    rw [h.kernelDirectory] at h2
    refine (h2 ?_).trans h1
    rw [show (t.dir s.kernelDirectory).tables i = (s.dir s.kernelDirectory).tables i from
      congrArg Prod.fst h1]
    exact hne

/-- A state and its successor, when the first is well formed. -/
def Good (s t : Sys) : Prop := Well t ∧ Grows s t

theorem Good.trans (h : Good s t) (h' : Good t u) : Good s u := ⟨h'.1,h.2.trans h'.2⟩

/-- Frames, page entries, holes and bounds of the heap play no part. -/
theorem Good.congr (h : Good s t) (hk : u.kheap = t.kheap) (hs : u.startAddress = t.startAddress)
    (hkd : u.kernelDirectory = t.kernelDirectory) (hcd : u.currentDirectory = t.currentDirectory)
    (ht : u.tasks = t.tasks) (hd : u.data = t.data) (hl : u.live = t.live)
    (hdir : u.dir = t.dir) : Good s u := by
  obtain ⟨hW,hG⟩ := h
  have he : ∀ d i, entry u d i = entry t d i := by
    intro d i
    unfold entry
    rw [hdir]
  refine ⟨⟨?_,?_,?_,?_,?_⟩,⟨?_,?_,?_,?_,?_,?_,?_⟩⟩
  · rw [hk, hW.kheap]
  · rw [hs, hW.start]
  · rw [hkd, hs]
    exact hW.kernel
  · rw [hl, hs]
    exact hW.live
  · rw [hd, hl]
    exact hW.data
  · rw [hkd, hG.kernelDirectory]
  · rw [hcd, hG.currentDirectory]
  · rw [ht, hG.tasks]
  · rw [hd, hG.data]
  · rw [hl]
    exact hG.live
  · intro d hd ha i hi
    rw [he]
    exact hG.dirs d hd ha i hi
  · intro i hi hne
    rw [he]
    exact hG.kernel i hi hne

theorem Good.setPage (h : Good s t) (p : ℕ × ℕ) (r : Bits × Page) : Good s (setPage t p r) :=
  h.congr rfl rfl rfl rfl rfl rfl rfl rfl

/-- A block as `alloc` hands it out. -/
structure Block (s : Sys) (a size : ℕ) (t : Sys) : Prop where
  live : (a,size) ∈ t.live
  low : s.startAddress ≤ a
  apart : ∀ b ∈ s.live, a + size + 20 ≤ b.1 ∨ b.1 + b.2 + 20 ≤ a

/-- What every function that may allocate relies on. -/
def Sound (alloc : Alloc) : Prop := ∀ size align s a t, Well s → alloc size align s = some (a,t) →
  Good s t ∧ Block s a size t ∧ (align = true → a % 0x1000 = 0)

/-- Clearing a page aligned block, even 4100 bytes past its end, leaves the heap's tables in every
other directory: the next aligned block starts two pages further on, and only its first word is
cleared. -/
theorem Good.memset (h : Good s t) (hs : Well s) (hB : Block s a size t) (ha : a % 0x1000 = 0)
    (hsize : tableSize ≤ size) (hn : n ≤ directorySize) : Good s (memset t a n) := by
  obtain ⟨hW,hG⟩ := h
  have hsame : ∀ d, (a + 0x2000 ≤ d ∨ d + directorySize ≤ a) → ∀ i, InHeap i →
      entry (Directories.memset t a n) d i = entry t d i := by
    intro d hd i hi
    unfold InHeap at hi
    unfold directorySize at hd hn
    have h1 : ¬ (a ≤ d + 4 * i ∧ d + 4 * i < a + n) := by omega
    have h2 : ¬ (a ≤ d + 0x1000 + 4 * i ∧ d + 0x1000 + 4 * i < a + n) := by omega
    simp only [entry, Directories.memset, if_neg h1, if_neg h2]
  refine ⟨⟨hW.kheap,hW.start,hW.kernel,hW.live,hW.data⟩,
    ⟨hG.kernelDirectory,hG.currentDirectory,hG.tasks,hG.data,hG.live,?_,?_⟩⟩
  · intro d hd hda i hi
    rw [hsame d ?_ i hi]
    · exact hG.dirs d hd hda i hi
    · have := hB.apart _ hd
      unfold tableSize at hsize
      simp only at this
      omega
  · intro i hi hne
    rw [hsame _ ?_ i hi]
    · exact hG.kernel i hi hne
    · have := hs.kernel
      have := hB.low
      omega

/-- A store into a directory, where no entry of the heap is lost. -/
theorem Good.setEntry (h : Good s t) (tables physical : ℕ → ℕ) (phys : ℕ)
    (hfree : InHeap i → (d,directorySize) ∉ s.live)
    (hnew : InHeap i → d = s.kernelDirectory → (s.dir d).tables i = 0)
    (ht : ∀ j ≠ i, tables j = (t.dir d).tables j)
    (hp : ∀ j ≠ i, physical j = (t.dir d).tablesPhysical j) :
    Good s { t with dir := Function.update t.dir d ⟨tables,physical,phys⟩ } := by
  obtain ⟨hW,hG⟩ := h
  have hsame : ∀ e j, (e = d → j ≠ i) →
      entry { t with dir := Function.update t.dir d ⟨tables,physical,phys⟩ } e j = entry t e j := by
    intro e j hej
    unfold entry
    by_cases he : e = d
    · subst he
      simp only [Function.update_self]
      rw [ht j (hej rfl), hp j (hej rfl)]
    · simp only [Function.update_of_ne he]
  refine ⟨⟨hW.kheap,hW.start,hW.kernel,hW.live,hW.data⟩,
    ⟨hG.kernelDirectory,hG.currentDirectory,hG.tasks,hG.data,hG.live,?_,?_⟩⟩
  · intro e he hea j hj
    rw [hsame e j]
    · exact hG.dirs e he hea j hj
    · rintro rfl rfl
      exact hfree hj he
  · intro j hj hne
    rw [hsame _ j]
    · exact hG.kernel j hj hne
    · rintro rfl rfl
      exact hne (hnew hj rfl)

theorem Good.setTable (h : Good s t) (hfree : InHeap i → (d,directorySize) ∉ s.live)
    (hnew : InHeap i → d = s.kernelDirectory → (s.dir d).tables i = 0) (v : ℕ) :
    Good s (setTable t d i v) :=
  h.setEntry _ _ _ hfree hnew (fun _ hj => Function.update_of_ne hj ..) (fun _ _ => rfl)

theorem Good.setPhysical (h : Good s t) (hfree : InHeap i → (d,directorySize) ∉ s.live)
    (hnew : InHeap i → d = s.kernelDirectory → (s.dir d).tables i = 0) (v : ℕ) :
    Good s (setPhysical t d i v) :=
  h.setEntry _ _ _ hfree hnew (fun _ _ => rfl) (fun _ hj => Function.update_of_ne hj ..)

theorem Good.setPhysicalAddr (h : Good s t) (d v : ℕ) : Good s (setPhysicalAddr t d v) :=
  h.setEntry (i := 0) _ _ _ (fun hi => absurd hi.1 (by decide))
    (fun hi => absurd hi.1 (by decide)) (fun _ _ => rfl) (fun _ _ => rfl)

theorem Well.kernel_not_live (h : Well s) (size : ℕ) : (s.kernelDirectory,size) ∉ s.live := by
  intro hm
  have h1 := h.live _ hm
  have h2 := h.kernel
  unfold directorySize at h2
  simp only at h1
  omega

theorem Block.not_live (h : Block s a size t) (n : ℕ) : (a,n) ∉ s.live := by
  intro hm
  have := h.apart _ hm
  simp only at this
  omega

/-! ## Every operation grows -/

section Operations
variable {alloc : Alloc}

theorem kmallocInt_good (hA : Sound alloc) (hs : Well s) {align : Bool}
    (h : kmallocInt alloc size align s = some (a,t)) :
    Good s t ∧ Block s a size t ∧ (align = true → a % 0x1000 = 0) := by
  rw [kmallocInt, if_pos hs.kheap] at h
  exact hA size align s a t hs h

theorem kmallocAp_good (hA : Sound alloc) (hs : Well s) {phys : ℕ}
    (h : kmallocAp alloc size s = some (a,phys,t)) :
    Good s t ∧ Block s a size t ∧ a % 0x1000 = 0 := by
  unfold kmallocAp at h
  rw [Option.bind_eq_bind, Option.bind_eq_some_iff] at h
  obtain ⟨⟨b,u⟩,hr,h⟩ := h
  rw [if_pos hs.kheap, Option.bind_eq_bind, Option.bind_eq_some_iff] at h
  obtain ⟨p,-,h⟩ := h
  simp only [Option.some_inj, Prod.mk.injEq] at h
  obtain ⟨rfl,-,rfl⟩ := h
  obtain ⟨hG,hB,ha⟩ := kmallocInt_good hA hs hr
  exact ⟨hG,hB,ha rfl⟩

/-- `get_page` on the kernel directory, or on another one away from the heap. -/
theorem getPage_good (hA : Sound alloc) (hs : Well s)
    (hd : d = s.kernelDirectory ∨ ¬ InHeap (address / 0x1000 / 1024)) {p : ℕ × ℕ}
    (h : getPage alloc address d s = some (p,t)) : Good s t := by
  unfold getPage at h
  cases hf : findPage s address d with
  | some q =>
    rw [hf] at h
    cases h
    exact ⟨hs,.refl s⟩
  | none =>
    rw [hf] at h
    dsimp only at h
    rw [Option.bind_eq_bind, Option.bind_eq_some_iff] at h
    obtain ⟨⟨a,phys,u⟩,hr,h⟩ := h
    simp only [Option.some_inj, Prod.mk.injEq] at h
    obtain ⟨-,rfl⟩ := h
    obtain ⟨hG,hB,ha⟩ := kmallocAp_good hA hs hr
    have hzero : (s.dir d).tables (address / 0x1000 / 1024) = 0 := by
      by_contra hne
      simp [findPage, hne] at hf
    have hfree : InHeap (address / 0x1000 / 1024) → (d,directorySize) ∉ s.live := by
      rcases hd with rfl | hd
      · exact fun _ => hs.kernel_not_live _
      · exact fun hi => absurd hi hd
    have hset := hG.setTable hfree (fun _ _ => hzero) a
    have hB' : Block s a tableSize (setTable u d (address / 0x1000 / 1024) a) :=
      ⟨hB.live,hB.low,hB.apart⟩
    exact (hset.memset hs hB' ha le_rfl (by decide)).setPhysical hfree (fun _ _ => hzero) _

theorem allocPage_good (hA : Sound alloc) (hs : Well s) {k w : ℤ}
    (hd : d = s.kernelDirectory ∨ ¬ InHeap (address / 0x1000 / 1024))
    (h : allocPage alloc k w d s address = some t) : Good s t := by
  unfold allocPage at h
  rw [Option.bind_eq_bind, Option.bind_eq_some_iff] at h
  obtain ⟨⟨p,u⟩,hr,h⟩ := h
  cases h
  exact (getPage_good hA hs hd hr).setPage ..

theorem expandFrom_good (hA : Sound alloc) {newSize : ℕ} (n i : ℕ) (hs : Well s)
    (h : expandFrom alloc newSize n i s = some t) : Good s t := by
  induction n generalizing i s with
  | zero => cases h
  | succ n ih =>
    unfold expandFrom at h
    by_cases hi : i < newSize
    · rw [if_pos hi, Option.bind_eq_bind, Option.bind_eq_some_iff] at h
      obtain ⟨u,hu,h⟩ := h
      have hG := allocPage_good hA hs (.inl rfl) hu
      exact hG.trans (ih _ hG.1 h)
    · rw [if_neg hi] at h
      exact Option.some_inj.mp h ▸ ⟨hs,.refl s⟩

theorem expand_good (hA : Sound alloc) {newSize : ℕ} (hs : Well s)
    (h : expand alloc newSize s = some t) : Good s t := by
  unfold expand at h
  dsimp only at h
  split_ifs at h
  all_goals
    rw [Option.bind_eq_bind, Option.bind_eq_some_iff] at h
    obtain ⟨u,hu,h⟩ := h
    cases h
    exact (expandFrom_good hA _ _ hs hu).congr rfl rfl rfl rfl rfl rfl rfl rfl

/-- The allocator keeps to what the functions it calls rely on. -/
theorem alloc_sound (n : ℕ) : Sound (Directories.alloc n) := by
  induction n with
  | zero =>
    intro size align s a t _ h
    cases h
  | succ n ih =>
    intro size align s a t hs h
    unfold Directories.alloc at h
    cases hh : s.holes with
    | nil =>
      rw [hh] at h
      cases h
    | cons hole holes =>
      rw [hh] at h
      cases hole with
      | some b =>
        dsimp only at h
        by_cases hf : Fresh s b size align
        · rw [if_pos hf] at h
          cases h
          obtain ⟨h1,-,h3,h4⟩ := hf
          unfold headerSize at h1
          refine ⟨⟨⟨hs.kheap,hs.start,hs.kernel,?_,?_⟩,⟨rfl,rfl,rfl,rfl,?_,fun _ _ _ _ _ => rfl,
            fun _ _ _ => rfl⟩⟩,⟨List.mem_cons_self,by omega,h4⟩,h3⟩
          · intro c hc
            rcases List.mem_cons.mp hc with rfl | hc
            · show s.startAddress ≤ _
              omega
            · exact hs.live c hc
          · intro c hc
            obtain ⟨m,hm⟩ := hs.data c hc
            exact ⟨m,List.mem_cons_of_mem _ hm⟩
          · exact fun c hc => List.mem_cons_of_mem _ hc
        · rw [if_neg hf] at h
          cases h
      | none =>
        dsimp only at h
        rw [Option.bind_eq_bind, Option.bind_eq_some_iff] at h
        obtain ⟨u,hu,h⟩ := h
        have hs' : Good s { s with holes := holes } :=
          Good.congr ⟨hs,.refl s⟩ rfl rfl rfl rfl rfl rfl rfl rfl
        have hG := hs'.trans (expand_good ih hs'.1 hu)
        obtain ⟨hG',hB,ha⟩ := ih size align u a t hG.1 h
        have hstart : u.startAddress = s.startAddress := hG.1.start.trans hs.start.symm
        exact ⟨hG.trans hG',⟨hB.live,hstart ▸ hB.low,fun b hb => hB.apart b (hG.2.live b hb)⟩,ha⟩

theorem contractFrom_good {newSize : ℕ} (n i : ℕ) (hs : Well s)
    (h : contractFrom newSize n i s = some t) : Good s t := by
  induction n generalizing i s with
  | zero => cases h
  | succ n ih =>
    unfold contractFrom at h
    by_cases hi : newSize < i
    · rw [if_pos hi, Option.bind_eq_bind, Option.bind_eq_some_iff] at h
      obtain ⟨p,-,h⟩ := h
      have hG : Good s (freeFrameAt s p) := Good.setPage ⟨hs,.refl s⟩ ..
      exact hG.trans (ih _ hG.1 h)
    · rw [if_neg hi] at h
      exact Option.some_inj.mp h ▸ ⟨hs,.refl s⟩

theorem contract_good {newSize : ℕ} (hs : Well s) (h : contract newSize s = some t) :
    Good s t := by
  unfold contract at h
  dsimp only at h
  split_ifs at h
  all_goals
    rw [Option.bind_eq_bind, Option.bind_eq_some_iff] at h
    obtain ⟨u,hu,h⟩ := h
    cases h
    exact (contractFrom_good _ _ hs hu).congr rfl rfl rfl rfl rfl rfl rfl rfl

theorem cloneTable_good (hA : Sound alloc) (hs : Well s) {src phys : ℕ}
    (h : cloneTable alloc src s = some (a,phys,t)) : Good s t := by
  unfold cloneTable at h
  rw [Option.bind_eq_bind, Option.bind_eq_some_iff] at h
  obtain ⟨⟨b,phys',u⟩,hr,h⟩ := h
  simp only [Option.some_inj, Prod.mk.injEq] at h
  obtain ⟨rfl,-,rfl⟩ := h
  obtain ⟨hG,hB,ha⟩ := kmallocAp_good hA hs hr
  have hclear := hG.memset hs hB ha le_rfl le_rfl
  -- the copied entries are page entries
  have hloop : ∀ (l : List ℕ) v, Good s v → Good s (l.foldl (clonePage src b) v) := by
    intro l
    induction l with
    | nil => exact fun _ hv => hv
    | cons i l ih =>
      intro v hv
      apply ih
      unfold clonePage
      split_ifs
      · exact hv
      · exact hv.setPage ..
  exact hloop _ _ hclear

end Operations

end X86OsDev.Tutorial.Directories
