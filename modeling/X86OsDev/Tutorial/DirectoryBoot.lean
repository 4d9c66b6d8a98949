import X86OsDev.Tutorial.DirectoryGrows

/-! # The boot of the tutorial kernel up to its heap

Until there is a heap, `kmalloc` places one block behind the other. The kernel
directory gets two tables: one for the first 4 MB, one for the heap.
-/
namespace X86OsDev.Tutorial.Directories
open Memory Transition
open Frames (Bits)

variable {s t u : Sys} {a d i n size address : ℕ}

/-- Before there is a heap, the next block comes after the kernel directory. -/
structure Booting (s : Sys) (bound : ℕ) : Prop where
  kheap : s.kheap = false
  kernel : s.kernelDirectory + directorySize ≤ s.placementAddress
  bound : s.placementAddress ≤ bound

/-- The kernel directory gets the table `i`, if it was not there, and nothing else. -/
structure Boots (i : ℕ) (s t : Sys) : Prop where
  kheap : t.kheap = s.kheap
  kernelDirectory : t.kernelDirectory = s.kernelDirectory
  tasks : t.tasks = s.tasks
  live : t.live = s.live
  data : t.data = s.data
  holes : t.holes = s.holes
  above : s.placementAddress ≤ t.placementAddress
  below : t.placementAddress ≤ s.placementAddress + 0x2000
  kept : (s.dir s.kernelDirectory).tables i ≠ 0 → t.placementAddress = s.placementAddress
  other : ∀ j < 1024, j ≠ i →
    (t.dir s.kernelDirectory).tables j = (s.dir s.kernelDirectory).tables j
  here : (t.dir s.kernelDirectory).tables i ≠ 0

theorem Boots.booting {bound : ℕ} (h : Boots i s t) (hs : Booting s bound) :
    Booting t (bound + 0x2000) := by
  have h1 := h.above
  have h2 := h.below
  have h3 := hs.kernel
  have h4 := hs.bound
  exact ⟨h.kheap.trans hs.kheap,by rw [h.kernelDirectory]; omega,by omega⟩

theorem Boots.trans (h : Boots i s t) (h' : Boots i t u) : Boots i s u := by
  have hk := h.kernelDirectory
  have hp : u.placementAddress = t.placementAddress := h'.kept (by rw [hk]; exact h.here)
  refine ⟨h'.kheap.trans h.kheap,h'.kernelDirectory.trans hk,h'.tasks.trans h.tasks,
    h'.live.trans h.live,h'.data.trans h.data,h'.holes.trans h.holes,?_,?_,?_,?_,?_⟩
  · rw [hp]
    exact h.above
  · rw [hp]
    exact h.below
  · intro hne
    rw [hp, h.kept hne]
  · intro j hj hji
    have := h'.other j hj hji
    rw [hk] at this
    exact this.trans (h.other j hj hji)
  · have := h'.here
    rwa [hk] at this

theorem Boots.setPage (h : Boots i s t) (p : ℕ × ℕ) (r : Bits × Page) :
    Boots i s (setPage t p r) :=
  ⟨h.kheap,h.kernelDirectory,h.tasks,h.live,h.data,h.holes,h.above,h.below,h.kept,h.other,h.here⟩

section Boot
variable (alloc : Alloc) {bound : ℕ}

/-- `get_page` on the kernel directory during the boot places at most one table. -/
theorem getPage_boots (hs : Booting s bound) (hbound : bound ≤ 0x600000)
    (hi : address / 0x1000 / 1024 = i) (hlt : i < 1024) :
    ∃ p t, getPage alloc address s.kernelDirectory s = some (p,t) ∧ Boots i s t := by
  subst hi
  unfold getPage findPage
  dsimp only
  by_cases hz : (s.dir s.kernelDirectory).tables (address / 0x1000 / 1024) = 0
  · rw [if_neg (not_not.mpr hz)]
    dsimp only
    have hk := hs.kernel
    have hb := hs.bound
    unfold directorySize at hk
    have hpage : s.placementAddress / 0x1000 ≠ 0 := by omega
    simp only [kmallocAp, kmallocInt, hs.kheap, place, hpage, Option.bind_eq_bind, Option.bind_some,
      Bool.false_eq_true, if_false, ne_eq, not_false_eq_true, and_self, if_true]
    have hp : u32 (s.placementAddress / 0x1000 * 0x1000 + 0x1000 + tableSize) =
        s.placementAddress / 0x1000 * 0x1000 + 0x1000 + 0x1000 := by
      unfold tableSize
      exact u32_of_lt (by omega)
    refine ⟨_,_,rfl,⟨hs.kheap.symm,rfl,rfl,rfl,rfl,rfl,?_,?_,fun hne => absurd hz hne,?_,?_⟩⟩
    · simp only [setPhysical, memset, setTable, hp]
      omega
    · simp only [setPhysical, memset, setTable, hp]
      omega
    · intro j hj hji
      have : ¬ (s.placementAddress / 0x1000 * 0x1000 + 0x1000 ≤ s.kernelDirectory + 4 * j ∧
          s.kernelDirectory + 4 * j < s.placementAddress / 0x1000 * 0x1000 + 0x1000 + 0x1000) := by
        omega
      simp [setPhysical, memset, setTable, this, hji]
    · have : ¬ (s.placementAddress / 0x1000 * 0x1000 + 0x1000 ≤
          s.kernelDirectory + 4 * (address / 0x1000 / 1024) ∧
          s.kernelDirectory + 4 * (address / 0x1000 / 1024) <
            s.placementAddress / 0x1000 * 0x1000 + 0x1000 + 0x1000) := by
        omega
      simp [setPhysical, memset, setTable, this]
  · rw [if_pos hz]
    exact ⟨_,s,rfl,⟨rfl,rfl,rfl,rfl,rfl,rfl,le_rfl,Nat.le_add_right ..,fun _ => rfl,
      fun _ _ _ => rfl,hz⟩⟩

/-- A loop over pages of one table. -/
theorem bootLoop {f : Sys → ℕ → Option Sys}
    (hf : ∀ s a, Booting s (bound + 0x2000) → a / 0x1000 / 1024 = i → ∃ t, f s a = some t ∧ Boots i s t)
    (hs : Booting s bound) (l : List ℕ) (hl : l ≠ []) (hi : ∀ a ∈ l, a / 0x1000 / 1024 = i) :
    ∃ t, l.foldlM f s = some t ∧ Boots i s t := by
  cases l with
  | nil => exact absurd rfl hl
  | cons a l =>
    have hs' : Booting s (bound + 0x2000) := ⟨hs.kheap,hs.kernel,Nat.le_add_right_of_le hs.bound⟩
    obtain ⟨t,ht,hB⟩ := hf s a hs' (hi a List.mem_cons_self)
    -- from here on the table is there
    have hrest : ∀ (l : List ℕ) t, (∀ a ∈ l, a / 0x1000 / 1024 = i) → Boots i s t →
        ∃ u, l.foldlM f t = some u ∧ Boots i s u := by
      intro l
      induction l with
      | nil => exact fun t _ hB => ⟨t,rfl,hB⟩
      | cons b l ih =>
        intro t hi hB
        obtain ⟨u,hu,hB'⟩ := hf t b (hB.booting hs) (hi b List.mem_cons_self)
        obtain ⟨v,hv,hB''⟩ := ih u (fun c hc => hi c (List.mem_cons_of_mem _ hc)) (hB.trans hB')
        refine ⟨v,?_,hB''⟩
        rw [List.foldlM_cons, hu]
        exact hv
    obtain ⟨u,hu,hB'⟩ := hrest l t (fun b hb => hi b (List.mem_cons_of_mem _ hb)) hB
    refine ⟨u,?_,hB'⟩
    rw [List.foldlM_cons, ht]
    exact hu

theorem allocPage_boots (hs : Booting s bound) (hbound : bound ≤ 0x600000)
    (hi : address / 0x1000 / 1024 = i) (hlt : i < 1024) (k w : ℤ) :
    ∃ t, allocPage alloc k w s.kernelDirectory s address = some t ∧ Boots i s t := by
  obtain ⟨p,t,h,hB⟩ := getPage_boots alloc hs hbound hi hlt
  exact ⟨_,by rw [allocPage, h]; rfl,hB.setPage ..⟩

theorem heapPages_index : ∀ a ∈ heapPages, a / 0x1000 / 1024 = 768 := by
  intro a ha
  obtain ⟨k,hk,rfl⟩ := List.mem_map.mp ha
  have := List.mem_range.mp hk
  unfold kheapStart
  omega

theorem lowPages_index : ∀ a ∈ lowPages, a / 0x1000 / 1024 = 0 := by
  intro a ha
  obtain ⟨k,hk,rfl⟩ := List.mem_map.mp ha
  have := List.mem_range.mp hk
  omega

theorem bootDirectory_spec (hk : s.kheap = false) (hp : s.placementAddress ≤ 0x400000) :
    Booting (bootDirectory s) 0x405000 ∧ (bootDirectory s).kernelDirectory ≤ 0x402000 ∧
    (∀ i < 1024, ((bootDirectory s).dir (bootDirectory s).kernelDirectory).tables i = 0) ∧
    (bootDirectory s).tasks = s.tasks ∧ (bootDirectory s).live = s.live ∧
    (bootDirectory s).data = s.data ∧ (bootDirectory s).holes = s.holes := by
  have h1 : u32 (s.placementAddress + 0x1000000 / 0x1000 / 32) = s.placementAddress + 128 :=
    u32_of_lt (by omega)
  set p := if (s.placementAddress + 128) / 0x1000 ≠ 0 then
    (s.placementAddress + 128) / 0x1000 * 0x1000 + 0x1000 else s.placementAddress + 128 with hpdef
  have hple : p ≤ 0x402000 := by
    rw [hpdef]
    split_ifs <;> omega
  have h2 : u32 (p + directorySize) = p + directorySize := by
    unfold directorySize
    exact u32_of_lt (by omega)
  have hkd : (bootDirectory s).kernelDirectory = p := by
    simp [bootDirectory, setPhysicalAddr, place, memset, h1, hpdef]
  have hplace : (bootDirectory s).placementAddress = p + directorySize := by
    rw [← h2]
    simp [bootDirectory, setPhysicalAddr, place, memset, h1, hpdef]
  refine ⟨⟨hk,?_,?_⟩,?_,?_,rfl,rfl,rfl,rfl⟩
  · rw [hkd, hplace]
  · rw [hplace]
    unfold directorySize
    omega
  · rw [hkd]
    exact hple
  · intro i hi
    have hlt : 4 * i < directorySize := by
      unfold directorySize
      omega
    simp only [bootDirectory, setPhysicalAddr, memset, Function.update_self]
    exact if_pos ⟨Nat.le_add_right ..,Nat.add_lt_add_left hlt _⟩

/-- The boot leaves a heap and two tables in the kernel directory. -/
theorem bootHeap_spec (hk : s.kheap = false) (hp : s.placementAddress ≤ 0x400000)
    (hl : s.live = []) (hd : s.data = []) :
    ∃ t, bootHeap alloc s = some t ∧ Well t ∧ (t.dir t.kernelDirectory).tables 768 ≠ 0 ∧
      (∀ i < 1024, i ≠ 0 → i ≠ 768 → (t.dir t.kernelDirectory).tables i = 0) ∧
      t.tasks = s.tasks ∧ t.live = [] ∧ t.data = [] ∧ t.holes = s.holes ∧
      t.endAddress = 0xC0100000 ∧ t.maxAddress = 0xCFFFF000 := by
  obtain ⟨hB,hlow,hzero,htasks,hlive,hdata,hholes⟩ := bootDirectory_spec hk hp
  obtain ⟨s₁,h₁,hB₁⟩ := bootLoop (i := 768)
    (f := fun s a => (getPage alloc a s.kernelDirectory s).map Prod.snd) (fun s a hs hi => by
      obtain ⟨p,t,h,hB⟩ := getPage_boots alloc hs (by decide) hi (by decide)
      exact ⟨t,by rw [h]; rfl,hB⟩) hB heapPages (by simp [heapPages]) heapPages_index
  obtain ⟨s₂,h₂,hB₂⟩ := bootLoop (i := 0)
    (f := fun s a => allocPage alloc 0 0 s.kernelDirectory s a)
    (fun s a hs hi => allocPage_boots alloc hs (by decide) hi (by decide) 0 0)
    (hB₁.booting hB) lowPages (by simp [lowPages]) lowPages_index
  obtain ⟨s₃,h₃,hB₃⟩ := bootLoop (i := 768)
    (f := fun s a => allocPage alloc 0 0 s.kernelDirectory s a)
    (fun s a hs hi => allocPage_boots alloc hs (by decide) hi (by decide) 0 0)
    (hB₂.booting (hB₁.booting hB)) heapPages (by simp [heapPages]) heapPages_index
  have hk₁ := hB₁.kernelDirectory
  have hk₂ := hB₂.kernelDirectory.trans hk₁
  have hk₃ := hB₃.kernelDirectory.trans hk₂
  refine ⟨createHeap { s₃ with currentDirectory := s₃.kernelDirectory },?_,?_,?_,?_,?_,?_,?_,?_,rfl,rfl⟩
  · unfold bootHeap
    simp only [Option.bind_eq_bind]
    rw [h₁, Option.bind_some, h₂, Option.bind_some, h₃, Option.bind_some]
  · refine ⟨rfl,rfl,?_,?_,?_⟩
    · show s₃.kernelDirectory + directorySize ≤ _
      rw [hk₃]
      unfold directorySize createHeap kheapStart heapIndexSize
      simp only
      omega
    · show ∀ b ∈ s₃.live, _
      rw [hB₃.live, hB₂.live, hB₁.live, hlive, hl]
      exact fun b hb => absurd hb List.not_mem_nil
    · show ∀ a ∈ s₃.data, _
      rw [hB₃.data, hB₂.data, hB₁.data, hdata, hd]
      exact fun b hb => absurd hb List.not_mem_nil
  · show (s₃.dir s₃.kernelDirectory).tables 768 ≠ 0
    rw [hB₃.kernelDirectory]
    exact hB₃.here
  · intro i hi h0 h768
    show (s₃.dir s₃.kernelDirectory).tables i = 0
    rw [hB₃.kernelDirectory, hB₃.other i hi h768, hB₂.kernelDirectory, hB₂.other i hi h0, hk₁,
      hB₁.other i hi h768]
    exact hzero i hi
  · exact hB₃.tasks.trans (hB₂.tasks.trans (hB₁.tasks.trans htasks))
  · exact hB₃.live.trans (hB₂.live.trans (hB₁.live.trans (hlive.trans hl)))
  · exact hB₃.data.trans (hB₂.data.trans (hB₁.data.trans (hdata.trans hd)))
  · exact hB₃.holes.trans (hB₂.holes.trans (hB₁.holes.trans hholes))

end Boot

end X86OsDev.Tutorial.Directories
