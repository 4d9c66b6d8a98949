import X86OsDev.Tutorial.DirectoryGrows

/-! # Clones of page directories

For each part of the heap a clone has the kernel's table or none.
-/
namespace X86OsDev.Tutorial.Directories
open Memory Transition

variable {s t u : Sys} {a d i n size address : ℕ}

/-- A directory has the kernel's table or none for each part of the heap. -/
def Half (s : Sys) (d : ℕ) : Prop := ∀ i, InHeap i →
  (s.dir d).tables i = 0 ∨ entry s d i = entry s s.kernelDirectory i

/-- A directory in use also has the first one. -/
structure Linked (s : Sys) (d : ℕ) : Prop where
  live : (d,directorySize) ∈ s.live
  align : d % 0x1000 = 0
  half : Half s d
  first : (s.dir d).tables 768 ≠ 0

theorem Grows.half (h : Grows s t) (hlive : (d,directorySize) ∈ s.live) (ha : d % 0x1000 = 0)
    (hd : Half s d) : Half t d := by
  intro i hi
  have hsame := h.dirs d hlive ha i hi
  have htab : (t.dir d).tables i = (s.dir d).tables i := congrArg Prod.fst hsame
  rw [htab]
  rcases hd i hi with hz | he
  · exact .inl hz
  · by_cases hz : (s.dir d).tables i = 0
    · exact .inl hz
    · right
      have hk : (s.dir s.kernelDirectory).tables i ≠ 0 := by
        rwa [show (s.dir s.kernelDirectory).tables i = (s.dir d).tables i from
          (congrArg Prod.fst he).symm]
      rw [hsame, he, h.kernelDirectory, h.kernel i hi hk]

theorem Grows.linked (h : Grows s t) (hd : Linked s d) : Linked t d := by
  refine ⟨h.live _ hd.live,hd.align,h.half hd.live hd.align hd.half,?_⟩
  have hsame := h.dirs d hd.live hd.align 768 ⟨le_rfl,by decide⟩
  rw [show (t.dir d).tables 768 = (s.dir d).tables 768 from congrArg Prod.fst hsame]
  exact hd.first

/-- The source of a clone: the kernel directory, or one in use. -/
def Source (s : Sys) (d : ℕ) : Prop :=
  d = s.kernelDirectory ∧ (s.dir d).tables 768 ≠ 0 ∨ Linked s d

theorem Source.half {src : ℕ} (h : Source s src) : Half s src := by
  rcases h with ⟨rfl,-⟩ | h
  · exact fun i _ => .inr rfl
  · exact h.half

theorem Source.first {src : ℕ} (h : Source s src) : (s.dir src).tables 768 ≠ 0 := by
  rcases h with ⟨-,h⟩ | h
  · exact h
  · exact h.first

theorem Grows.source {src : ℕ} (h : Grows s t) (hd : Source s src) : Source t src := by
  rcases hd with ⟨rfl,hd⟩ | hd
  · have hsame := h.kernel 768 ⟨le_rfl,by decide⟩ hd
    refine .inl ⟨h.kernelDirectory.symm,?_⟩
    rwa [show (t.dir s.kernelDirectory).tables 768 = (s.dir s.kernelDirectory).tables 768 from
      congrArg Prod.fst hsame]
  · exact .inr (h.linked hd)

section Clone
variable {alloc : Alloc} {src : ℕ}

/-- What the loop of `clone_directory` keeps, from the state before the call on. -/
structure Cloning (s₀ : Sys) (src d : ℕ) (s : Sys) : Prop where
  good : Good s₀ s
  source : Source s src
  fresh : (d,directorySize) ∉ s₀.live
  high : s.startAddress ≤ d
  live : (d,directorySize) ∈ s.live
  align : d % 0x1000 = 0
  half : Half s d

theorem Cloning.ne_kernel {s₀ : Sys} (h : Cloning s₀ src d s) : d ≠ s.kernelDirectory := by
  rintro rfl
  exact h.good.1.kernel_not_live _ h.live

/-- Another entry of the new directory. -/
theorem Cloning.set {s₀ : Sys} (h : Cloning s₀ src d s) (hsrc : src ≠ d) {tab phys : ℕ}
    (hi : InHeap i → (tab,phys) = entry s s.kernelDirectory i) :
    Cloning s₀ src d (setPhysical (setTable s d i tab) d i phys) := by
  have hne := h.ne_kernel
  have hother : ∀ e, e ≠ d → (setPhysical (setTable s d i tab) d i phys).dir e = s.dir e := by
    intro e he
    simp [setPhysical, setTable, he]
  have hent : ∀ e, e ≠ d → ∀ j, entry (setPhysical (setTable s d i tab) d i phys) e j = entry s e j := by
    intro e he j
    unfold entry
    rw [hother e he]
  have hself : ∀ j, entry (setPhysical (setTable s d i tab) d i phys) d j =
      if j = i then (tab,phys) else entry s d j := by
    intro j
    by_cases hj : j = i
    · subst hj
      simp [entry, setPhysical, setTable]
    · simp [entry, setPhysical, setTable, hj]
  have hkd : s.kernelDirectory = s₀.kernelDirectory := h.good.2.kernelDirectory
  have hfree : InHeap i → (d,directorySize) ∉ s₀.live := fun _ => h.fresh
  have hnew : InHeap i → d = s₀.kernelDirectory → (s₀.dir d).tables i = 0 :=
    fun _ he => absurd (he.trans hkd.symm) hne
  refine ⟨(h.good.setTable hfree hnew tab).setPhysical hfree hnew phys,?_,h.fresh,h.high,h.live,
    h.align,?_⟩
  · rcases h.source with ⟨he,hz⟩ | hl
    · refine .inl ⟨he,?_⟩
      rw [hother src hsrc]
      exact hz
    · refine .inr ⟨hl.live,hl.align,?_,?_⟩
      · intro j hj
        rw [hent src hsrc, hother src hsrc]
        exact (hl.half j hj).imp id fun hk => hk.trans (hent s.kernelDirectory hne.symm j).symm
      · rw [hother src hsrc]
        exact hl.first
  · intro j hj
    have hk := hent s.kernelDirectory hne.symm j
    rw [show entry (setPhysical (setTable s d i tab) d i phys) d j = _ from hself j]
    by_cases hji : j = i
    · subst hji
      rw [if_pos rfl]
      right
      rw [hi hj]
      exact hk.symm
    · rw [if_neg hji]
      rcases h.half j hj with hz | he
      · left
        have := congrArg Prod.fst (hself j)
        rw [if_neg hji] at this
        exact this.trans hz
      · exact .inr (he.trans hk.symm)

/-- One round: the loop's invariant is kept, an entry of the new directory stays once it is there,
and entry 768 is there after its round. -/
theorem cloneEntry_spec (hA : Sound alloc) {s₀ : Sys} (h : Cloning s₀ src d s) (hsrc : src ≠ d)
    (he : cloneEntry alloc src d s i = some t) : Cloning s₀ src d t ∧
      ((s.dir d).tables 768 ≠ 0 ∨ i = 768 → (t.dir d).tables 768 ≠ 0) := by
  unfold cloneEntry at he
  dsimp only at he
  have hkeep : ∀ u tab phys, tab ≠ 0 → ((u.dir d).tables 768 ≠ 0 ∨ i = 768) →
      ((setPhysical (setTable u d i tab) d i phys).dir d).tables 768 ≠ 0 := by
    intro u tab phys htab h768
    by_cases hi : 768 = i
    · subst hi
      simpa [setPhysical, setTable] using htab
    · have := h768.resolve_right (Ne.symm hi)
      simpa [setPhysical, setTable, hi] using this
  by_cases hz : (s.dir src).tables i = 0
  · rw [if_pos hz] at he
    obtain rfl := Option.some_inj.mp he
    refine ⟨h,?_⟩
    rintro (h768 | rfl)
    · exact h768
    · exact absurd hz h.source.first
  rw [if_neg hz] at he
  by_cases hk : (s.dir s.kernelDirectory).tables i = (s.dir src).tables i
  · rw [if_pos hk] at he
    obtain rfl := Option.some_inj.mp he
    have hp : ((setTable s d i ((s.dir src).tables i)).dir src).tablesPhysical i =
        (s.dir src).tablesPhysical i := by
      simp [setTable, hsrc]
    rw [hp]
    refine ⟨h.set hsrc fun hi => ?_,hkeep _ _ _ hz⟩
    exact (h.source.half i hi).resolve_left hz
  · rw [if_neg hk, Option.bind_eq_bind, Option.bind_eq_some_iff] at he
    obtain ⟨⟨a,phys,u⟩,hr,he⟩ := he
    obtain rfl := Option.some_inj.mp he
    have hG := cloneTable_good hA h.good.1 hr
    have hu : Cloning s₀ src d u := by
      refine ⟨h.good.trans hG,hG.2.source h.source,h.fresh,?_,hG.2.live _ h.live,h.align,
        hG.2.half h.live h.align h.half⟩
      rw [hG.1.start, ← h.good.1.start]
      exact h.high
    -- a table of the heap would have been the kernel's
    have hout : ¬ InHeap i := fun hi =>
      hk (congrArg Prod.fst ((h.source.half i hi).resolve_left hz)).symm
    refine ⟨hu.set hsrc fun hi => absurd hi hout,fun h768 => ?_⟩
    have hi : i ≠ 768 := by
      rintro rfl
      exact hout ⟨le_rfl,by decide⟩
    have hsame := hG.2.dirs d h.live h.align 768 ⟨le_rfl,by decide⟩
    have hne : (u.dir d).tables 768 ≠ 0 := by
      rw [show (u.dir d).tables 768 = (s.dir d).tables 768 from congrArg Prod.fst hsame]
      exact h768.resolve_right hi
    simpa [setPhysical, setTable, hi.symm] using hne

theorem cloneLoop_spec (hA : Sound alloc) {s₀ : Sys} (hsrc : src ≠ d) (l : List ℕ)
    (h : Cloning s₀ src d s) (hl : l.foldlM (cloneEntry alloc src d) s = some t) :
    Cloning s₀ src d t ∧ ((s.dir d).tables 768 ≠ 0 ∨ 768 ∈ l → (t.dir d).tables 768 ≠ 0) := by
  induction l generalizing s with
  | nil =>
    obtain rfl := Option.some_inj.mp hl
    exact ⟨h,fun h768 => h768.resolve_right List.not_mem_nil⟩
  | cons i l ih =>
    rw [List.foldlM_cons, Option.bind_eq_bind, Option.bind_eq_some_iff] at hl
    obtain ⟨u,hu,hl⟩ := hl
    obtain ⟨hC,hfirst⟩ := cloneEntry_spec hA h hsrc hu
    obtain ⟨hC',hlast⟩ := ih hC hl
    refine ⟨hC',fun h768 => hlast ?_⟩
    rcases h768 with h768 | h768
    · exact .inl (hfirst (.inl h768))
    · rcases List.mem_cons.mp h768 with rfl | h768
      · exact .inl (hfirst (.inr rfl))
      · exact .inr h768

/-- A clone of the kernel directory, or of one in use, has the kernel's tables of the heap. -/
theorem cloneDirectory_spec (hA : Sound alloc) (hs : Well s) (hsrc : Source s src)
    (h : cloneDirectory alloc src s = some (d,t)) :
    Good s t ∧ Linked t d ∧ ∀ size, (d,size) ∉ s.live := by
  unfold cloneDirectory at h
  rw [Option.bind_eq_bind, Option.bind_eq_some_iff] at h
  obtain ⟨⟨b,phys,u⟩,hr,h⟩ := h
  dsimp only at h
  rw [Option.bind_eq_bind, Option.bind_eq_some_iff] at h
  obtain ⟨v,hv,h⟩ := h
  simp only [Option.some_inj, Prod.mk.injEq] at h
  obtain ⟨rfl,rfl⟩ := h
  obtain ⟨hG,hB,ha⟩ := kmallocAp_good hA hs hr
  have hne : src ≠ b := by
    rintro rfl
    rcases hsrc with ⟨rfl,-⟩ | hl
    · have h1 := hs.kernel
      have h2 := hB.low
      unfold directorySize at h1
      omega
    · exact hB.not_live _ hl.live
  have hkb : b ≠ s.kernelDirectory := by
    rintro rfl
    have h1 := hs.kernel
    have h2 := hB.low
    unfold directorySize at h1
    omega
  have hclear := hG.memset hs hB ha (by decide) le_rfl
  have hstart := hclear.setPhysicalAddr b (phys + 0x1000)
  have hC : Cloning s src b (setPhysicalAddr (memset u b directorySize) b (phys + 0x1000)) := by
    refine ⟨hstart,hstart.2.source hsrc,hB.not_live _,?_,hB.live,ha,?_⟩
    · rw [hstart.1.start, ← hs.start]
      exact hB.low
    · intro i hi
      left
      unfold InHeap at hi
      have hlt : 4 * i < directorySize := by
        unfold directorySize
        omega
      simp [setPhysicalAddr, memset, hlt]
  obtain ⟨hC',hfirst⟩ := cloneLoop_spec hA hne _ hC hv
  exact ⟨hC'.good,⟨hC'.live,hC'.align,hC'.half,hfirst (.inr (List.mem_range.mpr (by decide)))⟩,hB.not_live⟩

end Clone

end X86OsDev.Tutorial.Directories
