import X86OsDev.Tutorial.Directories

/-! # The pages of the kernel heap

Whatever `expand` allocates on its way, the pages of the heap that have a frame
keep one, and those it goes through get one. It goes from the old end in steps of
a page, so that the heap is mapped as long as its ends are page boundaries; but
only odd sizes are rounded.
-/
namespace X86OsDev.Tutorial.Directories
open Memory Transition
open Frames (Bits allocFrame setFrame firstFrame)

variable {s t u : Sys} {a i n size address : ℕ}

/-! ## Frames -/

/-- The kernel directory has a frame for the page of this address, which is marked as used. -/
def HasFrame (s : Sys) (address : ℕ) : Prop :=
  ∃ f, translate s s.kernelDirectory address = some f ∧ Frames.bit s.frames f.toNat = true

theorem bit_setFrame_mod (frames : Bits) (idx g : ℕ) :
    Frames.bit (setFrame frames (u32 (idx * 0x1000))) g = (decide (g = idx % 2 ^ 20) || Frames.bit frames g) := by
  have h : u32 (idx * 0x1000) = u32 (idx % 2 ^ 20 * 0x1000) := by
    unfold u32
    omega
  rw [h]
  exact Frames.bit_setFrame frames (Nat.mod_lt _ (by decide)) g

/-- `alloc_frame` leaves a page that has a frame as it is, and gives a frame to one that has none. -/
theorem allocFrame_spec (frames : Bits) (nframes : ℕ) (page : Page) (isKernel isWriteable : ℤ) (junk : BitVec 32) :
    (∀ g, Frames.bit frames g = true → Frames.bit (allocFrame frames nframes page isKernel isWriteable junk).1 g = true) ∧
    (if page.frame ≠ 0 then (allocFrame frames nframes page isKernel isWriteable junk).2 = page
      else (allocFrame frames nframes page isKernel isWriteable junk).2.present = true ∧
        Frames.bit (allocFrame frames nframes page isKernel isWriteable junk).1
          (allocFrame frames nframes page isKernel isWriteable junk).2.frame.toNat = true) := by
  unfold allocFrame
  by_cases hf : page.frame ≠ 0
  · rw [if_pos hf, if_pos hf]
    exact ⟨fun _ h => h,rfl⟩
  · rw [if_neg hf, if_neg hf]
    dsimp only
    refine ⟨fun g hg => ?_,rfl,?_⟩
    · rw [bit_setFrame_mod, hg, Bool.or_true]
    · rw [bit_setFrame_mod, BitVec.toNat_ofNat, decide_eq_true rfl, Bool.true_or]

/-! ## The tables of the kernel -/

/-- `kernel_directory->tables[i]` -/
def kernelTable (s : Sys) (i : ℕ) : ℕ := (s.dir s.kernelDirectory).tables i

/-- An entry that is present with a marked frame. -/
def Backed (s : Sys) (t j : ℕ) : Prop := (s.table t j).present = true ∧ Frames.bit s.frames (s.table t j).frame.toNat = true

/-- The page tables of the kernel directory are blocks of their own, and an entry with a frame is present. -/
structure Tabled (s : Sys) : Prop where
  kheap : s.kheap = true
  low : s.kernelDirectory + directorySize ≤ s.startAddress
  block : ∀ i < 1024, kernelTable s i ≠ 0 → kernelTable s i + 0x1000 ≤ s.startAddress ∨ (kernelTable s i,tableSize) ∈ s.live
  apart : ∀ i < 1024, ∀ j < 1024, i ≠ j → kernelTable s i ≠ 0 → kernelTable s j ≠ 0 →
    Apart (kernelTable s i) 0x1000 (kernelTable s j) 0x1000
  backed : ∀ i < 1024, kernelTable s i ≠ 0 → ∀ j < 1024, (s.table (kernelTable s i) j).frame ≠ 0 →
    Backed s (kernelTable s i) j

/-- What every function that may allocate keeps: the bounds of the heap apart from its end, and the frames of pages. -/
structure Kept (s t : Sys) : Prop where
  kernelDirectory : t.kernelDirectory = s.kernelDirectory
  startAddress : t.startAddress = s.startAddress
  maxAddress : t.maxAddress = s.maxAddress
  frame : ∀ a < 2 ^ 32, HasFrame s a → HasFrame t a

theorem Kept.refl (s : Sys) : Kept s s := ⟨rfl,rfl,rfl,fun _ _ h => h⟩

theorem Kept.trans (h : Kept s t) (h' : Kept t u) : Kept s u :=
  ⟨h'.kernelDirectory.trans h.kernelDirectory,h'.startAddress.trans h.startAddress,h'.maxAddress.trans h.maxAddress,
    fun a ha hf => h'.frame a ha (h.frame a ha hf)⟩

theorem findPage_eq : findPage s address s.kernelDirectory = if kernelTable s (address / 0x1000 / 1024) ≠ 0 then
    some (kernelTable s (address / 0x1000 / 1024),address / 0x1000 % 1024) else none := rfl

theorem hasFrame_iff : HasFrame s address ↔ kernelTable s (address / 0x1000 / 1024) ≠ 0 ∧
    Backed s (kernelTable s (address / 0x1000 / 1024)) (address / 0x1000 % 1024) := by
  unfold HasFrame translate Backed
  rw [findPage_eq]
  by_cases hne : kernelTable s (address / 0x1000 / 1024) ≠ 0
  · rw [if_pos hne]
    dsimp only
    split
    · rename_i hp
      simp [hne, hp]
    · rename_i hp
      simp [hp]
  · rw [if_neg hne]
    simp [not_not.mp hne]

theorem hasFrame_congr {address' : ℕ} (h : address / 0x1000 = address' / 0x1000) : HasFrame s address ↔ HasFrame s address' := by
  rw [hasFrame_iff, hasFrame_iff, h]

section Entry
variable {j : ℕ} {k w : ℤ}

theorem allocFrameAt_table (p : ℕ × ℕ) {t' j' : ℕ} (hne : (t',j') ≠ p) :
    (allocFrameAt s p k w).table t' j' = s.table t' j' := by
  obtain ⟨t,j⟩ := p
  unfold allocFrameAt setPage
  dsimp only
  by_cases ht : t' = t
  · subst ht
    rw [Function.update_self, Function.update_of_ne]
    rintro rfl
    exact hne rfl
  · rw [Function.update_of_ne ht]

theorem allocFrameAt_self (p : ℕ × ℕ) : (allocFrameAt s p k w).table p.1 p.2 =
    (allocFrame s.frames s.nframes (s.table p.1 p.2) k w s.junk).2 := by
  unfold allocFrameAt setPage
  dsimp only
  rw [Function.update_self, Function.update_self]

theorem Backed.allocFrameAt (p : ℕ × ℕ) {t' j' : ℕ} (h : Backed s t' j') : Backed (allocFrameAt s p k w) t' j' := by
  have hspec := allocFrame_spec s.frames s.nframes (s.table p.1 p.2) k w s.junk
  by_cases hp : (t',j') = p
  · subst hp
    unfold Backed
    rw [allocFrameAt_self]
    by_cases hf : (s.table t' j').frame ≠ 0
    · rw [if_pos hf] at hspec
      rw [hspec.2]
      exact ⟨h.1,hspec.1 _ h.2⟩
    · rw [if_neg hf] at hspec
      exact hspec.2
  · unfold Backed
    rw [allocFrameAt_table p hp]
    exact ⟨h.1,hspec.1 _ h.2⟩

/-- After `alloc_frame` the entry has a frame. -/
theorem Tabled.allocFrameAt (h : Tabled s) (hi : i < 1024) (hne : kernelTable s i ≠ 0) (hj : j < 1024) :
    Tabled (allocFrameAt s (kernelTable s i,j) k w) ∧ Kept s (allocFrameAt s (kernelTable s i,j) k w) ∧
      Backed (allocFrameAt s (kernelTable s i,j) k w) (kernelTable s i) j := by
  have hself : Backed (Directories.allocFrameAt s (kernelTable s i,j) k w) (kernelTable s i) j := by
    by_cases hf : (s.table (kernelTable s i) j).frame ≠ 0
    · exact Backed.allocFrameAt _ (h.backed i hi hne j hj hf)
    · have hspec := allocFrame_spec s.frames s.nframes (s.table (kernelTable s i) j) k w s.junk
      rw [if_neg hf] at hspec
      unfold Backed
      rw [allocFrameAt_self]
      exact hspec.2
  refine ⟨⟨h.kheap,h.low,h.block,h.apart,fun i' hi' hne' j' hj' hf => ?_⟩,⟨rfl,rfl,rfl,fun a _ ha => ?_⟩,hself⟩
  · by_cases hp : (kernelTable s i',j') = (kernelTable s i,j)
    · obtain ⟨h1,h2⟩ := Prod.mk.inj hp
      subst h2
      change Backed _ (kernelTable s i') _
      rw [h1]
      exact hself
    · have hsame : (Directories.allocFrameAt s (kernelTable s i,j) k w).table (kernelTable s i') j' = s.table (kernelTable s i') j' :=
        allocFrameAt_table _ hp
      change (_ : Page).frame ≠ 0 at hf
      exact Backed.allocFrameAt _ (h.backed i' hi' hne' j' hj' (hsame ▸ hf))
  · rw [hasFrame_iff] at ha ⊢
    exact ⟨ha.1,Backed.allocFrameAt _ ha.2⟩

end Entry

/-! ## What allocations keep -/

/-- A block as `alloc` hands it out: it lies in the heap, in use and apart from the tables. -/
structure Handed (s : Sys) (a size : ℕ) (t : Sys) : Prop where
  tabled : Tabled t
  kept : Kept s t
  low : t.startAddress ≤ a
  live : (a,size) ∈ t.live
  clear : ∀ i < 1024, kernelTable t i ≠ 0 → Apart (kernelTable t i) 0x1000 a size

/-- What `get_page` and `expand` rely on. -/
def Hands (alloc : Alloc) : Prop := ∀ size align s a t, Tabled s → alloc size align s = some (a,t) → Handed s a size t

section Operations
variable {alloc : Alloc}

theorem kmallocAp_handed (hA : Hands alloc) (hs : Tabled s) {phys : ℕ} (h : kmallocAp alloc size s = some (a,phys,t)) :
    Handed s a size t := by
  unfold kmallocAp kmallocInt at h
  rw [if_pos hs.kheap, Option.bind_eq_bind, Option.bind_eq_some_iff] at h
  obtain ⟨⟨b,u⟩,hr,h⟩ := h
  rw [if_pos hs.kheap, Option.bind_eq_bind, Option.bind_eq_some_iff] at h
  obtain ⟨p,-,h⟩ := h
  simp only [Option.some_inj, Prod.mk.injEq] at h
  obtain ⟨rfl,-,rfl⟩ := h
  exact hA _ _ _ _ _ hs hr

/-- The new table is empty, and the others are as they were. -/
theorem Handed.newTable (h : Handed s a tableSize u) (hi : i < 1024) (hnone : kernelTable s i = 0) (hkd : s.kernelDirectory = u.kernelDirectory)
    (phys : ℕ) (ht : t = setPhysical (memset (setTable u u.kernelDirectory i a) a 0x1000) u.kernelDirectory i phys) :
    Tabled t ∧ Kept s t ∧ kernelTable t i = a := by
  have hlow := h.tabled.low
  have hge := h.low
  unfold directorySize at hlow
  have hkernel (j : ℕ) (hj : j < 1024) : kernelTable t j = if j = i then a else kernelTable u j := by
    have h1 : ¬ (a ≤ u.kernelDirectory + 4 * j ∧ u.kernelDirectory + 4 * j < a + 0x1000) := by omega
    subst ht
    unfold kernelTable setPhysical memset setTable
    dsimp only
    rw [Function.update_self]
    dsimp only
    rw [if_neg h1, Function.update_self]
    dsimp only
    rw [Function.update_apply]
  have hentry (b j : ℕ) : t.table b j = if a ≤ b + 4 * j ∧ b + 4 * j < a + 0x1000 then .blank else u.table b j := by
    subst ht
    rfl
  have hsame {j k : ℕ} (hj : j < 1024) (hne : kernelTable u j ≠ 0) (hk : k < 1024) :
      t.table (kernelTable u j) k = u.table (kernelTable u j) k := by
    have hap := h.clear j hj hne
    unfold Apart tableSize at hap
    rw [hentry, if_neg (by omega)]
  have hframes : t.frames = u.frames := by rw [ht]; rfl
  have hlive : t.live = u.live := by rw [ht]; rfl
  have hstart : t.startAddress = u.startAddress := by rw [ht]; rfl
  have hself : kernelTable t i = a := by rw [hkernel i hi, if_pos rfl]
  have hother {j : ℕ} (hj : j < 1024) (hji : j ≠ i) : kernelTable t j = kernelTable u j := by rw [hkernel j hj, if_neg hji]
  refine ⟨⟨by rw [ht]; exact h.tabled.kheap,by rw [ht]; exact h.tabled.low,fun j hj hne => ?_,fun j hj k hk hjk hnj hnk => ?_,
    fun j hj hne l hl hf => ?_⟩,⟨by rw [ht]; exact hkd.symm,hstart.trans h.kept.startAddress,by rw [ht]; exact h.kept.maxAddress,
      fun b hb hf => ?_⟩,hself⟩
  · by_cases hji : j = i
    · rw [hji, hself, hlive]
      exact .inr h.live
    · rw [hother hj hji] at hne ⊢
      rw [hstart, hlive]
      exact h.tabled.block j hj hne
  · by_cases hji : j = i
    · have hki : k ≠ i := fun hc => hjk (hji.trans hc.symm)
      rw [hother hk hki] at hnk ⊢
      rw [hji, hself]
      exact (h.clear k hk hnk).symm
    · rw [hother hj hji] at hnj ⊢
      by_cases hki : k = i
      · rw [hki, hself]
        exact h.clear j hj hnj
      · rw [hother hk hki] at hnk ⊢
        exact h.tabled.apart j hj k hk hjk hnj hnk
  · by_cases hji : j = i
    · rw [hji, hself, hentry, if_pos (by omega)] at hf
      exact absurd rfl hf
    · rw [hother hj hji] at hne hf ⊢
      unfold Backed
      rw [hsame hj hne hl] at hf ⊢
      rw [hframes]
      exact h.tabled.backed j hj hne l hl hf
  · have hfu := hasFrame_iff.mp (h.kept.frame b hb hf)
    have hb' : b / 0x1000 / 1024 < 1024 := by omega
    have hbi : b / 0x1000 / 1024 ≠ i := by
      rintro rfl
      exact (hasFrame_iff.mp hf).1 hnone
    refine hasFrame_iff.mpr ?_
    unfold Backed
    rw [hother hb' hbi, hsame hb' hfu.1 (Nat.mod_lt _ (by decide)), hframes]
    exact hfu

/-- `get_page` on the kernel directory finds or makes the table of an address. -/
theorem getPage_handed (hA : Hands alloc) (hs : Tabled s) (ha : address < 2 ^ 32) {p : ℕ × ℕ}
    (h : getPage alloc address s.kernelDirectory s = some (p,t)) :
    Tabled t ∧ Kept s t ∧ kernelTable t (address / 0x1000 / 1024) ≠ 0 ∧
      p = (kernelTable t (address / 0x1000 / 1024),address / 0x1000 % 1024) := by
  have hi : address / 0x1000 / 1024 < 1024 := by omega
  unfold getPage at h
  rw [findPage_eq] at h
  by_cases hne : kernelTable s (address / 0x1000 / 1024) ≠ 0
  · rw [if_pos hne] at h
    cases h
    exact ⟨hs,.refl s,hne,rfl⟩
  · rw [if_neg hne] at h
    dsimp only at h
    rw [Option.bind_eq_bind, Option.bind_eq_some_iff] at h
    obtain ⟨⟨a,phys,u⟩,hr,h⟩ := h
    have hH := kmallocAp_handed hA hs hr
    have hkd := hH.kept.kernelDirectory
    have hpos : a ≠ 0 := by
      have h1 := hH.low
      have h2 := hH.tabled.low
      unfold directorySize at h2
      omega
    rw [← hkd] at h
    simp only [Option.some_inj, Prod.mk.injEq] at h
    obtain ⟨rfl,rfl⟩ := h
    obtain ⟨hT,hK,hself⟩ := hH.newTable hi (not_not.mp hne) hkd.symm _ rfl
    refine ⟨hT,hK,?_,?_⟩
    · rwa [hself]
    · rw [hself]

theorem allocPage_handed (hA : Hands alloc) (hs : Tabled s) (ha : address < 2 ^ 32) {k w : ℤ}
    (h : allocPage alloc k w s.kernelDirectory s address = some t) : Tabled t ∧ Kept s t ∧ HasFrame t address := by
  unfold allocPage at h
  rw [Option.bind_eq_bind, Option.bind_eq_some_iff] at h
  obtain ⟨⟨p,u⟩,hr,h⟩ := h
  obtain ⟨hT,hK,hne,rfl⟩ := getPage_handed hA hs ha hr
  cases h
  obtain ⟨hT',hK',hb⟩ := hT.allocFrameAt (k := k) (w := w) (show address / 0x1000 / 1024 < 1024 by omega) hne
    (show address / 0x1000 % 1024 < 1024 from Nat.mod_lt _ (by decide))
  exact ⟨hT',hK.trans hK',hasFrame_iff.mpr ⟨hne,hb⟩⟩

/-- The loop of `expand`: the pages it goes through have frames in the end. -/
theorem expandFrom_handed (hA : Hands alloc) {newSize : ℕ} (n i : ℕ) (hs : Tabled s)
    (h : expandFrom alloc newSize n i s = some t) : Tabled t ∧ Kept s t ∧
      (newSize + 0x1000 ≤ 2 ^ 32 → ∀ q, i + 0x1000 * q < newSize → HasFrame t (u32 (s.startAddress + (i + 0x1000 * q)))) := by
  induction n generalizing i s with
  | zero => cases h
  | succ n ih =>
    unfold expandFrom at h
    by_cases hi : i < newSize
    · rw [if_pos hi, Option.bind_eq_bind, Option.bind_eq_some_iff] at h
      obtain ⟨u,hu,h⟩ := h
      have hlt : u32 (s.startAddress + i) < 2 ^ 32 := Nat.mod_lt _ (by decide)
      obtain ⟨hT,hK,hf⟩ := allocPage_handed hA hs hlt hu
      obtain ⟨hT',hK',hrest⟩ := ih _ hT h
      refine ⟨hT',hK.trans hK',fun hw q hq => ?_⟩
      cases q with
      | zero => exact hK'.frame _ hlt hf
      | succ q =>
        have hstep : u32 (i + 0x1000) = i + 0x1000 := u32_of_lt ((Nat.add_lt_add_right hi _).trans_le hw)
        have hnext := hrest hw q
        rw [hstep, hK.startAddress] at hnext
        rw [show i + 0x1000 * (q + 1) = i + 0x1000 + 0x1000 * q by omega] at hq ⊢
        exact hnext hq
    · rw [if_neg hi] at h
      obtain rfl := Option.some.inj h
      exact ⟨hs,.refl s,fun _ q hq => by omega⟩

/-- The size that `expand` settles on. -/
def expandSize (size : ℕ) : ℕ := if size % 2 = 1 then u32 (size / 0x1000 * 0x1000 + 0x1000) else size

theorem expand_eq : expand alloc size s =
    if ¬ sub32 s.endAddress s.startAddress < size then none
    else if ¬ u32 (s.startAddress + expandSize size) ≤ s.maxAddress then none
    else (expandFrom alloc (expandSize size) (2 ^ 20 + 1) (sub32 s.endAddress s.startAddress) s).bind fun t =>
      some { t with endAddress := u32 (t.startAddress + expandSize size) } := rfl

theorem Kept.endAddress (h : Kept s t) (e : ℕ) : Kept s { t with endAddress := e } :=
  ⟨h.kernelDirectory,h.startAddress,h.maxAddress,h.frame⟩

theorem Tabled.endAddress (h : Tabled s) (e : ℕ) : Tabled { s with endAddress := e } :=
  ⟨h.kheap,h.low,h.block,h.apart,h.backed⟩

theorem Tabled.holes (h : Tabled s) (l : List (Option ℕ)) : Tabled { s with holes := l } :=
  ⟨h.kheap,h.low,h.block,h.apart,h.backed⟩

theorem expand_handed (hA : Hands alloc) (hs : Tabled s) (h : expand alloc size s = some t) :
    Tabled t ∧ Kept s t ∧ t.endAddress = u32 (s.startAddress + expandSize size) ∧
      (expandSize size + 0x1000 ≤ 2 ^ 32 → ∀ q, sub32 s.endAddress s.startAddress + 0x1000 * q < expandSize size →
        HasFrame t (u32 (s.startAddress + (sub32 s.endAddress s.startAddress + 0x1000 * q)))) := by
  rw [expand_eq] at h
  by_cases h1 : ¬ sub32 s.endAddress s.startAddress < size
  · rw [if_pos h1] at h
    cases h
  rw [if_neg h1] at h
  by_cases h2 : ¬ u32 (s.startAddress + expandSize size) ≤ s.maxAddress
  · rw [if_pos h2] at h
    cases h
  rw [if_neg h2, Option.bind_eq_some_iff] at h
  obtain ⟨u,hu,h⟩ := h
  obtain rfl := Option.some.inj h
  obtain ⟨hT,hK,hf⟩ := expandFrom_handed hA _ _ hs hu
  refine ⟨hT.endAddress _,hK.endAddress _,?_,hf⟩
  rw [← hK.startAddress]

/-- The allocator keeps to what the functions it calls rely on. -/
theorem alloc_hands (n : ℕ) : Hands (Directories.alloc n) := by
  induction n with
  | zero =>
    intro size align s a t _ h
    cases h
  | succ n ih =>
    intro size align s a t hs h
    unfold Directories.alloc at h
    cases hh : s.holes with
    | nil =>
      rw [hh] at h
      cases h
    | cons hole holes =>
      rw [hh] at h
      cases hole with
      | some b =>
        dsimp only at h
        by_cases hf : Fresh s b size align
        · rw [if_pos hf] at h
          cases h
          obtain ⟨h1,h2,-,h4⟩ := hf
          unfold headerSize footerSize at *
          refine ⟨⟨hs.kheap,hs.low,fun i hi hne => ?_,hs.apart,hs.backed⟩,⟨rfl,rfl,rfl,fun _ _ h => h⟩,?_,List.mem_cons_self,
            fun i hi hne => ?_⟩
          · exact (hs.block i hi hne).imp id fun hm => List.mem_cons_of_mem _ hm
          · change s.startAddress ≤ a
            omega
          · change Apart (kernelTable s i) 0x1000 a size
            unfold Apart
            rcases hs.block i hi hne with hb | hb
            · omega
            · have := h4 _ hb
              unfold tableSize at this
              dsimp only at this
              omega
        · rw [if_neg hf] at h
          cases h
      | none =>
        dsimp only at h
        rw [Option.bind_eq_bind, Option.bind_eq_some_iff] at h
        obtain ⟨u,hu,h⟩ := h
        obtain ⟨hT,hK,-,-⟩ := expand_handed ih (hs.holes holes) hu
        have hK' : Kept s u := ⟨hK.kernelDirectory,hK.startAddress,hK.maxAddress,hK.frame⟩
        have hH := ih size align u a t hT h
        exact ⟨hH.tabled,hK'.trans hH.kept,hH.low,hH.live,hH.clear⟩

end Operations

/-! ## Sequences of expansions -/

/-- The smallest multiple of the page size from a size on. -/
def pageUp (size : ℕ) : ℕ := (size + 0xFFF) / 0x1000 * 0x1000

/-- A heap whose bounds are page boundaries and whose pages have frames. -/
structure PageAligned (s : Sys) : Prop where
  tabled : Tabled s
  start : s.startAddress % 0x1000 = 0
  end_ : s.endAddress % 0x1000 = 0
  order : s.startAddress ≤ s.endAddress
  max : s.maxAddress < 2 ^ 32
  frame : ∀ a, s.startAddress ≤ a → a < s.endAddress → HasFrame s a

/-- A call of `expand`, with the depth its allocations may reach and the holes they will find. -/
structure Expansion where
  size : ℕ
  depth : ℕ
  holes : List (Option ℕ)

/-- A call that returns, for a size that is below the limit when it is rounded. -/
def Expands (s : Sys) (c : Expansion) (t : Sys) : Prop :=
  s.startAddress + pageUp c.size ≤ s.maxAddress ∧ expand (alloc c.depth) c.size { s with holes := c.holes } = some t

/-- What `expand` promises: the end of the heap is the size asked for, rounded up to a page boundary, and every page up to
it has a frame. -/
structure Promised (size : ℕ) (t : Sys) : Prop where
  aligned : t.endAddress % 0x1000 = 0
  length : t.endAddress - t.startAddress = pageUp size
  frame : ∀ a, t.startAddress ≤ a → a < t.endAddress → HasFrame t a

/-- The size is odd, or it is a multiple of the page size already. -/
def Rounds (_ : Sys) (c : Expansion) : Prop := c.size % 2 = 1 ∨ c.size % 0x1000 = 0

theorem expandSize_eq (h : size % 2 = 1 ∨ size % 0x1000 = 0) (hlt : pageUp size < 2 ^ 32) : expandSize size = pageUp size := by
  unfold expandSize pageUp u32 at *
  split <;> omega

section Calls
variable {c : Expansion}

theorem Expands.endAddress (h : PageAligned s) (hx : Expands s c t) :
    t.startAddress = s.startAddress ∧ t.endAddress = u32 (s.startAddress + expandSize c.size) := by
  obtain ⟨-,hK,hend,-⟩ := expand_handed (alloc_hands c.depth) (h.tabled.holes c.holes) hx.2
  exact ⟨hK.startAddress,hend⟩

theorem Expands.promised (h : PageAligned s) (hx : Expands s c t) (hr : Rounds s c) : PageAligned t ∧ Promised c.size t := by
  obtain ⟨hT,hK,hend,hf⟩ := expand_handed (alloc_hands c.depth) (h.tabled.holes c.holes) hx.2
  change _ = u32 (s.startAddress + _) at hend
  have hlimit := hx.1
  have hmax := h.max
  have hlow := h.tabled.low
  have hstart := h.start
  have haligned := h.end_
  have horder := h.order
  unfold directorySize at hlow
  have hsize : expandSize c.size = pageUp c.size := expandSize_eq hr (by omega)
  have hmul : pageUp c.size % 0x1000 = 0 := Nat.mul_mod_left _ _
  generalize hnew : pageUp c.size = new at *
  have hlen : sub32 s.endAddress s.startAddress = s.endAddress - s.startAddress := sub32_of_le horder
  rw [hsize, u32_of_lt (hlimit.trans_lt hmax)] at hend
  have hst : t.startAddress = s.startAddress := hK.startAddress
  have hframe : ∀ a, t.startAddress ≤ a → a < t.endAddress → HasFrame t a := by
    intro a h1 h2
    rw [hst] at h1
    rw [hend] at h2
    by_cases hold : a < s.endAddress
    · exact hK.frame a (by omega) (h.frame a h1 hold)
    · -- the loop starts at a page boundary, so it comes to the page of the address
      have hpage := hf (by omega) ((a - s.endAddress) / 0x1000)
      rw [hsize] at hpage
      change sub32 s.endAddress s.startAddress + _ < _ → HasFrame t (u32 (s.startAddress + (sub32 s.endAddress s.startAddress + _))) at hpage
      rw [hlen] at hpage
      have hx := hpage (by omega)
      rw [u32_of_lt (by omega)] at hx
      exact (hasFrame_congr (by omega)).mp hx
  refine ⟨⟨hT,by omega,by omega,by omega,?_,hframe⟩,⟨by omega,by rw [hnew]; omega,hframe⟩⟩
  rw [hK.maxAddress]
  exact hmax

end Calls

/-! ## A heap with frames -/

/-- The heap that the kernel boots with: one page table, whose entries all have frames. -/
def bootPages : Sys where
  frames _ := BitVec.allOnes 32
  nframes := 0x1000
  table _ j := ⟨true,true,false,false,false,BitVec.ofNat 20 (j + 1)⟩
  dir _ := ⟨fun i => if i = 768 then 0x300000 else 0,fun _ => 0,0⟩
  mem _ := 0
  kernelDirectory := 0x200000
  currentDirectory := 0x200000
  placementAddress := 0x400000
  kheap := true
  startAddress := 0xC0080000
  endAddress := 0xC0100000
  maxAddress := 0xCFFFF000
  tasks := []
  live := []
  data := []
  holes := []
  junk := 0

theorem bootPages_bit (f : ℕ) : Frames.bit bootPages.frames f = true := by
  unfold Frames.bit bootPages
  dsimp only
  rw [BitVec.getLsbD_allOnes]
  exact decide_eq_true (Nat.mod_lt _ (by decide))

theorem bootPages_pageAligned : PageAligned bootPages := by
  have htable {i : ℕ} (hne : kernelTable bootPages i ≠ 0) : i = 768 := by
    by_contra hc
    exact hne (if_neg hc)
  refine ⟨⟨rfl,by decide,fun i _ hne => ?_,fun i _ j _ hij h1 h2 => ?_,fun i _ _ j _ _ => ⟨rfl,bootPages_bit _⟩⟩,rfl,rfl,by decide,
    by decide,fun a h1 h2 => hasFrame_iff.mpr ⟨?_,rfl,bootPages_bit _⟩⟩
  · rw [htable hne]
    exact .inl (by decide)
  · exact absurd ((htable h1).trans (htable h2).symm) hij
  · change 0xC0080000 ≤ a at h1
    change a < 0xC0100000 at h2
    rw [show a / 0x1000 / 1024 = 768 by omega]
    decide

/-- One page more. -/
def onePage : Sys := (expand (alloc 0) 0x81000 bootPages).get (by decide +kernel)

theorem onePage_expands : Expands bootPages ⟨0x81000,0,[]⟩ onePage := ⟨by decide,by simp [onePage]; rfl⟩

/-- A hundred bytes more, with room for their header and footer. -/
def someBytes : Sys := (expand (alloc 0) 0x80078 bootPages).get (by decide +kernel)

end X86OsDev.Tutorial.Directories
