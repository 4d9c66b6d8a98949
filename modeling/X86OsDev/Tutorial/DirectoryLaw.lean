import X86OsDev.Tutorial.DirectoryClone
import X86OsDev.Tutorial.DirectoryBoot

/-! # The kernel heap in every address space

Between calls a directory in use either has no table for a part of the heap, or
has the kernel's. The table of the first 4 MB was there before any clone, so
that part is shared by all; a table that `expand` adds is in no other directory.
-/
namespace X86OsDev.Tutorial.Directories
open Memory Transition
open Frames (Bits allocFrame)

variable {s t u : Sys} {a d i n size address : ℕ}

/-- The current directory and those the tasks were made with have the kernel's tables. -/
structure Inv (s : Sys) : Prop where
  well : Well s
  current : Linked s s.currentDirectory ∧ s.currentDirectory ∉ s.data
  tasks : ∀ p ∈ s.tasks, Linked s p.2 ∧ p.2 ∉ s.data

theorem Well.not_data (h : Well s) (hd : ∀ size, (d,size) ∉ s.live) : d ∉ s.data := by
  intro hm
  obtain ⟨size,hlive⟩ := h.data d hm
  exact hd size hlive

theorem Inv.good (h : Inv s) (hG : Good s t) : Inv t := by
  refine ⟨hG.1,?_,?_⟩
  · rw [hG.2.currentDirectory, hG.2.data]
    exact ⟨hG.2.linked h.current.1,h.current.2⟩
  · rw [hG.2.tasks, hG.2.data]
    exact fun p hp => ⟨hG.2.linked (h.tasks p hp).1,(h.tasks p hp).2⟩

/-- The first table of the heap is the same in the kernel directory and in one in use. -/
theorem Linked.first_eq (h : Linked s d) : entry s d 768 = entry s s.kernelDirectory 768 :=
  (h.half 768 ⟨le_rfl,by decide⟩).resolve_left h.first

theorem Inv.kernel_first (h : Inv s) : (s.dir s.kernelDirectory).tables 768 ≠ 0 := by
  rw [show (s.dir s.kernelDirectory).tables 768 = (s.dir s.currentDirectory).tables 768 from
    (congrArg Prod.fst h.current.1.first_eq).symm]
  exact h.current.1.first

theorem Inv.source (h : Inv s) : Source s s.currentDirectory := .inr h.current.1

theorem Start.inv (h : Start s) : Inv s := by
  obtain ⟨boot,depth,hk,hp,ht,hl,hd,h⟩ := h
  obtain ⟨u,hu,hW,hfirst,-,htasks,-,hdata,-⟩ := bootHeap_spec (alloc depth) hk hp hl hd
  rw [initialisePaging, hu, Option.bind_eq_bind, Option.bind_some, Option.bind_eq_bind,
    Option.bind_eq_some_iff] at h
  obtain ⟨⟨d,v⟩,hv,h⟩ := h
  obtain rfl := Option.some_inj.mp h
  obtain ⟨hG,hL,hnew⟩ := cloneDirectory_spec (alloc_sound depth) hW (.inl ⟨rfl,hfirst⟩) hv
  have hL' : Linked { v with currentDirectory := d } d := ⟨hL.live,hL.align,hL.half,hL.first⟩
  refine ⟨⟨hG.1.kheap,hG.1.start,hG.1.kernel,hG.1.live,hG.1.data⟩,⟨hL',?_⟩,?_⟩
  · show d ∉ v.data
    rw [hG.2.data, hdata]
    exact List.not_mem_nil
  · show ∀ p ∈ v.tasks, _
    rw [hG.2.tasks, htasks, ht]
    exact fun p hp => absurd hp List.not_mem_nil

section Calls
variable {alloc : Alloc}

/-- A task made with a directory that has the kernel's tables. -/
theorem makeTask_inv (hA : Sound alloc) (h : Inv s) (hd : Linked s d) (hdata : d ∉ s.data)
    (hm : makeTask alloc d s = some t) : Inv t := by
  unfold makeTask at hm
  rw [Option.bind_eq_bind, Option.bind_eq_some_iff] at hm
  obtain ⟨⟨a,u⟩,hu,hm⟩ := hm
  dsimp only [Option.bind_eq_bind] at hm
  rw [Option.bind_eq_some_iff] at hm
  obtain ⟨⟨b,v⟩,hv,hm⟩ := hm
  obtain rfl := Option.some_inj.mp hm
  have hG := (kmallocInt_good hA h.well hu).1
  have hI := h.good hG
  have hlink : ∀ e, Linked u e → Linked { u with
      mem := store32 u.mem (a + taskDirectory) d, tasks := u.tasks ++ [(a,d)] } e :=
    fun e he => ⟨he.live,he.align,he.half,he.first⟩
  have hI' : Inv { u with
      mem := store32 u.mem (a + taskDirectory) d, tasks := u.tasks ++ [(a,d)] } := by
    refine ⟨⟨hI.well.kheap,hI.well.start,hI.well.kernel,hI.well.live,hI.well.data⟩,
      ⟨hlink _ hI.current.1,hI.current.2⟩,?_⟩
    intro p hp
    rcases List.mem_append.mp hp with hp | hp
    · exact ⟨hlink _ (hI.tasks p hp).1,(hI.tasks p hp).2⟩
    · rw [List.mem_singleton.mp hp]
      refine ⟨hlink _ (hG.2.linked hd),?_⟩
      show d ∉ u.data
      rw [hG.2.data]
      exact hdata
  exact hI'.good (kmallocInt_good hA hI'.well hv).1

/-- The stack is far from the heap. -/
theorem stackPages_good (hA : Sound alloc) {l : List ℕ}
    (hl : ∀ a ∈ l, ¬ InHeap (a / 0x1000 / 1024)) (hs : Well s)
    (h : l.foldlM (fun s a => allocPage alloc 0 1 s.currentDirectory s a) s = some t) :
    Good s t := by
  induction l generalizing s with
  | nil => exact Option.some_inj.mp h ▸ ⟨hs,.refl s⟩
  | cons a l ih =>
    rw [List.foldlM_cons, Option.bind_eq_bind, Option.bind_eq_some_iff] at h
    obtain ⟨u,hu,h⟩ := h
    have hG := allocPage_good hA hs (.inr (hl a List.mem_cons_self)) hu
    exact hG.trans (ih (fun b hb => hl b (List.mem_cons_of_mem _ hb)) hG.1 h)

theorem kfree_inv (h : Inv s) {newSize : Option ℕ} (hf : kfree a newSize s = some t) : Inv t := by
  unfold kfree at hf
  by_cases ha : a ∉ s.data
  · rw [if_pos ha] at hf
    cases hf
  rw [if_neg ha] at hf
  have hW := h.well
  have hlink : ∀ d, Linked s d ∧ d ∉ s.data → Linked { s with
      live := s.live.filter (·.1 ≠ a), data := s.data.filter (· ≠ a) } d ∧
      d ∉ s.data.filter (· ≠ a) := by
    rintro d ⟨hd,hnot⟩
    have hne : d ≠ a := by
      rintro rfl
      exact ha hnot
    refine ⟨⟨List.mem_filter.mpr ⟨hd.live,by simpa using hne⟩,hd.align,hd.half,hd.first⟩,?_⟩
    exact fun hm => hnot (List.mem_filter.mp hm).1
  have hI : Inv { s with
      live := s.live.filter (·.1 ≠ a), data := s.data.filter (· ≠ a) } := by
    refine ⟨⟨hW.kheap,hW.start,hW.kernel,?_,?_⟩,hlink _ h.current,fun p hp => hlink _ (h.tasks p hp)⟩
    · exact fun b hb => hW.live b (List.mem_filter.mp hb).1
    · intro b hb
      obtain ⟨hb,hne⟩ := List.mem_filter.mp hb
      obtain ⟨size,hlive⟩ := hW.data b hb
      exact ⟨size,List.mem_filter.mpr ⟨hlive,hne⟩⟩
  cases newSize with
  | none => exact Option.some_inj.mp hf ▸ hI
  | some newSize => exact hI.good (contract_good hI.well hf)

/-- A call from a state with intact task structures keeps the invariant. -/
theorem act_inv (hA : Sound alloc) (h : Inv s) (hi : Intact s) (c : Act)
    (hc : act alloc s c = some t) : Inv t := by
  cases c with
  | cloneDirectory src =>
    simp only [act] at hc
    split_ifs at hc with hsrc
    rw [Option.map_eq_some_iff] at hc
    obtain ⟨⟨d,u⟩,hu,rfl⟩ := hc
    have hS : Source s src := by
      rcases hsrc with rfl | rfl | hm
      · exact .inl ⟨rfl,h.kernel_first⟩
      · exact h.source
      · obtain ⟨p,hp,rfl⟩ := List.mem_map.mp hm
        exact .inr (h.tasks p hp).1
    exact h.good (cloneDirectory_spec hA h.well hS hu).1
  | initialiseTasking =>
    change initialiseTasking alloc s = some t at hc
    unfold initialiseTasking at hc
    split_ifs at hc
    rw [Option.bind_eq_bind, Option.bind_eq_some_iff] at hc
    obtain ⟨u,hu,hc⟩ := hc
    have hG := stackPages_good hA (by simp [stackPages, InHeap]) h.well hu
    have hI := h.good hG
    exact makeTask_inv hA hI hI.current.1 hI.current.2 hc
  | fork =>
    change fork alloc s = some t at hc
    unfold fork at hc
    split_ifs at hc
    rw [Option.bind_eq_bind, Option.bind_eq_some_iff] at hc
    obtain ⟨⟨d,u⟩,hu,hc⟩ := hc
    obtain ⟨hG,hL,hnew⟩ := cloneDirectory_spec hA h.well h.source hu
    refine makeTask_inv hA (h.good hG) hL ?_ hc
    rw [hG.2.data]
    exact h.well.not_data hnew
  | switchTask k =>
    change switchTask k s = some t at hc
    unfold switchTask at hc
    rw [Option.bind_eq_bind, Option.bind_eq_some_iff] at hc
    obtain ⟨p,hp,hc⟩ := hc
    obtain rfl := Option.some_inj.mp hc
    have hmem := List.mem_of_getElem? hp
    obtain ⟨hL,hnot⟩ := h.tasks p hmem
    have hW := h.well
    refine ⟨⟨hW.kheap,hW.start,hW.kernel,hW.live,hW.data⟩,?_,?_⟩
    · show Linked _ (load32 s.mem (p.1 + taskDirectory)) ∧ load32 s.mem (p.1 + taskDirectory) ∉ _
      rw [hi p hmem]
      exact ⟨⟨hL.live,hL.align,hL.half,hL.first⟩,hnot⟩
    · intro q hq
      obtain ⟨hL,hnot⟩ := h.tasks q hq
      exact ⟨⟨hL.live,hL.align,hL.half,hL.first⟩,hnot⟩
  | kmalloc size align =>
    change kmalloc alloc size align s = some t at hc
    unfold kmalloc at hc
    rw [Option.bind_eq_bind, Option.bind_eq_some_iff] at hc
    obtain ⟨⟨a,u⟩,hu,hc⟩ := hc
    obtain rfl := Option.some_inj.mp hc
    obtain ⟨hG,hB,-⟩ := kmallocInt_good hA h.well hu
    have hI := h.good hG
    have hnew : ∀ d, Linked s d → d ∉ u.data → d ∉ a :: u.data := by
      intro d hd hnot hm
      rcases List.mem_cons.mp hm with rfl | hm
      · exact hB.not_live _ hd.live
      · exact hnot hm
    refine ⟨⟨hI.well.kheap,hI.well.start,hI.well.kernel,hI.well.live,?_⟩,?_,?_⟩
    · intro b hb
      rcases List.mem_cons.mp hb with rfl | hb
      · exact ⟨size,hB.live⟩
      · exact hI.well.data b hb
    · obtain ⟨hL,hnot⟩ := hI.current
      refine ⟨⟨hL.live,hL.align,hL.half,hL.first⟩,hnew _ ?_ hnot⟩
      show Linked s u.currentDirectory
      rw [hG.2.currentDirectory]
      exact h.current.1
    · intro p hp
      obtain ⟨hL,hnot⟩ := hI.tasks p hp
      refine ⟨⟨hL.live,hL.align,hL.half,hL.first⟩,hnew _ ?_ hnot⟩
      have hp' : p ∈ u.tasks := hp
      rw [hG.2.tasks] at hp'
      exact (h.tasks p hp').1
  | kfree a newSize => exact kfree_inv h hc

end Calls

theorem translate_eq_none (h : (s.dir d).tables (address / 0x1000 / 1024) = 0) :
    translate s d address = none := by
  simp [translate, findPage, h]

/-- Where a directory has the kernel's table, it maps as the kernel's does. -/
theorem translate_congr {e : ℕ} (h : (s.dir d).tables (address / 0x1000 / 1024) =
    (s.dir e).tables (address / 0x1000 / 1024)) : translate s d address = translate s e address := by
  simp only [translate, findPage, h]

theorem Reachable.inv (h : Reachable Start (Guarded (fun s _ => Intact s) (OfFun step)) s) :
    Inv s := by
  refine h.invariant (fun _ hs => hs.inv) ?_
  rintro s c t hs ⟨hi,hc⟩
  have hs' : Inv { s with holes := c.holes } :=
    hs.good (Good.congr ⟨hs.well,.refl s⟩ rfl rfl rfl rfl rfl rfl rfl rfl)
  exact act_inv (alloc_sound c.depth) hs' hi c.act hc

theorem Used.linked (h : Inv s) (hi : Intact s) (hd : Used s d) : Linked s d := by
  rcases hd with rfl | ⟨p,hp,rfl⟩
  · exact h.current.1
  · rw [hi p hp]
    exact (h.tasks p hp).1

section Growth

/-- Pages whose table is there cost `expand` only frames. -/
theorem expandFrom_mapped (alloc : Alloc) (newSize m n i : ℕ) (hend : i + m * 0x1000 ≤ newSize)
    (hlt : newSize < 2 ^ 31)
    (hmap : ∀ k < m, (s.dir s.kernelDirectory).tables
      (u32 (s.startAddress + (i + k * 0x1000)) / 0x1000 / 1024) ≠ 0) :
    ∃ frames table, expandFrom alloc newSize (n + m) i s =
      expandFrom alloc newSize n (i + m * 0x1000) { s with frames := frames, table := table } := by
  induction m generalizing i s with
  | zero => exact ⟨s.frames,s.table,by simp⟩
  | succ m ih =>
    have h0 := hmap 0 (Nat.succ_pos m)
    rw [Nat.zero_mul, Nat.add_zero] at h0
    have hi : i < newSize := by omega
    obtain ⟨frames,table,ht⟩ : ∃ frames table, allocPage alloc 0 1 s.kernelDirectory s
        (u32 (s.startAddress + i)) = some { s with frames := frames, table := table } := by
      unfold allocPage getPage findPage
      dsimp only
      rw [if_pos h0]
      exact ⟨_,_,rfl⟩
    have hnext : u32 (i + 0x1000) = i + 0x1000 := u32_of_lt (by omega)
    obtain ⟨frames',table',hrest⟩ := ih (s := { s with frames := frames, table := table })
      (i + 0x1000) (by omega) (fun k hk => by
        have := hmap (k + 1) (by omega)
        rw [show i + (k + 1) * 0x1000 = i + 0x1000 + k * 0x1000 by omega] at this
        exact this)
    refine ⟨frames',table',?_⟩
    rw [← Nat.add_assoc, expandFrom, if_pos hi, ht, Option.bind_eq_bind, Option.bind_some, hnext,
      hrest, show i + 0x1000 + m * 0x1000 = i + (m + 1) * 0x1000 by omega]

/-- The clone of the kernel directory shares every table. -/
theorem cloneKernel_returns (alloc : Alloc) (l : List ℕ) (hd : d ≠ s.kernelDirectory) :
    ∃ dir, l.foldlM (cloneEntry alloc s.kernelDirectory d) s = some { s with dir := dir } ∧
      dir s.kernelDirectory = s.dir s.kernelDirectory := by
  induction l generalizing s with
  | nil => exact ⟨s.dir,rfl,rfl⟩
  | cons i l ih =>
    obtain ⟨dir,he,hk⟩ : ∃ dir, cloneEntry alloc s.kernelDirectory d s i =
        some { s with dir := dir } ∧ dir s.kernelDirectory = s.dir s.kernelDirectory := by
      unfold cloneEntry
      dsimp only
      by_cases hz : (s.dir s.kernelDirectory).tables i = 0
      · rw [if_pos hz]
        exact ⟨s.dir,rfl,rfl⟩
      · rw [if_neg hz, if_pos rfl]
        exact ⟨_,rfl,by simp [setTable, hd.symm]⟩
    obtain ⟨dir',hl,hk'⟩ := ih (s := { s with dir := dir }) hd
    refine ⟨dir',?_,hk'.trans hk⟩
    rw [List.foldlM_cons, he, Option.bind_eq_bind, Option.bind_some]
    exact hl

theorem allocFrame_present {frames : Bits} {nframes : ℕ} {page : Page} {k w : ℤ} {junk : BitVec 32}
    (h : page.frame = 0) : (allocFrame frames nframes page k w junk).2.present = true := by
  simp [allocFrame, h]

end Growth

/-- A kernel with its ramdisk up to 0x120000, and the hole that the first directory will get. -/
def bootSys : Sys :=
  { frames := fun _ => 0, nframes := 0, table := fun _ _ => .blank, dir := fun _ => ⟨fun _ => 0,fun _ => 0,0⟩,
    mem := fun _ => 0, kernelDirectory := 0, currentDirectory := 0, placementAddress := 0x120000,
    kheap := false, startAddress := 0, endAddress := 0, maxAddress := 0, tasks := [], live := [],
    data := [], holes := [some 0xC0081000], junk := 0 }

/-- A block that was found in a hole. -/
theorem alloc_hole {size : ℕ} {align : Bool} {holes : List (Option ℕ)} (n : ℕ)
    (hh : s.holes = some a :: holes) (hf : Fresh s a size align) :
    alloc (n + 1) size align s =
      some (a,{ s with holes := holes, live := (a,size) :: s.live }) := by
  unfold alloc
  rw [hh]
  exact if_pos hf

/-- Its physical address is found through the kernel directory. -/
theorem kmallocAp_hole {size : ℕ} {holes : List (Option ℕ)} (n : ℕ) (hk : s.kheap = true)
    (hh : s.holes = some a :: holes) (hf : Fresh s a size true)
    (ht : (s.dir s.kernelDirectory).tables (a / 0x1000 / 1024) ≠ 0) :
    ∃ phys, kmallocAp (alloc (n + 1)) size s =
      some (a,phys,{ s with holes := holes, live := (a,size) :: s.live }) := by
  unfold kmallocAp kmallocInt
  rw [if_pos hk, alloc_hole n hh hf]
  simp [findPage, ht, hk]

/-- After the boot the heap has one table. -/
theorem boot_returns : ∃ s, Start s ∧ Inv s ∧ s.tasks = [] ∧
    s.live = [(0xC0081000,directorySize)] ∧ s.endAddress = 0xC0100000 ∧
    s.maxAddress = 0xCFFFF000 ∧ (s.dir s.kernelDirectory).tables 769 = 0 := by
  obtain ⟨t,ht,hW,hfirst,hrest,htasks,hlive,-,hholes,hend,hmax⟩ :=
    bootHeap_spec (s := bootSys) (alloc 1) rfl (by decide) rfl rfl
  have hfresh : Fresh t 0xC0081000 directorySize true := by
    refine ⟨?_,?_,fun _ => by decide,?_⟩
    · rw [hW.start]
      decide
    · rw [hend]
      decide
    · rw [hlive]
      exact fun b hb => absurd hb List.not_mem_nil
  obtain ⟨phys,hphys⟩ := kmallocAp_hole 0 hW.kheap hholes hfresh hfirst
  have hne : 0xC0081000 ≠ t.kernelDirectory := by
    have h1 := hW.kernel
    have h2 := hW.start
    unfold directorySize at h1
    omega
  set u : Sys := memset { t with holes := [], live := (0xC0081000,directorySize) :: t.live }
    0xC0081000 directorySize with hu
  obtain ⟨dir,hl,hk⟩ := cloneKernel_returns (s := setPhysicalAddr u 0xC0081000 (phys + 0x1000))
    (alloc 1) (List.range 1024) hne
  have hclone : cloneDirectory (alloc 1) t.kernelDirectory t =
      some (0xC0081000,{ u with dir := dir }) := by
    unfold cloneDirectory
    rw [hphys, Option.bind_eq_bind, Option.bind_some]
    dsimp only
    rw [← hu, Option.bind_eq_bind, show t.kernelDirectory = (setPhysicalAddr u 0xC0081000
      (phys + 0x1000)).kernelDirectory from rfl, hl, Option.bind_some]
    rfl
  have hpaging : initialisePaging (alloc 1) bootSys =
      some { u with dir := dir, currentDirectory := 0xC0081000 } := by
    rw [initialisePaging, ht, Option.bind_eq_bind, Option.bind_some, hclone, Option.bind_eq_bind,
      Option.bind_some]
  have hstart : Start { u with dir := dir, currentDirectory := 0xC0081000 } :=
    ⟨bootSys,1,rfl,by decide,rfl,rfl,rfl,hpaging⟩
  refine ⟨_,hstart,hstart.inv,htasks,by rw [hu]; simp [memset, hlive],hend,hmax,?_⟩
  show (dir t.kernelDirectory).tables 769 = 0
  rw [show dir t.kernelDirectory = _ from hk]
  show ((setPhysicalAddr u 0xC0081000 (phys + 0x1000)).dir t.kernelDirectory).tables 769 = 0
  simp only [setPhysicalAddr, Function.update_of_ne hne.symm, hu]
  have h769 := hrest 769 (by decide) (by decide) (by decide)
  simp [memset, h769]

/-- The last page of an `expand` that needs a new table: the table is in the kernel directory
alone, and its page is mapped. -/
theorem allocPage_newTable {holes : List (Option ℕ)} (n address : ℕ) (hs : Well s)
    (hh : s.holes = some a :: holes) (hf : Fresh s a tableSize true)
    (hfirst : (s.dir s.kernelDirectory).tables (a / 0x1000 / 1024) ≠ 0) (hlt : address < 2 ^ 32)
    (hnew : (s.dir s.kernelDirectory).tables (address / 0x1000 / 1024) = 0) :
    ∃ t, allocPage (alloc (n + 1)) 0 1 s.kernelDirectory s address = some t ∧
      t.holes = holes ∧ t.live = (a,tableSize) :: s.live ∧ t.kernelDirectory = s.kernelDirectory ∧
      t.startAddress = s.startAddress ∧ (translate t t.kernelDirectory address).isSome := by
  obtain ⟨phys,hphys⟩ := kmallocAp_hole n hs.kheap hh hf hfirst
  have hlow : s.kernelDirectory + directorySize ≤ a := by
    have h1 := hs.kernel
    have h2 := hf.1
    omega
  set i := address / 0x1000 / 1024 with hidx
  set u : Sys := { s with holes := holes, live := (a,tableSize) :: s.live } with hu
  set v := setPhysical (memset (setTable u s.kernelDirectory i a) a 0x1000) s.kernelDirectory i
    (phys ||| 0x7) with hv
  have hrun : allocPage (alloc (n + 1)) 0 1 s.kernelDirectory s address =
      some (allocFrameAt v (a,address / 0x1000 % 1024) 0 1) := by
    unfold allocPage getPage findPage
    dsimp only
    rw [if_neg (not_not.mpr hnew)]
    dsimp only
    rw [hphys]
    rfl
  refine ⟨_,hrun,rfl,rfl,rfl,rfl,?_⟩
  -- the new entry survives the clearing of the new table, and the cleared page gets a frame
  have hentry : ((allocFrameAt v (a,address / 0x1000 % 1024) 0 1).dir s.kernelDirectory).tables i =
      a := by
    unfold directorySize at hlow
    have hkeep : ¬ (a ≤ s.kernelDirectory + 4 * i ∧ s.kernelDirectory + 4 * i < a + 0x1000) := by
      omega
    simp [allocFrameAt, setPage, hv, setPhysical, memset, setTable, hkeep]
  have hpage : v.table a (address / 0x1000 % 1024) = .blank := by
    have hin : 4 * (address / 0x1000 % 1024) < 0x1000 := by omega
    simp [hv, setPhysical, memset, setTable, hin]
  have hpos : a ≠ 0 := by
    unfold directorySize at hlow
    omega
  show (translate (allocFrameAt v (a,address / 0x1000 % 1024) 0 1) s.kernelDirectory address).isSome
  unfold translate findPage
  dsimp only
  rw [← hidx, hentry, if_pos hpos]
  have hpresent : (allocFrame v.frames v.nframes (v.table a (address / 0x1000 % 1024)) 0 1 v.junk).2.present
      = true := allocFrame_present (by rw [hpage]; rfl)
  simp [allocFrameAt, setPage, hpresent]

/-- The `expand` of a request of 3 MB right after the boot. -/
theorem expand_past_first_table (hI : Inv s) (hlive : s.live = [(0xC0081000,directorySize)])
    (hend : s.endAddress = 0xC0100000) (hmax : s.maxAddress = 0xCFFFF000)
    (h769 : (s.dir s.kernelDirectory).tables 769 = 0)
    (hholes : s.holes = [some 0xC0084000,some 0xC0085014]) :
    ∃ t, expand (alloc 2) 0x380014 s = some t ∧ t.holes = [some 0xC0085014] ∧
      t.live = [(0xC0084000,tableSize),(0xC0081000,directorySize)] ∧
      t.startAddress = 0xC0080000 ∧ t.endAddress = 0xC0400014 ∧
      (translate t t.kernelDirectory 0xC0400000).isSome := by
  have hW := hI.well
  have hstart := hW.start
  -- the pages below 0xC0400000 use the table that is there
  obtain ⟨frames,table,hloop⟩ := expandFrom_mapped (s := s) (alloc 2) 0x380014 768
    (2 ^ 20 - 767) 0x80000 (by decide) (by decide) (by
      intro k hk
      have hidx : u32 (s.startAddress + (0x80000 + k * 0x1000)) / 0x1000 / 1024 = 768 := by
        rw [hstart, u32_of_lt (by omega)]
        omega
      rw [hidx]
      exact hI.kernel_first)
  have hW' : Well { s with frames := frames, table := table } :=
    ⟨hW.kheap,hW.start,hW.kernel,hW.live,hW.data⟩
  have hfresh : Fresh { s with frames := frames, table := table } 0xC0084000 tableSize true := by
    refine ⟨?_,?_,fun _ => by decide,?_⟩
    · show s.startAddress + headerSize ≤ _
      rw [hstart]
      decide
    · show _ ≤ s.endAddress
      rw [hend]
      decide
    · show ∀ b ∈ s.live, _
      rw [hlive]
      intro b hb
      rw [List.mem_singleton.mp hb]
      exact .inr (by decide)
  obtain ⟨t,ht,hh,hl,hk,hs,htr⟩ := allocPage_newTable 1 0xC0400000 hW' hholes hfresh
    hI.kernel_first (by decide) h769
  have hlast : expandFrom (alloc 2) 0x380014 (2 ^ 20 - 767) (0x80000 + 768 * 0x1000)
      { s with frames := frames, table := table } = some t := by
    rw [show 2 ^ 20 - 767 = (2 ^ 20 - 769) + 1 + 1 by decide, expandFrom, if_pos (by decide)]
    rw [show u32 (s.startAddress + (0x80000 + 768 * 0x1000)) = 0xC0400000 by
      rw [hstart]; rfl, ht, Option.bind_eq_bind, Option.bind_some, expandFrom]
    exact if_neg (by decide)
  refine ⟨{ t with endAddress := 0xC0400014 },?_,hh,hl.trans (by rw [← hlive]),hs.trans hstart,rfl,htr⟩
  unfold expand
  have hold : sub32 s.endAddress s.startAddress = 0x80000 := by
    rw [hend, hstart]
    rfl
  have hu : u32 (s.startAddress + 0x380014) = 0xC0400014 := by
    rw [hstart]
    rfl
  dsimp only
  rw [hold, if_neg (by decide), if_neg (by decide : ¬ 0x380014 % 2 = 1), hu, hmax, if_neg (by decide),
    show 2 ^ 20 + 1 = 2 ^ 20 - 767 + 768 by decide, hloop, hlast, Option.bind_eq_bind,
    Option.bind_some, show u32 (t.startAddress + 0x380014) = 0xC0400014 by rw [hs]; exact hu]

end X86OsDev.Tutorial.Directories
