import X86OsDev.Lib.Fuel
import X86OsDev.Tutorial.PagingAlloc

/-! # A new page table

The memory that `kmalloc_ap` hands out becomes a page table of one directory. All
other entries of the directories stay, but for the pages that the heap gained on the
way, which had no frame.
-/
namespace X86OsDev.Tutorial.Paging
open Memory Fuel
open Frames (Bits)

namespace Kernel
variable {s t u : Kernel} {dirs : List ℕ} {live live' : List (ℕ × ℕ)}

/-! ## More fuel, the same results -/

section Fuel
variable {A B : Alloc}

theorem kmallocAp_below (h : ∀ sz al s, Below (A sz al s) (B sz al s)) (sz : ℕ) (s : Kernel) :
    Below (kmallocAp A sz s) (kmallocAp B sz s) := by
  unfold kmallocAp kmallocInt
  split
  · exact (h sz true s).bind fun r => .refl _
  · exact .refl _

theorem getPage_below (h : ∀ sz al s, Below (A sz al s) (B sz al s)) (a d : ℕ) (s : Kernel) :
    Below (getPage A a d s) (getPage B a d s) := by
  unfold getPage
  split
  · exact .refl _
  · exact (kmallocAp_below h _ s).bind fun r => .refl _

theorem expand_below (h : ∀ sz al s, Below (A sz al s) (B sz al s)) (n : ℕ) (s : Kernel) :
    Below (expand A n s) (expand B n s) := by
  have hpage : ∀ (t : Kernel) p, Below (expandPage A t p) (expandPage B t p) := fun t p =>
    (getPage_below h p _ t).bind fun r => .refl _
  unfold expand
  split
  · exact .refl _
  · dsimp only
    split
    · exact .refl _
    · exact (Below.foldlM hpage _ s).bind fun r => .refl _

theorem alloc_below (n sz : ℕ) (al : Bool) (s : Kernel) : Below (alloc n sz al s) (alloc (n + 1) sz al s) := by
  induction n generalizing sz al s with
  | zero => exact .none _
  | succ n ih =>
    rw [alloc, alloc]
    dsimp only
    split
    · exact (expand_below ih _ s).bind fun t => ih _ _ _
    · exact .refl _

theorem getPage_alloc_below (a d n : ℕ) (s : Kernel) : Below (getPage (alloc n) a d s) (getPage (alloc (n + 1)) a d s) :=
  getPage_below (fun sz al s => alloc_below n sz al s) a d s

end Fuel

/-! ## The block of the table -/

/-- A page that the heap gains in a call: its entry had no frame. -/
def Gains (s : Kernel) (q : ℕ) : Prop :=
  s.kheap = true ∧ s.heap.findSmallestHole tableRequest true = none ∧
  ∃ p ∈ newPages s.heap, s.findPage p s.kernelDirectory = some q ∧ (s.page q).frame = 0

/-- Where the page of a block behind a hole at `pos` starts. -/
def blockOf (pos : ℕ) : ℕ := pos + frontSize pos + 12

/-- The memory for a page table can be handed out: there is room below the heap before the heap is there,
the hole that is found splits and its page is mapped, or the last hole grows to one that does. -/
structure Serves (s : Kernel) : Prop where
  boot : s.kheap = false → 0x1000 ≤ s.placementAddress ∧ pageDown s.placementAddress + 0x2000 ≤ 0xC0000000
  hole : s.kheap = true → ∀ i pos, s.heap.findSmallestHole tableRequest true = some i → s.heap.index.slot s.heap.mem i = pos →
    Splits s.heap pos (sizeOf s.heap.mem pos) 0x1000 ∧ s.physical (blockOf pos) ≠ none
  grown : s.kheap = true → s.heap.findSmallestHole tableRequest true = none →
    s.heap.startAddress + grownSize s.heap ≤ s.heap.maxAddress ∧ EndsInHole s.heap ∧ s.heap.index.size < 0x20000 ∧
    Splits s.heap (lastHole s.heap) (s.heap.startAddress + grownSize s.heap - lastHole s.heap) 0x1000 ∧
    (blockOf (lastHole s.heap) < pageDown s.heap.endAddress → s.physical (blockOf (lastHole s.heap)) ≠ none)

/-- When the heap has to grow for a page table, the new pages have page tables. -/
def Tabled (s : Kernel) : Prop :=
  s.kheap = true → s.heap.findSmallestHole tableRequest true = none →
    ∀ p ∈ newPages s.heap, s.findPage p s.kernelDirectory ≠ none

/-- The block at `a` is free memory that is now handed out, and memory that was handed out before is as it was
but for entries of pages that the heap gained. -/
structure Handed (s t : Kernel) (dirs : List ℕ) (live live' : List (ℕ × ℕ)) (a phys : ℕ) : Prop where
  sane : Sane t dirs live'
  grows : ∀ x, s.Owns live x → t.Owns live' x
  owned : t.Owned live' a 0x1000
  fresh : ∀ x, a ≤ x → x < a + 0x1000 → ¬ s.Owns live x
  aligned : a % 0x1000 = 0
  pos : 0 < a
  bound : a + 0x1000 < 2 ^ 32
  kernelDirectory : t.kernelDirectory = s.kernelDirectory
  entry : ∀ x, s.Owns live x → t.heap.mem x ≠ s.heap.mem x → ∃ q, s.Gains q ∧ q ≤ x ∧ x < q + 4
  physical : t.physical a = some phys
  frame : phys % 0x1000 = 0 ∧ phys < 2 ^ 32

theorem physical_of_kheap (hk : s.kheap = true) (a : ℕ) : s.physical a = (s.findPage a s.kernelDirectory).bind fun p =>
    if (s.page p).present then some ((s.page p).frame.toNat * 0x1000 + a % 0x1000) else none := if_pos hk

theorem physical_ne_none (hk : s.kheap = true) {a : ℕ} (h : s.physical a ≠ none) :
    ∃ q, s.findPage a s.kernelDirectory = some q ∧ (s.page q).present = true := by
  rw [physical_of_kheap hk] at h
  cases hq : s.findPage a s.kernelDirectory with
  | none =>
    rw [hq] at h
    exact absurd rfl h
  | some q =>
    refine ⟨q,rfl,?_⟩
    by_contra hp
    rw [hq, Option.bind_some, if_neg hp] at h
    exact h rfl

/-- `kmalloc_ap` with a block of the heap whose page is mapped. -/
theorem Cut.mapped {s1 : Kernel} {a q fuel : ℕ} (hcut : Cut s1 t dirs live a) (hk : s.kheap = true) (hs1 : Sane s1 dirs live)
    (hk1 : s1.kheap = true) (hcall : alloc fuel 0x1000 true s = some (t,a))
    (hq : s1.findPage a s1.kernelDirectory = some q) (hp : (s1.page q).present = true) :
    ∃ phys, kmallocAp (alloc fuel) 0x1000 s = some (t,a,phys) ∧ t.physical a = some phys ∧ phys % 0x1000 = 0 ∧
      phys < 2 ^ 32 := by
  obtain ⟨g,hg⟩ := hcut.heap
  have hbound := hcut.bound
  have haligned := hcut.aligned
  have hkd : t.kernelDirectory = s1.kernelDirectory := by rw [hg]
  have hkt : t.kheap = true := by rw [hg]; exact hk1
  have hfind : t.findPage a t.kernelDirectory = some q := by
    rw [hkd]
    exact (findPage_congr ((hs1.owned _ hs1.kernel).sameOn hcut.same) (by omega)).trans hq
  have hpage : t.page q = s1.page q :=
    page_congr ((hs1.entry_owned hs1.kernel (isEntry_of_findPage (by omega) hq)).sameOn hcut.same)
  have hframe := (t.page q).frame.isLt
  refine ⟨(t.page q).frame.toNat * 0x1000 + a % 0x1000,?_,?_,by omega,by omega⟩
  · unfold kmallocAp kmallocInt
    rw [if_pos hk, hcall, Option.bind_eq_bind, Option.bind_some]
    dsimp only
    rw [hfind, Option.bind_eq_bind, Option.bind_some, u32_of_lt (by omega)]
  · rw [physical_of_kheap hkt, hfind, Option.bind_some, if_pos (by rwa [hpage])]

/-- Before there is a heap. -/
theorem Sane.place_handed (hs : Sane s dirs live) (hk : s.kheap = false) (hroom : 0x1000 ≤ s.placementAddress ∧
    pageDown s.placementAddress + 0x2000 ≤ 0xC0000000) (fuel : ℕ) :
    ∃ t a, kmallocAp (alloc fuel) 0x1000 s = some (t,a,a) ∧ Handed s t dirs live live a a := by
  obtain ⟨hlow,hhigh⟩ := hroom
  have hdown : pageDown s.placementAddress = s.placementAddress / 0x1000 * 0x1000 := rfl
  have ha : u32 (pageDown s.placementAddress + 0x1000) = pageDown s.placementAddress + 0x1000 := u32_of_lt (by omega)
  have hcall : s.place 0x1000 true =
      ({ s with placementAddress := pageDown s.placementAddress + 0x2000 },pageDown s.placementAddress + 0x1000) := by
    unfold place
    dsimp only
    rw [if_pos ⟨rfl,by omega⟩, ha, u32_of_lt (by omega)]
  have howns : ∀ x, s.Owns live x → Owns { s with placementAddress := pageDown s.placementAddress + 0x2000 } live x :=
    fun x hx => hx.imp_left fun h => by
      change x < pageDown s.placementAddress + 0x2000
      omega
  refine ⟨{ s with placementAddress := pageDown s.placementAddress + 0x2000 },pageDown s.placementAddress + 0x1000,?_,?_⟩
  · unfold kmallocAp kmallocInt
    rw [if_neg (by rw [hk]; decide), hcall]
  · refine ⟨?_,howns,fun x h1 h2 => .inl (by dsimp only; omega),?_,by omega,by omega,by omega,rfl,fun x _ h => absurd rfl h,?_,
      by omega,by omega⟩
    · exact hs.transfer hhigh hs.heap rfl howns (fun _ _ _ _ _ => rfl) fun q hq => hs.entry_present hq
    · rintro x h1 h2 (h3 | ⟨h3,-⟩)
      · omega
      · rw [hk] at h3
        cases h3
    · exact if_neg (by rw [hk]; decide)

theorem Sane.hole_handed (hs : Sane s dirs live) (hk : s.kheap = true) (hserves : Serves s) {i : ℕ}
    (hf : s.heap.findSmallestHole tableRequest true = some i) (fuel : ℕ) :
    ∃ t a phys, kmallocAp (alloc (fuel + 1)) 0x1000 s = some (t,a,phys) ∧ Handed s t dirs live ((a,0x1000) :: live) a phys := by
  obtain ⟨hsplits,hmapped⟩ := hserves.hole hk i _ hf rfl
  obtain ⟨q,hq,hp⟩ := physical_ne_none hk hmapped
  obtain ⟨t,hcall,hcut⟩ := hs.alloc_found hk hf rfl hsplits fuel
  obtain ⟨phys,hmalloc,hphys,hmod,hlt⟩ := hcut.mapped hk hs hk hcall hq hp
  obtain ⟨g,hg⟩ := hcut.heap
  refine ⟨t,_,phys,hmalloc,hcut.sane,?_,?_,hcut.fresh,hcut.aligned,hcut.pos,hcut.bound,by rw [hg],
    fun x hx hne => absurd (hcut.same x hx) hne,hphys,hmod,hlt⟩
  · rw [hg]
    exact fun x hx => hx.imp_right fun ⟨h1,b,hb,h2⟩ => ⟨h1,b,List.mem_cons_of_mem _ hb,h2⟩
  · rw [hg]
    exact fun x h1 h2 => .inr ⟨hk,_,List.mem_cons_self,h1,h2⟩

theorem Sane.grown_handed (hs : Sane s dirs live) (hk : s.kheap = true) (hserves : Serves s) (htabled : Tabled s)
    (hf : s.heap.findSmallestHole tableRequest true = none) (fuel : ℕ) :
    ∃ t a phys, kmallocAp (alloc (fuel + 2)) 0x1000 s = some (t,a,phys) ∧ Handed s t dirs live ((a,0x1000) :: live) a phys := by
  obtain ⟨hmax,hlast,hroom,hsplits,hmapped⟩ := hserves.grown hk hf
  have hnew : ∀ p ∈ newPages s.heap, p < 2 ^ 32 := fun p hp => expandPages_lt hp
  obtain ⟨t,m,frames,hcall,hM,hcut⟩ := hs.alloc_grown hk hf (htabled hk hf) hmax hlast hroom hsplits fuel
  rw [show lastHole s.heap + frontSize (lastHole s.heap) + 12 = blockOf (lastHole s.heap) from rfl] at hcall hcut
  generalize hadef : blockOf (lastHole s.heap) = a at *
  have hbound := hcut.bound
  have haligned := hcut.aligned
  have hs1 := hM.sane hs hnew frames
  have hsame := findPage_congr (t := s.withMem m frames) (hM.sameOn_dir hs hnew hs.kernel) (show a < 2 ^ 32 by omega)
  -- the page of the block was mapped before or is one of those that the heap gained
  obtain ⟨q,hq,hp⟩ : ∃ q, s.findPage a s.kernelDirectory = some q ∧ (pageOf (load32 m q)).present = true := by
    by_cases hold : a < pageDown s.heap.endAddress
    · obtain ⟨q,hq,hp⟩ := physical_ne_none hk (hmapped hold)
      exact ⟨q,hq,hM.keeps_present hs hnew (isEntry_of_findPage (by omega) hq) hp⟩
    · have hfit : a + 0x1008 ≤ s.heap.startAddress + grownSize s.heap := by
        have hF : a = lastHole s.heap + frontSize (lastHole s.heap) + 12 := hadef.symm
        have hrest := hsplits.2
        omega
      have hdown : pageDown s.heap.endAddress = s.heap.endAddress / 0x1000 * 0x1000 := rfl
      obtain ⟨p,hpmem,hpage⟩ := mem_newPages (hs.heap hk).findable.geo (by omega) hfit hbound
      obtain ⟨q,hq⟩ := Option.ne_none_iff_exists'.mp (htabled hk hf p hpmem)
      have hq' : s.findPage a s.kernelDirectory = some q := by
        rw [← hq, findPage_eq, findPage_eq, hpage]
      exact ⟨q,hq',hM.present p hpmem q hq⟩
  obtain ⟨phys,hmalloc,hphys,hmod,hlt⟩ := hcut.mapped hk hs1 hk hcall (hsame.trans hq) hp
  obtain ⟨g,hg⟩ := hcut.heap
  refine ⟨t,a,phys,hmalloc,hcut.sane,?_,?_,hcut.fresh,haligned,hcut.pos,hbound,by rw [hg]; rfl,?_,hphys,hmod,hlt⟩
  · rw [hg]
    exact fun x hx => hx.imp_right fun ⟨h1,b,hb,h2⟩ => ⟨h1,b,List.mem_cons_of_mem _ hb,h2⟩
  · rw [hg]
    exact fun x h1 h2 => .inr ⟨hk,_,List.mem_cons_self,h1,h2⟩
  · intro x hx hne
    have hback : t.heap.mem x = m x := hcut.same x hx
    obtain ⟨p,hpmem,r,hr,h0,h1,h2⟩ := hM.entry x (by rwa [← hback])
    exact ⟨r,⟨hk,hf,p,hpmem,hr,h0⟩,h1,h2⟩

/-- Two nested calls are enough for `kmalloc_ap`. -/
theorem Sane.kmallocAp_handed (hs : Sane s dirs live) (hserves : Serves s) (htabled : Tabled s) :
    ∃ t a phys live', kmallocAp (alloc 2) 0x1000 s = some (t,a,phys) ∧ Handed s t dirs live live' a phys := by
  cases hk : s.kheap with
  | false =>
    obtain ⟨t,a,hcall,h⟩ := hs.place_handed hk (hserves.boot hk) 2
    exact ⟨t,a,a,live,hcall,h⟩
  | true =>
    cases hf : s.heap.findSmallestHole tableRequest true with
    | some i =>
      obtain ⟨t,a,phys,hcall,h⟩ := hs.hole_handed hk hserves hf 1
      exact ⟨t,a,phys,_,hcall,h⟩
    | none =>
      obtain ⟨t,a,phys,hcall,h⟩ := hs.grown_handed hk hserves htabled hf 0
      exact ⟨t,a,phys,_,hcall,h⟩

/-! ## The table in its directory -/

/-- What `get_page` writes when the table is at `a`. -/
def tableMem (m : Mem) (d i a phys : ℕ) : Mem :=
  store32 (fill (store32 m (d + 4 * i) a) a 0x1000 0) (d + 0x1000 + 4 * i) (phys ||| 0x7)

section TableMem
variable {m : Mem} {d i a phys : ℕ}

theorem tableMem_of_outside {x : ℕ} (h1 : ¬ (a ≤ x ∧ x < a + 0x1000)) (h2 : ¬ (d + 4 * i ≤ x ∧ x < d + 4 * i + 4))
    (h3 : ¬ (d + 0x1000 + 4 * i ≤ x ∧ x < d + 0x1000 + 4 * i + 4)) : tableMem m d i a phys x = m x := by
  unfold tableMem
  rw [store32_changedIn _ _ _ x h3]
  unfold fill
  rw [if_neg h1]
  exact store32_changedIn _ _ _ x h2

theorem tableMem_sameOn {b k : ℕ} (h1 : Apart a 0x1000 b k) (h2 : Apart (d + 4 * i) 4 b k)
    (h3 : Apart (d + 0x1000 + 4 * i) 4 b k) : SameOn (tableMem m d i a phys) m b k := by
  unfold Apart at h1 h2 h3
  exact fun x hx1 hx2 => tableMem_of_outside (by omega) (by omega) (by omega)

theorem tableMem_table (hi : i < 1024) (hap : Apart a 0x1000 d 0x2004) (ha : a < 2 ^ 32) :
    load32 (tableMem m d i a phys) (d + 4 * i) = a := by
  unfold Apart at hap
  unfold tableMem
  rw [load32_store32_of_apart _ _ (by unfold Apart; omega), load32_congr (fill_sameOn _ (by unfold Apart; omega)), load32_store32,
    Nat.mod_eq_of_lt ha]

theorem tableMem_physical (hp : phys < 2 ^ 32) :
    load32 (tableMem m d i a phys) (d + 0x1000 + 4 * i) = phys ||| 0x7 := by
  unfold tableMem
  rw [load32_store32, Nat.mod_eq_of_lt (Nat.or_lt_two_pow hp (by decide))]

theorem tableMem_empty (hi : i < 1024) (hap : Apart a 0x1000 d 0x2004) {j : ℕ} (hj : j < 1024) :
    load32 (tableMem m d i a phys) (a + 4 * j) = 0 := by
  unfold Apart at hap
  unfold tableMem
  rw [load32_store32_of_apart _ _ (by unfold Apart; omega)]
  exact load32_fill_zero _ (by omega) (by omega)

end TableMem

/-- The kernel with a table at `a` in slot `i` of a directory. -/
def setTable (s : Kernel) (d i a phys : ℕ) : Kernel := { s with heap.mem := tableMem s.heap.mem d i a phys }

theorem getPage_of_missing {A : Alloc} {address d a phys : ℕ} (hnone : s.findPage address d = none) (haddr : address < 2 ^ 32)
    (hcall : kmallocAp A 0x1000 s = some (t,a,phys)) (ha : a < 2 ^ 32) (hap : Apart a 0x1000 d 0x2004) :
    getPage A address d s = some (t.setTable d (address / 0x1000 / 1024) a phys,a + 4 * (address / 0x1000 % 1024)) := by
  have hi : address / 0x1000 / 1024 < 1024 := by omega
  have hload : load32 (store32 t.heap.mem (d + 4 * (address / 0x1000 / 1024)) a) (d + 4 * (address / 0x1000 / 1024)) = a := by
    rw [load32_store32, Nat.mod_eq_of_lt ha]
  have htable : load32 (tableMem t.heap.mem d (address / 0x1000 / 1024) a phys) (d + 4 * (address / 0x1000 / 1024)) = a :=
    tableMem_table hi hap ha
  unfold tableMem at htable
  unfold getPage
  rw [hnone, Option.bind_eq_bind, hcall]
  dsimp only [Option.bind_some]
  rw [hload, htable]
  rfl

/-- Memory that was handed out and is neither directory nor table yet. -/
structure Spare (t : Kernel) (dirs : List ℕ) (live : List (ℕ × ℕ)) (a : ℕ) : Prop where
  sane : Sane t dirs live
  owned : t.Owned live a 0x1000
  pos : 0 < a
  bound : a < 2 ^ 32
  clear : ∀ e ∈ dirs, Apart a 0x1000 e 0x2004
  tables : ∀ e ∈ dirs, ∀ j < 1024, t.tables e j ≠ 0 → Apart a 0x1000 (t.tables e j) 0x1000

section Spare
variable {d i a phys e q : ℕ}

theorem Spare.entry_sameOn (h : Spare t dirs live a) (hd : d ∈ dirs) (hi : i < 1024) (he : e ∈ dirs) (hq : t.IsEntry e q) :
    SameOn (t.setTable d i a phys).heap.mem t.heap.mem q 4 := by
  have hclear := h.sane.entry_clear he hq hd
  obtain ⟨j,hj,k,hk,hne,rfl⟩ := hq
  have htable := h.tables e he j hj hne
  unfold Apart at hclear htable
  exact tableMem_sameOn (by unfold Apart; omega) (by unfold Apart; omega) (by unfold Apart; omega)

theorem Spare.setTable_tables (h : Spare t dirs live a) (hd : d ∈ dirs) (hi : i < 1024) (he : e ∈ dirs) {j : ℕ} (hj : j < 1024) :
    (t.setTable d i a phys).tables e j = if e = d ∧ j = i then a else t.tables e j := by
  split
  · rename_i heq
    obtain ⟨rfl,rfl⟩ := heq
    exact tableMem_table hi (h.clear e he) h.bound
  · rename_i hne
    have hclear := h.clear e he
    have hap := h.sane.apart d hd e he
    unfold Apart at hclear hap
    refine load32_congr (tableMem_sameOn (by unfold Apart; omega) ?_ ?_) <;> unfold Apart
    · rcases hap with rfl | hap
      · have : j ≠ i := fun hji => hne ⟨rfl,hji⟩
        omega
      · omega
    · omega

theorem Spare.setTable_physical (h : Spare t dirs live a) (hd : d ∈ dirs) (hi : i < 1024) (he : e ∈ dirs) {j : ℕ} (hj : j < 1024)
    (hne : ¬ (e = d ∧ j = i)) : (t.setTable d i a phys).tablesPhysical e j = t.tablesPhysical e j := by
  have hclear := h.clear e he
  have hap := h.sane.apart d hd e he
  unfold Apart at hclear hap
  refine load32_congr (tableMem_sameOn (by unfold Apart; omega) ?_ ?_) <;> unfold Apart
  · omega
  · rcases hap with rfl | hap
    · have : j ≠ i := fun hji => hne ⟨rfl,hji⟩
      omega
    · omega

theorem Spare.setTable_sane (h : Spare t dirs live a) (hd : d ∈ dirs) (hi : i < 1024) :
    Sane (t.setTable d i a phys) dirs live := by
  have hs := h.sane
  have hpos := h.pos
  have htables : ∀ e ∈ dirs, ∀ j < 1024, (t.setTable d i a phys).tables e j = if e = d ∧ j = i then a else t.tables e j :=
    fun e he j hj => h.setTable_tables hd hi he hj
  -- a table is the new one or was there before
  have hcases : ∀ e ∈ dirs, ∀ j < 1024, (t.setTable d i a phys).tables e j ≠ 0 →
      (e = d ∧ j = i ∧ (t.setTable d i a phys).tables e j = a) ∨
      ((t.setTable d i a phys).tables e j = t.tables e j ∧ t.tables e j ≠ 0) := by
    intro e he j hj hne
    rw [htables e he j hj] at hne ⊢
    split
    · rename_i heq
      exact .inl ⟨heq.1,heq.2,rfl⟩
    · rename_i hno
      rw [if_neg hno] at hne
      exact .inr ⟨rfl,hne⟩
  refine ⟨hs.placement,fun hk => (hs.heap hk).keep fun x h1 _ h2 => ?_,hs.kernel,hs.owned,hs.apart,?_,?_,?_,?_,?_⟩
  · have hno := hs.notInUse h1 h2
    exact tableMem_of_outside (fun hx => hno (h.owned x hx.1 hx.2)) (fun hx => hno (hs.owned d hd x (by omega) (by omega)))
      fun hx => hno (hs.owned d hd x (by omega) (by omega))
  · intro e he j hj hne
    rcases hcases e he j hj hne with ⟨-,-,heq⟩ | ⟨heq,hne'⟩
    · rw [heq]
      exact h.owned
    · rw [heq]
      exact hs.table e he j hj hne'
  · intro e he j hj hne
    rcases hcases e he j hj hne with ⟨-,-,heq⟩ | ⟨heq,hne'⟩
    · rw [heq]
      exact h.clear
    · rw [heq]
      exact hs.clear e he j hj hne'
  · intro e he j hj hne e' he' j' hj' hne'
    rcases hcases e he j hj hne with ⟨-,-,h1⟩ | ⟨h1,h2⟩
    · rcases hcases e' he' j' hj' hne' with ⟨-,-,h3⟩ | ⟨h3,h4⟩
      · exact .inl (h1.trans h3.symm)
      · rw [h1, h3]
        exact .inr (h.tables e' he' j' hj' h4)
    · rcases hcases e' he' j' hj' hne' with ⟨-,-,h3⟩ | ⟨h3,h4⟩
      · rw [h1, h3]
        exact .inr (h.tables e he j hj h2).symm
      · rw [h1, h3]
        exact hs.tables e he j hj h2 e' he' j' hj' h4
  · intro e he j hj j' hj' hne heq
    rcases hcases e he j hj hne with ⟨he1,hj1,h1⟩ | ⟨h1,h2⟩
    · rcases hcases e he j' hj' (heq ▸ hne) with ⟨-,hj2,-⟩ | ⟨h3,h4⟩
      · exact hj1.trans hj2.symm
      · have hap := h.tables e he j' hj' h4
        rw [← h3, ← heq, h1] at hap
        unfold Apart at hap
        omega
    · rcases hcases e he j' hj' (heq ▸ hne) with ⟨-,hj2,h3⟩ | ⟨h3,h4⟩
      · have hap := h.tables e he j hj h2
        rw [← h1, heq, h3] at hap
        unfold Apart at hap
        omega
      · exact hs.distinct e he j hj j' hj' h2 (h1.symm.trans (heq.trans h3))
  · intro j hj hne k hk hf
    rcases hcases t.kernelDirectory hs.kernel j hj hne with ⟨-,-,heq⟩ | ⟨heq,hne'⟩
    · -- the entries of the new table have no frame
      change (pageOf (load32 (tableMem t.heap.mem d i a phys) _)).frame ≠ 0 at hf
      change (t.setTable d i a phys).tables t.kernelDirectory j = a at heq
      rw [show (t.setTable d i a phys).kernelDirectory = t.kernelDirectory from rfl, heq,
        tableMem_empty hi (h.clear d hd) hk] at hf
      exact absurd (by decide) hf
    · rw [show (t.setTable d i a phys).kernelDirectory = t.kernelDirectory from rfl, heq] at hf ⊢
      have hpage : (t.setTable d i a phys).page (t.tables t.kernelDirectory j + 4 * k) = t.page _ :=
        page_congr (h.entry_sameOn hd hi hs.kernel ⟨j,hj,k,hk,hne',rfl⟩)
      rw [hpage] at hf ⊢
      exact hs.present j hj hne' k hk hf

end Spare

section Handed
variable {a phys d e q : ℕ}

theorem Gains.isEntry (h : s.Gains q) : s.IsEntry s.kernelDirectory q := by
  obtain ⟨-,-,p,hp,hq,-⟩ := h
  exact isEntry_of_findPage (expandPages_lt hp) hq

theorem Handed.sameOn_dir (h : Handed s t dirs live live' a phys) (hs : Sane s dirs live) (he : e ∈ dirs) :
    SameOn t.heap.mem s.heap.mem e 0x2004 := by
  intro x h1 h2
  by_contra hne
  obtain ⟨q,hq,h3,h4⟩ := h.entry x (hs.owned e he x h1 h2) hne
  have := hs.entry_clear hs.kernel hq.isEntry he
  unfold Apart at this
  omega

/-- An entry is as it was, unless its page is one that the heap gained. -/
theorem Handed.word (h : Handed s t dirs live live' a phys) (hs : Sane s dirs live) (he : e ∈ dirs) (hq : s.IsEntry e q) :
    load32 t.heap.mem q = load32 s.heap.mem q ∨ s.Gains q := by
  by_cases hsame : SameOn t.heap.mem s.heap.mem q 4
  · exact .inl (load32_congr hsame)
  · unfold SameOn at hsame
    push Not at hsame
    obtain ⟨x,h1,h2,hne⟩ := hsame
    obtain ⟨r,hr,h3,h4⟩ := h.entry x (hs.entry_owned he hq x h1 h2) hne
    rcases hs.entry_eq_or_apart he hq hs.kernel hr.isEntry with rfl | hap
    · exact .inr hr
    · unfold Apart at hap
      omega

theorem Handed.spare (h : Handed s t dirs live live' a phys) (hs : Sane s dirs live) : Spare t dirs live' a := by
  refine ⟨h.sane,h.owned,h.pos,by have := h.bound; omega,fun e he => ?_,fun e he j hj hne => ?_⟩
  · exact ((hs.owned e he).apart h.fresh (by decide) (by decide)).symm
  · rw [tables_congr (h.sameOn_dir hs he) hj] at hne ⊢
    exact ((hs.table e he j hj hne).apart h.fresh (by decide) (by decide)).symm

end Handed

end Kernel
end X86OsDev.Tutorial.Paging
