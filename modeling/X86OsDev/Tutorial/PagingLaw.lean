import X86OsDev.Lib.Transition
import X86OsDev.Tutorial.PagingTables

/-! # What get_page promises

The entry that it returns is the one that later calls return, and a table that is
created changes no other entry of a directory. The promise is kept when the table is
there, and otherwise as long as its memory can be handed out; it is broken when the
heap has to grow into pages that have no table either.
-/
namespace X86OsDev.Tutorial.Paging
open Memory Transition Fuel Tiling
open Frames (Bits)

namespace Kernel
variable {s t u : Kernel} {dirs : List ℕ} {live live' : List (ℕ × ℕ)} {d a p : ℕ}

/-- The table of `a` in the directory `d` is made: every other address keeps its entry, the entries keep
what they hold but for pages that the heap gained and that had no frame, the new table is empty, and
`tablesPhysical` has the physical address of its memory. -/
structure Created (s t : Kernel) (dirs : List ℕ) (d a : ℕ) : Prop where
  findPage : ∀ e ∈ dirs, ∀ b < 2 ^ 32, ¬ (e = d ∧ b / 0x1000 / 1024 = a / 0x1000 / 1024) → t.findPage b e = s.findPage b e
  entry : ∀ e ∈ dirs, ∀ b < 2 ^ 32, ∀ q, s.findPage b e = some q → load32 t.heap.mem q = load32 s.heap.mem q ∨ s.Gains q
  tablesPhysical : ∀ e ∈ dirs, ∀ j < 1024, ¬ (e = d ∧ j = a / 0x1000 / 1024) → t.tablesPhysical e j = s.tablesPhysical e j
  empty : ∀ j < 1024, load32 t.heap.mem (t.tables d (a / 0x1000 / 1024) + 4 * j) = 0
  physical : ∃ f, f % 0x1000 = 0 ∧ t.tablesPhysical d (a / 0x1000 / 1024) = f ||| 0x7 ∧
    ∀ x < 0x1000, t.physical (t.tables d (a / 0x1000 / 1024) + x) = some (f + x)

/-- `get_page(c.1, 1, c.2)` returns. -/
def Calls (dirs : List ℕ) (s : Kernel) (c : ℕ × ℕ) (t : Kernel) : Prop :=
  c.1 < 2 ^ 32 ∧ c.2 ∈ dirs ∧ ∃ fuel p, getPage (alloc fuel) c.1 c.2 s = some (t,p)

/-- A call that makes a table can be served. -/
def MayCall (s : Kernel) (c : ℕ × ℕ) : Prop := s.findPage c.1 c.2 = none → s.Serves

/-- The kernels after any calls of `get_page`. -/
abbrev Later (dirs : List ℕ) : Kernel → Kernel → Prop := Leads (Guarded MayCall (Calls dirs))

/-- `get_page(a, 1, d)` returns, with the effect above if the table was missing and none if not, and after any
calls of `get_page` it returns the same entry, which is that of the addresses in the page of `a` alone. -/
def Promise (s : Kernel) (dirs : List ℕ) (d a : ℕ) : Prop :=
  ∃ fuel t p, getPage (alloc fuel) a d s = some (t,p) ∧ (if s.findPage a d = none then Created s t dirs d a else t = s) ∧
    ∀ u, Later dirs t u → u.findPage a d = some p ∧ (∀ fuel, getPage (alloc fuel) a d u = some (u,p)) ∧
      ∀ b < 2 ^ 32, ∀ q, u.findPage b d = some q → (q = p ↔ b / 0x1000 = a / 0x1000)

/-! ## One call -/

theorem getPage_of_found {A : Alloc} (h : s.findPage a d = some p) : getPage A a d s = some (s,p) := by
  unfold getPage
  rw [h]

/-- `tablesPhysical` of the new table. -/
theorem Spare.maps {i phys : ℕ} (h : Spare t dirs live a) (hd : d ∈ dirs) (hi : i < 1024) (hnone : t.tables d i = 0)
    (hmod : a % 0x1000 = 0) (hbound : a + 0x1000 < 2 ^ 32) (hphys : t.physical a = some phys) (hp : phys % 0x1000 = 0) {x : ℕ}
    (hx : x < 0x1000) : (t.setTable d i a phys).physical (a + x) = some (phys + x) := by
  cases hk : t.kheap with
  | false =>
    have h1 : t.physical a = some a := if_neg (by rw [hk]; decide)
    obtain rfl := Option.some.inj (h1.symm.trans hphys)
    exact if_neg (by change ¬ t.kheap = true; rw [hk]; decide)
  | true =>
    obtain ⟨q,hq,hpresent⟩ := physical_ne_none hk (by rw [hphys]; exact Option.some_ne_none _)
    rw [physical_of_kheap hk, hq, Option.bind_some, if_pos hpresent, hmod, Nat.add_zero, Option.some_inj] at hphys
    obtain ⟨hne,hqe⟩ := findPage_eq_some.mp hq
    -- the page of the block is not one of those that the new table has
    have htable : (t.setTable d i a phys).tables t.kernelDirectory (a / 0x1000 / 1024) = _ :=
      h.setTable_tables hd hi h.sane.kernel (by omega)
    rw [if_neg (by rintro ⟨h1,h2⟩; rw [h1, h2] at hne; exact hne hnone)] at htable
    have hfind : (t.setTable d i a phys).findPage (a + x) t.kernelDirectory = some q := by
      rw [findPage_eq_some, show (a + x) / 0x1000 = a / 0x1000 by omega, htable]
      exact ⟨hne,hqe⟩
    have hpage : (t.setTable d i a phys).page q = t.page q :=
      page_congr (h.entry_sameOn hd hi h.sane.kernel (isEntry_of_findPage (by omega) hq))
    rw [physical_of_kheap (s := t.setTable d i a phys) hk,
      show (t.setTable d i a phys).kernelDirectory = t.kernelDirectory from rfl, hfind, Option.bind_some, hpage, if_pos hpresent,
      show (a + x) % 0x1000 = x by omega, hphys]

/-- A call that makes a table. -/
theorem Sane.getPage_missing (hs : Sane s dirs live) (hd : d ∈ dirs) (ha : a < 2 ^ 32) (hnone : s.findPage a d = none)
    (hserves : Serves s) (htabled : Tabled s) : ∃ t p live', getPage (alloc 2) a d s = some (t,p) ∧ Sane t dirs live' ∧
      t.findPage a d = some p ∧ Created s t dirs d a := by
  obtain ⟨t,b,phys,live',hcall,h⟩ := hs.kmallocAp_handed hserves htabled
  have hspare := h.spare hs
  have hi : a / 0x1000 / 1024 < 1024 := by omega
  have hpos := h.pos
  have hsame : ∀ e ∈ dirs, SameOn t.heap.mem s.heap.mem e 0x2004 := fun e he => h.sameOn_dir hs he
  have htables : ∀ e ∈ dirs, ∀ j < 1024, t.tables e j = s.tables e j := fun e he j hj => tables_congr (hsame e he) hj
  have hself : (t.setTable d (a / 0x1000 / 1024) b phys).tables d (a / 0x1000 / 1024) = b := by
    rw [hspare.setTable_tables hd hi hd hi, if_pos ⟨rfl,rfl⟩]
  refine ⟨_,_,live',getPage_of_missing hnone ha hcall hspare.bound (hspare.clear d hd),hspare.setTable_sane hd hi,?_,?_,?_,?_,?_,?_⟩
  · rw [findPage_eq_some, hself]
    exact ⟨by omega,rfl⟩
  · intro e he c hc hne
    rw [findPage_eq, findPage_eq, hspare.setTable_tables hd hi he (by omega), if_neg hne, htables e he _ (by omega)]
  · intro e he c hc q hq
    have hentry := isEntry_of_findPage hc hq
    rw [load32_congr (hspare.entry_sameOn hd hi he (hentry.congr (hsame e he)))]
    exact h.word hs he hentry
  · intro e he j hj hne
    rw [hspare.setTable_physical hd hi he hj hne]
    exact load32_congr ((hsame e he).mono (by omega) (by omega))
  · intro j hj
    rw [hself]
    exact tableMem_empty hi (hspare.clear d hd) hj
  · refine ⟨phys,h.frame.1,tableMem_physical h.frame.2,fun x hx => ?_⟩
    rw [hself]
    exact hspare.maps hd hi ((htables d hd _ hi).trans (findPage_eq_none.mp hnone)) h.aligned h.bound h.physical h.frame.1 hx

/-- A call that would have to make the tables of the pages that the heap needs never returns. -/
theorem Sane.getPage_eq_none (hs : Sane s dirs live) (hnone : s.findPage a d = none) (h : ¬ Tabled s) (fuel : ℕ) :
    getPage (alloc fuel) a d s = none := by
  unfold Tabled at h
  push Not at h
  obtain ⟨hk,hf,hmissing⟩ := h
  have hno : alloc fuel 0x1000 true s = none := by
    change alloc fuel 0x1000 true (s.withMem s.heap.mem s.frames) = none
    exact alloc_eq_none hs hk hf hmissing fuel (fun _ h => absurd h List.not_mem_nil) (Mapped.nil s)
  unfold getPage kmallocAp kmallocInt
  rw [hnone, if_pos hk, hno]
  rfl

/-! ## Any calls -/

/-- The call returns, and the entries that were there are the entries that are there. -/
theorem Sane.getPage (hs : Sane s dirs live) (hd : d ∈ dirs) (ha : a < 2 ^ 32)
    (hmake : s.findPage a d = none → Serves s ∧ Tabled s) : ∃ t p live', getPage (alloc 2) a d s = some (t,p) ∧ Sane t dirs live' ∧
      t.findPage a d = some p ∧ (∀ e ∈ dirs, ∀ b < 2 ^ 32, ∀ q, s.findPage b e = some q → t.findPage b e = some q) ∧
      (if s.findPage a d = none then Created s t dirs d a else t = s) := by
  cases hp : s.findPage a d with
  | some p =>
    exact ⟨s,p,live,getPage_of_found hp,hs,hp,fun _ _ _ _ _ h => h,by rw [if_neg (by simp)]⟩
  | none =>
    obtain ⟨hserves,htabled⟩ := hmake hp
    obtain ⟨t,p,live',hcall,hsane,hfind,hcreated⟩ := hs.getPage_missing hd ha hp hserves htabled
    refine ⟨t,p,live',hcall,hsane,hfind,fun e he b hb q hq => ?_,by rwa [if_pos rfl]⟩
    rw [hcreated.findPage e he b hb, hq]
    rintro ⟨rfl,heq⟩
    rw [findPage_eq_none, ← heq] at hp
    exact (findPage_eq_some.mp hq).1 hp

/-- Entries stay in any run of calls. -/
theorem Later.keeps (h : Later dirs t u) (ht : ∃ live, Sane t dirs live) (hd : d ∈ dirs) (ha : a < 2 ^ 32)
    (hp : t.findPage a d = some p) : (∃ live, Sane u dirs live) ∧ u.findPage a d = some p := by
  induction h with
  | refl => exact ⟨ht,hp⟩
  | tail _ hstep ih =>
    obtain ⟨⟨live,hs⟩,hu⟩ := ih
    obtain ⟨⟨b,e⟩,hmay,hb,he,fuel,r,hcall⟩ := hstep
    -- the call returned, so that it did not come back to itself
    have hmake : ∀ v, v.findPage b e = none → Sane v dirs live → Kernel.getPage (alloc fuel) b e v ≠ none → Tabled v := by
      intro v hnone hv hret
      by_contra hno
      exact hret (hv.getPage_eq_none hnone hno fuel)
    obtain ⟨v,r',live',hcall',hsane,-,hkeeps,-⟩ := hs.getPage he hb fun hnone =>
      ⟨hmay hnone,hmake _ hnone hs (by rw [hcall]; exact Option.some_ne_none _)⟩
    obtain ⟨rfl,-⟩ := Prod.mk.inj (result_unique (f := fun n v => Kernel.getPage (alloc n) b e v)
      (fun n v => getPage_alloc_below b e n v) hcall hcall')
    exact ⟨⟨live',hsane⟩,hkeeps d hd a ha p hu⟩

/-- In one directory two addresses have one entry when they are in one page. -/
theorem Sane.findPage_eq_iff (hs : Sane s dirs live) (hd : d ∈ dirs) (ha : a < 2 ^ 32) (hp : s.findPage a d = some p) {b q : ℕ}
    (hb : b < 2 ^ 32) (hq : s.findPage b d = some q) : q = p ↔ b / 0x1000 = a / 0x1000 := by
  constructor
  · intro heq
    obtain ⟨h1,h2⟩ := findPage_eq_some.mp hp
    obtain ⟨h3,h4⟩ := findPage_eq_some.mp hq
    rcases hs.tables d hd _ (by omega) h1 d hd _ (by omega) h3 with htable | hap
    · have hi := hs.distinct d hd _ (by omega) _ (by omega) h1 htable
      omega
    · unfold Apart at hap
      omega
  · intro heq
    rw [findPage_eq, heq, ← findPage_eq] at hq
    exact Option.some.inj (hq.symm.trans hp)

/-- The heap after `kmalloc(0x7FFEC)` and `kmalloc(0x2FFFEC)`, with the first block free again or not. -/
def heapWords (hole : Bool) (k : ℕ) : ℕ :=
  if k = 0x30000000 then (if hole then 0xC0080000 else 0)
  else if k = 0x30020000 ∨ k = 0x3003FFFE ∨ k = 0x30040000 ∨ k = 0x300FFFFE then heapMagic
  else if k = 0x30020001 then (if hole then 1 else 0)
  else if k = 0x30020002 then 0x80000
  else if k = 0x3003FFFF then 0xC0080000
  else if k = 0x30040002 then 0x300000
  else if k = 0x300FFFFF then 0xC0100000
  else 0

/-- The kernel directory at 0x100000 has tables for the first 4 MB of memory and for the first 4 MB of the
heap, each page with a frame of its own. -/
def bootWords (hole : Bool) (k : ℕ) : ℕ :=
  if k = 0x40000 then 0x103000
  else if k = 0x40300 then 0x104000
  else if k = 0x40400 then 0x103007
  else if k = 0x40700 then 0x104007
  else if 0x40C00 ≤ k ∧ k < 0x41400 then (k - 0x40C00) * 0x1000 + 3
  else heapWords hole k

def bootKernel (hole : Bool) : Kernel where
  heap := ⟨ofWords (bootWords hole),⟨0xC0000000,if hole then 1 else 0,0x20000⟩,0xC0080000,0xC0400000,0xCFFFF000,fun _ => false⟩
  kheap := true
  supervisor := 0
  readonly := 0
  placementAddress := 0x200000
  kernelDirectory := 0x100000
  frames := fun i => if i < 64 then 0xFFFFFFFF else 0
  nframes := 0x1000
  junk := 0

def bootTiles (hole : Bool) : List Tile := [⟨0xC0080000,0x80000,hole⟩,⟨0xC0100000,0x300000,false⟩]

def bootLive (hole : Bool) : List (ℕ × ℕ) := if hole then [(0xC010000C,0x2FFFEC)] else [(0xC010000C,0x2FFFEC),(0xC008000C,0x7FFEC)]

section Boot
variable {hole : Bool}

theorem bootKernel_load {x k : ℕ} (h : x = 4 * k) : load32 (bootKernel hole).heap.mem x = bootWords hole k % 2 ^ 32 :=
  load32_ofWords _ h

theorem bootWords_index {k : ℕ} (h1 : 0x30000000 < k) (h2 : k < 0x30020000) : bootWords hole k = 0 := by
  unfold bootWords heapWords
  rw [if_neg (by omega), if_neg (by omega), if_neg (by omega), if_neg (by omega), if_neg (by omega), if_neg (by omega),
    if_neg (by omega), if_neg (by omega), if_neg (by omega), if_neg (by omega), if_neg (by omega), if_neg (by omega)]

theorem bootKernel_slot_zero : (bootKernel hole).heap.index.slot (bootKernel hole).heap.mem 0 = if hole then 0xC0080000 else 0 := by
  refine (bootKernel_load (x := 0xC0000000 + 4 * 0) (k := 0x30000000 + 0) (by decide)).trans ?_
  cases hole <;> decide

theorem bootKernel_slot_pos {i : ℕ} (h0 : 0 < i) (hi : i < 0x20000) :
    (bootKernel hole).heap.index.slot (bootKernel hole).heap.mem i = 0 := by
  refine (bootKernel_load (x := 0xC0000000 + 4 * i) (k := 0x30000000 + i) (by omega)).trans ?_
  rw [bootWords_index (by omega) (by omega)]
  rfl

theorem bootKernel_formed : Formed (bootKernel hole).heap.mem ⟨0xC0080000,0x80000,hole⟩ := by
  refine ⟨⟨show 20 ≤ 0x80000 by decide,?_,?_,?_⟩,⟨?_,?_⟩⟩
  · exact (bootKernel_load (x := 0xC0080000) (k := 0x30020000) (by decide)).trans (by cases hole <;> decide)
  · exact (load8_ofWords _ (a := 0xC0080004) (k := 0x30020001) (by decide)).trans (by cases hole <;> decide)
  · exact (bootKernel_load (x := 0xC0080008) (k := 0x30020002) (by decide)).trans (by cases hole <;> decide)
  · exact (bootKernel_load (x := 0xC00FFFF8) (k := 0x3003FFFE) (by decide)).trans (by cases hole <;> decide)
  · exact (bootKernel_load (x := 0xC00FFFFC) (k := 0x3003FFFF) (by decide)).trans (by cases hole <;> decide)

theorem bootKernel_block : Formed (bootKernel hole).heap.mem ⟨0xC0100000,0x300000,false⟩ := by
  refine ⟨⟨show 20 ≤ 0x300000 by decide,?_,?_,?_⟩,⟨?_,?_⟩⟩
  · exact (bootKernel_load (x := 0xC0100000) (k := 0x30040000) (by decide)).trans (by cases hole <;> decide)
  · exact (load8_ofWords _ (a := 0xC0100004) (k := 0x30040001) (by decide)).trans (by cases hole <;> decide)
  · exact (bootKernel_load (x := 0xC0100008) (k := 0x30040002) (by decide)).trans (by cases hole <;> decide)
  · exact (bootKernel_load (x := 0xC03FFFF8) (k := 0x300FFFFE) (by decide)).trans (by cases hole <;> decide)
  · exact (bootKernel_load (x := 0xC03FFFFC) (k := 0x300FFFFF) (by decide)).trans (by cases hole <;> decide)

theorem bootKernel_whole : Whole (bootKernel hole).heap (bootLive hole) (bootTiles hole) := by
  refine ⟨⟨rfl,rfl,rfl,show 0xC0400000 < 2 ^ 32 by decide,show 0xCFFFF000 < 2 ^ 32 by decide,
    show 0xC0080000 + 0x70000 ≤ 0xC0400000 by decide,?_,fun i hi => ?_⟩,⟨rfl,bootKernel_formed,
    show 0xC0100000 = 0xC0080000 + 0x80000 by decide,bootKernel_block,
    show 0xC0080000 + 0x80000 + 0x300000 = 0xC0400000 by decide⟩,?_,?_⟩
  · change (if hole then 1 else 0) ≤ 0x20000
    cases hole <;> decide
  · rcases Nat.eq_zero_or_pos i with rfl | h0
    · rw [bootKernel_slot_zero]
      cases hole
      · exact .inl rfl
      · exact .inr le_rfl
    · exact .inl (bootKernel_slot_pos h0 hi)
  · cases hole with
    | false => exact .refl _
    | true =>
      change List.Perm [(bootKernel true).heap.index.slot (bootKernel true).heap.mem 0] [0xC0080000]
      rw [bootKernel_slot_zero, if_pos rfl]
  · cases hole with
    | true =>
      refine ⟨.refl _,fun b hb => ?_⟩
      obtain rfl := List.mem_singleton.mp hb
      exact ⟨⟨0xC0100000,0x300000,false⟩,by simp [bootTiles],rfl,rfl,by decide⟩
    | false =>
      refine ⟨.swap _ _ _,fun b hb => ?_⟩
      rcases List.mem_cons.mp hb with rfl | hb
      · exact ⟨⟨0xC0100000,0x300000,false⟩,by simp [bootTiles],rfl,rfl,by decide⟩
      · obtain rfl := List.mem_singleton.mp hb
        exact ⟨⟨0xC0080000,0x80000,false⟩,by simp [bootTiles],rfl,rfl,by decide⟩

theorem bootKernel_tables {i : ℕ} (hi : i < 1024) : (bootKernel hole).tables 0x100000 i =
    if i = 0 then 0x103000 else if i = 768 then 0x104000 else 0 := by
  unfold tables
  rw [bootKernel_load (k := 0x40000 + i) (by omega)]
  unfold bootWords
  by_cases h0 : i = 0
  · rw [if_pos (by omega), if_pos h0]
    rfl
  by_cases h1 : i = 768
  · rw [if_neg (by omega), if_pos (by omega), if_neg h0, if_pos h1]
    rfl
  · unfold heapWords
    rw [if_neg (by omega), if_neg (by omega), if_neg (by omega), if_neg (by omega), if_neg (by omega), if_neg (by omega),
      if_neg (by omega), if_neg (by omega), if_neg (by omega), if_neg (by omega), if_neg (by omega), if_neg (by omega),
      if_neg h0, if_neg h1]
    rfl

theorem bootKernel_present {q : ℕ} (h1 : 0x103000 ≤ q) (h2 : q < 0x105000) (h3 : q % 4 = 0) :
    ((bootKernel hole).page q).present = true := by
  have hword : load32 (bootKernel hole).heap.mem q = (q / 4 - 0x40C00) * 0x1000 + 3 := by
    rw [bootKernel_load (k := q / 4) (by omega)]
    unfold bootWords
    rw [if_neg (by omega), if_neg (by omega), if_neg (by omega), if_neg (by omega), if_pos (by omega)]
    exact Nat.mod_eq_of_lt (by omega)
  change (load32 (bootKernel hole).heap.mem q).testBit 0 = true
  rw [hword, Nat.testBit_zero, decide_eq_true_eq]
  omega

theorem bootKernel_sane : Sane (bootKernel hole) [0x100000] (bootLive hole) := by
  have htables : ∀ i < 1024, (bootKernel hole).tables 0x100000 i ≠ 0 →
      (i = 0 ∧ (bootKernel hole).tables 0x100000 i = 0x103000) ∨
      (i = 768 ∧ (bootKernel hole).tables 0x100000 i = 0x104000) := by
    intro i hi hne
    rw [bootKernel_tables hi] at hne ⊢
    split
    · exact .inl ⟨‹_›,rfl⟩
    · rename_i h0
      rw [if_neg h0] at hne
      split
      · exact .inr ⟨‹_›,rfl⟩
      · rename_i h1
        rw [if_neg h1] at hne
        exact absurd rfl hne
  have honly : ∀ {d : ℕ}, d ∈ [0x100000] → d = 0x100000 := List.mem_singleton.mp
  refine ⟨show 0x200000 ≤ 0xC0000000 by decide,fun _ => bootKernel_whole.ready,List.mem_singleton_self _,?_,
    fun d hd e he => .inl ((honly hd).trans (honly he).symm),?_,?_,?_,?_,?_⟩
  · intro d hd x _ hx
    rw [honly hd] at hx
    exact .inl (show x < 0x200000 by omega)
  · intro d hd i hi hne x hx1 hx2
    rw [honly hd] at hne hx2
    refine .inl (show x < 0x200000 from ?_)
    rcases htables i hi hne with ⟨-,heq⟩ | ⟨-,heq⟩ <;> omega
  · intro d hd i hi hne e he
    rw [honly hd] at hne ⊢
    rw [honly he]
    unfold Apart
    rcases htables i hi hne with ⟨-,heq⟩ | ⟨-,heq⟩ <;> omega
  · intro d hd i hi hne e he j hj hne'
    rw [honly hd] at hne ⊢
    rw [honly he] at hne' ⊢
    unfold Apart
    rcases htables i hi hne with ⟨-,heq⟩ | ⟨-,heq⟩ <;> rcases htables j hj hne' with ⟨-,heq'⟩ | ⟨-,heq'⟩ <;> omega
  · intro d hd i hi j hj hne heq
    rw [honly hd] at hne heq
    rcases htables i hi hne with ⟨h1,heq1⟩ | ⟨h1,heq1⟩ <;> rcases htables j hj (heq ▸ hne) with ⟨h2,heq2⟩ | ⟨h2,heq2⟩ <;> omega
  · intro i hi hne j hj _
    change (bootKernel hole).tables 0x100000 i ≠ 0 at hne
    change ((bootKernel hole).page ((bootKernel hole).tables 0x100000 i + 4 * j)).present = true
    rcases htables i hi hne with ⟨-,heq⟩ | ⟨-,heq⟩ <;> exact bootKernel_present (by omega) (by omega) (by omega)

end Boot

end Kernel
end X86OsDev.Tutorial.Paging
