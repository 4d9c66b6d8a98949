import X86OsDev.Tutorial.PagingMaps

/-! # The memory of a new page table

`kmalloc_ap` takes a page below the placement address, cuts it out of a hole of the
heap, or lets the heap grow and cuts it out of the last hole. When the heap has to
grow into pages without a table the call never returns: `get_page` on these asks for
the same block of the same heap.
-/
namespace X86OsDev.Tutorial.Paging
open Memory Tiling
open Frames (Bits)

/-- The bytes that `alloc` looks for in a hole when a page table is asked for. -/
def tableRequest : ℕ := u32 (0x1000 + headerSize + footerSize)

/-- The size up to which the heap has to grow for a page table. -/
def grownSize (h : Heap) : ℕ := roundUp (u32 (h.length + tableRequest))

/-- The pages that `expand` goes through then. -/
def newPages (h : Heap) : List ℕ := expandPages h (grownSize h)

section Sizes
variable {h : Heap}

theorem tableRequest_eq : tableRequest = 0x1014 := rfl

theorem expandPages_lt {n p : ℕ} (hp : p ∈ expandPages h n) : p < 2 ^ 32 := by
  obtain ⟨k,-,rfl⟩ := List.mem_map.mp hp
  exact Nat.mod_lt _ (by decide)

theorem length_eq (g : Geometry h) : h.length = h.endAddress - h.startAddress :=
  sub32_of_le (by have := g.long; omega)

theorem grownSize_bounds (g : Geometry h) : u32 (h.length + tableRequest) = h.length + 0x1014 ∧
    h.length + 0x1014 ≤ grownSize h ∧ grownSize h ≤ h.length + 0x2014 := by
  have hlen := length_eq g
  have hst := g.start
  have hlt := g.endLt
  have hreq : u32 (h.length + tableRequest) = h.length + 0x1014 := u32_of_lt (by rw [tableRequest_eq]; omega)
  unfold grownSize
  rw [hreq]
  unfold roundUp pageDown
  refine ⟨rfl,?_⟩
  split
  · rw [u32_of_lt (by omega)]
    omega
  · omega

/-- A page of the new space that does not start below the old end of the heap is gone through. -/
theorem mem_newPages (g : Geometry h) {b : ℕ} (hlow : h.endAddress / 0x1000 ≤ b / 0x1000)
    (hhigh : b + 0x1008 ≤ h.startAddress + grownSize h) (hlt : b + 0x1000 < 2 ^ 32) :
    ∃ p ∈ newPages h, p / 0x1000 = b / 0x1000 := by
  have hlen := length_eq g
  have hlong := g.long
  have hb := grownSize_bounds g
  have hp : h.startAddress + h.length + 0x1000 * (b / 0x1000 - h.endAddress / 0x1000) < 2 ^ 32 := by omega
  refine ⟨_,List.mem_map.mpr ⟨b / 0x1000 - h.endAddress / 0x1000,List.mem_range.mpr (by omega),rfl⟩,?_⟩
  rw [u32_of_lt hp]
  omega

end Sizes

namespace Kernel
variable {s t u : Kernel} {dirs : List ℕ} {live : List (ℕ × ℕ)} {l : List ℕ} {m : Mem} {frames : Bits}

theorem Sane.notInUse (hs : Sane s dirs live) {x : ℕ} (hx : 0xC0000000 ≤ x) (h : ¬ InUse live x) : ¬ s.Owns live x := by
  rintro (h1 | ⟨-,h1⟩)
  · exact absurd (lt_of_lt_of_le h1 hs.placement) (not_lt.mpr hx)
  · exact h h1

theorem Mapped.heap_eq (h : Mapped s l m) (hs : Sane s dirs live) (hl : ∀ p ∈ l, p < 2 ^ 32) :
    ∀ x, 0xC0000000 ≤ x → x < s.heap.endAddress → ¬ InUse live x → m x = s.heap.mem x :=
  fun _ h1 _ h2 => h.intact hs hl (hs.notInUse h1 h2)

/-- Without a table for a page that `expand` goes through, `alloc` comes back to itself for ever. -/
theorem alloc_eq_none (hs : Sane s dirs live) (hk : s.kheap = true) (hf : s.heap.findSmallestHole tableRequest true = none)
    (hmissing : ∃ p ∈ newPages s.heap, s.findPage p s.kernelDirectory = none) (fuel : ℕ) (hl : ∀ p ∈ l, p < 2 ^ 32)
    (hM : Mapped s l m) : alloc fuel 0x1000 true (s.withMem m frames) = none := by
  induction fuel generalizing l m frames with
  | zero => rfl
  | succ fuel ih =>
    have hfind : (s.withMem m frames).heap.findSmallestHole (u32 (0x1000 + headerSize + footerSize)) true = none :=
      ((hs.heap hk).findSmallestHole_eq (hM.heap_eq hs hl) _ _).trans hf
    have hloop : (newPages s.heap).foldlM (expandPage (alloc fuel)) (s.withMem m frames) = none :=
      hM.expand_eq_none hs hk (fun p hp => (List.mem_append.mp hp).elim (hl p) expandPages_lt) hmissing
        fun _ _ _ hl' hM' => ih hl' hM'
    have hexpand : expand (alloc fuel) (u32 (s.heap.length + tableRequest)) (s.withMem m frames) = none := by
      unfold expand
      split
      · rfl
      · dsimp only
        split
        · rfl
        · rw [Option.bind_eq_bind, Option.bind_eq_none_iff]
          intro t ht
          cases ht.symm.trans hloop
    rw [alloc]
    dsimp only
    rw [hfind]
    dsimp only
    rw [Option.bind_eq_bind, Option.bind_eq_none_iff]
    intro t ht
    cases ht.symm.trans hexpand

/-! ## A block of the heap -/

/-- The block at `a` was free, and memory that was handed out is as it was. -/
structure Cut (s t : Kernel) (dirs : List ℕ) (live : List (ℕ × ℕ)) (a : ℕ) : Prop where
  sane : Sane t dirs ((a,0x1000) :: live)
  heap : ∃ g, t = { s with heap := g }
  same : ∀ x, s.Owns live x → t.heap.mem x = s.heap.mem x
  fresh : ∀ x, a ≤ x → x < a + 0x1000 → ¬ s.Owns live x
  aligned : a % 0x1000 = 0
  pos : 0 < a
  bound : a + 0x1000 < 2 ^ 32

theorem Owned.sameOn {a n : ℕ} (h : s.Owned live a n) (hsame : ∀ x, s.Owns live x → m x = s.heap.mem x) :
    SameOn m s.heap.mem a n := fun x h1 h2 => hsame x (h x h1 h2)

theorem Sane.setHeap {g : Heap} {live' : List (ℕ × ℕ)} (hs : Sane s dirs live) (hg : Ready g live')
    (hsub : ∀ x, InUse live x → InUse live' x) (hsame : ∀ x, s.Owns live x → g.mem x = s.heap.mem x) :
    Sane { s with heap := g } dirs live' := by
  refine hs.transfer hs.placement (fun _ => hg) rfl (fun x hx => hx.imp_right fun h => ⟨h.1,hsub x h.2⟩)
    (fun d hd => (hs.owned d hd).sameOn hsame) fun q hq hf => ?_
  have hpage : ({ s with heap := g } : Kernel).page q = s.page q :=
    page_congr ((hs.entry_owned hs.kernel hq).sameOn hsame)
  rw [hpage] at hf ⊢
  exact hs.entry_present hq hf

theorem inUse_low {h : Heap} (r : Ready h live) {x : ℕ} (hx : InUse live x) : 0xC0080000 ≤ x := by
  by_cases h0 : h.index.size = 0
  · obtain ⟨ts,w⟩ := r.whole h0
    obtain ⟨b,hb,h1,-⟩ := hx
    obtain ⟨u,hu,-,haddr,-⟩ := w.lives.2 b hb
    have := (w.tiles.mem hu).2.1
    have := w.geo.start
    omega
  · obtain ⟨pre,n,post,-,g⟩ := r.findable.hole 0 (by omega)
    obtain ⟨u,hu,h1,-⟩ := g.inUse hx
    have := (g.mem_bounds hu).2.1
    have := g.geo.start
    omega

/-- Memory that was handed out lies outside a hole and outside the index. -/
theorem Sane.outside (hs : Sane s dirs live) (hk : s.kheap = true) {pos e : ℕ} (hpos : 0xC0000000 ≤ pos)
    (hfree : ∀ x, pos ≤ x → x < e → ¬ InUse live x) {x : ℕ} (hx : s.Owns live x) :
    ¬ (pos ≤ x ∧ x < e) ∧ ¬ (0xC0000000 ≤ x ∧ x < 0xC0080000) := by
  have hplace := hs.placement
  rcases hx with hx | ⟨-,hx⟩
  · exact ⟨by omega,by omega⟩
  · have := inUse_low (hs.heap hk) hx
    exact ⟨fun h => hfree x h.1 h.2 hx,by omega⟩

theorem Sane.alloc_found (hs : Sane s dirs live) (hk : s.kheap = true) {i pos : ℕ}
    (hf : s.heap.findSmallestHole tableRequest true = some i) (hpos : s.heap.index.slot s.heap.mem i = pos)
    (hsplits : Splits s.heap pos (sizeOf s.heap.mem pos) 0x1000) (fuel : ℕ) :
    ∃ t, alloc (fuel + 1) 0x1000 true s = some (t,pos + frontSize pos + 12) ∧
      Cut s t dirs live (pos + frontSize pos + 12) := by
  have r := (hs.heap hk).findable
  obtain ⟨hcall,⟨ts,hw⟩,hlo,hhi,hfree,hout⟩ := r.cut (Heap.findSmallestHole_lt hf) hpos rfl hsplits
  have hst := r.geo.start
  have hlt := r.geo.endLt
  obtain ⟨hmod,hrest⟩ := hsplits
  have hF : frontSize pos = 0x1000 - pos % 0x1000 - 12 := rfl
  have hfit : frontSize pos + 0x1000 + 20 ≤ sizeOf s.heap.mem pos := by omega
  have hsame : ∀ x, s.Owns live x → (splitHeap s.heap pos (sizeOf s.heap.mem pos) 0x1000).mem x = s.heap.mem x := by
    intro x hx
    obtain ⟨h1,h2⟩ := hs.outside hk (show 0xC0000000 ≤ pos by omega) hfree hx
    exact hout x h1 h2
  have hsub : ∀ x, InUse live x → InUse ((pos + frontSize pos + 12,0x1000) :: live) x :=
    fun _ ⟨b,hb,h⟩ => ⟨b,List.mem_cons_of_mem _ hb,h⟩
  refine ⟨_,?_,hs.setHeap hw.ready hsub hsame,⟨_,rfl⟩,hsame,?_,by omega,by omega,by omega⟩
  · rw [alloc]
    dsimp only
    rw [show u32 (0x1000 + headerSize + footerSize) = tableRequest from rfl, hf]
    dsimp only
    rw [show tableRequest = u32 (0x1000 + headerSize + footerSize) from rfl, hcall]
  · exact fun x h1 h2 => hs.notInUse (by omega) (hfree x (by omega) (by omega))

/-- The last hole grows over pages that have tables, and the block is cut out of it. -/
theorem Sane.alloc_grown (hs : Sane s dirs live) (hk : s.kheap = true) (hf : s.heap.findSmallestHole tableRequest true = none)
    (htables : ∀ p ∈ newPages s.heap, s.findPage p s.kernelDirectory ≠ none)
    (hmax : s.heap.startAddress + grownSize s.heap ≤ s.heap.maxAddress) (hlast : EndsInHole s.heap)
    (hroom : s.heap.index.size < 0x20000)
    (hsplits : Splits s.heap (lastHole s.heap) (s.heap.startAddress + grownSize s.heap - lastHole s.heap) 0x1000) (fuel : ℕ) :
    ∃ t m frames, alloc (fuel + 2) 0x1000 true s = some (t,lastHole s.heap + frontSize (lastHole s.heap) + 12) ∧
      Mapped s (newPages s.heap) m ∧
      Cut (s.withMem m frames) t dirs live (lastHole s.heap + frontSize (lastHole s.heap) + 12) := by
  have geo := (hs.heap hk).findable.geo
  have hlen := length_eq geo
  have hlong := geo.long
  have hst := geo.start
  have hmaxlt := geo.maxLt
  obtain ⟨hreq,hgrown1,hgrown2⟩ := grownSize_bounds geo
  have hnew : ∀ p ∈ newPages s.heap, p < 2 ^ 32 := fun p hp => expandPages_lt hp
  -- the pages get frames
  obtain ⟨m,frames,hfold,hM⟩ := Mapped.expand (alloc (fuel + 1)) s.frames hs (Mapped.nil s)
    (fun p hp => hnew p (by simpa using hp)) htables
  rw [List.nil_append] at hM
  have hsame := hM.heap_eq hs hnew
  have hs1 := hM.sane hs hnew frames
  have r1 : Ready (s.withMem m frames).heap live := hs1.heap hk
  have hl1 : lastHole (s.withMem m frames).heap = lastHole s.heap := (hs.heap hk).lastHole_eq hsame
  -- the last hole grows
  obtain ⟨k,hkdef⟩ : ∃ k, s.heap.endAddress + k = s.heap.startAddress + grownSize s.heap :=
    ⟨grownSize s.heap - s.heap.length,by omega⟩
  have gr := r1.grow (k := k) ((hs.heap hk).endsInHole hsame hlast) hroom (by omega)
    (show s.heap.endAddress + k < 2 ^ 32 by omega)
  generalize hg : ({ (s.withMem m frames).heap with endAddress := (s.withMem m frames).heap.endAddress + k } : Heap).addSpace
    (s.withMem m frames).heap.length (s.withMem m frames).heap.endAddress = g at gr
  have hlow : s.heap.startAddress ≤ lastHole (s.withMem m frames).heap := gr.low
  have hgsame : ∀ x, s.Owns live x → g.mem x = m x := by
    intro x hx
    obtain ⟨h1,h2⟩ := hs1.outside hk (show 0xC0000000 ≤ lastHole (s.withMem m frames).heap by omega)
      (e := s.heap.endAddress + k) (fun y hy _ => gr.unused y hy) hx
    exact gr.outside x h1 h2
  have hs2 : Sane { s.withMem m frames with heap := g } dirs live := by
    obtain ⟨ts,hw⟩ := gr.whole
    exact hs1.setHeap hw.ready (fun _ h => h) hgsame
  -- and the block is cut out of it
  rw [← hl1, ← hkdef] at hsplits
  have hsplits' : Splits g (lastHole (s.withMem m frames).heap)
      (s.heap.endAddress + k - lastHole (s.withMem m frames).heap) 0x1000 :=
    ⟨hsplits.1,hsplits.2.imp_right fun h => ⟨h.1,gr.room h.2⟩⟩
  obtain ⟨i,hi,hfind,hslot⟩ := gr.finds hst (by change s.heap.endAddress + k < _; omega)
    (((hs.heap hk).findSmallestHole_eq hsame _ _).trans hf) hsplits'
  have he : u32 (s.heap.startAddress + grownSize s.heap) = s.heap.endAddress + k := by rw [u32_of_lt (by omega), hkdef]
  have hfold' : (newPages s.heap).foldlM (expandPage (alloc (fuel + 1))) s = some (s.withMem m frames) := hfold
  obtain ⟨t,hcall,hcut⟩ := hs2.alloc_found hk hfind hslot (by
    rw [show sizeOf g.mem _ = _ from gr.size]
    exact hsplits') fuel
  rw [hl1] at hcall hcut
  refine ⟨t,m,frames,?_,hM,⟨hcut.sane,?_,fun x hx => ?_,hcut.fresh,hcut.aligned,hcut.pos,hcut.bound⟩⟩
  · have hexpand : s.expand (alloc (fuel + 1)) (u32 (s.heap.length + tableRequest)) =
        some { s.withMem m frames with heap.endAddress := s.heap.endAddress + k } := by
      unfold expand
      rw [if_neg (by omega)]
      dsimp only
      rw [show roundUp (u32 (s.heap.length + tableRequest)) = grownSize s.heap from rfl, he, if_neg (by omega),
        show expandPages s.heap (grownSize s.heap) = newPages s.heap from rfl, Option.bind_eq_bind, hfold', Option.bind_some]
      exact congrArg (fun e => some { s.withMem m frames with heap.endAddress := e }) he
    rw [alloc]
    dsimp only
    rw [show u32 (0x1000 + headerSize + footerSize) = tableRequest from rfl, hf]
    dsimp only
    rw [hexpand, Option.bind_eq_bind, Option.bind_some, ← hcall, ← hg]
    rfl
  · obtain ⟨g',hg'⟩ := hcut.heap
    exact ⟨g',hg'⟩
  · exact (hcut.same x hx).trans (hgsame x hx)

end Kernel
end X86OsDev.Tutorial.Paging
