import X86OsDev.Tutorial.HeapAligned
import X86OsDev.Tutorial.FrameLaw
import Mathlib.Data.List.TakeWhile

/-! # Contraction

`free` gives space back when its hole borders the end of the heap. `contract`
rounds the size by one bit, and its loop stops a page too early, so it does what
it should exactly when there is nothing to give back.
-/
namespace X86OsDev.Tutorial
open Memory Tiling

/-- A well-formed heap whose index has the size that `create_heap` gives it. No slot of it, used or not,
reads as a magic number. -/
structure Indexed (h : Heap) (ts : List Tile) : Prop extends WellFormed h ts where
  maxSize : h.index.maxSize = 0x20000
  maxLt : h.maxAddress < 2 ^ 32
  slots : ∀ i < 0x20000, h.index.slot h.mem i = 0 ∨ h.startAddress ≤ h.index.slot h.mem i

/-- `free` reaches the call of `contract` with this header. -/
def Heap.Contracts (h : Heap) (p header : ℕ) : Prop :=
  ∃ h1 footer testHeader doAdd, h.merged p = some (h1,header,footer,testHeader,doAdd) ∧
    u32 (footer + footerSize) = h1.endAddress

/-- The frames once the loop of `contract` is done. -/
def Heap.contractFrames (h : Heap) (s : Frames.Sys ℕ) (header : ℕ) : Frames.Sys ℕ :=
  (Frames.Routine.contract (· / 0x1000) h.startAddress h.length
    (Heap.contractSize (sub32 header h.startAddress))).run s

/-- The heap shrank from `h` to `g` and lost nothing: the end is on a page boundary, above every block
but the one at `p` and above the smallest size, the pages from there on have no frame any more, and the
hole at `header` ends there or is gone. -/
structure Contracted (h g : Heap) (ts : List Tile) (s t : Frames.Sys ℕ) (p header : ℕ) : Prop where
  aligned : g.endAddress % 0x1000 = 0
  live : ∀ b ∈ ts, b.hole = false → b.addr + 12 ≠ p → b.addr + b.len ≤ g.endAddress
  minimum : h.endAddress < h.startAddress + heapMinSize ∨ h.startAddress + heapMinSize ≤ g.endAddress
  frames : ∀ page, ((s.page page).frame ≠ 0 ∧ (t.page page).frame = 0) ↔
    (g.endAddress ≤ page * 0x1000 ∧ page * 0x1000 < h.endAddress)
  hole : (g.endAddress ≤ h.endAddress ∧ header < g.endAddress ∧
      Formed g.mem ⟨header,g.endAddress - header,true⟩ ∧ header ∈ g.index.entries g.mem) ∨
    (g.endAddress ≤ header ∧ header ∉ g.index.entries g.mem)

section Frames

theorem freed_frame (l : List ℕ) (f : ℕ → ℕ) (s : Frames.Sys ℕ) (page : ℕ) :
    (((l.map fun i => Frames.Call.free (f i)).foldl Frames.step s).page page).frame = 0 ↔
      (∃ i ∈ l, page = f i) ∨ (s.page page).frame = 0 := by
  induction l generalizing s with
  | nil => simp
  | cons q l ih =>
    rw [List.map_cons, List.foldl_cons, ih]
    have hfree : ((Frames.step s (.free (f q))).page page).frame = 0 ↔ page = f q ∨ (s.page page).frame = 0 := by
      by_cases hq : page = f q
      · subst hq
        simp only [Frames.step, Frames.Sys.set, Function.update_self, true_or, iff_true]
        unfold Frames.freeFrame
        split
        · assumption
        · rfl
      · simp [Frames.step, Frames.Sys.set, hq]
    simp only [hfree, List.mem_cons, exists_eq_or_imp, or_assoc, or_left_comm]

/-- A page that loses its frame lies a page or more below the old end, above the new size. -/
theorem contractFrames_lost {h : Heap} {s : Frames.Sys ℕ} {header page : ℕ} (hs : (s.page page).frame ≠ 0)
    (ht : ((h.contractFrames s header).page page).frame = 0) :
    ∃ k < h.length / 0x1000, Heap.contractSize (sub32 header h.startAddress) < h.length - 0x1000 * (k + 1) ∧
      page = u32 (h.startAddress + (h.length - 0x1000 * (k + 1))) / 0x1000 := by
  unfold Heap.contractFrames Frames.Routine.run Frames.Routine.calls at ht
  dsimp only at ht
  rcases (freed_frame _ _ _ _).mp ht with ⟨i,hi,rfl⟩ | h0
  · have hlow := List.mem_takeWhile_imp hi
    obtain ⟨k,hk,rfl⟩ := List.mem_map.mp ((List.takeWhile_sublist _).subset hi)
    exact ⟨k,List.mem_range.mp hk,of_decide_eq_true hlow,rfl⟩
  · exact absurd h0 hs

end Frames

section Contract
variable {h : Heap} {ts : List Tile} {s : Frames.Sys ℕ} {p header : ℕ}

/-- The size that `contract` settles on is smaller than the heap if the smallest size is. -/
theorem contractSize_bounds {k n : ℕ} (hk : k < n) (hn : heapMinSize < n) :
    heapMinSize ≤ Heap.contractSize k ∧ Heap.contractSize k < n := by
  unfold Heap.contractSize heapMinSize at *
  dsimp only
  split_ifs
  all_goals omega

/-- The header that `free` works with is the block's or the one of the hole before it. -/
theorem Indexed.leftHeader_le (w : Indexed h ts) {a len : ℕ} (ht : ⟨a,len,false⟩ ∈ ts)
    (footer : ℕ) {m : Mem} {x : ℕ} {add : Bool}
    (hleft : Heap.unifyLeft (store8 h.mem (a + 4) 1) a footer = (m,x,add)) :
    h.startAddress ≤ x ∧ x ≤ a := by
  obtain ⟨pre,post,-,hpre,-,-⟩ := w.tiles.split ht
  have hst := w.start
  have hch := store8_changedIn h.mem (a + 4) 1
  have hle := hpre.le
  dsimp only at hle hpre
  by_cases hbefore : HoleBefore (store8 h.mem (a + 4) 1) a
  · rcases List.eq_nil_or_concat pre with rfl | ⟨pre,l,rfl⟩
    · have ha : h.startAddress = a := hpre
      have hs := w.slots 0x1FFFE (by omega)
      have hmagic := hbefore.1
      unfold magicOf heapMagic at hmagic
      unfold OrderedArray.slot at hs
      rw [load32_congr (hch.sameOn (by unfold Apart; omega)),
        show a - 8 = h.index.array + 4 * 0x1FFFE by rw [w.array]; omega] at hmagic
      omega
    · rw [List.concat_eq_append] at hpre
      obtain ⟨hrest,hl,hla⟩ := tiles_snoc.mp hpre
      have hfit := hl.head.fit
      have hle2 := hrest.le
      have hhead := hl.foot.header
      rw [hla] at hhead
      have hhead2 : headerOf (store8 h.mem (a + 4) 1) (a - 8) = l.addr :=
        (load32_congr (hch.sameOn (by unfold Apart; omega))).trans hhead
      have heq := (Heap.unifyLeft_of_hole footer (by omega) hbefore hhead2).1
      rw [hleft] at heq
      obtain ⟨-,rfl,-⟩ : _ ∧ x = l.addr ∧ _ := by simpa using heq
      omega
  · have heq := (Heap.unifyLeft_of_not footer (by omega) hbefore).1
    rw [hleft] at heq
    obtain ⟨-,rfl,-⟩ : _ ∧ x = a ∧ _ := by simpa using heq
    omega

theorem Heap.unifyRight_bounds {g h1 : Heap} {footer footer' : ℕ}
    (hr : g.unifyRight header footer = some (h1,footer')) :
    h1.startAddress = g.startAddress ∧ h1.endAddress = g.endAddress := by
  unfold Heap.unifyRight at hr
  dsimp only at hr
  split at hr
  · split at hr
    · obtain ⟨rfl,-⟩ := Prod.mk.inj (Option.some.inj hr)
      exact ⟨rfl,rfl⟩
    · cases hr
  · obtain ⟨rfl,-⟩ := Prod.mk.inj (Option.some.inj hr)
    exact ⟨rfl,rfl⟩

/-- A call of `contract` for a header inside the heap returns and sets the end. -/
theorem Heap.shrink_end {footer : ℕ} (testHeader : ℕ) (hst : h.startAddress = 0xC0080000) (hlt : h.endAddress < 2 ^ 32)
    (hx1 : h.startAddress ≤ header) (hx2 : header < h.endAddress) (hend : u32 (footer + footerSize) = h.endAddress) :
    ∃ g, h.shrink header footer testHeader = some g ∧
      g.endAddress = h.startAddress + Heap.contractSize (header - h.startAddress) := by
  have hlen : h.length = h.endAddress - h.startAddress := sub32_of_le (by omega)
  have harg : sub32 header h.startAddress = header - h.startAddress := sub32_of_le hx1
  have hsize : Heap.contractSize (header - h.startAddress) < 2 ^ 32 - 0xC0080000 := by
    unfold Heap.contractSize heapMinSize
    dsimp only
    split_ifs
    all_goals omega
  have hcon : h.contract (header - h.startAddress) =
      some ({ h with endAddress := h.startAddress + Heap.contractSize (header - h.startAddress) },
        Heap.contractSize (header - h.startAddress)) := by
    unfold Heap.contract
    rw [if_neg (by omega), u32_of_lt (by omega)]
  unfold Heap.shrink
  simp only [if_pos hend, harg, hcon, Option.bind_eq_bind, Option.bind_some]
  split
  · exact ⟨_,rfl,rfl⟩
  · split
    · exact ⟨_,rfl,rfl⟩
    · exact ⟨_,rfl,rfl⟩

/-- The block and the hole before it, in `free`. -/
theorem Indexed.free_contracts (w : Indexed h ts) {a len : ℕ} (ht : ⟨a,len,false⟩ ∈ ts)
    (hc : h.Contracts (a + 12) header) :
    h.startAddress ≤ header ∧ header ≤ a ∧ ∃ g, h.free (a + 12) = some g ∧
      g.endAddress = h.startAddress + Heap.contractSize (header - h.startAddress) := by
  obtain ⟨h1,footer,testHeader,doAdd,hmerged,hend⟩ := hc
  obtain ⟨hf,hlo,hhi⟩ := w.tiles.mem ht
  have hlt := w.endLt
  have hfit := hf.head.fit
  dsimp only at hlo hhi hfit
  generalize hleft : Heap.unifyLeft (store8 h.mem (a + 4) 1) a (a + len - 8) = l
  obtain ⟨m,x,add⟩ := l
  obtain ⟨hx1,hx2⟩ := w.leftHeader_le ht _ hleft
  have hcall := hmerged
  rw [Heap.merged_block hf (by omega) hleft] at hmerged
  obtain ⟨⟨g,f⟩,hr,hres⟩ := Option.map_eq_some_iff.mp hmerged
  simp only [Prod.mk.injEq] at hres
  obtain ⟨rfl,rfl,rfl,rfl,rfl⟩ := hres
  obtain ⟨hs1,he1⟩ := Heap.unifyRight_bounds hr
  dsimp only at hs1 he1
  obtain ⟨g',hshrink,hgend⟩ := Heap.shrink_end (a + len) (hs1.trans w.start) (by omega) (hs1.trans_le hx1) (by omega) hend
  rw [hs1] at hgend
  refine ⟨hx1,hx2,_,by rw [Heap.free_of_merged (by omega) hcall, hshrink]; rfl,?_⟩
  cases add with
  | true => exact hgend
  | false => exact hgend

/-- The loop of `contract` leaves a page out, so nothing may be given back. -/
theorem Contracted.minimal {g : Heap} (w : WellFormed h ts) (hx1 : h.startAddress ≤ header)
    (hx2 : header < h.endAddress) (hg : g.endAddress = h.startAddress + Heap.contractSize (header - h.startAddress))
    (hc : Contracted h g ts s (h.contractFrames s header) p header) :
    h.endAddress = h.startAddress + heapMinSize := by
  have hst := w.start
  have hlt := w.endLt
  have hlen : h.length = h.endAddress - h.startAddress := sub32_of_le (by omega)
  have harg : sub32 header h.startAddress = header - h.startAddress := sub32_of_le hx1
  rcases Nat.lt_trichotomy (h.startAddress + heapMinSize) h.endAddress with hlong | heq | hshort
  · obtain ⟨hlo,hhi⟩ := contractSize_bounds (k := header - h.startAddress) (n := h.endAddress - h.startAddress)
      (by omega) (by omega)
    have hal := hc.aligned
    have hlost : ∀ page, g.endAddress ≤ page * 0x1000 → page * 0x1000 < h.endAddress →
        ∃ k < h.length / 0x1000, g.endAddress < h.endAddress - 0x1000 * (k + 1) ∧
          page = (h.endAddress - 0x1000 * (k + 1)) / 0x1000 := by
      intro page hp1 hp2
      obtain ⟨hs,ht⟩ := (hc.frames page).mpr ⟨hp1,hp2⟩
      obtain ⟨k,hk,hk1,hk2⟩ := contractFrames_lost hs ht
      rw [harg] at hk1
      have hsum : h.startAddress + (h.length - 0x1000 * (k + 1)) = h.endAddress - 0x1000 * (k + 1) := by omega
      rw [hsum, u32_of_lt (by omega)] at hk2
      exact ⟨k,hk,by omega,hk2⟩
    -- the page at the new end when the old end is a page boundary, else the last page
    by_cases hend : h.endAddress % 0x1000 = 0
    · obtain ⟨k,hk,hk1,hk2⟩ := hlost (g.endAddress / 0x1000) (by omega) (by omega)
      omega
    · obtain ⟨k,hk,hk1,hk2⟩ := hlost (h.endAddress / 0x1000) (by omega) (by omega)
      omega
  · exact heq.symm
  · have hmin := Heap.contractSize_of_lt (k := header - h.startAddress) (by omega)
    rw [hmin] at hg
    rcases hc.hole with ⟨h1,-⟩ | ⟨h1,-⟩
    · omega
    · omega

/-! ## A heap of the smallest size -/

theorem matches_blocks (ts : List Tile) (hts : ∀ t ∈ ts, 20 ≤ t.len) :
    Matches ((ts.filter (fun t => !t.hole)).map fun t => (t.addr + 12,t.len - 20)) ts := by
  refine ⟨by simp [blocks, Function.comp_def],fun b hb => ?_⟩
  obtain ⟨t,ht,rfl⟩ := List.mem_map.mp hb
  obtain ⟨hmem,hhole⟩ := List.mem_filter.mp ht
  have hfit := hts t hmem
  exact ⟨t,hmem,by simpa using hhole,rfl,by dsimp only; omega⟩

/-- A heap of the smallest size has far fewer holes than slots. -/
theorem WellFormed.room (w : WellFormed h ts) (hend : h.endAddress = h.startAddress + heapMinSize) :
    h.index.size < 0x20000 := by
  have hlen := w.tiles.length_le fun t ht => ht.head.fit
  have hperm := w.index.length_eq
  have hholes : (holes ts).length ≤ ts.length := by
    unfold holes
    rw [List.length_map]
    exact List.length_filter_le _ _
  rw [OrderedArray.length_entries] at hperm
  unfold heapMinSize at hend
  omega

/-- When `free` gets as far as `contract`, a hole on the right is the last tile, and what lies after the
heap was not taken for a hole: it would have been missing from the index. -/
theorem Gap.right_last {live : List (ℕ × ℕ)} {extra : List ℕ} {pre post : List Tile} {x k footer : ℕ} {h1 : Heap}
    (g : Gap h live extra pre x k post) (hx : Formed h.mem ⟨x,k,true⟩) (hextra : ∀ y ∈ extra, y < h.endAddress)
    (hr : h.unifyRight x (x + k - 8) = some (h1,footer)) (hend : u32 (footer + footerSize) = h.endAddress) :
    (x + k ≠ h.endAddress → isHoleOf h.mem (x + k) ≠ 0 → x + k + sizeOf h.mem (x + k) = h.endAddress) ∧
      (x + k = h.endAddress → ¬ (magicOf h.mem (x + k) = heapMagic ∧ isHoleOf h.mem (x + k) ≠ 0)) := by
  have hfit : 20 ≤ k := hx.head.fit
  have he := g.le_end
  have hlt := g.geo.endLt
  have htest : u32 (x + k - 8 + footerSize) = x + k := by
    unfold footerSize
    rw [u32_of_lt (by omega)]
    omega
  unfold Heap.unifyRight at hr
  simp only [htest] at hr
  constructor
  · intro hne hhole
    cases post with
    | nil => exact absurd g.after hne
    | cons r post =>
      obtain ⟨hra,hf,hrest⟩ := g.after
      have hle := hrest.le
      have hfit2 := hf.head.fit
      have hsize : sizeOf h.mem (x + k) = r.len := by
        rw [← hra]
        exact hf.head.size
      have hmagic : magicOf h.mem (x + k) = heapMagic := by
        rw [← hra]
        exact hf.head.magic
      rw [if_pos ⟨hmagic,hhole⟩] at hr
      split at hr
      · obtain ⟨-,rfl⟩ := Prod.mk.inj (Option.some.inj hr)
        have hkeep : sizeOf (setSize h.mem x (u32 (sizeOf h.mem x + sizeOf h.mem (x + k)))) (x + k) = r.len :=
          (load32_congr ((setSize_changedIn _ _ _).sameOn (by unfold Apart; omega))).trans hsize
        have hfoot : sub32 (u32 (x + k + r.len)) footerSize + footerSize = x + k + r.len := by
          unfold footerSize
          rw [u32_of_lt (by omega), sub32_of_le (by omega)]
          omega
        rw [hkeep, hfoot, u32_of_lt (by omega)] at hend
        omega
      · cases hr
  · intro heq hc
    rw [if_pos hc] at hr
    split at hr
    · rename_i hfound
      have hslot := OrderedArray.search_spec _ _ _ hfound
      rw [beq_iff_eq] at hslot
      have hmem := OrderedArray.mem_entries.mpr ⟨_,hfound,hslot⟩
      have g2 := g.frame ((setSize_changedIn h.mem x (u32 (sizeOf h.mem x + sizeOf h.mem (x + k)))).mono le_rfl
        (by omega : x + 12 ≤ x + k))
      rcases List.mem_append.mp (g2.index.mem_iff.mp hmem) with hy | hy
      · have := hextra _ hy
        omega
      · have hholes : ∃ t ∈ pre ++ post, t.addr = x + k ∧ t.addr + t.len ≤ h.endAddress ∧ 20 ≤ t.len := by
          rw [← holes_append] at hy
          obtain ⟨t,ht,-,hta⟩ := mem_holes.mp hy
          refine ⟨t,ht,hta,?_⟩
          rcases List.mem_append.mp ht with ht | ht
          · obtain ⟨hf,-,hhi⟩ := g.before.mem ht
            exact ⟨by omega,hf.head.fit⟩
          · obtain ⟨hf,-,hhi⟩ := g.after.mem ht
            exact ⟨hhi,hf.head.fit⟩
        obtain ⟨t,-,h2,h3,h4⟩ := hholes
        omega
    · cases hr

/-- With nothing to give back the hole at the end stays as it is. -/
theorem Indexed.contracted (w : Indexed h ts) (hmin : h.endAddress = h.startAddress + heapMinSize) {a len : ℕ}
    (ht : ⟨a,len,false⟩ ∈ ts) (hc : h.Contracts (a + 12) header) {g : Heap} (hfree : h.free (a + 12) = some g)
    (hg : g.endAddress = h.startAddress + Heap.contractSize (header - h.startAddress)) (hx1 : h.startAddress ≤ header)
    (hx2 : header ≤ a) : Contracted h g ts s (h.contractFrames s header) (a + 12) header := by
  have hst := w.start
  have hlt := w.endLt
  obtain ⟨hf0,hlo0,hhi0⟩ := w.tiles.mem ht
  have hfit0 := hf0.head.fit
  dsimp only at hlo0 hhi0 hfit0
  have hsame : g.endAddress = h.endAddress := by
    rw [hg, hmin, Heap.contractSize_of_lt (by omega)]
  have hlen : h.length = h.endAddress - h.startAddress := sub32_of_le (by omega)
  have hwhole : Whole h ((ts.filter (fun t => !t.hole)).map fun t => (t.addr + 12,t.len - 20)) ts :=
    ⟨⟨w.array,w.maxSize,w.start,w.endLt,w.maxLt,hmin.ge,w.size,w.slots⟩,w.tiles,w.index,
      matches_blocks ts fun t ht => (w.tiles.mem ht).1.head.fit⟩
  have hhole : header < g.endAddress ∧ Formed g.mem ⟨header,g.endAddress - header,true⟩ ∧
      header ∈ g.index.entries g.mem := by
    have hlive : (a + 12,len - 20) ∈ (ts.filter (fun t => !t.hole)).map fun t => (t.addr + 12,t.len - 20) :=
      List.mem_map.mpr ⟨⟨a,len,false⟩,List.mem_filter.mpr ⟨ht,rfl⟩,rfl⟩
    obtain ⟨pre,⟨b,n,hole⟩,post,-,hblock,haddr,-,hf,g0⟩ := hwhole.openBlock hlive
    obtain rfl : hole = false := hblock
    obtain rfl : b = a := Nat.add_right_cancel haddr
    obtain rfl : n = len := hf.head.size.symm.trans hf0.head.size
    dsimp only at g0
    have g1 := g0.frame ((store8_changedIn h.mem (b + 4) 1).mono (by omega) (by omega : b + 4 + 1 ≤ b + n))
    obtain ⟨m,x,k,pre',add,hleft,g2,hx,hxk,-,-⟩ := g1.unifyLeft (markHole hf)
    obtain ⟨h1,footer,testHeader,doAdd,hmerged,hend⟩ := hc
    have hcall := hmerged
    rw [Heap.merged_block hf (by omega) hleft, ← hxk] at hmerged
    obtain ⟨⟨h1',f⟩,hr,hres⟩ := Option.map_eq_some_iff.mp hmerged
    simp only [Prod.mk.injEq] at hres
    obtain ⟨rfl,rfl,rfl,rfl,rfl⟩ := hres
    have he1 := (Heap.unifyRight_bounds hr).2
    dsimp only at he1
    rw [he1] at hend
    obtain ⟨hright,hlast⟩ := g2.right_last hx (fun y hy => by
      cases add with
      | true => cases hy
      | false =>
        obtain rfl := List.mem_singleton.mp hy
        dsimp only
        omega) hr hend
    obtain ⟨h3,k3,h4,k4,post',heq3,hle3,hpost,heq4,hw⟩ := g2.finishFree hx (w.room hmin) hright hlast
      (fun _ => by
        have hfit : 20 ≤ k := hx.head.fit
        dsimp only
        unfold heapMinSize at hmin
        omega) (x + k)
    rw [hr] at heq3
    obtain ⟨rfl,rfl⟩ := Prod.mk.inj (Option.some.inj heq3)
    rw [Heap.free_of_merged (by omega) hcall, heq4] at hfree
    obtain rfl : (if add = true then h4.insertIndex x else h4) = g := Option.some.inj hfree
    have hlast3 : x + k3 = h1'.endAddress := by
      unfold footerSize at hend
      rw [u32_of_lt (by omega)] at hend
      omega
    rw [hpost hlast3] at hw
    obtain ⟨hbefore,htile,hk4⟩ := tiles_snoc.mp hw.tiles
    dsimp only at hk4
    have hfit4 := htile.head.fit
    dsimp only at hfit4
    rw [← hk4, Nat.add_sub_cancel_left]
    refine ⟨by omega,htile,hw.index.mem_iff.mpr ?_⟩
    simp [holes_cons]
  refine ⟨?_,fun b hb _ _ => ?_,.inr (by omega),fun page => ?_,.inl ⟨hsame.le,hhole⟩⟩
  · rw [hsame, hmin, hst]
    decide
  · rw [hsame]
    exact (w.tiles.mem hb).2.2
  · constructor
    · rintro ⟨hs,hlost⟩
      obtain ⟨k,hk,hk1,-⟩ := contractFrames_lost hs hlost
      rw [show sub32 header h.startAddress = header - h.startAddress from sub32_of_le hx1,
        Heap.contractSize_of_lt (by omega)] at hk1
      omega
    · intro hpage
      omega

/-- For a heap of any size: `free` returns when it reaches `contract`, and the heap shrinks as it should
if and only if it has its smallest size already. -/
theorem contraction_gives_nothing_back (w : Indexed h ts) {a len : ℕ} (ht : ⟨a,len,false⟩ ∈ ts)
    (hc : h.Contracts (a + 12) header) :
    ∃ g, h.free (a + 12) = some g ∧ (Contracted h g ts s (h.contractFrames s header) (a + 12) header ↔
      h.endAddress = h.startAddress + heapMinSize) := by
  obtain ⟨hx1,hx2,g,hfree,hg⟩ := w.free_contracts ht hc
  obtain ⟨hf,-,hhi⟩ := w.tiles.mem ht
  have hfit := hf.head.fit
  dsimp only at hhi hfit
  exact ⟨g,hfree,fun h1 => h1.minimal w.toWellFormed hx1 (by omega) hg,
    fun hmin => w.contracted hmin ht hc hfree hg hx1 hx2⟩

end Contract

/-! ## Two runs -/

theorem Heap.Contracts.of_run {h : Heap} {p header : ℕ}
    (hr : (h.merged p).map (fun r => (r.2.1,decide (u32 (r.2.2.1 + footerSize) = r.1.endAddress))) =
      some (header,true)) : h.Contracts p header := by
  obtain ⟨⟨h1,x,footer,testHeader,doAdd⟩,hm,hres⟩ := Option.map_eq_some_iff.mp hr
  obtain ⟨rfl,hend⟩ := Prod.mk.inj hres
  exact ⟨h1,footer,testHeader,doAdd,hm,of_decide_eq_true hend⟩

/-- The one block of a run of the heap. -/
theorem HeapRun.Inv.indexed {s : HeapRun} (h : HeapRun.Inv s) {a n : ℕ} (hlive : (a + 12,n) ∈ s.live) :
    ∃ ts len, Indexed s.heap ts ∧ ⟨a,len,false⟩ ∈ ts := by
  obtain ⟨ts,w⟩ := h.whole hlive
  obtain ⟨⟨b,len,hole⟩,ht,hblock,haddr,-⟩ := w.lives.2 _ hlive
  obtain rfl : hole = false := hblock
  obtain rfl : b = a := Nat.add_right_cancel haddr
  exact ⟨ts,len,⟨w.wellFormed,w.geo.maxSize,w.geo.maxLt,w.geo.slots⟩,ht⟩

theorem firstAlloc_reached : Transition.Reachable (HeapRun.Created 0xCFFFF000)
    (Transition.Guarded HeapRun.Sound HeapRun.Step) ⟨firstAlloc.1,[(0xC0080000 + 12,100)],1⟩ := by
  have hp : firstAlloc.2 = 0xC0080000 + 12 := by decide +kernel
  rw [← hp]
  exact .next (a := .alloc 100) (.base bootHeap_created) ⟨firstAlloc_sound,firstAlloc_step⟩

/-- The heap gives sixteen pages back and is left with the smallest size. -/
def contractedHeap : Heap := (firstAlloc.1.free (0xC0080000 + 12)).get (by decide +kernel)

/-- A hundred bytes of the smallest heap. -/
def secondAlloc : Heap × ℕ := (contractedHeap.alloc 2 100 false).get (by decide +kernel)

theorem secondAlloc_reached : Transition.Reachable (HeapRun.Created 0xCFFFF000)
    (Transition.Guarded HeapRun.Sound HeapRun.Step) ⟨secondAlloc.1,[(0xC0080000 + 12,100)],3⟩ := by
  have hfree : firstAlloc.1.free (0xC0080000 + 12) = some contractedHeap := by simp [contractedHeap]
  have halloc : contractedHeap.alloc 2 100 false = some (secondAlloc.1,secondAlloc.2) := by simp [secondAlloc]
  have h2 : HeapRun.Step ⟨firstAlloc.1,[(0xC0080000 + 12,100)],1⟩ (.free (0xC0080000 + 12)) ⟨contractedHeap,[],2⟩ := by
    have hstep := HeapRun.Step.free (s := ⟨firstAlloc.1,[(0xC0080000 + 12,100)],1⟩) (n := 100)
      (List.mem_singleton.mpr rfl) hfree
    simpa using hstep
  have hsound2 : firstAlloc.1.FreeSound (0xC0080000 + 12) :=
    ⟨by decide +kernel,by decide +kernel,by decide +kernel,by decide +kernel⟩
  have h3 : HeapRun.Step ⟨contractedHeap,[],2⟩ (.alloc 100) ⟨secondAlloc.1,[(secondAlloc.2,100)],3⟩ :=
    .alloc (by decide) (fun hf => absurd hf (by decide +kernel)) halloc
  have hsound3 : contractedHeap.AllocSound 100 :=
    ⟨by decide +kernel,fun hf => absurd hf (by decide +kernel)⟩
  have hp : secondAlloc.2 = 0xC0080000 + 12 := by decide +kernel
  rw [← hp]
  exact .next (a := .alloc 100) (.next (a := .free (0xC0080000 + 12)) firstAlloc_reached ⟨hsound2,h2⟩) ⟨hsound3,h3⟩

/-- Every page has the frame with its own number. -/
def identityFrames : Frames.Sys ℕ :=
  ⟨fun _ => 0xFFFFFFFF,0x100000,fun page => { Page.blank with present := true, frame := BitVec.ofNat 20 page }⟩

theorem secondAlloc_contracted : ∃ ts g, secondAlloc.1.free (0xC0080000 + 12) = some g ∧
    Contracted secondAlloc.1 g ts identityFrames (secondAlloc.1.contractFrames identityFrames 0xC0080000)
      (0xC0080000 + 12) 0xC0080000 := by
  obtain ⟨ts,len,w,ht⟩ := (HeapRun.Inv.of_reachable (by decide) secondAlloc_reached).indexed (List.mem_singleton.mpr rfl)
  have hc : secondAlloc.1.Contracts (0xC0080000 + 12) 0xC0080000 := .of_run (by decide +kernel)
  obtain ⟨g,hfree,hiff⟩ := contraction_gives_nothing_back (s := identityFrames) w ht hc
  exact ⟨ts,g,hfree,hiff.mpr (by decide +kernel)⟩

/-- From half a megabyte down to the smallest size, one page keeps its frame. -/
theorem contraction_leaves_frames : ∃ h ts a len header s g, Indexed h ts ∧ ⟨a,len,false⟩ ∈ ts ∧
    h.Contracts (a + 12) header ∧ h.free (a + 12) = some g ∧
    ¬ Contracted h g ts s (h.contractFrames s header) (a + 12) header := by
  obtain ⟨ts,len,w,ht⟩ := (HeapRun.Inv.of_reachable (by decide) firstAlloc_reached).indexed (List.mem_singleton.mpr rfl)
  have hc : firstAlloc.1.Contracts (0xC0080000 + 12) 0xC0080000 := .of_run (by decide +kernel)
  obtain ⟨hx1,hx2,g,hfree,hg⟩ := w.free_contracts ht hc
  refine ⟨firstAlloc.1,ts,0xC0080000,len,0xC0080000,identityFrames,g,w,ht,hc,hfree,fun hcon => ?_⟩
  have hend := hcon.minimal w.toWellFormed hx1 (by decide +kernel) hg
  exact absurd hend (by decide +kernel)

end X86OsDev.Tutorial
