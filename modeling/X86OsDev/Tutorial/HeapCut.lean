import Mathlib.Data.List.Find
import X86OsDev.Tutorial.HeapAligned

/-! # Page-aligned blocks of a heap in use

The bytes of the blocks in use belong to their owners, who may write them without
a change to the heap. A page-aligned block is cut out of a hole, which was there
or grew at the end of the heap, and leaves a heap that is whole again.
-/
namespace X86OsDev.Tutorial
open Memory Tiling

/-- A byte of a block in use. -/
def InUse (live : List (ℕ × ℕ)) (x : ℕ) : Prop := ∃ b ∈ live, b.1 ≤ x ∧ x < b.1 + b.2

section Keep
variable {h : Heap} {live : List (ℕ × ℕ)} {extra : List ℕ} {pre post ts : List Tile} {a n : ℕ}

theorem Gap.eq_or_apart (g : Gap h live extra pre a n post) {t u : Tile} (ht : t ∈ pre ++ post) (hu : u ∈ pre ++ post) :
    t = u ∨ t.addr + t.len ≤ u.addr ∨ u.addr + u.len ≤ t.addr := by
  have htiles : Tiles (fun _ => True) h.startAddress h.endAddress (pre ++ ⟨a,n,true⟩ :: post) :=
    tiles_append.mpr ⟨a,g.before.imp_mem fun _ _ _ => trivial,rfl,trivial,g.after.imp_mem fun _ _ _ => trivial⟩
  refine htiles.eq_or_apart ?_ ?_
  · rcases List.mem_append.mp ht with ht | ht <;> simp [ht]
  · rcases List.mem_append.mp hu with hu | hu <;> simp [hu]

/-- Where a tile lies that is not in the gap. -/
theorem Gap.mem_bounds (g : Gap h live extra pre a n post) {t : Tile} (ht : t ∈ pre ++ post) :
    Formed h.mem t ∧ h.startAddress ≤ t.addr ∧ t.addr + t.len ≤ h.endAddress ∧
      (t.addr + t.len ≤ a ∨ a + n ≤ t.addr) := by
  have hs := g.start_le
  have he := g.le_end
  rcases List.mem_append.mp ht with ht | ht
  · obtain ⟨hf,h1,h2⟩ := g.before.mem ht
    exact ⟨hf,h1,by omega,.inl h2⟩
  · obtain ⟨hf,h1,h2⟩ := g.after.mem ht
    exact ⟨hf,by omega,h2,.inr h1⟩

/-- A byte in use is inside a block, behind its header and before its footer. -/
theorem Gap.inUse (g : Gap h live extra pre a n post) {x : ℕ} (hx : InUse live x) :
    ∃ u ∈ pre ++ post, u.addr + 12 ≤ x ∧ x + 8 < u.addr + u.len := by
  obtain ⟨b,hb,h1,h2⟩ := hx
  obtain ⟨u,hu,-,haddr,hlen⟩ := g.lives.2 b hb
  exact ⟨u,hu,by omega,by omega⟩

theorem Gap.not_inUse (g : Gap h live extra pre a n post) {x : ℕ} (h1 : a ≤ x) (h2 : x < a + n) : ¬ InUse live x := by
  intro hx
  obtain ⟨u,hu,h3,h4⟩ := g.inUse hx
  obtain ⟨-,-,-,h5⟩ := g.mem_bounds hu
  omega

/-- What the owners write. -/
theorem Gap.keep (g : Gap h live extra pre a n post) {m : Mem}
    (hm : ∀ x, 0xC0000000 ≤ x → x < h.endAddress → ¬ InUse live x → m x = h.mem x) :
    Gap { h with mem := m } live extra pre a n post := by
  have harr := g.geo.array
  have hst := g.geo.start
  have hsz := g.geo.size
  have hlong := g.geo.long
  -- no byte in use lies in the index, in a header or in a footer
  have hindex : SameOn m h.mem 0xC0000000 0x80000 := by
    intro x h1 h2
    refine hm x h1 (by omega) fun hx => ?_
    obtain ⟨u,hu,h3,-⟩ := g.inUse hx
    obtain ⟨-,h4,-⟩ := g.mem_bounds hu
    omega
  have hformed : ∀ t ∈ pre ++ post, Formed h.mem t → Formed m t := by
    intro t ht hf
    obtain ⟨-,h1,h2,-⟩ := g.mem_bounds ht
    have hfit := hf.head.fit
    have hsame : ∀ x, t.addr ≤ x → x < t.addr + t.len → (x < t.addr + 12 ∨ t.addr + t.len ≤ x + 8) → m x = h.mem x := by
      intro x h3 h4 h5
      refine hm x (by omega) (by omega) fun hx => ?_
      obtain ⟨u,hu,h6,h7⟩ := g.inUse hx
      rcases g.eq_or_apart ht hu with rfl | hap
      · omega
      · omega
    exact ⟨hf.head.congr fun x h3 h4 => hsame x h3 (by omega) (.inl h4),
      hf.foot.congr fun x h3 h4 => hsame x (by omega) (by omega) (.inr (by omega))⟩
  refine ⟨⟨harr,g.geo.maxSize,hst,g.geo.endLt,g.geo.maxLt,hlong,hsz,fun i hi => ?_⟩,?_,?_,?_,g.lives⟩
  · have : h.index.slot m i = h.index.slot h.mem i := load32_congr (hindex.mono (by omega) (by omega))
    simpa only [this] using g.geo.slots i hi
  · exact g.before.imp_mem fun t ht => hformed t (List.mem_append_left _ ht)
  · exact g.after.imp_mem fun t ht => hformed t (List.mem_append_right _ ht)
  · have : h.index.entries m = h.index.entries h.mem :=
      OrderedArray.entries_congr (hindex.mono (by omega) (by omega))
    simpa only [this] using g.index

theorem Whole.keep (w : Whole h live ts) {m : Mem}
    (hm : ∀ x, 0xC0000000 ≤ x → x < h.endAddress → ¬ InUse live x → m x = h.mem x) :
    Whole { h with mem := m } live (ts ++ []) := (w.openEnd.keep hm).close

/-- The slots and the headers that they name. -/
theorem Findable.same (f : Findable h live) {m : Mem}
    (hm : ∀ x, 0xC0000000 ≤ x → x < h.endAddress → ¬ InUse live x → m x = h.mem x) {i : ℕ} (hi : i < h.index.size) :
    h.index.slot m i = h.index.slot h.mem i ∧ SameOn m h.mem (h.index.slot h.mem i) 20 := by
  obtain ⟨pre,n,post,hh,g⟩ := f.hole i hi
  have hs := g.start_le
  have he := g.le_end
  have harr := g.geo.array
  have hst := g.geo.start
  have hsz := g.geo.size
  have hlong := g.geo.long
  have hfit : 20 ≤ n := hh.fit
  refine ⟨load32_congr fun x h1 h2 => hm x (by omega) (by omega) fun hx => ?_,fun x h1 h2 => ?_⟩
  · obtain ⟨u,hu,h3,-⟩ := g.inUse hx
    obtain ⟨-,h4,-⟩ := g.mem_bounds hu
    omega
  · exact hm x (by omega) (by omega) (g.not_inUse h1 (by omega))

theorem Ready.keep (r : Ready h live) {m : Mem}
    (hm : ∀ x, 0xC0000000 ≤ x → x < h.endAddress → ¬ InUse live x → m x = h.mem x) :
    Ready { h with mem := m } live := by
  by_cases h0 : h.index.size = 0
  · obtain ⟨ts,w⟩ := r.whole h0
    exact (w.keep hm).ready
  · obtain ⟨pre,n,post,-,g⟩ := r.findable.hole 0 (by omega)
    refine ⟨⟨(g.keep hm).geo,fun i hi => ?_⟩,fun h1 => absurd h1 h0⟩
    change ∃ pre n post, HeaderAt m ⟨h.index.slot m i,n,true⟩ ∧
      Gap { h with mem := m } live [h.index.slot m i] pre (h.index.slot m i) n post
    obtain ⟨hslot,hhead⟩ := r.findable.same hm hi
    obtain ⟨pre,n,post,hh,g⟩ := r.findable.hole i hi
    rw [hslot]
    exact ⟨pre,n,post,hh.congr (hhead.mono le_rfl (by dsimp only; omega)),g.keep hm⟩

theorem fits_congr {m m' : Mem} {x : ℕ} (hx : sizeOf m x = sizeOf m' x) (size : ℕ) (pageAlign : Bool) :
    Heap.fits m size pageAlign x = Heap.fits m' size pageAlign x := by
  unfold Heap.fits
  rw [hx]

/-- What `find_smallest_hole` finds depends on the bytes not in use alone. -/
theorem Ready.findSmallestHole_eq (r : Ready h live) {m : Mem}
    (hm : ∀ x, 0xC0000000 ≤ x → x < h.endAddress → ¬ InUse live x → m x = h.mem x) (size : ℕ) (pageAlign : Bool) :
    { h with mem := m }.findSmallestHole size pageAlign = h.findSmallestHole size pageAlign := by
  have hsearch : h.index.search m (Heap.fits m size pageAlign) = h.index.search h.mem (Heap.fits h.mem size pageAlign) := by
    unfold OrderedArray.search
    have hfits : ∀ i ∈ List.range h.index.size, Heap.fits m size pageAlign (h.index.slot m i) =
        Heap.fits h.mem size pageAlign (h.index.slot h.mem i) := by
      intro i hi
      obtain ⟨hslot,hhead⟩ := r.findable.same hm (List.mem_range.mp hi)
      rw [hslot]
      exact fits_congr (load32_congr (hhead.mono (by omega) (by omega))) _ _
    rw [List.find?_congr hfits]
  unfold Heap.findSmallestHole
  dsimp only
  rw [hsearch]

/-- So does the hole at the highest address. -/
theorem Ready.endmost_eq (r : Ready h live) {m : Mem}
    (hm : ∀ x, 0xC0000000 ≤ x → x < h.endAddress → ¬ InUse live x → m x = h.mem x) :
    { h with mem := m }.endmost = h.endmost := by
  unfold Heap.endmost
  refine List.foldl_ext _ _ _ fun best i hi => ?_
  have hslot : h.index.slot m i = h.index.slot h.mem i := (r.findable.same hm (List.mem_range.mp hi)).1
  dsimp only
  rw [hslot]

end Keep

/-! ## A block cut out of a hole -/

section Cut
variable {h : Heap} {live : List (ℕ × ℕ)} {extra : List ℕ} {pre post : List Tile} {a n pos size i : ℕ}

/-- A hole at the front of the gap that the index names. -/
theorem Gap.pushHole (g : Gap h live (a :: extra) pre a n post) {k : ℕ} (hk : k ≤ n)
    (ht : Formed h.mem ⟨a,k,true⟩) : Gap h live extra (pre ++ [⟨a,k,true⟩]) (a + k) (n - k) post := by
  refine ⟨g.geo,tiles_snoc.mpr ⟨g.before,ht,rfl⟩,?_,?_,?_,?_⟩
  · have := g.after
    rwa [show a + k + (n - k) = a + n by omega]
  · have hp : (a :: extra ++ (holes pre ++ holes post)).Perm (extra ++ (a :: (holes pre ++ holes post))) :=
      List.perm_middle.symm
    rw [holes_append, holes_cons rfl, holes_nil, List.append_assoc, List.singleton_append]
    exact g.index.trans (hp.trans (List.Perm.append_left extra List.perm_middle.symm))
  · have hp := g.lives.1
    rw [blocks_append] at hp
    rwa [List.append_assoc, blocks_append, List.singleton_append, blocks_cons rfl]
  · intro b hb
    obtain ⟨t,ht,h1⟩ := g.lives.2 b hb
    refine ⟨t,?_,h1⟩
    rcases List.mem_append.mp ht with ht | ht <;> simp [ht]

/-- A page-aligned block out of a hole that splits: what `alloc` leaves is whole, and outside the hole
and the index it is as it was. -/
theorem Findable.cut (f : Findable h live) (hi : i < h.index.size) (hpos : h.index.slot h.mem i = pos)
    (hn : sizeOf h.mem pos = n) (hs : Splits h pos n size) :
    h.allocAt i size (u32 (size + headerSize + footerSize)) true = (splitHeap h pos n size,pos + frontSize pos + 12) ∧
    (∃ ts, Whole (splitHeap h pos n size) ((pos + frontSize pos + 12,size) :: live) ts) ∧
    h.startAddress ≤ pos ∧ pos + n ≤ h.endAddress ∧ (∀ x, pos ≤ x → x < pos + n → ¬ InUse live x) ∧
    ∀ x, ¬ (pos ≤ x ∧ x < pos + n) → ¬ (0xC0000000 ≤ x ∧ x < 0xC0080000) →
      (splitHeap h pos n size).mem x = h.mem x := by
  obtain ⟨hmod,hrest⟩ := hs
  obtain ⟨pre,n',post,hh,g⟩ := f.hole i hi
  rw [hpos] at hh g
  obtain rfl : n' = n := hh.size.symm.trans hn
  have hlo := g.start_le
  have hhi := g.le_end
  have hlt := g.geo.endLt
  have hst := g.geo.start
  have harr := g.geo.array
  have hF : frontSize pos = 0x1000 - pos % 0x1000 - 12 := rfl
  have hF20 : 20 ≤ frontSize pos := by omega
  have hfit : frontSize pos + size + 20 ≤ n' := by omega
  have hchg := (splitMem_changedIn h.mem size hF20).mono (le_refl pos) (show _ ≤ pos + n' by omega)
  have g1 := g.frame hchg
  have g2 := g1.pushHole (by omega) (splitMem_front h.mem size hF20 (by omega))
  have g3 := g2.push (k := size + 20) (by omega) le_rfl (splitMem_block h.mem pos size (by omega))
  refine ⟨allocAt_eq size hpos hn (by omega) hhi hlt hmod hfit,?_,hlo,hhi,fun x h1 h2 => g.not_inUse h1 h2,?_⟩
  · unfold splitHeap
    dsimp only
    rcases hrest with hrest | ⟨hrest,hroom⟩
    · rw [if_pos (by omega)]
      rw [show n' - frontSize pos - (size + 20) = 0 by omega] at g3
      exact ⟨_,g3.close⟩
    · rw [if_neg (by omega)]
      have hw := g3.writeHole (by omega) hroom
      rw [show n' - frontSize pos - (size + 20) = pos + n' - (pos + frontSize pos + (size + 20)) by omega,
        show pos + frontSize pos + (size + 20) + (pos + n' - (pos + frontSize pos + (size + 20))) - 8 = pos + n' - 8 by omega]
        at hw
      exact ⟨_,hw⟩
  · intro x hx hx'
    unfold splitHeap
    dsimp only
    rcases hrest with hrest | ⟨hrest,hroom⟩
    · rw [if_pos (by omega)]
      exact hchg x hx
    · rw [if_neg (by omega), ← hchg x hx]
      generalize hc : pos + frontSize pos + (size + 20) = c
      have htile : ChangedIn (splitMem h.mem pos size)
          (writeFooter (writeHeader (splitMem h.mem pos size) c (pos + n' - c) 1) (pos + n' - 8) c) pos n' := by
        rw [show pos + n' - 8 = c + (pos + n' - c) - 8 by omega]
        exact (Gap.writeTile_changedIn _ (by omega)).mono (by omega) (by omega)
      rw [← htile x hx]
      exact h.index.insert_sameOn _ _ _ (b := x) (k := 1) (by unfold Apart; omega) x le_rfl (by omega)

end Cut

/-! ## A heap that grows -/

/-- Where the hole starts that the new space of a heap joins, or its own. -/
def lastHole (h : Heap) : ℕ := if h.index.size = 0 then h.endAddress else h.endmost.2

/-- The last hole ends the heap, or there is no hole at all. -/
def EndsInHole (h : Heap) : Prop :=
  h.index.size = 0 ∨ h.endmost.2 + sizeOf h.mem h.endmost.2 = h.endAddress

/-- What the owners write does not move the last hole. -/
theorem Ready.lastHole_eq {h : Heap} {live : List (ℕ × ℕ)} (r : Ready h live) {m : Mem}
    (hm : ∀ x, 0xC0000000 ≤ x → x < h.endAddress → ¬ InUse live x → m x = h.mem x) :
    lastHole { h with mem := m } = lastHole h := by
  unfold lastHole
  rw [r.endmost_eq hm]

theorem Ready.endsInHole {h : Heap} {live : List (ℕ × ℕ)} (r : Ready h live) {m : Mem}
    (hm : ∀ x, 0xC0000000 ≤ x → x < h.endAddress → ¬ InUse live x → m x = h.mem x) (hend : EndsInHole h) :
    EndsInHole { h with mem := m } := by
  rcases hend with h0 | hend
  · exact .inl h0
  · rcases h.endmost_spec with ⟨-,hzero⟩ | ⟨i,hi,hmost⟩
    · refine .inl (Nat.eq_zero_of_not_pos fun hpos => ?_)
      obtain ⟨pre,n,post,-,g⟩ := r.findable.hole 0 hpos
      have h1 := hzero 0 hpos
      have h2 := g.start_le
      have h3 := g.geo.start
      omega
    · refine .inr ?_
      rw [r.endmost_eq hm]
      have hsize : sizeOf m h.endmost.2 = sizeOf h.mem h.endmost.2 := by
        rw [hmost]
        exact load32_congr ((r.findable.same hm hi).2.mono (by omega) (by omega))
      exact (congrArg (h.endmost.2 + ·) hsize).trans hend

/-- The heap `g` is the heap `h` with its last hole grown up to the address `e`. -/
structure Grown (h g : Heap) (live : List (ℕ × ℕ)) (e : ℕ) : Prop where
  whole : ∃ ts, Whole g live ts
  endAddress : g.endAddress = e
  maxAddress : g.maxAddress = h.maxAddress
  low : h.startAddress ≤ lastHole h
  high : lastHole h ≤ h.endAddress
  unused : ∀ x, lastHole h ≤ x → ¬ InUse live x
  outside : ∀ x, ¬ (lastHole h ≤ x ∧ x < e) → ¬ (0xC0000000 ≤ x ∧ x < 0xC0080000) → g.mem x = h.mem x
  size : sizeOf g.mem (lastHole h) = e - lastHole h
  named : ∃ i < g.index.size, g.index.slot g.mem i = lastHole h
  others : ∀ i < g.index.size, g.index.slot g.mem i = lastHole h ∨ (i < h.index.size ∧
    g.index.slot g.mem i = h.index.slot h.mem i ∧ sizeOf g.mem (h.index.slot h.mem i) = sizeOf h.mem (h.index.slot h.mem i))
  room : h.index.size < 0x20000 → g.index.size < 0x20000

section Growth
variable {h g : Heap} {live : List (ℕ × ℕ)} {ts : List Tile} {k size : ℕ}

/-- The new space becomes a hole of its own. -/
theorem Whole.grow (w : Whole h live ts) (hsize : h.index.size = 0) (hk : 20 ≤ k) (hlt : h.endAddress + k < 2 ^ 32) :
    Grown h ({ h with endAddress := h.endAddress + k }.addSpace h.length h.endAddress) live (h.endAddress + k) := by
  obtain ⟨g,ts',hg,hw,-,hroom⟩ := w.addSpace hsize hk hlt
  have hlong := w.geo.long
  have hst := w.geo.start
  have harr := w.geo.array
  have hnone : { h with endAddress := h.endAddress + k }.endmost = (none,0) := by
    simp [Heap.endmost, hsize]
  have hgrown := h.length_grow k (by omega)
  have hsz : sizeOf (writeHeader h.mem h.endAddress k 1) h.endAddress = k :=
    (writeHeader_headerAt h.mem true hk (by omega)).size
  have hfoot : sub32 (u32 (h.endAddress + k)) footerSize = h.endAddress + k - 8 := by
    rw [u32_of_lt hlt]
    exact sub32_of_le (by unfold footerSize; omega)
  have hlast : lastHole h = h.endAddress := if_pos hsize
  generalize hm : writeFooter (writeHeader h.mem h.endAddress k 1) (h.endAddress + k - 8) h.endAddress = m
  have heq : { h with endAddress := h.endAddress + k }.addSpace h.length h.endAddress =
      ({ h with endAddress := h.endAddress + k, mem := m } : Heap).insertIndex h.endAddress := by
    simp only [Heap.addSpace, hnone, hgrown, hsz, hfoot, hm]
  have hchg : ChangedIn h.mem m h.endAddress k := by
    rw [← hm]
    exact Gap.writeTile_changedIn _ hk
  have hhead : Formed m ⟨h.endAddress,k,true⟩ := by
    rw [← hm]
    exact Gap.writeTile_formed _ true hk hlt
  have hpos : h.index.position m (Heap.headerLessThan m) h.endAddress = 0 := by
    have := h.index.position_le m (Heap.headerLessThan m) h.endAddress
    omega
  have hsame : ∀ b n, h.startAddress ≤ b → SameOn (h.index.insert m (Heap.headerLessThan m) h.endAddress).1 m b n :=
    fun b n hb => h.index.insert_sameOn m _ _ (by unfold Apart; omega)
  have hslot : ∀ i < 1, (h.index.insert m (Heap.headerLessThan m) h.endAddress).2.slot
      (h.index.insert m (Heap.headerLessThan m) h.endAddress).1 i = h.endAddress := by
    intro i hi
    have := OrderedArray.slot_insert h.index m (Heap.headerLessThan m) (show h.endAddress < 2 ^ 32 by omega) i
    rw [if_neg (by omega), if_pos (by omega)] at this
    refine Eq.trans ?_ this
    unfold OrderedArray.slot
    rw [OrderedArray.insert_array]
  have hone : (h.index.insert m (Heap.headerLessThan m) h.endAddress).2.size = 1 := by
    rw [OrderedArray.insert_size _ _ (by omega), hsize]
  subst hg
  rw [heq] at hw hroom ⊢
  refine ⟨⟨ts',hw⟩,rfl,rfl,by omega,by omega,fun x hx => ?_,fun x hx hx' => ?_,?_,⟨0,?_,?_⟩,fun i hi => .inl ?_,fun _ => hroom⟩
  · rintro ⟨b,hb,h1,h2⟩
    obtain ⟨u,hu,-,haddr,hlen⟩ := w.lives.2 b hb
    have := (w.tiles.mem hu).2.2
    omega
  · rw [← hchg x (by omega)]
    change (h.index.insert m (Heap.headerLessThan m) h.endAddress).1 x = m x
    exact h.index.insert_sameOn _ _ _ (b := x) (k := 1) (by unfold Apart; omega) x le_rfl (by omega)
  · rw [hlast]
    change sizeOf (h.index.insert m (Heap.headerLessThan m) h.endAddress).1 h.endAddress = _
    rw [show sizeOf (h.index.insert m (Heap.headerLessThan m) h.endAddress).1 h.endAddress = sizeOf m h.endAddress from
      load32_congr (hsame _ _ (by omega)), hhead.head.size]
    dsimp only
    omega
  · change 0 < (h.index.insert m (Heap.headerLessThan m) h.endAddress).2.size
    omega
  · rw [hlast]
    exact hslot 0 (by omega)
  · rw [hlast]
    exact hslot i (by rw [← hone]; exact hi)

/-- The new space joins the last hole. -/
theorem Findable.grow (f : Findable h live) {i : ℕ} (hi : i < h.index.size) (hmost : h.endmost = (some i,h.index.slot h.mem i))
    (hroom : h.index.size < 0x20000)
    (hend : h.index.slot h.mem i + sizeOf h.mem (h.index.slot h.mem i) = h.endAddress) (hlt : h.endAddress + k < 2 ^ 32) :
    Grown h ({ h with endAddress := h.endAddress + k }.addSpace h.length h.endAddress) live (h.endAddress + k) := by
  obtain ⟨g,ts',hg,hw,-,-⟩ := f.addSpace (k := k) hi hmost hroom hend hlt
  obtain ⟨pre,n,post,hh,gap⟩ := f.hole i hi
  have hlong := f.geo.long
  have hst := f.geo.start
  have harr := f.geo.array
  have hsz : sizeOf h.mem (h.index.slot h.mem i) = n := hh.size
  have hfit : 20 ≤ n := hh.fit
  have hlow := gap.start_le
  have hlast : lastHole h = h.index.slot h.mem i := by
    unfold lastHole
    rw [if_neg (by omega), hmost]
  have hmost' : { h with endAddress := h.endAddress + k }.endmost = (some i,h.index.slot h.mem i) := hmost
  have hgrown := h.length_grow k (by omega)
  have hslots : ∀ j < h.index.size, h.startAddress ≤ h.index.slot h.mem j := fun j hj => by
    obtain ⟨pre,n,post,-,gap⟩ := f.hole j hj
    exact gap.start_le
  have hpost : post = [] := by
    have := gap.after
    rw [show h.index.slot h.mem i + n = h.endAddress by omega] at this
    exact Tiles_end_nil this
  have hothers : ∀ j < h.index.size, h.index.slot h.mem j = h.index.slot h.mem i ∨
      h.index.slot h.mem j + 12 ≤ h.index.slot h.mem i := by
    intro j hj
    rcases List.mem_append.mp (gap.index.mem_iff.mp (OrderedArray.mem_entries.mpr ⟨j,hj,rfl⟩)) with hy | hy
    · exact .inl (List.mem_singleton.mp hy)
    · rw [hpost, holes_nil, List.append_nil] at hy
      obtain ⟨t,ht,-,haddr⟩ := mem_holes.mp hy
      obtain ⟨ht,-,hle⟩ := gap.before.mem ht
      have := ht.head.fit
      omega
  generalize hx : h.index.slot h.mem i = x at *
  rw [hsz] at hend
  have hu : u32 (n + k) = n + k := u32_of_lt (by omega)
  have hsz2 := sizeOf_setSize h.mem x (show n + k < 2 ^ 32 by omega)
  have hfoot : sub32 (u32 (x + (n + k))) footerSize = x + (n + k) - 8 := by
    rw [u32_of_lt (by omega)]
    exact sub32_of_le (by unfold footerSize; omega)
  generalize hm : writeFooter (setSize h.mem x (n + k)) (x + (n + k) - 8) x = m
  have heq : { h with endAddress := h.endAddress + k }.addSpace h.length h.endAddress =
      { h with endAddress := h.endAddress + k, mem := m } := by
    simp only [Heap.addSpace, hmost', hx, hgrown, hsz, hu, hsz2, hfoot, hm]
  have hchg : ChangedIn h.mem m x (n + k) := by
    rw [← hm]
    exact ((setSize_changedIn h.mem x (n + k)).mono le_rfl (by omega)).trans
      ((writeFooter_changedIn _ (x + (n + k) - 8) x).mono (by omega) (by omega))
  have hsize : sizeOf m x = n + k := by
    rw [← hm]
    refine (load32_congr (ChangedIn.sameOn (writeFooter_changedIn _ (x + (n + k) - 8) x) ?_)).trans hsz2
    unfold Apart
    omega
  have hslot : ∀ j < h.index.size, h.index.slot m j = h.index.slot h.mem j := fun j hj =>
    load32_congr (hchg.sameOn (by unfold Apart; omega))
  subst hg
  rw [heq] at hw ⊢
  refine ⟨⟨ts',hw⟩,rfl,rfl,by omega,by omega,fun y hy => ?_,fun y hy _ => hchg y (by omega),?_,⟨i,hi,?_⟩,fun j hj => ?_,
    fun _ => hroom⟩
  · rintro ⟨b,hb,h1,h2⟩
    obtain ⟨u,hu,-,haddr,hlen⟩ := gap.lives.2 b hb
    rw [hpost, List.append_nil] at hu
    have := (gap.before.mem hu).2.2
    omega
  · rw [hlast]
    change sizeOf m x = _
    omega
  · rw [hlast, ← hx]
    exact hslot i hi
  · rw [hlast]
    change h.index.slot m j = x ∨ (j < h.index.size ∧ h.index.slot m j = h.index.slot h.mem j ∧
      sizeOf m (h.index.slot h.mem j) = sizeOf h.mem (h.index.slot h.mem j))
    rw [hslot j hj]
    refine (hothers j hj).imp id fun h1 => ⟨hj,rfl,?_⟩
    exact load32_congr (hchg.sameOn (by unfold Apart; omega))

theorem Ready.grow (r : Ready h live) (hlast : EndsInHole h) (hroom : h.index.size < 0x20000) (hk : 20 ≤ k)
    (hlt : h.endAddress + k < 2 ^ 32) :
    Grown h ({ h with endAddress := h.endAddress + k }.addSpace h.length h.endAddress) live (h.endAddress + k) := by
  by_cases h0 : h.index.size = 0
  · obtain ⟨ts,w⟩ := r.whole h0
    exact w.grow h0 hk hlt
  rcases h.endmost_spec with ⟨-,hzero⟩ | ⟨i,hi,hmost⟩
  · obtain ⟨pre,n,post,-,g⟩ := r.findable.hole 0 (by omega)
    have h1 := hzero 0 (by omega)
    have h2 := g.start_le
    have h3 := g.geo.start
    omega
  · have hend := hlast.resolve_left h0
    rw [hmost] at hend
    exact r.findable.grow hi hmost hroom hend hlt

/-- The test of `find_smallest_hole` for a hole that splits. -/
theorem fits_of_splits {m : Mem} {pos n size : ℕ} (hn : sizeOf m pos = n) (hs : Splits h pos n size) (hlt : pos + n < 2 ^ 32)
    (hsmall : n < 2 ^ 31) : Heap.fits m (size + 20) true pos = true := by
  obtain ⟨hmod,hrest⟩ := hs
  have hF : frontSize pos = 0x1000 - pos % 0x1000 - 12 := rfl
  have hloc : u32 (pos + headerSize) = pos + 12 := u32_of_lt (by unfold headerSize; omega)
  unfold Heap.fits
  rw [if_pos rfl, hn, hloc, sint32_of_lt hsmall, sint32_of_lt (by omega)]
  dsimp only
  rw [decide_eq_true_eq]
  split <;> omega

/-- When nothing was found before, the search finds the hole that has grown. -/
theorem Grown.finds (gr : Grown h g live (h.endAddress + k)) (hst : h.startAddress = 0xC0080000)
    (hlt : h.endAddress + k < 2 ^ 32) (hf : h.findSmallestHole (size + 20) true = none)
    (hs : Splits g (lastHole h) (h.endAddress + k - lastHole h) size) :
    ∃ i < g.index.size, g.findSmallestHole (size + 20) true = some i ∧ g.index.slot g.mem i = lastHole h := by
  have hlow := gr.low
  have hhigh := gr.high
  have hfits := fits_of_splits gr.size hs (by omega) (by omega)
  -- no hole was large enough before
  have hnone : h.index.search h.mem (Heap.fits h.mem (size + 20) true) = h.index.size := by
    unfold Heap.findSmallestHole at hf
    dsimp only at hf
    split at hf
    · assumption
    · cases hf
  have hold := h.index.search_eq_size h.mem _ hnone
  obtain ⟨i,hi,hslot⟩ := gr.named
  have hsearch := g.index.search_lt (p := Heap.fits g.mem (size + 20) true) hi (by rw [hslot]; exact hfits)
  refine ⟨_,hsearch,?_,?_⟩
  · unfold Heap.findSmallestHole
    dsimp only
    rw [if_neg (by omega)]
  · have hspec := g.index.search_spec g.mem _ hsearch
    rcases gr.others _ hsearch with h1 | ⟨hi,h1,h2⟩
    · exact h1
    · have hno := hold _ hi
      rw [h1, fits_congr h2] at hspec
      rw [hspec] at hno
      cases hno

end Growth
end X86OsDev.Tutorial
