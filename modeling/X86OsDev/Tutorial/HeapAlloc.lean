import X86OsDev.Tutorial.HeapTiling

/-! # What `alloc` does to the tiling -/
namespace X86OsDev.Tutorial
open Memory Tiling

theorem Heap.removeIndex_size_lt {h : Heap} {i : ℕ} (hi : i < h.index.size) :
    (h.removeIndex i).index.size < h.index.size := by
  have := h.index.remove_size h.mem i (by omega)
  change (h.index.remove h.mem i).2.size < h.index.size
  omega

namespace Geometry
variable {h : Heap}

theorem insertIndex_sameOn (g : Geometry h) (hroom : h.index.size < 0x20000) (x : ℕ) {a k : ℕ}
    (ha : h.startAddress ≤ a) : SameOn (h.insertIndex x).mem h.mem a k := by
  have harr := g.array
  have hst := g.start
  exact h.index.insert_sameOn h.mem _ _ (by unfold Apart; omega)

theorem removeIndex_sameOn (g : Geometry h) {i a k : ℕ} (hi : i < h.index.size)
    (ha : h.startAddress ≤ a) : SameOn (h.removeIndex i).mem h.mem a k := by
  have harr := g.array
  have hst := g.start
  have hsz := g.size
  exact h.index.remove_sameOn h.mem hi.le (by unfold Apart; omega)

end Geometry

namespace Gap
variable {h : Heap} {live : List (ℕ × ℕ)} {pre post : List Tile} {a n : ℕ}

/-- A header and a footer written into the gap make it a tile of the heap. -/
theorem writeTile_formed (m : Mem) {a k : ℕ} (hole : Bool) (hk : 20 ≤ k) (hlt : a + k < 2 ^ 32) :
    Formed (writeFooter (writeHeader m a k (if hole then 1 else 0)) (a + k - 8) a) ⟨a,k,hole⟩ where
  head := (writeHeader_headerAt m hole hk (by omega)).congr
    ((writeFooter_changedIn _ _ _).sameOn (by unfold Apart; dsimp only; omega))
  foot := writeFooter_footerAt _ ⟨a,k,hole⟩ (by dsimp only; omega)

theorem writeTile_changedIn (m : Mem) {a k i : ℕ} (hk : 20 ≤ k) :
    ChangedIn m (writeFooter (writeHeader m a k i) (a + k - 8) a) a k :=
  ((writeHeader_changedIn m a k i).mono le_rfl (by omega)).trans
    ((writeFooter_changedIn _ (a + k - 8) a).mono (by omega) (by omega))

/-- A hole that fills the gap is written and put into the index. -/
theorem writeHole (g : Gap h live [] pre a n post) (hn : 20 ≤ n) (hroom : h.index.size < 0x20000) :
    Whole ({ h with mem := writeFooter (writeHeader h.mem a n 1) (a + n - 8) a }.insertIndex a) live
      (pre ++ ⟨a,n,true⟩ :: post) := by
  have hs := g.start_le
  have he := g.le_end
  have hlt := g.geo.endLt
  have g2 := g.frame (writeTile_changedIn h.mem (i := 1) hn)
  refine (g2.insertIndex hroom hs (by omega)).closeHole ?_
  exact (writeTile_formed h.mem true hn (by omega)).congr (g2.geo.insertIndex_sameOn hroom a hs)

/-- `alloc` fills the gap with a block and, when space is left, with a hole. -/
theorem writeBlock (g : Gap h live [] pre a n post) (hroom : h.index.size < 0x20000) {asked size : ℕ}
    (hasked : asked ≤ size) (hsize : size + 20 = n ∨ size + 40 ≤ n) :
    ∃ h' ts, h.writeBlock a n size (size + 20) = (h',a + 12) ∧
      Whole h' ((a + 12,asked) :: live) ts := by
  have he := g.le_end
  have hlt := g.geo.endLt
  have hle : size + 20 ≤ n := by omega
  have hfoot : u32 (a + headerSize + size) = a + (size + 20) - 8 := by
    rw [u32_of_lt (by unfold headerSize; omega)]
    unfold headerSize
    omega
  have hhole : u32 (a + headerSize + size + footerSize) = a + (size + 20) := by
    rw [u32_of_lt (by unfold headerSize footerSize; omega)]
    unfold headerSize footerSize
    omega
  have hret : u32 (a + headerSize) = a + 12 := u32_of_lt (by unfold headerSize; omega)
  have hb := writeTile_formed h.mem (a := a) (k := size + 20) false (by omega) (by omega)
  have g2 := (g.frame ((writeTile_changedIn h.mem (i := 0) (by omega)).mono le_rfl (by omega))).push
    hle (Nat.add_le_add_right hasked 20) hb
  simp only [Heap.writeBlock, hfoot, hhole, hret, sub32_of_le hle]
  rcases hsize with hsize | hsize
  · rw [if_neg (by omega)]
    rw [show n - (size + 20) = 0 by omega] at g2
    exact ⟨_,_,rfl,g2.close⟩
  · have hend : sub32 (u32 (a + (size + 20) + (n - (size + 20)))) footerSize =
        a + (size + 20) + (n - (size + 20)) - 8 := by
      rw [u32_of_lt (by omega)]
      exact sub32_of_le (by unfold footerSize; omega)
    rw [if_pos (by omega), hend, if_pos (by omega)]
    exact ⟨_,_,rfl,g2.writeHole (by omega) hroom⟩

end Gap

/-- Each entry of the index is a hole with its header, and the rest of the heap is formed.
The heap that `create_heap` leaves, with no footer yet, is one of these. -/
structure Findable (h : Heap) (live : List (ℕ × ℕ)) : Prop where
  geo : Geometry h
  hole : ∀ i < h.index.size, ∃ pre n post, HeaderAt h.mem ⟨h.index.slot h.mem i,n,true⟩ ∧
    Gap h live [h.index.slot h.mem i] pre (h.index.slot h.mem i) n post

theorem Whole.findable {h : Heap} {live : List (ℕ × ℕ)} {ts : List Tile} (w : Whole h live ts) :
    Findable h live where
  geo := w.geo
  hole := by
    intro i hi
    have hmem : h.index.slot h.mem i ∈ holes ts :=
      w.index.mem_iff.mp (OrderedArray.mem_entries.mpr ⟨i,hi,rfl⟩)
    obtain ⟨t,ht,hhole,haddr⟩ := mem_holes.mp hmem
    obtain ⟨pre,post,rfl,-⟩ := w.tiles.split ht
    obtain ⟨g,hf⟩ := w.openHole hhole
    refine ⟨pre,t.len,post,?_,?_⟩
    · rw [← haddr, ← hhole]
      exact hf.head
    · rw [← haddr]
      exact g

/-- `alloc` from a hole that is large enough. -/
theorem Findable.allocAt {h : Heap} {live : List (ℕ × ℕ)} (f : Findable h live) {i size : ℕ}
    (hroom : h.index.size < 0x20000) (hi : i < h.index.size)
    (hfit : size + 20 ≤ sizeOf h.mem (h.index.slot h.mem i)) :
    ∃ h' p ts, h.allocAt i size (size + 20) false = (h',p) ∧ Whole h' ((p,size) :: live) ts := by
  obtain ⟨pre,n,post,hhead,g⟩ := f.hole i hi
  have hsz : sizeOf h.mem (h.index.slot h.mem i) = n := hhead.size
  rw [hsz] at hfit
  have hlt := g.geo.endLt
  have he := g.le_end
  have hst := g.start_le
  have g2 := g.removeIndex hi hroom rfl
  have hroom2 : (h.removeIndex i).index.size < 0x20000 := (Heap.removeIndex_size_lt hi).trans hroom
  simp only [Heap.allocAt, Bool.false_eq_true, false_and, if_false, hsz, sub32_of_le hfit,
    headerSize, footerSize, decide_eq_true_eq]
  by_cases habs : n - (size + 20) < 12 + 8
  · rw [if_pos habs, if_pos habs, u32_of_lt (by omega)]
    obtain ⟨h',ts,h1,h2⟩ := g2.writeBlock hroom2
      (show size ≤ size + (n - (size + 20)) by omega) (.inl (by omega))
    rw [show size + (n - (size + 20)) + 20 = n by omega] at h1
    exact ⟨h',_,ts,h1,h2⟩
  · rw [if_neg habs, if_neg habs]
    obtain ⟨h',ts,h1,h2⟩ := g2.writeBlock hroom2 (le_refl size) (.inr (by omega))
    exact ⟨h',_,ts,h1,h2⟩

/-! ## Growing the heap -/

theorem Heap.findSmallestHole_eq_some {h : Heap} {size i : ℕ}
    (hf : h.findSmallestHole size false = some i) :
    i < h.index.size ∧ size ≤ sizeOf h.mem (h.index.slot h.mem i) := by
  have hle := h.index.search_le h.mem (fits h.mem size false)
  unfold Heap.findSmallestHole at hf
  dsimp only at hf
  split at hf
  · cases hf
  · rename_i hne
    obtain rfl := Option.some.inj hf
    have hlt : h.index.search h.mem (fits h.mem size false) < h.index.size := by omega
    exact ⟨hlt,by simpa [fits] using h.index.search_spec h.mem _ hlt⟩

theorem Whole.finds {h : Heap} {live : List (ℕ × ℕ)} {ts : List Tile} (w : Whole h live ts) {t : Tile}
    (ht : t ∈ ts) (hhole : t.hole = true) {size : ℕ} (hsize : size ≤ t.len) :
    ∃ i, h.findSmallestHole size false = some i := by
  have hmem : t.addr ∈ h.index.entries h.mem :=
    w.index.mem_iff.mpr (mem_holes.mpr ⟨t,ht,hhole,rfl⟩)
  obtain ⟨i,hi,hslot⟩ := OrderedArray.mem_entries.mp hmem
  unfold Heap.findSmallestHole
  dsimp only
  split
  · rename_i heq
    have hno := h.index.search_eq_size h.mem _ heq i hi
    rw [hslot] at hno
    have hsz := (w.tiles.mem ht).1.head.size
    simp [Heap.fits] at hno
    omega
  · exact ⟨_,rfl⟩

/-- What the loop over the index finds. -/
theorem Heap.endmost_spec (h : Heap) :
    (h.endmost = (none,0) ∧ ∀ i < h.index.size, h.index.slot h.mem i = 0) ∨
    ∃ i < h.index.size, h.endmost = (some i,h.index.slot h.mem i) := by
  have hfold : ∀ (l : List ℕ) (b : Option ℕ × ℕ), (∀ i ∈ l, i < h.index.size) →
      (l.foldl (fun best i => if best.2 < h.index.slot h.mem i then
        (some i,h.index.slot h.mem i) else best) b = b ∧ ∀ i ∈ l, h.index.slot h.mem i ≤ b.2) ∨
      ∃ i < h.index.size, l.foldl (fun best i => if best.2 < h.index.slot h.mem i then
        (some i,h.index.slot h.mem i) else best) b = (some i,h.index.slot h.mem i) := by
    intro l
    induction l with
    | nil => intro b _; exact .inl ⟨rfl,by simp⟩
    | cons j l ih =>
      intro b hl
      rw [List.foldl_cons]
      split
      · rcases ih (some j,h.index.slot h.mem j) (fun i hi => hl i (by simp [hi])) with ⟨h1,-⟩ | h1
        · exact .inr ⟨j,hl j (by simp),h1⟩
        · exact .inr h1
      · rename_i hle
        rcases ih b (fun i hi => hl i (by simp [hi])) with ⟨h1,h2⟩ | h1
        · refine .inl ⟨h1,fun i hi => ?_⟩
          rcases List.mem_cons.mp hi with rfl | hi
          · omega
          · exact h2 i hi
        · exact .inr h1
  rcases hfold (List.range h.index.size) (none,0) (fun i hi => List.mem_range.mp hi) with ⟨h1,h2⟩ | h1
  · exact .inl ⟨h1,fun i hi => Nat.le_zero.mp (h2 i (List.mem_range.mpr hi))⟩
  · exact .inr h1

/-- The heap after `expand`, when no page table is missing. -/
theorem Heap.expand_eq {h : Heap} (hle : h.startAddress ≤ h.endAddress)
    {kmallocAp : Heap → Option (Heap × ℕ)} {newSize size : ℕ} (hnew : h.length < newSize)
    (hround : roundUp newSize = size) (hlt : h.startAddress + size < 2 ^ 32)
    (hmax : h.startAddress + size ≤ h.maxAddress)
    (htables : ∀ x, h.endAddress ≤ x → x < h.startAddress + size → h.tables (x / 0x1000 / 1024) = true) :
    h.expand kmallocAp newSize = some { h with endAddress := h.startAddress + size } := by
  have hlen : h.length = h.endAddress - h.startAddress := sub32_of_le hle
  have hu : u32 (h.startAddress + size) = h.startAddress + size := u32_of_lt hlt
  have hfold : ∀ l : List ℕ, (∀ k ∈ l, k < (size - h.length + 0xFFF) / 0x1000) →
      l.foldlM (fun g k => Heap.getPage kmallocAp g
        (u32 (h.startAddress + h.length + 0x1000 * k))) h = some h := by
    intro l
    induction l with
    | nil => intro _; rfl
    | cons k l ih =>
      intro hl
      have hk := hl k (by simp)
      have hpage : Heap.getPage kmallocAp h (u32 (h.startAddress + h.length + 0x1000 * k)) = some h := by
        unfold Heap.getPage
        dsimp only
        rw [if_pos]
        rw [u32_of_lt (by omega)]
        exact htables _ (by omega) (by omega)
      rw [List.foldlM_cons, hpage]
      exact ih fun i hi => hl i (by simp [hi])
  unfold Heap.expand
  rw [if_neg (by omega)]
  dsimp only
  rw [hround, hu, if_neg (by omega), hfold _ fun k hk => List.mem_range.mp hk]
  simp [hu]

theorem Tiles_end_nil {m : Mem} {a : ℕ} {ts : List Tile} (h : Tiles (Formed m) a a ts) : ts = [] := by
  cases ts with
  | nil => rfl
  | cons t ts =>
    obtain ⟨-,h1,h2⟩ := h
    have := h2.le
    have := h1.head.fit
    omega

theorem Heap.length_grow (h : Heap) (k : ℕ) (hle : h.startAddress ≤ h.endAddress) :
    sub32 { h with endAddress := h.endAddress + k }.length h.length = k := by
  have h1 : { h with endAddress := h.endAddress + k }.length = h.endAddress + k - h.startAddress :=
    sub32_of_le (show h.startAddress ≤ h.endAddress + k by omega)
  have h2 : h.length = h.endAddress - h.startAddress := sub32_of_le hle
  rw [h1, h2, sub32_of_le (by omega)]
  omega

section Grow
variable {h : Heap} {live : List (ℕ × ℕ)} {k : ℕ}

/-- The new space becomes a hole of its own. -/
theorem Whole.addSpace {ts : List Tile} (w : Whole h live ts) (hsize : h.index.size = 0) (hk : 20 ≤ k)
    (hlt : h.endAddress + k < 2 ^ 32) :
    ∃ g ts', { h with endAddress := h.endAddress + k }.addSpace h.length h.endAddress = g ∧
      Whole g live ts' ∧ (∃ t ∈ ts', t.hole = true ∧ k ≤ t.len) ∧ g.index.size < 0x20000 := by
  have hlong := w.geo.long
  have hnone : { h with endAddress := h.endAddress + k }.endmost = (none,0) := by
    simp [Heap.endmost, hsize]
  have hgrown := h.length_grow k (by omega)
  have hsz : sizeOf (writeHeader h.mem h.endAddress k 1) h.endAddress = k :=
    (writeHeader_headerAt h.mem true hk (by omega)).size
  have hfoot : sub32 (u32 (h.endAddress + k)) footerSize = h.endAddress + k - 8 := by
    rw [u32_of_lt hlt]
    exact sub32_of_le (by unfold footerSize; omega)
  have g := w.openEnd.resize hlt (by omega)
  refine ⟨_,ts ++ [⟨h.endAddress,k,true⟩],rfl,?_,⟨⟨h.endAddress,k,true⟩,by simp,rfl,le_rfl⟩,?_⟩
  · simp only [Heap.addSpace, hnone, hgrown, hsz, hfoot]
    exact g.writeHole hk (by simp [hsize])
  · simp only [Heap.addSpace, hnone]
    change (OrderedArray.insert _ _ _ _).2.size < _
    rw [OrderedArray.insert_size _ _ (by simp [hsize])]
    simp [hsize]

/-- The new space joins the hole at the end of the heap. -/
theorem Findable.addSpace (f : Findable h live) {i : ℕ} (hi : i < h.index.size)
    (hmost : h.endmost = (some i,h.index.slot h.mem i)) (hroom : h.index.size < 0x20000)
    (hend : h.index.slot h.mem i + sizeOf h.mem (h.index.slot h.mem i) = h.endAddress)
    (hlt : h.endAddress + k < 2 ^ 32) :
    ∃ g ts', { h with endAddress := h.endAddress + k }.addSpace h.length h.endAddress = g ∧
      Whole g live ts' ∧ (∃ t ∈ ts', t.hole = true ∧ k ≤ t.len) ∧ g.index.size < 0x20000 := by
  obtain ⟨pre,n,post,hhead,g⟩ := f.hole i hi
  have hlong := f.geo.long
  have hsz : sizeOf h.mem (h.index.slot h.mem i) = n := hhead.size
  have hfit : 20 ≤ n := hhead.fit
  rw [hsz] at hend
  have hpost : post = [] := Tiles_end_nil (by simpa only [hend] using g.after)
  subst hpost
  have hmost' : { h with endAddress := h.endAddress + k }.endmost = (some i,h.index.slot h.mem i) :=
    hmost
  have hgrown := h.length_grow k (by omega)
  generalize hx : h.index.slot h.mem i = x at *
  have hu : u32 (n + k) = n + k := u32_of_lt (by omega)
  have hsz2 := sizeOf_setSize h.mem x (show n + k < 2 ^ 32 by omega)
  have hfoot : sub32 (u32 (x + (n + k))) footerSize = x + (n + k) - 8 := by
    rw [u32_of_lt (by omega)]
    exact sub32_of_le (by unfold footerSize; omega)
  have hh := setSize_headerAt hhead (k := n + k) (by omega) (by omega)
  have g2 := g.resize (show x + (n + k) < 2 ^ 32 by omega) (by omega)
  have g3 := g2.frame (((setSize_changedIn h.mem x (n + k)).mono le_rfl (by omega)).trans
    ((writeFooter_changedIn _ (x + (n + k) - 8) x).mono (by omega) (by omega)))
  refine ⟨_,pre ++ [⟨x,n + k,true⟩],rfl,?_,⟨⟨x,n + k,true⟩,by simp,rfl,by simp⟩,?_⟩
  · simp only [Heap.addSpace, hmost', hx, hgrown, hsz, hu, hsz2, hfoot]
    rw [show h.endAddress + k = x + (n + k) by omega]
    refine g3.closeHole ⟨?_,writeFooter_footerAt _ ⟨x,n + k,true⟩ (by dsimp only; omega)⟩
    exact hh.congr ((writeFooter_changedIn _ _ _).sameOn (by unfold Apart; dsimp only; omega))
  · simp only [Heap.addSpace, hmost']
    exact hroom

end Grow

/-- A heap on which `alloc` may be called. -/
structure Ready (h : Heap) (live : List (ℕ × ℕ)) : Prop where
  findable : Findable h live
  whole : h.index.size = 0 → ∃ ts, Whole h live ts

theorem Whole.ready {h : Heap} {live : List (ℕ × ℕ)} {ts : List Tile} (w : Whole h live ts) :
    Ready h live := ⟨w.findable,fun _ => ⟨ts,w⟩⟩

/-- The index has room. When no hole is large enough, the hole at the highest
address, if there is a hole, is the last tile of the heap, and the page tables
for the new space exist. -/
def Heap.AllocSound (h : Heap) (size : ℕ) : Prop :=
  h.index.size < heapIndexSize ∧
  (h.findSmallestHole (size + headerSize + footerSize) false = none →
    (h.index.size = 0 ∨ h.endmost.2 + sizeOf h.mem h.endmost.2 = h.endAddress) ∧
    ∀ x, h.endAddress ≤ x →
      x < h.startAddress + roundUp (h.length + (size + headerSize + footerSize)) →
      h.tables (x / 0x1000 / 1024) = true)

section Alloc
variable {h : Heap} {live : List (ℕ × ℕ)} {size : ℕ}

theorem Heap.alloc_of_found (hsize : size + headerSize + footerSize < 2 ^ 32) {i : ℕ}
    (hf : h.findSmallestHole (size + headerSize + footerSize) false = some i) (fuel : ℕ) :
    h.alloc (fuel + 1) size false = some (h.allocAt i size (size + headerSize + footerSize) false) := by
  rw [Heap.alloc]
  simp only [u32_of_lt hsize, hf]

/-- A call that finds a hole returns, and leaves a whole heap. -/
theorem Findable.alloc (f : Findable h live) (hsize : size + headerSize + footerSize < 2 ^ 32)
    (hroom : h.index.size < 0x20000) {i : ℕ}
    (hf : h.findSmallestHole (size + headerSize + footerSize) false = some i) :
    ∃ h' p ts, Whole h' ((p,size) :: live) ts ∧
      ∀ fuel, h.alloc (fuel + 1) size false = some (h',p) := by
  obtain ⟨hi,hfit⟩ := Heap.findSmallestHole_eq_some hf
  obtain ⟨h',p,ts,h1,h2⟩ := f.allocAt hroom hi hfit
  refine ⟨h',p,ts,h2,fun fuel => ?_⟩
  rw [Heap.alloc_of_found hsize hf]
  exact congrArg some h1

/-- The space added by a call that finds no hole. -/
theorem Ready.addSpace (r : Ready h live) (hs : h.AllocSound size) {k : ℕ} (hk : 20 ≤ k)
    (hlt : h.endAddress + k < 2 ^ 32)
    (hf : h.findSmallestHole (size + headerSize + footerSize) false = none) :
    ∃ g ts, { h with endAddress := h.endAddress + k }.addSpace h.length h.endAddress = g ∧
      Whole g live ts ∧ (∃ t ∈ ts, t.hole = true ∧ k ≤ t.len) ∧ g.index.size < 0x20000 := by
  rcases h.endmost_spec with ⟨-,hzero⟩ | ⟨i,hi,hmost⟩
  · have hempty : h.index.size = 0 := by
      by_contra hne
      obtain ⟨pre,n,post,-,g⟩ := r.findable.hole 0 (by omega)
      have h1 := hzero 0 (by omega)
      have h2 := g.start_le
      have h3 := g.geo.start
      omega
    obtain ⟨ts,w⟩ := r.whole hempty
    exact w.addSpace hempty hk hlt
  · refine r.findable.addSpace hi hmost hs.1 ?_ hlt
    rcases (hs.2 hf).1 with h0 | h1
    · omega
    · rwa [hmost] at h1

/-- `expand` in a call that finds no hole. -/
theorem Heap.AllocSound.expand (geo : Geometry h) (hs : h.AllocSound size)
    (hf : h.findSmallestHole (size + headerSize + footerSize) false = none)
    (hbelow : HeapRun.BelowMax h size) :
    ∃ k, size + headerSize + footerSize ≤ k ∧ h.endAddress + k < 2 ^ 32 ∧ ∀ kmallocAp,
      h.expand kmallocAp (u32 (h.length + (size + headerSize + footerSize))) =
        some { h with endAddress := h.endAddress + k } := by
  have hlong := geo.long
  have hmaxlt := geo.maxLt
  have hlen : h.length = h.endAddress - h.startAddress := sub32_of_le (by omega)
  obtain ⟨k,hk⟩ : ∃ k, (if (h.length + (size + headerSize + footerSize)) % 2 = 1 then
      pageDown (h.length + (size + headerSize + footerSize)) + 0x1000
      else h.length + (size + headerSize + footerSize)) = h.length + k := by
    refine ⟨_,(Nat.add_sub_of_le ?_).symm⟩
    unfold pageDown
    split <;> omega
  have hkge : size + headerSize + footerSize ≤ k := by
    unfold pageDown at hk
    split at hk <;> omega
  have hmax : h.startAddress + (h.length + k) ≤ h.maxAddress := hk ▸ hbelow
  have hround : roundUp (h.length + (size + headerSize + footerSize)) = h.length + k := by
    rw [← hk]
    unfold roundUp
    split
    · rename_i hodd
      rw [if_pos hodd] at hk
      exact u32_of_lt (by omega)
    · rfl
  refine ⟨k,hkge,by omega,fun kmallocAp => ?_⟩
  rw [u32_of_lt (by omega), Heap.expand_eq (by omega) (by unfold headerSize; omega) hround (by omega) hmax]
  · rw [show h.startAddress + (h.length + k) = h.endAddress + k by omega]
  · intro x hx1 hx2
    exact (hs.2 hf).2 x hx1 (by rwa [hround])

/-- What `alloc` does when it meets its condition: it returns, and the heap is whole. -/
theorem Ready.alloc (r : Ready h live) (hsize : size + headerSize + footerSize < 2 ^ 32)
    (hmax : h.findSmallestHole (size + headerSize + footerSize) false = none →
      HeapRun.BelowMax h size) (hs : h.AllocSound size) :
    ∃ h' p ts, Whole h' ((p,size) :: live) ts ∧ h.alloc 2 size false = some (h',p) ∧
      ∀ fuel q, h.alloc fuel size false = some q → q = (h',p) := by
  cases hf : h.findSmallestHole (size + headerSize + footerSize) false with
  | some i =>
    obtain ⟨h',p,ts,w,hcall⟩ := r.findable.alloc hsize hs.1 hf
    refine ⟨h',p,ts,w,hcall 1,fun fuel q hq => ?_⟩
    cases fuel with
    | zero => cases hq
    | succ fuel =>
      rw [hcall fuel] at hq
      exact (Option.some.inj hq).symm
  | none =>
    obtain ⟨k,hkge,hlt,hexpand⟩ := Heap.AllocSound.expand r.findable.geo hs hf (hmax hf)
    obtain ⟨g,ts,hadd,w,⟨t,ht,hhole,hlen'⟩,hroom⟩ := r.addSpace hs (k := k)
      (by unfold headerSize footerSize at hkge; omega) hlt hf
    obtain ⟨i,hi⟩ := w.finds ht hhole (hkge.trans hlen')
    obtain ⟨h',p,ts',w',hcall⟩ := w.findable.alloc hsize hroom hi
    have hstep : ∀ fuel, h.alloc (fuel + 1) size false = g.alloc fuel size false := by
      intro fuel
      rw [Heap.alloc]
      simp only [u32_of_lt hsize, hf, hexpand, Option.bind_eq_bind, Option.bind_some, hadd]
    refine ⟨h',p,ts',w',(hstep 1).trans (hcall 0),fun fuel q hq => ?_⟩
    match fuel with
    | 0 => cases hq
    | 1 =>
      rw [hstep 0] at hq
      cases hq
    | fuel + 2 =>
      rw [hstep (fuel + 1), hcall fuel] at hq
      exact (Option.some.inj hq).symm

end Alloc

end X86OsDev.Tutorial
