import X86OsDev.Lib.Tiling
import X86OsDev.Tutorial.Heap

/-! # The tiling of the heap

A heap in the middle of a call is a tiled heap with one gap: the bytes of the
hole or block that the call works on. The lemmas about the gap are the moves of
the proof, and each of `alloc` and `free` opens a gap, rewrites memory inside it,
and closes it.
-/
namespace X86OsDev.Tutorial
open Memory Tiling

/-- The header of a tile. -/
structure HeaderAt (m : Mem) (t : Tile) : Prop where
  fit : 20 ≤ t.len
  magic : magicOf m t.addr = heapMagic
  isHole : isHoleOf m t.addr = if t.hole then 1 else 0
  size : sizeOf m t.addr = t.len

/-- The footer of a tile. -/
structure FooterAt (m : Mem) (t : Tile) : Prop where
  magic : magicOf m (t.addr + t.len - 8) = heapMagic
  header : headerOf m (t.addr + t.len - 8) = t.addr

structure Formed (m : Mem) (t : Tile) : Prop where
  head : HeaderAt m t
  foot : FooterAt m t

section Fields
variable {m m' : Mem} {t : Tile}

theorem HeaderAt.congr (h : HeaderAt m t) (hm : SameOn m' m t.addr 12) : HeaderAt m' t where
  fit := h.fit
  magic := (load32_congr (hm.mono le_rfl (by omega))).trans h.magic
  isHole := (load8_congr (hm.mono (by omega) (by omega))).trans h.isHole
  size := (load32_congr (hm.mono (by omega) (by omega))).trans h.size

theorem FooterAt.congr (h : FooterAt m t) (hm : SameOn m' m (t.addr + t.len - 8) 8) :
    FooterAt m' t where
  magic := (load32_congr (hm.mono le_rfl (by omega))).trans h.magic
  header := (load32_congr (hm.mono (by omega) (by omega))).trans h.header

theorem Formed.congr (h : Formed m t) (hm : SameOn m' m t.addr t.len) : Formed m' t where
  head := h.head.congr (hm.mono le_rfl (by have := h.head.fit; omega))
  foot := h.foot.congr (hm.mono (by have := h.head.fit; omega) (by have := h.head.fit; omega))

theorem writeHeader_changedIn (m : Mem) (a size isHole : ℕ) :
    ChangedIn m (writeHeader m a size isHole) a 12 :=
  (((store32_changedIn m a heapMagic).mono le_rfl (by omega)).trans
    ((store8_changedIn _ (a + 4) isHole).mono (by omega) (by omega))).trans
    ((store32_changedIn _ (a + 8) size).mono (by omega) (by omega))

theorem writeFooter_changedIn (m : Mem) (a header : ℕ) :
    ChangedIn m (writeFooter m a header) a 8 :=
  ((store32_changedIn m a heapMagic).mono le_rfl (by omega)).trans
    ((store32_changedIn _ (a + 4) header).mono (by omega) (by omega))

theorem setSize_changedIn (m : Mem) (a size : ℕ) : ChangedIn m (setSize m a size) a 12 :=
  (store32_changedIn m (a + 8) size).mono (by omega) (by omega)

theorem sizeOf_setSize (m : Mem) (a : ℕ) {size : ℕ} (h : size < 2 ^ 32) :
    sizeOf (setSize m a size) a = size := by
  unfold sizeOf setSize
  rw [load32_store32, Nat.mod_eq_of_lt h]

theorem writeHeader_headerAt (m : Mem) {a size : ℕ} (hole : Bool) (h : 20 ≤ size)
    (hlt : size < 2 ^ 32) :
    HeaderAt (writeHeader m a size (if hole then 1 else 0)) ⟨a,size,hole⟩ where
  fit := h
  magic := by
    unfold magicOf writeHeader
    dsimp only
    rw [load32_store32_of_apart _ _ (by unfold Apart; omega),
      load32_congr (store8_sameOn _ _ (by unfold Apart; omega)), load32_store32]
    rfl
  isHole := by
    unfold isHoleOf writeHeader
    dsimp only
    rw [load8_congr (store32_sameOn _ _ (by unfold Apart; omega)), load8_store8]
    cases hole <;> rfl
  size := by
    unfold sizeOf writeHeader
    rw [load32_store32, Nat.mod_eq_of_lt hlt]

theorem setSize_headerAt {a n k : ℕ} {hole : Bool} (h : HeaderAt m ⟨a,n,hole⟩) (hk : 20 ≤ k)
    (hlt : k < 2 ^ 32) : HeaderAt (setSize m a k) ⟨a,k,hole⟩ where
  fit := hk
  magic := (load32_store32_of_apart _ _ (by unfold Apart; dsimp only; omega)).trans h.magic
  isHole := (load8_congr (store32_sameOn _ _ (by unfold Apart; dsimp only; omega))).trans h.isHole
  size := sizeOf_setSize m a hlt

theorem writeFooter_footerAt (m : Mem) (t : Tile) (h : t.addr < 2 ^ 32) :
    FooterAt (writeFooter m (t.addr + t.len - 8) t.addr) t where
  magic := by
    unfold magicOf writeFooter
    rw [load32_store32_of_apart _ _ (by unfold Apart; omega), load32_store32]
    rfl
  header := by
    unfold headerOf writeFooter
    rw [load32_store32, Nat.mod_eq_of_lt h]

end Fields

/-- The live pointers are the blocks, and each block holds what was asked for. -/
def Matches (live : List (ℕ × ℕ)) (ts : List Tile) : Prop :=
  (live.map (·.1)).Perm ((blocks ts).map (· + 12)) ∧
  ∀ b ∈ live, ∃ t ∈ ts, t.hole = false ∧ t.addr + 12 = b.1 ∧ b.2 + 20 ≤ t.len

/-- Where the parts of the heap lie. No slot of the index reads as a magic number. -/
structure Geometry (h : Heap) : Prop where
  array : h.index.array = 0xC0000000
  maxSize : h.index.maxSize = 0x20000
  start : h.startAddress = 0xC0080000
  endLt : h.endAddress < 2 ^ 32
  maxLt : h.maxAddress < 2 ^ 32
  long : h.startAddress + 0x70000 ≤ h.endAddress
  size : h.index.size ≤ 0x20000
  slots : ∀ i < 0x20000, h.index.slot h.mem i = 0 ∨ h.startAddress ≤ h.index.slot h.mem i

/-- A heap between two calls. -/
structure Whole (h : Heap) (live : List (ℕ × ℕ)) (ts : List Tile) : Prop where
  geo : Geometry h
  tiles : Tiles (Formed h.mem) h.startAddress h.endAddress ts
  index : (h.index.entries h.mem).Perm (holes ts)
  lives : Matches live ts

/-- A heap in a call: the `n` bytes at `a` belong to no tile, and the index has
some entries more than the holes. -/
structure Gap (h : Heap) (live : List (ℕ × ℕ)) (extra : List ℕ) (pre : List Tile) (a n : ℕ)
    (post : List Tile) : Prop where
  geo : Geometry h
  before : Tiles (Formed h.mem) h.startAddress a pre
  after : Tiles (Formed h.mem) (a + n) h.endAddress post
  index : (h.index.entries h.mem).Perm (extra ++ (holes pre ++ holes post))
  lives : Matches live (pre ++ post)

namespace Gap
variable {h : Heap} {live : List (ℕ × ℕ)} {extra : List ℕ} {pre post : List Tile} {a n : ℕ}

theorem start_le (g : Gap h live extra pre a n post) : h.startAddress ≤ a := g.before.le

theorem le_end (g : Gap h live extra pre a n post) : a + n ≤ h.endAddress := g.after.le

/-- Memory inside the gap, and outside the heap, may change. -/
theorem frame (g : Gap h live extra pre a n post) {m : Mem} (hm : ChangedIn h.mem m a n) :
    Gap { h with mem := m } live extra pre a n post := by
  have hs := g.start_le
  have he := g.le_end
  have harr := g.geo.array
  have hst := g.geo.start
  have hsz := g.geo.size
  refine ⟨⟨g.geo.array,g.geo.maxSize,g.geo.start,g.geo.endLt,g.geo.maxLt,g.geo.long,g.geo.size,?_⟩,
    ?_,?_,?_,g.lives⟩
  · intro i hi
    have : h.index.slot m i = h.index.slot h.mem i :=
      load32_congr (hm.sameOn (by unfold Apart; omega))
    simpa only [this] using g.geo.slots i hi
  · exact g.before.imp fun t ht h1 h2 => ht.congr (hm.sameOn (by unfold Apart; omega))
  · exact g.after.imp fun t ht h1 h2 => ht.congr (hm.sameOn (by unfold Apart; omega))
  · have : h.index.entries m = h.index.entries h.mem :=
      OrderedArray.entries_congr (hm.sameOn (by unfold Apart; omega))
    simpa only [this] using g.index

/-- What is needed of an index to keep the geometry when memory of the heap stays. -/
theorem reindex (g : Gap h live extra pre a n post) {extra' : List ℕ} {m : Mem} {index : OrderedArray}
    (harray : index.array = h.index.array) (hmax : index.maxSize = h.index.maxSize)
    (hsize : index.size ≤ 0x20000)
    (hm : SameOn m h.mem h.startAddress (h.endAddress - h.startAddress))
    (hslots : ∀ i < 0x20000, h.index.slot m i = 0 ∨ h.startAddress ≤ h.index.slot m i)
    (hperm : (index.entries m).Perm (extra' ++ (holes pre ++ holes post))) :
    Gap { h with mem := m, index := index } live extra' pre a n post := by
  have hs := g.start_le
  have he := g.le_end
  refine ⟨⟨harray.trans g.geo.array,hmax.trans g.geo.maxSize,g.geo.start,g.geo.endLt,g.geo.maxLt,
    g.geo.long,hsize,?_⟩,?_,?_,hperm,g.lives⟩
  · intro i hi
    simpa only [OrderedArray.slot, harray] using hslots i hi
  · exact g.before.imp fun t ht h1 h2 => ht.congr (hm.mono h1 (by omega))
  · exact g.after.imp fun t ht h1 h2 => ht.congr (hm.mono (by omega) (by omega))

/-- A slot of the index that is not one of the holes is removed. -/
theorem removeIndex (g : Gap h live (a :: extra) pre b n post) {i : ℕ} (hi : i < h.index.size)
    (hroom : h.index.size < 0x20000) (hslot : h.index.slot h.mem i = a) :
    Gap (h.removeIndex i) live extra pre b n post := by
  have harr := g.geo.array
  have hst := g.geo.start
  have hsize := h.index.remove_size h.mem i (by omega)
  refine g.reindex rfl rfl (by omega) (h.index.remove_sameOn h.mem hi.le (by unfold Apart; omega)) ?_ ?_
  · intro j hj
    rw [OrderedArray.slot_remove]
    split
    · exact g.geo.slots (j + 1) (by omega)
    · exact g.geo.slots j hj
  · have hp := (h.index.remove_perm h.mem hi).symm.trans g.index
    rw [hslot] at hp
    exact List.Perm.cons_inv hp

/-- An address of the heap is added to the index. -/
theorem insertIndex (g : Gap h live extra pre b n post) (hroom : h.index.size < 0x20000)
    (ha : h.startAddress ≤ a) (hlt : a < 2 ^ 32) :
    Gap (h.insertIndex a) live (a :: extra) pre b n post := by
  have harr := g.geo.array
  have hst := g.geo.start
  have hsize := OrderedArray.insert_size (a := h.index) (m := h.mem) (Heap.headerLessThan h.mem) a
    (by omega)
  refine g.reindex (OrderedArray.insert_array _ _) (OrderedArray.insert_maxSize _ _) (by omega)
    (h.index.insert_sameOn h.mem _ _ (by unfold Apart; omega)) ?_ ?_
  · intro j hj
    rw [OrderedArray.slot_insert _ _ _ hlt]
    split_ifs
    · exact g.geo.slots j hj
    · exact .inr ha
    · exact g.geo.slots (j - 1) (by omega)
    · exact g.geo.slots j hj
  · exact (h.index.insert_perm h.mem _ hlt (by omega)).trans (g.index.cons a)

/-- A block at the front of the gap. -/
theorem push (g : Gap h live extra pre a n post) {k size : ℕ} (hk : k ≤ n) (hsize : size + 20 ≤ k)
    (hb : Formed h.mem ⟨a,k,false⟩) :
    Gap h ((a + 12,size) :: live) extra (pre ++ [⟨a,k,false⟩]) (a + k) (n - k) post := by
  refine ⟨g.geo,tiles_snoc.mpr ⟨g.before,hb,rfl⟩,?_,?_,?_,?_⟩
  · have := g.after
    rwa [show a + k + (n - k) = a + n by omega]
  · rw [holes_append, holes_cons_block rfl, holes_nil, List.append_nil]
    exact g.index
  · have hp := g.lives.1
    rw [List.append_assoc, blocks_append, List.singleton_append, blocks_cons_block rfl,
      List.map_append, List.map_cons, List.map_cons]
    rw [blocks_append, List.map_append] at hp
    exact (hp.cons _).trans List.perm_middle.symm
  · intro b hb'
    rcases List.mem_cons.mp hb' with rfl | hb'
    · exact ⟨⟨a,k,false⟩,by simp,rfl,rfl,hsize⟩
    · obtain ⟨t,ht,h1,h2,h3⟩ := g.lives.2 b hb'
      refine ⟨t,?_,h1,h2,h3⟩
      rcases List.mem_append.mp ht with ht | ht
      · simp [ht]
      · simp [ht]

theorem perm_pull (x : ℕ) (xs ys zs : List ℕ) :
    (xs ++ (ys ++ x :: zs)).Perm (x :: xs ++ (ys ++ zs)) := by
  rw [← List.append_assoc, List.cons_append, ← List.append_assoc]
  exact List.perm_middle

/-- The hole on the left joins the gap. -/
theorem absorbLeft {l : Tile} (g : Gap h live extra (pre ++ [l]) a n post) (hl : l.hole = true) :
    Gap h live (l.addr :: extra) pre l.addr (l.len + n) post ∧ Formed h.mem l ∧ l.addr + l.len = a := by
  obtain ⟨h1,h2,rfl⟩ := tiles_snoc.mp g.before
  refine ⟨⟨g.geo,h1,?_,?_,?_⟩,h2,rfl⟩
  · rw [← Nat.add_assoc]
    exact g.after
  · have hi := g.index
    rw [holes_append, holes_cons hl, holes_nil, List.append_assoc, List.singleton_append] at hi
    exact hi.trans (perm_pull _ _ _ _)
  · have hp := g.lives.1
    rw [List.append_assoc, List.singleton_append, blocks_append, blocks_cons hl, ← blocks_append] at hp
    refine ⟨hp,fun b hb => ?_⟩
    obtain ⟨u,hu,hu1,hu2⟩ := g.lives.2 b hb
    refine ⟨u,?_,hu1,hu2⟩
    have hne : u ≠ l := by
      rintro rfl
      rw [hl] at hu1
      cases hu1
    simpa [hne] using hu

/-- The hole on the right joins the gap. -/
theorem absorbRight {r : Tile} (g : Gap h live extra pre a n (r :: post)) (hr : r.hole = true) :
    Gap h live (r.addr :: extra) pre a (n + r.len) post ∧ Formed h.mem r ∧ r.addr = a + n := by
  obtain ⟨h1,h2,h3⟩ := g.after
  refine ⟨⟨g.geo,g.before,?_,?_,?_⟩,h2,h1⟩
  · rwa [← Nat.add_assoc]
  · have hi := g.index
    rw [holes_cons hr] at hi
    exact hi.trans (perm_pull _ _ _ _)
  · have hp := g.lives.1
    rw [blocks_append, blocks_cons hr, ← blocks_append] at hp
    refine ⟨hp,fun b hb => ?_⟩
    obtain ⟨u,hu,hu1,hu2⟩ := g.lives.2 b hb
    refine ⟨u,?_,hu1,hu2⟩
    have hne : u ≠ r := by
      rintro rfl
      rw [hr] at hu1
      cases hu1
    simpa [hne] using hu

/-- The end of the heap moves while the gap is the last thing in it. -/
theorem resize (g : Gap h live extra pre a n []) {n' : ℕ} (hlt : a + n' < 2 ^ 32)
    (hlong : h.startAddress + 0x70000 ≤ a + n') :
    Gap { h with endAddress := a + n' } live extra pre a n' [] where
  geo := ⟨g.geo.array,g.geo.maxSize,g.geo.start,hlt,g.geo.maxLt,hlong,g.geo.size,g.geo.slots⟩
  before := g.before
  after := rfl
  index := g.index
  lives := g.lives

/-- A gap with nothing in it. -/
theorem close (g : Gap h live [] pre a 0 post) : Whole h live (pre ++ post) where
  geo := g.geo
  tiles := tiles_append.mpr ⟨a,g.before,g.after⟩
  index := by simpa using g.index
  lives := g.lives

/-- A gap that is a hole. -/
theorem closeHole (g : Gap h live [a] pre a n post) (ht : Formed h.mem ⟨a,n,true⟩) :
    Whole h live (pre ++ ⟨a,n,true⟩ :: post) where
  geo := g.geo
  tiles := tiles_append.mpr ⟨a,g.before,rfl,ht,g.after⟩
  index := by
    have hm : (a :: (holes pre ++ holes post)).Perm (holes pre ++ a :: holes post) :=
      List.perm_middle.symm
    rw [holes_append, holes_cons rfl]
    exact g.index.trans hm
  lives := by
    obtain ⟨hp,hl⟩ := g.lives
    refine ⟨?_,fun b hb => ?_⟩
    · rw [blocks_append, blocks_cons rfl]
      rwa [blocks_append] at hp
    · obtain ⟨t,ht,h1⟩ := hl b hb
      refine ⟨t,?_,h1⟩
      rcases List.mem_append.mp ht with ht | ht
      · simp [ht]
      · simp [ht]

end Gap

namespace Whole
variable {h : Heap} {live : List (ℕ × ℕ)} {ts pre post : List Tile} {t : Tile}

/-- Take a hole out of the tiling. -/
theorem openHole (w : Whole h live (pre ++ t :: post)) (ht : t.hole = true) :
    Gap h live [t.addr] pre t.addr t.len post ∧ Formed h.mem t := by
  obtain ⟨b,h1,rfl,h2,h3⟩ := tiles_append.mp w.tiles
  refine ⟨⟨w.geo,h1,h3,?_,?_⟩,h2⟩
  · have := w.index
    rw [holes_append, holes_cons ht] at this
    exact this.trans List.perm_middle
  · obtain ⟨hp,hl⟩ := w.lives
    refine ⟨?_,fun b hb => ?_⟩
    · rw [blocks_append, blocks_cons ht] at hp
      rwa [blocks_append]
    · obtain ⟨u,hu,hu1,hu2⟩ := hl b hb
      refine ⟨u,?_,hu1,hu2⟩
      have hne : u ≠ t := by
        rintro rfl
        rw [ht] at hu1
        cases hu1
      simpa [hne] using hu

theorem nodup_live (w : Whole h live ts) : (live.map (·.1)).Nodup := by
  have hb := w.tiles.nodup_blocks fun t ht => by have := ht.head.fit; omega
  exact w.lives.1.nodup_iff.mpr (hb.map fun x y hxy => by simpa using hxy)

/-- Take a live block out of the tiling. -/
theorem openBlock (w : Whole h live ts) {p n : ℕ} (hp : (p,n) ∈ live) :
    ∃ pre t post, ts = pre ++ t :: post ∧ t.hole = false ∧ t.addr + 12 = p ∧ n + 20 ≤ t.len ∧
      Formed h.mem t ∧ Gap h (live.erase (p,n)) [] pre t.addr t.len post := by
  obtain ⟨t,ht,hb,haddr,hlen⟩ := w.lives.2 _ hp
  obtain ⟨pre,post,rfl,h1,h2,h3⟩ := w.tiles.split ht
  refine ⟨pre,t,post,rfl,hb,haddr,hlen,h2,w.geo,h1,h3,?_,?_,?_⟩
  · simpa [holes_cons_block hb] using w.index
  · have hperm := w.lives.1
    rw [blocks_append, blocks_cons_block hb, List.map_append, List.map_cons, haddr] at hperm
    have h4 := ((List.perm_cons_erase hp).map (·.1)).symm.trans (hperm.trans List.perm_middle)
    rw [blocks_append, List.map_append]
    exact List.Perm.cons_inv h4
  · intro b hb'
    obtain ⟨u,hu,hu1,hu2,hu3⟩ := w.lives.2 b (List.mem_of_mem_erase hb')
    refine ⟨u,?_,hu1,hu2,hu3⟩
    have hmap := (List.perm_cons_erase hp).map (·.1)
    have hnot := (List.nodup_cons.mp (hmap.nodup_iff.mp w.nodup_live)).1
    have hne : u ≠ t := by
      rintro rfl
      exact hnot (List.mem_map.mpr ⟨b,hb',by rw [← hu2,haddr]⟩)
    simpa [hne] using hu

/-- The gap of no bytes at the end of the heap. -/
theorem openEnd (w : Whole h live ts) : Gap h live [] ts h.endAddress 0 [] where
  geo := w.geo
  before := w.tiles
  after := rfl
  index := by simpa using w.index
  lives := by simpa using w.lives

end Whole
end X86OsDev.Tutorial
