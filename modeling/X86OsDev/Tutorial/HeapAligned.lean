import X86OsDev.Tutorial.HeapLaw

/-! # Page-aligned allocation

`alloc` with the page flag always splits a hole in front of the block and never
takes it out of the index. It does what it should exactly when that front part is
a hole of its own and the rest of the hole holds the block.
-/
namespace X86OsDev.Tutorial
open Memory Tiling

/-- A tiled heap where `create_heap` puts the kernel's, with the holes in its index. -/
structure WellFormed (h : Heap) (ts : List Tile) : Prop where
  array : h.index.array = 0xC0000000
  start : h.startAddress = 0xC0080000
  endLt : h.endAddress < 2 ^ 32
  size : h.index.size ≤ 0x20000
  tiles : Tiles (Formed h.mem) h.startAddress h.endAddress ts
  index : (h.index.entries h.mem).Perm (holes ts)

/-- A page-aligned block was cut out of the hole of `n` bytes at `pos`: the hole is tiled by the block
and by holes of the index, the block has room, the index does not name it, and nothing but the hole
and the index has changed. -/
structure Served (h g : Heap) (pos n size p : ℕ) : Prop where
  aligned : p % 0x1000 = 0
  tiled : ∃ front b len back, p = b + 12 ∧ Tiles (Formed g.mem) pos (pos + n) (front ++ ⟨b,len,false⟩ :: back) ∧
    (∀ t ∈ front ++ back, t.hole = true ∧ t.addr ∈ g.index.entries g.mem) ∧ size + 20 ≤ len ∧
    ∀ x ∈ g.index.entries g.mem, ¬ (b ≤ x ∧ x < b + len)
  outside : ∀ x, ¬ (pos ≤ x ∧ x < pos + n) → ¬ (0xC0000000 ≤ x ∧ x < 0xC0080000) → g.mem x = h.mem x

/-- The bytes of the hole in front of the block's header. -/
def frontSize (pos : ℕ) : ℕ := 0x1000 - pos % 0x1000 - 12

/-- The hole splits: in front of the block there is room for a hole, behind it there is nothing left or
room for a hole, and in the second case the index has a free slot. -/
def Splits (h : Heap) (pos n size : ℕ) : Prop :=
  pos % 0x1000 ≤ 0xFE0 ∧ (frontSize pos + size + 20 = n ∨
    (frontSize pos + size + 40 ≤ n ∧ h.index.size < 0x20000))

section Aligned
variable {h : Heap} {ts : List Tile} {i size : ℕ}

/-- A hole of the index is a tile of the heap. -/
theorem WellFormed.hole (w : WellFormed h ts) (hi : i < h.index.size) :
    ∃ t ∈ ts, t.hole = true ∧ t.addr = h.index.slot h.mem i ∧ t.len = sizeOf h.mem (h.index.slot h.mem i) ∧
      h.startAddress ≤ t.addr ∧ t.addr + t.len ≤ h.endAddress ∧ 20 ≤ t.len := by
  have hmem : h.index.slot h.mem i ∈ holes ts :=
    w.index.mem_iff.mp (OrderedArray.mem_entries.mpr ⟨i,hi,rfl⟩)
  obtain ⟨t,ht,hhole,haddr⟩ := mem_holes.mp hmem
  obtain ⟨hf,hlo,hhi⟩ := w.tiles.mem ht
  refine ⟨t,ht,hhole,haddr,?_,hlo,hhi,hf.head.fit⟩
  rw [← haddr]
  exact hf.head.size.symm

/-- The memory once the front hole and the block are written. -/
def splitMem (m : Mem) (pos size : ℕ) : Mem :=
  let m := writeFooter (writeHeader m pos (frontSize pos) 1) (pos + frontSize pos - 8) pos
  writeFooter (writeHeader m (pos + frontSize pos) (size + 20) 0) (pos + frontSize pos + (size + 20) - 8)
    (pos + frontSize pos)

/-- The heap that a split leaves. -/
def splitHeap (h : Heap) (pos n size : ℕ) : Heap :=
  let m := splitMem h.mem pos size
  let c := pos + frontSize pos + (size + 20)
  if pos + n = c then { h with mem := m }
  else { h with mem := writeFooter (writeHeader m c (pos + n - c) 1) (pos + n - 8) c }.insertIndex c

/-- What `alloc` computes when the front part and the block fit into the hole. -/
theorem allocAt_eq (size : ℕ) {pos n : ℕ} (hpos : h.index.slot h.mem i = pos) (hn : sizeOf h.mem pos = n)
    (hlo : 0x1000 ≤ pos) (hend : pos + n ≤ h.endAddress) (hlt : h.endAddress < 2 ^ 32)
    (hfront : pos % 0x1000 ≤ 0xFE0) (hfit : frontSize pos + size + 20 ≤ n) :
    h.allocAt i size (u32 (size + headerSize + footerSize)) true =
      (splitHeap h pos n size,pos + frontSize pos + 12) := by
  have hF : frontSize pos = 0x1000 - pos % 0x1000 - 12 := rfl
  have hnew : u32 (size + headerSize + footerSize) = size + 20 := by
    unfold headerSize footerSize
    exact u32_of_lt (by omega)
  have hsub : sub32 n (size + 20) = n - (size + 20) := sub32_of_le (by omega)
  have hdown : pageDown pos ≠ 0 := by
    unfold pageDown
    omega
  have hfr : sub32 (0x1000 - pos % 0x1000) headerSize = frontSize pos := by
    unfold headerSize
    rw [sub32_of_le (by omega), hF]
  have hloc : u32 (pos + frontSize pos) = pos + frontSize pos := u32_of_lt (by omega)
  have hfoot : sub32 (pos + frontSize pos) footerSize = pos + frontSize pos - 8 := sub32_of_le (by unfold footerSize; omega)
  have hsize : sizeOf (writeFooter (writeHeader h.mem pos (frontSize pos) 1) (pos + frontSize pos - 8) pos) pos =
      frontSize pos :=
    (Gap.writeTile_formed h.mem (a := pos) true (by omega : 20 ≤ frontSize pos) (by omega)).head.size
  have hrest : sub32 n (frontSize pos) = n - frontSize pos := sub32_of_le (by omega)
  have hblock : u32 (pos + frontSize pos + headerSize + size) = pos + frontSize pos + (size + 20) - 8 := by
    unfold headerSize
    rw [u32_of_lt (by omega)]
    omega
  have hhole : u32 (pos + frontSize pos + headerSize + size + footerSize) = pos + frontSize pos + (size + 20) := by
    unfold headerSize footerSize
    rw [u32_of_lt (by omega)]
    omega
  have hret : u32 (pos + frontSize pos + headerSize) = pos + frontSize pos + 12 := by
    unfold headerSize
    exact u32_of_lt (by omega)
  have hleft : sub32 (n - frontSize pos) (size + 20) = n - frontSize pos - (size + 20) := sub32_of_le (by omega)
  rw [hnew]
  unfold Heap.allocAt
  simp only [hpos, hn, hsub, headerSize, footerSize]
  rw [decide_eq_false (by omega)]
  simp only [Bool.false_eq_true, if_false, hdown, ne_eq, not_false_eq_true, and_self, if_true]
  simp only [headerSize, footerSize] at hfr hfoot hblock hhole hret
  simp only [hfr, hloc, hfoot, hsize, hrest, Heap.writeBlock, headerSize, footerSize, hblock, hhole, hret, hleft]
  unfold splitHeap
  dsimp only
  by_cases hc : pos + n = pos + frontSize pos + (size + 20)
  · rw [if_neg (by omega), if_pos hc]
    rfl
  · have hend' : sub32 (u32 (pos + frontSize pos + (size + 20) + (n - frontSize pos - (size + 20)))) 8 = pos + n - 8 := by
      rw [u32_of_lt (by omega), sub32_of_le (by omega)]
      omega
    rw [if_pos (by omega), if_neg hc, hend', if_pos (by omega),
      show n - frontSize pos - (size + 20) = pos + n - (pos + frontSize pos + (size + 20)) by omega]
    rfl

/-! ## The split -/

section Split
variable {m : Mem} {pos n : ℕ}

theorem splitMem_block (m : Mem) (pos size : ℕ) (hlt : pos + frontSize pos + (size + 20) < 2 ^ 32) :
    Formed (splitMem m pos size) ⟨pos + frontSize pos,size + 20,false⟩ :=
  Gap.writeTile_formed _ (a := pos + frontSize pos) false (by omega) hlt

theorem splitMem_front (m : Mem) (size : ℕ) (hF : 20 ≤ frontSize pos) (hlt : pos + frontSize pos < 2 ^ 32) :
    Formed (splitMem m pos size) ⟨pos,frontSize pos,true⟩ :=
  (Gap.writeTile_formed m (a := pos) true hF hlt).congr
    ((Gap.writeTile_changedIn _ (i := 0) (by omega)).sameOn (by unfold Apart; dsimp only; omega))

theorem splitMem_changedIn (m : Mem) (size : ℕ) (hF : 20 ≤ frontSize pos) :
    ChangedIn m (splitMem m pos size) pos (frontSize pos + (size + 20)) :=
  ((Gap.writeTile_changedIn m (i := 1) hF).mono le_rfl (by omega)).trans
    ((Gap.writeTile_changedIn _ (a := pos + frontSize pos) (i := 0) (by omega)).mono (by omega) (by omega))

theorem holes_in_index {g : Heap} {ts : List Tile} (h : ∀ t ∈ ts, t.hole = true ∧ t.addr ∈ g.index.entries g.mem)
    {t : Tile} (ht : t.hole = true ∧ t.addr ∈ g.index.entries g.mem) :
    ∀ u ∈ t :: ts, u.hole = true ∧ u.addr ∈ g.index.entries g.mem := by
  intro u hu
  rcases List.mem_cons.mp hu with rfl | hu
  · exact ht
  · exact h u hu

/-- The other entries of the index lie outside the hole. -/
theorem WellFormed.entry_cases (w : WellFormed h ts) (hi : i < h.index.size) (hpos : h.index.slot h.mem i = pos)
    (hn : sizeOf h.mem pos = n) {x : ℕ} (hx : x ∈ h.index.entries h.mem) : x = pos ∨ x < pos ∨ pos + n ≤ x := by
  obtain ⟨t,ht,-,haddr,hlen,-⟩ := w.hole hi
  obtain ⟨u,hu,-,rfl⟩ := mem_holes.mp (w.index.mem_iff.mp hx)
  have hfit := (w.tiles.mem hu).1.head.fit
  rw [hpos, hn] at hlen
  rw [hpos] at haddr
  rcases w.tiles.eq_or_apart ht hu with rfl | h1 | h1
  · exact .inl haddr
  · exact .inr (.inr (by omega))
  · exact .inr (.inl (by omega))

/-- Memory changed inside a hole leaves the index alone. -/
theorem WellFormed.entries_congr (w : WellFormed h ts) {m : Mem} {a k : ℕ} (ha : h.startAddress ≤ a)
    (hm : ChangedIn h.mem m a k) : h.index.entries m = h.index.entries h.mem := by
  have harr := w.array
  have hst := w.start
  have hsz := w.size
  exact OrderedArray.entries_congr (hm.sameOn (by unfold Apart; omega))

/-- A hole that splits serves the request. -/
theorem WellFormed.served (w : WellFormed h ts) (hi : i < h.index.size) (hpos : h.index.slot h.mem i = pos)
    (hn : sizeOf h.mem pos = n) (hs : Splits h pos n size) :
    Served h (splitHeap h pos n size) pos n size (pos + frontSize pos + 12) := by
  obtain ⟨hmod,hrest⟩ := hs
  obtain ⟨t,ht,-,haddr,hlen,hlo,hhi,-⟩ := w.hole hi
  rw [hpos, hn] at hlen
  rw [hpos] at haddr
  rw [haddr] at hlo hhi
  rw [hlen] at hhi
  have hlt := w.endLt
  have hst := w.start
  have harr := w.array
  have hF : frontSize pos = 0x1000 - pos % 0x1000 - 12 := rfl
  have hF20 : 20 ≤ frontSize pos := by omega
  have hchg := splitMem_changedIn h.mem size hF20
  have hfront := splitMem_front h.mem size hF20 (by omega)
  have hblock := splitMem_block h.mem pos size (by omega)
  have hentry := fun x hx => w.entry_cases hi hpos hn (x := x) hx
  have hmem : pos ∈ h.index.entries h.mem := OrderedArray.mem_entries.mpr ⟨i,hi,hpos⟩
  have halign : (pos + frontSize pos + 12) % 0x1000 = 0 := by omega
  unfold splitHeap
  dsimp only
  rcases hrest with hrest | ⟨hrest,hroom⟩
  · rw [if_pos (by omega)]
    have hent := w.entries_congr hlo hchg
    refine ⟨halign,⟨[⟨pos,frontSize pos,true⟩],pos + frontSize pos,size + 20,[],rfl,?_,?_,le_rfl,fun x hx => ?_⟩,
      fun x hx _ => hchg x (by omega)⟩
    · refine ⟨rfl,hfront,rfl,hblock,?_⟩
      change pos + frontSize pos + (size + 20) = pos + n
      omega
    · refine holes_in_index (by simp) ⟨rfl,?_⟩
      change pos ∈ h.index.entries (splitMem h.mem pos size)
      rw [hent]
      exact hmem
    · change x ∈ h.index.entries (splitMem h.mem pos size) at hx
      rw [hent] at hx
      rcases hentry x hx with h1 | h1 | h1
      · omega
      · omega
      · omega
  · rw [if_neg (by omega)]
    generalize hc : pos + frontSize pos + (size + 20) = c
    have hk : 20 ≤ pos + n - c := by omega
    have hend : pos + n - 8 = c + (pos + n - c) - 8 := by omega
    rw [hend]
    generalize hm : writeFooter (writeHeader (splitMem h.mem pos size) c (pos + n - c) 1) (c + (pos + n - c) - 8) c = m2
    have hchg2 : ChangedIn (splitMem h.mem pos size) m2 c (pos + n - c) := by
      rw [← hm]
      exact Gap.writeTile_changedIn _ hk
    have hhole : Formed m2 ⟨c,pos + n - c,true⟩ := by
      rw [← hm]
      exact Gap.writeTile_formed _ true hk (by omega)
    have hall : ChangedIn h.mem m2 pos n := (hchg.mono le_rfl (by omega)).trans (hchg2.mono (by omega) (by omega))
    have hent := w.entries_congr hlo hall
    -- the index takes the hole behind the block, and nothing from the heap's start on changes
    have hperm : (({ h with mem := m2 } : Heap).insertIndex c |>.index.entries (({ h with mem := m2 } : Heap).insertIndex c).mem).Perm
        (c :: h.index.entries h.mem) := by
      rw [← hent]
      exact h.index.insert_perm m2 _ (by omega) (by omega)
    have hsame : ∀ a k, h.startAddress ≤ a → SameOn (({ h with mem := m2 } : Heap).insertIndex c).mem m2 a k :=
      fun a k ha => h.index.insert_sameOn m2 _ _ (by unfold Apart; omega)
    refine ⟨halign,⟨[⟨pos,frontSize pos,true⟩],pos + frontSize pos,size + 20,[⟨c,pos + n - c,true⟩],rfl,?_,?_,le_rfl,
      fun x hx => ?_⟩,fun x hx hx' => ?_⟩
    · refine ⟨rfl,?_,rfl,?_,?_,?_,?_⟩
      · exact (hfront.congr (hchg2.sameOn (by unfold Apart; dsimp only; omega))).congr (hsame _ _ hlo)
      · exact (hblock.congr (hchg2.sameOn (by unfold Apart; dsimp only; omega))).congr (hsame _ _ (by dsimp only; omega))
      · change c = pos + frontSize pos + (size + 20)
        exact hc.symm
      · exact hhole.congr (hsame _ _ (by dsimp only; omega))
      · change pos + frontSize pos + (size + 20) + (pos + n - c) = pos + n
        omega
    · have hin : ∀ x, x = c ∨ x ∈ h.index.entries h.mem →
          x ∈ (({ h with mem := m2 } : Heap).insertIndex c).index.entries (({ h with mem := m2 } : Heap).insertIndex c).mem :=
        fun x hx => hperm.mem_iff.mpr (List.mem_cons.mpr hx)
      exact holes_in_index (holes_in_index (by simp) ⟨rfl,hin c (.inl rfl)⟩) ⟨rfl,hin pos (.inr hmem)⟩
    · rcases List.mem_cons.mp (hperm.mem_iff.mp hx) with rfl | hx
      · omega
      · rcases hentry x hx with h1 | h1 | h1
        · omega
        · omega
        · omega
    · rw [← hall x hx]
      by_cases hlow : x < 0xC0000000
      · exact h.index.insert_sameOn m2 _ _ (b := x) (k := 1) (by unfold Apart; omega) x le_rfl (by omega)
      · exact hsame x 1 (by omega) x le_rfl (by omega)

/-- Holes of at least 20 bytes do not fill a smaller space. -/
theorem tiles_short {a e : ℕ} {us : List Tile} (h : Tiles (Formed m) a e us) (he : e < a + 20) : a = e := by
  cases us with
  | nil => exact h
  | cons u us =>
    have hfit := h.2.1.head.fit
    have hle := h.2.2.le
    omega

theorem writeBlock_pointer (h : Heap) (b len size newSize : ℕ) :
    (h.writeBlock b len size newSize).2 = u32 (b + headerSize) := by
  unfold Heap.writeBlock
  dsimp only
  split <;> rfl

/-- The pointer that `alloc` returns. -/
theorem allocAt_pointer (size newSize : ℕ) (hpos : h.index.slot h.mem i = pos) (hlo : 0x1000 ≤ pos) :
    (h.allocAt i size newSize true).2 = u32 (u32 (pos + sub32 (0x1000 - pos % 0x1000) headerSize) + headerSize) := by
  have hdown : pageDown pos ≠ 0 := by
    unfold pageDown
    omega
  unfold Heap.allocAt
  simp only [hpos, hdown, ne_eq, not_false_eq_true, and_self, if_true, writeBlock_pointer]

/-- The block starts a page after the hole, or there is no room for its header. -/
theorem front_of_pointer {b : ℕ} (hlt : pos + n < 2 ^ 32)
    (hb : u32 (u32 (pos + sub32 (0x1000 - pos % 0x1000) headerSize) + headerSize) = b + 12)
    (hpos : pos ≤ b) (hle : b + 20 ≤ pos + n) : b = pos + frontSize pos ∧ pos % 0x1000 ≤ 0xFF4 := by
  have hF : frontSize pos = 0x1000 - pos % 0x1000 - 12 := rfl
  unfold u32 sub32 headerSize at hb
  split at hb
  · omega
  · omega

/-- Writing the block takes nothing out of the index. -/
theorem WellFormed.mem_writeBlock (w : WellFormed h ts) {m : Mem} {a k : ℕ} (hm : ChangedIn h.mem m a k)
    (ha : h.startAddress ≤ a) {b len : ℕ} (hb : h.startAddress ≤ b) (hlt : b + len < 2 ^ 32) (hsize : size + 20 ≤ len)
    {x : ℕ} (hx : x ∈ h.index.entries h.mem) :
    x ∈ ({ h with mem := m }.writeBlock b len size (size + 20)).1.index.entries
      ({ h with mem := m }.writeBlock b len size (size + 20)).1.mem := by
  have harr := w.array
  have hst := w.start
  have hsz := w.size
  have hfoot : u32 (b + headerSize + size) = b + (size + 20) - 8 := by
    unfold headerSize
    rw [u32_of_lt (by omega)]
    omega
  have hhole : u32 (b + headerSize + size + footerSize) = b + (size + 20) := by
    unfold headerSize footerSize
    rw [u32_of_lt (by omega)]
    omega
  have hkeep : ∀ {m1 m2 : Mem} {a k : ℕ}, h.startAddress ≤ a → ChangedIn m1 m2 a k →
      x ∈ h.index.entries m1 → x ∈ h.index.entries m2 := by
    intro m1 m2 a k ha hch hx1
    rwa [← OrderedArray.entries_congr (hch.sameOn (by unfold Apart; omega)).symm]
  have hx1 := hkeep ha hm hx
  have hx2 := hkeep hb (Gap.writeTile_changedIn m (a := b) (k := size + 20) (i := 0) (by omega)) hx1
  unfold Heap.writeBlock
  simp only [hfoot, hhole, sub32_of_le hsize]
  split
  · rename_i hrest
    have hend : sub32 (u32 (b + (size + 20) + (len - (size + 20)))) footerSize = b + len - 8 := by
      unfold footerSize
      rw [u32_of_lt (by omega), sub32_of_le (by omega)]
      omega
    simp only [hend]
    refine (OrderedArray.insert_perm h.index _ _ (by omega) (by omega)).mem_iff.mpr (List.mem_cons_of_mem _ ?_)
    have hx3 := hkeep (a := b + (size + 20)) (by omega) (writeHeader_changedIn _ (b + (size + 20)) (len - (size + 20)) 1) hx2
    split
    · exact hkeep (by omega) (writeFooter_changedIn _ (b + len - 8) (b + (size + 20))) hx3
    · exact hx3
  · exact hx2

/-- A block at the very start of the hole stays in the index. -/
theorem WellFormed.mem_of_no_front (w : WellFormed h ts) (size : ℕ) (hi : i < h.index.size) (hpos : h.index.slot h.mem i = pos)
    (hn : sizeOf h.mem pos = n) (hlo : h.startAddress + 8 ≤ pos) (hlt : pos + n < 2 ^ 32)
    (hmod : pos % 0x1000 = 0xFF4) (hfit : size + 20 ≤ n) :
    pos ∈ (h.allocAt i size (u32 (size + headerSize + footerSize)) true).1.index.entries
      (h.allocAt i size (u32 (size + headerSize + footerSize)) true).1.mem := by
  have hst := w.start
  have hmem : pos ∈ h.index.entries h.mem := OrderedArray.mem_entries.mpr ⟨i,hi,hpos⟩
  have hnew : u32 (size + headerSize + footerSize) = size + 20 := by
    unfold headerSize footerSize
    exact u32_of_lt (by omega)
  have hdown : pageDown pos ≠ 0 := by
    unfold pageDown
    omega
  have hfr : sub32 (0x1000 - pos % 0x1000) headerSize = 0 := by
    rw [hmod]
    rfl
  have hloc : u32 (pos + 0) = pos := u32_of_lt (by omega)
  have hfoot : sub32 pos footerSize = pos - 8 := sub32_of_le (by unfold footerSize; omega)
  have hchg : ChangedIn h.mem (writeFooter (writeHeader h.mem pos 0 1) (pos - 8) pos) (pos - 8) 20 :=
    ((writeHeader_changedIn h.mem pos 0 1).mono (by omega) (by omega)).trans
      ((writeFooter_changedIn _ (pos - 8) pos).mono le_rfl (by omega))
  have hsize : sizeOf (writeFooter (writeHeader h.mem pos 0 1) (pos - 8) pos) pos = 0 := by
    unfold sizeOf
    rw [load32_congr ((writeFooter_changedIn _ (pos - 8) pos).sameOn (by unfold Apart; omega))]
    exact load32_store32 _ _ _
  have hsub : sub32 n (size + 20) = n - (size + 20) := sub32_of_le hfit
  have hrest : sub32 n 0 = n := sub32_of_le (Nat.zero_le n)
  rw [hnew]
  unfold Heap.allocAt
  simp only [hpos, hn, hsub, hdown, ne_eq, not_false_eq_true, and_self, if_true, hfr, hloc, hfoot, hsize, hrest]
  by_cases habs : n - (size + 20) < headerSize + footerSize
  · rw [decide_eq_true habs, if_pos rfl, if_pos rfl, u32_of_lt (by omega)]
    have := @WellFormed.mem_writeBlock h ts (size + (n - (size + 20))) w _ _ _ hchg (by omega) pos n (by omega) hlt
      (by omega) _ hmem
    rwa [show size + (n - (size + 20)) + 20 = n by omega] at this
  · rw [decide_eq_false habs, if_neg (by simp), if_neg (by simp)]
    exact w.mem_writeBlock hchg (by omega) (by omega) hlt hfit hmem

theorem insertIndex_sameOn_of_apart (h : Heap) (x : ℕ) {b k : ℕ}
    (hb : Apart h.index.array (4 * (h.index.size + 1)) b k) : SameOn (h.insertIndex x).mem h.mem b k :=
  h.index.insert_sameOn h.mem _ _ hb

/-- What a split with a hole behind the block keeps of the block. -/
theorem splitHeap_mem (hne : pos + n ≠ pos + frontSize pos + (size + 20)) {a k : ℕ}
    (ha : h.index.array + 4 * (h.index.size + 1) ≤ a)
    (hend : a + k ≤ pos + frontSize pos + (size + 20) ∧ a + k + 8 ≤ pos + n) :
    SameOn (splitHeap h pos n size).mem (splitMem h.mem pos size) a k := by
  unfold splitHeap
  dsimp only
  rw [if_neg hne]
  intro x h1 h2
  rw [insertIndex_sameOn_of_apart _ _ (by unfold Apart; exact .inl ha) x h1 h2]
  dsimp only
  rw [writeFooter_changedIn _ _ _ x (by omega), writeHeader_changedIn _ _ _ _ x (by omega)]

/-- A full index puts the address of a hole over the first word behind it. -/
theorem WellFormed.full_index (w : WellFormed h ts) (hfull : h.index.size = 0x20000) {m : Mem}
    (hm : ∀ x ∈ h.index.entries m, h.startAddress ≤ x) {c : ℕ} (hc : h.startAddress ≤ c) (hlt : c < 2 ^ 32) :
    h.startAddress ≤ load32 ({ h with mem := m }.insertIndex c).mem h.startAddress := by
  have harr := w.array
  have hst := w.start
  have hslot := h.index.slot_insert m (Heap.headerLessThan m) hlt 0x20000
  have hle := h.index.position_le m (Heap.headerLessThan m) c
  have hload : load32 ({ h with mem := m }.insertIndex c).mem h.startAddress =
      h.index.slot (h.index.insert m (Heap.headerLessThan m) c).1 0x20000 := by
    unfold OrderedArray.slot
    rw [harr, hst]
    rfl
  rw [hload, hslot, if_neg (by omega)]
  split
  · exact hc
  · rw [if_pos (by omega)]
    exact hm _ (OrderedArray.mem_entries.mpr ⟨0x20000 - 1,by omega,rfl⟩)

/-- A request that was served came from a hole that splits. -/
theorem WellFormed.splits (w : WellFormed h ts) (hi : i < h.index.size) (hpos : h.index.slot h.mem i = pos)
    (hn : sizeOf h.mem pos = n) {g : Heap} {p : ℕ}
    (hg : h.allocAt i size (u32 (size + headerSize + footerSize)) true = (g,p)) (hs : Served h g pos n size p) :
    Splits h pos n size := by
  obtain ⟨t,ht,-,haddr,hlen,hlo,hhi,-⟩ := w.hole hi
  rw [hpos, hn] at hlen
  rw [hpos] at haddr
  rw [haddr] at hlo hhi
  rw [hlen] at hhi
  have hlt := w.endLt
  have hst := w.start
  have hsz := w.size
  have harr := w.array
  have hF : frontSize pos = 0x1000 - pos % 0x1000 - 12 := rfl
  obtain ⟨-,⟨front,b,len,back,rfl,htiles,hholes,hroom,hno⟩,hout⟩ := hs
  obtain ⟨b',hfront,rfl,hblock,hback⟩ := tiles_append.mp htiles
  have hlen20 := hback.le
  dsimp only at hfront hblock hback hlen20
  have hptr := allocAt_pointer size (u32 (size + headerSize + footerSize)) hpos (by omega)
  rw [hg] at hptr
  obtain ⟨hb,hmod⟩ := front_of_pointer (n := n) (by omega) hptr.symm hfront.le (by omega)
  subst hb
  -- in front of the block there is nothing or room for a hole, and nothing would leave it in the index
  have hF20 : 20 ≤ frontSize pos := by
    by_contra hshort
    have hzero := tiles_short hfront (by omega)
    have hin := w.mem_of_no_front size hi hpos hn (by omega) (by omega) (by omega) (by omega)
    rw [hg] at hin
    exact hno pos hin (by omega)
  have heq := allocAt_eq size hpos hn (by omega) hhi hlt (by omega) (by omega)
  rw [hg] at heq
  obtain ⟨rfl,-⟩ := Prod.mk.inj heq
  refine ⟨by omega,?_⟩
  by_cases hend : pos + n = pos + frontSize pos + (size + 20)
  · exact .inl (by omega)
  right
  -- the header of the block is as `alloc` wrote it
  have hlen' : len = size + 20 := by
    have hhead := (splitMem_block h.mem pos size (by omega)).head
    have hkeep := hhead.congr
      (splitHeap_mem hend (by dsimp only; omega) (by dsimp only; omega))
    exact hblock.head.size.symm.trans hkeep.size
  subst hlen'
  refine ⟨?_,?_⟩
  · by_contra hshort
    have := tiles_short hback (by omega)
    omega
  · -- a full index runs into the first header of the heap
    by_contra hfull
    have hsize : h.index.size = 0x20000 := by omega
    have hmagic : load32 (splitHeap h pos n size).mem h.startAddress = heapMagic := by
      by_cases hfirst : pos = h.startAddress
      · cases front with
        | nil =>
          have : pos = pos + frontSize pos := hfront
          omega
        | cons u us =>
          rw [show h.startAddress = u.addr from hfirst.symm.trans hfront.1.symm]
          exact hfront.2.1.head.magic
      · have htiles' := w.tiles
        cases ts with
        | nil => cases ht
        | cons u us =>
          have hu := htiles'.2.1.head
          have hua : u.addr = h.startAddress := htiles'.1
          have hufit := hu.fit
          have hupos : h.startAddress + 20 ≤ pos := by
            rcases htiles'.eq_or_apart List.mem_cons_self ht with rfl | h1 | h1
            · omega
            · omega
            · omega
          rw [← hua, ← show load32 h.mem u.addr = heapMagic from hu.magic]
          exact load32_congr fun x h1 h2 => hout x (by omega) (by omega)
    have hchg := splitMem_changedIn h.mem size hF20
    have hentries : ∀ x ∈ h.index.entries h.mem, h.startAddress ≤ x := by
      intro x hx
      obtain ⟨u,hu,-,rfl⟩ := mem_holes.mp (w.index.mem_iff.mp hx)
      exact (w.tiles.mem hu).2.1
    have hge : h.startAddress ≤ load32 (splitHeap h pos n size).mem h.startAddress := by
      unfold splitHeap
      dsimp only
      rw [if_neg hend]
      refine w.full_index hsize (fun x hx => hentries x ?_) (by omega) (by omega)
      have hch1 := writeHeader_changedIn (splitMem h.mem pos size) (pos + frontSize pos + (size + 20))
        (pos + n - (pos + frontSize pos + (size + 20))) 1
      have hch2 := writeFooter_changedIn (writeHeader (splitMem h.mem pos size) (pos + frontSize pos + (size + 20))
        (pos + n - (pos + frontSize pos + (size + 20))) 1) (pos + n - 8) (pos + frontSize pos + (size + 20))
      rwa [w.entries_congr (a := pos) (k := 2 ^ 32) hlo (((hchg.mono le_rfl (by omega)).trans
        (hch1.mono (by omega) (by omega))).trans (hch2.mono (by omega) (by omega)))] at hx
    rw [hmagic, hst] at hge
    exact absurd hge (by decide)

end Split

theorem Heap.findSmallestHole_lt {newSize : ℕ} {pageAlign : Bool} (hf : h.findSmallestHole newSize pageAlign = some i) :
    i < h.index.size := by
  unfold Heap.findSmallestHole at hf
  dsimp only at hf
  split at hf
  · cases hf
  · rename_i hne
    cases hf
    have := h.index.search_le h.mem (Heap.fits h.mem newSize pageAlign)
    omega

/-- A page-aligned request that finds a hole returns, and it is served as it should be if and only if
the hole splits. -/
theorem aligned_alloc_served (w : WellFormed h ts)
    (hf : h.findSmallestHole (u32 (size + headerSize + footerSize)) true = some i) (fuel : ℕ) :
    ∃ g p, h.alloc (fuel + 1) size true = some (g,p) ∧
      (Served h g (h.index.slot h.mem i) (sizeOf h.mem (h.index.slot h.mem i)) size p ↔
        Splits h (h.index.slot h.mem i) (sizeOf h.mem (h.index.slot h.mem i)) size) := by
  have hi := Heap.findSmallestHole_lt hf
  have hcall : h.alloc (fuel + 1) size true =
      some (h.allocAt i size (u32 (size + headerSize + footerSize)) true) := by
    rw [Heap.alloc]
    simp only [hf]
  generalize hres : h.allocAt i size (u32 (size + headerSize + footerSize)) true = res at hcall
  obtain ⟨g,p⟩ := res
  refine ⟨g,p,hcall,w.splits hi rfl rfl hres,fun hs => ?_⟩
  obtain ⟨t,-,-,haddr,hlen,hlo,hhi,-⟩ := w.hole hi
  rw [haddr, hlen] at hhi
  rw [haddr] at hlo
  have hst := w.start
  have heq := allocAt_eq size rfl rfl (by omega) hhi w.endLt hs.1 (by
    rcases hs.2 with h1 | ⟨h1,-⟩
    · omega
    · omega)
  rw [hres] at heq
  obtain ⟨rfl,rfl⟩ := Prod.mk.inj heq
  exact w.served hi rfl rfl hs

end Aligned

/-! ## Two requests -/

theorem Whole.wellFormed {h : Heap} {live : List (ℕ × ℕ)} {ts : List Tile} (w : Whole h live ts) : WellFormed h ts :=
  ⟨w.geo.array,w.geo.start,w.geo.endLt,w.geo.size,w.tiles,w.index⟩

theorem firstAlloc_wellFormed : ∃ ts, WellFormed firstAlloc.1 ts := by
  have hreach : Transition.Reachable (HeapRun.Created 0xCFFFF000) (Transition.Guarded HeapRun.Sound HeapRun.Step)
      ⟨firstAlloc.1,[(firstAlloc.2,100)],1⟩ :=
    .next (a := .alloc 100) (.base bootHeap_created) ⟨firstAlloc_sound,firstAlloc_step⟩
  obtain ⟨ts,w⟩ := (HeapRun.Inv.of_reachable (by decide) hreach).whole (b := (firstAlloc.2,100)) (by simp)
  exact ⟨ts,w.wellFormed⟩

/-- Behind the first hundred bytes a page-aligned request is served. -/
theorem firstAlloc_aligned : ∃ g p, firstAlloc.1.alloc 1 0x1000 true = some (g,p) ∧
    Served firstAlloc.1 g 0xC0080078 0x7FF88 0x1000 p := by
  obtain ⟨ts,w⟩ := firstAlloc_wellFormed
  have hfind : firstAlloc.1.findSmallestHole (u32 (0x1000 + headerSize + footerSize)) true = some 0 := by decide +kernel
  obtain ⟨g,p,hcall,hiff⟩ := aligned_alloc_served w hfind 0
  have hpos : firstAlloc.1.index.slot firstAlloc.1.mem 0 = 0xC0080078 := by decide +kernel
  have hlen : sizeOf firstAlloc.1.mem 0xC0080078 = 0x7FF88 := by decide +kernel
  have hroom : firstAlloc.1.index.size < 0x20000 := by decide +kernel
  rw [hpos, hlen] at hiff
  exact ⟨g,p,hcall,hiff.mpr ⟨by decide,.inr ⟨by decide,hroom⟩⟩⟩

/-- A block after which the data of the next one is on a page boundary. -/
def pageAlloc : Heap × ℕ := (bootHeap.alloc 2 0xFE0 false).get (by decide +kernel)

theorem alloc_pageAlloc : bootHeap.alloc 2 0xFE0 false = some (pageAlloc.1,pageAlloc.2) := by
  simp [pageAlloc]

theorem pageAlloc_step : HeapRun.Step ⟨bootHeap,[],0⟩ (.alloc 0xFE0) ⟨pageAlloc.1,[(pageAlloc.2,0xFE0)],1⟩ :=
  .alloc (by decide) (fun hf => absurd hf (by decide +kernel)) alloc_pageAlloc

theorem pageAlloc_wellFormed : ∃ ts, WellFormed pageAlloc.1 ts := by
  have hsound : bootHeap.AllocSound 0xFE0 := ⟨by decide +kernel,fun hf => absurd hf (by decide +kernel)⟩
  have hreach : Transition.Reachable (HeapRun.Created 0xCFFFF000) (Transition.Guarded HeapRun.Sound HeapRun.Step)
      ⟨pageAlloc.1,[(pageAlloc.2,0xFE0)],1⟩ :=
    .next (a := .alloc 0xFE0) (.base bootHeap_created) ⟨hsound,pageAlloc_step⟩
  obtain ⟨ts,w⟩ := (HeapRun.Inv.of_reachable (by decide) hreach).whole (b := (pageAlloc.2,0xFE0)) (by simp)
  exact ⟨ts,w.wellFormed⟩

/-- A hole that is aligned already loses its front to a hole of no bytes, and the index goes on to
name the block. -/
theorem aligned_hole_stays_in_index : ∃ h ts size i g p, WellFormed h ts ∧
    h.findSmallestHole (u32 (size + headerSize + footerSize)) true = some i ∧ h.alloc 1 size true = some (g,p) ∧
    ¬ Served h g (h.index.slot h.mem i) (sizeOf h.mem (h.index.slot h.mem i)) size p := by
  obtain ⟨ts,w⟩ := pageAlloc_wellFormed
  have hfind : pageAlloc.1.findSmallestHole (u32 (16 + headerSize + footerSize)) true = some 0 := by decide +kernel
  have hpos : pageAlloc.1.index.slot pageAlloc.1.mem 0 = 0xC0080FF4 := by decide +kernel
  generalize hres : pageAlloc.1.allocAt 0 16 (u32 (16 + headerSize + footerSize)) true = res
  obtain ⟨g,p⟩ := res
  refine ⟨pageAlloc.1,ts,16,0,g,p,w,hfind,?_,fun hs => ?_⟩
  · rw [Heap.alloc]
    simp only [hfind, hres]
  · have hsplit := w.splits (Heap.findSmallestHole_lt hfind) rfl rfl hres hs
    have hmod := hsplit.1
    rw [hpos] at hmod
    exact absurd hmod (by decide)

end X86OsDev.Tutorial
