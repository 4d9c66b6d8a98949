import X86OsDev.Tutorial.HeapContract

/-! # The headers and footers that `free` looks at

`free` tests the eight bytes before its block and the twelve bytes after it
without a look at the bounds of the heap. The lists below name every header and
footer that a call reads or writes, next to what the call computes.
-/
namespace X86OsDev.Tutorial
open Memory Tiling Transition

namespace Heap

/-- "Unify left": the address and the size of what it reads. -/
def leftTouches (m : Mem) (header : ℕ) : List (ℕ × ℕ) :=
  let testFooter := sub32 header footerSize
  if magicOf m testFooter = heapMagic then
    [(testFooter,footerSize),(headerOf m testFooter,headerSize)]
  else [(testFooter,footerSize)]

/-- The end of `free` that may call `contract`. -/
def shrinkTouches (h : Heap) (header footer : ℕ) : List (ℕ × ℕ) :=
  if u32 (footer + footerSize) = h.endAddress then
    match h.contract (sub32 header h.startAddress) with
    | none => []
    | some (g,newLength) =>
      let rest := sub32 (sizeOf g.mem header) (sub32 h.length newLength)
      if 0 < rest then [(header,headerSize),(sub32 (u32 (header + rest)) footerSize,footerSize)]
      else [(header,headerSize)]
  else []

/-- The headers that `insert_ordered_array` compares. -/
def insertTouches (h : Heap) (header : ℕ) : List (ℕ × ℕ) :=
  ((h.index.entries h.mem).take (h.index.position h.mem (headerLessThan h.mem) header + 1)).flatMap
    fun x => [(x,headerSize),(header,headerSize)]

/-- The call `free(p, heap)`. -/
def freeTouches (h : Heap) (p : ℕ) : List (ℕ × ℕ) :=
  if p = 0 then []
  else
    let header := sub32 p headerSize
    let footer := sub32 (u32 (header + sizeOf h.mem header)) footerSize
    if magicOf h.mem header = heapMagic ∧ magicOf h.mem footer = heapMagic then
      let m := store8 h.mem (header + 4) 1
      let left := unifyLeft m header footer
      let testHeader := u32 (footer + footerSize)
      [(header,headerSize),(footer,footerSize)] ++ leftTouches m header ++ [(testHeader,headerSize)] ++
        match { h with mem := left.1 }.unifyRight left.2.1 footer with
        | none => []
        | some (g,last) => g.shrinkTouches left.2.1 last ++
          match g.shrink left.2.1 last testHeader with
          | none => []
          | some g => if left.2.2 then g.insertTouches left.2.1 else []
    else [(header,headerSize),(footer,footerSize)]

/-- The test of "unify left" in `free(p, heap)`. -/
def MergesLeft (h : Heap) (p : ℕ) : Prop :=
  let header := sub32 p headerSize
  let testFooter := sub32 header footerSize
  let m := store8 h.mem (header + 4) 1
  magicOf m testFooter = heapMagic ∧ isHoleOf m (headerOf m testFooter) = 1

/-- The test of "unify right". -/
def MergesRight (h : Heap) (p : ℕ) : Prop :=
  let header := sub32 p headerSize
  let footer := sub32 (u32 (header + sizeOf h.mem header)) footerSize
  let m := (unifyLeft (store8 h.mem (header + 4) 1) header footer).1
  let testHeader := u32 (footer + footerSize)
  magicOf m testHeader = heapMagic ∧ isHoleOf m testHeader ≠ 0

/-- What lies entirely within the heap. -/
def Within (h : Heap) (l : List (ℕ × ℕ)) : Prop :=
  ∀ t ∈ l, h.startAddress ≤ t.1 ∧ t.1 + t.2 ≤ h.endAddress

end Heap

/-- `free(p, heap)` looks only inside the heap, and it merges with its neighbours that are holes. -/
structure LooksInside (h : Heap) (ts : List Tile) (p : ℕ) : Prop where
  within : h.Within (h.freeTouches p)
  left : h.MergesLeft p ↔ ∃ l ∈ ts, l.hole = true ∧ l.addr + l.len + headerSize = p
  right : h.MergesRight p ↔ ∃ r ∈ ts, r.hole = true ∧ r.addr = p - headerSize + sizeOf h.mem (p - headerSize)

section Stages
variable {h : Heap} {live : List (ℕ × ℕ)} {extra : List ℕ} {pre post : List Tile} {a n x k : ℕ}

/-- The entries of the index are headers in the heap. -/
def Heap.EntriesWithin (h : Heap) (g : Heap) : Prop :=
  g.index.array = h.index.array ∧ g.index.size ≤ h.index.size ∧
    ∀ y ∈ g.index.entries g.mem, h.startAddress ≤ y ∧ y + 12 ≤ h.endAddress

theorem Heap.EntriesWithin.remove {g : Heap} (e : h.EntriesWithin g) {i : ℕ} (hi : i < g.index.size) :
    h.EntriesWithin (g.removeIndex i) := by
  obtain ⟨harr,hsize,hmem⟩ := e
  refine ⟨harr,(Heap.removeIndex_size_lt hi).le.trans hsize,fun y hy => hmem y ?_⟩
  exact (g.index.remove_perm g.mem hi).mem_iff.mpr (List.mem_cons_of_mem _ hy)

/-- Writes into the heap leave the index alone. -/
theorem Heap.EntriesWithin.write {g : Heap} (e : h.EntriesWithin g) (geo : Geometry h) {m : Mem} {endAddress : ℕ}
    (hm : SameOn m g.mem 0xC0000000 0x80000) : h.EntriesWithin { g with mem := m, endAddress := endAddress } := by
  obtain ⟨harr,hsize,hmem⟩ := e
  have hle := geo.size
  have heq : g.index.entries m = g.index.entries g.mem :=
    OrderedArray.entries_congr (hm.mono (by rw [harr, geo.array]) (by rw [harr, geo.array]; omega))
  refine ⟨harr,hsize,fun y hy => hmem y ?_⟩
  rwa [← heq]

theorem Gap.entriesWithin (g : Gap h live extra pre x k post) (hextra : ∀ y ∈ extra, y = x) (hk : 20 ≤ k) :
    h.EntriesWithin h := by
  have hs := g.start_le
  have he := g.le_end
  refine ⟨rfl,le_rfl,fun y hy => ?_⟩
  rcases List.mem_append.mp (g.index.mem_iff.mp hy) with hy | hy
  · obtain rfl := hextra y hy
    omega
  · rcases List.mem_append.mp hy with hy | hy
    · obtain ⟨t,ht,-,rfl⟩ := mem_holes.mp hy
      obtain ⟨hf,h1,h2⟩ := g.before.mem ht
      have := hf.head.fit
      omega
    · obtain ⟨t,ht,-,rfl⟩ := mem_holes.mp hy
      obtain ⟨hf,h1,h2⟩ := g.after.mem ht
      have := hf.head.fit
      omega

/-- "Unify right" for a hole with a tile after it. -/
theorem Gap.unifyRight_stays {r : Tile} (g : Gap h live extra pre x k (r :: post)) (hx : Formed h.mem ⟨x,k,true⟩)
    (hextra : ∀ y ∈ extra, y = x) :
    ∃ h' k', h.unifyRight x (x + k - 8) = some (h',x + k' - 8) ∧ 20 ≤ k' ∧ x + k' ≤ h.endAddress ∧
      sizeOf h'.mem x = k' ∧ h'.startAddress = h.startAddress ∧ h'.endAddress = h.endAddress ∧ h.EntriesWithin h' := by
  have hfit : 20 ≤ k := hx.head.fit
  have hs := g.start_le
  have hst := g.geo.start
  have hlt := g.geo.endLt
  have hsz : sizeOf h.mem x = k := hx.head.size
  have hents := g.entriesWithin hextra hfit
  obtain ⟨hra,hr,hrest⟩ := g.after
  have hrfit := hr.head.fit
  have hle := hrest.le
  have htest : u32 (x + k - 8 + footerSize) = x + k := by
    unfold footerSize
    rw [u32_of_lt (by omega)]
    omega
  by_cases hc : magicOf h.mem (x + k) = heapMagic ∧ isHoleOf h.mem (x + k) ≠ 0
  · have hhole : r.hole = true := by
      have h1 := hr.head.isHole
      rw [hra] at h1
      by_contra hno
      rw [if_neg hno] at h1
      exact hc.2 h1
    have hrsz : sizeOf h.mem (x + k) = r.len := by
      rw [← hra]
      exact hr.head.size
    obtain ⟨g2,-,-⟩ := g.absorbRight hhole
    have hch := setSize_changedIn h.mem x (k + r.len)
    have hsame : SameOn (setSize h.mem x (k + r.len)) h.mem 0xC0000000 0x80000 := hch.sameOn (by unfold Apart; omega)
    have hrsz2 : sizeOf (setSize h.mem x (k + r.len)) (x + k) = r.len :=
      (load32_congr (hch.sameOn (by unfold Apart; omega))).trans hrsz
    have g3 := g2.frame (hch.mono le_rfl (by omega))
    rw [hra] at g3
    have hmem : x + k ∈ h.index.entries (setSize h.mem x (k + r.len)) := g3.index.mem_iff.mpr (by simp)
    have hfound : h.index.search (setSize h.mem x (k + r.len)) (fun y => y == x + k) < h.index.size := by
      obtain ⟨i,hi,hslot⟩ := OrderedArray.mem_entries.mp hmem
      refine lt_of_le_of_ne (h.index.search_le _ _) fun heq => ?_
      have := OrderedArray.search_eq_size _ _ _ heq i hi
      simp [hslot] at this
    have hfoot : sub32 (u32 (x + k + r.len)) footerSize = x + (k + r.len) - 8 := by
      rw [u32_of_lt (by omega), ← Nat.add_assoc]
      exact sub32_of_le (show 8 ≤ _ by omega)
    have hu : u32 (k + r.len) = k + r.len := u32_of_lt (by omega)
    refine ⟨{ h with mem := setSize h.mem x (k + r.len) }.removeIndex
      (h.index.search (setSize h.mem x (k + r.len)) (fun y => y == x + k)),k + r.len,?_,by omega,by omega,?_,rfl,rfl,?_⟩
    · unfold Heap.unifyRight
      simp only [htest]
      rw [if_pos hc, hsz, hrsz, hu, hrsz2, if_pos hfound, hfoot]
    · exact (load32_congr (g3.geo.removeIndex_sameOn hfound (by dsimp only; omega))).trans
        (sizeOf_setSize h.mem x (by omega))
    · exact Heap.EntriesWithin.remove (g := { h with mem := setSize h.mem x (k + r.len) })
        (hents.write g.geo hsame) hfound
  · refine ⟨h,k,?_,hfit,by omega,hsz,rfl,rfl,hents⟩
    unfold Heap.unifyRight
    simp only [htest]
    rw [if_neg hc]

/-- The end of `free`, for a hole in the heap: the footer that it writes ends at the new end of the heap. -/
theorem Heap.shrink_within {g : Heap} (geo : Geometry h) (hst : g.startAddress = h.startAddress)
    (hend : g.endAddress = h.endAddress) (hk : 20 ≤ k) (hx1 : h.startAddress ≤ x) (hx2 : x + k ≤ h.endAddress)
    (hsz : sizeOf g.mem x = k) (e : h.EntriesWithin g) (testHeader : ℕ) :
    h.Within (g.shrinkTouches x (x + k - 8)) ∧
      ∀ g', g.shrink x (x + k - 8) testHeader = some g' → h.EntriesWithin g' := by
  have hstart := geo.start
  have hlt := geo.endLt
  have hlong := geo.long
  have hfoot : u32 (x + k - 8 + footerSize) = x + k := by
    unfold footerSize
    rw [u32_of_lt (by omega)]
    omega
  unfold Heap.shrinkTouches Heap.shrink
  rw [hfoot, hend]
  by_cases hlast : x + k = h.endAddress
  · have hlen : g.length = h.endAddress - h.startAddress := by
      unfold Heap.length
      rw [hst, hend]
      exact sub32_of_le (by omega)
    have harg : sub32 x g.startAddress = x - h.startAddress := by
      rw [hst]
      exact sub32_of_le hx1
    obtain ⟨c,hc⟩ : ∃ c, Heap.contractSize (x - h.startAddress) = c := ⟨_,rfl⟩
    have hc1 : 0x70000 ≤ c ∧ h.startAddress + c ≤ h.endAddress := by
      rw [← hc]
      unfold Heap.contractSize heapMinSize
      dsimp only
      split_ifs <;> omega
    have hcon : g.contract (x - h.startAddress) = some ({ g with endAddress := h.startAddress + c },c) := by
      unfold Heap.contract
      rw [if_neg (by omega), hc, hst, u32_of_lt (by omega)]
    have hgone : sub32 g.length c = h.endAddress - h.startAddress - c := by
      rw [hlen]
      exact sub32_of_le (by omega)
    -- the size may wrap around, and then the footer still ends at the new end
    obtain ⟨rest,hrest⟩ : ∃ rest, sub32 k (h.endAddress - h.startAddress - c) = rest := ⟨_,rfl⟩
    have hnew : sub32 (u32 (x + rest)) footerSize = h.startAddress + c - 8 := by
      have hu : u32 (x + rest) = h.startAddress + c := by
        rw [← hrest]
        unfold u32 sub32
        split <;> omega
      rw [hu]
      exact sub32_of_le (show 8 ≤ _ by omega)
    have hrlt : rest < 2 ^ 32 := by
      rw [← hrest]
      unfold sub32
      split <;> omega
    have hsame : SameOn (writeFooter (setSize g.mem x rest) (h.startAddress + c - 8) x) g.mem 0xC0000000 0x80000 := by
      intro y hy1 hy2
      rw [writeFooter_changedIn _ _ _ y (by omega), setSize_changedIn _ _ _ y (by omega)]
    simp only [if_pos hlast, harg, hcon, hgone, hsz, hrest, hnew, sizeOf_setSize g.mem x hrlt, Option.bind_eq_bind,
      Option.bind_some]
    split
    · refine ⟨fun t ht => ?_,fun g' hg' => ?_⟩
      · rcases List.mem_pair.mp ht with rfl | rfl
        · unfold headerSize
          dsimp only
          omega
        · unfold footerSize
          dsimp only
          omega
      · obtain rfl := Option.some.inj hg'
        exact e.write geo hsame
    · have e' : h.EntriesWithin { g with endAddress := h.startAddress + c } := e.write geo fun _ _ _ => rfl
      refine ⟨fun t ht => ?_,fun g' hg' => ?_⟩
      · obtain rfl := List.mem_singleton.mp ht
        unfold headerSize
        dsimp only
        omega
      · split at hg'
        · rename_i hi
          obtain rfl := Option.some.inj hg'
          exact e'.remove hi
        · obtain rfl := Option.some.inj hg'
          exact e'
  · rw [if_neg hlast, if_neg hlast]
    refine ⟨fun t ht => (List.not_mem_nil ht).elim,fun g' hg' => ?_⟩
    obtain rfl := Option.some.inj hg'
    exact e

theorem Heap.EntriesWithin.insertTouches {g : Heap} (e : h.EntriesWithin g) (hx1 : h.startAddress ≤ x)
    (hx2 : x + 12 ≤ h.endAddress) : h.Within (g.insertTouches x) := by
  intro t ht
  obtain ⟨y,hy,ht⟩ := List.mem_flatMap.mp ht
  rcases List.mem_pair.mp ht with rfl | rfl
  · exact e.2.2 y (List.mem_of_mem_take hy)
  · exact ⟨hx1,hx2⟩

end Stages

section Free
variable {h : Heap} {live live' : List (ℕ × ℕ)} {ts pre post : List Tile} {a len : ℕ}

/-- The touches of `free` on a block, in terms of its address and its length. -/
theorem Heap.freeTouches_block (ht : Formed h.mem ⟨a,len,false⟩) (hlt : a + len < 2 ^ 32) {m : Mem} {x : ℕ} {add : Bool}
    (hleft : Heap.unifyLeft (store8 h.mem (a + 4) 1) a (a + len - 8) = (m,x,add)) :
    h.freeTouches (a + 12) = [(a,12),(a + len - 8,8)] ++ leftTouches (store8 h.mem (a + 4) 1) a ++ [(a + len,12)] ++
      match ({ h with mem := m } : Heap).unifyRight x (a + len - 8) with
      | none => []
      | some (g,last) => g.shrinkTouches x last ++
        match g.shrink x last (a + len) with
        | none => []
        | some g => if add then g.insertTouches x else [] := by
  have hfit : 20 ≤ len := ht.head.fit
  have hsz : sizeOf h.mem a = len := ht.head.size
  have hheader : sub32 (a + 12) headerSize = a :=
    (sub32_of_le (show 12 ≤ a + 12 by omega)).trans (Nat.add_sub_cancel a 12)
  have hfooter : sub32 (u32 (a + len)) footerSize = a + len - 8 := by
    rw [u32_of_lt hlt]
    exact sub32_of_le (show 8 ≤ _ by omega)
  have htest : u32 (a + len - 8 + footerSize) = a + len := by
    unfold footerSize
    rw [u32_of_lt (by omega)]
    omega
  unfold Heap.freeTouches
  simp only [hheader, hsz, hfooter, htest]
  rw [if_neg (by omega), if_pos ⟨ht.head.magic,ht.foot.magic⟩, hleft]
  rfl

/-- The footer before a block that is not the first tile. -/
theorem Gap.left_footer {extra : List ℕ} {n : ℕ} {l : Tile} (g : Gap h live extra (pre ++ [l]) a n post) :
    h.startAddress ≤ l.addr ∧ l.addr + l.len = a ∧ 20 ≤ l.len ∧ magicOf h.mem (a - 8) = heapMagic ∧
      headerOf h.mem (a - 8) = l.addr ∧ isHoleOf h.mem l.addr = if l.hole then 1 else 0 := by
  obtain ⟨hpre,hl,hla⟩ := tiles_snoc.mp g.before
  have hmagic := hl.foot.magic
  have hheader := hl.foot.header
  rw [hla] at hmagic hheader
  exact ⟨hpre.le,hla,hl.head.fit,hmagic,hheader,hl.head.isHole⟩

/-- "Unify left" reads the tile on the left. -/
theorem Gap.leftTouches_within {extra : List ℕ} {n : ℕ} {l : Tile} (g : Gap h live extra (pre ++ [l]) a n post) :
    h.Within (Heap.leftTouches h.mem a) := by
  obtain ⟨h1,h2,h3,hmagic,hheader,-⟩ := g.left_footer
  have he := g.le_end
  have hsub : sub32 a footerSize = a - 8 := sub32_of_le (show 8 ≤ a by omega)
  unfold Heap.leftTouches
  rw [hsub]
  dsimp only
  rw [if_pos hmagic, hheader]
  intro t ht
  rcases List.mem_pair.mp ht with rfl | rfl
  · unfold footerSize
    dsimp only
    omega
  · unfold headerSize
    dsimp only
    omega

theorem Gap.holeBefore_iff {extra : List ℕ} {n : ℕ} {l : Tile} (g : Gap h live extra (pre ++ [l]) a n post) :
    HoleBefore h.mem a ↔ l.hole = true := by
  obtain ⟨-,-,-,hmagic,hheader,hhole⟩ := g.left_footer
  unfold HoleBefore
  rw [hheader, hhole]
  cases l.hole with
  | true => simp [hmagic]
  | false => simp

/-- Two tiles that begin or end at the same address are one. -/
theorem Whole.tile_unique (w : Whole h live ts) {t u : Tile} (ht : t ∈ ts) (hu : u ∈ ts)
    (heq : t.addr = u.addr ∨ t.addr + t.len = u.addr + u.len) : t = u := by
  have h1 := (w.tiles.mem ht).1.head.fit
  have h2 := (w.tiles.mem hu).1.head.fit
  rcases w.tiles.eq_or_apart ht hu with h | h
  · exact h
  · omega

/-- The tests of `free` on a block, in terms of its address and its length. -/
theorem Heap.merges_block (ht : Formed h.mem ⟨a,len,false⟩) (hlt : a + len < 2 ^ 32) (ha : 8 ≤ a) {m : Mem} {x : ℕ} {add : Bool}
    (hleft : Heap.unifyLeft (store8 h.mem (a + 4) 1) a (a + len - 8) = (m,x,add)) :
    (h.MergesLeft (a + 12) ↔ HoleBefore (store8 h.mem (a + 4) 1) a) ∧
      (h.MergesRight (a + 12) ↔ magicOf m (a + len) = heapMagic ∧ isHoleOf m (a + len) ≠ 0) := by
  have hfit : 20 ≤ len := ht.head.fit
  have hsz : sizeOf h.mem a = len := ht.head.size
  have hheader : sub32 (a + 12) headerSize = a :=
    (sub32_of_le (show 12 ≤ a + 12 by omega)).trans (Nat.add_sub_cancel a 12)
  have hsub : sub32 a footerSize = a - 8 := sub32_of_le ha
  have hfooter : sub32 (u32 (a + len)) footerSize = a + len - 8 := by
    rw [u32_of_lt hlt]
    exact sub32_of_le (show 8 ≤ _ by omega)
  have htest : u32 (a + len - 8 + footerSize) = a + len := by
    unfold footerSize
    rw [u32_of_lt (by omega)]
    omega
  constructor
  · unfold Heap.MergesLeft HoleBefore
    simp only [hheader, hsub]
  · unfold Heap.MergesRight
    simp only [hheader, hsz, hfooter, htest, hleft]

/-- Between two tiles `free` looks only inside the heap. -/
theorem Whole.looks_inside {l r : Tile} (w : Whole h live (pre ++ [l] ++ ⟨a,len,false⟩ :: r :: post))
    (ht : Formed h.mem ⟨a,len,false⟩) (g : Gap h live' [] (pre ++ [l]) a len (r :: post)) :
    LooksInside h (pre ++ [l] ++ ⟨a,len,false⟩ :: r :: post) (a + 12) := by
  have hs := g.start_le
  have hlt := g.geo.endLt
  have hst := g.geo.start
  have hfit : 20 ≤ len := ht.head.fit
  have hsz : sizeOf h.mem a = len := ht.head.size
  have he := g.le_end
  obtain ⟨hra,hr,hrest⟩ := g.after
  have hrfit := hr.head.fit
  have hrle := hrest.le
  have hch := store8_changedIn h.mem (a + 4) 1
  have g1 := g.frame (hch.mono (by omega) (by omega))
  obtain ⟨m,x,k,pre',add,heq,g2,hx,hxk,-,hch2⟩ := g1.unifyLeft (markHole ht)
  have hkfit : 20 ≤ k := hx.head.fit
  have hextra : ∀ y ∈ (if add then [] else [x]), y = x := by
    cases add <;> simp
  obtain ⟨g3,k3,hright,hk3,hle3,hsz3,hst3,hend3,e3⟩ := g2.unifyRight_stays hx hextra
  have hx1 : h.startAddress ≤ x := g2.start_le
  rw [hxk] at hright
  obtain ⟨hin4,e4⟩ := Heap.shrink_within g2.geo hst3 hend3 hk3 hx1 hle3 hsz3 e3 (a + len)
  obtain ⟨hml,hmr⟩ := Heap.merges_block ht (by omega) (by omega) heq
  have hlmem : l ∈ pre ++ [l] ++ ⟨a,len,false⟩ :: r :: post := by simp
  have hrmem : r ∈ pre ++ [l] ++ ⟨a,len,false⟩ :: r :: post := by simp
  have hla := g.left_footer.2.1
  refine ⟨?_,?_,?_⟩
  · rw [Heap.freeTouches_block ht (by omega) heq, hright]
    intro t ht
    simp only [List.append_assoc, List.mem_append, List.mem_pair, List.mem_singleton] at ht
    rcases ht with (rfl | rfl) | ht | rfl | ht | ht
    · exact ⟨hs,show a + 12 ≤ _ by omega⟩
    · exact ⟨show _ ≤ a + len - 8 by omega,show a + len - 8 + 8 ≤ _ by omega⟩
    · exact g1.leftTouches_within t ht
    · exact ⟨show _ ≤ a + len by omega,show a + len + 12 ≤ _ by omega⟩
    · exact hin4 t ht
    · split at ht
      · exact (List.not_mem_nil ht).elim
      · rename_i g4 hg4
        split at ht
        · exact (e4 g4 hg4).insertTouches hx1 (show x + 12 ≤ h.endAddress by omega) t ht
        · exact (List.not_mem_nil ht).elim
  · rw [hml, g1.holeBefore_iff]
    refine ⟨fun hl => ⟨l,hlmem,hl,show _ = a + 12 by unfold headerSize; omega⟩,?_⟩
    rintro ⟨l',hl',hhole,hend⟩
    unfold headerSize at hend
    rwa [w.tile_unique hlmem hl' (.inr (by omega))]
  · have hsame : ∀ k, SameOn m h.mem (a + len) k := fun k z hz _ =>
      (hch2 z (by omega)).trans (hch z (by omega))
    have hm : magicOf m (a + len) = heapMagic := by
      rw [← hr.head.magic, hra]
      exact load32_congr (hsame 4)
    have hi : isHoleOf m (a + len) = if r.hole then 1 else 0 := by
      rw [← hr.head.isHole, hra]
      exact load8_congr ((hsame 5).mono (by omega) (by omega))
    rw [hmr, hm, hi, show a + 12 - headerSize = a from Nat.add_sub_cancel a 12, hsz]
    constructor
    · rintro ⟨-,hne⟩
      refine ⟨r,hrmem,?_,hra⟩
      by_contra hno
      exact hne (if_neg hno)
    · rintro ⟨r',hr',hhole,haddr⟩
      obtain rfl := w.tile_unique hrmem hr' (.inl (by omega))
      rw [if_pos hhole]
      exact ⟨rfl,one_ne_zero⟩

/-- `free` looks eight bytes before its block and twelve bytes after it. -/
theorem Gap.not_at_ends (g : Gap h live' [] pre a len post) (ht : Formed h.mem ⟨a,len,false⟩)
    (hin : h.Within (h.freeTouches (a + 12))) : a ≠ h.startAddress ∧ a + len ≠ h.endAddress := by
  have hst := g.geo.start
  have hs := g.start_le
  obtain ⟨⟨m,x,add⟩,heq⟩ : ∃ l, Heap.unifyLeft (store8 h.mem (a + 4) 1) a (a + len - 8) = l := ⟨_,rfl⟩
  rw [Heap.freeTouches_block ht (g.le_end.trans_lt g.geo.endLt) heq] at hin
  refine ⟨fun hfirst => ?_,fun hlast => ?_⟩
  · have hmem : (sub32 a footerSize,footerSize) ∈ Heap.leftTouches (store8 h.mem (a + 4) 1) a := by
      unfold Heap.leftTouches
      dsimp only
      split
      · exact List.mem_cons_self
      · exact List.mem_cons_self
    have hlow := (hin _ (List.mem_append_left _ (List.mem_append_left _ (List.mem_append_right _ hmem)))).1
    rw [show sub32 a footerSize = a - 8 from sub32_of_le (show 8 ≤ a by omega)] at hlow
    dsimp only at hlow
    omega
  · have hhigh := (hin (a + len,12) (List.mem_append_left _ (List.mem_append_right _ List.mem_cons_self))).2
    dsimp only at hhigh
    omega

/-- `free` looks only inside the heap exactly when its block is neither the first nor the last tile. -/
theorem free_looks_inside (w : Whole h live ts) {p n : ℕ} (hp : (p,n) ∈ live) :
    LooksInside h ts p ↔ p - headerSize ≠ h.startAddress ∧
      p - headerSize + sizeOf h.mem (p - headerSize) ≠ h.endAddress := by
  obtain ⟨pre,t,post,rfl,hblock,haddr,-,ht,g⟩ := w.openBlock hp
  obtain ⟨a,len,hole⟩ := t
  obtain rfl : hole = false := hblock
  dsimp only at haddr g
  subst haddr
  rw [show a + 12 - headerSize = a from Nat.add_sub_cancel a 12, show sizeOf h.mem a = len from ht.head.size]
  constructor
  · intro hin
    exact g.not_at_ends ht hin.within
  · rintro ⟨hfirst,hlast⟩
    obtain ⟨pre,l,rfl⟩ : ∃ pre1 l, pre = pre1 ++ [l] := by
      rcases List.eq_nil_or_concat pre with rfl | ⟨pre,l,rfl⟩
      · exact absurd g.before.symm hfirst
      · exact ⟨pre,l,List.concat_eq_append⟩
    cases post with
    | nil => exact absurd g.after hlast
    | cons r post => exact w.looks_inside ht g

end Free

/-! ## Two blocks at the front of the heap -/

/-- A second block of a hundred bytes. -/
def pairAlloc : Heap × ℕ := (firstAlloc.1.alloc 2 100 false).get (by decide +kernel)

theorem pairAlloc_reached : Reachable (HeapRun.Created 0xCFFFF000) (Guarded HeapRun.Sound HeapRun.Step)
    ⟨pairAlloc.1,[(0xC0080084,100),(0xC0080000 + 12,100)],2⟩ := by
  have halloc : firstAlloc.1.alloc 2 100 false = some (pairAlloc.1,pairAlloc.2) := by simp [pairAlloc]
  have hstep : HeapRun.Step ⟨firstAlloc.1,[(0xC0080000 + 12,100)],1⟩ (.alloc 100)
      ⟨pairAlloc.1,[(pairAlloc.2,100),(0xC0080000 + 12,100)],2⟩ :=
    .alloc (by decide) (fun hf => absurd hf (by decide +kernel)) halloc
  have hsound : firstAlloc.1.AllocSound 100 := ⟨by decide +kernel,fun hf => absurd hf (by decide +kernel)⟩
  have hp : pairAlloc.2 = 0xC0080084 := by decide +kernel
  rw [← hp]
  exact .next (a := .alloc 100) firstAlloc_reached ⟨hsound,hstep⟩

theorem pairAlloc_looks_inside : ∃ ts, LooksInside pairAlloc.1 ts 0xC0080084 := by
  obtain ⟨ts,w⟩ := (HeapRun.Inv.of_reachable (by decide) pairAlloc_reached).whole List.mem_cons_self
  exact ⟨ts,(free_looks_inside w List.mem_cons_self).mpr (by decide +kernel)⟩

/-- For the first block of the heap `free` reads the end of the index as a footer. -/
theorem firstAlloc_looks_outside : ∃ ts, Whole firstAlloc.1 [(0xC0080000 + 12,100)] ts ∧
    ¬ LooksInside firstAlloc.1 ts (0xC0080000 + 12) := by
  obtain ⟨ts,w⟩ := (HeapRun.Inv.of_reachable (by decide) firstAlloc_reached).whole List.mem_cons_self
  refine ⟨ts,w,fun hin => ?_⟩
  obtain ⟨pre,⟨a,len,hole⟩,post,-,hblock,haddr,-,ht,g⟩ := w.openBlock List.mem_cons_self
  obtain rfl : hole = false := hblock
  obtain rfl : a = 0xC0080000 := Nat.add_right_cancel haddr
  have hfirst : 0xC0080000 = firstAlloc.1.startAddress := by decide +kernel
  exact (g.not_at_ends ht hin.within).1 hfirst

end X86OsDev.Tutorial
