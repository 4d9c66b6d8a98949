import X86OsDev.Tutorial.HeapAlloc

/-! # What `free` does to the tiling -/
namespace X86OsDev.Tutorial
open Memory Tiling

/-- The header that `free` works with once it has looked to the left. -/
def Heap.leftHeader (m : Mem) (header : ℕ) : ℕ :=
  if magicOf m (header - footerSize) = heapMagic ∧ isHoleOf m (headerOf m (header - footerSize)) = 1
  then headerOf m (header - footerSize) else header

/-- The index has room. A hole on the right of the block is the last tile of the
heap. When nothing but holes follows the block, the hole that `free` makes starts
well below the smallest size of the heap, and the memory after the heap does not
look like the header of a hole. -/
def Heap.FreeSound (h : Heap) (p : ℕ) : Prop :=
  let header := p - headerSize
  let right := header + sizeOf h.mem header
  h.index.size < heapIndexSize ∧
  (right ≠ h.endAddress → isHoleOf h.mem right ≠ 0 → right + sizeOf h.mem right = h.endAddress) ∧
  (right = h.endAddress → ¬ (magicOf h.mem right = heapMagic ∧ isHoleOf h.mem right ≠ 0)) ∧
  (right = h.endAddress ∨ isHoleOf h.mem right ≠ 0 →
    leftHeader h.mem header + headerSize + footerSize ≤ h.startAddress + heapMinSize)

section Mark
variable {m : Mem} {a n : ℕ}

theorem markHole (h : Formed m ⟨a,n,false⟩) : Formed (store8 m (a + 4) 1) ⟨a,n,true⟩ := by
  have hfit : 20 ≤ n := h.head.fit
  have hch := store8_changedIn m (a + 4) 1
  refine ⟨⟨hfit,?_,?_,?_⟩,⟨?_,?_⟩⟩
  · exact (load32_congr (hch.sameOn (by unfold Apart; dsimp only; omega))).trans h.head.magic
  · exact load8_store8 m 1 (a + 4)
  · exact (load32_congr (hch.sameOn (by unfold Apart; dsimp only; omega))).trans h.head.size
  · exact (load32_congr (hch.sameOn (by unfold Apart; dsimp only; omega))).trans h.foot.magic
  · exact (load32_congr (hch.sameOn (by unfold Apart; dsimp only; omega))).trans h.foot.header

end Mark

section Unify
variable {h : Heap} {live : List (ℕ × ℕ)} {extra : List ℕ} {pre post : List Tile} {a n : ℕ}

/-- What lies before the first tile is the index, and no slot of it is the magic number. -/
theorem Geometry.no_magic_before (g : Geometry h) :
    magicOf h.mem (h.startAddress - 8) ≠ heapMagic := by
  have harr := g.array
  have hst := g.start
  have hs := g.slots 0x1FFFE (by omega)
  unfold OrderedArray.slot at hs
  rw [harr, hst] at hs
  rw [hst]
  unfold magicOf heapMagic
  rw [show 0xC0080000 - 8 = 0xC0000000 + 4 * 0x1FFFE by omega]
  omega

/-- There is the footer of a hole before the header. -/
def HoleBefore (m : Mem) (header : ℕ) : Prop :=
  magicOf m (header - 8) = heapMagic ∧ isHoleOf m (headerOf m (header - 8)) = 1

theorem Heap.unifyLeft_of_not {m : Mem} (footer : ℕ) (ha : 8 ≤ a) (hno : ¬ HoleBefore m a) :
    Heap.unifyLeft m a footer = (m,a,true) ∧ Heap.leftHeader m a = a := by
  have hsub : sub32 a footerSize = a - 8 := sub32_of_le ha
  constructor
  · unfold Heap.unifyLeft
    dsimp only
    rw [if_neg (by rwa [hsub])]
  · exact if_neg hno

theorem Heap.unifyLeft_of_hole {m : Mem} (footer : ℕ) (ha : 8 ≤ a) (hhole : HoleBefore m a) {left : ℕ}
    (hleft : headerOf m (a - 8) = left) :
    Heap.unifyLeft m a footer = (setSize (store32 m (footer + 4) left) left
      (u32 (sizeOf (store32 m (footer + 4) left) left + sizeOf m a)),left,false) ∧
    Heap.leftHeader m a = left := by
  have hsub : sub32 a footerSize = a - 8 := sub32_of_le ha
  constructor
  · unfold Heap.unifyLeft
    dsimp only
    rw [if_pos (by rwa [hsub]), hsub, hleft]
  · exact (if_pos hhole).trans hleft

/-- The left header in terms of the tiles. -/
theorem Gap.leftHeader_eq (g : Gap h live extra pre a n post) :
    Heap.leftHeader h.mem a = match pre.getLast? with
      | some l => if l.hole then l.addr else a
      | none => a := by
  have hs := g.start_le
  have hst := g.geo.start
  rcases List.eq_nil_or_concat pre with rfl | ⟨pre,l,rfl⟩
  · have ha : h.startAddress = a := g.before
    have hno := g.geo.no_magic_before
    rw [ha] at hno
    exact if_neg fun hc => hno hc.1
  · rw [List.concat_eq_append] at g ⊢
    obtain ⟨-,hl,hla⟩ := tiles_snoc.mp g.before
    have hmag := hl.foot.magic
    have hhead := hl.foot.header
    rw [hla] at hmag hhead
    have his := hl.head.isHole
    rw [List.getLast?_concat]
    by_cases hhole : l.hole = true
    · rw [if_pos hhole] at his
      simp only [hhole, if_true]
      exact (Heap.unifyLeft_of_hole 0 (by omega) ⟨hmag,by rwa [hhead]⟩ hhead).2
    · rw [if_neg hhole] at his
      simp only [hhole]
      exact (Heap.unifyLeft_of_not (a := a) 0 (by omega)
        (fun hc => by rw [HoleBefore, hhead, his] at hc; omega)).2

/-- "Unify left": the gap grows over the hole on the left, if there is one, and stays a hole. -/
theorem Gap.unifyLeft (g : Gap h live [] pre a n post) (ht : Formed h.mem ⟨a,n,true⟩) :
    ∃ m x k pre' add, Heap.unifyLeft h.mem a (a + n - 8) = (m,x,add) ∧
      Gap { h with mem := m } live (if add then [] else [x]) pre' x k post ∧
      Formed m ⟨x,k,true⟩ ∧ x + k = a + n ∧ x = Heap.leftHeader h.mem a ∧
      ChangedIn h.mem m x k := by
  have hfit : 20 ≤ n := ht.head.fit
  have hs := g.start_le
  have he := g.le_end
  have hlt := g.geo.endLt
  have hst := g.geo.start
  rcases List.eq_nil_or_concat pre with rfl | ⟨pre,l,rfl⟩
  · have ha : h.startAddress = a := g.before
    have hno := g.geo.no_magic_before
    rw [ha] at hno
    obtain ⟨h1,h2⟩ := Heap.unifyLeft_of_not (a + n - 8) (by omega)
      (fun hc : HoleBefore h.mem a => hno hc.1)
    exact ⟨_,a,n,[],true,h1,g,ht,rfl,h2.symm,ChangedIn.refl _ _ _⟩
  · rw [List.concat_eq_append] at g
    obtain ⟨-,hl,hla⟩ := tiles_snoc.mp g.before
    have hmag := hl.foot.magic
    have hhead := hl.foot.header
    rw [hla] at hmag hhead
    have hlfit := hl.head.fit
    have his := hl.head.isHole
    by_cases hhole : l.hole = true
    · rw [if_pos hhole] at his
      obtain ⟨h1,h2⟩ := Heap.unifyLeft_of_hole (m := h.mem) (a + n - 8) (by omega)
        ⟨hmag,by rwa [hhead]⟩ hhead
      obtain ⟨g2,-,-⟩ := g.absorbLeft hhole
      have hsz : sizeOf h.mem a = n := ht.head.size
      have hch1 := store32_changedIn h.mem (a + n - 8 + 4) l.addr
      have hsz2 : sizeOf (store32 h.mem (a + n - 8 + 4) l.addr) l.addr = l.len :=
        (load32_congr (hch1.sameOn (by unfold Apart; omega))).trans hl.head.size
      have hu : u32 (l.len + n) = l.len + n := u32_of_lt (by omega)
      rw [hsz, hsz2, hu] at h1
      have hch : ChangedIn h.mem (setSize (store32 h.mem (a + n - 8 + 4) l.addr) l.addr (l.len + n))
          l.addr (l.len + n) :=
        (hch1.mono (by omega) (by omega)).trans ((setSize_changedIn _ _ _).mono le_rfl (by omega))
      refine ⟨_,l.addr,l.len + n,pre,false,h1,g2.frame hch,⟨?_,?_,?_⟩,by omega,h2.symm,hch⟩
      · have hh : HeaderAt h.mem ⟨l.addr,l.len,true⟩ := by
          rw [← hhole]
          exact hl.head
        exact setSize_headerAt (hh.congr (hch1.sameOn (by unfold Apart; dsimp only; omega)))
          (by omega) (by omega)
      · have hm : magicOf h.mem (a + n - 8) = heapMagic := ht.foot.magic
        dsimp only
        rw [show l.addr + (l.len + n) - 8 = a + n - 8 by omega, ← hm]
        refine load32_congr fun x hx1 hx2 => ?_
        exact ((setSize_changedIn _ l.addr (l.len + n)) x (by omega)).trans (hch1 x (by omega))
      · dsimp only
        rw [show l.addr + (l.len + n) - 8 = a + n - 8 by omega]
        unfold headerOf
        rw [load32_congr ((setSize_changedIn _ l.addr (l.len + n)).sameOn (by unfold Apart; omega)),
          load32_store32, Nat.mod_eq_of_lt (by omega)]
    · rw [if_neg hhole] at his
      obtain ⟨h1,h2⟩ := Heap.unifyLeft_of_not (a := a) (m := h.mem) (a + n - 8) (by omega)
        (fun hc => by rw [HoleBefore, hhead, his] at hc; omega)
      exact ⟨_,a,n,pre ++ [l],true,h1,g,ht,rfl,h2.symm,ChangedIn.refl _ _ _⟩

/-- "Unify right": the gap grows over the hole on the right, whose footer is then
not the footer of the new hole. -/
theorem Gap.unifyRight (g : Gap h live extra pre a n post) (ht : Formed h.mem ⟨a,n,true⟩)
    (hroom : h.index.size < 0x20000)
    (hright : a + n ≠ h.endAddress → isHoleOf h.mem (a + n) ≠ 0 →
      a + n + sizeOf h.mem (a + n) = h.endAddress)
    (hlast : a + n = h.endAddress →
      ¬ (magicOf h.mem (a + n) = heapMagic ∧ isHoleOf h.mem (a + n) ≠ 0)) :
    ∃ h' k post', h.unifyRight a (a + n - 8) = some (h',a + k - 8) ∧
      Gap h' live extra pre a k post' ∧ HeaderAt h'.mem ⟨a,k,true⟩ ∧
      (FooterAt h'.mem ⟨a,k,true⟩ ∨ a + k = h'.endAddress) ∧
      (a + k = h'.endAddress → a + n = h.endAddress ∨ isHoleOf h.mem (a + n) ≠ 0) ∧
      h'.startAddress = h.startAddress ∧ h'.index.size ≤ h.index.size := by
  have hfit : 20 ≤ n := ht.head.fit
  have he := g.le_end
  have hlt := g.geo.endLt
  have htest : u32 (a + n - 8 + footerSize) = a + n := by
    unfold footerSize
    rw [u32_of_lt (by omega)]
    omega
  unfold Heap.unifyRight
  simp only [htest]
  by_cases hc : magicOf h.mem (a + n) = heapMagic ∧ isHoleOf h.mem (a + n) ≠ 0
  · have hne : a + n ≠ h.endAddress := fun he => hlast he hc
    cases post with
    | nil => exact absurd g.after hne
    | cons r post =>
      obtain ⟨hra,hr,hrest⟩ := g.after
      have hhole : r.hole = true := by
        have h1 := hr.head.isHole
        rw [hra] at h1
        by_contra hno
        rw [if_neg hno] at h1
        exact hc.2 h1
      have hrsz : sizeOf h.mem (a + n) = r.len := by
        rw [← hra]
        exact hr.head.size
      have hend := hright hne hc.2
      rw [hrsz] at hend
      have hpost : post = [] := Tiles_end_nil (by simpa only [hend] using hrest)
      subst hpost
      obtain ⟨g2,-,-⟩ := g.absorbRight hhole
      have hsz : sizeOf h.mem a = n := ht.head.size
      have hrfit := hr.head.fit
      have hch := setSize_changedIn h.mem a (n + r.len)
      have hrsz2 : sizeOf (setSize h.mem a (n + r.len)) (a + n) = r.len :=
        (load32_congr (hch.sameOn (by unfold Apart; omega))).trans hrsz
      have g3 := g2.frame (hch.mono le_rfl (by omega))
      rw [hra] at g3
      have hmem : a + n ∈ h.index.entries (setSize h.mem a (n + r.len)) :=
        g3.index.mem_iff.mpr (by simp)
      have hfound : h.index.search (setSize h.mem a (n + r.len)) (fun x => x == a + n) < h.index.size := by
        have hle := h.index.search_le (setSize h.mem a (n + r.len)) (fun x => x == a + n)
        obtain ⟨i,hi,hslot⟩ := OrderedArray.mem_entries.mp hmem
        rcases Nat.lt_or_eq_of_le hle with hl | heq
        · exact hl
        · have := OrderedArray.search_eq_size _ _ _ heq i hi
          simp [hslot] at this
      have hslot := OrderedArray.search_spec _ _ _ hfound
      rw [beq_iff_eq] at hslot
      have hfoot : sub32 (u32 (a + n + r.len)) footerSize = a + (n + r.len) - 8 := by
        rw [u32_of_lt (by omega), ← Nat.add_assoc]
        exact sub32_of_le (show 8 ≤ _ by omega)
      have hu : u32 (n + r.len) = n + r.len := u32_of_lt (by omega)
      rw [if_pos hc, hsz, hrsz, hu, hrsz2, if_pos hfound, hfoot]
      refine ⟨_,n + r.len,[],rfl,g3.removeIndex hfound hroom hslot,?_,.inr ?_,fun _ => .inr hc.2,rfl,?_⟩
      · exact (setSize_headerAt ht.head (k := n + r.len) (by omega) (by omega)).congr
          (g3.geo.removeIndex_sameOn hfound g.start_le)
      · exact (Nat.add_assoc a n r.len).symm.trans hend
      · exact (Heap.removeIndex_size_lt hfound).le
  · rw [if_neg hc]
    exact ⟨h,n,post,rfl,g,ht.head,.inl ht.foot,fun he => .inl he,rfl,le_rfl⟩

end Unify

section Shrink
variable {h : Heap} {live : List (ℕ × ℕ)} {extra : List ℕ} {pre post : List Tile} {a n : ℕ}

/-- `contract` goes back to the smallest size when the hole starts below it. -/
theorem Heap.contractSize_of_lt {k : ℕ} (hk : k < heapMinSize) :
    Heap.contractSize k = heapMinSize := by
  unfold Heap.contractSize
  dsimp only
  rw [if_pos]
  split
  · decide
  · exact hk

/-- Giving space back leaves a hole in the gap. -/
theorem Gap.shrink (g : Gap h live extra pre a n post) (hh : HeaderAt h.mem ⟨a,n,true⟩)
    (hf : FooterAt h.mem ⟨a,n,true⟩ ∨ a + n = h.endAddress)
    (hlow : a + n = h.endAddress → a + 20 ≤ h.startAddress + 0x70000) (testHeader : ℕ) :
    ∃ h' k, h.shrink a (a + n - 8) testHeader = some h' ∧ Gap h' live extra pre a k post ∧
      Formed h'.mem ⟨a,k,true⟩ ∧ h'.index.size = h.index.size := by
  have hfit : 20 ≤ n := hh.fit
  have hs := g.start_le
  have he := g.le_end
  have hlt := g.geo.endLt
  have hlong := g.geo.long
  have hend : u32 (a + n - 8 + footerSize) = a + n := by
    unfold footerSize
    rw [u32_of_lt (by omega)]
    omega
  unfold Heap.shrink
  rw [hend]
  by_cases hlast : a + n = h.endAddress
  · rw [if_pos hlast]
    have hpost : post = [] := Tiles_end_nil (by simpa only [hlast] using g.after)
    subst hpost
    have hlow := hlow hlast
    obtain ⟨k,hk⟩ : ∃ k, h.startAddress + 0x70000 = a + k := ⟨_,(Nat.add_sub_of_le (by omega)).symm⟩
    have hlen : h.length = h.endAddress - h.startAddress := sub32_of_le (by omega)
    have harg : sub32 a h.startAddress = a - h.startAddress := sub32_of_le hs
    have hcon : h.contract (a - h.startAddress) = some ({ h with endAddress := a + k },0x70000) := by
      have hc := Heap.contractSize_of_lt (k := a - h.startAddress) (by unfold heapMinSize; omega)
      unfold Heap.contract
      rw [if_neg (by omega), hc]
      unfold heapMinSize
      rw [hk, u32_of_lt (by omega)]
    have hgone : sub32 h.length 0x70000 = n - k := by
      rw [hlen, sub32_of_le (by omega)]
      omega
    have hsz : sizeOf h.mem a = n := hh.size
    have hleft : sub32 n (n - k) = k := by
      rw [sub32_of_le (by omega)]
      omega
    have hsz2 := sizeOf_setSize h.mem a (show k < 2 ^ 32 by omega)
    have hfoot : sub32 (u32 (a + k)) footerSize = a + k - 8 := by
      rw [u32_of_lt (by omega)]
      exact sub32_of_le (show 8 ≤ _ by omega)
    simp only [harg, hcon, Option.bind_eq_bind, Option.bind_some, hgone, hsz, hleft, hsz2, hfoot]
    rw [if_pos (by omega)]
    have hch : ChangedIn h.mem (writeFooter (setSize h.mem a k) (a + k - 8) a) a k :=
      ((setSize_changedIn h.mem a k).mono le_rfl (by omega)).trans
        ((writeFooter_changedIn _ _ _).mono (by omega) (by omega))
    refine ⟨_,k,rfl,(g.resize (by omega) (by omega)).frame hch,⟨?_,?_⟩,rfl⟩
    · exact (setSize_headerAt hh (k := k) (by omega) (by omega)).congr
        ((writeFooter_changedIn _ _ _).sameOn (by unfold Apart; dsimp only; omega))
    · exact writeFooter_footerAt _ ⟨a,k,true⟩ (by dsimp only; omega)
  · rw [if_neg hlast]
    exact ⟨h,n,rfl,g,⟨hh,hf.resolve_right hlast⟩,rfl⟩

end Shrink

/-- From "unify right" on: the hole that `free` leaves is a tile, and it is the last one when the
footer was at the end. -/
theorem Gap.finishFree {h : Heap} {live : List (ℕ × ℕ)} {pre post : List Tile} {x k : ℕ} {add : Bool}
    (g : Gap h live (if add then [] else [x]) pre x k post) (hx : Formed h.mem ⟨x,k,true⟩)
    (hroom : h.index.size < 0x20000)
    (hright : x + k ≠ h.endAddress → isHoleOf h.mem (x + k) ≠ 0 →
      x + k + sizeOf h.mem (x + k) = h.endAddress)
    (hlast : x + k = h.endAddress →
      ¬ (magicOf h.mem (x + k) = heapMagic ∧ isHoleOf h.mem (x + k) ≠ 0))
    (hlow : x + k = h.endAddress ∨ isHoleOf h.mem (x + k) ≠ 0 → x + 20 ≤ h.startAddress + 0x70000)
    (testHeader : ℕ) :
    ∃ h3 k3 h4 k4 post', h.unifyRight x (x + k - 8) = some (h3,x + k3 - 8) ∧
      x + k3 ≤ h3.endAddress ∧ (x + k3 = h3.endAddress → post' = []) ∧ h3.shrink x (x + k3 - 8) testHeader = some h4 ∧
      Whole (if add then h4.insertIndex x else h4) live (pre ++ ⟨x,k4,true⟩ :: post') := by
  obtain ⟨h3,k3,post3,heq3,g3,hh3,hf3,hend3,hst3,hsize3⟩ := g.unifyRight hx hroom hright hlast
  obtain ⟨h4,k4,heq4,g4,hx4,hsize4⟩ := g3.shrink hh3 hf3 (fun he => by
    rw [hst3]
    exact hlow (hend3 he)) testHeader
  refine ⟨h3,k3,h4,k4,post3,heq3,g3.le_end,fun he => Tiles_end_nil (he ▸ g3.after),heq4,?_⟩
  cases add with
  | true =>
    have hroom4 : h4.index.size < 0x20000 := by omega
    have hx1 := g4.start_le
    have hx2 := g4.le_end
    have hx3 := g4.geo.endLt
    exact (g4.insertIndex hroom4 hx1 (by omega)).closeHole
      (hx4.congr (g4.geo.insertIndex_sameOn hroom4 x hx1))
  | false => exact g4.closeHole hx4

/-- `free` up to the test of the footer against the end of the heap: the heap, the header, the footer,
the header after the block and `do_add`. -/
def Heap.merged (h : Heap) (p : ℕ) : Option (Heap × ℕ × ℕ × ℕ × Bool) :=
  let header := sub32 p headerSize
  let footer := sub32 (u32 (header + sizeOf h.mem header)) footerSize
  if magicOf h.mem header = heapMagic ∧ magicOf h.mem footer = heapMagic then do
    let (m, header, doAdd) := unifyLeft (store8 h.mem (header + 4) 1) header footer
    let testHeader := u32 (footer + footerSize)
    let (h, footer) ← { h with mem := m }.unifyRight header footer
    some (h,header,footer,testHeader,doAdd)
  else none

theorem Heap.free_of_merged {h h1 : Heap} {p header footer testHeader : ℕ} {doAdd : Bool} (hp : p ≠ 0)
    (hm : h.merged p = some (h1,header,footer,testHeader,doAdd)) :
    h.free p = (h1.shrink header footer testHeader).map fun g => if doAdd then g.insertIndex header else g := by
  unfold Heap.merged at hm
  unfold Heap.free
  rw [if_neg hp]
  dsimp only at hm ⊢
  split at hm
  · rename_i hmagic
    rw [if_pos hmagic]
    obtain ⟨⟨g,f⟩,hr,hres⟩ := Option.bind_eq_some_iff.mp hm
    simp only [Option.some.injEq, Prod.mk.injEq] at hres
    obtain ⟨rfl,rfl,rfl,rfl,rfl⟩ := hres
    simp only [hr, Option.bind_eq_bind, Option.bind_some, Option.map_eq_bind]
    rfl
  · cases hm

/-- `free` on a block of `len` bytes at `a`. -/
theorem Heap.merged_block {h : Heap} {a len : ℕ} (ht : Formed h.mem ⟨a,len,false⟩) (hlt : a + len < 2 ^ 32)
    {m : Mem} {x : ℕ} {add : Bool} (hleft : Heap.unifyLeft (store8 h.mem (a + 4) 1) a (a + len - 8) = (m,x,add)) :
    h.merged (a + 12) = (({ h with mem := m } : Heap).unifyRight x (a + len - 8)).map
      fun r => (r.1,x,r.2,a + len,add) := by
  have hfit : 20 ≤ len := ht.head.fit
  have hsz : sizeOf h.mem a = len := ht.head.size
  have hheader : sub32 (a + 12) headerSize = a :=
    (sub32_of_le (show 12 ≤ a + 12 by omega)).trans (Nat.add_sub_cancel a 12)
  have hfooter : sub32 (u32 (a + len)) footerSize = a + len - 8 := by
    rw [u32_of_lt hlt]
    exact sub32_of_le (show 8 ≤ _ by omega)
  have htest : u32 (a + len - 8 + footerSize) = a + len := by
    unfold footerSize
    rw [u32_of_lt (by omega)]
    omega
  unfold Heap.merged
  simp only [hheader, hsz, hfooter, htest]
  rw [if_pos ⟨ht.head.magic,ht.foot.magic⟩, hleft, Option.map_eq_bind]
  rfl

/-- What `free` does when it meets its condition: it returns, and the heap is whole. -/
theorem Whole.free {h : Heap} {live : List (ℕ × ℕ)} {ts : List Tile} (w : Whole h live ts) {p n : ℕ}
    (hp : (p,n) ∈ live) (hsound : h.FreeSound p) :
    ∃ h' ts', h.free p = some h' ∧ Whole h' (live.erase (p,n)) ts' := by
  obtain ⟨pre,t,post,rfl,hblock,haddr,hsize,ht,g⟩ := w.openBlock hp
  obtain ⟨a,len,hole⟩ := t
  obtain rfl : hole = false := hblock
  dsimp only at haddr hsize g
  subst haddr
  have he := g.le_end
  have hlt := g.geo.endLt
  have hsz : sizeOf h.mem a = len := ht.head.size
  obtain ⟨hroom,hright,hlast,hlow⟩ := hsound
  rw [show a + 12 - headerSize = a from Nat.add_sub_cancel a 12, hsz] at hright hlast hlow
  -- the block becomes a hole
  have hch := (store8_changedIn h.mem (a + 4) 1)
  have g1 := g.frame (hch.mono (by omega) (by omega))
  have hleft : Heap.leftHeader (store8 h.mem (a + 4) 1) a = Heap.leftHeader h.mem a :=
    g1.leftHeader_eq.trans g.leftHeader_eq.symm
  obtain ⟨m,x,k,pre',add,heq,g2,hx,hxk,hxl,hch2⟩ := g1.unifyLeft (markHole ht)
  have hsame : ∀ y k, a + len ≤ y → SameOn m h.mem y k := fun y k hy z hz _ =>
    (hch2 z (by omega)).trans (hch z (by omega))
  have hm : magicOf m (a + len) = magicOf h.mem (a + len) := load32_congr (hsame _ _ le_rfl)
  have hi : isHoleOf m (a + len) = isHoleOf h.mem (a + len) := load8_congr (hsame _ _ (by omega))
  have hz : sizeOf m (a + len) = sizeOf h.mem (a + len) := load32_congr (hsame _ _ (by omega))
  have hmerged := Heap.merged_block ht (by omega) heq
  rw [← hxk] at hm hi hz hright hlast hlow hmerged
  obtain ⟨h3,k3,h4,k4,post',heq3,-,-,heq4,hw⟩ := g2.finishFree hx hroom (by rw [hi, hz]; exact hright)
    (by rw [hm, hi]; exact hlast) (fun he => by
      rw [hi] at he
      have := hlow he
      rw [← hleft, ← hxl] at this
      exact this) (x + k)
  rw [heq3] at hmerged
  refine ⟨_,_,?_,hw⟩
  rw [Heap.free_of_merged (by omega) hmerged, heq4]
  rfl

end X86OsDev.Tutorial
