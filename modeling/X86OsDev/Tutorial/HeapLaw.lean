import X86OsDev.Tutorial.HeapFree

/-! # The tiling law of the heap

The law holds after every call of a run whose calls meet `AllocSound` and
`FreeSound`. Without these it fails: a heap that grows adds the new space to the
endmost hole even when blocks lie behind that hole.
-/
namespace X86OsDev.Tutorial
open Memory Tiling Transition

namespace HeapRun

/-- The tiling law: consecutive tiles with their headers and footers, an index of
exactly the holes, and live allocations apart from each other, from the holes
and from the headers and footers. -/
def Law (s : HeapRun) : Prop :=
  ∃ ts, Tiles (Formed s.heap.mem) s.heap.startAddress s.heap.endAddress ts ∧
    (s.heap.index.entries s.heap.mem).Perm (holes ts) ∧
    (s.heap.index.entries s.heap.mem).Nodup ∧
    s.live.Pairwise (fun b c => Apart b.1 b.2 c.1 c.2) ∧
    ∀ b ∈ s.live, ∀ t ∈ ts, (t.hole = true → Apart b.1 b.2 t.addr t.len) ∧
      Apart b.1 b.2 t.addr headerSize ∧ Apart b.1 b.2 (t.addr + t.len - footerSize) footerSize

/-- What the calls must meet. -/
def Sound (s : HeapRun) : HeapAction → Prop
  | .alloc size => s.heap.AllocSound size
  | .free p => s.heap.FreeSound p
  | .write _ _ => True
  | .outside _ _ => True

end HeapRun

section Creation

/-- The heap that `create_heap` leaves: one hole, which has no footer yet. -/
theorem create_findable {m : Mem} {tables : ℕ → Bool} {max : ℕ} {h : Heap} (hmax : max < 2 ^ 32)
    (hc : Heap.create m tables kheapStart (kheapStart + kheapInitialSize) max = some h) :
    Findable h [] ∧ h.index.size = 1 := by
  have hstart : roundUp (u32 (kheapStart + 4 * heapIndexSize)) = 0xC0080000 := by decide
  have hlen : sub32 (kheapStart + kheapInitialSize) 0xC0080000 = 0x80000 := by decide
  unfold Heap.create at hc
  rw [if_pos (by decide)] at hc
  simp only [hstart, hlen] at hc
  have hh := Option.some.inj hc
  set placed := (OrderedArray.place m kheapStart heapIndexSize).1 with hplaced
  have hch := writeHeader_changedIn placed 0xC0080000 0x80000 1
  have hslot : ∀ i < 0x20000, load32 (writeHeader placed 0xC0080000 0x80000 1) (0xC0000000 + 4 * i) = 0 := by
    intro i hi
    rw [load32_congr (hch.sameOn (by unfold Apart; omega)), hplaced]
    exact load32_fill_zero m (show 0xC0000000 ≤ _ by omega)
      (show _ ≤ 0xC0000000 + 0x20000 * 4 by omega)
  have g : Gap ⟨writeHeader placed 0xC0080000 0x80000 1,
      (OrderedArray.place m kheapStart heapIndexSize).2,0xC0080000,kheapStart + kheapInitialSize,max,tables⟩
      [] [] [] 0xC0080000 0x80000 [] := by
    refine ⟨⟨rfl,rfl,rfl,show kheapStart + kheapInitialSize < 2 ^ 32 by decide,hmax,
      show 0xC0080000 + 0x70000 ≤ kheapStart + kheapInitialSize by decide,Nat.zero_le _,
      fun i hi => .inl (hslot i hi)⟩,rfl,rfl,?_,?_⟩
    · exact List.Perm.refl _
    · exact ⟨List.Perm.refl _,by simp⟩
  have g2 := g.insertIndex (a := 0xC0080000) (show (0 : ℕ) < 0x20000 by omega) le_rfl (by omega)
  rw [hh] at g2
  have hsize : h.index.size = 1 := by
    rw [← hh]
    exact OrderedArray.insert_size _ _ (show (0 : ℕ) + 1 < 2 ^ 32 by omega)
  refine ⟨⟨g2.geo,fun i hi => ?_⟩,hsize⟩
  have hmem : h.index.slot h.mem i ∈ [0xC0080000] := by
    have := g2.index.mem_iff.mp (OrderedArray.mem_entries.mpr ⟨i,hi,rfl⟩)
    simpa using this
  rw [List.mem_singleton.mp hmem]
  refine ⟨[],0x80000,[],?_,g2⟩
  rw [← hh]
  exact (writeHeader_headerAt placed true (by omega) (by omega)).congr
    (g.geo.insertIndex_sameOn (show (0 : ℕ) < 0x20000 by omega) _ le_rfl)

end Creation

section Clients
variable {h : Heap} {live live' : List (ℕ × ℕ)} {ts : List Tile}

theorem Whole.perm (w : Whole h live ts) (hp : live.Perm live') : Whole h live' ts where
  geo := w.geo
  tiles := w.tiles
  index := w.index
  lives := ⟨(hp.map _).symm.trans w.lives.1,fun b hb => w.lives.2 b (hp.mem_iff.mpr hb)⟩

/-- A client that writes into its bytes changes no tile. -/
theorem Whole.write (w : Whole h live ts) {p n a : ℕ} {v : UInt8} (hp : (p,n) ∈ live)
    (ha : p ≤ a ∧ a < p + n) :
    ∃ ts', Whole { h with mem := fun x => if x = a then v else h.mem x } live ts' := by
  obtain ⟨pre,t,post,rfl,hb,haddr,hlen,ht,g⟩ := w.openBlock hp
  obtain ⟨b,len,hole⟩ := t
  obtain rfl : hole = false := hb
  dsimp only at haddr hlen g
  have hch : ChangedIn h.mem (fun x => if x = a then v else h.mem x) a 1 :=
    fun x hx => if_neg (by omega)
  have g2 := (g.frame (hch.mono (by omega) (by omega))).push le_rfl hlen
    ⟨ht.head.congr (hch.sameOn (by unfold Apart; dsimp only; omega)),
      ht.foot.congr (hch.sameOn (by unfold Apart; dsimp only; omega))⟩
  rw [Nat.sub_self, haddr] at g2
  exact ⟨_,g2.close.perm (List.perm_cons_erase hp).symm⟩

/-- What happens outside the heap changes nothing in it. -/
theorem Gap.outside {extra : List ℕ} {pre post : List Tile} {a n : ℕ} (g : Gap h live extra pre a n post)
    {m : Mem} (tables : ℕ → Bool) (hm : SameOn m h.mem h.index.array (h.endAddress - h.index.array)) :
    Gap { h with mem := m, tables := tables } live extra pre a n post := by
  have hs := g.start_le
  have he := g.le_end
  have harr := g.geo.array
  have hst := g.geo.start
  have hsz := g.geo.size
  have hslot : ∀ i < 0x20000, h.index.slot m i = h.index.slot h.mem i := fun i hi =>
    load32_congr (hm.mono (by omega) (by omega))
  refine ⟨⟨harr,g.geo.maxSize,hst,g.geo.endLt,g.geo.maxLt,g.geo.long,hsz,fun i hi => ?_⟩,?_,?_,?_,g.lives⟩
  · simpa only [hslot i hi] using g.geo.slots i hi
  · exact g.before.imp fun t ht h1 h2 => ht.congr (hm.mono (by omega) (by omega))
  · exact g.after.imp fun t ht h1 h2 => ht.congr (hm.mono (by omega) (by omega))
  · have : h.index.entries m = h.index.entries h.mem :=
      OrderedArray.entries_congr (hm.mono le_rfl (by omega))
    simpa only [this] using g.index

theorem Whole.outside (w : Whole h live ts) {m : Mem} (tables : ℕ → Bool)
    (hm : SameOn m h.mem h.index.array (h.endAddress - h.index.array)) :
    Whole { h with mem := m, tables := tables } live (ts ++ []) :=
  (w.openEnd.outside tables hm).close

theorem Findable.outside (f : Findable h live) {m : Mem} (tables : ℕ → Bool)
    (hm : SameOn m h.mem h.index.array (h.endAddress - h.index.array)) :
    Findable { h with mem := m, tables := tables } live := by
  have harr := f.geo.array
  have hst := f.geo.start
  have hsz := f.geo.size
  have hlong := f.geo.long
  have hslot : ∀ i < 0x20000, h.index.slot m i = h.index.slot h.mem i := fun i hi =>
    load32_congr (hm.mono (by omega) (by omega))
  refine ⟨⟨harr,f.geo.maxSize,hst,f.geo.endLt,f.geo.maxLt,hlong,hsz,fun i hi => ?_⟩,fun i hi => ?_⟩
  · simpa only [hslot i hi] using f.geo.slots i hi
  · obtain ⟨pre,n,post,hh,g⟩ := f.hole i hi
    have hs := g.start_le
    have he := g.le_end
    have hfit : 20 ≤ n := hh.fit
    change i < h.index.size at hi
    dsimp only
    rw [hslot i (by omega)]
    exact ⟨pre,n,post,hh.congr (hm.mono (by dsimp only; omega) (by dsimp only; omega)),
      g.outside tables hm⟩

end Clients

namespace HeapRun

/-- The invariant of a run: no call yet, or a whole heap. -/
def Inv (s : HeapRun) : Prop :=
  (s.calls = 0 ∧ s.live = [] ∧ s.heap.index.size = 1 ∧ Findable s.heap s.live) ∨
  ∃ ts, Whole s.heap s.live ts

theorem Inv.ready {s : HeapRun} (h : Inv s) : Ready s.heap s.live := by
  rcases h with ⟨-,-,hsize,f⟩ | ⟨ts,w⟩
  · exact ⟨f,fun h0 => by omega⟩
  · exact w.ready

theorem Inv.whole {s : HeapRun} (h : Inv s) {b : ℕ × ℕ} (hb : b ∈ s.live) :
    ∃ ts, Whole s.heap s.live ts := by
  rcases h with ⟨-,hlive,-⟩ | h
  · rw [hlive] at hb
    simp at hb
  · exact h

theorem Inv.step {s t : HeapRun} {a : HeapAction} (h : Inv s) (hs : Guarded Sound Step s a t) :
    Inv t := by
  obtain ⟨hsound,hstep⟩ := hs
  cases hstep with
  | alloc hsize hmax hcall =>
    obtain ⟨h',p,ts,w,-,huniq⟩ := h.ready.alloc hsize hmax hsound
    obtain ⟨rfl,rfl⟩ := Prod.mk.inj (huniq _ _ hcall)
    exact .inr ⟨ts,w⟩
  | free hlive hcall =>
    obtain ⟨ts,w⟩ := h.whole hlive
    obtain ⟨h',ts',hfree,w'⟩ := w.free hlive hsound
    rw [hcall] at hfree
    obtain rfl := Option.some.inj hfree
    exact .inr ⟨ts',w'⟩
  | write hlive ha =>
    obtain ⟨ts,w⟩ := h.whole hlive
    exact .inr (w.write hlive ha)
  | outside hm =>
    rcases h with ⟨h1,h2,h3,f⟩ | ⟨ts,w⟩
    · exact .inl ⟨h1,h2,h3,f.outside _ hm⟩
    · exact .inr ⟨_,w.outside _ hm⟩

theorem Inv.of_reachable {max : ℕ} (hmax : max < 2 ^ 32) {s : HeapRun}
    (h : Reachable (Created max) (Guarded Sound Step) s) : Inv s := by
  refine h.invariant ?_ fun s a t hs ht => hs.step ht
  rintro s ⟨m,tables,heap,hc,rfl⟩
  obtain ⟨f,hsize⟩ := create_findable hmax hc
  exact .inl ⟨rfl,rfl,hsize,f⟩

end HeapRun

/-- A whole heap keeps the law. -/
theorem Whole.law {s : HeapRun} {ts : List Tile} (w : Whole s.heap s.live ts) : s.Law := by
  have hpos : ∀ t, Formed s.heap.mem t → 0 < t.len := fun t ht => by
    have := ht.head.fit
    omega
  refine ⟨ts,w.tiles,w.index,w.index.nodup_iff.mpr (w.tiles.nodup_holes hpos),?_,?_⟩
  · have hne : s.live.Pairwise (fun b c => b.1 ≠ c.1) := List.pairwise_map.mp w.nodup_live
    refine hne.imp_of_mem fun {b c} hb hc hbc => ?_
    obtain ⟨t,ht,-,h1,h2⟩ := w.lives.2 b hb
    obtain ⟨u,hu,-,h3,h4⟩ := w.lives.2 c hc
    unfold Apart
    rcases w.tiles.eq_or_apart ht hu with rfl | hap
    · omega
    · omega
  · intro b hb t ht
    obtain ⟨u,hu,hblock,h1,h2⟩ := w.lives.2 b hb
    have hfit := (w.tiles.mem ht).1.head.fit
    unfold Apart headerSize footerSize
    rcases w.tiles.eq_or_apart ht hu with rfl | hap
    · refine ⟨fun hhole => ?_,by omega,by omega⟩
      rw [hblock] at hhole
      cases hhole
    · exact ⟨fun _ => by omega,by omega,by omega⟩

/-- In every run whose calls are sound, the law holds after each call, and each
further sound call returns. -/
theorem heap_tiled {max : ℕ} (hmax : max < 2 ^ 32) {s : HeapRun}
    (h : Reachable (HeapRun.Created max) (Guarded HeapRun.Sound HeapRun.Step) s) :
    (0 < s.calls → s.Law) ∧
    (∀ size, size + headerSize + footerSize < 2 ^ 32 →
      (s.heap.findSmallestHole (size + headerSize + footerSize) false = none →
        HeapRun.BelowMax s.heap size) →
      s.heap.AllocSound size → ∃ g p, s.heap.alloc 2 size false = some (g,p)) ∧
    (∀ p n, (p,n) ∈ s.live → s.heap.FreeSound p → ∃ g, s.heap.free p = some g) := by
  have hinv := HeapRun.Inv.of_reachable hmax h
  refine ⟨fun hcalls => ?_,fun size hsize hbelow hsound => ?_,fun p n hp hsound => ?_⟩
  · rcases hinv with ⟨h0,-⟩ | ⟨ts,w⟩
    · omega
    · exact w.law
  · obtain ⟨g,p,ts,-,hcall,-⟩ := hinv.ready.alloc hsize hbelow hsound
    exact ⟨g,p,hcall⟩
  · obtain ⟨ts,w⟩ := hinv.whole hp
    obtain ⟨g,ts',hcall,-⟩ := w.free hp hsound
    exact ⟨g,hcall⟩

/-! ## A run -/

/-- The heap that the kernel boots with, over memory that is all zero. -/
def bootHeap : Heap :=
  (Heap.create (fun _ => 0) (fun _ => true) kheapStart (kheapStart + kheapInitialSize) 0xCFFFF000).get
    (by decide +kernel)

theorem bootHeap_created : HeapRun.Created 0xCFFFF000 ⟨bootHeap,[],0⟩ :=
  ⟨_,_,_,(Option.some_get _).symm,rfl⟩

/-- A hundred bytes from the front of the heap. -/
def firstAlloc : Heap × ℕ := (bootHeap.alloc 2 100 false).get (by decide +kernel)

theorem alloc_firstAlloc : bootHeap.alloc 2 100 false = some (firstAlloc.1,firstAlloc.2) := by
  simp [firstAlloc]

theorem firstAlloc_step : HeapRun.Step ⟨bootHeap,[],0⟩ (.alloc 100) ⟨firstAlloc.1,[(firstAlloc.2,100)],1⟩ :=
  .alloc (by decide) (fun hf => absurd hf (by decide +kernel)) alloc_firstAlloc

theorem firstAlloc_sound : bootHeap.AllocSound 100 :=
  ⟨by decide +kernel,fun hf => absurd hf (by decide +kernel)⟩

theorem firstAlloc_tiled : HeapRun.Law ⟨firstAlloc.1,[(firstAlloc.2,100)],1⟩ :=
  (heap_tiled (by decide)
    (.next (a := .alloc 100) (.base bootHeap_created) ⟨firstAlloc_sound,firstAlloc_step⟩)).1 Nat.one_pos

/-- The rest of the heap as one block. -/
def restAlloc : Heap × ℕ := (firstAlloc.1.alloc 2 0x7FF74 false).get (by decide +kernel)

/-- The first block is a hole again, with the rest of the heap behind it. -/
def firstFree : Heap := (restAlloc.1.free firstAlloc.2).get (by decide +kernel)

/-- The heap grows for these two hundred bytes. -/
def overlapAlloc : Heap × ℕ := (firstFree.alloc 2 200 false).get (by decide +kernel)

/-- Four calls after which two live allocations overlap. -/
theorem heap_tiling_broken : ∃ s, Reachable (HeapRun.Created 0xCFFFF000) HeapRun.Step s ∧
    0 < s.calls ∧ ¬ s.Law := by
  refine ⟨⟨overlapAlloc.1,[(overlapAlloc.2,200),(restAlloc.2,0x7FF74)],4⟩,?_,by decide,?_⟩
  · have hrest : firstAlloc.1.alloc 2 0x7FF74 false = some (restAlloc.1,restAlloc.2) := by
      simp [restAlloc]
    have hfree : restAlloc.1.free firstAlloc.2 = some firstFree := by simp [firstFree]
    have hover : firstFree.alloc 2 200 false = some (overlapAlloc.1,overlapAlloc.2) := by
      simp [overlapAlloc]
    have h2 : HeapRun.Step ⟨firstAlloc.1,[(firstAlloc.2,100)],1⟩ (.alloc 0x7FF74)
        ⟨restAlloc.1,[(restAlloc.2,0x7FF74),(firstAlloc.2,100)],2⟩ :=
      .alloc (by decide) (fun hf => absurd hf (by decide +kernel)) hrest
    have h3 : HeapRun.Step ⟨restAlloc.1,[(restAlloc.2,0x7FF74),(firstAlloc.2,100)],2⟩
        (.free firstAlloc.2) ⟨firstFree,[(restAlloc.2,0x7FF74)],3⟩ := by
      have herase : [(restAlloc.2,0x7FF74),(firstAlloc.2,100)].erase (firstAlloc.2,100) =
          [(restAlloc.2,0x7FF74)] := by decide +kernel
      rw [← herase]
      exact .free (by simp) hfree
    have h4 : HeapRun.Step ⟨firstFree,[(restAlloc.2,0x7FF74)],3⟩ (.alloc 200)
        ⟨overlapAlloc.1,[(overlapAlloc.2,200),(restAlloc.2,0x7FF74)],4⟩ :=
      .alloc (by decide) (fun _ => show _ ≤ _ by decide +kernel) hover
    exact .next (.next (.next (.next (.base bootHeap_created) firstAlloc_step) h2) h3) h4
  · rintro ⟨ts,-,-,-,hp,-⟩
    have h1 : overlapAlloc.2 = 0xC008000C := by decide +kernel
    have h2 : restAlloc.2 = 0xC0080084 := by decide +kernel
    simp [Apart, h1, h2] at hp

end X86OsDev.Tutorial
