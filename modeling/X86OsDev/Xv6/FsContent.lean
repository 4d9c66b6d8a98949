import X86OsDev.Xv6.FsMap
import Mathlib.Data.List.Basic

/-! # Reading and writing the content of inodes (`readi`, `writei`)

The loops go block by block. `readLoop` leaves the state as it is, because every
block below the size is mapped. `Written` says what holds after the loop of
`writei` has stored its first bytes.
-/
namespace X86OsDev.Xv6.Fs
open Fault Memory Ownership
variable {sb : Superblock} {ino : ℕ → Dinode} {ip : Fin ninode} {s t u : Sys}

theorem byteAt_add {d : ℕ → Block} {n : Dinode} {off i : ℕ} (h : off % bsize + i < bsize) :
    byteAt d n (off + i) = (d (blockOf d n (off / bsize))).mem (off % bsize + i) := by
  have h1 : (off + i) / bsize = off / bsize := by
    simp only [bsize] at *
    omega
  have h2 : (off + i) % bsize = off % bsize + i := by
    simp only [bsize] at *
    omega
  unfold byteAt
  rw [h1, h2]

/-- The bytes of a block in one piece of the content. -/
theorem range_split {f : ℕ → UInt8} {n m : ℕ} (h : m ≤ n) :
    (List.range n).map f = (List.range m).map f ++ (List.range (n - m)).map fun i => f (m + i) := by
  conv_lhs => rw [show n = m + (n - m) by omega, List.range_add]
  rw [List.map_append, List.map_map]
  rfl

theorem Open.mapped (h : Open sb ino ip s) {o : ℕ} (ho : o < (s.icache ip).node.size) :
    blockOf s.disk (s.icache ip).node (o / bsize) ≠ 0 := by
  have := h.volume.mapped _ h.allocated (o / bsize)
  rw [view_self] at this
  apply this
  have := Nat.div_mul_le_self o bsize
  omega

theorem Open.blockOf_mem (h : Open sb ino ip s) {bn : ℕ}
    (hbn : blockOf s.disk (s.icache ip).node bn ≠ 0) :
    blockOf s.disk (s.icache ip).node bn ∈ dataArea sb := by
  have := h.volume.slot_mem h.allocated (k := dataSlot bn)
  rw [view_self] at this
  exact this hbn

/-! ## `readi` -/

theorem readLoop_ok (h : Readable ip s) {n : ℕ} (fuel : ℕ) :
    ∀ {tot off : ℕ} (dst : List UInt8), n - tot ≤ fuel →
      (∀ o, off ≤ o → o < off + (n - tot) → blockOf s.disk (s.icache ip).node (o / bsize) ≠ 0) →
      readLoop sb ip n fuel tot off dst s = .ok (dst ++ (List.range (n - tot)).map
        (fun i => byteAt s.disk (s.icache ip).node (off + i)),s) := by
  induction fuel with
  | zero =>
    intro tot off dst hf hmap
    rw [show n - tot = 0 by omega, readLoop]
    simp
  | succ fuel ih =>
    intro tot off dst hf hmap
    rw [readLoop]
    by_cases hlt : tot < n
    · have hm := hmap off le_rfl (by omega)
      have hbelow : blockOf s.disk (s.icache ip).node (off / bsize) < fssize := h.below _ hm
      have hmod : off % bsize < bsize := Nat.mod_lt _ (by decide)
      rw [if_pos hlt, bind_ok (bmap_mapped h hm), bind_ok (bread_ok hbelow (by simp [h.busy])), bind_ok brelse_hold]
      generalize hmin : min (n - tot) (bsize - off % bsize) = m
      have hm1 : 1 ≤ m := by omega
      have hm2 : m ≤ n - tot := by omega
      have hm3 : off % bsize + m ≤ bsize := by omega
      rw [ih _ (by omega) fun o h1 h2 => hmap o (by omega) (by omega), range_split hm2, List.append_assoc]
      congr 4
      · exact List.map_congr_left fun i hi =>
          (byteAt_add (by have := List.mem_range.mp hi; omega)).symm
      · rw [show n - (tot + m) = n - tot - m by omega]
        exact List.map_congr_left fun i _ => by rw [Nat.add_assoc]
    · rw [if_neg hlt, show n - tot = 0 by omega]
      simp

theorem content_drop_take (d : ℕ → Block) (node : Dinode) (off n : ℕ) :
    ((content d node).drop off).take n =
      (List.range (min n (node.size - off))).map fun i => byteAt d node (off + i) := by
  apply List.ext_getElem
  · simp [content]
  · intro i h1 h2
    simp [content]

/-- `readi` returns -1 past the end and the bytes of the content otherwise, and changes nothing if the bytes are mapped. -/
theorem readi_mapped (h : Readable ip s) (me : Fin nproc) (hdev : (s.icache ip).node.type ≠ tDev) {off n : ℕ} (hoff : off < 2 ^ 32)
    (hn : n < 2 ^ 32) (hmap : ∀ o, off ≤ o → o < off + n → o < (s.icache ip).node.size →
      blockOf s.disk (s.icache ip).node (o / bsize) ≠ 0) :
    readi sb me ip off n s = .ok (if (s.icache ip).node.size < off ∨ 2 ^ 32 ≤ off + n then none
      else some (((content s.disk (s.icache ip).node).drop off).take n),s) := by
  have hwrap : u32 (off + n) < off ↔ 2 ^ 32 ≤ off + n := by
    unfold u32
    omega
  unfold readi
  rw [bind_ok get_ok, if_neg hdev]
  by_cases hbad : (s.icache ip).node.size < off ∨ 2 ^ 32 ≤ off + n
  · rw [if_pos (hbad.imp id hwrap.mpr), if_pos hbad, pure_ok]
  · have hu : u32 (off + n) = off + n := u32_of_lt (by omega)
    rw [if_neg fun hc => hbad (hc.imp id hwrap.mp), if_neg hbad, hu, content_drop_take]
    have hk : (if (s.icache ip).node.size < off + n then (s.icache ip).node.size - off else n) =
        min n ((s.icache ip).node.size - off) := by
      split <;> omega
    rw [hk, bind_ok (readLoop_ok h _ [] (by omega) fun o h1 h2 => hmap o h1 (by omega) (by omega)), pure_ok]
    simp

theorem readi_ok (L : sb.Layout) (h : Open sb ino ip s) (me : Fin nproc)
    (hdev : (s.icache ip).node.type ≠ tDev) {off n : ℕ} (hoff : off < 2 ^ 32) (hn : n < 2 ^ 32) :
    readi sb me ip off n s = .ok (if (s.icache ip).node.size < off ∨ 2 ^ 32 ≤ off + n then none
      else some (((content s.disk (s.icache ip).node).drop off).take n),s) :=
  readi_mapped (h.readable L) me hdev hoff hn fun _ _ _ ho => h.mapped ho

/-! ## Writes into data blocks and inode blocks -/

section Disk
variable {d d' : ℕ → Block}

/-- Ownership depends on the free map and the indirect blocks. -/
theorem Volume.congr_disk (h : Volume sb d ino)
    (hbit : ∀ c < sb.size, sb.bit d' c = sb.bit d c)
    (hslot : ∀ i, IsAllocated sb ino i → ∀ k, slot d' (ino i) k = slot d (ino i) k) :
    Volume sb d' ino where
  owns := by
    have hr : refs sb d' ino = refs sb d ino := by
      funext ⟨i,k⟩
      by_cases hi : IsAllocated sb ino i
      · rw [refs_of_allocated hi, refs_of_allocated hi, hslot i hi]
      · rw [refs_of_not_allocated hi, refs_of_not_allocated hi]
    rw [hr]
    refine h.owns.congr fun b hb => ?_
    rw [hbit b hb.2]
  metadata b hb := by
    rw [hbit b (lt_of_lt_of_le hb datastart_le), h.metadata b hb]
  mapped i hi bn hbn := by
    unfold blockOf
    rw [hslot i hi]
    exact h.mapped i hi bn hbn

/-- A block that holds content is no indirect block. -/
theorem Volume.slot_update (h : Volume sb d ino) {i j m : ℕ} (hi : IsAllocated sb ino i)
    (hj : IsAllocated sb ino j) (x : Block) (k : ℕ) :
    slot (Function.update d (blockOf d (ino i) m) x) (ino j) k = slot d (ino j) k := by
  apply slot_congr rfl
  intro hz
  rw [← slot_last (d := d)] at hz ⊢
  refine Function.update_of_ne (fun he => ?_) _ _
  exact dataSlot_ne_last m (h.slot_once hj hi hz he).2.symm

theorem Volume.writeData (h : Volume sb d ino) (L : sb.Layout) {i m : ℕ}
    (hi : IsAllocated sb ino i) (hm : blockOf d (ino i) m ≠ 0) (x : Block) :
    Volume sb (Function.update d (blockOf d (ino i) m) x) ino := by
  refine h.congr_disk (fun c hc => bit_update_of_ne fun he => ?_) fun j hj k => h.slot_update hi hj x k
  have h1 := bblock_lt L hc
  have h2 := (h.slot_mem hi hm).1
  unfold blockOf at he
  omega

/-- The references of an inode whose indirect block is as it was. -/
theorem Volume.slot_of_ge (h : Volume sb d ino) (L : sb.Layout) {i k : ℕ} (hi : IsAllocated sb ino i)
    (hd : ∀ c, sb.bmapstart ≤ c → d' c = d c) : slot d' (ino i) k = slot d (ino i) k := by
  refine slot_congr rfl fun hz => ?_
  rw [← slot_last (d := d)] at hz ⊢
  have h1 := (h.slot_mem hi hz).1
  have h2 := bmapstart_lt L
  exact hd _ (by omega)

/-- Blocks below the free map do not matter to ownership. -/
theorem Volume.writeInode (h : Volume sb d ino) (L : sb.Layout) (hd : ∀ c, sb.bmapstart ≤ c → d' c = d c) :
    Volume sb d' ino := by
  refine h.congr_disk (fun c _ => ?_) fun i hi k => h.slot_of_ge L hi hd
  unfold Superblock.bit
  rw [hd _ (bblock_ge c)]

/-- A new size below which all blocks are mapped. -/
theorem Volume.setSize (h : Volume sb d ino) {i sz : ℕ} {n : Dinode} (ht : n.type = (ino i).type)
    (ha : n.addrs = (ino i).addrs) (hsz : n.size = sz)
    (hm : ∀ bn, bn * bsize < sz → blockOf d (ino i) bn ≠ 0) :
    Volume sb d (Function.update ino i n) where
  owns := by
    have hr : refs sb d (Function.update ino i n) = refs sb d ino := by
      funext ⟨j,k⟩
      by_cases hj : IsAllocated sb ino j
      · rw [refs_of_allocated ((isAllocated_update ht).mpr hj), refs_of_allocated hj]
        by_cases hji : j = i
        · rw [hji, Function.update_self]
          exact slot_congr ha fun _ => rfl
        · rw [Function.update_of_ne hji]
      · rw [refs_of_not_allocated hj, refs_of_not_allocated fun hc => hj ((isAllocated_update ht).mp hc)]
    exact hr ▸ h.owns
  metadata := h.metadata
  mapped j hj bn hbn := by
    by_cases hji : j = i
    · subst hji
      rw [Function.update_self] at hbn ⊢
      have he : blockOf d n bn = blockOf d (ino j) bn := slot_congr ha fun _ => rfl
      rw [he]
      exact hm bn (hsz ▸ hbn)
    · rw [Function.update_of_ne hji] at hbn ⊢
      exact h.mapped j ((isAllocated_update ht).mp hj) bn hbn

end Disk

/-! ## The loop of `writei` -/

/-- After the loop has stored `tot` bytes from `off` on, `t` is what `s` has become. -/
structure Written (sb : Superblock) (ino : ℕ → Dinode) (ip : Fin ninode) (src : ℕ → UInt8) (off : ℕ)
    (s : Sys) (tot : ℕ) (t : Sys) : Prop where
  edited : Edited sb ip s t
  volume : Volume sb t.disk (view ino t ip)
  mapped : ∀ o < off + tot, blockOf t.disk (t.icache ip).node (o / bsize) ≠ 0
  bytes : ∀ o, o < (s.icache ip).node.size ∨ o < off + tot → byteAt t.disk (t.icache ip).node o =
    if off ≤ o ∧ o < off + tot then src (o - off) else byteAt s.disk (s.icache ip).node o
  others : ∀ j ≠ (s.icache ip).inum, IsAllocated sb ino j → Untouched s.disk t.disk (ino j)
  logged : ∀ o, off ≤ o → o < off + tot → blockOf t.disk (t.icache ip).node (o / bsize) ∈ t.log.block

variable {src : ℕ → UInt8} {off tot : ℕ}

theorem Written.start (h : Open sb ino ip s) (hoff : off ≤ (s.icache ip).node.size) :
    Written sb ino ip src off s 0 s where
  edited := .refl
  volume := h.volume
  mapped o ho := h.mapped (by omega)
  bytes o _ := (if_neg (by omega)).symm
  others _ _ _ := .refl
  logged o h1 h2 := by omega

theorem Written.open (hw : Written sb ino ip src off s tot t) (h : Open sb ino ip s) :
    Open sb ino ip t where
  volume := hw.volume
  inum := hw.edited.inum ▸ h.inum
  type := hw.edited.type ▸ h.type
  busy := hw.edited.busy.trans h.busy

/-- `bmap` in the loop keeps what has been written. -/
theorem Written.grown (hw : Written sb ino ip src off s tot t) (h : Open sb ino ip s)
    (hg : Grown sb ino ip t u) : Written sb ino ip src off s tot u where
  edited := hw.edited.trans hg.edited
  volume := hg.volume
  mapped o ho := by
    have hm := hw.mapped o ho
    rwa [(hg.keeps _ hm).1]
  bytes o ho := by
    have hm : blockOf t.disk (t.icache ip).node (o / bsize) ≠ 0 := by
      rcases ho with ho | ho
      · exact (hw.open h).mapped (hw.edited.size ▸ ho)
      · exact hw.mapped o ho
    rw [← hw.bytes o ho]
    unfold byteAt
    rw [(hg.keeps _ hm).1, (hg.keeps _ hm).2]
  others j hj ha := (hw.others j hj ha).trans (hg.others j (hw.edited.inum ▸ hj) ha)
  logged o h1 h2 := by
    rw [(hg.keeps _ (hw.mapped o h2)).1]
    exact hg.edited.log.subset (hw.logged o h1 h2)

/-- The block that one round of the loop stores. -/
def chunk (src : ℕ → UInt8) (tot o m : ℕ) (data : Block) : Block :=
  .ofMem (copy data.mem o m fun i => src (tot + i))

theorem chunk_mem {o m x : ℕ} (data : Block) (hx : x < bsize) :
    (chunk src tot o m data).mem x = if o ≤ x ∧ x < o + m then src (tot + (x - o)) else data.mem x := by
  unfold chunk
  rw [Block.mem_ofMem hx]
  rfl

theorem Edited.write (L : sb.Layout) {b : ℕ} (hb : b ∈ dataArea sb)
    (hlog : LogGrows sb t.log (t.log.record b)) (x : Block) : Edited sb ip t (t.write b x) where
  busy := rfl
  file := rfl
  proc := rfl
  console := rfl
  log := hlog
  icache := (@Edited.refl sb ip t).icache
  fits := id
  inodes c hc := by
    have h1 := bmapstart_lt L
    have h2 := hb.1
    exact Function.update_of_ne (by omega) _ _

section Round
variable {m b bn : ℕ} (hw : Written sb ino ip src off s tot t) (h : Open sb ino ip s)
  (hbn : (off + tot) / bsize = bn) (hb : blockOf t.disk (t.icache ip).node bn = b)
include hw h hb

/-- Storing into a data block of the inode moves none of its blocks. -/
theorem Written.blockOf_update (x : Block) (l : ℕ) :
    blockOf (Function.update t.disk b x) (t.icache ip).node l =
      blockOf t.disk (t.icache ip).node l := by
  have ht := hw.open h
  have := hw.volume.slot_update (m := bn) ht.allocated ht.allocated x (dataSlot l)
  rw [view_self, hb] at this
  exact this

theorem Written.blockOf_inj (hb0 : b ≠ 0) {l : ℕ} (hl : blockOf t.disk (t.icache ip).node l = b) :
    l = bn := by
  have ht := hw.open h
  have := ht.volume.slot_once ht.allocated ht.allocated (k := dataSlot l) (l := dataSlot bn)
  rw [view_self] at this
  have hl0 : blockOf t.disk (t.icache ip).node l ≠ 0 := hl ▸ hb0
  exact dataSlot_injective (this hl0 (hl.trans hb.symm)).2

include hbn

/-- One round of the loop: `m` more bytes into the block at the current offset. -/
theorem Written.store (L : sb.Layout) (hb0 : b ≠ 0) (hfit : (off + tot) % bsize + m ≤ bsize)
    (hlog : LogGrows sb t.log (t.log.record b)) :
    Written sb ino ip src off s (tot + m)
      (t.write b (chunk src tot ((off + tot) % bsize) m (t.disk b))) := by
  have ht := hw.open h
  have hmem : b ∈ dataArea sb := hb ▸ ht.blockOf_mem (hb ▸ hb0)
  -- an offset of this round is in the block at hand
  have hnew {o : ℕ} (h1 : off + tot ≤ o) (h2 : o < off + (tot + m)) : o / bsize = bn := by
    rw [← hbn]
    simp only [bsize] at *
    omega
  refine ⟨hw.edited.trans (.write L hmem hlog _),?_,fun o ho => ?_,fun o ho => ?_,fun j hj ha => ?_,
    fun o h1 h2 => ?_⟩
  · have := hw.volume.writeData L ht.allocated (m := bn)
    rw [view_self, hb] at this
    exact this hb0 _
  · change blockOf (Function.update t.disk b _) (t.icache ip).node _ ≠ 0
    rw [hw.blockOf_update h hb]
    by_cases hlt : o < off + tot
    · exact hw.mapped o hlt
    · rw [hnew (not_lt.mp hlt) ho, hb]
      exact hb0
  · change (Function.update t.disk b _ (blockOf (Function.update t.disk b _) (t.icache ip).node _)).mem _ = _
    rw [hw.blockOf_update h hb]
    by_cases hin : off + tot ≤ o ∧ o < off + (tot + m)
    · have hmod : (off + tot) % bsize ≤ o % bsize ∧ o % bsize < (off + tot) % bsize + m ∧
          tot + (o % bsize - (off + tot) % bsize) = o - off := by
        have hdiv := hnew hin.1 hin.2
        rw [← hbn] at hdiv
        simp only [bsize] at *
        omega
      rw [hnew hin.1 hin.2, hb, Function.update_self, chunk_mem _ (Nat.mod_lt _ (by decide)),
        if_pos ⟨hmod.1,hmod.2.1⟩, hmod.2.2, if_pos ⟨by omega,hin.2⟩]
    · have ho' : o < (s.icache ip).node.size ∨ o < off + tot := by omega
      have hiff : (off ≤ o ∧ o < off + (tot + m)) ↔ (off ≤ o ∧ o < off + tot) := by omega
      rw [if_congr hiff rfl rfl, ← hw.bytes o ho']
      unfold byteAt
      by_cases he : blockOf t.disk (t.icache ip).node (o / bsize) = b
      · have hdiv := hw.blockOf_inj h hb hb0 he
        have hout : ¬ ((off + tot) % bsize ≤ o % bsize ∧ o % bsize < (off + tot) % bsize + m) := by
          rw [← hbn] at hdiv
          simp only [bsize] at *
          omega
        rw [he, Function.update_self, chunk_mem _ (Nat.mod_lt _ (by decide)), if_neg hout]
      · rw [Function.update_of_ne he]
  · refine (hw.others j hj ha).trans fun k hk => Function.update_of_ne (fun he => ?_) _ _
    have hj' : j ≠ (t.icache ip).inum := hw.edited.inum ▸ hj
    have hall := (Open.allocated_of_ne hj').mpr ha
    have := ht.volume.slot_once hall ht.allocated (k := k) (l := dataSlot bn)
    rw [view_of_ne _ _ _ hj', view_self] at this
    exact hj' (this hk (he.trans hb.symm)).1
  · change blockOf (Function.update t.disk b _) (t.icache ip).node _ ∈ (t.log.record b).block
    rw [hw.blockOf_update h hb]
    by_cases hlt : o < off + tot
    · exact hlog.subset (hw.logged o h1 hlt)
    · rw [hnew (not_lt.mp hlt) h2, hb]
      exact mem_record _ _

end Round

section Loop
variable {E : Stop → Prop} {n : ℕ} (L : sb.Layout) (hfull : E (.panic .tooBig))
  (hout : (s.icache ip).node.size < off + n → E (.panic .balloc)) (h : Open sb ino ip s)
  (ho : 1 ≤ s.log.outstanding)
include L hfull hout h ho

/-- The loop allocates blocks only past the end. -/
theorem writeLoop_ends (hmax : off + n ≤ maxfile * bsize) (fuel : ℕ) :
    ∀ {tot : ℕ} {t : Sys}, n - tot ≤ fuel → tot ≤ n → Written sb ino ip src off s tot t →
      (off + tot ≤ (s.icache ip).node.size → (t.icache ip).node = (s.icache ip).node) →
      Ends (writeLoop sb ip src n fuel tot (off + tot)) t E fun r u =>
        r = off + n ∧ Written sb ino ip src off s n u ∧
          (off + n ≤ (s.icache ip).node.size → (u.icache ip).node = (s.icache ip).node) := by
  induction fuel with
  | zero =>
    intro tot t hf hle hw hsame
    have hn : tot = n := by omega
    subst hn
    exact ⟨rfl,hw,hsame⟩
  | succ fuel ih =>
    intro tot t hf hle hw hsame
    rw [writeLoop]
    by_cases hlt : tot < n
    · have ht := hw.open h
      have hto : 1 ≤ t.log.outstanding := hw.edited.log.outstanding ▸ ho
      have hbn : (off + tot) / bsize < maxfile := by
        rw [Nat.div_lt_iff_lt_mul (by decide)]
        omega
      have hmod : (off + tot) % bsize < bsize := Nat.mod_lt _ (by decide)
      rw [if_pos hlt]
      -- `bmap` adds a block only where the content ends
      have hmap : Ends (bmap sb ip ((off + tot) / bsize)) t E fun b u =>
          Grown sb ino ip t u ∧ blockOf u.disk (u.icache ip).node ((off + tot) / bsize) = b ∧ b ≠ 0 ∧
            (off + tot < (s.icache ip).node.size → u = t) := by
        by_cases hlt' : off + tot < (s.icache ip).node.size
        · have hm := ht.mapped (o := off + tot) (hw.edited.size ▸ hlt')
          exact (ends_of_ok (bmap_mapped (ht.readable L) hm)).mpr ⟨.refl ht.volume,rfl,hm,fun _ => rfl⟩
        · refine (bmap_ends L hfull (hout (by omega)) ht hto hbn).imp ?_
          rintro b u ⟨hg,hb,hb0⟩
          exact ⟨hg,hb,hb0,fun hc => absurd hc hlt'⟩
      refine .seq hmap ?_
      rintro b u ⟨hg,hb,hb0,hu⟩
      have hwu := hw.grown h hg
      have huo := hwu.open h
      have hmem : b ∈ dataArea sb := hb ▸ huo.blockOf_mem (hb ▸ hb0)
      refine .seq_ok (bread_ok (dataArea_lt_fssize L hmem) (by simp [huo.busy])) ?_
      generalize hmin : min (n - tot) (bsize - (off + tot) % bsize) = m
      refine .bind (bupdate_ends hfull (hwu.edited.log.outstanding ▸ ho) (isHome_dataArea L hmem)
        fun hlog => ?_)
      rw [Nat.add_assoc]
      refine @ih (tot + m) _ (by omega) (by omega)
        (hwu.store h rfl hb L hb0 (by omega) hlog) fun hle' => ?_
      have hut := hu (by omega)
      subst hut
      exact hsame (by omega)
    · have hn : tot = n := by omega
      subst hn
      rw [if_neg hlt]
      exact ⟨rfl,hw,hsame⟩

end Loop

end X86OsDev.Xv6.Fs
