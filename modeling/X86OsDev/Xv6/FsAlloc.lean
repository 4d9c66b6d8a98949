import X86OsDev.Xv6.FsBlocks

/-! # Allocating and freeing blocks

`balloc` returns a block of the data area whose bit was clear, and `bfree`
clears a bit that is set. A reference that takes the new block, or gives its
block back, keeps the ownership of blocks.
-/
namespace X86OsDev.Xv6.Fs
open Fault Memory Ownership
variable {sb : Superblock}

/-! ## The areas of the disk -/

theorem bblock_ge (b : ℕ) : sb.bmapstart ≤ sb.bblock b := Nat.le_add_left _ _

theorem datastart_le : sb.datastart ≤ sb.size := Nat.sub_le _ _

section Areas
variable (L : sb.Layout)
include L

theorem bblock_lt {b : ℕ} (hb : b < sb.size) : sb.bblock b < sb.datastart := by
  have h1 : b / bpb ≤ sb.size / bpb := Nat.div_le_div_right hb.le
  have h2 := L.data
  unfold Superblock.bblock
  omega

theorem iblock_lt {i : ℕ} (hi : i < sb.ninodes) : sb.iblock i < sb.bmapstart := by
  have h1 : i / ipb ≤ sb.ninodes / ipb := Nat.div_le_div_right hi.le
  have h2 := L.bmap
  unfold Superblock.iblock
  omega

theorem inodestart_lt : sb.inodestart < sb.bmapstart :=
  lt_of_lt_of_le (Nat.lt_succ_of_le (Nat.le_add_right _ _)) L.bmap

theorem bmapstart_lt : sb.bmapstart < sb.datastart :=
  lt_of_lt_of_le (Nat.lt_succ_of_le (Nat.le_add_right _ _)) L.data

theorem zero_notMem_dataArea : 0 ∉ dataArea sb :=
  fun h => absurd h.1 (not_le.mpr (lt_of_le_of_lt (Nat.zero_le _) (bmapstart_lt L)))

theorem isHome_dataArea {b : ℕ} (hb : b ∈ dataArea sb) : sb.inodestart ≤ b ∧ b < sb.size := by
  have h1 := inodestart_lt L
  have h2 := bmapstart_lt L
  have h3 := hb.1
  exact ⟨by omega,hb.2⟩

theorem isHome_bblock {b : ℕ} (hb : b < sb.size) :
    sb.inodestart ≤ sb.bblock b ∧ sb.bblock b < sb.size := by
  have h1 := inodestart_lt L
  have h2 := @bblock_ge sb b
  have h3 := bblock_lt L hb
  have h4 := @datastart_le sb
  omega

theorem isHome_iblock {i : ℕ} (hi : i < sb.ninodes) :
    sb.inodestart ≤ sb.iblock i ∧ sb.iblock i < sb.size := by
  have h1 := iblock_lt L hi
  have h2 := bmapstart_lt L
  have h3 := @datastart_le sb
  exact ⟨Nat.le_add_left _ _,by omega⟩

theorem dataArea_lt_fssize {b : ℕ} (hb : b ∈ dataArea sb) : b < fssize := lt_of_lt_of_le hb.2 L.size

theorem bblock_lt_fssize {b : ℕ} (hb : b < sb.size) : sb.bblock b < fssize :=
  lt_of_lt_of_le (lt_of_lt_of_le (bblock_lt L hb) datastart_le) L.size

theorem iblock_lt_fssize {i : ℕ} (hi : i < sb.ninodes) : sb.iblock i < fssize := by
  have h1 := iblock_lt L hi
  have h2 := bmapstart_lt L
  have h3 := @datastart_le sb
  have h4 := L.size
  omega

end Areas

/-! ## The free map under writes -/

section Map
variable {d : ℕ → Block} {b c x : ℕ} {v : Block}

/-- A bit is given by its block and its place in it. -/
theorem bblock_inj (h1 : sb.bblock b = sb.bblock c) (h2 : b % bpb = c % bpb) : b = c := by
  unfold Superblock.bblock at h1
  have h3 : b / bpb = c / bpb := by omega
  rw [← Nat.div_add_mod b bpb, ← Nat.div_add_mod c bpb, h2, h3]

theorem bit_update_of_ne (h : x ≠ sb.bblock c) : sb.bit (Function.update d x v) c = sb.bit d c := by
  unfold Superblock.bit
  rw [Function.update_of_ne h.symm]

theorem bit_update_setBit :
    sb.bit (Function.update d (sb.bblock b) ((d (sb.bblock b)).setBit (b % bpb))) c =
      (sb.bit d c || decide (b = c)) := by
  by_cases h : sb.bblock b = sb.bblock c
  · unfold Superblock.bit
    rw [h, Function.update_self, Block.bit_setBit _ (Nat.mod_lt _ (by decide))]
    congr 2
    exact propext ⟨fun he => bblock_inj h he,fun he => he ▸ rfl⟩
  · rw [bit_update_of_ne h]
    simp [show b ≠ c from fun he => h (he ▸ rfl)]

theorem bit_update_clearBit :
    sb.bit (Function.update d (sb.bblock b) ((d (sb.bblock b)).clearBit (b % bpb))) c =
      (sb.bit d c && decide (b ≠ c)) := by
  by_cases h : sb.bblock b = sb.bblock c
  · unfold Superblock.bit
    rw [h, Function.update_self, Block.bit_clearBit _ (Nat.mod_lt _ (by decide))]
    congr 2
    exact propext ⟨fun he hc => he (hc ▸ rfl),fun he hc => he (bblock_inj h hc)⟩
  · rw [bit_update_of_ne h]
    simp [show b ≠ c from fun he => h (he ▸ rfl)]

end Map

/-! ## `balloc` -/

/-- The state after `balloc` has returned `b`. -/
def Sys.alloc (sb : Superblock) (s : Sys) (b : ℕ) : Sys :=
  (s.write (sb.bblock b) ((s.disk (sb.bblock b)).setBit (b % bpb))).write b Block.zero

theorem freeBit_some {blk : Block} {b n bi c : ℕ} (h : freeBit sb blk b n bi = some c) :
    c < bi + n ∧ b + c < sb.size ∧ blk.bit c = false := by
  induction n generalizing bi with
  | zero => cases h
  | succ n ih =>
    rw [freeBit] at h
    split at h
    · rename_i hlt
      split at h
      · rename_i hbit
        cases h
        exact ⟨by omega,hlt,hbit⟩
      · obtain ⟨h1,h2⟩ := ih h
        exact ⟨by omega,h2⟩
    · cases h

section Balloc
variable {E : Stop → Prop} {s : Sys}

/-- The buffers held around a call of the allocator are of data blocks in use. -/
def BusyInUse (sb : Superblock) (s : Sys) : Prop :=
  ∀ c ∈ s.busy, sb.datastart ≤ c ∧ c < sb.size ∧ sb.bit s.disk c = true

theorem BusyInUse.bblock_notMem (h : BusyInUse sb s) (L : sb.Layout) {b : ℕ} (hb : b < sb.size) :
    sb.bblock b ∉ s.busy := fun hc => absurd (h _ hc).1 (not_le.mpr (bblock_lt L hb))

theorem ballocLoop_ends (L : sb.Layout) (hfull : E (.panic .tooBig)) (hout : E (.panic .balloc))
    (ho : 1 ≤ s.log.outstanding) (hmeta : ∀ b < sb.datastart, sb.bit s.disk b = true)
    (hbusy : BusyInUse sb s) (n b : ℕ) (hb : b % bpb = 0) :
    Ends (ballocLoop sb n b) s E fun c t =>
      t = s.alloc sb c ∧ c ∈ dataArea sb ∧ sb.bit s.disk c = false ∧ LogGrows sb s.log t.log := by
  induction n generalizing b with
  | zero =>
    rw [ballocLoop]
    exact hout
  | succ n ih =>
    rw [ballocLoop]
    by_cases hlt : b < sb.size
    · rw [if_pos hlt]
      refine .seq_ok (bread_ok (bblock_lt_fssize L hlt) (hbusy.bblock_notMem L hlt)) ?_
      cases hf : freeBit sb (s.disk (sb.bblock b)) b bpb 0 with
      | none =>
        refine .seq_ok brelse_hold ?_
        exact ih (b + bpb) (by rw [Nat.add_mod_right, hb])
      | some bi =>
        obtain ⟨h1,h2,h3⟩ := freeBit_some hf
        rw [Nat.zero_add] at h1
        have hmod : (b + bi) % bpb = bi := by
          rw [Nat.add_mod, hb, Nat.zero_add, Nat.mod_mod, Nat.mod_eq_of_lt h1]
        have hblk : sb.bblock b = sb.bblock (b + bi) := by
          have h4 : (b + bi) / bpb = b / bpb := by
            simp only [bpb, bsize] at hb h1 ⊢
            omega
          unfold Superblock.bblock
          rw [h4]
        have hclear : sb.bit s.disk (b + bi) = false := by
          unfold Superblock.bit
          rw [hmod, ← hblk, h3]
        have hdata : sb.datastart ≤ b + bi := by
          by_contra hc
          rw [hmeta _ (not_le.mp hc)] at hclear
          cases hclear
        have hn : b + bi ∉ s.busy := by
          intro hc
          rw [(hbusy _ hc).2.2] at hclear
          cases hclear
        refine .bind (bupdate_ends hfull ho (isHome_bblock L hlt) fun hg1 => ?_)
        refine .bind (bzero_ends hfull (by simpa using ho) (isHome_dataArea L ⟨hdata,h2⟩)
          (lt_of_lt_of_le h2 L.size) hn fun hg2 => ?_)
        refine ⟨?_,⟨hdata,h2⟩,hclear,hg1.trans hg2⟩
        unfold Sys.alloc
        rw [hmod, ← hblk]
    · rw [if_neg hlt]
      exact hout

theorem balloc_ends (L : sb.Layout) (hfull : E (.panic .tooBig)) (hout : E (.panic .balloc))
    (ho : 1 ≤ s.log.outstanding) (hmeta : ∀ b < sb.datastart, sb.bit s.disk b = true)
    (hbusy : BusyInUse sb s) :
    Ends (balloc sb) s E fun c t =>
      t = s.alloc sb c ∧ c ∈ dataArea sb ∧ sb.bit s.disk c = false ∧ LogGrows sb s.log t.log :=
  ballocLoop_ends L hfull hout ho hmeta hbusy _ 0 rfl

end Balloc

section AllocFacts
variable {s : Sys} {b : ℕ}

theorem alloc_disk_self : (s.alloc sb b).disk b = Block.zero := Function.update_self _ _ _

theorem alloc_disk_of_ne {c : ℕ} (h1 : c ≠ b) (h2 : c ≠ sb.bblock b) :
    (s.alloc sb b).disk c = s.disk c := by
  unfold Sys.alloc
  rw [Sys.write_disk, Function.update_of_ne h1, Sys.write_disk, Function.update_of_ne h2]

theorem alloc_bit (L : sb.Layout) (hb : b ∈ dataArea sb) {c : ℕ} (hc : c < sb.size) :
    sb.bit (s.alloc sb b).disk c = (sb.bit s.disk c || decide (b = c)) := by
  have hne : b ≠ sb.bblock c := by
    have h1 := bblock_lt L hc
    have h2 := hb.1
    omega
  unfold Sys.alloc
  rw [Sys.write_disk, bit_update_of_ne hne, Sys.write_disk, bit_update_setBit]

end AllocFacts

/-! ## `bfree` -/

/-- The state after `bfree(b)`. -/
def Sys.free (sb : Superblock) (s : Sys) (b : ℕ) : Sys :=
  s.write (sb.bblock b) ((s.disk (sb.bblock b)).clearBit (b % bpb))

theorem bfree_ends {E : Stop → Prop} {Q : Unit → Sys → Prop} {s : Sys} {b : ℕ} (L : sb.Layout)
    (hfull : E (.panic .tooBig)) (ho : 1 ≤ s.log.outstanding) (hb : b < sb.size)
    (hn : sb.bblock b ∉ s.busy) (hbit : sb.bit s.disk b = true)
    (h : LogGrows sb s.log (s.free sb b).log → Q () (s.free sb b)) : Ends (bfree sb b) s E Q := by
  unfold bfree
  refine .seq_ok (bread_ok (bblock_lt_fssize L hb) hn) ?_
  rw [if_neg (by unfold Superblock.bit at hbit; simp [hbit])]
  exact bupdate_ends hfull ho (isHome_bblock L hb) h

theorem free_bit {s : Sys} {b c : ℕ} :
    sb.bit (s.free sb b).disk c = (sb.bit s.disk c && decide (b ≠ c)) := by
  unfold Sys.free
  rw [Sys.write_disk, bit_update_clearBit]

theorem free_disk_of_ne {s : Sys} {b c : ℕ} (h : c ≠ sb.bblock b) : (s.free sb b).disk c = s.disk c :=
  Function.update_of_ne h _ _

/-! ## References that take and drop blocks -/

section Take
variable {d d' : ℕ → Block} {ino ino' : ℕ → Dinode} {b : ℕ}

/-- A null reference takes a free block. -/
theorem Volume.take (h : Volume sb d ino) (L : sb.Layout) {p : ℕ × ℕ} (hp : refs sb d ino p = 0)
    (hb : b ∈ dataArea sb) (hfree : sb.bit d b = false)
    (hrefs : refs sb d' ino' = Function.update (refs sb d ino) p b)
    (hbits : ∀ c < sb.size, sb.bit d' c = (sb.bit d c || decide (b = c)))
    (hino : ∀ i, IsAllocated sb ino' i → IsAllocated sb ino i ∧ (ino' i).size = (ino i).size) :
    Volume sb d' ino' where
  owns := by
    rw [hrefs]
    refine h.owns.take (zero_notMem_dataArea L) hp hb (by simp [hfree]) fun c hc => ?_
    rw [hbits c hc.2, Bool.or_eq_true, decide_eq_true_eq, eq_comm (a := b)]
  metadata c hc := by
    rw [hbits c (lt_of_lt_of_le hc datastart_le), h.metadata c hc, Bool.true_or]
  mapped i hi bn hbn := by
    obtain ⟨hi',hs⟩ := hino i hi
    have hm := h.mapped i hi' bn (hs ▸ hbn)
    have hr := congrFun hrefs (i,dataSlot bn)
    unfold blockOf at hm ⊢
    rw [← refs_of_allocated hi', ne_eq] at hm
    rw [← refs_of_allocated hi, hr]
    by_cases he : (i,dataSlot bn) = p
    · exact absurd (he ▸ hp) hm
    · rwa [Function.update_of_ne he]

/-- The blocks in use keep their content when a free block is allocated. -/
theorem alloc_disk_of_used {s : Sys} (L : sb.Layout) (hb : b ∈ dataArea sb)
    (hfree : sb.bit s.disk b = false) {c : ℕ} (hc : c ∈ dataArea sb) (hu : sb.bit s.disk c = true) :
    (s.alloc sb b).disk c = s.disk c := by
  refine alloc_disk_of_ne ?_ ?_
  · rintro rfl
    rw [hu] at hfree
    cases hfree
  · have h1 := bblock_lt L hb.2
    have h2 := hc.1
    omega

theorem Volume.untouched_of_used (h : Volume sb d ino) {i : ℕ} (hi : IsAllocated sb ino i)
    (hd : ∀ c ∈ dataArea sb, sb.bit d c = true → d' c = d c) : Untouched d d' (ino i) :=
  fun _ hk => hd _ (h.slot_mem hi hk) (h.bit_slot hi hk)

theorem slot_setAddr_of_le {n : Dinode} {k : Fin (ndirect + 1)} {l : ℕ} (hl : l < ndirect + 1) :
    slot d' (n.setAddr k b) l = if l = k then b else slot d n l := by
  rw [slot_direct hl, slot_direct hl]
  by_cases h : l = k
  · have he : (⟨l,hl⟩ : Fin (ndirect + 1)) = k := Fin.ext h
    rw [if_pos h, he, n.setAddr_self]
  · rw [if_neg h, n.setAddr_of_ne fun he => h (congrArg Fin.val he)]

/-- The references of an inode whose null address has taken a zeroed block. -/
theorem slot_setAddr {n : Dinode} {k : Fin (ndirect + 1)} {l : ℕ} (hk : n.addrs k = 0)
    (hzero : d' b = Block.zero)
    (hd : n.addrs (Fin.last ndirect) ≠ 0 → d' (n.addrs (Fin.last ndirect)) = d (n.addrs (Fin.last ndirect))) :
    slot d' (n.setAddr k b) l = if l = k then b else slot d n l := by
  by_cases hl : l < ndirect + 1
  · exact slot_setAddr_of_le hl
  · rw [if_neg (by omega)]
    by_cases hlast : k = Fin.last ndirect
    · -- the words of the new indirect block are zero
      subst hlast
      rw [slot_of_no_indirect (by omega) hk]
      unfold slot
      rw [dif_neg hl]
      split
      · rfl
      · split
        · rw [n.setAddr_self, hzero, Block.word_zero]
        · rfl
    · exact slot_congr_indirect (by omega) (n.setAddr_of_ne (Ne.symm hlast) b) hd

variable {s : Sys} {i : ℕ}

theorem isAllocated_update {n : Dinode} (hn : n.type = (ino i).type) {j : ℕ} :
    IsAllocated sb (Function.update ino i n) j ↔ IsAllocated sb ino j := by
  unfold IsAllocated
  by_cases hj : j = i
  · rw [hj, Function.update_self, hn]
  · rw [Function.update_of_ne hj]

theorem refs_update_of_ne {n : Dinode} {j l : ℕ} (hji : j ≠ i) :
    refs sb d (Function.update ino i n) (j,l) = refs sb d ino (j,l) := by
  have hiff : IsAllocated sb (Function.update ino i n) j ↔ IsAllocated sb ino j := by
    unfold IsAllocated
    rw [Function.update_of_ne hji]
  by_cases hj : IsAllocated sb ino j
  · rw [refs_of_allocated hj, refs_of_allocated (hiff.mpr hj), Function.update_of_ne hji]
  · rw [refs_of_not_allocated hj, refs_of_not_allocated fun hc => hj (hiff.mp hc)]

/-- The references after `ip->addrs[k] = balloc(dev)` -/
theorem Volume.refs_takeAddr (h : Volume sb s.disk ino) (L : sb.Layout) (hi : IsAllocated sb ino i)
    (hb : b ∈ dataArea sb) (hfree : sb.bit s.disk b = false) {k : Fin (ndirect + 1)}
    (hk : (ino i).addrs k = 0) :
    refs sb (s.alloc sb b).disk (Function.update ino i ((ino i).setAddr k b)) =
      Function.update (refs sb s.disk ino) (i,k.val) b := by
  have hused {j : ℕ} (hj : IsAllocated sb ino j) : Untouched s.disk (s.alloc sb b).disk (ino j) :=
    h.untouched_of_used hj fun c hc hu => alloc_disk_of_used L hb hfree hc hu
  funext ⟨j,l⟩
  by_cases hji : j = i
  · subst hji
    have hj : IsAllocated sb (Function.update ino j ((ino j).setAddr k b)) j := by
      rw [isAllocated_update (by rfl)]
      exact hi
    rw [refs_of_allocated hj, Function.update_self, slot_setAddr hk alloc_disk_self fun hne => ?_]
    · by_cases hl : l = k
      · rw [if_pos hl, hl, Function.update_self]
      · rw [if_neg hl, Function.update_of_ne (by simpa using hl), refs_of_allocated hi]
    · rw [← slot_last (d := s.disk)] at hne ⊢
      exact hused hi _ hne
  · rw [refs_update_of_ne hji, Function.update_of_ne (fun he => hji (Prod.mk.inj he).1)]
    by_cases hj : IsAllocated sb ino j
    · rw [refs_of_allocated hj, refs_of_allocated hj, (hused hj).slot]
    · rw [refs_of_not_allocated hj, refs_of_not_allocated hj]

/-- `ip->addrs[k] = balloc(dev)` -/
theorem Volume.takeAddr (h : Volume sb s.disk ino) (L : sb.Layout) (hi : IsAllocated sb ino i)
    (hb : b ∈ dataArea sb) (hfree : sb.bit s.disk b = false) {k : Fin (ndirect + 1)}
    (hk : (ino i).addrs k = 0) :
    Volume sb (s.alloc sb b).disk (Function.update ino i ((ino i).setAddr k b)) := by
  have hp : refs sb s.disk ino (i,k.val) = 0 := by
    rw [refs_of_allocated hi, slot_direct k.isLt, hk]
  refine h.take L hp hb hfree (h.refs_takeAddr L hi hb hfree hk) (fun c hc => alloc_bit L hb hc)
    fun j hj => ?_
  constructor
  · rwa [isAllocated_update (by rfl)] at hj
  · by_cases hji : j = i
    · rw [hji, Function.update_self]
      rfl
    · rw [Function.update_of_ne hji]

/-- The disk after `a[j] = balloc(dev)` in the indirect block `a`. -/
def Sys.allocEntry (sb : Superblock) (s : Sys) (a j b : ℕ) : Sys :=
  (s.alloc sb b).write a ((s.disk a).setWord (4 * j) b)

section Entry
variable {a j : ℕ} (h : Volume sb s.disk ino) (L : sb.Layout) (hi : IsAllocated sb ino i)
  (hb : b ∈ dataArea sb) (ha : (ino i).addrs (Fin.last ndirect) = a)
include h L hi hb ha

/-- All blocks in use but the indirect block keep their content. -/
theorem allocEntry_disk_of_slot (hfree : sb.bit s.disk b = false) {i' l : ℕ} (hi' : IsAllocated sb ino i')
    (hl : slot s.disk (ino i') l ≠ 0) (hne : ¬ (i' = i ∧ l = ndirect)) :
    (s.allocEntry sb a j b).disk (slot s.disk (ino i') l) = s.disk (slot s.disk (ino i') l) := by
  unfold Sys.allocEntry
  rw [Sys.write_disk, Function.update_of_ne,
    alloc_disk_of_used L hb hfree (h.slot_mem hi' hl) (h.bit_slot hi' hl)]
  intro he
  rw [← ha, ← slot_last (d := s.disk)] at he
  exact hne (h.slot_once hi' hi hl he)

theorem allocEntry_bit (ha0 : a ≠ 0) {c : ℕ} (hc : c < sb.size) :
    sb.bit (s.allocEntry sb a j b).disk c = (sb.bit s.disk c || decide (b = c)) := by
  have hlast : slot s.disk (ino i) ndirect ≠ 0 := by rwa [slot_last, ha]
  have hmem := h.slot_mem hi hlast
  rw [slot_last, ha] at hmem
  have hne : a ≠ sb.bblock c := by
    have h1 := bblock_lt L hc
    have h2 := hmem.1
    omega
  unfold Sys.allocEntry
  rw [Sys.write_disk, bit_update_of_ne hne, alloc_bit L hb hc]

/-- The references after `a[j] = balloc(dev)` in the indirect block. -/
theorem Volume.refs_takeEntry (hfree : sb.bit s.disk b = false) (ha0 : a ≠ 0) (hj : j < nindirect) :
    refs sb (s.allocEntry sb a j b).disk ino =
      Function.update (refs sb s.disk ino) (i,ndirect + 1 + j) b := by
  have hb32 : b % 2 ^ 32 = b := Nat.mod_eq_of_lt (by
    have := dataArea_lt_fssize L hb
    simp only [fssize] at this
    omega)
  have hself : (s.allocEntry sb a j b).disk a = (s.disk a).setWord (4 * j) b :=
    Function.update_self ..
  have hj' : 4 * j + 4 ≤ bsize := by
    simp only [nindirect, bsize] at hj ⊢
    omega
  funext ⟨i',l⟩
  by_cases hi' : IsAllocated sb ino i'
  · rw [refs_of_allocated hi']
    by_cases hne : i' = i
    · subst hne
      by_cases hl : l < ndirect + 1
      · rw [slot_direct hl, Function.update_of_ne (by simp; omega), refs_of_allocated hi',
          slot_direct hl]
      · obtain ⟨m,rfl⟩ := Nat.exists_eq_add_of_le (not_lt.mp hl)
        by_cases hm : m < nindirect
        · rw [slot_indirect (ha ▸ ha0) hm, ha, hself]
          by_cases hmj : m = j
          · rw [hmj, Function.update_self, Block.word_setWord _ _ hj', hb32]
          · have hm' : 4 * m + 4 ≤ bsize := by
              simp only [nindirect, bsize] at hm ⊢
              omega
            rw [Function.update_of_ne (by simp; omega), refs_of_allocated hi',
              slot_indirect (ha ▸ ha0) hm, ha,
              Block.word_setWord_of_apart _ _ (by unfold Apart; omega) hm']
        · rw [slot_of_ge (by omega), Function.update_of_ne (by simp; omega), refs_of_allocated hi',
            slot_of_ge (by omega)]
    · have hslot : slot (s.allocEntry sb a j b).disk (ino i') l = slot s.disk (ino i') l := by
        apply slot_congr rfl
        intro hz
        rw [← slot_last (d := s.disk)] at hz ⊢
        exact allocEntry_disk_of_slot h L hi hb ha hfree hi' hz fun hc => hne hc.1
      rw [hslot, Function.update_of_ne (fun he => hne (Prod.mk.inj he).1), refs_of_allocated hi']
  · rw [refs_of_not_allocated hi', Function.update_of_ne (fun he => hi' (by cases he; exact hi)),
      refs_of_not_allocated hi']

/-- `a[j] = balloc(dev)` in the indirect block -/
theorem Volume.takeEntry (hfree : sb.bit s.disk b = false) (ha0 : a ≠ 0) (hj : j < nindirect)
    (hw : (s.disk a).word (4 * j) = 0) : Volume sb (s.allocEntry sb a j b).disk ino := by
  have hp : refs sb s.disk ino (i,ndirect + 1 + j) = 0 := by
    rw [refs_of_allocated hi, slot_indirect (ha ▸ ha0) hj, ha, hw]
  exact h.take L hp hb hfree (h.refs_takeEntry L hi hb ha hfree ha0 hj)
    (fun c hc => allocEntry_bit h L hi hb ha ha0 hc) fun _ h => ⟨h,rfl⟩

end Entry

end Take

end X86OsDev.Xv6.Fs
