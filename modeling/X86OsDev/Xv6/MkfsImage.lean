import X86OsDev.Xv6.FsWrite
import X86OsDev.Xv6.Mkfs

/-! # Images as disks of the kernel

`mkfs` has no free map until it ends, and hands out the blocks in order. The
image is compared with the disk that has the map as it would be written now:
there a block is found as `bmap` finds it, and what is known of that applies.
The comparison runs with a log that takes any number of blocks.
-/
namespace X86OsDev.Xv6.Mkfs
open Fault Memory Fs

theorem sb_layout : sb.Layout := Superblock.mkfs_layout

@[simp] theorem bblock_sb {b : ℕ} (hb : b < fssize) : sb.bblock b = 58 := by
  unfold Superblock.bblock sb nlog ninodeblocks ninodes
  simp only [bpb, bsize, ipb, logsize, maxopblocks, fssize] at *
  omega

theorem dataArea_sb {b : ℕ} : b ∈ dataArea sb ↔ nmeta ≤ b ∧ b < fssize := Iff.rfl

/-! ## The free map -/

theorem bitmap_succ (k : ℕ) : bitmap (k + 1) = (bitmap k).setBit k := by
  unfold bitmap
  rw [List.range_succ, List.foldl_append]
  rfl

theorem bit_zero (b : ℕ) : Block.zero.bit b = false := by
  have : load8 Block.zero.mem (b / 8) = 0 := by
    unfold load8 Block.mem Block.zero
    split <;> rfl
  unfold Block.bit
  rw [this, Nat.zero_testBit]

theorem bit_bitmap (k : ℕ) {b : ℕ} (hb : b < bpb) : (bitmap k).bit b = decide (b < k) := by
  induction k with
  | zero => exact (bit_zero b).trans (by simp)
  | succ k ih =>
    rw [bitmap_succ, Block.bit_setBit _ hb, ih, ← Bool.decide_or]
    exact decide_eq_decide.mpr (by omega)

/-- The disk as it is once the free map is written. -/
def Img.disk (m : Img) : ℕ → Block := Function.update m.sect sb.bmapstart (bitmap m.freeblock)

theorem Img.disk_of_ne (m : Img) {b : ℕ} (h : b ≠ 58) : m.disk b = m.sect b := Function.update_of_ne h _ _

theorem Img.bit_disk (m : Img) {b : ℕ} (hb : b < fssize) : sb.bit m.disk b = decide (b < m.freeblock) := by
  have hlt : b % bpb = b := Nat.mod_eq_of_lt (by simp only [fssize, bpb, bsize] at *; omega)
  unfold Superblock.bit
  rw [bblock_sb hb, hlt]
  refine Eq.trans ?_ (bit_bitmap m.freeblock (by simp only [fssize, bpb, bsize] at *; omega))
  exact congrArg (Block.bit · b) (Function.update_self _ _ _)

/-- The blocks that were not handed out yet are zero, and are on the disk. -/
structure Fresh (m : Img) : Prop where
  nsect : m.nsect = fssize
  ge : nmeta ≤ m.freeblock
  le : m.freeblock ≤ fssize
  zero : ∀ b, m.freeblock ≤ b → b < fssize → m.sect b = Block.zero

theorem Fresh.next {m : Img} (h : Fresh m) (hlt : m.freeblock < fssize) : Fresh { m with freeblock := m.freeblock + 1 } :=
  ⟨h.nsect,Nat.le_succ_of_le h.ge,hlt,fun b hb => h.zero b (Nat.le_of_succ_le hb)⟩

/-! ## The comparison -/

theorem ninode_pos : 0 < ninode := by decide

/-- The cache entry of the comparison. -/
def entry : Fin ninode := ⟨0,ninode_pos⟩

/-- A state of the kernel with the disk, and the inode that is worked on. -/
structure Shows (m : Img) (inum : ℕ) (din : Dinode) (t : Sys) : Prop where
  disk : t.disk = m.disk
  inum : (t.icache entry).inum = inum
  node : (t.icache entry).node = din
  long : logsize < t.log.n

theorem le_record_n (l : LogProtocol.Log) (b : ℕ) : l.n ≤ (l.record b).n := by
  unfold LogProtocol.Log.record
  split
  · exact le_rfl
  · simp [LogProtocol.Log.n]

/-- A log that is longer than it may be can take any number of blocks. -/
theorem logGrows_long {l : LogProtocol.Log} {b : ℕ} (hb : sb.inodestart ≤ b ∧ b < sb.size) (hl : logsize < l.n) :
    LogGrows sb l (l.record b) := by
  unfold LogProtocol.Log.record
  split
  · exact .refl l
  · exact ⟨⟨[b],rfl,by simpa using hb⟩,fun hn => absurd hn (by omega)⟩

section Alloc
variable {m : Img} {t : Sys} {b : ℕ}

theorem logGrows_alloc (hb : b ∈ dataArea sb) (hl : logsize < t.log.n) :
    LogGrows sb t.log (t.alloc sb b).log ∧ logsize < (t.alloc sb b).log.n := by
  have h1 := logGrows_long (isHome_bblock sb_layout hb.2) hl
  have h2 := hl.trans_le (le_record_n t.log (sb.bblock b))
  exact ⟨h1.trans (logGrows_long (isHome_dataArea sb_layout hb) h2),h2.trans_le (le_record_n _ _)⟩

/-- Handing out the next block is what `balloc` of the kernel does. -/
theorem alloc_disk (hF : Fresh m) (hlt : m.freeblock < fssize) (ht : t.disk = m.disk) :
    (t.alloc sb m.freeblock).disk = { m with freeblock := m.freeblock + 1 }.disk := by
  have hge := hF.ge
  have hmeta : nmeta = 59 := rfl
  have hmod : m.freeblock % bpb = m.freeblock := Nat.mod_eq_of_lt (by simp only [fssize, bpb, bsize] at *; omega)
  have hmap : m.disk 58 = bitmap m.freeblock := Function.update_self _ _ _
  unfold Sys.alloc
  rw [Sys.write_disk, Sys.write_disk, bblock_sb hlt, hmod, ht, hmap, ← bitmap_succ]
  funext c
  by_cases hc : c = m.freeblock
  · rw [hc, Function.update_self, Img.disk_of_ne _ (by omega), hF.zero _ le_rfl hlt]
  · rw [Function.update_of_ne hc]
    by_cases h58 : c = 58
    · rw [h58, Function.update_self]
      exact (Function.update_self 58 (bitmap (m.freeblock + 1)) m.sect).symm
    · rw [Function.update_of_ne h58, Img.disk_of_ne _ h58, Img.disk_of_ne _ h58]

theorem free_bit_disk (hlt : m.freeblock < fssize) (ht : t.disk = m.disk) : sb.bit t.disk m.freeblock = false := by
  rw [ht, m.bit_disk hlt]
  exact decide_eq_false (lt_irrefl _)

end Alloc

/-! ## Finding a block -/

/-- A block has been found for a reference of the inode: the comparison goes on, and no other reference changes. -/
structure Found (ino : ℕ → Dinode) (inum : ℕ) (t : Sys) (m' : Img) (din din' : Dinode) (t' : Sys) (changed : ℕ → Prop) :
    Prop where
  grown : Grown sb ino entry t t'
  shows : Shows m' inum din' t'
  fresh : Fresh m'
  same : ∀ l, ¬ changed l → slot t'.disk din' l = slot t.disk din l

section Find
variable {ino : ℕ → Dinode} {inum : ℕ} {m : Img} {din : Dinode} {t : Sys} (hF : Fresh m) (hS : Shows m inum din t)
  (hO : Open sb ino entry t)
include hF hS hO

theorem addrOf_found (k : Fin (ndirect + 1)) :
    ∃ din' a m', addrOf din k m = .ok ((din',a),m') ∧
      m' = { m with freeblock := m.freeblock + if din.addrs k = 0 then 1 else 0 } ∧ din'.addrs k = a ∧
      (fssize ≤ a ∧ fssize < m'.freeblock ∨ a < fssize ∧ a ≠ 0 ∧ (din.addrs k = 0 → m.sect a = Block.zero) ∧
        ∃ t', Found ino inum t m' din din' t' (· = k)) := by
  unfold addrOf
  by_cases hk : din.addrs k = 0
  · rw [if_pos hk]
    refine ⟨din.setAddr k m.freeblock,m.freeblock,_,rfl,by rw [if_pos hk],din.setAddr_self _ _,?_⟩
    by_cases hlt : m.freeblock < fssize
    · have hge := hF.ge
      have hb : m.freeblock ∈ dataArea sb := ⟨hge,hlt⟩
      have hfree := free_bit_disk hlt hS.disk
      obtain ⟨hlog,hlong⟩ := logGrows_alloc hb hS.long
      have hdisk := alloc_disk hF hlt hS.disk
      have hnode := hS.node
      have hg := hO.grown_addr sb_layout hb hfree hlog (k := k) (by rw [hnode, hk])
      rw [hnode] at hg
      have hmeta : nmeta = 59 := rfl
      refine .inr ⟨hlt,by omega,fun _ => hF.zero _ le_rfl hlt,_,hg,⟨hdisk,?_,?_,hlong⟩,hF.next hlt,fun l hl => ?_⟩
      · rw [Sys.withNode_icache_self]
        exact hS.inum
      · rw [Sys.withNode_icache_self]
      · rw [Sys.withNode_disk, slot_setAddr hk alloc_disk_self, if_neg hl]
        intro hne
        have hmem := hO.volume.slot_mem hO.allocated (k := ndirect)
        have hbit := hO.volume.bit_slot hO.allocated (k := ndirect)
        rw [view_self, hnode, slot_last] at hmem hbit
        exact alloc_disk_of_used sb_layout hb hfree (hmem hne) (hbit hne)
    · exact .inl ⟨by omega,by dsimp only; omega⟩
  · rw [if_neg hk]
    have hmem := hO.volume.slot_mem hO.allocated (k := k)
    rw [view_self, hS.node, slot_direct k.isLt] at hmem
    obtain ⟨-,hlt⟩ := hmem hk
    refine ⟨din,din.addrs k,m,rfl,by rw [if_neg hk]; rfl,rfl,.inr ⟨hlt,hk,fun hc => absurd hc hk,t,.refl hO.volume,hS,hF,
      fun _ _ => rfl⟩⟩

omit hF in
/-- A block that the inode refers to is below the next free one. -/
theorem Shows.slot_lt {l : ℕ} (hl : slot t.disk din l ≠ 0) :
    nmeta ≤ slot t.disk din l ∧ slot t.disk din l < m.freeblock ∧ slot t.disk din l < fssize := by
  have hmem := hO.volume.slot_mem hO.allocated (k := l)
  have hbit := hO.volume.bit_slot hO.allocated (k := l)
  rw [view_self, hS.node] at hmem hbit
  obtain ⟨h1,h2⟩ := hmem hl
  have h3 := hbit hl
  rw [hS.disk] at h2 h3
  rw [m.bit_disk h2, decide_eq_true_eq] at h3
  rw [← hS.disk] at h2 h3
  exact ⟨h1,h3,h2⟩

/-- The image after a block was handed out for a word of the indirect block. -/
def Img.addEntry (m : Img) (a j : ℕ) : Img :=
  { m with
    sect := Function.update m.sect a ((m.sect a).setWord (4 * j) m.freeblock)
    nsect := max m.nsect (a + 1)
    freeblock := m.freeblock + 1 }

theorem entry_found {a j : ℕ} (ha : din.addrs (Fin.last ndirect) = a) (ha0 : a ≠ 0) (hj : j < nindirect)
    (hw : (m.sect a).word (4 * j) = 0) (hlt : m.freeblock < fssize) :
    ∃ t', Found ino inum t (m.addEntry a j) din din t' (· = ndirect + 1 + j) ∧
      slot t'.disk din (ndirect + 1 + j) = m.freeblock ∧ (m.addEntry a j).sect m.freeblock = Block.zero := by
  have hslot : slot t.disk din ndirect = a := slot_last.trans ha
  have hbounds := hS.slot_lt hO (l := ndirect) (by rwa [hslot])
  rw [hslot] at hbounds
  obtain ⟨h1,h2,h3⟩ := hbounds
  have hmeta : nmeta = 59 := rfl
  have hb : m.freeblock ∈ dataArea sb := ⟨hF.ge,hlt⟩
  have hfree := free_bit_disk hlt hS.disk
  obtain ⟨hlog,hlong⟩ := logGrows_alloc hb hS.long
  have hda : t.disk a = m.sect a := by
    rw [hS.disk, m.disk_of_ne (by omega)]
  have hhome : a ∈ dataArea sb := ⟨h1,h3⟩
  have hlog' := hlog.trans (logGrows_long (isHome_dataArea sb_layout hhome) hlong)
  have hva : (view ino t entry (t.icache entry).inum).addrs (Fin.last ndirect) = a := by
    rw [view_self, hS.node, ha]
  have hg := hO.grown_entry sb_layout hb hfree hlog' hj (by rw [hS.node, ha]) ha0 (by rw [hda, hw])
  have hrefs := hO.volume.refs_takeEntry sb_layout hO.allocated hb hva hfree ha0 hj
  have hslots (l : ℕ) : slot (t.allocEntry sb a j m.freeblock).disk din l =
      if l = ndirect + 1 + j then m.freeblock else slot t.disk din l := by
    have := congrFun hrefs ((t.icache entry).inum,l)
    rw [refs_of_allocated hO.allocated, view_self, hS.node] at this
    rw [this]
    by_cases hl : l = ndirect + 1 + j
    · rw [hl, Function.update_self, if_pos rfl]
    · rw [Function.update_of_ne (fun hc => hl (Prod.mk.inj hc).2), refs_of_allocated hO.allocated, view_self, hS.node, if_neg hl]
  have hdisk : (t.allocEntry sb a j m.freeblock).disk = (m.addEntry a j).disk := by
    unfold Sys.allocEntry Img.disk Img.addEntry
    rw [Sys.write_disk, alloc_disk hF hlt hS.disk, hda]
    exact Function.update_comm (show sb.bmapstart ≠ a by change 58 ≠ a; omega) _ _ _
  refine ⟨_,⟨hg,⟨hdisk,hS.inum,hS.node,hlong.trans_le (le_record_n _ _)⟩,⟨?_,?_,hlt,fun b hb' hbs => ?_⟩,fun l hl => ?_⟩,?_,?_⟩
  · change max m.nsect (a + 1) = fssize
    rw [hF.nsect]
    omega
  · exact Nat.le_succ_of_le hF.ge
  · have hb'' : m.freeblock + 1 ≤ b := hb'
    exact (Function.update_of_ne (by omega) _ _).trans (hF.zero b (by omega) hbs)
  · rw [hslots, if_neg hl]
  · rw [hslots, if_pos rfl]
  · exact (Function.update_of_ne (by omega) _ _).trans (hF.zero _ le_rfl hlt)

/-- The blocks that are handed out when a block of the file is looked for. -/
def cost (d : ℕ → Block) (din : Dinode) (fbn : ℕ) : ℕ :=
  (if fbn < ndirect then 0 else if din.addrs (Fin.last ndirect) = 0 then 1 else 0) + if blockOf d din fbn = 0 then 1 else 0

omit hS hO in
theorem rsect_ok {b : ℕ} (hb : b < fssize) : rsect b m = .ok (m.sect b,m) := by
  unfold rsect
  rw [bind_ok get_ok, hF.nsect, if_pos hb, pure_ok]

omit hS hO in
theorem rsect_error {b : ℕ} (hb : fssize ≤ b) : rsect b m = .error .read := by
  unfold rsect
  rw [bind_ok get_ok, hF.nsect, if_neg (by omega), throw_error]

/-- The block for block `fbn` of the file is found, or the image is full. -/
theorem fileBlock_ends {fbn : ℕ} (hbn : fbn < maxfile) :
    Ends (fileBlock din fbn) m (fun _ => fssize < m.freeblock + cost t.disk din fbn) fun r m' =>
      m'.nsect = fssize ∧ (fssize ≤ r.2 ∧ fssize < m.freeblock + cost t.disk din fbn ∨
        r.2 < fssize ∧ r.2 ≠ 0 ∧ m'.freeblock = m.freeblock + cost t.disk din fbn ∧ m'.freeinode = m.freeinode ∧
          (blockOf t.disk din fbn = 0 → m'.sect r.2 = Block.zero) ∧
          ∃ t', Found ino inum t m' din r.1 t' (fun l => l = dataSlot fbn ∨ l = ndirect ∧ ¬ fbn < ndirect) ∧
            blockOf t'.disk r.1 fbn = r.2) := by
  unfold fileBlock cost
  by_cases hd : fbn < ndirect
  · rw [dif_pos hd, if_pos hd, Nat.zero_add, blockOf_direct hd]
    obtain ⟨din',a,m',hrun,rfl,ha,hcase⟩ := addrOf_found hF hS hO ⟨fbn,Nat.lt_succ_of_lt hd⟩
    refine (ends_of_ok hrun).mpr ⟨hF.nsect,?_⟩
    rcases hcase with h | ⟨hlt,ha0,hz,t',ht'⟩
    · exact .inl h
    · refine .inr ⟨hlt,ha0,rfl,rfl,hz,t',⟨ht'.grown,ht'.shows,ht'.fresh,fun l hl => ht'.same l ?_⟩,?_⟩
      · intro hc
        refine hl (.inl ?_)
        unfold dataSlot
        rw [if_pos hd]
        exact hc
      · rw [blockOf_direct hd, ha]
  · have hj : fbn - ndirect < nindirect := by
      simp only [maxfile] at hbn
      omega
    rw [dif_neg hd, if_neg hd]
    obtain ⟨din',a,m',hrun,rfl,ha,hcase⟩ := addrOf_found hF hS hO (Fin.last ndirect)
    refine .seq_ok hrun ?_
    dsimp only
    rcases hcase with ⟨hge,hfull⟩ | ⟨hlt,ha0,hz,t1,ht1⟩
    · have hbad : rsect a { m with freeblock := m.freeblock + if din.addrs (Fin.last ndirect) = 0 then 1 else 0 } = .error .read := by
        unfold rsect
        rw [bind_ok get_ok, hF.nsect, if_neg (by omega), throw_error]
      refine (ends_of_error (bind_error hbad)).mpr ?_
      dsimp only at hfull
      omega
    generalize hm1 : { m with freeblock := m.freeblock + if din.addrs (Fin.last ndirect) = 0 then 1 else 0 } = m1 at ht1
    have hfb : m1.freeblock = m.freeblock + if din.addrs (Fin.last ndirect) = 0 then 1 else 0 := by rw [← hm1]
    have hsect : m1.sect = m.sect := by rw [← hm1]
    have hino : m1.freeinode = m.freeinode := by rw [← hm1]
    have hO1 := hO.grown ht1.grown
    have hslot : slot t1.disk din' ndirect = a := slot_last.trans ha
    have hbounds := ht1.shows.slot_lt hO1 (l := ndirect) (by rwa [hslot])
    rw [hslot] at hbounds
    have hmeta : nmeta = 59 := rfl
    have hda : t1.disk a = m1.sect a := by
      rw [ht1.shows.disk, m1.disk_of_ne (by omega)]
    -- the word of the indirect block is the reference that the inode had
    have hword : blockOf t.disk din fbn = (m1.sect a).word (4 * (fbn - ndirect)) := by
      have hsame : blockOf t1.disk din' fbn = blockOf t.disk din fbn := ht1.same _ (dataSlot_ne_last fbn)
      rw [← hsame, blockOf_indirect hd hj (ha.symm ▸ ha0), ha, hda]
    refine .seq_ok (rsect_ok ht1.fresh hlt) ?_
    rw [hword]
    have hchanged {l : ℕ} (hl : ¬ (l = dataSlot fbn ∨ l = ndirect ∧ ¬ fbn < ndirect)) :
        l ≠ ndirect + 1 + (fbn - ndirect) ∧ l ≠ ndirect := by
      rw [← dataSlot_of_ge hd]
      exact ⟨fun hc => hl (.inl hc),fun hc => hl (.inr ⟨hc,hd⟩)⟩
    by_cases hw : (m1.sect a).word (4 * (fbn - ndirect)) = 0
    · rw [if_pos hw, if_pos hw]
      have hrun1 : (do
          let b ← nextBlock
          wsect a ((m1.sect a).setWord (4 * (fbn - ndirect)) b)
          return (din',b) : Mk (Dinode × ℕ)) m1 = .ok ((din',m1.freeblock),m1.addEntry a (fbn - ndirect)) := rfl
      refine (ends_of_ok hrun1).mpr ⟨?_,?_⟩
      · change max m1.nsect (a + 1) = fssize
        rw [ht1.fresh.nsect]
        omega
      by_cases hroom : m1.freeblock < fssize
      · obtain ⟨t',ht',hs,hzero⟩ := entry_found ht1.fresh ht1.shows hO1 ha ha0 hj hw hroom
        have hge := ht1.fresh.ge
        refine .inr ⟨hroom,by dsimp only; omega,?_,hino,fun _ => hzero,t',⟨ht1.grown.trans ht'.grown,ht'.shows,ht'.fresh,
          fun l hl => ?_⟩,?_⟩
        · change m1.freeblock + 1 = _
          rw [hfb]
          omega
        · rw [ht'.same l (hchanged hl).1, ht1.same l (hchanged hl).2]
        · unfold blockOf
          rw [dataSlot_of_ge hd, hs]
      · exact .inl ⟨by dsimp only; omega,by rw [hfb] at hroom; omega⟩
    · rw [if_neg hw, if_neg hw]
      have hne : slot t1.disk din' (dataSlot fbn) ≠ 0 := by
        have hsame : blockOf t1.disk din' fbn = blockOf t.disk din fbn := ht1.same _ (dataSlot_ne_last fbn)
        change blockOf t1.disk din' fbn ≠ 0
        rw [hsame, hword]
        exact hw
      have hval : blockOf t1.disk din' fbn = (m1.sect a).word (4 * (fbn - ndirect)) := by
        rw [← hword]
        exact ht1.same _ (dataSlot_ne_last fbn)
      obtain ⟨-,-,hlt'⟩ := ht1.shows.slot_lt hO1 hne
      refine ⟨ht1.fresh.nsect,.inr ⟨?_,hw,by rw [hfb]; rfl,hino,fun hc => absurd hc hw,t1,⟨ht1.grown,ht1.shows,ht1.fresh,
        fun l hl => ht1.same l (hchanged hl).2⟩,hval⟩⟩
      rw [← hval]
      exact hlt'

end Find

end X86OsDev.Xv6.Mkfs
