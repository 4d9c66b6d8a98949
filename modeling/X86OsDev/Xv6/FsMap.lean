import X86OsDev.Xv6.FsAlloc

/-! # Mapping the blocks of an inode (`bmap`)

`bmap` works on the copy of the inode in the cache, so ownership is stated over
the inode table with that copy in place of the disk's. It finds the block that
is there and leaves everything as it is, or adds one; either way the blocks
mapped before, of this inode and of the others, keep their place and content.
-/
namespace X86OsDev.Xv6.Fs
open Fault Memory Ownership
variable {sb : Superblock}

/-- The inode table with the copy in a cache entry in place of its own. -/
def view (ino : ℕ → Dinode) (s : Sys) (ip : Fin ninode) : ℕ → Dinode :=
  Function.update ino (s.icache ip).inum (s.icache ip).node

/-- The state with another copy of the inode in a cache entry. -/
def Sys.withNode (s : Sys) (ip : Fin ninode) (n : Dinode) : Sys :=
  { s with icache := Function.update s.icache ip { s.icache ip with node := n } }

section WithNode
variable (s : Sys) (ip : Fin ninode) (n : Dinode)

@[simp] theorem Sys.withNode_disk : (s.withNode ip n).disk = s.disk := rfl
@[simp] theorem Sys.withNode_busy : (s.withNode ip n).busy = s.busy := rfl
@[simp] theorem Sys.withNode_log : (s.withNode ip n).log = s.log := rfl
@[simp] theorem Sys.withNode_file : (s.withNode ip n).file = s.file := rfl
@[simp] theorem Sys.withNode_proc : (s.withNode ip n).proc = s.proc := rfl
@[simp] theorem Sys.withNode_console : (s.withNode ip n).console = s.console := rfl
@[simp] theorem Sys.withNode_icache_self :
    (s.withNode ip n).icache ip = { s.icache ip with node := n } := Function.update_self ..

theorem setNode_ok (g : Dinode → Dinode) :
    setNode ip g s = .ok ((),s.withNode ip (g (s.icache ip).node)) := rfl

theorem Sys.withNode_node : s.withNode ip (s.icache ip).node = s := by
  unfold Sys.withNode
  simp

theorem view_withNode (ino : ℕ → Dinode) :
    view ino (s.withNode ip n) ip = Function.update (view ino s ip) (s.icache ip).inum n := by
  unfold view
  rw [Sys.withNode_icache_self, Function.update_idem]

theorem view_self (ino : ℕ → Dinode) : view ino s ip (s.icache ip).inum = (s.icache ip).node :=
  Function.update_self ..

theorem view_of_ne (ino : ℕ → Dinode) {j : ℕ} (h : j ≠ (s.icache ip).inum) : view ino s ip j = ino j :=
  Function.update_of_ne h ..

end WithNode

/-- Work on the content of an inode changes blocks from the free map on, the log, and the
addresses in the inode's cache entry. -/
structure Edited (sb : Superblock) (ip : Fin ninode) (s t : Sys) : Prop where
  busy : t.busy = s.busy
  file : t.file = s.file
  proc : t.proc = s.proc
  console : t.console = s.console
  log : LogGrows sb s.log t.log
  icache : ∃ a, t.icache = (s.withNode ip { (s.icache ip).node with addrs := a }).icache
  fits : (s.icache ip).node.Fits → (t.icache ip).node.Fits
  inodes : ∀ c < sb.bmapstart, t.disk c = s.disk c

section Edited
variable {ip : Fin ninode} {s t u : Sys}

theorem Edited.refl : Edited sb ip s s :=
  ⟨rfl,rfl,rfl,rfl,.refl _,⟨_,congrArg Sys.icache (s.withNode_node ip).symm⟩,id,fun _ _ => rfl⟩

theorem Edited.inum (h : Edited sb ip s t) : (t.icache ip).inum = (s.icache ip).inum := by
  obtain ⟨a,ha⟩ := h.icache
  rw [ha, Sys.withNode_icache_self]

theorem Edited.type (h : Edited sb ip s t) : (t.icache ip).node.type = (s.icache ip).node.type := by
  obtain ⟨a,ha⟩ := h.icache
  rw [ha, Sys.withNode_icache_self]

theorem Edited.size (h : Edited sb ip s t) : (t.icache ip).node.size = (s.icache ip).node.size := by
  obtain ⟨a,ha⟩ := h.icache
  rw [ha, Sys.withNode_icache_self]

theorem Edited.trans (h : Edited sb ip s t) (h' : Edited sb ip t u) : Edited sb ip s u where
  busy := h'.busy.trans h.busy
  file := h'.file.trans h.file
  proc := h'.proc.trans h.proc
  console := h'.console.trans h.console
  log := h.log.trans h'.log
  icache := by
    obtain ⟨a,ha⟩ := h.icache
    obtain ⟨b,hb⟩ := h'.icache
    refine ⟨b,?_⟩
    rw [hb]
    unfold Sys.withNode
    rw [ha]
    simp [Sys.withNode]
  fits hf := h'.fits (h.fits hf)
  inodes c hc := (h'.inodes c hc).trans (h.inodes c hc)

end Edited

/-- The blocks mapped in `s` are mapped alike in `t` and have the same content. -/
structure Grown (sb : Superblock) (ino : ℕ → Dinode) (ip : Fin ninode) (s t : Sys) : Prop where
  edited : Edited sb ip s t
  volume : Volume sb t.disk (view ino t ip)
  keeps : ∀ bn, blockOf s.disk (s.icache ip).node bn ≠ 0 →
    blockOf t.disk (t.icache ip).node bn = blockOf s.disk (s.icache ip).node bn ∧
      t.disk (blockOf s.disk (s.icache ip).node bn) = s.disk (blockOf s.disk (s.icache ip).node bn)
  others : ∀ j ≠ (s.icache ip).inum, IsAllocated sb ino j → Untouched s.disk t.disk (ino j)

section Grown
variable {ino : ℕ → Dinode} {ip : Fin ninode} {s t u : Sys}

theorem Grown.refl (h : Volume sb s.disk (view ino s ip)) : Grown sb ino ip s s :=
  ⟨.refl,h,fun _ _ => ⟨rfl,rfl⟩,fun _ _ _ => .refl⟩

theorem Grown.trans (h : Grown sb ino ip s t) (h' : Grown sb ino ip t u) : Grown sb ino ip s u where
  edited := h.edited.trans h'.edited
  volume := h'.volume
  keeps bn hbn := by
    obtain ⟨h1,h2⟩ := h.keeps bn hbn
    obtain ⟨h3,h4⟩ := h'.keeps bn (h1 ▸ hbn)
    rw [h1] at h3 h4
    exact ⟨h3,h4.trans h2⟩
  others j hj ha := (h.others j hj ha).trans (h'.others j (h.edited.inum ▸ hj) ha)

/-- An inode is open for work on its content through a cache entry. -/
structure Open (sb : Superblock) (ino : ℕ → Dinode) (ip : Fin ninode) (s : Sys) : Prop where
  volume : Volume sb s.disk (view ino s ip)
  inum : (s.icache ip).inum < sb.ninodes
  type : (s.icache ip).node.type ≠ 0
  busy : s.busy = []

theorem Open.allocated (h : Open sb ino ip s) :
    IsAllocated sb (view ino s ip) (s.icache ip).inum := by
  refine ⟨h.inum,?_⟩
  rw [view_self]
  exact h.type

theorem Open.allocated_of_ne {j : ℕ} (hj : j ≠ (s.icache ip).inum) :
    IsAllocated sb (view ino s ip) j ↔ IsAllocated sb ino j := by
  unfold IsAllocated
  rw [view_of_ne _ _ _ hj]

theorem Open.grown (h : Open sb ino ip s) (hg : Grown sb ino ip s t) : Open sb ino ip t where
  volume := hg.volume
  inum := hg.edited.inum ▸ h.inum
  type := hg.edited.type ▸ h.type
  busy := hg.edited.busy.trans h.busy

/-- A mapped block stays where it is when a null reference takes a block. -/
theorem blockOf_of_take {d d' : ℕ → Block} {ino ino' : ℕ → Dinode} {p : ℕ × ℕ} {b i m : ℕ}
    (hrefs : refs sb d' ino' = Function.update (refs sb d ino) p b) (hp : refs sb d ino p = 0)
    (hi : IsAllocated sb ino i) (hi' : IsAllocated sb ino' i) (hm : blockOf d (ino i) m ≠ 0) :
    blockOf d' (ino' i) m = blockOf d (ino i) m := by
  unfold blockOf at hm ⊢
  rw [← refs_of_allocated hi] at hm ⊢
  rw [← refs_of_allocated hi', hrefs, Function.update_of_ne]
  rintro rfl
  exact hm hp

section Taking
variable {b : ℕ} (L : sb.Layout) (h : Open sb ino ip s) (hb : b ∈ dataArea sb)
  (hfree : sb.bit s.disk b = false)
include L h hb hfree

theorem Open.alloc_disk_blockOf {bn : ℕ} (hbn : blockOf s.disk (s.icache ip).node bn ≠ 0) :
    (s.alloc sb b).disk (blockOf s.disk (s.icache ip).node bn) =
      s.disk (blockOf s.disk (s.icache ip).node bn) := by
  have hmem := h.volume.slot_mem h.allocated (k := dataSlot bn)
  have hbit := h.volume.bit_slot h.allocated (k := dataSlot bn)
  rw [view_self] at hmem hbit
  exact alloc_disk_of_used L hb hfree (hmem hbn) (hbit hbn)

/-- `ip->addrs[k] = balloc(dev)` -/
theorem Open.grown_addr (hlog : LogGrows sb s.log (s.alloc sb b).log) {k : Fin (ndirect + 1)}
    (hk : (s.icache ip).node.addrs k = 0) :
    Grown sb ino ip s ((s.alloc sb b).withNode ip ((s.icache ip).node.setAddr k b)) := by
  have hk' : (view ino s ip (s.icache ip).inum).addrs k = 0 := by rw [view_self, hk]
  have hview : view ino ((s.alloc sb b).withNode ip ((s.icache ip).node.setAddr k b)) ip =
      Function.update (view ino s ip) (s.icache ip).inum
        ((view ino s ip (s.icache ip).inum).setAddr k b) := by
    rw [view_self]
    exact view_withNode (s.alloc sb b) ip _ ino
  have hvol := h.volume.takeAddr L h.allocated hb hfree hk'
  have hrefs := h.volume.refs_takeAddr L h.allocated hb hfree hk'
  rw [← hview] at hvol hrefs
  refine ⟨⟨rfl,rfl,rfl,rfl,hlog,⟨_,rfl⟩,fun hf => ?_,fun c hc => ?_⟩,hvol,fun bn hbn => ?_,
    fun j hj ha => ?_⟩
  · rw [Sys.withNode_icache_self]
    refine hf.setAddr k ?_
    have := dataArea_lt_fssize L hb
    simp only [fssize] at this
    omega
  · have h1 := @bblock_ge sb b
    have h2 := bmapstart_lt L
    have h3 := hb.1
    exact alloc_disk_of_ne (by omega) (by omega)
  · refine ⟨?_,h.alloc_disk_blockOf L hb hfree hbn⟩
    have hp : refs sb s.disk (view ino s ip) ((s.icache ip).inum,k.val) = 0 := by
      rw [refs_of_allocated h.allocated, slot_direct k.isLt, hk']
    have hi' : IsAllocated sb (view ino ((s.alloc sb b).withNode ip
        ((s.icache ip).node.setAddr k b)) ip) (s.icache ip).inum := by
      rw [hview, isAllocated_update (by rfl)]
      exact h.allocated
    have := blockOf_of_take hrefs hp h.allocated hi' (m := bn) (by rwa [view_self])
    rw [view_self, hview, Function.update_self, view_self] at this
    rwa [Sys.withNode_icache_self]
  · rw [← Open.allocated_of_ne hj] at ha
    have := h.volume.untouched_of_used ha fun c hc hu => alloc_disk_of_used L hb hfree hc hu
    rwa [view_of_ne _ _ _ hj] at this

/-- `a[j] = balloc(dev)` in the indirect block -/
theorem Open.grown_entry {a j : ℕ} (hlog : LogGrows sb s.log (s.allocEntry sb a j b).log)
    (hj : j < nindirect) (ha : (s.icache ip).node.addrs (Fin.last ndirect) = a) (ha0 : a ≠ 0)
    (hw : (s.disk a).word (4 * j) = 0) : Grown sb ino ip s (s.allocEntry sb a j b) := by
  have ha' : (view ino s ip (s.icache ip).inum).addrs (Fin.last ndirect) = a := by rw [view_self, ha]
  have hmem : a ∈ dataArea sb := by
    have := h.volume.slot_mem h.allocated (k := ndirect)
    rw [slot_last, ha'] at this
    exact this ha0
  have hrefs := h.volume.refs_takeEntry L h.allocated hb ha' hfree ha0 hj
  have hvol := h.volume.takeEntry L h.allocated hb ha' hfree ha0 hj hw
  refine ⟨⟨rfl,rfl,rfl,rfl,hlog,(@Edited.refl sb ip s).icache,id,fun c hc => ?_⟩,hvol,
    fun bn hbn => ?_,fun i hi hall => ?_⟩
  · have h1 := @bblock_ge sb b
    have h2 := bmapstart_lt L
    have h3 := hb.1
    have h4 := hmem.1
    unfold Sys.allocEntry
    rw [Sys.write_disk, Function.update_of_ne (by omega)]
    exact alloc_disk_of_ne (by omega) (by omega)
  · have hp : refs sb s.disk (view ino s ip) ((s.icache ip).inum,ndirect + 1 + j) = 0 := by
      rw [refs_of_allocated h.allocated, slot_indirect (ha' ▸ ha0) hj, ha', hw]
    have h1 := blockOf_of_take hrefs hp h.allocated h.allocated (m := bn) (by rwa [view_self])
    have h2 := allocEntry_disk_of_slot h.volume L h.allocated hb ha' (j := j) hfree h.allocated
      (l := dataSlot bn)
    rw [view_self] at h1 h2
    exact ⟨h1,h2 hbn fun hc => dataSlot_ne_last bn hc.2⟩
  · rw [← Open.allocated_of_ne hi] at hall
    intro l hl
    have := allocEntry_disk_of_slot h.volume L h.allocated hb ha' (j := j) hfree hall (l := l)
    rw [view_of_ne _ _ _ hi] at this
    exact this hl fun hc => hi hc.1

end Taking

/-! ## `bmap` -/

theorem addrOf_mapped {k : Fin (ndirect + 1)} (hk : (s.icache ip).node.addrs k ≠ 0) :
    addrOf sb ip k s = .ok ((s.icache ip).node.addrs k,s) := by
  unfold addrOf
  rw [bind_ok get_ok, if_neg hk]
  rfl

/-- What a read needs of an inode: no buffer is held, and its blocks are on the disk. -/
structure Readable (ip : Fin ninode) (s : Sys) : Prop where
  busy : s.busy = []
  below : ∀ k, slot s.disk (s.icache ip).node k ≠ 0 → slot s.disk (s.icache ip).node k < fssize

theorem Open.readable (h : Open sb ino ip s) (L : sb.Layout) : Readable ip s := by
  refine ⟨h.busy,fun k hk => ?_⟩
  have hmem := h.volume.slot_mem h.allocated (k := k)
  rw [view_self] at hmem
  exact dataArea_lt_fssize L (hmem hk)

/-- `bmap` of a block that is mapped changes nothing. -/
theorem bmap_mapped (h : Readable ip s) {bn : ℕ} (hbn : blockOf s.disk (s.icache ip).node bn ≠ 0) :
    bmap sb ip bn s = .ok (blockOf s.disk (s.icache ip).node bn,s) := by
  unfold bmap
  by_cases hd : bn < ndirect
  · rw [dif_pos hd]
    rw [blockOf_direct hd] at hbn ⊢
    exact addrOf_mapped hbn
  · have hlt : bn < maxfile := by
      by_contra hc
      exact hbn (blockOf_of_ge (not_lt.mp hc))
    have hj : bn - ndirect < nindirect := by
      simp only [maxfile] at hlt
      omega
    have ha : (s.icache ip).node.addrs (Fin.last ndirect) ≠ 0 := by
      intro ha
      refine hbn ?_
      unfold blockOf
      rw [dataSlot_of_ge hd]
      exact slot_of_no_indirect (by omega) ha
    have hbelow := h.below ndirect
    rw [slot_last] at hbelow
    rw [blockOf_indirect hd hj ha] at hbn ⊢
    rw [dif_neg hd, if_pos hj, bind_ok (addrOf_mapped ha), bind_ok (bread_ok (hbelow ha) (by simp [h.busy])), if_neg hbn,
      bind_ok brelse_hold, pure_ok]

section Run
variable {E : Stop → Prop} (L : sb.Layout) (hfull : E (.panic .tooBig)) (hout : E (.panic .balloc))
  (h : Open sb ino ip s) (ho : 1 ≤ s.log.outstanding)
include L hfull hout h ho

theorem addrOf_ends (k : Fin (ndirect + 1)) :
    Ends (addrOf sb ip k) s E fun b t =>
      Grown sb ino ip s t ∧ (t.icache ip).node.addrs k = b ∧ b ≠ 0 := by
  by_cases hk : (s.icache ip).node.addrs k = 0
  · unfold addrOf
    refine .seq_ok get_ok ?_
    rw [if_pos hk]
    refine .seq (balloc_ends L hfull hout ho h.volume.metadata (by simp [BusyInUse, h.busy])) ?_
    rintro b _ ⟨rfl,hb,hfree,hlog⟩
    refine .seq_ok (setNode_ok _ _ _) ?_
    refine ⟨h.grown_addr L hb hfree hlog hk,?_,?_⟩
    · rw [Sys.withNode_icache_self]
      exact Dinode.setAddr_self _ _ _
    · rintro rfl
      exact zero_notMem_dataArea L hb
  · exact (ends_of_ok (addrOf_mapped hk)).mpr ⟨.refl h.volume,rfl,hk⟩

theorem bmap_ends {bn : ℕ} (hbn : bn < maxfile) :
    Ends (bmap sb ip bn) s E fun b t =>
      Grown sb ino ip s t ∧ blockOf t.disk (t.icache ip).node bn = b ∧ b ≠ 0 := by
  unfold bmap
  by_cases hd : bn < ndirect
  · rw [dif_pos hd]
    refine (addrOf_ends L hfull hout h ho ⟨bn,Nat.lt_succ_of_lt hd⟩).imp ?_
    rintro b t ⟨hg,hb,hb0⟩
    refine ⟨hg,?_,hb0⟩
    rw [blockOf_direct hd, hb]
  · have hj : bn - ndirect < nindirect := by
      simp only [maxfile] at hbn
      omega
    rw [dif_neg hd, if_pos hj]
    refine .seq (addrOf_ends L hfull hout h ho (Fin.last ndirect)) ?_
    rintro a t ⟨hg,ha,ha0⟩
    have ht := h.grown hg
    have hmem : a ∈ dataArea sb := by
      have := ht.volume.slot_mem ht.allocated (k := ndirect)
      rw [slot_last, view_self, ha] at this
      exact this ha0
    have hbit : sb.bit t.disk a = true := by
      have := ht.volume.bit_slot ht.allocated (k := ndirect)
      rw [slot_last, view_self, ha] at this
      exact this ha0
    refine .seq_ok (bread_ok (dataArea_lt_fssize L hmem) (by simp [ht.busy])) ?_
    by_cases hw : (t.disk a).word (4 * (bn - ndirect)) = 0
    · rw [if_pos hw]
      refine .seq (balloc_ends L hfull hout (hg.edited.log.outstanding ▸ ho) ht.volume.metadata ?_) ?_
      · intro c hc
        simp only [Sys.hold_busy, ht.busy, List.mem_singleton] at hc
        rw [hc]
        exact ⟨hmem.1,hmem.2,hbit⟩
      rintro b _ ⟨rfl,hb,hfree,hlog⟩
      have hho : 1 ≤ (t.alloc sb b).log.outstanding := by
        have h1 := hlog.outstanding
        have h2 := hg.edited.log.outstanding
        rw [show (t.alloc sb b).log = ((t.hold a).alloc sb b).log from rfl, h1]
        exact h2 ▸ ho
      refine .bind (bupdate_ends (s := t.alloc sb b) hfull hho (isHome_dataArea L hmem) fun hlog' => ?_)
      have hg' := ht.grown_entry L hb hfree (hlog.trans hlog') hj ha ha0 hw
      refine ⟨hg.trans hg',?_,?_⟩
      · have hb32 : b < 2 ^ 32 := by
          have := dataArea_lt_fssize L hb
          simp only [fssize] at this
          omega
        have hj' : 4 * (bn - ndirect) + 4 ≤ bsize := by
          simp only [nindirect, bsize] at hj ⊢
          omega
        rw [blockOf_indirect hd hj (ha ▸ ha0)]
        change ((t.allocEntry sb a (bn - ndirect) b).disk ((t.icache ip).node.addrs (Fin.last ndirect))).word _ = _
        rw [ha, Sys.allocEntry, Sys.write_disk, Function.update_self, Block.word_setWord _ _ hj',
          Nat.mod_eq_of_lt hb32]
      · rintro rfl
        exact zero_notMem_dataArea L hb
    · rw [if_neg hw]
      refine .seq_ok brelse_hold ?_
      refine ⟨hg,?_,hw⟩
      rw [blockOf_indirect hd hj (ha ▸ ha0), ha]

end Run

end Grown

end X86OsDev.Xv6.Fs
