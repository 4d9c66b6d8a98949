import X86OsDev.Xv6.DirMap

/-! # The kernel reads what `mkfs` has written

`dirlookup` in the root directory of an image finds the files, and `readi` their
bytes. If the last block of the root directory is full, its size covers a block
that it does not have: a lookup that gets there takes a block for it, and stops the
kernel if none is left.
-/
namespace X86OsDev.Xv6.Mkfs
open Fault Memory Fs SlotTable

/-! ## `balloc` on an image -/

section Balloc
variable {blk : Block} {b c bi n : ℕ}

theorem freeBit_first (hc : blk.bit c = false) (hlt : b + c < sb.size) (hset : ∀ j < c, blk.bit j = true) :
    bi ≤ c → c < bi + n → freeBit sb blk b n bi = some c := by
  induction n generalizing bi with
  | zero =>
    intro h1 h2
    omega
  | succ n ih =>
    intro h1 h2
    rw [freeBit, if_pos (by omega)]
    by_cases hbi : bi = c
    · rw [hbi, if_pos hc]
    · rw [hset bi (by omega), if_neg (by decide)]
      exact ih (by omega) (by omega)

theorem freeBit_none (hset : ∀ j, b + j < sb.size → blk.bit j = true) : freeBit sb blk b n bi = none := by
  induction n generalizing bi with
  | zero => rfl
  | succ n ih =>
    rw [freeBit]
    by_cases hlt : b + bi < sb.size
    · rw [if_pos hlt, hset bi hlt, if_neg (by decide)]
      exact ih
    · rw [if_neg hlt]

variable {s : Sys} {data : Block}

theorem bupdate_ok (hfull : s.log.isFull = false) (ho : 1 ≤ s.log.outstanding) :
    bupdate b data (s.hold b) = .ok ((),s.write b data) := by
  have hlog {t : Sys} (ht : t.log = s.log) : logWrite b t = .ok ((),{ t with log := t.log.record b }) := by
    rw [logWrite, bind_ok get_ok, ht, hfull, if_neg (by decide), if_neg (not_lt.mpr ho)]
    rfl
  rw [bupdate, putData, bind_ok (modify_ok _)]
  exact (bind_ok (hlog (t := { s.hold b with disk := Function.update s.disk b data }) rfl)).trans (brelse_hold (s := s.write b data))

theorem isFull_of_room (h : ¬ FullWithin s.log 1) : s.log.isFull = false ∧ (s.log.record b).isFull = false := by
  have hsize := record_size s.log b
  have hn := record_n_le s.log b
  unfold FullWithin at h
  unfold LogProtocol.Log.isFull
  rw [hsize]
  simp only [Bool.or_eq_false_iff, decide_eq_false_iff_not]
  omega

variable (hbits : ∀ c < fssize, sb.bit s.disk c = decide (c < b))
include hbits

theorem map_bit {c : ℕ} (hc : c < fssize) : (s.disk (sb.bblock 0)).bit c = decide (c < b) := by
  have hbit := hbits c hc
  have hmod : c % bpb = c := Nat.mod_eq_of_lt (by simp only [fssize, bpb, bsize] at *; omega)
  rw [Superblock.bit, bblock_sb hc, hmod] at hbit
  rwa [bblock_sb (by decide)]

variable (hbusy : s.busy = [])
include hbusy

theorem balloc_first (hb : b < fssize) (ho : 1 ≤ s.log.outstanding) (hroom : ¬ FullWithin s.log 1) :
    Fs.balloc sb s = .ok (b,s.alloc sb b) := by
  have hfind : freeBit sb (s.disk (sb.bblock 0)) 0 bpb 0 = some b := by
    refine freeBit_first ?_ ?_ ?_ (Nat.zero_le _) ?_
    · rw [map_bit hbits hb]
      simp
    · rw [Nat.zero_add]
      exact hb
    · intro j hj
      rw [map_bit hbits (hj.trans hb)]
      exact decide_eq_true hj
    · simp only [fssize, bpb, bsize] at *
      omega
  obtain ⟨hfull,hfull'⟩ := isFull_of_room (b := sb.bblock 0) hroom
  have hmod : b % bpb = b := Nat.mod_eq_of_lt (by simp only [fssize, bpb, bsize] at *; omega)
  have hblk : sb.bblock b = sb.bblock 0 := by rw [bblock_sb hb, bblock_sb (by decide)]
  have hmap : bread (sb.bblock 0) s = .ok (s.disk (sb.bblock 0),s.hold (sb.bblock 0)) :=
    bread_ok (by rw [bblock_sb (by decide)]; decide) (by simp [hbusy])
  have hset : bupdate (sb.bblock 0) ((s.disk (sb.bblock 0)).setBit b) (s.hold (sb.bblock 0)) = .ok ((),_) := bupdate_ok hfull ho
  have hread : bread b (s.write (sb.bblock 0) ((s.disk (sb.bblock 0)).setBit b)) = .ok (_,_) :=
    bread_ok hb (by rw [Sys.write_busy, hbusy]; exact List.not_mem_nil)
  have hzero : bzero b (s.write (sb.bblock 0) ((s.disk (sb.bblock 0)).setBit b)) = .ok ((),s.alloc sb b) := by
    rw [bzero, bind_ok hread, bupdate_ok hfull' (by rw [Sys.write_log, record_outstanding]; exact ho), Sys.alloc, hblk, hmod]
  rw [Fs.balloc, ballocLoop, if_pos (by decide), bind_ok hmap, hfind]
  dsimp only
  rw [bind_ok hset, Nat.zero_add, bind_ok hzero]
  rfl

theorem balloc_full (hb : b = fssize) : Fs.balloc sb s = .error (.panic .balloc) := by
  have hfind : freeBit sb (s.disk (sb.bblock 0)) 0 bpb 0 = none := by
    refine freeBit_none fun j hj => ?_
    have hlt : j < fssize := by
      rw [Nat.zero_add] at hj
      exact hj
    rw [map_bit hbits hlt, hb]
    exact decide_eq_true hlt
  have hmap : bread (sb.bblock 0) s = .ok (s.disk (sb.bblock 0),s.hold (sb.bblock 0)) :=
    bread_ok (by rw [bblock_sb (by decide)]; decide) (by simp [hbusy])
  rw [Fs.balloc, ballocLoop, if_pos (by decide), bind_ok hmap, hfind]
  dsimp only
  rw [bind_ok brelse_hold]
  rfl

end Balloc

/-! ## Inodes of the image in the kernel -/

/-- An inode of the image is locked inside a transaction, and the log has room for two blocks. -/
structure OnImage (img : Img) (me : Fin nproc) (ip : Fin ninode) (i : ℕ) (s : Sys) : Prop where
  disk : s.disk = img.sect
  busy : s.busy = []
  locked : Locked sb me ip s
  inum : (s.icache ip).inum = i
  outstanding : 1 ≤ s.log.outstanding
  room : ¬ FullWithin s.log 1

theorem length_rootSlots (files : List HostFile) : (rootSlots files).length = files.length + 2 := by
  rw [rootSlots, List.length_append, length_fileSlots, Nat.add_comm]
  rfl

section Kernel
variable {files : List HostFile} {m img : Img} (h : Final files m img) {me : Fin nproc} {ip : Fin ninode} {i : ℕ} {s : Sys}

theorem OnImage.node (hs : OnImage img me ip i s) : (s.icache ip).node = sb.dinode img.sect i := by
  rw [hs.locked.node, hs.disk, hs.inum]

include h

theorem Final.root_kind : (sb.dinode img.sect rootino).type = tDir := by
  have hall := h.used h.used_root
  have hkind := h.built.kind rootino hall.1
  rw [if_pos (h.built.allocated.mp hall), if_pos rfl] at hkind
  rw [h.root]
  exact hkind

theorem Final.slot_below (hi : img.Used i) {k : ℕ} (hk : Fs.slot img.sect (sb.dinode img.sect i) k ≠ 0) :
    nmeta ≤ Fs.slot img.sect (sb.dinode img.sect i) k ∧ Fs.slot img.sect (sb.dinode img.sect i) k < m.freeblock := by
  rw [h.slot hi] at hk ⊢
  have hmem := h.built.consistent.slot_mem (h.used hi) hk
  have hbit := h.built.consistent.bit_slot (h.used hi) hk
  rw [m.bit_disk (dataArea_sb.mp hmem).2] at hbit
  exact ⟨(dataArea_sb.mp hmem).1,of_decide_eq_true hbit⟩

theorem Final.freeblock_le : m.freeblock ≤ fssize := h.built.fresh.le

theorem Final.bits {c : ℕ} (hc : c < fssize) : sb.bit img.sect c = decide (c < m.freeblock) := by
  have hbit := m.bit_disk hc
  rw [Superblock.bit] at hbit ⊢
  rwa [h.data (bblock_ge c)]

theorem OnImage.readable (hs : OnImage img me ip i s) (hi : img.Used i) : Readable ip s := by
  refine ⟨hs.busy,fun k hk => ?_⟩
  rw [hs.node, hs.disk] at hk ⊢
  exact (h.slot_below hi hk).2.trans_le h.freeblock_le

theorem Final.content_prefix : ∃ rest, content img.sect (sb.dinode img.sect rootino) = contents files rootino ++ rest := by
  have hlen := contents_root files
  have hsize : (sb.dinode img.sect rootino).size = ((files.length + 2) / 32 + 1) * bsize := by
    rw [h.root, h.rounded_size]
  refine ⟨(content img.sect (sb.dinode img.sect rootino)).drop (contents files rootino).length,?_⟩
  have htake : (content img.sect (sb.dinode img.sect rootino)).take (contents files rootino).length = contents files rootino := by
    apply List.ext_getElem
    · rw [List.length_take, length_content, hsize, hlen]
      simp only [bsize]
      omega
    · intro o h1 h2
      have hbyte := h.byteAt_root (o := o) (by simp only [bsize]; omega)
      rw [List.getD_eq_getElem _ _ h2] at hbyte
      rw [← hbyte]
      simp [Fs.content]
  conv_lhs => rw [← List.take_append_drop (contents files rootino).length (content img.sect (sb.dinode img.sect rootino)), htake]

/-- The entries of the root directory are read without any change. -/
theorem OnImage.entries (hs : OnImage img me ip rootino s) : Entries ip (files.length + 2) s := by
  have hle := h.files_le
  have hnode := hs.node
  have hsize : (s.icache ip).node.size = ((files.length + 2) / 32 + 1) * bsize := by
    rw [hnode, h.root, h.rounded_size]
  refine ⟨hs.readable h h.used_root,?_,?_,?_,?_,fun k hk => ?_⟩
  · rw [hnode, h.root_kind]
  · rw [hsize]
    exact Dvd.dvd.mul_left (by decide) _
  · rw [hsize]
    simp only [maxfile, ndirect, nindirect, bsize, ninodes] at *
    omega
  · rw [Sys.dirTable, length_table, length_content, hsize]
    simp only [bsize, direntSize]
    omega
  · rw [hnode, hs.disk]
    refine (h.root_block _).mpr ?_
    simp only [bsize, direntSize]
    omega

section Names
variable (h0 : ∀ file ∈ files, 0 ∉ file.name)
include h0

theorem OnImage.slots (hs : OnImage img me ip rootino s) {k : ℕ} (hk : k < files.length + 2) :
    (s.dirTable ip)[k]? = (rootSlots files)[k]? := by
  obtain ⟨rest,hrest⟩ := h.content_prefix
  have hdvd : direntSize ∣ (contents files rootino).length := by
    rw [contents_root]
    exact Dvd.intro _ rfl
  rw [Sys.dirTable, hs.disk, hs.node, hrest, table_append hdvd, contents_table h0 (h.files_le.trans (by decide)),
    List.getElem?_append_left (by rw [length_rootSlots]; exact hk)]

/-- A name of the root directory is found. -/
theorem OnImage.found (hs : OnImage img me ip rootino s) (hnd : (rootNames files).Nodup) {name : ℕ → UInt8} {k : ℕ}
    (hk : Holds (rootSlots files) k (nameOf name) i) :
    Ends (dirlookup sb me ip name) s (CacheFull s i) (Fs.Found s i (k * direntSize)) := by
  have hlt : k < files.length + 2 := by
    rw [← length_rootSlots]
    exact (List.getElem?_eq_some_iff.mp hk).1
  have hd : Distinct (rootSlots files) := by
    have hd := rootSlots_distinct hnd 0
    rwa [List.replicate_zero, List.append_nil] at hd
  have hslot {l j : ℕ} (hl : l < files.length + 2) : Holds (s.dirTable ip) l (nameOf name) j ↔ Holds (rootSlots files) l (nameOf name) j := by
    rw [Holds, Holds, hs.slots h h0 hl]
  have heq : dirlookup sb me ip name s = (iget i >>= fun jp => return some (jp,k * direntSize)) s :=
    (hs.entries h).dirlookup_found name (fun l hl j hj => hl.ne (hd l k _ j i ((hslot (hl.trans hlt)).mp hj) hk)) hlt ((hslot hlt).mpr hk)
  cases he : s.entryFor i with
  | none => exact (ends_of_error (heq.trans (bind_error (iget_full he)))).mpr ⟨rfl,he⟩
  | some jp =>
    have hrun : dirlookup sb me ip name s = .ok (some (jp,k * direntSize),s.got i jp) := heq.trans (bind_ok (iget_ok he))
    exact (ends_of_ok hrun).mpr ⟨jp,he,rfl,rfl,entryFor_inum he⟩

/-- Another name is not in the entries. -/
theorem OnImage.skips (hs : OnImage img me ip rootino s) {name : ℕ → UInt8} (hname : nameOf name ∉ rootNames files) :
    ∀ j < files.length + 2, ∀ i, ¬ Holds (s.dirTable ip) j (nameOf name) i := by
  intro j hj i hi
  rw [Holds, hs.slots h h0 hj] at hi
  refine hname (rootNames_of_holds (k := 0) (j := j) (i := i) ?_)
  rwa [List.replicate_zero, List.append_nil]

end Names

end Kernel

/-! ## The block that is missing -/

section Missing
variable {me : Fin nproc} {ip : Fin ninode} {s t : Sys} {b off : ℕ}

/-- An entry whose block `bmap` has to take: it is read from the state that `bmap` leaves. -/
theorem readDirent_taken {p : Panic} (hs : bmap sb ip (off / bsize) s = .ok (b,t)) (ht : bmap sb ip (off / bsize) t = .ok (b,t))
    (htype : (t.icache ip).node.type = (s.icache ip).node.type) (hsize : (t.icache ip).node.size = (s.icache ip).node.size)
    (hdev : (s.icache ip).node.type ≠ tDev) (hoff : off + direntSize ≤ (s.icache ip).node.size)
    (hsmall : (s.icache ip).node.size < 2 ^ 32) : readDirent sb p me ip off s = readDirent sb p me ip off t := by
  have hu : u32 (off + direntSize) = off + direntSize := u32_of_lt (by omega)
  have hloop : readLoop sb ip direntSize direntSize 0 off [] s = readLoop sb ip direntSize direntSize 0 off [] t := by
    rw [direntSize, readLoop, if_pos (by decide), bind_ok hs, bind_ok ht]
  have hread : readi sb me ip off direntSize s = readi sb me ip off direntSize t := by
    rw [readi, bind_ok get_ok, bind_ok get_ok, htype, hsize, if_neg hdev, if_neg hdev, hu, if_neg (by omega), if_neg (by omega)]
    exact bind_same hloop
  exact bind_same hread

theorem readDirent_stops {p : Panic} {e : Stop} (hs : bmap sb ip (off / bsize) s = .error e) (hdev : (s.icache ip).node.type ≠ tDev)
    (hoff : off + direntSize ≤ (s.icache ip).node.size) (hsmall : (s.icache ip).node.size < 2 ^ 32) :
    readDirent sb p me ip off s = .error e := by
  have hu : u32 (off + direntSize) = off + direntSize := u32_of_lt (by omega)
  have hloop : readLoop sb ip direntSize direntSize 0 off [] s = .error e := by
    rw [direntSize, readLoop, if_pos (by decide)]
    exact bind_error hs
  have hread : readi sb me ip off direntSize s = .error e := by
    rw [readi, bind_ok get_ok, if_neg hdev, hu, if_neg (by omega), if_neg (by omega)]
    exact bind_error hloop
  exact bind_error hread

/-- The state once `bmap` has taken block `b` for address `k`. -/
def taken (s : Sys) (ip : Fin ninode) (k : Fin (ndirect + 1)) (b : ℕ) : Sys :=
  (s.alloc sb b).withNode ip ((s.icache ip).node.setAddr k b)

theorem taken_node (s : Sys) (ip : Fin ninode) (k : Fin (ndirect + 1)) (b : ℕ) :
    ((taken s ip k b).icache ip).node = (s.icache ip).node.setAddr k b := by
  rw [taken, Sys.withNode_icache_self]

variable {files : List HostFile} {m img : Img} (h : Final files m img) (hdvd : 32 ∣ files.length + 2)
  (hs : OnImage img me ip rootino s)
include h

/-- The address of the block after those with entries. -/
theorem Final.missing_lt : (files.length + 2) / 32 < ndirect := by
  have hle := h.files_le
  simp only [ninodes, ndirect] at *
  omega

include hs

theorem OnImage.size_eq : (s.icache ip).node.size = ((files.length + 2) / 32 + 1) * bsize := by
  rw [hs.node, h.root, h.rounded_size]

include hdvd

theorem OnImage.missing (k : Fin (ndirect + 1)) (hk : k.val = (files.length + 2) / 32) : (s.icache ip).node.addrs k = 0 := by
  have hblock := mt (h.root_block ((files.length + 2) / 32)).mp (by omega)
  rw [not_not, blockOf_direct h.missing_lt] at hblock
  rw [hs.node, ← hblock]
  congr 1
  exact Fin.ext hk

theorem OnImage.bmap_takes (k : Fin (ndirect + 1)) (hk : k.val = (files.length + 2) / 32) :
    bmap sb ip ((files.length + 2) / 32) s =
      if m.freeblock < fssize then .ok (m.freeblock,taken s ip k m.freeblock) else .error (.panic .balloc) := by
  have hbits : ∀ c < fssize, sb.bit s.disk c = decide (c < m.freeblock) := by
    intro c hc
    rw [hs.disk, h.bits hc]
  have hk' : (⟨(files.length + 2) / 32,Nat.lt_succ_of_lt h.missing_lt⟩ : Fin (ndirect + 1)) = k := Fin.ext hk.symm
  rw [bmap, dif_pos h.missing_lt, hk', Fs.addrOf, bind_ok get_ok, if_pos (hs.missing h hdvd k hk)]
  by_cases hlt : m.freeblock < fssize
  · rw [if_pos hlt, bind_ok (balloc_first hbits hs.busy hlt hs.outstanding hs.room)]
    rfl
  · rw [if_neg hlt]
    exact bind_error (balloc_full hbits hs.busy (le_antisymm h.freeblock_le (not_lt.mp hlt)))

section Taken
variable (hlt : m.freeblock < fssize) (k : Fin (ndirect + 1)) (hk : k.val = (files.length + 2) / 32)
include hlt

omit hdvd in
/-- The blocks of the root directory are not the one that is taken. -/
theorem OnImage.taken_disk {l : ℕ} (hl : slot s.disk (s.icache ip).node l ≠ 0) :
    (taken s ip k m.freeblock).disk (slot s.disk (s.icache ip).node l) = s.disk (slot s.disk (s.icache ip).node l) := by
  have hslot : slot s.disk (s.icache ip).node l = slot img.sect (sb.dinode img.sect rootino) l := by rw [hs.node, hs.disk]
  rw [hslot] at hl ⊢
  have hbelow := h.slot_below h.used_root hl
  have hmap : sb.bblock m.freeblock < nmeta := by
    rw [bblock_sb hlt]
    decide
  exact alloc_disk_of_ne hbelow.2.ne (by omega)

include hk

theorem OnImage.taken_slot (l : ℕ) : slot (taken s ip k m.freeblock).disk ((taken s ip k m.freeblock).icache ip).node l =
    if l = k then m.freeblock else slot s.disk (s.icache ip).node l := by
  rw [taken_node]
  refine slot_setAddr (hs.missing h hdvd k hk) alloc_disk_self fun hne => ?_
  have hlast := slot_last (d := s.disk) (n := (s.icache ip).node)
  rw [← hlast] at hne ⊢
  exact hs.taken_disk h hlt k hne

theorem OnImage.taken_block (bn : ℕ) : blockOf (taken s ip k m.freeblock).disk ((taken s ip k m.freeblock).icache ip).node bn =
    if bn = (files.length + 2) / 32 then m.freeblock else blockOf s.disk (s.icache ip).node bn := by
  have hslot : dataSlot ((files.length + 2) / 32) = (files.length + 2) / 32 := if_pos h.missing_lt
  rw [blockOf, hs.taken_slot h hdvd hlt k hk, hk]
  by_cases hbn : bn = (files.length + 2) / 32
  · rw [if_pos hbn, hbn, hslot, if_pos rfl]
  · have hne : dataSlot bn ≠ (files.length + 2) / 32 := fun he => hbn (dataSlot_injective (he.trans hslot.symm))
    rw [if_neg hbn, if_neg hne]
    rfl

theorem OnImage.taken_byte {o : ℕ} (ho : o / bsize ≤ (files.length + 2) / 32) :
    byteAt (taken s ip k m.freeblock).disk ((taken s ip k m.freeblock).icache ip).node o = (contents files rootino).getD o 0 := by
  have hlen := contents_root files
  have hblock := hs.taken_block h hdvd hlt k hk (o / bsize)
  unfold byteAt
  rw [hblock]
  by_cases hbn : o / bsize = (files.length + 2) / 32
  · have hzero : (taken s ip k m.freeblock).disk m.freeblock = Block.zero := alloc_disk_self
    rw [if_pos hbn, hzero, List.getD_eq_default _ _ (by rw [hlen]; simp only [bsize] at *; omega)]
    have hmod : o % bsize < bsize := Nat.mod_lt _ (by decide)
    rw [Block.mem, dif_pos hmod]
    rfl
  · have hroot : 32 * (o / bsize) < files.length + 2 := by omega
    have hne := (h.root_block (o / bsize)).mpr hroot
    have hdisk := hs.taken_disk h hlt k (l := dataSlot (o / bsize)) (by rw [hs.node, hs.disk]; exact hne)
    rw [if_neg hbn, ← h.byteAt_root hroot]
    unfold blockOf
    rw [hdisk, hs.disk, hs.node]
    rfl

variable (h0 : ∀ file ∈ files, 0 ∉ file.name)
include h0

theorem OnImage.taken_table : (taken s ip k m.freeblock).dirTable ip = rootSlots files ++ List.replicate 32 none := by
  have hlen := contents_root files
  have hsize : ((taken s ip k m.freeblock).icache ip).node.size = ((files.length + 2) / 32 + 1) * bsize := by
    rw [taken_node]
    exact hs.size_eq h
  have hcont : content (taken s ip k m.freeblock).disk ((taken s ip k m.freeblock).icache ip).node =
      contents files rootino ++ List.replicate 512 0 := by
    apply List.ext_getElem
    · rw [length_content, hsize, List.length_append, List.length_replicate, hlen]
      simp only [bsize]
      omega
    · intro o h1 h2
      rw [length_content, hsize] at h1
      have hbyte := hs.taken_byte h hdvd hlt k hk (o := o) (by simp only [bsize] at *; omega)
      rw [← getD_padded _ 512, List.getD_eq_getElem _ _ h2] at hbyte
      rw [← hbyte]
      simp [Fs.content]
  have hdvd' : direntSize ∣ (contents files rootino).length := by
    rw [hlen]
    exact Dvd.intro _ rfl
  rw [Sys.dirTable, hcont, table_append hdvd', contents_table h0 (h.files_le.trans (by decide)), table_zero]
  rfl

theorem OnImage.taken_entries : Entries ip (files.length + 2 + 32) (taken s ip k m.freeblock) := by
  have hle := h.files_le
  have hge := h.built.fresh.ge
  have hsize : ((taken s ip k m.freeblock).icache ip).node.size = ((files.length + 2) / 32 + 1) * bsize := by
    rw [taken_node]
    exact hs.size_eq h
  have hpos : m.freeblock ≠ 0 := by
    have hmeta : 0 < nmeta := by decide
    omega
  refine ⟨⟨hs.busy,fun l hl => ?_⟩,?_,?_,?_,?_,fun j hj => ?_⟩
  · rw [hs.taken_slot h hdvd hlt k hk] at hl ⊢
    split at hl
    · rename_i he
      rw [if_pos he]
      exact hlt
    · rename_i he
      rw [if_neg he]
      exact (hs.readable h h.used_root).below l hl
  · rw [taken_node]
    exact (hs.entries h).type
  · rw [hsize]
    exact Dvd.dvd.mul_left (by decide) _
  · rw [hsize]
    simp only [maxfile, ndirect, nindirect, bsize, ninodes] at *
    omega
  · rw [hs.taken_table h hdvd hlt k hk h0, List.length_append, length_rootSlots, List.length_replicate]
  · rw [hs.taken_block h hdvd hlt k hk]
    split
    · exact hpos
    · rename_i hne
      rw [hs.node, hs.disk]
      refine (h.root_block _).mpr ?_
      simp only [bsize, direntSize] at *
      omega

end Taken

/-- A lookup of another name reads past the entries: it takes a block, or it stops the kernel. -/
theorem OnImage.absent_missing (h0 : ∀ file ∈ files, 0 ∉ file.name) {name : ℕ → UInt8} (hname : nameOf name ∉ rootNames files) :
    if m.freeblock < fssize then ∃ t, dirlookup sb me ip name s = .ok (none,t)
    else dirlookup sb me ip name s = .error (.panic .balloc) := by
  have hent := hs.entries h
  have hsize := hs.size_eq h
  have hle := h.files_le
  have hoff : (files.length + 2) * direntSize / bsize = (files.length + 2) / 32 := by
    simp only [direntSize, bsize]
    omega
  have hend : (files.length + 2) * direntSize + direntSize ≤ (s.icache ip).node.size := by
    rw [hsize]
    simp only [direntSize, bsize]
    omega
  have hsmall : (s.icache ip).node.size < 2 ^ 32 := by
    rw [hsize]
    simp only [bsize, ninodes] at *
    omega
  obtain ⟨r,hr⟩ : ∃ r, (s.icache ip).node.size - (files.length + 2) = r + 1 :=
    ⟨(s.icache ip).node.size - (files.length + 2) - 1,by rw [hsize]; simp only [bsize]; omega⟩
  obtain ⟨k,hk⟩ : ∃ k : Fin (ndirect + 1), k.val = (files.length + 2) / 32 := ⟨⟨_,Nat.lt_succ_of_lt h.missing_lt⟩,rfl⟩
  have hmap := hs.bmap_takes h hdvd k hk
  have hskip : dirlookup sb me ip name s = _ := dirlookup_skip hent name le_rfl (hs.skips h h0 hname)
  rw [hr] at hskip
  have hmore : (files.length + 2) * direntSize < (s.icache ip).node.size := by
    have hpos : 0 < direntSize := by decide
    omega
  by_cases hlt : m.freeblock < fssize
  · rw [if_pos hlt] at hmap ⊢
    have hall := hs.taken_entries h hdvd hlt k hk h0
    have hnone : ∀ j < files.length + 2 + 32, ∀ i, ¬ Holds ((taken s ip k m.freeblock).dirTable ip) j (nameOf name) i := by
      intro j _ i hi
      rw [hs.taken_table h hdvd hlt k hk h0] at hi
      exact hname (rootNames_of_holds hi)
    have hblock : blockOf (taken s ip k m.freeblock).disk ((taken s ip k m.freeblock).icache ip).node ((files.length + 2) / 32) =
        m.freeblock := by
      rw [hs.taken_block h hdvd hlt k hk, if_pos rfl]
    have hagain : bmap sb ip ((files.length + 2) / 32) (taken s ip k m.freeblock) = .ok (m.freeblock,taken s ip k m.freeblock) := by
      have hmapped := hall.mapped (files.length + 2) (by omega)
      rw [hoff] at hmapped
      have hbmap : bmap sb ip _ _ = _ := bmap_mapped hall.readable hmapped
      rwa [hblock] at hbmap
    have hnode := taken_node s ip k m.freeblock
    have hread : readDirent sb .dirlookupRead me ip ((files.length + 2) * direntSize) s = readDirent sb .dirlookupRead me ip
        ((files.length + 2) * direntSize) (taken s ip k m.freeblock) := readDirent_taken (by rw [hoff]; exact hmap) (by rw [hoff]; exact hagain) (by rw [hnode]; rfl) (by rw [hnode]; rfl) hent.not_dev hend hsmall
    have hstep : dirlookupLoop sb me ip name (r + 1) ((files.length + 2) * direntSize) s =
        dirlookupLoop sb me ip name (r + 1) ((files.length + 2) * direntSize) (taken s ip k m.freeblock) := by
      have hmore' : (files.length + 2) * direntSize < ((taken s ip k m.freeblock).icache ip).node.size := by
        rw [hnode]
        exact hmore
      rw [dirlookupLoop, bind_ok get_ok, bind_ok get_ok, if_pos hmore, if_pos hmore']
      exact bind_same hread
    have hwhole : dirlookupLoop sb me ip name _ _ _ = _ :=
      dirlookupLoop_skip hall name le_rfl hnone (r + 1 - 32) (files.length + 2) (by omega)
    have hfuel : r + 1 - 32 + (files.length + 2 + 32 - (files.length + 2)) = r + 1 := by
      rw [hsize] at hr
      simp only [bsize] at hr
      omega
    rw [hfuel] at hwhole
    have hlast : ((taken s ip k m.freeblock).dirTable ip).length ≤ files.length + 2 + 32 := by
      rw [hs.taken_table h hdvd hlt k hk h0, List.length_append, length_rootSlots, List.length_replicate]
    exact ⟨_,hskip.trans (hstep.trans (hwhole.trans (dirlookupLoop_end hall name hlast)))⟩
  · rw [if_neg hlt] at hmap ⊢
    have hread : readDirent sb .dirlookupRead me ip ((files.length + 2) * direntSize) s = .error (.panic .balloc) :=
      readDirent_stops (by rw [hoff]; exact hmap) hent.not_dev hend hsmall
    rw [hskip, dirlookupLoop, bind_ok get_ok, if_pos hmore]
    exact bind_error hread

end Missing

/-! ## The law -/

/-- The kernel finds the files in the root directory and reads their bytes, and it finds nothing else. -/
structure ReadsBack (files : List HostFile) (img : Img) : Prop where
  found : ∀ j (hj : j < files.length) s me dp, OnImage img me dp rootino s →
    ∀ name, nameOf name = (baseName files[j].name).take dirsiz →
      ∃ off, Ends (dirlookup sb me dp name) s (CacheFull s (j + 2)) (Fs.Found s (j + 2) off)
  file : ∀ j < files.length, (sb.dinode img.sect (j + 2)).type = tFile
  bytes : ∀ j (hj : j < files.length) s me ip, OnImage img me ip (j + 2) s → ∀ off n, off < 2 ^ 32 → n < 2 ^ 32 →
    readi sb me ip off n s = .ok (if (files[j].data.getD []).length < off ∨ 2 ^ 32 ≤ off + n then none
      else some (((files[j].data.getD []).drop off).take n),s)
  dots : ∀ s me dp, OnImage img me dp rootino s → ∀ name, nameOf name = [dot] ∨ nameOf name = [dot, dot] →
    ∃ off, Ends (dirlookup sb me dp name) s (CacheFull s rootino) (Fs.Found s rootino off)
  others : ∀ s me dp, OnImage img me dp rootino s → ∀ name, nameOf name ∉ rootNames files →
    ∃ t, dirlookup sb me dp name s = .ok (none,t)

theorem fileSlots_holds (files : List HostFile) : ∀ k j (hj : j < files.length),
    Holds (fileSlots k files) j ((baseName files[j].name).take dirsiz) (k + j) := by
  induction files with
  | nil => exact fun _ j hj => absurd hj (Nat.not_lt_zero _)
  | cons file files ih =>
    intro k j hj
    cases j with
    | zero => rfl
    | succ j =>
      have hrest := ih (k + 1) j (Nat.lt_of_succ_lt_succ hj)
      rw [show k + 1 + j = k + (j + 1) by omega] at hrest
      exact hrest

theorem rootSlots_holds {files : List HostFile} {j : ℕ} (hj : j < files.length) :
    Holds (rootSlots files) (j + 2) ((baseName files[j].name).take dirsiz) (j + 2) := by
  have hfile := fileSlots_holds files 2 j hj
  rw [Nat.add_comm] at hfile
  exact hfile

section Law
variable {files : List HostFile} {m img : Img} (h : Final files m img) {me : Fin nproc} {ip : Fin ninode} {s : Sys}
include h

theorem OnImage.isDir (hs : OnImage img me ip rootino s) (hn : ¬ 32 ∣ files.length + 2) : IsDir sb me ip s := by
  have hent := hs.entries h
  refine ⟨?_,hs.locked,hs.busy,hent.type,hent.size⟩
  rw [hs.disk]
  exact h.consistent hn

theorem OnImage.reads {j : ℕ} (hj : j < files.length) (hs : OnImage img me ip (j + 2) s) {off n : ℕ} (hoff : off < 2 ^ 32)
    (hn : n < 2 ^ 32) : readi sb me ip off n s = .ok (if (files[j].data.getD []).length < off ∨ 2 ^ 32 ≤ off + n then none
      else some (((files[j].data.getD []).drop off).take n),s) := by
  obtain ⟨hused,hkind,hbytes⟩ := h.file hj
  have hne : j + 2 ≠ rootino := by
    simp only [rootino]
    omega
  have hread : readi sb me ip off n s = _ := readi_mapped (hs.readable h hused) me (by rw [hs.node, hkind]; decide) hoff hn fun o _ _ ho => by
    rw [hs.node, h.dinode_of_ne hne] at ho
    have hmapped := h.built.consistent.mapped _ (h.used hused) (o / bsize) (by
      have hdiv := Nat.div_mul_le_self o bsize
      omega)
    rw [hs.node, hs.disk]
    unfold blockOf at hmapped ⊢
    rwa [h.slot hused]
  rw [hs.node, hs.disk, ← length_content img.sect, hbytes] at hread
  exact hread

theorem Final.rootSys_onImage : OnImage img 0 0 rootino (rootSys img) := by
  refine ⟨rfl,rfl,⟨rfl,Nat.one_pos,rfl,(h.used h.used_root).1,?_,rfl⟩,rfl,le_rfl,?_⟩
  · exact fun hc => absurd (h.root_kind.symm.trans hc) (by decide)
  · have hroom : FullWithin (rootSys img).log 1 ↔ 30 ≤ 1 ∨ (29 : ℤ) ≤ 1 := Iff.rfl
    rw [hroom]
    decide

/-- There are more names of one letter than files. -/
theorem Final.other_name : ∃ name, nameOf name ∉ rootNames files := by
  by_contra hall
  push Not at hall
  have hsub : ((List.range 255).map fun i => [UInt8.ofNat (i + 1)]) ⊆ rootNames files := by
    intro l hl
    obtain ⟨i,hi,rfl⟩ := List.mem_map.mp hl
    have hne : 0 ∉ [UInt8.ofNat (i + 1)] := by
      have hi := List.mem_range.mp hi
      rw [List.mem_singleton]
      intro h0
      have hval := congrArg UInt8.toNat h0
      rw [UInt8.toNat_ofNat', Nat.mod_eq_of_lt (by omega)] at hval
      exact absurd hval (by simp)
    have hname := hall ([UInt8.ofNat (i + 1)].getD · 0)
    rwa [nameOf_getD hne] at hname
  have hnodup : ((List.range 255).map fun i => [UInt8.ofNat (i + 1)]).Nodup := by decide +kernel
  have hlen := (hnodup.subperm hsub).length_le
  have hle := h.files_le
  simp only [rootNames, List.length_map, List.length_range, List.length_cons, ninodes] at hlen hle
  omega

end Law

/-- The kernel reads back what `mkfs` was given, unless the entries fill the last block of the root directory and the files
fill the disk. -/
theorem makes_reads_back {files : List HostFile} {img : Img} (hmade : Makes files img) (hle : files.length + 2 ≤ ninodes)
    (h0 : ∀ file ∈ files, 0 ∉ file.name) (hnd : (rootNames files).Nodup) :
    ReadsBack files img ↔ ¬ (32 ∣ files.length + 2 ∧ total (contents files) (files.length + 2) = fssize) := by
  obtain ⟨m,h⟩ := hmade.final hle
  have hcount : m.freeblock = total (contents files) (files.length + 2) := by
    rw [h.built.count, h.count]
    rfl
  rw [← hcount]
  constructor
  · rintro hback ⟨hdvd,hfull⟩
    obtain ⟨name,hname⟩ := h.other_name
    have hs := h.rootSys_onImage
    have hstop := hs.absent_missing h hdvd h0 hname
    rw [hfull, if_neg (lt_irrefl _)] at hstop
    obtain ⟨t,ht⟩ := hback.others _ _ _ hs name hname
    rw [hstop] at ht
    cases ht
  · intro hcond
    refine ⟨fun j hj s me dp hs name hname => ?_,fun j hj => (h.file hj).2.1,fun j hj s me ip hs off n hoff hn => hs.reads h hj hoff hn,
      fun s me dp hs name hname => ?_,fun s me dp hs name hname => ?_⟩
    · have hslot := rootSlots_holds hj
      rw [← hname] at hslot
      exact ⟨_,hs.found h h0 hnd hslot⟩
    · rcases hname with hname | hname
      · have hslot : Holds (rootSlots files) 0 (nameOf name) rootino := by
          rw [hname]
          rfl
        exact ⟨_,hs.found h h0 hnd hslot⟩
      · have hslot : Holds (rootSlots files) 1 (nameOf name) rootino := by
          rw [hname]
          rfl
        exact ⟨_,hs.found h h0 hnd hslot⟩
    · by_cases hdvd : 32 ∣ files.length + 2
      · have hlt : m.freeblock < fssize := lt_of_le_of_ne h.freeblock_le fun hc => hcond ⟨hdvd,hc⟩
        have hrun := hs.absent_missing h hdvd h0 hname
        rwa [if_pos hlt] at hrun
      · have hdir := hs.isDir h hdvd
        have hnone : lookup (s.dirTable dp) (nameOf name) = none := by
          refine lookup_eq_none.mpr fun j i hi => ?_
          obtain ⟨k,hk⟩ := h.table_root h0 hdvd
          have htable : s.dirTable dp = rootSlots files ++ List.replicate k none := by
            rw [Sys.dirTable, hs.disk, hs.node, hk]
          rw [htable] at hi
          exact hname (rootNames_of_holds hi)
        exact ⟨s,dirlookup_absent hdir sb_layout hnone⟩

/-! ## Files with names of one letter -/

/-- Files of these sizes. -/
def sizedFiles (sizes : ℕ → ℕ) (n : ℕ) : List HostFile :=
  (List.range n).map fun i => ⟨[UInt8.ofNat (97 + i)],some (List.replicate (sizes i) 0)⟩

section Sized
variable (sizes : ℕ → ℕ) {n : ℕ}

/-- The sizes of the contents of the image. -/
def contentSize (n i : ℕ) : ℕ := if i = 0 then 0 else if i = 1 then 16 * (n + 2) else sizes (i - 2)

theorem sizedFiles_content {i : ℕ} (hi : i < n + 2) : (contents (sizedFiles sizes n) i).length = contentSize sizes n i := by
  have hlen : (sizedFiles sizes n).length = n := by simp [sizedFiles]
  match i with
  | 0 =>
    rw [contents, withFiles_other _ _ _ _ (by decide) (by decide) (by decide)]
    rfl
  | 1 =>
    have hroot := contents_root (sizedFiles sizes n)
    rw [hlen] at hroot
    exact hroot
  | j + 2 =>
    have hj : j < (sizedFiles sizes n).length := by omega
    rw [contents, Nat.add_comm, withFiles_file _ _ 2 j hj (by decide), contentSize, if_neg (by omega), if_neg (by omega)]
    simp [sizedFiles]

theorem sizedFiles_total (n : ℕ) : total (contents (sizedFiles sizes n)) (n + 2) =
    nmeta + ∑ i ∈ Finset.range (n + 2), need (contentSize sizes n i) := by
  rw [total]
  congr 1
  exact Finset.sum_congr rfl fun i hi => by rw [sizedFiles_content sizes (Finset.mem_range.mp hi)]

theorem sizedFiles_names (hn : n ≤ 30) : (∀ file ∈ sizedFiles sizes n, slash ∉ file.name ∧ file.data ≠ none) ∧
    (∀ file ∈ sizedFiles sizes n, 0 ∉ file.name) ∧ (rootNames (sizedFiles sizes n)).Nodup := by
  have hall : (∀ i < 30, slash ∉ [UInt8.ofNat (97 + i)] ∧ 0 ∉ [UInt8.ofNat (97 + i)]) := by decide +kernel
  refine ⟨fun file hfile => ?_,fun file hfile => ?_,?_⟩
  · obtain ⟨i,hi,rfl⟩ := List.mem_map.mp hfile
    exact ⟨(hall i ((List.mem_range.mp hi).trans_le hn)).1,by simp⟩
  · obtain ⟨i,hi,rfl⟩ := List.mem_map.mp hfile
    exact (hall i ((List.mem_range.mp hi).trans_le hn)).2
  · have hnames : rootNames (sizedFiles sizes n) = [dot] :: [dot, dot] :: (List.range n).map fun i => [UInt8.ofNat (97 + i)] := by
      rw [rootNames, sizedFiles, List.map_map]
      congr 2
      refine List.map_congr_left fun i hi => ?_
      have hi := (List.mem_range.mp hi).trans_le hn
      have hbase : ∀ i < 30, (baseName [UInt8.ofNat (97 + i)]).take dirsiz = [UInt8.ofNat (97 + i)] := by decide +kernel
      exact hbase i hi
    have hthirty : ([dot] :: [dot, dot] :: (List.range 30).map fun i => [UInt8.ofNat (97 + i)]).Nodup := by decide +kernel
    rw [hnames]
    refine hthirty.sublist ?_
    exact (((List.range_sublist.mpr hn).map _).cons_cons _).cons_cons _

theorem sizedFiles_made (hn : n ≤ 30) (htotal : nmeta + ∑ i ∈ Finset.range (n + 2), need (contentSize sizes n i) ≤ fssize)
    (hmax : ∀ i < n + 2, contentSize sizes n i ≤ maxfile * bsize) :
    (sizedFiles sizes n).length = n ∧ ∃ img, Makes (sizedFiles sizes n) img := by
  have hlen : (sizedFiles sizes n).length = n := by simp [sizedFiles]
  refine ⟨hlen,makes_of_fits ?_ (not_refused (sizedFiles_names sizes hn).1 ?_ ?_)⟩
  · rw [hlen]
    simp only [ninodes]
    omega
  · rw [hlen, sizedFiles_total]
    exact htotal
  · rw [hlen]
    intro i hi
    rw [sizedFiles_content sizes hi]
    exact hmax i hi

end Sized

theorem oneFile_reads_back : ∃ img, Makes (sizedFiles (fun _ => 3) 1) img ∧ ReadsBack (sizedFiles (fun _ => 3) 1) img := by
  obtain ⟨hlen,img,hmade⟩ := sizedFiles_made (fun _ => 3) (n := 1) (by decide) (by decide +kernel) (by decide)
  obtain ⟨_,h0,hnd⟩ := sizedFiles_names (fun _ => 3) (n := 1) (by decide)
  exact ⟨img,hmade,(makes_reads_back hmade (by decide) h0 hnd).mpr (by decide)⟩

/-- Thirty files that fill the disk: six of the greatest size, one of 93 blocks and empty ones. -/
def fullSizes (i : ℕ) : ℕ := if i < 6 then 71680 else if i = 6 then 47616 else 0

/-- On an image that is full, looking up a name that is not there stops the kernel. -/
theorem fullDisk_lookup_panics : ∃ img s, Makes (sizedFiles fullSizes 30) img ∧ OnImage img 0 0 rootino s ∧
    (∀ file ∈ sizedFiles fullSizes 30, 0 ∉ file.name) ∧ (rootNames (sizedFiles fullSizes 30)).Nodup ∧
    (∃ name, nameOf name ∉ rootNames (sizedFiles fullSizes 30) ∧ dirlookup sb 0 0 name s = .error (.panic .balloc)) ∧
    ¬ ReadsBack (sizedFiles fullSizes 30) img := by
  have htotal : nmeta + ∑ i ∈ Finset.range 32, need (contentSize fullSizes 30 i) = fssize := by decide +kernel
  obtain ⟨hlen,img,hmade⟩ := sizedFiles_made fullSizes (n := 30) le_rfl htotal.le (by decide +kernel)
  obtain ⟨_,h0,hnd⟩ := sizedFiles_names fullSizes (n := 30) le_rfl
  have hsum := sizedFiles_total fullSizes 30
  have hle : (sizedFiles fullSizes 30).length + 2 ≤ ninodes := by
    rw [hlen]
    decide
  have hdvd : 32 ∣ (sizedFiles fullSizes 30).length + 2 := by rw [hlen]
  generalize sizedFiles fullSizes 30 = files at *
  obtain ⟨m,h⟩ := hmade.final hle
  have hfull : m.freeblock = fssize := by
    rw [← htotal, ← hsum, h.built.count, h.count, hlen]
    rfl
  obtain ⟨name,hname⟩ := h.other_name
  have hs := h.rootSys_onImage
  have hstop := hs.absent_missing h hdvd h0 hname
  rw [hfull, if_neg (lt_irrefl _)] at hstop
  refine ⟨img,rootSys img,hmade,hs,h0,hnd,⟨name,hname,hstop⟩,fun hback => ?_⟩
  obtain ⟨t,ht⟩ := hback.others _ _ _ hs name hname
  rw [hstop] at ht
  cases ht

end X86OsDev.Xv6.Mkfs
