import X86OsDev.Xv6.FsContent
import X86OsDev.Xv6.FsInode

/-! # What `readi` and `writei` do to contents

In a consistent file system `readi` returns bytes of the content and `writei`
replaces them, writes the inode back when it has grown, and leaves every other
inode and its content alone.
-/
namespace X86OsDev.Xv6.Fs
open Fault Memory
variable {sb : Superblock} {ip : Fin ninode} {s t : Sys} {src : ℕ → UInt8} {off n : ℕ}

/-- An inode of the file system that the process has locked; its copy is the one on disk. -/
structure Locked (sb : Superblock) (me : Fin nproc) (ip : Fin ninode) (s : Sys) : Prop where
  lock : (s.icache ip).lock = some me
  ref : 0 < (s.icache ip).ref
  valid : (s.icache ip).valid = true
  inum : (s.icache ip).inum < sb.ninodes
  type : (s.icache ip).node.type ≠ 0
  node : (s.icache ip).node = sb.dinode s.disk (s.icache ip).inum

theorem view_dinode (h : (s.icache ip).node = sb.dinode s.disk (s.icache ip).inum) :
    view (sb.dinode s.disk) s ip = sb.dinode s.disk := by
  unfold view
  rw [h, Function.update_eq_self]

theorem Consistent.open {me : Fin nproc} (hc : Consistent sb s.disk) (h : Locked sb me ip s)
    (hb : s.busy = []) : Open sb (sb.dinode s.disk) ip s where
  volume := (view_dinode h.node).symm ▸ hc
  inum := h.inum
  type := h.type
  busy := hb

/-- A list with the elements at positions `off .. off+n-1` replaced, and more of them if it ends
before. -/
def splice (l : List UInt8) (off : ℕ) (bs : List UInt8) : List UInt8 :=
  l.take off ++ bs ++ l.drop (off + bs.length)

theorem map_range_splice {f g src : ℕ → UInt8} {a off n : ℕ} (hoff : off ≤ a)
    (h : ∀ o < max a (off + n), f o = if off ≤ o ∧ o < off + n then src (o - off) else g o) :
    (List.range (max a (off + n))).map f =
      splice ((List.range a).map g) off ((List.range n).map src) := by
  unfold splice
  apply List.ext_getElem
  · simp
    omega
  · intro i h1 h2
    have hi : i < max a (off + n) := by simpa using h1
    rw [List.getElem_map, List.getElem_range, h i hi]
    by_cases h3 : i < off
    · rw [if_neg (by omega), List.getElem_append_left (by simp; omega),
        List.getElem_append_left (by simp; omega)]
      simp
    · by_cases h4 : i < off + n
      · rw [if_pos ⟨by omega,h4⟩, List.getElem_append_left (by simp; omega),
          List.getElem_append_right (by simp; omega)]
        simp [Nat.min_eq_left hoff]
      · rw [if_neg (by omega), List.getElem_append_right (by simp; omega)]
        simp only [List.getElem_drop, List.getElem_map, List.getElem_range]
        congr 1
        simp
        omega

/-- What a call of `writei` that returns has done. -/
structure Wrote (sb : Superblock) (ip : Fin ninode) (src : ℕ → UInt8) (off n : ℕ) (s t : Sys) :
    Prop where
  consistent : Consistent sb t.disk
  icache : ∃ a, t.icache = (s.withNode ip { (s.icache ip).node with
    size := max (s.icache ip).node.size (off + n), addrs := a }).icache
  persisted : sb.dinode t.disk (s.icache ip).inum = (t.icache ip).node
  content : content t.disk (t.icache ip).node =
    splice (content s.disk (s.icache ip).node) off ((List.range n).map src)
  others : ∀ j < sb.ninodes, j ≠ (s.icache ip).inum →
    sb.dinode t.disk j = sb.dinode s.disk j ∧ (IsAllocated sb (sb.dinode s.disk) j →
      Fs.content t.disk (sb.dinode t.disk j) = Fs.content s.disk (sb.dinode s.disk j))
  busy : t.busy = s.busy
  file : t.file = s.file
  proc : t.proc = s.proc
  console : t.console = s.console
  log : LogGrows sb s.log t.log
  logged : ∀ o, off ≤ o → o < off + n → blockOf t.disk (t.icache ip).node (o / bsize) ∈ t.log.block

theorem Untouched.content {d d' : ℕ → Block} {n : Dinode} (h : Untouched d d' n)
    (hm : ∀ o < n.size, blockOf d n (o / bsize) ≠ 0) : content d' n = content d n := by
  unfold Fs.content
  refine List.map_congr_left fun o ho => ?_
  have hb : blockOf d' n (o / bsize) = blockOf d n (o / bsize) := h.slot
  unfold byteAt
  rw [hb]
  exact congrArg (Block.mem · _) (h _ (hm o (List.mem_range.mp ho)))

theorem Edited.inodes_same {j : ℕ} (h : Edited sb ip s t) (L : sb.Layout) (hj : j < sb.ninodes) :
    sb.dinode t.disk j = sb.dinode s.disk j := dinode_congr_block (h.inodes _ (iblock_lt L hj))

/-- The contents of the other inodes are as before. -/
theorem others_of_untouched (hc : Consistent sb s.disk) {d' : ℕ → Block} (hin : ∀ j < sb.ninodes, j ≠ (s.icache ip).inum →
      sb.dinode d' j = sb.dinode s.disk j)
    (hun : ∀ j ≠ (s.icache ip).inum, IsAllocated sb (sb.dinode s.disk) j →
      Untouched s.disk d' (sb.dinode s.disk j)) :
    ∀ j < sb.ninodes, j ≠ (s.icache ip).inum →
      sb.dinode d' j = sb.dinode s.disk j ∧ (IsAllocated sb (sb.dinode s.disk) j →
        content d' (sb.dinode d' j) = content s.disk (sb.dinode s.disk j)) := by
  intro j hj hne
  refine ⟨hin j hj hne,fun ha => ?_⟩
  rw [hin j hj hne]
  refine (hun j hne ha).content fun o ho => hc.mapped j ha _ ?_
  have := Nat.div_mul_le_self o bsize
  omega

section Law
variable (L : sb.Layout) {me : Fin nproc} (hc : Consistent sb s.disk) (hl : Locked sb me ip s)
  (hb : s.busy = [])
include L hc hl

/-- A write that does not reach past the end. -/
theorem Written.wrote_within (hw : Written sb (sb.dinode s.disk) ip src off s n t)
    (hsame : (t.icache ip).node = (s.icache ip).node) (hin : off + n ≤ (s.icache ip).node.size) :
    Wrote sb ip src off n s t := by
  have hdin {j : ℕ} (hj : j < sb.ninodes) := hw.edited.inodes_same L hj
  have hmax : max (s.icache ip).node.size (off + n) = (s.icache ip).node.size := by omega
  refine ⟨?_,?_,?_,?_,others_of_untouched hc (fun j hj _ => hdin hj) hw.others,hw.edited.busy,
    hw.edited.file,hw.edited.proc,hw.edited.console,hw.edited.log,hw.logged⟩
  · refine hw.volume.congr_ino fun j hj => ?_
    unfold view
    rw [hw.edited.inum, hsame, hl.node, Function.update_eq_self, hdin hj]
  · obtain ⟨a,ha⟩ := hw.edited.icache
    refine ⟨a,?_⟩
    rw [ha, hmax]
  · rw [hdin hl.inum, hsame, hl.node]
  · unfold content
    rw [hsame, ← map_range_splice (f := byteAt t.disk (s.icache ip).node) (by omega) fun o ho => ?_, hmax]
    rw [← hw.bytes o (by omega), hsame]

include hb

/-- A write that reaches past the end, after the new size is stored and written back. -/
theorem Written.wrote_past (hw : Written sb (sb.dinode s.disk) ip src off s n t)
    (hoff : off ≤ (s.icache ip).node.size) (hpast : (s.icache ip).node.size < off + n)
    (h32 : off + n < 2 ^ 32) {u : Sys}
    (hu : u = t.withNode ip { (t.icache ip).node with size := off + n })
    (hlog : LogGrows sb u.log (u.flush sb ip).log) :
    Wrote sb ip src off n s (u.flush sb ip) := by
  have hinum : (u.icache ip).inum = (s.icache ip).inum := by
    rw [hu, Sys.withNode_icache_self, hw.edited.inum]
  have hnode : (u.icache ip).node = { (t.icache ip).node with size := off + n } := by
    rw [hu, Sys.withNode_icache_self]
  have hud : u.disk = t.disk := by rw [hu, Sys.withNode_disk]
  have hui : (u.icache ip).inum < sb.ninodes := hinum ▸ hl.inum
  have hge {c : ℕ} (h : sb.bmapstart ≤ c) : (u.flush sb ip).disk c = t.disk c := by
    rw [flush_disk_of_ge L hui h, hud]
  have hfits : (u.icache ip).node.Fits := by
    have hf := hw.edited.fits (hl.node ▸ dinode_fits _ _)
    rw [hnode]
    exact ⟨hf.type,hf.major,hf.minor,hf.nlink,h32,hf.addrs⟩
  have hself : sb.dinode (u.flush sb ip).disk (s.icache ip).inum = (u.icache ip).node := by
    rw [← hinum]
    exact dinode_flush_self hfits
  have hother {j : ℕ} (hj : j < sb.ninodes) (hne : j ≠ (s.icache ip).inum) :
      sb.dinode (u.flush sb ip).disk j = sb.dinode s.disk j := by
    rw [dinode_flush_of_ne (hinum ▸ hne), hud, hw.edited.inodes_same L hj]
  have ht := hw.open (hc.open hl hb)
  have hblock (bn : ℕ) : blockOf (u.flush sb ip).disk (u.icache ip).node bn =
      blockOf t.disk (t.icache ip).node bn := by
    refine slot_congr (by rw [hnode]) fun hz => ?_
    have hmem := ht.volume.slot_mem ht.allocated (k := ndirect)
    rw [view_self, slot_last] at hmem
    have h1 := (hmem hz).1
    have h2 := bmapstart_lt L
    exact hge (by omega)
  have hvol : Volume sb t.disk (view (sb.dinode s.disk) u ip) := by
    have hv := hw.volume.setSize (i := (t.icache ip).inum) (n := (u.icache ip).node)
      (by rw [view_self, hnode]) (by rw [view_self, hnode]) (by rw [hnode]) fun bn hbn => ?_
    · rw [hu] at hv ⊢
      rwa [view_withNode, Sys.withNode_icache_self] at *
    · rw [view_self]
      have := hw.mapped (bn * bsize) (hbn)
      rwa [Nat.mul_div_cancel _ (by decide)] at this
  have hmax : max (s.icache ip).node.size (off + n) = off + n := by omega
  refine ⟨?_,?_,hself,?_,others_of_untouched hc (fun j hj hne => hother hj hne) fun j hne ha => ?_,
    ?_,?_,?_,?_,?_,fun o h1 h2 => ?_⟩
  · refine (hvol.writeInode L fun c hcc => hge hcc).congr_ino fun j hj => ?_
    by_cases hne : j = (s.icache ip).inum
    · rw [hne, hself]
      unfold view
      rw [hinum, Function.update_self]
    · rw [hother hj hne]
      exact (view_of_ne _ _ _ (hinum ▸ hne)).symm
  · obtain ⟨a,ha⟩ := hw.edited.icache
    refine ⟨a,?_⟩
    change u.icache = _
    rw [hu, hmax]
    unfold Sys.withNode
    rw [ha]
    simp [Sys.withNode]
  · change content (u.flush sb ip).disk (u.icache ip).node = _
    unfold content
    rw [← map_range_splice (f := byteAt (u.flush sb ip).disk (u.icache ip).node) hoff fun o ho => ?_,
      hmax, hnode]
    have hm : blockOf t.disk (t.icache ip).node (o / bsize) ≠ 0 := hw.mapped o (by omega)
    rw [← hw.bytes o (by omega)]
    unfold byteAt
    rw [hblock]
    have h1 := (ht.blockOf_mem hm).1
    have h2 := bmapstart_lt L
    rw [hge (by omega)]
  · refine (hw.others j hne ha).trans fun k hk => ?_
    rw [(hw.others j hne ha).slot] at hk ⊢
    have h1 := (hc.slot_mem ha hk).1
    have h2 := bmapstart_lt L
    exact hge (by omega)
  · change u.busy = _
    rw [hu, Sys.withNode_busy, hw.edited.busy]
  · change u.file = _
    rw [hu, Sys.withNode_file, hw.edited.file]
  · change u.proc = _
    rw [hu, Sys.withNode_proc, hw.edited.proc]
  · change u.console = _
    rw [hu, Sys.withNode_console, hw.edited.console]
  · refine .trans ?_ hlog
    rw [hu, Sys.withNode_log]
    exact hw.edited.log
  · change blockOf (u.flush sb ip).disk (u.icache ip).node _ ∈ _
    rw [hblock]
    refine hlog.subset ?_
    rw [hu, Sys.withNode_log]
    exact hw.logged o h1 h2

/-- `writei` inside the bounds does what it should, or the disk or the log is full. -/
theorem writei_ends {E : Stop → Prop} (hfull : E (.panic .tooBig))
    (hout : (s.icache ip).node.size < off + n → E (.panic .balloc)) (ho : 1 ≤ s.log.outstanding)
    (hdev : (s.icache ip).node.type ≠ tDev) (hoff : off ≤ (s.icache ip).node.size)
    (hmax : off + n ≤ maxfile * bsize) :
    Ends (writei sb me ip src off n) s E fun r t => r = some n ∧ Wrote sb ip src off n s t := by
  have h32 : off + n < 2 ^ 32 := by
    simp only [maxfile, bsize, ndirect, nindirect] at hmax
    omega
  have hu : u32 (off + n) = off + n := u32_of_lt h32
  have hop := hc.open hl hb
  unfold writei
  refine .seq_ok get_ok ?_
  rw [if_neg hdev, hu, if_neg (by omega), if_neg (by omega)]
  refine .seq (writeLoop_ends L hfull hout hop ho hmax n (by omega) (by omega) (.start hop hoff)
    fun _ => rfl) ?_
  rintro _ t ⟨rfl,hw,hsame⟩
  refine .bind ?_
  unfold growTo
  refine .seq_ok get_ok ?_
  rw [hw.edited.size]
  by_cases hpast : (s.icache ip).node.size < off + n
  · rw [if_pos ⟨by omega,hpast⟩]
    refine .seq_ok (setNode_ok _ _ _) ?_
    refine iupdate_ends L hfull ?_ ?_ ?_ fun hlog => ?_
    · rw [Sys.withNode_log, hw.edited.log.outstanding]
      exact ho
    · rw [Sys.withNode_icache_self]
      exact hw.edited.inum ▸ hl.inum
    · rw [Sys.withNode_busy, hw.edited.busy, hb]
      exact List.not_mem_nil
    · exact ⟨rfl,hw.wrote_past L hc hl hb hoff hpast h32 rfl hlog⟩
  · rw [if_neg (by omega)]
    exact ⟨rfl,hw.wrote_within L hc hl (hsame (by omega)) (by omega)⟩

end Law

/-- `writei` outside the bounds returns -1 and changes nothing. -/
theorem writei_refused (me : Fin nproc) (hdev : (s.icache ip).node.type ≠ tDev) (h1 : off < 2 ^ 32)
    (h2 : n < 2 ^ 32)
    (hbad : (s.icache ip).node.size < off ∨ 2 ^ 32 ≤ off + n ∨ maxfile * bsize < off + n) :
    writei sb me ip src off n s = .ok (none,s) := by
  unfold writei
  rw [bind_ok get_ok, if_neg hdev]
  by_cases hwrap : (s.icache ip).node.size < off ∨ u32 (off + n) < off
  · rw [if_pos hwrap, pure_ok]
  · have h32 : off + n < 2 ^ 32 := by
      unfold u32 at hwrap
      omega
    have hu : u32 (off + n) = off + n := u32_of_lt h32
    rw [if_neg hwrap, hu, if_pos (by omega), pure_ok]

end X86OsDev.Xv6.Fs
