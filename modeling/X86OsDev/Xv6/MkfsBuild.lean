import X86OsDev.Lib.Counting
import X86OsDev.Xv6.MkfsAppend

/-! # Building an image

Between the calls of `ialloc` and `iappend` the image is a consistent file
system with the files written so far.
-/
namespace X86OsDev.Xv6.Mkfs
open Fault Memory Fs Counting

/-- The image has the inodes below `freeinode`, with these contents. -/
structure Built (m : Img) (bytes : ℕ → List UInt8) : Prop where
  fresh : Fresh m
  last : m.freeinode ≤ ninodes
  consistent : Consistent sb m.disk
  kind : ∀ i < ninodes, (sb.dinode m.disk i).type =
    if 1 ≤ i ∧ i < m.freeinode then if i = rootino then tDir else tFile else 0
  content : ∀ i, 1 ≤ i → i < m.freeinode → content m.disk (sb.dinode m.disk i) = bytes i
  tail : ∀ i, 1 ≤ i → i < m.freeinode → Tail m.disk (sb.dinode m.disk i) (bytes i).length
  count : m.freeblock = nmeta + ∑ i ∈ Finset.range m.freeinode, need (bytes i).length

theorem iblock_lt_map {i : ℕ} (hi : i < ninodes) : sb.iblock i < 58 := by
  unfold Superblock.iblock sb nlog
  simp only [ninodes, ipb, bsize, logsize, maxopblocks] at *
  omega

theorem Tail.congr {d d' : ℕ → Block} {n n' : Dinode} {size : ℕ} (h : Tail d n size) (ha : n'.addrs = n.addrs)
    (hd : Untouched d d' n) : Tail d' n' size := by
  have hblock (bn : ℕ) : blockOf d' n' bn = blockOf d n bn := by
    have h1 : blockOf d' n bn = blockOf d n bn := hd.slot
    rw [← h1]
    exact slot_congr ha fun _ => rfl
  refine ⟨fun bn hbn => ?_,?_,fun o ho hb => ?_⟩
  · rw [hblock]
    exact h.unmapped bn hbn
  · rw [ha]
    exact h.indirect
  · rw [hblock] at hb
    have hpad := h.pad o ho hb
    have hsame : d' (blockOf d n (o / bsize)) = d (blockOf d n (o / bsize)) := hd _ hb
    unfold byteAt at hpad ⊢
    rw [hblock, hsame, hpad]

theorem nproc_pos : 0 < nproc := by decide

/-- The state of the kernel that an image is compared with, for work on an inode. -/
def Img.sys (m : Img) (i : ℕ) : Sys where
  disk := m.disk
  busy := []
  log := ⟨List.replicate (logsize + 1) 0,1,false,logsize⟩
  icache _ := ⟨i,1,some ⟨0,nproc_pos⟩,true,sb.dinode m.disk i⟩
  file _ := ⟨.none,0,false,false,entry,0⟩
  proc _ := ⟨none,fun _ => none⟩
  console _ := none

section Append
variable {m : Img} {bytes : ℕ → List UInt8} {i : ℕ} {data : List UInt8}

theorem Built.locked (h : Built m bytes) (h1 : 1 ≤ i) (h2 : i < m.freeinode) : Locked sb ⟨0,nproc_pos⟩ entry (m.sys i) := by
  have hi : i < ninodes := h2.trans_le h.last
  refine ⟨rfl,Nat.one_pos,rfl,hi,?_,rfl⟩
  change (sb.dinode m.disk i).type ≠ 0
  rw [h.kind i hi, if_pos ⟨h1,h2⟩]
  split <;> decide

theorem Built.start (h : Built m bytes) (h1 : 1 ≤ i) (h2 : i < m.freeinode) :
    Appended (sb.dinode m.disk) (m.sys i) m i (bytes i).length data m (sb.dinode m.disk i) 0 (m.sys i) := by
  have hsize : (sb.dinode m.disk i).size = (bytes i).length := by
    rw [← h.content i h1 h2]
    simp [Fs.content]
  have hO := Consistent.open (s := m.sys i) h.consistent (h.locked h1 h2) rfl
  exact ⟨h.fresh,⟨rfl,rfl,rfl,by simp [Img.sys, LogProtocol.Log.n]⟩,.start hO hsize.ge,h.tail i h1 h2,rfl,rfl⟩

theorem rinode_ok (hF : Fresh m) (hi : i < ninodes) : rinode i m = .ok (sb.dinode m.disk i,m) := by
  have hb := iblock_lt_map hi
  unfold rinode
  rw [bind_ok (rsect_ok hF (hb.trans (by decide))), pure_ok]
  unfold Superblock.dinode
  rw [m.disk_of_ne (by omega)]

/-- The image after an inode was written. -/
def Img.withDinode (m : Img) (i : ℕ) (n : Dinode) : Img :=
  { m with
    sect := Function.update m.sect (sb.iblock i) ((m.sect (sb.iblock i)).setDinode i n)
    nsect := max m.nsect (sb.iblock i + 1) }

theorem winode_ok (hF : Fresh m) (hi : i < ninodes) (n : Dinode) : winode i n m = .ok ((),m.withDinode i n) := by
  have hb := iblock_lt_map hi
  unfold winode
  rw [bind_ok (rsect_ok hF (hb.trans (by decide)))]
  rfl

theorem Fresh.withDinode (hF : Fresh m) (hi : i < ninodes) (n : Dinode) : Fresh (m.withDinode i n) := by
  have hb := iblock_lt_map hi
  have hge := hF.ge
  have hmeta : nmeta = 59 := rfl
  refine ⟨?_,hF.ge,hF.le,fun b hb' hbs => ?_⟩
  · change max m.nsect (sb.iblock i + 1) = fssize
    rw [hF.nsect]
    simp only [fssize]
    omega
  · have hb'' : m.freeblock ≤ b := hb'
    exact (Function.update_of_ne (by omega) _ _).trans (hF.zero b hb' hbs)

theorem withDinode_disk (hi : i < ninodes) (n : Dinode) :
    (m.withDinode i n).disk = Function.update m.disk (sb.iblock i) ((m.disk (sb.iblock i)).setDinode i n) := by
  have hb := iblock_lt_map hi
  rw [m.disk_of_ne (by omega)]
  exact Function.update_comm (show sb.iblock i ≠ sb.bmapstart by change _ ≠ 58; omega) _ _ _

theorem map_getD_range (l : List UInt8) : (List.range l.length).map (fun i => l.getD i 0) = l := by
  apply List.ext_getElem
  · simp
  · intro i h1 h2
    simp [h2]

/-- The inode is written back with its new size. -/
theorem Built.appended {m1 : Img} {din : Dinode} {t : Sys} (h : Built m bytes) (h1 : 1 ≤ i) (h2 : i < m.freeinode)
    (hne : 0 < data.length) (hmax : (bytes i).length + data.length < 2 ^ 32)
    (ha : Appended (sb.dinode m.disk) (m.sys i) m i (bytes i).length data m1 din data.length t) :
    Built (m1.withDinode i { din with size := (bytes i).length + data.length })
      (Function.update bytes i (bytes i ++ data)) := by
  have hi : i < ninodes := h2.trans_le h.last
  have hl := h.locked h1 h2
  have hO := Consistent.open (s := m.sys i) h.consistent hl rfl
  have hOt := ha.written.open hO
  have hsize : (sb.dinode m.disk i).size = (bytes i).length := by
    rw [← h.content i h1 h2]
    simp [Fs.content]
  have hti : (t.icache entry).inum = i := ha.shows.inum
  have htn : (t.icache entry).node = din := ha.shows.node
  obtain ⟨u,hu⟩ : ∃ u, u = t.withNode entry { (t.icache entry).node with size := (bytes i).length + data.length } := ⟨_,rfl⟩
  have hui : (u.icache entry).inum = i := by rw [hu, Sys.withNode_icache_self, hti]
  have hun : (u.icache entry).node = { din with size := (bytes i).length + data.length } := by
    rw [hu, Sys.withNode_icache_self, htn]
  have hud : u.disk = m1.disk := by rw [hu, Sys.withNode_disk, ha.shows.disk]
  have hlog : LogGrows sb u.log (u.flush sb entry).log := by
    refine logGrows_long ?_ ?_
    · rw [hui]
      exact isHome_iblock sb_layout hi
    · rw [hu, Sys.withNode_log]
      exact ha.shows.long
  have hw := ha.written.wrote_past sb_layout h.consistent hl rfl hsize.ge (by change (sb.dinode m.disk i).size < _; omega) hmax hu hlog
  have hdisk : (u.flush sb entry).disk = (m1.withDinode i { din with size := (bytes i).length + data.length }).disk := by
    rw [withDinode_disk hi]
    unfold Sys.flush
    rw [Sys.write_disk, hui, hun, hud]
  have hnodeEq : (u.flush sb entry).icache = u.icache := rfl
  have hself : sb.dinode (u.flush sb entry).disk i = { din with size := (bytes i).length + data.length } := by
    have := hw.persisted
    rwa [hnodeEq, hun] at this
  have hcontent := hw.content
  rw [hnodeEq, hun] at hcontent
  have hothers {j : ℕ} (hj : j < ninodes) (hji : j ≠ i) := hw.others j hj hji
  have hge {c : ℕ} (hc : sb.bmapstart ≤ c) : (u.flush sb entry).disk c = t.disk c := by
    rw [flush_disk_of_ge sb_layout (by rw [hui]; exact hi) hc, hud, ha.shows.disk]
  have hfree : (m1.withDinode i { din with size := (bytes i).length + data.length }).freeinode = m.freeinode := ha.freeinode
  have hkind := h.kind i hi
  have hcount := ha.count
  refine ⟨ha.fresh.withDinode hi _,by rw [hfree]; exact h.last,?_,fun j hj => ?_,fun j hj1 hj2 => ?_,fun j hj1 hj2 => ?_,?_⟩
  · rw [← hdisk]
    exact hw.consistent
  · rw [← hdisk, hfree, ← h.kind j hj]
    by_cases hji : j = i
    · subst hji
      have htype := ha.written.edited.type
      rw [htn] at htype
      rw [hself]
      exact htype
    · rw [(hothers hj hji).1]
      rfl
  · rw [hfree] at hj2
    rw [← hdisk]
    by_cases hji : j = i
    · subst hji
      rw [hself, hcontent, Function.update_self, map_getD_range]
      change splice (Fs.content m.disk (sb.dinode m.disk j)) _ _ = _
      rw [h.content j h1 h2]
      simp [splice]
    · have hj := hj2.trans_le h.last
      have hall : IsAllocated sb (sb.dinode m.disk) j := by
        refine ⟨hj,?_⟩
        rw [h.kind j hj, if_pos ⟨hj1,hj2⟩]
        split <;> decide
      rw [(hothers hj hji).2 hall, Function.update_of_ne hji]
      exact h.content j hj1 hj2
  · rw [hfree] at hj2
    rw [← hdisk]
    by_cases hji : j = i
    · subst hji
      rw [hself, Function.update_self, List.length_append]
      refine ha.tail.congr rfl fun k hk => hge ?_
      have := (ha.shows.slot_lt hOt hk).1
      exact (bmapstart_lt sb_layout).le.trans this
    · have hj := hj2.trans_le h.last
      have hall : IsAllocated sb (sb.dinode m.disk) j := by
        refine ⟨hj,?_⟩
        rw [h.kind j hj, if_pos ⟨hj1,hj2⟩]
        split <;> decide
      have htouch : Untouched m.disk t.disk (sb.dinode m.disk j) := ha.written.others j hji hall
      rw [(hothers hj hji).1, Function.update_of_ne hji]
      refine (h.tail j hj1 hj2).congr rfl (htouch.trans fun k hk => hge ?_)
      rw [htouch.slot] at hk ⊢
      have := (h.consistent.slot_mem hall hk).1
      exact (bmapstart_lt sb_layout).le.trans this
  · rw [hfree]
    change m1.freeblock = _
    have hsum := sum_change (f := fun j => need (bytes j).length)
      (g := fun j => need (Function.update bytes i (bytes i ++ data) j).length) (Finset.mem_range.mpr h2)
      fun j _ hji => by rw [Function.update_of_ne hji]
    rw [Function.update_self, List.length_append] at hsum
    have := h.count
    omega

/-- `iappend` appends to the content of the inode, if there is room. -/
theorem iappend_ends (h : Built m bytes) (h1 : 1 ≤ i) (h2 : i < m.freeinode) (hne : 0 < data.length) :
    Ends (iappend i data) m (fun _ => TooMuch m (bytes i).length data.length) fun _ m' =>
      Built m' (Function.update bytes i (bytes i ++ data)) ∧ m'.freeinode = m.freeinode := by
  have hi : i < ninodes := h2.trans_le h.last
  have hO := Consistent.open (s := m.sys i) h.consistent (h.locked h1 h2) rfl
  have hsize : (sb.dinode m.disk i).size = (bytes i).length := by
    rw [← h.content i h1 h2]
    simp [Fs.content]
  unfold iappend
  refine .seq_ok (rinode_ok h.fresh hi) ?_
  rw [hsize]
  have hstart : Appended (sb.dinode m.disk) (m.sys i) m i (bytes i).length data m (sb.dinode m.disk i) 0 (m.sys i) :=
    h.start h1 h2
  have hloop := appendLoop_ends hO data.length hstart (Nat.zero_le _) (Nat.sub_le _ _)
  rw [Nat.add_zero, List.drop_zero] at hloop
  refine .seq hloop ?_
  rintro ⟨din,_⟩ m1 ⟨rfl,t,ha⟩
  dsimp only at ha ⊢
  have hmax : (bytes i).length + data.length ≤ maxfile * bsize := by
    by_contra hc
    refine ha.mapped (x := (bytes i).length + data.length - 1) (by omega) (blockOf_of_ge ?_)
    simp only [bsize] at *
    omega
  have hlt : (bytes i).length + data.length < 2 ^ 32 := by
    simp only [maxfile, ndirect, nindirect, bsize] at hmax
    omega
  exact (ends_of_ok (winode_ok ha.fresh hi _)).mpr ⟨h.appended h1 h2 hne hlt ha,ha.freeinode⟩

end Append

/-! ## New inodes -/

/-- An inode that has just been allocated. -/
def newNode (type : ℕ) : Dinode := ⟨type,0,0,1,0,fun _ => 0⟩

theorem slot_newNode (d : ℕ → Block) (type k : ℕ) : slot d (newNode type) k = 0 := by
  unfold slot
  split
  · rfl
  · exact if_pos rfl

theorem tail_newNode (d : ℕ → Block) (type : ℕ) : Tail d (newNode type) 0 :=
  ⟨fun _ _ => slot_newNode _ _ _,iff_of_true rfl (Nat.zero_le _),fun _ _ h => absurd (slot_newNode _ _ _) h⟩

/-- An inode without blocks is added to the table. -/
theorem Volume.add {d : ℕ → Block} {ino : ℕ → Dinode} {i : ℕ} (h : Volume sb d ino) (hi : ¬ IsAllocated sb ino i) (type : ℕ) :
    Volume sb d (Function.update ino i (newNode type)) where
  owns := by
    have hr : refs sb d (Function.update ino i (newNode type)) = refs sb d ino := by
      funext ⟨j,k⟩
      by_cases hji : j = i
      · subst hji
        rw [refs_of_not_allocated hi]
        unfold refs
        split
        · dsimp only
          rw [Function.update_self, slot_newNode]
        · rfl
      · exact refs_update_of_ne hji
    exact hr ▸ h.owns
  metadata := h.metadata
  mapped j hj bn hbn := by
    by_cases hji : j = i
    · subst hji
      rw [Function.update_self] at hbn
      exact absurd hbn (Nat.not_lt_zero _)
    · unfold IsAllocated at hj
      rw [Function.update_of_ne hji] at hj hbn ⊢
      exact h.mapped j hj bn hbn

section Ialloc
variable {m : Img} {bytes : ℕ → List UInt8} {type : ℕ}

theorem Built.allocated (h : Built m bytes) {i : ℕ} : IsAllocated sb (sb.dinode m.disk) i ↔ 1 ≤ i ∧ i < m.freeinode := by
  constructor
  · rintro ⟨hi,ht⟩
    rw [h.kind i hi] at ht
    by_contra hc
    exact ht (if_neg hc)
  · rintro ⟨h1,h2⟩
    have hi := h2.trans_le h.last
    refine ⟨hi,?_⟩
    rw [h.kind i hi, if_pos ⟨h1,h2⟩]
    split <;> decide

theorem newNode_fits (ht : type < 2 ^ 16) : (newNode type).Fits :=
  ⟨ht,Nat.two_pow_pos 16,Nat.two_pow_pos 16,Nat.one_lt_two_pow (by decide),Nat.two_pow_pos 32,fun _ => Nat.two_pow_pos 32⟩

/-- `ialloc` adds an empty file. -/
theorem ialloc_ok (h : Built m bytes) (h1 : 1 ≤ m.freeinode) (hlt : m.freeinode < ninodes)
    (ht : type = if m.freeinode = rootino then tDir else tFile) :
    ∃ m', ialloc type m = .ok (m.freeinode,m') ∧ Built m' (Function.update bytes m.freeinode []) ∧
      m'.freeinode = m.freeinode + 1 := by
  have hF : Fresh { m with freeinode := m.freeinode + 1 } := ⟨h.fresh.nsect,h.fresh.ge,h.fresh.le,h.fresh.zero⟩
  have hnone : ¬ IsAllocated sb (sb.dinode m.disk) m.freeinode := by
    rw [h.allocated]
    omega
  have hfits : (newNode type).Fits := newNode_fits (by
    rw [ht]
    split <;> decide)
  refine ⟨{ m with freeinode := m.freeinode + 1 }.withDinode m.freeinode (newNode type),?_,?_,rfl⟩
  · unfold ialloc
    refine (bind_ok get_ok).trans ((bind_ok (modify_ok _)).trans ((bind_ok (winode_ok hF hlt _)).trans ?_))
    rfl
  · have hdisk : ({ m with freeinode := m.freeinode + 1 }.withDinode m.freeinode (newNode type)).disk =
        Function.update m.disk (sb.iblock m.freeinode) ((m.disk (sb.iblock m.freeinode)).setDinode m.freeinode (newNode type)) :=
      withDinode_disk hlt _
    generalize hd' : ({ m with freeinode := m.freeinode + 1 }.withDinode m.freeinode (newNode type)).disk = d' at hdisk
    have hself : sb.dinode d' m.freeinode = newNode type := by
      rw [hdisk]
      exact dinode_update_self hfits
    have hother {j : ℕ} (hj : j ≠ m.freeinode) : sb.dinode d' j = sb.dinode m.disk j := by
      rw [hdisk]
      exact dinode_update_of_ne hj
    have hge {c : ℕ} (hc : sb.bmapstart ≤ c) : d' c = m.disk c := by
      have := iblock_lt sb_layout hlt
      rw [hdisk]
      exact Function.update_of_ne (by omega) _ _
    have htouch {j : ℕ} (hj : IsAllocated sb (sb.dinode m.disk) j) : Untouched m.disk d' (sb.dinode m.disk j) :=
      fun k hk => hge ((bmapstart_lt sb_layout).le.trans (h.consistent.slot_mem hj hk).1)
    refine ⟨hF.withDinode hlt _,hlt,?_,fun j hj => ?_,fun j hj1 hj2 => ?_,fun j hj1 hj2 => ?_,?_⟩
    · rw [hd']
      refine ((Volume.add h.consistent hnone type).writeInode sb_layout fun c hc => hge hc).congr_ino fun j hj => ?_
      by_cases hji : j = m.freeinode
      · rw [hji, hself, Function.update_self]
      · rw [hother hji, Function.update_of_ne hji]
    · rw [hd']
      change _ = if 1 ≤ j ∧ j < m.freeinode + 1 then if j = rootino then tDir else tFile else 0
      by_cases hji : j = m.freeinode
      · subst hji
        rw [hself, if_pos ⟨h1,Nat.lt_succ_self _⟩, ← ht]
        rfl
      · rw [hother hji, h.kind j hj]
        exact if_congr (by omega) rfl rfl
    · rw [hd']
      by_cases hji : j = m.freeinode
      · subst hji
        rw [hself, Function.update_self]
        rfl
      · have hj2' : j < m.freeinode + 1 := hj2
        have hall := h.allocated.mpr ⟨hj1,by omega⟩
        rw [hother hji, Function.update_of_ne hji, ← h.content j hj1 (by omega)]
        refine (htouch hall).content fun o ho => h.consistent.mapped j hall _ ?_
        have := Nat.div_mul_le_self o bsize
        omega
    · rw [hd']
      by_cases hji : j = m.freeinode
      · subst hji
        rw [hself, Function.update_self]
        exact tail_newNode _ _
      · have hj2' : j < m.freeinode + 1 := hj2
        rw [hother hji, Function.update_of_ne hji]
        exact (h.tail j hj1 (by omega)).congr rfl (htouch (h.allocated.mpr ⟨hj1,by omega⟩))
    · change m.freeblock = nmeta + ∑ j ∈ Finset.range (m.freeinode + 1), _
      rw [Finset.sum_range_succ, Function.update_self, h.count]
      have hsum : ∑ j ∈ Finset.range m.freeinode, need (Function.update bytes m.freeinode [] j).length =
          ∑ j ∈ Finset.range m.freeinode, need (bytes j).length :=
        Finset.sum_congr rfl fun j hj => by rw [Function.update_of_ne (Finset.mem_range.mp hj).ne]
      rw [hsum]
      rfl

end Ialloc

end X86OsDev.Xv6.Mkfs
