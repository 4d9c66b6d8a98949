import X86OsDev.Lib.Ownership
import X86OsDev.Xv6.Fs

/-! # The blocks of inodes

Which blocks an inode refers to and when that is in order: no block is referred
to twice, and the free map marks those that are. Every function of `fs.c` that
changes a block does so by a logged write, and what the allocator does is two
of them.
-/
namespace X86OsDev.Xv6.Fs
open Fault Memory Ownership

/-! ## References -/

/-- The block references of an inode: its addresses, then the words of its indirect block. -/
def slot (d : ℕ → Block) (n : Dinode) (k : ℕ) : ℕ :=
  if h : k < ndirect + 1 then n.addrs ⟨k,h⟩
  else if n.addrs (Fin.last ndirect) = 0 then 0
  else if k < ndirect + 1 + nindirect then
    (d (n.addrs (Fin.last ndirect))).word (4 * (k - (ndirect + 1)))
  else 0

/-- The reference that has block `bn` of the content. -/
def dataSlot (bn : ℕ) : ℕ := if bn < ndirect then bn else bn + 1

/-- The disk block that `bmap` finds for block `bn` of the content, or zero. -/
def blockOf (d : ℕ → Block) (n : Dinode) (bn : ℕ) : ℕ := slot d n (dataSlot bn)

variable (sb : Superblock)

/-- An inode that is in use. -/
def IsAllocated (ino : ℕ → Dinode) (i : ℕ) : Prop := i < sb.ninodes ∧ (ino i).type ≠ 0

instance (ino : ℕ → Dinode) (i : ℕ) : Decidable (IsAllocated sb ino i) :=
  inferInstanceAs (Decidable (_ ∧ _))

/-- The references of all allocated inodes. -/
def refs (d : ℕ → Block) (ino : ℕ → Dinode) (p : ℕ × ℕ) : ℕ :=
  if IsAllocated sb ino p.1 then slot d (ino p.1) p.2 else 0

def dataArea : Set ℕ := {b | sb.datastart ≤ b ∧ b < sb.size}

/-- Block ownership over an inode table `ino`: no block has two references, the free map marks
the metadata and the referenced blocks, and the content of every inode is mapped. -/
structure Volume (d : ℕ → Block) (ino : ℕ → Dinode) : Prop where
  owns : Owns 0 (dataArea sb) (refs sb d ino) fun b => sb.bit d b = true
  metadata : ∀ b < sb.datastart, sb.bit d b = true
  mapped : ∀ i, IsAllocated sb ino i → ∀ bn, bn * bsize < (ino i).size → blockOf d (ino i) bn ≠ 0

/-- The file system is consistent: block ownership over the inodes on disk. -/
def Consistent (d : ℕ → Block) : Prop := Volume sb d (sb.dinode d)

section Slots
variable {d d' : ℕ → Block} {n n' : Dinode} {k : ℕ}

theorem slot_direct {k : ℕ} (h : k < ndirect + 1) : slot d n k = n.addrs ⟨k,h⟩ := dif_pos h

theorem slot_last : slot d n ndirect = n.addrs (Fin.last ndirect) := slot_direct (Nat.lt_succ_self _)

/-- The words of an indirect block that is not there. -/
theorem slot_of_no_indirect (hk : ndirect < k) (h : n.addrs (Fin.last ndirect) = 0) :
    slot d n k = 0 := by
  unfold slot
  rw [dif_neg (by omega), if_pos h]

theorem slot_indirect (h : n.addrs (Fin.last ndirect) ≠ 0) {j : ℕ} (hj : j < nindirect) :
    slot d n (ndirect + 1 + j) = (d (n.addrs (Fin.last ndirect))).word (4 * j) := by
  unfold slot
  rw [dif_neg (by omega), if_neg h, if_pos (by omega), Nat.add_sub_cancel_left]

theorem slot_of_ge (h : ndirect + 1 + nindirect ≤ k) : slot d n k = 0 := by
  unfold slot
  rw [dif_neg (by omega)]
  split
  · rfl
  · rw [if_neg (by omega)]

/-- The references depend on the addresses and on the indirect block. -/
theorem slot_congr (ha : n'.addrs = n.addrs)
    (h : n.addrs (Fin.last ndirect) ≠ 0 → d' (n.addrs (Fin.last ndirect)) = d (n.addrs (Fin.last ndirect))) :
    slot d' n' k = slot d n k := by
  unfold slot
  rw [ha]
  split
  · rfl
  · split
    · rfl
    · rename_i hne
      rw [h hne]

/-- The words of the indirect block depend on its address and its content. -/
theorem slot_congr_indirect (hk : ndirect < k)
    (ha : n'.addrs (Fin.last ndirect) = n.addrs (Fin.last ndirect))
    (h : n.addrs (Fin.last ndirect) ≠ 0 → d' (n.addrs (Fin.last ndirect)) = d (n.addrs (Fin.last ndirect))) :
    slot d' n' k = slot d n k := by
  unfold slot
  rw [dif_neg (by omega), dif_neg (by omega), ha]
  split
  · rfl
  · rename_i hne
    rw [h hne]

theorem dataSlot_injective {a b : ℕ} (h : dataSlot a = dataSlot b) : a = b := by
  unfold dataSlot at h
  split at h <;> split at h <;> omega

theorem dataSlot_ne_last (bn : ℕ) : dataSlot bn ≠ ndirect := by
  unfold dataSlot
  split <;> omega

theorem blockOf_direct {bn : ℕ} (h : bn < ndirect) :
    blockOf d n bn = n.addrs ⟨bn,Nat.lt_succ_of_lt h⟩ := by
  unfold blockOf dataSlot
  rw [if_pos h, slot_direct]

theorem dataSlot_of_ge {bn : ℕ} (h : ¬ bn < ndirect) : dataSlot bn = ndirect + 1 + (bn - ndirect) := by
  unfold dataSlot
  rw [if_neg h]
  omega

theorem blockOf_indirect {bn : ℕ} (h : ¬ bn < ndirect) (hj : bn - ndirect < nindirect)
    (ha : n.addrs (Fin.last ndirect) ≠ 0) :
    blockOf d n bn = (d (n.addrs (Fin.last ndirect))).word (4 * (bn - ndirect)) := by
  unfold blockOf
  rw [dataSlot_of_ge h, slot_indirect ha hj]

theorem blockOf_of_ge {bn : ℕ} (h : maxfile ≤ bn) : blockOf d n bn = 0 := by
  simp only [maxfile] at h
  unfold blockOf dataSlot
  rw [if_neg (by omega)]
  exact slot_of_ge (by omega)

/-- A disk has the blocks of an inode as another disk has them. -/
def Untouched (d d' : ℕ → Block) (n : Dinode) : Prop := ∀ k, slot d n k ≠ 0 → d' (slot d n k) = d (slot d n k)

theorem Untouched.slot (h : Untouched d d' n) : slot d' n k = slot d n k := by
  apply slot_congr rfl
  intro hne
  rw [← slot_last (d := d)] at hne ⊢
  exact h ndirect hne

theorem Untouched.trans {d'' : ℕ → Block} (h : Untouched d d' n) (h' : Untouched d' d'' n) :
    Untouched d d'' n := by
  intro k hk
  have := h' k (by rwa [h.slot])
  rw [h.slot] at this
  rw [this, h k hk]

theorem Untouched.refl : Untouched d d n := fun _ _ => rfl

end Slots

/-! ## Content -/

/-- The byte of the content at an offset. -/
def byteAt (d : ℕ → Block) (n : Dinode) (o : ℕ) : UInt8 := (d (blockOf d n (o / bsize))).mem (o % bsize)

/-- The content of an inode: its first `size` bytes. -/
def content (d : ℕ → Block) (n : Dinode) : List UInt8 := (List.range n.size).map (byteAt d n)

theorem length_content (d : ℕ → Block) (n : Dinode) : (content d n).length = n.size := by simp [content]

section Volume
variable {sb} {d d' : ℕ → Block} {ino ino' : ℕ → Dinode}

theorem refs_of_allocated {i k : ℕ} (h : IsAllocated sb ino i) :
    refs sb d ino (i,k) = slot d (ino i) k := if_pos h

theorem refs_of_not_allocated {i k : ℕ} (h : ¬ IsAllocated sb ino i) : refs sb d ino (i,k) = 0 :=
  if_neg h

theorem isAllocated_congr (h : ∀ i < sb.ninodes, ino' i = ino i) {i : ℕ} :
    IsAllocated sb ino' i ↔ IsAllocated sb ino i := by
  unfold IsAllocated
  refine and_congr_right fun hi => ?_
  rw [h i hi]

/-- The inode table matters below `ninodes` only. -/
theorem refs_congr (h : ∀ i < sb.ninodes, ino' i = ino i) : refs sb d ino' = refs sb d ino := by
  funext ⟨i,k⟩
  by_cases hi : IsAllocated sb ino i
  · rw [refs_of_allocated hi, refs_of_allocated ((isAllocated_congr h).mpr hi), h i hi.1]
  · rw [refs_of_not_allocated hi, refs_of_not_allocated fun hc => hi ((isAllocated_congr h).mp hc)]

theorem Volume.congr_ino (h : Volume sb d ino) (hi : ∀ i < sb.ninodes, ino' i = ino i) :
    Volume sb d ino' where
  owns := refs_congr hi ▸ h.owns
  metadata := h.metadata
  mapped i ha bn hbn := by
    unfold IsAllocated at ha
    rw [hi i ha.1] at ha hbn ⊢
    exact h.mapped i ha bn hbn

theorem Volume.slot_mem (h : Volume sb d ino) {i k : ℕ} (hi : IsAllocated sb ino i)
    (hk : slot d (ino i) k ≠ 0) : slot d (ino i) k ∈ dataArea sb := by
  have := h.owns.mem (i,k)
  rw [refs_of_allocated hi] at this
  exact this hk

theorem Volume.bit_slot (h : Volume sb d ino) {i k : ℕ} (hi : IsAllocated sb ino i)
    (hk : slot d (ino i) k ≠ 0) : sb.bit d (slot d (ino i) k) = true := by
  have := h.owns.marked_of_ref (i := (i,k))
  rw [refs_of_allocated hi] at this
  exact this hk

theorem Volume.slot_once (h : Volume sb d ino) {i j k l : ℕ} (hi : IsAllocated sb ino i)
    (hj : IsAllocated sb ino j) (hk : slot d (ino i) k ≠ 0)
    (he : slot d (ino i) k = slot d (ino j) l) : i = j ∧ k = l := by
  have := h.owns.once (i,k) (j,l)
  rw [refs_of_allocated hi, refs_of_allocated hj] at this
  exact Prod.mk.inj (this hk he)

theorem Volume.size_le (h : Volume sb d ino) {i : ℕ} (hi : IsAllocated sb ino i) :
    (ino i).size ≤ maxfile * bsize := by
  by_contra hc
  exact h.mapped i hi maxfile (by omega) (blockOf_of_ge le_rfl)

end Volume

/-! ## Logged writes -/

/-- The state after a logged write of a block. -/
def Sys.write (s : Sys) (b : ℕ) (data : Block) : Sys :=
  { s with disk := Function.update s.disk b data, log := s.log.record b }

/-- The state with one more buffer locked. -/
def Sys.hold (s : Sys) (b : ℕ) : Sys := { s with busy := b :: s.busy }

section Write
variable (s : Sys) (b : ℕ) (data : Block)

@[simp] theorem Sys.write_disk : (s.write b data).disk = Function.update s.disk b data := rfl
@[simp] theorem Sys.write_busy : (s.write b data).busy = s.busy := rfl
@[simp] theorem Sys.write_icache : (s.write b data).icache = s.icache := rfl
@[simp] theorem Sys.write_log : (s.write b data).log = s.log.record b := rfl
@[simp] theorem Sys.write_file : (s.write b data).file = s.file := rfl
@[simp] theorem Sys.write_proc : (s.write b data).proc = s.proc := rfl
@[simp] theorem Sys.write_console : (s.write b data).console = s.console := rfl
@[simp] theorem Sys.hold_disk : (s.hold b).disk = s.disk := rfl
@[simp] theorem Sys.hold_busy : (s.hold b).busy = b :: s.busy := rfl
@[simp] theorem Sys.hold_icache : (s.hold b).icache = s.icache := rfl
@[simp] theorem Sys.hold_log : (s.hold b).log = s.log := rfl

@[simp] theorem record_outstanding (l : LogProtocol.Log) : (l.record b).outstanding = l.outstanding := by
  unfold LogProtocol.Log.record
  split <;> rfl

end Write

/-- The log after some writes: only home blocks are added, and never more than it has room for. -/
structure LogGrows (l l' : LogProtocol.Log) : Prop where
  blocks : ∃ bs, l' = { l with block := l.block ++ bs } ∧ ∀ b ∈ bs, sb.inodestart ≤ b ∧ b < sb.size
  room : l.n ≤ logsize → l'.n ≤ logsize

section Programs
variable {sb} {s : Sys} {b : ℕ} {data : Block} {E : Stop → Prop} {Q : Unit → Sys → Prop}
  {l l' l'' : LogProtocol.Log}

theorem LogGrows.refl (l : LogProtocol.Log) : LogGrows sb l l := ⟨⟨[],by simp⟩,id⟩

theorem LogGrows.trans (h : LogGrows sb l l') (h' : LogGrows sb l' l'') : LogGrows sb l l'' := by
  obtain ⟨bs,rfl,hbs⟩ := h.blocks
  obtain ⟨cs,rfl,hcs⟩ := h'.blocks
  refine ⟨⟨bs ++ cs,by simp,?_⟩,fun hn => h'.room (h.room hn)⟩
  intro b hb
  exact (List.mem_append.mp hb).elim (hbs b) (hcs b)

theorem LogGrows.subset (h : LogGrows sb l l') : l.block ⊆ l'.block := by
  obtain ⟨bs,rfl,_⟩ := h.blocks
  exact List.subset_append_left _ _

theorem LogGrows.outstanding (h : LogGrows sb l l') : l'.outstanding = l.outstanding := by
  obtain ⟨bs,rfl,_⟩ := h.blocks
  rfl

theorem LogGrows.record (hb : sb.inodestart ≤ b ∧ b < sb.size) (hfull : l.isFull = false) :
    LogGrows sb l (l.record b) := by
  have hn : l.n < logsize := by
    unfold LogProtocol.Log.isFull at hfull
    simp only [Bool.or_eq_false_iff, decide_eq_false_iff_not, not_le] at hfull
    exact hfull.1
  unfold LogProtocol.Log.record
  split
  · exact .refl l
  · refine ⟨⟨[b],rfl,?_⟩,fun _ => ?_⟩
    · simpa using hb
    · unfold LogProtocol.Log.n at hn ⊢
      rw [List.length_append, List.length_singleton]
      omega

theorem mem_record (l : LogProtocol.Log) (b : ℕ) : b ∈ (l.record b).block := by
  unfold LogProtocol.Log.record
  split
  · assumption
  · simp

theorem bread_ok (hb : b < fssize) (hn : b ∉ s.busy) : bread b s = .ok (s.disk b,s.hold b) := by
  unfold bread
  rw [bind_ok get_ok, if_neg (by omega), if_neg hn]
  rfl

theorem brelse_hold : brelse b (s.hold b) = .ok ((),s) := by
  unfold brelse
  rw [bind_ok get_ok, if_pos (show b ∈ (s.hold b).busy from List.mem_cons_self ..), set_ok]
  simp [Sys.hold]

theorem logWrite_ends (hfull : E (.panic .tooBig)) (ho : 1 ≤ s.log.outstanding)
    (h : s.log.isFull = false → Q () { s with log := s.log.record b }) :
    Ends (logWrite b) s E Q := by
  unfold logWrite
  refine .seq_ok get_ok ?_
  split
  · exact hfull
  · rename_i hf
    rw [if_neg (by omega)]
    exact h (Bool.eq_false_iff.mpr hf)

/-- A buffer that is held ends up written and released. -/
theorem bupdate_ends (hfull : E (.panic .tooBig)) (ho : 1 ≤ s.log.outstanding)
    (hb : sb.inodestart ≤ b ∧ b < sb.size)
    (h : LogGrows sb s.log (s.log.record b) → Q () (s.write b data)) :
    Ends (bupdate b data) (s.hold b) E Q := by
  unfold bupdate putData
  refine .seq_ok (modify_ok _) ?_
  refine .bind (logWrite_ends hfull ho fun hf => ?_)
  exact (ends_of_ok (brelse_hold (s := s.write b data))).mpr (h (.record hb hf))

theorem bzero_ends (hfull : E (.panic .tooBig)) (ho : 1 ≤ s.log.outstanding)
    (hb : sb.inodestart ≤ b ∧ b < sb.size) (hd : b < fssize) (hn : b ∉ s.busy)
    (h : LogGrows sb s.log (s.log.record b) → Q () (s.write b Block.zero)) :
    Ends (bzero b) s E Q := by
  unfold bzero
  refine .seq_ok (bread_ok hd hn) ?_
  exact bupdate_ends hfull ho hb h

end Programs

end X86OsDev.Xv6.Fs
