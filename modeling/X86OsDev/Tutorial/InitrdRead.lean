import X86OsDev.Tutorial.InitrdLaw

/-! # Reading a file of the ramdisk at any offset

`initrd_read` compares `offset + size` with the length after the sum has wrapped
around, so a read near the end of the 32-bit range is not cut off.
-/
namespace X86OsDev.Tutorial
open Memory

/-- The header of the node's inode describes these bytes at this address. -/
structure FileNode (r : Initrd) (node addr : ℕ) (data : List UInt8) : Prop where
  offset : load32 r.mem (r.fileHeaders + headerBytes * load32 r.mem (node + inodeOffset) + 68) = addr
  length : load32 r.mem (r.fileHeaders + headerBytes * load32 r.mem (node + inodeOffset) + 72) = data.length
  bytes : BytesAt r.mem addr data
  fits : addr + data.length ≤ 2 ^ 32

/-- The nodes that `initialise_initrd` makes are such nodes. -/
theorem Mounted.fileNode {fns : Callbacks} {m : Mem} {r : Initrd} {location : ℕ} {files : List InitrdFile}
    (h : Mounted fns m r location files) (hfits : location + dataStart + sizeBefore files files.length < 2 ^ 32)
    (i : ℕ) (hi : i < files.length) :
    FileNode r (r.rootNodes + nodeBytes * i) (location + dataStart + sizeBefore files i) files[i].data := by
  have hle := sizeBefore_mono files hi
  rw [Nat.succ_eq_add_one, sizeBefore_succ files hi] at hle
  refine ⟨?_,?_,h.data i hi,by omega⟩
  · rw [(h.nodes i hi).inode, h.headers, h.offsets i hi]
  · rw [(h.nodes i hi).inode, h.headers, h.lengths i hi]

/-- The source and the length that `initrd_read` passes to `memcpy`, if it gets there. -/
def Initrd.copied (r : Initrd) (node offset size : ℕ) : Option (ℕ × ℕ) :=
  let header := r.fileHeaders + headerBytes * load32 r.mem (node + inodeOffset)
  let length := load32 r.mem (header + 72)
  if length < offset then none
  else some (u32 (load32 r.mem (header + 68) + offset),if length < u32 (offset + size) then length - offset else size)

theorem Initrd.read_eq (r : Initrd) (node offset size buffer : ℕ) :
    r.read node offset size buffer = match r.copied node offset size with
      | none => (r.mem,0)
      | some (src,n) => (memcpy r.mem buffer src n,n) := by
  unfold Initrd.read Initrd.copied
  dsimp only
  split <;> rfl

/-- The read returns the bytes of the file from the offset on and how many these are, and looks at no byte outside the
file and changes none outside the part of the buffer that it reports. -/
structure ReadsWithin (r : Initrd) (node addr : ℕ) (data : List UInt8) (offset size buffer : ℕ) : Prop where
  count : (r.read node offset size buffer).2 = min size (data.length - offset)
  bytes : BytesAt (r.read node offset size buffer).1 buffer ((data.drop offset).take size)
  source : ∀ src n, r.copied node offset size = some (src,n) → ∀ k < n, addr ≤ src + k ∧ src + k < addr + data.length
  written : ChangedIn r.mem (r.read node offset size buffer).1 buffer (r.read node offset size buffer).2

section Read
variable {r : Initrd} {node addr offset size buffer : ℕ} {data : List UInt8}

theorem FileNode.copied_past (h : FileNode r node addr data) (ho : data.length < offset) :
    r.copied node offset size = none := by
  unfold Initrd.copied
  dsimp only
  rw [h.length, if_pos ho]

theorem FileNode.copied (h : FileNode r node addr data) (ho : offset ≤ data.length) :
    r.copied node offset size =
      some (u32 (addr + offset),if data.length < u32 (offset + size) then data.length - offset else size) := by
  unfold Initrd.copied
  dsimp only
  rw [h.offset, h.length, if_neg (not_lt.mpr ho)]

/-- A sum that wraps around is not seen to reach past the end of the file. -/
theorem FileNode.read_wraps (h : FileNode r node addr data) (ho : offset ≤ data.length) (hs : size < 2 ^ 32)
    (hw : 2 ^ 32 ≤ offset + size) : (r.read node offset size buffer).2 = size := by
  have hlen := load32_lt r.mem (r.fileHeaders + headerBytes * load32 r.mem (node + inodeOffset) + 72)
  rw [h.length] at hlen
  have hsum : u32 (offset + size) = offset + size - 2 ^ 32 := by
    unfold u32
    omega
  rw [r.read_eq, h.copied ho, hsum, if_neg (by omega)]

theorem FileNode.reads_past (h : FileNode r node addr data) (ho : data.length < offset) :
    ReadsWithin r node addr data offset size buffer := by
  have hread : r.read node offset size buffer = (r.mem,0) := by rw [r.read_eq, h.copied_past ho]
  refine ⟨?_,?_,fun src n hc => ?_,?_⟩
  · rw [hread]
    dsimp only
    omega
  · rw [List.drop_eq_nil_of_le ho.le, List.take_nil]
    exact bytesAt_nil
  · rw [h.copied_past ho] at hc
    cases hc
  · rw [hread]
    exact .refl _ _ _

theorem FileNode.reads_within (h : FileNode r node addr data) (ho : offset ≤ data.length) (hw : offset + size < 2 ^ 32)
    (hbuf : Apart buffer (min size (data.length - offset)) addr data.length) :
    ReadsWithin r node addr data offset size buffer := by
  have hfits := h.fits
  have hn : (if data.length < u32 (offset + size) then data.length - offset else size) = min size (data.length - offset) := by
    rw [u32_of_lt hw]
    split <;> omega
  obtain ⟨n,hmin⟩ : ∃ n, n = min size (data.length - offset) := ⟨_,rfl⟩
  rw [← hmin] at hn hbuf
  have hcopied : r.copied node offset size = some (u32 (addr + offset),n) := by rw [h.copied ho, hn]
  have hread : r.read node offset size buffer = (memcpy r.mem buffer (u32 (addr + offset)) n,n) := by
    rw [r.read_eq, hcopied]
  -- the source is in range unless nothing is left to copy
  have hsrc : n = 0 ∨ u32 (addr + offset) = addr + offset := by
    rcases Nat.eq_zero_or_pos n with h0 | hpos
    · exact .inl h0
    · exact .inr (u32_of_lt (by omega))
  have hcopy : memcpy r.mem buffer (u32 (addr + offset)) n = copy r.mem buffer n fun k => r.mem (addr + offset + k) := by
    rcases hsrc with rfl | hsrc
    · exact (copy_zero _ _ _).symm
    · rw [hsrc]
      refine memcpy_spec _ _ _ _ ?_
      unfold Apart at hbuf ⊢
      omega
  refine ⟨by rw [hread]; exact hmin,fun k hk => ?_,fun src k hc j hj => ?_,?_⟩
  · rw [List.length_take, List.length_drop, ← hmin] at hk
    rw [hread]
    dsimp only
    rw [hcopy]
    simp only [copy]
    rw [if_pos (by omega), Nat.add_sub_cancel_left, Nat.add_assoc, h.bytes (offset + k) (by omega), List.getElem_take,
      List.getElem_drop]
  · rw [hcopied] at hc
    obtain ⟨rfl,rfl⟩ := Prod.mk.inj (Option.some.inj hc)
    rcases hsrc with h0 | hsrc
    · omega
    · rw [hsrc]
      omega
  · rw [hread]
    dsimp only
    rw [hcopy]
    exact copy_changedIn _ _ _ _

/-- A read is bounded exactly if it starts past the end or `offset + size` does not wrap around. -/
theorem initrd_read_bounded (h : FileNode r node addr data) (hs : size < 2 ^ 32)
    (hbuf : Apart buffer (min size (data.length - offset)) addr data.length) :
    ReadsWithin r node addr data offset size buffer ↔ data.length < offset ∨ offset + size < 2 ^ 32 := by
  constructor
  · intro hr
    by_contra hc
    have hcount := hr.count
    rw [h.read_wraps (by omega) hs (by omega)] at hcount
    have hlen := load32_lt r.mem (r.fileHeaders + headerBytes * load32 r.mem (node + inodeOffset) + 72)
    rw [h.length] at hlen
    omega
  · intro hc
    by_cases ho : offset ≤ data.length
    · exact h.reads_within ho (by omega) hbuf
    · exact h.reads_past (by omega)

end Read

theorem oneFile_node : ∃ r, FileNode r 0x200200 (0x100000 + dataStart) [1,2,3] := by
  obtain ⟨r,-,-,-,hnodes,hr,-,-⟩ := (oneFile_placed 0).initialise someCallbacks
  have h := hr.fileNode (by decide) 0 (by decide)
  rw [hnodes] at h
  exact ⟨r,h⟩

theorem oneFile_read : ∃ r, FileNode r 0x200200 (0x100000 + dataStart) [1,2,3] ∧
    ReadsWithin r 0x200200 (0x100000 + dataStart) [1,2,3] 1 256 0x300000 := by
  obtain ⟨r,h⟩ := oneFile_node
  exact ⟨r,h,(initrd_read_bounded h (by decide) (.inr (by decide))).mpr (.inr (by decide))⟩

/-- All bytes from the second on, as many as there may be. -/
theorem oneFile_read_wraps : ∃ r, FileNode r 0x200200 (0x100000 + dataStart) [1,2,3] ∧
    ¬ ReadsWithin r 0x200200 (0x100000 + dataStart) [1,2,3] 1 0xFFFFFFFF 0x300000 := by
  obtain ⟨r,h⟩ := oneFile_node
  refine ⟨r,h,fun hr => ?_⟩
  have hcount := hr.count
  rw [h.read_wraps (by decide) (by decide) (by decide)] at hcount
  exact absurd hcount (by decide)

end X86OsDev.Tutorial
