import X86OsDev.Xv6.Disk
import Mathlib.Data.Nat.Bitwise
import Mathlib.Logic.Function.Basic

/-! # The on-disk format of the file system (fs.h)

`struct superblock`, `struct dinode` and the free map, as the kernel reads them
out of blocks and writes them back.
-/
namespace X86OsDev.Xv6
open Memory

/-- `struct superblock` -/
structure Superblock where
  size : ℕ
  nblocks : ℕ
  ninodes : ℕ
  nlog : ℕ
  logstart : ℕ
  inodestart : ℕ
  bmapstart : ℕ

/-- `struct dinode`; the `short` fields are their 16 bit words. -/
structure Dinode where
  type : ℕ
  major : ℕ
  minor : ℕ
  nlink : ℕ
  size : ℕ
  addrs : Fin (ndirect + 1) → ℕ

/-- `T_DIR`, `T_FILE` and `T_DEV` -/
abbrev tDir : ℕ := 1
abbrev tFile : ℕ := 2
abbrev tDev : ℕ := 3

/-- `addrs[k] = b` -/
def Dinode.setAddr (n : Dinode) (k : Fin (ndirect + 1)) (b : ℕ) : Dinode :=
  { n with addrs := Function.update n.addrs k b }

theorem Dinode.setAddr_self (n : Dinode) (k : Fin (ndirect + 1)) (b : ℕ) :
    (n.setAddr k b).addrs k = b := by simp [Dinode.setAddr]

theorem Dinode.setAddr_of_ne (n : Dinode) {j k : Fin (ndirect + 1)} (h : j ≠ k) (b : ℕ) :
    (n.setAddr k b).addrs j = n.addrs j := by simp [Dinode.setAddr, h]

/-- The fields fit their types. -/
structure Dinode.Fits (n : Dinode) : Prop where
  type : n.type < 2 ^ 16
  major : n.major < 2 ^ 16
  minor : n.minor < 2 ^ 16
  nlink : n.nlink < 2 ^ 16
  size : n.size < 2 ^ 32
  addrs : ∀ k, n.addrs k < 2 ^ 32

theorem Dinode.Fits.setAddr {n : Dinode} (h : n.Fits) (k : Fin (ndirect + 1)) {b : ℕ}
    (hb : b < 2 ^ 32) : (n.setAddr k b).Fits where
  type := h.type
  major := h.major
  minor := h.minor
  nlink := h.nlink
  size := h.size
  addrs j := by
    by_cases hj : j = k
    · subst hj
      exact lt_of_eq_of_lt (n.setAddr_self j b) hb
    · exact lt_of_eq_of_lt (n.setAddr_of_ne hj b) (h.addrs j)

namespace Block

/-! ## Inodes in a block -/

/-- The byte offset of inode `i` in its block. -/
def dinodeAt (i : ℕ) : ℕ := 64 * (i % ipb)

theorem dinodeAt_le (i : ℕ) : dinodeAt i + 64 ≤ bsize := by
  have h : i % ipb < ipb := Nat.mod_lt _ (by decide)
  unfold dinodeAt
  simp only [ipb, bsize] at *
  omega

/-- `*((struct dinode*)bp->data + i%IPB)` -/
def dinode (b : Block) (i : ℕ) : Dinode where
  type := load16 b.mem (dinodeAt i)
  major := load16 b.mem (dinodeAt i + 2)
  minor := load16 b.mem (dinodeAt i + 4)
  nlink := load16 b.mem (dinodeAt i + 6)
  size := load32 b.mem (dinodeAt i + 8)
  addrs k := load32 b.mem (dinodeAt i + 12 + 4 * k)

/-- The stores of `iupdate` into the inode's part of a memory. -/
def putDinode (m : Mem) (o : ℕ) (n : Dinode) : Mem :=
  let m := store16 m o n.type
  let m := store16 m (o + 2) n.major
  let m := store16 m (o + 4) n.minor
  let m := store16 m (o + 6) n.nlink
  let m := store32 m (o + 8) n.size
  storeWords m (o + 12) (List.ofFn n.addrs)

def setDinode (b : Block) (i : ℕ) (n : Dinode) : Block := ofMem (putDinode b.mem (dinodeAt i) n)

/-- `memset(dip, 0, sizeof(*dip)); dip->type = type` -/
def newDinode (b : Block) (i type : ℕ) : Block :=
  ofMem (store16 (fill b.mem (dinodeAt i) 64 0) (dinodeAt i) type)

theorem dinode_fits (b : Block) (i : ℕ) : (b.dinode i).Fits where
  type := load16_lt _ _
  major := load16_lt _ _
  minor := load16_lt _ _
  nlink := load16_lt _ _
  size := load32_lt _ _
  addrs _ := load32_lt _ _

theorem dinode_zero_type (i : ℕ) : (zero.dinode i).type = 0 := by
  have h : SameOn zero.mem (fill zero.mem (dinodeAt i) 2 0) (dinodeAt i) 2 := by
    intro x h1 h2
    have hz : zero.mem x = 0 := by
      unfold mem zero
      split <;> rfl
    rw [hz, fill, if_pos ⟨h1,h2⟩]
  unfold dinode
  rw [load16_congr h, load16_fill_zero le_rfl le_rfl]

theorem dinode_congr {b c : Block} {i : ℕ} (h : SameOn b.mem c.mem (dinodeAt i) 64) :
    b.dinode i = c.dinode i := by
  unfold dinode
  congr 1
  · exact load16_congr (h.mono (by omega) (by omega))
  · exact load16_congr (h.mono (by omega) (by omega))
  · exact load16_congr (h.mono (by omega) (by omega))
  · exact load16_congr (h.mono (by omega) (by omega))
  · exact load32_congr (h.mono (by omega) (by omega))
  · funext k
    have := k.isLt
    exact load32_congr (h.mono (by omega) (by simp only [ndirect] at this; omega))

theorem putDinode_sameOn (m : Mem) {o b k : ℕ} (n : Dinode) (h : Apart o 64 b k) :
    SameOn (putDinode m o n) m b k := by
  intro x h1 h2
  unfold Apart at h
  have hl : (List.ofFn n.addrs).length = 13 := List.length_ofFn
  unfold putDinode
  rw [storeWords_sameOn _ (b := x) (k := 1) (by unfold Apart; rw [hl]; omega) x le_rfl (by omega),
    store32_sameOn _ _ (b := x) (k := 1) (by unfold Apart; omega) x le_rfl (by omega),
    store16_sameOn _ _ (b := x) (k := 1) (by unfold Apart; omega) x le_rfl (by omega),
    store16_sameOn _ _ (b := x) (k := 1) (by unfold Apart; omega) x le_rfl (by omega),
    store16_sameOn _ _ (b := x) (k := 1) (by unfold Apart; omega) x le_rfl (by omega),
    store16_sameOn _ _ (b := x) (k := 1) (by unfold Apart; omega) x le_rfl (by omega)]

/-- The inodes of a block do not overlap. -/
theorem dinodeAt_apart {i j : ℕ} (h : i % ipb ≠ j % ipb) : Apart (dinodeAt i) 64 (dinodeAt j) 64 := by
  unfold Apart dinodeAt
  omega

theorem dinode_setDinode_of_ne (b : Block) {i j : ℕ} (n : Dinode) (h : i % ipb ≠ j % ipb) :
    (b.setDinode i n).dinode j = b.dinode j := by
  apply dinode_congr
  intro x h1 h2
  have hj := dinodeAt_le j
  unfold setDinode
  rw [mem_ofMem (by omega)]
  exact putDinode_sameOn _ n (dinodeAt_apart h) x h1 h2

theorem dinode_newDinode_of_ne (b : Block) {i j : ℕ} (t : ℕ) (h : i % ipb ≠ j % ipb) :
    (b.newDinode i t).dinode j = b.dinode j := by
  apply dinode_congr
  intro x h1 h2
  have hj := dinodeAt_le j
  have ha := dinodeAt_apart h
  unfold newDinode
  rw [mem_ofMem (by omega), store16_sameOn _ _ (ha.imp (by omega) (by omega)) x h1 h2,
    fill_sameOn _ ha x h1 h2]

section PutDinode
variable (m : Mem) (o : ℕ) {n : Dinode} (h : n.Fits)
include h

theorem load16_putDinode_type : load16 (putDinode m o n) o = n.type := by
  unfold putDinode
  rw [load16_congr (storeWords_sameOn _ (.inr (by omega))),
    load16_congr (store32_sameOn _ _ (.inr (by omega))),
    load16_congr (store16_sameOn _ _ (.inr (by omega))),
    load16_congr (store16_sameOn _ _ (.inr (by omega))),
    load16_congr (store16_sameOn _ _ (.inr (by omega))), load16_store16, Nat.mod_eq_of_lt h.type]

theorem load16_putDinode_major : load16 (putDinode m o n) (o + 2) = n.major := by
  unfold putDinode
  rw [load16_congr (storeWords_sameOn _ (.inr (by omega))),
    load16_congr (store32_sameOn _ _ (.inr (by omega))),
    load16_congr (store16_sameOn _ _ (.inr (by omega))),
    load16_congr (store16_sameOn _ _ (.inr (by omega))), load16_store16, Nat.mod_eq_of_lt h.major]

theorem load16_putDinode_minor : load16 (putDinode m o n) (o + 4) = n.minor := by
  unfold putDinode
  rw [load16_congr (storeWords_sameOn _ (.inr (by omega))),
    load16_congr (store32_sameOn _ _ (.inr (by omega))),
    load16_congr (store16_sameOn _ _ (.inr (by omega))), load16_store16, Nat.mod_eq_of_lt h.minor]

theorem load16_putDinode_nlink : load16 (putDinode m o n) (o + 6) = n.nlink := by
  unfold putDinode
  rw [load16_congr (storeWords_sameOn _ (.inr (by omega))),
    load16_congr (store32_sameOn _ _ (.inr (by omega))), load16_store16, Nat.mod_eq_of_lt h.nlink]

theorem load32_putDinode_size : load32 (putDinode m o n) (o + 8) = n.size := by
  unfold putDinode
  rw [load32_congr (storeWords_sameOn _ (.inr (by omega))), load32_store32,
    Nat.mod_eq_of_lt h.size]

theorem load32_putDinode_addrs (k : Fin (ndirect + 1)) :
    load32 (putDinode m o n) (o + 12 + 4 * k) = n.addrs k := by
  unfold putDinode
  rw [load32_storeWords _ (by rw [List.length_ofFn]; exact k.isLt), List.getElem_ofFn,
    Nat.mod_eq_of_lt (h.addrs _)]

end PutDinode

/-- What `iupdate` writes is what `ilock` reads. -/
theorem dinode_setDinode (b : Block) (i : ℕ) {n : Dinode} (h : n.Fits) :
    (b.setDinode i n).dinode i = n := by
  have hi := dinodeAt_le i
  have hm : SameOn (b.setDinode i n).mem (putDinode b.mem (dinodeAt i) n) (dinodeAt i) 64 :=
    sameOn_mem_ofMem _ hi
  unfold dinode
  rw [load16_congr (hm.mono (by omega) (by omega)), load16_congr (hm.mono (by omega) (by omega)),
    load16_congr (hm.mono (by omega) (by omega)), load16_congr (hm.mono (by omega) (by omega)),
    load32_congr (hm.mono (by omega) (by omega)), load16_putDinode_type _ _ h,
    load16_putDinode_major _ _ h, load16_putDinode_minor _ _ h, load16_putDinode_nlink _ _ h,
    load32_putDinode_size _ _ h]
  congr 1
  funext k
  have := k.isLt
  rw [load32_congr (hm.mono (by omega) (by simp only [ndirect] at this; omega)),
    load32_putDinode_addrs _ _ h]

/-- The inode that `ialloc` makes. -/
def freshDinode (type : ℕ) : Dinode := ⟨type,0,0,0,0,fun _ => 0⟩

theorem dinode_newDinode (b : Block) (i : ℕ) {t : ℕ} (h : t < 2 ^ 16) :
    (b.newDinode i t).dinode i = freshDinode t := by
  have hi := dinodeAt_le i
  have hm : SameOn (b.newDinode i t).mem (store16 (fill b.mem (dinodeAt i) 64 0) (dinodeAt i) t)
      (dinodeAt i) 64 := sameOn_mem_ofMem _ hi
  have hs : SameOn (store16 (fill b.mem (dinodeAt i) 64 0) (dinodeAt i) t)
      (fill b.mem (dinodeAt i) 64 0) (dinodeAt i + 2) 62 :=
    store16_sameOn _ _ (.inl (by omega))
  unfold dinode freshDinode
  congr 1
  · rw [load16_congr (hm.mono (by omega) (by omega)), load16_store16, Nat.mod_eq_of_lt h]
  · rw [load16_congr (hm.mono (by omega) (by omega)), load16_congr (hs.mono (by omega) (by omega)),
      load16_fill_zero (by omega) (by omega)]
  · rw [load16_congr (hm.mono (by omega) (by omega)), load16_congr (hs.mono (by omega) (by omega)),
      load16_fill_zero (by omega) (by omega)]
  · rw [load16_congr (hm.mono (by omega) (by omega)), load16_congr (hs.mono (by omega) (by omega)),
      load16_fill_zero (by omega) (by omega)]
  · rw [load32_congr (hm.mono (by omega) (by omega)), load32_congr (hs.mono (by omega) (by omega)),
      load32_fill_zero _ (by omega) (by omega)]
  · funext k
    have hk := k.isLt
    simp only [ndirect] at hk
    rw [load32_congr (hm.mono (by omega) (by omega)), load32_congr (hs.mono (by omega) (by omega)),
      load32_fill_zero _ (by omega) (by omega)]

/-! ## The free map -/

/-- `data[bi/8] & (1 << (bi % 8))` -/
def bit (b : Block) (bi : ℕ) : Bool := (load8 b.mem (bi / 8)).testBit (bi % 8)

/-- `data[bi/8] |= 1 << (bi % 8)` -/
def setBit (b : Block) (bi : ℕ) : Block :=
  ofMem (store8 b.mem (bi / 8) (load8 b.mem (bi / 8) ||| 2 ^ (bi % 8)))

/-- `data[bi/8] &= ~(1 << (bi % 8))` -/
def clearBit (b : Block) (bi : ℕ) : Block :=
  ofMem (store8 b.mem (bi / 8) (load8 b.mem (bi / 8) &&& (255 - 2 ^ (bi % 8))))

theorem testBit_mask : ∀ i < 8, ∀ j < 8, (255 - 2 ^ i).testBit j = decide (i ≠ j) := by decide

/-- A store into one byte of the map leaves the bits of the others. -/
theorem bit_store8_of_ne (b : Block) {bi bj : ℕ} (v : ℕ) (h : bi / 8 ≠ bj / 8) (hj : bj < bpb) :
    (ofMem (store8 b.mem (bi / 8) v)).bit bj = b.bit bj := by
  have hs : SameOn (ofMem (store8 b.mem (bi / 8) v)).mem b.mem (bj / 8) 1 := by
    intro x h1 h2
    rw [mem_ofMem (by simp only [bpb, bsize] at *; omega)]
    exact store8_sameOn _ _ (by unfold Apart; omega) x h1 h2
  unfold bit
  rw [load8_congr hs]

theorem bit_store8 (b : Block) {bi bj v : ℕ} (h : bi / 8 = bj / 8) (hj : bj < bpb)
    (hv : v < 2 ^ 8) : (ofMem (store8 b.mem (bi / 8) v)).bit bj = v.testBit (bj % 8) := by
  have hs : SameOn (ofMem (store8 b.mem (bi / 8) v)).mem (store8 b.mem (bi / 8) v) (bj / 8) 1 :=
    sameOn_mem_ofMem _ (by simp only [bpb, bsize] at *; omega)
  unfold bit
  rw [load8_congr hs, h, load8_store8, Nat.mod_eq_of_lt hv]

theorem bit_setBit (b : Block) {bi bj : ℕ} (hj : bj < bpb) :
    (b.setBit bi).bit bj = (b.bit bj || decide (bi = bj)) := by
  unfold setBit
  by_cases h : bi / 8 = bj / 8
  · have hv : load8 b.mem (bi / 8) ||| 2 ^ (bi % 8) < 2 ^ 8 :=
      Nat.or_lt_two_pow (load8_lt _ _) (Nat.pow_lt_pow_right (by omega) (Nat.mod_lt _ (by omega)))
    rw [bit_store8 b h hj hv, Nat.testBit_or, Nat.testBit_two_pow, h, ← bit]
    congr 2
    exact propext ⟨fun _ => by omega,fun _ => by omega⟩
  · rw [bit_store8_of_ne b _ h hj]
    simp [show bi ≠ bj by omega]

theorem bit_clearBit (b : Block) {bi bj : ℕ} (hj : bj < bpb) :
    (b.clearBit bi).bit bj = (b.bit bj && decide (bi ≠ bj)) := by
  unfold clearBit
  by_cases h : bi / 8 = bj / 8
  · have hv : load8 b.mem (bi / 8) &&& (255 - 2 ^ (bi % 8)) < 2 ^ 8 :=
      lt_of_le_of_lt Nat.and_le_left (load8_lt _ _)
    rw [bit_store8 b h hj hv, Nat.testBit_and,
      testBit_mask _ (Nat.mod_lt _ (by omega)) _ (Nat.mod_lt _ (by omega)), h, ← bit]
    congr 2
    exact propext ⟨fun _ => by omega,fun _ => by omega⟩
  · rw [bit_store8_of_ne b _ h hj]
    simp [show bi ≠ bj by omega]

end Block

/-! ## Where things are -/

namespace Superblock

/-- `IBLOCK(i, sb)` -/
def iblock (sb : Superblock) (i : ℕ) : ℕ := i / ipb + sb.inodestart

/-- `BBLOCK(b, sb)` -/
def bblock (sb : Superblock) (b : ℕ) : ℕ := b / bpb + sb.bmapstart

/-- The first block of the data area. -/
def datastart (sb : Superblock) : ℕ := sb.size - sb.nblocks

/-- The areas of the disk in the order `mkfs` lays them out, on the disk the driver has. -/
structure Layout (sb : Superblock) : Prop where
  log : 2 ≤ sb.logstart
  inodes : sb.logstart + sb.nlog ≤ sb.inodestart
  bmap : sb.inodestart + sb.ninodes / ipb + 1 ≤ sb.bmapstart
  data : sb.bmapstart + sb.size / bpb + 1 ≤ sb.datastart
  size : sb.size ≤ fssize

/-- The superblock that `mkfs` writes. -/
def mkfs : Superblock := ⟨fssize,941,200,30,2,32,58⟩

theorem mkfs_layout : mkfs.Layout := ⟨by decide,by decide,by decide,by decide,by decide⟩

/-- The inode on disk. -/
def dinode (sb : Superblock) (d : ℕ → Block) (i : ℕ) : Dinode := (d (sb.iblock i)).dinode i

/-- The bit of a block in the free map. -/
def bit (sb : Superblock) (d : ℕ → Block) (b : ℕ) : Bool := (d (sb.bblock b)).bit (b % bpb)

end Superblock

end X86OsDev.Xv6
