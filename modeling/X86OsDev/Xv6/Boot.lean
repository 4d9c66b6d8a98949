import Mathlib.Tactic.IntervalCases
import X86OsDev.Xv6.X86

/-! # The boot loader (bootmain.c)

The kernel image lies on the disk from sector 1 on. Sectors are read whole, so that
a read writes more than the bytes that it is asked for. A loop has fuel for its
rounds, and without enough of it there is no result.
-/
namespace X86OsDev.Xv6.Boot
open Memory

def elfMagic : ℕ := 0x464C457F
def sectsize : ℕ := 512
/-- The scratch space with the first page of the image. -/
def elf : ℕ := 0x10000

/-- The registers of the disk that a command is made of. -/
structure DiskRegs where
  count : ℕ
  lba0 : ℕ
  lba1 : ℕ
  lba2 : ℕ
  device : ℕ

/-- The bytes that `readsect` sends to ports 0x1F2 to 0x1F6. -/
def issue (offset : ℕ) : DiskRegs where
  count := 1
  lba0 := offset % 2 ^ 8
  lba1 := (offset >>> 8) % 2 ^ 8
  lba2 := (offset >>> 16) % 2 ^ 8
  device := ((offset >>> 24) ||| 0xE0) % 2 ^ 8

/-- The number of the sector that is read. The upper half of the last register selects the disk. -/
def DiskRegs.lba (r : DiskRegs) : ℕ := r.lba0 + 2 ^ 8 * r.lba1 + 2 ^ 16 * r.lba2 + 2 ^ 24 * (r.device % 2 ^ 4)

/-- The words that the data port gives after the command. -/
def dataWord (disk : ℕ → UInt8) (r : DiskRegs) (i : ℕ) : BitVec 32 :=
  let a := sectsize * r.lba + 4 * i
  (disk (a + 3)).toBitVec ++ (disk (a + 2)).toBitVec ++ (disk (a + 1)).toBitVec ++ (disk a).toBitVec

section Source
variable (disk : ℕ → UInt8)

/-- `readsect`. The disk is ready when `waitdisk` returns. -/
def readsect (m : Mem) (dst offset : ℕ) : Mem := insl m (dataWord disk (issue offset)) dst (sectsize / 4)

/-- The loop of `readseg`. -/
def readLoop (epa : ℕ) : ℕ → Mem → ℕ → ℕ → Option Mem
  | 0, _, _, _ => none
  | fuel + 1, m, pa, offset =>
    if pa < epa then readLoop epa fuel (readsect disk m pa offset) (u32 (pa + sectsize)) (u32 (offset + 1))
    else some m

/-- `readseg` -/
def readseg (fuel : ℕ) (m : Mem) (pa count offset : ℕ) : Option Mem :=
  readLoop disk (u32 (pa + count)) fuel m (sub32 pa (offset % sectsize)) (u32 (offset / sectsize + 1))

/-- The fields of `struct proghdr` that the loader looks at. -/
structure Proghdr where
  off : ℕ
  paddr : ℕ
  filesz : ℕ
  memsz : ℕ

/-- The header at an address. -/
def proghdr (m : Mem) (ph : ℕ) : Proghdr := ⟨load32 m (ph + 4),load32 m (ph + 12),load32 m (ph + 16),load32 m (ph + 20)⟩

/-- The body of the loop over the headers. The sizes are read again after the segment is. -/
def loadSegment (fuel : ℕ) (m : Mem) (ph : ℕ) : Option Mem := do
  let pa := (proghdr m ph).paddr
  let m ← readseg disk fuel m pa (proghdr m ph).filesz (proghdr m ph).off
  let filesz := (proghdr m ph).filesz
  let memsz := (proghdr m ph).memsz
  some (if filesz < memsz then stosb m (u32 (pa + filesz)) 0 (memsz - filesz) else m)

/-- The loop over the headers, for at most as many rounds as the second number says. -/
def loadLoop (fuel eph : ℕ) : ℕ → Mem → ℕ → Option Mem
  | 0, _, _ => none
  | k + 1, m, ph =>
    if ph < eph then do
      let m ← loadSegment disk fuel m ph
      loadLoop fuel eph k m (u32 (ph + 32))
    else some m

/-- How `bootmain` ends: it returns, or it jumps to the entry point. -/
inductive Outcome
  | notElf
  | enter (m : Mem) (entry : ℕ)

/-- `bootmain` -/
def bootmain (fuel : ℕ) (m : Mem) : Option Outcome := do
  let m ← readseg disk fuel m elf 4096 0
  if load32 m elf ≠ elfMagic then some .notElf
  else
    let ph := u32 (elf + load32 m (elf + 28))
    let eph := u32 (ph + 32 * load16 m (elf + 44))
    let m ← loadLoop disk fuel eph fuel m ph
    some (.enter m (load32 m (elf + 24)))

end Source

section Sectors
variable (disk : ℕ → UInt8) (m : Mem)

/-- The image starts at sector 1. -/
def image (k : ℕ) : UInt8 := disk (sectsize + k)

/-- A sector number of 24 bits is the address that the disk sees. -/
theorem lba_issue {offset : ℕ} (h : offset < 2 ^ 24) : (issue offset).lba = offset := by
  have hhigh : offset >>> 24 = 0 := by
    rw [Nat.shiftRight_eq_div_pow]
    omega
  have hdevice : (issue offset).device % 2 ^ 4 = 0 := by
    simp [issue, hhigh]
  rw [DiskRegs.lba, hdevice]
  simp only [issue, Nat.shiftRight_eq_div_pow]
  omega

theorem byteOf_dataWord (r : DiskRegs) (i : ℕ) {j : ℕ} (hj : j < 4) :
    byteOf (dataWord disk r i) j = disk (sectsize * r.lba + (4 * i + j)) := by
  apply UInt8.toBitVec_inj.mp
  apply BitVec.eq_of_getLsbD_eq
  intro k hk
  simp only [byteOf, dataWord, BitVec.getLsbD_setWidth, BitVec.getLsbD_ushiftRight, BitVec.getLsbD_append, ← Nat.add_assoc]
  interval_cases j <;> grind

/-- `insl` without a wrap, where the words are those of the bytes `src` -/
theorem insl_eq_copy {words : ℕ → BitVec 32} (src : ℕ → UInt8) {addr : ℕ}
    (hwords : ∀ i j, j < 4 → byteOf (words i) j = src (4 * i + j)) (cnt : ℕ) (h : addr + 4 * cnt ≤ 2 ^ 32) :
    insl m words addr cnt = copy m addr (4 * cnt) src := by
  induction cnt with
  | zero =>
    funext x
    rw [copy, if_neg (by omega)]
    rfl
  | succ n ih =>
    have hstep : insl m words addr (n + 1) = storeWord (insl m words addr n) (addr + 4 * n) (words n) := by
      rw [insl, List.range_succ, List.foldl_append]
      rfl
    rw [hstep, ih (by omega)]
    funext x
    simp only [storeWord, storeByte, hwords n _ (by omega : (0:ℕ) < 4), hwords n _ (by omega : (1:ℕ) < 4),
      hwords n _ (by omega : (2:ℕ) < 4), hwords n _ (by omega : (3:ℕ) < 4)]
    rw [u32_of_lt (by omega), u32_of_lt (by omega), u32_of_lt (by omega), u32_of_lt (by omega)]
    simp only [Function.update_apply, copy]
    split_ifs <;> first | rfl | omega | (congr 1; omega)

/-- `readsect` of a sector below 2^24 -/
theorem readsect_eq {dst offset : ℕ} (hoffset : offset < 2 ^ 24) (hdst : dst + sectsize ≤ 2 ^ 32) :
    readsect disk m dst offset = copy m dst sectsize fun t => disk (sectsize * offset + t) := by
  rw [readsect, insl_eq_copy m (fun t => disk (sectsize * offset + t)) _ _ hdst]
  · rfl
  · intro i j hj
    rw [byteOf_dataWord disk _ i hj, lba_issue hoffset]

end Sectors
end X86OsDev.Xv6.Boot
