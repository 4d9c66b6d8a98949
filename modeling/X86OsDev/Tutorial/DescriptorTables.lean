import Mathlib.Data.BitVec
import Mathlib.Tactic.IntervalCases
import X86OsDev.Lib.Memory

/-! # The descriptors of the tutorial kernel (descriptor_tables.c)

A descriptor has its base and its limit in several pieces. The processor reads the
eight bytes of an entry as one number, and puts the pieces together again.
-/
namespace X86OsDev.Tutorial.DescriptorTables
open Memory

/-- `gdt_entry_t` -/
structure GdtEntry where
  limitLow : BitVec 16
  baseLow : BitVec 16
  baseMiddle : BitVec 8
  access : BitVec 8
  granularity : BitVec 8
  baseHigh : BitVec 8

/-- The packed fields, of which the first one has the lowest address. -/
def GdtEntry.bits (e : GdtEntry) : BitVec 64 :=
  e.baseHigh ++ e.granularity ++ e.access ++ e.baseMiddle ++ e.baseLow ++ e.limitLow

/-- What the processor reads out of a descriptor. -/
@[ext] structure Descriptor where
  base : BitVec 32
  limit : BitVec 20
  access : BitVec 8
  flags : BitVec 4

def decode (d : BitVec 64) : Descriptor where
  base := d.extractLsb' 56 8 ++ d.extractLsb' 16 24
  limit := d.extractLsb' 48 4 ++ d.extractLsb' 0 16
  access := d.extractLsb' 40 8
  flags := d.extractLsb' 52 4

namespace Descriptor

/-- The last offset of the segment. The topmost flag counts the limit in pages. -/
def lastOffset (d : Descriptor) : ℕ :=
  if d.flags.getLsbD 3 then d.limit.toNat * 0x1000 + 0xFFF else d.limit.toNat

def first (d : Descriptor) : ℕ := d.base.toNat
def last (d : Descriptor) : ℕ := d.base.toNat + d.lastOffset

end Descriptor

/-- `gdt_entries`, and `tss_entry` by the offset of its bytes -/
structure Tables where
  gdtEntries : Fin 6 → GdtEntry
  tssEntry : Mem

/-- Both are zero when the kernel starts. -/
def zeroTables : Tables := ⟨fun _ => ⟨0,0,0,0,0,0⟩,fun _ => 0⟩

/-- `gdt_set_gate` -/
def gdtSetGate (s : Tables) (num : Fin 6) (base limit : BitVec 32) (access gran : BitVec 8) : Tables :=
  let entry : GdtEntry :=
    { baseLow := (base &&& 0xFFFF).setWidth 16
      baseMiddle := (base >>> 16 &&& 0xFF).setWidth 8
      baseHigh := (base >>> 24 &&& 0xFF).setWidth 8
      limitLow := (limit &&& 0xFFFF).setWidth 16
      granularity := (limit >>> 16 &&& 0x0F).setWidth 8 ||| gran &&& 0xF0
      access := access }
  { s with gdtEntries := Function.update s.gdtEntries num entry }

/-- `sizeof(tss_entry)`: 25 words and two halves of one -/
def tssSize : ℕ := 104

/-- `write_tss`, where `tss` is the address of `tss_entry`. The fields are `ss0`, `esp0`, `cs`,
and the segment registers with the data segment. -/
def writeTss (tss : BitVec 32) (s : Tables) (num : Fin 6) (ss0 : BitVec 16) (esp0 : BitVec 32) : Tables :=
  let base := tss
  let limit := base + BitVec.ofNat 32 tssSize
  let s := gdtSetGate s num base limit 0xE9 0x00
  let entry := fill s.tssEntry 0 tssSize 0
  let entry := store32 (store32 entry 8 ss0.toNat) 4 esp0.toNat
  let entry := store32 entry 76 0x0b
  { s with tssEntry := [92,88,72,84,80].foldl (fun entry field => store32 entry field 0x13) entry }

/-- `init_gdt`, up to the instructions that load the registers of the processor -/
def initGdt (tss : BitVec 32) (s : Tables) : Tables :=
  let s := gdtSetGate s 0 0 0 0 0
  let s := gdtSetGate s 1 0 0xFFFFFFFF 0x9A 0xCF
  let s := gdtSetGate s 2 0 0xFFFFFFFF 0x92 0xCF
  let s := gdtSetGate s 3 0 0xFFFFFFFF 0xFA 0xCF
  let s := gdtSetGate s 4 0 0xFFFFFFFF 0xF2 0xCF
  writeTss tss s 5 0x10 0x0

section Fields
variable (x limit : BitVec 32) (gran : BitVec 8)

/-- The masks and shifts of `gdt_set_gate` cut out a piece of a word. -/
theorem mask_low : (x &&& 0xFFFF).setWidth 16 = x.extractLsb' 0 16 := by
  ext i hi
  interval_cases i <;> simp

theorem mask_byte (k : ℕ) : (x >>> k &&& 0xFF).setWidth 8 = x.extractLsb' k 8 := by
  ext i hi
  interval_cases i <;> simp

theorem mask_granularity : (limit >>> 16 &&& 0x0F).setWidth 8 ||| gran &&& 0xF0 =
    gran.extractLsb' 4 4 ++ limit.extractLsb' 16 4 := by
  apply BitVec.eq_of_getLsbD_eq
  intro i hi
  rw [BitVec.getLsbD_append]
  interval_cases i <;> simp

/-- The three pieces of a base make the base. -/
theorem append_pieces : x.extractLsb' 24 8 ++ x.extractLsb' 16 8 ++ x.extractLsb' 0 16 = x := by
  apply BitVec.eq_of_getLsbD_eq
  intro i hi
  simp only [BitVec.getLsbD_append, BitVec.getLsbD_extractLsb']
  grind

end Fields

section Decode
variable (e : GdtEntry) (s : Tables) (num : Fin 6) (base limit : BitVec 32) (access gran : BitVec 8)

/-- Where the processor finds the fields of an entry. -/
theorem decode_base : (decode e.bits).base = e.baseHigh ++ e.baseMiddle ++ e.baseLow := by
  apply BitVec.eq_of_getLsbD_eq
  intro i hi
  simp only [decode, GdtEntry.bits, BitVec.getLsbD_append, BitVec.getLsbD_extractLsb']
  grind

theorem decode_limit : (decode e.bits).limit = e.granularity.extractLsb' 0 4 ++ e.limitLow := by
  apply BitVec.eq_of_getLsbD_eq
  intro i hi
  simp only [decode, GdtEntry.bits, BitVec.getLsbD_append, BitVec.getLsbD_extractLsb']
  grind

theorem decode_access : (decode e.bits).access = e.access := by
  apply BitVec.eq_of_getLsbD_eq
  intro i hi
  simp only [decode, GdtEntry.bits, BitVec.getLsbD_append, BitVec.getLsbD_extractLsb']
  grind

theorem decode_flags : (decode e.bits).flags = e.granularity.extractLsb' 4 4 := by
  apply BitVec.eq_of_getLsbD_eq
  intro i hi
  simp only [decode, GdtEntry.bits, BitVec.getLsbD_append, BitVec.getLsbD_extractLsb']
  grind

/-- What `gdt_set_gate` makes the processor read: of the limit only 20 bits are left. -/
theorem decode_gdtSetGate : decode ((gdtSetGate s num base limit access gran).gdtEntries num).bits =
    ⟨base,limit.setWidth 20,access,gran.extractLsb' 4 4⟩ := by
  have hlimit : (gran.extractLsb' 4 4 ++ limit.extractLsb' 16 4).extractLsb' 0 4 ++ limit.extractLsb' 0 16 =
      limit.setWidth 20 := by
    apply BitVec.eq_of_getLsbD_eq
    intro i hi
    simp only [BitVec.getLsbD_append, BitVec.getLsbD_extractLsb', BitVec.getLsbD_setWidth]
    grind
  have hflags : (gran.extractLsb' 4 4 ++ limit.extractLsb' 16 4).extractLsb' 4 4 = gran.extractLsb' 4 4 := by
    apply BitVec.eq_of_getLsbD_eq
    intro i hi
    simp only [BitVec.getLsbD_append, BitVec.getLsbD_extractLsb']
    grind
  unfold gdtSetGate
  dsimp only
  rw [Function.update_self, mask_low, mask_low, mask_byte, mask_byte, mask_granularity]
  ext1
  · rw [decode_base, append_pieces]
  · rw [decode_limit, hlimit]
  · rw [decode_access]
  · rw [decode_flags, hflags]

/-- The descriptor of the whole address space, which `init_gdt` writes for code and data. -/
theorem gdtSetGate_flat : let d := decode ((gdtSetGate s num 0 0xFFFFFFFF access 0xCF).gdtEntries num).bits
    d.first = 0 ∧ d.last = 2 ^ 32 - 1 ∧ d.access = access := by
  have hlast : Descriptor.last ⟨0,0xFFFFF,0,0xC⟩ = 2 ^ 32 - 1 := by decide
  rw [decode_gdtSetGate]
  exact ⟨rfl,hlast,rfl⟩

end Decode

section Tss
variable (tss : BitVec 32) (s : Tables) (num : Fin 6) (ss0 : BitVec 16) (esp0 : BitVec 32)

/-- The limit of the descriptor is the end of `tss_entry` as an address, cut to 20 bits. -/
theorem decode_writeTss : decode ((writeTss tss s num ss0 esp0).gdtEntries num).bits =
    ⟨tss,(tss + BitVec.ofNat 32 tssSize).setWidth 20,0xE9,0⟩ := decode_gdtSetGate s num tss _ _ _

theorem last_writeTss : (decode ((writeTss tss s num ss0 esp0).gdtEntries num).bits).last =
    tss.toNat + (tss.toNat + tssSize) % 2 ^ 20 := by
  have hbytes : (0 : BitVec 4).getLsbD 3 = false := rfl
  rw [decode_writeTss]
  simp only [Descriptor.last, Descriptor.lastOffset, tssSize, hbytes, Bool.false_eq_true, if_false,
    BitVec.toNat_setWidth, BitVec.toNat_add, BitVec.toNat_ofNat]
  omega

end Tss

/-- `gdt_set_gate` keeps what it is given, and the descriptor of `write_tss` ends with `tss_entry`
only where the limit that it computes happens to be 103 after the cut. -/
theorem descriptors_decode (tss : BitVec 32) (hfits : tss.toNat + tssSize ≤ 2 ^ 32) (s : Tables) (num : Fin 6)
    (ss0 : BitVec 16) (esp0 : BitVec 32) :
    ((∀ base limit : BitVec 32, limit.toNat < 2 ^ 20 → ∀ access gran : BitVec 8,
        let d := decode ((gdtSetGate s num base limit access gran).gdtEntries num).bits
        d.base = base ∧ d.limit.toNat = limit.toNat ∧ d.access = access ∧ d.flags = gran.extractLsb' 4 4) ∧
      let d := decode ((writeTss tss s num ss0 esp0).gdtEntries num).bits
      d.first = tss.toNat ∧ d.last = tss.toNat + tssSize - 1) ↔ tss.toNat % 2 ^ 20 = 2 ^ 20 - 1 := by
  have hgates : ∀ base limit : BitVec 32, limit.toNat < 2 ^ 20 → ∀ access gran : BitVec 8,
      let d := decode ((gdtSetGate s num base limit access gran).gdtEntries num).bits
      d.base = base ∧ d.limit.toNat = limit.toNat ∧ d.access = access ∧ d.flags = gran.extractLsb' 4 4 := by
    intro base limit hlimit access gran
    rw [decode_gdtSetGate]
    exact ⟨rfl,by rw [BitVec.toNat_setWidth, Nat.mod_eq_of_lt hlimit],rfl,rfl⟩
  have hfirst : (decode ((writeTss tss s num ss0 esp0).gdtEntries num).bits).first = tss.toNat := by
    rw [decode_writeTss]
    rfl
  dsimp only at hgates ⊢
  rw [and_iff_right hgates, and_iff_right hfirst, last_writeTss]
  unfold tssSize at *
  omega

theorem descriptors_decode_top : let d := decode ((writeTss 0x1FFFFF zeroTables 5 0x10 0).gdtEntries 5).bits
    d.first = 0x1FFFFF ∧ d.last = 0x1FFFFF + tssSize - 1 :=
  ((descriptors_decode 0x1FFFFF (by decide) zeroTables 5 0x10 0).mpr (by decide)).2

/-- With `tss_entry` behind the first megabyte the segment is 0x5069 bytes long. -/
theorem tss_too_long : let d := decode ((writeTss 0x105000 zeroTables 5 0x10 0).gdtEntries 5).bits
    d.last = 0x10A068 ∧ d.last ≠ 0x105000 + tssSize - 1 := by
  dsimp only
  rw [last_writeTss]
  decide

end X86OsDev.Tutorial.DescriptorTables
