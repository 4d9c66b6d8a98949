import X86OsDev.Xv6.Boot

/-! # What the boot loader loads

The memory after the loop is told by the last sector that covers a byte. A sector
that starts below its segment can cover the end of an earlier one, so the claim that
the order of the segments makes this harmless comes down to the bytes in such places.
-/
namespace X86OsDev.Xv6.Boot
open Memory

namespace Proghdr
variable (h : Proghdr)

/-- The memory of the segment. -/
def Owns (x : ℕ) : Prop := h.paddr ≤ x ∧ x < h.paddr + max h.memsz h.filesz

/-- The first byte of the first sector. -/
def start : ℕ := h.paddr - h.off % sectsize

/-- The sectors that are read. There are none if the start is below address 0 or the end is 2^32,
since both are computed modulo 2^32. -/
def sectors : ℕ :=
  if h.off % sectsize ≤ h.paddr ∧ h.paddr + h.filesz < 2 ^ 32 then
    (h.off % sectsize + h.filesz + (sectsize - 1)) / sectsize
  else 0

def Covers (x : ℕ) : Prop := h.start ≤ x ∧ x < h.start + sectsize * h.sectors

instance (x : ℕ) : Decidable (h.Covers x) := inferInstanceAs (Decidable (_ ∧ _))

/-- The byte that a sector of the segment has for an address. -/
def carried (img : ℕ → UInt8) (x : ℕ) : UInt8 := img (h.off - h.off % sectsize + (x - h.start))

/-- The byte that belongs there. -/
def expected (img : ℕ → UInt8) (x : ℕ) : UInt8 :=
  if x < h.paddr + h.filesz then img (h.off + (x - h.paddr)) else 0

/-- The sectors do not reach the end of the address space. -/
def Ends : Prop := h.sectors = 0 ∨ h.start + sectsize * h.sectors < 2 ^ 32

/-- What reading the sectors and clearing the rest does. -/
def read (img : ℕ → UInt8) (m : Mem) : Mem :=
  copy m h.start (sectsize * h.sectors) fun t => img (h.off - h.off % sectsize + t)
def clear (m : Mem) : Mem := fill m (h.paddr + h.filesz) (h.memsz - h.filesz) 0
def load (img : ℕ → UInt8) (m : Mem) : Mem := h.clear (h.read img m)

end Proghdr

/-- The byte of the last sector that covers an address. -/
def lastCarried (img : ℕ → UInt8) (x : ℕ) : List Proghdr → Option UInt8
  | [] => none
  | h :: hs => lastCarried img x hs <|> if h.Covers x then some (h.carried img x) else none

def loadAll (img : ℕ → UInt8) (hs : List Proghdr) (m : Mem) : Mem := hs.foldl (fun m h => h.load img m) m

section Loops
variable (disk : ℕ → UInt8) {epa : ℕ} {m : Mem} {pa offset : ℕ}

theorem copy_append (m : Mem) (a k n : ℕ) (src : ℕ → UInt8) :
    copy (copy m a k src) (a + k) n (fun t => src (k + t)) = copy m a (k + n) src := by
  funext x
  simp only [copy]
  split_ifs <;> first | rfl | omega | (congr 1; omega)

theorem readLoop_of_le (h : epa ≤ pa) (fuel : ℕ) :
    readLoop disk epa fuel m pa offset = if 0 < fuel then some m else none := by
  cases fuel with
  | zero => rfl
  | succ fuel => rw [readLoop, if_neg (by omega), if_pos (Nat.succ_pos fuel)]

/-- The loop of `readseg` when it ends after `n` sectors. -/
theorem readLoop_eq (n : ℕ) (hlt : ∀ k < n, pa + sectsize * k < epa) (hge : epa ≤ pa + sectsize * n)
    (hfits : n = 0 ∨ pa + sectsize * n < 2 ^ 32) (hoffset : n = 0 ∨ offset + n ≤ 2 ^ 24) (fuel : ℕ) :
    readLoop disk epa fuel m pa offset =
      if n < fuel then some (copy m pa (sectsize * n) fun t => disk (sectsize * offset + t)) else none := by
  unfold sectsize at *
  induction n generalizing m pa offset fuel with
  | zero =>
    have hm : m = copy m pa (512 * 0) fun t => disk (512 * offset + t) := by
      funext x
      rw [copy, if_neg (by omega)]
    have hdone : epa ≤ pa := hge
    rw [readLoop_of_le disk hdone fuel, ← hm]
  | succ n ih =>
    replace hfits := hfits.resolve_left (Nat.succ_ne_zero n)
    replace hoffset := hoffset.resolve_left (Nat.succ_ne_zero n)
    rw [Nat.mul_succ, ← Nat.add_assoc] at hfits hge
    cases fuel with
    | zero => rfl
    | succ fuel =>
      have hfirst : pa < epa := hlt 0 (Nat.succ_pos n)
      have hpa : u32 (pa + sectsize) = pa + 512 := by
        unfold sectsize
        exact u32_of_lt (by omega)
      have hnext : u32 (offset + 1) = offset + 1 := u32_of_lt (by omega)
      have hsector : readsect disk m pa offset = copy m pa 512 fun t => disk (512 * offset + t) :=
        readsect_eq disk m (by omega) (by unfold sectsize; omega)
      have hrest : ∀ k < n, pa + 512 + 512 * k < epa := fun k hk => by
        have := hlt (k + 1) (by omega)
        omega
      have happend := copy_append m pa 512 (512 * n) fun t => disk (512 * offset + t)
      rw [readLoop, if_pos hfirst, hpa, hnext, hsector, ih hrest (by omega) (.inr (by omega)) (.inr (by omega)),
        show 512 * (n + 1) = 512 + 512 * n by omega, ← happend]
      simp only [Nat.succ_lt_succ_iff, Nat.mul_add, Nat.mul_one, Nat.add_assoc]

/-- The loop never ends if no address that it can reach is at the end of the segment or past it. -/
theorem readLoop_none (hpa : pa < 2 ^ 32) (h : ∀ x < 2 ^ 32, x % sectsize = pa % sectsize → x < epa) (fuel : ℕ) :
    readLoop disk epa fuel m pa offset = none := by
  unfold sectsize at *
  induction fuel generalizing m pa offset with
  | zero => rfl
  | succ fuel ih =>
    rw [readLoop, if_pos (h pa hpa rfl)]
    refine ih (Nat.mod_lt _ (by decide)) fun x hx hmod => h x hx ?_
    rw [hmod]
    unfold sectsize u32
    omega

end Loops

section Segments
variable (disk : ℕ → UInt8) {h : Proghdr} (m : Mem)

/-- A header whose segment fits into the memory beside the scratch space. -/
structure Proghdr.Placed (h : Proghdr) : Prop where
  off_lt : h.off < 2 ^ 32
  paddr_lt : h.paddr < 2 ^ 32
  fits : h.paddr + max h.memsz h.filesz ≤ 2 ^ 32
  away : ∀ x, h.Owns x → ¬ (elf ≤ x ∧ x < elf + 4096)

/-- A segment that starts near address 0 ends below the scratch space. -/
theorem Proghdr.Placed.end_le (hp : h.Placed) (hlow : h.paddr < sectsize) : h.paddr + h.filesz ≤ elf := by
  by_contra hend
  unfold sectsize at hlow
  exact hp.away elf ⟨by unfold elf; omega,by omega⟩ ⟨le_rfl,by omega⟩

theorem image_sector (off t : ℕ) :
    disk (sectsize * (off / sectsize + 1) + t) = image disk (off - off % sectsize + t) := by
  unfold image sectsize
  congr 1
  omega

/-- `readseg` of a segment reads its sectors. -/
theorem readseg_eq (hp : h.Placed) (hends : h.Ends) (fuel : ℕ) : readseg disk fuel m h.paddr h.filesz h.off =
    if h.sectors < fuel then some (h.read (image disk) m) else none := by
  have hoff := hp.off_lt
  have hpaddr := hp.paddr_lt
  have hfits := hp.fits
  have hsector : u32 (h.off / sectsize + 1) = h.off / sectsize + 1 := by
    unfold sectsize
    exact u32_of_lt (by omega)
  have hread : h.read (image disk) m = copy m h.start (sectsize * h.sectors)
      fun t => disk (sectsize * (h.off / sectsize + 1) + t) := by
    simp only [image_sector]
    rfl
  rw [readseg, hsector, hread]
  by_cases hplain : h.off % sectsize ≤ h.paddr ∧ h.paddr + h.filesz < 2 ^ 32
  · have hstart : sub32 h.paddr (h.off % sectsize) = h.start := sub32_of_le hplain.1
    have hcount : h.sectors = (h.off % sectsize + h.filesz + (sectsize - 1)) / sectsize := if_pos hplain
    rw [u32_of_lt hplain.2, hstart]
    unfold Proghdr.Ends at hends
    generalize h.sectors = n at hcount hends
    unfold Proghdr.start sectsize at *
    exact readLoop_eq disk n (fun k hk => by unfold sectsize; omega) (by unfold sectsize; omega) hends (by omega) fuel
  · have hcount : h.sectors = 0 := if_neg hplain
    have hnone : u32 (h.paddr + h.filesz) ≤ sub32 h.paddr (h.off % sectsize) := by
      by_cases hunder : h.off % sectsize ≤ h.paddr
      · have hend : h.paddr + h.filesz = 2 ^ 32 := by omega
        rw [hend]
        exact Nat.zero_le _
      · have hmod : h.off % sectsize < sectsize := Nat.mod_lt _ (by decide)
        have hlow := hp.end_le (by omega)
        unfold sectsize elf at *
        rw [sub32, if_neg hunder, u32_of_lt (by omega)]
        omega
    have hempty : ∀ start, copy m start (sectsize * 0) (fun t => disk (sectsize * (h.off / sectsize + 1) + t)) = m := by
      intro start
      funext x
      rw [copy, if_neg (by omega)]
    rw [hcount, hempty]
    exact readLoop_of_le disk hnone fuel

/-- `readseg` never returns when its sectors reach the end of the address space. -/
theorem readseg_none (hp : h.Placed) (hends : ¬ h.Ends) (fuel : ℕ) :
    readseg disk fuel m h.paddr h.filesz h.off = none := by
  unfold Proghdr.Ends at hends
  obtain ⟨hpos,hend⟩ := not_or.mp hends
  have hplain : h.off % sectsize ≤ h.paddr ∧ h.paddr + h.filesz < 2 ^ 32 := by
    by_contra hplain
    exact hpos (if_neg hplain)
  have hpaddr := hp.paddr_lt
  have hcount : h.sectors = (h.off % sectsize + h.filesz + (sectsize - 1)) / sectsize := if_pos hplain
  have hstart : sub32 h.paddr (h.off % sectsize) = h.start := sub32_of_le hplain.1
  rw [readseg, u32_of_lt hplain.2, hstart]
  generalize h.sectors = n at hcount hend hpos
  unfold Proghdr.start sectsize at *
  exact readLoop_none disk (by omega) (fun x hx hmod => by unfold sectsize at hmod; omega) fuel

theorem read_apply (img : ℕ → UInt8) (x : ℕ) :
    h.read img m x = if h.Covers x then h.carried img x else m x := rfl

/-- Outside of the part that is cleared only the sectors matter. -/
theorem load_apply (img : ℕ → UInt8) {x : ℕ} (hx : ¬ (h.paddr + h.filesz ≤ x ∧ x < h.paddr + h.memsz)) :
    h.load img m x = if h.Covers x then h.carried img x else m x := by
  have hrange : ¬ (h.paddr + h.filesz ≤ x ∧ x < h.paddr + h.filesz + (h.memsz - h.filesz)) := by omega
  rw [Proghdr.load, Proghdr.clear, fill, if_neg hrange, read_apply]

theorem load_cleared (img : ℕ → UInt8) {x : ℕ} (hx : h.paddr + h.filesz ≤ x ∧ x < h.paddr + h.memsz) :
    h.load img m x = 0 := if_pos (by omega)

/-- The last sector that covers a byte decides about it. -/
theorem loadAll_apply (img : ℕ → UInt8) (hs : List Proghdr) {x : ℕ}
    (hx : ∀ h ∈ hs, ¬ (h.paddr + h.filesz ≤ x ∧ x < h.paddr + h.memsz)) :
    loadAll img hs m x = (lastCarried img x hs).getD (m x) := by
  induction hs generalizing m with
  | nil => rfl
  | cons h hs ih =>
    have hrest := ih (h.load img m) fun h' hh => hx h' (List.mem_cons_of_mem h hh)
    rw [load_apply m img (hx h List.mem_cons_self)] at hrest
    rw [loadAll, List.foldl_cons, ← loadAll, hrest, lastCarried]
    cases lastCarried img x hs with
    | some b => rfl
    | none => by_cases hcover : h.Covers x <;> simp [hcover]

theorem lastCarried_concat (img : ℕ → UInt8) (x : ℕ) (hs : List Proghdr) (h : Proghdr) :
    lastCarried img x (hs ++ [h]) = if h.Covers x then some (h.carried img x) else lastCarried img x hs := by
  induction hs with
  | nil => by_cases hcover : h.Covers x <;> simp [lastCarried, hcover]
  | cons h' hs ih =>
    rw [List.cons_append, lastCarried, ih, lastCarried]
    by_cases hcover : h.Covers x <;> simp [hcover]

end Segments

section Image
variable (disk : ℕ → UInt8)

/-- What the header of the image says about the program headers. -/
def phoff : ℕ := load32 (image disk) 28
def phnum : ℕ := load16 (image disk) 44

def header (i : ℕ) : Proghdr := proghdr (image disk) (phoff disk + 32 * i)
def headers : List Proghdr := (List.range (phnum disk)).map (header disk)

/-- A kernel image with its program headers on the first page, and with segments that lie apart
from each other, in increasing order, and apart from the scratch space. -/
structure Bootable : Prop where
  magic : load32 (image disk) 0 = elfMagic
  table : phoff disk + 32 * phnum disk ≤ 4096
  fits : ∀ h ∈ headers disk, h.paddr + max h.memsz h.filesz ≤ 2 ^ 32
  increasing : (headers disk).Pairwise fun h h' => ∀ x y, h.Owns x → h'.Owns y → x < y
  away : ∀ h ∈ headers disk, ∀ x, h.Owns x → ¬ (elf ≤ x ∧ x < elf + 4096)

/-- The sectors of `hs` change none of the `k` bytes at `a` in the scratch space. -/
def Intact (hs : List Proghdr) (a k : ℕ) : Prop := ∀ t, a ≤ t → t < a + k →
  (lastCarried (image disk) (elf + t) hs).getD (image disk t) = image disk t

/-- The fields of each program header are unchanged when the loop reads them. -/
def HeadersIntact : Prop := ∀ i < phnum disk,
  Intact disk ((headers disk).take i) (phoff disk + 32 * i + 4) 4 ∧
  Intact disk ((headers disk).take i) (phoff disk + 32 * i + 12) 12 ∧
  Intact disk ((headers disk).take (i + 1)) (phoff disk + 32 * i + 16) 8

/-- The last sector that covers a byte of a file part carries that byte, and a later sector that
covers a byte behind a file part carries a zero. -/
def RightBytes : Prop := ∀ (i : ℕ) (hi : i < (headers disk).length) (x : ℕ), (headers disk)[i].Owns x →
  if x < (headers disk)[i].paddr + (headers disk)[i].filesz then
    lastCarried (image disk) x (headers disk) =
      some (image disk ((headers disk)[i].off + (x - (headers disk)[i].paddr)))
  else (lastCarried (image disk) x ((headers disk).drop (i + 1))).getD 0 = 0

/-- From every memory the loader comes to the entry point with each segment in its place. -/
def Loads : Prop := ∀ m, ∃ fuel m' entry, bootmain disk fuel m = some (.enter m' entry) ∧
  ∀ h ∈ headers disk, ∀ x, h.Owns x → m' x = h.expected (image disk) x

/-- The memory after the first page of the image is read, and after the first segments are. -/
def firstPage (m : Mem) : Mem := copy m elf 4096 (image disk)
def stage (m : Mem) (i : ℕ) : Mem := loadAll (image disk) ((headers disk).take i) (firstPage disk m)

end Image

section Run
variable {disk : ℕ → UInt8} (m : Mem)

theorem load32_of_bytes {m m' : Mem} {a b : ℕ} (h : ∀ t < 4, m (a + t) = m' (b + t)) : load32 m a = load32 m' b := by
  have ha := load32_shift m a 0
  have hb := load32_shift m' b 0
  rw [Nat.add_zero] at ha hb
  rw [← ha, ← hb]
  exact load32_congr fun t _ ht => h t (by omega)

theorem length_headers : (headers disk).length = phnum disk := by simp [headers]

theorem getElem_headers {i : ℕ} (hi : i < (headers disk).length) : (headers disk)[i] = header disk i := by simp [headers]

theorem header_mem {i : ℕ} (hi : i < phnum disk) : header disk i ∈ headers disk :=
  List.mem_map_of_mem (List.mem_range.mpr hi)

theorem take_headers {i : ℕ} (hi : i < phnum disk) :
    (headers disk).take (i + 1) = (headers disk).take i ++ [header disk i] := by
  rw [List.take_succ_eq_append_getElem (by rwa [length_headers]), getElem_headers]

theorem Bootable.placed (hb : Bootable disk) {h : Proghdr} (hh : h ∈ headers disk) : h.Placed := by
  obtain ⟨i,-,rfl⟩ := List.mem_map.mp hh
  exact ⟨load32_lt _ _,load32_lt _ _,hb.fits _ hh,hb.away _ hh⟩

theorem stage_succ {i : ℕ} (hi : i < phnum disk) :
    stage disk m (i + 1) = (header disk i).load (image disk) (stage disk m i) := by
  rw [stage, take_headers hi, loadAll, List.foldl_append]
  rfl

theorem firstPage_add {t : ℕ} (ht : t < 4096) : firstPage disk m (elf + t) = image disk t := by
  rw [firstPage, copy, if_pos (by omega), Nat.add_sub_cancel_left]

/-- The scratch space is changed by sectors only. -/
theorem Bootable.scratch (hb : Bootable disk) {hs : List Proghdr} (hsub : ∀ h ∈ hs, h ∈ headers disk) {t : ℕ}
    (ht : t < 4096) : loadAll (image disk) hs (firstPage disk m) (elf + t) =
      (lastCarried (image disk) (elf + t) hs).getD (image disk t) := by
  rw [loadAll_apply _ _ _ fun h hh hx => hb.away h (hsub h hh) (elf + t) ⟨by omega,by omega⟩ ⟨by omega,by omega⟩,
    firstPage_add m ht]

theorem Bootable.load32_stage (hb : Bootable disk) {i a : ℕ} (ha : a + 4 ≤ 4096)
    (h : Intact disk ((headers disk).take i) a 4) : load32 (stage disk m i) (elf + a) = load32 (image disk) a :=
  load32_of_bytes fun t ht => by
    rw [Nat.add_assoc, stage, hb.scratch m (fun h hh => List.mem_of_mem_take hh) (by omega), h _ (by omega) (by omega)]

theorem Intact.mono {hs : List Proghdr} {a k b l : ℕ} (h : Intact disk hs a k) (hb : a ≤ b) (hl : b + l ≤ a + k) :
    Intact disk hs b l := fun t h1 h2 => h t (by omega) (by omega)

/-- The loop reads the headers that the image has. -/
theorem Bootable.proghdr_stage (hb : Bootable disk) (hintact : HeadersIntact disk) {i : ℕ} (hi : i < phnum disk) :
    proghdr (stage disk m i) (elf + (phoff disk + 32 * i)) = header disk i := by
  obtain ⟨hoff,hrest,-⟩ := hintact i hi
  have htable := hb.table
  simp only [proghdr, header, Proghdr.mk.injEq, Nat.add_assoc elf]
  exact ⟨hb.load32_stage m (by omega) hoff,hb.load32_stage m (by omega) (hrest.mono (by omega) (by omega)),
    hb.load32_stage m (by omega) (hrest.mono (by omega) (by omega)),
    hb.load32_stage m (by omega) (hrest.mono (by omega) (by omega))⟩

/-- After the sectors of the segment are read, its sizes are still those of the image. -/
theorem Bootable.sizes_read (hb : Bootable disk) (hintact : HeadersIntact disk) {i : ℕ} (hi : i < phnum disk) :
    (proghdr ((header disk i).read (image disk) (stage disk m i)) (elf + (phoff disk + 32 * i))).filesz =
      (header disk i).filesz ∧
    (proghdr ((header disk i).read (image disk) (stage disk m i)) (elf + (phoff disk + 32 * i))).memsz =
      (header disk i).memsz := by
  obtain ⟨-,-,hsizes⟩ := hintact i hi
  have htable := hb.table
  have hword : ∀ a, phoff disk + 32 * i + 16 ≤ a → a + 4 ≤ phoff disk + 32 * i + 24 →
      load32 ((header disk i).read (image disk) (stage disk m i)) (elf + a) = load32 (image disk) a := by
    intro a h1 h2
    refine load32_of_bytes fun t ht => ?_
    have hbyte := hsizes (a + t) (by omega) (by omega)
    rw [take_headers hi, lastCarried_concat] at hbyte
    rw [Nat.add_assoc, read_apply, stage, hb.scratch m (fun h hh => List.mem_of_mem_take hh) (by omega)]
    by_cases hcover : (header disk i).Covers (elf + (a + t))
    · rw [if_pos hcover] at hbyte ⊢
      exact hbyte
    · rw [if_neg hcover] at hbyte ⊢
      exact hbyte
  simp only [proghdr, header, Nat.add_assoc elf] at hword ⊢
  exact ⟨hword _ (by omega) (by omega),hword _ (by omega) (by omega)⟩

/-- The body of the loop leads from one stage to the next. -/
theorem Bootable.loadSegment_stage (hb : Bootable disk) (hintact : HeadersIntact disk) {i : ℕ} (hi : i < phnum disk)
    (hends : (header disk i).Ends) (fuel : ℕ) :
    loadSegment disk fuel (stage disk m i) (elf + (phoff disk + 32 * i)) =
      if (header disk i).sectors < fuel then some (stage disk m (i + 1)) else none := by
  have hplaced := hb.placed (header_mem hi)
  obtain ⟨hfilesz,hmemsz⟩ := hb.sizes_read m hintact hi
  have hfits := hplaced.fits
  unfold loadSegment
  simp only [hb.proghdr_stage m hintact hi]
  rw [readseg_eq disk _ hplaced hends fuel]
  by_cases hfuel : (header disk i).sectors < fuel
  · rw [if_pos hfuel, if_pos hfuel]
    simp only [Option.bind_eq_bind, Option.bind_some, hfilesz, hmemsz, Option.some.injEq]
    rw [stage_succ m hi, Proghdr.load, Proghdr.clear]
    by_cases hrest : (header disk i).filesz < (header disk i).memsz
    · rw [if_pos hrest, u32_of_lt (by omega), stosb_eq_fill _ _ (by omega)]
      rfl
    · rw [if_neg hrest]
      funext x
      rw [fill, if_neg (by omega)]
  · rw [if_neg hfuel, if_neg hfuel]
    rfl

theorem Bootable.loadSegment_none (hb : Bootable disk) (hintact : HeadersIntact disk) {i : ℕ} (hi : i < phnum disk)
    (hends : ¬ (header disk i).Ends) (fuel : ℕ) :
    loadSegment disk fuel (stage disk m i) (elf + (phoff disk + 32 * i)) = none := by
  unfold loadSegment
  simp only [hb.proghdr_stage m hintact hi]
  rw [readseg_none disk _ (hb.placed (header_mem hi)) hends fuel]
  rfl

/-- The end of the program headers in the scratch space. -/
def ephdr (disk : ℕ → UInt8) : ℕ := elf + (phoff disk + 32 * phnum disk)

theorem Bootable.next_header (hb : Bootable disk) {i : ℕ} (hi : i < phnum disk) :
    u32 (elf + (phoff disk + 32 * i) + 32) = elf + (phoff disk + 32 * (i + 1)) := by
  have htable := hb.table
  rw [u32_of_lt (by unfold elf; omega)]
  omega

/-- The number of sectors of a segment is less than this fuel. -/
def enough : ℕ := 2 ^ 24

theorem Proghdr.Placed.sectors_lt {h : Proghdr} (hp : h.Placed) : h.sectors < enough := by
  have hfits := hp.fits
  unfold Proghdr.sectors enough sectsize
  split <;> omega

/-- The loop over the headers, from each stage to the last one. -/
theorem Bootable.loadLoop_eq (hb : Bootable disk) (hintact : HeadersIntact disk) (hends : ∀ h ∈ headers disk, h.Ends)
    (j : ℕ) {i k : ℕ} (hij : i + j = phnum disk) (hk : j < k) :
    loadLoop disk enough (ephdr disk) k (stage disk m i) (elf + (phoff disk + 32 * i)) =
      some (stage disk m (phnum disk)) := by
  induction j generalizing i k with
  | zero =>
    obtain ⟨k,rfl⟩ := Nat.exists_eq_succ_of_ne_zero (by omega : k ≠ 0)
    rw [Nat.succ_eq_add_one, loadLoop, if_neg (by unfold ephdr; omega), show i = phnum disk by omega]
  | succ j ih =>
    obtain ⟨k,rfl⟩ := Nat.exists_eq_succ_of_ne_zero (by omega : k ≠ 0)
    have hi : i < phnum disk := by omega
    rw [Nat.succ_eq_add_one, loadLoop, if_pos (by unfold ephdr; omega),
      hb.loadSegment_stage m hintact hi (hends _ (header_mem hi)) enough,
      if_pos (hb.placed (header_mem hi)).sectors_lt, Option.bind_eq_bind, Option.bind_some, hb.next_header hi]
    exact ih (by omega) (by omega)

/-- The loop ends in the last stage only, and not at all behind a segment whose sectors reach the
end of the address space. -/
theorem Bootable.loadLoop_some (hb : Bootable disk) (hintact : HeadersIntact disk) {fuel : ℕ} {m' : Mem} (k : ℕ)
    {i : ℕ} (hi : i ≤ phnum disk)
    (h : loadLoop disk fuel (ephdr disk) k (stage disk m i) (elf + (phoff disk + 32 * i)) = some m') :
    (∀ j < phnum disk, i ≤ j → (header disk j).Ends) ∧ m' = stage disk m (phnum disk) := by
  induction k generalizing i with
  | zero => cases h
  | succ k ih =>
    rw [loadLoop] at h
    by_cases hmore : i < phnum disk
    · rw [if_pos (by unfold ephdr; omega)] at h
      by_cases hends : (header disk i).Ends
      · rw [hb.loadSegment_stage m hintact hmore hends fuel] at h
        by_cases hfuel : (header disk i).sectors < fuel
        · rw [if_pos hfuel, Option.bind_eq_bind, Option.bind_some, hb.next_header hmore] at h
          obtain ⟨hrest,hm'⟩ := ih hmore h
          refine ⟨fun j hj hij => ?_,hm'⟩
          rcases hij.eq_or_lt with rfl | hlt
          · exact hends
          · exact hrest j hj hlt
        · rw [if_neg hfuel] at h
          cases h
      · rw [hb.loadSegment_none m hintact hmore hends fuel] at h
        cases h
    · have hlast : i = phnum disk := by omega
      rw [if_neg (by unfold ephdr; omega), hlast] at h
      exact ⟨fun j hj hij => by omega,(Option.some.inj h).symm⟩

/-- The first page of the image goes to the scratch space. -/
theorem readseg_elf (fuel : ℕ) : readseg disk fuel m elf 4096 0 = if 8 < fuel then some (firstPage disk m) else none := by
  have hpage : firstPage disk m = copy m elf (sectsize * 8) fun t => disk (sectsize * 1 + t) := rfl
  rw [hpage]
  exact readLoop_eq disk 8 (fun k hk => by unfold sectsize; omega) le_rfl (.inr (by decide))
    (.inr (by decide)) fuel

theorem load32_firstPage {a : ℕ} (ha : a + 4 ≤ 4096) : load32 (firstPage disk m) (elf + a) = load32 (image disk) a :=
  load32_of_bytes fun t ht => by rw [Nat.add_assoc, firstPage_add m (by omega)]

theorem load16_firstPage {a : ℕ} (ha : a + 2 ≤ 4096) : load16 (firstPage disk m) (elf + a) = load16 (image disk) a := by
  have h : SameOn (fun x => firstPage disk m (elf + x)) (image disk) a 2 := fun x h1 h2 => firstPage_add m (by omega)
  have hshift : load16 (fun x => firstPage disk m (elf + x)) a = load16 (firstPage disk m) (elf + a) := by
    simp only [load16, load8, Nat.add_assoc]
  rw [← hshift, load16_congr h]

/-- `bootmain` is the loop from the first stage on. -/
theorem Bootable.bootmain_eq (hb : Bootable disk) {fuel : ℕ} (hfuel : 8 < fuel) : bootmain disk fuel m =
    (loadLoop disk fuel (ephdr disk) fuel (stage disk m 0) (elf + (phoff disk + 32 * 0))).map
      fun m' => .enter m' (load32 m' (elf + 24)) := by
  have htable := hb.table
  have hmagic : load32 (firstPage disk m) elf = elfMagic := (load32_firstPage m (a := 0) (by omega)).trans hb.magic
  have hph : u32 (elf + phoff disk) = elf + phoff disk := u32_of_lt (by unfold elf; omega)
  have heph : u32 (elf + phoff disk + 32 * phnum disk) = ephdr disk := by
    rw [u32_of_lt (by unfold elf; omega), ephdr, Nat.add_assoc]
  unfold bootmain
  rw [readseg_elf, if_pos hfuel]
  simp only [Option.bind_eq_bind, Option.bind_some, hmagic, load32_firstPage m (a := 28) (by omega),
    load16_firstPage m (a := 44) (by omega)]
  rw [if_neg (not_not.mpr rfl), ← phoff, ← phnum, hph, heph]
  exact Option.map_eq_bind.symm

theorem Bootable.bootmain_some (hb : Bootable disk) (hintact : HeadersIntact disk) {fuel entry : ℕ} {m' : Mem}
    (h : bootmain disk fuel m = some (.enter m' entry)) :
    (∀ h ∈ headers disk, h.Ends) ∧ m' = stage disk m (phnum disk) := by
  have hfuel : 8 < fuel := by
    by_contra hle
    rw [bootmain, readseg_elf, if_neg hle] at h
    cases h
  rw [hb.bootmain_eq m hfuel, Option.map_eq_some_iff] at h
  obtain ⟨m₁,hloop,hm₁⟩ := h
  obtain ⟨hends,rfl⟩ := hb.loadLoop_some m hintact fuel (Nat.zero_le _) hloop
  refine ⟨fun h hh => ?_,(Outcome.enter.inj hm₁).1.symm⟩
  obtain ⟨j,hj,rfl⟩ := List.mem_map.mp hh
  exact hends j (List.mem_range.mp hj) (Nat.zero_le j)

theorem Bootable.bootmain_ends (hb : Bootable disk) (hintact : HeadersIntact disk) (hends : ∀ h ∈ headers disk, h.Ends) :
    ∃ entry, bootmain disk enough m = some (.enter (stage disk m (phnum disk)) entry) := by
  have hphnum : phnum disk < enough := (load16_lt _ _).trans (by decide)
  rw [hb.bootmain_eq m (by decide), hb.loadLoop_eq m hintact hends (phnum disk) (Nat.zero_add _) hphnum]
  exact ⟨_,rfl⟩

end Run

section Bytes
variable {disk : ℕ → UInt8}

/-- A byte belongs to one segment. -/
theorem Bootable.owner_unique (hb : Bootable disk) {i j x : ℕ} (hi : i < phnum disk) (hj : j < phnum disk)
    (h : (header disk i).Owns x) (h' : (header disk j).Owns x) : i = j := by
  have hpair := List.pairwise_iff_getElem.mp hb.increasing
  rw [← length_headers] at hi hj
  rcases lt_trichotomy i j with hlt | heq | hlt
  · exact absurd (hpair i j hi hj hlt x x (by rwa [getElem_headers]) (by rwa [getElem_headers])) (lt_irrefl x)
  · exact heq
  · exact absurd (hpair j i hj hi hlt x x (by rwa [getElem_headers]) (by rwa [getElem_headers])) (lt_irrefl x)

variable (hb : Bootable disk) (m : Mem) {i x : ℕ} (hi : i < phnum disk) (hx : (header disk i).Owns x)
include hb hi hx

/-- A byte of a file part after the last stage. -/
theorem Bootable.stage_file (hfile : x < (header disk i).paddr + (header disk i).filesz) :
    stage disk m (phnum disk) x = (lastCarried (image disk) x (headers disk)).getD (m x) := by
  have hpage : firstPage disk m x = m x := by
    rw [firstPage, copy, if_neg (hb.away _ (header_mem hi) x hx)]
  rw [stage, ← length_headers, List.take_length, loadAll_apply, hpage]
  intro h hh hrest
  obtain ⟨j,hj,rfl⟩ := List.mem_map.mp hh
  have hown : (header disk j).Owns x := ⟨by omega,by omega⟩
  have := hb.owner_unique hi (List.mem_range.mp hj) hx hown
  subst this
  omega

/-- A byte behind the file part, which is cleared before the later segments are read. -/
theorem Bootable.stage_rest (hrest : ¬ x < (header disk i).paddr + (header disk i).filesz) :
    stage disk m (phnum disk) x = (lastCarried (image disk) x ((headers disk).drop (i + 1))).getD 0 := by
  have hsplit : stage disk m (phnum disk) = loadAll (image disk) ((headers disk).drop (i + 1)) (stage disk m (i + 1)) := by
    rw [stage, stage, ← length_headers, List.take_length, loadAll, loadAll, loadAll, ← List.foldl_append,
      List.take_append_drop]
  have hcleared : stage disk m (i + 1) x = 0 := by
    rw [stage_succ m hi]
    obtain ⟨h1,h2⟩ := hx
    exact load_cleared _ _ ⟨by omega,by omega⟩
  rw [hsplit, loadAll_apply, hcleared]
  intro h hh hzero
  obtain ⟨j,hj,rfl⟩ := List.mem_drop_iff_getElem.mp hh
  rw [getElem_headers] at hzero
  have hown : (header disk (i + 1 + j)).Owns x := ⟨by omega,by omega⟩
  have := hb.owner_unique hi (by rw [← length_headers]; omega) hx hown
  omega

end Bytes

section Law
variable {disk : ℕ → UInt8}

theorem Bootable.rightBytes_iff (hb : Bootable disk) : RightBytes disk ↔
    ∀ m, ∀ h ∈ headers disk, ∀ x, h.Owns x → stage disk m (phnum disk) x = h.expected (image disk) x := by
  constructor
  · intro hright m h hh x hx
    obtain ⟨i,hi,rfl⟩ := List.mem_map.mp hh
    replace hi := List.mem_range.mp hi
    have hbyte := hright i (by rwa [length_headers]) x (by rwa [getElem_headers])
    rw [getElem_headers] at hbyte
    unfold Proghdr.expected
    by_cases hfile : x < (header disk i).paddr + (header disk i).filesz
    · rw [if_pos hfile] at hbyte ⊢
      rw [hb.stage_file m hi hx hfile, hbyte, Option.getD_some]
    · rw [if_neg hfile] at hbyte ⊢
      rw [hb.stage_rest m hi hx hfile, hbyte]
  · intro hall i hi x hx
    rw [getElem_headers] at hx ⊢
    rw [length_headers] at hi
    have hbyte := fun m => hall m _ (header_mem hi) x hx
    unfold Proghdr.expected at hbyte
    by_cases hfile : x < (header disk i).paddr + (header disk i).filesz
    · rw [if_pos hfile] at hbyte ⊢
      cases hlast : lastCarried (image disk) x (headers disk) with
      | some b =>
        have h := hbyte fun _ => 0
        rw [hb.stage_file _ hi hx hfile, hlast] at h
        exact congrArg some h
      | none =>
        -- nothing is read there, so that the byte is what the memory had before
        have h := hbyte fun _ => image disk ((header disk i).off + (x - (header disk i).paddr)) + 1
        rw [hb.stage_file _ hi hx hfile, hlast, Option.getD_none] at h
        exact absurd h (by simp)
    · rw [if_neg hfile] at hbyte ⊢
      have h := hbyte fun _ => 0
      rwa [hb.stage_rest _ hi hx hfile] at h

theorem Bootable.loads (hb : Bootable disk) (hintact : HeadersIntact disk) (hends : ∀ h ∈ headers disk, h.Ends)
    (hright : RightBytes disk) : Loads disk := fun m => by
  obtain ⟨entry,hrun⟩ := hb.bootmain_ends m hintact hends
  exact ⟨enough,_,entry,hrun,hb.rightBytes_iff.mp hright m⟩

theorem Bootable.of_loads (hb : Bootable disk) (hintact : HeadersIntact disk) (hloads : Loads disk) :
    (∀ h ∈ headers disk, h.Ends) ∧ RightBytes disk := by
  have hrun : ∀ m, (∀ h ∈ headers disk, h.Ends) ∧
      ∀ h ∈ headers disk, ∀ x, h.Owns x → stage disk m (phnum disk) x = h.expected (image disk) x := by
    intro m
    obtain ⟨fuel,m',entry,hrun,hbytes⟩ := hloads m
    obtain ⟨hends,rfl⟩ := hb.bootmain_some m hintact hrun
    exact ⟨hends,hbytes⟩
  exact ⟨(hrun fun _ => 0).1,hb.rightBytes_iff.mpr fun m => (hrun m).2⟩

/-- The loader puts the segments into their places if the sectors leave the program headers alone,
end before the end of the address space, and carry the right bytes where they cover other
segments. While the headers are left alone there is no other way. -/
theorem segments_loaded_iff (hb : Bootable disk) :
    (HeadersIntact disk ∧ (∀ h ∈ headers disk, h.Ends) ∧ RightBytes disk → Loads disk) ∧
    (HeadersIntact disk → Loads disk → (∀ h ∈ headers disk, h.Ends) ∧ RightBytes disk) :=
  ⟨fun h => hb.loads h.1 h.2.1 h.2.2,hb.of_loads⟩

end Law

/-! ## Two adjacent segments -/

/-- An image with two segments of 16 bytes side by side, where the second one starts at offset
0x10 of a sector of the file. The argument is the second byte of that offset. -/
def twoSegments (b : UInt8) (k : ℕ) : UInt8 :=
  if sectsize + 4096 ≤ k ∧ k < sectsize + 4112 then 1
  else match k - sectsize with
    | 0 => 0x7F
    | 1 => 0x45
    | 2 => 0x4C
    | 3 => 0x46
    | 28 => 52
    | 44 => 2
    | 57 => 0x10
    | 65 => 0x10
    | 68 => 16
    | 72 => 16
    | 88 => 0x10
    | 89 => b
    | 96 => 0x10
    | 97 => 0x10
    | 100 => 16
    | 104 => 16
    | _ => 0

section Sample
variable (b : UInt8)

theorem load16_bytes (m : Mem) (a : ℕ) : load16 m a = (m a).toNat + 2 ^ 8 * (m (a + 1)).toNat := by
  unfold load16 load8
  rfl

theorem load32_bytes (m : Mem) (a : ℕ) : load32 m a =
    (m a).toNat + 2 ^ 8 * (m (a + 1)).toNat + 2 ^ 16 * ((m (a + 2)).toNat + 2 ^ 8 * (m (a + 3)).toNat) := by
  unfold load32
  rw [load16_bytes, load16_bytes]

def firstSegment : Proghdr := ⟨0x1000,0x1000,16,16⟩
def secondSegment (b : UInt8) : Proghdr := ⟨0x10 + 2 ^ 8 * b.toNat,0x1010,16,16⟩

theorem phnum_twoSegments : phnum (twoSegments b) = 2 := by
  rw [phnum, load16_bytes]
  rfl

theorem phoff_twoSegments : phoff (twoSegments b) = 52 := by
  rw [phoff, load32_bytes]
  rfl

theorem header_zero : header (twoSegments b) 0 = firstSegment := by
  simp only [header, proghdr, phoff_twoSegments, load32_bytes]
  rfl

theorem header_one : header (twoSegments b) 1 = secondSegment b := by
  simp only [header, proghdr, phoff_twoSegments, load32_bytes]
  rfl

theorem headers_twoSegments : headers (twoSegments b) = [firstSegment,secondSegment b] := by
  rw [headers, phnum_twoSegments, ← header_zero b, ← header_one]
  rfl

/-- The sectors are those from 0x1000 on, one for each segment. -/
theorem covers_firstSegment (x : ℕ) : firstSegment.Covers x ↔ 0x1000 ≤ x ∧ x < 0x1200 := Iff.rfl

variable {b} (heven : (0x10 + 2 ^ 8 * b.toNat) % sectsize = 0x10)
include heven

theorem start_secondSegment : (secondSegment b).start = 0x1000 := by
  have h : (secondSegment b).start = 0x1010 - (0x10 + 2 ^ 8 * b.toNat) % sectsize := rfl
  rw [h, heven]

theorem sectors_secondSegment : (secondSegment b).sectors = 1 := by
  have h : (secondSegment b).sectors = if (0x10 + 2 ^ 8 * b.toNat) % sectsize ≤ 0x1010 ∧ 0x1010 + 16 < 2 ^ 32 then
      ((0x10 + 2 ^ 8 * b.toNat) % sectsize + 16 + (sectsize - 1)) / sectsize else 0 := rfl
  rw [h, heven]
  rfl

theorem covers_secondSegment (x : ℕ) : (secondSegment b).Covers x ↔ 0x1000 ≤ x ∧ x < 0x1200 := by
  rw [Proghdr.Covers, start_secondSegment heven, sectors_secondSegment heven]
  rfl

theorem carried_secondSegment (img : ℕ → UInt8) (x : ℕ) :
    (secondSegment b).carried img x = img (2 ^ 8 * b.toNat + (x - 0x1000)) := by
  have h : (secondSegment b).off - (secondSegment b).off % sectsize =
      0x10 + 2 ^ 8 * b.toNat - (0x10 + 2 ^ 8 * b.toNat) % sectsize := rfl
  rw [Proghdr.carried, h, heven, start_secondSegment heven, Nat.add_sub_cancel_left]

/-- The second segment's sector covers both segments. -/
theorem lastCarried_twoSegments (img : ℕ → UInt8) {x : ℕ} (hx : 0x1000 ≤ x ∧ x < 0x1200) :
    lastCarried img x [firstSegment,secondSegment b] = some (img (2 ^ 8 * b.toNat + (x - 0x1000))) := by
  have hcover := (covers_secondSegment heven x).mpr hx
  have happend : [firstSegment,secondSegment b] = [firstSegment] ++ [secondSegment b] := rfl
  rw [happend, lastCarried_concat, if_pos hcover, carried_secondSegment heven]

omit heven in
theorem bootable_twoSegments : Bootable (twoSegments b) where
  magic := by
    have h0 : image (twoSegments b) 0 = 0x7F := rfl
    have h1 : image (twoSegments b) (0 + 1) = 0x45 := rfl
    have h2 : image (twoSegments b) (0 + 2) = 0x4C := rfl
    have h3 : image (twoSegments b) (0 + 3) = 0x46 := rfl
    rw [load32_bytes, h0, h1, h2, h3]
    decide
  table := by
    rw [phoff_twoSegments, phnum_twoSegments]
    decide
  fits := by
    rw [headers_twoSegments]
    simp [firstSegment, secondSegment]
  increasing := by
    rw [headers_twoSegments]
    simp only [List.pairwise_cons, List.mem_singleton, forall_eq, List.not_mem_nil, false_imp_iff, implies_true,
      List.Pairwise.nil, and_true]
    rintro x y ⟨-,hx⟩ ⟨hy,-⟩
    exact hx.trans_le hy
  away := by
    rw [headers_twoSegments]
    simp only [List.mem_cons, List.not_mem_nil, or_false, forall_eq_or_imp, forall_eq]
    refine ⟨fun x hx => ?_,fun x hx => ?_⟩
    · have hx : x < 0x1010 := hx.2
      unfold elf
      omega
    · have hx : x < 0x1020 := hx.2
      unfold elf
      omega

theorem headersIntact_twoSegments : HeadersIntact (twoSegments b) := by
  have hnone : ∀ hs : List Proghdr, (∀ h ∈ hs, h = firstSegment ∨ h = secondSegment b) → ∀ t,
      lastCarried (image (twoSegments b)) (elf + t) hs = none := by
    intro hs hsub t
    induction hs with
    | nil => rfl
    | cons h hs ih =>
      have hcover : ¬ h.Covers (elf + t) := by
        unfold elf
        rcases hsub h List.mem_cons_self with rfl | rfl
        · rw [covers_firstSegment]
          omega
        · rw [covers_secondSegment heven]
          omega
      rw [lastCarried, ih fun h' hh => hsub h' (List.mem_cons_of_mem h hh), if_neg hcover]
      rfl
  have hintact : ∀ i a k, Intact (twoSegments b) ((headers (twoSegments b)).take i) a k := by
    intro i a k t _ _
    rw [hnone _ fun h hh => by simpa [headers_twoSegments] using List.mem_of_mem_take hh]
    rfl
  exact fun i _ => ⟨hintact _ _ _,hintact _ _ _,hintact _ _ _⟩

theorem ends_twoSegments : ∀ h ∈ headers (twoSegments b), h.Ends := by
  rw [headers_twoSegments]
  simp only [List.mem_cons, List.not_mem_nil, or_false, forall_eq_or_imp, forall_eq]
  refine ⟨.inr (by decide),.inr ?_⟩
  rw [start_secondSegment heven, sectors_secondSegment heven]
  decide

end Sample

/-- In a file that has the segments side by side too, the sector of the second one carries both. -/
theorem segments_loaded_adjacent : Loads (twoSegments 0x10) := by
  refine (segments_loaded_iff bootable_twoSegments).1 ⟨headersIntact_twoSegments rfl,ends_twoSegments rfl,?_⟩
  intro i hi x hx
  have hlast : 0x1000 ≤ x ∧ x < 0x1200 → lastCarried (image (twoSegments 0x10)) x (headers (twoSegments 0x10)) =
      some (image (twoSegments 0x10) (0x1000 + (x - 0x1000))) := fun h => by
    rw [headers_twoSegments]
    exact lastCarried_twoSegments rfl _ h
  rw [length_headers, phnum_twoSegments] at hi
  rw [getElem_headers] at hx ⊢
  rcases (by omega : i = 0 ∨ i = 1) with rfl | rfl
  · rw [header_zero] at hx ⊢
    have hfile : x < firstSegment.paddr + firstSegment.filesz := hx.2
    obtain ⟨h1,h2⟩ : 0x1000 ≤ x ∧ x < 0x1010 := hx
    rw [if_pos hfile, hlast ⟨h1,by omega⟩]
    rfl
  · rw [header_one] at hx ⊢
    have hfile : x < (secondSegment 0x10).paddr + (secondSegment 0x10).filesz := hx.2
    obtain ⟨h1,h2⟩ : 0x1010 ≤ x ∧ x < 0x1020 := hx
    have hoff : 0x1000 + (x - 0x1000) = 0x1010 + (x - 0x1010) := by omega
    rw [if_pos hfile, hlast ⟨by omega,by omega⟩, hoff]
    rfl

/-- The sector of the second segment overwrites the first one with what comes before it in the file. -/
theorem adjacent_segment_overwritten : ¬ Loads (twoSegments 0x12) := by
  intro hloads
  have hright := (bootable_twoSegments.of_loads (headersIntact_twoSegments rfl) hloads).2 0
    (by rw [length_headers, phnum_twoSegments]; decide) 0x1000
  rw [getElem_headers, header_zero, headers_twoSegments, lastCarried_twoSegments rfl _ (by decide)] at hright
  have hbyte := Option.some.inj (hright ⟨by decide,by decide⟩)
  exact absurd hbyte (by decide)

end X86OsDev.Xv6.Boot
