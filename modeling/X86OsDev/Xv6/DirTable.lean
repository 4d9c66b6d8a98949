import X86OsDev.Lib.SlotTable
import X86OsDev.Xv6.Dir
import X86OsDev.Xv6.FsContentLaw

/-! # The table of a directory

The content of a directory read as a table of slots, with names for keys and
inode numbers for values. `strncmp` compares names and `strncpy` keeps them, and
writing an entry over the content changes one slot.
-/
namespace X86OsDev.Xv6.Fs
open Fault SlotTable

/-! ## Names -/

/-- The bytes before the first zero, of the `n` bytes from byte `i` on. -/
def nameFrom (p : ℕ → UInt8) : ℕ → ℕ → List UInt8
  | 0, _ => []
  | n + 1, i => if p i = 0 then [] else p i :: nameFrom p n (i + 1)

/-- The name at a pointer. -/
def nameOf (p : ℕ → UInt8) : List UInt8 := nameFrom p dirsiz 0

theorem strncmpFrom_eq_zero (p q : ℕ → UInt8) (n : ℕ) : ∀ i, strncmpFrom p q n i = 0 ↔ nameFrom p n i = nameFrom q n i := by
  induction n with
  | zero => exact fun _ => Iff.intro (fun _ => rfl) fun _ => rfl
  | succ n ih =>
    intro i
    rw [strncmpFrom, nameFrom, nameFrom]
    by_cases hpq : p i = q i
    · by_cases h0 : p i = 0
      · rw [if_neg fun h => h.1 h0, if_pos h0, if_pos (hpq ▸ h0), hpq]
        simp
      · rw [if_pos ⟨h0,hpq⟩, if_neg h0, if_neg (hpq ▸ h0), ← hpq, ih]
        simp
    · rw [if_neg (fun h => hpq h.2)]
      have hne : ((p i).toNat : ℤ) - (q i).toNat ≠ 0 := by
        intro h
        exact hpq (UInt8.toNat_inj.mp (by omega))
      refine iff_of_false hne ?_
      by_cases hp : p i = 0
      · rw [if_pos hp, if_neg fun hq => hpq (hp.trans hq.symm)]
        simp
      · rw [if_neg hp]
        split
        · simp
        · simp [hpq]

theorem namecmp_eq_zero (p q : ℕ → UInt8) : namecmp p q = 0 ↔ nameOf p = nameOf q := strncmpFrom_eq_zero p q dirsiz 0

theorem nameFrom_shift (p : ℕ → UInt8) (n : ℕ) : ∀ i, nameFrom p n (i + 1) = nameFrom (fun j => p (j + 1)) n i := by
  induction n with
  | zero => exact fun _ => rfl
  | succ n ih =>
    intro i
    rw [nameFrom, nameFrom, ih]

theorem nameFrom_strncpy (t : ℕ → UInt8) (n : ℕ) : ∀ i, nameFrom ((strncpyFrom t n i).getD · 0) n 0 = nameFrom t n i := by
  induction n with
  | zero => exact fun _ => rfl
  | succ n ih =>
    intro i
    rw [strncpyFrom, nameFrom, nameFrom, nameFrom_shift]
    by_cases h : t i = 0
    · simp [h]
    · rw [if_pos h, List.getD_cons_zero, if_neg h, if_neg h]
      exact congrArg (t i :: ·) (ih (i + 1))

/-- What `strncpy` stores has the name it was given. -/
theorem nameOf_strncpy (t : ℕ → UInt8) : nameOf ((strncpy t dirsiz).getD · 0) = nameOf t := nameFrom_strncpy t dirsiz 0

theorem length_strncpyFrom (t : ℕ → UInt8) (n : ℕ) : ∀ i, (strncpyFrom t n i).length = n := by
  induction n with
  | zero => exact fun _ => rfl
  | succ n ih =>
    intro i
    rw [strncpyFrom, List.length_cons]
    split
    · rw [ih]
    · rw [List.length_replicate]

/-! ## Entries -/

/-- The slot that an entry is. -/
def Dirent.slot (de : Dirent) : Option (List UInt8 × ℕ) :=
  if de.inum = 0 then none else some (nameOf (de.name.getD · 0),de.inum)

theorem Dirent.ofBytes_bytes {de : Dirent} (h : de.inum < 2 ^ 16) : Dirent.ofBytes de.bytes = de := by
  have hlow : (UInt8.ofNat de.inum).toNat = de.inum % 256 := by simp
  have hhigh : (UInt8.ofNat (de.inum / 256)).toNat = de.inum / 256 := by
    rw [UInt8.toNat_ofNat', Nat.mod_eq_of_lt (by omega)]
  rw [Dirent.ofBytes, Dirent.bytes, List.getD_cons_zero, List.getD_cons_succ, List.getD_cons_zero, hlow, hhigh, Nat.mod_add_div]
  rfl

/-- The bytes of entry `k`. -/
def entryBytes (c : List UInt8) (k : ℕ) : List UInt8 := (c.drop (k * direntSize)).take direntSize

def direntAt (c : List UInt8) (k : ℕ) : Dirent := .ofBytes (entryBytes c k)

/-- The content of a directory as a table. -/
def table (c : List UInt8) : Table (List UInt8) ℕ := (List.range (c.length / direntSize)).map fun k => (direntAt c k).slot

theorem length_table (c : List UInt8) : (table c).length = c.length / direntSize := by simp [table]

theorem table_getElem? (c : List UInt8) (k : ℕ) :
    (table c)[k]? = if k < c.length / direntSize then some (direntAt c k).slot else none := by
  rw [table, List.getElem?_map]
  split
  · rename_i h
    rw [List.getElem?_range h]
    rfl
  · rename_i h
    rw [List.getElem?_eq_none (by simpa using h)]
    rfl

section Splice
variable {cs bs : List UInt8} {off : ℕ}

theorem length_splice (h : off ≤ cs.length) : (splice cs off bs).length = max cs.length (off + bs.length) := by
  simp only [splice, List.length_append, List.length_take, List.length_drop]
  omega

theorem splice_getElem? (h : off ≤ cs.length) (i : ℕ) :
    (splice cs off bs)[i]? = if off ≤ i ∧ i < off + bs.length then bs[i - off]? else cs[i]? := by
  rw [splice]
  have htake : (cs.take off).length = off := by simp [h]
  by_cases hlow : i < off
  · rw [if_neg (by omega), List.getElem?_append_left (by rw [List.length_append]; omega),
      List.getElem?_append_left (by omega), List.getElem?_take_of_lt hlow]
  · by_cases hmid : i < off + bs.length
    · rw [if_pos ⟨by omega,hmid⟩, List.getElem?_append_left (by rw [List.length_append]; omega),
        List.getElem?_append_right (by omega), htake]
    · rw [if_neg (by omega), List.getElem?_append_right (by rw [List.length_append]; omega), List.length_append, htake,
        List.getElem?_drop]
      congr 1
      omega

variable {k : ℕ} (hlen : bs.length = direntSize) (hk : k ≤ cs.length / direntSize)
include hlen hk

theorem entryBytes_splice (j : ℕ) : entryBytes (splice cs (k * direntSize) bs) j = if j = k then bs else entryBytes cs j := by
  have hoff : k * direntSize ≤ cs.length := by
    calc k * direntSize ≤ cs.length / direntSize * direntSize := Nat.mul_le_mul_right _ hk
      _ ≤ cs.length := Nat.div_mul_le_self _ _
  apply List.ext_getElem?
  intro i
  by_cases hi : i < direntSize
  · rw [entryBytes, List.getElem?_take_of_lt hi, List.getElem?_drop, splice_getElem? hoff]
    by_cases hjk : j = k
    · subst hjk
      rw [if_pos ⟨by omega,by omega⟩, if_pos rfl, Nat.add_sub_cancel_left]
    · have hout : ¬ (k * direntSize ≤ j * direntSize + i ∧ j * direntSize + i < k * direntSize + bs.length) := by
        simp only [direntSize] at *
        omega
      rw [if_neg hout, if_neg hjk, entryBytes, List.getElem?_take_of_lt hi, List.getElem?_drop]
  · have hge {l : List UInt8} (h : l.length ≤ direntSize) : l[i]? = none := List.getElem?_eq_none (by omega)
    have hsmall (cs : List UInt8) : (entryBytes cs j).length ≤ direntSize := by simp [entryBytes]
    rw [hge (hsmall _), hge]
    split
    · exact hlen.le
    · exact hsmall cs

variable (hdvd : direntSize ∣ cs.length)
include hdvd

theorem length_splice_entry : (splice cs (k * direntSize) bs).length / direntSize = max (cs.length / direntSize) (k + 1) ∧
    direntSize ∣ (splice cs (k * direntSize) bs).length := by
  obtain ⟨n,hn⟩ := hdvd
  have hoff : k * direntSize ≤ cs.length := by
    rw [hn] at hk ⊢
    simp only [direntSize] at *
    omega
  rw [length_splice hoff, hlen, hn]
  simp only [direntSize] at *
  omega

/-- Writing an entry changes one slot. -/
theorem table_splice : IsPut (table cs) k (Dirent.ofBytes bs).slot (table (splice cs (k * direntSize) bs)) := by
  intro j
  rw [table_getElem?, table_getElem?, (length_splice_entry hlen hk hdvd).1, direntAt, entryBytes_splice hlen hk]
  by_cases hjk : j = k
  · subst hjk
    rw [if_pos (by omega), if_pos rfl, if_pos rfl]
  · rw [if_neg hjk, if_neg hjk]
    have hiff : j < max (cs.length / direntSize) (k + 1) ↔ j < cs.length / direntSize := by omega
    rw [if_congr hiff rfl rfl]
    rfl

end Splice

end X86OsDev.Xv6.Fs
