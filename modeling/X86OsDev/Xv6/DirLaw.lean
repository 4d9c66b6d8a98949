import X86OsDev.Xv6.DirTable

/-! # The directory functions

On a directory whose entries have distinct names, `dirlookup` finds the slot of a
name, `freeDirent` the first free slot, and `isdirempty` looks at the slots after
the first two. Writing an entry changes one slot and no other inode.
-/
namespace X86OsDev.Xv6.Fs
open Fault SlotTable
variable {sb : Superblock} {me : Fin nproc} {dp : Fin ninode} {s t : Sys}

/-- The table of a directory in the cache. -/
def Sys.dirTable (s : Sys) (dp : Fin ninode) : Table (List UInt8) ℕ := table (content s.disk (s.icache dp).node)

/-- A directory that the process has locked, with a whole number of entries. -/
structure IsDir (sb : Superblock) (me : Fin nproc) (dp : Fin ninode) (s : Sys) : Prop where
  consistent : Consistent sb s.disk
  locked : Locked sb me dp s
  busy : s.busy = []
  type : (s.icache dp).node.type = tDir
  size : direntSize ∣ (s.icache dp).node.size

section Slots
variable {k : ℕ} (hk : k < (s.dirTable dp).length)
include hk

theorem dirTable_getElem? : (s.dirTable dp)[k]? = some (direntAt (content s.disk (s.icache dp).node) k).slot := by
  rw [Sys.dirTable, table_getElem?, if_pos]
  rwa [Sys.dirTable, length_table] at hk

theorem holds_of_slot {key : List UInt8} {i : ℕ} (hslot : (direntAt (content s.disk (s.icache dp).node) k).slot = some (key,i)) :
    Holds (s.dirTable dp) k key i := by
  rw [Holds, dirTable_getElem? hk, hslot]

end Slots

theorem IsDir.size_le (h : IsDir sb me dp s) : (s.icache dp).node.size ≤ maxfile * bsize := by
  have hopen := h.consistent.open h.locked h.busy
  have hle := hopen.volume.size_le hopen.allocated
  rwa [view_self] at hle

/-- The first `m` entries of a directory can be read. -/
structure Entries (dp : Fin ninode) (m : ℕ) (s : Sys) : Prop where
  readable : Readable dp s
  type : (s.icache dp).node.type = tDir
  size : direntSize ∣ (s.icache dp).node.size
  small : (s.icache dp).node.size ≤ maxfile * bsize
  inside : m ≤ (s.dirTable dp).length
  mapped : ∀ k < m, blockOf s.disk (s.icache dp).node (k * direntSize / bsize) ≠ 0

section Reading
variable {m : ℕ} (h : Entries dp m s)
include h

theorem Entries.not_dev : (s.icache dp).node.type ≠ tDev := by
  rw [h.type]
  decide

/-- The loops run while there are entries. -/
theorem Entries.more {k : ℕ} : k * direntSize < (s.icache dp).node.size ↔ k < (s.dirTable dp).length := by
  have hsize := h.size
  rw [Sys.dirTable, length_table, length_content]
  simp only [direntSize] at *
  omega

theorem Entries.size_eq : (s.icache dp).node.size = (s.dirTable dp).length * direntSize := by
  rw [Sys.dirTable, length_table, length_content, Nat.div_mul_cancel h.size]

theorem Entries.length_le : (s.dirTable dp).length ≤ (s.icache dp).node.size := by
  rw [h.size_eq]
  exact Nat.le_mul_of_pos_right _ (by decide)

theorem readDirent_ok (p : Panic) {k : ℕ} (hk : k < m) :
    readDirent sb p me dp (k * direntSize) s = .ok (direntAt (content s.disk (s.icache dp).node) k,s) := by
  have hmore := h.more.mpr (hk.trans_le h.inside)
  have hle := h.small
  have hsize := h.size
  have hmap := h.mapped k hk
  simp only [maxfile, ndirect, nindirect, bsize, direntSize] at hle hmore hsize
  have hread : readi sb me dp (k * direntSize) direntSize s = _ := readi_mapped h.readable me h.not_dev
    (by simp only [direntSize]; omega) (by decide) fun o h1 h2 _ => by
      have hblock : o / bsize = k * direntSize / bsize := by
        simp only [bsize, direntSize] at *
        omega
      rwa [hblock]
  rw [if_neg (by simp only [direntSize]; omega)] at hread
  have hlen : (((content s.disk (s.icache dp).node).drop (k * direntSize)).take direntSize).length = direntSize := by
    simp only [List.length_take, List.length_drop, length_content, direntSize]
    omega
  rw [readDirent, bind_ok hread]
  dsimp only
  rw [if_pos hlen]
  rfl

/-! ## `dirlookup` -/

section Lookup
variable (name : ℕ → UInt8) {n k : ℕ}

theorem dirlookupLoop_end (hk : (s.dirTable dp).length ≤ k) :
    dirlookupLoop sb me dp name n (k * direntSize) s = .ok (none,s) := by
  cases n with
  | zero => rfl
  | succ n =>
    have hmore : ¬ k * direntSize < (s.icache dp).node.size := fun hc => absurd (h.more.mp hc) (not_lt.mpr hk)
    rw [dirlookupLoop, bind_ok get_ok, if_neg hmore]
    rfl

theorem dirlookupLoop_step (hk : k < m) : dirlookupLoop sb me dp name (n + 1) (k * direntSize) s =
    match (direntAt (content s.disk (s.icache dp).node) k).slot with
    | some (key,i) =>
      if nameOf name = key then (iget i >>= fun ip => return some (ip,k * direntSize)) s
      else dirlookupLoop sb me dp name n ((k + 1) * direntSize) s
    | none => dirlookupLoop sb me dp name n ((k + 1) * direntSize) s := by
  rw [dirlookupLoop, bind_ok get_ok, if_pos (h.more.mpr (hk.trans_le h.inside)), bind_ok (readDirent_ok h _ hk), Nat.succ_mul]
  generalize direntAt (content s.disk (s.icache dp).node) k = de
  by_cases h0 : de.inum = 0
  · rw [if_pos h0, Dirent.slot, if_pos h0]
  · rw [if_neg h0, Dirent.slot, if_neg h0]
    simp only [namecmp_eq_zero]
    split <;> rfl

/-- The loop passes the entries with other names. -/
theorem dirlookupLoop_skip {l : ℕ} (hl : l ≤ m) (hno : ∀ j < l, ∀ i, ¬ Holds (s.dirTable dp) j (nameOf name) i) :
    ∀ n k, k ≤ l → dirlookupLoop sb me dp name (n + (l - k)) (k * direntSize) s =
      dirlookupLoop sb me dp name n (l * direntSize) s := by
  intro n k hk
  induction hr : l - k generalizing k with
  | zero =>
    obtain rfl : k = l := by omega
    rfl
  | succ r ih =>
    have hkl : k < l := by omega
    have hkm := hkl.trans_le hl
    have hnext := ih (k + 1) (by omega) (by omega)
    rw [← Nat.add_assoc, dirlookupLoop_step h name hkm]
    split
    · rename_i key i hslot
      have hkey : nameOf name ≠ key := by
        rintro rfl
        exact hno k hkl i (holds_of_slot (hkm.trans_le h.inside) hslot)
      rw [if_neg hkey, hnext]
    · exact hnext

theorem dirlookup_skip {l : ℕ} (hl : l ≤ m) (hno : ∀ j < l, ∀ i, ¬ Holds (s.dirTable dp) j (nameOf name) i) :
    dirlookup sb me dp name s = dirlookupLoop sb me dp name ((s.icache dp).node.size - l) (l * direntSize) s := by
  have hle := hl.trans (h.inside.trans h.length_le)
  have hskip : dirlookupLoop sb me dp name ((s.icache dp).node.size - l + (l - 0)) (0 * direntSize) s = _ :=
    dirlookupLoop_skip h name hl hno _ 0 (Nat.zero_le _)
  rw [Nat.sub_zero, Nat.sub_add_cancel hle, Nat.zero_mul] at hskip
  rw [dirlookup, bind_ok get_ok, if_neg (not_not.mpr h.type), hskip]

theorem Entries.dirlookup_found {j i : ℕ} (hno : ∀ l < j, ∀ i, ¬ Holds (s.dirTable dp) l (nameOf name) i) (hjm : j < m)
    (hj : Holds (s.dirTable dp) j (nameOf name) i) :
    dirlookup sb me dp name s = (iget i >>= fun ip => return some (ip,j * direntSize)) s := by
  have hlen := hjm.trans_le (h.inside.trans h.length_le)
  rw [dirlookup_skip h name hjm.le hno]
  obtain ⟨r,hr⟩ : ∃ r, (s.icache dp).node.size - j = r + 1 := ⟨(s.icache dp).node.size - j - 1,by omega⟩
  rw [Holds, dirTable_getElem? (hjm.trans_le h.inside), Option.some_inj] at hj
  rw [hr, dirlookupLoop_step h name hjm, hj]
  exact if_pos rfl

end Lookup

end Reading

/-! ## Whole directories -/

section Whole
variable (h : IsDir sb me dp s) (L : sb.Layout)
include h

theorem IsDir.more {k : ℕ} : k * direntSize < (s.icache dp).node.size ↔ k < (s.dirTable dp).length := by
  have hsize := h.size
  rw [Sys.dirTable, length_table, length_content]
  simp only [direntSize] at *
  omega

include L

theorem IsDir.entries : Entries dp (s.dirTable dp).length s := by
  have hopen := h.consistent.open h.locked h.busy
  exact ⟨hopen.readable L,h.type,h.size,h.size_le,le_rfl,fun k hk => hopen.mapped (h.more.mpr hk)⟩

theorem dirlookup_absent {name : ℕ → UInt8} (hno : lookup (s.dirTable dp) (nameOf name) = none) :
    dirlookup sb me dp name s = .ok (none,s) := by
  have hall := h.entries L
  rw [dirlookup_skip hall name le_rfl fun j _ i => lookup_eq_none.mp hno j i]
  exact dirlookupLoop_end hall name le_rfl

theorem dirlookup_found {name : ℕ → UInt8} (hd : Distinct (s.dirTable dp)) {j i : ℕ} (hj : Holds (s.dirTable dp) j (nameOf name) i) :
    dirlookup sb me dp name s = (iget i >>= fun ip => return some (ip,j * direntSize)) s :=
  (h.entries L).dirlookup_found name (fun l hl i' hi' => hl.ne (hd l j _ i' i hi' hj)) (List.getElem?_eq_some_iff.mp hj).1 hj

/-! ## Free entries -/

theorem freeDirent_ok {n : ℕ} : ∀ k, k ≤ firstFree (s.dirTable dp) → (s.dirTable dp).length ≤ k + n →
    freeDirent sb me dp n (k * direntSize) s = .ok (firstFree (s.dirTable dp) * direntSize,s) := by
  have hle : firstFree (s.dirTable dp) ≤ (s.dirTable dp).length := List.findIdx_le_length
  induction n with
  | zero =>
    intro k hk hn
    obtain rfl : k = firstFree (s.dirTable dp) := by omega
    rfl
  | succ n ih =>
    intro k hk hn
    by_cases hlt : k < (s.dirTable dp).length
    · rw [freeDirent, bind_ok get_ok, if_pos (h.more.mpr hlt), bind_ok (readDirent_ok (h.entries L) _ hlt)]
      have hslot := dirTable_getElem? hlt
      generalize direntAt (content s.disk (s.icache dp).node) k = de at hslot
      have hfree : de.inum = 0 ↔ k = firstFree (s.dirTable dp) := by
        constructor
        · intro h0
          apply le_antisymm hk
          by_contra hgt
          have hbefore : k < (s.dirTable dp).findIdx Option.isNone := not_le.mp hgt
          have hnot := List.not_of_lt_findIdx hbefore
          rw [List.getElem?_eq_getElem hlt, Option.some_inj, Dirent.slot, if_pos h0] at hslot
          rw [hslot] at hnot
          cases hnot
        · rintro rfl
          by_contra h0
          rw [Dirent.slot, if_neg h0] at hslot
          exact firstFree_free hslot
      by_cases h0 : de.inum = 0
      · rw [if_pos h0, ← hfree.mp h0]
        rfl
      · rw [if_neg h0, ← Nat.succ_mul]
        have hne : k ≠ firstFree (s.dirTable dp) := fun hc => h0 (hfree.mpr hc)
        exact ih (k + 1) (by omega) (by omega)
    · obtain rfl : k = firstFree (s.dirTable dp) := by omega
      have hmore : ¬ firstFree (s.dirTable dp) * direntSize < (s.icache dp).node.size := fun hc => hlt (h.more.mp hc)
      rw [freeDirent, bind_ok get_ok, if_neg hmore]
      rfl

/-! ## `isdirempty` -/

theorem isdiremptyLoop_ok {n : ℕ} : ∀ k, (s.dirTable dp).length ≤ k + n →
    ∃ b, isdiremptyLoop sb me dp n (k * direntSize) s = .ok (b,s) ∧
      (b = true ↔ ∀ j key i, Holds (s.dirTable dp) j key i → j < k) := by
  have hend {k : ℕ} (hk : (s.dirTable dp).length ≤ k) : true = true ↔ ∀ j key i, Holds (s.dirTable dp) j key i → j < k := by
    refine iff_of_true rfl fun j key i hj => ?_
    have hlt : j < (s.dirTable dp).length := List.getElem?_eq_some_iff.mp hj |>.1
    omega
  induction n with
  | zero => exact fun k hk => ⟨true,rfl,hend hk⟩
  | succ n ih =>
    intro k hn
    by_cases hlt : k < (s.dirTable dp).length
    · rw [isdiremptyLoop, bind_ok get_ok, if_pos (h.more.mpr hlt), bind_ok (readDirent_ok (h.entries L) _ hlt)]
      have hslot := dirTable_getElem? hlt
      generalize direntAt (content s.disk (s.icache dp).node) k = de at hslot
      by_cases h0 : de.inum = 0
      · rw [if_neg (not_not.mpr h0), ← Nat.succ_mul]
        obtain ⟨b,hb,hiff⟩ := ih (k + 1) (by omega)
        refine ⟨b,hb,hiff.trans ?_⟩
        constructor
        · intro hall j key i hj
          have hne : j ≠ k := by
            rintro rfl
            rw [Holds, hslot, Dirent.slot, if_pos h0] at hj
            cases hj
          have hlast := hall j key i hj
          omega
        · intro hall j key i hj
          exact Nat.lt_succ_of_lt (hall j key i hj)
      · rw [if_pos h0]
        refine ⟨false,rfl,iff_of_false (by decide) fun hall => ?_⟩
        rw [Dirent.slot, if_neg h0] at hslot
        exact absurd (hall k _ _ hslot) (lt_irrefl k)
    · have hmore : ¬ k * direntSize < (s.icache dp).node.size := fun hc => hlt (h.more.mp hc)
      rw [isdiremptyLoop, bind_ok get_ok, if_neg hmore]
      exact ⟨true,rfl,hend (not_lt.mp hlt)⟩

end Whole

end X86OsDev.Xv6.Fs
