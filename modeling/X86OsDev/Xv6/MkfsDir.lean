import X86OsDev.Xv6.DirLink
import X86OsDev.Xv6.MkfsSound

/-! # The root directory of an image

The entries that `mkfs` writes, read as a table: the two names of the root, the
names of the files with the inodes from 2 on, and free slots up to the end of the
last block.
-/
namespace X86OsDev.Xv6.Mkfs
open Fault Fs SlotTable

/-! ## Tables of concatenations -/

theorem table_append {c d : List UInt8} (hc : direntSize ∣ c.length) : table (c ++ d) = table c ++ table d := by
  obtain ⟨n,hn⟩ := hc
  have hlen : c.length / direntSize = n := by
    rw [hn]
    exact Nat.mul_div_cancel_left n (by decide)
  have hbytes (k : ℕ) : entryBytes (c ++ d) k = if k < n then entryBytes c k else entryBytes d (k - n) := by
    apply List.ext_getElem?
    intro i
    by_cases hi : i < direntSize
    · rw [entryBytes, List.getElem?_take_of_lt hi, List.getElem?_drop]
      by_cases hk : k < n
      · rw [if_pos hk, entryBytes, List.getElem?_take_of_lt hi, List.getElem?_drop, List.getElem?_append_left]
        rw [hn]
        simp only [direntSize] at *
        omega
      · rw [if_neg hk, entryBytes, List.getElem?_take_of_lt hi, List.getElem?_drop, List.getElem?_append_right]
        · congr 1
          rw [hn]
          simp only [direntSize] at *
          omega
        · rw [hn]
          simp only [direntSize] at *
          omega
    · have hge {l : List UInt8} (h : l.length ≤ direntSize) : l[i]? = none := List.getElem?_eq_none (by omega)
      have hsmall (c : List UInt8) (k : ℕ) : (entryBytes c k).length ≤ direntSize := by simp [entryBytes]
      rw [hge (hsmall _ _), hge]
      split
      · exact hsmall _ _
      · exact hsmall _ _
  apply List.ext_getElem?
  intro k
  have htotal : (c ++ d).length / direntSize = n + d.length / direntSize := by
    rw [List.length_append, hn]
    exact Nat.mul_add_div (by decide) _ _
  rw [table_getElem?, htotal, direntAt, hbytes]
  by_cases hk : k < n
  · rw [if_pos (hk.trans_le (Nat.le_add_right _ _)), if_pos hk, List.getElem?_append_left (by rw [length_table, hlen]; exact hk), table_getElem?, hlen,
      if_pos hk]
    rfl
  · rw [if_neg hk, List.getElem?_append_right (by rw [length_table, hlen]; omega), length_table, hlen, table_getElem?]
    have hiff : k < n + d.length / direntSize ↔ k - n < d.length / direntSize := by omega
    rw [if_congr hiff rfl rfl]
    rfl

theorem table_zero (n : ℕ) : table (List.replicate n 0) = List.replicate (n / direntSize) none := by
  apply List.ext_getElem?
  intro k
  have hslot : (direntAt (List.replicate n 0) k).slot = none := by
    have h0 (j : ℕ) : (entryBytes (List.replicate n 0) k).getD j 0 = 0 := by
      simp only [entryBytes, List.drop_replicate, List.take_replicate, List.getD_eq_getElem?_getD, List.getElem?_replicate]
      split <;> rfl
    rw [Dirent.slot, if_pos]
    rw [direntAt, Dirent.ofBytes]
    dsimp only
    rw [h0, h0]
    rfl
  rw [table_getElem?, List.length_replicate, hslot, List.getElem?_replicate]

/-! ## Names -/

theorem nameFrom_getD (l : List UInt8) (h0 : 0 ∉ l) : ∀ n, nameFrom (l.getD · 0) n 0 = l.take n := by
  induction l with
  | nil =>
    intro n
    cases n with
    | zero => rfl
    | succ n => rfl
  | cons x l ih =>
    intro n
    cases n with
    | zero => rfl
    | succ n =>
      have hx : x ≠ 0 := fun hx => h0 (by simp [hx])
      have hl : 0 ∉ l := fun hl => h0 (by simp [hl])
      rw [nameFrom, List.getD_cons_zero, if_neg hx, nameFrom_shift, List.take_succ_cons]
      exact congrArg (x :: ·) (ih hl n)

/-- A name as a directory stores it. -/
theorem nameOf_getD {name : List UInt8} (h0 : 0 ∉ name) : nameOf (name.getD · 0) = name.take dirsiz := nameFrom_getD name h0 dirsiz

theorem getD_padded (name : List UInt8) (n i : ℕ) : (name ++ List.replicate n 0).getD i 0 = name.getD i 0 := by
  by_cases hi : i < name.length
  · rw [List.getD_append _ _ _ _ hi]
  · rw [List.getD_append_right _ _ _ _ (not_lt.mp hi), List.getD_eq_default name _ (not_lt.mp hi),
      List.getD_eq_getElem?_getD, List.getElem?_replicate]
    split <;> rfl

theorem table_dirent {k : ℕ} {name : List UInt8} (hk : k ≠ 0) (hlt : k < 2 ^ 16) (h0 : 0 ∉ name) :
    table (dirent k name) = [some (name.take dirsiz,k)] := by
  have hbytes : entryBytes (dirent k name) 0 = dirent k name := by
    rw [entryBytes, Nat.zero_mul, List.drop_zero, List.take_of_length_le]
    rw [dirent_length]
    rfl
  have hde : direntAt (dirent k name) 0 = ⟨k,name.take dirsiz ++ List.replicate (dirsiz - name.length) 0⟩ := by
    rw [direntAt, hbytes]
    exact @Dirent.ofBytes_bytes ⟨k,_⟩ hlt
  have hname : nameOf ((name.take dirsiz ++ List.replicate (dirsiz - name.length) 0).getD · 0) = name.take dirsiz := by
    simp only [getD_padded]
    rw [nameOf_getD fun hc => h0 (List.mem_of_mem_take hc), List.take_take, Nat.min_self]
  have hlen : (dirent k name).length / direntSize = 1 := by
    rw [dirent_length]
    rfl
  rw [table, hlen]
  change [(direntAt (dirent k name) 0).slot] = _
  rw [hde, Dirent.slot, if_neg hk, hname]

/-! ## The contents of the inodes -/

/-- The slots of the files, with the inodes from `k` on. -/
def fileSlots : ℕ → List HostFile → Table (List UInt8) ℕ
  | _, [] => []
  | k, file :: files => some ((baseName file.name).take dirsiz,k) :: fileSlots (k + 1) files

theorem length_fileSlots (files : List HostFile) : ∀ k, (fileSlots k files).length = files.length := by
  induction files with
  | nil => exact fun _ => rfl
  | cons file files ih =>
    intro k
    rw [fileSlots, List.length_cons, List.length_cons, ih]

theorem baseName_mem {name : List UInt8} {x : UInt8} (h : x ∈ baseName name) : x ∈ name := by
  unfold baseName at h
  split at h
  · exact List.mem_of_mem_tail h
  · exact h

theorem withFiles_table (files : List HostFile) (h0 : ∀ file ∈ files, 0 ∉ file.name) : ∀ (bytes : ℕ → List UInt8) (k : ℕ),
    rootino < k → k + files.length ≤ 2 ^ 16 → direntSize ∣ (bytes rootino).length →
    table (withFiles bytes k files rootino) = table (bytes rootino) ++ fileSlots k files := by
  induction files with
  | nil =>
    intro bytes k _ _ _
    rw [fileSlots, List.append_nil]
    rfl
  | cons file files ih =>
    intro bytes k hk hlt hdvd
    rw [List.length_cons] at hlt
    have hroot : withFile bytes k file rootino = bytes rootino ++ dirent k (baseName file.name) := by
      unfold withFile
      rw [Function.update_of_ne hk.ne, Function.update_self]
    have hdvd' : direntSize ∣ (withFile bytes k file rootino).length := by
      rw [hroot, List.length_append, dirent_length]
      exact (Nat.dvd_add_iff_left (by decide)).mp hdvd
    have hname : 0 ∉ baseName file.name := fun hc => h0 file List.mem_cons_self (baseName_mem hc)
    rw [withFiles, ih (fun f hf => h0 f (List.mem_cons_of_mem _ hf)) _ _ (by omega) (by omega) hdvd', hroot, table_append hdvd,
      table_dirent (by omega) (by omega) hname, fileSlots, List.append_assoc]
    rfl

/-- The entries of the root directory. -/
def rootSlots (files : List HostFile) : Table (List UInt8) ℕ :=
  [some ([dot],rootino), some ([dot, dot],rootino)] ++ fileSlots 2 files

/-- The names in the root directory. -/
def rootNames (files : List HostFile) : List (List UInt8) :=
  [dot] :: [dot, dot] :: files.map fun file => (baseName file.name).take dirsiz

theorem fileSlots_keys (files : List HostFile) : ∀ k, (fileSlots k files).filterMap (Option.map Prod.fst) =
    files.map fun file => (baseName file.name).take dirsiz := by
  induction files with
  | nil => exact fun _ => rfl
  | cons file files ih =>
    intro k
    rw [fileSlots, List.filterMap_cons, ih]
    rfl

theorem rootSlots_keys (files : List HostFile) (k : ℕ) :
    (rootSlots files ++ List.replicate k none).filterMap (Option.map Prod.fst) = rootNames files := by
  have hnone : (List.replicate k (none : Option (List UInt8 × ℕ))).filterMap (Option.map Prod.fst) = [] := by
    simp
  rw [rootSlots, List.append_assoc, List.filterMap_append, List.filterMap_append, hnone, List.append_nil, fileSlots_keys]
  rfl

theorem rootSlots_distinct {files : List HostFile} (h : (rootNames files).Nodup) (k : ℕ) :
    Distinct (rootSlots files ++ List.replicate k none) := by
  apply distinct_of_nodup
  rwa [rootSlots_keys]

theorem rootNames_of_holds {files : List HostFile} {k j i : ℕ} {key : List UInt8}
    (h : Holds (rootSlots files ++ List.replicate k none) j key i) : key ∈ rootNames files := by
  rw [← rootSlots_keys files k]
  exact List.mem_filterMap.mpr ⟨_,List.mem_of_getElem? h,rfl⟩

theorem contents_table {files : List HostFile} (h0 : ∀ file ∈ files, 0 ∉ file.name) (hle : files.length + 2 ≤ 2 ^ 16) :
    table (contents files rootino) = rootSlots files := by
  have hdots : direntSize ∣ (dirent rootino [dot]).length := by
    rw [dirent_length]
    decide
  unfold contents
  rw [withFiles_table files h0 _ 2 (by decide) (by omega), Function.update_self, table_append hdots,
    table_dirent (by decide) (by decide) (by decide), table_dirent (by decide) (by decide) (by decide)]
  · rfl
  · rw [Function.update_self, List.length_append, dirent_length, dirent_length]
    decide

theorem withFiles_other (files : List HostFile) : ∀ (bytes : ℕ → List UInt8) (k i : ℕ), rootino < k → i ≠ rootino → i < k →
    withFiles bytes k files i = bytes i := by
  induction files with
  | nil => exact fun _ _ _ _ _ _ => rfl
  | cons file files ih =>
    intro bytes k i hk hi hik
    rw [withFiles, ih _ _ _ (by omega) hi (by omega), withFile, Function.update_of_ne hik.ne, Function.update_of_ne hi]

theorem withFiles_file (files : List HostFile) : ∀ (bytes : ℕ → List UInt8) (k j : ℕ) (hj : j < files.length), rootino < k →
    withFiles bytes k files (k + j) = files[j].data.getD [] := by
  induction files with
  | nil => exact fun _ _ j hj => absurd hj (Nat.not_lt_zero _)
  | cons file files ih =>
    intro bytes k j hj hk
    cases j with
    | zero =>
      rw [Nat.add_zero, withFiles, withFiles_other _ _ _ _ (by omega) (by omega) (by omega), withFile, Function.update_self,
        List.getElem_cons_zero]
    | succ j =>
      rw [withFiles, show k + (j + 1) = k + 1 + j by omega, ih _ _ j (Nat.lt_of_succ_lt_succ hj) (by omega),
        List.getElem_cons_succ]

/-! ## The final image -/

section Image
variable {files : List HostFile} {m img : Img} (h : Final files m img)
include h

theorem Final.used_root : img.Used rootino := by
  refine ⟨le_rfl,?_⟩
  rw [h.freeinode, h.count]
  simp only [rootino]
  omega

theorem Final.byteAt_eq {i o : ℕ} (hi : img.Used i) (ho : blockOf img.sect (sb.dinode img.sect i) (o / bsize) ≠ 0) :
    byteAt img.sect (sb.dinode img.sect i) o = byteAt m.disk (sb.dinode m.disk i) o := by
  have hslot : blockOf img.sect (sb.dinode img.sect i) (o / bsize) = blockOf m.disk (sb.dinode m.disk i) (o / bsize) := h.slot hi _
  rw [hslot] at ho
  have hmem := h.built.consistent.slot_mem (h.used hi) ho
  unfold byteAt
  rw [hslot]
  exact congrArg (Block.mem · _) (h.data ((bmapstart_lt sb_layout).le.trans hmem.1))

/-- The bytes of the root directory in the blocks that it has. -/
theorem Final.byteAt_root {o : ℕ} (ho : 32 * (o / bsize) < files.length + 2) :
    byteAt img.sect (sb.dinode img.sect rootino) o = (contents files rootino).getD o 0 := by
  have hused := h.used_root
  have hroot := h.built.allocated.mp (h.used hused)
  have hblock := (h.root_block (o / bsize)).mpr ho
  rw [h.byteAt_eq hused hblock]
  by_cases hlt : o < (contents files rootino).length
  · have hcont := h.built.content rootino hroot.1 hroot.2
    rw [← hcont] at hlt ⊢
    rw [List.getD_eq_getElem _ _ hlt]
    simp [Fs.content]
  · rw [List.getD_eq_default _ _ (not_lt.mp hlt)]
    refine (h.built.tail rootino hroot.1 hroot.2).pad o (not_lt.mp hlt) ?_
    have hslot : blockOf img.sect (sb.dinode img.sect rootino) (o / bsize) = blockOf m.disk (sb.dinode m.disk rootino) (o / bsize) :=
      h.slot hused _
    rwa [← hslot]

theorem Final.content_root (hn : ¬ 32 ∣ files.length + 2) : content img.sect (sb.dinode img.sect rootino) =
    contents files rootino ++ List.replicate (((files.length + 2) / 32 + 1) * bsize - (contents files rootino).length) 0 := by
  have hlen := contents_root files
  have hsize : (sb.dinode img.sect rootino).size = ((files.length + 2) / 32 + 1) * bsize := by
    rw [h.root, h.rounded_size]
  apply List.ext_getElem
  · rw [length_content, hsize, List.length_append, List.length_replicate, hlen]
    simp only [bsize]
    omega
  · intro o h1 h2
    rw [length_content, hsize] at h1
    have hbyte := h.byteAt_root (o := o) (by simp only [bsize] at *; omega)
    rw [← getD_padded _ (((files.length + 2) / 32 + 1) * bsize - (contents files rootino).length), List.getD_eq_getElem _ _ h2] at hbyte
    rw [← hbyte]
    simp [Fs.content]

theorem Final.table_root (h0 : ∀ file ∈ files, 0 ∉ file.name) (hn : ¬ 32 ∣ files.length + 2) :
    ∃ k, table (content img.sect (sb.dinode img.sect rootino)) = rootSlots files ++ List.replicate k none := by
  have hle : files.length + 2 ≤ 2 ^ 16 := h.files_le.trans (by decide)
  have hdvd : direntSize ∣ (contents files rootino).length := by
    rw [contents_root]
    exact Dvd.intro _ rfl
  rw [h.content_root hn, table_append hdvd, contents_table h0 hle, table_zero]
  exact ⟨_,rfl⟩

/-- The inode of a file has its bytes. -/
theorem Final.file {j : ℕ} (hj : j < files.length) : img.Used (j + 2) ∧ (sb.dinode img.sect (j + 2)).type = tFile ∧
    content img.sect (sb.dinode img.sect (j + 2)) = files[j].data.getD [] := by
  have hused : img.Used (j + 2) := ⟨by omega,by rw [h.freeinode, h.count]; omega⟩
  have hroot := h.built.allocated.mp (h.used hused)
  have hne : j + 2 ≠ rootino := by
    simp only [rootino]
    omega
  refine ⟨hused,?_,?_⟩
  · rw [h.dinode_of_ne hne, h.built.kind _ (h.used hused).1, if_pos hroot, if_neg hne]
  · have hcont := h.built.content _ hroot.1 hroot.2
    have hdata : contents files (j + 2) = files[j].data.getD [] := by
      rw [contents, Nat.add_comm, withFiles_file files _ 2 j hj (by decide)]
    rw [← hdata, ← hcont]
    unfold Fs.content
    rw [h.dinode_of_ne hne]
    refine List.map_congr_left fun o ho => ?_
    have hmapped := h.built.consistent.mapped _ (h.used hused) (o / bsize) (by
      have hdiv := Nat.div_mul_le_self o bsize
      have hlt := List.mem_range.mp ho
      omega)
    have hslot : blockOf img.sect (sb.dinode img.sect (j + 2)) (o / bsize) = blockOf m.disk (sb.dinode m.disk (j + 2)) (o / bsize) :=
      h.slot hused _
    have hbyte := h.byteAt_eq hused (o := o) (by rwa [hslot])
    rwa [h.dinode_of_ne hne] at hbyte

end Image

end X86OsDev.Xv6.Mkfs
