import X86OsDev.Xv6.MkfsDir

/-! # Directories as finite maps

A directory whose entries have distinct names stands for a map from names to
inode numbers, and the directory functions are the operations of that map. But
`dirlink` does not come back when the name is that of an inode which its caller
has locked, such as `.`, the directory itself.
-/
namespace X86OsDev.Xv6.Fs
open Fault SlotTable

/-- `dirlookup` has found the inode: its entry in the cache has one reference more. -/
def Found (s : Sys) (i off : ℕ) : Option (Fin ninode × ℕ) → Sys → Prop := fun r t =>
  ∃ ip, s.entryFor i = some ip ∧ r = some (ip,off) ∧ t = s.got i ip ∧ (t.icache ip).inum = i

/-- There is no entry in the cache for the inode. -/
def CacheFull (s : Sys) (i : ℕ) (e : Stop) : Prop := e = .panic .iget ∧ s.entryFor i = none

/-- Another process has locked the inode. -/
def Waits (me : Fin nproc) (s : Sys) (i : ℕ) (e : Stop) : Prop :=
  e = .asleep ∧ ∃ ip p, s.entryFor i = some ip ∧ (s.icache ip).lock = some p ∧ p ≠ me

/-- The directory functions are the operations of a finite map. -/
structure ActsAsMap (sb : Superblock) (me : Fin nproc) (dp : Fin ninode) (s : Sys) (name : ℕ → UInt8) (inum : ℕ) : Prop where
  absent : lookup (s.dirTable dp) (nameOf name) = none → dirlookup sb me dp name s = .ok (none,s)
  found : ∀ i, lookup (s.dirTable dp) (nameOf name) = some i →
    ∃ k, Holds (s.dirTable dp) k (nameOf name) i ∧
      Ends (dirlookup sb me dp name) s (CacheFull s i) (Found s i (k * direntSize))
  refused : ∀ i, lookup (s.dirTable dp) (nameOf name) = some i →
    Ends (dirlink sb me dp name inum) s (fun e => CacheFull s i e ∨ Waits me s i e) fun r t => r = -1 ∧ Unchanged s t
  linked : lookup (s.dirTable dp) (nameOf name) = none →
    firstFree (s.dirTable dp) < (s.dirTable dp).length ∨ (s.icache dp).node.size < maxfile * bsize →
    Ends (dirlink sb me dp name inum) s (NoSpace s dp (firstFree (s.dirTable dp) * direntSize)) fun r t =>
      r = 0 ∧ Rewrote sb me dp (firstFree (s.dirTable dp)) (some (nameOf name,inum)) s t ∧ Distinct (t.dirTable dp) ∧
        lookup (t.dirTable dp) = Function.update (lookup (s.dirTable dp)) (nameOf name) (some inum)
  unlinked : ∀ k i, Holds (s.dirTable dp) k (nameOf name) i →
    Ends (clearDirent sb me dp (k * direntSize)) s (fun e => e = .panic .tooBig ∧ FullWithin s.log 7) fun _ t =>
      Rewrote sb me dp k none s t ∧ Distinct (t.dirTable dp) ∧
        lookup (t.dirTable dp) = Function.update (lookup (s.dirTable dp)) (nameOf name) none
  empty : ∃ b, isdirempty sb me dp s = .ok (b,s) ∧
    (b = true ↔ ∀ key i, lookup (s.dirTable dp) key = some i → ∃ k < 2, Holds (s.dirTable dp) k key i)

section Operations
variable {sb : Superblock} {me : Fin nproc} {dp : Fin ninode} {s : Sys} (h : IsDir sb me dp s) (hd : Distinct (s.dirTable dp))
  (L : sb.Layout) {name : ℕ → UInt8} {inum i k : ℕ}
include h hd L

theorem dirlookup_ends (hk : Holds (s.dirTable dp) k (nameOf name) i) :
    Ends (dirlookup sb me dp name) s (CacheFull s i) (Found s i (k * direntSize)) := by
  have heq := dirlookup_found h L hd hk
  cases he : s.entryFor i with
  | none => exact (ends_of_error (heq.trans (bind_error (iget_full he)))).mpr ⟨rfl,he⟩
  | some ip =>
    have hrun : dirlookup sb me dp name s = .ok (some (ip,k * direntSize),s.got i ip) := heq.trans (bind_ok (iget_ok he))
    exact (ends_of_ok hrun).mpr ⟨ip,he,rfl,rfl,entryFor_inum he⟩

/-- `dirlink` of a name that is there: it stops where its caller has locked the inode. -/
theorem dirlink_present (inum : ℕ) (hk : Holds (s.dirTable dp) k (nameOf name) i) :
    (∀ ip, s.entryFor i = some ip → (s.icache ip).lock ≠ none → dirlink sb me dp name inum s = .error .asleep) ∧
    ((∀ ip, s.entryFor i = some ip → (s.icache ip).lock = none) →
      Ends (dirlink sb me dp name inum) s (CacheFull s i) fun r t => r = -1 ∧ Unchanged s t) := by
  have heq := dirlookup_found h L hd hk
  have hrun {ip : Fin ninode} (he : s.entryFor i = some ip) :
      dirlookup sb me dp name s = .ok (some (ip,k * direntSize),s.got i ip) := heq.trans (bind_ok (iget_ok he))
  constructor
  · intro ip he hlock
    have hgot : ((s.got i ip).icache ip).lock ≠ none := by
      rw [Sys.got, Sys.withInode_icache, Inode.got]
      split
      · exact hlock
      · exact hlock
    rw [dirlink, bind_ok (hrun he)]
    exact bind_error (iput_asleep hgot)
  · intro hfree
    cases he : s.entryFor i with
    | none =>
      refine (ends_of_error (e := .panic .iget) ?_).mpr ⟨rfl,he⟩
      rw [dirlink]
      exact bind_error (heq.trans (bind_error (iget_full he)))
    | some ip =>
      have hback : ∃ t, iput sb me ip (s.got i ip) = .ok ((),t) ∧ Unchanged s t := iput_got he (hfree ip he)
      obtain ⟨t,hput,ht⟩ := hback
      have hlink : dirlink sb me dp name inum s = .ok (-1,t) := by
        rw [dirlink, bind_ok (hrun he)]
        exact bind_ok hput
      exact (ends_of_ok hlink).mpr ⟨rfl,ht⟩

theorem dirlink_ends (ho : 1 ≤ s.log.outstanding) (h1 : 1 ≤ inum) (h2 : inum < 2 ^ 16)
    (hno : lookup (s.dirTable dp) (nameOf name) = none)
    (hroom : firstFree (s.dirTable dp) < (s.dirTable dp).length ∨ (s.icache dp).node.size < maxfile * bsize) :
    Ends (dirlink sb me dp name inum) s (NoSpace s dp (firstFree (s.dirTable dp) * direntSize)) fun r t =>
      r = 0 ∧ Rewrote sb me dp (firstFree (s.dirTable dp)) (some (nameOf name,inum)) s t ∧ Distinct (t.dirTable dp) ∧
        lookup (t.dirTable dp) = Function.update (lookup (s.dirTable dp)) (nameOf name) (some inum) := by
  have hle : firstFree (s.dirTable dp) ≤ (s.dirTable dp).length := List.findIdx_le_length
  have hfind : freeDirent sb me dp (s.icache dp).node.size 0 s = .ok (firstFree (s.dirTable dp) * direntSize,s) := by
    have hscan := freeDirent_ok h L (n := (s.icache dp).node.size) 0 (Nat.zero_le _) (by rw [Nat.zero_add]; exact (h.entries L).length_le)
    rwa [Nat.zero_mul] at hscan
  have hslot : (Dirent.ofBytes (Dirent.bytes ⟨inum,strncpy name dirsiz⟩)).slot = some (nameOf name,inum) := by
    rw [Dirent.ofBytes_bytes h2, Dirent.slot, if_neg (by dsimp only; omega), nameOf_strncpy]
  have hlen : (Dirent.bytes ⟨inum,strncpy name dirsiz⟩).length = direntSize := by
    rw [Dirent.bytes, List.length_cons, List.length_cons]
    dsimp only
    rw [strncpy, length_strncpyFrom]
    rfl
  have hmax : firstFree (s.dirTable dp) * direntSize < maxfile * bsize := by
    have hsize := (h.entries L).size_eq
    have hsize_le := h.size_le
    simp only [maxfile, ndirect, nindirect, bsize, direntSize] at *
    omega
  have hwrite := writeDirent_ends h L ho hlen .dirlink hle hmax
  rw [hslot] at hwrite
  rw [dirlink]
  refine .seq_ok (dirlookup_absent h L hno) (.seq_ok get_ok (.seq_ok hfind (.seq hwrite ?_)))
  rintro _ t hw
  exact ⟨rfl,hw,hd.add hno hw.put,hd.lookup_add hno hw.put fun _ _ => firstFree_free⟩

theorem clearDirent_ends (ho : 1 ≤ s.log.outstanding) (hk : Holds (s.dirTable dp) k (nameOf name) i) :
    Ends (clearDirent sb me dp (k * direntSize)) s (fun e => e = .panic .tooBig ∧ FullWithin s.log 7) fun _ t =>
      Rewrote sb me dp k none s t ∧ Distinct (t.dirTable dp) ∧
        lookup (t.dirTable dp) = Function.update (lookup (s.dirTable dp)) (nameOf name) none := by
  have hlt : k < (s.dirTable dp).length := List.getElem?_eq_some_iff.mp hk |>.1
  have hmore := h.more.mpr hlt
  have hlen : (List.replicate direntSize (0 : UInt8)).length = direntSize := List.length_replicate ..
  have hwrite := writeDirent_ends h L ho hlen .unlinkWritei hlt.le (hmore.trans_le h.size_le)
  refine hwrite.mono ?_ ?_
  · intro _ t hw
    have hput : IsPut (s.dirTable dp) k none (t.dirTable dp) := hw.put
    exact ⟨hw,hd.remove hput,hd.lookup_remove hput hk⟩
  · rintro e (⟨_,hend⟩ | hfull)
    · omega
    · exact hfull

theorem isdirempty_ok : ∃ b, isdirempty sb me dp s = .ok (b,s) ∧
    (b = true ↔ ∀ key i, lookup (s.dirTable dp) key = some i → ∃ k < 2, Holds (s.dirTable dp) k key i) := by
  obtain ⟨b,hb,hiff⟩ := isdiremptyLoop_ok h L (n := (s.icache dp).node.size) 2 ((h.entries L).length_le.trans (Nat.le_add_left _ _))
  refine ⟨b,?_,hiff.trans ?_⟩
  · rw [isdirempty, bind_ok get_ok]
    exact hb
  · constructor
    · intro hall key i hi
      obtain ⟨k,hk⟩ := holds_of_lookup hi
      exact ⟨k,hall k key i hk,hk⟩
    · intro hall j key i hj
      obtain ⟨k,hk,hk'⟩ := hall key i (hd.lookup_eq_some.mpr ⟨j,hj⟩)
      rwa [hd j k key i i hj hk']

end Operations

/-! ## The root directory of an image without files -/

section Root
open Mkfs

/-- Process 0 has locked the root directory of an image inside its first transaction. -/
def rootSys (img : Img) : Sys where
  disk := img.sect
  busy := []
  log := ⟨[],1,false,30⟩
  icache ip := if ip.val = 0 then ⟨rootino,1,some 0,true,Mkfs.sb.dinode img.sect rootino⟩
    else ⟨0,0,none,false,Block.freshDinode 0⟩
  file _ := ⟨.none,0,false,false,0,0⟩
  proc _ := ⟨none,fun _ => none⟩
  console _ := none

variable {files : List HostFile} {m img : Img} (h : Final files m img)
include h

theorem rootSys_isDir (hn : ¬ 32 ∣ files.length + 2) : IsDir Mkfs.sb 0 0 (rootSys img) := by
  have hall := h.used h.used_root
  have hkind := h.built.kind rootino hall.1
  rw [if_pos (h.built.allocated.mp hall), if_pos rfl] at hkind
  have htype : (Mkfs.sb.dinode img.sect rootino).type = tDir := by
    rw [h.root]
    exact hkind
  have hsize : (Mkfs.sb.dinode img.sect rootino).size = ((files.length + 2) / 32 + 1) * bsize := by
    rw [h.root, h.rounded_size]
  refine ⟨h.consistent hn,⟨rfl,Nat.one_pos,rfl,show rootino < Mkfs.sb.ninodes by decide,?_,rfl⟩,rfl,htype,?_⟩
  · change (Mkfs.sb.dinode img.sect rootino).type ≠ 0
    rw [htype]
    decide
  · change direntSize ∣ (Mkfs.sb.dinode img.sect rootino).size
    rw [hsize]
    exact Dvd.dvd.mul_left (by decide) _

end Root

/-- The name of the directory itself. -/
def dotName : ℕ → UInt8 := ([Mkfs.dot].getD · 0)

/-- The name `a`. -/
def aName : ℕ → UInt8 := ([97].getD · 0)

theorem noFiles_made : ∃ img m, Mkfs.Makes [] img ∧ Mkfs.Final [] m img := by
  have hmade : ∃ img, Mkfs.Makes [] img :=
    Mkfs.makes_of_fits (by decide) (Mkfs.not_refused (by decide) (by decide +kernel) (by decide +kernel))
  obtain ⟨img,h⟩ := hmade
  obtain ⟨m,hfinal⟩ := h.final (by decide)
  exact ⟨img,m,h,hfinal⟩

theorem noFiles_table {m img : Mkfs.Img} (h : Mkfs.Final [] m img) : Distinct ((rootSys img).dirTable 0) ∧
    lookup ((rootSys img).dirTable 0) [Mkfs.dot] = some rootino ∧ lookup ((rootSys img).dirTable 0) [97] = none := by
  obtain ⟨k,hk⟩ := h.table_root (by decide) (by decide)
  have htable : (rootSys img).dirTable 0 = Mkfs.rootSlots [] ++ List.replicate k none := hk
  have hnone (key : List UInt8) : lookup (List.replicate k (none : Option (List UInt8 × ℕ))) key = none := by
    rw [lookup, List.findSome?_eq_none_iff]
    intro e he
    rw [List.eq_of_mem_replicate he]
    rfl
  rw [htable]
  refine ⟨Mkfs.rootSlots_distinct (by decide) k,rfl,?_⟩
  rw [lookup, List.findSome?_append]
  exact hnone [97]

end X86OsDev.Xv6.Fs
