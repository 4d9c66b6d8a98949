import X86OsDev.Xv6.MkfsBuild

/-! # The image that `mkfs` leaves

The program ends with status 0 exactly if the files are there and fit, as long
as there are inodes for them. What goes wrong then is the size of the root
directory, which is rounded up whether or not its last block is full.
-/
namespace X86OsDev.Xv6.Mkfs
open Fault Memory Fs Counting

/-! ## What the files need -/

/-- The blocks in use once the inodes below `k` have these contents. -/
def total (bytes : ℕ → List UInt8) (k : ℕ) : ℕ := nmeta + ∑ i ∈ Finset.range k, need (bytes i).length

/-- The contents do not fit on the disk, or one does not fit in an inode. -/
def Overflow (bytes : ℕ → List UInt8) (k : ℕ) : Prop :=
  fssize < total bytes k ∨ ∃ i < k, maxfile * bsize < (bytes i).length

theorem Overflow.mono {b b' : ℕ → List UInt8} {k k' : ℕ} (h : Overflow b k) (hb : ∀ i < k, (b i).length ≤ (b' i).length)
    (hk : k ≤ k') : Overflow b' k' := by
  rcases h with h | ⟨i,hi,h⟩
  · refine .inl (h.trans_le (Nat.add_le_add_left ?_ _))
    calc ∑ i ∈ Finset.range k, need (b i).length
        ≤ ∑ i ∈ Finset.range k, need (b' i).length :=
          Finset.sum_le_sum fun i hi => need_mono (hb i (Finset.mem_range.mp hi))
      _ ≤ ∑ i ∈ Finset.range k', need (b' i).length :=
          Finset.sum_le_sum_of_subset (Finset.range_subset_range.mpr hk)
  · exact .inr ⟨i,hi.trans_le hk,h.trans_le (hb i hi)⟩

section Append
variable {m : Img} {bytes : ℕ → List UInt8} {i : ℕ} {data : List UInt8}

theorem overflow_of_tooMuch (h : Built m bytes) (h2 : i < m.freeinode) (ht : TooMuch m (bytes i).length data.length) :
    Overflow (Function.update bytes i (bytes i ++ data)) m.freeinode := by
  rcases ht with ht | ht
  · have hsum := sum_change (f := fun j => need (bytes j).length)
      (g := fun j => need (Function.update bytes i (bytes i ++ data) j).length) (Finset.mem_range.mpr h2)
      fun j _ hji => by rw [Function.update_of_ne hji]
    rw [Function.update_self, List.length_append] at hsum
    have := h.count
    refine .inl ?_
    unfold total
    omega
  · refine .inr ⟨i,h2,?_⟩
    rwa [Function.update_self, List.length_append]

theorem iappend_fits (h : Built m bytes) (h1 : 1 ≤ i) (h2 : i < m.freeinode) (hne : 0 < data.length) :
    Ends (iappend i data) m (fun _ => Overflow (Function.update bytes i (bytes i ++ data)) m.freeinode) fun _ m' =>
      Built m' (Function.update bytes i (bytes i ++ data)) ∧ m'.freeinode = m.freeinode :=
  (iappend_ends h h1 h2 hne).mono (fun _ _ hq => hq) fun _ he => overflow_of_tooMuch h h2 he

end Append

theorem copyIn_ends {i : ℕ} (h1 : 1 ≤ i) (fuel : ℕ) :
    ∀ {m bytes data}, Built m bytes → i < m.freeinode → data.length ≤ fuel →
      Ends (copyIn i fuel data) m (fun _ => Overflow (Function.update bytes i (bytes i ++ data)) m.freeinode) fun _ m' =>
        Built m' (Function.update bytes i (bytes i ++ data)) ∧ m'.freeinode = m.freeinode := by
  induction fuel with
  | zero =>
    intro m bytes data h h2 hf
    obtain rfl := List.eq_nil_of_length_eq_zero (Nat.le_zero.mp hf)
    rw [copyIn]
    refine ⟨?_,rfl⟩
    rwa [List.append_nil, Function.update_eq_self]
  | succ fuel ih =>
    intro m bytes data h h2 hf
    rw [copyIn]
    by_cases hne : 0 < data.length
    · rw [if_pos hne]
      have htake : 0 < (data.take bsize).length := by
        rw [List.length_take]
        exact lt_min (by decide) hne
      have happ : bytes i ++ data.take bsize ++ data.drop bsize = bytes i ++ data := by
        rw [List.append_assoc, List.take_append_drop]
      refine .seq ((iappend_fits h h1 h2 htake).mono (fun _ _ hq => hq) fun _ he => he.mono (fun j _ => ?_) le_rfl) ?_
      · by_cases hji : j = i
        · subst hji
          rw [Function.update_self, Function.update_self, List.length_append, List.length_append, List.length_take]
          omega
        · rw [Function.update_of_ne hji, Function.update_of_ne hji]
      · rintro _ m' ⟨hb,hfree⟩
        have hlen : (data.drop bsize).length ≤ fuel := by
          rw [List.length_drop]
          have : 0 < bsize := by decide
          omega
        have := ih hb (by rwa [hfree]) hlen
        rwa [Function.update_self, Function.update_idem, happ, hfree] at this
    · obtain rfl := List.eq_nil_of_length_eq_zero (Nat.eq_zero_of_not_pos hne)
      rw [if_neg hne]
      refine ⟨?_,rfl⟩
      rwa [List.append_nil, Function.update_eq_self]

/-! ## The files -/

/-- A file that stops the program whatever else is there. -/
def HostFile.Bad (file : HostFile) : Prop := slash ∈ file.name ∨ file.data = none

/-- The contents once one file is added, with the next inode. -/
def withFile (bytes : ℕ → List UInt8) (k : ℕ) (file : HostFile) : ℕ → List UInt8 :=
  Function.update (Function.update bytes rootino (bytes rootino ++ dirent k (baseName file.name))) k (file.data.getD [])

/-- The contents once the files are added, with the inodes from `k` on. -/
def withFiles (bytes : ℕ → List UInt8) : ℕ → List HostFile → ℕ → List UInt8
  | _, [] => bytes
  | k, file :: files => withFiles (withFile bytes k file) (k + 1) files

theorem dirent_length (k : ℕ) (name : List UInt8) : (dirent k name).length = 16 := by
  unfold dirent
  rw [List.length_append, List.length_append, List.length_take, List.length_replicate]
  simp only [dirsiz, List.length_cons, List.length_nil]
  omega

theorem withFile_grows (bytes : ℕ → List UInt8) {k i : ℕ} (file : HostFile) (hi : i < k) :
    (bytes i).length ≤ (withFile bytes k file i).length := by
  unfold withFile
  rw [Function.update_of_ne hi.ne]
  by_cases hr : i = rootino
  · subst hr
    rw [Function.update_self, List.length_append]
    omega
  · rw [Function.update_of_ne hr]

theorem withFiles_grows (files : List HostFile) : ∀ (bytes : ℕ → List UInt8) {k i : ℕ}, i < k →
    (bytes i).length ≤ (withFiles bytes k files i).length := by
  induction files with
  | nil =>
    intro bytes k i hi
    exact le_rfl
  | cons file files ih =>
    intro bytes k i hi
    exact (withFile_grows bytes file hi).trans (ih _ (Nat.lt_succ_of_lt hi))

section Files
variable {m : Img} {bytes : ℕ → List UInt8}

theorem addFile_ends (h : Built m bytes) (h2 : 2 ≤ m.freeinode) (hlt : m.freeinode < ninodes) (file : HostFile) :
    Ends (addFile rootino file) m (fun _ => file.Bad ∨ Overflow (withFile bytes m.freeinode file) (m.freeinode + 1)) fun _ m' =>
      Built m' (withFile bytes m.freeinode file) ∧ m'.freeinode = m.freeinode + 1 := by
  unfold addFile
  by_cases hslash : slash ∈ file.name
  · have hassert : assert (slash ∉ file.name) m = .error .assertion := by
      unfold assert
      rw [if_neg (by simpa using hslash), throw_error]
    exact (ends_of_error (bind_error hassert)).mpr (.inl (.inl hslash))
  · have hassert : assert (slash ∉ file.name) m = .ok ((),m) := by
      unfold assert
      rw [if_pos (by simpa using hslash), pure_ok]
    refine .seq_ok hassert ?_
    cases hdata : file.data with
    | none => exact .inl (.inr hdata)
    | some data =>
      dsimp only
      have hroot : ¬ m.freeinode = rootino := by
        simp only [rootino]
        omega
      have hself : withFile bytes m.freeinode file = Function.update (Function.update (Function.update bytes m.freeinode [])
          rootino (bytes rootino ++ dirent m.freeinode (baseName file.name))) m.freeinode data := by
        unfold withFile
        rw [hdata, Option.getD_some, Function.update_comm (Ne.symm hroot), Function.update_comm (Ne.symm hroot),
          Function.update_idem]
      obtain ⟨m1,hrun,hb1,hf1⟩ := ialloc_ok h (by omega) hlt (if_neg hroot).symm
      have hr1 : Function.update bytes m.freeinode [] rootino = bytes rootino := Function.update_of_ne (Ne.symm hroot) _ _
      refine .seq_ok hrun ?_
      have hpos : 0 < (dirent m.freeinode (baseName file.name)).length := by
        rw [dirent_length]
        decide
      have happ := iappend_fits hb1 (i := rootino) le_rfl (by rw [hf1]; simp only [rootino]; omega) hpos
      rw [hr1, hf1] at happ
      have hlast : Function.update (Function.update bytes m.freeinode []) rootino
          (bytes rootino ++ dirent m.freeinode (baseName file.name)) m.freeinode = [] := by
        rw [Function.update_of_ne hroot, Function.update_self]
      refine .seq (happ.mono (fun _ _ hq => hq) fun _ he => .inr (he.mono (fun i hi => ?_) le_rfl)) ?_
      · rw [hself]
        by_cases hik : i = m.freeinode
        · rw [hik, hlast]
          exact Nat.zero_le _
        · rw [Function.update_of_ne hik]
      · rintro _ m2 ⟨hb2,hf2⟩
        have hcopy := copyIn_ends (i := m.freeinode) (by omega) data.length hb2 (by omega) le_rfl
        rw [hlast, List.nil_append, ← hself, hf2] at hcopy
        exact hcopy.mono (fun _ _ hq => hq) fun _ he => .inr he

theorem addFiles_ends (files : List HostFile) : ∀ {m : Img} {bytes : ℕ → List UInt8}, Built m bytes → 2 ≤ m.freeinode →
    m.freeinode + files.length ≤ ninodes →
    Ends (addFiles rootino files) m
      (fun _ => (∃ file ∈ files, file.Bad) ∨ Overflow (withFiles bytes m.freeinode files) (m.freeinode + files.length)) fun _ m' =>
      Built m' (withFiles bytes m.freeinode files) ∧ m'.freeinode = m.freeinode + files.length := by
  induction files with
  | nil =>
    intro m bytes h _ _
    exact ⟨h,rfl⟩
  | cons file files ih =>
    intro m bytes h h2 hle
    rw [List.length_cons] at hle ⊢
    rw [addFiles]
    refine .seq ((addFile_ends h h2 (by omega) file).mono (fun _ _ hq => hq) fun _ he => ?_) ?_
    · rcases he with he | he
      · exact .inl ⟨file,List.mem_cons_self,he⟩
      · exact .inr (he.mono (fun i hi => withFiles_grows files _ hi) (by omega))
    · rintro _ m1 ⟨hb,hf⟩
      have := ih hb (by omega) (by omega)
      rw [hf, Nat.add_assoc, Nat.add_comm 1] at this
      refine this.mono (fun _ _ hq => hq) fun _ he => he.imp_left ?_
      rintro ⟨f,hmem,hbad⟩
      exact ⟨f,List.mem_cons_of_mem _ hmem,hbad⟩

end Files

/-! ## `main` -/

theorem zeroSectors_ok (n : ℕ) {m : Img} (hm : m.sect = fun _ => Block.zero) :
    zeroSectors n m = .ok ((),{ m with nsect := max m.nsect n }) := by
  induction n with
  | zero =>
    rw [zeroSectors, pure_ok, Nat.max_eq_left (Nat.zero_le _)]
  | succ n ih =>
    rw [zeroSectors, bind_ok ih]
    unfold wsect
    rw [modify_ok]
    dsimp only
    rw [hm, Nat.max_assoc, Nat.max_eq_right (Nat.le_succ n)]
    congr 3
    exact Function.update_eq_self n (fun _ => Block.zero)

/-- The image of so many sectors before the first inode. -/
def blank (n : ℕ) : Img := ⟨Function.update (fun _ => Block.zero) 1 superBlock,n,1,nmeta⟩

theorem blank_sect {n b : ℕ} (hb : b ≠ 1) : (blank n).sect b = Block.zero := by
  have := Function.update_of_ne hb superBlock (fun _ => Block.zero)
  exact this

theorem dinode_blank {i : ℕ} (hi : i < ninodes) : (sb.dinode (blank fssize).disk i).type = 0 := by
  have h1 := iblock_lt_map hi
  have h2 : 32 ≤ sb.iblock i := Nat.le_add_left _ _
  unfold Superblock.dinode
  rw [(blank fssize).disk_of_ne (by omega)]
  rw [blank_sect (by omega), Block.dinode_zero_type]

theorem blank_built : Built (blank fssize) fun _ => [] := by
  have hmeta : nmeta = 59 := rfl
  have hnone (i : ℕ) : ¬ IsAllocated sb (sb.dinode (blank fssize).disk) i := fun h => h.2 (dinode_blank h.1)
  have hrefs (p : ℕ × ℕ) : refs sb (blank fssize).disk (sb.dinode (blank fssize).disk) p = 0 := refs_of_not_allocated (hnone p.1)
  have hfree : (blank fssize).freeblock = nmeta := rfl
  refine ⟨⟨rfl,le_rfl,by decide,fun b hb _ => ?_⟩,by decide,⟨⟨fun p hp => ?_,fun p q hp => ?_,fun b hb => ?_⟩,fun b hb => ?_,
    fun i hi => ?_⟩,fun i hi => ?_,fun i h1 h2 => ?_,fun i h1 h2 => ?_,rfl⟩
  · rw [hfree] at hb
    exact blank_sect (by omega)
  · exact absurd (hrefs p) hp
  · exact absurd (hrefs p) hp
  · have hb' := dataArea_sb.mp hb
    rw [(blank fssize).bit_disk hb'.2, hfree, decide_eq_true_eq]
    refine iff_of_false (by omega) ?_
    rintro ⟨p,hp⟩
    rw [hrefs] at hp
    omega
  · have hb' : b < nmeta := hb
    rw [(blank fssize).bit_disk (by simp only [fssize]; omega), hfree, decide_eq_true_eq]
    exact hb'
  · exact absurd hi (hnone i)
  · have h1 : (blank fssize).freeinode = 1 := rfl
    rw [dinode_blank hi, h1, if_neg (by omega)]
  · have h3 : (blank fssize).freeinode = 1 := rfl
    omega
  · have h3 : (blank fssize).freeinode = 1 := rfl
    omega

/-- The contents of the image: the directory entries of the root, and the files. -/
def contents (files : List HostFile) : ℕ → List UInt8 :=
  withFiles (Function.update (fun _ => []) rootino (dirent rootino [dot] ++ dirent rootino [dot, dot])) 2 files

/-- The program does not take the files. -/
def Refused (files : List HostFile) : Prop :=
  (∃ file ∈ files, file.Bad) ∨ Overflow (contents files) (files.length + 2)

/-- The root directory with the size that `main` gives it. -/
def rounded (n : Dinode) : Dinode := { n with size := u32 ((n.size / bsize + 1) * bsize) }

/-- The image in the end, from the one before the size of the root is changed. -/
structure Final (files : List HostFile) (m img : Img) : Prop where
  built : Built m (contents files)
  sect : img.sect = (m.withDinode rootino (rounded (sb.dinode m.disk rootino))).disk
  freeblock : img.freeblock = m.freeblock
  freeinode : img.freeinode = m.freeinode
  count : m.freeinode = files.length + 2

/-- The image is filled with zeroes and the superblock is written. -/
theorem format_ends {α : Type} {rest : Mk α} {E : Failure → Prop} {Q : α → Img → Prop} {n : ℕ}
    (hn : 2 ≤ n) (h : Ends rest (blank n) E Q) :
    Ends (do
      zeroSectors n
      wsect 1 superBlock
      rest) empty E Q := by
  refine .seq_ok (zeroSectors_ok n rfl) (.seq_ok (modify_ok _) ?_)
  have hmax : max (max 0 n) (1 + 1) = n := by omega
  unfold empty
  dsimp only
  rw [hmax]
  exact h

/-- The rest of `main`. -/
def fill (files : List HostFile) : Mk Unit := do
  let root ← ialloc tDir
  assert (root = rootino)
  iappend root (dirent root [dot])
  iappend root (dirent root [dot, dot])
  addFiles root files
  fixRoot root
  balloc (← get).freeblock

section Fill
variable {b : Img} {files : List HostFile}

theorem Final.of_built {m : Img} (h : Built m (contents files)) (hf : m.freeinode = files.length + 2) :
    ∃ img, (do
      fixRoot rootino
      balloc (← get).freeblock : Mk Unit) m = .ok ((),img) ∧ Final files m img := by
  have hroot : rootino < ninodes := by decide
  have hfix : fixRoot rootino m = .ok ((),m.withDinode rootino (rounded (sb.dinode m.disk rootino))) := by
    unfold fixRoot
    rw [bind_ok (rinode_ok h.fresh hroot), winode_ok h.fresh hroot]
    rfl
  have hle := h.fresh.le
  refine ⟨{ m.withDinode rootino (rounded (sb.dinode m.disk rootino)) with
    sect := (m.withDinode rootino (rounded (sb.dinode m.disk rootino))).disk
    nsect := max (m.withDinode rootino (rounded (sb.dinode m.disk rootino))).nsect (sb.bmapstart + 1) },?_,h,rfl,rfl,rfl,hf⟩
  rw [bind_ok hfix, bind_ok get_ok]
  have hused : (m.withDinode rootino (rounded (sb.dinode m.disk rootino))).freeblock < bsize * 8 := by
    change m.freeblock < bsize * 8
    simp only [fssize, bsize] at *
    omega
  unfold balloc assert
  rw [if_pos (decide_eq_true hused), bind_ok (pure_ok)]
  rfl

theorem fill_ends (hb : Built b fun _ => []) (h1 : b.freeinode = rootino) (hn : files.length + 2 ≤ ninodes) :
    Ends (fill files) b (fun _ => Refused files) fun _ img => ∃ m, Final files m img := by
  have hdir : tDir = if b.freeinode = rootino then tDir else tFile := by rw [h1, if_pos rfl]
  obtain ⟨m1,hrun1,hb1,hf1⟩ := ialloc_ok hb h1.ge (by rw [h1]; decide) hdir
  rw [h1] at hrun1 hb1 hf1
  have hassert : assert (rootino = rootino) m1 = .ok ((),m1) := rfl
  have hpos {name : List UInt8} : 0 < (dirent rootino name).length := by
    rw [dirent_length]
    decide
  -- what the two entries of the root need is no more than what everything needs
  have hgrow {c : ℕ → List UInt8} (hc : ∀ i < 2, (c i).length ≤ (contents [] i).length) (he : Overflow c 2) : Refused files := by
    refine .inr (he.mono (fun i hi => (hc i hi).trans ?_) (by omega))
    exact withFiles_grows files _ hi
  unfold fill
  refine .seq_ok hrun1 (.seq_ok hassert ?_)
  have hi1 := iappend_fits hb1 le_rfl (show rootino < m1.freeinode by rw [hf1]; exact Nat.lt_succ_self _) (@hpos [dot])
  rw [Function.update_self, Function.update_idem, List.nil_append, hf1] at hi1
  refine .seq (hi1.mono (fun _ _ hq => hq) fun _ he => hgrow (fun i _ => ?_) he) ?_
  · unfold contents withFiles
    by_cases hir : i = rootino
    · rw [hir, Function.update_self, Function.update_self, List.length_append]
      omega
    · rw [Function.update_of_ne hir, Function.update_of_ne hir]
  rintro _ m2 ⟨hb2,hf2⟩
  have hi2 := iappend_fits hb2 le_rfl (show rootino < m2.freeinode by rw [hf2]; exact Nat.lt_succ_self _)
    (@hpos [dot, dot])
  rw [Function.update_self, Function.update_idem, hf2] at hi2
  refine .seq (hi2.mono (fun _ _ hq => hq) fun _ he => hgrow (fun i _ => le_rfl) he) ?_
  rintro _ m3 ⟨hb3,hf3⟩
  have hf3' : m3.freeinode = 2 := hf3
  have hi3 := addFiles_ends files hb3 hf3'.ge (by rw [hf3']; omega)
  rw [hf3', Nat.add_comm 2] at hi3
  refine .seq (hi3.mono (fun _ _ hq => hq) fun _ he => he) ?_
  rintro _ m4 ⟨hb4,hf4⟩
  obtain ⟨img,hrun,hfinal⟩ := Final.of_built hb4 hf4
  exact (ends_of_ok hrun).mpr ⟨m4,hfinal⟩

end Fill

-- the program has a name, so that it is not run when the theorem is applied
theorem main_ends {files : List HostFile} {x : Mk Unit} (hx : main files = x) (hn : files.length + 2 ≤ ninodes) :
    Ends x empty (fun _ => Refused files) fun _ img => ∃ m, Final files m img := by
  have h2 : 2 ≤ fssize := by decide
  have hmain : main files = (do
      zeroSectors fssize
      wsect 1 superBlock
      fill files) := rfl
  rw [← hx, hmain]
  have h1 : (blank fssize).freeinode = rootino := rfl
  have h := fill_ends blank_built h1 hn
  generalize fssize = k at h h2 ⊢
  have h3 := format_ends h2 h
  exact h3

/-! ## The number of inodes -/

/-- A part of the program that allocates no inode. -/
abbrev KeepsInodes {α : Type} (x : Mk α) : Prop := Respects (fun m m' : Img => m'.freeinode = m.freeinode) x

instance : IsPreorder Img fun m m' => m'.freeinode = m.freeinode where
  refl _ := rfl
  trans _ _ _ h1 h2 := h2.trans h1

theorem keepsInodes_wsect (sec : ℕ) (buf : Block) : KeepsInodes (wsect sec buf) := .modify fun _ => rfl

theorem keepsInodes_rsect (sec : ℕ) : KeepsInodes (rsect sec) := by
  refine .bind .get fun m => ?_
  split
  · exact .pure _
  · exact .throw _

theorem keepsInodes_assert (p : Bool) : KeepsInodes (assert p) := by
  unfold assert
  split
  · exact .pure _
  · exact .throw _

theorem keepsInodes_winode (i : ℕ) (n : Dinode) : KeepsInodes (winode i n) :=
  .bind (keepsInodes_rsect _) fun _ => keepsInodes_wsect _ _

theorem keepsInodes_rinode (i : ℕ) : KeepsInodes (rinode i) := .bind (keepsInodes_rsect _) fun _ => .pure _

theorem keepsInodes_nextBlock : KeepsInodes nextBlock :=
  .bind .get fun _ => .bind (.modify fun _ => rfl) fun _ => .pure _

theorem keepsInodes_addrOf (din : Dinode) (k : Fin (ndirect + 1)) : KeepsInodes (addrOf din k) := by
  unfold addrOf
  split
  · exact .bind keepsInodes_nextBlock fun _ => .pure _
  · exact .pure _

theorem keepsInodes_fileBlock (din : Dinode) (fbn : ℕ) : KeepsInodes (fileBlock din fbn) := by
  unfold fileBlock
  split
  · exact keepsInodes_addrOf _ _
  · refine .bind (keepsInodes_addrOf _ _) fun r => .bind (keepsInodes_rsect _) fun _ => ?_
    split
    · exact .bind keepsInodes_nextBlock fun _ => .bind (keepsInodes_wsect _ _) fun _ => .pure _
    · exact .pure _

theorem keepsInodes_appendLoop (fuel : ℕ) : ∀ din off p, KeepsInodes (appendLoop fuel din off p) := by
  induction fuel with
  | zero => exact fun _ _ _ => .pure _
  | succ fuel ih =>
    intro din off p
    rw [appendLoop]
    split
    · exact .bind (keepsInodes_assert _) fun _ => .bind (keepsInodes_fileBlock _ _) fun _ =>
        .bind (keepsInodes_rsect _) fun _ => .bind (keepsInodes_wsect _ _) fun _ => ih _ _ _
    · exact .pure _

theorem keepsInodes_iappend (i : ℕ) (p : List UInt8) : KeepsInodes (iappend i p) :=
  .bind (keepsInodes_rinode _) fun _ => .bind (keepsInodes_appendLoop _ _ _ _) fun _ => keepsInodes_winode _ _

theorem keepsInodes_copyIn (i fuel : ℕ) : ∀ data, KeepsInodes (copyIn i fuel data) := by
  induction fuel with
  | zero => exact fun _ => .pure _
  | succ fuel ih =>
    intro data
    rw [copyIn]
    split
    · exact .bind (keepsInodes_iappend _ _) fun _ => ih _
    · exact .pure _

theorem keepsInodes_fixRoot (root : ℕ) : KeepsInodes (fixRoot root) :=
  .bind (keepsInodes_rinode _) fun _ => keepsInodes_winode _ _

theorem keepsInodes_balloc (used : ℕ) : KeepsInodes (balloc used) :=
  .bind (keepsInodes_assert _) fun _ => keepsInodes_wsect _ _

theorem keepsInodes_zeroSectors (n : ℕ) : KeepsInodes (zeroSectors n) := by
  induction n with
  | zero => exact .pure _
  | succ n ih => exact .bind ih fun _ => keepsInodes_wsect _ _

theorem ialloc_freeinode {type i : ℕ} {m m' : Img} (h : ialloc type m = .ok (i,m')) : m'.freeinode = m.freeinode + 1 := by
  obtain ⟨m1,_,h1,h⟩ := bind_eq_ok h
  cases h1
  obtain ⟨_,m2,h2,h⟩ := bind_eq_ok h
  cases h2
  obtain ⟨_,m3,h3,h⟩ := bind_eq_ok h
  cases h
  exact keepsInodes_winode _ _ _ _ _ h3

theorem addFile_freeinode {root : ℕ} {file : HostFile} {m m' : Img} (h : addFile root file m = .ok ((),m')) :
    m'.freeinode = m.freeinode + 1 := by
  obtain ⟨_,m1,h1,h⟩ := bind_eq_ok h
  have hf1 := keepsInodes_assert _ _ _ _ h1
  cases hd : file.data with
  | none =>
    rw [hd] at h
    cases h
  | some data =>
    rw [hd] at h
    obtain ⟨i,m2,h2,h⟩ := bind_eq_ok h
    obtain ⟨_,m3,h3,h⟩ := bind_eq_ok h
    rw [keepsInodes_copyIn _ _ _ _ _ _ h, keepsInodes_iappend _ _ _ _ _ h3, ialloc_freeinode h2, hf1]

theorem addFiles_freeinode {root : ℕ} (files : List HostFile) : ∀ {m m' : Img}, addFiles root files m = .ok ((),m') →
    m'.freeinode = m.freeinode + files.length := by
  induction files with
  | nil =>
    intro m m' h
    cases h
    rfl
  | cons file files ih =>
    intro m m' h
    obtain ⟨_,m1,h1,h⟩ := bind_eq_ok h
    rw [ih h, addFile_freeinode h1, List.length_cons]
    omega

/-- Each file has its inode, whether or not there are so many. -/
theorem Makes.freeinode {files : List HostFile} {img : Img} (h : Makes files img) : img.freeinode = files.length + 2 := by
  obtain ⟨_,m1,h1,h⟩ := bind_eq_ok h
  obtain ⟨_,m2,h2,h⟩ := bind_eq_ok h
  obtain ⟨root,m3,h3,h⟩ := bind_eq_ok h
  obtain ⟨_,m4,h4,h⟩ := bind_eq_ok h
  obtain ⟨_,m5,h5,h⟩ := bind_eq_ok h
  obtain ⟨_,m6,h6,h⟩ := bind_eq_ok h
  obtain ⟨_,m7,h7,h⟩ := bind_eq_ok h
  obtain ⟨_,m8,h8,h⟩ := bind_eq_ok h
  obtain ⟨_,m9,h9,h⟩ := bind_eq_ok h
  cases h9
  have he : empty.freeinode = 1 := rfl
  rw [keepsInodes_balloc _ _ _ _ h, keepsInodes_fixRoot _ _ _ _ h8, addFiles_freeinode files h7, keepsInodes_iappend _ _ _ _ _ h6,
    keepsInodes_iappend _ _ _ _ _ h5, keepsInodes_assert _ _ _ _ h4, ialloc_freeinode h3, keepsInodes_wsect _ _ _ _ _ h2,
    keepsInodes_zeroSectors _ _ _ _ h1, he]
  omega

end X86OsDev.Xv6.Mkfs
