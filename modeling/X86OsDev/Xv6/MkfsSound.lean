import X86OsDev.Xv6.MkfsLaw

/-! # When the image is in order

The size of the root directory is rounded up to one more block than its entries
fill, so that a block is missing if the last one is full. Nothing else goes
wrong as long as the inodes last.
-/
namespace X86OsDev.Xv6.Mkfs
open Fault Memory Fs

/-- An inode that `mkfs` has written. -/
def Img.Used (img : Img) (i : ℕ) : Prop := 1 ≤ i ∧ i < img.freeinode

/-- The image is a consistent file system with the inodes it should have, and the kernel reads its root directory without
any change to its state. -/
structure Sound (img : Img) : Prop where
  inodes : ∀ i, img.Used i → i < ninodes
  mapped : ∀ i, img.Used i → ∀ bn < ((sb.dinode img.sect i).size + (bsize - 1)) / bsize,
    blockOf img.sect (sb.dinode img.sect i) bn ≠ 0
  apart : ∀ i j, img.Used i → img.Used j → ∀ k l, slot img.sect (sb.dinode img.sect i) k ≠ 0 →
    slot img.sect (sb.dinode img.sect i) k = slot img.sect (sb.dinode img.sect j) l → i = j ∧ k = l
  inside : ∀ i, img.Used i → ∀ k, slot img.sect (sb.dinode img.sect i) k ≠ 0 →
    nmeta ≤ slot img.sect (sb.dinode img.sect i) k ∧ slot img.sect (sb.dinode img.sect i) k < fssize
  marked : ∀ b < bpb, (img.sect sb.bmapstart).bit b = true ↔ b < img.freeblock
  reads : ∀ s me ip, s.disk = img.sect → s.busy = [] → Locked sb me ip s → (s.icache ip).inum = rootino →
    ∀ off n, off < 2 ^ 32 → n < 2 ^ 32 → ∃ r, readi sb me ip off n s = .ok (r,s)

/-! ## The root directory -/

theorem withFiles_root (files : List HostFile) : ∀ (bytes : ℕ → List UInt8) {k : ℕ}, rootino < k →
    (withFiles bytes k files rootino).length = (bytes rootino).length + 16 * files.length := by
  induction files with
  | nil =>
    intro bytes k _
    rfl
  | cons file files ih =>
    intro bytes k hk
    have hstep : (withFile bytes k file rootino).length = (bytes rootino).length + 16 := by
      unfold withFile
      rw [Function.update_of_ne hk.ne, Function.update_self, List.length_append, dirent_length]
    rw [withFiles, ih _ (Nat.lt_succ_of_lt hk), hstep, List.length_cons]
    omega

theorem contents_root (files : List HostFile) : (contents files rootino).length = 16 * (files.length + 2) := by
  unfold contents
  rw [withFiles_root files _ (by decide), Function.update_self, List.length_append, dirent_length, dirent_length]
  omega

/-! ## The final image -/

section Image
variable {files : List HostFile} {m img : Img}

theorem Final.root_size (h : Final files m img) : (sb.dinode m.disk rootino).size = 16 * (files.length + 2) := by
  have hlt : rootino < m.freeinode := by
    rw [h.count]
    simp only [rootino]
    omega
  rw [← contents_root, ← h.built.content rootino le_rfl hlt]
  simp [Fs.content]

theorem Final.used (h : Final files m img) {i : ℕ} (hi : img.Used i) : IsAllocated sb (sb.dinode m.disk) i := by
  refine h.built.allocated.mpr ⟨hi.1,?_⟩
  rw [← h.freeinode]
  exact hi.2

theorem Final.files_le (h : Final files m img) : files.length + 2 ≤ ninodes := h.count ▸ h.built.last

theorem Final.rounded_size (h : Final files m img) :
    (rounded (sb.dinode m.disk rootino)).size = ((files.length + 2) / 32 + 1) * bsize := by
  have hle := h.files_le
  unfold rounded u32
  dsimp only
  rw [h.root_size]
  simp only [bsize, ninodes] at *
  omega

theorem Final.disk (h : Final files m img) : img.sect = Function.update m.disk (sb.iblock rootino)
    ((m.disk (sb.iblock rootino)).setDinode rootino (rounded (sb.dinode m.disk rootino))) :=
  h.sect.trans (withDinode_disk (by decide) _)

theorem Final.root (h : Final files m img) : sb.dinode img.sect rootino = rounded (sb.dinode m.disk rootino) := by
  have hfits : (sb.dinode m.disk rootino).Fits := dinode_fits m.disk rootino
  have hle := h.files_le
  rw [h.disk]
  refine dinode_update_self ⟨hfits.type,hfits.major,hfits.minor,hfits.nlink,?_,hfits.addrs⟩
  rw [h.rounded_size]
  simp only [bsize, ninodes] at *
  omega

theorem Final.dinode_of_ne (h : Final files m img) {i : ℕ} (hi : i ≠ rootino) : sb.dinode img.sect i = sb.dinode m.disk i := by
  rw [h.disk]
  exact dinode_update_of_ne hi

theorem Final.data (h : Final files m img) {c : ℕ} (hc : sb.bmapstart ≤ c) : img.sect c = m.disk c := by
  have := iblock_lt sb_layout (show rootino < sb.ninodes by decide)
  rw [h.disk]
  exact Function.update_of_ne (by omega) _ _

/-- The blocks of the inodes are those from before the size was changed. -/
theorem Final.slot (h : Final files m img) {i : ℕ} (hi : img.Used i) (k : ℕ) :
    slot img.sect (sb.dinode img.sect i) k = slot m.disk (sb.dinode m.disk i) k := by
  have hall := h.used hi
  have haddrs : (sb.dinode img.sect i).addrs = (sb.dinode m.disk i).addrs := by
    by_cases hir : i = rootino
    · rw [hir, h.root]
      rfl
    · rw [h.dinode_of_ne hir]
  refine slot_congr haddrs fun hne => h.data ?_
  rw [← slot_last (d := m.disk)] at hne ⊢
  exact (bmapstart_lt sb_layout).le.trans (h.built.consistent.slot_mem hall hne).1

/-- A block of the root directory is there if an entry is in it. -/
theorem Final.root_block (h : Final files m img) (bn : ℕ) :
    blockOf img.sect (sb.dinode img.sect rootino) bn ≠ 0 ↔ 32 * bn < files.length + 2 := by
  have hroot : rootino < m.freeinode := by
    rw [h.count]
    simp only [rootino]
    omega
  have hused : img.Used rootino := ⟨le_rfl,h.freeinode ▸ hroot⟩
  have hall := h.built.allocated.mpr ⟨le_rfl,hroot⟩
  have hsize := h.root_size
  unfold blockOf
  rw [h.slot hused]
  constructor
  · intro hne
    by_contra hc
    refine hne ((h.built.tail rootino le_rfl hroot).unmapped bn ?_)
    rw [contents_root]
    simp only [bsize]
    omega
  · intro hlt
    refine h.built.consistent.mapped rootino hall bn ?_
    rw [hsize]
    simp only [bsize]
    omega

theorem Final.consistent (h : Final files m img) (hn : ¬ 32 ∣ files.length + 2) : Consistent sb img.sect := by
  have hfill (bn : ℕ) (hbn : bn * bsize < ((files.length + 2) / 32 + 1) * bsize) :
      blockOf m.disk (sb.dinode m.disk rootino) bn ≠ 0 := by
    have hused : img.Used rootino := ⟨le_rfl,by rw [h.freeinode, h.count]; simp only [rootino]; omega⟩
    have := (h.root_block bn).mpr (by simp only [bsize] at hbn; omega)
    unfold blockOf at this
    rwa [h.slot hused] at this
  have hset := h.built.consistent.setSize (i := rootino) (n := rounded (sb.dinode m.disk rootino)) rfl rfl h.rounded_size hfill
  refine (hset.writeInode sb_layout fun c hc => h.data hc).congr_ino fun j _ => ?_
  by_cases hj : j = rootino
  · rw [hj, h.root, Function.update_self]
  · rw [h.dinode_of_ne hj, Function.update_of_ne hj]

theorem Final.type_ne (h : Final files m img) {i : ℕ} (hi : img.Used i) : IsAllocated sb (sb.dinode img.sect) i := by
  have hall := h.used hi
  refine ⟨hall.1,?_⟩
  by_cases hir : i = rootino
  · rw [hir] at hall ⊢
    rw [h.root]
    exact hall.2
  · rw [h.dinode_of_ne hir]
    exact hall.2

theorem Final.sound (h : Final files m img) (hn : ¬ 32 ∣ files.length + 2) : Sound img where
  inodes i hi := (h.type_ne hi).1
  mapped i hi bn hbn := by
    refine (h.consistent hn).mapped i (h.type_ne hi) bn ?_
    simp only [bsize] at *
    omega
  apart i j hi hj k l hne heq := by
    have h1 := refs_of_allocated (d := img.sect) (k := k) (h.type_ne hi)
    have h2 := refs_of_allocated (d := img.sect) (k := l) (h.type_ne hj)
    have := (h.consistent hn).owns.once (i,k) (j,l) (by rwa [h1]) (by rw [h1, h2, heq])
    exact Prod.mk.inj this
  inside i hi k hne := dataArea_sb.mp ((h.consistent hn).slot_mem (h.type_ne hi) hne)
  marked b hb := by
    have hmap : m.disk sb.bmapstart = bitmap m.freeblock := Function.update_self _ _ _
    rw [h.data le_rfl, hmap, bit_bitmap _ hb, decide_eq_true_eq, h.freeblock]
  reads s me ip hd hb hl hroot off n hoff hlen := by
    have hO := Consistent.open (hd ▸ h.consistent hn) hl hb
    refine ⟨_,readi_ok sb_layout hO me ?_ hoff hlen⟩
    have hroot' : rootino < m.freeinode := by
      rw [h.count]
      simp only [rootino]
      omega
    have hall := h.built.allocated.mpr ⟨le_rfl,hroot'⟩
    have hkind := h.built.kind rootino hall.1
    rw [if_pos (h.built.allocated.mp hall), if_pos rfl] at hkind
    rw [hl.node, hroot, hd, h.root]
    change (sb.dinode m.disk rootino).type ≠ tDev
    rw [hkind]
    decide

/-- The last block that the size covers is the one after those with entries. -/
theorem Final.not_sound (h : Final files m img) (hdvd : 32 ∣ files.length + 2) : ¬ Sound img := by
  intro hs
  have hroot : img.Used rootino := ⟨le_rfl,by rw [h.freeinode, h.count]; simp only [rootino]; omega⟩
  have hne := hs.mapped rootino hroot ((files.length + 2) / 32) (by
    rw [h.root, h.rounded_size]
    simp only [bsize]
    omega)
  have := (h.root_block _).mp hne
  omega

end Image

theorem Makes.final {files : List HostFile} {img : Img} (h : Makes files img) (hle : files.length + 2 ≤ ninodes) :
    ∃ m, Final files m img := by
  unfold Makes at h
  generalize hx : main files = x at h
  exact (ends_of_ok h).mp (main_ends hx hle)

/-- An image that was made is in order if and only if there are inodes for the files and the entries of the root directory
leave room in its last block. -/
theorem makes_sound {files : List HostFile} {img : Img} (h : Makes files img) :
    Sound img ↔ files.length + 2 ≤ ninodes ∧ ¬ 32 ∣ files.length + 2 := by
  have hfree := h.freeinode
  constructor
  · intro hs
    have hle : files.length + 2 ≤ ninodes := by
      have := hs.inodes (files.length + 1) ⟨Nat.le_add_left _ _,by rw [hfree]; omega⟩
      exact this
    refine ⟨hle,fun hdvd => ?_⟩
    obtain ⟨m,hfinal⟩ := h.final hle
    exact hfinal.not_sound hdvd hs
  · rintro ⟨hle,hn⟩
    obtain ⟨m,hfinal⟩ := h.final hle
    exact hfinal.sound hn

/-- An image is made of files that are there and fit. -/
theorem makes_of_fits {files : List HostFile} (hle : files.length + 2 ≤ ninodes) (h : ¬ Refused files) :
    ∃ img, Makes files img := by
  unfold Makes
  generalize hx : main files = x
  have hends := main_ends hx hle
  cases hr : x empty with
  | error e => exact absurd ((ends_of_error hr).mp hends) h
  | ok r => exact ⟨r.2,rfl⟩

theorem not_refused {files : List HostFile} (h1 : ∀ file ∈ files, slash ∉ file.name ∧ file.data ≠ none)
    (h2 : total (contents files) (files.length + 2) ≤ fssize)
    (h3 : ∀ i < files.length + 2, (contents files i).length ≤ maxfile * bsize) : ¬ Refused files := by
  rintro (⟨file,hmem,hbad⟩ | hover | ⟨i,hi,hover⟩)
  · exact hbad.elim (h1 file hmem).1 (h1 file hmem).2
  · omega
  · exact absurd (h3 i hi) (by omega)

/-- Empty files whose names have one letter. -/
def emptyFiles (n : ℕ) : List HostFile := (List.range n).map fun i => ⟨[UInt8.ofNat (97 + i)],some []⟩

theorem emptyFiles_one_sound : ∃ img, Makes (emptyFiles 1) img ∧ Sound img := by
  have hfits : ¬ Refused (emptyFiles 1) := not_refused (by decide) (by decide +kernel) (by decide +kernel)
  obtain ⟨img,h⟩ := makes_of_fits (by decide) hfits
  exact ⟨img,h,(makes_sound h).mpr (by decide)⟩

theorem emptyFiles_thirty_not_sound : ∃ img, Makes (emptyFiles 30) img ∧ ¬ Sound img := by
  have hle : (emptyFiles 30).length + 2 ≤ ninodes := by decide
  have hfits : ¬ Refused (emptyFiles 30) := not_refused (by decide +kernel) (by decide +kernel) (by decide +kernel)
  obtain ⟨img,h⟩ := makes_of_fits hle hfits
  obtain ⟨m,hfinal⟩ := h.final hle
  exact ⟨img,h,hfinal.not_sound (by decide)⟩

end X86OsDev.Xv6.Mkfs
