import X86OsDev.Tutorial.InitrdLaw

/-! # Listing the directories of the ramdisk

`initrd_readdir` and `initrd_finddir` serve the root and /dev with the one list of
files. The first entry of the root is dev, and the files follow from index 1 on;
for /dev index 0 gives nothing, and the files are still there from index 1 on.
-/
namespace X86OsDev.Tutorial
open Memory

/-! ## The calls -/

def strlenLoop (m : Mem) (src : ℕ) : ℕ → ℕ → Option ℕ
  | 0, _ => none
  | fuel + 1, i => if m (src + i) ≠ 0 then strlenLoop m src fuel (i + 1) else some i

/-- `strlen` -/
def strlen (m : Mem) (src : ℕ) : Option ℕ := strlenLoop m src (2 ^ 32) 0

/-- The field `ino` of `struct dirent`, after 128 bytes of name. -/
def inoOffset : ℕ := 128

/-- `sizeof(struct dirent)` -/
def direntBytes : ℕ := 132

/-- `initrd_readdir`: the memory after the call and the pointer, which is the address of the variable `dirent` or 0. -/
def Initrd.readdir (r : Initrd) (dirent node index : ℕ) : Option (Mem × ℕ) :=
  if node = r.root ∧ index = 0 then do
    let m ← strcpy r.mem dirent (.lit devName)
    let m := store8 m (dirent + 3) 0
    some (store32 m (dirent + inoOffset) 0,dirent)
  else if r.nrootNodes ≤ sub32 index 1 then some (r.mem,0)
  else do
    let file := r.rootNodes + nodeBytes * sub32 index 1
    let m ← strcpy r.mem dirent (.addr file)
    let n ← strlen m file
    let m := store8 m (dirent + n) 0
    some (store32 m (dirent + inoOffset) (load32 m (file + inodeOffset)),dirent)

/-- `readdir_fs` -/
def Initrd.readdirFs (fns : Callbacks) (r : Initrd) (dirent node index : ℕ) : Option (Mem × ℕ) :=
  if load32 r.mem (node + flagsOffset) % 8 = fsDirectory ∧ load32 r.mem (node + readdirOffset) ≠ 0 then
    if load32 r.mem (node + readdirOffset) = fns.readdir then r.readdir dirent node index else none
  else some (r.mem,0)

theorem strlenLoop_spec {m : Mem} {a : ℕ} {s : List UInt8} (h : StringAt m (.addr a) s) (fuel i : ℕ) (hi : i ≤ s.length)
    (hfuel : s.length < fuel + i) : strlenLoop m a fuel i = some s.length := by
  induction fuel generalizing i with
  | zero => omega
  | succ fuel ih =>
    rw [strlenLoop]
    rcases Nat.lt_or_eq_of_le hi with hlt | rfl
    · have hne : m (a + i) ≠ 0 := h.byte_ne hlt
      rw [if_pos hne]
      exact ih (i + 1) hlt (by omega)
    · have hstop : m (a + s.length) = 0 := h.stop
      rw [if_neg (not_not.mpr hstop)]

theorem strlen_spec {m : Mem} {a : ℕ} {s : List UInt8} (h : StringAt m (.addr a) s) (hlen : s.length < 2 ^ 32) :
    strlen m a = some s.length := strlenLoop_spec h (2 ^ 32) 0 (Nat.zero_le _) hlen

/-! ## The ramdisk and its two directories -/

/-- The ramdisk has these files, with the variable `dirent` apart from their nodes. The names in the nodes need not be
terminated. -/
structure Listed (fns : Callbacks) (r : Initrd) (dirent : ℕ) (names : List (List UInt8)) : Prop where
  readdirPos : 0 < fns.readdir
  readdirLt : fns.readdir < 2 ^ 32
  count : r.nrootNodes = names.length
  few : names.length < 2 ^ 31
  root : DirectoryOf fns r.mem r.root
  dev : DirectoryOf fns r.mem r.dev
  rootDev : r.root ≠ r.dev
  devPos : 0 < r.dev
  nodesPos : 0 < r.rootNodes
  direntPos : 0 < dirent
  apart : Apart dirent direntBytes r.rootNodes (nodeBytes * names.length)
  name : ∀ i (hi : i < names.length), BytesAt r.mem (r.rootNodes + nodeBytes * i) names[i]
  mask : ∀ i < names.length, load32 r.mem (r.rootNodes + nodeBytes * i + maskOffset) = 0
  inode : ∀ i < names.length, load32 r.mem (r.rootNodes + nodeBytes * i + inodeOffset) = i
  nonzero : ∀ s ∈ names, 0 ∉ s
  nonempty : ∀ s ∈ names, s ≠ []
  short : ∀ s ∈ names, s.length < 128
  distinct : names.Nodup
  notDev : devName ∉ names

/-- `readdir_fs` gives an entry with this name and inode number. -/
def Lists (fns : Callbacks) (r : Initrd) (dirent node index : ℕ) (entry : List UInt8 × ℕ) : Prop :=
  ∃ m, r.readdirFs fns dirent node index = some (m,dirent) ∧ StringAt m (.addr dirent) entry.1 ∧
    load32 m (dirent + inoOffset) = entry.2

/-- What the two calls tell about a directory is the same: the entries up to the first 0, after which there are none,
have distinct names, these are the names that are found, and the inode numbers are those of the nodes. -/
def Agree (fns : Callbacks) (r : Initrd) (dirent node : ℕ) : Prop :=
  ∃ entries : List (List UInt8 × ℕ),
    (∀ k (hk : k < entries.length), Lists fns r dirent node k entries[k]) ∧
    (∀ k, entries.length ≤ k → k < 2 ^ 32 → r.readdirFs fns dirent node k = some (r.mem,0)) ∧
    (entries.map (·.1)).Nodup ∧
    ∀ q s, StringAt r.mem q s → ∃ p, r.finddirFs fns node q = some p ∧ (p ≠ 0 ↔ s ∈ entries.map (·.1)) ∧
      ∀ ino, (s,ino) ∈ entries → load32 r.mem (p + inodeOffset) = ino

section Calls
variable {fns : Callbacks} {r : Initrd} {dirent : ℕ} {names : List (List UInt8)}

theorem Listed.readdirFs (h : Listed fns r dirent names) {node : ℕ} (hd : DirectoryOf fns r.mem node) (index : ℕ) :
    r.readdirFs fns dirent node index = r.readdir dirent node index := by
  have hpos := h.readdirPos
  unfold Initrd.readdirFs
  rw [hd.flags, hd.readdir, u32_of_lt h.readdirLt, if_pos ⟨by decide,by omega⟩, if_pos rfl]

theorem DirectoryOf.finddirFs {node : ℕ} (hd : DirectoryOf fns r.mem node) (q : Str) :
    r.finddirFs fns node q = r.finddir node q := by
  have hpos := fns.finddir_pos
  unfold Initrd.finddirFs
  rw [hd.flags, hd.finddir, if_pos ⟨by decide,by omega⟩, if_pos rfl]

/-- The string that the calls see in a node ends at the mask at the latest. -/
theorem Listed.nodeName (h : Listed fns r dirent names) (i : ℕ) (hi : i < names.length) :
    ∃ t, StringAt r.mem (.addr (r.rootNodes + nodeBytes * i)) (names[i] ++ t) ∧ (names[i] ++ t).length ≤ 128 ∧
      (r.mem (r.rootNodes + nodeBytes * i + names[i].length) = 0 → t = []) := by
  have hshort := h.short _ (List.getElem_mem hi)
  obtain ⟨n,hn⟩ : ∃ n, names[i].length + n = 128 := ⟨128 - names[i].length,by omega⟩
  have hzero : r.mem (r.rootNodes + nodeBytes * i + 128) = 0 := load32_eq_zero (h.mask i hi)
  obtain ⟨t,ht,hlen⟩ := StringAt.exists_of_zero r.mem n (r.rootNodes + nodeBytes * i + names[i].length)
    (by rwa [Nat.add_assoc _ _ n, hn])
  refine ⟨t,.append (h.name i hi) (h.nonzero _ (List.getElem_mem hi)) ht,by rw [List.length_append]; omega,fun h0 => ?_⟩
  by_contra hne
  exact ht.byte_ne (List.length_pos_iff.mpr hne) h0

/-- Past the first entry: the file before the index. -/
theorem Listed.readdir_file (h : Listed fns r dirent names) (node : ℕ) {i : ℕ} (hi : i < names.length) {s : List UInt8}
    (hs : StringAt r.mem (.addr (r.rootNodes + nodeBytes * i)) s) (hne : s ≠ []) (hlen : s.length ≤ 128) :
    ∃ m, r.readdir dirent node (i + 1) = some (m,dirent) ∧ (s.length < 128 → StringAt m (.addr dirent) s) ∧
      load32 m (dirent + inoOffset) = i := by
  have hfew := h.few
  have hap := h.apart
  unfold Apart direntBytes nodeBytes at hap
  have hnode : (s.length + 1 : ℕ) ≤ 184 := by omega
  have hin := h.inode i hi
  generalize hf : r.rootNodes + nodeBytes * i = file at hs hin
  unfold nodeBytes at hf
  have hsub : sub32 (i + 1) 1 = i := sub32_of_le (Nat.le_add_left _ _)
  have hcpy : strcpy r.mem dirent (.addr file) = some (copy r.mem dirent s.length fun k => s.getD k 0) :=
    strcpy_spec hs hne (by omega) (by unfold Str.Clear Apart; omega)
  have hch : ChangedIn r.mem (copy r.mem dirent s.length fun k => s.getD k 0) dirent s.length := copy_changedIn _ _ _ _
  have hbytes := bytesAt_copy r.mem dirent s 0
  generalize (copy r.mem dirent s.length fun k => s.getD k 0) = m1 at hcpy hch hbytes
  have hstr : StringAt m1 (.addr file) s := hs.congr (hch.sameOn (by unfold Apart; omega))
  have hch2 := store8_changedIn m1 (dirent + s.length) 0
  have hin2 : load32 (store8 m1 (dirent + s.length) 0) (file + inodeOffset) = i := by
    rw [← hin]
    unfold inodeOffset
    rw [load32_congr (hch2.sameOn (by unfold Apart; omega)), load32_congr (hch.sameOn (by unfold Apart; omega))]
  have hcall : r.readdir dirent node (i + 1) =
      some (store32 (store8 m1 (dirent + s.length) 0) (dirent + inoOffset) i,dirent) := by
    unfold Initrd.readdir
    rw [if_neg (by omega), hsub, if_neg (by rw [h.count]; omega)]
    dsimp only
    unfold nodeBytes
    rw [hf, hcpy, Option.bind_eq_bind, Option.bind_some, strlen_spec hstr (by omega), Option.bind_eq_bind, Option.bind_some, hin2]
  refine ⟨_,hcall,fun hlt => ⟨fun k hk => ?_,?_,hs.nonzero⟩,?_⟩
  · simp only [Str.byte]
    unfold inoOffset
    rw [store32_sameOn _ _ (b := dirent + k) (k := 1) (by unfold Apart; omega) _ le_rfl (by omega), hch2 _ (by omega)]
    exact hbytes k hk
  · simp only [Str.byte]
    unfold inoOffset
    rw [store32_sameOn _ _ (b := dirent + s.length) (k := 1) (by unfold Apart; omega) _ le_rfl (by omega)]
    simp [store8]
  · rw [load32_store32, Nat.mod_eq_of_lt (by omega)]

theorem Listed.readdir_none (h : Listed fns r dirent names) {node index : ℕ} (hi : names.length < index) (hlt : index < 2 ^ 32) :
    r.readdir dirent node index = some (r.mem,0) := by
  unfold Initrd.readdir
  rw [if_neg (by omega), if_pos]
  rw [h.count, sub32_of_le (by omega)]
  omega

theorem Listed.readdir_dev_zero (h : Listed fns r dirent names) : r.readdir dirent r.dev 0 = some (r.mem,0) := by
  have hfew := h.few
  have hne := h.rootDev
  unfold Initrd.readdir
  rw [if_neg fun hc => hne hc.1.symm, if_pos]
  rw [h.count]
  have : sub32 0 1 = 2 ^ 32 - 1 := rfl
  omega

theorem Listed.readdir_root_zero (r : Initrd) (dirent : ℕ) :
    ∃ m, r.readdir dirent r.root 0 = some (m,dirent) ∧ StringAt m (.addr dirent) devName ∧ load32 m (dirent + inoOffset) = 0 := by
  have hcpy : strcpy r.mem dirent (.lit devName) = some (copy r.mem dirent devName.length fun k => devName.getD k 0) :=
    strcpy_spec (.lit r.mem (by decide)) (by decide) (by decide) trivial
  have hbytes := bytesAt_copy r.mem dirent devName 0
  generalize (copy r.mem dirent devName.length fun k => devName.getD k 0) = m1 at hcpy hbytes
  have hcall : r.readdir dirent r.root 0 = some (store32 (store8 m1 (dirent + 3) 0) (dirent + inoOffset) 0,dirent) := by
    unfold Initrd.readdir
    rw [if_pos ⟨rfl,rfl⟩, hcpy, Option.bind_eq_bind, Option.bind_some]
  refine ⟨_,hcall,⟨fun k hk => ?_,?_,by decide⟩,load32_store32 _ _ _⟩
  · have hk : k < 3 := hk
    simp only [Str.byte]
    unfold inoOffset
    rw [store32_sameOn _ _ (b := dirent + k) (k := 1) (by unfold Apart; omega) _ le_rfl (by omega),
      store8_changedIn m1 (dirent + 3) 0 _ (by omega)]
    exact hbytes k hk
  · change store32 _ _ _ (dirent + 3) = 0
    unfold inoOffset
    rw [store32_sameOn _ _ (b := dirent + 3) (k := 1) (by unfold Apart; omega) _ le_rfl (by omega)]
    simp [store8]

/-! ## When they agree -/

theorem Listed.agree_dev (h : Listed fns r dirent names) : Agree fns r dirent r.dev ↔ names = [] := by
  constructor
  · rintro ⟨entries,hlists,hnone,-⟩
    by_contra hne
    have hpos := h.direntPos
    -- the listing ends at once, and goes on at index 1
    have hlen : entries.length = 0 := by
      by_contra hc
      obtain ⟨m,hm,-⟩ := hlists 0 (by omega)
      rw [h.readdirFs h.dev, h.readdir_dev_zero] at hm
      have := (Prod.mk.inj (Option.some.inj hm)).2
      omega
    obtain ⟨t,ht,hlen',-⟩ := h.nodeName 0 (List.length_pos_iff.mpr hne)
    obtain ⟨m,hm,-⟩ := h.readdir_file r.dev (List.length_pos_iff.mpr hne) ht
      (fun hc => h.nonempty _ (List.getElem_mem _) (List.append_eq_nil_iff.mp hc).1) hlen'
    have h0 := hnone 1 (by omega) (by decide)
    rw [h.readdirFs h.dev, hm] at h0
    have := (Prod.mk.inj (Option.some.inj h0)).2
    omega
  · rintro rfl
    refine ⟨[],fun k hk => absurd hk (Nat.not_lt_zero _),fun k _ hk => ?_,by simp,fun q s hq => ⟨0,?_,by simp,by simp⟩⟩
    · rw [h.readdirFs h.dev]
      rcases Nat.eq_zero_or_pos k with rfl | hpos
      · exact h.readdir_dev_zero
      · exact h.readdir_none hpos hk
    · have hne := h.rootDev
      rw [h.dev.finddirFs]
      unfold Initrd.finddir
      rw [if_neg hne.symm, h.count]
      rfl

theorem Listed.agree_root (h : Listed fns r dirent names)
    (hzero : ∀ i (hi : i < names.length), r.mem (r.rootNodes + nodeBytes * i + names[i].length) = 0) :
    Agree fns r dirent r.root := by
  have hname : ∀ i (hi : i < names.length), StringAt r.mem (.addr (r.rootNodes + nodeBytes * i)) names[i] := by
    intro i hi
    obtain ⟨t,ht,-,hnil⟩ := h.nodeName i hi
    rwa [hnil (hzero i hi), List.append_nil] at ht
  have hmap : ((devName,0) :: names.zipIdx).map (·.1) = devName :: names := by
    rw [List.map_cons, List.zipIdx_map_fst]
  refine ⟨(devName,0) :: names.zipIdx,fun k hk => ?_,fun k hk hlt => ?_,?_,fun q s hq => ?_⟩
  · unfold Lists
    rw [h.readdirFs h.root]
    cases k with
    | zero => exact Listed.readdir_root_zero r dirent
    | succ i =>
      rw [List.length_cons, List.length_zipIdx] at hk
      have hi : i < names.length := by omega
      have hshort := h.short _ (List.getElem_mem hi)
      obtain ⟨m,hm,hstr,hino⟩ := h.readdir_file r.root hi (hname i hi) (h.nonempty _ (List.getElem_mem hi)) hshort.le
      refine ⟨m,hm,?_,?_⟩
      · simpa using hstr hshort
      · simpa using hino
  · rw [List.length_cons, List.length_zipIdx] at hk
    rw [h.readdirFs h.root]
    exact h.readdir_none hk hlt
  · rw [hmap]
    exact List.nodup_cons.mpr ⟨h.notDev,h.distinct⟩
  · rw [h.root.finddirFs, hmap]
    unfold Initrd.finddir
    rw [if_pos rfl, strcmp_spec hq (.lit r.mem (by decide)) (by decide), Option.bind_eq_bind, Option.bind_some]
    by_cases hdev : s = devName
    · subst hdev
      have hpos := h.devPos
      refine ⟨r.dev,by simp,iff_of_true (by omega) List.mem_cons_self,fun ino hmem => ?_⟩
      rcases List.mem_cons.mp hmem with heq | hmem
      · rw [(Prod.mk.inj heq).2]
        exact h.dev.inode
      · exact absurd (List.fst_mem_of_mem_zipIdx hmem) h.notDev
    · rw [decide_eq_true hdev, if_pos rfl, h.count]
      have hall : ∀ i ∈ List.range names.length, StringAt r.mem (.addr (r.rootNodes + nodeBytes * i)) (names.getD i []) ∧
          (names.getD i []).length ≤ 128 := by
        intro i hi
        have hi := List.mem_range.mp hi
        rw [List.getD_eq_getElem _ _ hi]
        exact ⟨hname i hi,(h.short _ (List.getElem_mem hi)).le⟩
      have hget {i : ℕ} (hi : i < names.length) : names.getD i [] = names[i] := List.getD_eq_getElem _ _ hi
      rcases findNode_spec hq (fun i => names.getD i []) _ hall with ⟨i,hi,heq,hfind⟩ | ⟨hno,hfind⟩
      · have hi := List.mem_range.mp hi
        rw [hget hi] at heq
        have hpos := h.nodesPos
        refine ⟨_,hfind,iff_of_true (by omega) (List.mem_cons_of_mem _ (heq ▸ List.getElem_mem hi)),fun ino hmem => ?_⟩
        rcases List.mem_cons.mp hmem with hc | hmem
        · exact absurd (Prod.mk.inj hc).1 hdev
        · obtain ⟨hlt,hino⟩ := List.mem_zipIdx' hmem
          have : i = ino := (List.Nodup.getElem_inj_iff h.distinct).mp (heq.trans hino)
          rw [← this]
          exact h.inode i hi
      · refine ⟨0,hfind,iff_of_false (by simp) fun hmem => ?_,fun ino hmem => ?_⟩
        · rcases List.mem_cons.mp hmem with hc | hmem
          · exact hdev hc
          · obtain ⟨i,hi,heq⟩ := List.getElem_of_mem hmem
            exact hno i (List.mem_range.mpr hi) ((hget hi).trans heq)
        · rcases List.mem_cons.mp hmem with hc | hmem
          · exact absurd (Prod.mk.inj hc).1 hdev
          · obtain ⟨hlt,hino⟩ := List.mem_zipIdx' hmem
            exact absurd ((hget hlt).trans hino.symm) (hno _ (List.mem_range.mpr hlt))

/-- For /dev the two calls agree only if there are no files; for the root they agree if the names in the nodes end
where they should. -/
theorem directories_agree (h : Listed fns r dirent names) :
    (Agree fns r dirent r.root ∧ Agree fns r dirent r.dev ↔ names = []) ∧
      ((∀ i (hi : i < names.length), r.mem (r.rootNodes + nodeBytes * i + names[i].length) = 0) → Agree fns r dirent r.root) := by
  refine ⟨⟨fun ha => h.agree_dev.mp ha.2,fun hnil => ⟨h.agree_root fun i hi => ?_,h.agree_dev.mpr hnil⟩⟩,h.agree_root⟩
  rw [hnil] at hi
  exact absurd hi (Nat.not_lt_zero _)

end Calls

/-! ## What `initialise_initrd` leaves -/

/-- The ramdisk of any image that the tool makes is listed. -/
theorem Placed.listed {m stack : Mem} {location root dev rootNodes : ℕ} {files : List InitrdFile}
    (p : Placed m stack location root dev rootNodes files) (fns : Callbacks) (dirent : ℕ) (hpos : 0 < fns.readdir)
    (hlt : fns.readdir < 2 ^ 32) (hdev : 0 < dev) (hdirent : 0 < dirent) (hap : Apart dirent direntBytes rootNodes (nodeBytes * files.length)) :
    ∃ r, initialiseInitrd fns m location root dev rootNodes = some r ∧ r.rootNodes = rootNodes ∧
      Mounted fns m r location files ∧ Listed fns r dirent (files.map (·.name)) := by
  obtain ⟨r,hcall,rfl,rfl,rfl,hr,hroot,hdir⟩ := p.initialise fns
  have hfew := p.few
  have hrd := p.rootDev
  unfold Apart nodeBytes at hrd
  have hget {i : ℕ} (hi : i < (files.map (·.name)).length) : i < files.length := by rwa [List.length_map] at hi
  refine ⟨r,hcall,rfl,hr,⟨hpos,hlt,?_,?_,hroot,hdir,by omega,hdev,p.nodesPos,hdirent,?_,fun i hi => ?_,fun i hi => ?_,
    fun i hi => ?_,fun s hs => ?_,fun s hs => ?_,fun s hs => ?_,p.distinct,fun hmem => ?_⟩⟩
  · rw [hr.count, List.length_map]
  · rw [List.length_map]
    omega
  · rwa [List.length_map]
  · rw [List.getElem_map]
    exact (hr.nodes i (hget hi)).name
  · exact (hr.nodes i (hget hi)).mask
  · exact (hr.nodes i (hget hi)).inode
  · obtain ⟨f,hf,rfl⟩ := List.mem_map.mp hs
    exact (p.valid f hf).nonzero
  · obtain ⟨f,hf,rfl⟩ := List.mem_map.mp hs
    exact (p.valid f hf).nonempty
  · obtain ⟨f,hf,rfl⟩ := List.mem_map.mp hs
    exact (p.valid f hf).short.trans (by decide)
  · obtain ⟨f,hf,hname⟩ := List.mem_map.mp hmem
    exact p.notDev f hf hname

theorem oneFile_listed : ∃ r, Listed someCallbacks r 0x300000 [[97]] ∧ r.rootNodes = 0x200200 ∧
    Mounted someCallbacks (oneFileMem 0) r 0x100000 oneFile := by
  obtain ⟨r,-,hnodes,hr,hl⟩ := (oneFile_placed 0).listed someCallbacks 0x300000 (by decide) (by decide) (by decide)
    (by decide) (.inr (by decide))
  exact ⟨r,hl,hnodes,hr⟩

theorem oneFile_root_agrees : ∃ r, Listed someCallbacks r 0x300000 [[97]] ∧ Agree someCallbacks r 0x300000 r.root := by
  obtain ⟨r,hl,hnodes,hr⟩ := oneFile_listed
  refine ⟨r,hl,(directories_agree hl).2 fun i hi => ?_⟩
  obtain rfl : i = 0 := Nat.lt_one_iff.mp hi
  have htail := hr.tails 0 (by decide) 1 (by decide) (by decide)
  rw [hnodes, oneFileMem_outside 0 _ (by omega)] at htail
  rw [hnodes]
  exact htail

theorem oneFile_dev_differs : ∃ r, Listed someCallbacks r 0x300000 [[97]] ∧
    ¬ (Agree someCallbacks r 0x300000 r.root ∧ Agree someCallbacks r 0x300000 r.dev) := by
  obtain ⟨r,hl,-⟩ := oneFile_listed
  exact ⟨r,hl,fun ha => absurd (hl.agree_dev.mp ha.2) (by simp)⟩

end X86OsDev.Tutorial
