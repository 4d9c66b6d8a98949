import X86OsDev.Tutorial.Initrd
import Mathlib.Algebra.BigOperators.Fin
import Mathlib.Algebra.Order.BigOperators.Group.Finset

/-! # Decoding the ramdisk

The kernel's `strcpy` leaves out the zero byte, so the name of a node ends where
the memory from `kmalloc` happens to hold a zero. The ramdisk decodes as it should
exactly when that memory has a zero after every name.
-/
namespace X86OsDev.Tutorial
open Memory

/-- The node of file `i`. -/
structure NodeOf (fns : Callbacks) (m : Mem) (node i : ℕ) (f : InitrdFile) : Prop where
  name : BytesAt m node f.name
  mask : load32 m (node + maskOffset) = 0
  flags : load32 m (node + flagsOffset) = fsFile
  inode : load32 m (node + inodeOffset) = i
  length : load32 m (node + lengthOffset) = f.data.length
  read : load32 m (node + readOffset) = fns.read

section Node
variable {fns : Callbacks} {m m' : Mem} {node i : ℕ} {f : InitrdFile}

theorem NodeOf.congr (h : NodeOf fns m node i f) (hf : f.Valid) (hm : SameOn m' m node nodeBytes) :
    NodeOf fns m' node i f := by
  have hshort := hf.short
  unfold nodeBytes at hm
  have hword : ∀ k, k + 4 ≤ 184 → load32 m' (node + k) = load32 m (node + k) := fun k hk =>
    load32_congr (hm.mono (by omega) (by omega))
  exact ⟨h.name.congr (hm.mono le_rfl (by omega)),(hword _ (by decide)).trans h.mask,(hword _ (by decide)).trans h.flags,
    (hword _ (by decide)).trans h.inode,(hword _ (by decide)).trans h.length,(hword _ (by decide)).trans h.read⟩

/-- One round of the loop: the offset is rebased, and the node has the name, without its end, and the fields. -/
theorem initialiseFile_spec (fns : Callbacks) (location : ℕ) {fileHeaders rootNodes header off : ℕ} (hheader : fileHeaders + headerBytes * i = header)
    (hnode : rootNodes + nodeBytes * i = node) (hh : HeaderOf m header f off) (hf : f.Valid)
    (hapart : Apart node nodeBytes header headerBytes) (hoff : off + location < 2 ^ 32) (hi : i < 2 ^ 32)
    (hlen : f.data.length < 2 ^ 32) :
    ∃ m', initialiseFile fns location fileHeaders rootNodes m i = some m' ∧ NodeOf fns m' node i f ∧
      load32 m' (header + 68) = off + location ∧
      ∀ x, ¬ (header + 68 ≤ x ∧ x < header + 72) → ¬ (node ≤ x ∧ x < node + f.name.length) →
        ¬ (node + 128 ≤ x ∧ x < node + 180) → m' x = m x := by
  have hshort := hf.short
  unfold Apart nodeBytes headerBytes at hapart
  set m1 := store32 m (header + 68) (off + location) with hm1
  have hch1 := store32_changedIn m (header + 68) (off + location)
  have hname : StringAt m1 (.addr (header + 1)) f.name := hh.name.congr (hch1.sameOn (by unfold Apart; omega))
  have hcpy : strcpy m1 node (.addr (header + 1)) = some (copy m1 node f.name.length fun k => f.name.getD k 0) :=
    strcpy_spec hname hf.nonempty (by omega) (by unfold Str.Clear Apart; omega)
  set m2 := copy m1 node f.name.length fun k => f.name.getD k 0 with hm2
  have hch2 : ChangedIn m1 m2 node f.name.length := copy_changedIn m1 node _ _
  have hlength : load32 m2 (header + 72) = f.data.length :=
    (load32_congr (hch2.sameOn (by unfold Apart; omega))).trans
      ((load32_congr (hch1.sameOn (by unfold Apart; omega))).trans hh.length)
  set ws := [0,0,0,fsFile,i,f.data.length,0,fns.read,0,0,0,0,0] with hws
  have hcall : initialiseFile fns location fileHeaders rootNodes m i = some (storeWords m2 (node + maskOffset) ws) := by
    unfold initialiseFile
    simp only [hheader, hnode, hh.offset, u32_of_lt hoff]
    rw [← hm1, hcpy, Option.bind_eq_bind, Option.bind_some, hlength]
  have hsame : ∀ b k, Apart (node + 128) 52 b k → SameOn (storeWords m2 (node + maskOffset) ws) m2 b k :=
    fun b k hb => storeWords_sameOn ws hb
  have hget : ∀ k (hk : k < 13), load32 (storeWords m2 (node + maskOffset) ws) (node + 128 + 4 * k) =
      ws.get ⟨k,hk⟩ % 2 ^ 32 := fun k hk => load32_storeWords ws hk
  refine ⟨_,hcall,⟨?_,?_,?_,?_,?_,?_⟩,?_,?_⟩
  · exact (bytesAt_copy m1 node f.name 0).congr (hsame _ _ (by unfold Apart; omega))
  · exact hget 0 (by decide)
  · exact hget 3 (by decide)
  · exact (hget 4 (by decide)).trans (Nat.mod_eq_of_lt hi)
  · exact (hget 5 (by decide)).trans (Nat.mod_eq_of_lt hlen)
  · exact (hget 7 (by decide)).trans (Nat.mod_eq_of_lt fns.read_lt)
  · rw [load32_congr (hsame _ _ (by unfold Apart; omega)), load32_congr (hch2.sameOn (by unfold Apart; omega)), hm1,
      load32_store32, Nat.mod_eq_of_lt hoff]
  · intro x h1 h2 h3
    rw [hsame x 1 (by unfold Apart; omega) x le_rfl (by omega), hch2 x (by omega)]
    exact hch1 x (by omega)

end Node

/-! ## The loop -/

/-- The ramdisk is in memory at `location`, and the memory from `kmalloc` lies apart from it. -/
structure Placed (m stack : Mem) (location root dev rootNodes : ℕ) (files : List InitrdFile) : Prop where
  few : files.length ≤ 63
  valid : ∀ f ∈ files, f.Valid
  distinct : (files.map (·.name)).Nodup
  notDev : ∀ f ∈ files, f.name ≠ devName
  fits : location + dataStart + sizeBefore files files.length < 2 ^ 32
  image : BytesAt m location (makeInitrd stack files)
  nodesPos : 0 < rootNodes
  rootApart : Apart root nodeBytes location (dataStart + sizeBefore files files.length)
  devApart : Apart dev nodeBytes location (dataStart + sizeBefore files files.length)
  nodesApart : Apart rootNodes (nodeBytes * files.length) location (dataStart + sizeBefore files files.length)
  rootDev : Apart root nodeBytes dev nodeBytes
  rootNodesApart : Apart root nodeBytes rootNodes (nodeBytes * files.length)
  devNodesApart : Apart dev nodeBytes rootNodes (nodeBytes * files.length)

/-- The memory after `k` rounds of the loop that started with `m0`. -/
structure Rounds (fns : Callbacks) (m0 m : Mem) (location rootNodes : ℕ) (files : List InitrdFile) (k : ℕ) : Prop where
  nodes : ∀ i (hi : i < files.length), i < k → NodeOf fns m (rootNodes + nodeBytes * i) i files[i]
  tails : ∀ i (hi : i < files.length), i < k → ∀ j, files[i].name.length ≤ j → j < 128 →
    m (rootNodes + nodeBytes * i + j) = m0 (rootNodes + nodeBytes * i + j)
  offsets : ∀ i < k, load32 m (location + 4 + headerBytes * i + 68) = dataStart + sizeBefore files i + location
  same : ∀ x, (∀ i < k, ¬ (location + 4 + headerBytes * i + 68 ≤ x ∧ x < location + 4 + headerBytes * i + 72)) →
    ¬ (rootNodes ≤ x ∧ x < rootNodes + nodeBytes * k) → m x = m0 x

section Loop
variable {fns : Callbacks} {m0 m : Mem} {location rootNodes : ℕ} {files : List InitrdFile}

theorem sizeBefore_mono (files : List InitrdFile) {i j : ℕ} (h : i ≤ j) : sizeBefore files i ≤ sizeBefore files j := by
  have hsub : (files.take i).Sublist (files.take j) := by
    have htake : files.take i = (files.take j).take i := by rw [List.take_take, Nat.min_eq_left h]
    rw [htake]
    exact List.take_sublist _ _
  exact (hsub.map _).sum_le_sum (by simp)

theorem sizeBefore_succ (files : List InitrdFile) {i : ℕ} (hi : i < files.length) :
    sizeBefore files (i + 1) = sizeBefore files i + files[i].data.length := by
  unfold sizeBefore
  rw [List.take_succ_eq_append_getElem hi, List.map_append, List.sum_append]
  rfl

theorem Rounds.next {k : ℕ} (h : Rounds fns m0 m location rootNodes files k) (hk : k < files.length)
    (hfew : files.length ≤ 63) (hvalid : ∀ f ∈ files, f.Valid) (himage : ImageAt m0 location files)
    (hfits : location + dataStart + sizeBefore files files.length < 2 ^ 32)
    (hapart : Apart rootNodes (nodeBytes * files.length) location (dataStart + sizeBefore files files.length)) :
    ∃ m', initialiseFile fns location (location + 4) rootNodes m k = some m' ∧
      Rounds fns m0 m' location rootNodes files (k + 1) := by
  have hf := hvalid _ (List.getElem_mem hk)
  have hshort := hf.short
  have hle := sizeBefore_mono files hk
  rw [Nat.succ_eq_add_one, sizeBefore_succ files hk] at hle
  have hdata : dataStart = 4868 := rfl
  unfold Apart nodeBytes at hapart
  have hsame : SameOn m m0 (location + 4 + headerBytes * k) headerBytes := by
    intro x h1 h2
    unfold headerBytes at h1 h2
    refine h.same x (fun i hi => ?_) ?_
    · unfold headerBytes
      omega
    · unfold nodeBytes
      omega
  obtain ⟨m',hcall,hnode,hoff,hrest⟩ := initialiseFile_spec fns location rfl
    (rfl : rootNodes + nodeBytes * k = rootNodes + nodeBytes * k) ((himage.headers k hk).congr hf.short hsame) hf
    (by unfold Apart nodeBytes headerBytes; omega) (by omega) (by omega) (by omega)
  unfold headerBytes nodeBytes at hrest
  refine ⟨m',hcall,⟨fun i hi hik => ?_,fun i hi hik j hj1 hj2 => ?_,fun i hik => ?_,fun x hx1 hx2 => ?_⟩⟩
  · rcases Nat.lt_or_eq_of_le (Nat.le_of_lt_succ hik) with hlt | rfl
    · refine (h.nodes i hi hlt).congr (hvalid _ (List.getElem_mem hi)) fun x h1 h2 => ?_
      unfold nodeBytes at h2
      exact hrest x (by omega) (by omega) (by omega)
    · exact hnode
  · rcases Nat.lt_or_eq_of_le (Nat.le_of_lt_succ hik) with hlt | rfl
    · rw [← h.tails i hi hlt j hj1 hj2]
      unfold nodeBytes
      exact hrest _ (by omega) (by omega) (by omega)
    · unfold nodeBytes
      rw [hrest _ (by omega) (by omega) (by omega)]
      refine h.same _ (fun i' hi' => ?_) ?_
      · unfold headerBytes
        omega
      · unfold nodeBytes
        omega
  · rcases Nat.lt_or_eq_of_le (Nat.le_of_lt_succ hik) with hlt | rfl
    · rw [← h.offsets i hlt]
      refine load32_congr fun x h1 h2 => ?_
      unfold headerBytes at h1 h2
      exact hrest x (by omega) (by omega) (by omega)
    · exact hoff
  · have hk1 := hx1 k (Nat.lt_succ_self k)
    unfold headerBytes at hk1
    unfold nodeBytes at hx2
    rw [hrest x hk1 (by omega) (by omega)]
    refine h.same x (fun i hi => hx1 i (Nat.lt_succ_of_lt hi)) ?_
    unfold nodeBytes
    omega

/-- All rounds. -/
theorem Rounds.all (fns : Callbacks) (hfew : files.length ≤ 63) (hvalid : ∀ f ∈ files, f.Valid) (himage : ImageAt m0 location files)
    (hfits : location + dataStart + sizeBefore files files.length < 2 ^ 32)
    (hapart : Apart rootNodes (nodeBytes * files.length) location (dataStart + sizeBefore files files.length))
    (k : ℕ) (hk : k ≤ files.length) :
    ∃ m', (List.range k).foldlM (initialiseFile fns location (location + 4) rootNodes) m0 = some m' ∧
      Rounds fns m0 m' location rootNodes files k := by
  induction k with
  | zero =>
    exact ⟨m0,rfl,fun _ _ h => absurd h (Nat.not_lt_zero _),fun _ _ h => absurd h (Nat.not_lt_zero _),
      fun _ h => absurd h (Nat.not_lt_zero _),fun _ _ _ => rfl⟩
  | succ k ih =>
    obtain ⟨m1,hrun,hr⟩ := ih (Nat.le_of_succ_le hk)
    obtain ⟨m2,hstep,hr2⟩ := hr.next hk hfew hvalid himage hfits hapart
    refine ⟨m2,?_,hr2⟩
    rw [List.range_succ, List.foldlM_append, hrun]
    simp [hstep]

end Loop

/-! ## What `initialise_initrd` leaves -/

/-- The ramdisk that `initialise_initrd` makes from the memory `m`. -/
structure Mounted (fns : Callbacks) (m : Mem) (r : Initrd) (location : ℕ) (files : List InitrdFile) : Prop where
  headers : r.fileHeaders = location + 4
  count : r.nrootNodes = files.length
  flags : load32 r.mem (r.root + flagsOffset) = fsDirectory
  finddir : load32 r.mem (r.root + finddirOffset) = fns.finddir
  nodes : ∀ i (hi : i < files.length), NodeOf fns r.mem (r.rootNodes + nodeBytes * i) i files[i]
  tails : ∀ i (hi : i < files.length), ∀ j, files[i].name.length ≤ j → j < 128 →
    r.mem (r.rootNodes + nodeBytes * i + j) = m (r.rootNodes + nodeBytes * i + j)
  offsets : ∀ i < files.length, load32 r.mem (location + 4 + headerBytes * i + 68) = location + dataStart + sizeBefore files i
  lengths : ∀ i (hi : i < files.length), load32 r.mem (location + 4 + headerBytes * i + 72) = files[i].data.length
  data : ∀ i (hi : i < files.length), BytesAt r.mem (location + dataStart + sizeBefore files i) files[i].data

section Mounted
variable {fns : Callbacks} {m stack : Mem} {location root dev rootNodes : ℕ} {files : List InitrdFile}

/-- The words of a directory node that the calls through it look at. -/
structure DirectoryOf (fns : Callbacks) (m : Mem) (node : ℕ) : Prop where
  flags : load32 m (node + flagsOffset) = fsDirectory
  inode : load32 m (node + inodeOffset) = 0
  readdir : load32 m (node + readdirOffset) = u32 fns.readdir
  finddir : load32 m (node + finddirOffset) = fns.finddir

theorem DirectoryOf.congr {m m' : Mem} {node : ℕ} (h : DirectoryOf fns m node) (hm : SameOn m' m node nodeBytes) :
    DirectoryOf fns m' node := by
  have hword : ∀ k, k + 4 ≤ nodeBytes → load32 m' (node + k) = load32 m (node + k) := fun k hk =>
    load32_congr (hm.mono (by omega) (by omega))
  exact ⟨(hword _ (by decide)).trans h.flags,(hword _ (by decide)).trans h.inode,(hword _ (by decide)).trans h.readdir,
    (hword _ (by decide)).trans h.finddir⟩

theorem directory_spec (fns : Callbacks) (m : Mem) (node : ℕ) {s : List UInt8} (hs : s ≠ []) (h0 : 0 ∉ s) (hlen : s.length ≤ 128) :
    ∃ m1, strcpy m node (.lit s) = some m1 ∧ ChangedIn m (writeDirectory fns m1 node) node nodeBytes ∧
      DirectoryOf fns (writeDirectory fns m1 node) node := by
  set ws := [0,0,0,fsDirectory,0,0,0,0,0,0,0,fns.readdir,fns.finddir,0] with hws
  have hget : ∀ m1 k (hk : k < 14), load32 (writeDirectory fns m1 node) (node + 128 + 4 * k) = ws.get ⟨k,hk⟩ % 2 ^ 32 :=
    fun m1 k hk => load32_storeWords ws hk
  refine ⟨_,strcpy_spec (.lit m h0) hs (by omega) trivial,?_,hget _ 3 (by decide),hget _ 4 (by decide),
    hget _ 11 (by decide),(hget _ 12 (by decide)).trans (Nat.mod_eq_of_lt fns.finddir_lt)⟩
  refine ((copy_changedIn m node _ _).mono le_rfl (by unfold nodeBytes; omega)).trans
    ((ChangedIn.of_sameOn fun b k h => storeWords_sameOn ws h).mono (by omega) ?_)
  unfold maskOffset nodeBytes
  simp [hws]

theorem ImageAt.congr {m m' : Mem} (h : ImageAt m location files) (hfew : files.length ≤ 63) (hvalid : ∀ f ∈ files, f.Valid)
    (hm : SameOn m' m location (dataStart + sizeBefore files files.length)) : ImageAt m' location files where
  count := (load32_congr (hm.mono le_rfl (by unfold dataStart; omega))).trans h.count
  headers k hk := (h.headers k hk).congr (hvalid _ (List.getElem_mem hk)).short
    (hm.mono (by omega) (by unfold dataStart headerBytes maxHeaders; omega))
  data k hk := by
    have hle := sizeBefore_mono files hk
    rw [Nat.succ_eq_add_one, sizeBefore_succ files hk] at hle
    exact (h.data k hk).congr (hm.mono (by omega) (by omega))

theorem Placed.initialise (p : Placed m stack location root dev rootNodes files) (fns : Callbacks) :
    ∃ r, initialiseInitrd fns m location root dev rootNodes = some r ∧ r.root = root ∧ r.dev = dev ∧
      r.rootNodes = rootNodes ∧ Mounted fns m r location files ∧ DirectoryOf fns r.mem root ∧ DirectoryOf fns r.mem dev := by
  have himage := imageAt_of_bytes p.few p.valid (by have := p.fits; omega) p.image
  obtain ⟨m1,hcpy1,hch1,hdir1⟩ := directory_spec fns m root (s := initrdName) (by decide) (by decide) (by decide)
  obtain ⟨m2,hcpy2,hch2,hdir2⟩ := directory_spec fns (writeDirectory fns m1 root) dev (s := devName) (by decide) (by decide) (by decide)
  generalize hm3 : writeDirectory fns m2 dev = m3 at hch2 hdir2
  have hsame : SameOn m3 m location (dataStart + sizeBefore files files.length) := fun x h1 h2 =>
    (hch2.sameOn p.devApart x h1 h2).trans (hch1.sameOn p.rootApart x h1 h2)
  have himage3 := himage.congr p.few p.valid hsame
  obtain ⟨m4,hrun,hr⟩ := Rounds.all fns p.few p.valid himage3 p.fits p.nodesApart files.length le_rfl
  have hcall : initialiseInitrd fns m location root dev rootNodes =
      some ⟨m4,location + 4,root,dev,rootNodes,files.length⟩ := by
    unfold initialiseInitrd
    rw [hcpy1, Option.bind_eq_bind, Option.bind_some]
    dsimp only
    rw [hcpy2, Option.bind_some, hm3, himage3.count, hrun, Option.bind_some]
  have hfew := p.few
  have hdata : dataStart = 4868 := rfl
  have hra := p.rootApart
  have hna := p.nodesApart
  have hrn := p.rootNodesApart
  have hdn := p.devNodesApart
  have hrd := p.rootDev
  unfold Apart nodeBytes at hra hna hrn hdn hrd
  have hroot : DirectoryOf fns m4 root := hdir1.congr fun x h1 h2 => by
    unfold nodeBytes at h2
    rw [hr.same x (fun i hi => by unfold headerBytes; omega) (by unfold nodeBytes; omega)]
    exact hch2 x (by unfold nodeBytes; omega)
  have hda := p.devApart
  unfold Apart nodeBytes at hda
  have hdev : DirectoryOf fns m4 dev := hdir2.congr fun x h1 h2 => by
    unfold nodeBytes at h2
    exact hr.same x (fun i hi => by unfold headerBytes; omega) (by unfold nodeBytes; omega)
  refine ⟨_,hcall,rfl,rfl,rfl,⟨rfl,rfl,hroot.flags,hroot.finddir,fun i hi => hr.nodes i hi hi,fun i hi j hj1 hj2 => ?_,
    fun i hi => ?_,fun i hi => ?_,fun i hi => ?_⟩,hroot,hdev⟩
  · dsimp only
    rw [hr.tails i hi hi j hj1 hj2]
    unfold nodeBytes at hch1 hch2 ⊢
    rw [hch2 _ (by omega), hch1 _ (by omega)]
  · have := hr.offsets i hi
    dsimp only
    omega
  · rw [← (himage3.headers i hi).length]
    refine load32_congr fun x h1 h2 => ?_
    unfold headerBytes at h1 h2
    exact hr.same x (fun j hj => by unfold headerBytes; omega) (by unfold nodeBytes; omega)
  · have hle := sizeBefore_mono files hi
    rw [Nat.succ_eq_add_one, sizeBefore_succ files hi] at hle
    refine (himage3.data i hi).congr fun x h1 h2 => ?_
    exact hr.same x (fun j hj => by unfold headerBytes; omega) (by unfold nodeBytes; omega)

/-- The name that `strcmp` sees in a node: the name of the file and whatever follows it up to a zero byte. -/
theorem Mounted.nodeName {r : Initrd} (h : Mounted fns m r location files) (hvalid : ∀ f ∈ files, f.Valid) (i : ℕ)
    (hi : i < files.length) : ∃ t, StringAt r.mem (.addr (r.rootNodes + nodeBytes * i)) (files[i].name ++ t) ∧
      (files[i].name ++ t).length ≤ 128 ∧
      (t = [] ↔ m (r.rootNodes + nodeBytes * i + files[i].name.length) = 0) := by
  have hf := hvalid _ (List.getElem_mem hi)
  have hshort := hf.short
  obtain ⟨n,hn⟩ : ∃ n, files[i].name.length + n = 128 := ⟨128 - files[i].name.length,by omega⟩
  -- the mask after the name is zero
  have hzero : r.mem (r.rootNodes + nodeBytes * i + 128) = 0 := load32_eq_zero (h.nodes i hi).mask
  obtain ⟨t,ht,hlen⟩ := StringAt.exists_of_zero r.mem n (r.rootNodes + nodeBytes * i + files[i].name.length)
    (by rwa [Nat.add_assoc _ _ n, hn])
  have hall := StringAt.append (h.nodes i hi).name hf.nonzero ht
  refine ⟨t,hall,by rw [List.length_append]; omega,?_⟩
  have htail := h.tails i hi files[i].name.length le_rfl (by omega)
  rw [← htail]
  constructor
  · rintro rfl
    exact ht.stop
  · intro h0
    by_contra hne
    have hpos := List.length_pos_iff.mpr hne
    exact ht.byte_ne hpos h0

/-- The loop of `initrd_finddir`: the first node with this name. -/
theorem findNode_spec {r : Initrd} {q : Str} {s : List UInt8} (hq : StringAt r.mem q s) (names : ℕ → List UInt8) (is : List ℕ)
    (hnames : ∀ i ∈ is, StringAt r.mem (.addr (r.rootNodes + nodeBytes * i)) (names i) ∧ (names i).length ≤ 128) :
    (∃ i ∈ is, names i = s ∧ r.findNode q is = some (r.rootNodes + nodeBytes * i)) ∨
      ((∀ i ∈ is, names i ≠ s) ∧ r.findNode q is = some 0) := by
  induction is with
  | nil => exact .inr ⟨fun _ h => absurd h List.not_mem_nil,rfl⟩
  | cons i is ih =>
    obtain ⟨hi,hlen⟩ := hnames i List.mem_cons_self
    have hcmp := strcmp_spec hq hi (by omega)
    rw [Initrd.findNode, hcmp, Option.bind_eq_bind, Option.bind_some]
    by_cases heq : s = names i
    · rw [decide_eq_false (not_not.mpr heq)]
      exact .inl ⟨i,List.mem_cons_self,heq.symm,rfl⟩
    · rw [decide_eq_true heq, if_pos rfl]
      rcases ih fun j hj => hnames j (List.mem_cons_of_mem _ hj) with ⟨j,hj,h1,h2⟩ | ⟨h1,h2⟩
      · exact .inl ⟨j,List.mem_cons_of_mem _ hj,h1,h2⟩
      · refine .inr ⟨fun j hj => ?_,h2⟩
        rcases List.mem_cons.mp hj with rfl | hj
        · exact fun h => heq h.symm
        · exact h1 j hj

/-- `finddir_fs` on the root, for a name that is not dev. -/
theorem Mounted.finddirFs {r : Initrd} (h : Mounted fns m r location files) {q : Str} {s : List UInt8} (hq : StringAt r.mem q s)
    (hdev : s ≠ devName) : r.finddirFs fns r.root q = r.findNode q (List.range files.length) := by
  unfold Initrd.finddirFs
  rw [h.flags, h.finddir, if_pos ⟨by decide,by have := fns.finddir_pos; omega⟩, if_pos rfl]
  unfold Initrd.finddir
  rw [if_pos rfl, strcmp_spec hq (.lit r.mem (by decide)) (by decide), Option.bind_eq_bind, Option.bind_some,
    decide_eq_true hdev, if_pos rfl, h.count]

/-- `read_fs` on a node copies the data of the file. -/
theorem Mounted.readFs {r : Initrd} (h : Mounted fns m r location files) (hfits : location + dataStart + sizeBefore files files.length < 2 ^ 32)
    (i : ℕ) (hi : i < files.length) (buffer : ℕ)
    (hbuf : Apart buffer files[i].data.length location (dataStart + sizeBefore files files.length)) :
    ∃ m', r.readFs fns (r.rootNodes + nodeBytes * i) 0 files[i].data.length buffer = some (m',files[i].data.length) ∧
      BytesAt m' buffer files[i].data := by
  have hle := sizeBefore_mono files hi
  rw [Nat.succ_eq_add_one, sizeBefore_succ files hi] at hle
  have hnode := h.nodes i hi
  unfold Apart at hbuf
  unfold Initrd.readFs
  rw [hnode.read, if_pos (by have := fns.read_pos; omega), if_pos rfl]
  unfold Initrd.read
  simp only [hnode.inode, h.headers, h.offsets i hi, h.lengths i hi, Nat.zero_add, Nat.add_zero]
  rw [if_neg (Nat.not_lt_zero _), u32_of_lt (by omega), u32_of_lt (show files[i].data.length < 2 ^ 32 by omega),
    if_neg (lt_irrefl _), memcpy_spec _ _ _ _ (by unfold Apart; omega)]
  refine ⟨_,rfl,fun k hk => ?_⟩
  simp only [copy]
  rw [if_pos (by omega), Nat.add_sub_cancel_left, h.data i hi k hk]

end Mounted

/-! ## The round trip -/

/-- Every file is found under its name, with its length and its bytes, and no other name but dev is found. -/
structure Decoded (fns : Callbacks) (r : Initrd) (location : ℕ) (files : List InitrdFile) : Prop where
  found : ∀ f ∈ files, ∀ q, StringAt r.mem q f.name → ∃ node, r.finddirFs fns r.root q = some node ∧ node ≠ 0 ∧
    load32 r.mem (node + flagsOffset) = fsFile ∧ load32 r.mem (node + lengthOffset) = f.data.length ∧
    ∀ buffer, Apart buffer f.data.length location (dataStart + sizeBefore files files.length) →
      ∃ m', r.readFs fns node 0 f.data.length buffer = some (m',f.data.length) ∧ BytesAt m' buffer f.data
  missing : ∀ s q, StringAt r.mem q s → (∀ f ∈ files, s ≠ f.name) → s ≠ devName → r.finddirFs fns r.root q = some 0

section Decode
variable {fns : Callbacks} {m stack : Mem} {location root dev rootNodes : ℕ} {files : List InitrdFile} {r : Initrd}

/-- No two files have the same name. -/
theorem Placed.index_eq (p : Placed m stack location root dev rootNodes files) {i j : ℕ} (hi : i < files.length)
    (hj : j < files.length) (h : files[i].name = files[j].name) : i = j := by
  have hsame := List.inj_on_of_nodup_map p.distinct (List.getElem_mem hi) (List.getElem_mem hj) h
  exact (List.Nodup.getElem_inj_iff p.distinct.of_map).mp hsame

/-- A zero byte after each name is enough. -/
theorem Mounted.decoded (h : Mounted fns m r location files) (p : Placed m stack location root dev r.rootNodes files)
    (hzero : ∀ i (hi : i < files.length), m (r.rootNodes + nodeBytes * i + files[i].name.length) = 0) :
    Decoded fns r location files := by
  have hname : ∀ i (hi : i < files.length), StringAt r.mem (.addr (r.rootNodes + nodeBytes * i)) files[i].name := by
    intro i hi
    obtain ⟨t,ht,-,hiff⟩ := h.nodeName p.valid i hi
    rwa [hiff.mpr (hzero i hi), List.append_nil] at ht
  have hall : ∀ i ∈ List.range files.length, StringAt r.mem (.addr (r.rootNodes + nodeBytes * i)) ((files.map (·.name)).getD i []) ∧
      ((files.map (·.name)).getD i []).length ≤ 128 := by
    intro i hi
    have hi := List.mem_range.mp hi
    rw [List.getD_eq_getElem _ _ (by rwa [List.length_map]), List.getElem_map]
    exact ⟨hname i hi,by have := (p.valid _ (List.getElem_mem hi)).short; omega⟩
  constructor
  · intro f hf q hq
    obtain ⟨k,hk,rfl⟩ := List.getElem_of_mem hf
    rw [h.finddirFs hq (p.notDev _ hf)]
    rcases findNode_spec hq _ _ hall with ⟨i,hi,heq,hfind⟩ | ⟨hno,-⟩
    · have hi := List.mem_range.mp hi
      obtain rfl : i = k := by
        rw [List.getD_eq_getElem _ _ (by rwa [List.length_map]), List.getElem_map] at heq
        exact p.index_eq hi hk heq
      have hpos := p.nodesPos
      exact ⟨_,hfind,by omega,(h.nodes i hi).flags,(h.nodes i hi).length,fun buffer hb => h.readFs p.fits i hi buffer hb⟩
    · refine absurd ?_ (hno k (List.mem_range.mpr hk))
      rw [List.getD_eq_getElem _ _ (by rwa [List.length_map]), List.getElem_map]
  · intro s q hq hs hdev
    rw [h.finddirFs hq hdev]
    rcases findNode_spec hq _ _ hall with ⟨i,hi,heq,-⟩ | ⟨-,hfind⟩
    · have hi := List.mem_range.mp hi
      rw [List.getD_eq_getElem _ _ (by rwa [List.length_map]), List.getElem_map] at heq
      exact absurd heq.symm (hs _ (List.getElem_mem hi))
    · exact hfind

/-- Every name is found in a node of its own, and no node has a name shorter than its file's, so no name is longer. -/
theorem Decoded.zero (hd : Decoded fns r location files) (h : Mounted fns m r location files)
    (p : Placed m stack location root dev r.rootNodes files) (i : ℕ) (hi : i < files.length) :
    m (r.rootNodes + nodeBytes * i + files[i].name.length) = 0 := by
  choose t ht hlen hiff using fun i : Fin files.length => h.nodeName p.valid i.1 i.2
  have hnode : ∀ i : Fin files.length, ∃ k : Fin files.length, files[k].name ++ t k = files[i].name := by
    intro i
    have hf := List.getElem_mem i.2
    have hq := StringAt.lit r.mem (p.valid _ hf).nonzero
    obtain ⟨node,hfind,hne,-⟩ := hd.found _ hf _ hq
    rw [h.finddirFs hq (p.notDev _ hf)] at hfind
    rcases findNode_spec hq (fun k => if hk : k < files.length then files[k].name ++ t ⟨k,hk⟩ else [])
      (List.range files.length) (fun k hk => by
        have hk := List.mem_range.mp hk
        rw [dif_pos hk]
        exact ⟨ht ⟨k,hk⟩,hlen ⟨k,hk⟩⟩) with ⟨k,hk,heq,-⟩ | ⟨-,hnone⟩
    · have hk := List.mem_range.mp hk
      rw [dif_pos hk] at heq
      exact ⟨⟨k,hk⟩,heq⟩
    · rw [hfind] at hnone
      exact absurd (Option.some.inj hnone) hne
  choose k hk using hnode
  have hinj : Function.Injective k := by
    intro i j hij
    have heq : files[i].name = files[j].name := by rw [← hk i, ← hk j, hij]
    exact Fin.ext (p.index_eq i.2 j.2 heq)
  have hsum : ∑ i : Fin files.length, files[i].name.length = ∑ i : Fin files.length, (files[i].name ++ t i).length := by
    calc ∑ i : Fin files.length, files[i].name.length
        = ∑ i : Fin files.length, (files[k i].name ++ t (k i)).length := Finset.sum_congr rfl fun i _ => by rw [hk i]
      _ = ∑ i : Fin files.length, (files[i].name ++ t i).length :=
        Equiv.sum_comp (Equiv.ofBijective k (Finite.injective_iff_bijective.mp hinj))
          fun i => (files[i].name ++ t i).length
  have hle : ∀ i ∈ (Finset.univ : Finset (Fin files.length)), files[i].name.length ≤ (files[i].name ++ t i).length := by
    intro i _
    rw [List.length_append]
    omega
  have heq := (Finset.sum_eq_sum_iff_of_le hle).mp hsum ⟨i,hi⟩ (Finset.mem_univ _)
  refine (hiff ⟨i,hi⟩).mp (List.length_eq_zero_iff.mp ?_)
  rw [List.length_append] at heq
  omega

/-- The kernel decodes what the tool encoded, whatever the memory held, exactly when it held a zero after each
name. -/
theorem initrd_decodes (p : Placed m stack location root dev rootNodes files) (fns : Callbacks) :
    ∃ r, initialiseInitrd fns m location root dev rootNodes = some r ∧
      (Decoded fns r location files ↔
        ∀ i (hi : i < files.length), m (rootNodes + nodeBytes * i + files[i].name.length) = 0) := by
  obtain ⟨r,hcall,-,-,rfl,hr,-,-⟩ := p.initialise fns
  exact ⟨r,hcall,fun hd => hd.zero hr p,hr.decoded p⟩

end Decode

/-! ## A ramdisk with one file -/

def oneFile : List InitrdFile := [⟨[97],[1,2,3]⟩]

/-- The image of one file at the first megabyte, in memory where every other byte is `c`. -/
def oneFileMem (c : UInt8) : Mem := fun x =>
  if 0x100000 ≤ x ∧ x < 0x100000 + (makeInitrd (fun _ => 0) oneFile).length then
    (makeInitrd (fun _ => 0) oneFile).getD (x - 0x100000) 0 else c

theorem oneFile_placed (c : UInt8) :
    Placed (oneFileMem c) (fun _ => 0) 0x100000 0x200000 0x200100 0x200200 oneFile where
  few := by decide
  valid f hf := by
    obtain rfl := List.mem_singleton.mp hf
    exact ⟨by decide,by decide,by decide⟩
  distinct := by decide
  notDev f hf := by
    obtain rfl := List.mem_singleton.mp hf
    decide
  fits := by decide
  image i hi := by
    unfold oneFileMem
    rw [if_pos ⟨by omega,by omega⟩, Nat.add_sub_cancel_left, List.getD_eq_getElem _ _ hi]
  nodesPos := by decide
  rootApart := .inr (by decide)
  devApart := .inr (by decide)
  nodesApart := .inr (by decide)
  rootDev := .inl (by decide)
  rootNodesApart := .inl (by decide)
  devNodesApart := .inl (by decide)

def someCallbacks : Callbacks := ⟨0x1000,0x1100,0x1200,by decide,by decide,by decide,by decide⟩

theorem oneFileMem_outside (c : UInt8) (x : ℕ) (hx : 0x200000 ≤ x) : oneFileMem c x = c := by
  have hlen : (makeInitrd (fun _ => 0) oneFile).length = 4871 := by
    simp [makeInitrd, oneFile, nheaders_eq (show 1 ≤ 63 by decide), headerBytes, maxHeaders, u32]
  unfold oneFileMem
  rw [if_neg (by omega)]

theorem oneFile_decoded : ∃ r, initialiseInitrd someCallbacks (oneFileMem 0) 0x100000 0x200000 0x200100 0x200200 = some r ∧
    Decoded someCallbacks r 0x100000 oneFile := by
  obtain ⟨r,hcall,hiff⟩ := initrd_decodes (oneFile_placed 0) someCallbacks
  exact ⟨r,hcall,hiff.mpr fun i _ => oneFileMem_outside 0 _ (by omega)⟩

/-- Memory that is not zero makes the name of the file longer. -/
theorem oneFile_lost : ∃ m stack location root dev rootNodes files fns r, Placed m stack location root dev rootNodes files ∧
    initialiseInitrd fns m location root dev rootNodes = some r ∧ ¬ Decoded fns r location files := by
  obtain ⟨r,hcall,-,-,hnodes,hr,-,-⟩ := (oneFile_placed 255).initialise someCallbacks
  refine ⟨_,_,_,_,_,_,_,_,r,oneFile_placed 255,hcall,fun hd => ?_⟩
  have hplaced := oneFile_placed 255
  rw [← hnodes] at hplaced
  have hzero := hd.zero hr hplaced 0 (by decide)
  rw [hnodes, oneFileMem_outside 255 _ (by omega)] at hzero
  exact absurd hzero (by decide)

end X86OsDev.Tutorial
