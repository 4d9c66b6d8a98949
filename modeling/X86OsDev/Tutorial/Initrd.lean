import X86OsDev.Lib.CString
import Mathlib.Algebra.Order.BigOperators.Group.List
import Mathlib.Algebra.Order.Ring.Nat

/-! # The initial ramdisk (make_initrd.c, initrd.c, fs.c and common.c of the tutorial kernel)

The host tool writes the image: the number of files, 64 headers and the data.
The kernel finds the image in memory, rebases the offsets in place and makes a
node for each file in memory from `kmalloc`. Loops over strings carry fuel for
the whole address space, and `none` means that a loop ran through it or that a
call goes through a pointer that is not one of the ramdisk's functions.
-/
namespace X86OsDev.Tutorial
open Memory

/-! ## common.c -/

/-- The loop of `strcmp` and what follows it: whether the comparison failed. -/
def strcmpLoop (m : Mem) (str1 str2 : Str) : ℕ → ℕ → Option Bool
  | 0, _ => none
  | fuel + 1, i =>
    if str1.byte m i ≠ 0 ∧ str2.byte m i ≠ 0 then
      if str1.byte m i ≠ str2.byte m i then some true else strcmpLoop m str1 str2 fuel (i + 1)
    else some (decide ((str1.byte m i = 0 ∧ str2.byte m i ≠ 0) ∨ (str1.byte m i ≠ 0 ∧ str2.byte m i = 0)))

/-- `strcmp` -/
def strcmp (m : Mem) (str1 str2 : Str) : Option Bool := strcmpLoop m str1 str2 (2 ^ 32) 0

def strcpyLoop (dest : ℕ) (src : Str) : ℕ → Mem → ℕ → Option Mem
  | 0, _, _ => none
  | fuel + 1, m, i =>
    let m := store8 m (dest + i) (src.byte m i).toNat
    if src.byte m (i + 1) ≠ 0 then strcpyLoop dest src fuel m (i + 1) else some m

/-- `strcpy`: the loop stops before it copies the zero byte. -/
def strcpy (m : Mem) (dest : ℕ) (src : Str) : Option Mem := strcpyLoop dest src (2 ^ 32) m 0

/-- `memcpy` -/
def memcpy (m : Mem) (dest src : ℕ) : ℕ → Mem
  | 0 => m
  | len + 1 => memcpy (store8 m dest (load8 m src)) (dest + 1) (src + 1) len

/-! ## make_initrd.c -/

/-- A file on the command line: the name it gets and what is in it. -/
structure InitrdFile where
  name : List UInt8
  data : List UInt8

/-- `sizeof(struct initrd_header)`: magic at 0, name at 1, offset at 68, length at 72 -/
def headerBytes : ℕ := 76
def maxHeaders : ℕ := 64
/-- Where the data starts in the image. -/
def dataStart : ℕ := headerBytes * maxHeaders + 4

/-- One round of the first loop of `main`; the host's `strcpy` copies the zero byte. -/
def makeHeader (headers : Mem) (i off : ℕ) (f : InitrdFile) : Mem :=
  let a := headerBytes * i
  let headers := copy headers (a + 1) (f.name.length + 1) fun k => f.name.getD k 0
  let headers := store32 headers (a + 68) off
  let headers := store32 headers (a + 72) f.data.length
  store8 headers a 0xBF

/-- The first loop of `main`, from header `i` on. -/
def makeHeaders : List InitrdFile → ℕ → ℕ → Mem → Mem
  | [], _, _, headers => headers
  | f :: files, i, off, headers =>
    makeHeaders files (i + 1) (u32 (off + f.data.length)) (makeHeader headers i off f)

/-- The value of `argc`, which `main` takes as a `char`. -/
def charArgc (n : ℕ) : ℤ := if (2 * n + 1) % 2 ^ 8 < 2 ^ 7 then ((2 * n + 1) % 2 ^ 8 : ℕ) else ((2 * n + 1) % 2 ^ 8 : ℕ) - 2 ^ 8

def nheaders (n : ℕ) : ℤ := (charArgc n - 1).tdiv 2

/-- `main` of make_initrd: the bytes of initrd.img. `stack` is what the array of headers held before. -/
def makeInitrd (stack : Mem) (files : List InitrdFile) : List UInt8 :=
  let n := nheaders files.length
  let files := files.take n.toNat
  let headers := makeHeaders files 0 dataStart stack
  (List.range 4).map (store32 (fun _ => 0) 0 (n % 2 ^ 32).toNat) ++ (List.range (headerBytes * maxHeaders)).map headers ++
    files.flatMap fun f => f.data.take (u32 f.data.length)

/-! ## initrd.c -/

def fsFile : ℕ := 1
def fsDirectory : ℕ := 2

/-- `sizeof(fs_node_t)`: 128 bytes of name, then 14 words -/
def nodeBytes : ℕ := 184

/-- The fields of `fs_node_t` by their offset. -/
def maskOffset : ℕ := 128
def flagsOffset : ℕ := 140
def inodeOffset : ℕ := 144
def lengthOffset : ℕ := 148
def readOffset : ℕ := 156
def readdirOffset : ℕ := 172
def finddirOffset : ℕ := 176

/-- The addresses of the functions that nodes point to. -/
structure Callbacks where
  read : ℕ
  readdir : ℕ
  finddir : ℕ
  read_pos : 0 < read
  read_lt : read < 2 ^ 32
  finddir_pos : 0 < finddir
  finddir_lt : finddir < 2 ^ 32

/-- The variables of initrd.c, with the memory. -/
structure Initrd where
  mem : Mem
  fileHeaders : ℕ
  root : ℕ
  dev : ℕ
  rootNodes : ℕ
  nrootNodes : ℕ

def devName : List UInt8 := [100,101,118]
def initrdName : List UInt8 := [105,110,105,116,114,100]

/-- The node of the root or of /dev, after its name: mask, uid, gid, flags, inode, length, impl, the six
callbacks and ptr. -/
def writeDirectory (fns : Callbacks) (m : Mem) (node : ℕ) : Mem :=
  storeWords m (node + maskOffset) [0,0,0,fsDirectory,0,0,0,0,0,0,0,fns.readdir,fns.finddir,0]

/-- One round of the loop of `initialise_initrd`. -/
def initialiseFile (fns : Callbacks) (location fileHeaders rootNodes : ℕ) (m : Mem) (i : ℕ) : Option Mem := do
  let header := fileHeaders + headerBytes * i
  let node := rootNodes + nodeBytes * i
  let m := store32 m (header + 68) (u32 (load32 m (header + 68) + location))
  let m ← strcpy m node (.addr (header + 1))
  some (storeWords m (node + maskOffset) [0,0,0,fsFile,i,load32 m (header + 72),0,fns.read,0,0,0,0,0])

/-- `initialise_initrd`. The last three arguments are what the calls of `kmalloc` return. -/
def initialiseInitrd (fns : Callbacks) (m : Mem) (location root dev rootNodes : ℕ) : Option Initrd := do
  let fileHeaders := location + 4
  let m ← strcpy m root (.lit initrdName)
  let m := writeDirectory fns m root
  let m ← strcpy m dev (.lit devName)
  let m := writeDirectory fns m dev
  let nfiles := load32 m location
  let m ← (List.range nfiles).foldlM (initialiseFile fns location fileHeaders rootNodes) m
  some ⟨m,fileHeaders,root,dev,rootNodes,nfiles⟩

namespace Initrd

/-- The loop of `initrd_finddir` over the nodes that are left. -/
def findNode (r : Initrd) (name : Str) : List ℕ → Option ℕ
  | [] => some 0
  | i :: is => do
    let failed ← strcmp r.mem name (.addr (r.rootNodes + nodeBytes * i))
    if failed then findNode r name is else some (r.rootNodes + nodeBytes * i)

/-- `initrd_finddir` -/
def finddir (r : Initrd) (node : ℕ) (name : Str) : Option ℕ :=
  if node = r.root then do
    let failed ← strcmp r.mem name (.lit devName)
    if failed then r.findNode name (List.range r.nrootNodes) else some r.dev
  else r.findNode name (List.range r.nrootNodes)

/-- `initrd_read` -/
def read (r : Initrd) (node offset size buffer : ℕ) : Mem × ℕ :=
  let header := r.fileHeaders + headerBytes * load32 r.mem (node + inodeOffset)
  let length := load32 r.mem (header + 72)
  if length < offset then (r.mem,0)
  else
    let size := if length < u32 (offset + size) then length - offset else size
    (memcpy r.mem buffer (u32 (load32 r.mem (header + 68) + offset)) size,size)

/-- `finddir_fs` -/
def finddirFs (fns : Callbacks) (r : Initrd) (node : ℕ) (name : Str) : Option ℕ :=
  if load32 r.mem (node + flagsOffset) % 8 = fsDirectory ∧ load32 r.mem (node + finddirOffset) ≠ 0 then
    if load32 r.mem (node + finddirOffset) = fns.finddir then r.finddir node name else none
  else some 0

/-- `read_fs` -/
def readFs (fns : Callbacks) (r : Initrd) (node offset size buffer : ℕ) : Option (Mem × ℕ) :=
  if load32 r.mem (node + readOffset) ≠ 0 then
    if load32 r.mem (node + readOffset) = fns.read then some (r.read node offset size buffer) else none
  else some (r.mem,0)

end Initrd

/-! ## Strings -/

section Strings
variable {m : Mem} {x y : Str} {s t : List UInt8}

theorem strcmpLoop_spec (hx : StringAt m x s) (hy : StringAt m y t) (fuel i : ℕ) (hs : i ≤ s.length) (ht : i ≤ t.length)
    (heq : s.take i = t.take i) (hfuel : t.length < fuel + i) :
    strcmpLoop m x y fuel i = some (decide (s ≠ t)) := by
  induction fuel generalizing i with
  | zero => omega
  | succ fuel ih =>
    rw [strcmpLoop]
    rcases Nat.lt_or_eq_of_le hs with hs | rfl
    · rcases Nat.lt_or_eq_of_le ht with ht | rfl
      · rw [if_pos ⟨hx.byte_ne hs,hy.byte_ne ht⟩, hx.bytes i hs, hy.bytes i ht]
        by_cases hc : s[i] = t[i]
        · rw [if_neg (not_not.mpr hc)]
          refine ih (i + 1) hs ht ?_ (by omega)
          rw [List.take_succ_eq_append_getElem hs, List.take_succ_eq_append_getElem ht, heq, hc]
        · have hne : s ≠ t := fun h => hc (by subst h; rfl)
          rw [if_pos hc, decide_eq_true hne]
      · have hne : s ≠ t := fun h => by rw [h] at hs; omega
        have hstop := hy.stop
        rw [if_neg (fun h => h.2 hstop), decide_eq_true (.inr ⟨hx.byte_ne hs,hstop⟩), decide_eq_true hne]
    · have hstop := hx.stop
      rw [if_neg (fun h => h.1 hstop)]
      rcases Nat.lt_or_eq_of_le ht with ht | ht
      · have hne : s ≠ t := fun h => by rw [h] at ht; omega
        rw [decide_eq_true (.inl ⟨hstop,hy.byte_ne ht⟩), decide_eq_true hne]
      · have hsame : s = t := by
          rw [List.take_length, ht, List.take_length] at heq
          exact heq
        have hstop2 := hy.stop
        rw [← ht] at hstop2
        have hno : ¬ ((x.byte m s.length = 0 ∧ y.byte m s.length ≠ 0) ∨
            (x.byte m s.length ≠ 0 ∧ y.byte m s.length = 0)) := by
          rintro (h | h)
          · exact h.2 hstop2
          · exact h.1 hstop
        rw [decide_eq_false hno, decide_eq_false (not_not.mpr hsame)]

/-- `strcmp` tells whether two strings differ. -/
theorem strcmp_spec (hx : StringAt m x s) (hy : StringAt m y t) (hlen : t.length < 2 ^ 32) :
    strcmp m x y = some (decide (s ≠ t)) :=
  strcmpLoop_spec hx hy (2 ^ 32) 0 (Nat.zero_le _) (Nat.zero_le _) rfl hlen

theorem strcpyLoop_spec {dest : ℕ} (hx : StringAt m x s) (hclear : x.Clear (s.length + 1) dest s.length) (fuel i : ℕ)
    (hi : i < s.length) (hfuel : s.length ≤ fuel + i) :
    strcpyLoop dest x fuel (copy m dest i fun k => s.getD k 0) i =
      some (copy m dest s.length fun k => s.getD k 0) := by
  have hbyte : ∀ n ≤ s.length, ∀ k ≤ s.length,
      x.byte (copy m dest n fun k => s.getD k 0) k = x.byte m k := by
    intro n hn k hk
    cases x with
    | addr a =>
      unfold Str.Clear Apart at hclear
      have hsame : SameOn (copy m dest n fun k => s.getD k 0) m a (s.length + 1) :=
        copy_sameOn m (by unfold Apart; omega)
      exact hsame (a + k) (by omega) (by omega)
    | lit s => rfl
  induction fuel generalizing i with
  | zero => omega
  | succ fuel ih =>
    rw [strcpyLoop]
    have hget : x.byte (copy m dest i fun k => s.getD k 0) i = s.getD i 0 := by
      rw [hbyte i hi.le i hi.le, hx.bytes i hi, List.getD_eq_getElem s 0 hi]
    simp only [hget]
    rw [store8_copy, hbyte (i + 1) hi (i + 1) hi]
    rcases Nat.lt_or_eq_of_le (Nat.succ_le_of_lt hi) with hlt | heq
    · rw [if_pos (hx.byte_ne hlt)]
      exact ih (i + 1) hlt (by omega)
    · rw [show i + 1 = s.length from heq, if_neg (not_not.mpr hx.stop)]

/-- `strcpy` copies the bytes of a string that is not empty, and not the zero byte. -/
theorem strcpy_spec {dest : ℕ} (hx : StringAt m x s) (hs : s ≠ []) (hlen : s.length ≤ 2 ^ 32)
    (hclear : x.Clear (s.length + 1) dest s.length) :
    strcpy m dest x = some (copy m dest s.length fun k => s.getD k 0) := by
  have h := strcpyLoop_spec hx hclear (2 ^ 32) 0 (List.length_pos_iff.mpr hs) hlen
  rwa [copy_zero] at h

theorem memcpy_spec (m : Mem) (dest src len : ℕ) (h : Apart dest len src len) :
    memcpy m dest src len = copy m dest len fun k => m (src + k) := by
  induction len generalizing m dest src with
  | zero => exact (copy_zero m dest _).symm
  | succ len ih =>
    unfold Apart at h
    rw [memcpy, ih _ _ _ (by unfold Apart; omega)]
    funext x
    simp only [copy, store8, load8, UInt8.ofNat_toNat]
    by_cases hx : x = dest
    · subst hx
      rw [if_neg (by omega), if_pos rfl, if_pos (by omega), Nat.sub_self, Nat.add_zero]
    · by_cases hin : dest + 1 ≤ x ∧ x < dest + 1 + len
      · rw [if_pos hin, if_neg (by omega), if_pos (by omega), show src + 1 + (x - (dest + 1)) = src + (x - dest) by omega]
      · rw [if_neg hin, if_neg hx, if_neg (by omega)]

end Strings

/-! ## The image -/

section Image

/-- The header of a file at an address. -/
structure HeaderOf (m : Mem) (a : ℕ) (f : InitrdFile) (off : ℕ) : Prop where
  name : StringAt m (.addr (a + 1)) f.name
  offset : load32 m (a + 68) = off
  length : load32 m (a + 72) = f.data.length

theorem HeaderOf.congr {m m' : Mem} {a off : ℕ} {f : InitrdFile} (h : HeaderOf m a f off) (hname : f.name.length < 64)
    (hm : SameOn m' m a headerBytes) : HeaderOf m' a f off where
  name := h.name.congr (hm.mono (by omega) (by unfold headerBytes; omega))
  offset := (load32_congr (hm.mono (by omega) (by unfold headerBytes; omega))).trans h.offset
  length := (load32_congr (hm.mono (by omega) (by unfold headerBytes; omega))).trans h.length

theorem HeaderOf.shift {m : Mem} {a b off : ℕ} {f : InitrdFile} (h : HeaderOf (fun x => m (b + x)) a f off) :
    HeaderOf m (b + a) f off where
  name := by
    refine ⟨fun i hi => ?_,?_,h.name.nonzero⟩
    · simpa only [Str.byte, Nat.add_assoc] using h.name.bytes i hi
    · simpa only [Str.byte, Nat.add_assoc] using h.name.stop
  offset := by
    rw [Nat.add_assoc, ← load32_shift]
    exact h.offset
  length := by
    rw [Nat.add_assoc, ← load32_shift]
    exact h.length

/-- A file that the tool and the kernel have room for. -/
structure InitrdFile.Valid (f : InitrdFile) : Prop where
  nonzero : 0 ∉ f.name
  nonempty : f.name ≠ []
  short : f.name.length < 64

/-- The bytes of the files in front of file `i`. -/
def sizeBefore (files : List InitrdFile) (i : ℕ) : ℕ := ((files.take i).map (·.data.length)).sum

theorem makeHeader_changedIn (headers : Mem) (i off : ℕ) {f : InitrdFile} (hf : f.Valid) :
    ChangedIn headers (makeHeader headers i off f) (headerBytes * i) headerBytes := by
  have hlen := hf.short
  unfold makeHeader
  dsimp only
  refine (((copy_changedIn headers _ _ _).mono (by omega) (by unfold headerBytes; omega)).trans
    ((store32_changedIn _ _ _).mono (by omega) ?_)).trans
      (((store32_changedIn _ _ _).mono (by omega) ?_).trans ((store8_changedIn _ _ _).mono le_rfl ?_))
  all_goals unfold headerBytes; omega

theorem makeHeader_spec (headers : Mem) (i : ℕ) {off : ℕ} {f : InitrdFile} (hf : f.Valid) (hoff : off < 2 ^ 32)
    (hlen : f.data.length < 2 ^ 32) : HeaderOf (makeHeader headers i off f) (headerBytes * i) f off := by
  have hshort := hf.short
  have hstr : StringAt (copy headers (headerBytes * i + 1) (f.name.length + 1) fun k => f.name.getD k 0)
      (.addr (headerBytes * i + 1)) f.name := by
    refine ⟨fun k hk => ?_,?_,hf.nonzero⟩
    · simp only [Str.byte, copy]
      rw [if_pos (by omega), Nat.add_sub_cancel_left, List.getD_eq_getElem f.name 0 hk]
    · simp only [Str.byte, copy]
      rw [if_pos (by omega), Nat.add_sub_cancel_left]
      simp
  unfold makeHeader
  dsimp only
  refine ⟨?_,?_,?_⟩
  · refine hstr.congr fun x h1 h2 => ?_
    rw [store8_sameOn _ _ (b := x) (k := 1) (by unfold Apart; omega) x le_rfl (by omega),
      store32_sameOn _ _ (b := x) (k := 1) (by unfold Apart; omega) x le_rfl (by omega),
      store32_sameOn _ _ (b := x) (k := 1) (by unfold Apart; omega) x le_rfl (by omega)]
  · rw [load32_congr (store8_sameOn _ _ (by unfold Apart; omega)),
      load32_store32_of_apart _ _ (by unfold Apart; omega), load32_store32, Nat.mod_eq_of_lt hoff]
  · rw [load32_congr (store8_sameOn _ _ (by unfold Apart; omega)), load32_store32, Nat.mod_eq_of_lt hlen]

/-- The first loop of the tool: header `i + k` is the one of file `k`. -/
theorem makeHeaders_spec (files : List InitrdFile) (i off : ℕ) (headers : Mem) (hvalid : ∀ f ∈ files, f.Valid)
    (hfit : off + sizeBefore files files.length < 2 ^ 32) :
    (∀ x < headerBytes * i, makeHeaders files i off headers x = headers x) ∧
      ∀ k (hk : k < files.length), HeaderOf (makeHeaders files i off headers) (headerBytes * (i + k)) files[k]
        (off + sizeBefore files k) := by
  induction files generalizing i off headers with
  | nil => exact ⟨fun _ _ => rfl,fun k hk => absurd hk (Nat.not_lt_zero _)⟩
  | cons f files ih =>
    have hf := hvalid f List.mem_cons_self
    have hsum : ∀ k, sizeBefore (f :: files) (k + 1) = f.data.length + sizeBefore files k := fun k => by
      simp [sizeBefore]
    rw [List.length_cons, hsum] at hfit
    rw [makeHeaders, u32_of_lt (by omega)]
    obtain ⟨hbelow,hrest⟩ := ih (i + 1) (off + f.data.length) (makeHeader headers i off f)
      (fun g hg => hvalid g (List.mem_cons_of_mem _ hg)) (by omega)
    have hmul : headerBytes * (i + 1) = headerBytes * i + headerBytes := Nat.mul_succ _ _
    constructor
    · intro x hx
      rw [hbelow x (by omega)]
      exact makeHeader_changedIn headers i off hf x (by omega)
    · intro k hk
      cases k with
      | zero =>
        have h : HeaderOf (makeHeader headers i off f) (headerBytes * i) f off :=
          makeHeader_spec headers i hf (by omega) (by omega)
        exact h.congr hf.short fun x _ h2 => hbelow x (by omega)
      | succ k =>
        have h := hrest k (Nat.lt_of_succ_lt_succ hk)
        rw [Nat.add_right_comm, Nat.add_assoc i k 1] at h
        rw [hsum, List.getElem_cons_succ, ← Nat.add_assoc off]
        exact h

theorem nheaders_eq {n : ℕ} (h : n ≤ 63) : nheaders n = n := by
  have hmod : (2 * n + 1) % 2 ^ 8 = 2 * n + 1 := Nat.mod_eq_of_lt (by omega)
  have hchar : charArgc n = 2 * n + 1 := by
    unfold charArgc
    rw [hmod, if_pos (by omega)]
    push_cast
    rfl
  unfold nheaders
  rw [hchar, Int.tdiv_eq_ediv_of_nonneg (by omega)]
  omega

/-- The image in memory. -/
structure ImageAt (m : Mem) (location : ℕ) (files : List InitrdFile) : Prop where
  count : load32 m location = files.length
  headers : ∀ k (hk : k < files.length),
    HeaderOf m (location + 4 + headerBytes * k) files[k] (dataStart + sizeBefore files k)
  data : ∀ k (hk : k < files.length), BytesAt m (location + dataStart + sizeBefore files k) files[k].data

theorem imageAt_of_bytes {m stack : Mem} {location : ℕ} {files : List InitrdFile} (hn : files.length ≤ 63)
    (hvalid : ∀ f ∈ files, f.Valid) (hfit : dataStart + sizeBefore files files.length < 2 ^ 32)
    (h : BytesAt m location (makeInitrd stack files)) : ImageAt m location files := by
  have hlen : ∀ f ∈ files, f.data.length < 2 ^ 32 := by
    intro f hf
    have : f.data.length ≤ (files.map (·.data.length)).sum := List.single_le_sum (by simp) _ (List.mem_map.mpr ⟨f,hf,rfl⟩)
    unfold sizeBefore at hfit
    rw [List.take_length] at hfit
    omega
  unfold makeInitrd at h
  simp only [nheaders_eq hn, Int.toNat_natCast, List.take_length] at h
  obtain ⟨h1,h2⟩ := bytesAt_append.mp h
  obtain ⟨h3,h4⟩ := bytesAt_append.mp h1
  have hword : ((files.length : ℤ) % 2 ^ 32).toNat = files.length := by omega
  rw [hword] at h3
  simp only [List.length_map, List.length_range, List.length_append] at h2 h4
  have hflat : (files.flatMap fun f => f.data.take (u32 f.data.length)) = files.flatMap (·.data) := by
    refine List.flatMap_congr fun f hf => ?_
    rw [u32_of_lt (hlen f hf), List.take_length]
  rw [hflat] at h2
  obtain ⟨-,hheaders⟩ := makeHeaders_spec files 0 dataStart stack hvalid hfit
  refine ⟨?_,fun k hk => ?_,fun k hk => ?_⟩
  · have hsame : SameOn (fun x => m (location + x)) (store32 (fun _ => 0) 0 files.length) 0 4 := by
      intro x _ hx
      have := h3 x (by simpa using hx)
      simpa using this
    have hload := load32_congr hsame
    rwa [load32_shift, load32_store32, Nat.mod_eq_of_lt (by omega)] at hload
  · have hk' := hheaders k hk
    rw [Nat.zero_add] at hk'
    have hsame : SameOn (fun x => m (location + 4 + x)) (makeHeaders files 0 dataStart stack) (headerBytes * k) headerBytes := by
      intro x _ hx
      have := h4 x (by rw [List.length_map, List.length_range]; unfold headerBytes maxHeaders at *; omega)
      simpa using this
    exact (hk'.congr (hvalid _ (List.getElem_mem hk)).short hsame).shift
  · have := h2.flatMap k hk
    unfold dataStart sizeBefore
    rwa [show location + (headerBytes * maxHeaders + 4) = location + (4 + headerBytes * maxHeaders) by omega]

end Image
end X86OsDev.Tutorial
