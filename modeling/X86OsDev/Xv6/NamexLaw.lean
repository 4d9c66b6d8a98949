import X86OsDev.Xv6.DirMap
import X86OsDev.Xv6.FileRwLaw
import X86OsDev.Xv6.Namex

/-! # The law of path names

`skipelem` gives the components of a path one by one, and `namex` is the fold of
the directory entries over them. A process on its way holds one reference, and
it unlocks each directory before it goes on.
-/
namespace X86OsDev.Xv6.Fs
open Fault Memory SlotTable

/-! ## Components -/

section Components
variable {path p q l : List UInt8} {name name' : ℕ → UInt8}

theorem components_append_sep (p q : List UInt8) : components (p ++ pathSep :: q) = components p ++ components q := by
  unfold components
  rw [List.splitOnP_append_cons p q (decide_eq_true rfl), List.filter_append, List.map_append]

theorem components_nil : components [] = [] := by
  unfold components
  rw [List.splitOnP_nil]
  rfl

theorem components_sep_cons (p : List UInt8) : components (pathSep :: p) = components p := by
  have h := components_append_sep [] p
  rwa [components_nil] at h

theorem components_append_sep_nil (p : List UInt8) : components (p ++ [pathSep]) = components p := by
  rw [components_append_sep, components_nil, List.append_nil]

theorem components_dropWhile (p : List UInt8) : components (p.dropWhile (· = pathSep)) = components p := by
  induction p with
  | nil => rfl
  | cons c p ih =>
    by_cases hc : c = pathSep
    · rw [List.dropWhile_cons, if_pos (decide_eq_true hc), ih, hc, components_sep_cons]
    · rw [List.dropWhile_cons, if_neg (by simpa using hc)]

/-- A run of other bytes than `/` is one component. -/
theorem components_run (hl : l ≠ []) (hsep : pathSep ∉ l) : components l = [l.take dirsiz] := by
  have hone : l.splitOnP (· = pathSep) = [l] :=
    List.splitOnP_eq_singleton fun x hx => decide_eq_false fun hc => hsep (hc ▸ hx)
  unfold components
  rw [hone, List.filter_cons, if_pos (decide_eq_true hl)]
  rfl

theorem components_run_append (hl : l ≠ []) (hsep : pathSep ∉ l) (hq : q.head? = none ∨ q.head? = some pathSep) :
    components (l ++ q) = l.take dirsiz :: components q := by
  cases q with
  | nil => rw [List.append_nil, components_run hl hsep, components_nil]
  | cons c q =>
    have hc : c = pathSep := by simpa using hq
    rw [hc, components_append_sep, components_run hl hsep, components_sep_cons]
    rfl

/-- Two buffers that agree up to the end of the name have the same name. -/
theorem nameFrom_congr {p q : ℕ → UInt8} (n : ℕ) : ∀ i, (∀ j < i + n, (∀ k, i ≤ k → k < j → p k ≠ 0) → p j = q j) →
    nameFrom p n i = nameFrom q n i := by
  induction n with
  | zero => exact fun _ _ => rfl
  | succ n ih =>
    intro i h
    have hi : p i = q i := h i (by omega) fun k h1 h2 => absurd h1 (not_le.mpr h2)
    rw [nameFrom, nameFrom, ← hi]
    split
    · rfl
    · rename_i h0
      rw [ih (i + 1) fun j hj hno => h j (by omega) fun k h1 h2 => ?_]
      by_cases hk : k = i
      · rwa [hk]
      · exact hno k (by omega) h2

/-- What `skipelem` puts into the buffer is the run, cut to `DIRSIZ` bytes. -/
theorem nameOf_element (h0 : 0 ∉ l) (q : List UInt8) :
    nameOf (if dirsiz ≤ l.length then copy name 0 dirsiz ((l ++ q).getD · 0)
      else Function.update (copy name 0 l.length ((l ++ q).getD · 0)) l.length 0) = l.take dirsiz := by
  rw [← Mkfs.nameOf_getD h0]
  have hbyte {j : ℕ} (hj : j < l.length) : (l ++ q).getD j 0 = l.getD j 0 := List.getD_append _ _ _ _ hj
  refine nameFrom_congr dirsiz 0 fun j hj hno => ?_
  have hj : j < dirsiz := by omega
  split
  · rename_i hlen
    unfold copy
    rw [if_pos ⟨Nat.zero_le _,by omega⟩, Nat.sub_zero]
    exact hbyte (by omega)
  · rename_i hlen
    rw [if_neg hlen] at hno
    rcases lt_trichotomy j l.length with hlt | rfl | hgt
    · rw [Function.update_of_ne hlt.ne]
      unfold copy
      rw [if_pos ⟨Nat.zero_le _,by omega⟩, Nat.sub_zero]
      exact hbyte hlt
    · rw [Function.update_self, List.getD_eq_default _ _ le_rfl]
    · exact absurd (Function.update_self _ _ _) (hno l.length (Nat.zero_le _) hgt)

theorem skipelem_none (h : skipelem path name = none) : components path = [] := by
  unfold skipelem at h
  dsimp only at h
  split at h
  · rename_i hs
    rw [← components_dropWhile, hs, components_nil]
  · cases h

/-- A path that does not begin with a slash is a run and what follows it. -/
theorem exists_run {c : UInt8} (hc : c ≠ pathSep) (s : List UInt8) : ∃ l q, c :: s = l ++ q ∧ l ≠ [] ∧ pathSep ∉ l ∧
    (q.head? = none ∨ q.head? = some pathSep) ∧ (c :: s).takeWhile (· ≠ pathSep) = l := by
  refine ⟨_,(c :: s).dropWhile (· ≠ pathSep),List.takeWhile_append_dropWhile.symm,?_,fun hmem => ?_,?_,rfl⟩
  · rw [List.takeWhile_cons, if_pos (by simpa using hc)]
    exact List.cons_ne_nil _ _
  · have hall := List.all_takeWhile (p := (· ≠ pathSep)) (l := c :: s)
    exact absurd (List.all_eq_true.mp hall _ hmem) (by simp)
  · have hhead := List.head?_dropWhile_not (· ≠ pathSep) (c :: s)
    cases hq : ((c :: s).dropWhile (· ≠ pathSep)).head? with
    | none => exact .inl rfl
    | some x =>
      rw [hq] at hhead
      exact .inr (congrArg some (by simpa using hhead))

theorem components_eq_nil (hhead : p.head? ≠ some pathSep) (h : components p = []) : p = [] := by
  cases p with
  | nil => rfl
  | cons c p =>
    obtain ⟨l,q,heq,hl,hsep,hq,_⟩ := exists_run (c := c) (fun hc => hhead (congrArg some hc)) p
    rw [heq, components_run_append hl hsep hq] at h
    cases h

theorem skipelem_some (h0 : 0 ∉ path) (h : skipelem path name = some (p,name')) :
    components path = nameOf name' :: components p ∧ (p = [] ↔ components p = []) ∧ 0 ∉ p := by
  unfold skipelem at h
  dsimp only at h
  have hcomp := components_dropWhile path
  have h0s : 0 ∉ path.dropWhile (· = pathSep) := fun hc => h0 ((List.dropWhile_suffix _).subset hc)
  have hhead := List.head?_dropWhile_not (· = pathSep) path
  generalize path.dropWhile (· = pathSep) = s at h hcomp h0s hhead
  cases s with
  | nil => exact absurd h (by simp)
  | cons c s =>
    obtain ⟨l,q,heq,hl,hsep,hq,htake⟩ := exists_run (c := c) (by simpa using hhead) s
    rw [if_neg (List.cons_ne_nil _ _), htake, heq, List.drop_left] at h
    obtain ⟨rfl,rfl⟩ := Prod.mk.inj (Option.some.inj h)
    rw [heq, List.mem_append, not_or] at h0s
    refine ⟨?_,⟨fun hp => ?_,components_eq_nil ?_⟩,fun hmem => h0s.2 ((List.dropWhile_suffix _).subset hmem)⟩
    · rw [← hcomp, heq, components_run_append hl hsep hq, nameOf_element h0s.1, components_dropWhile]
    · rw [hp, components_nil]
    · have hend := List.head?_dropWhile_not (· = pathSep) q
      intro hc
      rw [hc] at hend
      exact absurd hend (by simp)

/-- `skipelem` gives the components, and then 0. -/
theorem elements_eq (h0 : 0 ∉ path) : elements path name = components path := by
  induction hn : path.length using Nat.strong_induction_on generalizing path name with
  | _ n ih =>
    rw [elements]
    split
    · rename_i hs
      exact (skipelem_none hs).symm
    · rename_i p name' hs
      obtain ⟨hcomp,_,h0'⟩ := skipelem_some h0 hs
      rw [hcomp, ih _ (hn ▸ skipelem_lt hs) h0' rfl]

end Components

/-! ## References -/

/-- An inode that `iput` does not free: it has links, or somebody refers to it. -/
def Live (sb : Superblock) (s : Sys) (i : ℕ) : Prop :=
  i < sb.ninodes ∧ (sb.dinode s.disk i).type ≠ 0 ∧
    ((sb.dinode s.disk i).nlink ≠ 0 ∨ ∃ ip, 0 < (s.icache ip).ref ∧ (s.icache ip).inum = i)

/-- A directory tree that nobody changes: the root and all inodes that directories name are in use. -/
structure Tree (sb : Superblock) (me : Fin nproc) (s : Sys) : Prop where
  consistent : Consistent sb s.disk
  busy : s.busy = []
  lock : ∀ ip, (s.icache ip).lock ≠ some me
  node : ∀ ip, 0 < (s.icache ip).ref → (s.icache ip).valid = true → (s.icache ip).node = sb.dinode s.disk (s.icache ip).inum
  once : ∀ ip jp, 0 < (s.icache ip).ref → 0 < (s.icache jp).ref → (s.icache ip).inum = (s.icache jp).inum → ip = jp
  root : Live sb s rootino
  size : ∀ i < sb.ninodes, (sb.dinode s.disk i).type = tDir → direntSize ∣ (sb.dinode s.disk i).size
  entries : ∀ i < sb.ninodes, ∀ key j, dirEntry sb s.disk i key = some j → Live sb s j

/-- The process has taken these references since `s`, and the lock of one inode. -/
structure Refs (sb : Superblock) (me : Fin nproc) (s : Sys) (l : List (Fin ninode)) (own : Option (Fin ninode)) (t : Sys) :
    Prop where
  same : t = { s with icache := t.icache }
  ref : ∀ ip, (t.icache ip).ref = (s.icache ip).ref + l.count ip
  inum : ∀ ip, 0 < (s.icache ip).ref → (t.icache ip).inum = (s.icache ip).inum
  lock : ∀ ip, (t.icache ip).lock = if own = some ip then some me else (s.icache ip).lock
  free : ∀ ip, own = some ip → (s.icache ip).lock = none
  node : ∀ ip, 0 < (t.icache ip).ref → (t.icache ip).valid = true → (t.icache ip).node = sb.dinode s.disk (t.icache ip).inum
  once : ∀ ip jp, 0 < (t.icache ip).ref → 0 < (t.icache jp).ref → (t.icache ip).inum = (t.icache jp).inum → ip = jp

/-- Why a process stops: an inode is locked, or the inode cache has no second free entry. -/
def PathStops (s : Sys) (e : Stop) : Prop :=
  (e = .asleep ∧ ∃ ip, (s.icache ip).lock ≠ none) ∨ (e = .panic .iget ∧ ∃ jp, ∀ ip ≠ jp, 0 < (s.icache ip).ref)

section References
variable {sb : Superblock} {me : Fin nproc} {s t u : Sys} {l l' : List (Fin ninode)} {own own' : Option (Fin ninode)}
  {ip next : Fin ninode} {e : Inode} {i : ℕ}

theorem Tree.refs (h : Tree sb me s) : Refs sb me s [] none s :=
  ⟨rfl,fun _ => rfl,fun _ _ => rfl,fun _ => rfl,fun _ hc => absurd hc (by simp),h.node,h.once⟩

theorem Refs.disk (h : Refs sb me s l own t) : t.disk = s.disk := by rw [h.same]

theorem Refs.busy (h : Refs sb me s l own t) : t.busy = s.busy := by rw [h.same]

theorem Refs.perm (h : Refs sb me s l own t) (hl : l.Perm l') : Refs sb me s l' own t :=
  ⟨h.same,fun ip => (h.ref ip).trans (by rw [hl.count_eq]),h.inum,h.lock,h.free,h.node,h.once⟩

theorem Refs.pos (h : Refs sb me s l own t) (hip : ip ∈ l) : 0 < (t.icache ip).ref := by
  rw [h.ref]
  exact Nat.add_pos_right _ (List.count_pos_iff.mpr hip)

/-- A step changes one entry of the cache. -/
theorem Refs.withInode (h : Refs sb me s l own t) (hl : ∀ jp ≠ ip, l'.count jp = l.count jp)
    (hown : ∀ jp ≠ ip, (own' = some jp ↔ own = some jp)) (href : e.ref = (s.icache ip).ref + l'.count ip)
    (hinum : 0 < (s.icache ip).ref → e.inum = (s.icache ip).inum)
    (hlock : e.lock = if own' = some ip then some me else (s.icache ip).lock) (hfree : own' = some ip → (s.icache ip).lock = none)
    (hnode : 0 < e.ref → e.valid = true → e.node = sb.dinode s.disk e.inum)
    (honce : ∀ jp ≠ ip, 0 < e.ref → 0 < (t.icache jp).ref → e.inum ≠ (t.icache jp).inum) :
    Refs sb me s l' own' (t.withInode ip e) := by
  have hself : (t.withInode ip e).icache ip = e := Sys.withInode_icache e
  have hother {jp : Fin ninode} (hj : jp ≠ ip) : (t.withInode ip e).icache jp = t.icache jp := Function.update_of_ne hj _ _
  refine ⟨?_,fun jp => ?_,fun jp hjp => ?_,fun jp => ?_,fun jp hjp => ?_,fun jp => ?_,fun jp kp => ?_⟩
  · conv_lhs => rw [Sys.withInode, h.same]
    rfl
  · by_cases hj : jp = ip
    · rw [hj, hself, href]
    · rw [hother hj, h.ref, hl jp hj]
  · by_cases hj : jp = ip
    · subst hj
      rw [hself, hinum hjp]
    · rw [hother hj, h.inum jp hjp]
  · by_cases hj : jp = ip
    · rw [hj, hself, hlock]
    · rw [hother hj, h.lock]
      exact if_congr (hown jp hj).symm rfl rfl
  · by_cases hj : jp = ip
    · exact hj ▸ hfree (hj ▸ hjp)
    · exact h.free jp ((hown jp hj).mp hjp)
  · by_cases hj : jp = ip
    · rw [hj, hself]
      exact hnode
    · rw [hother hj]
      exact h.node jp
  · by_cases hj : jp = ip
    · by_cases hk : kp = ip
      · exact fun _ _ _ => hj.trans hk.symm
      · rw [hj, hself, hother hk]
        exact fun h1 h2 h3 => absurd h3 (honce kp hk h1 h2)
    · by_cases hk : kp = ip
      · rw [hk, hself, hother hj]
        exact fun h1 h2 h3 => absurd h3.symm (honce jp hj h2 h1)
      · rw [hother hj, hother hk]
        exact h.once jp kp

theorem acquiresleep_asleep (h : (t.icache ip).lock ≠ none) : acquiresleep me ip t = .error .asleep := by
  rw [acquiresleep, bind_ok get_ok, if_neg h]
  rfl

theorem Refs.asleep (h : Refs sb me s l none t) (hlock : (t.icache ip).lock ≠ none) : PathStops s .asleep :=
  .inl ⟨rfl,ip,fun hc => hlock ((h.lock ip).trans hc)⟩

/-- The inode after `ilock`. -/
def Inode.entered (sb : Superblock) (d : ℕ → Block) (me : Fin nproc) (e : Inode) : Inode :=
  { e with lock := some me, valid := true, node := sb.dinode d e.inum }

theorem Refs.ilock_ends (L : sb.Layout) (htree : Tree sb me s) (h : Refs sb me s l none t) (hip : ip ∈ l)
    (hlive : Live sb s (t.icache ip).inum) : Ends (ilock sb me ip) t (PathStops s) fun _ u =>
      Refs sb me s l (some ip) u ∧ u.icache ip = (t.icache ip).entered sb s.disk me := by
  have hpos := h.pos hip
  by_cases hlock : (t.icache ip).lock = none
  · have hrun : ilock sb me ip t = _ := ilock_ok L (h.busy.trans htree.busy) hpos hlock hlive.1
      (fun hv => h.disk.symm ▸ h.node ip hpos hv) (h.disk.symm ▸ hlive.2.1)
    have hstate : t.locked sb me ip = t.withInode ip ((t.icache ip).entered sb s.disk me) := by
      rw [← h.disk]
      rfl
    rw [hstate] at hrun
    refine (ends_of_ok hrun).mpr ⟨?_,Sys.withInode_icache _⟩
    refine h.withInode (fun _ _ => rfl) (fun jp hj => ?_) (h.ref ip) (fun hs => h.inum ip hs) (if_pos rfl).symm
      (fun _ => (h.lock ip).symm.trans hlock) (fun _ _ => rfl) fun jp hj _ hjp heq => hj (h.once jp ip hjp hpos heq.symm)
    exact iff_of_false (fun hc => hj (Option.some.inj hc).symm) fun hc => absurd hc (by simp)
  · have hrun : ilock sb me ip t = .error .asleep := by
      rw [ilock, bind_ok get_ok, if_neg (by omega)]
      exact bind_error (acquiresleep_asleep hlock)
    exact (ends_of_error hrun).mpr (h.asleep hlock)

theorem Refs.iunlock_ok (h : Refs sb me s l (some ip) t) (hip : ip ∈ l) :
    iunlock me ip t = .ok ((),t.withInode ip { t.icache ip with lock := none }) ∧
      Refs sb me s l none (t.withInode ip { t.icache ip with lock := none }) := by
  have hpos := h.pos hip
  refine ⟨Fs.iunlock_ok ((h.lock ip).trans (if_pos rfl)) hpos,?_⟩
  refine h.withInode (fun _ _ => rfl) (fun jp hj => ?_) (h.ref ip) (fun hs => h.inum ip hs) (h.free ip rfl).symm
    (fun hc => absurd hc (by simp)) (fun _ hv => h.node ip hpos hv) fun jp hj _ hjp heq => hj (h.once jp ip hjp hpos heq.symm)
  exact iff_of_false (fun hc => absurd hc (by simp)) fun hc => hj (Option.some.inj hc).symm

/-- A reference to an inode that is in use is given back, and nothing is freed. -/
theorem Refs.iput_ends (h : Refs sb me s (ip :: l) none t) (hlive : Live sb s (t.icache ip).inum) :
    Ends (iput sb me ip) t (PathStops s) fun _ u => Refs sb me s l none u ∧ ∀ jp, (u.icache jp).inum = (t.icache jp).inum := by
  have hpos := h.pos List.mem_cons_self
  have href := h.ref ip
  rw [List.count_cons_self] at href
  by_cases hlock : (t.icache ip).lock = none
  · have hkeep : ¬ ((t.icache ip).valid = true ∧ (t.icache ip).node.nlink = 0 ∧ (t.icache ip).ref = 1) := by
      rintro ⟨hv,hn,hone⟩
      rw [h.node ip hpos hv] at hn
      obtain hlink | ⟨jp,hjp,hj⟩ := hlive.2.2
      · exact hlink hn
      · have hjt : 0 < (t.icache jp).ref := by
          rw [h.ref]
          omega
        obtain rfl := h.once jp ip hjt hpos ((h.inum jp hjp).trans hj)
        omega
    have hacq : acquiresleep me ip t = _ := acquiresleep_ok hlock
    have hself (f : Inode) : (t.withInode ip f).icache ip = f := Sys.withInode_icache f
    have hfree : freeUnlinked sb ip (t.withInode ip { t.icache ip with lock := some me }) =
        .ok ((),t.withInode ip { t.icache ip with lock := some me }) := by
      rw [freeUnlinked, bind_ok get_ok, hself, if_neg hkeep]
      rfl
    have hrel : releasesleep ip (t.withInode ip { t.icache ip with lock := some me }) = .ok ((),t.withInode ip (t.icache ip)) := by
      rw [releasesleep, setInode_ok, hself, Sys.withInode_withInode, ← hlock]
    have hput : putRef ip (t.withInode ip (t.icache ip)) =
        .ok ((),t.withInode ip { t.icache ip with ref := (t.icache ip).ref - 1 }) := by
      rw [putRef, setInode_ok, hself, Sys.withInode_withInode]
    have hrun : iput sb me ip t = .ok ((),t.withInode ip { t.icache ip with ref := (t.icache ip).ref - 1 }) := by
      have hlocked : iputLocked sb me ip t = .ok ((),t.withInode ip (t.icache ip)) := by
        rw [iputLocked, bind_ok hacq, bind_ok hfree, hrel]
      rw [iput, bind_ok hlocked, hput]
    refine (ends_of_ok hrun).mpr ⟨?_,fun jp => ?_⟩
    · refine h.withInode (fun jp hj => ?_) (fun _ _ => .rfl) ?_ (fun hs => h.inum ip hs) (h.lock ip) (fun hc => absurd hc (by simp))
        (fun _ hv => h.node ip hpos hv) fun jp hj _ hjp heq => hj (h.once jp ip hjp hpos heq.symm)
      · rw [List.count_cons_of_ne (Ne.symm hj)]
      · dsimp only
        omega
    · by_cases hj : jp = ip
      · rw [hj, hself]
      · rw [show (t.withInode ip { t.icache ip with ref := (t.icache ip).ref - 1 }).icache jp = t.icache jp from
          Function.update_of_ne hj _ _]
  · have hstop : iput sb me ip t = .error .asleep := by
      rw [iput, iputLocked]
      exact bind_error (bind_error (acquiresleep_asleep hlock))
    exact (ends_of_error hstop).mpr (h.asleep hlock)

theorem entryFor_fresh (h : t.entryFor i = some ip) (h0 : (t.icache ip).ref = 0) {jp : Fin ninode} (hjp : 0 < (t.icache jp).ref) :
    (t.icache jp).inum ≠ i := by
  unfold Sys.entryFor at h
  cases hfind : (List.finRange ninode).find? fun ip => decide (0 < (t.icache ip).ref ∧ (t.icache ip).inum = i) with
  | some kp =>
    rw [hfind, Option.some_or] at h
    cases h
    have hpos := (of_find hfind).1
    omega
  | none =>
    intro hj
    exact absurd (decide_eq_true ⟨hjp,hj⟩) (List.find?_eq_none.mp hfind jp (List.mem_finRange jp))

theorem Refs.got (h : Refs sb me s l own t) (he : t.entryFor i = some ip) : Refs sb me s (ip :: l) own (t.got i ip) := by
  have href := h.ref ip
  unfold Sys.got Inode.got
  split
  · rename_i hpos
    have hinum : (t.icache ip).inum = i := by
      obtain ⟨_,hi⟩ | h0 := entryFor_spec he
      · exact hi
      · omega
    refine h.withInode (fun jp hj => List.count_cons_of_ne (Ne.symm hj)) (fun _ _ => .rfl) ?_ (fun hs => h.inum ip hs) (h.lock ip)
      (h.free ip) (fun _ hv => h.node ip hpos hv) fun jp hj _ hjp heq => hj (h.once jp ip hjp hpos heq.symm)
    rw [List.count_cons_self]
    dsimp only
    omega
  · rename_i hpos
    have h0 : (t.icache ip).ref = 0 := by omega
    refine h.withInode (fun jp hj => List.count_cons_of_ne (Ne.symm hj)) (fun _ _ => .rfl) ?_ (fun hs => ?_) (h.lock ip)
      (h.free ip) (fun _ hv => absurd hv (by simp)) fun jp _ _ hjp heq => entryFor_fresh he h0 hjp heq.symm
    · rw [List.count_cons_self]
      dsimp only
      omega
    · omega

theorem Refs.iget_ends (h : Refs sb me s l own t) (hl : l.length ≤ 1) (i : ℕ) : Ends (iget i) t (PathStops s) fun ip u =>
    Refs sb me s (ip :: l) own u ∧ (u.icache ip).inum = i ∧ ∀ jp, 0 < (t.icache jp).ref → (u.icache jp).inum = (t.icache jp).inum := by
  cases he : t.entryFor i with
  | none =>
    refine (ends_of_error (iget_full he)).mpr (.inr ⟨rfl,l.headD 0,fun ip hip => ?_⟩)
    unfold Sys.entryFor at he
    have hused := List.find?_eq_none.mp (Option.or_eq_none_iff.mp he).2 ip (List.mem_finRange ip)
    have href := h.ref ip
    have hcount : l.count ip = 0 := by
      refine List.count_eq_zero.mpr fun hmem => hip ?_
      match l with
      | [] => cases hmem
      | [jp] => exact List.mem_singleton.mp hmem
    have hne : (t.icache ip).ref ≠ 0 := by simpa using hused
    omega
  | some ip =>
    refine (ends_of_ok (iget_ok he)).mpr ⟨h.got he,entryFor_inum he,fun jp hjp => ?_⟩
    by_cases hj : jp = ip
    · subst hj
      rw [entryFor_inum he]
      obtain ⟨_,hi⟩ | h0 := entryFor_spec he
      · exact hi.symm
      · omega
    · rw [show (t.got i ip).icache jp = t.icache jp from Function.update_of_ne hj _ _]

theorem Refs.isDir (htree : Tree sb me s) (h : Refs sb me s l (some ip) t) (hip : ip ∈ l) (hv : (t.icache ip).valid = true)
    (hi : (t.icache ip).inum < sb.ninodes) (htype : (sb.dinode s.disk (t.icache ip).inum).type = tDir) : IsDir sb me ip t := by
  have hpos := h.pos hip
  have hnode := h.node ip hpos hv
  have hdir : (t.icache ip).node.type = tDir := by rw [hnode, htype]
  refine ⟨h.disk.symm ▸ htree.consistent,⟨(h.lock ip).trans (if_pos rfl),hpos,hv,hi,?_,h.disk.symm ▸ hnode⟩,
    h.busy.trans htree.busy,hdir,?_⟩
  · rw [hdir]
    decide
  · rw [hnode]
    exact htree.size _ hi htype

/-- `dirlookup` gives the entry of the directory that the process has locked. -/
theorem Refs.dirlookup_ends (L : sb.Layout) (htree : Tree sb me s) (h : Refs sb me s [ip] (some ip) t)
    (hv : (t.icache ip).valid = true) (hi : (t.icache ip).inum < sb.ninodes)
    (htype : (sb.dinode s.disk (t.icache ip).inum).type = tDir) (name : ℕ → UInt8) :
    Ends (dirlookup sb me ip name) t (PathStops s) fun r u =>
      (r = none ∧ u = t ∧ dirEntry sb s.disk (t.icache ip).inum (nameOf name) = none) ∨
      (∃ next off, r = some (next,off) ∧ Refs sb me s [next,ip] (some ip) u ∧ (u.icache ip).inum = (t.icache ip).inum ∧
        dirEntry sb s.disk (t.icache ip).inum (nameOf name) = some (u.icache next).inum) := by
  have hdir := h.isDir htree List.mem_cons_self hv hi htype
  have htable : t.dirTable ip = table (content s.disk (sb.dinode s.disk (t.icache ip).inum)) := by
    rw [Sys.dirTable, h.disk, h.node ip (h.pos List.mem_cons_self) hv]
  have hentry : dirEntry sb s.disk (t.icache ip).inum (nameOf name) = lookup (t.dirTable ip) (nameOf name) := by
    rw [dirEntry, if_pos htype, htable]
  rw [hentry]
  cases hl : lookup (t.dirTable ip) (nameOf name) with
  | none => exact (ends_of_ok (dirlookup_absent hdir L hl)).mpr (.inl ⟨rfl,rfl,rfl⟩)
  | some j =>
    obtain ⟨k,hk,hno⟩ := first_of_lookup hl
    have hrun : dirlookup sb me ip name t = _ := (hdir.entries L).dirlookup_found name (fun l hl i => hno l hl i)
      (List.getElem?_eq_some_iff.mp hk).1 hk
    unfold Ends
    rw [hrun]
    refine Ends.seq (h.iget_ends le_rfl j) ?_
    rintro next u ⟨hu,hj,hsame⟩
    exact .inr ⟨next,_,rfl,hu,hsame ip (h.pos List.mem_cons_self),congrArg some hj.symm⟩

end References

/-! ## The loop -/

/-- The inode that the loop ends at. -/
def target (sb : Superblock) (d : ℕ → Block) (parent : Bool) : ℕ → List (List UInt8) → Option ℕ
  | i, [] => if parent = true then none else some i
  | i, c :: cs =>
    if (sb.dinode d i).type ≠ tDir then none
    else if parent = true ∧ cs = [] then some i
    else (dirEntry sb d i c).bind fun j => target sb d parent j cs

section Target
variable {sb : Superblock} {d : ℕ → Block}

theorem target_walk (i : ℕ) (cs : List (List UInt8)) : target sb d false i cs = walk sb d i cs := by
  induction cs generalizing i with
  | nil => rfl
  | cons c cs ih =>
    have hwalk : walk sb d i (c :: cs) = (dirEntry sb d i c).bind fun j => walk sb d j cs := rfl
    rw [target, hwalk]
    by_cases ht : (sb.dinode d i).type = tDir
    · rw [if_neg (not_not.mpr ht), if_neg (fun hc => absurd hc.1 (by decide))]
      exact congrArg _ (funext fun j => ih j)
    · rw [if_pos ht, dirEntry, if_neg ht]
      rfl

theorem target_parentOf (i : ℕ) (cs : List (List UInt8)) : target sb d true i cs = parentOf sb d i cs := by
  induction cs generalizing i with
  | nil => rfl
  | cons c cs ih =>
    rw [target, parentOf, if_neg (List.cons_ne_nil _ _)]
    by_cases hcs : cs = []
    · subst hcs
      have hwalk : walk sb d i [c].dropLast = some i := rfl
      rw [hwalk, if_pos (c := true = true ∧ _) ⟨rfl,rfl⟩]
      by_cases ht : (sb.dinode d i).type = tDir
      · rw [if_neg (not_not.mpr ht), Option.filter_some, if_pos (decide_eq_true ht)]
      · rw [if_pos ht, Option.filter_some, if_neg (by simpa using ht)]
    · have hwalk : walk sb d i (c :: cs).dropLast = (dirEntry sb d i c).bind fun j => walk sb d j cs.dropLast := by
        rw [List.dropLast_cons_of_ne_nil hcs]
        rfl
      rw [hwalk, if_neg (c := true = true ∧ _) fun hc => hcs hc.2]
      have hnext : (fun j => target sb d true j cs) = fun j => (walk sb d j cs.dropLast).filter fun i => (sb.dinode d i).type = tDir := by
        funext j
        rw [ih, parentOf, if_neg hcs]
      rw [hnext]
      by_cases ht : (sb.dinode d i).type = tDir
      · rw [if_neg (not_not.mpr ht)]
        cases dirEntry sb d i c <;> rfl
      · rw [if_pos ht, dirEntry, if_neg ht]
        rfl

/-- A path leads to the entry for its last component in the directory that the others lead to. -/
theorem walk_parentOf {i p : ℕ} {cs : List (List UInt8)} {c : List UInt8} (hp : parentOf sb d i cs = some p)
    (hc : cs.getLast? = some c) : walk sb d i cs = dirEntry sb d p c := by
  obtain ⟨cs,rfl⟩ := List.getLast?_eq_some_iff.mp hc
  have hne : cs ++ [c] ≠ [] := by simp
  rw [parentOf, if_neg hne, List.dropLast_concat] at hp
  have hwalk := (Option.filter_eq_some_iff.mp hp).1
  unfold walk at hwalk ⊢
  rw [List.foldlM_append, hwalk]
  simp

end Target

/-- Where the loop has ended: the process has a reference to the inode that it returns. -/
structure Arrived (sb : Superblock) (me : Fin nproc) (s : Sys) (parent : Bool) (i : ℕ) (cs : List (List UInt8))
    (r : Option (Fin ninode) × (ℕ → UInt8)) (u : Sys) : Prop where
  refs : Refs sb me s r.1.toList none u
  inum : r.1.map (fun ip => (u.icache ip).inum) = target sb s.disk parent i cs
  live : ∀ ip, r.1 = some ip → Live sb s (u.icache ip).inum
  name : parent = true → ∀ ip, r.1 = some ip → cs.getLast? = some (nameOf r.2)

section Loop
variable {sb : Superblock} {me : Fin nproc} {s t u : Sys} {ip next : Fin ninode} {parent : Bool} {path : List UInt8}
  {name : ℕ → UInt8}

theorem Refs.iunlockput_ends {l : List (Fin ninode)} (h : Refs sb me s (ip :: l) (some ip) t) (hlive : Live sb s (t.icache ip).inum) :
    Ends (iunlockput sb me ip) t (PathStops s) fun _ u => Refs sb me s l none u ∧ ∀ jp, (u.icache jp).inum = (t.icache jp).inum := by
  obtain ⟨hrun,hu⟩ := h.iunlock_ok List.mem_cons_self
  have hinum : ∀ jp, ((t.withInode ip { t.icache ip with lock := none }).icache jp).inum = (t.icache jp).inum := by
    intro jp
    by_cases hj : jp = ip
    · rw [hj, Sys.withInode_icache]
    · rw [show (t.withInode ip { t.icache ip with lock := none }).icache jp = t.icache jp from Function.update_of_ne hj _ _]
  refine .seq_ok hrun ((hu.iput_ends ((hinum ip).symm ▸ hlive)).imp fun _ v hv => ⟨hv.1,fun jp => (hv.2 jp).trans (hinum jp)⟩)

theorem namexLoop_ends (parent : Bool) (name : ℕ → UInt8) (L : sb.Layout) (htree : Tree sb me s) (h0 : 0 ∉ path) (h : Refs sb me s [ip] none t)
    (hlive : Live sb s (t.icache ip).inum) : Ends (namexLoop sb me parent path name ip) t (PathStops s)
      (Arrived sb me s parent (t.icache ip).inum (components path)) := by
  induction hn : path.length using Nat.strong_induction_on generalizing path name ip t with
  | _ n ih =>
    rw [namexLoop]
    split
    · rename_i hs
      rw [skipelem_none hs]
      cases parent with
      | true =>
        rw [if_pos rfl]
        refine .seq (h.iput_ends hlive) ?_
        rintro _ u ⟨hu,-⟩
        exact ⟨hu,rfl,fun _ hc => absurd hc (by simp),fun _ _ hc => absurd hc (by simp)⟩
      | false =>
        rw [if_neg (by decide)]
        refine ⟨h,rfl,fun jp hj => ?_,fun hc => absurd hc (by simp)⟩
        cases hj
        exact hlive
    · rename_i path' name' hs
      obtain ⟨hcomp,hlast,h0'⟩ := skipelem_some h0 hs
      rw [hcomp]
      have hnone {u : Sys} (hu : Refs sb me s [] none u)
          (ht : target sb s.disk parent (t.icache ip).inum (nameOf name' :: components path') = none) :
          Arrived sb me s parent (t.icache ip).inum (nameOf name' :: components path') (none,name') u :=
        ⟨hu,ht.symm,fun _ hc => absurd hc (by simp),fun _ _ hc => absurd hc (by simp)⟩
      refine .seq (h.ilock_ends L htree List.mem_cons_self hlive) ?_
      rintro _ u ⟨hu,hent⟩
      have hnode : (u.icache ip).node = sb.dinode s.disk (t.icache ip).inum := by rw [hent]; rfl
      have hinum : (u.icache ip).inum = (t.icache ip).inum := by rw [hent]; rfl
      have hlive' : Live sb s (u.icache ip).inum := hinum.symm ▸ hlive
      refine .seq_ok get_ok ?_
      rw [hnode]
      by_cases ht : (sb.dinode s.disk (t.icache ip).inum).type = tDir
      · rw [if_neg (not_not.mpr ht)]
        by_cases hstop : parent = true ∧ path' = []
        · have hnil := hlast.mp hstop.2
          obtain ⟨hrun,hv⟩ := hu.iunlock_ok List.mem_cons_self
          have hself : ((u.withInode ip { u.icache ip with lock := none }).icache ip).inum = (t.icache ip).inum := by
            rw [Sys.withInode_icache]
            exact hinum
          rw [if_pos hstop]
          refine .seq_ok hrun ⟨hv,?_,fun jp hj => ?_,fun _ jp hj => ?_⟩
          · rw [target, if_neg (not_not.mpr ht), if_pos ⟨hstop.1,hnil⟩]
            exact congrArg some hself
          · cases hj
            exact hself.symm ▸ hlive
          · rw [hnil]
            rfl
        · rw [if_neg hstop]
          have htarget : target sb s.disk parent (t.icache ip).inum (nameOf name' :: components path') =
              (dirEntry sb s.disk (t.icache ip).inum (nameOf name')).bind fun j => target sb s.disk parent j (components path') := by
            rw [target, if_neg (not_not.mpr ht), if_neg fun hc => hstop ⟨hc.1,hlast.mpr hc.2⟩]
          refine .seq (hu.dirlookup_ends L htree (by rw [hent]; rfl) hlive'.1 (hinum.symm ▸ ht) name') ?_
          rw [hinum]
          rintro r v (⟨rfl,rfl,hentry⟩ | ⟨next,off,rfl,hv,hvi,hentry⟩)
          · refine .seq (hu.iunlockput_ends hlive') ?_
            rintro _ w ⟨hw,-⟩
            exact hnone hw (by rw [htarget, hentry]; rfl)
          · have hlive2 : Live sb s (v.icache ip).inum := by
              rw [hvi]
              exact hlive
            refine .seq ((hv.perm (List.Perm.swap _ _ _)).iunlockput_ends hlive2) ?_
            rintro _ w ⟨hw,hsame⟩
            have hnext := htree.entries _ hlive.1 _ _ hentry
            have hloop := ih _ (hn ▸ skipelem_lt hs) name' h0' hw ((hsame next).symm ▸ hnext) rfl
            refine hloop.imp fun r x hx => ⟨hx.refs,?_,hx.live,fun hp jp hj => ?_⟩
            · rw [hx.inum, htarget, hentry, hsame next]
              rfl
            · have hne : components path' ≠ [] := fun hc => hstop ⟨hp,hlast.mpr hc⟩
              rw [List.getLast?_cons_of_ne_nil hne]
              exact hx.name hp jp hj
      · rw [if_pos ht]
        refine .seq (hu.iunlockput_ends hlive') ?_
        rintro _ v ⟨hv,-⟩
        exact hnone hv (by rw [target, if_pos ht])

/-- The inode that a path starts from. -/
def startOf (s : Sys) (cwd : Fin ninode) (path : List UInt8) : ℕ :=
  if path.head? = some pathSep then rootino else (s.icache cwd).inum

variable {cwd : Fin ninode}

theorem idupCwd_ok (htree : Tree sb me s) (hcwd : (s.proc me).cwd = some cwd) (href : 0 < (s.icache cwd).ref) :
    idupCwd me s = .ok (cwd,s.withInode cwd { s.icache cwd with ref := (s.icache cwd).ref + 1 }) ∧
      Refs sb me s [cwd] none (s.withInode cwd { s.icache cwd with ref := (s.icache cwd).ref + 1 }) := by
  constructor
  · rw [idupCwd, bind_ok get_ok, hcwd]
    rfl
  · refine htree.refs.withInode (fun jp hj => List.count_cons_of_ne (Ne.symm hj)) (fun _ _ => .rfl) ?_ (fun _ => rfl) rfl
      (fun hc => absurd hc (by simp)) (fun _ hv => htree.node cwd href hv) fun jp hj _ hjp heq => hj (htree.once jp cwd hjp href heq.symm)
    rw [List.count_cons_self]
    rfl

theorem namex_ends (L : sb.Layout) (htree : Tree sb me s) (hcwd : (s.proc me).cwd = some cwd) (href : 0 < (s.icache cwd).ref)
    (hlive : Live sb s (s.icache cwd).inum) (h0 : 0 ∉ path) : Ends (namex sb me path parent name) s (PathStops s)
      (Arrived sb me s parent (startOf s cwd path) (components path)) := by
  unfold namex startOf
  by_cases hhead : path.head? = some pathSep
  · rw [if_pos hhead, if_pos hhead]
    refine .seq (htree.refs.iget_ends (Nat.zero_le _) rootino) ?_
    rintro ip t ⟨ht,hroot,-⟩
    have hloop := namexLoop_ends parent name L htree h0 ht (hroot.symm ▸ htree.root)
    rwa [hroot] at hloop
  · rw [if_neg hhead, if_neg hhead]
    obtain ⟨hrun,ht⟩ := idupCwd_ok htree hcwd href
    have hinum : ((s.withInode cwd { s.icache cwd with ref := (s.icache cwd).ref + 1 }).icache cwd).inum = (s.icache cwd).inum := by
      rw [Sys.withInode_icache]
    have hloop := namexLoop_ends parent name L htree h0 ht (hinum.symm ▸ hlive)
    rw [hinum] at hloop
    exact .seq_ok hrun hloop

/-- What `nameiparent` returns is looked up by `dirlookup` with the name that it leaves. -/
theorem Arrived.dirlookup_ends (L : sb.Layout) (htree : Tree sb me s) {i : ℕ} {cs : List (List UInt8)} {n : ℕ → UInt8}
    (h : Arrived sb me s true i cs (some ip,n) t) :
    Ends (do
      ilock sb me ip
      dirlookup sb me ip n : FsProg (Option (Fin ninode × ℕ))) t (PathStops s) fun r u =>
        r.map (fun x => (u.icache x.1).inum) = walk sb s.disk i cs := by
  have hlive := h.live ip rfl
  have hparent : parentOf sb s.disk i cs = some (t.icache ip).inum := (target_parentOf i cs).symm.trans h.inum.symm
  have hwalk := walk_parentOf hparent (h.name rfl ip rfl)
  have htype : (sb.dinode s.disk (t.icache ip).inum).type = tDir := by
    rw [parentOf] at hparent
    split at hparent
    · cases hparent
    · exact of_decide_eq_true (Option.filter_eq_some_iff.mp hparent).2
  refine .seq (h.refs.ilock_ends L htree List.mem_cons_self hlive) ?_
  rintro _ u ⟨hu,hent⟩
  have hinum : (u.icache ip).inum = (t.icache ip).inum := by
    rw [hent]
    rfl
  have hlook := hu.dirlookup_ends L htree (by rw [hent]; rfl) (hinum.symm ▸ hlive.1) (hinum.symm ▸ htype) n
  rw [hinum] at hlook
  refine hlook.imp ?_
  rintro r v (⟨rfl,rfl,hentry⟩ | ⟨next,off,rfl,-,-,hentry⟩)
  · rw [hwalk, hentry]
    rfl
  · rw [hwalk, hentry]
    rfl

/-- Paths in a directory tree that nobody changes. `skipelem` gives the components one by one; `namei` is the fold of the
entries over them, and `nameiparent` the fold over all but the last one, whose entry is what `namei` gives. Only the
components and whether the path begins with a slash matter. -/
theorem path_resolution (L : sb.Layout) (htree : Tree sb me s) (hcwd : (s.proc me).cwd = some cwd)
    (href : 0 < (s.icache cwd).ref) (hlive : Live sb s (s.icache cwd).inum) (h0 : 0 ∉ path) (name : ℕ → UInt8) :
    elements path name = components path ∧
    Ends (namei sb me path name) s (PathStops s) (fun r t => Refs sb me s r.toList none t ∧
      r.map (fun ip => (t.icache ip).inum) = walk sb s.disk (startOf s cwd path) (components path)) ∧
    Ends (nameiparent sb me path name) s (PathStops s) (fun r t => Refs sb me s r.1.toList none t ∧
      r.1.map (fun ip => (t.icache ip).inum) = parentOf sb s.disk (startOf s cwd path) (components path) ∧
      ∀ dp, r.1 = some dp → (components path).getLast? = some (nameOf r.2) ∧
        Ends (do
          ilock sb me dp
          dirlookup sb me dp r.2 : FsProg (Option (Fin ninode × ℕ))) t (PathStops s) fun r' u =>
            r'.map (fun x => (u.icache x.1).inum) = walk sb s.disk (startOf s cwd path) (components path)) ∧
    (∀ p q, components (p ++ pathSep :: pathSep :: q) = components (p ++ pathSep :: q)) ∧
    ∀ p, components (pathSep :: p) = components p ∧ components (p ++ [pathSep]) = components p := by
  refine ⟨elements_eq h0,?_,?_,fun p q => ?_,fun p => ⟨components_sep_cons p,components_append_sep_nil p⟩⟩
  · unfold namei
    refine .seq (namex_ends L htree hcwd href hlive h0) fun r t ht => ⟨ht.refs,?_⟩
    rw [ht.inum, target_walk]
  · refine (namex_ends L htree hcwd href hlive h0).imp fun r t ht => ⟨ht.refs,?_,fun dp hdp => ?_⟩
    · rw [ht.inum, target_parentOf]
    · obtain ⟨ip,n⟩ := r
      cases hdp
      exact ⟨ht.name rfl dp rfl,ht.dirlookup_ends L htree⟩
  · rw [components_append_sep, components_sep_cons, components_append_sep]

end Loop

/-! ## The root directory of an image without files -/

/-- Process 0 is in the root directory of an image, which nobody uses. -/
def cwdSys (img : Mkfs.Img) : Sys :=
  { rootSys img with
    icache := fun ip => { (rootSys img).icache ip with lock := none }
    proc := fun _ => ⟨some 0,fun _ => none⟩ }

theorem noFiles_kind {m img : Mkfs.Img} (h : Mkfs.Final [] m img) {i : ℕ} (hi : i < Mkfs.sb.ninodes)
    (ht : (Mkfs.sb.dinode img.sect i).type = tDir) : i = rootino := by
  by_contra hne
  rw [h.dinode_of_ne hne, h.built.kind i hi, if_neg hne] at ht
  split at ht <;> cases ht

theorem noFiles_tree {m img : Mkfs.Img} (h : Mkfs.Final [] m img) : Tree Mkfs.sb 0 (cwdSys img) ∧
    Live Mkfs.sb (cwdSys img) rootino := by
  have hdir : IsDir Mkfs.sb 0 0 (rootSys img) := rootSys_isDir h (by decide)
  have hroot : Live Mkfs.sb (cwdSys img) rootino := ⟨hdir.locked.inum,hdir.locked.type,.inr ⟨0,Nat.one_pos,rfl⟩⟩
  have hused {ip : Fin ninode} (hip : 0 < ((cwdSys img).icache ip).ref) : ip = 0 := by
    by_contra hne
    have hval : ip.val ≠ 0 := fun hc => hne (Fin.ext hc)
    have href : ((cwdSys img).icache ip).ref = 0 := by
      change ((rootSys img).icache ip).ref = 0
      rw [rootSys]
      dsimp only
      rw [if_neg hval]
    omega
  refine ⟨⟨hdir.consistent,rfl,fun ip hc => (by cases hc),fun ip hip _ => ?_,fun ip jp hip hjp _ => (hused hip).trans (hused hjp).symm,
    hroot,fun i hi ht => ?_,fun i hi key j hj => ?_⟩,hroot⟩
  · rw [hused hip]
    rfl
  · rw [noFiles_kind h hi ht]
    exact hdir.size
  · rw [dirEntry] at hj
    split at hj
    · rename_i ht
      rw [noFiles_kind h hi ht] at hj
      obtain ⟨k,hk⟩ := h.table_root (by decide) (by decide)
      have htable : table (content (cwdSys img).disk (Mkfs.sb.dinode (cwdSys img).disk rootino)) = _ := hk
      rw [htable] at hj
      obtain ⟨l,hl⟩ := holds_of_lookup hj
      have hmem := List.mem_of_getElem? hl
      rcases List.mem_append.mp hmem with hmem | hmem
      · have hall : ∀ e ∈ Mkfs.rootSlots [], ∀ x, e = some x → x.2 = rootino := by
          intro e he x hx
          subst hx
          rcases List.mem_cons.mp he with he | he
          · exact congrArg Prod.snd (Option.some.inj he)
          · exact congrArg Prod.snd (Option.some.inj (List.mem_singleton.mp he))
        have hj : j = rootino := hall _ hmem _ rfl
        exact hj.symm ▸ hroot
      · exact absurd (List.eq_of_mem_replicate hmem) (by simp)
    · cases hj

/-- The path `//./` leads to the root directory. -/
theorem noFiles_path : ∃ img, Mkfs.Makes [] img ∧ elements [47,47,46,47] (fun _ => 0) = [[46]] ∧
    Ends (namei Mkfs.sb 0 [47,47,46,47] fun _ => 0) (cwdSys img) (PathStops (cwdSys img)) fun r t =>
      r.map (fun ip => (t.icache ip).inum) = some rootino := by
  obtain ⟨img,m,hmade,h⟩ := noFiles_made
  obtain ⟨htree,hroot⟩ := noFiles_tree h
  have hzero : (0 : UInt8) ∉ [47,47,46,47] := by decide
  have hcwd : ((cwdSys img).proc 0).cwd = some 0 := rfl
  obtain ⟨helem,hnamei,-⟩ := path_resolution Mkfs.sb_layout htree hcwd Nat.one_pos hroot hzero fun _ => 0
  have hcomp : components [47,47,46,47] = [[46]] := by decide +kernel
  have hdot : dirEntry Mkfs.sb (cwdSys img).disk rootino [46] = some rootino := by
    have htype : (Mkfs.sb.dinode (cwdSys img).disk rootino).type = tDir := (rootSys_isDir h (by decide)).type
    rw [dirEntry, if_pos htype]
    exact (noFiles_table h).2.1
  refine ⟨img,hmade,helem.trans hcomp,hnamei.imp fun r t ht => ht.2.trans ?_⟩
  have hstart : startOf (cwdSys img) 0 [47,47,46,47] = rootino := if_pos (by decide)
  rw [hcomp, hstart, walk, List.foldlM_cons, hdot]
  rfl

end X86OsDev.Xv6.Fs
