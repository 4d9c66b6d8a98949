import X86OsDev.Xv6.FileRwLaw
import X86OsDev.Xv6.MkfsRead

/-! # What a call of `filewrite` does (file.c)

A call cuts its bytes into chunks that are committed one by one. `rest` is what
the other processes do before `begin_op` lets the call go on; they may do
anything but use the file.
-/
namespace X86OsDev.Xv6.Fs
open Fault Memory

variable (sb : Superblock) (rest : Sys → Sys) (f : Fin nfile) (me : Fin nproc)

/-- `begin_op` -/
def waitOp : FsProg Unit := do
  modify rest
  if (← get).log.admits = false then throw .asleep
  else modify fun s => { s with log := beginOp s.log }

/-- `end_op` -/
def finishOp : FsProg Unit := do
  if (← get).log.committing then panic .committing
  else modify fun s => { s with log := endOp s.log }

/-- The loop of `filewrite`, and `return i == n ? n : -1`. -/
def filewriteLoop (src : ℕ → UInt8) (n i : ℕ) : FsProg (Option ℕ) :=
  if i < n then do
    let n1 := min (n - i) maxWrite
    waitOp rest
    let r ← writeChunk sb f me (fun j => src (i + j)) n1
    finishOp
    if r = none then return if i = n then some n else none
    else if r ≠ some n1 then panic .shortFilewrite
    else filewriteLoop src n (i + n1)
  else return if i = n then some n else none
termination_by n - i
decreasing_by
  have hpos : 0 < maxWrite := by decide
  omega

/-- `pipe` is what `pipewrite` does. -/
def filewrite (pipe : FsProg (Option ℕ)) (src : ℕ → UInt8) (n : ℕ) : FsProg (Option ℕ) := do
  let file := (← get).file f
  if file.writable = false then return none
  else match file.type with
    | .pipe => pipe
    | .inode => filewriteLoop sb rest f me src n 0
    | .none => panic .filewrite

/-- The other processes leave the file alone. -/
structure LeavesAlone : Prop where
  settled {s : Sys} (h : Settled sb f s) : Settled sb f (rest s)
  file {s : Sys} (h : Settled sb f s) : (rest s).file f = s.file f
  bytes {s : Sys} (h : Settled sb f s) : fileBytes sb f (rest s) = fileBytes sb f s
  outstanding {s : Sys} (h : 0 ≤ s.log.outstanding) : 0 ≤ (rest s).log.outstanding

/-- How many bytes are written of `n` bytes at an offset: the chunks up to the first one that is refused. -/
def written (size off n : ℕ) : ℕ :=
  if size < off then 0
  else if off + n ≤ maxfile * bsize then n
  else (maxfile * bsize - off) / maxWrite * maxWrite

/-! ## One chunk -/

section Splice
variable {l u v : List UInt8} {off : ℕ}

theorem splice_nil (l : List UInt8) (off : ℕ) : splice l off [] = l := by
  unfold splice
  rw [List.append_nil]
  exact List.take_append_drop off l

theorem splice_append (hoff : off ≤ l.length) : splice (splice l off u) (off + u.length) v = splice l off (u ++ v) := by
  have hlen : (l.take off ++ u).length = off + u.length := by
    rw [List.length_append, List.length_take, min_eq_left hoff]
  unfold splice
  rw [List.take_left' hlen, ← List.drop_drop, List.drop_left' hlen, List.drop_drop, List.length_append,
    List.append_assoc (l.take off), Nat.add_assoc]

end Splice

variable {sb rest f me} {s t : Sys} {src : ℕ → UInt8} {n i : ℕ}

/-- The file after the first bytes are written. -/
structure Progress (sb : Superblock) (f : Fin nfile) (src : ℕ → UInt8) (s : Sys) (i : ℕ) (t : Sys) : Prop where
  settled : Settled sb f t
  outstanding : 0 ≤ t.log.outstanding
  file : t.file f = { s.file f with off := (s.file f).off + i }
  bytes : fileBytes sb f t = splice (fileBytes sb f s) (s.file f).off ((List.range i).map src)
  accepted : i = 0 ∨ ((s.file f).off ≤ (fileBytes sb f s).length ∧ (s.file f).off + i ≤ maxfile * bsize)

theorem Progress.start (h : Settled sb f s) (ho : 0 ≤ s.log.outstanding) : Progress sb f src s 0 s :=
  ⟨h,ho,rfl,(splice_nil _ _).symm,.inl rfl⟩

theorem Progress.others (h : Progress sb f src s i t) (hrest : LeavesAlone sb rest f) : Progress sb f src s i (rest t) :=
  ⟨hrest.settled h.settled,hrest.outstanding h.outstanding,(hrest.file h.settled).trans h.file,
    (hrest.bytes h.settled).trans h.bytes,h.accepted⟩

theorem Progress.setLog (h : Progress sb f src s i t) {l : LogProtocol.Log} (hl : 0 ≤ l.outstanding) :
    Progress sb f src s i { t with log := l } :=
  ⟨⟨h.settled.consistent,h.settled.busy,h.settled.type,h.settled.off,h.settled.ref,h.settled.lock,h.settled.inum,
    h.settled.node,h.settled.regular⟩,hl,h.file,h.bytes,h.accepted⟩

theorem Progress.past (h : Progress sb f src s i t) (hlt : (fileBytes sb f t).length < (t.file f).off + n) :
    (fileBytes sb f s).length < (s.file f).off + (i + n) := by
  rw [h.file] at hlt
  dsimp only at hlt
  rcases h.accepted with rfl | ⟨hoff,-⟩
  · rw [h.bytes, List.range_zero, List.map_nil, splice_nil] at hlt
    omega
  · rw [h.bytes, length_splice hoff] at hlt
    omega

/-- Whether a chunk is refused depends on the offset of its end, and for the first one also on that of its beginning. -/
theorem Progress.refused_iff (h : Progress sb f src s i t) :
    Refused sb f t n ↔ (fileBytes sb f s).length < (s.file f).off ∨ maxfile * bsize < (s.file f).off + i + n := by
  unfold Refused
  rw [h.file]
  dsimp only
  refine or_congr_left ?_
  rcases h.accepted with rfl | ⟨hoff,-⟩
  · rw [h.bytes, List.range_zero, List.map_nil, splice_nil, Nat.add_zero]
  · rw [h.bytes, length_splice hoff, List.length_map, List.length_range]
    omega

theorem Progress.chunk (h : Progress sb f src s i t) {u : Sys} (hm : Moved sb f t u n) (hin : ¬ Refused sb f t n)
    (hb : fileBytes sb f u = splice (fileBytes sb f t) (t.file f).off ((List.range n).map fun j => src (i + j))) :
    Progress sb f src s (i + n) u := by
  rw [h.refused_iff, not_or, not_lt, not_lt] at hin
  have hfile : (t.file f).off = (s.file f).off + i := by rw [h.file]
  refine ⟨hm.settled,hm.outstanding ▸ h.outstanding,?_,?_,.inr ⟨hin.1,?_⟩⟩
  · rw [hm.file, h.file, Nat.add_assoc]
  · have happend := splice_append (u := (List.range i).map src) (v := (List.range n).map fun j => src (i + j)) hin.1
    rw [List.length_map, List.length_range] at happend
    rw [hb, h.bytes, hfile, happend, List.range_add, List.map_append, List.map_map]
    rfl
  · rw [← Nat.add_assoc]
    exact hin.2

/-! ## The loop -/

/-- How a call may stop: it never leaves `begin_op`, or the disk or the log is full. -/
def WriteStops (sb : Superblock) (f : Fin nfile) (s : Sys) (n : ℕ) (e : Stop) : Prop :=
  e = .asleep ∨ (e = .panic .balloc ∧ (fileBytes sb f s).length < (s.file f).off + n) ∨ e = .panic .tooBig

theorem waitOp_ok (h : (rest t).log.admits = true) :
    waitOp rest t = .ok ((),{ rest t with log := beginOp (rest t).log }) := by
  unfold waitOp
  rw [bind_ok (modify_ok _), bind_ok get_ok, h]
  rfl

theorem waitOp_ends (hrest : LeavesAlone sb rest f) (h : Progress sb f src s i t) :
    Ends (waitOp rest) t (fun e => e = .asleep) fun _ u =>
      Progress sb f src s i u ∧ 1 ≤ u.log.outstanding ∧ u.log.committing = false := by
  have hp := h.others hrest
  cases hadmits : (rest t).log.admits with
  | false =>
    unfold waitOp
    refine .seq_ok (modify_ok _) (.seq_ok get_ok ?_)
    rw [hadmits]
    exact rfl
  | true =>
    have hcommit : (rest t).log.committing = false := by
      unfold LogProtocol.Log.admits at hadmits
      simp only [Bool.and_eq_true, Bool.not_eq_true'] at hadmits
      exact hadmits.1
    have hle := hp.outstanding
    have hone : 1 ≤ (beginOp (rest t).log).outstanding := by
      change 1 ≤ (rest t).log.outstanding + 1
      omega
    exact (ends_of_ok (waitOp_ok hadmits)).mpr ⟨hp.setLog (by omega),hone,hcommit⟩

theorem finishOp_ok (hc : t.log.committing = false) : finishOp t = .ok ((),{ t with log := endOp t.log }) := by
  unfold finishOp
  rw [bind_ok get_ok, hc]
  rfl

theorem Progress.endOp (h : Progress sb f src s i t) (ho : 1 ≤ t.log.outstanding) :
    Progress sb f src s i { t with log := endOp t.log } := by
  refine h.setLog ?_
  change 0 ≤ t.log.outstanding - 1
  omega

theorem LogGrows.committing {l l' : LogProtocol.Log} (h : LogGrows sb l l') : l'.committing = l.committing := by
  obtain ⟨bs,rfl,_⟩ := h.blocks
  rfl

theorem written_refused (hlt : i < n) (hdvd : maxWrite ∣ i) (h : Progress sb f src s i t)
    (href : Refused sb f t (min (n - i) maxWrite)) : written (fileBytes sb f s).length (s.file f).off n = i := by
  have hmax : maxWrite = 1536 := rfl
  rw [h.refused_iff] at href
  have hacc := h.accepted
  rw [hmax] at href hdvd
  unfold written
  rw [hmax]
  obtain ⟨k,rfl⟩ := hdvd
  split
  · omega
  · have hlast : 1536 * k = (maxfile * bsize - (s.file f).off) / 1536 * 1536 := by omega
    rw [if_neg (by omega)]
    exact hlast.symm

theorem written_all (h : Progress sb f src s n t) : written (fileBytes sb f s).length (s.file f).off n = n := by
  unfold written
  rcases h.accepted with rfl | ⟨hoff,hmax⟩
  · split
    · rfl
    · split
      · rfl
      · rename_i hmax
        rw [Nat.sub_eq_zero_of_le (by omega), Nat.zero_div, Nat.zero_mul]
  · rw [if_neg (by omega), if_pos hmax]

/-- The chunks from `i` on. -/
theorem filewriteLoop_ends (L : sb.Layout) (hrest : LeavesAlone sb rest f) (hn : n < 2 ^ 31) (hi : i ≤ n)
    (hdvd : i < n → maxWrite ∣ i) (h : Progress sb f src s i t) :
    Ends (filewriteLoop sb rest f me src n i) t (WriteStops sb f s n) fun r u =>
      Progress sb f src s (written (fileBytes sb f s).length (s.file f).off n) u ∧
        r = if written (fileBytes sb f s).length (s.file f).off n = n then some n else none := by
  induction hk : n - i using Nat.strong_induction_on generalizing i t with
  | _ k ih =>
    rw [filewriteLoop]
    by_cases hlt : i < n
    · rw [if_pos hlt]
      dsimp only
      have hmax : maxWrite = 1536 := rfl
      refine .seq ((waitOp_ends hrest h).mono (fun _ _ h => h) fun _ => .inl) fun _ t1 h1 => ?_
      obtain ⟨h1,ho1,hc1⟩ := h1
      have hstop : ∀ e, OutOfRoom sb f t1 (min (n - i) maxWrite) e → WriteStops sb f s n e := by
        rintro e ⟨-,⟨rfl,hlt'⟩ | ⟨rfl,-⟩⟩
        · have hpast := h1.past hlt'
          exact .inr (.inl ⟨rfl,by omega⟩)
        · exact .inr (.inr rfl)
      refine .seq ((writeChunk_spec L h1.settled ho1 (show min (n - i) maxWrite < 2 ^ 31 by omega)).mono (fun _ _ h => h) hstop)
        fun r t2 h2 => ?_
      obtain ⟨hm,hlog,hr⟩ := h2
      have ho2 : 1 ≤ t2.log.outstanding := hm.outstanding ▸ ho1
      have hc2 : t2.log.committing = false := hlog.committing.trans hc1
      rcases hr with ⟨rfl,href,hb⟩ | ⟨rfl,hin,hb⟩
      · have h2 : Progress sb f src s i t2 :=
          ⟨hm.settled,by omega,hm.file.trans h1.file,hb.trans h1.bytes,h1.accepted⟩
        refine .seq_ok (finishOp_ok hc2) ?_
        rw [if_pos rfl, if_neg hlt.ne]
        have hw := written_refused hlt (hdvd hlt) h1 href
        rw [hw, if_neg hlt.ne]
        exact ⟨h2.endOp ho2,rfl⟩
      · have h2 := h1.chunk hm hin hb
        refine .seq_ok (finishOp_ok hc2) ?_
        rw [if_neg (Option.some_ne_none _), if_neg (not_not.mpr rfl)]
        refine ih _ ?_ ?_ ?_ (h2.endOp ho2) rfl
        · omega
        · omega
        · intro hlt'
          rw [min_eq_right (by omega)]
          exact Nat.dvd_add (hdvd hlt) dvd_rfl
    · obtain rfl : i = n := by omega
      rw [if_neg hlt]
      rw [written_all h, if_pos rfl]
      exact ⟨h,rfl⟩

/-- A chunk that is written. -/
theorem filewriteLoop_next {u : Sys} (hlt : i < n) (hadmits : (rest t).log.admits = true)
    (hrun : writeChunk sb f me (fun j => src (i + j)) (min (n - i) maxWrite) { rest t with log := beginOp (rest t).log } =
      .ok (some (min (n - i) maxWrite),u)) (hc : u.log.committing = false) :
    filewriteLoop sb rest f me src n i t =
      filewriteLoop sb rest f me src n (i + min (n - i) maxWrite) { u with log := endOp u.log } := by
  rw [filewriteLoop, if_pos hlt, bind_ok (waitOp_ok hadmits), bind_ok hrun, bind_ok (finishOp_ok hc), if_neg (Option.some_ne_none _), if_neg (not_not.mpr rfl)]

/-- A chunk that is refused. -/
theorem filewriteLoop_refused {u : Sys} (hlt : i < n) (hadmits : (rest t).log.admits = true)
    (hrun : writeChunk sb f me (fun j => src (i + j)) (min (n - i) maxWrite) { rest t with log := beginOp (rest t).log } =
      .ok (none,u)) (hc : u.log.committing = false) :
    filewriteLoop sb rest f me src n i t = .ok (none,{ u with log := endOp u.log }) := by
  rw [filewriteLoop, if_pos hlt, bind_ok (waitOp_ok hadmits), bind_ok hrun, bind_ok (finishOp_ok hc), if_pos rfl, if_neg hlt.ne]
  rfl

variable {pipe : FsProg (Option ℕ)}

theorem filewrite_inode (hw : (s.file f).writable = true) (ht : (s.file f).type = .inode) :
    filewrite sb rest f me pipe src n s = filewriteLoop sb rest f me src n 0 s := by
  unfold filewrite
  rw [bind_ok get_ok, hw, if_neg (by decide), ht]

theorem leavesAlone_id (sb : Superblock) (f : Fin nfile) : LeavesAlone sb id f := ⟨id,fun _ => rfl,fun _ => rfl,id⟩

namespace FullFile
open Mkfs (Img Final Makes sizedFiles sizedFiles_made sb_layout)

/-- The first file of the image is open, one chunk before its end. -/
def opened (img : Img) : Sys :=
  { rootSys img with
    log := ⟨[],0,false,30⟩
    icache := fun _ => ⟨2,1,none,true,Mkfs.sb.dinode img.sect 2⟩
    file := fun _ => ⟨.inode,1,true,true,0,70144⟩ }

variable {m img : Img}

theorem opened_settled (h : Final (sizedFiles (fun _ => 71680) 1) m img) : Settled Mkfs.sb 0 (opened img) ∧
    fileBytes Mkfs.sb 0 (opened img) = List.replicate 71680 0 := by
  have hlen : (sizedFiles (fun _ => 71680) 1).length = 1 := rfl
  have hoff : 70144 < 2 ^ 32 := by decide
  have hinum : 2 < Mkfs.sb.ninodes := by decide
  obtain ⟨hused,hkind,hbytes⟩ := h.file (j := 0) (by decide)
  exact ⟨⟨h.consistent (by rw [hlen]; decide),rfl,rfl,hoff,Nat.one_pos,rfl,hinum,fun _ => rfl,hkind⟩,hbytes⟩

/-- Of 1537 bytes 1536 are written; the last one would be past the greatest size, and the call returns -1. -/
theorem refused_after_chunk (h : Final (sizedFiles (fun _ => 71680) 1) m img) :
    ∃ t, filewrite Mkfs.sb id 0 0 (pure none) (fun _ => 7) 1537 (opened img) = .ok (none,t) ∧
      (t.file 0).off = 71680 ∧ fileBytes Mkfs.sb 0 t = splice (List.replicate 71680 0) 70144 (List.replicate 1536 7) := by
  obtain ⟨hs,hbytes⟩ := opened_settled h
  have hlen : (fileBytes Mkfs.sb 0 (opened img)).length = 71680 := by rw [hbytes, List.length_replicate]
  have hoff : ((opened img).file 0).off = 70144 := rfl
  have hroom : ¬ FullWithin (beginOp (opened img).log) (6 * spans 70144 1536 + 1) := by
    change ¬ (30 ≤ 0 + (6 * spans 70144 1536 + 1) ∨ (30 : ℤ) - 1 ≤ 0 + (6 * spans 70144 1536 + 1))
    decide
  have hone : (beginOp (opened img).log).outstanding = 1 := rfl
  have h0 : Progress Mkfs.sb 0 (fun _ => 7) (opened img) 0 { opened img with log := beginOp (opened img).log } :=
    (Progress.start hs le_rfl).setLog (by rw [hone]; exact Int.one_nonneg)
  -- the first chunk is written over bytes that the file has, so no block is allocated
  have hchunk : Ends (writeChunk Mkfs.sb 0 0 (fun _ => 7) 1536) _ _ _ :=
    writeChunk_spec sb_layout h0.settled hone.ge (show 1536 < 2 ^ 31 by decide)
  obtain ⟨r,t,hrun,hm,hlog,hr⟩ := hchunk.exists_ok (by
      rintro e ⟨-,⟨-,hpast⟩ | ⟨-,hfull⟩⟩
      · have hpast := h0.past hpast
        rw [hlen, hoff] at hpast
        exact absurd hpast (by decide)
      · exact hroom hfull)
  have hin := h0.refused_iff (n := 1536)
  rw [hlen, hoff] at hin
  obtain ⟨rfl,hb⟩ : r = some 1536 ∧ _ := by
    rcases hr with ⟨-,href,-⟩ | ⟨hr,-,hb⟩
    · exact absurd (hin.mp href) (by decide)
    · exact ⟨hr,hb⟩
  have h1 := h0.chunk hm (fun href => absurd (hin.mp href) (by decide)) hb
  have hc1 : t.log.committing = false := hlog.committing
  have ho1 : t.log.outstanding = 1 := hm.outstanding
  have hempty : (endOp t.log).block = [] ∧ (endOp t.log).outstanding = 0 := by
    unfold Fs.endOp
    rw [ho1]
    exact ⟨rfl,rfl⟩
  have hadmits : (endOp t.log).admits = true := by
    unfold LogProtocol.Log.admits LogProtocol.Log.n
    rw [hempty.1, hempty.2]
    change (!t.log.committing && _) = true
    rw [hc1]
    rfl
  have h2 := h1.endOp ho1.ge
  generalize ht2 : { t with log := endOp t.log } = t2 at h2
  have ho2 : (beginOp t2.log).outstanding = 1 := by
    rw [← ht2]
    change (endOp t.log).outstanding + 1 = 1
    rw [hempty.2]
    rfl
  have h3 : Progress Mkfs.sb 0 (fun _ => 7) (opened img) (0 + 1536) { t2 with log := beginOp t2.log } :=
    h2.setLog (by rw [ho2]; exact Int.one_nonneg)
  have href := h3.refused_iff (n := 1)
  rw [hlen, hoff] at href
  have hlast : Ends (writeChunk Mkfs.sb 0 0 (fun _ => 7) 1) _ _ _ :=
    writeChunk_spec sb_layout h3.settled ho2.ge (show 1 < 2 ^ 31 by decide)
  obtain ⟨r,u,hrun2,hm2,hlog2,hr2⟩ := hlast.exists_ok fun e he => he.1 (href.mpr (by decide))
  obtain ⟨rfl,hb2⟩ : r = none ∧ _ := by
    rcases hr2 with ⟨hr,-,hb⟩ | ⟨-,hin,-⟩
    · exact ⟨hr,hb⟩
    · exact absurd (href.mpr (by decide)) hin
  have hc2 : u.log.committing = false := by
    rw [hlog2.committing, ← ht2]
    exact hc1
  refine ⟨{ u with log := endOp u.log },?_,?_,?_⟩
  · rw [filewrite_inode rfl rfl]
    have hnext : filewriteLoop Mkfs.sb id 0 0 (fun _ => 7) 1537 0 (opened img) = _ :=
      filewriteLoop_next (by decide) rfl hrun hc1
    have hadmits2 : (id t2).log.admits = true := by
      rw [← ht2]
      exact hadmits
    refine hnext.trans ?_
    rw [ht2]
    exact filewriteLoop_refused (by decide) hadmits2 hrun2 hc2
  · have hend : (t2.file 0).off = 71680 := congrArg File.off h3.file
    change (u.file 0).off = 71680
    rw [hm2.file]
    exact hend
  · have hsevens : (List.range (0 + 1536)).map (fun _ => (7 : UInt8)) = List.replicate 1536 7 := by
      rw [List.map_const', List.length_range]
    have hbytes3 := h3.bytes
    rw [hbytes, hoff, hsevens] at hbytes3
    exact hb2.trans hbytes3

end FullFile

end X86OsDev.Xv6.Fs
