import X86OsDev.Xv6.DirLaw

/-! # Links and the inode cache

`dirlookup` takes a reference to the inode it finds, and `dirlink` gives it back.
`iput` waits for the lock of the inode, so a process that holds it waits for
itself. The entry that `dirlink` writes goes to the first free slot.
-/
namespace X86OsDev.Xv6.Fs
open Fault SlotTable
variable {sb : Superblock} {me : Fin nproc} {dp ip : Fin ninode} {s t : Sys} {i : ℕ}

/-! ## Taking and giving back a reference -/

/-- The entry of the cache that `iget` returns. -/
def Sys.entryFor (s : Sys) (i : ℕ) : Option (Fin ninode) :=
  ((List.finRange ninode).find? fun ip => decide (0 < (s.icache ip).ref ∧ (s.icache ip).inum = i)).or
    ((List.finRange ninode).find? fun ip => decide ((s.icache ip).ref = 0))

/-- What `iget` makes of an entry. -/
def Inode.got (e : Inode) (i : ℕ) : Inode :=
  if 0 < e.ref then { e with ref := e.ref + 1 } else { e with inum := i, ref := 1, valid := false }

/-- The state after `iget` has returned `ip`. -/
def Sys.got (s : Sys) (i : ℕ) (ip : Fin ninode) : Sys := s.withInode ip ((s.icache ip).got i)

theorem of_find {P : Fin ninode → Prop} [DecidablePred P] {l : List (Fin ninode)} (h : (l.find? fun jp => decide (P jp)) = some ip) :
    P ip := by
  simpa using List.find?_some h

theorem entryFor_spec (h : s.entryFor i = some ip) : 0 < (s.icache ip).ref ∧ (s.icache ip).inum = i ∨ (s.icache ip).ref = 0 := by
  unfold Sys.entryFor at h
  cases hfind : (List.finRange ninode).find? fun ip => decide (0 < (s.icache ip).ref ∧ (s.icache ip).inum = i) with
  | some jp =>
    rw [hfind, Option.some_or] at h
    cases h
    exact .inl (of_find hfind)
  | none =>
    rw [hfind, Option.none_or] at h
    exact .inr (of_find h)

theorem entryFor_inum (h : s.entryFor i = some ip) : ((s.got i ip).icache ip).inum = i := by
  rw [Sys.got, Sys.withInode_icache, Inode.got]
  split
  · rename_i href
    obtain ⟨_,hinum⟩ | h0 := entryFor_spec h
    · exact hinum
    · omega
  · rfl

theorem iget_ok (h : s.entryFor i = some ip) : iget i s = .ok (ip,s.got i ip) := by
  have hspec := entryFor_spec h
  unfold Sys.entryFor at h
  rw [iget, bind_ok get_ok]
  cases hfind : (List.finRange ninode).find? fun ip => decide (0 < (s.icache ip).ref ∧ (s.icache ip).inum = i) with
  | some jp =>
    rw [hfind, Option.some_or] at h
    cases h
    have href := of_find hfind
    dsimp only
    rw [bind_ok (setInode_ok _), Sys.got, Inode.got, if_pos href.1]
    rfl
  | none =>
    rw [hfind, Option.none_or] at h
    have href := of_find h
    rw [h]
    dsimp only
    rw [bind_ok (setInode_ok _), Sys.got, Inode.got, if_neg (by omega)]
    rfl

theorem iget_full (h : s.entryFor i = none) : iget i s = .error (.panic .iget) := by
  unfold Sys.entryFor at h
  obtain ⟨h1,h2⟩ := Option.or_eq_none_iff.mp h
  rw [iget, bind_ok get_ok, h1, h2]
  rfl

/-- A reference that was taken and given back. -/
structure Unchanged (s t : Sys) : Prop where
  disk : t.disk = s.disk
  busy : t.busy = s.busy
  log : t.log = s.log
  file : t.file = s.file
  proc : t.proc = s.proc
  console : t.console = s.console
  icache : ∀ ip, 0 < (s.icache ip).ref → t.icache ip = s.icache ip
  free : ∀ ip, (s.icache ip).ref = 0 → (t.icache ip).ref = 0 ∧ (t.icache ip).lock = (s.icache ip).lock

theorem iput_asleep (h : (s.icache ip).lock ≠ none) : iput sb me ip s = .error .asleep := by
  have hwait : acquiresleep me ip s = .error .asleep := by
    rw [acquiresleep, bind_ok get_ok, if_neg h]
    rfl
  rw [iput, iputLocked]
  exact bind_error (bind_error hwait)

/-- The reference of `iget` is never the last one of a valid entry, so `iput` frees nothing. -/
theorem iput_got (h : s.entryFor i = some ip) (hlock : (s.icache ip).lock = none) :
    ∃ t, iput sb me ip (s.got i ip) = .ok ((),t) ∧ Unchanged s t := by
  generalize he : (s.icache ip).got i = e
  have hlock' : e.lock = none := by
    rw [← he, Inode.got]
    split
    · exact hlock
    · exact hlock
  have hkeep : ¬ (e.valid = true ∧ e.node.nlink = 0 ∧ e.ref = 1) := by
    rw [← he, Inode.got]
    split
    · rintro ⟨_,_,href⟩
      dsimp only at href
      omega
    · rintro ⟨hvalid,_,_⟩
      cases hvalid
  have hgot : s.got i ip = s.withInode ip e := by rw [Sys.got, he]
  have hself (f : Inode) : (s.withInode ip f).icache ip = f := Sys.withInode_icache f
  have hacq : acquiresleep me ip (s.withInode ip e) = .ok ((),s.withInode ip { e with lock := some me }) := by
    rw [acquiresleep_ok (by rw [hself, hlock']), hself, Sys.withInode_withInode]
  have hfree : freeUnlinked sb ip (s.withInode ip { e with lock := some me }) = .ok ((),s.withInode ip { e with lock := some me }) := by
    rw [freeUnlinked, bind_ok get_ok, hself, if_neg hkeep]
    rfl
  have hrel : releasesleep ip (s.withInode ip { e with lock := some me }) = .ok ((),s.withInode ip e) := by
    rw [releasesleep, setInode_ok, hself, Sys.withInode_withInode, ← hlock']
  have hput : putRef ip (s.withInode ip e) = .ok ((),s.withInode ip { e with ref := e.ref - 1 }) := by
    rw [putRef, setInode_ok, hself, Sys.withInode_withInode]
  have hlocked : iputLocked sb me ip (s.withInode ip e) = .ok ((),s.withInode ip e) := by
    rw [iputLocked, bind_ok hacq, bind_ok hfree, hrel]
  refine ⟨s.withInode ip { e with ref := e.ref - 1 },by rw [hgot, iput, bind_ok hlocked, hput],rfl,rfl,rfl,rfl,rfl,rfl,?_,?_⟩
  · intro jp hjp
    by_cases hj : jp = ip
    · subst hj
      rw [hself, ← he, Inode.got, if_pos hjp]
      rfl
    · exact Function.update_of_ne hj _ _
  · intro jp hjp
    by_cases hj : jp = ip
    · subst hj
      rw [hself, ← he, Inode.got, if_neg (by omega)]
      exact ⟨rfl,rfl⟩
    · have hsame : (s.withInode ip { e with ref := e.ref - 1 }).icache jp = s.icache jp := Function.update_of_ne hj _ _
      rw [hsame]
      exact ⟨hjp,rfl⟩

/-! ## Writing entries -/

theorem Locked.wrote {src : ℕ → UInt8} {off n : ℕ} (h : Locked sb me ip s) (hw : Wrote sb ip src off n s t) : Locked sb me ip t := by
  obtain ⟨a,ha⟩ := hw.icache
  have hself : t.icache ip = { s.icache ip with node := { (s.icache ip).node with
      size := max (s.icache ip).node.size (off + n), addrs := a } } := by
    rw [ha, Sys.withNode_icache_self]
  have hnode := hw.persisted
  rw [hself] at hnode
  refine ⟨?_,?_,?_,?_,?_,?_⟩
  · rw [hself]
    exact h.lock
  · rw [hself]
    exact h.ref
  · rw [hself]
    exact h.valid
  · rw [hself]
    exact h.inum
  · rw [hself]
    exact h.type
  · rw [hself]
    exact hnode.symm

/-- One slot of the directory has changed, and no other inode. -/
structure Rewrote (sb : Superblock) (me : Fin nproc) (dp : Fin ninode) (k : ℕ) (e : Option (List UInt8 × ℕ)) (s t : Sys) :
    Prop where
  isDir : IsDir sb me dp t
  put : IsPut (s.dirTable dp) k e (t.dirTable dp)
  others : ∀ j < sb.ninodes, j ≠ (s.icache dp).inum →
    sb.dinode t.disk j = sb.dinode s.disk j ∧ (IsAllocated sb (sb.dinode s.disk) j →
      content t.disk (sb.dinode t.disk j) = content s.disk (sb.dinode s.disk j))

/-- Why writing an entry may stop the kernel: a block is needed and there is none, or the log is full. -/
def NoSpace (s : Sys) (dp : Fin ninode) (off : ℕ) (e : Stop) : Prop :=
  (e = .panic .balloc ∧ (s.icache dp).node.size ≤ off) ∨ (e = .panic .tooBig ∧ FullWithin s.log 7)

theorem spans_entry (k : ℕ) : 6 * spans (k * direntSize) direntSize + 1 = 7 := by
  rw [spans, if_neg (by decide)]
  simp only [direntSize, bsize]
  omega

section Write
variable (h : IsDir sb me dp s) (L : sb.Layout) (ho : 1 ≤ s.log.outstanding) {bs : List UInt8} (hbs : bs.length = direntSize) {k : ℕ}
include h L ho hbs

theorem writeDirent_ends (p : Panic) (hk : k ≤ (s.dirTable dp).length) (hmax : k * direntSize < maxfile * bsize) :
    Ends (writeDirent sb p me dp bs (k * direntSize)) s (NoSpace s dp (k * direntSize))
      fun _ t => Rewrote sb me dp k (Dirent.ofBytes bs).slot s t := by
  have hall := h.entries L
  have hsize := hall.size_eq
  have hoff : k * direntSize ≤ (s.icache dp).node.size := by
    rw [hsize]
    exact Nat.mul_le_mul_right _ hk
  have hfit : k * direntSize + direntSize ≤ maxfile * bsize := by
    simp only [maxfile, ndirect, nindirect, bsize, direntSize] at *
    omega
  have hw : Ends (writei sb me dp (fun i => bs.getD i 0) (k * direntSize) direntSize) s
      (fun e => (e = .panic .balloc ∧ (s.icache dp).node.size < k * direntSize + direntSize) ∨ e = .panic .tooBig) _ :=
    writei_ends L h.consistent h.locked h.busy (.inr rfl) (fun hlt => .inl ⟨rfl,hlt⟩) ho hall.not_dev hoff hfit
  have hends : Ends (writei sb me dp (fun i => bs.getD i 0) (k * direntSize) direntSize) s (NoSpace s dp (k * direntSize))
      fun r t => r = some direntSize ∧ Wrote sb dp (fun i => bs.getD i 0) (k * direntSize) direntSize s t := by
    refine (hw.and (budget_writei sb dp hall.not_dev)).mono (fun _ _ hr => hr.1) ?_
    rintro e ⟨⟨he,hlt⟩ | he,hfull⟩
    · refine .inl ⟨he,?_⟩
      rw [hsize] at hlt ⊢
      simp only [direntSize] at *
      omega
    · refine .inr ⟨he,?_⟩
      rw [← spans_entry k]
      exact hfull he
  refine .seq hends ?_
  rintro _ t ⟨rfl,hwrote⟩
  have hlen : (List.range direntSize).map (fun i => bs.getD i 0) = bs := by
    apply List.ext_getElem
    · simp [hbs]
    · intro i h1 h2
      simp [h2]
  have hcont := hwrote.content
  rw [hlen] at hcont
  have hk' : k ≤ (content s.disk (s.icache dp).node).length / direntSize := by
    rwa [Sys.dirTable, length_table] at hk
  have hdvd : direntSize ∣ (content s.disk (s.icache dp).node).length := by
    rw [length_content]
    exact h.size
  change Rewrote sb me dp k (Dirent.ofBytes bs).slot s t
  refine ⟨⟨hwrote.consistent,h.locked.wrote hwrote,hwrote.busy.trans h.busy,?_,?_⟩,?_,hwrote.others⟩
  · obtain ⟨a,ha⟩ := hwrote.icache
    rw [ha, Sys.withNode_icache_self]
    exact h.type
  · rw [← length_content t.disk, hcont]
    exact (length_splice_entry hbs hk' hdvd).2
  · rw [Sys.dirTable, Sys.dirTable, hcont]
    exact table_splice hbs hk' hdvd

end Write

end X86OsDev.Xv6.Fs
