import X86OsDev.Xv6.FileRw
import X86OsDev.Xv6.FsContentLaw

/-! # The offset of a shared `struct file`

A part of a call under the inode's lock finds the offset where the part before
it left it. So the ranges that were read and written follow one another, and
none of them changes the bytes of another.
-/
namespace X86OsDev.Xv6.Fs
open Fault Memory Transition Counting
variable {sb : Superblock} {f : Fin nfile} {ip : Fin ninode} {me : Fin nproc} {s t : Sys} {n k : ℕ}

/-! ## One part under the lock -/

/-- The state after `ilock`. -/
def Sys.locked (sb : Superblock) (s : Sys) (me : Fin nproc) (ip : Fin ninode) : Sys :=
  { s with icache := Function.update s.icache ip { s.icache ip with
      lock := some me
      valid := true
      node := sb.dinode s.disk (s.icache ip).inum } }

theorem Sys.locked_icache (sb : Superblock) (s : Sys) (me : Fin nproc) (ip : Fin ninode) :
    (s.locked sb me ip).icache ip = { s.icache ip with
      lock := some me
      valid := true
      node := sb.dinode s.disk (s.icache ip).inum } := Function.update_self _ _ _

/-- The state after the offset has moved and the inode is unlocked. -/
def Sys.released (s : Sys) (f : Fin nfile) (ip : Fin ninode) (k : ℕ) : Sys :=
  { s with
    file := Function.update s.file f { s.file f with off := (s.file f).off + k }
    icache := Function.update s.icache ip { s.icache ip with lock := none } }

theorem ilock_ok (L : sb.Layout) (hb : s.busy = []) (href : 0 < (s.icache ip).ref) (hlock : (s.icache ip).lock = none)
    (hi : (s.icache ip).inum < sb.ninodes)
    (hnode : (s.icache ip).valid = true → (s.icache ip).node = sb.dinode s.disk (s.icache ip).inum)
    (ht : (sb.dinode s.disk (s.icache ip).inum).type ≠ 0) : ilock sb me ip s = .ok ((),s.locked sb me ip) := by
  unfold ilock
  rw [bind_ok get_ok, if_neg (by omega), bind_ok (acquiresleep_ok hlock)]
  by_cases hv : (s.icache ip).valid = false
  · have hread := bread_ok (s := s.withInode ip { s.icache ip with lock := some me }) (iblock_lt_fssize L hi) (by
      change _ ∉ s.busy
      simp [hb])
    have hnode : setNode ip (fun _ => (s.disk (sb.iblock (s.icache ip).inum)).dinode (s.icache ip).inum)
        ((s.withInode ip { s.icache ip with lock := some me }).hold (sb.iblock (s.icache ip).inum)) =
        .ok ((),(s.withInode ip { s.icache ip with
          lock := some me
          node := sb.dinode s.disk (s.icache ip).inum }).hold (sb.iblock (s.icache ip).inum)) := by
      simp [setNode, setInode_ok, Sys.hold, Sys.withInode, Superblock.dinode]
    rw [if_pos hv]
    refine (bind_ok hread).trans ((bind_ok hnode).trans ((bind_ok brelse_hold).trans ((bind_ok (setInode_ok _)).trans ?_)))
    refine (congrFun (if_neg ht) _).trans ?_
    simp [Sys.locked, Sys.withInode]
  · have hv' : (s.icache ip).valid = true := by simpa using hv
    rw [if_neg hv, pure_ok]
    unfold Sys.locked Sys.withInode
    rw [← hnode hv', ← hv']

theorem iunlock_ok (hlock : (s.icache ip).lock = some me) (href : 0 < (s.icache ip).ref) :
    iunlock me ip s = .ok ((),s.withInode ip { s.icache ip with lock := none }) := by
  unfold iunlock
  rw [bind_ok get_ok, if_neg (by simp [hlock]; omega)]
  rfl

/-- How both functions go on after `readi` or `writei`. -/
theorem finish_ok {α : Type} (r : α) (hlock : (s.icache ip).lock = some me) (href : 0 < (s.icache ip).ref)
    (hoff : (s.file f).off + k < 2 ^ 32) :
    (do
      advanceOff f k
      iunlock me ip
      return r : FsProg α) s = .ok (r,s.released f ip k) := by
  have hadv : advanceOff f k s =
      .ok ((),{ s with file := Function.update s.file f { s.file f with off := (s.file f).off + k } }) := by
    unfold advanceOff
    by_cases hk : 0 < k
    · rw [if_pos hk, modify_ok, u32_of_lt hoff]
    · obtain rfl : k = 0 := by omega
      rw [if_neg hk, pure_ok]
      simp
  rw [bind_ok hadv]
  generalize hu : { s with file := Function.update s.file f { s.file f with off := (s.file f).off + k } } = u
  have hicache : u.icache = s.icache := by rw [← hu]
  rw [bind_ok (iunlock_ok (hicache ▸ hlock) (hicache ▸ href)), ← hu]
  rfl

/-- The inode is locked by the process that is in a call. -/
structure Entered (sb : Superblock) (f : Fin nfile) (me : Fin nproc) (ip : Fin ninode) (s : Sys) : Prop where
  locked : Locked sb me ip s
  consistent : Consistent sb s.disk
  busy : s.busy = []
  inode : (s.file f).ip = ip
  type : (s.file f).type = .inode
  regular : (s.icache ip).node.type = tFile

theorem Settled.entered (h : Settled sb f s) (hip : (s.file f).ip = ip) : Entered sb f me ip (s.locked sb me ip) := by
  subst hip
  have hself := Sys.locked_icache sb s me (s.file f).ip
  refine ⟨⟨?_,?_,?_,?_,?_,?_⟩,h.consistent,h.busy,rfl,h.type,?_⟩
  · rw [hself]
  · rw [hself]
    exact h.ref
  · rw [hself]
  · rw [hself]
    exact h.inum
  · rw [hself]
    dsimp only
    rw [h.regular]
    decide
  · rw [hself]
    rfl
  · rw [hself]
    exact h.regular

theorem Entered.released (h : Entered sb f me ip s) (hoff : (s.file f).off + k < 2 ^ 32) :
    Settled sb f (s.released f ip k) ∧ fileBytes sb f (s.released f ip k) = content s.disk (s.icache ip).node := by
  have hfile : (s.released f ip k).file f = { s.file f with off := (s.file f).off + k } := Function.update_self _ _ _
  have hself : (s.released f ip k).icache ip = { s.icache ip with lock := none } := Function.update_self _ _ _
  have hip : ((s.released f ip k).file f).ip = ip := by
    rw [hfile]
    exact h.inode
  constructor
  · refine ⟨h.consistent,h.busy,?_,?_,?_,?_,?_,fun _ => ?_,?_⟩
    · rw [hfile]
      exact h.type
    · rw [hfile]
      exact hoff
    · rw [hip, hself]
      exact h.locked.ref
    · rw [hip, hself]
    · rw [hip, hself]
      exact h.locked.inum
    · rw [hip, hself]
      exact h.locked.node
    · rw [hip, hself]
      exact h.locked.node ▸ h.regular
  · unfold fileBytes
    rw [hip, hself, h.locked.node]
    rfl

/-- What a part under the lock does but for the content: the offset moves. -/
structure Moved (sb : Superblock) (f : Fin nfile) (s t : Sys) (k : ℕ) : Prop where
  settled : Settled sb f t
  file : t.file f = { s.file f with off := (s.file f).off + k }
  outstanding : t.log.outstanding = s.log.outstanding

theorem Settled.ilock_ok (L : sb.Layout) (h : Settled sb f s) (hip : (s.file f).ip = ip) :
    ilock sb me ip s = .ok ((),s.locked sb me ip) := by
  subst hip
  exact Fs.ilock_ok L h.busy h.ref h.lock h.inum h.node (by rw [h.regular]; decide)

theorem Settled.locked_bytes (hip : (s.file f).ip = ip) :
    content (s.locked sb me ip).disk ((s.locked sb me ip).icache ip).node = fileBytes sb f s := by
  subst hip
  rw [Sys.locked_icache]
  rfl

/-- `fileread` returns the bytes at the offset and moves it past them. -/
theorem fileread_spec (L : sb.Layout) (h : Settled sb f s) (hn : n < 2 ^ 31) :
    Ends (fileread sb f me n) s (fun _ => False) fun r t =>
      Moved sb f s t (r.getD []).length ∧ fileBytes sb f t = fileBytes sb f s ∧
        r = if (fileBytes sb f s).length < (s.file f).off ∨ 2 ^ 32 ≤ (s.file f).off + n then none
          else some (((fileBytes sb f s).drop (s.file f).off).take n) := by
  obtain ⟨ip,hip⟩ : ∃ ip, (s.file f).ip = ip := ⟨_,rfl⟩
  have he : Entered sb f me ip (s.locked sb me ip) := h.entered hip
  have hbytes : content (s.locked sb me ip).disk ((s.locked sb me ip).icache ip).node = fileBytes sb f s :=
    Settled.locked_bytes hip
  have hlen : ((s.locked sb me ip).icache ip).node.size = (fileBytes sb f s).length := by
    rw [← hbytes, length_content]
  have hread := readi_ok L (he.consistent.open he.locked he.busy) me (by rw [he.regular]; decide) h.off
    (show n < 2 ^ 32 by omega)
  rw [hbytes, hlen] at hread
  generalize hr : (if (fileBytes sb f s).length < (s.file f).off ∨ 2 ^ 32 ≤ (s.file f).off + n then none
    else some (((fileBytes sb f s).drop (s.file f).off).take n)) = r at hread
  have hoff : (s.file f).off + (r.getD []).length < 2 ^ 32 := by
    split at hr
    · subst hr
      exact h.off
    · rename_i hin
      subst hr
      have : (((fileBytes sb f s).drop (s.file f).off).take n).length ≤ n := List.length_take_le _ _
      rw [Option.getD_some]
      omega
  have hlength : (r.map List.length).getD 0 = (r.getD []).length := by
    cases r with
    | none => rfl
    | some dst => rfl
  unfold fileread
  refine .seq_ok get_ok ?_
  rw [hip]
  refine .seq_ok (h.ilock_ok L hip) (.seq_ok get_ok (.seq_ok hread ?_))
  rw [hlength]
  refine (ends_of_ok (finish_ok r he.locked.lock he.locked.ref hoff)).mpr ?_
  obtain ⟨hs,hb⟩ := he.released (k := (r.getD []).length) hoff
  exact ⟨⟨hs,Function.update_self _ _ _,rfl⟩,hb.trans hbytes,rfl⟩

theorem Entered.wrote {src : ℕ → UInt8} {off : ℕ} (h : Entered sb f me ip s) (hw : Wrote sb ip src off n s t) :
    Entered sb f me ip t := by
  obtain ⟨a,ha⟩ := hw.icache
  have hself : t.icache ip = { s.icache ip with node := { (s.icache ip).node with
      size := max (s.icache ip).node.size (off + n), addrs := a } } := by
    rw [ha, Sys.withNode_icache_self]
  have hp := hw.persisted
  refine ⟨⟨?_,?_,?_,?_,?_,?_⟩,hw.consistent,hw.busy.trans h.busy,?_,?_,?_⟩
  · rw [hself]
    exact h.locked.lock
  · rw [hself]
    exact h.locked.ref
  · rw [hself]
    exact h.locked.valid
  · rw [hself]
    exact h.locked.inum
  · rw [hself]
    exact h.locked.type
  · rw [← hp, hself]
  · rw [hw.file]
    exact h.inode
  · rw [hw.file]
    exact h.type
  · rw [hself]
    exact h.regular

/-- What `writei` refuses. -/
def Refused (sb : Superblock) (f : Fin nfile) (s : Sys) (n : ℕ) : Prop :=
  (fileBytes sb f s).length < (s.file f).off ∨ maxfile * bsize < (s.file f).off + n

/-- How a part of `filewrite` stops the kernel: the disk or the log is full. -/
def OutOfRoom (sb : Superblock) (f : Fin nfile) (s : Sys) (n : ℕ) (e : Stop) : Prop :=
  ¬ Refused sb f s n ∧ ((e = .panic .balloc ∧ (fileBytes sb f s).length < (s.file f).off + n) ∨
    (e = .panic .tooBig ∧ FullWithin s.log (6 * spans (s.file f).off n + 1)))

/-- A chunk is written at the offset, which moves past it, or nothing changes. -/
theorem writeChunk_spec {src : ℕ → UInt8} (L : sb.Layout) (h : Settled sb f s) (ho : 1 ≤ s.log.outstanding) (hn : n < 2 ^ 31) :
    Ends (writeChunk sb f me src n) s (OutOfRoom sb f s n) fun r t =>
      Moved sb f s t (r.getD 0) ∧ LogGrows sb s.log t.log ∧ ((r = none ∧ Refused sb f s n ∧ fileBytes sb f t = fileBytes sb f s) ∨
        (r = some n ∧ ¬ Refused sb f s n ∧
          fileBytes sb f t = splice (fileBytes sb f s) (s.file f).off ((List.range n).map src))) := by
  obtain ⟨ip,hip⟩ : ∃ ip, (s.file f).ip = ip := ⟨_,rfl⟩
  have he : Entered sb f me ip (s.locked sb me ip) := h.entered hip
  have hbytes : content (s.locked sb me ip).disk ((s.locked sb me ip).icache ip).node = fileBytes sb f s :=
    Settled.locked_bytes hip
  have hdev : ((s.locked sb me ip).icache ip).node.type ≠ tDev := by
    rw [he.regular]
    decide
  have hlen : (fileBytes sb f s).length = ((s.locked sb me ip).icache ip).node.size := by
    rw [← hbytes, length_content]
  unfold writeChunk
  refine .seq_ok get_ok ?_
  rw [hip]
  refine .seq_ok (h.ilock_ok L hip) (.seq_ok get_ok ?_)
  have hrefused : Refused sb f s n ↔ ((s.locked sb me ip).icache ip).node.size < (s.file f).off ∨
      2 ^ 32 ≤ (s.file f).off + n ∨ maxfile * bsize < (s.file f).off + n := by
    unfold Refused
    rw [hlen]
    simp only [maxfile, bsize, ndirect, nindirect]
    omega
  by_cases hbad : Refused sb f s n
  · refine .seq_ok (writei_refused me hdev h.off (by omega) (hrefused.mp hbad)) ?_
    refine (ends_of_ok (finish_ok none he.locked.lock he.locked.ref h.off)).mpr ?_
    obtain ⟨hs,hb⟩ := he.released (k := 0) h.off
    exact ⟨⟨hs,Function.update_self _ _ _,rfl⟩,.refl _,.inl ⟨rfl,hbad,hb.trans hbytes⟩⟩
  · have h2 : (s.file f).off + n < 2 ^ 32 := not_le.mp fun hc => hbad (hrefused.mpr (.inr (.inl hc)))
    have hends := writei_law L he.consistent he.locked he.busy hdev src (hlen ▸ not_lt.mp fun hc => hbad (.inl hc))
      (not_lt.mp fun hc => hbad (.inr hc)) ho
    rw [← hlen] at hends
    refine .seq (hends.mono (fun _ _ h => h) fun _ he => ⟨hbad,he⟩) ?_
    rintro r t ⟨rfl,hw⟩
    have het := he.wrote hw
    have hfile : t.file = s.file := hw.file
    have hoff : (t.file f).off + n < 2 ^ 32 := by
      rw [hfile]
      exact h2
    refine (ends_of_ok (finish_ok (some n) het.locked.lock het.locked.ref hoff)).mpr ?_
    obtain ⟨hs,hb⟩ := het.released hoff
    refine ⟨⟨hs,?_,hw.log.outstanding⟩,hw.log,.inr ⟨rfl,hbad,?_⟩⟩
    · exact (Function.update_self _ _ _).trans (by rw [hfile]; rfl)
    · rw [hb, hw.content, hbytes]

/-! ## Ranges -/

/-- Each range starts where the one before it ended. -/
def Chained : ℕ → List Range → ℕ → Prop
  | a, [], b => a = b
  | a, r :: l, b => r.start = a ∧ Chained r.stop l b

section Ranges
variable {a b : ℕ} {l : List Range} {r : Range}

theorem Chained.append (h : Chained a l b) (hr : r.start = b) : Chained a (l ++ [r]) r.stop := by
  induction l generalizing a with
  | nil => exact ⟨hr.trans h.symm,rfl⟩
  | cons q l ih => exact ⟨h.1,ih h.2⟩

theorem Chained.le (h : Chained a l b) : a ≤ b := by
  induction l generalizing a with
  | nil => exact h.le
  | cons q l ih =>
    obtain ⟨rfl,hl⟩ := h
    exact (Nat.le_add_right _ _).trans (ih hl)

theorem Chained.mem (h : Chained a l b) (hr : r ∈ l) : a ≤ r.start ∧ r.stop ≤ b := by
  induction l generalizing a with
  | nil => cases hr
  | cons q l ih =>
    obtain ⟨rfl,hl⟩ := h
    rcases List.mem_cons.mp hr with rfl | hr
    · exact ⟨le_rfl,hl.le⟩
    · obtain ⟨h1,h2⟩ := ih hl hr
      exact ⟨(Nat.le_add_right _ _).trans h1,h2⟩

theorem Chained.pairwise (h : Chained a l b) : l.Pairwise fun r q => r.stop ≤ q.start := by
  induction l generalizing a with
  | nil => exact .nil
  | cons r l ih => exact .cons (fun q hq => (h.2.mem hq).1) (ih h.2)

theorem splice_below {l bs : List UInt8} {off i m : ℕ} (h : i + m ≤ off) (hoff : off ≤ l.length) :
    ((splice l off bs).drop i).take m = (l.drop i).take m := by
  unfold splice
  rw [List.append_assoc, List.drop_append_of_le_length (by simp; omega), List.take_append_of_le_length (by simp; omega),
    List.drop_take, List.take_take, min_eq_left (by omega)]

theorem splice_self {l bs : List UInt8} {off : ℕ} (hoff : off ≤ l.length) :
    ((splice l off bs).drop off).take bs.length = bs := by
  unfold splice
  rw [List.append_assoc, List.drop_append_of_le_length (by simp; omega), List.drop_take, Nat.sub_self, List.take_zero,
    List.nil_append, List.take_left']
  rfl

end Ranges

/-! ## Runs -/

/-- What a process has written so far. -/
def bytesOf (p : Fin nproc) (l : List Range) : List UInt8 :=
  (l.filter fun r => r.proc = p ∧ r.written).flatMap (·.bytes)

/-- How many bytes a call of `filewrite` has written. -/
def Call.count : Call → Option ((ℕ → UInt8) × ℕ)
  | .write src _ i | .inOp src _ i => some (src,i)
  | .wrote src _ i (some r) => some (src,i + r)
  | _ => none

structure OffsetInv (sb : Superblock) (f : Fin nfile) (start : ℕ) (s : Shared) : Prop where
  settled : Settled sb f s.sys
  inside : s.inside ≤ s.sys.log.outstanding
  chained : Chained start s.ranges (s.sys.file f).off
  held : ∀ r ∈ s.ranges, ((fileBytes sb f s.sys).drop r.start).take r.bytes.length = r.bytes
  nonempty : ∀ r ∈ s.ranges, r.bytes ≠ []
  small : ∀ r ∈ s.ranges, r.written = true → r.bytes.length ≤ maxWrite
  reads : ∀ p n, s.call p = .read n → n < 2 ^ 31
  whole : ∀ p src n i r, s.call p = .wrote src n i (some r) → r = min (n - i) maxWrite
  counted : ∀ p src i, (s.call p).count = some (src,i) → (List.range i).map src <:+ bytesOf p s.ranges

section Runs
variable {start : ℕ} {s : Shared} {p : Fin nproc} {c : Call}

/-- A process goes on and nothing else changes but the log. -/
theorem OffsetInv.goto (h : OffsetInv sb f start s) {l : LogProtocol.Log}
    (hlog : s.inside + c.inside ≤ l.outstanding + (s.call p).inside)
    (hread : ∀ n, c = .read n → n < 2 ^ 31) (hwrote : ∀ src n i r, c ≠ .wrote src n i (some r))
    (hcount : ∀ src i, c.count = some (src,i) → (List.range i).map src <:+ bytesOf p s.ranges) :
    OffsetInv sb f start ((s.setLog l).goto p c) := by
  have hsum : ((s.setLog l).goto p c).inside + (s.call p).inside = s.inside + c.inside :=
    sum_update_add s.call Call.inside p c
  refine ⟨⟨h.settled.consistent,h.settled.busy,h.settled.type,h.settled.off,h.settled.ref,h.settled.lock,h.settled.inum,
    h.settled.node,h.settled.regular⟩,?_,h.chained,h.held,h.nonempty,h.small,fun q n hq => ?_,fun q src n i r hq => ?_,
    fun q src i hq => ?_⟩
  · change (_ : ℤ) ≤ l.outstanding
    omega
  · by_cases hqp : q = p
    · subst hqp
      exact hread n (by simpa [Shared.goto] using hq)
    · exact h.reads q n (by simpa [Shared.goto, Shared.setLog, hqp] using hq)
  · by_cases hqp : q = p
    · subst hqp
      exact absurd (by simpa [Shared.goto] using hq) (hwrote src n i r)
    · exact h.whole q src n i r (by simpa [Shared.goto, Shared.setLog, hqp] using hq)
  · by_cases hqp : q = p
    · subst hqp
      exact hcount src i (by simpa [Shared.goto] using hq)
    · exact h.counted q src i (by simpa [Shared.goto, Shared.setLog, hqp] using hq)

theorem bytesOf_note_of_ne {q : Fin nproc} (hqp : q ≠ p) (w : Bool) (bytes : List UInt8) (t : Sys) :
    bytesOf q (s.note f p w bytes t).ranges = bytesOf q s.ranges := by
  unfold Shared.note bytesOf
  dsimp only
  split
  · rfl
  · simp [Ne.symm hqp]

theorem bytesOf_note_self (bytes : List UInt8) (t : Sys) :
    bytesOf p (s.note f p true bytes t).ranges = bytesOf p s.ranges ++ bytes := by
  unfold Shared.note bytesOf
  dsimp only
  split
  · rename_i hb
    simp [hb]
  · simp

/-- A part under the lock: the bytes before the offset stay, and the range is added. -/
theorem OffsetInv.section (h : OffsetInv sb f start s) {w : Bool} {bytes : List UInt8} {t : Sys}
    (hm : Moved sb f s.sys t bytes.length)
    (hbelow : ∀ i m, i + m ≤ (s.sys.file f).off →
      ((fileBytes sb f t).drop i).take m = ((fileBytes sb f s.sys).drop i).take m)
    (hself : ((fileBytes sb f t).drop (s.sys.file f).off).take bytes.length = bytes)
    (hsmall : w = true → bytes.length ≤ maxWrite) (hin : c.inside = (s.call p).inside) (hread : ∀ n, c ≠ .read n)
    (hwrote : ∀ src n i r, c = .wrote src n i (some r) → r = min (n - i) maxWrite)
    (hcount : ∀ src i, c.count = some (src,i) → (List.range i).map src <:+ bytesOf p (s.note f p w bytes t).ranges) :
    OffsetInv sb f start ((s.note f p w bytes t).goto p c) := by
  have hsum : ((s.note f p w bytes t).goto p c).inside + (s.call p).inside = s.inside + c.inside :=
    sum_update_add s.call Call.inside p c
  have hmem : ∀ r ∈ (s.note f p w bytes t).ranges, r ∈ s.ranges ∨ (bytes ≠ [] ∧ r = ⟨p,w,(s.sys.file f).off,bytes⟩) := by
    intro r hr
    unfold Shared.note at hr
    dsimp only at hr
    split at hr
    · exact .inl hr
    · rename_i hb
      rcases List.mem_append.mp hr with hr | hr
      · exact .inl hr
      · exact .inr ⟨hb,List.mem_singleton.mp hr⟩
  have hoff : (t.file f).off = (s.sys.file f).off + bytes.length := by rw [hm.file]
  refine ⟨hm.settled,?_,?_,fun r hr => ?_,fun r hr => ?_,fun r hr hw => ?_,fun q n hq => ?_,fun q src n i r hq => ?_,
    fun q src i hq => ?_⟩
  · change (_ : ℤ) ≤ t.log.outstanding
    have := h.inside
    rw [hm.outstanding]
    omega
  · change Chained start (if bytes = [] then s.ranges else _) (t.file f).off
    rw [hoff]
    split
    · rename_i hb
      subst hb
      exact h.chained
    · exact h.chained.append rfl
  · change ((fileBytes sb f t).drop r.start).take r.bytes.length = r.bytes
    rcases hmem r hr with hr | ⟨-,rfl⟩
    · rw [hbelow _ _ (h.chained.mem hr).2]
      exact h.held r hr
    · exact hself
  · rcases hmem r hr with hr | ⟨hb,rfl⟩
    · exact h.nonempty r hr
    · exact hb
  · rcases hmem r hr with hr | ⟨-,rfl⟩
    · exact h.small r hr hw
    · exact hsmall hw
  · by_cases hqp : q = p
    · subst hqp
      exact absurd (by simpa [Shared.goto] using hq) (hread n)
    · exact h.reads q n (by simpa [Shared.goto, Shared.note, hqp] using hq)
  · by_cases hqp : q = p
    · subst hqp
      exact hwrote src n i r (by simpa [Shared.goto] using hq)
    · exact h.whole q src n i r (by simpa [Shared.goto, Shared.note, hqp] using hq)
  · by_cases hqp : q = p
    · subst hqp
      exact hcount src i (by simpa [Shared.goto] using hq)
    · have := h.counted q src i (by simpa [Shared.goto, Shared.note, hqp] using hq)
      exact (bytesOf_note_of_ne hqp w bytes t).symm ▸ this

theorem OffsetInv.readSection (L : sb.Layout) (h : OffsetInv sb f start s) {r : Option (List UInt8)} {t : Sys}
    (hp : s.call p = .read n) (hrun : fileread sb f p n s.sys = .ok (r,t)) :
    OffsetInv sb f start ((s.note f p false (r.getD []) t).goto p .idle) := by
  obtain ⟨hm,hb,hr⟩ := (fileread_spec L h.settled (h.reads p n hp)).ok hrun
  have hself : ((fileBytes sb f s.sys).drop (s.sys.file f).off).take (r.getD []).length = r.getD [] := by
    rw [hr]
    split
    · rfl
    · rw [Option.getD_some, List.length_take, ← List.take_take, List.take_length]
  exact h.section hm (fun i m _ => by rw [hb]) (by rw [hb]; exact hself) (fun hw => nomatch hw) (by rw [hp]; rfl)
    (fun n hn => nomatch hn) (fun src n i r hc => nomatch hc) fun src i hc => nomatch hc

theorem OffsetInv.writeSection (L : sb.Layout) (h : OffsetInv sb f start s) {src : ℕ → UInt8} {i : ℕ} {r : Option ℕ} {t : Sys}
    (hp : s.call p = .inOp src n i)
    (hrun : writeChunk sb f p (fun j => src (i + j)) (min (n - i) maxWrite) s.sys = .ok (r,t)) :
    OffsetInv sb f start ((s.note f p true (chunkBytes src i r) t).goto p (.wrote src n i r)) := by
  have hle : min (n - i) maxWrite ≤ maxWrite := min_le_right _ _
  have hmax : maxWrite = 1536 := rfl
  have hpos : 1 ≤ s.sys.log.outstanding := by
    have h1 : (s.call p).inside ≤ s.inside :=
      Finset.single_le_sum (f := fun q => (s.call q).inside) (fun _ _ => Nat.zero_le _) (Finset.mem_univ p)
    have h2 : (s.call p).inside = 1 := by
      rw [hp]
      rfl
    have := h.inside
    omega
  obtain ⟨hm,-,hr⟩ := (writeChunk_spec L h.settled hpos (show min (n - i) maxWrite < 2 ^ 31 by omega)).ok hrun
  have hcounted := h.counted p src i (by rw [hp]; rfl)
  rcases hr with ⟨rfl,-,hb⟩ | ⟨rfl,hin,hb⟩
  · refine h.section hm (fun i m _ => by rw [hb]) (List.take_zero ..) (fun _ => Nat.zero_le _) (by rw [hp]; rfl)
      (fun n hn => nomatch hn) (fun src n i r hc => nomatch hc) fun src i hc => nomatch hc
  · have hoff : (s.sys.file f).off ≤ (fileBytes sb f s.sys).length := not_lt.mp fun hc => hin (.inl hc)
    have hlen : (chunkBytes src i (some (min (n - i) maxWrite))).length = min (n - i) maxWrite := by simp [chunkBytes]
    have hsplice : fileBytes sb f t = splice (fileBytes sb f s.sys) (s.sys.file f).off
        (chunkBytes src i (some (min (n - i) maxWrite))) := hb
    refine h.section (hlen.symm ▸ hm) (fun j m hj => ?_) ?_ (fun _ => hlen.trans_le hle) (by rw [hp]; rfl) (fun n hn => nomatch hn)
      (fun src' n' i' r hc => ?_) fun src' i' hc => ?_
    · rw [hsplice, splice_below hj hoff]
    · rw [hsplice, splice_self hoff]
    · cases hc
      rfl
    · cases hc
      rw [bytesOf_note_self, List.range_add, List.map_append, List.map_map]
      obtain ⟨pre,hpre⟩ := hcounted
      exact ⟨pre,by rw [← hpre, List.append_assoc]; rfl⟩

/-- A step that neither begins nor ends a transaction. -/
theorem OffsetInv.inside_same (h : OffsetInv sb f start s) (hc : c.inside = (s.call p).inside) :
    (s.inside : ℤ) + c.inside ≤ s.sys.log.outstanding + (s.call p).inside := by
  rw [hc]
  exact Int.add_le_add_right h.inside _

theorem OffsetInv.inside_end (h : OffsetInv sb f start s) :
    (s.inside : ℤ) + (0 : ℕ) ≤ s.sys.log.outstanding - 1 + (1 : ℕ) := by
  have := h.inside
  omega

theorem OffsetInv.step (L : sb.Layout) (h : OffsetInv sb f start s) {a : Option (Fin nproc)} {t : Shared} (hs : Step sb f s a t) :
    OffsetInv sb f start t := by
  have hinside := h.inside
  cases hs with
  | @read p n hp hn hr =>
    refine h.goto (h.inside_same (by rw [hp]; rfl)) (fun m hm => ?_) (fun src n i r hc => nomatch hc)
      fun src i hc => nomatch hc
    cases hm
    exact hn
  | readSection hp hrun => exact h.readSection L hp hrun
  | @write p src n hp hn hw =>
    refine h.goto (h.inside_same (by rw [hp]; rfl)) (fun m hm => nomatch hm)
      (fun src n i r hc => nomatch hc) fun src' i hc => ?_
    cases hc
    exact List.nil_suffix
  | @beginOp p src n i hp hi hlog =>
    refine h.goto ?_ (fun m hm => nomatch hm) (fun src n i r hc => nomatch hc) fun src' i' hc => ?_
    · rw [hp]
      change (s.inside : ℤ) + (1 : ℕ) ≤ s.sys.log.outstanding + 1 + (0 : ℕ)
      omega
    exact h.counted p src' i' (by rw [hp]; exact hc)
  | writeSection hp hrun => exact h.writeSection L hp hrun
  | @failed p src n i hp hlog =>
    refine h.goto ?_ (fun m hm => nomatch hm) (fun src n i r hc => nomatch hc) fun src' i' hc => nomatch hc
    rw [hp]
    exact h.inside_end
  | @endOp p src n i r hp hlog hr =>
    refine h.goto ?_ (fun m hm => nomatch hm) (fun src n i r hc => nomatch hc) fun src' i' hc => ?_
    · rw [hp]
      exact h.inside_end
    · exact h.counted p src' i' (by rw [hp]; exact hc)
  | @done p src n i hp hi =>
    exact h.goto (h.inside_same (by rw [hp]; rfl)) (fun m hm => nomatch hm)
      (fun src n i r hc => nomatch hc) fun src' i' hc => nomatch hc
  | elsewhere he =>
    refine ⟨he.settled,he.inside,?_,fun r hr => ?_,h.nonempty,h.small,h.reads,h.whole,h.counted⟩
    · dsimp only
      rw [he.file]
      exact h.chained
    · dsimp only
      rw [he.bytes]
      exact h.held r hr

theorem OffsetInv.base (h : FileStart sb f s) : OffsetInv sb f (s.sys.file f).off s := by
  have hnone : s.inside = 0 := Finset.sum_eq_zero fun p _ => by rw [h.idle p]; rfl
  refine ⟨h.settled,?_,?_,?_,?_,?_,fun p n hp => ?_,fun p src n i r hp => ?_,fun p src i hp => ?_⟩
  · rw [hnone]
    exact h.outstanding
  · rw [h.ranges]
    rfl
  · simp [h.ranges]
  · simp [h.ranges]
  · simp [h.ranges]
  · rw [h.idle] at hp
    cases hp
  · rw [h.idle] at hp
    cases hp
  · rw [h.idle] at hp
    cases hp

/-- In any interleaving of calls on one `struct file` the ranges read and written follow one another up to the offset,
each of them still has the bytes that were read or written there, and a call has written a beginning of its bytes. -/
theorem shared_offset (L : sb.Layout) (h : FileReached sb f start s) :
    Chained start s.ranges (s.sys.file f).off ∧ (s.ranges.Pairwise fun r q => r.stop ≤ q.start) ∧
      (∀ r ∈ s.ranges, r.bytes ≠ [] ∧ ((fileBytes sb f s.sys).drop r.start).take r.bytes.length = r.bytes ∧
        (r.written = true → r.bytes.length ≤ 1536)) ∧
      (∀ p src i, (s.call p).count = some (src,i) → (List.range i).map src <:+ bytesOf p s.ranges) ∧
      ∀ p src n i r, s.call p = .wrote src n i (some r) → r = min (n - i) 1536 := by
  have hinv : OffsetInv sb f start s := by
    refine h.invariant ?_ fun s a t hs ht => hs.step L ht
    rintro s ⟨hs,rfl⟩
    exact .base hs
  exact ⟨hinv.chained,hinv.chained.pairwise,fun r hr => ⟨hinv.nonempty r hr,hinv.held r hr,hinv.small r hr⟩,hinv.counted,
    hinv.whole⟩

end Runs

/-! ## An open file of 36 blocks -/

namespace BigFile

/-- Every `struct file` is open on the file, which nobody uses. -/
def opened : Shared where
  sys := { state with
    log := ⟨[],0,false,30⟩
    icache := fun ip => { state.icache ip with lock := none }
    file := fun _ => ⟨.inode,1,true,true,⟨0,ninode_pos⟩,0⟩ }
  call _ := .idle
  ranges := []

theorem opened_start : FileStart .mkfs 0 opened :=
  ⟨⟨consistent,rfl,rfl,by decide,by decide,rfl,by decide,fun _ => dinode_two.symm,by
    change (Superblock.mkfs.dinode disk 2).type = tFile
    rw [dinode_two]
    rfl⟩,fun _ => rfl,by decide,rfl⟩

theorem opened_bytes : (fileBytes .mkfs 0 opened.sys).length = 18432 := by
  change (content disk (Superblock.mkfs.dinode disk 2)).length = 18432
  rw [dinode_two, length_content]
  rfl

/-- One process has read five bytes, and the offset is behind them. -/
theorem opened_read : ∃ s, FileReached .mkfs 0 0 s ∧ (s.ranges.map fun r => (r.proc,r.start)) = [(3,0)] ∧
    Chained 0 s.ranges (s.sys.file 0).off ∧ ∀ r ∈ s.ranges, r.bytes ≠ [] := by
  have h0 : FileReached .mkfs 0 0 opened := .base ⟨opened_start,rfl⟩
  have h1 : FileReached .mkfs 0 0 (opened.goto 3 (.read 5)) := h0.next (.read rfl (by decide) rfl)
  have hread : Ends (fileread .mkfs 0 3 5) opened.sys (fun _ => False) _ :=
    fileread_spec Superblock.mkfs_layout opened_start.settled (by decide)
  obtain ⟨r,t,hrun,-,-,hr⟩ := hread.exists_ok fun _ => id
  have hlen : (r.getD []).length = 5 := by
    have hoff : (opened.sys.file 0).off = 0 := rfl
    rw [hr, hoff, opened_bytes, if_neg (by decide), Option.getD_some, List.length_take, List.length_drop, opened_bytes]
    decide
  have h2 := h1.next (.readSection (p := 3) (n := 5) (by simp [Shared.goto]) hrun)
  have hne : r.getD [] ≠ [] := by
    intro hc
    rw [hc] at hlen
    cases hlen
  obtain ⟨hchain,-,hall,-⟩ := shared_offset Superblock.mkfs_layout h2
  refine ⟨_,h2,?_,hchain,fun r hr => (hall r hr).1⟩
  simp only [Shared.goto, Shared.note, if_neg hne]
  rfl

end BigFile

end X86OsDev.Xv6.Fs
