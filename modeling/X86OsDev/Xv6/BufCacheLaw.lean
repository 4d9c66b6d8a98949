import X86OsDev.Xv6.BufCacheInv

/-! # The buffer cache keeps blocks, counts and contents apart

Each action is a change of its call's buffer, an opened or a closed call, or a
panic.
-/
namespace X86OsDev.Xv6.BufCache
open Transition CircularList
open LogProtocol (Log)

variable {P : Type*} {s t : Sys P} {b : Fin nbuf} {c : Call P} {k : ℕ}

/-- The identity of the buffers in use. -/
def Pinned (s t : Sys P) : Prop := ∀ b, 0 < (s.buf b).refcnt ∨ (s.buf b).dirty = true →
  (t.buf b).dev = (s.buf b).dev ∧ (t.buf b).blockno = (s.buf b).blockno

/-- A step of an open call: it goes wrong, or it is a change of its buffer. -/
def Moved (s : Sys P) (k : ℕ) (t : Sys P) : Prop :=
  (∃ p, t = s.panic p) ∨ ∃ c ph v, s.calls[k]? = some c ∧ Change s k c ph v t

theorem Moved.inv (h : Inv s) (hp : s.panicked = none) (hm : Moved s k t) :
    Inv t ∧ Pinned s t := by
  rcases hm with ⟨p,rfl⟩ | ⟨c,ph,v,hk,hch⟩
  · exact ⟨h.panic p,fun _ _ => ⟨rfl,rfl⟩⟩
  · exact ⟨hch.inv h hp hk,fun b _ => hch.pinned b⟩

/-- `bget` opens a call on a buffer of the block, or takes a buffer that nobody uses. Its searches
end. -/
theorem bget_cases (h : Inv s) (i : P) (n : ℕ) (reads : Bool) :
    (∃ b, (s.buf b).dev = rootdev ∧ (s.buf b).blockno = n ∧ bget s i n reads =
      some { s.setBuf b { s.buf b with refcnt := (s.buf b).refcnt + 1 } with
        calls := ⟨i,b,n,reads,.waiting⟩ :: s.calls }) ∨
    (∃ b, (s.buf b).refcnt = 0 ∧ (s.buf b).dirty = false ∧
      (∀ d, (s.buf d).dev = rootdev → (s.buf d).blockno ≠ n) ∧ bget s i n reads =
        some { s.setBuf b { s.buf b with
            dev := rootdev, blockno := n, valid := false, dirty := false, refcnt := 1 } with
          calls := ⟨i,b,n,reads,.waiting⟩ :: s.calls }) ∨
    bget s i n reads = some (s.panic .noBuffers) := by
  unfold bget
  obtain ⟨r,hscan,hr⟩ := h.links.scan_next (s.isCached n)
  rw [hscan]
  cases r with
  | some a =>
    obtain ⟨b,rfl,hb⟩ := hr
    simp only [Sys.isCached, Bool.and_eq_true, decide_eq_true_eq] at hb
    exact .inl ⟨b,hb.1,hb.2,rfl⟩
  | none =>
    have hnone : ∀ d, (s.buf d).dev = rootdev → (s.buf d).blockno ≠ n := by
      intro d hd hno
      have := hr d
      simp [Sys.isCached, hd, hno] at this
    right
    obtain ⟨r,hscan',hr⟩ := h.links.reverse.scan_next s.isUnused
    rw [hscan']
    cases r with
    | some a =>
      obtain ⟨b,rfl,hb⟩ := hr
      simp only [Sys.isUnused, Bool.and_eq_true, decide_eq_true_eq, Bool.not_eq_true'] at hb
      exact .inl ⟨b,hb.1,hb.2,hnone,rfl⟩
    | none => exact .inr rfl

theorem bget_inv (h : Inv s) {i : P} {n : ℕ} {reads : Bool} (hb : bget s i n reads = some t) :
    Inv t ∧ Pinned s t := by
  rcases bget_cases h i n reads with ⟨b,hdev,hno,he⟩ | ⟨b,href,hdirty,hnone,he⟩ | he
  · rw [hb, Option.some_inj] at he
    subst he
    refine ⟨h.open hdev hno,fun d _ => ?_⟩
    obtain ⟨-,-,h3,h4,-⟩ := setBuf_refcnt_same (n := (s.buf b).refcnt + 1) s b d
    exact ⟨h3,h4⟩
  · rw [hb, Option.some_inj] at he
    subst he
    refine ⟨h.recycle href hdirty hnone,fun d hd => ?_⟩
    have hne : d ≠ b := by
      rintro rfl
      rw [href, hdirty] at hd
      rcases hd with hd | hd <;> cases hd
    simp [Sys.setBuf, hne]
  · rw [hb, Option.some_inj] at he
    subst he
    exact ⟨h.panic _,fun _ _ => ⟨rfl,rfl⟩⟩

variable [DecidableEq P]

/-- `iderw` panics, writes a dirty buffer to the disk, or reads one that is not valid. -/
theorem iderw_cases (s : Sys P) (i : P) (b : Fin nbuf) :
    (∃ p, iderw s i b = s.panic p) ∨
    ((s.buf b).dirty = true ∧ iderw s i b =
      { s.setBuf b { s.buf b with dirty := false, valid := true } with
        disk := Function.update s.disk (s.buf b).blockno (s.buf b).data }) ∨
    ((s.buf b).dirty = false ∧ iderw s i b =
      s.setBuf b { s.buf b with data := s.disk (s.buf b).blockno, valid := true }) := by
  unfold iderw
  simp only
  split_ifs with h1 h2 h3 h4 h5
  · exact .inl ⟨_,rfl⟩
  · exact .inl ⟨_,rfl⟩
  · exact .inl ⟨_,rfl⟩
  · exact .inl ⟨_,rfl⟩
  · exact .inr (.inl ⟨h5,rfl⟩)
  · exact .inr (.inr ⟨by simpa using h5,rfl⟩)

theorem acquiresleep_change (h : Inv s) (hp : s.panicked = none)
    (ha : advance s (.acquiresleep k) = some t) :
    ∃ c ph v, s.calls[k]? = some c ∧ Change s k c ph v t := by
  simp only [advance, Option.bind_eq_bind, Option.bind_eq_some_iff] at ha
  obtain ⟨c,hk,ha⟩ := ha
  split_ifs at ha with hcond
  obtain ⟨hwait,hlock⟩ := hcond
  obtain rfl := Option.some_inj.mp ha
  exact ⟨c,_,_,hk,.phase h hp hk (.inr hlock) (by rw [hwait]; decide) .locked
    (some c.proc) fun _ => rfl⟩

/-- `bread` returns the block, with its content, unless the disk panics. -/
theorem bread_change (h : Inv s) (hp : s.panicked = none) (ha : advance s (.bread k) = some t) :
    ∃ c ph v, s.calls[k]? = some c ∧ Change s k c ph v t ∧
      (c.reads = true → t.panicked = none → v.valid = true ∧ v.lock = some c.proc ∧
        v.data = s.content c.blockno) := by
  simp only [advance, Option.bind_eq_bind, Option.bind_eq_some_iff] at ha
  obtain ⟨c,hk,ha⟩ := ha
  have hc := List.mem_of_getElem? hk
  obtain ⟨hroot,hname⟩ := h.named c hc
  by_cases hphase : c.phase = .locked
  · rw [if_pos hphase] at ha
    have hholds : c.phase.holds = true := by
      rw [hphase]
      rfl
    have hne : c.phase ≠ .held true := by
      rw [hphase]
      decide
    have hlock := h.owner c hc hholds
    have hsame : Function.update s.buf c.buf (s.buf c.buf) = s.buf := Function.update_eq_self ..
    have hstay := Change.phase h hp hk (.inl hholds) hne (.held false)
      (s.buf c.buf).lock fun _ => hlock
    by_cases hread : (c.reads && !(s.buf c.buf).valid) = true
    · rw [if_pos hread] at ha
      obtain rfl := Option.some_inj.mp ha
      rcases iderw_cases s c.proc c.buf with ⟨p,hp'⟩ | ⟨hd,hw⟩ | ⟨hd,hr⟩
      · refine ⟨c,.held false,s.buf c.buf,hk,?_,fun _ hnone => ?_⟩
        · rw [hp']
          refine ⟨hsame.symm,rfl,rfl,rfl,rfl,rfl,.inl hholds,fun _ => hlock,?_,h.call_disk hc,
            fun _ _ => ⟨rfl,rfl⟩⟩
          exact fun hv _ => h.call_data hp hc (.inl hholds) hne (hv.imp id (·.1))
        · rw [hp'] at hnone
          cases hnone
      · have hdata := h.call_data hp hc (.inl hholds) hne (.inr hd)
        refine ⟨c,.held false,{ s.buf c.buf with dirty := false, valid := true },hk,?_,
          fun _ _ => ⟨rfl,hlock,hdata⟩⟩
        rw [hw]
        refine ⟨rfl,rfl,rfl,rfl,rfl,rfl,.inl hholds,fun _ => hlock,fun _ _ => hdata,.inl ?_,?_⟩
        · show Function.update s.disk _ _ c.blockno = _
          rw [hname, Function.update_self]
          exact hdata
        · intro n hn
          refine ⟨?_,rfl⟩
          show Function.update s.disk _ _ n = _
          rw [hname, Function.update_of_ne hn]
      · have hdisk : s.disk (s.buf c.buf).blockno = s.content c.blockno := by
          rw [hname]
          refine (h.call_disk hc).resolve_right ?_
          rw [hd]
          decide
        refine ⟨c,.held false,
          { s.buf c.buf with data := s.disk (s.buf c.buf).blockno, valid := true },hk,?_,
          fun _ _ => ⟨rfl,hlock,hdisk⟩⟩
        rw [hr]
        refine ⟨rfl,rfl,rfl,rfl,rfl,rfl,.inl hholds,fun _ => hlock,fun _ _ => hdisk,.inl ?_,
          fun _ _ => ⟨rfl,rfl⟩⟩
        rw [← hname]
        exact hname ▸ hdisk
    · rw [if_neg hread] at ha
      obtain rfl := Option.some_inj.mp ha
      refine ⟨c,.held false,s.buf c.buf,hk,?_,fun hreads _ => ?_⟩
      · exact ⟨hsame.symm,rfl,rfl,rfl,rfl,rfl,hstay.free,hstay.lock,hstay.data,hstay.disk,
          hstay.other⟩
      · have hvalid : (s.buf c.buf).valid = true := by
          simpa [hreads] using hread
        exact ⟨hvalid,hlock,h.call_data hp hc (.inl hholds) hne (.inl hvalid)⟩
  · rw [if_neg hphase] at ha
    cases ha

theorem store_change (h : Inv s) {data : Block} (ha : advance s (.store k data) = some t) :
    ∃ c ph v, s.calls[k]? = some c ∧ Change s k c ph v t := by
  simp only [advance, Option.bind_eq_bind, Option.bind_eq_some_iff] at ha
  obtain ⟨c,hh,ha⟩ := ha
  obtain ⟨hk,hholds⟩ := holder_spec hh
  obtain rfl := Option.some_inj.mp ha
  have hc := List.mem_of_getElem? hk
  refine ⟨c,.held true,{ s.buf c.buf with data := data },hk,?_⟩
  exact ⟨rfl,rfl,rfl,rfl,rfl,rfl,.inl hholds,fun _ => h.owner c hc hholds,
    fun _ hne => absurd rfl hne,h.call_disk hc,fun _ _ => ⟨rfl,rfl⟩⟩

theorem bwrite_moved (h : Inv s) (hp : s.panicked = none) (ha : advance s (.bwrite k) = some t) :
    Moved s k t := by
  simp only [advance, Option.bind_eq_bind, Option.bind_eq_some_iff] at ha
  obtain ⟨c,hh,ha⟩ := ha
  obtain ⟨hk,hholds⟩ := holder_spec hh
  have hc := List.mem_of_getElem? hk
  obtain ⟨hroot,hname⟩ := h.named c hc
  have hlock := h.owner c hc hholds
  rw [if_neg (not_not.mpr hlock)] at ha
  set u := s.setBuf c.buf { s.buf c.buf with dirty := true } with hu
  have hub : u.buf c.buf = { s.buf c.buf with dirty := true } := Function.update_self ..
  generalize hio : iderw u c.proc c.buf = w at ha
  rcases iderw_cases u c.proc c.buf with ⟨p,hp'⟩ | ⟨hd,hw⟩ | ⟨hd,-⟩
  · rw [hio] at hp'
    rw [hp', if_pos (by intro hn; cases hn)] at ha
    obtain rfl := Option.some_inj.mp ha
    exact .inr ⟨c,_,_,hk,.marked h hp hk hholds p⟩
  · rw [hio] at hw
    have hpan : w.panicked = none := by
      rw [hw]
      exact hp
    rw [if_neg (not_not.mpr hpan)] at ha
    obtain rfl := Option.some_inj.mp ha
    have hwb : w.buf = Function.update s.buf c.buf
        { s.buf c.buf with dirty := false, valid := true } := by
      rw [hw]
      simp [Sys.setBuf, hu]
    have hdisk : w.disk = Function.update s.disk (s.buf c.buf).blockno (s.buf c.buf).data := by
      rw [hw, hub]
      rfl
    have hst : w.stored = s.stored := by
      rw [hw]
      rfl
    have hin : w.initial = s.initial := by
      rw [hw]
      rfl
    have hcalls : w.calls = s.calls := by
      rw [hw]
      rfl
    have hlinks : w.links = s.links := by
      rw [hw]
      rfl
    have hcontent := content_update (s := s) (t := { w.setPhase k c (.held false) with
      stored := Function.update w.stored (s.buf c.buf).blockno (some (s.buf c.buf).data) })
      (by rw [hst]) hin
    rw [hname] at hcontent
    refine .inr ⟨c,.held false,{ s.buf c.buf with dirty := false, valid := true },hk,?_⟩
    refine ⟨hwb,hlinks,?_,rfl,rfl,rfl,.inl hholds,fun _ => hlock,fun _ _ => ?_,.inl ?_,?_⟩
    · show w.calls.set k _ = _
      rw [hcalls]
    · rw [hname]
      exact hcontent.1.symm
    · rw [hname]
      refine Eq.trans ?_ hcontent.1.symm
      show w.disk c.blockno = _
      rw [hdisk, hname, Function.update_self]
    · intro n hn
      rw [hname]
      refine ⟨?_,hcontent.2 n hn⟩
      show w.disk n = _
      rw [hdisk, hname, Function.update_of_ne hn]
  · rw [hub] at hd
    cases hd

theorem logWrite_moved (h : Inv s) (ha : advance s (.logWrite k) = some t) : Moved s k t := by
  simp only [advance, Option.bind_eq_bind, Option.bind_eq_some_iff] at ha
  obtain ⟨c,hh,ha⟩ := ha
  obtain ⟨hk,hholds⟩ := holder_spec hh
  have hc := List.mem_of_getElem? hk
  obtain ⟨hroot,hname⟩ := h.named c hc
  split_ifs at ha
  · exact .inl ⟨_,(Option.some_inj.mp ha).symm⟩
  · exact .inl ⟨_,(Option.some_inj.mp ha).symm⟩
  · obtain rfl := Option.some_inj.mp ha
    refine .inr ⟨c,.held false,{ s.buf c.buf with dirty := true },hk,?_⟩
    have hcontent := content_update (s := s)
      (t := { (s.setBuf c.buf { s.buf c.buf with dirty := true }).setPhase k c (.held false) with
        log := s.log.record (s.buf c.buf).blockno
        stored := Function.update s.stored (s.buf c.buf).blockno (some (s.buf c.buf).data) }) rfl rfl
    rw [hname] at hcontent
    refine ⟨rfl,rfl,rfl,rfl,rfl,rfl,.inl hholds,fun _ => h.owner c hc hholds,fun _ _ => ?_,.inr rfl,?_⟩
    · rw [hname]
      exact hcontent.1.symm
    · intro n hn
      rw [hname]
      exact ⟨rfl,hcontent.2 n hn⟩

theorem releasesleep_moved (h : Inv s) (hp : s.panicked = none)
    (ha : advance s (.releasesleep k) = some t) : Moved s k t := by
  simp only [advance, Option.bind_eq_bind, Option.bind_eq_some_iff] at ha
  obtain ⟨c,hk,ha⟩ := ha
  by_cases hphase : c.phase = .held false
  · rw [if_pos hphase] at ha
    split_ifs at ha
    · exact .inl ⟨_,(Option.some_inj.mp ha).symm⟩
    · obtain rfl := Option.some_inj.mp ha
      have hholds : c.phase.holds = true := by
        rw [hphase]
        rfl
      refine .inr ⟨c,_,_,hk,.phase h hp hk (.inl hholds) ?_ .releasing none ?_⟩
      · rw [hphase]
        decide
      · intro hr
        cases hr
  · rw [if_neg hphase] at ha
    cases ha

theorem brelse_inv (h : Inv s) (hb : advance s (.brelse k) = some t) : Inv t ∧ Pinned s t := by
  simp only [advance, Option.bind_eq_bind, Option.bind_eq_some_iff] at hb
  obtain ⟨c,hk,hb⟩ := hb
  have hpin : ∀ d, _ := setBuf_refcnt_same (n := (s.buf c.buf).refcnt - 1) s c.buf
  split_ifs at hb with hphase hzero
  · obtain rfl := Option.some_inj.mp hb
    exact ⟨h.close hk hphase (h.links.moveFront c.buf),fun d _ => ⟨(hpin d).2.2.1,(hpin d).2.2.2.1⟩⟩
  · obtain rfl := Option.some_inj.mp hb
    exact ⟨h.close hk hphase h.links,fun d _ => ⟨(hpin d).2.2.1,(hpin d).2.2.2.1⟩⟩

/-- Every step keeps the invariant and the identity of the buffers in use. -/
theorem advance_inv (h : Inv s) (hp : s.panicked = none) {a : Act P}
    (ha : advance s a = some t) : Inv t ∧ Pinned s t := by
  cases a with
  | bget i n reads => exact bget_inv h ha
  | acquiresleep k => exact Moved.inv (k := k) h hp (.inr (acquiresleep_change h hp ha))
  | bread k =>
    obtain ⟨c,ph,v,hk,hch,-⟩ := bread_change h hp ha
    exact Moved.inv h hp (.inr ⟨c,ph,v,hk,hch⟩)
  | store k data => exact Moved.inv (k := k) h hp (.inr (store_change h ha))
  | bwrite k => exact (bwrite_moved h hp ha).inv h hp
  | logWrite k => exact (logWrite_moved h ha).inv h hp
  | releasesleep k => exact (releasesleep_moved h hp ha).inv h hp
  | brelse k => exact brelse_inv h ha
  | log l =>
    obtain rfl := Option.some_inj.mp ha
    exact ⟨⟨h.links,h.unique,h.refcnt,h.named,h.owner,h.alone,h.rooted,h.data,h.disk⟩,
      fun _ _ => ⟨rfl,rfl⟩⟩

theorem Reached.inv (h : Reached s) : Inv s := by
  refine h.invariant (fun _ hs => hs.inv) ?_
  intro s a t hs ha
  simp only [OfFun, step] at ha
  split_ifs at ha with hp
  exact (advance_inv hs hp ha).1

/-- The cache after `binit`, over a disk of zeros. -/
def freshCache : Sys ℕ :=
  { buf := fun _ => ⟨false,false,0,0,none,0,.zero⟩, links := binit ⟨fun _ => none,fun _ => none⟩,
    disk := fun _ => .zero, disksize := fssize, log := ⟨[],0,false,logsize⟩, calls := [],
    stored := fun _ => none, initial := fun _ => .zero, panicked := none }

theorem freshCache_start : Start freshCache :=
  ⟨fun _ => ⟨rfl,rfl,rfl,rfl,rfl⟩,⟨_,rfl⟩,rfl,fun _ => rfl,rfl,rfl⟩

end X86OsDev.Xv6.BufCache
