import X86OsDev.Xv6.BufCacheList
import Mathlib.Data.List.Perm.Basic
import Mathlib.Data.List.Pairwise

/-! # What the buffer cache keeps between steps

Every open call names its buffer, a sleep lock has one holder, and a block whose
disk copy is old has a dirty buffer. A step of an open call is a change of its
own buffer; only `bget` opens a call and only `brelse` closes one.
-/
namespace X86OsDev.Xv6.BufCache
open CircularList

variable {P : Type*} {s t : Sys P} {b : Fin nbuf} {c : Call P} {k : ℕ}

/-- The call has the sleep lock. -/
def Phase.holds : Phase → Bool
  | .locked => true
  | .held _ => true
  | _ => false

/-- Two calls that both have the lock are for different buffers. -/
def Apart (c d : Call P) : Prop := c.phase.holds = true → d.phase.holds = true → c.buf ≠ d.buf

theorem Apart.symm {c d : Call P} (h : Apart c d) : Apart d c := fun hd hc he => h hc hd he.symm

instance : Std.Symm (Apart : Call P → Call P → Prop) := ⟨fun _ _ h => h.symm⟩

/-- The call at an index, and the others in some order. -/
theorem calls_split {calls : List (Call P)} (h : calls[k]? = some c) :
    ∃ rest, calls.Perm (c :: rest) ∧ (∀ d, (calls.set k d).Perm (d :: rest)) ∧
      (calls.eraseIdx k).Perm rest := by
  obtain ⟨hk,hc⟩ := List.getElem?_eq_some_iff.mp h
  refine ⟨calls.take k ++ calls.drop (k + 1),?_,fun d => ?_,?_⟩
  · conv_lhs => rw [← List.take_append_drop k calls, List.drop_eq_getElem_cons hk, hc]
    exact List.perm_middle
  · rw [List.set_eq_take_append_cons_drop, if_pos hk]
    exact List.perm_middle
  · rw [List.eraseIdx_eq_take_drop_succ]

/-- A holder has changed the data of a buffer since it was last written. -/
def Changed (calls : List (Call P)) (b : Fin nbuf) : Prop :=
  ∃ c ∈ calls, c.buf = b ∧ c.phase = .held true

/-- What holds between any two steps. -/
structure Inv (s : Sys P) : Prop where
  links : Linked s.links
  unique : ∀ b c, (s.buf b).dev = rootdev → (s.buf c).dev = rootdev →
    (s.buf b).blockno = (s.buf c).blockno → b = c
  refcnt : ∀ b, (s.buf b).refcnt = s.gets b
  named : ∀ c ∈ s.calls, (s.buf c.buf).dev = rootdev ∧ (s.buf c.buf).blockno = c.blockno
  owner : ∀ c ∈ s.calls, c.phase.holds = true → (s.buf c.buf).lock = some c.proc
  alone : s.calls.Pairwise Apart
  rooted : ∀ b, (s.buf b).valid = true ∨ (s.buf b).dirty = true → (s.buf b).dev = rootdev
  data : ∀ b, (s.buf b).valid = true ∨ (s.buf b).dirty = true ∧ s.panicked = none →
    ¬ Changed s.calls b → (s.buf b).data = s.content (s.buf b).blockno
  disk : ∀ n, s.disk n = s.content n ∨
    ∃ b, (s.buf b).dev = rootdev ∧ (s.buf b).blockno = n ∧ (s.buf b).dirty = true

/-- A call that has the lock of a buffer and has not changed it, or could get it, finds it
unchanged. -/
theorem Inv.not_changed (h : Inv s) (hc : c ∈ s.calls)
    (hfree : c.phase.holds = true ∨ (s.buf c.buf).lock = none) (hne : c.phase ≠ .held true) :
    ¬ Changed s.calls c.buf := by
  rintro ⟨d,hd,hbuf,hphase⟩
  have hholds : d.phase.holds = true := by
    rw [hphase]
    rfl
  rcases hfree with hp | hnone
  · have hcd : c ≠ d := by
      rintro rfl
      exact hne hphase
    exact h.alone.forall hc hd hcd hp hholds hbuf.symm
  · have := h.owner d hd hholds
    rw [hbuf, hnone] at this
    cases this

theorem Inv.call_data (h : Inv s) (hp : s.panicked = none) (hc : c ∈ s.calls)
    (hfree : c.phase.holds = true ∨ (s.buf c.buf).lock = none) (hne : c.phase ≠ .held true)
    (hv : (s.buf c.buf).valid = true ∨ (s.buf c.buf).dirty = true) :
    (s.buf c.buf).data = s.content c.blockno := by
  rw [← (h.named c hc).2]
  exact h.data _ (hv.imp id fun hd => ⟨hd,hp⟩) (h.not_changed hc hfree hne)

/-- If the disk copy of the block is old, its own buffer is the dirty one. -/
theorem Inv.call_disk (h : Inv s) (hc : c ∈ s.calls) :
    s.disk c.blockno = s.content c.blockno ∨ (s.buf c.buf).dirty = true := by
  obtain ⟨hroot,hname⟩ := h.named c hc
  refine (h.disk c.blockno).imp id ?_
  rintro ⟨b,h1,h2,h3⟩
  rwa [h.unique b c.buf h1 hroot (h2.trans hname.symm)] at h3

theorem Inv.cacheLaw (h : Inv s) : CacheLaw s := by
  refine ⟨h.links.isList,h.unique,h.refcnt,h.named,?_⟩
  intro c hc hphase hvalid
  rw [← (h.named c hc).2]
  refine h.data _ (.inl hvalid) (h.not_changed hc (.inl ?_) ?_)
  · rw [hphase]
    rfl
  · rw [hphase]
    decide

theorem Start.inv (h : Start s) : Inv s := by
  obtain ⟨l,hl⟩ := h.links
  have hcontent : ∀ n, s.content n = s.disk n := by
    intro n
    simp [Sys.content, h.stored n, h.initial]
  refine ⟨hl ▸ binit_linked l,?_,?_,?_,?_,?_,?_,?_,?_⟩
  · intro b c hb
    rw [(h.buf b).2.2.1] at hb
    cases hb
  · intro b
    rw [(h.buf b).2.2.2.2, Sys.gets, h.calls]
    rfl
  · rw [h.calls]
    exact fun c hc => absurd hc List.not_mem_nil
  · rw [h.calls]
    exact fun c hc => absurd hc List.not_mem_nil
  · rw [h.calls]
    exact List.Pairwise.nil
  · intro b hb
    rw [(h.buf b).1, (h.buf b).2.1] at hb
    rcases hb with hb | hb <;> cases hb
  · intro b hb
    rw [(h.buf b).1, (h.buf b).2.1] at hb
    rcases hb with hb | ⟨hb,-⟩ <;> cases hb
  · exact fun n => .inl (hcontent n).symm

/-! ## Steps of an open call -/

/-- A step of the call `c` at index `k` to the phase `ph`, that makes its buffer `v`. It has the
lock, or nobody has. -/
structure Change (s : Sys P) (k : ℕ) (c : Call P) (ph : Phase) (v : Buf P) (t : Sys P) : Prop where
  buf : t.buf = Function.update s.buf c.buf v
  links : t.links = s.links
  calls : t.calls = s.calls.set k { c with phase := ph }
  dev : v.dev = (s.buf c.buf).dev
  blockno : v.blockno = (s.buf c.buf).blockno
  refcnt : v.refcnt = (s.buf c.buf).refcnt
  free : c.phase.holds = true ∨ (s.buf c.buf).lock = none
  lock : ph.holds = true → v.lock = some c.proc
  data : v.valid = true ∨ v.dirty = true ∧ t.panicked = none → ph ≠ .held true →
    v.data = t.content c.blockno
  disk : t.disk c.blockno = t.content c.blockno ∨ v.dirty = true
  other : ∀ n, n ≠ c.blockno → t.disk n = s.disk n ∧ t.content n = s.content n

/-- Nobody else has the lock of its buffer. -/
theorem Inv.others_free (h : Inv s) {rest : List (Call P)} (hp : s.calls.Perm (c :: rest))
    (hfree : c.phase.holds = true ∨ (s.buf c.buf).lock = none) :
    ∀ d ∈ rest, d.buf = c.buf → d.phase.holds = false := by
  intro d hd hbuf
  by_contra hholds
  rw [Bool.not_eq_false] at hholds
  rcases hfree with hc | hnone
  · have hpair := (hp.pairwise_iff (fun h => h.symm)).mp h.alone
    exact (List.pairwise_cons.mp hpair).1 d hd hc hholds hbuf.symm
  · have := h.owner d (hp.mem_iff.mpr (List.mem_cons_of_mem _ hd)) hholds
    rw [hbuf, hnone] at this
    cases this

theorem Change.inv {ph : Phase} {v : Buf P} (h : Change s k c ph v t) (hs : Inv s)
    (hp : s.panicked = none) (hk : s.calls[k]? = some c) : Inv t := by
  obtain ⟨rest,hperm,hset,-⟩ := calls_split hk
  have hc : c ∈ s.calls := hperm.mem_iff.mpr List.mem_cons_self
  have hperm' : t.calls.Perm ({ c with phase := ph } :: rest) := h.calls ▸ hset _
  have hfree := hs.others_free hperm h.free
  have hself : t.buf c.buf = v := by
    rw [h.buf, Function.update_self]
  have hother : ∀ b, b ≠ c.buf → t.buf b = s.buf b := by
    intro b hb
    rw [h.buf, Function.update_of_ne hb]
  have hdev : ∀ b, (t.buf b).dev = (s.buf b).dev := by
    intro b
    by_cases hb : b = c.buf
    · rw [hb, hself, h.dev]
    · rw [hother b hb]
  have hno : ∀ b, (t.buf b).blockno = (s.buf b).blockno := by
    intro b
    by_cases hb : b = c.buf
    · rw [hb, hself, h.blockno]
    · rw [hother b hb]
  obtain ⟨hroot,hname⟩ := hs.named c hc
  refine ⟨h.links ▸ hs.links,?_,?_,?_,?_,?_,?_,?_,?_⟩
  · intro a b
    rw [hdev, hdev, hno, hno]
    exact hs.unique a b
  · intro b
    have hgets : t.gets b = s.gets b := by
      unfold Sys.gets
      rw [hperm'.countP_eq, hperm.countP_eq, List.countP_cons, List.countP_cons]
    rw [hgets, ← hs.refcnt b]
    by_cases hb : b = c.buf
    · rw [hb, hself, h.refcnt]
    · rw [hother b hb]
  · intro d hd
    rw [hdev, hno]
    rcases List.mem_cons.mp (hperm'.mem_iff.mp hd) with rfl | hd
    · exact ⟨hroot,hname⟩
    · exact hs.named d (hperm.mem_iff.mpr (List.mem_cons_of_mem _ hd))
  · intro d hd hholds
    rcases List.mem_cons.mp (hperm'.mem_iff.mp hd) with rfl | hd
    · show (t.buf c.buf).lock = _
      rw [hself]
      exact h.lock hholds
    · have hne : d.buf ≠ c.buf := by
        intro he
        rw [hfree d hd he] at hholds
        cases hholds
      rw [hother _ hne]
      exact hs.owner d (hperm.mem_iff.mpr (List.mem_cons_of_mem _ hd)) hholds
  · refine (hperm'.pairwise_iff (fun h => h.symm)).mpr (List.pairwise_cons.mpr ⟨?_,?_⟩)
    · intro d hd _ hholds he
      rw [hfree d hd he.symm] at hholds
      cases hholds
    · exact (List.pairwise_cons.mp ((hperm.pairwise_iff (fun h => h.symm)).mp hs.alone)).2
  · intro b hb
    rw [hdev]
    by_cases hbc : b = c.buf
    · rw [hbc]
      exact hroot
    · rw [hother b hbc] at hb
      exact hs.rooted b hb
  · intro b hb hch
    by_cases hbc : b = c.buf
    · subst hbc
      rw [hno, hname]
      rw [hself] at hb ⊢
      refine h.data hb fun hph => hch ⟨{ c with phase := ph },?_,rfl,hph⟩
      exact hperm'.mem_iff.mpr List.mem_cons_self
    · rw [hother b hbc] at hb ⊢
      have hb' : (s.buf b).valid = true ∨ (s.buf b).dirty = true := hb.imp id (·.1)
      have hne : (s.buf b).blockno ≠ c.blockno := fun he =>
        hbc (hs.unique b c.buf (hs.rooted b hb') hroot (he.trans hname.symm))
      rw [(h.other _ hne).2]
      refine hs.data b (hb.imp id fun hd => ⟨hd.1,hp⟩) ?_
      rintro ⟨d,hd,hdb,hphase⟩
      rcases List.mem_cons.mp (hperm.mem_iff.mp hd) with rfl | hd
      · exact hbc hdb.symm
      · exact hch ⟨d,hperm'.mem_iff.mpr (List.mem_cons_of_mem _ hd),hdb,hphase⟩
  · intro n
    by_cases hn : n = c.blockno
    · subst hn
      refine h.disk.imp id fun hd => ⟨c.buf,?_,?_,?_⟩
      · rw [hdev]
        exact hroot
      · rw [hno]
        exact hname
      · rw [hself]
        exact hd
    · rw [(h.other n hn).1, (h.other n hn).2]
      refine (hs.disk n).imp id ?_
      rintro ⟨b,h1,h2,h3⟩
      have hbc : b ≠ c.buf := by
        rintro rfl
        exact hn (h2.symm.trans hname)
      exact ⟨b,by rw [hother b hbc]; exact ⟨h1,h2,h3⟩⟩

/-- It gives its buffer to no other block. -/
theorem Change.pinned {ph : Phase} {v : Buf P} (h : Change s k c ph v t) (b : Fin nbuf) :
    (t.buf b).dev = (s.buf b).dev ∧ (t.buf b).blockno = (s.buf b).blockno := by
  rw [h.buf]
  by_cases hb : b = c.buf
  · subst hb
    rw [Function.update_self]
    exact ⟨h.dev,h.blockno⟩
  · rw [Function.update_of_ne hb]
    exact ⟨rfl,rfl⟩

theorem Inv.panic (h : Inv s) (p : Panic) : Inv (s.panic p) := by
  refine ⟨h.links,h.unique,h.refcnt,h.named,h.owner,h.alone,h.rooted,?_,h.disk⟩
  rintro b (hv | ⟨-,hp⟩)
  · exact h.data b (.inl hv)
  · cases hp

/-- A step that changes at most the lock. -/
theorem Change.phase (h : Inv s) (hp : s.panicked = none) (hk : s.calls[k]? = some c)
    (hfree : c.phase.holds = true ∨ (s.buf c.buf).lock = none) (hne : c.phase ≠ .held true)
    (ph : Phase) (v : Option P) (hlock : ph.holds = true → v = some c.proc) :
    Change s k c ph { s.buf c.buf with lock := v }
      ((s.setBuf c.buf { s.buf c.buf with lock := v }).setPhase k c ph) := by
  have hc := List.mem_of_getElem? hk
  refine ⟨rfl,rfl,rfl,rfl,rfl,rfl,hfree,hlock,?_,h.call_disk hc,fun _ _ => ⟨rfl,rfl⟩⟩
  exact fun hv _ => h.call_data hp hc hfree hne (hv.imp id (·.1))

theorem holder_spec (h : s.holder k = some c) :
    s.calls[k]? = some c ∧ c.phase.holds = true := by
  simp only [Sys.holder, Option.bind_eq_bind, Option.bind_eq_some_iff] at h
  obtain ⟨d,hk,h⟩ := h
  cases hph : d.phase with
  | held ch =>
    rw [hph] at h
    obtain rfl := Option.some_inj.mp h
    exact ⟨hk,by rw [hph]; rfl⟩
  | waiting =>
    rw [hph] at h
    cases h
  | locked =>
    rw [hph] at h
    cases h
  | releasing =>
    rw [hph] at h
    cases h

/-- `bwrite` marks the buffer before the disk panics. -/
theorem Change.marked (h : Inv s) (hp : s.panicked = none) (hk : s.calls[k]? = some c)
    (hholds : c.phase.holds = true) (p : Panic) :
    Change s k c c.phase { s.buf c.buf with dirty := true }
      ((s.setBuf c.buf { s.buf c.buf with dirty := true }).panic p) := by
  have hc := List.mem_of_getElem? hk
  have hset : s.calls = s.calls.set k { c with phase := c.phase } := by
    obtain ⟨hlt,hget⟩ := List.getElem?_eq_some_iff.mp hk
    rw [show ({ c with phase := c.phase } : Call P) = s.calls[k] from hget.symm,
      List.set_getElem_self]
  refine ⟨rfl,rfl,hset,rfl,rfl,rfl,.inl hholds,fun _ => h.owner c hc hholds,?_,.inr rfl,
    fun _ _ => ⟨rfl,rfl⟩⟩
  rintro (hv | ⟨-,hn⟩) hne
  · exact h.call_data hp hc (.inl hholds) hne (.inl hv)
  · cases hn

/-- A block whose content was stored. -/
theorem content_update {n : ℕ} {data : Block}
    (hst : t.stored = Function.update s.stored n (some data)) (hin : t.initial = s.initial) :
    t.content n = data ∧ ∀ m, m ≠ n → t.content m = s.content m := by
  unfold Sys.content
  rw [hst, hin]
  refine ⟨by simp,fun m hm => ?_⟩
  rw [Function.update_of_ne hm]

/-! ## Calls that open and close -/

/-- Only the reference count of a buffer changes. -/
theorem setBuf_refcnt_same {n : ℕ} (s : Sys P) (b d : Fin nbuf) :
    let v := (s.setBuf b { s.buf b with refcnt := n }).buf d
    v.valid = (s.buf d).valid ∧ v.dirty = (s.buf d).dirty ∧ v.dev = (s.buf d).dev ∧
      v.blockno = (s.buf d).blockno ∧ v.lock = (s.buf d).lock ∧ v.data = (s.buf d).data := by
  by_cases hd : d = b
  · subst hd
    simp [Sys.setBuf]
  · simp [Sys.setBuf, hd]

/-- The section of `brelse` closes the call. -/
theorem Inv.close (h : Inv s) (hk : s.calls[k]? = some c) (hphase : c.phase = .releasing)
    {l : Links} (hl : Linked l) :
    Inv { s.setBuf c.buf { s.buf c.buf with refcnt := (s.buf c.buf).refcnt - 1 } with
      calls := s.calls.eraseIdx k, links := l } := by
  obtain ⟨rest,hperm,-,herase⟩ := calls_split hk
  have hsub : ∀ d ∈ s.calls.eraseIdx k, d ∈ s.calls := fun d hd => List.mem_of_mem_eraseIdx hd
  have hsame := setBuf_refcnt_same (n := (s.buf c.buf).refcnt - 1) s c.buf
  refine ⟨hl,?_,?_,?_,?_,?_,?_,?_,?_⟩
  · intro a b ha hb hab
    obtain ⟨-,-,h3,h4,-⟩ := hsame a
    obtain ⟨-,-,h3',h4',-⟩ := hsame b
    exact h.unique a b (h3 ▸ ha) (h3' ▸ hb) (h4.symm.trans (hab.trans h4'))
  · intro b
    have hcount : s.gets b = (s.calls.eraseIdx k).countP (fun d => d.buf = b) +
        if c.buf = b then 1 else 0 := by
      unfold Sys.gets
      rw [hperm.countP_eq, herase.countP_eq, List.countP_cons]
      simp
    have href := h.refcnt b
    show (Function.update s.buf c.buf _ b).refcnt = (s.calls.eraseIdx k).countP _
    by_cases hb : c.buf = b
    · subst hb
      rw [if_pos rfl] at hcount
      rw [Function.update_self]
      simp only
      omega
    · rw [if_neg hb] at hcount
      rw [Function.update_of_ne (Ne.symm hb)]
      omega
  · intro d hd
    obtain ⟨-,-,h3,h4,-⟩ := hsame d.buf
    obtain ⟨h5,h6⟩ := h.named d (hsub d hd)
    exact ⟨h3.trans h5,h4.trans h6⟩
  · intro d hd hholds
    obtain ⟨-,-,-,-,h5,-⟩ := hsame d.buf
    exact h5.trans (h.owner d (hsub d hd) hholds)
  · exact h.alone.sublist (List.eraseIdx_sublist ..)
  · intro b hb
    obtain ⟨h1,h2,h3,-⟩ := hsame b
    exact h3.trans (h.rooted b (hb.imp (h1.symm.trans ·) (h2.symm.trans ·)))
  · intro b hb hch
    obtain ⟨h1,h2,-,h4,-,h6⟩ := hsame b
    refine (h6.trans (h.data b (hb.imp (h1.symm.trans ·) fun hd => ⟨h2.symm.trans hd.1,hd.2⟩) ?_)).trans
      (congrArg s.content h4.symm)
    rintro ⟨d,hd,hdb,hdphase⟩
    refine hch ⟨d,?_,hdb,hdphase⟩
    rcases List.mem_cons.mp (hperm.mem_iff.mp hd) with rfl | hd
    · rw [hphase] at hdphase
      cases hdphase
    · exact herase.mem_iff.mpr hd
  · intro n
    refine (h.disk n).imp id ?_
    rintro ⟨b,h1,h2,h3⟩
    obtain ⟨-,h4,h5,h6,-⟩ := hsame b
    exact ⟨b,h5.trans h1,h6.trans h2,h4.trans h3⟩

/-- `bget` of a block that has a buffer. -/
theorem Inv.open (h : Inv s) {i : P} {n : ℕ} {reads : Bool} (hdev : (s.buf b).dev = rootdev)
    (hno : (s.buf b).blockno = n) :
    Inv { s.setBuf b { s.buf b with refcnt := (s.buf b).refcnt + 1 } with
      calls := ⟨i,b,n,reads,.waiting⟩ :: s.calls } := by
  have hsame := setBuf_refcnt_same (n := (s.buf b).refcnt + 1) s b
  refine ⟨h.links,?_,?_,?_,?_,?_,?_,?_,?_⟩
  · intro a d ha hd had
    obtain ⟨-,-,h3,h4,-⟩ := hsame a
    obtain ⟨-,-,h3',h4',-⟩ := hsame d
    exact h.unique a d (h3 ▸ ha) (h3' ▸ hd) (h4.symm.trans (had.trans h4'))
  · intro d
    have href := h.refcnt d
    unfold Sys.gets at href ⊢
    show (Function.update s.buf b _ d).refcnt = _
    rw [List.countP_cons, ← href]
    by_cases hd : b = d
    · subst hd
      simp
    · rw [Function.update_of_ne (Ne.symm hd)]
      simp [hd]
  · intro d hd
    obtain ⟨-,-,h3,h4,-⟩ := hsame d.buf
    rcases List.mem_cons.mp hd with rfl | hd
    · exact ⟨h3.trans hdev,h4.trans hno⟩
    · obtain ⟨h5,h6⟩ := h.named d hd
      exact ⟨h3.trans h5,h4.trans h6⟩
  · intro d hd hholds
    obtain ⟨-,-,-,-,h5,-⟩ := hsame d.buf
    rcases List.mem_cons.mp hd with rfl | hd
    · cases hholds
    · exact h5.trans (h.owner d hd hholds)
  · refine List.pairwise_cons.mpr ⟨?_,h.alone⟩
    intro d _ hholds
    cases hholds
  · intro d hd
    obtain ⟨h1,h2,h3,-⟩ := hsame d
    exact h3.trans (h.rooted d (hd.imp (h1.symm.trans ·) (h2.symm.trans ·)))
  · intro d hd hch
    obtain ⟨h1,h2,-,h4,-,h6⟩ := hsame d
    refine (h6.trans (h.data d (hd.imp (h1.symm.trans ·) fun hd => ⟨h2.symm.trans hd.1,hd.2⟩) ?_)).trans
      (congrArg s.content h4.symm)
    rintro ⟨e,he,heb,hephase⟩
    exact hch ⟨e,List.mem_cons_of_mem _ he,heb,hephase⟩
  · intro m
    refine (h.disk m).imp id ?_
    rintro ⟨d,h1,h2,h3⟩
    obtain ⟨-,h4,h5,h6,-⟩ := hsame d
    exact ⟨d,h5.trans h1,h6.trans h2,h4.trans h3⟩

/-- `bget` of a block that has none takes a buffer that nobody uses. -/
theorem Inv.recycle (h : Inv s) {i : P} {n : ℕ} {reads : Bool} (href : (s.buf b).refcnt = 0)
    (hdirty : (s.buf b).dirty = false)
    (hnone : ∀ d, (s.buf d).dev = rootdev → (s.buf d).blockno ≠ n) :
    Inv { s.setBuf b { s.buf b with
        dev := rootdev, blockno := n, valid := false, dirty := false, refcnt := 1 } with
      calls := ⟨i,b,n,reads,.waiting⟩ :: s.calls } := by
  have hfree : ∀ d ∈ s.calls, d.buf ≠ b := by
    intro d hd he
    have hzero := h.refcnt b
    rw [href, Sys.gets, eq_comm, List.countP_eq_zero] at hzero
    exact hzero d hd (by simpa using he)
  refine ⟨h.links,?_,?_,?_,?_,?_,?_,?_,?_⟩
  · intro a d ha hd had
    by_cases ha' : a = b <;> by_cases hd' : d = b
    · rw [ha', hd']
    · subst ha'
      simp only [Sys.setBuf, Function.update_self, Function.update_of_ne hd'] at hd had
      exact absurd had.symm (hnone d hd)
    · subst hd'
      simp only [Sys.setBuf, Function.update_self, Function.update_of_ne ha'] at ha had
      exact absurd had (hnone a ha)
    · simp only [Sys.setBuf, Function.update_of_ne ha', Function.update_of_ne hd'] at ha hd had
      exact h.unique a d ha hd had
  · intro d
    have hgets := h.refcnt d
    unfold Sys.gets at hgets ⊢
    show (Function.update s.buf b _ d).refcnt = _
    rw [List.countP_cons, ← hgets]
    by_cases hd : b = d
    · subst hd
      simp [href]
    · rw [Function.update_of_ne (Ne.symm hd)]
      simp [hd]
  · intro d hd
    rcases List.mem_cons.mp hd with rfl | hd
    · simp [Sys.setBuf]
    · simp only [Sys.setBuf, Function.update_of_ne (hfree d hd)]
      exact h.named d hd
  · intro d hd hholds
    rcases List.mem_cons.mp hd with rfl | hd
    · cases hholds
    · simp only [Sys.setBuf, Function.update_of_ne (hfree d hd)]
      exact h.owner d hd hholds
  · refine List.pairwise_cons.mpr ⟨?_,h.alone⟩
    intro d _ hholds
    cases hholds
  · intro d hd
    by_cases hd' : d = b
    · subst hd'
      simp [Sys.setBuf]
    · simp only [Sys.setBuf, Function.update_of_ne hd'] at hd ⊢
      exact h.rooted d hd
  · intro d hd hch
    by_cases hd' : d = b
    · subst hd'
      simp [Sys.setBuf] at hd
    · simp only [Sys.setBuf, Function.update_of_ne hd'] at hd ⊢
      refine h.data d hd ?_
      rintro ⟨e,he,heb,hephase⟩
      exact hch ⟨e,List.mem_cons_of_mem _ he,heb,hephase⟩
  · intro m
    refine (h.disk m).imp id ?_
    rintro ⟨d,h1,h2,h3⟩
    have hd' : d ≠ b := by
      rintro rfl
      rw [hdirty] at h3
      cases h3
    exact ⟨d,by simp only [Sys.setBuf, Function.update_of_ne hd']; exact ⟨h1,h2,h3⟩⟩

end X86OsDev.Xv6.BufCache
