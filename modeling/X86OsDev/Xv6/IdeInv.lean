import X86OsDev.Xv6.Ide

/-! # The invariant of the driver

A completed request is one atomic `iderw` of memide.c, and the requests are
completed in the order in which they were appended. The invariant says which
process waits for which buffer, that the drive works on the head of the queue,
and that a completed command of the drive is one interrupt on its way.
-/
namespace X86OsDev.Xv6.Ide
open LinkedQueue Transition

/-- What a request does to its buffer and to the disks, at once. -/
def sync (d : ℕ → Disk) (x : Buf) : Buf × (ℕ → Disk) :=
  ({ x with data := if x.dirty then x.data else d (x.dev % 2) x.blockno, valid := true, dirty := false },
    if x.dirty then Function.update d (x.dev % 2) (Function.update (d (x.dev % 2)) x.blockno x.data) else d)

/-- For the disk that memide.c has, that is its `iderw`. -/
theorem memIderw_eq {d : ℕ → Disk} {x : Buf} (hdev : x.dev = 1) (hblock : x.blockno < fssize) (hdone : x.done = false) :
    memIderw fssize true (d 1) x = some ((sync d x).1,(sync d x).2 1) := by
  unfold memIderw sync
  rw [if_neg (by decide), if_neg (by simp [hdone]), if_neg (not_not.mpr hdev), if_neg (by omega), hdev]
  cases hd : x.dirty with
  | true => simp
  | false => simp

variable {P β : Type}

/-- The disks after requests that were done one after the other. -/
def replay (d : ℕ → Disk) (l : List (β × Buf)) : ℕ → Disk := l.foldl (fun d e => (sync d e.2).2) d

@[simp] theorem replay_append (d : ℕ → Disk) (l l' : List (β × Buf)) :
    replay d (l ++ l') = replay (replay d l) l' := List.foldl_append

@[simp] theorem replay_singleton (d : ℕ → Disk) (e : β × Buf) : replay d [e] = (sync d e.2).2 := rfl

/-- The last request for a buffer is complete, and the buffer is as it left it. -/
def Finished (d : ℕ → Disk) (s : Sys P β) (b : β) : Prop :=
  ∃ pre x post, s.completed = pre ++ (b,x) :: post ∧ b ∉ post.map (·.1) ∧ s.buf b = (sync (replay d pre) x).1

namespace Point

def holds : Point β → Bool
  | .append _ | .test _ | .leave _ => true
  | _ => false

/-- The buffer that has yet to be appended. -/
def fresh : Point β → Option β
  | .enter b | .append b => some b
  | _ => none

/-- The buffer in the loop of `iderw`. -/
def waits : Point β → Option β
  | .test b | .asleep b | .woken b => some b
  | _ => none

/-- The buffer after the loop. -/
def left : Point β → Option β
  | .leave b | .returned b => some b
  | _ => none

/-- The buffer that `iderw` was called with. -/
def buffer (x : Point β) : Option β := (x.fresh.or x.waits).or x.left

end Point

/-- The spinlock is held at the points where it should be. -/
structure Locks (lk : Option (Holder P)) (point : P → Point β) (intr : Intr) : Prop where
  proc : ∀ p, lk = some (.proc p) ↔ (point p).holds = true
  intr : lk = some .intr ↔ intr = .body ∨ intr = .leave

/-- The interrupts that were raised and not yet acted on. -/
def tokens (s : Sys P β) : ℕ := s.irq + if s.intr = .enter ∨ s.intr = .body then 1 else 0

/-- The drive works on the command for the head, or it is done and there is one interrupt on its way. -/
def Serves (d : ℕ → Disk) (s : Sys P β) : List β → Prop
  | [] => s.cmd = none ∧ tokens s = 0 ∧ s.disk = replay d s.completed
  | b :: _ => (s.buf b).blockno < fssize ∧
    ((s.cmd = some (s.cmdOf b) ∧ tokens s = 0 ∧ s.disk = replay d s.completed) ∨
      (s.cmd = none ∧ tokens s = 1 ∧ s.disk = (sync (replay d s.completed) (s.buf b)).2 ∧
        ((s.buf b).dirty = false → s.port = replay d s.completed ((s.buf b).dev % 2) (s.buf b).blockno)))

structure Inv (d : ℕ → Disk) (s : Sys P β) (l : List β) : Prop where
  linked : Linked s.qnext s.idequeue l
  nodup : l.Nodup
  locks : Locks s.idelock s.point s.intr
  owner : ∀ p b, (s.point p).buffer = some b → s.owner b = some p
  queued : ∀ b ∈ l, (s.buf b).done = false ∧ ∃ p, (s.point p).waits = some b
  fresh : ∀ p b, (s.point p).fresh = some b → (s.buf b).done = false
  waits : ∀ p b, (s.point p).waits = some b → b ∈ l ∨ Finished d s b
  left : ∀ p b, (s.point p).left = some b → Finished d s b
  serves : Serves d s l
  history : s.appended = s.completed.map (·.1) ++ l
  valid : ∀ e ∈ s.completed, e.2.blockno < fssize ∧ e.2.done = false

section Locks
variable [DecidableEq P] {lk : Option (Holder P)} {point : P → Point β} {intr : Intr} {p : P} {x : Point β}

theorem Locks.keep (h : Locks lk point intr) (hx : x.holds = (point p).holds) :
    Locks lk (Function.update point p x) intr := by
  refine ⟨fun q => ?_,h.intr⟩
  rw [h.proc q]
  by_cases hq : q = p
  · subst hq
    rw [Function.update_self, hx]
  · rw [Function.update_of_ne hq]

theorem Locks.take (h : Locks (none : Option (Holder P)) point intr) (hx : x.holds = true) :
    Locks (some (.proc p)) (Function.update point p x) intr := by
  constructor
  · intro q
    by_cases hq : q = p
    · subst hq
      simp [hx]
    · have := (h.proc q).not.mp (by simp)
      rw [Function.update_of_ne hq]
      simp [this, Ne.symm hq]
  · have := h.intr.not.mp (by simp)
    simp [this]

theorem Locks.drop (h : Locks lk point intr) (hp : (point p).holds = true) (hx : x.holds = false) :
    Locks (none : Option (Holder P)) (Function.update point p x) intr := by
  have hlk := (h.proc p).mpr hp
  constructor
  · intro q
    by_cases hq : q = p
    · subst hq
      simp [hx]
    · have : ¬ (point q).holds = true := by
        rw [← h.proc q, hlk]
        simpa using fun h => hq h.symm
      rw [Function.update_of_ne hq]
      simp [this]
  · rw [← h.intr, hlk]
    simp

omit [DecidableEq P] in
theorem Locks.takeIntr (h : Locks (none : Option (Holder P)) point .enter) : Locks (some .intr) point .body := by
  constructor
  · intro q
    have := (h.proc q).not.mp (by simp)
    simp [this]
  · simp

omit [DecidableEq P] in
theorem Locks.dropIntr (h : Locks lk point .leave) : Locks (none : Option (Holder P)) point .none := by
  have hlk := h.intr.mpr (.inr rfl)
  constructor
  · intro q
    have : ¬ (point q).holds = true := by
      rw [← h.proc q, hlk]
      simp
    simp [this]
  · simp

omit [DecidableEq P] in
theorem Locks.interrupted (h : Locks lk point .none) : Locks lk point .enter :=
  ⟨h.proc,h.intr.trans (by simp)⟩

end Locks

variable {d : ℕ → Disk} {s t : Sys P β} {l : List β} {p : P}

theorem Finished.congr {b : β} (h : Finished d s b) (hc : t.completed = s.completed) (hb : t.buf b = s.buf b) :
    Finished d t b := by
  obtain ⟨pre,x,post,h1,h2,h3⟩ := h
  exact ⟨pre,x,post,hc.trans h1,h2,hb.trans h3⟩

theorem Serves.congr (h : Serves d s l) (hbuf : ∀ b ∈ l, t.buf b = s.buf b) (hcmd : t.cmd = s.cmd) (htok : tokens t = tokens s)
    (hdisk : t.disk = s.disk) (hport : t.port = s.port) (hc : t.completed = s.completed) : Serves d t l := by
  cases l with
  | nil => exact ⟨hcmd.trans h.1,htok.trans h.2.1,by rw [hdisk, hc]; exact h.2.2⟩
  | cons b l =>
    have hb := hbuf b List.mem_cons_self
    have hof : t.cmdOf b = s.cmdOf b := by
      unfold Sys.cmdOf
      rw [hb]
    simp only [Serves, hb, hof, hcmd, htok, hdisk, hport, hc]
    exact h

namespace Inv

/-- A process that is not in `iderw` has no buffer there. -/
theorem point_ne (h : Inv d s l) {b : β} (hout : (s.point p).isOut = true) (hb : s.owner b = some p) (q : P) :
    (s.point q).buffer ≠ some b := by
  intro hq
  obtain rfl : p = q := Option.some.inj (hb.symm.trans (h.owner q b hq))
  cases hp : s.point p with
  | out =>
    rw [hp] at hq
    cases hq
  | _ =>
    rw [hp] at hout
    cases hout

theorem buffer_of_waits {x : Point β} {b : β} (h : x.waits = some b) : x.buffer = some b := by
  cases x with
  | test c => exact h
  | asleep c => exact h
  | woken c => exact h
  | _ => cases h

theorem buffer_of_fresh {x : Point β} {b : β} (h : x.fresh = some b) : x.buffer = some b := by
  cases x with
  | enter c => exact h
  | append c => exact h
  | _ => cases h

theorem buffer_of_left {x : Point β} {b : β} (h : x.left = some b) : x.buffer = some b := by
  cases x with
  | leave c => exact h
  | returned c => exact h
  | _ => cases h

/-- One process is in `iderw` with a buffer. -/
theorem point_inj (h : Inv d s l) {q : P} {b : β} (hp : (s.point p).buffer = some b) (hq : (s.point q).buffer = some b) :
    p = q := Option.some.inj ((h.owner p b hp).symm.trans (h.owner q b hq))

/-- The sleep lock of a buffer that no process is in `iderw` with changes hands. -/
theorem setOwner [DecidableEq β] (h : Inv d s l) {b : β} {o : Option P} (hb : ∀ q, (s.point q).buffer ≠ some b) :
    Inv d { s with owner := Function.update s.owner b o } l :=
  { h with
    owner := fun q c hq => by
      have hc : c ≠ b := fun hcb => hb q (hcb ▸ hq)
      simpa [hc] using h.owner q c hq }

/-- A buffer that no process is in `iderw` with changes. -/
theorem setBuf [DecidableEq β] (h : Inv d s l) {b : β} {x : Buf} (hb : ∀ q, (s.point q).buffer ≠ some b) :
    Inv d (s.setBuf b x) l := by
  have hne : ∀ {q c}, (s.point q).buffer = some c → (s.setBuf b x).buf c = s.buf c := by
    intro q c hq
    have hc : c ≠ b := fun hcb => hb q (hcb ▸ hq)
    simp [Sys.setBuf, hc]
  have hqueue : ∀ c ∈ l, (s.setBuf b x).buf c = s.buf c := by
    intro c hc
    obtain ⟨-,q,hq⟩ := h.queued c hc
    exact hne (buffer_of_waits hq)
  refine ⟨h.linked,h.nodup,h.locks,h.owner,fun c hc => ?_,fun q c hq => ?_,fun q c hq => ?_,fun q c hq => ?_,?_,
    h.history,h.valid⟩
  · rw [hqueue c hc]
    exact h.queued c hc
  · rw [hne (buffer_of_fresh hq)]
    exact h.fresh q c hq
  · exact (h.waits q c hq).imp_right fun hf => hf.congr rfl (hne (buffer_of_waits hq))
  · exact (h.left q c hq).congr rfl (hne (buffer_of_left hq))
  · exact h.serves.congr hqueue rfl rfl rfl rfl rfl

/-- The drive completes the command for the head. -/
theorem complete (h : Inv d s l) (hs : s.complete = some t) : Inv d t l := by
  have hserve := h.serves
  unfold Sys.complete at hs
  cases l with
  | nil =>
    rw [hserve.1] at hs
    cases hs
  | cons b l =>
    obtain ⟨hblock,⟨hcmd,htok,hdisk⟩ | ⟨hcmd,-⟩⟩ := hserve
    · have htok' : ∀ u : Sys P β, u.irq = s.irq + 1 → u.intr = s.intr → tokens u = 1 := by
        intro u h1 h2
        unfold tokens at htok ⊢
        rw [h1, h2]
        omega
      rw [hcmd] at hs
      unfold Sys.cmdOf at hs
      cases hd : (s.buf b).dirty with
      | true =>
        simp only [hd, if_true] at hs
        cases hs
        refine { h with serves := ⟨hblock,.inr ⟨rfl,htok' _ rfl rfl,?_,?_⟩⟩ }
        · simp [sync, hd, hdisk]
        · simp [hd]
      | false =>
        simp only [hd, if_false, Bool.false_eq_true] at hs
        cases hs
        refine { h with serves := ⟨hblock,.inr ⟨rfl,htok' _ rfl rfl,?_,?_⟩⟩ }
        · simp [sync, hd, hdisk]
        · intro _
          dsimp only
          rw [hdisk]
    · rw [hcmd] at hs
      cases hs

/-- The handler takes the interrupt, or the lock, or gives the lock back. -/
theorem setIntr (h : Inv d s l) {lk : Option (Holder P)} {x : Intr} {n : ℕ} (hlk : Locks lk s.point x)
    (htok : n + (if x = .enter ∨ x = .body then 1 else 0) = tokens s) :
    Inv d { s with idelock := lk, intr := x, irq := n } l := by
  exact { h with locks := hlk, serves := h.serves.congr (fun _ _ => rfl) rfl htok rfl rfl rfl }

variable [DecidableEq P]

/-- A process moves from one point to another, with or without the lock. -/
theorem move (h : Inv d s l) {x : Point β} {lk : Option (Holder P)} (hlk : Locks lk (Function.update s.point p x) s.intr)
    (howner : ∀ b, x.buffer = some b → s.owner b = some p)
    (hqueued : ∀ b ∈ l, (s.point p).waits = some b → x.waits = some b)
    (hfresh : ∀ b, x.fresh = some b → (s.buf b).done = false)
    (hwaits : ∀ b, x.waits = some b → b ∈ l ∨ Finished d s b)
    (hleft : ∀ b, x.left = some b → Finished d s b) :
    Inv d ({ s with idelock := lk }.goto p x) l where
  linked := h.linked
  nodup := h.nodup
  locks := hlk
  owner q b hq := by
    by_cases hqp : q = p
    · subst hqp
      exact howner b (by simpa [Sys.goto] using hq)
    · exact h.owner q b (by simpa [Sys.goto, hqp] using hq)
  queued b hb := by
    obtain ⟨h1,q,hq⟩ := h.queued b hb
    refine ⟨h1,q,?_⟩
    by_cases hqp : q = p
    · subst hqp
      simpa [Sys.goto] using hqueued b hb hq
    · simpa [Sys.goto, hqp] using hq
  fresh q b hq := by
    by_cases hqp : q = p
    · subst hqp
      exact hfresh b (by simpa [Sys.goto] using hq)
    · exact h.fresh q b (by simpa [Sys.goto, hqp] using hq)
  waits q b hq := by
    by_cases hqp : q = p
    · subst hqp
      exact hwaits b (by simpa [Sys.goto] using hq)
    · exact h.waits q b (by simpa [Sys.goto, hqp] using hq)
  left q b hq := by
    by_cases hqp : q = p
    · subst hqp
      exact hleft b (by simpa [Sys.goto] using hq)
    · exact h.left q b (by simpa [Sys.goto, hqp] using hq)
  serves := h.serves
  history := h.history
  valid := h.valid

/-- A process with the lock appends its buffer, and starts the drive if the queue was empty. -/
theorem append [DecidableEq β] [Fintype β] (h : Inv d s l) {b : β} (hp : s.point p = .append b) (hs : s.append b = some t) :
    Inv d (t.goto p (.test b)) (l ++ [b]) := by
  have hbuf : (s.point p).fresh = some b := by rw [hp]; rfl
  have hown : (s.point p).buffer = some b := buffer_of_fresh hbuf
  have hbl : b ∉ l := by
    intro hmem
    obtain ⟨-,q,hq⟩ := h.queued b hmem
    obtain rfl := h.point_inj hown (buffer_of_waits hq)
    rw [hp] at hq
    cases hq
  have hlen : l.length ≤ Fintype.card β := h.nodup.length_le_card
  obtain ⟨q,next,happ,hlinked,hhead⟩ := h.linked.append h.nodup hbl hlen
  unfold Sys.append at hs
  rw [happ, Option.bind_eq_bind, Option.bind_some] at hs
  dsimp only at hs
  obtain ⟨c,rfl,hcmd⟩ : ∃ c, t = { s with idequeue := q, qnext := next, appended := s.appended ++ [b], cmd := c } ∧
      ((l = [] ∧ (s.buf b).blockno < fssize ∧ c = some (s.cmdOf b)) ∨ (l ≠ [] ∧ c = s.cmd)) := by
    by_cases hl : l = []
    · rw [if_pos (hhead.mpr hl)] at hs
      unfold Sys.idestart at hs
      split at hs
      · cases hs
      · rename_i hblock
        split at hs
        · cases hs
        · cases hs
          exact ⟨_,rfl,.inl ⟨hl,by simpa using hblock,rfl⟩⟩
    · rw [if_neg fun hq => hl (hhead.mp hq)] at hs
      cases hs
      exact ⟨_,rfl,.inr ⟨hl,rfl⟩⟩
  have hother : ∀ {q c}, (s.point q).waits = some c → q ≠ p := by
    rintro q c hq rfl
    rw [hp] at hq
    cases hq
  refine ⟨hlinked,?_,h.locks.keep (by rw [hp]; rfl),fun q c hq => ?_,fun c hc => ?_,fun q c hq => ?_,fun q c hq => ?_,
    fun q c hq => ?_,?_,?_,h.valid⟩
  · exact List.nodup_append.mpr ⟨h.nodup,List.nodup_singleton b,fun x hx y hy => by
      obtain rfl := List.mem_singleton.mp hy
      exact ne_of_mem_of_not_mem hx hbl⟩
  · by_cases hqp : q = p
    · subst hqp
      obtain rfl : b = c := by simpa [Sys.goto, Point.buffer, Point.fresh, Point.waits] using hq
      exact h.owner q b hown
    · exact h.owner q c (by simpa [Sys.goto, hqp] using hq)
  · rcases List.mem_append.mp hc with hc | hc
    · obtain ⟨h1,q,hq⟩ := h.queued c hc
      exact ⟨h1,q,by simpa [Sys.goto, hother hq] using hq⟩
    · obtain rfl := List.mem_singleton.mp hc
      exact ⟨h.fresh p c hbuf,p,by simp [Sys.goto, Point.waits]⟩
  · by_cases hqp : q = p
    · subst hqp
      simp [Sys.goto, Point.fresh] at hq
    · exact h.fresh q c (by simpa [Sys.goto, hqp] using hq)
  · by_cases hqp : q = p
    · subst hqp
      obtain rfl : b = c := by simpa [Sys.goto, Point.waits] using hq
      exact .inl (by simp)
    · rcases h.waits q c (by simpa [Sys.goto, hqp] using hq) with hc | hf
      · exact .inl (List.mem_append_left _ hc)
      · exact .inr (hf.congr rfl rfl)
  · by_cases hqp : q = p
    · subst hqp
      simp [Sys.goto, Point.left] at hq
    · exact (h.left q c (by simpa [Sys.goto, hqp] using hq)).congr rfl rfl
  · rcases hcmd with ⟨rfl,hblock,rfl⟩ | ⟨hl,rfl⟩
    · obtain ⟨-,htok,hdisk⟩ := h.serves
      exact ⟨hblock,.inl ⟨rfl,htok,hdisk⟩⟩
    · cases l with
      | nil => exact absurd rfl hl
      | cons x l => exact h.serves
  · change s.appended ++ [b] = _
    rw [h.history, List.append_assoc]
    rfl

omit [DecidableEq P] in
/-- `wakeup` leaves every process with the buffer it has. -/
theorem wakeup_point [DecidableEq β] (s : Sys P β) (b : β) (q : P) :
    ((s.wakeup b).point q).holds = (s.point q).holds ∧ ((s.wakeup b).point q).fresh = (s.point q).fresh ∧
      ((s.wakeup b).point q).waits = (s.point q).waits ∧ ((s.wakeup b).point q).left = (s.point q).left := by
  unfold Sys.wakeup
  dsimp only
  cases s.point q with
  | asleep c =>
    dsimp only
    split
    · exact ⟨rfl,rfl,rfl,rfl⟩
    · exact ⟨rfl,rfl,rfl,rfl⟩
  | _ => exact ⟨rfl,rfl,rfl,rfl⟩

omit [DecidableEq P] in
/-- What the handler does when the drive is done with the command for the head. -/
theorem ideintr_eq [DecidableEq β] {b : β} {r : List β} (hq : s.idequeue = some b) (hrest : Linked s.qnext (s.qnext b) r)
    (hbr : b ∉ r) (hcmd : s.cmd = none) (hs : s.ideintr = some t) :
    ∃ c, t = { (s.setBuf b (s.finish (s.buf b))).wakeup b with
        idequeue := s.qnext b, completed := s.completed ++ [(b,s.buf b)], cmd := c } ∧
      ((r = [] ∧ c = none) ∨ ∃ x r', r = x :: r' ∧ (s.buf x).blockno < fssize ∧ c = some (s.cmdOf x)) := by
  unfold Sys.ideintr at hs
  rw [hq] at hs
  dsimp only at hs
  rw [hcmd, if_neg (by simp)] at hs
  cases r with
  | nil =>
    have hn : s.qnext b = none := hrest
    simp only [Sys.wakeup, Sys.setBuf, hn] at hs
    cases hs
    exact ⟨none,by rw [← hcmd, hn]; rfl,.inl ⟨rfl,rfl⟩⟩
  | cons x r' =>
    obtain ⟨hn,-⟩ := hrest
    have hxb : x ≠ b := fun hxb => hbr (hxb ▸ List.mem_cons_self)
    simp only [Sys.wakeup, Sys.setBuf, Sys.idestart, hn, Function.update_of_ne hxb] at hs
    split at hs
    · cases hs
    · rename_i hlt
      split at hs
      · cases hs
      · cases hs
        refine ⟨some (s.cmdOf x),?_,.inr ⟨x,r',rfl,by simpa using hlt,rfl⟩⟩
        rw [hn]
        simp [Sys.wakeup, Sys.setBuf, Sys.cmdOf, hxb, Sys.finish]

omit [DecidableEq P] in
/-- The handler completes the request at the head and starts the next one. -/
theorem ideintr [DecidableEq β] (h : Inv d s l) (hi : s.intr = .body) (hs : s.ideintr = some t) :
    ∃ b r, l = b :: r ∧ Inv d { t with intr := .leave } r := by
  have htok : tokens s = s.irq + 1 := by
    unfold tokens
    rw [if_pos (.inr hi)]
  have hserve := h.serves
  cases l with
  | nil =>
    have := hserve.2.1
    omega
  | cons b r =>
    obtain ⟨hblock,⟨-,h0,-⟩ | ⟨hcmd,h1,hdisk,hport⟩⟩ := hserve
    · omega
    obtain ⟨hq,hrest⟩ := h.linked
    obtain ⟨hbr,hnodup⟩ := List.nodup_cons.mp h.nodup
    obtain ⟨hdone,p,hp⟩ := h.queued b List.mem_cons_self
    have hfinish : s.finish (s.buf b) = (sync (replay d s.completed) (s.buf b)).1 := by
      unfold Sys.finish sync
      cases hd : (s.buf b).dirty with
      | true => rfl
      | false => simp [hport hd]
    obtain ⟨c,rfl,hc⟩ := ideintr_eq hq hrest hbr hcmd hs
    have hne : ∀ {q c}, (s.point q).buffer = some c → q ≠ p → c ≠ b := by
      intro q c hqc hqp hcb
      subst hcb
      exact hqp (h.point_inj hqc (buffer_of_waits hp))
    have hpoint := wakeup_point (s.setBuf b (s.finish (s.buf b))) b
    generalize hu : (s.setBuf b (s.finish (s.buf b))).wakeup b = u at hpoint
    have hbuf : ∀ c, c ≠ b → u.buf c = s.buf c := by
      intro c hcb
      rw [← hu]
      exact Function.update_of_ne hcb _ _
    have hself : u.buf b = (sync (replay d s.completed) (s.buf b)).1 := by
      rw [← hu, ← hfinish]
      exact Function.update_self _ _ _
    have hfin : ∀ v : Sys P β, v.completed = s.completed ++ [(b,s.buf b)] → v.buf = u.buf → ∀ c, c = b ∨ Finished d s c →
        Finished d v c := by
      intro v hv hvb c hc
      by_cases hcb : c = b
      · subst hcb
        exact ⟨s.completed,s.buf c,[],hv,by simp,by rw [hvb, hself]⟩
      · obtain ⟨pre,x,post,h2,h3,h4⟩ := hc.resolve_left hcb
        exact ⟨pre,x,post ++ [(b,s.buf b)],by rw [hv, h2]; simp,by simp [h3, hcb],by rw [hvb, hbuf c hcb, h4]⟩
    have hkeep : u.owner = s.owner ∧ u.idelock = s.idelock ∧ u.irq = s.irq ∧ u.disk = s.disk ∧ u.appended = s.appended ∧
        u.qnext = s.qnext := by
      rw [← hu]
      exact ⟨rfl,rfl,rfl,rfl,rfl,rfl⟩
    obtain ⟨howner,hlock,hirq,hdisk',happ,hnext⟩ := hkeep
    have hpt : ∀ q, (u.point q).holds = (s.point q).holds ∧ (u.point q).fresh = (s.point q).fresh ∧
      (u.point q).waits = (s.point q).waits ∧ (u.point q).left = (s.point q).left := hpoint
    refine ⟨b,r,rfl,?_,hnodup,⟨fun q => ?_,?_⟩,fun q c hq => ?_,fun c hc => ?_,fun q c hq => ?_,fun q c hq => ?_,
      fun q c hq => ?_,?_,?_,fun e he => ?_⟩
    · dsimp only
      rw [hnext]
      exact hrest
    · dsimp only
      rw [hlock, (hpt q).1]
      exact h.locks.proc q
    · dsimp only
      rw [hlock]
      exact iff_of_true (h.locks.intr.mpr (.inl hi)) (.inr rfl)
    · dsimp only at hq ⊢
      rw [howner]
      refine h.owner q c ?_
      unfold Point.buffer at hq ⊢
      rwa [(hpt q).2.1, (hpt q).2.2.1, (hpt q).2.2.2] at hq
    · obtain ⟨h2,q,hq⟩ := h.queued c (List.mem_cons_of_mem _ hc)
      have hcb : c ≠ b := fun hcb => hbr (hcb ▸ hc)
      dsimp only
      rw [hbuf c hcb]
      exact ⟨h2,q,by rw [(hpt q).2.2.1]; exact hq⟩
    · dsimp only at hq ⊢
      rw [(hpt q).2.1] at hq
      have hqp : q ≠ p := by
        rintro rfl
        cases hx : s.point q with
        | enter _ => rw [hx] at hp; cases hp
        | append _ => rw [hx] at hp; cases hp
        | _ => rw [hx] at hq; cases hq
      rw [hbuf c (hne (buffer_of_fresh hq) hqp)]
      exact h.fresh q c hq
    · dsimp only at hq
      rw [(hpt q).2.2.1] at hq
      rcases h.waits q c hq with hc | hf
      · rcases List.mem_cons.mp hc with rfl | hc
        · exact .inr (hfin _ (by rfl) (by rfl) _ (.inl rfl))
        · exact .inl hc
      · exact .inr (hfin _ (by rfl) (by rfl) _ (.inr hf))
    · dsimp only at hq
      rw [(hpt q).2.2.2] at hq
      exact hfin _ (by rfl) (by rfl) _ (.inr (h.left q c hq))
    · have hrep : u.disk = replay d (s.completed ++ [(b,s.buf b)]) := by
        rw [hdisk', hdisk, replay_append, replay_singleton]
      have hirq0 : u.irq = 0 := by omega
      rcases hc with ⟨rfl,rfl⟩ | ⟨x,r',rfl,hlt,rfl⟩
      · exact ⟨rfl,by simp [tokens, hirq0],hrep⟩
      · have hxb : x ≠ b := fun hxb => hbr (hxb ▸ List.mem_cons_self)
        refine ⟨by dsimp only; rwa [hbuf x hxb],.inl ⟨?_,by simp [tokens, hirq0],hrep⟩⟩
        simp only [Sys.cmdOf, hbuf x hxb]
    · dsimp only
      rw [happ, h.history]
      simp
    · rcases List.mem_append.mp he with he | he
      · exact h.valid e he
      · obtain rfl := List.mem_singleton.mp he
        exact ⟨hblock,hdone⟩

section Steps
variable [DecidableEq β] [Fintype β]

/-- A step of a process in `iderw`. -/
theorem run (h : Inv d s l) (hs : Ide.run s p = some t) : ∃ l', Inv d t l' := by
  unfold Ide.run at hs
  cases hp : s.point p with
  | out =>
    rw [hp] at hs
    cases hs
  | enter b =>
    rw [hp] at hs
    dsimp only at hs
    split at hs
    · rename_i hfree
      cases hs
      have hlocks := h.locks
      rw [hfree] at hlocks
      have hf := h.fresh p b (by rw [hp]; rfl)
      have ho := h.owner p b (by rw [hp]; rfl)
      refine ⟨l,h.move (hlocks.take rfl) (fun c hc => ?_) (fun c _ hc => ?_) (fun c hc => ?_) (fun c hc => ?_) fun c hc => ?_⟩
      · obtain rfl : b = c := Option.some.inj hc
        exact ho
      · rw [hp] at hc
        cases hc
      · obtain rfl : b = c := Option.some.inj hc
        exact hf
      · cases hc
      · cases hc
    · cases hs
  | append b =>
    rw [hp] at hs
    obtain ⟨u,hu,rfl⟩ := Option.map_eq_some_iff.mp hs
    exact ⟨_,h.append hp hu⟩
  | test b =>
    rw [hp] at hs
    dsimp only at hs
    have hw := h.waits p b (by rw [hp]; rfl)
    have ho := h.owner p b (by rw [hp]; rfl)
    split at hs
    · rename_i hdone
      cases hs
      have hbl : b ∉ l := by
        intro hb
        have := (h.queued b hb).1
        rw [hdone] at this
        cases this
      refine ⟨l,h.move (h.locks.keep (by rw [hp]; rfl)) (fun c hc => ?_) (fun c hc hc' => ?_) (fun c hc => ?_) (fun c hc => ?_)
        fun c hc => ?_⟩
      · obtain rfl : b = c := Option.some.inj hc
        exact ho
      · rw [hp] at hc'
        obtain rfl : b = c := Option.some.inj hc'
        exact absurd hc hbl
      · cases hc
      · cases hc
      · obtain rfl : b = c := Option.some.inj hc
        exact hw.resolve_left hbl
    · cases hs
      refine ⟨l,h.move (h.locks.drop (by rw [hp]; rfl) rfl) (fun c hc => ?_) (fun c _ hc => ?_) (fun c hc => ?_) (fun c hc => ?_)
        fun c hc => ?_⟩
      · obtain rfl : b = c := Option.some.inj hc
        exact ho
      · rwa [hp] at hc
      · cases hc
      · obtain rfl : b = c := Option.some.inj hc
        exact hw
      · cases hc
  | asleep b =>
    rw [hp] at hs
    cases hs
  | woken b =>
    rw [hp] at hs
    dsimp only at hs
    have hw := h.waits p b (by rw [hp]; rfl)
    have ho := h.owner p b (by rw [hp]; rfl)
    split at hs
    · rename_i hfree
      cases hs
      have hlocks := h.locks
      rw [hfree] at hlocks
      refine ⟨l,h.move (hlocks.take rfl) (fun c hc => ?_) (fun c _ hc => ?_) (fun c hc => ?_) (fun c hc => ?_) fun c hc => ?_⟩
      · obtain rfl : b = c := Option.some.inj hc
        exact ho
      · rwa [hp] at hc
      · cases hc
      · obtain rfl : b = c := Option.some.inj hc
        exact hw
      · cases hc
    · cases hs
  | leave b =>
    rw [hp] at hs
    cases hs
    have hl := h.left p b (by rw [hp]; rfl)
    have ho := h.owner p b (by rw [hp]; rfl)
    refine ⟨l,h.move (h.locks.drop (by rw [hp]; rfl) rfl) (fun c hc => ?_) (fun c _ hc => ?_) (fun c hc => ?_) (fun c hc => ?_)
      fun c hc => ?_⟩
    · obtain rfl : b = c := Option.some.inj hc
      exact ho
    · rw [hp] at hc
      cases hc
    · cases hc
    · cases hc
    · obtain rfl : b = c := Option.some.inj hc
      exact hl
  | returned b =>
    rw [hp] at hs
    cases hs
    refine ⟨l,h.move (h.locks.keep (by rw [hp]; rfl)) (fun c hc => ?_) (fun c _ hc => ?_) (fun c hc => ?_) (fun c hc => ?_)
      fun c hc => ?_⟩
    · cases hc
    · rw [hp] at hc
      cases hc
    · cases hc
    · cases hc
    · cases hc

omit [DecidableEq P] [Fintype β] in
/-- A step of the handler. -/
theorem handle (h : Inv d s l) (hs : Ide.handle s = some t) : ∃ l', Inv d t l' := by
  unfold Ide.handle at hs
  cases hi : s.intr with
  | none =>
    rw [hi] at hs
    cases hs
  | enter =>
    rw [hi] at hs
    dsimp only at hs
    split at hs
    · rename_i hfree
      cases hs
      have hlocks := h.locks
      rw [hfree, hi] at hlocks
      exact ⟨l,h.setIntr hlocks.takeIntr (by simp [tokens, hi])⟩
    · cases hs
  | body =>
    rw [hi] at hs
    obtain ⟨u,hu,rfl⟩ := Option.map_eq_some_iff.mp hs
    obtain ⟨b,r,-,hr⟩ := h.ideintr hi hu
    exact ⟨r,hr⟩
  | leave =>
    rw [hi] at hs
    cases hs
    have hlocks := h.locks
    rw [hi] at hlocks
    exact ⟨l,h.setIntr hlocks.dropIntr (by simp [tokens, hi])⟩

theorem step {havedisk1 : Bool} {a : Act P β} (h : Inv d s l) (hs : Ide.step havedisk1 s a = some t) : ∃ l', Inv d t l' := by
  cases a with
  | lock p b =>
    simp only [Ide.step, Option.ite_none_right_eq_some] at hs
    obtain ⟨⟨-,hb⟩,hs⟩ := hs
    cases hs
    refine ⟨l,h.setOwner fun q hq => ?_⟩
    have := h.owner q b hq
    rw [hb] at this
    cases this
  | unlock p b =>
    simp only [Ide.step, Option.ite_none_right_eq_some] at hs
    obtain ⟨⟨hout,hb⟩,hs⟩ := hs
    cases hs
    exact ⟨l,h.setOwner (h.point_ne hout hb)⟩
  | store p b x =>
    simp only [Ide.step, Option.ite_none_right_eq_some] at hs
    obtain ⟨⟨hout,hb⟩,hs⟩ := hs
    cases hs
    exact ⟨l,h.setBuf (h.point_ne hout hb)⟩
  | call p b =>
    simp only [Ide.step, Option.ite_none_right_eq_some, Option.ite_none_left_eq_some] at hs
    obtain ⟨hout,hb,hdone,-,hs⟩ := hs
    cases hs
    have hp : s.point p = .out := by
      cases hp : s.point p with
      | out => rfl
      | _ =>
        rw [hp] at hout
        cases hout
    refine ⟨l,h.move (h.locks.keep (by rw [hp]; rfl)) (fun c hc => ?_) (fun c _ hc => ?_) (fun c hc => ?_) (fun c hc => ?_)
      fun c hc => ?_⟩
    · obtain rfl : b = c := Option.some.inj hc
      exact not_not.mp hb
    · rw [hp] at hc
      cases hc
    · obtain rfl : b = c := Option.some.inj hc
      simpa using hdone
    · cases hc
    · cases hc
  | run p => exact h.run hs
  | wake p =>
    simp only [Ide.step] at hs
    cases hp : s.point p with
    | asleep b =>
      rw [hp] at hs
      cases hs
      have ho := h.owner p b (by rw [hp]; rfl)
      have hw := h.waits p b (by rw [hp]; rfl)
      refine ⟨l,h.move (h.locks.keep (by rw [hp]; rfl)) (fun c hc => ?_) (fun c _ hc => ?_) (fun c hc => ?_) (fun c hc => ?_)
        fun c hc => ?_⟩
      · obtain rfl : b = c := Option.some.inj hc
        exact ho
      · rwa [hp] at hc
      · cases hc
      · obtain rfl : b = c := Option.some.inj hc
        exact hw
      · cases hc
    | _ =>
      rw [hp] at hs
      cases hs
  | complete => exact ⟨l,h.complete hs⟩
  | interrupt =>
    simp only [Ide.step, Option.ite_none_right_eq_some] at hs
    obtain ⟨⟨hirq,hi⟩,hs⟩ := hs
    cases hs
    have hlocks := h.locks
    rw [hi] at hlocks
    refine ⟨l,h.setIntr hlocks.interrupted ?_⟩
    simp [tokens, hi]
    omega
  | handle => exact h.handle hs

end Steps

omit [DecidableEq P] in
theorem start (h : Start d s) : Inv d s [] := by
  obtain ⟨hq,hlk,hp,hi,hdisk,hcmd,hirq,happ,hcompl⟩ := h
  refine ⟨hq,List.nodup_nil,⟨fun p => by simp [hlk, hp, Point.holds],by simp [hlk, hi]⟩,fun p b hb => ?_,fun b hb => ?_,
    fun p b hb => ?_,fun p b hb => ?_,fun p b hb => ?_,⟨hcmd,by simp [tokens, hirq, hi],by rw [hdisk, hcompl]; rfl⟩,
    by simp [happ, hcompl],by simp [hcompl]⟩
  · rw [hp] at hb
    cases hb
  · cases hb
  · rw [hp] at hb
    cases hb
  · rw [hp] at hb
    cases hb
  · rw [hp] at hb
    cases hb

end Inv

theorem reached_inv [DecidableEq P] [DecidableEq β] [Fintype β] {havedisk1 : Bool} (h : Reached havedisk1 d s) :
    ∃ l, Inv d s l := by
  refine Reachable.invariant h (I := fun s => ∃ l, Inv d s l) (fun s hs => ⟨[],.start hs⟩) ?_
  rintro s a t ⟨l,hl⟩ hs
  exact hl.step hs

end X86OsDev.Xv6.Ide
