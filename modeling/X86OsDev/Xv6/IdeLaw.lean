import X86OsDev.Xv6.IdeInv

/-! # The driver and the memory disk

A state reached by any interleaving is compared with the memory disk of
memide.c, on which the completed requests were done one after the other. A
request that was appended is completed by steps of the drive and of the handler,
after at most one process has given up the lock.
-/
namespace X86OsDev.Xv6.Ide
open LinkedQueue Transition
variable {P β : Type} {d : ℕ → Disk} {s t : Sys P β} {l : List β} {p : P} {b : β}

/-- Each process in `iderw` has a buffer for a block of the disk. -/
def OnDisk (s : Sys P β) : Prop := ∀ p b, (s.point p).buffer = some b → (s.buf b).blockno < fssize

theorem OnDisk.congr (h : OnDisk s) (hp : ∀ q, (t.point q).buffer = (s.point q).buffer)
    (hb : ∀ b, (t.buf b).blockno = (s.buf b).blockno) : OnDisk t := by
  intro q b hq
  rw [hp] at hq
  rw [hb]
  exact h q b hq

section Steps
variable [DecidableEq P] [DecidableEq β] [Fintype β] {havedisk1 : Bool}

omit [DecidableEq β] [Fintype β] in
/-- A process that goes on to a point with the same buffer. -/
theorem OnDisk.move (h : OnDisk s) {x : Point β} {lk : Option (Holder P)} (hx : x.buffer = (s.point p).buffer) :
    OnDisk ({ s with idelock := lk }.goto p x) := by
  refine h.congr (fun q => ?_) fun _ => rfl
  by_cases hq : q = p
  · subst hq
    simp [Sys.goto, hx]
  · simp [Sys.goto, hq]

/-- What is asked of a state that the driver goes on to: its requests are for blocks of the disk, and the requests
of before are still there. -/
structure Onward (havedisk1 : Bool) (s t : Sys P β) : Prop where
  leads : Leads (OfFun (step havedisk1)) s t
  onDisk : OnDisk t
  appended : s.appended <+: t.appended

theorem Onward.refl (h : OnDisk s) : Onward havedisk1 s s := ⟨.refl s,h,List.prefix_refl _⟩

theorem Onward.head {u : Sys P β} {a : Act P β} (hs : step havedisk1 s a = some t) (hpre : s.appended <+: t.appended)
    (h : Onward havedisk1 t u) : Onward havedisk1 s u := ⟨.head hs h.leads,h.onDisk,hpre.trans h.appended⟩

theorem Onward.trans {u : Sys P β} (h : Onward havedisk1 s t) (h' : Onward havedisk1 t u) : Onward havedisk1 s u :=
  ⟨Relation.ReflTransGen.trans h.leads h'.leads,h'.onDisk,h.appended.trans h'.appended⟩

theorem Inv.leads (h : Inv d s l) (hl : Leads (OfFun (Ide.step havedisk1)) s t) : ∃ l', Inv d t l' := by
  induction hl with
  | refl => exact ⟨l,h⟩
  | tail _ hs ih =>
    obtain ⟨l',hl'⟩ := ih
    obtain ⟨a,ha⟩ := hs
    exact hl'.step ha

/-- After the loop the process gives up the lock. -/
theorem onward_leave (hd : OnDisk s) (hp : s.point p = .leave b) : ∃ t, Onward havedisk1 s t ∧ t.idelock = none := by
  have hs : Ide.step havedisk1 s (.run p) = some ({ s with idelock := none }.goto p (.returned b)) := by
    simp only [step, run, hp]
  exact ⟨_,.head hs (List.prefix_refl _) (.refl (hd.move (by rw [hp]; rfl))),rfl⟩

/-- In the loop the process leaves, or it sleeps and gives up the lock. -/
theorem onward_test (hd : OnDisk s) (hp : s.point p = .test b) : ∃ t, Onward havedisk1 s t ∧ t.idelock = none := by
  cases hdone : (s.buf b).done with
  | true =>
    have hs : Ide.step havedisk1 s (.run p) = some (s.goto p (.leave b)) := by
      simp only [step, run, hp, hdone, if_true]
    have hd' : OnDisk (s.goto p (.leave b)) := hd.move (by rw [hp]; rfl)
    obtain ⟨t,ht,hfree⟩ := onward_leave hd' (Function.update_self _ _ _)
    exact ⟨t,.head hs (List.prefix_refl _) ht,hfree⟩
  | false =>
    have hs : Ide.step havedisk1 s (.run p) = some ({ s with idelock := none }.goto p (.asleep b)) := by
      simp only [step, run, hp, hdone, Bool.false_eq_true, if_false]
    exact ⟨_,.head hs (List.prefix_refl _) (.refl (hd.move (by rw [hp]; rfl))),rfl⟩

omit [DecidableEq P] in
/-- A buffer for a block of the disk is appended. -/
theorem Inv.append_ok (h : Inv d s l) (hp : s.point p = .append b) (hb : (s.buf b).blockno < fssize) :
    ∃ t, s.append b = some t ∧ t.buf = s.buf ∧ t.point = s.point ∧ t.appended = s.appended ++ [b] := by
  have hown : (s.point p).buffer = some b := by rw [hp]; rfl
  have hbl : b ∉ l := by
    intro hmem
    obtain ⟨-,q,hq⟩ := h.queued b hmem
    obtain rfl := h.point_inj hown (buffer_of_waits hq)
    rw [hp] at hq
    cases hq
  obtain ⟨q,next,happ,-,hhead⟩ := h.linked.append h.nodup hbl h.nodup.length_le_card
  unfold Sys.append
  rw [happ, Option.bind_eq_bind, Option.bind_some]
  dsimp only
  by_cases hl : l = []
  · subst hl
    obtain ⟨hcmd,-⟩ := h.serves
    rw [if_pos (hhead.mpr rfl)]
    unfold Sys.idestart
    dsimp only
    rw [if_neg (Nat.not_le.mpr hb), hcmd, if_neg (by simp)]
    exact ⟨_,rfl,rfl,rfl,rfl⟩
  · rw [if_neg fun hq => hl (hhead.mp hq)]
    exact ⟨_,rfl,rfl,rfl,rfl⟩

omit [DecidableEq P] [Fintype β] in
/-- The handler completes the request at the head. -/
theorem Inv.ideintr_ok {r : List β} (h : Inv d s (b :: r)) (hd : OnDisk s) (hi : s.intr = .body) :
    ∃ t, s.ideintr = some t ∧ Inv d { t with intr := .leave } r ∧ OnDisk t ∧ t.appended = s.appended ∧
      t.idelock = s.idelock := by
  have htok : tokens s = s.irq + 1 := by
    unfold tokens
    rw [if_pos (.inr hi)]
  obtain ⟨-,⟨-,h0,-⟩ | ⟨hcmd,-⟩⟩ := h.serves
  · omega
  obtain ⟨hq,hrest⟩ := h.linked
  obtain ⟨hbr,-⟩ := List.nodup_cons.mp h.nodup
  obtain ⟨t,ht⟩ : ∃ t, s.ideintr = some t := by
    unfold Sys.ideintr
    rw [hq]
    dsimp only
    rw [hcmd, if_neg (by simp)]
    cases r with
    | nil =>
      have hn : s.qnext b = none := hrest
      simp only [Sys.wakeup, Sys.setBuf, hn]
      exact ⟨_,rfl⟩
    | cons x r' =>
      obtain ⟨hn,-⟩ := hrest
      have hxb : x ≠ b := fun hxb => hbr (hxb ▸ List.mem_cons_self)
      obtain ⟨-,p,hp⟩ := h.queued x (List.mem_cons_of_mem _ List.mem_cons_self)
      have hlt := hd p x (buffer_of_waits hp)
      simp only [Sys.wakeup, Sys.setBuf, Sys.idestart, hn, Function.update_of_ne hxb, if_neg (Nat.not_le.mpr hlt),
        Option.isSome_none, Bool.false_eq_true, if_false]
      exact ⟨_,rfl⟩
  obtain ⟨b',r',hl,hinv⟩ := h.ideintr hi ht
  cases hl
  obtain ⟨c,rfl,-⟩ := ideintr_eq hq hrest hbr hcmd ht
  refine ⟨_,ht,hinv,hd.congr (fun q => ?_) fun c => ?_,rfl,rfl⟩
  · obtain ⟨-,h1,h2,h3⟩ := wakeup_point (s.setBuf b (s.finish (s.buf b))) b q
    unfold Point.buffer
    dsimp only
    rw [h1, h2, h3]
    rfl
  · dsimp only [Sys.wakeup, Sys.setBuf]
    by_cases hcb : c = b
    · subst hcb
      rw [Function.update_self]
      rfl
    · rw [Function.update_of_ne hcb]

/-- The state is onward, without the lock and with the given queue. -/
structure Served (havedisk1 : Bool) (d : ℕ → Disk) (s t : Sys P β) (r : List β) : Prop where
  onward : Onward havedisk1 s t
  inv : Inv d t r
  free : t.idelock = none
  appended : t.appended = s.appended

theorem Served.head {u : Sys P β} {a : Act P β} {r : List β} (hs : Ide.step havedisk1 s a = some t) (happ : t.appended = s.appended)
    (h : Served havedisk1 d t u r) : Served havedisk1 d s u r :=
  ⟨.head hs (happ ▸ List.prefix_refl _) h.onward,h.inv,h.free,h.appended.trans happ⟩

/-- The handler with the lock completes the request and gives up the lock. -/
theorem Inv.served_body {r : List β} (h : Inv d s (b :: r)) (hd : OnDisk s) (hi : s.intr = .body) :
    ∃ t, Served havedisk1 d s t r := by
  obtain ⟨t,ht,hinv,hdt,happ,-⟩ := h.ideintr_ok hd hi
  have h1 : Ide.step havedisk1 s .handle = some { t with intr := .leave } := by
    simp only [Ide.step, Ide.handle, hi, ht, Option.map_some]
  have h2 : Ide.step havedisk1 { t with intr := .leave } .handle = some { t with idelock := none, intr := .none } := rfl
  have hlast : Inv d { t with idelock := none, intr := .none } r := hinv.setIntr hinv.locks.dropIntr (by simp [tokens])
  exact ⟨_,.head h1 happ (.head h2 rfl ⟨.refl (hdt.congr (fun _ => rfl) fun _ => rfl),hlast,rfl,rfl⟩)⟩

/-- The handler takes the lock. -/
theorem Inv.served_enter {r : List β} (h : Inv d s (b :: r)) (hd : OnDisk s) (hfree : s.idelock = none)
    (hi : s.intr = .enter) : ∃ t, Served havedisk1 d s t r := by
  have hs : Ide.step havedisk1 s .handle = some { s with idelock := some .intr, intr := .body } := by
    simp only [Ide.step, Ide.handle, hi, hfree, if_true]
  have hlocks := h.locks
  rw [hfree, hi] at hlocks
  have hinv : Inv d { s with idelock := some .intr, intr := .body } (b :: r) :=
    h.setIntr hlocks.takeIntr (by simp [tokens, hi])
  obtain ⟨t,ht⟩ := hinv.served_body (hd.congr (fun _ => rfl) fun _ => rfl) rfl
  exact ⟨t,.head hs rfl ht⟩

/-- The interrupt of the drive is taken. -/
theorem Inv.served_interrupt {r : List β} (h : Inv d s (b :: r)) (hd : OnDisk s) (hfree : s.idelock = none)
    (hi : s.intr = .none) (hirq : 0 < s.irq) : ∃ t, Served havedisk1 d s t r := by
  have hs : Ide.step havedisk1 s .interrupt = some { s with irq := s.irq - 1, intr := .enter } := by
    simp only [Ide.step, hi, hirq, and_self, if_true]
  have hlocks := h.locks
  rw [hi] at hlocks
  have htok : s.irq - 1 + 1 = tokens s := by
    simp only [tokens, hi, reduceCtorEq, or_self, if_false]
    omega
  have hinv : Inv d { s with irq := s.irq - 1, intr := .enter } (b :: r) := h.setIntr hlocks.interrupted htok
  obtain ⟨t,ht⟩ := hinv.served_enter (hd.congr (fun _ => rfl) fun _ => rfl) hfree rfl
  exact ⟨t,.head hs rfl ht⟩

/-- The request at the head is completed. -/
theorem Inv.served {r : List β} (h : Inv d s (b :: r)) (hd : OnDisk s) (hfree : s.idelock = none) :
    ∃ t, Served havedisk1 d s t r := by
  have hidle : s.intr = .none ∨ s.intr = .enter := by
    have := h.locks.intr.not.mp (by simp [hfree])
    cases hi : s.intr with
    | none => exact .inl rfl
    | enter => exact .inr rfl
    | _ => simp [hi] at this
  obtain ⟨-,⟨hcmd,htok,-⟩ | ⟨-,htok,-⟩⟩ := h.serves
  · have hi : s.intr = .none := by
      refine hidle.resolve_right fun hi => ?_
      simp [tokens, hi] at htok
    obtain ⟨t,ht,hirq,hsame⟩ : ∃ t, s.complete = some t ∧ 0 < t.irq ∧ t.intr = s.intr ∧ t.idelock = s.idelock ∧
        t.point = s.point ∧ t.buf = s.buf ∧ t.appended = s.appended := by
      unfold Sys.complete
      rw [hcmd]
      cases s.cmdOf b with
      | read drive sector => exact ⟨_,rfl,Nat.succ_pos _,rfl,rfl,rfl,rfl,rfl⟩
      | write drive sector data => exact ⟨_,rfl,Nat.succ_pos _,rfl,rfl,rfl,rfl,rfl⟩
    obtain ⟨hintr,hlock,hpoint,hbuf,happ⟩ := hsame
    have hdt : OnDisk t := hd.congr (fun q => by rw [hpoint]) fun c => by rw [hbuf]
    obtain ⟨u,hu⟩ := (h.complete ht).served_interrupt hdt (hlock.trans hfree) (hintr.trans hi) hirq
    exact ⟨u,.head (a := .complete) ht happ hu⟩
  · rcases hidle with hi | hi
    · refine h.served_interrupt hd hfree hi ?_
      simp only [tokens, hi, reduceCtorEq, or_self, if_false] at htok
      omega
    · exact h.served_enter hd hfree hi

/-- The lock is given up. -/
theorem Inv.released (h : Inv d s l) (hd : OnDisk s) : ∃ t, Onward havedisk1 s t ∧ t.idelock = none := by
  cases hlk : s.idelock with
  | none => exact ⟨s,.refl hd,hlk⟩
  | some x =>
    cases x with
    | proc p =>
      have hholds := (h.locks.proc p).mp hlk
      cases hp : s.point p with
      | append b =>
        obtain ⟨t,ht,hbuf,hpoint,happ⟩ := h.append_ok hp (hd p b (by rw [hp]; rfl))
        have hs : Ide.step havedisk1 s (.run p) = some (t.goto p (.test b)) := by
          simp only [Ide.step, Ide.run, hp, ht, Option.map_some]
        have hdt : OnDisk t := hd.congr (fun q => by rw [hpoint]) fun c => by rw [hbuf]
        obtain ⟨u,hu,hfree⟩ := onward_test
          (hdt.move (x := .test b) (p := p) (by rw [hpoint, hp]; rfl)) (Function.update_self _ _ _)
        refine ⟨u,.head hs ?_ hu,hfree⟩
        exact happ ▸ List.prefix_append _ _
      | test b => exact onward_test hd hp
      | leave b => exact onward_leave hd hp
      | _ =>
        rw [hp] at hholds
        cases hholds
    | intr =>
      rcases h.locks.intr.mp hlk with hi | hi
      · cases l with
        | nil =>
          have := h.serves.2.1
          simp [tokens, hi] at this
        | cons b r =>
          obtain ⟨t,ht⟩ := h.served_body hd hi
          exact ⟨t,ht.onward,ht.free⟩
      · have hs : Ide.step havedisk1 s .handle = some { s with idelock := none, intr := .none } := by
          simp only [Ide.step, Ide.handle, hi]
        exact ⟨_,.head hs (List.prefix_refl _) (.refl (hd.congr (fun _ => rfl) fun _ => rfl)),rfl⟩

/-- All the requests in the queue are completed. -/
theorem Inv.drained (h : Inv d s l) (hd : OnDisk s) (hfree : s.idelock = none) :
    ∃ t, Onward havedisk1 s t ∧ t.completed.map (·.1) = t.appended := by
  induction l generalizing s with
  | nil => exact ⟨s,.refl hd,by simpa using h.history.symm⟩
  | cons b r ih =>
    obtain ⟨t,ht⟩ := h.served hd hfree
    obtain ⟨u,hu,hall⟩ := ih ht.inv ht.onward.onDisk ht.free
    exact ⟨u,ht.onward.trans hu,hall⟩

/-- The queue, the drive and the requests of a state, whose queue is a list of buffers. -/
structure Refines (d : ℕ → Disk) (s : Sys P β) (l : List β) : Prop where
  fifo : Linked s.qnext s.idequeue l
  nodup : l.Nodup
  inOrder : s.appended = s.completed.map (·.1) ++ l
  idle : l = [] → s.cmd = none ∧ s.disk = replay d s.completed
  inProgress : ∀ b r, l = b :: r → (s.cmd = some (s.cmdOf b) ∧ s.disk = replay d s.completed) ∨
    (s.cmd = none ∧ tokens s = 1 ∧ s.disk = replay d (s.completed ++ [(b,s.buf b)]))
  atomic : ∀ pre b x post, s.completed = pre ++ (b,x) :: post → x.dev = 1 →
    ∃ y, memIderw fssize true (replay d pre 1) x = some (y,replay d (pre ++ [(b,x)]) 1)
  returned : ∀ p b, s.point p = .returned b → ∃ pre x post, s.completed = pre ++ (b,x) :: post ∧ b ∉ post.map (·.1) ∧
    (x.dev = 1 → memIderw fssize true (replay d pre 1) x = some (s.buf b,replay d (pre ++ [(b,x)]) 1))

omit [DecidableEq P] [DecidableEq β] [Fintype β] in
theorem Inv.refines (h : Inv d s l) : Refines d s l where
  fifo := h.linked
  nodup := h.nodup
  inOrder := h.history
  idle hl := by
    subst hl
    exact ⟨h.serves.1,h.serves.2.2⟩
  inProgress b r hl := by
    subst hl
    obtain ⟨-,⟨hcmd,-,hdisk⟩ | ⟨hcmd,htok,hdisk,-⟩⟩ := h.serves
    · exact .inl ⟨hcmd,hdisk⟩
    · exact .inr ⟨hcmd,htok,by rw [replay_append, replay_singleton, hdisk]⟩
  atomic pre b x post hc hdev := by
    obtain ⟨hblock,hdone⟩ := h.valid (b,x) (by rw [hc]; simp)
    refine ⟨(sync (replay d pre) x).1,?_⟩
    rw [memIderw_eq hdev hblock hdone, replay_append, replay_singleton]
  returned p b hp := by
    obtain ⟨pre,x,post,hc,hpost,hbuf⟩ := h.left p b (by rw [hp]; rfl)
    obtain ⟨hblock,hdone⟩ := h.valid (b,x) (by rw [hc]; simp)
    refine ⟨pre,x,post,hc,hpost,fun hdev => ?_⟩
    rw [memIderw_eq hdev hblock hdone, hbuf, replay_append, replay_singleton]

/-- In any interleaving the driver does what the memory disk does, one request at a time in the order in which they
were appended, and a request that was appended is completed. -/
theorem driver_refines_memory_disk (h : Reached havedisk1 d s) :
    (∃ l, Refines d s l) ∧ (OnDisk s → ∃ t, Leads (OfFun (step havedisk1)) s t ∧ s.appended <+: t.appended ∧
      t.completed.map (·.1) = t.appended) := by
  obtain ⟨l,hl⟩ := reached_inv h
  refine ⟨⟨l,hl.refines⟩,fun hd => ?_⟩
  obtain ⟨t,ht,hfree⟩ := hl.released hd
  obtain ⟨l',hl'⟩ := hl.leads ht.leads
  obtain ⟨u,hu,hall⟩ := hl'.drained ht.onDisk hfree
  exact ⟨u,(ht.trans hu).leads,(ht.trans hu).appended,hall⟩

end Steps

/-- Two processes, two buffers and an empty disk. -/
def twoBufs : Sys Bool Bool where
  buf _ := ⟨1,0,false,false,Block.zero⟩
  owner _ := none
  idequeue := none
  qnext _ := none
  idelock := none
  point _ := .out
  intr := .none
  disk _ _ := Block.zero
  cmd := none
  port := Block.zero
  irq := 0
  appended := []
  completed := []

/-- Both processes are in the queue, for a write and a read of a block, until the first one is to return. -/
def twoRequests : List (Act Bool Bool) :=
  [.lock true true, .store true true ⟨1,7,false,true,fun _ => 9⟩, .call true true, .lock false false,
    .store false false ⟨1,7,false,false,Block.zero⟩, .call false false, .run true, .run true, .run true, .run false, .run false,
    .run false, .complete, .interrupt, .handle, .handle, .handle, .run true, .run true, .run true]

theorem twoRequests_returned : ∃ t, twoRequests.foldlM (step true) twoBufs = some t ∧ t.point true = .returned true ∧
    t.idequeue = some false ∧ (∃ l, Refines (fun _ _ => Block.zero) t l) ∧
    (OnDisk t → ∃ u, Leads (OfFun (step true)) t u ∧ t.appended <+: u.appended ∧ u.completed.map (·.1) = u.appended) := by
  obtain ⟨t,ht,hp,hq⟩ : ∃ t, twoRequests.foldlM (step true) twoBufs = some t ∧ t.point true = .returned true ∧
    t.idequeue = some false := ⟨_,rfl,rfl,rfl⟩
  have hstart : Start (fun _ _ => Block.zero) twoBufs := ⟨rfl,rfl,fun _ => rfl,rfl,rfl,rfl,rfl,rfl,rfl⟩
  have h : Reached true (fun _ _ => Block.zero) t := Reachable.foldlM twoRequests (.base hstart) ht
  obtain ⟨h1,h2⟩ := driver_refines_memory_disk h
  exact ⟨t,ht,hp,hq,h1,h2⟩

end X86OsDev.Xv6.Ide
