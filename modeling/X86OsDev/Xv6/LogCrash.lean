import X86OsDev.Xv6.LogRecovery

/-! # Crash atomicity of the log

One predicate on disks carries the argument: a disk restores a state of the
home blocks when its header names home blocks whose log copies, laid over the
disk, give that state. Every single write keeps it, except the write of a
header with entries, which moves from the old state to the new one.
-/
namespace X86OsDev.Xv6.LogRecovery
open Memory Crash Crash.Prog

variable (g : Geometry)

/-- The header on the disk names `n` home blocks `names`, and their log copies
together with the other blocks make up `home`. -/
structure Holds (disk home : ℕ → Block) (n : ℕ) (names : ℕ → ℕ) : Prop where
  count : (disk g.start).word 0 = n
  small : n ≤ logsize
  fits : n + 1 ≤ g.size
  name : ∀ i < n, (disk g.start).word (4 + 4 * i) = names i
  isHome : ∀ i < n, g.IsHome (names i)
  inj : ∀ i < n, ∀ j < n, names i = names j → i = j
  logged : ∀ i < n, disk (g.start + i + 1) = home (names i)
  rest : ∀ b, g.IsHome b → (∀ i < n, names i ≠ b) → disk b = home b

def Restores (disk home : ℕ → Block) : Prop := ∃ n names, Holds g disk home n names

/-- The state while copies are installed: `i` of them are, and the buffers that
are still dirty are those of the blocks not installed yet. -/
structure Installing (home : ℕ → Block) (n : ℕ) (names : ℕ → ℕ) (f : ℕ) (q : Bool) (i : ℕ)
    (s : Machine) : Prop where
  holds : Holds g s.disk home n names
  count : s.lh.n = n
  name : ∀ j < n, s.lh.block j = names j
  installed : ∀ j < i, s.disk (names j) = home (names j)
  dirty : ∀ b, s.dirty b ≠ none → ∃ j, i ≤ j ∧ j < n ∧ names j = b
  finished : s.finished = f
  headed : s.headed = q

/-- The crash condition: the commits counted are on the disk, and the running
one is exactly when its header is. -/
def Survives (old new : ℕ → Block) (f : ℕ) (s : Machine) : Prop :=
  s.finished = f ∧ Restores g s.disk (if s.headed then new else old)

variable {g}

theorem Geometry.IsHome.ne_start {b : ℕ} (h : g.IsHome b) : b ≠ g.start := by
  have := g.pos
  have := h.2
  omega

theorem Geometry.IsHome.ne_copy {b i : ℕ} (h : g.IsHome b) (hi : i + 2 ≤ g.size) :
    b ≠ g.start + i + 1 := by
  have := h.2
  omega

section Header
variable {disk home : ℕ → Block} {n : ℕ} {names : ℕ → ℕ}

/-- Only the header, the log copies and the home blocks not named matter. -/
theorem Holds.congr {disk' : ℕ → Block} (h : Holds g disk home n names)
    (hstart : disk' g.start = disk g.start)
    (hcopy : ∀ i < n, disk' (g.start + i + 1) = disk (g.start + i + 1))
    (hrest : ∀ b, g.IsHome b → (∀ i < n, names i ≠ b) → disk' b = disk b) :
    Holds g disk' home n names where
  count := by rw [hstart]; exact h.count
  small := h.small
  fits := h.fits
  name := by rw [hstart]; exact h.name
  isHome := h.isHome
  inj := h.inj
  logged i hi := (hcopy i hi).trans (h.logged i hi)
  rest b hb hn := (hrest b hb hn).trans (h.rest b hb hn)

/-- Installing a log copy keeps what the disk restores. -/
theorem Holds.install (h : Holds g disk home n names) {i : ℕ} (hi : i < n) (data : Block) :
    Holds g (Function.update disk (names i) data) home n names := by
  have hhome := h.isHome i hi
  have hfits := h.fits
  refine h.congr ?_ ?_ ?_
  · exact Function.update_of_ne hhome.ne_start.symm ..
  · intro j hj
    exact Function.update_of_ne (hhome.ne_copy (by omega)).symm ..
  · intro b _ hb
    exact Function.update_of_ne (hb i hi).symm ..

/-- A disk with an empty header restores its own home blocks. -/
theorem holds_empty (hcount : (disk g.start).word 0 = 0) (hhome : ∀ b, g.IsHome b → disk b = home b) :
    Holds g disk home 0 names where
  count := hcount
  small := Nat.zero_le _
  fits := g.pos
  name := by simp
  isHome := by simp
  inj := by simp
  logged := by simp
  rest b hb _ := hhome b hb

theorem putHeader_fields (lh : Header) (b : Block) (n : ℕ) (hn : lh.n = n) (hsmall : n ≤ logsize)
    (hnames : ∀ i < n, lh.block i < 2 ^ 32) :
    (putHeader lh b).word 0 = n ∧ ∀ i < n, (putHeader lh b).word (4 + 4 * i) = lh.block i := by
  have hsize : logsize = 30 := rfl
  have key : ∀ k ≤ n, ∀ b : Block,
      ((List.range k).foldl (fun b i => b.setWord (4 + 4 * i) (lh.block i)) b).word 0 = b.word 0 ∧
      ∀ i < k, ((List.range k).foldl (fun b i => b.setWord (4 + 4 * i) (lh.block i)) b).word
        (4 + 4 * i) = lh.block i := by
    intro k hk b
    induction k with
    | zero => simp
    | succ k ih =>
      obtain ⟨h0,hi⟩ := ih (by omega)
      simp only [List.range_succ, List.foldl_append, List.foldl_cons, List.foldl_nil]
      refine ⟨?_,fun i hik => ?_⟩
      · rw [Block.word_setWord_of_apart _ _ (.inr (by omega)) (by simp [bsize])]
        exact h0
      · by_cases hlast : i = k
        · subst hlast
          rw [Block.word_setWord _ _ (by simp only [bsize]; omega)]
          exact Nat.mod_eq_of_lt (hnames i (by omega))
        · rw [Block.word_setWord_of_apart _ _ (.inr (by omega)) (by simp only [bsize]; omega)]
          exact hi i (by omega)
  obtain ⟨h0,hi⟩ := key n le_rfl (b.setWord 0 n)
  have hnat : (lh.n % 2 ^ 32).toNat = n := by omega
  have hlen : lh.n.toNat = n := by omega
  simp only [putHeader, hlen, hnat]
  refine ⟨?_,hi⟩
  rw [h0, Block.word_setWord _ _ (by simp [bsize])]
  omega

end Header

/-- The block read from the log area is the disk's. -/
theorem Installing.bread_copy {home : ℕ → Block} {n f i j : ℕ} {names : ℕ → ℕ} {q : Bool}
    {s : Machine} (h : Installing g home n names f q i s) (hj : j < n) :
    bread s (g.start + j + 1) = home (names j) := by
  have hfits := h.holds.fits
  have hclean : s.dirty (g.start + j + 1) = none := by
    by_contra hd
    obtain ⟨k,_,hk,hname⟩ := h.dirty _ hd
    exact (h.holds.isHome k hk).ne_copy (i := j) (by omega) hname
  rw [bread, hclean, Option.getD_none]
  exact h.holds.logged j hj

/-- The loop rule for `log.lh.n` rounds. -/
theorem forLogged_triple {body : ℕ → Prog Machine Unit} {I : ℕ → Machine → Prop}
    {C : Machine → Prop} {n : ℕ} (hn : ∀ s, I 0 s → s.lh.n.toNat = n)
    (h : ∀ i < n, Triple (I i) (body i) (fun _ => I (i + 1)) C) :
    Triple (I 0) (forLogged body) (fun _ => I n) C := by
  refine Triple.withState (f := fun s => forUpTo body s.lh.n.toNat) (fun s hs => ?_)
  rw [hn s hs]
  exact (Triple.forUpTo h).conseq (fun t ht => ht ▸ hs) (fun _ _ h => h) (fun _ h => h)

theorem forLogged_total {body : ℕ → Prog Machine Unit} (h : ∀ i, Total (body i)) :
    Total (forLogged body) :=
  Total.withState (f := fun s => forUpTo body s.lh.n.toNat) (fun _ => Total.forUpTo h _)

theorem installTrans_triple (home : ℕ → Block) (n : ℕ) (names : ℕ → ℕ) (f : ℕ) (q : Bool) :
    Triple (Installing g home n names f q 0) (installTrans g)
      (fun _ => Installing g home n names f q n)
      (fun s => Holds g s.disk home n names ∧ s.finished = f ∧ s.headed = q) := by
  refine forLogged_triple (fun s hs => by rw [hs.count]; rfl) (fun i hi => ?_)
  refine Triple.persist (fun s hs => ?_) (fun s hs => ⟨hs.holds,hs.finished,hs.headed⟩)
  simp only [hs.name i hi, hs.bread_copy hi]
  refine ⟨hs.holds.install hi _,hs.count,hs.name,?_,?_,hs.finished,hs.headed⟩
  · intro j hj
    simp only [Machine.write]
    by_cases hji : names j = names i
    · rw [hji, Function.update_self]
    · rw [Function.update_of_ne hji]
      refine hs.installed j ?_
      rcases Nat.lt_succ_iff_lt_or_eq.mp hj with h | rfl
      · exact h
      · exact absurd rfl hji
  · intro b hb
    simp only [Machine.write] at hb
    by_cases hbi : b = names i
    · simp [hbi] at hb
    · rw [Function.update_of_ne hbi] at hb
      obtain ⟨j,hij,hjn,hname⟩ := hs.dirty b hb
      have : j ≠ i := by rintro rfl; exact hbi hname.symm
      exact ⟨j,by omega,hjn,hname⟩

/-- After the last copy every home block is what the log says. -/
theorem Installing.home_eq {home : ℕ → Block} {n f : ℕ} {names : ℕ → ℕ} {q : Bool} {s : Machine}
    (h : Installing g home n names f q n s) {b : ℕ} (hb : g.IsHome b) : s.disk b = home b := by
  by_cases hex : ∃ j < n, names j = b
  · obtain ⟨j,hj,rfl⟩ := hex
    exact h.installed j hj
  · exact h.holds.rest b hb (fun i hi hi' => hex ⟨i,hi,hi'⟩)

theorem Installing.dirty_none {home : ℕ → Block} {n f : ℕ} {names : ℕ → ℕ} {q : Bool} {s : Machine}
    (h : Installing g home n names f q n s) (b : ℕ) : s.dirty b = none := by
  by_contra hd
  obtain ⟨j,h1,h2,-⟩ := h.dirty b hd
  omega

/-- The log is empty in memory and on the disk, and the disk is up to date. -/
structure Idle (g : Geometry) (home : ℕ → Block) (f : ℕ) (q : Bool) (s : Machine) : Prop where
  clean : (s.disk g.start).word 0 = 0
  home : ∀ b, g.IsHome b → s.disk b = home b
  dirty : ∀ b, s.dirty b = none
  count : s.lh.n = 0
  finished : s.finished = f
  headed : s.headed = q

/-- Clearing the header after everything is installed. -/
theorem clear_triple (home : ℕ → Block) (n : ℕ) (names : ℕ → ℕ) (f : ℕ) (q : Bool) :
    Triple (Installing g home n names f q n) (do clearHead; writeHead g)
      (fun _ => Idle g home f q)
      (fun s => Holds g s.disk home n names ∧ s.finished = f ∧ s.headed = q) := by
  refine Triple.bind (Q := fun _ s => s.lh.n = 0 ∧
    ∃ t, Installing g home n names f q n t ∧ s = { t with lh := { t.lh with n := 0 } }) ?_ ?_
  · exact Triple.modify (fun s hs => ⟨rfl,s,hs,rfl⟩)
  · rintro -
    refine Triple.persist ?_ ?_
    · rintro s ⟨hn,t,ht,rfl⟩
      have hput := putHeader_fields ({ t.lh with n := 0 } : Header) (bread t g.start) 0 rfl
        (Nat.zero_le _) (by simp)
      refine ⟨?_,?_,?_,rfl,ht.finished,?_⟩
      · simp only [Machine.write, Function.update_self]
        exact hput.1
      · intro b hb
        simp only [Machine.write]
        rw [Function.update_of_ne hb.ne_start]
        exact ht.home_eq hb
      · intro b
        simp only [Machine.write]
        by_cases hb : b = g.start
        · simp [hb]
        · rw [Function.update_of_ne hb]
          exact ht.dirty_none b
      · simpa using ht.headed
    · rintro s ⟨hn,t,ht,rfl⟩
      exact ⟨ht.holds,ht.finished,ht.headed⟩

/-- Recovery keeps what the disk restores at every write, and ends with it. -/
theorem recoverFromLog_triple (disk home : ℕ → Block) (h : Restores g disk home) :
    Triple (fun s => s = boot disk) (recoverFromLog g)
      (fun _ s => (∀ b, g.IsHome b → s.disk b = home b) ∧ (s.disk g.start).word 0 = 0)
      (fun s => Restores g s.disk home) := by
  obtain ⟨n,names,hh⟩ := h
  have hsize : logsize = 30 := rfl
  have hsmall := hh.small
  unfold recoverFromLog
  refine Triple.bind (Q := fun _ => Installing g home n names 0 false 0) ?_ (fun _ => ?_)
  · refine Triple.modify ?_
    rintro s rfl
    have hn : sint32 ((disk g.start).word 0) = n := by
      rw [hh.count]
      exact sint32_of_lt (by omega)
    refine ⟨hh,?_,?_,by simp,by simp [boot],rfl,rfl⟩
    · simp [bread, boot, hn]
    · intro j hj
      simp [bread, boot, hn, hj, hh.name j hj]
  · refine Triple.bind ((installTrans_triple home n names 0 false).conseq (fun _ h => h)
      (fun _ _ h => h) (fun s hs => ⟨n,names,hs.1⟩)) (fun _ => ?_)
    exact (clear_triple home n names 0 false).conseq (fun _ h => h)
      (fun _ s hs => ⟨hs.home,hs.clean⟩) (fun s hs => ⟨n,names,hs.1⟩)

theorem recoverFromLog_total : Total (recoverFromLog g) := by
  unfold recoverFromLog
  refine Total.bind (Total.modify _) (fun _ => Total.bind ?_ (fun _ => ?_))
  · exact forLogged_total (fun i => Total.persist _)
  · exact Total.bind (Total.modify _) (fun _ => Total.persist _)

/-- Recovery, cut any number of times and run again, leaves what the disk restores. -/
theorem recoverAll_restores (ks : List ℕ) (disk home : ℕ → Block) (h : Restores g disk home) :
    (∀ b, g.IsHome b → recoverAll g ks disk b = home b) ∧
    (recoverAll g ks disk g.start).word 0 = 0 := by
  induction ks generalizing disk with
  | nil =>
    obtain ⟨a,t,hrun,ht⟩ := (recoverFromLog_triple disk home h).of_total recoverFromLog_total rfl
    simp only [recoverAll, hrun]
    exact ht
  | cons k ks ih =>
    refine ih _ ?_
    refine (recoverFromLog_triple disk home h).state ?_ rfl (some k)
    rintro - s ⟨hhome,hclean⟩
    exact ⟨0,fun _ => 0,holds_empty hclean hhome⟩

/-- The state between the first `log_write` and the header: the disk still has
the `old` blocks, the buffers have the `new` ones, and what differs is recorded. -/
structure Staged (g : Geometry) (old new : ℕ → Block) (n f : ℕ) (s : Machine) : Prop where
  clean : (s.disk g.start).word 0 = 0
  old : ∀ b, g.IsHome b → s.disk b = old b
  count : s.lh.n = n
  small : n ≤ logsize
  fits : n + 1 ≤ g.size
  isHome : ∀ i < n, g.IsHome (s.lh.block i)
  inj : ∀ i < n, ∀ j < n, s.lh.block i = s.lh.block j → i = j
  new : ∀ b, g.IsHome b → bread s b = new b
  dirty : ∀ b, s.dirty b ≠ none → ∃ i < n, s.lh.block i = b
  finished : s.finished = f
  headed : s.headed = false

theorem Staged.survives {old new new' : ℕ → Block} {n f : ℕ} {s : Machine}
    (h : Staged g old new n f s) : Survives g old new' f s := by
  refine ⟨h.finished,?_⟩
  rw [h.headed]
  exact ⟨0,fun _ => 0,holds_empty h.clean h.old⟩

theorem Idle.staged {home : ℕ → Block} {f : ℕ} {s : Machine} (h : Idle g home f false s) :
    Staged g home home 0 f s where
  clean := h.clean
  old := h.home
  count := h.count
  small := Nat.zero_le _
  fits := g.pos
  isHome := by simp
  inj := by simp
  new b hb := by rw [bread, h.dirty b, Option.getD_none]; exact h.home b hb
  dirty b hb := absurd (h.dirty b) hb
  finished := h.finished
  headed := h.headed

/-- The slot `log_write` uses: the one of the block, or the next free one. -/
theorem Header.slot_spec (lh : Header) (b : ℕ) {n : ℕ} (hn : lh.n = n) :
    lh.slot b < n ∧ lh.block (lh.slot b) = b ∨
    lh.slot b = n ∧ ∀ i < n, lh.block i ≠ b := by
  have hlen : lh.n.toNat = n := by omega
  unfold slot
  rw [hlen]
  cases hf : (List.range n).find? (fun i => decide (lh.block i = b)) with
  | none =>
    right
    refine ⟨rfl,fun i hi => ?_⟩
    simpa using List.find?_eq_none.mp hf i (List.mem_range.mpr hi)
  | some i =>
    left
    exact ⟨List.mem_range.mp (List.mem_of_find?_eq_some hf),by simpa using List.find?_some hf⟩

/-- The slots a `log_write` leaves: those there were, and the one of the block. -/
structure Recorded (lh lh' : Header) (b n n' : ℕ) : Prop where
  count : lh'.n = n'
  grows : n' ≤ n + 1
  mem : ∃ i < n', lh'.block i = b
  keep : ∀ i < n, ∃ j < n', lh'.block j = lh.block i
  only : ∀ i < n', lh'.block i = b ∨ ∃ j < n, lh.block j = lh'.block i
  inj : ∀ i < n', ∀ j < n', lh'.block i = lh'.block j → i = j

theorem recorded_slot (lh : Header) (b n : ℕ) (hn : lh.n = n)
    (hinj : ∀ i < n, ∀ j < n, lh.block i = lh.block j → i = j) :
    ∃ n', Recorded lh { n := if (lh.slot b : ℤ) = lh.n then lh.n + 1 else lh.n
                        block := Function.update lh.block (lh.slot b) b } b n n' := by
  rcases lh.slot_spec b hn with ⟨hlt,hb⟩ | ⟨heq,hb⟩
  · have hupd : Function.update lh.block (lh.slot b) b = lh.block := by
      conv_rhs => rw [← Function.update_eq_self (lh.slot b) lh.block]
      rw [hb]
    rw [if_neg (by omega), hupd]
    exact ⟨n,hn,by omega,⟨_,hlt,hb⟩,fun i hi => ⟨i,hi,rfl⟩,fun i hi => .inr ⟨i,hi,rfl⟩,hinj⟩
  · rw [if_pos (by omega), heq]
    have hold : ∀ i < n, Function.update lh.block n b i = lh.block i := fun i hi =>
      Function.update_of_ne (by omega) ..
    refine ⟨n + 1,by rw [hn]; simp,le_rfl,⟨n,by omega,by simp⟩,?_,?_,?_⟩
    · intro i hi
      exact ⟨i,by omega,hold i hi⟩
    · intro i hi
      by_cases hin : i = n
      · left
        simp [hin]
      · exact .inr ⟨i,by omega,(hold i (by omega)).symm⟩
    · intro i hi j hj hij
      dsimp only at hij
      by_cases hin : i = n <;> by_cases hjn : j = n
      · omega
      · rw [hin, hold j (by omega)] at hij
        simp only [Function.update_self] at hij
        exact absurd hij.symm (hb j (by omega))
      · rw [hjn, hold i (by omega)] at hij
        simp only [Function.update_self] at hij
        exact absurd hij (hb i (by omega))
      · rw [hold i (by omega), hold j (by omega)] at hij
        exact hinj i (by omega) j (by omega) hij

theorem logWrite_triple (old new new' : ℕ → Block) (f b : ℕ) (data : Block) (hb : g.IsHome b) :
    Triple (fun s => ∃ n, Staged g old new n f s) (logWrite g b data)
      (fun _ s => ∃ n, Staged g old (Function.update new b data) n f s)
      (Survives g old new' f) := by
  unfold logWrite
  refine Triple.withState (fun s hs => ?_)
  obtain ⟨n,hs⟩ := hs
  split
  · exact Triple.halt (fun t ht => ht ▸ hs.survives)
  · rename_i hroom
    refine Triple.modify ?_
    rintro t rfl
    obtain ⟨n',hr⟩ := recorded_slot t.lh b n hs.count hs.inj
    have hcount := hs.count
    have hgrows := hr.grows
    refine ⟨n',hs.clean,hs.old,hr.count,by omega,by omega,?_,hr.inj,?_,?_,hs.finished,hs.headed⟩
    · intro i hi
      rcases hr.only i hi with h | ⟨j,hj,h⟩
      · exact (congrArg g.IsHome h).mpr hb
      · exact (congrArg g.IsHome h).mp (hs.isHome j hj)
    · intro c hc
      simp only [bread]
      by_cases hcb : c = b
      · subst hcb
        simp
      · rw [Function.update_of_ne hcb, Function.update_of_ne hcb]
        exact hs.new c hc
    · intro c hc
      by_cases hcb : c = b
      · subst hcb
        exact hr.mem
      · dsimp only at hc
        rw [Function.update_of_ne hcb] at hc
        obtain ⟨i,hi,rfl⟩ := hs.dirty c hc
        exact hr.keep i hi

/-- Copying a dirty buffer to its place in the log area. -/
theorem Staged.copy {old new : ℕ → Block} {n f i : ℕ} {s : Machine}
    (h : Staged g old new n f s) (hi : i < n) (data : Block) :
    Staged g old new n f (s.write (g.start + i + 1) data) := by
  have hfits := h.fits
  have hne : ∀ b, g.IsHome b → b ≠ g.start + i + 1 := fun b hb => hb.ne_copy (by omega)
  refine ⟨?_,?_,h.count,h.small,h.fits,h.isHome,h.inj,?_,?_,h.finished,h.headed⟩
  · simp only [Machine.write]
    rw [Function.update_of_ne (by omega)]
    exact h.clean
  · intro b hb
    simp only [Machine.write]
    rw [Function.update_of_ne (hne b hb)]
    exact h.old b hb
  · intro b hb
    simp only [bread, Machine.write]
    rw [Function.update_of_ne (hne b hb), Function.update_of_ne (hne b hb)]
    exact h.new b hb
  · intro b hb
    simp only [Machine.write] at hb
    by_cases hbi : b = g.start + i + 1
    · simp [hbi] at hb
    · rw [Function.update_of_ne hbi] at hb
      exact h.dirty b hb

theorem writeLog_triple (old new new' : ℕ → Block) (n f : ℕ) :
    Triple (Staged g old new n f) (writeLog g)
      (fun _ s => Staged g old new n f s ∧
        ∀ j < n, s.disk (g.start + j + 1) = new (s.lh.block j))
      (Survives g old new' f) := by
  refine (forLogged_triple (I := fun i s => Staged g old new n f s ∧
    ∀ j < i, s.disk (g.start + j + 1) = new (s.lh.block j)) (n := n) ?_ ?_).conseq
    (fun s hs => ⟨hs,by simp⟩) (fun _ _ h => h) (fun _ h => h)
  · rintro s ⟨hs,-⟩
    rw [hs.count]
    rfl
  · intro i hi
    refine Triple.persist ?_ (fun s hs => hs.1.survives)
    rintro s ⟨hs,hlogged⟩
    simp only [hs.new _ (hs.isHome i hi)]
    refine ⟨hs.copy hi _,fun j hj => ?_⟩
    simp only [Machine.write]
    by_cases hji : j = i
    · simp [hji]
    · rw [Function.update_of_ne (by omega)]
      exact hlogged j (by omega)

/-- The write of a header with entries commits. -/
theorem writeHead_triple (old new : ℕ → Block) (n f : ℕ) (hpos : 0 < n) :
    Triple (fun s => Staged g old new n f s ∧
        ∀ j < n, s.disk (g.start + j + 1) = new (s.lh.block j))
      (writeHead g) (fun _ s => Installing g new n s.lh.block f true 0 s)
      (Survives g old new f) := by
  refine Triple.persist ?_ (fun s hs => hs.1.survives)
  rintro s ⟨hs,hlogged⟩
  have hfits := hs.fits
  have hput := putHeader_fields s.lh (bread s g.start) n hs.count hs.small
    (fun i hi => (hs.isHome i hi).1)
  refine ⟨⟨?_,hs.small,hs.fits,?_,hs.isHome,hs.inj,?_,?_⟩,hs.count,fun _ _ => rfl,by simp,?_,
    hs.finished,?_⟩
  · simpa [Machine.write] using hput.1
  · simpa [Machine.write] using hput.2
  · intro i hi
    simp only [Machine.write]
    rw [Function.update_of_ne (by omega)]
    exact hlogged i hi
  · intro b hb hname
    have hclean : s.dirty b = none := by
      by_contra hd
      obtain ⟨i,hi,hib⟩ := hs.dirty b hd
      exact hname i hi hib
    have hnew := hs.new b hb
    rw [bread, hclean, Option.getD_none] at hnew
    simp only [Machine.write]
    rw [Function.update_of_ne hb.ne_start]
    exact hnew
  · intro b hb
    simp only [Machine.write] at hb
    by_cases hbs : b = g.start
    · simp [hbs] at hb
    · rw [Function.update_of_ne hbs] at hb
      obtain ⟨i,hi,hib⟩ := hs.dirty b hb
      exact ⟨i,Nat.zero_le _,hi,hib⟩
  · simp [hs.count, hpos]

theorem survives_of_holds {old new : ℕ → Block} {n f : ℕ} {names : ℕ → ℕ} {s : Machine}
    (h : Holds g s.disk new n names ∧ s.finished = f ∧ s.headed = true) : Survives g old new f s := by
  refine ⟨h.2.1,?_⟩
  rw [h.2.2]
  exact ⟨n,names,h.1⟩

theorem commit_triple (old new : ℕ → Block) (n f : ℕ) :
    Triple (Staged g old new n f) (commit g) (fun _ => Idle g new (f + 1) false)
      (Survives g old new f) := by
  unfold commit
  refine Triple.bind (Q := fun _ s => Idle g new f s.headed s) ?_ (fun _ => ?_)
  · refine Triple.withState (fun s hs => ?_)
    have hcount := hs.count
    split
    · refine Triple.bind ((writeLog_triple old new new n f).conseq (fun t ht => ht ▸ hs)
        (fun _ _ h => h) (fun _ h => h)) (fun _ => ?_)
      refine Triple.bind (writeHead_triple old new n f (by omega)) (fun _ => ?_)
      intro t p ht
      refine (Triple.bind ((installTrans_triple new n t.lh.block f true).conseq (fun _ h => h)
        (fun _ _ h => h) (fun _ => survives_of_holds)) (fun _ => ?_)) t p ht
      exact (clear_triple new n t.lh.block f true).conseq (fun _ h => h)
        (fun _ u hu => hu.headed ▸ hu) (fun _ => survives_of_holds)
    · refine Triple.ret () ?_
      rintro t rfl
      have hn : n = 0 := by omega
      subst hn
      have hdirty : ∀ b, t.dirty b = none := by
        intro b
        by_contra hd
        obtain ⟨i,hi,-⟩ := hs.dirty b hd
        omega
      refine ⟨hs.clean,fun b hb => ?_,hdirty,hs.count,hs.finished,rfl⟩
      have := hs.new b hb
      rwa [bread, hdirty b, Option.getD_none] at this
  · refine Triple.modify (fun s hs => ?_)
    exact ⟨hs.clean,hs.home,hs.dirty,hs.count,by simp [hs.finished],rfl⟩

theorem runTxn_triple (home : ℕ → Block) (f : ℕ) (t : Txn) (ht : ∀ w ∈ t, g.IsHome w.1) :
    Triple (Idle g home f false) (runTxn g t) (fun _ => Idle g (applyTxn home t) (f + 1) false)
      (Survives g home (applyTxn home t) f) := by
  -- the recorded blocks accumulate over the list, the committed state stays
  have hlog : ∀ l : Txn, (∀ w ∈ l, g.IsHome w.1) → ∀ new new',
      Triple (fun s => ∃ n, Staged g home new n f s)
        (forEach (fun w : ℕ × Block => logWrite g w.1 w.2) l)
        (fun _ s => ∃ n, Staged g home (applyTxn new l) n f s) (Survives g home new' f) := by
    intro l
    induction l with
    | nil => exact fun _ new new' => Triple.ret () (fun _ hs => hs)
    | cons w l ih =>
      intro hl new new'
      refine Triple.bind (logWrite_triple home new new' f w.1 w.2 (hl w (by simp))) (fun _ => ?_)
      exact ih (fun v hv => hl v (by simp [hv])) _ new'
  unfold runTxn
  refine Triple.bind ((hlog t ht home (applyTxn home t)).conseq (fun s hs => ⟨0,hs.staged⟩)
    (fun _ _ h => h) (fun _ h => h)) (fun _ => ?_)
  intro s p hs
  obtain ⟨n,hs⟩ := hs
  exact commit_triple home (applyTxn home t) n f s p hs

/-- The crash condition of a run of transactions that started with `f` commits. -/
def Committed (g : Geometry) (home : ℕ → Block) (ts : List Txn) (f : ℕ) (s : Machine) : Prop :=
  f ≤ s.finished ∧
    Restores g s.disk (applyTxns home (ts.take (s.finished - f + s.headed.toNat)))

theorem runTxns_triple (home : ℕ → Block) (f : ℕ) (ts : List Txn)
    (hts : ∀ t ∈ ts, ∀ w ∈ t, g.IsHome w.1) :
    Triple (Idle g home f false) (runTxns g ts)
      (fun _ => Idle g (applyTxns home ts) (f + ts.length) false) (Committed g home ts f) := by
  induction ts generalizing home f with
  | nil => exact Triple.ret () (fun _ hs => hs)
  | cons t ts ih =>
    refine Triple.bind ((runTxn_triple home f t (hts t (by simp))).conseq (fun _ h => h)
      (fun _ _ h => h) ?_) (fun _ => ?_)
    · rintro s ⟨hf,hr⟩
      refine ⟨hf.ge,?_⟩
      cases hq : s.headed with
      | false => simpa [hf, hq, applyTxns] using hr
      | true => simpa [hf, hq, applyTxns] using hr
    · refine (ih (applyTxn home t) (f + 1) (fun u hu => hts u (by simp [hu]))).conseq
        (fun _ h => h) ?_ ?_
      · intro _ s hs
        rw [List.length_cons, Nat.add_comm ts.length, ← Nat.add_assoc]
        exact hs
      · rintro s ⟨hf,hr⟩
        refine ⟨by omega,?_⟩
        have : s.finished - f + s.headed.toNat = (s.finished - (f + 1) + s.headed.toNat) + 1 := by
          omega
        rw [this, List.take_succ_cons]
        exact hr

/-- Crash atomicity. Whatever write the power cut falls on, recovery, cut again
any number of times and then run to its end, leaves the home blocks as after the
transactions whose commit finished, with the interrupted one exactly when its
header had reached the disk. -/
theorem log_crash_atomic (g : Geometry) (d : ℕ → Block) (ts : List Txn) (power : Power)
    (ks : List ℕ) (hclean : (d g.start).word 0 = 0) (hts : ∀ t ∈ ts, ∀ w ∈ t, g.IsHome w.1) :
    let s := (runTxns g ts (boot d) power).state
    ∀ b, g.IsHome b → recoverAll g ks s.disk b =
      applyTxns d (ts.take (s.finished + if s.headed then 1 else 0)) b := by
  intro s b hb
  have hidle : Idle g d 0 false (boot d) := ⟨hclean,fun _ _ => rfl,fun _ => rfl,rfl,rfl,rfl⟩
  have hs : Committed g d ts 0 s := by
    refine (runTxns_triple d 0 ts hts).state ?_ hidle power
    intro _ t ht
    refine ⟨Nat.zero_le _,0,fun _ => 0,holds_empty ht.clean ?_⟩
    rw [ht.finished, ht.headed]
    simpa using ht.home
  have hcount : s.finished - 0 + s.headed.toNat = s.finished + if s.headed then 1 else 0 := by
    cases s.headed <;> rfl
  rw [← hcount]
  exact (recoverAll_restores ks s.disk _ hs.2).1 b hb

/-- The log of `mkfs`: 30 blocks from block 2 on. -/
def mkfsLog : Geometry := ⟨2,logsize,by decide⟩

/-- The power fails right after the header is written, and again after one write
of the recovery: the transaction is there. -/
theorem log_crash_after_header :
    (∀ t ∈ [[((50 : ℕ),(fun _ => 7 : Block))]], ∀ w ∈ t, mkfsLog.IsHome w.1) ∧
    recoverAll mkfsLog [1] (runTxns mkfsLog [[(50,fun _ => 7)]] (boot fun _ => Block.zero)
      (some 2)).state.disk 50 = (fun _ => 7) := by
  have h50 : mkfsLog.IsHome 50 := ⟨by decide,.inr (by decide)⟩
  have hts : ∀ t ∈ [[((50 : ℕ),(fun _ => 7 : Block))]], ∀ w ∈ t, mkfsLog.IsHome w.1 := by
    simpa using h50
  refine ⟨hts,?_⟩
  rw [log_crash_atomic mkfsLog (fun _ => Block.zero) [[(50,fun _ => 7)]] (some 2) [1] (by decide +kernel) hts
    50 h50]
  rfl

end X86OsDev.Xv6.LogRecovery
