import X86OsDev.Lib.Memory
import X86OsDev.Lib.Transition

/-! # Tasks of the tutorial kernel and their kernel stacks (task.c)

The ready queue is a linked list of `task_t` blocks. `fork` stores the stack it
allocates into the task that calls it, so the task it makes keeps whatever its
uninitialised block held.
-/
namespace X86OsDev.Tutorial.Tasks
open Memory Transition

def kernelStackSize : ℕ := 2048

/-- `sizeof(task_t)` -/
def taskSize : ℕ := 28

/-- `task_t` -/
structure Task where
  id : ℕ
  esp : ℕ
  ebp : ℕ
  eip : ℕ
  pageDirectory : ℕ
  kernelStack : ℕ
  next : ℕ

structure Sys where
  /-- the memory, read as a `task_t` at each address -/
  task : ℕ → Task
  currentTask : ℕ
  readyQueue : ℕ
  nextPid : ℕ
  currentDirectory : ℕ
  /-- `tss_entry.esp0` -/
  esp0 : ℕ
  /-- the blocks of tasks and stacks, none of which is ever given back -/
  live : List (ℕ × ℕ)
  /-- each result of `kmalloc_a(KERNEL_STACK_SIZE)` with the task it was stored into -/
  given : List (ℕ × ℕ)

/-- What `kmalloc` promises of a block: it is not null and touches no live block. -/
def Fresh (live : List (ℕ × ℕ)) (a n : ℕ) : Prop :=
  0 < a ∧ a + n ≤ 2 ^ 32 ∧ ∀ b ∈ live, Apart a n b.1 b.2

/-- `kmalloc_a` also promises a page boundary. -/
def FreshPage (live : List (ℕ × ℕ)) (a n : ℕ) : Prop := Fresh live a n ∧ a % 0x1000 = 0

/-- `initialise_tasking` after `move_stack`, with the two blocks it is given -/
def initialiseTasking (s : Sys) (block stack : ℕ) : Sys :=
  { s with
    task := Function.update s.task block ⟨s.nextPid,0,0,0,s.currentDirectory,stack,0⟩
    currentTask := block
    readyQueue := block
    nextPid := (s.nextPid + 1) % 2 ^ 32
    live := (stack,kernelStackSize) :: (block,taskSize) :: s.live
    given := (block,stack) :: s.given }

/-- The walk of `fork` to the end of the ready queue, over at most `n` tasks. -/
def lastTask (task : ℕ → Task) : ℕ → ℕ → Option ℕ
  | 0, _ => none
  | n + 1, tmp => if (task tmp).next = 0 then some tmp else lastTask task n (task tmp).next

/-- What a call of `fork` gets from outside: the clone of the directory, the two blocks, and the
registers it reads. -/
structure ForkCall where
  directory : ℕ
  block : ℕ
  stack : ℕ
  esp : ℕ
  ebp : ℕ
  eip : ℕ

/-- The stores of `fork` into the new block and into the current task. -/
def newTask (s : Sys) (c : ForkCall) : ℕ → Task :=
  let task := Function.update s.task c.block { s.task c.block with
    id := s.nextPid, esp := 0, ebp := 0, eip := 0, pageDirectory := c.directory }
  let task := Function.update task s.currentTask
    { task s.currentTask with kernelStack := c.stack }
  Function.update task c.block { task c.block with next := 0 }

/-- The link behind `tmp_task`, and the registers for the child: `current_task` is still
`parent_task` here, as interrupts are off. -/
def linkTask (task : ℕ → Task) (tmpTask : ℕ) (c : ForkCall) : ℕ → Task :=
  let task := Function.update task tmpTask { task tmpTask with next := c.block }
  Function.update task c.block { task c.block with esp := c.esp, ebp := c.ebp, eip := c.eip }

/-- `fork` from `kmalloc` on, to its return in the parent -/
def fork (s : Sys) (c : ForkCall) : Option Sys :=
  -- every queued task has a live block, so the walk is over before the blocks are used up
  match lastTask (newTask s c) s.live.length s.readyQueue with
  | none => none
  | some tmpTask => some { s with
      task := linkTask (newTask s c) tmpTask c
      nextPid := (s.nextPid + 1) % 2 ^ 32
      live := (c.stack,kernelStackSize) :: (c.block,taskSize) :: s.live
      given := (s.currentTask,c.stack) :: s.given }

def setKernelStack (s : Sys) (stack : ℕ) : Sys := { s with esp0 := stack }

/-- The value `switch_task` leaves in EAX for the task it resumes. -/
def resumed : ℕ := 0x12345

/-- `switch_task` with the registers it reads -/
def switchTask (s : Sys) (esp ebp eip : ℕ) : Sys :=
  if s.currentTask = 0 then s
  else if eip = resumed then s
  else
    let task := Function.update s.task s.currentTask
      { s.task s.currentTask with eip := eip, esp := esp, ebp := ebp }
    let next := (task s.currentTask).next
    let currentTask := if next = 0 then s.readyQueue else next
    setKernelStack
      { s with
        task := task
        currentTask := currentTask
        currentDirectory := (task currentTask).pageDirectory }
      (((task currentTask).kernelStack + kernelStackSize) % 2 ^ 32)

inductive Act
  | fork (c : ForkCall)
  | switchTask (esp ebp eip : ℕ)

def Act.isFork : Act → Prop
  | .fork _ => True
  | .switchTask .. => False

def Step (s : Sys) : Act → Sys → Prop
  | .fork c, t => Fresh s.live c.block taskSize ∧
      FreshPage ((c.block,taskSize) :: s.live) c.stack kernelStackSize ∧ fork s c = some t
  | .switchTask esp ebp eip, t => t = switchTask s esp ebp eip

/-- The state `initialise_tasking` leaves, whatever the memory held before. -/
def Start (s : Sys) : Prop := ∃ boot block stack, boot.nextPid = 1 ∧ boot.live = [] ∧
  boot.given = [] ∧ Fresh [] block taskSize ∧
  FreshPage [(block,taskSize)] stack kernelStackSize ∧ s = initialiseTasking boot block stack

abbrev Reached : Sys → Prop := Reachable Start Step

/-- The tasks on the way from `ready_queue` along `next`. -/
inductive Queued (s : Sys) : ℕ → Prop
  | head (h : s.readyQueue ≠ 0) : Queued s s.readyQueue
  | next {a : ℕ} (ha : Queued s a) (h : (s.task a).next ≠ 0) : Queued s (s.task a).next

/-- Every queued task has a kernel stack allocated for it, and no two tasks share one. -/
structure StackLaw (s : Sys) : Prop where
  given : ∀ a, Queued s a → (a,(s.task a).kernelStack) ∈ s.given
  apart : ∀ a b, Queued s a → Queued s b → a ≠ b →
    Apart (s.task a).kernelStack kernelStackSize (s.task b).kernelStack kernelStackSize

/-- What each call has to do: `fork` leaves the parent's stack alone, `switch_task` points the TSS
at the stack of the task it resumes. -/
def CallLaw (s : Sys) (a : Act) (t : Sys) : Prop :=
  match a with
  | .fork _ => (t.task s.currentTask).kernelStack = (s.task s.currentTask).kernelStack
  | .switchTask _ _ eip => eip ≠ resumed →
      t.esp0 = ((t.task t.currentTask).kernelStack + kernelStackSize) % 2 ^ 32

/-! ## The ready queue -/

/-- The ready queue as a list. -/
def Queue (task : ℕ → Task) : ℕ → List ℕ → Prop
  | a, [] => a = 0
  | a, b :: l => a = b ∧ b ≠ 0 ∧ Queue task (task b).next l

variable {s t : Sys} {l : List ℕ} {a b : ℕ} {task task' : ℕ → Task}

theorem Queue.congr (h : ∀ b ∈ l, (task' b).next = (task b).next) (hq : Queue task a l) :
    Queue task' a l := by
  induction l generalizing a with
  | nil => exact hq
  | cons b l ih =>
    obtain ⟨hab,hb,hq⟩ := hq
    refine ⟨hab,hb,?_⟩
    rw [h b List.mem_cons_self]
    exact ih (fun c hc => h c (List.mem_cons_of_mem _ hc)) hq

theorem Queue.next_mem (hq : Queue task b l) (ha : a ∈ l) (hn : (task a).next ≠ 0) :
    (task a).next ∈ l := by
  induction l generalizing b with
  | nil => cases ha
  | cons c l ih =>
    obtain ⟨-,-,hq⟩ := hq
    rcases List.mem_cons.mp ha with rfl | ha
    · cases l with
      | nil => exact absurd hq hn
      | cons d l =>
        rw [hq.1]
        exact List.mem_cons_of_mem _ List.mem_cons_self
    · exact List.mem_cons_of_mem _ (ih hq ha)

theorem Queue.ne_zero (hq : Queue task b l) (ha : a ∈ l) : a ≠ 0 := by
  induction l generalizing b with
  | nil => cases ha
  | cons c l ih =>
    rcases List.mem_cons.mp ha with rfl | ha
    · exact hq.2.1
    · exact ih hq.2.2 ha

theorem Queue.head_mem (hq : Queue task b l) (ha : a ∈ l) : b ∈ l := by
  cases l with
  | nil => cases ha
  | cons c l =>
    rw [hq.1]
    exact List.mem_cons_self

theorem Queue.queued (hq : Queue s.task b l) (hb : b ≠ 0 → Queued s b) :
    ∀ a ∈ l, Queued s a := by
  induction l generalizing b with
  | nil =>
    intro a ha
    cases ha
  | cons c l ih =>
    obtain ⟨rfl,hc,hq⟩ := hq
    intro a ha
    rcases List.mem_cons.mp ha with rfl | ha
    · exact hb hc
    · exact ih hq (fun hn => .next (hb hc) hn) a ha

theorem queued_iff (hq : Queue s.task s.readyQueue l) : Queued s a ↔ a ∈ l := by
  constructor
  · intro h
    induction h with
    | head h =>
      cases l with
      | nil => exact absurd hq h
      | cons b l =>
        rw [hq.1]
        exact List.mem_cons_self
    | next _ hn ih => exact hq.next_mem ih hn
  · exact hq.queued .head a

/-- The walk ends at the last task. -/
theorem lastTask_eq {n : ℕ} (hq : Queue task a (l ++ [b])) (hn : l.length < n) :
    lastTask task n a = some b := by
  induction l generalizing a n with
  | nil =>
    obtain ⟨rfl,-,hz⟩ := hq
    cases n with
    | zero => cases hn
    | succ n => exact if_pos hz
  | cons c l ih =>
    obtain ⟨rfl,-,hq⟩ := hq
    cases n with
    | zero => cases hn
    | succ n =>
      have hne : (task a).next ≠ 0 := by
        cases l with
        | nil => exact hq.1 ▸ hq.2.1
        | cons d l => exact hq.1 ▸ hq.2.1
      rw [lastTask, if_neg hne]
      exact ih hq (Nat.lt_of_succ_lt_succ hn)

theorem Queue.snoc {c : ℕ} (hq : Queue task a (l ++ [b])) (hc : c ≠ 0)
    (hsame : ∀ d ∈ l, (task' d).next = (task d).next) (hb : (task' b).next = c)
    (hnext : (task' c).next = 0) : Queue task' a (l ++ [b] ++ [c]) := by
  induction l generalizing a with
  | nil =>
    obtain ⟨hab,hne,-⟩ := hq
    exact ⟨hab,hne,hb,hc,hnext⟩
  | cons d l ih =>
    obtain ⟨had,hd,hq⟩ := hq
    refine ⟨had,hd,?_⟩
    rw [hsame d List.mem_cons_self]
    exact ih hq (fun e he => hsame e (List.mem_cons_of_mem _ he))

/-! ## What every run keeps -/

/-- The queue is a list of tasks with live blocks, and so is every owner of a stack. -/
structure Inv (s : Sys) (l : List ℕ) : Prop where
  queue : Queue s.task s.readyQueue l
  nodup : l.Nodup
  current : s.currentTask ∈ l
  live : ∀ a ∈ l, (a,taskSize) ∈ s.live
  given : ∀ p ∈ s.given, (p.1,taskSize) ∈ s.live ∧ (p.2,kernelStackSize) ∈ s.live

theorem Fresh.not_mem {live : List (ℕ × ℕ)} {n : ℕ} (h : Fresh live a n) (hn : 0 < n) :
    (a,n) ∉ live := by
  intro hm
  have := h.2.2 _ hm
  unfold Apart at this
  omega

theorem Start.inv (h : Start s) : ∃ a, Inv s [a] ∧ s.given = [(a,(s.task a).kernelStack)] := by
  obtain ⟨boot,block,stack,-,-,hg,hb,-,rfl⟩ := h
  refine ⟨block,⟨?_,List.nodup_singleton _,List.mem_singleton_self _,?_,?_⟩,?_⟩
  · have hne : block ≠ 0 := Nat.pos_iff_ne_zero.mp hb.1
    simp [initialiseTasking, Queue, hne]
  · simp [initialiseTasking]
  · simp [initialiseTasking, hg]
  · simp [initialiseTasking, hg]

theorem newTask_next {c : ForkCall} (h : a ≠ c.block) :
    (newTask s c a).next = (s.task a).next := by
  by_cases hc : a = s.currentTask
  · subst hc
    simp [newTask, h]
  · simp [newTask, h, hc]

@[simp] theorem newTask_block_next (s : Sys) (c : ForkCall) : (newTask s c c.block).next = 0 := by
  simp [newTask]

theorem newTask_kernelStack {c : ForkCall} (h : s.currentTask ≠ c.block) :
    (newTask s c s.currentTask).kernelStack = c.stack := by
  simp [newTask, h]

theorem linkTask_next {c : ForkCall} (ha : a ≠ c.block) (hab : a ≠ b) :
    (linkTask task b c a).next = (task a).next := by
  simp [linkTask, ha, hab]

theorem linkTask_last {c : ForkCall} (hb : b ≠ c.block) :
    (linkTask task b c b).next = c.block := by
  simp [linkTask, hb]

theorem linkTask_block_next {c : ForkCall} (hb : b ≠ c.block) :
    (linkTask task b c c.block).next = (task c.block).next := by
  simp [linkTask, hb.symm]

theorem linkTask_kernelStack {c : ForkCall} :
    (linkTask task b c a).kernelStack = (task a).kernelStack := by
  unfold linkTask
  rw [Function.update_apply, Function.update_apply, Function.update_apply]
  split_ifs <;> simp_all

/-- The task blocks are distinct and live, so the queue is no longer than the list of them. -/
theorem Inv.length_le (h : Inv s l) : l.length ≤ s.live.length := by
  have hsub : l.map (fun a => (a,taskSize)) ⊆ s.live := by
    intro p hp
    obtain ⟨a,ha,rfl⟩ := List.mem_map.mp hp
    exact h.live a ha
  have hnd : (l.map (fun a => (a,taskSize))).Nodup :=
    h.nodup.map (fun a b he => (Prod.mk.inj he).1)
  simpa using (hnd.subperm hsub).length_le

theorem Inv.eq_snoc (h : Inv s l) : ∃ l' z, l = l' ++ [z] := by
  rcases List.eq_nil_or_concat l with rfl | ⟨l',z,rfl⟩
  · exact absurd h.current List.not_mem_nil
  · exact ⟨l',z,List.concat_eq_append⟩

/-- `fork` returns, puts the new task behind the others, and gives its caller a new stack. -/
theorem fork_spec (h : Inv s l) {c : ForkCall} (hb : Fresh s.live c.block taskSize) :
    ∃ t, fork s c = some t ∧ Inv t (l ++ [c.block]) ∧
      t.given = (s.currentTask,c.stack) :: s.given ∧
      (t.task s.currentTask).kernelStack = c.stack := by
  have hnew : c.block ∉ l := fun hm => hb.not_mem (by decide) (h.live _ hm)
  have hcur : s.currentTask ≠ c.block := fun he => hnew (he ▸ h.current)
  have hlen := h.length_le
  obtain ⟨l,z,rfl⟩ := h.eq_snoc
  have hz : z ≠ c.block := by
    rintro rfl
    exact hnew (List.mem_append_right _ (List.mem_singleton_self _))
  have hl : ∀ d ∈ l, d ≠ c.block ∧ d ≠ z := by
    intro d hd
    refine ⟨?_,(List.nodup_append.mp h.nodup).2.2 _ hd _ (List.mem_singleton_self _)⟩
    rintro rfl
    exact hnew (List.mem_append_left _ hd)
  have hq : Queue (newTask s c) s.readyQueue (l ++ [z]) := by
    refine h.queue.congr fun d hd => newTask_next ?_
    rintro rfl
    exact hnew hd
  have hwalk : lastTask (newTask s c) s.live.length s.readyQueue = some z := by
    apply lastTask_eq hq
    simp only [List.length_append, List.length_singleton] at hlen
    omega
  refine ⟨_,by rw [fork, hwalk],⟨?_,?_,?_,?_,?_⟩,rfl,?_⟩
  · refine hq.snoc (Nat.pos_iff_ne_zero.mp hb.1) ?_ (linkTask_last hz) ?_
    · intro d hd
      exact linkTask_next (hl d hd).1 (hl d hd).2
    · rw [linkTask_block_next hz, newTask_block_next]
  · exact List.nodup_append.mpr ⟨h.nodup,List.nodup_singleton _,by
      rintro a ha b hb rfl
      exact hnew (List.mem_singleton.mp hb ▸ ha)⟩
  · exact List.mem_append_left _ h.current
  · intro a ha
    rcases List.mem_append.mp ha with ha | ha
    · exact List.mem_cons_of_mem _ (List.mem_cons_of_mem _ (h.live a ha))
    · rw [List.mem_singleton.mp ha]
      exact List.mem_cons_of_mem _ List.mem_cons_self
  · intro p hp
    rcases List.mem_cons.mp hp with rfl | hp
    · exact ⟨List.mem_cons_of_mem _ (List.mem_cons_of_mem _ (h.live _ h.current)),
        List.mem_cons_self⟩
    · obtain ⟨h1,h2⟩ := h.given p hp
      exact ⟨List.mem_cons_of_mem _ (List.mem_cons_of_mem _ h1),
        List.mem_cons_of_mem _ (List.mem_cons_of_mem _ h2)⟩
  · exact linkTask_kernelStack.trans (newTask_kernelStack hcur)

/-- `switch_task` changes no link, no stack and no owner. -/
theorem switchTask_spec (h : Inv s l) (esp ebp eip : ℕ) :
    Inv (switchTask s esp ebp eip) l ∧ (switchTask s esp ebp eip).given = s.given ∧
    (∀ a, ((switchTask s esp ebp eip).task a).kernelStack = (s.task a).kernelStack) ∧
    (eip ≠ resumed → (switchTask s esp ebp eip).esp0 = (((switchTask s esp ebp eip).task
      (switchTask s esp ebp eip).currentTask).kernelStack + kernelStackSize) % 2 ^ 32) := by
  have hcur : s.currentTask ≠ 0 := h.queue.ne_zero h.current
  by_cases he : eip = resumed
  · simp only [switchTask, if_neg hcur, if_pos he]
    exact ⟨h,trivial,fun _ => trivial,fun hne => absurd he hne⟩
  simp only [switchTask, if_neg hcur, if_neg he, setKernelStack]
  have hnext : ∀ a, (Function.update s.task s.currentTask
      { s.task s.currentTask with eip := eip, esp := esp, ebp := ebp } a).next =
      (s.task a).next := by
    intro a
    by_cases ha : a = s.currentTask
    · subst ha
      simp
    · simp [ha]
  refine ⟨⟨h.queue.congr fun b _ => hnext b,h.nodup,?_,h.live,h.given⟩,trivial,?_,fun _ => trivial⟩
  · rw [hnext]
    split_ifs with hz
    · exact h.queue.head_mem h.current
    · exact h.queue.next_mem h.current hz
  · intro a
    by_cases ha : a = s.currentTask
    · subst ha
      simp
    · simp [ha]

/-- A queued task no stack was ever stored into. -/
def Unserved (s : Sys) : Prop := ∃ a, Queued s a ∧ ∀ k, (a,k) ∉ s.given

theorem Unserved.not_stackLaw (h : Unserved s) : ¬ StackLaw s := by
  intro hs
  obtain ⟨a,ha,hk⟩ := h
  exact hk _ (hs.given a ha)

/-- The steps that are not a `fork`. -/
abbrev NoFork : Sys → Act → Prop := fun _ a => ¬ a.isFork

theorem step_inv {c : Act} (h : Inv s l) (hs : Step s c t) : ∃ l', Inv t l' := by
  cases c with
  | fork c =>
    obtain ⟨u,hu,hI,-⟩ := fork_spec h hs.1
    rw [hs.2.2, Option.some_inj] at hu
    exact ⟨_,hu ▸ hI⟩
  | switchTask esp ebp eip =>
    rw [show t = _ from hs]
    exact ⟨l,(switchTask_spec h esp ebp eip).1⟩

theorem Reached.inv (h : Reached s) : ∃ l, Inv s l := by
  induction h with
  | base h =>
    obtain ⟨a,hI,-⟩ := h.inv
    exact ⟨_,hI⟩
  | next _ hs ih =>
    obtain ⟨l,hI⟩ := ih
    exact step_inv hI hs

/-- The task made by a `fork` has no stack of its own. -/
theorem fork_unserved (h : Inv s l) {c : ForkCall} (hs : Step s (.fork c) t) : Unserved t := by
  obtain ⟨hb,-,ht⟩ := hs
  obtain ⟨u,hu,hI,hg,-⟩ := fork_spec h hb
  obtain rfl : t = u := Option.some_inj.mp (ht.symm.trans hu)
  refine ⟨c.block,(queued_iff hI.queue).mpr ?_,fun k hk => ?_⟩
  · exact List.mem_append_right _ (List.mem_singleton_self _)
  rw [hg] at hk
  have hnot := hb.not_mem (by decide)
  rcases List.mem_cons.mp hk with he | hk
  · rw [Prod.mk.injEq] at he
    exact hnot (he.1 ▸ h.live _ h.current)
  · exact hnot (h.given _ hk).1

theorem switchTask_queued (h : Inv s l) {esp ebp eip : ℕ} (ha : Queued s a) :
    Queued (switchTask s esp ebp eip) a :=
  (queued_iff (switchTask_spec h esp ebp eip).1.queue).mpr ((queued_iff h.queue).mp ha)

/-- Once a `fork` was made, the last task made has no stack. -/
theorem Reached.noFork_or_unserved (h : Reached s) :
    Reachable Start (Guarded NoFork Step) s ∨ Unserved s := by
  induction h with
  | base h => exact .inl (.base h)
  | @next s t c hr hs ih =>
    obtain ⟨l,hI⟩ := Reached.inv hr
    cases c with
    | fork c => exact .inr (fork_unserved hI hs)
    | switchTask esp ebp eip =>
      rcases ih with hrun | ⟨a,ha,hk⟩
      · exact .inl (.next hrun
          (show Guarded NoFork Step s (.switchTask esp ebp eip) t from ⟨fun hf => hf,hs⟩))
      · rw [show t = _ from hs]
        refine .inr ⟨a,switchTask_queued hI ha,fun k => ?_⟩
        rw [(switchTask_spec hI esp ebp eip).2.1]
        exact hk k

/-- Without a `fork` the only task is the first one, with its stack. -/
theorem stackLaw_of_noFork (h : Reachable Start (Guarded NoFork Step) s) : StackLaw s := by
  have hone : ∃ a, Inv s [a] ∧ s.given = [(a,(s.task a).kernelStack)] := by
    refine h.invariant (fun _ hs => hs.inv) ?_
    rintro s c t ⟨a,hI,hg⟩ ⟨hc,hs⟩
    cases c with
    | fork c => exact absurd trivial hc
    | switchTask esp ebp eip =>
      obtain ⟨hI',hg',hk,-⟩ := switchTask_spec hI esp ebp eip
      rw [show t = _ from hs]
      exact ⟨a,hI',by rw [hg', hg, hk]⟩
  obtain ⟨a,hI,hg⟩ := hone
  have hq : ∀ b, Queued s b → b = a :=
    fun b hb => List.mem_singleton.mp ((queued_iff hI.queue).mp hb)
  constructor
  · intro b hb
    rw [hq b hb, hg]
    exact List.mem_singleton_self _
  · intro b c hb hc hne
    rw [hq b hb, hq c hc] at hne
    exact absurd rfl hne

/-- A `fork` moves the stack of a task that has one. -/
theorem fork_moves_stack (h : Inv s l) (hlaw : StackLaw s) {c : ForkCall}
    (hs : Step s (.fork c) t) : ¬ CallLaw s (.fork c) t := by
  intro hkeep
  obtain ⟨hb,hk,ht⟩ := hs
  obtain ⟨u,hu,-,-,hstack⟩ := fork_spec h hb
  obtain rfl : t = u := Option.some_inj.mp (ht.symm.trans hu)
  have hown := hlaw.given _ ((queued_iff h.queue).mpr h.current)
  have hlive := List.mem_cons_of_mem (c.block,taskSize) (h.given _ hown).2
  rw [show (s.task s.currentTask).kernelStack = c.stack from hkeep.symm.trans hstack] at hlive
  exact hk.1.not_mem (by decide) hlive

/-- Memory that holds nothing. -/
def bootSys : Sys := ⟨fun _ => ⟨0,0,0,0,0,0,0⟩,0,0,1,0x1000,0,[],[]⟩

/-- The first task at 0xC0080010, with its stack one page above. -/
def firstTask : Sys := initialiseTasking bootSys 0xC0080010 0xC0081000

theorem firstTask_start : Start firstTask := by
  refine ⟨bootSys,_,_,rfl,rfl,rfl,⟨by decide,by decide,?_⟩,⟨⟨by decide,by decide,?_⟩,by decide⟩,rfl⟩
  · intro b hb
    cases hb
  · intro b hb
    rw [List.mem_singleton.mp hb]
    exact .inr (by decide)

end X86OsDev.Tutorial.Tasks
