import X86OsDev.Lib.RoundRobin
import X86OsDev.Tutorial.Tasks

/-! # The ready queue of the tutorial kernel

The queue is the list of all tasks in the order they were made, and
`switch_task` goes around it.
-/
namespace X86OsDev.Tutorial.Tasks
open Memory Transition RoundRobin

variable {s t : Sys} {l : List ℕ} {a b : ℕ} {task : ℕ → Task}

/-- The tasks made so far, in the order of their creation. -/
def created (s : Sys) : List ℕ := ((s.live.filter fun b => b.2 = taskSize).map Prod.fst).reverse

/-- The kernel stacks allocated so far. -/
def stackBlocks (s : Sys) : List ℕ := (s.live.filter fun b => b.2 = kernelStackSize).map Prod.fst

/-- A call of `switch_task` that comes out of `read_eip` for the first time gives a task its turn. -/
def turn (c : Act) (t : Sys) : List ℕ :=
  match c with
  | .fork _ => []
  | .switchTask _ _ eip => if eip = resumed then [] else [t.currentTask]

/-- A run with the tasks that got a turn on the way. -/
inductive TaskTurns (s : Sys) : List ℕ → Sys → Prop
  | refl : TaskTurns s [] s
  | step {ts : List ℕ} {t u : Sys} {c : Act} (h : TaskTurns s ts t) (hc : Step t c u) :
    TaskTurns s (ts ++ turn c u) u

/-- The queue is the list of all tasks, with increasing ids that are positive as `int`. -/
structure QueueLaw (s : Sys) : Prop where
  queue : Queue s.task s.readyQueue (created s)
  nodup : (created s).Nodup
  ids : (created s).Pairwise fun a b => (s.task a).id < (s.task b).id
  small : ∀ a ∈ created s, (s.task a).id < 2 ^ 31
  current : s.currentTask ∈ created s

/-- `switch_task` moves on by one position, around the queue, into the directory of the task. -/
def MovesOn (s t : Sys) : Prop :=
  created t = created s ∧ ∃ i, (created s)[i]? = some s.currentTask ∧
    (created s)[(i + 1) % (created s).length]? = some t.currentTask ∧
    t.currentDirectory = (s.task t.currentTask).pageDirectory

/-! ## The ids -/

/-- The queue is the list of the tasks made, they carry the ids 1, 2, 3 and so on, and each came with
a page for its stack. -/
structure Numbered (s : Sys) : Prop where
  inv : Inv s (created s)
  ids : ∀ i a, (created s)[i]? = some a → (s.task a).id = i + 1
  nextPid : s.nextPid = (created s).length + 1
  pages : ∀ k ∈ stackBlocks s, k % 0x1000 = 0 ∧ k < 2 ^ 32
  nodup : (stackBlocks s).Nodup
  length : (stackBlocks s).length = (created s).length

theorem mem_stackBlocks {k : ℕ} : k ∈ stackBlocks s ↔ (k,kernelStackSize) ∈ s.live := by
  unfold stackBlocks
  simp

/-- There are pages for a million stacks at most. -/
theorem Numbered.length_le (h : Numbered s) : (created s).length ≤ 2 ^ 20 := by
  have hnd : ((stackBlocks s).map fun k => k / 0x1000).Nodup := by
    refine (List.nodup_map_iff_inj_on h.nodup).mpr fun x hx y hy hxy => ?_
    have hx' := (h.pages x hx).1
    have hy' := (h.pages y hy).1
    omega
  have hsub : ((stackBlocks s).map fun k => k / 0x1000) ⊆ List.range (2 ^ 20) := by
    intro q hq
    obtain ⟨k,hk,rfl⟩ := List.mem_map.mp hq
    have := (h.pages k hk).2
    rw [List.mem_range]
    omega
  have hle := (hnd.subperm hsub).length_le
  rw [List.length_map, List.length_range, h.length] at hle
  exact hle

theorem fork_eq {c : ForkCall} (h : fork s c = some t) : ∃ z, t = { s with
    task := linkTask (newTask s c) z c
    nextPid := (s.nextPid + 1) % 2 ^ 32
    live := (c.stack,kernelStackSize) :: (c.block,taskSize) :: s.live
    given := (s.currentTask,c.stack) :: s.given } := by
  unfold fork at h
  split at h
  · cases h
  · rename_i z _
    cases h
    exact ⟨z,rfl⟩

theorem linkTask_id {c : ForkCall} : (linkTask task b c a).id = (task a).id := by
  unfold linkTask
  rw [Function.update_apply, Function.update_apply, Function.update_apply]
  split_ifs <;> simp_all

theorem newTask_id {c : ForkCall} :
    (newTask s c a).id = if a = c.block then s.nextPid else (s.task a).id := by
  by_cases ha : a = c.block
  · subst ha
    rw [if_pos rfl]
    unfold newTask
    dsimp only
    rw [Function.update_self]
    dsimp only
    by_cases hc : c.block = s.currentTask
    · simp [hc]
    · rw [Function.update_of_ne hc, Function.update_self]
  · rw [if_neg ha]
    unfold newTask
    dsimp only
    rw [Function.update_of_ne ha]
    by_cases hc : a = s.currentTask
    · subst hc
      rw [Function.update_self, Function.update_of_ne ha]
    · rw [Function.update_of_ne hc, Function.update_of_ne ha]

theorem created_fork {c : ForkCall} (h : fork s c = some t) : created t = created s ++ [c.block] := by
  obtain ⟨z,rfl⟩ := fork_eq h
  have hk : kernelStackSize ≠ taskSize := by decide
  unfold created
  simp [hk]

theorem stackBlocks_fork {c : ForkCall} (h : fork s c = some t) : stackBlocks t = c.stack :: stackBlocks s := by
  obtain ⟨z,rfl⟩ := fork_eq h
  have hk : taskSize ≠ kernelStackSize := by decide
  unfold stackBlocks
  simp [hk]

theorem Numbered.fork (h : Numbered s) {c : ForkCall} (hs : Step s (.fork c) t) : Numbered t := by
  obtain ⟨hb,hk,ht⟩ := hs
  obtain ⟨u,hu,hinv,-,-⟩ := fork_spec h.inv hb
  obtain rfl : t = u := Option.some_inj.mp (ht.symm.trans hu)
  have hlen := h.length_le
  have hnew : c.block ∉ created s := fun hm => hb.not_mem (by decide) (h.inv.live _ hm)
  have hcr := created_fork ht
  have hst := stackBlocks_fork ht
  have hstack : c.stack ∉ stackBlocks s := fun hm =>
    hk.1.not_mem (by decide) (List.mem_cons_of_mem _ (mem_stackBlocks.mp hm))
  refine ⟨by rw [hcr]; exact hinv,fun i a ha => ?_,?_,fun k hk' => ?_,?_,?_⟩
  · obtain ⟨z,rfl⟩ := fork_eq ht
    dsimp only
    rw [linkTask_id, newTask_id]
    rw [hcr] at ha
    split
    · rename_i hab
      subst hab
      -- the new block is at the end of the list
      have hi : i = (created s).length := by
        rcases Nat.lt_trichotomy i (created s).length with hi | hi | hi
        · rw [List.getElem?_append_left hi] at ha
          exact absurd (List.mem_of_getElem? ha) hnew
        · exact hi
        · rw [List.getElem?_eq_none (by simp; omega)] at ha
          cases ha
      rw [h.nextPid, hi]
    · rename_i hab
      refine h.ids i a ?_
      rcases Nat.lt_or_ge i (created s).length with hi | hi
      · rwa [List.getElem?_append_left hi] at ha
      · rw [List.getElem?_append_right hi, List.getElem?_singleton] at ha
        split at ha
        · cases ha
          exact absurd rfl hab
        · cases ha
  · obtain ⟨z,rfl⟩ := fork_eq ht
    rw [hcr, List.length_append, List.length_singleton]
    dsimp only
    rw [h.nextPid, Nat.mod_eq_of_lt (by omega)]
  · rw [hst, List.mem_cons] at hk'
    rcases hk' with rfl | hk'
    · have h1 := hk.1.2.1
      unfold kernelStackSize at h1
      exact ⟨hk.2,by omega⟩
    · exact h.pages k hk'
  · rw [hst]
    exact List.nodup_cons.mpr ⟨hstack,h.nodup⟩
  · rw [hst, hcr, List.length_cons, List.length_append, h.length, List.length_singleton]

/-- `switch_task` changes no id and makes no task. -/
theorem switchTask_same (s : Sys) (esp ebp eip : ℕ) :
    (switchTask s esp ebp eip).live = s.live ∧ (switchTask s esp ebp eip).nextPid = s.nextPid ∧
      ∀ a, ((switchTask s esp ebp eip).task a).id = (s.task a).id ∧
        ((switchTask s esp ebp eip).task a).pageDirectory = (s.task a).pageDirectory := by
  unfold switchTask
  split
  · exact ⟨rfl,rfl,fun _ => ⟨rfl,rfl⟩⟩
  split
  · exact ⟨rfl,rfl,fun _ => ⟨rfl,rfl⟩⟩
  · refine ⟨rfl,rfl,fun a => ?_⟩
    unfold setKernelStack
    dsimp only
    by_cases ha : a = s.currentTask
    · subst ha
      rw [Function.update_self]
      exact ⟨rfl,rfl⟩
    · rw [Function.update_of_ne ha]
      exact ⟨rfl,rfl⟩

theorem Numbered.switchTask (h : Numbered s) (esp ebp eip : ℕ) : Numbered (switchTask s esp ebp eip) := by
  obtain ⟨hlive,hpid,htask⟩ := switchTask_same s esp ebp eip
  have hcr : created (Tasks.switchTask s esp ebp eip) = created s := by
    unfold created
    rw [hlive]
  have hst : stackBlocks (Tasks.switchTask s esp ebp eip) = stackBlocks s := by
    unfold stackBlocks
    rw [hlive]
  refine ⟨by rw [hcr]; exact (switchTask_spec h.inv esp ebp eip).1,fun i a ha => ?_,?_,?_,?_,?_⟩
  · rw [(htask a).1]
    exact h.ids i a (by rwa [hcr] at ha)
  · rw [hpid, hcr]
    exact h.nextPid
  · rw [hst]
    exact h.pages
  · rw [hst]
    exact h.nodup
  · rw [hst, hcr]
    exact h.length

theorem Numbered.step (h : Numbered s) {c : Act} (hs : Step s c t) : Numbered t := by
  cases c with
  | fork c => exact h.fork hs
  | switchTask esp ebp eip =>
    rw [show t = _ from hs]
    exact h.switchTask esp ebp eip

theorem Start.numbered (h : Start s) : Numbered s := by
  obtain ⟨a,hinv,-⟩ := h.inv
  obtain ⟨boot,block,stack,hpid,hlive,-,hb,hk,rfl⟩ := h
  have hne : kernelStackSize ≠ taskSize := by decide
  have hcr : created (initialiseTasking boot block stack) = [block] := by
    unfold created initialiseTasking
    simp [hlive,hne]
  have hst : stackBlocks (initialiseTasking boot block stack) = [stack] := by
    unfold stackBlocks initialiseTasking
    simp [hlive,hne.symm]
  have hcur : a = block := (List.mem_singleton.mp hinv.current).symm
  rw [hcur] at hinv
  refine ⟨by rw [hcr]; exact hinv,fun i x hx => ?_,?_,fun k hk' => ?_,?_,?_⟩
  · rw [hcr, List.getElem?_singleton] at hx
    split at hx
    · rename_i hi
      cases hx
      simp [initialiseTasking,hpid,hi]
    · cases hx
  · rw [hcr]
    simp [initialiseTasking,hpid]
  · rw [hst, List.mem_singleton] at hk'
    subst hk'
    have h1 := hk.1.2.1
    unfold kernelStackSize at h1
    exact ⟨hk.2,by omega⟩
  · rw [hst]
    exact List.nodup_singleton _
  · rw [hst, hcr]
    rfl

theorem Reached.numbered (h : Reached s) : Numbered s :=
  h.invariant (fun _ hs => hs.numbered) fun _ _ _ hs hstep => hs.step hstep

theorem Numbered.queueLaw (h : Numbered s) : QueueLaw s := by
  refine ⟨h.inv.queue,h.inv.nodup,?_,fun a ha => ?_,h.inv.current⟩
  · rw [List.pairwise_iff_getElem]
    intro i j hi hj hij
    rw [h.ids i _ (List.getElem?_eq_getElem hi), h.ids j _ (List.getElem?_eq_getElem hj)]
    omega
  · obtain ⟨i,hi⟩ := List.mem_iff_getElem?.mp ha
    have hlen := h.length_le
    have hlt := (List.getElem?_eq_some_iff.mp hi).1
    rw [h.ids i a hi]
    omega

/-! ## Turns -/

/-- The link of a task of the queue. -/
theorem Queue.next_eq (hq : Queue task b l) {i : ℕ} (hi : l[i]? = some a) :
    (task a).next = if h : i + 1 < l.length then l[i + 1] else 0 := by
  induction l generalizing b i with
  | nil => simp at hi
  | cons c l ih =>
    obtain ⟨-,-,hq⟩ := hq
    cases i with
    | zero =>
      cases hi
      cases l with
      | nil => simpa [Queue] using hq
      | cons d l => simpa using hq.1
    | succ i =>
      rw [ih hq (by simpa using hi)]
      simp

theorem Queue.head_eq (hq : Queue task b l) (hl : 0 < l.length) : l[0] = b := by
  cases l with
  | nil => simp at hl
  | cons c l => exact hq.1.symm

theorem Numbered.movesOn (h : Numbered s) {esp ebp eip i : ℕ} (he : eip ≠ resumed)
    (hi : (created s)[i]? = some s.currentTask) :
    (created s)[(i + 1) % (created s).length]? = some (Tasks.switchTask s esp ebp eip).currentTask ∧
      (Tasks.switchTask s esp ebp eip).currentDirectory =
        (s.task (Tasks.switchTask s esp ebp eip).currentTask).pageDirectory := by
  have hcur : s.currentTask ≠ 0 := h.inv.queue.ne_zero h.inv.current
  have hlt := (List.getElem?_eq_some_iff.mp hi).1
  have hnext := h.inv.queue.next_eq hi
  have hdir : (Tasks.switchTask s esp ebp eip).currentDirectory =
      ((Tasks.switchTask s esp ebp eip).task (Tasks.switchTask s esp ebp eip).currentTask).pageDirectory := by
    simp only [Tasks.switchTask, if_neg hcur, if_neg he, setKernelStack]
  have htask : (Tasks.switchTask s esp ebp eip).currentTask =
      if (s.task s.currentTask).next = 0 then s.readyQueue else (s.task s.currentTask).next := by
    simp only [Tasks.switchTask, if_neg hcur, if_neg he, setKernelStack, Function.update_self]
  refine ⟨?_,hdir.trans ((switchTask_same s esp ebp eip).2.2 _).2⟩
  rw [htask]
  by_cases hend : i + 1 < (created s).length
  · rw [dif_pos hend] at hnext
    have hne : (s.task s.currentTask).next ≠ 0 := by
      rw [hnext]
      exact h.inv.queue.ne_zero (List.getElem_mem hend)
    rw [if_neg hne, hnext, Nat.mod_eq_of_lt hend, List.getElem?_eq_getElem hend]
  · rw [dif_neg hend] at hnext
    have hpos : 0 < (created s).length := by omega
    rw [if_pos hnext, show i + 1 = (created s).length by omega, Nat.mod_self, List.getElem?_eq_getElem hpos,
      h.inv.queue.head_eq hpos]

/-- The queue with the position of the current task. -/
def rotor (s : Sys) : Rotor ℕ := ⟨created s,(created s).idxOf s.currentTask⟩

theorem Numbered.rotor_cur (h : Numbered s) : (rotor s).cur = some s.currentTask := by
  unfold rotor Rotor.cur
  exact List.getElem?_idxOf h.inv.current

theorem Numbered.rotor_ok (h : Numbered s) : (rotor s).Ok :=
  ⟨h.inv.nodup,List.idxOf_lt_length_of_mem h.inv.current⟩

/-- The position of the current task, from its place in the queue. -/
theorem Numbered.rotor_eq (h : Numbered s) {i : ℕ} (hi : (created s)[i]? = some s.currentTask) :
    rotor s = ⟨created s,i⟩ := by
  have hlt := (List.getElem?_eq_some_iff.mp hi).1
  unfold rotor
  congr 1
  exact (List.getElem?_inj (List.idxOf_lt_length_of_mem h.inv.current) h.inv.nodup).mp
    ((List.getElem?_idxOf h.inv.current).trans hi.symm)

/-- A run of the kernel is a run around the queue. -/
theorem TaskTurns.turns (hs : Numbered s) {ts : List ℕ} (h : TaskTurns s ts t) :
    Numbered t ∧ Turns (rotor s) ts (rotor t) := by
  induction h with
  | refl => exact ⟨hs,.refl⟩
  | @step ts t u c h hc ih =>
    obtain ⟨ht,hturns⟩ := ih
    have hu := ht.step hc
    refine ⟨hu,?_⟩
    cases c with
    | fork c =>
      rw [turn, List.append_nil]
      obtain ⟨hb,-,hf⟩ := hc
      have hcr := created_fork hf
      have hcur : u.currentTask = t.currentTask := by
        obtain ⟨z,rfl⟩ := fork_eq hf
        rfl
      have hnew : c.block ∉ created t := fun hm => hb.not_mem (by decide) (ht.inv.live _ hm)
      have hpos : rotor u = (rotor t).push c.block := by
        have hplace : (created u)[(rotor t).pos]? = some u.currentTask := by
          have hlt : (rotor t).pos < (created t).length := ht.rotor_ok.pos_lt
          rw [hcr, hcur, List.getElem?_append_left hlt]
          exact ht.rotor_cur
        rw [hu.rotor_eq hplace, hcr]
        rfl
      rw [hpos]
      exact .push hturns hnew
    | switchTask esp ebp eip =>
      obtain rfl : u = _ := hc
      have hcr : created (Tasks.switchTask t esp ebp eip) = created t := by
        unfold created
        rw [(switchTask_same t esp ebp eip).1]
      by_cases he : eip = resumed
      · have hsame : Tasks.switchTask t esp ebp eip = t := by
          unfold Tasks.switchTask
          rw [if_pos he]
          split <;> rfl
        rw [turn, if_pos he, List.append_nil, hsame]
        exact hturns
      · have hmove := (@Numbered.movesOn _ ht esp ebp _ _ he ht.rotor_cur).1
        have hpos : rotor (Tasks.switchTask t esp ebp eip) = (rotor t).advance := by
          have := hu.rotor_eq (by rw [hcr]; exact hmove)
          rw [this, hcr]
          rfl
        rw [turn, if_neg he, hpos]
        exact .advance hturns hmove

end X86OsDev.Tutorial.Tasks
