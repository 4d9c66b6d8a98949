import X86OsDev.Xv6.PageLaw

/-! # The sizes of processes

Every size of a process comes from `allocuvm`, `deallocuvm` or another process, so it
stays below `KERNBASE` whatever the calls are and whatever they leave in memory.
-/
namespace X86OsDev.Xv6
open Memory Fault

namespace Vm
variable (k : Kernel) {pgdir oldsz newsz : ℕ}

/-- What a program of the machine returns meets a condition. -/
abbrev Gives {α : Type} (x : Vm α) (P : α → Prop) : Prop := Preserves (fun _ => True) x P

theorem allocuvmLoop_gives (hnew : newsz < kernbase) (n a : ℕ) : Gives (allocuvmLoop k pgdir oldsz newsz n a) (· < kernbase) := by
  induction n generalizing a with
  | zero => exact .pure hnew
  | succ n ih =>
    refine .of_last fun r => ?_
    cases r with
    | none => exact .of_last fun _ => .pure (by decide)
    | some mem =>
      refine .of_last fun _ => .of_last fun ok => ?_
      cases ok with
      | true => exact ih _
      | false => exact .of_last fun _ => .of_last fun _ => .pure (by decide)

theorem allocuvm_gives (h : oldsz < kernbase ∨ oldsz ≤ newsz) : Gives (allocuvm k pgdir oldsz newsz) (· < kernbase) := by
  rw [allocuvm]
  split
  · exact .pure (by decide)
  · split
    · exact .pure (by omega)
    · exact allocuvmLoop_gives k (by omega) _ _

theorem deallocuvm_gives (h : oldsz < kernbase) : Gives (deallocuvm k pgdir oldsz newsz) (· < kernbase) := by
  rw [deallocuvm]
  split
  · exact .pure h
  · exact .of_last fun _ => .pure (by omega)

theorem loadSegments_gives (f : File) (n : ℕ) : ∀ off sz, sz < kernbase →
    Gives (loadSegments k f pgdir n off sz) fun r => ∀ sz' ∈ r, sz' < kernbase := by
  have hnone : ∀ sz' ∈ (none : Option ℕ), sz' < kernbase := fun _ h => absurd h (Option.not_mem_none _)
  induction n with
  | zero => exact fun off sz hsz => .pure fun sz' h => (Option.mem_some_iff.mp h) ▸ hsz
  | succ n ih =>
    intro off sz hsz
    rw [loadSegments]
    split
    · exact .pure hnone
    · split
      · exact ih _ _ hsz
      · split
        · exact .pure hnone
        · split
          · exact .pure hnone
          · refine .bind (allocuvm_gives k (.inl hsz)) fun sz' hsz' => ?_
            split
            · exact .pure hnone
            · split
              · exact .pure hnone
              · refine .of_last fun ok => ?_
                cases ok with
                | true => exact ih _ _ hsz'
                | false => exact .pure hnone

theorem loadImage_gives (f : File) : Gives (loadImage k f) fun r => ∀ x ∈ r, x.2 < kernbase := by
  have hnone : ∀ x ∈ (none : Option (ℕ × ℕ)), x.2 < kernbase := fun _ h => absurd h (Option.not_mem_none _)
  rw [loadImage]
  split
  · exact .pure hnone
  · split
    · exact .pure hnone
    · refine .of_last fun r => ?_
      cases r with
      | none => exact .pure hnone
      | some pgdir =>
        refine .bind (loadSegments_gives k f f.phnum f.phoff 0 (by decide)) fun r hr => ?_
        cases r with
        | none => exact .of_last fun _ => .pure hnone
        | some sz =>
          have hsz : sz < 0x80000000 := hr sz rfl
          have hround : pgroundup sz = (sz + 4095) / 4096 * 4096 := pgroundup_eq (by unfold kernbase; omega)
          have hup : pgroundup sz ≤ u32 (pgroundup sz + 2 * pgsize) := by
            rw [hround]
            unfold u32 pgsize
            omega
          refine .bind (allocuvm_gives k (.inr hup)) fun sz' hsz' => ?_
          split
          · exact .of_last fun _ => .pure hnone
          · exact .of_last fun _ => .pure fun x hx => (Option.mem_some_iff.mp hx) ▸ hsz'

theorem exec_gives (f : File) (argv : List (List UInt8)) (old : ℕ) :
    Gives (exec k f argv old) fun r => ∀ im ∈ r, im.sz < kernbase := by
  have hnone : ∀ im ∈ (none : Option Image), im.sz < kernbase := fun _ h => absurd h (Option.not_mem_none _)
  rw [exec]
  refine .bind (loadImage_gives k f) fun r hr => ?_
  cases r with
  | none => exact .pure hnone
  | some x =>
    refine .of_last fun r => ?_
    cases r with
    | none => exact .of_last fun _ => .pure hnone
    | some y =>
      refine .of_last fun ok => ?_
      cases ok with
      | true => exact .of_last fun _ => .pure fun im him => (Option.mem_some_iff.mp him) ▸ hr x rfl
      | false => exact .of_last fun _ => .pure hnone

end Vm

namespace Pages
open Transition
variable (k : Kernel) {s : Sys} {α : Type}

/-- Every process is smaller than `KERNBASE`. -/
def SizesOk (s : Sys) : Prop := ∀ p, (s.proc p).sz < kernbase

abbrev KeepsSizes (x : Kern α) : Prop := Preserves SizesOk x fun _ => True

theorem vm_sizes {x : Vm α} {P : α → Prop} (h : Vm.Gives x P) : Preserves SizesOk (vm x) P := by
  intro s a t hs hx
  simp only [vm] at hx
  cases hm : x s.mach with
  | error e =>
    rw [hm] at hx
    cases hx
  | ok r =>
    rw [hm] at hx
    cases hx
    exact ⟨hs,(h s.mach r.1 r.2 trivial hm).2⟩

theorem vm_keeps (x : Vm α) : KeepsSizes (vm x) := vm_sizes fun _ _ _ _ _ => ⟨trivial,trivial⟩

theorem updProc_sizes (p : Fin nproc) {g : Proc → Proc} (h : ∀ pr : Proc, pr.sz < kernbase → (g pr).sz < kernbase) :
    KeepsSizes (updProc p g) := by
  refine .modify fun s hs q => ?_
  dsimp only
  rw [Function.update_apply]
  split
  · exact h _ (hs p)
  · exact hs q

theorem updProc_keeps (p : Fin nproc) {g : Proc → Proc} (h : ∀ pr, (g pr).sz = pr.sz) : KeepsSizes (updProc p g) :=
  updProc_sizes p fun pr hpr => (h pr).trans_lt hpr

theorem updFile_keeps (f : Fin nfile) (g : OpenFile → OpenFile) : KeepsSizes (updFile f g) := .modify fun _ hs => hs

theorem updPipe_keeps (p : ℕ) (g : PipeEnds → PipeEnds) : KeepsSizes (updPipe p g) := .modify fun _ hs => hs

theorem filealloc_keeps : KeepsSizes filealloc := by
  refine .get_bind fun s _ => ?_
  split
  · exact .pure trivial
  · exact .bind (updFile_keeps _ _) fun _ _ => .pure trivial

theorem filedup_keeps (f : Fin nfile) : KeepsSizes (filedup f) := by
  refine .get_bind fun s _ => ?_
  split
  · exact .throw _
  · exact updFile_keeps _ _

theorem pipeclose_keeps (p : ℕ) (w : Bool) : KeepsSizes (pipeclose k p w) := by
  have hrest : KeepsSizes (get >>= fun s : Sys => if (s.pipe p).readopen = false ∧ (s.pipe p).writeopen = false then vm (Vm.kfree k p)
      else pure ()) := by
    refine .get_bind fun s _ => ?_
    split
    · exact vm_keeps _
    · exact .pure trivial
  rw [pipeclose]
  cases w with
  | true => exact .bind (updPipe_keeps _ _) fun _ _ => hrest
  | false => exact .bind (updPipe_keeps _ _) fun _ _ => hrest

theorem fileclose_keeps (f : Fin nfile) : KeepsSizes (fileclose k f) := by
  refine .get_bind fun s _ => ?_
  split
  · exact .throw _
  · split
    · exact updFile_keeps _ _
    · refine .bind (updFile_keeps _ _) fun _ _ => ?_
      split
      · exact pipeclose_keeps k _ _
      · exact .pure trivial

theorem pipealloc_keeps : KeepsSizes (pipealloc k) := by
  refine .bind filealloc_keeps fun r0 _ => ?_
  cases r0 with
  | none => exact .pure trivial
  | some f0 =>
    refine .bind filealloc_keeps fun r1 _ => ?_
    cases r1 with
    | none => exact .bind (fileclose_keeps k f0) fun _ _ => .pure trivial
    | some f1 =>
      refine .bind (vm_keeps _) fun r _ => ?_
      cases r with
      | none => exact .bind (fileclose_keeps k f0) fun _ _ => .bind (fileclose_keeps k f1) fun _ _ => .pure trivial
      | some p =>
        exact .bind (updPipe_keeps _ _) fun _ _ => .bind (updFile_keeps _ _) fun _ _ => .bind (updFile_keeps _ _) fun _ _ =>
          .pure trivial

theorem fdalloc_keeps (cur : Fin nproc) (f : Fin nfile) : KeepsSizes (fdalloc cur f) := by
  refine .get_bind fun s _ => ?_
  split
  · exact .pure trivial
  · exact .bind (updProc_keeps cur fun _ => rfl) fun _ _ => .pure trivial

theorem sysPipe_keeps (cur : Fin nproc) : KeepsSizes (sysPipe k cur) := by
  refine .bind (pipealloc_keeps k) fun r _ => ?_
  cases r with
  | none => exact .pure trivial
  | some rw =>
    have hclose : ∀ {β : Type} (b : β), KeepsSizes (do
        fileclose k rw.1
        fileclose k rw.2
        return b) := fun b =>
      .bind (fileclose_keeps k _) fun _ _ => .bind (fileclose_keeps k _) fun _ _ => .pure trivial
    refine .bind (fdalloc_keeps cur rw.1) fun r0 _ => ?_
    cases r0 with
    | none => exact hclose none
    | some fd0 =>
      refine .bind (fdalloc_keeps cur rw.2) fun r1 _ => ?_
      cases r1 with
      | none => exact .bind (updProc_keeps cur fun _ => rfl) fun _ _ => hclose none
      | some fd1 => exact .pure trivial

theorem sysClose_keeps (cur : Fin nproc) (fd : Fin nofile) : KeepsSizes (sysClose k cur fd) := by
  refine .get_bind fun s _ => ?_
  split
  · exact .pure trivial
  · exact .bind (updProc_keeps cur fun _ => rfl) fun _ _ => .bind (fileclose_keeps k _) fun _ _ => .pure trivial

theorem sysDup_keeps (cur : Fin nproc) (fd : Fin nofile) : KeepsSizes (sysDup cur fd) := by
  refine .get_bind fun s _ => ?_
  split
  · exact .pure trivial
  · refine .bind (fdalloc_keeps cur _) fun r _ => ?_
    cases r with
    | none => exact .pure trivial
    | some fd' => exact .bind (filedup_keeps _) fun _ _ => .pure trivial

theorem allocproc_keeps : KeepsSizes allocproc := by
  refine .get_bind fun s _ => ?_
  split
  · exact .pure trivial
  · rename_i p _
    refine .bind (updProc_keeps p fun _ => rfl) fun _ _ => .bind (vm_keeps _) fun r _ => ?_
    cases r with
    | none => exact .bind (updProc_keeps p fun _ => rfl) fun _ _ => .pure trivial
    | some kstack => exact .bind (updProc_keeps p fun _ => rfl) fun _ _ => .pure trivial

theorem dupFiles_keeps (cur np : Fin nproc) (l : List (Fin nofile)) : KeepsSizes (dupFiles cur np l) := by
  induction l with
  | nil => exact .pure trivial
  | cons fd l ih =>
    refine .get_bind fun s _ => ?_
    split
    · exact ih
    · exact .bind (filedup_keeps _) fun _ _ => .bind (updProc_keeps np fun _ => rfl) fun _ _ => ih

/-- The child has the size of its parent. -/
theorem fork_keeps (cur : Fin nproc) : KeepsSizes (fork k cur) := by
  refine .bind allocproc_keeps fun r _ => ?_
  cases r with
  | none => exact .pure trivial
  | some np =>
    refine .get_bind fun s hs => .bind (vm_keeps _) fun r _ => ?_
    cases r with
    | none => exact .bind (vm_keeps _) fun _ _ => .bind (updProc_keeps np fun _ => rfl) fun _ _ => .pure trivial
    | some d =>
      exact .bind (updProc_sizes np fun _ _ => hs cur) fun _ _ => .bind (dupFiles_keeps cur np _) fun _ _ =>
        .bind (updProc_keeps np fun _ => rfl) fun _ _ => .pure trivial

theorem growproc_keeps (cur : Fin nproc) (n : BitVec 32) : KeepsSizes (growproc k cur n) := by
  have hset : ∀ sz, sz < kernbase → KeepsSizes (if sz = 0 then return false else do
      updProc cur fun pr => { pr with sz := sz }
      return true : Kern Bool) := by
    intro sz hsz
    split
    · exact .pure trivial
    · exact .bind (updProc_sizes cur fun _ _ => hsz) fun _ _ => .pure trivial
  refine .get_bind fun s hs => ?_
  split
  · exact (vm_sizes (Vm.allocuvm_gives k (.inl (hs cur)))).bind hset
  · split
    · exact (vm_sizes (Vm.deallocuvm_gives k (hs cur))).bind hset
    · exact .pure trivial

theorem exec_keeps (cur : Fin nproc) (ip : Option File) (argv : List (List UInt8)) : KeepsSizes (exec k cur ip argv) := by
  cases ip with
  | none => exact .pure trivial
  | some f =>
    refine .get_bind fun s _ => .bind (vm_sizes (Vm.exec_gives k f argv _)) fun r hr => ?_
    cases r with
    | none => exact .pure trivial
    | some im => exact .bind (updProc_sizes cur fun _ _ => hr im rfl) fun _ _ => .pure trivial

theorem closeFiles_keeps (cur : Fin nproc) (l : List (Fin nofile)) : KeepsSizes (closeFiles k cur l) := by
  induction l with
  | nil => exact .pure trivial
  | cons fd l ih =>
    refine .get_bind fun s _ => ?_
    split
    · exact ih
    · exact .bind (fileclose_keeps k _) fun _ _ => .bind (updProc_keeps cur fun _ => rfl) fun _ _ => ih

theorem exit_keeps (cur : Fin nproc) : KeepsSizes (exit k cur) := by
  refine .get_bind fun s _ => ?_
  split
  · exact .throw _
  · refine .bind (closeFiles_keeps k cur _) fun _ _ => Preserves.bind (.modify fun s hs q => ?_) fun _ _ =>
      updProc_keeps cur fun _ => rfl
    dsimp only
    split
    · exact hs q
    · exact hs q

theorem wait_keeps (cur : Fin nproc) : KeepsSizes (wait k cur) := by
  refine .get_bind fun s _ => ?_
  split
  · exact .pure trivial
  · exact .bind (vm_keeps _) fun _ _ => .bind (updProc_keeps _ fun _ => rfl) fun _ _ => .bind (vm_keeps _) fun _ _ =>
      .bind (updProc_keeps _ fun _ => rfl) fun _ _ => .pure trivial

theorem userStore_keeps (cur : Fin nproc) (addr : BitVec 32) (b : UInt8) : KeepsSizes (userStore cur addr b) := by
  refine .get_bind fun s _ => .bind (vm_keeps _) fun r _ => ?_
  cases r with
  | none => exact .pure trivial
  | some pte =>
    refine .bind (vm_keeps _) fun e _ => ?_
    split
    · exact vm_keeps _
    · exact .pure trivial

theorem run_keeps (op : Op) : KeepsSizes (op.run k) := by
  cases op with
  | fork cur => exact .bind (fork_keeps k cur) fun _ _ => .pure trivial
  | exec cur ip argv => exact .bind (exec_keeps k cur ip argv) fun _ _ => .pure trivial
  | exit cur => exact exit_keeps k cur
  | wait cur => exact .bind (wait_keeps k cur) fun _ _ => .pure trivial
  | sbrk cur n => exact .bind (growproc_keeps k cur n) fun _ _ => .pure trivial
  | pipe cur => exact .bind (sysPipe_keeps k cur) fun _ _ => .pure trivial
  | close cur fd => exact .bind (sysClose_keeps k cur fd) fun _ _ => .pure trivial
  | dup cur fd => exact .bind (sysDup_keeps cur fd) fun _ _ => .pure trivial
  | store cur addr b => exact userStore_keeps cur addr b

/-! ## Boot -/

theorem startothers_keeps (n : ℕ) : KeepsSizes (startothers n) := by
  induction n with
  | zero => exact .pure trivial
  | succ n ih =>
    refine .bind (vm_keeps _) fun r _ => ?_
    cases r with
    | none => exact .throw _
    | some p => exact Preserves.bind (.modify fun _ hs => hs) fun _ _ => ih

theorem inituvm_keeps (d : ℕ) (init : List UInt8) : KeepsSizes (inituvm d init) := by
  rw [inituvm]
  split
  · exact .throw _
  · refine .bind (vm_keeps _) fun r _ => ?_
    cases r with
    | none => exact .throw _
    | some mem => exact .bind (vm_keeps _) fun _ _ => .bind (vm_keeps _) fun _ _ => vm_keeps _

theorem pgsize_lt : pgsize < kernbase := by decide

theorem userinit_keeps (init : List UInt8) : KeepsSizes (userinit k init) := by
  refine .bind allocproc_keeps fun r _ => ?_
  cases r with
  | none => exact .throw _
  | some p =>
    refine Preserves.bind (.modify fun _ hs => hs) fun _ _ => .bind (vm_keeps _) fun r _ => ?_
    cases r with
    | none => exact .throw _
    | some d =>
      exact .bind (inituvm_keeps d init) fun _ _ => .bind (updProc_sizes p fun _ _ => pgsize_lt) fun _ _ => updProc_keeps p fun _ => rfl

theorem main_keeps (n : ℕ) (init : List UInt8) : KeepsSizes (main k n init) := by
  have hkvm : KeepsSizes (kvmalloc k) := by
    refine .bind (vm_keeps _) fun r _ => ?_
    cases r with
    | none => exact .throw _
    | some d => exact .modify fun _ hs => hs
  exact .bind (vm_keeps _) fun _ _ => .bind hkvm fun _ _ => .bind (startothers_keeps n) fun _ _ => .bind (vm_keeps _) fun _ _ =>
    userinit_keeps k init

/-- Any call of a live process, with any arguments. -/
def AnyStep (k : Kernel) (s : Sys) (op : Op) (s' : Sys) : Prop := (s.proc op.cur).state = .live ∧ op.run k s = .ok ((),s')

theorem reached_sizes {k : Kernel} (h : Reachable (Booted k) (AnyStep k) s) : SizesOk s := by
  refine h.invariant ?_ fun s op t hs hstep => (run_keeps k op s () t hs hstep.2).1
  rintro s ⟨n,init,m,hrun⟩
  exact (main_keeps k n init (zeroed m) () s (fun _ => Nat.two_pow_pos 31) hrun).1

end Pages
end X86OsDev.Xv6
