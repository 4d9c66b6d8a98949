import X86OsDev.Xv6.ExecLaw
import X86OsDev.Xv6.ExecSegments

/-! # The whole of `exec` (exec.c)

`exec` with the transaction that it opens, the inode that it holds and the
process that it changes. Of the file system it uses `namei`, which finds the
inode of a path and takes a reference on it, and the bytes of the file. Waiting
in `begin_op` and `ilock` is left out, and so is what `iput` writes to the disk.
-/
namespace X86OsDev.Xv6.ExecCall
open Memory Fault Counting

structure TrapFrame where
  eip : ℕ
  esp : ℕ
  deriving DecidableEq

structure Task where
  pgdir : ℕ
  sz : ℕ
  tf : TrapFrame
  name : List UInt8
  deriving DecidableEq

/-- The references and the locks that the process holds are those of inode numbers. -/
structure Sys where
  mach : Machine
  task : Task
  outstanding : ℕ
  ref : ℕ → ℕ
  held : ℕ → Bool

inductive Stop
  | vm (e : VmFault)
  | iunlock
  deriving DecidableEq

abbrev Kern := Prog Sys Stop

def vm {α : Type} (x : Vm α) : Kern α := fun s =>
  match x s.mach with
  | .ok (a,m) => .ok (a,{ s with mach := m })
  | .error e => .error (.vm e)

def beginOp : Kern Unit := modify fun s => { s with outstanding := s.outstanding + 1 }
def endOp : Kern Unit := modify fun s => { s with outstanding := s.outstanding - 1 }

def ilock (ip : ℕ) : Kern Unit := modify fun s => { s with held := Function.update s.held ip true }

def iunlockput (ip : ℕ) : Kern Unit := do
  if !(← get).held ip then throw .iunlock
  else modify fun s => { s with
    held := Function.update s.held ip false
    ref := Function.update s.ref ip (s.ref ip - 1) }

/-- The loop that looks for the last element of the path. -/
def scanName : List UInt8 → List UInt8 → List UInt8
  | last, [] => last
  | last, c :: s => scanName (if c = 47 then s else last) s

/-- `safestrcpy(curproc->name, last, sizeof(curproc->name))` -/
def procName (path : List UInt8) : List UInt8 := (scanName path path).take 15

variable (k : Kernel) (lookup : List UInt8 → Option ℕ) (file : ℕ → File)

def namei (path : List UInt8) : Kern (Option ℕ) := do
  match lookup path with
  | none => return none
  | some ip =>
    modify fun s => { s with ref := Function.update s.ref ip (s.ref ip + 1) }
    return some ip

/-- The way out of a failure: the new directory and the inode, as far as they are there -/
def bad (pgdir ip : Option ℕ) : Kern Bool := do
  match pgdir with
  | none => pure ()
  | some d => vm (Vm.freevm k d)
  match ip with
  | none => return false
  | some ip =>
    iunlockput ip
    endOp
    return false

/-- `exec`: `false` stands for -1 -/
def exec (path : List UInt8) (argv : List (List UInt8)) : Kern Bool := do
  beginOp
  match ← namei lookup path with
  | none =>
    endOp
    return false
  | some ip =>
    ilock ip
    if (file ip).readi 0 52 ≠ some 52 then bad k none (some ip)
    else if (file ip).magic ≠ elfMagic then bad k none (some ip)
    else
      match ← vm (Vm.setupkvm k) with
      | none => bad k none (some ip)
      | some pgdir =>
        match ← vm (Vm.loadSegments k (file ip) pgdir (file ip).phnum (file ip).phoff 0) with
        | none => bad k (some pgdir) (some ip)
        | some sz =>
          iunlockput ip
          endOp
          let sz ← vm (Vm.allocuvm k pgdir (pgroundup sz) (u32 (pgroundup sz + 2 * pgsize)))
          if sz = 0 then bad k (some pgdir) none
          else
            vm (Vm.clearpteu pgdir (sub32 sz (2 * pgsize)))
            match ← vm (Vm.pushArgs pgdir sz [] argv) with
            | none => bad k (some pgdir) none
            | some (sp,ptrs) =>
              let sp' := sub32 sp ((3 + ptrs.length + 1) * 4)
              if ← vm (Vm.copyout pgdir sp' (Vm.wordBytes (Vm.ustack sp ptrs)) ((3 + ptrs.length + 1) * 4)) then
                let oldpgdir := (← get).task.pgdir
                modify fun s => { s with task := ⟨pgdir,sz,⟨(file ip).entry,sp'⟩,procName path⟩ }
                vm (Vm.freevm k oldpgdir)
                return true
              else bad k (some pgdir) none

/-! ## The steps outside of memory -/

variable {k lookup file} {s : Sys} {ip d : ℕ} {m m' : Machine} {path : List UInt8} {argv : List (List UInt8)}

theorem vm_ok {α : Type} {x : Vm α} {a : α} (h : x s.mach = .ok (a,m)) : vm x s = .ok (a,{ s with mach := m }) := by
  unfold vm
  rw [h]

/-- The state while `exec` holds the inode, and the state after it has let go of it. -/
def taken (s : Sys) (ip : ℕ) (m : Machine) : Sys :=
  ⟨m,s.task,s.outstanding + 1,Function.update s.ref ip (s.ref ip + 1),Function.update s.held ip true⟩

def released (s : Sys) (ip : ℕ) (m : Machine) : Sys :=
  { s with mach := m, held := Function.update s.held ip false }

theorem vm_taken {α : Type} {x : Vm α} {a : α} (h : x m = .ok (a,m')) :
    vm x (taken s ip m) = .ok (a,taken s ip m') := vm_ok h

theorem vm_released {α : Type} {x : Vm α} {a : α} (h : x m = .ok (a,m')) :
    vm x (released s ip m) = .ok (a,released s ip m') := vm_ok h

theorem release_taken {α : Type} (s : Sys) (ip : ℕ) (m : Machine) (x : Kern α) :
    (do iunlockput ip; endOp; x) (taken s ip m) = x (released s ip m) := by
  have hun : iunlockput ip (taken s ip m) =
      .ok ((),{ released s ip m with outstanding := s.outstanding + 1 }) := by
    unfold iunlockput
    rw [bind_ok get_ok]
    unfold taken released
    simp
  rw [bind_ok hun]
  rfl

theorem bad_taken (s : Sys) (ip : ℕ) (m : Machine) :
    bad k none (some ip) (taken s ip m) = .ok (false,released s ip m) :=
  release_taken s ip m (pure false)

theorem bad_taken_dir (h : Vm.freevm k d m = .ok ((),m')) :
    bad k (some d) (some ip) (taken s ip m) = .ok (false,released s ip m') := by
  unfold bad
  dsimp only
  rw [bind_ok (vm_taken h)]
  exact release_taken s ip m' (pure false)

theorem bad_released (h : Vm.freevm k d m = .ok ((),m')) :
    bad k (some d) none (released s ip m) = .ok (false,released s ip m') := by
  unfold bad
  dsimp only
  rw [bind_ok (vm_released h)]
  rfl

/-- What `exec` makes of a run of the part that works on memory. -/
def finish (s : Sys) (ip : ℕ) (path : List UInt8) (m : Machine) : Option Vm.Image → Bool × Sys
  | none => (false,released s ip m)
  | some im => (true,{ released s ip m with task := ⟨im.pgdir,im.sz,⟨im.eip,im.esp⟩,procName path⟩ })

/-- The second half of `exec`, from the arguments on. -/
def pushAndCommit (k : Kernel) (f : File) (path : List UInt8) (argv : List (List UInt8)) (pgdir sz : ℕ) : Kern Bool := do
  match ← vm (Vm.pushArgs pgdir sz [] argv) with
  | none => bad k (some pgdir) none
  | some (sp,ptrs) =>
    let sp' := sub32 sp ((3 + ptrs.length + 1) * 4)
    if ← vm (Vm.copyout pgdir sp' (Vm.wordBytes (Vm.ustack sp ptrs)) ((3 + ptrs.length + 1) * 4)) then
      let oldpgdir := (← get).task.pgdir
      modify fun s => { s with task := ⟨pgdir,sz,⟨f.entry,sp'⟩,procName path⟩ }
      vm (Vm.freevm k oldpgdir)
      return true
    else bad k (some pgdir) none

theorem pushAndCommit_ok {f : File} {sz : ℕ} {r : Option Vm.Image} (hrun : (do
      match ← Vm.pushArgs d sz [] argv with
      | none =>
        Vm.freevm k d
        return none
      | some (sp,ptrs) =>
        let sp' := sub32 sp ((3 + ptrs.length + 1) * 4)
        if ← Vm.copyout d sp' (Vm.wordBytes (Vm.ustack sp ptrs)) ((3 + ptrs.length + 1) * 4) then
          Vm.freevm k s.task.pgdir
          return some ⟨d,sz,f.entry,sp'⟩
        else
          Vm.freevm k d
          return none : Vm (Option Vm.Image)) m = .ok (r,m')) :
    pushAndCommit k f path argv d sz (released s ip m) = .ok (finish s ip path m' r) := by
  have hbad : ∀ {m1 : Machine}, (do Vm.freevm k d; return none : Vm (Option Vm.Image)) m1 = .ok (r,m') →
      bad k (some d) none (released s ip m1) = .ok (finish s ip path m' r) := by
    intro m1 h
    obtain ⟨_,m2,hfree,hret⟩ := bind_eq_ok h
    cases hret
    exact bad_released hfree
  obtain ⟨a,m1,hpush,hrest⟩ := bind_eq_ok hrun
  unfold pushAndCommit
  rw [bind_ok (vm_released hpush)]
  cases a with
  | none => exact hbad hrest
  | some p =>
    dsimp only at hrest ⊢
    obtain ⟨b,m2,hcopy,hrest⟩ := bind_eq_ok hrest
    rw [bind_ok (vm_released hcopy)]
    cases b with
    | false => exact hbad hrest
    | true =>
      obtain ⟨_,m3,hfree,hret⟩ := bind_eq_ok hrest
      cases hret
      rw [if_pos rfl, bind_ok get_ok, bind_ok (modify_ok _)]
      exact bind_ok (vm_ok hfree)

/-- `exec` of a file that was found does what the part on memory does, and it lets go of the
transaction and the inode. -/
theorem exec_found {r : Option Vm.Image} (hip : lookup path = some ip)
    (hrun : Vm.exec k (file ip) argv s.task.pgdir s.mach = .ok (r,m')) :
    exec k lookup file path argv s = .ok (finish s ip path m' r) := by
  have hstart : exec k lookup file path argv s = (do
      if (file ip).readi 0 52 ≠ some 52 then bad k none (some ip)
      else if (file ip).magic ≠ elfMagic then bad k none (some ip)
      else
        match ← vm (Vm.setupkvm k) with
        | none => bad k none (some ip)
        | some pgdir =>
          match ← vm (Vm.loadSegments k (file ip) pgdir (file ip).phnum (file ip).phoff 0) with
          | none => bad k (some pgdir) (some ip)
          | some sz =>
            iunlockput ip
            endOp
            let sz ← vm (Vm.allocuvm k pgdir (pgroundup sz) (u32 (pgroundup sz + 2 * pgsize)))
            if sz = 0 then bad k (some pgdir) none
            else
              vm (Vm.clearpteu pgdir (sub32 sz (2 * pgsize)))
              pushAndCommit k (file ip) path argv pgdir sz) (taken s ip s.mach) := by
    unfold exec beginOp
    rw [bind_ok (modify_ok _)]
    unfold namei
    rw [hip]
    rfl
  rw [hstart]
  obtain ⟨a,m1,hload,hrest⟩ := bind_eq_ok hrun
  unfold Vm.loadImage at hload
  split at hload
  · rename_i hread
    cases hload
    cases hrest
    rw [if_pos hread]
    exact bad_taken s ip s.mach
  rename_i hread
  split at hload
  · rename_i hmagic
    cases hload
    cases hrest
    rw [if_neg hread, if_pos hmagic]
    exact bad_taken s ip s.mach
  rename_i hmagic
  rw [if_neg hread, if_neg hmagic]
  obtain ⟨b,m2,hsetup,hload⟩ := bind_eq_ok hload
  rw [bind_ok (vm_taken hsetup)]
  cases b with
  | none =>
    cases hload
    cases hrest
    exact bad_taken s ip _
  | some d =>
    dsimp only at hload ⊢
    obtain ⟨c,m3,hseg,hload⟩ := bind_eq_ok hload
    rw [bind_ok (vm_taken hseg)]
    cases c with
    | none =>
      obtain ⟨_,m4,hfree,hret⟩ := bind_eq_ok hload
      cases hret
      cases hrest
      exact bad_taken_dir hfree
    | some sz =>
      dsimp only at hload ⊢
      rw [release_taken]
      obtain ⟨sz',m4,halloc,hload⟩ := bind_eq_ok hload
      rw [bind_ok (vm_released halloc)]
      split at hload
      · rename_i hzero
        obtain ⟨_,m5,hfree,hret⟩ := bind_eq_ok hload
        cases hret
        cases hrest
        rw [if_pos hzero]
        exact bad_released hfree
      · rename_i hzero
        obtain ⟨_,m5,hclear,hret⟩ := bind_eq_ok hload
        cases hret
        rw [if_neg hzero, bind_ok (vm_released hclear)]
        exact pushAndCommit_ok hrest

/-! ## All or nothing -/

variable {all oth : Multiset ℕ} {f : File} {old : ℕ}

/-- Strings that are together shorter than the image do not wrap the stack pointer around. -/
theorem not_hitsGap_of_short {top : ℕ} (argv : List (List UInt8)) : ∀ t : ℕ,
    (argv.map List.length).sum < top → t ≤ 4096 → ¬ HitsGap top t argv := by
  induction argv with
  | nil =>
    rintro t - - ⟨t',h,-⟩
    cases h
  | cons a rest ih =>
    rintro t hshort ht ⟨t',hover,hlow,hhigh⟩
    rw [List.map_cons, List.sum_cons] at hshort
    rw [firstOver] at hover
    split at hover
    · cases hover
      unfold padded devspace at hlow
      omega
    · rename_i hfit
      unfold pgsize at hfit
      exact ih (t + padded a) (by omega) (by omega) ⟨t',hover,hlow,hhigh⟩

theorem length_le_sum {a : List UInt8} (argv : List (List UInt8)) (h : a ∈ argv) :
    a.length ≤ (argv.map List.length).sum :=
  List.le_sum_of_mem (List.mem_map_of_mem h)

/-- Every segment of a program that was started passed the checks. -/
theorem exec_checked {im : Vm.Image} (hrun : Vm.exec k f argv old m = .ok (some im,m')) :
    ∀ i < f.phnum, f.Loads (f.header i) → f.Checked (f.header i) := by
  obtain ⟨a,m1,hload,hrest⟩ := bind_eq_ok hrun
  unfold Vm.loadImage at hload
  split at hload
  · cases hload
    cases hrest
  split at hload
  · cases hload
    cases hrest
  obtain ⟨b,m2,-,hload⟩ := bind_eq_ok hload
  cases b with
  | none =>
    cases hload
    cases hrest
  | some d =>
    obtain ⟨c,m3,hseg,hload⟩ := bind_eq_ok hload
    cases c with
    | none =>
      obtain ⟨_,m4,-,hret⟩ := bind_eq_ok hload
      cases hret
      cases hrest
    | some sz => exact Vm.loadSegments_checked f.phnum m2 f.phoff 0 (load32_lt _ _) hseg

/-- The memory of the new image: `sz` and everything in the address space. -/
structure Installed (m m' : Machine) (f : File) (old pgdir sz : ℕ) : Prop where
  lt : sz < kernbase
  mapped : ∀ va < sz, present (pteOf m'.mem pgdir va) = true
  guarded : ∀ va, sz - 2 * pgsize ≤ va → va < sz - pgsize → user (pteOf m'.mem pgdir va) = false
  freed : vmPages m.mem old ≤ m'.freelist
  segments : f.SegmentsApart → ∀ i < f.phnum, f.Loads (f.header i) → ∀ x < f.phMemsz (f.header i),
    userByte m'.mem pgdir (f.phVaddr (f.header i) + x) =
      some (if x < f.phFilesz (f.header i) then f.bytes (f.phOff (f.header i) + x) else 0)

/-- `exec` on memory, for strings that are together shorter than the image. -/
theorem exec_memory (h : Dir k all m old oth) (hshort : (argv.map List.length).sum < f.stackTop) :
    ∃ r m', Vm.exec k f argv old m = .ok (r,m') ∧
      (r = none → SamePages m.mem m'.mem (vmPages m.mem old + oth) ∧
        (m'.freelist : Multiset ℕ) = m.freelist) ∧
      ∀ im, r = some im → Installed m m' f old im.pgdir im.sz := by
  have hsame_free : ∀ m', Dir k all m' old oth → SamePages m.mem m'.mem (vmPages m.mem old + oth) →
      (m'.freelist : Multiset ℕ) = m.freelist := by
    intro m' h' hsame
    have hvm : vmPages m'.mem old = vmPages m.mem old :=
      vmPages_congr (hsame.mono ((Dir.tables_le_vm m.mem old).trans (Multiset.le_add_right _ _)))
    have ho := h'.owned
    rw [hvm, ← h.owned] at ho
    exact add_right_cancel ho
  by_cases htop : f.stackTop < 0x80000000
  · have hlen : ∀ a ∈ argv, a.length + 1 < 0x80000000 := fun a ha => by
      have := length_le_sum argv ha
      omega
    rcases Vm.exec_spec (f := f) h hlen (not_hitsGap_of_short argv 0 hshort (Nat.zero_le _)) with
      ⟨m',hrun,h',hsame⟩ | ⟨im,m',hrun,-,-,hst,hfree,-,htop',himage⟩
    · exact ⟨none,m',hrun,fun _ => ⟨hsame,hsame_free m' h' hsame⟩,fun _ hr => (by cases hr)⟩
    · refine ⟨some im,m',hrun,fun hr => (by cases hr),fun im' hr => ?_⟩
      cases hr
      have hlow := hst.low
      have hlt := hst.lt
      have hal := hst.aligned
      refine ⟨hlt,fun va hva => (hst.maps va (by omega)).mpr (by omega),fun va h1 h2 => ?_,hfree,
        fun hapart i hi hload x hx => ?_⟩
      · unfold pgsize at h1 h2
        exact Bool.eq_false_iff.mpr fun hc => (hst.accessible va (by omega)).mp hc ⟨h1,h2⟩
      · have hck := exec_checked hrun
        have hend := File.segment_le_imageEnd (f := f) f.phnum f.phoff 0 i (load32_lt _ _) hi hload
        have hno : f.phVaddr (f.header i) + f.phMemsz (f.header i) < 2 ^ 32 := (hck i hi hload).2
        change u32 (f.phVaddr (f.header i) + f.phMemsz (f.header i)) ≤ _ at hend
        rw [u32_of_lt hno] at hend
        rw [himage _ (by omega), File.image_segment hapart hck hi hload hx]
  · -- the image does not fit below `KERNBASE`, so that the strings are not looked at
    rcases Vm.loadImage_spec (f := f) h.pool h.owned with ⟨m1,hrun,ho,hsame⟩ | ⟨d,m1,-,-,-,hst,-⟩
    · refine ⟨none,m1,?_,fun _ => ⟨hsame,?_⟩,fun _ hr => (by cases hr)⟩
      · unfold Vm.exec
        rw [bind_ok hrun]
        rfl
      · rw [← h.owned] at ho
        exact add_right_cancel ho
    · exact absurd hst.lt htop

/-- A process that starts the program without segments. -/
def smallSys : Sys := ⟨smallMachine,⟨0x80400000,0,⟨0,0⟩,[]⟩,0,fun _ => 0,fun _ => false⟩

end X86OsDev.Xv6.ExecCall
