import X86OsDev.Xv6.PageSizes

/-! # The arguments of system calls (syscall.c)

The stack pointer and the arguments are 32 bit words that the user chose. The memory is
what the kernel sees of the address space of the process. Each function says which
addresses it reads.
-/
namespace X86OsDev.Xv6.Syscall
open Memory Pages Transition

/-- What a function returns, `none` for -1, and the addresses that it reads. -/
structure Fetched (α : Type) where
  result : Option α
  reads : List ℕ

section Functions
variable (sz : ℕ) (m : Mem)

def fetchint (addr : BitVec 32) : Fetched (BitVec 32) :=
  if sz ≤ addr.toNat ∨ sz < (addr + 4).toNat then ⟨none,[]⟩
  else ⟨some (BitVec.ofNat 32 (load32 m addr.toNat)),[addr.toNat,addr.toNat + 1,addr.toNat + 2,addr.toNat + 3]⟩

/-- The loop of `fetchstr` over the `n` bytes from `s` on: where the nul is -/
def scan : ℕ → ℕ → Fetched ℕ
  | 0, _ => ⟨none,[]⟩
  | n + 1, s => if m s = 0 then ⟨some s,[s]⟩ else ⟨(scan n (s + 1)).result,s :: (scan n (s + 1)).reads⟩

/-- `fetchstr`: the pointer and the length of the string -/
def fetchstr (addr : BitVec 32) : Fetched (ℕ × ℕ) :=
  if sz ≤ addr.toNat then ⟨none,[]⟩
  else
    let x := scan m (sz - addr.toNat) addr.toNat
    ⟨x.result.map fun s => (addr.toNat,s - addr.toNat),x.reads⟩

def argint (esp n : BitVec 32) : Fetched (BitVec 32) := fetchint sz m (esp + 4 + 4 * n)

def argptr (esp n size : BitVec 32) : Fetched ℕ :=
  let i := argint sz m esp n
  ⟨i.result.bind fun i => if size.toInt < 0 ∨ sz ≤ i.toNat ∨ sz < (i + size).toNat then none else some i.toNat,i.reads⟩

def argstr (esp n : BitVec 32) : Fetched (ℕ × ℕ) :=
  let addr := argint sz m esp n
  match addr.result with
  | none => ⟨none,addr.reads⟩
  | some a => ⟨(fetchstr sz m a).result,addr.reads ++ (fetchstr sz m a).reads⟩

end Functions

variable {sz : ℕ} {m : Mem} {esp n size : BitVec 32}

theorem fetchint_reads (hsz : sz < kernbase) (addr : BitVec 32) : ∀ x ∈ (fetchint sz m addr).reads, x < sz := by
  unfold kernbase at hsz
  rw [fetchint]
  split
  · exact fun x hx => absurd hx List.not_mem_nil
  · rename_i h
    -- below `KERNBASE` the sum does not wrap
    have hnext : (addr + 4).toNat = addr.toNat + 4 := by bv_omega
    intro x hx
    simp only [List.mem_cons, List.not_mem_nil, or_false] at hx
    omega

theorem scan_spec (n : ℕ) : ∀ s, (∀ x ∈ (scan m n s).reads, x < s + n) ∧
    ∀ e, (scan m n s).result = some e → s ≤ e ∧ e < s + n ∧ m e = 0 ∧ ∀ x, s ≤ x → x < e → m x ≠ 0 := by
  induction n with
  | zero => exact fun s => ⟨fun x hx => absurd hx List.not_mem_nil,fun e he => absurd he.symm (Option.some_ne_none e)⟩
  | succ n ih =>
    intro s
    obtain ⟨hreads,hres⟩ := ih (s + 1)
    rw [scan]
    by_cases h0 : m s = 0
    · rw [if_pos h0]
      constructor
      · intro x hx
        rw [List.mem_singleton.mp hx]
        omega
      · intro e he
        obtain rfl := Option.some.inj he
        exact ⟨le_rfl,by omega,h0,fun x h1 h2 => absurd h1 (Nat.not_le.mpr h2)⟩
    · rw [if_neg h0]
      constructor
      · intro x hx
        rcases List.mem_cons.mp hx with rfl | hx
        · omega
        · have := hreads x hx
          omega
      · intro e he
        obtain ⟨h1,h2,h3,h4⟩ := hres e he
        refine ⟨by omega,by omega,h3,fun x hx1 hx2 => ?_⟩
        rcases hx1.lt_or_eq with hlt | rfl
        · exact h4 x hlt hx2
        · exact h0

theorem fetchstr_spec (addr : BitVec 32) : (∀ x ∈ (fetchstr sz m addr).reads, x < sz) ∧
    ∀ a len, (fetchstr sz m addr).result = some (a,len) → a + len < sz ∧ m (a + len) = 0 ∧ ∀ j < len, m (a + j) ≠ 0 := by
  rw [fetchstr]
  split
  · exact ⟨fun x hx => absurd hx List.not_mem_nil,fun a len h => absurd h.symm (Option.some_ne_none _)⟩
  · rename_i h
    obtain ⟨hreads,hres⟩ := scan_spec (m := m) (sz - addr.toNat) addr.toNat
    constructor
    · intro x hx
      have := hreads x hx
      omega
    · intro a len hal
      obtain ⟨e,he,heq⟩ := Option.map_eq_some_iff.mp hal
      obtain ⟨rfl,rfl⟩ := Prod.mk.inj heq
      obtain ⟨h1,h2,h3,h4⟩ := hres e he
      have hend : addr.toNat + (e - addr.toNat) = e := by omega
      rw [hend]
      exact ⟨by omega,h3,fun j hj => h4 _ (Nat.le_add_right _ _) (by omega)⟩

theorem argptr_spec (hsz : sz < kernbase) : (∀ x ∈ (argptr sz m esp n size).reads, x < sz) ∧
    ∀ i, (argptr sz m esp n size).result = some i → 0 ≤ size.toInt ∧ i < sz ∧ i + size.toInt ≤ sz := by
  refine ⟨fetchint_reads hsz _,fun i hi => ?_⟩
  unfold kernbase at hsz
  obtain ⟨v,-,hv⟩ := Option.bind_eq_some_iff.mp hi
  split at hv
  · exact absurd hv.symm (Option.some_ne_none i)
  · rename_i h
    obtain rfl := Option.some.inj hv
    have hsize : size.toInt = size.toNat := by
      rw [BitVec.toInt_eq_toNat_cond] at h ⊢
      split at h
      · rename_i hlow
        rw [if_pos hlow]
      · omega
    have hsum : (v + size).toNat = v.toNat + size.toNat := by
      have hlow : size.toNat < 2 ^ 31 := by
        rw [BitVec.toInt_eq_toNat_cond] at hsize
        split at hsize
        · omega
        · omega
      bv_omega
    omega

theorem argstr_spec (hsz : sz < kernbase) : (∀ x ∈ (argstr sz m esp n).reads, x < sz) ∧
    ∀ a len, (argstr sz m esp n).result = some (a,len) → a + len < sz ∧ m (a + len) = 0 ∧ ∀ j < len, m (a + j) ≠ 0 := by
  have hargint : ∀ x ∈ (argint sz m esp n).reads, x < sz := fetchint_reads hsz _
  rw [argstr]
  cases hi : (argint sz m esp n).result with
  | none => exact ⟨hargint,fun a len h => absurd h.symm (Option.some_ne_none _)⟩
  | some addr =>
    obtain ⟨hreads,hres⟩ : _ ∧ _ := fetchstr_spec addr
    exact ⟨fun x hx => (List.mem_append.mp hx).elim (hargint x) (hreads x),hres⟩

/-- In every state every process is smaller than `KERNBASE`, so whatever the arguments are, the
kernel reads them inside of the process, and so are the blocks and strings that it accepts. -/
theorem arguments_inside {k : Kernel} {s : Sys} (h : Reachable (Booted k) (AnyStep k) s) (p : Fin nproc) (m : Mem)
    (esp n size : BitVec 32) : (s.proc p).sz < kernbase ∧
    (∀ x ∈ (argint (s.proc p).sz m esp n).reads, x < (s.proc p).sz) ∧
    ((∀ x ∈ (argptr (s.proc p).sz m esp n size).reads, x < (s.proc p).sz) ∧
      ∀ i, (argptr (s.proc p).sz m esp n size).result = some i →
        0 ≤ size.toInt ∧ i < (s.proc p).sz ∧ i + size.toInt ≤ (s.proc p).sz) ∧
    (∀ x ∈ (argstr (s.proc p).sz m esp n).reads, x < (s.proc p).sz) ∧
    ∀ a len, (argstr (s.proc p).sz m esp n).result = some (a,len) →
      a + len < (s.proc p).sz ∧ m (a + len) = 0 ∧ ∀ j < len, m (a + j) ≠ 0 :=
  have hsz := reached_sizes h p
  ⟨hsz,fetchint_reads hsz _,argptr_spec hsz,argstr_spec hsz⟩

theorem smallKernel_arguments_inside : ∃ s, Booted smallKernel s ∧ (s.proc s.initproc).sz < kernbase ∧
    ∀ x ∈ (argint (s.proc s.initproc).sz (fun _ => 0) 0xfffffff0 3).reads, x < (s.proc s.initproc).sz := by
  rcases main_spec smallKernel 1 [] (fun _ => 0) with ⟨-,hbad⟩ | ⟨s,hrun,-⟩
  · have hearly : earlyPages smallKernel = 746 := by decide
    simp [hearly] at hbad
  · have hboot : Booted smallKernel s := ⟨1,[],_,hrun⟩
    have hinside := arguments_inside (.base hboot) s.initproc (fun _ => 0) 0xfffffff0 3 0
    exact ⟨s,hboot,hinside.1,hinside.2.1⟩

end X86OsDev.Xv6.Syscall
