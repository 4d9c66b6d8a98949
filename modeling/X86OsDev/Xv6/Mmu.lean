import Mathlib.Data.Nat.Bitwise
import X86OsDev.Lib.Memory

/-! # Addresses and page table entries (mmu.h, memlayout.h) -/
namespace X86OsDev.Xv6
open Memory

def pgsize : ℕ := 4096
def extmem : ℕ := 0x100000
def phystop : ℕ := 0xE000000
def devspace : ℕ := 0xFE000000
def kernbase : ℕ := 0x80000000
def kernlink : ℕ := kernbase + extmem

def v2p (a : ℕ) : ℕ := sub32 a kernbase
def p2v (a : ℕ) : ℕ := u32 (a + kernbase)

def pdx (va : ℕ) : ℕ := va / 2 ^ 22 % 1024
def ptx (va : ℕ) : ℕ := va / 2 ^ 12 % 1024
def npdentries : ℕ := 1024

def pgroundup (sz : ℕ) : ℕ := u32 (sz + pgsize - 1) / pgsize * pgsize
def pgrounddown (a : ℕ) : ℕ := a / pgsize * pgsize

def pteP : ℕ := 1
def pteW : ℕ := 2
def pteU : ℕ := 4

/-- `PTE_ADDR` -/
def pteAddr (e : ℕ) : ℕ := e / pgsize * pgsize
/-- `PTE_FLAGS` -/
def pteFlags (e : ℕ) : ℕ := e % pgsize

/-- `e & PTE_P` -/
def present (e : ℕ) : Bool := e % 2 == 1
/-- `e & PTE_U` -/
def user (e : ℕ) : Bool := e / 4 % 2 == 1
/-- `e & ~PTE_U` -/
def clearU (e : ℕ) : ℕ := e - e / 4 % 2 * 4

section Entries
variable {a f e : ℕ}

theorem lor_eq_add (ha : a % 4096 = 0) (hf : f < 4096) : a ||| f = a + f := by
  obtain ⟨k,rfl⟩ : ∃ k, a = 2 ^ 12 * k := ⟨a / 4096,by omega⟩
  exact (Nat.two_pow_add_eq_or_of_lt hf k).symm

theorem pteAddr_add (ha : a % 4096 = 0) (hf : f < 4096) : pteAddr (a + f) = a := by
  unfold pteAddr pgsize
  omega

theorem pteFlags_add (ha : a % 4096 = 0) (hf : f < 4096) : pteFlags (a + f) = f := by
  unfold pteFlags pgsize
  omega

theorem present_add (ha : a % 4096 = 0) : present (a + f) = present f := by
  unfold present
  rw [show (a + f) % 2 = f % 2 by omega]

theorem user_add (ha : a % 4096 = 0) : user (a + f) = user f := by
  unfold user
  rw [show (a + f) / 4 % 2 = f / 4 % 2 by omega]

@[simp] theorem present_zero : present 0 = false := rfl
@[simp] theorem user_zero : user 0 = false := rfl

theorem pteAddr_mod (e : ℕ) : pteAddr e % 4096 = 0 := by
  unfold pteAddr pgsize
  omega

theorem pteAddr_le (e : ℕ) : pteAddr e ≤ e := by
  unfold pteAddr pgsize
  omega

theorem clearU_le (e : ℕ) : clearU e ≤ e := by
  unfold clearU
  omega

theorem present_clearU (e : ℕ) : present (clearU e) = present e := by
  unfold present clearU
  rw [show (e - e / 4 % 2 * 4) % 2 = e % 2 by omega]

theorem pteAddr_clearU (e : ℕ) : pteAddr (clearU e) = pteAddr e := by
  unfold pteAddr clearU pgsize
  omega

theorem user_clearU (e : ℕ) : user (clearU e) = false := by
  unfold user clearU
  rw [show (e - e / 4 % 2 * 4) / 4 % 2 = 0 by omega]
  rfl

end Entries

section Addresses
variable {v : ℕ}

theorem p2v_v2p (h : kernbase ≤ v) (hlt : v < 2 ^ 32) : p2v (v2p v) = v := by
  unfold p2v v2p
  rw [sub32_of_le h, u32_of_lt (by omega)]
  omega

theorem v2p_mod (h : kernbase ≤ v) (hv : v % 4096 = 0) : v2p v % 4096 = 0 := by
  unfold v2p
  rw [sub32_of_le h]
  unfold kernbase at *
  omega

theorem pgroundup_eq {sz : ℕ} (h : sz ≤ kernbase) : pgroundup sz = (sz + 4095) / 4096 * 4096 := by
  unfold kernbase at h
  unfold pgroundup pgsize
  rw [u32_of_lt (by omega)]
  omega

theorem pdx_lt (va : ℕ) : pdx va < 1024 := Nat.mod_lt _ (by decide)
theorem ptx_lt (va : ℕ) : ptx va < 1024 := Nat.mod_lt _ (by decide)

theorem pdx_of_lt {va : ℕ} (h : va < 2 ^ 32) : pdx va = va / 2 ^ 22 := by
  unfold pdx
  omega

end Addresses

attribute [irreducible] pdx ptx pteAddr present user

end X86OsDev.Xv6
