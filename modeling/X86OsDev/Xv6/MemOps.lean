import Mathlib.Tactic.IntervalCases
import X86OsDev.Xv6.X86

/-! # The memory primitives of the kernel and of the user library (string.c, ulib.c)

The two `memset` store the same bytes in the same order. The `memmove` of the kernel
goes downwards when it has to, and that of the user library does not.
-/
namespace X86OsDev.Xv6
open Memory Copying

/-- `while(n-- > 0) *d++ = *s++;` -/
def moveUp (m : Mem) (d s n : ℕ) : Mem :=
  (List.range n).foldl (fun m i => storeByte m (d + i) (m (u32 (s + i)))) m

/-- `while(n-- > 0) *--d = *--s;` from the ends of the ranges -/
def moveDown (m : Mem) (d s n : ℕ) : Mem :=
  (List.range n).foldr (fun i m => storeByte m (d + i) (m (u32 (s + i)))) m

namespace Kernel

/-- `memset` of string.c -/
def memset (m : Mem) (dst : ℕ) (c : BitVec 32) (n : ℕ) : Mem × ℕ :=
  if (sint32 dst).tmod 4 = 0 ∧ n % 4 = 0 then
    let c := c &&& 0xFF
    (stosl m dst (c <<< 24 ||| c <<< 16 ||| c <<< 8 ||| c) (n / 4),dst)
  else (stosb m dst c n,dst)

/-- `memmove` of string.c -/
def memmove (m : Mem) (dst src n : ℕ) : Mem × ℕ :=
  if src < dst ∧ dst < u32 (src + n) then (moveDown m dst src n,dst) else (moveUp m dst src n,dst)

/-- `memcpy` -/
def memcpy (m : Mem) (dst src n : ℕ) : Mem × ℕ := memmove m dst src n

end Kernel

namespace Ulib

/-- `memset` of ulib.c -/
def memset (m : Mem) (dst : ℕ) (c : BitVec 32) (n : ℕ) : Mem × ℕ := (stosb m dst c n,dst)

/-- `memmove` of ulib.c, where `n` is an `int` -/
def memmove (m : Mem) (dst src n : ℕ) : Mem × ℕ := (moveUp m dst src (sint32 n).toNat,dst)

end Ulib

section Memset
variable (c : BitVec 32)

/-- The word that `memset` makes of its argument has four equal bytes. -/
theorem byteOf_replicated {j : ℕ} (hj : j < 4) :
    byteOf ((c &&& 0xFF) <<< 24 ||| (c &&& 0xFF) <<< 16 ||| (c &&& 0xFF) <<< 8 ||| c &&& 0xFF) j = byteOf c 0 := by
  unfold byteOf
  congr 1
  ext i hi
  interval_cases j <;> interval_cases i <;> simp

theorem memset_agrees (m : Mem) (dst n : ℕ) : Kernel.memset m dst c n = Ulib.memset m dst c n := by
  unfold Kernel.memset Ulib.memset
  split
  · rename_i h
    have hn : 4 * (n / 4) = n := by omega
    dsimp only
    rw [stosl_eq_stosb m dst fun j hj => byteOf_replicated c hj, hn]
  · rfl

end Memset

section Memmove
variable (m : Mem) {d s n : ℕ}

/-- Without a wrap the loops copy between plain ranges. -/
theorem moveUp_eq (hs : s + n ≤ 2 ^ 32) (hd : d + n ≤ 2 ^ 32) : moveUp m d s n = copyUp m d s n := by
  refine foldl_congr (fun i hi m => ?_) m
  have hi := List.mem_range.mp hi
  rw [storeByte, u32_of_lt (by omega), u32_of_lt (by omega)]

theorem moveDown_eq (hs : s + n ≤ 2 ^ 32) (hd : d + n ≤ 2 ^ 32) : moveDown m d s n = copyDown m d s n := by
  unfold moveDown copyDown
  rw [← List.foldl_reverse, ← List.foldl_reverse]
  refine foldl_congr (fun i hi m => ?_) m
  have hi := List.mem_range.mp (List.mem_reverse.mp hi)
  rw [storeByte, u32_of_lt (by omega), u32_of_lt (by omega)]

theorem copyUp_of_apart (h : ¬ (s < d ∧ d < s + n)) : copyUp m d s n = moved m d s n :=
  (copyUp_eq_moved_iff m).mpr fun hlt k hk hkn => absurd ⟨hlt,by omega⟩ h

/-- The kernel moves the bytes, whatever the ranges have in common. -/
theorem Kernel.memmove_eq (hs : s + n ≤ 2 ^ 32) (hd : d + n ≤ 2 ^ 32) :
    Kernel.memmove m d s n = (moved m d s n,d) := by
  unfold Kernel.memmove
  rw [moveUp_eq m hs hd, moveDown_eq m hs hd]
  by_cases h : s < d ∧ d < s + n
  · have hend : u32 (s + n) = s + n := u32_of_lt (by omega)
    rw [if_pos (by rwa [hend]), copyDown_eq_moved m h.1.le]
  · have hend : ¬ (s < d ∧ d < u32 (s + n)) := fun hlt => h ⟨hlt.1,hlt.2.trans_le (Nat.mod_le _ _)⟩
    rw [if_neg hend, copyUp_of_apart m h]

/-- What the user library needs of the memory: no source byte that is overwritten before it is
read, unless it repeats, and nothing to copy when the count is negative as an `int`. -/
def UserMoves (m : Mem) (d s n : ℕ) : Prop :=
  if n < 2 ^ 31 then s < d → d < s + n → Periodic m s n (d - s) else ∀ i < n, m (s + i) = m (d + i)

theorem moved_eq_self_iff : m = moved m d s n ↔ ∀ i < n, m (s + i) = m (d + i) := by
  constructor
  · intro h i hi
    rw [← moved_add m hi, ← h]
  · intro h
    funext x
    by_cases hx : d ≤ x ∧ x < d + n
    · obtain ⟨k,rfl⟩ := Nat.exists_eq_add_of_le hx.1
      rw [moved_add m (by omega), h k (by omega)]
    · rw [moved_of_not_mem m hx]

theorem Ulib.memmove_eq_iff (hs : s + n ≤ 2 ^ 32) (hd : d + n ≤ 2 ^ 32) :
    Ulib.memmove m d s n = (moved m d s n,d) ↔ UserMoves m d s n := by
  unfold Ulib.memmove UserMoves
  rw [Prod.mk.injEq, and_iff_left rfl]
  by_cases hn : n < 2 ^ 31
  · rw [if_pos hn, sint32_of_lt hn, Int.toNat_natCast, moveUp_eq m hs hd, copyUp_eq_moved_iff]
    exact ⟨fun h hlt _ => h hlt,fun h hlt k hk hkn => h hlt (by omega) k hk hkn⟩
  · have hneg : (sint32 n).toNat = 0 := by
      unfold sint32
      rw [if_neg hn]
      omega
    rw [if_neg hn, hneg]
    exact moved_eq_self_iff m

end Memmove

/-- The kernel moves the bytes of every two ranges, and the two `memset` agree. The `memmove` of
the user library agrees with the kernel's under its condition only. -/
theorem primitives_agree (m : Mem) (dst src n : ℕ) (hsrc : src + n ≤ 2 ^ 32) (hdst : dst + n ≤ 2 ^ 32) :
    (Kernel.memmove m dst src n = Ulib.memmove m dst src n ∧
      Kernel.memmove m dst src n = (moved m dst src n,dst) ∧
      ∀ (m : Mem) (dst n : ℕ) (c : BitVec 32), Kernel.memset m dst c n = Ulib.memset m dst c n) ↔
    UserMoves m dst src n := by
  have hkernel := Kernel.memmove_eq m hsrc hdst
  have hset : ∀ (m : Mem) (dst n : ℕ) (c : BitVec 32), Kernel.memset m dst c n = Ulib.memset m dst c n :=
    fun m dst n c => memset_agrees c m dst n
  rw [← Ulib.memmove_eq_iff m hsrc hdst, hkernel, and_iff_left ⟨rfl,hset⟩]
  exact eq_comm

theorem primitives_agree_apart : (Ulib.memmove (fun x => UInt8.ofNat x) 8 0 4).1 10 = 2 := by
  have h := (primitives_agree (fun x => UInt8.ofNat x) 8 0 4 (by decide) (by decide)).mpr
    (fun _ h => absurd h (by decide))
  rw [← h.1, h.2.1]
  decide

/-- A range that is moved up by one byte is filled with its first byte by the user library. -/
theorem user_memmove_repeats : (Kernel.memmove (fun x => UInt8.ofNat x) 1 0 3).1 3 = 2 ∧
    (Ulib.memmove (fun x => UInt8.ofNat x) 1 0 3).1 3 = 0 := by decide

end X86OsDev.Xv6
