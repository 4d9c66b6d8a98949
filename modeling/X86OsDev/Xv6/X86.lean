import Mathlib.Data.BitVec
import X86OsDev.Lib.Copying
import X86OsDev.Lib.Memory

/-! # String instructions (x86.h)

The address of each byte is computed modulo the size of the address space, and the
count is the whole register.
-/
namespace X86OsDev.Xv6
open Memory Copying

/-- `m[a] = v` -/
def storeByte (m : Mem) (a : ℕ) (v : UInt8) : Mem := Function.update m (u32 a) v

/-- The byte of a register at an offset. -/
def byteOf (data : BitVec 32) (j : ℕ) : UInt8 := ⟨(data >>> (8 * j)).setWidth 8⟩

/-- `stosb` -/
def stosb (m : Mem) (addr : ℕ) (data : BitVec 32) (cnt : ℕ) : Mem :=
  (List.range cnt).foldl (fun m i => storeByte m (addr + i) (byteOf data 0)) m

/-- The four bytes of a word. -/
def storeWord (m : Mem) (a : ℕ) (data : BitVec 32) : Mem :=
  storeByte (storeByte (storeByte (storeByte m a (byteOf data 0)) (a + 1) (byteOf data 1)) (a + 2) (byteOf data 2))
    (a + 3) (byteOf data 3)

/-- `stosl` -/
def stosl (m : Mem) (addr : ℕ) (data : BitVec 32) (cnt : ℕ) : Mem :=
  (List.range cnt).foldl (fun m i => storeWord m (addr + 4 * i) data) m

/-- `insl`, where the port gives `words` one after the other. -/
def insl (m : Mem) (words : ℕ → BitVec 32) (addr cnt : ℕ) : Mem :=
  (List.range cnt).foldl (fun m i => storeWord m (addr + 4 * i) (words i)) m

theorem foldl_congr {α β : Type*} {f g : α → β → α} {l : List β} (h : ∀ b ∈ l, ∀ a, f a b = g a b) (a : α) :
    l.foldl f a = l.foldl g a := by
  induction l generalizing a with
  | nil => rfl
  | cons b l ih =>
    rw [List.foldl_cons, List.foldl_cons, h b List.mem_cons_self,
      ih fun c hc => h c (List.mem_cons_of_mem b hc)]

/-- `stosb` without a wrap -/
theorem stosb_eq_fill (m : Mem) {addr cnt : ℕ} (data : BitVec 32) (h : addr + cnt ≤ 2 ^ 32) :
    stosb m addr data cnt = fill m addr cnt (byteOf data 0) := by
  induction cnt with
  | zero =>
    funext x
    rw [fill, if_neg (by omega)]
    rfl
  | succ n ih =>
    funext x
    have hlast : u32 (addr + n) = addr + n := u32_of_lt (by omega)
    have ih := ih (by omega)
    unfold stosb at ih ⊢
    rw [List.range_succ, List.foldl_append, ih, List.foldl_cons, List.foldl_nil, storeByte, hlast]
    by_cases hx : x = addr + n
    · rw [hx, Function.update_self, fill, if_pos (by omega)]
    · rw [Function.update_of_ne hx]
      exact if_congr (by omega) rfl rfl

/-- `stosl` of a word with four equal bytes is `stosb`, also around the end of the memory. -/
theorem stosl_eq_stosb (m : Mem) (addr : ℕ) {word data : BitVec 32} (h : ∀ j < 4, byteOf word j = byteOf data 0)
    (cnt : ℕ) : stosl m addr word cnt = stosb m addr data (4 * cnt) := by
  induction cnt with
  | zero => rfl
  | succ n ih =>
    have hrange : List.range (4 * (n + 1)) = List.range (4 * n) ++ [4 * n,4 * n + 1,4 * n + 2,4 * n + 3] := by
      rw [show 4 * (n + 1) = 4 * n + 1 + 1 + 1 + 1 by omega]
      simp only [List.range_succ, List.append_assoc, List.cons_append, List.nil_append]
    unfold stosl stosb at ih ⊢
    rw [List.range_succ, List.foldl_append, ih, hrange, List.foldl_append]
    simp only [List.foldl_cons, List.foldl_nil, storeWord, h 0 (by omega), h 1 (by omega), h 2 (by omega),
      h 3 (by omega), Nat.add_assoc]

end X86OsDev.Xv6
