import X86OsDev.Lib.Memory
import X86OsDev.Xv6.Param

/-! # Disk blocks

A block is `BSIZE` bytes. Its fields are read and written through the byte
memory it gives, so that the kernel's casts of `b->data` are loads and stores
at fixed offsets.
-/
namespace X86OsDev.Xv6
open Memory

def Block := Fin bsize → UInt8

namespace Block

/-- The bytes of a block as a memory, zero past its end. -/
def mem (b : Block) : Mem := fun i => if h : i < bsize then b ⟨i,h⟩ else 0

def ofMem (m : Mem) : Block := fun i => m i

def zero : Block := fun _ => 0

theorem mem_ofMem {m : Mem} {i : ℕ} (h : i < bsize) : (ofMem m).mem i = m i := by
  simp [mem, ofMem, h]

theorem sameOn_mem_ofMem (m : Mem) {a n : ℕ} (h : a + n ≤ bsize) : SameOn (ofMem m).mem m a n :=
  fun _ _ hx => mem_ofMem (by omega)

/-- The `uint` at a byte offset. -/
def word (b : Block) (o : ℕ) : ℕ := load32 b.mem o

def setWord (b : Block) (o v : ℕ) : Block := ofMem (store32 b.mem o v)

theorem word_lt (b : Block) (o : ℕ) : b.word o < 2 ^ 32 := load32_lt _ _

theorem word_setWord (b : Block) {o : ℕ} (v : ℕ) (h : o + 4 ≤ bsize) :
    (b.setWord o v).word o = v % 2 ^ 32 := by
  unfold word setWord
  rw [load32_congr (sameOn_mem_ofMem _ h), load32_store32]

theorem word_setWord_of_apart (b : Block) {o p : ℕ} (v : ℕ) (h : Apart o 4 p 4) (hp : p + 4 ≤ bsize) :
    (b.setWord o v).word p = b.word p := by
  unfold word setWord
  rw [load32_congr (sameOn_mem_ofMem _ hp), load32_store32_of_apart _ _ h]

theorem word_zero (o : ℕ) : zero.word o = 0 := by
  have h : SameOn zero.mem (fill zero.mem o 4 0) o 4 := by
    intro x h1 h2
    have hz : zero.mem x = 0 := by
      unfold mem zero
      split <;> rfl
    rw [hz, fill, if_pos ⟨h1,h2⟩]
  unfold word
  rw [load32_congr h, load32_fill_zero _ le_rfl le_rfl]

end Block

end X86OsDev.Xv6
