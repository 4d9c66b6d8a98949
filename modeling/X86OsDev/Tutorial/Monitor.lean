import X86OsDev.Lib.Numeral
import Mathlib.Data.BitVec
import Mathlib.Logic.Function.Basic

/-! # The monitor of the tutorial kernel (monitor.c)

The framebuffer is an array of 16 bit words and the VGA board a pair of ports. A
store into the framebuffer leaves its index behind, so that it can be seen where
a call writes. The functions that print take the function that puts one
character, so that they can be read without a screen.
-/
namespace X86OsDev.Tutorial.Monitor

/-- The value of an `unsigned char` and of an `unsigned short` expression. -/
def u8 (n : ℕ) : ℕ := n % 2 ^ 8
def u16 (n : ℕ) : ℕ := n % 2 ^ 16

/-- The registers of the VGA board: the one that is selected, and their values. -/
structure Vga where
  index : ℕ
  reg : ℕ → ℕ

/-- `outb` to the ports of the board -/
def outb (v : Vga) (port value : ℕ) : Vga :=
  if port = 0x3D4 then { v with index := u8 value }
  else if port = 0x3D5 then { v with reg := Function.update v.reg v.index (u8 value) }
  else v

/-- Where the board shows the cursor. -/
def Vga.cursor (v : Vga) : ℕ := v.reg 14 * 2 ^ 8 + v.reg 15

structure Display where
  videoMemory : ℕ → UInt16
  cursorX : ℕ
  cursorY : ℕ
  vga : Vga
  /-- the indexes of `video_memory` stored to so far -/
  stored : List ℕ

/-- `video_memory[i] = v` -/
def store (m : Display) (i : ℕ) (v : UInt16) : Display :=
  { m with videoMemory := Function.update m.videoMemory i v, stored := i :: m.stored }

/-- The colours of the text: white on black. -/
def attributeByte : UInt16 := (0 : UInt16) <<< 4 ||| (15 : UInt16) &&& 0x0F
/-- A space character with them. -/
def blank : UInt16 := (0x20 : UInt16) ||| attributeByte <<< 8

/-- `move_cursor` -/
def moveCursor (m : Display) : Display :=
  let cursorLocation := u16 (m.cursorY * 80 + m.cursorX)
  { m with vga := outb (outb (outb (outb m.vga 0x3D4 14) 0x3D5 (cursorLocation >>> 8)) 0x3D4 15) 0x3D5 cursorLocation }

/-- The loops of `scroll`: each line moves up, and the last one is cleared. -/
def scrollLines (m : Display) : Display :=
  (List.range' 0 (24 * 80)).foldl (fun m i => store m i (m.videoMemory (i + 80))) m
def clearLast (m : Display) : Display :=
  (List.range' (24 * 80) 80).foldl (fun m i => store m i blank) m

/-- `scroll` -/
def scroll (m : Display) : Display :=
  if 25 ≤ m.cursorY then { clearLast (scrollLines m) with cursorY := 24 } else m

/-- `c >= ' '`, where `char` is signed -/
def Printable (c : UInt8) : Prop := (32 : ℤ) ≤ c.toInt8.toInt

instance (c : UInt8) : Decidable (Printable c) := inferInstanceAs (Decidable (_ ≤ _))

/-- The word that is shown for a printable character. -/
def glyph (c : UInt8) : UInt16 := c.toUInt16 ||| attributeByte <<< 8

/-- The first part of `monitor_put`. `(cursor_x+8) & ~(8-1)` rounds down to a multiple of 8. -/
def putChar (m : Display) (c : UInt8) : Display :=
  if c = 0x08 ∧ m.cursorX ≠ 0 then { m with cursorX := m.cursorX - 1 }
  else if c = 0x09 then { m with cursorX := u8 ((m.cursorX + 8) / 8 * 8) }
  else if c = 13 then { m with cursorX := 0 }
  else if c = 10 then { m with cursorX := 0, cursorY := u8 (m.cursorY + 1) }
  else if Printable c then
    let m := store m (m.cursorY * 80 + m.cursorX) (glyph c)
    { m with cursorX := u8 (m.cursorX + 1) }
  else m

/-- The new line at the end of a line. -/
def wrap (m : Display) : Display :=
  if 80 ≤ m.cursorX then { m with cursorX := 0, cursorY := u8 (m.cursorY + 1) } else m

/-- `monitor_put` -/
def monitorPut (m : Display) (c : UInt8) : Display := moveCursor (scroll (wrap (putChar m c)))

/-- `monitor_clear` -/
def monitorClear (m : Display) : Display :=
  let m := (List.range' 0 (80 * 25)).foldl (fun m i => store m i blank) m
  moveCursor { m with cursorX := 0, cursorY := 0 }

section Print
variable {σ : Type} (put : σ → UInt8 → σ)

/-- `monitor_write`, of the bytes from the pointer on -/
def monitorWrite (s : σ) : List UInt8 → σ
  | [] => s
  | c :: cs => if c = 0 then s else monitorWrite (put s c) cs

/-- The two branches that put a digit of `monitor_write_hex`. -/
def putHex (s : σ) (tmp : ℕ) : σ :=
  if 0xA ≤ tmp then put s (UInt8.ofNat (tmp - 0xA + 97)) else put s (UInt8.ofNat (tmp + 48))

/-- The loop of `monitor_write_hex` over the shifts. -/
def hexLoop (n : BitVec 32) (noZeroes : Bool) (s : σ) : List ℕ → σ
  | [] => s
  | i :: is =>
    let tmp := (n >>> i &&& 0xF).toNat
    if tmp = 0 ∧ noZeroes = true then hexLoop n noZeroes s is
    else hexLoop n false (putHex put s tmp) is

/-- `monitor_write_hex` -/
def monitorWriteHex (s : σ) (n : BitVec 32) : σ :=
  let s := monitorWrite put s [48,120,0]
  let s := hexLoop put n true s [28,24,20,16,12,8,4]
  putHex put s (n &&& 0xF).toNat

/-- The first loop of `monitor_write_dec`, for at most as many rounds as `c` has bytes: the
buffer and the number of digits in it. -/
def decLoop : ℕ → ℤ → (ℕ → UInt8) → ℕ → (ℕ → UInt8) × ℕ
  | 0, _, c, i => (c,i)
  | k + 1, acc, c, i =>
    if 0 < acc then
      decLoop k (acc.tdiv 10) (Function.update c i (UInt8.ofNat (48 + acc.tmod 10).toNat)) (i + 1)
    else (c,i)

/-- The second loop, where the first argument is `i + 1`. -/
def reverseLoop (c : ℕ → UInt8) : ℕ → ℕ → (ℕ → UInt8) → ℕ → UInt8
  | 0, _, c2 => c2
  | i + 1, j, c2 => reverseLoop c i (j + 1) (Function.update c2 i (c j))

/-- `monitor_write_dec`. The last two arguments are what the buffers on the stack hold. -/
def monitorWriteDec (s : σ) (n : BitVec 32) (c c2 : ℕ → UInt8) : σ :=
  if n = 0 then put s 48
  else
    let r := decLoop 32 n.toInt c 0
    let c := Function.update r.1 r.2 0
    let c2 := reverseLoop c r.2 0 (Function.update c2 r.2 0)
    monitorWrite put s ((List.range 32).map c2)

end Print
end X86OsDev.Tutorial.Monitor
