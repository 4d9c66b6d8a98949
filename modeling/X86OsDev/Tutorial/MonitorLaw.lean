import X86OsDev.Lib.Terminal
import X86OsDev.Tutorial.MonitorNumbers

/-! # What the monitor shows

The screen is that of a terminal without a bottom which is given the same
characters. A new line is made at one place, whether a newline or the end of the
line asks for it, and the screen moves up there when its last line is full.
-/
namespace X86OsDev.Tutorial.Monitor
open Terminal

/-- The lines of the framebuffer. -/
def row (m : Display) (y : ℕ) : List UInt16 := (List.range 80).map fun x => m.videoMemory (y * 80 + x)

def screen (m : Display) : List (List UInt16) := (List.range 25).map (row m)

/-- What a character means to a terminal. -/
def typeChar (t : Terminal UInt16) (c : UInt8) : Terminal UInt16 :=
  Terminal.wrap 80 blank <|
    if c = 0x08 ∧ t.col ≠ 0 then t.moveTo (t.col - 1)
    else if c = 0x09 then t.moveTo ((t.col / 8 + 1) * 8)
    else if c = 13 then t.moveTo 0
    else if c = 10 then t.newline 80 blank
    else if Printable c then t.put (glyph c)
    else t

/-- The cursor and the screen are the terminal's. -/
structure Agrees (m : Display) (t : Terminal UInt16) : Prop where
  cursorCol : m.cursorX = t.col
  cursorRow : m.cursorY = t.cursor 25
  shown : screen m = t.screen 25 (blankLine 80 blank)

/-- The stores on the way from one state to the other go to indexes below `k`. -/
def StoresBelow (k : ℕ) (m m' : Display) : Prop := ∃ new, m'.stored = new ++ m.stored ∧ ∀ i ∈ new, i < k

/-- The monitor shows the terminal, and since `start` it stored to the screen only. -/
structure Shows (start m : Display) (t : Terminal UInt16) : Prop extends Agrees m t where
  cursorX_lt : m.cursorX < 80
  cursorY_lt : m.cursorY < 25
  stored : StoresBelow (80 * 25) start m
  hardware : m.vga.cursor = m.cursorY * 80 + m.cursorX

section Stores
variable {k l : ℕ} {m m' m'' : Display}

theorem StoresBelow.of_eq (h : m'.stored = m.stored) : StoresBelow k m m' := ⟨[],h,by simp⟩

theorem StoresBelow.store {i : ℕ} (v : UInt16) (h : StoresBelow k m m') (hi : i < k) :
    StoresBelow k m (store m' i v) := by
  obtain ⟨new,hnew,hlt⟩ := h
  refine ⟨i :: new,by rw [Monitor.store, hnew, List.cons_append],fun j hj => ?_⟩
  rcases List.mem_cons.mp hj with rfl | hj
  · exact hi
  · exact hlt j hj

theorem StoresBelow.mono (h : StoresBelow k m m') (hkl : k ≤ l) : StoresBelow l m m' := by
  obtain ⟨new,hnew,hlt⟩ := h
  exact ⟨new,hnew,fun i hi => (hlt i hi).trans_le hkl⟩

theorem StoresBelow.trans (h : StoresBelow k m m') (h' : StoresBelow k m' m'') : StoresBelow k m m'' := by
  obtain ⟨new,hnew,hlt⟩ := h
  obtain ⟨new',hnew',hlt'⟩ := h'
  refine ⟨new' ++ new,by rw [hnew', hnew, List.append_assoc],fun i hi => ?_⟩
  exact (List.mem_append.mp hi).elim (hlt' i) (hlt i)

end Stores

section Loops
variable (f : Display → ℕ → UInt16) (m : Display) (a n : ℕ)

/-- A loop of stores leaves the cursor alone and stores only to the indexes of its range. -/
theorem foldl_store :
    ((List.range' a n).foldl (fun m i => store m i (f m i)) m).cursorX = m.cursorX ∧
    StoresBelow (a + n) m ((List.range' a n).foldl (fun m i => store m i (f m i)) m) := by
  induction n with
  | zero => exact ⟨rfl,.of_eq rfl⟩
  | succ n ih =>
    obtain ⟨h1,h2⟩ := ih
    rw [List.range'_concat, List.foldl_append]
    exact ⟨h1,(h2.mono (Nat.le_succ _)).store _ (by omega)⟩

/-- The cells after a loop that clears them. -/
theorem foldl_blank (i : ℕ) : ((List.range' a n).foldl (fun m i => store m i blank) m).videoMemory i =
    if a ≤ i ∧ i < a + n then blank else m.videoMemory i := by
  induction n with
  | zero => rw [if_neg (by omega)]; rfl
  | succ n ih =>
    rw [List.range'_concat, List.foldl_append]
    change Function.update (Display.videoMemory _) (a + 1 * n) blank i = _
    by_cases hi : i = a + 1 * n
    · rw [hi, Function.update_self, if_pos (by omega)]
    · rw [Function.update_of_ne hi, ih]
      exact if_congr (by omega) rfl rfl

/-- The cells after the loop that moves the lines up. A cell is read before it is overwritten. -/
theorem foldl_up (i : ℕ) : ((List.range' 0 n).foldl (fun m i => store m i (m.videoMemory (i + 80))) m).videoMemory i =
    if i < n then m.videoMemory (i + 80) else m.videoMemory i := by
  induction n generalizing i with
  | zero => rfl
  | succ n ih =>
    rw [List.range'_concat, List.foldl_append]
    change Function.update (Display.videoMemory _) (0 + 1 * n) _ i = _
    rw [Nat.zero_add, Nat.one_mul]
    by_cases hi : i = n
    · subst hi
      rw [Function.update_self, ih, if_neg (by omega), if_pos (by omega)]
    · rw [Function.update_of_ne hi, ih]
      exact if_congr (by omega) rfl rfl

end Loops

section Rows
variable {m : Display}

@[simp] theorem length_row (m : Display) (y : ℕ) : (row m y).length = 80 := by simp [row]

@[simp] theorem length_screen (m : Display) : (screen m).length = 25 := by simp [screen]

/-- A store changes one cell of one line. -/
theorem row_store (m : Display) {x y : ℕ} (hx : x < 80) (v : UInt16) (y' : ℕ) :
    row (store m (y * 80 + x) v) y' = if y' = y then (row m y).set x v else row m y' := by
  refine List.ext_getElem (by split <;> simp) fun i hi _ => ?_
  rw [length_row] at hi
  by_cases hy : y' = y
  · subst hy
    simp only [if_pos, List.getElem_set, row, List.getElem_map, List.getElem_range, store]
    by_cases hix : x = i
    · subst hix
      rw [if_pos rfl, Function.update_self]
    · rw [if_neg hix, Function.update_of_ne (by omega)]
  · simp only [if_neg hy, row, List.getElem_map, List.getElem_range, store]
    rw [Function.update_of_ne (by omega)]

theorem screen_store (m : Display) {x y : ℕ} (hx : x < 80) (v : UInt16) :
    screen (store m (y * 80 + x) v) = (screen m).set y ((row m y).set x v) := by
  refine List.ext_getElem (by simp) fun i hi _ => ?_
  rw [List.getElem_set]
  simp only [screen, List.getElem_map, List.getElem_range]
  rw [row_store m hx]
  exact if_congr eq_comm rfl rfl

/-- `scroll` of a full screen -/
theorem screen_scroll (m : Display) : screen (clearLast (scrollLines m)) = (screen m).tail ++ [blankLine 80 blank] := by
  have hcell : ∀ i, (clearLast (scrollLines m)).videoMemory i =
      if 1920 ≤ i ∧ i < 2000 then blank else if i < 1920 then m.videoMemory (i + 80) else m.videoMemory i := by
    intro i
    rw [clearLast, foldl_blank, scrollLines, foldl_up]
  refine List.ext_getElem (by simp) fun y hy _ => ?_
  rw [length_screen] at hy
  simp only [screen, List.getElem_map, List.getElem_range]
  by_cases hlast : y < 24
  · rw [List.getElem_append_left (by simp; omega), List.getElem_tail, List.getElem_map, List.getElem_range]
    refine List.map_congr_left fun x hx => ?_
    have hx := List.mem_range.mp hx
    rw [hcell, if_neg (by omega), if_pos (by omega)]
    congr 1
    omega
  · rw [List.getElem_append_right (by simp; omega)]
    simp only [List.getElem_singleton]
    refine List.ext_getElem (by simp [blankLine]) fun x hx _ => ?_
    rw [length_row] at hx
    simp only [row, blankLine, List.getElem_map, List.getElem_range, List.getElem_replicate]
    rw [hcell, if_pos (by omega)]

end Rows

section Steps
variable {old : List ℕ} {m : Display} {t : Terminal UInt16}

theorem screen_congr {m' : Display} (h : m'.videoMemory = m.videoMemory) : screen m' = screen m := by
  unfold screen row
  rw [h]

theorem u8_of_lt {n : ℕ} (h : n < 2 ^ 8) : u8 n = n := Nat.mod_eq_of_lt h

theorem cursor_le (t : Terminal UInt16) : t.cursor 25 ≤ 24 := min_le_right _ _

/-- The board shows the cursor where `move_cursor` puts it. -/
theorem moveCursor_hardware (hx : m.cursorX < 80) (hy : m.cursorY < 25) :
    (moveCursor m).vga.cursor = m.cursorY * 80 + m.cursorX := by
  have hloc : u16 (m.cursorY * 80 + m.cursorX) = m.cursorY * 80 + m.cursorX := Nat.mod_eq_of_lt (by omega)
  have hhigh : (moveCursor m).vga.reg 14 = u8 ((m.cursorY * 80 + m.cursorX) >>> 8) := by
    simp [moveCursor, outb, hloc, u8]
  have hlow : (moveCursor m).vga.reg 15 = u8 (m.cursorY * 80 + m.cursorX) := by
    simp [moveCursor, outb, hloc, u8]
  rw [Vga.cursor, hhigh, hlow, Nat.shiftRight_eq_div_pow]
  unfold u8
  omega

theorem scroll_of_lt (h : m.cursorY < 25) : scroll m = m := if_neg (by omega)

/-- The loops of `scroll` leave the cursor alone and stay on the screen. -/
theorem clearLast_cursorX (m : Display) : (clearLast m).cursorX = m.cursorX := by
  unfold clearLast
  exact (foldl_store (fun _ _ => blank) m (24 * 80) 80).1

theorem scrollLines_cursorX (m : Display) : (scrollLines m).cursorX = m.cursorX := by
  unfold scrollLines
  exact (foldl_store (fun m i => m.videoMemory (i + 80)) m 0 (24 * 80)).1

theorem clearLast_stored (m : Display) : StoresBelow (80 * 25) m (clearLast m) := by
  unfold clearLast
  exact (foldl_store (fun _ _ => blank) m (24 * 80) 80).2.mono (by omega)

theorem scrollLines_stored (m : Display) : StoresBelow (80 * 25) m (scrollLines m) := by
  unfold scrollLines
  exact (foldl_store (fun m i => m.videoMemory (i + 80)) m 0 (24 * 80)).2.mono (by omega)

theorem scroll_of_le (h : 25 ≤ m.cursorY) : scroll m = { clearLast (scrollLines m) with cursorY := 24 } := if_pos h

/-- `scroll` with the cursor below the screen -/
theorem scroll_spec (h : 25 ≤ m.cursorY) : (scroll m).cursorX = m.cursorX ∧ (scroll m).cursorY = 24 ∧
    screen (scroll m) = (screen m).tail ++ [blankLine 80 blank] := by
  have hx := (clearLast_cursorX (scrollLines m)).trans (scrollLines_cursorX m)
  have hscreen := screen_scroll m
  rw [scroll_of_le h]
  generalize clearLast (scrollLines m) = m' at hx hscreen
  exact ⟨hx,rfl,(screen_congr rfl).trans hscreen⟩

theorem scroll_stored (m : Display) : StoresBelow (80 * 25) m (scroll m) := by
  by_cases h : 25 ≤ m.cursorY
  · rw [scroll_of_le h]
    have hloops := (scrollLines_stored m).trans (clearLast_stored (scrollLines m))
    generalize clearLast (scrollLines m) = m' at hloops
    exact hloops.trans (.of_eq rfl)
  · rw [scroll_of_lt (by omega)]
    exact .of_eq rfl

/-- The state after a newline, before `scroll`. -/
def lineFeed (m : Display) : Display := { m with cursorX := 0, cursorY := u8 (m.cursorY + 1) }

/-- A new line, which `scroll` makes room for at the bottom of the screen. -/
theorem Agrees.newline (h : Agrees m t) : Agrees (scroll (lineFeed m)) (t.newline 80 blank) := by
  have hle := cursor_le t
  have hfeed : (lineFeed m).cursorY = t.cursor 25 + 1 := by
    rw [← h.cursorRow]
    exact u8_of_lt (by rw [h.cursorRow]; omega)
  have hscreen : screen (lineFeed m) = t.screen 25 (blankLine 80 blank) := h.shown
  have hlen : (t.newline 80 blank).above.length = t.above.length + 1 := by
    simp [Terminal.newline, Terminal.rows]
  by_cases hroom : t.above.length < 24
  · have hrow : t.cursor 25 = t.above.length := min_eq_left (by omega)
    rw [scroll_of_lt (by omega)]
    refine ⟨rfl,?_,?_⟩
    · rw [hfeed, hrow, Terminal.cursor, hlen]
      exact (min_eq_left (by omega)).symm
    · rw [hscreen, Terminal.screen_newline_of_lt t blank (by omega)]
  · have hrow : t.cursor 25 = 24 := min_eq_right (by omega)
    obtain ⟨h1,h2,h3⟩ := scroll_spec (m := lineFeed m) (by omega)
    refine ⟨h1,?_,?_⟩
    · rw [h2, Terminal.cursor, hlen]
      exact (min_eq_right (by omega)).symm
    · rw [h3, hscreen, Terminal.screen_newline (by omega) t blank (by omega)]

/-- `wrap` and `scroll` after a character that makes no new line by itself. -/
theorem Agrees.wrap (h : Agrees m t) : Agrees (scroll (wrap m)) (t.wrap 80 blank) := by
  unfold Monitor.wrap Terminal.wrap
  rw [h.cursorCol]
  by_cases hend : 80 ≤ t.col
  · rw [if_pos hend, if_pos hend]
    exact h.newline
  · have hle := cursor_le t
    rw [if_neg hend, if_neg hend, scroll_of_lt (by rw [h.cursorRow]; omega)]
    exact h

/-- A printable character goes to the line with the cursor. -/
theorem Agrees.print (h : Agrees m t) (hcol : t.col < 80) (c : UInt8) :
    Agrees { store m (m.cursorY * 80 + m.cursorX) (glyph c) with cursorX := u8 (m.cursorX + 1) } (t.put (glyph c)) := by
  have hle := cursor_le t
  refine ⟨?_,h.cursorRow,?_⟩
  · rw [h.cursorCol]
    exact u8_of_lt (by omega)
  · have hlt : t.cursor 25 < (t.screen 25 (blankLine 80 blank)).length := by
      rw [Terminal.length_screen (by omega)]
      omega
    have hline : row m (t.cursor 25) = t.line := by
      rw [← Terminal.getElem_screen_cursor (by omega) t hlt]
      simp only [← h.shown, screen, List.getElem_map, List.getElem_range]
    have hstore : screen (store m (t.cursor 25 * 80 + t.col) (glyph c)) =
        (t.put (glyph c)).screen 25 (blankLine 80 blank) := by
      rw [screen_store m hcol, hline, h.shown]
      exact (Terminal.screen_line (by omega) t _ _).symm
    rw [h.cursorRow, h.cursorCol]
    exact (screen_congr rfl).trans hstore

/-- One character, up to the move of the hardware cursor. -/
theorem Agrees.typeChar (h : Agrees m t) (hcol : t.col < 80) (c : UInt8) :
    Agrees (scroll (Monitor.wrap (putChar m c))) (typeChar t c) := by
  have hmove : ∀ k, Agrees { m with cursorX := k } (t.moveTo k) := fun k =>
    ⟨rfl,h.cursorRow,(screen_congr rfl).trans h.shown⟩
  unfold putChar Monitor.typeChar
  rw [h.cursorCol]
  split_ifs with hback htab hcr hnl hprint
  · exact (hmove _).wrap
  · have hround : u8 ((t.col + 8) / 8 * 8) = (t.col / 8 + 1) * 8 := by
      rw [u8_of_lt (by omega), Nat.add_div_right t.col (by omega)]
    rw [hround]
    exact (hmove _).wrap
  · exact (hmove _).wrap
  · exact h.newline
  · rw [← h.cursorCol]
    exact (h.print hcol c).wrap
  · exact h.wrap

theorem Agrees.moveCursor (h : Agrees m t) : Agrees (moveCursor m) t := ⟨h.cursorCol,h.cursorRow,h.shown⟩

/-- One step of `monitor_put`. -/
theorem Shows.monitorPut {start : Display} (h : Shows start m t) (c : UInt8) :
    Shows start (monitorPut m c) (typeChar t c) := by
  have hcol : t.col < 80 := h.cursorCol ▸ h.cursorX_lt
  have hagrees := h.toAgrees.typeChar hcol c
  have hx : (scroll (Monitor.wrap (putChar m c))).cursorX < 80 := by
    rw [hagrees.cursorCol]
    exact Terminal.wrap_col_lt (by omega) _ _
  have hy : (scroll (Monitor.wrap (putChar m c))).cursorY < 25 := by
    rw [hagrees.cursorRow]
    exact Nat.lt_succ_of_le (cursor_le _)
  have hput : StoresBelow (80 * 25) start (putChar m c) := by
    have hlt : m.cursorY * 80 + m.cursorX < 80 * 25 := by
      have := h.cursorX_lt
      have := h.cursorY_lt
      omega
    unfold putChar
    split_ifs
    all_goals first | exact h.stored | exact h.stored.trans (.of_eq rfl) | skip
    exact (h.stored.store (glyph c) hlt).trans (.of_eq rfl)
  have hwrap : StoresBelow (80 * 25) (putChar m c) (Monitor.wrap (putChar m c)) := by
    unfold Monitor.wrap
    split <;> exact .of_eq rfl
  exact ⟨hagrees.moveCursor,hx,hy,(hput.trans hwrap).trans ((scroll_stored _).trans (.of_eq rfl)),
    moveCursor_hardware hx hy⟩

/-- `monitor_clear` is the empty terminal. -/
theorem shows_monitorClear (m : Display) : Shows m (monitorClear m) (Terminal.clear 80 blank) := by
  have hcell := foldl_blank m 0 (80 * 25)
  have hstored := (foldl_store (fun _ _ => blank) m 0 (80 * 25)).2
  unfold monitorClear
  generalize (List.range' 0 (80 * 25)).foldl (fun m i => store m i blank) m = m' at hcell hstored
  have hrow : ∀ y < 25, row m' y = blankLine 80 blank := fun y hy => by
    refine List.ext_getElem (by simp [blankLine]) fun x hx _ => ?_
    rw [length_row] at hx
    simp only [row, blankLine, List.getElem_map, List.getElem_range, List.getElem_replicate]
    rw [hcell, if_pos (by omega)]
  have hscreen : screen m' = (Terminal.clear 80 blank).screen 25 (blankLine 80 blank) := by
    have hclear : (Terminal.clear 80 blank).screen 25 (blankLine 80 blank) =
        List.replicate 25 (blankLine 80 blank) := rfl
    rw [hclear, screen, List.map_congr_left fun y hy => hrow y (List.mem_range.mp hy), List.map_const',
      List.length_range]
  have hagrees : Agrees { m' with cursorX := 0, cursorY := 0 } (Terminal.clear 80 blank) :=
    ⟨rfl,rfl,(screen_congr rfl).trans hscreen⟩
  exact ⟨hagrees.moveCursor,Nat.succ_pos _,Nat.succ_pos _,hstored.trans (.of_eq rfl),
    moveCursor_hardware (Nat.succ_pos _) (Nat.succ_pos _)⟩

/-- A run of `monitor_put`, by induction over the characters. -/
theorem Shows.run {start : Display} (h : Shows start m t) (cs : List UInt8) :
    Shows start (cs.foldl Monitor.monitorPut m) (cs.foldl Monitor.typeChar t) := by
  induction cs generalizing m t with
  | nil => exact h
  | cons c cs ih => exact ih (h.monitorPut c)

end Steps

/-- A call of `monitor_put`, or one of `monitor_write` with the bytes its pointer leads to. -/
inductive Output
  | put (c : UInt8)
  | write (cs : List UInt8)

def Output.run (m : Display) : Output → Display
  | put c => monitorPut m c
  | write cs => monitorWrite monitorPut m cs

/-- The characters that are sent. A string ends before its first zero byte. -/
def Output.chars : Output → List UInt8
  | put c => [c]
  | write cs => cs.takeWhile (· ≠ 0)

theorem monitorWrite_eq {σ : Type} (put : σ → UInt8 → σ) (s : σ) (cs : List UInt8) :
    monitorWrite put s cs = (cs.takeWhile (· ≠ 0)).foldl put s := by
  induction cs generalizing s with
  | nil => rfl
  | cons c cs ih =>
    by_cases hc : c = 0
    · simp [monitorWrite, hc]
    · simp [monitorWrite, hc, ih]

theorem foldl_run (m : Display) (os : List Output) :
    os.foldl Output.run m = (os.flatMap Output.chars).foldl monitorPut m := by
  induction os generalizing m with
  | nil => rfl
  | cons o os ih =>
    rw [List.foldl_cons, List.flatMap_cons, List.foldl_append, ih]
    cases o with
    | put c => rfl
    | write cs => rw [Output.run, monitorWrite_eq, Output.chars]

/-- After each of the characters that are sent from `monitor_clear` on, the monitor shows the
terminal that was sent the same characters. -/
theorem monitor_refines_terminal (m : Display) (os : List Output) :
    os.foldl Output.run (monitorClear m) = (os.flatMap Output.chars).foldl monitorPut (monitorClear m) ∧
    ∀ cs, cs <+: os.flatMap Output.chars →
      Shows m (cs.foldl monitorPut (monitorClear m)) (cs.foldl typeChar (Terminal.clear 80 blank)) :=
  ⟨foldl_run _ os,fun cs _ => (shows_monitorClear m).run cs⟩

end X86OsDev.Tutorial.Monitor
