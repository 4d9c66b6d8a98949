import Mathlib.Data.List.Basic
import Mathlib.Data.Nat.Basic

/-! # A terminal without a bottom

Lines of a fixed width are added for ever and only the last one changes. A screen
shows the last lines, with blank ones below while there are too few.
-/
namespace X86OsDev
variable {α : Type*}

/-- The lines above, the line with the cursor, and the column. -/
structure Terminal (α : Type*) where
  above : List (List α)
  line : List α
  col : ℕ

namespace Terminal

def blankLine (width : ℕ) (blank : α) : List α := List.replicate width blank

def clear (width : ℕ) (blank : α) : Terminal α := ⟨[],blankLine width blank,0⟩

def rows (t : Terminal α) : List (List α) := t.above ++ [t.line]

def put (t : Terminal α) (a : α) : Terminal α := ⟨t.above,t.line.set t.col a,t.col + 1⟩

def moveTo (t : Terminal α) (col : ℕ) : Terminal α := ⟨t.above,t.line,col⟩

def newline (width : ℕ) (blank : α) (t : Terminal α) : Terminal α := ⟨t.rows,blankLine width blank,0⟩

/-- A column past the end of the line is the start of the next line. -/
def wrap (width : ℕ) (blank : α) (t : Terminal α) : Terminal α := if width ≤ t.col then t.newline width blank else t

/-- The last `n` lines. -/
def screen (n : ℕ) (blank : List α) (t : Terminal α) : List (List α) :=
  t.rows.drop (t.rows.length - n) ++ List.replicate (n - t.rows.length) blank

/-- The line of the screen that has the cursor. -/
def cursor (n : ℕ) (t : Terminal α) : ℕ := min t.above.length (n - 1)

theorem wrap_col_lt {width : ℕ} (hw : 0 < width) (blank : α) (t : Terminal α) : (t.wrap width blank).col < width := by
  unfold wrap
  split
  · exact hw
  · omega

variable {n width : ℕ} {blank : List α}

/-- The screen in two parts around the line with the cursor. -/
theorem screen_eq (hn : 0 < n) (t : Terminal α) : t.screen n blank =
    t.above.drop (t.above.length + 1 - n) ++ t.line :: List.replicate (n - 1 - t.above.length) blank := by
  rw [screen, rows, List.length_append, List.length_singleton, List.drop_append_of_le_length (by omega),
    List.append_assoc, List.singleton_append, Nat.sub_sub, Nat.add_comm 1]

theorem length_before (hn : 0 < n) (t : Terminal α) : (t.above.drop (t.above.length + 1 - n)).length = t.cursor n := by
  rw [List.length_drop, cursor]
  omega

theorem length_screen (hn : 0 < n) (t : Terminal α) : (t.screen n blank).length = n := by
  rw [screen, List.length_append, List.length_drop, List.length_replicate]
  omega

/-- Only the line with the cursor changes. -/
theorem screen_line (hn : 0 < n) (t : Terminal α) (line : List α) (col : ℕ) :
    screen n blank ⟨t.above,line,col⟩ = (t.screen n blank).set (t.cursor n) line := by
  have hlen := length_before hn t
  rw [screen_eq hn, screen_eq hn, List.set_append_right _ _ (Nat.le_of_eq hlen), hlen, Nat.sub_self, List.set_cons_zero]

theorem getElem_screen_cursor (hn : 0 < n) (t : Terminal α) (h : t.cursor n < (t.screen n blank).length) :
    (t.screen n blank)[t.cursor n] = t.line := by
  have hlen := length_before hn t
  simp only [screen_eq hn]
  rw [List.getElem_append_right (Nat.le_of_eq hlen)]
  simp only [hlen, Nat.sub_self, List.getElem_cons_zero]

/-- The screen moves up for a new line at its bottom. -/
theorem screen_newline (hn : 0 < n) (t : Terminal α) (b : α) (h : n ≤ t.above.length + 1) :
    (t.newline width b).screen n blank = (t.screen n blank).tail ++ [blankLine width b] := by
  have hlen : t.rows.length = t.above.length + 1 := by rw [rows, List.length_append, List.length_singleton]
  have hpad : n - 1 - t.rows.length = 0 := by omega
  have hscreen : t.screen n blank = t.rows.drop (t.above.length + 1 - n) := by
    rw [screen, hlen, Nat.sub_eq_zero_of_le h, List.replicate_zero, List.append_nil]
  rw [hscreen, List.tail_drop, screen_eq hn]
  dsimp only [newline]
  rw [hpad, hlen, Nat.sub_add_comm h, List.replicate_zero]

/-- A new line while there is room on the screen. -/
theorem screen_newline_of_lt (t : Terminal α) (b : α) (h : t.above.length + 1 < n) :
    (t.newline width b).screen n (blankLine width b) = t.screen n (blankLine width b) := by
  have hlen : t.rows.length = t.above.length + 1 := by rw [rows, List.length_append, List.length_singleton]
  have hpad : n - t.rows.length = n - 1 - t.rows.length + 1 := by omega
  have htop : t.rows.length + 1 - n = 0 := by omega
  have htop' : t.rows.length - n = 0 := by omega
  rw [screen_eq (by omega), screen, hpad, htop', List.replicate_succ]
  dsimp only [newline]
  rw [htop, List.drop_zero]

end Terminal
end X86OsDev
