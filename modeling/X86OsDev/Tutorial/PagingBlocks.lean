import X86OsDev.Tutorial.Directories

/-! # The blocks that the paging code works in

`initialise_paging` asks `kmalloc` for one byte per word of the frame bitset, and
`clone_table` clears the size of a directory in a block of the size of a table. What
a call touches is given as bytes from the start of its block.
-/
namespace X86OsDev.Tutorial
open Memory
open Frames (Bits bit indexFromBit offsetFromBit setFrame clearFrame firstBit firstFrom firstFrame)

/-- `test_frame` -/
def Frames.testFrame (frames : Bits) (frameAddr : ℕ) : BitVec 32 :=
  let frame := frameAddr / 0x1000
  frames (indexFromBit frame) &&& (1#32 <<< offsetFromBit frame)

namespace PagingBlocks

/-- The calls that touch the bitset, and those that clear a new table or directory. -/
inductive Access
  | setFrame (frameAddr : ℕ)
  | clearFrame (frameAddr : ℕ)
  | testFrame (frameAddr : ℕ)
  | firstFrame
  | getPage
  | cloneTable
  | cloneDirectory

/-- The words that `first_frame` reads from word `i` on. -/
def firstWords (frames : Bits) : ℕ → ℕ → List ℕ
  | 0, _ => []
  | n + 1, i =>
    if frames i ≠ 0xFFFFFFFF then
      match firstBit (frames i) 32 0 with
      | some _ => [i]
      | none => i :: firstWords frames n (i + 1)
    else i :: firstWords frames n (i + 1)

/-- The bytes, first and past the last, that a call touches in its block. -/
def touched (frames : Bits) (nframes : ℕ) : Access → List (ℕ × ℕ)
  | .setFrame frameAddr => [(4 * indexFromBit (frameAddr / 0x1000),4 * indexFromBit (frameAddr / 0x1000) + 4)]
  | .clearFrame frameAddr => [(4 * indexFromBit (frameAddr / 0x1000),4 * indexFromBit (frameAddr / 0x1000) + 4)]
  | .testFrame frameAddr => [(4 * indexFromBit (frameAddr / 0x1000),4 * indexFromBit (frameAddr / 0x1000) + 4)]
  | .firstFrame => (firstWords frames (indexFromBit nframes) 0).map fun i => (4 * i,4 * i + 4)
  | .getPage => [(0,0x1000)]
  | .cloneTable => [(0,Directories.directorySize)]
  | .cloneDirectory => [(0,Directories.directorySize)]

/-- The bytes that `kmalloc` or `kmalloc_ap` was asked for. -/
def requested (nframes : ℕ) : Access → ℕ
  | .getPage => Directories.tableSize
  | .cloneTable => Directories.tableSize
  | .cloneDirectory => Directories.directorySize
  | _ => indexFromBit nframes

/-- The bytes that are cleared before the block is used: those of the bitset by `initialise_paging`. -/
def cleared (nframes : ℕ) : Access → ℕ
  | .getPage => 0x1000
  | .cloneTable => Directories.directorySize
  | .cloneDirectory => Directories.directorySize
  | _ => indexFromBit nframes

/-- All that a call touches lies in its block and was cleared. -/
def Inside (frames : Bits) (nframes : ℕ) (a : Access) : Prop :=
  ∀ r ∈ touched frames nframes a, r.2 ≤ requested nframes a ∧ r.2 ≤ cleared nframes a

/-! ## The calls touch no more than that -/

section Calls
variable {frames frames' : Bits} {nframes : ℕ}

/-- Two bitsets agree on the words that a call touches. -/
def Agrees (frames frames' : Bits) (nframes : ℕ) (a : Access) : Prop :=
  ∀ i, (4 * i,4 * i + 4) ∈ touched frames nframes a → frames' i = frames i

theorem setFrame_touched {frameAddr i : ℕ} (h : (4 * i,4 * i + 4) ∉ touched frames nframes (.setFrame frameAddr)) :
    setFrame frames frameAddr i = frames i := by
  refine Function.update_of_ne ?_ _ _
  rintro rfl
  exact h List.mem_cons_self

theorem clearFrame_touched {frameAddr i : ℕ} (h : (4 * i,4 * i + 4) ∉ touched frames nframes (.clearFrame frameAddr)) :
    clearFrame frames frameAddr i = frames i := by
  refine Function.update_of_ne ?_ _ _
  rintro rfl
  exact h List.mem_cons_self

theorem testFrame_touched {frameAddr : ℕ} (h : Agrees frames frames' nframes (.testFrame frameAddr)) :
    Frames.testFrame frames' frameAddr = Frames.testFrame frames frameAddr := by
  unfold Frames.testFrame
  dsimp only
  rw [h _ List.mem_cons_self]

theorem firstFrom_touched (n i : ℕ) (h : ∀ w ∈ firstWords frames n i, frames' w = frames w) :
    firstFrom frames' n i = firstFrom frames n i := by
  induction n generalizing i with
  | zero => rfl
  | succ n ih =>
    have hi : frames' i = frames i := by
      refine h i ?_
      unfold firstWords
      split
      · split <;> exact List.mem_cons_self
      · exact List.mem_cons_self
    rw [firstFrom, firstFrom, hi]
    by_cases hw : frames i ≠ 0xFFFFFFFF
    · rw [if_pos hw, if_pos hw]
      cases hb : firstBit (frames i) 32 0 with
      | some k => rfl
      | none =>
        refine ih (i + 1) fun w hm => h w ?_
        rw [firstWords, if_pos hw, hb]
        exact List.mem_cons_of_mem _ hm
    · rw [if_neg hw, if_neg hw]
      refine ih (i + 1) fun w hm => h w ?_
      rw [firstWords, if_neg hw]
      exact List.mem_cons_of_mem _ hm

theorem firstFrame_touched (h : Agrees frames frames' nframes .firstFrame) :
    firstFrame frames' nframes = firstFrame frames nframes :=
  firstFrom_touched _ _ fun w hw => h w (List.mem_map.mpr ⟨w,hw,rfl⟩)

open Directories in
/-- The block that `clone_table` clears, of the size it asks for. -/
theorem cloneTable_eq (alloc : Alloc) (src : ℕ) (s : Sys) : cloneTable alloc src s =
    (kmallocAp alloc (requested s.nframes .cloneTable) s).bind fun r =>
      some (r.1,r.2.1,(List.range 1024).foldl (clonePage src r.1) (memset r.2.2 r.1 (cleared s.nframes .cloneTable))) := rfl

end Calls

/-! ## When they stay inside -/

/-- A word is not full if a bit of it is clear. -/
theorem not_full_iff (w : BitVec 32) : w ≠ 0xFFFFFFFF ↔ ∃ j < 32, w.getLsbD j = false := by
  constructor
  · intro hne
    by_contra hc
    push Not at hc
    refine hne (BitVec.eq_of_getLsbD_eq fun j hj => ?_)
    rw [Frames.getLsbD_of_full rfl hj]
    exact (Bool.not_eq_false _).mp (hc j hj)
  · rintro ⟨j,hj,hbit⟩ rfl
    rw [Frames.getLsbD_of_full rfl hj] at hbit
    cases hbit

/-- `first_frame` reads the words up to the first that is not full. -/
theorem firstWords_lt (frames : Bits) {b : ℕ} (n i : ℕ) (hi : i ≤ b) :
    (∀ w ∈ firstWords frames n i, w < b) ↔ i + n ≤ b ∨ ∃ w, i ≤ w ∧ w < i + n ∧ w < b ∧ frames w ≠ 0xFFFFFFFF := by
  induction n generalizing i with
  | zero => exact iff_of_true (fun _ hw => absurd hw List.not_mem_nil) (.inl hi)
  | succ n ih =>
    rw [firstWords]
    by_cases hw : frames i ≠ 0xFFFFFFFF
    · have hsome : ∃ j, firstBit (frames i) 32 0 = some j := by
        have hspec := Frames.firstBit_spec (frames i) 32 0 rfl
        obtain ⟨j,hj,hbit⟩ := (not_full_iff _).mp hw
        cases hb : firstBit (frames i) 32 0 with
        | some k => exact ⟨k,rfl⟩
        | none =>
          rw [hb] at hspec
          rw [hspec j (Nat.zero_le _) hj] at hbit
          cases hbit
      obtain ⟨j,hj⟩ := hsome
      rw [if_pos hw, hj, List.forall_mem_singleton]
      constructor
      · exact fun h => .inr ⟨i,le_rfl,by omega,h,hw⟩
      · rintro (h | ⟨w,h1,h2,h3,-⟩) <;> omega
    · rw [if_neg hw, List.forall_mem_cons]
      by_cases hib : i + 1 ≤ b
      · rw [ih (i + 1) hib]
        constructor
        · rintro ⟨-,h | ⟨w,h1,h2,h3,h4⟩⟩
          · exact .inl (by omega)
          · exact .inr ⟨w,by omega,by omega,h3,h4⟩
        · rintro (h | ⟨w,h1,h2,h3,h4⟩)
          · exact ⟨by omega,.inl (by omega)⟩
          · have hne : w ≠ i := by
              rintro rfl
              exact hw h4
            exact ⟨by omega,.inr ⟨w,by omega,by omega,h3,h4⟩⟩
      · refine iff_of_false (fun h => by omega) ?_
        rintro (h | ⟨w,h1,h2,h3,-⟩) <;> omega

/-- A frame whose word lies in the block; a free one among these, or no word at all; and the sizes of the tables. -/
def Fits (frames : Bits) (nframes : ℕ) : Access → Prop
  | .setFrame frameAddr => frameAddr / 0x1000 < 32 * (nframes / 128)
  | .clearFrame frameAddr => frameAddr / 0x1000 < 32 * (nframes / 128)
  | .testFrame frameAddr => frameAddr / 0x1000 < 32 * (nframes / 128)
  | .firstFrame => nframes < 32 ∨ ∃ f < 32 * (nframes / 128), bit frames f = false
  | .getPage => True
  | .cloneTable => False
  | .cloneDirectory => True

theorem inside_word (nframes frame : ℕ) : 4 * indexFromBit frame + 4 ≤ indexFromBit nframes ↔ frame < 32 * (nframes / 128) := by
  unfold indexFromBit
  omega

theorem inside_firstFrame (frames : Bits) (nframes : ℕ) : Inside frames nframes .firstFrame ↔ Fits frames nframes .firstFrame := by
  have hwords : Inside frames nframes .firstFrame ↔ ∀ w ∈ firstWords frames (indexFromBit nframes) 0, w < nframes / 128 := by
    unfold Inside touched requested cleared
    rw [List.forall_mem_map]
    refine forall_congr' fun w => forall_congr' fun _ => ?_
    unfold indexFromBit
    dsimp only
    omega
  rw [hwords, firstWords_lt frames _ 0 (Nat.zero_le _)]
  unfold Fits indexFromBit
  constructor
  · rintro (h | ⟨w,-,h2,h3,h4⟩)
    · exact .inl (by omega)
    · obtain ⟨j,hj,hbit⟩ := (not_full_iff _).mp h4
      refine .inr ⟨32 * w + j,by omega,?_⟩
      unfold bit indexFromBit offsetFromBit
      rw [show (32 * w + j) / (8 * 4) = w by omega, show (32 * w + j) % (8 * 4) = j by omega]
      exact hbit
  · rintro (h | ⟨f,hf,hbit⟩)
    · exact .inl (by omega)
    · exact .inr ⟨f / 32,Nat.zero_le _,by omega,by omega,(not_full_iff _).mpr ⟨f % 32,Nat.mod_lt _ (by decide),hbit⟩⟩

/-- A call stays inside the block it works in exactly in these cases. -/
theorem paging_inside (frames : Bits) (nframes : ℕ) (a : Access) : Inside frames nframes a ↔ Fits frames nframes a := by
  cases a with
  | setFrame frameAddr =>
    unfold Inside touched
    rw [List.forall_mem_singleton]
    exact (and_self_iff).trans (inside_word nframes _)
  | clearFrame frameAddr =>
    unfold Inside touched
    rw [List.forall_mem_singleton]
    exact (and_self_iff).trans (inside_word nframes _)
  | testFrame frameAddr =>
    unfold Inside touched
    rw [List.forall_mem_singleton]
    exact (and_self_iff).trans (inside_word nframes _)
  | firstFrame => exact inside_firstFrame frames nframes
  | getPage => exact iff_of_true (List.forall_mem_singleton.mpr ⟨le_rfl,le_rfl⟩) trivial
  | cloneTable =>
    refine iff_of_false (fun h => ?_) id
    have hle : 8196 ≤ 4096 := (h _ List.mem_cons_self).1
    omega
  | cloneDirectory => exact iff_of_true (List.forall_mem_singleton.mpr ⟨le_rfl,le_rfl⟩) trivial

/-- The last frame of the memory that `initialise_paging` assumes, in a bitset of 128 bytes. -/
theorem last_frame_outside : ¬ Inside (fun _ => 0) 0x1000 (.setFrame 0xFFF000) := by
  intro h
  have hle : 512 ≤ 128 := (h _ List.mem_cons_self).1
  omega

end PagingBlocks
end X86OsDev.Tutorial
