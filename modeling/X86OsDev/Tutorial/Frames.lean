import X86OsDev.Lib.Transition
import X86OsDev.Lib.Memory
import Mathlib.Data.BitVec

/-! # The frame allocator of the tutorial kernel (paging.c)

One bit per frame, 32 bits to a word. `set_frame` and `clear_frame` take the
address of a frame, `first_frame` returns its number, and `free_frame` passes
the number where the address is expected.
-/
namespace X86OsDev.Tutorial
open Memory Transition

/-- `page_t` without its unused bits -/
structure Page where
  present : Bool
  rw : Bool
  user : Bool
  accessed : Bool
  dirty : Bool
  frame : BitVec 20
  deriving DecidableEq

def Page.blank : Page := ⟨false,false,false,false,false,0⟩

namespace Frames

abbrev Bits := ℕ → BitVec 32

def indexFromBit (a : ℕ) : ℕ := a / (8 * 4)
def offsetFromBit (a : ℕ) : ℕ := a % (8 * 4)

def setFrame (frames : Bits) (frameAddr : ℕ) : Bits :=
  let frame := frameAddr / 0x1000
  let idx := indexFromBit frame
  Function.update frames idx (frames idx ||| (1#32 <<< offsetFromBit frame))

def clearFrame (frames : Bits) (frameAddr : ℕ) : Bits :=
  let frame := frameAddr / 0x1000
  let idx := indexFromBit frame
  Function.update frames idx (frames idx &&& ~~~ (1#32 <<< offsetFromBit frame))

/-- The inner loop of `first_frame`, from bit `j` on. -/
def firstBit (word : BitVec 32) : ℕ → ℕ → Option ℕ
  | 0, _ => none
  | n + 1, j => if word &&& (1#32 <<< j) = 0 then some j else firstBit word n (j + 1)

/-- The outer loop of `first_frame`, from word `i` on. -/
def firstFrom (frames : Bits) : ℕ → ℕ → Option ℕ
  | 0, _ => none
  | n + 1, i =>
    if frames i ≠ 0xFFFFFFFF then
      match firstBit (frames i) 32 0 with
      | some j => some (i * 4 * 8 + j)
      | none => firstFrom frames n (i + 1)
    else firstFrom frames n (i + 1)

/-- `first_frame`, where `none` is the way past its loops, which has no return statement -/
def firstFrame (frames : Bits) (nframes : ℕ) : Option ℕ := firstFrom frames (indexFromBit nframes) 0

/-- `alloc_frame`; `junk` is what a call of `first_frame` without a return value gives. -/
def allocFrame (frames : Bits) (nframes : ℕ) (page : Page) (isKernel isWriteable : ℤ)
    (junk : BitVec 32) : Bits × Page :=
  if page.frame ≠ 0 then (frames,page)
  else
    let idx := match firstFrame frames nframes with
      | some i => i
      | none => junk.toNat
    (setFrame frames (u32 (idx * 0x1000)),
      { page with
        present := true
        rw := decide (isWriteable = 1)
        user := !decide (isKernel = 1)
        frame := BitVec.ofNat 20 idx })

/-- `free_frame` -/
def freeFrame (frames : Bits) (page : Page) : Bits × Page :=
  if page.frame = 0 then (frames,page)
  else (clearFrame frames page.frame.toNat,{ page with frame := 0 })

/-- The flags that `clone_table` copies. -/
def copyFlags (src page : Page) : Page :=
  { page with
    present := page.present || src.present
    rw := page.rw || src.rw
    user := page.user || src.user
    accessed := page.accessed || src.accessed
    dirty := page.dirty || src.dirty }

/-! ## Calls on page entries -/

structure Sys (ι : Type) where
  frames : Bits
  nframes : ℕ
  page : ι → Page

/-- A call of `alloc_frame` or `free_frame`, or a round of the loop of `clone_table`. -/
inductive Call (ι : Type)
  | alloc (p : ι) (isKernel isWriteable : ℤ) (junk : BitVec 32)
  | free (p : ι)
  | clone (src p : ι) (junk : BitVec 32)

variable {ι : Type} [DecidableEq ι]

def Sys.set (s : Sys ι) (p : ι) (r : Bits × Page) : Sys ι :=
  { s with frames := r.1, page := Function.update s.page p r.2 }

def step (s : Sys ι) : Call ι → Sys ι
  | .alloc p isKernel isWriteable junk =>
    s.set p (allocFrame s.frames s.nframes (s.page p) isKernel isWriteable junk)
  | .free p => s.set p (freeFrame s.frames (s.page p))
  | .clone src p junk =>
    if (s.page src).frame = 0 then s
    else
      let r := allocFrame s.frames s.nframes (s.page p) 0 0 junk
      s.set p (r.1,copyFlags (s.page src) r.2)

/-- The functions that allocate and free frames. `page` is `get_page` on the directory they use. -/
inductive Routine (ι : Type)
  | direct (c : Call ι)
  | expand (page : ℕ → ι) (start oldSize newSize : ℕ) (isKernel isWriteable : ℤ) (junk : BitVec 32)
  | contract (page : ℕ → ι) (start oldSize newSize : ℕ)
  | moveStack (page : ℕ → ι) (newStackStart size : ℕ) (junk : BitVec 32)
  | cloneTable (src table : Fin 1024 → ι) (junk : BitVec 32)

/-- The calls that their loops make. `expand` goes up from the old size, `contract` and
`move_stack` go down. -/
def Routine.calls : Routine ι → List (Call ι)
  | .direct c => [c]
  | .expand page start oldSize newSize isKernel isWriteable junk =>
    (List.range ((newSize - oldSize + 0xFFF) / 0x1000)).map fun k =>
      .alloc (page (u32 (start + oldSize + 0x1000 * k))) isKernel isWriteable junk
  | .contract page start oldSize newSize =>
    (((List.range (oldSize / 0x1000)).map fun k => oldSize - 0x1000 * (k + 1)).takeWhile
      (newSize < ·)).map fun i => .free (page (u32 (start + i)))
  | .moveStack page newStackStart size junk =>
    (List.range (size / 0x1000 + 1)).map fun k => .alloc (page (newStackStart - 0x1000 * k)) 0 1 junk
  | .cloneTable src table junk => (List.finRange 1024).map fun i => .clone (src i) (table i) junk

def Routine.run (s : Sys ι) (r : Routine ι) : Sys ι := r.calls.foldl step s

/-- Every bit is clear and no page has a frame. -/
structure Start (s : Sys ι) : Prop where
  frames : ∀ i, s.frames i = 0
  pages : ∀ p, s.page p = .blank
  nframes : s.nframes < 2 ^ 20

abbrev Step (s : Sys ι) (r : Routine ι) (t : Sys ι) : Prop := r.run s = t

abbrev Reached (s : Sys ι) : Prop := Reachable Start Step s

/-- The bit of a frame. -/
def bit (frames : Bits) (f : ℕ) : Bool := (frames (indexFromBit f)).getLsbD (offsetFromBit f)

/-- A page entry holds a frame. -/
def Holds (page : Page) (f : ℕ) : Prop := page.present = true ∧ page.frame.toNat = f

/-- The bits tell which frames are held, and no frame is held twice. -/
structure Accounted (s : Sys ι) : Prop where
  bits : ∀ f < s.nframes, bit s.frames f = true ↔ ∃ p, Holds (s.page p) f
  alone : ∀ p q f, Holds (s.page p) f → Holds (s.page q) f → p = q

/-- What is promised of a call: a page that holds a frame keeps it, a page without one gets the
lowest free frame or nothing, and a freed page gives exactly its frame back. -/
def AllocSpec (s : Sys ι) (p : ι) (t : Sys ι) : Prop :=
  (∀ q, q ≠ p → t.page q = s.page q) ∧
  ((s.page p).present = true → t.frames = s.frames ∧ (t.page p).frame = (s.page p).frame) ∧
  ((s.page p).present = false →
    (∃ f < s.nframes, bit s.frames f = false ∧ (∀ g < f, bit s.frames g = true) ∧
      Holds (t.page p) f ∧ ∀ g, bit t.frames g = (decide (g = f) || bit s.frames g)) ∨
    (∀ f < s.nframes, bit s.frames f = true) ∧ t = s)

def FreeSpec (s : Sys ι) (p : ι) (t : Sys ι) : Prop :=
  (∀ q, q ≠ p → t.page q = s.page q) ∧ (t.page p).present = false ∧
  ∀ g, bit t.frames g = (bit s.frames g && !(decide ((s.page p).present = true ∧ (s.page p).frame.toNat = g)))

def CallSpec (s : Sys ι) (t : Sys ι) : Call ι → Prop
  | .alloc p _ _ _ => AllocSpec s p t
  | .free p => FreeSpec s p t
  | .clone src p _ => if (s.page src).frame = 0 then t = s else AllocSpec s p t

/-- `alloc_frame` meets a page with a nonzero frame field, or a page that holds nothing while a
frame is free in the words that `first_frame` looks at. -/
def AllocFits (s : Sys ι) (p : ι) : Prop :=
  (s.page p).frame ≠ 0 ∨
    (s.page p).present = false ∧ ∃ f < 32 * (s.nframes / 32), bit s.frames f = false

/-- `free_frame` is called only on a page that holds nothing. -/
def Fits (s : Sys ι) : Call ι → Prop
  | .alloc p _ _ _ => AllocFits s p
  | .free p => (s.page p).present = false
  | .clone src p _ => (s.page src).frame = 0 ∨ AllocFits s p

/-- Each call of a list meets the condition when its turn comes. -/
def AllFit (s : Sys ι) : List (Call ι) → Prop
  | [] => True
  | c :: cs => Fits s c ∧ AllFit (step s c) cs

section Bits
variable (frames : Bits) {f : ℕ}

theorem bit_setFrame (hf : f < 2 ^ 20) (g : ℕ) :
    bit (setFrame frames (u32 (f * 0x1000))) g = (decide (g = f) || bit frames g) := by
  have haddr : u32 (f * 0x1000) / 0x1000 = f := by
    rw [u32_of_lt (by omega)]
    omega
  unfold bit setFrame
  simp only [haddr]
  have hoff : ∀ x, offsetFromBit x < 32 := fun x => Nat.mod_lt _ (by decide)
  by_cases hi : indexFromBit g = indexFromBit f
  · rw [hi, Function.update_self, BitVec.getLsbD_or, Bool.or_comm]
    congr 1
    have h1 : (1#32 <<< offsetFromBit f).getLsbD (offsetFromBit g) = decide (offsetFromBit g = offsetFromBit f) := by
      rw [BitVec.getLsbD_shiftLeft]
      have := hoff g
      by_cases he : offsetFromBit g = offsetFromBit f
      · simp [he, hoff f]
      · by_cases hl : offsetFromBit g < offsetFromBit f
        · simp [hl, he]
        · have hne : offsetFromBit g - offsetFromBit f ≠ 0 := by omega
          simp [he, BitVec.getLsbD_one, hne]
    rw [h1]
    congr 1
    unfold indexFromBit offsetFromBit at *
    apply propext
    omega
  · rw [Function.update_of_ne hi]
    have hne : g ≠ f := by
      rintro rfl
      exact hi rfl
    simp [hne]

/-- A bit of a word that is tested with a mask. -/
theorem and_shift_eq_zero (w : BitVec 32) {j : ℕ} (hj : j < 32) :
    w &&& (1#32 <<< j) = 0 ↔ w.getLsbD j = false := by
  constructor
  · intro h
    have := congrArg (fun x => BitVec.getLsbD x j) h
    simpa [BitVec.getLsbD_shiftLeft, hj] using this
  · intro h
    apply BitVec.eq_of_getLsbD_eq
    intro i hi
    by_cases hij : i = j
    · subst hij
      simp [h]
    · have : (1#32 <<< j).getLsbD i = false := by
        rw [BitVec.getLsbD_shiftLeft]
        by_cases hl : i < j
        · simp [hl]
        · have hne : i - j ≠ 0 := by omega
          simp [BitVec.getLsbD_one, hne]
      simp [this]

theorem firstBit_spec (w : BitVec 32) (n j : ℕ) (hn : j + n = 32) :
    match firstBit w n j with
    | some k => j ≤ k ∧ k < 32 ∧ w.getLsbD k = false ∧ ∀ i, j ≤ i → i < k → w.getLsbD i = true
    | none => ∀ i, j ≤ i → i < 32 → w.getLsbD i = true := by
  induction n generalizing j with
  | zero =>
    simp only [firstBit]
    omega
  | succ n ih =>
    have hj : j < 32 := by omega
    simp only [firstBit]
    by_cases hb : w &&& (1#32 <<< j) = 0
    · rw [if_pos hb]
      exact ⟨le_rfl,hj,(and_shift_eq_zero w hj).mp hb,fun i h1 h2 => by omega⟩
    · rw [if_neg hb]
      have hset : w.getLsbD j = true := by
        rw [and_shift_eq_zero w hj] at hb
        simpa using hb
      have hs := ih (j + 1) (by omega)
      cases hk : firstBit w n (j + 1) with
      | some k =>
        rw [hk] at hs
        obtain ⟨h1,h2,h3,h4⟩ := hs
        refine ⟨by omega,h2,h3,fun i h5 h6 => ?_⟩
        by_cases hij : i = j
        · rwa [hij]
        · exact h4 i (by omega) h6
      | none =>
        rw [hk] at hs
        intro i h5 h6
        by_cases hij : i = j
        · rwa [hij]
        · exact hs i (by omega) h6

/-- The bits of a full word are set. -/
theorem getLsbD_of_full {w : BitVec 32} (h : w = 0xFFFFFFFF) {j : ℕ} (hj : j < 32) :
    w.getLsbD j = true := by
  rw [h, show (0xFFFFFFFF : BitVec 32) = BitVec.allOnes 32 from rfl, BitVec.getLsbD_allOnes]
  exact decide_eq_true hj

theorem firstFrom_spec (n i : ℕ) :
    match firstFrom frames n i with
    | some f => 32 * i ≤ f ∧ f < 32 * (i + n) ∧ bit frames f = false ∧
        ∀ g, 32 * i ≤ g → g < f → bit frames g = true
    | none => ∀ g, 32 * i ≤ g → g < 32 * (i + n) → bit frames g = true := by
  induction n generalizing i with
  | zero =>
    simp only [firstFrom]
    omega
  | succ n ih =>
    -- when word `i` is full the search goes on in the next one
    have hword : ∀ g, 32 * i ≤ g → g < 32 * i + 32 → bit frames g = (frames i).getLsbD (g - 32 * i) := by
      intro g h1 h2
      unfold bit indexFromBit offsetFromBit
      rw [show g / (8 * 4) = i by omega, show g % (8 * 4) = g - 32 * i by omega]
    have hnext : (∀ j < 32, (frames i).getLsbD j = true) →
        match firstFrom frames n (i + 1) with
        | some f => 32 * i ≤ f ∧ f < 32 * (i + (n + 1)) ∧ bit frames f = false ∧
            ∀ g, 32 * i ≤ g → g < f → bit frames g = true
        | none => ∀ g, 32 * i ≤ g → g < 32 * (i + (n + 1)) → bit frames g = true := by
      intro hfull
      have hlow : ∀ g, 32 * i ≤ g → g < 32 * i + 32 → bit frames g = true := by
        intro g h1 h2
        rw [hword g h1 h2]
        exact hfull _ (by omega)
      have hs := ih (i + 1)
      cases hf : firstFrom frames n (i + 1) with
      | some f =>
        rw [hf] at hs
        obtain ⟨h1,h2,h3,h4⟩ := hs
        refine ⟨by omega,by omega,h3,fun g h5 h6 => ?_⟩
        by_cases hg : g < 32 * i + 32
        · exact hlow g h5 hg
        · exact h4 g (by omega) h6
      | none =>
        rw [hf] at hs
        intro g h5 h6
        by_cases hg : g < 32 * i + 32
        · exact hlow g h5 hg
        · exact hs g (by omega) (by omega)
    simp only [firstFrom]
    by_cases hw : frames i ≠ 0xFFFFFFFF
    · rw [if_pos hw]
      have hb := firstBit_spec (frames i) 32 0 rfl
      cases hk : firstBit (frames i) 32 0 with
      | some k =>
        rw [hk] at hb
        obtain ⟨-,h2,h3,h4⟩ := hb
        dsimp only
        rw [show i * 4 * 8 + k = 32 * i + k by omega]
        refine ⟨by omega,by omega,?_,fun g h5 h6 => ?_⟩
        · rw [hword _ (by omega) (by omega), show 32 * i + k - 32 * i = k by omega]
          exact h3
        · rw [hword g h5 (by omega)]
          exact h4 _ (Nat.zero_le _) (by omega)
      | none =>
        rw [hk] at hb
        exact hnext fun j hj => hb j (Nat.zero_le _) hj
    · rw [if_neg hw]
      exact hnext fun j hj => getLsbD_of_full (not_not.mp hw) hj

/-- `first_frame` finds the lowest free frame of the whole words. -/
theorem firstFrame_spec {nframes : ℕ} (h : ∃ f < 32 * (nframes / 32), bit frames f = false) :
    ∃ f < nframes, firstFrame frames nframes = some f ∧ bit frames f = false ∧
      ∀ g < f, bit frames g = true := by
  have hs := firstFrom_spec frames (indexFromBit nframes) 0
  unfold firstFrame
  split at hs
  · rename_i f hf
    obtain ⟨-,h2,h3,h4⟩ := hs
    unfold indexFromBit at h2
    exact ⟨f,by omega,hf,h3,fun g hg => h4 g (by omega) hg⟩
  · obtain ⟨f,h1,h2⟩ := h
    unfold indexFromBit at hs
    rw [hs f (by omega) (by omega)] at h2
    cases h2

end Bits

end Frames
end X86OsDev.Tutorial
