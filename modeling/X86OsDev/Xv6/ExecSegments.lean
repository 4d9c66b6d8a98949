import X86OsDev.Xv6.ExecLoad

/-! # The segments in the image

Where the loadable segments of a file are apart from each other, the bytes of an
image do not depend on the order in which they were loaded.
-/
namespace X86OsDev.Xv6
open Memory Fault Counting

variable {k : Kernel} {f : File} {d : ℕ}

/-- Where the `i`th header after an offset lies. -/
def headerFrom (off i : ℕ) : ℕ := u32 (off + 32 * i)

theorem headerFrom_zero {off : ℕ} (h : off < 2 ^ 32) : headerFrom off 0 = off := u32_of_lt h

theorem headerFrom_succ (off i : ℕ) : headerFrom (u32 (off + 32)) i = headerFrom off (i + 1) := by
  unfold headerFrom u32
  omega

namespace File

/-- The segment of a header that is to be loaded. -/
def Loads (f : File) (h : ℕ) : Prop := f.phType h = elfProgLoad

/-- An address inside the part of a segment that comes from the file. -/
def InFile (f : File) (h va : ℕ) : Prop := f.phVaddr h ≤ va ∧ va < f.phVaddr h + f.phFilesz h

/-- The `i`th program header. -/
def header (f : File) (i : ℕ) : ℕ := headerFrom f.phoff i

/-- No two segments that are loaded have an address in common. -/
def SegmentsApart (f : File) : Prop := ∀ i < f.phnum, ∀ j < f.phnum, i ≠ j → f.Loads (f.header i) →
  f.Loads (f.header j) →
  Apart (f.phVaddr (f.header i)) (f.phMemsz (f.header i)) (f.phVaddr (f.header j)) (f.phMemsz (f.header j))

/-- The checks that `exec` makes on the sizes of a segment. -/
def Checked (f : File) (h : ℕ) : Prop := f.phFilesz h ≤ f.phMemsz h ∧ f.phVaddr h + f.phMemsz h < 2 ^ 32

theorem le_imageEnd (n : ℕ) : ∀ off sz : ℕ, sz ≤ f.imageEnd n off sz := by
  induction n with
  | zero =>
    intro off sz
    exact le_rfl
  | succ n ih =>
    intro off sz
    rw [imageEnd]
    split
    · exact ih _ _
    · exact (le_max_left _ _).trans (ih _ _)

/-- Each segment ends below the end of the image. -/
theorem segment_le_imageEnd (n : ℕ) : ∀ off sz i : ℕ, off < 2 ^ 32 → i < n → f.Loads (headerFrom off i) →
    u32 (f.phVaddr (headerFrom off i) + f.phMemsz (headerFrom off i)) ≤ f.imageEnd n off sz := by
  induction n with
  | zero =>
    intro off sz i _ hi
    exact absurd hi (Nat.not_lt_zero i)
  | succ n ih =>
    intro off sz i hoff hi hload
    rw [imageEnd]
    cases i with
    | zero =>
      rw [headerFrom_zero hoff] at hload ⊢
      rw [if_neg fun hc : f.phType off ≠ elfProgLoad => hc hload]
      exact (le_max_right _ _).trans (le_imageEnd _ _ _)
    | succ i =>
      rw [← headerFrom_succ] at hload ⊢
      split
      all_goals exact ih _ _ i (Nat.mod_lt _ (by decide)) (Nat.lt_of_succ_lt_succ hi) hload

/-- Bytes that no segment has in the file are left alone. -/
theorem loadedBytes_outside {va : ℕ} (n : ℕ) : ∀ (off : ℕ) (g : ℕ → UInt8), off < 2 ^ 32 →
    (∀ i < n, f.Loads (headerFrom off i) → ¬ f.InFile (headerFrom off i) va) →
    f.loadedBytes n off g va = g va := by
  induction n with
  | zero =>
    intro off g _ _
    rfl
  | succ n ih =>
    intro off g hoff hout
    have hrest : ∀ g', f.loadedBytes n (u32 (off + 32)) g' va = g' va := by
      intro g'
      refine ih _ g' (Nat.mod_lt _ (by decide)) fun i hi => ?_
      rw [headerFrom_succ]
      exact hout (i + 1) (Nat.succ_lt_succ hi)
    rw [loadedBytes]
    split
    · exact hrest g
    · rename_i hload
      rw [hrest, if_neg]
      have := hout 0 (Nat.succ_pos n)
      rw [headerFrom_zero hoff] at this
      exact this (not_not.mp hload)

/-- A byte that one segment only has in the file is that byte. -/
theorem loadedBytes_inside {va : ℕ} (n : ℕ) : ∀ (off : ℕ) (g : ℕ → UInt8) (i : ℕ), off < 2 ^ 32 → i < n →
    f.Loads (headerFrom off i) → f.InFile (headerFrom off i) va →
    (∀ j < n, j ≠ i → f.Loads (headerFrom off j) → ¬ f.InFile (headerFrom off j) va) →
    f.loadedBytes n off g va = f.bytes (f.phOff (headerFrom off i) + (va - f.phVaddr (headerFrom off i))) := by
  induction n with
  | zero =>
    intro off g i _ hi
    exact absurd hi (Nat.not_lt_zero i)
  | succ n ih =>
    intro off g i hoff hi hload hin honly
    rw [loadedBytes]
    have hlt : u32 (off + 32) < 2 ^ 32 := Nat.mod_lt _ (by decide)
    cases i with
    | zero =>
      rw [headerFrom_zero hoff] at hload hin ⊢
      rw [if_neg fun hc : f.phType off ≠ elfProgLoad => hc hload, loadedBytes_outside n _ _ hlt fun j hj => ?_]
      · exact if_pos hin
      · rw [headerFrom_succ]
        exact honly (j + 1) (Nat.succ_lt_succ hj) (Nat.succ_ne_zero j)
    | succ i =>
      rw [← headerFrom_succ] at hload hin ⊢
      have hrest : ∀ g', f.loadedBytes n (u32 (off + 32)) g' va = _ := fun g' =>
        ih _ g' i hlt (Nat.lt_of_succ_lt_succ hi) hload hin fun j hj hne => by
          rw [headerFrom_succ]
          exact honly (j + 1) (Nat.succ_lt_succ hj) (fun hc => hne (Nat.succ_injective hc))
      split
      · exact hrest _
      · exact hrest _

/-- In an image of segments that are apart, each one has its bytes of the file and zeros after them. -/
theorem image_segment (hapart : f.SegmentsApart)
    (hck : ∀ i < f.phnum, f.Loads (f.header i) → f.Checked (f.header i)) {i x : ℕ} (hi : i < f.phnum)
    (hload : f.Loads (f.header i)) (hx : x < f.phMemsz (f.header i)) :
    f.image (f.phVaddr (f.header i) + x) =
      if x < f.phFilesz (f.header i) then f.bytes (f.phOff (f.header i) + x) else 0 := by
  have hoff : f.phoff < 2 ^ 32 := load32_lt _ _
  have honly : ∀ j < f.phnum, j ≠ i → f.Loads (f.header j) →
      ¬ f.InFile (f.header j) (f.phVaddr (f.header i) + x) := by
    intro j hj hne hl hin
    have hap := hapart i hi j hj hne.symm hload hl
    have hc := (hck j hj hl).1
    unfold Apart at hap
    unfold InFile at hin
    omega
  unfold image
  split
  · rename_i hlt
    have hin : f.InFile (f.header i) (f.phVaddr (f.header i) + x) := ⟨Nat.le_add_right _ _,by omega⟩
    rw [loadedBytes_inside f.phnum f.phoff _ i hoff hi hload hin honly]
    congr 2
    change f.phVaddr (f.header i) + x - f.phVaddr (f.header i) = x
    omega
  · rename_i hge
    refine loadedBytes_outside f.phnum f.phoff _ hoff fun j hj hl hin => ?_
    by_cases hji : j = i
    · subst hji
      have := hin.2
      change f.phVaddr (f.header j) + x < f.phVaddr (f.header j) + f.phFilesz (f.header j) at this
      omega
    · exact honly j hj hji hl hin

end File

namespace Vm

/-- Every segment that was loaded passed the checks. -/
theorem loadSegments_checked (n : ℕ) : ∀ (s : Machine) (off sz : ℕ) {sz' : ℕ} {s' : Machine}, off < 2 ^ 32 →
    loadSegments k f d n off sz s = .ok (some sz',s') →
    ∀ i < n, f.Loads (headerFrom off i) → f.Checked (headerFrom off i) := by
  induction n with
  | zero =>
    intro s off sz sz' s' _ _ i hi
    exact absurd hi (Nat.not_lt_zero i)
  | succ n ih =>
    intro s off sz sz' s' hoff hrun i hi hload
    have hlt : u32 (off + 32) < 2 ^ 32 := Nat.mod_lt _ (by decide)
    rw [loadSegments] at hrun
    split at hrun
    · cases hrun
    split at hrun
    · rename_i htype
      cases i with
      | zero =>
        rw [headerFrom_zero hoff] at hload
        exact absurd hload htype
      | succ i =>
        rw [← headerFrom_succ] at hload ⊢
        exact ih _ _ _ hlt hrun i (Nat.lt_of_succ_lt_succ hi) hload
    split at hrun
    · cases hrun
    split at hrun
    · cases hrun
    rename_i htype hmem hwrap
    obtain ⟨sz1,s1,-,hrun⟩ := bind_eq_ok hrun
    split at hrun
    · cases hrun
    split at hrun
    · cases hrun
    obtain ⟨b,s2,-,hrun⟩ := bind_eq_ok hrun
    cases b with
    | false => cases hrun
    | true =>
      cases i with
      | zero =>
        rw [headerFrom_zero hoff]
        have hv : f.phVaddr off < 2 ^ 32 := load32_lt _ _
        have hm : f.phMemsz off < 2 ^ 32 := load32_lt _ _
        unfold u32 at hwrap
        exact ⟨by omega,by omega⟩
      | succ i =>
        rw [← headerFrom_succ] at hload ⊢
        exact ih _ _ _ hlt hrun i (Nat.lt_of_succ_lt_succ hi) hload

end Vm
end X86OsDev.Xv6
