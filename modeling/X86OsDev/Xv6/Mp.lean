import X86OsDev.Xv6.Mmu

/-! # The MP configuration table (mp.c)

The loop of `mpinit` moves from entry to entry by the size of their types. At an
unknown type it stays where it is, so the table decides whether it ends.
-/
namespace X86OsDev.Xv6.Mp
open Memory

/-- `NCPU` -/
def maxCpu : ℕ := 8

def mpproc : UInt8 := 0x00
def mpbus : UInt8 := 0x01
def mpioapic : UInt8 := 0x02
def mpiointr : UInt8 := 0x03
def mplintr : UInt8 := 0x04

/-- `sizeof(struct mp)` -/
def mpSize : ℕ := 16
/-- `sizeof(struct mpconf)` -/
def mpconfSize : ℕ := 44
/-- `sizeof(struct mpproc)` -/
def mpprocSize : ℕ := 20
/-- `sizeof(struct mpioapic)` -/
def mpioapicSize : ℕ := 8

/-- What `mpinit` records: `cpus[i].apicid`, `ncpu` and `ioapicid`. -/
structure Cpus where
  apicid : ℕ → UInt8
  ncpu : ℕ
  ioapicid : UInt8

/-- The globals before `mpinit`. -/
def noCpus : Cpus := ⟨fun _ => 0,0,0⟩

inductive Stop
  /-- "Expect to run on an SMP" -/
  | notSmp
  /-- "Didn't find a suitable machine" -/
  | noMachine
  | outOfFuel
  deriving DecidableEq, Repr

section Search
variable (m : Mem)

def sum (addr len : ℕ) : UInt8 := (List.range len).foldl (fun s i => s + m (addr + i)) 0

/-- `memcmp(p, s, strlen(s)) == 0` -/
def same (p : ℕ) (s : List UInt8) : Bool := (List.range s.length).map (fun i => m (p + i)) = s

/-- The first structure among the `len` bytes at the physical address. -/
def mpsearch1 (a len : ℕ) : Option ℕ :=
  ((List.range (len / mpSize)).map fun k => p2v a + mpSize * k).find? fun p => same m p [95,77,80,95] && sum m p mpSize = 0

def mpsearch : Option ℕ :=
  let bda := p2v 0x400
  let ebda := load16 m (bda + 0x0E) * 2 ^ 4
  let inRam := if ebda ≠ 0 then mpsearch1 m ebda 1024 else mpsearch1 m (sub32 (load16 m (bda + 0x13) * 1024) 1024) 1024
  inRam.or (mpsearch1 m 0xF0000 0x10000)

/-- `conf->length` -/
def length (conf : ℕ) : ℕ := load16 m (conf + 4)

/-- The table `conf`, if it is accepted. -/
def mpconfig : Option ℕ := do
  let mp ← mpsearch m
  if load32 m (mp + 4) = 0 then none
  else
    let conf := p2v (load32 m (mp + 4))
    if ¬ same m conf [80,67,77,80] then none
    else if m (conf + 6) ≠ 1 ∧ m (conf + 6) ≠ 4 then none
    else if sum m conf (length m conf) ≠ 0 then none
    else some conf

/-- The loop of `mpinit` from `p` to `e`, with `ismp`. -/
def entryLoop (e : ℕ) : ℕ → ℕ → Bool → Cpus → Option (Bool × Cpus)
  | 0, _, _, _ => none
  | fuel + 1, p, ismp, s =>
    if p < e then
      if m p = mpproc then
        entryLoop e fuel (p + mpprocSize) ismp (if s.ncpu < maxCpu then
          { s with apicid := Function.update s.apicid s.ncpu (m (p + 1)), ncpu := s.ncpu + 1 } else s)
      else if m p = mpioapic then entryLoop e fuel (p + mpioapicSize) ismp { s with ioapicid := m (p + 1) }
      else if m p = mpbus ∨ m p = mpiointr ∨ m p = mplintr then entryLoop e fuel (p + 8) ismp s
      -- `break` leaves the switch only, and `p` is not moved
      else entryLoop e fuel p false s
    else some (ismp,s)

def mpinit (fuel : ℕ) : Except Stop Cpus :=
  match mpconfig m with
  | none => .error .notSmp
  | some conf =>
    match entryLoop m (conf + length m conf) fuel (conf + mpconfSize) true noCpus with
    | none => .error .outOfFuel
    | some (ismp,s) => if ismp then .ok s else .error .noMachine

/-! ## The entries of a table -/

/-- The size of an entry by its type. -/
def entrySize (t : UInt8) : Option ℕ :=
  if t = mpproc then some mpprocSize
  else if t = mpioapic then some mpioapicSize
  else if t = mpbus ∨ t = mpiointr ∨ t = mplintr then some 8
  else none

def Known (t : UInt8) : Prop := (entrySize t).isSome

instance (t : UInt8) : Decidable (Known t) := inferInstanceAs (Decidable (_ = true))

/-- The entries from `p` to `e`, each after the one before it, up to the first unknown one. -/
def entries (e : ℕ) : ℕ → ℕ → List ℕ
  | 0, _ => []
  | n + 1, p =>
    if p < e then p :: match entrySize (m p) with
      | some k => entries e n (p + k)
      | none => []
    else []

/-- The entries of the table at `conf`. -/
def tableEntries (conf : ℕ) : List ℕ := entries m (conf + length m conf) (length m conf) (conf + mpconfSize)

/-- The APIC ids of the processor entries. -/
def processors (l : List ℕ) : List UInt8 := (l.filter (m · = mpproc)).map fun p => m (p + 1)

def Cpus.recorded (s : Cpus) : List UInt8 := (List.range s.ncpu).map s.apicid

/-- The first processors of the table are recorded in its order, or there is a panic
and an entry has an unknown type. -/
def Ends (conf : ℕ) : Except Stop Cpus → Prop
  | .ok s => s.ncpu ≤ maxCpu ∧ s.recorded = (processors m (tableEntries m conf)).take maxCpu
  | .error .noMachine => ∃ p ∈ tableEntries m conf, ¬ Known (m p)
  | .error _ => False

end Search

section Loop
variable {m : Mem} {e n p fuel : ℕ} {ismp : Bool} {s : Cpus}

/-- What an entry changes. -/
def enter (m : Mem) (s : Cpus) (p : ℕ) : Cpus :=
  if m p = mpproc then
    if s.ncpu < maxCpu then { s with apicid := Function.update s.apicid s.ncpu (m (p + 1)), ncpu := s.ncpu + 1 } else s
  else if m p = mpioapic then { s with ioapicid := m (p + 1) }
  else s

theorem entrySize_pos {t : UInt8} {k : ℕ} (h : entrySize t = some k) : 0 < k := by
  simp only [entrySize, mpprocSize, mpioapicSize] at h
  split_ifs at h <;> simp_all <;> omega

theorem entryLoop_done (h : e ≤ p) : entryLoop m e (fuel + 1) p ismp s = some (ismp,s) := by
  rw [entryLoop, if_neg (Nat.not_lt.mpr h)]

theorem entryLoop_entry {k : ℕ} (h : p < e) (hk : entrySize (m p) = some k) :
    entryLoop m e (fuel + 1) p ismp s = entryLoop m e fuel (p + k) ismp (enter m s p) := by
  rw [entryLoop, if_pos h]
  simp only [entrySize, enter] at hk ⊢
  split_ifs at hk ⊢ <;> simp_all

/-- At an unknown type the cursor stays. -/
theorem entryLoop_stuck (h : p < e) (hk : ¬ Known (m p)) : entryLoop m e fuel p ismp s = none := by
  induction fuel generalizing ismp with
  | zero => rfl
  | succ fuel ih =>
    simp only [Known, entrySize] at hk
    split_ifs at hk with h1 h2 h3
    all_goals try exact absurd rfl hk
    rw [entryLoop, if_pos h, if_neg h1, if_neg h2, if_neg h3]
    exact ih

/-- If every type is known the loop takes the entries one by one. -/
theorem entryLoop_known (h : ∀ q ∈ entries m e n p, Known (m q)) (hn : e ≤ p + n) :
    entryLoop m e (n + 1) p ismp s = some (ismp,(entries m e n p).foldl (enter m) s) := by
  induction n generalizing p s with
  | zero => exact entryLoop_done hn
  | succ n ih =>
    by_cases hp : p < e
    · rw [entries, if_pos hp] at h ⊢
      obtain ⟨k,hk⟩ := Option.isSome_iff_exists.mp (h p List.mem_cons_self)
      have hpos := entrySize_pos hk
      simp only [hk] at h ⊢
      rw [entryLoop_entry hp hk, ih (fun q hq => h q (List.mem_cons_of_mem _ hq)) (by omega)]
      rfl
    · rw [entries, if_neg hp]
      exact entryLoop_done (Nat.le_of_not_lt hp)

theorem entryLoop_unknown (h : ∃ q ∈ entries m e n p, ¬ Known (m q)) : entryLoop m e fuel p ismp s = none := by
  induction n generalizing p s fuel with
  | zero =>
    obtain ⟨q,hq,-⟩ := h
    exact absurd hq List.not_mem_nil
  | succ n ih =>
    obtain ⟨q,hq,hun⟩ := h
    by_cases hp : p < e
    · by_cases hkn : Known (m p)
      · obtain ⟨k,hk⟩ := Option.isSome_iff_exists.mp hkn
        rw [entries, if_pos hp] at hq
        simp only [hk] at hq
        have hq' : q ∈ entries m e n (p + k) := (List.mem_cons.mp hq).resolve_left fun hqp => hun (hqp ▸ hkn)
        cases fuel with
        | zero => rfl
        | succ fuel =>
          rw [entryLoop_entry hp hk]
          exact ih ⟨q,hq',hun⟩
      · exact entryLoop_stuck hp hkn
    · rw [entries, if_neg hp] at hq
      exact absurd hq List.not_mem_nil

theorem recorded_enter : (enter m s p).recorded =
    if m p = mpproc ∧ s.ncpu < maxCpu then s.recorded ++ [m (p + 1)] else s.recorded := by
  by_cases h1 : m p = mpproc
  · by_cases h2 : s.ncpu < maxCpu
    · rw [enter, if_pos h1, if_pos h2, if_pos ⟨h1,h2⟩, Cpus.recorded, List.range_succ, List.map_append]
      congr 1
      · exact List.map_congr_left fun i hi => Function.update_of_ne (List.mem_range.mp hi).ne _ _
      · exact congrArg (fun b => [b]) (Function.update_self _ _ _)
    · rw [enter, if_pos h1, if_neg h2, if_neg fun h => h2 h.2]
  · have hc : ¬ (m p = mpproc ∧ s.ncpu < maxCpu) := fun h => h1 h.1
    rw [if_neg hc, enter, if_neg h1]
    split
    · rfl
    · rfl

theorem length_recorded (s : Cpus) : s.recorded.length = s.ncpu := by simp [Cpus.recorded]

theorem recorded_entries (l : List ℕ) (h : s.ncpu ≤ maxCpu) :
    (l.foldl (enter m) s).recorded = (s.recorded ++ processors m l).take maxCpu := by
  induction l generalizing s with
  | nil =>
    have hlen : s.recorded.length ≤ maxCpu := by rwa [length_recorded]
    rw [List.foldl_nil, processors, List.filter_nil, List.map_nil, List.append_nil, List.take_of_length_le hlen]
  | cons p l ih =>
    have hle : (enter m s p).ncpu ≤ maxCpu := by
      rw [← length_recorded, recorded_enter]
      split
      · rename_i hc
        rw [List.length_append, length_recorded]
        exact hc.2
      · rwa [length_recorded]
    rw [List.foldl_cons, ih hle, recorded_enter, processors, processors, List.filter_cons]
    by_cases h1 : m p = mpproc
    · by_cases h2 : s.ncpu < maxCpu
      · rw [if_pos ⟨h1,h2⟩, if_pos (decide_eq_true h1), List.map_cons, List.append_assoc]
        rfl
      · have hfull : maxCpu ≤ s.recorded.length := by rw [length_recorded]; exact Nat.le_of_not_lt h2
        rw [if_neg fun hc => h2 hc.2, List.take_append_of_le_length hfull, List.take_append_of_le_length hfull]
    · rw [if_neg fun hc => h1 hc.1, if_neg (by simpa using h1)]

end Loop

section Table
variable {m : Mem} {conf : ℕ}

theorem mpinit_known (h : mpconfig m = some conf) (hk : ∀ p ∈ tableEntries m conf, Known (m p)) :
    mpinit m (length m conf + 1) = .ok ((tableEntries m conf).foldl (enter m) noCpus) := by
  rw [mpinit, h]
  dsimp only
  rw [entryLoop_known hk (by omega)]
  rfl

theorem mpinit_unknown (h : mpconfig m = some conf) (hk : ∃ p ∈ tableEntries m conf, ¬ Known (m p)) (fuel : ℕ) :
    mpinit m fuel = .error .outOfFuel := by
  rw [mpinit, h]
  dsimp only
  rw [entryLoop_unknown hk]

/-- The scan of an accepted table ends as it should if and only if every entry has a known type. -/
theorem mpinit_ends_iff (h : mpconfig m = some conf) :
    (∃ fuel, Ends m conf (mpinit m fuel)) ↔ ∀ p ∈ tableEntries m conf, Known (m p) := by
  constructor
  · rintro ⟨fuel,hends⟩
    by_contra hk
    rw [mpinit_unknown h (by simpa using hk)] at hends
    exact hends
  · intro hk
    have hrec := recorded_entries (m := m) (s := noCpus) (tableEntries m conf) (Nat.zero_le _)
    refine ⟨length m conf + 1,?_⟩
    rw [mpinit_known h hk]
    refine ⟨?_,hrec⟩
    rw [← length_recorded, hrec]
    exact List.length_take_le _ _

end Table

/-! ## Two tables -/

/-- A floating pointer structure in the EBDA at 0x1000 that gives a table at 0x2000. -/
def firmware (table : List UInt8) : Mem := fun a =>
  if a = p2v 0x40F then 1
  else if p2v 0x1000 ≤ a ∧ a < p2v 0x1010 then
    [95,77,80,95,0,0x20,0,0,1,4,128,0,0,0,0,0].getD (a - p2v 0x1000) 0
  else if p2v 0x2000 ≤ a then table.getD (a - p2v 0x2000) 0
  else 0

def header (len checksum : UInt8) : List UInt8 := [80,67,77,80,len,0,4,checksum] ++ List.replicate 36 0

/-- One processor with id 7. -/
def oneProcessor : Mem := firmware (header 64 133 ++ [0,7] ++ List.replicate 18 0)

theorem oneProcessor_ends : mpconfig oneProcessor = some (p2v 0x2000) ∧
    ((∃ fuel, Ends oneProcessor (p2v 0x2000) (mpinit oneProcessor fuel)) ↔
      ∀ p ∈ tableEntries oneProcessor (p2v 0x2000), Known (oneProcessor p)) :=
  have h : mpconfig oneProcessor = some (p2v 0x2000) := by decide +kernel
  ⟨h,mpinit_ends_iff h⟩

/-- One entry of type 5. -/
def oneUnknown : Mem := firmware (header 52 147 ++ [5,0,0,0,0,0,0,0])

/-- The table is accepted, and the loop never leaves its entry. -/
theorem oneUnknown_never_ends : mpconfig oneUnknown = some (p2v 0x2000) ∧
    (∀ fuel, mpinit oneUnknown fuel = .error .outOfFuel) ∧ ¬ ∃ fuel, Ends oneUnknown (p2v 0x2000) (mpinit oneUnknown fuel) := by
  have h : mpconfig oneUnknown = some (p2v 0x2000) := by decide +kernel
  have hk : ∃ p ∈ tableEntries oneUnknown (p2v 0x2000), ¬ Known (oneUnknown p) := by decide +kernel
  refine ⟨h,mpinit_unknown h hk,?_⟩
  rintro ⟨fuel,hends⟩
  rw [mpinit_unknown h hk] at hends
  exact hends

end X86OsDev.Xv6.Mp
