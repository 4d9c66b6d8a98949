import X86OsDev.Xv6.ExecLaw

/-! # What a new program finds on its stack

The strings are pushed downwards from the top of the stack page, each at a
multiple of four, and the words that `main` sees lie right below them. Nothing
that is written later reaches a string that was written before.
-/
namespace X86OsDev.Xv6
open Memory Fault Counting

variable {k : Kernel} {all oth : Multiset ℕ} {s : Machine} {d : ℕ} {f : File}

/-- The word that the user reads at an address, if all of it is mapped. -/
def userWord (m : Mem) (d va : ℕ) : Option ℕ := do
  let b0 ← userByte m d va
  let b1 ← userByte m d (va + 1)
  let b2 ← userByte m d (va + 2)
  let b3 ← userByte m d (va + 3)
  some (b0.toNat + 2 ^ 8 * b1.toNat + 2 ^ 16 * b2.toNat + 2 ^ 24 * b3.toNat)

/-- The arguments in a new image: a return address, the number of the strings, a pointer to the array of the
pointers to them, the array, and the strings. All of it lies in the page at the top of the image, in pieces
that do not overlap. -/
structure ArgsAt (m : Mem) (im : Vm.Image) (argv : List (List UInt8)) (ptrs : List ℕ) : Prop where
  returnPc : userWord m im.pgdir im.esp = some 0xffffffff
  argc : userWord m im.pgdir (im.esp + 4) = some argv.length
  vector : userWord m im.pgdir (im.esp + 8) = some (im.esp + 12)
  length : ptrs.length = argv.length
  pointers : ∀ i (hi : i < ptrs.length), userWord m im.pgdir (im.esp + 12 + 4 * i) = some ptrs[i]
  null : userWord m im.pgdir (im.esp + 12 + 4 * argv.length) = some 0
  strings : ∀ i (hi : i < ptrs.length) (ha : i < argv.length), ∀ j ≤ argv[i].length,
    userByte m im.pgdir (ptrs[i] + j) = some (argv[i].getD j 0)
  page : im.sz % pgsize = 0 ∧ pgsize ≤ im.sz ∧ im.sz - pgsize ≤ im.esp ∧
    ∀ va, im.sz - pgsize ≤ va → va < im.sz → user (pteOf m im.pgdir va) = true
  inside : ∀ i (hi : i < ptrs.length) (ha : i < argv.length), ptrs[i] + (argv[i].length + 1) ≤ im.sz
  below : ∀ p ∈ ptrs, im.esp + 12 + 4 * (argv.length + 1) ≤ p
  apart : ∀ i j (hi : i < ptrs.length) (hj : j < ptrs.length) (ha : j < argv.length), i < j →
    ptrs[j] + (argv[j].length + 1) ≤ ptrs[i]
  aligned : im.esp % 4 = 0 ∧ ∀ p ∈ ptrs, p % 4 = 0

/-- `exec` passes the arguments on, or refuses those that do not fit into the page. -/
structure PassesArgs (k : Kernel) (f : File) (argv : List (List UInt8)) (oldpgdir : ℕ) (s : Machine) : Prop where
  passed : ∀ im s', Vm.exec k f argv oldpgdir s = .ok (some im,s') → ∃ ptrs, ArgsAt s'.mem im argv ptrs
  refused : pgsize < (argv.map padded).sum + (3 + argv.length + 1) * 4 →
    ∃ s', Vm.exec k f argv oldpgdir s = .ok (none,s')

/-- Where the strings are pushed, below `t` bytes of strings before them. -/
def stringPlaces (sz : ℕ) : ℕ → List (List UInt8) → List ℕ
  | _, [] => []
  | t, a :: rest => (sz - (t + padded a)) :: stringPlaces sz (t + padded a) rest

section Words

theorem userWord_eq {m : Mem} {va w : ℕ} (hw : w < 2 ^ 32)
    (h : ∀ j < 4, userByte m d (va + j) = some (UInt8.ofNat (w / 2 ^ (8 * j)))) : userWord m d va = some w := by
  unfold userWord
  have h0 := h 0 (by omega)
  rw [Nat.add_zero] at h0
  rw [h0, h 1 (by omega), h 2 (by omega), h 3 (by omega)]
  simp only [Option.bind_eq_bind, Option.bind_some, UInt8.toNat_ofNat']
  congr 1
  omega

end Words

section Places
variable (sz : ℕ)

theorem length_stringPlaces (argv : List (List UInt8)) : ∀ t, (stringPlaces sz t argv).length = argv.length := by
  induction argv with
  | nil => intro t; rfl
  | cons a rest ih => intro t; rw [stringPlaces, List.length_cons, ih, List.length_cons]

/-- The places lie below the strings before them, and they are multiples of four. -/
theorem mem_stringPlaces (argv : List (List UInt8)) : ∀ t, sz % 4 = 0 → t % 4 = 0 → t + (argv.map padded).sum ≤ sz →
    ∀ p ∈ stringPlaces sz t argv, p % 4 = 0 ∧ sz - (t + (argv.map padded).sum) ≤ p := by
  induction argv with
  | nil => intro t _ _ _ p hp; cases hp
  | cons a rest ih =>
    intro t hsz ht hle p hp
    rw [List.map_cons, List.sum_cons] at hle ⊢
    rcases List.mem_cons.mp hp with rfl | hp
    · unfold padded at *
      omega
    · have := ih (t + padded a) hsz (by unfold padded; omega) (by omega) p hp
      omega

theorem stringPlaces_end (argv : List (List UInt8)) : ∀ t, t + (argv.map padded).sum ≤ sz →
    ∀ i (hi : i < (stringPlaces sz t argv).length) (ha : i < argv.length),
      (stringPlaces sz t argv)[i] + (argv[i].length + 1) ≤ sz - t := by
  induction argv with
  | nil => intro t _ i hi ha; cases ha
  | cons a rest ih =>
    intro t hle i hi ha
    rw [List.map_cons, List.sum_cons] at hle
    cases i with
    | zero =>
      simp only [stringPlaces, List.getElem_cons_zero]
      unfold padded at *
      omega
    | succ i =>
      simp only [stringPlaces, List.getElem_cons_succ]
      have := ih (t + padded a) (by omega) i (by simpa [stringPlaces] using hi) (by simpa using ha)
      omega

theorem stringPlaces_apart (argv : List (List UInt8)) : ∀ t, t + (argv.map padded).sum ≤ sz →
    ∀ i j (hi : i < (stringPlaces sz t argv).length) (hj : j < (stringPlaces sz t argv).length) (ha : j < argv.length),
      i < j → (stringPlaces sz t argv)[j] + (argv[j].length + 1) ≤ (stringPlaces sz t argv)[i] := by
  induction argv with
  | nil => intro t _ i j hi hj ha; cases ha
  | cons a rest ih =>
    intro t hle i j hi hj ha hij
    rw [List.map_cons, List.sum_cons] at hle
    obtain ⟨j,rfl⟩ : ∃ n, j = n + 1 := ⟨j - 1,by omega⟩
    have hj' : j < (stringPlaces sz (t + padded a) rest).length := by simpa [stringPlaces] using hj
    have ha' : j < rest.length := by simpa using ha
    cases i with
    | zero =>
      simp only [stringPlaces, List.getElem_cons_succ, List.getElem_cons_zero]
      exact stringPlaces_end sz rest (t + padded a) (by omega) j hj' ha'
    | succ i =>
      simp only [stringPlaces, List.getElem_cons_succ]
      exact ih (t + padded a) (by omega) i j (by simpa [stringPlaces] using hi) hj' ha' (by omega)

end Places

namespace Vm
variable {sz va len : ℕ}

/-- `copyout` into the stack page is one `memmove`. -/
theorem copyout_page (buf : ℕ → UInt8) (h : Dir k all s d oth) (hst : Stacked s.mem d sz) (hlen : len ≠ 0) (hva : sz - 4096 ≤ va)
    (hle : va + len ≤ sz) :
    ∃ s', copyout d va buf len s = .ok (true,s') ∧ Dir k all s' d oth ∧ SamePages s.mem s'.mem oth ∧
      SameMap s.mem s'.mem d ∧ ∀ x < sz, userByte s'.mem d x =
        if va ≤ x ∧ x < va + len then some (buf (x - va)) else userByte s.mem d x := by
  have hal := hst.aligned
  have hlow := hst.low
  have hlt := hst.lt
  have hva0 : pteOf s.mem d (va / 4096 * 4096) = pteOf s.mem d va := by
    rw [Nat.mul_comm]
    exact pteOf_page s.mem d va
  have hp : present (pteOf s.mem d va) = true := (hst.maps va (by omega)).mpr (by omega)
  have hu : user (pteOf s.mem d va) = true := (hst.accessible va (by omega)).mpr (by omega)
  have hmin : min (pgsize - (va - va / 4096 * 4096)) len = len := min_eq_right (by unfold pgsize; omega)
  have hoff : va - va / 4096 * 4096 = va % 4096 := by omega
  obtain ⟨n,rfl⟩ : ∃ n, len = n + 1 := ⟨len - 1,by omega⟩
  obtain ⟨h1,h2,h3⟩ : Dir k all
      { s with mem := copy s.mem (p2v (pteAddr (pteOf s.mem d va)) + va % 4096) (n + 1) (fun x => buf (0 + x)) } d oth ∧ _ :=
    h.writeMapped (by omega) hp (by omega) (by omega)
  refine ⟨_,?_,h1,h2,h3,fun x hx => ?_⟩
  · unfold copyout
    rw [copyoutLoop_succ hlen, pgrounddown_eq, bind_ok (uva2ka_mapped (by rw [hva0]; exact hp)), hva0, hu]
    rw [hmin, hoff, if_pos rfl]
    dsimp only
    rw [bind_ok (memmove_ok _ _ _ _), Nat.sub_self]
    cases n with
    | zero => rfl
    | succ n => rfl
  · rw [h.userByte_copy (by omega) hp (by omega) (by omega)]
    by_cases hin : va ≤ x ∧ x < va + (n + 1)
    · rw [if_pos (by omega), if_pos hin]
      congr 2
      omega
    · rw [if_neg (by omega), if_neg hin]

/-- `copyout` writes only where the user may. -/
theorem copyout_accessible {buf : ℕ → UInt8} {s' : Machine} (h : Dir k all s d oth) (hst : Stacked s.mem d sz)
    (hle : va + len ≤ sz) (hrun : copyout d va buf len s = .ok (true,s')) :
    ∀ x, va ≤ x → x < va + len → user (pteOf s.mem d x) = true := by
  obtain ⟨r,t,ht,-,-,-,-,hr⟩ := copyout_spec h hst hle
  rw [hrun] at ht
  cases ht
  exact hr.mp rfl

/-- Pushing strings that all fit: each is at its place, and what was pushed before is still there. -/
theorem pushArgs_places (argv : List (List UInt8)) : ∀ (s : Machine) (t : ℕ) (ptrs : List ℕ), Dir k all s d oth →
    Stacked s.mem d sz → t % 4 = 0 → t + (argv.map padded).sum ≤ 4096 → ptrs.length + argv.length ≤ maxarg →
    ∃ s', pushArgs d (sz - t) ptrs argv s =
        .ok (some (sz - (t + (argv.map padded).sum),ptrs ++ stringPlaces sz t argv),s') ∧
      Dir k all s' d oth ∧ SamePages s.mem s'.mem oth ∧ SameMap s.mem s'.mem d ∧
      (∀ x, sz - t ≤ x → x < sz → userByte s'.mem d x = userByte s.mem d x) ∧
      ∀ i (hi : i < (stringPlaces sz t argv).length) (ha : i < argv.length), ∀ j ≤ argv[i].length,
        userByte s'.mem d ((stringPlaces sz t argv)[i] + j) = some (argv[i].getD j 0) := by
  induction argv with
  | nil =>
    intro s t ptrs h _ _ _ _
    refine ⟨s,?_,h,.refl _ _,.refl _ _,fun _ _ _ => rfl,fun i hi ha => by cases ha⟩
    simp [pushArgs, stringPlaces]
  | cons a rest ih =>
    intro s t ptrs h hst ht hle hfew
    rw [List.map_cons, List.sum_cons, ← add_assoc] at hle ⊢
    rw [List.length_cons] at hfew
    have hlow := hst.low
    have hpad : a.length + 1 ≤ padded a ∧ padded a ≤ a.length + 4 := by
      unfold padded
      omega
    have hsp := pushSp_eq (a := a) hst.aligned ht (by omega) hst.lt (by omega)
    rw [if_pos (by omega)] at hsp
    obtain ⟨s1,hrun1,h1,hsame1,hmap1,hbytes1⟩ := copyout_page (stringBytes a) h hst (Nat.succ_ne_zero a.length)
      (show sz - 4096 ≤ sz - (t + padded a) by omega) (by omega)
    obtain ⟨s',hrun,h',hsame,hmap,hkeep,hstrings⟩ := ih s1 (t + padded a) (ptrs ++ [sz - (t + padded a)]) h1
      (hst.congr hmap1) (by unfold padded; omega) hle (by rw [List.length_append, List.length_singleton]; omega)
    refine ⟨s',?_,h',hsame1.trans hsame,hmap1.trans hmap,fun x hx1 hx2 => ?_,fun i hi ha j hj => ?_⟩
    · rw [pushArgs, if_neg (by omega), hsp, bind_ok hrun1, if_pos rfl, hrun, List.append_assoc]
      rfl
    · rw [hkeep x (by omega) hx2, hbytes1 x hx2, if_neg (by omega)]
    · cases i with
      | zero =>
        simp only [List.getElem_cons_zero] at hj ⊢
        change userByte s'.mem d (sz - (t + padded a) + j) = _
        rw [hkeep _ (by omega) (by omega), hbytes1 _ (by omega), if_pos (by omega)]
        congr 2
        omega
      | succ i =>
        simp only [List.getElem_cons_succ] at hj ⊢
        exact hstrings i (by simpa [stringPlaces] using hi) (by simpa using ha) j hj

variable {old : ℕ} {argv : List (List UInt8)}

/-- The words of the vector, once they are in the stack page. -/
theorem userWord_vector {m : Mem} {va i : ℕ} {ws : List ℕ} (hi : i < ws.length) (hw : ws[i] < 2 ^ 32)
    (hbytes : ∀ x, va ≤ x → x < va + 4 * ws.length → userByte m d x = some (wordBytes ws (x - va))) :
    userWord m d (va + 4 * i) = some ws[i] := by
  refine userWord_eq hw fun j hj => ?_
  rw [hbytes _ (by omega) (by omega)]
  unfold wordBytes
  rw [show va + 4 * i + j - va = 4 * i + j by omega, show (4 * i + j) / 4 = i by omega,
    show (4 * i + j) % 4 = j by omega, List.getD_eq_getElem _ _ hi]

/-- The words and the strings in the stack page are the arguments. -/
theorem argsAt_of_bytes {m : Mem} {im : Image} (hst : Stacked m im.pgdir im.sz) (hfew : argv.length < maxarg)
    (hfit : (argv.map padded).sum + (3 + argv.length + 1) * 4 ≤ 4096)
    (hesp : im.esp = im.sz - (argv.map padded).sum - (3 + argv.length + 1) * 4)
    (hwords : ∀ x, im.esp ≤ x → x < im.esp + 4 * (3 + argv.length + 1) → userByte m im.pgdir x =
      some (wordBytes (ustack (im.sz - (argv.map padded).sum) (stringPlaces im.sz 0 argv)) (x - im.esp)))
    (hstrings : ∀ i (hi : i < (stringPlaces im.sz 0 argv).length) (ha : i < argv.length), ∀ j ≤ argv[i].length,
      userByte m im.pgdir ((stringPlaces im.sz 0 argv)[i] + j) = some (argv[i].getD j 0)) :
    ArgsAt m im argv (stringPlaces im.sz 0 argv) := by
  have hal := hst.aligned
  have hlow := hst.low
  have hlt := hst.lt
  have hmod := sum_padded_mod argv
  have hlength := length_stringPlaces im.sz argv 0
  have hplaces := mem_stringPlaces im.sz argv 0 (by omega) rfl (by omega)
  rw [Nat.zero_add] at hplaces
  unfold maxarg at hfew
  obtain ⟨ws,hws⟩ : ∃ ws, ustack (im.sz - (argv.map padded).sum) (stringPlaces im.sz 0 argv) = ws := ⟨_,rfl⟩
  have hwl : ws.length = 3 + argv.length + 1 := by
    rw [← hws, ← hlength]
    simp only [ustack, List.length_append, List.length_cons, List.length_nil]
  rw [hws, ← hwl] at hwords
  have hvec : sub32 (im.sz - (argv.map padded).sum) ((argv.length + 1) * 4) = im.esp + 12 := by
    rw [sub32_of_le (by omega)]
    omega
  have hhead : ws = [0xffffffff,argv.length,im.esp + 12] ++ stringPlaces im.sz 0 argv ++ [0] := by
    rw [← hws, ustack, hlength, hvec]
  have hword : ∀ i w, ws[i]? = some w → w < 2 ^ 32 → userWord m im.pgdir (im.esp + 4 * i) = some w := by
    intro i w hget hw
    obtain ⟨hi,rfl⟩ := List.getElem?_eq_some_iff.mp hget
    exact userWord_vector hi hw hwords
  refine ⟨hword 0 _ (by rw [hhead]; rfl) (by omega),hword 1 _ (by rw [hhead]; rfl) (by omega),
    hword 2 _ (by rw [hhead]; rfl) (by omega),hlength,fun i hi => ?_,?_,hstrings,?_,fun i hi ha => ?_,fun p hp => ?_,
    stringPlaces_apart im.sz argv 0 (by omega),?_,fun p hp => (hplaces p hp).1⟩
  · have hp := hplaces _ (List.getElem_mem hi)
    have hend := stringPlaces_end im.sz argv 0 (by omega) i hi (by omega)
    rw [show im.esp + 12 + 4 * i = im.esp + 4 * (3 + i) by omega]
    refine hword (3 + i) _ ?_ (by omega)
    rw [hhead, List.append_assoc, List.getElem?_append_right (by simp), List.getElem?_append_left (by simpa using hi)]
    simp
  · rw [show im.esp + 12 + 4 * argv.length = im.esp + 4 * (3 + argv.length) by omega]
    refine hword (3 + argv.length) _ ?_ (by omega)
    rw [hhead, List.getElem?_append_right (by simp [hlength]; omega)]
    simp only [List.length_append, List.length_cons, List.length_nil, hlength]
    rw [show 3 + argv.length - (0 + 1 + 1 + 1 + argv.length) = 0 by omega]
    rfl
  · unfold pgsize
    exact ⟨hal,by omega,by omega,fun va h1 h2 => (hst.accessible va h2).mpr (by omega)⟩
  · exact stringPlaces_end im.sz argv 0 (by omega) i hi ha
  · have := (hplaces p hp).2
    omega
  · omega

/-- When `exec` returns 0, the arguments fitted into the page and are there. -/
theorem exec_args (h : Dir k all s old oth) (hfew : argv.length < maxarg) (hlen : ∀ a ∈ argv, a.length + 1 < 0x80000000)
    {im : Image} {s' : Machine} (hrun : exec k f argv old s = .ok (some im,s')) :
    (argv.map padded).sum + (3 + argv.length + 1) * 4 ≤ pgsize ∧
      ArgsAt s'.mem im argv (stringPlaces f.stackTop 0 argv) := by
  unfold exec at hrun
  obtain ⟨r1,s1,hload,hrun⟩ := bind_eq_ok hrun
  rcases r1 with - | ⟨d,sz⟩
  · cases hrun
  rcases loadImage_spec (f := f) h.pool h.owned with ⟨s1',hload',-,-⟩ | ⟨d',s1',hload',h1,hsame1,hst1,-⟩
  · rw [hload] at hload'
    cases hload'
  rw [hload] at hload'
  cases hload'
  obtain ⟨r2,s2,hpush,hrun⟩ := bind_eq_ok hrun
  rcases r2 with - | ⟨sp,ptrs⟩
  · obtain ⟨_,s3,-,hrun⟩ := bind_eq_ok hrun
    cases hrun
  have hsum := (pushArgs_inv h1 hst1 hfew hlen hpush).2.2.2.1
  obtain ⟨s2',hpush',h2,hsame2,hmap2,-,hstrings⟩ := pushArgs_places argv s1 0 [] h1 hst1 rfl (by omega)
    (by rw [List.length_nil]; omega)
  rw [Nat.sub_zero, hpush, List.nil_append, Nat.zero_add] at hpush'
  cases hpush'
  have hst2 := hst1.congr hmap2
  have hal := hst2.aligned
  have hlow := hst2.low
  have hlt := hst2.lt
  have hlength := length_stringPlaces f.stackTop argv 0
  have hmod := sum_padded_mod argv
  unfold maxarg at hfew
  -- the words below the strings
  obtain ⟨r3,s3,hcopy,hrun⟩ := bind_eq_ok hrun
  have hsub : sub32 (f.stackTop - (argv.map padded).sum) ((3 + (stringPlaces f.stackTop 0 argv).length + 1) * 4) =
      f.stackTop - (argv.map padded).sum - (3 + argv.length + 1) * 4 := by
    rw [hlength]
    exact sub32_of_le (by omega)
  rw [hsub, hlength] at hcopy
  cases r3 with
  | false =>
    obtain ⟨_,s4,-,hrun⟩ := bind_eq_ok hrun
    cases hrun
  | true =>
    obtain ⟨sp,hsp⟩ : ∃ sp, f.stackTop - (argv.map padded).sum - (3 + argv.length + 1) * 4 = sp := ⟨_,rfl⟩
    rw [hsub, hsp] at hrun
    rw [hsp] at hcopy
    have hfit : f.stackTop - 4096 ≤ sp := by
      by_contra hover
      have huser := copyout_accessible h2 hst2 (by omega) hcopy sp le_rfl (by omega)
      exact (hst2.accessible sp (by omega)).mp huser (by omega)
    obtain ⟨s3',hcopy',h3,hsame3,hmap3,hbytes⟩ := copyout_page (wordBytes (ustack
      (f.stackTop - (argv.map padded).sum) (stringPlaces f.stackTop 0 argv))) h2 hst2
      (show (3 + argv.length + 1) * 4 ≠ 0 by omega) hfit (by omega)
    rw [hcopy] at hcopy'
    cases hcopy'
    have hsame := (hsame1.trans hsame2).trans hsame3
    obtain ⟨s4,hfree,h4,-,hmap4,hat4,-⟩ := freevm_other (h3.swap hsame)
    obtain ⟨_,s5,hfree',hrun⟩ := bind_eq_ok hrun
    rw [hfree] at hfree'
    cases hfree'
    cases hrun
    have hst4 := (hst2.congr hmap3).congr hmap4
    refine ⟨show _ ≤ 4096 by omega,argsAt_of_bytes hst4 hfew (by omega) hsp.symm (fun x hx1 hx2 => ?_) fun i hi ha j hj => ?_⟩
    · dsimp only at hx1 hx2 ⊢
      rw [(hat4 x).userByte (by omega), hbytes x (by omega), if_pos (by omega)]
    · change i < (stringPlaces f.stackTop 0 argv).length at hi
      have hend := stringPlaces_end f.stackTop argv 0 (by omega) i hi ha
      have hbelow := (mem_stringPlaces f.stackTop argv 0 (by omega) rfl (by omega) _ (List.getElem_mem hi)).2
      dsimp only
      rw [(hat4 _).userByte (by omega), hbytes _ (by omega), if_neg (by omega)]
      exact hstrings i hi ha j hj

end Vm

/-- `exec` passes its arguments on, unless the stack pointer wraps around into the addresses between physical
memory and the devices. -/
theorem exec_passes_args (c : Caller) {uargv old : ℕ} {argv : List (List UInt8)} (h : Dir k all s old oth)
    (hargv : c.argv uargv = some argv) :
    PassesArgs k f argv old s ↔ (Vm.Loads k f s → ¬ HitsGap f.stackTop 0 argv) := by
  obtain ⟨hfew,hlen⟩ := c.argv_bounds hargv
  constructor
  · intro hp hload hgap
    obtain ⟨d,sz,s1,hrun⟩ := id hload
    obtain ⟨rfl,-,hst⟩ := Vm.loadImage_inv h hrun
    -- strings that fit do not reach the gap
    have hover : pgsize < (argv.map padded).sum := by
      by_contra hle
      unfold pgsize at hle
      have hnil := (Vm.hitsGap_append hst.low [] argv 0 (by omega)).mp (by rwa [List.append_nil])
      obtain ⟨t,ht,-⟩ := hnil
      cases ht
    obtain ⟨s',hnone⟩ := hp.refused (by omega)
    rw [Vm.exec_gap h hfew hlen hload hgap] at hnone
    cases hnone
  · intro hcond
    refine ⟨fun im s' hrun => ⟨_,(Vm.exec_args h hfew hlen hrun).2⟩,fun hover => ?_⟩
    by_cases hload : Vm.Loads k f s
    · rcases Vm.exec_spec (f := f) h hlen (hcond hload) with ⟨s',hrun,-⟩ | ⟨im,s',hrun,-⟩
      · exact ⟨s',hrun⟩
      · have := (Vm.exec_args h hfew hlen hrun).1
        omega
    · rcases Vm.loadImage_spec (f := f) h.pool h.owned with ⟨s1,hrun,-,-⟩ | ⟨d,s1,hrun,-⟩
      · refine ⟨s1,?_⟩
        unfold Vm.exec
        rw [bind_ok hrun]
        rfl
      · exact absurd ⟨d,_,s1,hrun⟩ hload

theorem short_string_passed : PassesArgs smallKernel emptyProgram [List.replicate 1 97] 0x80400000 smallMachine :=
  (exec_passes_args (stringCaller 1 (by decide)) smallMachine_dir (stringCaller_argv 1 (by decide))).mpr
    fun _ hc => by
      obtain ⟨t,ht,-⟩ := hc
      cases ht

/-- A string that wraps the stack pointer around into the gap is not refused. -/
theorem string_not_refused {n : ℕ} (h1 : 0x2002000 ≤ n) (h2 : n + 4 ≤ 0x72002000) :
    ¬ PassesArgs smallKernel emptyProgram [List.replicate n 97] 0x80400000 smallMachine := by
  intro hp
  have hover : pgsize < ([List.replicate n (97 : UInt8)].map padded).sum + (3 + [List.replicate n (97 : UInt8)].length + 1) * 4 := by
    rw [List.map_singleton, List.sum_singleton]
    unfold padded pgsize
    rw [List.length_replicate]
    omega
  obtain ⟨s',hrun⟩ := hp.refused hover
  rw [exec_string_null h1 h2] at hrun
  cases hrun

theorem long_string_not_refused :
    (stringCaller 0x2100000 (by decide)).argv 0 = some [List.replicate 0x2100000 97] ∧
      ¬ PassesArgs smallKernel emptyProgram [List.replicate 0x2100000 97] 0x80400000 smallMachine :=
  ⟨stringCaller_argv _ _,string_not_refused (by decide) (by decide)⟩

end X86OsDev.Xv6
