import X86OsDev.Xv6.VmFork

/-! # Growing and shrinking are inverse (vm.c)

A page directory translates every address that has a present entry. `allocuvm` adds
translations between two sizes, or leaves all of them as they were when memory is
short, and `deallocuvm` removes what it added.
-/
namespace X86OsDev.Xv6
open Memory Fault Counting

variable {k : Kernel} {all oth : Multiset ℕ} {s t : Machine} {d a b : ℕ}

/-- All addresses have the entries that they had, if they are present. -/
def SameTranslation (m m' : Mem) (d : ℕ) : Prop := ∀ va < 2 ^ 32, userEntry m' d va = userEntry m d va

namespace Vm

/-- Two directories that differ only where they have no page. -/
theorem sameTranslation_of_outside {m m' : Mem} {lo hi : ℕ}
    (hout : ∀ va < 2 ^ 32, va < lo ∨ hi ≤ va → pteOf m' d va = pteOf m d va)
    (h : ∀ va, lo ≤ va → va < hi → present (pteOf m d va) = false)
    (h' : ∀ va, lo ≤ va → va < hi → present (pteOf m' d va) = false) : SameTranslation m m' d := by
  intro va hva
  by_cases hin : lo ≤ va ∧ va < hi
  · rw [userEntry_absent (h va hin.1 hin.2), userEntry_absent (h' va hin.1 hin.2)]
  · unfold userEntry
    rw [hout va hva (by omega)]

/-- The page of an entry is that of its translation. -/
theorem pageOf_congr {m m' : Mem} {va : ℕ} (h : userEntry m' d va = userEntry m d va) :
    pageOf (pteOf m' d va) = pageOf (pteOf m d va) := by
  unfold userEntry at h
  unfold pageOf
  by_cases h1 : present (pteOf m d va) = true
  · by_cases h2 : present (pteOf m' d va) = true
    · rw [if_pos h1, if_pos h2] at h
      rw [Option.some.inj h]
    · rw [if_pos h1, if_neg h2] at h
      exact absurd h.symm (Option.some_ne_none _)
  · by_cases h2 : present (pteOf m' d va) = true
    · rw [if_neg h1, if_pos h2] at h
      exact absurd h (Option.some_ne_none _)
    · rw [if_neg h1, if_neg h2]

theorem userPages_congr {m m' : Mem} (h : SameTranslation m m' d) : userPages m' d = userPages m d := by
  refine Finset.sum_congr rfl fun j hj => pageOf_congr (h _ ?_)
  have := mem_userIndices.mp hj
  omega

/-- Pages that left the free list without a new translation are page tables now. -/
theorem free_or_table (h : Dir k all s d oth) (h' : Dir k all t d oth) (hsame : SameTranslation s.mem t.mem d) :
    (t.freelist : Multiset ℕ) + tablePages t.mem d = s.freelist + tablePages s.mem d := by
  have howned := h.owned.trans h'.owned.symm
  unfold vmPages at howned
  rw [userPages_congr hsame] at howned
  have hshuffle : ∀ f v u : Multiset ℕ, f + (({d} + (v + u)) + oth) = (f + v) + ({d} + u + oth) := fun f v u => by
    abel
  rw [hshuffle, hshuffle] at howned
  exact (add_right_cancel howned).symm

/-- The counter of the loop never ends it: any larger one gives the same program. -/
theorem deallocuvmLoop_enough {oldsz n n' : ℕ} (hold : oldsz ≤ 0x80000000) (ha : a % 4096 = 0) (hn : oldsz ≤ a + n * 4096)
    (hle : n ≤ n') : deallocuvmLoop k d oldsz n' a = deallocuvmLoop k d oldsz n a := by
  induction n generalizing n' a with
  | zero =>
    cases n' with
    | zero => rfl
    | succ n' =>
      have hend : ¬ a < oldsz := by omega
      simp only [deallocuvmLoop, if_neg hend]
  | succ n ih =>
    obtain ⟨n',rfl⟩ := Nat.exists_eq_succ_of_ne_zero (show n' ≠ 0 by omega)
    by_cases hlt : a < oldsz
    · have hx := pdx_of_lt (show a < 2 ^ 32 by omega)
      have hskip : u32 ((pdx a + 1) * 2 ^ 22) = (pdx a + 1) * 2 ^ 22 := u32_of_lt (by omega)
      have hnext : u32 (a + pgsize) = a + 4096 := u32_of_lt (by unfold pgsize; omega)
      simp only [deallocuvmLoop, if_pos hlt, hskip, hnext]
      rw [ih (by omega) (by omega) (Nat.le_of_succ_le_succ hle), ih (by omega) (by omega) (Nat.le_of_succ_le_succ hle)]
    · simp only [deallocuvmLoop, if_neg hlt]

/-- `deallocuvm` to a smaller or equal size takes back the translations above it. -/
theorem deallocuvm_restores {m : Mem} (h : Dir k all t d oth) (hab : a ≤ b) (hb : b < 0x80000000)
    (hout : ∀ va < 2 ^ 32, va < (a + 4095) / 4096 * 4096 ∨ (b + 4095) / 4096 * 4096 ≤ va → pteOf t.mem d va = pteOf m d va)
    (hno : ∀ va, (a + 4095) / 4096 * 4096 ≤ va → va < (b + 4095) / 4096 * 4096 → present (pteOf m d va) = false) :
    ∃ u, deallocuvm k d b a t = .ok (a,u) ∧ SameTranslation m u.mem d := by
  rcases hab.lt_or_eq with hlt | rfl
  · obtain ⟨u,hrun,-,-,houtu,hin,-⟩ := deallocuvm_spec h hb.le hlt
    exact ⟨u,hrun,sameTranslation_of_outside (fun va hva ho => (houtu va hva ho).pte.trans (hout va hva ho)) hno hin⟩
  · refine ⟨t,?_,sameTranslation_of_outside hout (fun va h1 h2 => by omega) fun va h1 h2 => by omega⟩
    unfold deallocuvm
    rw [if_pos le_rfl]
    rfl

/-- `deallocuvm` of the whole user half. -/
theorem deallocuvm_all (h : Dir k all s d oth) :
    ∃ u, deallocuvm k d kernbase 0 s = .ok (0,u) ∧ (∀ va < kernbase, userEntry u.mem d va = none) ∧
      ∀ n, kernbase / pgsize + 1 ≤ n → deallocuvmLoop k d kernbase n (pgroundup 0) s = .ok ((),u) := by
  have hround : pgroundup 0 = 0 := by decide
  obtain ⟨u,hrun,-,-,-,hin,-⟩ := deallocuvmLoop_spec (k := k) (show kernbase ≤ 0x80000000 from le_rfl) (kernbase / pgsize + 1) s 0 h
    (by omega) (by unfold kernbase pgsize; omega)
  refine ⟨u,?_,fun va hva => userEntry_absent (hin va (Nat.zero_le _) ?_),fun n hn => ?_⟩
  · unfold deallocuvm
    rw [if_neg (by decide), hround, bind_ok hrun]
    rfl
  · unfold kernbase at hva ⊢
    omega
  · rw [hround, deallocuvmLoop_enough (show kernbase ≤ 0x80000000 from le_rfl) rfl (by unfold kernbase pgsize; omega) hn]
    exact hrun

/-- `allocuvm` adds the pages between two sizes and `deallocuvm` removes them; if memory is
short nothing is added, and `deallocuvm` can remove all user pages. -/
theorem allocuvm_deallocuvm (h : Dir k all s d oth) (hmaps : MapsBelow s.mem d a) (hab : a ≤ b) (hb : b < kernbase) :
    (∃ r t, allocuvm k d a b s = .ok (r,t) ∧ (r = b ∨ r = 0) ∧
      (r = b → MapsBelow t.mem d b ∧ (∀ va < pgroundup a, SameAt s.mem t.mem d va) ∧
        ∃ u, deallocuvm k d b a t = .ok (a,u) ∧ SameTranslation s.mem u.mem d) ∧
      (r = 0 → SameTranslation s.mem t.mem d ∧
        (t.freelist : Multiset ℕ) + tablePages t.mem d = s.freelist + tablePages s.mem d)) ∧
    ∃ u, deallocuvm k d kernbase 0 s = .ok (0,u) ∧ (∀ va < kernbase, userEntry u.mem d va = none) ∧
      ∀ n, kernbase / pgsize + 1 ≤ n → deallocuvmLoop k d kernbase n (pgroundup 0) s = .ok ((),u) := by
  refine ⟨?_,deallocuvm_all h⟩
  unfold kernbase at hb
  have hno : ∀ va, (a + 4095) / 4096 * 4096 ≤ va → va < (b + 4095) / 4096 * 4096 → present (pteOf s.mem d va) = false :=
    fun va h1 h2 => Bool.eq_false_iff.mpr fun hc => absurd ((hmaps va (by omega)).mp hc) (by omega)
  obtain ⟨r,t,hrun,hd,-,hout,-,hres⟩ := allocuvm_spec h hb hab hno
  have hout' : ∀ va < 2 ^ 32, va < (a + 4095) / 4096 * 4096 ∨ (b + 4095) / 4096 * 4096 ≤ va →
      pteOf t.mem d va = pteOf s.mem d va := fun va hva ho => (hout va hva ho).pte
  refine ⟨r,t,hrun,hres.imp And.left And.left,fun hr => ⟨?_,?_,deallocuvm_restores hd hab hb hout' hno⟩,fun hr => ?_⟩
  · intro va hva
    by_cases hin : (a + 4095) / 4096 * 4096 ≤ va ∧ va < (b + 4095) / 4096 * 4096
    · rcases hres with ⟨-,hfresh⟩ | ⟨hr0,-⟩
      · exact ⟨fun _ => hin.2,fun _ => (hfresh va hin.1 hin.2).present⟩
      · omega
    · rw [hout' va (by omega) (by omega), hmaps va hva]
      omega
  · intro va hva
    rw [pgroundup_eq (by unfold kernbase; omega)] at hva
    exact hout va (by omega) (.inl hva)
  · have hsame : SameTranslation s.mem t.mem d := by
      refine sameTranslation_of_outside hout' hno fun va h1 h2 => ?_
      rcases hres with ⟨hb0,-⟩ | ⟨-,habsent,-⟩
      · omega
      · exact habsent va h1 h2
    exact ⟨hsame,free_or_table h hd hsame⟩

/-- The directory of a process of one page, grown by a page and shrunk again. -/
theorem allocuvm_deallocuvm_one_page : ∃ r t, allocuvm smallKernel 0x80400000 4096 8192 onePage = .ok (r,t) ∧
    (r = 8192 → ∃ u, deallocuvm smallKernel 0x80400000 8192 4096 t = .ok (4096,u) ∧
      SameTranslation onePage.mem u.mem 0x80400000) := by
  obtain ⟨⟨r,t,hrun,-,hgrown,-⟩,-⟩ := allocuvm_deallocuvm onePage_dir.1 onePage_dir.2 (show 4096 ≤ 8192 by decide)
    (show 8192 < kernbase by decide)
  exact ⟨r,t,hrun,fun hr => (hgrown hr).2.2⟩

end Vm
end X86OsDev.Xv6
