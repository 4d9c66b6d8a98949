import X86OsDev.Xv6.ExecLaw

/-! # Several address spaces in one machine

The free list, the page directories `ds` with all they own, and single pages
`raw` make up all pages. An operation on one directory leaves what the others
map alone.
-/
namespace X86OsDev.Xv6
open Memory Fault Counting

structure Owns (k : Kernel) (all : Multiset ℕ) (s : Machine) (ds raw : Multiset ℕ) : Prop where
  pool : Pool k all
  owned : (s.freelist : Multiset ℕ) + ((ds.map (vmPages s.mem)).sum + raw) = all

/-- What some directories map is unchanged. -/
def Keeps (m m' : Mem) (ds : Multiset ℕ) : Prop := ∀ d ∈ ds, SameMap m m' d

/-- A user address space of `sz` bytes. -/
structure Space (m : Mem) (d sz : ℕ) : Prop where
  pos : 0 < sz
  lt : sz < 0x80000000
  kernel : KernelMapped m d
  maps : MapsBelow m d sz

variable {k : Kernel} {all ds raw : Multiset ℕ} {s s' : Machine} {d sz : ℕ}

theorem Keeps.refl (m : Mem) (ds : Multiset ℕ) : Keeps m m ds := fun d _ => .refl m d

theorem Keeps.trans {m m' m'' : Mem} (h : Keeps m m' ds) (h' : Keeps m' m'' ds) : Keeps m m'' ds :=
  fun d hd => (h d hd).trans (h' d hd)

theorem Space.congr {m m' : Mem} (h : Space m d sz) (hm : SameMap m m' d) : Space m' d sz where
  pos := h.pos
  lt := h.lt
  kernel := hm.kernel h.kernel
  maps va hva := by
    rw [hm.pte]
    exact h.maps va hva

theorem Stacked.space {m : Mem} (h : Stacked m d sz) : Space m d sz where
  pos := by
    have := h.low
    omega
  lt := h.lt
  kernel := h.kernel
  maps := h.maps

theorem vmPages_le_sum {m : Mem} (hd : d ∈ ds) : vmPages m d ≤ (ds.map (vmPages m)).sum :=
  Multiset.le_sum_of_mem (Multiset.mem_map_of_mem _ hd)

/-- Directories whose pages are the same own the same pages and map the same. -/
theorem keeps_of_samePages {m m' : Mem} (h : SamePages m m' ((ds.map (vmPages m)).sum + raw)) :
    (ds.map (vmPages m')).sum = (ds.map (vmPages m)).sum ∧ Keeps m m' ds := by
  have hd : ∀ d ∈ ds, SamePages m m' ({d} + tablePages m d) := fun d hd =>
    h.mono ((Dir.tables_le_vm m d).trans ((vmPages_le_sum hd).trans (Multiset.le_add_right _ _)))
  refine ⟨?_,fun d hd' => .of_samePages (hd d hd')⟩
  rw [Multiset.map_congr rfl fun d hd' => vmPages_congr (hd d hd')]

namespace Owns

theorem dir (h : Owns k all s (d ::ₘ ds) raw) : Dir k all s d ((ds.map (vmPages s.mem)).sum + raw) where
  pool := h.pool
  owned := by
    have := h.owned
    rw [Multiset.map_cons, Multiset.sum_cons, add_assoc] at this
    exact this

theorem of_dir (h : Dir k all s' d ((ds.map (vmPages s.mem)).sum + raw))
    (hsame : SamePages s.mem s'.mem ((ds.map (vmPages s.mem)).sum + raw)) :
    Owns k all s' (d ::ₘ ds) raw ∧ Keeps s.mem s'.mem ds := by
  obtain ⟨hsum,hkeep⟩ := keeps_of_samePages hsame
  refine ⟨⟨h.pool,?_⟩,hkeep⟩
  rw [Multiset.map_cons, Multiset.sum_cons, hsum, add_assoc]
  exact h.owned

theorem of_free (hpool : Pool k all)
    (h : (s'.freelist : Multiset ℕ) + ((ds.map (vmPages s.mem)).sum + raw) = all)
    (hsame : SamePages s.mem s'.mem ((ds.map (vmPages s.mem)).sum + raw)) :
    Owns k all s' ds raw ∧ Keeps s.mem s'.mem ds := by
  obtain ⟨hsum,hkeep⟩ := keeps_of_samePages hsame
  exact ⟨⟨hpool,by rw [hsum]; exact h⟩,hkeep⟩

/-- A page that a directory and the raw pages both claim does not exist. -/
theorem raw_nodup (h : Owns k all s ds raw) : raw.Nodup := by
  have hn := h.pool.nodup
  rw [← h.owned] at hn
  exact (Multiset.nodup_add.mp (Multiset.nodup_add.mp hn).2.1).2.1

theorem card (h : Owns k all s ds raw) : s.freelist.length +
    (Multiset.card (ds.map (vmPages s.mem)).sum + Multiset.card raw) = Multiset.card all := by
  rw [← h.owned, Multiset.card_add, Multiset.card_add, Multiset.coe_card]

theorem kalloc (h : Owns k all s ds raw) :
    (Vm.kalloc s = .ok (none,s) ∧ s.freelist = []) ∨
    ∃ p s', Vm.kalloc s = .ok (some p,s') ∧ s'.mem = s.mem ∧ Owns k all s' ds ({p} + raw) ∧
      s'.freelist.length + 1 = s.freelist.length := by
  cases hf : s.freelist with
  | nil => exact .inl ⟨Vm.kalloc_nil hf,rfl⟩
  | cons p rest =>
    refine .inr ⟨p,_,Vm.kalloc_cons hf,rfl,⟨h.pool,?_⟩,rfl⟩
    have ho := h.owned
    rw [hf, ← Multiset.cons_coe, ← Multiset.singleton_add] at ho
    rw [← ho]
    abel

theorem kfree {p : ℕ} (h : Owns k all s ds ({p} + raw)) :
    ∃ s', Vm.kfree k p s = .ok ((),s') ∧ Owns k all s' ds raw ∧ Keeps s.mem s'.mem ds := by
  have ho := h.owned
  rw [add_left_comm _ ({p} : Multiset ℕ) raw] at ho
  obtain ⟨s',hrun,ho',hsame⟩ := Vm.kfree_owned h.pool ho
  exact ⟨s',hrun,of_free h.pool ho' hsame⟩

theorem setupkvm (h : Owns k all s ds raw) :
    (∃ s', Vm.setupkvm k s = .ok (none,s') ∧
      Multiset.card all ≤ Multiset.card (ds.map (vmPages s.mem)).sum + Multiset.card raw + 65) ∨
    ∃ d s', Vm.setupkvm k s = .ok (some d,s') ∧ Owns k all s' (d ::ₘ ds) raw ∧
      Keeps s.mem s'.mem ds ∧ Loaded s'.mem d 0 ∧ s.freelist.length ≤ s'.freelist.length + 65 := by
  rcases Vm.setupkvm_spec h.pool h.owned with ⟨s',hrun,-,-,hcard⟩ | ⟨d,s',hrun,h',hsame,hker,hzero,hnone⟩
  · refine .inl ⟨s',hrun,?_⟩
    rwa [Multiset.card_add] at hcard
  · obtain ⟨ho,hkeep⟩ := of_dir h' hsame
    refine .inr ⟨d,s',hrun,ho,hkeep,Vm.loaded_zero hker hzero,?_⟩
    have hcard : Multiset.card (vmPages s'.mem d) ≤ 65 := card_vmPages_le (fun va hva => by rw [hzero va hva]; exact present_zero) fun i hi hp => by
      rcases Nat.lt_or_ge i 512 with hi' | hi'
      · rw [hnone i hi'] at hp
        cases hp
      · exact hker.tables i hi hi' hp
    have h1 := h.card
    have h2 := congrArg Multiset.card h'.owned
    simp only [Multiset.card_add, Multiset.coe_card] at h1 h2
    omega

theorem freevm (h : Owns k all s (d ::ₘ ds) raw) :
    ∃ s', Vm.freevm k d s = .ok ((),s') ∧ Owns k all s' ds raw ∧ Keeps s.mem s'.mem ds := by
  obtain ⟨s',hrun,ho,hsame⟩ := Vm.freevm_spec h.dir
  exact ⟨s',hrun,of_free h.pool ho hsame⟩

theorem copyuvm (h : Owns k all s ds raw) (hd : d ∈ ds) (hsp : Space s.mem d sz) :
    (∃ s', Vm.copyuvm k d sz s = .ok (none,s') ∧ Owns k all s' ds raw ∧ Keeps s.mem s'.mem ds) ∨
    ∃ d' s', Vm.copyuvm k d sz s = .ok (some d',s') ∧ Owns k all s' (d' ::ₘ ds) raw ∧
      Keeps s.mem s'.mem ds ∧ Space s'.mem d' sz := by
  have hsrc : vmPages s.mem d ≤ (ds.map (vmPages s.mem)).sum + raw :=
    (vmPages_le_sum hd).trans (Multiset.le_add_right _ _)
  rcases Vm.copyuvm_spec h.pool h.owned hsrc hsp.maps hsp.lt with
    ⟨s',hrun,ho,hsame⟩ | ⟨d',s',hrun,h',hsame,hker,hmaps,-⟩
  · exact .inl ⟨s',hrun,of_free h.pool ho hsame⟩
  · obtain ⟨ho,hkeep⟩ := of_dir h' hsame
    exact .inr ⟨d',s',hrun,ho,hkeep,hsp.pos,hsp.lt,hker,hmaps⟩

/-- Growing a process. -/
theorem allocuvm (h : Owns k all s (d ::ₘ ds) raw) (hsp : Space s.mem d sz) (newsz : ℕ) :
    ∃ r s', Vm.allocuvm k d sz newsz s = .ok (r,s') ∧ Owns k all s' (d ::ₘ ds) raw ∧
      Keeps s.mem s'.mem ds ∧ (r = 0 ∧ Space s'.mem d sz ∨ Space s'.mem d r) := by
  by_cases hbig : kernbase ≤ newsz
  · refine ⟨0,s,?_,h,.refl _ _,.inl ⟨rfl,hsp⟩⟩
    unfold Vm.allocuvm
    rw [if_pos hbig]
    rfl
  by_cases hsmall : newsz < sz
  · refine ⟨sz,s,?_,h,.refl _ _,.inr hsp⟩
    unfold Vm.allocuvm
    rw [if_neg hbig, if_pos hsmall]
    rfl
  unfold kernbase at hbig
  have hpos := hsp.pos
  obtain ⟨r,s',hrun,h',hsame,hout,htab,hres⟩ := Vm.allocuvm_spec h.dir
    (by omega) (show sz ≤ newsz by omega) fun va h1 h2 => Bool.eq_false_iff.mpr fun hc =>
      absurd ((hsp.maps va (by omega)).mp hc) (by omega)
  obtain ⟨ho,hkeep⟩ := of_dir h' hsame
  have hker : KernelMapped s'.mem d := hsp.kernel.congr (fun va h1 h2 => (hout va h2 (by omega)).pte) htab
  have hle : (sz + 4095) / 4096 * 4096 ≤ (newsz + 4095) / 4096 * 4096 := by omega
  refine ⟨r,s',hrun,ho,hkeep,?_⟩
  rcases hres with ⟨rfl,hin⟩ | ⟨rfl,hin,-⟩
  · refine .inr ⟨by omega,by omega,hker,fun va hva => ?_⟩
    rcases Nat.lt_or_ge va ((sz + 4095) / 4096 * 4096) with hlo | hlo
    · rw [(hout va (by omega) (.inl hlo)).pte]
      exact ⟨fun _ => hlo.trans_le hle,fun _ => (hsp.maps va hva).mpr hlo⟩
    · rcases Nat.lt_or_ge va ((r + 4095) / 4096 * 4096) with hhi | hhi
      · exact ⟨fun _ => hhi,fun _ => (hin va hlo hhi).present⟩
      · rw [(hout va (by omega) (.inr hhi)).pte]
        exact ⟨fun hp => absurd ((hsp.maps va hva).mp hp) (by omega),fun hc => absurd hc (by omega)⟩
  · refine .inl ⟨rfl,hsp.pos,hsp.lt,hker,fun va hva => ?_⟩
    rcases Nat.lt_or_ge va ((sz + 4095) / 4096 * 4096) with hlo | hlo
    · rw [(hout va (by omega) (.inl hlo)).pte]
      exact hsp.maps va hva
    · rcases Nat.lt_or_ge va ((newsz + 4095) / 4096 * 4096) with hhi | hhi
      · rw [hin va hlo hhi]
        exact ⟨fun hc => (by cases hc),fun hc => absurd hc (by omega)⟩
      · rw [(hout va (by omega) (.inr hhi)).pte]
        exact hsp.maps va hva

/-- Shrinking a process, but not to nothing. -/
theorem deallocuvm (h : Owns k all s (d ::ₘ ds) raw) (hsp : Space s.mem d sz) {newsz : ℕ}
    (hne : newsz ≠ 0) :
    ∃ r s', Vm.deallocuvm k d sz newsz s = .ok (r,s') ∧ Owns k all s' (d ::ₘ ds) raw ∧
      Keeps s.mem s'.mem ds ∧ Space s'.mem d r := by
  by_cases hle : sz ≤ newsz
  · refine ⟨sz,s,?_,h,.refl _ _,hsp⟩
    unfold Vm.deallocuvm
    rw [if_pos hle]
    rfl
  have hlt := hsp.lt
  obtain ⟨s',hrun,h',hsame,hout,hin,hpde⟩ := Vm.deallocuvm_spec h.dir
    (by omega) (show newsz < sz by omega)
  obtain ⟨ho,hkeep⟩ := of_dir h' hsame
  have hround : (newsz + 4095) / 4096 * 4096 ≤ (sz + 4095) / 4096 * 4096 := by omega
  refine ⟨newsz,s',hrun,ho,hkeep,by omega,by omega,?_,fun va hva => ?_⟩
  · exact hsp.kernel.congr (fun va h1 h2 => (hout va h2 (by omega)).pte) fun i hi hp => .inl (by rwa [← hpde i hi])
  · rcases Nat.lt_or_ge va ((newsz + 4095) / 4096 * 4096) with hlo | hlo
    · rw [(hout va (by omega) (.inl hlo)).pte]
      exact ⟨fun _ => hlo,fun _ => (hsp.maps va hva).mpr (hlo.trans_le hround)⟩
    · rcases Nat.lt_or_ge va ((sz + 4095) / 4096 * 4096) with hhi | hhi
      · rw [hin va hlo hhi]
        exact ⟨fun hc => (by cases hc),fun hc => absurd hc (by omega)⟩
      · rw [(hout va (by omega) (.inr hhi)).pte]
        exact ⟨fun hp => absurd ((hsp.maps va hva).mp hp) (by omega),fun hc => absurd hc (by omega)⟩

theorem exec {f : File} {argv : List (List UInt8)} (h : Owns k all s (d ::ₘ ds) raw)
    (hlen : ∀ a ∈ argv, a.length + 1 < 0x80000000)
    (hgap : ¬ HitsGap f.stackTop 0 argv) :
    (∃ s', Vm.exec k f argv d s = .ok (none,s') ∧ Owns k all s' (d ::ₘ ds) raw ∧
      Keeps s.mem s'.mem (d ::ₘ ds)) ∨
    ∃ im s', Vm.exec k f argv d s = .ok (some im,s') ∧ Owns k all s' (im.pgdir ::ₘ ds) raw ∧
      Keeps s.mem s'.mem ds ∧ Space s'.mem im.pgdir im.sz := by
  rcases Vm.exec_spec (f := f) h.dir hlen hgap with ⟨s',hrun,h',hsame⟩ | ⟨im,s',hrun,h',hsame,hst,-⟩
  · refine .inl ⟨s',hrun,(of_dir h' (hsame.mono (Multiset.le_add_left _ _))).1,?_⟩
    rw [← add_assoc, ← Multiset.sum_cons, ← Multiset.map_cons] at hsame
    exact (keeps_of_samePages hsame).2
  · obtain ⟨ho,hkeep⟩ := of_dir h' hsame
    exact .inr ⟨im,s',hrun,ho,hkeep,hst.space⟩

end Owns
end X86OsDev.Xv6
