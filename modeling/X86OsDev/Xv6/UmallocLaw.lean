import X86OsDev.Lib.Fuel
import X86OsDev.Lib.Transition
import X86OsDev.Xv6.UmallocFree

/-! # The allocator over runs of a process

A process calls `malloc` and `free`, grows by `sbrk` and writes into its blocks and elsewhere, but not
into the free blocks or the headers. What came from the kernel is at any time either in blocks of
the process or free, and free blocks never touch.
-/
namespace X86OsDev.Xv6.Umalloc
open Memory Extents Fuel Transition

/-- A process with its blocks and with what `morecore` got from the kernel. -/
structure Client where
  sys : Sys
  live : List Extent
  got : List Extent

inductive Act
  | malloc (nbytes : ℕ) (grant : ℕ → ℕ → Bool) (fuel : ℕ)
  | free (ap fuel : ℕ)
  | sbrk (n : ℕ) (grant : ℕ → ℕ → Bool)
  | write (a : ℕ) (v : UInt8)

/-- The requests that are positive when `sbrk` takes them as an `int`. -/
def limit : ℕ := 2 ^ 31 - 15

def inside (l : List Extent) (i : ℕ) : Bool := l.any fun b => b.addr ≤ i ∧ i < b.addr + b.len

/-- Bytes that are the program's own: those of its blocks without the headers, and all that the
allocator has never had. -/
def mayWrite (base : ℕ) (c : Client) (i : ℕ) : Bool :=
  (c.live.any fun b => b.addr + 8 ≤ i ∧ i < b.addr + b.len) ||
    !inside c.got i && (i < base || base + 8 ≤ i)

/-- The client after a call of `malloc`. -/
def Client.after (c : Client) (nbytes r : ℕ) (t : Sys) : Client :=
  ⟨t,if r = 0 then c.live else ⟨r - 8,8 * nunits nbytes⟩ :: c.live,⟨c.sys.sz,t.sz - c.sys.sz⟩ :: c.got⟩

def step (base : ℕ) (c : Client) : Act → Option Client
  | .malloc nbytes grant fuel =>
    if nbytes < limit then (malloc grant base fuel nbytes c.sys).map fun (r,t) => c.after nbytes r t else none
  | .free ap fuel => (c.live.find? (·.addr + 8 = ap)).bind fun b =>
    (free fuel ap c.sys).map fun t => { c with sys := t, live := c.live.erase b }
  | .sbrk n grant => if n < 2 ^ 31 then (sbrk grant n c.sys).map fun (_,t) => { c with sys := t } else none
  | .write a v =>
    if mayWrite base c a then some { c with sys := { c.sys with mem := Function.update c.sys.mem a v } } else none

/-- Nothing was allocated, and the static header is below the size of the process. -/
structure Boot (base : ℕ) (c : Client) : Prop where
  freep : c.sys.freep = 0
  live : c.live = []
  got : c.got = []
  size : 0 < base ∧ base + 8 ≤ c.sys.sz ∧ c.sys.sz < KERNBASE

abbrev Reached (base : ℕ) (c : Client) : Prop := Reachable (Boot base) (OfFun (step base)) c

/-- The free list, the blocks of the process, and what came from the kernel. -/
structure Sound (base : ℕ) (c : Client) (l : List Extent) : Prop where
  free : FreeList c.sys.mem base l
  freep : c.sys.freep ∈ heads base l
  block : ∀ b ∈ c.live, Block c.sys.mem base b
  top : ∀ b ∈ l ++ c.live, b.addr + b.len ≤ c.sys.sz
  apart : ∀ a ∈ l, ∀ b ∈ c.live, a.Apart b
  live : c.live.Pairwise Extent.Apart
  cover : cover l ∪ cover c.live = cover c.got
  size : base + 8 ≤ c.sys.sz ∧ c.sys.sz < KERNBASE

variable {base fuel n nbytes : ℕ} {g : ℕ → ℕ → Bool} {c : Client} {b : Extent} {l : List Extent} {s t : Sys}

section Units

theorem nunits_spec (h : nbytes < limit) : nunits nbytes = (nbytes + 7) / 8 + 1 := by
  unfold limit at h
  rw [nunits, word_of_lt (n := nbytes + 7) (by omega), word_of_lt (by omega)]

theorem nunits_bounds (h : nbytes < limit) : nbytes + 8 ≤ 8 * nunits nbytes ∧ 8 * nunits nbytes < 2 ^ 31 := by
  rw [nunits_spec h]
  unfold limit at h
  omega

end Units

section Kernel

theorem le_PGROUNDUP (a : ℕ) : a ≤ PGROUNDUP a := by
  have h := Nat.div_add_mod (a + PGSIZE - 1) PGSIZE
  have hlt := Nat.mod_lt (a + PGSIZE - 1) (show 0 < PGSIZE by decide)
  unfold PGROUNDUP
  unfold PGSIZE at *
  omega

/-- The kernel does not grow a process of a size by `n` bytes. -/
def Refuses (g : ℕ → ℕ → Bool) (sz n : ℕ) : Prop := KERNBASE ≤ sz + n ∨ g sz (sz + n) = false

/-- Growing leaves what is there. -/
theorem sbrk_grows (hn : n < 2 ^ 31) (hsz : s.sz < KERNBASE) :
    sbrk g n s = none ∧ Refuses g s.sz n ∨ ∃ t, sbrk g n s = some (s.sz,t) ∧
      (n ≠ 0 → ¬ Refuses g s.sz n) ∧ t.sz = s.sz + n ∧ t.sz < KERNBASE ∧ t.freep = s.freep ∧
      ∀ i < s.sz, t.mem i = s.mem i := by
  unfold sbrk Refuses
  have hword : word (s.sz + n) = s.sz + n := word_of_lt (by unfold KERNBASE at hsz; omega)
  dsimp only
  rw [hword]
  by_cases hzero : n = 0
  · rw [if_pos hzero]
    exact .inr ⟨s,rfl,fun h => absurd hzero h,by rw [hzero, Nat.add_zero],hsz,rfl,fun _ _ => rfl⟩
  · rw [if_neg hzero, if_pos hn]
    by_cases htop : KERNBASE ≤ s.sz + n
    · exact .inl ⟨if_pos htop,.inl htop⟩
    · rw [if_neg htop, if_neg (by omega)]
      cases hgrant : g s.sz (s.sz + n) with
      | false => exact .inl ⟨if_neg Bool.false_ne_true,.inr rfl⟩
      | true =>
        refine .inr ⟨_,if_pos rfl,fun _ href => ?_,rfl,not_le.mp htop,rfl,fun i hi => ?_⟩
        · exact href.elim htop Bool.noConfusion
        · have hle := le_PGROUNDUP s.sz
          exact if_neg (by omega)

end Kernel

section Calls

/-- The bytes of all blocks are kept. -/
def Keeps (live : List Extent) (s t : Sys) : Prop := ∀ b ∈ live, ∀ i ∈ b.bytes, t.mem i = s.mem i

theorem Sound.not_own (h : Sound base c l) (hb : b ∈ c.live) {i : ℕ} (hi : i ∈ b.bytes) : i ∉ own base l := by
  have hroom := (h.block b hb).room
  rintro (hbase | ⟨a,ha,hia⟩)
  · rw [Set.mem_Ico] at hbase
    rw [mem_bytes] at hi
    omega
  · exact Set.disjoint_left.mp (h.apart a ha b hb).disjoint hia hi

/-- A block whose header is kept is one still. -/
theorem Block.header (hb : Block s.mem base b) (hk : SameOn t.mem s.mem b.addr 8) : Block t.mem base b := by
  have hroom := hb.room
  unfold KERNBASE at hroom
  exact ⟨by rw [size_congr (by omega) hk, hb.size],hb.room⟩

theorem Block.keep (hb : Block s.mem base b) (hk : ∀ i ∈ b.bytes, t.mem i = s.mem i) : Block t.mem base b := by
  have hroom := hb.room
  exact hb.header fun i h1 h2 => hk i ⟨h1,by omega⟩

/-- The free list does not change with the bytes of others. -/
theorem FreeList.keep (h : FreeList s.mem base l) (hk : ∀ i ∈ own base l, t.mem i = s.mem i) :
    FreeList t.mem base l := by
  refine ⟨h.linked.congr h.bound fun a ha i h1 h2 => hk i ?_,h.separated,h.room,h.low⟩
  exact mem_own h ha ⟨h1,h2⟩

/-- `malloc` takes from a free block, or asks for more when none is large enough. -/
theorem Sound.findBlock (h : Sound base c l) (hn : 0 < n) :
    (∃ l' r t, (∀ fuel, l.length < fuel →
        Umalloc.findBlock g n fuel c.sys.freep (ptr c.sys.mem c.sys.freep) c.sys = some (r,t)) ∧
      8 ≤ r ∧ t.sz = c.sys.sz ∧ Sound base ⟨t,⟨r - 8,8 * n⟩ :: c.live,c.got⟩ l' ∧ Keeps c.live c.sys t ∧
      ∃ a ∈ l, 8 * n ≤ a.len) ∨
    (∀ a ∈ l, a.len < 8 * n) ∧ ∀ fuel,
      Umalloc.findBlock g n (l.length + 1 + fuel) c.sys.freep (ptr c.sys.mem c.sys.freep) c.sys =
        (morecore g fuel n c.sys).bind fun (p,t) =>
          if p = 0 then some (0,t) else Umalloc.findBlock g n fuel p (ptr t.mem p) t := by
  refine (h.free.findBlock (g := g) h.freep hn).imp_left ?_
  rintro ⟨a,hal,hfit,pre,q,post,hlist,hrun⟩
  obtain ⟨l',t,hl',htake,hfree,hfreep,hsz,hblock,hsub,hcover,hsame⟩ := h.free.take hlist hn hfit
  have hkeep : Keeps c.live c.sys t := fun b hb i hi => hsame i (h.not_own hb hi)
  have htop := h.top a (List.mem_append_left _ hal)
  have htail : (⟨(a.tail (8 * n)).addr + 8 - 8,8 * n⟩ : Extent) = a.tail (8 * n) := by
    rw [Nat.add_sub_cancel]
    rfl
  refine ⟨l',_,t,fun fuel hfuel => (hrun fuel hfuel).trans (congrArg some htake),Nat.le_add_left _ _,hsz,?_,hkeep,
    a,hal,hfit⟩
  rw [htail]
  refine ⟨hfree,hfreep,?_,?_,?_,?_,?_,hsz.symm ▸ h.size⟩
  · exact List.forall_mem_cons.mpr ⟨hblock,fun b hb => (h.block b hb).keep (hkeep b hb)⟩
  · have hend : (a.tail (8 * n)).addr + (a.tail (8 * n)).len = a.addr + a.len := by
      rw [Extent.tail]
      dsimp only
      omega
    intro b hb
    dsimp only
    rw [hsz]
    obtain hb | hb := List.mem_append.mp hb
    · obtain hb | hb := (hsub b hb).1
      · exact h.top b (List.mem_append_left _ hb)
      · exact cut_forall (P := fun b => b.addr + b.len ≤ c.sys.sz) (fun _ => by dsimp only; omega) hfit b hb
    · obtain rfl | hb := List.mem_cons.mp hb
      · exact hend.trans_le htop
      · exact h.top b (List.mem_append_right _ hb)
  · intro x hx
    obtain ⟨hx',htail⟩ := hsub x hx
    refine List.forall_mem_cons.mpr ⟨htail,fun b hb => ?_⟩
    obtain hx' | hx' := hx'
    · exact h.apart x hx' b hb
    · exact cut_forall (P := fun x => x.Apart b) (fun _ => (h.apart a hal b hb).shorten) hfit x hx'
  · exact List.pairwise_cons.mpr ⟨fun b hb => (h.apart a hal b hb).tail hfit,h.live⟩
  · rw [← h.cover, hcover, cover_cons, Set.union_assoc]

/-- What `morecore` gets is put into the free list. -/
theorem Sound.morecore (h : Sound base c l) (hn : 8 * n < 2 ^ 31) :
    (∀ fuel, Umalloc.morecore g fuel n c.sys = some (0,c.sys)) ∧ Refuses g c.sys.sz (8 * max n 4096) ∨
    ∃ t, (∀ fuel, l.length < fuel → Umalloc.morecore g fuel n c.sys = some (t.freep,t)) ∧ t.freep ≠ 0 ∧
      ¬ Refuses g c.sys.sz (8 * max n 4096) ∧ t.sz = c.sys.sz + 8 * max n 4096 ∧
      Sound base ⟨t,c.live,⟨c.sys.sz,t.sz - c.sys.sz⟩ :: c.got⟩ (place ⟨c.sys.sz,8 * max n 4096⟩ l) ∧
      Keeps c.live c.sys t := by
  have hnu : (if n < 4096 then 4096 else n) = max n 4096 := by
    split_ifs with hlt
    · exact (max_eq_right hlt.le).symm
    · exact (max_eq_left (not_lt.mp hlt)).symm
  have hmax : 4096 ≤ max n 4096 ∧ 8 * max n 4096 < 2 ^ 31 := by omega
  have hword : word (max n 4096 * 8) = 8 * max n 4096 := by
    rw [Nat.mul_comm]
    exact word_of_lt (by omega)
  unfold Umalloc.morecore
  dsimp only
  rw [hnu, hword]
  generalize max n 4096 = k at hmax
  have hsz := h.size
  obtain ⟨hsbrk,href⟩ | ⟨u,hsbrk,href,husz,htop,hfreep,hsame⟩ := sbrk_grows (g := g) hmax.2 hsz.2
  · exact .inl ⟨fun fuel => by rw [hsbrk],href⟩
  · right
    rw [hsbrk]
    unfold KERNBASE at htop hsz
    -- the new block with its header
    have hc := setSize_changedIn u.mem (p := c.sys.sz) k (by omega)
    have hlow (i : ℕ) (hi : i < c.sys.sz) : setSize u.mem c.sys.sz k i = c.sys.mem i :=
      (hc i (by omega)).trans (hsame i hi)
    have hown {i : ℕ} (hi : i ∈ own base l) : i < c.sys.sz := by
      obtain hi | ⟨a,ha,hi⟩ := hi
      · rw [Set.mem_Ico] at hi
        omega
      · have hta := h.top a (List.mem_append_left _ ha)
        rw [mem_bytes] at hi
        omega
    have hlive {b : Extent} (hb : b ∈ c.live) {i : ℕ} (hi : i ∈ b.bytes) : i < c.sys.sz := by
      have htb := h.top b (List.mem_append_right _ hb)
      rw [mem_bytes] at hi
      omega
    have hfree : FreeList (setSize u.mem c.sys.sz k) base l :=
      h.free.keep (t := { u with mem := setSize u.mem c.sys.sz k }) fun i hi => hlow i (hown hi)
    have hblock : Block (setSize u.mem c.sys.sz k) base ⟨c.sys.sz,8 * k⟩ :=
      ⟨by dsimp only; rw [size_setSize (by omega)],hsz.1,by dsimp only; omega,by unfold KERNBASE; dsimp only; omega⟩
    have hapart : ∀ a ∈ l, a.Apart ⟨c.sys.sz,8 * k⟩ := fun a ha => .inl (h.top a (List.mem_append_left _ ha))
    obtain ⟨t,hrun,hfree',hfreep',htsz,hsame'⟩ := FreeList.free (s := { u with mem := setSize u.mem c.sys.sz k })
      hfree (by rw [hfreep]; exact h.freep) hblock hapart
    dsimp only at htsz hsame'
    have hkeep : Keeps c.live c.sys t := fun b hb i hi => by
      have hi' := hlive hb hi
      refine (hsame' i (h.not_own hb hi) ?_).trans (hlow i hi')
      rw [mem_bytes]
      dsimp only
      omega
    have hpos : t.freep ≠ 0 := by
      obtain ⟨a,ha,hat⟩ := List.mem_map.mp hfreep'
      rw [← hat]
      have hlow := hfree'.low
      cases ha with
      | head => exact hlow.1.ne'
      | tail _ ha =>
        have hroom := hfree'.room a ha
        omega
    refine ⟨t,fun fuel hfuel => ?_,hpos,href (by omega),htsz.trans husz,?_,hkeep⟩
    · dsimp only
      rw [word_of_lt (by omega), hrun fuel hfuel]
      rfl
    · have hlen : t.sz - c.sys.sz = 8 * k := by
        rw [htsz, husz]
        omega
      rw [hlen]
      refine ⟨hfree',hfreep',fun b hb => (h.block b hb).keep (hkeep b hb),?_,?_,h.live,?_,?_⟩
      · intro b hb
        dsimp only
        rw [htsz, husz]
        obtain hb | hb := List.mem_append.mp hb
        · refine place_forall (P := fun b => b.addr + b.len ≤ c.sys.sz + 8 * k) (fun x y hx hy he => ?_) le_rfl
            (fun a ha => ?_) b hb
          · change x.addr + (x.len + y.len) ≤ _
            omega
          · have hta := h.top a (List.mem_append_left _ ha)
            omega
        · have htb := h.top b (List.mem_append_right _ hb)
          omega
      · intro a ha b hb
        have hlen := (h.block b hb).room.2.1
        refine place_forall (P := fun a => a.Apart b) (fun x y hx hy he => hx.merge hy he (by omega)) ?_
          (fun a ha => h.apart a ha b hb) a ha
        exact .inr (h.top b (List.mem_append_right _ hb))
      · rw [cover_place, cover_cons, ← h.cover, Set.union_assoc]
      · dsimp only
        unfold KERNBASE
        omega

end Calls

section Runs

/-- The bytes from the kernel that are in no block of the process. -/
def spare (c : Client) : Set ℕ := cover c.got \ cover c.live

theorem Sound.spare_eq (h : Sound base c l) : spare c = Extents.cover l := by
  have hdisj : Disjoint (Extents.cover l) (Extents.cover c.live) := by
    refine Set.disjoint_left.mpr ?_
    rintro i ⟨a,ha,hia⟩ ⟨b,hb,hib⟩
    exact Set.disjoint_left.mp (h.apart a ha b hb).disjoint hia hib
  rw [spare, ← h.cover, Set.union_sdiff_cancel_right hdisj.le_bot]

theorem Sound.got_nil (h : Sound base c l) {sz : ℕ} : Sound base { c with got := ⟨sz,0⟩ :: c.got } l :=
  ⟨h.free,h.freep,h.block,h.top,h.apart,h.live,by
    rw [cover_cons, ← h.cover, Extent.bytes, Nat.add_zero, Set.Ico_self, Set.empty_union],h.size⟩

/-- Before the first call there is no free list. -/
def Inv (base : ℕ) (c : Client) : Prop := (∃ l, Sound base c l) ∨ Boot base c

/-- The header `base` is set by the first call. -/
theorem Inv.ready (h : Inv base c) : ∃ l s, Sound base { c with sys := s } l ∧ s.sz = c.sys.sz ∧
    Keeps c.live c.sys s ∧ ∀ g fuel nbytes, malloc g base fuel nbytes c.sys =
      findBlock g (nunits nbytes) fuel s.freep (ptr s.mem s.freep) s := by
  obtain ⟨l,hl⟩ | hboot := h
  · have hne : c.sys.freep ≠ 0 := by
      obtain ⟨a,ha,hat⟩ := List.mem_map.mp hl.freep
      rw [← hat]
      have hlow := hl.free.low
      cases ha with
      | head => exact hlow.1.ne'
      | tail _ ha =>
        have hroom := hl.free.room a ha
        omega
    refine ⟨l,c.sys,hl,rfl,fun _ _ _ _ => rfl,fun g fuel nbytes => ?_⟩
    unfold malloc
    rw [if_neg hne]
  · have hsize := hboot.size
    unfold KERNBASE at hsize
    have hb8 : base + 8 ≤ 2 ^ 32 := by omega
    generalize hm : setSize (setPtr c.sys.mem base base) base 0 = m
    have hptr : ptr m base = base := by
      rw [← hm, ptr_setSize hb8, ptr_setPtr (by omega)]
    have hsz : size m base = 0 := by rw [← hm, size_setSize (by omega)]
    refine ⟨[],{ c.sys with mem := m, freep := base },?_,rfl,?_,fun g fuel nbytes => ?_⟩
    · have hfree : FreeList m base [] :=
        ⟨⟨hptr,by rw [hsz],trivial⟩,List.pairwise_singleton ..,fun _ ha => (by cases ha),hsize.1,
          by unfold KERNBASE; omega⟩
      refine ⟨hfree,List.mem_cons_self,?_,?_,fun _ ha => (by cases ha),?_,?_,hboot.size.2⟩
      · rw [hboot.live]
        exact fun _ hb => by cases hb
      · rw [hboot.live]
        exact fun _ hb => by cases hb
      · rw [hboot.live]
        exact List.Pairwise.nil
      · rw [hboot.live, hboot.got, Set.union_self]
    · rw [hboot.live]
      exact fun _ hb => by cases hb
    · unfold malloc
      rw [if_pos hboot.freep, hm]

theorem Keeps.trans {live : List Extent} {u : Sys} (h : Keeps live s t) (h' : Keeps live t u) : Keeps live s u :=
  fun b hb i hi => (h' b hb i hi).trans (h b hb i hi)

/-- A call of `malloc` ends. It fails when the kernel refuses and no bytes in a row are spare. -/
theorem Inv.malloc (h : Inv base c) (hn : nbytes < limit) (g : ℕ → ℕ → Bool) : ∃ bound r t l,
    (∀ fuel, bound ≤ fuel → Umalloc.malloc g base fuel nbytes c.sys = some (r,t)) ∧
    Sound base (c.after nbytes r t) l ∧ Keeps c.live c.sys t ∧ (r ≠ 0 → 8 ≤ r) ∧
    (r = 0 ↔ Refuses g c.sys.sz (8 * max (nunits nbytes) 4096) ∧
      ∀ i, ¬ Set.Ico i (i + 8 * nunits nbytes) ⊆ spare c) := by
  obtain ⟨l,s,hs,hsz,hkeep,hrun⟩ := h.ready
  have hunits := nunits_bounds hn
  have hspare : spare c = cover l := hs.spare_eq
  have hrange {a : Extent} (ha : a ∈ l) (hfit : 8 * nunits nbytes ≤ a.len) :
      Set.Ico a.addr (a.addr + 8 * nunits nbytes) ⊆ spare c := by
    rw [hspare]
    exact fun i hi => ⟨a,ha,hi.1,hi.2.trans_le (Nat.add_le_add_left hfit _)⟩
  simp only [hrun]
  generalize hnu : nunits nbytes = n at hunits hrange ⊢
  obtain ⟨l',r,t,hfind,hr,htsz,ht,hkeep',a,ha,hfit⟩ | ⟨hsmall,hmore⟩ :=
    hs.findBlock (g := g) (n := n) (by omega)
  · refine ⟨l.length + 1,r,t,l',fun fuel hfuel => hfind fuel hfuel,?_,hkeep.trans hkeep',fun _ => hr,?_⟩
    · have hne : r ≠ 0 := by omega
      have hlen : t.sz - c.sys.sz = 0 := by rw [htsz, hsz, Nat.sub_self]
      rw [Client.after, if_neg hne, hlen, hnu]
      exact ht.got_nil
    · refine iff_of_false (by omega) fun hall => ?_
      exact hall.2 a.addr (hrange ha hfit)
  · obtain ⟨hrun',href⟩ | ⟨t,hrun',hpos,href,htsz,ht,hkeep'⟩ := hs.morecore (g := g) hunits.2
    · refine ⟨l.length + 1,0,s,l,fun fuel hfuel => ?_,?_,hkeep,fun h => absurd rfl h,
        iff_of_true rfl ⟨hsz ▸ href,fun i hi => ?_⟩⟩
      · obtain ⟨k,rfl⟩ := Nat.exists_eq_add_of_le hfuel
        rw [hmore, hrun']
        rfl
      · rw [Client.after, if_pos rfl, hsz, Nat.sub_self]
        exact hs.got_nil
      · rw [hspare] at hi
        have hsep := (List.pairwise_cons.mp hs.free.separated).2
        obtain ⟨a,ha,hle⟩ := Separated.range hsep (by omega) hi
        have hlt := hsmall a ha
        omega
    · -- now a block is large enough
      obtain ⟨a,ha,hle⟩ := place_ge (b := ⟨c.sys.sz,8 * max n 4096⟩) (l := l)
      dsimp only at ht htsz href hrun' hle
      rw [hsz] at ht htsz href
      obtain ⟨l',r,u,hfind,hr,husz,hu,hkeep'',-⟩ | ⟨hsmall',-⟩ := ht.findBlock (g := g) (n := n) (by omega)
      · refine ⟨2 * l.length + 3 + (place ⟨c.sys.sz,8 * max n 4096⟩ l).length,r,u,l',fun fuel hfuel => ?_,?_,
          (hkeep.trans hkeep').trans hkeep'',fun _ => hr,iff_of_false (by omega) fun hall => href hall.1⟩
        · obtain ⟨k,rfl⟩ := Nat.exists_eq_add_of_le (show l.length + 1 ≤ fuel by omega)
          rw [hmore, hrun' k (by omega), Option.bind_some]
          dsimp only
          rw [if_neg hpos]
          exact hfind k (by omega)
        · have hne : r ≠ 0 := by omega
          dsimp only at husz
          rw [Client.after, if_neg hne, husz, hnu]
          exact hu
      · have hlt := hsmall' a ha
        omega

/-- A call of `free` ends, and the other blocks are kept. -/
theorem Sound.release (h : Sound base c l) (hb : b ∈ c.live) : ∃ bound t,
    (∀ fuel, bound ≤ fuel → Umalloc.free fuel (b.addr + 8) c.sys = some t) ∧
    Sound base { c with sys := t, live := c.live.erase b } (place b l) ∧ Keeps (c.live.erase b) c.sys t ∧
    t.sz = c.sys.sz := by
  have hblock := h.block b hb
  have hroom := hblock.room
  have hperm := List.perm_cons_erase hb
  have hlive : (b :: c.live.erase b).Pairwise Extent.Apart :=
    (hperm.pairwise_iff fun hxy => hxy.symm).mp h.live
  obtain ⟨hapart,hlive⟩ := List.pairwise_cons.mp hlive
  have hsub : ∀ x ∈ c.live.erase b, x ∈ c.live := fun x hx => List.mem_of_mem_erase hx
  obtain ⟨t,hrun,hfree,hfreep,hsz,hsame⟩ := h.free.free h.freep hblock fun a ha => h.apart a ha b hb
  have hkeep : Keeps (c.live.erase b) c.sys t := fun x hx i hi =>
    hsame i (h.not_own (hsub x hx) hi) (Set.disjoint_left.mp (hapart x hx).symm.disjoint hi)
  refine ⟨l.length + 1,t,fun fuel hfuel => hrun fuel hfuel,?_,hkeep,hsz⟩
  refine ⟨hfree,hfreep,fun x hx => (h.block x (hsub x hx)).keep (hkeep x hx),fun x hx => ?_,fun a ha x hx => ?_,hlive,
    ?_,hsz.symm ▸ h.size⟩
  · dsimp only
    rw [hsz]
    have htop := h.top b (List.mem_append_right _ hb)
    obtain hx | hx := List.mem_append.mp hx
    · refine place_forall (P := fun x => x.addr + x.len ≤ c.sys.sz) (fun x y hx hy he => ?_) htop
        (fun a ha => h.top a (List.mem_append_left _ ha)) x hx
      change x.addr + (x.len + y.len) ≤ _
      omega
    · exact h.top x (List.mem_append_right _ (hsub x hx))
  · have hlen := (h.block x (hsub x hx)).room.2.1
    exact place_forall (P := fun a => a.Apart x) (fun x y hx hy he => hx.merge hy he (by omega)) (hapart x hx)
      (fun a ha => h.apart a ha x (hsub x hx)) a ha
  · rw [cover_place, ← h.cover, cover_perm hperm, cover_cons, Set.union_assoc, Set.union_left_comm]

/-- Steps that leave the free list and the headers alone. -/
theorem Sound.congr (h : Sound base c l) (hown : ∀ i ∈ own base l, s.mem i = c.sys.mem i)
    (hhead : ∀ b ∈ c.live, SameOn s.mem c.sys.mem b.addr 8) (hfreep : s.freep = c.sys.freep)
    (hsz : c.sys.sz ≤ s.sz) (htop : s.sz < KERNBASE) : Sound base { c with sys := s } l :=
  ⟨h.free.keep hown,hfreep.symm ▸ h.freep,fun b hb => (h.block b hb).header (hhead b hb),
    fun b hb => (h.top b hb).trans hsz,h.apart,h.live,h.cover,h.size.1.trans hsz,htop⟩

end Runs

section Unique

theorem findPlace_below (m : Mem) (bp n p : ℕ) : Below (findPlace m bp n p) (findPlace m bp (n + 1) p) := by
  induction n generalizing p with
  | zero => exact .none _
  | succ n ih =>
    rw [findPlace, findPlace.eq_def m bp (n + 1 + 1)]
    dsimp only
    split_ifs
    · exact .refl _
    · exact .refl _
    · exact ih _

theorem free_below (n ap : ℕ) (s : Sys) : Below (free n ap s) (free (n + 1) ap s) := by
  unfold free
  dsimp only
  rw [Option.map_eq_bind, Option.map_eq_bind]
  exact Below.bind (findPlace_below _ _ _ _) fun _ => .refl _

theorem morecore_below (g : ℕ → ℕ → Bool) (n nu : ℕ) (s : Sys) :
    Below (morecore g n nu s) (morecore g (n + 1) nu s) := by
  unfold morecore
  dsimp only
  split
  · exact .refl _
  · rw [Option.map_eq_bind, Option.map_eq_bind]
    exact Below.bind (free_below _ _ _) fun _ => .refl _

theorem findBlock_below (g : ℕ → ℕ → Bool) (nunits n prevp p : ℕ) (s : Sys) :
    Below (findBlock g nunits n prevp p s) (findBlock g nunits (n + 1) prevp p s) := by
  induction n generalizing prevp p s with
  | zero => exact .none _
  | succ n ih =>
    rw [findBlock, findBlock.eq_def g nunits (n + 1 + 1)]
    dsimp only
    split_ifs
    · exact .refl _
    · refine Below.bind (morecore_below _ _ _ _) fun a => ?_
      split_ifs
      · exact .refl _
      · exact ih _ _ _
    · exact ih _ _ _

/-- The result does not depend on the fuel. -/
theorem malloc_unique {k : ℕ} {x y : ℕ × Sys} (hx : malloc g base n nbytes s = some x)
    (hy : malloc g base k nbytes s = some y) : x = y :=
  result_unique (f := fun n s => malloc g base n nbytes s) (fun _ _ => findBlock_below _ _ _ _ _ _) hx hy

theorem free_unique {k ap : ℕ} {x y : Sys} (hx : free n ap s = some x) (hy : free k ap s = some y) : x = y :=
  result_unique (f := fun n s => free n ap s) (fun n => free_below n ap) hx hy

end Unique

section Main

theorem inside_iff {i : ℕ} : inside l i = true ↔ i ∈ cover l := by
  simp [inside, cover, mem_bytes]

/-- The program writes neither into the free list nor into a header. -/
theorem Sound.mayWrite (h : Sound base c l) {i : ℕ} (hi : mayWrite base c i = true) :
    i ∉ own base l ∧ ∀ b ∈ c.live, ¬ (b.addr ≤ i ∧ i < b.addr + 8) := by
  have hhead : ∀ b ∈ c.live, b.addr + 8 ≤ b.addr + b.len := fun b hb => Nat.add_le_add_left (h.block b hb).room.2.1 _
  rw [Umalloc.mayWrite, Bool.or_eq_true, Bool.and_eq_true, List.any_eq_true] at hi
  obtain ⟨b,hb,hi⟩ | ⟨hgot,hbase⟩ := hi
  · have hi : b.addr + 8 ≤ i ∧ i < b.addr + b.len := of_decide_eq_true hi
    refine ⟨h.not_own hb ⟨by omega,hi.2⟩,fun b' hb' hi' => ?_⟩
    have hhead' := hhead b' hb'
    by_cases he : b = b'
    · subst he
      omega
    · have hapart := h.live.forall hb hb' he
      unfold Extent.Apart at hapart
      omega
  · rw [Bool.not_eq_true', ← Bool.not_eq_true, inside_iff, ← h.cover, Set.mem_union, not_or] at hgot
    rw [Bool.or_eq_true, decide_eq_true_iff, decide_eq_true_iff] at hbase
    refine ⟨?_,fun b hb hi' => hgot.2 ⟨b,hb,hi'.1,?_⟩⟩
    · rintro (hi' | hi')
      · rw [Set.mem_Ico] at hi'
        omega
      · exact hgot.1 hi'
    · have hhead := hhead b hb
      omega

theorem Inv.after {act : Act} {c' : Client} (h : Inv base c) (hs : step base c act = some c') : Inv base c' := by
  cases act with
  | malloc nbytes g fuel =>
    rw [step] at hs
    split_ifs at hs with hn
    obtain ⟨⟨r,t⟩,hrun,rfl⟩ := Option.map_eq_some_iff.mp hs
    obtain ⟨bound,r',t',l,hrun',hl,-⟩ := h.malloc hn g
    cases malloc_unique hrun (hrun' bound le_rfl)
    exact .inl ⟨l,hl⟩
  | free ap fuel =>
    rw [step] at hs
    obtain ⟨b,hb,hs⟩ := Option.bind_eq_some_iff.mp hs
    obtain ⟨t,hrun,rfl⟩ := Option.map_eq_some_iff.mp hs
    have hap : b.addr + 8 = ap := by simpa using List.find?_some hb
    have hb := List.mem_of_find?_eq_some hb
    obtain ⟨l,hl⟩ | hboot := h
    · obtain ⟨bound,t',hrun',hl',-⟩ := hl.release hb
      rw [hap] at hrun'
      cases free_unique hrun (hrun' bound le_rfl)
      exact .inl ⟨_,hl'⟩
    · rw [hboot.live] at hb
      cases hb
  | sbrk n g =>
    rw [step] at hs
    split_ifs at hs with hn
    obtain ⟨⟨r,t⟩,hrun,rfl⟩ := Option.map_eq_some_iff.mp hs
    have hsz : c.sys.sz < KERNBASE := by
      obtain ⟨l,hl⟩ | hboot := h
      · exact hl.size.2
      · exact hboot.size.2.2
    obtain ⟨hnone,-⟩ | ⟨t',hrun',-,htsz,htop,hfreep,hsame⟩ := sbrk_grows (g := g) hn hsz
    · cases hnone.symm.trans hrun
    · cases hrun.symm.trans hrun'
      obtain ⟨l,hl⟩ | hboot := h
      · refine .inl ⟨l,hl.congr (fun i hi => hsame i ?_) (fun b hb i h1 h2 => hsame i ?_) hfreep (by omega) htop⟩
        · have hsize := hl.size
          obtain hi | ⟨a,ha,hi⟩ := hi
          · rw [Set.mem_Ico] at hi
            omega
          · have hta := hl.top a (List.mem_append_left _ ha)
            rw [mem_bytes] at hi
            omega
        · have hroom := (hl.block b hb).room
          have htb := hl.top b (List.mem_append_right _ hb)
          omega
      · have hsize := hboot.size
        exact .inr ⟨hfreep.trans hboot.freep,hboot.live,hboot.got,hsize.1,by dsimp only; omega,htop⟩
  | write a v =>
    rw [step] at hs
    split_ifs at hs with hmay
    cases hs
    obtain ⟨l,hl⟩ | hboot := h
    · have hout := hl.mayWrite hmay
      have hne {i : ℕ} (hi : i ≠ a) : Function.update c.sys.mem a v i = c.sys.mem i := Function.update_of_ne hi ..
      exact .inl ⟨l,hl.congr (fun i hi => hne fun he => hout.1 (he ▸ hi))
        (fun b hb i h1 h2 => hne fun he => hout.2 b hb (by omega)) rfl le_rfl hl.size.2⟩
    · exact .inr ⟨hboot.freep,hboot.live,hboot.got,hboot.size⟩

theorem Reached.inv (h : Reached base c) : Inv base c := h.invariant (fun _ => .inr) fun _ _ _ => Inv.after

/-- Once `malloc` was called, the free list holds exactly what came from the kernel and is in no block
of the process, in order and merged, and the blocks of the process have no byte in common. -/
theorem free_list_exact (h : Reached base c) (hp : c.sys.freep ≠ 0) : ∃ l, FreeList c.sys.mem base l ∧
    c.sys.freep ∈ heads base l ∧ Separated l ∧ cover l = spare c ∧ cover c.live ⊆ cover c.got ∧
    c.live.Pairwise Extent.Apart ∧ ∀ b ∈ c.live, b.addr + b.len ≤ c.sys.sz ∧ 8 * size c.sys.mem b.addr = b.len := by
  obtain ⟨l,hl⟩ | hboot := h.inv
  · refine ⟨l,hl.free,hl.freep,(List.pairwise_cons.mp hl.free.separated).2,hl.spare_eq.symm,?_,hl.live,fun b hb => ?_⟩
    · exact hl.cover ▸ Set.subset_union_right
    · exact ⟨hl.top b (List.mem_append_right _ hb),(hl.block b hb).size⟩
  · exact absurd hboot.freep hp

/-- `malloc` ends in every state. It gives a block that nobody has, or it fails, and it fails exactly when
the kernel refuses and no bytes in a row are spare. The other blocks keep their bytes. -/
theorem malloc_serves (h : Reached base c) (hn : nbytes < limit) (g : ℕ → ℕ → Bool) : ∃ bound r t,
    (∀ fuel, bound ≤ fuel → malloc g base fuel nbytes c.sys = some (r,t)) ∧ Keeps c.live c.sys t ∧
    (r = 0 ↔ Refuses g c.sys.sz (8 * max (nunits nbytes) 4096) ∧
      ∀ i, ¬ Set.Ico i (i + 8 * nunits nbytes) ⊆ spare c) ∧
    (r ≠ 0 → base + 16 ≤ r ∧ r + nbytes ≤ t.sz ∧
      ∀ b ∈ c.live, r + nbytes ≤ b.addr ∨ b.addr + b.len + 8 ≤ r) := by
  obtain ⟨bound,r,t,l,hrun,hl,hkeep,hr,hfail⟩ := h.inv.malloc hn g
  refine ⟨bound,r,t,hrun,hkeep,hfail,fun hne => ?_⟩
  have hr := hr hne
  have hunits := nunits_bounds hn
  have hlive : (c.after nbytes r t).live = ⟨r - 8,8 * nunits nbytes⟩ :: c.live := if_neg hne
  have hroom := (hl.block ⟨r - 8,8 * nunits nbytes⟩ (hlive ▸ List.mem_cons_self)).room
  have htop : r - 8 + 8 * nunits nbytes ≤ t.sz :=
    hl.top ⟨r - 8,8 * nunits nbytes⟩ (List.mem_append_right _ (hlive ▸ List.mem_cons_self))
  have hapart := hl.live
  rw [hlive] at hapart
  dsimp only at hroom
  refine ⟨by omega,by omega,fun b hb => ?_⟩
  have hb := (List.pairwise_cons.mp hapart).1 b hb
  unfold Extent.Apart at hb
  dsimp only at hb
  omega

/-- `free` ends for every block of the process. Its bytes are spare again, and the other blocks keep theirs. -/
theorem free_gives_back (h : Reached base c) (hb : b ∈ c.live) : ∃ bound t,
    (∀ fuel, bound ≤ fuel → free fuel (b.addr + 8) c.sys = some t) ∧ Keeps (c.live.erase b) c.sys t ∧
    t.sz = c.sys.sz ∧ spare { c with sys := t, live := c.live.erase b } = spare c ∪ b.bytes := by
  obtain ⟨l,hl⟩ | hboot := h.inv
  · obtain ⟨bound,t,hrun,hl',hkeep,hsz⟩ := hl.release hb
    refine ⟨bound,t,hrun,hkeep,hsz,?_⟩
    rw [hl.spare_eq, hl'.spare_eq, cover_place, Set.union_comm]
  · rw [hboot.live] at hb
    cases hb

end Main

section Witness

/-- A program whose static header is at 64, and a page of its own. -/
def bootClient : Client := ⟨⟨fun _ => 0,4096,0⟩,[],[]⟩

theorem bootClient_boot : Boot 64 bootClient := ⟨rfl,rfl,rfl,by decide⟩

def firstActs : List Act := [.malloc 5 (fun _ _ => true) 10,.malloc 100 (fun _ _ => true) 10]

theorem firstActs_isSome : (firstActs.foldlM (step 64) bootClient).isSome = true := by decide +kernel

/-- The program has two blocks. -/
def twoBlocks : Client := (firstActs.foldlM (step 64) bootClient).get firstActs_isSome

theorem twoBlocks_reached : Reached 64 twoBlocks :=
  Reachable.foldlM firstActs (.base bootClient_boot) (Option.some_get firstActs_isSome).symm

theorem twoBlocks_live : twoBlocks.live = [⟨36736,112⟩,⟨36848,16⟩] := by decide +kernel

theorem twoBlocks_exact : ∃ l, FreeList twoBlocks.sys.mem 64 l ∧ cover l = spare twoBlocks := by
  obtain ⟨l,hl,-,-,hcover,-⟩ := free_list_exact twoBlocks_reached (by decide +kernel)
  exact ⟨l,hl,hcover⟩

theorem twoBlocks_serves : ∃ bound r t, (∀ fuel, bound ≤ fuel →
    malloc (fun _ _ => false) 64 fuel 20 twoBlocks.sys = some (r,t)) ∧ Keeps twoBlocks.live twoBlocks.sys t := by
  obtain ⟨bound,r,t,hrun,hkeep,-⟩ := malloc_serves twoBlocks_reached (show 20 < limit by decide) fun _ _ => false
  exact ⟨bound,r,t,hrun,hkeep⟩

theorem twoBlocks_gives_back : ∃ bound t, (∀ fuel, bound ≤ fuel → free fuel 36744 twoBlocks.sys = some t) ∧
    Keeps [⟨36848,16⟩] twoBlocks.sys t := by
  have hmem : (⟨36736,112⟩ : Extent) ∈ twoBlocks.live := twoBlocks_live ▸ List.mem_cons_self
  obtain ⟨bound,t,hrun,hkeep,-⟩ := free_gives_back twoBlocks_reached hmem
  exact ⟨bound,t,hrun,by rwa [twoBlocks_live] at hkeep⟩

end Witness

end X86OsDev.Xv6.Umalloc
