import X86OsDev.Lib.Extents
import X86OsDev.Xv6.Umalloc

/-! # The free list in memory

The ring of headers that stands for a list of extents, the search of `free` in it, and the links
that `free` sets. They put an extent into its place.
-/
namespace X86OsDev.Xv6.Umalloc
open Memory Extents

variable {m m' : Mem} {p v z bp base : ℕ} {a b : Extent} {l pre post : List Extent}

section Headers

theorem word_of_lt {n : ℕ} (h : n < 2 ^ 32) : word n = n := Nat.mod_eq_of_lt h

theorem ptr_congr (h : SameOn m m' p 8) : ptr m p = ptr m' p := load32_congr (h.mono le_rfl (by omega))

theorem size_congr (hp : p + 8 ≤ 2 ^ 32) (h : SameOn m m' p 8) : size m p = size m' p := by
  unfold size
  rw [word_of_lt (by omega)]
  exact load32_congr (h.mono (by omega) (by omega))

theorem setPtr_changedIn (m : Mem) (p v : ℕ) : ChangedIn m (setPtr m p v) p 8 :=
  (store32_changedIn m p v).mono le_rfl (by omega)

theorem setSize_changedIn (m : Mem) (v : ℕ) (hp : p + 8 ≤ 2 ^ 32) : ChangedIn m (setSize m p v) p 8 := by
  unfold setSize
  rw [word_of_lt (by omega)]
  exact (store32_changedIn m (p + 4) v).mono (by omega) (by omega)

theorem ptr_setPtr (hv : v < 2 ^ 32) : ptr (setPtr m p v) p = v := (load32_store32 ..).trans (Nat.mod_eq_of_lt hv)

theorem size_setPtr (hp : p + 8 ≤ 2 ^ 32) : size (setPtr m p v) p = size m p := by
  unfold size setPtr
  rw [word_of_lt (by omega)]
  exact load32_store32_of_apart m v (.inl le_rfl)

theorem size_setSize (hv : v < 2 ^ 32) : size (setSize m p v) p = v :=
  (load32_store32 ..).trans (Nat.mod_eq_of_lt hv)

theorem ptr_setSize (hp : p + 8 ≤ 2 ^ 32) : ptr (setSize m p v) p = ptr m p := by
  unfold ptr setSize
  rw [word_of_lt (by omega)]
  exact load32_store32_of_apart m v (.inr le_rfl)

end Headers

section Links

/-- The address of the first extent of a list, and `z` at its end. -/
def first (z : ℕ) : List Extent → ℕ
  | [] => z
  | a :: _ => a.addr

/-- Each header has the address of the next one, and the size. -/
def Linked (m : Mem) (z : ℕ) : List Extent → Prop
  | [] => True
  | a :: l => ptr m a.addr = first z l ∧ 8 * size m a.addr = a.len ∧ Linked m z l

theorem first_append : first z (pre ++ post) = first (first z post) pre := by
  cases pre <;> rfl

theorem linked_append : Linked m z (pre ++ post) ↔ Linked m (first z post) pre ∧ Linked m z post := by
  induction pre with
  | nil => exact (iff_of_eq (true_and _)).symm
  | cons a pre ih =>
    rw [List.cons_append, Linked, Linked, ih, first_append, and_assoc, and_assoc]

/-- What the links are depends on the headers alone. -/
theorem Linked.congr (h : Linked m z l) (hlt : ∀ a ∈ l, a.addr + 8 ≤ 2 ^ 32)
    (hs : ∀ a ∈ l, SameOn m' m a.addr 8) : Linked m' z l := by
  induction l with
  | nil => trivial
  | cons a l ih =>
    obtain ⟨hptr,hsize,hl⟩ := h
    obtain ⟨hlta,hlt⟩ := List.forall_mem_cons.mp hlt
    obtain ⟨hsa,hs⟩ := List.forall_mem_cons.mp hs
    exact ⟨(ptr_congr hsa).trans hptr,by rw [size_congr hlta hsa, hsize],ih hl hlt hs⟩

/-- The headers of a list that a change at `p` leaves alone. -/
theorem Linked.changed (h : Linked m z l) (hlt : ∀ a ∈ l, a.addr + 8 ≤ 2 ^ 32) (hc : ChangedIn m m' p 8)
    (hp : ∀ a ∈ l, Apart p 8 a.addr 8) : Linked m' z l :=
  h.congr hlt fun a ha => hc.sameOn (hp a ha)

theorem Linked.mem (h : Linked m z l) (ha : a ∈ l) : 8 * size m a.addr = a.len := by
  induction l with
  | nil => cases ha
  | cons c l ih =>
    cases ha with
    | head => exact h.2.1
    | tail _ ha => exact ih h.2.2 ha

end Links

/-- The free list. Its extents are those of the blocks, and `base` has none. -/
structure FreeList (m : Mem) (base : ℕ) (l : List Extent) : Prop where
  linked : Linked m base (⟨base,0⟩ :: l)
  separated : Separated (⟨base,0⟩ :: l)
  room : ∀ a ∈ l, base + 8 ≤ a.addr ∧ 8 ≤ a.len ∧ a.addr + a.len ≤ KERNBASE
  low : 0 < base ∧ base + 8 ≤ KERNBASE

abbrev heads (base : ℕ) (l : List Extent) : List ℕ := (⟨base,0⟩ :: l : List Extent).map (·.addr)

section Order

theorem FreeList.bound (h : FreeList m base l) : ∀ a ∈ (⟨base,0⟩ :: l : List Extent), a.addr + 8 ≤ 2 ^ 32 := by
  have hlow := h.low
  unfold KERNBASE at hlow
  refine List.forall_mem_cons.mpr ⟨by dsimp only; omega,fun a ha => ?_⟩
  have hroom := h.room a ha
  unfold KERNBASE at hroom
  omega

/-- The headers are in order, and apart. -/
theorem FreeList.order (h : FreeList m base l) :
    (⟨base,0⟩ :: l : List Extent).Pairwise fun a b => a.addr + 8 ≤ b.addr := by
  obtain ⟨-,hl⟩ := List.pairwise_cons.mp h.separated
  refine List.pairwise_cons.mpr ⟨fun a ha => (h.room a ha).1,hl.imp_of_mem fun {a b} ha _ hab => ?_⟩
  have hroom := h.room a ha
  omega

end Order

section Search
variable {fuel : ℕ}

/-- The search goes on before the place. -/
theorem findPlace_before (hord : (pre ++ a :: post).Pairwise fun a b => a.addr + 8 ≤ b.addr)
    (hl : Linked m base (pre ++ a :: post)) (hbase : base ≤ a.addr) (hab : a.addr < bp)
    (hpost : ∀ x ∈ post, bp < x.addr) :
    findPlace m bp (pre.length + 1 + fuel) (first base (pre ++ a :: post)) = some a.addr := by
  induction pre with
  | nil =>
    rw [List.nil_append] at hl ⊢
    rw [List.length_nil, Nat.zero_add, Nat.add_comm, findPlace, first, hl.1]
    cases post with
    | nil =>
      rw [first]
      split_ifs with h1 h2
      · rfl
      · rfl
      · exact absurd ⟨hbase,.inl hab⟩ h2
    | cons q post => rw [first, if_pos ⟨hab,hpost q List.mem_cons_self⟩]
  | cons c pre ih =>
    obtain ⟨hc,hord⟩ := List.pairwise_cons.mp hord
    have hnext : c.addr + 8 ≤ first base (pre ++ a :: post) ∧ first base (pre ++ a :: post) ≤ a.addr := by
      cases pre with
      | nil => exact ⟨hc a List.mem_cons_self,le_rfl⟩
      | cons d pre =>
        have hda := (List.pairwise_cons.mp hord).1 a (List.mem_append_right _ List.mem_cons_self)
        exact ⟨hc d List.mem_cons_self,by rw [List.cons_append, first]; omega⟩
    have hlen : (c :: pre).length + 1 + fuel = (pre.length + 1 + fuel) + 1 := by
      rw [List.length_cons]
      omega
    have hfirst : first base (c :: pre ++ a :: post) = c.addr := rfl
    have hptr : ptr m c.addr = first base (pre ++ a :: post) := hl.1
    rw [hlen, hfirst, findPlace, hptr, if_neg (by omega), if_neg (by omega)]
    exact ih hord hl.2.2

/-- Behind the place it comes back to `base`. -/
theorem findPlace_behind (hord : post.Pairwise fun a b => a.addr + 8 ≤ b.addr) (hl : Linked m base post)
    (hbase : base < bp) (hpost : ∀ x ∈ post, bp < x.addr) :
    findPlace m bp (post.length + fuel) (first base post) = findPlace m bp fuel base := by
  induction post with
  | nil =>
    rw [List.length_nil, Nat.zero_add]
    rfl
  | cons q post ih =>
    obtain ⟨hq,hord⟩ := List.pairwise_cons.mp hord
    obtain ⟨hbq,hpost⟩ := List.forall_mem_cons.mp hpost
    have hlen : (q :: post).length + fuel = (post.length + fuel) + 1 := by
      rw [List.length_cons]
      omega
    have hstop : ¬ (ptr m q.addr ≤ q.addr ∧ (q.addr < bp ∨ bp < ptr m q.addr)) := by
      rw [hl.1]
      cases post with
      | nil =>
        rw [first]
        omega
      | cons r post =>
        have hqr := hq r List.mem_cons_self
        rw [first]
        omega
    rw [hlen, first, findPlace, if_neg (by omega), if_neg hstop, hl.1]
    exact ih hord hl.2.2 hpost

/-- From every header of the ring the search comes to the place. -/
theorem FreeList.findPlace (h : FreeList m base l) (hlist : ⟨base,0⟩ :: l = pre ++ a :: post) (hab : a.addr < bp)
    (hpost : ∀ x ∈ post, bp < x.addr) (hp : p ∈ heads base l) (hfuel : l.length < fuel) :
    Umalloc.findPlace m bp fuel p = some a.addr := by
  have hord := h.order
  have hlinked := h.linked
  have hbase : base ≤ a.addr := by
    have ha : a ∈ (⟨base,0⟩ :: l : List Extent) := hlist ▸ List.mem_append_right _ List.mem_cons_self
    cases ha with
    | head => exact le_rfl
    | tail _ ha =>
      have hroom := h.room a ha
      omega
  have hlen : l.length + 1 = pre.length + (post.length + 1) := by
    have hlen := congrArg List.length hlist
    rwa [List.length_append, List.length_cons, List.length_cons] at hlen
  rw [heads, hlist, List.map_append, List.map_cons, List.mem_append, List.mem_cons] at hp
  rw [hlist] at hord hlinked
  have hbefore {w : List Extent} (hsuf : ∃ c, pre = c ++ w) {k : ℕ} (hk : w.length + 1 ≤ k) :
      Umalloc.findPlace m bp k (first base (w ++ a :: post)) = some a.addr := by
    obtain ⟨c,rfl⟩ := hsuf
    rw [List.append_assoc] at hord hlinked
    obtain ⟨d,rfl⟩ := Nat.exists_eq_add_of_le hk
    exact findPlace_before (List.pairwise_append.mp hord).2.1 (linked_append.mp hlinked).2 hbase hab hpost
  obtain hp | rfl | hp := hp
  · obtain ⟨x,hx,rfl⟩ := List.mem_map.mp hp
    obtain ⟨c,d,rfl⟩ := List.append_of_mem hx
    rw [List.length_append, List.length_cons] at hlen
    exact hbefore (w := x :: d) ⟨c,rfl⟩ (by rw [List.length_cons]; omega)
  · exact hbefore (w := []) ⟨pre,(List.append_nil _).symm⟩ (by rw [List.length_nil]; omega)
  · obtain ⟨x,hx,rfl⟩ := List.mem_map.mp hp
    obtain ⟨c,d,rfl⟩ := List.append_of_mem hx
    obtain ⟨-,hord',-⟩ := List.pairwise_append.mp hord
    have hord' : (x :: d).Pairwise fun a b => a.addr + 8 ≤ b.addr :=
      (List.pairwise_append.mp (List.pairwise_cons.mp hord').2).2.1
    have hlinked' : Linked m base (x :: d) := (linked_append.mp (linked_append.mp hlinked).2.2.2).2
    rw [List.length_append, List.length_cons] at hlen
    obtain ⟨k,rfl⟩ := Nat.exists_eq_add_of_le (show d.length + 1 ≤ fuel by omega)
    have hback : Umalloc.findPlace m bp (d.length + 1 + k) x.addr = findPlace m bp k base :=
      findPlace_behind hord' hlinked' (by omega) fun y hy => hpost y (List.mem_append_right _ hy)
    -- `base` is the first header of the ring
    have hfirst : first base (pre ++ a :: (c ++ x :: d)) = base := hlist ▸ rfl
    have hfrom := hbefore (w := pre) (k := k) ⟨[],rfl⟩ (by omega)
    exact hback.trans ((congrArg _ hfirst).symm.trans hfrom)

end Search

section Join
variable {q : ℕ}

/-- A block before a list, with its header in memory: the header is set as `attach` says. -/
theorem joinNext_spec (hptr : ptr m p = first z post) (hpost : Linked m z post) (hb : 8 * size m b.addr = b.len)
    (hz : z < b.addr) (hbound : ∀ a ∈ b :: post, a.addr + a.len ≤ KERNBASE ∧ 8 ≤ a.len)
    (hord : ∀ a ∈ post, b.addr + 8 ≤ a.addr) (hpb : p + 8 ≤ b.addr) :
    Linked (joinNext m b.addr p) z (attach b post) ∧ ChangedIn m (joinNext m b.addr p) b.addr 8 := by
  obtain ⟨hbb,hbound⟩ := List.forall_mem_cons.mp hbound
  unfold KERNBASE at hbb hbound
  have hb8 : b.addr + 8 ≤ 2 ^ 32 := by omega
  have hlt : ∀ a ∈ post, a.addr + 8 ≤ 2 ^ 32 := fun a ha => by
    have hba := hbound a ha
    omega
  have hfirst : first z post < 2 ^ 32 := by
    cases post with
    | nil =>
      rw [first]
      omega
    | cons a post =>
      have hba := hlt a List.mem_cons_self
      rw [first]
      omega
  unfold joinNext
  rw [hb, word_of_lt (by omega), hptr]
  cases post with
  | nil =>
    rw [first, if_neg (by omega), attach]
    have hc := setPtr_changedIn m b.addr z
    exact ⟨⟨ptr_setPtr (by omega),by rw [size_setPtr hb8, hb],trivial⟩,hc⟩
  | cons a post =>
    obtain ⟨hptra,hsizea,hl⟩ := hpost
    obtain ⟨hba,hbound⟩ := List.forall_mem_cons.mp hbound
    obtain ⟨hoa,hord⟩ := List.forall_mem_cons.mp hord
    obtain ⟨hla,hlt⟩ := List.forall_mem_cons.mp hlt
    rw [first, attach]
    split_ifs with he
    · -- the sizes are added, and the next one is that of the neighbour
      have hsum : size m b.addr + size m a.addr < 2 ^ 32 := by omega
      generalize hm : setSize m b.addr (size m b.addr + size m a.addr) = m₁
      have hc₁ : ChangedIn m m₁ b.addr 8 := hm ▸ setSize_changedIn m _ hb8
      have hp₁ : ptr m₁ p = a.addr := (ptr_congr (hc₁.sameOn (.inr hpb))).trans hptr
      have ha₁ : ptr m₁ a.addr = first z post := (ptr_congr (hc₁.sameOn (.inl hoa))).trans hptra
      have hs₁ : size m₁ b.addr = size m b.addr + size m a.addr := hm ▸ size_setSize hsum
      have hnext : first z post < 2 ^ 32 := hptra ▸ load32_lt ..
      dsimp only
      rw [hp₁, ha₁]
      have hc : ChangedIn m (setPtr m₁ b.addr (first z post)) b.addr 8 := hc₁.trans (setPtr_changedIn m₁ _ _)
      refine ⟨⟨ptr_setPtr hnext,?_,hl.changed hlt hc fun x hx => .inl (hord x hx)⟩,hc⟩
      rw [Extent.merge]
      dsimp only
      rw [size_setPtr hb8, hs₁, Nat.mul_add, hb, hsizea]
    · have hc := setPtr_changedIn m b.addr a.addr
      refine ⟨⟨ptr_setPtr hfirst,by rw [size_setPtr hb8, hb],?_⟩,hc⟩
      exact Linked.changed ⟨hptra,hsizea,hl⟩ (List.forall_mem_cons.mpr ⟨hla,hlt⟩) hc
        (List.forall_mem_cons.mpr ⟨.inl hoa,fun x hx => .inl (hord x hx)⟩)

/-- A block behind another one. -/
theorem joinPrev_spec (hl : Linked m z (b :: post)) (ha : 8 * size m a.addr = a.len)
    (hbound : ∀ x ∈ b :: post, x.addr + 8 ≤ 2 ^ 32 ∧ a.addr + 8 ≤ x.addr)
    (hsum : a.len + b.len ≤ KERNBASE) (hstop : a.addr + a.len < 2 ^ 32) :
    Linked (joinPrev m b.addr a.addr) z
      (if a.addr + a.len = b.addr then a.merge b :: post else a :: b :: post) ∧
      ChangedIn m (joinPrev m b.addr a.addr) a.addr 8 := by
  obtain ⟨hbb,hbound'⟩ := List.forall_mem_cons.mp hbound
  have ha8 : a.addr + 8 ≤ 2 ^ 32 := by omega
  obtain ⟨hptrb,hsizeb,hpost⟩ := hl
  unfold KERNBASE at hsum
  unfold joinPrev
  rw [ha, word_of_lt hstop]
  split_ifs with he
  · have hlt : size m a.addr + size m b.addr < 2 ^ 32 := by omega
    generalize hm : setSize m a.addr (size m a.addr + size m b.addr) = m₁
    have hc₁ : ChangedIn m m₁ a.addr 8 := hm ▸ setSize_changedIn m _ ha8
    have hb₁ : ptr m₁ b.addr = first z post := (ptr_congr (hc₁.sameOn (.inl hbb.2))).trans hptrb
    have hs₁ : size m₁ a.addr = size m a.addr + size m b.addr := hm ▸ size_setSize hlt
    have hnext : first z post < 2 ^ 32 := hptrb ▸ load32_lt ..
    dsimp only
    rw [hb₁]
    have hc : ChangedIn m (setPtr m₁ a.addr (first z post)) a.addr 8 := hc₁.trans (setPtr_changedIn m₁ _ _)
    refine ⟨⟨ptr_setPtr hnext,?_,?_⟩,hc⟩
    · rw [Extent.merge]
      dsimp only
      rw [size_setPtr ha8, hs₁, Nat.mul_add, ha, hsizeb]
    · exact hpost.changed (fun x hx => (hbound' x hx).1) hc fun x hx => .inl (hbound' x hx).2
  · have hc := setPtr_changedIn m a.addr b.addr
    refine ⟨⟨ptr_setPtr (by omega),by rw [size_setPtr ha8, ha],?_⟩,hc⟩
    exact Linked.changed ⟨hptrb,hsizeb,hpost⟩ (fun x hx => (hbound x hx).1) hc fun x hx => .inl (hbound x hx).2

end Join

end X86OsDev.Xv6.Umalloc
