import Mathlib.Data.List.Pairwise
import X86OsDev.Xv6.UmallocList

/-! # What free and malloc do to the free list

`free` puts a block into its place, `malloc` cuts a block off the first one behind `freep` that is
large enough, and `morecore` frees what `sbrk` gives. Nothing else in memory changes.
-/
namespace X86OsDev.Xv6.Umalloc
open Memory Extents

variable {base fuel n p : ℕ} {a b : Extent} {l pre post : List Extent} {s : Sys}

/-- The bytes that the allocator writes: the static header and the free blocks. -/
def own (base : ℕ) (l : List Extent) : Set ℕ := Set.Ico base (base + 8) ∪ cover l

/-- A block with a header in memory. -/
structure Block (m : Mem) (base : ℕ) (b : Extent) : Prop where
  size : 8 * size m b.addr = b.len
  room : base + 8 ≤ b.addr ∧ 8 ≤ b.len ∧ b.addr + b.len ≤ KERNBASE

theorem mem_own {m : Mem} {x : ℕ} (h : FreeList m base l) (ha : a ∈ (⟨base,0⟩ :: l : List Extent))
    (hx : a.addr ≤ x ∧ x < a.addr + 8) : x ∈ own base l := by
  cases ha with
  | head => exact .inl hx
  | tail _ ha =>
    have hroom := h.room a ha
    exact .inr ⟨a,ha,hx.1,by omega⟩

theorem Block.apart_base {m : Mem} (hb : Block m base b) (hab : ∀ a ∈ l, a.Apart b) :
    ∀ a ∈ (⟨base,0⟩ :: l : List Extent), a.Apart b := by
  have hroom := hb.room
  exact List.forall_mem_cons.mpr ⟨.inl (by dsimp only; omega),hab⟩

/-- The headers of a block and of the free blocks before and behind it. -/
theorem FreeList.free (h : FreeList s.mem base l) (hp : s.freep ∈ heads base l) (hb : Block s.mem base b)
    (hab : ∀ a ∈ l, a.Apart b) : ∃ t, (∀ fuel, l.length < fuel → Umalloc.free fuel (b.addr + 8) s = some t) ∧
      FreeList t.mem base (place b l) ∧ t.freep ∈ heads base (place b l) ∧ t.sz = s.sz ∧
      ∀ x, x ∉ own base l → x ∉ b.bytes → t.mem x = s.mem x := by
  have hroom := hb.room
  have habase := hb.apart_base hab
  have hlow := h.low
  unfold KERNBASE at hroom
  obtain ⟨pre,a,post,hlist,hstop,hpost⟩ := h.separated.split (b := b)
    (fun x hx => by have hrx := h.room x hx; omega) (show base < b.addr by omega) (by omega) habase
  have hplace : place b (⟨base,0⟩ :: l) = ⟨base,0⟩ :: place b l := by
    rw [place, if_neg (by dsimp only; omega), if_neg (by dsimp only; omega)]
  have ha : a ∈ (⟨base,0⟩ :: l : List Extent) := hlist ▸ List.mem_append_right _ List.mem_cons_self
  have hab8 : a.addr + 8 ≤ b.addr := by
    cases ha with
    | head => exact hroom.1
    | tail _ ha =>
      have hra := h.room a ha
      omega
  have hbp : word (b.addr + 8 + (2 ^ 32 - 8)) = b.addr := by
    rw [show b.addr + 8 + (2 ^ 32 - 8) = b.addr + 2 ^ 32 by omega, word, Nat.add_mod_right]
    exact Nat.mod_eq_of_lt (by omega)
  have hfind {fuel : ℕ} (hfuel : l.length < fuel) : Umalloc.findPlace s.mem b.addr fuel s.freep = some a.addr :=
    h.findPlace hlist (by omega) (fun x hx => by have hbx := hpost x hx; omega) hp hfuel
  have hord := h.order
  have hlinked := h.linked
  have hbound := h.bound
  rw [hlist] at hord hlinked hbound
  obtain ⟨hpre,hord',hcross⟩ := List.pairwise_append.mp hord
  obtain ⟨hlpre,hptr,hsize,hlpost⟩ := linked_append.mp hlinked
  have hmemPost : ∀ x ∈ post, x ∈ l := by
    intro x hx
    have hxl : x ∈ (⟨base,0⟩ :: l : List Extent) :=
      hlist ▸ List.mem_append_right _ (List.mem_cons_of_mem _ hx)
    cases hxl with
    | head =>
      have hbx := hpost _ hx
      dsimp only at hbx
      omega
    | tail _ hx => exact hx
  -- first the block and what is behind it, then what is before it
  obtain ⟨hnext,hc₁⟩ := joinNext_spec (b := b) hptr hlpost hb.size (by omega)
    (List.forall_mem_cons.mpr ⟨⟨hb.room.2.2,hb.room.2.1⟩,fun x hx => (h.room x (hmemPost x hx)).2.symm⟩)
    (fun x hx => by have hbx := hpost x hx; omega) hab8
  generalize hm₁ : joinNext s.mem b.addr a.addr = m₁ at hnext hc₁
  obtain ⟨c,t,hatt,hcb,hmerge⟩ := attach_cons b post
  have hct : ∀ x ∈ c :: t, a.addr + 8 ≤ x.addr ∧ x.addr + 8 ≤ 2 ^ 32 ∧ x.addr + x.len ≤ 2 ^ 31 := by
    rw [← hatt]
    refine attach_forall (fun x y hx hy he => ⟨hx.1,hx.2.1,?_⟩) ⟨hab8,by omega,by omega⟩ fun x hx => ?_
    · change x.addr + (x.len + y.len) ≤ 2 ^ 31
      omega
    · have hrx := h.room x (hmemPost x hx)
      have hbx := hpost x hx
      unfold KERNBASE at hrx
      omega
  have hc := hct c List.mem_cons_self
  have ha₁ : 8 * Umalloc.size m₁ a.addr = a.len := by
    rw [size_congr (by omega) (hc₁.sameOn (.inr hab8)), hsize]
  rw [hatt] at hnext
  obtain ⟨hprev,hc₂⟩ := joinPrev_spec hnext ha₁ (fun x hx => ⟨(hct x hx).2.1,(hct x hx).1⟩)
    (by unfold KERNBASE; omega) (by omega)
  rw [hcb] at hprev hc₂
  generalize hm₂ : joinPrev m₁ b.addr a.addr = m₂ at hprev hc₂
  have hnew : ⟨base,0⟩ :: place b l =
      pre ++ if a.addr + a.len = b.addr then a.merge c :: t else a :: c :: t := by
    rw [← hplace, hlist, place_append (hlist ▸ h.separated) hstop fun x hx => by have hbx := hpost x hx; omega, hatt]
    split_ifs with he
    · rw [hmerge a he]
    · rfl
  have hfirst : first base (if a.addr + a.len = b.addr then a.merge c :: t else a :: c :: t) = a.addr := by
    split_ifs <;> rfl
  refine ⟨{ s with mem := m₂, freep := a.addr },fun fuel hfuel => ?_,⟨?_,?_,?_,h.low⟩,?_,rfl,fun x hx hxb => ?_⟩
  · unfold Umalloc.free
    dsimp only
    rw [hbp, hfind hfuel, Option.map_some, hm₁, hm₂]
  · rw [hnew]
    refine linked_append.mpr ⟨?_,hprev⟩
    rw [hfirst]
    have hlt : ∀ x ∈ pre, x.addr + 8 ≤ 2 ^ 32 := fun x hx => hbound x (List.mem_append_left _ hx)
    have hxa : ∀ x ∈ pre, x.addr + 8 ≤ a.addr := fun x hx => hcross x hx a List.mem_cons_self
    refine Linked.changed (hlpre.changed hlt hc₁ fun x hx => .inr ?_) hlt hc₂ fun x hx => .inr (hxa x hx)
    have hxa := hxa x hx
    omega
  · rw [← hplace]
    exact h.separated.place (by omega) habase
  · refine place_forall (fun x y hx hy he => ⟨hx.1,?_⟩) hb.room h.room
    change 8 ≤ x.len + y.len ∧ x.addr + (x.len + y.len) ≤ KERNBASE
    omega
  · rw [heads, hnew, List.map_append]
    refine List.mem_append_right _ ?_
    split_ifs
    · exact List.mem_cons_self
    · exact List.mem_cons_self
  · have h1 : ¬ (b.addr ≤ x ∧ x < b.addr + 8) := fun hxb' => hxb ⟨hxb'.1,by omega⟩
    have h2 : ¬ (a.addr ≤ x ∧ x < a.addr + 8) := fun hxa => hx (mem_own h ha hxa)
    exact (hc₂ x h2).trans (hc₁ x h1)

section Search
variable {g : ℕ → ℕ → Bool} {z prevp : ℕ} {m : Mem} {q : Extent}

/-- The search goes on to the first block that is large enough. -/
theorem findBlock_found (hl : Linked s.mem z (pre ++ a :: post)) (hprev : ptr s.mem prevp = first z (pre ++ a :: post))
    (hsmall : ∀ x ∈ pre, x.len < 8 * n ∧ x.addr ≠ s.freep) (hfit : 8 * n ≤ a.len) :
    ∃ q, (q = prevp ∨ ∃ x ∈ pre, q = x.addr) ∧ ptr s.mem q = a.addr ∧ ∀ fuel,
      findBlock g n (pre.length + 1 + fuel) prevp (first z (pre ++ a :: post)) s = some (take n q a.addr s) := by
  induction pre generalizing prevp with
  | nil =>
    have hsize : 8 * size s.mem a.addr = a.len := hl.2.1
    refine ⟨prevp,.inl rfl,hprev,fun fuel => ?_⟩
    rw [List.length_nil, Nat.zero_add, Nat.add_comm, findBlock, List.nil_append, first, if_pos (by omega)]
  | cons c pre ih =>
    rw [List.cons_append] at hl
    obtain ⟨hptr,hsize,hl⟩ := hl
    obtain ⟨hc,hsmall⟩ := List.forall_mem_cons.mp hsmall
    obtain ⟨q,hq,hptrq,hrun⟩ := ih hl hptr hsmall
    refine ⟨q,.inr ?_,hptrq,fun fuel => ?_⟩
    · obtain rfl | ⟨x,hx,rfl⟩ := hq
      · exact ⟨c,List.mem_cons_self,rfl⟩
      · exact ⟨x,List.mem_cons_of_mem _ hx,rfl⟩
    · have hlen : (c :: pre).length + 1 + fuel = (pre.length + 1 + fuel) + 1 := by
        rw [List.length_cons]
        omega
      rw [hlen, List.cons_append, first, findBlock, if_neg (by omega), if_neg hc.2, hptr, hrun]

/-- When it comes back to `freep` it asks for more memory. -/
theorem findBlock_none (fuel prevp : ℕ) (hl : Linked s.mem z (pre ++ [a])) (hsmall : ∀ x ∈ pre ++ [a], x.len < 8 * n)
    (hne : ∀ x ∈ pre, x.addr ≠ s.freep) (ha : a.addr = s.freep) :
    findBlock g n (pre.length + 1 + fuel) prevp (first z (pre ++ [a])) s =
      (morecore g fuel n s).bind fun (p,t) =>
        if p = 0 then some (0,t) else findBlock g n fuel p (ptr t.mem p) t := by
  induction pre generalizing prevp with
  | nil =>
    have hsize : 8 * size s.mem a.addr = a.len := hl.2.1
    have hlen := hsmall a List.mem_cons_self
    rw [List.length_nil, Nat.zero_add, Nat.add_comm, findBlock, List.nil_append, first, if_neg (by omega), if_pos ha]
  | cons c pre ih =>
    rw [List.cons_append] at hl hsmall
    obtain ⟨hptr,hsize,hl⟩ := hl
    obtain ⟨hc,hsmall⟩ := List.forall_mem_cons.mp hsmall
    obtain ⟨hcne,hne⟩ := List.forall_mem_cons.mp hne
    have hlen : (c :: pre).length + 1 + fuel = (pre.length + 1 + fuel) + 1 := by
      rw [List.length_cons]
      omega
    rw [hlen, List.cons_append, first, findBlock, if_neg (by omega), if_neg hcne, hptr, ih _ hl hsmall hne]

/-- The ring from behind one of its headers up to it. -/
theorem FreeList.rotate (h : FreeList m base l) (hlist : ⟨base,0⟩ :: l = pre ++ a :: post) :
    Linked m (first base post) (post ++ (pre ++ [a])) ∧
      first (first base post) (post ++ (pre ++ [a])) = first base post ∧ ptr m a.addr = first base post := by
  have hlinked := h.linked
  have hfirst {z : ℕ} : first z (pre ++ [a]) = base := by
    have hhead : first z (pre ++ a :: post) = base := hlist ▸ rfl
    rw [first_append] at hhead ⊢
    exact hhead
  rw [hlist] at hlinked
  obtain ⟨hpre,hptr,hsize,hpost⟩ := linked_append.mp hlinked
  refine ⟨linked_append.mpr ⟨hfirst.symm ▸ hpost,linked_append.mpr ⟨hpre,hptr,hsize,trivial⟩⟩,?_,hptr⟩
  rw [first_append, hfirst]

theorem FreeList.addr_inj (h : FreeList m base l) (ha : a ∈ (⟨base,0⟩ :: l : List Extent))
    (hb : b ∈ (⟨base,0⟩ :: l : List Extent)) (he : a.addr = b.addr) : a = b := by
  have hnodup : (heads base l).Nodup := List.pairwise_map.mpr (h.order.imp fun hab => by omega)
  exact List.inj_on_of_nodup_map hnodup ha hb he

/-- The header with the address of a free block is the one before it. -/
theorem FreeList.adjacent (h : FreeList m base l) (hq : q ∈ (⟨base,0⟩ :: l : List Extent)) (ha : a ∈ l)
    (hptr : ptr m q.addr = a.addr) : ∃ pre post, ⟨base,0⟩ :: l = pre ++ q :: a :: post := by
  obtain ⟨pre,post,hlist⟩ := List.append_of_mem hq
  have hlinked := h.linked
  rw [hlist] at hlinked
  have hnext : first base post = a.addr := (linked_append.mp hlinked).2.1.symm.trans hptr
  have hroom := h.room a ha
  cases post with
  | nil =>
    rw [first] at hnext
    omega
  | cons c post =>
    have hc : c ∈ (⟨base,0⟩ :: l : List Extent) :=
      hlist ▸ List.mem_append_right _ (List.mem_cons_of_mem _ List.mem_cons_self)
    cases h.addr_inj hc (List.mem_cons_of_mem _ ha) hnext
    exact ⟨pre,post,hlist⟩

/-- What the loop of `malloc` does: it takes from a block that is large enough, if there is one. -/
theorem FreeList.findBlock (h : FreeList s.mem base l) (hp : s.freep ∈ heads base l) (hn : 0 < n) :
    (∃ a ∈ l, 8 * n ≤ a.len ∧ ∃ pre q post, ⟨base,0⟩ :: l = pre ++ q :: a :: post ∧ ∀ fuel, l.length < fuel →
      Umalloc.findBlock g n fuel s.freep (ptr s.mem s.freep) s = some (take n q.addr a.addr s)) ∨
    (∀ a ∈ l, a.len < 8 * n) ∧ ∀ fuel,
      Umalloc.findBlock g n (l.length + 1 + fuel) s.freep (ptr s.mem s.freep) s =
        (morecore g fuel n s).bind fun (p,t) =>
          if p = 0 then some (0,t) else Umalloc.findBlock g n fuel p (ptr t.mem p) t := by
  obtain ⟨f,hf,hfp⟩ := List.mem_map.mp hp
  obtain ⟨pre,post,hlist⟩ := List.append_of_mem hf
  obtain ⟨hlinked,hfirst,hptr⟩ := h.rotate hlist
  rw [hfp] at hptr
  have hmem {x : Extent} (hx : x ∈ post ++ (pre ++ [f])) : x ∈ (⟨base,0⟩ :: l : List Extent) := by
    rw [hlist]
    simp only [List.mem_append, List.mem_cons, List.not_mem_nil, or_false] at hx ⊢
    tauto
  have hmem' {x : Extent} (hx : x ∈ l) : x ∈ post ++ (pre ++ [f]) := by
    have hx : x ∈ (⟨base,0⟩ :: l : List Extent) := List.mem_cons_of_mem _ hx
    rw [hlist] at hx
    simp only [List.mem_append, List.mem_cons, List.not_mem_nil, or_false] at hx ⊢
    tauto
  have hlen : post.length + pre.length = l.length := by
    have hlen := congrArg List.length hlist
    rw [List.length_append, List.length_cons, List.length_cons] at hlen
    omega
  -- `freep` comes last
  have hne : ∀ x ∈ post ++ pre, x.addr ≠ s.freep := by
    intro x hx he
    have hord := h.order
    rw [hlist] at hord
    obtain ⟨-,hpost,hcross⟩ := List.pairwise_append.mp hord
    rw [← hfp] at he
    obtain hx | hx := List.mem_append.mp hx
    · have hlt := (List.pairwise_cons.mp hpost).1 x hx
      omega
    · have hlt := hcross x hx f List.mem_cons_self
      omega
  cases hfind : (post ++ (pre ++ [f])).find? (fun a => decide (8 * n ≤ a.len)) with
  | some a =>
    obtain ⟨hfit,w,w',hw,hsmall⟩ := List.find?_eq_some_iff_append.mp hfind
    have hfit : 8 * n ≤ a.len := of_decide_eq_true hfit
    have hsub : ∀ x ∈ w, x ∈ post ++ pre := by
      intro x hx
      rw [← List.append_assoc] at hw
      obtain rfl | ⟨u,y,rfl⟩ := List.eq_nil_or_concat' w'
      · obtain ⟨hw,-⟩ := List.append_inj' hw rfl
        exact hw ▸ hx
      · rw [← List.cons_append, ← List.append_assoc] at hw
        obtain ⟨hw,-⟩ := List.append_inj' hw rfl
        exact hw ▸ List.mem_append_left _ hx
    have hal : a ∈ l := by
      cases hmem (hw ▸ List.mem_append_right _ List.mem_cons_self) with
      | head =>
        dsimp only at hfit
        omega
      | tail _ ha => exact ha
    have hwlen : w.length ≤ l.length := by
      have hlen' := congrArg List.length hw
      rw [List.length_append, List.length_append, List.length_append, List.length_cons, List.length_cons,
        List.length_nil] at hlen'
      omega
    rw [hw] at hlinked hfirst
    refine .inl ⟨a,hal,hfit,?_⟩
    obtain ⟨q,hq,hptrq,hrun⟩ := findBlock_found (g := g) hlinked (hptr.trans hfirst.symm)
      (fun x hx => ⟨not_le.mp (of_decide_eq_false (by simpa using hsmall x hx)),hne x (hsub x hx)⟩) hfit
    have hqmem : ∃ y ∈ (⟨base,0⟩ :: l : List Extent), q = y.addr := by
      obtain rfl | ⟨x,hx,rfl⟩ := hq
      · exact ⟨f,hf,hfp.symm⟩
      · exact ⟨x,hmem (hw ▸ List.mem_append_left _ hx),rfl⟩
    obtain ⟨y,hy,rfl⟩ := hqmem
    obtain ⟨c,d,hcd⟩ := h.adjacent hy hal hptrq
    refine ⟨c,y,d,hcd,fun fuel hfuel => ?_⟩
    obtain ⟨k,rfl⟩ := Nat.exists_eq_add_of_le (show w.length + 1 ≤ fuel by omega)
    have hrun := hrun k
    rwa [hfirst, ← hptr] at hrun
  | none =>
    have hsmall := List.find?_eq_none.mp hfind
    have hsmall : ∀ x ∈ post ++ (pre ++ [f]), x.len < 8 * n :=
      fun x hx => not_le.mp fun hx' => hsmall x hx (decide_eq_true hx')
    refine .inr ⟨fun a ha => hsmall a (hmem' ha),fun fuel => ?_⟩
    rw [← List.append_assoc] at hlinked hfirst hsmall
    have hrun := findBlock_none (g := g) fuel s.freep hlinked hsmall hne hfp
    rwa [hfirst, ← hptr, List.length_append, hlen] at hrun

end Search

section Take
variable {q : Extent}

/-- The free blocks after the end of one of them is cut off. -/
theorem cut_list (hlist : ⟨base,0⟩ :: l = pre ++ q :: a :: post) : a ∈ l ∧ ∃ l',
    ⟨base,0⟩ :: l' = pre ++ q :: (cut a n ++ post) ∧ ∀ x ∈ l', x ∈ l ∨ x ∈ cut a n := by
  cases pre with
  | nil =>
    obtain ⟨rfl,rfl⟩ := List.cons.inj hlist
    exact ⟨List.mem_cons_self,cut a n ++ post,rfl,
      fun x hx => (List.mem_append.mp hx).symm.imp_left (List.mem_cons_of_mem _)⟩
  | cons c pre =>
    obtain ⟨rfl,rfl⟩ := List.cons.inj hlist
    refine ⟨List.mem_append_right _ (List.mem_cons_of_mem _ List.mem_cons_self),pre ++ q :: (cut a n ++ post),rfl,
      fun x hx => ?_⟩
    obtain hx | hx := List.mem_append.mp hx
    · exact .inl (List.mem_append_left _ hx)
    · obtain rfl | hx := List.mem_cons.mp hx
      · exact .inl (List.mem_append_right _ List.mem_cons_self)
      · obtain hx | hx := List.mem_append.mp hx
        · exact .inr hx
        · exact .inl (List.mem_append_right _ (List.mem_cons_of_mem _ (List.mem_cons_of_mem _ hx)))

/-- The links and the new header when the end of a free block is cut off. -/
theorem take_spec (hl : Linked s.mem base (pre ++ q :: a :: post)) (hn : 0 < n) (hfit : 8 * n ≤ a.len)
    (hord : (pre ++ q :: a :: post).Pairwise fun a b => a.addr + 8 ≤ b.addr)
    (hbound : ∀ x ∈ pre ++ q :: a :: post, x.addr + 8 ≤ 2 ^ 32) (ha : a.addr + a.len ≤ KERNBASE)
    (hpost : ∀ x ∈ post, a.addr + a.len ≤ x.addr) :
    ∃ m, take n q.addr a.addr s = ((a.tail (8 * n)).addr + 8,{ s with mem := m, freep := q.addr }) ∧
      Linked m base (pre ++ q :: (cut a (8 * n) ++ post)) ∧ 8 * size m (a.tail (8 * n)).addr = 8 * n ∧
      ∀ x, ¬ (q.addr ≤ x ∧ x < q.addr + 8) → x ∉ a.bytes → m x = s.mem x := by
  obtain ⟨hpre,hord',hcross⟩ := List.pairwise_append.mp hord
  obtain ⟨hq,hord'⟩ := List.pairwise_cons.mp hord'
  obtain ⟨hqa,hqpost⟩ := List.forall_mem_cons.mp hq
  obtain ⟨hlpre,hptrq,hsizeq,hptra,hsizea,hlpost⟩ := linked_append.mp hl
  have hbq : q.addr + 8 ≤ 2 ^ 32 := hbound q (List.mem_append_right _ List.mem_cons_self)
  have hbpre : ∀ x ∈ pre, x.addr + 8 ≤ 2 ^ 32 := fun x hx => hbound x (List.mem_append_left _ hx)
  have hbpost : ∀ x ∈ post, x.addr + 8 ≤ 2 ^ 32 := fun x hx =>
    hbound x (List.mem_append_right _ (List.mem_cons_of_mem _ (List.mem_cons_of_mem _ hx)))
  unfold KERNBASE at ha
  unfold take
  by_cases hall : a.len = 8 * n
  · have hsize : size s.mem a.addr = n := by omega
    have htail : (a.tail (8 * n)).addr = a.addr := by
      rw [Extent.tail, hall, Nat.sub_self]
      rfl
    have hc := setPtr_changedIn s.mem q.addr (ptr s.mem a.addr)
    refine ⟨_,by rw [if_pos hsize, htail, word_of_lt (by omega)],?_,?_,fun x hx _ => hc x hx⟩
    · rw [cut, if_pos hall, List.nil_append]
      refine linked_append.mpr ⟨hlpre.changed hbpre hc fun x hx => .inr (hcross x hx q List.mem_cons_self),?_,?_,?_⟩
      · exact (ptr_setPtr (load32_lt ..)).trans hptra
      · rw [size_setPtr hbq, hsizeq]
      · exact hlpost.changed hbpost hc fun x hx => .inl (hqpost x hx)
    · rw [htail, size_congr (by omega) (hc.sameOn (.inl hqa)), hsize]
  · have hsize : size s.mem a.addr ≠ n := by omega
    have ha8 : a.addr + 8 ≤ 2 ^ 32 := by omega
    -- first the size of what is left, then the new header behind it
    generalize hm : setSize s.mem a.addr (size s.mem a.addr - n) = m₁
    have hc₁ : ChangedIn s.mem m₁ a.addr 8 := hm ▸ setSize_changedIn s.mem _ ha8
    have hsize₁ : size m₁ a.addr = size s.mem a.addr - n := hm ▸ size_setSize (by omega)
    have hptr₁ : ptr m₁ a.addr = ptr s.mem a.addr := hm ▸ ptr_setSize ha8
    have htail : word (a.addr + 8 * size m₁ a.addr) = (a.tail (8 * n)).addr := by
      rw [hsize₁, Nat.mul_sub, hsizea]
      exact word_of_lt (by omega)
    have hle : a.addr + 8 ≤ (a.tail (8 * n)).addr ∧ (a.tail (8 * n)).addr + 8 * n = a.addr + a.len := by
      rw [Extent.tail]
      dsimp only
      omega
    generalize (a.tail (8 * n)).addr = r at htail hle
    have hc₂ : ChangedIn m₁ (setSize m₁ r n) r 8 := setSize_changedIn m₁ _ (by omega)
    have hlinked {l : List Extent} {z : ℕ} (hl : Linked s.mem z l) (hlt : ∀ x ∈ l, x.addr + 8 ≤ 2 ^ 32)
        (h₁ : ∀ x ∈ l, Apart a.addr 8 x.addr 8) (h₂ : ∀ x ∈ l, Apart r 8 x.addr 8) : Linked (setSize m₁ r n) z l :=
      (hl.changed hlt hc₁ h₁).changed hlt hc₂ h₂
    refine ⟨setSize m₁ r n,?_,?_,by rw [size_setSize (by omega)],fun x _ hx => ?_⟩
    · rw [if_neg hsize]
      dsimp only
      rw [htail, word_of_lt (by omega)]
    · rw [cut, if_neg hall, List.cons_append, List.nil_append]
      have hcell : SameOn (setSize m₁ r n) m₁ a.addr 8 := hc₂.sameOn (.inr hle.1)
      have hqcell : SameOn (setSize m₁ r n) s.mem q.addr 8 := fun x h1 h2 =>
        (hc₂ x (by omega)).trans (hc₁ x (by omega))
      refine linked_append.mpr ⟨hlinked hlpre hbpre ?_ ?_,(ptr_congr hqcell).trans hptrq,
        by rw [size_congr hbq hqcell, hsizeq],?_,?_,hlinked hlpost hbpost ?_ ?_⟩
      · exact fun x hx => .inr (hcross x hx a (List.mem_cons_of_mem _ List.mem_cons_self))
      · intro x hx
        have hxa := hcross x hx a (List.mem_cons_of_mem _ List.mem_cons_self)
        exact .inr (by omega)
      · exact (ptr_congr hcell).trans (hptr₁.trans hptra)
      · dsimp only
        rw [size_congr ha8 hcell, hsize₁, Nat.mul_sub, hsizea]
      · exact fun x hx => .inl ((List.pairwise_cons.mp hord').1 x hx)
      · intro x hx
        have hxa := hpost x hx
        exact .inl (by omega)
    · have hxa : ¬ (a.addr ≤ x ∧ x < a.addr + a.len) := hx
      exact (hc₂ x (by omega)).trans (hc₁ x (by omega))

/-- A block is cut off the end of a free one, and the header before it is the new `freep`. -/
theorem FreeList.take (h : FreeList s.mem base l) (hlist : ⟨base,0⟩ :: l = pre ++ q :: a :: post) (hn : 0 < n)
    (hfit : 8 * n ≤ a.len) : ∃ l' t, ⟨base,0⟩ :: l' = pre ++ q :: (cut a (8 * n) ++ post) ∧
      Umalloc.take n q.addr a.addr s = ((a.tail (8 * n)).addr + 8,t) ∧ FreeList t.mem base l' ∧
      t.freep ∈ heads base l' ∧ t.sz = s.sz ∧ Block t.mem base (a.tail (8 * n)) ∧
      (∀ x ∈ l', (x ∈ l ∨ x ∈ cut a (8 * n)) ∧ x.Apart (a.tail (8 * n))) ∧
      cover l = cover l' ∪ (a.tail (8 * n)).bytes ∧ ∀ x, x ∉ own base l → t.mem x = s.mem x := by
  obtain ⟨hal,l',hl',hsub⟩ := cut_list (n := 8 * n) hlist
  have hroom := h.room a hal
  have hord := h.order
  have hsep := h.separated
  have hlinked := h.linked
  have hbound := h.bound
  have hq : q ∈ (⟨base,0⟩ :: l : List Extent) := hlist ▸ List.mem_append_right _ List.mem_cons_self
  rw [hlist] at hord hsep hlinked hbound
  have hpost : ∀ x ∈ post, a.addr + a.len ≤ x.addr := fun x hx =>
    ((List.pairwise_cons.mp (List.pairwise_cons.mp (List.pairwise_append.mp hsep).2.1).2).1 x hx).le
  have hbefore : ∀ x ∈ pre ++ [q], x.addr + x.len < a.addr := by
    rw [List.append_cons] at hsep
    exact fun x hx => (List.pairwise_append.mp hsep).2.2 x hx a List.mem_cons_self
  have hapart : ∀ x ∈ l', x.Apart (a.tail (8 * n)) := by
    intro x hx
    have hx : x ∈ pre ++ q :: (cut a (8 * n) ++ post) := hl' ▸ List.mem_cons_of_mem _ hx
    rw [List.append_cons] at hx
    unfold Extent.Apart Extent.tail
    dsimp only
    obtain hx | hx := List.mem_append.mp hx
    · have hxa := hbefore x hx
      omega
    · obtain hx | hx := List.mem_append.mp hx
      · exact cut_forall (P := fun x => x.addr + x.len ≤ _ ∨ _ ≤ x.addr) (fun _ => .inl le_rfl) hfit x hx
      · have hxa := hpost x hx
        omega
  have hcover : cover l = cover l' ∪ (a.tail (8 * n)).bytes := by
    have h1 := congrArg cover hlist
    have h2 := congrArg cover hl'
    have hnil : Extent.bytes ⟨base,0⟩ = ∅ := Set.Ico_self base
    rw [cover_cons, hnil, Set.empty_union, cover_append, cover_cons, cover_cons, bytes_tail hfit] at h1
    rw [cover_cons, hnil, Set.empty_union, cover_append, cover_cons, cover_append] at h2
    rw [h1, h2]
    ext x
    simp only [Set.mem_union]
    tauto
  obtain ⟨m,hrun,hlinked',hsize,hsame⟩ := take_spec hlinked hn hfit hord hbound hroom.2.2 hpost
  refine ⟨l',_,hl',hrun,⟨hl' ▸ hlinked',?_,fun x hx => ?_,h.low⟩,?_,rfl,⟨hsize,?_⟩,
    fun x hx => ⟨hsub x hx,hapart x hx⟩,hcover,fun x hx => ?_⟩
  · rw [hl']
    rw [List.append_cons] at hsep ⊢
    exact hsep.cut
  · obtain hx | hx := hsub x hx
    · exact h.room x hx
    · refine cut_forall (P := fun x => base + 8 ≤ x.addr ∧ 8 ≤ x.len ∧ x.addr + x.len ≤ KERNBASE)
        (fun hlt => ?_) hfit x hx
      have hsizea := h.linked.mem (List.mem_cons_of_mem _ hal)
      dsimp only
      omega
  · rw [heads, hl', List.map_append]
    exact List.mem_append_right _ List.mem_cons_self
  · rw [Extent.tail]
    dsimp only
    omega
  · exact hsame x (fun hxq => hx (mem_own h hq hxq)) fun hxa => hx (.inr ⟨a,hal,hxa⟩)

end Take

end X86OsDev.Xv6.Umalloc
