import Mathlib.Data.Set.Lattice
import Mathlib.Order.CompletePartialOrder
import Mathlib.Order.Interval.Set.LinearOrder
import Mathlib.Tactic.Common

/-! # Extents in the order of their addresses

A list of extents with gaps between them. An extent that is put in is merged with the
neighbours it touches, and one that is taken out is cut from the end of another. The bytes are
those of before, with the extent put in or taken out.
-/
namespace X86OsDev.Extents

structure Extent where
  addr : ℕ
  len : ℕ
  deriving DecidableEq

namespace Extent

def bytes (a : Extent) : Set ℕ := Set.Ico a.addr (a.addr + a.len)

/-- The extent from the start of one to the end of another that it touches. -/
def merge (a b : Extent) : Extent := ⟨a.addr,a.len + b.len⟩

def Apart (a b : Extent) : Prop := a.addr + a.len ≤ b.addr ∨ b.addr + b.len ≤ a.addr

/-- The last `n` bytes. -/
def tail (a : Extent) (n : ℕ) : Extent := ⟨a.addr + (a.len - n),n⟩

end Extent

variable {a b x : Extent} {l pre post : List Extent} {n : ℕ}

def cover (l : List Extent) : Set ℕ := {x | ∃ a ∈ l, x ∈ a.bytes}

/-- In order, and no two touch. -/
def Separated (l : List Extent) : Prop := l.Pairwise fun a b => a.addr + a.len < b.addr

/-- An extent before a list, merged with the first one of the list if it touches that. -/
def attach (b : Extent) : List Extent → List Extent
  | [] => [b]
  | q :: l => if b.addr + b.len = q.addr then b.merge q :: l else b :: q :: l

/-- An extent is put into its place, and merged with its neighbours. -/
def place (b : Extent) : List Extent → List Extent
  | [] => [b]
  | a :: l => if b.addr < a.addr then attach b (a :: l)
    else if a.addr + a.len = b.addr then attach (a.merge b) l
    else a :: place b l

/-- What is left when the last `n` bytes are cut off. -/
def cut (a : Extent) (n : ℕ) : List Extent := if a.len = n then [] else [⟨a.addr,a.len - n⟩]

section Cover

@[simp] theorem cover_nil : cover [] = ∅ := by simp [cover]

@[simp] theorem cover_cons : cover (a :: l) = a.bytes ∪ cover l := by
  ext x
  simp [cover]

@[simp] theorem cover_append : cover (pre ++ post) = cover pre ∪ cover post := by
  ext x
  simp [cover, or_and_right, exists_or]

theorem cover_perm (h : pre.Perm post) : cover pre = cover post := by
  ext x
  simp [cover, h.mem_iff]

theorem mem_bytes {i : ℕ} : i ∈ a.bytes ↔ a.addr ≤ i ∧ i < a.addr + a.len := Iff.rfl

theorem bytes_merge (h : a.addr + a.len = b.addr) : (a.merge b).bytes = a.bytes ∪ b.bytes := by
  ext i
  rw [Set.mem_union, mem_bytes, mem_bytes, mem_bytes, Extent.merge]
  dsimp only
  omega

theorem cover_attach : cover (attach b l) = b.bytes ∪ cover l := by
  cases l with
  | nil => rw [attach, cover_cons]
  | cons q l =>
    rw [attach]
    split_ifs with h
    · rw [cover_cons, cover_cons, bytes_merge h, Set.union_assoc]
    · rw [cover_cons]

theorem cover_place : cover (place b l) = b.bytes ∪ cover l := by
  induction l with
  | nil => rw [place, cover_cons]
  | cons a l ih =>
    rw [place]
    split_ifs with h h'
    · exact cover_attach
    · rw [cover_attach, bytes_merge h', cover_cons, Set.union_assoc, Set.union_left_comm]
    · rw [cover_cons, ih, cover_cons, Set.union_left_comm]

theorem bytes_tail (h : n ≤ a.len) : a.bytes = cover (cut a n) ∪ (a.tail n).bytes := by
  unfold cut
  split_ifs with he
  · rw [cover_nil, Set.empty_union, Extent.tail, he, Nat.sub_self, ← he]
    rfl
  · ext i
    rw [cover_cons, cover_nil, Set.union_empty, Set.mem_union, mem_bytes, mem_bytes, mem_bytes, Extent.tail]
    dsimp only
    omega

end Cover

section Rules
variable {P : Extent → Prop}

/-- What is kept by merging holds of the list after an extent is put in. -/
theorem attach_forall (hm : ∀ a b, P a → P b → a.addr + a.len = b.addr → P (a.merge b)) (hb : P b)
    (hl : ∀ a ∈ l, P a) : ∀ a ∈ attach b l, P a := by
  cases l with
  | nil => exact fun a ha => List.mem_singleton.mp ha ▸ hb
  | cons q l =>
    obtain ⟨hq,hl⟩ := List.forall_mem_cons.mp hl
    rw [attach]
    split_ifs with h
    · exact List.forall_mem_cons.mpr ⟨hm b q hb hq h,hl⟩
    · exact List.forall_mem_cons.mpr ⟨hb,List.forall_mem_cons.mpr ⟨hq,hl⟩⟩

theorem place_forall (hm : ∀ a b, P a → P b → a.addr + a.len = b.addr → P (a.merge b)) (hb : P b)
    (hl : ∀ a ∈ l, P a) : ∀ a ∈ place b l, P a := by
  induction l with
  | nil => exact fun a ha => List.mem_singleton.mp ha ▸ hb
  | cons a l ih =>
    obtain ⟨ha,hl'⟩ := List.forall_mem_cons.mp hl
    rw [place]
    split_ifs with h h'
    · exact attach_forall hm hb hl
    · exact attach_forall hm (hm a b ha hb h') hl'
    · exact List.forall_mem_cons.mpr ⟨ha,ih hl'⟩

theorem Separated.attach (h : Separated l) (hb : ∀ a ∈ l, b.addr + b.len ≤ a.addr) : Separated (attach b l) := by
  cases l with
  | nil => exact List.pairwise_singleton ..
  | cons q l =>
    obtain ⟨hq,hl⟩ := List.pairwise_cons.mp h
    have hbq := hb q List.mem_cons_self
    rw [Extents.attach]
    split_ifs with he
    · refine List.pairwise_cons.mpr ⟨fun a ha => ?_,hl⟩
      have hqa := hq a ha
      change b.addr + (b.len + q.len) < a.addr
      omega
    · refine List.pairwise_cons.mpr ⟨List.forall_mem_cons.mpr ⟨by omega,fun a ha => ?_⟩,h⟩
      have hqa := hq a ha
      omega

/-- The list stays in order and without extents that touch. -/
theorem Separated.place (h : Separated l) (hpos : 0 < b.len) (hb : ∀ a ∈ l, a.Apart b) : Separated (place b l) := by
  induction l with
  | nil => exact List.pairwise_singleton ..
  | cons a l ih =>
    obtain ⟨ha,hl⟩ := List.pairwise_cons.mp h
    obtain ⟨hab,hb'⟩ := List.forall_mem_cons.mp hb
    unfold Extent.Apart at hab hb'
    rw [Extents.place]
    split_ifs with hlt he
    · refine h.attach (List.forall_mem_cons.mpr ⟨by omega,fun x hx => ?_⟩)
      have hax := ha x hx
      omega
    · refine Separated.attach hl fun x hx => ?_
      have hax := ha x hx
      have hxb := hb' x hx
      change a.addr + (a.len + b.len) ≤ x.addr
      omega
    · refine List.pairwise_cons.mpr ⟨?_,ih hl hb'⟩
      -- each extent starts where one of before starts
      exact place_forall (P := fun x => a.addr + a.len < x.addr) (fun x _ hx _ _ => hx) (by omega) ha

/-- The place of an extent is behind the last one that starts before it. -/
theorem place_append (h : Separated (pre ++ a :: post)) (hab : a.addr + a.len ≤ b.addr)
    (hpost : ∀ x ∈ post, b.addr < x.addr) :
    place b (pre ++ a :: post) =
      pre ++ if a.addr + a.len = b.addr then attach (a.merge b) post else a :: attach b post := by
  induction pre with
  | nil =>
    rw [List.nil_append, List.nil_append, place, if_neg (by omega)]
    split_ifs with he
    · rfl
    · congr 1
      cases post with
      | nil => rfl
      | cons q post => rw [place, if_pos (hpost q List.mem_cons_self)]
  | cons c pre ih =>
    obtain ⟨hc,hl⟩ := List.pairwise_cons.mp h
    have hca := hc a (List.mem_append_right _ List.mem_cons_self)
    rw [List.cons_append, place, if_neg (by omega), if_neg (by omega), ih hl, List.cons_append]

/-- The extents before an extent that is put behind the first one, the last of them, and those behind it. -/
theorem Separated.split (h : Separated (a :: l)) (hpos : ∀ x ∈ l, 0 < x.len) (ha : a.addr < b.addr)
    (hlen : 0 < b.len) (hb : ∀ x ∈ a :: l, x.Apart b) : ∃ pre c post, a :: l = pre ++ c :: post ∧
      c.addr + c.len ≤ b.addr ∧ ∀ x ∈ post, b.addr + b.len ≤ x.addr := by
  induction l generalizing a with
  | nil =>
    have hab := hb a List.mem_cons_self
    unfold Extent.Apart at hab
    exact ⟨[],a,[],rfl,by omega,fun _ hx => by cases hx⟩
  | cons q l ih =>
    obtain ⟨haq,hl⟩ := List.pairwise_cons.mp h
    obtain ⟨hab,hb⟩ := List.forall_mem_cons.mp hb
    obtain ⟨hq0,hpos⟩ := List.forall_mem_cons.mp hpos
    by_cases hq : q.addr < b.addr
    · obtain ⟨pre,c,post,hlist,hc,hpost⟩ := ih hl hpos hq hb
      exact ⟨a :: pre,c,post,by rw [hlist, List.cons_append],hc,hpost⟩
    · have hqb := hb q List.mem_cons_self
      unfold Extent.Apart at hab hqb
      refine ⟨[],a,q :: l,rfl,by omega,List.forall_mem_cons.mpr ⟨by omega,fun x hx => ?_⟩⟩
      have hqx := (List.pairwise_cons.mp hl).1 x hx
      omega

/-- The first extent starts where it did, and another one before it makes no difference behind. -/
theorem attach_cons (b : Extent) (l : List Extent) : ∃ c t, attach b l = c :: t ∧ c.addr = b.addr ∧
    ∀ a : Extent, a.addr + a.len = b.addr → attach (a.merge b) l = a.merge c :: t := by
  cases l with
  | nil => exact ⟨b,[],rfl,rfl,fun _ _ => rfl⟩
  | cons q l =>
    have hstop (a : Extent) (ha : a.addr + a.len = b.addr) :
        (a.merge b).addr + (a.merge b).len = b.addr + b.len := by
      rw [← ha, Nat.add_assoc]
      rfl
    by_cases he : b.addr + b.len = q.addr
    · refine ⟨b.merge q,l,if_pos he,rfl,fun a ha => (if_pos ((hstop a ha).trans he)).trans ?_⟩
      rw [Extent.merge, Extent.merge, Extent.merge, Extent.merge, Nat.add_assoc]
    · exact ⟨b,q :: l,if_neg he,rfl,fun a ha => if_neg ((hstop a ha).trans_ne he)⟩

theorem attach_ge : ∃ a ∈ attach b l, b.len ≤ a.len := by
  cases l with
  | nil => exact ⟨b,List.mem_cons_self,le_rfl⟩
  | cons q l =>
    rw [attach]
    split_ifs
    · exact ⟨b.merge q,List.mem_cons_self,Nat.le_add_right _ _⟩
    · exact ⟨b,List.mem_cons_self,le_rfl⟩

/-- What is put in is in one extent. -/
theorem place_ge : ∃ a ∈ place b l, b.len ≤ a.len := by
  induction l with
  | nil => exact ⟨b,List.mem_cons_self,le_rfl⟩
  | cons a l ih =>
    rw [place]
    split_ifs
    · exact attach_ge
    · obtain ⟨c,hc,hle⟩ := attach_ge (b := a.merge b) (l := l)
      exact ⟨c,hc,(Nat.le_add_left _ _).trans hle⟩
    · obtain ⟨c,hc,hle⟩ := ih
      exact ⟨c,List.mem_cons_of_mem _ hc,hle⟩

/-- Bytes without a gap are in one extent. -/
theorem Separated.range (h : Separated l) {i k : ℕ} (hk : 0 < k) (hsub : Set.Ico i (i + k) ⊆ cover l) :
    ∃ a ∈ l, k ≤ a.len := by
  induction l with
  | nil =>
    obtain ⟨a,ha,-⟩ := hsub ⟨le_rfl,Nat.lt_add_of_pos_right hk⟩
    cases ha
  | cons a l ih =>
    obtain ⟨ha,hl⟩ := List.pairwise_cons.mp h
    have hin {j : ℕ} (hj : i ≤ j ∧ j < i + k) : j ∈ a.bytes ∨ ∃ b ∈ l, j ∈ b.bytes := by
      have hcov := hsub hj
      rwa [cover_cons] at hcov
    have hout {j : ℕ} (hj : ∃ b ∈ l, j ∈ b.bytes) : a.addr + a.len < j := by
      obtain ⟨b,hb,hjb⟩ := hj
      have hab := ha b hb
      rw [mem_bytes] at hjb
      omega
    by_cases hi : i ∈ a.bytes
    · rw [mem_bytes] at hi
      refine ⟨a,List.mem_cons_self,?_⟩
      by_contra hlt
      -- the byte behind the extent is in no other
      obtain hj | hj := hin (j := a.addr + a.len) ⟨by omega,by omega⟩
      · rw [mem_bytes] at hj
        omega
      · exact absurd (hout hj) (lt_irrefl _)
    · have hlt := hout ((hin ⟨le_rfl,Nat.lt_add_of_pos_right hk⟩).resolve_left hi)
      obtain ⟨b,hb,hle⟩ := ih hl fun j hj => (hin hj).resolve_left fun hja => by
        rw [mem_bytes] at hja
        rw [Set.mem_Ico] at hj
        omega
      exact ⟨b,List.mem_cons_of_mem _ hb,hle⟩

theorem cut_forall (hm : n < a.len → P ⟨a.addr,a.len - n⟩) (hn : n ≤ a.len) : ∀ x ∈ cut a n, P x := by
  unfold cut
  split_ifs with h
  · exact fun _ hx => by cases hx
  · exact fun x hx => List.mem_singleton.mp hx ▸ hm (by omega)

/-- The end is cut off an extent of the list. -/
theorem Separated.cut (h : Separated (pre ++ a :: post)) : Separated (pre ++ (cut a n ++ post)) := by
  obtain ⟨hpre,hpost,hcross⟩ := List.pairwise_append.mp h
  obtain ⟨ha,hpost⟩ := List.pairwise_cons.mp hpost
  unfold Extents.cut
  split_ifs
  · exact List.pairwise_append.mpr ⟨hpre,hpost,fun x hx y hy => hcross x hx y (List.mem_cons_of_mem _ hy)⟩
  · refine List.pairwise_append.mpr ⟨hpre,List.pairwise_cons.mpr ⟨fun x hx => ?_,hpost⟩,fun x hx => ?_⟩
    · have hax := ha x hx
      change a.addr + (a.len - n) < x.addr
      omega
    · exact List.forall_mem_cons.mpr ⟨hcross x hx a List.mem_cons_self,
        fun y hy => hcross x hx y (List.mem_cons_of_mem _ hy)⟩

theorem Extent.Apart.symm (h : a.Apart b) : b.Apart a := Or.symm h

instance : Std.Symm Extent.Apart := ⟨fun _ _ => .symm⟩

/-- Parts that are apart from an extent with bytes are so when they are merged. -/
theorem Extent.Apart.merge (ha : a.Apart x) (hb : b.Apart x) (he : a.addr + a.len = b.addr) (hx : 0 < x.len) :
    (a.merge b).Apart x := by
  unfold Extent.Apart Extent.merge at *
  dsimp only
  omega

theorem Extent.Apart.tail (h : a.Apart x) (hn : n ≤ a.len) : (a.tail n).Apart x := by
  unfold Extent.Apart Extent.tail at *
  dsimp only
  omega

theorem Extent.Apart.shorten (h : a.Apart x) : Extent.Apart ⟨a.addr,a.len - n⟩ x := by
  unfold Extent.Apart at *
  dsimp only
  omega

theorem Extent.Apart.disjoint (h : a.Apart b) : Disjoint a.bytes b.bytes := by
  refine Set.disjoint_left.mpr fun x hx hx' => ?_
  unfold Extent.Apart at h
  rw [mem_bytes] at hx hx'
  omega

end Rules

end X86OsDev.Extents
