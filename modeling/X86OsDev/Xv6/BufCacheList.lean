import X86OsDev.Xv6.BufCache
import Mathlib.Data.List.FinRange
import Mathlib.Tactic.Common

/-! # The list of buffers

`binit` links all buffers into a ring, `brelse` moves one to the front, and the
searches of `bget` see every buffer.
-/
namespace X86OsDev.Xv6.BufCache
open CircularList

variable {b : Fin nbuf}

/-- The links are a ring of all buffers. -/
def Linked (l : Links) : Prop :=
  ∃ m : List (Fin nbuf), IsRing l.next l.prev none (m.map some) ∧ ∀ b, b ∈ m

theorem linkFront_ring {l : Links} {m : List (Fin nbuf)} (h : IsRing l.next l.prev none (m.map some))
    (hb : b ∉ m) : IsRing (l.linkFront (some b)).next (l.linkFront (some b)).prev none
      ((b :: m).map some) := by
  have hne : (none : Node) ≠ some b := fun he => by cases he
  have hb' : some b ∉ none :: m.map some := by simpa using hb
  have hr := h.insert hb'
  unfold Links.linkFront
  simp only
  rw [Function.update_of_ne hne]
  exact hr

theorem unlink_ring {l : Links} {m₁ m₂ : List (Fin nbuf)}
    (h : IsRing l.next l.prev none ((m₁ ++ b :: m₂).map some)) :
    IsRing (l.unlink (some b)).next (l.unlink (some b)).prev none ((m₁ ++ m₂).map some) := by
  rw [List.map_append, List.map_cons] at h
  have hne : some b ≠ l.next (some b) := by
    have hn := (seg_append.mp h.seg).2.next_mem
    intro he
    rw [← he] at hn
    have hnd := (List.nodup_cons.mp h.nodup).2
    have hb := (List.nodup_cons.mp (List.nodup_append.mp hnd).2.1).1
    rcases List.mem_append.mp hn with hm | hm
    · exact hb hm
    · cases List.mem_singleton.mp hm
  have hr := h.unlink
  unfold Links.unlink
  simp only
  rw [Function.update_of_ne hne, List.map_append]
  exact hr

theorem IsRing.nodup_of_map {l : Links} {m : List (Fin nbuf)}
    (h : IsRing l.next l.prev none (m.map some)) : m.Nodup :=
  (List.nodup_cons.mp h.nodup).2.of_map some

/-- The end of `brelse` keeps the list. -/
theorem Linked.moveFront {l : Links} (h : Linked l) (b : Fin nbuf) :
    Linked ((l.unlink (some b)).linkFront (some b)) := by
  obtain ⟨m,hr,hall⟩ := h
  obtain ⟨m₁,m₂,rfl⟩ := List.append_of_mem (hall b)
  have hnd := IsRing.nodup_of_map hr
  have hb : b ∉ m₁ ++ m₂ := by
    rw [List.nodup_middle] at hnd
    exact (List.nodup_cons.mp hnd).1
  refine ⟨b :: (m₁ ++ m₂),linkFront_ring (unlink_ring hr) hb,fun c => ?_⟩
  have := hall c
  simp only [List.mem_append, List.mem_cons] at this ⊢
  tauto

/-- `binit` puts all buffers on the list. -/
theorem binit_linked (l : Links) : Linked (binit l) := by
  have hloop : ∀ (bs : List (Fin nbuf)) (l : Links) m, IsRing l.next l.prev none (m.map some) →
      (m.reverse ++ bs).Nodup → IsRing (bs.foldl (fun l b => l.linkFront (some b)) l).next
        (bs.foldl (fun l b => l.linkFront (some b)) l).prev none ((bs.reverse ++ m).map some) := by
    intro bs
    induction bs with
    | nil => exact fun l m hr _ => hr
    | cons b bs ih =>
      intro l m hr hnd
      have hb : b ∉ m := by
        intro hm
        exact (List.nodup_append.mp hnd).2.2 b (List.mem_reverse.mpr hm) b List.mem_cons_self rfl
      have := ih (l.linkFront (some b)) (b :: m) (linkFront_ring hr hb) (by simpa using hnd)
      simpa using this
  have hempty : IsRing (Function.update l.next none none) (Function.update l.prev none none) none
      (([] : List (Fin nbuf)).map some) :=
    ⟨⟨Function.update_self ..,Function.update_self ..⟩,List.nodup_singleton _⟩
  refine ⟨_,hloop (List.finRange nbuf) _ [] hempty ?_,fun b => ?_⟩
  · simpa using List.nodup_finRange nbuf
  · simp

theorem Linked.perm {l : Links} {m : List (Fin nbuf)} (hr : IsRing l.next l.prev none (m.map some))
    (hall : ∀ b, b ∈ m) : m.Perm (List.finRange nbuf) :=
  (List.perm_ext_iff_of_nodup (IsRing.nodup_of_map hr) (List.nodup_finRange nbuf)).mpr
    fun b => ⟨fun _ => List.mem_finRange b,fun _ => hall b⟩

theorem Linked.isList {l : Links} (h : Linked l) : l.IsList := by
  obtain ⟨m,hr,hall⟩ := h
  have hperm := Linked.perm hr hall
  have hlen : (m.map some).length = nbuf := by
    rw [List.length_map, hperm.length_eq, List.length_finRange]
  obtain ⟨hvisits,hret⟩ := hr.seg.iterate
  rw [hlen] at hvisits hret
  have hmem : ∀ a : Node, a ∈ none :: m.map some := by
    intro a
    cases a with
    | none => exact List.mem_cons_self
    | some b => exact List.mem_cons_of_mem _ (List.mem_map.mpr ⟨b,hall b,rfl⟩)
  refine ⟨?_,hret,fun a => hr.prev_next (hmem a),fun a => hr.next_prev (hmem a)⟩
  rw [hvisits]
  exact hperm.map some

/-- A search along `next` or `prev` ends, and finds a buffer if there is one. -/
theorem Linked.scan_next {l : Links} (h : Linked l) (p : Node → Bool) :
    ∃ r, scan l.next none p (nbuf + 1) (l.next none) = some r ∧
      match r with
      | some a => ∃ b, a = some b ∧ p a = true
      | none => ∀ b : Fin nbuf, p (some b) = false := by
  obtain ⟨m,hr,hall⟩ := h
  have hlen : (m.map some).length < nbuf + 1 := by
    rw [List.length_map, (Linked.perm hr hall).length_eq, List.length_finRange]
    exact Nat.lt_succ_self _
  refine ⟨_,hr.seg.scan_eq p (List.nodup_cons.mp hr.nodup).1 hlen,?_⟩
  cases hf : (m.map some).find? p with
  | some a =>
    obtain ⟨b,-,rfl⟩ := List.mem_map.mp (List.mem_of_find?_eq_some hf)
    exact ⟨b,rfl,List.find?_some hf⟩
  | none =>
    intro b
    have := List.find?_eq_none.mp hf (some b) (List.mem_map.mpr ⟨b,hall b,rfl⟩)
    simpa using this

theorem Linked.reverse {l : Links} (h : Linked l) : Linked ⟨l.prev,l.next⟩ := by
  obtain ⟨m,hr,hall⟩ := h
  refine ⟨m.reverse,?_,fun b => List.mem_reverse.mpr (hall b)⟩
  rw [List.map_reverse]
  exact hr.reverse

end X86OsDev.Xv6.BufCache
