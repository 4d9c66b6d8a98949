import Mathlib.Data.List.Nodup

/-! # Turns around a list that grows

A position moves around a list, from the end back to the start, while new items
are put behind the last. Between two turns of an item each item that was there
at the first of them gets one turn.
-/
namespace X86OsDev.RoundRobin

/-- The items and the position of the one whose turn it is. -/
structure Rotor (α : Type*) where
  items : List α
  pos : ℕ

variable {α : Type*} {r r' : Rotor α} {a b x : α} {ts : List α}

namespace Rotor

def cur (r : Rotor α) : Option α := r.items[r.pos]?

def push (r : Rotor α) (x : α) : Rotor α := ⟨r.items ++ [x],r.pos⟩

def advance (r : Rotor α) : Rotor α := ⟨r.items,(r.pos + 1) % r.items.length⟩

/-- No item is in the list twice, and the position is one of the list. -/
structure Ok (r : Rotor α) : Prop where
  nodup : r.items.Nodup
  pos_lt : r.pos < r.items.length

theorem Ok.push (h : r.Ok) (hx : x ∉ r.items) : (r.push x).Ok := by
  refine ⟨List.nodup_append.mpr ⟨h.nodup,List.nodup_singleton _,?_⟩,?_⟩
  · rintro a ha b hb rfl
    exact hx (List.mem_singleton.mp hb ▸ ha)
  · have := h.pos_lt
    simp only [Rotor.push, List.length_append, List.length_singleton]
    omega

theorem Ok.advance (h : r.Ok) : r.advance.Ok :=
  ⟨h.nodup,Nat.mod_lt _ (Nat.zero_lt_of_lt h.pos_lt)⟩

end Rotor

/-- A run with the items that got a turn on the way. -/
inductive Turns (r : Rotor α) : List α → Rotor α → Prop
  | refl : Turns r [] r
  | push {ts : List α} {r' : Rotor α} {x : α} (h : Turns r ts r') (hx : x ∉ r'.items) : Turns r ts (r'.push x)
  | advance {ts : List α} {r' : Rotor α} {x : α} (h : Turns r ts r') (hx : r'.advance.cur = some x) :
    Turns r (ts ++ [x]) r'.advance

/-- The turns since that of the item at `p`: those of the items behind it, and, once the position has
gone around, of those in front. `w` is the list at the time it went around. -/
inductive Since (r r' : Rotor α) (ts : List α) : Prop
  | ahead (hpos : r.pos ≤ r'.pos) (hts : ts = (r'.items.take (r'.pos + 1)).drop (r.pos + 1))
  | around (hpos : r'.pos < r.pos) (w : List α) (hw : r.items <+: w) (hw' : w <+: r'.items)
    (hts : ts = w.drop (r.pos + 1) ++ r'.items.take (r'.pos + 1))

theorem Turns.items_le (h : Turns r ts r') : r.items <+: r'.items := by
  induction h with
  | refl => exact List.prefix_rfl
  | push _ _ ih => exact ih.trans (List.prefix_append _ _)
  | advance _ _ ih => exact ih

theorem Turns.ok (hr : r.Ok) (h : Turns r ts r') : r'.Ok := by
  induction h with
  | refl => exact hr
  | push _ hx ih => exact ih.push hx
  | advance _ _ ih => exact ih.advance

theorem take_push {l : List α} {n : ℕ} (h : n < l.length) : (l ++ [x]).take (n + 1) = l.take (n + 1) :=
  List.take_append_of_le_length h

theorem Since.push (hr' : r'.Ok) (h : Since r r' ts) : Since r (r'.push x) ts := by
  have htake : (r'.push x).items.take ((r'.push x).pos + 1) = r'.items.take (r'.pos + 1) := take_push hr'.pos_lt
  cases h with
  | ahead hpos hts => exact .ahead hpos (by rw [htake]; exact hts)
  | around hpos w hw hw' hts =>
    exact .around hpos w hw (hw'.trans (List.prefix_append _ _)) (by rw [htake]; exact hts)

/-- The item of the position after the next turn. -/
theorem take_succ_of_cur {l : List α} {n : ℕ} (h : l[n]? = some x) : l.take (n + 1) = l.take n ++ [x] := by
  rw [List.take_add_one, h]
  rfl

theorem Since.advance (hr : r.Ok) (hr' : r'.Ok) (hle : r.items <+: r'.items) (h : Since r r' ts)
    (hx : r'.advance.cur = some x) (hne : r.cur ≠ some x) : Since r r'.advance (ts ++ [x]) := by
  have hlt := hr'.pos_lt
  have hlen := hle.length_le
  have hcur : r'.items[(r'.pos + 1) % r'.items.length]? = some x := hx
  -- the item that has the turn is not the one it started with
  have hpos : r'.advance.pos ≠ r.pos := by
    intro hc
    have hget : r.items[r.pos]? = r'.items[r.pos]? := (List.prefix_iff_getElem?.mp hle _ hr.pos_lt).symm ▸ by
      rw [List.getElem?_eq_getElem hr.pos_lt]
    refine hne ?_
    unfold Rotor.cur
    rw [hget, ← hc]
    exact hx
  have hp : r.pos < r.items.length := hr.pos_lt
  by_cases hwrap : r'.pos + 1 < r'.items.length
  · rw [Nat.mod_eq_of_lt hwrap] at hcur
    have hadv : r'.advance.pos = r'.pos + 1 := Nat.mod_eq_of_lt hwrap
    cases h with
    | ahead hpos' hts =>
      refine .ahead (by omega) ?_
      rw [hadv, show r'.advance.items = r'.items from rfl, take_succ_of_cur hcur, hts, List.drop_append_of_le_length]
      rw [List.length_take]
      omega
    | around hpos' w hw hw' hts =>
      refine .around (by omega) w hw hw' ?_
      rw [hadv, show r'.advance.items = r'.items from rfl, take_succ_of_cur hcur, hts, List.append_assoc]
  · have hend : r'.pos + 1 = r'.items.length := by omega
    have hadv : r'.advance.pos = 0 := by
      unfold Rotor.advance
      dsimp only
      rw [hend, Nat.mod_self]
    rw [hend, Nat.mod_self] at hcur
    cases h with
    | ahead hpos' hts =>
      refine .around (by omega) r'.items hle List.prefix_rfl ?_
      rw [hadv, show r'.advance.items = r'.items from rfl, take_succ_of_cur hcur, hts, hend, List.take_length]
      rfl
    | around hpos' w hw hw' hts => omega

/-- As long as the first item does not get its turn again, the turns are the ones since. -/
theorem Turns.since (hr : r.Ok) (h : Turns r ts r') (ha : r.cur = some a) (hts : a ∉ ts) : Since r r' ts := by
  induction h with
  | refl =>
    refine .ahead (Nat.le_refl _) ?_
    rw [List.drop_eq_nil_of_le]
    rw [List.length_take]
    omega
  | push h _ ih => exact (ih hts).push (h.ok hr)
  | @advance ts r' x h hx ih =>
    have hne : a ≠ x := fun hc => hts (by simp [hc])
    refine (ih fun hc => hts (List.mem_append_left _ hc)).advance hr (h.ok hr) h.items_le hx ?_
    rw [ha]
    intro hc
    cases hc
    exact hne rfl

/-- The step that gave the last turn. -/
theorem Turns.last {us : List α} (h : Turns r us r') (hus : us = ts ++ [a]) :
    ∃ r1, Turns r ts r1 ∧ r1.advance.cur = some a := by
  induction h with
  | refl => simp at hus
  | push _ _ ih => exact ih hus
  | @advance us r1 x h hx _ =>
    obtain ⟨rfl,hxa⟩ := List.append_inj' hus rfl
    cases hxa
    exact ⟨r1,h,hx⟩

theorem getElem?_of_isPre {l l' : List α} {n : ℕ} (h : l <+: l') (hn : n < l.length) : l'[n]? = l[n]? := by
  obtain ⟨l'',rfl⟩ := h
  rw [List.getElem?_append_left hn]

/-- The items of a list from one position around to it, each once. -/
theorem count_around [DecidableEq α] {w : List α} {n : ℕ} (hw : w.Nodup) (hn : w[n]? = some a) (hb : b ∈ w) :
    (w.drop (n + 1) ++ w.take n ++ [a]).count b = 1 := by
  have hsplit : w = w.take n ++ (a :: w.drop (n + 1)) := by
    conv_lhs => rw [← List.take_append_drop (n + 1) w, take_succ_of_cur hn]
    rw [List.append_assoc]
    rfl
  have hone := List.count_eq_one_of_mem hw hb
  rw [hsplit, List.count_append, List.count_cons] at hone
  rw [List.count_append, List.count_append, List.count_singleton]
  omega

/-- Between two turns of an item each item that was there at the first of them gets one turn. -/
theorem Turns.count [DecidableEq α] (hr : r.Ok) (h : Turns r (ts ++ [a]) r') (ha : r.cur = some a) (hts : a ∉ ts)
    (hb : b ∈ r.items) : (ts ++ [a]).count b = 1 := by
  obtain ⟨r1,h1,hcur⟩ := h.last rfl
  have hok := h1.ok hr
  have hle := h1.items_le
  have hp := hr.pos_lt
  have hlen := hle.length_le
  have hlt := hok.pos_lt
  have hget : r1.items[r.pos]? = some a := (getElem?_of_isPre hle hp).trans ha
  have hmod : (r1.pos + 1) % r1.items.length = r.pos := by
    have hcur' : r1.items[(r1.pos + 1) % r1.items.length]? = some a := hcur
    exact (List.getElem?_inj (Nat.mod_lt _ (by omega)) hok.nodup).mp (hcur'.trans hget.symm)
  cases h1.since hr ha hts with
  | ahead hpos hts' =>
    -- the position has come to the end, and the item is the first
    have hend : r1.pos + 1 = r1.items.length := by
      by_contra hc
      rw [Nat.mod_eq_of_lt (by omega)] at hmod
      omega
    rw [hend, Nat.mod_self] at hmod
    have hround := count_around hok.nodup hget (hle.subset hb)
    rw [hend, List.take_length] at hts'
    rw [hts']
    rw [← hmod] at hround ⊢
    simpa using hround
  | around hpos w hw hw' hts' =>
    rw [Nat.mod_eq_of_lt (by omega)] at hmod
    have hpw : r.pos < w.length := Nat.lt_of_lt_of_le hp hw.length_le
    have htake : r1.items.take r.pos = w.take r.pos := by
      obtain ⟨l,hl⟩ := hw'
      rw [← hl, List.take_append_of_le_length (by omega)]
    rw [hts', hmod, htake]
    refine count_around (hw'.sublist.nodup hok.nodup) ?_ (hw.subset hb)
    rw [← getElem?_of_isPre hw' hpw]
    exact hget

end X86OsDev.RoundRobin
