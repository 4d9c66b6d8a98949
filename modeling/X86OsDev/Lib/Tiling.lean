import Mathlib.Data.List.Pairwise
import Mathlib.Order.Nat
import Mathlib.Tactic.Common

/-! # Ranges cut into consecutive tiles

A range of addresses is tiled by a list of tiles when each one starts where the
one before it ends. A tile is a hole or a block. The predicate on the single
tiles is a parameter; what it says about a memory is kept as long as the memory
of the tile is.
-/
namespace X86OsDev.Tiling

structure Tile where
  addr : ℕ
  len : ℕ
  hole : Bool

def Tiles (P : Tile → Prop) : ℕ → ℕ → List Tile → Prop
  | a, e, [] => a = e
  | a, e, t :: ts => t.addr = a ∧ P t ∧ Tiles P (a + t.len) e ts

def holes (ts : List Tile) : List ℕ := (ts.filter (·.hole)).map (·.addr)
def blocks (ts : List Tile) : List ℕ := (ts.filter (fun t => !t.hole)).map (·.addr)

variable {P Q : Tile → Prop} {a e : ℕ} {t : Tile} {ts us : List Tile}

@[simp] theorem holes_append : holes (ts ++ us) = holes ts ++ holes us := by simp [holes]
@[simp] theorem blocks_append : blocks (ts ++ us) = blocks ts ++ blocks us := by simp [blocks]
@[simp] theorem holes_nil : holes [] = [] := rfl
@[simp] theorem blocks_nil : blocks [] = [] := rfl

theorem holes_cons (h : t.hole = true) : holes (t :: ts) = t.addr :: holes ts := by simp [holes,h]
theorem blocks_cons (h : t.hole = true) : blocks (t :: ts) = blocks ts := by simp [blocks,h]
theorem holes_cons_block (h : t.hole = false) : holes (t :: ts) = holes ts := by simp [holes,h]
theorem blocks_cons_block (h : t.hole = false) : blocks (t :: ts) = t.addr :: blocks ts := by
  simp [blocks,h]

theorem mem_holes {x : ℕ} : x ∈ holes ts ↔ ∃ t ∈ ts, t.hole = true ∧ t.addr = x := by
  simp [holes,and_assoc]
theorem mem_blocks {x : ℕ} : x ∈ blocks ts ↔ ∃ t ∈ ts, t.hole = false ∧ t.addr = x := by
  simp [blocks,and_assoc]

theorem tiles_append : Tiles P a e (ts ++ us) ↔ ∃ b, Tiles P a b ts ∧ Tiles P b e us := by
  induction ts generalizing a with
  | nil => simp [Tiles]
  | cons t ts ih => simp [Tiles,ih,and_assoc]

theorem tiles_snoc :
    Tiles P a e (ts ++ [t]) ↔ Tiles P a t.addr ts ∧ P t ∧ t.addr + t.len = e := by
  rw [tiles_append]
  constructor
  · rintro ⟨b,h1,rfl,h2,h3⟩
    exact ⟨h1,h2,h3⟩
  · rintro ⟨h1,h2,h3⟩
    exact ⟨t.addr,h1,rfl,h2,h3⟩

theorem Tiles.le (h : Tiles P a e ts) : a ≤ e := by
  induction ts generalizing a with
  | nil => exact le_of_eq h
  | cons t ts ih => exact le_trans (Nat.le_add_right a t.len) (ih h.2.2)

theorem Tiles.length_le {k : ℕ} (h : Tiles P a e ts) (hk : ∀ t, P t → k ≤ t.len) : a + k * ts.length ≤ e := by
  induction ts generalizing a with
  | nil => exact le_of_eq h
  | cons t ts ih =>
    obtain ⟨rfl,h2,h3⟩ := h
    have := ih h3
    have := hk t h2
    rw [List.length_cons, Nat.mul_succ]
    omega

theorem Tiles.mem (h : Tiles P a e ts) (ht : t ∈ ts) : P t ∧ a ≤ t.addr ∧ t.addr + t.len ≤ e := by
  induction ts generalizing a with
  | nil => simp at ht
  | cons u ts ih =>
    obtain ⟨rfl,h2,h3⟩ := h
    rcases List.mem_cons.mp ht with rfl | ht
    · exact ⟨h2,le_rfl,h3.le⟩
    · obtain ⟨h4,h5,h6⟩ := ih h3 ht
      exact ⟨h4,by omega,h6⟩

theorem Tiles.imp (h : Tiles P a e ts)
    (himp : ∀ t, P t → a ≤ t.addr → t.addr + t.len ≤ e → Q t) : Tiles Q a e ts := by
  induction ts generalizing a with
  | nil => exact h
  | cons u ts ih =>
    obtain ⟨rfl,h2,h3⟩ := h
    exact ⟨rfl,himp u h2 le_rfl h3.le,ih h3 fun t ht h1 h2 => himp t ht (by omega) h2⟩

theorem Tiles.imp_mem (h : Tiles P a e ts) (himp : ∀ t ∈ ts, P t → Q t) : Tiles Q a e ts := by
  induction ts generalizing a with
  | nil => exact h
  | cons u ts ih =>
    obtain ⟨h1,h2,h3⟩ := h
    exact ⟨h1,himp u List.mem_cons_self h2,ih h3 fun t ht => himp t (List.mem_cons_of_mem _ ht)⟩

/-- The tiles lie one after the other. -/
theorem Tiles.pairwise (h : Tiles P a e ts) : ts.Pairwise (fun t u => t.addr + t.len ≤ u.addr) := by
  induction ts generalizing a with
  | nil => exact List.Pairwise.nil
  | cons u ts ih =>
    obtain ⟨rfl,_,h3⟩ := h
    exact List.Pairwise.cons (fun v hv => (h3.mem hv).2.1) (ih h3)

/-- Two tiles of a tiling are the same one or lie apart. -/
theorem Tiles.eq_or_apart (h : Tiles P a e ts) {u v : Tile} (hu : u ∈ ts) (hv : v ∈ ts) :
    u = v ∨ u.addr + u.len ≤ v.addr ∨ v.addr + v.len ≤ u.addr := by
  by_cases huv : u = v
  · exact .inl huv
  · right
    have : Std.Symm (fun t u : Tile => t.addr + t.len ≤ u.addr ∨ u.addr + u.len ≤ t.addr) :=
      ⟨fun _ _ h => h.symm⟩
    have hp : ts.Pairwise (fun t u => t.addr + t.len ≤ u.addr ∨ u.addr + u.len ≤ t.addr) :=
      h.pairwise.imp fun h => .inl h
    exact hp.forall hu hv huv

/-- A tiling cut at one of its tiles. -/
theorem Tiles.split (h : Tiles P a e ts) (ht : t ∈ ts) : ∃ pre post, ts = pre ++ t :: post ∧
    Tiles P a t.addr pre ∧ P t ∧ Tiles P (t.addr + t.len) e post := by
  obtain ⟨pre,post,rfl⟩ := List.append_of_mem ht
  obtain ⟨b,h1,rfl,h2,h3⟩ := tiles_append.mp h
  exact ⟨pre,post,rfl,h1,h2,h3⟩

theorem Tiles.nodup_addr (h : Tiles P a e ts) (hpos : ∀ t, P t → 0 < t.len) :
    (ts.map (·.addr)).Nodup := by
  have hp : ts.Pairwise (fun t u => t.addr ≠ u.addr) := by
    refine h.pairwise.imp_of_mem fun {t u} ht _ hle => ?_
    have := hpos t (h.mem ht).1
    omega
  exact List.pairwise_map.mpr hp

theorem Tiles.nodup_holes (h : Tiles P a e ts) (hpos : ∀ t, P t → 0 < t.len) :
    (holes ts).Nodup :=
  (h.nodup_addr hpos).sublist ((List.filter_sublist).map _)

theorem Tiles.nodup_blocks (h : Tiles P a e ts) (hpos : ∀ t, P t → 0 < t.len) :
    (blocks ts).Nodup :=
  (h.nodup_addr hpos).sublist ((List.filter_sublist).map _)

end X86OsDev.Tiling
