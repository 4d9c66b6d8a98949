import X86OsDev.Xv6.Console

/-! # What console readers get

The ring represents a line. Each character and each stretch of a read keeps that,
so everything the readers see is what the line allows.
-/
namespace X86OsDev.Xv6.Console
open RingBuffer Transition
variable {l : Line} {i : Input} {c : UInt8} {tr : List Event} {p n : ℕ} {s t : Sys}

theorem inputBuf_dvd : inputBuf ∣ 2 ^ 32 := by decide

theorem add_ofNat_inj {r : BitVec 32} {a b : ℕ} (ha : a ≤ inputBuf) (hb : b ≤ inputBuf) :
    r + BitVec.ofNat 32 a = r + BitVec.ofNat 32 b ↔ a = b := by
  simp only [inputBuf] at ha hb
  constructor
  · intro h
    have hab := congrArg BitVec.toNat ((BitVec.add_right_inj _).mp h)
    rw [BitVec.toNat_ofNat, BitVec.toNat_ofNat] at hab
    omega
  · exact fun h => h ▸ rfl

theorem toNat_add_sub {r : BitVec 32} {a b : ℕ} (hab : a ≤ b) (hb : b ≤ inputBuf) :
    (r + BitVec.ofNat 32 b - (r + BitVec.ofNat 32 a)).toNat = b - a := by
  simp only [inputBuf] at hb
  bv_omega

/-- The ring holds the characters to be taken, then the tail. -/
structure Represents (l : Line) (i : Input) : Prop where
  taken : l.taken ≤ l.committed.length
  w : i.w = i.r + BitVec.ofNat 32 l.pending.length
  e : i.e = i.r + BitVec.ofNat 32 (l.pending.length + l.tail.length)
  room : l.pending.length + l.tail.length ≤ inputBuf
  bytes : Contains i.buf i.r (l.pending ++ l.tail)
  tail : newline ∉ l.tail

namespace Represents

theorem size (h : Represents l i) : (i.w - i.r).toNat = l.pending.length ∧ (i.e - i.r).toNat = l.pending.length + l.tail.length := by
  have h1 := toNat_add_sub (r := i.r) (Nat.zero_le l.pending.length) (le_trans (Nat.le_add_right _ _) h.room)
  have h2 := toNat_add_sub (r := i.r) (Nat.zero_le (l.pending.length + l.tail.length)) h.room
  rw [BitVec.add_zero, Nat.sub_zero] at h1 h2
  rw [h.w, h.e]
  exact ⟨h1,h2⟩

theorem tail_size (h : Represents l i) : (i.e - i.w).toNat = l.tail.length := by
  rw [h.e, h.w, toNat_add_sub (Nat.le_add_right _ _) h.room, Nat.add_sub_cancel_left]

theorem e_eq_w (h : Represents l i) : i.e = i.w ↔ l.tail = [] := by
  rw [h.e, h.w, add_ofNat_inj h.room (le_trans (Nat.le_add_right _ _) h.room), ← List.length_eq_zero_iff]
  omega

/-- The last character of the tail is dropped. -/
theorem erase {u : List UInt8} (h : Represents l i) (hu : l.tail = u ++ [c]) :
    i.buf (slot inputBuf (i.e - 1)) = c ∧ Represents { l with tail := u } { i with e := i.e - 1 } := by
  have hlen : l.tail.length = u.length + 1 := by rw [hu]; simp
  have he : i.e - 1 = i.r + BitVec.ofNat 32 (l.pending.length + u.length) := by
    have hr := h.room
    simp only [inputBuf] at hr
    rw [h.e, hlen]
    bv_omega
  have hbytes := h.bytes
  rw [hu, ← List.append_assoc] at hbytes
  constructor
  · have hlast := hbytes (l.pending.length + u.length) (by simp)
    rw [he, hlast, List.getElem_append_right (by simp)]
    simp
  · exact {
      taken := h.taken
      w := h.w
      e := he
      room := le_trans (Nat.add_le_add_left (hlen ▸ Nat.le_succ _) _) h.room
      bytes := hbytes.left
      tail := fun hmem => h.tail (by rw [hu]; exact List.mem_append_left _ hmem) }

theorem killLoop (h : Represents l i) : Represents { l with tail := [] } (killLoop l.tail.length i) := by
  obtain ⟨u,hu⟩ : ∃ u, l.tail = u := ⟨_,rfl⟩
  induction u using List.reverseRecOn generalizing l i with
  | nil =>
    obtain ⟨committed,taken,tail⟩ := l
    subst hu
    exact h
  | append_singleton u c ih =>
    have hne : i.e ≠ i.w := fun heq => by
      rw [h.e_eq_w, hu] at heq
      exact absurd heq (by simp)
    have hc : c ≠ newline := fun heq => h.tail (by rw [hu, heq]; simp)
    obtain ⟨h1,h2⟩ := h.erase hu
    rw [hu, List.length_append, List.length_singleton, Console.killLoop, h1, if_pos ⟨hne,hc⟩]
    exact ih h2 rfl

theorem put (h : Represents l i) (hroom : l.pending.length + l.tail.length < inputBuf) :
    Represents (l.add c) (put i c) := by
  have hlen : (l.pending ++ l.tail).length = l.pending.length + l.tail.length := List.length_append
  have he : i.e + 1 = i.r + BitVec.ofNat 32 (l.pending.length + (l.tail ++ [c]).length) := by
    rw [h.e, List.length_append, List.length_singleton]
    bv_omega
  have hroom' : l.pending.length + (l.tail ++ [c]).length ≤ inputBuf := by
    rw [List.length_append, List.length_singleton]
    omega
  have hbytes : Contains (Function.update i.buf (slot inputBuf i.e) c) i.r (l.pending ++ (l.tail ++ [c])) := by
    have hput := h.bytes.put inputBuf_dvd (by rw [hlen]; exact hroom) c
    rwa [hlen, ← h.e, List.append_assoc] at hput
  have hfull : i.e + 1 = i.r + BitVec.ofNat 32 inputBuf ↔ l.pending.length + (l.tail ++ [c]).length = inputBuf := by
    rw [he]
    exact add_ofNat_inj hroom' le_rfl
  have hpending : (l.committed ++ (l.tail ++ [c])).drop l.taken = l.pending ++ (l.tail ++ [c]) :=
    List.drop_append_of_le_length h.taken
  have hcount : (l.pending ++ (l.tail ++ [c])).length = l.pending.length + (l.tail ++ [c]).length := List.length_append
  by_cases hc : c = newline ∨ c = ctrl 'D' ∨ l.pending.length + (l.tail ++ [c]).length = inputBuf
  · have hc' : c = newline ∨ c = ctrl 'D' ∨ i.e + 1 = i.r + BitVec.ofNat 32 inputBuf := hc.imp_right (Or.imp_right hfull.mpr)
    simp only [Line.add, Console.put]
    rw [if_pos hc, if_pos hc']
    exact {
      taken := by
        dsimp only
        rw [List.length_append]
        exact le_trans h.taken (Nat.le_add_right _ _)
      w := by
        simp only [Line.pending]
        rw [hpending, he, hcount]
      e := by
        simp only [Line.pending]
        rw [hpending, he, hcount]
        rfl
      room := by
        simp only [Line.pending]
        rw [hpending, hcount]
        exact hroom'
      bytes := by
        simp only [Line.pending]
        rw [hpending, List.append_nil]
        exact hbytes
      tail := List.not_mem_nil }
  · have hc' : ¬ (c = newline ∨ c = ctrl 'D' ∨ i.e + 1 = i.r + BitVec.ofNat 32 inputBuf) := fun h0 =>
      hc (h0.imp_right (Or.imp_right hfull.mp))
    simp only [Line.add, Console.put]
    rw [if_neg hc, if_neg hc']
    exact {
      taken := h.taken
      w := h.w
      e := he
      room := hroom'
      bytes := hbytes
      tail := fun hmem => (List.mem_append.mp hmem).elim h.tail fun h1 => hc (Or.inl (List.mem_singleton.mp h1).symm) }

/-- A character that is typed. -/
theorem type (h : Represents l i) (c : UInt8) : Represents (l.type c) (consoleintr1 i c) := by
  rw [Line.type, consoleintr1]
  split
  · exact h
  · split
    · rw [h.tail_size]
      exact h.killLoop
    · split
      · split
        · rename_i hne
          rcases List.eq_nil_or_concat l.tail with hnil | ⟨u,d,hu⟩
          · exact absurd (h.e_eq_w.mpr hnil) hne
          · rw [List.concat_eq_append] at hu
            rw [hu, List.dropLast_concat]
            exact (h.erase hu).2
        · rename_i hne
          rw [h.e_eq_w.mp (not_not.mp hne)]
          rw [List.dropLast_nil, ← h.e_eq_w.mp (not_not.mp hne)]
          exact h
      · rw [h.size.2]
        split
        · rename_i hroom
          exact h.put hroom.2
        · exact h

theorem r_eq_w (h : Represents l i) : i.r = i.w ↔ l.pending = [] := by
  have h0 : i.r = i.r + BitVec.ofNat 32 0 := by simp
  rw [h.w]
  conv_lhs => lhs; rw [h0]
  rw [add_ofNat_inj (Nat.zero_le _) (le_trans (Nat.le_add_right _ _) h.room), ← List.length_eq_zero_iff, eq_comm]

/-- The first character that is to be taken. -/
theorem take {rest : List UInt8} (h : Represents l i) (hp : l.pending = c :: rest) :
    i.buf (slot inputBuf i.r) = c ∧ Represents { l with taken := l.taken + 1 } { i with r := i.r + 1 } := by
  have hbytes := h.bytes
  rw [hp, List.cons_append] at hbytes
  have hrest : l.committed.drop (l.taken + 1) = rest := by
    rw [← List.drop_drop, ← Line.pending, hp]
    rfl
  have hlen : l.pending.length = rest.length + 1 := by rw [hp]; rfl
  have hleft : l.pending.length = l.committed.length - l.taken := List.length_drop
  have hroom := h.room
  refine ⟨hbytes.head,?_⟩
  exact {
    taken := by
      dsimp only
      omega
    w := by
      simp only [Line.pending]
      rw [hrest, h.w, hlen]
      bv_omega
    e := by
      simp only [Line.pending]
      rw [hrest, h.e, hlen]
      bv_omega
    room := by
      simp only [Line.pending]
      rw [hrest]
      omega
    bytes := by
      simp only [Line.pending]
      rw [hrest]
      exact hbytes.tail
    tail := h.tail }

end Represents

/-! ## Traces -/

section Traces
variable {ev : Event} {q : ℕ} {evs : List Event}

theorem Line.after_append (tr evs : List Event) : Line.after (tr ++ evs) = evs.foldl Line.see (Line.after tr) := List.foldl_append

theorem Line.after_snoc (tr : List Event) (ev : Event) : Line.after (tr ++ [ev]) = (Line.after tr).see ev := Line.after_append tr [ev]

theorem since_byte (tr : List Event) (q : ℕ) (c : UInt8) :
    since p (tr ++ [.byte q c]) = if q = p then since p tr ++ [c] else since p tr := by
  rw [since, List.foldl_append]
  rfl

theorem since_ret (tr : List Event) (q : ℕ) (out : List UInt8) (why : Why) (v : ℤ) :
    since p (tr ++ [.ret q n out why v]) = if q = p then [] else since p tr := by
  rw [since, List.foldl_append]
  rfl

theorem since_bytes (tr : List Event) (q : ℕ) (cs : List UInt8) :
    since p (tr ++ cs.map (.byte q)) = if q = p then since p tr ++ cs else since p tr := by
  induction cs generalizing tr with
  | nil => simp
  | cons c cs ih =>
    rw [List.map_cons, ← List.singleton_append, ← List.append_assoc, ih, since_byte]
    split
    · rw [List.append_assoc]
      rfl
    · rfl

theorem since_typed (tr : List Event) (cs : List UInt8) : since p (tr ++ cs.map .typed) = since p tr := by
  induction cs generalizing tr with
  | nil => simp
  | cons c cs ih =>
    rw [List.map_cons, ← List.singleton_append, ← List.append_assoc, ih, since, List.foldl_append]
    rfl

theorem fair_nil : Fair [] := by
  intro before ev rest h
  exact absurd h.symm (List.append_ne_nil_of_right_ne_nil _ (List.cons_ne_nil _ _))

theorem Fair.snoc (h : Fair tr) (hev : Allowed tr ev) : Fair (tr ++ [ev]) := by
  intro before ev' rest heq
  rcases List.eq_nil_or_concat rest with rfl | ⟨rest,last,rfl⟩
  · obtain ⟨rfl,hlast⟩ := List.append_inj' heq rfl
    obtain rfl := List.singleton_inj.mp hlast
    exact hev
  · rw [List.concat_eq_append, ← List.cons_append, ← List.append_assoc] at heq
    exact h before ev' rest (List.append_inj_left' heq rfl)

theorem Fair.init (h : Fair (tr ++ [ev])) : Fair tr ∧ Allowed tr ev := by
  refine ⟨fun before ev' rest heq => h before ev' (rest ++ [ev]) ?_,h tr ev [] rfl⟩
  rw [heq, List.append_assoc]
  rfl

theorem Fair.typed (h : Fair tr) (cs : List UInt8) : Fair (tr ++ cs.map .typed) := by
  induction cs generalizing tr with
  | nil => rwa [List.map_nil, List.append_nil]
  | cons c cs ih =>
    have hc : Fair (tr ++ [.typed c]) := h.snoc trivial
    have := ih hc
    rwa [List.append_assoc] at this

end Traces

/-! ## A stretch of a read -/

/-- What a stretch of `consoleread` leaves: the bytes it stores are allowed, and then it
sleeps without having met a newline, or its return is allowed. -/
def StretchOk (tr : List Event) (p target : ℕ) (out : List UInt8) (x : Input × List UInt8 × ReadEnd) : Prop :=
  Fair (tr ++ x.2.1.map (.byte p)) ∧ match x.2.2 with
    | .asleep => Represents (Line.after (tr ++ x.2.1.map (.byte p))) x.1 ∧ newline ∉ out ++ x.2.1 ∧ (out ++ x.2.1).length ≤ target
    | .returned why v => Represents ((Line.after (tr ++ x.2.1.map (.byte p))).see (.ret p target (out ++ x.2.1) why v)) x.1 ∧
      Allowed (tr ++ x.2.1.map (.byte p)) (.ret p target (out ++ x.2.1) why v)

/-- The bytes before a stretch count as stored by it. -/
theorem StretchOk.cons {out : List UInt8} {target : ℕ} {x : Input × List UInt8 × ReadEnd}
    (h : StretchOk (tr ++ [.byte p c]) p target (out ++ [c]) x) : StretchOk tr p target out (x.1,c :: x.2.1,x.2.2) := by
  have htr : tr ++ [.byte p c] ++ x.2.1.map (.byte p) = tr ++ (c :: x.2.1).map (.byte p) := by
    rw [List.append_assoc]
    rfl
  have hout : out ++ [c] ++ x.2.1 = out ++ c :: x.2.1 := by
    rw [List.append_assoc]
    rfl
  rw [StretchOk, htr, hout] at h
  exact h

theorem readLoop_ok {killed : Bool} {target : ℕ} {out : List UInt8} (hR : Represents (Line.after tr) i) (hF : Fair tr)
    (hs : since p tr = out) (hlen : out.length + n = target) (hnl : newline ∉ out) :
    StretchOk tr p target out (readLoop killed target n i) := by
  have hnl' : newline ∉ out.dropLast := fun h => hnl (List.mem_of_mem_dropLast h)
  induction n generalizing tr i out with
  | zero =>
    have hfull : out.length = target := hlen
    refine ⟨by simpa [readLoop] using hF,?_⟩
    simp only [readLoop, List.map_nil, List.append_nil]
    exact ⟨hR,hs.symm,hfull.le,hnl',by rw [hfull],hfull⟩
  | succ n ih =>
    rw [readLoop]
    by_cases hrw : i.r = i.w
    · rw [if_pos hrw]
      refine ⟨by simpa using hF,?_⟩
      cases killed with
      | false =>
        simp only [Bool.false_eq_true, if_false, List.map_nil, List.append_nil]
        exact ⟨hR,hnl,by omega⟩
      | true =>
        simp only [if_true, List.map_nil, List.append_nil]
        exact ⟨hR,hs.symm,by omega,hnl',rfl,hR.r_eq_w.mp hrw⟩
    · rw [if_neg hrw]
      obtain ⟨c,rest,hp⟩ := List.exists_cons_of_ne_nil (mt hR.r_eq_w.mpr hrw)
      obtain ⟨hc,hR'⟩ := hR.take hp
      have hhead : (Line.after tr).pending.head? = some c := by rw [hp]; rfl
      simp only [hc]
      by_cases hD : c = ctrl 'D'
      · subst hD
        rw [if_pos rfl]
        refine ⟨by simpa using hF,?_⟩
        simp only [List.map_nil, List.append_nil]
        refine ⟨?_,hs.symm,by omega,hnl',by omega,hhead⟩
        -- a control-D that ends a call with bytes stays where it is
        rw [Line.see]
        by_cases hout : out = []
        · subst hout
          rw [List.length_nil] at hlen
          rw [if_pos ⟨rfl,rfl⟩, if_neg (by omega)]
          exact hR'
        · have hpos := List.length_pos_of_ne_nil hout
          rw [if_neg fun h => hout h.2, if_pos (by omega)]
          have hback : i.r + 1 - 1 = i.r := by bv_omega
          simpa [hback] using hR
      · rw [if_neg hD]
        have hbyte : Fair (tr ++ [.byte p c]) := hF.snoc ⟨hhead,hD⟩
        have hafter : Represents (Line.after (tr ++ [.byte p c])) { i with r := i.r + 1 } := by
          rw [Line.after_snoc]
          exact hR'
        have hsince : since p (tr ++ [.byte p c]) = out ++ [c] := by rw [since_byte, if_pos rfl, hs]
        have hlen' : (out ++ [c]).length + n = target := by
          rw [List.length_append, List.length_singleton]
          omega
        by_cases hN : c = newline
        · rw [if_pos hN]
          have hvalue : (target : ℤ) - n = (out ++ [c]).length := by omega
          refine ⟨hbyte,hafter,hsince.symm,hlen'.le.trans' (Nat.le_add_right _ _),?_,hvalue,?_⟩
          · rwa [List.dropLast_concat]
          · rw [hN, List.getLast?_concat]
        · rw [if_neg hN]
          have hnl2 : newline ∉ out ++ [c] := fun h => (List.mem_append.mp h).elim hnl fun h1 => hN (List.mem_singleton.mp h1).symm
          exact (ih hafter hbyte hsince hlen' hnl2 fun h => hnl2 (List.mem_of_mem_dropLast h)).cons

/-! ## Runs -/

structure Inv (s : Sys) : Prop where
  line : Represents (Line.after s.trace) s.input
  fair : Fair s.trace
  idle : ∀ p, s.reader p = none → since p s.trace = []
  waiting : ∀ p rd, s.reader p = some rd → since p s.trace = rd.out ∧ newline ∉ rd.out ∧ rd.out.length ≤ rd.target

theorem booted_inv : Inv booted where
  line := {
    taken := le_rfl
    w := rfl
    e := rfl
    room := Nat.zero_le _
    bytes := contains_nil
    tail := List.not_mem_nil }
  fair := fair_nil
  idle := fun _ _ => rfl
  waiting := fun _ _ h => absurd h (Option.some_ne_none _).symm

theorem Inv.intr (h : Inv s) (cs : List UInt8) :
    Inv { s with input := consoleintr s.input cs, trace := s.trace ++ cs.map .typed } where
  line := by
    have hline := h.line
    rw [Line.after_append, consoleintr, List.foldl_map]
    generalize Line.after s.trace = l at hline ⊢
    generalize s.input = i at hline ⊢
    induction cs generalizing l i with
    | nil => exact hline
    | cons c cs ih => exact ih (l.type c) (consoleintr1 i c) (hline.type c)
  fair := h.fair.typed cs
  idle := fun p hp => (since_typed s.trace cs).trans (h.idle p hp)
  waiting := fun p rd hp => by
    dsimp only
    rw [since_typed]
    exact h.waiting p rd hp

/-- A stretch of a read by one process leaves the other readers as they are. -/
theorem Inv.runReader (h : Inv s) {rd : Reader} (hs : since p s.trace = rd.out) (hnl : newline ∉ rd.out)
    (hlen : rd.out.length ≤ rd.target) : Inv (s.runReader p rd) := by
  have hx : StretchOk s.trace p rd.target rd.out (readLoop (s.killed p) _ _ _) := readLoop_ok h.line h.fair hs (Nat.add_sub_of_le hlen) hnl
  rw [Sys.runReader]
  generalize readLoop (s.killed p) rd.target (rd.target - rd.out.length) s.input = x at hx ⊢
  obtain ⟨i,cs,e⟩ := x
  have hother : ∀ q, q ≠ p → since q (s.trace ++ cs.map (.byte p)) = since q s.trace := fun q hq => by
    rw [since_bytes, if_neg (Ne.symm hq)]
  cases e with
  | asleep =>
    obtain ⟨h1,h2,h3,h4⟩ := hx
    refine ⟨h2,h1,fun q hq => ?_,fun q rd' hq => ?_⟩
    · have hne : q ≠ p := by
        rintro rfl
        exact absurd hq (by simp)
      dsimp only at hq ⊢
      rw [hother q hne]
      exact h.idle q (by rwa [Function.update_of_ne hne] at hq)
    · dsimp only at hq ⊢
      by_cases hqp : q = p
      · subst hqp
        rw [Function.update_self] at hq
        obtain rfl := Option.some.inj hq
        rw [since_bytes, if_pos rfl, hs]
        exact ⟨rfl,h3,h4⟩
      · rw [hother q hqp]
        exact h.waiting q rd' (by rwa [Function.update_of_ne hqp] at hq)
  | returned why v =>
    obtain ⟨h1,h2,h3⟩ := hx
    refine ⟨by rw [Line.after_snoc]; exact h2,h1.snoc h3,fun q hq => ?_,fun q rd' hq => ?_⟩
    · dsimp only at hq ⊢
      rw [since_ret]
      split
      · rfl
      · rename_i hqp
        rw [hother q (Ne.symm hqp)]
        exact h.idle q (by rwa [Function.update_of_ne (Ne.symm hqp)] at hq)
    · dsimp only at hq ⊢
      have hqp : q ≠ p := by
        rintro rfl
        exact absurd hq (by simp)
      rw [since_ret, if_neg hqp.symm, hother q hqp]
      exact h.waiting q rd' (by rwa [Function.update_of_ne hqp] at hq)

theorem Inv.step {op : Op} (h : Inv s) (hst : step s op = some t) : Inv t := by
  cases op with
  | intr cs =>
    obtain rfl := Option.some.inj hst
    exact h.intr cs
  | read p n =>
    simp only [Console.step] at hst
    split at hst
    · rename_i hp
      obtain rfl := Option.some.inj hst
      exact h.runReader (h.idle p hp) List.not_mem_nil (Nat.zero_le _)
    · exact absurd hst (Option.some_ne_none _).symm
  | resume p =>
    obtain ⟨rd,hrd,rfl⟩ := Option.map_eq_some_iff.mp hst
    obtain ⟨h1,h2,h3⟩ := h.waiting p rd hrd
    exact h.runReader h1 h2 h3
  | kill p =>
    obtain rfl := Option.some.inj hst
    exact ⟨h.line,h.fair,h.idle,h.waiting⟩

theorem reached_inv (h : Reached s) : Inv s :=
  h.invariant (fun _ hs => hs ▸ booted_inv) fun _ _ _ hI hst => hI.step hst

/-! ## What the traces say -/

/-- Only a byte, or a control-D that a call meets with nothing stored, takes a character. -/
def Takes : Event → Prop
  | .typed _ => False
  | .byte _ _ => True
  | .ret _ _ out why _ => why = .eof ∧ out = []

section Fairness
variable {ev : Event}

theorem Line.add_committed (l : Line) (c : UInt8) : ∃ x, (l.add c).committed = l.committed ++ x ∧ (l.add c).taken = l.taken := by
  rw [Line.add]
  split
  · exact ⟨_,rfl,rfl⟩
  · exact ⟨[],(List.append_nil _).symm,rfl⟩

theorem Line.type_committed (l : Line) (c : UInt8) : ∃ x, (l.type c).committed = l.committed ++ x ∧ (l.type c).taken = l.taken := by
  have hsame : ∃ x, l.committed = l.committed ++ x ∧ l.taken = l.taken := ⟨[],(List.append_nil _).symm,rfl⟩
  rw [Line.type]
  split
  · exact hsame
  · split
    · exact hsame
    · split
      · exact hsame
      · split
        · exact l.add_committed _
        · exact hsame

theorem taken_lt (h : l.pending.head? = some c) : l.taken < l.committed.length := by
  by_contra hle
  rw [Line.pending, List.drop_eq_nil_of_le (Nat.le_of_not_lt hle)] at h
  exact absurd h (Option.some_ne_none c).symm

theorem take_succ_taken (h : l.pending.head? = some c) : l.committed.take (l.taken + 1) = l.committed.take l.taken ++ [c] := by
  rw [Line.pending, List.head?_drop] at h
  rw [List.take_add_one, h]
  rfl

/-- The bytes that readers got are the characters taken, without the control-D. -/
theorem handed_eq (h : Fair tr) : (Line.after tr).taken ≤ (Line.after tr).committed.length ∧
    handed tr = ((Line.after tr).committed.take (Line.after tr).taken).filter (· ≠ ctrl 'D') := by
  induction tr using List.reverseRecOn with
  | nil => exact ⟨le_rfl,rfl⟩
  | append_singleton tr ev ih =>
    obtain ⟨hF,hA⟩ := h.init
    obtain ⟨hle,hhanded⟩ := ih hF
    rw [Line.after_snoc, handed, List.filterMap_append, ← handed, hhanded]
    cases ev with
    | typed c =>
      obtain ⟨x,h1,h2⟩ := (Line.after tr).type_committed c
      rw [Line.see, h1, h2, List.take_append_of_le_length hle, List.length_append]
      exact ⟨by omega,List.append_nil _⟩
    | byte p c =>
      simp only [Line.see]
      rw [take_succ_taken hA.1, List.filter_append]
      refine ⟨taken_lt hA.1,?_⟩
      rw [List.filter_cons, if_pos (decide_eq_true hA.2)]
      rfl
    | ret p n out why v =>
      rw [Line.see]
      split
      · rename_i heof
        obtain ⟨rfl,-⟩ := heof
        have hhead : (Line.after tr).pending.head? = some (ctrl 'D') := hA.2.2.2.2
        simp only
        rw [take_succ_taken hhead, List.filter_append]
        refine ⟨taken_lt hhead,?_⟩
        simp
      · exact ⟨hle,List.append_nil _⟩

/-- What does not take a character leaves the first one as it is. -/
theorem head_of_not_takes (h : l.pending.head? = some c) (hev : ¬ Takes ev) : (l.see ev).pending.head? = some c := by
  cases ev with
  | typed d =>
    obtain ⟨x,h1,h2⟩ := l.type_committed d
    rw [Line.see, Line.pending, h1, h2, List.drop_append_of_le_length (taken_lt h).le, ← Line.pending, List.head?_append, h]
    rfl
  | byte p d => exact absurd trivial hev
  | ret p n out why v =>
    have hstays : ¬ (why = .eof ∧ out = []) := hev
    rw [Line.see, if_neg hstays]
    exact h

/-- After a return at a control-D that stays, the next character that is taken is that
control-D, by a call that returns 0. -/
theorem eof_comes_once {before mid rest : List Event} {out : List UInt8} {v : ℤ}
    (h : Fair (before ++ .ret p n out .eof v :: (mid ++ ev :: rest))) (hout : out ≠ []) (hmid : ∀ x ∈ mid, ¬ Takes x)
    (hev : Takes ev) : ∃ q k, ev = .ret q k [] .eof 0 := by
  have hret : Allowed before (.ret p n out .eof v) := h _ _ _ rfl
  have hassoc : before ++ .ret p n out .eof v :: (mid ++ ev :: rest) = (before ++ .ret p n out .eof v :: mid) ++ ev :: rest := by
    rw [List.append_assoc]
    rfl
  have hhead : (Line.after (before ++ .ret p n out .eof v :: mid)).pending.head? = some (ctrl 'D') := by
    rw [Line.after_append, List.foldl_cons]
    have h0 : ((Line.after before).see (.ret p n out .eof v)).pending.head? = some (ctrl 'D') :=
      head_of_not_takes hret.2.2.2.2 fun ht => hout ht.2
    clear h hassoc
    generalize (Line.after before).see (.ret p n out .eof v) = l at h0 ⊢
    induction mid generalizing l with
    | nil => exact h0
    | cons x mid ih =>
      exact ih (fun y hy => hmid y (List.mem_cons_of_mem _ hy)) _ (head_of_not_takes h0 (hmid x List.mem_cons_self))
  have hA : Allowed (before ++ .ret p n out .eof v :: mid) ev := h _ _ rest hassoc
  cases ev with
  | typed c => exact absurd hev id
  | byte q c =>
    obtain ⟨h1,h2⟩ := hA
    rw [hhead] at h1
    exact absurd (Option.some.inj h1).symm h2
  | ret q k out' why w =>
    obtain ⟨rfl,rfl⟩ := hev
    have hw : w = 0 := hA.2.2.2.1
    exact ⟨q,k,by rw [hw]⟩

end Fairness

/-- A read of at least one byte that finds a control-D first returns 0 and takes it. -/
theorem read_at_eof (h : Inv s) (hp : s.reader p = none) (hn : 0 < n)
    (hhead : (Line.after s.trace).pending.head? = some (ctrl 'D')) :
    ∃ t, step s (.read p n) = some t ∧ t.trace = s.trace ++ [.ret p n [] .eof 0] := by
  obtain ⟨n,rfl⟩ := Nat.exists_eq_succ_of_ne_zero hn.ne'
  obtain ⟨c,rest,hpend⟩ := List.exists_cons_of_ne_nil fun hnil : (Line.after s.trace).pending = [] => by
    rw [hnil] at hhead
    exact absurd hhead (Option.some_ne_none _).symm
  obtain rfl : c = ctrl 'D' := by
    rw [hpend] at hhead
    exact Option.some.inj hhead
  have hne : s.input.r ≠ s.input.w := fun heq => by
    rw [h.line.r_eq_w.mp heq] at hpend
    exact List.cons_ne_nil _ _ hpend.symm
  have hc := (h.line.take hpend).1
  refine ⟨s.runReader p ⟨n + 1,[]⟩,if_pos hp,?_⟩
  simp [Sys.runReader, readLoop, hne, hc]

end X86OsDev.Xv6.Console
