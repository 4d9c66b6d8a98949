import X86OsDev.Xv6.PipeWakeups

/-! # The bytes of a pipe

The ring holds the bytes put in and not yet taken out, in order. Each stretch
of `pipewrite` appends a part of what the process has left to write, each
stretch of `piperead` takes bytes off the front, and nothing else touches them.
-/
namespace X86OsDev.Xv6.Pipes
open Transition

/-- The `n` bytes of the ring from counter `i` on. -/
def bytesFrom (data : Fin pipeSize → UInt8) : BitVec 32 → ℕ → List UInt8
  | _, 0 => []
  | i, n + 1 => data (Pipe.slot i) :: bytesFrom data (i + 1) n

/-- The bytes in the pipe, oldest first. -/
def Pipe.content (p : Pipe) : List UInt8 := bytesFrom p.data p.nread p.count

@[simp] theorem length_bytesFrom (data : Fin pipeSize → UInt8) (i : BitVec 32) (n : ℕ) :
    (bytesFrom data i n).length = n := by
  induction n generalizing i with
  | zero => rfl
  | succ n ih => simp [bytesFrom, ih]

@[simp] theorem Pipe.length_content (p : Pipe) : p.content.length = p.count :=
  length_bytesFrom _ _ _

/-- The ring has a power of two of slots, so the wrapping counter does not disturb it. -/
theorem slot_add (i : BitVec 32) (k : ℕ) :
    (Pipe.slot (i + BitVec.ofNat 32 k)).val = (i.toNat + k) % pipeSize := by
  unfold Pipe.slot pipeSize
  simp only [BitVec.toNat_add, BitVec.toNat_ofNat]
  omega

theorem bytesFrom_succ (data : Fin pipeSize → UInt8) (i : BitVec 32) (n : ℕ) :
    bytesFrom data i (n + 1) = bytesFrom data i n ++ [data (Pipe.slot (i + BitVec.ofNat 32 n))] := by
  induction n generalizing i with
  | zero => simp [bytesFrom]
  | succ n ih =>
    have hi : i + 1 + BitVec.ofNat 32 n = i + BitVec.ofNat 32 (n + 1) := by
      apply BitVec.eq_of_toNat_eq
      have h1 : (1 : BitVec 32).toNat = 1 := rfl
      simp only [BitVec.toNat_add, BitVec.toNat_ofNat, h1]
      omega
    rw [bytesFrom, ih, hi]
    rfl

/-- Writing the slot after the last byte changes none of the bytes before it. -/
theorem bytesFrom_update (data : Fin pipeSize → UInt8) (i : BitVec 32) (b : UInt8) {n k : ℕ}
    (hk : n ≤ k) (hlt : k < pipeSize) :
    bytesFrom (Function.update data (Pipe.slot (i + BitVec.ofNat 32 k)) b) i n = bytesFrom data i n := by
  induction n with
  | zero => rfl
  | succ n ih =>
    have hne : Pipe.slot (i + BitVec.ofNat 32 n) ≠ Pipe.slot (i + BitVec.ofNat 32 k) := by
      intro hc
      have := congrArg Fin.val hc
      rw [slot_add, slot_add] at this
      unfold pipeSize at this hlt
      omega
    rw [bytesFrom_succ, bytesFrom_succ, ih (by omega), Function.update_of_ne hne]

namespace Pipe

theorem content_push (p : Pipe) (b : UInt8) (h : p.count < pipeSize) :
    (p.push b).content = p.content ++ [b] := by
  have hw : p.nwrite = p.nread + BitVec.ofNat 32 p.count := by
    unfold count
    bv_omega
  unfold content
  rw [p.count_push b h, bytesFrom_succ]
  simp only [push, hw]
  rw [bytesFrom_update _ _ _ le_rfl h, Function.update_self]

theorem content_pop (p : Pipe) (h : 0 < p.count) : p.content = p.pop.1 :: p.pop.2.content := by
  obtain ⟨n,hn⟩ : ∃ n, p.count = n + 1 := ⟨p.count - 1,by omega⟩
  have hc := p.count_pop h
  unfold content
  rw [hc, hn]
  rfl

theorem content_of_isEmpty {p : Pipe} (h : p.isEmpty) : p.content = [] := by
  rw [← List.length_eq_zero_iff, length_content, ← isEmpty_iff]
  exact h

end Pipe

/-- A stretch of `pipewrite` appends as many of its bytes as there is room for. -/
theorem pipewrite_content (killed : Bool) (p : Pipe) (l : List UInt8) (hp : p.count ≤ pipeSize) :
    (pipewrite killed p l).1.content = p.content ++ l.take p.room := by
  induction l generalizing p with
  | nil => simp [pipewrite]
  | cons b bs ih =>
    by_cases hf : p.isFull
    · have hr : p.room = 0 := by rw [Pipe.isFull_iff] at hf; unfold Pipe.room; omega
      simp only [pipewrite, if_pos hf, hr, List.take_zero, List.append_nil]
      split <;> rfl
    · have hlt : p.count < pipeSize := by rw [Pipe.isFull_iff] at hf; omega
      have hc := p.count_push b hlt
      have hr : p.room = (p.push b).room + 1 := by unfold Pipe.room; omega
      simp only [pipewrite, if_neg hf]
      rw [ih (p.push b) (by omega), p.content_push b hlt, hr, List.take_succ_cons, List.append_assoc]
      rfl

/-- The copy loop takes its bytes off the front. -/
theorem copyOut_content (n : ℕ) (p : Pipe) :
    p.content = (copyOut n p).1 ++ (copyOut n p).2.content := by
  induction n generalizing p with
  | zero => rfl
  | succ n ih =>
    by_cases he : p.isEmpty
    · simp [copyOut, he]
    · have hpos : 0 < p.count := by
        rw [Pipe.isEmpty_iff] at he
        omega
      simp only [copyOut, if_neg he]
      rw [p.content_pop hpos, ih p.pop.2]
      rfl

variable {P : Type*} [DecidableEq P] {s t : Sys P} {i : P}

/-- What was put in is what was taken out followed by what is in the ring. -/
def Fifo (s : Sys P) : Prop := s.sent = s.delivered ++ s.pipe.content

omit [DecidableEq P] in
theorem Start.fifo (h : Start s) : Fifo s := by
  have he : s.pipe.isEmpty := by rw [Pipe.isEmpty, h.nread, h.nwrite]
  rw [Fifo, h.sent, h.delivered, Pipe.content_of_isEmpty he]
  rfl

/-- The bytes a sleeping writer keeps are those there was no room for. -/
theorem pipewrite_asleep {killed : Bool} {p q : Pipe} {l left : List UInt8} (hp : p.count ≤ pipeSize)
    (h : pipewrite killed p l = (q,.asleep left)) : left = l.drop p.room ∧ p.room < l.length := by
  by_cases hfit : p.count + l.length ≤ pipeSize
  · have := (pipewrite_fits killed p l hfit).1
    simp [h] at this
  · have := (pipewrite_fills killed p l hp (by omega)).1
    rw [h] at this
    split at this
    · cases this
    · cases this
      exact ⟨rfl,by unfold Pipe.room; omega⟩

theorem pipewrite_returned {killed : Bool} {p q : Pipe} {l : List UInt8} (hp : p.count ≤ pipeSize)
    (h : pipewrite killed p l = (q,.returned)) : l.length ≤ p.room := by
  by_cases hfit : p.count + l.length ≤ pipeSize
  · unfold Pipe.room
    omega
  · have := (pipewrite_fills killed p l hp (by omega)).1
    rw [h] at this
    split at this <;> cases this

theorem runCall_fifo (hc : s.pipe.count ≤ pipeSize) (hf : Fifo s) (h : runCall s i = some t) :
    Fifo t := by
  unfold Fifo at hf ⊢
  unfold runCall at h
  cases hcall : (s.proc i).call with
  | user => simp [hcall] at h
  | piperead n =>
    simp only [hcall, piperead] at h
    by_cases he : s.pipe.isEmpty ∧ s.pipe.writeopen = true
    · by_cases hk : (s.proc i).killed = true
      · simp only [if_pos he, if_pos hk, Option.some.injEq] at h
        subst h
        exact hf
      · simp only [if_pos he, if_neg hk, Option.some.injEq] at h
        subst h
        exact hf
    · simp only [if_neg he, Option.some.injEq] at h
      subst h
      dsimp only
      rw [List.append_assoc, ← copyOut_content]
      exact hf
  | pipewrite rest =>
    have hput := pipewrite_content (s.proc i).killed s.pipe rest hc
    simp only [hcall] at h
    rcases hq : pipewrite (s.proc i).killed s.pipe rest with ⟨q,e⟩
    rw [hq] at hput h
    cases e with
    | returned =>
      have hle := pipewrite_returned hc hq
      simp only [Option.some.injEq] at h
      subst h
      dsimp only at hput ⊢
      rw [hput, List.take_of_length_le hle, hf, List.append_assoc]
    | failed =>
      simp only [Option.some.injEq] at h
      subst h
      dsimp only at hput ⊢
      rw [hput, hf, List.append_assoc]
    | asleep left =>
      obtain ⟨rfl,hlt⟩ := pipewrite_asleep hc hq
      simp only [Option.some.injEq] at h
      subst h
      dsimp only at hput ⊢
      rw [hput, hf, List.append_assoc, List.length_drop, Nat.sub_sub_self hlt.le]

/-- Closing an end does not touch the bytes. -/
theorem closeEnd_fifo (writable : Bool) (hf : Fifo s) : Fifo (closeEnd s i writable) := by
  cases writable with
  | true =>
    simp only [closeEnd]
    split <;> exact hf
  | false =>
    simp only [closeEnd]
    split <;> exact hf

theorem step_fifo {a : Act P} (hs : Shape s) (hf : Fifo s) (h : step s a = some t) : Fifo t := by
  cases a with
  | read i n =>
    simp only [step] at h
    split at h
    · split at h
      · cases h
        exact hf
      · cases h
    · cases h
  | write i bytes =>
    simp only [step] at h
    split at h
    · split at h
      · cases h
        exact hf
      · cases h
    · cases h
  | run i =>
    simp only [step] at h
    split at h
    · exact runCall_fifo hs.count hf h
    · cases h
  | share i j writable =>
    simp only [step] at h
    split at h <;> split at h <;> cases h <;> exact hf
  | close i writable =>
    simp only [step] at h
    split at h
    · by_cases hi : i ∈ (if writable then s.wr else s.rd)
      · rw [if_pos hi] at h
        cases h
        exact closeEnd_fifo writable hf
      · rw [if_neg hi] at h
        cases h
    · cases h
  | kill i =>
    simp only [step, Option.some.injEq] at h
    subst h
    exact hf

/-- A read of at least one byte that delivers none found the pipe empty and closed. -/
theorem runCall_end_of_file {n : ℤ} (hcall : (s.proc i).call = .piperead n) (hn : 0 < n)
    (h : runCall s i = some t) (huser : (t.proc i).call = .user) (hret : (t.proc i).ret = some 0) :
    s.pipe.isEmpty ∧ s.pipe.writeopen = false ∧ t.pipe = s.pipe := by
  unfold runCall at h
  simp only [hcall, piperead] at h
  by_cases he : s.pipe.isEmpty ∧ s.pipe.writeopen = true
  · by_cases hk : (s.proc i).killed = true
    · simp only [if_pos he, if_pos hk, Option.some.injEq] at h
      subst h
      simp at hret
    · simp only [if_pos he, if_neg hk, Option.some.injEq] at h
      subst h
      simp at huser
  · simp only [if_neg he, Option.some.injEq] at h
    subst h
    have hlen : (copyOut n.toNat s.pipe).1.length = 0 := by
      simp only [wakeup, Function.update_self] at hret
      split at hret <;> simpa using hret
    have hzero : s.pipe.count = 0 := by
      have := (copyOut_spec n.toNat s.pipe).2.1
      omega
    have hempty := (Pipe.isEmpty_iff s.pipe).mpr hzero
    refine ⟨hempty,?_,?_⟩
    · simpa [hempty] using he
    · obtain ⟨k,hk⟩ : ∃ k, n.toNat = k + 1 := ⟨n.toNat - 1,by omega⟩
      simp [hk, copyOut, hempty]

/-- In every run the delivered bytes are a prefix of the bytes put in, the rest is what the
counters say is in the pipe, and a read returns 0 only at the end of the stream. -/
theorem pipe_fifo (s : Sys P) (h : Reached s) :
    (∃ between, s.sent = s.delivered ++ between ∧
      between.length = (s.pipe.nwrite - s.pipe.nread).toNat ∧ between.length ≤ pipeSize) ∧
    ∀ i n t, OfFun step s (.run i) t → (s.proc i).call = .piperead n → 0 < n →
      (t.proc i).call = .user → (t.proc i).ret = some 0 →
        t.pipe.writeopen = false ∧ t.delivered = t.sent := by
  have hI : Shape s ∧ Fifo s := by
    refine h.invariant (I := fun s => Shape s ∧ Fifo s) (fun s hs => ⟨hs.shape,hs.fifo⟩) ?_
    rintro s a t ⟨hs,hf⟩ hst
    exact ⟨step_shape hs hst,step_fifo hs hf hst⟩
  refine ⟨⟨s.pipe.content,hI.2,s.pipe.length_content,?_⟩,?_⟩
  · rw [Pipe.length_content]
    exact hI.1.count
  · intro i n t hst hcall hn huser hret
    have hf := step_fifo hI.1 hI.2 hst
    change step s (.run i) = some t at hst
    simp only [step] at hst
    split at hst
    · obtain ⟨hempty,hclosed,hpipe⟩ := runCall_end_of_file hcall hn hst huser hret
      rw [Fifo, hpipe, Pipe.content_of_isEmpty hempty, List.append_nil] at hf
      exact ⟨hpipe ▸ hclosed,hf.symm⟩
    · cases hst

/-- Three bytes are put in and two of them are taken out. -/
theorem pipe_fifo_partial_read : ∃ s : Sys (Fin 2), s.sent = [1,2,3] ∧ s.delivered = [1,2] ∧
    ∃ between, s.sent = s.delivered ++ between ∧
      between.length = (s.pipe.nwrite - s.pipe.nread).toNat ∧ between.length ≤ pipeSize := by
  have h0 : Reached freshPipe := .base freshPipe_start
  have h1 := Reachable.next h0 (show OfFun step _ (.write 0 [1,2,3]) _ from rfl)
  have h2 := Reachable.next h1 (show OfFun step _ (.run 0) _ from rfl)
  have h3 := Reachable.next h2 (show OfFun step _ (.read 0 2) _ from rfl)
  have h4 := Reachable.next h3 (show OfFun step _ (.run 0) _ from rfl)
  exact ⟨_,rfl,rfl,(pipe_fifo _ h4).1⟩

end X86OsDev.Xv6.Pipes
