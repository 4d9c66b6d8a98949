import X86OsDev.Xv6.FsWrite
import Mathlib.Data.Finset.Card

/-! # The law of inode contents

How much of the log a program uses is bounded by a count of its calls of
`log_write`, whatever the state is. `filewrite` and the directory functions ask
for a few blocks at a time, so that the log has room; a caller who asks for
more than the log holds stops the kernel.
-/
namespace X86OsDev.Xv6.Fs
open Fault Memory
open LogProtocol (Log)

/-- A log that is full once `k` more blocks are recorded. -/
def FullWithin (l : Log) (k : ℕ) : Prop := logsize ≤ l.n + k ∨ (l.size : ℤ) - 1 ≤ l.n + k

/-- A program records at most `k` blocks more than the log has. -/
def Budget {α : Type} (k : ℕ) (x : FsProg α) : Prop :=
  ∀ s : Sys, Ends x s (fun e => e = .panic .tooBig → FullWithin s.log k)
    fun _ t => t.log.size = s.log.size ∧ t.log.n ≤ s.log.n + k

section Budget
variable {α β : Type} {x : FsProg α} {f : α → FsProg β} {k l : ℕ}

theorem FullWithin.mono {a b : Log} (h : FullWithin a k) (hs : a.size = b.size)
    (hn : a.n + k ≤ b.n + l) : FullWithin b l := by
  unfold FullWithin at *
  rw [← hs]
  omega

theorem Budget.mono (h : Budget k x) (hkl : k ≤ l) : Budget l x := fun s =>
  (h s).mono (fun _ t ht => ⟨ht.1,by omega⟩) fun _ he hb => (he hb).mono rfl (by omega)

theorem Budget.bind (hx : Budget k x) (hf : ∀ a, Budget l (f a)) : Budget (k + l) (x >>= f) := by
  intro s
  refine .seq ((hx s).mono (fun _ _ h => h) fun _ he hb => (he hb).mono rfl (by omega)) ?_
  rintro a t ⟨hs,hn⟩
  exact (hf a t).mono (fun _ u hu => ⟨hu.1.trans hs,by omega⟩)
    fun _ he hb => (he hb).mono hs (by omega)

theorem Budget.pure (a : α) : Budget 0 (pure a : FsProg α) := fun _ => ⟨rfl,le_rfl⟩

theorem Budget.get : Budget 0 (get : FsProg Sys) := fun _ => ⟨rfl,le_rfl⟩

theorem Budget.modify {g : Sys → Sys} (hg : ∀ s, (g s).log = s.log) :
    Budget 0 (modify g : FsProg PUnit) := by
  intro s
  refine (ends_of_ok (modify_ok g)).mpr ?_
  rw [hg s]
  exact ⟨rfl,le_rfl⟩

theorem Budget.panic {p : Panic} (hp : p ≠ .tooBig) : Budget 0 (Fs.panic p : FsProg α) :=
  fun _ he => absurd (Stop.panic.inj he) hp

theorem Budget.ite {c : Prop} [Decidable c] {y : FsProg α} (hx : Budget k x) (hy : Budget k y) :
    Budget k (if c then x else y) := by
  split
  · exact hx
  · exact hy

theorem budget_bread (b : ℕ) : Budget 0 (bread b) := by
  intro s
  unfold bread
  refine .seq_ok get_ok ?_
  split
  · exact fun he => nomatch he
  · split
    · exact fun he => nomatch he
    · exact ⟨rfl,le_rfl⟩

theorem budget_brelse (b : ℕ) : Budget 0 (brelse b) := by
  intro s
  unfold brelse
  refine .seq_ok get_ok ?_
  split
  · exact ⟨rfl,le_rfl⟩
  · exact fun he => nomatch he

theorem record_size (l : Log) (b : ℕ) : (l.record b).size = l.size := by
  unfold LogProtocol.Log.record
  split <;> rfl

theorem record_n_le (l : Log) (b : ℕ) : (l.record b).n ≤ l.n + 1 := by
  unfold LogProtocol.Log.record
  split
  · omega
  · simp [LogProtocol.Log.n]

theorem budget_logWrite (b : ℕ) : Budget 1 (logWrite b) := by
  intro s
  unfold logWrite
  refine .seq_ok get_ok ?_
  split
  · rename_i hfull
    intro _
    unfold LogProtocol.Log.isFull at hfull
    simp only [Bool.or_eq_true, decide_eq_true_eq] at hfull
    unfold FullWithin
    omega
  · split
    · exact fun he => nomatch he
    · exact ⟨record_size _ _,record_n_le _ _⟩

theorem budget_bupdate (b : ℕ) (data : Block) : Budget 1 (bupdate b data) := by
  unfold bupdate putData
  refine (Budget.modify ?_).bind fun _ => (budget_logWrite b).bind fun _ => budget_brelse b
  exact fun _ => rfl

theorem budget_bzero (b : ℕ) : Budget 1 (bzero b) := by
  unfold bzero
  exact (budget_bread b).bind fun _ => budget_bupdate b _

variable (sb : Superblock) (ip : Fin ninode)

theorem budget_ballocLoop (n b : ℕ) : Budget 2 (ballocLoop sb n b) := by
  induction n generalizing b with
  | zero =>
    rw [ballocLoop]
    exact (Budget.panic (by decide)).mono (by omega)
  | succ n ih =>
    rw [ballocLoop]
    refine .ite ((budget_bread _).bind fun blk => ?_ : Budget (0 + 2) _)
      ((Budget.panic (by decide)).mono (by omega))
    cases freeBit sb blk b bpb 0 with
    | none => exact ((budget_brelse _).bind fun _ => ih _).mono (by omega)
    | some bi => exact (budget_bupdate _ _).bind fun _ => (budget_bzero _).bind fun _ => .pure _

theorem budget_balloc : Budget 2 (balloc sb) := budget_ballocLoop sb _ _

theorem budget_setNode (g : Dinode → Dinode) : Budget 0 (setNode ip g) :=
  Budget.modify fun _ => rfl

theorem budget_addrOf (k : Fin (ndirect + 1)) : Budget 2 (addrOf sb ip k) := by
  unfold addrOf
  refine (Budget.get.bind fun s => ?_ : Budget (0 + 2) _)
  refine .ite ?_ ((Budget.pure _).mono (by omega))
  exact (budget_balloc sb).bind fun b => (budget_setNode ip _).bind fun _ => .pure _

theorem budget_bmap (bn : ℕ) : Budget 5 (bmap sb ip bn) := by
  unfold bmap
  split
  · exact (budget_addrOf sb ip _).mono (by omega)
  · refine .ite ?_ ((Budget.panic (by decide)).mono (by omega))
    refine ((budget_addrOf sb ip _).bind fun addr => (budget_bread addr).bind fun a => ?_ :
      Budget (2 + (0 + 3)) _)
    refine .ite ?_ ?_
    · exact (budget_balloc sb).bind fun b => (budget_bupdate _ _).bind fun _ => .pure _
    · exact ((budget_brelse _).bind fun _ => .pure _).mono (by omega)

theorem budget_iupdate : Budget 1 (iupdate sb ip) := by
  unfold iupdate
  exact Budget.get.bind fun s => (budget_bread _).bind fun _ => budget_bupdate _ _

/-- The number of blocks that the bytes `off .. off+n-1` of a content are in. -/
def spans (off n : ℕ) : ℕ := if n = 0 then 0 else (off + n - 1) / bsize - off / bsize + 1

theorem spans_step {off n m : ℕ} (h0 : 0 < n) (hm : m = min n (bsize - off % bsize)) :
    1 + spans (off + m) (n - m) ≤ spans off n := by
  unfold spans
  simp only [bsize] at *
  split <;> split <;> omega

theorem budget_writeLoop (src : ℕ → UInt8) (n fuel : ℕ) :
    ∀ tot off, Budget (6 * spans off (n - tot)) (writeLoop sb ip src n fuel tot off) := by
  induction fuel with
  | zero =>
    intro tot off
    rw [writeLoop]
    exact (Budget.pure _).mono (by omega)
  | succ fuel ih =>
    intro tot off
    rw [writeLoop]
    by_cases hlt : tot < n
    · rw [if_pos hlt]
      have hs := @spans_step off (n - tot) _ (by omega) rfl
      refine ((budget_bmap sb ip _).bind fun b => (budget_bread b).bind fun data =>
        (budget_bupdate b _).bind fun _ => ih _ _).mono ?_
      generalize min (n - tot) (bsize - off % bsize) = m at hs ⊢
      rw [show n - (tot + m) = n - tot - m by omega]
      omega
    · rw [if_neg hlt]
      exact (Budget.pure _).mono (by omega)

theorem budget_writei {me : Fin nproc} {src : ℕ → UInt8} {off n : ℕ} {s : Sys}
    (hdev : (s.icache ip).node.type ≠ tDev) :
    Ends (writei sb me ip src off n) s
      (fun e => e = .panic .tooBig → FullWithin s.log (6 * spans off n + 1)) fun _ _ => True := by
  have hb : Budget (6 * spans off n + 1) (do
      let off ← writeLoop sb ip src n n 0 off
      growTo sb ip n off
      return some n : FsProg (Option ℕ)) := by
    refine (budget_writeLoop sb ip src n n 0 off).bind fun off' => ?_
    refine (?_ : Budget 1 (growTo sb ip n off')).bind fun _ => .pure _
    unfold growTo
    refine (Budget.get.bind fun s => ?_ : Budget (0 + 1) _)
    refine .ite ?_ ((Budget.pure _).mono (by omega))
    exact (budget_setNode ip _).bind fun _ => budget_iupdate sb ip
  unfold writei
  refine .seq_ok get_ok ?_
  rw [if_neg hdev]
  split
  · trivial
  · split
    · trivial
    · exact (hb s).imp fun _ _ _ => trivial

end Budget

section Law
variable {sb : Superblock} {ip : Fin ninode} {s : Sys} {me : Fin nproc}

/-- `writei` inside the bounds, with the stops that are left by its use of the log. -/
theorem writei_law (L : sb.Layout) (hc : Consistent sb s.disk) (hl : Locked sb me ip s) (hb : s.busy = [])
    (hdev : (s.icache ip).node.type ≠ tDev) (src : ℕ → UInt8) {off n : ℕ} (hoff : off ≤ (s.icache ip).node.size)
    (hmax : off + n ≤ maxfile * bsize) (ho : 1 ≤ s.log.outstanding) :
    Ends (writei sb me ip src off n) s
      (fun e => (e = .panic .balloc ∧ (s.icache ip).node.size < off + n) ∨
        (e = .panic .tooBig ∧ FullWithin s.log (6 * spans off n + 1)))
      fun r t => r = some n ∧ Wrote sb ip src off n s t := by
  have hw : Ends (writei sb me ip src off n) s
      (fun e => (e = .panic .balloc ∧ (s.icache ip).node.size < off + n) ∨ e = .panic .tooBig) _ :=
    writei_ends L hc hl hb (.inr rfl) (fun h => .inl ⟨rfl,h⟩) ho hdev hoff hmax
  refine (hw.and (budget_writei sb ip hdev)).mono (fun _ _ h => h.1) ?_
  rintro e ⟨h | h,hfull⟩
  · exact .inl h
  · exact .inr ⟨h,hfull h⟩

/-- The blocks of a write that returned are in the log, which has no room for more than
`LOGSIZE` of them. -/
theorem Wrote.count_le {t : Sys} {src : ℕ → UInt8} {n k : ℕ} (h : Wrote sb ip src 0 n s t)
    (hi : (s.icache ip).inum < sb.ninodes) (ht : (s.icache ip).node.type ≠ 0)
    (hlog : s.log.n ≤ logsize) (hk : k * bsize ≤ n) : k ≤ logsize := by
  obtain ⟨a,ha⟩ := h.icache
  have hnode : (t.icache ip).node = { (s.icache ip).node with
      size := max (s.icache ip).node.size (0 + n), addrs := a } := by
    rw [ha, Sys.withNode_icache_self]
  have hall : IsAllocated sb (sb.dinode t.disk) (s.icache ip).inum := by
    refine ⟨hi,?_⟩
    rw [h.persisted, hnode]
    exact ht
  have hne {j : ℕ} (hj : j < k) : blockOf t.disk (t.icache ip).node j ≠ 0 := by
    rw [← h.persisted]
    refine h.consistent.mapped _ hall j ?_
    rw [h.persisted, hnode]
    have : j * bsize < k * bsize := Nat.mul_lt_mul_of_pos_right hj (by decide)
    dsimp only
    omega
  have hinj : Set.InjOn (blockOf t.disk (t.icache ip).node) (Finset.range k) := by
    intro i hi' j hj hij
    have h1 := hne (Finset.mem_range.mp hi')
    rw [← h.persisted] at h1 hij
    exact dataSlot_injective (h.consistent.slot_once hall hall h1 hij).2
  have hsub : (Finset.range k).image (blockOf t.disk (t.icache ip).node) ⊆ t.log.block.toFinset := by
    intro b hb
    obtain ⟨j,hj,rfl⟩ := Finset.mem_image.mp hb
    have hlt : j * bsize < k * bsize :=
      Nat.mul_lt_mul_of_pos_right (Finset.mem_range.mp hj) (by decide)
    have := h.logged (j * bsize) (by omega) (by omega)
    rw [Nat.mul_div_cancel _ (by decide)] at this
    exact List.mem_toFinset.mpr this
  calc k = ((Finset.range k).image (blockOf t.disk (t.icache ip).node)).card := by
        rw [Finset.card_image_of_injOn hinj, Finset.card_range]
    _ ≤ t.log.block.toFinset.card := Finset.card_le_card hsub
    _ ≤ t.log.n := t.log.block.toFinset_card_le
    _ ≤ logsize := h.log.room hlog

end Law

/-! ## A file of 36 blocks -/

namespace BigFile

/-- The only inode in use; its blocks are the first ones of the data area. -/
def node : Dinode := ⟨tFile,0,0,1,36 * bsize,fun k => 59 + k⟩

/-- The map block: the blocks below 96 are in use. -/
def map : Block := fun i => if i.val < 12 then 255 else 0

/-- The indirect block. -/
def indirect : Block := fun i => if i.val % 4 = 0 ∧ i.val < 96 then UInt8.ofNat (72 + i.val / 4) else 0

def disk (b : ℕ) : Block :=
  if b = 32 then Block.zero.setDinode 2 node
  else if b = 58 then map
  else if b = 71 then indirect
  else Block.zero

theorem nproc_pos : 0 < nproc := by decide
theorem ninode_pos : 0 < ninode := by decide

/-- Inode 2 is locked by process 0 inside its first transaction. -/
def state : Sys where
  disk := disk
  busy := []
  log := ⟨[],1,false,30⟩
  icache ip := if ip.val = 0 then ⟨2,1,some ⟨0,nproc_pos⟩,true,node⟩
    else ⟨0,0,none,false,Block.freshDinode 0⟩
  file _ := ⟨.none,0,false,false,⟨0,ninode_pos⟩,0⟩
  proc _ := ⟨none,fun _ => none⟩
  console _ := none

theorem node_fits : node.Fits := by
  refine ⟨by decide,by decide,by decide,by decide,by decide,fun k => ?_⟩
  have := k.isLt
  simp only [node, ndirect] at *
  omega

theorem dinode_two : Superblock.mkfs.dinode disk 2 = node := by
  have h : disk (Superblock.mkfs.iblock 2) = Block.zero.setDinode 2 node := rfl
  unfold Superblock.dinode
  rw [h, Block.dinode_setDinode _ _ node_fits]

theorem isAllocated_iff {i : ℕ} : IsAllocated Superblock.mkfs (Superblock.mkfs.dinode disk) i ↔ i = 2 := by
  constructor
  · rintro ⟨hi,ht⟩
    by_contra hne
    refine ht ?_
    have hi' : i < 200 := hi
    unfold Superblock.dinode
    by_cases hb : i / 8 = 0
    · have hd : disk (Superblock.mkfs.iblock i) = Block.zero.setDinode 2 node := by
        have hb' : Superblock.mkfs.iblock i = 32 := by
          unfold Superblock.iblock Superblock.mkfs
          simp only [ipb, bsize]
          omega
        rw [hb']
        rfl
      rw [hd, Block.dinode_setDinode_of_ne _ _ (by simp only [ipb, bsize]; omega), Block.dinode_zero_type]
    · have hd : disk (Superblock.mkfs.iblock i) = Block.zero := by
        have hb' : 32 < Superblock.mkfs.iblock i ∧ Superblock.mkfs.iblock i < 58 := by
          unfold Superblock.iblock Superblock.mkfs
          simp only [ipb, bsize]
          omega
        unfold disk
        rw [if_neg (by omega), if_neg (by omega), if_neg (by omega)]
      rw [hd, Block.dinode_zero_type]
  · rintro rfl
    refine ⟨by decide,?_⟩
    rw [dinode_two]
    decide

theorem load8_indirect {x : ℕ} (hx : x < bsize) :
    load8 indirect.mem x = if x % 4 = 0 ∧ x < 96 then 72 + x / 4 else 0 := by
  unfold load8 Block.mem indirect
  rw [dif_pos hx]
  dsimp only
  split
  · rename_i h
    rw [UInt8.toNat_ofNat', Nat.mod_eq_of_lt (by omega)]
  · rfl

theorem word_indirect {j : ℕ} (hj : j < nindirect) :
    indirect.word (4 * j) = if j < 24 then 72 + j else 0 := by
  simp only [nindirect, bsize] at hj
  unfold Block.word load32 load16
  rw [load8_indirect (by simp only [bsize]; omega), load8_indirect (by simp only [bsize]; omega),
    load8_indirect (by simp only [bsize]; omega), load8_indirect (by simp only [bsize]; omega),
    if_neg (c := (4 * j + 1) % 4 = 0 ∧ _) (by omega), if_neg (c := (4 * j + 2) % 4 = 0 ∧ _) (by omega),
    if_neg (c := (4 * j + 2 + 1) % 4 = 0 ∧ _) (by omega)]
  split <;> split <;> omega

theorem slot_node (k : ℕ) : slot disk node k = if k < 37 then 59 + k else 0 := by
  by_cases hk : k < ndirect + 1
  · rw [slot_direct hk, if_pos (by simp only [ndirect] at hk; omega)]
    rfl
  · obtain ⟨j,rfl⟩ := Nat.exists_eq_add_of_le (not_lt.mp hk)
    by_cases hj : j < nindirect
    · have hd : disk (node.addrs (Fin.last ndirect)) = indirect := rfl
      rw [slot_indirect (by decide) hj, hd, word_indirect hj]
      simp only [ndirect]
      split <;> split <;> omega
    · simp only [nindirect, bsize] at hj
      rw [slot_of_ge (by simp only [nindirect, bsize]; omega), if_neg (by simp only [ndirect]; omega)]

theorem bit_iff {b : ℕ} (hb : b < 1000) : Superblock.mkfs.bit disk b = true ↔ b < 96 := by
  have hblk : Superblock.mkfs.bblock b = 58 := by
    unfold Superblock.bblock Superblock.mkfs
    simp only [bpb, bsize]
    omega
  have hd : disk 58 = map := rfl
  have hm : b % bpb = b := Nat.mod_eq_of_lt (by simp only [bpb, bsize]; omega)
  have hx : b / 8 < bsize := by
    simp only [bsize]
    omega
  have h255 : ∀ i < 8, (255 : ℕ).testBit i = true := by decide
  unfold Superblock.bit
  rw [hblk, hd, hm]
  unfold Block.bit load8 Block.mem map
  rw [dif_pos hx]
  dsimp only
  split
  · rename_i h
    refine iff_of_true (h255 _ (Nat.mod_lt _ (by decide))) (by omega)
  · rename_i h
    exact iff_of_false (by simp) (by omega)

theorem consistent : Consistent Superblock.mkfs disk := by
  have hsize : Superblock.mkfs.size = 1000 := rfl
  have hstart : Superblock.mkfs.datastart = 59 := rfl
  have hrefs (p : ℕ × ℕ) : refs Superblock.mkfs disk (Superblock.mkfs.dinode disk) p =
      if p.1 = 2 ∧ p.2 < 37 then 59 + p.2 else 0 := by
    obtain ⟨i,k⟩ := p
    by_cases hi : i = 2
    · rw [refs_of_allocated (isAllocated_iff.mpr hi), hi, dinode_two, slot_node]
      simp
    · rw [refs_of_not_allocated fun h => hi (isAllocated_iff.mp h), if_neg fun h => hi h.1]
  refine ⟨⟨fun p hp => ?_,fun p q hp hpq => ?_,fun b hb => ?_⟩,fun b hb => ?_,fun i hi bn hbn => ?_⟩
  · rw [hrefs] at hp ⊢
    unfold dataArea
    rw [hsize, hstart]
    split at hp
    · rename_i h
      rw [if_pos h]
      exact ⟨by omega,by omega⟩
    · exact absurd rfl hp
  · rw [hrefs] at hp hpq
    rw [hrefs] at hpq
    split at hp
    · rename_i h
      rw [if_pos h] at hpq
      split at hpq
      · exact Prod.ext (by omega) (by omega)
      · omega
    · exact absurd rfl hp
  · rw [bit_iff hb.2]
    have h1 := hb.1
    rw [hstart] at h1
    constructor
    · intro h
      refine ⟨(2,b - 59),?_⟩
      rw [hrefs, if_pos ⟨rfl,by omega⟩]
      dsimp only
      omega
    · rintro ⟨p,hp⟩
      rw [hrefs] at hp
      split at hp <;> omega
  · rw [hstart] at hb
    exact (bit_iff (by omega)).mpr (by omega)
  · rw [isAllocated_iff.mp hi, dinode_two] at hbn ⊢
    have hbn' : bn * 512 < 36 * 512 := hbn
    unfold blockOf dataSlot
    rw [slot_node]
    simp only [ndirect]
    split <;> split <;> omega

theorem locked : Locked Superblock.mkfs 0 0 state :=
  ⟨rfl,by decide,rfl,by decide,by decide,dinode_two.symm⟩

theorem state_size : (state.icache 0).node.size = 18432 := rfl

end BigFile

end X86OsDev.Xv6.Fs
