import X86OsDev.Xv6.MkfsImage

/-! # Appending to an inode of an image (`iappend`)

The loop goes block by block. Beyond what `writei` keeps, the inode has no block
past its end, the rest of its last block is zero, and the blocks that were
handed out are counted, so that the image is full only if the data does not fit.
-/
namespace X86OsDev.Xv6.Mkfs
open Fault Memory Fs

/-- The blocks that a file of a size has, with its indirect block. -/
def need (size : ℕ) : ℕ := (size + (bsize - 1)) / bsize + if ndirect * bsize < size then 1 else 0

theorem need_mono {a b : ℕ} (h : a ≤ b) : need a ≤ need b := by
  unfold need
  have := Nat.div_le_div_right (c := bsize) (Nat.add_le_add_right h (bsize - 1))
  split <;> split <;> omega

/-- An inode has no blocks beyond a size, and the rest of its last block is zero. -/
structure Tail (d : ℕ → Block) (n : Dinode) (size : ℕ) : Prop where
  unmapped : ∀ bn, size ≤ bn * bsize → blockOf d n bn = 0
  indirect : n.addrs (Fin.last ndirect) = 0 ↔ size ≤ ndirect * bsize
  pad : ∀ o, size ≤ o → blockOf d n (o / bsize) ≠ 0 → byteAt d n o = 0

/-- The blocks that are handed out for the bytes up to the end of a block. -/
theorem cost_eq {d : ℕ → Block} {din : Dinode} {o n1 : ℕ} (hT : Tail d din o)
    (hmapped : ∀ x < o, blockOf d din (x / bsize) ≠ 0) (h1 : 0 < n1) (h2 : o + n1 ≤ (o / bsize + 1) * bsize) :
    need o + cost d din (o / bsize) = need (o + n1) := by
  have hblock : blockOf d din (o / bsize) = 0 ↔ o % bsize = 0 := by
    constructor
    · intro h
      by_contra hne
      refine hmapped (o - 1) ?_ ?_
      · simp only [bsize] at *
        omega
      · rw [show (o - 1) / bsize = o / bsize by simp only [bsize] at *; omega, h]
    · intro h
      refine hT.unmapped _ ?_
      simp only [bsize] at *
      omega
  unfold cost need
  rw [if_congr hblock rfl rfl, if_congr hT.indirect rfl rfl]
  simp only [bsize, ndirect] at *
  split <;> split <;> split <;> split <;> (try split) <;> omega

/-- What holds once `iappend` has stored `tot` bytes of the data. -/
structure Appended (ino : ℕ → Dinode) (s : Sys) (m0 : Img) (inum off : ℕ) (data : List UInt8) (m : Img) (din : Dinode) (tot : ℕ)
    (t : Sys) : Prop where
  fresh : Fresh m
  shows : Shows m inum din t
  written : Written sb ino entry (fun i => data.getD i 0) off s tot t
  tail : Tail t.disk din (off + tot)
  count : m.freeblock + need off = m0.freeblock + need (off + tot)
  freeinode : m.freeinode = m0.freeinode

section Round
variable {ino : ℕ → Dinode} {s : Sys} {m0 : Img} {inum off : ℕ} {data : List UInt8} {m : Img} {din : Dinode} {tot : ℕ} {t : Sys}

theorem Appended.mapped (h : Appended ino s m0 inum off data m din tot t) {x : ℕ} (hx : x < off + tot) :
    blockOf t.disk din (x / bsize) ≠ 0 := by
  rw [← h.shows.node]
  exact h.written.mapped x hx

/-- What `iappend` stores in a block is what `writei` stores. -/
theorem chunk_eq {b : Block} {n1 : ℕ} : Block.ofMem (copy b.mem ((off + tot) - (off + tot) / bsize * bsize) n1
    fun i => (data.drop tot).getD i 0) = chunk (fun i => data.getD i 0) tot ((off + tot) % bsize) n1 b := by
  have h1 : (off + tot) - (off + tot) / bsize * bsize = (off + tot) % bsize := by
    simp only [bsize]
    omega
  have h2 : (fun i => (data.drop tot).getD i 0) = fun i => data.getD (tot + i) 0 := by
    funext i
    simp [List.getD_eq_getElem?_getD]
  rw [h1, h2]
  rfl

/-- One round: a block is found for the offset, and bytes up to its end are stored in it. -/
theorem Appended.round (h : Appended ino s m0 inum off data m din tot t) (hO : Open sb ino entry s) {n1 x fbn : ℕ} {din' : Dinode}
    {m' : Img} {t' : Sys} (hfbn : (off + tot) / bsize = fbn) (h1 : 0 < n1) (h2 : off + tot + n1 ≤ (fbn + 1) * bsize)
    (hx : x < fssize) (hx0 : x ≠ 0) (hfree : m'.freeblock = m.freeblock + cost t.disk din fbn)
    (hino : m'.freeinode = m.freeinode) (hzero : blockOf t.disk din fbn = 0 → m'.sect x = Block.zero)
    (hf : Found ino inum t m' din din' t' (fun l => l = dataSlot fbn ∨ l = ndirect ∧ ¬ fbn < ndirect))
    (hblock : blockOf t'.disk din' fbn = x) :
    Appended ino s m0 inum off data
      { m' with
        sect := Function.update m'.sect x (chunk (fun i => data.getD i 0) tot ((off + tot) % bsize) n1 (m'.sect x))
        nsect := max m'.nsect (x + 1) } din' (tot + n1)
      (t'.write x (chunk (fun i => data.getD i 0) tot ((off + tot) % bsize) n1 (t'.disk x))) := by
  have hO' := (h.written.open hO).grown hf.grown
  have hnode := hf.shows.node
  obtain ⟨hge,hlt,-⟩ := hf.shows.slot_lt hO' (l := dataSlot fbn) (by change blockOf t'.disk din' fbn ≠ 0; rwa [hblock])
  change nmeta ≤ blockOf t'.disk din' fbn at hge
  change blockOf t'.disk din' fbn < m'.freeblock at hlt
  rw [hblock] at hge hlt
  have hmeta : nmeta = 59 := rfl
  have hdx : t'.disk x = m'.sect x := by
    rw [hf.shows.disk, m'.disk_of_ne (by omega)]
  have hmem : x ∈ dataArea sb := ⟨hge,hx⟩
  have hw := h.written.grown hO hf.grown
  have hlog := logGrows_long (isHome_dataArea sb_layout hmem) hf.shows.long
  have hstore := hw.store hO hfbn (by rw [hnode]; exact hblock) sb_layout hx0 (m := n1) (by
    simp only [bsize] at *
    omega) hlog
  generalize hv : chunk (fun i => data.getD i 0) tot ((off + tot) % bsize) n1 (t'.disk x) = v at hstore
  rw [← hdx, hv]
  have hmove (bn : ℕ) : blockOf (Function.update t'.disk x v) din' bn = blockOf t'.disk din' bn := by
    rw [← hnode]
    exact hw.blockOf_update hO (by rw [hnode]; exact hblock) v bn
  have hsame {bn : ℕ} (hbn : bn ≠ fbn) : blockOf t'.disk din' bn = blockOf t.disk din bn := by
    refine hf.same _ fun hc => ?_
    rcases hc with hc | ⟨hc,-⟩
    · exact hbn (dataSlot_injective hc)
    · exact dataSlot_ne_last bn hc
  have hlo : fbn * bsize ≤ off + tot := hfbn ▸ Nat.div_mul_le_self _ _
  have hcost : need (off + tot) + cost t.disk din fbn = need (off + tot + n1) :=
    hfbn ▸ cost_eq h.tail (fun y hy => h.mapped hy) h1 (hfbn ▸ h2)
  have hcount := h.count
  refine ⟨⟨?_,hf.fresh.ge,hf.fresh.le,fun b hb hbs => ?_⟩,⟨?_,hf.shows.inum,hnode,?_⟩,hstore,⟨fun bn hbn => ?_,?_,fun y hy hyb => ?_⟩,
    ?_,hino.trans h.freeinode⟩
  · change max m'.nsect (x + 1) = fssize
    rw [hf.fresh.nsect]
    omega
  · have hb' : m'.freeblock ≤ b := hb
    exact (Function.update_of_ne (by omega) _ _).trans (hf.fresh.zero b hb hbs)
  · change Function.update t'.disk x v = Function.update (Function.update m'.sect x v) sb.bmapstart (bitmap m'.freeblock)
    rw [hf.shows.disk]
    exact Function.update_comm (show sb.bmapstart ≠ x by change 58 ≠ x; omega) _ _ _
  · exact hf.shows.long.trans_le (le_record_n _ _)
  · change blockOf (Function.update t'.disk x v) din' bn = 0
    have hne : bn ≠ fbn := by
      rintro rfl
      omega
    rw [hmove, hsame hne]
    exact h.tail.unmapped bn (by omega)
  · by_cases hd : fbn < ndirect
    · have hlast : din'.addrs (Fin.last ndirect) = din.addrs (Fin.last ndirect) := by
        have := hf.same ndirect fun hc => by
          rcases hc with hc | ⟨-,hc⟩
          · exact dataSlot_ne_last fbn hc.symm
          · exact hc hd
        rwa [slot_last, slot_last] at this
      rw [hlast, h.tail.indirect]
      simp only [bsize, ndirect] at *
      omega
    · have hlast : din'.addrs (Fin.last ndirect) ≠ 0 := by
        intro hc
        refine hx0 (hblock.symm.trans ?_)
        unfold blockOf
        exact slot_of_no_indirect (by rw [dataSlot_of_ge hd]; omega) hc
      refine iff_of_false hlast ?_
      simp only [bsize, ndirect] at *
      omega
  · change (Function.update t'.disk x v (blockOf (Function.update t'.disk x v) din' (y / bsize))).mem (y % bsize) = 0
    change blockOf (Function.update t'.disk x v) din' (y / bsize) ≠ 0 at hyb
    rw [hmove] at hyb ⊢
    have hyf : y / bsize = fbn := by
      by_contra hne
      refine hyb ((hsame hne).trans (h.tail.unmapped _ ?_))
      simp only [bsize] at *
      omega
    have hout : ¬ ((off + tot) % bsize ≤ y % bsize ∧ y % bsize < (off + tot) % bsize + n1) := by
      simp only [bsize] at *
      omega
    rw [hyf, hblock, Function.update_self, ← hv, chunk_mem _ (Nat.mod_lt _ (by decide)), if_neg hout]
    by_cases hold : blockOf t.disk din fbn = 0
    · rw [hdx, hzero hold]
      unfold Block.mem Block.zero
      split <;> rfl
    · have hkeep := hf.grown.keeps fbn (by rw [h.shows.node]; exact hold)
      rw [h.shows.node, hnode, hblock] at hkeep
      have hpad := h.tail.pad y (by omega) (by rwa [hyf])
      unfold byteAt at hpad
      rw [hyf, ← hkeep.1] at hpad
      rw [← hkeep.1] at hkeep
      rw [hkeep.2, hpad]
  · change m'.freeblock + need off = _
    rw [hfree, ← Nat.add_assoc off]
    omega

/-- The data does not fit: the image would be full, or the file too large. -/
def TooMuch (m : Img) (off n : ℕ) : Prop := fssize + need off < m.freeblock + need (off + n) ∨ maxfile * bsize < off + n

theorem appendLoop_ends (hO : Open sb ino entry s) (fuel : ℕ) :
    ∀ {m din tot t}, Appended ino s m0 inum off data m din tot t → tot ≤ data.length → data.length - tot ≤ fuel →
      Ends (appendLoop fuel din (off + tot) (data.drop tot)) m (fun _ => TooMuch m0 off data.length) fun r m' =>
        r.2 = off + data.length ∧ ∃ t', Appended ino s m0 inum off data m' r.1 data.length t' := by
  induction fuel with
  | zero =>
    intro m din tot t h hle hf
    obtain rfl : tot = data.length := by omega
    exact ⟨rfl,t,h⟩
  | succ fuel ih =>
    intro m din tot t h hle hf
    rw [appendLoop, List.length_drop]
    by_cases hlt : 0 < data.length - tot
    · rw [if_pos hlt]
      by_cases hbn : (off + tot) / bsize < maxfile
      · have hassert : assert ((off + tot) / bsize < maxfile) m = .ok ((),m) := by
          unfold assert
          rw [if_pos (decide_eq_true hbn), pure_ok]
        refine .seq_ok hassert ?_
        generalize hn1 : min (data.length - tot) (((off + tot) / bsize + 1) * bsize - (off + tot)) = n1
        have hblk : off + tot < ((off + tot) / bsize + 1) * bsize := by
          simp only [bsize]
          omega
        have h1 : 0 < n1 := by omega
        have h2 : off + tot + n1 ≤ ((off + tot) / bsize + 1) * bsize := by omega
        have h3 : tot + n1 ≤ data.length := by omega
        have hcost := cost_eq h.tail (fun y hy => h.mapped hy) h1 h2
        have hmono : need (off + tot + n1) ≤ need (off + data.length) := need_mono (by omega)
        have hcount := h.count
        have hE : fssize < m.freeblock + cost t.disk din ((off + tot) / bsize) → TooMuch m0 off data.length := by
          intro hc
          exact .inl (by omega)
        refine .seq ((fileBlock_ends h.fresh h.shows (h.written.open hO) hbn).mono (fun _ _ hq => hq) fun _ he => hE he) ?_
        rintro ⟨din',x⟩ m' ⟨hnsect,hcase⟩
        dsimp only at hcase ⊢
        rcases hcase with ⟨hge,hfull⟩ | ⟨hx,hx0,hfree,hino,hzero,t',ht',hblock⟩
        · have hbad : rsect x m' = .error .read := by
            unfold rsect
            rw [bind_ok get_ok, hnsect, if_neg (by omega), throw_error]
          exact (ends_of_error (bind_error hbad)).mpr (hE hfull)
        · refine .seq_ok (rsect_ok ht'.fresh hx) (.seq_ok (modify_ok _) ?_)
          have hr := h.round hO rfl h1 h2 hx hx0 hfree hino hzero ht' hblock
          rw [chunk_eq, Nat.add_assoc, List.drop_drop]
          exact ih hr h3 (by omega)
      · have hassert : assert ((off + tot) / bsize < maxfile) m = .error .assertion := by
          unfold assert
          rw [if_neg (by simpa using hbn), throw_error]
        refine (ends_of_error (bind_error hassert)).mpr (.inr ?_)
        simp only [bsize] at *
        omega
    · rw [if_neg hlt]
      obtain rfl : tot = data.length := by omega
      exact ⟨rfl,t,h⟩

end Round

end X86OsDev.Xv6.Mkfs
