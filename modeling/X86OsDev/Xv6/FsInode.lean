import X86OsDev.Xv6.FsMap

/-! # Inodes on disk and in the cache

`iupdate` writes the copy of an inode back to its place on disk and leaves the
other inodes and all other blocks as they are.
-/
namespace X86OsDev.Xv6.Fs
open Fault Memory
variable {sb : Superblock} {ip : Fin ninode} {s t : Sys}

section Dinode
variable {d d' : ℕ → Block} {i j : ℕ}

theorem iblock_inj (h1 : sb.iblock i = sb.iblock j) (h2 : i % ipb = j % ipb) : i = j := by
  unfold Superblock.iblock at h1
  have h3 : i / ipb = j / ipb := by omega
  rw [← Nat.div_add_mod i ipb, ← Nat.div_add_mod j ipb, h2, h3]

theorem dinode_congr_block (h : d' (sb.iblock j) = d (sb.iblock j)) : sb.dinode d' j = sb.dinode d j := by
  unfold Superblock.dinode
  rw [h]

theorem dinode_update_self {n : Dinode} (hn : n.Fits) :
    sb.dinode (Function.update d (sb.iblock i) ((d (sb.iblock i)).setDinode i n)) i = n := by
  unfold Superblock.dinode
  rw [Function.update_self, Block.dinode_setDinode _ _ hn]

theorem dinode_update_of_ne {n : Dinode} (h : j ≠ i) :
    sb.dinode (Function.update d (sb.iblock i) ((d (sb.iblock i)).setDinode i n)) j =
      sb.dinode d j := by
  by_cases hb : sb.iblock j = sb.iblock i
  · unfold Superblock.dinode
    rw [hb, Function.update_self, Block.dinode_setDinode_of_ne]
    exact fun hm => h (iblock_inj hb hm.symm)
  · exact dinode_congr_block (Function.update_of_ne hb _ _)

theorem dinode_fits (d : ℕ → Block) (i : ℕ) : (sb.dinode d i).Fits := Block.dinode_fits _ _

end Dinode

/-- The state after `iupdate(ip)`. -/
def Sys.flush (sb : Superblock) (s : Sys) (ip : Fin ninode) : Sys :=
  s.write (sb.iblock (s.icache ip).inum)
    ((s.disk (sb.iblock (s.icache ip).inum)).setDinode (s.icache ip).inum (s.icache ip).node)

theorem iupdate_ends {E : Stop → Prop} {Q : Unit → Sys → Prop} (L : sb.Layout)
    (hfull : E (.panic .tooBig)) (ho : 1 ≤ s.log.outstanding) (hi : (s.icache ip).inum < sb.ninodes)
    (hn : sb.iblock (s.icache ip).inum ∉ s.busy)
    (h : LogGrows sb s.log (s.flush sb ip).log → Q () (s.flush sb ip)) :
    Ends (iupdate sb ip) s E Q := by
  unfold iupdate
  refine .seq_ok get_ok ?_
  refine .seq_ok (bread_ok (iblock_lt_fssize L hi) hn) ?_
  exact bupdate_ends hfull ho (isHome_iblock L hi) h

/-- Blocks from the free map on are not touched by `iupdate`. -/
theorem flush_disk_of_ge (L : sb.Layout) (hi : (s.icache ip).inum < sb.ninodes) {c : ℕ}
    (hc : sb.bmapstart ≤ c) : (s.flush sb ip).disk c = s.disk c := by
  have := iblock_lt L hi
  exact Function.update_of_ne (by omega) _ _

theorem dinode_flush_self (hf : (s.icache ip).node.Fits) :
    sb.dinode (s.flush sb ip).disk (s.icache ip).inum = (s.icache ip).node := dinode_update_self hf

theorem dinode_flush_of_ne {j : ℕ} (h : j ≠ (s.icache ip).inum) :
    sb.dinode (s.flush sb ip).disk j = sb.dinode s.disk j := dinode_update_of_ne h

/-! ## Entries of the cache -/

/-- An assignment to the entry of an inode. -/
def Sys.withInode (s : Sys) (ip : Fin ninode) (e : Inode) : Sys := { s with icache := Function.update s.icache ip e }

theorem setInode_ok (g : Inode → Inode) : setInode ip g s = .ok ((),s.withInode ip (g (s.icache ip))) := rfl

@[simp] theorem Sys.withInode_icache (e : Inode) : (s.withInode ip e).icache ip = e := Function.update_self _ _ _

@[simp] theorem Sys.withInode_withInode (e e' : Inode) : (s.withInode ip e).withInode ip e' = s.withInode ip e' := by
  simp [Sys.withInode]

theorem acquiresleep_ok {me : Fin nproc} (hlock : (s.icache ip).lock = none) :
    acquiresleep me ip s = .ok ((),s.withInode ip { s.icache ip with lock := some me }) := by
  unfold acquiresleep
  rw [bind_ok get_ok, if_pos hlock, setInode_ok]

end X86OsDev.Xv6.Fs
