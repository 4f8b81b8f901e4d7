import Xv6.Fs
import Xv6.LogCrash

/-!
# The layout of the disk

`[ boot block | super block | log | inode blocks | free bit map | data blocks ]`: the regions that
`mkfs` lays out, the dinode stored in an inode block and the bit stored in a bitmap block, and what
a store to one of them leaves alone.
-/

namespace Xv6

open Function

def Superblock.nmeta (sb : Superblock) : Nat := sb.size - sb.nblocks

theorem Superblock.nmeta_le (sb : Superblock) : sb.nmeta ≤ sb.size := Nat.sub_le _ _

theorem inodestart_le_iblock (sb : Superblock) (i : Nat) : sb.inodestart ≤ iblock sb i := Nat.le_add_left _ _

theorem bmapstart_le_bblock (sb : Superblock) (b : Nat) : sb.bmapstart ≤ bblock sb b := Nat.le_add_left _ _

structure Layout (sb : Superblock) : Prop where
  log_pos : 0 < sb.nlog
  log_le : sb.logstart + sb.nlog ≤ sb.inodestart
  inodes_lt : sb.inodestart + sb.ninodes / 8 < sb.bmapstart
  bmap_lt : sb.bmapstart + sb.size / 4096 < sb.nmeta
  size_le : sb.size ≤ 20000

namespace Layout

variable {sb : Superblock} (h : Layout sb)
include h

theorem nmeta_pos : 0 < sb.nmeta := by have := h.bmap_lt; omega

theorem iblock_lt {i : Nat} (hi : i < sb.ninodes) : iblock sb i < sb.bmapstart := by
  have := h.inodes_lt
  have : i / 8 ≤ sb.ninodes / 8 := Nat.div_le_div_right (by omega)
  unfold iblock; simp only [IPB]; omega

theorem bblock_lt {b : Nat} (hb : b < sb.size) : bblock sb b < sb.nmeta := by
  have := h.bmap_lt
  have : b / 4096 ≤ sb.size / 4096 := Nat.div_le_div_right (by omega)
  unfold bblock; simp only [BPB]; omega

theorem home_of_le {b : Nat} (hb : sb.inodestart ≤ b) : Home sb b := by
  have := h.log_le
  exact .inr (by omega)

theorem lt_fssize {b : Nat} (hb : b < sb.size) : b < FSSIZE := by
  have := h.size_le
  simp only [FSSIZE]; omega

theorem bblock_lt_size {b : Nat} (hb : b < sb.size) : bblock sb b < sb.size := by
  have := h.bblock_lt hb
  have := sb.nmeta_le
  omega

theorem iblock_lt_size {i : Nat} (hi : i < sb.ninodes) : iblock sb i < sb.size := by
  have := h.iblock_lt hi
  have := h.bmap_lt
  have := sb.nmeta_le
  omega

theorem logArea : LogArea sb := by
  have := h.log_le
  have := h.inodes_lt
  have := h.bmap_lt
  have := sb.nmeta_le
  have := h.size_le
  exact ⟨h.log_pos, by simp only [FSSIZE]; omega⟩

end Layout

/-! ### Dinodes -/

namespace Dinode

@[simp] theorem addr_setAddr (d : Dinode) {j a : Nat} (hj : j < 13) (ha : a < 2 ^ 32) (k : Nat) (hk : k < 13) :
    (d.setAddr j a).addr k = if k = j then a else d.addr k := by
  simp only [addr, setAddr]
  by_cases hkj : k = j
  · subst hkj
    rw [update_self, if_pos rfl, BitVec.toNat_ofNat, Nat.mod_eq_of_lt ha]
  · have hne : Fin.ofNat 13 k ≠ Fin.ofNat 13 j := by
      intro he
      have := congrArg Fin.val he
      simp only [Fin.ofNat] at this
      omega
    rw [update_of_ne hne, if_neg hkj]

@[simp] theorem addr_fresh (t : BitVec 16) (j : Nat) : (fresh t).addr j = 0 := rfl

theorem ext_addr {d d' : Dinode} (ht : d.type = d'.type) (hma : d.major = d'.major)
    (hmi : d.minor = d'.minor) (hl : d.nlink = d'.nlink) (hs : d.size = d'.size)
    (ha : ∀ j, j < 13 → d.addr j = d'.addr j) : d = d' := by
  refine Dinode.ext ht hma hmi hl hs (funext fun j => BitVec.eq_of_toNat_eq ?_)
  have := ha j j.isLt
  simpa [addr, Fin.ofNat_val_eq_self] using this

theorem ofBytes_of_bytes {m : Nat → Byte} {p : Nat} {d : Dinode} (h : ∀ k, k < 64 → m (p + k) = d.bytes k) :
    ofBytes m p = d := by
  refine Dinode.ext (u16_leByte fun i hi => ?_) (u16_leByte fun i hi => ?_) (u16_leByte fun i hi => ?_)
    (u16_leByte fun i hi => ?_) (u32_leByte fun i hi => ?_) (funext fun j => u32_leByte fun i hi => ?_)
  · rw [h i (by omega)]; simp only [bytes, hi, if_true]
  · rw [Nat.add_assoc, h _ (by omega)]
    rw [bytes, if_neg (by omega), if_pos (by omega)]; congr 1; omega
  · rw [Nat.add_assoc, h _ (by omega)]
    rw [bytes, if_neg (by omega), if_neg (by omega), if_pos (by omega)]; congr 1; omega
  · rw [Nat.add_assoc, h _ (by omega)]
    rw [bytes, if_neg (by omega), if_neg (by omega), if_neg (by omega), if_pos (by omega)]; congr 1; omega
  · rw [Nat.add_assoc, h _ (by omega)]
    rw [bytes, if_neg (by omega), if_neg (by omega), if_neg (by omega), if_neg (by omega), if_pos (by omega)]
    congr 1; omega
  · have hj := j.isLt
    have e1 : (12 + 4 * j.val + i - 12) / 4 = j := by omega
    have e2 : (12 + 4 * j.val + i - 12) % 4 = i := by omega
    rw [show p + 12 + 4 * j.val + i = p + (12 + 4 * j.val + i) by omega, h _ (by omega)]
    rw [bytes, if_neg (by omega), if_neg (by omega), if_neg (by omega), if_neg (by omega), if_neg (by omega), e1, e2,
      addr, Fin.ofNat_val_eq_self]

theorem bytes_ofBytes (m : Nat → Byte) (p : Nat) {k : Nat} (hk : k < 64) : (ofBytes m p).bytes k = m (p + k) := by
  unfold Dinode.bytes
  split
  · next h => exact leByte_u16 m p h
  split
  · next h1 h2 => rw [Dinode.ofBytes, leByte_u16 m (p + 2) (by omega), show p + 2 + (k - 2) = p + k by omega]
  split
  · next h1 h2 h3 => rw [Dinode.ofBytes, leByte_u16 m (p + 4) (by omega), show p + 4 + (k - 4) = p + k by omega]
  split
  · next h1 h2 h3 h4 => rw [Dinode.ofBytes, leByte_u16 m (p + 6) (by omega), show p + 6 + (k - 6) = p + k by omega]
  split
  · next h1 h2 h3 h4 h5 => rw [Dinode.ofBytes, leByte_u32 m (p + 8) (by omega), show p + 8 + (k - 8) = p + k by omega]
  · next h1 h2 h3 h4 h5 =>
    have hj : ((k - 12) / 4) % 13 = (k - 12) / 4 := Nat.mod_eq_of_lt (by omega)
    simp only [Dinode.addr, Dinode.ofBytes, Fin.ofNat, hj]
    rw [leByte_u32 m _ (by omega)]
    congr 1
    omega

theorem ofBytes_congr {m m' : Nat → Byte} {p : Nat} (h : ∀ k, k < 64 → m (p + k) = m' (p + k)) :
    ofBytes m p = ofBytes m' p := by
  have h' : ∀ q k, q + k < 64 → m (p + q + k) = m' (p + q + k) := fun q k hk => by
    rw [Nat.add_assoc]; exact h _ hk
  refine Dinode.ext (u16_congr fun i hi => h i (by omega)) (u16_congr fun i hi => h' 2 i (by omega))
    (u16_congr fun i hi => h' 4 i (by omega)) (u16_congr fun i hi => h' 6 i (by omega))
    (u32_congr fun i hi => h' 8 i (by omega)) (funext fun j => u32_congr fun i hi => ?_)
  have hj := j.isLt
  have := h' (12 + 4 * j) i (by omega)
  rwa [← Nat.add_assoc] at this

end Dinode

variable {sb : Superblock}

/-- The inode block after `iupdate`. -/
def putDinode (sb : Superblock) (c : Image) (i : Nat) (d : Dinode) : Image :=
  update c (iblock sb i) ((c (iblock sb i)).move (islot i) d.bytes 64)

theorem dinodeOf_putDinode (c : Image) (i : Nat) (d : Dinode) (j : Nat) :
    dinodeOf sb (putDinode sb c i d) j = if j = i then d else dinodeOf sb c j := by
  have hslot : ∀ k, islot k + 64 ≤ 512 := fun k => by unfold islot; simp only [IPB]; omega
  unfold dinodeOf putDinode
  by_cases hji : j = i
  · subst hji
    rw [if_pos rfl, update_self]
    refine Dinode.ofBytes_of_bytes fun k hk => ?_
    have := hslot j
    rw [Block.move_data_in _ _ (by omega) (by omega) (by simp only [BSIZE]; omega)]
    congr 1; omega
  · rw [if_neg hji]
    by_cases hb : iblock sb j = iblock sb i
    · rw [hb, update_self]
      refine Dinode.ofBytes_congr fun k hk => Block.move_data_out _ _ ?_
      unfold iblock at hb
      unfold islot
      simp only [IPB] at hb ⊢
      omega
    · rw [update_of_ne hb]

theorem putDinode_self (c : Image) (i : Nat) : putDinode sb c i (dinodeOf sb c i) = c := by
  rw [putDinode]
  have hslot : islot i + 64 ≤ 512 := by unfold islot; simp only [IPB]; omega
  have hblk : (c (iblock sb i)).move (islot i) (dinodeOf sb c i).bytes 64 = c (iblock sb i) := by
    refine Block.ext fun p hp => ?_
    by_cases hin : islot i ≤ p ∧ p < islot i + 64
    · rw [Block.move_data_in _ _ hin.1 hin.2 hp, dinodeOf, Dinode.bytes_ofBytes _ _ (by omega), Nat.add_sub_cancel' hin.1]
    · exact Block.move_data_out _ _ (by omega)
  rw [hblk, update_eq_self]
theorem putDinode_idem (c : Image) (i : Nat) (d d' : Dinode) : putDinode sb (putDinode sb c i d) i d' = putDinode sb c i d' := by
  have hblk : ((c (iblock sb i)).move (islot i) d.bytes 64).move (islot i) d'.bytes 64 =
    (c (iblock sb i)).move (islot i) d'.bytes 64 := by
    refine Block.ext fun p hp => ?_
    by_cases hin : islot i ≤ p ∧ p < islot i + 64
    · rw [Block.move_data_in _ _ hin.1 hin.2 hp, Block.move_data_in _ _ hin.1 hin.2 hp]
    · rw [Block.move_data_out _ _ (by omega), Block.move_data_out _ _ (by omega), Block.move_data_out _ _ (by omega)]
  simp only [putDinode, update_self, update_idem, hblk]

theorem dinodeOf_update {c : Image} {b : Nat} {v : Blk} {i : Nat} (h : b ≠ iblock sb i) :
    dinodeOf sb (update c b v) i = dinodeOf sb c i := by
  unfold dinodeOf
  rw [update_of_ne h.symm]

theorem dinodeOf_congr {c c' : Image} {i : Nat} (h : c' (iblock sb i) = c (iblock sb i)) :
    dinodeOf sb c' i = dinodeOf sb c i := by
  unfold dinodeOf; rw [h]

/-! ### The free map -/

/-- The bit of block `b` in the free map. -/
def blockUsed (sb : Superblock) (c : Image) (b : Nat) : Bool := (c (bblock sb b)).bit (b % BPB)

theorem blockUsed_congr {c c' : Image} {b : Nat} (h : c' (bblock sb b) = c (bblock sb b)) :
    blockUsed sb c' b = blockUsed sb c b := by
  unfold blockUsed; rw [h]

theorem bblock_eq_of_lt {k bi : Nat} (hbi : bi < 4096) : bblock sb (k * BPB + bi) = bblock sb (k * BPB) := by
  unfold bblock; simp only [BPB]; omega

theorem blockUsed_mul_add {c : Image} {k bi : Nat} (hbi : bi < 4096) :
    blockUsed sb c (k * BPB + bi) = (c (bblock sb (k * BPB))).bit bi := by
  rw [blockUsed, bblock_eq_of_lt hbi]
  congr 1; simp only [BPB]; omega

theorem blockUsed_setBit (c : Image) (a b : Nat) :
    blockUsed sb (update c (bblock sb a) ((c (bblock sb a)).setBit (a % BPB))) b =
      (blockUsed sb c b || decide (b = a)) := by
  unfold blockUsed
  by_cases h : bblock sb b = bblock sb a
  · rw [h, update_self, Block.bit_setBit _ (by simp only [BPB, BSIZE]; omega)]
    congr 1
    unfold bblock at h
    simp only [BPB, decide_eq_decide] at h ⊢
    omega
  · have hne : b ≠ a := fun e => h (e ▸ rfl)
    rw [update_of_ne h]
    simp [hne]

theorem blockUsed_clearBit (c : Image) (a b : Nat) :
    blockUsed sb (update c (bblock sb a) ((c (bblock sb a)).clearBit (a % BPB))) b =
      (blockUsed sb c b && !decide (b = a)) := by
  unfold blockUsed
  by_cases h : bblock sb b = bblock sb a
  · rw [h, update_self, Block.bit_clearBit _ (by simp only [BPB, BSIZE]; omega)]
    congr 2
    unfold bblock at h
    simp only [BPB, decide_eq_decide] at h ⊢
    omega
  · have hne : b ≠ a := fun e => h (e ▸ rfl)
    rw [update_of_ne h]
    simp [hne]

end Xv6
