import Xv6.FileIo
import Xv6.LogCrash

/-!
# A small disk

The disk of `mkfs` with one file in its first data blocks: inode 1, direct pointers only. It is
consistent for every number of blocks and every contents, and serves as the concrete state on which
the general results are tried.
-/

namespace Xv6

theorem mkfs_layout : Layout mkfsSuperblock := by
  refine ⟨?_, ?_, ?_, ?_, ?_⟩ <;> decide

/-- A free-map block with the first `n` bits set. -/
def bitmapBlk (n : Nat) : Blk where
  data k := if k < 512 then BitVec.ofNat 8 (2 ^ min 8 (n - 8 * k) - 1) else 0
  out k hk := if_neg (by simp only [BSIZE] at hk; omega)

theorem bit_bitmapBlk (n : Nat) {j : Nat} (hj : j < 4096) : (bitmapBlk n).bit j = decide (j < n) := by
  change (if j / 8 < 512 then BitVec.ofNat 8 (2 ^ min 8 (n - 8 * (j / 8)) - 1) else 0).getLsbD (j % 8) = _
  rw [if_pos (by omega), BitVec.getLsbD_ofNat, Nat.testBit_two_pow_sub_one]
  have : j % 8 < 8 := by omega
  simp only [this, decide_true, Bool.true_and, decide_eq_decide]
  omega

def inodeBlk (ino : Nat → Dinode) : Blk where
  data k := if k < 512 then (ino (k / 64)).bytes (k % 64) else 0
  out k hk := if_neg (by simp only [BSIZE] at hk; omega)

/-- The disk of `mkfs` with the first `n` blocks in use. -/
def smallDisk (n : Nat) (ino : Nat → Dinode) (data : Nat → Blk) : Image := fun b =>
  if b = 58 then bitmapBlk n else if b = 32 then inodeBlk ino else if b < 63 then Block.zero _ else data b

theorem blockUsed_smallDisk (n : Nat) (hn : n ≤ 4096) (ino : Nat → Dinode) (data : Nat → Blk) {b : Nat}
    (hb : b < 20000) : blockUsed mkfsSuperblock (smallDisk n ino data) b = decide (b < n) := by
  change (smallDisk n ino data (b / 4096 + 58)).bit (b % 4096) = _
  unfold smallDisk
  by_cases h : b < 4096
  · rw [if_pos (by omega), Nat.mod_eq_of_lt h, bit_bitmapBlk n h]
  · rw [if_neg (by omega), if_neg (by omega), if_pos (by omega)]
    have : ¬ b < n := by omega
    simp [Block.bit, this]

theorem dinodeOf_smallDisk (n : Nat) (ino : Nat → Dinode) (data : Nat → Blk) {i : Nat} (hi : i < 8) :
    dinodeOf mkfsSuperblock (smallDisk n ino data) i = ino i := by
  change Dinode.ofBytes (smallDisk n ino data (i / 8 + 32)).data (64 * (i % 8)) = _
  refine Dinode.ofBytes_of_bytes fun k hk => ?_
  have hblk : smallDisk n ino data (i / 8 + 32) = inodeBlk ino := by
    unfold smallDisk
    rw [if_neg (by omega), if_pos (by omega)]
  rw [hblk]
  simp only [inodeBlk]
  rw [if_pos (by omega), show (64 * (i % 8) + k) / 64 = i by omega, show (64 * (i % 8) + k) % 64 = k by omega]

/-- A file of `size` bytes in the blocks `63 .. 63 + m`. -/
def fileDinode (m size : Nat) : Dinode where
  type := T_FILE
  major := 0
  minor := 0
  nlink := 1
  size := BitVec.ofNat 32 size
  addrs := fun j => if j.val < m then BitVec.ofNat 32 (63 + j) else 0

theorem addr_fileDinode {m size j : Nat} (hm : m ≤ 11) (hj : j < 13) :
    (fileDinode m size).addr j = if j < m then 63 + j else 0 := by
  have hval : j % 13 = j := Nat.mod_eq_of_lt hj
  change (if j % 13 < m then BitVec.ofNat 32 (63 + j % 13) else 0).toNat = _
  rw [hval]
  split
  · rw [BitVec.toNat_ofNat]; omega
  · rfl

theorem ptr_fileDinode {c : Image} {m size : Nat} (hm : m ≤ 11) (l : Loc) :
    ptr c (fileDinode m size) l = match l with
      | .direct j => if j.val < m then 63 + j.val else 0
      | _ => 0 := by
  have h11 : (fileDinode m size).addr 11 = 0 := by rw [addr_fileDinode hm (by decide), if_neg (by omega)]
  have h12 : (fileDinode m size).addr 12 = 0 := by rw [addr_fileDinode hm (by decide), if_neg (by omega)]
  cases l with
  | direct j => exact addr_fileDinode hm (by omega)
  | ind => exact h11
  | indEnt j => rw [ptr, h11, entry_zero]
  | dind => exact h12
  | leaf k => rw [ptr, h12, entry_zero]
  | leafEnt k j => rw [ptr, h12, entry_zero, entry_zero]

def oneInode (d : Dinode) : Table := fun i => if i = 1 then some d else none

theorem refs_oneInode {c : Image} {d : Dinode} (r : Ref) :
    refs c (oneInode d) r = if r.1 = 1 then ptr c d r.2 else 0 := by
  obtain ⟨i, l⟩ := r
  by_cases h : i = 1
  · subst h
    rw [if_pos rfl]
    exact refs_some (if_pos rfl) l
  · rw [if_neg h]
    exact refs_none (if_neg h) l

theorem owned_smallDisk {m size : Nat} (hm : m ≤ 11) (ino : Nat → Dinode) (data : Nat → Blk) :
    Owned mkfsSuperblock (smallDisk (63 + m) ino data) (oneInode (fileDinode m size)) ∅ := by
  have href : ∀ r, refs (smallDisk (63 + m) ino data) (oneInode (fileDinode m size)) r ≠ 0 →
      ∃ j : Fin 11, r = (1, .direct j) ∧ j.val < m ∧
        refs (smallDisk (63 + m) ino data) (oneInode (fileDinode m size)) r = 63 + j := by
    rintro ⟨i, l⟩ hr
    rw [refs_oneInode] at hr ⊢
    by_cases hi : i = 1
    · simp only [hi, if_true] at hr ⊢
      rw [ptr_fileDinode hm] at hr ⊢
      cases l with
      | direct j =>
        by_cases hj : j.val < m
        · exact ⟨j, rfl, hj, if_pos hj⟩
        · exact absurd (if_neg hj) hr
      | _ => exact absurd rfl hr
    · exact absurd (if_neg hi) hr
  have hmeta : mkfsSuperblock.nmeta = 63 := rfl
  refine ⟨fun r r' he hz => ?_, fun r hz => ?_, fun b hb => hb.elim, fun b hb => hb.elim, fun b hb => ?_⟩
  · obtain ⟨j, rfl, -, h1⟩ := href r hz
    obtain ⟨j', rfl, -, h2⟩ := href r' (he ▸ hz)
    rw [he, h2] at h1
    rw [show j = j' from Fin.ext (by omega)]
  · obtain ⟨j, rfl, -, h1⟩ := href r hz
    rw [h1, hmeta]
    exact ⟨by omega, by simp only [mkfsSuperblock]; omega⟩
  · have hb' : b < 20000 := hb
    rw [blockUsed_smallDisk _ (by omega) _ _ hb', hmeta]
    simp only [decide_eq_true_eq, Set.mem_empty_iff_false, false_or]
    constructor
    · intro h
      by_cases hlt : b < 63
      · exact .inl hlt
      · refine .inr ⟨(1, .direct ⟨b - 63, by omega⟩), ?_⟩
        rw [refs_oneInode, if_pos rfl, ptr_fileDinode hm]
        simp only
        rw [if_pos (by omega)]
        omega
    · rintro (h | ⟨r, rfl⟩)
      · omega
      · by_cases hz : refs (smallDisk (63 + m) ino data) (oneInode (fileDinode m size)) r = 0
        · omega
        · obtain ⟨j, -, hj, h1⟩ := href r hz
          omega

theorem card_freeBlocks_smallDisk {n : Nat} (hn : n ≤ 4096) (ino : Nat → Dinode) (data : Nat → Blk) :
    20000 - n ≤ (freeBlocks mkfsSuperblock (smallDisk n ino data)).card := by
  rw [← Nat.card_Ico]
  refine Finset.card_le_card fun b hb => ?_
  have hb' := Finset.mem_Ico.1 hb
  refine Finset.mem_filter.2 ⟨Finset.mem_range.2 hb'.2, ?_⟩
  rw [blockUsed_smallDisk n hn ino data hb'.2]
  simp only [decide_eq_false_iff_not]
  omega

theorem fileOk_smallDisk {c : Image} {m size : Nat} (hm : m ≤ 11) (hsize : size ≤ 512 * m) :
    FileOk c (fileDinode m size) := by
  have hs : (fileDinode m size).size.toNat = size := by
    simp only [fileDinode, BitVec.toNat_ofNat]
    omega
  refine ⟨by omega, fun bn hbn => ?_⟩
  have hlt : bn < 11 := by omega
  rw [locOf, if_pos hlt, ptr_fileDinode hm]
  simp only [Fin.ofNat, Nat.mod_eq_of_lt hlt]
  rw [if_pos (by omega)]
  omega

end Xv6
