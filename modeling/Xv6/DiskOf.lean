import Xv6.InodeRun
import Xv6.Store

/-!
# The disk that holds given files

`diskOf fs` is the disk of `mkfs` with the files `fs` as the inodes 1, 2, …: the blocks of a file follow
one another, its data first, then its indirect block, its double-indirect block and the leaves of that.
The disk is consistent whatever the files are, as long as they fit, and holds the store that consists of
them. The bytes of a file are given by a function, so that a block of a large file can be computed
without the rest of it.
-/

namespace Xv6

structure FileImage where
  type : BitVec 16
  major : BitVec 16
  minor : BitVec 16
  nlink : BitVec 16
  len : Nat
  data : Nat → Byte

namespace FileImage

def node (x : FileImage) : Node := ⟨x.type, x.major, x.minor, x.nlink, (List.range x.len).map x.data⟩

def ofNode (nd : Node) : FileImage := ⟨nd.type, nd.major, nd.minor, nd.nlink, nd.bytes.length, fun p => nd.bytes.getD p 0⟩

def blocks (x : FileImage) : Nat := (x.len + 511) / 512

end FileImage

/-- The number of blocks that a file of `m` data blocks takes. -/
def span (m : Nat) : Nat := m + (if m ≤ 11 then 0 else 1) + if m ≤ 139 then 0 else 1 + (m - 139 + 127) / 128

/-- Data block `bn` of a file of `m` blocks that begins at block `a`. -/
def dataPlace (a m bn : Nat) : Nat := if bn < m then a + bn else 0

/-- The leaf `k` of the double-indirect block. -/
def leafPlace (a m k : Nat) : Nat := if 139 + 128 * k < m then a + m + 2 + k else 0

def placeOf (a m : Nat) : Loc → Nat
  | .direct j => dataPlace a m j
  | .ind => if 11 < m then a + m else 0
  | .indEnt j => dataPlace a m (11 + j)
  | .dind => if 139 < m then a + m + 1 else 0
  | .leaf k => leafPlace a m k
  | .leafEnt k j => dataPlace a m (139 + 128 * k + j)

/-- The inode of a file that begins at block `a`. -/
def FileImage.dinode (nd : FileImage) (a : Nat) : Dinode where
  type := nd.type
  major := nd.major
  minor := nd.minor
  nlink := nd.nlink
  size := BitVec.ofNat 32 nd.len
  addrs j := BitVec.ofNat 32 (if j.val < 11 then dataPlace a nd.blocks j else if j.val = 11 then placeOf a nd.blocks .ind else
    placeOf a nd.blocks .dind)

def pointerBlk (p : Nat → Nat) : Blk where
  data k := if k < 512 then leByte (p (k / 4) % 2 ^ 32) (k % 4) else 0
  out _ hk := if_neg (Nat.not_lt.2 hk)

theorem u32_pointerBlk {p : Nat → Nat} {e : Nat} (he : e < 128) (hp : p e < 2 ^ 32) :
    (u32 (pointerBlk p).data (4 * e)).toNat = p e := by
  have h : u32 (pointerBlk p).data (4 * e) = BitVec.ofNat 32 (p e) := u32_leByte fun i hi => by
    simp only [pointerBlk]
    rw [if_pos (by omega), show (4 * e + i) / 4 = e by omega, show (4 * e + i) % 4 = i by omega, BitVec.toNat_ofNat]
  rw [h, BitVec.toNat_ofNat, Nat.mod_eq_of_lt hp]

/-- Block `o` of the bytes of a file. -/
def chunkBlk (data : Nat → Byte) (o : Nat) : Blk where
  data k := if k < 512 then data (512 * o + k) else 0
  out _ hk := if_neg (Nat.not_lt.2 hk)

/-- The block at distance `o` from the beginning of a file. -/
def FileImage.blk (nd : FileImage) (a o : Nat) : Blk :=
  if o < nd.blocks then chunkBlk nd.data o
  else if o = nd.blocks then pointerBlk fun e => dataPlace a nd.blocks (11 + e)
  else if o = nd.blocks + 1 then pointerBlk (leafPlace a nd.blocks)
  else pointerBlk fun e => dataPlace a nd.blocks (139 + 128 * (o - nd.blocks - 2) + e)

/-- Where file `k` begins, if the first one begins at `a`. -/
def baseAt : List FileImage → (a k : Nat) → Nat
  | _, a, 0 => a
  | [], a, _ + 1 => a
  | nd :: fs, a, k + 1 => baseAt fs (a + span nd.blocks) k

def endAt : List FileImage → (a : Nat) → Nat
  | [], a => a
  | nd :: fs, a => endAt fs (a + span nd.blocks)

def fileBlk : List FileImage → (a b : Nat) → Blk
  | [], _, _ => Block.zero _
  | nd :: fs, a, b => if b < a + span nd.blocks then nd.blk a (b - a) else fileBlk fs (a + span nd.blocks) b

def inodeAt : List FileImage → (a k : Nat) → Dinode
  | [], _, _ => .fresh 0
  | nd :: _, a, 0 => nd.dinode a
  | nd :: fs, a, k + 1 => inodeAt fs (a + span nd.blocks) k

def diskOf (fs : List FileImage) : Image := fun b =>
  if b < 32 then Block.zero _
  else if b < 58 then inodeBlk fun i => if 8 * (b - 32) + i = 0 then .fresh 0 else inodeAt fs 63 (8 * (b - 32) + i - 1)
  else if b < 63 then bitmapBlk (endAt fs 63 - 4096 * (b - 58))
  else fileBlk fs 63 b

structure Fits (fs : List FileImage) : Prop where
  count : fs.length < 200
  type : ∀ nd ∈ fs, nd.type ≠ 0
  size : ∀ nd ∈ fs, nd.len ≤ 16523 * 512
  total : endAt fs 63 ≤ 20000

section

variable {fs : List FileImage} {nd : FileImage} {a b k o m : Nat} {c : Image}

/-! ### One file -/

theorem placeOf_bounds (l : Loc) (h : placeOf a m l ≠ 0) : a ≤ placeOf a m l ∧ placeOf a m l < a + span m := by
  unfold span
  cases l with
  | direct j =>
    simp only [placeOf, dataPlace] at h ⊢
    split at h <;> rename_i hc
    · rw [if_pos hc]; omega
    · exact absurd rfl h
  | ind =>
    simp only [placeOf] at h ⊢
    split at h <;> rename_i hc
    · rw [if_pos hc, if_neg (not_le.2 hc)]; omega
    · exact absurd rfl h
  | indEnt j =>
    simp only [placeOf, dataPlace] at h ⊢
    split at h <;> rename_i hc
    · rw [if_pos hc]; omega
    · exact absurd rfl h
  | dind =>
    simp only [placeOf] at h ⊢
    split at h <;> rename_i hc
    · rw [if_pos hc, if_neg (by omega), if_neg (by omega)]; omega
    · exact absurd rfl h
  | leaf k =>
    simp only [placeOf, leafPlace] at h ⊢
    split at h <;> rename_i hc
    · rw [if_pos hc, if_neg (by omega), if_neg (by omega)]; omega
    · exact absurd rfl h
  | leafEnt k j =>
    simp only [placeOf, dataPlace] at h ⊢
    split at h <;> rename_i hc
    · rw [if_pos hc]; omega
    · exact absurd rfl h

theorem placeOf_data {bn : Nat} (hbn : bn < 16523) : placeOf a m (locOf bn) = dataPlace a m bn := by
  unfold locOf
  split
  · next h => simp only [placeOf, Fin.ofNat, Nat.mod_eq_of_lt h]
  · split
    · next h1 h2 =>
      have hval : 11 + (bn - 11) % 128 = bn := by omega
      simp only [placeOf, Fin.ofNat, hval]
    · next h1 h2 =>
      have hval : 139 + 128 * ((bn - 139) / 128 % 128) + (bn - 139) % 128 % 128 = bn := by omega
      simp only [placeOf, Fin.ofNat, hval]

def locAt (m o : Nat) : Loc :=
  if o < m then locOf o else if o = m then .ind else if o = m + 1 then .dind else .leaf
    ⟨(o - m - 2) % 128, Nat.mod_lt _ (by decide)⟩

theorem placeOf_locAt (hm : m ≤ 16523) (ho : o < span m) : placeOf a m (locAt m o) = a + o := by
  unfold locAt
  unfold span at ho
  split
  · next h => rw [placeOf_data (by omega), dataPlace, if_pos h]
  · next h1 =>
    split at ho
    · split at ho
      · omega
      · omega
    · next h11 =>
      split
      · next h => rw [placeOf, if_pos (by omega), h]
      · next h2 =>
        split at ho
        · omega
        · next h139 =>
          split
          · next h => rw [placeOf, if_pos (by omega), h, Nat.add_assoc]
          · next h3 =>
            simp only [placeOf, leafPlace]
            rw [Nat.mod_eq_of_lt (by omega), if_pos (by omega)]
            omega

theorem locAt_placeOf (l : Loc) (h : placeOf a m l ≠ 0) : locAt m (placeOf a m l - a) = l := by
  unfold locAt
  by_cases hd : l.isData = true
  · obtain ⟨bn, hbn, rfl⟩ := exists_locOf hd
    rw [placeOf_data hbn, dataPlace] at h ⊢
    split at h
    · next hlt => rw [if_pos hlt, Nat.add_sub_cancel_left, if_pos hlt]
    · exact absurd rfl h
  · cases l with
    | ind =>
      rw [placeOf] at h ⊢
      split at h <;> rename_i hc
      · rw [if_pos hc, Nat.add_sub_cancel_left, if_neg (lt_irrefl m), if_pos rfl]
      · exact absurd rfl h
    | dind =>
      rw [placeOf] at h ⊢
      split at h <;> rename_i hc
      · rw [if_pos hc, if_neg (by omega), if_neg (by omega), if_pos (by omega)]
      · exact absurd rfl h
    | leaf k =>
      rw [placeOf, leafPlace] at h ⊢
      split at h <;> rename_i hc
      · rw [if_pos hc, if_neg (by omega), if_neg (by omega), if_neg (by omega)]
        congr 1
        refine Fin.ext ?_
        dsimp only
        omega
      · exact absurd rfl h
    | _ => exact absurd rfl hd

structure Laid (nd : FileImage) (a : Nat) (c : Image) : Prop where
  pos : 0 < a
  lt : a + span nd.blocks < 2 ^ 32
  blk : ∀ o < span nd.blocks, c (a + o) = nd.blk a o

theorem FileImage.addr_dinode (h : a + span nd.blocks < 2 ^ 32) {j : Nat} (hj : j < 13) : (nd.dinode a).addr j =
    if j < 11 then dataPlace a nd.blocks j else if j = 11 then placeOf a nd.blocks .ind else placeOf a nd.blocks .dind := by
  have hval : j % 13 = j := Nat.mod_eq_of_lt hj
  have hlt : ∀ l, placeOf a nd.blocks l < 2 ^ 32 := fun l => by
    by_cases hz : placeOf a nd.blocks l = 0
    · omega
    · have := (placeOf_bounds l hz).2
      omega
  change (BitVec.ofNat 32 (if j % 13 < 11 then dataPlace a nd.blocks (j % 13) else if j % 13 =
    11 then placeOf a nd.blocks .ind else
    placeOf a nd.blocks .dind)).toNat = _
  rw [hval, BitVec.toNat_ofNat]
  refine Nat.mod_eq_of_lt ?_
  split
  · next hj => exact hlt (.direct ⟨j, hj⟩)
  · split
    · exact hlt .ind
    · exact hlt .dind

theorem dataPlace_lt (h : a + span m < 2 ^ 32) (bn : Nat) : dataPlace a m bn < 2 ^ 32 := by
  unfold dataPlace
  unfold span at h
  split <;> omega

theorem Laid.ptr_eq (h : Laid nd a c) (hm : nd.blocks ≤ 16523) (l : Loc) : ptr c (nd.dinode a) l = placeOf a nd.blocks l := by
  have hpos := h.pos
  have hlt := h.lt
  have h11 : (nd.dinode a).addr 11 = placeOf a nd.blocks .ind := FileImage.addr_dinode hlt (by decide)
  have h12 : (nd.dinode a).addr 12 = placeOf a nd.blocks .dind := FileImage.addr_dinode hlt (by decide)
  -- the two pointer blocks and the leaves
  have hind : ∀ {e : Nat}, e < 128 → entry c (placeOf a nd.blocks .ind) e = dataPlace a nd.blocks (11 + e) := fun {e} he => by
    rw [placeOf]
    split
    · next hc =>
      have hspan : nd.blocks < span nd.blocks := by
        unfold span
        rw [if_neg (by omega)]
        omega
      rw [entry, if_neg (by omega), h.blk _ hspan, FileImage.blk, if_neg (lt_irrefl _), if_pos rfl]
      exact u32_pointerBlk (p := fun e => dataPlace a nd.blocks (11 + e)) he (dataPlace_lt hlt _)
    · rw [entry_zero, dataPlace, if_neg (by omega)]
  have hleaf_lt : ∀ k, leafPlace a nd.blocks k < 2 ^ 32 := fun k => by
    unfold leafPlace
    unfold span at hlt
    split
    · next hc =>
      rw [if_neg (by omega), if_neg (by omega)] at hlt
      omega
    · decide
  have hdind : ∀ {k : Nat}, k < 128 → entry c (placeOf a nd.blocks .dind) k = leafPlace a nd.blocks k := fun {k} hk => by
    rw [placeOf]
    split
    · next hc =>
      have hspan : nd.blocks + 1 < span nd.blocks := by
        unfold span
        rw [if_neg (by omega), if_neg (by omega)]
        omega
      rw [entry, if_neg (by omega), Nat.add_assoc, h.blk _ hspan, FileImage.blk, if_neg (by omega), if_neg (by omega), if_pos rfl]
      exact u32_pointerBlk hk (hleaf_lt k)
    · rw [entry_zero, leafPlace, if_neg (by omega)]
  have hent : ∀ {k e : Nat}, k < 128 → e < 128 → entry c (leafPlace a nd.blocks k) e = dataPlace a
    nd.blocks (139 + 128 * k + e) :=
    fun {k e} hk he => by
      rw [leafPlace]
      split
      · next hc =>
        have hspan : nd.blocks + 2 + k < span nd.blocks := by
          unfold span
          rw [if_neg (by omega), if_neg (by omega)]
          omega
        rw [entry, if_neg (by omega), show a + nd.blocks + 2 + k = a + (nd.blocks + 2 + k) by omega, h.blk _ hspan, FileImage.blk,
          if_neg (by omega), if_neg (by omega), if_neg (by omega), show nd.blocks + 2 + k - nd.blocks - 2 = k by omega]
        exact u32_pointerBlk (p := fun e => dataPlace a nd.blocks (139 + 128 * k + e)) he (dataPlace_lt hlt _)
      · rw [entry_zero, dataPlace, if_neg (by omega)]
  cases l with
  | direct j => rw [ptr, FileImage.addr_dinode hlt (by omega), if_pos j.isLt, placeOf]
  | ind => exact h11
  | indEnt j => rw [ptr, h11, hind j.isLt, placeOf]
  | dind => exact h12
  | leaf k => rw [ptr, h12, hdind k.isLt, placeOf]
  | leafEnt k j => rw [ptr, h12, hdind k.isLt, hent k.isLt j.isLt, placeOf]

theorem Laid.contents_eq (h : Laid nd a c) (hs : nd.len ≤ 16523 * 512) : contents c (nd.dinode a) = nd.node.bytes := by
  have hsize : (nd.dinode a).size.toNat = nd.len := by
    simp only [FileImage.dinode, BitVec.toNat_ofNat]
    omega
  have hpos := h.pos
  have hlen : nd.node.bytes.length = nd.len := by simp [FileImage.node]
  refine List.ext_getElem (by rw [length_contents, hsize, hlen]) fun p hp hp' => ?_
  have hblk : p / 512 < nd.blocks := by
    unfold FileImage.blocks
    omega
  rw [contents_getElem, byteAt, h.ptr_eq (by unfold FileImage.blocks; omega), placeOf_data (by omega),
    dataPlace, if_pos hblk, if_neg (by omega),
    h.blk _ (by unfold span; omega), FileImage.blk, if_pos hblk]
  change (if p % 512 < 512 then nd.data (512 * (p / 512) + p % 512) else 0) = _
  rw [if_pos (by omega), Nat.div_add_mod]
  simp [FileImage.node]

theorem Laid.fileOk (h : Laid nd a c) (hs : nd.len ≤ 16523 * 512) : FileOk c (nd.dinode a) := by
  have hsize : (nd.dinode a).size.toNat = nd.len := by
    simp only [FileImage.dinode, BitVec.toNat_ofNat]
    omega
  have hpos := h.pos
  refine ⟨by omega, fun bn hbn => ?_⟩
  have hblk : bn < nd.blocks := by
    unfold FileImage.blocks
    omega
  rw [h.ptr_eq (by unfold FileImage.blocks; omega), placeOf_data (by omega), dataPlace, if_pos hblk]
  omega

/-! ### All files -/

theorem le_baseAt (fs : List FileImage) (a k : Nat) : a ≤ baseAt fs a k := by
  fun_induction baseAt fs a k with
  | case1 => exact Nat.le_refl _
  | case2 => exact Nat.le_refl _
  | case3 a nd fs k ih => omega

theorem le_endAt (fs : List FileImage) (a : Nat) : a ≤ endAt fs a := by
  fun_induction endAt fs a with
  | case1 => exact Nat.le_refl _
  | case2 a nd fs ih => omega

theorem inodeAt_eq (h : fs[k]? = some nd) : inodeAt fs a k = nd.dinode (baseAt fs a k) := by
  induction fs generalizing a k with
  | nil => cases h
  | cons f fs ih =>
    cases k with
    | zero =>
      cases h
      rfl
    | succ k => exact ih h

theorem inodeAt_none (h : fs[k]? = none) : inodeAt fs a k = .fresh 0 := by
  induction fs generalizing a k with
  | nil => cases k <;> rfl
  | cons f fs ih =>
    cases k with
    | zero => cases h
    | succ k => exact ih h

theorem fileBlk_eq (h : fs[k]? = some nd) (ho : o < span nd.blocks) : fileBlk fs a
    (baseAt fs a k + o) = nd.blk (baseAt fs a k) o := by
  induction fs generalizing a k with
  | nil => cases h
  | cons f fs ih =>
    cases k with
    | zero =>
      cases h
      rw [baseAt, fileBlk, if_pos (by omega), Nat.add_sub_cancel_left]
    | succ k =>
      have := le_baseAt fs (a + span f.blocks) k
      rw [baseAt, fileBlk, if_neg (by omega)]
      exact ih h

theorem baseAt_end (h : fs[k]? = some nd) : baseAt fs a k + span nd.blocks ≤ endAt fs a := by
  induction fs generalizing a k with
  | nil => cases h
  | cons f fs ih =>
    cases k with
    | zero =>
      cases h
      exact le_endAt fs _
    | succ k => exact ih h

theorem baseAt_lt {k' : Nat} (h : fs[k]? = some nd) (hk : k < k') : baseAt fs a k + span nd.blocks ≤ baseAt fs a k' := by
  induction fs generalizing a k k' with
  | nil => cases h
  | cons f fs ih =>
    obtain ⟨k', rfl⟩ : ∃ j, k' = j + 1 := ⟨k' - 1, by omega⟩
    cases k with
    | zero =>
      cases h
      exact le_baseAt fs _ k'
    | succ k => exact ih h (by omega)

theorem exists_baseAt (h1 : a ≤ b) (h2 : b < endAt fs a) :
    ∃ k nd, fs[k]? = some nd ∧ baseAt fs a k ≤ b ∧ b < baseAt fs a k + span nd.blocks := by
  induction fs generalizing a with
  | nil =>
    rw [endAt] at h2
    omega
  | cons f fs ih =>
    by_cases hb : b < a + span f.blocks
    · exact ⟨0, f, rfl, h1, hb⟩
    · obtain ⟨k, nd, hk, h3, h4⟩ := ih (a := a + span f.blocks) (by omega) h2
      exact ⟨k + 1, nd, hk, h3, h4⟩

/-! ### The disk -/

theorem blockUsed_diskOf (h : endAt fs 63 ≤ 20000) (hb : b < 20000) : blockUsed mkfsSuperblock
    (diskOf fs) b = decide (b < endAt fs 63) := by
  have hblk : diskOf fs (b / 4096 + 58) = bitmapBlk (endAt fs 63 - 4096 * (b / 4096 + 58 - 58)) := by
    unfold diskOf
    rw [if_neg (by omega), if_neg (by omega), if_pos (by omega)]
  change (diskOf fs (b / 4096 + 58)).bit (b % 4096) = _
  rw [hblk, bit_bitmapBlk _ (by omega), decide_eq_decide]
  omega

theorem dinodeOf_diskOf {i : Nat} (hi : i < 200) :
    dinodeOf mkfsSuperblock (diskOf fs) i = if i = 0 then .fresh 0 else inodeAt fs 63 (i - 1) := by
  change Dinode.ofBytes (diskOf fs (i / 8 + 32)).data (64 * (i % 8)) = _
  refine Dinode.ofBytes_of_bytes fun k hk => ?_
  have hblk : diskOf fs (i / 8 + 32) = inodeBlk fun j =>
      if 8 * (i / 8 + 32 - 32) + j = 0 then .fresh 0 else inodeAt fs 63 (8 * (i / 8 + 32 - 32) + j - 1) := by
    unfold diskOf
    rw [if_neg (by omega), if_pos (by omega)]
  rw [hblk]
  simp only [inodeBlk]
  rw [if_pos (by omega), show (64 * (i % 8) + k) % 64 = k by omega,
    show 8 * (i / 8 + 32 - 32) + (64 * (i % 8) + k) / 64 = i by omega]

def tableOf (fs : List FileImage) : Table := fun i =>
  if i = 0 then none else (fs[i - 1]?).map fun nd => nd.dinode (baseAt fs 63 (i - 1))

theorem diskTable_diskOf (h : Fits fs) : diskTable mkfsSuperblock (diskOf fs) = tableOf fs := by
  funext i
  have hn : mkfsSuperblock.ninodes = 200 := rfl
  have hcount := h.count
  unfold diskTable tableOf
  rw [hn]
  by_cases h0 : i = 0
  · rw [if_pos h0, if_neg (by omega)]
  rw [if_neg h0]
  by_cases hi : i < 200
  · rw [dinodeOf_diskOf hi, if_neg h0]
    cases hk : fs[i - 1]? with
    | none =>
      rw [inodeAt_none hk]
      exact if_neg fun hc => hc.2.2 rfl
    | some nd =>
      rw [inodeAt_eq hk]
      exact if_pos ⟨by omega, hi, h.type nd (List.mem_of_getElem? hk)⟩
  · rw [List.getElem?_eq_none (by omega)]
    exact if_neg fun hc => hi hc.2.1

theorem Fits.blocks_le (h : Fits fs) (hk : fs[k]? = some nd) : nd.blocks ≤ 16523 := by
  have := h.size nd (List.mem_of_getElem? hk)
  unfold FileImage.blocks
  omega

theorem Fits.laid (h : Fits fs) (hk : fs[k]? = some nd) : Laid nd (baseAt fs 63 k) (diskOf fs) := by
  have h1 := le_baseAt fs 63 k
  have h2 := baseAt_end (a := 63) hk
  have h3 := h.total
  refine ⟨by omega, by omega, fun o ho => ?_⟩
  unfold diskOf
  rw [if_neg (by omega), if_neg (by omega), if_neg (by omega), fileBlk_eq hk ho]

theorem Fits.refs_eq (h : Fits fs) (hk : fs[k]? = some nd) (l : Loc) :
    refs (diskOf fs) (tableOf fs) (k + 1, l) = placeOf (baseAt fs 63 k) nd.blocks l := by
  have htab : tableOf fs (k + 1) = some (nd.dinode (baseAt fs 63 k)) := by
    rw [tableOf, if_neg (by omega), Nat.add_sub_cancel, hk, Option.map_some]
  rw [refs_some htab, (h.laid hk).ptr_eq (h.blocks_le hk)]

theorem Fits.refs_ne (h : Fits fs) {r : Ref} (hr : refs (diskOf fs) (tableOf fs) r ≠ 0) :
    ∃ k nd, fs[k]? = some nd ∧ r.1 = k + 1 ∧ refs (diskOf fs) (tableOf fs) r = placeOf (baseAt fs 63 k) nd.blocks r.2 := by
  obtain ⟨i, l⟩ := r
  cases ht : tableOf fs i with
  | none => exact absurd (refs_none ht l) hr
  | some d =>
    unfold tableOf at ht
    split at ht
    · cases ht
    · next h0 =>
      obtain ⟨nd, hk, -⟩ := Option.map_eq_some_iff.1 ht
      obtain ⟨k, rfl⟩ : ∃ k, i = k + 1 := ⟨i - 1, by omega⟩
      exact ⟨k, nd, hk, rfl, h.refs_eq hk l⟩

theorem Fits.owned (h : Fits fs) : Owned mkfsSuperblock (diskOf fs) (tableOf fs) ∅ := by
  have hmeta : mkfsSuperblock.nmeta = 63 := rfl
  have htotal := h.total
  refine ⟨fun r r' he hz => ?_, fun r hz => ?_, fun b hb => hb.elim, fun b hb => hb.elim, fun b hb => ?_⟩
  · obtain ⟨k, nd, hk, h1, h2⟩ := h.refs_ne hz
    obtain ⟨k', nd', hk', h1', h2'⟩ := h.refs_ne (he ▸ hz)
    have hp : placeOf (baseAt fs 63 k) nd.blocks r.2 = placeOf (baseAt fs 63 k') nd'.blocks r'.2 := by rw [← h2, ← h2', he]
    have hz1 : placeOf (baseAt fs 63 k) nd.blocks r.2 ≠ 0 := h2 ▸ hz
    have hb := placeOf_bounds _ hz1
    have hb' := placeOf_bounds _ (hp ▸ hz1)
    -- files have no block in common, and a block has one place in its file
    have hkk : k = k' := by
      rcases Nat.lt_trichotomy k k' with hlt | heq | hlt
      · have := baseAt_lt (a := 63) hk hlt
        omega
      · exact heq
      · have := baseAt_lt (a := 63) hk' hlt
        omega
    subst hkk
    obtain rfl := Option.some.inj (hk.symm.trans hk')
    refine Prod.ext (h1.trans h1'.symm) ?_
    rw [← locAt_placeOf r.2 hz1, hp, locAt_placeOf r'.2 (hp ▸ hz1)]
  · obtain ⟨k, nd, hk, -, h2⟩ := h.refs_ne hz
    have hb := placeOf_bounds _ (h2 ▸ hz)
    have h3 := le_baseAt fs 63 k
    have h4 := baseAt_end (a := 63) hk
    have hsize : mkfsSuperblock.size = 20000 := rfl
    rw [hmeta, hsize, h2]
    omega
  · have hb' : b < 20000 := hb
    rw [blockUsed_diskOf htotal hb', hmeta]
    simp only [decide_eq_true_eq, Set.mem_empty_iff_false, false_or]
    constructor
    · intro hlt
      by_cases h63 : b < 63
      · exact .inl h63
      · obtain ⟨k, nd, hk, h1, h2⟩ := exists_baseAt (Nat.not_lt.1 h63) hlt
        refine .inr ⟨(k + 1, locAt nd.blocks (b - baseAt fs 63 k)), ?_⟩
        rw [h.refs_eq hk, placeOf_locAt (h.blocks_le hk) (by omega)]
        omega
    · rintro (hlt | ⟨r, rfl⟩)
      · have hle : 63 ≤ endAt fs 63 := le_endAt fs 63
        omega
      · by_cases hz : refs (diskOf fs) (tableOf fs) r = 0
        · have hle : 63 ≤ endAt fs 63 := le_endAt fs 63
          omega
        · obtain ⟨k, nd, hk, -, h2⟩ := h.refs_ne hz
          have h3 := placeOf_bounds _ (h2 ▸ hz)
          have h4 := baseAt_end (a := 63) hk
          omega

theorem Fits.fsOk (h : Fits fs) (tape : List (Option (List Byte))) : FsOk mkfsSuperblock
    (boot (diskOf fs) tape) (tableOf fs) := by
  have hn : mkfsSuperblock.ninodes = 200 := rfl
  have hcount := h.count
  have hex : ∀ {i d}, tableOf fs i = some d → ∃ k nd, i = k + 1 ∧ fs[k]? = some nd ∧ d = nd.dinode (baseAt fs 63 k) := by
    intro i d ht
    unfold tableOf at ht
    split at ht
    · cases ht
    · obtain ⟨nd, hk, rfl⟩ := Option.map_eq_some_iff.1 ht
      exact ⟨i - 1, nd, by omega, hk, rfl⟩
  refine ⟨h.owned, fun i d hi => ?_, fun i d hi => ?_, .nil mkfs_logArea⟩
  · obtain ⟨k, nd, rfl, hk, -⟩ := hex hi
    have := (List.getElem?_eq_some_iff.1 hk).1
    omega
  · obtain ⟨k, nd, rfl, hk, rfl⟩ := hex hi
    exact (h.laid hk).fileOk (h.size nd (List.mem_of_getElem? hk))

theorem Fits.storeOf_eq (h : Fits fs) : storeOf mkfsSuperblock (diskOf fs) = fun i =>
    if i = 0 then none else (fs[i - 1]?).map FileImage.node := by
  funext i
  rw [storeOf, diskTable_diskOf h, tableOf]
  split
  · rfl
  · cases hk : fs[i - 1]? with
    | none => rfl
    | some nd =>
      rw [Option.map_some, Option.map_some, Option.map_some, nodeOf,
        (h.laid hk).contents_eq (h.size nd (List.mem_of_getElem? hk))]
      rfl

end

end Xv6
