import Xv6.Content
import Mathlib.Data.Finset.Union
import Mathlib.Order.Interval.Finset.Nat

/-!
# `readi` and `writei`

The specifications of the two calls on a file whose blocks below its size are all mapped (`FileOk`):
`writei` replaces bytes and moves the size, keeps the inode block in step with the in-memory inode,
and touches no other inode; `readi` returns the bytes and changes nothing.
-/

namespace Xv6

open Prog Function

/-- The file has no holes, and its size is one `writei` can produce. -/
structure FileOk (c : Image) (d : Dinode) : Prop where
  size_le : d.size.toNat ≤ 16523 * 512
  mapped : ∀ bn, bn * 512 < d.size.toNat → ptr c d (locOf bn) ≠ 0

/-- The places of the map that a write of `n` bytes at `off` uses. -/
def touched (off n : Nat) : Finset Loc :=
  (Finset.Ico (off / 512) ((off + n + 511) / 512)).biUnion fun bn => (locOf bn).path

/-- Enough blocks and log for a write of `n` bytes at `off`. A write inside the file logs its data blocks, and the
last of them finds the header full only if the others have filled it; a write that lets the file grow ends with the
inode. -/
def Room (sb : Superblock) (off n : Nat) (s : Dev) (d : Dinode) : Prop :=
  if off + n ≤ d.size.toNat then
    ∃ A, (0 < n → LogRoom sb A s) ∧ ∀ bn, off / 512 ≤ bn → bn < (off + n - 1) / 512 →
      ptr s.cache d (locOf bn) ≠ 0 → ptr s.cache d (locOf bn) ∈ A
  else ∃ A, Enough sb (touched off n) s d A

/-- What a successful `writei` of `n` bytes at `off` did. -/
structure Written (sb : Superblock) (T : Table) (i : Nat) (hand : Set Nat) (off n : Nat) (src : Nat → Byte)
    (s : Dev) (d : Dinode) (s' : Dev) (d' : Dinode) : Prop where
  owned : Owned sb s'.cache (T.set i d') hand
  same : d' = { d with addrs := d'.addrs, size := d'.size }
  size : d'.size.toNat = max d.size.toNat (off + n)
  fileOk : FileOk s'.cache d'
  bytes : ∀ k, k < 16523 * 512 →
    byteAt s'.cache d' k = if off ≤ k ∧ k < off + n then src (k - off) else byteAt s.cache d k
  refs_other : ∀ j l, j ≠ i → refs s'.cache (T.set i d') (j, l) = refs s.cache (T.set i d) (j, l)
  bytes_other : ∀ j e, j ≠ i → T j = some e → ∀ k, byteAt s'.cache e k = byteAt s.cache e k
  sync : dinodeOf sb s.cache i = d → dinodeOf sb s'.cache i = d'
  dinodes : ∀ j, j ≠ i → j < sb.ninodes → dinodeOf sb s'.cache j = dinodeOf sb s.cache j
  logged : ∀ x ∈ s'.log.lh, x ∈ s.log.lh ∨ sb.inodestart ≤ x ∧ x < sb.size
  announced : Announced (T.set i d) s (T.set i d') s'
  fills : ∃ new s₁ d₁, (∀ x ∈ new, x.1 ∈ touched off n) ∧ Fills sb (dataAt off n) new s d s₁ d₁ ∧
    (∀ l, ptr s'.cache d' l = ptr s₁.cache d₁ l) ∧ (∀ l ∈ touched off n, ptr s'.cache d' l ≠ 0) ∧
    ∀ b, b ∈ s'.log.lh ↔ b ∈ s₁.log.lh ∨ d.size.toNat < off + n ∧ b = iblock sb i

section

variable {sb : Superblock} {T : Table} {i : Nat} {s : Dev} {d d' : Dinode} {hand : Set Nat}

theorem path_subset_touched {off n bn : Nat} (h1 : off / 512 ≤ bn) (h2 : bn * 512 < off + n) :
    (locOf bn).path ⊆ touched off n := by
  intro l hl
  exact Finset.mem_biUnion.2 ⟨bn, Finset.mem_Ico.2 ⟨h1, by omega⟩, hl⟩

theorem FileOk.touched_ne {c : Image} (h : FileOk c d) {off n : Nat} (hn : off + n ≤ d.size.toNat) :
    ∀ l ∈ touched off n, ptr c d l ≠ 0 := by
  intro l hl
  obtain ⟨bn, hbn, hl⟩ := Finset.mem_biUnion.1 hl
  have := Finset.mem_Ico.1 hbn
  exact ptr_path_ne (h.mapped bn (by omega)) l hl

theorem card_bitmap_le (sb : Superblock) : ((Finset.range sb.size).image (bblock sb)).card ≤ sb.size / 4096 + 1 := by
  have hsub : (Finset.range sb.size).image (bblock sb) ⊆
      Finset.Ico sb.bmapstart (sb.bmapstart + (sb.size / 4096 + 1)) := by
    intro x hx
    obtain ⟨b, hb, rfl⟩ := Finset.mem_image.1 hx
    have := Finset.mem_range.1 hb
    rw [Finset.mem_Ico]
    unfold bblock
    simp only [BPB]
    omega
  have := Finset.card_le_card hsub
  rw [Nat.card_Ico] at this
  omega

theorem Loc.above_subset_path_of_mem {l q : Loc} (h : q ∈ l.path) : q.above ⊆ l.path := by
  cases l <;> simp only [Loc.path, Finset.mem_insert, Finset.mem_singleton] at h
  case indEnt j => rcases h with rfl | rfl <;> simp [Loc.above, Loc.path]
  case leaf k => rcases h with rfl | rfl <;> simp [Loc.above, Loc.path]
  case leafEnt k j => rcases h with rfl | rfl | rfl <;> simp [Loc.above, Loc.path, Finset.insert_subset_iff]
  all_goals simp [h, Loc.above]

theorem linkedAbove_subset_touched {c : Image} {off n : Nat} : linkedAbove c d (touched off n) ⊆ touched off n := by
  intro q hq
  obtain ⟨l, hl, hql⟩ := Finset.mem_biUnion.1 hq
  obtain ⟨bn, hbn, hl⟩ := Finset.mem_biUnion.1 (Finset.mem_filter.1 hl).1
  exact Finset.mem_biUnion.2 ⟨bn, hbn, Loc.above_subset_path_of_mem hl hql⟩

/-- There is room if `A`, with all of the free map in it, and the places touched fit into the log. -/
theorem Room.of_bound {off n : Nat} {A : Finset Nat} (htx : 1 ≤ s.log.outstanding) (hn : s.log.lh.Nodup)
    (hsub : ∀ x ∈ s.log.lh, x ∈ A)
    (hbit : ∀ b, b < sb.size → bblock sb b ∈ A) (hcap : A.card + (touched off n).card < LOGSIZE)
    (hcap' : A.card + (touched off n).card + 1 < sb.nlog)
    (hfree : (missing s.cache d (touched off n)).card ≤ (freeBlocks sb s.cache).card) : Room sb off n s d := by
  have hsplit : ((touched off n).filter fun l => ¬ ptr s.cache d l = 0).card + (missing s.cache d (touched off n)).card =
      (touched off n).card := by
    rw [missing, Nat.add_comm]
    exact Finset.card_filter_add_card_filter_not _
  have himg : (((touched off n).filter fun l => ¬ ptr s.cache d l = 0).image (ptr s.cache d)).card ≤
      ((touched off n).filter fun l => ¬ ptr s.cache d l = 0).card := Finset.card_image_le
  obtain ⟨B, hB⟩ : ∃ B, B = A ∪ ((touched off n).filter fun l => ¬ ptr s.cache d l = 0).image (ptr s.cache d) := ⟨_, rfl⟩
  have hcard : B.card ≤ A.card + ((touched off n).filter fun l => ¬ ptr s.cache d l = 0).card :=
    hB ▸ (Finset.card_union_le _ _).trans (Nat.add_le_add_left himg _)
  have hA : A ⊆ B := hB ▸ Finset.subset_union_left
  have hin : ∀ l ∈ touched off n, ptr s.cache d l ≠ 0 → ptr s.cache d l ∈ B := fun l hl hz =>
    hB ▸ Finset.mem_union_right _ (Finset.mem_image.2 ⟨l, Finset.mem_filter.2 ⟨hl, hz⟩, rfl⟩)
  have hroom : LogRoom sb B s := ⟨htx, hn, fun x hx => hA (hsub x hx), by omega, by omega⟩
  unfold Room
  split
  · refine ⟨B, fun _ => hroom, fun bn h1 h2 => hin _ ?_⟩
    exact path_subset_touched h1 (by omega) (Loc.self_mem_path _)
  · refine ⟨B, hroom, fun b hb => hA (hbit b ?_), fun l hl _ => hin l hl, fun l hl => hin l (linkedAbove_subset_touched hl),
      by omega, by omega, hfree⟩
    exact List.mem_range.1 (List.mem_filter.1 (List.mem_of_mem_take hb)).1

theorem Room.of_count {off n : Nat} (htx : 1 ≤ s.log.outstanding) (hn : s.log.lh.Nodup)
    (hcap : s.log.lh.length + (sb.size / 4096 + 1) + (touched off n).card < LOGSIZE)
    (hcap' : s.log.lh.length + (sb.size / 4096 + 1) + (touched off n).card + 1 < sb.nlog)
    (hfree : (missing s.cache d (touched off n)).card ≤ (freeBlocks sb s.cache).card) : Room sb off n s d := by
  have h1 : s.log.lh.toFinset.card = s.log.lh.length := List.toFinset_card_of_nodup hn
  have h2 := card_bitmap_le sb
  have h3 := Finset.card_union_le s.log.lh.toFinset ((Finset.range sb.size).image (bblock sb))
  refine .of_bound (A := s.log.lh.toFinset ∪ (Finset.range sb.size).image (bblock sb)) htx hn (fun x hx => ?_) (fun b hb => ?_)
    (by omega) (by omega) hfree
  · exact Finset.mem_union_left _ (List.mem_toFinset.2 hx)
  · exact Finset.mem_union_right _ (Finset.mem_image.2 ⟨b, Finset.mem_range.2 hb, rfl⟩)

/-! ### Stores into the metadata -/

theorem refs_store_low (hO : Owned sb s.cache T hand) {x : Nat} (hx : x < sb.nmeta) (v : Blk) :
    refs (s.store x v).cache T = refs s.cache T :=
  refs_congr fun j l p _ hz => update_of_ne (by have := (hO.range _ hz).1; omega) ..

theorem ptr_store_low (hO : Owned sb s.cache T hand) {x : Nat} (hx : x < sb.nmeta) (v : Blk) (hi : T i = some d)
    (l : Loc) : ptr (s.store x v).cache d l = ptr s.cache d l := by
  rw [← refs_some hi, ← refs_some hi, refs_store_low hO hx]

theorem byteAt_store_low (hO : Owned sb s.cache T hand) {x : Nat} (hx : x < sb.nmeta) (v : Blk) (hi : T i = some d)
    (k : Nat) : byteAt (s.store x v).cache d k = byteAt s.cache d k := by
  refine byteAt_congr (ptr_store_low hO hx v hi _) fun hz => update_of_ne ?_ ..
  have := hO.range (i, locOf (k / 512)) (by rwa [refs_some hi])
  rw [refs_some hi] at this
  omega

theorem Owned.store_low (hL : Layout sb) (hO : Owned sb s.cache T hand) {x : Nat} (hx : x < sb.bmapstart) (v : Blk) :
    Owned sb (s.store x v).cache T hand := by
  have := hL.bmap_lt
  rw [Owned, refs_store_low hO (by omega)]
  exact Ledger.congr_used hO fun b hb => by rw [blockUsed_store hL (.inl hx) v hb]

theorem Owned.set_same (hO : Owned sb s.cache (T.set i d) hand) (ha : d'.addrs = d.addrs) :
    Owned sb s.cache (T.set i d') hand := by
  have h : refs s.cache (update (T.set i d) i (some d')) = refs s.cache (T.set i d) :=
    refs_update_table (update_self ..) fun j _ => by rw [Dinode.addr, Dinode.addr, ha]
  rw [update_idem] at h
  rw [Owned, h]
  exact hO

theorem ptr_addrs {c : Image} (ha : d'.addrs = d.addrs) (l : Loc) : ptr c d' l = ptr c d l :=
  ptr_congr (fun j _ => by rw [Dinode.addr, Dinode.addr, ha]) (fun _ _ _ _ => rfl) l

theorem byteAt_addrs {c : Image} (ha : d'.addrs = d.addrs) (k : Nat) : byteAt c d' k = byteAt c d k :=
  byteAt_congr (ptr_addrs ha _) fun _ => rfl

/-! ### `writei` -/

theorem Wrote.touched_ne {s₁ : Dev} {d₁ : Dinode} {off n : Nat} {src : Nat → Byte}
    (h : Wrote sb T i hand (touched off n) s d s₁ d₁ off n src) : ∀ l ∈ touched off n, ptr s₁.cache d₁ l ≠ 0 := by
  intro l hl
  obtain ⟨bn, hbn, hl⟩ := Finset.mem_biUnion.1 hl
  have := Finset.mem_Ico.1 hbn
  exact ptr_path_ne (h.mapped bn this.1 (by omega)) l hl

theorem Written.of_wrote (hL : Layout sb) (hf : FileOk s.cache d) (hi : i < sb.ninodes) {off n : Nat} {src : Nat → Byte}
    (hn : off + n ≤ d.size.toNat) {s₁ : Dev} {d₁ : Dinode}
    (h : Wrote sb T i hand (touched off n) s d s₁ d₁ off n src) : Written sb T i hand off n src s d s₁ d₁ := by
  obtain rfl : d₁ = d := h.stay (hf.touched_ne hn)
  obtain ⟨new, hnew, hfill⟩ := h.fills
  exact ⟨h.owned, rfl, by omega, ⟨hf.size_le, fun bn hbn => h.rewritten.ptr_ne (hf.mapped bn hbn)⟩, h.bytes,
    h.rewritten.other, h.rewritten.bytes,
    fun he => by rw [dinodeOf_congr (h.rewritten.low _ (hL.iblock_lt hi)), he],
    fun j _ hj => dinodeOf_congr (h.rewritten.low _ (hL.iblock_lt hj)), h.rewritten.logged, h.announced,
    new, s₁, d₁, hnew, hfill, fun _ => rfl, h.touched_ne, fun b => by rw [or_iff_left (by omega)]⟩

theorem Written.of_grown (hL : Layout sb) (hf : FileOk s.cache d) (hi : i < sb.ninodes) {off n : Nat} {src : Nat → Byte}
    (hoff : off ≤ d.size.toNat) (hn : d.size.toNat < off + n) (hmax : off + n ≤ 16523 * 512) {s₁ : Dev} {d₁ : Dinode}
    (h : Wrote sb T i hand (touched off n) s d s₁ d₁ off n src) {d₂ : Dinode}
    (hd₂ : d₂ = { d₁ with size := BitVec.ofNat 32 (off + n) }) :
    Written sb T i hand off n src s d (s₁.iupdate sb i d₂) d₂ := by
  have hib := hL.iblock_lt hi
  have hbm := hL.bmap_lt
  have hlow : iblock sb i < sb.nmeta := by omega
  have haddr : d₂.addrs = d₁.addrs := by rw [hd₂]
  have hsize : d₂.size.toNat = off + n := by
    rw [hd₂]
    simp only [BitVec.toNat_ofNat]
    omega
  have hset : T.set i d₁ i = some d₁ := update_self ..
  have hptr : ∀ l, ptr (s₁.iupdate sb i d₂).cache d₂ l = ptr s₁.cache d₁ l := fun l => by
    rw [ptr_addrs haddr, Dev.iupdate, ptr_store_low h.owned hlow _ hset]
  refine ⟨(h.owned.store_low hL hib _).set_same haddr, ?_, by omega, ⟨by omega, fun bn hbn => ?_⟩, fun k hk => ?_,
    fun j l hj => ?_, fun j e hj he k => ?_, fun _ => by rw [dinodeOf_iupdate, if_pos rfl], fun j hj hjn => ?_, fun x hx => ?_,
    h.announced.trans ⟨fun x hx => mem_absorb.2 (.inl hx), fun r => .inl ?_⟩, ?_⟩
  · rw [hd₂, h.rewritten.same]
  · rw [hptr]
    by_cases hb : off / 512 ≤ bn
    · exact h.mapped bn hb (by omega)
    · exact h.rewritten.ptr_ne (hf.mapped bn (by omega))
  · rw [byteAt_addrs haddr, Dev.iupdate, byteAt_store_low h.owned hlow _ hset, h.bytes k hk]
  · rw [← h.rewritten.other j l hj, ← refs_store_low h.owned hlow (putDinode sb s₁.cache i d₂ (iblock sb i))]
    simp only [refs, Table.set, update_of_ne hj, Dev.iupdate]
  · have hj' : T.set i d₁ j = some e := by rw [Table.set, update_of_ne hj, he]
    rw [Dev.iupdate, byteAt_store_low h.owned hlow _ hj', h.rewritten.bytes j e hj he]
  · rw [dinodeOf_iupdate, if_neg hj, dinodeOf_congr (h.rewritten.low _ (hL.iblock_lt hjn))]
  · rcases mem_absorb.1 hx with hx | rfl
    · exact h.rewritten.logged x hx
    · exact .inr ⟨inodestart_le_iblock sb i, hL.iblock_lt_size hi⟩
  · have hset' : refs (s₁.iupdate sb i d₂).cache (T.set i d₂) = refs (s₁.iupdate sb i d₂).cache (T.set i d₁) := by
      have hd : update (T.set i d₁) i (some d₂) = T.set i d₂ := update_idem ..
      rw [← hd]
      exact refs_update_table (update_self ..) fun j _ => by rw [Dinode.addr, Dinode.addr, haddr]
    rw [hset', Dev.iupdate, refs_store_low h.owned hlow]
  · obtain ⟨new, hnew, hfill⟩ := h.fills
    refine ⟨new, s₁, d₁, hnew, hfill, hptr, fun l hl => by rw [hptr]; exact h.touched_ne l hl, fun b => ?_⟩
    rw [Dev.iupdate, Dev.store_lh, mem_absorb, and_iff_right hn]

/-- The arguments that `writei` accepts. -/
def WriteArgs (d : Dinode) (off n : Nat) : Prop :=
  off ≤ d.size.toNat ∧ off + n < 2 ^ 32 ∧ off + n ≤ MAXFILE * BSIZE

theorem writei_spec (hL : Layout sb) (hi : i < sb.ninodes) (hO : Owned sb s.cache (T.set i d) hand)
    (hf : FileOk s.cache d) (ht : d.type ≠ T_DEV) {off n : Nat} (src : Nat → Byte) (ha : WriteArgs d off n) :
    wp (writei sb i d src off n) (fun r s' => r.1 = n ∧ Written sb T i hand off n src s d s' r.2)
      (fun e => AllocFault e ∧ ¬ Room sb off n s d) s := by
  obtain ⟨hoff, hwrap, hmax⟩ := ha
  simp only [MAXFILE, NDIRECT, NINDIRECT, NDINDIRECT, BSIZE] at hmax
  have hret : asInt n = n := by
    rw [asInt, BitVec.toInt_eq_toNat_of_lt] <;> rw [BitVec.toNat_ofNat] <;> omega
  have hmod : (off + n) % 2 ^ 32 = off + n := Nat.mod_eq_of_lt hwrap
  rw [writei, if_neg ht, if_neg (by rw [hmod]; omega),
    if_neg (by rw [hmod]; simp only [MAXFILE, NDIRECT, NINDIRECT, NDINDIRECT, BSIZE]; omega)]
  have hstart : off % 512 = 0 ∨ 0 < n ∨ ptr s.cache d (locOf (off / 512)) ≠ 0 := by
    by_cases hal : off % 512 = 0
    · exact .inl hal
    · exact .inr (.inr (hf.mapped _ (by omega)))
  have hloop : wp (writeLoop sb d src off n 0) (fun d' s' => Wrote sb T i hand (touched off n) s d s' d'
    off (n - 0) fun j => src (0 + j))
      (fun e => AllocFault e ∧ ¬ ∃ A, Enough sb (touched off n) s d A) s :=
    writeLoop_spec hL hO (by omega) hstart fun bn h1 h2 => path_subset_touched h1 (by omega)
  have hover : off + n ≤ d.size.toNat → wp (writeLoop sb d src off n 0) (fun _ _ => True) (fun _ => ¬ Room sb off n s d) s := by
    intro hin
    refine writeLoop_over hL hO (by omega) (fun bn _ h2 => hf.mapped bn (by omega)) fun hroom => ?_
    rw [Room, if_pos hin] at hroom
    exact hroom
  have hfault : wp (writeLoop sb d src off n 0) (fun d' s' => Wrote sb T i hand (touched off n) s d s'
    d' off (n - 0) fun j => src (0 + j))
      (fun e => AllocFault e ∧ ¬ Room sb off n s d) s := by
    by_cases hin : off + n ≤ d.size.toNat
    · exact (hloop.and (hover hin)).mono (fun _ _ h => h.1) fun _ h => ⟨h.1.1, h.2⟩
    · refine hloop.mono (fun _ _ => id) fun e he => ⟨he.1, ?_⟩
      rw [Room, if_neg hin]
      exact he.2
  refine wp.bind hfault ?_
  intro d₁ s₁ hw
  simp only [Nat.sub_zero, Nat.zero_add] at hw
  have hsz : d₁.size = d.size := by rw [hw.rewritten.same]
  split
  · next hg =>
    rw [hsz] at hg
    have hroom : Room sb off n s d → ∃ A, LogRoom sb A s₁ := fun hr => by
      rw [Room, if_neg (by omega)] at hr
      exact (hw.enough hr).imp fun _ h => h.room
    refine wp.bind ((iupdate_spec _ (hL.lt_fssize (hL.iblock_lt_size hi)) hroom).mono (fun _ _ => id)
      fun e he => ⟨.inr he.1, he.2⟩) ?_
    rintro _ s₂ rfl
    exact ⟨hret, .of_grown hL hf hi hoff hg.2 hmax hw rfl⟩
  · next hg =>
    rw [hsz] at hg
    exact ⟨hret, .of_wrote hL hf hi (by omega) hw⟩

theorem writei_refused (ht : d.type ≠ T_DEV) {off n : Nat} (hn : off < 2 ^ 32 ∧ n < 2 ^ 32) (src : Nat → Byte)
    (ha : ¬ WriteArgs d off n) : writei sb i d src off n = pure (-1, d) := by
  rw [writei, if_neg ht]
  simp only [WriteArgs] at ha
  split
  · rfl
  · next h1 =>
    rw [if_pos]
    have : off + n < 2 ^ 32 := by
      by_contra hge
      have : (off + n) % 2 ^ 32 = off + n - 2 ^ 32 := by omega
      omega
    rw [Nat.mod_eq_of_lt this] at h1 ⊢
    omega

/-! ### `readi` -/

/-- How many bytes `readi` returns. -/
def readLen (d : Dinode) (off n : Nat) : Nat := min n (d.size.toNat - off)

theorem readi_spec (sb : Superblock) (hlt : ∀ l, ptr s.cache d l < FSSIZE) (hf : FileOk s.cache d)
    (ht : d.type ≠ T_DEV) {off n : Nat}
    (hoff : off ≤ d.size.toNat) (hwrap : off + n < 2 ^ 32) :
    wp (readi sb d off n) (fun r s' => r = (((readLen d off n : Int),
      (List.range (readLen d off n)).map fun k => byteAt s.cache d (off + k)), d) ∧ s' = s) (fun _ => False) s := by
  have hsz := hf.size_le
  have hmod : (off + n) % 2 ^ 32 = off + n := Nat.mod_eq_of_lt hwrap
  have hlen : (if d.size.toNat < (off + n) % 2 ^ 32 then d.size.toNat - off else n) = readLen d off n := by
    rw [hmod, readLen]
    split <;> omega
  have hret : asInt (readLen d off n) = (readLen d off n : Int) := by
    rw [asInt, BitVec.toInt_eq_toNat_of_lt] <;> rw [BitVec.toNat_ofNat] <;> unfold readLen <;> omega
  rw [readi, if_neg ht, if_neg (by rw [hmod]; omega)]
  simp only [hlen]
  have hle : off + readLen d off n ≤ d.size.toNat := by unfold readLen; omega
  refine wp.bind (readLoop_spec hlt (by omega) fun bn h1 h2 => hf.mapped bn (by omega)) ?_
  rintro _ s' ⟨rfl, hs'⟩
  refine ⟨?_, hs'⟩
  rw [hret, List.nil_append, Nat.sub_zero]

theorem readi_refused (ht : d.type ≠ T_DEV) {off n : Nat} (hn : off < 2 ^ 32 ∧ n < 2 ^ 32)
    (ha : d.size.toNat < off ∨ 2 ^ 32 ≤ off + n) : readi sb d off n = pure ((-1, []), d) := by
  rw [readi, if_neg ht, if_pos]
  rcases ha with ha | ha
  · exact .inl ha
  · exact .inr (by omega)

end

end Xv6
