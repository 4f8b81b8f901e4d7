import Xv6.Bmap
import Xv6.Tx

/-!
# Inode contents as bytes

`byteAt c d k` is byte `k` of the file whose inode is `d`. Filling the block map never changes it
(`Grown.byteAt`), and storing into one data block changes the bytes of that block only
(`store_data`); `writeLoop` is a sequence of such steps and `readLoop` reads the bytes back.
-/

namespace Xv6

open Prog Function

/-- Byte `k` of a file; where no block is mapped it reads as zero. -/
def byteAt (c : Image) (d : Dinode) (k : Nat) : Byte :=
  if ptr c d (locOf (k / 512)) = 0 then 0 else (c (ptr c d (locOf (k / 512)))).data (k % 512)

/-- From `s` and `d` to `s'` and `d'`, blocks of inode `i` may have been added and rewritten. -/
structure Rewritten (sb : Superblock) (T : Table) (i : Nat) (s : Dev) (d : Dinode) (s' : Dev) (d' : Dinode) :
    Prop where
  same : d' = { d with addrs := d'.addrs }
  keep : ∀ r, refs s.cache (T.set i d) r ≠ 0 → refs s'.cache (T.set i d') r = refs s.cache (T.set i d) r
  other : ∀ j l, j ≠ i → refs s'.cache (T.set i d') (j, l) = refs s.cache (T.set i d) (j, l)
  bytes : ∀ j e, j ≠ i → T j = some e → ∀ k, byteAt s'.cache e k = byteAt s.cache e k
  low : ∀ b, b < sb.bmapstart → s'.cache b = s.cache b
  logged : ∀ x ∈ s'.log.lh, x ∈ s.log.lh ∨ sb.inodestart ≤ x ∧ x < sb.size

section

variable {sb : Superblock} {T : Table} {i : Nat} {s s₁ s₂ : Dev} {d d₁ d₂ : Dinode} {hand : Set Nat}
variable {S : Finset Loc}

theorem byteAt_congr {c c' : Image} {d d' : Dinode} {k : Nat}
    (hp : ptr c' d' (locOf (k / 512)) = ptr c d (locOf (k / 512)))
    (hc : ptr c d (locOf (k / 512)) ≠ 0 → c' (ptr c d (locOf (k / 512))) = c (ptr c d (locOf (k / 512)))) :
    byteAt c' d' k = byteAt c d k := by
  unfold byteAt
  rw [hp]
  split
  · rfl
  · next h => rw [hc h]

theorem Grown.byteAt (h : Grown sb T i s d s₁ d₁) (k : Nat) : byteAt s₁.cache d₁ k = byteAt s.cache d k := by
  by_cases h0 : ptr s.cache d (locOf (k / 512)) = 0
  · unfold Xv6.byteAt
    rw [if_pos h0]
    split
    · rfl
    · next h1 => rw [h.fresh _ (isData_locOf _) h0 h1, Block.zero_data]
  · have hk := h.keep (i, locOf (k / 512)) (by rwa [refs_set])
    have hd := h.data (i, locOf (k / 512)) (isData_locOf _) (by rwa [refs_set])
    rw [refs_set, refs_set] at hk
    rw [refs_set] at hd
    exact byteAt_congr hk fun _ => hd

theorem Grown.rewritten (h : Grown sb T i s d s₁ d₁) : Rewritten sb T i s d s₁ d₁ := by
  refine ⟨h.same, h.keep, h.other, fun j e hj he k => ?_, h.low, h.logged⟩
  have hset : ∀ d, T.set i d j = some e := fun d => by rw [Table.set, update_of_ne hj, he]
  have ho := h.other j (locOf (k / 512)) hj
  rw [refs_some (hset _), refs_some (hset _)] at ho
  refine byteAt_congr ho fun hz => ?_
  have := h.data (j, locOf (k / 512)) (isData_locOf _)
  rw [refs_some (hset _)] at this
  exact this hz

theorem Rewritten.refl : Rewritten sb T i s d s d := Grown.rewritten .refl

theorem Rewritten.trans (h : Rewritten sb T i s d s₁ d₁) (h' : Rewritten sb T i s₁ d₁ s₂ d₂) :
    Rewritten sb T i s d s₂ d₂ := by
  refine ⟨by rw [h'.same, h.same], fun r hr => ?_, fun j l hj => ?_, fun j e hj he k => ?_, fun b hb => ?_,
    fun x hx => (h'.logged x hx).elim (h.logged x) .inr⟩
  · rw [h'.keep r (by rwa [h.keep r hr]), h.keep r hr]
  · rw [h'.other j l hj, h.other j l hj]
  · rw [h'.bytes j e hj he k, h.bytes j e hj he k]
  · rw [h'.low b hb, h.low b hb]

theorem Rewritten.ptr_ne {l : Loc} (h : Rewritten sb T i s d s₁ d₁) (hl : ptr s.cache d l ≠ 0) :
    ptr s₁.cache d₁ l ≠ 0 := by
  have := h.keep (i, l) (by rwa [refs_set])
  rw [refs_set, refs_set] at this
  rwa [this]

/-! ### Storing into a data block -/

def Apart (c : Image) (T : Table) : Prop := ∀ r r', refs c T r = refs c T r' → refs c T r ≠ 0 → r = r'

theorem refs_update_data {c : Image} (hinj : Apart c (T.set i d)) (bn : Nat) (v : Blk) :
    refs (update c (ptr c d (locOf bn)) v) (T.set i d) = refs c (T.set i d) := by
  refine refs_congr fun j l p hp hnz => update_of_ne (fun he => ?_) ..
  rw [← refs_set _ T i] at he
  have := congrArg (fun x : Ref => x.2.isData) (hinj _ _ he hnz)
  simp only [Loc.not_isData_of_up hp, isData_locOf, Bool.false_eq_true] at this

theorem ptr_update_data {c : Image} (hinj : Apart c (T.set i d)) (bn : Nat) (v : Blk) (l : Loc) :
    ptr (update c (ptr c d (locOf bn)) v) d l = ptr c d l := by
  rw [← refs_set _ T i, refs_update_data hinj bn, refs_set]

theorem byteAt_update_data {c : Image} (hinj : Apart c (T.set i d)) {bn : Nat} (hbn : bn < 16523)
    (hz : ptr c d (locOf bn) ≠ 0) (v : Blk) {k : Nat} (hk : k / 512 < 16523) :
    byteAt (update c (ptr c d (locOf bn)) v) d k =
      if k / 512 = bn then v.data (k % 512) else byteAt c d k := by
  by_cases h : k / 512 = bn
  · rw [if_pos h, byteAt, ptr_update_data hinj bn, h, if_neg hz, update_self]
  · rw [if_neg h]
    refine byteAt_congr (ptr_update_data hinj bn v _) fun hk0 => update_of_ne (fun heq => ?_) ..
    rw [← refs_set _ T i, ← refs_set _ T i] at heq
    have := hinj _ _ heq (by rwa [refs_set])
    exact h (locOf_inj hk hbn (Prod.ext_iff.1 this).2)

theorem byteAt_update_other {c : Image} (hinj : Apart c (T.set i d)) (bn : Nat) (v : Blk) {j : Nat} {e : Dinode}
    (hj : j ≠ i) (he : T j = some e) (k : Nat) :
    byteAt (update c (ptr c d (locOf bn)) v) e k = byteAt c e k := by
  have hset : T.set i d j = some e := by rw [Table.set, update_of_ne hj, he]
  refine byteAt_congr ?_ fun hk => update_of_ne (fun heq => ?_) ..
  · rw [← refs_some (T := T.set i d) hset, refs_update_data hinj bn, refs_some hset]
  · have hinj := hinj (j, locOf (k / 512)) (i, locOf bn) (by rw [refs_some hset, refs_set, heq])
      (by rwa [refs_some hset])
    exact hj (Prod.ext_iff.1 hinj).1

theorem refs_store_data (hO : Owned sb s.cache (T.set i d) hand) (bn : Nat) (v : Blk) :
    refs (s.store (ptr s.cache d (locOf bn)) v).cache (T.set i d) = refs s.cache (T.set i d) :=
  refs_update_data hO.inj bn v

theorem ptr_store_data (hO : Owned sb s.cache (T.set i d) hand) (bn : Nat) (v : Blk) (l : Loc) :
    ptr (s.store (ptr s.cache d (locOf bn)) v).cache d l = ptr s.cache d l := by
  rw [← refs_set _ T i, refs_store_data hO bn, refs_set]

theorem Owned.store_data (hL : Layout sb) (hO : Owned sb s.cache (T.set i d) hand) {bn : Nat}
    (hz : ptr s.cache d (locOf bn) ≠ 0) (v : Blk) :
    Owned sb (s.store (ptr s.cache d (locOf bn)) v).cache (T.set i d) hand := by
  have hr := hO.range (i, locOf bn) (by rwa [refs_set])
  rw [refs_set] at hr
  rw [Owned, refs_store_data hO bn]
  refine Ledger.congr_used hO fun b hb => ?_
  rw [blockUsed_store hL (.inr hr.1) v hb]

theorem Rewritten.store_data (hL : Layout sb) (hO : Owned sb s.cache (T.set i d) hand) {bn : Nat}
    (hz : ptr s.cache d (locOf bn) ≠ 0) (v : Blk) :
    Rewritten sb T i s d (s.store (ptr s.cache d (locOf bn)) v) d := by
  have hr := hO.range (i, locOf bn) (by rwa [refs_set])
  rw [refs_set] at hr
  have hino := hL.inodes_lt
  have hbm := hL.bmap_lt
  refine ⟨rfl, fun r _ => by rw [refs_store_data hO bn], fun j l _ => by rw [refs_store_data hO bn], ?_, ?_, ?_⟩
  · exact fun j e hj he k => byteAt_update_other hO.inj bn v hj he k
  · intro b hb
    exact update_of_ne (by omega) ..
  · intro x hx
    rcases mem_absorb.1 hx with hx | rfl
    · exact .inl hx
    · exact .inr ⟨by omega, hr.2⟩

theorem Announced.store_data (hO : Owned sb s.cache (T.set i d) hand) (bn : Nat) (v : Blk) :
    Announced (T.set i d) s (T.set i d) (s.store (ptr s.cache d (locOf bn)) v) :=
  ⟨fun x hx => mem_absorb.2 (.inl hx), fun r => .inl (by rw [refs_store_data hO bn])⟩

theorem byteAt_store_data (hO : Owned sb s.cache (T.set i d) hand) {bn : Nat} (hbn : bn < 16523)
    (hz : ptr s.cache d (locOf bn) ≠ 0) (v : Blk) {k : Nat} (hk : k / 512 < 16523) :
    byteAt (s.store (ptr s.cache d (locOf bn)) v).cache d k =
      if k / 512 = bn then v.data (k % 512) else byteAt s.cache d k :=
  byteAt_update_data hO.inj hbn hz v hk

theorem Enough.store_data (hL : Layout sb) (hO : Owned sb s.cache (T.set i d) hand) {bn : Nat}
    (hz : ptr s.cache d (locOf bn) ≠ 0) (v : Blk) (hS : locOf bn ∈ S) {A : Finset Nat} (h : Enough sb S s d A) :
    Enough sb S (s.store (ptr s.cache d (locOf bn)) v) d A := by
  have hr := hO.range (i, locOf bn) (by rwa [refs_set])
  rw [refs_set] at hr
  have hptr := ptr_store_data hO bn v
  have hm : missing (s.store (ptr s.cache d (locOf bn)) v).cache d S = missing s.cache d S := by
    simp only [missing, hptr]
  have hf : freeBlocks sb (s.store (ptr s.cache d (locOf bn)) v).cache = freeBlocks sb s.cache := by
    refine Finset.filter_congr fun b hb => ?_
    rw [blockUsed_store hL (.inr hr.1) v (Finset.mem_range.1 hb)]
  have hl : freeList sb (s.store (ptr s.cache d (locOf bn)) v).cache = freeList sb s.cache := by
    refine List.filter_congr fun b hb => ?_
    rw [blockUsed_store hL (.inr hr.1) v (List.mem_range.1 hb)]
  refine ⟨h.room.store (h.data _ hS (isData_locOf bn) hz) v, by rw [hl, hm]; exact h.bitmap, fun l hl hd hlz => ?_,
    fun l hl hlz => ?_, by rw [hm]; exact h.card, by rw [hm]; exact h.card', by rw [hm, hf]; exact h.free⟩
  · rw [hptr] at hlz ⊢
    exact h.data l hl hd hlz
  · rw [linkedAbove, hm] at hl
    rw [hptr] at hlz ⊢
    exact h.above l hl hlz

/-- The places of the data blocks that hold the bytes `[off, off + n)`. -/
def dataAt (off n : Nat) : Set Loc := {l | ∃ k, off ≤ k ∧ k < off + n ∧ l = locOf (k / 512)}

theorem dataAt_zero (off : Nat) : dataAt off 0 = ∅ :=
  Set.eq_empty_iff_forall_notMem.2 fun _ ⟨_, h1, h2, _⟩ => by omega

theorem dataAt_add (off m n : Nat) : dataAt off (m + n) = dataAt off m ∪ dataAt (off + m) n := by
  ext l
  constructor
  · rintro ⟨k, h1, h2, rfl⟩
    by_cases hk : k < off + m
    · exact .inl ⟨k, h1, hk, rfl⟩
    · exact .inr ⟨k, by omega, by omega, rfl⟩
  · rintro (⟨k, h1, h2, rfl⟩ | ⟨k, h1, h2, rfl⟩)
    · exact ⟨k, h1, by omega, rfl⟩
    · exact ⟨k, by omega, by omega, rfl⟩

theorem dataAt_block {off m : Nat} (hpos : 0 < m) (hm : off % 512 + m ≤ 512) : dataAt off m = {locOf (off / 512)} := by
  ext l
  constructor
  · rintro ⟨k, h1, h2, rfl⟩
    rw [show k / 512 = off / 512 by omega]
    rfl
  · rintro rfl
    exact ⟨off, Nat.le_refl off, by omega, rfl⟩

theorem Fills.store_data (hL : Layout sb) (hO : Owned sb s.cache (T.set i d) hand) {bn : Nat}
    (hz : ptr s.cache d (locOf bn) ≠ 0) (v : Blk) :
    Fills sb {locOf bn} [] s d (s.store (ptr s.cache d (locOf bn)) v) d := by
  have hr := hO.range (i, locOf bn) (by rwa [refs_set])
  rw [refs_set] at hr
  have hptr := ptr_store_data hO bn v
  refine ⟨?_, fun _ h => absurd h List.not_mem_nil, List.nodup_nil, fun l _ => hptr l, fun l hl => ?_, fun b => ?_⟩
  · refine List.filter_congr fun b hb => ?_
    rw [blockUsed_store hL (.inr hr.1) v (List.mem_range.1 hb)]
  · rwa [hptr, Set.mem_singleton_iff.1 hl]
  · rw [Dev.store_lh, mem_absorb]
    simp only [Set.mem_singleton_iff, exists_eq_left, List.not_mem_nil, false_and, exists_false, or_false]
    rw [hptr]

/-! ### The loop of `writei` -/

/-- The bytes `[off, off + cnt)` have been set to `f`. -/
structure Wrote (sb : Superblock) (T : Table) (i : Nat) (hand : Set Nat) (S : Finset Loc) (s : Dev) (d : Dinode)
    (s' : Dev) (d' : Dinode) (off cnt : Nat) (f : Nat → Byte) : Prop where
  owned : Owned sb s'.cache (T.set i d') hand
  rewritten : Rewritten sb T i s d s' d'
  bytes : ∀ k, k < 16523 * 512 →
    byteAt s'.cache d' k = if off ≤ k ∧ k < off + cnt then f (k - off) else byteAt s.cache d k
  mapped : ∀ bn, off / 512 ≤ bn → bn * 512 < off + cnt → ptr s'.cache d' (locOf bn) ≠ 0
  enough : (∃ A, Enough sb S s d A) → ∃ A, Enough sb S s' d' A
  stay : (∀ l ∈ S, ptr s.cache d l ≠ 0) → d' = d
  announced : Announced (T.set i d) s (T.set i d') s'
  fills : ∃ new, (∀ x ∈ new, x.1 ∈ S) ∧ Fills sb (dataAt off cnt) new s d s' d'

theorem Wrote.refl (hO : Owned sb s.cache (T.set i d) hand) {off : Nat}
    (hoff : off % 512 = 0 ∨ ptr s.cache d (locOf (off / 512)) ≠ 0)
    (f : Nat → Byte) : Wrote sb T i hand S s d s d off 0 f := by
  refine ⟨hO, .refl, fun k _ => ?_, fun bn h1 h2 => ?_, id, fun _ => rfl, .refl, [], fun _ h => absurd h List.not_mem_nil, ?_⟩
  · rw [if_neg (by omega)]
  · rcases hoff with hoff | hoff
    · omega
    · rwa [show bn = off / 512 by omega]
  · rw [dataAt_zero]
    exact .refl

theorem Wrote.trans {off m cnt : Nat} {f g : Nat → Byte} (h : Wrote sb T i hand S s d s₁ d₁ off m f)
    (h' : Wrote sb T i hand S s₁ d₁ s₂ d₂ (off + m) cnt g) (hg : ∀ j, g j = f (m + j)) :
    Wrote sb T i hand S s d s₂ d₂ off (m + cnt) f := by
  refine ⟨h'.owned, h.rewritten.trans h'.rewritten, fun k hk => ?_, fun bn h1 h2 => ?_,
    fun he => h'.enough (h.enough he), fun hS => ?_, h.announced.trans h'.announced, ?_⟩
  · rw [h'.bytes k hk, h.bytes k hk]
    by_cases h1 : off + m ≤ k ∧ k < off + m + cnt
    · rw [if_pos h1, if_pos (by omega), hg]
      congr 1; omega
    · rw [if_neg h1]
      by_cases h2 : off ≤ k ∧ k < off + m
      · rw [if_pos h2, if_pos (by omega)]
      · rw [if_neg h2, if_neg (by omega)]
  · by_cases hb : bn * 512 < off + m
    · exact h'.rewritten.ptr_ne (h.mapped bn h1 hb)
    · exact h'.mapped bn (by omega) (by omega)
  · exact (h'.stay fun l hl => h.rewritten.ptr_ne (hS l hl)).trans (h.stay hS)
  · obtain ⟨new, hS, hf⟩ := h.fills
    obtain ⟨new', hS', hf'⟩ := h'.fills
    refine ⟨new ++ new', fun x hx => (List.mem_append.1 hx).elim (hS x) (hS' x), ?_⟩
    rw [dataAt_add]
    exact hf.trans hf'

theorem Wrote.round (hL : Layout sb) {off m : Nat} {f : Nat → Byte} (hoff : off / 512 < 16523)
    (hpos : 0 < m) (hm : off % 512 + m ≤ 512) (hS : (locOf (off / 512)).path ⊆ S) {a : Nat}
    (h : Filled sb T i hand S (locOf (off / 512)) s d a s₁ d₁) :
    Wrote sb T i hand S s d (s₁.store a ((s₁.cache a).move (off % 512) f m)) d₁ off m f := by
  obtain rfl := h.at_
  have hz := h.ne
  have hO := h.owned
  refine ⟨hO.store_data hL hz _, h.grown.rewritten.trans (.store_data hL hO hz _), fun k hk => ?_, fun bn h1 h2 => ?_,
    fun he => ?_, fun hall => h.stay hall, h.announced.trans (.store_data hO _ _), ?_⟩
  · rw [byteAt_store_data hO hoff hz _ (by omega), ← h.grown.byteAt k]
    by_cases hb : k / 512 = off / 512
    · rw [if_pos hb, Block.move_data _ _ _ _ _ (by simp only [BSIZE]; omega)]
      by_cases hin : off % 512 ≤ k % 512 ∧ k % 512 < off % 512 + m
      · rw [if_pos hin, if_pos (by omega)]
        congr 1; omega
      · rw [if_neg hin, if_neg (by omega), byteAt, hb, if_neg hz]
    · rw [if_neg hb, if_neg (by omega)]
  · rw [ptr_store_data hO, show bn = off / 512 by omega]
    exact hz
  · obtain ⟨A, hA⟩ := h.enough he
    exact ⟨A, hA.store_data hL hO hz _ (hS (Loc.self_mem_path _))⟩
  · obtain ⟨new, hnew, hf⟩ := h.fills
    refine ⟨new, hnew, ?_⟩
    have := hf.trans (.store_data hL hO hz ((s₁.cache (ptr s₁.cache d₁ (locOf (off / 512)))).move (off % 512) f m))
    rwa [Set.empty_union, List.append_nil, ← dataAt_block hpos hm] at this

theorem writeLoop_spec (hL : Layout sb) {src : Nat → Byte} {off n tot : Nat} (hO : Owned sb s.cache (T.set i d) hand)
    (hmax : off + (n - tot) ≤ 16523 * 512) (hoff : off % 512 = 0 ∨ tot < n ∨ ptr s.cache d (locOf (off / 512)) ≠ 0)
    (hS : ∀ bn, off / 512 ≤ bn → bn * 512 < off + (n - tot) → (locOf bn).path ⊆ S) :
    wp (writeLoop sb d src off n tot)
      (fun d' s' => Wrote sb T i hand S s d s' d' off (n - tot) fun j => src (tot + j))
      (fun e => AllocFault e ∧ ¬ ∃ A, Enough sb S s d A) s := by
  fun_induction writeLoop sb d src off n tot generalizing s with
  | case2 d off tot h =>
    rw [Nat.sub_eq_zero_of_le (by omega)]
    exact .refl hO (by omega) _
  | case1 d off tot h ih =>
    simp only [BSIZE] at ih ⊢
    have hpath : (locOf (off / 512)).path ⊆ S := hS _ (Nat.le_refl _) (by omega)
    have hm : 0 < min (n - tot) (512 - off % 512) ∧ off % 512 + min (n - tot) (512 - off % 512) ≤ 512 ∧
        min (n - tot) (512 - off % 512) ≤ n - tot := by omega
    generalize min (n - tot) (512 - off % 512) = m at hm ih ⊢
    refine wp.bind (bmap_spec hL hO (by omega) hpath) ?_
    rintro ⟨a, d₁⟩ s₁ h₁
    have hr := h₁.owned.range (i, locOf (off / 512)) (by rw [refs_set, h₁.at_]; exact h₁.ne)
    rw [refs_set, h₁.at_] at hr
    refine wp_bind.2 (wp_bread.2 ⟨fun hge => absurd hge (by have := hL.lt_fssize hr.2; omega), fun _ => ?_⟩)
    have hA : (∃ A, Enough sb S s d A) → ∃ A, LogRoom sb A s₁ := fun he =>
      (h₁.enough he).imp fun _ hA => hA.room
    refine wp.bind ((logMod_spec _ _ hA).mono (fun _ _ => id) fun e he => ⟨.inr he.1, he.2⟩) ?_
    rintro _ s₂ rfl
    have hw := Wrote.round hL (f := fun j => src (tot + j)) (by omega) hm.1 hm.2.1 hpath h₁
    refine (ih d₁ hw.owned (by omega) ?_ fun bn h1 h2 => hS bn (by omega) (by omega)).mono ?_ ?_
    · by_cases hal : (off + m) % 512 = 0
      · exact .inl hal
      · refine .inr (.inr ?_)
        rw [show (off + m) / 512 = off / 512 by omega]
        exact hw.mapped _ (Nat.le_refl _) (by omega)
    · intro d' s' h'
      have := hw.trans h' fun j => by rw [Nat.add_assoc]
      rwa [show m + (n - (tot + m)) = n - tot by omega] at this
    · exact fun e he => ⟨he.1, fun hE => he.2 (hw.enough hE)⟩

/-! ### Reading -/

theorem entryAlloc_of_ne {blk e : Nat} {up : Option Nat} (hz : entry s.cache blk e ≠ 0) (hlt : blk < FSSIZE) :
    wp (entryAlloc sb blk e up) (fun a s' => a = entry s.cache blk e ∧ s' = s) (fun _ => False) s := by
  have hent : entry s.cache blk e = (u32 (s.cache blk).data (4 * e)).toNat := by
    unfold entry at hz ⊢
    split
    · next h => rw [if_pos h] at hz; exact absurd rfl hz
    · rfl
  rw [entryAlloc]
  refine wp_bind.2 (wp_bread.2 ⟨fun hge => absurd hge (by omega), fun _ => ?_⟩)
  rw [if_neg fun h0 => hz (by rw [hent, h0]; rfl)]
  exact ⟨hent.symm, rfl⟩

theorem bmap_of_ne {bn : Nat} (hbn : bn < 16523) (hz : ptr s.cache d (locOf bn) ≠ 0)
    (hlt : ∀ l, ptr s.cache d l < FSSIZE) :
    wp (bmap sb d bn) (fun r s' => r = (ptr s.cache d (locOf bn), d) ∧ s' = s) (fun _ => False) s := by
  rw [bmap]
  split
  · next h =>
    have hloc : locOf bn = .direct (Fin.ofNat 11 bn) := if_pos h
    have hp : ptr s.cache d (locOf bn) = d.addr bn := by rw [hloc, ptr]; congr 1; exact Nat.mod_eq_of_lt h
    rw [hp] at hz ⊢
    rw [addrAlloc, if_neg hz]
    exact ⟨rfl, rfl⟩
  · next h =>
    simp only [NDIRECT, NINDIRECT, NDINDIRECT] at h ⊢
    split
    · next h' =>
      have hp : ptr s.cache d (locOf bn) = entry s.cache (d.addr 11) (bn - 11) := by
        rw [locOf, if_neg (by omega), if_pos (by omega), ptr]; congr 1; exact Nat.mod_eq_of_lt h'
      rw [hp] at hz ⊢
      have hind : d.addr 11 ≠ 0 := fun h0 => hz (by rw [h0, entry_zero])
      rw [addrAlloc, if_neg hind, pure_bind]
      refine wp.bind (entryAlloc_of_ne hz (hlt .ind)) ?_
      rintro a _ ⟨rfl, rfl⟩
      exact ⟨rfl, rfl⟩
    · next h' =>
      rw [if_pos (by omega), show bn - 11 - 128 = bn - 139 by omega]
      have hk : (bn - 139) / 128 % 128 = (bn - 139) / 128 := Nat.mod_eq_of_lt (by omega)
      have hp : ptr s.cache d (locOf bn) =
          entry s.cache (entry s.cache (d.addr 12) ((bn - 139) / 128)) ((bn - 139) % 128) := by
        rw [locOf, if_neg (by omega), if_neg (by omega), ptr]
        simp only [Fin.ofNat, hk, Nat.mod_mod]
      have hleaf := hlt (.leaf (Fin.ofNat 128 ((bn - 139) / 128)))
      simp only [ptr, Fin.ofNat, hk] at hleaf
      rw [hp] at hz ⊢
      have hl : entry s.cache (d.addr 12) ((bn - 139) / 128) ≠ 0 := fun h0 => hz (by rw [h0, entry_zero])
      have hd : d.addr 12 ≠ 0 := fun h0 => hl (by rw [h0, entry_zero])
      rw [addrAlloc, if_neg hd, pure_bind]
      refine wp.bind (entryAlloc_of_ne hl (hlt .dind)) ?_
      rintro _ _ ⟨rfl, rfl⟩
      refine wp.bind (entryAlloc_of_ne hz hleaf) ?_
      rintro _ _ ⟨rfl, rfl⟩
      exact ⟨rfl, rfl⟩

theorem Owned.ptr_lt (hL : Layout sb) (hO : Owned sb s.cache T hand) (hi : T i = some d) (l : Loc) :
    ptr s.cache d l < FSSIZE := by
  by_cases hz : ptr s.cache d l = 0
  · rw [hz]; decide
  · have := hO.range (i, l) (by rwa [refs_some hi])
    rw [refs_some hi] at this
    exact hL.lt_fssize this.2

/-- Writing over blocks that are there, `log_write` faults only where the blocks before the last one do not fit. -/
theorem writeLoop_over (hL : Layout sb) {src : Nat → Byte} {off n tot : Nat} {P : Prop} (hO : Owned sb s.cache (T.set i d) hand)
    (hmax : off + (n - tot) ≤ 16523 * 512)
    (hmap : ∀ bn, off / 512 ≤ bn → bn * 512 < off + (n - tot) → ptr s.cache d (locOf bn) ≠ 0)
    (hP : P → ∃ A, (tot < n → LogRoom sb A s) ∧
      ∀ bn, off / 512 ≤ bn → bn < (off + (n - tot) - 1) / 512 → ptr s.cache d (locOf bn) ≠ 0 → ptr s.cache d (locOf bn) ∈ A) :
    wp (writeLoop sb d src off n tot) (fun _ _ => True) (fun _ => ¬ P) s := by
  fun_induction writeLoop sb d src off n tot generalizing s with
  | case2 d off tot h => trivial
  | case1 d off tot h ih =>
    simp only [BSIZE] at ih ⊢
    have hm : 0 < min (n - tot) (512 - off % 512) ∧ off % 512 + min (n - tot) (512 - off % 512) ≤ 512 ∧
        min (n - tot) (512 - off % 512) ≤ n - tot ∧
        (min (n - tot) (512 - off % 512) < n - tot → (off + min (n - tot) (512 - off % 512)) / 512 = off / 512 + 1) := by omega
    generalize min (n - tot) (512 - off % 512) = m at hm ih ⊢
    have hz := hmap (off / 512) (Nat.le_refl _) (by omega)
    refine wp.bind ((bmap_of_ne (by omega) hz (hO.ptr_lt hL (update_self ..))).mono (fun _ _ => id) fun _ => False.elim) ?_
    rintro _ s₁ ⟨rfl, hs₁⟩
    rw [hs₁]
    have hlt := hO.ptr_lt hL (update_self ..) (locOf (off / 512))
    refine wp_bind.2 (wp_bread.2 ⟨fun hge => absurd hge (by omega), fun _ => ?_⟩)
    refine wp.bind ((logMod_spec _ _ fun hp => ?_).mono (fun _ _ => id) fun e he => he.2) ?_
    · obtain ⟨A, hA, -⟩ := hP hp
      exact ⟨A, hA h⟩
    rintro _ s₂ rfl
    have hptr := ptr_store_data hO (off / 512) ((s.cache (ptr s.cache d (locOf (off / 512)))).move
      (off % 512) (fun j => src (tot + j)) m)
    refine ih d (hO.store_data hL hz _) (by omega) (fun bn h1 h2 => ?_) fun hp => ?_
    · rw [hptr]
      exact hmap bn (by omega) (by omega)
    · obtain ⟨A, hA, hin⟩ := hP hp
      refine ⟨A, fun hlt => (hA h).store (hin _ (Nat.le_refl _) ?_ hz) _, fun bn h1 h2 hne => ?_⟩
      · have := hm.2.2.2 (by omega)
        omega
      · rw [hptr] at hne ⊢
        exact hin bn (by omega) (by omega) hne

theorem readLoop_spec {off n tot : Nat} {acc : List Byte} (hlt : ∀ l, ptr s.cache d l < FSSIZE)
    (hmax : off + (n - tot) ≤ 16523 * 512)
    (hmap : ∀ bn, off / 512 ≤ bn → bn * 512 < off + (n - tot) → ptr s.cache d (locOf bn) ≠ 0) :
    wp (readLoop sb d off n tot acc)
      (fun r s' => r = (acc ++ (List.range (n - tot)).map fun k => byteAt s.cache d (off + k), d) ∧ s' = s)
      (fun _ => False) s := by
  fun_induction readLoop sb d off n tot acc with
  | case2 d off tot acc h =>
    rw [Nat.sub_eq_zero_of_le (by omega)]
    simp
  | case1 d off tot acc h ih =>
    simp only [BSIZE] at ih ⊢
    have hm : 0 < min (n - tot) (512 - off % 512) ∧ off % 512 + min (n - tot) (512 - off % 512) ≤ 512 ∧
        min (n - tot) (512 - off % 512) ≤ n - tot := by omega
    generalize min (n - tot) (512 - off % 512) = m at hm ih ⊢
    have hz := hmap (off / 512) (Nat.le_refl _) (by omega)
    refine wp.bind (bmap_of_ne (by omega) hz hlt) ?_
    rintro _ s₁ ⟨rfl, hs₁⟩
    rw [hs₁]
    refine wp_bind.2 (wp_bread.2 ⟨fun hge => absurd hge (by have := hlt (locOf (off / 512)); omega), fun _ => ?_⟩)
    refine (ih d _ hlt (by omega) fun bn h1 h2 => hmap bn (by omega) (by omega)).post ?_
    rintro _ s₂ ⟨rfl, hs₂⟩
    refine ⟨?_, hs₂⟩
    have hsl : (s.cache (ptr s.cache d (locOf (off / 512)))).slice (off % 512) m =
        (List.range m).map fun k => byteAt s.cache d (off + k) := by
      refine List.map_congr_left fun k hk => ?_
      have := List.mem_range.1 hk
      rw [byteAt, show (off + k) / 512 = off / 512 by omega, if_neg hz,
        show (off + k) % 512 = off % 512 + k by omega]
    rw [hsl, show n - tot = m + (n - (tot + m)) by omega, List.range_add, List.map_append, List.append_assoc,
      List.map_map]
    congr 3
    refine List.map_congr_left fun k _ => ?_
    rw [Function.comp_apply, Nat.add_assoc]

end

end Xv6
