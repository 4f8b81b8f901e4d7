import Xv6.Overwrite

/-!
# The loop of `sys_encr` and `sys_decr`

`applyOn g lo hi` transforms the bytes of a file at the offsets `[lo, hi)`. One round of the loop does
that for the rest of a block, a transaction for up to ten blocks, and the call for the whole file, whose
flag it sets in the last transaction. Every image that the disk has on the way recovers to one of the
states between two transactions (`Stage`).
-/

namespace Xv6

open Prog Function

/-- The bytes at the offsets `[lo, hi)` replaced by their images. -/
def applyOn (g : Byte → Byte) (lo hi : Nat) (bs : List Byte) : List Byte :=
  bs.mapIdx fun j b => if lo ≤ j ∧ j < hi then g b else b

section ApplyOn

variable {g : Byte → Byte} {lo mid hi : Nat} {bs : List Byte}

@[simp] theorem length_applyOn : (applyOn g lo hi bs).length = bs.length := List.length_mapIdx

theorem getElem_applyOn {j : Nat} (hj : j < (applyOn g lo hi bs).length) (hj' : j < bs.length) :
    (applyOn g lo hi bs)[j] = if lo ≤ j ∧ j < hi then g bs[j] else bs[j] :=
  List.getElem_mapIdx ..

theorem applyOn_self (h : hi ≤ lo) : applyOn g lo hi bs = bs := by
  refine List.ext_getElem length_applyOn fun j h1 h2 => ?_
  rw [getElem_applyOn h1 h2, if_neg (by omega)]

theorem applyOn_trans (h1 : lo ≤ mid) (h2 : mid ≤ hi) :
    applyOn g mid hi (applyOn g lo mid bs) = applyOn g lo hi bs := by
  refine List.ext_getElem (by simp) fun j hj hj' => ?_
  simp only [length_applyOn] at hj
  rw [getElem_applyOn _ (by simpa using hj), getElem_applyOn _ hj, getElem_applyOn _ hj]
  by_cases hm : j < mid
  · simp only [hm, show ¬ mid ≤ j by omega, show j < hi by omega, if_false, and_true]
  · simp only [hm, show lo ≤ j by omega, show mid ≤ j by omega, and_false, if_false, true_and]

theorem applyOn_all : applyOn g 0 bs.length bs = bs.map g := by
  refine List.ext_getElem (by simp) fun j h1 _ => ?_
  simp only [length_applyOn] at h1
  rw [getElem_applyOn _ h1, List.getElem_map, if_pos ⟨Nat.zero_le j, h1⟩]

theorem map_range_getD (g : Byte → Byte) (bs : List Byte) :
    (List.range bs.length).map (fun j => g (bs.getD j 0)) = bs.map g := by
  refine List.ext_getElem (by simp) fun j h1 h2 => ?_
  simp only [List.length_map] at h2
  rw [List.getElem_map, List.getElem_map, List.getElem_range, List.getD_eq_getElem _ _ h2]

theorem splice_eq_applyOn {off n : Nat} (h : off + n ≤ bs.length) :
    splice bs off (((bs.drop off).take n).map g) = applyOn g off (off + n) bs := by
  refine List.ext_getElem ?_ fun j h1 h2 => ?_
  · simp only [splice, List.length_append, List.length_take, List.length_map, List.length_drop, length_applyOn]
    omega
  · simp only [length_applyOn] at h2
    rw [getElem_applyOn _ h2]
    simp only [splice, List.getElem_append, List.length_append, List.length_take, List.length_map, List.length_drop]
    by_cases hlt : j < off
    · rw [dif_pos (by omega), dif_pos (by omega), if_neg (by omega), List.getElem_take]
    · by_cases hin : j < off + n
      · rw [dif_pos (by omega), dif_neg (by omega), if_pos (by omega), List.getElem_map, List.getElem_take,
          List.getElem_drop]
        congr 2
        omega
      · rw [dif_neg (by omega), if_neg (by omega), List.getElem_drop]
        congr 1
        omega

end ApplyOn

/-! ### A round and a batch -/

/-- The loop has got from `off` to `off'`. -/
structure Ran (sb : Superblock) (f ip i : Nat) (d : Dinode) (h : Byte → Byte) (off off' : Nat) (k k' : Kernel) : Prop where
  eq : k' = { k with fs := k'.fs, ftable := update k.ftable f { k.ftable f with off := off' } }
  view : View sb ip i d k'.fs
  icache : k'.fs.icache = k.fs.icache
  freed : k'.fs.freed = k.fs.freed
  bytes : contents k'.fs.dev.cache d = applyOn h off off' (contents k.fs.dev.cache d)
  step : LogStep sb k.fs.dev k'.fs.dev
  lh : ∀ b, b ∈ k'.fs.dev.log.lh ↔ b ∈ k.fs.dev.log.lh ∨ b ∈ dataBlocks k.fs.dev.cache d off (off' - off)
  map : ∀ l, ptr k'.fs.dev.cache d l = ptr k.fs.dev.cache d l
  stored : InodeStored sb i (some d) k.fs.dev k'.fs.dev

/-- The log has room for the data blocks that hold the bytes `[off, off + n)`. -/
def RoomFor (sb : Superblock) (v : Dev) (d : Dinode) (off n : Nat) : Prop :=
  ∃ A, LogRoom sb A v ∧ ∀ b ∈ dataBlocks v.cache d off n, b ∈ A

section

variable {sb : Superblock} {f ip i m n off off₁ off₂ : Nat} {d : Dinode} {h : Byte → Byte} {k k₁ k₂ : Kernel} {P : Prop}

theorem Ran.off_eq (hr : Ran sb f ip i d h off off₁ k k₁) : (k₁.ftable f).off = off₁ := by
  rw [hr.eq]
  simp

theorem Ran.refl (hv : View sb ip i d k.fs) (ho : (k.ftable f).off = off) : Ran sb f ip i d h off off k k := by
  refine ⟨?_, hv, rfl, rfl, (applyOn_self (Nat.le_refl off)).symm, Std.Refl.refl _, fun b => ?_, fun _ => rfl,
    .same hv.ok.fs hv.table⟩
  · rw [← ho, update_eq_self]
  · rw [Nat.sub_self, dataBlocks, dataAt_zero, Set.image_empty, Set.mem_empty_iff_false, or_false]

theorem Ran.trans (hr : Ran sb f ip i d h off off₁ k k₁) (hr' : Ran sb f ip i d h off₁ off₂ k₁ k₂) (h1 : off ≤ off₁)
    (h2 : off₁ ≤ off₂) : Ran sb f ip i d h off off₂ k k₂ := by
  refine ⟨?_, hr'.view, hr'.icache.trans hr.icache, hr'.freed.trans hr.freed, ?_, IsTrans.trans _ _ _ hr.step hr'.step,
    fun b => ?_, fun l => (hr'.map l).trans (hr.map l), hr.stored.trans hr'.stored⟩
  · rw [hr'.eq, hr.eq]
    simp only [update_idem, update_self]
  · rw [hr'.bytes, hr.bytes, applyOn_trans h1 h2]
  · rw [hr'.lh, hr.lh, dataBlocks_congr hr.map, show off₂ - off = off₁ - off + (off₂ - off₁) by omega, dataBlocks_add,
      Nat.add_sub_cancel' h1, Set.mem_union, or_assoc]

theorem Ran.room (hr : Ran sb f ip i d h off off₁ k k₁) (hm : RoomFor sb k.fs.dev d off (off₁ - off + n)) (h1 : off ≤ off₁) :
    RoomFor sb k₁.fs.dev d off₁ n := by
  obtain ⟨A, hA, hin⟩ := hm
  rw [dataBlocks_add, Nat.add_sub_cancel' h1] at hin
  refine ⟨A, ⟨?_, hr.step.nodup hA.nodup, fun x hx => ?_, hA.card, hA.card'⟩, fun b hb => hin b (.inr ?_)⟩
  · rw [hr.step.out]
    exact hA.tx
  · rcases (hr.lh x).1 hx with hx | hx
    · exact hA.sub x hx
    · exact hin x (.inl hx)
  · rwa [← dataBlocks_congr hr.map]

theorem RoomFor.mono {v : Dev} (hm : RoomFor sb v d off (m + n)) : RoomFor sb v d off m := by
  obtain ⟨A, hA, hin⟩ := hm
  rw [dataBlocks_add] at hin
  exact ⟨A, hA, fun b hb => hin b (.inl hb)⟩

theorem cryptChunk_spec (hL : Layout sb) (hv : View sb ip i d k.fs) (ht : d.type ≠ T_DEV) (ho : (k.ftable f).off = off)
    (hoff : off < 2 ^ 32) (g : BitVec 32 → Byte → Byte)
    (hP : P → RoomFor sb k.fs.dev d off (min d.size.toNat (off + 512) - off)) :
    wp (cryptChunk sb g f ip) (fun more k' => (more = true ↔ off < d.size.toNat) ∧
      Ran sb f ip i d (g k.encrKey) off (max off (min d.size.toNat (off + 512))) k k') (fun e => LogFault e ∧ ¬ P) k := by
  have hsize := hv.fileOk.size_le
  rw [cryptChunk]
  refine wp_bind.2 (wp_get.2 ?_)
  dsimp only
  rw [ho]
  by_cases hlt : off < d.size.toNat
  · refine wp_bind.2 (wp_onFs.2 ((hv.readi hL ht (Nat.le_of_lt hlt) (by omega)).mono ?_ fun _ => False.elim))
    rintro ⟨n, buf⟩ s ⟨hr, rfl⟩
    obtain ⟨rfl, rfl⟩ := Prod.mk.inj hr
    dsimp only
    obtain ⟨n, hn⟩ : ∃ n, readLen d off 512 = n := ⟨_, rfl⟩
    have hn' : n = min 512 (d.size.toNat - off) := by rw [← hn, readLen]
    have hmin : min d.size.toNat (off + 512) - off = n := by omega
    rw [hn, if_pos (by omega), Int.toNat_natCast]
    rw [hmin] at hP
    refine wp_bind.2 (wp_onFs.2 ((hv.writei_mapped hL ht (by omega) hP).post ?_))
    rintro _ s' ⟨-, he, hbytes⟩
    rw [advance, if_pos (by omega)]
    have hmax : max off (min d.size.toNat (off + 512)) = off + n := by omega
    have hnext : ((k.ftable f).off + (n : Int).toNat) % 2 ^ 32 = off + n := by
      rw [ho, Int.toNat_natCast, Nat.mod_eq_of_lt (by omega)]
    have htake : ((contents k.fs.dev.cache d).drop off).take 512 = ((contents k.fs.dev.cache d).drop off).take n := by
      rw [List.take_eq_take_iff, List.length_drop, length_contents]
      omega
    have hbuf : (((contents k.fs.dev.cache d).drop off).take n).length = n := by
      simp only [List.length_take, List.length_drop, length_contents]
      omega
    have hsrc : (List.range n).map (fun j => g k.encrKey ((((contents k.fs.dev.cache d).drop off).take n).getD j 0)) =
        (((contents k.fs.dev.cache d).drop off).take n).map (g k.encrKey) := by
      have := map_range_getD (g k.encrKey) (((contents k.fs.dev.cache d).drop off).take n)
      rwa [hbuf] at this
    rw [hmax]
    refine ⟨iff_of_true rfl hlt, ?_, he.view, ?_, he.freed, ?_, he.step, ?_, ?_, he.stored⟩
    · simp only [hnext]
    · change s'.icache = k.fs.icache
      rw [he.icache, ← hv.d, update_eq_self]
    · refine hbytes.trans ?_
      rw [htake, hsrc]
      exact splice_eq_applyOn (by rw [length_contents]; omega)
    · rw [Nat.add_sub_cancel_left]
      exact he.lh
    · rw [← hv.d]
      exact fun l => by rw [hv.d, he.map, hv.d]
  · -- at or behind the end `readi` returns 0 or -1
    refine wp_bind.2 (wp_onFs.2 ((hv.readi_end hL ht (Nat.le_of_not_lt hlt) hoff (by decide)).mono ?_ fun _ => False.elim))
    rintro ⟨n, buf⟩ s ⟨hn, rfl⟩
    dsimp only at hn ⊢
    rw [if_neg (by omega), show max off (min d.size.toNat (off + 512)) = off by omega]
    exact ⟨iff_of_false (by decide) hlt, .refl hv ho⟩

theorem cryptBatch_spec (hL : Layout sb) (ht : d.type ≠ T_DEV) (g : BitVec 32 → Byte → Byte) (count : Nat)
    (hv : View sb ip i d k.fs) (ho : (k.ftable f).off = off) (hoff : off < 2 ^ 32)
    (hP : P → RoomFor sb k.fs.dev d off (min d.size.toNat (off + 512 * count) - off)) :
    wp (cryptBatch sb g f ip count) (fun more k' => (more = true ↔ count = 0 ∨ off + 512 * (count - 1) < d.size.toNat) ∧
      Ran sb f ip i d (g k.encrKey) off (max off (min d.size.toNat (off + 512 * count))) k k') (fun e => LogFault e ∧ ¬ P) k := by
  have hsize := hv.fileOk.size_le
  induction count generalizing k off with
  | zero =>
    refine ⟨iff_of_true rfl (.inl rfl), ?_⟩
    rw [show max off (min d.size.toNat (off + 512 * 0)) = off by omega]
    exact .refl hv ho
  | succ count ih =>
    refine wp.bind (cryptChunk_spec hL hv ht ho hoff g fun hp => ?_) ?_
    · have := hP hp
      rw [show min d.size.toNat (off + 512 * (count + 1)) - off = min d.size.toNat (off + 512) - off +
        (min d.size.toNat (off + 512 * (count + 1)) - max off (min d.size.toNat (off + 512))) by omega] at this
      exact this.mono
    rintro more k₁ ⟨hmore, h₁⟩
    have hkey : k₁.encrKey = k.encrKey := by rw [h₁.eq]
    split
    · next hm =>
      have hlt := hmore.1 hm
      refine (ih h₁.view h₁.off_eq (by omega) fun hp => h₁.room ?_ (by omega)).post ?_
      · rw [show max off (min d.size.toNat (off + 512)) - off +
          (min d.size.toNat (max off (min d.size.toNat (off + 512)) + 512 * count) - max off (min d.size.toNat (off + 512))) =
          min d.size.toNat (off + 512 * (count + 1)) - off by omega]
        exact hP hp
      rintro more' k₂ ⟨hmore', h₂⟩
      rw [hkey] at h₂
      refine ⟨hmore'.trans (by omega), ?_⟩
      have := h₁.trans h₂ (by omega) (by omega)
      rwa [show max (max off (min d.size.toNat (off + 512)))
        (min d.size.toNat (max off (min d.size.toNat (off + 512)) + 512 * count)) =
        max off (min d.size.toNat (off + 512 * (count + 1))) by omega] at this
    · next hm =>
      have hge : ¬ off < d.size.toNat := fun hlt => hm (hmore.2 hlt)
      refine ⟨iff_of_false (by decide) (by omega), ?_⟩
      rwa [show max off (min d.size.toNat (off + 512)) = max off (min d.size.toNat (off + 512 * (count + 1))) by omega] at h₁

theorem RoomFor.of_nil {v : Dev} (htx : 1 ≤ v.log.outstanding) (hl : v.log.lh = []) (d : Dinode) {off n : Nat}
    (hm : (off + n + 511) / 512 - off / 512 < LOGSIZE) (hm' : (off + n + 511) / 512 - off / 512 + 1 < sb.nlog) :
    RoomFor sb v d off n := by
  have hcard : ((Finset.Ico (off / 512) ((off + n + 511) / 512)).image fun bn => ptr v.cache d (locOf bn)).card ≤
      (off + n + 511) / 512 - off / 512 := by
    refine Finset.card_image_le.trans ?_
    rw [Nat.card_Ico]
  refine ⟨(Finset.Ico (off / 512) ((off + n + 511) / 512)).image fun bn => ptr v.cache d (locOf bn),
    ⟨htx, by rw [hl]; exact List.nodup_nil, by simp [hl], by omega, by omega⟩, fun b hb => ?_⟩
  obtain ⟨j, h1, h2, rfl⟩ := mem_dataBlocks.1 hb
  exact Finset.mem_image.2 ⟨j / 512, Finset.mem_Ico.2 ⟨by omega, by omega⟩, rfl⟩

/-! ### Transactions -/

theorem onFs_spec {α : Type} {x : FsM α} {Q : α → Fs → Prop} {E : Fault → Prop} (hx : wp x Q E k.fs) :
    wp (onFs x) (fun a k' => k' = { k with fs := k'.fs } ∧ Q a k'.fs) E k :=
  wp_onFs.2 (hx.post fun _ _ hq => ⟨rfl, hq⟩)

theorem onDev_spec {α : Type} {x : DevM α} {Q : α → Dev → Prop} {E : Fault → Prop} {s : Fs} (hx : wp x Q E s.dev) :
    wp (onDev x) (fun a s' => s' = { s with dev := s'.dev } ∧ Q a s'.dev) E s :=
  wp_onDev.2 (hx.post fun _ _ hq => ⟨rfl, hq⟩)

structure Resting (sb : Superblock) (ip i : Nat) (d : Dinode) (k : Kernel) : Prop where
  view : View sb ip i d k.fs
  unlocked : (k.fs.icache ip).locked = false
  log : k.fs.dev.log = ⟨0, false, []⟩
  logOk : LogOk sb k.fs.dev

/-- The home blocks of `V` hold the inode `d` as number `i`, with the contents `bs`. -/
def HasFile (sb : Superblock) (i : Nat) (d : Dinode) (bs : List Byte) (V : Image) : Prop :=
  ∀ V', (∀ b, Home sb b → V' b = V b) → dinodeOf sb V' i = d ∧ contents V' d = bs

theorem View.hasFile (hL : Layout sb) {s : Fs} (hv : View sb ip i d s) :
    HasFile sb i d (contents s.dev.cache d) s.dev.cache := by
  intro V' hV
  obtain ⟨hv', hc⟩ := hv.home hL (v := { s.dev with cache := V' }) hv.ok.fs.head hV
  exact ⟨hv'.dinode, hc⟩

/-- The images between two transactions: `t` full ones of ten blocks each are done, or the last, which sets
the flag, is. -/
def Stage (sb : Superblock) (i : Nat) (d : Dinode) (flag : BitVec 16) (h : Byte → Byte) (bs : List Byte) (V : Image) : Prop :=
  (∃ t, (t = 0 ∨ 5120 * (t - 1) + 4608 < bs.length) ∧ HasFile sb i d (applyOn h 0 (min bs.length (5120 * t)) bs) V) ∨
    HasFile sb i { d with major := flag } (bs.map h) V

/-- The state after the last transaction: the file has the bytes `bs'`, and a reference is gone. -/
structure Finished (sb : Superblock) (f ip i : Nat) (d : Dinode) (flag : BitVec 16) (off' : Nat) (bs' : List Byte)
    (k k' : Kernel) : Prop where
  eq : k' = { k with fs := k'.fs, ftable := update k.ftable f { k.ftable f with off := off' } }
  ok : CacheOk sb k'.fs
  icache : k'.fs.icache = update k.fs.icache ip
    { k.fs.icache ip with d := { d with major := flag }, ref := (k.fs.icache ip).ref - 1 }
  log : k'.fs.dev.log = ⟨0, false, []⟩
  logOk : LogOk sb k'.fs.dev
  file : HasFile sb i { d with major := flag } bs' k'.fs.dev.cache

theorem Finished.dinode {flag : BitVec 16} {bs : List Byte} (hf : Finished sb f ip i d flag off bs k k₁) :
    dinodeOf sb k₁.fs.dev.cache i = { d with major := flag } := (hf.file _ fun _ _ => rfl).1

theorem Finished.bytes {flag : BitVec 16} {bs : List Byte} (hf : Finished sb f ip i d flag off bs k k₁) :
    contents k₁.fs.dev.cache { d with major := flag } = bs := (hf.file _ fun _ _ => rfl).2

theorem LogOk.setLog {v : Dev} (hl : LogOk sb v) {l : Log} (he : l.lh = v.log.lh) : LogOk sb { v with log := l } :=
  ⟨hl.clean, hl.area, fun b hb hno => hl.unlogged b hb (he ▸ hno), he ▸ hl.head⟩

/-- Before the lock is released: a transaction has taken the file from `k` and the offset `off` to the offset `off'`. -/
structure Batched (sb : Superblock) (f ip i : Nat) (d : Dinode) (off off' : Nat) (bs' : List Byte) (k k' : Kernel) : Prop where
  eq : k' = { k with fs := k'.fs, ftable := update k.ftable f { k.ftable f with off := off' } }
  view : View sb ip i d k'.fs
  icache : k'.fs.icache = update k.fs.icache ip { k.fs.icache ip with locked := true }
  bytes : contents k'.fs.dev.cache d = bs'
  disk : k'.fs.dev.disk = k.fs.dev.disk
  hist : k'.fs.dev.hist = k.fs.dev.hist
  out : k'.fs.dev.log.outstanding = 1
  committing : k'.fs.dev.log.committing = false
  lh : ∀ b, b ∈ k'.fs.dev.log.lh ↔ b ∈ dataBlocks k.fs.dev.cache d off (off' - off)
  logOk : LogOk sb k'.fs.dev
  map : ∀ l, ptr k'.fs.dev.cache d l = ptr k.fs.dev.cache d l
  bytes_other : ∀ j e, j ≠ i → diskTable sb k.fs.dev.cache j = some e → contents k'.fs.dev.cache e = contents k.fs.dev.cache e
  table : diskTable sb k'.fs.dev.cache = diskTable sb k.fs.dev.cache

theorem Batched.length_le {bs : List Byte} (hb : Batched sb f ip i d off off₁ bs k k₁) (h1 : off ≤ off₁) :
    k₁.fs.dev.log.lh.length ≤ (off₁ + 511) / 512 - off / 512 := by
  have hsub : k₁.fs.dev.log.lh.toFinset ⊆
      (Finset.Ico (off / 512) ((off₁ + 511) / 512)).image fun bn => ptr k.fs.dev.cache d (locOf bn) := fun b hm => by
    obtain ⟨j, h2, h3, rfl⟩ := mem_dataBlocks.1 ((hb.lh b).1 (List.mem_toFinset.1 hm))
    exact Finset.mem_image.2 ⟨j / 512, Finset.mem_Ico.2 ⟨by omega, by omega⟩, rfl⟩
  have := (Finset.card_le_card hsub).trans Finset.card_image_le
  rwa [List.toFinset_card_of_nodup hb.logOk.head.nodup, Nat.card_Ico] at this

theorem Resting.batch (hL : Layout sb) (ht : d.type ≠ T_DEV) (g : BitVec 32 → Byte → Byte) (hk : Resting sb ip i d k)
    (ho : (k.ftable f).off = off) (hoff : off < 2 ^ 32)
    (hlog : (max off (min d.size.toNat (off + 5120)) + 511) / 512 - off / 512 + 1 < sb.nlog)
      {R : Kernel → Prop} {rest : Bool → KM Unit}
    (hrest : ∀ more k', (more = true ↔ off + 4608 < d.size.toNat) →
      Batched sb f ip i d off (max off (min d.size.toNat (off + 5120)))
        (applyOn (g k.encrKey) off (max off (min d.size.toNat (off + 5120))) (contents k.fs.dev.cache d)) k k' →
      wp (rest more) (fun _ => R) (fun _ => False) k') :
    wp (do
      beginOpK
      onFs (ilock sb ip)
      let more ← cryptBatch sb g f ip 10
      rest more) (fun _ => R) (fun _ => False) k := by
  obtain ⟨hv, hu, hl, hlo⟩ := hk
  refine wp.bind (onFs_spec (onDev_spec (beginOp_idle hl))) ?_
  rintro _ k₁ ⟨e₁, s₁, v₁⟩
  obtain ⟨hv₁, hc₁⟩ := hv.home hL (v := k₁.fs.dev) (by rw [v₁]; exact .nil hL.logArea) (by rw [v₁]; exact fun _ _ => rfl)
  rw [← s₁] at hv₁
  refine wp.bind (onFs_spec (hv₁.ilock (by rw [s₁]; exact hu))) ?_
  rintro _ k₂ ⟨e₂, s₂⟩
  have hv₂ : View sb ip i d k₂.fs := by
    rw [s₂]
    exact hv₁.set hv₁.pos rfl rfl rfl rfl
  have hd₂ : k₂.fs.dev = { k.fs.dev with log := ⟨1, false, []⟩ } := by rw [s₂, v₁]
  have hi₂ : k₂.fs.icache = update k.fs.icache ip { k.fs.icache ip with locked := true } := by rw [s₂, s₁]
  have hkey : k₂.encrKey = k.encrKey := by rw [e₂, e₁]
  have ho₂ : (k₂.ftable f).off = off := by
    rw [e₂, e₁]
    exact ho
  refine wp.bind ((cryptBatch_spec (P := True) hL ht g 10 hv₂ ho₂ hoff fun _ => ?_).mono
    (fun _ _ => id) fun _ he => he.2 trivial) ?_
  · rw [hd₂]
    refine .of_nil (Int.le_refl 1) rfl d ?_ (by omega)
    simp only [LOGSIZE, MAXOPBLOCKS]
    omega
  rintro more k₃ ⟨hmore, h₃⟩
  rw [hkey] at h₃
  have hlo₂ : LogOk sb k₂.fs.dev := by
    rw [hd₂]
    exact hlo.setLog (by rw [hl])
  have hlh := h₃.lh
  have hbytes := h₃.bytes
  have hmap := h₃.map
  have hstep := h₃.step
  have hst := h₃.stored
  rw [hd₂] at hlh hbytes hmap hstep hst
  refine hrest more k₃ (hmore.trans (by omega)) ⟨?_, h₃.view, h₃.icache.trans hi₂, hbytes, hstep.disk, hstep.hist,
    hstep.out, hstep.committing, fun b => ?_, h₃.step.logOk hlo₂ h₃.view.ok.fs.head, hmap, hst.bytes, ?_⟩
  · rw [h₃.eq, e₂, e₁]
  · rw [hlh]
    simp
  · rw [hst.table]
    exact Table.set_eq hv.table

theorem Recovers.congr {x V V' : Image} (hr : Recovers sb x V) (hc : ∀ b, Home sb b → V b = V' b) : Recovers sb x V' :=
  ⟨hr.head, fun b hb => (hr.img b hb).trans (hc b hb)⟩

theorem Resting.disk (hk : Resting sb ip i d k) {b : Nat} (hb : Home sb b) : k.fs.dev.disk b = k.fs.dev.cache b :=
  (hk.logOk.unlogged b hb (by rw [hk.log]; exact List.not_mem_nil)).symm

theorem Batched.close (hL : Layout sb) {bs : List Byte} (hk : Resting sb ip i d k) (hb : Batched sb f ip i d off off₁ bs k k₁)
    {R : Kernel → Prop} {rest : KM Unit}
    (hrest : ∀ k₂, Resting sb ip i d k₂ →
      k₂ = { k with fs := k₂.fs, ftable := update k.ftable f { k.ftable f with off := off₁ } } →
      k₂.fs.icache = k.fs.icache → contents k₂.fs.dev.cache d = bs →
      (∀ x ∈ k₂.fs.dev.hist, x ∈ k.fs.dev.hist ∨ Recovers sb x k.fs.dev.cache ∨ Recovers sb x k₂.fs.dev.cache) →
      wp rest (fun _ => R) (fun _ => False) k₂) :
    wp (do
      onFs (iunlock ip)
      endOpK sb
      rest) (fun _ => R) (fun _ => False) k₁ := by
  refine wp.bind (onFs_spec (hb.view.iunlock (by rw [hb.icache, update_self]))) ?_
  rintro _ k₂ ⟨e₂, s₂⟩
  have hv₂ : View sb ip i d k₂.fs := by
    rw [s₂]
    exact hb.view.set hb.view.pos rfl rfl rfl rfl
  have hd₂ : k₂.fs.dev = k₁.fs.dev := by rw [s₂]
  have hi₂ : k₂.fs.icache = k.fs.icache := by
    rw [s₂]
    simp only [hb.icache, update_idem, update_self]
    rw [← hk.unlocked, update_eq_self]
  refine wp.bind (onFs_spec (onDev_spec (endOp_last hL.logArea (by rw [hd₂]; exact hb.logOk) (by rw [hd₂]; exact hb.out)
    (by rw [hd₂]; exact hb.committing)))) ?_
  rintro _ k₃ ⟨e₃, s₃, hc⟩
  obtain ⟨hv₃, hc₃⟩ := hv₂.home hL hc.logOk.head hc.cache
  rw [← s₃] at hv₃
  have hi₃ : k₃.fs.icache = k.fs.icache := by rw [s₃, hi₂]
  refine hrest k₃ ⟨hv₃, by rw [hi₃]; exact hk.unlocked, hc.log, hc.logOk⟩ ?_ hi₃ ?_ fun x hx => ?_
  · rw [e₃, e₂, hb.eq]
  · rw [hc₃, hd₂, hb.bytes]
  · rcases hc.hist x hx with hx | hx | hx
    · rw [hd₂, hb.hist] at hx
      exact .inl hx
    · rw [hd₂, hb.disk] at hx
      exact .inr (.inl (hx.congr fun b hb => hk.disk hb))
    · exact .inr (.inr (hx.congr fun b hb => (hc.cache b hb).symm))

theorem Batched.finish (hL : Layout sb) (hlog : 12 ≤ sb.nlog) (hlink : d.nlink ≠ 0) {bs : List Byte} (flag : BitVec 16)
    (hk : Resting sb ip i d k) (hb : Batched sb f ip i d off off₁ bs k k₁) (hlen : k₁.fs.dev.log.lh.length ≤ 10) :
    wp (cryptFinish sb flag ip) (fun _ k₂ => Finished sb f ip i d flag off₁ bs k k₂ ∧
      ∀ x ∈ k₂.fs.dev.hist, x ∈ k.fs.dev.hist ∨ Recovers sb x k.fs.dev.cache ∨ Recovers sb x k₂.fs.dev.cache)
      (fun _ => False) k₁ := by
  have hroomy : ∃ A, LogRoom sb A k₁.fs.dev := ⟨_, .of_length (Int.le_of_eq hb.out.symm) hb.logOk.head.nodup
    (by simp only [LOGSIZE, MAXOPBLOCKS]; omega) (by omega)⟩
  refine wp.bind (onFs_spec ((hb.view.setFields (P := True) (g := fun d => { d with major := flag }) hL rfl rfl rfl
    fun _ => hroomy).mono (fun _ _ => id) fun _ he => he.2 trivial)) ?_
  rintro _ k₂ ⟨e₂, h₂, hbytes₂⟩
  have hl₂ : (k₂.fs.icache ip).locked = true := by
    rw [h₂.icache, update_self]
    simp only [hb.icache, update_self]
  refine wp.bind (onFs_spec (h₂.view.iunlockput hl₂ fun hz => absurd hz hlink)) ?_
  rintro _ k₃ ⟨e₃, s₃⟩
  have hv₂ := h₂.view
  have hok₃ : CacheOk sb k₃.fs := by
    rw [s₃]
    exact hv₂.ok.set_entry hv₂.lt hv₂.pos rfl rfl fun _ => hv₂.ok.sync ip hv₂.lt hv₂.pos hv₂.valid
  have hd₃ : k₃.fs.dev = k₂.fs.dev := by rw [s₃]
  have hi₃ : k₃.fs.icache = update k.fs.icache ip
      { k.fs.icache ip with d := { d with major := flag }, ref := (k.fs.icache ip).ref - 1 } := by
    rw [s₃]
    simp only [h₂.icache, hb.icache, update_idem, update_self]
    rw [← hk.unlocked]
  refine wp.post (onFs_spec (onDev_spec (endOp_last hL.logArea (by rw [hd₃]; exact h₂.logOk hb.logOk)
    (by rw [hd₃, h₂.step.out]; exact hb.out) (by rw [hd₃, h₂.step.committing]; exact hb.committing)))) ?_
  rintro _ k₄ ⟨e₄, s₄, hc⟩
  have hcache : ∀ b, Home sb b → k₄.fs.dev.cache b = k₂.fs.dev.cache b := fun b hb => by rw [hc.cache b hb, hd₃]
  obtain ⟨hv₄, hc₄⟩ := hv₂.home hL hc.logOk.head hcache
  have hfile := hv₄.hasFile hL
  simp only [hc₄, hbytes₂, hb.bytes] at hfile
  refine ⟨⟨?_, ?_, ?_, hc.log, hc.logOk, hfile⟩, fun x hx => ?_⟩
  · rw [e₄, e₃, e₂, hb.eq]
  · rw [s₄]
    exact hok₃.home hL hc.logOk.head hc.cache
  · rw [s₄, hi₃]
  · rcases hc.hist x hx with hx | hx | hx
    · rw [hd₃, h₂.step.hist, hb.hist] at hx
      exact .inl hx
    · rw [hd₃, h₂.step.disk, hb.disk] at hx
      exact .inr (.inl (hx.congr fun b hb => hk.disk hb))
    · exact .inr (.inr (hx.congr fun b hb => (hc.cache b hb).symm))

theorem cryptLoop_spec (hL : Layout sb) (hlog : 12 ≤ sb.nlog) (ht : d.type ≠ T_DEV) (hlink : d.nlink ≠ 0)
    (flag : BitVec 16) (g : BitVec 32 → Byte → Byte) {bs : List Byte} (hbs : bs.length = d.size.toNat) (fuel t : Nat)
    (hk : Resting sb ip i d k) (ho : (k.ftable f).off = min d.size.toNat (5120 * t))
    (hbytes : contents k.fs.dev.cache d = applyOn (g k.encrKey) 0 (min d.size.toNat (5120 * t)) bs)
    (hfull : t = 0 ∨ 5120 * (t - 1) + 4608 < bs.length) (hfuel : d.size.toNat - 5120 * t < fuel) :
    wp (cryptLoop sb flag g f ip fuel) (fun _ k' => Finished sb f ip i d flag bs.length (bs.map (g k.encrKey)) k k' ∧
      ∀ x ∈ k'.fs.dev.hist, x ∈ k.fs.dev.hist ∨ ∃ V, Recovers sb x V ∧ Stage sb i d flag (g k.encrKey) bs V)
      (fun _ => False) k := by
  induction fuel generalizing k t with
  | zero => omega
  | succ fuel ih =>
    have hstage : Stage sb i d flag (g k.encrKey) bs k.fs.dev.cache :=
      .inl ⟨t, hfull, by rw [hbs, ← hbytes]; exact hk.view.hasFile hL⟩
    have hsize := hk.view.fileOk.size_le
    refine hk.batch hL ht g ho (by omega) (by omega) fun more k₁ hmore h₁ => ?_
    rw [hbytes, applyOn_trans (Nat.zero_le _) (by omega), show max (min d.size.toNat (5120 * t))
      (min d.size.toNat (min d.size.toNat (5120 * t) + 5120)) = min d.size.toNat (5120 * (t + 1)) by omega] at h₁
    have hlen := h₁.length_le (by omega)
    split
    · next hm =>
      have hlt := hmore.1 hm
      refine h₁.close hL hk fun k₂ hk₂ e₂ i₂ b₂ hist₂ => ?_
      have hkey : k₂.encrKey = k.encrKey := by rw [e₂]
      have ho₂ : (k₂.ftable f).off = min d.size.toNat (5120 * (t + 1)) := by
        rw [e₂]
        simp
      have hstage₂ : Stage sb i d flag (g k.encrKey) bs k₂.fs.dev.cache :=
        .inl ⟨t + 1, by omega, by rw [hbs, ← b₂]; exact hk₂.view.hasFile hL⟩
      refine (ih (t + 1) hk₂ ho₂ (by rw [hkey]; exact b₂) (by omega) (by omega)).post ?_
      rintro _ k₃ ⟨h₃, hist₃⟩
      rw [hkey] at h₃ hist₃
      refine ⟨⟨?_, h₃.ok, ?_, h₃.log, h₃.logOk, h₃.file⟩, fun x hx => ?_⟩
      · rw [h₃.eq, e₂]
        simp only [update_idem, update_self]
      · rw [h₃.icache, i₂]
      · rcases hist₃ x hx with hx | hx
        · rcases hist₂ x hx with hx | hx | hx
          · exact .inl hx
          · exact .inr ⟨_, hx, hstage⟩
          · exact .inr ⟨_, hx, hstage₂⟩
        · exact .inr hx
    · next hm =>
      have hge : ¬ min d.size.toNat (5120 * t) + 4608 < d.size.toNat := fun hlt => hm (hmore.2 hlt)
      rw [show min d.size.toNat (5120 * (t + 1)) = bs.length by omega, applyOn_all] at h₁
      refine (h₁.finish hL hlog hlink flag hk (by omega)).post ?_
      rintro _ k₂ ⟨h₂, hist₂⟩
      refine ⟨h₂, fun x hx => ?_⟩
      rcases hist₂ x hx with hx | hx | hx
      · exact .inl hx
      · exact .inr ⟨_, hx, hstage⟩
      · exact .inr ⟨_, hx, .inr h₂.file⟩

end

end Xv6
