import Xv6.Owners
import Xv6.Sysfile

/-!
# Rewriting a file in place

`sys_encr` and `sys_decr` write back what they have read, up to 512 bytes at a time. On a file without holes
such a write allocates nothing: it stores into the data blocks it meets, logs them, and leaves the inode
alone. `View` is a referenced, valid cache entry; the functions used on a locked inode are given here
with the exact states they lead to.
-/

namespace Xv6

open Prog Function

/-- The cache entry `ip` holds inode `i` with the on-disk fields `d`. -/
structure View (sb : Superblock) (ip i : Nat) (d : Dinode) (s : Fs) : Prop where
  ok : CacheOk sb s
  lt : ip < NINODE
  pos : 0 < (s.icache ip).ref
  valid : (s.icache ip).valid = true
  inum : (s.icache ip).inum = i
  d : (s.icache ip).d = d

section

variable {sb : Superblock} {v : Dev} {s : Fs} {ip i : Nat} {d : Dinode} {P : Prop} {off n : Nat} {src : Nat → Byte}

theorem LogRoom.of_length (htx : 1 ≤ v.log.outstanding) (hn : v.log.lh.Nodup) (hlen : v.log.lh.length < LOGSIZE)
    (hlen' : v.log.lh.length + 1 < sb.nlog) : LogRoom sb v.log.lh.toFinset v :=
  ⟨htx, hn, fun _ => List.mem_toFinset.2, by rwa [List.toFinset_card_of_nodup hn], by rwa [List.toFinset_card_of_nodup hn]⟩

/-! ### In place -/

/-- The data blocks that hold the bytes `[off, off + n)`. -/
def dataBlocks (c : Image) (d : Dinode) (off n : Nat) : Set Nat := Set.image (ptr c d) (dataAt off n)

theorem mem_dataBlocks {c : Image} {b : Nat} :
    b ∈ dataBlocks c d off n ↔ ∃ k, off ≤ k ∧ k < off + n ∧ b = ptr c d (locOf (k / 512)) := by
  constructor
  · rintro ⟨_, ⟨k, h1, h2, rfl⟩, rfl⟩
    exact ⟨k, h1, h2, rfl⟩
  · rintro ⟨k, h1, h2, rfl⟩
    exact ⟨_, ⟨k, h1, h2, rfl⟩, rfl⟩

theorem dataBlocks_congr {c c' : Image} {d' : Dinode} (h : ∀ l, ptr c' d' l = ptr c d l) (off n : Nat) :
    dataBlocks c' d' off n = dataBlocks c d off n := by
  rw [dataBlocks, dataBlocks, funext h]

theorem dataBlocks_add (c : Image) (d : Dinode) (off m n : Nat) :
    dataBlocks c d off (m + n) = dataBlocks c d off m ∪ dataBlocks c d (off + m) n := by
  rw [dataBlocks, dataAt_add, Set.image_union]
  rfl

theorem writeLoop_mapped (hL : Layout sb) {T : Table} {hand : Set Nat} {tot : Nat} (hO : Owned sb v.cache (T.set i d) hand)
    (hmax : off + (n - tot) ≤ 16523 * 512) (hm : ∀ k, off ≤ k → k < off + (n - tot) → ptr v.cache d (locOf (k / 512)) ≠ 0)
    (hP : P → ∃ A, LogRoom sb A v ∧ ∀ b ∈ dataBlocks v.cache d off (n - tot), b ∈ A) :
    wp (writeLoop sb d src off n tot) (fun d' _ => d' = d) (fun e => LogFault e ∧ ¬ P) v := by
  fun_induction writeLoop sb d src off n tot generalizing v with
  | case2 d off tot h => rfl
  | case1 d off tot h ih =>
    simp only [BSIZE] at ih ⊢
    have hround : 0 < min (n - tot) (512 - off % 512) ∧ min (n - tot) (512 - off % 512) ≤ n - tot := by omega
    generalize min (n - tot) (512 - off % 512) = m at hround ih ⊢
    have hz := hm off (Nat.le_refl off) (by omega)
    have hlt := hO.ptr_lt hL (update_self ..)
    refine wp.bind ((bmap_of_ne (by omega) hz hlt).mono (fun _ _ => id) fun _ => False.elim) ?_
    rintro ⟨a, d₁⟩ v₁ ⟨h₁, rfl⟩
    obtain ⟨rfl, rfl⟩ := Prod.mk.inj h₁
    refine wp_bind.2 (wp_bread.2 ⟨fun hge => absurd hge (by have := hlt (locOf (off / 512)); omega), fun _ => ?_⟩)
    refine wp.bind (logMod_spec _ _ fun hp => (hP hp).imp fun _ => And.left) ?_
    rintro _ v₂ rfl
    refine ih d₁ (hO.store_data hL hz _) (by omega) (fun k h1 h2 => ?_) fun hp => ?_
    · rw [ptr_store_data hO]
      exact hm k (by omega) (by omega)
    · obtain ⟨A, hA, hin⟩ := hP hp
      refine ⟨A, hA.store (hin _ (mem_dataBlocks.2 ⟨off, Nat.le_refl off, by omega, rfl⟩)) _, fun b hb => ?_⟩
      obtain ⟨k, h1, h2, rfl⟩ := mem_dataBlocks.1 hb
      rw [ptr_store_data hO]
      exact hin _ (mem_dataBlocks.2 ⟨k, by omega, by omega, rfl⟩)

theorem writei_mapped (hL : Layout sb) {T : Table} {hand : Set Nat} (hO : Owned sb v.cache (T.set i d) hand)
    (hf : FileOk v.cache d) (ht : d.type ≠ T_DEV) (hle : off + n ≤ d.size.toNat)
    (hP : P → ∃ A, LogRoom sb A v ∧ ∀ b ∈ dataBlocks v.cache d off n, b ∈ A) :
    wp (writei sb i d src off n) (fun r _ => r = ((n : Int), d)) (fun e => LogFault e ∧ ¬ P) v := by
  have hsize := hf.size_le
  have hmod : (off + n) % 2 ^ 32 = off + n := Nat.mod_eq_of_lt (by omega)
  have hret : asInt n = n := by
    rw [asInt, BitVec.toInt_eq_toNat_of_lt] <;> rw [BitVec.toNat_ofNat] <;> omega
  rw [writei, if_neg ht, if_neg (by rw [hmod]; omega),
    if_neg (by rw [hmod]; simp only [MAXFILE, NDIRECT, NINDIRECT, NDINDIRECT, BSIZE]; omega)]
  refine wp.bind (writeLoop_mapped hL hO (by omega) (fun k _ hk => hf.mapped _ (by omega)) hP) ?_
  rintro _ v' rfl
  rw [if_neg (by omega), hret]
  rfl

theorem Written.mapped {T : Table} {hand : Set Nat} {v' : Dev} {d' : Dinode} (hf : FileOk v.cache d)
    (hle : off + n ≤ d.size.toNat) (h : Written sb T i hand off n src v d v' d') :
    (∀ b, b ∈ v'.log.lh ↔ b ∈ v.log.lh ∨ b ∈ dataBlocks v.cache d off n) ∧ ∀ l, ptr v'.cache d' l = ptr v.cache d l := by
  obtain ⟨new, v₁, d₁, hnew, hfill, hptr', -, hlh⟩ := h.fills
  obtain rfl : new = [] := by
    refine List.eq_nil_iff_forall_not_mem.2 fun x hx => ?_
    exact hf.touched_ne hle x.1 (hnew x hx) (hfill.filled x hx).1
  have hptr : ∀ l, ptr v₁.cache d₁ l = ptr v.cache d l := fun l => hfill.rest l List.not_mem_nil
  refine ⟨fun b => ?_, fun l => (hptr' l).trans (hptr l)⟩
  rw [hlh, or_iff_left (by omega), hfill.lh]
  simp only [hptr, List.not_mem_nil, false_and, exists_false, or_false, dataBlocks, Set.mem_image, eq_comm]

/-! ### The locked inode -/

namespace View

theorem table (h : View sb ip i d s) : diskTable sb s.dev.cache i = some d := by
  have := h.ok.sync ip h.lt h.pos h.valid
  rwa [h.inum, h.d] at this

theorem dinode (h : View sb ip i d s) : dinodeOf sb s.dev.cache i = d := (diskTable_some h.table).2.2.2

theorem inum_lt (h : View sb ip i d s) : i < sb.ninodes := (diskTable_some h.table).2.1

theorem fileOk (h : View sb ip i d s) : FileOk s.dev.cache d := h.ok.fs.files i d h.table

theorem set (h : View sb ip i d s) {e : Inode} (hpos : 0 < e.ref) (hv : e.valid = (s.icache ip).valid)
    (hdev : e.dev = (s.icache ip).dev) (hi : e.inum = (s.icache ip).inum) (hd : e.d = (s.icache ip).d) :
    View sb ip i d { s with icache := update s.icache ip e } := by
  refine ⟨h.ok.set_entry h.lt h.pos hi hdev fun _ => ?_, h.lt, ?_, ?_, ?_, ?_⟩
  · rw [hd]
    exact h.ok.sync ip h.lt h.pos h.valid
  all_goals simp only [update_self]
  · exact hpos
  · rw [hv, h.valid]
  · rw [hi, h.inum]
  · rw [hd, h.d]

theorem ilock (h : View sb ip i d s) (hu : (s.icache ip).locked = false) :
    wp (Xv6.ilock sb ip) (fun _ s' => s' =
      { s with icache := update s.icache ip { s.icache ip with locked := true } }) (fun _ => False) s := by
  have hpos := h.pos
  simp only [Xv6.ilock, acquiresleep, wp_bind, wp_get, wp_failIf, wp_setInode, wp_ite, wp_pure, update_self]
  refine ⟨fun hr => by omega, fun _ => ⟨fun hl => ?_, fun _ => ⟨fun _ => trivial, fun hv => absurd h.valid hv⟩⟩⟩
  rw [hu] at hl
  cases hl

theorem iunlock (h : View sb ip i d s) (hl : (s.icache ip).locked = true) :
    wp (Xv6.iunlock ip) (fun _ s' => s' =
      { s with icache := update s.icache ip { s.icache ip with locked := false } }) (fun _ => False) s := by
  have hpos := h.pos
  simp only [Xv6.iunlock, releasesleep, wp_bind, wp_get, wp_failIf, wp_setInode]
  refine ⟨fun hr => ?_, fun _ => trivial⟩
  rcases hr with hr | hr
  · rw [hl] at hr
    cases hr
  · omega

theorem iput (h : View sb ip i d s) (hu : (s.icache ip).locked = false) (hlink : d.nlink = 0 → (s.icache ip).ref ≠ 1) :
    wp (Xv6.iput sb ip) (fun _ s' => s' =
      { s with icache := update s.icache ip { s.icache ip with ref := (s.icache ip).ref - 1 } }) (fun _ => False) s := by
  have hno : ¬ ((s.icache ip).valid = true ∧ (s.icache ip).d.nlink = 0 ∧ (s.icache ip).ref = 1) := fun hc =>
    hlink (h.d ▸ hc.2.1) hc.2.2
  simp only [Xv6.iput, acquiresleep, ifreeLast, releasesleep, wp_bind, wp_get, wp_failIf, wp_setInode, wp_ite, wp_pure,
    update_self, update_idem]
  refine ⟨fun hl => ?_, fun _ => ⟨fun hc => absurd hc hno, fun _ => ?_⟩⟩
  · rw [hu] at hl
    cases hl
  · rw [← hu]

theorem iput_last (hL : Layout sb) (h : View sb ip i d s) (hz : d.nlink = 0) (hone : (s.icache ip).ref = 1) :
    wp (Xv6.iput sb ip) (fun _ s' => InodeStored sb i none s.dev s'.dev ∧
      dinodeOf sb s'.dev.cache i = { d.wiped with type := 0 } ∧
      (∀ b, b ∈ s'.dev.log.lh ↔ b ∈ s.dev.log.lh ∨ b = iblock sb i ∨
        ∃ l, ptr s.dev.cache d l ≠ 0 ∧ b = bblock sb (ptr s.dev.cache d l))) (fun _ => True) s := by
  have hT := h.table
  have hd := h.d
  have hi := h.inum
  simp only [Xv6.iput, acquiresleep, releasesleep, ifreeLast, ifree, Icache.itrunc, Icache.iupdate, wp_bind, wp_get, wp_failIf,
    wp_setInode, wp_ite, wp_pure, wp_onDev, wp_modify, update_self, update_idem]
  refine ⟨fun _ => trivial, fun _ => ⟨fun _ => ?_, fun hc => absurd ⟨h.valid, by rw [hd, hz], hone⟩ hc⟩⟩
  rw [hd, hi]
  refine (itrunc_stored hL h.ok.fs hT).mono ?_ fun _ _ => trivial
  rintro _ v₁ ⟨rfl, hst₁, htr⟩
  refine (free_stored hL hst₁.fs hst₁.self (fun k hk => addr_wiped hk) rfl).mono ?_ fun _ _ => trivial
  rintro _ _ ⟨hst₂, rfl⟩
  refine ⟨hst₁.trans hst₂, by rw [dinodeOf_iupdate, if_pos rfl], fun b => ?_⟩
  rw [Dev.iupdate, Dev.store_lh, mem_absorb, htr.lh]
  constructor
  · rintro (hb | rfl)
    · exact hb
    · exact .inr (.inl rfl)
  · exact .inl

theorem iunlockput (h : View sb ip i d s) (hl : (s.icache ip).locked = true) (hlink : d.nlink = 0 → (s.icache ip).ref ≠ 1) :
    wp (Xv6.iunlockput sb ip) (fun _ s' => s' =
      { s with icache := update s.icache ip { s.icache ip with locked := false, ref := (s.icache ip).ref - 1 } })
      (fun _ => False) s := by
  refine wp.bind (h.iunlock hl) ?_
  rintro _ _ rfl
  have h' := h.set (e := { s.icache ip with locked := false }) h.pos rfl rfl rfl rfl
  refine (h'.iput (by simp only [update_self]) (by simpa only [update_self] using hlink)).post ?_
  rintro _ _ rfl
  simp only [update_self, update_idem]

theorem iunlockput_last (hL : Layout sb) (h : View sb ip i d s) (hl : (s.icache ip).locked = true) (hz : d.nlink = 0)
    (hone : (s.icache ip).ref = 1) :
    wp (Xv6.iunlockput sb ip) (fun _ s' => InodeStored sb i none s.dev s'.dev ∧
      dinodeOf sb s'.dev.cache i = { d.wiped with type := 0 } ∧
      (∀ b, b ∈ s'.dev.log.lh ↔ b ∈ s.dev.log.lh ∨ b = iblock sb i ∨
        ∃ l, ptr s.dev.cache d l ≠ 0 ∧ b = bblock sb (ptr s.dev.cache d l))) (fun _ => True) s := by
  refine wp.bind (wp.mono (h.iunlock hl) (fun _ _ => id) fun _ => False.elim) ?_
  rintro _ _ rfl
  have h' := h.set (e := { s.icache ip with locked := false }) h.pos rfl rfl rfl rfl
  exact h'.iput_last hL hz (by simp only [update_self]; exact hone)

theorem readi (hL : Layout sb) (h : View sb ip i d s) (ht : d.type ≠ T_DEV) (hoff : off ≤ d.size.toNat)
    (hwrap : off + n < 2 ^ 32) :
    wp (Icache.readi sb ip off n) (fun r s' => r = ((readLen d off n : Int), ((contents s.dev.cache d).drop off).take n) ∧ s' = s)
      (fun _ => False) s := by
  rw [Icache.readi]
  refine wp_bind.2 (wp_get.2 ?_)
  dsimp only
  rw [h.d, if_neg fun hc => ht hc.1]
  refine wp_bind.2 (wp_onDev.2 ((readi_spec sb (h.ok.fs.owned.ptr_lt hL h.table) h.fileOk ht hoff hwrap).post ?_))
  rintro ⟨r, d'⟩ v ⟨hr, rfl⟩
  obtain ⟨rfl, rfl⟩ := Prod.mk.inj hr
  refine ⟨by rw [slice_contents], ?_⟩
  have hself : ({ s.icache ip with d := d' } : Inode) = s.icache ip := by rw [← h.d]
  change ({ s with icache := update s.icache ip { s.icache ip with d := d' } } : Fs) = s
  rw [hself, update_eq_self]

theorem readi_end (hL : Layout sb) (h : View sb ip i d s) (ht : d.type ≠ T_DEV) (hoff : d.size.toNat ≤ off) (hlt : off < 2 ^ 32)
    (hn : n < 2 ^ 32) : wp (Icache.readi sb ip off n) (fun r s' => r.1 ≤ 0 ∧ s' = s) (fun _ => False) s := by
  by_cases hr : d.size.toNat < off ∨ 2 ^ 32 ≤ off + n
  · rw [Icache.readi]
    refine wp_bind.2 (wp_get.2 ?_)
    dsimp only
    rw [h.d, if_neg fun hc => ht hc.1, readi_refused ht ⟨hlt, hn⟩ hr]
    refine ⟨show (-1 : Int) ≤ 0 by decide, ?_⟩
    have hself : ({ s.icache ip with d := d } : Inode) = s.icache ip := by rw [← h.d]
    change ({ s with icache := update s.icache ip { s.icache ip with d := d } } : Fs) = s
    rw [hself, update_eq_self]
  · refine (h.readi hL ht (by omega) (by omega)).post ?_
    rintro _ _ ⟨rfl, rfl⟩
    refine ⟨?_, rfl⟩
    simp only [readLen]
    omega

end View

/-- The inode in entry `ip` was edited: the blocks `B` were logged, and no other inode touched. -/
structure Edited (sb : Superblock) (ip i : Nat) (d' : Dinode) (B : Set Nat) (s s' : Fs) : Prop where
  view : View sb ip i d' s'
  icache : s'.icache = update s.icache ip { s.icache ip with d := d' }
  freed : s'.freed = s.freed
  step : LogStep sb s.dev s'.dev
  lh : ∀ b, b ∈ s'.dev.log.lh ↔ b ∈ s.dev.log.lh ∨ b ∈ B
  map : ∀ l, ptr s'.dev.cache d' l = ptr s.dev.cache (s.icache ip).d l
  stored : InodeStored sb i (some d') s.dev s'.dev

theorem View.stored (h : View sb ip i d s) {d' : Dinode} {v : Dev}
    (hst : InodeStored sb i (some d') s.dev v) {freed' : List Nat} :
    View sb ip i d' ⟨v, update s.icache ip { s.icache ip with d := d' }, freed'⟩ := by
  obtain rfl := h.inum
  refine ⟨h.ok.stored h.lt h.pos hst rfl rfl fun _ => rfl, h.lt, ?_, ?_, ?_, ?_⟩ <;> simp only [update_self]
  · exact h.pos
  · exact h.valid

theorem View.writei_mapped (hL : Layout sb) (h : View sb ip i d s) (ht : d.type ≠ T_DEV) (hle : off + n ≤ d.size.toNat)
    (hP : P → ∃ A, LogRoom sb A s.dev ∧ ∀ b ∈ dataBlocks s.dev.cache d off n, b ∈ A) :
    wp (Icache.writei sb ip src off n) (fun r s' => r = n ∧ Edited sb ip i d (dataBlocks s.dev.cache d off n) s s' ∧
      contents s'.dev.cache d = splice (contents s.dev.cache d) off ((List.range n).map src)) (fun e => LogFault e ∧ ¬ P) s := by
  have hT := h.table
  have hf := h.fileOk
  have hsize := hf.size_le
  have hO := h.ok.fs.owned
  rw [← Table.set_eq hT] at hO
  have hargs : WriteArgs d off n :=
    ⟨by omega, by omega, by simp only [MAXFILE, NDIRECT, NINDIRECT, NDINDIRECT, BSIZE]; omega⟩
  rw [Icache.writei]
  refine wp_bind.2 (wp_get.2 ?_)
  dsimp only
  rw [h.d, h.inum, if_neg fun hc => ht hc.1]
  refine wp_bind.2 (wp_onDev.2 (((writei_spliced hL h.ok.fs hT ht src hargs).and
    (Xv6.writei_mapped hL hO hf ht hle hP)).mono ?_ fun _ he => he.2))
  rintro ⟨r, d'⟩ v ⟨⟨-, hst, -, hb, hstep, hw⟩, hr⟩
  obtain ⟨rfl, rfl⟩ := Prod.mk.inj hr
  obtain ⟨hlh, hmap⟩ := hw.mapped hf hle
  exact ⟨rfl, ⟨h.stored hst, rfl, rfl, hstep, hlh, by rw [h.d]; exact hmap, hst⟩, hb⟩

theorem View.setFields (hL : Layout sb) (h : View sb ip i d s) {g : Dinode → Dinode} (ha : (g d).addrs = d.addrs)
    (hs : (g d).size = d.size) (ht : (g d).type = d.type) (hP : P → ∃ A, LogRoom sb A s.dev) :
    wp (setFields sb ip g) (fun _ s' => Edited sb ip i (g d) {iblock sb i} s s' ∧
      contents s'.dev.cache (g d) = contents s.dev.cache d) (fun e => LogFault e ∧ ¬ P) s := by
  obtain rfl := h.inum
  obtain rfl := h.d
  have hT := h.table
  have hin := h.inum_lt
  simp only [Xv6.setFields, Icache.iupdate, wp_bind, wp_setInode, wp_get, wp_onDev, update_self]
  have hkeep : Keeps (LogStep sb) (iupdate sb (s.icache ip).inum (g (s.icache ip).d)) := keeps_iupdate _ _
  refine ((iupdate_stored hL h.ok.fs hT _ ht ha hs).and (hkeep.wp_and
    (iupdate_spec _ (hL.lt_fssize (hL.iblock_lt_size hin)) hP))).mono ?_ fun _ he => he.2
  rintro _ _ ⟨⟨hst, hb⟩, rfl, hstep⟩
  have hib := hL.iblock_lt hin
  have hbm := hL.bmap_lt
  refine ⟨⟨h.stored hst, rfl, rfl, hstep, fun b => ?_, fun l => ?_, hst⟩, hb⟩
  · rw [Dev.iupdate, Dev.store_lh, mem_absorb]
    rfl
  · rw [ptr_addrs ha, Dev.iupdate, ptr_store_low h.ok.fs.owned (by omega) _ hT]

/-! ### Transactions -/

theorem LogStep.logOk {v' : Dev} (h : LogStep sb v v') (hl : LogOk sb v) (hh : HeadOk sb v'.log.lh) : LogOk sb v' := by
  refine ⟨?_, fun x hx => ?_, fun x hx hno => ?_, hh⟩
  · rw [h.disk]
    exact hl.clean
  · rw [h.disk, h.unlogged x fun hm => hx (hh.home x hm)]
    exact hl.area x hx
  · rw [h.disk, h.unlogged x hno]
    exact hl.unlogged x hx fun hm => hno (h.mono x hm)

theorem Edited.logOk {d' : Dinode} {B : Set Nat} {s' : Fs} (h : Edited sb ip i d' B s s')
    (hl : LogOk sb s.dev) : LogOk sb s'.dev :=
  h.step.logOk hl h.view.ok.fs.head

theorem View.home (hL : Layout sb) (h : View sb ip i d s) {v : Dev} (hh : HeadOk sb v.log.lh)
    (hc : ∀ b, Home sb b → v.cache b = s.dev.cache b) :
    View sb ip i d { s with dev := v } ∧ contents v.cache d = contents s.dev.cache d :=
  ⟨⟨h.ok.home hL hh hc, h.lt, h.pos, h.valid, h.inum, h.d⟩,
    contents_congr rfl fun k _ => (h.ok.fs.home hL hh hc).2 i d h.table k⟩

theorem beginOp_idle (h : v.log = ⟨0, false, []⟩) :
    wp beginOp (fun _ v' => v' = { v with log := ⟨1, false, []⟩ }) (fun _ => False) v := by
  simp only [beginOp, wp_bind, wp_get, wp_failIf, wp_modify, h]
  simp

/-- What the last `end_op` of a group leaves behind. -/
structure Committed (sb : Superblock) (v v' : Dev) : Prop where
  logOk : LogOk sb v'
  log : v'.log = ⟨0, false, []⟩
  cache : ∀ b, Home sb b → v'.cache b = v.cache b
  hist : ∀ x ∈ v'.hist, x ∈ v.hist ∨ Recovers sb x v.disk ∨ Recovers sb x v.cache

theorem endOp_alone (ha : LogArea sb) (h : HeadOk sb v.log.lh) (ho : v.log.outstanding = 1) (hc : v.log.committing = false) :
    wp (endOp sb) (fun _ v' => v'.log = ⟨0, false, []⟩ ∧ ∀ b, Home sb b → v'.cache b = v.cache b) (fun _ => False) v := by
  refine wp_endOp_last ho hc (wp.post (commit_home ha h) ?_)
  rintro - v' ⟨hlog, hcache⟩
  refine ⟨?_, hcache⟩
  rw [hlog]

theorem endOp_last (ha : LogArea sb) (h : LogOk sb v) (ho : v.log.outstanding = 1) (hc : v.log.committing = false) :
    wp (endOp sb) (fun _ v' => Committed sb v v') (fun _ => False) v := by
  refine wp_endOp_last ho hc (wp.post (commit_spec ha ⟨h.clean, h.area, h.unlogged, h.head⟩) ?_)
  rintro - v' ⟨h', hlog, -, -, hcache, hhist⟩
  refine ⟨⟨h'.clean, h'.area, h'.unlogged, h'.head⟩, ?_, hcache, hhist⟩
  rw [hlog]

end

end Xv6
