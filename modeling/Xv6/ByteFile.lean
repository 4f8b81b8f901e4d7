import Xv6.SmallDisk
import Mathlib.Algebra.Order.BigOperators.Group.Finset

/-!
# Files are growable byte arrays

The abstract file is a list of bytes; a write splices bytes into it. `Reach sb s T F` says that the
device state `s` and the in-memory inodes `T` are reached from a consistent disk by `writei` calls on
any of the inodes, in transactions of any size, and that `F` is what the same calls make of the byte
arrays. From every such state `readi` and `writei` do what the byte arrays say.
-/

namespace Xv6

open Prog Function

/-- `f` with the bytes `b` written at `off`. -/
def splice (f : List Byte) (off : Nat) (b : List Byte) : List Byte := f.take off ++ b ++ f.drop (off + b.length)

def contents (c : Image) (d : Dinode) : List Byte := (List.range d.size.toNat).map (byteAt c d)

@[simp] theorem length_contents (c : Image) (d : Dinode) : (contents c d).length = d.size.toNat := by
  simp [contents]

theorem contents_getElem (c : Image) (d : Dinode) (k : Nat) (hk : k < (contents c d).length) :
    (contents c d)[k] = byteAt c d k := by
  simp [contents]

theorem contents_congr {c c' : Image} {d d' : Dinode} (hs : d'.size = d.size)
    (h : ∀ k, k < d.size.toNat → byteAt c' d' k = byteAt c d k) : contents c' d' = contents c d := by
  unfold contents
  rw [hs]
  exact List.map_congr_left fun k hk => h k (List.mem_range.1 hk)

theorem slice_contents (c : Image) (d : Dinode) (off n : Nat) :
    (List.range (readLen d off n)).map (fun k => byteAt c d (off + k)) = ((contents c d).drop off).take n := by
  refine List.ext_getElem ?_ fun k h1 h2 => ?_
  · simp [readLen]
  · simp only [List.getElem_map, List.getElem_range, List.getElem_take, List.getElem_drop, contents_getElem]

structure FsOk (sb : Superblock) (s : Dev) (T : Table) : Prop where
  owned : Owned sb s.cache T ∅
  inum : ∀ i d, T i = some d → i < sb.ninodes
  files : ∀ i d, T i = some d → FileOk s.cache d
  head : HeadOk sb s.log.lh

theorem FileOk.of_size_zero {c : Image} {d : Dinode} (h : d.size = 0) : FileOk c d := by
  refine ⟨?_, fun bn hbn => ?_⟩
  · rw [h]; decide
  · rw [h] at hbn
    exact absurd hbn (Nat.not_lt_zero _)

/-- States reached by `writei` calls, with the byte arrays the calls stand for. -/
inductive Reach (sb : Superblock) : Dev → Table → (Nat → List Byte) → Prop
  | init {s : Dev} {T : Table} (h : FsOk sb s T) : Reach sb s T fun i => (T i).elim [] (contents s.cache)
  | write {s s' : Dev} {T : Table} {F : Nat → List Byte} {i : Nat} {d d' : Dinode} {src : Nat → Byte} {off n : Nat}
      (h : Reach sb s T F) (hi : T i = some d) (ht : d.type ≠ T_DEV) (hoff : off < 2 ^ 32) (hn : n < 2 ^ 32) {r : Int}
      (hr : (writei sb i d src off n).run s = .ok ((r, d'), s')) :
      Reach sb s' (T.set i d') (if r = -1 then F else
        update F i (splice (F i) off ((List.range n).map src)))
  | begin {s s' : Dev} {T : Table} {F : Nat → List Byte} (h : Reach sb s T F)
      (hr : beginOp.run s = .ok ((), s')) : Reach sb s' T F
  | finish {s s' : Dev} {T : Table} {F : Nat → List Byte} (h : Reach sb s T F)
      (hr : (endOp sb).run s = .ok ((), s')) : Reach sb s' T F

section

variable {sb : Superblock} {s s' : Dev} {T : Table} {F : Nat → List Byte} {i : Nat} {d d' : Dinode}

/-! ### The write, seen as bytes -/

theorem Written.contents_eq {hand : Set Nat} {off n : Nat} {src : Nat → Byte} (hf : FileOk s.cache d)
    (hoff : off ≤ d.size.toNat) (hmax : off + n ≤ 16523 * 512)
    (h : Written sb T i hand off n src s d s' d') :
    contents s'.cache d' = splice (contents s.cache d) off ((List.range n).map src) := by
  have hsize := hf.size_le
  have hs' := h.size
  refine List.ext_getElem ?_ fun k h1 h2 => ?_
  · simp only [splice, length_contents, List.length_append, List.length_take, List.length_drop, List.length_map,
      List.length_range]
    omega
  · rw [contents_getElem, h.bytes k (by simp only [length_contents] at h1; omega)]
    simp only [length_contents] at h1
    simp only [splice, List.getElem_append, List.length_append, List.length_take, length_contents, List.length_map,
      List.length_range]
    by_cases hlt : k < off
    · rw [if_neg (by omega), dif_pos (by omega), dif_pos (by omega), List.getElem_take, contents_getElem]
    · by_cases hin : k < off + n
      · rw [if_pos (by omega), dif_pos (by omega), dif_neg (by omega), List.getElem_map, List.getElem_range]
        congr 1; omega
      · rw [if_neg (by omega), dif_neg (by omega), List.getElem_drop, contents_getElem]
        congr 1; omega

theorem Table.set_eq (hi : T i = some d) : T.set i d = T := by
  rw [Table.set, ← hi, update_eq_self]

theorem FsOk.written (hL : Layout sb) (h : FsOk sb s T) (hi : T i = some d) {off n : Nat} {src : Nat → Byte}
    (hw : Written sb T i ∅ off n src s d s' d') (ht : TxFrame sb s s') : FsOk sb s' (T.set i d') := by
  refine ⟨hw.owned, fun j e he => ?_, fun j e he => ?_, ht.headOk h.head hL hw.logged⟩
  · by_cases hj : j = i
    · exact hj ▸ h.inum i d hi
    · rw [Table.set, update_of_ne hj] at he
      exact h.inum j e he
  · by_cases hj : j = i
    · subst hj
      rw [Table.set, update_self] at he
      cases he
      exact hw.fileOk
    · have hset : ∀ d, T.set i d j = some e := fun d => by
        rw [Table.set, update_of_ne hj] at he ⊢
        exact he
      have hfj := h.files j e (by rw [Table.set, update_of_ne hj] at he; exact he)
      refine ⟨hfj.size_le, fun bn hbn => ?_⟩
      have := hw.refs_other j (locOf bn) hj
      rw [refs_some (hset _), refs_some (hset _)] at this
      rw [this]
      exact hfj.mapped bn hbn

theorem FsOk.ptr_home (hL : Layout sb) (h : FsOk sb s T) (hc : ∀ b, Home sb b → s'.cache b = s.cache b) (hi : T i = some d)
    (l : Loc) : ptr s'.cache d l = ptr s.cache d l := by
  have hino := hL.inodes_lt
  have hbm := hL.bmap_lt
  rw [← refs_some hi, ← refs_some hi]
  refine congrFun (refs_congr fun j l p _ hz => hc _ (hL.home_of_le ?_)) _
  have := (h.owned.range _ hz).1
  omega

theorem FsOk.home (hL : Layout sb) (h : FsOk sb s T) (hh : HeadOk sb s'.log.lh)
    (hc : ∀ b, Home sb b → s'.cache b = s.cache b) :
    FsOk sb s' T ∧ ∀ i d, T i = some d → ∀ k, byteAt s'.cache d k = byteAt s.cache d k := by
  have hino := hL.inodes_lt
  have hbm := hL.bmap_lt
  have hdata : ∀ b, sb.nmeta ≤ b → s'.cache b = s.cache b := fun b hb => hc b (hL.home_of_le (by omega))
  have hrefs : refs s'.cache T = refs s.cache T :=
    refs_congr fun j l p _ hz => hdata _ (h.owned.range _ hz).1
  have hptr : ∀ i d, T i = some d → ∀ l, ptr s'.cache d l = ptr s.cache d l := fun i d hi l => h.ptr_home hL hc hi l
  refine ⟨⟨?_, h.inum, fun i d hi => ⟨(h.files i d hi).size_le, fun bn hbn => ?_⟩, hh⟩, fun i d hi k => ?_⟩
  · rw [Owned, hrefs]
    refine Ledger.congr_used h.owned fun b _ => ?_
    have := bmapstart_le_bblock sb b
    rw [blockUsed_congr (hc _ (hL.home_of_le (by omega)))]
  · rw [hptr i d hi]
    exact (h.files i d hi).mapped bn hbn
  · refine byteAt_congr (hptr i d hi _) fun hz => hdata _ ?_
    have := h.owned.range (i, locOf (k / 512)) (by rwa [refs_some hi])
    rw [refs_some hi] at this
    exact this.1

/-! ### Runs -/

theorem Reach.ok (hL : Layout sb) (h : Reach sb s T F) :
    FsOk sb s T ∧ ∀ i d, T i = some d → contents s.cache d = F i := by
  induction h with
  | init h => exact ⟨h, fun i d hi => by simp only [hi, Option.elim]⟩
  | @write s s' T F i d d' src off n _ hi ht hoff hn r hr ih =>
    obtain ⟨hok, hF⟩ := ih
    have hfi := hok.files i d hi
    have hO : Owned sb s.cache (T.set i d) ∅ := by rw [Table.set_eq hi]; exact hok.owned
    by_cases ha : WriteArgs d off n
    · obtain ⟨hret, hw⟩ := (writei_spec hL (hok.inum i d hi) hO hfi ht src ha).of_ok hr
      have hfr := (keeps_txFrame (keeps_writei i d src off n)).of_ok hr
      obtain rfl : r = n := hret
      rw [if_neg (by omega)]
      refine ⟨hok.written hL hi hw hfr, fun j e he => ?_⟩
      by_cases hj : j = i
      · subst hj
        rw [Table.set, update_self] at he
        cases he
        obtain ⟨h1, -, h3⟩ := ha
        simp only [MAXFILE, NDIRECT, NINDIRECT, NDINDIRECT, BSIZE] at h3
        rw [update_self, ← hF _ _ hi]
        exact hw.contents_eq hfi h1 h3
      · rw [Table.set, update_of_ne hj] at he
        rw [update_of_ne hj, ← hF j e he]
        exact contents_congr rfl fun k _ => hw.bytes_other j e hj he k
    · rw [writei_refused ht ⟨hoff, hn⟩ src ha] at hr
      cases hr
      rw [if_pos rfl, Table.set_eq hi]
      exact ⟨hok, hF⟩
  | @begin s s' T F _ hr ih =>
    have hs := beginOp_spec.of_ok hr
    subst hs
    exact ⟨⟨ih.1.owned, ih.1.inum, ih.1.files, ih.1.head⟩, ih.2⟩
  | @finish s s' T F _ hr ih =>
    obtain ⟨hc, -, -, hh⟩ := (endOp_spec hL.logArea ih.1.head).of_ok hr
    obtain ⟨hok, hb⟩ := ih.1.home hL hh hc
    exact ⟨hok, fun i d hi => by rw [← ih.2 i d hi]; exact contents_congr rfl fun k _ => hb i d hi k⟩

/-- In every state reached, `readi` returns the slice and changes nothing; `writei` splices the bytes
in and leaves every other file alone, given room for the blocks it touches, or returns -1 and changes
nothing. -/
theorem readi_writei_refine (hL : Layout sb) (h : Reach sb s T F) (hi : T i = some d) (ht : d.type ≠ T_DEV)
    (off n : Nat) (hoff : off < 2 ^ 32) (hn : n < 2 ^ 32) (src : Nat → Byte) :
    contents s.cache d = F i ∧
    (readi sb d off n).run s = .ok ((if off ≤ (F i).length ∧ off + n < 2 ^ 32 then
      (((((F i).drop off).take n).length : Int), ((F i).drop off).take n) else (-1, []), d), s) ∧
    if off ≤ (F i).length ∧ off + n < 2 ^ 32 ∧ off + n ≤ MAXFILE * BSIZE then
      Room sb off n s d → ∃ d' s', (writei sb i d src off n).run s = .ok (((n : Int), d'), s') ∧
        contents s'.cache d' = splice (F i) off ((List.range n).map src) ∧
        d'.size.toNat = max (F i).length (off + n) ∧
        ∀ j e, j ≠ i → T j = some e → contents s'.cache e = F j
    else (writei sb i d src off n).run s = .ok ((-1, d), s) := by
  obtain ⟨hok, hF⟩ := h.ok hL
  have hfi := hok.files i d hi
  have hO : Owned sb s.cache (T.set i d) ∅ := by rw [Table.set_eq hi]; exact hok.owned
  have hlen : (F i).length = d.size.toNat := by rw [← hF i d hi, length_contents]
  refine ⟨hF i d hi, ?_, ?_⟩
  · by_cases ha : off ≤ (F i).length ∧ off + n < 2 ^ 32
    · rw [if_pos ha]
      obtain ⟨r, s', hr, hrs, hs'⟩ :=
        (readi_spec sb (hok.owned.ptr_lt hL hi) hfi ht (by omega) ha.2).exists_ok
      rw [hr, hrs, hs']
      rw [slice_contents, hF i d hi]
      congr 4
      rw [List.length_take, List.length_drop, hlen, readLen]
    · rw [if_neg ha, readi_refused ht ⟨hoff, hn⟩ (by omega)]
      rfl
  · split
    · next ha =>
      rw [hlen] at ha ⊢
      intro hroom
      have hwp : wp (writei sb i d src off n) _ (fun _ => False) s :=
        (writei_spec hL (hok.inum i d hi) hO hfi ht src ha).mono (fun _ _ => id) fun e he => he.2 hroom
      obtain ⟨⟨r, d'⟩, s', hr, hret, hw⟩ := hwp.exists_ok
      obtain rfl : r = n := hret
      have h3 := ha.2.2
      simp only [MAXFILE, NDIRECT, NINDIRECT, NDINDIRECT, BSIZE] at h3
      refine ⟨d', s', hr, ?_, hw.size, fun j e hj he => ?_⟩
      · rw [← hF i d hi]
        exact hw.contents_eq hfi ha.1 h3
      · rw [← hF j e he]
        exact contents_congr rfl fun k _ => hw.bytes_other j e hj he k
    · next ha =>
      rw [writei_refused ht ⟨hoff, hn⟩ src (by rw [WriteArgs, ← hlen]; exact ha)]
      rfl

end

/-! ### On a small disk -/

def emptyFile : Dev :=
  { boot (smallDisk 63 (fun _ => fileDinode 0 0) fun _ => Block.zero _) [] with log := ⟨1, false, []⟩ }

theorem reach_emptyFile : Reach mkfsSuperblock emptyFile (oneInode (fileDinode 0 0))
    fun i => (oneInode (fileDinode 0 0) i).elim [] (contents emptyFile.cache) := by
  have hO : Owned mkfsSuperblock (smallDisk (63 + 0) (fun _ => fileDinode 0 0) fun _ => Block.zero _)
      (oneInode (fileDinode 0 0)) ∅ := owned_smallDisk (by decide) _ _
  refine .init ⟨hO, fun i d hi => ?_, fun i d hi => ?_, .nil mkfs_logArea⟩
  all_goals
    unfold oneInode at hi
    split at hi
  · next h => rw [h]; decide
  · cases hi
  · cases hi
    exact .of_size_zero rfl
  · cases hi

theorem free_emptyFile : 19937 ≤ (freeBlocks mkfsSuperblock emptyFile.cache).card :=
  card_freeBlocks_smallDisk (n := 63) (by omega) (fun _ => fileDinode 0 0) fun _ => Block.zero _

theorem readi_writei_refine_five_bytes :
    ∃ d' s', (writei mkfsSuperblock 1 (fileDinode 0 0) (fun _ => 7) 0 5).run emptyFile = .ok ((5, d'), s') ∧
      contents s'.cache d' = [7, 7, 7, 7, 7] := by
  have hroom : Room mkfsSuperblock 0 5 emptyFile (fileDinode 0 0) :=
    Room.of_count (by decide) (by decide) (by decide +kernel) (by decide +kernel)
      (Nat.le_trans (by decide +kernel) free_emptyFile)
  obtain ⟨-, -, hw⟩ := readi_writei_refine mkfs_layout reach_emptyFile (i := 1) (d := fileDinode 0 0) rfl (by decide)
    0 5 (by decide) (by decide) fun _ => 7
  rw [if_pos (by decide)] at hw
  obtain ⟨d', s', hr, hc, -⟩ := hw hroom
  exact ⟨d', s', hr, hc⟩

/-- Thirty blocks are more than one transaction can log, however many blocks are free. -/
theorem writei_thirty_blocks :
    (∃ F, Reach mkfsSuperblock emptyFile (oneInode (fileDinode 0 0)) F) ∧
      (missing emptyFile.cache (fileDinode 0 0) (touched 0 15360)).card ≤
        (freeBlocks mkfsSuperblock emptyFile.cache).card ∧ 0 + 15360 ≤ MAXFILE * BSIZE ∧
      ∀ d' s', (writei mkfsSuperblock 1 (fileDinode 0 0) (fun _ => 1) 0 15360).run emptyFile ≠
        .ok ((15360, d'), s') := by
  refine ⟨⟨_, reach_emptyFile⟩, Nat.le_trans (by decide +kernel) free_emptyFile, by decide, fun d' s' hr => ?_⟩
  have hfails : ((writei mkfsSuperblock 1 (fileDinode 0 0) (fun _ => 1) 0 15360).result emptyFile).isNone = true := by
    decide +kernel
  rw [result, hr] at hfails
  cases hfails

end Xv6
