import Xv6.DiskOf
import Xv6.FileCalls

/-!
# How many blocks a write logs

`filewrite` cuts a write into transactions of at most 1536 bytes, so that each stays within
`MAXOPBLOCKS` distinct blocks. `writeCost` counts the blocks that such a transaction logs, from the state in
which it begins: the data blocks met, the pointer blocks that get a new pointer, the blocks of the free map
over which the first free blocks are spread, and the inode's block if the file grows. The count is exact
(`Written.length_lh`), and it exceeds the budget on a fragmented disk.
-/

namespace Xv6

open Prog Function

/-- The number of blocks that hold the bytes `[off, off + n)`. -/
def blocksMet (off n : Nat) : Nat := if n = 0 then 0 else (off + n - 1) / 512 + 1 - off / 512

def dataLocs (off n : Nat) : Finset Loc :=
  if n = 0 then ∅ else (Finset.Ico (off / 512) ((off + n - 1) / 512 + 1)).image locOf

/-- The blocks of the free map in which the first `m` free blocks are. -/
def bitmapOf (sb : Superblock) (c : Image) (m : Nat) : Finset Nat := (((freeList sb c).take m).map (bblock sb)).toFinset

/-- How many blocks `writei` of `n` bytes at `off` logs. -/
def writeCost (sb : Superblock) (c : Image) (d : Dinode) (off n : Nat) : Nat :=
  blocksMet off n + (linkedAbove c d (touched off n)).card + (bitmapOf sb c (missing c d (touched off n)).card).card +
    if d.size.toNat < off + n then 1 else 0

section

variable {sb : Superblock} {T : Table} {i off n : Nat} {s s' : Dev} {d d' : Dinode} {hand : Set Nat} {src : Nat → Byte}

/-! ### The places -/

theorem mem_dataLocs {l : Loc} : l ∈ dataLocs off n ↔ l ∈ dataAt off n := by
  rw [dataLocs]
  split
  · next h0 =>
    rw [h0, dataAt_zero]
    simp
  · next h0 =>
    simp only [Finset.mem_image, Finset.mem_Ico]
    constructor
    · rintro ⟨bn, ⟨h1, h2⟩, rfl⟩
      refine ⟨max off (bn * 512), by omega, by omega, ?_⟩
      congr 1
      omega
    · rintro ⟨k, h1, h2, rfl⟩
      exact ⟨k / 512, ⟨by omega, by omega⟩, rfl⟩

theorem card_dataLocs (hmax : off + n ≤ 16523 * 512) : (dataLocs off n).card = blocksMet off n := by
  rw [dataLocs, blocksMet]
  split
  · rfl
  · rw [Finset.card_image_of_injOn, Nat.card_Ico]
    intro m hm m' hm' he
    simp only [Finset.coe_Ico, Set.mem_Ico] at hm hm'
    exact locOf_inj (by omega) (by omega) he

theorem isData_of_mem_dataLocs {l : Loc} (h : l ∈ dataLocs off n) : l.isData = true := by
  obtain ⟨k, -, -, rfl⟩ := mem_dataLocs.1 h
  exact isData_locOf _

theorem not_isData_of_mem_above {l q : Loc} (h : q ∈ l.above) : q.isData = false := by
  cases l <;> simp only [Loc.above, Finset.mem_insert, Finset.mem_singleton, Finset.notMem_empty] at h
  · rw [h]; rfl
  · rw [h]; rfl
  · rcases h with rfl | rfl <;> rfl

theorem Loc.mem_path {l q : Loc} : q ∈ l.path ↔ q = l ∨ q ∈ l.above := by
  cases l <;> simp only [Loc.path, Loc.above, Finset.mem_insert, Finset.mem_singleton, Finset.notMem_empty] <;> tauto

theorem missing_cases {c : Image} {l : Loc} (hn : 0 < n) (h : l ∈ missing c d (touched off n)) :
    l ∈ dataLocs off n ∨ l ∈ linkedAbove c d (touched off n) := by
  obtain ⟨ht, h0⟩ := Finset.mem_filter.1 h
  obtain ⟨bn, hbn, hl⟩ := Finset.mem_biUnion.1 ht
  have hb := Finset.mem_Ico.1 hbn
  rcases Loc.mem_path.1 hl with rfl | hl
  · refine .inl (mem_dataLocs.2 ⟨max off (bn * 512), by omega, by omega, ?_⟩)
    congr 1
    omega
  · refine .inr (Finset.mem_biUnion.2 ⟨locOf bn, Finset.mem_filter.2 ⟨?_, ?_⟩, hl⟩)
    · exact path_subset_touched hb.1 (by omega) (Loc.self_mem_path _)
    · by_contra hz
      exact ptr_path_ne hz l (Loc.above_subset_path _ hl) h0

/-! ### The count -/

theorem Fills.places {V : Set Loc} {new : List (Loc × Nat)} {s₁ : Dev} {d₁ : Dinode} {S : Finset Loc}
    (h : Fills sb V new s d s₁ d₁)
    (hS : ∀ x ∈ new, x.1 ∈ S) (hall : ∀ l ∈ S, ptr s₁.cache d₁ l ≠ 0) :
    (∀ l, l ∈ new.map Prod.fst ↔ l ∈ missing s.cache d S) ∧
      new.map Prod.snd = (freeList sb s.cache).take (missing s.cache d S).card := by
  have hmem : ∀ l, l ∈ new.map Prod.fst ↔ l ∈ missing s.cache d S := fun l => by
    constructor
    · intro hl
      obtain ⟨x, hx, rfl⟩ := List.mem_map.1 hl
      exact Finset.mem_filter.2 ⟨hS x hx, (h.filled x hx).1⟩
    · intro hl
      obtain ⟨hlS, h0⟩ := Finset.mem_filter.1 hl
      by_contra hno
      exact hall l hlS (by rw [h.rest l hno, h0])
  refine ⟨hmem, ?_⟩
  have hcard : (missing s.cache d S).card = (new.map Prod.snd).length := by
    rw [List.length_map, ← List.length_map Prod.fst, ← List.toFinset_card_of_nodup h.nodup]
    congr 1
    ext l
    rw [List.mem_toFinset, hmem]
  rw [hcard, ← h.taken, List.take_left']
  rfl

theorem Written.mem_lh (hn : 0 < n) (h : Written sb T i hand off n src s d s' d') (b : Nat) :
    b ∈ s'.log.lh ↔ b ∈ s.log.lh ∨ (∃ l ∈ dataLocs off n ∪ linkedAbove s.cache d (touched off n), ptr s'.cache d' l = b) ∨
      b ∈ bitmapOf sb s.cache (missing s.cache d (touched off n)).card ∨ d.size.toNat < off + n ∧ b = iblock sb i := by
  obtain ⟨new, s₁, d₁, hnew, hf, hptr, hall, hlh⟩ := h.fills
  obtain ⟨hmem, htake⟩ := hf.places hnew fun l hl => by rw [← hptr]; exact hall l hl
  have hbm : b ∈ bitmapOf sb s.cache (missing s.cache d (touched off n)).card ↔ ∃ x ∈ new, b = bblock sb x.2 := by
    rw [bitmapOf, ← htake]
    simp only [List.map_map, List.mem_toFinset, List.mem_map, Function.comp_apply, eq_comm]
  rw [hlh, hf.lh, or_assoc, hbm]
  refine or_congr_right ?_
  rw [or_assoc, ← or_assoc (a := ∃ l ∈ _, _), ← or_assoc]
  refine or_congr_left ⟨?_, ?_⟩
  · rintro (⟨l, hl, rfl⟩ | ⟨x, hx, rfl | rfl | ⟨q, hq, rfl⟩⟩)
    · exact .inl ⟨l, Finset.mem_union_left _ (mem_dataLocs.2 hl), hptr l⟩
    · refine .inl ⟨x.1, Finset.mem_union.2 (missing_cases hn ((hmem _).1 (List.mem_map_of_mem hx))), ?_⟩
      rw [hptr, (hf.filled x hx).2.1]
    · exact .inr ⟨x, hx, rfl⟩
    · exact .inl ⟨q, Finset.mem_union_right _ (Finset.mem_biUnion.2 ⟨x.1, (hmem _).1 (List.mem_map_of_mem hx), hq⟩), hptr q⟩
  · rintro (⟨l, hl, rfl⟩ | ⟨x, hx, rfl⟩)
    · rcases Finset.mem_union.1 hl with hl | hl
      · exact .inl ⟨l, mem_dataLocs.1 hl, hptr l⟩
      · obtain ⟨l', hl', hq⟩ := Finset.mem_biUnion.1 hl
        obtain ⟨x, hx, rfl⟩ := List.mem_map.1 ((hmem l').2 hl')
        exact .inr ⟨x, hx, .inr (.inr ⟨l, hq, hptr l⟩)⟩
    · exact .inr ⟨x, hx, .inr (.inl rfl)⟩

theorem Written.ptr_ne (h : Written sb T i hand off n src s d s' d') {l : Loc}
    (hl : l ∈ dataLocs off n ∪ linkedAbove s.cache d (touched off n)) : ptr s'.cache d' l ≠ 0 := by
  obtain ⟨-, -, -, -, -, -, hall, -⟩ := h.fills
  rcases Finset.mem_union.1 hl with hl | hl
  · obtain ⟨k, h1, h2, rfl⟩ := mem_dataLocs.1 hl
    exact hall _ (path_subset_touched (by omega) (by omega) (Loc.self_mem_path _))
  · obtain ⟨l', hl', hq⟩ := Finset.mem_biUnion.1 hl
    exact ptr_path_ne (hall l' (Finset.mem_filter.1 hl').1) l (Loc.above_subset_path _ hq)

theorem mem_bitmapOf {c : Image} {m b : Nat} (hL : Layout sb) (h : b ∈ bitmapOf sb c m) : sb.bmapstart ≤ b ∧ b < sb.nmeta := by
  rw [bitmapOf, List.mem_toFinset] at h
  obtain ⟨a, ha, rfl⟩ := List.mem_map.1 h
  have hlt := List.mem_range.1 (List.mem_filter.1 (List.mem_of_mem_take ha)).1
  exact ⟨bmapstart_le_bblock sb a, hL.bblock_lt hlt⟩

theorem Written.length_lh (hL : Layout sb) (hi : i < sb.ninodes) (hn : 0 < n) (hmax : off + n ≤ 16523 * 512)
    (h : Written sb T i hand off n src s d s' d') (hnil : s.log.lh = []) (hnodup : s'.log.lh.Nodup) :
    s'.log.lh.length = writeCost sb s.cache d off n := by
  have hinj : Set.InjOn (ptr s'.cache d') ↑(dataLocs off n ∪ linkedAbove s.cache d (touched off n)) := fun l hl l' _ he => by
    have hz := h.ptr_ne (Finset.mem_coe.1 hl)
    rw [← refs_set _ T i d' l] at hz he
    rw [← refs_set _ T i d' l'] at he
    exact (Prod.ext_iff.1 (h.owned.inj _ _ he hz)).2
  have hge : ∀ b ∈ (dataLocs off n ∪ linkedAbove s.cache d (touched off n)).image (ptr s'.cache d'),
    sb.nmeta ≤ b := fun b hb => by
    obtain ⟨l, hl, rfl⟩ := Finset.mem_image.1 hb
    have hz := h.ptr_ne hl
    rw [← refs_set _ T i] at hz ⊢
    exact (h.owned.range _ hz).1
  have hdata : Disjoint (dataLocs off n) (linkedAbove s.cache d (touched off n)) := Finset.disjoint_left.2 fun l hl hl' => by
    obtain ⟨l', -, hq⟩ := Finset.mem_biUnion.1 hl'
    have := isData_of_mem_dataLocs hl
    rw [not_isData_of_mem_above hq] at this
    cases this
  have hib := hL.iblock_lt hi
  have hbm := hL.bmap_lt
  have hset : s'.log.lh.toFinset = (dataLocs off n ∪ linkedAbove s.cache d (touched off n)).image (ptr s'.cache d') ∪
      (bitmapOf sb s.cache (missing s.cache d (touched off n)).card ∪ if d.size.toNat < off + n then {iblock sb i} else ∅) := by
    ext b
    rw [List.mem_toFinset, h.mem_lh hn, hnil]
    simp only [List.not_mem_nil, false_or, Finset.mem_union (s := Finset.image _ _), Finset.mem_image,
      Finset.mem_union (s := bitmapOf _ _ _)]
    refine or_congr_right (or_congr_right ?_)
    split
    · next hg => simp [hg]
    · next hg => simp [hg]
  rw [← List.toFinset_card_of_nodup hnodup, hset, Finset.card_union_of_disjoint, Finset.card_union_of_disjoint,
    Finset.card_image_of_injOn hinj, Finset.card_union_of_disjoint hdata, card_dataLocs hmax, writeCost]
  · rw [apply_ite Finset.card, Finset.card_singleton, Finset.card_empty]
    omega
  · refine Finset.disjoint_left.2 fun b hb hb' => ?_
    have := mem_bitmapOf hL hb
    split at hb'
    · rw [Finset.mem_singleton] at hb'
      omega
    · exact absurd hb' (Finset.notMem_empty b)
  · refine Finset.disjoint_left.2 fun b hb hb' => ?_
    have := hge b hb
    rcases Finset.mem_union.1 hb' with hb' | hb'
    · have := mem_bitmapOf hL hb'
      omega
    · split at hb'
      · rw [Finset.mem_singleton] at hb'
        omega
      · exact absurd hb' (Finset.notMem_empty b)

end

/-! ### The transactions of `filewrite` -/

/-- Nothing is going on: the log is empty, and the entry `ip` holds inode `i`, unlocked. -/
structure Still (sb : Superblock) (ip i : Nat) (d : Dinode) (k : Kernel) : Prop where
  view : View sb ip i d k.fs
  unlocked : (k.fs.icache ip).locked = false
  log : k.fs.dev.log = ⟨0, false, []⟩

/-- A transaction of `filewrite` up to its `end_op`. -/
def writeBracket (sb : Superblock) (f ip addr n1 : Nat) : KM Int := do
  beginOpK
  writeSegment sb f ip addr n1

/-- How many bytes `filewrite` takes on at position `j`. -/
def writeLen (n j : Nat) : Nat := min (n - j) (((MAXOPBLOCKS - 1 - 1 - 2) / 2) * 512)

instance (d : Dinode) (off n : Nat) : Decidable (WriteArgs d off n) := inferInstanceAs (Decidable (_ ∧ _ ∧ _))

/-- A call `filewrite(f, addr, n)` that starts in `k₀` begins a transaction at position `j` in the state `k`. -/
inductive WriteBegins (sb : Superblock) (f ip addr n : Nat) (k₀ : Kernel) : Nat → Kernel → Prop
  | start (h : 0 < n) : WriteBegins sb f ip addr n k₀ 0 k₀
  | next {j : Nat} {r : Int} {k k₁ k₂ : Kernel} (h : WriteBegins sb f ip addr n k₀ j k)
      (hr : (writeBracket sb f ip (addr + j) (writeLen n j)).run k = .ok (r, k₁)) (he : (endOpK sb).run k₁ = .ok ((), k₂))
      (hok : r = writeLen n j) (hlt : j + writeLen n j < n) : WriteBegins sb f ip addr n k₀ (j + writeLen n j) k₂

section

variable {sb : Superblock} {ip i f off n addr j : Nat} {d : Dinode} {k k₀ k₁ : Kernel} {r : Int}

theorem writeLen_bounds (hj : j < n) : 0 < writeLen n j ∧ writeLen n j < 2 ^ 32 := by
  have hmax : ((MAXOPBLOCKS - 1 - 1 - 2) / 2) * 512 = 1536 := by decide
  rw [writeLen, hmax]
  omega

theorem Still.beginOp (hL : Layout sb) (h : Still sb ip i d k) :
    wp beginOpK (fun _ k' => k' = { k with fs := k'.fs } ∧ View sb ip i d k'.fs ∧ k'.fs.icache = k.fs.icache ∧
      k'.fs.dev = { k.fs.dev with log := ⟨1, false, []⟩ }) (fun _ => False) k := by
  refine wp.post (onFs_spec (onDev_spec (beginOp_idle h.log))) ?_
  rintro _ k' ⟨e, hs, hv⟩
  obtain ⟨hview, -⟩ := h.view.home hL (v := k'.fs.dev) (by rw [hv]; exact .nil hL.logArea) (by rw [hv]; exact fun _ _ => rfl)
  rw [← hs] at hview
  exact ⟨e, hview, by rw [hs], hv⟩

/-- What a transaction has done before its `end_op`. -/
structure AtEnd (sb : Superblock) (ip i : Nat) (d' : Dinode) (k' : Kernel) : Prop where
  view : View sb ip i d' k'.fs
  unlocked : (k'.fs.icache ip).locked = false
  out : k'.fs.dev.log.outstanding = 1
  committing : k'.fs.dev.log.committing = false

theorem AtEnd.endOp (hL : Layout sb) (h : AtEnd sb ip i d k) :
    wp (endOpK sb) (fun _ k' => k' = { k with fs := k'.fs } ∧ Still sb ip i d k' ∧ k'.fs.icache = k.fs.icache ∧
      ∀ b, Home sb b → k'.fs.dev.cache b = k.fs.dev.cache b) (fun _ => False) k := by
  refine wp.post (onFs_spec (onDev_spec (endOp_alone hL.logArea h.view.ok.fs.head h.out h.committing))) ?_
  rintro _ k' ⟨e, hs, hlog, hc⟩
  obtain ⟨hview, -⟩ := h.view.home hL (v := k'.fs.dev) (by rw [hlog]; exact .nil hL.logArea) hc
  rw [← hs] at hview
  exact ⟨e, ⟨hview, by rw [hs]; exact h.unlocked, hlog⟩, by rw [hs], hc⟩

theorem Still.writeBracket (hL : Layout sb) (h : Still sb ip i d k) (ht : d.type ≠ T_DEV) (ho : (k.ftable f).off = off)
    (hoff : off < 2 ^ 32) (hpos : 0 < n) (hn : n < 2 ^ 32) (addr : Nat) :
    wp (writeBracket sb f ip addr n) (fun _ k' => ∃ d', AtEnd sb ip i d' k' ∧ d'.type = d.type ∧ (k'.ftable f).off < 2 ^ 32 ∧
      k'.fs.dev.log.lh.toFinset.card = if WriteArgs d off n then writeCost sb k.fs.dev.cache d off n else 0)
      (fun _ => WriteArgs d off n ∧ ¬ Room sb off n { k.fs.dev with log := ⟨1, false, []⟩ } d) k := by
  refine wp.bind (wp.mono (h.beginOp hL) (fun _ _ => id) fun _ => False.elim) ?_
  rintro _ k₁ ⟨e₁, hv₁, hi₁, hd₁⟩
  rw [writeSegment]
  refine wp.bind (wp.mono (onFs_spec (hv₁.ilock (by rw [hi₁]; exact h.unlocked))) (fun _ _ => id) fun _ => False.elim) ?_
  rintro _ k₂ ⟨e₂, s₂⟩
  have hv₂ : View sb ip i d k₂.fs := by
    rw [s₂]
    exact hv₁.set hv₁.pos rfl rfl rfl rfl
  have hd₂ : k₂.fs.dev = { k.fs.dev with log := ⟨1, false, []⟩ } := by rw [s₂, hd₁]
  have hl₂ : (k₂.fs.icache ip).locked = true := by
    rw [s₂]
    simp only [update_self]
  have ho₂ : (k₂.ftable f).off = off := by
    rw [e₂, e₁]
    exact ho
  refine wp_bind.2 (wp_get.2 ?_)
  rw [ho₂, ← hd₂]
  refine wp.bind (onFs_spec (hv₂.writei hL ht hoff hn fun j => k₂.proc.mem (addr + j))) ?_
  rintro r k₃ ⟨e₃, ⟨ha, rfl, hs₃⟩ | ⟨ha, rfl, d', hv₃, hsame, hi₃, -, hstep, hw⟩⟩
  · -- refused
    rw [advance, if_neg (by decide), pure_bind, if_neg ha]
    have hv₃ : View sb ip i d k₃.fs := by rwa [hs₃]
    refine wp.bind (wp.mono (onFs_spec (hv₃.iunlock (by rw [hs₃]; exact hl₂))) (fun _ _ hq => hq) fun _ => False.elim) ?_
    rintro _ k₄ ⟨e₄, hs₄⟩
    have hd₄ : k₄.fs.dev = { k.fs.dev with log := ⟨1, false, []⟩ } := by rw [hs₄, hs₃, hd₂]
    refine ⟨d, ⟨?_, ?_, by rw [hd₄], by rw [hd₄]⟩, rfl, ?_, by rw [hd₄]; rfl⟩
    · rw [hs₄]
      exact hv₃.set hv₃.pos rfl rfl rfl rfl
    · rw [hs₄]
      simp only [update_self]
    · rw [e₄, e₃, ho₂]
      exact hoff
  · refine wp.bind (advance_spec (by rw [e₃]; exact ho₂) ha.2.1) ?_
    rintro _ k₄ e₄
    have hfs₄ : k₄.fs = k₃.fs := by rw [e₄]
    rw [← hfs₄] at hv₃ hi₃ hstep hw
    refine wp.bind (wp.mono (onFs_spec (hv₃.iunlock (by rw [hi₃, update_self]; exact hl₂))) (fun _ _ hq => hq)
      fun _ => False.elim) ?_
    rintro _ k₅ ⟨e₅, hs₅⟩
    have hd₅ : k₅.fs.dev = k₄.fs.dev := by rw [hs₅]
    have hmax := ha.2.2
    simp only [MAXFILE, NDIRECT, NINDIRECT, NDINDIRECT, BSIZE] at hmax
    rw [hd₂] at hstep hw
    have hlen := hw.length_lh hL hv₂.inum_lt hpos (by omega) rfl hv₃.ok.fs.head.nodup
    refine ⟨d', ⟨?_, ?_, ?_, ?_⟩, by rw [hsame], ?_, ?_⟩
    · rw [hs₅]
      exact hv₃.set hv₃.pos rfl rfl rfl rfl
    · rw [hs₅]
      simp only [update_self]
    · rw [hd₅, hstep.out]
    · rw [hd₅, hstep.committing]
    · rw [e₅, e₄]
      simp only [update_self]
      exact ha.2.1
    · rw [if_pos ha, hd₅, List.toFinset_card_of_nodup hv₃.ok.fs.head.nodup, hlen]

theorem WriteBegins.still (hL : Layout sb) (h : Still sb ip i d k₀) (ht : d.type = T_FILE) (hoff : (k₀.ftable f).off < 2 ^ 32)
    (hb : WriteBegins sb f ip addr n k₀ j k) :
    j < n ∧ (k.ftable f).off < 2 ^ 32 ∧ ∃ d', Still sb ip i d' k ∧ d'.type = T_FILE := by
  induction hb with
  | start hpos => exact ⟨hpos, hoff, d, h, ht⟩
  | @next j r k k₁ k₂ _ hr he _ hlt ih =>
    obtain ⟨hj, hoff', d', hstill, ht'⟩ := ih
    obtain ⟨hpos, hlen⟩ := writeLen_bounds hj
    have hw := hstill.writeBracket hL (by rw [ht']; decide) rfl hoff' hpos hlen (addr + j)
    obtain ⟨d'', hbr, htype, hoff'', -⟩ := hw.of_ok hr
    obtain ⟨e, hs, -⟩ := (hbr.endOp hL).of_ok he
    refine ⟨hlt, ?_, d'', hs, by rw [htype, ht']⟩
    rw [e]
    exact hoff''

/-- Every transaction of `filewrite` on a regular file logs at most `MAXOPBLOCKS` distinct blocks exactly if
`writei` refuses its piece, or the blocks counted by `writeCost` in the state in which it begins are no more. -/
theorem filewrite_budget_iff (hL : Layout sb) (h : Still sb ip i d k₀) (ht : d.type = T_FILE)
    (hoff : (k₀.ftable f).off < 2 ^ 32) (hb : WriteBegins sb f ip addr n k₀ j k)
    (hr : (writeBracket sb f ip (addr + j) (writeLen n j)).run k = .ok (r, k₁)) :
    k₁.fs.dev.log.lh.toFinset.card ≤ MAXOPBLOCKS ↔
      (WriteArgs (k.fs.icache ip).d (k.ftable f).off (writeLen n j) →
        writeCost sb k.fs.dev.cache (k.fs.icache ip).d (k.ftable f).off (writeLen n j) ≤ MAXOPBLOCKS) := by
  obtain ⟨hj, hoff', d', hstill, ht'⟩ := hb.still hL h ht hoff
  obtain ⟨hpos, hlen⟩ := writeLen_bounds hj
  have hw := hstill.writeBracket hL (by rw [ht']; decide) rfl hoff' hpos hlen (addr + j)
  obtain ⟨-, -, -, -, hcard⟩ := hw.of_ok hr
  rw [hcard, hstill.view.d]
  split
  · next ha => exact ⟨fun hle _ => hle, fun hle => hle ha⟩
  · next ha => exact ⟨fun _ hc => absurd hc ha, fun _ => Nat.zero_le _⟩

end

theorem still_fileKernel (key : BitVec 32) (b : Byte) : Still mkfsSuperblock 0 1 (fileDinode 1 1) (fileKernel key [b]) :=
  ⟨⟨cacheOk_openTwice key (by decide) (by simp) _, by decide, show (0 : Int) < 2 by decide, rfl, rfl, rfl⟩, rfl, rfl⟩

/-- Overwriting the one byte of a file logs one block. -/
theorem filewrite_budget_overwrite : ∃ r k₁,
    (writeBracket mkfsSuperblock 0 0 16 (writeLen 1 0)).run (fileKernel 0 [0x61]) = .ok (r, k₁) ∧
      k₁.fs.dev.log.lh.toFinset.card ≤ MAXOPBLOCKS := by
  have hrun : (writeBracket mkfsSuperblock 0 0 16 (writeLen 1 0)).run (fileKernel 0 [0x61]) = .ok (1, _) :=
    run_eq_final (by decide +kernel)
  refine ⟨_, _, hrun, (filewrite_budget_iff mkfs_layout (still_fileKernel 0 0x61) rfl (by decide)
    (.start (by decide)) hrun).2 fun _ => ?_⟩
  decide +kernel

/-! ### A fragmented disk -/

def plainFile (nlink : BitVec 16) (len : Nat) : FileImage := ⟨T_FILE, 0, 0, nlink, len, fun _ => 0⟩

/-- The blocks up to 8190 are in use. The second file is block 4095, the last of the first block of the
free map, and has no name; the third has all entries but one of its last leaf. -/
def fragFiles : List FileImage := [plainFile 1 (3999 * 512), plainFile 0 512,
    plainFile 1 (3977 * 512 + 1), plainFile 1 (84 * 512)]

/-- The second file is in the cache and can be freed. -/
def nearlyFragFs : Fs :=
  (InodeCall.readi 0 0 0).after ((InodeCall.iget 2).after (InodeCall.beginOp.after
    ⟨boot (diskOf fragFiles) [], fun _ => ⟨0, 0, 0, false, false, .fresh 0⟩, []⟩))

/-- It has been freed, and the third file is in the cache. The next blocks to be handed out lie in three blocks of the map. -/
def fragFs : Fs :=
  (InodeCall.readi 0 0 0).after ((InodeCall.iget 3).after (InodeCall.endOp.after ((InodeCall.iput 0).after nearlyFragFs)))

theorem fits_fragFiles : Fits fragFiles := by
  refine ⟨by decide, fun x hx => ?_, fun x hx => ?_, by decide +kernel⟩
  all_goals
    simp only [fragFiles, List.mem_cons, List.not_mem_nil, or_false] at hx
    rcases hx with rfl | rfl | rfl | rfl <;> decide

theorem inodeRun_fragFs : InodeRun mkfsSuperblock fragFs := by
  have hboot : InodeRun mkfsSuperblock ⟨boot (diskOf fragFiles) [], fun _ => ⟨0, 0, 0, false, false, .fresh 0⟩, []⟩ := by
    refine .boot ?_ fun _ => rfl
    change FsOk _ _ (diskTable mkfsSuperblock (diskOf fragFiles))
    rw [diskTable_diskOf fits_fragFiles]
    exact fits_fragFiles.fsOk []
  have hget := (hboot.after .beginOp trivial (by decide +kernel)).after (.iget 2) ⟨by decide, by decide⟩ (by decide +kernel)
  have hread : InodeRun mkfsSuperblock nearlyFragFs :=
    hget.after (.readi 0 0 0) ⟨by decide, by decide, by decide⟩ (by decide +kernel)
  have hput := hread.after (.iput 0) ⟨by decide, by decide +kernel⟩ (by decide +kernel)
  have hend := hput.after .endOp trivial (by decide +kernel)
  exact (hend.after (.iget 3) ⟨by decide, by decide⟩ (by decide +kernel)).after (.readi 0 0 0) ⟨by decide, by decide, by decide⟩
    (by decide +kernel)

/-- The third file is open at its end. -/
def fragKernel : Kernel :=
  { fileKernel 0 [] with
    fs := fragFs
    ftable := fun f => if f = 0 then ⟨.FD_INODE, 1, true, true, 0, some 0, 3977 * 512 + 1⟩
      else ⟨.FD_NONE, 0, false, false, 0, none, 0⟩ }

theorem still_fragKernel : Still mkfsSuperblock 0 3 (fragFs.icache 0).d fragKernel := by
  have hlog : fragFs.dev.log.outstanding = 0 ∧ fragFs.dev.log.committing = false ∧ fragFs.dev.log.lh = [] := by decide +kernel
  refine ⟨⟨inodeRun_fragFs.ok mkfs_layout, by decide, by decide +kernel, by decide +kernel, by
    decide +kernel, rfl⟩, by decide +kernel, ?_⟩
  change (⟨fragFs.dev.log.outstanding, fragFs.dev.log.committing, fragFs.dev.log.lh⟩ : Log) = _
  rw [hlog.1, hlog.2.1, hlog.2.2]

/-- A write of 1536 bytes at the end of the third file logs 11 blocks. -/
theorem filewrite_over_budget : Still mkfsSuperblock 0 3 (fragFs.icache 0).d fragKernel ∧ (fragFs.icache 0).d.type = T_FILE ∧
    WriteBegins mkfsSuperblock 0 0 16 1536 fragKernel 0 fragKernel ∧
    ∃ r k₁, (writeBracket mkfsSuperblock 0 0 16 (writeLen 1536 0)).run fragKernel = .ok (r, k₁) ∧
      k₁.fs.dev.log.lh.toFinset.card = 11 ∧ MAXOPBLOCKS = 10 := by
  have hrun : ((writeBracket mkfsSuperblock 0 0 16 (writeLen 1536 0)).run fragKernel).toOption.map
      (fun p => p.2.fs.dev.log.lh.toFinset.card) = some 11 := by decide +kernel
  cases hr : (writeBracket mkfsSuperblock 0 0 16 (writeLen 1536 0)).run fragKernel with
  | error e =>
    rw [hr] at hrun
    cases hrun
  | ok p =>
    rw [hr] at hrun
    exact ⟨still_fragKernel, by decide +kernel, .start (by decide), p.1, p.2, rfl, Option.some.inj hrun, rfl⟩

end Xv6
