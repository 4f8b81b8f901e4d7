import Xv6.DiskOf
import Xv6.AtRest

/-!
# A state between calls on given files

The disk that holds the files `fs`, and an inode cache with one reference to each inode of `us`: a state between two calls.
Whether a path can be walked in it is decided by looking at every entry.
-/

namespace Xv6

def cacheOf (us : List Nat) (e : Nat) : Inode :=
  match us[e]? with
  | some i => ⟨ROOTDEV, i, 1, false, false, .fresh 0⟩
  | none => ⟨0, 0, 0, false, false, .fresh 0⟩

def fsOf (fs : List FileImage) (us : List Nat) : Fs where
  dev := boot (diskOf fs) []
  icache := cacheOf us
  freed := []

def dirNode (nlink : BitVec 16) (es : List (List Byte × Nat)) : Node where
  type := T_DIR
  major := 0
  minor := 0
  nlink := nlink
  bytes := es.flatMap fun x => entryBytes x.1 x.2

def fileNode (nlink : BitVec 16) (bytes : List Byte) : Node where
  type := T_FILE
  major := 0
  minor := 0
  nlink := nlink
  bytes := bytes

/-- Inode `j` exists and has a link or is in use. -/
def aliveIn (fs : List FileImage) (us : List Nat) (j : Nat) : Bool :=
  j ≠ 0 && (fs[j - 1]?).any fun x => x.nlink ≠ 0 || us.contains j

def walkable (fs : List FileImage) (us : List Nat) : Bool :=
  aliveIn fs us ROOTINO && fs.all fun x => x.type ≠ T_DIR || x.node.bytes.length % 16 = 0 &&
    (List.range (slots x.node.bytes)).all fun k => deInum (slot x.node.bytes k) = 0 || aliveIn fs us
      (deInum (slot x.node.bytes k))

structure InCache (us : List Nat) : Prop where
  nodup : us.Nodup
  length : us.length ≤ NINODE
  range : ∀ i ∈ us, 1 ≤ i ∧ i < 200

section

variable {fs : List FileImage} {us : List Nat} {e j : Nat}

theorem cacheOf_pos (h : 0 < (cacheOf us e).ref) : ∃ i, us[e]? = some i ∧ cacheOf us e = ⟨ROOTDEV, i, 1,
    false, false, .fresh 0⟩ := by
  unfold cacheOf at h ⊢
  cases hu : us[e]? with
  | none =>
    rw [hu] at h
    exact absurd h (lt_irrefl 0)
  | some i => exact ⟨i, rfl, rfl⟩

theorem cacheOf_plain (us : List Nat) (e : Nat) :
    0 ≤ (cacheOf us e).ref ∧ (cacheOf us e).locked = false ∧ (cacheOf us e).valid = false := by
  unfold cacheOf
  cases us[e]? with
  | none => exact ⟨Int.le_refl 0, rfl, rfl⟩
  | some i => exact ⟨Int.one_nonneg, rfl, rfl⟩

theorem Fits.atRest (h : Fits fs) (hu : InCache us) : AtRest mkfsSuperblock (fsOf fs us) := by
  have hlt : ∀ {e i : Nat}, us[e]? = some i → e < NINODE := fun {e i} he =>
    lt_of_lt_of_le (List.getElem?_eq_some_iff.1 he).1 hu.length
  refine ⟨⟨?_, fun e _ he => ?_, fun e _ _ hv => ?_, fun e _ he => ?_, fun e e' _ _ he he' hin => ?_⟩,
    fun e => (cacheOf_plain us e).1, fun e he => ?_, fun e => (cacheOf_plain us e).2.1, rfl, Int.le_refl 0⟩
  · change FsOk mkfsSuperblock (boot (diskOf fs) []) (diskTable mkfsSuperblock (diskOf fs))
    rw [diskTable_diskOf h]
    exact h.fsOk []
  · obtain ⟨i, hi, hc⟩ := cacheOf_pos he
    change 1 ≤ (cacheOf us e).inum ∧ (cacheOf us e).inum < 200
    rw [hc]
    exact hu.range i (List.mem_of_getElem? hi)
  · have hval : (cacheOf us e).valid = true := hv
    rw [(cacheOf_plain us e).2.2] at hval
    cases hval
  · obtain ⟨i, -, hc⟩ := cacheOf_pos he
    change (cacheOf us e).dev = ROOTDEV
    rw [hc]
  · obtain ⟨i, hi, hc⟩ := cacheOf_pos he
    obtain ⟨i', hi', hc'⟩ := cacheOf_pos he'
    have hii : i = i' := by
      change (cacheOf us e).inum = (cacheOf us e').inum at hin
      rwa [hc, hc'] at hin
    obtain ⟨hl, hg⟩ := List.getElem?_eq_some_iff.1 hi
    obtain ⟨hl', hg'⟩ := List.getElem?_eq_some_iff.1 hi'
    exact (hu.nodup.getElem_inj_iff).1 (hg.trans (hii.trans hg'.symm))
  · obtain ⟨i, hi, -⟩ := cacheOf_pos he
    exact hlt hi

theorem Fits.storeOf_fsOf (h : Fits fs) :
    storeOf mkfsSuperblock (fsOf fs us).dev.cache = fun i =>
      if i = 0 then none else (fs[i - 1]?).map FileImage.node := h.storeOf_eq

theorem cached_fsOf (hj : j ∈ us) : ∃ e, 0 < ((fsOf fs us).icache e).ref ∧ ((fsOf fs us).icache e).inum = j := by
  obtain ⟨e, he⟩ := List.mem_iff_getElem?.1 hj
  have hc : (fsOf fs us).icache e = ⟨ROOTDEV, j, 1, false, false, .fresh 0⟩ := by
    change cacheOf us e = _
    rw [cacheOf, he]
  exact ⟨e, by rw [hc]; exact Int.one_pos, by rw [hc]⟩

theorem aliveIn_alive (h : Fits fs) (ha : aliveIn fs us j = true) :
    Alive (storeOf mkfsSuperblock (fsOf fs us).dev.cache) (fsOf fs us) j := by
  rw [h.storeOf_fsOf]
  simp only [aliveIn, Bool.and_eq_true, Option.any_eq_true, Bool.or_eq_true, decide_eq_true_eq] at ha
  obtain ⟨h0, x, hx, hlive⟩ := ha
  refine ⟨x.node, ?_, fun hz => cached_fsOf ?_⟩
  · simp only [if_neg h0, hx, Option.map_some]
  · exact List.contains_iff_mem.1 (hlive.resolve_left fun hne => hne hz)

theorem Fits.walkable (h : Fits fs) (hw : walkable fs us = true) : Walkable mkfsSuperblock (fsOf fs us) := by
  simp only [Xv6.walkable, Bool.and_eq_true, List.all_eq_true, Bool.or_eq_true, decide_eq_true_eq, List.mem_range] at hw
  obtain ⟨hroot, hall⟩ := hw
  have hmem : ∀ {i nd}, storeOf mkfsSuperblock (fsOf fs us).dev.cache i = some nd → ∃ x ∈ fs, x.node = nd := by
    intro i nd hF
    rw [h.storeOf_fsOf] at hF
    dsimp only at hF
    split at hF
    · cases hF
    · obtain ⟨x, hx, rfl⟩ := Option.map_eq_some_iff.1 hF
      exact ⟨x, List.mem_of_getElem? hx, rfl⟩
  refine ⟨aliveIn_alive h hroot, fun i nd hF ht => ?_, fun i nd k j nm hF ht he => ?_⟩
  · obtain ⟨x, hx, rfl⟩ := hmem hF
    exact ((hall x hx).resolve_left fun hne => hne ht).1
  · obtain ⟨x, hx, rfl⟩ := hmem hF
    have hk := ((hall x hx).resolve_left fun hne => hne ht).2 k he.lt
    rw [he.inum] at hk
    exact aliveIn_alive h (hk.resolve_left he.used)

end

/-! ### A small tree -/

/-- The root directory with the file `f`. -/
def treeWithF : List FileImage :=
  [dirNode 1 [([46], 1), ([46, 46], 1), ([102], 2)], fileNode 1 [104, 105]].map .ofNode

theorem fits_treeWithF : Fits treeWithF := ⟨by decide, by decide, by decide, by decide +kernel⟩

theorem inCache_root : InCache [1] := ⟨by decide, by decide, by decide⟩

end Xv6
