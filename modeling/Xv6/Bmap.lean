import Xv6.Alloc
import Mathlib.Data.Finset.Union

/-!
# `bmap` fills the block map

`Grown` is what a transaction may do to an inode's map: places are filled with zeroed blocks, nothing
that was there changes, neither in this inode nor in another. `Enough` says that the free blocks and the log suffice
for filling the places of a set `S`; filling one of them keeps it. `bmap` fills the places on the path
to one data block (`bmap_spec`).
-/

namespace Xv6

open Prog Function

def Loc.isData : Loc → Bool
  | .direct _ | .indEnt _ | .leafEnt _ _ => true
  | .ind | .dind | .leaf _ => false

theorem Loc.not_isData_of_up {l p : Loc} (h : l.up = some p) : p.isData = false := by
  cases l <;> simp only [Loc.up, reduceCtorEq, Option.some.injEq] at h <;> subst h <;> rfl

/-- The places on the way to `l`, itself included. -/
def Loc.path : Loc → Finset Loc
  | .direct j => {.direct j}
  | .ind => {.ind}
  | .indEnt j => {.ind, .indEnt j}
  | .dind => {.dind}
  | .leaf k => {.dind, .leaf k}
  | .leafEnt k j => {.dind, .leaf k, .leafEnt k j}

theorem Loc.self_mem_path (l : Loc) : l ∈ l.path := by
  cases l <;> simp [Loc.path]

/-- The places above `l`: their pointer blocks are logged when `l` is filled. -/
def Loc.above : Loc → Finset Loc
  | .direct _ | .ind | .dind => ∅
  | .indEnt _ => {.ind}
  | .leaf _ => {.dind}
  | .leafEnt k _ => {.dind, .leaf k}

theorem Loc.above_of_none {l : Loc} (h : l.up = none) : l.above = ∅ := by
  cases l <;> first | rfl | cases h

theorem Loc.up_mem_above {l p : Loc} (h : l.up = some p) : p ∈ l.above := by
  cases l <;> simp only [Loc.up, reduceCtorEq, Option.some.injEq] at h <;> subst h <;> simp [Loc.above]

theorem Loc.above_subset_path (l : Loc) : l.above ⊆ l.path := by
  cases l <;> simp [Loc.above, Loc.path, Finset.subset_iff]

/-- The table with inode `i` changed. -/
abbrev Table.set (T : Table) (i : Nat) (d : Dinode) : Table := update T i (some d)

theorem refs_set (c : Image) (T : Table) (i : Nat) (d : Dinode) (l : Loc) :
    refs c (T.set i d) (i, l) = ptr c d l := refs_some (update_self ..) l

/-- From `s` and `d` to `s'` and `d'` the map of inode `i` has only been filled. -/
structure Grown (sb : Superblock) (T : Table) (i : Nat) (s : Dev) (d : Dinode) (s' : Dev) (d' : Dinode) :
    Prop where
  same : d' = { d with addrs := d'.addrs }
  keep : ∀ r, refs s.cache (T.set i d) r ≠ 0 → refs s'.cache (T.set i d') r = refs s.cache (T.set i d) r
  other : ∀ j l, j ≠ i → refs s'.cache (T.set i d') (j, l) = refs s.cache (T.set i d) (j, l)
  fresh : ∀ l : Loc, l.isData = true → ptr s.cache d l = 0 → ptr s'.cache d' l ≠ 0 →
    s'.cache (ptr s'.cache d' l) = Block.zero _
  data : ∀ r : Ref, r.2.isData = true → refs s.cache (T.set i d) r ≠ 0 →
    s'.cache (refs s.cache (T.set i d) r) = s.cache (refs s.cache (T.set i d) r)
  low : ∀ b, b < sb.bmapstart → s'.cache b = s.cache b
  logged : ∀ x ∈ s'.log.lh, x ∈ s.log.lh ∨ sb.inodestart ≤ x ∧ x < sb.size

/-- The empty places of `S`. -/
def missing (c : Image) (d : Dinode) (S : Finset Loc) : Finset Loc := S.filter fun l => ptr c d l = 0

def freeBlocks (sb : Superblock) (c : Image) : Finset Nat :=
  (Finset.range sb.size).filter fun b => blockUsed sb c b = false

/-- The free blocks, in the order in which `balloc` takes them. -/
def freeList (sb : Superblock) (c : Image) : List Nat := (List.range sb.size).filter fun b => !blockUsed sb c b

/-- The pointer blocks into which pointers go when the empty places of `S` are filled. -/
def linkedAbove (c : Image) (d : Dinode) (S : Finset Loc) : Finset Loc := (missing c d S).biUnion Loc.above

/-- Blocks and log suffice for filling `S` and writing its data blocks; `A` is what is logged of the blocks that are
there: data blocks, the pointer blocks that get new pointers, and the free-map blocks of the first free blocks. -/
structure Enough (sb : Superblock) (S : Finset Loc) (s : Dev) (d : Dinode) (A : Finset Nat) : Prop where
  room : LogRoom sb A s
  bitmap : ∀ b ∈ (freeList sb s.cache).take (missing s.cache d S).card, bblock sb b ∈ A
  data : ∀ l ∈ S, l.isData = true → ptr s.cache d l ≠ 0 → ptr s.cache d l ∈ A
  above : ∀ l ∈ linkedAbove s.cache d S, ptr s.cache d l ≠ 0 → ptr s.cache d l ∈ A
  card : A.card + (missing s.cache d S).card < LOGSIZE
  card' : A.card + (missing s.cache d S).card + 1 < sb.nlog
  free : (missing s.cache d S).card ≤ (freeBlocks sb s.cache).card

/-- The log grows from `s` to `s'`, and every block that the table names anew is in it. -/
structure Announced (T : Table) (s : Dev) (T' : Table) (s' : Dev) : Prop where
  mono : ∀ x ∈ s.log.lh, x ∈ s'.log.lh
  news : ∀ r, refs s'.cache T' r = refs s.cache T r ∨ refs s'.cache T' r ∈ s'.log.lh

/-- From `s` and `d` to `s'` and `d'` the places of `new` have been filled with the first free blocks, in their order.
Those blocks, their free-map blocks, the pointer blocks above them and the blocks at the places `V` have been
logged, and no others. -/
structure Fills (sb : Superblock) (V : Set Loc) (new : List (Loc × Nat)) (s : Dev) (d : Dinode) (s' : Dev) (d' : Dinode) :
    Prop where
  taken : new.map Prod.snd ++ freeList sb s'.cache = freeList sb s.cache
  filled : ∀ x ∈ new, ptr s.cache d x.1 = 0 ∧ ptr s'.cache d' x.1 = x.2 ∧ x.2 ≠ 0
  nodup : (new.map Prod.fst).Nodup
  rest : ∀ l, l ∉ new.map Prod.fst → ptr s'.cache d' l = ptr s.cache d l
  visited : ∀ l ∈ V, ptr s'.cache d' l ≠ 0
  lh : ∀ b, b ∈ s'.log.lh ↔ b ∈ s.log.lh ∨ (∃ l ∈ V, b = ptr s'.cache d' l) ∨
    ∃ x ∈ new, b = x.2 ∨ b = bblock sb x.2 ∨ ∃ q ∈ x.1.above, b = ptr s'.cache d' q

/-- The place `l` of inode `i` now names `a`, on the way from `s` and `d` to `s'` and `d'`. -/
structure Filled (sb : Superblock) (T : Table) (i : Nat) (hand : Set Nat) (S : Finset Loc) (l : Loc)
    (s : Dev) (d : Dinode) (a : Nat) (s' : Dev) (d' : Dinode) : Prop where
  owned : Owned sb s'.cache (T.set i d') hand
  grown : Grown sb T i s d s' d'
  at_ : ptr s'.cache d' l = a
  ne : a ≠ 0
  enough : (∃ A, Enough sb S s d A) → ∃ A, Enough sb S s' d' A
  stay : (∀ l ∈ S, ptr s.cache d l ≠ 0) → d' = d
  announced : Announced (T.set i d) s (T.set i d') s'
  fills : ∃ new, (∀ x ∈ new, x.1 ∈ S) ∧ Fills sb ∅ new s d s' d'

section

variable {sb : Superblock} {T : Table} {i : Nat} {s s₁ s₂ : Dev} {d d₁ d₂ : Dinode} {hand : Set Nat}
variable {S : Finset Loc} {l : Loc} {a : Nat}

theorem Announced.refl : Announced T s T s := ⟨fun _ => id, fun _ => .inl rfl⟩

theorem Announced.trans {T₁ T₂ : Table} (h : Announced T s T₁ s₁) (h' : Announced T₁ s₁ T₂ s₂) : Announced T s T₂ s₂ := by
  refine ⟨fun x hx => h'.mono x (h.mono x hx), fun r => ?_⟩
  rcases h'.news r with hr | hr
  · rw [hr]
    exact (h.news r).imp_right (h'.mono _)
  · exact .inr hr

theorem ptr_path_ne {c : Image} {l : Loc} (h : ptr c d l ≠ 0) : ∀ l' ∈ l.path, ptr c d l' ≠ 0 := by
  intro l' hl'
  cases l with
  | direct j => rwa [Finset.mem_singleton.1 hl']
  | ind => rwa [Finset.mem_singleton.1 hl']
  | dind => rwa [Finset.mem_singleton.1 hl']
  | indEnt j =>
    simp only [Loc.path, Finset.mem_insert, Finset.mem_singleton] at hl'
    rcases hl' with rfl | rfl
    · intro h0
      exact h (by rw [ptr_up rfl, h0, entry_zero])
    · exact h
  | leaf k =>
    simp only [Loc.path, Finset.mem_insert, Finset.mem_singleton] at hl'
    rcases hl' with rfl | rfl
    · intro h0
      exact h (by rw [ptr_up rfl, h0, entry_zero])
    · exact h
  | leafEnt k j =>
    have hleaf : ptr c d (.leaf k) ≠ 0 := fun h0 => h (by rw [ptr_up rfl, h0, entry_zero])
    simp only [Loc.path, Finset.mem_insert, Finset.mem_singleton] at hl'
    rcases hl' with rfl | rfl | rfl
    · intro h0
      exact hleaf (by rw [ptr_up rfl, h0, entry_zero])
    · exact hleaf
    · exact h

/-! ### Which blocks are taken and logged -/

theorem freeList_eq_cons {c : Image} (ha : a < sb.size) (hf : blockUsed sb c a = false)
    (hfirst : ∀ b, b < a → blockUsed sb c b = true) :
    freeList sb c = a :: (List.range' (a + 1) (sb.size - (a + 1))).filter fun b => !blockUsed sb c b := by
  have hsplit : List.range sb.size = List.range a ++ a :: List.range' (a + 1) (sb.size - (a + 1)) := by
    have h := List.range'_append_1 (s := 0) (m := a) (n := sb.size - (a + 1) + 1)
    rw [Nat.zero_add, List.range'_succ, show a + (sb.size - (a + 1) + 1) = sb.size by omega] at h
    rw [List.range_eq_range', List.range_eq_range', h]
  have hlow : ((List.range a).filter fun b => !blockUsed sb c b) = [] :=
    List.filter_eq_nil_iff.2 fun b hb => by simp [hfirst b (List.mem_range.1 hb)]
  rw [freeList, hsplit, List.filter_append, hlow, List.filter_cons_of_pos (by rw [hf]; rfl), List.nil_append]

theorem freeList_cons {c c' : Image} (ha : a < sb.size) (hf : blockUsed sb c a = false)
    (hfirst : ∀ b, b < a → blockUsed sb c b = true)
    (hu : ∀ b, b < sb.size → blockUsed sb c' b = (blockUsed sb c b || decide (b = a))) :
    freeList sb c = a :: freeList sb c' := by
  have hrest : freeList sb c' = (freeList sb c).filter fun b => !decide (b = a) := by
    rw [freeList, freeList, List.filter_filter]
    refine List.filter_congr fun b hb => ?_
    rw [hu b (List.mem_range.1 hb), Bool.not_or, Bool.and_comm]
  rw [hrest, freeList_eq_cons ha hf hfirst, List.filter_cons_of_neg (by simp)]
  refine congrArg (a :: ·) (List.filter_eq_self.2 fun b hb => ?_).symm
  have hb' := List.mem_range'_1.1 (List.mem_filter.1 hb).1
  simp only [Bool.not_eq_eq_eq_not, Bool.not_true, decide_eq_false_iff_not]
  omega

namespace Fills

variable {V V' : Set Loc} {new new' : List (Loc × Nat)}

theorem refl : Fills sb ∅ [] s d s d :=
  ⟨rfl, fun _ h => absurd h List.not_mem_nil, List.nodup_nil, fun _ _ => rfl, fun _ h => h.elim, fun b => by simp⟩

theorem ne_of_mem (h : Fills sb V new s d s₁ d₁) {l : Loc} (hl : l ∈ new.map Prod.fst) :
    ptr s.cache d l = 0 ∧ ptr s₁.cache d₁ l ≠ 0 := by
  obtain ⟨x, hx, rfl⟩ := List.mem_map.1 hl
  obtain ⟨h0, ha, hz⟩ := h.filled x hx
  exact ⟨h0, by rwa [ha]⟩

theorem keep (h : Fills sb V new s d s₁ d₁) {l : Loc} (hl : ptr s.cache d l ≠ 0) : ptr s₁.cache d₁ l = ptr s.cache d l :=
  h.rest l fun hm => hl (h.ne_of_mem hm).1

theorem above_ne (h : Fills sb V new s d s₁ d₁) {x : Loc × Nat} (hx : x ∈ new) {q : Loc} (hq : q ∈ x.1.above) :
    ptr s₁.cache d₁ q ≠ 0 :=
  ptr_path_ne (h.ne_of_mem (List.mem_map_of_mem hx)).2 q (x.1.above_subset_path hq)

theorem trans (h : Fills sb V new s d s₁ d₁) (h' : Fills sb V' new' s₁ d₁ s₂ d₂) :
    Fills sb (V ∪ V') (new ++ new') s d s₂ d₂ := by
  refine ⟨?_, fun x hx => ?_, ?_, fun l hl => ?_, ?_, fun b => ?_⟩
  · rw [List.map_append, List.append_assoc, h'.taken, h.taken]
  · rcases List.mem_append.1 hx with hx | hx
    · obtain ⟨h0, ha, hz⟩ := h.filled x hx
      exact ⟨h0, by rw [h'.keep (by rwa [ha]), ha], hz⟩
    · obtain ⟨h0, ha, hz⟩ := h'.filled x hx
      refine ⟨?_, ha, hz⟩
      rw [← h.rest x.1 fun hm => (h.ne_of_mem hm).2 h0, h0]
  · rw [List.map_append]
    exact List.nodup_append'.2 ⟨h.nodup, h'.nodup, fun l hl hl' => (h.ne_of_mem hl).2 (h'.ne_of_mem hl').1⟩
  · rw [List.map_append, List.mem_append, not_or] at hl
    rw [h'.rest l hl.2, h.rest l hl.1]
  · rintro l (hl | hl)
    · rw [h'.keep (h.visited l hl)]
      exact h.visited l hl
    · exact h'.visited l hl
  · -- what was logged on the way is still found at the same places
    have hV : (∃ l ∈ V, b = ptr s₁.cache d₁ l) ↔ ∃ l ∈ V, b = ptr s₂.cache d₂ l :=
      exists_congr fun l => and_congr_right fun hl => by rw [h'.keep (h.visited l hl)]
    have hnew : (∃ x ∈ new, b = x.2 ∨ b = bblock sb x.2 ∨ ∃ q ∈ x.1.above, b = ptr s₁.cache d₁ q) ↔
        ∃ x ∈ new, b = x.2 ∨ b = bblock sb x.2 ∨ ∃ q ∈ x.1.above, b = ptr s₂.cache d₂ q :=
      exists_congr fun x => and_congr_right fun hx => or_congr_right <| or_congr_right <|
        exists_congr fun q => and_congr_right fun hq => by rw [h'.keep (h.above_ne hx hq)]
    have hVV : (∃ l ∈ V ∪ V', b = ptr s₂.cache d₂ l) ↔ (∃ l ∈ V, b = ptr s₂.cache d₂ l) ∨ ∃ l ∈ V', b = ptr s₂.cache d₂ l := by
      simp only [Set.mem_union, or_and_right, exists_or]
    have hnn : ∀ P : Loc × Nat → Prop, (∃ x ∈ new ++ new', P x) ↔ (∃ x ∈ new, P x) ∨ ∃ x ∈ new', P x := fun P => by
      simp only [List.mem_append, or_and_right, exists_or]
    rw [h'.lh, h.lh, hV, hnew, hVV, hnn, or_assoc, or_or_or_comm]

end Fills

/-! ### Filling places one after the other -/

theorem Grown.refl : Grown sb T i s d s d :=
  ⟨rfl, fun _ _ => rfl, fun _ _ _ => rfl, fun _ _ h h' => absurd h h', fun _ _ _ => rfl, fun _ _ => rfl,
    fun _ => .inl⟩

theorem Grown.trans (h : Grown sb T i s d s₁ d₁) (h' : Grown sb T i s₁ d₁ s₂ d₂) :
    Grown sb T i s d s₂ d₂ := by
  have hkeep : ∀ r, refs s.cache (T.set i d) r ≠ 0 →
      refs s₂.cache (T.set i d₂) r = refs s.cache (T.set i d) r := fun r hr => by
    rw [h'.keep r (by rwa [h.keep r hr]), h.keep r hr]
  refine ⟨by rw [h'.same, h.same], hkeep, fun j l hj => ?_, fun l hl h0 h2 => ?_, fun r hr hz => ?_, fun b hb => ?_,
    fun x hx => (h'.logged x hx).elim (h.logged x) .inr⟩
  · rw [h'.other j l hj, h.other j l hj]
  · by_cases h1 : ptr s₁.cache d₁ l = 0
    · exact h'.fresh l hl h1 h2
    · have hk := h'.keep (i, l) (by rwa [refs_set])
      have hd := h'.data (i, l) hl (by rwa [refs_set])
      rw [refs_set, refs_set] at hk
      rw [refs_set] at hd
      rw [hk, hd]
      exact h.fresh l hl h0 h1
  · have hk := h.keep r hz
    have hd := h'.data r hr (by rwa [hk])
    rw [hk] at hd
    rw [hd, h.data r hr hz]
  · rw [h'.low b hb, h.low b hb]

theorem Filled.refl (hO : Owned sb s.cache (T.set i d) hand) (h : ptr s.cache d l ≠ 0) :
    Filled sb T i hand S l s d (ptr s.cache d l) s d :=
  ⟨hO, .refl, rfl, h, id, fun _ => rfl, .refl, [], fun _ h => absurd h List.not_mem_nil, .refl⟩

theorem Grown.ptr_ne {l : Loc} (h : Grown sb T i s d s₁ d₁) (hl : ptr s.cache d l ≠ 0) : ptr s₁.cache d₁ l ≠ 0 := by
  have := h.keep (i, l) (by rwa [refs_set])
  rw [refs_set, refs_set] at this
  rwa [this]

theorem Filled.trans {l' : Loc} {a' : Nat} (h : Filled sb T i hand S l s d a s₁ d₁)
    (h' : Filled sb T i hand S l' s₁ d₁ a' s₂ d₂) : Filled sb T i hand S l' s d a' s₂ d₂ := by
  refine ⟨h'.owned, h.grown.trans h'.grown, h'.at_, h'.ne, fun he => h'.enough (h.enough he),
    fun hS => (h'.stay fun l hl => h.grown.ptr_ne (hS l hl)).trans (h.stay hS), h.announced.trans h'.announced, ?_⟩
  obtain ⟨new, hS, hf⟩ := h.fills
  obtain ⟨new', hS', hf'⟩ := h'.fills
  refine ⟨new ++ new', fun x hx => (List.mem_append.1 hx).elim (hS x) (hS' x), ?_⟩
  have := hf.trans hf'
  rwa [Set.union_empty] at this

/-! ### Linking one block -/

theorem missing_link (hS : l ∈ S) (h0 : ptr s.cache d l = 0)
    (hptr : ∀ l', ptr s₁.cache d₁ l' = if l' = l then a else ptr s.cache d l') (ha : a ≠ 0) :
    (missing s₁.cache d₁ S).card + 1 = (missing s.cache d S).card := by
  have hmem : l ∈ missing s.cache d S := Finset.mem_filter.2 ⟨hS, h0⟩
  have he : missing s₁.cache d₁ S = (missing s.cache d S).erase l := by
    ext l'
    simp only [missing, Finset.mem_filter, Finset.mem_erase, hptr]
    by_cases h : l' = l
    · simp [h, ha]
    · simp [h]
  rw [he, Finset.card_erase_of_mem hmem]
  have := Finset.card_pos.2 ⟨l, hmem⟩
  omega

theorem freeBlocks_alloc (ha : a < sb.size) (hf : blockUsed sb s.cache a = false)
    (hu : ∀ b, b < sb.size → blockUsed sb s₁.cache b = (blockUsed sb s.cache b || decide (b = a))) :
    (freeBlocks sb s₁.cache).card + 1 = (freeBlocks sb s.cache).card := by
  have hmem : a ∈ freeBlocks sb s.cache := Finset.mem_filter.2 ⟨Finset.mem_range.2 ha, hf⟩
  have he : freeBlocks sb s₁.cache = (freeBlocks sb s.cache).erase a := by
    ext b
    simp only [freeBlocks, Finset.mem_filter, Finset.mem_erase, Finset.mem_range]
    constructor
    · rintro ⟨hb, hub⟩
      rw [hu b hb] at hub
      simp only [Bool.or_eq_false_iff, decide_eq_false_iff_not] at hub
      exact ⟨hub.2, hb, hub.1⟩
    · rintro ⟨hne, hb, hub⟩
      exact ⟨hb, by rw [hu b hb, hub]; simp [hne]⟩
  rw [he, Finset.card_erase_of_mem hmem]
  have := Finset.card_pos.2 ⟨a, hmem⟩
  omega

/-- What the state looks like once the free block `a` has been allocated and stored at `l`. -/
structure Linked (sb : Superblock) (T : Table) (i : Nat) (S : Finset Loc) (l : Loc) (a : Nat)
    (s : Dev) (d : Dinode) (s' : Dev) (d' : Dinode) : Prop where
  refs : refs s'.cache (T.set i d') = update (refs s.cache (T.set i d)) (i, l) a
  cache : ∀ b, b ≠ a → b < sb.bmapstart ∨ sb.nmeta ≤ b →
    (∀ p, l.up = some p → ptr s.cache d p ≠ 0 → b ≠ ptr s.cache d p) → s'.cache b = s.cache b
  zero : s'.cache a = Block.zero _
  used : ∀ b, b < sb.size → blockUsed sb s'.cache b = (blockUsed sb s.cache b || decide (b = a))
  same : d' = { d with addrs := d'.addrs }
  out : s'.log.outstanding = s.log.outstanding
  nodup : s.log.lh.Nodup → s'.log.lh.Nodup
  above : ∀ q ∈ l.above, q ∈ S ∧ ptr s.cache d q ≠ 0
  lh : ∀ x, x ∈ s'.log.lh ↔ x ∈ s.log.lh ∨ x = a ∨ x = bblock sb a ∨ ∃ q ∈ l.above, x = ptr s.cache d q

theorem Linked.ptr_eq (h : Linked sb T i S l a s d s₁ d₁) (l' : Loc) :
    ptr s₁.cache d₁ l' = if l' = l then a else ptr s.cache d l' := by
  rw [← refs_set _ T i, h.refs, ← refs_set _ T i]
  by_cases hl : l' = l
  · rw [hl, update_self, if_pos rfl]
  · rw [update_of_ne (fun e => hl (Prod.ext_iff.1 e).2), if_neg hl]

theorem Enough.linked {A : Finset Nat} (hA : Enough sb S s d A) (h : Linked sb T i S l a s d s₁ d₁) (hS : l ∈ S)
    (h0 : ptr s.cache d l = 0) (ha0 : a ≠ 0) (ha : a < sb.size) (hf : blockUsed sb s.cache a = false)
    (hfirst : ∀ b, b < a → blockUsed sb s.cache b = true) : Enough sb S s₁ d₁ (insert a A) := by
  have hmiss := missing_link hS h0 h.ptr_eq ha0
  have hfree := freeBlocks_alloc ha hf h.used
  have hins := Finset.card_insert_le a A
  have h1 := hA.card
  have h2 := hA.card'
  have h3 := hA.free
  have hbit := hA.bitmap
  rw [freeList_cons ha hf hfirst h.used, ← hmiss, List.take_succ_cons] at hbit
  have hsub : missing s₁.cache d₁ S ⊆ missing s.cache d S := fun l' hl' => by
    obtain ⟨hl', hz⟩ := Finset.mem_filter.1 hl'
    rw [h.ptr_eq] at hz
    split at hz
    · exact absurd hz ha0
    · exact Finset.mem_filter.2 ⟨hl', hz⟩
  refine ⟨⟨h.out ▸ hA.room.tx, h.nodup hA.room.nodup, fun x hx => ?_, by omega, by omega⟩,
    fun b hb => Finset.mem_insert_of_mem (hbit b (List.mem_cons_of_mem a hb)), fun l' hl' hdat hz => ?_, fun l' hl' hz => ?_,
    by omega, by omega, by omega⟩
  · rw [Finset.mem_insert]
    rcases (h.lh x).1 hx with hx | hx | rfl | ⟨q, hq, rfl⟩
    · exact .inr (hA.room.sub x hx)
    · exact .inl hx
    · exact .inr (hbit a List.mem_cons_self)
    · exact .inr (hA.above q (Finset.mem_biUnion.2 ⟨l, Finset.mem_filter.2 ⟨hS, h0⟩, hq⟩) (h.above q hq).2)
  · rw [h.ptr_eq] at hz ⊢
    rw [Finset.mem_insert]
    by_cases hll : l' = l
    · exact .inl (if_pos hll)
    · rw [if_neg hll] at hz ⊢
      exact .inr (hA.data l' hl' hdat hz)
  · rw [h.ptr_eq] at hz ⊢
    rw [Finset.mem_insert]
    by_cases hll : l' = l
    · exact .inl (if_pos hll)
    · rw [if_neg hll] at hz ⊢
      exact .inr (hA.above l' (Finset.biUnion_subset_biUnion_of_subset_left _ hsub hl') hz)

theorem Linked.filled (hL : Layout sb) (hO : Owned sb s.cache (T.set i d) hand) (hS : l ∈ S)
    (h0 : ptr s.cache d l = 0) (ha : a < sb.size) (hf : blockUsed sb s.cache a = false)
    (hfirst : ∀ b, b < a → blockUsed sb s.cache b = true) (h : Linked sb T i S l a s d s₁ d₁) :
      Filled sb T i hand S l s d a s₁ d₁ := by
  have hmeta := hO.nmeta_le ha hf
  have hpos := hL.nmeta_pos
  have ha0 : a ≠ 0 := by omega
  have hbm : ∀ b, b < sb.bmapstart → b < sb.nmeta := fun b hb => by have := hL.bmap_lt; omega
  have hptr := h.ptr_eq
  refine ⟨?_, ⟨h.same, fun r hr => ?_, fun j l' hj => ?_, fun l' hl' hz hn => ?_, fun r hr hz => ?_, fun b hb => ?_,
    fun x hx => ?_⟩, by rw [hptr, if_pos rfl], ha0, ?_, fun hall => absurd h0 (hall l hS),
    ⟨fun x hx => (h.lh x).2 (.inl hx), fun r => ?_⟩, [(l, a)], by simpa using hS, ?_⟩
  · have hl : Ledger sb.nmeta sb.size (Xv6.refs s.cache (T.set i d)) (fun b => blockUsed sb s₁.cache b = true)
        (insert a hand) := Ledger.alloc hO ha (by simp [hf]) fun b hb => by simp [h.used b hb]
    rw [Owned, h.refs]
    exact hl.link (hO.not_mem_hand hf) (by rw [refs_set, h0]) hpos
  · have : r ≠ (i, l) := fun e => hr (by rw [e, refs_set, h0])
    rw [h.refs, update_of_ne this]
  · rw [h.refs, update_of_ne fun e => hj (Prod.ext_iff.1 e).1]
  · rw [hptr] at hn ⊢
    by_cases hll : l' = l
    · rw [if_pos hll]; exact h.zero
    · rw [if_neg hll] at hn; exact absurd hz hn
  · refine h.cache _ (hO.ref_ne ha0 hf r) (.inr (hO.range r hz).1) fun p hp _ e => ?_
    rw [← refs_set _ T i] at e
    have := congrArg (fun x : Ref => x.2.isData) (hO.inj _ _ e hz)
    simp only [hr, Loc.not_isData_of_up hp, Bool.true_eq_false] at this
  · have := hbm b hb
    refine h.cache b (by omega) (.inl hb) fun p _ hz e => ?_
    rw [← refs_set _ T i] at e hz
    have := (hO.range _ hz).1
    omega
  · have hino := hL.inodes_lt
    have hbm' := hL.bmap_lt
    rcases (h.lh x).1 hx with hx | rfl | rfl | ⟨q, hq, rfl⟩
    · exact .inl hx
    · exact .inr ⟨by omega, ha⟩
    · have := bmapstart_le_bblock sb a
      exact .inr ⟨by omega, hL.bblock_lt_size ha⟩
    · have hz := (h.above q hq).2
      rw [← refs_set _ T i] at hz ⊢
      have := hO.range _ hz
      exact .inr ⟨by omega, this.2⟩
  · rintro ⟨A, hA⟩
    exact ⟨insert a A, hA.linked h hS h0 ha0 ha hf hfirst⟩
  · rw [h.refs]
    by_cases hr : r = (i, l)
    · rw [hr, update_self]
      exact .inr ((h.lh a).2 (.inr (.inl rfl)))
    · rw [update_of_ne hr]
      exact .inl rfl
  · have hq : ∀ q ∈ l.above, ptr s₁.cache d₁ q = ptr s.cache d q := fun q hq => by
      rw [hptr, if_neg fun e : q = l => (h.above q hq).2 (by rw [e, h0])]
    refine ⟨(freeList_cons ha hf hfirst h.used).symm, fun x hx => ?_, List.nodup_singleton l, fun l' hl' => ?_, fun _ h => h.elim,
      fun x => ?_⟩
    · rw [List.mem_singleton.1 hx]
      exact ⟨h0, by rw [hptr, if_pos rfl], ha0⟩
    · rw [hptr, if_neg (by simpa using hl')]
    · rw [h.lh]
      simp only [Set.mem_empty_iff_false, false_and, exists_false, false_or, List.mem_singleton, exists_eq_left]
      exact or_congr_right <| or_congr_right <| or_congr_right <| exists_congr fun q => and_congr_right fun hm => by rw [hq q hm]

/-! ### One place of the map -/

theorem refs_balloc (hL : Layout sb) {T : Table} (hO : Owned sb s.cache T hand) (ha : a < sb.size)
    (hf : blockUsed sb s.cache a = false) : refs (s.balloc sb a).cache T = refs s.cache T := by
  have := hO.nmeta_le ha hf
  have := hL.nmeta_pos
  exact refs_congr fun i l p _ hz => balloc_cache hL ha (hO.ref_ne (by omega) hf _) (.inr (hO.range _ hz).1)

theorem Enough.first_mem {A : Finset Nat} (h : Enough sb S s d A) (hS : l ∈ S) (h0 : ptr s.cache d l = 0) (ha : a < sb.size)
    (hf : blockUsed sb s.cache a = false) (hfirst : ∀ b, b < a → blockUsed sb s.cache b = true) : bblock sb a ∈ A := by
  have hm : 0 < (missing s.cache d S).card := Finset.card_pos.2 ⟨l, Finset.mem_filter.2 ⟨hS, h0⟩⟩
  refine h.bitmap a ?_
  rw [freeList_eq_cons ha hf hfirst, ← Nat.succ_pred_eq_of_pos hm, List.take_succ_cons]
  exact List.mem_cons_self

theorem Enough.balloc_pre (hS : l ∈ S) (h0 : ptr s.cache d l = 0) (h : ∃ A, Enough sb S s d A) :
    (∃ b, b < sb.size ∧ blockUsed sb s.cache b = false) ∧
      ∃ A, LogRoom sb A s ∧ ∀ b, b < sb.size → blockUsed sb s.cache b = false →
        (∀ b', b' < b → blockUsed sb s.cache b' = true) → bblock sb b ∈ A := by
  obtain ⟨A, hA⟩ := h
  have hm : 0 < (missing s.cache d S).card := Finset.card_pos.2 ⟨l, Finset.mem_filter.2 ⟨hS, h0⟩⟩
  obtain ⟨b, hb⟩ := Finset.card_pos.1 (Nat.lt_of_lt_of_le hm hA.free)
  have hb' := Finset.mem_filter.1 hb
  exact ⟨⟨b, Finset.mem_range.1 hb'.1, hb'.2⟩, A, hA.room, fun b => hA.first_mem hS h0⟩

theorem Enough.room_balloc (hS : l ∈ S) (h0 : ptr s.cache d l = 0) (ha : a < sb.size)
    (hf : blockUsed sb s.cache a = false) (hfirst : ∀ b, b < a → blockUsed sb s.cache b = true) (h : ∃ A, Enough sb S s d A) :
    ∃ A, LogRoom sb A (s.balloc sb a) ∧ ∀ q ∈ l.above, ptr s.cache d q ≠ 0 → ptr s.cache d q ∈ A := by
  obtain ⟨A, hA⟩ := h
  have hmem : l ∈ missing s.cache d S := Finset.mem_filter.2 ⟨hS, h0⟩
  have hm : 0 < (missing s.cache d S).card := Finset.card_pos.2 ⟨l, hmem⟩
  have hins := Finset.card_insert_le a A
  have h1 := hA.card
  have h2 := hA.card'
  have hroom : LogRoom sb (insert a A) s :=
    hA.room.mono (Finset.subset_insert a A) (by omega) (by omega)
  have hbit := Finset.mem_insert_of_mem (b := a) (hA.first_mem hS h0 ha hf hfirst)
  exact ⟨insert a A, (hroom.store hbit _).store (Finset.mem_insert_self a A) _,
    fun q hq hz => Finset.mem_insert_of_mem (hA.above q (Finset.mem_biUnion.2 ⟨l, hmem, hq⟩) hz)⟩

theorem mem_balloc_lh {x : Nat} : x ∈ (s.balloc sb a).log.lh ↔ x ∈ s.log.lh ∨ x = a ∨ x = bblock sb a := by
  rw [Dev.balloc, Dev.store_lh, Dev.store_lh, mem_absorb, mem_absorb, or_assoc, or_comm (a := x = bblock sb a)]

theorem addrAlloc_spec (hL : Layout sb) (hO : Owned sb s.cache (T.set i d) hand) (hl : l.up = none) (hS : l ∈ S) :
    wp (addrAlloc sb d l.slot) (fun r s' => Filled sb T i hand S l s d r.1 s' r.2)
      (fun e => AllocFault e ∧ ¬ ∃ A, Enough sb S s d A) s := by
  rw [addrAlloc]
  split
  · next h0 =>
    have h0' : ptr s.cache d l = 0 := by rw [ptr_root hl, h0]
    refine wp.bind (balloc_spec hL (Enough.balloc_pre hS h0')) ?_
    rintro a _ ⟨ha, hf, hfirst, rfl⟩
    have hmeta := hO.nmeta_le ha hf
    have hlt := hL.size_le
    refine Linked.filled hL hO hS h0' ha hf hfirst ⟨?_, fun b hb hm _ => balloc_cache hL ha hb hm, balloc_cache_self,
      fun b hb => blockUsed_balloc hL hmeta hb, rfl, rfl, fun h => nodup_absorb (nodup_absorb h _) _,
      by simp [Loc.above_of_none hl], fun x => ?_⟩
    · have := refs_setAddr (T := T.set i d) (a := a) (update_self ..) hl h0 (by omega)
        (balloc_cache_self : (s.balloc sb a).cache a = _)
      rwa [update_idem, refs_balloc hL hO ha hf] at this
    · rw [mem_balloc_lh, Loc.above_of_none hl]
      simp
  · next h0 =>
    have := Filled.refl (S := S) hO (l := l) (by rwa [ptr_root hl])
    rwa [ptr_root hl] at this

theorem linked_entry (hL : Layout sb) (hO : Owned sb s.cache (T.set i d) hand) {p : Loc} (hl : l.up = some p)
    (habove : ∀ q ∈ l.above, q ∈ S ∧ ptr s.cache d q ≠ 0) (h0 : ptr s.cache d l = 0) (ha : a < sb.size)
    (hf : blockUsed sb s.cache a = false)
    (hc : s₁.cache = update (s.balloc sb a).cache (ptr s.cache d p)
      (((s.balloc sb a).cache (ptr s.cache d p)).putU32 (4 * l.slot) (BitVec.ofNat 32 a)))
    (hout : s₁.log.outstanding = s.log.outstanding) (hn : s.log.lh.Nodup → s₁.log.lh.Nodup)
    (hlh : ∀ x, x ∈ s₁.log.lh ↔ x ∈ (s.balloc sb a).log.lh ∨ ∃ q ∈ l.above, x = ptr s.cache d q) :
    Linked sb T i S l a s d s₁ d := by
  have hp := (habove p (Loc.up_mem_above hl)).2
  have hmeta := hO.nmeta_le ha hf
  have hpos := hL.nmeta_pos
  have hlt := hL.size_le
  have hpr : refs s.cache (T.set i d) (i, p) = ptr s.cache d p := refs_set ..
  have hprange := hO.range (i, p) (by rwa [hpr])
  have hap : a ≠ ptr s.cache d p := fun e => hO.ref_ne (by omega) hf (i, p) (by rw [hpr, e])
  have hrefs := refs_balloc hL hO ha hf
  refine ⟨?_, fun b hb hm hbp => ?_, ?_, fun b hb => ?_, rfl, hout, hn, habove, fun x => ?_⟩
  · have := refs_putEntry (c := (s.balloc sb a).cache) (T := T.set i d) (i := i) (a := a) hl
      (fun r hr => by rw [hrefs] at hr; exact hO.inj _ _ hr (by rw [hr, hpr]; exact hp))
      (by rwa [hrefs, hpr]) (by rw [hrefs, refs_set, h0]) (by omega) (by rwa [hrefs, hpr]) balloc_cache_self
    rw [hrefs, hpr] at this
    rw [hc, this]
  · rw [hc, update_of_ne (hbp p hl hp), balloc_cache hL ha hb hm]
  · rw [hc, update_of_ne hap, balloc_cache_self]
  · have hbb := hL.bblock_lt hb
    rw [← blockUsed_balloc hL hmeta hb]
    exact blockUsed_congr (by rw [hc, update_of_ne (by omega)])
  · rw [hlh, mem_balloc_lh, or_assoc, or_assoc]

theorem entryAlloc_spec (hL : Layout sb) (hO : Owned sb s.cache (T.set i d) hand) {p : Loc} (hl : l.up = some p)
    (hS : l ∈ S) (habove : ∀ q ∈ l.above, q ∈ S ∧ ptr s.cache d q ≠ 0) (up : Option Nat)
    (hup : ∀ x, x = ptr s.cache d p ∨ up = some x ↔ ∃ q ∈ l.above, x = ptr s.cache d q) :
    wp (entryAlloc sb (ptr s.cache d p) l.slot up) (fun a s' => Filled sb T i hand S l s d a s' d)
      (fun e => AllocFault e ∧ ¬ ∃ A, Enough sb S s d A) s := by
  have hp := (habove p (Loc.up_mem_above hl)).2
  have hrange := hO.range (i, p) (by rwa [refs_set])
  rw [refs_set] at hrange
  have hent : ptr s.cache d l = (u32 (s.cache (ptr s.cache d p)).data (4 * l.slot)).toNat := by
    rw [ptr_up hl, entry, if_neg hp]
  rw [entryAlloc]
  refine wp_bind.2 (wp_bread.2 ⟨fun h => absurd h (by have := hL.lt_fssize hrange.2; omega), fun _ => ?_⟩)
  split
  · next h0 =>
    have h0' : ptr s.cache d l = 0 := by rw [hent, h0]; rfl
    refine wp.bind (balloc_spec hL (Enough.balloc_pre hS h0')) ?_
    rintro a _ ⟨ha, hf, hfirst, rfl⟩
    have hroom : (∃ A, Enough sb S s d A) → _ := Enough.room_balloc hS h0' ha hf hfirst
    refine wp.bind ((logMod_spec _ _ fun h => (hroom h).imp fun _ => And.left).mono (fun _ _ => id)
      fun e he => ⟨.inr he.1, he.2⟩) ?_
    rintro _ s₂ rfl
    cases up with
    | none =>
      refine Linked.filled hL hO hS h0' ha hf hfirst (linked_entry hL hO hl habove h0' ha hf rfl rfl
        (fun h => nodup_absorb (nodup_absorb (nodup_absorb h _) _) _) fun x => ?_)
      rw [Dev.store_lh, mem_absorb, ← hup]
      simp
    | some b =>
      obtain ⟨q, hq, rfl⟩ := (hup b).1 (.inr rfl)
      refine wp.bind ((logWrite_spec _ fun h => ?_).mono (fun _ _ => id) fun e he => ⟨.inr he.1, he.2⟩) ?_
      · obtain ⟨A, hA, hpres⟩ := hroom h
        exact ⟨A, hA.store (hpres p (Loc.up_mem_above hl) hp) _⟩
      rintro _ s₃ rfl
      refine Linked.filled hL hO hS h0' ha hf hfirst (linked_entry hL hO hl habove h0' ha hf
        (update_eq_self ..) rfl
        (fun h => nodup_absorb (nodup_absorb (nodup_absorb (nodup_absorb h _) _) _) _) fun x => ?_)
      rw [Dev.store_lh, mem_absorb, Dev.store_lh, mem_absorb, ← hup, or_assoc]
      simp [eq_comm]
  · next h0 =>
    have hne : ptr s.cache d l ≠ 0 := fun e => h0 (BitVec.eq_of_toNat_eq (by rw [← hent, e]; rfl))
    rw [← hent]
    exact Filled.refl hO hne

/-! ### `bmap` -/

/-- The place that names data block `bn` of a file. -/
def locOf (bn : Nat) : Loc :=
  if bn < 11 then .direct (Fin.ofNat 11 bn)
  else if bn < 139 then .indEnt (Fin.ofNat 128 (bn - 11))
  else .leafEnt (Fin.ofNat 128 ((bn - 139) / 128)) (Fin.ofNat 128 ((bn - 139) % 128))

theorem isData_locOf (bn : Nat) : (locOf bn).isData = true := by
  unfold locOf
  split
  · rfl
  · split <;> rfl

theorem locOf_inj {m n : Nat} (hm : m < 16523) (hn : n < 16523) (h : locOf m = locOf n) : m = n := by
  unfold locOf at h
  split at h <;> split at h <;> (try split at h) <;> (try split at h) <;>
    simp only [Loc.direct.injEq, Loc.indEnt.injEq, Loc.leafEnt.injEq, reduceCtorEq, Fin.ext_iff, Fin.ofNat] at h <;>
    omega

theorem exists_locOf {l : Loc} (hl : l.isData = true) : ∃ bn, bn < 16523 ∧ locOf bn = l := by
  cases l with
  | direct j =>
    refine ⟨j, by omega, ?_⟩
    rw [locOf, if_pos j.isLt, Fin.ofNat_val_eq_self]
  | indEnt j =>
    refine ⟨11 + j, by omega, ?_⟩
    rw [locOf, if_neg (by omega), if_pos (by omega), show 11 + j.val - 11 = j by omega, Fin.ofNat_val_eq_self]
  | leafEnt k j =>
    refine ⟨139 + (128 * k + j), by omega, ?_⟩
    rw [locOf, if_neg (by omega), if_neg (by omega), show (139 + (128 * k.val + j) - 139) / 128 = k by omega,
      show (139 + (128 * k.val + j) - 139) % 128 = j by omega, Fin.ofNat_val_eq_self, Fin.ofNat_val_eq_self]
  | ind => cases hl
  | dind => cases hl
  | leaf k => cases hl

theorem bmap_spec (hL : Layout sb) (hO : Owned sb s.cache (T.set i d) hand) {bn : Nat} (hbn : bn < 16523)
    (hS : (locOf bn).path ⊆ S) :
    wp (bmap sb d bn) (fun r s' => Filled sb T i hand S (locOf bn) s d r.1 s' r.2)
      (fun e => AllocFault e ∧ ¬ ∃ A, Enough sb S s d A) s := by
  rw [bmap]
  split
  · next h =>
    have hloc : locOf bn = .direct (Fin.ofNat 11 bn) := if_pos h
    have := addrAlloc_spec hL hO (l := locOf bn) (by rw [hloc]; rfl) (hS (Loc.self_mem_path _))
    rwa [show (locOf bn).slot = bn by rw [hloc]; exact Nat.mod_eq_of_lt h] at this
  · next h =>
    simp only [NDIRECT, NINDIRECT, NDINDIRECT] at h ⊢
    split
    · next h' =>
      have hloc : locOf bn = .indEnt (Fin.ofNat 128 (bn - 11)) := by
        rw [locOf, if_neg (by omega), if_pos (by omega)]
      rw [hloc] at hS ⊢
      have hind : Loc.ind ∈ S := hS (by simp [Loc.path])
      refine wp.bind (addrAlloc_spec hL hO (l := .ind) rfl hind) ?_
      rintro ⟨ind, d₁⟩ s₁ h₁
      obtain rfl : ptr s₁.cache d₁ .ind = ind := h₁.at_
      have h₂ := entryAlloc_spec hL h₁.owned (l := .indEnt (Fin.ofNat 128 (bn - 11))) (p := .ind) rfl
        (hS (by simp [Loc.path])) (by simpa [Loc.above] using ⟨hind, h₁.ne⟩) none (by simp [Loc.above])
      rw [show (Loc.indEnt (Fin.ofNat 128 (bn - 11))).slot = bn - 11 from Nat.mod_eq_of_lt h'] at h₂
      exact wp.bind (h₂.mono (fun _ _ => id) fun e he => ⟨he.1, fun hA => he.2 (h₁.enough hA)⟩)
        fun a s₂ h₂ => h₁.trans h₂
    · next h' =>
      rw [if_pos (by omega)]
      have hloc : locOf bn = .leafEnt (Fin.ofNat 128 ((bn - 139) / 128)) (Fin.ofNat 128 ((bn - 139) % 128)) := by
        rw [locOf, if_neg (by omega), if_neg (by omega)]
      rw [hloc] at hS ⊢
      rw [show bn - 11 - 128 = bn - 139 by omega]
      have hk : (bn - 139) / 128 < 128 := by omega
      generalize hkd : Fin.ofNat 128 ((bn - 139) / 128) = k at hS ⊢
      generalize hjd : Fin.ofNat 128 ((bn - 139) % 128) = j at hS ⊢
      rw [show (bn - 139) / 128 = (Loc.leaf k).slot by rw [← hkd]; exact (Nat.mod_eq_of_lt hk).symm,
        show (bn - 139) % 128 = (Loc.leafEnt k j).slot by
          rw [← hjd]; exact (Nat.mod_eq_of_lt (Nat.mod_lt _ (by decide))).symm]
      have hdind : Loc.dind ∈ S := hS (by simp [Loc.path])
      have hleaf : Loc.leaf k ∈ S := hS (by simp [Loc.path])
      refine wp.bind (addrAlloc_spec hL hO (l := .dind) rfl hdind) ?_
      rintro ⟨dind, d₁⟩ s₁ h₁
      obtain rfl : ptr s₁.cache d₁ .dind = dind := h₁.at_
      refine wp.bind ((entryAlloc_spec hL h₁.owned (l := .leaf k) (p := .dind) rfl hleaf
        (by simpa [Loc.above] using ⟨hdind, h₁.ne⟩) none (by simp [Loc.above])).mono (fun _ _ =>
          id) fun e he => ⟨he.1, fun hA => he.2 (h₁.enough hA)⟩) ?_
      intro leaf s₂ h₂
      obtain rfl : ptr s₂.cache d₁ (.leaf k) = leaf := h₂.at_
      have hsame : ptr s₂.cache d₁ .dind = ptr s₁.cache d₁ .dind := rfl
      have habove : ∀ q ∈ (Loc.leafEnt k j).above, q ∈ S ∧ ptr s₂.cache d₁ q ≠ 0 := by
        simpa [Loc.above] using ⟨⟨hdind, hsame ▸ h₁.ne⟩, hleaf, h₂.ne⟩
      refine wp.bind ((entryAlloc_spec hL h₂.owned (l := .leafEnt k j) (p := .leaf k) rfl (hS (by simp [Loc.path])) habove
        (some (ptr s₁.cache d₁ .dind)) fun x => ?_).mono (fun _ _ => id)
        fun e he => ⟨he.1, fun hA => he.2 (h₂.enough (h₁.enough hA))⟩) fun a s₃ h₃ => h₁.trans (h₂.trans h₃)
      rw [← hsame, or_comm]
      simp [Loc.above, eq_comm]

end

end Xv6
