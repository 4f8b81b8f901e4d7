import Xv6.DirLink

/-!
# Log space and free blocks for a call

A call that stores inodes and directory entries logs free-map blocks, of which there are five, one block
for each inode stored and at most four for each entry. `Supplied` keeps the account of them and of the
free blocks; `Supply` is the same account for a call that may also run out.
-/

namespace Xv6

/-- What is logged are free-map blocks and at most `m` others, and at least `f` blocks are free. -/
structure Supplied (sb : Superblock) (m f : Nat) (v : Dev) : Prop where
  cap : LOGSIZE ≤ sb.nlog
  logged : ∃ B : Finset Nat, B.card ≤ m ∧ ∀ x ∈ v.log.lh, x ∈ B ∨ ∃ b, b < sb.size ∧ x = bblock sb b
  free : f ≤ (freeBlocks sb v.cache).card

def Supply (sb : Superblock) (E : Fault → Prop) (m f : Nat) (v : Dev) : Prop := Supplied sb m f v ∨ ∀ e, AllocFault e → E e

section

variable {sb : Superblock} {P : Option (Store → Prop)} {F : Store} {s₀ s : Fs} {env : Nat → Nat} {E : Fault → Prop}
variable {hs : Multiset (Nat × Nat)} {locks : Multiset Nat} {m f i k : Nat} {v v' : Dev} {d d' : Dinode}
    {T : Table} {src : Nat → Byte}

theorem Supplied.bound (hL : Layout sb) (h : Supplied sb m f v) : ∃ A : Finset Nat, A.card ≤ m + 5 ∧ (∀ x ∈ v.log.lh, x ∈ A) ∧
    ∀ b, b < sb.size → bblock sb b ∈ A := by
  obtain ⟨B, hcard, hB⟩ := h.logged
  have hbit := card_bitmap_le sb
  have hsize := hL.size_le
  have hunion := Finset.card_union_le B ((Finset.range sb.size).image (bblock sb))
  refine ⟨B ∪ (Finset.range sb.size).image (bblock sb), by omega, fun x hx => ?_, fun b hb => ?_⟩
  · rcases hB x hx with hx | ⟨b, hb, rfl⟩
    · exact Finset.mem_union_left _ hx
    · exact Finset.mem_union_right _ (Finset.mem_image.2 ⟨b, Finset.mem_range.2 hb, rfl⟩)
  · exact Finset.mem_union_right _ (Finset.mem_image.2 ⟨b, Finset.mem_range.2 hb, rfl⟩)

theorem Sees.tx (h : Sees sb P s₀ env 1 F hs locks s) : 1 ≤ s.dev.log.outstanding := by
  rw [h.out]
  exact Int.le_refl 1

theorem Supply.log (hL : Layout sb) (h : Sees sb P s₀ env 1 F hs locks s) (hS : Supply sb E m f s.dev) (hm : m ≤ 20) :
    (∃ A, LogRoom sb A s.dev) ∨ ∀ e, LogFault e → E e := by
  refine hS.imp (fun hS => ?_) fun hE e he => hE e (.inr he)
  obtain ⟨A, hcard, hsub, -⟩ := hS.bound hL
  have hcap := hS.cap
  simp only [LOGSIZE, MAXOPBLOCKS] at hcap
  refine ⟨A, h.tx, h.ok.fs.head.nodup, hsub, ?_, ?_⟩
  · simp only [LOGSIZE, MAXOPBLOCKS]
    omega
  · omega

theorem Supply.room (hL : Layout sb) (h : Sees sb P s₀ env 1 F hs locks s) (hS : Supply sb E m f s.dev) (hm : m ≤ 20) (hf : 3 ≤ f)
    (k : Nat) (d : Dinode) : Room sb (16 * k) 16 s.dev d ∨ ∀ e, AllocFault e → E e := by
  refine hS.imp_left fun hS => ?_
  obtain ⟨A, hcard, hsub, hbit⟩ := hS.bound hL
  have hcap := hS.cap
  have hfree := hS.free
  have htouch := card_touched_entry k
  simp only [LOGSIZE, MAXOPBLOCKS] at hcap
  have hmiss : (missing s.dev.cache d (touched (16 * k) 16)).card ≤ (touched (16 * k) 16).card := Finset.card_filter_le _ _
  refine .of_bound h.tx h.ok.fs.head.nodup hsub hbit ?_ (by omega) (by omega)
  simp only [LOGSIZE, MAXOPBLOCKS]
  omega

theorem Supply.iupdate (hL : Layout sb) (hS : Supply sb E m f v) (hi : i < sb.ninodes) (d : Dinode) :
    Supply sb E (m + 1) f (v.iupdate sb i d) := by
  refine hS.imp_left fun hS => ?_
  obtain ⟨B, hcard, hB⟩ := hS.logged
  have hins := Finset.card_insert_le (iblock sb i) B
  refine ⟨hS.cap, ⟨insert (iblock sb i) B, by omega, fun x hx => ?_⟩, hS.free.trans (le_of_eq ?_)⟩
  · rcases mem_absorb.1 hx with hx | rfl
    · exact (hB x hx).imp_left Finset.mem_insert_of_mem
    · exact .inl (Finset.mem_insert_self ..)
  · congr 1
    refine Finset.filter_congr fun b hb => ?_
    rw [Dev.iupdate, blockUsed_store hL (.inl (hL.iblock_lt hi)) _ (Finset.mem_range.1 hb)]

theorem Written.free {off n : Nat} (hO : Owned sb v.cache T ∅) (hT : T i = some d) (hw : Written sb T i ∅ off n src v d v' d') :
    freeBlocks sb v.cache ⊆ freeBlocks sb v'.cache ∪ (touched off n).image (ptr v'.cache d') := by
  have hset : T.set i d = T := by rw [Table.set, ← hT, Function.update_eq_self]
  obtain ⟨new, v₁, d₁, hnew, hfills, hptr, -⟩ := hw.fills
  intro b hb
  obtain ⟨hlt, hunused⟩ := Finset.mem_filter.1 hb
  have hlt := Finset.mem_range.1 hlt
  have hno : ¬ (b < sb.nmeta ∨ b ∈ (∅ : Set Nat) ∨ ∃ r, refs v.cache T r = b) := fun hc => by
    rw [(hO.used_iff b hlt).2 hc] at hunused
    cases hunused
  by_cases hu : blockUsed sb v'.cache b = false
  · exact Finset.mem_union_left _ (Finset.mem_filter.2 ⟨Finset.mem_range.2 hlt, hu⟩)
  · rcases (hw.owned.used_iff b hlt).1 (Bool.eq_true_of_not_eq_false hu) with hm | hm | ⟨⟨j, l⟩, hr⟩
    · exact absurd (.inl hm) hno
    · exact hm.elim
    · by_cases hj : j = i
      · subst hj
        rw [refs_set] at hr
        by_cases hl : l ∈ new.map Prod.fst
        · obtain ⟨x, hx, rfl⟩ := List.mem_map.1 hl
          exact Finset.mem_union_right _ (Finset.mem_image.2 ⟨x.1, hnew x hx, hr⟩)
        · -- this place was there before
          rw [hptr, hfills.rest l hl, ← refs_some hT] at hr
          exact absurd (.inr (.inr ⟨_, hr⟩)) hno
      · rw [hw.refs_other j l hj, hset] at hr
        exact absurd (.inr (.inr ⟨_, hr⟩)) hno

theorem Loc.above_subset_of_mem {l p : Loc} (h : l ∈ p.path) : l.above ⊆ p.path := by
  cases p <;> simp only [Loc.path, Finset.mem_insert, Finset.mem_singleton] at h
  case leafEnt => rcases h with rfl | rfl | rfl <;> simp [Loc.above, Loc.path]
  case indEnt => rcases h with rfl | rfl <;> simp [Loc.above, Loc.path]
  case leaf => rcases h with rfl | rfl <;> simp [Loc.above, Loc.path]
  all_goals
    rw [h]
    exact Finset.empty_subset _

theorem above_mem_touched {off n : Nat} {l q : Loc} (hl : l ∈ touched off n) (hq : q ∈ l.above) : q ∈ touched off n := by
  obtain ⟨bn, hbn, hl⟩ := Finset.mem_biUnion.1 hl
  exact Finset.mem_biUnion.2 ⟨bn, hbn, Loc.above_subset_of_mem hl hq⟩

theorem Supply.written (hS : Supply sb E m (f + 3) v) (hO : Owned sb v.cache T ∅) (hT : T i = some d)
    (hw : Written sb T i ∅ (16 * k) 16 src v d v' d') : Supply sb E (m + 4) f v' := by
  refine hS.imp_left fun hS => ?_
  have htouch := card_touched_entry k
  have himage := Finset.card_image_le (s := touched (16 * k) 16) (f := ptr v'.cache d')
  obtain ⟨new, v₁, d₁, hnew, hfills, hptr, -, hlh⟩ := hw.fills
  obtain ⟨B, hcard, hB⟩ := hS.logged
  have hunion := Finset.card_union_le B ((touched (16 * k) 16).image (ptr v'.cache d'))
  have hins := Finset.card_insert_le (iblock sb i) (B ∪ (touched (16 * k) 16).image (ptr v'.cache d'))
  refine ⟨hS.cap, ⟨insert (iblock sb i) (B ∪ (touched (16 * k) 16).image (ptr v'.cache d')), by omega, fun x hx => ?_⟩, ?_⟩
  · have hplace : ∀ {l}, l ∈ touched (16 * k) 16 → ptr v₁.cache d₁ l ∈
        insert (iblock sb i) (B ∪ (touched (16 * k) 16).image (ptr v'.cache d')) := fun {l} hl =>
      Finset.mem_insert_of_mem (Finset.mem_union_right _ (Finset.mem_image.2 ⟨l, hl, hptr l⟩))
    rcases (hlh x).1 hx with hx | ⟨-, rfl⟩
    · rcases (hfills.lh x).1 hx with hx | ⟨l, hl, rfl⟩ | ⟨y, hy, hx⟩
      · exact (hB x hx).imp_left fun h => Finset.mem_insert_of_mem (Finset.mem_union_left _ h)
      · obtain ⟨p, h1, h2, rfl⟩ := hl
        exact .inl (hplace (path_subset_touched (by omega) (by omega) (Loc.self_mem_path _)))
      · rcases hx with rfl | rfl | ⟨q, hq, rfl⟩
        · rw [← (hfills.filled y hy).2.1]
          exact .inl (hplace (hnew y hy))
        · refine .inr ⟨y.2, ?_, rfl⟩
          obtain ⟨-, hy2, hz⟩ := hfills.filled y hy
          have hr : refs v'.cache (T.set i d') (i, y.1) = y.2 := by rw [refs_set, hptr, hy2]
          have := (hw.owned.range (i, y.1) (by rw [hr]; exact hz)).2
          rwa [hr] at this
        · exact .inl (hplace (above_mem_touched (hnew y hy) hq))
    · exact .inl (Finset.mem_insert_self ..)
  · have hsub := Finset.card_le_card (Written.free hO hT hw)
    have hsum := Finset.card_union_le (freeBlocks sb v'.cache) ((touched (16 * k) 16).image (ptr v'.cache d'))
    have := hS.free
    omega

end

end Xv6
