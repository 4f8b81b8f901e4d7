import Xv6.FileIo

/-!
# `itrunc` gives back every block

Once an inode is out of the table, the blocks it named are in hand, one for each place of its map
(`handOf`). `itrunc` visits the places level by level and frees what is there, so the hand shrinks place by place until
nothing is left. While it does so, only the free map changes, and the double-indirect block, whose
entries it clears in the buffer.
-/

namespace Xv6

open Prog Function

/-- The blocks that the places `R` name. -/
def handOf (p : Loc → Nat) (R : Set Loc) : Set Nat := {b | b ≠ 0 ∧ ∃ l ∈ R, p l = b}

/-- What is left to free: the blocks at the places `R` of the map `p`; `x` is the double-indirect block. -/
structure Freeing (sb : Superblock) (T : Table) (hand : Set Nat) (p : Loc → Nat) (x : Nat) (s₀ : Dev) (R : Set Loc)
    (s : Dev) : Prop where
  owned : Owned sb s.cache T (hand ∪ handOf p R)
  cache : ∀ b, b < sb.bmapstart ∨ sb.nmeta ≤ b ∧ b ≠ x → s.cache b = s₀.cache b
  logged : ∀ y ∈ s.log.lh, y ∈ s₀.log.lh ∨ sb.inodestart ≤ y ∧ y < sb.size
  unlogged : ∀ b, b ∉ s.log.lh → b ≠ x → s.cache b = s₀.cache b
  lh : ∀ y, y ∈ s.log.lh ↔ y ∈ s₀.log.lh ∨ ∃ l, l ∉ R ∧ p l ≠ 0 ∧ y = bblock sb (p l)
  room : ∀ A, LogRoom sb A s₀ → (∀ b, b < sb.size → bblock sb b ∈ A) → LogRoom sb A s

def FreeFault (sb : Superblock) (s₀ : Dev) (e : Fault) : Prop :=
  LogFault e ∧ ¬ ∃ A, LogRoom sb A s₀ ∧ ∀ b, b < sb.size → bblock sb b ∈ A

section

variable {sb : Superblock} {T : Table} {hand : Set Nat} {p : Loc → Nat} {x : Nat} {s₀ s : Dev} {R R' : Set Loc}

theorem handOf_congr (h : ∀ l, p l ≠ 0 → (l ∈ R' ↔ l ∈ R)) : handOf p R' = handOf p R := by
  ext b
  constructor
  · rintro ⟨hb, l, hl, rfl⟩
    exact ⟨hb, l, (h l hb).1 hl, rfl⟩
  · rintro ⟨hb, l, hl, rfl⟩
    exact ⟨hb, l, (h l hb).2 hl, rfl⟩

theorem Freeing.congr (h : Freeing sb T hand p x s₀ R s) (hR : ∀ l, p l ≠ 0 → (l ∈ R' ↔ l ∈ R)) :
    Freeing sb T hand p x s₀ R' s :=
  ⟨by rw [handOf_congr hR]; exact h.owned, h.cache, h.logged, h.unlogged, fun y => (h.lh y).trans <| or_congr_right <|
    exists_congr fun l => ⟨fun ⟨hl, hz, hy⟩ => ⟨mt (hR l hz).1 hl, hz, hy⟩, fun ⟨hl, hz, hy⟩ => ⟨mt (hR l hz).2 hl, hz, hy⟩⟩,
    h.room⟩

section

variable (hL : Layout sb) (hinj : ∀ l l', p l = p l' → p l ≠ 0 → l = l') (hhand : ∀ l, p l ∉ hand)
include hL hinj hhand

theorem Freeing.bfree_spec (h : Freeing sb T hand p x s₀ R s) {l : Loc} (hl : l ∈ R) (hz : p l ≠ 0) :
    wp (bfree sb (p l)) (fun _ s' => Freeing sb T hand p x s₀ (R \ {l}) s') (FreeFault sb s₀) s := by
  have hmem : p l ∈ hand ∪ handOf p R := .inr ⟨hz, l, hl, rfl⟩
  have hr := h.owned.hand_range _ hmem
  refine (Xv6.bfree_spec hL hr.2 (h.owned.used_of_hand hmem) fun ⟨A, hA, hbm⟩ => ⟨A, h.room A hA hbm⟩).mono ?_ fun _ he => he
  rintro _ _ rfl
  refine ⟨?_, fun b hb => ?_, fun y hy => ?_, fun b hb hx => ?_, fun y => ?_, fun A hA hbm =>
    (h.room A hA hbm).store (hbm _ hr.2) _⟩
  · have hset : hand ∪ handOf p (R \ {l}) = (hand ∪ handOf p R) \ {p l} := by
      ext b
      constructor
      · rintro (hb | ⟨hb, l', ⟨hl', hne⟩, rfl⟩)
        · exact ⟨.inl hb, fun e => hhand l (e ▸ hb)⟩
        · exact ⟨.inr ⟨hb, l', hl', rfl⟩, fun e => hne (hinj l' l e hb)⟩
      · rintro ⟨hb | ⟨hb, l', hl', rfl⟩, hne⟩
        · exact .inl hb
        · exact .inr ⟨hb, l', ⟨hl', fun e => hne (congrArg p e)⟩, rfl⟩
    rw [hset]
    exact h.owned.bfree hL hmem
  · rw [bfree_cache hL hr.2 (by omega), h.cache b hb]
  · have hino := hL.inodes_lt
    have hbb := bmapstart_le_bblock sb (p l)
    rcases mem_absorb.1 hy with hy | rfl
    · exact h.logged y hy
    · exact .inr ⟨by omega, hL.bblock_lt_size hr.2⟩
  · have hb' := mt mem_absorb.2 hb
    push Not at hb'
    rw [Dev.bfree, Dev.store_cache, update_of_ne hb'.2, h.unlogged b hb'.1 hx]
  · rw [Dev.bfree, Dev.store_lh, mem_absorb, h.lh, or_assoc]
    refine or_congr_right ⟨?_, ?_⟩
    · rintro (⟨l', hl', hz', hy⟩ | hy)
      · exact ⟨l', fun hm => hl' hm.1, hz', hy⟩
      · exact ⟨l, fun hm => hm.2 rfl, hz, hy⟩
    · rintro ⟨l', hl', hz', hy⟩
      by_cases hin : l' ∈ R
      · obtain rfl : l' = l := by
          by_contra hne
          exact hl' ⟨hin, hne⟩
        exact .inr hy
      · exact .inl ⟨l', hin, hz', hy⟩

theorem Freeing.freeEntries_spec (h : Freeing sb T hand p x s₀ R s) {q : Loc} (child : Nat → Loc)
    (hchild : ∀ j, j < 128 → p (child j) = entry s₀.cache (p q) j) (hcinj : ∀ j j', j < 128 → j' < 128 →
      child j = child j' → j = j')
    (hR : ∀ j, j < 128 → child j ∈ R) (hq : p q ≠ 0) (hqx : p q ≠ x) (hqr : sb.nmeta ≤ p q ∧ p q < sb.size) :
    wp (freeEntries sb (p q))
      (fun _ s' => Freeing sb T hand p x s₀ (R \ {l | ∃ j, j < 128 ∧ l = child j}) s') (FreeFault sb s₀) s := by
  have hblk : s.cache (p q) = s₀.cache (p q) := h.cache _ (.inr ⟨hqr.1, hqx⟩)
  rw [freeEntries]
  refine wp_bind.2 (wp_bread.2 ⟨fun hge => absurd hge (by have := hL.lt_fssize hqr.2; omega), fun _ => ?_⟩)
  rw [hblk]
  refine (wp_forRange (fun i _ t => Freeing sb T hand p x s₀ (R \ {l | ∃ j, j < i ∧ l = child j}) t) ?_ ?_).post ?_
  · exact h.congr fun l _ => by simp
  · rintro j - t - hj ht
    simp only [NINDIRECT, Nat.zero_add] at hj
    have hent : (u32 (s₀.cache (p q)).data (4 * j)).toNat = p (child j) := by
      rw [hchild j hj, entry, if_neg hq]
    have hstep : ∀ l, l ∈ R \ {l | ∃ j', j' < j + 1 ∧ l = child j'} ↔
        l ∈ (R \ {l | ∃ j', j' < j ∧ l = child j'}) \ {child j} := by
      intro l
      simp only [Set.mem_sdiff, Set.mem_ofPred_eq, Set.mem_singleton_iff, not_exists, not_and]
      constructor
      · rintro ⟨h1, h2⟩
        exact ⟨⟨h1, fun j' hj' => h2 j' (by omega)⟩, h2 j (by omega)⟩
      · rintro ⟨⟨h1, h2⟩, h3⟩
        refine ⟨h1, fun j' hj' => ?_⟩
        by_cases he : j' = j
        · exact he ▸ h3
        · exact h2 j' (by omega)
    split
    · next h0 =>
      have hz : p (child j) = 0 := by rw [← hent, h0]; rfl
      refine ht.congr fun l hl => (hstep l).trans ⟨And.left, fun h => ⟨h, fun e => hl ?_⟩⟩
      rw [Set.mem_singleton_iff.1 e, hz]
    · next h0 =>
      have hz : p (child j) ≠ 0 := fun e => h0 (BitVec.eq_of_toNat_eq (by rw [hent, e]; rfl))
      rw [hent]
      refine (ht.bfree_spec hL hinj hhand ⟨hR j hj, ?_⟩ hz).post fun _ _ h' => h'.congr fun l _ => hstep l
      rintro ⟨j', hj', he⟩
      have := hcinj j j' hj (by omega) he
      omega
  · intro _ t ht
    exact ht.congr fun l _ => by simp

end

theorem Freeing.bmod_spec (hL : Layout sb) (h : Freeing sb T hand p x s₀ R s) {l : Loc} (hl : l ∈ R) (hlx : p l = x)
    (hx : x ≠ 0) (f : Blk → Blk) :
    wp (bmod x f) (fun _ s' => Freeing sb T hand p x s₀ R s') (FreeFault sb s₀) s := by
  have hmem : x ∈ hand ∪ handOf p R := .inr ⟨hx, l, hl, hlx⟩
  have hr := h.owned.hand_range _ hmem
  have hrefs : refs (update s.cache x (f (s.cache x))) T = refs s.cache T :=
    refs_congr fun i l' q _ _ => update_of_ne (h.owned.hand_ne _ hmem _) ..
  simp only [bmod, wp_modify]
  refine ⟨?_, fun b hb => ?_, h.logged, fun b hb hbx => ?_, h.lh, fun A hA hbm => ?_⟩
  · simp only [Owned, hrefs]
    refine Ledger.congr_used h.owned fun b hb => ?_
    have := hL.bblock_lt hb
    rw [blockUsed_congr (update_of_ne (by omega) ..)]
  · have hm := hL.bmap_lt
    simp only
    rw [update_of_ne (by omega), h.cache b hb]
  · simp only
    rw [update_of_ne hbx, h.unlogged b hb hbx]
  · have := h.room A hA hbm
    exact ⟨this.tx, this.nodup, this.sub, this.card, this.card'⟩

end

/-! ### The three levels -/

/-- `d` with the first `n` pointers cleared. -/
def Dinode.cleared (d : Dinode) (n : Nat) : Dinode :=
  { d with addrs := fun j => if j.val < n then 0 else d.addrs j }

section

variable {d : Dinode} {n : Nat}

theorem addr_cleared {j : Nat} (hj : j < 13) : (d.cleared n).addr j = if j < n then 0 else d.addr j := by
  change (if j % 13 < n then 0 else d.addrs (Fin.ofNat 13 j)).toNat = _
  rw [Nat.mod_eq_of_lt hj]
  split <;> rfl

theorem cleared_succ (hn : n < 13) : (d.cleared n).setAddr n 0 = d.cleared (n + 1) := by
  refine Dinode.ext_addr rfl rfl rfl rfl rfl fun j hj => ?_
  rw [Dinode.addr_setAddr _ hn (by decide) _ hj, addr_cleared hj, addr_cleared hj]
  by_cases h : j = n
  · rw [if_pos h, if_pos (by omega)]
  · rw [if_neg h]
    by_cases hlt : j < n
    · rw [if_pos hlt, if_pos (by omega)]
    · rw [if_neg hlt, if_neg (by omega)]

theorem cleared_succ_of_zero (h0 : d.addr n = 0) : d.cleared n = d.cleared (n + 1) := by
  refine Dinode.ext_addr rfl rfl rfl rfl rfl fun j hj => ?_
  rw [addr_cleared hj, addr_cleared hj]
  by_cases h : j = n
  · rw [if_neg (by omega), if_pos (by omega), h, h0]
  · by_cases hlt : j < n
    · rw [if_pos hlt, if_pos (by omega)]
    · rw [if_neg hlt, if_neg (by omega)]

theorem cleared_zero : d.cleared 0 = d :=
  Dinode.ext_addr rfl rfl rfl rfl rfl fun j hj => by rw [addr_cleared hj, if_neg (by omega)]

end

section

variable {sb : Superblock} {T : Table} {hand : Set Nat} {s₀ s : Dev} {d : Dinode}
variable (hL : Layout sb) (hinj : ∀ l l', ptr s₀.cache d l = ptr s₀.cache d l' → ptr s₀.cache d l ≠ 0 → l = l')
variable (hhand : ∀ l, ptr s₀.cache d l ∉ hand)
variable (hrange : ∀ l, ptr s₀.cache d l ≠ 0 → sb.nmeta ≤ ptr s₀.cache d l ∧ ptr s₀.cache d l < sb.size)
include hL hinj hhand

theorem truncDirect_spec (h : Freeing sb T hand (ptr s₀.cache d) 0 s₀ Set.univ s) :
    wp (truncDirect sb d) (fun d' s' => d' = d.cleared 11 ∧
      Freeing sb T hand (ptr s₀.cache d) 0 s₀ {l | ∀ j, l ≠ .direct j} s') (FreeFault sb s₀) s := by
  rw [truncDirect]
  refine (wp_forRange (fun i d' t => d' = d.cleared i ∧ Freeing sb T hand (ptr s₀.cache d) 0 s₀
    {l | ∀ j : Fin 11, l = .direct j → i ≤ j} t) ⟨cleared_zero.symm, ?_⟩ ?_).post ?_
  · exact h.congr fun l _ => by simp
  · rintro i _ t - hi ⟨rfl, ht⟩
    simp only [NDIRECT, Nat.zero_add] at hi
    have haddr : (d.cleared i).addr i = ptr s₀.cache d (.direct ⟨i, hi⟩) := by
      rw [addr_cleared (by omega), if_neg (by omega)]
      rfl
    have hstep : ∀ l : Loc, l ∈ {l : Loc | ∀ j : Fin 11, l = .direct j → i + 1 ≤ j} ↔
        l ∈ {l : Loc | ∀ j : Fin 11, l = .direct j → i ≤ j} \ {.direct ⟨i, hi⟩} := by
      intro l
      constructor
      · intro hl
        refine ⟨fun j hj => by have := hl j hj; omega, fun he => ?_⟩
        have := hl ⟨i, hi⟩ he
        simp only at this
        omega
      · rintro ⟨hl, hne⟩ j rfl
        have h1 := hl j rfl
        have h2 : j.val ≠ i := fun e => hne (by subst e; rfl)
        omega
    rw [haddr]
    split
    · next h0 =>
      refine ⟨cleared_succ_of_zero (by rw [← h0, ← haddr, addr_cleared (by omega), if_neg (by omega)]), ?_⟩
      refine ht.congr fun l hl => (hstep l).trans ⟨And.left, fun h' => ⟨h', fun e => hl ?_⟩⟩
      rw [Set.mem_singleton_iff.1 e, h0]
    · next hz =>
      refine wp.bind (ht.bfree_spec hL hinj hhand ?_ hz) fun _ t' ht' => ⟨cleared_succ (by omega), ht'.congr fun l _ => hstep l⟩
      rintro j hj
      rw [← (Loc.direct.inj hj)]
  · rintro d' t ⟨hd', ht⟩
    refine ⟨hd', ht.congr fun l _ => ?_⟩
    simp only [Set.mem_ofPred_eq, NDIRECT, Nat.zero_add]
    constructor
    · intro hl j hj
      exact absurd hj (hl j)
    · intro hl j hj
      have := hl j hj
      omega

include hrange

theorem truncIndirect_spec
    (h : Freeing sb T hand (ptr s₀.cache d) 0 s₀ {l | ∀ j, l ≠ .direct j} s) :
    wp (truncIndirect sb (d.cleared 11)) (fun d' s' => d' = d.cleared 12 ∧
      Freeing sb T hand (ptr s₀.cache d) 0 s₀
        {l | l = .dind ∨ ∃ k, l = .leaf k ∨ ∃ j, l = .leafEnt k j} s') (FreeFault sb s₀) s := by
  have haddr : (d.cleared 11).addr 11 = ptr s₀.cache d .ind := by rw [addr_cleared (by decide), if_neg (by decide)]; rfl
  rw [truncIndirect, haddr]
  split
  · next h0 =>
    refine ⟨cleared_succ_of_zero h0, h.congr fun l hl => ?_⟩
    cases l with
    | indEnt j => exact absurd (by rw [ptr_up rfl, h0, entry_zero]) hl
    | ind => exact absurd h0 hl
    | _ => simp
  · next hz =>
    refine wp.bind (h.freeEntries_spec hL hinj hhand (q := .ind) (fun j => .indEnt (Fin.ofNat 128 j)) ?_ ?_ ?_ hz hz
      (hrange _ hz)) fun _ s₁ h₁ => ?_
    · intro j hj
      rw [ptr_up rfl]
      congr 1
      exact Nat.mod_eq_of_lt hj
    · intro j j' hj hj' he
      have := congrArg Fin.val (Loc.indEnt.inj he)
      simp only [Fin.ofNat, Nat.mod_eq_of_lt hj, Nat.mod_eq_of_lt hj'] at this
      exact this
    · intro j _ j' he
      cases he
    refine wp.bind (h₁.bfree_spec hL hinj hhand ?_ hz) fun _ s₂ h₂ => ⟨cleared_succ (by decide), h₂.congr fun l _ => ?_⟩
    · refine ⟨fun j he => ?_, ?_⟩
      · cases he
      · rintro ⟨j, -, he⟩
        cases he
    · cases l with
      | direct j => simp
      | ind => simp
      | dind => simp
      | leaf k => simp
      | leafEnt k j => simp
      | indEnt j =>
        simp only [reduceCtorEq, exists_const, or_self, Set.mem_ofPred_eq, Set.mem_sdiff, ne_eq,
          not_false_eq_true, implies_true, true_and, Set.mem_singleton_iff, and_true, false_iff, not_not]
        exact ⟨j, j.isLt, by rw [Fin.ofNat_val_eq_self]⟩

theorem truncLeaf_spec {k : Fin 128} {R : Set Loc} (h : Freeing sb T hand (ptr s₀.cache d) (d.addr 12) s₀ R s)
    (hd : .dind ∈ R) (hk : .leaf k ∈ R) (hkj : ∀ j, .leafEnt k j ∈ R) (hz : ptr s₀.cache d (.leaf k) ≠ 0)
    (f : Blk → Blk) :
    wp (do
        freeEntries sb (ptr s₀.cache d (.leaf k))
        bfree sb (ptr s₀.cache d (.leaf k))
        bmod (d.addr 12) f)
      (fun _ s' => Freeing sb T hand (ptr s₀.cache d) (d.addr 12) s₀ (R \ {l | l = .leaf k ∨ ∃ j, l = .leafEnt k j}) s')
      (FreeFault sb s₀) s := by
  have hdz : ptr s₀.cache d .dind ≠ 0 := fun h0 => hz (by rw [ptr_up rfl, h0, entry_zero])
  have hx : ptr s₀.cache d (.leaf k) ≠ d.addr 12 := fun e => by
    have := hinj (.leaf k) .dind e hz
    cases this
  refine wp.bind (h.freeEntries_spec hL hinj hhand (q := .leaf k) (fun j => .leafEnt k (Fin.ofNat 128 j)) ?_ ?_
    (fun j _ => hkj _) hz hx (hrange _ hz)) fun _ s₁ h₁ => ?_
  · intro j hj
    rw [ptr_up rfl]
    congr 1
    exact Nat.mod_eq_of_lt hj
  · intro j j' hj hj' he
    have := congrArg Fin.val (Loc.leafEnt.inj he).2
    simp only [Fin.ofNat, Nat.mod_eq_of_lt hj, Nat.mod_eq_of_lt hj'] at this
    exact this
  refine wp.bind (h₁.bfree_spec hL hinj hhand ⟨hk, ?_⟩ hz) fun _ s₂ h₂ => ?_
  · rintro ⟨j, -, he⟩
    cases he
  refine (h₂.bmod_spec hL (l := .dind) ⟨⟨hd, ?_⟩, ?_⟩ rfl hdz f).post fun _ s₃ h₃ => h₃.congr fun l _ => ?_
  · rintro ⟨j, -, he⟩
    cases he
  · intro he
    cases he
  · constructor
    · rintro ⟨hl, hne⟩
      refine ⟨⟨hl, ?_⟩, fun he => hne (.inl he)⟩
      rintro ⟨j, -, he⟩
      exact hne (.inr ⟨_, he⟩)
    · rintro ⟨⟨hl, hne⟩, hne'⟩
      refine ⟨hl, ?_⟩
      rintro (he | ⟨j, he⟩)
      · exact hne' he
      · exact hne ⟨j, j.isLt, by rw [he, Fin.ofNat_val_eq_self]⟩

theorem truncDouble_spec
    (h : Freeing sb T hand (ptr s₀.cache d) 0 s₀ {l | l = .dind ∨ ∃ k, l = .leaf k ∨ ∃ j, l = .leafEnt k j} s) :
    wp (truncDouble sb (d.cleared 12)) (fun d' s' => d' = d.cleared 13 ∧
      Freeing sb T hand (ptr s₀.cache d) (d.addr 12) s₀ ∅ s') (FreeFault sb s₀) s := by
  have haddr : (d.cleared 12).addr 12 = d.addr 12 := by rw [addr_cleared (by decide), if_neg (by decide)]
  have hdind : ptr s₀.cache d .dind = d.addr 12 := rfl
  have hx : Freeing sb T hand (ptr s₀.cache d) (d.addr 12) s₀
      {l | l = .dind ∨ ∃ k, l = .leaf k ∨ ∃ j, l = .leafEnt k j} s :=
    ⟨h.owned, fun b hb => h.cache b (hb.imp id fun hb => ⟨hb.1, by have := hL.nmeta_pos; omega⟩), h.logged, fun b hb _ => by
      by_cases hb0 : b = 0
      · exact h.cache b (.inl (by have := hL.bmap_lt; have := hL.inodes_lt; omega))
      · exact h.unlogged b hb hb0, h.lh, h.room⟩
  rw [truncDouble, haddr]
  split
  · next h0 =>
    refine ⟨cleared_succ_of_zero h0, hx.congr fun l hl => ?_⟩
    simp only [Set.mem_empty_iff_false, false_iff]
    rintro (rfl | ⟨k, rfl | ⟨j, rfl⟩⟩)
    · exact hl h0
    · exact hl (by rw [ptr_up rfl, hdind, h0, entry_zero])
    · exact hl (by rw [ptr_up rfl, ptr_up (l := .leaf k) rfl, hdind, h0, entry_zero, entry_zero])
  · next hz =>
    have hxr := hrange .dind hz
    rw [hdind] at hxr
    refine wp_bind.2 (wp_bread.2 ⟨fun hge => absurd hge (by have := hL.lt_fssize hxr.2; omega), fun _ => ?_⟩)
    rw [h.cache _ (.inr ⟨hxr.1, hz⟩)]
    refine wp.bind (wp_forRange (fun i _ t => Freeing sb T hand (ptr s₀.cache d) (d.addr 12) s₀
      {l | l = .dind ∨ ∃ k : Fin 128, i ≤ k ∧ (l = .leaf k ∨ ∃ j, l = .leafEnt k j)} t) ?_ ?_) fun _ t ht => ?_
    · exact hx.congr fun l _ => by simp
    · rintro i - t - hi ht
      simp only [NINDIRECT, Nat.zero_add] at hi
      have hent : (u32 (s₀.cache (d.addr 12)).data (4 * i)).toNat = ptr s₀.cache d (.leaf ⟨i, hi⟩) := by
        rw [ptr_up rfl, hdind, entry, if_neg hz]
        rfl
      have hstep : ∀ l : Loc, l ∈ {l : Loc | l = .dind ∨ ∃ k : Fin 128, i + 1 ≤ k ∧ (l = .leaf k ∨ ∃ j, l = .leafEnt k j)} ↔
          l ∈ {l : Loc | l = .dind ∨ ∃ k : Fin 128, i ≤ k ∧ (l = .leaf k ∨ ∃ j, l = .leafEnt k j)} \
            {l | l = .leaf ⟨i, hi⟩ ∨ ∃ j, l = .leafEnt ⟨i, hi⟩ j} := by
        intro l
        constructor
        · rintro (rfl | ⟨k, hk, rfl | ⟨j, rfl⟩⟩)
          · exact ⟨.inl rfl, by rintro (he | ⟨j, he⟩) <;> cases he⟩
          · refine ⟨.inr ⟨k, by omega, .inl rfl⟩, ?_⟩
            rintro (he | ⟨j, he⟩) <;> cases he
            simp only at hk
            omega
          · refine ⟨.inr ⟨k, by omega, .inr ⟨j, rfl⟩⟩, ?_⟩
            rintro (he | ⟨j, he⟩) <;> cases he
            simp only at hk
            omega
        · rintro ⟨rfl | ⟨k, hk, hl⟩, hne⟩
          · exact .inl rfl
          · have hki : k.val ≠ i := fun e => hne (by subst e; exact hl)
            exact .inr ⟨k, by omega, hl⟩
      rw [hent]
      split
      · next h0 =>
        have hz0 : ptr s₀.cache d (.leaf ⟨i, hi⟩) = 0 := by rw [← hent, h0]; rfl
        refine ht.congr fun l hl => (hstep l).trans ⟨And.left, fun h' => ⟨h', ?_⟩⟩
        rintro (rfl | ⟨j, rfl⟩)
        · exact hl hz0
        · exact hl (by rw [ptr_up rfl, hz0, entry_zero])
      · next h0 =>
        have hne : ptr s₀.cache d (.leaf ⟨i, hi⟩) ≠ 0 := fun e => h0 (BitVec.eq_of_toNat_eq (by rw [hent, e]; rfl))
        exact (truncLeaf_spec hL hinj hhand hrange ht (.inl rfl) (.inr ⟨_, Nat.le_refl _, .inl rfl⟩)
          (fun j => .inr ⟨_, Nat.le_refl _, .inr ⟨j, rfl⟩⟩) hne _).post fun _ _ h' => h'.congr fun l _ => hstep l
    · refine wp.bind (ht.bfree_spec hL hinj hhand (l := .dind) (.inl rfl) hz) fun _ t' ht' =>
        ⟨cleared_succ (by decide), ht'.congr fun l _ => ?_⟩
      simp only [Set.mem_empty_iff_false, false_iff]
      rintro ⟨rfl | ⟨k, hk, -⟩, hne⟩
      · exact hne rfl
      · simp only [NINDIRECT] at hk
        omega

end

/-! ### `itrunc` -/

def Dinode.wiped (d : Dinode) : Dinode := { d.cleared 13 with size := 0 }

theorem addr_wiped {d : Dinode} {j : Nat} (hj : j < 13) : d.wiped.addr j = 0 := by
  have := addr_cleared (d := d) (n := 13) hj
  rw [if_pos hj] at this
  exact this

/-- What `itrunc` of inode `i` did. -/
structure Truncated (sb : Superblock) (T : Table) (i : Nat) (hand : Set Nat) (s : Dev) (d : Dinode) (s' : Dev) :
    Prop where
  owned : Owned sb s'.cache (T.set i d.wiped) hand
  refs_other : ∀ j l, j ≠ i → refs s'.cache (T.set i d.wiped) (j, l) = refs s.cache (T.set i d) (j, l)
  bytes_other : ∀ j e, j ≠ i → T j = some e → ∀ k, byteAt s'.cache e k = byteAt s.cache e k
  dinode : dinodeOf sb s'.cache i = d.wiped
  dinodes : ∀ j, j ≠ i → j < sb.ninodes → dinodeOf sb s'.cache j = dinodeOf sb s.cache j
  logged : ∀ x ∈ s'.log.lh, x ∈ s.log.lh ∨ sb.inodestart ≤ x ∧ x < sb.size
  unlogged : ∀ b, b ∉ s'.log.lh → b = 0 ∨ b ≠ d.addr 12 → s'.cache b = s.cache b
  lh : ∀ y, y ∈ s'.log.lh ↔ y ∈ s.log.lh ∨ y = iblock sb i ∨ ∃ l, ptr s.cache d l ≠ 0 ∧ y = bblock sb (ptr s.cache d l)
  room : ∀ A, LogRoom sb A s → (∀ b, b < sb.size → bblock sb b ∈ A) → iblock sb i ∈ A → LogRoom sb A s'

section

variable {sb : Superblock} {T : Table} {i : Nat} {hand : Set Nat} {s : Dev} {d : Dinode}

theorem Freeing.start (hL : Layout sb) (hO : Owned sb s.cache (T.set i d) hand) :
    Freeing sb (update T i none) hand (ptr s.cache d) 0 s Set.univ s := by
  refine ⟨?_, fun _ _ => rfl, fun _ => .inl, fun _ _ _ => rfl, fun y => by simp, fun _ hA _ => hA⟩
  have h : Ledger sb.nmeta sb.size (refs s.cache (update T i none)) (fun b => blockUsed sb s.cache b = true) _ :=
    Ledger.unlink hO hL.nmeta_pos {r | r.1 = i} (fun r hr => ?_) fun r hr => ?_
  · refine Ledger.congr_hand h ?_
    ext b
    refine or_congr Iff.rfl ⟨fun ⟨hb, l, _, hl⟩ => ⟨hb, (i, l), rfl, by rw [refs_set, hl]⟩, ?_⟩
    rintro ⟨hb, ⟨j, l⟩, hj, hl⟩
    obtain rfl : j = i := hj
    exact ⟨hb, l, trivial, by rw [← hl, refs_set]⟩
  · obtain ⟨j, l⟩ := r
    obtain rfl : j = i := hr
    exact refs_none (update_self ..) l
  · simp only [refs, Table.set, update_of_ne hr]

theorem refs_set_empty {c : Image} (hz : ∀ k, k < 13 → d.addr k = 0) :
    refs c (T.set i d) = refs c (update T i none) := by
  funext ⟨j, l⟩
  by_cases hj : j = i
  · subst hj
    rw [refs_set, refs_none (update_self ..)]
    exact ptr_of_addr_zero hz l
  · simp only [refs, Table.set, update_of_ne hj]

theorem Freeing.truncated (hL : Layout sb) (hi : i < sb.ninodes) (hO : Owned sb s.cache (T.set i d) hand) {t : Dev}
    (h : Freeing sb (update T i none) hand (ptr s.cache d) (d.addr 12) s ∅ t) :
    Truncated sb T i hand s d (t.iupdate sb i d.wiped) := by
  have hib := hL.iblock_lt hi
  have hbm := hL.bmap_lt
  have hO' : Owned sb t.cache (T.set i d.wiped) hand := by
    have := h.owned
    rw [Owned, ← refs_set_empty fun _ hk => addr_wiped (d := d) hk] at this
    refine Ledger.congr_hand this ?_
    ext b
    refine ⟨.inl, fun hb => hb.elim id ?_⟩
    rintro ⟨-, l, hl, -⟩
    exact hl.elim
  -- a block of another inode is not the double-indirect block
  have hdata : ∀ j l, j ≠ i → refs s.cache (T.set i d) (j, l) ≠ 0 →
      t.cache (refs s.cache (T.set i d) (j, l)) = s.cache (refs s.cache (T.set i d) (j, l)) := by
    intro j l hj hz
    refine h.cache _ (.inr ⟨(hO.range _ hz).1, fun he => hj ?_⟩)
    exact (Prod.ext_iff.1 (hO.inj (j, l) (i, .dind) (by rw [refs_set]; exact he) hz)).1
  have href : ∀ j l, j ≠ i → refs t.cache (T.set i d.wiped) (j, l) = refs s.cache (T.set i d) (j, l) := by
    intro j l hj
    cases he : T j with
    | none =>
      rw [refs_none (by rw [Table.set, update_of_ne hj, he]),
        refs_none (by rw [Table.set, update_of_ne hj, he])]
    | some e =>
      have hset : ∀ d, T.set i d j = some e := fun d => by rw [Table.set, update_of_ne hj, he]
      rw [refs_some (hset _), refs_some (hset _)]
      refine ptr_congr (fun _ _ => rfl) (fun l' q _ hz => ?_) l
      have := hdata j q hj (by rwa [refs_some (hset _)])
      rwa [refs_some (hset _)] at this
  refine ⟨hO'.store_low hL hib _, fun j l hj => ?_, fun j e hj he k => ?_, by rw [dinodeOf_iupdate, if_pos rfl],
    fun j hj hjn => ?_, fun x hx => ?_, fun b hb hx => ?_, fun y => ?_, fun A hA hbm hib' => (h.room A hA hbm).store hib' _⟩
  · rw [Dev.iupdate, refs_store_low hO' (by omega), href j l hj]
  · have hset : ∀ d, T.set i d j = some e := fun d => by rw [Table.set, update_of_ne hj, he]
    rw [Dev.iupdate, byteAt_store_low hO' (by omega) _ (hset _)]
    have hr := href j (locOf (k / 512)) hj
    rw [refs_some (hset _), refs_some (hset _)] at hr
    refine byteAt_congr hr fun hz => ?_
    have := hdata j (locOf (k / 512)) hj (by rwa [refs_some (hset _)])
    rwa [refs_some (hset _)] at this
  · rw [dinodeOf_iupdate, if_neg hj, dinodeOf_congr (h.cache _ (.inl (hL.iblock_lt hjn)))]
  · rcases mem_absorb.1 hx with hx | rfl
    · exact h.logged x hx
    · exact .inr ⟨inodestart_le_iblock sb i, hL.iblock_lt_size hi⟩
  · have hb' := mt mem_absorb.2 hb
    push Not at hb'
    rw [Dev.iupdate, Dev.store_cache, update_of_ne hb'.2]
    by_cases hb0 : b = 0
    · exact h.cache b (.inl (by omega))
    · exact h.unlogged b hb'.1 (hx.resolve_left hb0)
  · rw [Dev.iupdate, Dev.store_lh, mem_absorb, h.lh, or_assoc, or_comm (b := y = iblock sb i)]
    simp

theorem itrunc_spec (hL : Layout sb) (hi : i < sb.ninodes) (hO : Owned sb s.cache (T.set i d) hand) :
    wp (itrunc sb i d) (fun d' s' => d' = d.wiped ∧ Truncated sb T i hand s d s') (FreeFault sb s) s := by
  have hinj : ∀ l l', ptr s.cache d l = ptr s.cache d l' → ptr s.cache d l ≠ 0 → l = l' := fun l l' he hz => by
    rw [← refs_set _ T i, ← refs_set _ T i] at he
    exact (Prod.ext_iff.1 (hO.inj _ _ he (by rwa [refs_set]))).2
  have hhand : ∀ l, ptr s.cache d l ∉ hand := fun l hm =>
    hO.hand_ne _ hm (i, l) (refs_set ..)
  have hrange : ∀ l, ptr s.cache d l ≠ 0 → sb.nmeta ≤ ptr s.cache d l ∧ ptr s.cache d l < sb.size := fun l hz => by
    have := hO.range (i, l) (by rwa [refs_set])
    rwa [refs_set] at this
  rw [itrunc]
  refine wp.bind (truncDirect_spec hL hinj hhand (.start hL hO)) ?_
  rintro _ s₁ ⟨rfl, h₁⟩
  refine wp.bind (truncIndirect_spec hL hinj hhand hrange h₁) ?_
  rintro _ s₂ ⟨rfl, h₂⟩
  refine wp.bind (truncDouble_spec hL hinj hhand hrange h₂) ?_
  rintro _ s₃ ⟨rfl, h₃⟩
  refine wp.bind (iupdate_spec _ (hL.lt_fssize (hL.iblock_lt_size hi)) fun ⟨A, hA, hbm⟩ => ⟨A, h₃.room A hA hbm⟩) ?_
  rintro _ s₄ rfl
  exact ⟨rfl, h₃.truncated hL hi hO⟩

theorem Truncated.blockUsed (hL : Layout sb) (hO : Owned sb s.cache (T.set i d) hand) {s' : Dev}
    (h : Truncated sb T i hand s d s') {b : Nat} (hb : b < sb.size) :
    blockUsed sb s'.cache b = true ↔ blockUsed sb s.cache b = true ∧ ∀ l, ptr s.cache d l = b → b = 0 := by
  have hpos := hL.nmeta_pos
  have hz : ∀ l, refs s'.cache (T.set i d.wiped) (i, l) = 0 := fun l => by
    rw [refs_set]; exact ptr_of_addr_zero (fun k hk => addr_wiped hk) l
  rw [h.owned.used_iff b hb, hO.used_iff b hb]
  constructor
  · rintro (hlo | hm | ⟨⟨j, l⟩, hr⟩)
    · refine ⟨.inl hlo, fun l hl => ?_⟩
      by_contra hbz
      have := (hO.range (i, l) (by rw [refs_set, hl]; exact hbz)).1
      rw [refs_set, hl] at this
      omega
    · exact ⟨.inr (.inl hm), fun l hl => absurd (by rw [refs_set]; exact hl) (hO.hand_ne b hm (i, l))⟩
    · by_cases hj : j = i
      · subst hj
        rw [hz] at hr
        exact ⟨.inl (by omega), fun _ _ => hr.symm⟩
      · rw [h.refs_other j l hj] at hr
        refine ⟨.inr (.inr ⟨(j, l), hr⟩), fun l' hl' => ?_⟩
        by_contra hbz
        have := hO.inj (j, l) (i, l') (by rw [hr, refs_set, hl']) (by rw [hr]; exact hbz)
        exact hj (Prod.ext_iff.1 this).1
  · rintro ⟨hlo | hm | ⟨⟨j, l⟩, hr⟩, hno⟩
    · exact .inl hlo
    · exact .inr (.inl hm)
    · by_cases hj : j = i
      · subst hj
        rw [refs_set] at hr
        exact .inl (by rw [hno l hr]; exact hpos)
      · exact .inr (.inr ⟨(j, l), by rw [h.refs_other j l hj, hr]⟩)

end

end Xv6
