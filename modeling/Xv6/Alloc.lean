import Xv6.BlockMap
import Mathlib.Data.List.Dedup

/-!
# Logged stores and block allocation

Every change of the file system is a store into a buffer followed by `log_write` (`Dev.store`). It
faults only when the log runs out of room, which `LogRoom` excludes. `balloc` and `bfree` are two stores
and one store, and move one block into or out of the hand of the ledger. The specifications carry a
proposition `P` that implies enough resources: with `P` true they are total.
-/

namespace Xv6

open Prog Function

variable {sb : Superblock} {s : Dev} {P : Prop}

/-! ### Logged stores -/

/-- Store `v` into the buffer of block `b` and log it. -/
def Dev.store (s : Dev) (b : Nat) (v : Blk) : Dev :=
  { s with cache := update s.cache b v, log := { s.log with lh := absorb s.log.lh b } }

@[simp] theorem Dev.store_cache (s : Dev) (b : Nat) (v : Blk) :
    (s.store b v).cache = update s.cache b v := rfl

@[simp] theorem Dev.store_lh (s : Dev) (b : Nat) (v : Blk) : (s.store b v).log.lh = absorb s.log.lh b := rfl

/-- The faults of `log_write`. -/
def LogFault (e : Fault) : Prop :=
  e = .panic "too big a transaction" ∨ e = .panic "log_write outside of trans"

/-- Inside a transaction, everything logged lies in `A`, and `A` fits into the log. -/
structure LogRoom (sb : Superblock) (A : Finset Nat) (s : Dev) : Prop where
  tx : 1 ≤ s.log.outstanding
  nodup : s.log.lh.Nodup
  sub : ∀ x ∈ s.log.lh, x ∈ A
  card : A.card < LOGSIZE
  card' : A.card + 1 < sb.nlog

theorem LogRoom.length_le {A : Finset Nat} (h : LogRoom sb A s) : s.log.lh.length ≤ A.card := by
  rw [← List.toFinset_card_of_nodup h.nodup]
  exact Finset.card_le_card fun x hx => h.sub x (List.mem_toFinset.1 hx)

theorem LogRoom.store {A : Finset Nat} (h : LogRoom sb A s) {b : Nat} (hb : b ∈ A) (v : Blk) :
    LogRoom sb A (s.store b v) := by
  refine ⟨h.tx, nodup_absorb h.nodup b, fun x hx => ?_, h.card, h.card'⟩
  rcases mem_absorb.1 hx with hx | rfl
  · exact h.sub x hx
  · exact hb

theorem LogRoom.mono {A B : Finset Nat} (h : LogRoom sb A s) (hAB : A ⊆ B) (hB : B.card < LOGSIZE)
    (hB' : B.card + 1 < sb.nlog) : LogRoom sb B s :=
  ⟨h.tx, h.nodup, fun x hx => hAB (h.sub x hx), hB, hB'⟩

theorem logMod_spec (b : Nat) (f : Blk → Blk) (hP : P → ∃ A, LogRoom sb A s) :
    wp (logMod sb b f) (fun _ s' => s' = s.store b (f (s.cache b))) (fun e => LogFault e ∧ ¬ P) s := by
  simp only [logMod, bmod, logWrite, wp_bind, wp_modify, wp_get, wp_failIf]
  refine ⟨fun hfull => ⟨.inl rfl, fun hp => ?_⟩, fun _ => ⟨fun hout => ⟨.inr rfl, fun hp => ?_⟩, fun _ => rfl⟩⟩
  · obtain ⟨A, hA⟩ := hP hp
    have := hA.length_le
    have := hA.card
    have := hA.card'
    omega
  · obtain ⟨A, hA⟩ := hP hp
    have := hA.tx
    omega

theorem logWrite_spec (b : Nat) (hP : P → ∃ A, LogRoom sb A s) :
    wp (logWrite sb b) (fun _ s' => s' = s.store b (s.cache b)) (fun e => LogFault e ∧ ¬ P) s := by
  have h := logMod_spec b id hP
  simp only [logMod, bmod, id, wp_bind, wp_modify, update_eq_self] at h
  exact h

theorem bzero_spec {b : Nat} (hb : b < FSSIZE) (hP : P → ∃ A, LogRoom sb A s) :
    wp (bzero sb b) (fun _ s' => s' = s.store b (Block.zero _)) (fun e => LogFault e ∧ ¬ P) s := by
  simp only [bzero, wp_bind, wp_bread]
  exact ⟨fun h => absurd h (by omega), fun _ => logMod_spec b _ hP⟩

def Dev.iupdate (sb : Superblock) (s : Dev) (i : Nat) (d : Dinode) : Dev :=
  s.store (iblock sb i) (putDinode sb s.cache i d (iblock sb i))

theorem dinodeOf_iupdate (s : Dev) (i : Nat) (d : Dinode) (j : Nat) :
    dinodeOf sb (s.iupdate sb i d).cache j = if j = i then d else dinodeOf sb s.cache j := by
  rw [← dinodeOf_putDinode]
  simp only [Dev.iupdate, Dev.store_cache, putDinode, update_self]

theorem iupdate_cache (s : Dev) (i : Nat) (d : Dinode) : (s.iupdate sb i d).cache = putDinode sb s.cache i d := by
  simp only [Dev.iupdate, Dev.store_cache, putDinode, update_self]

theorem iupdate_back (s : Dev) (i : Nat) (d : Dinode) :
    ((s.iupdate sb i d).iupdate sb i (dinodeOf sb s.cache i)).cache = s.cache := by
  rw [iupdate_cache, iupdate_cache, putDinode_idem, putDinode_self]

theorem iupdate_spec {i : Nat} (d : Dinode) (hi : iblock sb i < FSSIZE) (hP : P → ∃ A, LogRoom sb A s) :
    wp (iupdate sb i d) (fun _ s' => s' = s.iupdate sb i d) (fun e => LogFault e ∧ ¬ P) s := by
  simp only [iupdate, wp_bind, wp_bread]
  refine ⟨fun h => absurd h (by omega), fun _ => (logMod_spec _ _ hP).post fun _ s' hs' => ?_⟩
  rw [hs', Dev.iupdate, putDinode, update_self]

/-! ### `balloc` and `bfree` -/

/-- The faults of `balloc`. -/
def AllocFault (e : Fault) : Prop := e = .panic "balloc: out of blocks" ∨ LogFault e

def Dev.balloc (sb : Superblock) (s : Dev) (a : Nat) : Dev :=
  (s.store (bblock sb a) ((s.cache (bblock sb a)).setBit (a % BPB))).store a (Block.zero _)

def Dev.bfree (sb : Superblock) (s : Dev) (b : Nat) : Dev :=
  s.store (bblock sb b) ((s.cache (bblock sb b)).clearBit (b % BPB))

theorem bfree_spec (hL : Layout sb) {b : Nat} (hb : b < sb.size) (hu : blockUsed sb s.cache b = true)
    (hP : P → ∃ A, LogRoom sb A s) :
    wp (bfree sb b) (fun _ s' => s' = s.bfree sb b) (fun e => LogFault e ∧ ¬ P) s := by
  have := hL.lt_fssize (hL.bblock_lt_size hb)
  simp only [bfree, wp_bind, wp_bread, wp_failIf]
  refine ⟨fun h => absurd h (by omega), fun _ => ⟨fun h => ?_, fun _ => logMod_spec _ _ hP⟩⟩
  rw [blockUsed, h] at hu
  cases hu

theorem ballocIn_spec (hL : Layout sb) {k : Nat} (hk : k * 4096 < sb.size)
    (hP : P → ∃ A, LogRoom sb A s ∧ ∀ b, b < sb.size → blockUsed sb s.cache b = false →
      (∀ b', k * 4096 ≤ b' → b' < b → blockUsed sb s.cache b' = true) → bblock sb b ∈ A) :
    wp (ballocIn sb k) (fun r s' => match r with
        | none => s' = s ∧ ∀ b, k * 4096 ≤ b → b < (k + 1) * 4096 → b < sb.size → blockUsed sb s.cache b = true
        | some a => a < sb.size ∧ blockUsed sb s.cache a = false ∧
          (∀ b, k * 4096 ≤ b → b < a → blockUsed sb s.cache b = true) ∧ s' = s.balloc sb a)
      (fun e => AllocFault e ∧ ¬ P) s := by
  have hblk : bblock sb (k * BPB) < FSSIZE := hL.lt_fssize (hL.bblock_lt_size hk)
  rw [ballocIn]
  refine wp_bind.2 (wp_bread.2 ⟨fun h => absurd h (by omega), fun _ => ?_⟩)
  cases hf : (List.range (min BPB (sb.size - k * BPB))).find? fun bi => !(s.cache (bblock sb (k * BPB))).bit bi with
  | none =>
    refine ⟨rfl, fun b hlo hhi hbs => ?_⟩
    rw [List.find?_range_eq_none] at hf
    have := hf (b - k * 4096) (by simp only [BPB]; omega)
    rw [show b = k * BPB + (b - k * 4096) by simp only [BPB]; omega, blockUsed_mul_add (by omega)]
    simpa using this
  | some bi =>
    obtain ⟨hbit, hmem, hfirst⟩ := List.find?_range_eq_some.1 hf
    have hbi : bi < 4096 ∧ k * 4096 + bi < sb.size := by
      simp only [List.mem_range, BPB] at hmem
      omega
    have hmod : (k * BPB + bi) % BPB = bi := by simp only [BPB]; omega
    have e1 : s.balloc sb (k * BPB + bi) = (s.store (bblock sb (k * BPB))
        ((s.cache (bblock sb (k * BPB))).setBit bi)).store (k * BPB + bi) (Block.zero _) := by
      rw [Dev.balloc, bblock_eq_of_lt hbi.1, hmod]
    have hfree : blockUsed sb s.cache (k * BPB + bi) = false := by
      rw [blockUsed_mul_add hbi.1]
      simpa using hbit
    have hbelow : ∀ b, k * 4096 ≤ b → b < k * BPB + bi → blockUsed sb s.cache b = true := fun b hlo hhi => by
      simp only [BPB] at hhi
      have := hfirst (b - k * 4096) (by omega)
      rw [show b = k * BPB + (b - k * 4096) by simp only [BPB]; omega, blockUsed_mul_add (by omega)]
      simpa using this
    refine wp.bind ((logMod_spec _ _ fun hp => (hP hp).imp fun _ => And.left).mono (fun _ _ => id)
      fun e he => ⟨.inr he.1, he.2⟩) fun _ s₁ hs₁ => ?_
    refine wp.bind ((bzero_spec (hL.lt_fssize hbi.2) fun hp => ?_).mono (fun _ _ => id)
      fun e he => ⟨.inr he.1, he.2⟩) fun _ s₂ hs₂ => ?_
    · obtain ⟨A, hA, hbm⟩ := hP hp
      have hmem := hbm _ hbi.2 hfree hbelow
      rw [bblock_eq_of_lt hbi.1] at hmem
      exact ⟨A, hs₁ ▸ hA.store hmem _⟩
    · exact ⟨hbi.2, hfree, hbelow, by rw [e1, hs₂, hs₁]⟩

theorem balloc_spec (hL : Layout sb) (hP : P → (∃ b, b < sb.size ∧ blockUsed sb s.cache b = false) ∧
      ∃ A, LogRoom sb A s ∧ ∀ b, b < sb.size → blockUsed sb s.cache b = false →
        (∀ b', b' < b → blockUsed sb s.cache b' = true) → bblock sb b ∈ A) :
    wp (balloc sb) (fun a s' => a < sb.size ∧ blockUsed sb s.cache a = false ∧
        (∀ b, b < a → blockUsed sb s.cache b = true) ∧ s' = s.balloc sb a)
      (fun e => AllocFault e ∧ ¬ P) s := by
  rw [balloc]
  -- the search keeps the state and has seen only set bits
  refine wp.bind (wp_findRange
    (fun k s' => s' = s ∧ ∀ b, b < k * 4096 → b < sb.size → blockUsed sb s.cache b = true)
    (fun a s' => a < sb.size ∧ blockUsed sb s.cache a = false ∧
      (∀ b, b < a → blockUsed sb s.cache b = true) ∧ s' = s.balloc sb a)
    ⟨rfl, fun b hb => absurd hb (by omega)⟩ ?_) fun r s' hr => ?_
  · rintro k t - hk ⟨ht, hseen⟩
    rw [ht]
    have hP' : P → ∃ A, LogRoom sb A s ∧ ∀ b, b < sb.size → blockUsed sb s.cache b = false →
        (∀ b', k * 4096 ≤ b' → b' < b → blockUsed sb s.cache b' = true) → bblock sb b ∈ A := fun hp => by
      obtain ⟨A, hA, hbm⟩ := (hP hp).2
      refine ⟨A, hA, fun b hb hf hbelow => hbm b hb hf fun b' hb' => ?_⟩
      by_cases hlt : b' < k * 4096
      · exact hseen b' hlt (by omega)
      · exact hbelow b' (by omega) hb'
    refine (ballocIn_spec hL (by simp only [BPB] at hk; omega) hP').post fun r s' hr => ?_
    cases r with
    | none =>
      refine ⟨hr.1, fun b hb hbs => ?_⟩
      by_cases hlt : b < k * 4096
      · exact hseen b hlt hbs
      · exact hr.2 b (by omega) hb hbs
    | some a =>
      obtain ⟨ha, hf, hbelow, hs'⟩ := hr
      refine ⟨ha, hf, fun b hb => ?_, hs'⟩
      by_cases hlt : b < k * 4096
      · exact hseen b hlt (by omega)
      · exact hbelow b (by omega) hb
  · cases r with
    | some a => exact hr
    | none =>
      refine ⟨.inl rfl, fun hp => ?_⟩
      obtain ⟨b, hb, hu⟩ := (hP hp).1
      have hlt : b < (0 + (sb.size + BPB - 1) / BPB) * 4096 := by simp only [BPB]; omega
      rw [hr.2 b hlt hb] at hu
      cases hu

/-! ### Their effect on the ledger -/

section Ledger

variable {T : Table} {hand : Set Nat} {a b : Nat}

theorem Owned.nmeta_le (h : Owned sb s.cache T hand) (ha : a < sb.size) (hf : blockUsed sb s.cache a = false) :
    sb.nmeta ≤ a := by
  by_contra hlt
  have := (h.used_iff a ha).2 (.inl (by omega))
  rw [hf] at this
  cases this

theorem Owned.not_mem_hand (h : Owned sb s.cache T hand) (hf : blockUsed sb s.cache a = false) : a ∉ hand := by
  intro hm
  have := h.used_of_hand hm
  rw [hf] at this
  cases this

theorem Owned.ref_ne (h : Owned sb s.cache T hand) (ha : a ≠ 0) (hf : blockUsed sb s.cache a = false) (r : Ref) :
    refs s.cache T r ≠ a := by
  rintro rfl
  have := h.used_of_ref ha
  rw [hf] at this
  cases this

@[simp] theorem balloc_cache_self : (s.balloc sb a).cache a = Block.zero _ := update_self ..

theorem balloc_cache (hL : Layout sb) (ha : a < sb.size) (hb : b ≠ a) (hm : b < sb.bmapstart ∨ sb.nmeta ≤ b) :
    (s.balloc sb a).cache b = s.cache b := by
  have h1 := bmapstart_le_bblock sb a
  have h2 := hL.bblock_lt ha
  simp only [Dev.balloc, Dev.store_cache]
  rw [update_of_ne hb, update_of_ne (by omega)]

theorem bfree_cache (hL : Layout sb) (ha : a < sb.size) (hm : b < sb.bmapstart ∨ sb.nmeta ≤ b) :
    (s.bfree sb a).cache b = s.cache b := by
  have h1 := bmapstart_le_bblock sb a
  have h2 := hL.bblock_lt ha
  simp only [Dev.bfree, Dev.store_cache]
  rw [update_of_ne (by omega)]

theorem blockUsed_balloc (hL : Layout sb) (ha : sb.nmeta ≤ a) (hb : b < sb.size) :
    blockUsed sb (s.balloc sb a).cache b = (blockUsed sb s.cache b || decide (b = a)) := by
  have := hL.bblock_lt hb
  rw [← blockUsed_setBit]
  exact blockUsed_congr (update_of_ne (by omega) ..)

theorem blockUsed_bfree : blockUsed sb (s.bfree sb a).cache b = (blockUsed sb s.cache b && !decide (b = a)) :=
  blockUsed_clearBit _ _ _

theorem blockUsed_store (hL : Layout sb) (ha : a < sb.bmapstart ∨ sb.nmeta ≤ a) (v : Blk) (hb : b < sb.size) :
    blockUsed sb (s.store a v).cache b = blockUsed sb s.cache b := by
  have h1 := bmapstart_le_bblock sb b
  have h2 := hL.bblock_lt hb
  exact blockUsed_congr (update_of_ne (by omega) ..)

theorem Owned.bfree (hL : Layout sb) (h : Owned sb s.cache T hand) (ha : a ∈ hand) :
    Owned sb (s.bfree sb a).cache T (hand \ {a}) := by
  have hrefs : refs (s.bfree sb a).cache T = refs s.cache T := refs_congr fun i l p _ hz =>
    bfree_cache hL (h.hand_range a ha).2 (.inr (h.range _ hz).1)
  rw [Owned, hrefs]
  exact h.free ha fun b _ => by simp [blockUsed_bfree]

end Ledger

end Xv6
