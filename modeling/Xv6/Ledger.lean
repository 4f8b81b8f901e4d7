import Mathlib.Data.Finset.Card
import Mathlib.Data.Set.Insert

/-!
# Ledgers of an allocator

Blocks are handed out by a free map and named by references, each reference holding one block
number or zero. A `Ledger` says that the accounts balance: the blocks in use are the reserved ones
below `lo`, those named by a reference, and those in hand (allocated, not yet named or no longer
named), and no block is accounted for twice. The lemmas are the entries an allocator makes:
allocate, link, unlink a set of references, free.
-/

variable {ρ : Type} {lo hi : Nat}

/-- Every block in `[0, hi)` in use is reserved, named by exactly one reference, or in hand. -/
structure Ledger (lo hi : Nat) (t : ρ → Nat) (used : Nat → Prop) (hand : Set Nat) : Prop where
  inj : ∀ r r', t r = t r' → t r ≠ 0 → r = r'
  range : ∀ r, t r ≠ 0 → lo ≤ t r ∧ t r < hi
  hand_range : ∀ b ∈ hand, lo ≤ b ∧ b < hi
  hand_ne : ∀ b ∈ hand, ∀ r, t r ≠ b
  used_iff : ∀ b, b < hi → (used b ↔ b < lo ∨ b ∈ hand ∨ ∃ r, t r = b)

namespace Ledger

open Function

variable {t : ρ → Nat} {used used' : Nat → Prop} {hand : Set Nat} {a : Nat}

theorem used_of_ref (h : Ledger lo hi t used hand) {r : ρ} (hr : t r ≠ 0) : used (t r) :=
  (h.used_iff _ (h.range r hr).2).2 (.inr (.inr ⟨r, rfl⟩))

theorem used_of_hand (h : Ledger lo hi t used hand) (ha : a ∈ hand) : used a :=
  (h.used_iff a (h.hand_range a ha).2).2 (.inr (.inl ha))

theorem congr_used (h : Ledger lo hi t used hand) (hu : ∀ b, b < hi → (used' b ↔ used b)) :
    Ledger lo hi t used' hand :=
  ⟨h.inj, h.range, h.hand_range, h.hand_ne, fun b hb => (hu b hb).trans (h.used_iff b hb)⟩

theorem congr_hand (h : Ledger lo hi t used hand) {hand' : Set Nat} (hh : hand' = hand) :
    Ledger lo hi t used hand' := hh ▸ h

theorem alloc (h : Ledger lo hi t used hand) (ha : a < hi) (hf : ¬ used a)
    (hu : ∀ b, b < hi → (used' b ↔ used b ∨ b = a)) : Ledger lo hi t used' (insert a hand) := by
  have hlo : lo ≤ a := by
    by_contra hlt
    exact hf ((h.used_iff a ha).2 (.inl (by omega)))
  refine ⟨h.inj, h.range, ?_, ?_, fun b hb => ?_⟩
  · rintro b (rfl | hb)
    · exact ⟨hlo, ha⟩
    · exact h.hand_range b hb
  · rintro b (rfl | hb) r hr
    · exact hf ((h.used_iff _ ha).2 (.inr (.inr ⟨r, hr⟩)))
    · exact h.hand_ne b hb r hr
  · rw [hu b hb, h.used_iff b hb, Set.mem_insert_iff]
    tauto

theorem link [DecidableEq ρ] (h : Ledger lo hi t used (insert a hand)) (ha : a ∉ hand) {r : ρ}
    (hr : t r = 0) (hlo : 0 < lo) : Ledger lo hi (update t r a) used hand := by
  have har := h.hand_range a (Set.mem_insert a _)
  have hne : ∀ r', t r' ≠ a := h.hand_ne a (Set.mem_insert a _)
  refine ⟨fun r₁ r₂ he hz => ?_, fun r' hz => ?_, fun b hb => h.hand_range b (Set.mem_insert_of_mem _ hb),
    fun b hb r' he => ?_, fun b hb => ?_⟩
  · by_cases h1 : r₁ = r
    · by_cases h2 : r₂ = r
      · rw [h1, h2]
      · rw [h1, update_self, update_of_ne h2] at he
        exact absurd he.symm (hne r₂)
    · rw [update_of_ne h1] at he hz
      by_cases h2 : r₂ = r
      · rw [h2, update_self] at he
        exact absurd he (hne r₁)
      · rw [update_of_ne h2] at he
        exact h.inj _ _ he hz
  · by_cases h1 : r' = r
    · rw [h1, update_self]; exact har
    · rw [update_of_ne h1] at hz ⊢
      exact h.range r' hz
  · by_cases h1 : r' = r
    · rw [h1, update_self] at he
      exact ha (he ▸ hb)
    · rw [update_of_ne h1] at he
      exact h.hand_ne b (Set.mem_insert_of_mem _ hb) r' he
  · rw [h.used_iff b hb, Set.mem_insert_iff]
    constructor
    · rintro (hb' | (rfl | hb') | ⟨r', rfl⟩)
      · exact .inl hb'
      · exact .inr (.inr ⟨r, update_self ..⟩)
      · exact .inr (.inl hb')
      · by_cases h1 : r' = r
        · exact .inl (by rw [h1, hr]; exact hlo)
        · exact .inr (.inr ⟨r', update_of_ne h1 ..⟩)
    · rintro (hb' | hb' | ⟨r', rfl⟩)
      · exact .inl hb'
      · exact .inr (.inl (.inr hb'))
      · by_cases h1 : r' = r
        · rw [h1, update_self]; exact .inr (.inl (.inl rfl))
        · rw [update_of_ne h1]; exact .inr (.inr ⟨r', rfl⟩)

theorem free (h : Ledger lo hi t used hand) (ha : a ∈ hand)
    (hu : ∀ b, b < hi → (used' b ↔ used b ∧ b ≠ a)) : Ledger lo hi t used' (hand \ {a}) := by
  have hlo := (h.hand_range a ha).1
  refine ⟨h.inj, h.range, fun b hb => h.hand_range b hb.1, fun b hb => h.hand_ne b hb.1, fun b hb => ?_⟩
  rw [hu b hb, h.used_iff b hb]
  constructor
  · rintro ⟨hb' | hb' | hb', hne⟩
    · exact .inl hb'
    · exact .inr (.inl ⟨hb', hne⟩)
    · exact .inr (.inr hb')
  · rintro (hb' | hb' | ⟨r, rfl⟩)
    · exact ⟨.inl hb', by omega⟩
    · exact ⟨.inr (.inl hb'.1), hb'.2⟩
    · exact ⟨.inr (.inr ⟨r, rfl⟩), h.hand_ne a ha r⟩

theorem unlink (h : Ledger lo hi t used hand) (hlo : 0 < lo) {t' : ρ → Nat} (D : Set ρ)
    (hD : ∀ r ∈ D, t' r = 0) (hn : ∀ r, r ∉ D → t' r = t r) :
    Ledger lo hi t' used (hand ∪ {b | b ≠ 0 ∧ ∃ r ∈ D, t r = b}) := by
  have ht : ∀ r, t' r ≠ 0 → r ∉ D ∧ t' r = t r := fun r hr =>
    have hnd : r ∉ D := fun hd => hr (hD r hd)
    ⟨hnd, hn r hnd⟩
  refine ⟨fun r r' he hz => ?_, fun r hz => ?_, ?_, ?_, fun b hb => ?_⟩
  · obtain ⟨-, h1⟩ := ht r hz
    obtain ⟨-, h2⟩ := ht r' (he ▸ hz)
    exact h.inj r r' (by rw [← h1, ← h2, he]) (h1 ▸ hz)
  · obtain ⟨-, h1⟩ := ht r hz
    rw [h1] at hz ⊢
    exact h.range r hz
  · rintro b (hb | ⟨hb, r, -, rfl⟩)
    · exact h.hand_range b hb
    · exact h.range r hb
  · rintro b (hb | ⟨hb, r, hr, rfl⟩) r' he
    · have hz : t' r' ≠ 0 := by have := h.hand_range b hb; omega
      exact h.hand_ne b hb r' ((ht r' hz).2 ▸ he)
    · obtain ⟨hnd, h1⟩ := ht r' (he ▸ hb)
      exact hnd ((h.inj r' r (h1 ▸ he) (by rw [← h1, he]; exact hb)) ▸ hr)
  · rw [h.used_iff b hb]
    constructor
    · rintro (hb' | hb' | ⟨r, rfl⟩)
      · exact .inl hb'
      · exact .inr (.inl (.inl hb'))
      · by_cases hz : t r = 0
        · exact .inl (by omega)
        · by_cases hd : r ∈ D
          · exact .inr (.inl (.inr ⟨hz, r, hd, rfl⟩))
          · exact .inr (.inr ⟨r, hn r hd⟩)
    · rintro (hb' | (hb' | ⟨-, r, -, hr⟩) | ⟨r, hr⟩)
      · exact .inl hb'
      · exact .inr (.inl hb')
      · exact .inr (.inr ⟨r, hr⟩)
      · by_cases hz : t' r = 0
        · exact .inl (by omega)
        · exact .inr (.inr ⟨r, (ht r hz).2 ▸ hr⟩)

end Ledger
