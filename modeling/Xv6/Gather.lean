import Mathlib.Algebra.BigOperators.Group.Finset.Basic
import Mathlib.Algebra.BigOperators.Group.Finset.Piecewise
import Mathlib.Algebra.Order.BigOperators.Group.Finset
import Mathlib.Data.Multiset.Count
import Mathlib.Data.Multiset.UnionInter
import Mathlib.Tactic.Abel

/-!
# What the slots of a table hold, as a multiset

A table is a function from indices to optional elements, and `gather n g` is the multiset of what its first `n` slots hold.
If the multiset has no duplicates, no two slots hold the same element.
-/

open Finset

variable {α ι M : Type} {n i j : Nat} {g g' : Nat → Option α} {a : α}

theorem sum_change [AddCommMonoid M] [DecidableEq ι] {s : Finset ι} {f f' : ι → M} {k : ι} (hk : k ∈ s)
    (h : ∀ j ∈ s, j ≠ k → f' j = f j) : ∑ j ∈ s, f' j + f k = ∑ j ∈ s, f j + f' k := by
  have hrest : ∑ j ∈ s.erase k, f' j = ∑ j ∈ s.erase k, f j :=
    sum_congr rfl fun j hj => h j (mem_of_mem_erase hj) (ne_of_mem_erase hj)
  rw [← add_sum_erase s f' hk, ← add_sum_erase s f hk, hrest]
  abel

def held : Option α → Multiset α
  | none => 0
  | some a => {a}

@[simp] theorem held_none : held (none : Option α) = 0 := rfl

@[simp] theorem held_some : held (some a) = {a} := rfl

theorem mem_held {o : Option α} : a ∈ held o ↔ o = some a := by
  cases o with
  | none => simp
  | some b => simp [eq_comm]

/-- What the first `n` slots of `g` hold. -/
@[irreducible] def gather (n : Nat) (g : Nat → Option α) : Multiset α := ∑ i ∈ range n, held (g i)

theorem mem_gather : a ∈ gather n g ↔ ∃ i, i < n ∧ g i = some a := by
  simp only [gather, Multiset.mem_sum, mem_range, mem_held]

theorem gather_congr (h : ∀ j, j < n → g' j = g j) : gather n g' = gather n g := by
  unfold gather
  exact sum_congr rfl fun j hj => by rw [h j (mem_range.1 hj)]

theorem gather_eq_zero (h : ∀ j, j < n → g j = none) : gather n g = 0 := by
  unfold gather
  exact sum_eq_zero fun j hj => by rw [h j (mem_range.1 hj), held_none]

theorem gather_succ (n : Nat) (g : Nat → Option α) : gather (n + 1) g = held (g 0) + gather n fun k => g (k + 1) := by
  unfold gather
  rw [sum_range_succ', add_comm]

theorem gather_change (hi : i < n) (h : ∀ j, j < n → j ≠ i → g' j = g j) :
    gather n g' + held (g i) = gather n g + held (g' i) := by
  have hrest : ∀ j ∈ range n, j ≠ i → held (g' j) = held (g j) := fun j hj hne => by rw [h j (mem_range.1 hj) hne]
  unfold gather
  exact sum_change (mem_range.2 hi) hrest

theorem sum_disjoint [DecidableEq ι] {s : Finset ι} {f : ι → Multiset α} (h : (∑ k ∈ s, f k).Nodup)
    {k l : ι} (hk : k ∈ s) (hl : l ∈ s)
    (hne : k ≠ l) (ha : a ∈ f k) : a ∉ f l := by
  rw [← add_sum_erase s f hk] at h
  intro hal
  refine Multiset.disjoint_left.1 (Multiset.nodup_add.1 h).2.2 ha ?_
  exact Multiset.mem_sum.2 ⟨l, mem_erase.2 ⟨hne.symm, hl⟩, hal⟩

theorem gather_inj (h : (gather n g).Nodup) (hi : i < n) (hj : j < n) (hgi : g i = some a) (hgj : g j = some a) : i = j := by
  by_contra hne
  unfold gather at h
  exact sum_disjoint h (mem_range.2 hi) (mem_range.2 hj) hne (mem_held.2 hgi) (mem_held.2 hgj)

theorem card_gather_le {s : Finset Nat} (h : ∀ j, j < n → g j ≠ none → j ∈ s) : (gather n g).card ≤ s.card := by
  have hle : ∀ j ∈ range n, (held (g j)).card ≤ if j ∈ s then 1 else 0 := by
    intro j hj
    split
    · cases g j <;> simp
    · next hs =>
      have hnone : g j = none := by
        by_contra hne
        exact hs (h j (mem_range.1 hj) hne)
      rw [hnone]
      simp
  unfold gather
  rw [Multiset.card_sum]
  calc ∑ j ∈ range n, (held (g j)).card ≤ ∑ j ∈ range n, if j ∈ s then 1 else 0 := sum_le_sum hle
    _ = ((range n).filter (· ∈ s)).card := by rw [card_filter]
    _ ≤ s.card := card_le_card fun j hj => (mem_filter.1 hj).2
