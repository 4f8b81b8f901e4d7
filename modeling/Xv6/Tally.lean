import Mathlib.Algebra.BigOperators.Group.Finset.Basic
import Mathlib.Algebra.Order.BigOperators.Group.Finset

/-!
# Counting over tables

A table is a function from indices. `total n F g` adds up `F` over its first `n` entries, `tally n p g`
counts the entries that satisfy `p`. The laws say what a change to one entry does to the sum.
-/

open Finset Function

variable {α : Type} {n i : Nat}

/-- The sum of `F` over the first `n` entries of `g`. -/
def total (n : Nat) (F : α → Nat) (g : Nat → α) : Nat := ∑ i ∈ range n, F (g i)

theorem total_update (hi : i < n) (F : α → Nat) (g : Nat → α) (x : α) :
    total n F (update g i x) + F (g i) = total n F g + F x := by
  have hmem : i ∈ range n := mem_range.2 hi
  have hrest : ∑ j ∈ (range n).erase i, F (update g i x j) = ∑ j ∈ (range n).erase i, F (g j) :=
    sum_congr rfl fun j hj => by rw [update_of_ne (ne_of_mem_erase hj)]
  unfold total
  rw [← add_sum_erase _ _ hmem, ← add_sum_erase (range n) (fun j => F (g j)) hmem, hrest, update_self]
  omega

theorem total_congr {F : α → Nat} {g g' : Nat → α} (h : ∀ j, F (g' j) = F (g j)) : total n F g' = total n F g :=
  sum_congr rfl fun j _ => h j

theorem total_eq_zero {F : α → Nat} {g : Nat → α} (h : ∀ j, F (g j) = 0) : total n F g = 0 := sum_eq_zero fun j _ => h j

theorem apply_le_total (hi : i < n) (F : α → Nat) (g : Nat → α) : F (g i) ≤ total n F g :=
  single_le_sum (f := fun j => F (g j)) (fun _ _ => Nat.zero_le _) (mem_range.2 hi)

section Tally

variable (p : α → Prop) [DecidablePred p]

/-- How many of the first `n` entries of `g` satisfy `p`. -/
def tally (n : Nat) (p : α → Prop) [DecidablePred p] (g : Nat → α) : Nat := total n (fun a => if p a then 1 else 0) g

variable {p} {g g' : Nat → α}

theorem tally_congr (h : ∀ j, p (g' j) ↔ p (g j)) : tally n p g' = tally n p g :=
  total_congr fun j => by simp only [h j]

theorem tally_update (hi : i < n) (x : α) :
    tally n p (update g i x) + (if p (g i) then 1 else 0) = tally n p g + if p x then 1 else 0 :=
  total_update hi (fun a => if p a then 1 else 0) g x

theorem tally_update_of_iff {x : α} (h : p x ↔ p (g i)) : tally n p (update g i x) = tally n p g := by
  refine tally_congr fun j => ?_
  rcases eq_or_ne j i with rfl | hne
  · rw [update_self]
    exact h
  · rw [update_of_ne hne]

theorem tally_eq_zero (h : ∀ j, ¬ p (g j)) : tally n p g = 0 := total_eq_zero fun j => if_neg (h j)

theorem tally_eq_single (hi : i < n) (h : ∀ j, j ≠ i → ¬ p (g j)) : tally n p g = if p (g i) then 1 else 0 :=
  sum_eq_single_of_mem i (mem_range.2 hi) fun j _ hj => if_neg (h j hj)

theorem tally_pos (hi : i < n) (h : p (g i)) : 0 < tally n p g := by
  have := apply_le_total hi (fun a => if p a then 1 else 0) g
  simp only [if_pos h] at this
  exact this

end Tally
