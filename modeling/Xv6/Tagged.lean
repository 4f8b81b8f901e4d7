import Mathlib.Algebra.BigOperators.Group.Finset.Basic
import Mathlib.Algebra.BigOperators.Group.Finset.Piecewise
import Mathlib.Algebra.Order.BigOperators.Group.Finset

/-!
# Pieces of sequences with their owners

A list of pieces, each with the owner it comes from, is an interleaving of sequences: `all` is the
whole, `of p` the part of `p`.
-/

namespace Tagged

variable {ι α : Type} [DecidableEq ι] {p q : ι} {l l' : List (ι × List α)} {bs : List α}

def all (l : List (ι × List α)) : List α := l.flatMap (·.2)

/-- The pieces of `p`, one after the other. -/
def of (p : ι) (l : List (ι × List α)) : List α := (l.filter (·.1 = p)).flatMap (·.2)

omit [DecidableEq ι] in
theorem all_concat : all (l ++ [(p, bs)]) = all l ++ bs := by simp [all]

theorem of_concat_self : of p (l ++ [(p, bs)]) = of p l ++ bs := by simp [of]

theorem of_concat_of_ne (h : q ≠ p) : of p (l ++ [(q, bs)]) = of p l := by simp [of, h]

theorem of_cons (x : ι × List α) : (of p (x :: l)).length = (if x.1 = p then x.2.length else 0) + (of p l).length := by
  by_cases h : x.1 = p <;> simp [of, h]

theorem length_all {s : Finset ι} (h : ∀ x ∈ l, x.1 ∈ s) : (all l).length = ∑ p ∈ s, (of p l).length := by
  induction l with
  | nil => simp [all, of]
  | cons x l ih =>
    rw [List.forall_mem_cons] at h
    have hsum : ∑ p ∈ s, (of p (x :: l)).length = x.2.length + ∑ p ∈ s, (of p l).length := by
      simp only [of_cons, Finset.sum_add_distrib, Finset.sum_ite_eq, if_pos h.1]
    rw [hsum, ← ih h.2]
    simp [all]

theorem length_all_le (h : ∀ p, (of p l).length ≤ (of p l').length) : (all l).length ≤ (all l').length := by
  classical
  have hs : ∀ x ∈ l, x.1 ∈ ((l ++ l').map (·.1)).toFinset := fun x hx => by
    rw [List.mem_toFinset, List.mem_map]
    exact ⟨x, List.mem_append_left l' hx, rfl⟩
  have hs' : ∀ x ∈ l', x.1 ∈ ((l ++ l').map (·.1)).toFinset := fun x hx => by
    rw [List.mem_toFinset, List.mem_map]
    exact ⟨x, List.mem_append_right l hx, rfl⟩
  rw [length_all hs, length_all hs']
  exact Finset.sum_le_sum fun p _ => h p

end Tagged
