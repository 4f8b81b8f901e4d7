import Mathlib.Dynamics.PeriodicPts.Defs
import Mathlib.Data.List.Basic

/-!
# Circuits of single links

`Threaded next l b` says that `next` leads from each node of `l` to the one after it, and from the last
one to `b`. With `b` the first node itself the list is a circuit, and a walk from any of its nodes gets
to any other: a search along the links stops if there is a node to stop at, and a search that comes back
to where it started has seen every node.
-/

namespace Circuit

variable {α : Type} {next next' : α → α} {l l' : List α} {a b x y : α}

def Threaded (next : α → α) : List α → α → Prop
  | [], _ => True
  | x :: l, b => next x = l.headD b ∧ Threaded next l b

theorem headD_append : (l ++ l').headD b = l.headD (l'.headD b) := by
  cases l <;> rfl

theorem threaded_append : Threaded next (l ++ l') b ↔ Threaded next l (l'.headD b) ∧ Threaded next l' b := by
  induction l with
  | nil => exact (iff_of_eq (true_and _)).symm
  | cons x l ih =>
    change next x = (l ++ l').headD b ∧ Threaded next (l ++ l') b ↔ (next x = l.headD (l'.headD b) ∧
      Threaded next l (l'.headD b)) ∧ _
    rw [ih, headD_append, and_assoc]

theorem Threaded.congr (h : Threaded next l b) (hn : ∀ x ∈ l, next' x = next x) : Threaded next' l b := by
  induction l with
  | nil => trivial
  | cons x l ih => exact ⟨(hn x (List.mem_cons_self ..)).trans h.1, ih h.2 fun y hy => hn y (List.mem_cons_of_mem x hy)⟩

theorem headD_mem : l.headD b ∈ l ∨ l.headD b = b := by
  cases l with
  | nil => exact .inr rfl
  | cons x l => exact .inl (List.mem_cons_self ..)

theorem Threaded.next_mem (h : Threaded next l b) (hx : x ∈ l) : next x ∈ l ∨ next x = b := by
  induction l with
  | nil => exact absurd hx List.not_mem_nil
  | cons y l ih =>
    rcases List.mem_cons.1 hx with rfl | hx
    · rw [h.1]
      exact headD_mem.imp_left (List.mem_cons_of_mem x)
    · exact (ih h.2 hx).imp_left (List.mem_cons_of_mem y)

theorem Threaded.reach_end (h : Threaded next l b) (hx : x ∈ l) : ∃ k, k ≤ l.length ∧ next^[k] x = b := by
  induction l generalizing x with
  | nil => exact absurd hx List.not_mem_nil
  | cons y l ih =>
    rcases List.mem_cons.1 hx with rfl | hx
    · cases l with
      | nil => exact ⟨1, Nat.le_refl 1, h.1⟩
      | cons z l =>
        obtain ⟨k, hk, he⟩ := ih h.2 (List.mem_cons_self ..)
        refine ⟨k + 1, Nat.succ_le_succ hk, ?_⟩
        rw [Function.iterate_succ_apply, h.1]
        exact he
    · obtain ⟨k, hk, he⟩ := ih h.2 hx
      exact ⟨k, Nat.le_succ_of_le hk, he⟩

theorem Threaded.reach_from (h : Threaded next (a :: l) b) (hy : y ∈ a :: l) : ∃ k, k ≤ l.length ∧ next^[k] a = y := by
  induction l generalizing a with
  | nil => exact ⟨0, Nat.le_refl 0, (List.mem_singleton.1 hy).symm⟩
  | cons c l ih =>
    rcases List.mem_cons.1 hy with rfl | hy
    · exact ⟨0, Nat.zero_le _, rfl⟩
    · obtain ⟨k, hk, he⟩ := ih h.2 hy
      refine ⟨k + 1, Nat.succ_le_succ hk, ?_⟩
      rw [Function.iterate_succ_apply, h.1]
      exact he

section Ring

variable (h : Threaded next (a :: l) a) (hx : x ∈ a :: l)
include h hx

theorem iterate_mem (k : Nat) : next^[k] x ∈ a :: l := by
  induction k with
  | zero => exact hx
  | succ k ih =>
    rw [Function.iterate_succ_apply']
    rcases h.next_mem ih with hm | he
    · exact hm
    · rw [he]
      exact List.mem_cons_self ..

theorem exists_iterate (hy : y ∈ a :: l) : ∃ k, k ≤ 2 * l.length + 1 ∧ next^[k] x = y := by
  obtain ⟨k, hk, he⟩ := h.reach_end hx
  obtain ⟨k', hk', he'⟩ := h.reach_from hy
  refine ⟨k' + k, ?_, ?_⟩
  · rw [List.length_cons] at hk
    omega
  · rw [Function.iterate_add_apply, he, he']

theorem exists_first {stop : α → Prop} (hy : y ∈ a :: l) (hs : stop y) :
    ∃ k, k ≤ 2 * l.length + 1 ∧ stop (next^[k] x) ∧ ∀ j, j < k → ¬ stop (next^[j] x) := by
  classical
  obtain ⟨m, hm, he⟩ := exists_iterate h hx hy
  have hex : ∃ k, stop (next^[k] x) := ⟨m, he ▸ hs⟩
  exact ⟨Nat.find hex, (Nat.find_le (he ▸ hs)).trans hm, Nat.find_spec hex, fun j hj => Nat.find_min hex hj⟩

theorem exists_of_return {k : Nat} (hk : 0 < k) (hr : next^[k] x = x) (hy : y ∈ a :: l) : ∃ j, j < k ∧ next^[j + 1] x = y := by
  obtain ⟨m, -, he⟩ := exists_iterate h hx hy
  have hper : Function.IsPeriodicPt next k x := hr
  have hmod : next^[m % k] x = y := (hper.iterate_mod_apply m).trans he
  by_cases h0 : m % k = 0
  · refine ⟨k - 1, by omega, ?_⟩
    rw [Nat.sub_add_cancel hk, hr]
    rwa [h0] at hmod
  · refine ⟨m % k - 1, ?_, ?_⟩
    · have := Nat.mod_lt m hk
      omega
    · rwa [Nat.sub_add_cancel (Nat.pos_of_ne_zero h0)]

end Ring

end Circuit
