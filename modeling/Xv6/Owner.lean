import Mathlib.Logic.Function.Basic

/-!
# Locks and their holders

A lock is a variable that names its holder, if there is one. Each party is somewhere in its code, and some places are
those where it has the lock: `Held o f p` says that the lock `o` names exactly the party that is at such a place.
-/

/-- The lock names the party whose place satisfies `p`. -/
def Held {ι α : Type} (o : Option ι) (f : ι → α) (p : α → Prop) : Prop := ∀ i, p (f i) ↔ o = some i

namespace Held

open Function

variable {ι α : Type} {o : Option ι} {f g : ι → α} {p : α → Prop} {i j : ι} {x : α}

theorem unique (h : Held o f p) (hi : p (f i)) (hj : p (f j)) : i = j :=
  Option.some.inj (((h i).1 hi).symm.trans ((h j).1 hj))

theorem congr (h : Held o f p) (hg : ∀ j, p (g j) ↔ p (f j)) : Held o g p := fun j => (hg j).trans (h j)

variable [DecidableEq ι]

theorem keep (h : Held o f p) (hx : p x ↔ p (f i)) : Held o (update f i x) p := by
  refine h.congr fun j => ?_
  rcases eq_or_ne j i with rfl | hne
  · rw [update_self]
    exact hx
  · rw [update_of_ne hne]

theorem take (h : Held none f p) (hx : p x) : Held (some i) (update f i x) p := by
  intro j
  rcases eq_or_ne j i with rfl | hne
  · rw [update_self]
    exact iff_of_true hx rfl
  · rw [update_of_ne hne]
    exact iff_of_false (fun hj => nomatch (h j).1 hj) fun he => hne (Option.some.inj he).symm

theorem drop (h : Held o f p) (hi : p (f i)) (hx : ¬ p x) : Held none (update f i x) p := by
  intro j
  rcases eq_or_ne j i with rfl | hne
  · rw [update_self]
    exact iff_of_false hx nofun
  · rw [update_of_ne hne]
    exact iff_of_false (fun hj => hne (h.unique hj hi)) nofun

end Held
