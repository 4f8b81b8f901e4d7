import Mathlib.Data.List.Infix

/-!
# Labelled transition systems

A system has initial states and labelled steps. A run is known by its labels, newest first, and the state
it ends in, so that a history is an end piece of the list: `l :: ls <:+ h` says that in the run `h` the step
`l` came right after the history `ls`.
-/

structure Lts (σ l : Type) where
  init : σ → Prop
  step : σ → l → σ → Prop

namespace Lts

variable {σ l : Type} {S : Lts σ l}

inductive Run (S : Lts σ l) : List l → σ → Prop
  | init {s : σ} (h : S.init s) : Run S [] s
  | step {h : List l} {s s' : σ} {a : l} (hr : Run S h s) (hs : S.step s a s') : Run S (a :: h) s'

/-- Every step of the system, taken where `P` allows it. -/
def guard (S : Lts σ l) (P : σ → l → Prop) : Lts σ l where
  init := S.init
  step s a s' := P s a ∧ S.step s a s'

theorem Run.invariant {I : List l → σ → Prop} (h0 : ∀ s, S.init s → I [] s)
    (hstep : ∀ h s a s', I h s → S.step s a s' → I (a :: h) s') {h : List l} {s : σ} (hr : S.Run h s) : I h s := by
  induction hr with
  | init hi => exact h0 _ hi
  | step _ hs ih => exact hstep _ _ _ _ ih hs

theorem Run.of_suffix {h h' : List l} {s : σ} {a : l} (hr : S.Run h' s) (hsuf : a :: h <:+ h') :
    ∃ s₁ s₂, S.Run h s₁ ∧ S.step s₁ a s₂ := by
  induction hr with
  | init => exact absurd (List.suffix_nil.1 hsuf) (List.cons_ne_nil a h)
  | @step h₁ s₁ s₂ b hr hs ih =>
    rcases List.suffix_cons_iff.1 hsuf with heq | hlt
    · obtain ⟨rfl, rfl⟩ := List.cons.inj heq
      exact ⟨s₁, s₂, hr, hs⟩
    · exact ih hlt

end Lts
