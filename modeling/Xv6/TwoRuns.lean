import Xv6.Prog

/-!
# Loops over lists, and two runs side by side

`wp₂ x y Q s t` says that `x` from `s` and `y` from `t` either both return, with results and states
related by `Q`, or stop with the same fault. It has the rules of `wp`, one for each pair of equal
statements, so that two runs of one program are compared by walking through the program once.
-/

namespace Prog

variable {σ τ ε α β γ δ : Type}

/-! ### Lists -/

/-- The program `f a` for each `a` of the list in turn. -/
def each (f : α → Prog σ ε PUnit) : List α → Prog σ ε PUnit
  | [] => pure ⟨⟩
  | a :: l => f a >>= fun _ => each f l

theorem each_singleton {f : α → Prog σ ε PUnit} {a : α} : each f [a] = f a := bind_pure_unit

theorem Keeps.each {R : σ → σ → Prop} [Std.Refl R] [IsTrans σ R] {f : α → Prog σ ε PUnit} (hf : ∀ a, Keeps R (f a)) :
    ∀ l, Keeps R (each f l)
  | [] => Keeps.pure PUnit.unit
  | a :: l => Keeps.bind (hf a) fun _ => Keeps.each hf l

theorem each_append {f : α → Prog σ ε PUnit} {l l' : List α} : each f (l ++ l') = each f l >>= fun _ => each f l' := by
  induction l with
  | nil => rfl
  | cons a l ih => rw [List.cons_append, each, each, ih, bind_assoc]

theorem run_bind_congr {x : Prog σ ε α} {f g : α → Prog σ ε β} {Q : α → σ → Prop} {s : σ} (h : wp x Q (fun _ => True) s)
    (hf : ∀ a s', Q a s' → (f a).run s' = (g a).run s') : (x >>= f).run s = (x >>= g).run s := by
  rw [StateT.run_bind, StateT.run_bind]
  cases hr : x.run s with
  | error e => rfl
  | ok p => exact hf p.1 p.2 (h.of_ok hr)

/-! ### Two runs -/

/-- Both return in `Q`, or both stop with the same fault. -/
def wp₂ (x : Prog σ ε α) (y : Prog τ ε β) (Q : α → σ → β → τ → Prop) (s : σ) (t : τ) : Prop :=
  match x.run s, y.run t with
  | .ok (a, s'), .ok (b, t') => Q a s' b t'
  | .error e, .error e' => e = e'
  | _, _ => False

section

variable {x : Prog σ ε α} {y : Prog τ ε β} {f : α → Prog σ ε γ} {g : β → Prog τ ε δ} {Q Q' : α → σ → β → τ → Prop}
  {R : γ → σ → δ → τ → Prop} {s : σ} {t : τ}

theorem wp₂_pure {a : α} {b : β} (h : Q a s b t) : wp₂ (pure a : Prog σ ε α) (pure b : Prog τ ε β) Q s t := h

theorem wp₂_throw (e : ε) : wp₂ (throw e : Prog σ ε α) (throw e : Prog τ ε β) Q s t := rfl

theorem wp₂_modify {Q : PUnit → σ → PUnit → τ → Prop} {p : σ → σ} {q : τ → τ} (h : Q ⟨⟩ (p s) ⟨⟩ (q t)) :
    wp₂ (modify p : Prog σ ε PUnit) (modify q : Prog τ ε PUnit) Q s t := h

theorem wp₂.post (h : wp₂ x y Q s t) (hQ : ∀ a s' b t', Q a s' b t' → Q' a s' b t') : wp₂ x y Q' s t := by
  unfold wp₂ at h ⊢
  split at h
  · exact hQ _ _ _ _ h
  · exact h
  · exact h

theorem wp₂.bind (h : wp₂ x y Q s t) (hf : ∀ a s' b t', Q a s' b t' → wp₂ (f a) (g b) R s' t') :
    wp₂ (x >>= f) (y >>= g) R s t := by
  unfold wp₂ at h
  unfold wp₂
  rw [StateT.run_bind, StateT.run_bind]
  split at h
  · next h1 h2 =>
    rw [h1, h2]
    exact hf _ _ _ _ h
  · next h1 h2 =>
    rw [h1, h2]
    exact h
  · exact h.elim

theorem wp₂_of_ok {a : α} {b : β} {s' : σ} {t' : τ} (hx : x.run s = .ok (a, s'))
    (hy : y.run t = .ok (b, t')) : wp₂ x y Q s t ↔ Q a s' b t' := by
  rw [wp₂, hx, hy]

theorem wp₂_left {a : α} {s' : σ} {Q : γ → σ → β → τ → Prop} (hx : x.run s = .ok (a, s')) (h : wp₂ (f a) y Q s' t) :
    wp₂ (x >>= f) y Q s t := by
  have hrun : (x >>= f).run s = (f a).run s' := by
    rw [StateT.run_bind, hx]
    rfl
  unfold wp₂
  rw [hrun]
  exact h

theorem wp₂_get {f : σ → Prog σ ε γ} {g : τ → Prog τ ε δ} (h : wp₂ (f s) (g t) R s t) : wp₂ (get >>= f) (get >>= g) R s t := h

theorem wp₂_failIf {c c' : Prop} [Decidable c] [Decidable c'] {e : ε} {Q : Unit → σ → Unit → τ → Prop}
    (hc : c ↔ c') (h : ¬ c → Q () s () t) :
    wp₂ (failIf c e) (failIf c' e) Q s t := by
  by_cases h1 : c
  · rw [failIf, failIf, if_pos h1, if_pos (hc.1 h1)]
    exact wp₂_throw e
  · rw [failIf, failIf, if_neg h1, if_neg (mt hc.2 h1)]
    exact h h1

theorem wp₂_each {I : σ → τ → Prop} {f : α → Prog σ ε PUnit} {g : α → Prog τ ε PUnit} {l : List α} (h0 : I s t)
    (hs : ∀ a ∈ l, ∀ s t, I s t → wp₂ (f a) (g a) (fun _ s' _ t' => I s' t') s t) :
    wp₂ (each f l) (each g l) (fun _ s' _ t' => I s' t') s t := by
  induction l generalizing s t with
  | nil => exact h0
  | cons a l ih =>
    exact wp₂.bind (hs a (List.mem_cons_self ..) s t h0) fun _ s' _ t' h => ih h fun b hb => hs b (List.mem_cons_of_mem a hb)

end

end Prog
