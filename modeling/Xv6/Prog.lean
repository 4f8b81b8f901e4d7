import Mathlib.Logic.Function.Basic
import Mathlib.Order.Defs.Unbundled

/-!
# Programs over a state that may fault

`Prog σ ε` is the monad of the whole development: a computation reads and writes a state of type `σ` and
either returns or stops with a fault in `ε`, which carries no state. `wp x Q E s` is the weakest
precondition with two exits: `x` run from `s` returns in `Q` or faults in `E`. `Keeps R x` is the
relational form used for frames.
-/

/-- Computations over a state `σ` that may stop with a fault `ε`. -/
abbrev Prog (σ ε : Type) := StateT σ (Except ε)

namespace Prog

variable {σ τ ε α β : Type}

/-- `x`, run from `s`, returns in `Q` or faults in `E`. -/
def wp (x : Prog σ ε α) (Q : α → σ → Prop) (E : ε → Prop) (s : σ) : Prop :=
  match x.run s with
  | .ok (a, s') => Q a s'
  | .error e => E e

section Rules

variable {x : Prog σ ε α} {f : α → Prog σ ε β} {Q Q' : α → σ → Prop} {R : β → σ → Prop}
variable {E E' : ε → Prop} {s : σ}

@[simp] theorem wp_pure (a : α) : wp (pure a : Prog σ ε α) Q E s ↔ Q a s := Iff.rfl

@[simp] theorem wp_throw (e : ε) : wp (throw e : Prog σ ε α) Q E s ↔ E e := Iff.rfl

@[simp] theorem wp_get {Q : σ → σ → Prop} : wp (get : Prog σ ε σ) Q E s ↔ Q s s := Iff.rfl

@[simp] theorem wp_set {Q : PUnit → σ → Prop} (t : σ) :
    wp (set t : Prog σ ε PUnit) Q E s ↔ Q ⟨⟩ t := Iff.rfl

@[simp] theorem wp_modify {Q : PUnit → σ → Prop} (g : σ → σ) :
    wp (modify g : Prog σ ε PUnit) Q E s ↔ Q ⟨⟩ (g s) := Iff.rfl

@[simp] theorem wp_bind : wp (x >>= f) R E s ↔ wp x (fun a s' => wp (f a) R E s') E s := by
  simp only [wp, StateT.run_bind]
  cases h : x.run s with
  | error e => simp [Bind.bind, Except.bind]
  | ok p => simp [Bind.bind, Except.bind]

@[simp] theorem wp_map {g : α → β} : wp (g <$> x) R E s ↔ wp x (fun a => R (g a)) E s := by
  simp only [wp, StateT.run_map]
  cases h : x.run s with
  | error e => simp [Functor.map, Except.map]
  | ok p => simp [Functor.map, Except.map]

@[simp] theorem wp_ite (c : Prop) [Decidable c] (y : Prog σ ε α) :
    wp (if c then x else y) Q E s ↔ (c → wp x Q E s) ∧ (¬ c → wp y Q E s) := by
  by_cases h : c <;> simp [h]

theorem wp.mono (h : wp x Q E s) (hQ : ∀ a s', Q a s' → Q' a s') (hE : ∀ e, E e → E' e) :
    wp x Q' E' s := by
  unfold wp at h ⊢
  split at h
  · exact hQ _ _ h
  · exact hE _ h

theorem wp.post (h : wp x Q E s) (hQ : ∀ a s', Q a s' → Q' a s') : wp x Q' E s :=
  h.mono hQ fun _ => id

theorem wp.bind (h : wp x Q E s) (hf : ∀ a s', Q a s' → wp (f a) R E s') : wp (x >>= f) R E s :=
  wp_bind.2 (h.post hf)

theorem wp.and (h : wp x Q E s) (h' : wp x Q' E' s) :
    wp x (fun a s' => Q a s' ∧ Q' a s') (fun e => E e ∧ E' e) s := by
  unfold wp at h h' ⊢
  cases hr : x.run s with
  | ok p => simp only [hr] at h h'; exact ⟨h, h'⟩
  | error e => simp only [hr] at h h'; exact ⟨h, h'⟩

theorem wp.of_ok (h : wp x Q E s) {a : α} {s' : σ} (hr : x.run s = .ok (a, s')) : Q a s' := by
  simpa [wp, hr] using h

theorem wp.of_error (h : wp x Q E s) {e : ε} (hr : x.run s = .error e) : E e := by
  simpa [wp, hr] using h

theorem wp.exists_ok (h : wp x Q (fun _ => False) s) : ∃ a s', x.run s = .ok (a, s') ∧ Q a s' := by
  unfold wp at h
  split at h
  · next a s' hr => exact ⟨a, s', hr, h⟩
  · exact h.elim

theorem wp_of_ok {a : α} {s' : σ} (hr : x.run s = .ok (a, s')) (h : Q a s') : wp x Q E s := by
  simpa [wp, hr] using h

theorem wp_run : wp x (fun a s' => x.run s = .ok (a, s')) (fun e => x.run s = .error e) s := by
  unfold wp
  split <;> assumption

end Rules

/-! ### Running on a concrete state -/

def result (x : Prog σ ε α) (s : σ) : Option α := (x.run s).toOption.map Prod.fst

/-- The state it leaves behind, `s` itself if it stops with a fault. -/
def final (x : Prog σ ε α) (s : σ) : σ :=
  match x.run s with
  | .ok (_, s') => s'
  | .error _ => s

theorem run_eq_final {x : Prog σ ε α} {s : σ} {a : α} (h : x.result s = some a) : x.run s = .ok (a, x.final s) := by
  unfold result at h
  unfold final
  cases hr : x.run s with
  | ok p =>
    rw [hr] at h
    cases h
    rfl
  | error e =>
    rw [hr] at h
    cases h

theorem final_of_ok {x : Prog σ ε α} {s s' : σ} {a : α} (h : x.run s = .ok (a, s')) : x.final s = s' := by
  rw [final, h]

def fault (x : Prog σ ε α) (s : σ) : Option ε :=
  match x.run s with
  | .ok _ => none
  | .error e => some e

theorem run_eq_error {x : Prog σ ε α} {s : σ} {e : ε} (h : x.fault s = some e) : x.run s = .error e := by
  unfold fault at h
  cases hr : x.run s with
  | ok p =>
    rw [hr] at h
    cases h
  | error e' =>
    rw [hr] at h
    rw [Option.some.inj h]

/-! ### Faults on a condition -/

/-- Stop with `e` if `c` holds. -/
def failIf (c : Prop) [Decidable c] (e : ε) : Prog σ ε Unit :=
  if c then throw e else pure ()

@[simp] theorem wp_failIf {c : Prop} [Decidable c] {e : ε} {Q : Unit → σ → Prop} {E : ε → Prop}
    {s : σ} : wp (failIf c e) Q E s ↔ (c → E e) ∧ (¬ c → Q () s) := by
  simp [failIf]

/-! ### Counted loops -/

/-- `for i in [lo, lo + cnt)`, threading a value through the body. -/
def forRange (f : Nat → α → Prog σ ε α) : (lo cnt : Nat) → α → Prog σ ε α
  | _, 0, a => pure a
  | lo, cnt + 1, a => f lo a >>= forRange f (lo + 1) cnt

/-- The first `some` that `f` returns on `[lo, lo + cnt)`. -/
def findRange (f : Nat → Prog σ ε (Option α)) : (lo cnt : Nat) → Prog σ ε (Option α)
  | _, 0 => pure none
  | lo, cnt + 1 => do
    match ← f lo with
    | some a => pure (some a)
    | none => findRange f (lo + 1) cnt

theorem wp_forRange {f : Nat → α → Prog σ ε α} {E : ε → Prop} (I : Nat → α → σ → Prop) :
    ∀ {lo cnt : Nat} {a : α} {s : σ}, I lo a s →
      (∀ i a s, lo ≤ i → i < lo + cnt → I i a s → wp (f i a) (I (i + 1)) E s) →
      wp (forRange f lo cnt a) (I (lo + cnt)) E s
  | lo, 0, a, s, h0, _ => by simpa [forRange] using h0
  | lo, cnt + 1, a, s, h0, hs => by
    refine (hs lo a s (Nat.le_refl _) (by omega) h0).bind fun a' s' h1 => ?_
    rw [show lo + (cnt + 1) = lo + 1 + cnt by omega]
    exact wp_forRange I h1 fun i b t hi hi' => hs i b t (by omega) (by omega)

theorem wp_findRange {f : Nat → Prog σ ε (Option α)} {E : ε → Prop} (I : Nat → σ → Prop)
    (Q : α → σ → Prop) : ∀ {lo cnt : Nat} {s : σ}, I lo s →
      (∀ i s, lo ≤ i → i < lo + cnt → I i s →
        wp (f i) (fun r s' => match r with | none => I (i + 1) s' | some a => Q a s') E s) →
      wp (findRange f lo cnt)
        (fun r s' => match r with | none => I (lo + cnt) s' | some a => Q a s') E s
  | lo, 0, s, h0, _ => by simpa [findRange] using h0
  | lo, cnt + 1, s, h0, hs => by
    refine (hs lo s (Nat.le_refl _) (by omega) h0).bind fun r s' h1 => ?_
    cases r with
    | some a => exact h1
    | none =>
      rw [show lo + (cnt + 1) = lo + 1 + cnt by omega]
      exact wp_findRange I Q h1 fun i t hi hi' => hs i t (by omega) (by omega)

/-! ### Running on a part of the state -/

/-- `x` run on the part of the state that `get` reads and `put` writes back. -/
def zoom (get : τ → σ) (put : σ → τ → τ) (x : Prog σ ε α) : Prog τ ε α := fun t =>
  match x.run (get t) with
  | .ok (a, s') => .ok (a, put s' t)
  | .error e => .error e

@[simp] theorem wp_zoom {get : τ → σ} {put : σ → τ → τ} {x : Prog σ ε α} {Q : α → τ → Prop}
    {E : ε → Prop} {t : τ} :
    wp (zoom get put x) Q E t ↔ wp x (fun a s' => Q a (put s' t)) E (get t) := by
  unfold wp zoom
  cases hr : x.run (get t) with
  | ok p => simp only [StateT.run] at hr ⊢; simp only [hr]
  | error e => simp only [StateT.run] at hr ⊢; simp only [hr]

/-! ### Frames -/

/-- Whenever `x` returns, the states before and after are related by `R`. -/
def Keeps (R : σ → σ → Prop) (x : Prog σ ε α) : Prop :=
  ∀ s, wp x (fun _ s' => R s s') (fun _ => True) s

namespace Keeps

variable {R : σ → σ → Prop} {x : Prog σ ε α}

theorem of_ok (h : Keeps R x) {s s' : σ} {a : α} (hr : x.run s = .ok (a, s')) : R s s' :=
  (h s).of_ok hr

theorem wp_and (h : Keeps R x) {Q : α → σ → Prop} {E : ε → Prop} {s : σ} (hx : wp x Q E s) :
    wp x (fun a s' => Q a s' ∧ R s s') E s :=
  (hx.and (h s)).mono (fun _ _ => id) fun _ => And.left

theorem mono {R' : σ → σ → Prop} (h : Keeps R x) (hR : ∀ s s', R s s' → R' s s') : Keeps R' x :=
  fun s => (h s).post fun _ _ => hR _ _

theorem throw (e : ε) : Keeps R (throw e : Prog σ ε α) := fun _ => trivial

theorem ite {c : Prop} [Decidable c] {y : Prog σ ε α} (hx : Keeps R x) (hy : Keeps R y) :
    Keeps R (if c then x else y) := by
  split <;> assumption

theorem pure [Std.Refl R] (a : α) : Keeps R (pure a : Prog σ ε α) := fun s => Std.Refl.refl s

theorem get [Std.Refl R] : Keeps R (get : Prog σ ε σ) := fun s => Std.Refl.refl s

theorem failIf [Std.Refl R] {c : Prop} [Decidable c] {e : ε} : Keeps R (failIf c e) := by
  unfold Prog.failIf
  exact ite (throw e) (pure ())

theorem bind [IsTrans σ R] {f : α → Prog σ ε β} (hx : Keeps R x) (hf : ∀ a, Keeps R (f a)) :
    Keeps R (x >>= f) := fun s =>
  (hx s).bind fun a s' h => (hf a s').post fun _ s'' h' => IsTrans.trans s s' s'' h h'

variable [Std.Refl R] [IsTrans σ R]

theorem forRange {f : Nat → α → Prog σ ε α} (hf : ∀ i a, Keeps R (f i a)) :
    ∀ lo cnt a, Keeps R (forRange f lo cnt a)
  | _, 0, a => pure a
  | lo, cnt + 1, a => bind (hf lo a) (forRange hf (lo + 1) cnt)

theorem findRange {f : Nat → Prog σ ε (Option α)} (hf : ∀ i, Keeps R (f i)) :
    ∀ lo cnt, Keeps R (findRange f lo cnt)
  | _, 0 => pure none
  | lo, cnt + 1 => bind (hf lo) fun r => by
    cases r with
    | some a => exact pure (some a)
    | none => exact findRange hf (lo + 1) cnt

end Keeps

end Prog
