import Xv6.ScreenRun

/-!
# Opening and closing the colour table

A run in which the table is opened and closed is compared with the run without the toggles and the keys
between them. If nothing is printed while the table is open, the two screens have the same characters
from then on; the colours may differ. Output in between goes to the screen under the table and is lost
when the saved copy comes back, but the cursor stays where it led.
-/

namespace Xv6.Console

open Prog

variable {s s' t : Tty} {c : Byte} {mem : Bool}

/-! ### Statement -/

def SameScreen (s t : Tty) : Prop := s.pos = t.pos ∧ ∀ k : Nat, k < 25 * 80 → (s.crt k).char = (t.crt k).char

def SameRuns (x y : TM Unit) (s : Tty) : Prop := wp₂ x y (fun _ s' _ t' => SameScreen s' t') s s

def Op.Quiet : Op → Prop
  | .key c _ => c ≠ ctl 'P' ∧ c ≠ ctl 'U' ∧ c ≠ ctl 'H' ∧ c ≠ chr '\x7f' ∧ c ≠ ctl 'C'
  | .putc _ => False
  | _ => True

def Op.isKey : Op → Bool
  | .key _ _ => true
  | _ => false

/-! ### Characters -/

theorem char_or {a n : Nat} (hn : n % 256 = 0) : Cell.char (BitVec.ofNat 16 (a ||| n)) = BitVec.ofNat 8 a := by
  have hor : (a ||| n) % 2 ^ 8 = a % 2 ^ 8 := by
    rw [Nat.or_mod_two_pow, show n % 2 ^ 8 = 0 from hn, Nat.or_zero]
  refine BitVec.eq_of_toNat_eq ?_
  rw [Cell.char, BitVec.toNat_setWidth, BitVec.toNat_ofNat, BitVec.toNat_ofNat,
    Nat.mod_mod_of_dvd _ (by decide : 2 ^ 8 ∣ 2 ^ 16), hor]

theorem char_tableCell (row row' : Int) (i j : Nat) : (tableCell row i j).char = (tableCell row' i j).char := by
  unfold tableCell
  split
  · rfl
  · split
    · rfl
    · split
      · rfl
      · refine (char_or ?_).trans (char_or ?_).symm
        all_goals split <;> [rfl; split <;> rfl]

abbrev SameStores : List (Int × Cell) → List (Int × Cell) → Prop := List.Forall₂ fun p q => p.1 = q.1 ∧ p.2.char = q.2.char

theorem sameStores_map {α : Type} {l : List α} {f g : α → Int × Cell} (h : ∀ a ∈ l, (f a).1 = (g a).1 ∧
    (f a).2.char = (g a).2.char) :
    SameStores (l.map f) (l.map g) :=
  List.forall₂_map_left_iff.2 (List.forall₂_map_right_iff.2 (List.forall₂_same.2 h))

theorem foldl_update_char {f g : Int → Cell} (hfg : ∀ k : Nat, k < 25 * 80 → (f k).char = (g k).char) {l l' : List (Int × Cell)}
    (hl : SameStores l l') : ∀ k : Nat, k < 25 * 80 → ((l.foldl (fun m p => Function.update m p.1 p.2) f) k).char =
      ((l'.foldl (fun m p => Function.update m p.1 p.2) g) k).char := by
  induction hl generalizing f g with
  | nil => exact hfg
  | @cons p q l l' hpq _ ih =>
    refine ih fun k hk => ?_
    dsimp only
    rw [← hpq.1]
    by_cases hkp : (k : Int) = p.1
    · rw [hkp, Function.update_self, Function.update_self]
      exact hpq.2
    · rw [Function.update_of_ne hkp, Function.update_of_ne hkp]
      exact hfg k hk

theorem foldl_update_range {f : Nat → Cell} {g : Int → Cell} {n k : Nat} (hk : k < n) :
    ((List.range n).map fun (k : Nat) => ((k : Int), f k)).foldl (fun m p => Function.update m p.1 p.2) g k = f k := by
  induction n with
  | zero => exact absurd hk (Nat.not_lt_zero k)
  | succ n ih =>
    rw [List.range_succ, List.map_append, List.foldl_append, List.map_singleton, List.foldl_cons, List.foldl_nil]
    dsimp only
    by_cases hkn : k = n
    · rw [hkn, Function.update_self]
    · rw [Function.update_of_ne (by omega)]
      exact ih (by omega)

/-! ### Two consoles with the same characters -/

structure Alike (s t : Tty) : Prop where
  input : s.input = t.input
  echo : s.consEcho = t.consEcho
  table : s.isShowingTable = t.isShowingTable
  pos : s.pos = t.pos
  chars : ∀ k : Nat, k < 25 * 80 → (s.crt k).char = (t.crt k).char
  copy : s.isShowingTable = true → Option.Rel (fun f g => ∀ k : Nat, k < 25 * 80 →
    Cell.char (f k) = Cell.char (g k)) s.crtCopy t.crtCopy
  locked : s.locked = t.locked
  colors : s.color % 256 = 0 ∧ t.color % 256 = 0

/-- Run on consoles that are alike, `x` leaves them alike. -/
def Blind (x : TM Unit) : Prop := ∀ s t, Alike s t → wp₂ x x (fun _ s' _ t' => Alike s' t') s t

theorem Alike.store (h : Alike s t) {l l' : List (Int × Cell)} (hl : SameStores l l') :
    wp₂ (store l) (store l') (fun _ s' _ t' => Alike s' t') s t :=
  ⟨h.input, h.echo, h.table, h.pos, foldl_update_char h.chars hl, h.copy, h.locked, h.colors⟩

theorem blind_putCell {c : Nat} : Blind (putCell c) := by
  intro s t h
  refine wp₂_get ?_
  split
  · exact wp₂_pure h
  · refine h.store (.cons ⟨congrArg Nat.cast h.pos, ?_⟩ .nil)
    rw [char_or h.colors.1, char_or h.colors.2]

theorem Alike.scroll (h : Alike s t) (pos : Nat) : wp₂ (scroll pos) (scroll pos) (fun p s' q t' => p = q ∧ Alike s' t') s t := by
  rw [Console.scroll]
  split
  · refine wp₂_get (wp₂.bind (h.store (sameStores_map fun k hk => ⟨rfl, ?_⟩)) fun _ s₁ _ t₁ h₁ => ?_)
    · rw [List.mem_range] at hk
      exact h.chars (k + 80) (by omega)
    · refine wp₂.bind (h₁.store (sameStores_map fun k _ => ⟨rfl, rfl⟩)) fun _ s₂ _ t₂ h₂ => ?_
      exact wp₂_pure ⟨rfl, h₂⟩
  · exact wp₂_pure ⟨rfl, h⟩

theorem blind_cgaputc {c : Nat} : Blind (cgaputc c) := by
  intro s t h
  refine wp₂_get ?_
  rw [h.pos]
  refine wp₂.bind (blind_putCell s t h) fun _ s₁ _ t₁ h₁ => ?_
  refine wp₂.bind (Q := fun _ s' _ t' => Alike s' t') (wp₂_failIf Iff.rfl fun _ => h₁) fun _ s₂ _ t₂ h₂ => ?_
  refine wp₂.bind (h₂.scroll _) fun p s₃ q t₃ ⟨hpq, h₃⟩ => ?_
  subst hpq
  refine wp₂.bind (Q := fun _ s' _ t' => Alike s' t') (wp₂_modify ?_) fun _ s₄ _ t₄ h₄ => h₄.store (.cons ⟨rfl, rfl⟩ .nil)
  exact ⟨h₃.input, h₃.echo, h₃.table, rfl, h₃.chars, h₃.copy, h₃.locked, h₃.colors⟩

theorem blind_showTable : Blind showTable := by
  intro s t h
  refine wp₂_get (h.store ?_)
  rw [h.pos]
  refine List.rel_flatMap (R := Eq) (List.forall₂_same.2 fun _ _ => rfl) fun i i' hi => ?_
  subst hi
  exact sameStores_map fun j _ => ⟨rfl, char_tableCell _ _ i j⟩

theorem blind_holding {x : TM Unit} (hx : Blind x) : Blind (holding x) := by
  intro s t h
  refine wp₂.bind (Q := fun _ s' _ t' => Alike s' t') ?_ fun _ s₁ _ t₁ h₁ => wp₂.bind (hx _ _ h₁) fun _ s₂ _ t₂ h₂ => ?_
  · refine wp₂_get ?_
    refine wp₂.bind (Q := fun _ s' _ t' => Alike s' t') (wp₂_failIf (by rw [h.locked]) fun _ =>
      h) fun _ s₁ _ t₁ h₁ => wp₂_modify ?_
    exact ⟨h₁.input, h₁.echo, h₁.table, h₁.pos, h₁.chars, h₁.copy, rfl, h₁.colors⟩
  · exact ⟨h₂.input, h₂.echo, h₂.table, h₂.pos, h₂.chars, h₂.copy, rfl, h₂.colors⟩

theorem blind_killLine : ∀ n, Blind (killLine n)
  | 0 => fun _ _ h => wp₂_pure h
  | n + 1 => by
    intro s t h
    refine wp₂_get ?_
    rw [h.input]
    split
    · refine wp₂.bind (Q := fun _ s' _ t' => Alike s' t') (wp₂_modify ?_) fun _ s₁ _ t₁ h₁ => ?_
      · exact ⟨by rw [h.input], h.echo, h.table, h.pos, h.chars, h.copy, h.locked, h.colors⟩
      · exact wp₂.bind (blind_cgaputc _ _ h₁) fun _ s₂ _ t₂ h₂ => blind_killLine n _ _ h₂
    · exact wp₂_pure h

theorem blind_backspace : Blind backspace := by
  intro s t h
  refine wp₂_get ?_
  rw [h.input]
  split
  · refine wp₂.bind (Q := fun _ s' _ t' => Alike s' t') (wp₂_modify ?_) fun _ s₁ _ t₁ h₁ => blind_cgaputc _ _ h₁
    exact ⟨by rw [h.input], h.echo, h.table, h.pos, h.chars, h.copy, h.locked, h.colors⟩
  · exact wp₂_pure h

theorem blind_ordinary : Blind (ordinary c) := by
  intro s t h
  refine wp₂_get ?_
  rw [h.table, h.input, h.echo]
  split
  · refine wp₂.bind (Q := fun _ s' _ t' => Alike s' t') (wp₂_modify ?_) fun _ s₁ _ t₁ h₁ => blind_showTable _ _ h₁
    exact ⟨h.input, h.echo, h.table, h.pos, h.chars, h.copy, h.locked, h.colors⟩
  · split
    · refine wp₂.bind (Q := fun _ s' _ t' => Alike s' t') (wp₂_modify ?_) fun _ s₁ _ t₁ h₁ => blind_cgaputc _ _ h₁
      exact ⟨by rw [h.input], h.echo, h.table, h.pos, h.chars, h.copy, h.locked, h.colors⟩
    · exact wp₂_pure h

theorem selectableColors_mod {n d : Nat} (hd : d % 256 = 0) : selectableColors.getD n d % 256 = 0 := by
  match n with
  | 0 | 1 | 2 | 3 => simp [selectableColors]
  | n + 4 => exact hd

theorem blind_each {α : Type} {f : α → TM Unit} (hf : ∀ a, Blind (f a)) (l : List α) : Blind (each f l) :=
  fun _ _ h => wp₂_each h fun a _ => hf a

theorem blind_toggle : Blind (toggle mem) := by
  intro s t h
  cases hs : s.isShowingTable with
  | false =>
    have ht := h.table.symm.trans hs
    refine wp₂.bind (Q := fun _ s' _ t' => s' = { s with isShowingTable := true } ∧ t' = { t with isShowingTable := true })
      (wp₂_modify ⟨by rw [hs]; rfl, by rw [ht]; rfl⟩) ?_
    rintro _ _ _ _ ⟨rfl, rfl⟩
    refine wp₂_get (wp₂.bind (Q := fun _ s' _ t' => Alike s' t') ?_ fun _ s₁ _ t₁ h₁ => blind_showTable _ _ h₁)
    cases mem with
    | true => exact ⟨h.input, h.echo, rfl, h.pos, h.chars, fun _ => .some h.chars, h.locked, h.colors⟩
    | false =>
      refine wp₂.bind (Q := fun _ s' _ t' => Alike s' t') (wp₂_modify ?_) fun _ s₁ _ t₁ h₁ => ?_
      · exact ⟨h.input, h.echo, rfl, h.pos, h.chars, fun _ => .none, h.locked, h.colors⟩
      · exact blind_holding (blind_each (fun _ => blind_cgaputc) _) _ _ h₁
  | true =>
    have ht := h.table.symm.trans hs
    refine wp₂.bind (Q := fun _ s' _ t' => s' = { s with isShowingTable := false } ∧ t' = { t with isShowingTable := false })
      (wp₂_modify ⟨by rw [hs]; rfl, by rw [ht]; rfl⟩) ?_
    rintro _ _ _ _ ⟨rfl, rfl⟩
    refine wp₂_get (wp₂.bind (Q := fun _ s' _ t' => Alike s' t') (wp₂_get ?_) fun _ s₁ _ t₁ h₁ => wp₂_modify ?_)
    · have hcopy := h.copy hs
      dsimp only
      generalize s.crtCopy = f at hcopy
      generalize t.crtCopy = g at hcopy
      cases hcopy with
      | none => exact wp₂_throw _
      | @some f g hfg =>
        have hst : SameStores ((List.range (80 * 25)).map fun (k : Nat) => ((k : Int), f k))
            ((List.range (80 * 25)).map fun (k : Nat) => ((k : Int), g k)) := sameStores_map fun k hk =>
              ⟨rfl, hfg k (List.mem_range.1 hk)⟩
        have h₀ : Alike { s with isShowingTable := false, crtCopy := some f }
          { t with isShowingTable := false, crtCopy := some g } :=
          ⟨h.input, h.echo, rfl, h.pos, h.chars, fun h => absurd h Bool.false_ne_true, h.locked, h.colors⟩
        refine wp₂.bind (h₀.store hst) fun _ s₁ _ t₁ h₁ => wp₂_modify ?_
        exact ⟨h₁.input, h₁.echo, h₁.table, h₁.pos, h₁.chars, fun _ => .none, h₁.locked, h₁.colors⟩
    · exact ⟨h₁.input, h₁.echo, h₁.table, h₁.pos, h₁.chars, h₁.copy, h₁.locked,
        selectableColors_mod h₁.colors.1, selectableColors_mod h₁.colors.2⟩

theorem blind_key : Blind (key c mem) := by
  intro s t h
  rw [key]
  split
  · exact wp₂_pure h
  · split
    · refine wp₂_get ?_
      rw [h.input]
      exact blind_killLine _ _ _ h
    · split
      · exact blind_backspace _ _ h
      · split
        · exact blind_toggle _ _ h
        · exact blind_ordinary _ _ h

theorem blind_exec (op : Op) : Blind op.exec := by
  cases op with
  | key c mem => exact blind_holding (blind_each (fun _ => blind_key) _)
  | putc c => exact blind_holding (blind_each (fun _ => blind_cgaputc) _)
  | read killed target n =>
    intro s t h
    exact ⟨congrArg (fun inp : Input => (inp.read killed target n).2.2) h.input, h.echo, h.table, h.pos,
      h.chars, h.copy, h.locked, h.colors⟩
  | echo on =>
    intro s t h
    exact ⟨h.input, rfl, h.table, h.pos, h.chars, h.copy, h.locked, h.colors⟩

theorem blind_runOps (ops : List Op) : Blind (runOps ops) := blind_each blind_exec ops

/-! ### The table is open -/

/-- `s` shows the table over the screen of `t`. -/
structure Covered (s t : Tty) : Prop where
  input : s.input = t.input
  echo : s.consEcho = t.consEcho
  opened : s.isShowingTable = true
  closed : t.isShowingTable = false
  pos : s.pos = t.pos
  copy : ∃ f, s.crtCopy = some f ∧ ∀ k : Nat, k < 25 * 80 → Cell.char (f k) = (t.crt k).char
  unlocked : s.locked = false ∧ t.locked = false
  colors : s.color % 256 = 0 ∧ t.color % 256 = 0

theorem wp_holding {x : TM Unit} {Q : Unit → Tty → Prop} {E : Fault → Prop} (hl : s.locked = false)
    (h : wp x (fun _ s' => Q () { s' with locked := false }) E { s with locked := true }) : wp (holding x) Q E s :=
  wp_bind.2 (wp_of_ok (run_acquire hl) (wp_bind.2 h))

theorem exec_key : (Op.key c mem).exec = holding (key c mem) := congrArg holding each_singleton

theorem covered_of_open (hs : s.isShowingTable = false) (hl : s.locked = false) (hc : s.color % 256 = 0) {E : Fault → Prop} :
    wp (Op.key (ctl 'C') true).exec (fun _ s' => Covered s' s) E s := by
  rw [exec_key, key_toggle, toggle]
  refine wp_holding hl (wp_bind.2 ((wp_modify _).2 (wp_bind.2 (wp_get.2 ?_))))
  rw [if_pos (by rw [hs]; rfl)]
  refine wp_bind.2 ((wp_modify _).2 (wp.post showTable_spec ?_))
  rintro - s' ⟨hrest, -⟩
  rw [hrest]
  exact ⟨rfl, rfl, by rw [hs]; rfl, hs, rfl, ⟨_, rfl, fun _ _ => rfl⟩, ⟨rfl, hl⟩, hc, hc⟩

theorem Covered.key {E : Fault → Prop} (h : Covered s t) (hq : (Op.key c mem).Quiet) :
    wp (Op.key c mem).exec (fun _ s' => Covered s' t) E s := by
  rw [exec_key, key_redraws (s := s) ⟨h.opened, hq⟩, ordinary]
  refine wp_holding h.unlocked.1 (wp_bind.2 (wp_get.2 ?_))
  rw [if_pos h.opened]
  refine wp_bind.2 ((wp_modify _).2 (wp.post showTable_spec ?_))
  rintro - s' ⟨hrest, -⟩
  rw [hrest]
  exact ⟨h.input, h.echo, h.opened, h.closed, h.pos, h.copy, ⟨rfl, h.unlocked.2⟩, h.colors⟩

theorem alike_of_close (h : Covered s t) {E : Fault → Prop} : wp (Op.key (ctl 'C') mem).exec (fun _ s' => Alike s' t) E s := by
  rw [exec_key, key_toggle, toggle]
  refine wp_holding h.unlocked.1 (wp_bind.2 ((wp_modify _).2 (wp_bind.2 (wp_get.2 ?_))))
  rw [if_neg (by rw [h.opened]; exact Bool.false_ne_true)]
  obtain ⟨f, hf, hchars⟩ := h.copy
  refine wp_bind.2 ?_
  rw [restoreCrt]
  refine wp_bind.2 (wp_get.2 ?_)
  dsimp only
  rw [hf]
  refine wp_bind.2 (wp_store.2 ((wp_modify _).2 ((wp_modify _).2 ?_)))
  refine ⟨h.input, h.echo, ?_, h.pos, fun k hk => ?_, fun ho => ?_, h.unlocked.2.symm,
    selectableColors_mod h.colors.1, h.colors.2⟩
  · rw [h.closed, h.opened]
    rfl
  · rw [← hchars k hk]
    dsimp only
    rw [foldl_update_range (by omega)]
  · rw [h.opened] at ho
    cases ho

theorem Covered.run {mid : List Op} (h : Covered s t) (hq : ∀ op ∈ mid, op.Quiet) :
    wp₂ (runOps mid) (runOps (mid.filter fun op => !op.isKey)) (fun _ s' _ t' => Covered s' t') s t := by
  induction mid generalizing s t with
  | nil => exact h
  | cons op mid ih =>
    have hq₁ := hq op (List.mem_cons_self ..)
    have hq₂ : ∀ op ∈ mid, op.Quiet := fun o ho => hq o (List.mem_cons_of_mem op ho)
    cases op with
    | key c mem =>
      obtain ⟨_, s₁, hr, h₁⟩ := (h.key (E := fun _ => False) hq₁).exists_ok
      exact wp₂_left hr (ih h₁ hq₂)
    | putc c => exact hq₁.elim
    | read killed target n =>
      refine wp₂.bind (Q := fun _ s' _ t' => Covered s' t') (wp₂_modify ?_) fun _ s₁ _ t₁ h₁ => ih h₁ hq₂
      exact ⟨congrArg (fun inp : Input => (inp.read killed target n).2.2) h.input, h.echo, h.opened,
        h.closed, h.pos, h.copy, h.unlocked, h.colors⟩
    | echo on =>
      refine wp₂.bind (Q := fun _ s' _ t' => Covered s' t') (wp₂_modify ?_) fun _ s₁ _ t₁ h₁ => ih h₁ hq₂
      exact ⟨h.input, rfl, h.opened, h.closed, h.pos, h.copy, h.unlocked, h.colors⟩

/-! ### The two runs -/

theorem Alike.refl (hc : s.color % 256 = 0) : Alike s s := by
  refine ⟨rfl, rfl, rfl, rfl, fun _ _ => rfl, fun _ => ?_, rfl, hc, hc⟩
  cases s.crtCopy with
  | none => exact .none
  | some f => exact .some fun _ _ => rfl

theorem keeps_exec (op : Op) : Keeps SameLock op.exec := by
  cases op with
  | key c mem => exact keeps_holding (.each (fun _ => keeps_key) _)
  | putc c => exact keeps_holding (.each (fun _ => keeps_cgaputc) _)
  | read killed target n => exact fun _ => rfl
  | echo on => exact fun _ => rfl

/-- If there is a page for the copy and nothing is printed while the table is open, the run with the
table and the run without it have the same screen from the closing on. -/
theorem table_invisible {before mid after : List Op} (hl : s.locked = false) (hc : s.color % 256 = 0)
    (hb : (runOps before).run s = .ok ((), s')) (ho : s'.isShowingTable = false) (hq : ∀ op ∈ mid, op.Quiet) :
    SameRuns (runOps (before ++ .key (ctl 'C') true :: (mid ++ .key (ctl 'C') mem :: after)))
      (runOps (before ++ (mid.filter (fun op => !op.isKey) ++ after))) s := by
  have hl' : s'.locked = false := (Keeps.of_ok (Keeps.each keeps_exec before) hb).trans hl
  have hc' : s'.color % 256 = 0 := ((wp₂_of_ok hb hb).1 (blind_runOps before s s (.refl hc))).colors.1
  rw [SameRuns, runOps, runOps, each_append, each_append]
  refine wp₂.bind ((wp₂_of_ok (Q := fun _ s₁ _ t₁ => s₁ = s' ∧ t₁ = s') hb hb).2 ⟨rfl, rfl⟩) ?_
  rintro _ _ _ _ ⟨rfl, rfl⟩
  obtain ⟨_, s₁, hopen, h₁⟩ := (covered_of_open (E := fun _ => False) ho hl' hc').exists_ok
  refine wp₂_left hopen ?_
  rw [each_append, each_append]
  refine wp₂.bind (h₁.run hq) fun _ s₂ _ t₂ h₂ => ?_
  obtain ⟨_, s₃, hclose, h₃⟩ := (alike_of_close (E := fun _ => False) h₂).exists_ok
  exact wp₂_left hclose (wp₂.post (blind_runOps after s₃ t₂ h₃) fun _ _ _ _ h => ⟨h.pos, h.chars⟩)

/-- Two presses while the table is open. -/
theorem table_invisible_two_presses : SameRuns
    (runOps ([] ++ .key (ctl 'C') true :: ([.key (chr 's') true, .key (chr 'w') true] ++ .key (ctl 'C')
      true :: [.putc (chr 'x')])))
    (runOps ([] ++ ([Op.key (chr 's') true, .key (chr 'w') true].filter (fun op => !op.isKey) ++
      [.putc (chr 'x')]))) (blank 800) := by
  refine table_invisible rfl rfl rfl rfl fun op hop => ?_
  rcases List.mem_cons.1 hop with rfl | hop
  · exact ⟨by decide, by decide, by decide, by decide, by decide⟩
  · rw [List.mem_singleton.1 hop]
    exact ⟨by decide, by decide, by decide, by decide, by decide⟩

/-- A character printed while the table is open is gone after closing it, but the cursor has moved. -/
theorem table_swallows_output :
    let shown := (runOps [.key (ctl 'C') true, .putc (chr 'x'), .key (ctl 'C') true]).final (blank 800)
    let plain := (runOps [.putc (chr 'x')]).final (blank 800)
    shown.pos = 801 ∧ plain.pos = 801 ∧ (shown.crt 800).char = 0 ∧ (plain.crt 800).char = chr 'x' := by
  decide +kernel

end Xv6.Console
