import Xv6.Screen

/-!
# Where the console draws

Characters always stay on the screen. The colour table is drawn in the nine rows above the cursor, so it
leaves the screen at the top exactly if there are fewer; and if there is no page for the copy of the
screen, `copy_crt` prints while `cons.lock` is held. All other stores are in range in every run.
-/

namespace Xv6.Console

open Prog

variable {s s' : Tty} {c : Byte} {mem : Bool} {E : Fault → Prop}

/-! ### Statement -/

structure Safe (s : Tty) : Prop where
  written : ∀ i ∈ s.written, OnScreen i
  cursor : s.pos < 24 * 80
  row : 0 ≤ s.selectedRow ∧ s.selectedRow < 4

structure Start (s : Tty) : Prop where
  cursor : s.pos < 24 * 80
  row : s.selectedRow = 0
  closed : s.isShowingTable = false
  copy : s.crtCopy = none
  unlocked : s.locked = false
  written : s.written = []

inductive SafeRun : Tty → List Op → Prop
  | nil {s : Tty} (h : Safe s) : SafeRun s []
  | cons {s s' : Tty} {op : Op} {ops : List Op} (h : Safe s) (hr : op.exec.run s = .ok ((), s'))
      (hs : SafeRun s' ops) : SafeRun s (op :: ops)

def Opens (s : Tty) (c : Byte) : Prop := s.isShowingTable = false ∧ c = ctl 'C'

def Redraws (s : Tty) (c : Byte) : Prop :=
  s.isShowingTable = true ∧ c ≠ ctl 'P' ∧ c ≠ ctl 'U' ∧ c ≠ ctl 'H' ∧ c ≠ chr '\x7f' ∧ c ≠ ctl 'C'

def Fits (s : Tty) : Op → Prop
  | .key c mem => (Opens s c → mem = true) ∧ (Opens s c ∨ Redraws s c → 9 * 80 ≤ s.pos)
  | _ => True

/-! ### The table -/

theorem tableStart_low {pos : Nat} (h : pos < 9 * 80) : tableStart pos = pos - 9 * 80 := by
  have htmod : ((pos : Int) - 9 * 80).tmod 80 = -((9 * 80 - (pos : Int)) % 80) := by
    rw [← Int.tmod_eq_emod_of_nonneg (by omega), ← Int.neg_tmod, Int.neg_sub]
  rw [tableStart, htmod, if_neg (by omega)]

theorem tableStart_high {pos : Nat} (h : 9 * 80 ≤ pos) : 0 ≤ tableStart pos ∧ tableStart pos ≤ pos - 9 * 80 := by
  have htmod : ((pos : Int) - 9 * 80).tmod 80 = ((pos : Int) - 9 * 80) % 80 := Int.tmod_eq_emod_of_nonneg (by omega)
  rw [tableStart, htmod]
  split <;> omega

theorem mem_showTable {i : Int} {row : Int} {p : Int} :
    i ∈ ((List.range 9).flatMap fun (i : Nat) => (List.range 9).map fun (j : Nat) =>
      (p + 80 * i + j, tableCell row i j)).map Prod.fst ↔
      ∃ a b : Nat, a < 9 ∧ b < 9 ∧ i = p + 80 * a + b := by
  simp only [List.map_flatMap, List.map_map, List.mem_flatMap, List.mem_map, List.mem_range, Function.comp_apply]
  constructor
  · rintro ⟨a, ha, b, hb, rfl⟩
    exact ⟨a, b, ha, hb, rfl⟩
  · rintro ⟨a, b, ha, hb, rfl⟩
    exact ⟨a, ha, b, hb, rfl⟩

theorem showTable_spec : wp showTable (fun _ s' => s' = { s with crt := s'.crt, written := s'.written } ∧
    tableStart s.pos ∈ s'.written ∧ (9 * 80 ≤ s.pos → s.pos < 24 * 80 → ∀ i ∈ s'.written, i ∈ s.written ∨ OnScreen i)) E s := by
  rw [showTable]
  refine wp_bind.2 (wp_get.2 (wp_store.2 ⟨rfl, ?_, fun h1 h2 i hi => ?_⟩))
  · refine List.mem_append.2 (.inl (mem_showTable.2 ⟨0, 0, by omega, by omega, by omega⟩))
  · rcases List.mem_append.1 hi with hi | hi
    · obtain ⟨a, b, ha, hb, rfl⟩ := mem_showTable.1 hi
      have := tableStart_high h1
      exact .inr ⟨by omega, by omega⟩
    · exact .inl hi

/-! ### One key -/

theorem killLine_spec {n : Nat} (hp : s.pos < 24 * 80) : wp (killLine n)
    (fun _ s' => Drawn { s with input := s.input.killLine n } s') E s := by
  induction n generalizing s with
  | zero => exact ⟨rfl, fun i hi => .inl hi, hp⟩
  | succ n ih =>
    rw [killLine, Input.killLine]
    refine wp_bind.2 (wp_get.2 ?_)
    split
    · refine wp_bind.2 ((wp_modify _).2 (wp.bind (cgaputc_spec hp) fun _ s₁ h₁ => ?_))
      refine wp.post (ih h₁.pos) fun _ s' h' => ?_
      have hin : s₁.input = { s.input with e := s.input.e - 1 } := by
        rw [h₁.rest]
      refine ⟨?_, fun i hi => ?_, h'.pos⟩
      · rw [h'.rest, hin, h₁.rest]
      · rcases h'.written i hi with hi | hi
        · exact h₁.written i hi
        · exact .inr hi
    · exact ⟨rfl, fun i hi => .inl hi, hp⟩

theorem backspace_spec (hp : s.pos < 24 * 80) : wp backspace
    (fun _ s' => Drawn { s with input := s.input.backspace } s') E s := by
  rw [backspace, Input.backspace]
  refine wp_bind.2 (wp_get.2 ?_)
  split
  · exact wp_bind.2 ((wp_modify _).2 (cgaputc_spec hp))
  · exact ⟨rfl, fun i hi => .inl hi, hp⟩

theorem ordinary_closed (hp : s.pos < 24 * 80) (hc : s.isShowingTable = false) : wp (ordinary c) (fun _ s' =>
    Drawn { s with
      input := if c ≠ 0 ∧ s.input.e - s.input.r < BitVec.ofNat 32 INPUT_BUF then (s.input.put c).1
        else s.input } s') E s := by
  rw [ordinary]
  refine wp_bind.2 (wp_get.2 ?_)
  rw [if_neg (by rw [hc]; exact Bool.false_ne_true)]
  split
  · exact wp_bind.2 ((wp_modify _).2 (cgaputc_spec hp))
  · exact ⟨rfl, fun i hi => .inl hi, hp⟩

structure Steady (s : Tty) : Prop extends Safe s where
  copy : s.isShowingTable = true → s.crtCopy ≠ none

theorem Steady.drawn {inp : Input} (hs : Steady s) (h : Drawn { s with input := inp } s') : Steady s' ∧ s'.locked = s.locked := by
  refine ⟨⟨⟨fun i hi => ?_, h.pos, ?_⟩, ?_⟩, ?_⟩
  · rcases h.written i hi with hi | hi
    · exact hs.written i hi
    · exact hi
  all_goals rw [h.rest]
  · exact hs.row
  · exact hs.copy

theorem Steady.drawTable (hs : Steady s) (hp : 9 * 80 ≤ s.pos) : wp showTable
    (fun _ s' => Steady s' ∧ s'.locked = s.locked) E s := by
  refine wp.post showTable_spec fun _ s' ⟨hrest, _, hw⟩ => ?_
  exact hs.drawn ⟨by rw [hrest], hw hp hs.cursor, by rw [hrest]; exact hs.cursor⟩

theorem moveRow_bounds {row : Int} (h : 0 ≤ row ∧ row < 4) : 0 ≤ moveRow row c ∧ moveRow row c < 4 := by
  unfold moveRow
  split
  · split <;> omega
  · split
    · split <;> omega
    · exact h

theorem key_toggle : key (ctl 'C') mem = toggle mem := by
  rw [key, if_neg (by decide), if_neg (by decide), if_neg (by decide), if_pos rfl]

theorem key_redraws (h : Redraws s c) : key c mem = ordinary c := by
  obtain ⟨-, hP, hU, hH, hD, hC⟩ := h
  rw [key, if_neg hP, if_neg hU, if_neg (not_or.2 ⟨hH, hD⟩), if_neg hC]

theorem toggle_fits (hs : Steady s) (hm : s.isShowingTable = false → mem = true ∧ 9 * 80 ≤ s.pos) :
    wp (toggle mem) (fun _ s' => Steady s' ∧ s'.locked = s.locked) E s := by
  rw [toggle]
  refine wp_bind.2 ((wp_modify _).2 (wp_bind.2 (wp_get.2 ?_)))
  cases hshow : s.isShowingTable with
  | false =>
    obtain ⟨rfl, hp⟩ := hm hshow
    have hs₁ : Steady { s with isShowingTable := true, crtCopy := some fun k => s.crt k } :=
      ⟨⟨hs.written, hs.cursor, hs.row⟩, fun _ => Option.some_ne_none _⟩
    exact wp_bind.2 (hs₁.drawTable (E := E) hp)
  | true =>
    obtain ⟨copy, hcopy⟩ := Option.ne_none_iff_exists'.1 (hs.copy hshow)
    refine wp_bind.2 ?_
    rw [restoreCrt]
    refine wp_bind.2 (wp_get.2 ?_)
    rw [hcopy]
    refine wp_bind.2 (wp_store.2 ((wp_modify _).2 ((wp_modify _).2 ⟨⟨⟨fun i hi => ?_, hs.cursor, hs.row⟩, fun h => ?_⟩, rfl⟩)))
    · rcases List.mem_append.1 hi with hi | hi
      · simp only [List.map_map, List.mem_map, List.mem_range, Function.comp_apply] at hi
        obtain ⟨k, hk, rfl⟩ := hi
        exact ⟨by omega, by omega⟩
      · exact hs.written i hi
    · cases h

theorem ordinary_fits (hs : Steady s) (hm : s.isShowingTable = true → 9 * 80 ≤ s.pos) :
    wp (ordinary c) (fun _ s' => Steady s' ∧ s'.locked = s.locked) E s := by
  cases hshow : s.isShowingTable with
  | false => exact wp.post (ordinary_closed hs.cursor hshow) fun _ _ h => hs.drawn h
  | true =>
    rw [ordinary]
    refine wp_bind.2 (wp_get.2 ?_)
    rw [if_pos hshow]
    have hs₁ : Steady { s with selectedRow := moveRow s.selectedRow c } :=
      ⟨⟨hs.written, hs.cursor, moveRow_bounds hs.row⟩, hs.copy⟩
    exact wp_bind.2 ((wp_modify _).2 (hs₁.drawTable (hm hshow)))

theorem key_fits (hs : Steady s) (hf : Fits s (.key c mem)) : wp (key c mem)
    (fun _ s' => Steady s' ∧ s'.locked = s.locked) E s := by
  obtain ⟨hmem, hpos⟩ := hf
  rw [key]
  by_cases hP : c = ctl 'P'
  · rw [if_pos hP]
    exact ⟨hs, rfl⟩
  rw [if_neg hP]
  by_cases hU : c = ctl 'U'
  · rw [if_pos hU]
    exact wp_bind.2 (wp_get.2 (wp.post (killLine_spec hs.cursor) fun _ _ h => hs.drawn h))
  rw [if_neg hU]
  by_cases hH : c = ctl 'H' ∨ c = chr '\x7f'
  · rw [if_pos hH]
    exact wp.post (backspace_spec hs.cursor) fun _ _ h => hs.drawn h
  rw [if_neg hH]
  by_cases hC : c = ctl 'C'
  · rw [if_pos hC]
    exact toggle_fits hs fun h => ⟨hmem ⟨h, hC⟩, hpos (.inl ⟨h, hC⟩)⟩
  · rw [if_neg hC]
    exact ordinary_fits hs fun h => hpos (.inr ⟨h, hP, hU, fun h => hH (.inl h), fun h => hH (.inr h), hC⟩)

theorem showTable_leaves (hp : s.pos < 9 * 80) : wp showTable (fun _ s' => ¬ Safe s') E s := by
  refine wp.post showTable_spec fun _ s' ⟨_, hw, _⟩ hsafe => ?_
  have := (hsafe.written _ hw).1
  rw [tableStart_low hp] at this
  omega

theorem key_unfit (hl : s.locked = true) (hf : ¬ Fits s (.key c mem)) : wp (key c mem)
    (fun _ s' => ¬ Safe s') (fun _ => True) s := by
  by_cases ho : Opens s c
  · obtain ⟨hshow, rfl⟩ := ho
    rw [key_toggle, toggle]
    refine wp_bind.2 ((wp_modify _).2 (wp_bind.2 (wp_get.2 ?_)))
    rw [if_pos (by rw [hshow]; rfl)]
    cases mem with
    | false =>
      -- `cprintf` takes the lock again
      refine wp_bind.2 ?_
      rw [copyCrt, cprintf, acquire]
      exact wp_bind.2 ((wp_modify _).2 (wp_bind.2
        (wp_bind.2 (wp_get.2 (wp_bind.2 (wp_failIf.2 ⟨fun _ => trivial, fun h => absurd hl h⟩))))))
    | true =>
      refine wp_bind.2 ((wp_modify _).2 (showTable_leaves ?_))
      by_contra hp
      exact hf ⟨fun _ => rfl, fun _ => Nat.le_of_not_lt hp⟩
  · have hre : Redraws s c ∧ s.pos < 9 * 80 := by
      by_contra h
      refine hf ⟨fun h => absurd h ho, fun h' => ?_⟩
      by_contra hp
      exact h ⟨h'.resolve_left ho, by omega⟩
    rw [key_redraws hre.1, ordinary]
    refine wp_bind.2 (wp_get.2 ?_)
    rw [if_pos hre.1.1]
    exact wp_bind.2 ((wp_modify _).2 (showTable_leaves hre.2))

/-! ### Characters are handled one by one -/

def SameLock (s s' : Tty) : Prop := s'.locked = s.locked

instance : Std.Refl SameLock := ⟨fun _ => rfl⟩

instance : IsTrans Tty SameLock := ⟨fun _ _ _ h h' => h'.trans h⟩

/-- `x` with `cons.lock` held. -/
def holding (x : TM Unit) : TM Unit := do
  acquire
  x
  release

theorem run_acquire (hl : s.locked = false) : acquire.run s = .ok ((), { s with locked := true }) := by
  have h : wp acquire (fun _ s' => s' = { s with locked := true }) (fun _ => False) s := by
    rw [acquire]
    refine wp_bind.2 (wp_get.2 (wp_bind.2 (wp_failIf.2 ⟨fun h => ?_, fun _ => rfl⟩)))
    rw [hl] at h
    cases h
  obtain ⟨_, _, hr, rfl⟩ := h.exists_ok
  exact hr

theorem run_holding {x : TM Unit} (hl : s.locked = false) : (holding x).run s = (x >>= fun _ =>
    release).run { s with locked := true } := by
  rw [holding, StateT.run_bind, run_acquire hl]
  rfl

theorem keeps_store {l : List (Int × Cell)} : Keeps SameLock (store l) := fun _ => rfl

theorem keeps_cgaputc {c : Nat} : Keeps SameLock (cgaputc c) := by
  refine .bind .get fun s => .bind (.bind .get fun s => .ite (.pure ()) keeps_store) fun _ =>
    .bind .failIf fun _ => .bind ?_ fun p =>
    .bind (fun _ => rfl) fun _ => keeps_store
  exact .ite (.bind .get fun s => .bind keeps_store fun _ => .bind keeps_store fun _ => .pure _) (.pure _)

theorem keeps_holding {x : TM Unit} (hx : Keeps SameLock x) : Keeps SameLock (holding x) := by
  intro s
  rw [holding, acquire]
  refine wp_bind.2 (wp_bind.2 (wp_get.2 (wp_bind.2 (wp_failIf.2 ⟨fun _ => trivial, fun h => (wp_modify _).2 ?_⟩))))
  exact wp.bind (hx _) fun _ s' _ => (eq_false_of_ne_true h).symm

theorem keeps_killLine : ∀ n, Keeps SameLock (killLine n)
  | 0 => .pure ()
  | n + 1 => .bind .get fun _ => .ite (.bind (fun _ => rfl) fun _ => .bind keeps_cgaputc fun _ => keeps_killLine n) (.pure ())

theorem keeps_key : Keeps SameLock (key c mem) := by
  have hshow : Keeps SameLock showTable := .bind .get fun _ => keeps_store
  refine .ite (.pure ()) (.ite (.bind .get fun _ => keeps_killLine _) (.ite ?_ (.ite ?_ ?_)))
  · exact .bind .get fun _ => .ite (.bind (fun _ => rfl) fun _ => keeps_cgaputc) (.pure ())
  · refine .bind (fun _ => rfl) fun _ => .bind .get fun _ =>
      .ite (.bind (.ite (fun _ => rfl) (.bind (fun _ => rfl) fun _ => ?_)) fun _ => hshow)
      (.bind (.bind .get fun s => ?_) fun _ _ => rfl)
    · exact keeps_holding (.each (fun _ => keeps_cgaputc) _)
    · cases s.crtCopy with
      | none => exact .throw _
      | some copy => exact .bind keeps_store fun _ _ => rfl
  · exact .bind .get fun _ => .ite (.bind (fun _ => rfl) fun _ =>
      hshow) (.ite (.bind (fun _ => rfl) fun _ => keeps_cgaputc) (.pure ()))

theorem run_holding_each {α : Type} {f : α → TM Unit} (hf : ∀ a, Keeps SameLock (f a)) {l : List α} (hl : s.locked = false) :
    (holding (each f l)).run s = (each (fun a => holding (f a)) l).run s := by
  induction l generalizing s with
  | nil =>
    rw [run_holding hl]
    obtain ⟨_, _, _, _, _, _, _, _, locked, _⟩ := s
    obtain rfl : locked = false := hl
    rfl
  | cons a l ih =>
    have hleft : (holding (each f (a :: l))).run s = (f a >>= fun _ => each f l >>= fun _ =>
      release).run { s with locked := true } := by
      rw [run_holding hl, each, bind_assoc]
    have hright : (each (fun a => holding (f a)) (a :: l)).run s =
        (f a >>= fun _ => release >>= fun _ => each (fun a => holding (f a)) l).run { s with locked := true } := by
      rw [each, StateT.run_bind, run_holding hl]
      conv_rhs => rw [← bind_assoc, StateT.run_bind]
    rw [hleft, hright]
    refine run_bind_congr (hf a _) fun _ s' h => ?_
    have hs' : { { s' with locked := false } with locked := true } = s' := by
      obtain ⟨_, _, _, _, _, _, _, _, locked, _⟩ := s'
      obtain rfl : locked = true := h
      rfl
    have := ih (s := { s' with locked := false }) rfl
    rw [run_holding rfl, hs'] at this
    exact this

theorem consoleintr_eq_runOps {cs : List (Byte × Bool)} (hl : s.locked = false) :
    (consoleintr cs).run s = (runOps (cs.map fun p => .key p.1 p.2)).run s := by
  refine (run_holding_each (fun _ => keeps_key) hl).trans (congrArg (fun x : TM Unit => x.run s) ?_)
  induction cs with
  | nil => rfl
  | cons p cs ih =>
    have hone : (Op.key p.1 p.2).exec = holding (key p.1 p.2) := congrArg holding each_singleton
    rw [each, ih, ← hone]
    rfl

theorem consolewrite_eq_runOps {bs : List Byte} (hl : s.locked = false) :
    (consolewrite bs).run s = (runOps (bs.map .putc)).run s := by
  refine (run_holding_each (fun _ => keeps_cgaputc) hl).trans (congrArg (fun x : TM Unit => x.run s) ?_)
  induction bs with
  | nil => rfl
  | cons b bs ih =>
    have hone : (Op.putc b).exec = holding (cgaputc b.toNat) := congrArg holding each_singleton
    rw [each, ih, ← hone]
    rfl

/-! ### Whole runs -/

theorem exec_fits {op : Op} (hs : Steady s) (hl : s.locked = false) (hf : Fits s op) :
    wp op.exec (fun _ s' => Steady s' ∧ s'.locked = false) E s := by
  have hlock : Steady { s with locked := true } := ⟨⟨hs.written, hs.cursor, hs.row⟩, hs.copy⟩
  have hacq : wp acquire (fun _ s' => s' = { s with locked := true }) E s := by
    rw [acquire]
    refine wp_bind.2 (wp_get.2 (wp_bind.2 (wp_failIf.2 ⟨fun h => ?_, fun _ => rfl⟩)))
    rw [hl] at h
    cases h
  cases op with
  | key c mem =>
    refine wp.bind hacq ?_
    rintro _ _ rfl
    rw [each_singleton]
    refine wp.bind (key_fits hlock hf) fun _ s' h => ?_
    exact ⟨⟨⟨h.1.written, h.1.cursor, h.1.row⟩, h.1.copy⟩, rfl⟩
  | putc b =>
    refine wp.bind hacq ?_
    rintro _ _ rfl
    rw [each_singleton]
    refine wp.bind (cgaputc_spec hs.cursor) fun _ s' h => ?_
    have h₁ := hlock.drawn h
    exact ⟨⟨⟨h₁.1.written, h₁.1.cursor, h₁.1.row⟩, h₁.1.copy⟩, rfl⟩
  | read killed target n => exact ⟨⟨⟨hs.written, hs.cursor, hs.row⟩, hs.copy⟩, hl⟩
  | echo on => exact ⟨⟨⟨hs.written, hs.cursor, hs.row⟩, hs.copy⟩, hl⟩

theorem exec_unfit {op : Op} (hf : ¬ Fits s op) : wp op.exec (fun _ s' => ¬ Safe s') (fun _ => True) s := by
  cases op with
  | key c mem =>
    refine wp_bind.2 ?_
    rw [acquire]
    refine wp_bind.2 (wp_get.2 (wp_bind.2 (wp_failIf.2 ⟨fun _ => trivial, fun _ => (wp_modify _).2 ?_⟩)))
    have hf' : ¬ Fits { s with locked := true } (.key c mem) := hf
    rw [each_singleton]
    refine wp.bind (key_unfit rfl hf') fun _ s' h hsafe => ?_
    exact h ⟨hsafe.written, hsafe.cursor, hsafe.row⟩
  | putc b => exact absurd trivial hf
  | read killed target n => exact absurd trivial hf
  | echo on => exact absurd trivial hf

def FitsRun (s : Tty) (ops : List Op) : Prop :=
  ∀ pre op post s', ops = pre ++ op :: post → (runOps pre).run s = .ok ((), s') → Fits s' op

theorem runOps_cons {op : Op} {ops : List Op} (hr : op.exec.run s = .ok ((), s')) :
    (runOps (op :: ops)).run s = (runOps ops).run s' := by
  rw [runOps, each, StateT.run_bind, hr]
  rfl

theorem fitsRun_nil : FitsRun s [] :=
  fun _ _ _ _ he => absurd he.symm (List.append_ne_nil_of_right_ne_nil _ (List.cons_ne_nil _ _))

theorem fitsRun_cons {op : Op} {ops : List Op} (hr : op.exec.run s = .ok ((), s')) : FitsRun s
    (op :: ops) ↔ Fits s op ∧ FitsRun s' ops := by
  constructor
  · intro h
    refine ⟨h [] op ops s rfl rfl, fun pre o post t he ht => h (op :: pre) o post t (by rw [he]; rfl) ?_⟩
    rwa [runOps_cons hr]
  · rintro ⟨h, hs⟩ pre o post t he ht
    cases pre with
    | nil =>
      obtain ⟨rfl, -⟩ := List.cons.inj he
      cases ht
      exact h
    | cons p pre =>
      obtain ⟨rfl, he'⟩ := List.cons.inj he
      rw [runOps_cons hr] at ht
      exact hs pre o post t he' ht

theorem SafeRun.safe {ops : List Op} (h : SafeRun s ops) : Safe s := by
  cases h with
  | nil h => exact h
  | cons h _ _ => exact h

theorem safeRun_iff {ops : List Op} (hs : Steady s) (hl : s.locked = false) : SafeRun s ops ↔ FitsRun s ops := by
  induction ops generalizing s with
  | nil => exact iff_of_true (.nil hs.toSafe) fitsRun_nil
  | cons op ops ih =>
    by_cases hf : Fits s op
    · obtain ⟨_, s', hr, hs', hl'⟩ := (exec_fits (E := fun _ => False) hs hl hf).exists_ok
      rw [fitsRun_cons hr, ← ih hs' hl']
      constructor
      · intro h
        cases h with
        | cons _ hr' h =>
          rw [hr] at hr'
          cases hr'
          exact ⟨hf, h⟩
      · exact fun h => .cons hs.toSafe hr h.2
    · refine iff_of_false (fun h => ?_) fun h => hf (h [] op ops s rfl rfl)
      cases h with
      | cons _ hr h => exact (exec_unfit hf).of_ok hr h.safe

/-- Drawing stays on the screen, and nothing faults, exactly in the runs in which the table is only
drawn with the cursor in row 9 or below and only opened when there is a page for the copy. -/
theorem console_safe_iff {ops : List Op} (h : Start s) : SafeRun s ops ↔ FitsRun s ops := by
  refine safeRun_iff ⟨⟨fun i hi => ?_, h.cursor, by rw [h.row]; decide⟩, fun ho => ?_⟩ h.unlocked
  · rw [h.written] at hi
    exact absurd hi List.not_mem_nil
  · rw [h.closed] at ho
    cases ho

/-- A screen without text and with the cursor at `pos`. -/
def blank (pos : Nat) : Tty where
  input := ⟨fun _ => 0, 0, 0, 0⟩
  consEcho := true
  isShowingTable := false
  selectedRow := 0
  color := ((0 <<< 4) ||| 15) <<< 8
  crt _ := 0
  pos := pos
  crtCopy := none
  locked := false
  written := []

theorem start_blank {pos : Nat} (h : pos < 24 * 80) : Start (blank pos) := ⟨h, rfl, rfl, rfl, rfl, rfl⟩

/-- In row 9 the table can be opened and closed. -/
theorem safeRun_row_nine : SafeRun (blank (9 * 80)) [.key (ctl 'C') true, .key (ctl 'C') true] := by
  refine (console_safe_iff (start_blank (by decide))).2 ?_
  have hopen : (Op.key (ctl 'C') true).exec.result (blank (9 * 80)) = some () := by decide +kernel
  refine (fitsRun_cons (run_eq_final hopen)).2 ⟨⟨fun _ => rfl, fun _ => Nat.le_refl _⟩, ?_⟩
  have hpos : ((Op.key (ctl 'C') true).exec.final (blank (9 * 80))).pos = 9 * 80 := by decide +kernel
  have hclose : (Op.key (ctl 'C') true).exec.result ((Op.key (ctl 'C') true).exec.final
    (blank (9 * 80))) = some () := by decide +kernel
  refine (fitsRun_cons (run_eq_final hclose)).2 ⟨⟨fun _ => rfl, fun _ => by rw [hpos]⟩, fitsRun_nil⟩

/-- In the first row the table is drawn above the screen, and without a page for the copy `copy_crt` takes the lock again. -/
theorem table_leaves_screen : Start (blank 0) ∧ (-720 ∈ ((consoleintr [(ctl 'C', true)]).final (blank 0)).written) ∧
    Start (blank 800) ∧ (consoleintr [(ctl 'C', false)]).run (blank 800) = .error (.panic "acquire") :=
  ⟨start_blank (by decide), by decide +kernel, start_blank (by decide), rfl⟩

end Xv6.Console
