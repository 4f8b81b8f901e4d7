import Xv6.Log
import Xv6.Lts
import Xv6.Tally

/-!
# Who is let into the log (`begin_op`, `log_write`, `end_op`)

`end_op` takes `log.lock` twice, with the commit in between and outside the lock; `log_write` makes its
tests before it takes the lock. `AdmSys` interleaves any number of processes at these points. The
counter `outstanding` is the number of processes inside a bracket, and `committing` the number of those
between the two critical sections of `end_op` (`Admission`).
-/

namespace Xv6

open Prog Function

variable {sb : Superblock} {n : Nat}

/-! ### Critical sections -/

/-- The tests of `log_write`, made without the lock. -/
def logTest (sb : Superblock) : DevM Unit := do
  let l := (← get).log
  failIf (LOGSIZE ≤ l.lh.length ∨ sb.nlog ≤ l.lh.length + 1) (.panic "too big a transaction")
  failIf (l.outstanding < 1) (.panic "log_write outside of trans")

/-- `log_write` with the lock held. -/
def logEnter (b : Nat) : DevM Unit := modify fun s => { s with log := { s.log with lh := absorb s.log.lh b } }

theorem logWrite_eq (b : Nat) : logWrite sb b = (do logTest sb; logEnter b) := by
  simp only [logWrite, logTest, bind_assoc]
  rfl

/-- `end_op` up to the first release of the lock: whether the caller has to commit. -/
def endEnter : DevM Bool := do
  modify fun s => { s with log := { s.log with outstanding := s.log.outstanding - 1 } }
  let l := (← get).log
  failIf (l.committing = true) (.panic "log.committing")
  if l.outstanding = 0 then do
    setCommitting true
    pure true
  else pure false

theorem endOp_eq : endOp sb = (do if ← endEnter then do commit sb; setCommitting false else pure ()) := by
  simp only [endOp, endEnter, bind_assoc]
  refine bind_congr fun _ => bind_congr fun d => bind_congr fun _ => ?_
  split <;> simp

theorem beginOp_cases (s : Dev) : wp beginOp
    (fun _ s' => s.log.committing = false ∧ s.log.lh.length + (s.log.outstanding + 1) * MAXOPBLOCKS ≤ (LOGSIZE : Int) ∧
      s' = { s with log := { s.log with outstanding := s.log.outstanding + 1 } })
    (fun e => e = .sleeps ∧ (s.log.committing = true ∨
      (LOGSIZE : Int) < s.log.lh.length + (s.log.outstanding + 1) * MAXOPBLOCKS)) s := by
  simp only [beginOp, wp_bind, wp_get, wp_failIf, wp_modify]
  refine ⟨fun hc => ⟨trivial, .inl hc⟩, fun hc => ⟨fun hfull => ⟨trivial, .inr hfull⟩, fun hroom => ?_⟩⟩
  exact ⟨Bool.eq_false_iff.2 hc, not_lt.1 hroom, trivial⟩

theorem endEnter_cases (s : Dev) : wp endEnter
    (fun r s' => s.log.committing = false ∧ r = decide (s.log.outstanding - 1 = 0) ∧
      s' = { s with
        log := { s.log with
          outstanding := s.log.outstanding - 1
          committing := decide (s.log.outstanding - 1 = 0) } })
    (fun _ => s.log.committing = true) s := by
  simp only [endEnter, wp_bind, wp_modify, wp_get, wp_failIf, wp_ite, wp_setCommitting, wp_pure]
  refine ⟨id, fun hc => ?_⟩
  have hc' : s.log.committing = false := Bool.eq_false_iff.2 hc
  refine ⟨fun h => ⟨hc', by simp [h], by simp [h]⟩, fun h => ⟨hc', by simp [h], ?_⟩⟩
  simp [h, hc']

def SameLog (s s' : Dev) : Prop := s'.log = s.log

instance : Std.Refl SameLog := ⟨fun _ => rfl⟩

instance : IsTrans Dev SameLog := ⟨fun _ _ _ h h' => Eq.trans h' h⟩

theorem sameLog_bread (b : Nat) : Keeps SameLog (bread b) := .bind .failIf fun _ => .bind .get fun _ => .pure _

theorem sameLog_bput (b : Nat) (v : Blk) : Keeps SameLog (bput b v) := fun _ => rfl

theorem sameLog_bwrite (b : Nat) : Keeps SameLog (bwrite b) := fun _ => rfl

theorem sameLog_writeHead : Keeps SameLog (writeHead sb) :=
  .bind (sameLog_bread _) fun _ => .bind .get fun _ => .bind (sameLog_bput _ _) fun _ => sameLog_bwrite _

theorem sameLog_writeLog : Keeps SameLog (writeLog sb) := .bind .get fun _ => by
  refine .forRange (fun i _ => ?_) _ _ _
  exact .bind (sameLog_bread _) fun _ => .bind (sameLog_bread _) fun _ => .bind (sameLog_bput _ _) fun _ => sameLog_bwrite _

theorem sameLog_installTrans : Keeps SameLog (installTrans sb) := .bind .get fun _ => by
  refine .forRange (fun i _ => ?_) _ _ _
  exact .bind (sameLog_bread _) fun _ => .bind (sameLog_bread _) fun _ => .bind (sameLog_bput _ _) fun _ => sameLog_bwrite _

theorem commit_empties (s : Dev) : wp (commit sb) (fun _ s' => s'.log = { s.log with lh := [] }) (fun _ => True) s := by
  simp only [commit, wp_bind, wp_get, wp_ite, wp_clearHead, wp_pure]
  refine ⟨fun _ => ?_, fun h0 => ?_⟩
  · refine (sameLog_writeLog s).post fun _ s₁ h₁ => (sameLog_writeHead s₁).post fun _ s₂ h₂ => ?_
    refine (sameLog_installTrans s₂).post fun _ s₃ h₃ => (sameLog_writeHead _).post fun _ s₄ h₄ => ?_
    simp only [SameLog] at h₁ h₂ h₃ h₄
    rw [h₄, h₃, h₂, h₁]
  · have hnil : s.log.lh = [] := List.eq_nil_of_length_eq_zero (by omega)
    rw [← hnil]

/-! ### Processes -/

inductive OpPc
  | out
  /-- In the loop of `begin_op`, having released the lock by `sleep`. -/
  | waiting (asleep : Bool)
  | inOp
  /-- In `log_write`, after its tests. -/
  | writing (b : Nat)
  /-- In `end_op`, about to commit. -/
  | closing
  /-- In `end_op`, after the commit. -/
  | closed
deriving DecidableEq, Repr

/-- Between the return of `begin_op` and the first critical section of `end_op`. -/
def OpPc.Open : OpPc → Prop
  | inOp => True
  | writing _ => True
  | _ => False

instance : DecidablePred OpPc.Open := fun p => by
  cases p <;> unfold OpPc.Open <;> infer_instance

/-- Between the two critical sections of `end_op`. -/
def OpPc.Ending (p : OpPc) : Prop := p = closing ∨ p = closed

instance : DecidablePred OpPc.Ending := fun _ => inferInstanceAs (Decidable (_ ∨ _))

/-- `wakeup(&log)` and `kill` make a sleeper test again. -/
def OpPc.wake : OpPc → OpPc
  | waiting _ => waiting false
  | p => p

structure AdmSys where
  dev : Dev
  procs : Nat → OpPc

/-- What process `i` does. -/
inductive AdmAct
  | beginOp (i : Nat)
  | logTest (i b : Nat)
  | logEnter (i : Nat)
  | endEnter (i : Nat)
  | commit (i : Nat)
  | endLeave (i : Nat)
  /-- The process changes the data of a buffer. -/
  | put (i b : Nat) (v : Blk)
  /-- The process is killed. -/
  | kill (i : Nat)

inductive AdmStep (sb : Superblock) (n : Nat) : AdmSys → AdmAct → AdmSys → Prop
  | granted {s : AdmSys} {d : Dev} {i : Nat} (hi : i < n) (hp : s.procs i = .out ∨ s.procs i = .waiting false)
      (hr : beginOp.run s.dev = .ok ((), d)) : AdmStep sb n s (.beginOp i) ⟨d, update s.procs i .inOp⟩
  | sleep {s : AdmSys} {i : Nat} (hi : i < n) (hp : s.procs i = .out ∨ s.procs i = .waiting false)
      (hr : beginOp.run s.dev = .error .sleeps) : AdmStep sb n s (.beginOp i) ⟨s.dev, update s.procs i (.waiting true)⟩
  | test {s : AdmSys} {d : Dev} {i b : Nat} (hi : i < n) (hp : s.procs i = .inOp) (hr : (logTest sb).run s.dev = .ok ((), d)) :
      AdmStep sb n s (.logTest i b) ⟨d, update s.procs i (.writing b)⟩
  | enter {s : AdmSys} {d : Dev} {i b : Nat} (hi : i < n) (hp : s.procs i = .writing b)
      (hr : (logEnter b).run s.dev = .ok ((), d)) :
      AdmStep sb n s (.logEnter i) ⟨d, update s.procs i .inOp⟩
  | last {s : AdmSys} {d : Dev} {i : Nat} (hi : i < n) (hp : s.procs i = .inOp) (hr : endEnter.run s.dev = .ok (true, d)) :
      AdmStep sb n s (.endEnter i) ⟨d, update s.procs i .closing⟩
  | finish {s : AdmSys} {d : Dev} {i : Nat} (hi : i < n) (hp : s.procs i = .inOp) (hr : endEnter.run s.dev = .ok (false, d)) :
      AdmStep sb n s (.endEnter i) ⟨d, update (fun j => (s.procs j).wake) i .out⟩
  | commit {s : AdmSys} {d : Dev} {i : Nat} (hi : i < n) (hp : s.procs i = .closing) (hr : (commit sb).run s.dev = .ok ((), d)) :
      AdmStep sb n s (.commit i) ⟨d, update s.procs i .closed⟩
  | leave {s : AdmSys} {d : Dev} {i : Nat} (hi : i < n) (hp : s.procs i = .closed)
      (hr : (setCommitting false).run s.dev = .ok ((), d)) :
      AdmStep sb n s (.endLeave i) ⟨d, update (fun j => (s.procs j).wake) i .out⟩
  | put {s : AdmSys} {d : Dev} {i b : Nat} {v : Blk} (hi : i < n) (hp : s.procs i = .inOp)
      (hr : (bput b v).run s.dev = .ok ((), d)) :
      AdmStep sb n s (.put i b v) ⟨d, s.procs⟩
  | kill {s : AdmSys} {i : Nat} : AdmStep sb n s (.kill i) ⟨s.dev, update s.procs i (s.procs i).wake⟩

/-- `n` processes after `initlog`. -/
def admLts (sb : Superblock) (n : Nat) : Lts AdmSys AdmAct where
  init s := s.dev.log = ⟨0, false, []⟩ ∧ ∀ i, s.procs i = .out
  step := AdmStep sb n

/-! ### The invariant -/

structure Admission (n : Nat) (s : AdmSys) : Prop where
  outside : ∀ i, n ≤ i → s.procs i = .out
  outstanding : s.dev.log.outstanding = tally n OpPc.Open s.procs
  committing : tally n OpPc.Ending s.procs = if s.dev.log.committing = true then 1 else 0
  quiet : s.dev.log.committing = true → s.dev.log.outstanding = 0
  empty : s.dev.log.outstanding = 0 → s.dev.log.committing = false → s.dev.log.lh = []
  closed : ∀ i, s.procs i = .closed → s.dev.log.lh = []
  nodup : s.dev.log.lh.Nodup
  asleep : ∀ i, s.procs i = .waiting true → s.dev.log.committing = true ∨ 0 < s.dev.log.outstanding

section Wake

variable {p : OpPc}

@[simp] theorem OpPc.open_wake : p.wake.Open ↔ p.Open := by cases p <;> rfl

@[simp] theorem OpPc.ending_wake : p.wake.Ending ↔ p.Ending := by cases p <;> simp [wake, Ending]

@[simp] theorem OpPc.wake_eq_closed : p.wake = .closed ↔ p = .closed := by cases p <;> simp [wake]

@[simp] theorem OpPc.wake_ne_asleep : p.wake ≠ .waiting true := by cases p <;> simp [wake]

end Wake

namespace Admission

variable {s : AdmSys} {d : Dev} {i j : Nat}

theorem lt (h : Admission n s) (hp : s.procs i ≠ .out) : i < n := Nat.lt_of_not_le fun hle => hp (h.outside i hle)

theorem open_pos (h : Admission n s) (hp : (s.procs i).Open) : 0 < s.dev.log.outstanding := by
  have hi : i < n := h.lt fun he => by simp [he, OpPc.Open] at hp
  rw [h.outstanding]
  exact_mod_cast tally_pos hi hp

theorem not_committing (h : Admission n s) (hp : (s.procs i).Open) : s.dev.log.committing = false := by
  by_contra hc
  have := h.quiet (Bool.eq_true_of_not_eq_false hc)
  have := h.open_pos hp
  omega

theorem committing_of_ending (h : Admission n s) (hp : (s.procs i).Ending) : s.dev.log.committing = true := by
  have hi : i < n := h.lt fun he => by simp [he, OpPc.Ending] at hp
  have hpos := tally_pos hi hp
  rw [h.committing] at hpos
  by_contra hc
  rw [if_neg hc] at hpos
  omega

theorem not_ending (h : Admission n s) (hc : s.dev.log.committing = false) : ¬ (s.procs i).Ending := fun hp => by
  rw [h.committing_of_ending hp] at hc
  cases hc

theorem not_closed {x : OpPc} (h : Admission n s) (hc : s.dev.log.committing = false) (hx : x ≠ .closed) :
    update s.procs i x j ≠ .closed := by
  rcases eq_or_ne j i with rfl | hne
  · rw [update_self]
    exact hx
  · rw [update_of_ne hne]
    exact fun hj => h.not_ending hc (.inr hj)

theorem outside_update {g : Nat → OpPc} {x : OpPc} (h : ∀ j, n ≤ j → g j = .out) (hi : i < n) :
    ∀ j, n ≤ j → update g i x j = .out := fun j hj => by
  rw [update_of_ne (by omega)]
  exact h j hj

theorem move {x : OpPc} (h : Admission n s) (hi : i < n) (hopen : x.Open ↔ (s.procs i).Open)
    (hend : x.Ending ↔ (s.procs i).Ending)
    (hclosed : x = .closed → s.dev.log.lh = []) (hasleep : x = .waiting true →
      s.dev.log.committing = true ∨ 0 < s.dev.log.outstanding)
    (hd : d.log = s.dev.log) : Admission n ⟨d, update s.procs i x⟩ := by
  constructor
  · exact outside_update h.outside hi
  · rw [tally_update_of_iff hopen, hd, h.outstanding]
  · rw [tally_update_of_iff hend, hd, h.committing]
  · rw [hd]
    exact h.quiet
  · rw [hd]
    exact h.empty
  · intro j hj
    rw [hd]
    dsimp only at hj
    rcases eq_or_ne j i with rfl | hne
    · rw [update_self] at hj
      exact hclosed hj
    · rw [update_of_ne hne] at hj
      exact h.closed j hj
  · rw [hd]
    exact h.nodup
  · intro j hj
    rw [hd]
    dsimp only at hj
    rcases eq_or_ne j i with rfl | hne
    · rw [update_self] at hj
      exact hasleep hj
    · rw [update_of_ne hne] at hj
      exact h.asleep j hj

theorem wakeAll (h : Admission n s) : Admission n ⟨s.dev, fun j => (s.procs j).wake⟩ where
  outside j hj := by
    dsimp only
    rw [h.outside j hj]
    rfl
  outstanding := h.outstanding.trans (congrArg _ (tally_congr fun _ => OpPc.open_wake).symm)
  committing := (tally_congr fun _ => OpPc.ending_wake).trans h.committing
  quiet := h.quiet
  empty := h.empty
  closed j hj := h.closed j (OpPc.wake_eq_closed.1 hj)
  nodup := h.nodup
  asleep j hj := absurd hj OpPc.wake_ne_asleep

theorem granted (h : Admission n s) (hi : i < n) (hp : s.procs i = .out ∨ s.procs i = .waiting false)
    (hc : s.dev.log.committing = false) (hd : d.log = { s.dev.log with outstanding := s.dev.log.outstanding + 1 }) :
    Admission n ⟨d, update s.procs i .inOp⟩ := by
  have hopen : ¬ (s.procs i).Open := by rcases hp with hp | hp <;> rw [hp] <;> exact id
  have hend : ¬ (s.procs i).Ending := by rcases hp with hp | hp <;> simp [hp, OpPc.Ending]
  have htally := tally_update (p := OpPc.Open) (g := s.procs) hi .inOp
  rw [if_neg hopen, if_pos (show OpPc.inOp.Open from trivial)] at htally
  have hout := h.outstanding
  constructor
  · exact outside_update h.outside hi
  · simp only [hd]
    omega
  · rw [tally_update_of_iff (by simp [OpPc.Ending] at hend ⊢; exact hend), hd]
    exact h.committing
  · simp [hd, hc]
  · intro h0
    simp only [hd] at h0
    omega
  · exact fun j hj => absurd hj (h.not_closed hc (by simp))
  · rw [hd]
    exact h.nodup
  · intro j _
    simp only [hd]
    omega

theorem enter {b : Nat} (h : Admission n s) (hi : i < n) (hp : s.procs i = .writing b)
    (hd : d.log = { s.dev.log with lh := absorb s.dev.log.lh b }) : Admission n ⟨d, update s.procs i .inOp⟩ := by
  have hopen : (s.procs i).Open := by
    rw [hp]
    trivial
  have hpos := h.open_pos hopen
  have hc := h.not_committing hopen
  constructor
  · exact outside_update h.outside hi
  · rw [tally_update_of_iff (iff_of_true trivial hopen), hd]
    exact h.outstanding
  · rw [tally_update_of_iff (by simp [hp, OpPc.Ending]), hd]
    exact h.committing
  · simp [hd, hc]
  · intro h0
    simp only [hd] at h0
    omega
  · exact fun j hj => absurd hj (h.not_closed hc (by simp))
  · rw [hd]
    exact nodup_absorb h.nodup b
  · intro j _
    simp only [hd]
    exact .inr hpos

theorem last (h : Admission n s) (hi : i < n) (hp : s.procs i = .inOp) (h1 : s.dev.log.outstanding - 1 = 0)
    (hd : d.log = { s.dev.log with outstanding := 0, committing := true }) : Admission n ⟨d, update s.procs i .closing⟩ := by
  have hopen : (s.procs i).Open := by
    rw [hp]
    trivial
  have hc := h.not_committing hopen
  have htally := tally_update (p := OpPc.Open) (g := s.procs) hi .closing
  rw [if_pos hopen, if_neg (show ¬ OpPc.closing.Open from id)] at htally
  have hending := tally_update (p := OpPc.Ending) (g := s.procs) hi .closing
  rw [if_neg (h.not_ending hc), if_pos (show OpPc.closing.Ending from .inl rfl), h.committing, if_neg (by simp [hc])] at hending
  have hout := h.outstanding
  constructor
  · exact outside_update h.outside hi
  · simp only [hd]
    omega
  · simp only [hd, if_true]
    exact hending
  · simp [hd]
  · simp [hd]
  · exact fun j hj => absurd hj (h.not_closed hc (by simp))
  · rw [hd]
    exact h.nodup
  · simp [hd]

theorem finish (h : Admission n s) (hi : i < n) (hp : s.procs i = .inOp) (h1 : s.dev.log.outstanding - 1 ≠ 0)
    (hd : d.log = { s.dev.log with outstanding := s.dev.log.outstanding - 1 }) : Admission n ⟨d, update s.procs i .out⟩ := by
  have hopen : (s.procs i).Open := by
    rw [hp]
    trivial
  have hpos := h.open_pos hopen
  have hc := h.not_committing hopen
  have htally := tally_update (p := OpPc.Open) (g := s.procs) hi .out
  rw [if_pos hopen, if_neg (show ¬ OpPc.out.Open from id)] at htally
  have hout := h.outstanding
  constructor
  · exact outside_update h.outside hi
  · simp only [hd]
    omega
  · rw [tally_update_of_iff (by simp [hp, OpPc.Ending]), hd]
    exact h.committing
  · simp [hd, hc]
  · intro h0
    simp only [hd] at h0
    exact absurd h0 h1
  · exact fun j hj => absurd hj (h.not_closed hc (by simp))
  · rw [hd]
    exact h.nodup
  · intro j _
    simp only [hd]
    omega

theorem commit (h : Admission n s) (hi : i < n) (hp : s.procs i = .closing) (hd : d.log = { s.dev.log with lh := [] }) :
    Admission n ⟨d, update s.procs i .closed⟩ := by
  have hc := h.committing_of_ending (.inl hp)
  constructor
  · exact outside_update h.outside hi
  · rw [tally_update_of_iff (by simp [hp, OpPc.Open]), hd]
    exact h.outstanding
  · rw [tally_update_of_iff (by simp [hp, OpPc.Ending]), hd]
    exact h.committing
  · rw [hd]
    exact h.quiet
  · simp [hd]
  · simp [hd]
  · simp [hd]
  · simp [hd, hc]

theorem leave (h : Admission n s) (hi : i < n) (hp : s.procs i = .closed) (hnone : ∀ j, s.procs j ≠ .waiting true)
    (hd : d.log = { s.dev.log with committing := false }) : Admission n ⟨d, update s.procs i .out⟩ := by
  have hc := h.committing_of_ending (.inr hp)
  have hnil := h.closed i hp
  have hending := tally_update (p := OpPc.Ending) (g := s.procs) hi .out
  rw [if_pos (.inr hp), if_neg (by simp [OpPc.Ending]), h.committing, if_pos hc] at hending
  constructor
  · exact outside_update h.outside hi
  · rw [tally_update_of_iff (by simp [hp, OpPc.Open]), hd]
    exact h.outstanding
  · simp only [hd, if_neg Bool.false_ne_true]
    omega
  · simp [hd]
  · simp [hd, hnil]
  · simp [hd, hnil]
  · rw [hd]
    exact h.nodup
  · intro j hj
    dsimp only at hj
    rcases eq_or_ne j i with rfl | hne
    · rw [update_self] at hj
      cases hj
    · rw [update_of_ne hne] at hj
      exact absurd hj (hnone j)

theorem init (h : (admLts sb n).init s) : Admission n s := by
  obtain ⟨hlog, hout⟩ := h
  constructor
  · exact fun i _ => hout i
  · rw [hlog, tally_eq_zero fun j => by simp [hout j, OpPc.Open]]
    rfl
  · rw [hlog, tally_eq_zero fun j => by simp [hout j, OpPc.Ending]]
    rfl
  · simp [hlog]
  · simp [hlog]
  · simp [hlog]
  · simp [hlog]
  · simp [hout]

theorem step {a : AdmAct} {s' : AdmSys} (h : Admission n s) (hs : AdmStep sb n s a s') : Admission n s' := by
  cases hs with
  | granted hi hp hr =>
    obtain ⟨hc, -, rfl⟩ := (beginOp_cases s.dev).of_ok hr
    exact h.granted hi hp hc rfl
  | @sleep i hi hp hr =>
    obtain ⟨-, hfull⟩ := (beginOp_cases s.dev).of_error hr
    have hpc : ¬ (s.procs i).Open ∧ ¬ (s.procs i).Ending := by
      rcases hp with hp | hp <;> rw [hp] <;> simp [OpPc.Open, OpPc.Ending]
    refine h.move hi (iff_of_false id hpc.1) (iff_of_false (by simp [OpPc.Ending]) hpc.2) (by simp) (fun _ => ?_) rfl
    -- an empty log with nobody in it has room
    by_contra hidle
    rw [not_or, Bool.not_eq_true] at hidle
    have hnonneg := h.outstanding
    have hzero : s.dev.log.outstanding = 0 := by omega
    rw [h.empty hzero hidle.1, hzero, hidle.1] at hfull
    simp at hfull
  | @test d i b hi hp hr =>
    have hd : d = s.dev := by
      have hwp : wp (logTest sb) (fun _ d => d = s.dev) (fun _ => True) s.dev := by simp [logTest]
      exact hwp.of_ok hr
    rw [hd]
    exact h.move hi (by simp [hp, OpPc.Open]) (by simp [hp, OpPc.Ending]) (by simp) (by simp) rfl
  | enter hi hp hr =>
    cases hr
    exact h.enter hi hp rfl
  | last hi hp hr =>
    obtain ⟨-, h1, rfl⟩ := (endEnter_cases s.dev).of_ok hr
    have h0 := of_decide_eq_true h1.symm
    refine h.last hi hp h0 ?_
    simp [h0]
  | finish hi hp hr =>
    obtain ⟨hc, h1, rfl⟩ := (endEnter_cases s.dev).of_ok hr
    have h0 := of_decide_eq_false h1.symm
    refine h.wakeAll.finish hi ?_ h0 ?_
    · simp [hp, OpPc.wake]
    · simp [h0, hc]
  | commit hi hp hr => exact h.commit hi hp ((commit_empties s.dev).of_ok hr)
  | leave hi hp hr =>
    cases hr
    refine h.wakeAll.leave hi ?_ (fun j => OpPc.wake_ne_asleep) rfl
    simp [hp, OpPc.wake]
  | put hi hp hr =>
    cases hr
    exact ⟨h.outside, h.outstanding, h.committing, h.quiet, h.empty, h.closed, h.nodup, h.asleep⟩
  | @kill i =>
    by_cases hi : i < n
    · exact h.move hi OpPc.open_wake OpPc.ending_wake (fun hcl => h.closed i (OpPc.wake_eq_closed.1 hcl))
        (fun hw => absurd hw OpPc.wake_ne_asleep) rfl
    · have hout : (s.procs i).wake = s.procs i := by
        rw [h.outside i (Nat.not_lt.1 hi)]
        rfl
      rw [hout, update_eq_self]
      exact h

end Admission

/-! ### The protocol -/

/-- At every point between critical sections a commit runs only while no bracket is open, the log is empty when nothing
goes on, no block is listed twice, `end_op` does not panic, and nobody sleeps on an idle log. -/
theorem log_admission {h : List AdmAct} {s : AdmSys} (hr : (admLts sb n).Run h s) :
    (s.dev.log.committing = true → s.dev.log.outstanding = 0) ∧
    (∀ i, s.procs i = .inOp → endEnter.run s.dev ≠ .error (.panic "log.committing")) ∧
    (∀ i j, s.procs i = .closing → ¬ (s.procs j).Open) ∧
    (s.dev.log.outstanding = 0 → s.dev.log.committing = false → s.dev.log.lh = []) ∧
    s.dev.log.lh.Nodup ∧
    (s.dev.log.outstanding = 0 → s.dev.log.committing = false → ∀ i, s.procs i ≠ .waiting true) := by
  have hinv : Admission n s := hr.invariant (I := fun _ => Admission n) (fun _ => .init) fun _ _ _ _ => .step
  refine ⟨hinv.quiet, fun i hp he => ?_, fun i j hi hj => ?_, hinv.empty, hinv.nodup, fun h0 hc i hw => ?_⟩
  · have hc := (endEnter_cases s.dev).of_error he
    rw [hinv.not_committing (i := i) (by rw [hp]; trivial)] at hc
    cases hc
  · have hc := hinv.not_committing hj
    exact hinv.not_ending hc (.inl hi)
  · rcases hinv.asleep i hw with hc' | hpos
    · rw [hc] at hc'
      cases hc'
    · omega

/-- One process, about to commit. -/
theorem log_admission_closing : ∃ s, (admLts ⟨64, 32, 8, 30, 2, 32, 33⟩ 1).Run [.endEnter 0, .beginOp 0] s ∧
    s.dev.log.committing = true ∧ s.dev.log.outstanding = 0 := by
  have h0 : (admLts ⟨64, 32, 8, 30, 2, 32, 33⟩ 1).Run [] ⟨boot (fun _ => .zero _) [], fun _ => .out⟩ := .init ⟨rfl, fun _ => rfl⟩
  have h1 := h0.step (.granted (i := 0) (by decide) (.inl rfl) rfl)
  have h2 := h1.step (.last (i := 0) (by decide) rfl rfl)
  exact ⟨_, h2, rfl, (log_admission h2).1 rfl⟩

end Xv6
