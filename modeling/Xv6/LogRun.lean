import Xv6.LogAdmission
import Xv6.LogCrash

/-!
# Crash atomicity of interleaved operations

The runs are those of the processes of `AdmSys`, started from a disk with a clean header: `log_write` makes its
tests before it takes the lock, and any process may move in between. `Carried` relates the state reached to the
labels of the run: the cache holds all changes, a changed block that is not in the header is still to be logged
by a process inside its bracket, and every image the disk has had recovers to the changes of a part of the run
after which no bracket was open.
-/

namespace Xv6

open Prog Function

/-! ### What the labels of a run tell -/

/-- The image `d` after the changes of the run `h`. -/
def applyActs (d : Image) : List AdmAct → Image
  | [] => d
  | .put _ b v :: h => update (applyActs d h) b v
  | _ :: h => applyActs d h

/-- The blocks that process `i` has changed and not yet passed to `log_write`. -/
def unlogged (i : Nat) : List AdmAct → List Nat
  | [] => []
  | .put j b _ :: h => if j = i then b :: unlogged i h else unlogged i h
  | .logTest j b :: h => if j = i then (unlogged i h).filter (· ≠ b) else unlogged i h
  | _ :: h => unlogged i h

/-- The blocks passed to `log_write` since the last commit. -/
def group : List AdmAct → List Nat
  | [] => []
  | .commit _ :: _ => []
  | .logTest _ b :: h => absorb (group h) b
  | _ :: h => group h

/-- What the log asks of the next call: blocks lie outside the log, and a bracket is closed only when all that
was changed in it has been passed to `log_write`. -/
def Asked (sb : Superblock) (h : List AdmAct) : AdmAct → Prop
  | .put _ b _ => Home sb b ∧ b < FSSIZE
  | .logTest _ b => Home sb b ∧ b < FSSIZE
  | .endEnter i => unlogged i h = []
  | _ => True

/-- A commit finds no more blocks than the log on disk holds beside its header. -/
def GroupFits (sb : Superblock) (h : List AdmAct) : AdmAct → Prop
  | .commit _ => (group h).length ≤ LOGSIZE ∧ (group h).length < sb.nlog
  | _ => True

instance (sb : Superblock) (h : List AdmAct) : DecidablePred (Asked sb h) := fun a => by
  cases a <;> unfold Asked <;> infer_instance

instance (sb : Superblock) (h : List AdmAct) : DecidablePred (GroupFits sb h) := fun a => by
  cases a <;> unfold GroupFits <;> infer_instance

/-- `P` holds of every call of the run, with the calls before it. -/
def Always (P : List AdmAct → AdmAct → Prop) : List AdmAct → Prop
  | [] => True
  | a :: h => P h a ∧ Always P h

instance decidableAlways (P : List AdmAct → AdmAct → Prop) [∀ h, DecidablePred (P h)] : DecidablePred (Always P)
  | [] => inferInstanceAs (Decidable True)
  | _ :: h =>
    have := decidableAlways P h
    inferInstanceAs (Decidable (_ ∧ _))

/-! ### The runs from a disk -/

/-- `n` processes on the disk `d`, after `initlog`. -/
def diskLts (sb : Superblock) (n : Nat) (d : Image) (tape : List (Option (List Byte))) : Lts AdmSys AdmAct where
  init s := s = ⟨boot d tape, fun _ => .out⟩
  step := AdmStep sb n

section Invariant

variable (sb : Superblock) (n : Nat) (d₀ : Image) (tape : List (Option (List Byte)))

/-- `V` is the home image at a point of the run `h` where no process was inside a bracket. -/
def Settled (h : List AdmAct) (V : Image) : Prop :=
  ∃ q t, q <:+ h ∧ (diskLts sb n d₀ tape).Run q t ∧ (∀ i, ¬ (t.procs i).Open) ∧ ∀ b, Home sb b → V b = applyActs d₀ q b

/-- What the state `s` reached by the run `h` looks like. -/
structure Carried (h : List AdmAct) (s : AdmSys) : Prop where
  run : (diskLts sb n d₀ tape).Run h s
  adm : Admission n s
  clean : headN (s.dev.disk sb.logstart) = 0
  area : ∀ b, ¬ Home sb b → s.dev.cache b = s.dev.disk b
  dirty : ∀ b, Home sb b → b ∉ s.dev.log.lh →
    s.dev.cache b = s.dev.disk b ∨ ∃ i, b ∈ unlogged i h ∨ s.procs i = .writing b
  shut : ∀ i, ¬ (s.procs i).Open → unlogged i h = []
  listed : ∀ b, (b ∈ s.dev.log.lh ∨ ∃ i, s.procs i = .writing b) → Home sb b ∧ b < FSSIZE ∧ b ∈ group h
  cache : ∀ b, Home sb b → s.dev.cache b = applyActs d₀ h b
  disk : Settled sb n d₀ tape h s.dev.disk
  hist : ∀ d ∈ s.dev.hist, ∃ V, Recovers sb d V ∧ Settled sb n d₀ tape h V

end Invariant

variable {sb : Superblock} {n : Nat} {d₀ V : Image} {tape : List (Option (List Byte))} {h : List AdmAct} {s : AdmSys}
  {a : AdmAct}

theorem Settled.cons (hv : Settled sb n d₀ tape h V) (a : AdmAct) : Settled sb n d₀ tape (a :: h) V := by
  obtain ⟨q, t, hq, hr, ho, hV⟩ := hv
  exact ⟨q, t, hq.trans (List.suffix_cons a h), hr, ho, hV⟩

@[simp] theorem OpPc.wake_eq_writing {p : OpPc} {b : Nat} : p.wake = .writing b ↔ p = .writing b := by
  cases p <;> simp [wake]

namespace Carried

theorem init (ha : LogArea sb) (h₀ : headN (d₀ sb.logstart) = 0) :
    Carried sb n d₀ tape [] ⟨boot d₀ tape, fun _ => .out⟩ := by
  have hrun : (diskLts sb n d₀ tape).Run [] ⟨boot d₀ tape, fun _ => .out⟩ := .init rfl
  have hadm : Admission n ⟨boot d₀ tape, fun _ => .out⟩ := Admission.init (show (admLts sb n).init _ from ⟨rfl, fun _ => rfl⟩)
  have hset : Settled sb n d₀ tape [] d₀ := ⟨[], _, List.suffix_rfl, hrun, fun i => id, fun _ _ => rfl⟩
  refine ⟨hrun, hadm, h₀, fun _ _ => rfl, fun _ _ _ => .inl rfl, fun _ _ => rfl, ?_,
    fun _ _ => rfl, hset, by simp [boot]⟩
  rintro b (hb | ⟨i, hi⟩)
  · exact absurd hb List.not_mem_nil
  · cases hi

/-- With all brackets closed the log is as `commit` needs it. -/
theorem logOk (hc : Carried sb n d₀ tape h s) (ho : ∀ i, ¬ (s.procs i).Open)
    (hfit : (group h).length ≤ LOGSIZE ∧ (group h).length < sb.nlog) : LogOk sb s.dev := by
  have hle : s.dev.log.lh.length ≤ (group h).length :=
    (List.subperm_of_subset hc.adm.nodup fun b hb => (hc.listed b (.inl hb)).2.2).length_le
  refine ⟨hc.clean, hc.area, fun b hb hm => ?_, hc.adm.nodup, fun b hb => (hc.listed b (.inl hb)).1,
    fun b hb => (hc.listed b (.inl hb)).2.1, by omega, by omega⟩
  rcases hc.dirty b hb hm with heq | ⟨i, hi | hi⟩
  · exact heq
  · rw [hc.shut i (ho i)] at hi
    exact absurd hi List.not_mem_nil
  · exact absurd (by rw [hi]; trivial) (ho i)

theorem hist_cons (hc : Carried sb n d₀ tape h s) (a : AdmAct) :
    ∀ d ∈ s.dev.hist, ∃ V, Recovers sb d V ∧ Settled sb n d₀ tape (a :: h) V := fun d hd => by
  obtain ⟨V, hr, hV⟩ := hc.hist d hd
  exact ⟨V, hr, hV.cons a⟩

/-- A step of process `i` to `x`, which may wake others, that leaves the disk, the cache and the header alone. -/
theorem move (hc : Carried sb n d₀ tape h s) {i : Nat} {x : OpPc} {p : Nat → OpPc} {d : Dev} {o : Int} {c : Bool}
    (hs : AdmStep sb n s a ⟨d, update p i x⟩) (hp : ∀ j, p j = s.procs j ∨ p j = (s.procs j).wake)
    (hd : d = { s.dev with log := ⟨o, c, s.dev.log.lh⟩ })
    (hw : ∀ b, x = .writing b ↔ s.procs i = .writing b) (ho : ¬ x.Open → unlogged i h = [])
    (hact : applyActs d₀ (a :: h) = applyActs d₀ h) (hun : ∀ j, unlogged j (a :: h) = unlogged j h)
    (hgr : group (a :: h) = group h) : Carried sb n d₀ tape (a :: h) ⟨d, update p i x⟩ := by
  have hw' : ∀ j b, update p i x j = .writing b ↔ s.procs j = .writing b := fun j b => by
    rcases eq_or_ne j i with rfl | hne
    · rw [update_self, hw]
    · rw [update_of_ne hne]
      rcases hp j with e | e <;> simp [e]
  have ho' : ∀ j, ¬ (update p i x j).Open → unlogged j h = [] := fun j hj => by
    rcases eq_or_ne j i with rfl | hne
    · exact ho (by rwa [update_self] at hj)
    · rw [update_of_ne hne] at hj
      refine hc.shut j ?_
      rcases hp j with e | e <;> simpa [e] using hj
  subst hd
  refine ⟨hc.run.step hs, hc.adm.step hs, hc.clean, hc.area, ?_, ?_, ?_, ?_, hc.disk.cons a, hc.hist_cons a⟩
  · simp only [hun, hw']
    exact hc.dirty
  · simp only [hun]
    exact ho'
  · simp only [hw', hgr]
    exact hc.listed
  · rw [hact]
    exact hc.cache

theorem put {i b : Nat} {v : Blk} (hc : Carried sb n d₀ tape h s) (hp : s.procs i = .inOp)
    (hb : Home sb b) {d : Dev} (hd : d = { s.dev with cache := update s.dev.cache b v })
    (hs : AdmStep sb n s (.put i b v) ⟨d, s.procs⟩) :
    Carried sb n d₀ tape (.put i b v :: h) ⟨d, s.procs⟩ := by
  subst hd
  refine ⟨hc.run.step hs, hc.adm.step hs, hc.clean, fun x hx => ?_, fun x hx hm => ?_, fun j hj => ?_, hc.listed,
    fun x hx => ?_, hc.disk.cons _, hc.hist_cons _⟩
  · have hne : x ≠ b := fun e => hx (e ▸ hb)
    exact (update_of_ne hne _ _).trans (hc.area x hx)
  · rcases eq_or_ne x b with rfl | hne
    · exact .inr ⟨i, .inl (by simp [unlogged])⟩
    · rcases hc.dirty x hx hm with heq | ⟨j, hj | hj⟩
      · exact .inl ((update_of_ne hne _ _).trans heq)
      · refine .inr ⟨j, .inl ?_⟩
        rw [unlogged]
        split
        · exact List.mem_cons_of_mem _ hj
        · exact hj
      · exact .inr ⟨j, .inr hj⟩
  · have hne : i ≠ j := fun e => hj (by rw [← e, hp]; trivial)
    rw [unlogged, if_neg hne]
    exact hc.shut j hj
  · simp only [applyActs, update_apply]
    rw [hc.cache x hx]

theorem test {i b : Nat} (hc : Carried sb n d₀ tape h s) (hp : s.procs i = .inOp) (hb : Home sb b ∧ b < FSSIZE)
    (hs : AdmStep sb n s (.logTest i b) ⟨s.dev, update s.procs i (.writing b)⟩) :
    Carried sb n d₀ tape (.logTest i b :: h) ⟨s.dev, update s.procs i (.writing b)⟩ := by
  have hself : update s.procs i (.writing b) i = .writing b := update_self ..
  refine ⟨hc.run.step hs, hc.adm.step hs, hc.clean, hc.area, fun x hx hm => ?_, fun j hj => ?_, fun x hx => ?_,
    hc.cache, hc.disk.cons _, hc.hist_cons _⟩
  · rcases hc.dirty x hx hm with heq | ⟨j, hj | hj⟩
    · exact .inl heq
    · -- `b` itself is no longer among the blocks to log, but the process is about to enter it
      rcases eq_or_ne x b with rfl | hne
      · exact .inr ⟨i, .inr hself⟩
      · refine .inr ⟨j, .inl ?_⟩
        rw [unlogged]
        split
        · exact List.mem_filter.2 ⟨hj, by simpa using hne⟩
        · exact hj
    · have hne : j ≠ i := fun e => by
        rw [e, hp] at hj
        cases hj
      exact .inr ⟨j, .inr ((update_of_ne hne _ _).trans hj)⟩
  · dsimp only at hj
    rcases eq_or_ne j i with rfl | hne
    · exact absurd (by rw [hself]; trivial) hj
    · rw [update_of_ne hne] at hj
      rw [unlogged, if_neg hne.symm]
      exact hc.shut j hj
  · rw [group, mem_absorb]
    rcases hx with hx | ⟨j, hj⟩
    · obtain ⟨h1, h2, h3⟩ := hc.listed x (.inl hx)
      exact ⟨h1, h2, .inl h3⟩
    · dsimp only at hj
      rcases eq_or_ne j i with rfl | hne
      · rw [hself] at hj
        cases hj
        exact ⟨hb.1, hb.2, .inr rfl⟩
      · rw [update_of_ne hne] at hj
        obtain ⟨h1, h2, h3⟩ := hc.listed x (.inr ⟨j, hj⟩)
        exact ⟨h1, h2, .inl h3⟩

theorem enter {i b : Nat} (hc : Carried sb n d₀ tape h s) (hp : s.procs i = .writing b) {d : Dev}
    (hd : d = { s.dev with log := { s.dev.log with lh := absorb s.dev.log.lh b } })
    (hs : AdmStep sb n s (.logEnter i) ⟨d, update s.procs i .inOp⟩) :
    Carried sb n d₀ tape (.logEnter i :: h) ⟨d, update s.procs i .inOp⟩ := by
  subst hd
  have hback : ∀ {j x}, update s.procs i .inOp j = .writing x → s.procs j = .writing x := by
    intro j x hj
    rcases eq_or_ne j i with rfl | hne
    · rw [update_self] at hj
      cases hj
    · rwa [update_of_ne hne] at hj
  refine ⟨hc.run.step hs, hc.adm.step hs, hc.clean, hc.area, fun x hx hm => ?_, fun j hj => ?_, fun x hx => ?_,
    hc.cache, hc.disk.cons _, hc.hist_cons _⟩
  · simp only [mem_absorb, not_or] at hm
    rcases hc.dirty x hx hm.1 with heq | ⟨j, hj | hj⟩
    · exact .inl heq
    · exact .inr ⟨j, .inl hj⟩
    · have hne : j ≠ i := fun e => by
        rw [e, hp] at hj
        cases hj
        exact hm.2 rfl
      exact .inr ⟨j, .inr ((update_of_ne hne _ _).trans hj)⟩
  · dsimp only at hj
    rcases eq_or_ne j i with rfl | hne
    · exact absurd (by rw [update_self]; trivial) hj
    · rw [update_of_ne hne] at hj
      exact hc.shut j hj
  · change _ ∧ _ ∧ x ∈ group h
    rcases hx with hx | ⟨j, hj⟩
    · rcases mem_absorb.1 hx with hx | rfl
      · exact hc.listed x (.inl hx)
      · exact hc.listed x (.inr ⟨i, hp⟩)
    · exact hc.listed x (.inr ⟨j, hback hj⟩)

theorem commit (ha : LogArea sb) {i : Nat} (hc : Carried sb n d₀ tape h s) (hp : s.procs i = .closing)
    (hfit : (group h).length ≤ LOGSIZE ∧ (group h).length < sb.nlog) {d : Dev}
    (hr : (Xv6.commit sb).run s.dev = .ok ((), d)) (hs : AdmStep sb n s (.commit i) ⟨d, update s.procs i .closed⟩) :
    Carried sb n d₀ tape (.commit i :: h) ⟨d, update s.procs i .closed⟩ := by
  have hclosed : ∀ j, ¬ (s.procs j).Open := fun j hj => hc.adm.not_ending (hc.adm.not_committing hj) (i := i) (.inl hp)
  have hno : ∀ j x, update s.procs i .closed j ≠ .writing x := fun j x hj => by
    rcases eq_or_ne j i with rfl | hne
    · rw [update_self] at hj
      cases hj
    · rw [update_of_ne hne] at hj
      exact hclosed j (by rw [hj]; trivial)
  obtain ⟨hlog, hl, -, hdisk, hcache, hh⟩ := (commit_spec ha (hc.logOk hclosed hfit)).of_ok hr
  -- the group is on disk, and its changes are all those of the run so far
  have hset : Settled sb n d₀ tape h s.dev.cache := ⟨h, s, List.suffix_rfl, hc.run, hclosed, hc.cache⟩
  refine ⟨hc.run.step hs, hc.adm.step hs, hlog.clean, hlog.area, fun x hx hm => .inl (hlog.unlogged x hx hm),
    fun j _ => hc.shut j (hclosed j), fun x hx => ?_, fun x hx => (hcache x hx).trans (hc.cache x hx), ?_, fun x hx => ?_⟩
  · rcases hx with hx | ⟨j, hj⟩
    · rw [hl] at hx
      exact absurd hx List.not_mem_nil
    · exact absurd hj (hno j x)
  · exact ⟨h, s, List.suffix_cons _ h, hc.run, hclosed, fun b hb => (hdisk b hb).trans (hc.cache b hb)⟩
  · rcases hh x hx with hx | hx | hx
    · exact hc.hist_cons _ x hx
    · exact ⟨_, hx, hc.disk.cons _⟩
    · exact ⟨_, hx, hset.cons _⟩

theorem step (ha : LogArea sb) (hc : Carried sb n d₀ tape h s) {s' : AdmSys} (hs : AdmStep sb n s a s')
    (hask : Asked sb h a) (hfit : GroupFits sb h a) : Carried sb n d₀ tape (a :: h) s' := by
  have hsame : ∀ j, s.procs j = s.procs j ∨ s.procs j = (s.procs j).wake := fun _ => .inl rfl
  have hwake : ∀ j, (s.procs j).wake = s.procs j ∨ (s.procs j).wake = (s.procs j).wake := fun _ => .inr rfl
  cases hs with
  | @granted _ i hi hp hr =>
    obtain ⟨-, -, rfl⟩ := (beginOp_cases s.dev).of_ok hr
    refine hc.move (.granted hi hp hr) hsame rfl (fun x => ?_) (absurd trivial) rfl (fun _ => rfl) rfl
    rcases hp with hp | hp <;> simp [hp]
  | @sleep i hi hp hr =>
    have hpc : ¬ (s.procs i).Open := by rcases hp with hp | hp <;> simp [hp, OpPc.Open]
    refine hc.move (.sleep hi hp hr) hsame rfl (fun x => ?_) (fun _ => hc.shut i hpc) rfl (fun _ => rfl) rfl
    rcases hp with hp | hp <;> simp [hp]
  | @test d i b hi hp hr =>
    have hd : d = s.dev := by
      have hwp : wp (logTest sb) (fun _ d => d = s.dev) (fun _ => True) s.dev := by simp [logTest]
      exact hwp.of_ok hr
    subst hd
    exact hc.test hp hask (.test hi hp hr)
  | enter hi hp hr =>
    cases hr
    exact hc.enter hp rfl (.enter hi hp rfl)
  | last hi hp hr =>
    obtain ⟨-, -, rfl⟩ := (endEnter_cases s.dev).of_ok hr
    exact hc.move (.last hi hp hr) hsame rfl (by simp [hp]) (fun _ => hask) rfl (fun _ => rfl) rfl
  | finish hi hp hr =>
    obtain ⟨-, -, rfl⟩ := (endEnter_cases s.dev).of_ok hr
    exact hc.move (.finish hi hp hr) hwake rfl (by simp [hp]) (fun _ => hask) rfl (fun _ => rfl) rfl
  | commit hi hp hr => exact hc.commit ha hp hfit hr (.commit hi hp hr)
  | @leave _ i hi hp hr =>
    cases hr
    have hpc : ¬ (s.procs i).Open := by simp [hp, OpPc.Open]
    exact hc.move (.leave hi hp rfl) hwake rfl (by simp [hp]) (fun _ => hc.shut i hpc) rfl (fun _ => rfl) rfl
  | put hi hp hr =>
    cases hr
    exact hc.put hp hask.1 rfl (.put hi hp rfl)
  | @kill i =>
    refine hc.move .kill hsame rfl (by simp) (fun hx => hc.shut i ?_) rfl (fun _ => rfl) rfl
    simpa using hx

end Carried

theorem Carried.of_run (ha : LogArea sb) (h₀ : headN (d₀ sb.logstart) = 0) (hr : (diskLts sb n d₀ tape).Run h s)
    (hask : Always (Asked sb) h) (hfit : Always (GroupFits sb) h) : Carried sb n d₀ tape h s := by
  induction hr with
  | init hi =>
    cases hi
    exact .init ha h₀
  | step _ hs ih => exact (ih hask.2 hfit.2).step ha hs hask.1 hfit.1

/-- **Crash atomicity of the log.** Take any run of processes on a disk with a clean header, in which blocks are
changed only in brackets and through `log_write` and no group is larger than the log on disk, a crash after any
disk write of it, and any number of further crashes during recovery. Then `recover_from_log` runs to completion,
clears the header, and leaves the home blocks as they were at a point of the run where no process was inside a
bracket, so that every operation is wholly present or wholly absent. -/
theorem crash_atomic (ha : LogArea sb) (h₀ : headN (d₀ sb.logstart) = 0) (hr : (diskLts sb n d₀ tape).Run h s)
    (hask : Always (Asked sb) h) (hfit : Always (GroupFits sb) h) (tape' : List (Option (List Byte))) {d d' : Image}
    (hd : d ∈ d₀ :: s.dev.hist) (hc : Crashes sb d d') :
    ∃ s', (recoverFromLog sb).run (boot d' tape') = .ok ((), s') ∧ headN (s'.disk sb.logstart) = 0 ∧
      ∃ q t, q <:+ h ∧ (diskLts sb n d₀ tape).Run q t ∧ (∀ i, ¬ (t.procs i).Open) ∧
        ∀ b, Home sb b → s'.disk b = applyActs d₀ q b := by
  obtain ⟨V, hV, q, t, hq, hrq, ho, himg⟩ : ∃ V, Recovers sb d V ∧ Settled sb n d₀ tape h V := by
    rcases List.mem_cons.1 hd with rfl | hd
    · exact ⟨d, .of_clean ha h₀ fun _ _ => rfl, [], _, List.nil_suffix, .init rfl, fun _ => id, fun _ _ => rfl⟩
    · exact (Carried.of_run ha h₀ hr hask hfit).hist d hd
  obtain ⟨⟨⟩, s', hs', hn, hdisk, -⟩ := (recover_spec ha (hc.recovers ha hV) tape').exists_ok
  exact ⟨s', hs', hn, q, t, hq, hrq, ho, fun b hb => (hdisk b hb).trans (himg b hb)⟩

/-! ### Runs that compute -/

/-- The step of a process that is at `p` and goes on as `x` ends. -/
def stepIf {α : Type} (p : Prop) [Decidable p] (x : DevM α) (s : AdmSys) (next : α → Nat → OpPc) : Option AdmSys :=
  if p then
    match x.run s.dev with
    | .ok (r, d) => some ⟨d, next r⟩
    | .error _ => none
  else none

/-- The steps of `AdmStep` but for the sleepers. -/
def admNext (sb : Superblock) (n : Nat) (s : AdmSys) : AdmAct → Option AdmSys
  | .beginOp i => stepIf (i < n ∧ s.procs i = .out) beginOp s fun _ => update s.procs i .inOp
  | .logTest i b => stepIf (i < n ∧ s.procs i = .inOp) (logTest sb) s fun _ => update s.procs i (.writing b)
  | .logEnter i =>
    match s.procs i with
    | .writing b => stepIf (i < n ∧ s.procs i = .writing b) (logEnter b) s fun _ => update s.procs i .inOp
    | _ => none
  | .endEnter i => stepIf (i < n ∧ s.procs i = .inOp) endEnter s fun last =>
    if last then update s.procs i .closing else update (fun j => (s.procs j).wake) i .out
  | .commit i => stepIf (i < n ∧ s.procs i = .closing) (commit sb) s fun _ => update s.procs i .closed
  | .put i b v => stepIf (i < n ∧ s.procs i = .inOp) (bput b v) s fun _ => s.procs
  | _ => none

/-- The state after the steps `acts`, in the order they are made. -/
def runActs (sb : Superblock) (n : Nat) (s : AdmSys) (acts : List AdmAct) : Option AdmSys :=
  acts.foldlM (admNext sb n) s

theorem of_stepIf {α : Type} {p : Prop} [Decidable p] {x : DevM α} {next : α → Nat → OpPc} {s' : AdmSys}
    (hs : stepIf p x s next = some s') : p ∧ ∃ r d, x.run s.dev = .ok (r, d) ∧ s' = ⟨d, next r⟩ := by
  unfold stepIf at hs
  split at hs
  · rename_i hp
    cases hr : x.run s.dev with
    | ok y =>
      rw [hr] at hs
      cases hs
      exact ⟨hp, y.1, y.2, rfl, rfl⟩
    | error e =>
      rw [hr] at hs
      cases hs
  · cases hs

theorem admStep_of_next {s' : AdmSys} (hs : admNext sb n s a = some s') : AdmStep sb n s a s' := by
  cases a with
  | beginOp i =>
    obtain ⟨⟨hi, hp⟩, _, d, hr, rfl⟩ := of_stepIf hs
    exact .granted hi (.inl hp) hr
  | logTest i b =>
    obtain ⟨⟨hi, hp⟩, _, d, hr, rfl⟩ := of_stepIf hs
    exact .test hi hp hr
  | logEnter i =>
    simp only [admNext] at hs
    split at hs
    · obtain ⟨⟨hi, hp⟩, _, d, hr, rfl⟩ := of_stepIf hs
      exact .enter hi hp hr
    · cases hs
  | endEnter i =>
    obtain ⟨⟨hi, hp⟩, r, d, hr, rfl⟩ := of_stepIf hs
    cases r
    · exact .finish hi hp hr
    · exact .last hi hp hr
  | commit i =>
    obtain ⟨⟨hi, hp⟩, _, d, hr, rfl⟩ := of_stepIf hs
    exact .commit hi hp hr
  | put i b v =>
    rw [admNext] at hs
    obtain ⟨⟨hi, hp⟩, _, d, hr, rfl⟩ := of_stepIf hs
    exact .put hi hp hr
  | endLeave i => cases hs
  | kill i => cases hs

theorem run_of_runActs {S : Lts AdmSys AdmAct} (hS : S.step = AdmStep sb n) : ∀ (acts : List AdmAct) {h : List AdmAct}
    {s s' : AdmSys}, S.Run h s → runActs sb n s acts = some s' → S.Run (acts.reverse ++ h) s'
  | [], h, s, s', hr, hs => by
    cases hs
    exact hr
  | a :: acts, h, s, s', hr, hs => by
    obtain ⟨s₁, h₁, h₂⟩ := Option.bind_eq_some_iff.1 hs
    have hr' := run_of_runActs hS acts (hr.step (hS ▸ admStep_of_next h₁)) h₂
    simpa using hr'

/-- The zeroed disk, every process outside the file system. -/
def zeroSys : AdmSys := ⟨boot (fun _ => .zero BSIZE) [], fun _ => .out⟩

/-- A block that is not zero. -/
def someBlk : Blk := (Block.zero BSIZE).putU32 0 7

/-- Process `i` changes the blocks `bs` and logs them, one after another. -/
def logs (i : Nat) (bs : List Nat) : List AdmAct := bs.flatMap fun b => [.put i b someBlk, .logTest i b, .logEnter i]

/-- One process logs one block. -/
def oneBlock : List AdmAct := [.beginOp 0] ++ logs 0 [100] ++ [.endEnter 0, .commit 0]

theorem crash_atomic_one_block : ∃ s, (diskLts mkfsSuperblock 1 (fun _ => .zero BSIZE) []).Run oneBlock.reverse s ∧
    s.dev.disk 100 = someBlk ∧ ∀ d ∈ (fun _ => .zero BSIZE) :: s.dev.hist, ∀ d', Crashes mkfsSuperblock d d' →
      ∃ s', (recoverFromLog mkfsSuperblock).run (boot d' []) = .ok ((), s') ∧
        headN (s'.disk mkfsSuperblock.logstart) = 0 ∧
        ∃ q t, q <:+ oneBlock.reverse ∧ (diskLts mkfsSuperblock 1 (fun _ => .zero BSIZE) []).Run q t ∧
          (∀ i, ¬ (t.procs i).Open) ∧ ∀ b, Home mkfsSuperblock b → s'.disk b = applyActs (fun _ => .zero BSIZE) q b := by
  obtain ⟨s, hs⟩ : ∃ s, runActs mkfsSuperblock 1 zeroSys oneBlock = some s := ⟨_, rfl⟩
  have hr := run_of_runActs (S := diskLts mkfsSuperblock 1 (fun _ => .zero BSIZE) []) rfl _ (.init rfl) hs
  rw [List.append_nil] at hr
  refine ⟨s, hr, ?_, fun d hd d' hc => ?_⟩
  · cases hs
    rfl
  · exact crash_atomic mkfs_logArea (by decide) hr (by decide) (by decide) [] hd hc

/-- Three brackets of ten blocks each; the last two blocks pass the tests of `log_write` together. -/
def twoAtOnce : List AdmAct :=
  [.beginOp 0, .beginOp 1, .beginOp 2] ++ logs 0 (List.range' 100 10) ++ logs 1 (List.range' 110 9) ++
    logs 2 (List.range' 120 9) ++ [.put 1 119 someBlk, .put 2 129 someBlk, .logTest 1 119, .logTest 2 129, .logEnter 1,
      .logEnter 2, .endEnter 0, .endEnter 1, .endEnter 2, .commit 2]

/-- The thirtieth block of a group is written past the end of the log, over a block that nobody changed. -/
theorem crash_atomic_overflow : ∃ h s, (diskLts mkfsSuperblock 3 (fun _ => .zero BSIZE) []).Run h s ∧
    Always (Asked mkfsSuperblock) h ∧ ∃ s', (recoverFromLog mkfsSuperblock).run (boot s.dev.disk []) = .ok ((), s') ∧
      Home mkfsSuperblock 32 ∧ ∀ q, q <:+ h → s'.disk 32 ≠ applyActs (fun _ => .zero BSIZE) q 32 := by
  have hany : ((runActs mkfsSuperblock 3 zeroSys twoAtOnce).any fun s =>
      decide ((recoverFromLog mkfsSuperblock).result (boot s.dev.disk []) = some ()) &&
        decide ((((recoverFromLog mkfsSuperblock).final (boot s.dev.disk [])).disk 32).data 0 = 7)) = true := by
    decide +kernel
  have hzero : ∀ q ∈ twoAtOnce.reverse.tails, (applyActs (fun _ => .zero BSIZE) q 32).data 0 = 0 := by decide +kernel
  obtain ⟨s, hs, hb⟩ := (Option.any_eq_true _ _).1 hany
  obtain ⟨hrec, hseven⟩ := (Bool.and_eq_true _ _).mp hb
  have hr := run_of_runActs (S := diskLts mkfsSuperblock 3 (fun _ => .zero BSIZE) []) rfl _ (.init rfl) hs
  rw [List.append_nil] at hr
  refine ⟨_, s, hr, by decide, _, run_eq_final (of_decide_eq_true hrec), by decide, fun q hq he => ?_⟩
  have h0 := hzero q ((List.mem_tails _ _).2 hq)
  rw [← he, of_decide_eq_true hseven] at h0
  cases h0

end Xv6
