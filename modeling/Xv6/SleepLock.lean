import Xv6.Kernel
import Xv6.Lts
import Xv6.Owner

/-!
# Sleep-locks over all interleavings (`sleeplock.c`, `sleep`, `wakeup` and `kill` of `proc.c`)

One sleep-lock and any number of processes that acquire it, release it and kill each other. A process
runs from one `acquire` or `release` of a spin-lock (`lk->lk` or `ptable.lock`) to the next. A process
that found the lock taken still has `lk->lk` when it takes `ptable.lock`, so that a holder cannot get
through `wakeup` before the process is asleep.
-/

namespace Xv6

open Function

inductive SlPc
  | out
  /-- Spinning for `lk->lk`, in `acquiresleep` or at the end of `sleep`. -/
  | acquire
  /-- At the test of `lk->locked`. -/
  | test
  /-- In `sleep`, spinning for `ptable.lock`. -/
  | toSleep
  /-- In `sleep`, with both locks. -/
  | letGo
  /-- In `sleep`, with `ptable.lock` only. -/
  | goSleep
  /-- In `sched`. -/
  | asleep
  /-- Back from `sched`, with `ptable.lock`. -/
  | resumed
  /-- The lock is taken; about to return from `acquiresleep`. -/
  | taken
  | holding
  /-- In `releasesleep`, spinning for `lk->lk`. -/
  | release
  /-- `lk->locked` is cleared; in `wakeup`, spinning for `ptable.lock`. -/
  | unlocked
  /-- In `wakeup`, with both locks. -/
  | waking
  /-- `wakeup` has returned. -/
  | woke
  /-- In `kill`, spinning for `ptable.lock`; `held` says whether the caller has the sleep-lock. -/
  | toKill (held : Bool) (pid : Int)
  /-- In `kill`, with `ptable.lock`. -/
  | killing (held : Bool) (pid : Int)
deriving DecidableEq, Repr

namespace SlPc

def HasLk (p : SlPc) : Prop := p = test ∨ p = toSleep ∨ p = letGo ∨ p = taken ∨ p = unlocked ∨ p = waking ∨ p = woke

def HasPtable : SlPc → Prop
  | letGo | goSleep | resumed | waking | killing .. => True
  | _ => False

/-- From the moment `lk->locked` is set to the moment it is cleared. -/
def Owns : SlPc → Prop
  | taken | holding | release | toKill true _ | killing true _ => True
  | _ => False

/-- Between the return of `acquiresleep` and the call of `releasesleep`. -/
def Inside : SlPc → Prop
  | holding | toKill true _ | killing true _ => True
  | _ => False

/-- In `releasesleep` before its `wakeup`. -/
def Unlocking (p : SlPc) : Prop := p = unlocked ∨ p = waking

end SlPc

/-- The part of `struct proc` that matters; `chan` says whether `p->chan` is the sleep-lock. -/
structure SlProc where
  pc : SlPc
  state : ProcState
  chan : Bool
  killed : Bool
  pid : Int

/-- `wakeup1(lk)` on one slot. -/
def SlProc.wakeup1 (p : SlProc) : SlProc := if p.state = .SLEEPING ∧ p.chan = true then { p with state := .RUNNABLE } else p

def SlProc.kill (p : SlProc) : SlProc :=
  { p with killed := true, state := if p.state = .SLEEPING then .RUNNABLE else p.state }

inductive Holder
  | proc (i : Nat)
  | scheduler
deriving DecidableEq, Repr

/-- `struct sleeplock` (`locked`, `pid`, `lk`), `ptable.lock` and the processes. -/
structure SlSys where
  locked : Bool
  pid : Int
  lk : Option Nat
  ptable : Option Holder
  procs : Nat → SlProc

/-- Process `i` moves on to `pc`. -/
def SlSys.goto (s : SlSys) (i : Nat) (pc : SlPc) : SlSys :=
    { s with procs := update s.procs i { s.procs i with pc := pc } }

/-- The slot that `kill` finds. -/
def SlSys.find (s : SlSys) (n : Nat) (pid : Int) : Option Nat := (List.range n).find? fun j => decide ((s.procs j).pid = pid)

def SlSys.kill (s : SlSys) (n : Nat) (pid : Int) : SlSys :=
  match s.find n pid with
  | some j => { s with procs := update s.procs j (s.procs j).kill }
  | none => s

/-- What process `some i`, or the scheduler, does with the `n` slots of the process table. -/
inductive SlStep (n : Nat) : SlSys → Option Nat → SlSys → Prop
  | callAcquire {s : SlSys} {i : Nat} (hi : i < n) (hp : (s.procs i).pc = .out) : SlStep n s (some i) (s.goto i .acquire)
  | acquireLk {s : SlSys} {i : Nat} (hp : (s.procs i).pc = .acquire) (hl : s.lk = none) :
      SlStep n s (some i) ({ s with lk := some i }.goto i .test)
  | found {s : SlSys} {i : Nat} (hp : (s.procs i).pc = .test) (hl : s.locked = true) : SlStep n s (some i) (s.goto i .toSleep)
  | free {s : SlSys} {i : Nat} (hp : (s.procs i).pc = .test) (hl : s.locked = false) :
      SlStep n s (some i) ({ s with locked := true, pid := (s.procs i).pid }.goto i .taken)
  | sleepPtable {s : SlSys} {i : Nat} (hp : (s.procs i).pc = .toSleep) (hl : s.ptable = none) :
      SlStep n s (some i) ({ s with ptable := some (.proc i) }.goto i .letGo)
  | sleepLk {s : SlSys} {i : Nat} (hp : (s.procs i).pc = .letGo) : SlStep n s (some i) ({ s with lk := none }.goto i .goSleep)
  | sched {s : SlSys} {i : Nat} (hp : (s.procs i).pc = .goSleep) :
      SlStep n s (some i) { s with
        ptable := some .scheduler
        procs := update s.procs i { s.procs i with pc := .asleep, state := .SLEEPING, chan := true } }
  | wakened {s : SlSys} {i : Nat} (hp : (s.procs i).pc = .resumed) :
      SlStep n s (some i) ({ s with
        ptable := none
        procs := update s.procs i { s.procs i with chan := false } }.goto i .acquire)
  | acquired {s : SlSys} {i : Nat} (hp : (s.procs i).pc = .taken) : SlStep n s (some i) ({ s with lk := none }.goto i .holding)
  | callRelease {s : SlSys} {i : Nat} (hp : (s.procs i).pc = .holding) : SlStep n s (some i) (s.goto i .release)
  | releaseLk {s : SlSys} {i : Nat} (hp : (s.procs i).pc = .release) (hl : s.lk = none) :
      SlStep n s (some i) ({ s with lk := some i, locked := false, pid := 0 }.goto i .unlocked)
  | wakePtable {s : SlSys} {i : Nat} (hp : (s.procs i).pc = .unlocked) (hl : s.ptable = none) :
      SlStep n s (some i) ({ s with ptable := some (.proc i) }.goto i .waking)
  | wakeup {s : SlSys} {i : Nat} (hp : (s.procs i).pc = .waking) :
      SlStep n s (some i) ({ s with ptable := none, procs := fun j => (s.procs j).wakeup1 }.goto i .woke)
  | released {s : SlSys} {i : Nat} (hp : (s.procs i).pc = .woke) : SlStep n s (some i) ({ s with lk := none }.goto i .out)
  | callKill {s : SlSys} {i : Nat} {held : Bool} {pid : Int} (hi : i < n) (hp : (s.procs i).pc =
      if held = true then .holding else .out) :
      SlStep n s (some i) (s.goto i (.toKill held pid))
  | killPtable {s : SlSys} {i : Nat} {held : Bool} {pid : Int} (hp : (s.procs i).pc = .toKill held pid) (hl : s.ptable = none) :
      SlStep n s (some i) ({ s with ptable := some (.proc i) }.goto i (.killing held pid))
  | kill {s : SlSys} {i : Nat} {held : Bool} {pid : Int} (hp : (s.procs i).pc = .killing held pid) :
      SlStep n s (some i) ({ s.kill n pid with ptable := none }.goto i (if held = true then .holding else .out))
  | schedAcquire {s : SlSys} (hl : s.ptable = none) : SlStep n s none { s with ptable := some .scheduler }
  | schedPick {s : SlSys} {i : Nat} (hl : s.ptable = some .scheduler) (hp : (s.procs i).pc = .asleep)
      (hr : (s.procs i).state = .RUNNABLE) :
      SlStep n s none { s with
        ptable := some (.proc i)
        procs := update s.procs i { s.procs i with pc := .resumed, state := .RUNNING } }
  | schedRelease {s : SlSys} (hl : s.ptable = some .scheduler) : SlStep n s none { s with ptable := none }

/-- A free lock, and `n` running processes that do not use it yet. -/
def slLts (n : Nat) : Lts SlSys (Option Nat) where
  init s := s.locked = false ∧ s.lk = none ∧ s.ptable = none ∧
    ∀ i, (s.procs i).pc = .out ∧ (s.procs i).state = .RUNNING ∧ (s.procs i).chan = false
  step := SlStep n

/-! ### The invariant -/

/-- The process that has `ptable.lock`. -/
def Holder.proc? : Holder → Option Nat
  | proc i => some i
  | scheduler => none

structure SlInv (s : SlSys) : Prop where
  lk : Held s.lk s.procs fun p => p.pc.HasLk
  ptable : Held (s.ptable.bind Holder.proc?) s.procs fun p => p.pc.HasPtable
  owner : ∃ o, Held o s.procs (fun p => p.pc.Owns) ∧ (o ≠ none ↔ s.locked = true)
  sleeping : ∀ i, (s.procs i).state = .SLEEPING → (s.procs i).pc = .asleep ∧ (s.procs i).chan = true
  /-- Who goes to sleep has found the lock taken, and it is taken as long as `lk->lk` is held. -/
  decided : ∀ i, (s.procs i).pc = .toSleep ∨ (s.procs i).pc = .letGo → s.locked = true
  wakeable : ∀ i, (s.procs i).pc = .goSleep ∨ (s.procs i).state = .SLEEPING → s.locked = true ∨ ∃ j, (s.procs j).pc.Unlocking

namespace SlInv

variable {n i j : Nat} {s s' : SlSys} {pc : SlPc} {lk' : Option Nat} {pt' : Option Holder}

theorem init (h : (slLts n).init s) : SlInv s := by
  obtain ⟨hl, hlk, hpt, hp⟩ := h
  have hpc : ∀ {P : SlPc → Prop}, ¬ P .out → Held none s.procs fun p => P p.pc := fun hP i =>
    iff_of_false (fun hi => hP ((hp i).1 ▸ hi)) nofun
  constructor
  · rw [hlk]
    exact hpc (by simp [SlPc.HasLk])
  · rw [hpt]
    exact hpc id
  · exact ⟨none, hpc id, by simp [hl]⟩
  · intro i hs
    rw [(hp i).2.1] at hs
    cases hs
  · intro i hd
    rw [(hp i).1] at hd
    simp at hd
  · intro i hd
    rw [(hp i).1, (hp i).2.1] at hd
    simp at hd

theorem not_sleeping (h : SlInv s) (hp : (s.procs i).pc ≠ .asleep) : (s.procs i).state ≠ .SLEEPING :=
    fun hs => hp (h.sleeping i hs).1

theorem goto (h : SlInv s) (hlk : Held lk' (s.goto i pc).procs fun p => p.pc.HasLk)
    (hpt : Held (pt'.bind Holder.proc?) (s.goto i pc).procs fun p => p.pc.HasPtable) (hown : pc.Owns ↔ (s.procs i).pc.Owns)
    (hrun : (s.procs i).pc ≠ .asleep) (hdec : pc = .toSleep ∨ pc = .letGo ∨ pc = .goSleep → s.locked = true)
    (hun : (s.procs i).pc.Unlocking → pc.Unlocking) : SlInv ({ s with lk := lk', ptable := pt' }.goto i pc) := by
  obtain ⟨o, ho, hol⟩ := h.owner
  refine ⟨hlk, hpt, ⟨o, ho.keep hown, hol⟩, fun j hj => ?_, fun j hj => ?_, fun j hj => ?_⟩
  · rcases eq_or_ne j i with rfl | hne
    · simp only [SlSys.goto, update_self] at hj
      exact absurd hj (h.not_sleeping hrun)
    · simp only [SlSys.goto, update_of_ne hne] at hj ⊢
      exact h.sleeping j hj
  · rcases eq_or_ne j i with rfl | hne
    · simp only [SlSys.goto, update_self] at hj
      exact hdec (hj.imp_right .inl)
    · simp only [SlSys.goto, update_of_ne hne] at hj
      exact h.decided j hj
  · have hold : s.locked = true ∨ ∃ k, (s.procs k).pc.Unlocking := by
      rcases eq_or_ne j i with rfl | hne
      · simp only [SlSys.goto, update_self] at hj
        rcases hj with hj | hj
        · exact .inl (hdec (.inr (.inr hj)))
        · exact absurd hj (h.not_sleeping hrun)
      · simp only [SlSys.goto, update_of_ne hne] at hj
        exact h.wakeable j hj
    refine hold.imp_right fun ⟨k, hk⟩ => ⟨k, ?_⟩
    rcases eq_or_ne k i with rfl | hne
    · simp only [SlSys.goto, update_self]
      exact hun hk
    · simp only [SlSys.goto, update_of_ne hne]
      exact hk

theorem taken (h : SlInv s) (hp : (s.procs i).pc = .test) (hl : s.locked = false) {pid : Int} :
    SlInv ({ s with locked := true, pid := pid }.goto i .taken) := by
  obtain ⟨o, ho, hol⟩ := h.owner
  obtain rfl : o = none := by
    by_contra hne
    rw [hol.1 hne] at hl
    cases hl
  refine ⟨h.lk.keep (by simp [hp, SlPc.HasLk]), h.ptable.keep (by simp [hp, SlPc.HasPtable]),
    ⟨some i, ho.take trivial, by simp [SlSys.goto]⟩, fun j hj => ?_, fun j _ => rfl, fun j _ => .inl rfl⟩
  rcases eq_or_ne j i with rfl | hne
  · simp only [SlSys.goto, update_self] at hj
    exact absurd hj (h.not_sleeping (by simp [hp]))
  · simp only [SlSys.goto, update_of_ne hne] at hj ⊢
    exact h.sleeping j hj

theorem unlocked (h : SlInv s) (hp : (s.procs i).pc = .release) (hl : s.lk = none) :
    SlInv ({ s with lk := some i, locked := false, pid := 0 }.goto i .unlocked) := by
  obtain ⟨o, ho, -⟩ := h.owner
  have hlk := h.lk
  rw [hl] at hlk
  refine ⟨hlk.take (by simp [SlPc.HasLk]), h.ptable.keep (by simp [hp, SlPc.HasPtable]),
    ⟨none, ho.drop (i := i) (by rw [hp]; trivial) id, by simp [SlSys.goto]⟩, fun j hj => ?_, fun j hj =>
      ?_, fun j _ => .inr ⟨i, ?_⟩⟩
  · rcases eq_or_ne j i with rfl | hne
    · simp only [SlSys.goto, update_self] at hj
      exact absurd hj (h.not_sleeping (by simp [hp]))
    · simp only [SlSys.goto, update_of_ne hne] at hj ⊢
      exact h.sleeping j hj
  · rcases eq_or_ne j i with rfl | hne
    · simp [SlSys.goto] at hj
    · simp only [SlSys.goto, update_of_ne hne] at hj
      have hfree := (hlk j).1 (by rcases hj with hj | hj <;> simp [hj, SlPc.HasLk])
      cases hfree
  · simp [SlSys.goto, SlPc.Unlocking]

theorem sched (h : SlInv s) (hp : (s.procs i).pc = .goSleep) : SlInv { s with
    ptable := some .scheduler
    procs := update s.procs i { s.procs i with pc := .asleep, state := .SLEEPING, chan := true } } := by
  obtain ⟨o, ho, hol⟩ := h.owner
  have hwake := h.wakeable i (.inl hp)
  refine ⟨h.lk.keep (by simp [hp, SlPc.HasLk]), h.ptable.drop (i := i) (by rw [hp]; trivial) id,
    ⟨o, ho.keep (by simp [hp, SlPc.Owns]), hol⟩, fun j hj => ?_, fun j hj => ?_, fun j _ =>
      hwake.imp_right fun ⟨k, hk⟩ => ⟨k, ?_⟩⟩
  · dsimp only at hj ⊢
    rcases eq_or_ne j i with rfl | hne
    · simp only [update_self, and_self]
    · simp only [update_of_ne hne] at hj ⊢
      exact h.sleeping j hj
  · dsimp only at hj
    rcases eq_or_ne j i with rfl | hne
    · simp only [update_self] at hj
      simp at hj
    · simp only [update_of_ne hne] at hj
      exact h.decided j hj
  · have hne : k ≠ i := by
      rintro rfl
      simp [hp, SlPc.Unlocking] at hk
    simp only [update_of_ne hne]
    exact hk

theorem awaken {procs' : Nat → SlProc} (h : SlInv s) (hpc : ∀ j, (procs' j).pc = (s.procs j).pc)
    (hst : ∀ j, (procs' j).state = .SLEEPING → (s.procs j).state = .SLEEPING ∧ (procs' j).chan = (s.procs j).chan) :
    SlInv { s with procs := procs' } := by
  obtain ⟨o, ho, hol⟩ := h.owner
  refine ⟨h.lk.congr fun j => by rw [hpc], h.ptable.congr fun j => by rw [hpc], ⟨o, ho.congr fun j => by rw [hpc], hol⟩,
    fun j hj => ?_, fun j hj => ?_, fun j hj => ?_⟩
  · obtain ⟨hs, hc⟩ := hst j hj
    dsimp only
    rw [hpc, hc]
    exact h.sleeping j hs
  · dsimp only at hj
    rw [hpc] at hj
    exact h.decided j hj
  · dsimp only at hj ⊢
    simp only [hpc] at hj ⊢
    exact h.wakeable j (hj.imp_right fun hs => (hst j hs).1)

theorem kill (h : SlInv s) (n : Nat) (pid : Int) : SlInv (s.kill n pid) := by
  unfold SlSys.kill
  split
  · next j _ =>
    refine h.awaken (fun k => ?_) fun k hk => ?_
    · rcases eq_or_ne k j with rfl | hne
      · rw [update_self]
        rfl
      · rw [update_of_ne hne]
    · rcases eq_or_ne k j with rfl | hne
      · simp only [update_self, SlProc.kill] at hk
        split at hk
        · cases hk
        · next hns => exact absurd hk hns
      · simp only [update_of_ne hne] at hk ⊢
        exact ⟨hk, trivial⟩
  · exact h

@[simp] theorem pc_kill (s : SlSys) (n : Nat) (pid : Int) (j : Nat) : ((s.kill n pid).procs j).pc = (s.procs j).pc := by
  unfold SlSys.kill
  split
  · next k _ =>
    rcases eq_or_ne j k with rfl | hne
    · simp only [update_self]
      rfl
    · simp only [update_of_ne hne]
  · rfl

theorem pc_wakeup1 (p : SlProc) : p.wakeup1.pc = p.pc := by
  unfold SlProc.wakeup1
  split <;> rfl

theorem state_wakeup1 {p : SlProc} (h : p.wakeup1.state = .SLEEPING) : p.state = .SLEEPING ∧ p.chan = false ∧ p.wakeup1 = p := by
  unfold SlProc.wakeup1 at h ⊢
  split at h
  · cases h
  · next hn =>
    rw [if_neg hn]
    exact ⟨h, Bool.eq_false_iff.2 fun hc => hn ⟨h, hc⟩, rfl⟩

theorem woke (h : SlInv s) (hp : (s.procs i).pc = .waking) :
    SlInv ({ s with ptable := none, procs := fun j => (s.procs j).wakeup1 }.goto i .woke) := by
  have hnone : ∀ j, (s.procs j).wakeup1.state ≠ .SLEEPING := fun j hj => by
    obtain ⟨hs, hc, -⟩ := state_wakeup1 hj
    rw [(h.sleeping j hs).2] at hc
    cases hc
  have h' : SlInv { s with procs := fun j => (s.procs j).wakeup1 } :=
    h.awaken (fun j => pc_wakeup1 _) fun j hj => absurd hj (hnone j)
  have hpi : (s.procs i).wakeup1.pc = .waking := (pc_wakeup1 _).trans hp
  obtain ⟨o, ho, hol⟩ := h'.owner
  refine ⟨h'.lk.keep (by simp [hpi, SlPc.HasLk]), h'.ptable.drop (i := i) (by rw [hpi]; trivial) id,
    ⟨o, ho.keep (by simp [hpi, SlPc.Owns]), hol⟩, fun j hj => ?_, fun j hj => ?_, fun j hj => ?_⟩
  · rcases eq_or_ne j i with rfl | hne
    · simp only [SlSys.goto, update_self] at hj
      exact absurd hj (hnone j)
    · simp only [SlSys.goto, update_of_ne hne] at hj
      exact absurd hj (hnone j)
  · rcases eq_or_ne j i with rfl | hne
    · simp [SlSys.goto] at hj
    · simp only [SlSys.goto, update_of_ne hne] at hj
      exact h'.decided j hj
  · rcases eq_or_ne j i with rfl | hne
    · simp only [SlSys.goto, update_self] at hj
      rcases hj with hj | hj
      · cases hj
      · exact absurd hj (hnone j)
    · simp only [SlSys.goto, update_of_ne hne, pc_wakeup1] at hj
      rcases hj with hj | hj
      · exact absurd (h.ptable.unique (i := j) (j := i) (by rw [hj]; trivial) (by rw [hp]; trivial)) hne
      · exact absurd hj (hnone j)

theorem step {a : Option Nat} (h : SlInv s) (hs : SlStep n s a s') : SlInv s' := by
  cases hs with
  | callAcquire _ hp =>
    exact h.goto (h.lk.keep (by simp [hp, SlPc.HasLk])) (h.ptable.keep (by simp [hp, SlPc.HasPtable])) (by simp [hp, SlPc.Owns])
      (by simp [hp]) (by simp) (by simp [hp, SlPc.Unlocking])
  | acquireLk hp hl =>
    have hlk := h.lk
    rw [hl] at hlk
    exact h.goto (hlk.take (by simp [SlPc.HasLk])) (h.ptable.keep (by simp [hp, SlPc.HasPtable])) (by simp [hp, SlPc.Owns])
      (by simp [hp]) (by simp) (by simp [hp, SlPc.Unlocking])
  | found hp hl =>
    exact h.goto (h.lk.keep (by simp [hp, SlPc.HasLk])) (h.ptable.keep (by simp [hp, SlPc.HasPtable])) (by simp [hp, SlPc.Owns])
      (by simp [hp]) (fun _ => hl) (by simp [hp, SlPc.Unlocking])
  | free hp hl => exact h.taken hp hl
  | sleepPtable hp hl =>
    have hpt := h.ptable
    rw [hl] at hpt
    exact h.goto (h.lk.keep (by simp [hp, SlPc.HasLk])) (hpt.take trivial) (by simp [hp, SlPc.Owns])
      (by simp [hp]) (fun _ => h.decided _ (.inl hp)) (by simp [hp, SlPc.Unlocking])
  | @sleepLk i hp =>
    exact h.goto (h.lk.drop (i := i) (by simp [hp, SlPc.HasLk]) (by simp [SlPc.HasLk]))
      (h.ptable.keep (by simp [hp, SlPc.HasPtable]))
      (by simp [hp, SlPc.Owns]) (by simp [hp]) (fun _ => h.decided _ (.inr hp)) (by simp [hp, SlPc.Unlocking])
  | sched hp => exact h.sched hp
  | @wakened i hp =>
    have h' : SlInv { s with procs := update s.procs i { s.procs i with chan := false } } := by
      refine h.awaken (fun j => ?_) fun j hj => ?_
      · rcases eq_or_ne j i with rfl | hne
        · simp only [update_self]
        · simp only [update_of_ne hne]
      · rcases eq_or_ne j i with rfl | hne
        · simp only [update_self] at hj
          exact absurd hj (h.not_sleeping (by simp [hp]))
        · simp only [update_of_ne hne] at hj ⊢
          exact ⟨hj, trivial⟩
    exact h'.goto (h'.lk.keep (by simp [hp, SlPc.HasLk])) (h'.ptable.drop (i := i) (by simp [hp, SlPc.HasPtable]) id)
      (by simp [hp, SlPc.Owns]) (by simp [hp]) (by simp) (by simp [hp, SlPc.Unlocking])
  | @acquired i hp =>
    exact h.goto (h.lk.drop (i := i) (by simp [hp, SlPc.HasLk]) (by simp [SlPc.HasLk]))
      (h.ptable.keep (by simp [hp, SlPc.HasPtable]))
      (by simp [hp, SlPc.Owns]) (by simp [hp]) (by simp) (by simp [hp, SlPc.Unlocking])
  | callRelease hp =>
    exact h.goto (h.lk.keep (by simp [hp, SlPc.HasLk])) (h.ptable.keep (by simp [hp, SlPc.HasPtable])) (by simp [hp, SlPc.Owns])
      (by simp [hp]) (by simp) (by simp [hp, SlPc.Unlocking])
  | releaseLk hp hl => exact h.unlocked hp hl
  | wakePtable hp hl =>
    have hpt := h.ptable
    rw [hl] at hpt
    exact h.goto (h.lk.keep (by simp [hp, SlPc.HasLk])) (hpt.take trivial) (by simp [hp, SlPc.Owns])
      (by simp [hp]) (by simp) (by simp [SlPc.Unlocking])
  | wakeup hp => exact h.woke hp
  | @released i hp =>
    exact h.goto (h.lk.drop (i := i) (by simp [hp, SlPc.HasLk]) (by simp [SlPc.HasLk]))
      (h.ptable.keep (by simp [hp, SlPc.HasPtable]))
      (by simp [hp, SlPc.Owns]) (by simp [hp]) (by simp) (by simp [hp, SlPc.Unlocking])
  | @callKill i held pid _ hp =>
    cases held <;> simp only [if_true, if_neg Bool.false_ne_true] at hp <;>
      exact h.goto (h.lk.keep (by simp [hp, SlPc.HasLk])) (h.ptable.keep (by simp [hp, SlPc.HasPtable])) (by simp [hp, SlPc.Owns])
        (by simp [hp]) (by simp) (by simp [hp, SlPc.Unlocking])
  | @killPtable i held pid hp hl =>
    have hpt := h.ptable
    rw [hl] at hpt
    cases held <;>
      exact h.goto (h.lk.keep (by simp [hp, SlPc.HasLk])) (hpt.take trivial) (by simp [hp, SlPc.Owns])
        (by simp [hp]) (by simp) (by simp [hp, SlPc.Unlocking])
  | @kill i held pid hp =>
    have h' := h.kill n pid
    cases held <;> simp only [if_true, if_neg Bool.false_ne_true] <;>
      exact h'.goto (h'.lk.keep (by simp [hp, SlPc.HasLk])) (h'.ptable.drop (i := i) (by simp [hp, SlPc.HasPtable]) id)
        (by simp [hp, SlPc.Owns]) (by simp [hp]) (by simp) (by simp [hp, SlPc.Unlocking])
  | schedAcquire hl =>
    have hpt := h.ptable
    rw [hl] at hpt
    exact ⟨h.lk, hpt, h.owner, h.sleeping, h.decided, h.wakeable⟩
  | @schedPick i hl hp hr =>
    have hpt := h.ptable
    rw [hl] at hpt
    obtain ⟨o, ho, hol⟩ := h.owner
    refine ⟨h.lk.keep (by simp [hp, SlPc.HasLk]), hpt.take trivial, ⟨o, ho.keep (by simp [hp, SlPc.Owns]), hol⟩,
      fun j hj => ?_, fun j hj => ?_, fun j hj => ?_⟩
    · dsimp only at hj ⊢
      rcases eq_or_ne j i with rfl | hne
      · simp [update_self] at hj
      · simp only [update_of_ne hne] at hj ⊢
        exact h.sleeping j hj
    · dsimp only at hj
      rcases eq_or_ne j i with rfl | hne
      · simp [update_self] at hj
      · simp only [update_of_ne hne] at hj
        exact h.decided j hj
    · dsimp only at hj
      rcases eq_or_ne j i with rfl | hne
      · simp [update_self] at hj
      · simp only [update_of_ne hne] at hj
        refine (h.wakeable j hj).imp_right fun ⟨k, hk⟩ => ⟨k, ?_⟩
        have hki : k ≠ i := by
          rintro rfl
          simp [hp, SlPc.Unlocking] at hk
        simp only [update_of_ne hki]
        exact hk
  | schedRelease hl =>
    have hpt := h.ptable
    rw [hl] at hpt
    exact ⟨h.lk, hpt, h.owner, h.sleeping, h.decided, h.wakeable⟩

end SlInv

/-- Two processes are never inside at once, and whoever sleeps on the lock will be woken: the lock is taken, or its
last holder has not come to `wakeup` yet. -/
theorem sleeplock_excludes {n : Nat} {h : List (Option Nat)} {s : SlSys} (hr : (slLts n).Run h s) :
    (∀ i j, (s.procs i).pc.Inside → (s.procs j).pc.Inside → i = j) ∧
    ∀ i, (s.procs i).state = .SLEEPING → (s.procs i).chan = true → s.locked = false → ∃ j, (s.procs j).pc.Unlocking := by
  have hinv : SlInv s := hr.invariant (I := fun _ => SlInv) (fun _ => .init) fun _ _ _ _ => .step
  have howns : ∀ {p : SlPc}, p.Inside → p.Owns := fun {p} hp => by
    cases p with
    | holding => trivial
    | toKill held _ => cases held with
      | true => trivial
      | false => exact hp
    | killing held _ => cases held with
      | true => trivial
      | false => exact hp
    | _ => exact hp.elim
  obtain ⟨o, ho, -⟩ := hinv.owner
  refine ⟨fun i j hi hj => ho.unique (howns hi) (howns hj), fun i hs _ hl => ?_⟩
  rcases hinv.wakeable i (.inr hs) with hl' | hex
  · rw [hl] at hl'
    cases hl'
  · exact hex

/-- Process 1 is asleep when process 0 clears `locked`. -/
theorem sleeplock_excludes_unlocked : ∃ h s, (slLts 2).Run h s ∧ (s.procs 1).state = .SLEEPING ∧ s.locked = false ∧
    ∃ j, (s.procs j).pc.Unlocking := by
  have h0 : (slLts 2).Run [] ⟨false, 0, none, none, fun i => ⟨.out, .RUNNING, false, false, i + 1⟩⟩ :=
    .init ⟨rfl, rfl, rfl, fun _ => ⟨rfl, rfl, rfl⟩⟩
  have hheld := ((h0.step (.callAcquire (i := 0) (by decide) rfl)).step (.acquireLk (i :=
    0) rfl rfl)).step (.free (i := 0) rfl rfl)
  have htest := ((hheld.step (.acquired (i := 0) rfl)).step (.callAcquire (i := 1) (by decide)
    rfl)).step (.acquireLk (i := 1) rfl rfl)
  have hgo := ((htest.step (.found (i := 1) rfl rfl)).step (.sleepPtable (i := 1) rfl rfl)).step (.sleepLk (i := 1) rfl)
  have hasleep := (hgo.step (.sched (i := 1) rfl)).step (.schedRelease rfl)
  have hfree := (hasleep.step (.callRelease (i := 0) rfl)).step (.releaseLk (i := 0) rfl rfl)
  exact ⟨_, _, hfree, rfl, rfl, (sleeplock_excludes hfree).2 1 rfl rfl rfl⟩

end Xv6
