import Xv6.Reaping

/-!
# Pids and `kill`

`nextpid` is an `int` that `allocproc` increments without looking at it, so the pids of a run are 1, 2, 3 and so on until
the counter passes 2^31 - 1. `kill` looks for a pid in all slots, used or not: an unused slot has the pid 0 or that of a
`fork` that failed, and keeps the mark for the next process in it.
-/

namespace Xv6

/-! ### Uniqueness -/

def holdingsleep (locked : Bool) (pid mypid : BitVec 32) : Bool := locked && decide (pid = mypid)

/-- Pids of slots in use are different and positive, so that a sleep-lock held by one process is not held by another, and the
result of `fork` is neither 0 nor -1. -/
structure PidsOk (t : Ptable) : Prop where
  unique : ∀ p q, (t.proc p).state ≠ .UNUSED → (t.proc q).state ≠ .UNUSED → (t.proc p).pid = (t.proc q).pid → p = q
  positive : ∀ p, (t.proc p).state ≠ .UNUSED → 0 < (t.proc p).pid.toInt
  holder : ∀ p q, (t.proc p).state ≠ .UNUSED → (t.proc q).state ≠ .UNUSED →
    (holdingsleep true (t.proc p).pid (t.proc q).pid = true ↔ q = p)
  fork : ∀ t' a c, PtStep t (.fork a c) t' → 0 < c.toInt

theorem Lineage.pidsOk {h : List PtEv} {t : Ptable} (hl : Lineage h t) (hroom : allocs h < 2 ^ 31 - 1) : PidsOk t := by
  have hpos : ∀ p, (t.proc p).state ≠ .UNUSED → 0 < (t.proc p).pid.toInt := fun p hp => by
    have hpid := hl.pid p hp
    have hnext := hl.nextpid
    rw [BitVec.toInt_eq_toNat_of_lt (by omega)]
    omega
  refine ⟨hl.unique, hpos, fun p q hp hq => ?_, fun t' a c hs => ?_⟩
  · rw [holdingsleep, Bool.true_and, decide_eq_true_iff]
    exact ⟨fun he => (hl.unique p q hp hq he).symm, fun he => by rw [he]⟩
  · cases hs with
    | fork hi hp =>
      have hst := (hl.ok.adopted _ _ hp).1
      exact hpos _ (by simp [hst])
    | wait hi hw => cases hw
    | waitAgain hi hp hw => cases hw

/-! ### The counter wraps -/

/-- Only `init` is there, and `k` calls of `fork` have failed. -/
def afterForks (k : Nat) : Ptable where
  proc p := if p = initproc then ⟨.RUNNING, 1, none, none, false, .user⟩
    else if p = 1 then ⟨.UNUSED, if k = 0 then 0 else BitVec.ofNat 32 (1 + k), none, none, false, .gone⟩
    else ⟨.UNUSED, 0, none, none, false, .gone⟩
  nextpid := BitVec.ofNat 32 (2 + k)

theorem unused_afterForks (k : Nat) : (afterForks k).unused = some 1 := rfl

theorem boot_run : PtStep .boot (.run 0) (afterForks 0) := by
  have heq : Ptable.boot.set 0 { Ptable.boot.proc 0 with state := .RUNNING } = afterForks 0 := by
    refine congrArg (Ptable.mk · 2) (funext fun p => ?_)
    rcases eq_or_ne p 0 with rfl | hne
    · rfl
    · rw [Function.update_of_ne hne]
      simp [Ptable.boot, initproc, hne]
  rw [← heq]
  exact .run rfl (by decide)

theorem run_boot : ptLts.Run [.run 0] (afterForks 0) := .step (.init rfl) boot_run

theorem forkFail_afterForks (k : Nat) : ((afterForks k).allocproc 0 1).forkFail 0 1 = afterForks (k + 1) := by
  have hnext : (((afterForks k).allocproc 0 1).forkFail 0 1).nextpid = (afterForks (k + 1)).nextpid := by
    change BitVec.ofNat 32 (2 + k) + 1#32 = BitVec.ofNat 32 (2 + k + 1)
    rw [← BitVec.ofNat_add]
  have hproc : (((afterForks k).allocproc 0 1).forkFail 0 1).proc = (afterForks (k + 1)).proc := by
    funext p
    by_cases h0 : p = 0
    · subst h0
      rfl
    by_cases h1 : p = 1
    · subst h1
      have hpid : BitVec.ofNat 32 (2 + k) = BitVec.ofNat 32 (1 + (k + 1)) := congrArg _ (by omega)
      exact congrArg (Slot.mk .UNUSED · none none false .gone) hpid
    · simp [Ptable.forkFail, Ptable.allocproc, Ptable.goto, Ptable.set, Function.update_apply, afterForks, initproc, h0, h1]
  exact congr (congrArg Ptable.mk hproc) hnext

theorem run_afterForks (k : Nat) : ∃ h, ptLts.Run h (afterForks k) ∧ allocs h = k := by
  induction k with
  | zero => exact ⟨_, run_boot, rfl⟩
  | succ k ih =>
    obtain ⟨h, hr, hk⟩ := ih
    have halloc := hr.step (.alloc (i := 0) ⟨rfl, rfl⟩ (unused_afterForks k))
    have hfail := halloc.step (.forkFail (i := 0) rfl rfl)
    rw [forkFail_afterForks] at hfail
    refine ⟨_, hfail, ?_⟩
    simp only [← hk, allocs, List.countP_cons, PtEv.isAlloc]
    rfl

theorem run_fork (k : Nat) : ∃ h t, ptLts.Run h t ∧ allocs h = k + 1 ∧ (t.proc 0).state ≠ .UNUSED ∧ (t.proc 0).pid = 1 ∧
    (t.proc 1).state = .RUNNABLE ∧ (t.proc 1).pid = BitVec.ofNat 32 (2 + k) := by
  obtain ⟨h, hr, hk⟩ := run_afterForks k
  have halloc := hr.step (.alloc (i := 0) ⟨rfl, rfl⟩ (unused_afterForks k))
  have hfork := (halloc.step (.adopt (i := 0) rfl rfl)).step (.fork (i := 0) rfl rfl)
  refine ⟨_, _, hfork, ?_, nofun, rfl, rfl, rfl⟩
  simp only [← hk, allocs, List.countP_cons, PtEv.isAlloc]
  rfl

/-- Pids are unique and positive in all runs with at most `n` slots allocated by `fork`, failed calls included, if and only if
`n` is less than 2^31 - 1. -/
theorem pids_ok_iff (n : Nat) : (∀ h t, ptLts.Run h t → allocs h ≤ n → PidsOk t) ↔ n < 2 ^ 31 - 1 := by
  constructor
  · intro hok
    by_contra hn
    obtain ⟨h, t, hr, hk, -, -, hst, hpid⟩ := run_fork (2 ^ 31 - 2)
    have hpos := (hok h t hr (by omega)).positive 1 (by rw [hst]; decide)
    rw [hpid] at hpos
    exact absurd hpos (by decide)
  · intro hn h t hr hle
    exact (Lineage.run hr (by omega)).pidsOk (by omega)

/-- One call of `fork` later than the last pid an `int` has, and again after 2^32 calls. -/
theorem pids_wrap : (∃ h t, ptLts.Run h t ∧ (t.proc 1).state = .RUNNABLE ∧ (t.proc 1).pid.toInt = -2 ^ 31) ∧
    ∃ h t, ptLts.Run h t ∧ (t.proc 0).state ≠ .UNUSED ∧ (t.proc 1).state ≠ .UNUSED ∧ (t.proc 0).pid = (t.proc 1).pid := by
  constructor
  · obtain ⟨h, t, hr, -, -, -, hst, hpid⟩ := run_fork (2 ^ 31 - 2)
    refine ⟨h, t, hr, hst, ?_⟩
    rw [hpid]
    decide
  · obtain ⟨h, t, hr, -, hinit, hone, hst, hpid⟩ := run_fork (2 ^ 32 - 1)
    refine ⟨h, t, hr, hinit, by rw [hst]; decide, ?_⟩
    rw [hone, hpid]
    decide

/-! ### `kill` -/

/-- The slot that `kill` finds, if any, has a process in it, and one that has left `fork`. -/
def KillsProcess (t : Ptable) : PtEv → Prop
  | .kill pid _ => ∀ p, t.withPid pid = some p → (t.proc p).state ≠ .UNUSED ∧ (t.proc p).state ≠ .EMBRYO
  | _ => True

def Unmarked (t : Ptable) : Prop := ∀ p, (t.proc p).state = .UNUSED ∨ (t.proc p).state = .EMBRYO → (t.proc p).killed = false

namespace Unmarked

variable {t t' : Ptable} {e : PtEv} {i p : PSlot} {x : Slot}

theorem set (h : Unmarked t) (hx : x.state = .UNUSED ∨ x.state = .EMBRYO → x.killed = false) : Unmarked
    (t.set p x) := fun q hq => by
  rcases eq_or_ne q p with rfl | hne
  · rw [Ptable.set_self] at hq ⊢
    exact hx hq
  · rw [Ptable.set_of_ne hne] at hq ⊢
    exact h q hq

theorem goto (h : Unmarked t) (pc : PtPc) : Unmarked (t.goto p pc) := h.set (h p)

theorem congr (h : Unmarked t) (hs : ∀ p, (t'.proc p).state = .UNUSED ∨ (t'.proc p).state = .EMBRYO →
    (t'.proc p).state = (t.proc p).state)
    (hk : ∀ p, (t'.proc p).killed = (t.proc p).killed) : Unmarked t' := fun p hp => by
  rw [hk]
  exact h p (hs p hp ▸ hp)

theorem wakes {a b : ProcState} (h : a.Wakes b) (hb : b = .UNUSED ∨ b = .EMBRYO) : b = a := by
  rcases h with he | ⟨-, rfl⟩
  · exact he
  · simp at hb

theorem waitScan (h : Unmarked t) (hs : WaitScan i t e t') : Unmarked t' := by
  cases hs with
  | reap => exact h.set fun _ => rfl
  | fail => exact h
  | sleep => exact h.set fun hx => by simp at hx

theorem step (h : Unmarked t) (hok : PtOk t) (hkill : KillsProcess t e) (hs : PtStep t e t') : Unmarked t' := by
  cases hs with
  | noSlot => exact h
  | @alloc i np hi hu =>
    have hset : Unmarked { t.set np { t.proc np with state := .EMBRYO, pid := t.nextpid } with nextpid := t.nextpid + 1 } :=
      h.set fun _ => h np (.inl (of_decide_eq_true (Ptable.find_spec hu)))
    exact hset.goto _
  | @forkFail i np hi hp =>
    have hset : Unmarked (t.set np { t.proc np with state := .UNUSED }) := h.set fun _ => h np (.inr (hok.forked i np hp).1)
    exact hset.goto _
  | @adopt i np hi hp =>
    have hset : Unmarked (t.set np { t.proc np with parent := some i }) := h.set fun _ => h np (.inr (hok.forked i np hp).1)
    exact hset.goto _
  | @fork i np hi hp =>
    have hset : Unmarked (t.set np { t.proc np with state := .RUNNABLE, pc := .user }) := h.set fun hx => by simp at hx
    exact hset.goto _
  | @exit i hi hne =>
    have hex := Ptable.exits hne t
    refine h.congr (fun p hp => ?_) (hex.same (·.killed) (fun _ _ => rfl) (fun _ _ => rfl) fun _ _ => rfl)
    rcases eq_or_ne p i with rfl | hpi
    · rw [hex.self.1] at hp
      simp at hp
    · exact wakes (hex.state p hpi) hp
  | wait hi hw => exact h.waitScan hw
  | waitAgain hi hp hw => exact waitScan (h.set fun hx => by simp at hx) hw
  | sleep hi => exact h.set fun hx => by simp at hx
  | wakeup c => exact h.congr (fun p hp => wakes Slot.wakeup1_state hp) fun p => Slot.proj_wakeup1 (·.killed) fun _ _ => rfl
  | kill pid =>
    unfold Ptable.kill
    split
    · next p hp =>
      have hst := hkill p hp
      refine h.set fun hx => ?_
      dsimp only at hx
      split at hx
      · simp at hx
      · exact absurd hx (not_or.2 hst)
    · exact h
  | yield hi => exact h.set fun hx => by simp at hx
  | run hi hp => exact h.set fun hx => by simp at hx
  | resume hi hp => exact h.set fun hx => by simp at hx

end Unmarked

theorem Unmarked.run {h : List PtEv} {t : Ptable} (hr : (ptLts.guard KillsProcess).Run h t) : PtOk t ∧ Unmarked t := by
  refine Lts.Run.invariant (S := ptLts.guard KillsProcess) (I := fun _ t => PtOk t ∧ Unmarked t) (fun s hs => ?_)
    (fun _ _ _ _ hi hs => ⟨hi.1.step hs.2, hi.2.step hi.1 hs.1 hs.2⟩) hr
  obtain rfl : s = Ptable.boot := hs
  refine ⟨.boot, fun p _ => ?_⟩
  unfold Ptable.boot
  dsimp only
  split <;> rfl

theorem kill_result {t : Ptable} {pid : BitVec 32} (h : ∀ p, t.withPid pid = some p → (t.proc p).state ≠ .UNUSED) :
    (t.kill pid).2 = 0 ↔ ∃ p, (t.proc p).state ≠ .UNUSED ∧ (t.proc p).pid = pid := by
  cases hp : t.withPid pid with
  | some p =>
    have hr : (t.kill pid).2 = 0 := by simp only [Ptable.kill, hp]
    exact ⟨fun _ => ⟨p, h p hp, of_decide_eq_true (Ptable.find_spec hp)⟩, fun _ => hr⟩
  | none =>
    have hr : (t.kill pid).2 = -1 := by simp only [Ptable.kill, hp]
    refine ⟨fun h0 => ?_, fun ⟨p, _, he⟩ => absurd he (of_decide_eq_false (Ptable.find_none hp p))⟩
    rw [hr] at h0
    cases h0

/-- In every run in which `kill` finds only processes: it returns 0 just when a slot in use has the pid, no unused slot is
marked as killed, and neither is a process that `fork` makes. -/
theorem kill_existing {h : List PtEv} {t : Ptable} (hr : (ptLts.guard KillsProcess).Run h t) :
    (∀ pid r t', (ptLts.guard KillsProcess).step t (.kill pid r) t' →
      (r = 0 ↔ ∃ p, (t.proc p).state ≠ .UNUSED ∧ (t.proc p).pid = pid)) ∧
    (∀ p, (t.proc p).state = .UNUSED → (t.proc p).killed = false) ∧
    ∀ a c t', (ptLts.guard KillsProcess).step t (.fork a c) t' →
      ∀ p, (t.proc p).state = .EMBRYO → (t'.proc p).state = .RUNNABLE → (t'.proc p).killed = false := by
  obtain ⟨hok, hun⟩ := Unmarked.run hr
  refine ⟨fun pid r t' hs => ?_, fun p hp => hun p (.inl hp), fun a c t' hs p hp _ => ?_⟩
  · have hused : ∀ p, t.withPid pid = some p → (t.proc p).state ≠ .UNUSED := fun p hp => (hs.1 p hp).1
    cases hs.2 with
    | kill => exact kill_result hused
    | wait hi hw => cases hw
    | waitAgain hi hp hw => cases hw
  · have hkilled : (t'.proc p).killed = (t.proc p).killed := by
      cases hs.2 with
      | fork => exact (Ptable.proj_set (·.killed) (by rfl) p).trans (Ptable.proj_set (·.killed) (by rfl) p)
      | wait hi hw => cases hw
      | waitAgain hi hp hw => cases hw
    rw [hkilled]
    exact hun p (.inr hp)

/-- `init` forks, and then `kill` is called with the pid of the child. -/
theorem kill_existing_child : ∃ h t, (ptLts.guard KillsProcess).Run h t ∧ KillsProcess t (.kill 2 0) ∧ (t.kill 2).2 = 0 ∧
    ∃ p, (t.proc p).state ≠ .UNUSED ∧ (t.proc p).pid = 2 := by
  have hboot : (ptLts.guard KillsProcess).Run [.run 0] (afterForks 0) := .step (.init rfl) ⟨trivial, boot_run⟩
  have halloc : (ptLts.guard KillsProcess).step (afterForks 0) (.alloc 0 1) _ :=
    ⟨trivial, .alloc ⟨rfl, rfl⟩ (unused_afterForks 0)⟩
  have hadopt : (ptLts.guard KillsProcess).step ((afterForks 0).allocproc 0 1) (.adopt 0 1) _ := ⟨trivial, .adopt rfl rfl⟩
  have hfork : PtStep (((afterForks 0).allocproc 0 1).adopt 0 1) _ _ := .fork (i := 0) rfl rfl
  have hdone : (ptLts.guard KillsProcess).step (((afterForks 0).allocproc 0 1).adopt 0 1) (.fork 1 2) _ := ⟨trivial, hfork⟩
  have hrun := ((hboot.step halloc).step hadopt).step hdone
  have hkill : KillsProcess ((((afterForks 0).allocproc 0 1).adopt 0 1).forkDone 0 1) (.kill 2 0) := by
    intro p hp
    obtain rfl : 1 = p := Option.some.inj hp
    exact ⟨by decide, by decide⟩
  exact ⟨_, _, hrun, hkill, rfl, ((kill_existing hrun).1 2 0 _ ⟨hkill, .kill 2⟩).1 rfl⟩

/-- `kill(0)` right after the start finds the first unused slot, and the next process starts with the mark. -/
theorem kill_marks_unused : (∃ h, ptLts.Run h ((afterForks 0).kill 0).1) ∧ ((afterForks 0).kill 0).2 = 0 ∧
    (∀ p, ((afterForks 0).proc p).state ≠ .UNUSED → ((afterForks 0).proc p).pid ≠ 0) ∧
    (((afterForks 0).kill 0).1.proc 1).state = .UNUSED ∧ (((afterForks 0).kill 0).1.proc 1).killed = true ∧
    ∃ h t, ptLts.Run h t ∧ (t.proc 1).state = .RUNNABLE ∧ (t.proc 1).pid = 2 ∧ (t.proc 1).killed = true := by
  have hkill : ptLts.Run _ ((afterForks 0).kill 0).1 := run_boot.step (.kill 0)
  have halloc := hkill.step (.alloc (i := 0) ⟨rfl, rfl⟩ (show _ = some 1 by rfl))
  have hfork := (halloc.step (.adopt (i := 0) rfl rfl)).step (.fork (i := 0) rfl rfl)
  exact ⟨⟨_, hkill⟩, rfl, by decide, rfl, rfl, _, _, hfork, rfl, rfl, rfl⟩

end Xv6
