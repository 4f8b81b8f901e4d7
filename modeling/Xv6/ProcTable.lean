import Xv6.Kernel
import Xv6.Lts

/-!
# The process table over all interleavings (`proc.c`)

`Ptable` has the fields of `struct proc` that `fork`, `exit`, `wait`, `sleep`, `wakeup` and `kill` share, and for every
process the place in the kernel where it is. A step is one critical section of `ptable.lock`, or one of the stores
that `fork` makes to the new slot without the lock. `sched` and the scheduler pass the lock on from process to process:
a process that is switched to goes on under the lock until it lets it go or sleeps again.
-/

namespace Xv6

abbrev PSlot := Fin NPROC

instance : NeZero NPROC := ⟨by decide⟩

instance : LawfulBEq PSlot := instLawfulBEq

/-- The slot that `userinit` gets. -/
def initproc : PSlot := 0

/-- What a process sleeps on: in `wait` its own slot, anywhere else some other address. -/
inductive Chan
  | slot (p : PSlot)
  | addr (a : Nat)
deriving DecidableEq, Repr

inductive PtPc
  /-- In user code or in a part of the kernel that does not touch the table. -/
  | user
  /-- In `fork`; `allocproc` has taken the slot `np`. -/
  | forked (np : PSlot)
  /-- In `fork`; `np->parent` is set. -/
  | adopted (np : PSlot)
  /-- In a `sleep` outside `wait`. -/
  | asleep
  /-- In the `sleep` of `wait`. -/
  | waiting
  /-- There is no process, or it has exited. -/
  | gone
deriving DecidableEq, Repr

/-- `struct proc`; `chan` is `none` for a null pointer. -/
structure Slot where
  state : ProcState
  pid : BitVec 32
  parent : Option PSlot
  chan : Option Chan
  killed : Bool
  pc : PtPc
deriving DecidableEq

structure Ptable where
  proc : PSlot → Slot
  nextpid : BitVec 32

namespace Ptable

def set (t : Ptable) (p : PSlot) (x : Slot) : Ptable := { t with proc := Function.update t.proc p x }

def goto (t : Ptable) (p : PSlot) (pc : PtPc) : Ptable := t.set p { t.proc p with pc := pc }

def find (t : Ptable) (f : Slot → Bool) : Option PSlot := (List.finRange NPROC).find? fun p => f (t.proc p)

/-- The slot that `allocproc` takes. -/
def unused (t : Ptable) : Option PSlot := t.find fun x => decide (x.state = .UNUSED)

def allocproc (t : Ptable) (i np : PSlot) : Ptable :=
  { t.set np { t.proc np with state := .EMBRYO, pid := t.nextpid } with nextpid := t.nextpid + 1 }.goto i (.forked np)

/-- `fork` gives the slot back, because `kalloc` or `copyuvm` failed. -/
def forkFail (t : Ptable) (i np : PSlot) : Ptable := (t.set np { t.proc np with state := .UNUSED }).goto i .user

/-- `np->parent = curproc` -/
def adopt (t : Ptable) (i np : PSlot) : Ptable := (t.set np { t.proc np with parent := some i }).goto i (.adopted np)

/-- The end of `fork`; the child starts in `forkret`. -/
def forkDone (t : Ptable) (i np : PSlot) : Ptable := (t.set np { t.proc np with state := .RUNNABLE, pc := .user }).goto i .user

end Ptable

def Slot.wakeup1 (c : Chan) (x : Slot) : Slot := if x.state = .SLEEPING ∧
    x.chan = some c then { x with state := .RUNNABLE } else x

namespace Ptable

def wakeup1 (t : Ptable) (c : Chan) : Ptable := { t with proc := fun p => (t.proc p).wakeup1 c }

/-- The body of the loop in `exit`: an abandoned child is passed to `init`. -/
def passToInit (i : PSlot) (t : Ptable) (p : PSlot) : Ptable :=
  if (t.proc p).parent = some i then
    let t := t.set p { t.proc p with parent := some initproc }
    if (t.proc p).state = .ZOMBIE then t.wakeup1 (.slot initproc) else t
  else t

def exit (t : Ptable) (i : PSlot) : Ptable :=
  let t := match (t.proc i).parent with
    | some q => t.wakeup1 (.slot q)
    | none => t
  let t := (List.finRange NPROC).foldl (passToInit i) t
  t.set i { t.proc i with state := .ZOMBIE, pc := .gone }

/-- The child that the loop of `wait` finds. -/
def exited (t : Ptable) (i : PSlot) : Option PSlot := t.find fun x => decide (x.parent = some i ∧ x.state = .ZOMBIE)

def havekids (t : Ptable) (i : PSlot) : Prop := ∃ q, (t.proc q).parent = some i

/-- `wait` frees the slot of a child. -/
def reap (t : Ptable) (q : PSlot) : Ptable :=
  t.set q { t.proc q with pid := 0, parent := none, killed := false, state := .UNUSED }

def sleep (t : Ptable) (i : PSlot) (c : Chan) (pc : PtPc) : Ptable :=
  t.set i { t.proc i with chan := some c, state := .SLEEPING, pc := pc }

/-- The scheduler switches to a process in `sleep`, which clears its channel. -/
def resume (t : Ptable) (i : PSlot) : Ptable := t.set i { t.proc i with state := .RUNNING, chan := none, pc := .user }

/-- The slot that `kill` finds. -/
def withPid (t : Ptable) (pid : BitVec 32) : Option PSlot := t.find fun x => decide (x.pid = pid)

def kill (t : Ptable) (pid : BitVec 32) : Ptable × Int :=
  match t.withPid pid with
  | some p => (t.set p { t.proc p with
      killed := true
      state := if (t.proc p).state = .SLEEPING then .RUNNABLE else (t.proc p).state }, 0)
  | none => (t, -1)

/-- Process `i` runs, outside of the functions modelled here. -/
def Runs (t : Ptable) (i : PSlot) : Prop := (t.proc i).state = .RUNNING ∧ (t.proc i).pc = .user

end Ptable

/-- What happens in a step. Processes are named by slot, and by pid where the history of a process matters. -/
inductive PtEv
  | noSlot (i : PSlot)
  | alloc (i np : PSlot)
  | forkFail (i np : PSlot)
  | adopt (i np : PSlot)
  /-- `fork` returns `child` in the process `parent`. -/
  | fork (parent child : BitVec 32)
  | exit (pid : BitVec 32)
  /-- `wait` in the process `parent` frees the slot `q` and returns `child`. -/
  | reap (q : PSlot) (parent child : BitVec 32)
  /-- `wait` returns -1. -/
  | waitFail (i : PSlot)
  | waitSleep (i : PSlot)
  | sleep (i : PSlot) (c : Chan)
  | wakeup (c : Chan)
  | kill (pid : BitVec 32) (r : Int)
  | yield (i : PSlot)
  /-- The scheduler picks the process. -/
  | run (i : PSlot)
deriving DecidableEq

/-- `wait` scans the table, at the call or when it is woken up. -/
inductive WaitScan (i : PSlot) (t : Ptable) : PtEv → Ptable → Prop
  | reap {q : PSlot} (h : t.exited i = some q) : WaitScan i t (.reap q (t.proc i).pid (t.proc q).pid) (t.reap q)
  | fail (h : t.exited i = none) (hk : ¬ t.havekids i ∨ (t.proc i).killed = true) : WaitScan i t (.waitFail i) t
  | sleep (h : t.exited i = none) (hk : t.havekids i) (hn : (t.proc i).killed = false) :
      WaitScan i t (.waitSleep i) (t.sleep i (.slot i) .waiting)

/-- One critical section, or one store of `fork`; `exit` of `init` panics. -/
inductive PtStep : Ptable → PtEv → Ptable → Prop
  | noSlot {t : Ptable} {i : PSlot} (hi : t.Runs i) (h : t.unused = none) : PtStep t (.noSlot i) t
  | alloc {t : Ptable} {i np : PSlot} (hi : t.Runs i) (h : t.unused = some np) : PtStep t (.alloc i np) (t.allocproc i np)
  | forkFail {t : Ptable} {i np : PSlot} (hi : (t.proc i).state = .RUNNING) (hp : (t.proc i).pc = .forked np) :
      PtStep t (.forkFail i np) (t.forkFail i np)
  | adopt {t : Ptable} {i np : PSlot} (hi : (t.proc i).state = .RUNNING) (hp : (t.proc i).pc = .forked np) :
      PtStep t (.adopt i np) (t.adopt i np)
  | fork {t : Ptable} {i np : PSlot} (hi : (t.proc i).state = .RUNNING) (hp : (t.proc i).pc = .adopted np) :
      PtStep t (.fork (t.proc i).pid (t.proc np).pid) (t.forkDone i np)
  | exit {t : Ptable} {i : PSlot} (hi : t.Runs i) (h : i ≠ initproc) : PtStep t (.exit (t.proc i).pid) (t.exit i)
  | wait {t t' : Ptable} {i : PSlot} {e : PtEv} (hi : t.Runs i) (h : WaitScan i t e t') : PtStep t e t'
  | waitAgain {t t' : Ptable} {i : PSlot} {e : PtEv} (hi : (t.proc i).state = .RUNNABLE) (hp : (t.proc i).pc = .waiting)
      (h : WaitScan i (t.resume i) e t') : PtStep t e t'
  | sleep {t : Ptable} {i : PSlot} {a : Nat} (hi : t.Runs i) : PtStep t (.sleep i (.addr a)) (t.sleep i (.addr a) .asleep)
  | wakeup {t : Ptable} (c : Chan) : PtStep t (.wakeup c) (t.wakeup1 c)
  | kill {t : Ptable} (pid : BitVec 32) : PtStep t (.kill pid (t.kill pid).2) (t.kill pid).1
  | yield {t : Ptable} {i : PSlot} (hi : (t.proc i).state = .RUNNING) :
      PtStep t (.yield i) (t.set i { t.proc i with state := .RUNNABLE })
  | run {t : Ptable} {i : PSlot} (hi : (t.proc i).state = .RUNNABLE) (hp : (t.proc i).pc ≠ .asleep ∧ (t.proc i).pc ≠ .waiting) :
      PtStep t (.run i) (t.set i { t.proc i with state := .RUNNING })
  | resume {t : Ptable} {i : PSlot} (hi : (t.proc i).state = .RUNNABLE) (hp : (t.proc i).pc = .asleep) :
      PtStep t (.run i) (t.resume i)

/-- The table after `userinit`. -/
def Ptable.boot : Ptable where
  proc p := if p = initproc then ⟨.RUNNABLE, 1, none, none, false, .user⟩ else ⟨.UNUSED, 0, none, none, false, .gone⟩
  nextpid := 2

def ptLts : Lts Ptable PtEv where
  init t := t = .boot
  step := PtStep

/-! ### What the steps do to a slot -/

namespace Ptable

variable {t : Ptable} {i p q : PSlot} {x : Slot} {c : Chan} {f : Slot → Bool}

theorem set_self : (t.set p x).proc p = x := Function.update_self ..

theorem set_of_ne (h : q ≠ p) : (t.set p x).proc q = t.proc q := Function.update_of_ne h ..

theorem proj_set {α : Type} (g : Slot → α) (h : g x = g (t.proc p)) (q : PSlot) : g ((t.set p x).proc q) = g (t.proc q) := by
  rcases eq_or_ne q p with rfl | hne
  · rw [set_self, h]
  · rw [set_of_ne hne]

theorem find_spec (h : t.find f = some p) : f (t.proc p) = true := by
  unfold find at h
  exact List.find?_some (p := fun p => f (t.proc p)) h

theorem find_none (h : t.find f = none) (p : PSlot) : f (t.proc p) = false :=
  Bool.eq_false_iff.2 (List.find?_eq_none.1 h p (List.mem_finRange p))

end Ptable

namespace Slot

variable {c : Chan} {x : Slot}

theorem proj_wakeup1 {α : Type} (g : Slot → α) (h : ∀ x st, g { x with state := st } = g x) : g (x.wakeup1 c) = g x := by
  unfold wakeup1
  split
  · exact h x _
  · rfl

theorem wakeup1_sleeping (h : (x.wakeup1 c).state = .SLEEPING) : x.state = .SLEEPING ∧ x.chan ≠ some c := by
  unfold wakeup1 at h
  split at h
  · cases h
  · next hn => exact ⟨h, fun hc => hn ⟨h, hc⟩⟩

theorem wakeup1_state : (x.wakeup1 c).state = x.state ∨ x.state = .SLEEPING ∧ (x.wakeup1 c).state = .RUNNABLE := by
  unfold wakeup1
  split
  · next h => exact .inr ⟨h.1, rfl⟩
  · exact .inl rfl

end Slot

def ProcState.Wakes (a b : ProcState) : Prop := b = a ∨ a = .SLEEPING ∧ b = .RUNNABLE

theorem ProcState.Wakes.trans {a b c : ProcState} (h : a.Wakes b) (h' : b.Wakes c) : a.Wakes c := by
  rcases h with rfl | ⟨ha, rfl⟩
  · exact h'
  · rcases h' with rfl | ⟨hb, -⟩
    · exact .inr ⟨ha, rfl⟩
    · cases hb

namespace Ptable

variable {t : Ptable} {i p q : PSlot} {l : List PSlot}

section PassToInit

theorem proj_passToInit {α : Type} (g : Slot → α) (h : ∀ x st, g { x with state := st } = g x)
    (h' : ∀ x a, g { x with parent := a } = g x)
    (p q : PSlot) : g ((passToInit i t p).proc q) = g (t.proc q) := by
  unfold passToInit
  split
  · dsimp only
    split
    · exact (Slot.proj_wakeup1 g h).trans (proj_set g (h' _ _) q)
    · exact proj_set g (h' _ _) q
  · rfl

theorem passToInit_parent (p q : PSlot) :
    ((passToInit i t p).proc q).parent = if q = p ∧ (t.proc q).parent = some i then some initproc else (t.proc q).parent := by
  unfold passToInit
  split
  · next hp =>
    have hset : ((t.set p { t.proc p with parent := some initproc }).proc q).parent =
        if q = p ∧ (t.proc q).parent = some i then some initproc else (t.proc q).parent := by
      rcases eq_or_ne q p with rfl | hne
      · rw [set_self, if_pos ⟨rfl, hp⟩]
      · rw [set_of_ne hne, if_neg fun h => hne h.1]
    dsimp only
    split
    · exact (Slot.proj_wakeup1 (·.parent) fun _ _ => rfl).trans hset
    · exact hset
  · next hp =>
    have hn : ¬ (q = p ∧ (t.proc q).parent = some i) := fun h => hp (h.1 ▸ h.2)
    rw [if_neg hn]

theorem passToInit_state (p q : PSlot) : (t.proc q).state.Wakes ((passToInit i t p).proc q).state := by
  unfold passToInit
  split
  · have hset : ((t.set p { t.proc p with parent := some initproc }).proc q).state = (t.proc q).state :=
      proj_set (·.state) (by rfl) q
    dsimp only
    split
    · rw [← hset]
      exact Slot.wakeup1_state
    · exact .inl hset
  · exact .inl rfl

theorem passToInit_wakes (hp : (t.proc p).parent = some i) (hz : (t.proc p).state = .ZOMBIE)
    (hs : ((passToInit i t p).proc q).state = .SLEEPING) : (t.proc q).chan ≠ some (.slot initproc) := by
  unfold passToInit at hs
  have hset : ((t.set p { t.proc p with parent := some initproc }).proc p).state = .ZOMBIE := by rw [set_self, ← hz]
  rw [if_pos hp, if_pos hset] at hs
  obtain ⟨-, hc⟩ := Slot.wakeup1_sleeping hs
  have hset' : ((t.set p { t.proc p with parent := some initproc }).proc q).chan = (t.proc q).chan := proj_set (·.chan) (by rfl) q
  rwa [hset'] at hc

/-- The loop of `exit`. -/
structure Passed (i : PSlot) (l : List PSlot) (t t' : Ptable) : Prop where
  nextpid : t'.nextpid = t.nextpid
  same : ∀ {α : Type} (g : Slot → α), (∀ x st, g { x with state := st } = g x) → (∀ x a, g { x with parent := a } = g x) →
    ∀ p, g (t'.proc p) = g (t.proc p)
  parent : ∀ p, (t'.proc p).parent = if p ∈ l ∧ (t.proc p).parent = some i then some initproc else (t.proc p).parent
  state : ∀ p, (t.proc p).state.Wakes (t'.proc p).state
  wakes : ∀ q ∈ l, (t.proc q).parent = some i → (t.proc q).state = .ZOMBIE → ∀ p, (t'.proc p).state = .SLEEPING →
    (t.proc p).chan ≠ some (.slot initproc)

theorem passed (hi : i ≠ initproc) (l : List PSlot) (t : Ptable) : Passed i l t (l.foldl (passToInit i) t) := by
  induction l generalizing t with
  | nil => exact ⟨rfl, fun _ _ _ _ => rfl, fun p => by simp, fun _ => .inl rfl, fun q hq => absurd hq List.not_mem_nil⟩
  | cons a l ih =>
    have h := ih (passToInit i t a)
    have hne : some initproc ≠ some i := fun he => hi (Option.some.inj he).symm
    refine ⟨h.nextpid.trans ?_, fun g h₁ h₂ p => (h.same g h₁ h₂ p).trans (proj_passToInit g h₁ h₂ a p), fun p => ?_,
      fun p => (passToInit_state a p).trans (h.state p), fun q hq hqi hz p hp => ?_⟩
    · unfold passToInit
      split
      · dsimp only
        split <;> rfl
      · rfl
    · rw [List.foldl_cons, h.parent p, passToInit_parent]
      by_cases hpi : (t.proc p).parent = some i
      · by_cases hpa : p = a
        · subst hpa
          simp [hpi]
        · simp [hpa, hpi]
      · simp [hpi]
    · rw [List.foldl_cons] at hp
      have hchan : ((passToInit i t a).proc p).chan = (t.proc p).chan :=
        proj_passToInit (·.chan) (fun _ _ => rfl) (fun _ _ => rfl) a p
      rcases eq_or_ne q a with rfl | hqa
      · -- the zombie is the first slot: whoever sleeps now slept after the first step too
        have hs : ((passToInit i t q).proc p).state = .SLEEPING := by
          rcases h.state p with he | ⟨he, -⟩
          · rw [← he, hp]
          · exact he
        exact passToInit_wakes hqi hz hs
      · rw [← hchan]
        refine h.wakes q ((List.mem_cons.1 hq).resolve_left hqa) ?_ ?_ p hp
        · rw [passToInit_parent, if_neg fun h' => hqa h'.1, hqi]
        · rcases passToInit_state (i := i) (t := t) a q with he | ⟨he, -⟩
          · rw [he, hz]
          · rw [hz] at he
            cases he

end PassToInit

/-- The critical section of `exit`. -/
structure Exits (i : PSlot) (t t' : Ptable) : Prop where
  nextpid : t'.nextpid = t.nextpid
  same : ∀ {α : Type} (g : Slot → α), (∀ x st, g { x with state := st } = g x) → (∀ x a, g { x with parent := a } = g x) →
    (∀ x a, g { x with pc := a } = g x) → ∀ p, g (t'.proc p) = g (t.proc p)
  parent : ∀ p, (t'.proc p).parent = if (t.proc p).parent = some i then some initproc else (t.proc p).parent
  self : (t'.proc i).state = .ZOMBIE ∧ (t'.proc i).pc = .gone
  pc : ∀ p, p ≠ i → (t'.proc p).pc = (t.proc p).pc
  state : ∀ p, p ≠ i → (t.proc p).state.Wakes (t'.proc p).state
  /-- The parent is woken, and `init` if it gets a zombie. -/
  wakes : ∀ p, p ≠ i → (t'.proc p).state = .SLEEPING → (∀ q, (t.proc i).parent = some q → (t.proc p).chan ≠ some (.slot q)) ∧
    ∀ q, (t.proc q).parent = some i → (t.proc q).state = .ZOMBIE → (t.proc p).chan ≠ some (.slot initproc)

theorem exits (hi : i ≠ initproc) (t : Ptable) : Exits i t (t.exit i) := by
  -- the table after the first `wakeup1`
  obtain ⟨t₁, ht₁, hn₁, hsame₁, hstate₁, hwake₁⟩ : ∃ t₁ : Ptable,
      t.exit i = ((List.finRange NPROC).foldl (passToInit i) t₁).set i
        { ((List.finRange NPROC).foldl (passToInit i) t₁).proc i with state := .ZOMBIE, pc := .gone } ∧
      t₁.nextpid = t.nextpid ∧
      (∀ {α : Type} (g : Slot → α), (∀ x st, g { x with state := st } = g x) → ∀ p, g (t₁.proc p) = g (t.proc p)) ∧
      (∀ p, (t.proc p).state.Wakes (t₁.proc p).state) ∧
      ∀ q, (t.proc i).parent = some q → ∀ p, (t₁.proc p).state = .SLEEPING → (t.proc p).chan ≠ some (.slot q) := by
    cases hpar : (t.proc i).parent with
    | none =>
      refine ⟨t, ?_, rfl, fun _ _ _ => rfl, fun _ => .inl rfl, fun q hq => nomatch hq⟩
      simp only [exit, hpar]
    | some q =>
      refine ⟨t.wakeup1 (.slot q), ?_, rfl, fun g hg p => Slot.proj_wakeup1 g hg, fun p =>
        Slot.wakeup1_state, fun q' hq p hp => ?_⟩
      · simp only [exit, hpar]
      · obtain rfl := Option.some.inj hq
        exact (Slot.wakeup1_sleeping hp).2
  have h := passed hi (List.finRange NPROC) t₁
  rw [ht₁]
  generalize (List.finRange NPROC).foldl (passToInit i) t₁ = t₂ at h ⊢
  refine ⟨h.nextpid.trans hn₁, fun g h₁ h₂ h₃ p => ?_, fun p => ?_, ?_, fun p hp => ?_, fun p hp => ?_, fun p hp hs => ?_⟩
  · rw [proj_set g (by rw [h₃ { t₂.proc i with state := .ZOMBIE } .gone, h₁]) p, h.same g h₁ h₂, hsame₁ g h₁]
  · have hpar : (t₁.proc p).parent = (t.proc p).parent := hsame₁ (·.parent) (fun _ _ => rfl) p
    rw [proj_set (·.parent) (by rfl) p, h.parent p, hpar]
    simp
  · rw [set_self]
    exact ⟨rfl, rfl⟩
  · rw [set_of_ne hp, h.same (·.pc) (fun _ _ => rfl) (fun _ _ => rfl), hsame₁ (·.pc) fun _ _ => rfl]
  · rw [set_of_ne hp]
    exact (hstate₁ p).trans (h.state p)
  · rw [set_of_ne hp] at hs
    have hs₁ : (t₁.proc p).state = .SLEEPING := by
      rcases h.state p with he | ⟨he, -⟩
      · rw [← he, hs]
      · exact he
    have hchan : (t₁.proc p).chan = (t.proc p).chan := hsame₁ (·.chan) (fun _ _ => rfl) p
    refine ⟨fun q hq => hwake₁ q hq p hs₁, fun q hq hz => ?_⟩
    rw [← hchan]
    refine h.wakes q (List.mem_finRange q) ?_ ?_ p hs
    · rw [hsame₁ (·.parent) (fun _ _ => rfl) q, hq]
    · rcases hstate₁ q with he | ⟨he, -⟩
      · rw [he, hz]
      · rw [hz] at he
        cases he

end Ptable

end Xv6
