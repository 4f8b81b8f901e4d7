import Xv6.ProcTable

/-!
# Every exited child is reaped once, by its parent

`PtOk` is what holds between critical sections whatever the pids are: a parent is alive, the slot that `fork` is filling
belongs to one process, and a process asleep in `wait` has no zombie child. `Lineage` adds what the pids say about
the run so far, as long as the counter has not wrapped: who forked whom, who has exited, and who is gone.
-/

namespace Xv6

open Function

def Slot.Alive (x : Slot) : Prop := x.state = .SLEEPING ∨ x.state = .RUNNABLE ∨ x.state = .RUNNING

/-- The process is in `fork`, filling the slot `np`. -/
def Slot.Forks (x : Slot) (np : PSlot) : Prop := x.pc = .forked np ∨ x.pc = .adopted np

structure PtOk (t : Ptable) : Prop where
  unused : ∀ p, (t.proc p).state = .UNUSED → (t.proc p).parent = none
  parent : ∀ p q, (t.proc p).parent = some q → (t.proc q).Alive ∧ q ≠ p
  orphan : ∀ p, (t.proc p).state ≠ .UNUSED → (t.proc p).state ≠ .EMBRYO → p ≠ initproc → (t.proc p).parent ≠ none
  init : (t.proc initproc).Alive ∧ (t.proc initproc).parent = none
  idle : ∀ p, ¬ (t.proc p).Alive → (t.proc p).pc = .gone
  forked : ∀ i np, (t.proc i).pc = .forked np → (t.proc np).state = .EMBRYO ∧ (t.proc np).parent = none
  adopted : ∀ i np, (t.proc i).pc = .adopted np → (t.proc np).state = .EMBRYO ∧ (t.proc np).parent = some i
  forker : ∀ i j np, (t.proc i).Forks np → (t.proc j).Forks np → i = j
  /-- No wakeup is lost: whoever sleeps in `wait` has no child to collect. -/
  sleeping : ∀ i, (t.proc i).state = .SLEEPING → (t.proc i).pc = .asleep ∨ (t.proc i).pc = .waiting ∧
    (t.proc i).chan = some (.slot i) ∧ ∀ q, (t.proc q).parent = some i → (t.proc q).state ≠ .ZOMBIE

namespace PtOk

variable {t t' : Ptable} {i np p q : PSlot} {e : PtEv}

theorem boot : PtOk .boot := by
  have hslot : ∀ p, p ≠ initproc → Ptable.boot.proc p = ⟨.UNUSED, 0, none, none, false, .gone⟩ := fun p hp => if_neg hp
  have hinit : Ptable.boot.proc initproc = ⟨.RUNNABLE, 1, none, none, false, .user⟩ := rfl
  constructor <;> grind [Slot.Alive, Slot.Forks]

theorem allocproc (h : PtOk t) (hi : t.Runs i) (hu : (t.proc np).state = .UNUSED) : PtOk (t.allocproc i np) := by
  obtain ⟨hunused, hparent, horphan, hinit, hidle, hforked, hadopted, hforker, hsleeping⟩ := h
  obtain ⟨hr, hp⟩ := hi
  have hne : np ≠ i := by
    rintro rfl
    rw [hu] at hr
    cases hr
  constructor <;>
    simp only [Ptable.allocproc, Ptable.goto, Ptable.set, update_apply, Slot.Alive, Slot.Forks] at * <;> grind

theorem forks_ne (h : PtOk t) (hi : (t.proc i).state = .RUNNING) (hp : (t.proc i).Forks np) : np ≠ i := by
  rintro rfl
  have hst : (t.proc np).state = .EMBRYO := hp.elim (fun hp => (h.forked _ _ hp).1) fun hp => (h.adopted _ _ hp).1
  rw [hst] at hi
  cases hi

theorem forkFail (h : PtOk t) (hi : (t.proc i).state = .RUNNING) (hp : (t.proc i).pc = .forked np) : PtOk (t.forkFail i np) := by
  have hne := h.forks_ne hi (.inl hp)
  obtain ⟨hunused, hparent, horphan, hinit, hidle, hforked, hadopted, hforker, hsleeping⟩ := h
  constructor <;>
    simp only [Ptable.forkFail, Ptable.goto, Ptable.set, update_apply, Slot.Alive, Slot.Forks] at * <;> grind

theorem adopt (h : PtOk t) (hi : (t.proc i).state = .RUNNING) (hp : (t.proc i).pc = .forked np) : PtOk (t.adopt i np) := by
  have hne := h.forks_ne hi (.inl hp)
  obtain ⟨hunused, hparent, horphan, hinit, hidle, hforked, hadopted, hforker, hsleeping⟩ := h
  constructor <;>
    simp only [Ptable.adopt, Ptable.goto, Ptable.set, update_apply, Slot.Alive, Slot.Forks] at * <;> grind

theorem forkDone (h : PtOk t) (hi : (t.proc i).state = .RUNNING) (hp : (t.proc i).pc = .adopted np) : PtOk (t.forkDone i np) := by
  have hne := h.forks_ne hi (.inr hp)
  obtain ⟨hunused, hparent, horphan, hinit, hidle, hforked, hadopted, hforker, hsleeping⟩ := h
  constructor <;>
    simp only [Ptable.forkDone, Ptable.goto, Ptable.set, update_apply, Slot.Alive, Slot.Forks] at * <;> grind

theorem exit (h : PtOk t) (hi : t.Runs i) (hne : i ≠ initproc) : PtOk (t.exit i) := by
  have hex := Ptable.exits hne t
  generalize t.exit i = t' at hex ⊢
  obtain ⟨hunused, hparent, horphan, hinit, hidle, hforked, hadopted, hforker, hsleeping⟩ := h
  obtain ⟨hr, hp⟩ := hi
  have hself := hex.self
  have hpar := hex.parent
  have hpc := hex.pc
  have hstate := hex.state
  have hwakes := hex.wakes
  have hchan := hex.same (·.chan) (fun _ _ => rfl) (fun _ _ => rfl) (fun _ _ => rfl)
  simp only [ProcState.Wakes] at hstate
  constructor <;> simp only [Slot.Alive, Slot.Forks] at * <;> grind

theorem reap (h : PtOk t) (hz : (t.proc q).state = .ZOMBIE) : PtOk (t.reap q) := by
  obtain ⟨hunused, hparent, horphan, hinit, hidle, hforked, hadopted, hforker, hsleeping⟩ := h
  constructor <;> simp only [Ptable.reap, Ptable.set, update_apply, Slot.Alive, Slot.Forks] at * <;> grind

theorem resume (h : PtOk t) (hi : (t.proc i).state = .RUNNABLE) : PtOk (t.resume i) := by
  obtain ⟨hunused, hparent, horphan, hinit, hidle, hforked, hadopted, hforker, hsleeping⟩ := h
  constructor <;> simp only [Ptable.resume, Ptable.set, update_apply, Slot.Alive, Slot.Forks] at * <;> grind

theorem sleep (h : PtOk t) (hi : t.Runs i) (a : Nat) : PtOk (t.sleep i (.addr a) .asleep) := by
  obtain ⟨hunused, hparent, horphan, hinit, hidle, hforked, hadopted, hforker, hsleeping⟩ := h
  obtain ⟨hr, hp⟩ := hi
  constructor <;> simp only [Ptable.sleep, Ptable.set, update_apply, Slot.Alive, Slot.Forks] at * <;> grind

theorem waitSleep (h : PtOk t) (hi : t.Runs i) (hn : ∀ q, (t.proc q).parent = some i → (t.proc q).state ≠ .ZOMBIE) :
    PtOk (t.sleep i (.slot i) .waiting) := by
  obtain ⟨hunused, hparent, horphan, hinit, hidle, hforked, hadopted, hforker, hsleeping⟩ := h
  obtain ⟨hr, hp⟩ := hi
  constructor <;> simp only [Ptable.sleep, Ptable.set, update_apply, Slot.Alive, Slot.Forks] at * <;> grind

theorem wakes (h : PtOk t) (hs : ∀ p, (t.proc p).state.Wakes (t'.proc p).state)
    (hpar : ∀ p, (t'.proc p).parent = (t.proc p).parent)
    (hchan : ∀ p, (t'.proc p).chan = (t.proc p).chan) (hpc : ∀ p, (t'.proc p).pc = (t.proc p).pc) : PtOk t' := by
  obtain ⟨hunused, hparent, horphan, hinit, hidle, hforked, hadopted, hforker, hsleeping⟩ := h
  simp only [ProcState.Wakes] at hs
  constructor <;> simp only [Slot.Alive, Slot.Forks] at * <;> grind

theorem switch {st : ProcState} (h : PtOk t) (hi : (t.proc i).state = .RUNNABLE ∨ (t.proc i).state = .RUNNING)
    (hst : st = .RUNNABLE ∨ st = .RUNNING) : PtOk (t.set i { t.proc i with state := st }) := by
  obtain ⟨hunused, hparent, horphan, hinit, hidle, hforked, hadopted, hforker, hsleeping⟩ := h
  constructor <;> simp only [Ptable.set, update_apply, Slot.Alive, Slot.Forks] at * <;> grind

theorem kill (h : PtOk t) (pid : BitVec 32) : PtOk (t.kill pid).1 := by
  unfold Ptable.kill
  split
  · next p _ =>
    refine h.wakes (fun q => ?_) (Ptable.proj_set (·.parent) (by rfl)) (Ptable.proj_set (·.chan)
      (by rfl)) (Ptable.proj_set (·.pc) (by rfl))
    rcases eq_or_ne q p with rfl | hne
    · rw [Ptable.set_self]
      dsimp only
      split
      · next hs => exact .inr ⟨hs, rfl⟩
      · exact .inl rfl
    · rw [Ptable.set_of_ne hne]
      exact .inl rfl
  · exact h

theorem exited_spec (h : t.exited i = some q) : (t.proc q).parent = some i ∧ (t.proc q).state = .ZOMBIE :=
  of_decide_eq_true (Ptable.find_spec h)

theorem exited_none (h : t.exited i = none) (hq : (t.proc q).parent = some i) : (t.proc q).state ≠ .ZOMBIE := fun hz =>
  of_decide_eq_false (Ptable.find_none h q) ⟨hq, hz⟩

theorem waitScan (h : PtOk t) (hi : t.Runs i) (hs : WaitScan i t e t') : PtOk t' := by
  cases hs with
  | reap hq => exact h.reap (exited_spec hq).2
  | fail => exact h
  | sleep hn => exact h.waitSleep hi fun q hq => exited_none hn hq

theorem runs_resume : (t.resume i).Runs i := by
  unfold Ptable.Runs Ptable.resume
  rw [Ptable.set_self]
  exact ⟨rfl, rfl⟩

theorem step (h : PtOk t) (hs : PtStep t e t') : PtOk t' := by
  cases hs with
  | noSlot => exact h
  | alloc hi hu => exact h.allocproc hi (of_decide_eq_true (Ptable.find_spec hu))
  | forkFail hi hp => exact h.forkFail hi hp
  | adopt hi hp => exact h.adopt hi hp
  | fork hi hp => exact h.forkDone hi hp
  | exit hi hne => exact h.exit hi hne
  | wait hi hw => exact h.waitScan hi hw
  | waitAgain hi hp hw => exact (h.resume hi).waitScan runs_resume hw
  | sleep hi => exact h.sleep hi _
  | wakeup c =>
    exact h.wakes (fun p => Slot.wakeup1_state) (fun p => Slot.proj_wakeup1 (·.parent) fun _ _ => rfl)
      (fun p => Slot.proj_wakeup1 (·.chan) fun _ _ => rfl) fun p => Slot.proj_wakeup1 (·.pc) fun _ _ => rfl
  | kill pid => exact h.kill pid
  | yield hi => exact h.switch (.inr hi) (.inl rfl)
  | run hi hp => exact h.switch (.inl hi) (.inr rfl)
  | resume hi hp => exact h.resume hi

end PtOk

/-! ### Pids -/

/-- `allocproc` found a slot. -/
def PtEv.isAlloc : PtEv → Bool
  | alloc .. => true
  | _ => false

/-- How many pids the run has used up after that of `init`. -/
def allocs (h : List PtEv) : Nat := h.countP PtEv.isAlloc

structure SamePids (t t' : Ptable) : Prop where
  nextpid : t'.nextpid = t.nextpid
  pid : ∀ p, (t'.proc p).state ≠ .UNUSED → (t.proc p).state ≠ .UNUSED ∧ (t'.proc p).pid = (t.proc p).pid

namespace SamePids

variable {t t' t'' : Ptable} {i np p q : PSlot} {e : PtEv} {x : Slot}

theorem refl (t : Ptable) : SamePids t t := ⟨rfl, fun _ h => ⟨h, rfl⟩⟩

theorem trans (h : SamePids t t') (h' : SamePids t' t'') : SamePids t t'' :=
  ⟨h'.nextpid.trans h.nextpid, fun p hp => ⟨(h.pid p (h'.pid p hp).1).1, (h'.pid p hp).2.trans (h.pid p (h'.pid p hp).1).2⟩⟩

theorem set (hx : x.state ≠ .UNUSED → (t.proc p).state ≠ .UNUSED ∧ x.pid = (t.proc p).pid) : SamePids t (t.set p x) := by
  refine ⟨rfl, fun q hq => ?_⟩
  rcases eq_or_ne q p with rfl | hne
  · rw [Ptable.set_self] at hq ⊢
    exact hx hq
  · rw [Ptable.set_of_ne hne] at hq ⊢
    exact ⟨hq, rfl⟩

theorem wakes (hn : t'.nextpid = t.nextpid) (hs : ∀ p, (t.proc p).state.Wakes (t'.proc p).state)
    (hp : ∀ p, (t'.proc p).pid = (t.proc p).pid) : SamePids t t' := by
  refine ⟨hn, fun p hl => ⟨fun hu => ?_, hp p⟩⟩
  rcases hs p with he | ⟨he, -⟩
  · exact hl (he.trans hu)
  · rw [hu] at he
    cases he

end SamePids

/-! ### Lineage -/

structure PtQuiet (t t' : Ptable) : Prop extends SamePids t t' where
  zombie : ∀ p, (t'.proc p).state ≠ .UNUSED → ((t'.proc p).state = .ZOMBIE ↔ (t.proc p).state = .ZOMBIE)
  embryo : ∀ p, (t'.proc p).state ≠ .UNUSED → ((t'.proc p).state = .EMBRYO ↔ (t.proc p).state = .EMBRYO)
  parent : ∀ p, (t'.proc p).state ≠ .UNUSED → (t'.proc p).state ≠ .EMBRYO → (t'.proc p).parent = (t.proc p).parent

namespace PtQuiet

variable {t t' t'' : Ptable} {i np p q : PSlot} {x : Slot}

theorem refl (t : Ptable) : PtQuiet t t := ⟨.refl t, fun _ _ => Iff.rfl, fun _ _ => Iff.rfl, fun _ _ _ => rfl⟩

theorem trans (h : PtQuiet t t') (h' : PtQuiet t' t'') : PtQuiet t t'' where
  toSamePids := h.toSamePids.trans h'.toSamePids
  zombie p hp := (h'.zombie p hp).trans (h.zombie p (h'.pid p hp).1)
  embryo p hp := (h'.embryo p hp).trans (h.embryo p (h'.pid p hp).1)
  parent p hp he := (h'.parent p hp he).trans (h.parent p (h'.pid p hp).1 fun he' => he ((h'.embryo p hp).2 he'))

theorem set (hx : x.state ≠ .UNUSED → (t.proc p).state ≠ .UNUSED ∧ x.pid = (t.proc p).pid ∧
      (x.state = .ZOMBIE ↔ (t.proc p).state = .ZOMBIE) ∧ (x.state = .EMBRYO ↔ (t.proc p).state = .EMBRYO) ∧
      (x.state ≠ .EMBRYO → x.parent = (t.proc p).parent)) : PtQuiet t (t.set p x) := by
  refine ⟨.set fun h => ⟨(hx h).1, (hx h).2.1⟩, fun q hq => ?_, fun q hq => ?_, fun q hq he => ?_⟩
  all_goals
    rcases eq_or_ne q p with rfl | hne
    · simp only [Ptable.set_self] at *
      first
        | exact (hx hq).2.2.1
        | exact (hx hq).2.2.2.1
        | exact (hx hq).2.2.2.2 he
    · simp only [Ptable.set_of_ne hne]

theorem goto (pc : PtPc) : PtQuiet t (t.goto p pc) := set fun h => ⟨h, rfl, Iff.rfl, Iff.rfl, fun _ => rfl⟩

theorem wakes (hn : t'.nextpid = t.nextpid) (hs : ∀ p, (t.proc p).state.Wakes (t'.proc p).state)
    (hp : ∀ p, (t'.proc p).pid = (t.proc p).pid) (hpar : ∀ p, (t'.proc p).parent = (t.proc p).parent) : PtQuiet t t' := by
  refine ⟨.wakes hn hs hp, fun p _ => ?_, fun p _ => ?_, fun p _ _ => hpar p⟩
  all_goals
    rcases hs p with he | ⟨he, he'⟩
    · rw [he]
    · rw [he, he']
      decide

theorem setAlive (hp : (t.proc p).Alive) (hx : x.Alive) (hpid : x.pid = (t.proc p).pid) (hpar : x.parent = (t.proc p).parent) :
    PtQuiet t (t.set p x) := by
  have hne : ∀ {y : Slot}, y.Alive → y.state ≠ .UNUSED ∧ y.state ≠ .ZOMBIE ∧ y.state ≠ .EMBRYO := fun hy => by
    rcases hy with hy | hy | hy <;> simp [hy]
  refine set fun _ => ⟨(hne hp).1, hpid, iff_of_false (hne hx).2.1 (hne hp).2.1,
    iff_of_false (hne hx).2.2 (hne hp).2.2, fun _ => hpar⟩

end PtQuiet

def PtEv.silent : PtEv → Bool
  | alloc .. | fork .. | exit .. | reap .. => false
  | _ => true

structure Lineage (h : List PtEv) (t : Ptable) : Prop where
  ok : PtOk t
  nextpid : t.nextpid.toNat = 2 + allocs h
  init : (t.proc initproc).pid = 1
  pid : ∀ p, (t.proc p).state ≠ .UNUSED → 0 < (t.proc p).pid.toNat ∧ (t.proc p).pid.toNat < t.nextpid.toNat
  unique : ∀ p q, (t.proc p).state ≠ .UNUSED → (t.proc q).state ≠ .UNUSED → (t.proc p).pid = (t.proc q).pid → p = q
  past : ∀ c, .exit c ∈ h ∨ (∃ q a, .reap q a c ∈ h) → c.toNat < t.nextpid.toNat
  exited : ∀ p, (t.proc p).state ≠ .UNUSED → (.exit (t.proc p).pid ∈ h ↔ (t.proc p).state = .ZOMBIE)
  reaped : ∀ q a c, .reap q a c ∈ h → ∀ p, (t.proc p).state ≠ .UNUSED → (t.proc p).pid ≠ c
  /-- A process has its forker for a parent, or `init` once the forker has exited. -/
  forked : ∀ p, (t.proc p).state ≠ .UNUSED → (t.proc p).state ≠ .EMBRYO → p ≠ initproc → ∃ f, .fork f (t.proc p).pid ∈ h ∧
    ∀ q, (t.proc p).parent = some q → f = (t.proc q).pid ∨ q = initproc ∧ .exit f ∈ h

namespace Lineage

variable {h : List PtEv} {t t' : Ptable} {i np p q : PSlot} {e : PtEv}

theorem alive_ne {x : Slot} (hx : x.Alive) : x.state ≠ .UNUSED ∧ x.state ≠ .ZOMBIE ∧ x.state ≠ .EMBRYO := by
  rcases hx with hx | hx | hx <;> simp [hx]

theorem quiet (hl : Lineage h t) (hok : PtOk t') (hq : PtQuiet t t') : Lineage h t' := by
  have hinit := hq.pid initproc (alive_ne hok.init.1).1
  refine ⟨hok, hq.nextpid ▸ hl.nextpid, hinit.2.trans hl.init, fun p hp => ?_, fun p q hp hp' he => ?_,
    fun c hc => ?_, fun p hp => ?_,
    fun q a c hr p hp => ?_, fun p hp he hi => ?_⟩
  · rw [(hq.pid p hp).2, hq.nextpid]
    exact hl.pid p (hq.pid p hp).1
  · rw [(hq.pid p hp).2, (hq.pid q hp').2] at he
    exact hl.unique p q (hq.pid p hp).1 (hq.pid q hp').1 he
  · rw [hq.nextpid]
    exact hl.past c hc
  · rw [(hq.pid p hp).2, hq.zombie p hp]
    exact hl.exited p (hq.pid p hp).1
  · rw [(hq.pid p hp).2]
    exact hl.reaped q a c hr p (hq.pid p hp).1
  · obtain ⟨f, hf, hpar⟩ := hl.forked p (hq.pid p hp).1 (fun he' => he ((hq.embryo p hp).2 he')) hi
    refine ⟨f, by rwa [(hq.pid p hp).2], fun q hq' => ?_⟩
    rw [(hq.pid q (alive_ne (hok.parent p q hq').1).1).2]
    rw [hq.parent p hp he] at hq'
    exact hpar q hq'

theorem cons (hl : Lineage h t) (he : e.silent = true) : Lineage (e :: h) t := by
  have halloc : allocs (e :: h) = allocs h := by
    unfold allocs
    cases e <;> first | exact (Bool.false_ne_true he).elim | rfl
  have hexit : ∀ c, .exit c ∈ e :: h ↔ .exit c ∈ h := fun c => by
    cases e <;> first | exact (Bool.false_ne_true he).elim | simp
  have hreap : ∀ q a c, .reap q a c ∈ e :: h ↔ .reap q a c ∈ h := fun q a c => by
    cases e <;> first | exact (Bool.false_ne_true he).elim | simp
  refine ⟨hl.ok, halloc ▸ hl.nextpid, hl.init, hl.pid, hl.unique, fun c hc => hl.past c ?_, fun p hp =>
    (hexit _).trans (hl.exited p hp),
    fun q a c hr => hl.reaped q a c ((hreap q a c).1 hr), fun p hp hem hi => ?_⟩
  · simpa only [hexit, hreap] using hc
  · obtain ⟨f, hf, hpar⟩ := hl.forked p hp hem hi
    exact ⟨f, List.mem_cons_of_mem e hf, fun q hq => (hpar q hq).imp_right fun hx => ⟨hx.1, (hexit f).2 hx.2⟩⟩

theorem alloc (hl : Lineage h t) (hroom : allocs h < 2 ^ 31) (hu : (t.proc np).state = .UNUSED) (hok : PtOk t')
    (ht : t' = { t.set np { t.proc np with state := .EMBRYO, pid := t.nextpid } with
      nextpid := t.nextpid + 1 }.goto i (.forked np)) :
    Lineage (.alloc i np :: h) t' := by
  have hnext : t'.nextpid.toNat = t.nextpid.toNat + 1 := by
    rw [ht]
    change (t.nextpid + 1).toNat = _
    rw [BitVec.toNat_add]
    have hone : (1 : BitVec 32).toNat = 1 := rfl
    have := hl.nextpid
    omega
  have hnp : (t'.proc np).pid = t.nextpid ∧ (t'.proc np).state = .EMBRYO := by
    rw [ht]
    refine ⟨?_, ?_⟩
    · exact (Ptable.proj_set (·.pid) (by rfl) np).trans (by rw [Ptable.set_self])
    · exact (Ptable.proj_set (·.state) (by rfl) np).trans (by rw [Ptable.set_self])
  have hother : ∀ p, p ≠ np → (t'.proc p).state = (t.proc p).state ∧ (t'.proc p).pid = (t.proc p).pid ∧
    (t'.proc p).parent = (t.proc p).parent :=
    fun p hp => by
      rw [ht]
      refine ⟨(Ptable.proj_set (·.state) (by rfl) p).trans ?_, (Ptable.proj_set (·.pid) (by rfl) p).trans ?_,
        (Ptable.proj_set (·.parent) (by rfl) p).trans ?_⟩
      all_goals exact congrArg _ (Ptable.set_of_ne hp)
  have hold : ∀ c, .exit c ∈ PtEv.alloc i np :: h ↔ .exit c ∈ h := fun c => by simp
  have hinit : initproc ≠ np := by
    rintro rfl
    exact (alive_ne hl.ok.init.1).1 hu
  refine ⟨hok, ?_, ?_, fun p hp => ?_, fun p q hp hq he => ?_, fun c hc => ?_, fun p hp => ?_,
    fun q a c hr p hp => ?_, fun p hp he hi => ?_⟩
  · have hcount : allocs (.alloc i np :: h) = allocs h + 1 := List.countP_cons_of_pos rfl
    rw [hnext, hl.nextpid, hcount]
    omega
  · rw [(hother _ hinit).2.1, hl.init]
  · rcases eq_or_ne p np with rfl | hne
    · rw [hnp.1, hnext]
      have := hl.nextpid
      omega
    · rw [(hother p hne).2.1, hnext]
      rw [(hother p hne).1] at hp
      have := hl.pid p hp
      omega
  · -- the new pid is above all pids in use
    have hnew : ∀ r, r ≠ np → (t'.proc r).state ≠ .UNUSED → (t'.proc r).pid ≠ t.nextpid := fun r hr hlive heq => by
      rw [(hother r hr).1] at hlive
      rw [(hother r hr).2.1] at heq
      have := (hl.pid r hlive).2
      rw [heq] at this
      omega
    by_cases hp' : p = np <;> by_cases hq' : q = np
    · rw [hp', hq']
    · rw [hp', hnp.1] at he
      exact absurd he.symm (hnew q hq' hq)
    · rw [hq', hnp.1] at he
      exact absurd he (hnew p hp' hp)
    · rw [(hother p hp').2.1, (hother q hq').2.1] at he
      rw [(hother p hp').1] at hp
      rw [(hother q hq').1] at hq
      exact hl.unique p q hp hq he
  · have := hl.past c (by simpa using hc)
    omega
  · rw [hold]
    rcases eq_or_ne p np with rfl | hne
    · rw [hnp.1, hnp.2]
      refine iff_of_false (fun hx => ?_) (by decide)
      have := hl.past _ (.inl hx)
      omega
    · rw [(hother p hne).2.1, (hother p hne).1]
      rw [(hother p hne).1] at hp
      exact hl.exited p hp
  · have hr' : .reap q a c ∈ h := by simpa using hr
    rcases eq_or_ne p np with rfl | hne
    · rw [hnp.1]
      rintro rfl
      have := hl.past _ (.inr ⟨q, a, hr'⟩)
      omega
    · rw [(hother p hne).2.1]
      rw [(hother p hne).1] at hp
      exact hl.reaped q a c hr' p hp
  · have hne : p ≠ np := by
      rintro rfl
      exact he hnp.2
    rw [(hother p hne).1] at hp he
    obtain ⟨f, hf, hpar⟩ := hl.forked p hp he hi
    refine ⟨f, by rw [(hother p hne).2.1]; exact List.mem_cons_of_mem _ hf, fun q hq => ?_⟩
    rw [(hother p hne).2.2] at hq
    have hqn : q ≠ np := by
      rintro rfl
      exact (alive_ne (hl.ok.parent p q hq).1).1 hu
    rw [(hother q hqn).2.1]
    exact (hpar q hq).imp_right fun hx => ⟨hx.1, (hold f).2 hx.2⟩

theorem fork (hl : Lineage h t) (hi : (t.proc i).state = .RUNNING) (hp : (t.proc i).pc = .adopted np) :
    Lineage (.fork (t.proc i).pid (t.proc np).pid :: h) (t.forkDone i np) := by
  obtain ⟨hst, hpar⟩ := hl.ok.adopted i np hp
  have hok := hl.ok.forkDone hi hp
  have hpid : ∀ p, ((t.forkDone i np).proc p).pid = (t.proc p).pid := fun p =>
    (Ptable.proj_set (·.pid) (by rfl) p).trans (Ptable.proj_set (·.pid) (by rfl) p)
  have hparent : ∀ p, ((t.forkDone i np).proc p).parent = (t.proc p).parent := fun p =>
    (Ptable.proj_set (·.parent) (by rfl) p).trans (Ptable.proj_set (·.parent) (by rfl) p)
  have hstate : ∀ p, ((t.forkDone i np).proc p).state = if p = np then .RUNNABLE else (t.proc p).state := fun p => by
    refine (Ptable.proj_set (·.state) (by rfl) p).trans ?_
    rcases eq_or_ne p np with rfl | hne
    · rw [Ptable.set_self, if_pos rfl]
    · rw [Ptable.set_of_ne hne, if_neg hne]
  have hlive : ∀ p, ((t.forkDone i np).proc p).state ≠ .UNUSED → (t.proc p).state ≠ .UNUSED := fun p hp' => by
    rw [hstate] at hp'
    rcases eq_or_ne p np with rfl | hne
    · simp [hst]
    · rwa [if_neg hne] at hp'
  have hold : ∀ c, .exit c ∈ PtEv.fork (t.proc i).pid (t.proc np).pid :: h ↔ .exit c ∈ h := fun c => by simp
  refine ⟨hok, ?_, (hpid _).trans hl.init, fun p hp' => ?_, fun p q hp' hq he => ?_, fun c hc =>
    hl.past c (by simpa using hc), fun p hp' => ?_,
    fun q a c hr p hp' => ?_, fun p hp' he hne => ?_⟩
  · have hcount : allocs (.fork (t.proc i).pid (t.proc np).pid :: h) = allocs h :=
      List.countP_cons_of_neg (by simp [PtEv.isAlloc])
    rw [hcount]
    exact hl.nextpid
  · rw [hpid]
    exact hl.pid p (hlive p hp')
  · rw [hpid, hpid] at he
    exact hl.unique p q (hlive p hp') (hlive q hq) he
  · rw [hold, hpid, hl.exited p (hlive p hp'), hstate]
    rcases eq_or_ne p np with rfl | hne
    · simp [hst]
    · rw [if_neg hne]
  · rw [hpid]
    exact hl.reaped q a c (by simpa using hr) p (hlive p hp')
  · rw [hpid]
    rcases eq_or_ne p np with rfl | hpn
    · refine ⟨(t.proc i).pid, List.mem_cons_self, fun q hq => .inl ?_⟩
      rw [hparent, hpar] at hq
      rw [hpid, ← Option.some.inj hq]
    · rw [hstate, if_neg hpn] at he
      obtain ⟨f, hf, hpar'⟩ := hl.forked p (hlive p hp') he hne
      refine ⟨f, List.mem_cons_of_mem _ hf, fun q hq => ?_⟩
      rw [hparent] at hq
      rw [hpid, hold]
      exact hpar' q hq

theorem exit (hl : Lineage h t) (hi : t.Runs i) (hne : i ≠ initproc) : Lineage (.exit (t.proc i).pid :: h) (t.exit i) := by
  have hok := hl.ok.exit hi hne
  have hex := Ptable.exits hne t
  generalize t.exit i = t' at hok hex ⊢
  have hpid : ∀ p, (t'.proc p).pid = (t.proc p).pid := hex.same (·.pid) (fun _ _ => rfl) (fun _ _ => rfl) (fun _ _ => rfl)
  have hiu : (t.proc i).state ≠ .UNUSED := by simp [hi.1]
  have hlive : ∀ p, (t'.proc p).state ≠ .UNUSED → (t.proc p).state ≠ .UNUSED := fun p hp hu => by
    rcases eq_or_ne p i with rfl | hpi
    · exact hiu hu
    · rcases hex.state p hpi with he | ⟨he, -⟩
      · exact hp (he.trans hu)
      · rw [hu] at he
        cases he
  refine ⟨hok, ?_, (hpid _).trans hl.init, fun p hp => ?_, fun p q hp hq he => ?_, fun c hc => ?_, fun p hp => ?_,
    fun q a c hr p hp => ?_, fun p hp he hpi => ?_⟩
  · have hcount : allocs (.exit (t.proc i).pid :: h) = allocs h := List.countP_cons_of_neg (by simp [PtEv.isAlloc])
    rw [hcount, hex.nextpid]
    exact hl.nextpid
  · rw [hpid, hex.nextpid]
    exact hl.pid p (hlive p hp)
  · rw [hpid, hpid] at he
    exact hl.unique p q (hlive p hp) (hlive q hq) he
  · rw [hex.nextpid]
    rcases hc with hc | ⟨q, a, hr⟩
    · rcases List.mem_cons.1 hc with heq | hc
      · cases heq
        exact (hl.pid i hiu).2
      · exact hl.past c (.inl hc)
    · exact hl.past c (.inr ⟨q, a, by simpa using hr⟩)
  · rw [hpid, List.mem_cons, hl.exited p (hlive p hp)]
    rcases eq_or_ne p i with rfl | hpi
    · exact iff_of_true (.inl rfl) hex.self.1
    · have hpne : PtEv.exit (t.proc p).pid ≠ .exit (t.proc i).pid := fun heq => by
        injection heq with heq
        exact hpi (hl.unique p i (hlive p hp) hiu heq)
      rw [or_iff_right hpne]
      rcases hex.state p hpi with he | ⟨he, he'⟩
      · rw [he]
      · rw [he, he']
        decide
  · rw [hpid]
    exact hl.reaped q a c (by simpa using hr) p (hlive p hp)
  · have hem : (t.proc p).state ≠ .EMBRYO := fun hem => by
      rcases eq_or_ne p i with rfl | hpi'
      · rw [hi.1] at hem
        cases hem
      · rcases hex.state p hpi' with he' | ⟨he', -⟩
        · exact he (he'.trans hem)
        · rw [hem] at he'
          cases he'
    obtain ⟨f, hf, hpar⟩ := hl.forked p (hlive p hp) hem hpi
    refine ⟨f, by rw [hpid]; exact List.mem_cons_of_mem _ hf, fun q hq => ?_⟩
    rw [hex.parent] at hq
    split at hq
    · next hpi' =>
      -- the parent was the process that exits, and it was the forker
      obtain rfl := Option.some.inj hq
      rcases hpar i hpi' with hf' | ⟨hf', -⟩
      · exact .inr ⟨rfl, by rw [hf']; exact List.mem_cons_self⟩
      · exact absurd hf' hne
    · rw [hpid]
      exact (hpar q hq).imp_right fun hx => ⟨hx.1, List.mem_cons_of_mem _ hx.2⟩

theorem reap {a : BitVec 32} (hl : Lineage h t) (hz : (t.proc q).state = .ZOMBIE) : Lineage
    (.reap q a (t.proc q).pid :: h) (t.reap q) := by
  have hok := hl.ok.reap hz
  have hself : ((t.reap q).proc q).state = .UNUSED := by
    unfold Ptable.reap
    rw [Ptable.set_self]
  have hother : ∀ p, p ≠ q → (t.reap q).proc p = t.proc p := fun p hp => Ptable.set_of_ne hp
  have hne : ∀ p, ((t.reap q).proc p).state ≠ .UNUSED → p ≠ q := fun p hp he => hp (he ▸ hself)
  have hinit : initproc ≠ q := by
    rintro rfl
    exact (alive_ne hl.ok.init.1).2.1 hz
  refine ⟨hok, ?_, ?_, fun p hp => ?_, fun p p' hp hp' he => ?_, fun c hc => ?_, fun p hp => ?_,
    fun q' a' c hr p hp => ?_, fun p hp he hi => ?_⟩
  · have hcount : allocs (.reap q a (t.proc q).pid :: h) = allocs h := List.countP_cons_of_neg (by simp [PtEv.isAlloc])
    rw [hcount]
    exact hl.nextpid
  · rw [hother _ hinit, hl.init]
  · have hpq := hne p hp
    rw [hother p hpq] at hp ⊢
    exact hl.pid p hp
  · have hpq := hne p hp
    have hpq' := hne p' hp'
    rw [hother p hpq] at hp he
    rw [hother p' hpq'] at hp' he
    exact hl.unique p p' hp hp' he
  · refine hl.past c ?_
    rcases hc with hc | ⟨q', a', hr⟩
    · exact .inl (by simpa using hc)
    · rcases List.mem_cons.1 hr with heq | hr
      · injection heq with _ _ heq
        refine .inl ?_
        rw [heq, hl.exited q (by simp [hz])]
        exact hz
      · exact .inr ⟨q', a', hr⟩
  · have hpq := hne p hp
    rw [hother p hpq] at hp ⊢
    rw [← hl.exited p hp]
    simp
  · have hpq := hne p hp
    rw [hother p hpq] at hp ⊢
    rcases List.mem_cons.1 hr with heq | hr
    · injection heq with _ _ heq
      rw [heq]
      exact fun hpid => hpq (hl.unique p q hp (by simp [hz]) hpid)
    · exact hl.reaped q' a' c hr p hp
  · have hpq := hne p hp
    rw [hother p hpq] at hp he ⊢
    obtain ⟨f, hf, hpar⟩ := hl.forked p hp he hi
    refine ⟨f, List.mem_cons_of_mem _ hf, fun r hr => ?_⟩
    have hrq : r ≠ q := by
      rintro rfl
      exact (alive_ne (hl.ok.parent p r hr).1).2.1 hz
    rw [hother r hrq]
    exact (hpar r hr).imp_right fun hx => ⟨hx.1, List.mem_cons_of_mem _ hx.2⟩

theorem waitScan (hl : Lineage h t) (hi : t.Runs i) (hs : WaitScan i t e t') : Lineage (e :: h) t' := by
  cases hs with
  | reap hq => exact hl.reap (PtOk.exited_spec hq).2
  | fail => exact hl.cons rfl
  | sleep hn =>
    exact (hl.quiet (hl.ok.waitSleep hi fun q hq => PtOk.exited_none hn hq)
      (.setAlive (.inr (.inr hi.1)) (.inl rfl) rfl rfl)).cons rfl

theorem boot : Lineage [] .boot := by
  have hslot : ∀ p, (Ptable.boot.proc p).state ≠ .UNUSED → p = initproc := fun p hp => by
    by_contra hne
    exact hp (congrArg Slot.state (if_neg hne))
  refine ⟨.boot, rfl, rfl, fun p hp => ?_, fun p q hp hq _ => (hslot p hp).trans (hslot q hq).symm,
    fun c hc => ?_, fun p hp => ?_,
    fun q a c hr => ?_, fun p hp _ hne => absurd (hslot p hp) hne⟩
  · rw [hslot p hp]
    decide
  · simp at hc
  · rw [hslot p hp]
    simp [Ptable.boot]
  · simp at hr

theorem step (hl : Lineage h t) (hroom : allocs h < 2 ^ 31) (hs : PtStep t e t') : Lineage (e :: h) t' := by
  have hok := hl.ok.step hs
  cases hs with
  | noSlot => exact hl.cons rfl
  | alloc hi hu => exact hl.alloc hroom (of_decide_eq_true (Ptable.find_spec hu)) hok rfl
  | @forkFail i np hi hp =>
    have hset : PtQuiet t (t.set np { t.proc np with state := .UNUSED }) := .set fun hx => absurd rfl hx
    exact (hl.quiet hok (hset.trans (.goto _))).cons rfl
  | @adopt i np hi hp =>
    have hst := (hl.ok.forked i np hp).1
    have hset : PtQuiet t (t.set np { t.proc np with parent := some i }) :=
      .set fun hx => ⟨hx, rfl, Iff.rfl, Iff.rfl, fun hn => absurd hst hn⟩
    exact (hl.quiet hok (hset.trans (.goto _))).cons rfl
  | fork hi hp => exact hl.fork hi hp
  | exit hi hne => exact hl.exit hi hne
  | wait hi hw => exact hl.waitScan hi hw
  | waitAgain hi hp hw =>
    exact (hl.quiet (hl.ok.resume hi) (.setAlive (.inr (.inl hi)) (.inr (.inr rfl)) rfl rfl)).waitScan PtOk.runs_resume hw
  | sleep hi => exact (hl.quiet hok (.setAlive (.inr (.inr hi.1)) (.inl rfl) rfl rfl)).cons rfl
  | wakeup c =>
    exact (hl.quiet hok (.wakes rfl (fun p => Slot.wakeup1_state) (fun p => Slot.proj_wakeup1 (·.pid) fun _ _ => rfl)
      fun p => Slot.proj_wakeup1 (·.parent) fun _ _ => rfl)).cons rfl
  | kill pid =>
    refine (hl.quiet hok ?_).cons rfl
    unfold Ptable.kill
    split
    · next p _ =>
      by_cases hsl : (t.proc p).state = .SLEEPING
      · rw [if_pos hsl]
        exact .setAlive (.inl hsl) (.inr (.inl rfl)) rfl rfl
      · rw [if_neg hsl]
        exact .set fun hx => ⟨hx, rfl, Iff.rfl, Iff.rfl, fun _ => rfl⟩
    · exact .refl t
  | yield hi => exact (hl.quiet hok (.setAlive (.inr (.inr hi)) (.inr (.inl rfl)) rfl rfl)).cons rfl
  | run hi hp => exact (hl.quiet hok (.setAlive (.inr (.inl hi)) (.inr (.inr rfl)) rfl rfl)).cons rfl
  | resume hi hp => exact (hl.quiet hok (.setAlive (.inr (.inl hi)) (.inr (.inr rfl)) rfl rfl)).cons rfl

theorem run (hr : ptLts.Run h t) (hroom : allocs h < 2 ^ 31) : Lineage h t := by
  induction hr with
  | init hi =>
    obtain rfl : _ = Ptable.boot := hi
    exact boot
  | @step h s s' a hr hs ih =>
    have hle : allocs h ≤ allocs (a :: h) := by
      unfold allocs
      rw [List.countP_cons]
      exact Nat.le_add_right _ _
    exact (ih (by omega)).step (by omega) hs

end Lineage

theorem PtStep.of_reap {t t' : Ptable} {q : PSlot} {a c : BitVec 32} (hs : PtStep t (.reap q a c) t') :
    ∃ i, (t.proc q).parent = some i ∧ (t.proc q).state = .ZOMBIE ∧ a = (t.proc i).pid ∧ c = (t.proc q).pid := by
  cases hs with
  | wait hi hw => cases hw with
    | reap hq => exact ⟨_, (PtOk.exited_spec hq).1, (PtOk.exited_spec hq).2, rfl, rfl⟩
  | @waitAgain _ i _ hi hp hw => cases hw with
    | reap hq =>
      obtain ⟨hpar, hz⟩ := PtOk.exited_spec hq
      have hqi : q ≠ i := by
        rintro rfl
        rw [PtOk.runs_resume.1] at hz
        cases hz
      have hsame : (t.resume i).proc q = t.proc q := Ptable.set_of_ne hqi
      rw [hsame] at hpar hz ⊢
      refine ⟨i, hpar, hz, ?_, rfl⟩
      exact Ptable.proj_set (·.pid) (by rfl) i

theorem Ptable.unused_set {t : Ptable} {i p : PSlot} {x : Slot}
    (h : ((t.set i x).proc p).state = .UNUSED) (hp : (t.proc p).state ≠ .UNUSED) :
    p = i ∧ x.state = .UNUSED := by
  rcases eq_or_ne p i with rfl | hne
  · rw [set_self] at h
    exact ⟨rfl, h⟩
  · rw [set_of_ne hne] at h
    exact absurd h hp

theorem ProcState.Wakes.unused {a b : ProcState} (h : a.Wakes b) (hb : b = .UNUSED) : a = .UNUSED := by
  rcases h with rfl | ⟨-, rfl⟩
  · exact hb
  · cases hb

theorem WaitScan.unused {t t' : Ptable} {e : PtEv} {i p : PSlot} (hs : WaitScan i t e t') (hp : (t.proc p).state ≠ .UNUSED)
    (hp' : (t'.proc p).state = .UNUSED) : ∃ a c, e = .reap p a c := by
  cases hs with
  | reap hq =>
    obtain ⟨rfl, -⟩ := Ptable.unused_set hp' hp
    exact ⟨_, _, rfl⟩
  | fail => exact absurd hp' hp
  | sleep => exact nomatch (Ptable.unused_set hp' hp).2

theorem PtStep.unused {t t' : Ptable} {e : PtEv} {p : PSlot} (hs : PtStep t e t') (hp : (t.proc p).state ≠ .UNUSED)
    (hp' : (t'.proc p).state = .UNUSED) : (∃ a c, e = .reap p a c) ∨ ∃ i, e = .forkFail i p := by
  have hgoto : ∀ {t₁ : Ptable} {i : PSlot} {pc : PtPc}, ((t₁.goto i pc).proc p).state = (t₁.proc p).state :=
    Ptable.proj_set (·.state) (by rfl) p
  cases hs with
  | noSlot => exact absurd hp' hp
  | alloc =>
    rw [Ptable.allocproc, hgoto] at hp'
    exact nomatch (Ptable.unused_set hp' hp).2
  | @forkFail i np =>
    rw [Ptable.forkFail, hgoto] at hp'
    obtain ⟨rfl, -⟩ := Ptable.unused_set hp' hp
    exact .inr ⟨i, rfl⟩
  | @adopt i np =>
    rw [Ptable.adopt, hgoto] at hp'
    obtain ⟨rfl, hst⟩ := Ptable.unused_set hp' hp
    exact absurd hst hp
  | fork =>
    rw [Ptable.forkDone, hgoto] at hp'
    exact nomatch (Ptable.unused_set hp' hp).2
  | @exit i hi hne =>
    have hex := Ptable.exits hne t
    rcases eq_or_ne p i with rfl | hpi
    · rw [hex.self.1] at hp'
      cases hp'
    · exact absurd ((hex.state p hpi).unused hp') hp
  | wait hi hw => exact .inl (hw.unused hp hp')
  | @waitAgain _ i _ hi hpc hw =>
    refine .inl (hw.unused (fun hu => ?_) hp')
    exact nomatch (Ptable.unused_set hu hp).2
  | sleep => exact nomatch (Ptable.unused_set hp' hp).2
  | wakeup c => exact absurd (ProcState.Wakes.unused Slot.wakeup1_state hp') hp
  | kill pid =>
    unfold Ptable.kill at hp'
    split at hp'
    · obtain ⟨rfl, hst⟩ := Ptable.unused_set hp' hp
      dsimp only at hst
      split at hst
      · cases hst
      · exact absurd hst hp
    · exact absurd hp' hp
  | yield => exact nomatch (Ptable.unused_set hp' hp).2
  | run => exact nomatch (Ptable.unused_set hp' hp).2
  | resume => exact nomatch (Ptable.unused_set hp' hp).2

/-- In every interleaving with fewer than 2^31 forks: every process but `init` has a living parent;
`wait` returns a pid once, after its process has exited, to the process that forked it, or to `init` if
that one has exited; a slot is given back only by such a `wait` or by a failed `fork`; and nobody sleeps
in `wait` with a zombie child. -/
theorem children_reaped_once {h : List PtEv} {t : Ptable} (hr : ptLts.Run h t) (hforks : allocs h < 2 ^ 31) :
    (∀ p, (t.proc p).state ≠ .UNUSED → (t.proc p).state ≠ .EMBRYO → p ≠ initproc →
      ∃ q, (t.proc p).parent = some q ∧ (t.proc q).state ≠ .UNUSED ∧ (t.proc q).state ≠ .ZOMBIE) ∧
    (∀ q a c h', .reap q a c :: h' <:+ h → .exit c ∈ h' ∧ (∀ q' a', .reap q' a' c ∉ h') ∧
      ∃ f, .fork f c ∈ h' ∧ (a = f ∧ .exit f ∉ h' ∨ a = (Ptable.boot.proc initproc).pid ∧ .exit f ∈ h')) ∧
    (∀ e t' p, PtStep t e t' → (t.proc p).state ≠ .UNUSED → (t'.proc p).state = .UNUSED →
      (∃ a c, e = .reap p a c) ∨ ∃ i, e = .forkFail i p) ∧
    ∀ i q, (t.proc i).pc = .waiting → (t.proc i).state = .SLEEPING → (t.proc q).parent = some i → (t.proc q).state ≠ .ZOMBIE := by
  have hl := Lineage.run hr hforks
  refine ⟨fun p hp he hi => ?_, fun q a c h' hsuf => ?_, fun e t' p hs => hs.unused, fun i q hpc hs hq => ?_⟩
  · obtain ⟨q, hq⟩ := Option.ne_none_iff_exists'.1 (hl.ok.orphan p hp he hi)
    have hne := Lineage.alive_ne (hl.ok.parent p q hq).1
    exact ⟨q, hq, hne.1, hne.2.1⟩
  · obtain ⟨t₁, t₂, hr₁, hs₁⟩ := hr.of_suffix hsuf
    have hle : allocs h' ≤ allocs h := ((List.suffix_cons _ _).trans hsuf).sublist.countP_le
    have hl₁ := Lineage.run hr₁ (by omega)
    obtain ⟨i, hpar, hz, rfl, rfl⟩ := hs₁.of_reap
    have hqu : (t₁.proc q).state ≠ .UNUSED := by simp [hz]
    have hqi : q ≠ initproc := by
      rintro rfl
      exact (Lineage.alive_ne hl₁.ok.init.1).2.1 hz
    refine ⟨(hl₁.exited q hqu).2 hz, fun q' a' hr' => hl₁.reaped q' a' _ hr' q hqu rfl, ?_⟩
    obtain ⟨f, hf, hfpar⟩ := hl₁.forked q hqu (by simp [hz]) hqi
    have hine := Lineage.alive_ne (hl₁.ok.parent q i hpar).1
    refine ⟨f, hf, (hfpar i hpar).imp (fun he => ⟨he.symm, fun hx => ?_⟩) fun ⟨hi, hx⟩ => ⟨?_, hx⟩⟩
    · rw [he] at hx
      exact hine.2.1 ((hl₁.exited i hine.1).1 hx)
    · rw [hi, hl₁.init]
      rfl
  · rcases hl.ok.sleeping i hs with ha | ⟨-, -, hz⟩
    · rw [ha] at hpc
      cases hpc
    · exact hz q hq

/-- The first process forks a child, which exits and is collected. -/
theorem children_reaped_once_first : ∃ q a c h t, ptLts.Run (.reap q a c :: h) t ∧ .exit c ∈ h := by
  have h0 : ptLts.Run [] .boot := .init rfl
  have hrun := h0.step (.run (i := 0) rfl (by decide))
  have hfork := (hrun.step (@PtStep.alloc _ 0 1 ⟨rfl, rfl⟩ (by decide +kernel))).step (.adopt (i := 0) rfl rfl)
  have hchild := (hfork.step (.fork (i := 0) rfl rfl)).step (.run (i := 1) rfl (by decide))
  have hexit := hchild.step (.exit (i := 1) ⟨rfl, rfl⟩ (by decide))
  have hreap := hexit.step (.wait (i := 0) ⟨by decide +kernel, by decide +kernel⟩ (.reap (q := 1) (by decide +kernel)))
  exact ⟨_, _, _, _, _, hreap, ((children_reaped_once hreap (by decide)).2.1 _ _ _ _ List.suffix_rfl).1⟩

end Xv6
