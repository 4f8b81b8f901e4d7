import Xv6.NameRefs
import Xv6.Process
import Xv6.Tally

/-!
# Who refers to what

Open files and current directories refer to inode-cache entries, descriptors refer to open files.
`Idle` says that between calls both counts are exact, that no lock is held and no transaction is open.
This file has the parts of the calls that change the tables: allocating and closing files.
-/

namespace Xv6

open Prog Function

/-- An open file on the entry `e`. -/
def File.Denotes (x : File) (e : Nat) : Prop := 0 < x.ref ∧ x.type = .FD_INODE ∧ x.ip = some e

instance (x : File) (e : Nat) : Decidable (x.Denotes e) := inferInstanceAs (Decidable (_ ∧ _ ∧ _))

/-- A live process whose current directory is the entry `e`. -/
def Proc.InDir (p : Proc) (e : Nat) : Prop := p.Live ∧ p.cwd = some e

instance (p : Proc) (e : Nat) : Decidable (p.InDir e) := inferInstanceAs (Decidable (_ ∧ _))

/-- The number of open files on the entry `e` and of live processes in it. -/
def holdersIn (ft : Nat → File) (pt : Nat → Proc) (e : Nat) : Nat :=
  tally NFILE (·.Denotes e) ft + tally NPROC (·.InDir e) pt

abbrev holders (k : Kernel) : Nat → Nat := holdersIn k.ftable k.ptable

/-- The number of descriptors of a process that stand for the open file `f`. -/
def Proc.fds (f : Nat) (p : Proc) : Nat := tally NOFILE (· = some f) p.ofile

/-- The number of descriptors that stand for the open file `f`. -/
def descriptorsIn (pt : Nat → Proc) (f : Nat) : Nat := total NPROC (Proc.fds f) pt

abbrev descriptors (k : Kernel) : Nat → Nat := descriptorsIn k.ptable

/-- The file table when `fds f` pointers to slot `f` are out. -/
structure FilesOk (fds : Nat → Nat) (ft : Nat → File) : Prop where
  ref : ∀ f, (ft f).ref = fds f
  free : ∀ f, (ft f).ref = 0 → (ft f).type = .FD_NONE
  bound : ∀ f, 0 < (ft f).ref → f < NFILE

def Dead (pt : Nat → Proc) : Prop :=
  ∀ p, ¬ (pt p).Live → (∀ fd, fd < NOFILE → (pt p).ofile fd = none) ∧ (pt p).cwd = none

structure Idle (k : Kernel) : Prop where
  fs : Holds k.fs (holders k) 0 0 0 k.fs
  files : FilesOk (descriptors k) k.ftable
  dead : Dead k.ptable

/-- Entry `e` still stands for the same inode, and that inode has not been freed on the way. -/
def Kept (s s' : Fs) (e : Nat) : Prop :=
  (s'.icache e).dev = (s.icache e).dev ∧ (s'.icache e).inum = (s.icache e).inum ∧
    ∃ l, s'.freed = l ++ s.freed ∧ (s.icache e).inum ∉ l

def Keeping (k k' : Kernel) : Prop := ∀ e, 0 < holders k e → 0 < holders k' e → Kept k.fs k'.fs e

section

variable {sb : Superblock} {s₀ s : Fs} {env : Nat → Nat} {tmp locks : Multiset Nat} {n e f : Nat} {k : Kernel}
variable {fds fds' : Nat → Nat} {ft : Nat → File} {pt : Nat → Proc}

theorem Holds.kept (h : Holds s₀ env tmp locks n s) (h₀ : 0 < (s₀.icache e).ref → (s₀.icache e).dev = ROOTDEV)
    (hr : 0 < (s₀.icache e).ref) (he : 0 < env e) : Kept s₀ s e := by
  obtain ⟨l, hl, hno⟩ := h.freed
  refine ⟨?_, h.keep e he, l, hl, hno e he⟩
  rw [h₀ hr, (h.known e (by rw [h.ref]; omega)).2]

theorem Idle.kept (h : Idle k) (hs : Holds k.fs env tmp locks n s) (h₀ : 0 < holders k e) (he : 0 < env e) :
    Kept k.fs s e := by
  have hr : 0 < (k.fs.icache e).ref := by
    rw [h.fs.ref]
    omega
  exact hs.kept (fun _ => (h.fs.known e hr).2) hr he

theorem Holds.shift (h : Holds s₀ env tmp locks n s) {env' : Nat → Nat} {tmp' : Multiset Nat}
    (he : ∀ e, env' e + tmp'.count e = env e + tmp.count e) (hle : ∀ e, env' e ≤ env e) :
    Holds s₀ env' tmp' locks n s := by
  obtain ⟨l, hl, hno⟩ := h.freed
  exact ⟨fun e => by rw [he, h.ref], h.lock, h.out, h.idle, h.known, h.uniq,
    fun e hp => h.keep e (Nat.lt_of_lt_of_le hp (hle e)), l, hl, fun e hp => hno e (Nat.lt_of_lt_of_le hp (hle e))⟩

/-! ### Changes of one slot -/

theorem holders_setFile (hf : f < NFILE) (x : File) (e : Nat) :
    holdersIn (update ft f x) pt e + (if (ft f).Denotes e then 1 else 0) =
      holdersIn ft pt e + if x.Denotes e then 1 else 0 := by
  have := total_update hf (fun x : File => if x.Denotes e then 1 else 0) ft x
  simp only [holdersIn, tally]
  omega

theorem holders_setFile_of_iff {x : File} (h : x.Denotes e ↔ (ft f).Denotes e) :
    holdersIn (update ft f x) pt e = holdersIn ft pt e := by
  rw [holdersIn, tally_update_of_iff h, holdersIn]

theorem holders_setProc {p : Nat} (hp : p < NPROC) (q : Proc) (e : Nat) :
    holdersIn ft (update pt p q) e + (if (pt p).InDir e then 1 else 0) =
      holdersIn ft pt e + if q.InDir e then 1 else 0 := by
  have := total_update hp (fun x : Proc => if x.InDir e then 1 else 0) pt q
  simp only [holdersIn, tally]
  omega

theorem holders_setProc_of_iff {q : Proc} {p : Nat} (h : q.InDir e ↔ (pt p).InDir e) :
    holdersIn ft (update pt p q) e = holdersIn ft pt e := by
  rw [holdersIn, tally_update_of_iff h, holdersIn]

theorem descriptors_setProc {p : Nat} (hp : p < NPROC) (q : Proc) (f : Nat) :
    descriptorsIn (update pt p q) f + (pt p).fds f = descriptorsIn pt f + q.fds f :=
  total_update hp (Proc.fds f) pt q

theorem descriptors_setProc_of_eq {p : Nat} {q : Proc} (h : q.ofile = (pt p).ofile) (f : Nat) :
    descriptorsIn (update pt p q) f = descriptorsIn pt f := by
  refine total_congr fun j => ?_
  rcases eq_or_ne j p with rfl | hne
  · rw [update_self, Proc.fds, h, Proc.fds]
  · rw [update_of_ne hne]

theorem fds_pos {p : Proc} {fd : Nat} (hfd : fd < NOFILE) (h : p.ofile fd = some f) : 0 < p.fds f := tally_pos hfd h

theorem FilesOk.congr (h : FilesOk fds ft) {ft' : Nat → File} (hr : ∀ f, (ft' f).ref = (ft f).ref)
    (ht : ∀ f, (ft' f).type = (ft f).type) : FilesOk fds ft' := by
  refine ⟨fun f => (hr f).trans (h.ref f), fun f hz => ?_, fun f hp => ?_⟩
  · rw [hr] at hz
    rw [ht, h.free f hz]
  · rw [hr] at hp
    exact h.bound f hp

theorem FilesOk.update (h : FilesOk fds ft) {x : File} (hr : x.ref = fds' f) (hz : x.ref = 0 → x.type = .FD_NONE)
    (hb : f < NFILE) (ho : ∀ g, g ≠ f → fds' g = fds g) : FilesOk fds' (update ft f x) := by
  refine ⟨fun g => ?_, fun g hg => ?_, fun g hg => ?_⟩
  all_goals
    rcases eq_or_ne g f with rfl | hne
    · simp only [update_self] at *
      first | exact hr | exact hz hg | exact hb
    · simp only [update_of_ne hne] at *
      first | (rw [ho g hne]; exact h.ref g) | exact h.free g hg | exact h.bound g hg

/-! ### `filealloc`, `filedup`, `fdalloc` -/

/-- One more pointer to `f`. -/
def plus (fds : Nat → Nat) (f : Nat) : Nat → Nat := fun g => fds g + if g = f then 1 else 0

theorem plus_self : plus fds f f = fds f + 1 := by simp [plus]

theorem plus_of_ne {g : Nat} (h : g ≠ f) : plus fds f g = fds g := by simp [plus, h]

structure FileSet (f : Nat) (x : File) (k k' : Kernel) : Prop where
  fs : k'.fs = k.fs
  ptable : k'.ptable = k.ptable
  cur : k'.cur = k.cur
  ftable : k'.ftable = update k.ftable f x

theorem setFile_spec {g : File → File} : wp (setFile f g) (fun _ => FileSet f (g (k.ftable f)) k) AnyFault k :=
  ⟨rfl, rfl, rfl, rfl⟩

theorem FileSet.holders_add {k' : Kernel} {x : File} (h : FileSet f x k k') (hf : f < NFILE) (e : Nat) :
    holders k' e + (if (k.ftable f).Denotes e then 1 else 0) = holders k e + if x.Denotes e then 1 else 0 := by
  rw [holders, h.ftable, h.ptable]
  exact holders_setFile hf x e

theorem FileSet.holders_of_iff {k' : Kernel} {x : File} (h : FileSet f x k k')
    (hd : ∀ e, x.Denotes e ↔ (k.ftable f).Denotes e) : holders k' = holders k := by
  funext e
  rw [holders, h.ftable, h.ptable, holders_setFile_of_iff (hd e)]

theorem filealloc_spec (hF : FilesOk fds k.ftable) :
    wp filealloc (fun r k' => match r with
      | none => k' = k
      | some f => f < NFILE ∧ ∃ x, FileSet f x k k' ∧ x.ref = 1 ∧ x.type = .FD_NONE ∧ FilesOk (plus fds f) k'.ftable ∧
          holders k' = holders k) AnyFault k := by
  rw [filealloc]
  refine wp_bind.2 (wp_get.2 ?_)
  split
  · rfl
  · next f hf =>
    have hz : (k.ftable f).ref = 0 := by
      have := List.find?_some hf
      simpa using this
    have hlt : f < NFILE := List.mem_range.1 (List.mem_of_find?_eq_some hf)
    have hty := hF.free f hz
    have hone : (1 : Int) = (plus fds f f : Nat) := by
      have := hF.ref f
      rw [plus_self]
      omega
    refine wp.bind setFile_spec fun _ k₁ h₁ => ⟨hlt, _, h₁, rfl, hty, ?_, h₁.holders_of_iff fun e => ?_⟩
    · rw [h₁.ftable]
      exact hF.update hone (fun _ => hty) hlt fun g hg => plus_of_ne hg
    · simp only [File.Denotes, hty, reduceCtorEq, false_and, and_false]

theorem filedup_spec (hF : FilesOk fds k.ftable) :
    wp (filedup f) (fun _ k' => ∃ x, FileSet f x k k' ∧ FilesOk (plus fds f) k'.ftable ∧ holders k' = holders k)
      AnyFault k := by
  simp only [filedup, wp_bind, wp_get, wp_failIf]
  refine ⟨fun _ => trivial, fun hr => wp.post setFile_spec fun _ k₁ h₁ => ⟨_, h₁, ?_, h₁.holders_of_iff fun e => ?_⟩⟩
  · have hone : (k.ftable f).ref + 1 = (plus fds f f : Nat) := by
      rw [plus_self, hF.ref]
      rfl
    rw [h₁.ftable]
    exact hF.update hone (fun hz => by simp only at hz; omega) (hF.bound f (by omega)) fun g hg => plus_of_ne hg
  · refine and_congr_left fun _ => ?_
    show 0 < (k.ftable f).ref + 1 ↔ _
    omega

/-- One descriptor of the process `p` is set or cleared. -/
structure FdSet (p fd : Nat) (v : Option Nat) (k k' : Kernel) : Prop where
  fs : k'.fs = k.fs
  ftable : k'.ftable = k.ftable
  cur : k'.cur = k.cur
  others : ∀ q, q ≠ p → k'.ptable q = k.ptable q
  ofile : (k'.ptable p).ofile = update (k.ptable p).ofile fd v
  state : (k'.ptable p).state = (k.ptable p).state
  cwd : (k'.ptable p).cwd = (k.ptable p).cwd

theorem setFd_spec {p fd : Nat} {v : Option Nat} :
    wp (setProc p fun q => { q with ofile := update q.ofile fd v }) (fun _ => FdSet p fd v k) AnyFault k :=
  ⟨rfl, rfl, rfl, fun _ hq => update_of_ne hq .., by simp, by simp, by simp⟩

theorem fdalloc_spec (f : Nat) :
    wp (fdalloc f) (fun r k' => match r with
      | none => k' = k
      | some fd => fd < NOFILE ∧ k.proc.ofile fd = none ∧ FdSet k.cur fd (some f) k k') AnyFault k := by
  rw [fdalloc]
  refine wp_bind.2 (wp_get.2 ?_)
  split
  · rfl
  · next fd hf =>
    have hno : (k.proc.ofile fd).isNone = true := List.find?_some (p := fun fd => (k.proc.ofile fd).isNone) hf
    exact wp.bind setFd_spec fun _ k₁ h₁ =>
      ⟨List.mem_range.1 (List.mem_of_find?_eq_some hf), Option.isNone_iff_eq_none.1 hno, h₁⟩

namespace FdSet

variable {k' : Kernel} {p fd : Nat} {v : Option Nat}

theorem holders (h : FdSet p fd v k k') : holders k' = holders k := by
  funext e
  refine congrArg₂ (· + ·) (by rw [h.ftable]) (tally_congr fun q => ?_)
  rcases eq_or_ne q p with rfl | hne
  · simp only [Proc.InDir, Proc.Live, h.state, h.cwd]
  · rw [h.others q hne]

theorem descriptors (h : FdSet p fd v k k') (hp : p < NPROC) (hfd : fd < NOFILE) (g : Nat) :
    descriptors k' g + (if (k.ptable p).ofile fd = some g then 1 else 0) =
      Xv6.descriptors k g + if v = some g then 1 else 0 := by
  have hpt : k'.ptable = update k.ptable p (k'.ptable p) := by
    funext q
    rcases eq_or_ne q p with rfl | hne
    · rw [update_self]
    · rw [update_of_ne hne, h.others q hne]
  have h1 : descriptorsIn (update k.ptable p (k'.ptable p)) g + _ = _ := descriptors_setProc hp (k'.ptable p) g
  have h2 := total_update hfd (fun o : Option Nat => if o = some g then 1 else 0) (k.ptable p).ofile v
  rw [← hpt] at h1
  simp only [Proc.fds, tally, h.ofile] at h1
  simp only [Xv6.descriptors]
  omega

theorem descriptors_new (h : FdSet p fd (some f) k k') (hp : p < NPROC) (hfd : fd < NOFILE)
    (ho : (k.ptable p).ofile fd = none) : Xv6.descriptors k' = plus (Xv6.descriptors k) f := by
  funext g
  have := h.descriptors hp hfd g
  rw [ho, if_neg (by simp)] at this
  simp only [Option.some.injEq, Nat.add_zero] at this
  rw [this, plus]
  simp only [eq_comm]

theorem descriptors_drop (h : FdSet p fd none k k') (hp : p < NPROC) (hfd : fd < NOFILE)
    (ho : (k.ptable p).ofile fd = some f) : plus (Xv6.descriptors k') f = Xv6.descriptors k := by
  funext g
  have := h.descriptors hp hfd g
  rw [ho, if_neg (show ¬ (none : Option Nat) = some g by simp)] at this
  simp only [Option.some.injEq, Nat.add_zero] at this
  rw [← this, plus]
  simp only [eq_comm]

end FdSet

/-! ### `fileclose` -/

structure Closed (s₀ : Fs) (fds : Nat → Nat) (tmp locks : Multiset Nat) (n : Nat) (k k' : Kernel) : Prop where
  files : FilesOk fds k'.ftable
  fs : Holds s₀ (holders k') tmp locks n k'.fs
  ptable : k'.ptable = k.ptable
  cur : k'.cur = k.cur
  le : ∀ e, holders k' e ≤ holders k e

def File.vacant (x : File) : File := { x with ref := 0, type := .FD_NONE }

theorem holders_vacant (hf : f < NFILE) (e : Nat) :
    holdersIn (update ft f (ft f).vacant) pt e + (if (ft f).Denotes e then 1 else 0) = holdersIn ft pt e := by
  have hno : ¬ (ft f).vacant.Denotes e := fun hd => absurd hd.1 (Int.lt_irrefl 0)
  have hset : holdersIn (update ft f (ft f).vacant) pt e + _ = _ := holders_setFile hf (ft f).vacant e
  rwa [if_neg hno, Nat.add_zero] at hset

theorem filerelease_spec (hf : f < NFILE) (hpos : 0 < (k.ftable f).ref) (hH : Holds s₀ (holders k) tmp locks n k.fs)
    (hF : FilesOk fds (update k.ftable f (k.ftable f).vacant)) :
    wp (filerelease sb (k.ftable f)) (fun _ => Closed s₀ fds tmp locks n k) AnyFault
      { k with ftable := update k.ftable f (k.ftable f).vacant } := by
  have hcount : ∀ e, holdersIn (update k.ftable f (k.ftable f).vacant) k.ptable e +
      (if (k.ftable f).Denotes e then 1 else 0) = holders k e := fun e => holders_vacant hf e
  have hle : ∀ e, holdersIn (update k.ftable f (k.ftable f).vacant) k.ptable e ≤ holders k e :=
    fun e => Nat.le_of_add_right_le (hcount e).le
  -- a slot that is not an inode's was no holder
  have hsame : (k.ftable f).type ≠ .FD_INODE →
      Holds s₀ (holdersIn (update k.ftable f (k.ftable f).vacant) k.ptable) tmp locks n k.fs := fun ht => by
    refine hH.shift (fun e => ?_) hle
    rw [← hcount e, if_neg fun hd => ht hd.2.1]
    omega
  rw [filerelease]
  split
  · next ht => exact ⟨hF, hsame (by rw [ht]; decide), rfl, rfl, hle⟩
  · next ht =>
    exact ⟨hF, hsame (by rw [ht]; decide), rfl, rfl, hle⟩
  · next ht =>
    cases hip : (k.ftable f).ip with
    | none => exact wp.bind (wp_onFs.2 (wp.post (holds_beginOp hH) fun _ _ _ => trivial)) fun _ _ (_ : True) => trivial
    | some i =>
      have hden : ∀ e, (k.ftable f).Denotes e ↔ e = i := fun e =>
        ⟨fun hd => by rw [hd.2.2] at hip; exact Option.some.inj hip, fun he => ⟨hpos, ht, he ▸ hip⟩⟩
      have hH₁ : Holds s₀ (holdersIn (update k.ftable f (k.ftable f).vacant) k.ptable) (i ::ₘ tmp) locks n k.fs := by
        refine hH.shift (fun e => ?_) hle
        rw [← hcount e, Multiset.count_cons]
        simp only [hden]
        omega
      refine wp.bind (wp_onFs.2 (wp.post (holds_beginOp hH₁) fun _ s₁ h₁ => ?_)) fun _ _ => id
      simp only [deref_some, pure_bind]
      refine wp.bind (wp_onFs.2 (wp.post (holds_iput h₁) fun _ s₂ h₂ => ?_)) fun _ _ => id
      exact wp_onFs.2 (wp.post (holds_endOp h₂) fun _ s₃ h₃ => ⟨hF, h₃, rfl, rfl, hle⟩)

theorem fileclose_spec (hF : FilesOk (plus fds f) k.ftable) (hH : Holds s₀ (holders k) tmp locks n k.fs) :
    wp (fileclose sb f) (fun _ => Closed s₀ fds tmp locks n k) AnyFault k := by
  have href := hF.ref f
  rw [plus_self] at href
  have hpos : 0 < (k.ftable f).ref := by omega
  have hlt := hF.bound f hpos
  rw [fileclose]
  simp only [wp_bind, wp_get, wp_failIf]
  refine ⟨fun _ => trivial, fun _ => ?_⟩
  split
  · next hmore =>
    have hden : holdersIn (update k.ftable f { k.ftable f with ref := (k.ftable f).ref - 1 }) k.ptable = holders k :=
      funext fun e => holders_setFile_of_iff (and_congr_left fun _ => ⟨fun _ => hpos, fun _ => hmore⟩)
    have hF₁ : FilesOk fds (update k.ftable f { k.ftable f with ref := (k.ftable f).ref - 1 }) :=
      hF.update (by simp only; omega) (fun hz => by simp only at hz; omega) hlt fun g hg => (plus_of_ne hg).symm
    refine ⟨hF₁, ?_, rfl, rfl, fun e => (congrFun hden e).le⟩
    rw [← hden] at hH
    exact hH
  · have hF₁ : FilesOk fds (update k.ftable f (k.ftable f).vacant) :=
      hF.update (by simp only [File.vacant]; omega) (fun _ => rfl) hlt fun g hg => (plus_of_ne hg).symm
    exact wp_bind.2 (filerelease_spec hlt hpos hH hF₁)

end

end Xv6
