import Xv6.TableCalls

/-!
# Pipes and processes

`pipe` goes through several stages before its descriptors are in place, `fork` and `exit` through a
loop over the descriptors. In between the file counts are those of `Staged`: `fds f` pointers to the
open file `f`, in the table or in the hands of the call.
-/

namespace Xv6

open Prog Function

structure Staged (s₀ : Fs) (fds : Nat → Nat) (k : Kernel) : Prop where
  files : FilesOk fds k.ftable
  fs : Holds s₀ (holders k) 0 0 0 k.fs
  dead : Dead k.ptable
  caller : Caller k

section

variable {sb : Superblock} {s₀ : Fs} {fds : Nat → Nat} {k k' k₀ : Kernel} {f fd e p np : Nat}

theorem Idle.staged (h : Idle k) (hc : Caller k) : Staged k.fs (descriptors k) k := ⟨h.files, h.fs, h.dead, hc⟩

theorem Staged.balanced (h : Idle k) (hs : Staged k.fs fds k') (hd : descriptors k' = fds) : Balanced k k' := by
  subst hd
  exact h.balanced_of hs.fs hs.files hs.dead

theorem Caller.of_eq (h : Caller k) (hc : k'.cur = k.cur) (hp : k'.ptable = k.ptable) : Caller k' :=
  ⟨hc ▸ h.lt, by rw [Kernel.proc, hc, hp]; exact h.live⟩

theorem Staged.of_quiet (h : Staged s₀ fds k) (hq : Quiet k k') (hf : k'.fs = k.fs) : Staged s₀ fds k' := by
  refine ⟨hq.filesOk h.files, ?_, hq.dead h.dead, ⟨hq.cur ▸ h.caller.lt, ?_⟩⟩
  · rw [hq.holders, hf]
    exact h.fs
  · rw [Kernel.proc, hq.cur, Proc.Live, (hq.procs k.cur).1]
    exact h.caller.live

theorem staged_filealloc (h : Staged s₀ fds k) :
    wp filealloc (fun r k' => match r with
      | none => k' = k
      | some f => f < NFILE ∧ Staged s₀ (plus fds f) k' ∧ descriptors k' = descriptors k ∧ (k'.ftable f).type ≠ .FD_INODE ∧
          ∀ g, (k.ftable g).type ≠ .FD_INODE → (k'.ftable g).type ≠ .FD_INODE) AnyFault k := by
  refine (filealloc_spec h.files).post fun r k₁ h₁ => ?_
  cases r with
  | none => exact h₁
  | some f =>
    obtain ⟨hlt, x, hx, -, hty, hF, hh⟩ := h₁
    have hself : (k₁.ftable f).type ≠ .FD_INODE := by
      rw [hx.ftable, update_self, hty]
      decide
    refine ⟨hlt, ⟨hF, ?_, hx.ptable ▸ h.dead, h.caller.of_eq hx.cur hx.ptable⟩,
      congrArg descriptorsIn hx.ptable, hself, fun g hg => ?_⟩
    · rw [hh, hx.fs]
      exact h.fs
    · rcases eq_or_ne g f with rfl | hne
      · exact hself
      · rwa [hx.ftable, update_of_ne hne]

theorem staged_fileclose (h : Staged s₀ (plus fds f) k) :
    wp (fileclose sb f) (fun _ k' => Staged s₀ fds k' ∧ k'.ptable = k.ptable ∧ k'.cur = k.cur) AnyFault k :=
  (fileclose_spec h.files h.fs).post fun _ _ h₁ =>
    ⟨⟨h₁.files, h₁.fs, h₁.ptable ▸ h.dead, h.caller.of_eq h₁.cur h₁.ptable⟩, h₁.ptable, h₁.cur⟩

theorem staged_setFd (h : Staged s₀ fds k) (v : Option Nat) :
    wp (setProc k.cur fun q => { q with ofile := update q.ofile fd v })
      (fun _ k' => Staged s₀ fds k' ∧ FdSet k.cur fd v k k') AnyFault k := by
  refine wp.post setFd_spec fun _ k₁ h₁ => ⟨⟨h₁.ftable ▸ h.files, ?_, h₁.dead h.dead h.caller.live, ?_, ?_⟩, h₁⟩
  · rw [h₁.holders, h₁.fs]
    exact h.fs
  · rw [h₁.cur]
    exact h.caller.lt
  · rw [Kernel.proc, h₁.cur, Proc.Live, h₁.state]
    exact h.caller.live

theorem staged_fdalloc (h : Staged s₀ fds k) (f : Nat) :
    wp (fdalloc f) (fun r k' => match r with
      | none => k' = k
      | some fd => Staged s₀ fds k' ∧ fd < NOFILE ∧ k.proc.ofile fd = none ∧ FdSet k.cur fd (some f) k k') AnyFault k := by
  rw [fdalloc]
  refine wp_bind.2 (wp_get.2 ?_)
  split
  · rfl
  · next fd hf =>
    have hno : (k.proc.ofile fd).isNone = true := List.find?_some (p := fun fd => (k.proc.ofile fd).isNone) hf
    exact wp.bind (staged_setFd h (some f)) fun _ k₁ h₁ =>
      ⟨h₁.1, List.mem_range.1 (List.mem_of_find?_eq_some hf), Option.isNone_iff_eq_none.1 hno, h₁.2⟩

theorem plus_comm (fds : Nat → Nat) (f g : Nat) : plus (plus fds f) g = plus (plus fds g) f := by
  funext x
  simp only [plus]
  omega

/-! ### `pipe` -/

theorem staged_setPipeEnd (h : Staged s₀ fds k) (hf : f < NFILE) (hpos : 0 < fds f) (hno : (k.ftable f).type ≠ .FD_INODE)
    (r w : Bool) (p : Nat) :
    wp (setFile f fun x => { x with type := .FD_PIPE, readable := r, writable := w, pipe := p })
      (fun _ k' => Staged s₀ fds k' ∧ descriptors k' = descriptors k ∧
        ∀ g, (k.ftable g).type ≠ .FD_INODE → (k'.ftable g).type ≠ .FD_INODE) AnyFault k := by
  refine wp.post setFile_spec fun _ k₁ h₁ => ⟨⟨?_, ?_, h₁.ptable ▸ h.dead, h.caller.of_eq h₁.cur h₁.ptable⟩,
    congrArg descriptorsIn h₁.ptable, fun g hg => ?_⟩
  · rw [h₁.ftable]
    refine h.files.update (h.files.ref f) (fun hz => ?_) hf fun _ _ => rfl
    have := h.files.ref f
    simp only at hz
    omega
  · rw [h₁.holders_of_iff fun e => ⟨fun hd => absurd hd.2.1 (by simp), fun hd => absurd hd.2.1 hno⟩, h₁.fs]
    exact h.fs
  · rw [h₁.ftable]
    rcases eq_or_ne g f with rfl | hne
    · simp
    · rwa [update_of_ne hne]

theorem staged_closeBoth (sb : Superblock) (h : Staged s₀ (plus (plus fds f) p) k) :
    wp (do
      fileclose sb f
      fileclose sb p) (fun _ k' => Staged s₀ fds k' ∧ k'.ptable = k.ptable) AnyFault k := by
  rw [plus_comm] at h
  refine wp.bind (staged_fileclose h) fun _ k₁ h₁ => ?_
  exact (staged_fileclose h₁.1).post fun _ k₂ h₂ => ⟨h₂.1, h₂.2.1.trans h₁.2.1⟩

theorem staged_pipealloc (h : Staged s₀ fds k) :
    wp (pipealloc sb) (fun r k' => descriptors k' = descriptors k ∧ match r with
      | none => Staged s₀ fds k'
      | some (rf, wf) => Staged s₀ (plus (plus fds rf) wf) k') AnyFault k := by
  refine wp.bind (staged_filealloc h) fun r k₁ h₁ => ?_
  cases r with
  | none =>
    rw [show k₁ = k from h₁]
    exact ⟨rfl, h⟩
  | some f0 =>
    obtain ⟨hlt₀, hs₁, hp₁, hty₀, -⟩ := h₁
    refine wp.bind (staged_filealloc hs₁) fun r k₂ h₂ => ?_
    cases r with
    | none =>
      rw [show k₂ = k₁ from h₂]
      exact wp.bind (staged_fileclose hs₁) fun _ k₃ h₃ => ⟨(congrArg descriptorsIn h₃.2.1).trans hp₁, h₃.1⟩
    | some f1 =>
      obtain ⟨hlt₁, hs₂, hp₂, hty₁, hkeep⟩ := h₂
      refine wp.bind (quiet_kalloc (Std.Refl.refl k₂)) fun ok k₃ h₃ => ?_
      have hs₃ := hs₂.of_quiet h₃.1 h₃.2
      have hp₃ : descriptors k₃ = descriptors k := h₃.1.descriptors.trans (hp₂.trans hp₁)
      split
      · have hboth := staged_closeBoth sb hs₃
        refine wp_bind.2 ((wp_bind.1 hboth).post fun _ k₄ h₄ => wp.bind h₄ fun _ k₅ h₅ => ?_)
        exact ⟨(congrArg descriptorsIn h₅.2).trans hp₃, h₅.1⟩
      · have hno : ∀ g, (k₂.ftable g).type ≠ .FD_INODE → (k₃.ftable g).type ≠ .FD_INODE := fun g hg => by
          rwa [(h₃.1.files g).2.1]
        refine wp_bind.2 (wp_get.2 ?_)
        dsimp only
        refine wp.bind (quiet_setPipe (Std.Refl.refl k₃) _ _) fun _ k₄ h₄ => ?_
        have hs₄ := hs₃.of_quiet h₄.1 h₄.2
        refine wp.bind (x := modify _) (Q := fun _ k₅ => Quiet k₄ k₅ ∧ k₅.fs = k₄.fs) ⟨.of_eq rfl rfl rfl, rfl⟩ fun _ k₅ h₅ => ?_
        have hs₅ := hs₄.of_quiet h₅.1 h₅.2
        have hq₅ : Quiet k₃ k₅ := IsTrans.trans _ _ _ h₄.1 h₅.1
        have hno₅ : ∀ g, (k₂.ftable g).type ≠ .FD_INODE → (k₅.ftable g).type ≠ .FD_INODE := fun g hg => by
          rw [(hq₅.files g).2.1]
          exact hno g hg
        refine wp.bind (staged_setPipeEnd hs₅ hlt₀ (by simp [plus]) (hno₅ _ (hkeep _ hty₀)) _ _ _) fun _ k₆ h₆ => ?_
        refine wp.bind (staged_setPipeEnd h₆.1 hlt₁ (by simp [plus]) (h₆.2.2 _ (hno₅ _ hty₁)) _ _ _) fun _ k₇ h₇ => ?_
        exact ⟨h₇.2.1.trans (h₆.2.1.trans (hq₅.descriptors.trans hp₃)), h₇.1⟩

theorem sysPipe_balanced (h : Idle k) (hc : Caller k) : wp (sysPipe sb) (fun _ => Balanced k) AnyFault k := by
  rw [sysPipe]
  refine wp_bind.2 (wp_get.2 ?_)
  split
  · exact h.balanced
  · refine wp.bind (staged_pipealloc (h.staged hc)) fun r k₁ h₁ => ?_
    cases r with
    | none => exact Staged.balanced h h₁.2 h₁.1
    | some x =>
      obtain ⟨rf, wf⟩ := x
      obtain ⟨hp₁, hs₁⟩ := h₁
      refine wp.bind (staged_fdalloc hs₁ rf) fun r k₂ h₂ => ?_
      cases r with
      | none =>
        rw [show k₂ = k₁ from h₂]
        have hboth := staged_closeBoth sb hs₁
        refine wp_bind.2 ((wp_bind.1 hboth).post fun _ k₃ h₃ => wp.bind h₃ fun _ k₄ h₄ => ?_)
        exact Staged.balanced h h₄.1 ((congrArg descriptorsIn h₄.2).trans hp₁)
      | some fd0 =>
        obtain ⟨hs₂, hfd₀, hno₀, hset₀⟩ := h₂
        have hp₂ : descriptors k₂ = plus (descriptors k) rf := by
          rw [hset₀.descriptors_new hs₁.caller.lt hfd₀ hno₀, hp₁]
        refine wp.bind (staged_fdalloc hs₂ wf) fun r k₃ h₃ => ?_
        cases r with
        | none =>
          rw [show k₃ = k₂ from h₃]
          refine wp_bind.2 (wp_get.2 ?_)
          refine wp.bind (staged_setFd hs₂ none) fun _ k₄ h₄ => ?_
          have hboth := staged_closeBoth sb h₄.1
          refine wp_bind.2 ((wp_bind.1 hboth).post fun _ k₅ h₅ => wp.bind h₅ fun _ k₆ h₆ => ?_)
          have hof : (k₂.ptable k₂.cur).ofile fd0 = some rf := by
            rw [hset₀.cur, hset₀.ofile, update_self]
          have hp₄ : descriptors k₄ = descriptors k := by
            funext g
            have := congrFun (h₄.2.descriptors_drop hs₂.caller.lt hfd₀ hof) g
            rw [hp₂] at this
            simp only [plus] at this
            omega
          exact Staged.balanced h h₆.1 ((congrArg descriptorsIn h₆.2).trans hp₄)
        | some fd1 =>
          obtain ⟨hs₃, hfd₁, hno₁, hset₁⟩ := h₃
          have hp₃ : descriptors k₃ = plus (plus (descriptors k) rf) wf := by
            rw [hset₁.descriptors_new hs₂.caller.lt hfd₁ hno₁, hp₂]
          refine wp.bind (quiet_putUser (Std.Refl.refl k₃) _ _) fun _ k₄ h₄ => ?_
          refine wp.bind (quiet_putUser h₄.1 _ _) fun _ k₅ h₅ => ?_
          have hs₅ := hs₃.of_quiet h₅.1 (h₅.2.1.trans h₄.2.1)
          exact Staged.balanced h hs₅ (h₅.1.descriptors.trans hp₃)

/-! ### `wait` -/

theorem wait_balanced (h : Idle k) : wp wait (fun _ => Balanced k) AnyFault k := by
  rw [wait]
  refine wp_bind.2 (wp_get.2 ?_)
  split
  · next q hq =>
    have hz : (k.ptable q).parent = some k.cur ∧ (k.ptable q).state = .ZOMBIE := by
      have := List.find?_some hq
      simpa using this
    have hdead : ¬ (k.ptable q).Live := fun hl => hl.2 hz.2
    refine wp.bind setProc_spec fun _ k₁ h₁ => ?_
    obtain ⟨hof, hcwd⟩ := h.dead q hdead
    refine h.balanced_of ?_ ?_ (h₁.dead h.dead fun _ => ⟨hof, hcwd⟩)
    · have hh : holders k₁ = holders k := funext fun e => by
        rw [holders, h₁.ftable, h₁.ptable]
        exact holders_setProc_of_iff ⟨fun hd => absurd rfl hd.1.1, fun hd => absurd hd.1 hdead⟩
      rw [hh, h₁.fs]
      exact h.fs
    · rw [h₁.descriptors_of_eq rfl, h₁.ftable]
      exact h.files
  · simp only [wp_bind, wp_failIf, wp_pure]
    exact ⟨fun _ => trivial, fun _ => h.balanced⟩

/-! ### `fork` -/

theorem kalloc_spec : wp kalloc (fun _ k' => k'.fs = k.fs ∧ k'.ftable = k.ftable ∧ k'.ptable = k.ptable ∧ k'.cur = k.cur)
    AnyFault k := by
  rw [kalloc]
  refine wp_bind.2 (wp_get.2 ?_)
  split <;> exact ⟨rfl, rfl, rfl, rfl⟩

/-- A slot of the process table that was not in use, and what `fork` has done to it so far. -/
structure Child (k₀ : Kernel) (np : Nat) (k : Kernel) : Prop where
  fs : k.fs = k₀.fs
  ftable : k.ftable = k₀.ftable
  cur : k.cur = k₀.cur
  others : ∀ q, q ≠ np → k.ptable q = k₀.ptable q
  ofile : (k.ptable np).ofile = (k₀.ptable np).ofile
  cwd : (k.ptable np).cwd = (k₀.ptable np).cwd
  unused : (k₀.ptable np).state = .UNUSED
  lt : np < NPROC

theorem Child.quiet (h : Child k₀ np k) (hs : (k.ptable np).state = .UNUSED) : Quiet k₀ k := by
  refine ⟨h.cur, fun f => by simp [h.ftable], fun q => ?_⟩
  rcases eq_or_ne q np with rfl | hne
  · exact ⟨hs.trans h.unused.symm, h.ofile, h.cwd⟩
  · simp [h.others q hne]

theorem Child.setProc (h : Child k₀ np k) {g : Proc → Proc} (hg : ∀ q, (g q).ofile = q.ofile ∧ (g q).cwd = q.cwd) :
    wp (setProc np g) (fun _ k' => Child k₀ np k' ∧ (k'.ptable np).state = (g (k.ptable np)).state) AnyFault k := by
  refine wp.post setProc_spec fun _ k₁ h₁ => ?_
  have hnp : k₁.ptable np = g (k.ptable np) := by rw [h₁.ptable, update_self]
  obtain ⟨ho, hc⟩ := hg (k.ptable np)
  refine ⟨⟨h₁.fs.trans h.fs, h₁.ftable.trans h.ftable, h₁.cur.trans h.cur, fun q hq => ?_, ?_, ?_, h.unused, h.lt⟩, ?_⟩
  · rw [h₁.ptable, update_of_ne hq, h.others q hq]
  · rw [hnp, ho, h.ofile]
  · rw [hnp, hc, h.cwd]
  · rw [hnp]

theorem allocproc_spec : wp allocproc (fun r k' => match r with
    | none => Quiet k k' ∧ k'.fs = k.fs
    | some np => Child k np k' ∧ (k'.ptable np).state = .EMBRYO) AnyFault k := by
  rw [allocproc]
  refine wp_bind.2 (wp_get.2 ?_)
  split
  · exact ⟨Std.Refl.refl k, rfl⟩
  · next np hf =>
    have hz : (k.ptable np).state = .UNUSED := by
      have := List.find?_some hf
      simpa using this
    have hchild : Child k np k :=
      ⟨rfl, rfl, rfl, fun _ _ => rfl, rfl, rfl, hz, List.mem_range.1 (List.mem_of_find?_eq_some hf)⟩
    refine wp.bind (hchild.setProc fun _ => ⟨rfl, rfl⟩) fun _ k₁ h₁ => ?_
    refine wp_bind.2 (wp_modify _ |>.2 (wp.bind kalloc_spec fun ok k₂ h₂ => ?_))
    obtain ⟨hfs, hft, hpt, hcur⟩ := h₂
    have hc₂ : Child k np k₂ := ⟨hfs.trans h₁.1.fs, hft.trans h₁.1.ftable, hcur.trans h₁.1.cur,
      fun q hq => by rw [hpt]; exact h₁.1.others q hq, by rw [hpt]; exact h₁.1.ofile, by rw [hpt]; exact h₁.1.cwd, hz, h₁.1.lt⟩
    split
    · refine ⟨hc₂, ?_⟩
      rw [hpt]
      exact h₁.2
    · exact wp.bind (hc₂.setProc fun _ => ⟨rfl, rfl⟩) fun _ k₃ h₃ => ⟨h₃.1.quiet h₃.2, h₃.1.fs⟩

/-- The loop of `fork`: descriptors below `fd` have been shared with the child. -/
structure Forking (k₀ : Kernel) (np fd : Nat) (k : Kernel) : Prop where
  fs : k.fs = k₀.fs
  cur : k.cur = k₀.cur
  files : FilesOk (descriptors k) k.ftable
  holders : holders k = holders k₀
  others : ∀ q, q ≠ np → k.ptable q = k₀.ptable q
  cwd : (k.ptable np).cwd = none
  free : ∀ j, fd ≤ j → j < NOFILE → (k.ptable np).ofile j = none

theorem forkFile_spec (hlt : np < NPROC) (hfd : fd < NOFILE) (h : Forking k₀ np fd k) :
    wp (forkFile np fd) (fun _ => Forking k₀ np (fd + 1)) AnyFault k := by
  rw [forkFile]
  refine wp_bind.2 (wp_get.2 ?_)
  split
  · exact { h with free := fun j hj => h.free j (by omega) }
  · next f hf =>
    refine wp.bind (filedup_spec h.files) fun _ k₁ h₁ => ?_
    obtain ⟨x, hx, hF, hh⟩ := h₁
    refine wp.post setFd_spec fun _ k₂ h₂ => ?_
    have hdesc : descriptors k₂ = plus (descriptors k) f := by
      rw [h₂.descriptors_new hlt hfd (by rw [hx.ptable]; exact h.free fd (Nat.le_refl _) hfd), descriptors, hx.ptable]
    refine ⟨h₂.fs.trans (hx.fs.trans h.fs), h₂.cur.trans (hx.cur.trans h.cur), ?_, ?_, fun q hq => ?_, ?_, fun j hj hjn => ?_⟩
    · rw [hdesc, h₂.ftable]
      exact hF
    · rw [h₂.holders, hh, h.holders]
    · rw [h₂.others q hq, hx.ptable, h.others q hq]
    · rw [h₂.cwd, hx.ptable, h.cwd]
    · rw [h₂.ofile, update_of_ne (by omega), hx.ptable]
      exact h.free j (by omega) hjn

theorem fork_balanced (h : Idle k) (hc : Caller k) : wp fork (fun _ => Balanced k) AnyFault k := by
  rw [fork]
  refine wp_bind.2 (wp_get.2 ?_)
  refine wp.bind allocproc_spec fun r k₁ h₁ => ?_
  cases r with
  | none => exact During.balanced h ⟨h₁.1, by rw [h₁.2]; exact h.fs⟩
  | some np =>
    obtain ⟨hch, hst⟩ := h₁
    refine wp.bind kalloc_spec fun ok k₂ h₂ => ?_
    obtain ⟨hfs, hft, hpt, hcur⟩ := h₂
    have hc₂ : Child k np k₂ := ⟨hfs.trans hch.fs, hft.trans hch.ftable, hcur.trans hch.cur,
      fun q hq => by rw [hpt]; exact hch.others q hq, by rw [hpt]; exact hch.ofile, by
        rw [hpt]; exact hch.cwd, hch.unused, hch.lt⟩
    split
    · exact wp.bind (hc₂.setProc fun _ => ⟨rfl, rfl⟩) fun _ k₃ h₃ =>
        During.balanced h ⟨h₃.1.quiet h₃.2, by rw [h₃.1.fs]; exact h.fs⟩
    · refine wp.bind (hc₂.setProc fun _ => ⟨rfl, rfl⟩) fun _ k₃ h₃ => ?_
      obtain ⟨hno, hcwd⟩ := h.dead np fun hl => hl.1 hch.unused
      -- a slot with no descriptors and no directory counts for nothing, whatever its state
      have hhold : holders k₃ = holders k := funext fun e => by
        refine congrArg₂ (· + ·) (by rw [h₃.1.ftable]) (tally_congr fun q => ?_)
        rcases eq_or_ne q np with rfl | hne
        · simp only [Proc.InDir, h₃.1.cwd, hcwd, reduceCtorEq, and_false]
        · rw [h₃.1.others q hne]
      have hdesc : descriptors k₃ = descriptors k := funext fun f => total_congr fun q => by
        rcases eq_or_ne q np with rfl | hne
        · rw [Proc.fds, h₃.1.ofile, Proc.fds]
        · rw [h₃.1.others q hne]
      have hfork : Forking k np 0 k₃ := ⟨h₃.1.fs, h₃.1.cur, by rw [hdesc, h₃.1.ftable]; exact h.files, hhold, h₃.1.others,
        by rw [h₃.1.cwd, hcwd], fun j _ hj => by rw [h₃.1.ofile]; exact hno j hj⟩
      have hloop : wp (forRange (fun fd _ => forkFile np fd) 0 NOFILE ()) (fun _ => Forking k np (0 + NOFILE)) AnyFault k₃ :=
        wp_forRange (fun fd _ => Forking k np fd) hfork fun fd _ t _ hlt ht => forkFile_spec hch.lt (by omega) ht
      refine wp.bind hloop fun _ k₄ h₄ => ?_
      refine wp_bind.2 (quiet_deref fun c hcw => ?_)
      have hH : Holds k.fs (holders k) 0 0 0 k₄.fs := by
        rw [h₄.fs]
        exact h.fs
      have hpos : 0 < (k₄.fs.icache c).ref := by
        rw [hH.ref]
        have := hc.cwdHeld c hcw
        omega
      refine wp.bind (quiet_onFs (Std.Refl.refl k₄) (holds_idup hH hpos)) ?_
      rintro c' k₅ ⟨hq, rfl, hH₅⟩
      refine wp.bind setProc_spec fun _ k₆ h₆ => wp_bind.2 (wp_get.2 ?_)
      have hcwd₅ : (k₅.ptable np).cwd = none := by rw [(hq.procs np).2.2, h₄.cwd]
      have hadd : ∀ e, holders k₆ e = holders k e + if e = c' then 1 else 0 := fun e => by
        have := h₆.holders_add hch.lt e
        rw [if_neg (by simp [Proc.InDir, hcwd₅]), hq.holders, h₄.holders] at this
        simpa [Proc.InDir, Proc.Live, eq_comm] using this
      refine ⟨⟨?_, ?_, ?_⟩, fun e he _ => ?_⟩
      · rw [h₆.fs]
        refine hH₅.rebase fun e => ?_
        rw [hadd e, Multiset.count_cons]
        simp
      · rw [h₆.descriptors_of_eq rfl, hq.descriptors, h₆.ftable]
        exact hq.filesOk h₄.files
      · intro q hq'
        rw [h₆.ptable] at hq' ⊢
        rcases eq_or_ne q np with rfl | hne
        · rw [update_self] at hq'
          exact absurd ⟨by simp, by simp⟩ hq'
        · obtain ⟨h1, h2, h3⟩ := hq.procs q
          rw [update_of_ne hne] at hq' ⊢
          rw [h2, h3, h₄.others q hne]
          rw [Proc.Live, h1, h₄.others q hne] at hq'
          exact h.dead q hq'
      · rw [h₆.fs]
        exact h.kept hH₅ he he

/-! ### `exit` -/

/-- The loop of `exit`: descriptors below `fd` are closed. -/
structure Exiting (k₀ : Kernel) (fd : Nat) (k : Kernel) : Prop where
  staged : Staged k₀.fs (descriptors k) k
  cur : k.cur = k₀.cur
  cwd : k.proc.cwd = k₀.proc.cwd
  closed : ∀ j, j < fd → k.proc.ofile j = none

theorem exitFile_spec (hfd : fd < NOFILE) (h : Exiting k₀ fd k) :
    wp (exitFile sb fd) (fun _ => Exiting k₀ (fd + 1)) AnyFault k := by
  rw [exitFile]
  refine wp_bind.2 (wp_get.2 ?_)
  split
  · next hno =>
    refine { h with closed := fun j hj => ?_ }
    rcases Nat.lt_succ_iff_lt_or_eq.1 hj with hj | rfl
    · exact h.closed j hj
    · exact hno
  · next f hof =>
    have hlt := h.staged.caller.lt
    have hpos : 0 < descriptors k f :=
      Nat.lt_of_lt_of_le (fds_pos hfd hof) (apply_le_total hlt (Proc.fds f) k.ptable)
    -- the counts once the descriptor is gone
    obtain ⟨fds, hfds⟩ : ∃ fds, plus fds f = descriptors k := by
      refine ⟨fun g => descriptors k g - if g = f then 1 else 0, funext fun g => ?_⟩
      simp only [plus]
      split
      · next hg =>
        subst hg
        omega
      · omega
    have hs : Staged k₀.fs (plus fds f) k := hfds ▸ h.staged
    refine wp.bind (staged_fileclose hs) fun _ k₁ h₁ => ?_
    obtain ⟨hs₁, hpt, hcur⟩ := h₁
    rw [← hcur]
    refine (staged_setFd hs₁ none).post fun _ k₂ h₂ => ?_
    obtain ⟨hs₂, hset⟩ := h₂
    have hproc : k₁.proc = k.proc := by rw [Kernel.proc, hpt, hcur, Kernel.proc]
    have hdrop := hset.descriptors_drop (hcur ▸ hlt) hfd (show k₁.proc.ofile fd = some f by rw [hproc, hof])
    have hdesc : descriptors k₂ = fds := by
      have hd₁ : descriptors k₁ = descriptors k := congrArg descriptorsIn hpt
      rw [hd₁, ← hfds] at hdrop
      funext g
      have := congrFun hdrop g
      simp only [plus] at this
      omega
    have hproc₂ : k₂.proc = k₂.ptable k₁.cur := by rw [Kernel.proc, hset.cur]
    refine ⟨hdesc ▸ hs₂, hset.cur.trans (hcur.trans h.cur), ?_, fun j hj => ?_⟩
    · rw [hproc₂, hset.cwd, ← h.cwd, ← hproc]
      rfl
    · rw [hproc₂, hset.ofile]
      rcases Nat.lt_succ_iff_lt_or_eq.1 hj with hj | rfl
      · rw [update_of_ne (by omega)]
        have := h.closed j hj
        rw [← hproc] at this
        exact this
      · rw [update_self]

theorem holders_leave {q : Proc} {c : Nat} (hc : Caller k) (hcwd : k.proc.cwd = some c) (hq : q.cwd = none) (e : Nat) :
    holdersIn k.ftable (update k.ptable k.cur q) e + (if e = c then 1 else 0) = holders k e := by
  have hno : ¬ q.InDir e := fun hd => by
    rw [hd.2] at hq
    cases hq
  have hold : (if (k.ptable k.cur).InDir e then 1 else 0) = if e = c then 1 else 0 := hc.inDir hcwd e
  have hset : holdersIn k.ftable (update k.ptable k.cur q) e + _ = _ := holders_setProc hc.lt q e
  rwa [hold, if_neg hno, Nat.add_zero] at hset

theorem exitCwd_spec (sb : Superblock) {k₁ k₂ : Kernel} {c : Nat} (h : Idle k) (hcwd : k.proc.cwd = some c)
    (hx : Exiting k NOFILE k₁) (hq : Quiet k₁ k₂) (hs : Holds k.fs (holders k₁) 0 0 1 k₂.fs) :
    wp (do
      onFs (iput sb c)
      endOpK sb
      setProc k.cur fun p => { p with cwd := none }
      modify fun k => { k with ptable := fun q =>
        if (k.ptable q).parent = some k.cur then { k.ptable q with parent := some 0 } else k.ptable q }
      setProc k.cur fun p => { p with state := .ZOMBIE }) (fun _ => Balanced k) AnyFault k₂ := by
  have hc₁ := hx.staged.caller
  have hcwd₁ : k₁.proc.cwd = some c := hx.cwd.trans hcwd
  rw [← hx.cur]
  -- the counts without the caller's directory
  obtain ⟨env, henv⟩ : ∃ env, env = holdersIn k₁.ftable (update k₁.ptable k₁.cur { k₁.proc with cwd := none }) :=
    ⟨_, rfl⟩
  have hleave : ∀ e, env e + (if e = c then 1 else 0) = holders k₁ e := by
    rw [henv]
    exact holders_leave hc₁ hcwd₁ rfl
  have hH : Holds k.fs env (c ::ₘ 0) 0 1 k₂.fs :=
    hs.shift (fun e => by rw [← hleave e, Multiset.count_cons]; simp) fun e => Nat.le_of_add_right_le (hleave e).le
  refine wp.bind (quiet_onFs hq (holds_iput hH)) fun _ k₃ h₃ => ?_
  refine wp.bind (quiet_onFs h₃.1 (holds_endOp h₃.2)) fun _ k₄ h₄ => ?_
  refine wp.bind setProc_spec fun _ k₅ h₅ => ?_
  refine wp.bind (x := modify _) (Q := fun _ k₆ => Quiet k₅ k₆ ∧ k₆.fs = k₅.fs) ⟨⟨rfl, fun _ =>
    ⟨rfl, rfl, rfl⟩, fun q => ?_⟩, rfl⟩
    fun _ k₆ h₆ => ?_
  · simp only
    split <;> exact ⟨rfl, rfl, rfl⟩
  refine wp.post setProc_spec fun _ k₇ h₇ => ?_
  have hcur₄ : k₄.cur = k₁.cur := h₄.1.cur
  have hlive₄ : (k₄.ptable k₁.cur).Live := by
    rw [Proc.Live, (h₄.1.procs k₁.cur).1]
    exact hc₁.live
  have hcwd₆ : (k₆.ptable k₁.cur).cwd = none := by
    rw [(h₆.1.procs k₁.cur).2.2, h₅.ptable, update_self]
  have hof₆ : ∀ fd, fd < NOFILE → (k₆.ptable k₁.cur).ofile fd = none := fun fd hfd => by
    rw [(h₆.1.procs k₁.cur).2.1, h₅.ptable, update_self]
    simp only
    rw [(h₄.1.procs k₁.cur).2.1]
    exact hx.closed fd hfd
  have hhold₅ : holders k₅ = env := by
    funext e
    have hc₄ : Caller k₄ := ⟨hcur₄ ▸ hc₁.lt, by rw [Kernel.proc, hcur₄]; exact hlive₄⟩
    have hout : holders k₅ e + (if e = c then 1 else 0) = holders k₄ e := by
      rw [holders, h₅.ftable, h₅.ptable, ← hcur₄]
      exact holders_leave hc₄ (h₄.1.cwd.trans hcwd₁) rfl e
    rw [h₄.1.holders, ← hleave e] at hout
    omega
  have hhold₇ : holders k₇ = holders k₅ := by
    funext e
    rw [← h₆.1.holders, holders, h₇.ftable, h₇.ptable]
    exact holders_setProc_of_iff ⟨fun hd => absurd rfl hd.1.2, fun hd => by rw [Proc.InDir, hcwd₆] at hd; cases hd.2⟩
  refine h.balanced_of ?_ ?_ ?_
  · rw [hhold₇, hhold₅, h₇.fs, h₆.2, h₅.fs]
    exact h₄.2
  · rw [h₇.descriptors_of_eq rfl, h₆.1.descriptors, h₅.descriptors_of_eq rfl, h₄.1.descriptors, h₇.ftable]
    refine h₆.1.filesOk ?_
    rw [h₅.ftable]
    exact h₄.1.filesOk hx.staged.files
  · refine h₇.dead (h₆.1.dead (h₅.dead (h₄.1.dead hx.staged.dead) fun hno => absurd hlive₄ hno)) fun _ => ⟨hof₆, hcwd₆⟩

theorem exit_balanced (h : Idle k) (hc : Caller k) : wp (exit sb) (fun _ => Balanced k) AnyFault k := by
  rw [exit]
  simp only [wp_bind, wp_get, wp_failIf]
  refine ⟨fun _ => trivial, fun _ => ?_⟩
  have hloop : wp (forRange (fun fd _ => exitFile sb fd) 0 NOFILE ()) (fun _ => Exiting k (0 + NOFILE)) AnyFault k :=
    wp_forRange (fun fd _ => Exiting k fd) ⟨h.staged hc, rfl, rfl, fun j hj => absurd hj (Nat.not_lt_zero j)⟩
      fun fd _ t _ hlt ht => exitFile_spec (by omega) ht
  refine hloop.post fun _ k₁ hx => ?_
  rw [Nat.zero_add] at hx
  refine (quiet_onFs (Std.Refl.refl k₁) (holds_beginOp hx.staged.fs)).post fun _ k₂ h₂ => ?_
  refine quiet_deref fun c hcwd => ?_
  have hend := exitCwd_spec sb h hcwd hx h₂.1 h₂.2
  simp only [wp_bind] at hend
  refine hend.post fun _ k₃ h₃ => h₃.post fun _ k₄ h₄ => h₄.post fun _ k₅ h₅ => h₅.post fun _ k₆ h₆ => ?_
  exact h₆.post fun _ _ h₇ => h₇

end

end Xv6
