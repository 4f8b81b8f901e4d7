import Xv6.QuietCalls

/-!
# Calls that open and close

`open`, `dup`, `close`, `pipe`, `chdir`, `fork`, `exit` and `wait` move references between the tables.
Each keeps both counts exact on every exit.
-/

namespace Xv6

open Prog Function

structure Caller (k : Kernel) : Prop where
  lt : k.cur < NPROC
  live : k.proc.Live

def Balanced (k k' : Kernel) : Prop := Idle k' ∧ Keeping k k'

section

variable {sb : Superblock} {k k' : Kernel} {f fd e : Nat} {ft : Nat → File} {pt : Nat → Proc} {s s' s'' : Fs}

theorem Kept.refl (s : Fs) (e : Nat) : Kept s s e := ⟨rfl, rfl, [], rfl, by simp⟩

theorem Kept.trans (h : Kept s s' e) (h' : Kept s' s'' e) : Kept s s'' e := by
  obtain ⟨hd, hi, l, hl, hn⟩ := h
  obtain ⟨hd', hi', l', hl', hn'⟩ := h'
  refine ⟨hd'.trans hd, hi'.trans hi, l' ++ l, by rw [hl', hl, List.append_assoc], fun hm => ?_⟩
  rcases List.mem_append.1 hm with hm | hm
  · exact hn' (hi ▸ hm)
  · exact hn hm

theorem Idle.balanced (h : Idle k) : Balanced k k := ⟨h, fun e _ _ => Kept.refl _ e⟩

theorem During.balanced (hi : Idle k) (h : During k (holders k) 0 0 0 k') : Balanced k k' := h.1.idle hi h.2

theorem Idle.during (h : Idle k) : During k (holders k) 0 0 0 k := ⟨Std.Refl.refl k, h.fs⟩

theorem Caller.cwdHeld (hc : Caller k) : CwdHeld (holders k) k.proc.cwd := fun _ hip =>
  Nat.lt_of_lt_of_le (tally_pos hc.lt ⟨hc.live, hip⟩) (Nat.le_add_left _ _)

theorem argfd_some {p : Proc} {n : Nat} (h : p.argfd n = some (fd, f)) : fd < NOFILE ∧ p.ofile fd = some f := by
  unfold Proc.argfd at h
  rcases ha : p.argint n with _ | a
  · rw [ha] at h
    cases h
  · simp only [ha, Option.bind_eq_bind, Option.bind_some] at h
    split at h
    · cases h
    · next hr =>
      rcases ho : p.ofile a.toNat with _ | g
      · rw [ho] at h
        cases h
      · rw [ho] at h
        obtain ⟨rfl, rfl⟩ := Prod.mk.inj (Option.some.inj h)
        refine ⟨?_, ho⟩
        have := BitVec.toInt_eq_toNat_cond a
        simp only [NOFILE] at hr ⊢
        omega

theorem FdSet.dead {p : Nat} {v : Option Nat} (hs : FdSet p fd v k k') (hd : Dead k.ptable) (hl : (k.ptable p).Live) :
    Dead k'.ptable := by
  intro q hq
  rcases eq_or_ne q p with rfl | hne
  · rw [Proc.Live, hs.state] at hq
    exact absurd hl hq
  · rw [hs.others q hne] at hq ⊢
    exact hd q hq

theorem Idle.balanced_of (h : Idle k) (hs : Holds k.fs (holders k') 0 0 0 k'.fs) (hF : FilesOk (descriptors k') k'.ftable)
    (hd : Dead k'.ptable) : Balanced k k' :=
  ⟨⟨hs.rebase fun _ => rfl, hF, hd⟩, fun _ he he' => h.kept hs he he'⟩

/-! ### `dup`, `close` -/

theorem sysDup_balanced (h : Idle k) (hc : Caller k) : wp sysDup (fun _ => Balanced k) AnyFault k := by
  rw [sysDup]
  refine wp_bind.2 (wp_get.2 ?_)
  split
  · exact h.balanced
  · next f _ =>
    refine wp.bind (fdalloc_spec f) fun r k₁ h₁ => ?_
    cases r with
    | none =>
      rw [show k₁ = k from h₁]
      exact h.balanced
    | some fd =>
      obtain ⟨hfd, hno, h₁⟩ := h₁
      have hF : FilesOk (descriptors k) k₁.ftable := h₁.ftable ▸ h.files
      refine wp.bind (filedup_spec hF) ?_
      rintro _ k₂ ⟨x, h₂, hF₂, hh⟩
      have hfs : k₂.fs = k.fs := h₂.fs.trans h₁.fs
      refine h.balanced_of ?_ ?_ ?_
      · rw [hh, h₁.holders, hfs]
        exact h.fs
      · rw [← h₁.descriptors_new hc.lt hfd hno] at hF₂
        rwa [descriptors, h₂.ptable]
      · rw [h₂.ptable]
        exact h₁.dead h.dead hc.live

theorem sysClose_balanced (h : Idle k) (hc : Caller k) : wp (sysClose sb) (fun _ => Balanced k) AnyFault k := by
  rw [sysClose]
  refine wp_bind.2 (wp_get.2 ?_)
  split
  · exact h.balanced
  · next fd f ha =>
    obtain ⟨hfd, hof⟩ := argfd_some ha
    refine wp.bind setFd_spec fun _ k₁ h₁ => ?_
    have hF : FilesOk (plus (descriptors k₁) f) k₁.ftable := by
      rw [h₁.descriptors_drop hc.lt hfd hof, h₁.ftable]
      exact h.files
    have hH : Holds k.fs (holders k₁) 0 0 0 k₁.fs := by
      rw [h₁.holders, h₁.fs]
      exact h.fs
    refine wp.bind (fileclose_spec hF hH) fun _ k₂ h₂ => ?_
    refine h.balanced_of h₂.fs ?_ ?_
    · rw [descriptors, h₂.ptable]
      exact h₂.files
    · rw [h₂.ptable]
      exact h₁.dead h.dead hc.live

/-! ### `open` -/

variable {k₁ : Kernel} {ip : Nat}

theorem openFile_balanced (h : Idle k) (hc : Caller k) (hd : During k (holders k) (ip ::ₘ 0) (ip ::ₘ 0) 1 k₁)
    (omode : BitVec 32) : wp (openFile sb ip omode) (fun _ => Balanced k) AnyFault k₁ := by
  have hF : FilesOk (descriptors k) k₁.ftable := hd.1.filesOk h.files
  refine wp.bind (filealloc_spec hF) fun r k₂ h₂ => ?_
  cases r with
  | none =>
    rw [show k₂ = k₁ from h₂]
    refine wp.bind (hd.fs holds_iunlockput) fun _ k₃ h₃ => ?_
    exact wp.bind (quiet_onFs h₃.1 (holds_endOp h₃.2)) fun _ k₄ h₄ => During.balanced h h₄
  | some f =>
    obtain ⟨hlt, x, h₂, href, htype, hF₂, hh₂⟩ := h₂
    have hH₂ : Holds k.fs (holders k) (ip ::ₘ 0) (ip ::ₘ 0) 1 k₂.fs := h₂.fs ▸ hd.2
    have hdesc₂ : descriptors k₂ = descriptors k := by rw [descriptors, h₂.ptable]; exact hd.1.descriptors
    have hdead₂ : Dead k₂.ptable := by rw [h₂.ptable]; exact hd.1.dead h.dead
    refine wp.bind (fdalloc_spec f) fun r k₃ h₃ => ?_
    cases r with
    | none =>
      rw [show k₃ = k₂ from h₃]
      have hH : Holds k.fs (holders k₂) (ip ::ₘ 0) (ip ::ₘ 0) 1 k₂.fs := by
        rw [hh₂, hd.1.holders]
        exact hH₂
      refine wp.bind (fileclose_spec hF₂ hH) fun _ k₄ h₄ => ?_
      refine wp.bind (quiet_onFs (Std.Refl.refl k₄) (holds_iunlockput h₄.fs)) fun _ k₅ h₅ => ?_
      refine wp.bind (quiet_onFs h₅.1 (holds_endOp h₅.2)) fun _ k₆ h₆ => ?_
      refine h.balanced_of ?_ ?_ (h₆.1.dead (h₄.ptable ▸ hdead₂))
      · rw [h₆.1.holders]
        exact h₆.2
      · have hdesc₄ : descriptors k₄ = descriptors k := (congrArg descriptorsIn h₄.ptable).trans hdesc₂
        rw [h₆.1.descriptors, hdesc₄]
        exact h₆.1.filesOk h₄.files
    | some fd =>
      obtain ⟨hfd, hno, h₃⟩ := h₃
      have hcur : k₂.cur = k.cur := h₂.cur.trans hd.1.cur
      have hlive : (k₂.ptable k₂.cur).Live := by
        rw [h₂.ptable, hcur, Proc.Live, (hd.1.procs k.cur).1]
        exact hc.live
      refine wp.bind (quiet_onFs (Std.Refl.refl k₃) (holds_iunlock (h₃.fs ▸ hH₂))) fun _ k₄ h₄ => ?_
      refine wp.bind (quiet_onFs h₄.1 (holds_endOp h₄.2)) fun _ k₅ h₅ => ?_
      refine wp.bind setFile_spec fun _ k₆ h₆ => ?_
      have hslot : k₃.ftable f = x := by rw [h₃.ftable, h₂.ftable, update_self]
      have hold : ∀ e, ¬ (k₅.ftable f).Denotes e := fun e hden => by
        rw [File.Denotes, (h₅.1.files f).2.1, hslot, htype] at hden
        cases hden.2.1
      have hq : Quiet k₃ k₅ := h₅.1
      have hH : Holds k₅.fs (holders k₆) 0 0 0 k₅.fs := by
        refine h₅.2.rebase fun e => ?_
        have hadd := h₆.holders_add hlt e
        rw [if_neg (hold e), Nat.add_zero, hq.holders, h₃.holders, hh₂, hd.1.holders] at hadd
        have hden : (if e = ip then 1 else 0) = if File.Denotes { k₅.ftable f with
            type := .FD_INODE
            ip := some ip
            off := 0
            readable := decide (omode &&& O_WRONLY = 0)
            writable := decide (omode &&& O_WRONLY ≠ 0 ∨ omode &&& O_RDWR ≠ 0) } e then 1 else 0 := by
          have hpos : 0 < (k₅.ftable f).ref := by
            rw [(hq.files f).1, hslot, href]
            decide
          simp only [File.Denotes, hpos, true_and, Option.some.injEq, eq_comm]
        rw [hadd, ← hden, Multiset.count_cons]
        simp
      refine ⟨⟨?_, ?_, ?_⟩, fun e he _ => ?_⟩
      · rw [h₆.fs]
        exact hH
      · rw [descriptors, h₆.ptable, h₆.ftable]
        have hdesc : descriptors k₅ = plus (descriptors k) f := by
          rw [hq.descriptors, h₃.descriptors_new (hcur ▸ hc.lt) hfd hno, hdesc₂]
        have hF₅ : FilesOk (descriptors k₅) k₅.ftable := by
          rw [hdesc]
          exact hq.filesOk (h₃.ftable ▸ hF₂)
        refine hF₅.update (hF₅.ref f) (fun hz => ?_) hlt fun _ _ => rfl
        rw [show _ = (k₅.ftable f).ref from rfl, (hq.files f).1, hslot, href] at hz
        cases hz
      · rw [h₆.ptable]
        exact hq.dead (h₃.dead hdead₂ hlive)
      · rw [h₆.fs]
        exact h.kept h₅.2 he he

theorem sysOpen_balanced (h : Idle k) (hc : Caller k) : wp (sysOpen sb) (fun _ => Balanced k) AnyFault k := by
  rw [sysOpen]
  refine wp_bind.2 (wp_get.2 ?_)
  dsimp only
  split
  · refine wp.bind (h.during.fs holds_beginOp) fun _ k₁ h₁ => ?_
    refine wp.bind (quiet_onFs h₁.1 (holds_openInode h₁.2 hc.cwdHeld _ _)) fun r k₂ h₂ => ?_
    cases r with
    | none => exact wp.bind (quiet_onFs h₂.1 (holds_endOp h₂.2)) fun _ k₃ h₃ => During.balanced h h₃
    | some ip => exact openFile_balanced h hc h₂ _
  · exact h.balanced

/-! ### `chdir` -/

structure ProcSet (p : Nat) (q : Proc) (k k' : Kernel) : Prop where
  fs : k'.fs = k.fs
  ftable : k'.ftable = k.ftable
  cur : k'.cur = k.cur
  ptable : k'.ptable = update k.ptable p q

theorem setProc_spec {p : Nat} {g : Proc → Proc} : wp (setProc p g) (fun _ => ProcSet p (g (k.ptable p)) k) AnyFault k :=
  ⟨rfl, rfl, rfl, rfl⟩

theorem ProcSet.holders_add {p : Nat} {q : Proc} (h : ProcSet p q k k') (hp : p < NPROC) (e : Nat) :
    holders k' e + (if (k.ptable p).InDir e then 1 else 0) = holders k e + if q.InDir e then 1 else 0 := by
  rw [holders, h.ftable, h.ptable]
  exact holders_setProc hp q e

theorem ProcSet.descriptors_of_eq {p : Nat} {q : Proc} (h : ProcSet p q k k') (ho : q.ofile = (k.ptable p).ofile) :
    descriptors k' = descriptors k := by
  funext f
  rw [descriptors, h.ptable, descriptors_setProc_of_eq ho]

theorem ProcSet.dead {p : Nat} {q : Proc} (h : ProcSet p q k k') (hd : Dead k.ptable)
    (hq : ¬ q.Live → (∀ fd, fd < NOFILE → q.ofile fd = none) ∧ q.cwd = none) : Dead k'.ptable := by
  intro x hx
  rw [h.ptable] at hx ⊢
  rcases eq_or_ne x p with rfl | hne
  · rw [update_self] at hx ⊢
    exact hq hx
  · rw [update_of_ne hne] at hx ⊢
    exact hd x hx

theorem Caller.inDir (hc : Caller k) {c : Nat} (hcwd : k.proc.cwd = some c) (e : Nat) :
    (if k.proc.InDir e then 1 else 0) = if e = c then 1 else 0 := by
  simp only [Proc.InDir, hc.live, hcwd, true_and, Option.some.injEq, eq_comm]

theorem chdir_balanced (sb : Superblock) (h : Idle k) (hc : Caller k) {c : Nat} (hcwd : k.proc.cwd = some c)
    (hd : During k (holders k) (ip ::ₘ 0) 0 1 k₁) :
    wp (do
      onFs (iput sb c)
      endOpK sb
      setProc k.cur fun p => { p with cwd := some ip }) (fun _ => Balanced k) AnyFault k₁ := by
  obtain ⟨q, hq⟩ : ∃ q : Proc, q = { k.proc with cwd := some ip } := ⟨_, rfl⟩
  have hqlive : q.Live := hq ▸ hc.live
  have hqdir : ∀ e, (if q.InDir e then 1 else 0) = if e = ip then 1 else 0 := fun e => by
    have hqc : q.cwd = some ip := by rw [hq]
    simp only [Proc.InDir, hqlive, hqc, true_and, Option.some.injEq, eq_comm]
  have hnew : ∀ e, holdersIn k.ftable (update k.ptable k.cur q) e + (if e = c then 1 else 0) =
      holders k e + if e = ip then 1 else 0 := fun e => by
    rw [← hc.inDir hcwd e, ← hqdir e]
    exact holders_setProc hc.lt q e
  have hH : Holds k₁.fs (holdersIn k.ftable (update k.ptable k.cur q)) (c ::ₘ 0) 0 1 k₁.fs := by
    refine hd.2.rebase fun e => ?_
    simp only [Multiset.count_cons, Multiset.count_zero, Nat.zero_add]
    exact hnew e
  refine wp.bind (quiet_onFs hd.1 (holds_iput hH)) fun _ k₂ h₂ => ?_
  refine wp.bind (quiet_onFs h₂.1 (holds_endOp h₂.2)) fun _ k₃ h₃ => ?_
  refine wp.post setProc_spec fun _ k₄ h₄ => ?_
  have hhold : holders k₄ = holdersIn k.ftable (update k.ptable k.cur q) := by
    funext e
    have hadd := h₄.holders_add hc.lt e
    have hold : ((k₃.ptable k.cur).InDir e) ↔ k.proc.InDir e := by
      obtain ⟨h1, -, h3⟩ := h₃.1.procs k.cur
      simp only [Proc.InDir, Proc.Live, h1, h3]
      rfl
    have hlive : Proc.Live { k₃.ptable k.cur with cwd := some ip } := by
      rw [Proc.Live, (h₃.1.procs k.cur).1]
      exact hc.live
    have hdir : (if Proc.InDir { k₃.ptable k.cur with cwd := some ip } e then 1 else 0) = if e = ip then 1 else 0 := by
      simp only [Proc.InDir, hlive, true_and, Option.some.injEq, eq_comm]
    simp only [hold, hdir, hc.inDir hcwd e, h₃.1.holders] at hadd
    have := hnew e
    omega
  refine ⟨⟨?_, ?_, ?_⟩, fun e he he' => ?_⟩
  · rw [hhold, h₄.fs]
    exact h₃.2.rebase fun _ => rfl
  · rw [h₄.descriptors_of_eq rfl, h₃.1.descriptors, h₄.ftable]
    exact h₃.1.filesOk h.files
  · refine h₄.dead (h₃.1.dead h.dead) fun hno => absurd ?_ hno
    rw [Proc.Live, (h₃.1.procs k.cur).1]
    exact hc.live
  · rw [h₄.fs]
    rw [hhold] at he'
    have hpos : 0 < (k₁.fs.icache e).ref := by
      rw [hd.2.ref]
      omega
    exact (h.kept hd.2 he he).trans (h₃.2.kept (fun hp => (hd.2.known e hp).2) hpos he')

theorem sysChdir_balanced (h : Idle k) (hc : Caller k) : wp (sysChdir sb) (fun _ => Balanced k) AnyFault k := by
  refine wp.bind (h.during.fs holds_beginOp) fun _ k₁ h₁ => ?_
  refine wp_bind.2 (wp_get.2 ?_)
  dsimp only
  split
  · exact wp.bind (quiet_onFs h₁.1 (holds_endOp h₁.2)) fun _ k₂ h₂ => During.balanced h h₂
  · refine wp.bind (quiet_onFs h₁.1 (holds_namei h₁.2 (h₁.1.cwd ▸ hc.cwdHeld) _)) fun r k₂ h₂ => ?_
    cases r with
    | none => exact wp.bind (quiet_onFs h₂.1 (holds_endOp h₂.2)) fun _ k₃ h₃ => During.balanced h h₃
    | some ip =>
      refine wp.bind (quiet_onFs h₂.1 (holds_ilock h₂.2)) fun _ k₃ h₃ => ?_
      refine wp_bind.2 (wp_get.2 ?_)
      split
      · refine wp.bind (quiet_onFs h₃.1 (holds_iunlockput h₃.2)) fun _ k₄ h₄ => ?_
        exact wp.bind (quiet_onFs h₄.1 (holds_endOp h₄.2)) fun _ k₅ h₅ => During.balanced h h₅
      · refine wp.bind (quiet_onFs h₃.1 (holds_iunlock h₃.2)) fun _ k₄ h₄ => ?_
        refine wp_bind.2 (quiet_deref fun c hcwd => ?_)
        rw [h₁.1.cwd] at hcwd
        rw [h₁.1.cur]
        have hch := chdir_balanced sb h hc hcwd h₄
        refine wp_bind.2 ((wp_bind.1 hch).post fun _ k₅ h₅ => ?_)
        refine wp_bind.2 ((wp_bind.1 h₅).post fun _ k₆ h₆ => ?_)
        exact wp.bind h₆ fun _ k₇ h₇ => h₇

end

end Xv6
