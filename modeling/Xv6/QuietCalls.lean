import Xv6.Holders

/-!
# Calls that leave the tables alone

`read`, `write`, `fstat`, `link`, `unlink`, `mkdir`, `mknod` and `exec` change file offsets, user
memory and the file system, but open or close nothing and leave every current directory as it is
(`Quiet`). What they do to the inode cache follows from the file system's own part.
-/

namespace Xv6

open Prog

structure Quiet (k k' : Kernel) : Prop where
  cur : k'.cur = k.cur
  files : ∀ f, (k'.ftable f).ref = (k.ftable f).ref ∧ (k'.ftable f).type = (k.ftable f).type ∧
    (k'.ftable f).ip = (k.ftable f).ip
  procs : ∀ p, (k'.ptable p).state = (k.ptable p).state ∧ (k'.ptable p).ofile = (k.ptable p).ofile ∧
    (k'.ptable p).cwd = (k.ptable p).cwd

theorem Quiet.of_eq {k k' : Kernel} (hc : k'.cur = k.cur) (hf : k'.ftable = k.ftable) (hp : k'.ptable = k.ptable) :
    Quiet k k' :=
  ⟨hc, fun f => by simp [hf], fun p => by simp [hp]⟩

instance : Std.Refl Quiet := ⟨fun _ => .of_eq rfl rfl rfl⟩

instance : IsTrans Kernel Quiet := ⟨fun a b c h h' => by
  refine ⟨h'.cur.trans h.cur, fun f => ?_, fun p => ?_⟩
  · obtain ⟨h1, h2, h3⟩ := h.files f
    obtain ⟨h1', h2', h3'⟩ := h'.files f
    exact ⟨h1'.trans h1, h2'.trans h2, h3'.trans h3⟩
  · obtain ⟨h1, h2, h3⟩ := h.procs p
    obtain ⟨h1', h2', h3'⟩ := h'.procs p
    exact ⟨h1'.trans h1, h2'.trans h2, h3'.trans h3⟩⟩

section

variable {sb : Superblock} {s₀ : Fs} {env : Nat → Nat} {tmp locks : Multiset Nat} {n f ip : Nat} {k₀ k k' : Kernel}

theorem Quiet.holders (h : Quiet k k') : holders k' = holders k := by
  funext e
  have hf : ∀ f, (k'.ftable f).Denotes e ↔ (k.ftable f).Denotes e := fun f => by
    obtain ⟨h1, h2, h3⟩ := h.files f
    simp only [File.Denotes, h1, h2, h3]
  have hp : ∀ p, (k'.ptable p).InDir e ↔ (k.ptable p).InDir e := fun p => by
    obtain ⟨h1, -, h3⟩ := h.procs p
    simp only [Proc.InDir, Proc.Live, h1, h3]
  exact congrArg₂ (· + ·) (tally_congr hf) (tally_congr hp)

theorem Quiet.descriptors (h : Quiet k k') : descriptors k' = descriptors k := by
  funext f
  exact total_congr fun p => by rw [Proc.fds, (h.procs p).2.1, Proc.fds]

theorem Quiet.dead (h : Quiet k k') (hd : Dead k.ptable) : Dead k'.ptable := by
  intro p hp
  obtain ⟨h1, h2, h3⟩ := h.procs p
  rw [h2, h3]
  exact hd p (by simpa only [Proc.Live, h1] using hp)

theorem Quiet.filesOk {fds : Nat → Nat} (h : Quiet k k') (hF : FilesOk fds k.ftable) : FilesOk fds k'.ftable :=
  hF.congr (fun f => (h.files f).1) fun f => (h.files f).2.1

theorem Quiet.idle (h : Quiet k k') (hi : Idle k) (hs : Holds k.fs (Xv6.holders k) 0 0 0 k'.fs) :
    Idle k' ∧ Keeping k k' := by
  refine ⟨⟨?_, ?_, h.dead hi.dead⟩, fun e he _ => hi.kept hs he he⟩
  · rw [h.holders]
    exact hs.rebase fun _ => rfl
  · rw [h.descriptors]
    exact h.filesOk hi.files

/-! ### Steps -/

theorem quiet_onFs {α : Type} {x : FsM α} {Q : α → Fs → Prop} (hq : Quiet k₀ k) (hx : wp x Q AnyFault k.fs) :
    wp (onFs x) (fun a k' => Quiet k₀ k' ∧ Q a k'.fs) AnyFault k :=
  wp_onFs.2 (hx.post fun _ _ h => ⟨IsTrans.trans _ _ _ hq (.of_eq rfl rfl rfl), h⟩)

theorem quiet_setProc {p : Nat} {g : Proc → Proc} (hq : Quiet k₀ k)
    (hg : ∀ x, (g x).state = x.state ∧ (g x).ofile = x.ofile ∧ (g x).cwd = x.cwd) :
    wp (setProc p g) (fun _ k' => Quiet k₀ k' ∧ k'.fs = k.fs ∧ k'.ftable = k.ftable) AnyFault k := by
  refine ⟨IsTrans.trans _ _ _ hq ⟨rfl, fun _ => ⟨rfl, rfl, rfl⟩, fun q => ?_⟩, rfl, rfl⟩
  rcases eq_or_ne q p with rfl | hne
  · simpa using hg (k.ptable q)
  · simp [Function.update_of_ne hne]

theorem quiet_putUser (hq : Quiet k₀ k) (a : Nat) (bs : List Byte) :
    wp (putUser a bs) (fun _ k' => Quiet k₀ k' ∧ k'.fs = k.fs ∧ k'.ftable = k.ftable) AnyFault k :=
  wp_bind.2 (wp_get.2 (quiet_setProc hq fun _ => ⟨rfl, rfl, rfl⟩))

theorem quiet_mapUser (hq : Quiet k₀ k) (g : Byte → Byte) (a m : Nat) :
    wp (mapUser g a m) (fun _ k' => Quiet k₀ k' ∧ k'.fs = k.fs ∧ k'.ftable = k.ftable) AnyFault k :=
  wp_bind.2 (wp_get.2 (quiet_setProc hq fun _ => ⟨rfl, rfl, rfl⟩))

theorem quiet_advance (hq : Quiet k₀ k) (r : Int) :
    wp (advance f r) (fun _ k' => Quiet k₀ k' ∧ k'.fs = k.fs) AnyFault k := by
  rw [advance]
  split
  · refine ⟨IsTrans.trans _ _ _ hq ⟨rfl, fun g => ?_, fun _ => ⟨rfl, rfl, rfl⟩⟩, rfl⟩
    rcases eq_or_ne g f with rfl | hne
    · simp
    · simp [Function.update_of_ne hne]
  · exact ⟨hq, rfl⟩

theorem quiet_setPipe (hq : Quiet k₀ k) (p : Nat) (g : Pipe → Pipe) :
    wp (setPipe p g) (fun _ k' => Quiet k₀ k' ∧ k'.fs = k.fs) AnyFault k :=
  ⟨IsTrans.trans _ _ _ hq (.of_eq rfl rfl rfl), rfl⟩

theorem quiet_kalloc (hq : Quiet k₀ k) : wp kalloc (fun _ k' => Quiet k₀ k' ∧ k'.fs = k.fs) AnyFault k := by
  rw [kalloc]
  refine wp_bind.2 (wp_get.2 ?_)
  split
  · exact ⟨hq, rfl⟩
  · exact ⟨IsTrans.trans _ _ _ hq (.of_eq rfl rfl rfl), rfl⟩

theorem quiet_deref {o : Option Nat} {Q : Nat → Kernel → Prop} (h : ∀ ip, o = some ip → Q ip k) :
    wp (deref o) Q AnyFault k := by
  cases o with
  | none => trivial
  | some ip => exact h ip rfl

/-! ### `read`, `write`, `fstat` -/

def During (k₀ : Kernel) (env : Nat → Nat) (tmp locks : Multiset Nat) (n : Nat) (k : Kernel) : Prop :=
  Quiet k₀ k ∧ Holds k₀.fs env tmp locks n k.fs

theorem During.fs {α : Type} {x : FsM α} {Q : α → Fs → Prop} (h : During k₀ env tmp locks n k)
    (hx : Holds k₀.fs env tmp locks n k.fs → wp x Q AnyFault k.fs) :
    wp (onFs x) (fun a k' => Quiet k₀ k' ∧ Q a k'.fs) AnyFault k :=
  quiet_onFs h.1 (hx h.2)

theorem During.of_fs_eq (h : During k₀ env tmp locks n k) (hq : Quiet k₀ k') (he : k'.fs = k.fs) :
    During k₀ env tmp locks n k' :=
  ⟨hq, he ▸ h.2⟩

theorem during_filestat (h : During k₀ env tmp locks n k) :
    wp (filestat sb f) (fun _ => During k₀ env tmp locks n) AnyFault k := by
  rw [filestat]
  refine wp_bind.2 (wp_get.2 ?_)
  dsimp only
  split
  · refine wp_bind.2 (quiet_deref fun ip _ => ?_)
    refine wp.bind (h.fs holds_ilock) fun _ k₁ h₁ => ?_
    refine wp_bind.2 (wp_get.2 ?_)
    exact wp.bind (quiet_onFs h₁.1 (holds_iunlock h₁.2)) fun _ _ h₂ => h₂
  · exact h

theorem during_piperead (h : During k₀ env tmp locks n k) (p a m : Nat) :
    wp (piperead p a m) (fun _ => During k₀ env tmp locks n) AnyFault k := by
  rw [piperead]
  refine wp_bind.2 (wp_get.2 ?_)
  dsimp only
  split
  · simp only [wp_bind, wp_failIf, wp_pure]
    exact ⟨fun _ => trivial, fun _ => h⟩
  · refine wp.bind (quiet_setPipe h.1 _ _) fun _ k₁ h₁ => ?_
    refine wp.bind (quiet_putUser h₁.1 _ _) fun _ k₂ h₂ => ?_
    exact h.of_fs_eq h₂.1 (h₂.2.1.trans h₁.2)

theorem during_pipewrite (h : During k₀ env tmp locks n k) (p a m : Nat) :
    wp (pipewrite p a m) (fun _ => During k₀ env tmp locks n) AnyFault k := by
  refine wp.bind (wp_findRange (fun _ => During k₀ env tmp locks n) (fun _ => During k₀ env tmp locks n) h ?_) ?_
  · intro i t _ _ ht
    refine wp_bind.2 (wp_get.2 ?_)
    split
    · simp only [wp_bind, wp_failIf, wp_pure]
      exact ⟨fun _ => trivial, fun _ => ht⟩
    · exact wp.bind (quiet_setPipe ht.1 _ _) fun _ t₁ h₁ => ht.of_fs_eq h₁.1 h₁.2
  · intro r t ht
    cases r <;> exact ht

theorem during_fileread (h : During k₀ env tmp locks n k) (a m : Nat) :
    wp (fileread sb f a m) (fun _ => During k₀ env tmp locks n) AnyFault k := by
  rw [fileread]
  refine wp_bind.2 (wp_get.2 ?_)
  dsimp only
  split
  · exact h
  split
  · exact during_piperead h _ _ _
  · refine wp_bind.2 (quiet_deref fun ip _ => ?_)
    refine wp.bind (h.fs holds_ilock) fun _ k₁ h₁ => ?_
    refine wp.bind (quiet_onFs h₁.1 (holds_readi h₁.2 _ _)) fun ⟨r, bs⟩ k₂ h₂ => ?_
    refine wp.bind (quiet_putUser h₂.1 _ _) fun _ k₃ h₃ => ?_
    refine wp.bind (quiet_advance h₃.1 _) fun _ k₄ h₄ => ?_
    have hH : Holds k₀.fs env tmp (ip ::ₘ locks) n k₄.fs := by
      rw [h₄.2, h₃.2.1]
      exact h₂.2
    exact wp.bind (quiet_onFs h₄.1 (holds_iunlock hH)) fun _ _ h₅ => h₅
  · trivial

theorem during_filewriteChunk (h : During k₀ env tmp locks n k) (ip a m : Nat) :
    wp (filewriteChunk sb f ip a m) (fun _ => During k₀ env tmp locks n) AnyFault k := by
  refine wp.bind (h.fs holds_beginOp) fun _ k₁ h₁ => ?_
  refine wp.bind (quiet_onFs h₁.1 (holds_ilock h₁.2)) fun _ k₂ h₂ => ?_
  refine wp_bind.2 (wp_get.2 ?_)
  refine wp.bind (quiet_onFs h₂.1 (holds_writei h₂.2 _ _ _)) fun r k₃ h₃ => ?_
  refine wp.bind (quiet_advance h₃.1 r) fun _ k₄ h₄ => ?_
  have hH : Holds k₀.fs env tmp (ip ::ₘ locks) (n + 1) k₄.fs := h₄.2 ▸ h₃.2
  refine wp.bind (quiet_onFs h₄.1 (holds_iunlock hH)) fun _ k₅ h₅ => ?_
  exact wp.bind (quiet_onFs h₅.1 (holds_endOp h₅.2)) fun _ _ h₆ => h₆

theorem during_filewriteLoop (ip a m i : Nat) (h : During k₀ env tmp locks n k) :
    wp (filewriteLoop sb f ip a m i) (fun _ => During k₀ env tmp locks n) AnyFault k := by
  fun_induction filewriteLoop sb f ip a m i generalizing k with
  | case1 i hlt n1 =>
    rename_i ih
    refine wp.bind (during_filewriteChunk h ip _ _) fun r k₁ h₁ => ?_
    split
    · exact h₁
    · simp only [wp_bind, wp_failIf]
      exact ⟨fun _ => trivial, fun _ => ih h₁⟩
  | case2 => exact h

theorem during_filewrite (h : During k₀ env tmp locks n k) (a m : Nat) :
    wp (filewrite sb f a m) (fun _ => During k₀ env tmp locks n) AnyFault k := by
  rw [filewrite]
  refine wp_bind.2 (wp_get.2 ?_)
  dsimp only
  split
  · exact h
  split
  · exact during_pipewrite h _ _ _
  · refine wp_bind.2 (quiet_deref fun ip _ => ?_)
    exact wp.bind (during_filewriteLoop ip a m 0 h) fun _ _ h₁ => h₁
  · trivial

theorem during_cryptUser (h : During k₀ env tmp locks n k) (flag : BitVec 16) (g : BitVec 32 → Byte → Byte) (st : Stat)
    (a : Nat) (r : Int) : wp (cryptUser flag g f st a r) (fun _ => During k₀ env tmp locks n) AnyFault k := by
  rw [cryptUser]
  refine wp_bind.2 (wp_get.2 (wp_bind.2 (quiet_deref fun ip _ => ?_)))
  split
  · exact (quiet_mapUser h.1 _ _ _).post fun _ _ h₁ => h.of_fs_eq h₁.1 h₁.2.1
  · exact h

theorem during_sysRead (h : During k₀ env tmp locks n k) :
    wp (sysRead sb) (fun _ => During k₀ env tmp locks n) AnyFault k := by
  rw [sysRead]
  refine wp_bind.2 (wp_get.2 ?_)
  split
  · exact h
  · refine wp.bind (during_filestat h) fun r k₁ h₁ => ?_
    cases r with
    | none => exact h₁
    | some st =>
      refine wp.bind (during_fileread h₁ _ _) fun m k₂ h₂ => ?_
      exact wp.bind (during_cryptUser h₂ _ _ _ _ _) fun _ _ h₃ => h₃

theorem during_sysWrite (h : During k₀ env tmp locks n k) :
    wp (sysWrite sb) (fun _ => During k₀ env tmp locks n) AnyFault k := by
  rw [sysWrite]
  refine wp_bind.2 (wp_get.2 ?_)
  split
  · exact h
  · refine wp.bind (during_filestat h) fun r k₁ h₁ => ?_
    cases r with
    | none => exact h₁
    | some st =>
      refine wp.bind (during_filewrite h₁ _ _) fun m k₂ h₂ => ?_
      exact wp.bind (during_cryptUser h₂ _ _ _ _ _) fun _ _ h₃ => h₃

theorem during_putStat (h : During k₀ env tmp locks n k) (a : Nat) (st : Stat) :
    wp (putStat a st) (fun _ => During k₀ env tmp locks n) AnyFault k := by
  have hput : ∀ (b : Nat) (bs : List Byte) (t : Kernel), During k₀ env tmp locks n t →
      wp (putUser b bs) (fun _ => During k₀ env tmp locks n) AnyFault t := fun b bs t ht =>
    (quiet_putUser ht.1 b bs).post fun _ _ h₁ => ht.of_fs_eq h₁.1 h₁.2.1
  rw [putStat]
  refine wp.bind (hput _ _ _ h) fun _ k₁ h₁ => wp.bind (hput _ _ _ h₁) fun _ k₂ h₂ => ?_
  exact wp.bind (hput _ _ _ h₂) fun _ k₃ h₃ => wp.bind (hput _ _ _ h₃) fun _ k₄ h₄ => hput _ _ _ h₄

theorem during_sysFstat (h : During k₀ env tmp locks n k) :
    wp (sysFstat sb) (fun _ => During k₀ env tmp locks n) AnyFault k := by
  rw [sysFstat]
  refine wp_bind.2 (wp_get.2 ?_)
  dsimp only
  split
  · refine wp.bind (during_filestat h) fun r k₁ h₁ => ?_
    cases r with
    | none => exact h₁
    | some st => exact wp.bind (during_putStat h₁ _ _) fun _ _ h₂ => h₂
  · exact h

/-! ### Names -/

theorem during_sysLink (h : During k₀ env tmp locks n k) (hc : CwdHeld env k.proc.cwd) :
    wp (sysLink sb) (fun _ => During k₀ env tmp locks n) AnyFault k := by
  rw [sysLink]
  refine wp_bind.2 (wp_get.2 ?_)
  dsimp only
  split
  · exact h.fs fun hH => holds_link hH hc _ _
  · exact h

theorem during_sysUnlink (h : During k₀ env tmp locks n k) (hc : CwdHeld env k.proc.cwd) :
    wp (sysUnlink sb) (fun _ => During k₀ env tmp locks n) AnyFault k := by
  rw [sysUnlink]
  refine wp_bind.2 (wp_get.2 ?_)
  dsimp only
  split
  · exact h.fs fun hH => holds_unlink hH hc _
  · exact h

theorem Quiet.cwd (h : Quiet k k') : k'.proc.cwd = k.proc.cwd := by
  rw [Kernel.proc, h.cur, (h.procs k.cur).2.2]
  rfl

theorem during_mkInode (h : During k₀ env tmp locks n k) (hc : CwdHeld env k₀.proc.cwd)
    (args : Option (List Byte × BitVec 16 × BitVec 16 × BitVec 16)) :
    wp (mkInode sb args) (fun _ => During k₀ env tmp locks n) AnyFault k := by
  refine wp.bind (h.fs holds_beginOp) fun _ k₁ h₁ => ?_
  refine wp_bind.2 (wp_get.2 ?_)
  dsimp only
  split
  · exact wp.bind (quiet_onFs h₁.1 (holds_endOp h₁.2)) fun _ _ h₂ => h₂
  · refine wp.bind (quiet_onFs h₁.1 (holds_create h₁.2 (h₁.1.cwd ▸ hc) _ _ _ _)) fun r k₂ h₂ => ?_
    cases r with
    | none => exact wp.bind (quiet_onFs h₂.1 (holds_endOp h₂.2)) fun _ _ h₃ => h₃
    | some ip =>
      refine wp.bind (quiet_onFs h₂.1 (holds_iunlockput h₂.2)) fun _ k₃ h₃ => ?_
      exact wp.bind (quiet_onFs h₃.1 (holds_endOp h₃.2)) fun _ _ h₄ => h₄

/-! ### `exec` -/

theorem during_kalloc (h : During k₀ env tmp locks n k) : wp kalloc (fun _ => During k₀ env tmp locks n) AnyFault k :=
  (quiet_kalloc h.1).post fun _ _ h₁ => h.of_fs_eq h₁.1 h₁.2

theorem during_allocuvm (h : During k₀ env tmp locks n k) (oldsz newsz : Nat) :
    wp (allocuvm oldsz newsz) (fun _ => During k₀ env tmp locks n) AnyFault k := by
  have hpages : wp (allocPages oldsz newsz) (fun _ => During k₀ env tmp locks n) AnyFault k := by
    unfold allocPages
    split
    · exact h
    · exact during_kalloc h
  unfold allocuvm
  split
  · exact h
  split
  · exact h
  · exact wp.bind hpages fun _ _ h₁ => h₁

theorem holds_loaduvm {s : Fs} (h : Holds s₀ env tmp (ip ::ₘ locks) n s) (vaddr off sz : Nat) (mem : Nat → Byte) :
    wp (loaduvm sb ip vaddr off sz mem) (fun _ => Holds s₀ env tmp (ip ::ₘ locks) n) AnyFault s := by
  refine wp_forRange (fun _ _ => Holds s₀ env tmp (ip ::ₘ locks) n) h ?_
  intro j acc t _ _ ht
  cases acc with
  | none => exact ht
  | some mem => exact wp.bind (holds_readi ht _ _) fun ⟨_, _⟩ _ h₁ => h₁

theorem during_loadSegment (h : During k₀ env tmp (ip ::ₘ locks) n k) (phoff i : Nat) (pr : Option Program) :
    wp (loadSegment sb ip phoff i pr) (fun _ => During k₀ env tmp (ip ::ₘ locks) n) AnyFault k := by
  cases pr with
  | none => exact h
  | some pr =>
    refine wp.bind (h.fs fun hH => holds_readi hH _ _) fun ⟨r, ph⟩ k₁ h₁ => ?_
    dsimp only
    split
    · exact h₁
    split
    · exact h₁
    split
    · exact h₁
    · refine wp.bind (during_allocuvm h₁ _ _) fun r k₂ h₂ => ?_
      cases r with
      | none => exact h₂
      | some sz =>
        dsimp only
        split
        · exact h₂
        · refine wp.bind (h₂.fs fun hH => holds_loaduvm hH _ _ _ _) fun r k₃ h₃ => ?_
          cases r <;> exact h₃

theorem during_execLoad (h : During k₀ env tmp (ip ::ₘ locks) n k) :
    wp (execLoad sb ip) (fun _ => During k₀ env tmp (ip ::ₘ locks) n) AnyFault k := by
  refine wp.bind (h.fs fun hH => holds_readi hH _ _) fun ⟨r, elf⟩ k₁ h₁ => ?_
  dsimp only
  split
  · exact h₁
  · refine wp.bind (during_kalloc h₁) fun ok k₂ h₂ => ?_
    split
    · exact h₂
    · exact wp_forRange (fun _ _ => During k₀ env tmp (ip ::ₘ locks) n) h₂ fun i pr t _ _ ht => during_loadSegment ht _ i pr

theorem during_exec (h : During k₀ env tmp locks n k) (hc : CwdHeld env k₀.proc.cwd) (path : List Byte)
    (argv : List (List Byte)) : wp (exec sb path argv) (fun _ => During k₀ env tmp locks n) AnyFault k := by
  refine wp.bind (h.fs holds_beginOp) fun _ k₁ h₁ => ?_
  refine wp_bind.2 (wp_get.2 ?_)
  refine wp.bind (quiet_onFs h₁.1 (holds_namei h₁.2 (h₁.1.cwd ▸ hc) path)) fun r k₂ h₂ => ?_
  cases r with
  | none => exact wp.bind (quiet_onFs h₂.1 (holds_endOp h₂.2)) fun _ _ h₃ => h₃
  | some ip =>
    refine wp.bind (quiet_onFs h₂.1 (holds_ilock h₂.2)) fun _ k₃ h₃ => ?_
    refine wp.bind (during_execLoad h₃) fun r k₄ h₄ => ?_
    cases r with
    | none =>
      refine wp.bind (h₄.fs holds_iunlockput) fun _ k₅ h₅ => ?_
      exact wp.bind (quiet_onFs h₅.1 (holds_endOp h₅.2)) fun _ _ h₆ => h₆
    | some pr =>
      refine wp.bind (h₄.fs holds_iunlockput) fun _ k₅ h₅ => ?_
      refine wp.bind (quiet_onFs h₅.1 (holds_endOp h₅.2)) fun _ k₆ h₆ => ?_
      generalize pgRoundUp pr.sz + 2 * PGSIZE = newsz
      refine wp.bind (during_allocuvm h₆ _ newsz) fun r k₇ h₇ => ?_
      cases r with
      | none => exact h₇
      | some sz =>
        dsimp only
        split
        · exact h₇
        · exact wp.bind (quiet_setProc h₇.1 fun _ => ⟨rfl, rfl, rfl⟩) fun _ _ h₈ => h₇.of_fs_eq h₈.1 h₈.2.1

theorem during_sysExec (h : During k env tmp locks n k) (hc : CwdHeld env k.proc.cwd) :
    wp (sysExec sb) (fun _ => During k env tmp locks n) AnyFault k := by
  rw [sysExec]
  refine wp_bind.2 (wp_get.2 ?_)
  dsimp only
  split
  · exact during_exec h hc _ _
  · exact h

end

end Xv6
