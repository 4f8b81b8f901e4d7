import Xv6.ProcCalls
import Xv6.SmallDisk

/-!
# Reference counts over whole runs

From boot, processes make calls one at a time; in between they compute, which changes their own
memory, and the outside world decides what the console delivers and how much kernel memory there is.
Every call but two keeps the inode reference counts exact. `sys_encr` and `sys_decr` finish with
`iunlockput` and so drop the reference that belongs to the open file.
-/

namespace Xv6

open Prog

inductive SysCall
  | SYS_fork
  | SYS_exit
  | SYS_wait
  | SYS_pipe
  | SYS_read
  | SYS_exec
  | SYS_fstat
  | SYS_chdir
  | SYS_dup
  | SYS_open
  | SYS_write
  | SYS_mknod
  | SYS_unlink
  | SYS_link
  | SYS_mkdir
  | SYS_close
  | SYS_setkey
  | SYS_decr
  | SYS_encr
deriving DecidableEq, Repr

def SysCall.exec (sb : Superblock) : SysCall → KM Int
  | SYS_fork => fork
  | SYS_exit => exit sb
  | SYS_wait => wait
  | SYS_pipe => sysPipe sb
  | SYS_read => sysRead sb
  | SYS_exec => sysExec sb
  | SYS_fstat => sysFstat sb
  | SYS_chdir => sysChdir sb
  | SYS_dup => sysDup
  | SYS_open => sysOpen sb
  | SYS_write => sysWrite sb
  | SYS_mknod => sysMknod sb
  | SYS_unlink => sysUnlink sb
  | SYS_link => sysLink sb
  | SYS_mkdir => sysMkdir sb
  | SYS_close => sysClose sb
  | SYS_setkey => sysSetkey
  | SYS_decr => sysDecr sb
  | SYS_encr => sysEncr sb

structure User where
  proc : Nat
  sz : Nat
  esp : BitVec 32
  mem : Nat → Byte
  kmem : List Bool
  tape : List (Option (List Byte))

def Kernel.user (k : Kernel) (u : User) : Kernel :=
  { k with
    cur := u.proc
    ptable := Function.update k.ptable u.proc { k.ptable u.proc with sz := u.sz, esp := u.esp, mem := u.mem }
    kmem := u.kmem
    fs := { k.fs with dev := { k.fs.dev with tape := u.tape } } }

/-- The kernel when `userinit` is done and the log has been recovered: process 0 in the root directory. -/
def Kernel.start (v : Dev) : Kernel where
  fs := {
    dev := v
    icache := fun e => if e = 0 then ⟨ROOTDEV, ROOTINO, 1, false, false, .fresh 0⟩ else ⟨0, 0, 0, false, false, .fresh 0⟩
    freed := [] }
  ftable _ := ⟨.FD_NONE, 0, false, false, 0, none, 0⟩
  ptable p := ⟨if p = 0 then .RUNNABLE else .UNUSED, if p = 0 then 1 else 0, none, false, fun _ => none,
    if p = 0 then some 0 else none, PGSIZE, BitVec.ofNat 32 PGSIZE, fun _ => 0⟩
  cur := 0
  nextpid := 2
  pipes _ := ⟨fun _ => 0, 0, 0, false, false, 0⟩
  npipes := 0
  encrKey := -1
  kmem := []

structure SysStep (sb : Superblock) (k : Kernel) (u : User) (call : SysCall) (k' : Kernel) : Prop where
  lt : u.proc < NPROC
  live : (k.ptable u.proc).Live
  ok : ∃ r, (call.exec sb).run (k.user u) = .ok (r, k')

/-- States reached from boot by calls that satisfy `P`, given the state in which they are made. -/
inductive SysRun (sb : Superblock) (P : Kernel → SysCall → Prop) : Kernel → Prop
  | boot {d : Image} {tape : List (Option (List Byte))} {v : Dev} (h : (recoverFromLog sb).run (boot d tape) = .ok ((), v)) :
      SysRun sb P (Kernel.start v)
  | step {k k' : Kernel} {u : User} {call : SysCall} (h : SysRun sb P k) (hP : P (k.user u) call)
      (hs : SysStep sb k u call k') : SysRun sb P k'

/-- `sys_encr` and `sys_decr` return before they touch the file. -/
def CryptRefused (k : Kernel) : SysCall → Prop
  | .SYS_encr => ∀ fd f, k.proc.argfd 0 = some (fd, f) → k.encrKey = -1 ∨ k.major f = 1
  | .SYS_decr => ∀ fd f, k.proc.argfd 0 = some (fd, f) → k.encrKey = -1 ∨ k.major f = 0
  | _ => True

def RefsExact (k : Kernel) : Prop :=
  (∀ e, (k.fs.icache e).ref = holders k e) ∧ (∀ e, (k.fs.icache e).locked = false) ∧ k.fs.dev.log.outstanding = 0

/-- A descriptor or a current directory denotes the entry `e`. -/
def Denoted (k : Kernel) (e : Nat) : Prop :=
  (∃ p fd f, p < NPROC ∧ fd < NOFILE ∧ (k.ptable p).ofile fd = some f ∧ (k.ftable f).type = .FD_INODE ∧
    (k.ftable f).ip = some e) ∨ ∃ p, p < NPROC ∧ (k.ptable p).InDir e

section

variable {sb : Superblock} {k k' k₀ : Kernel} {u : User} {call : SysCall} {env : Nat → Nat} {tmp locks : Multiset Nat}
variable {n f ip e : Nat}

theorem Idle.refsExact (h : Idle k) : RefsExact k := by
  refine ⟨fun e => ?_, fun e => ?_, h.fs.out⟩
  · rw [h.fs.ref, Multiset.count_zero, Nat.add_zero]
  · have hl := h.fs.lock e
    rw [Multiset.count_zero] at hl
    exact Bool.toNat_eq_zero.1 hl

theorem Idle.holders_pos (h : Idle k) (hd : Denoted k e) : 0 < holders k e := by
  rcases hd with ⟨p, fd, f, hp, hfd, hof, hty, hip⟩ | ⟨p, hp, hdir⟩
  · have hpos : 0 < descriptors k f := Nat.lt_of_lt_of_le (fds_pos hfd hof) (apply_le_total hp (Proc.fds f) k.ptable)
    have href : 0 < (k.ftable f).ref := by
      rw [h.files.ref]
      omega
    exact Nat.lt_of_lt_of_le (tally_pos (h.files.bound f href) ⟨href, hty, hip⟩) (Nat.le_add_right _ _)
  · exact Nat.lt_of_lt_of_le (tally_pos hp hdir) (Nat.le_add_left _ _)

/-! ### Between calls -/

theorem quiet_user : Quiet { k with cur := u.proc } (k.user u) := by
  refine ⟨rfl, fun _ => ⟨rfl, rfl, rfl⟩, fun q => ?_⟩
  rcases eq_or_ne q u.proc with rfl | hne
  · simp [Kernel.user]
  · simp [Kernel.user, Function.update_of_ne hne]

theorem Idle.user (h : Idle k) : Idle (k.user u) := by
  have hcur : Idle { k with cur := u.proc } := ⟨h.fs, h.files, h.dead⟩
  refine (quiet_user.idle hcur ?_).1
  exact h.fs.congr (fun _ => rfl) (fun _ => rfl) (fun _ => rfl) (fun _ => rfl) rfl rfl rfl

theorem SysStep.caller (h : SysStep sb k u call k') : Caller (k.user u) := by
  refine ⟨h.lt, ?_⟩
  simp only [Kernel.proc, Kernel.user, Function.update_self]
  exact h.live

/-! ### `sys_encr` and `sys_decr` -/

theorem during_cryptChunk (h : During k₀ env tmp (ip ::ₘ locks) n k) (g : BitVec 32 → Byte → Byte) (f : Nat) :
    wp (cryptChunk sb g f ip) (fun _ => During k₀ env tmp (ip ::ₘ locks) n) AnyFault k := by
  rw [cryptChunk]
  refine wp_bind.2 (wp_get.2 ?_)
  dsimp only
  refine wp.bind (h.fs fun hH => holds_readi hH _ _) fun ⟨m, buf⟩ k₁ h₁ => ?_
  split
  · refine wp.bind (quiet_onFs h₁.1 (holds_writei h₁.2 _ _ _)) fun _ k₂ h₂ => ?_
    refine wp.bind (quiet_advance h₂.1 _) fun _ k₃ h₃ => ?_
    exact During.of_fs_eq h₂ h₃.1 h₃.2
  · exact h₁

theorem during_cryptBatch (g : BitVec 32 → Byte → Byte) (f : Nat) : ∀ (count : Nat) {k : Kernel},
    During k₀ env tmp (ip ::ₘ locks) n k →
      wp (cryptBatch sb g f ip count) (fun _ => During k₀ env tmp (ip ::ₘ locks) n) AnyFault k
  | 0, _, h => h
  | count + 1, _, h => by
    refine wp.bind (during_cryptChunk h g f) fun more k₁ h₁ => ?_
    split
    · exact during_cryptBatch g f count h₁
    · exact h₁

theorem during_cryptLoop (flag : BitVec 16) (g : BitVec 32 → Byte → Byte) (f : Nat) : ∀ (fuel : Nat) {k : Kernel},
    During k₀ env (ip ::ₘ tmp) locks n k →
      wp (cryptLoop sb flag g f ip fuel) (fun _ => During k₀ env tmp locks n) AnyFault k
  | 0, _, _ => trivial
  | fuel + 1, _, h => by
    refine wp.bind (h.fs holds_beginOp) fun _ k₁ h₁ => ?_
    refine wp.bind (quiet_onFs h₁.1 (holds_ilock h₁.2)) fun _ k₂ h₂ => ?_
    refine wp.bind (during_cryptBatch g f 10 h₂) fun more k₃ h₃ => ?_
    split
    · refine wp.bind (h₃.fs holds_iunlock) fun _ k₄ h₄ => ?_
      refine wp.bind (quiet_onFs h₄.1 (holds_endOp h₄.2)) fun _ k₅ h₅ => ?_
      exact during_cryptLoop flag g f fuel h₅
    · refine wp.bind (h₃.fs fun hH => holds_setFields hH _) fun _ k₄ h₄ => ?_
      refine wp.bind (quiet_onFs h₄.1 (holds_iunlockput h₄.2)) fun _ k₅ h₅ => ?_
      exact quiet_onFs h₅.1 (holds_endOp h₅.2)

theorem cryptFile_drops (h : Idle k) (flag : BitVec 16) (g : BitVec 32 → Byte → Byte) {fd : Nat}
    (ha : k.proc.argfd 0 = some (fd, f)) (hkey : k.encrKey ≠ -1) (hmaj : k.major f ≠ flag) :
    wp (cryptFile sb flag g) (fun _ k' => ∃ ip, (k'.fs.icache ip).ref + 1 = holders k' ip) AnyFault k := by
  have hcode : ¬ (k.ftable f).type.code = T_DEV.toNat := by
    cases (k.ftable f).type <;> decide
  rw [cryptFile]
  refine wp_bind.2 (wp_get.2 ?_)
  simp only [ha, hkey, hcode, hmaj, if_false]
  refine wp_bind.2 (quiet_deref fun ip _ => ?_)
  by_cases hz : holders k ip = 0
  · -- nobody refers to the inode that a pipe's slot still points to: `ilock` panics
    rw [show 2 ^ 32 + k.fs.dev.tape.length = (2 ^ 32 - 1 + k.fs.dev.tape.length) + 1 by omega, cryptLoop]
    refine wp_bind.2 (wp.bind (h.during.fs holds_beginOp) fun _ k₁ h₁ => ?_)
    have href : (k₁.fs.icache ip).ref < 1 := by
      rw [h₁.2.ref, hz]
      simp
    refine wp_bind.2 (wp_onFs.2 ?_)
    simp only [ilock, wp_bind, wp_get, wp_failIf]
    exact ⟨fun _ => trivial, fun hno => absurd href hno⟩
  · obtain ⟨env, henv⟩ : ∃ env : Nat → Nat, ∀ e, env e + (ip ::ₘ (0 : Multiset Nat)).count e = holders k e := by
      refine ⟨fun e => holders k e - if e = ip then 1 else 0, fun e => ?_⟩
      simp only [Multiset.count_cons, Multiset.count_zero]
      split
      · next he =>
        subst he
        omega
      · omega
    have hstart : During k env (ip ::ₘ 0) 0 0 k := ⟨Std.Refl.refl k, h.fs.rebase fun e => by rw [henv]; simp⟩
    refine wp.bind (during_cryptLoop flag g f _ hstart) fun _ k₁ h₁ => ⟨ip, ?_⟩
    have hr := h₁.2.ref ip
    have he := henv ip
    rw [Multiset.count_cons_self] at he
    rw [h₁.1.holders, hr]
    simp only [Multiset.count_zero] at he ⊢
    omega

theorem cryptFile_refused (h : Idle k) (flag : BitVec 16) (g : BitVec 32 → Byte → Byte)
    (hr : ∀ fd f, k.proc.argfd 0 = some (fd, f) → k.encrKey = -1 ∨ k.major f = flag) :
    wp (cryptFile sb flag g) (fun _ => Balanced k) AnyFault k := by
  rw [cryptFile]
  refine wp_bind.2 (wp_get.2 ?_)
  rcases ha : k.proc.argfd 0 with _ | ⟨fd, f⟩
  · exact h.balanced
  · dsimp only
    split
    · exact h.balanced
    · next hkey =>
      split
      · exact h.balanced
      · rw [if_pos ((hr fd f ha).resolve_left hkey)]
        exact h.balanced

theorem cryptFile_exact_iff (h : Idle k) (flag : BitVec 16) (g : BitVec 32 → Byte → Byte) :
    wp (cryptFile sb flag g) (fun _ k' =>
      RefsExact k' ↔ ∀ fd f, k.proc.argfd 0 = some (fd, f) → k.encrKey = -1 ∨ k.major f = flag) AnyFault k := by
  by_cases hr : ∀ fd f, k.proc.argfd 0 = some (fd, f) → k.encrKey = -1 ∨ k.major f = flag
  · exact (cryptFile_refused h flag g hr).post fun _ _ hb => iff_of_true hb.1.refsExact hr
  · have hno := hr
    push Not at hno
    obtain ⟨fd, f, ha, hkey, hmaj⟩ := hno
    refine (cryptFile_drops h flag g ha hkey hmaj).post fun _ k' ⟨ip, hip⟩ => iff_of_false (fun hex => ?_) hr
    have := hex.1 ip
    omega

/-! ### Every call -/

theorem setkey_balanced (h : Idle k) : wp sysSetkey (fun _ => Balanced k) AnyFault k := by
  rw [sysSetkey]
  refine wp_bind.2 (wp_get.2 ?_)
  split
  · exact h.balanced
  · exact ⟨⟨h.fs, h.files, h.dead⟩, fun e _ _ => Kept.refl _ e⟩

theorem SysCall.exec_balanced (h : Idle k) (hc : Caller k) (hP : CryptRefused k call) :
    wp (call.exec sb) (fun _ => Balanced k) AnyFault k := by
  have hcwd := hc.cwdHeld
  cases call with
  | SYS_fork => exact fork_balanced h hc
  | SYS_exit => exact exit_balanced h hc
  | SYS_wait => exact wait_balanced h
  | SYS_pipe => exact sysPipe_balanced h hc
  | SYS_read => exact wp.post (during_sysRead h.during) fun _ _ => During.balanced h
  | SYS_exec => exact wp.post (during_sysExec h.during hcwd) fun _ _ => During.balanced h
  | SYS_fstat => exact wp.post (during_sysFstat h.during) fun _ _ => During.balanced h
  | SYS_chdir => exact sysChdir_balanced h hc
  | SYS_dup => exact sysDup_balanced h hc
  | SYS_open => exact sysOpen_balanced h hc
  | SYS_write => exact wp.post (during_sysWrite h.during) fun _ _ => During.balanced h
  | SYS_mknod => exact wp_bind.2 (wp_get.2 (wp.post (during_mkInode h.during hcwd _) fun _ _ => During.balanced h))
  | SYS_unlink => exact wp.post (during_sysUnlink h.during hcwd) fun _ _ => During.balanced h
  | SYS_link => exact wp.post (during_sysLink h.during hcwd) fun _ _ => During.balanced h
  | SYS_mkdir => exact wp_bind.2 (wp_get.2 (wp.post (during_mkInode h.during hcwd _) fun _ _ => During.balanced h))
  | SYS_close => exact sysClose_balanced h hc
  | SYS_setkey => exact setkey_balanced h
  | SYS_decr => exact cryptFile_refused h _ _ hP
  | SYS_encr => exact cryptFile_refused h _ _ hP

theorem SysCall.exec_exact_iff (h : Idle k) (hc : Caller k) :
    wp (call.exec sb) (fun _ k' => RefsExact k' ↔ CryptRefused k call) AnyFault k := by
  by_cases hP : CryptRefused k call
  · exact (SysCall.exec_balanced h hc hP).post fun _ _ hb => iff_of_true hb.1.refsExact hP
  · cases call with
    | SYS_encr => exact cryptFile_exact_iff h _ _
    | SYS_decr => exact cryptFile_exact_iff h _ _
    | _ => exact absurd trivial hP

theorem SysStep.idle (h : Idle k) (hP : CryptRefused (k.user u) call) (hs : SysStep sb k u call k') :
    Idle k' ∧ Keeping k k' := by
  obtain ⟨r, hr⟩ := hs.ok
  have hb : Balanced (k.user u) k' := wp.of_ok (SysCall.exec_balanced h.user hs.caller hP) hr
  refine ⟨hb.1, fun e he he' => hb.2 e ?_ he'⟩
  rw [quiet_user.holders]
  exact he

/-! ### From boot -/

theorem keeps_recoverFromLog : Keeps SameBrackets (recoverFromLog sb) :=
  .bind (.bind (keeps_bread_brackets _) fun _ _ => ⟨rfl, rfl⟩) fun _ => .bind keeps_installTrans fun _ =>
    .bind keeps_clearHead fun _ => keeps_writeHead

theorem start_denotes (v : Dev) (f e : Nat) : ¬ ((Kernel.start v).ftable f).Denotes e := by
  rintro ⟨hpos, -⟩
  exact absurd hpos (lt_irrefl 0)

theorem start_live (v : Dev) (p : Nat) : ((Kernel.start v).ptable p).Live ↔ p = 0 := by
  by_cases hp : p = 0 <;> simp [Kernel.start, Proc.Live, hp]

theorem start_inDir (v : Dev) (p e : Nat) : ((Kernel.start v).ptable p).InDir e ↔ p = 0 ∧ e = 0 := by
  rw [Proc.InDir, start_live]
  refine and_congr_right fun hp => ?_
  simp [Kernel.start, hp, eq_comm]

theorem holders_start (v : Dev) (e : Nat) : holders (Kernel.start v) e = if e = 0 then 1 else 0 := by
  have hp := tally_eq_single (p := fun q : Proc => q.InDir e) (show 0 < NPROC by decide)
    (g := (Kernel.start v).ptable) fun p hp h => hp ((start_inDir v p e).1 h).1
  rw [holders, holdersIn, tally_eq_zero fun f => start_denotes v f e, hp, Nat.zero_add]
  simp only [start_inDir, true_and]

theorem idle_start {d : Image} {tape : List (Option (List Byte))} {v : Dev}
    (h : (recoverFromLog sb).run (boot d tape) = .ok ((), v)) : Idle (Kernel.start v) := by
  have hb : SameBrackets (boot d tape) v := wp.of_ok (keeps_recoverFromLog (boot d tape)) h
  have href : ∀ e, ((Kernel.start v).fs.icache e).ref = if e = 0 then 1 else 0 := fun e => by
    by_cases he : e = 0 <;> simp [Kernel.start, he]
  have hroot : ∀ e, 0 < ((Kernel.start v).fs.icache e).ref → e = 0 := fun e he => by
    by_contra hne
    simp [href, hne] at he
  refine ⟨⟨fun e => ?_, fun e => ?_, hb.1, hb.2, fun e he => ?_, fun e e' he he' _ => ?_, fun _ _ => rfl, [], rfl,
    fun _ _ => by simp⟩, ⟨fun f => ?_, fun _ _ => rfl, fun f hf => absurd hf (lt_irrefl 0)⟩, fun p hp => ⟨fun _ _ => rfl, ?_⟩⟩
  · rw [href, holders_start]
    split <;> simp
  · by_cases he : e = 0 <;> simp [Kernel.start, he]
  · rw [hroot e he]
    exact ⟨by decide, rfl⟩
  · rw [hroot e he, hroot e' he']
  · have hz : descriptors (Kernel.start v) f = 0 :=
      total_eq_zero fun p => tally_eq_zero fun fd => by simp [Kernel.start]
    rw [hz]
    rfl
  · rw [start_live] at hp
    exact if_neg hp

theorem SysRun.idle (h : SysRun sb CryptRefused k) : Idle k := by
  induction h with
  | boot h => exact idle_start h
  | step _ hP hs ih => exact (hs.idle ih hP).1

/-- While `sys_encr` and `sys_decr` are refused, the reference count of every entry of the inode cache is the
number of open files and live current directories on it whenever no call is in progress, no inode is
locked and no transaction is open; a call breaks that exactly if it is one that is not refused. What stays
denoted by a descriptor or a current directory stays the same inode and is not freed. -/
theorem inode_refs_exact (h : SysRun sb CryptRefused k) :
    RefsExact k ∧ ∀ u call k', SysStep sb k u call k' →
      (RefsExact k' ↔ CryptRefused (k.user u) call) ∧
        (CryptRefused (k.user u) call → ∀ e, Denoted k e → Denoted k' e → Kept k.fs k'.fs e) := by
  have hi : Idle k := h.idle
  refine ⟨hi.refsExact, fun u call k' hs => ⟨?_, fun hP e he he' => ?_⟩⟩
  · obtain ⟨r, hr⟩ := hs.ok
    exact wp.of_ok (SysCall.exec_exact_iff hi.user hs.caller) hr
  · obtain ⟨hi', hk⟩ := hs.idle hi hP
    exact hk e (hi.holders_pos he) (hi'.holders_pos he')

end

/-! ### Opening the root directory and encrypting it -/

/-- The entries `.` and `..` of the root directory. -/
def dotEntries : Blk where
  data k := if k = 0 ∨ k = 16 then 1 else if k = 2 ∨ k = 18 ∨ k = 19 then 0x2e else 0
  out k hk := by
    simp only [BSIZE] at hk
    rw [if_neg (by omega), if_neg (by omega)]

/-- The disk of `mkfs` with nothing but the root directory. -/
def emptyRoot : Image :=
  smallDisk 64 (fun i => if i = 1 then { fileDinode 1 512 with type := T_DIR } else .fresh 0)
    fun b => if b = 63 then dotEntries else Block.zero _

/-- Process 0 traps with first argument `arg`, second argument 0 and the string `"/"` at address 16. -/
def trapWith (arg : Nat) : User where
  proc := 0
  sz := 20
  esp := 0
  mem a := if a = 4 then BitVec.ofNat 8 arg else if a = 16 then 0x2f else 0
  kmem := []
  tape := []

def booted : Kernel := .start ((recoverFromLog mkfsSuperblock).final (Xv6.boot emptyRoot []))

/-- `setkey(16)`. -/
def keyed : Kernel := Prog.final (SysCall.SYS_setkey.exec mkfsSuperblock) (booted.user (trapWith 16))

/-- `open("/", O_RDONLY)`. -/
def opened : Kernel := Prog.final (SysCall.SYS_open.exec mkfsSuperblock) (keyed.user (trapWith 16))

/-- `encr(0)`. -/
def encrypted : Kernel := Prog.final (SysCall.SYS_encr.exec mkfsSuperblock) (opened.user (trapWith 0))

theorem sysRun_opened {P : Kernel → SysCall → Prop} (hk : P (booted.user (trapWith 16)) .SYS_setkey)
    (ho : P (keyed.user (trapWith 16)) .SYS_open) : SysRun mkfsSuperblock P opened := by
  have hb := run_eq_final (x := recoverFromLog mkfsSuperblock) (s := Xv6.boot emptyRoot []) (a := ()) (by decide +kernel)
  have h₁ : SysRun mkfsSuperblock P keyed :=
    (SysRun.boot hb).step hk ⟨by decide, by decide, 0, run_eq_final (by decide +kernel)⟩
  exact h₁.step ho ⟨by decide, by decide +kernel, 0, run_eq_final (by decide +kernel)⟩

theorem inode_refs_exact_opened : SysRun mkfsSuperblock CryptRefused opened ∧ RefsExact opened :=
  have h := sysRun_opened (P := CryptRefused) trivial trivial
  ⟨h, (inode_refs_exact h).1⟩

/-- After `setkey(16); open("/"); encr(0)` the root directory's entry has one reference, but the open file and
the process's current directory are both on it. -/
theorem encr_drops_reference :
    SysRun mkfsSuperblock (fun _ _ => True) encrypted ∧ (encrypted.fs.icache 0).ref = 1 ∧ holders encrypted 0 = 2 :=
  ⟨(sysRun_opened trivial trivial).step trivial ⟨by decide, by decide +kernel, 0, run_eq_final (by decide +kernel)⟩,
    by decide +kernel, by decide +kernel⟩

end Xv6
