import Xv6.Owners

/-!
# Runs of inode operations

The system calls are made of the inode operations below, each under the inode's lock where `fs.c` asks
for it, inside or outside transactions. Starting from a consistent disk with an empty inode cache, the
free map is exact in every state reached.
-/

namespace Xv6

open Prog

inductive InodeCall
  | ialloc (type : BitVec 16)
  | iget (inum : Nat)
  | idup (ip : Nat)
  | iput (ip : Nat)
  | readi (ip off n : Nat)
  | writei (ip : Nat) (src : Nat → Byte) (off n : Nat)
  | iupdate (ip : Nat) (major minor nlink : BitVec 16)
  | beginOp
  | endOp

namespace InodeCall

/-- What the callers in `sysfile.c`, `file.c` and `exec.c` see to. -/
def Allowed (sb : Superblock) (s : Fs) : InodeCall → Prop
  | ialloc type => type ≠ 0
  | iget inum => 1 ≤ inum ∧ inum < sb.ninodes
  | idup ip | iput ip => ip < NINODE ∧ 0 < (s.icache ip).ref
  | readi ip off n | writei ip _ off n => ip < NINODE ∧ off < 2 ^ 32 ∧ n < 2 ^ 32
  | iupdate ip _ _ _ => ip < NINODE
  | beginOp | endOp => True

def exec (sb : Superblock) : InodeCall → FsM Unit
  | ialloc type => do let _ ← Xv6.ialloc sb ROOTDEV type
  | iget inum => do let _ ← Xv6.iget ROOTDEV inum
  | idup ip => do let _ ← Xv6.idup ip
  | iput ip => Xv6.iput sb ip
  | readi ip off n => do
    ilock sb ip
    let _ ← Icache.readi sb ip off n
    iunlock ip
  | writei ip src off n => do
    ilock sb ip
    let _ ← Icache.writei sb ip src off n
    iunlock ip
  | iupdate ip major minor nlink => do
    ilock sb ip
    setInode ip fun e => { e with d := { e.d with major := major, minor := minor, nlink := nlink } }
    Icache.iupdate sb ip
    iunlock ip
  | beginOp => onDev Xv6.beginOp
  | endOp => onDev (Xv6.endOp sb)

end InodeCall

inductive InodeRun (sb : Superblock) : Fs → Prop
  | boot {s : Fs} (hfs : FsOk sb s.dev (diskTable sb s.dev.cache)) (href : ∀ e, (s.icache e).ref = 0) : InodeRun sb s
  | step {s s' : Fs} {call : InodeCall} (h : InodeRun sb s) (ha : call.Allowed sb s)
      (hr : (call.exec sb).run s = .ok ((), s')) : InodeRun sb s'

section

variable {sb : Superblock} {s : Fs} {call : InodeCall}

def Frees (sb : Superblock) (s s' : Fs) : InodeCall → Prop
  | .iput ip => ∀ b, b < sb.size → (blockUsed sb s'.dev.cache b = true ↔ blockUsed sb s.dev.cache b = true ∧
      ((s.icache ip).valid = true ∧ (s.icache ip).d.nlink = 0 ∧ (s.icache ip).ref = 1 →
        ∀ l, ptr s.dev.cache (s.icache ip).d l = b → b = 0))
  | _ => True

theorem InodeCall.exec_ok (hL : Layout sb) (h : CacheOk sb s) (ha : call.Allowed sb s) :
    wp (call.exec sb) (fun _ s' => CacheOk sb s' ∧ Frees sb s s' call) NoDoubleFree s := by
  cases call with
  | ialloc type => exact wp.bind (ialloc_ok hL h ha) fun _ _ h' => ⟨h', trivial⟩
  | iget inum => exact wp.bind (iget_ok h ha) fun _ _ h' => ⟨h'.1, trivial⟩
  | idup ip => exact ⟨h.set_entry ha.1 ha.2 rfl rfl fun hv => h.sync ip ha.1 ha.2 hv, trivial⟩
  | iput ip => exact iput_ok hL h ha.1 ha.2
  | readi ip off n =>
    refine wp.bind (ilock_ok h ha.1) fun _ s₁ h₁ => ?_
    refine wp.bind (Icache.readi_ok hL h₁.ok ha.1 h₁.pos h₁.valid ha.2.1 ha.2.2) fun _ s₂ h₂ => ?_
    exact (iunlock_ok h₂.1 ha.1).post fun _ _ h' => ⟨h'.1, trivial⟩
  | writei ip src off n =>
    refine wp.bind (ilock_ok h ha.1) fun _ s₁ h₁ => ?_
    refine wp.bind (Icache.writei_ok hL h₁.ok ha.1 h₁.pos h₁.valid src ha.2.1 ha.2.2) fun _ s₂ h₂ => ?_
    exact (iunlock_ok h₂ ha.1).post fun _ _ h' => ⟨h'.1, trivial⟩
  | iupdate ip major minor nlink =>
    refine wp.bind (ilock_ok h ha) fun _ s₁ h₁ => ?_
    have hset := setFields_ok hL h₁.ok ha h₁.pos h₁.valid major minor nlink
    refine wp_bind.2 ((wp_bind.1 hset).post fun _ s₂ h₂ => wp.bind h₂ fun _ s₃ h₃ => ?_)
    exact (iunlock_ok h₃ ha).post fun _ _ h' => ⟨h'.1, trivial⟩
  | beginOp =>
    refine wp_onDev.2 (beginOp_spec.mono ?_ fun _ he => ?_)
    · rintro _ _ rfl
      exact ⟨h.home hL h.fs.head fun _ _ => rfl, trivial⟩
    · rw [he]
      simp [NoDoubleFree]
  | endOp =>
    refine wp_onDev.2 ((endOp_spec hL.logArea h.fs.head).mono ?_ fun _ he => ?_)
    · rintro _ v ⟨hc, -, -, hh⟩
      exact ⟨h.home hL hh hc, trivial⟩
    · rw [he.1]
      simp [NoDoubleFree]

theorem InodeRun.ok (hL : Layout sb) (h : InodeRun sb s) : CacheOk sb s := by
  induction h with
  | @boot s hfs href =>
    have hno : ∀ e, ¬ 0 < (s.icache e).ref := fun e => by rw [href]; exact Int.lt_irrefl 0
    exact ⟨hfs, fun e _ hp => absurd hp (hno e), fun e _ hp => absurd hp (hno e), fun e _ hp => absurd hp (hno e),
      fun e _ _ _ hp => absurd hp (hno e)⟩
  | step _ ha hr ih => exact ((InodeCall.exec_ok hL ih ha).of_ok hr).1

/-- The bitmap is exact, nothing is referenced twice, and `bfree` never finds a free block. -/
theorem block_ownership (hL : Layout sb) (h : InodeRun sb s) :
    (∀ b, b < sb.size → (blockUsed sb s.dev.cache b = true ↔
      b < sb.nmeta ∨ ∃! r : Ref, refs s.dev.cache (diskTable sb s.dev.cache) r = b)) ∧
    (∀ r r', refs s.dev.cache (diskTable sb s.dev.cache) r = refs s.dev.cache (diskTable sb s.dev.cache) r' →
      refs s.dev.cache (diskTable sb s.dev.cache) r ≠ 0 → r = r') ∧
    (∀ e, e < NINODE → 0 < (s.icache e).ref → (s.icache e).valid = true →
      diskTable sb s.dev.cache (s.icache e).inum = some (s.icache e).d) ∧
    ∀ call : InodeCall, call.Allowed sb s →
      wp (call.exec sb) (fun _ s' => Frees sb s s' call) (fun e => e ≠ .panic "freeing free block") s := by
  have hok := h.ok hL
  have hO := hok.fs.owned
  refine ⟨fun b hb => ?_, hO.inj, hok.sync, fun call ha => ?_⟩
  · rw [hO.used_iff b hb]
    simp only [Set.mem_empty_iff_false, false_or]
    refine or_congr_right' fun hlo => ⟨?_, fun hr => hr.exists⟩
    rintro ⟨r, rfl⟩
    have := hL.nmeta_pos
    exact ⟨r, rfl, fun r' hr' => hO.inj r' r hr' (by omega)⟩
  · exact (InodeCall.exec_ok hL hok ha).mono (fun _ _ h' => h'.2) fun _ => id

end

/-! ### On a small disk -/

def oneFile (m size : Nat) (i : Nat) : Dinode := if i = 1 then fileDinode m size else .fresh 0

theorem fileDinode_type (m size : Nat) : (fileDinode m size).type ≠ 0 := by
  simp [fileDinode]

theorem diskTable_smallDisk (n m size : Nat) (data : Nat → Blk) :
    diskTable mkfsSuperblock (smallDisk n (oneFile m size) data) = oneInode (fileDinode m size) := by
  funext i
  unfold diskTable oneInode
  have hn : mkfsSuperblock.ninodes = 200 := rfl
  by_cases hi : i < 8
  · rw [dinodeOf_smallDisk n _ data hi, oneFile]
    by_cases h1 : i = 1
    · rw [if_pos h1, if_pos ⟨by omega, by omega, fileDinode_type m size⟩, if_pos h1]
    · rw [if_neg h1, if_neg fun h => h.2.2 rfl, if_neg h1]
  · have h1 : i ≠ 1 := by omega
    rw [if_neg h1]
    refine if_neg fun h => h.2.2 ?_
    -- the other inode blocks are zero
    have hblk : smallDisk n (oneFile m size) data (i / 8 + 32) = Block.zero _ := by
      unfold smallDisk
      rw [if_neg (by omega), if_neg (by omega), if_pos (by omega)]
    change (Dinode.ofBytes (smallDisk n (oneFile m size) data (i / 8 + 32)).data (64 * (i % 8))).type = 0
    rw [hblk]
    rfl

theorem fsOk_oneFile {m size : Nat} (hm : m ≤ 11) (hsize : size ≤ 512 * m) (data : Nat → Blk)
    (tape : List (Option (List Byte))) :
    FsOk mkfsSuperblock (boot (smallDisk (63 + m) (oneFile m size) data) tape) (oneInode (fileDinode m size)) := by
  refine ⟨owned_smallDisk hm _ _, fun i d hi => ?_, fun i d hi => ?_, .nil mkfs_logArea⟩
  all_goals
    unfold oneInode at hi
    split at hi
  · next h => rw [h]; decide
  · cases hi
  · cases hi
    exact fileOk_smallDisk hm hsize
  · cases hi

def oneBlockFs : Fs where
  dev := boot (smallDisk 64 (oneFile 1 5) fun _ => Block.zero _) []
  icache _ := ⟨0, 0, 0, false, false, .fresh 0⟩
  freed := []

theorem inodeRun_oneBlockFs : InodeRun mkfsSuperblock oneBlockFs := by
  have hT : diskTable mkfsSuperblock oneBlockFs.dev.cache = oneInode (fileDinode 1 5) := diskTable_smallDisk 64 1 5 _
  refine .boot ?_ fun _ => rfl
  rw [hT]
  exact fsOk_oneFile (by decide) (by decide) _ _

/-- The state that a call leaves on such a disk. -/
def InodeCall.after (call : InodeCall) (s : Fs) : Fs := (call.exec mkfsSuperblock).final s

theorem InodeRun.after {s : Fs} (h : InodeRun mkfsSuperblock s) (call : InodeCall) (ha : call.Allowed mkfsSuperblock s)
    (hr : (call.exec mkfsSuperblock).result s = some ()) : InodeRun mkfsSuperblock (call.after s) := h.step ha (run_eq_final hr)

/-- In a transaction an inode is allocated in entry 0, and a block is written to it. -/
def filledFs : Fs := (InodeCall.writei 0 (fun _ => 1) 0 512).after
    ((InodeCall.ialloc T_FILE).after (InodeCall.beginOp.after oneBlockFs))

def putFs : Fs := (InodeCall.iput 0).after filledFs

/-- Its first block is block 64, which the last `iput` frees, as the inode has no link. -/
theorem block_ownership_filled_put : InodeRun mkfsSuperblock filledFs ∧ InodeRun mkfsSuperblock putFs ∧
    (∃! r : Ref, refs filledFs.dev.cache (diskTable mkfsSuperblock filledFs.dev.cache) r = 64) ∧
    ¬ ∃! r : Ref, refs putFs.dev.cache (diskTable mkfsSuperblock putFs.dev.cache) r = 64 := by
  have hbegin := inodeRun_oneBlockFs.after .beginOp trivial (by decide +kernel)
  have hmade := hbegin.after (.ialloc T_FILE) (show T_FILE ≠ 0 by decide) (by decide +kernel)
  have hfilled : InodeRun mkfsSuperblock filledFs := hmade.after _ ⟨by decide, by decide, by decide⟩ (by decide +kernel)
  have hput : InodeRun mkfsSuperblock putFs := hfilled.after (.iput 0) ⟨by decide, by decide +kernel⟩ (by decide +kernel)
  have hused : blockUsed mkfsSuperblock filledFs.dev.cache 64 = true := by decide +kernel
  have hfree : blockUsed mkfsSuperblock putFs.dev.cache 64 = false := by decide +kernel
  refine ⟨hfilled, hput, (((block_ownership mkfs_layout hfilled).1 64 (by decide)).1 hused).resolve_left
    (by decide), fun hr => ?_⟩
  have := ((block_ownership mkfs_layout hput).1 64 (by decide)).2 (.inr hr)
  rw [hfree] at this
  cases this

end Xv6
