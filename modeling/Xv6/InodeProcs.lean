import Xv6.Icache
import Xv6.Lts

/-!
# Many processes at the inode cache (`fs.c`)

Any number of processes use the inode cache, and between two steps of one the others may run. One step
is what a process does under `icache.lock`, under the lock of one buffer, or to the contents of an inode
it has locked; `ilock` can be overtaken once it has the sleep-lock, `ialloc` between the turns of its
loop and before its `iget`, and `iput` everywhere.

The callers' side of the contract is in `Allowed`: a reference is put once, and the fields of an inode
are touched under its lock only, changed ones being written through with `iupdate` before anything else.
-/

namespace Xv6

open Prog

section Pieces

variable (sb : Superblock)

/-- `ilock` once it has the sleep-lock. -/
def ilockLoad (ip : Nat) : FsM Unit := do
  let e := (← get).icache ip
  if e.valid then pure () else do
    let bp ← onDev (bread (iblock sb e.inum))
    setInode ip fun e => { e with d := .ofBytes bp.data (islot e.inum), valid := true }
    failIf ((Dinode.ofBytes bp.data (islot e.inum)).type = 0) (.panic "ilock: no type")

theorem ilock_eq (ip : Nat) : ilock sb ip = (do
    failIf (((← get).icache ip).ref < 1) (.panic "ilock")
    acquiresleep ip
    ilockLoad sb ip) := rfl

/-- The stores of `iput` that mark the inode free on disk. -/
def ifreeMark (ip : Nat) : FsM Unit := do
  setInode ip fun e => { e with d := { e.d with type := 0 } }
  Icache.iupdate sb ip
  modify fun s => { s with freed := (s.icache ip).inum :: s.freed }

theorem ifree_eq (ip : Nat) : ifree sb ip = (do
    Icache.itrunc sb ip
    ifreeMark sb ip
    setInode ip fun e => { e with valid := false }) := by
  simp only [ifree, ifreeMark, bind_assoc]

end Pieces

/-- Where a process is in an operation of `fs.c`; `ready` is between two operations. -/
inductive InodePc
  | ready
  /-- `ilock`: has the sleep-lock, has not looked at `valid`. -/
  | ilocking (ip : Nat)
  /-- Has stored into fields of the locked inode; `iupdate` comes next. -/
  | changed (ip : Nat)
  /-- `iput`: has the sleep-lock. -/
  | iputting (ip : Nat)
  /-- `iput`: has seen that there are no links and no other references. -/
  | last (ip : Nat)
  /-- `iput`: `itrunc` is done. -/
  | truncated (ip : Nat)
  /-- `iput`: the inode is free on disk, the entry still valid. -/
  | freed (ip : Nat)
  /-- `iput`: about to release the sleep-lock. -/
  | releasing (ip : Nat)
  /-- `iput`: about to drop the reference. -/
  | dropping (ip : Nat)
  /-- `ialloc`: about to look at inode `inum`. -/
  | scanning (inum : Nat) (type : BitVec 16)
  /-- `ialloc`: has marked inode `inum` allocated. -/
  | allocated (inum : Nat)
  deriving DecidableEq

namespace InodePc

def entry : InodePc → Option Nat
  | ilocking ip | changed ip | iputting ip | last ip | truncated ip | freed ip | releasing ip => some ip
  | _ => none

/-- The entry that `iput` is dropping a reference to. -/
def puts : InodePc → Option Nat
  | iputting ip | last ip | truncated ip | freed ip | releasing ip | dropping ip => some ip
  | _ => none

end InodePc

/-- A reference to an entry: in the hands of a process, or of its `iput`. -/
inductive InodeRef
  | held (p ip : Nat)
  | put (p ip : Nat)
  deriving DecidableEq

def InodeRef.ip : InodeRef → Nat
  | held _ ip | put _ ip => ip

@[simp] theorem InodeRef.ip_held (p ip : Nat) : (held p ip).ip = ip := rfl

@[simp] theorem InodeRef.ip_put (p ip : Nat) : (put p ip).ip = ip := rfl

/-- `born i` is the type that inode `i` was allocated with, as long as its dinode has not been stored again. -/
structure InodeSys where
  fs : Fs
  pc : Nat → InodePc
  holder : Nat → Option Nat
  refs : List InodeRef
  born : Nat → Option (BitVec 16)

abbrev InodeSysM := Prog InodeSys Fault

namespace InodeSys

def inFs {α : Type} (x : FsM α) : InodeSysM α := zoom InodeSys.fs (fun f s => { s with fs := f }) x

@[simp] theorem wp_inFs {α : Type} {x : FsM α} {Q : α → InodeSys → Prop} {E : Fault → Prop} {s : InodeSys} :
    wp (inFs x) Q E s ↔ wp x (fun a f => Q a { s with fs := f }) E s.fs := wp_zoom

def goto (p : Nat) (c : InodePc) (s : InodeSys) : InodeSys := { s with pc := Function.update s.pc p c }

/-- The sleep-lock of entry `ip` changes hands. -/
def lock (ip : Nat) (o : Option Nat) (s : InodeSys) : InodeSys := { s with holder := Function.update s.holder ip o }

/-- The dinode of inode `i` has been stored, by `ialloc` if there is a type. -/
def store (i : Nat) (o : Option (BitVec 16)) (s : InodeSys) : InodeSys := { s with born := Function.update s.born i o }

/-- The reference `t` is there from now on. -/
def gain (t : InodeRef) (s : InodeSys) : InodeSys := { s with refs := t :: s.refs }

def lose (t : InodeRef) (s : InodeSys) : InodeSys := { s with refs := s.refs.erase t }

end InodeSys

inductive InodeAct
  | iget (inum : Nat)
  | idup (ip : Nat)
  | give (ip q : Nat)
  | ilock (ip : Nat)
  | iunlock (ip : Nat)
  | setFields (ip : Nat) (major minor nlink : BitVec 16)
  | iupdate (ip : Nat)
  | readi (ip off n : Nat)
  | writei (ip : Nat) (src : Nat → Byte) (off n : Nat)
  | iput (ip : Nat)
  | ialloc (type : BitVec 16)
  | beginOp
  | endOp
  | next

namespace InodeAct

open InodeSys

def Allowed (sb : Superblock) (s : InodeSys) (p : Nat) : InodeAct → Prop
  | iget inum => s.pc p = .ready ∧ 1 ≤ inum ∧ inum < sb.ninodes
  | idup ip | ilock ip | iput ip => s.pc p = .ready ∧ .held p ip ∈ s.refs
  | give ip _ => s.pc p = .ready ∧ .held p ip ∈ s.refs ∧ s.holder ip ≠ some p
  | iunlock ip => s.pc p = .ready ∧ s.holder ip = some p
  | setFields ip _ _ _ | iupdate ip => (s.pc p = .ready ∨ s.pc p = .changed ip) ∧ s.holder ip = some p
  | readi ip off n | writei ip _ off n => s.pc p = .ready ∧ s.holder ip = some p ∧ off < 2 ^ 32 ∧ n < 2 ^ 32 ∧
      ¬ ((s.fs.icache ip).d.type = T_DEV ∧ (s.fs.icache ip).d.major = CONSOLE)
  | ialloc type => s.pc p = .ready ∧ type ≠ 0
  | beginOp | endOp => s.pc p = .ready
  | next => True

instance (sb : Superblock) (s : InodeSys) (p : Nat) (a : InodeAct) : Decidable (a.Allowed sb s p) := by
  cases a <;> dsimp only [Allowed] <;> infer_instance

variable (sb : Superblock) (p : Nat)

def goOn : InodePc → InodeSysM Unit
  | .ready | .changed _ => throw .sleeps
  | .ilocking ip => do
    inFs (ilockLoad sb ip)
    modify (goto p .ready)
  | .iputting ip => do
    let e := (← get).fs.icache ip
    modify (goto p (if e.valid = true ∧ e.d.nlink = 0 ∧ e.ref = 1 then .last ip else .releasing ip))
  | .last ip => do
    inFs (Icache.itrunc sb ip)
    modify fun s => (s.store (s.fs.icache ip).inum none).goto p (.truncated ip)
  | .truncated ip => do
    inFs (ifreeMark sb ip)
    modify fun s => (s.store (s.fs.icache ip).inum none).goto p (.freed ip)
  | .freed ip => do
    inFs (setInode ip fun e => { e with valid := false })
    modify (goto p (.releasing ip))
  | .releasing ip => do
    inFs (releasesleep ip)
    modify fun s => (s.lock ip none).goto p (.dropping ip)
  | .dropping ip => do
    inFs (setInode ip fun e => { e with ref := e.ref - 1 })
    modify fun s => (s.lose (.put p ip)).goto p .ready
  | .scanning inum type => do
    failIf (sb.ninodes ≤ inum) (.panic "ialloc: no inodes")
    match ← inFs (onDev (iallocTry sb type inum)) with
    | some i => modify fun s => (s.store i (some type)).goto p (.allocated i)
    | none => modify (goto p (.scanning (inum + 1) type))
  | .allocated inum => do
    let ip ← inFs (Xv6.iget ROOTDEV inum)
    modify fun s => (s.gain (.held p ip)).goto p .ready

def exec : InodeAct → InodeSysM Unit
  | iget inum => do
    let ip ← inFs (Xv6.iget ROOTDEV inum)
    modify (gain (.held p ip))
  | idup ip => do
    let ip ← inFs (Xv6.idup ip)
    modify (gain (.held p ip))
  | give ip q => modify fun s => (s.lose (.held p ip)).gain (.held q ip)
  | ilock ip => do
    failIf (((← get).fs.icache ip).ref < 1) (.panic "ilock")
    inFs (acquiresleep ip)
    modify fun s => (s.lock ip (some p)).goto p (.ilocking ip)
  | iunlock ip => do
    inFs (Xv6.iunlock ip)
    modify (lock ip none)
  | setFields ip major minor nlink => do
    inFs (setInode ip fun e => { e with d := { e.d with major := major, minor := minor, nlink := nlink } })
    modify (goto p (.changed ip))
  | iupdate ip => do
    inFs (Icache.iupdate sb ip)
    modify fun s => (s.store (s.fs.icache ip).inum none).goto p .ready
  | readi ip off n => do
    let _ ← inFs (Icache.readi sb ip off n)
  | writei ip src off n => do
    let _ ← inFs (Icache.writei sb ip src off n)
    modify fun s => s.store (s.fs.icache ip).inum none
  | iput ip => do
    inFs (acquiresleep ip)
    modify fun s => (((s.lose (.held p ip)).gain (.put p ip)).lock ip (some p)).goto p (.iputting ip)
  | ialloc type => modify (goto p (.scanning 1 type))
  | beginOp => inFs (onDev Xv6.beginOp)
  | endOp => inFs (onDev (Xv6.endOp sb))
  | next => do goOn sb p ((← get).pc p)

end InodeAct

end Xv6
