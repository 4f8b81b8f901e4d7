import Xv6.Fs

/-!
# The inode cache (`fs.c`)

`Fs` adds the table of in-memory inodes to the device. An entry is named by its index; `ref` counts
the pointers to it, `locked` is its sleep-lock, `d` holds the fields the lock protects, meaningful
once `valid` is set. Calls run one at a time, so a sleep-lock found held is never released: the caller
sleeps for good. `freed` records the inode numbers that `iput` has freed on disk, newest first.
-/

namespace Xv6

open Prog

abbrev NINODE : Nat := 50
abbrev ROOTDEV : Nat := 1
abbrev ROOTINO : Nat := 1

/-- `struct inode`. -/
structure Inode where
  dev : Nat
  inum : Nat
  ref : Int
  locked : Bool
  valid : Bool
  d : Dinode

structure Fs where
  dev : Dev
  icache : Nat → Inode
  freed : List Nat

abbrev FsM := Prog Fs Fault

def onDev {α : Type} (x : DevM α) : FsM α := zoom Fs.dev (fun d s => { s with dev := d }) x

def setInode (ip : Nat) (f : Inode → Inode) : FsM Unit :=
  modify fun s => { s with icache := Function.update s.icache ip (f (s.icache ip)) }

/-- The first entry of the table that `p` accepts. -/
def findInode (s : Fs) (p : Inode → Bool) : Option Nat := (List.range NINODE).find? fun k => p (s.icache k)

theorem findInode_some {s : Fs} {ip : Nat} {p : Inode → Bool} (h : findInode s p = some ip) :
    ip < NINODE ∧ p (s.icache ip) = true := by
  have hp : p (s.icache ip) = true := List.find?_some (p := fun k => p (s.icache k)) h
  exact ⟨List.mem_range.1 (List.mem_of_find?_eq_some h), hp⟩

theorem findInode_none {s : Fs} {p : Inode → Bool} (h : findInode s p = none) {e : Nat} (he : e < NINODE) :
    p (s.icache e) = false := by
  have := List.find?_eq_none.1 h e (List.mem_range.2 he)
  simpa using this

/-- The in-memory inode for `inum`, one more reference to it; not locked and not read from disk. -/
def iget (dev inum : Nat) : FsM Nat := do
  let s ← get
  match findInode s fun e => decide (0 < e.ref ∧ e.dev = dev ∧ e.inum = inum) with
  | some ip => do
    setInode ip fun e => { e with ref := e.ref + 1 }
    pure ip
  | none =>
    match findInode s fun e => decide (e.ref = 0) with
    | none => throw (.panic "iget: no inodes")
    | some ip => do
      setInode ip fun e => { e with dev := dev, inum := inum, ref := 1, valid := false }
      pure ip

def idup (ip : Nat) : FsM Nat := do
  setInode ip fun e => { e with ref := e.ref + 1 }
  pure ip

def acquiresleep (ip : Nat) : FsM Unit := do
  failIf ((← get).icache ip).locked .sleeps
  setInode ip fun e => { e with locked := true }

def releasesleep (ip : Nat) : FsM Unit := setInode ip fun e => { e with locked := false }

section Wp

variable {E : Fault → Prop} {s : Fs}

@[simp] theorem wp_onDev {α : Type} {x : DevM α} {Q : α → Fs → Prop} :
    wp (onDev x) Q E s ↔ wp x (fun a d => Q a { s with dev := d }) E s.dev := wp_zoom

@[simp] theorem wp_setInode {ip : Nat} {f : Inode → Inode} {Q : Unit → Fs → Prop} : wp (setInode ip f) Q E s ↔
    Q () { s with icache := Function.update s.icache ip (f (s.icache ip)) } := Iff.rfl

end Wp

variable (sb : Superblock)

def ilock (ip : Nat) : FsM Unit := do
  failIf (((← get).icache ip).ref < 1) (.panic "ilock")
  acquiresleep ip
  let e := (← get).icache ip
  if e.valid then pure () else do
    let bp ← onDev (bread (iblock sb e.inum))
    setInode ip fun e => { e with d := .ofBytes bp.data (islot e.inum), valid := true }
    failIf ((Dinode.ofBytes bp.data (islot e.inum)).type = 0) (.panic "ilock: no type")

def iunlock (ip : Nat) : FsM Unit := do
  let e := (← get).icache ip
  failIf (e.locked = false ∨ e.ref < 1) (.panic "iunlock")
  releasesleep ip

namespace Icache

def iupdate (ip : Nat) : FsM Unit := do
  let e := (← get).icache ip
  onDev (Xv6.iupdate sb e.inum e.d)

def itrunc (ip : Nat) : FsM Unit := do
  let e := (← get).icache ip
  let d ← onDev (Xv6.itrunc sb e.inum e.d)
  setInode ip fun e => { e with d := d }

/-- `readi` of the locked entry `ip`; the console is read with the lock released. -/
def readi (ip off n : Nat) : FsM (Int × List Byte) := do
  let e := (← get).icache ip
  if e.d.type = T_DEV ∧ e.d.major = CONSOLE then do
    iunlock ip
    let r ← onDev (consoleread n)
    ilock sb ip
    pure r
  else do
    let (r, d) ← onDev (Xv6.readi sb e.d off n)
    setInode ip fun e => { e with d := d }
    pure r

def writei (ip : Nat) (src : Nat → Byte) (off n : Nat) : FsM Int := do
  let e := (← get).icache ip
  if e.d.type = T_DEV ∧ e.d.major = CONSOLE then do
    iunlock ip
    ilock sb ip
    pure (asInt n)
  else do
    let (r, d) ← onDev (Xv6.writei sb e.inum e.d src off n)
    setInode ip fun e => { e with d := d }
    pure r

end Icache

def ifree (ip : Nat) : FsM Unit := do
  Icache.itrunc sb ip
  setInode ip fun e => { e with d := { e.d with type := 0 } }
  Icache.iupdate sb ip
  modify fun s => { s with freed := (s.icache ip).inum :: s.freed }
  setInode ip fun e => { e with valid := false }

/-- The part of `iput` under the inode lock. -/
def ifreeLast (ip : Nat) : FsM Unit := do
  let e := (← get).icache ip
  if e.valid = true ∧ e.d.nlink = 0 ∧ e.ref = 1 then ifree sb ip else pure ()

def iput (ip : Nat) : FsM Unit := do
  acquiresleep ip
  ifreeLast sb ip
  releasesleep ip
  setInode ip fun e => { e with ref := e.ref - 1 }

def iunlockput (ip : Nat) : FsM Unit := do
  iunlock ip
  iput sb ip

def ialloc (dev : Nat) (type : BitVec 16) : FsM Nat := do
  let inum ← onDev (iallocDisk sb type)
  iget dev inum

end Xv6
