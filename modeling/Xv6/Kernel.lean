import Xv6.Dir

/-!
# Processes, open files and pipes (`proc.h`, `file.c`, `pipe.c`, `syscall.c`)

`Kernel` is the state that system calls work on: the file system, the tables of open files and
processes, the pipes, and the key of the cipher. Calls run one at a time, on behalf of the process
`cur`; where the C code would sleep, waiting for another process, the model stops with `Fault.sleeps`.
A process's memory below `sz` is a function from addresses to bytes, and `esp` is the stack pointer
saved at the trap.
-/

namespace Xv6

open Prog Function

abbrev NPROC : Nat := 64
abbrev NOFILE : Nat := 16
abbrev NFILE : Nat := 100
abbrev PIPESIZE : Nat := 512

inductive FdType
  | FD_NONE
  | FD_PIPE
  | FD_INODE
deriving DecidableEq, Repr

def FdType.code : FdType → Nat
  | FD_NONE => 0
  | FD_PIPE => 1
  | FD_INODE => 2

/-- `struct file`; a null `ip` is `none`. -/
structure File where
  type : FdType
  ref : Int
  readable : Bool
  writable : Bool
  pipe : Nat
  ip : Option Nat
  off : Nat

structure Pipe where
  data : Nat → Byte
  nread : BitVec 32
  nwrite : BitVec 32
  readopen : Bool
  writeopen : Bool
  /-- How often the pipe's page has been given back to `kfree`. -/
  frees : Nat

inductive ProcState
  | UNUSED
  | EMBRYO
  | SLEEPING
  | RUNNABLE
  | RUNNING
  | ZOMBIE
deriving DecidableEq, Repr

/-- `struct proc`, without the fields that only the scheduler and the page tables use. -/
structure Proc where
  state : ProcState
  pid : Nat
  parent : Option Nat
  killed : Bool
  ofile : Nat → Option Nat
  cwd : Option Nat
  sz : Nat
  esp : BitVec 32
  mem : Nat → Byte

def Proc.Live (p : Proc) : Prop := p.state ≠ .UNUSED ∧ p.state ≠ .ZOMBIE

instance (p : Proc) : Decidable p.Live := inferInstanceAs (Decidable (_ ∧ _))

structure Kernel where
  fs : Fs
  ftable : Nat → File
  ptable : Nat → Proc
  cur : Nat
  nextpid : Nat
  pipes : Nat → Pipe
  npipes : Nat
  encrKey : BitVec 32
  /-- Whether successive requests for kernel memory succeed; past the end they all do. -/
  kmem : List Bool

abbrev KM := Prog Kernel Fault

/-- Code of `fs.c` and below. -/
def onFs {α : Type} (x : FsM α) : KM α := zoom Kernel.fs (fun d s => { s with fs := d }) x

def setFile (f : Nat) (g : File → File) : KM Unit :=
  modify fun k => { k with ftable := update k.ftable f (g (k.ftable f)) }

def setProc (p : Nat) (g : Proc → Proc) : KM Unit :=
  modify fun k => { k with ptable := update k.ptable p (g (k.ptable p)) }

def setPipe (p : Nat) (g : Pipe → Pipe) : KM Unit :=
  modify fun k => { k with pipes := update k.pipes p (g (k.pipes p)) }

section Wp

variable {E : Fault → Prop} {k : Kernel}

@[simp] theorem wp_onFs {α : Type} {x : FsM α} {Q : α → Kernel → Prop} :
    wp (onFs x) Q E k ↔ wp x (fun a s => Q a { k with fs := s }) E k.fs := wp_zoom

@[simp] theorem wp_setFile {f : Nat} {g : File → File} {Q : Unit → Kernel → Prop} : wp (setFile f g) Q E k ↔
    Q () { k with ftable := update k.ftable f (g (k.ftable f)) } := Iff.rfl

@[simp] theorem wp_setProc {p : Nat} {g : Proc → Proc} {Q : Unit → Kernel → Prop} : wp (setProc p g) Q E k ↔
    Q () { k with ptable := update k.ptable p (g (k.ptable p)) } := Iff.rfl

@[simp] theorem wp_setPipe {p : Nat} {g : Pipe → Pipe} {Q : Unit → Kernel → Prop} : wp (setPipe p g) Q E k ↔
    Q () { k with pipes := update k.pipes p (g (k.pipes p)) } := Iff.rfl

end Wp

def kalloc : KM Bool := do
  match (← get).kmem with
  | [] => pure true
  | b :: rest => do
    modify fun k => { k with kmem := rest }
    pure b

def beginOpK : KM Unit := onFs (onDev beginOp)

def endOpK (sb : Superblock) : KM Unit := onFs (onDev (endOp sb))

/-! ### Arguments -/

namespace Proc

variable (p : Proc)

def fetchint (addr : BitVec 32) : Option (BitVec 32) :=
  if p.sz ≤ addr.toNat ∨ p.sz < (addr + 4).toNat then none else some (u32 p.mem addr.toNat)

/-- The string at `addr`, which has to end before the process's memory does. -/
def fetchstr (addr : BitVec 32) : Option (List Byte) :=
  if p.sz ≤ addr.toNat then none
  else
    let rest := (List.range (p.sz - addr.toNat)).map fun i => p.mem (addr.toNat + i)
    if (0 : Byte) ∈ rest then some (cstr rest) else none

def argint (n : Nat) : Option (BitVec 32) := p.fetchint (p.esp + 4 + BitVec.ofNat 32 (4 * n))

/-- A pointer to `size` bytes of the process's memory. -/
def argptr (n : Nat) (size : BitVec 32) : Option Nat := do
  let i ← p.argint n
  if size.toInt < 0 ∨ p.sz ≤ i.toNat ∨ p.sz < (i + size).toNat then none else some i.toNat

def argstr (n : Nat) : Option (List Byte) := do
  let addr ← p.argint n
  p.fetchstr addr

def argfd (n : Nat) : Option (Nat × Nat) := do
  let fd ← p.argint n
  if fd.toInt < 0 ∨ (NOFILE : Int) ≤ fd.toInt then none
  else do
    let f ← p.ofile fd.toNat
    some (fd.toNat, f)

end Proc

def Kernel.proc (k : Kernel) : Proc := k.ptable k.cur

/-- The bytes `bs` stored from address `a` on. -/
def putBytes (m : Nat → Byte) (a : Nat) (bs : List Byte) : Nat → Byte := fun x =>
  if a ≤ x ∧ x < a + bs.length then bs.getD (x - a) 0 else m x

def putUser (a : Nat) (bs : List Byte) : KM Unit := do
  setProc (← get).cur fun p => { p with mem := putBytes p.mem a bs }

/-! ### `pipe.c` -/

/-- The copy loop of `piperead`: up to `n` bytes, fewer if the pipe runs empty. -/
def Pipe.drain (p : Pipe) : Nat → List Byte × Pipe
  | 0 => ([], p)
  | n + 1 =>
    if p.nread = p.nwrite then ([], p)
    else
      let r := { p with nread := p.nread + 1 }.drain n
      (p.data (p.nread.toNat % PIPESIZE) :: r.1, r.2)

def Pipe.put (p : Pipe) (b : Byte) : Pipe :=
  { p with data := update p.data (p.nwrite.toNat % PIPESIZE) b, nwrite := p.nwrite + 1 }

def Pipe.shut (q : Pipe) (writable : Bool) : Pipe :=
  if writable = true then { q with writeopen := false } else { q with readopen := false }

def Pipe.close (q : Pipe) (writable : Bool) : Pipe :=
  if (q.shut writable).readopen = false ∧ (q.shut writable).writeopen = false then
    { q.shut writable with frees := q.frees + 1 }
  else q.shut writable

def pipeclose (p : Nat) (writable : Bool) : KM Unit := setPipe p (·.close writable)

def pipewrite (p addr n : Nat) : KM Int := do
  let r ← findRange (fun i => do
    let k ← get
    if (k.pipes p).nwrite = (k.pipes p).nread + BitVec.ofNat 32 PIPESIZE then do
      failIf ((k.pipes p).readopen = true ∧ k.proc.killed = false) .sleeps
      pure (some (-1))
    else do
      setPipe p (·.put (k.proc.mem (addr + i)))
      pure none) 0 n
  pure (r.getD n)

def piperead (p addr n : Nat) : KM Int := do
  let k ← get
  let q := k.pipes p
  if q.nread = q.nwrite ∧ q.writeopen = true then do
    failIf (k.proc.killed = false) .sleeps
    pure (-1)
  else do
    setPipe p fun q => (q.drain n).2
    putUser addr (q.drain n).1
    pure (q.drain n).1.length

/-! ### `file.c` -/

def filealloc : KM (Option Nat) := do
  let k ← get
  match (List.range NFILE).find? fun f => decide ((k.ftable f).ref = 0) with
  | none => pure none
  | some f => do
    setFile f fun x => { x with ref := 1 }
    pure (some f)

def filedup (f : Nat) : KM Unit := do
  failIf (((← get).ftable f).ref < 1) (.panic "filedup")
  setFile f fun x => { x with ref := x.ref + 1 }

/-- The inode a pointer names; `ilock` refuses a null one. -/
def deref (ip : Option Nat) : KM Nat :=
  match ip with
  | some ip => pure ip
  | none => throw (.panic "ilock")

@[simp] theorem deref_some (ip : Nat) : deref (some ip) = pure ip := rfl

variable (sb : Superblock)

/-- What `fileclose` does with the last reference. -/
def filerelease (ff : File) : KM Unit :=
  match ff.type with
  | .FD_NONE => pure ()
  | .FD_PIPE => pipeclose ff.pipe ff.writable
  | .FD_INODE => do
    beginOpK
    let ip ← deref ff.ip
    onFs (iput sb ip)
    endOpK sb

def fileclose (f : Nat) : KM Unit := do
  let ff := (← get).ftable f
  failIf (ff.ref < 1) (.panic "fileclose")
  if 0 < ff.ref - 1 then setFile f fun x => { x with ref := x.ref - 1 }
  else do
    setFile f fun x => { x with ref := 0, type := .FD_NONE }
    filerelease sb ff

/-- `struct stat`. -/
structure Stat where
  type : BitVec 16
  dev : Nat
  ino : Nat
  nlink : BitVec 16
  size : BitVec 32

def filestat (f : Nat) : KM (Option Stat) := do
  let x := (← get).ftable f
  if x.type = .FD_INODE then do
    let ip ← deref x.ip
    onFs (ilock sb ip)
    let e := (← get).fs.icache ip
    onFs (iunlock ip)
    pure (some ⟨e.d.type, e.dev, e.inum, e.d.nlink, e.d.size⟩)
  else pure none

/-- `if(r > 0) f->off += r;` -/
def advance (f : Nat) (r : Int) : KM Unit :=
  if 0 < r then setFile f fun x => { x with off := (x.off + r.toNat) % 2 ^ 32 } else pure ()

def fileread (f addr n : Nat) : KM Int := do
  let x := (← get).ftable f
  if x.readable = false then pure (-1)
  else match x.type with
    | .FD_PIPE => piperead x.pipe addr n
    | .FD_INODE => do
      let ip ← deref x.ip
      onFs (ilock sb ip)
      let (r, bs) ← onFs (Icache.readi sb ip x.off n)
      putUser addr bs
      advance f r
      onFs (iunlock ip)
      pure r
    | .FD_NONE => throw (.panic "fileread")

/-- One transaction of `filewrite`. -/
def filewriteChunk (f ip addr n1 : Nat) : KM Int := do
  beginOpK
  onFs (ilock sb ip)
  let k ← get
  let r ← onFs (Icache.writei sb ip (fun i => k.proc.mem (addr + i)) (k.ftable f).off n1)
  advance f r
  onFs (iunlock ip)
  endOpK sb
  pure r

/-- The loop of `filewrite`: the position reached. -/
def filewriteLoop (f ip addr n i : Nat) : KM Nat :=
  if _h : i < n then do
    let n1 := min (n - i) (((MAXOPBLOCKS - 1 - 1 - 2) / 2) * 512)
    let r ← filewriteChunk sb f ip (addr + i) n1
    if r < 0 then pure i
    else do
      failIf (r ≠ n1) (.panic "short filewrite")
      filewriteLoop f ip addr n (i + n1)
  else pure i
termination_by n - i
decreasing_by
  simp only [MAXOPBLOCKS]
  omega

def filewrite (f addr n : Nat) : KM Int := do
  let x := (← get).ftable f
  if x.writable = false then pure (-1)
  else match x.type with
    | .FD_PIPE => pipewrite x.pipe addr n
    | .FD_INODE => do
      let ip ← deref x.ip
      let i ← filewriteLoop sb f ip addr n 0
      pure (if i = n then n else -1)
    | .FD_NONE => throw (.panic "filewrite")

end Xv6
