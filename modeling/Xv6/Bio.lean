import Xv6.LinkedRing
import Xv6.Log
import Xv6.Tally

/-!
# The buffer cache and the disk driver (`bio.c`, `ide.c`)

The cache is an array of `NBUF` buffers on a doubly linked ring in order of use, most recent first; node
`NBUF` is its head. Spin-locks make the stretches between two sleeps atomic, and the functions below are
these stretches. `BioSys` has any number of callers, each at some point between `bread` and `brelse`,
and remembers the last modification of every block.
-/

namespace Xv6.Bio

open Prog Function

abbrev NBUF : Nat := MAXOPBLOCKS * 3

/-- `struct buf`; `valid` and `dirty` are the flags `B_VALID` and `B_DIRTY`, `lock` is the holder of the sleep-lock. -/
structure Buf where
  valid : Bool
  dirty : Bool
  dev : Nat
  blockno : Nat
  lock : Option Nat
  refcnt : Nat
  data : Blk

structure Bcache where
  buf : Nat → Buf
  links : Links
  idequeue : List Nat
  disk : Nat → Image
  havedisk1 : Bool

abbrev BioM := Prog Bcache Fault

/-- `&bcache.head` -/
abbrev head : Nat := NBUF

def Bcache.setBuf (c : Bcache) (b : Nat) (x : Buf) : Bcache := { c with buf := update c.buf b x }

def Bcache.sector (c : Bcache) (dev blockno : Nat) : Blk := c.disk (dev % 2) blockno

/-- Change the fields of buffer `b`. -/
def edit (b : Nat) (f : Buf → Buf) : BioM Unit := modify fun c => c.setBuf b (f (c.buf b))

def binit : BioM Unit := modify fun c =>
  let L := { prev := update c.links.prev head head, next := update c.links.next head head }
  { c with links := (List.range NBUF).foldl (fun L b => L.insertAfter head b) L }

/-- `bget` up to the release of `bcache.lock`. Both scans end at the head, after at most `NBUF` buffers. -/
def bget (dev blockno : Nat) : BioM Nat := do
  let c ← get
  match Links.scan c.links.next head (fun b => (c.buf b).dev = dev ∧ (c.buf b).blockno = blockno)
    (NBUF + 1) (c.links.next head) with
  | some b => do
    edit b fun x => { x with refcnt := x.refcnt + 1 }
    pure b
  | none =>
    match Links.scan c.links.prev head (fun b => (c.buf b).refcnt = 0 ∧ (c.buf b).dirty = false)
      (NBUF + 1) (c.links.prev head) with
    | some b => do
      edit b fun x => { x with dev, blockno, valid := false, dirty := false, refcnt := 1 }
      pure b
    | none => throw (.panic "bget: no buffers")

def acquiresleep (me b : Nat) : BioM Unit := do
  failIf (((← get).buf b).lock ≠ none) .sleeps
  edit b fun x => { x with lock := some me }

/-- `outsl` sends the data of a dirty buffer to the disk. -/
def idestart (b : Nat) : BioM Unit := do
  let x := (← get).buf b
  failIf (FSSIZE ≤ x.blockno) (.panic "incorrect blockno")
  if x.dirty then
    modify fun c => { c with disk := update c.disk (x.dev % 2) (update (c.disk (x.dev % 2)) x.blockno x.data) }

def iderw (me b : Nat) : BioM Unit := do
  let c ← get
  failIf ((c.buf b).lock ≠ some me) (.panic "iderw: buf not locked")
  failIf ((c.buf b).valid = true ∧ (c.buf b).dirty = false) (.panic "iderw: nothing to do")
  failIf ((c.buf b).dev ≠ 0 ∧ c.havedisk1 = false) (.panic "iderw: ide disk 1 not present")
  set { c with idequeue := c.idequeue ++ [b] }
  if c.idequeue = [] then idestart b

/-- The interrupt at the end of the active request; `ok` is the outcome of `idewait(1)`. -/
def ideintr (ok : Bool) : BioM Unit := do
  let c ← get
  match c.idequeue with
  | [] => pure ()
  | b :: rest => do
    set { c with idequeue := rest }
    let x := c.buf b
    let data := if x.dirty = false ∧ ok = true then c.sector x.dev x.blockno else x.data
    edit b fun x => { x with data, valid := true, dirty := false }
    match rest with
    | [] => pure ()
    | b' :: _ => idestart b'

def bwrite (me b : Nat) : BioM Unit := do
  failIf (((← get).buf b).lock ≠ some me) (.panic "bwrite")
  edit b fun x => { x with dirty := true }
  iderw me b

/-- What `log_write` does to the buffer; the header of the log is in `Log.lean`. -/
def logWrite (b : Nat) : BioM Unit := edit b fun x => { x with dirty := true }

/-- The first half of `brelse`. -/
def releasesleep (me b : Nat) : BioM Unit := do
  failIf (((← get).buf b).lock ≠ some me) (.panic "brelse")
  edit b fun x => { x with lock := none }

def brelse (b : Nat) : BioM Unit := do
  edit b fun x => { x with refcnt := x.refcnt - 1 }
  let c ← get
  if (c.buf b).refcnt = 0 then
    set { c with links := (c.links.remove b).insertAfter head b }

/-! ### Callers -/

/-- Where a caller is between `bread` and `brelse`. `locked` is just behind `acquiresleep`, `reading` and `writing`
are in `iderw`, `modified` has changed the data and not yet called `log_write` or `bwrite`. -/
inductive Phase
  | idle
  | waiting
  | locked
  | reading
  | holding
  | modified
  | writing
  | leaving
deriving DecidableEq, Repr

def Phase.hasLock : Phase → Bool
  | .locked | .reading | .holding | .modified | .writing => true
  | _ => false

structure Caller where
  phase : Phase
  b : Nat
  dev : Nat
  blockno : Nat
deriving DecidableEq

def Caller.Refers (b : Nat) (x : Caller) : Prop := x.phase ≠ .idle ∧ x.b = b

instance (b : Nat) : DecidablePred (Caller.Refers b) := fun _ => inferInstanceAs (Decidable (_ ∧ _))

/-- The cache with its callers; `latest dev blockno` is the last modification of the block. -/
structure BioSys where
  c : Bcache
  caller : Nat → Caller
  latest : Nat → Nat → Blk

/-- The block of buffer `b` has been modified. -/
def BioSys.noted (s : BioSys) (b : Nat) (v : Blk) : BioSys :=
  let x := s.c.buf b
  { s with latest := update s.latest x.dev (update (s.latest x.dev) x.blockno v) }

abbrev SysM := Prog BioSys Fault

def onCache {α : Type} (x : BioM α) : SysM α := zoom BioSys.c (fun c s => { s with c }) x

/-- The buffer of caller `i`, which is in one of the phases `ps`; otherwise this is not its next action. -/
def expect (i : Nat) (ps : List Phase) : SysM Nat := do
  let x := (← get).caller i
  failIf (x.phase ∉ ps) .sleeps
  pure x.b

def goto (i : Nat) (p : Phase) : SysM Unit := modify fun s =>
  { s with caller := update s.caller i { s.caller i with phase := p } }

inductive Action
  /-- `bread` is called and gets a buffer. -/
  | bget (i dev blockno : Nat)
  | acquire (i : Nat)
  /-- `bread` tests `B_VALID`. -/
  | check (i : Nat)
  /-- `iderw` finds its request done. -/
  | wake (i : Nat)
  /-- The caller changes the data. -/
  | store (i : Nat) (v : Blk)
  | logWrite (i : Nat)
  | bwrite (i : Nat)
  | release (i : Nat)
  | brelse (i : Nat)
  | ideintr (ok : Bool)

/-- One action of one of `n` callers, or of the disk. -/
def Action.exec (n : Nat) : Action → SysM Unit
  | .bget i dev blockno => do
    failIf (n ≤ i) .sleeps
    let _ ← expect i [.idle]
    let b ← onCache (Bio.bget dev blockno)
    modify fun s => { s with caller := update s.caller i { phase := .waiting, b, dev, blockno } }
  | .acquire i => do
    let b ← expect i [.waiting]
    onCache (acquiresleep i b)
    goto i .locked
  | .check i => do
    let b ← expect i [.locked]
    if ((← get).c.buf b).valid then goto i .holding
    else do
      onCache (iderw i b)
      goto i .reading
  | .wake i => do
    let b ← expect i [.reading, .writing]
    let x := (← get).c.buf b
    failIf (¬ (x.valid = true ∧ x.dirty = false)) .sleeps
    goto i .holding
  | .store i v => do
    let b ← expect i [.holding, .modified]
    onCache (edit b fun x => { x with data := v })
    modify fun s => s.noted b v
    goto i .modified
  | .logWrite i => do
    let b ← expect i [.holding, .modified]
    onCache (Bio.logWrite b)
    goto i .holding
  | .bwrite i => do
    let b ← expect i [.holding, .modified]
    onCache (Bio.bwrite i b)
    goto i .writing
  | .release i => do
    let b ← expect i [.holding]
    onCache (releasesleep i b)
    goto i .leaving
  | .brelse i => do
    let b ← expect i [.leaving]
    onCache (Bio.brelse b)
    goto i .idle
  | .ideintr ok => onCache (Bio.ideintr ok)

def zeroed (disk : Nat → Image) (havedisk1 : Bool) : Bcache where
  buf _ := { valid := false, dirty := false, dev := 0, blockno := 0, lock := none, refcnt := 0, data := Block.zero _ }
  links := { prev := fun _ => 0, next := fun _ => 0 }
  idequeue := []
  disk
  havedisk1

/-- After `binit`, with nobody in the cache. -/
def start (disk : Nat → Image) (havedisk1 : Bool) : BioSys where
  c := binit.final (zeroed disk havedisk1)
  caller _ := { phase := .idle, b := 0, dev := 0, blockno := 0 }
  latest dev := disk (dev % 2)

/-- The action names a device in `D`, and the disk does not fail. -/
def Action.Allowed (D : Set Nat) : Action → Prop
  | .bget _ dev _ => dev ∈ D
  | .ideintr ok => ok = true
  | _ => True

/-- The states that `n` callers can reach, with the devices of `D`. -/
inductive Reach (D : Set Nat) (n : Nat) : BioSys → Prop
  | start (disk : Nat → Image) (havedisk1 : Bool) : Reach D n (start disk havedisk1)
  | step {s s' : BioSys} {a : Action} : Reach D n s → a.Allowed D → (a.exec n).run s = .ok ((), s') → Reach D n s'

end Xv6.Bio
