import Xv6.LinkedQueue
import Xv6.Log
import Xv6.Lts

/-!
# The disk driver over all interleavings (`ide.c`, `memide.c`)

The driver's queue is a list of buffers linked through `qnext`, and the first one is the request that
the disk is working on. The controller executes a command at a time of its own and raises an interrupt,
and `ideintr` takes the request off the queue, wakes the process that waits for it and starts the next
one. `memide.c`, with the disk in memory, is the specification: a request takes effect in one step, at
its interrupt.
-/

namespace Xv6.Ide

open Prog Function

abbrev SECTOR_SIZE : Nat := 512

abbrev IDE_CMD_READ : Byte := 0x20
abbrev IDE_CMD_WRITE : Byte := 0x30
abbrev IDE_CMD_RDMUL : Byte := 0xc4
abbrev IDE_CMD_WRMUL : Byte := 0xc5

abbrev NBUF : Nat := MAXOPBLOCKS * 3

abbrev BufId := Fin NBUF

/-- `struct buf` without the fields that belong to the cache; `valid` and `dirty` are the flags, `lock` is the holder of the
sleep-lock. -/
structure Buf where
  valid : Bool
  dirty : Bool
  dev : Nat
  blockno : Nat
  lock : Option Nat
  data : Blk

/-! ### The controller -/

/-- The ports from `0x1f2` to `0x1f7`. -/
structure Ports where
  count : Byte
  lba0 : Byte
  lba1 : Byte
  lba2 : Byte
  device : Byte
  command : Byte
deriving DecidableEq

namespace Ports

def drive (r : Ports) : Nat := (r.device.toNat >>> 4) % 2

def sector (r : Ports) : Nat := r.lba0.toNat + (r.lba1.toNat <<< 8) + (r.lba2.toNat <<< 16) + ((r.device.toNat % 16) <<< 24)

end Ports

/-- The controller and its two disks. `fifo` is what goes through the data port, `irq` counts the interrupts that have been
raised and not been taken yet. -/
structure Controller where
  ports : Ports
  fifo : Blk
  busy : Bool
  irq : Nat
  disk : Nat → Image

namespace Controller

/-- The disk executes the command in the registers and raises an interrupt. The commands for several sectors are never sent. -/
def execute (c : Controller) : Controller :=
  let c := { c with busy := false, irq := c.irq + 1 }
  if c.ports.command = IDE_CMD_WRITE then
    { c with disk := update c.disk c.ports.drive (update (c.disk c.ports.drive) c.ports.sector c.fifo) }
  else if c.ports.command = IDE_CMD_READ then { c with fifo := c.disk c.ports.drive c.ports.sector }
  else c

end Controller

inductive Pc
  | out
  /-- In the `sleep` of `iderw`. -/
  | asleep (b : BufId)
  /-- In the `sleep` of `iderw`, and runnable. -/
  | awake (b : BufId)
deriving DecidableEq

structure State where
  buf : BufId → Buf
  queue : LinkedQueue BufId
  ctl : Controller
  havedisk1 : Bool
  proc : Nat → Pc

abbrev IdeM := Prog State Fault

/-- Wait until the disk is ready: it finishes what it is doing. It makes no errors, so that `idewait(1)` returns 0. -/
def idewait : IdeM Unit := modify fun s => { s with ctl := if s.ctl.busy then s.ctl.execute else s.ctl }

/-- What `idestart` writes to the ports for `b`. -/
def Buf.ports (x : Buf) : Ports :=
  let sectorPerBlock := BSIZE / SECTOR_SIZE
  let sector := x.blockno * sectorPerBlock
  let readCmd := if sectorPerBlock = 1 then IDE_CMD_READ else IDE_CMD_RDMUL
  let writeCmd := if sectorPerBlock = 1 then IDE_CMD_WRITE else IDE_CMD_WRMUL
  { count := BitVec.ofNat 8 sectorPerBlock
    lba0 := BitVec.ofNat 8 (sector &&& 0xff)
    lba1 := BitVec.ofNat 8 ((sector >>> 8) &&& 0xff)
    lba2 := BitVec.ofNat 8 ((sector >>> 16) &&& 0xff)
    device := BitVec.ofNat 8 (0xe0 ||| ((x.dev &&& 1) <<< 4) ||| ((sector >>> 24) &&& 0x0f))
    command := if x.dirty then writeCmd else readCmd }

def idestart (b : BufId) : IdeM Unit := do
  let x := (← get).buf b
  failIf (FSSIZE ≤ x.blockno) (.panic "incorrect blockno")
  failIf (7 < BSIZE / SECTOR_SIZE) (.panic "idestart")
  idewait
  -- `outsl` fills the data port before the disk can execute a write
  modify fun s => { s with ctl := { s.ctl with ports := x.ports, fifo := if x.dirty then x.data else s.ctl.fifo, busy := true } }

/-- `wakeup(b)` -/
def wakeup (b : BufId) : IdeM Unit := modify fun s =>
  { s with proc := fun p => if s.proc p = .asleep b then .awake b else s.proc p }

/-- `if(idequeue != 0) idestart(idequeue);` -/
def startNext : IdeM Unit := do
  match (← get).queue.head with
  | none => pure ()
  | some b => idestart b

def ideintr : IdeM Unit := do
  let s ← get
  match s.queue.head with
  | none => pure ()
  | some b => do
    set { s with queue := s.queue.pop b }
    if (s.buf b).dirty = false then
      idewait
      modify fun s => { s with buf := update s.buf b { s.buf b with data := s.ctl.fifo } }
    modify fun s => { s with buf := update s.buf b { s.buf b with valid := true, dirty := false } }
    wakeup b
    startNext

/-- The loop at the end of `iderw`, from one test to the next `sleep`; it returns whether `iderw` returns. -/
def iderwTest (p : Nat) (b : BufId) : IdeM Bool := do
  let x := (← get).buf b
  if x.valid = true ∧ x.dirty = false then
    modify fun s => { s with proc := update s.proc p .out }
    pure true
  else
    modify fun s => { s with proc := update s.proc p (.asleep b) }
    pure false

/-- `iderw` up to its first `sleep`, in process `p`. The walk along the queue ends after at most as many
buffers as there are. -/
def iderw (p : Nat) (b : BufId) : IdeM Bool := do
  let s ← get
  failIf ((s.buf b).lock ≠ some p) (.panic "iderw: buf not locked")
  failIf ((s.buf b).valid = true ∧ (s.buf b).dirty = false) (.panic "iderw: nothing to do")
  failIf ((s.buf b).dev ≠ 0 ∧ s.havedisk1 = false) (.panic "iderw: ide disk 1 not present")
  match s.queue.push (NBUF + 1) b with
  | none => throw .spins
  | some q => do
    set { s with queue := q }
    if q.head = some b then idestart b
    iderwTest p b

/-! ### All interleavings -/

inductive Ev
  /-- Process `p` calls `iderw(b)`. -/
  | call (p : Nat) (b : BufId)
  /-- Process `p` tests the flags again, and returns from `iderw` if `r`. -/
  | test (p : Nat) (b : BufId) (r : Bool)
  /-- The disk executes its command. -/
  | disk
  /-- `ideintr`, with the request it takes off the queue. -/
  | intr (b : Option BufId)
  | kill (p : Nat)
  /-- The owner of `b`, or the buffer cache, changes it. -/
  | touch (b : BufId) (x : Buf)

/-- Process `p` is in `iderw(b)`. -/
def State.Waits (s : State) (p : Nat) (b : BufId) : Prop := s.proc p = .asleep b ∨ s.proc p = .awake b

inductive Step : State → Ev → State → Prop
  | call {s s' : State} {p : Nat} {b : BufId} {r : Bool} (hp : s.proc p = .out) (h : (iderw p b).run s = .ok (r, s')) :
      Step s (.call p b) s'
  | test {s s' : State} {p : Nat} {b : BufId} {r : Bool} (hp : s.proc p = .awake b) (h : (iderwTest p b).run s = .ok (r, s')) :
      Step s (.test p b r) s'
  | disk {s : State} (h : s.ctl.busy = true) : Step s .disk { s with ctl := s.ctl.execute }
  | intr {s s' : State} {n : Nat} (hi : s.ctl.irq = n + 1)
      (h : ideintr.run { s with ctl := { s.ctl with irq := n } } = .ok ((), s')) :
      Step s (.intr s.queue.head) s'
  | kill {s : State} {p : Nat} {b : BufId} (hp : s.proc p = .asleep b) :
      Step s (.kill p) { s with proc := update s.proc p (.awake b) }
  -- whoever waits in `iderw(b)` has the lock of `b`
  | touch {s : State} {b : BufId} (x : Buf) (hb : ∀ p, ¬ s.Waits p b) :
      Step s (.touch b x) { s with buf := update s.buf b x }

/-- The driver after `ideinit`. -/
def boot (x : BufId → Buf) (d : Nat → Image) (havedisk1 : Bool) : State where
  buf := x
  queue := ⟨none, fun _ => none⟩
  ctl := ⟨⟨0, 0, 0, 0, 0, 0⟩, .zero BSIZE, false, 0, d⟩
  havedisk1 := havedisk1
  proc _ := .out

def ideLts (x : BufId → Buf) (d : Nat → Image) (havedisk1 : Bool) : Lts State Ev where
  init s := s = boot x d havedisk1
  step := Step

end Xv6.Ide
