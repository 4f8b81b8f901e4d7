import Xv6.Dir
import Xv6.LogCrash

/-!
# Building the image (`mkfs.c`)

`mkfs` runs on the host and writes the image that the kernel boots from. It has its own allocator of
inodes and blocks, two counters that only go up, and its own version of the block map: `iappend` knows the
direct pointers and one indirect block. The state is the image file with the two counters. The program
stops at a failed assertion, at `exit` after a failed system call of the host, or, where C leaves the
outcome undefined, at an index past the end of an array.
-/

namespace Xv6.Mkfs

open Prog

abbrev NINODES : Nat := 200

def nbitmap : Nat := FSSIZE / (BSIZE * 8) + 1

def ninodeblocks : Nat := NINODES / IPB + 1

def nlog : Nat := LOGSIZE

def nmeta : Nat := 2 + nlog + ninodeblocks + nbitmap

/-- The superblock that `main` fills in. -/
def sb : Superblock where
  size := FSSIZE
  nblocks := FSSIZE - nmeta
  ninodes := NINODES
  nlog := nlog
  logstart := 2
  inodestart := 2 + nlog
  bmapstart := 2 + nlog + ninodeblocks

inductive Stop
  | assertion
  | exit
  | undefined
deriving DecidableEq, Repr

structure State where
  disk : Image
  freeinode : Nat
  freeblock : Nat

abbrev MkM := Prog State Stop

/-- The sector at the offset `sec * BSIZE`, which is computed in a `uint`. -/
def sector (sec : Nat) : Nat := sec % 2 ^ 23

def wsect (sec : Nat) (buf : Blk) : MkM Unit :=
  modify fun m => { m with disk := Function.update m.disk (sector sec) buf }

/-- Read a sector; past the end of the file `read` comes back short. -/
def rsect (sec : Nat) : MkM Blk := do
  failIf (FSSIZE ≤ sector sec) .exit
  return (← get).disk (sector sec)

def winode (inum : Nat) (d : Dinode) : MkM Unit := do
  let buf ← rsect (iblock sb inum)
  wsect (iblock sb inum) (buf.move (islot inum) d.bytes 64)

def rinode (inum : Nat) : MkM Dinode := do
  let buf ← rsect (iblock sb inum)
  pure (.ofBytes buf.data (islot inum))

def ialloc (type : BitVec 16) : MkM Nat := do
  let inum := (← get).freeinode
  modify fun m => { m with freeinode := inum + 1 }
  winode inum { Dinode.fresh type with nlink := 1 }
  pure inum

/-- `freeblock++` -/
def nextblock : MkM Nat := do
  let a := (← get).freeblock
  modify fun m => { m with freeblock := a + 1 }
  pure a

/-- `if(xint(din.addrs[j]) == 0) din.addrs[j] = xint(freeblock++);` -/
def addrAlloc (d : Dinode) (j : Nat) : MkM Dinode :=
  if d.addr j = 0 then do
    let a ← nextblock
    pure (d.setAddr j a)
  else pure d

/-- Entry `e` of the indirect block, which is read into an array of `NINDIRECT` words. -/
def entryAlloc (blk e : Nat) : MkM Nat := do
  let indirect ← rsect blk
  failIf (NINDIRECT ≤ e) .undefined
  if u32 indirect.data (4 * e) = 0 then do
    let a ← nextblock
    wsect blk (indirect.putU32 (4 * e) (BitVec.ofNat 32 a))
    pure a
  else pure (u32 indirect.data (4 * e)).toNat

/-- The part of `iappend` that finds the sector of block `fbn` of the file. -/
def findBlock (d : Dinode) (fbn : Nat) : MkM (Nat × Dinode) :=
  if fbn < NDIRECT then do
    let d ← addrAlloc d fbn
    pure (d.addr fbn, d)
  else do
    let d ← addrAlloc d NDIRECT
    let x ← entryAlloc (d.addr NDIRECT) (fbn - NDIRECT)
    pure (x, d)

def appendLoop (d : Dinode) (off : Nat) (bs : List Byte) : MkM (Dinode × Nat) :=
  if _h : 0 < bs.length then do
    failIf (MAXFILE ≤ off / BSIZE) .assertion
    let (x, d) ← findBlock d (off / BSIZE)
    let n1 := min bs.length (BSIZE - off % BSIZE)
    let buf ← rsect x
    wsect x (buf.move (off % BSIZE) (fun k => bs.getD k 0) n1)
    appendLoop d (off + n1) (bs.drop n1)
  else pure (d, off)
termination_by bs.length
decreasing_by
  have := Nat.mod_lt off (show 0 < BSIZE by decide)
  rw [List.length_drop]
  omega

def iappend (inum : Nat) (bs : List Byte) : MkM Unit := do
  let d ← rinode inum
  let (d, off) ← appendLoop d d.size.toNat bs
  winode inum { d with size := BitVec.ofNat 32 off }

/-- `struct dirent` -/
def direntBytes (name : List Byte) (inum : Nat) : List Byte := (List.range 16).map (dirent name inum)

/-- The entries `.` and `..` of the directory `ino`. -/
def adddots (ino parent : Nat) : MkM Unit := do
  iappend ino (direntBytes [46] ino)
  iappend ino (direntBytes [46, 46] parent)

def subdir (rootino : Nat) (name : List Byte) : MkM Nat := do
  let ino ← ialloc T_DIR
  adddots ino rootino
  iappend rootino (direntBytes name ino)
  pure ino

/-- The directories `/`, `/dev`, `/bin` and `/home`; the numbers of the last two. -/
def makedirs : MkM (Nat × Nat) := do
  let rootino ← ialloc T_DIR
  failIf (rootino ≠ ROOTINO) .assertion
  adddots rootino rootino
  let _ ← subdir rootino [100, 101, 118]
  let binino ← subdir rootino [98, 105, 110]
  let homeino ← subdir rootino [104, 111, 109, 101]
  pure (binino, homeino)

/-- An argument of `mkfs`: its name, and what successive reads of that file return; `none` if it cannot be opened. -/
structure Input where
  name : List Byte
  chunks : Option (List (List Byte))

/-- The name without `user/`. -/
def Input.shortname (f : Input) : List Byte := if f.name.take 5 = [117, 115, 101, 114, 47] then f.name.drop 5 else f.name

def appendAll (inum : Nat) : List (List Byte) → MkM Unit
  | [] => pure ()
  | c :: cs => do
    iappend inum c
    appendAll inum cs

/-- One file: what begins with `_` goes to `/bin`, everything else to `/home`. -/
def addFile (binino homeino : Nat) (f : Input) : MkM Unit := do
  failIf (47 ∈ f.shortname) .assertion
  match f.chunks with
  | none => throw .exit
  | some chunks => do
    let bin := f.shortname.head? = some 95
    let inum ← ialloc T_FILE
    iappend (if bin then binino else homeino) (direntBytes (if bin then f.shortname.drop 1 else f.shortname) inum)
    appendAll inum chunks

def addFiles (binino homeino : Nat) : List Input → MkM Unit
  | [] => pure ()
  | f :: fs => do
    addFile binino homeino f
    addFiles binino homeino fs

/-- A block with the first `n` bits set. -/
def firstBits (n : Nat) : Blk := (List.range n).foldl (fun buf i => buf.setBit i) (Block.zero _)

/-- Mark the blocks below `used` in the first block of the free map. -/
def balloc (used : Nat) : MkM Unit := do
  failIf (BSIZE * 8 ≤ used) .assertion
  wsect sb.bmapstart (firstBits used)

/-- The fields of `struct superblock` in order. -/
def superblockBlk : Blk :=
  [sb.size, sb.nblocks, sb.ninodes, sb.nlog, sb.logstart, sb.inodestart, sb.bmapstart].zipIdx.foldl
    (fun b (v, j) => b.putU32 (4 * j) (BitVec.ofNat 32 v)) (Block.zero _)

/-- The image file before `makedirs`. -/
def blank : State where
  disk := Function.update (fun _ => Block.zero _) 1 superblockBlk
  freeinode := 1
  freeblock := nmeta

def build (files : List Input) : MkM Unit := do
  let (binino, homeino) ← makedirs
  addFiles binino homeino files
  balloc (← get).freeblock

end Xv6.Mkfs
