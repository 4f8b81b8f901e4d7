import Xv6.Log

/-!
# Blocks and inode contents (`fs.c`)

The part of `fs.c` that works inside one transaction on an inode the caller has locked: block
allocation, the three-level block map, `itrunc`, `readi`, `writei`, `iupdate` and the disk half of
`ialloc`. The fields of the locked inode are passed in as a `Dinode` and handed back changed; the
inode cache itself is in `Icache.lean`.
-/

namespace Xv6

open Prog

/-! ### `fs.h`, `stat.h`, `file.h` -/

abbrev NDIRECT : Nat := 11
abbrev NINDIRECT : Nat := 128
abbrev NDINDIRECT : Nat := NINDIRECT * NINDIRECT
abbrev MAXFILE : Nat := NDIRECT + NINDIRECT + NDINDIRECT
abbrev IPB : Nat := 8
abbrev BPB : Nat := 4096
abbrev CONSOLE : BitVec 16 := 1
abbrev T_DIR : BitVec 16 := 1
abbrev T_FILE : BitVec 16 := 2
abbrev T_DEV : BitVec 16 := 3

/-- `struct dinode`, also the fields of `struct inode` that its lock protects. -/
@[ext] structure Dinode where
  type : BitVec 16
  major : BitVec 16
  minor : BitVec 16
  nlink : BitVec 16
  size : BitVec 32
  addrs : Fin 13 → BitVec 32

namespace Dinode

/-- `addrs[j]` as a block number. -/
def addr (d : Dinode) (j : Nat) : Nat := (d.addrs (Fin.ofNat 13 j)).toNat

def setAddr (d : Dinode) (j a : Nat) : Dinode :=
  { d with addrs := Function.update d.addrs (Fin.ofNat 13 j) (BitVec.ofNat 32 a) }

/-- An all-zero dinode of the given type, as `ialloc` makes it. -/
def fresh (type : BitVec 16) : Dinode := ⟨type, 0, 0, 0, 0, fun _ => 0⟩

def bytes (d : Dinode) (k : Nat) : Byte :=
  if k < 2 then leByte d.type.toNat k
  else if k < 4 then leByte d.major.toNat (k - 2)
  else if k < 6 then leByte d.minor.toNat (k - 4)
  else if k < 8 then leByte d.nlink.toNat (k - 6)
  else if k < 12 then leByte d.size.toNat (k - 8)
  else leByte (d.addr ((k - 12) / 4)) ((k - 12) % 4)

/-- The dinode stored at byte position `p`. -/
def ofBytes (m : Nat → Byte) (p : Nat) : Dinode where
  type := u16 m p
  major := u16 m (p + 2)
  minor := u16 m (p + 4)
  nlink := u16 m (p + 6)
  size := u32 m (p + 8)
  addrs := fun i => u32 m (p + 12 + 4 * i)

end Dinode

/-- A `uint` handed to a caller that takes an `int`. -/
def asInt (n : Nat) : Int := (BitVec.ofNat 32 n).toInt

variable (sb : Superblock)

def iblock (i : Nat) : Nat := i / IPB + sb.inodestart

/-- The byte position of inode `i` in its block. -/
def islot (i : Nat) : Nat := 64 * (i % IPB)

def bblock (b : Nat) : Nat := b / BPB + sb.bmapstart

/-- The dinode of inode `i` as read through the buffer cache. -/
def dinodeOf (c : Image) (i : Nat) : Dinode := .ofBytes (c (iblock sb i)).data (islot i)

/-- Change the contents of the locked buffer of block `b`. -/
def bmod (b : Nat) (f : Blk → Blk) : DevM Unit :=
  modify fun s => { s with cache := Function.update s.cache b (f (s.cache b)) }

/-- Change the contents of the locked buffer of block `b` and `log_write` it. -/
def logMod (b : Nat) (f : Blk → Blk) : DevM Unit := do
  bmod b f
  logWrite sb b

/-! ### Blocks -/

def bzero (b : Nat) : DevM Unit := do
  let _ ← bread b
  logMod sb b fun _ => Block.zero _

/-- The inner loop of `balloc`: the first clear bit in block `k` of the free map. -/
def ballocIn (k : Nat) : DevM (Option Nat) := do
  let bp ← bread (bblock sb (k * BPB))
  match (List.range (min BPB (sb.size - k * BPB))).find? fun bi => !bp.bit bi with
  | none => pure none
  | some bi => do
    logMod sb (bblock sb (k * BPB)) (·.setBit bi)
    bzero sb (k * BPB + bi)
    pure (some (k * BPB + bi))

def balloc : DevM Nat := do
  match ← findRange (ballocIn sb) 0 ((sb.size + BPB - 1) / BPB) with
  | some b => pure b
  | none => throw (.panic "balloc: out of blocks")

def bfree (b : Nat) : DevM Unit := do
  let bp ← bread (bblock sb b)
  failIf (bp.bit (b % BPB) = false) (.panic "freeing free block")
  logMod sb (bblock sb b) (·.clearBit (b % BPB))

/-! ### Inodes on disk -/

def iupdate (inum : Nat) (d : Dinode) : DevM Unit := do
  let _ ← bread (iblock sb inum)
  logMod sb (iblock sb inum) fun b => b.move (islot inum) d.bytes 64

/-- One turn of the loop of `ialloc`: mark inode `inum` allocated if it is free. The buffer is released between turns. -/
def iallocTry (type : BitVec 16) (inum : Nat) : DevM (Option Nat) := do
  let bp ← bread (iblock sb inum)
  if (Dinode.ofBytes bp.data (islot inum)).type = 0 then do
    logMod sb (iblock sb inum) fun b => b.move (islot inum) (Dinode.fresh type).bytes 64
    pure (some inum)
  else pure none

/-- The disk half of `ialloc`: mark the first free inode allocated. -/
def iallocDisk (type : BitVec 16) : DevM Nat := do
  match ← findRange (iallocTry sb type) 1 (sb.ninodes - 1) with
  | some inum => pure inum
  | none => throw (.panic "ialloc: no inodes")

/-! ### The block map -/

/-- `if((addr = ip->addrs[j]) == 0) ip->addrs[j] = addr = balloc(ip->dev);` -/
def addrAlloc (d : Dinode) (j : Nat) : DevM (Nat × Dinode) :=
  if d.addr j = 0 then do
    let a ← balloc sb
    pure (a, d.setAddr j a)
  else pure (d.addr j, d)

/-- `if((addr = a[e]) == 0){ a[e] = addr = balloc(ip->dev); log_write(bp); }` on the block of
pointers `blk`; in the innermost level of the double-indirect tree the block above is logged too. -/
def entryAlloc (blk e : Nat) (up : Option Nat) : DevM Nat := do
  let bp ← bread blk
  if u32 bp.data (4 * e) = 0 then do
    let a ← balloc sb
    logMod sb blk fun b => b.putU32 (4 * e) (BitVec.ofNat 32 a)
    match up with
    | none => pure a
    | some dblk => do
      logWrite sb dblk
      pure a
  else pure (u32 bp.data (4 * e)).toNat

def bmap (d : Dinode) (bn : Nat) : DevM (Nat × Dinode) :=
  if bn < NDIRECT then addrAlloc sb d bn
  else if bn - NDIRECT < NINDIRECT then do
    let (ind, d) ← addrAlloc sb d NDIRECT
    let a ← entryAlloc sb ind (bn - NDIRECT) none
    pure (a, d)
  else if bn - NDIRECT - NINDIRECT < NDINDIRECT then do
    let (dind, d) ← addrAlloc sb d (NDIRECT + 1)
    let leaf ← entryAlloc sb dind ((bn - NDIRECT - NINDIRECT) / NINDIRECT) none
    let a ← entryAlloc sb leaf ((bn - NDIRECT - NINDIRECT) % NINDIRECT) (some dind)
    pure (a, d)
  else throw (.panic "bmap: out of range")

/-- Free every block that the block of pointers `blk` names. -/
def freeEntries (blk : Nat) : DevM Unit := do
  let bp ← bread blk
  forRange (fun j _ =>
    if u32 bp.data (4 * j) = 0 then pure () else bfree sb (u32 bp.data (4 * j)).toNat) 0 NINDIRECT ()

def truncDirect (d : Dinode) : DevM Dinode :=
  forRange (fun i (d : Dinode) =>
    if d.addr i = 0 then pure d else do
      bfree sb (d.addr i)
      pure (d.setAddr i 0)) 0 NDIRECT d

def truncIndirect (d : Dinode) : DevM Dinode :=
  if d.addr NDIRECT = 0 then pure d else do
    freeEntries sb (d.addr NDIRECT)
    bfree sb (d.addr NDIRECT)
    pure (d.setAddr NDIRECT 0)

/-- Free the double-indirect block, its leaf blocks and what they name. The store `d[k] = 0` is made
in the buffer only. -/
def truncDouble (d : Dinode) : DevM Dinode :=
  if d.addr (NDIRECT + 1) = 0 then pure d else do
    let dbp ← bread (d.addr (NDIRECT + 1))
    forRange (fun k _ =>
      if u32 dbp.data (4 * k) = 0 then pure () else do
        freeEntries sb (u32 dbp.data (4 * k)).toNat
        bfree sb (u32 dbp.data (4 * k)).toNat
        bmod (d.addr (NDIRECT + 1)) fun b => b.putU32 (4 * k) 0) 0 NINDIRECT ()
    bfree sb (d.addr (NDIRECT + 1))
    pure (d.setAddr (NDIRECT + 1) 0)

def itrunc (inum : Nat) (d : Dinode) : DevM Dinode := do
  let d ← truncDirect sb d
  let d ← truncIndirect sb d
  let d ← truncDouble sb d
  iupdate sb inum { d with size := 0 }
  pure { d with size := 0 }

/-! ### Inode contents -/

/-- `devsw[CONSOLE].read`: the next delivery of the console, or -1 for a killed reader. -/
def consoleread (n : Nat) : DevM (Int × List Byte) := do
  match (← get).tape with
  | [] => pure (0, [])
  | none :: rest => do
    modify fun s => { s with tape := rest }
    pure (-1, [])
  | some bs :: rest => do
    modify fun s => { s with tape := rest }
    pure ((bs.take n).length, bs.take n)

/-- The loop of `readi`; `acc` is what has been copied out. -/
def readLoop (d : Dinode) (off n tot : Nat) (acc : List Byte) : DevM (List Byte × Dinode) :=
  if tot < n then do
    let (a, d) ← bmap sb d (off / BSIZE)
    let bp ← bread a
    let m := min (n - tot) (BSIZE - off % BSIZE)
    readLoop d (off + m) n (tot + m) (acc ++ bp.slice (off % BSIZE) m)
  else pure (acc, d)
termination_by n - tot
decreasing_by
  have := Nat.mod_lt off (show 0 < BSIZE by decide)
  omega

def readi (d : Dinode) (off n : Nat) : DevM ((Int × List Byte) × Dinode) :=
  if d.type = T_DEV then
    if d.major = CONSOLE then do
      let r ← consoleread n
      pure (r, d)
    else pure ((-1, []), d)
  else if d.size.toNat < off ∨ (off + n) % 2 ^ 32 < off then pure ((-1, []), d)
  else do
    let n := if d.size.toNat < (off + n) % 2 ^ 32 then d.size.toNat - off else n
    let (bs, d) ← readLoop sb d off n 0 []
    pure ((asInt n, bs), d)

def writeLoop (d : Dinode) (src : Nat → Byte) (off n tot : Nat) : DevM Dinode :=
  if tot < n then do
    let (a, d) ← bmap sb d (off / BSIZE)
    let _ ← bread a
    let m := min (n - tot) (BSIZE - off % BSIZE)
    logMod sb a fun b => b.move (off % BSIZE) (fun i => src (tot + i)) m
    writeLoop d src (off + m) n (tot + m)
  else pure d
termination_by n - tot
decreasing_by
  have := Nat.mod_lt off (show 0 < BSIZE by decide)
  omega

/-- `writei` of the `n` bytes at `src`; a grown size is written through with `iupdate`. -/
def writei (inum : Nat) (d : Dinode) (src : Nat → Byte) (off n : Nat) : DevM (Int × Dinode) :=
  if d.type = T_DEV then
    if d.major = CONSOLE then pure (asInt n, d) else pure (-1, d)
  else if d.size.toNat < off ∨ (off + n) % 2 ^ 32 < off then pure (-1, d)
  else if MAXFILE * BSIZE < (off + n) % 2 ^ 32 then pure (-1, d)
  else do
    let d ← writeLoop sb d src off n 0
    if 0 < n ∧ d.size.toNat < off + n then do
      iupdate sb inum { d with size := BitVec.ofNat 32 (off + n) }
      pure (asInt n, { d with size := BitVec.ofNat 32 (off + n) })
    else pure (asInt n, d)

end Xv6
