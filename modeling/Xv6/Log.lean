import Xv6.Bytes
import Xv6.Prog
import Mathlib.Data.List.Nodup

/-!
# The block device and the log (`log.c`)

`Dev` is what lies below the file system: the disk, the contents `bread` would return for each
block, and the log. The buffer cache is modelled by its interface: `cache b` is the data a caller
finds in the locked buffer of block `b`, `bput` stores into it, `bwrite` writes it through. `hist`
records every image the disk has had, newest first, so that a crash after any disk write is an
element of it. A crash loses everything but the disk (`boot`).
-/

namespace Xv6

open Prog Function

/-! ### `param.h`, `fs.h` -/

abbrev BSIZE : Nat := 512
abbrev MAXOPBLOCKS : Nat := 10
abbrev LOGSIZE : Nat := MAXOPBLOCKS * 3
abbrev FSSIZE : Nat := 20000

abbrev Blk := Block BSIZE
abbrev Image := Nat → Blk

structure Superblock where
  size : Nat
  nblocks : Nat
  ninodes : Nat
  nlog : Nat
  logstart : Nat
  inodestart : Nat
  bmapstart : Nat
deriving DecidableEq, Repr

/-- Why a kernel path stops: `panic`, a sleep nothing will end, or a loop still running. -/
inductive Fault where
  | panic (msg : String)
  | sleeps
  | spins
deriving DecidableEq, Repr

/-- `struct log`: `start` and `size` are `sb.logstart` and `sb.nlog`, as `initlog` sets them; `lh`
is the in-memory header, `lh.length` its `n`. -/
structure Log where
  outstanding : Int
  committing : Bool
  lh : List Nat

structure Dev where
  disk : Image
  cache : Image
  log : Log
  /-- The images the disk has had since `boot`, newest first. -/
  hist : List Image
  /-- What the console will deliver to successive reads; `none` is a killed reader. -/
  tape : List (Option (List Byte))

abbrev DevM := Prog Dev Fault

def boot (d : Image) (tape : List (Option (List Byte))) : Dev :=
  { disk := d, cache := d, log := ⟨0, false, []⟩, hist := [], tape := tape }

/-! ### `bio.c` -/

/-- The contents of block `b`; `idestart` refuses block numbers past the disk. -/
def bread (b : Nat) : DevM Blk := do
  failIf (FSSIZE ≤ b) (.panic "incorrect blockno")
  return (← get).cache b

/-- Store into the locked buffer of block `b`. -/
def bput (b : Nat) (v : Blk) : DevM Unit :=
  modify fun s => { s with cache := update s.cache b v }

def bwrite (b : Nat) : DevM Unit :=
  modify fun s =>
    let d := update s.disk b (s.cache b)
    { s with disk := d, hist := d :: s.hist }

/-! ### `log.c` -/

/-- `n` of the header stored in a block. -/
def headN (b : Blk) : Int := (u32 b.data 0).toInt

/-- The block numbers that `read_head` copies from the header block. -/
def decodeHead (b : Blk) : List Nat :=
  (List.range (headN b).toNat).map fun i => (u32 b.data (4 + 4 * i)).toNat

/-- Store the words `l` from byte position `p` on. -/
def putWords (b : Blk) (p : Nat) : List Nat → Blk
  | [] => b
  | x :: l => putWords (b.putU32 p (BitVec.ofNat 32 x)) (p + 4) l

/-- The header block after `write_head`: entries past `n` keep what the block held. -/
def encodeHead (b : Blk) (lh : List Nat) : Blk :=
  putWords (b.putU32 0 (BitVec.ofNat 32 lh.length)) 4 lh

variable (sb : Superblock)

def installTrans : DevM Unit := do
  let lh := (← get).log.lh
  forRange (fun tail _ => do
    let lbuf ← bread (sb.logstart + tail + 1)
    let _ ← bread (lh.getD tail 0)
    bput (lh.getD tail 0) lbuf
    bwrite (lh.getD tail 0)) 0 lh.length ()

def readHead : DevM Unit := do
  let buf ← bread sb.logstart
  modify fun s => { s with log := { s.log with lh := decodeHead buf } }

def writeHead : DevM Unit := do
  let buf ← bread sb.logstart
  let lh := (← get).log.lh
  bput sb.logstart (encodeHead buf lh)
  bwrite sb.logstart

def clearHead : DevM Unit := modify fun s => { s with log := { s.log with lh := [] } }

def recoverFromLog : DevM Unit := do
  readHead sb
  installTrans sb
  clearHead
  writeHead sb

/-- `begin_op`; it sleeps while a commit is running or the log might run out of space. -/
def beginOp : DevM Unit := do
  let l := (← get).log
  failIf (l.committing = true) .sleeps
  failIf ((LOGSIZE : Int) < l.lh.length + (l.outstanding + 1) * MAXOPBLOCKS) .sleeps
  modify fun s => { s with log := { s.log with outstanding := s.log.outstanding + 1 } }

def writeLog : DevM Unit := do
  let lh := (← get).log.lh
  forRange (fun tail _ => do
    let _ ← bread (sb.logstart + tail + 1)
    let frm ← bread (lh.getD tail 0)
    bput (sb.logstart + tail + 1) frm
    bwrite (sb.logstart + tail + 1)) 0 lh.length ()

def commit : DevM Unit := do
  let lh := (← get).log.lh
  if 0 < lh.length then do
    writeLog sb
    writeHead sb
    installTrans sb
    clearHead
    writeHead sb
  else pure ()

def setCommitting (c : Bool) : DevM Unit :=
  modify fun s => { s with log := { s.log with committing := c } }

def endOp : DevM Unit := do
  modify fun s => { s with log := { s.log with outstanding := s.log.outstanding - 1 } }
  let l := (← get).log
  failIf (l.committing = true) (.panic "log.committing")
  if l.outstanding = 0 then do
    setCommitting true
    commit sb
    setCommitting false
  else pure ()

/-- The header after `log_write` of block `b`, absorbed if it is there already. -/
def absorb (lh : List Nat) (b : Nat) : List Nat := if b ∈ lh then lh else lh ++ [b]

/-- `log_write` on the buffer of block `b`; the size test comes before absorption. -/
def logWrite (b : Nat) : DevM Unit := do
  let l := (← get).log
  failIf (LOGSIZE ≤ l.lh.length ∨ sb.nlog ≤ l.lh.length + 1) (.panic "too big a transaction")
  failIf (l.outstanding < 1) (.panic "log_write outside of trans")
  modify fun s => { s with log := { s.log with lh := absorb s.log.lh b } }

/-! ### Rules for the primitives -/

section Wp

variable {E : Fault → Prop} {s : Dev}

@[simp] theorem wp_bread {b : Nat} {Q : Blk → Dev → Prop} : wp (bread b) Q E s ↔
    (FSSIZE ≤ b → E (.panic "incorrect blockno")) ∧ (¬ FSSIZE ≤ b → Q (s.cache b) s) := by
  simp [bread]

@[simp] theorem wp_bput {b : Nat} {v : Blk} {Q : Unit → Dev → Prop} :
    wp (bput b v) Q E s ↔ Q () { s with cache := update s.cache b v } := Iff.rfl

@[simp] theorem wp_bwrite {b : Nat} {Q : Unit → Dev → Prop} : wp (bwrite b) Q E s ↔
    Q () { s with disk := update s.disk b (s.cache b),
                  hist := update s.disk b (s.cache b) :: s.hist } := Iff.rfl

@[simp] theorem wp_clearHead {Q : Unit → Dev → Prop} :
    wp clearHead Q E s ↔ Q () { s with log := { s.log with lh := [] } } := Iff.rfl

@[simp] theorem wp_setCommitting {c : Bool} {Q : Unit → Dev → Prop} :
    wp (setCommitting c) Q E s ↔ Q () { s with log := { s.log with committing := c } } := Iff.rfl

end Wp

/-! ### Absorption -/

@[simp] theorem mem_absorb {lh : List Nat} {b x : Nat} : x ∈ absorb lh b ↔ x ∈ lh ∨ x = b := by
  unfold absorb
  split
  · next h => exact ⟨.inl, fun h' => h'.elim id fun e => e ▸ h⟩
  · rw [List.mem_append, List.mem_singleton]

theorem length_absorb_le (lh : List Nat) (b : Nat) : (absorb lh b).length ≤ lh.length + 1 := by
  unfold absorb
  split
  · omega
  · exact Nat.le_of_eq (List.length_append ..)

theorem nodup_absorb {lh : List Nat} (h : lh.Nodup) (b : Nat) : (absorb lh b).Nodup := by
  unfold absorb
  split
  · exact h
  · next hb =>
    rw [List.nodup_append]
    exact ⟨h, List.nodup_singleton b, fun a ha c hc e => hb (List.mem_singleton.1 hc ▸ e ▸ ha)⟩

/-! ### The header block -/

theorem u32_putWords_of_lt {q : Nat} : ∀ (l : List Nat) (b : Blk) (p : Nat), q + 4 ≤ p →
    u32 (putWords b p l).data q = u32 b.data q
  | [], _, _, _ => rfl
  | x :: l, b, p, h => by
    rw [putWords, u32_putWords_of_lt l _ _ (by omega), Block.u32_putU32_of_disjoint _ _ (.inl h)]

theorem u32_putWords : ∀ (l : List Nat) (b : Blk) (p i : Nat) (hi : i < l.length),
    p + 4 * l.length ≤ 512 → u32 (putWords b p l).data (p + 4 * i) = BitVec.ofNat 32 l[i]
  | x :: l, b, p, 0, _, h => by
    simp only [List.length_cons] at h
    simp only [putWords, Nat.mul_zero, Nat.add_zero, List.getElem_cons_zero]
    rw [u32_putWords_of_lt l _ _ (Nat.le_refl _), Block.u32_putU32 _ _ (by simp only [BSIZE]; omega)]
  | x :: l, b, p, i + 1, hi, h => by
    simp only [List.length_cons] at h hi
    rw [putWords, show p + 4 * (i + 1) = p + 4 + 4 * i by omega,
      u32_putWords l _ _ i (by omega) (by omega)]
    rfl

theorem headN_encodeHead (b : Blk) {lh : List Nat} (h : lh.length ≤ 30) :
    headN (encodeHead b lh) = lh.length := by
  unfold headN encodeHead
  rw [u32_putWords_of_lt lh _ _ (by omega), Block.u32_putU32 _ _ (by decide)]
  rw [BitVec.toInt_eq_toNat_of_lt] <;> rw [BitVec.toNat_ofNat] <;> omega

theorem decodeHead_encodeHead (b : Blk) {lh : List Nat} (h : lh.length ≤ 30)
    (hlt : ∀ x ∈ lh, x < FSSIZE) : decodeHead (encodeHead b lh) = lh := by
  have hlen : (decodeHead (encodeHead b lh)).length = lh.length := by
    simp [decodeHead, headN_encodeHead b h]
  refine List.ext_getElem hlen fun i h1 h2 => ?_
  have hx : lh[i] < 20000 := hlt _ (List.getElem_mem h2)
  simp only [decodeHead, List.getElem_map, List.getElem_range, encodeHead]
  rw [u32_putWords lh _ 4 i h2 (by omega), BitVec.toNat_ofNat]
  omega

theorem decodeHead_of_headN {b : Blk} (h : headN b = 0) : decodeHead b = [] := by
  simp [decodeHead, h]

end Xv6
