import Xv6.Kernel

/-!
# The user heap (`umalloc.c`)

`malloc` and `free` keep a circular list of free blocks in the order of their addresses. Every block
starts with a header of 8 bytes that has the next free block and the size in units of a header; `base`
is an empty block below the heap. Addresses and sizes are unsigned words. A loop that goes through more
headers than there are addresses never ends, which is the fault `spins`.
-/

namespace Xv6.Umalloc

open Prog

structure Header where
  ptr : Nat
  size : Nat
deriving DecidableEq

structure Heap where
  /-- The header at an address. -/
  hdr : Nat → Header
  /-- `freep`, 0 before the first call. -/
  freep : Nat
  /-- The end of the memory that `sbrk` has given. -/
  brk : Nat
  /-- Whether the next calls of `sbrk` are refused. -/
  refused : List Bool

abbrev HM : Type → Type := Prog Heap Fault

/-- `p + n` for a pointer to headers. -/
def plus (p n : Nat) : Nat := (p + 8 * n) % 2 ^ 32

def setPtr (p v : Nat) : HM Unit := modify fun s => { s with hdr := Function.update s.hdr p { s.hdr p with ptr := v } }

def setSize (p v : Nat) : HM Unit := modify fun s => { s with hdr := Function.update s.hdr p { s.hdr p with size := v % 2 ^ 32 } }

def setFreep (p : Nat) : HM Unit := modify fun s => { s with freep := p }

@[irreducible] def steps : Nat := 2 ^ 32

/-- Where the loop of `free` stops. -/
def Between (hdr : Nat → Header) (bp p : Nat) : Prop :=
  (p < bp ∧ bp < (hdr p).ptr) ∨ ((hdr p).ptr ≤ p ∧ (p < bp ∨ bp < (hdr p).ptr))

instance (hdr : Nat → Header) (bp p : Nat) : Decidable (Between hdr bp p) := by
  unfold Between
  infer_instance

def freeLoop (bp : Nat) : (fuel p : Nat) → HM Nat
  | 0, _ => throw .spins
  | fuel + 1, p => do
    let s ← get
    if Between s.hdr bp p then pure p else freeLoop bp fuel (s.hdr p).ptr

/-- `free` puts the block between `p` and the block after it, first joined with that one. -/
def putUpper (bp p : Nat) : HM Unit := do
  let s ← get
  let q := (s.hdr p).ptr
  if plus bp (s.hdr bp).size = q then do
    setSize bp ((s.hdr bp).size + (s.hdr q).size)
    setPtr bp (s.hdr q).ptr
  else setPtr bp q

def putLower (bp p : Nat) : HM Unit := do
  let s ← get
  if plus p (s.hdr p).size = bp then do
    setSize p ((s.hdr p).size + (s.hdr bp).size)
    setPtr p (s.hdr bp).ptr
  else setPtr p bp

def free (ap : Nat) : HM Unit := do
  let bp := ap - 8
  let p ← freeLoop bp steps (← get).freep
  putUpper bp p
  putLower bp p
  setFreep p

/-- `sbrk` of `n` bytes: -1, or the old end of the heap. The kernel gives no memory at `KERNBASE` or above. -/
def sbrk (n : Nat) : HM Nat := do
  failIf (2 ^ 31 ≤ n) (.panic "sbrk of a negative size")
  let s ← get
  modify fun s => { s with refused := s.refused.tail }
  if s.refused.headD false = true ∨ 2 ^ 31 ≤ s.brk + n then pure (2 ^ 32 - 1)
  else do
    modify fun s => { s with brk := s.brk + n }
    pure s.brk

def morecore (nu : Nat) : HM Nat := do
  let nu := if nu < 4096 then 4096 else nu
  let p ← sbrk (nu * 8 % 2 ^ 32)
  if p = 2 ^ 32 - 1 then pure 0
  else do
    setSize p nu
    free (plus p 1)
    return (← get).freep

def nunits (nbytes : Nat) : Nat := (nbytes + 8 - 1) % 2 ^ 32 / 8 + 1

/-- The block `p` after `prevp` is large enough. -/
def take (nunits prevp p : Nat) : HM Nat := do
  let s ← get
  if (s.hdr p).size = nunits then do
    setPtr prevp (s.hdr p).ptr
    setFreep prevp
    pure (plus p 1)
  else do
    let n := (s.hdr p).size - nunits
    setSize p n
    setSize (plus p n) nunits
    setFreep prevp
    pure (plus (plus p n) 1)

def mallocLoop (nunits : Nat) : (fuel prevp p : Nat) → HM Nat
  | 0, _, _ => throw .spins
  | fuel + 1, prevp, p => do
    let s ← get
    if nunits ≤ (s.hdr p).size then take nunits prevp p
    else if p = s.freep then do
      let p ← morecore nunits
      if p = 0 then pure 0 else mallocLoop nunits fuel p ((← get).hdr p).ptr
    else mallocLoop nunits fuel p (s.hdr p).ptr

/-- The first call of `malloc` makes the list; `base` is the address of the static header. -/
def init (base : Nat) : HM Unit := do
  let s ← get
  if s.freep = 0 then set { s with hdr := Function.update s.hdr base ⟨base, 0⟩, freep := base }
  else pure ()

def malloc (base nbytes : Nat) : HM Nat := do
  init base
  let s ← get
  mallocLoop (nunits nbytes) steps s.freep (s.hdr s.freep).ptr

end Xv6.Umalloc
