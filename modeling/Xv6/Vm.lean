import Xv6.Process

/-!
# Physical pages and page tables (`kalloc.c`, `vm.c`, `growproc`)

A physical page is named by its frame number, and the physical memory is the contents of every frame. A page directory
or a page table is a page read as 1024 words. `kalloc` takes pages from a free list; a list of booleans decides whether
it fails although the free list is not empty.

Addresses are 32-bit numbers held in `Nat`. An access of the kernel to an address that is not mapped stops the model
with the panic of `trap`.
-/

namespace Xv6.Vm

open Prog

abbrev EXTMEM : Nat := 0x100000
abbrev PHYSTOP : Nat := 0xE000000
abbrev DEVSPACE : Nat := 0xFE000000
abbrev KERNLINK : Nat := KERNBASE + EXTMEM
abbrev NPDENTRIES : Nat := 1024

abbrev PTE_P : BitVec 32 := 1
abbrev PTE_W : BitVec 32 := 2
abbrev PTE_U : BitVec 32 := 4

abbrev Page := Block PGSIZE

/-- Where the linker puts the kernel: the physical addresses of the symbols `data` and `end`. -/
structure Link where
  data : Nat
  kend : Nat
  aligned : data % PGSIZE = 0
  text : EXTMEM < data
  lt_end : data < kend
  end_le : kend ≤ PHYSTOP

/-- `struct pipe` in the page with a given frame number, without its bytes. -/
structure Ends where
  readopen : Bool
  writeopen : Bool
deriving DecidableEq

structure File where
  type : FdType
  ref : Int
  readable : Bool
  writable : Bool
  pipe : Nat

/-- `struct proc`, with null pointers as `none`. -/
structure Proc where
  state : ProcState
  pid : Nat
  parent : Option Nat
  killed : Bool
  ofile : Nat → Option Nat
  sz : Nat
  pgdir : Option Nat
  kstack : Option Nat

structure Machine where
  mem : Nat → Page
  freelist : List Nat
  /-- Whether successive calls of `kalloc` fail; past the end only an empty free list makes them fail. -/
  fails : List Bool
  ptable : Nat → Proc
  cur : Nat
  nextpid : Nat
  ftable : Nat → File
  pipes : Nat → Ends

def Machine.proc (m : Machine) : Proc := m.ptable m.cur

abbrev VM := Prog Machine Fault

def setPage (x : Nat) (pg : Page) : VM Unit := modify fun m => { m with mem := Function.update m.mem x pg }

def setProc (p : Nat) (g : Proc → Proc) : VM Unit :=
  modify fun m => { m with ptable := Function.update m.ptable p (g (m.ptable p)) }

def deref (x : Option Nat) (msg : String) : VM Nat :=
  match x with
  | some x => pure x
  | none => throw (.panic msg)

/-! ### `kalloc.c` -/

def kalloc : VM (Option Nat) := do
  let m ← get
  match m.fails, m.freelist with
  | true :: rest, _ => do
    set { m with fails := rest }
    pure none
  | _, [] => pure none
  | fails, x :: xs => do
    set { m with freelist := xs, fails := fails.tail }
    pure (some x)

def kfree (L : Link) (x : Nat) : VM Unit := do
  failIf (PGSIZE * x < L.kend ∨ PHYSTOP ≤ PGSIZE * x) (.panic "kfree")
  setPage x ((Block.zero PGSIZE).move 0 (fun _ => 1) PGSIZE)
  modify fun m => { m with freelist := x :: m.freelist }

/-! ### Entries -/

/-- One of the bits of `flag` is set. -/
def has (w flag : BitVec 32) : Prop := w &&& flag ≠ 0

instance (w flag : BitVec 32) : Decidable (has w flag) := inferInstanceAs (Decidable (_ ≠ _))

def pteAddr (w : BitVec 32) : BitVec 32 := w &&& ~~~0xFFF

def pteFlags (w : BitVec 32) : BitVec 32 := w &&& 0xFFF

def frame (w : BitVec 32) : Nat := (pteAddr w).toNat / PGSIZE

/-- Entry `i` of a page directory or page table. -/
def entry (pg : Page) (i : Nat) : BitVec 32 := u32 pg.data (4 * i)

def setEntry (x i : Nat) (w : BitVec 32) : VM Unit := do
  setPage x (((← get).mem x).putU32 (4 * i) w)

def pdx (va : Nat) : Nat := va / 2 ^ 22 % 1024

def ptx (va : Nat) : Nat := va / 2 ^ 12 % 1024

def pgRoundDown (a : Nat) : Nat := a / PGSIZE * PGSIZE

/-! ### `vm.c` -/

/-- The page table and the index of the entry for `va`; `none` is the null pointer. -/
def walkpgdir (d va : Nat) (alloc : Bool) : VM (Option (Nat × Nat)) := do
  let pde := entry ((← get).mem d) (pdx va)
  if has pde PTE_P then pure (some (frame pde, ptx va))
  else if alloc = false then pure none
  else do
    match ← kalloc with
    | none => pure none
    | some t => do
      setPage t (Block.zero PGSIZE)
      setEntry d (pdx va) (BitVec.ofNat 32 (PGSIZE * t) ||| PTE_P ||| PTE_W ||| PTE_U)
      pure (some (t, ptx va))

/-- The loop of `mappages` over `cnt` pages. -/
def mapLoop (d : Nat) (perm : BitVec 32) : (cnt a pa : Nat) → VM Bool
  | 0, _, _ => pure true
  | cnt + 1, a, pa => do
    match ← walkpgdir d a true with
    | none => pure false
    | some (t, j) => do
      failIf (has (entry ((← get).mem t) j) PTE_P) (.panic "remap")
      setEntry t j (BitVec.ofNat 32 pa ||| perm ||| PTE_P)
      mapLoop d perm cnt (a + PGSIZE) (pa + PGSIZE)

def mappages (d va size pa : Nat) (perm : BitVec 32) : VM Bool :=
  mapLoop d perm ((pgRoundDown (va + size - 1) - pgRoundDown va) / PGSIZE + 1) (pgRoundDown va) pa

/-- `struct kmap`; `size` is `phys_end - phys_start`. -/
structure Kmap where
  virt : Nat
  phys : Nat
  size : Nat
  perm : BitVec 32

def kmap (L : Link) : List Kmap :=
  [⟨KERNBASE, 0, EXTMEM, PTE_W⟩, ⟨KERNLINK, EXTMEM, L.data - EXTMEM, 0⟩,
    ⟨KERNBASE + L.data, L.data, PHYSTOP - L.data, PTE_W⟩, ⟨DEVSPACE, DEVSPACE, 2 ^ 32 - DEVSPACE, PTE_W⟩]

variable (L : Link)

/-- The loop of `deallocuvm`; where a page table is missing it goes on at the next one. -/
def deallocLoop (d oldsz a : Nat) : VM Unit :=
  if _h : a < oldsz then do
    match ← walkpgdir d a false with
    | none => deallocLoop d oldsz ((a / 2 ^ 22 + 1) * 2 ^ 22)
    | some (t, j) => do
      let w := entry ((← get).mem t) j
      if has w PTE_P then do
        failIf (pteAddr w = 0) (.panic "kfree")
        kfree L (frame w)
        setEntry t j 0
        deallocLoop d oldsz (a + PGSIZE)
      else deallocLoop d oldsz (a + PGSIZE)
  else pure ()
termination_by oldsz - a
decreasing_by
  · omega
  all_goals
    simp only [PGSIZE]
    omega

def deallocuvm (d oldsz newsz : Nat) : VM Nat :=
  if oldsz ≤ newsz then pure oldsz
  else do
    deallocLoop L d oldsz (pgRoundUp newsz)
    pure newsz

/-- Give back the page table of directory entry `i`. -/
def freeTable (d i : Nat) : VM Unit := do
  let pde := entry ((← get).mem d) i
  if has pde PTE_P then kfree L (frame pde) else pure ()

def freevm (d : Nat) : VM Unit := do
  let _ ← deallocuvm L d KERNBASE 0
  forRange (fun i _ => freeTable L d i) 0 NPDENTRIES ()
  kfree L d

def mapAll (d : Nat) : List Kmap → VM Bool
  | [] => pure true
  | k :: ks => do
    if ← mappages d k.virt k.size k.phys k.perm then mapAll d ks else pure false

def setupkvm : VM (Option Nat) := do
  match ← kalloc with
  | none => pure none
  | some d => do
    setPage d (Block.zero PGSIZE)
    failIf (DEVSPACE < KERNBASE + PHYSTOP) (.panic "PHYSTOP too high")
    if ← mapAll d (kmap L) then pure (some d)
    else do
      freevm L d
      pure none

def allocLoop (d oldsz newsz a : Nat) : VM Bool :=
  if _h : a < newsz then do
    match ← kalloc with
    | none => do
      let _ ← deallocuvm L d newsz oldsz
      pure false
    | some x => do
      setPage x (Block.zero PGSIZE)
      if ← mappages d a PGSIZE (PGSIZE * x) (PTE_W ||| PTE_U) then allocLoop d oldsz newsz (a + PGSIZE)
      else do
        let _ ← deallocuvm L d newsz oldsz
        kfree L x
        pure false
  else pure true
termination_by newsz - a
decreasing_by
  simp only [PGSIZE]
  omega

def allocuvm (d oldsz newsz : Nat) : VM Nat :=
  if KERNBASE ≤ newsz then pure 0
  else if newsz < oldsz then pure oldsz
  else do
    if ← allocLoop L d oldsz newsz (pgRoundUp oldsz) then pure newsz else pure 0

def clearpteu (d va : Nat) : VM Unit := do
  match ← walkpgdir d va false with
  | none => throw (.panic "clearpteu")
  | some (t, j) => setEntry t j (entry ((← get).mem t) j &&& ~~~PTE_U)

/-- The loop of `copyuvm`, from the directory `s` to the directory `d`. -/
def copyLoop (s d sz i : Nat) : VM Bool :=
  if _h : i < sz then do
    match ← walkpgdir s i false with
    | none => throw (.panic "copyuvm: pte should exist")
    | some (t, j) => do
      let w := entry ((← get).mem t) j
      failIf (¬ has w PTE_P) (.panic "copyuvm: page not present")
      match ← kalloc with
      | none => pure false
      | some x => do
        setPage x ((← get).mem (frame w))
        if ← mappages d i PGSIZE (PGSIZE * x) (pteFlags w) then copyLoop s d sz (i + PGSIZE)
        else do
          kfree L x
          pure false
  else pure true
termination_by sz - i
decreasing_by
  simp only [PGSIZE]
  omega

def copyuvm (s sz : Nat) : VM (Option Nat) := do
  match ← setupkvm L with
  | none => pure none
  | some d => do
    if ← copyLoop L s d sz 0 then pure (some d)
    else do
      freevm L d
      pure none

def loadNull : VM (BitVec 32) := do
  let d ← deref (← get).proc.pgdir "trap"
  match ← walkpgdir d 0 false with
  | none => throw (.panic "trap")
  | some (t, j) => do
    let w := entry ((← get).mem t) j
    failIf (¬ has w PTE_P) (.panic "trap")
    pure (entry ((← get).mem (frame w)) 0)

/-- The entry that `walkpgdir` found; it is read without a test for the null pointer. -/
def loadPte (r : Option (Nat × Nat)) : VM (BitVec 32) :=
  match r with
  | some (t, j) => do pure (entry ((← get).mem t) j)
  | none => loadNull

def uva2ka (d va : Nat) : VM (Option Nat) := do
  let w ← loadPte (← walkpgdir d va false)
  if ¬ has w PTE_P then pure none
  else if ¬ has w PTE_U then pure none
  else pure (some (frame w))

/-- `memmove(P2V(x) + off, bs, …)`; kernel text is mapped read-only. -/
def kstore (x off : Nat) (bs : List Byte) : VM Unit := do
  failIf (PHYSTOP ≤ PGSIZE * x ∨ EXTMEM ≤ PGSIZE * x ∧ PGSIZE * x < L.data) (.panic "trap")
  setPage x (((← get).mem x).move off (fun k => bs.getD k 0) bs.length)

def copyout (d va : Nat) (bs : List Byte) : VM Bool :=
  if h : bs = [] then pure true
  else do
    match ← uva2ka d (pgRoundDown va) with
    | none => pure false
    | some x => do
      kstore L x (va - pgRoundDown va) (bs.take (PGSIZE - (va - pgRoundDown va)))
      copyout d ((pgRoundDown va + PGSIZE) % 2 ^ 32) (bs.drop (PGSIZE - (va - pgRoundDown va)))
termination_by bs.length
decreasing_by
  have := List.length_pos_iff.2 h
  rw [List.length_drop]
  simp only [pgRoundDown, PGSIZE]
  omega

/-! ### `growproc` -/

def growproc (n : Int) : VM Int := do
  let m ← get
  let d ← deref m.proc.pgdir "trap"
  let newsz := ((m.proc.sz + n) % 2 ^ 32).toNat
  if n = 0 then pure 0
  else do
    let sz ← if 0 < n then allocuvm L d m.proc.sz newsz else deallocuvm L d m.proc.sz newsz
    if sz = 0 then pure (-1)
    else do
      setProc m.cur fun p => { p with sz := sz }
      pure 0

end Xv6.Vm
