import Xv6.Sysfile

/-!
# Processes (`proc.c`, `exec.c`)

`fork`, `exit`, `wait` and `exec` as far as they touch open files, current directories and user
memory. Whether kernel memory is there is asked of `kalloc` once for each function that allocates.
-/

namespace Xv6

open Prog

abbrev PGSIZE : Nat := 4096
abbrev KERNBASE : Nat := 0x80000000
abbrev MAXARG : Nat := 32
abbrev ELF_MAGIC : BitVec 32 := 0x464C457F

variable (sb : Superblock)

/-! ### `proc.c` -/

def allocproc : KM (Option Nat) := do
  let k ← get
  match (List.range NPROC).find? fun p => decide ((k.ptable p).state = .UNUSED) with
  | none => pure none
  | some p => do
    setProc p fun q => { q with state := .EMBRYO, pid := k.nextpid }
    modify fun k => { k with nextpid := k.nextpid + 1 }
    let ok ← kalloc
    if ok = true then pure (some p)
    else do
      setProc p fun q => { q with state := .UNUSED }
      pure none

/-- Share descriptor `fd` with the child `np`. -/
def forkFile (np fd : Nat) : KM Unit := do
  match (← get).proc.ofile fd with
  | none => pure ()
  | some f => do
    filedup f
    setProc np fun q => { q with ofile := Function.update q.ofile fd (some f) }

def fork : KM Int := do
  let k ← get
  match ← allocproc with
  | none => pure (-1)
  | some np => do
    let ok ← kalloc
    if ok = false then do
      setProc np fun q => { q with state := .UNUSED }
      pure (-1)
    else do
      setProc np fun q => { q with sz := k.proc.sz, parent := some k.cur, esp := k.proc.esp, mem := k.proc.mem }
      forRange (fun fd _ => forkFile np fd) 0 NOFILE ()
      let cwd ← deref k.proc.cwd
      let cwd ← onFs (idup cwd)
      setProc np fun q => { q with cwd := some cwd, state := .RUNNABLE }
      pure ((← get).ptable np).pid

/-- Close descriptor `fd` of the caller. -/
def exitFile (fd : Nat) : KM Unit := do
  let k ← get
  match k.proc.ofile fd with
  | none => pure ()
  | some f => do
    fileclose sb f
    setProc k.cur fun p => { p with ofile := Function.update p.ofile fd none }

/-- `exit`; the caller stays a zombie until its parent waits for it. Process 0 is `initproc`. -/
def exit : KM Int := do
  let k ← get
  failIf (k.cur = 0) (.panic "init exiting")
  forRange (fun fd _ => exitFile sb fd) 0 NOFILE ()
  beginOpK
  let cwd ← deref k.proc.cwd
  onFs (iput sb cwd)
  endOpK sb
  setProc k.cur fun p => { p with cwd := none }
  modify fun k => { k with
    ptable := fun q =>
      if (k.ptable q).parent = some k.cur then { k.ptable q with parent := some 0 } else k.ptable q }
  setProc k.cur fun p => { p with state := .ZOMBIE }
  pure 0

def wait : KM Int := do
  let k ← get
  match (List.range NPROC).find? fun q => decide ((k.ptable q).parent = some k.cur ∧ (k.ptable q).state = .ZOMBIE) with
  | some q => do
    setProc q fun x => { x with pid := 0, parent := none, killed := false, state := .UNUSED }
    pure (k.ptable q).pid
  | none => do
    failIf ((∃ q, q < NPROC ∧ (k.ptable q).parent = some k.cur) ∧ k.proc.killed = false) .sleeps
    pure (-1)

/-! ### `exec.c` -/

def pgRoundUp (n : Nat) : Nat := (n + PGSIZE - 1) / PGSIZE * PGSIZE

/-- The pages between `oldsz` and `newsz`, if there are any. -/
def allocPages (oldsz newsz : Nat) : KM Bool :=
  if newsz ≤ pgRoundUp oldsz then pure true else kalloc

/-- The new size, or `none` for 0. Pages come zeroed. -/
def allocuvm (oldsz newsz : Nat) : KM (Option Nat) :=
  if KERNBASE ≤ newsz then pure none
  else if newsz < oldsz then pure (some oldsz)
  else do
    let ok ← allocPages oldsz newsz
    pure (if ok = true ∧ newsz ≠ 0 then some newsz else none)

/-- The user memory that `exec` builds up. -/
structure Program where
  sz : Nat
  mem : Nat → Byte

/-- One page of `loaduvm`. -/
def loadPage (ip vaddr off sz j : Nat) : Option (Nat → Byte) → FsM (Option (Nat → Byte))
  | none => pure none
  | some mem => do
    let n := min PGSIZE (sz - PGSIZE * j)
    let (r, bs) ← Icache.readi sb ip ((off + PGSIZE * j) % 2 ^ 32) n
    pure (if r = n then some (putBytes mem (vaddr + PGSIZE * j) bs) else none)

def loaduvm (ip vaddr off sz : Nat) (mem : Nat → Byte) : FsM (Option (Nat → Byte)) :=
  forRange (loadPage sb ip vaddr off sz) 0 ((sz + PGSIZE - 1) / PGSIZE) (some mem)

def loadSegment (ip phoff i : Nat) : Option Program → KM (Option Program)
  | none => pure none
  | some pr => do
    let (r, ph) ← onFs (Icache.readi sb ip ((phoff + 32 * i) % 2 ^ 32) 32)
    let word (p : Nat) : Nat := (u32 (fun k => ph.getD k 0) p).toNat
    let off := word 4
    let vaddr := word 8
    let filesz := word 16
    let memsz := word 20
    if r ≠ 32 then pure none
    else if word 0 ≠ 1 then pure (some pr)
    else if memsz < filesz ∨ (vaddr + memsz) % 2 ^ 32 < vaddr then pure none
    else do
      match ← allocuvm pr.sz (vaddr + memsz) with
      | none => pure none
      | some sz =>
        if vaddr % PGSIZE ≠ 0 then pure none
        else do
          match ← onFs (loaduvm sb ip vaddr off filesz pr.mem) with
          | none => pure none
          | some mem => pure (some ⟨sz, mem⟩)

/-- Check the ELF header of the locked inode `ip` and load its segments. -/
def execLoad (ip : Nat) : KM (Option Program) := do
  let (r, elf) ← onFs (Icache.readi sb ip 0 52)
  let at_ (k : Nat) : Byte := elf.getD k 0
  if r ≠ 52 ∨ u32 at_ 0 ≠ ELF_MAGIC then pure none
  else do
    let ok ← kalloc
    if ok = false then pure none
    else forRange (loadSegment sb ip (u32 at_ 28).toNat) 0 (u16 at_ 44).toNat (some ⟨0, fun _ => 0⟩)

/-- `copyout` to the top of the stack: it fails below the one stack page. -/
def pushBytes (sz : Nat) (mem : Nat → Byte) (sp : Nat) (bs : List Byte) : Option (Nat → Byte) :=
  if sp < sz - PGSIZE then none else some (putBytes mem sp bs)

def pushArgs (sz : Nat) : List (List Byte) → (Nat → Byte) → Nat → List Nat → Option ((Nat → Byte) × Nat × List Nat)
  | [], mem, sp, ptrs => some (mem, sp, ptrs)
  | arg :: argv, mem, sp, ptrs => do
    if MAXARG ≤ ptrs.length then none
    else do
      let sp := (sp - (arg.length + 1)) / 4 * 4
      let mem ← pushBytes sz mem sp (arg ++ [0])
      pushArgs sz argv mem sp (sp :: ptrs)

def execStack (sz : Nat) (mem : Nat → Byte) (argv : List (List Byte)) : Option ((Nat → Byte) × Nat) := do
  let (mem, sp, ptrs) ← pushArgs sz argv mem sz []
  let ustack := [0xffffffff, ptrs.length, sp - (ptrs.length + 1) * 4] ++ ptrs.reverse ++ [0]
  let sp := sp - (3 + ptrs.length + 1) * 4
  let mem ← pushBytes sz mem sp (ustack.flatMap fun v => (List.range 4).map (leByte v))
  some (mem, sp)

def exec (path : List Byte) (argv : List (List Byte)) : KM Int := do
  beginOpK
  let k ← get
  match ← onFs (namei sb k.proc.cwd path) with
  | none => do
    endOpK sb
    pure (-1)
  | some ip => do
    onFs (ilock sb ip)
    match ← execLoad sb ip with
    | none => do
      onFs (iunlockput sb ip)
      endOpK sb
      pure (-1)
    | some pr => do
      onFs (iunlockput sb ip)
      endOpK sb
      match ← allocuvm (pgRoundUp pr.sz) (pgRoundUp pr.sz + 2 * PGSIZE) with
      | none => pure (-1)
      | some sz => do
        match execStack sz pr.mem argv with
        | none => pure (-1)
        | some (mem, sp) => do
          setProc k.cur fun p => { p with sz := sz, mem := mem, esp := BitVec.ofNat 32 sp }
          pure 0

/-- The argument vector at `uargv`: at most `n` slots, the last one null. -/
def Proc.fetchArgv (p : Proc) (uargv : BitVec 32) : (n : Nat) → Option (List (List Byte))
  | 0 => none
  | n + 1 => do
    let uarg ← p.fetchint uargv
    if uarg = 0 then some []
    else do
      let s ← p.fetchstr uarg
      let rest ← p.fetchArgv (uargv + 4) n
      some (s :: rest)

def sysExec : KM Int := do
  let p := (← get).proc
  match p.argstr 0, (p.argint 1).bind (p.fetchArgv · MAXARG) with
  | some path, some argv => exec sb path argv
  | _, _ => pure (-1)

end Xv6
