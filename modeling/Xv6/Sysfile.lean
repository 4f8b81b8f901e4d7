import Xv6.Kernel

/-!
# File-system calls (`sysfile.c`)

Each call fetches its arguments from the calling process, then works on the file system inside its
own transaction. `sys_encr` and `sys_decr` are one function of the cipher and of the flag they set.
-/

namespace Xv6

open Prog

abbrev O_WRONLY : BitVec 32 := 1
abbrev O_RDWR : BitVec 32 := 2
abbrev O_CREATE : BitVec 32 := 0x200

variable (sb : Superblock)

/-! ### On inodes -/

/-- Change the fields of the locked entry `ip` and write them to disk. -/
def setFields (ip : Nat) (g : Dinode → Dinode) : FsM Unit := do
  setInode ip fun e => { e with d := g e.d }
  Icache.iupdate sb ip

/-- The `bad:` exit of `sys_link`. -/
def linkBad (ip : Nat) : FsM Int := do
  ilock sb ip
  setFields sb ip fun d => { d with nlink := d.nlink - 1 }
  iunlockput sb ip
  onDev (endOp sb)
  pure (-1)

/-- `!(dp->dev != ip->dev || dirlink(dp, name, ip->inum) < 0)` -/
def linkEntry (dp ip : Nat) (name : List Byte) : FsM Bool := do
  let s ← get
  if (s.icache dp).dev ≠ (s.icache ip).dev then pure false
  else do
    let r ← dirlink sb dp name (s.icache ip).inum
    pure (decide (0 ≤ r))

def link (cwd : Option Nat) (old new : List Byte) : FsM Int := do
  onDev beginOp
  match ← namei sb cwd old with
  | none => do
    onDev (endOp sb)
    pure (-1)
  | some ip => do
    ilock sb ip
    let e := (← get).icache ip
    if e.d.type = T_DIR then do
      iunlockput sb ip
      onDev (endOp sb)
      pure (-1)
    else do
      setFields sb ip fun d => { d with nlink := d.nlink + 1 }
      iunlock ip
      match ← nameiparent sb cwd new with
      | none => linkBad sb ip
      | some (dp, name) => do
        ilock sb dp
        let ok ← linkEntry sb dp ip name
        iunlockput sb dp
        if ok = true then do
          iput sb ip
          onDev (endOp sb)
          pure 0
        else linkBad sb ip

/-- Is the directory `dp` empty except for `.` and `..`? -/
def isdirempty (dp : Nat) : FsM Bool := do
  let e := (← get).icache dp
  let r ← findRange (fun k => do
    let de ← readDirent sb dp (16 * k) "isdirempty: readi"
    pure (if deInum de ≠ 0 then some () else none)) 2 ((e.d.size.toNat + 15) / 16 - 2)
  pure r.isNone

/-- The `bad:` exit of `sys_unlink`. -/
def unlinkBad (dp : Nat) : FsM Int := do
  iunlockput sb dp
  onDev (endOp sb)
  pure (-1)

/-- The `..` entry of the directory `ip` no longer counts as a link to `dp`. -/
def unlinkDots (dp ip : Nat) : FsM Unit := do
  let e := (← get).icache ip
  if e.d.type = T_DIR then setFields sb dp fun d => { d with nlink := d.nlink - 1 } else pure ()

/-- Remove the entry at `off` of `dp` for the locked inode `ip`. -/
def unlinkEntry (dp ip off : Nat) : FsM Int := do
  let r ← Icache.writei sb dp (fun _ => 0) off 16
  failIf (r ≠ 16) (.panic "unlink: writei")
  unlinkDots sb dp ip
  iunlockput sb dp
  setFields sb ip fun d => { d with nlink := d.nlink - 1 }
  iunlockput sb ip
  onDev (endOp sb)
  pure 0

/-- `ip->type == T_DIR && !isdirempty(ip)` -/
def fullDir (ip : Nat) : FsM Bool := do
  let e := (← get).icache ip
  if e.d.type = T_DIR then do
    let b ← isdirempty sb ip
    pure !b
  else pure false

def unlink (cwd : Option Nat) (path : List Byte) : FsM Int := do
  onDev beginOp
  match ← nameiparent sb cwd path with
  | none => do
    onDev (endOp sb)
    pure (-1)
  | some (dp, name) => do
    ilock sb dp
    if namecmp name [46] = true ∨ namecmp name [46, 46] = true then unlinkBad sb dp
    else do
      match ← dirlookup sb dp name with
      | none => unlinkBad sb dp
      | some (ip, off) => do
        ilock sb ip
        let e := (← get).icache ip
        failIf (e.d.nlink.toInt < 1) (.panic "unlink: nlink < 1")
        let full ← fullDir sb ip
        if full = true then do
          iunlockput sb ip
          unlinkBad sb dp
        else unlinkEntry sb dp ip off

/-- The `.` and `..` entries of the new inode `ip`, if it is a directory. -/
def createDots (type : BitVec 16) (dp ip : Nat) : FsM Unit :=
  if type = T_DIR then do
    setFields sb dp fun d => { d with nlink := d.nlink + 1 }
    let s ← get
    let r ← dirlink sb ip [46] (s.icache ip).inum
    failIf (r < 0) (.panic "create dots")
    let r ← dirlink sb ip [46, 46] (s.icache dp).inum
    failIf (r < 0) (.panic "create dots")
  else pure ()

/-- A new inode entered in the locked directory `dp`. -/
def createNew (dp : Nat) (name : List Byte) (type major minor : BitVec 16) : FsM Nat := do
  let ip ← ialloc sb ((← get).icache dp).dev type
  ilock sb ip
  setFields sb ip fun d => { d with major := major, minor := minor, nlink := 1 }
  createDots sb type dp ip
  let r ← dirlink sb dp name ((← get).icache ip).inum
  failIf (r < 0) (.panic "create: dirlink")
  iunlockput sb dp
  pure ip

/-- The inode at `path`, made if it is not there; returned locked. -/
def create (cwd : Option Nat) (path : List Byte) (type major minor : BitVec 16) : FsM (Option Nat) := do
  match ← nameiparent sb cwd path with
  | none => pure none
  | some (dp, name) => do
    ilock sb dp
    match ← dirlookup sb dp name with
    | some (ip, _) => do
      iunlockput sb dp
      ilock sb ip
      let e := (← get).icache ip
      if type = T_FILE ∧ e.d.type = T_FILE ∨ e.d.type = T_DEV then pure (some ip)
      else do
        iunlockput sb ip
        pure none
    | none => do
      let ip ← createNew sb dp name type major minor
      pure (some ip)

/-! ### Descriptors -/

/-- The lowest free descriptor of the caller, set to `f`. -/
def fdalloc (f : Nat) : KM (Option Nat) := do
  let k ← get
  match (List.range NOFILE).find? fun fd => (k.proc.ofile fd).isNone with
  | none => pure none
  | some fd => do
    setProc k.cur fun p => { p with ofile := Function.update p.ofile fd (some f) }
    pure (some fd)

def sysDup : KM Int := do
  match (← get).proc.argfd 0 with
  | none => pure (-1)
  | some (_, f) => do
    match ← fdalloc f with
    | none => pure (-1)
    | some fd => do
      filedup f
      pure fd

def sysClose : KM Int := do
  let k ← get
  match k.proc.argfd 0 with
  | none => pure (-1)
  | some (fd, f) => do
    setProc k.cur fun p => { p with ofile := Function.update p.ofile fd none }
    fileclose sb f
    pure 0

/-- The arguments of `sys_read` and `sys_write`: the file, the buffer and its length. -/
def Proc.argio (p : Proc) : Option (Nat × Nat × Nat) := do
  let (_, f) ← p.argfd 0
  let n ← p.argint 2
  let buf ← p.argptr 1 n
  some (f, buf, n.toNat)

/-- `(c + key) % 128` on a signed `char`, stored back into one. -/
def encrByte (key : BitVec 32) (c : Byte) : Byte := BitVec.ofInt 8 ((c.signExtend 32 + key).toInt.tmod 128)

/-- `(c - key + 128) % 128` on a signed `char`, stored back into one. -/
def decrByte (key : BitVec 32) (c : Byte) : Byte := BitVec.ofInt 8 ((c.signExtend 32 - key + 128).toInt.tmod 128)

/-- `for(i = 0; i < n; i++) p[i] = g(p[i]);` -/
def mapUser (g : Byte → Byte) (buf n : Nat) : KM Unit := do
  setProc (← get).cur fun p => { p with mem := fun a => if buf ≤ a ∧ a < buf + n then g (p.mem a) else p.mem a }

/-- What `sys_read` and `sys_write` do to the caller's buffer after the transfer of `n` bytes. -/
def cryptUser (flag : BitVec 16) (g : BitVec 32 → Byte → Byte) (f : Nat) (st : Stat) (buf : Nat) (n : Int) : KM Unit := do
  let k ← get
  let ip ← deref (k.ftable f).ip
  if (k.fs.icache ip).d.major = flag ∧ st.type = T_FILE ∧ 0 ≤ k.encrKey.toInt then mapUser (g k.encrKey) buf n.toNat
  else pure ()

def sysRead : KM Int := do
  match (← get).proc.argio with
  | none => pure (-1)
  | some (f, buf, n) => do
    match ← filestat sb f with
    | none => pure (-1)
    | some st => do
      let n ← fileread sb f buf n
      cryptUser 1 decrByte f st buf n
      pure n

def sysWrite : KM Int := do
  match (← get).proc.argio with
  | none => pure (-1)
  | some (f, buf, n) => do
    match ← filestat sb f with
    | none => pure (-1)
    | some st => do
      let n ← filewrite sb f buf n
      cryptUser 0 encrByte f st buf n
      pure n

/-- Store a `struct stat`, without its padding. -/
def putStat (a : Nat) (st : Stat) : KM Unit := do
  putUser a (leBytes st.type.toNat 2)
  putUser (a + 4) (leBytes st.dev 4)
  putUser (a + 8) (leBytes st.ino 4)
  putUser (a + 12) (leBytes st.nlink.toNat 2)
  putUser (a + 16) (leBytes st.size.toNat 4)
where
  leBytes (v n : Nat) : List Byte := (List.range n).map (leByte v)

def sysFstat : KM Int := do
  let p := (← get).proc
  match p.argfd 0, p.argptr 1 20 with
  | some (_, f), some a => do
    match ← filestat sb f with
    | none => pure (-1)
    | some st => do
      putStat a st
      pure 0
  | _, _ => pure (-1)

/-! ### Names -/

def sysLink : KM Int := do
  let p := (← get).proc
  match p.argstr 0, p.argstr 1 with
  | some old, some new => onFs (link sb p.cwd old new)
  | _, _ => pure (-1)

def sysUnlink : KM Int := do
  let p := (← get).proc
  match p.argstr 0 with
  | some path => onFs (unlink sb p.cwd path)
  | none => pure (-1)

/-- The locked inode that `sys_open` opens. -/
def openInode (cwd : Option Nat) (path : List Byte) (omode : BitVec 32) : FsM (Option Nat) := do
  if omode &&& O_CREATE ≠ 0 then create sb cwd path T_FILE 0 0
  else do
    match ← namei sb cwd path with
    | none => pure none
    | some ip => do
      ilock sb ip
      let e := (← get).icache ip
      if e.d.type = T_DIR ∧ omode ≠ 0 then do
        iunlockput sb ip
        pure none
      else pure (some ip)

/-- A descriptor for the locked inode `ip`. -/
def openFile (ip : Nat) (omode : BitVec 32) : KM Int := do
  match ← filealloc with
  | none => do
    onFs (iunlockput sb ip)
    endOpK sb
    pure (-1)
  | some f => do
    match ← fdalloc f with
    | none => do
      fileclose sb f
      onFs (iunlockput sb ip)
      endOpK sb
      pure (-1)
    | some fd => do
      onFs (iunlock ip)
      endOpK sb
      setFile f fun x => { x with
        type := .FD_INODE
        ip := some ip
        off := 0
        readable := decide (omode &&& O_WRONLY = 0)
        writable := decide (omode &&& O_WRONLY ≠ 0 ∨ omode &&& O_RDWR ≠ 0) }
      pure fd

def sysOpen : KM Int := do
  let p := (← get).proc
  match p.argstr 0, p.argint 1 with
  | some path, some omode => do
    beginOpK
    match ← onFs (openInode sb p.cwd path omode) with
    | none => do
      endOpK sb
      pure (-1)
    | some ip => openFile sb ip omode
  | _, _ => pure (-1)

/-- `sys_mkdir` and `sys_mknod`, once the arguments are there: `none` is an argument that is not. -/
def mkInode (args : Option (List Byte × BitVec 16 × BitVec 16 × BitVec 16)) : KM Int := do
  beginOpK
  let p := (← get).proc
  match args with
  | none => do
    endOpK sb
    pure (-1)
  | some (path, type, major, minor) => do
    match ← onFs (create sb p.cwd path type major minor) with
    | none => do
      endOpK sb
      pure (-1)
    | some ip => do
      onFs (iunlockput sb ip)
      endOpK sb
      pure 0

def sysMkdir : KM Int := do
  let p := (← get).proc
  mkInode sb ((p.argstr 0).map fun path => (path, T_DIR, 0, 0))

def sysMknod : KM Int := do
  let p := (← get).proc
  mkInode sb do
    let path ← p.argstr 0
    let major ← p.argint 1
    let minor ← p.argint 2
    some (path, T_DEV, major.setWidth 16, minor.setWidth 16)

def sysChdir : KM Int := do
  beginOpK
  let k ← get
  match k.proc.argstr 0 with
  | none => do
    endOpK sb
    pure (-1)
  | some path => do
    match ← onFs (namei sb k.proc.cwd path) with
    | none => do
      endOpK sb
      pure (-1)
    | some ip => do
      onFs (ilock sb ip)
      let e := (← get).fs.icache ip
      if e.d.type ≠ T_DIR then do
        onFs (iunlockput sb ip)
        endOpK sb
        pure (-1)
      else do
        onFs (iunlock ip)
        let cwd ← deref k.proc.cwd
        onFs (iput sb cwd)
        endOpK sb
        setProc k.cur fun p => { p with cwd := some ip }
        pure 0

def pipealloc : KM (Option (Nat × Nat)) := do
  match ← filealloc with
  | none => pure none
  | some f0 => do
    match ← filealloc with
    | none => do
      fileclose sb f0
      pure none
    | some f1 => do
      let ok ← kalloc
      if ok = false then do
        fileclose sb f0
        fileclose sb f1
        pure none
      else do
        let p := (← get).npipes
        setPipe p fun q => { q with nread := 0, nwrite := 0, readopen := true, writeopen := true, frees := 0 }
        modify fun k => { k with npipes := p + 1 }
        setFile f0 fun x => { x with type := .FD_PIPE, readable := true, writable := false, pipe := p }
        setFile f1 fun x => { x with type := .FD_PIPE, readable := false, writable := true, pipe := p }
        pure (some (f0, f1))

def sysPipe : KM Int := do
  match (← get).proc.argptr 0 8 with
  | none => pure (-1)
  | some a => do
    match ← pipealloc sb with
    | none => pure (-1)
    | some (rf, wf) => do
      match ← fdalloc rf with
      | none => do
        fileclose sb rf
        fileclose sb wf
        pure (-1)
      | some fd0 => do
        match ← fdalloc wf with
        | none => do
          setProc (← get).cur fun p => { p with ofile := Function.update p.ofile fd0 none }
          fileclose sb rf
          fileclose sb wf
          pure (-1)
        | some fd1 => do
          putUser a ((List.range 4).map (leByte fd0))
          putUser (a + 4) ((List.range 4).map (leByte fd1))
          pure 0

/-! ### The cipher -/

def sysSetkey : KM Int := do
  match (← get).proc.argint 0 with
  | none => pure (-1)
  | some key => do
    modify fun k => { k with encrKey := key }
    pure 0

/-- `(f->ip)->major`; through a null pointer it is read from the caller's memory. -/
def Kernel.major (k : Kernel) (f : Nat) : BitVec 16 :=
  match (k.ftable f).ip with
  | some ip => (k.fs.icache ip).d.major
  | none => u16 k.proc.mem 82

/-- One iteration of the loop: read up to 512 bytes at the file's offset, transform them, write them back. -/
def cryptChunk (g : BitVec 32 → Byte → Byte) (f ip : Nat) : KM Bool := do
  let k ← get
  let off := (k.ftable f).off
  let (n, buf) ← onFs (Icache.readi sb ip off 512)
  if 0 < n then do
    let _ ← onFs (Icache.writei sb ip (fun i => g k.encrKey (buf.getD i 0)) off n.toNat)
    advance f n
    pure true
  else pure false

/-- The iterations of one transaction: at most `count`, until the read finds nothing. -/
def cryptBatch (g : BitVec 32 → Byte → Byte) (f ip : Nat) : (count : Nat) → KM Bool
  | 0 => pure true
  | count + 1 => do
    let more ← cryptChunk sb g f ip
    if more = true then cryptBatch g f ip count else pure false

def cryptFinish (flag : BitVec 16) (ip : Nat) : KM Unit := do
  onFs (setFields sb ip fun d => { d with major := flag })
  onFs (iunlockput sb ip)
  endOpK sb

def cryptLoop (flag : BitVec 16) (g : BitVec 32 → Byte → Byte) (f ip : Nat) : (fuel : Nat) → KM Unit
  | 0 => throw .spins
  | fuel + 1 => do
    beginOpK
    onFs (ilock sb ip)
    let more ← cryptBatch sb g f ip 10
    if more = true then do
      onFs (iunlock ip)
      endOpK sb
      cryptLoop flag g f ip fuel
    else cryptFinish sb flag ip

/-- `sys_encr` and `sys_decr`: transform the rest of the file and set its flag. -/
def cryptFile (flag : BitVec 16) (g : BitVec 32 → Byte → Byte) : KM Int := do
  let k ← get
  match k.proc.argfd 0 with
  | none => pure (-1)
  | some (_, f) =>
    if k.encrKey = -1 then pure (-1)
    else if (k.ftable f).type.code = T_DEV.toNat then pure (-2)
    else if k.major f = flag then pure (-3)
    else do
      let ip ← deref (k.ftable f).ip
      -- every chunk moves the offset or takes a delivery of the console
      cryptLoop sb flag g f ip (2 ^ 32 + k.fs.dev.tape.length)
      pure 0

def sysEncr : KM Int := cryptFile sb 1 encrByte

def sysDecr : KM Int := cryptFile sb 0 decrByte

end Xv6
