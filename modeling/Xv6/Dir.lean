import Xv6.Icache

/-!
# Directories and path names (`fs.c`)

A directory is a file of 16-byte entries, `struct dirent`: an inode number and a name of at most 14
bytes. A path is the list of its bytes up to the terminating nul.
-/

namespace Xv6

open Prog

abbrev DIRSIZ : Nat := 14

def cstr (l : List Byte) : List Byte := l.takeWhile (· ≠ 0)

/-- `namecmp(s, t) == 0`. -/
def namecmp (s t : List Byte) : Bool := cstr (s.take DIRSIZ) == cstr (t.take DIRSIZ)

def deInum (de : List Byte) : Nat := (u16 (fun k => de.getD k 0) 0).toNat

def deName (de : List Byte) : List Byte := de.drop 2

/-- The bytes of the entry that `dirlink` builds with `strncpy`. -/
def dirent (name : List Byte) (inum k : Nat) : Byte :=
  if k < 2 then leByte inum k else (name.take DIRSIZ).getD (k - 2) 0

def skipelem (path : List Byte) : Option (List Byte × List Byte) :=
  match path.dropWhile (· = 47) with
  | [] => none
  | b :: s => some (((b :: s).takeWhile (· ≠ 47)).take DIRSIZ, ((b :: s).dropWhile (· ≠ 47)).dropWhile (· = 47))

theorem length_skipelem {path name rest : List Byte} (h : skipelem path = some (name, rest)) :
    rest.length < path.length := by
  unfold skipelem at h
  split at h
  · cases h
  · next b s hp =>
    obtain ⟨-, rfl⟩ := Prod.mk.inj (Option.some.inj h)
    -- the first byte left after the slashes belongs to the element
    have hb : ¬ (b = 47) := by
      have := List.head?_dropWhile_not (fun x : Byte => decide (x = 47)) path
      rw [hp] at this
      simpa using this
    have h1 := (List.dropWhile_suffix (l := path) (fun x : Byte => decide (x = 47))).length_le
    have h2 := (List.dropWhile_suffix (l := s) (fun x : Byte => decide (x ≠ 47))).length_le
    have h3 := (List.dropWhile_suffix (l := (b :: s).dropWhile (fun x : Byte => decide (x ≠ 47)))
      (fun x : Byte => decide (x = 47))).length_le
    have hd : (b :: s).dropWhile (fun x : Byte => decide (x ≠ 47)) = s.dropWhile (fun x : Byte => decide (x ≠ 47)) :=
      List.dropWhile_cons_of_pos (by simpa using hb)
    rw [hp] at h1
    rw [hd] at h3 ⊢
    simp only [List.length_cons] at h1
    omega

variable (sb : Superblock)

/-- Read the entry at `off` of the locked directory `dp`. -/
def readDirent (dp off : Nat) (msg : String) : FsM (List Byte) := do
  let (r, de) ← Icache.readi sb dp off 16
  failIf (r ≠ 16) (.panic msg)
  pure de

/-- The entry of the locked directory `dp` with the given name, and its offset. -/
def dirlookup (dp : Nat) (name : List Byte) : FsM (Option (Nat × Nat)) := do
  let e := (← get).icache dp
  failIf (e.d.type ≠ T_DIR) (.panic "dirlookup not DIR")
  let r ← findRange (fun k => do
    let de ← readDirent sb dp (16 * k) "dirlookup read"
    pure (if deInum de ≠ 0 ∧ namecmp name (deName de) = true then some (deInum de, 16 * k) else none))
    0 ((e.d.size.toNat + 15) / 16)
  match r with
  | none => pure none
  | some (inum, off) => do
    let ip ← iget e.dev inum
    pure (some (ip, off))

/-- The offset of the first free entry of `dp`, or its end. -/
def freeDirent (dp : Nat) : FsM Nat := do
  let e := (← get).icache dp
  let r ← findRange (fun k => do
    let de ← readDirent sb dp (16 * k) "dirlink read"
    pure (if deInum de = 0 then some (16 * k) else none)) 0 ((e.d.size.toNat + 15) / 16)
  pure (r.getD (16 * ((e.d.size.toNat + 15) / 16)))

/-- Write a new entry into the locked directory `dp`. -/
def dirlink (dp : Nat) (name : List Byte) (inum : Nat) : FsM Int := do
  match ← dirlookup sb dp name with
  | some (ip, _) => do
    iput sb ip
    pure (-1)
  | none => do
    let off ← freeDirent sb dp
    let r ← Icache.writei sb dp (dirent name inum) off 16
    failIf (r ≠ 16) (.panic "dirlink")
    pure 0

/-- The loop of `namex`, from the referenced inode `ip` on. -/
def namexLoop (parent : Bool) (ip : Nat) (path : List Byte) : FsM (Option (Nat × List Byte)) :=
  match _h : skipelem path with
  | none =>
    if parent = true then do
      iput sb ip
      pure none
    else pure (some (ip, []))
  | some (name, rest) => do
    ilock sb ip
    let e := (← get).icache ip
    if e.d.type ≠ T_DIR then do
      iunlockput sb ip
      pure none
    else if parent = true ∧ rest = [] then do
      iunlock ip
      pure (some (ip, name))
    else do
      match ← dirlookup sb ip name with
      | none => do
        iunlockput sb ip
        pure none
      | some (next, _) => do
        iunlockput sb ip
        namexLoop parent next rest
termination_by path.length
decreasing_by exact length_skipelem (by assumption)

def namexStart (cwd : Option Nat) (path : List Byte) : FsM Nat :=
  if path.head? = some 47 then iget ROOTDEV ROOTINO
  else match cwd with
    | some ip => idup ip
    | none => throw (.panic "no cwd")

def namex (cwd : Option Nat) (parent : Bool) (path : List Byte) : FsM (Option (Nat × List Byte)) := do
  let ip ← namexStart cwd path
  namexLoop sb parent ip path

def namei (cwd : Option Nat) (path : List Byte) : FsM (Option Nat) := do
  match ← namex sb cwd false path with
  | some (ip, _) => pure (some ip)
  | none => pure none

def nameiparent (cwd : Option Nat) (path : List Byte) : FsM (Option (Nat × List Byte)) := namex sb cwd true path

end Xv6
