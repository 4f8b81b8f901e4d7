import Xv6.Kernel

/-!
# The parser of the shell (`sh.c`)

A pointer into the line is what is left of the line from there on: the state of the parser is the line
from `*ps` to `es`, and a stored pointer is the distance from the start of the line. The byte at `es` is
0. The recursion is bounded by a number that `parsecmd` chooses from the length of the line; running out
of it is the fault `spins`.
-/

namespace Xv6.Sh

open Prog

def ch (c : Char) : Byte := BitVec.ofNat 8 c.toNat

abbrev MAXARGS : Nat := 10
abbrev O_RDONLY : Nat := 0x000
abbrev O_WRONLY : Nat := 0x001
abbrev O_CREATE : Nat := 0x200

/-- `struct cmd` with all its kinds. A string is a pair of pointers to its start and its end; `argv`
ends with the null pointer. -/
inductive Cmd
  | exec (argv : List (Nat × Nat))
  | redir (cmd : Cmd) (file efile mode fd : Nat)
  | pipe (left right : Cmd)
  | list (left right : Cmd)
  | back (cmd : Cmd)
deriving DecidableEq, Repr

def whitespace : List Byte := [ch ' ', ch '\t', ch '\r', ch '\n', ch '\x0b']

def symbols : List Byte := [ch '<', ch '|', ch '>', ch '&', ch ';', ch '(', ch ')']

def isWhite (c : Byte) : Bool := whitespace.contains c

def isWord (c : Byte) : Bool := !whitespace.contains c && !symbols.contains c

abbrev PM : Type → Type := Prog (List Byte) Fault

/-- The switch of `gettoken`: the token and what follows it. -/
def scan : List Byte → Byte × List Byte
  | [] => (0, [])
  | c :: t =>
    if c = ch '|' ∨ c = ch '(' ∨ c = ch ')' ∨ c = ch ';' ∨ c = ch '&' ∨ c = ch '<' then (c, t)
    else if c = ch '>' then
      if t.headD 0 = ch '>' then (ch '+', t.tail) else (c, t)
    else (ch 'a', (c :: t).dropWhile isWord)

def gettoken (es : Nat) : PM (Byte × Nat × Nat) := do
  let s := (← get).dropWhile isWhite
  let (ret, s') := scan s
  set (s'.dropWhile isWhite)
  pure (ret, es - s.length, es - s'.length)

def peek (toks : List Byte) : PM Bool := do
  let s := (← get).dropWhile isWhite
  set s
  pure (match s with
    | [] => false
    | c :: _ => toks.contains c)

/-- The arguments of `redircmd` after the first. -/
structure Redir where
  file : Nat
  efile : Nat
  mode : Nat
  fd : Nat

def redircmd (cmd : Cmd) (r : Redir) : Cmd := .redir cmd r.file r.efile r.mode r.fd

def parseredirs (es : Nat) : (fuel : Nat) → List Redir → PM (List Redir)
  | 0, _ => throw .spins
  | fuel + 1, rs => do
    if ← peek [ch '<', ch '>'] then do
      let (tok, _, _) ← gettoken es
      let (tok', q, eq) ← gettoken es
      failIf (tok' ≠ ch 'a') (.panic "missing file for redirection")
      parseredirs es fuel (rs ++ if tok = ch '<' then [⟨q, eq, O_RDONLY, 0⟩]
        else if tok = ch '>' then [⟨q, eq, O_WRONLY ||| O_CREATE, 1⟩]
        else if tok = ch '+' then [⟨q, eq, O_WRONLY ||| O_CREATE, 1⟩]
        else [])
    else pure rs

def parseblock (es : Nat) (parseline : PM Cmd) : PM Cmd := do
  failIf ((← peek [ch '(']) = false) (.panic "parseblock")
  let _ ← gettoken es
  let cmd ← parseline
  failIf ((← peek [ch ')']) = false) (.panic "syntax - missing )")
  let _ ← gettoken es
  let rs ← parseredirs es (es + 1) []
  pure (rs.foldl redircmd cmd)

/-- The loop of `parseexec`, with the arguments and the redirections so far. A store past the end of `argv` is a fault. -/
def execLoop (es : Nat) : (fuel : Nat) → List (Nat × Nat) → List Redir → PM (List (Nat × Nat) × List Redir)
  | 0, _, _ => throw .spins
  | fuel + 1, argv, rs => do
    if ← peek [ch '|', ch ')', ch '&', ch ';'] then pure (argv, rs)
    else do
      let (tok, q, eq) ← gettoken es
      if tok = 0 then pure (argv, rs)
      else do
        failIf (tok ≠ ch 'a') (.panic "syntax")
        failIf (MAXARGS ≤ argv.length) (.panic "argv")
        failIf (MAXARGS ≤ argv.length + 1) (.panic "too many args")
        let rs ← parseredirs es (es + 1) rs
        execLoop es fuel (argv ++ [(q, eq)]) rs

def parseexec (es : Nat) (parseline : PM Cmd) : PM Cmd := do
  if ← peek [ch '('] then parseblock es parseline
  else do
    let rs ← parseredirs es (es + 1) []
    let (argv, rs) ← execLoop es (es + 1) [] rs
    failIf (MAXARGS ≤ argv.length) (.panic "argv")
    pure (rs.foldl redircmd (.exec argv))

def backLoop (es : Nat) : (fuel : Nat) → Cmd → PM Cmd
  | 0, _ => throw .spins
  | fuel + 1, cmd => do
    if ← peek [ch '&'] then do
      let _ ← gettoken es
      backLoop es fuel (.back cmd)
    else pure cmd

mutual

def parseline (es : Nat) : (fuel : Nat) → PM Cmd
  | 0 => throw .spins
  | fuel + 1 => do
    let cmd ← parsepipe es fuel
    let cmd ← backLoop es (es + 1) cmd
    if ← peek [ch ';'] then do
      let _ ← gettoken es
      let right ← parseline es fuel
      pure (.list cmd right)
    else pure cmd

def parsepipe (es : Nat) : (fuel : Nat) → PM Cmd
  | 0 => throw .spins
  | fuel + 1 => do
    let cmd ← parseexec es (parseline es fuel)
    if ← peek [ch '|'] then do
      let _ ← gettoken es
      let right ← parsepipe es fuel
      pure (.pipe cmd right)
    else pure cmd

end

def nulterminate : Cmd → (Nat → Byte) → Nat → Byte
  | .exec argv, mem => argv.foldl (fun mem p => Function.update mem p.2 0) mem
  | .redir cmd _ efile _ _, mem => Function.update (nulterminate cmd mem) efile 0
  | .pipe left right, mem => nulterminate right (nulterminate left mem)
  | .list left right, mem => nulterminate right (nulterminate left mem)
  | .back cmd, mem => nulterminate cmd mem

def memory (line : List Byte) : Nat → Byte := fun k => line.getD k 0

/-- What `parsecmd` does before `nulterminate`. -/
def parseall (es : Nat) : PM Cmd := do
  let cmd ← parseline es (2 * es + 2)
  let _ ← peek []
  failIf ((← get) ≠ []) (.panic "syntax")
  pure cmd

def parsecmd (line : List Byte) : Except Fault (Cmd × (Nat → Byte)) :=
  match (parseall line.length).run line with
  | .ok (cmd, _) => .ok (cmd, nulterminate cmd (memory line))
  | .error e => .error e

end Xv6.Sh
