import Xv6.Kernel
import Xv6.Lts

/-!
# Console input (`console.c`)

The keyboard and the serial port put characters into a ring of `INPUT_BUF` bytes with three counters: `r` is where the next
reader reads, what lies before `w` can be read, and what lies between `w` and `e` can still be edited. `consoleintr` and
`consoleread` run under `cons.lock`; a reader gives it up only while it sleeps. What is shown on the screen is left out.
-/

namespace Xv6.Console

abbrev INPUT_BUF : Nat := 128

def chr (c : Char) : Byte := BitVec.ofNat 8 c.toNat

/-- `C(x)` and `A(x)` of `kbd.h`. -/
def ctl (c : Char) : Byte := BitVec.ofNat 8 (c.toNat - '@'.toNat)

structure Input where
  buf : Nat → Byte
  r : BitVec 32
  w : BitVec 32
  e : BitVec 32

namespace Input

/-- The loop of `C('U')`; it ends at `w` after `n` rounds at the latest if `e` is `n` away from it. -/
def killLine : (n : Nat) → Input → Input
  | 0, inp => inp
  | n + 1, inp =>
    if inp.e ≠ inp.w ∧ inp.buf ((inp.e - 1).toNat % INPUT_BUF) ≠ chr '\n' then killLine n { inp with e := inp.e - 1 } else inp

def backspace (inp : Input) : Input := if inp.e ≠ inp.w then { inp with e := inp.e - 1 } else inp

def put (inp : Input) (c : Byte) : Input × Bool :=
  let c := if c = chr '\r' then chr '\n' else c
  let inp := { inp with buf := Function.update inp.buf (inp.e.toNat % INPUT_BUF) c, e := inp.e + 1 }
  if c = chr '\n' ∨ c = ctl 'D' ∨ inp.e = inp.r + BitVec.ofNat 32 INPUT_BUF then ({ inp with w := inp.e }, true) else (inp, false)

end Input

/-- Where the loop of `consoleread` stops. -/
inductive Stop
  /-- It sleeps, with `n` bytes still to read. -/
  | sleep (n : Nat)
  | ret (r : Int)
deriving DecidableEq, Repr

/-- The loop of `consoleread` up to the next `sleep` or to the end, with `n` of `target` bytes still to
read; also the bytes that it stores. -/
def Input.read (killed : Bool) (target : Nat) : (n : Nat) → Input → List Byte × Stop × Input
  | 0, inp => ([], .ret target, inp)
  | n + 1, inp =>
    if inp.r = inp.w then ([], if killed then .ret (-1) else .sleep (n + 1), inp)
    else
      let c := inp.buf (inp.r.toNat % INPUT_BUF)
      let inp := { inp with r := inp.r + 1 }
      if c = ctl 'D' then
        -- a reader that has something leaves it for the next one
        ([], .ret (target - ((n : Int) + 1)), if n + 1 < target then { inp with r := inp.r - 1 } else inp)
      else if c = chr '\n' then ([c], .ret (target - (n : Int)), inp)
      else
        let (bs, st, inp) := read killed target n inp
        (c :: bs, st, inp)

inductive Pc
  | out
  /-- In `consoleread`, with `n` of `target` bytes still to read and `dst` read. -/
  | reading (target n : Nat) (dst : List Byte) (asleep : Bool)
deriving DecidableEq

def selectableColors : List Nat := [((0 <<< 4) ||| 15) <<< 8, ((15 <<< 4) ||| 13) <<< 8,
    ((3 <<< 4) ||| 12) <<< 8, ((6 <<< 4) ||| 15) <<< 8]

structure State where
  input : Input
  isShowingTable : Bool
  selectedRow : Int
  color : Nat
  proc : Nat → Pc
  killed : Nat → Bool

namespace State

/-- `wakeup(&input.r)` -/
def wakeup (s : State) : State :=
  { s with proc := fun p => match s.proc p with
      | .reading target n dst _ => .reading target n dst false
      | .out => .out }

/-- The default case of the switch in `consoleintr`. -/
def ordinary (s : State) (c : Byte) : State :=
  if s.isShowingTable then
    if c = chr 'w' then { s with selectedRow := if s.selectedRow - 1 < 0 then 0 else s.selectedRow - 1 }
    else if c = chr 's' then { s with selectedRow := if s.selectedRow + 1 ≥ 4 then s.selectedRow + 1 - 1 else s.selectedRow + 1 }
    else s
  else if c ≠ 0 ∧ s.input.e - s.input.r < BitVec.ofNat 32 INPUT_BUF then
    match s.input.put c with
    | (inp, true) => { s with input := inp }.wakeup
    | (inp, false) => { s with input := inp }
  else s

/-- One round of the loop of `consoleintr`. -/
def key (s : State) (c : Byte) : State :=
  if c = ctl 'P' then s -- `procdump` prints the processes
  else if c = ctl 'U' then { s with input := s.input.killLine (s.input.e - s.input.w).toNat }
  else if c = ctl 'H' ∨ c = chr '\x7f' then { s with input := s.input.backspace }
  else if c = ctl 'C' then
    let s := { s with isShowingTable := !s.isShowingTable }
    if s.isShowingTable then s else { s with color := selectableColors.getD s.selectedRow.toNat s.color }
  else s.ordinary c

def consoleintr (s : State) (cs : List Byte) : State := cs.foldl key s

/-- `consoleread` in process `p` stores `bs` behind `dst` and stops. -/
def stop (s : State) (p target : Nat) (dst : List Byte) : List Byte × Stop × Input → State
  | (bs, .sleep n, inp) => { s with input := inp, proc := Function.update s.proc p (.reading target n (dst ++ bs) true) }
  | (_, .ret _, inp) => { s with input := inp, proc := Function.update s.proc p .out }

def kill (s : State) (p : Nat) : State :=
  { s with
    killed := Function.update s.killed p true
    proc := Function.update s.proc p (match s.proc p with
      | .reading target n dst _ => .reading target n dst false
      | .out => .out) }

end State

inductive Ev
  | intr (cs : List Byte)
  /-- Process `p` calls `consoleread` for `n` bytes, gets `bs` and stops. -/
  | call (p n : Nat) (bs : List Byte) (st : Stop)
  /-- Process `p` goes on after its sleep, gets `bs` and stops. -/
  | resume (p : Nat) (bs : List Byte) (st : Stop)
  | kill (p : Nat)

inductive Step : State → Ev → State → Prop
  | intr {s : State} (cs : List Byte) : Step s (.intr cs) (s.consoleintr cs)
  | call {s : State} {p n : Nat} {bs : List Byte} {st : Stop} {inp : Input} (hp : s.proc p = .out)
      (h : s.input.read (s.killed p) n n = (bs, st, inp)) : Step s (.call p n bs st) (s.stop p n [] (bs, st, inp))
  | resume {s : State} {p target n : Nat} {dst bs : List Byte} {st : Stop} {inp : Input}
      (hp : s.proc p = .reading target n dst false)
      (h : s.input.read (s.killed p) target n = (bs, st, inp)) : Step s (.resume p bs st) (s.stop p target dst (bs, st, inp))
  | kill {s : State} (p : Nat) : Step s (.kill p) (s.kill p)

def boot : State where
  input := ⟨fun _ => 0, 0, 0, 0⟩
  isShowingTable := false
  selectedRow := 0
  color := ((0 <<< 4) ||| 15) <<< 8
  proc _ := .out
  killed _ := false

def consoleLts : Lts State Ev where
  init s := s = boot
  step := Step

end Xv6.Console
