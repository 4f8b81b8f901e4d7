import Xv6.Console
import Xv6.TwoRuns

/-!
# The screen (`console.c`)

What the console writes to CGA memory: `cgaputc` with its scrolling, the colour table with its saved
copy of the screen, and the echo of `consoleintr`. CGA memory is modelled together with the memory
around it, and `written` collects the indices stored to, so that a store outside the screen shows. The
serial port is left out. After `consoleinit`, `cprintf` takes `cons.lock` like `consolewrite`.
-/

namespace Xv6.Console

open Prog

abbrev Cell : Type := BitVec 16

def Cell.char (v : Cell) : Byte := v.setWidth 8

structure Tty where
  input : Input
  consEcho : Bool
  isShowingTable : Bool
  selectedRow : Int
  color : Nat
  /-- `crt[i]`, also for `i` outside the screen. -/
  crt : Int → Cell
  /-- The cursor. -/
  pos : Nat
  /-- The page at `crt_copy`. -/
  crtCopy : Option (Nat → Cell)
  /-- `cons.lock` is held. -/
  locked : Bool
  /-- The indices of `crt` stored to so far. -/
  written : List Int

abbrev TM : Type → Type := Prog Tty Fault

abbrev BACKSPACE : Nat := 0x100

def store (l : List (Int × Cell)) : TM Unit := modify fun s =>
  { s with crt := l.foldl (fun m p => Function.update m p.1 p.2) s.crt, written := l.map Prod.fst ++ s.written }

/-! ### Output -/

def advance (pos c : Nat) : Nat :=
  if c = '\n'.toNat then pos + (80 - pos % 80)
  else if c = BACKSPACE then (if 0 < pos then pos - 1 else pos)
  else pos + 1

def scroll (pos : Nat) : TM Nat := do
  if 24 ≤ pos / 80 then do
    let crt := (← get).crt
    store ((List.range (23 * 80)).map fun (k : Nat) => ((k : Int), crt (k + 80)))
    store ((List.range (24 * 80 - (pos - 80))).map fun (k : Nat) => (((pos - 80 + k : Nat) : Int), 0))
    pure (pos - 80)
  else pure pos

def putCell (c : Nat) : TM Unit := do
  let s ← get
  if c = '\n'.toNat ∨ c = BACKSPACE then pure ()
  else store [((s.pos : Int), BitVec.ofNat 16 (c % 256 ||| s.color))]

def cgaputc (c : Nat) : TM Unit := do
  let s ← get
  putCell c
  failIf (25 * 80 < advance s.pos c) (.panic "pos under/overflow")
  let pos ← scroll (advance s.pos c)
  modify fun s => { s with pos }
  store [((pos : Int), BitVec.ofNat 16 (' '.toNat ||| 0x0700))]

def consputc (c : Nat) : TM Unit := cgaputc c

def acquire : TM Unit := do
  failIf (← get).locked (.panic "acquire")
  modify fun s => { s with locked := true }

def release : TM Unit := modify fun s => { s with locked := false }

def consolewrite (bs : List Byte) : TM Unit := do
  acquire
  each (fun b => consputc b.toNat) bs
  release

def cprintf (text : List Byte) : TM Unit := do
  acquire
  each (fun b => consputc b.toNat) text
  release

/-! ### The colour table -/

def selectableColorNames : List String := ["WHT BLK", "PUR WHT", "RED AQU", "WHT YEL"]

/-- What `show_table` stores in row `i` and column `j` of the table. -/
def tableCell (selectedRow : Int) (i j : Nat) : Cell :=
  let baseColor := ((7 <<< 4) ||| 0) <<< 8
  let selectedColor := ((2 <<< 4) ||| 0) <<< 8
  if (i = 0 ∨ i = 8) ∧ (j = 0 ∨ j = 8) then BitVec.ofNat 16 ('+'.toNat ||| baseColor)
  else if j = 0 ∨ j = 8 then BitVec.ofNat 16 ('|'.toNat ||| baseColor)
  else if i = 0 ∨ i = 8 ∨ i % 2 = 0 then BitVec.ofNat 16 ('-'.toNat ||| baseColor)
  else
    let c := ((selectableColorNames.getD (i / 2) "").toList.getD (j - 1) '\x00').toNat
    BitVec.ofNat 16 (c ||| if (i : Int) = selectedRow then baseColor else if ((i / 2 : Nat) : Int) =
      selectedRow then selectedColor else baseColor)

/-- Where the table starts: `height` rows above the cursor, moved to the left if it does not fit the row. -/
def tableStart (pos : Nat) : Int :=
  let p : Int := pos - 9 * 80
  if p.tmod 80 + 9 > 80 then p - 9 else p

def showTable : TM Unit := do
  let s ← get
  store ((List.range 9).flatMap fun (i : Nat) => (List.range 9).map fun (j : Nat) =>
    (tableStart s.pos + 80 * i + j, tableCell s.selectedRow i j))

def copyCrt (mem : Bool) : TM Unit := do
  if mem then modify fun s => { s with crtCopy := some fun k => s.crt k }
  else do
    modify fun s => { s with crtCopy := none }
    cprintf ("Error: Failed to allocate memory for CRT copy\n".toList.map chr)

def restoreCrt : TM Unit := do
  match (← get).crtCopy with
  | none => throw (.panic "trap")
  | some copy => do
    store ((List.range (80 * 25)).map fun (k : Nat) => ((k : Int), copy k))
    modify fun s => { s with crtCopy := none }

/-! ### Input -/

/-- The loop of `C('U')`. -/
def killLine : Nat → TM Unit
  | 0 => pure ()
  | n + 1 => do
    let s ← get
    if s.input.e ≠ s.input.w ∧ s.input.buf ((s.input.e - 1).toNat % INPUT_BUF) ≠ chr '\n' then do
      modify fun s => { s with input := { s.input with e := s.input.e - 1 } }
      consputc BACKSPACE
      killLine n
    else pure ()

def backspace : TM Unit := do
  let s ← get
  if s.input.e ≠ s.input.w then do
    modify fun s => { s with input := { s.input with e := s.input.e - 1 } }
    consputc BACKSPACE
  else pure ()

/-- `A('C')` -/
def toggle (mem : Bool) : TM Unit := do
  modify fun s => { s with isShowingTable := !s.isShowingTable }
  if (← get).isShowingTable then do
    copyCrt mem
    showTable
  else do
    restoreCrt
    modify fun s => { s with color := selectableColors.getD s.selectedRow.toNat s.color }

def moveRow (row : Int) (c : Byte) : Int :=
  if c = chr 'w' then (if row - 1 < 0 then 0 else row - 1)
  else if c = chr 's' then (if row + 1 ≥ 4 then row + 1 - 1 else row + 1)
  else row

def ordinary (c : Byte) : TM Unit := do
  let s ← get
  if s.isShowingTable then do
    modify fun s => { s with selectedRow := moveRow s.selectedRow c }
    showTable
  else if c ≠ 0 ∧ s.input.e - s.input.r < BitVec.ofNat 32 INPUT_BUF then do
    modify fun s => { s with input := (s.input.put c).1 }
    let c := if c = chr '\r' then chr '\n' else c
    consputc (if s.consEcho = false ∧ c ≠ chr '\n' then chr '*' else c).toNat
  else pure ()

/-- One round of the loop of `consoleintr`. -/
def key (c : Byte) (mem : Bool) : TM Unit :=
  if c = ctl 'P' then pure () -- `procdump` prints after the loop
  else if c = ctl 'U' then do
    let s ← get
    killLine (s.input.e - s.input.w).toNat
  else if c = ctl 'H' ∨ c = chr '\x7f' then backspace
  else if c = ctl 'C' then toggle mem
  else ordinary c

/-- `consoleintr` on the characters that `getc` returns, each with the outcome of the `kalloc` it may lead to. What `procdump`
prints at the end comes as output of its own. -/
def consoleintr (cs : List (Byte × Bool)) : TM Unit := do
  acquire
  each (fun p => key p.1 p.2) cs
  release

/-! ### Runs -/

inductive Op
  /-- A character arrives in `consoleintr`; `mem` is whether `kalloc` would have a page. -/
  | key (c : Byte) (mem : Bool)
  /-- A character of the output of a process or the kernel. -/
  | putc (c : Byte)
  /-- The loop of `consoleread` up to the next `sleep`. -/
  | read (killed : Bool) (target n : Nat)
  /-- The system call that sets `cons_echo`. -/
  | echo (on : Bool)
deriving DecidableEq

def Op.exec : Op → TM Unit
  | .key c mem => consoleintr [(c, mem)]
  | .putc c => consolewrite [c]
  | .read killed target n => modify fun s => { s with input := (s.input.read killed target n).2.2 }
  | .echo on => modify fun s => { s with consEcho := on }

def runOps (ops : List Op) : TM Unit := each Op.exec ops

/-! ### What one store and one character do -/

variable {s s' t t' : Tty} {c : Nat} {E : Fault → Prop}

@[simp] theorem wp_store {l : List (Int × Cell)} {Q : Unit → Tty → Prop} : wp (store l) Q E s ↔
    Q () { s with crt := l.foldl (fun m p => Function.update m p.1 p.2) s.crt, written := l.map Prod.fst ++ s.written } := Iff.rfl

def OnScreen (i : Int) : Prop := 0 ≤ i ∧ i < 25 * 80

structure Drawn (s s' : Tty) : Prop where
  rest : s' = { s with crt := s'.crt, pos := s'.pos, written := s'.written }
  written : ∀ i ∈ s'.written, i ∈ s.written ∨ OnScreen i
  pos : s'.pos < 24 * 80

theorem advance_le (hp : s.pos < 24 * 80) : advance s.pos c ≤ 24 * 80 := by
  unfold advance
  split
  · omega
  · split
    · split <;> omega
    · omega

theorem scroll_spec {pos : Nat} (hp : pos ≤ 24 * 80) :
    wp (scroll pos) (fun p s' => p < 24 * 80 ∧ s' = { s with crt := s'.crt, written := s'.written } ∧
      ∀ i ∈ s'.written, i ∈ s.written ∨ OnScreen i) E s := by
  rw [scroll]
  split
  · refine wp_bind.2 (wp_get.2 (wp_bind.2 (wp_store.2 (wp_bind.2 (wp_store.2 ⟨by omega, rfl, fun i hi => ?_⟩)))))
    simp only [List.map_map, List.mem_append, List.mem_map, List.mem_range, Function.comp_apply] at hi
    rcases hi with ⟨k, hk, rfl⟩ | ⟨k, hk, rfl⟩ | hi
    · exact .inr ⟨by omega, by omega⟩
    · exact .inr ⟨by omega, by omega⟩
    · exact .inl hi
  · exact ⟨by omega, rfl, fun i hi => .inl hi⟩

theorem putCell_spec (hp : s.pos < 24 * 80) :
    wp (putCell c) (fun _ s' => s' = { s with crt := s'.crt, written := s'.written } ∧ ∀ i ∈ s'.written,
      i ∈ s.written ∨ OnScreen i) E s := by
  rw [putCell]
  refine wp_bind.2 (wp_get.2 ?_)
  split
  · exact ⟨rfl, fun i hi => .inl hi⟩
  · refine wp_store.2 ⟨rfl, fun i hi => ?_⟩
    rcases List.mem_cons.1 hi with rfl | hi
    · exact .inr ⟨by omega, by omega⟩
    · exact .inl hi

theorem cgaputc_spec (hp : s.pos < 24 * 80) : wp (cgaputc c) (fun _ s' => Drawn s s') E s := by
  rw [cgaputc]
  refine wp_bind.2 (wp_get.2 ?_)
  have hadv := advance_le (c := c) hp
  refine wp.bind (putCell_spec hp) fun _ s₁ h₁ => wp_bind.2 (wp_failIf.2 ⟨fun h => absurd h (by omega), fun _ => ?_⟩)
  refine wp.bind (scroll_spec hadv) fun p s₂ h₂ => wp_bind.2 (wp_modify _ |>.2 (wp_store.2 ⟨?_, fun i hi => ?_, h₂.1⟩))
  · rw [h₂.2.1, h₁.1]
  · rcases List.mem_cons.1 hi with rfl | hi
    · have := h₂.1
      exact .inr ⟨by omega, by omega⟩
    · rcases h₂.2.2 i hi with hi | hi
      · exact h₁.2 i hi
      · exact .inr hi

end Xv6.Console
