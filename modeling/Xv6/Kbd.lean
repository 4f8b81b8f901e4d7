import Mathlib.Data.List.Induction
import Mathlib.Data.Set.Insert
import Mathlib.Tactic.FinCases
import Xv6.Bytes

/-!
# The keyboard decoder (`kbd.c`)

`kbdgetc` keeps the modifiers in the word `shift`. Left and right keys share a bit, and the release of
either clears it; so the bit follows the keys that are held just as long as no modifier is released
while its twin is held.
-/

namespace Xv6.Kbd

abbrev SHIFT : BitVec 32 := 1
abbrev CTL : BitVec 32 := 2
abbrev ALT : BitVec 32 := 4
abbrev CAPSLOCK : BitVec 32 := 8
abbrev NUMLOCK : BitVec 32 := 16
abbrev SCROLLLOCK : BitVec 32 := 32
abbrev E0ESC : BitVec 32 := 64

def shiftcode (k : Byte) : BitVec 32 :=
  if k = 0x1D ∨ k = 0x9D then CTL else if k = 0x2A ∨ k = 0x36 then SHIFT else if k = 0x38 ∨ k = 0xB8 then ALT else 0

def togglecode (k : Byte) : BitVec 32 :=
  if k = 0x3A then CAPSLOCK else if k = 0x45 then NUMLOCK else if k = 0x46 then SCROLLLOCK else 0

/-- The part of the maps for codes from 0x80 on; `KP_Enter` and `KP_Div` differ. -/
def keypad (enter div : Nat) (k : Nat) : Nat :=
  match k with
  | 0x9C => enter | 0xB5 => div | 0x97 => 0xE0 | 0xCF => 0xE1 | 0xC8 => 0xE2 | 0xD0 => 0xE3
  | 0xCB => 0xE4 | 0xCD => 0xE5 | 0xC9 => 0xE6 | 0xD1 => 0xE7 | 0xD2 => 0xE8 | 0xD3 => 0xE9 | _ => 0

def keymap (keys : String) (enter div k : Nat) : Nat :=
    if k < 0x80 then (keys.toList.map Char.toNat).getD k 0 else keypad enter div k

def normalmap : Nat → Nat := keymap
  "\x00\x1B1234567890-=\x08\tqwertyuiop[]\n\x00asdfghjkl;'`\x00\\zxcvbnm,./\x00*\x00 \x00\x00\x00\x00\x00\x00\x00\x00\x00\x00\x00\x00\x00789-456+1230." 0x0A 0x2F

def shiftmap : Nat → Nat := keymap
  "\x00\x1B!@#$%^&*()_+\x08\tQWERTYUIOP\x7b\x7d\n\x00ASDFGHJKL:\"~\x00|ZXCVBNM<>?\x00*\x00 \x00\x00\x00\x00\x00\x00\x00\x00\x00\x00\x00\x00\x00789-456+1230." 0x0A 0x2F

/-- `C(x)` as an unsigned character. -/
def ctlchar (c : Nat) : Nat := (c + 256 - 0x40) % 256

def ctlmap (k : Nat) : Nat :=
  if k = 0x1C then 0x0D else if k = 0x35 then ctlchar 0x2F else if k = 0x2B then ctlchar 0x5C
  else if 0x41 ≤ shiftmap k ∧ shiftmap k ≤ 0x5A then ctlchar (shiftmap k) else if k < 0x80 then 0
    else keypad 0x0D (ctlchar 0x2F) k

def altmap (k : Nat) : Nat := if k = 0x2E then 3 else if k < 0x80 then 0 else keypad 0x0D (ctlchar 0x2F) k

/-- `charcode[shift & (CTL | ALT | SHIFT)][data]`. -/
def charcode (shift : BitVec 32) (k : Byte) : Nat :=
  if shift &&& ALT ≠ 0 then altmap k.toNat else if shift &&& CTL ≠ 0 then ctlmap k.toNat
  else if shift &&& SHIFT ≠ 0 then shiftmap k.toNat else normalmap k.toNat

def capslock (shift : BitVec 32) (c : Nat) : Nat :=
  if shift &&& CAPSLOCK = 0 then c else if 0x61 ≤ c ∧ c ≤ 0x7A then c - 0x20 else if 0x41 ≤ c ∧ c ≤ 0x5A then c + 0x20 else c

/-- The result of `kbdgetc` and the new `shift`; `st` and `data` are the bytes at the two ports. -/
def kbdgetc (st data : Byte) (shift : BitVec 32) : Int × BitVec 32 :=
  if st &&& 1 = 0 then (-1, shift)
  else if data = 0xE0 then (0, shift ||| E0ESC)
  else if data &&& 0x80 ≠ 0 then
    (0, shift &&& ~~~(shiftcode (if shift &&& E0ESC ≠ 0 then data else data &&& 0x7F) ||| E0ESC))
  else
    let k := if shift &&& E0ESC ≠ 0 then data ||| 0x80 else data
    let shift := if shift &&& E0ESC ≠ 0 then shift &&& ~~~E0ESC else shift
    let shift := (shift ||| shiftcode k) ^^^ togglecode k
    (capslock shift (charcode shift k), shift)

structure Key where
  ext : Bool
  code : Byte
  lt : code < 0x80
  ne : code ≠ 0x60

inductive Event
  | press (k : Key)
  | release (k : Key)

def Key.index (k : Key) : Byte := if k.ext = true then k.code ||| 0x80 else k.code

def Event.bytes : Event → List Byte
  | press k => (if k.ext = true then [0xE0] else []) ++ [k.code]
  | release k => (if k.ext = true then [0xE0] else []) ++ [k.code ||| 0x80]

def feed (shift : BitVec 32) (bs : List Byte) : BitVec 32 := bs.foldl (fun shift b => (kbdgetc 1 b shift).2) shift

structure State where
  shift : BitVec 32
  held : Set Key

def Event.step (s : State) (e : Event) : State where
  shift := feed s.shift e.bytes
  held := match e with
    | press k => insert k s.held
    | release k => s.held \ {k}

def run (evs : List Event) : State := evs.foldl Event.step ⟨0, ∅⟩

structure Follows (s : State) : Prop where
  plain : s.shift &&& E0ESC = 0
  bits : ∀ f ∈ [SHIFT, CTL, ALT], s.shift &&& f ≠ 0 ↔ ∃ k ∈ s.held, shiftcode k.index = f

def Event.Alone (held : Set Key) : Event → Prop
  | press _ => True
  | release k => ∀ k' ∈ held, k' ≠ k → shiftcode k.index ≠ 0 → shiftcode k'.index ≠ shiftcode k.index

section

variable {x a b f : BitVec 32} {k : Key} {s : State} {e : Event}

theorem or_xor_and (hb : b &&& f = 0) : ((x ||| a) ^^^ b) &&& f = x &&& f ||| a &&& f := by
  refine BitVec.eq_of_getLsbD_eq fun i hi => ?_
  have hbit : (b.getLsbD i && f.getLsbD i) = false := by
    rw [← BitVec.getLsbD_and, hb]
    exact BitVec.getLsbD_zero
  simp only [BitVec.getLsbD_and, BitVec.getLsbD_or, BitVec.getLsbD_xor]
  rcases Bool.and_eq_false_iff.1 hbit with h | h
  · simp [h, Bool.and_or_distrib_right]
  · simp [h]

theorem or_and_not (h : x &&& f = 0) : (x ||| f) &&& ~~~f = x := by
  refine BitVec.eq_of_getLsbD_eq fun i hi => ?_
  have hbit : (x.getLsbD i && f.getLsbD i) = false := by
    rw [← BitVec.getLsbD_and, h]
    exact BitVec.getLsbD_zero
  simp only [BitVec.getLsbD_and, BitVec.getLsbD_or, BitVec.getLsbD_not, hi]
  rcases Bool.and_eq_false_iff.1 hbit with h | h <;> simp [h]

theorem shiftcode_mem (c : Byte) : shiftcode c ∈ [0, SHIFT, CTL, ALT] := by
  unfold shiftcode
  split
  · decide
  · split
    · decide
    · split <;> decide

theorem togglecode_mem (c : Byte) : togglecode c ∈ [0, CAPSLOCK, NUMLOCK, SCROLLLOCK] := by
  unfold togglecode
  split
  · decide
  · split
    · decide
    · split <;> decide

theorem toggle_and (c : Byte) (hf : f ∈ [SHIFT, CTL, ALT, E0ESC]) : togglecode c &&& f = 0 := by
  have hb := togglecode_mem c
  generalize togglecode c = b at hb ⊢
  fin_cases hb <;> fin_cases hf <;> rfl

theorem shiftcode_and (c : Byte) (hf : f ∈ [SHIFT, CTL, ALT, E0ESC]) : shiftcode c &&& f = if shiftcode c = f then f else 0 := by
  have ha := shiftcode_mem c
  generalize shiftcode c = a at ha ⊢
  fin_cases ha <;> fin_cases hf <;> rfl

theorem not_shiftcode_and (c : Byte) (hf : f ∈ [SHIFT, CTL, ALT]) :
    ~~~(shiftcode c ||| E0ESC) &&& f = if shiftcode c = f then 0 else f := by
  have ha := shiftcode_mem c
  generalize shiftcode c = a at ha ⊢
  fin_cases ha <;> fin_cases hf <;> rfl

theorem not_shiftcode (c : Byte) : ~~~(shiftcode c ||| E0ESC) = ~~~E0ESC &&& ~~~(shiftcode c ||| E0ESC) ∧
    ~~~(shiftcode c ||| E0ESC) &&& E0ESC = 0 := by
  have ha := shiftcode_mem c
  generalize shiftcode c = a at ha ⊢
  fin_cases ha <;> exact ⟨rfl, rfl⟩

theorem code_bits (k : Key) : k.code ≠ 0xE0 ∧ k.code &&& 0x80 = 0 ∧ k.code ||| 0x80 ≠ 0xE0 ∧ (k.code ||| 0x80) &&& 0x80 ≠ 0 ∧
    (k.code ||| 0x80) &&& 0x7F = k.code := by
  have h : ∀ c : Byte, c < 0x80 → c ≠ 0x60 → c ≠ 0xE0 ∧ c &&& 0x80 = 0 ∧ c ||| 0x80 ≠ 0xE0 ∧ (c ||| 0x80) &&& 0x80 ≠ 0 ∧
      (c ||| 0x80) &&& 0x7F = c := by decide
  exact h k.code k.lt k.ne

theorem pending (h : x &&& E0ESC = 0) : (x ||| E0ESC) &&& E0ESC ≠ 0 := by
  have hd : (x ||| E0ESC) &&& E0ESC = x &&& E0ESC ||| E0ESC &&& E0ESC := BitVec.and_or_distrib_right
  rw [hd, h]
  decide

theorem kbdgetc_e0esc (x : BitVec 32) : (kbdgetc 1 0xE0 x).2 = x ||| E0ESC := rfl

theorem feed_press (h : x &&& E0ESC = 0) : feed x (Event.press k).bytes = (x ||| shiftcode k.index) ^^^ togglecode k.index := by
  obtain ⟨h1, h2, -⟩ := code_bits k
  have hdib : ¬ (1 : Byte) &&& 1 = 0 := by decide
  rw [Event.bytes, Key.index]
  cases k.ext with
  | false =>
    change (kbdgetc 1 k.code x).2 = (x ||| shiftcode k.code) ^^^ togglecode k.code
    rw [kbdgetc, if_neg hdib, if_neg h1, if_neg (not_not.2 h2), if_neg (not_not.2 h), if_neg (not_not.2 h)]
  | true =>
    change (kbdgetc 1 k.code (kbdgetc 1 0xE0 x).2).2 = (x ||| shiftcode (k.code ||| 0x80)) ^^^ togglecode (k.code ||| 0x80)
    rw [kbdgetc_e0esc, kbdgetc, if_neg hdib, if_neg h1, if_neg (not_not.2 h2), if_pos (pending h),
      if_pos (pending h), or_and_not h]

theorem feed_release (h : x &&& E0ESC = 0) : feed x (Event.release k).bytes = x &&& ~~~(shiftcode k.index ||| E0ESC) := by
  obtain ⟨-, -, h1, h2, h3⟩ := code_bits k
  have hdib : ¬ (1 : Byte) &&& 1 = 0 := by decide
  rw [Event.bytes, Key.index]
  cases k.ext with
  | false =>
    change (kbdgetc 1 (k.code ||| 0x80) x).2 = x &&& ~~~(shiftcode k.code ||| E0ESC)
    rw [kbdgetc, if_neg hdib, if_neg h1, if_pos h2, if_neg (not_not.2 h), h3]
  | true =>
    change (kbdgetc 1 (k.code ||| 0x80) (kbdgetc 1 0xE0 x).2).2 = x &&& ~~~(shiftcode (k.code ||| 0x80) ||| E0ESC)
    rw [kbdgetc_e0esc, kbdgetc, if_neg hdib, if_neg h1, if_pos h2, if_pos (pending h)]
    -- the prefix bit, set by the first byte, is cleared with the modifier
    have hnot := (not_shiftcode (k.code ||| 0x80)).1
    change (x ||| E0ESC) &&& ~~~(shiftcode (k.code ||| 0x80) ||| E0ESC) = _
    rw [hnot, ← BitVec.and_assoc, or_and_not h, ← hnot]

theorem Follows.step_iff (h : Follows s) : Follows (e.step s) ↔ e.Alone s.held := by
  have hsub : [SHIFT, CTL, ALT] ⊆ [SHIFT, CTL, ALT, E0ESC] := by decide
  have hpos : ∀ f ∈ [SHIFT, CTL, ALT], f ≠ 0 := fun f hf => by fin_cases hf <;> decide
  cases e with
  | press k =>
    refine iff_of_true ⟨?_, fun f hf => ?_⟩ trivial
    · have hsc : shiftcode k.index ≠ E0ESC := fun he => absurd (shiftcode_mem k.index) (by rw [he]; decide)
      change feed s.shift _ &&& E0ESC = 0
      rw [feed_press h.plain, or_xor_and (toggle_and _ (by decide)), h.plain, shiftcode_and _ (by decide), if_neg hsc]
      rfl
    · change feed s.shift _ &&& f ≠ 0 ↔ ∃ k' ∈ insert k s.held, shiftcode k'.index = f
      rw [feed_press h.plain, or_xor_and (toggle_and _ (hsub hf)), shiftcode_and _ (hsub hf),
        Set.exists_mem_insert, ← h.bits f hf]
      split
      · next hk =>
        refine iff_of_true (fun hz => hpos f hf ?_) (.inl hk)
        exact (BitVec.or_eq_zero_iff.1 hz).2
      · next hk => rw [or_iff_right hk, show (0 : BitVec 32) = 0#32 from rfl, BitVec.or_zero]
  | release k =>
    have hbit : ∀ f ∈ [SHIFT, CTL, ALT], (Event.step s (.release k)).shift &&& f ≠ 0 ↔
        shiftcode k.index ≠ f ∧ ∃ k' ∈ s.held, shiftcode k'.index = f := fun f hf => by
      change feed s.shift _ &&& f ≠ 0 ↔ _
      rw [feed_release h.plain, BitVec.and_assoc, not_shiftcode_and _ hf, ← h.bits f hf]
      split
      · next hk => exact iff_of_false (fun hz => hz BitVec.and_zero) fun hc => hc.1 hk
      · next hk => rw [and_iff_right hk]
    constructor
    · intro h' k' hk' hne hz he
      have hf : shiftcode k.index ∈ [SHIFT, CTL, ALT] := (List.mem_cons.1 (shiftcode_mem k.index)).resolve_left hz
      have hset := (h'.bits _ hf).2 ⟨k', ⟨hk', hne⟩, he⟩
      exact ((hbit _ hf).1 hset).1 rfl
    · intro ha
      refine ⟨?_, fun f hf => (hbit f hf).trans ⟨?_, ?_⟩⟩
      · change feed s.shift _ &&& E0ESC = 0
        rw [feed_release h.plain, BitVec.and_assoc, (not_shiftcode _).2]
        exact BitVec.and_zero
      · rintro ⟨hne, k', hk', he⟩
        exact ⟨k', ⟨hk', fun h => hne (h ▸ he)⟩, he⟩
      · rintro ⟨k', ⟨hk', hne⟩, he⟩
        refine ⟨fun hkf => ha k' hk' hne ?_ (he.trans hkf.symm), k', hk', he⟩
        rw [hkf]
        exact hpos f hf

/-- The modifier bits follow the keys all the time just if no modifier is released while its twin is held. -/
theorem modifiers_iff (evs : List Event) :
    (∀ pre, pre <+: evs → Follows (run pre)) ↔ ∀ pre e, pre ++ [e] <+: evs → e.Alone (run pre).held := by
  have hrun : ∀ pre e, run (pre ++ [e]) = e.step (run pre) := fun pre e => List.foldl_append
  constructor
  · intro h pre e hpre
    have hlast := h _ hpre
    rw [hrun] at hlast
    exact (h pre ((List.prefix_append ..).trans hpre)).step_iff.1 hlast
  · intro h pre
    induction pre using List.reverseRecOn with
    | nil =>
      refine fun _ => ⟨rfl, fun f _ => ⟨fun hf => absurd BitVec.zero_and hf, ?_⟩⟩
      rintro ⟨k, hk, -⟩
      exact hk.elim
    | append_singleton pre e ih =>
      intro hpre
      rw [hrun]
      exact (ih ((List.prefix_append ..).trans hpre)).step_iff.2 (h pre e hpre)

end

def leftShift : Key := ⟨false, 0x2A, by decide, by decide⟩

def rightShift : Key := ⟨false, 0x36, by decide, by decide⟩

/-- Both shift keys are pressed and one is released. -/
theorem shift_released_early : ¬ Follows (run [.press leftShift, .press rightShift, .release rightShift]) := fun h => by
  have hbit := (h.bits SHIFT (by decide)).2 ⟨leftShift, ⟨.inr (.inl rfl), fun he => ?_⟩, rfl⟩
  · exact hbit (by decide)
  · exact absurd (congrArg Key.code he) (by decide)

end Xv6.Kbd
