import Mathlib.Logic.Function.Iterate
import Xv6.Log
import Xv6.Memmove

/-!
# Scanning the MP configuration table (`mp.c`)

The loop of `mpinit` goes from entry to entry by the size of each. For an unknown entry it only clears
`ismp`: the `break` there leaves the `switch` and not the loop, so that the loop meets the same entry
again. The loop is run with a bound on its rounds, and `spins` says that the bound is too small. What
`mpsearch` finds is an argument, and the switch of the interrupt mode at the end is left out.
-/

namespace Xv6.Mp

open Function

abbrev NCPU : Nat := 8

/-- The bytes from the address `a` on. -/
def bytesAt (m : Memory) (a : Nat) : Memory := fun k => m ((a + k) % 2 ^ 32)

def sum (b : Memory) (len : Nat) : Byte := (List.range len).foldl (fun s i => s + b i) 0

def mpconfig (m : Memory) (mp : Option Nat) : Option Nat := do
  let physaddr := (u32 (bytesAt m (← mp)) 4).toNat
  let conf := (physaddr + 0x80000000) % 2 ^ 32
  let b := bytesAt m conf
  if physaddr = 0 then none
  else if [b 0, b 1, b 2, b 3] ≠ [0x50, 0x43, 0x4D, 0x50] then none
  else if b 6 ≠ 1 ∧ b 6 ≠ 4 then none
  else if sum b (u16 b 4).toNat ≠ 0 then none
  else some conf

/-- The variables that `mpinit` sets. -/
structure State where
  p : Nat
  ncpu : Nat
  apicid : Nat → Byte
  ioapicid : Byte
  ismp : Bool

def entry (m : Memory) (s : State) : State :=
  match (m s.p).toNat with
  | 0 =>
    if s.ncpu < NCPU then
      { s with apicid := update s.apicid s.ncpu (m ((s.p + 1) % 2 ^ 32)), ncpu := s.ncpu + 1, p := (s.p + 20) % 2 ^ 32 }
    else { s with p := (s.p + 20) % 2 ^ 32 }
  | 2 => { s with ioapicid := m ((s.p + 1) % 2 ^ 32), p := (s.p + 8) % 2 ^ 32 }
  | 1 | 3 | 4 => { s with p := (s.p + 8) % 2 ^ 32 }
  | _ => { s with ismp := false }

def scan (m : Memory) (e : Nat) : (rounds : Nat) → State → Option State
  | 0, _ => none
  | n + 1, s => if s.p < e then scan m e n (entry m s) else some s

def mpinit (m : Memory) (mp : Option Nat) (rounds : Nat) (s : State) : Except Fault State :=
  match mpconfig m mp with
  | none => .error (.panic "Expect to run on an SMP")
  | some conf =>
    match scan m ((conf + (u16 (bytesAt m conf) 4).toNat) % 2 ^ 32) rounds { s with p := (conf + 44) % 2 ^ 32, ismp := true } with
    | none => .error .spins
    | some s => if s.ismp = true then .ok s else .error (.panic "Didn't find a suitable machine")

def next (m : Memory) (p : Nat) : Nat := (p + if m p = 0 then 20 else 8) % 2 ^ 32

/-- Going by the sizes of the entries from `p` on, all entries before `e` have known types. -/
def Known (m : Memory) (e p : Nat) : Prop := ∃ n, e ≤ (next m)^[n] p ∧ ∀ k < n, (m ((next m)^[k] p)).toNat ≤ 4

section

variable {m : Memory} {e : Nat} {s s' : State}

theorem entry_known (h : (m s.p).toNat ≤ 4) :
    (entry m s).p = next m s.p ∧ (entry m s).ismp = s.ismp ∧ (s.ncpu ≤ NCPU → (entry m s).ncpu ≤ NCPU) := by
  have hz : m s.p = 0 ↔ (m s.p).toNat = 0 := by rw [← BitVec.toNat_inj]; rfl
  have hcases : (m s.p).toNat = 0 ∨ (m s.p).toNat = 1 ∨ (m s.p).toNat = 2 ∨ (m s.p).toNat = 3 ∨ (m s.p).toNat = 4 := by omega
  simp only [next, entry, hz]
  rcases hcases with ht | ht | ht | ht | ht <;> simp only [ht]
  · rw [if_pos trivial]
    split
    · exact ⟨rfl, rfl, fun _ => ‹_›⟩
    · exact ⟨rfl, rfl, id⟩
  all_goals simp

theorem scan_unknown (hlt : s.p < e) (h : 4 < (m s.p).toNat) (n : Nat) : scan m e n s = none := by
  induction n generalizing s with
  | zero => rfl
  | succ n ih =>
    have he : entry m s = { s with ismp := false } := by
      rw [entry]
      split
      all_goals first
        | omega
        | rfl
    rw [scan, if_pos hlt, he]
    exact ih hlt h

theorem Known.step (h : (m s.p).toNat ≤ 4) (hk : Known m e (next m s.p)) : Known m e s.p := by
  obtain ⟨n, hn, hall⟩ := hk
  refine ⟨n + 1, hn, fun k hk => ?_⟩
  cases k with
  | zero => exact h
  | succ k => exact hall k (by omega)

theorem scan_some {n : Nat} (h : scan m e n s = some s') :
    Known m e s.p ∧ e ≤ s'.p ∧ s'.ismp = s.ismp ∧ (s.ncpu ≤ NCPU → s'.ncpu ≤ NCPU) := by
  induction n generalizing s with
  | zero => cases h
  | succ n ih =>
    by_cases hlt : s.p < e
    · by_cases ht : (m s.p).toNat ≤ 4
      · rw [scan, if_pos hlt] at h
        obtain ⟨hp, hi, hc⟩ := entry_known ht
        obtain ⟨hk, he, hi', hc'⟩ := ih h
        rw [hp] at hk
        exact ⟨hk.step ht, he, hi'.trans hi, fun h => hc' (hc h)⟩
      · rw [scan_unknown hlt (by omega)] at h
        cases h
    · rw [scan, if_neg hlt] at h
      cases h
      exact ⟨⟨0, by simpa using hlt, fun k hk => absurd hk (Nat.not_lt_zero k)⟩, by omega, rfl, id⟩

theorem scan_of_known {n : Nat} (hn : e ≤ (next m)^[n] s.p) (hall : ∀ k < n, (m ((next m)^[k] s.p)).toNat ≤ 4) :
    ∃ s', scan m e (n + 1) s = some s' := by
  induction n generalizing s with
  | zero => exact ⟨s, if_neg (Nat.not_lt.2 hn)⟩
  | succ n ih =>
    rw [scan]
    split
    · have hp := (entry_known (hall 0 (by omega))).1
      refine ih ?_ fun k hk => ?_
      · rw [hp]
        exact hn
      · rw [hp]
        exact hall (k + 1) (by omega)
    · exact ⟨s, rfl⟩

end

/-- For a table that `mpconfig` accepts the loop ends, with at most `NCPU` processors or in the panic,
just if all entries are known. -/
theorem mpinit_iff {m : Memory} {mp : Option Nat} {conf : Nat} (h : mpconfig m mp = some conf) (s : State) (hc : s.ncpu ≤ NCPU) :
    (∃ n, (∃ s', mpinit m mp n s = .ok s' ∧ (conf + (u16 (bytesAt m conf) 4).toNat) % 2 ^ 32 ≤ s'.p ∧ s'.ncpu ≤ NCPU) ∨
        mpinit m mp n s = .error (.panic "Didn't find a suitable machine")) ↔
      Known m ((conf + (u16 (bytesAt m conf) 4).toNat) % 2 ^ 32) ((conf + 44) % 2 ^ 32) := by
  obtain ⟨e, he⟩ : ∃ e, (conf + (u16 (bytesAt m conf) 4).toNat) % 2 ^ 32 = e := ⟨_, rfl⟩
  simp only [mpinit, h, he]
  constructor
  · rintro ⟨n, hr⟩
    cases hs : scan m e n { s with p := (conf + 44) % 2 ^ 32, ismp := true } with
    | none =>
      rw [hs] at hr
      obtain ⟨s', hs', -⟩ | hp := hr
      · cases hs'
      · cases hp
    | some s' => exact (scan_some hs).1
  · rintro ⟨n, hn, hall⟩
    obtain ⟨s', hs⟩ := scan_of_known (s := { s with p := (conf + 44) % 2 ^ 32, ismp := true }) hn hall
    obtain ⟨-, hp, hi, hcpu⟩ := scan_some hs
    refine ⟨n + 1, .inl ⟨s', ?_, hp, hcpu hc⟩⟩
    rw [hs]
    exact if_pos hi

/-- A table with one entry, of type `t`. -/
def firmware (t : Byte) : Memory := fun a =>
  if a = 5 then 0x10 else if a = 0x8000102C then t
  else if 0x80001000 ≤ a then [0x50, 0x43, 0x4D, 0x50, 64, 0, 1, 0x8F - t].getD (a - 0x80001000) 0 else 0

def start : State := ⟨0, 0, fun _ => 0, 0, true⟩

theorem mpinit_one_processor : ∃ n, mpinit (firmware 0) (some 0) n start ≠ .error .spins := by
  obtain ⟨n, ⟨s', hs, -⟩ | hp⟩ := (@mpinit_iff (firmware 0) (some 0) 0x80001000 (by decide +kernel) start (by decide)).2
    ⟨1, by decide +kernel, by decide +kernel⟩
  · exact ⟨n, by rw [hs]; simp⟩
  · exact ⟨n, by rw [hp]; simp⟩

/-- An entry of type 5 is never left. -/
theorem mpinit_unknown_spins : mpconfig (firmware 5) (some 0) = some 0x80001000 ∧ ∀ n, mpinit
    (firmware 5) (some 0) n start = .error .spins := by
  have hconf : mpconfig (firmware 5) (some 0) = some 0x80001000 := by decide +kernel
  refine ⟨hconf, fun n => ?_⟩
  rw [mpinit, hconf]
  dsimp only
  rw [scan_unknown (by decide +kernel) (by decide +kernel)]

end Xv6.Mp
