import Xv6.Bytes

/-!
# `memmove` in the kernel and in the user library (`string.c`, `ulib.c`)

The kernel copies downwards where the destination overlaps the end of the source, the user library always upwards. There a byte
that has been overwritten is read again, so that the bytes of the source come out repeated.
-/

namespace Xv6

open Function

abbrev Memory := Nat → Byte

/-- `while(n-- > 0) *d++ = *s++;` -/
def copyUp (m : Memory) : (d s n : Nat) → Memory
  | _, _, 0 => m
  | d, s, n + 1 => copyUp (update m d (m s)) ((d + 1) % 2 ^ 32) ((s + 1) % 2 ^ 32) n

/-- `while(n-- > 0) *--d = *--s;` -/
def copyDown (m : Memory) : (d s n : Nat) → Memory
  | _, _, 0 => m
  | d, s, n + 1 => copyDown (update m ((d + 2 ^ 32 - 1) % 2 ^ 32) (m ((s + 2 ^ 32 - 1) % 2 ^ 32))) ((d + 2 ^ 32 - 1) % 2 ^ 32)
      ((s + 2 ^ 32 - 1) % 2 ^ 32) n

def memmove (m : Memory) (dst src n : Nat) : Memory :=
  if src < dst ∧ dst < (src + n) % 2 ^ 32 then copyDown m ((dst + n) % 2 ^ 32) ((src + n) % 2 ^ 32) n else copyUp m dst src n

def Ulib.memmove (m : Memory) (dst src n : Nat) : Memory := copyUp m dst src (BitVec.ofNat 32 n).toInt.toNat

/-- The range at `dst` is as the range at `src` was, and nothing else has changed. -/
structure Copied (dst src n : Nat) (m m' : Memory) : Prop where
  inside : ∀ i < n, m' (dst + i) = m (src + i)
  outside : ∀ a, a < dst ∨ dst + n ≤ a → m' a = m a

section

variable {m m' m'' : Memory} {d s n dst src : Nat}

theorem Copied.unique (h : Copied dst src n m m') (h' : Copied dst src n m m'') : m' = m'' := by
  funext a
  by_cases ha : a < dst ∨ dst + n ≤ a
  · rw [h.outside a ha, h'.outside a ha]
  · obtain ⟨i, rfl⟩ : ∃ i, a = dst + i := ⟨a - dst, by omega⟩
    rw [h.inside i (by omega), h'.inside i (by omega)]

theorem copyUp_succ (hd : d + n < 2 ^ 32) (hs : s + n < 2 ^ 32) :
    copyUp m d s (n + 1) = copyUp (update m d (m s)) (d + 1) (s + 1) n := by
  rw [copyUp]
  cases n with
  | zero => rfl
  | succ n => rw [Nat.mod_eq_of_lt (show d + 1 < 2 ^ 32 by omega), Nat.mod_eq_of_lt (show s + 1 < 2 ^ 32 by omega)]

theorem copyDown_succ (hd : d + n < 2 ^ 32) (hs : s + n < 2 ^ 32) :
    copyDown m ((d + (n + 1)) % 2 ^ 32) ((s + (n + 1)) % 2 ^ 32) (n + 1) =
      copyDown (update m (d + n) (m (s + n))) ((d + n) % 2 ^ 32) ((s + n) % 2 ^ 32) n := by
  have hprev : ∀ a < 2 ^ 32, ((a + 1) % 2 ^ 32 + 2 ^ 32 - 1) % 2 ^ 32 = a := fun a ha => by omega
  rw [copyDown, ← Nat.add_assoc, ← Nat.add_assoc, hprev _ hd, hprev _ hs, Nat.mod_eq_of_lt hd, Nat.mod_eq_of_lt hs]

theorem copyUp_outside (hd : d + n ≤ 2 ^ 32) (hs : s + n ≤ 2 ^ 32) {a : Nat} (ha : a < d ∨ d + n ≤ a) :
    copyUp m d s n a = m a := by
  induction n generalizing m d s with
  | zero => rfl
  | succ n ih => rw [copyUp_succ hd hs, ih (by omega) (by omega) (by omega), update_of_ne (by omega)]

theorem copyUp_below (hs : s + n ≤ 2 ^ 32) (h : d ≤ s) {i : Nat} (hi : i < n) : copyUp m d s n (d + i) = m (s + i) := by
  induction n generalizing m d s i with
  | zero => omega
  | succ n ih =>
    rw [copyUp_succ (by omega) hs]
    cases i with
    | zero => rw [copyUp_outside (by omega) (by omega) (.inl (by omega)), Nat.add_zero, update_self, Nat.add_zero]
    | succ i =>
      rw [show d + (i + 1) = d + 1 + i by omega, ih (by omega) (by omega) (by omega), update_of_ne (by
        omega), Nat.add_assoc, Nat.add_comm 1]

theorem copyUp_above {k : Nat} (hd : s + k + n ≤ 2 ^ 32) (hk : 0 < k) {i : Nat} (hi : i < n) :
    copyUp m (s + k) s n (s + k + i) = m (s + i % k) := by
  induction n generalizing m s i with
  | zero => omega
  | succ n ih =>
    rw [copyUp_succ hd (by omega)]
    cases i with
    | zero => rw [copyUp_outside (by omega) (by omega) (.inl (by omega)), Nat.add_zero, update_self, Nat.zero_mod, Nat.add_zero]
    | succ i =>
      rw [show s + k + 1 = s + 1 + k by omega, show s + k + (i + 1) = s + 1 + k + i by
        omega, ih (by omega) (by omega), ← Nat.mod_add_mod]
      -- after the last byte of a period comes the byte that has just been written
      by_cases hlast : i % k + 1 = k
      · rw [show s + 1 + i % k = s + k by omega, update_self, hlast, Nat.mod_self, Nat.add_zero]
      · have := Nat.mod_lt i hk
        rw [Nat.mod_eq_of_lt (show i % k + 1 < k by omega), update_of_ne (by omega), Nat.add_assoc, Nat.add_comm 1]

theorem copyDown_outside (hd : d + n ≤ 2 ^ 32) (hs : s + n ≤ 2 ^ 32) {a : Nat} (ha : a < d ∨ d + n ≤ a) :
    copyDown m ((d + n) % 2 ^ 32) ((s + n) % 2 ^ 32) n a = m a := by
  induction n generalizing m with
  | zero => rfl
  | succ n ih => rw [copyDown_succ hd hs, ih (by omega) (by omega) (by omega), update_of_ne (by omega)]

theorem copyDown_above (hd : d + n ≤ 2 ^ 32) (h : s < d) {i : Nat} (hi : i < n) :
    copyDown m ((d + n) % 2 ^ 32) ((s + n) % 2 ^ 32) n (d + i) = m (s + i) := by
  induction n generalizing m with
  | zero => omega
  | succ n ih =>
    rw [copyDown_succ hd (by omega)]
    by_cases hin : i = n
    · rw [copyDown_outside (by omega) (by omega) (.inr (by omega)), hin, update_self]
    · rw [ih (by omega) (by omega), update_of_ne (by omega)]

theorem memmove_copied (hs : src + n ≤ 2 ^ 32) (hd : dst + n ≤ 2 ^ 32) : Copied dst src n m (memmove m dst src n) := by
  rw [memmove]
  split
  · next h => exact ⟨fun i hi => copyDown_above hd h.1 hi, fun a ha => copyDown_outside hd hs ha⟩
  · next h =>
    refine ⟨fun i hi => ?_, fun a ha => copyUp_outside hd hs ha⟩
    by_cases hle : dst ≤ src
    · exact copyUp_below hs hle hi
    · -- the ranges do not meet
      obtain ⟨k, rfl⟩ : ∃ k, dst = src + k := ⟨dst - src, by omega⟩
      rw [copyUp_above hd (by omega) hi, Nat.mod_eq_of_lt (by omega)]

/-- The library's `memmove` does no harm: the length is not negative as an `int` and the bytes of the
source repeat with the distance of the ranges if these overlap the wrong way; or nothing need be copied.
-/
def Harmless (m : Memory) (dst src n : Nat) : Prop :=
  if n < 2 ^ 31 then dst ≤ src ∨ ∀ i < n, m (src + i) = m (src + i % (dst - src)) else ∀ i < n, m (dst + i) = m (src + i)

theorem ulib_copied_iff (hs : src + n ≤ 2 ^ 32) (hd : dst + n ≤ 2 ^ 32) :
    Copied dst src n m (Ulib.memmove m dst src n) ↔ Harmless m dst src n := by
  rw [Ulib.memmove, Harmless]
  split
  · next hn =>
    have hint : (BitVec.ofNat 32 n).toInt.toNat = n := by
      rw [BitVec.toInt_eq_toNat_cond, BitVec.toNat_ofNat, Nat.mod_eq_of_lt (by omega), if_pos (by omega), Int.toNat_natCast]
    rw [hint]
    by_cases hle : dst ≤ src
    · exact ⟨fun _ => .inl hle, fun _ => ⟨fun i hi => copyUp_below hs hle hi, fun a ha => copyUp_outside hd hs ha⟩⟩
    · obtain ⟨k, rfl⟩ : ∃ k, dst = src + k := ⟨dst - src, by omega⟩
      rw [or_iff_right hle, Nat.add_sub_cancel_left]
      constructor
      · intro h i hi
        rw [← h.inside i hi, copyUp_above hd (by omega) hi]
      · intro h
        refine ⟨fun i hi => ?_, fun a ha => copyUp_outside hd hs ha⟩
        rw [copyUp_above hd (by omega) hi, h i hi]
  · next hn =>
    have hint : (BitVec.ofNat 32 n).toInt.toNat = 0 := by
      rw [BitVec.toInt_eq_toNat_cond, BitVec.toNat_ofNat]
      split <;> omega
    rw [hint]
    exact ⟨fun h => h.inside, fun h => ⟨h, fun _ _ => rfl⟩⟩

/-- The two copy as if simultaneously: the kernel's always, the library's and with it their agreement
just where it does no harm. -/
theorem memmove_both (m : Memory) {dst src n : Nat} (hs : src + n ≤ 2 ^ 32) (hd : dst + n ≤ 2 ^ 32) :
    Copied dst src n m (memmove m dst src n) ∧ (Copied dst src n m (Ulib.memmove m dst src n) ↔ Harmless m dst src n) ∧
      (Ulib.memmove m dst src n = memmove m dst src n ↔ Harmless m dst src n) := by
  have hk := memmove_copied (m := m) hs hd
  have hu := ulib_copied_iff (m := m) hs hd
  refine ⟨hk, hu, fun h => hu.1 (h ▸ hk), fun h => (hu.2 h).unique hk⟩

end

def oneTwoThree : Memory := fun a => if a < 3 then BitVec.ofNat 8 (a + 1) else 0

theorem memmove_both_shift : Ulib.memmove oneTwoThree 0 1 2 = memmove oneTwoThree 0 1 2 := by
  have h := (@memmove_both oneTwoThree 0 1 2 (by decide) (by decide)).2.2
  exact h.2 (.inl (by decide))

/-- Two bytes moved up by one: the first comes out twice. -/
theorem ulib_memmove_repeats : ¬ Copied 1 0 2 oneTwoThree (Ulib.memmove oneTwoThree 1 0 2) := fun h =>
  absurd (h.inside 1 (by decide)) (by decide)

end Xv6
