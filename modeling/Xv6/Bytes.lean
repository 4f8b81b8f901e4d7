import Mathlib.Algebra.Ring.Int.Defs
import Mathlib.Algebra.Ring.Nat
import Mathlib.Logic.Function.Basic

/-!
# Fixed-size blocks of bytes

A `Block n` is `n` bytes, read at any index (zero past the end), so that block arithmetic needs no
bounds proofs and two blocks are equal once their first `n` bytes are. On top of it: `memmove` into
a block, little-endian words, and single bits.
-/

abbrev Byte := BitVec 8

instance : LawfulBEq Byte := instLawfulBEq

/-- `n` bytes; past the end a read gives zero. -/
structure Block (n : Nat) where
  data : Nat → Byte
  out : ∀ k, n ≤ k → data k = 0

namespace Block

variable {n : Nat}

@[ext] theorem ext {b c : Block n} (h : ∀ k, k < n → b.data k = c.data k) : b = c := by
  obtain ⟨f, hf⟩ := b
  obtain ⟨g, hg⟩ := c
  have : f = g := by
    funext k
    by_cases hk : k < n
    · exact h k hk
    · rw [hf k (by omega), hg k (by omega)]
  subst this
  rfl

def zero (n : Nat) : Block n := ⟨fun _ => 0, fun _ _ => rfl⟩

@[simp] theorem zero_data (k : Nat) : (zero n).data k = 0 := rfl

/-- `memmove(b + p, src, len)`, cut off at the end of the block. -/
def move (b : Block n) (p : Nat) (src : Nat → Byte) (len : Nat) : Block n where
  data k := if p ≤ k ∧ k < p + len ∧ k < n then src (k - p) else b.data k
  out k hk := by rw [if_neg (by omega)]; exact b.out k hk

theorem move_data (b : Block n) (p : Nat) (src : Nat → Byte) (len k : Nat) (hk : k < n) :
    (b.move p src len).data k = if p ≤ k ∧ k < p + len then src (k - p) else b.data k := by
  simp [move, hk]

theorem move_data_in (b : Block n) {p len k : Nat} (src : Nat → Byte) (h1 : p ≤ k) (h2 : k < p + len)
    (hk : k < n) : (b.move p src len).data k = src (k - p) := by
  rw [move_data _ _ _ _ _ hk, if_pos ⟨h1, h2⟩]

theorem move_data_out (b : Block n) {p len k : Nat} (src : Nat → Byte) (h : k < p ∨ p + len ≤ k) :
    (b.move p src len).data k = b.data k := by
  unfold move
  exact if_neg (by omega)

/-- The `len` bytes from position `p` on. -/
def slice (b : Block n) (p len : Nat) : List Byte := (List.range len).map fun i => b.data (p + i)

end Block

/-! ### Little-endian words -/

/-- Byte `i` of `v`, least significant first. -/
def leByte (v i : Nat) : Byte := BitVec.ofNat 8 (v / 256 ^ i)

/-- The value of the `k` bytes from position `p` on, least significant first. -/
def leVal (m : Nat → Byte) : (p k : Nat) → Nat
  | _, 0 => 0
  | p, k + 1 => (m p).toNat + 256 * leVal m (p + 1) k

theorem leVal_congr {m m' : Nat → Byte} : ∀ {p q k : Nat}, (∀ i, i < k → m (p + i) = m' (q + i)) →
    leVal m p k = leVal m' q k
  | _, _, 0, _ => rfl
  | p, q, k + 1, h => by
    have h0 := h 0 (by omega)
    have ht : leVal m (p + 1) k = leVal m' (q + 1) k := leVal_congr fun i hi => by
      have := h (i + 1) (by omega)
      rwa [show p + (i + 1) = p + 1 + i by omega, show q + (i + 1) = q + 1 + i by omega] at this
    simp only [Nat.add_zero] at h0
    simp only [leVal, h0, ht]

theorem leVal_leByte {m : Nat → Byte} : ∀ {p k v : Nat}, (∀ i, i < k → m (p + i) = leByte v i) →
    leVal m p k = v % 256 ^ k
  | _, 0, v, _ => by simp [leVal, Nat.mod_one]
  | p, k + 1, v, h => by
    have h0 : m p = leByte v 0 := h 0 (by omega)
    have ht : leVal m (p + 1) k = v / 256 % 256 ^ k := leVal_leByte fun i hi => by
      have := h (i + 1) (by omega)
      rw [show p + (i + 1) = p + 1 + i by omega] at this
      rw [this, leByte, leByte, Nat.div_div_eq_div_mul, Nat.pow_succ, Nat.mul_comm]
    have hv : v % 256 ^ (k + 1) = v % 256 + 256 * (v / 256 % 256 ^ k) := by
      rw [Nat.pow_succ, Nat.mul_comm, Nat.mod_mul]
    simp only [leVal, h0, ht, hv, leByte, Nat.pow_zero, Nat.div_one, BitVec.toNat_ofNat]

theorem leVal_zero {m : Nat → Byte} : ∀ {p k : Nat}, (∀ i, i < k → m (p + i) = 0) → leVal m p k = 0
  | _, 0, _ => rfl
  | p, k + 1, h => by
    have h0 : m p = 0 := h 0 (by omega)
    have ht : leVal m (p + 1) k = 0 := leVal_zero fun i hi => by
      have := h (i + 1) (by omega)
      rwa [show p + (i + 1) = p + 1 + i by omega] at this
    simp [leVal, h0, ht]

theorem leVal_lt (m : Nat → Byte) (p k : Nat) : leVal m p k < 256 ^ k := by
  induction k generalizing p with
  | zero => exact Nat.one_pos
  | succ k ih =>
    have h1 := (m p).isLt
    have h2 := ih (p + 1)
    rw [leVal, Nat.pow_succ]
    omega

theorem leByte_leVal (m : Nat → Byte) {p k i : Nat} (hi : i < k) : leByte (leVal m p k) i = m (p + i) := by
  induction k generalizing p i with
  | zero => omega
  | succ k ih =>
    have h1 := (m p).isLt
    cases i with
    | zero =>
      refine BitVec.eq_of_toNat_eq ?_
      change (BitVec.ofNat 8 (((m p).toNat + 256 * leVal m (p + 1) k) / 256 ^ 0)).toNat = (m p).toNat
      rw [Nat.pow_zero, Nat.div_one, BitVec.toNat_ofNat]
      omega
    | succ i =>
      have hdiv : leVal m p (k + 1) / 256 ^ (i + 1) = leVal m (p + 1) k / 256 ^ i := by
        rw [leVal, Nat.pow_succ', ← Nat.div_div_eq_div_mul]
        congr 1
        omega
      rw [leByte, hdiv, ← leByte, ih (by omega)]
      congr 1
      omega

/-- The 16-bit word at byte position `p`. -/
def u16 (m : Nat → Byte) (p : Nat) : BitVec 16 := BitVec.ofNat 16 (leVal m p 2)

/-- The 32-bit word at byte position `p`. -/
def u32 (m : Nat → Byte) (p : Nat) : BitVec 32 := BitVec.ofNat 32 (leVal m p 4)

theorem u16_congr {m m' : Nat → Byte} {p q : Nat} (h : ∀ i, i < 2 → m (p + i) = m' (q + i)) :
    u16 m p = u16 m' q := congrArg _ (leVal_congr h)

theorem u32_congr {m m' : Nat → Byte} {p q : Nat} (h : ∀ i, i < 4 → m (p + i) = m' (q + i)) :
    u32 m p = u32 m' q := congrArg _ (leVal_congr h)

theorem u16_leByte {m : Nat → Byte} {p : Nat} {v : BitVec 16}
    (h : ∀ i, i < 2 → m (p + i) = leByte v.toNat i) : u16 m p = v := by
  have := v.isLt
  rw [u16, leVal_leByte h]
  apply BitVec.eq_of_toNat_eq
  rw [BitVec.toNat_ofNat]; omega

theorem u32_leByte {m : Nat → Byte} {p : Nat} {v : BitVec 32}
    (h : ∀ i, i < 4 → m (p + i) = leByte v.toNat i) : u32 m p = v := by
  have := v.isLt
  rw [u32, leVal_leByte h]
  apply BitVec.eq_of_toNat_eq
  rw [BitVec.toNat_ofNat]; omega

theorem leByte_u16 (m : Nat → Byte) (p : Nat) {i : Nat} (hi : i < 2) : leByte (u16 m p).toNat i = m (p + i) := by
  have h : leVal m p 2 < 2 ^ 16 := leVal_lt m p 2
  rw [u16, BitVec.toNat_ofNat, Nat.mod_eq_of_lt h, leByte_leVal m hi]

theorem leByte_u32 (m : Nat → Byte) (p : Nat) {i : Nat} (hi : i < 4) : leByte (u32 m p).toNat i = m (p + i) := by
  have h : leVal m p 4 < 2 ^ 32 := leVal_lt m p 4
  rw [u32, BitVec.toNat_ofNat, Nat.mod_eq_of_lt h, leByte_leVal m hi]

namespace Block

variable {n : Nat}

/-- Store a 32-bit word at byte position `p`. -/
def putU32 (b : Block n) (p : Nat) (v : BitVec 32) : Block n := b.move p (leByte v.toNat) 4

theorem u32_putU32 (b : Block n) {p : Nat} (v : BitVec 32) (hp : p + 4 ≤ n) :
    u32 (b.putU32 p v).data p = v :=
  u32_leByte fun i hi => by
    rw [putU32, move_data_in b _ (by omega) (by omega) (by omega)]; congr 1; omega

theorem u32_putU32_of_disjoint (b : Block n) {p q : Nat} (v : BitVec 32) (h : q + 4 ≤ p ∨ p + 4 ≤ q) :
    u32 (b.putU32 p v).data q = u32 b.data q :=
  u32_congr fun i hi => move_data_out b _ (by omega)

@[simp] theorem u32_zero (p : Nat) : u32 (zero n).data p = 0 := by
  rw [u32, leVal_zero fun _ _ => rfl]; rfl

/-! ### Bits -/

/-- Bit `i` of the block: bit `i % 8` of byte `i / 8`. -/
def bit (b : Block n) (i : Nat) : Bool := (b.data (i / 8)).getLsbD (i % 8)

/-- `data[i/8] |= 1 << (i%8)`. -/
def setBit (b : Block n) (i : Nat) : Block n :=
  b.move (i / 8) (fun _ => b.data (i / 8) ||| (1#8 <<< (i % 8))) 1

/-- `data[i/8] &= ~(1 << (i%8))`. -/
def clearBit (b : Block n) (i : Nat) : Block n :=
  b.move (i / 8) (fun _ => b.data (i / 8) &&& ~~~(1#8 <<< (i % 8))) 1

theorem getLsbD_one_shiftLeft {i j : Nat} (hi : i < 8) (hj : j < 8) :
    (1#8 <<< i).getLsbD j = decide (j = i) := by
  rw [BitVec.getLsbD_shiftLeft, BitVec.getLsbD_one]
  by_cases h : j = i
  · subst h; simp [hj]
  · simp only [h, decide_false]
    by_cases hlt : j < i
    · simp [hlt]
    · have : ¬ (j - i = 0) := by omega
      simp [this]

theorem bit_setBit (b : Block n) {i : Nat} (hi : i / 8 < n) (j : Nat) :
    (b.setBit i).bit j = (b.bit j || decide (j = i)) := by
  by_cases h : j / 8 = i / 8
  · rw [bit, setBit, h, move_data_in b _ (by omega) (by omega) hi, BitVec.getLsbD_or,
      getLsbD_one_shiftLeft (by omega) (by omega), bit, h]
    congr 1
    simp only [decide_eq_decide]
    omega
  · have hne : j ≠ i := fun e => h (e ▸ rfl)
    rw [bit, setBit, move_data_out b _ (by omega)]
    simp [bit, hne]

theorem bit_clearBit (b : Block n) {i : Nat} (hi : i / 8 < n) (j : Nat) :
    (b.clearBit i).bit j = (b.bit j && !decide (j = i)) := by
  by_cases h : j / 8 = i / 8
  · rw [bit, clearBit, h, move_data_in b _ (by omega) (by omega) hi, BitVec.getLsbD_and,
      BitVec.getLsbD_not, getLsbD_one_shiftLeft (by omega) (by omega), bit, h]
    have : j % 8 < 8 := by omega
    have e : decide (j % 8 = i % 8) = decide (j = i) := by
      simp only [decide_eq_decide]; omega
    simp [this, e]
  · have hne : j ≠ i := fun e => h (e ▸ rfl)
    rw [bit, clearBit, move_data_out b _ (by omega)]
    simp [bit, hne]

end Block
