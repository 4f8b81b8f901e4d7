import Xv6.Sysfile

/-!
# The cipher on one byte

A byte is a signed `char`, the key an `int`, and `%` truncates. `sys_encr` stores `(c + key) % 128` and
`sys_decr` stores `(c - key + 128) % 128`; `int` arithmetic wraps around.
-/

namespace Xv6

def Recoverable (key : BitVec 32) (c : Byte) : Prop :=
  c.toInt = 0 ∨ (0 < c.toInt ∧ -2 ^ 31 + 128 < c.toInt + key.toInt ∧ c.toInt + key.toInt < 256) ∨
    (-128 < c.toInt ∧ c.toInt < 0 ∧ (128 ≤ c.toInt + key.toInt ∨ c.toInt + key.toInt ≤ -2 ^ 31))

instance (key : BitVec 32) (c : Byte) : Decidable (Recoverable key c) := inferInstanceAs (Decidable (_ ∨ _ ∨ _))

theorem tmod_128 (t : Int) : ∃ m, t = 128 * m + t.tmod 128 ∧ (0 ≤ t → 0 ≤ t.tmod 128 ∧ t.tmod 128 < 128) ∧
    (t ≤ 0 → -128 < t.tmod 128 ∧ t.tmod 128 ≤ 0) :=
  ⟨t.tdiv 128, (Int.mul_tdiv_add_tmod t 128).symm, fun h => ⟨Int.tmod_nonneg _ h, Int.tmod_lt_of_pos _ (by decide)⟩,
    fun h => by
      have h1 := Int.tmod_nonneg 128 (a := -t) (by omega)
      have h2 := Int.tmod_lt_of_pos (-t) (show (0 : Int) < 128 by decide)
      rw [Int.neg_tmod] at h1 h2
      omega⟩

theorem bmod_32 (t : Int) : ∃ q, t.bmod (2 ^ 32) = t + 2 ^ 32 * q ∧ -2 ^ 31 ≤ t.bmod (2 ^ 32) ∧ t.bmod (2 ^ 32) < 2 ^ 31 := by
  have h1 := Int.le_bmod (x := t) (show 0 < 2 ^ 32 by decide)
  have h2 := Int.bmod_lt (x := t) (show 0 < 2 ^ 32 by decide)
  obtain ⟨q, hq⟩ := Int.dvd_bmod_sub_self (x := t) (m := 2 ^ 32)
  exact ⟨q, by omega, by omega, by omega⟩

theorem toInt_ofInt_tmod (t : Int) : (BitVec.ofInt 8 (t.tmod 128)).toInt = t.tmod 128 := by
  obtain ⟨m, -, h1, h2⟩ := tmod_128 t
  rw [BitVec.toInt_ofInt]
  exact Int.bmod_eq_of_le (by omega) (by omega)

theorem toInt_encrByte (key : BitVec 32) (c : Byte) :
    (encrByte key c).toInt = ((c.toInt + key.toInt).bmod (2 ^ 32)).tmod 128 := by
  rw [encrByte, toInt_ofInt_tmod, BitVec.toInt_add, BitVec.toInt_signExtend_of_le (by decide)]

theorem toInt_decrByte (key : BitVec 32) (c : Byte) :
    (decrByte key c).toInt = ((c.toInt - key.toInt + 128).bmod (2 ^ 32)).tmod 128 := by
  rw [decrByte, toInt_ofInt_tmod, BitVec.toInt_add, BitVec.toInt_sub, BitVec.toInt_signExtend_of_le (by decide)]
  simp

theorem tmod_eq_iff {x u j : Int} (hx : -128 ≤ x) (hx' : x < 128) (hu : u = x + 128 * j) :
    u.tmod 128 = x ↔ x = 0 ∨ (0 < x ∧ 0 ≤ j) ∨ (-128 < x ∧ x < 0 ∧ j ≤ 0) := by
  obtain ⟨l, hl, hl1, hl2⟩ := tmod_128 u
  generalize u.tmod 128 = w at *
  obtain ⟨i, hi⟩ : ∃ i, w = x + 128 * i := ⟨j - l, by omega⟩
  rcases Int.le_total 0 u with h | h
  · have := hl1 h
    omega
  · have := hl2 h
    omega

theorem decrByte_encrByte_iff (key : BitVec 32) (c : Byte) : decrByte key (encrByte key c) = c ↔ Recoverable key c := by
  rw [← BitVec.toInt_inj, toInt_decrByte, toInt_encrByte, Recoverable]
  have hx := c.toInt_lt
  have hx' := c.le_toInt
  have hk := key.toInt_lt
  have hk' := key.le_toInt
  generalize c.toInt = x at *
  generalize key.toInt = k at *
  obtain ⟨q, hq, hq1, hq2⟩ := bmod_32 (x + k)
  generalize (x + k).bmod (2 ^ 32) = t at *
  obtain ⟨m, hm, hm1, hm2⟩ := tmod_128 t
  generalize t.tmod 128 = e at *
  obtain ⟨r, hr, hr1, hr2⟩ := bmod_32 (e - k + 128)
  generalize (e - k + 128).bmod (2 ^ 32) = u at *
  have hu : u = x + 128 * (1 - m + 2 ^ 25 * (q + r)) := by omega
  rw [tmod_eq_iff (by omega) (by omega) hu]
  clear hr
  generalize hj : 1 - m + 2 ^ 25 * (q + r) = j at *
  have hq' : q = 0 ∨ q = 1 ∨ q = -1 := by omega
  -- the sign is that of the quotient of the encryption, unless adding 128 overflows
  rcases Int.le_total 0 t with ht | ht
  · have := hm1 ht
    clear hm1 hm2
    rcases hq' with rfl | rfl | rfl <;> omega
  · have := hm2 ht
    clear hm1 hm2
    rcases hq' with rfl | rfl | rfl <;> omega

end Xv6
