import Mathlib.Data.BitVec
import Mathlib.Logic.Function.Basic

/-!
# A ring with free-running counters

A ring of `cap` slots is read at the counter `r` and written at the counter `w`. The counters are never
reduced modulo `cap`: they run on and wrap with the machine word, so that a full ring and an empty one
differ. This is sound as long as `cap` divides the range of the word.
-/

namespace Ring

open Function

variable {α : Type} {n cap : Nat} {data : Nat → α} {r w : BitVec n}

def queue (cap : Nat) (data : Nat → α) (r w : BitVec n) : List α :=
  (List.range (w - r).toNat).map fun i => data ((r + BitVec.ofNat n i).toNat % cap)

@[simp] theorem length_queue : (queue cap data r w).length = (w - r).toNat := by simp [queue]

theorem queue_self : queue cap data r r = [] := by simp [queue]

theorem sub_toNat_eq_zero : (w - r).toNat = 0 ↔ r = w := by
  constructor
  · intro h
    have hz : w - r = 0#n := BitVec.eq_of_toNat_eq h
    rw [BitVec.sub_eq_iff_eq_add, BitVec.zero_add] at hz
    exact hz.symm
  · rintro rfl
    simp

theorem queue_eq_nil : queue cap data r w = [] ↔ r = w := by
  rw [← List.length_eq_zero_iff, length_queue, sub_toNat_eq_zero]

theorem full_iff (hcap : cap < 2 ^ n) : w = r + BitVec.ofNat n cap ↔ (w - r).toNat = cap := by
  have hc : (BitVec.ofNat n cap).toNat = cap := by rw [BitVec.toNat_ofNat, Nat.mod_eq_of_lt hcap]
  rw [BitVec.add_comm, ← BitVec.sub_eq_iff_eq_add]
  exact ⟨fun h => by rw [h, hc], fun h => BitVec.eq_of_toNat_eq (h.trans hc.symm)⟩

theorem succ_sub_toNat (h : (w - r).toNat + 1 < 2 ^ n) : (w + 1#n - r).toNat = (w - r).toNat + 1 := by
  have hone : w + 1#n - r = w - r + 1#n := by
    rw [BitVec.sub_eq_add_neg, BitVec.sub_eq_add_neg, BitVec.add_assoc, BitVec.add_comm 1#n, ← BitVec.add_assoc]
  have h1 : 1 < 2 ^ n := by omega
  rw [hone, BitVec.toNat_add, BitVec.toNat_ofNat, Nat.mod_eq_of_lt h1, Nat.mod_eq_of_lt h]

theorem sub_succ_toNat (h : r ≠ w) : (w - (r + 1#n)).toNat + 1 = (w - r).toNat := by
  have hpos : (w - r).toNat ≠ 0 := fun hz => h (sub_toNat_eq_zero.1 hz)
  have hlt := (w - r).isLt
  have h1 : 1 < 2 ^ n := by omega
  have hone : w - (r + 1#n) = w - r - 1#n := by
    rw [BitVec.sub_eq_add_neg, BitVec.neg_add, BitVec.sub_eq_add_neg, BitVec.sub_eq_add_neg, BitVec.sub_eq_add_neg,
      BitVec.add_assoc]
  have hle : (1#n).toNat ≤ (w - r).toNat := by
    rw [BitVec.toNat_ofNat, Nat.mod_eq_of_lt h1]
    omega
  rw [hone, BitVec.toNat_sub_of_le (BitVec.le_def.2 hle), BitVec.toNat_ofNat, Nat.mod_eq_of_lt h1]
  omega

theorem slot_add (hdvd : cap ∣ 2 ^ n) (i : Nat) : (r + BitVec.ofNat n i).toNat % cap = (r.toNat + i) % cap := by
  rw [BitVec.toNat_add, BitVec.toNat_ofNat, Nat.add_mod_mod, Nat.mod_mod_of_dvd _ hdvd]

theorem queue_pop (h : r ≠ w) :
    queue cap data r w = data (r.toNat % cap) :: queue cap data (r + 1#n) w := by
  rw [queue, ← sub_succ_toNat h, List.range_succ_eq_map, List.map_cons, List.map_map, queue]
  refine congrArg₂ List.cons (by simp) (List.map_congr_left fun i _ => ?_)
  have hi : r + BitVec.ofNat n (i + 1) = r + 1#n + BitVec.ofNat n i := by
    rw [BitVec.add_assoc, ← BitVec.ofNat_add, Nat.add_comm]
  simp only [Function.comp_apply, Nat.succ_eq_add_one, hi]

theorem queue_push (hdvd : cap ∣ 2 ^ n) (hcap : cap < 2 ^ n) (h : (w - r).toNat < cap) (b : α) :
    queue cap (update data (w.toNat % cap) b) r (w + 1#n) = queue cap data r w ++ [b] := by
  have hw : r + BitVec.ofNat n (w - r).toNat = w := by
    rw [BitVec.ofNat_toNat, BitVec.setWidth_eq, BitVec.add_comm, BitVec.sub_add_cancel]
  rw [queue, succ_sub_toNat (by omega), List.range_succ, List.map_append, List.map_singleton, hw, update_self,
    queue]
  refine congrArg (· ++ [b]) (List.map_congr_left fun i hi => ?_)
  have hlt : i < (w - r).toNat := List.mem_range.1 hi
  refine update_of_ne (fun heq => ?_) ..
  -- two counters less than `cap` apart do not share a slot
  rw [slot_add hdvd, ← hw, slot_add hdvd] at heq
  have hmod := (Nat.ModEq.add_left_cancel' r.toNat heq : i ≡ (w - r).toNat [MOD cap])
  rw [Nat.ModEq, Nat.mod_eq_of_lt (by omega), Nat.mod_eq_of_lt h] at hmod
  omega

theorem queue_split {m : BitVec n} (h : (m - r).toNat ≤ (w - r).toNat) :
    queue cap data r w = queue cap data r m ++ queue cap data m w := by
  have hsub : (w - m).toNat = (w - r).toNat - (m - r).toNat := by
    rw [← sub_sub_sub_cancel_right w m r, BitVec.toNat_sub_of_le (BitVec.le_def.2 h)]
  have hlen : (w - r).toNat = (m - r).toNat + (w - m).toNat := by omega
  rw [queue, hlen, List.range_add, List.map_append, List.map_map, queue, queue]
  refine congrArg _ (List.map_congr_left fun i _ => ?_)
  have hm : r + BitVec.ofNat n ((m - r).toNat + i) = m + BitVec.ofNat n i := by
    rw [BitVec.ofNat_add, ← BitVec.add_assoc, BitVec.ofNat_toNat, BitVec.setWidth_eq, BitVec.add_comm r, BitVec.sub_add_cancel]
  simp only [Function.comp_apply, hm]

theorem queue_concat (h : r ≠ w) : queue cap data r w = queue cap data r (w - 1#n) ++ [data ((w - 1#n).toNat % cap)] := by
  have hw : w - 1#n - r = w - (r + 1#n) := by rw [sub_sub, BitVec.add_comm]
  have hlast : r + BitVec.ofNat n (w - (r + 1#n)).toNat = w - 1#n := by
    rw [← hw, BitVec.ofNat_toNat, BitVec.setWidth_eq, BitVec.add_comm, BitVec.sub_add_cancel]
  rw [queue, queue, hw, ← sub_succ_toNat h, List.range_succ, List.map_append, List.map_singleton, hlast]

end Ring
