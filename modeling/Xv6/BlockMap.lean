import Xv6.Disk
import Xv6.Ledger

/-!
# The three-level block map and who owns which block

A block number is kept in one of the places of `Loc`: a direct pointer, the pointer to the indirect
block or one of its entries, the pointer to the double-indirect block, one of its leaf pointers or
an entry of a leaf. `ptr c d l` is the block number that the inode `d` keeps at `l`, reading pointer
blocks from the image `c`; `refs c T` collects them over a table `T` of inodes. `Owned` says that the
free map and these references balance (`Ledger`).
-/

namespace Xv6

open Function

inductive Loc where
  | direct (j : Fin 11)
  | ind
  | indEnt (j : Fin 128)
  | dind
  | leaf (k : Fin 128)
  | leafEnt (k j : Fin 128)
deriving DecidableEq

namespace Loc

/-- The place that names the pointer block holding this one; `none` for a place in the dinode. -/
def up : Loc → Option Loc
  | direct _ | ind | dind => none
  | indEnt _ => some ind
  | leaf _ => some dind
  | leafEnt k _ => some (leaf k)

/-- The index in `addrs`, or in the pointer block. -/
def slot : Loc → Nat
  | direct j => j
  | ind => 11
  | indEnt j => j
  | dind => 12
  | leaf k => k
  | leafEnt _ j => j

theorem slot_lt (l : Loc) : l.slot < 128 := by
  cases l <;> simp only [slot] <;> omega

theorem slot_lt_of_root {l : Loc} (h : l.up = none) : l.slot < 13 := by
  cases l <;> simp only [slot, up, reduceCtorEq] at h ⊢ <;> omega

theorem ext_slot {l l' : Loc} (hu : l.up = l'.up) (hs : l.slot = l'.slot) : l = l' := by
  cases l <;> cases l' <;> simp_all [up, slot, Fin.ext_iff] <;> omega

@[elab_as_elim] theorem upRec {P : Loc → Prop} (root : ∀ l, l.up = none → P l)
    (step : ∀ l p, l.up = some p → P p → P l) (l : Loc) : P l := by
  cases l with
  | direct j => exact root _ rfl
  | ind => exact root _ rfl
  | dind => exact root _ rfl
  | indEnt j => exact step _ _ rfl (root _ rfl)
  | leaf k => exact step _ _ rfl (root _ rfl)
  | leafEnt k j => exact step _ _ rfl (step _ _ rfl (root _ rfl))

theorem up_ne_self {l : Loc} : l.up ≠ some l := by
  cases l <;> simp [up]

end Loc

/-- Entry `e` of the pointer block `blk`. -/
def entry (c : Image) (blk e : Nat) : Nat := if blk = 0 then 0 else (u32 (c blk).data (4 * e)).toNat

@[simp] theorem entry_zero (c : Image) (e : Nat) : entry c 0 e = 0 := rfl

theorem entry_of_zero {c : Image} {blk : Nat} (h : c blk = Block.zero _) (e : Nat) : entry c blk e = 0 := by
  unfold entry
  split
  · rfl
  · rw [h, Block.u32_zero]; rfl

theorem entry_congr {c c' : Image} {blk : Nat} (h : blk ≠ 0 → c' blk = c blk) (e : Nat) :
    entry c' blk e = entry c blk e := by
  unfold entry
  split
  · rfl
  · next hz => rw [h hz]

theorem entry_putU32 {c : Image} {blk e a : Nat} (hz : blk ≠ 0) (he : e < 128) (ha : a < 2 ^ 32) (e' : Nat) :
    entry (update c blk ((c blk).putU32 (4 * e) (BitVec.ofNat 32 a))) blk e' =
      if e' = e then a else entry c blk e' := by
  unfold entry
  rw [if_neg hz, if_neg hz, update_self]
  split
  · next h =>
    rw [h, Block.u32_putU32 _ _ (by simp only [BSIZE]; omega), BitVec.toNat_ofNat, Nat.mod_eq_of_lt ha]
  · rw [Block.u32_putU32_of_disjoint _ _ (by omega)]

/-- The block number kept at `l`. -/
def ptr (c : Image) (d : Dinode) : Loc → Nat
  | .direct j => d.addr j
  | .ind => d.addr 11
  | .indEnt j => entry c (d.addr 11) j
  | .dind => d.addr 12
  | .leaf k => entry c (d.addr 12) k
  | .leafEnt k j => entry c (entry c (d.addr 12) k) j

theorem ptr_root {c : Image} {d : Dinode} {l : Loc} (h : l.up = none) : ptr c d l = d.addr l.slot := by
  cases l <;> simp only [Loc.up, reduceCtorEq] at h <;> rfl

theorem ptr_up {c : Image} {d : Dinode} {l p : Loc} (h : l.up = some p) :
    ptr c d l = entry c (ptr c d p) l.slot := by
  cases l <;> simp only [Loc.up, reduceCtorEq, Option.some.injEq] at h <;> subst h <;> rfl

theorem ptr_congr {c c' : Image} {d d' : Dinode} (ha : ∀ j, j < 13 → d'.addr j = d.addr j)
    (hc : ∀ (l p : Loc), l.up = some p → ptr c d p ≠ 0 → c' (ptr c d p) = c (ptr c d p)) (l : Loc) :
    ptr c' d' l = ptr c d l := by
  induction l using Loc.upRec with
  | root l h => rw [ptr_root h, ptr_root h, ha _ (Loc.slot_lt_of_root h)]
  | step l p h ih => rw [ptr_up h, ptr_up h, ih]; exact entry_congr (hc l p h) _

/-! ### References of a table of inodes -/

abbrev Table := Nat → Option Dinode

abbrev Ref := Nat × Loc

def refs (c : Image) (T : Table) (r : Ref) : Nat :=
  match T r.1 with
  | none => 0
  | some d => ptr c d r.2

theorem refs_some {c : Image} {T : Table} {i : Nat} {d : Dinode} (h : T i = some d) (l : Loc) :
    refs c T (i, l) = ptr c d l := by
  simp only [refs, h]

theorem refs_none {c : Image} {T : Table} {i : Nat} (h : T i = none) (l : Loc) : refs c T (i, l) = 0 := by
  simp only [refs, h]

theorem refs_congr {c c' : Image} {T : Table}
    (h : ∀ i (l p : Loc), l.up = some p → refs c T (i, p) ≠ 0 → c' (refs c T (i, p)) = c (refs c T (i, p))) :
    refs c' T = refs c T := by
  funext ⟨i, l⟩
  cases hi : T i with
  | none => rw [refs_none hi, refs_none hi]
  | some d =>
    rw [refs_some hi, refs_some hi]
    refine ptr_congr (fun _ _ => rfl) (fun l p hp hz => ?_) l
    have := h i l p hp
    rw [refs_some hi] at this
    exact this hz

theorem refs_update_table {c : Image} {T : Table} {i : Nat} {d d' : Dinode} (hi : T i = some d)
    (ha : ∀ j, j < 13 → d'.addr j = d.addr j) : refs c (update T i (some d')) = refs c T := by
  funext ⟨i', l⟩
  by_cases h : i' = i
  · subst h
    rw [refs_some (update_self ..), refs_some hi]
    exact ptr_congr ha (fun _ _ _ _ => rfl) l
  · simp only [refs, update_of_ne h]

theorem ptr_of_addr_zero {c : Image} {d : Dinode} (h : ∀ j, j < 13 → d.addr j = 0) (l : Loc) : ptr c d l = 0 := by
  induction l using Loc.upRec with
  | root l hl => rw [ptr_root hl, h _ (Loc.slot_lt_of_root hl)]
  | step l p hl ih => rw [ptr_up hl, ih, entry_zero]

theorem refs_setAddr {c : Image} {T : Table} {i a : Nat} {d : Dinode} {l : Loc} (hi : T i = some d)
    (hl : l.up = none) (h0 : d.addr l.slot = 0) (ha : a < 2 ^ 32) (hz : c a = Block.zero _) :
    refs c (update T i (some (d.setAddr l.slot a))) = update (refs c T) (i, l) a := by
  have hslot := Loc.slot_lt_of_root hl
  funext ⟨i', l'⟩
  by_cases h : i' = i
  · subst h
    rw [refs_some (update_self ..)]
    have key : ptr c (d.setAddr l.slot a) l' = if l' = l then a else ptr c d l' := by
      induction l' using Loc.upRec with
      | root l' h' =>
        rw [ptr_root h', ptr_root h', Dinode.addr_setAddr _ hslot ha _ (Loc.slot_lt_of_root h')]
        have : l'.slot = l.slot ↔ l' = l := ⟨Loc.ext_slot (h'.trans hl.symm), fun e => e ▸ rfl⟩
        simp only [this]
      | step l' p h' ih =>
        have hne : l' ≠ l := fun e => by rw [e, hl] at h'; cases h'
        rw [ptr_up h', ptr_up h', ih, if_neg hne]
        split
        · next hp =>
          rw [entry_of_zero hz, hp, ptr_root hl, h0, entry_zero]
        · rfl
    rw [key]
    by_cases hll : l' = l
    · rw [if_pos hll, hll, update_self]
    · rw [if_neg hll, update_of_ne (fun e => hll (Prod.ext_iff.1 e).2), refs_some hi]
  · rw [update_of_ne (fun e => h (Prod.ext_iff.1 e).1)]
    simp only [refs, update_of_ne h]

theorem refs_putEntry {c : Image} {T : Table} {i a : Nat} {l p : Loc} (hl : l.up = some p)
    (hinj : ∀ r, refs c T r = refs c T (i, p) → r = (i, p)) (hp : refs c T (i, p) ≠ 0)
    (h0 : refs c T (i, l) = 0) (ha : a < 2 ^ 32) (hap : a ≠ refs c T (i, p)) (hz : c a = Block.zero _) :
    refs (update c (refs c T (i, p))
        ((c (refs c T (i, p))).putU32 (4 * l.slot) (BitVec.ofNat 32 a))) T =
      update (refs c T) (i, l) a := by
  generalize hblk : refs c T (i, p) = blk at *
  generalize hc' : update c blk ((c blk).putU32 (4 * l.slot) (BitVec.ofNat 32 a)) = c'
  have hne : ∀ q, q ≠ blk → c' q = c q := fun q hq => by rw [← hc', update_of_ne hq]
  funext ⟨i', l'⟩
  cases hi : T i' with
  | none =>
    have hi' : i' ≠ i := fun e => hp (by rw [← hblk, ← e, refs_none hi])
    rw [refs_none hi, update_of_ne (fun e => hi' (Prod.ext_iff.1 e).1), refs_none hi]
  | some d =>
    rw [refs_some hi]
    by_cases hi' : i' = i
    · subst hi'
      rw [refs_some hi] at hblk h0
      have key : ptr c' d l' = if l' = l then a else ptr c d l' := by
        induction l' using Loc.upRec with
        | root l' h' =>
          have : l' ≠ l := fun e => by rw [e, hl] at h'; cases h'
          rw [ptr_root h', ptr_root h', if_neg this]
        | step l' q h' ih =>
          rw [ptr_up h', ih]
          by_cases hq : q = l
          · -- the new block is itself a pointer block: it is empty, and so was the place
            have hll : l' ≠ l := fun e => Loc.up_ne_self (e ▸ hq ▸ h')
            rw [if_pos hq, if_neg hll, ptr_up h', hq, h0, entry_zero]
            exact entry_of_zero (by rw [hne a hap, hz]) _
          · rw [if_neg hq]
            by_cases hqb : ptr c d q = blk
            · have hqp : q = p := (Prod.ext_iff.1 (hinj (i', q) (by rw [refs_some hi, hqb]))).2
              rw [hqb, ← hc', entry_putU32 hp (Loc.slot_lt l) ha, ptr_up h', hqb]
              have : l'.slot = l.slot ↔ l' = l :=
                ⟨Loc.ext_slot (by rw [h', hl, hqp]), fun e => e ▸ rfl⟩
              simp only [this]
            · have hll : l' ≠ l := fun e => hqb (by
                rw [e, hl, Option.some.injEq] at h'
                rw [← h', hblk])
              rw [if_neg hll, ptr_up h']
              exact entry_congr (fun _ => hne _ hqb) _
      rw [key]
      by_cases hll : l' = l
      · rw [if_pos hll, hll, update_self]
      · rw [if_neg hll, update_of_ne (fun e => hll (Prod.ext_iff.1 e).2), refs_some hi]
    · rw [update_of_ne (fun e => hi' (Prod.ext_iff.1 e).1), refs_some hi]
      refine ptr_congr (fun _ _ => rfl) (fun l₂ q _ _ => hne _ fun e => ?_) l'
      have := hinj (i', q) (by rw [refs_some hi, e])
      exact hi' (Prod.ext_iff.1 this).1

/-! ### The ownership invariant -/

/-- The free map marks exactly the metadata, the blocks the inodes of `T` name and those in hand. -/
def Owned (sb : Superblock) (c : Image) (T : Table) (hand : Set Nat) : Prop :=
  Ledger sb.nmeta sb.size (refs c T) (fun b => blockUsed sb c b = true) hand

end Xv6
