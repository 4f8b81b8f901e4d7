import Xv6.ByteFile
import Xv6.Dir

/-!
# A directory as a finite map

A directory is a sequence of 16-byte slots; a slot is in use if its inode number is not 0. Names count up to their
first 14 bytes and the first nul among them. When the names in use are pairwise different, `dirFind` is a map from
names to inode numbers; filling a free slot adds one name to it, and clearing a slot takes one name away.
-/

namespace Xv6

/-- Slot `k` of a directory. -/
def slot (bs : List Byte) (k : Nat) : List Byte := (bs.drop (16 * k)).take 16

abbrev slots (bs : List Byte) : Nat := bs.length / 16

def nameKey (name : List Byte) : List Byte := cstr (name.take DIRSIZ)

/-- Slot `k` gives the name `nm` to inode `j`. -/
structure HasEntry (bs : List Byte) (k j : Nat) (nm : List Byte) : Prop where
  lt : k < slots bs
  inum : deInum (slot bs k) = j
  used : j ≠ 0
  name : nameKey (deName (slot bs k)) = nm

def Distinct (bs : List Byte) : Prop := ∀ k l i j nm, HasEntry bs k i nm → HasEntry bs l j nm → k = l

def dirFind (bs name : List Byte) : Option (Nat × Nat) :=
  (List.range (slots bs)).findSome? fun k =>
    if deInum (slot bs k) ≠ 0 ∧ namecmp name (deName (slot bs k)) = true then some (deInum (slot bs k), 16 * k) else none

def dirFree (bs : List Byte) : Nat :=
  ((List.range (slots bs)).findSome? fun k => if deInum (slot bs k) = 0 then some (16 * k) else none).getD (16 * slots bs)

/-- The bytes of an entry that `dirlink` writes. -/
def entryBytes (name : List Byte) (inum : Nat) : List Byte := (List.range 16).map (dirent name inum)

/-- The bytes that `sys_unlink` writes over an entry. -/
def clearBytes : List Byte := (List.range 16).map fun _ => 0

section

variable {bs de name name' nm : List Byte} {i j k l off : Nat}

/-! ### Slots -/

theorem splice_slots (hk : k ≤ slots bs) (ha : bs.length % 16 = 0) (hd : de.length = 16) :
    (splice bs (16 * k) de).length % 16 = 0 ∧ slots (splice bs (16 * k) de) = max (slots bs) (k + 1) := by
  unfold slots at *
  simp only [splice, List.length_append, List.length_take, List.length_drop, hd]
  omega

theorem slot_splice (hk : k ≤ slots bs) (ha : bs.length % 16 = 0) (hd : de.length = 16) (l : Nat) :
    slot (splice bs (16 * k) de) l = if l = k then de else slot bs l := by
  have hlen : (bs.take (16 * k)).length = 16 * k := by
    rw [List.length_take]
    unfold slots at hk
    omega
  unfold slot splice
  by_cases hl : l = k
  · rw [if_pos hl, hl, List.append_assoc, List.drop_append_of_le_length (by omega), List.drop_of_length_le (by omega),
      List.nil_append, List.take_append_of_le_length (by omega), List.take_of_length_le (by omega)]
  · rw [if_neg hl]
    by_cases hlt : l < k
    · -- before the slot written
      have hb : 16 * l + 16 ≤ 16 * k := by omega
      rw [List.append_assoc, List.drop_append_of_le_length (by omega), List.take_append_of_le_length (by
        rw [List.length_drop]; omega), List.drop_take, List.take_take, min_eq_left (by omega)]
    · have hdrop : 16 * l = (bs.take (16 * k) ++ de).length + (16 * l - (16 * k + 16)) := by
        rw [List.length_append, hlen, hd]
        omega
      rw [hdrop, List.drop_length_add_append, List.drop_drop, hd]
      congr 2
      omega

theorem namecmp_iff {s t : List Byte} : namecmp s t = true ↔ nameKey s = nameKey t := by
  rw [namecmp, beq_iff_eq]
  rfl

/-! ### Looking up -/

theorem dirFind_some (h : dirFind bs name = some (j, off)) : ∃ k, off = 16 * k ∧ HasEntry bs k j (nameKey name) := by
  obtain ⟨k, hk, hf⟩ := List.exists_of_findSome?_eq_some h
  split at hf
  · next hc =>
    cases hf
    exact ⟨k, rfl, List.mem_range.1 hk, rfl, hc.1, (namecmp_iff.1 hc.2).symm⟩
  · cases hf

theorem dirFind_none : dirFind bs name = none ↔ ∀ k j, ¬ HasEntry bs k j (nameKey name) := by
  rw [dirFind, List.findSome?_eq_none_iff]
  constructor
  · intro h k j he
    have := h k (List.mem_range.2 he.lt)
    rw [if_pos ⟨he.inum ▸ he.used, namecmp_iff.2 he.name.symm⟩] at this
    cases this
  · intro h k hk
    refine if_neg fun hc => ?_
    exact h k _ ⟨List.mem_range.1 hk, rfl, hc.1, (namecmp_iff.1 hc.2).symm⟩

theorem dirFree_spec (bs : List Byte) : ∃ k, k ≤ slots bs ∧ dirFree bs = 16 * k ∧ (k < slots bs → deInum (slot bs k) = 0) ∧
    (k = slots bs → ∀ l < slots bs, deInum (slot bs l) ≠ 0) := by
  unfold dirFree
  cases hf : (List.range (slots bs)).findSome? fun k => if deInum (slot bs k) = 0 then some (16 * k) else none with
  | none =>
    refine ⟨slots bs, Nat.le_refl _, rfl, fun h => absurd h (Nat.lt_irrefl _), fun _ l hl hz => ?_⟩
    have := List.findSome?_eq_none_iff.1 hf l (List.mem_range.2 hl)
    rw [if_pos hz] at this
    cases this
  | some off =>
    obtain ⟨k, hk, hc⟩ := List.exists_of_findSome?_eq_some hf
    have hlt := List.mem_range.1 hk
    split at hc
    · next hz =>
      cases hc
      exact ⟨k, hlt.le, rfl, fun _ => hz, fun he => absurd he hlt.ne⟩
    · cases hc

/-! ### Filling and clearing a slot -/

theorem hasEntry_splice (hk : k ≤ slots bs) (ha : bs.length % 16 = 0) (hd : de.length = 16) :
    HasEntry (splice bs (16 * k) de) l j nm ↔
      l = k ∧ deInum de = j ∧ j ≠ 0 ∧ nameKey (deName de) = nm ∨ l ≠ k ∧ HasEntry bs l j nm := by
  have hslots := (splice_slots hk ha hd).2
  constructor
  · intro h
    have hlt := h.lt
    have hinum := h.inum
    have hname := h.name
    rw [slot_splice hk ha hd] at hinum hname
    by_cases hl : l = k
    · rw [if_pos hl] at hinum hname
      exact .inl ⟨hl, hinum, h.used, hname⟩
    · rw [if_neg hl] at hinum hname
      refine .inr ⟨hl, ?_, hinum, h.used, hname⟩
      rw [hslots] at hlt
      omega
  · rintro (⟨rfl, hinum, hne, hname⟩ | ⟨hl, h⟩)
    · refine ⟨by rw [hslots]; omega, ?_, hne, ?_⟩ <;> rwa [slot_splice hk ha hd, if_pos rfl]
    · have hlt := h.lt
      refine ⟨by rw [hslots]; omega, ?_, h.used, ?_⟩ <;> rw [slot_splice hk ha hd, if_neg hl]
      · exact h.inum
      · exact h.name

theorem Distinct.fill (h : Distinct bs) (hk : k ≤ slots bs) (ha : bs.length % 16 = 0) (hd : de.length = 16)
    (hno : dirFind bs (deName de) = none) : Distinct (splice bs (16 * k) de) := by
  intro k₁ k₂ i₁ i₂ nm h₁ h₂
  rcases (hasEntry_splice hk ha hd).1 h₁ with ⟨rfl, -, -, rfl⟩ | ⟨-, h₁⟩ <;>
    rcases (hasEntry_splice hk ha hd).1 h₂ with ⟨rfl, -, -, hn⟩ | ⟨-, h₂⟩
  · rfl
  · exact absurd h₂ (dirFind_none.1 hno _ _)
  · rename_i h₁'
    rw [← hn] at h₁'
    exact absurd h₁' (dirFind_none.1 hno _ _)
  · exact h _ _ _ _ _ h₁ h₂

theorem Distinct.clear (h : Distinct bs) (hk : k < slots bs) (ha : bs.length % 16 = 0)
    (hd : de.length = 16) (hz : deInum de = 0) :
    Distinct (splice bs (16 * k) de) := by
  have hold : ∀ {l j nm}, HasEntry (splice bs (16 * k) de) l j nm → HasEntry bs l j nm := fun {l j nm} he => by
    rcases (hasEntry_splice hk.le ha hd).1 he with ⟨-, hj, hne, -⟩ | ⟨-, he⟩
    · exact absurd (hj.symm.trans hz) hne
    · exact he
  exact fun k₁ k₂ i₁ i₂ nm h₁ h₂ => h _ _ _ _ _ (hold h₁) (hold h₂)

theorem length_entryBytes (name : List Byte) (inum : Nat) : (entryBytes name inum).length = 16 := by simp [entryBytes]

theorem deName_entryBytes (name : List Byte) (inum : Nat) :
    deName (entryBytes name inum) = name.take DIRSIZ ++ List.replicate (DIRSIZ - name.length) 0 := by
  have hlen : (name.take DIRSIZ ++ List.replicate (DIRSIZ - name.length) (0 : Byte)).length = 14 := by
    rw [List.length_append, List.length_take, List.length_replicate]
    simp only [DIRSIZ]
    omega
  refine List.ext_getElem (by rw [hlen]; rfl) fun k hk hk' => ?_
  have hk14 : k < 14 := by simpa [deName, entryBytes] using hk
  simp only [deName, entryBytes, List.getElem_drop, List.getElem_map, List.getElem_range, dirent]
  rw [if_neg (by omega), Nat.add_sub_cancel_left, List.getElem_append]
  split
  · next h => exact List.getD_eq_getElem _ _ h
  · next h => rw [List.getD_eq_default _ _ (by omega), List.getElem_replicate]

theorem nameKey_entryBytes (name : List Byte) (inum : Nat) : nameKey (deName (entryBytes name inum)) = nameKey name := by
  have hpad : ∀ m : Nat, (List.replicate m (0 : Byte)).takeWhile (· ≠ 0) = [] := fun m => by cases m <;> rfl
  have hlen : (name.take DIRSIZ ++ List.replicate (DIRSIZ - name.length) (0 : Byte)).length ≤ DIRSIZ := by
    simp only [List.length_append, List.length_take, List.length_replicate, DIRSIZ]
    omega
  rw [nameKey, nameKey, deName_entryBytes, List.take_of_length_le hlen, cstr, cstr, List.takeWhile_append]
  split
  · next h => rw [hpad, List.append_nil, (List.takeWhile_prefix _).eq_of_length h]
  · rfl

end

end Xv6
