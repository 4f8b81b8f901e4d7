import Xv6.ByteFile
import Xv6.Mkfs

/-!
# Files of the image

`Good` is the invariant of the image while it is built: what lies below the counter `freeblock` is metadata
or named by exactly one pointer of one inode, what lies above is blank. A file that only `iappend` has
written to is `Packed`: its blocks are mapped exactly up to its size, and the indirect block exists as soon
as the direct pointers do not suffice. From these, what `iappend` appends is what the kernel's `readi`
reads, up to the 139 blocks that one indirect block reaches; there `iappend` leaves its array.
-/

namespace Xv6.Mkfs

open Prog Function

/-- Blocks below `freeblock` are metadata or named once by the inodes of `T`, the others are blank. -/
structure Good (T : Table) (m : State) : Prop where
  ledger : Ledger nmeta FSSIZE (refs m.disk T) (· < m.freeblock) ∅
  le : m.freeblock ≤ FSSIZE
  blank : ∀ b, m.freeblock ≤ b → m.disk b = Block.zero _

/-- The place `l` of inode `i`, empty before, now names the first free block. -/
structure Linked (T : Table) (i : Nat) (l : Loc) (m : State) (d : Dinode) (m' : State) (d' : Dinode) : Prop where
  good : Good (T.set i d') m'
  grown : Grown sb T i (boot m.disk []) d (boot m'.disk []) d'
  ptrs : ∀ l', ptr m'.disk d' l' = if l' = l then m.freeblock else ptr m.disk d l'
  freeblock : m'.freeblock = m.freeblock + 1
  freeinode : m'.freeinode = m.freeinode

section

variable {T : Table} {i : Nat} {m m' m₁ : State} {d d' d₁ : Dinode} {l : Loc}

theorem Good.lt (h : Good T m) {r : Ref} (hr : refs m.disk T r ≠ 0) : refs m.disk T r < m.freeblock :=
  h.ledger.used_of_ref hr

theorem Good.ptr_lt (h : Good (T.set i d) m) (hl : ptr m.disk d l ≠ 0) : ptr m.disk d l < m.freeblock := by
  rw [← refs_set _ T i] at hl ⊢
  exact h.lt hl

theorem Good.nmeta_le (h : Good (T.set i d) m) (hl : ptr m.disk d l ≠ 0) : 63 ≤ ptr m.disk d l := by
  rw [← refs_set _ T i] at hl ⊢
  exact (h.ledger.range _ hl).1

theorem Good.link (h : Good (T.set i d) m) (h0 : ptr m.disk d l = 0) (hlt : m.freeblock < FSSIZE)
    (hsame : d' = { d with addrs := d'.addrs })
    (hrefs : refs m'.disk (T.set i d') = update (refs m.disk (T.set i d)) (i, l) m.freeblock)
    (hdisk : ∀ b, m'.disk b = m.disk b ∨ ∃ p : Loc, p.isData = false ∧ ptr m.disk d p ≠ 0 ∧ b = ptr m.disk d p)
    (hfb : m'.freeblock = m.freeblock + 1) (hfi : m'.freeinode = m.freeinode) : Linked T i l m d m' d' := by
  have hr0 : refs m.disk (T.set i d) (i, l) = 0 := by rw [refs_set, h0]
  -- the pointer block that was written, if any, is an old one
  have hnew : ∀ b, m.freeblock ≤ b → m'.disk b = m.disk b := by
    intro b hb
    rcases hdisk b with he | ⟨p, -, hp, rfl⟩
    · exact he
    · exact absurd (h.ptr_lt hp) (by omega)
  refine ⟨⟨?_, by omega, fun b hb => ?_⟩, ⟨hsame, fun r hr => ?_, fun j l' hj => ?_, fun l' hl' hz hne => ?_,
    fun r hr hz => ?_, fun b hb => ?_, fun x hx => absurd hx List.not_mem_nil⟩, fun l' => ?_, hfb, hfi⟩
  · have halloc : Ledger nmeta FSSIZE (refs m.disk (T.set i d)) (· < m'.freeblock) (insert m.freeblock ∅) :=
      h.ledger.alloc hlt (lt_irrefl _) fun b _ => by
        rw [hfb]
        omega
    rw [hrefs]
    exact halloc.link (Set.notMem_empty _) hr0 (by decide)
  · rw [hnew b (by omega), h.blank b (by omega)]
  · change refs m.disk (T.set i d) r ≠ 0 at hr
    show refs m'.disk (T.set i d') r = _
    have hne : r ≠ (i, l) := by
      rintro rfl
      exact hr hr0
    rw [hrefs, update_of_ne hne]
    rfl
  · show refs m'.disk (T.set i d') (j, l') = _
    rw [hrefs, update_of_ne fun he => hj (Prod.ext_iff.1 he).1]
    rfl
  · have hl : l' = l := by
      by_contra hll
      refine hne ?_
      show ptr m'.disk d' l' = 0
      rw [← refs_set _ T i, hrefs, update_of_ne fun he => hll (Prod.ext_iff.1 he).2, refs_set]
      exact hz
    subst hl
    have hp : ptr m'.disk d' l' = m.freeblock := by
      rw [← refs_set _ T i, hrefs, update_self]
    show m'.disk (ptr m'.disk d' l') = _
    rw [hp, hnew _ (Nat.le_refl _), h.blank _ (Nat.le_refl _)]
  · rcases hdisk (refs m.disk (T.set i d) r) with he | ⟨p, hp, -, he⟩
    · exact he
    · rw [← refs_set _ T i] at he
      have := h.ledger.inj _ _ he hz
      rw [this] at hr
      exact absurd hr (by simp [hp])
  · rcases hdisk b with he | ⟨p, -, hp, rfl⟩
    · exact he
    · have := h.nmeta_le hp
      have hb58 : ptr m.disk d p < 58 := hb
      omega
  · rw [← refs_set _ T i, hrefs]
    by_cases hl : l' = l
    · rw [hl, update_self, if_pos rfl]
    · rw [update_of_ne fun he => hl (Prod.ext_iff.1 he).2, if_neg hl, refs_set]

theorem Good.link_addr (h : Good (T.set i d) m) (hl : l.up = none) (h0 : d.addr l.slot = 0) (hlt : m.freeblock < FSSIZE) :
    Linked T i l m d { m with freeblock := m.freeblock + 1 } (d.setAddr l.slot m.freeblock) := by
  have hp0 : ptr m.disk d l = 0 := by rw [ptr_root hl, h0]
  refine h.link hp0 hlt rfl ?_ (fun b => Or.inl rfl) rfl rfl
  have hset := refs_setAddr (update_self i (some d) T) hl h0 (a := m.freeblock)
    (by simp only [FSSIZE] at hlt; omega) (h.blank _ (Nat.le_refl _))
  rw [update_idem] at hset
  exact hset

theorem Good.link_entry (h : Good (T.set i d) m) {p : Loc} (hl : l.up = some p) (hp : ptr m.disk d p ≠ 0)
    (h0 : ptr m.disk d l = 0) (hlt : m.freeblock < FSSIZE) :
    Linked T i l m d { m with
      freeblock := m.freeblock + 1
      disk := update m.disk (ptr m.disk d p) ((m.disk (ptr m.disk d p)).putU32 (4 * l.slot)
        (BitVec.ofNat 32 m.freeblock)) } d := by
  have hplt := h.ptr_lt hp
  refine h.link h0 hlt rfl ?_ (fun b => ?_) rfl rfl
  · have hput := refs_putEntry (c := m.disk) (T := T.set i d) (i := i) (a := m.freeblock) hl
      (fun r hr => h.ledger.inj _ _ hr (by rw [hr, refs_set]; exact hp)) (by rwa [refs_set]) (by rwa [refs_set])
      (by simp only [FSSIZE] at hlt; omega) (by rw [refs_set]; omega) (h.blank _ (Nat.le_refl _))
    rw [refs_set] at hput
    exact hput
  · rcases eq_or_ne b (ptr m.disk d p) with rfl | hne
    · exact Or.inr ⟨p, Loc.not_isData_of_up hl, hp, rfl⟩
    · exact Or.inl (update_of_ne hne ..)

/-! ### Files that only grow -/

/-- The blocks of a file of `n` bytes, the indirect one included. -/
def blocksFor (n : Nat) : Nat := (n + 511) / 512 + if 5632 < n then 1 else 0

/-- The first `n` bytes are mapped and nothing else is. -/
structure Packed (c : Image) (d : Dinode) (n : Nat) : Prop where
  le : n ≤ 71168
  data : ∀ bn, bn < 139 → (ptr c d (locOf bn) ≠ 0 ↔ bn * 512 < n)
  ind : ptr c d .ind ≠ 0 ↔ 5632 < n

/-- The block of byte `off` is mapped, a new one if `off` is the end of a block. -/
structure Found (T : Table) (i off : Nat) (m : State) (d : Dinode) (a : Nat) (m' : State) (d' : Dinode) : Prop where
  good : Good (T.set i d') m'
  grown : Grown sb T i (boot m.disk []) d (boot m'.disk []) d'
  at_ : ptr m'.disk d' (locOf (off / 512)) = a
  packed : ∀ n, off < n → n ≤ 512 * (off / 512 + 1) → Packed m'.disk d' n
  freeblock : m'.freeblock + blocksFor off = m.freeblock + blocksFor (off + 1)
  freeinode : m'.freeinode = m.freeinode

theorem Packed.ne {n bn : Nat} {c : Image} (h : Packed c d n) (hbn : bn * 512 < n) : ptr c d (locOf bn) ≠ 0 :=
  (h.data bn (by have := h.le; omega)).2 hbn

theorem Found.lt {off a : Nat} (h : Found T i off m d a m' d') : a < m'.freeblock := by
  rw [← h.at_]
  exact h.good.ptr_lt ((h.packed (off + 1) (by omega) (by omega)).ne (by omega))

theorem Packed.found_of_mod {off : Nat} (hG : Good (T.set i d) m) (hP : Packed m.disk d off) (hoff : off % 512 ≠ 0) :
    Found T i off m d (ptr m.disk d (locOf (off / 512))) m d := by
  refine ⟨hG, .refl, rfl, fun n h1 h2 => ?_, ?_, rfl⟩
  · have hle := hP.le
    refine ⟨by omega, fun bn hbn => (hP.data bn hbn).trans (by omega), hP.ind.trans (by omega)⟩
  · unfold blocksFor
    split <;> split <;> omega

theorem locOf_direct {bn : Nat} (h : bn < 11) : (locOf bn).up = none ∧ (locOf bn).slot = bn := by
  rw [locOf, if_pos h]
  exact ⟨rfl, Nat.mod_eq_of_lt h⟩

theorem locOf_indirect {bn : Nat} (h1 : 11 ≤ bn) (h2 : bn < 139) :
    (locOf bn).up = some .ind ∧ (locOf bn).slot = bn - 11 := by
  rw [locOf, if_neg (by omega), if_pos h2]
  exact ⟨rfl, Nat.mod_eq_of_lt (by omega)⟩

theorem locOf_ne_ind (bn : Nat) : locOf bn ≠ .ind := fun h => by
  have := isData_locOf bn
  rw [h] at this
  cases this

theorem Packed.next {c c' : Image} {off a : Nat} (hP : Packed c d off) (hoff : off % 512 = 0) (hlt : off < 71168) (ha : a ≠ 0)
    (hdata : ∀ bn, ptr c' d' (locOf bn) = if locOf bn = locOf (off / 512) then a else ptr c d (locOf bn))
    (hind : ptr c' d' .ind ≠ 0 ↔ 5632 ≤ off) {n : Nat} (h1 : off < n) (h2 : n ≤ 512 * (off / 512 + 1)) : Packed c' d' n := by
  refine ⟨by omega, fun bn hbn => ?_, hind.trans (by omega)⟩
  rw [hdata]
  by_cases hb : bn = off / 512
  · rw [if_pos (by rw [hb])]
    exact iff_of_true ha (by omega)
  · rw [if_neg fun he => hb (locOf_inj (by omega) (by omega) he), hP.data bn hbn]
    omega

theorem Good.freeblock_ne (h : Good (T.set i d) m) : m.freeblock ≠ 0 := by
  have := (h.ledger.used_iff 0 (by decide)).2 (Or.inl (by decide))
  omega

theorem Linked.found {off : Nat} (hG : Good (T.set i d) m) (hP : Packed m.disk d off) (hoff : off % 512 = 0)
    (hlt : off < 71168) (hne : off ≠ 5632) (h : Linked T i (locOf (off / 512)) m d m' d') :
    Found T i off m d m.freeblock m' d' := by
  have hind : ptr m'.disk d' .ind ≠ 0 ↔ 5632 ≤ off := by
    rw [h.ptrs, if_neg (locOf_ne_ind _).symm, hP.ind]
    omega
  refine ⟨h.good, h.grown, ?_, fun n h1 h2 => ?_, ?_, h.freeinode⟩
  · rw [h.ptrs, if_pos rfl]
  · exact hP.next hoff hlt hG.freeblock_ne (fun bn => h.ptrs _) hind h1 h2
  · rw [h.freeblock]
    unfold blocksFor
    split <;> split <;> omega

theorem Linked.found_ind (hG : Good (T.set i d) m) (hP : Packed m.disk d 5632) (h : Linked T i .ind m d m₁ d₁)
    (h' : Linked T i (locOf 11) m₁ d₁ m' d') : Found T i 5632 m d m₁.freeblock m' d' := by
  have hdata : ∀ bn, ptr m'.disk d' (locOf bn) =
      if locOf bn = locOf (5632 / 512) then m₁.freeblock else ptr m.disk d (locOf bn) := fun bn => by
    rw [h'.ptrs, h.ptrs, if_neg (locOf_ne_ind bn)]
  have hind : ptr m'.disk d' .ind ≠ 0 ↔ 5632 ≤ 5632 := by
    rw [h'.ptrs, if_neg (locOf_ne_ind 11).symm, h.ptrs, if_pos rfl]
    exact iff_of_true hG.freeblock_ne (Nat.le_refl _)
  refine ⟨h'.good, h.grown.trans h'.grown, ?_, fun n h1 h2 => ?_, ?_, h'.freeinode.trans h.freeinode⟩
  · rw [h'.ptrs, if_pos rfl]
  · exact hP.next rfl (by decide) h.good.freeblock_ne hdata hind h1 h2
  · rw [h'.freeblock, h.freeblock]
    rfl

/-! ### `iappend` -/

@[simp] theorem wp_wsect {sec : Nat} {buf : Blk} {Q : Unit → State → Prop} {E : Stop → Prop} : wp (wsect sec buf) Q E m ↔
    Q () { m with disk := update m.disk (sector sec) buf } := Iff.rfl

theorem wp_rsect {sec : Nat} {Q : Blk → State → Prop} {E : Stop → Prop} : wp (rsect sec) Q E m ↔
    (FSSIZE ≤ sector sec → E .exit) ∧ (sector sec < FSSIZE → Q (m.disk (sector sec)) m) := by
  rw [rsect]
  simp only [wp_bind, wp_failIf, wp_get, wp_pure, Nat.not_le]

theorem sector_of_le {a : Nat} (h : a ≤ FSSIZE) : sector a = a := Nat.mod_eq_of_lt (by simp only [FSSIZE] at h; omega)

theorem addrAlloc_of_ne {j : Nat} (h : d.addr j ≠ 0) : addrAlloc d j = pure d := if_neg h

theorem wp_addrAlloc_of_zero {j : Nat} (h : d.addr j = 0) {Q : Dinode → State → Prop} {E : Stop → Prop} :
    wp (addrAlloc d j) Q E m ↔ Q (d.setAddr j m.freeblock) { m with freeblock := m.freeblock + 1 } := by
  rw [addrAlloc, if_pos h]
  rfl

def FoundOr (T : Table) (i off : Nat) (m : State) (d : Dinode) (r : Nat × Dinode) (m' : State) : Prop :=
  Found T i off m d r.1 m' r.2 ∨ r.1 = FSSIZE ∧ FSSIZE < m.freeblock + (blocksFor (off + 1) - blocksFor off)

theorem findBlock_direct {off : Nat} (hG : Good (T.set i d) m) (hP : Packed m.disk d off) (hoff : off / 512 < 11) :
    wp (findBlock d (off / 512)) (FoundOr T i off m d) (fun _ => False) m := by
  obtain ⟨hup, hslot⟩ := locOf_direct hoff
  have hptr : ptr m.disk d (locOf (off / 512)) = d.addr (off / 512) := by rw [ptr_root hup, hslot]
  rw [findBlock, if_pos hoff]
  by_cases hmod : off % 512 = 0
  · have h0 : d.addr (off / 512) = 0 := by
      rw [← hptr]
      by_contra hne
      have := (hP.data _ (by omega)).1 hne
      omega
    rw [wp_bind, wp_addrAlloc_of_zero h0]
    by_cases hlt : m.freeblock < FSSIZE
    · have hlink := hG.link_addr hup (hslot.symm ▸ h0) hlt
      rw [hslot] at hlink
      have hfound := hlink.found hG hP hmod (by omega) (by omega)
      refine Or.inl ?_
      have hat : (d.setAddr (off / 512) m.freeblock).addr (off / 512) = m.freeblock := by
        have := hfound.at_
        rwa [ptr_root hup, hslot] at this
      show Found T i off m d ((d.setAddr (off / 512) m.freeblock).addr (off / 512)) _ _
      rw [hat]
      exact hfound
    · refine Or.inr ⟨?_, ?_⟩
      · have hfb : m.freeblock = FSSIZE := by
          have := hG.le
          omega
        show (d.setAddr (off / 512) m.freeblock).addr (off / 512) = FSSIZE
        rw [hfb, Dinode.addr_setAddr _ (by omega) (by decide) _ (by omega), if_pos rfl]
      · unfold blocksFor
        split <;> split <;> omega
  · have hne : d.addr (off / 512) ≠ 0 := by
      rw [← hptr]
      exact hP.ne (by omega)
    rw [addrAlloc_of_ne hne, pure_bind]
    refine Or.inl ?_
    show Found T i off m d (d.addr (off / 512)) m d
    rw [← hptr]
    exact hP.found_of_mod hG hmod

theorem addrAlloc_ind {off : Nat} (hG : Good (T.set i d) m) (hP : Packed m.disk d off) (hoff : 5632 ≤ off) :
    wp (addrAlloc d 11) (fun d₁ m₁ =>
      off ≠ 5632 ∧ d₁ = d ∧ m₁ = m ∨ off = 5632 ∧ Linked T i .ind m d m₁ d₁ ∨ m.freeblock = FSSIZE ∧
        d₁.addr 11 = FSSIZE ∧ off = 5632)
      (fun _ => False) m := by
  by_cases h : off = 5632
  · have h0 : d.addr 11 = 0 := by
      by_contra hne
      have := hP.ind.1 hne
      omega
    rw [wp_addrAlloc_of_zero h0]
    by_cases hlt : m.freeblock < FSSIZE
    · exact Or.inr (Or.inl ⟨h, hG.link_addr (l := .ind) rfl h0 hlt⟩)
    · have hfb : m.freeblock = FSSIZE := by
        have := hG.le
        omega
      refine Or.inr (Or.inr ⟨hfb, ?_, h⟩)
      rw [hfb, Dinode.addr_setAddr _ (by decide) (by decide) _ (by decide), if_pos rfl]
  · have hne : d.addr 11 ≠ 0 := hP.ind.2 (by omega)
    rw [addrAlloc_of_ne hne]
    exact Or.inl ⟨h, rfl, rfl⟩

theorem entryAlloc_spec (bn : Nat) (hG : Good (T.set i d) m) (h1 : 11 ≤ bn) (h2 : bn < 139) (hind : d.addr 11 ≠ 0) :
    wp (entryAlloc (d.addr 11) (bn - 11)) (fun a m' =>
      ptr m.disk d (locOf bn) ≠ 0 ∧ a = ptr m.disk d (locOf bn) ∧ m' = m ∨
        ptr m.disk d (locOf bn) = 0 ∧ (Linked T i (locOf bn) m d m' d ∧ a = m.freeblock ∨ m.freeblock = FSSIZE ∧ a = FSSIZE))
      (fun _ => False) m := by
  obtain ⟨hup, hslot⟩ := locOf_indirect h1 h2
  have hlt : d.addr 11 < m.freeblock := hG.ptr_lt (l := .ind) hind
  have hsec : sector (d.addr 11) = d.addr 11 := sector_of_le (by have := hG.le; omega)
  have hent : ptr m.disk d (locOf bn) = (u32 (m.disk (d.addr 11)).data (4 * (bn - 11))).toNat := by
    rw [ptr_up hup, hslot, entry]
    exact if_neg hind
  rw [entryAlloc]
  refine wp_bind.2 (wp_rsect.2 ⟨fun hge => ?_, fun _ => ?_⟩)
  · rw [hsec] at hge
    exact absurd hge (by have := hG.le; omega)
  refine wp_bind.2 (wp_failIf.2 ⟨fun hge => absurd hge (by simp only [NINDIRECT]; omega), fun _ => ?_⟩)
  rw [hsec]
  split
  · next h0 =>
    have hz : ptr m.disk d (locOf bn) = 0 := by
      rw [hent, h0]
      rfl
    refine Or.inr ⟨hz, ?_⟩
    by_cases hfree : m.freeblock < FSSIZE
    · have hlink := hG.link_entry hup hind hz hfree
      rw [hslot] at hlink
      refine Or.inl ⟨?_, rfl⟩
      show Linked T i (locOf bn) m d { m with
        freeblock := m.freeblock + 1
        disk := update m.disk (sector (d.addr 11)) _ } d
      rw [hsec]
      exact hlink
    · have hfb : m.freeblock = FSSIZE := by
        have := hG.le
        omega
      exact Or.inr ⟨hfb, hfb⟩
  · next h0 =>
    refine Or.inl ⟨fun hz => h0 (BitVec.eq_of_toNat_eq (hent.symm.trans hz)), hent.symm, rfl⟩

theorem findBlock_indirect {off : Nat} (hG : Good (T.set i d) m) (hP : Packed m.disk d off) (h1 : 11 ≤ off / 512)
    (h2 : off < 71168) : wp (findBlock d (off / 512)) (FoundOr T i off m d)
      (fun e => e = .exit ∧ FSSIZE < m.freeblock + (blocksFor (off + 1) - blocksFor off)) m := by
  rw [findBlock, if_neg (by simp only [NDIRECT]; omega)]
  refine wp.bind ((addrAlloc_ind hG hP (by omega)).mono (fun _ _ => id) fun _ => False.elim) ?_
  rintro d₁ m₁ (⟨hne, rfl, rfl⟩ | ⟨rfl, hlink⟩ | ⟨hfb, hfull, rfl⟩)
  · -- the indirect block is there
    have hind : d₁.addr 11 ≠ 0 := hP.ind.2 (by omega)
    refine wp.bind ((entryAlloc_spec _ hG h1 (by omega) hind).mono (fun _ _ => id) fun _ => False.elim) ?_
    rintro a m₂ (⟨hz, rfl, rfl⟩ | ⟨hz, ⟨hnew, rfl⟩ | ⟨hfb, rfl⟩⟩)
    · have hmod : off % 512 ≠ 0 := fun h0 => by
        have := (hP.data _ (by omega)).1 hz
        omega
      exact Or.inl (hP.found_of_mod hG hmod)
    · have hmod : off % 512 = 0 := by
        by_contra h0
        exact hP.ne (by omega) hz
      exact Or.inl (hnew.found hG hP hmod h2 hne)
    · refine Or.inr ⟨rfl, ?_⟩
      have hmod : off % 512 = 0 := by
        by_contra h0
        exact hP.ne (by omega) hz
      rw [hfb]
      unfold blocksFor
      split <;> split <;> omega
  · -- the indirect block is new
    have hind : d₁.addr 11 ≠ 0 := by
      rw [show d₁.addr 11 = ptr m₁.disk d₁ .ind from rfl, hlink.ptrs, if_pos rfl]
      exact hG.freeblock_ne
    have hz : ptr m₁.disk d₁ (locOf 11) = 0 := by
      rw [hlink.ptrs, if_neg (locOf_ne_ind 11)]
      by_contra hne
      have := (hP.data 11 (by decide)).1 hne
      omega
    refine wp.bind ((entryAlloc_spec 11 hlink.good (by decide) (by decide) hind).mono (fun _ _ => id) fun _ => False.elim) ?_
    rintro a m₂ (⟨hno, -, -⟩ | ⟨-, ⟨hnew, rfl⟩ | ⟨hfb, rfl⟩⟩)
    · exact absurd hz hno
    · exact Or.inl (hlink.found_ind hG hP hnew)
    · refine Or.inr ⟨rfl, ?_⟩
      rw [hlink.freeblock] at hfb
      show FSSIZE < m.freeblock + 2
      omega
  · -- no block is left for the indirect block
    have hsec : sector (d₁.addr NDIRECT) = FSSIZE := by
      rw [show d₁.addr NDIRECT = FSSIZE from hfull]
      rfl
    rw [entryAlloc]
    refine wp_bind.2 (wp_bind.2 (wp_rsect.2 ⟨fun _ => ⟨rfl, ?_⟩, fun hlt => absurd hlt (by rw [hsec]; omega)⟩))
    rw [hfb]
    decide

theorem findBlock_undefined (hG : Good (T.set i d) m) (hP : Packed m.disk d 71168) :
    wp (findBlock d 139) (fun _ _ => False) (fun e => e = .undefined) m := by
  have hind : d.addr 11 ≠ 0 := hP.ind.2 (by decide)
  have hlt : d.addr 11 < m.freeblock := hG.ptr_lt (l := .ind) hind
  rw [findBlock, if_neg (by decide), addrAlloc_of_ne hind, pure_bind, entryAlloc]
  refine wp_bind.2 (wp_bind.2 (wp_rsect.2 ⟨fun hge => ?_, fun _ => ?_⟩))
  · rw [sector_of_le (by have := hG.le; simp only [NDIRECT]; omega)] at hge
    exact absurd hge (by have := hG.le; simp only [NDIRECT]; omega)
  · exact wp_bind.2 (wp_failIf.2 ⟨fun _ => rfl, fun hno => absurd (by decide) hno⟩)

/-- The bytes `bs` have been stored from `off` on. -/
structure Appended (T : Table) (i off : Nat) (bs : List Byte) (m : State) (d : Dinode) (m' : State) (d' : Dinode) : Prop where
  good : Good (T.set i d') m'
  same : d' = { d with addrs := d'.addrs }
  packed : Packed m'.disk d' (off + bs.length)
  bytes : ∀ k, k < 16523 * 512 →
    byteAt m'.disk d' k = if off ≤ k ∧ k < off + bs.length then bs.getD (k - off) 0 else byteAt m.disk d k
  refs_other : ∀ j l, j ≠ i → refs m'.disk (T.set i d') (j, l) = refs m.disk (T.set i d) (j, l)
  bytes_other : ∀ j e, j ≠ i → T j = some e → ∀ k, byteAt m'.disk e k = byteAt m.disk e k
  low : ∀ b, b < sb.bmapstart → m'.disk b = m.disk b
  freeblock : m'.freeblock + blocksFor off = m.freeblock + blocksFor (off + bs.length)
  freeinode : m'.freeinode = m.freeinode

theorem Appended.nil {off : Nat} (hG : Good (T.set i d) m) (hP : Packed m.disk d off) : Appended T i off [] m d m d :=
  ⟨hG, rfl, hP, fun k _ => by rw [if_neg (by simp only [List.length_nil]; omega)], fun _ _ _ => rfl,
    fun _ _ _ _ _ => rfl, fun _ _ => rfl, rfl, rfl⟩

theorem Found.store {off a n : Nat} {f : Nat → Byte} (h : Found T i off m d a m' d') (hlt : off < 71168) (hn : 0 < n)
    (hfit : off % 512 + n ≤ 512) :
    Appended T i off ((List.range n).map f) m d
      { m' with disk := update m'.disk a ((m'.disk a).move (off % 512) f n) } d' := by
  obtain rfl := h.at_
  have hP : Packed m'.disk d' (off + n) := h.packed _ (by omega) (by omega)
  have hz : ptr m'.disk d' (locOf (off / 512)) ≠ 0 := hP.ne (by omega)
  have hinj : Apart m'.disk (T.set i d') := h.good.ledger.inj
  have hblk := h.good.ptr_lt hz
  have hge := h.good.nmeta_le hz
  refine ⟨⟨?_, h.good.le, fun b hb => ?_⟩, h.grown.same, ⟨?_, fun bn hbn => ?_, ?_⟩, fun k hk => ?_, fun j l hj => ?_,
    fun j e hj he k => ?_, fun b hb => ?_, ?_, h.freeinode⟩
  · have hl := h.good.ledger
    rwa [← refs_update_data hinj (off / 512)] at hl
  · show update m'.disk _ _ b = _
    rw [update_of_ne (by simp only at hb; omega)]
    exact h.good.blank b hb
  · simp only [List.length_map, List.length_range]
    exact hP.le
  · rw [ptr_update_data hinj, hP.data bn hbn]
    simp
  · rw [ptr_update_data hinj, hP.ind]
    simp
  · have hbytes : byteAt m'.disk d' k = byteAt m.disk d k := h.grown.byteAt k
    rw [byteAt_update_data hinj (by omega) hz _ (by omega), hbytes]
    simp only [List.length_map, List.length_range]
    by_cases hb : k / 512 = off / 512
    · rw [if_pos hb, Block.move_data _ _ _ _ _ (by simp only [BSIZE]; omega)]
      by_cases hin : off % 512 ≤ k % 512 ∧ k % 512 < off % 512 + n
      · rw [if_pos hin, if_pos (by omega), List.getD_eq_getElem _ _ (by simp; omega), List.getElem_map, List.getElem_range]
        congr 1
        omega
      · rw [if_neg hin, if_neg (by omega), ← hbytes, byteAt, hb, if_neg hz]
    · rw [if_neg hb, if_neg (by omega)]
  · show refs (update m'.disk _ _) _ _ = _
    rw [refs_update_data hinj]
    exact h.grown.other j l hj
  · rw [byteAt_update_other hinj _ _ hj he]
    exact h.grown.rewritten.bytes j e hj he k
  · show update m'.disk _ _ b = _
    have hb58 : b < 58 := hb
    rw [update_of_ne (by omega)]
    exact h.grown.low b hb
  · have hfb := h.freeblock
    simp only [List.length_map, List.length_range]
    unfold blocksFor at hfb ⊢
    split at hfb <;> split at hfb <;> split <;> split <;> omega

theorem Appended.trans {off off₁ : Nat} {bs cs : List Byte} (h : Appended T i off bs m d m₁ d₁)
    (hoff : off₁ = off + bs.length) (h' : Appended T i off₁ cs m₁ d₁ m' d') : Appended T i off (bs ++ cs) m d m' d' := by
  subst hoff
  have hlen : off + (bs ++ cs).length = off + bs.length + cs.length := by
    rw [List.length_append, Nat.add_assoc]
  refine ⟨h'.good, by rw [h'.same, h.same], hlen ▸ h'.packed, fun k hk => ?_, fun j l hj => ?_, fun j e hj he k => ?_,
    fun b hb => ?_, ?_, h'.freeinode.trans h.freeinode⟩
  · rw [h'.bytes k hk, h.bytes k hk, hlen]
    by_cases h2 : off + bs.length ≤ k ∧ k < off + bs.length + cs.length
    · rw [if_pos h2, if_pos (by omega), List.getD_append_right _ _ _ _ (by omega)]
      congr 1
      omega
    · rw [if_neg h2]
      by_cases h1 : off ≤ k ∧ k < off + bs.length
      · rw [if_pos h1, if_pos (by omega), List.getD_append _ _ _ _ (by omega)]
      · rw [if_neg h1, if_neg (by omega)]
  · rw [h'.refs_other j l hj, h.refs_other j l hj]
  · rw [h'.bytes_other j e hj he, h.bytes_other j e hj he]
  · rw [h'.low b hb, h.low b hb]
  · have := h.freeblock
    have := h'.freeblock
    rw [hlen]
    omega

theorem map_getD_range {bs : List Byte} {n : Nat} (h : n ≤ bs.length) :
    (List.range n).map (fun k => bs.getD k 0) = bs.take n := by
  refine List.ext_getElem (by simp [h]) fun k h1 h2 => ?_
  rw [List.length_map, List.length_range] at h1
  rw [List.getElem_map, List.getElem_range, List.getElem_take, List.getD_eq_getElem _ _ (by omega)]

theorem blocksFor_mono {a b : Nat} (h : a ≤ b) : blocksFor a ≤ blocksFor b := by
  unfold blocksFor
  split <;> split <;> omega

def AppendStop (off n freeblock : Nat) (e : Stop) : Prop :=
  e = .exit ∧ FSSIZE < freeblock + (blocksFor (min (off + n) 71168) - blocksFor off) ∨
    e = .undefined ∧ 71168 < off + n ∧ freeblock + (blocksFor 71168 - blocksFor off) ≤ FSSIZE

theorem findBlock_spec {off : Nat} (hG : Good (T.set i d) m) (hP : Packed m.disk d off) :
    wp (findBlock d (off / 512)) (fun r m' => off < 71168 ∧ FoundOr T i off m d r m')
      (fun e => off < 71168 ∧ e = .exit ∧ FSSIZE < m.freeblock + (blocksFor (off + 1) - blocksFor off) ∨
        off = 71168 ∧ e = .undefined) m := by
  rcases eq_or_ne off 71168 with rfl | hne
  · exact (findBlock_undefined hG hP).mono (fun _ _ => False.elim) fun e he => Or.inr ⟨rfl, he⟩
  · have hlt : off < 71168 := lt_of_le_of_ne hP.le hne
    by_cases hd : off / 512 < 11
    · exact (findBlock_direct hG hP hd).mono (fun _ _ h => ⟨hlt, h⟩) fun _ => False.elim
    · exact (findBlock_indirect hG hP (by omega) hlt).mono (fun _ _ h => ⟨hlt, h⟩) fun e he => Or.inl ⟨hlt, he⟩

theorem appendLoop_spec {off : Nat} {bs : List Byte} (hG : Good (T.set i d) m) (hP : Packed m.disk d off) :
    wp (appendLoop d off bs) (fun r m' => r.2 = off + bs.length ∧ Appended T i off bs m d m' r.1)
      (AppendStop off bs.length m.freeblock) m := by
  induction hlen : bs.length using Nat.strongRecOn generalizing m d off bs with
  | ind len ih =>
    subst hlen
    rw [appendLoop]
    split
    · next hpos =>
      refine wp_bind.2 (wp_failIf.2 ⟨fun hge => ?_, fun _ => ?_⟩)
      · have := hP.le
        simp only [MAXFILE, NDIRECT, NINDIRECT, NDINDIRECT, BSIZE] at hge
        omega
      have hstep : 0 < min bs.length (BSIZE - off % BSIZE) ∧ off % 512 + min bs.length (BSIZE - off % BSIZE) ≤ 512 ∧
          min bs.length (BSIZE - off % BSIZE) ≤ bs.length := by
        simp only [BSIZE]
        omega
      generalize min bs.length (BSIZE - off % BSIZE) = n at hstep ⊢
      obtain ⟨hn, hfit, hle⟩ := hstep
      -- more than one byte beyond `off` needs at least the block of `off`
      have hone : blocksFor (off + 1) ≤ blocksFor (min (off + bs.length) 71168) ∨ off = 71168 := by
        rcases eq_or_ne off 71168 with h | h
        · exact Or.inr h
        · exact Or.inl (blocksFor_mono (by have := hP.le; omega))
      refine wp.bind ((findBlock_spec hG hP).mono (fun _ _ => id) ?_) ?_
      · rintro e (⟨hlt, rfl, hfull⟩ | ⟨rfl, rfl⟩)
        · refine Or.inl ⟨rfl, ?_⟩
          omega
        · refine Or.inr ⟨rfl, by omega, ?_⟩
          have := hG.le
          omega
      · rintro ⟨x, d₁⟩ m₁ ⟨hlt, hfound | ⟨hx, hfull⟩⟩
        · have htake : (List.range n).map (fun k => bs.getD k 0) = bs.take n := map_getD_range hle
          have hstore := hfound.store (f := fun k => bs.getD k 0) hlt hn hfit
          rw [htake] at hstore
          have hx : x < m₁.freeblock := hfound.lt
          have hsec : sector x = x := sector_of_le (by have := hfound.good.le; omega)
          refine wp_bind.2 (wp_rsect.2 ⟨fun hge => ?_, fun _ => ?_⟩)
          · rw [hsec] at hge
            exact absurd hge (by have := hfound.good.le; omega)
          refine wp_bind.2 (wp_wsect.2 ?_)
          rw [hsec]
          have htl : (bs.take n).length = n := by
            rw [List.length_take]
            omega
          have hpack := hstore.packed
          have hfb := hstore.freeblock
          rw [htl] at hpack hfb
          have hrest := ih (bs.drop n).length (by rw [List.length_drop]; omega) hstore.good hpack rfl
          rw [List.length_drop] at hrest
          refine hrest.mono ?_ ?_
          · rintro ⟨d₂, off₂⟩ m₂ ⟨hoff, happ⟩
            refine ⟨?_, ?_⟩
            · rw [hoff]
              omega
            · have := hstore.trans (by rw [htl]) happ
              rwa [List.take_append_drop] at this
          · intro e he
            have hm1 := blocksFor_mono (show off ≤ off + n by omega)
            have htot : off + n + (bs.length - n) = off + bs.length := by omega
            rw [AppendStop, htot] at he
            refine he.imp (fun h => ⟨h.1, ?_⟩) fun h => ⟨h.1, h.2.1, ?_⟩
            · have hm2 := blocksFor_mono (show off + n ≤ min (off + bs.length) 71168 from le_min (by omega) hpack.le)
              have := h.2
              simp only at hfb this
              omega
            · have hm2 := blocksFor_mono hpack.le
              have := h.2.2
              simp only at hfb this
              omega
        · obtain rfl : x = FSSIZE := hx
          refine wp_bind.2 (wp_rsect.2 ⟨fun _ => Or.inl ⟨rfl, ?_⟩, fun hno => absurd hno (by decide)⟩)
          omega
    · next hpos =>
      obtain rfl : bs = [] := List.length_eq_zero_iff.1 (by omega)
      exact ⟨rfl, .nil hG hP⟩

/-! ### Inodes -/

/-- The image holds the inodes `T`, each of them packed. -/
structure Built (T : Table) (m : State) : Prop where
  good : Good T m
  inum : ∀ j e, T j = some e → j < m.freeinode ∧ iblock sb j < sb.bmapstart
  sync : ∀ j e, T j = some e → dinodeOf sb m.disk j = e
  packed : ∀ j e, T j = some e → Packed m.disk e e.size.toNat

/-- What `iappend` of `bs` to inode `i` has done. -/
structure Extended (T : Table) (i : Nat) (bs : List Byte) (m : State) (d : Dinode) (m' : State) (d' : Dinode) : Prop where
  built : Built (T.set i d') m'
  same : d' = { d with addrs := d'.addrs, size := d'.size }
  contents : contents m'.disk d' = contents m.disk d ++ bs
  others : ∀ j e, j ≠ i → T j = some e → Xv6.contents m'.disk e = Xv6.contents m.disk e
  low : ∀ b, b < sb.inodestart → m'.disk b = m.disk b
  freeblock : m'.freeblock + blocksFor d.size.toNat = m.freeblock + blocksFor (d.size.toNat + bs.length)
  freeinode : m'.freeinode = m.freeinode

theorem refs_update_low {x : Nat} (h : Good T m) (hx : x < 63) (v : Blk) :
    refs (update m.disk x v) T = refs m.disk T := by
  refine refs_congr fun j l p _ hz => update_of_ne ?_ ..
  have : 63 ≤ _ := (h.ledger.range _ hz).1
  omega

theorem Good.update_low {x : Nat} (h : Good T m) (hx : x < 63) (v : Blk) :
    Good T { m with disk := update m.disk x v } := by
  have hlow : 62 < m.freeblock := (h.ledger.used_iff 62 (by decide)).2 (Or.inl (by decide))
  refine ⟨?_, h.le, fun b hb => ?_⟩
  · have hl := h.ledger
    rwa [← refs_update_low h hx v] at hl
  · show update m.disk x v b = _
    rw [update_of_ne (by simp only at hb; omega)]
    exact h.blank b hb

theorem ptr_update_low {x j : Nat} {e : Dinode} (h : Good T m) (hx : x < 63) (v : Blk) (hj : T j = some e) (l : Loc) :
    ptr (update m.disk x v) e l = ptr m.disk e l := by
  rw [← refs_some hj, refs_update_low h hx, refs_some hj]

theorem byteAt_update_low {x j : Nat} {e : Dinode} (h : Good T m) (hx : x < 63) (v : Blk) (hj : T j = some e) (k : Nat) :
    byteAt (update m.disk x v) e k = byteAt m.disk e k := by
  refine byteAt_congr (ptr_update_low h hx v hj _) fun hz => update_of_ne ?_ ..
  rw [← refs_some hj] at hz ⊢
  have : 63 ≤ _ := (h.ledger.range _ hz).1
  omega

theorem Packed.congr {c c' : Image} {n : Nat} (h : Packed c d n) (hp : ∀ l, ptr c' d' l = ptr c d l) : Packed c' d' n :=
  ⟨h.le, fun bn hbn => by rw [hp, h.data bn hbn], by rw [hp, h.ind]⟩

theorem Built.update_low {x : Nat} (h : Built T m) (hx : x < 63) (v : Blk)
    (hd : ∀ j e, T j = some e → dinodeOf sb (update m.disk x v) j = e) :
    Built T { m with disk := update m.disk x v } :=
  ⟨h.good.update_low hx v, h.inum, hd, fun j e hj => (h.packed j e hj).congr (ptr_update_low h.good hx v hj)⟩

theorem winode_spec {inum : Nat} {e : Dinode} (hi : iblock sb inum < sb.bmapstart) :
    wp (winode inum e) (fun _ m' => m' = { m with disk := putDinode sb m.disk inum e }) (fun _ => False) m := by
  have hsec : sector (iblock sb inum) = iblock sb inum := sector_of_le (by
    have : iblock sb inum < 58 := hi
    simp only [FSSIZE]
    omega)
  rw [winode]
  refine wp_bind.2 (wp_rsect.2 ⟨fun hge => ?_, fun _ => ?_⟩)
  · rw [hsec] at hge
    have : iblock sb inum < 58 := hi
    exact absurd hge (by simp only [FSSIZE]; omega)
  · rw [wp_wsect, hsec]
    rfl

theorem rinode_spec {inum : Nat} (hi : iblock sb inum < sb.bmapstart) :
    wp (rinode inum) (fun e m' => e = dinodeOf sb m.disk inum ∧ m' = m) (fun _ => False) m := by
  have hsec : sector (iblock sb inum) = iblock sb inum := sector_of_le (by
    have : iblock sb inum < 58 := hi
    simp only [FSSIZE]
    omega)
  rw [rinode]
  refine wp_bind.2 (wp_rsect.2 ⟨fun hge => ?_, fun _ => ?_⟩)
  · rw [hsec] at hge
    have : iblock sb inum < 58 := hi
    exact absurd hge (by simp only [FSSIZE]; omega)
  · rw [hsec]
    exact ⟨rfl, rfl⟩

theorem Built.append (hB : Built T m) (hi : T i = some d) {bs : List Byte}
    (h : Appended T i d.size.toNat bs m d m₁ d₁) (hd : d' = { d₁ with size := BitVec.ofNat 32 (d.size.toNat + bs.length) }) :
    Extended T i bs m d { m₁ with disk := putDinode sb m₁.disk i d' } d' := by
  obtain ⟨hlt, hib⟩ := hB.inum i d hi
  have hib : iblock sb i < 63 := lt_of_lt_of_le hib (by decide)
  have hle := h.packed.le
  have hsize : d'.size.toNat = d.size.toNat + bs.length := by
    rw [hd, BitVec.toNat_ofNat, Nat.mod_eq_of_lt (by omega)]
  have haddr : ∀ j, j < 13 → d'.addr j = d₁.addr j := fun j _ => by rw [hd]; rfl
  have hrefs : refs m₁.disk (T.set i d') = refs m₁.disk (T.set i d₁) := by
    have := refs_update_table (c := m₁.disk) (update_self i (some d₁) T) haddr
    rwa [update_idem] at this
  have hG : Good (T.set i d') m₁ := ⟨by rw [hrefs]; exact h.good.ledger, h.good.le, h.good.blank⟩
  have hptr : ∀ l, ptr m₁.disk d' l = ptr m₁.disk d₁ l := fun l => by rw [← refs_set _ T i, hrefs, refs_set]
  have hself : T.set i d' i = some d' := update_self ..
  have hother : ∀ {j e}, j ≠ i → T j = some e → T.set i d' j = some e := fun hj he => by
    rw [Table.set, update_of_ne hj, he]
  have hbyte : ∀ k, byteAt (putDinode sb m₁.disk i d') d' k = byteAt m₁.disk d₁ k := fun k => by
    rw [putDinode, byteAt_update_low hG hib _ hself]
    exact byteAt_congr (hptr _) fun _ => rfl
  refine ⟨⟨hG.update_low hib _, fun j e hj => ?_, fun j e hj => ?_, fun j e hj => ?_⟩, ?_, ?_, fun j e hj he => ?_,
    fun b hb => ?_, h.freeblock, h.freeinode⟩
  · rw [show _ = m.freeinode from h.freeinode]
    rcases eq_or_ne j i with rfl | hne
    · exact hB.inum j d hi
    · rw [Table.set, update_of_ne hne] at hj
      exact hB.inum j e hj
  · rw [dinodeOf_putDinode]
    rcases eq_or_ne j i with rfl | hne
    · rw [if_pos rfl]
      rw [hself] at hj
      exact Option.some.inj hj
    · rw [if_neg hne]
      rw [Table.set, update_of_ne hne] at hj
      rw [← hB.sync j e hj]
      exact dinodeOf_congr (h.low _ (hB.inum j e hj).2)
  · refine Packed.congr (c := m₁.disk) (d := e) ?_ (ptr_update_low hG hib _ hj)
    rcases eq_or_ne j i with rfl | hne
    · rw [hself] at hj
      cases hj
      rw [hsize]
      exact h.packed.congr hptr
    · rw [Table.set, update_of_ne hne] at hj
      refine (hB.packed j e hj).congr fun l => ?_
      have := h.refs_other j l hne
      rwa [refs_some (by rw [Table.set, update_of_ne hne, hj]),
        refs_some (by rw [Table.set, update_of_ne hne, hj])] at this
  · rw [hd, h.same]
  · refine List.ext_getElem ?_ fun k h1 h2 => ?_
    · simp only [List.length_append, length_contents, hsize]
    · rw [contents_getElem, hbyte, List.getElem_append]
      simp only [length_contents, hsize] at h1 ⊢
      rw [h.bytes k (by omega)]
      by_cases hk : k < d.size.toNat
      · rw [if_neg (by omega), dif_pos hk, contents_getElem]
      · rw [if_pos (by omega), dif_neg hk, List.getD_eq_getElem _ _ (by omega)]
  · refine contents_congr rfl fun k _ => ?_
    rw [putDinode, byteAt_update_low hG hib _ (hother hj he), h.bytes_other j e hj he]
  · show putDinode sb m₁.disk i d' b = _
    have := inodestart_le_iblock sb i
    rw [putDinode, update_of_ne (by omega)]
    exact h.low b (lt_trans hb (by decide))

theorem iappend_spec (hB : Built T m) (hi : T i = some d) (bs : List Byte) :
    wp (iappend i bs) (fun _ m' => ∃ d', Extended T i bs m d m' d') (AppendStop d.size.toNat bs.length m.freeblock) m := by
  have hib := (hB.inum i d hi).2
  have hG : Good (T.set i d) m := by
    rw [Table.set_eq hi]
    exact hB.good
  rw [iappend]
  refine wp.bind ((rinode_spec hib).mono (fun _ _ => id) fun _ => False.elim) ?_
  rintro _ _ ⟨rfl, rfl⟩
  rw [hB.sync i d hi]
  refine wp.bind (appendLoop_spec hG (hB.packed i d hi)) ?_
  rintro ⟨d₁, off⟩ m₁ ⟨rfl, h⟩
  refine ((winode_spec hib).mono ?_ fun _ => False.elim)
  rintro _ _ rfl
  exact ⟨_, hB.append hi h rfl⟩

/-- What `ialloc` writes. -/
def newDinode (type : BitVec 16) : Dinode := { Dinode.fresh type with nlink := 1 }

theorem refs_newDinode {c : Image} {type : BitVec 16} (hi : T i = none) : refs c (T.set i (newDinode type)) = refs c T := by
  funext ⟨j, l⟩
  rcases eq_or_ne j i with rfl | hne
  · rw [refs_set, refs_none hi]
    exact ptr_of_addr_zero (fun _ _ => rfl) l
  · simp only [refs, Table.set, update_of_ne hne]

/-- What `ialloc` has done: a new inode without blocks. -/
structure Allocated (T : Table) (type : BitVec 16) (m : State) (inum : Nat) (m' : State) : Prop where
  num : inum = m.freeinode
  built : Built (T.set inum (newDinode type)) m'
  others : ∀ j e, T j = some e → contents m'.disk e = contents m.disk e
  low : ∀ b, b < sb.inodestart → m'.disk b = m.disk b
  freeblock : m'.freeblock = m.freeblock
  freeinode : m'.freeinode = m.freeinode + 1

theorem ialloc_spec (type : BitVec 16) (hB : Built T m) (hlt : iblock sb m.freeinode < sb.bmapstart) :
    wp (ialloc type) (Allocated T type m) (fun _ => False) m := by
  have hib : iblock sb m.freeinode < 63 := lt_of_lt_of_le hlt (by decide)
  have hnone : T m.freeinode = none := by
    by_contra hne
    obtain ⟨e, he⟩ := Option.ne_none_iff_exists'.1 hne
    exact absurd (hB.inum _ e he).1 (lt_irrefl _)
  rw [ialloc]
  refine wp_bind.2 (wp_get.2 (wp_bind.2 (wp_modify _ |>.2 ?_)))
  refine wp.bind ((winode_spec (m := { m with freeinode := m.freeinode + 1 }) hlt).mono (fun _ _ => id) fun _ => False.elim) ?_
  rintro _ _ rfl
  have hG : Good (T.set m.freeinode (newDinode type)) m :=
    ⟨by rw [refs_newDinode hnone]; exact hB.good.ledger, hB.good.le, hB.good.blank⟩
  have hG' := hG.update_low hib ((m.disk (iblock sb m.freeinode)).move (islot m.freeinode) (newDinode type).bytes 64)
  refine ⟨rfl, ⟨⟨hG'.ledger, hG'.le, hG'.blank⟩, fun j e hj => ?_, fun j e hj => ?_, fun j e hj => ?_⟩, fun j e hj => ?_,
    fun b hb => ?_, rfl, rfl⟩
  · show j < m.freeinode + 1 ∧ _
    rcases eq_or_ne j m.freeinode with rfl | hj'
    · exact ⟨Nat.lt_succ_self _, hlt⟩
    · rw [Table.set, update_of_ne hj'] at hj
      exact ⟨Nat.lt_succ_of_lt (hB.inum j e hj).1, (hB.inum j e hj).2⟩
  · rw [dinodeOf_putDinode]
    rcases eq_or_ne j m.freeinode with rfl | hj'
    · rw [if_pos rfl]
      rw [Table.set, update_self] at hj
      exact Option.some.inj hj
    · rw [if_neg hj']
      rw [Table.set, update_of_ne hj'] at hj
      exact hB.sync j e hj
  · refine Packed.congr (c := m.disk) (d := e) ?_ (ptr_update_low hG hib _ hj)
    rcases eq_or_ne j m.freeinode with rfl | hj'
    · rw [Table.set, update_self] at hj
      cases hj
      have hz : ∀ l, ptr m.disk (newDinode type) l = 0 := ptr_of_addr_zero fun _ _ => rfl
      refine ⟨Nat.zero_le _, fun bn _ => ?_, ?_⟩
      · rw [hz]
        exact iff_of_false (fun h => h rfl) (Nat.not_lt_zero _)
      · rw [hz]
        exact iff_of_false (fun h => h rfl) (Nat.not_lt_zero _ : ¬ 5632 < 0)
    · rw [Table.set, update_of_ne hj'] at hj
      exact hB.packed j e hj
  · refine contents_congr rfl fun k _ => ?_
    exact byteAt_update_low hB.good hib _ hj k
  · show putDinode sb m.disk m.freeinode _ b = _
    have := inodestart_le_iblock sb m.freeinode
    rw [putDinode, update_of_ne (by omega)]

/-! ### Sequences of appends -/

theorem built_blank : Built (fun _ => none) blank := by
  refine ⟨⟨⟨fun r r' _ hz => absurd rfl hz, fun r hz => absurd rfl hz, fun b hb => absurd hb (Set.notMem_empty b),
    fun b hb => absurd hb (Set.notMem_empty b), fun b hb => ?_⟩, by decide, fun b hb => ?_⟩, fun j e h => (by cases h),
    fun j e h => (by cases h), fun j e h => (by cases h)⟩
  · refine ⟨Or.inl, ?_⟩
    rintro (h | h | ⟨r, rfl⟩)
    · exact h
    · exact absurd h (Set.notMem_empty b)
    · exact (by decide : 0 < nmeta)
  · have hb63 : 63 ≤ b := hb
    have hne : b ≠ 1 := by omega
    rw [show blank.disk b = update (fun _ => Block.zero _) 1 superblockBlk b from rfl, update_of_ne hne]

end

/-- States that sequences of `ialloc` and `iappend` reach, with what has been appended to each inode. Inodes stay
within the inode blocks. -/
inductive Appends : State → (Nat → List Byte) → Prop
  | blank : Appends Mkfs.blank fun _ => []
  | alloc {m m' : State} {F : Nat → List Byte} {type : BitVec 16} {inum : Nat} (h : Appends m F)
      (hlt : iblock sb m.freeinode < sb.bmapstart) (ht : type ≠ T_DEV) (hr : (ialloc type).run m = .ok (inum, m')) : Appends m' F
  | append {m m' : State} {F : Nat → List Byte} {i : Nat} {bs : List Byte} (h : Appends m F) (hi : 1 ≤ i ∧ i < m.freeinode)
      (hr : (iappend i bs).run m = .ok ((), m')) : Appends m' (update F i (F i ++ bs))

/-- The kernel reads the bytes `bs` in inode `i` of the image: any part of them that the caller asks for. -/
def ReadsBack (c : Image) (i : Nat) (bs : List Byte) : Prop :=
  ∀ (s : Dev) (off n : Nat), s.cache = c → off ≤ bs.length → off + n < 2 ^ 32 →
    (readi mkfsSuperblock (dinodeOf mkfsSuperblock c i) off n).run s =
      .ok ((((min n (bs.length - off) : Nat), (bs.drop off).take n), dinodeOf mkfsSuperblock c i), s)

section

variable {m m' : State} {F : Nat → List Byte} {i : Nat} {bs : List Byte} {T : Table}

theorem Built.readsBack {d : Dinode} (hB : Built T m) (hi : T i = some d) (ht : d.type ≠ T_DEV) :
    ReadsBack m.disk i (contents m.disk d) := by
  intro s off n hs hoff hn
  have hsync : dinodeOf mkfsSuperblock m.disk i = d := hB.sync i d hi
  have hP := hB.packed i d hi
  have hlt : ∀ l, ptr s.cache d l < FSSIZE := by
    intro l
    rw [hs]
    by_cases hz : ptr m.disk d l = 0
    · rw [hz]
      decide
    · rw [← refs_some hi] at hz ⊢
      exact (hB.good.ledger.range _ hz).2
  have hf : FileOk s.cache d := by
    refine ⟨hP.le.trans (by decide), fun bn hbn => ?_⟩
    rw [hs]
    exact hP.ne hbn
  rw [length_contents] at hoff
  obtain ⟨_, _, hr, rfl, rfl⟩ := (readi_spec mkfsSuperblock hlt hf ht hoff hn).exists_ok
  rw [hsync, hr, slice_contents, hs, readLen, length_contents]

structure Holds (T : Table) (F : Nat → List Byte) (m : State) : Prop where
  built : Built T m
  mem : ∀ i, 1 ≤ i → i < m.freeinode → ∃ d, T i = some d
  file : ∀ i d, T i = some d → d.type ≠ T_DEV ∧ contents m.disk d = F i
  new : ∀ i, m.freeinode ≤ i → F i = []

theorem Holds.allocated {type : BitVec 16} {inum : Nat} (h : Holds T F m) (ht : type ≠ T_DEV)
    (ha : Allocated T type m inum m') : Holds (T.set inum (newDinode type)) F m' := by
  obtain rfl := ha.num
  refine ⟨ha.built, fun i h1 h2 => ?_, fun i d hd => ?_, fun i hi => h.new i ?_⟩
  · rcases eq_or_ne i m.freeinode with rfl | hne
    · exact ⟨_, update_self ..⟩
    · rw [Table.set, update_of_ne hne]
      have := ha.freeinode
      exact h.mem i h1 (by omega)
  · rcases eq_or_ne i m.freeinode with rfl | hne
    · rw [Table.set, update_self] at hd
      cases hd
      refine ⟨ht, ?_⟩
      rw [h.new _ (Nat.le_refl _)]
      rfl
    · rw [Table.set, update_of_ne hne] at hd
      rw [ha.others i d hd]
      exact h.file i d hd
  · have := ha.freeinode
    omega

theorem Holds.extended {d d' : Dinode} (h : Holds T F m) (hi : T i = some d) (he : Extended T i bs m d m' d') :
    Holds (T.set i d') (update F i (F i ++ bs)) m' := by
  refine ⟨he.built, fun j h1 h2 => ?_, fun j e hj => ?_, fun j hj => ?_⟩
  · rcases eq_or_ne j i with rfl | hne
    · exact ⟨_, update_self ..⟩
    · rw [Table.set, update_of_ne hne]
      exact h.mem j h1 (he.freeinode ▸ h2)
  · rcases eq_or_ne j i with rfl | hne
    · rw [Table.set, update_self] at hj
      cases hj
      obtain ⟨ht, hc⟩ := h.file j d hi
      rw [update_self, he.contents, hc]
      refine ⟨?_, rfl⟩
      rw [he.same]
      exact ht
    · rw [Table.set, update_of_ne hne] at hj
      rw [update_of_ne hne, he.others j e hne hj]
      exact h.file j e hj
  · have hlt := (h.built.inum i d hi).1
    have hji : j ≠ i := by
      have := he.freeinode
      omega
    rw [update_of_ne hji]
    exact h.new j (he.freeinode ▸ hj)

theorem Appends.holds (h : Appends m F) : ∃ T, Holds T F m := by
  induction h with
  | blank =>
    refine ⟨_, built_blank, fun i h1 h2 => ?_, fun i d hd => (by cases hd), fun _ _ => rfl⟩
    have : i < 1 := h2
    omega
  | alloc _ hlt ht hr ih =>
    obtain ⟨T, hT⟩ := ih
    exact ⟨_, hT.allocated ht (wp.of_ok (ialloc_spec _ hT.built hlt) hr)⟩
  | append _ hi hr ih =>
    obtain ⟨T, hT⟩ := ih
    obtain ⟨d, hd⟩ := hT.mem _ hi.1 hi.2
    obtain ⟨d', hd'⟩ := wp.of_ok (iappend_spec hT.built hd _) hr
    exact ⟨_, hT.extended hd hd'⟩

theorem Holds.readsBack (h : Holds T F m) (h1 : 1 ≤ i) (h2 : i < m.freeinode) : ReadsBack m.disk i (F i) := by
  obtain ⟨d, hd⟩ := h.mem i h1 h2
  obtain ⟨ht, hc⟩ := h.file i d hd
  rw [← hc]
  exact h.built.readsBack hd ht

theorem Holds.overflows (h : Holds T F m) (h1 : 1 ≤ i) (h2 : i < m.freeinode) (hlong : 71168 < (F i).length + bs.length)
    (hroom : m.freeblock + (blocksFor 71168 - blocksFor (F i).length) ≤ FSSIZE) :
    (iappend i bs).run m = .error .undefined := by
  obtain ⟨d, hd⟩ := h.mem i h1 h2
  have hlen : (F i).length = d.size.toNat := by rw [← (h.file i d hd).2, length_contents]
  rw [hlen] at hlong hroom
  have hspec := iappend_spec h.built hd bs
  cases hr : (iappend i bs).run m with
  | ok p =>
    obtain ⟨d', hd'⟩ := wp.of_ok hspec hr
    have hle := (hd'.built.packed i d' (update_self ..)).le
    have hsz : d'.size.toNat = d.size.toNat + bs.length := by
      rw [← length_contents p.2.disk d', hd'.contents, List.length_append, length_contents]
    omega
  | error e =>
    rcases wp.of_error hspec hr with ⟨rfl, hfull⟩ | ⟨rfl, -, -⟩
    · rw [min_eq_right (by omega)] at hfull
      omega
    · rfl

/-- From every image that `ialloc` and `iappend` have built, appending the bytes `bs` to a file stays within the arrays
and leaves every file as the kernel's `readi` should find it exactly if the file then has at most the 139 blocks of
the direct pointers and the indirect block, or the disk is full before the end of block 138. -/
theorem iappend_reads_back_iff (h : Appends m F) (h1 : 1 ≤ i) (h2 : i < m.freeinode) (bs : List Byte) :
    ((iappend i bs).run m ≠ .error .undefined ∧
      ∀ m', (iappend i bs).run m = .ok ((), m') → ∀ j, 1 ≤ j → j < m'.freeinode →
        ReadsBack m'.disk j (update F i (F i ++ bs) j)) ↔
      (F i).length + bs.length ≤ (NDIRECT + NINDIRECT) * BSIZE ∨
        FSSIZE < m.freeblock + (blocksFor ((NDIRECT + NINDIRECT) * BSIZE) - blocksFor (F i).length) := by
  obtain ⟨T, hT⟩ := h.holds
  obtain ⟨d, hd⟩ := hT.mem i h1 h2
  have hspec := iappend_spec hT.built hd bs
  show _ ↔ (F i).length + bs.length ≤ 71168 ∨ FSSIZE < m.freeblock + (blocksFor 71168 - blocksFor (F i).length)
  constructor
  · rintro ⟨hno, -⟩
    by_contra hboth
    rw [not_or, Nat.not_le, Nat.not_lt] at hboth
    exact hno (hT.overflows h1 h2 hboth.1 hboth.2)
  · intro hcond
    refine ⟨fun hr => ?_, fun m' hr j hj1 hj2 => ?_⟩
    · have hlen : (F i).length = d.size.toNat := by rw [← (hT.file i d hd).2, length_contents]
      rw [hlen] at hcond
      rcases wp.of_error hspec hr with ⟨hno, -⟩ | ⟨-, hlong, hroom⟩
      · cases hno
      · omega
    · obtain ⟨d', hd'⟩ := wp.of_ok hspec hr
      exact (hT.extended hd hd').readsBack hj1 hj2

end

def oneFile : State := (ialloc T_FILE).final blank

theorem appends_oneFile : Appends oneFile fun _ => [] :=
  .alloc (F := fun _ => []) .blank (by decide) (by decide) (run_eq_final (a := 1) (by decide +kernel))

/-- One byte appended to an empty file is read back. -/
theorem iappend_reads_back_letter : ((iappend 1 [65]).result oneFile).isSome = true ∧
    ReadsBack ((iappend 1 [65]).final oneFile).disk 1 [65] := by
  have hrun := run_eq_final (x := iappend 1 [65]) (s := oneFile) (a := ()) (by decide +kernel)
  have hiff := iappend_reads_back_iff (i := 1) appends_oneFile (by decide) (by decide +kernel) [65]
  exact ⟨by decide +kernel, (hiff.2 (Or.inl (by decide))).2 _ hrun 1 (by decide) (by decide +kernel)⟩

/-- A file of 71169 bytes, which the assertion admits, makes `iappend` index its array of 128 words at 128. -/
theorem iappend_overflows : Appends oneFile (fun _ => []) ∧ 71169 ≤ MAXFILE * BSIZE ∧
    (iappend 1 (List.replicate 71169 0)).run oneFile = .error .undefined := by
  obtain ⟨T, hT⟩ := appends_oneFile.holds
  refine ⟨appends_oneFile, by decide, hT.overflows (by decide) (by decide +kernel) ?_ (by decide +kernel)⟩
  rw [List.length_replicate]
  decide

end Xv6.Mkfs
