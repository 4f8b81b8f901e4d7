import Mathlib.Data.BitVec
import Xv6.Gather
import Xv6.Vm

/-!
# The pages of an address space

A page directory, its page tables and the user pages they map are read off the physical memory: `tableAt`, `pteAt` and
`dirPages`. The functions of `vm.c` move pages between the free list, the directory they work on and the caller's hands;
`Moves` says that none is lost or duplicated on the way and that no other page is written.
-/

namespace Xv6.Vm

open Prog Function

variable {L : Link} {mem mem' : Nat → Page} {d t i j v x : Nat} {w f : BitVec 32} {u u' u'' hand : Multiset Nat}
variable {m m' m'' : Machine} {E : Fault → Prop}

/-! ### Words -/

theorem has_or {a b : BitVec 32} : has (a ||| b) f ↔ has a f ∨ has b f := by
  have h : (a ||| b) &&& f = a &&& f ||| b &&& f := BitVec.and_or_distrib_right
  unfold has
  rw [h, ← not_and_or, not_iff_not]
  exact BitVec.or_eq_zero_iff

theorem phys_and_mask (t : Nat) : BitVec.ofNat 32 (PGSIZE * t) &&& ~~~0xFFF = BitVec.ofNat 32 (PGSIZE * t) := by
  have hlow : ∀ k, (0xFFF : BitVec 32).getLsbD k = decide (k < 12) := fun k => by
    have : (0xFFF : BitVec 32) = BitVec.ofNat 32 (2 ^ 12 - 1) := rfl
    rw [this, BitVec.getLsbD_ofNat, Nat.testBit_two_pow_sub_one]
    by_cases hk : k < 12
    · simp [hk, show k < 32 by omega]
    · simp [hk]
  refine BitVec.eq_of_getLsbD_eq fun k hk => ?_
  rw [BitVec.getLsbD_and, BitVec.getLsbD_not, hlow, BitVec.getLsbD_ofNat,
    show PGSIZE * t = 2 ^ 12 * t from rfl, Nat.testBit_two_pow_mul]
  by_cases h : k < 12
  · have : ¬ 12 ≤ k := by omega
    simp [h, this]
  · simp [h, hk]

theorem not_has_phys (t : Nat) (hf : f &&& ~~~0xFFF = 0) : ¬ has (BitVec.ofNat 32 (PGSIZE * t)) f := by
  rw [has, not_not, ← phys_and_mask t, BitVec.and_assoc, BitVec.and_comm _ f, hf]
  exact BitVec.and_zero

theorem frame_mk (ht : t < 2 ^ 20) (hf : f &&& ~~~0xFFF = 0) : frame (BitVec.ofNat 32 (PGSIZE * t) ||| f) = t := by
  have h : (BitVec.ofNat 32 (PGSIZE * t) ||| f) &&& ~~~0xFFF = BitVec.ofNat 32 (PGSIZE * t) &&& ~~~0xFFF ||| f &&& ~~~0xFFF :=
    BitVec.and_or_distrib_right
  have hz : BitVec.ofNat 32 (PGSIZE * t) ||| 0 = BitVec.ofNat 32 (PGSIZE * t) := BitVec.or_zero
  rw [frame, pteAddr, h, phys_and_mask, hf, hz, BitVec.toNat_ofNat]
  simp only [PGSIZE]
  omega

theorem entry_putU32 {pg : Page} (hi : i < 1024) : entry (pg.putU32 (4 * i) w) j = if j = i then w else entry pg j := by
  unfold entry
  split
  · next h =>
    rw [h]
    exact Block.u32_putU32 _ _ (by simp only [PGSIZE]; omega)
  · exact Block.u32_putU32_of_disjoint _ _ (by omega)

theorem entry_zero : entry (Block.zero PGSIZE) i = 0 := Block.u32_zero _

theorem entry_out {pg : Page} (hi : 1024 ≤ i) : entry pg i = 0 := by
  rw [entry, u32, leVal_zero fun k _ => pg.out _ (by simp only [PGSIZE]; omega)]
  rfl

/-! ### Address spaces -/

def presentEntry (w : BitVec 32) : Option (BitVec 32) := if has w PTE_P then some w else none

/-- The frame of page table `i` of the directory `d`. -/
def tableAt (mem : Nat → Page) (d i : Nat) : Option Nat := (presentEntry (entry (mem d) i)).map frame

/-- The entry for virtual page `v` in the directory `d`. -/
def pteAt (mem : Nat → Page) (d v : Nat) : Option (BitVec 32) :=
    (tableAt mem d (v / 1024)).bind fun t => presentEntry (entry (mem t) (v % 1024))

/-- The number of virtual pages below `KERNBASE`. -/
def userPages : Nat := KERNBASE / PGSIZE

def tables (mem : Nat → Page) (d : Nat) : Multiset Nat := gather NPDENTRIES (tableAt mem d)

def users (mem : Nat → Page) (d : Nat) : Multiset Nat := gather userPages fun v => (pteAt mem d v).map frame

/-- The directory, its page tables, and the pages mapped below `KERNBASE`. -/
def dirPages (mem : Nat → Page) (d : Nat) : Multiset Nat := {d} + tables mem d + users mem d

theorem tableAt_lt (h : tableAt mem d i = some t) : i < 1024 := by
  by_contra hi
  rw [tableAt, entry_out (by omega)] at h
  cases h

theorem dir_mem : d ∈ dirPages mem d := by
  simp [dirPages]

theorem table_mem (h : tableAt mem d i = some t) : t ∈ dirPages mem d := by
  have : t ∈ tables mem d := mem_gather.2 ⟨i, tableAt_lt h, h⟩
  simp [dirPages, this]

theorem user_mem (hv : v < userPages) (h : pteAt mem d v = some w) : frame w ∈ dirPages mem d := by
  have : frame w ∈ users mem d := mem_gather.2 ⟨v, hv, by rw [h]; rfl⟩
  simp [dirPages, this]

theorem pteAt_of_table (h : tableAt mem d (v / 1024) = some t) : pteAt mem d v = presentEntry (entry (mem t) (v % 1024)) := by
  rw [pteAt, h]
  rfl

theorem tableAt_congr (hd : mem' d = mem d) : tableAt mem' d = tableAt mem d := by
  funext i
  rw [tableAt, tableAt, hd]

theorem pteAt_congr (hd : mem' d = mem d) (h : ∀ i t, tableAt mem d i = some t → mem' t = mem t) :
    pteAt mem' d = pteAt mem d := by
  funext v
  rw [pteAt, pteAt, tableAt_congr hd]
  cases ht : tableAt mem d (v / 1024) with
  | none => rfl
  | some t =>
    simp only [Option.bind_some]
    rw [h _ _ ht]

theorem dirPages_congr (h : ∀ x ∈ dirPages mem d, mem' x = mem x) : dirPages mem' d = dirPages mem d := by
  have hd := h d dir_mem
  rw [dirPages, dirPages, tables, tables, users, users, tableAt_congr hd, pteAt_congr hd fun i t ht => h t (table_mem ht)]

section Nodup

variable (hn : (dirPages mem d).Nodup)
include hn

theorem table_ne_dir (h : tableAt mem d i = some t) : t ≠ d := by
  rintro rfl
  rw [dirPages, add_assoc, Multiset.singleton_add, Multiset.nodup_cons] at hn
  exact hn.1 (Multiset.mem_add.2 (.inl (mem_gather.2 ⟨i, tableAt_lt h, h⟩)))

theorem table_inj (hi : tableAt mem d i = some t) (hj : tableAt mem d j = some t) : i = j := by
  rw [dirPages, Multiset.nodup_add, Multiset.nodup_add] at hn
  exact gather_inj hn.1.2.1 (tableAt_lt hi) (tableAt_lt hj) hi hj

theorem user_ne_table (hv : v < userPages) (h : pteAt mem d v = some w) (ht : tableAt mem d i = some t) : frame w ≠ t := by
  rintro rfl
  rw [dirPages, Multiset.nodup_add] at hn
  refine Multiset.disjoint_left.1 hn.2.2 (Multiset.mem_add.2 (.inr (mem_gather.2 ⟨i, tableAt_lt ht, ht⟩))) ?_
  exact mem_gather.2 ⟨v, hv, by rw [h]; rfl⟩

theorem user_ne_dir (hv : v < userPages) (h : pteAt mem d v = some w) : frame w ≠ d := by
  intro he
  rw [dirPages, Multiset.nodup_add] at hn
  refine Multiset.disjoint_left.1 hn.2.2 (Multiset.mem_add.2 (.inl (Multiset.mem_singleton_self d))) ?_
  exact mem_gather.2 ⟨v, hv, by rw [h, ← he]; rfl⟩

theorem user_inj {v' : Nat} {w' : BitVec 32} (hv : v < userPages) (hv' : v' < userPages) (h : pteAt mem d v = some w)
    (h' : pteAt mem d v' = some w') (he : frame w = frame w') : v = v' := by
  rw [dirPages, Multiset.nodup_add] at hn
  exact gather_inj hn.2.1 hv hv' (by rw [h]; rfl) (by rw [h', he]; rfl)

/-- The page tables of `d` are different pages, and `d` is none of them. -/
structure Tree (mem : Nat → Page) (d : Nat) : Prop where
  ne_dir : ∀ {i t}, tableAt mem d i = some t → t ≠ d
  inj : ∀ {i j t}, tableAt mem d i = some t → tableAt mem d j = some t → i = j

theorem Tree.of_nodup : Tree mem d := ⟨table_ne_dir hn, table_inj hn⟩

end Nodup

/-! ### One entry is written -/

section SetPte

variable (hn : Tree mem d) (ht : tableAt mem d i = some t) (hj : j < 1024)
include hn ht

theorem tableAt_setPte : tableAt (update mem t ((mem t).putU32 (4 * j) w)) d = tableAt mem d :=
  tableAt_congr (update_of_ne (hn.ne_dir ht).symm ..)

include hj

theorem pteAt_setPte : pteAt (update mem t ((mem t).putU32 (4 * j) w)) d =
    update (pteAt mem d) (1024 * i + j) (presentEntry w) := by
  funext v
  rw [pteAt, tableAt_setPte hn ht]
  by_cases hv : v = 1024 * i + j
  · obtain ⟨rfl, rfl⟩ : i = v / 1024 ∧ j = v % 1024 := by omega
    rw [← hv, update_self, ht]
    simp only [Option.bind_some, update_self]
    rw [entry_putU32 hj, if_pos rfl]
  · rw [update_of_ne hv, pteAt]
    cases ht' : tableAt mem d (v / 1024) with
    | none => rfl
    | some t' =>
      simp only [Option.bind_some]
      by_cases hne : t' = t
      · subst hne
        have hi := hn.inj ht ht'
        rw [update_self, entry_putU32 hj, if_neg (by omega)]
      · rw [update_of_ne hne]

end SetPte

/-- The page that an entry for `v` holds. -/
def userHeld (v : Nat) (o : Option (BitVec 32)) : Multiset Nat := if v < userPages then held (o.map frame) else 0

theorem dirPages_change {o : Option (BitVec 32)} (ht : tableAt mem' d = tableAt mem d)
    (hp : pteAt mem' d = update (pteAt mem d) v o) : dirPages mem' d + userHeld v
      (pteAt mem d v) = dirPages mem d + userHeld v o := by
  have hrest : ∀ k, k ≠ v → (pteAt mem' d k).map frame = (pteAt mem d k).map frame := fun k hk => by
    rw [hp, update_of_ne hk]
  have hu : users mem' d + userHeld v (pteAt mem d v) = users mem d + userHeld v o := by
    unfold userHeld users
    split
    · next hv =>
      have hv' : pteAt mem' d v = o := by rw [hp, update_self]
      rw [← hv']
      exact gather_change hv fun k _ hk => hrest k hk
    · next hv =>
      rw [add_zero, add_zero]
      exact gather_congr fun k hk => hrest k (by omega)
  rw [dirPages, dirPages, tables, tables, ht, add_assoc, hu, ← add_assoc]

/-! ### Pages on the move -/

/-- The pages `u` in hand before have become the pages `u'` in hand after, by way of the free list. -/
structure Moves (u u' : Multiset Nat) (m m' : Machine) : Prop where
  bal : (m'.freelist : Multiset Nat) + u' = m.freelist + u
  outside : ∀ x, x ∉ (m.freelist : Multiset Nat) + u → m'.mem x = m.mem x
  rest : m' = { m with mem := m'.mem, freelist := m'.freelist, fails := m'.fails }
  fails : m'.fails <:+ m.fails

/-- The free pages and those in hand are different pages that `kfree` accepts. -/
structure Good (L : Link) (u : Multiset Nat) (m : Machine) : Prop where
  nodup : ((m.freelist : Multiset Nat) + u).Nodup
  range : ∀ x ∈ (m.freelist : Multiset Nat) + u, L.kend ≤ PGSIZE * x ∧ PGSIZE * x < PHYSTOP

theorem Moves.refl (u : Multiset Nat) (m : Machine) : Moves u u m m := ⟨rfl, fun _ _ => rfl, rfl, List.suffix_rfl⟩

theorem Moves.trans (h : Moves u u' m m') (h' : Moves u' u'' m' m'') : Moves u u'' m m'' := by
  refine ⟨h'.bal.trans h.bal, fun x hx => ?_, ?_, h'.fails.trans h.fails⟩
  · rw [h'.outside x (by rw [h.bal]; exact hx), h.outside x hx]
  · rw [h'.rest, h.rest]

theorem Moves.add (h : Moves u u' m m') (w : Multiset Nat) : Moves (u + w) (u' + w) m m' := by
  refine ⟨?_, fun x hx => h.outside x fun hx' => hx ?_, h.rest, h.fails⟩
  · rw [← add_assoc, h.bal, add_assoc]
  · rw [← add_assoc]
    exact Multiset.mem_add.2 (.inl hx')

/-- No answer of `kalloc` between the two states was a failure while pages were free. -/
def Granted (m m' : Machine) : Prop := ∃ asked, m.fails = asked ++ m'.fails ∧ true ∉ asked

theorem Moves.granted {y y' : Multiset Nat} (h : Moves u u' m m') (h' : Moves y y' m' m'')
    (hg : Granted m m'') : Granted m m' ∧ Granted m' m'' := by
  obtain ⟨l, hl⟩ := h.fails
  obtain ⟨l', hl'⟩ := h'.fails
  obtain ⟨asked, ha, hno⟩ := hg
  have hsplit : l ++ l' = asked := by
    rw [← hl, ← hl', ← List.append_assoc] at ha
    exact List.append_cancel_right ha
  rw [← hsplit, List.mem_append] at hno
  exact ⟨⟨l, hl.symm, fun h => hno (.inl h)⟩, l', hl'.symm, fun h => hno (.inr h)⟩

/-- The answers that were used up between the two states, with one that was a failure unless `P`. -/
theorem Moves.asked {P : Prop} (h : Moves u u' m m') (hP : Granted m m' → P) : ∃ asked,
    m.fails = asked ++ m'.fails ∧ (true ∈ asked ∨ P) := by
  obtain ⟨asked, ha⟩ := h.fails
  by_cases hno : true ∈ asked
  · exact ⟨asked, ha.symm, .inl hno⟩
  · exact ⟨asked, ha.symm, .inr (hP ⟨asked, ha.symm, hno⟩)⟩

theorem Moves.granted_of_nil (h : Moves u u' m m') (hf : m.fails = []) : Granted m m' := by
  have hnil := h.fails
  rw [hf, List.suffix_nil] at hnil
  exact ⟨[], by rw [hf, hnil]; rfl, List.not_mem_nil⟩

theorem Moves.good (h : Moves u u' m m') (hg : Good L u m) : Good L u' m' := by
  refine ⟨?_, ?_⟩
  all_goals rw [h.bal]
  · exact hg.nodup
  · exact hg.range

theorem Good.of_le (h : Good L u m) (hle : u' ≤ u) : Good L u' m := by
  have hsub : (m.freelist : Multiset Nat) + u' ≤ m.freelist + u := add_le_add_right hle _
  exact ⟨Multiset.nodup_of_le hsub h.nodup, fun x hx => h.range x (Multiset.mem_of_le hsub hx)⟩

theorem Good.left (h : Good L (u + u') m) : Good L u m := h.of_le (Multiset.le_add_right u u')

theorem Good.nodup_hand (h : Good L u m) : u.Nodup := (Multiset.nodup_add.1 h.nodup).2.1

theorem Good.lt (h : Good L u m) (hx : x ∈ (m.freelist : Multiset Nat) + u) : x < 2 ^ 20 := by
  have := (h.range x hx).2
  simp only [PGSIZE, PHYSTOP] at this
  omega

@[simp] theorem wp_setPage {pg : Page} {Q : Unit → Machine → Prop} :
    wp (setPage x pg) Q E m ↔ Q () { m with mem := update m.mem x pg } := Iff.rfl

@[simp] theorem wp_setEntry {Q : Unit → Machine → Prop} :
    wp (setEntry x i w) Q E m ↔ Q () { m with mem := update m.mem x ((m.mem x).putU32 (4 * i) w) } := Iff.rfl

/-- User pages that stay mapped in `d` keep their contents. -/
def SameData (d : Nat) (mem mem' : Nat → Page) : Prop :=
  ∀ v w, v < userPages → pteAt mem d v = some w → pteAt mem' d v = some w → mem' (frame w) = mem (frame w)

theorem SameData.refl (d : Nat) (mem : Nat → Page) : SameData d mem mem := fun _ _ _ _ _ => rfl

/-! ### `kalloc.c` -/

theorem kalloc_spec : wp kalloc (fun r m' => Moves 0 (held r) m m' ∧ m'.mem = m.mem ∧
    (r = none → Granted m m' → m'.freelist = [])) E m := by
  rw [kalloc]
  refine wp_bind.2 (wp_get.2 ?_)
  split
  · next rest hf =>
    refine ⟨⟨rfl, fun _ _ => rfl, rfl, ⟨[true], hf.symm⟩⟩, rfl, ?_⟩
    rintro - ⟨asked, ha, hno⟩
    obtain rfl : [true] = asked := List.append_cancel_right (hf.symm.trans ha)
    exact absurd List.mem_cons_self hno
  · next hl _ => exact ⟨.refl 0 m, rfl, fun _ _ => hl⟩
  · next x xs hl _ =>
    refine ⟨⟨?_, fun _ _ => rfl, rfl, List.tail_suffix _⟩, rfl, fun h => absurd h (by simp)⟩
    change (xs : Multiset Nat) + {x} = m.freelist + 0
    rw [hl, add_zero, add_comm, Multiset.singleton_add, Multiset.cons_coe]

/-- What `kfree` leaves in the page. -/
def junk : Page := (Block.zero PGSIZE).move 0 (fun _ => 1) PGSIZE

theorem kfree_spec (hx : L.kend ≤ PGSIZE * x ∧ PGSIZE * x < PHYSTOP) :
    wp (kfree L x) (fun _ m' => Moves {x} 0 m m' ∧ m'.mem = update m.mem x junk) E m := by
  refine wp_bind.2 (wp_failIf.2 ⟨fun h => by omega, fun _ => ?_⟩)
  refine ⟨⟨?_, fun y hy => update_of_ne ?_ .., rfl, List.suffix_rfl⟩, rfl⟩
  · change ((x :: m.freelist : List Nat) : Multiset Nat) + 0 = m.freelist + {x}
    rw [add_zero, ← Multiset.cons_coe, add_comm, Multiset.singleton_add]
  · rintro rfl
    exact hy (Multiset.mem_add.2 (.inr (Multiset.mem_singleton_self y)))

/-! ### `walkpgdir` -/

theorem walkpgdir_read (d va : Nat) :
    wp (walkpgdir d va false) (fun r m' => m' = m ∧ r = (tableAt m.mem d (pdx va)).map fun t => (t, ptx va)) E m := by
  rw [walkpgdir]
  refine wp_bind.2 (wp_get.2 ?_)
  dsimp only
  rw [tableAt, presentEntry]
  by_cases hp : has (entry (m.mem d) (pdx va)) PTE_P
  · rw [if_pos hp, if_pos hp]
    exact ⟨rfl, rfl⟩
  · rw [if_neg hp, if_neg hp, if_pos rfl]
    exact ⟨rfl, rfl⟩

/-- Page tables may have been added to `d`, and its entries are the same. -/
structure Walked (d : Nat) (m m' : Machine) : Prop where
  moves : Moves (dirPages m.mem d) (dirPages m'.mem d) m m'
  tables : ∀ i t, tableAt m.mem d i = some t → tableAt m'.mem d i = some t
  ptes : pteAt m'.mem d = pteAt m.mem d
  data : SameData d m.mem m'.mem

theorem Walked.refl (d : Nat) (m : Machine) : Walked d m m := ⟨.refl _ _, fun _ _ => id, rfl, .refl _ _⟩

/-- The word for page table `t` in a directory. -/
def tableEntry (t : Nat) : BitVec 32 := BitVec.ofNat 32 (PGSIZE * t) ||| PTE_P ||| PTE_W ||| PTE_U

theorem presentEntry_tableEntry (ht : t < 2 ^ 20) : (presentEntry (tableEntry t)).map frame = some t := by
  have hp : has (tableEntry t) PTE_P := by
    rw [tableEntry, has_or, has_or, has_or]
    exact .inl (.inl (.inr (by decide)))
  have hw : tableEntry t = BitVec.ofNat 32 (PGSIZE * t) ||| (PTE_P ||| PTE_W ||| PTE_U) := by
    rw [tableEntry, BitVec.or_assoc, BitVec.or_assoc, ← BitVec.or_assoc PTE_P]
  rw [presentEntry, if_pos hp, Option.map_some, hw, frame_mk ht (by decide)]

/-- The zeroed page `t` has become page table `i` of `d`. -/
def withTable (mem : Nat → Page) (d i t : Nat) : Nat → Page :=
  update (update mem t (Block.zero PGSIZE)) d ((mem d).putU32 (4 * i) (tableEntry t))

section WithTable

variable (ht : t < 2 ^ 20) (hi : i < 1024)
include ht hi

theorem tableAt_withTable : tableAt (withTable mem d i t) d = update (tableAt mem d) i (some t) := by
  funext k
  rw [tableAt, withTable, update_self, entry_putU32 hi]
  by_cases hk : k = i
  · rw [if_pos hk, hk, update_self, presentEntry_tableEntry ht]
  · rw [if_neg hk, update_of_ne hk, tableAt]

variable (hnone : tableAt mem d i = none)
include hnone

theorem dirPages_withTable_tables : tables (withTable mem d i t) d = tables mem d + {t} := by
  have hrest : ∀ k, k < NPDENTRIES → k ≠ i → tableAt (withTable mem d i t) d k = tableAt mem d k := fun k _ hk => by
    rw [tableAt_withTable ht hi, update_of_ne hk]
  have h := gather_change (n := NPDENTRIES) hi hrest
  rwa [hnone, tableAt_withTable ht hi, update_self, held_none, held_some, add_zero, ← tableAt_withTable ht hi] at h

theorem pteAt_withTable (htd : t ≠ d) (hnew : ∀ k, tableAt mem d k ≠ some t) (htree : Tree mem d) :
    pteAt (withTable mem d i t) d = pteAt mem d := by
  funext v
  rw [pteAt, tableAt_withTable ht hi]
  by_cases hv : v / 1024 = i
  · -- the new table is empty, and there was none
    rw [hv, update_self, pteAt, hv, hnone]
    change presentEntry (entry (withTable mem d i t t) (v % 1024)) = none
    rw [withTable, update_of_ne htd, update_self, entry_zero]
    rfl
  · rw [update_of_ne hv, pteAt]
    cases hk : tableAt mem d (v / 1024) with
    | none => rfl
    | some t' =>
      have htt' : t' ≠ t := fun h => hnew _ (h ▸ hk)
      simp only [Option.bind_some]
      rw [withTable, update_of_ne (htree.ne_dir hk), update_of_ne htt']

theorem pteAt_addTable (hn : t ∉ dirPages mem d) (hnd : (dirPages mem d).Nodup) : pteAt (withTable mem d i t) d = pteAt mem d :=
  pteAt_withTable ht hi hnone (fun h => hn (h ▸ dir_mem)) (fun _ h => hn (table_mem h)) (.of_nodup hnd)

theorem dirPages_withTable (hn : t ∉ dirPages mem d) (hnd : (dirPages mem d).Nodup) :
    dirPages (withTable mem d i t) d = dirPages mem d + {t} := by
  rw [dirPages, dirPages, dirPages_withTable_tables ht hi hnone, users, users, pteAt_addTable ht hi hnone hn hnd]
  abel

end WithTable

theorem wp_addTable {α : Type} {r : α} {Q : α → Machine → Prop} (h : d ≠ t) :
    wp (do setPage t (Block.zero PGSIZE); setEntry d i (tableEntry t); pure r) Q E m ↔
      Q r { m with mem := withTable m.mem d i t } := by
  simp only [wp_bind, wp_setPage, wp_setEntry, wp_pure, update_of_ne h, withTable]

/-- `walkpgdir` that may allocate: the table is there, or there is no page for it, or a free page becomes the table. -/
theorem wp_walkpgdir_alloc {Q : Option (Nat × Nat) → Machine → Prop} {va : Nat}
    (hthere : ∀ t, tableAt m.mem d (pdx va) = some t → Q (some (t, ptx va)) m)
    (hfull : tableAt m.mem d (pdx va) = none → ∀ m₁, Moves 0 0 m m₁ → m₁.mem = m.mem →
      (Granted m m₁ → m₁.freelist = []) → Q none m₁)
    (hnew : tableAt m.mem d (pdx va) = none → ∀ t m₁, Moves 0 {t} m m₁ →
      d ≠ t ∧ Q (some (t, ptx va)) { m₁ with mem := withTable m.mem d (pdx va) t }) : wp (walkpgdir d va true) Q E m := by
  rw [walkpgdir]
  refine wp_bind.2 (wp_get.2 ?_)
  dsimp only
  by_cases hp : has (entry (m.mem d) (pdx va)) PTE_P
  · rw [if_pos hp]
    refine hthere _ ?_
    rw [tableAt, presentEntry, if_pos hp]
    rfl
  · rw [if_neg hp, if_neg (by decide)]
    have hnone : tableAt m.mem d (pdx va) = none := by
      rw [tableAt, presentEntry, if_neg hp]
      rfl
    refine wp.bind kalloc_spec ?_
    rintro (_ | t) m₁ ⟨hk, hmem, hs⟩
    · exact hfull hnone m₁ hk hmem (hs rfl)
    · obtain ⟨hdt, hq⟩ := hnew hnone t m₁ hk
      refine (wp_addTable hdt).2 ?_
      rwa [hmem]

/-- A page for the missing table `i` was not to be had. -/
structure NoTable (d i : Nat) (m m' : Machine) : Prop where
  mem : m'.mem = m.mem
  table : tableAt m.mem d i = none
  starved : Granted m m' → m'.freelist = []

theorem walkpgdir_alloc (hg : Good L (dirPages m.mem d) m) {va : Nat} :
    wp (walkpgdir d va true) (fun r m' => Walked d m m' ∧ (∀ i, i ≠ pdx va → tableAt m'.mem d i = tableAt m.mem d i) ∧
      (r = none → NoTable d (pdx va) m m') ∧
      ∀ t j, r = some (t, j) → j = ptx va ∧ tableAt m'.mem d (pdx va) = some t) E m := by
  have hi : pdx va < 1024 := Nat.mod_lt _ (by decide)
  refine wp_walkpgdir_alloc (fun t ht => ⟨.refl d m, fun _ _ => rfl, fun h => absurd h (by simp), ?_⟩)
    (fun hnone m₁ hk hmem hs => ?_)
    fun hnone t m₁ hk => ?_
  · rintro _ _ ⟨⟩
    exact ⟨rfl, ht⟩
  · have hk' := hk.add (dirPages m.mem d)
    rw [zero_add] at hk'
    refine ⟨⟨?_, ?_, ?_, ?_⟩, ?_, fun _ => ⟨hmem, hnone, hs⟩, fun _ _ h => absurd h (by simp)⟩
    all_goals rw [hmem]
    · exact hk'
    · exact fun _ _ => id
    · exact .refl _ _
    · exact fun _ _ => rfl
  · have hmem_free : t ∈ (m.freelist : Multiset Nat) := by
      have hb := hk.bal
      rw [add_zero] at hb
      rw [← hb]
      exact Multiset.mem_add.2 (.inr (Multiset.mem_singleton_self t))
    have ht := hg.lt (Multiset.mem_add.2 (.inl hmem_free))
    have hn : t ∉ dirPages m.mem d := Multiset.disjoint_left.1 (Multiset.nodup_add.1 hg.nodup).2.2 hmem_free
    have htd : d ≠ t := fun h => hn (h ▸ dir_mem)
    have hnd := hg.nodup_hand
    refine ⟨htd, ⟨⟨?_, fun x hx => ?_, ?_, hk.fails⟩, fun i' t' h' => ?_,
      pteAt_addTable ht hi hnone hn hnd, fun v w hv hw _ => ?_⟩,
      fun i' hi' => ?_, fun h => absurd h (by simp), ?_⟩
    · change (m₁.freelist : Multiset Nat) + dirPages (withTable m.mem d (pdx va) t) d = _
      rw [dirPages_withTable ht hi hnone hn hnd, add_comm (dirPages m.mem d), ← add_assoc]
      have hb := hk.bal
      rw [add_zero] at hb
      rw [hb]
    · change withTable m.mem d (pdx va) t x = m.mem x
      have hxd : x ≠ d := fun h => hx (Multiset.mem_add.2 (.inr (h ▸ dir_mem)))
      have hxt : x ≠ t := fun h => hx (Multiset.mem_add.2 (.inl (h ▸ hmem_free)))
      rw [withTable, update_of_ne hxd, update_of_ne hxt]
    · rw [hk.rest]
    · change tableAt (withTable m.mem d (pdx va) t) d i' = some t'
      have hne : i' ≠ pdx va := fun h => by rw [h, hnone] at h'; cases h'
      rw [tableAt_withTable ht hi, update_of_ne hne, h']
    · have hwt : frame w ≠ t := fun h => hn (h ▸ user_mem hv hw)
      change withTable m.mem d (pdx va) t (frame w) = m.mem (frame w)
      rw [withTable, update_of_ne (user_ne_dir hnd hv hw), update_of_ne hwt]
    · change tableAt (withTable m.mem d (pdx va) t) d i' = _
      rw [tableAt_withTable ht hi, update_of_ne hi']
    · rintro t' j ⟨⟩
      refine ⟨rfl, ?_⟩
      change tableAt (withTable m.mem d (pdx va) t) d (pdx va) = some t
      rw [tableAt_withTable ht hi, update_self]

/-! ### `mappages` -/

theorem Moves.setPte (hn : (dirPages m.mem d).Nodup) (ht : tableAt m.mem d i = some t) (hj : j < 1024) :
    Moves (dirPages m.mem d + userHeld (1024 * i + j) (presentEntry w))
      (dirPages (update m.mem t ((m.mem t).putU32 (4 * j) w)) d + userHeld (1024 * i + j) (pteAt m.mem d (1024 * i + j))) m
      { m with mem := update m.mem t ((m.mem t).putU32 (4 * j) w) } := by
  refine ⟨?_, fun x hx => update_of_ne ?_ .., rfl, List.suffix_rfl⟩
  · exact congrArg _ (dirPages_change (tableAt_setPte (.of_nodup hn) ht) (pteAt_setPte (.of_nodup hn) ht hj))
  · rintro rfl
    exact hx (Multiset.mem_add.2 (.inr (Multiset.mem_add.2 (.inl (table_mem ht)))))

/-- Page `v` has the entry `w`; a page table may have been added for it. -/
structure Entered (d v : Nat) (w : BitVec 32) (mem mem' : Nat → Page) : Prop where
  tables : ∀ i t, tableAt mem d i = some t → tableAt mem' d i = some t
  others : ∀ i, i ≠ v / 1024 → tableAt mem' d i = tableAt mem d i
  table : tableAt mem' d (v / 1024) ≠ none
  ptes : pteAt mem' d = update (pteAt mem d) v (some w)

/-- Page `v` has been mapped by the entry `w`. -/
structure Mapped (d v : Nat) (w : BitVec 32) (m m' : Machine) : Prop extends Entered d v w m.mem m'.mem where
  moves : Moves (dirPages m.mem d + userHeld v (some w)) (dirPages m'.mem d) m m'
  data : SameData d m.mem m'.mem
  page : v < userPages → m'.mem (frame w) = m.mem (frame w)

theorem pdx_page (hv : v < 2 ^ 20) : pdx (PGSIZE * v) = v / 1024 := by
  simp only [pdx, PGSIZE]
  omega

theorem ptx_page (v : Nat) : ptx (PGSIZE * v) = v % 1024 := by
  simp only [ptx, PGSIZE]
  omega

theorem mapLoop_succ {perm : BitVec 32} {cnt pa : Nat} {Q : Bool → Machine → Prop} (hv : v < 2 ^ 20)
    (hnone : pteAt m.mem d v = none)
    (hg : Good L (dirPages m.mem d + userHeld v (some (BitVec.ofNat 32 pa ||| perm ||| PTE_P))) m)
    (hfail : ∀ m', Walked d m m' → NoTable d (v / 1024) m m' → Q false m')
    (hnext : ∀ m', Mapped d v (BitVec.ofNat 32 pa ||| perm ||| PTE_P) m m' →
      wp (mapLoop d perm cnt (PGSIZE * (v + 1)) (pa + PGSIZE)) Q E m') : wp (mapLoop d perm (cnt + 1) (PGSIZE * v) pa) Q E m := by
  rw [mapLoop]
  refine wp.bind (walkpgdir_alloc hg.left) ?_
  rintro (_ | ⟨t, j⟩) m₁ ⟨hw, hother, hstarved, hsome⟩
  · exact hfail m₁ hw (pdx_page hv ▸ hstarved rfl)
  obtain ⟨rfl, ht⟩ := hsome t j rfl
  rw [pdx_page hv] at hother ht
  rw [ptx_page v] at *
  dsimp only
  have hg₁ := (hw.moves.add _).good hg
  have hn₁ := hg₁.left.nodup_hand
  have hj : v % 1024 < 1024 := Nat.mod_lt _ (by decide)
  have hvv : 1024 * (v / 1024) + v % 1024 = v := Nat.div_add_mod v 1024
  have hp : has (BitVec.ofNat 32 pa ||| perm ||| PTE_P) PTE_P := by
    rw [has_or]
    exact .inr (by decide)
  have hpe : presentEntry (BitVec.ofNat 32 pa ||| perm ||| PTE_P) = some (BitVec.ofNat 32 pa ||| perm ||| PTE_P) := if_pos hp
  have hnone₁ : pteAt m₁.mem d v = none := by rw [hw.ptes, hnone]
  refine wp_bind.2 (wp_get.2 (wp_bind.2 (wp_failIf.2 ⟨fun h => ?_, fun _ => wp_bind.2 (wp_setEntry.2 ?_)⟩)))
  · -- there is no entry yet
    rw [pteAt_of_table ht, presentEntry, if_pos h] at hnone₁
    cases hnone₁
  · have hmv := Moves.setPte (w := BitVec.ofNat 32 pa ||| perm ||| PTE_P) hn₁ ht hj
    rw [hvv, hpe, hnone₁] at hmv
    have htab := tableAt_setPte (j := v % 1024) (w := BitVec.ofNat 32 pa ||| perm ||| PTE_P) (.of_nodup hn₁) ht
    have hpte := pteAt_setPte (w := BitVec.ofNat 32 pa ||| perm ||| PTE_P) (.of_nodup hn₁) ht hj
    rw [hvv, hpe, hw.ptes] at hpte
    refine hnext _ ⟨⟨fun i t h => ?_, fun i hi => ?_, ?_, hpte⟩, ?_, fun k w' hk hw' _ => ?_, fun hu => ?_⟩
    · rw [← hw.tables i t h]
      exact congrFun htab i
    · rw [← hother i hi]
      exact congrFun htab i
    · rw [congrFun htab, ht]
      simp
    · have huh : userHeld v none = 0 := by
        unfold userHeld
        split <;> rfl
      rw [huh, add_zero] at hmv
      exact (hw.moves.add _).trans hmv
    · have hw₁ : pteAt m₁.mem d k = some w' := by rw [hw.ptes, hw']
      refine (update_of_ne (user_ne_table hn₁ hk hw₁ ht) ..).trans ?_
      exact hw.data k w' hk hw' hw₁
    · -- the page in hand is no part of the directory
      rw [userHeld, if_pos hu, Option.map_some, held_some] at hg hg₁
      have hnot : ∀ {m : Machine}, Good L (dirPages m.mem d + {frame (BitVec.ofNat 32 pa ||| perm ||| PTE_P)}) m →
          frame (BitVec.ofNat 32 pa ||| perm ||| PTE_P) ∉ (m.freelist : Multiset Nat) + dirPages m.mem d := fun hg => by
        have hnd := hg.nodup
        rw [← add_assoc, Multiset.nodup_add] at hnd
        exact fun hm => Multiset.disjoint_left.1 hnd.2.2 hm (Multiset.mem_singleton_self _)
      have hne : frame (BitVec.ofNat 32 pa ||| perm ||| PTE_P) ≠ t := fun h =>
        hnot hg₁ (Multiset.mem_add.2 (.inr (h ▸ table_mem ht)))
      exact (update_of_ne hne ..).trans (hw.moves.outside _ (hnot hg))

theorem userHeld_mk {perm : BitVec 32} (hv : v < userPages) (hx : x < 2 ^ 20) (hp : perm &&& ~~~0xFFF = 0) :
    userHeld v (some (BitVec.ofNat 32 (PGSIZE * x) ||| perm ||| PTE_P)) = {x} := by
  have hlow : (perm ||| PTE_P) &&& ~~~0xFFF = 0 := by
    have h : (perm ||| PTE_P) &&& ~~~0xFFF = perm &&& ~~~0xFFF ||| PTE_P &&& ~~~0xFFF := BitVec.and_or_distrib_right
    rw [h, hp]
    decide
  rw [userHeld, if_pos hv, Option.map_some, BitVec.or_assoc, frame_mk hx hlow, held_some]

theorem userPages_lt : userPages < 2 ^ 20 := by decide

theorem mappages_user {perm : BitVec 32} (hv : v < userPages) (hnone : pteAt m.mem d v = none) (hp : perm &&& ~~~0xFFF = 0)
    (hg : Good L (dirPages m.mem d + {x}) m) :
    wp (mappages d (PGSIZE * v) PGSIZE (PGSIZE * x) perm) (fun r m' =>
      r = true ∧ Mapped d v (BitVec.ofNat 32 (PGSIZE * x) ||| perm ||| PTE_P) m m' ∧
        userHeld v (some (BitVec.ofNat 32 (PGSIZE * x) ||| perm ||| PTE_P)) = {x} ∨
        r = false ∧ Walked d m m' ∧ NoTable d (v / 1024) m m') E m := by
  have hx : x < 2 ^ 20 := hg.lt (by simp)
  have hheld := userHeld_mk (v := v) hv hx hp
  have h1 : pgRoundDown (PGSIZE * v) = PGSIZE * v := by
    simp only [pgRoundDown, PGSIZE]
    omega
  have h2 : (pgRoundDown (PGSIZE * v + PGSIZE - 1) - PGSIZE * v) / PGSIZE + 1 = 0 + 1 := by
    simp only [pgRoundDown, PGSIZE]
    omega
  have := userPages_lt
  rw [mappages, h1, h2]
  refine mapLoop_succ (by omega) hnone (by rwa [hheld]) (fun m' hw hno => .inr ⟨rfl, hw, hno⟩) fun m' hm => ?_
  rw [mapLoop]
  exact .inl ⟨rfl, hm, hheld⟩

/-- The kernel pages `lo ≤ v < hi` have been mapped, without access for user code. -/
structure KernelMapped (d lo hi : Nat) (m m' : Machine) : Prop where
  moves : Moves (dirPages m.mem d) (dirPages m'.mem d) m m'
  tables : ∀ i t, tableAt m.mem d i = some t → tableAt m'.mem d i = some t
  others : ∀ i, tableAt m'.mem d i ≠ none → tableAt m.mem d i ≠ none ∨ ∃ v, lo ≤ v ∧ v < hi ∧ i = v / 1024
  table : ∀ v, lo ≤ v → v < hi → tableAt m'.mem d (v / 1024) ≠ none
  noUser : ∀ v w, lo ≤ v → v < hi → pteAt m'.mem d v = some w → ¬ has w PTE_U
  same : ∀ v, v < lo ∨ hi ≤ v → pteAt m'.mem d v = pteAt m.mem d v

theorem KernelMapped.refl (d lo : Nat) (m : Machine) : KernelMapped d lo lo m m :=
  ⟨.refl _ _, fun _ _ => id, fun _ h => .inl h, fun v h h' => by omega, fun v w h h' => by omega, fun _ _ => rfl⟩

theorem KernelMapped.trans {lo mid hi : Nat} (h : KernelMapped d lo mid m m') (h' : KernelMapped d mid hi m' m'') (h1 : lo ≤ mid)
    (h2 : mid ≤ hi) : KernelMapped d lo hi m m'' := by
  refine ⟨h.moves.trans h'.moves, fun i t ht => h'.tables i t (h.tables i t ht), fun i ht => ?_,
    fun k hk hk' => ?_, fun k w hk hk' hw => ?_,
    fun k hk => ?_⟩
  · rcases h'.others i ht with hi | ⟨k, hk, hk', rfl⟩
    · rcases h.others i hi with hi | ⟨k, hk, hk', rfl⟩
      · exact .inl hi
      · exact .inr ⟨k, hk, by omega, rfl⟩
    · exact .inr ⟨k, by omega, hk', rfl⟩
  · by_cases hm : k < mid
    · obtain ⟨t, ht⟩ := Option.ne_none_iff_exists'.1 (h.table k hk hm)
      rw [h'.tables _ t ht]
      simp
    · exact h'.table k (by omega) hk'
  · by_cases hm : k < mid
    · rw [h'.same k (.inl hm)] at hw
      exact h.noUser k w hk hm hw
    · exact h'.noUser k w (by omega) hk' hw
  · rw [h'.same k (by omega), h.same k (by omega)]

theorem Mapped.kernel (h : Mapped d v w m m') (hz : userHeld v (some w) = 0) (hw : ¬ has w PTE_U) :
    KernelMapped d v (v + 1) m m' := by
  have hmv := h.moves
  rw [hz, add_zero] at hmv
  have hself : pteAt m'.mem d v = some w := by rw [h.ptes, update_self]
  refine ⟨hmv, h.tables, fun i ht => ?_, fun k hk hk' => ?_, fun k x hk hk' hx => ?_, fun k hk => ?_⟩
  · by_cases hi : i = v / 1024
    · exact .inr ⟨v, Nat.le_refl v, Nat.lt_succ_self v, hi⟩
    · rw [h.others i hi] at ht
      exact .inl ht
  · obtain rfl : k = v := by omega
    exact h.table
  · obtain rfl : k = v := by omega
    obtain rfl : w = x := Option.some.inj (hself.symm.trans hx)
    exact hw
  · rw [h.ptes, update_of_ne (by omega)]

/-- The slots of the directory whose tables `kmap` needs. -/
def KernelSlot (i : Nat) : Prop := 512 ≤ i ∧ i < 568 ∨ 1016 ≤ i ∧ i < 1024

instance : DecidablePred KernelSlot := fun _ => inferInstanceAs (Decidable (_ ∨ _))

/-- Kernel pages were to be mapped, and a page for one of their tables was not to be had. -/
structure Stuck (d : Nat) (m m' : Machine) : Prop where
  moves : Moves (dirPages m.mem d) (dirPages m'.mem d) m m'
  users : ∀ k, k < userPages → pteAt m'.mem d k = pteAt m.mem d k
  others : ∀ i, tableAt m'.mem d i ≠ none → tableAt m.mem d i ≠ none ∨ KernelSlot i
  lacks : ∃ i, KernelSlot i ∧ tableAt m'.mem d i = none
  starved : Granted m m' → m'.freelist = []

theorem Walked.stuck (h : Walked d m m') (hno : NoTable d i m m') (hi : KernelSlot i) : Stuck d m m' := by
  refine ⟨h.moves, fun k _ => by rw [h.ptes], fun j hj => .inl ?_, ⟨i, hi, ?_⟩, hno.starved⟩
  · rwa [hno.mem] at hj
  · rw [hno.mem, hno.table]

theorem KernelMapped.stuck {lo hi : Nat} (h : KernelMapped d lo hi m m') (hu : userPages ≤ lo)
    (hslot : ∀ k, lo ≤ k → k < hi → KernelSlot (k / 1024)) (h' : Stuck d m' m'') : Stuck d m m'' := by
  refine ⟨h.moves.trans h'.moves, fun k hk => ?_, fun i hi' => ?_, h'.lacks, fun hg => h'.starved (h.moves.granted h'.moves hg).2⟩
  · rw [h'.users k hk, h.same k (.inl (by omega))]
  · rcases h'.others i hi' with hi' | hi'
    · rcases h.others i hi' with hi' | ⟨k, hk, hk', rfl⟩
      · exact .inl hi'
      · exact .inr (hslot k hk hk')
    · exact .inr hi'

theorem mapLoop_kernel {perm : BitVec 32} (hp : ¬ has perm PTE_U) : ∀ (cnt : Nat) {v x : Nat}
    {m : Machine}, userPages ≤ v → v + cnt ≤ 2 ^ 20 →
    (∀ k, v ≤ k → k < v + cnt → KernelSlot (k / 1024)) →
    (∀ k, v ≤ k → k < v + cnt → pteAt m.mem d k = none) → Good L (dirPages m.mem d) m →
    wp (mapLoop d perm cnt (PGSIZE * v) (PGSIZE * x)) (fun r m' => r = true ∧ KernelMapped d v (v + cnt) m m' ∨
      r = false ∧ Stuck d m m') E m
  | 0, v, x, m, _, _, _, _, _ => .inl ⟨rfl, .refl d v m⟩
  | cnt + 1, v, x, m, hu, hlt, hslot, hnone, hg => by
    have hz : ∀ o, userHeld v o = 0 := fun o => if_neg (by omega)
    have hw : ¬ has (BitVec.ofNat 32 (PGSIZE * x) ||| perm ||| PTE_P) PTE_U := by
      rw [has_or, has_or]
      rintro ((h | h) | h)
      · exact not_has_phys x (by decide) h
      · exact hp h
      · exact absurd h (by decide)
    refine mapLoop_succ (by omega) (hnone v (Nat.le_refl v) (by omega)) (by rwa [hz, add_zero]) ?_ ?_
    · exact fun m' hwk hno => .inr ⟨rfl, hwk.stuck hno (hslot v (Nat.le_refl v) (by omega))⟩
    · intro m₁ h₁
      have hmv := h₁.moves
      rw [hz, add_zero] at hmv
      have hg₁ := hmv.good hg
      have hnone₁ : ∀ k, v + 1 ≤ k → k < v + 1 + cnt → pteAt m₁.mem d k = none := fun k hk hk' => by
        rw [h₁.ptes, update_of_ne (by omega)]
        exact hnone k (by omega) (by omega)
      have hone : KernelMapped d v (v + 1) m m₁ := h₁.kernel (hz _) hw
      refine wp.post (mapLoop_kernel hp cnt (v := v + 1) (x := x + 1) (by omega) (by omega)
        (fun k hk hk' => hslot k (by omega) (by omega)) hnone₁ hg₁) ?_
      rintro r m' (⟨rfl, h'⟩ | ⟨rfl, h'⟩)
      · rw [show v + (cnt + 1) = v + 1 + cnt by omega]
        exact .inl ⟨rfl, hone.trans h' (by omega) (by omega)⟩
      · exact .inr ⟨rfl, hone.stuck hu (fun k hk hk' => hslot k hk (by omega)) h'⟩

/-! ### `deallocuvm` and `freevm` -/

/-- The user pages `lo ≤ v < hi` have been given back. -/
structure Unmapped (d lo hi : Nat) (m m' : Machine) : Prop where
  moves : Moves (dirPages m.mem d) (dirPages m'.mem d) m m'
  tables : tableAt m'.mem d = tableAt m.mem d
  gone : ∀ v, lo ≤ v → v < hi → pteAt m'.mem d v = none
  same : ∀ v, v < lo ∨ hi ≤ v → pteAt m'.mem d v = pteAt m.mem d v
  data : SameData d m.mem m'.mem

theorem freePte_spec (hg : Good L (dirPages m.mem d) m) (ht : tableAt m.mem d (v / 1024) = some t) (hv : v < userPages)
    (hw : pteAt m.mem d v = some w) :
    wp (do kfree L (frame w); setEntry t (v % 1024) 0) (fun _ m' => Unmapped d v (v + 1) m m') E m := by
  have hmem := user_mem hv hw
  have hn := hg.nodup_hand
  have hrange := hg.range (frame w) (Multiset.mem_add.2 (.inr hmem))
  have hne : t ≠ frame w := (user_ne_table hn hv hw ht).symm
  have hvv : 1024 * (v / 1024) + v % 1024 = v := Nat.div_add_mod v 1024
  have hj : v % 1024 < 1024 := Nat.mod_lt _ (by decide)
  refine wp.bind (kfree_spec hrange) ?_
  rintro _ m₁ ⟨hk, hm₁⟩
  -- the freed page is neither the directory nor a page table
  have ht₁ : tableAt m₁.mem d = tableAt m.mem d := by
    refine tableAt_congr ?_
    rw [hm₁, update_of_ne (user_ne_dir hn hv hw).symm]
  have hp₁ : pteAt m₁.mem d = pteAt m.mem d := by
    refine pteAt_congr ?_ fun i t' h' => ?_
    · rw [hm₁, update_of_ne (user_ne_dir hn hv hw).symm]
    · rw [hm₁, update_of_ne (user_ne_table hn hv hw h').symm]
  have hd₁ : dirPages m₁.mem d = dirPages m.mem d := by
    rw [dirPages, dirPages, Vm.tables, Vm.tables, users, users, ht₁, hp₁]
  have hn₁ : (dirPages m₁.mem d).Nodup := by rwa [hd₁]
  rw [← ht₁] at ht
  have htab := tableAt_setPte (j := v % 1024) (w := 0) (.of_nodup hn₁) ht
  have hpte := pteAt_setPte (w := 0) (.of_nodup hn₁) ht hj
  have hchange := dirPages_change htab hpte
  rw [hvv] at hpte hchange
  rw [hp₁, hw, hd₁, userHeld, if_pos hv, Option.map_some, held_some] at hchange
  have hnil : userHeld v (presentEntry 0) = 0 := by rw [userHeld, if_pos hv]; rfl
  rw [hnil, add_zero] at hchange
  refine wp_setEntry.2 ⟨⟨?_, fun x hx => ?_, ?_, hk.fails⟩, htab.trans ht₁, fun k hk hk' => ?_,
    fun k hk => ?_, fun k w' hk hw' hw'' => ?_⟩
  · have hb := hk.bal
    rw [add_zero] at hb
    rw [hb, add_assoc, add_comm {frame w}, hchange]
  · have hxw : x ≠ frame w := fun h => hx (Multiset.mem_add.2 (.inr (h ▸ hmem)))
    have hxt : x ≠ t := fun h => hx (Multiset.mem_add.2 (.inr (h ▸ hd₁ ▸ table_mem ht)))
    change update m₁.mem t _ x = _
    rw [update_of_ne hxt, hm₁, update_of_ne hxw]
  · rw [hk.rest]
  · obtain rfl : k = v := by omega
    rw [hpte, update_self]
    rfl
  · rw [hpte, update_of_ne (by omega), hp₁]
  · have hkv : k ≠ v := by
      rintro rfl
      rw [hpte, update_self] at hw''
      cases hw''
    have hne : frame w' ≠ frame w := fun he => hkv (user_inj hn hk hv hw' hw he)
    have hw₁ : pteAt m₁.mem d k = some w' := by rw [hp₁, hw']
    refine (update_of_ne (user_ne_table hn₁ hk hw₁ ht) ..).trans ?_
    rw [hm₁, update_of_ne hne]

theorem Unmapped.trans {lo mid hi : Nat} (h : Unmapped d lo mid m m') (h' : Unmapped d mid hi m' m'')
    (h1 : lo ≤ mid) (h2 : mid ≤ hi) :
    Unmapped d lo hi m m'' := by
  refine ⟨h.moves.trans h'.moves, h'.tables.trans h.tables, fun v hv hv' => ?_, fun v hv => ?_, fun v w hv hw hw'' => ?_⟩
  · by_cases hm : v < mid
    · rw [h'.same v (.inl hm)]
      exact h.gone v hv hm
    · exact h'.gone v (by omega) hv'
  · rw [h'.same v (by omega), h.same v (by omega)]
  · have hw' : pteAt m'.mem d v = some w := by
      by_cases hm : mid ≤ v ∧ v < hi
      · rw [h'.gone v hm.1 hm.2] at hw''
        cases hw''
      · rw [← h'.same v (by omega), hw'']
    rw [h'.data v w hv hw' hw'', h.data v w hv hw hw']

theorem Unmapped.of_none {lo hi : Nat} (h : ∀ v, lo ≤ v → v < hi → pteAt m.mem d v = none) : Unmapped d lo hi m m :=
  ⟨.refl _ _, rfl, h, fun _ _ => rfl, .refl _ _⟩

/-- The number of pages that `sz` bytes take. -/
def npages (sz : Nat) : Nat := (sz + PGSIZE - 1) / PGSIZE

theorem lt_npages {sz : Nat} : v < npages sz ↔ PGSIZE * v < sz := by
  simp only [npages, PGSIZE]
  omega

theorem deallocLoop_spec {oldsz : Nat} (hle : oldsz ≤ KERNBASE) (v : Nat) {m : Machine} (hg : Good L (dirPages m.mem d) m) :
    wp (deallocLoop L d oldsz (PGSIZE * v)) (fun _ m' => Unmapped d v (npages oldsz) m m') E m := by
  rw [deallocLoop]
  by_cases hlt : PGSIZE * v < oldsz
  · rw [dif_pos hlt]
    have hvn := lt_npages.2 hlt
    have hv : v < userPages := by
      simp only [userPages, KERNBASE, PGSIZE] at *
      omega
    have hv20 := userPages_lt
    refine wp.bind (walkpgdir_read d (PGSIZE * v)) ?_
    rintro r m₁ ⟨rfl, rfl⟩
    rw [pdx_page (by omega), ptx_page]
    cases ht : tableAt m₁.mem d (v / 1024) with
    | none =>
      -- on to the next page table
      have hnext : (PGSIZE * v / 2 ^ 22 + 1) * 2 ^ 22 = PGSIZE * (1024 * (v / 1024 + 1)) := by
        simp only [PGSIZE]
        omega
      have hnone : ∀ k, v ≤ k → k < 1024 * (v / 1024 + 1) → pteAt m₁.mem d k = none := fun k hk hk' => by
        have : k / 1024 = v / 1024 := by omega
        rw [pteAt, this, ht]
        rfl
      simp only [Option.map_none]
      rw [hnext]
      refine wp.post (deallocLoop_spec hle (1024 * (v / 1024 + 1)) hg) fun _ m' h' => ?_
      refine ⟨h'.moves, h'.tables, fun k hk hk' => ?_, fun k hk => h'.same k (by omega), h'.data⟩
      by_cases hm : k < 1024 * (v / 1024 + 1)
      · rw [h'.same k (.inl hm)]
        exact hnone k hk hm
      · exact h'.gone k (by omega) hk'
    | some t =>
      simp only [Option.map_some]
      refine wp_bind.2 (wp_get.2 ?_)
      have hstep : PGSIZE * v + PGSIZE = PGSIZE * (v + 1) := by rw [Nat.mul_add, Nat.mul_one]
      rw [hstep]
      by_cases hp : has (entry (m₁.mem t) (v % 1024)) PTE_P
      · have hw : pteAt m₁.mem d v = some (entry (m₁.mem t) (v % 1024)) := by
          rw [pteAt_of_table ht, presentEntry, if_pos hp]
        rw [if_pos hp]
        refine wp_bind.2 (wp_failIf.2 ⟨fun hz => ?_, fun _ => ?_⟩)
        · have hr := hg.range _ (Multiset.mem_add.2 (.inr (user_mem hv hw)))
          have := L.text
          have := L.lt_end
          rw [frame, hz] at hr
          simp only [EXTMEM] at *
          exact absurd hr.1 (by simp; omega)
        · have hfree := freePte_spec (E := E) hg ht hv hw
          rw [wp_bind] at hfree
          refine wp_bind.2 (hfree.post fun _ m₂ h₂ => wp_bind.2 (h₂.post fun _ m₃ h₃ => ?_))
          refine wp.post (deallocLoop_spec hle (v + 1) (h₃.moves.good hg)) fun _ m' h' => ?_
          exact h₃.trans h' (Nat.le_succ v) hvn
      · rw [if_neg hp]
        have hnone : ∀ k, v ≤ k → k < v + 1 → pteAt m₁.mem d k = none := fun k hk hk' => by
          obtain rfl : k = v := by omega
          rw [pteAt_of_table ht, presentEntry, if_neg hp]
        refine wp.post (deallocLoop_spec hle (v + 1) hg) fun _ m' h' => ?_
        exact (Unmapped.of_none hnone).trans h' (Nat.le_succ v) hvn
  · rw [dif_neg hlt]
    have : npages oldsz ≤ v := Nat.not_lt.1 fun h => hlt (lt_npages.1 h)
    exact .of_none fun k hk hk' => by omega
termination_by oldsz - PGSIZE * v
decreasing_by
  all_goals
    simp only [PGSIZE] at *
    omega

theorem pgRoundUp_eq (sz : Nat) : pgRoundUp sz = PGSIZE * npages sz := by
  rw [pgRoundUp, npages, Nat.mul_comm]

theorem deallocuvm_spec {oldsz newsz : Nat} (hle : oldsz ≤ KERNBASE) (hg : Good L (dirPages m.mem d) m) :
    wp (deallocuvm L d oldsz newsz) (fun r m' => r = min oldsz newsz ∧ Unmapped d (npages newsz) (npages oldsz) m m') E m := by
  rw [deallocuvm]
  split
  · next h =>
    have : npages oldsz ≤ npages newsz := by
      simp only [npages, PGSIZE]
      omega
    exact ⟨(Nat.min_eq_left h).symm, .of_none fun k hk hk' => by omega⟩
  · next h =>
    rw [pgRoundUp_eq]
    refine wp.bind (deallocLoop_spec hle (npages newsz) hg) fun _ m' h' => ?_
    exact ⟨by omega, h'⟩

theorem freeTables_spec {T : Nat → Option Nat} : ∀ (cnt i : Nat) {m : Machine}, tableAt m.mem d = T →
    Good L ({d} + gather cnt fun k => T (i + k)) m →
    wp (forRange (fun i _ => freeTable L d i) i cnt ()) (fun _ m' => Moves ({d} + gather cnt fun k => T (i + k)) {d} m m') E m
  | 0, i, m, _, _ => by
    rw [gather_eq_zero fun k hk => absurd hk (Nat.not_lt_zero k), add_zero]
    exact .refl _ _
  | cnt + 1, i, m, hT, hg => by
    have hsplit : (gather (cnt + 1) fun k => T (i + k)) = held (T i) + gather cnt fun k => T (i + 1 + k) := by
      rw [gather_succ]
      simp only [Nat.add_zero, Nat.add_assoc, Nat.add_comm 1]
    rw [hsplit] at hg ⊢
    have hstep : wp (freeTable L d i) (fun _ m₁ => Moves (held (T i)) 0 m m₁ ∧ tableAt m₁.mem d = T) E m := by
      rw [freeTable]
      refine wp_bind.2 (wp_get.2 ?_)
      have hTi : T i = (presentEntry (entry (m.mem d) i)).map frame := by rw [← hT]; rfl
      by_cases hp : has (entry (m.mem d) i) PTE_P
      · rw [presentEntry, if_pos hp, Option.map_some] at hTi
        rw [if_pos hp]
        rw [hTi, held_some] at hg ⊢
        have hmem : frame (entry (m.mem d) i) ∈
          ({d} : Multiset Nat) + ({frame (entry (m.mem d) i)} + gather cnt fun k => T (i + 1 + k)) := by simp
        have hne : d ≠ frame (entry (m.mem d) i) := fun h => by
          have hn := hg.nodup_hand
          rw [← h, Multiset.singleton_add, Multiset.nodup_cons] at hn
          exact hn.1 (by simp)
        refine wp.post (kfree_spec (hg.range _ (Multiset.mem_add.2 (.inr hmem)))) ?_
        rintro _ m₁ ⟨hk, hm₁⟩
        refine ⟨hk, ?_⟩
        rw [← hT]
        exact tableAt_congr (by rw [hm₁, update_of_ne hne])
      · rw [presentEntry, if_neg hp, Option.map_none] at hTi
        rw [if_neg hp, hTi]
        exact ⟨.refl _ _, hT⟩
    rw [forRange]
    refine wp.bind hstep ?_
    rintro _ m₁ ⟨hk, hT₁⟩
    have hk₁ := hk.add ({d} + gather cnt fun k => T (i + 1 + k))
    rw [zero_add, add_left_comm] at hk₁
    refine wp.post (freeTables_spec cnt (i + 1) hT₁ (hk₁.good hg)) fun _ m' h' => ?_
    exact hk₁.trans h'

theorem freevm_spec (hg : Good L (dirPages m.mem d) m) : wp (freevm L d) (fun _ m' => Moves (dirPages m.mem d) 0 m m') E m := by
  rw [freevm]
  refine wp.bind (deallocuvm_spec (Nat.le_refl KERNBASE) hg) ?_
  rintro _ m₁ ⟨-, h₁⟩
  have hg₁ := h₁.moves.good hg
  have hu : users m₁.mem d = 0 := gather_eq_zero fun v hv => by
    rw [h₁.gone v (by simp [npages, PGSIZE]) hv]
    rfl
  have hd₁ : dirPages m₁.mem d = {d} + gather NPDENTRIES fun k => tableAt m₁.mem d (0 + k) := by
    rw [dirPages, hu, add_zero, Vm.tables]
    simp only [Nat.zero_add]
  rw [hd₁] at hg₁
  refine wp.bind (freeTables_spec NPDENTRIES 0 rfl hg₁) ?_
  rintro _ m₂ h₂
  rw [← hd₁] at h₂
  have hg₂ := (h₁.moves.trans h₂).good hg
  refine wp.post (kfree_spec (hg₂.range d (by simp))) ?_
  rintro _ m₃ ⟨h₃, -⟩
  exact (h₁.moves.trans h₂).trans h₃

end Xv6.Vm
