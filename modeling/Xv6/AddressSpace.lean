import Xv6.PageTables

/-!
# Building, growing and copying address spaces

`setupkvm`, `allocuvm`, `copyuvm` and what `exec` does with a directory that is not in use yet. Each either succeeds or has
given back what it took; it fails only if `kalloc` does.
-/

namespace Xv6.Vm

open Prog Function

variable {L : Link} {mem mem' : Nat → Page} {d t i j v x : Nat} {w f : BitVec 32} {u u' u'' hand : Multiset Nat}
variable {m m' m'' : Machine} {E : Fault → Prop}

theorem dir_same (h : ∀ x ∈ dirPages mem d, mem' x = mem x) :
    tableAt mem' d = tableAt mem d ∧ pteAt mem' d = pteAt mem d ∧ dirPages mem' d = dirPages mem d :=
  ⟨tableAt_congr (h d dir_mem), pteAt_congr (h d dir_mem) fun _ _ ht => h _ (table_mem ht), dirPages_congr h⟩

theorem pteAt_table (h : pteAt mem d v = some w) : tableAt mem d (v / 1024) ≠ none := by
  intro hn
  rw [pteAt, hn] at h
  cases h

/-! ### `setupkvm` -/

structure KernelSide (mem : Nat → Page) (d : Nat) : Prop where
  noUser : ∀ v w, userPages ≤ v → pteAt mem d v = some w → ¬ has w PTE_U
  dev : ∀ i, 1016 ≤ i → i < 1024 → tableAt mem d i ≠ none

structure NewDir (mem : Nat → Page) (d : Nat) : Prop where
  kernel : KernelSide mem d
  empty : ∀ v, v < userPages → pteAt mem d v = none
  gap : ∀ i, tableAt mem d i ≠ none → KernelSlot i

theorem mappages_kernel {perm : BitVec 32} {cnt : Nat} (hp : ¬ has perm PTE_U) (hc : 0 < cnt)
    (hu : userPages ≤ v) (hlt : v + cnt ≤ 2 ^ 20)
    (hslot : ∀ k, v ≤ k → k < v + cnt → KernelSlot (k / 1024)) (hnone : ∀ k, v ≤ k → k < v + cnt →
      pteAt m.mem d k = none) (hg : Good L (dirPages m.mem d) m) :
    wp (mappages d (PGSIZE * v) (PGSIZE * cnt) (PGSIZE * x) perm) (fun r m' => r = true ∧ KernelMapped d v (v + cnt) m m' ∨
      r = false ∧ Stuck d m m') E m := by
  have h1 : pgRoundDown (PGSIZE * v) = PGSIZE * v := by
    simp only [pgRoundDown, PGSIZE]
    omega
  have h2 : (pgRoundDown (PGSIZE * v + PGSIZE * cnt - 1) - PGSIZE * v) / PGSIZE + 1 = cnt := by
    simp only [pgRoundDown, PGSIZE]
    omega
  rw [mappages, h1, h2]
  exact mapLoop_kernel hp cnt hu hlt hslot hnone hg

theorem mapAll_cons {perm : BitVec 32} {cnt : Nat} {ks : List Kmap} {Q : Machine → Prop}
    (hp : ¬ has perm PTE_U) (hc : 0 < cnt) (hu : userPages ≤ v)
    (hlt : v + cnt ≤ 2 ^ 20) (hslot : ∀ k, v ≤ k → k < v + cnt → KernelSlot (k / 1024))
    (hnone : ∀ k, v ≤ k → k < v + cnt → pteAt m.mem d k = none) (hg : Good L (dirPages m.mem d) m)
    (hrest : ∀ m₁, KernelMapped d v (v + cnt) m m₁ → wp (mapAll d ks) (fun r m' => r = true ∧ Q m' ∨
      r = false ∧ Stuck d m₁ m') E m₁) :
    wp (mapAll d (⟨PGSIZE * v, PGSIZE * x, PGSIZE * cnt, perm⟩ :: ks)) (fun r m' => r = true ∧ Q m' ∨
      r = false ∧ Stuck d m m') E m := by
  rw [mapAll]
  refine wp.bind (mappages_kernel hp hc hu hlt hslot hnone hg) ?_
  rintro r m₁ (⟨rfl, h₁⟩ | ⟨rfl, h₁⟩)
  · rw [if_pos rfl]
    refine wp.post (hrest m₁ h₁) ?_
    rintro r m' (⟨rfl, hQ⟩ | ⟨rfl, h'⟩)
    · exact .inl ⟨rfl, hQ⟩
    · exact .inr ⟨rfl, h₁.stuck hu hslot h'⟩
  · rw [if_neg (by decide)]
    exact .inr ⟨rfl, h₁⟩

theorem mapAll_kmap (hg : Good L (dirPages m.mem d) m) (hempty : ∀ v, pteAt m.mem d v = none) :
    wp (mapAll d (kmap L)) (fun r m' => r = true ∧ (∃ m₁, KernelMapped d 0x80000 0x8E000 m m₁ ∧
      KernelMapped d 0xFE000 0x100000 m₁ m') ∨
      r = false ∧ Stuck d m m') E m := by
  obtain ⟨D, hD⟩ : ∃ D, L.data = PGSIZE * D := ⟨L.data / PGSIZE, by have := L.aligned; simp only [PGSIZE] at *; omega⟩
  have h1 := L.text
  have h2 := L.lt_end
  have h3 := L.end_le
  rw [hD] at h1 h2
  simp only [EXTMEM, PHYSTOP, PGSIZE] at h1 h2 h3
  have hu : userPages = 0x80000 := by decide
  have hk : kmap L = [⟨PGSIZE * 0x80000, PGSIZE * 0, PGSIZE * 0x100, PTE_W⟩,
    ⟨PGSIZE * 0x80100, PGSIZE * 0x100, PGSIZE * (D - 0x100), 0⟩,
      ⟨PGSIZE * (0x80000 + D), PGSIZE * D, PGSIZE * (0xE000 - D), PTE_W⟩,
        ⟨PGSIZE * 0xFE000, PGSIZE * 0xFE000, PGSIZE * 0x2000, PTE_W⟩] := by
    have e2 : PGSIZE * D - EXTMEM = PGSIZE * (D - 0x100) := by simp only [PGSIZE, EXTMEM]; omega
    have e3 : KERNBASE + PGSIZE * D = PGSIZE * (0x80000 + D) := by simp only [PGSIZE, KERNBASE]; omega
    have e4 : PHYSTOP - PGSIZE * D = PGSIZE * (0xE000 - D) := by simp only [PGSIZE, PHYSTOP]; omega
    rw [kmap, hD, e2, e3, e4]
    rfl
  rw [hk]
  have hram (k : Nat) (h : 0x80000 ≤ k) (h' : k < 0x8E000) : KernelSlot (k / 1024) := .inl (by omega)
  refine mapAll_cons (by decide) (by decide) (by omega) (by decide) (fun k _ _ =>
    hram k (by omega) (by omega)) (fun k _ _ => hempty k) hg
    fun m₁ h₁ => ?_
  refine mapAll_cons (by decide) (by omega) (by omega) (by omega) (fun k _ _ => hram k (by omega) (by omega)) (fun k hk _ => ?_)
    (h₁.moves.good hg) fun m₂ h₂ => ?_
  · rw [h₁.same k (.inr (by omega)), hempty]
  have h₁₂ := h₁.trans h₂ (by omega) (by omega)
  refine mapAll_cons (by decide) (by omega) (by omega) (by omega) (fun k _ _ => hram k (by omega) (by omega)) (fun k hk _ => ?_)
    (h₁₂.moves.good hg) fun m₃ h₃ => ?_
  · rw [h₁₂.same k (.inr (by omega)), hempty]
  rw [show 0x80100 + (D - 0x100) = 0x80000 + D by omega] at h₁₂
  have h₁₃ := h₁₂.trans h₃ (by omega) (by omega)
  rw [show 0x80000 + D + (0xE000 - D) = 0x8E000 by omega] at h₁₃
  refine mapAll_cons (by decide) (by decide) (by omega) (by decide) (fun k _ _ => .inr (by omega)) (fun k hk _ => ?_)
    (h₁₃.moves.good hg) fun m₄ h₄ => ?_
  · rw [h₁₃.same k (.inr (by omega)), hempty]
  exact .inl ⟨rfl, m₃, h₁₃, h₄⟩

theorem Moves.card (h : Moves u u' m m') : m'.freelist.length + u'.card = m.freelist.length + u.card := by
  have := congrArg Multiset.card h.bal
  simpa only [Multiset.card_add, Multiset.coe_card] using this

theorem card_dirPages_le {S : Finset Nat} (ht : ∀ i, tableAt mem d i ≠ none → i ∈ S)
    (h : ∀ k, v ≤ k → k < userPages → pteAt mem d k = none) : (dirPages mem d).card ≤ 1 + S.card + v := by
  have ht : (tables mem d).card ≤ S.card := card_gather_le fun i _ hi => ht i hi
  have hu : (users mem d).card ≤ (Finset.range v).card := card_gather_le fun k hk hk' => by
    by_contra hv
    rw [h k (by simpa using hv) hk] at hk'
    exact hk' rfl
  rw [dirPages, Multiset.card_add, Multiset.card_add, Multiset.card_singleton]
  rw [Finset.card_range] at hu
  omega

theorem tableAt_zero (h : mem d = Block.zero PGSIZE) : tableAt mem d i = none := by
  rw [tableAt, h, entry_zero]
  rfl

theorem pteAt_zero (h : mem d = Block.zero PGSIZE) : pteAt mem d v = none := by
  rw [pteAt, tableAt_zero h]
  rfl

def kernelSlots : Finset Nat := (Finset.range 1024).filter KernelSlot

theorem mem_kernelSlots : i ∈ kernelSlots ↔ KernelSlot i := by
  rw [kernelSlots, Finset.mem_filter, Finset.mem_range, KernelSlot]
  omega

theorem card_kernelSlots : kernelSlots.card = 64 := by decide +kernel

/-- One of the 64 tables of the kernel part is missing when `setupkvm` gives up. -/
theorem Stuck.card_lt (h : Stuck d m m') (hzero : m.mem d = Block.zero PGSIZE) : (dirPages m'.mem d).card < 65 := by
  obtain ⟨i, hi, hnone⟩ := h.lacks
  have hi := mem_kernelSlots.2 hi
  have hcard : (dirPages m'.mem d).card ≤ 1 + (kernelSlots.erase i).card + 0 := by
    refine card_dirPages_le (fun j hj => ?_) fun k _ hk => ?_
    · refine Finset.mem_erase.2 ⟨fun he => hj (he ▸ hnone), mem_kernelSlots.2 ((h.others j hj).resolve_left ?_)⟩
      exact fun hne => hne (tableAt_zero hzero)
    · rw [h.users k hk, pteAt_zero hzero]
  rw [Finset.card_erase_of_mem hi, card_kernelSlots] at hcard
  omega

theorem dirPages_zero (h : mem d = Block.zero PGSIZE) : dirPages mem d = {d} := by
  have ht : Vm.tables mem d = 0 := gather_eq_zero fun _ _ => tableAt_zero h
  have hu : users mem d = 0 := gather_eq_zero fun v _ => by
    rw [pteAt_zero h]
    rfl
  rw [dirPages, ht, hu, add_zero, add_zero]

theorem Moves.setPage (x : Nat) (pg : Page) (m : Machine) : Moves {x} {x} m { m with mem := update m.mem x pg } := by
  refine ⟨rfl, fun y hy => update_of_ne ?_ .., rfl, List.suffix_rfl⟩
  rintro rfl
  exact hy (Multiset.mem_add.2 (.inr (Multiset.mem_singleton_self y)))

theorem setupkvm_spec (hg : Good L 0 m) :
    wp (setupkvm L) (fun r m' => match r with
      | none => Moves 0 0 m m' ∧ (Granted m m' → m.freelist.length < 65)
      | some d => Moves 0 (dirPages m'.mem d) m m' ∧ NewDir m'.mem d) E m := by
  rw [setupkvm]
  refine wp.bind kalloc_spec ?_
  rintro (_ | d) m₁ ⟨hk, -, hs⟩
  · refine ⟨hk, fun hgr => ?_⟩
    have hcard := hk.card
    rw [hs rfl hgr, held_none, Multiset.card_zero] at hcard
    simp only [List.length_nil] at hcard
    omega
  dsimp only
  refine wp_bind.2 (wp_setPage.2 (wp_bind.2 (wp_failIf.2 ⟨fun h => absurd h (by decide), fun _ => ?_⟩)))
  obtain ⟨m₂, hm₂⟩ : ∃ m₂, m₂ = ({ m₁ with mem := update m₁.mem d (Block.zero PGSIZE) } : Machine) := ⟨_, rfl⟩
  have hk₂ := hk.trans (Moves.setPage d (Block.zero PGSIZE) m₁)
  have hzero : m₂.mem d = Block.zero PGSIZE := by
    rw [hm₂]
    exact update_self ..
  rw [← hm₂] at hk₂ ⊢
  rw [← dirPages_zero hzero] at hk₂
  refine wp.bind (mapAll_kmap (hk₂.good hg) fun v => pteAt_zero hzero) ?_
  rintro r m₃ (⟨rfl, m', h', h₃⟩ | ⟨rfl, h₃⟩)
  · rw [if_pos rfl]
    refine ⟨(hk₂.trans h'.moves).trans h₃.moves, ⟨fun v w hv hw => ?_, fun i hi hi' => ?_⟩, fun v hv => ?_, fun i hi => ?_⟩
    · have hu : userPages = 0x80000 := by decide
      by_cases hdev : 0xFE000 ≤ v ∧ v < 0x100000
      · exact h₃.noUser v w hdev.1 hdev.2 hw
      · rw [h₃.same v (by omega)] at hw
        by_cases hmem : v < 0x8E000
        · exact h'.noUser v w (by omega) hmem hw
        · rw [h'.same v (by omega), pteAt_zero hzero] at hw
          cases hw
    · have := h₃.table (1024 * i) (by omega) (by omega)
      rwa [Nat.mul_div_cancel_left i (by decide)] at this
    · have hu : userPages = 0x80000 := by decide
      rw [h₃.same v (by omega), h'.same v (by omega), pteAt_zero hzero]
    · rcases h₃.others i hi with hi | ⟨v, hv, hv', rfl⟩
      · rcases h'.others i hi with hi | ⟨v, hv, hv', rfl⟩
        · exact absurd (tableAt_zero hzero) hi
        · exact .inl (by omega)
      · exact .inr (by omega)
  · rw [if_neg (by decide)]
    have hmv := hk₂.trans h₃.moves
    refine wp.bind (freevm_spec (hmv.good hg)) fun _ m₄ h₄ => ⟨hmv.trans h₄, fun hgr => ?_⟩
    have hcard := hmv.card
    have hlt := h₃.card_lt hzero
    rw [h₃.starved (hk₂.granted h₃.moves (hmv.granted h₄ hgr).1).2, List.length_nil, Multiset.card_zero] at hcard
    omega

/-! ### `allocuvm` -/

/-- The user pages `lo ≤ v < hi` are new. -/
structure Grown (d lo hi : Nat) (m m' : Machine) : Prop where
  moves : Moves (dirPages m.mem d) (dirPages m'.mem d) m m'
  tables : ∀ i t, tableAt m.mem d i = some t → tableAt m'.mem d i = some t
  others : ∀ i, tableAt m'.mem d i ≠ none → tableAt m.mem d i ≠ none ∨ ∃ v, lo ≤ v ∧ v < hi ∧ i = v / 1024
  ptes : ∀ v, lo ≤ v → v < hi → pteAt m'.mem d v ≠ none
  same : ∀ v, v < lo ∨ hi ≤ v → pteAt m'.mem d v = pteAt m.mem d v
  data : SameData d m.mem m'.mem

theorem Grown.refl (d lo : Nat) (m : Machine) : Grown d lo lo m m :=
  ⟨.refl _ _, fun _ _ => id, fun _ h => .inl h, fun v h h' => by omega, fun _ _ => rfl, .refl _ _⟩

/-- The user pages `lo ≤ v < hi` are zero. -/
def Zeroed (d lo hi : Nat) (mem : Nat → Page) : Prop :=
  ∀ v w, lo ≤ v → v < hi → pteAt mem d v = some w → mem (frame w) = Block.zero PGSIZE

/-- The user pages `lo ≤ v < hi` are gone; page tables may have been added. -/
structure Dropped (d lo hi : Nat) (m m' : Machine) : Prop where
  moves : Moves (dirPages m.mem d) (dirPages m'.mem d) m m'
  tables : ∀ i t, tableAt m.mem d i = some t → tableAt m'.mem d i = some t
  gone : ∀ v, lo ≤ v → v < hi → pteAt m'.mem d v = none
  same : ∀ v, v < lo ∨ hi ≤ v → pteAt m'.mem d v = pteAt m.mem d v
  data : SameData d m.mem m'.mem

theorem Entered.grown {hi : Nat} (h : Entered d v w m.mem m'.mem) (hmv : Moves (dirPages m.mem d) (dirPages m'.mem d) m m')
    (hd : SameData d m.mem m'.mem) (h' : Grown d (v + 1) hi m' m'') (hle : v < hi) : Grown d v hi m m'' := by
  refine ⟨hmv.trans h'.moves, fun i t ht => h'.tables i t (h.tables i t ht), fun i ht => ?_, fun k hk hk' => ?_, fun k hk => ?_,
    fun k x hk hx hx'' => ?_⟩
  · rcases h'.others i ht with hi | ⟨k, hk, hk', rfl⟩
    · by_cases hiv : i = v / 1024
      · exact .inr ⟨v, Nat.le_refl v, hle, hiv⟩
      · rw [h.others i hiv] at hi
        exact .inl hi
    · exact .inr ⟨k, by omega, hk', rfl⟩
  · rcases Nat.eq_or_lt_of_le hk with rfl | hlt
    · rw [h'.same v (.inl (Nat.lt_succ_self v)), h.ptes, update_self]
      simp
    · exact h'.ptes k hlt hk'
  · rw [h'.same k (by omega), h.ptes, update_of_ne (by omega)]
  · have hx' : pteAt m'.mem d k = some x := by
      by_cases hkv : k = v
      · rw [← h'.same k (.inl (by omega)), hx'']
      · rw [h.ptes, update_of_ne hkv, hx]
    rw [h'.data k x hk hx' hx'', hd k x hk hx hx']

/-- The page `x` has been taken in hand and filled; the directory `d` is as it was. -/
structure Taken (d x : Nat) (m m' : Machine) : Prop where
  moves : Moves (dirPages m.mem d) (dirPages m'.mem d + {x}) m m'
  tables : tableAt m'.mem d = tableAt m.mem d
  ptes : pteAt m'.mem d = pteAt m.mem d
  data : ∀ y ∈ dirPages m.mem d, m'.mem y = m.mem y

theorem kalloc_dir (hg : Good L (dirPages m.mem d) m) :
    wp kalloc (fun r m₁ => (r = none → Walked d m m₁ ∧ m₁.mem = m.mem ∧ (Granted m m₁ → m₁.freelist = [])) ∧
      ∀ x, r = some x → ∀ pg, Taken d x m { m₁ with mem := update m₁.mem x pg }) E m := by
  refine wp.post kalloc_spec ?_
  rintro r m₁ ⟨hk, hmem, hs⟩
  refine ⟨?_, ?_⟩
  · rintro rfl
    have hk' := hk.add (dirPages m.mem d)
    rw [held_none, zero_add] at hk'
    refine ⟨⟨?_, ?_, ?_, ?_⟩, hmem, hs rfl⟩
    all_goals rw [hmem]
    · exact hk'
    · exact fun _ _ => id
    · exact .refl _ _
  · rintro x rfl pg
    have hmv := (hk.trans (Moves.setPage x pg m₁)).add (dirPages m.mem d)
    rw [zero_add] at hmv
    have hx : x ∉ dirPages m.mem d := by
      have hn := (hmv.good hg).nodup_hand
      rw [Multiset.singleton_add, Multiset.nodup_cons] at hn
      exact hn.1
    have hsame : ∀ y ∈ dirPages m.mem d, update m₁.mem x pg y = m.mem y := fun y hy => by
      have hne : y ≠ x := fun h => hx (h ▸ hy)
      rw [update_of_ne hne, hmem]
    obtain ⟨ht, hp, hd⟩ := dir_same hsame
    refine ⟨?_, ht, hp, hsame⟩
    rw [add_comm] at hmv
    change Moves (dirPages m.mem d) (dirPages (update m₁.mem x pg) d + {x}) m _
    rw [hd]
    exact hmv

theorem Taken.mapped_data (h : Taken d x m m') (hd : SameData d m'.mem mem') : SameData d m.mem mem' := fun v w hv hw hw'' => by
  rw [hd v w hv (by rw [h.ptes, hw]) hw'', h.data _ (user_mem hv hw)]

theorem Entered.congr (h : Entered d v w mem mem') {mem₀ : Nat → Page}
    (ht : tableAt mem d = tableAt mem₀ d) (hp : pteAt mem d = pteAt mem₀ d) :
    Entered d v w mem₀ mem' := by
  refine ⟨?_, ?_, h.table, ?_⟩
  · rw [← ht]
    exact h.tables
  · rw [← ht]
    exact h.others
  · rw [← hp]
    exact h.ptes

theorem kfree_dir (hg : Good L (dirPages m.mem d + {x}) m) :
    wp (kfree L x) (fun _ m' => Moves (dirPages m.mem d + {x}) (dirPages m'.mem d) m m' ∧ tableAt m'.mem d = tableAt m.mem d ∧
      pteAt m'.mem d = pteAt m.mem d ∧ SameData d m.mem m'.mem) E m := by
  refine wp.post (kfree_spec (hg.range x (by simp))) ?_
  rintro _ m' ⟨hk, hm'⟩
  have hx : x ∉ dirPages m.mem d := by
    have hn := hg.nodup_hand
    rw [add_comm, Multiset.singleton_add, Multiset.nodup_cons] at hn
    exact hn.1
  have hsame : ∀ y ∈ dirPages m.mem d, m'.mem y = m.mem y := fun y hy => by
    have hne : y ≠ x := fun h => hx (h ▸ hy)
    rw [hm', update_of_ne hne]
  obtain ⟨ht, hp, hd⟩ := dir_same hsame
  refine ⟨?_, ht, hp, fun v w hv hw _ => hsame _ (user_mem hv hw)⟩
  have hmv := hk.add (dirPages m.mem d)
  rw [zero_add, add_comm] at hmv
  rw [hd]
  exact hmv

theorem Dropped.of_unmapped {lo hi : Nat} (hmv : Moves (dirPages m.mem d) (dirPages m'.mem d) m m')
    (ht : ∀ i t, tableAt m.mem d i = some t → tableAt m'.mem d i = some t) (hp : ∀ v, v < lo ∨ hi ≤ v →
      pteAt m'.mem d v = pteAt m.mem d v)
    (hd : SameData d m.mem m'.mem) (h : Unmapped d lo hi m' m'') : Dropped d lo hi m m'' := by
  refine ⟨hmv.trans h.moves, fun i t hi => ?_, h.gone, fun v hv => ?_, fun v w hv hw hw'' => ?_⟩
  · rw [h.tables]
    exact ht i t hi
  · rw [h.same v hv, hp v hv]
  · have hw' : pteAt m'.mem d v = some w := by
      by_cases hm : lo ≤ v ∧ v < hi
      · rw [h.gone v hm.1 hm.2] at hw''
        cases hw''
      · rw [← h.same v (by omega), hw'']
    rw [h.data v w hv hw' hw'', hd v w hv hw hw']

theorem allocLoop_spec {oldsz newsz : Nat} (hK : newsz < KERNBASE) (v : Nat) {m : Machine} (hlo : npages oldsz ≤ v)
    (hg : Good L (dirPages m.mem d) m) (hnone : ∀ k, v ≤ k → k < userPages → pteAt m.mem d k = none) (hn : v ≤ npages newsz) :
    wp (allocLoop L d oldsz newsz (PGSIZE * v)) (fun r m' => r = true ∧ Grown d v (npages newsz) m m' ∧
      Zeroed d v (npages newsz) m'.mem ∨
      r = false ∧ Dropped d (npages oldsz) (npages newsz) m m') E m := by
  rw [allocLoop]
  by_cases hlt : PGSIZE * v < newsz
  · rw [dif_pos hlt]
    have hvn := lt_npages.2 hlt
    have hv : v < userPages := by
      simp only [userPages, KERNBASE, PGSIZE] at *
      omega
    refine wp.bind (kalloc_dir hg) ?_
    rintro (_ | x) m₁ ⟨hno, hyes⟩
    · have h₁ := (hno rfl).1
      refine wp.bind (deallocuvm_spec (Nat.le_of_lt hK) (h₁.moves.good hg)) ?_
      rintro _ m' ⟨-, h'⟩
      exact .inr ⟨rfl, .of_unmapped h₁.moves h₁.tables (fun k _ => by rw [h₁.ptes]) h₁.data h'⟩
    · dsimp only
      have h₁ := hyes x rfl (Block.zero PGSIZE)
      refine wp_bind.2 (wp_setPage.2 ?_)
      have hz₂ : update m₁.mem x (Block.zero PGSIZE) x = Block.zero PGSIZE := update_self ..
      obtain ⟨m₂, hm₂⟩ : ∃ m₂, m₂ = ({ m₁ with mem := update m₁.mem x (Block.zero PGSIZE) } : Machine) := ⟨_, rfl⟩
      have hzero : m₂.mem x = Block.zero PGSIZE := by rw [hm₂]; exact hz₂
      rw [← hm₂] at h₁ ⊢
      have hg₂ := h₁.moves.good hg
      refine wp.bind (mappages_user hv (by rw [h₁.ptes, hnone v (Nat.le_refl v) hv]) (by decide) hg₂) ?_
      rintro r m₃ (⟨rfl, h₃, hheld⟩ | ⟨rfl, h₃, -⟩)
      · have hmv₃ := h₃.moves
        rw [hheld] at hmv₃
        have hmv := h₁.moves.trans hmv₃
        have hent := h₃.toEntered.congr h₁.tables h₁.ptes
        have hdata := h₁.mapped_data h₃.data
        rw [if_pos rfl, show PGSIZE * v + PGSIZE = PGSIZE * (v + 1) by rw [Nat.mul_add, Nat.mul_one]]
        refine wp.post (allocLoop_spec hK (v + 1) (by omega) (hmv.good hg) (fun k hk hk' => ?_) hvn) ?_
        · rw [hent.ptes, update_of_ne (by omega), hnone k (by omega) hk']
        · rintro r m' (⟨rfl, h', hz'⟩ | ⟨rfl, h'⟩)
          · refine .inl ⟨rfl, hent.grown hmv hdata h' hvn, fun k w hk hk' hw => ?_⟩
            by_cases hkv : k = v
            · -- the page that was mapped in this round
              have hw₃ := hw
              rw [h'.same k (.inl (by omega)), hent.ptes, hkv, update_self] at hw₃
              obtain rfl := Option.some.inj hw₃
              have hx : frame (BitVec.ofNat 32 (PGSIZE * x) ||| (PTE_W ||| PTE_U) ||| PTE_P) = x := by
                rw [userHeld, if_pos hv, Option.map_some, held_some, Multiset.singleton_inj] at hheld
                exact hheld
              rw [hkv] at hw
              rw [h'.data v _ hv (by rw [hent.ptes, update_self]) hw, h₃.page hv, hx, hzero]
            · exact hz' k w (by omega) hk' hw
          · refine .inr ⟨rfl, ⟨hmv.trans h'.moves, fun i t ht => h'.tables i t (hent.tables i t ht), h'.gone, fun k hk => ?_,
              fun k w hk hw hw'' => ?_⟩⟩
            · rw [h'.same k hk, hent.ptes, update_of_ne (by omega)]
            · have hkn : ¬ (npages oldsz ≤ k ∧ k < npages newsz) := fun hm => by
                rw [h'.gone k hm.1 hm.2] at hw''
                cases hw''
              have hw₃ : pteAt m₃.mem d k = some w := by rw [← h'.same k (by omega), hw'']
              rw [h'.data k w hk hw₃ hw'', hdata k w hk hw hw₃]
      · rw [if_neg (by decide)]
        have hmv₃ := h₁.moves.trans (h₃.moves.add {x})
        have hg₃ := hmv₃.good hg
        refine wp.bind (deallocuvm_spec (Nat.le_of_lt hK) hg₃.left) ?_
        rintro _ m₄ ⟨-, h₄⟩
        have hmv₄ := hmv₃.trans (h₄.moves.add {x})
        refine wp.bind (kfree_dir (hmv₄.good hg)) ?_
        rintro _ m' ⟨hk, ht', hp', hd'⟩
        refine .inr ⟨rfl, ⟨hmv₄.trans hk, fun i t ht => ?_, fun k hk hk' => ?_, fun k hk => ?_, fun k w hk hw hw'' => ?_⟩⟩
        · rw [ht', h₄.tables]
          exact h₃.tables i t (by rw [h₁.tables]; exact ht)
        · rw [hp', h₄.gone k hk hk']
        · rw [hp', h₄.same k hk, h₃.ptes, h₁.ptes]
        · have hw₄ : pteAt m₄.mem d k = some w := by rw [← hp', hw'']
          have hw₃ : pteAt m₃.mem d k = some w := by rw [h₃.ptes, h₁.ptes, hw]
          rw [hd' k w hk hw₄ hw'', h₄.data k w hk hw₃ hw₄, h₁.mapped_data h₃.data k w hk hw hw₃]
  · rw [dif_neg hlt]
    have : npages newsz ≤ v := Nat.not_lt.1 fun h => hlt (lt_npages.1 h)
    obtain rfl : v = npages newsz := by omega
    exact .inl ⟨rfl, .refl _ _ _, fun k w hk hk' => by omega⟩
termination_by newsz - PGSIZE * v
decreasing_by
  simp only [PGSIZE] at *
  omega

theorem Dropped.walked {lo hi : Nat} (h : Dropped d lo hi m m') (hnone : ∀ k, lo ≤ k → k < hi →
    pteAt m.mem d k = none) : Walked d m m' := by
  refine ⟨h.moves, h.tables, ?_, h.data⟩
  funext k
  by_cases hk : lo ≤ k ∧ k < hi
  · rw [h.gone k hk.1 hk.2, hnone k hk.1 hk.2]
  · exact h.same k (by omega)

theorem npages_le_userPages {sz : Nat} (h : sz ≤ KERNBASE) : npages sz ≤ userPages := by
  simp only [npages, userPages, PGSIZE, KERNBASE] at *
  omega

theorem allocuvm_spec {oldsz newsz : Nat} (hg : Good L (dirPages m.mem d) m)
    (hnone : ∀ k, npages oldsz ≤ k → k < userPages → pteAt m.mem d k = none) :
    wp (allocuvm L d oldsz newsz) (fun r m' =>
      r = max oldsz newsz ∧ r ≠ 0 ∧ newsz < KERNBASE ∧ Grown d (npages oldsz) (npages r) m m' ∧
          Zeroed d (npages oldsz) (npages r) m'.mem ∨
        r = 0 ∧ Walked d m m') E m := by
  rw [allocuvm]
  by_cases hK : KERNBASE ≤ newsz
  · rw [if_pos hK]
    exact .inr ⟨rfl, .refl _ _⟩
  rw [if_neg hK]
  by_cases hlt : newsz < oldsz
  · rw [if_pos hlt]
    exact .inl ⟨by omega, by omega, by omega, .refl _ _ _, fun k w hk hk' => by omega⟩
  rw [if_neg hlt, pgRoundUp_eq]
  have hn : npages oldsz ≤ npages newsz := by
    simp only [npages, PGSIZE]
    omega
  have hmax : newsz = max oldsz newsz := by omega
  refine wp.bind (allocLoop_spec (by omega) (npages oldsz) (Nat.le_refl _) hg hnone hn) ?_
  rintro r m' (⟨rfl, h', hz'⟩ | ⟨rfl, h'⟩)
  · rw [if_pos rfl]
    by_cases hz : newsz = 0
    · -- nothing was asked for, and the caller takes 0 for a failure
      have he : npages newsz = npages oldsz := by
        rw [hz, show oldsz = 0 by omega]
      rw [he] at h'
      refine .inr ⟨hz, ⟨h'.moves, h'.tables, ?_, h'.data⟩⟩
      funext k
      exact h'.same k (by omega)
    · exact .inl ⟨hmax, hz, by omega, h', hz'⟩
  · rw [if_neg (by decide)]
    have hle : npages newsz ≤ userPages := npages_le_userPages (by omega)
    exact .inr ⟨rfl, h'.walked fun k hk hk' => hnone k hk (by omega)⟩

/-! ### Data in user pages -/

/-- The entries of the directory `d` are the same, and so are its pages. -/
structure Kept (d : Nat) (m m' : Machine) : Prop where
  moves : Moves (dirPages m.mem d) (dirPages m'.mem d) m m'
  tables : tableAt m'.mem d = tableAt m.mem d
  ptes : pteAt m'.mem d = pteAt m.mem d

theorem kstore_user (hg : Good L (dirPages m.mem d) m) (hv : v < userPages)
    (hw : pteAt m.mem d v = some w) (off : Nat) (bs : List Byte) :
    wp (kstore L (frame w) off bs) (fun _ m' => Kept d m m' ∧
      m' = { m with mem := update m.mem (frame w) ((m.mem (frame w)).move off (fun k => bs.getD k 0) bs.length) }) E m := by
  have hn := hg.nodup_hand
  have hmem := user_mem hv hw
  have hr := hg.range (frame w) (Multiset.mem_add.2 (.inr hmem))
  have h1 := L.lt_end
  refine wp_bind.2 (wp_failIf.2 ⟨fun hc => by omega, fun _ => wp_bind.2 (wp_get.2 (wp_setPage.2 ⟨?_, rfl⟩))⟩)
  have hd : update m.mem (frame w) ((m.mem (frame w)).move off (fun k => bs.getD k 0) bs.length) d = m.mem d :=
    update_of_ne (user_ne_dir hn hv hw).symm ..
  have ht : tableAt (update m.mem (frame w) ((m.mem (frame w)).move off (fun k => bs.getD k 0) bs.length)) d = tableAt m.mem d :=
    tableAt_congr hd
  have hp : pteAt (update m.mem (frame w) ((m.mem (frame w)).move off (fun k => bs.getD k 0) bs.length)) d = pteAt m.mem d :=
    pteAt_congr hd fun i t hi => update_of_ne (user_ne_table hn hv hw hi).symm ..
  refine ⟨⟨?_, fun y hy => update_of_ne ?_ .., rfl, List.suffix_rfl⟩, ht, hp⟩
  · change (m.freelist : Multiset Nat) + dirPages (update m.mem (frame w) _) d = m.freelist + dirPages m.mem d
    rw [dirPages, dirPages, Vm.tables, Vm.tables, users, users, ht, hp]
  · rintro rfl
    exact hy (Multiset.mem_add.2 (.inr hmem))

end Xv6.Vm
