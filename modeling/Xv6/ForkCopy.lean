import Xv6.MapPages

/-!
# `copyuvm`

The child gets a page of its own for every page of the parent, with the same flags and contents. The
parent's pages are not free, and all that `copyuvm` writes was free when it started, so that the parent
is unchanged. It fails only if a call of `kalloc` does. No size is too large: memory ends long before
`KERNBASE` pages.
-/

namespace Xv6.Vm

open Prog Function

/-- The user pages `lo ≤ v < hi` of `d` have the flags and the contents of those of `s`. -/
def SamePages (s d lo hi : Nat) (mem mem' : Nat → Page) : Prop :=
  ∀ v w, lo ≤ v → v < hi → pteAt mem s v = some w →
    ∃ w', pteAt mem' d v = some w' ∧ pteFlags w' = pteFlags w ∧ mem' (frame w') = mem (frame w)

/-- No page of `s` is free or belongs to `d`. -/
def Apart (s d : Nat) (m : Machine) : Prop := ∀ y ∈ dirPages m.mem s, y ∉ (m.freelist : Multiset Nat) + dirPages m.mem d

variable {L : Link} {s d sz v x : Nat} {w : BitVec 32} {m m' : Machine}

theorem flags_or_present (h : has w PTE_P) : pteFlags w ||| PTE_P = pteFlags w := by
  have h1 : w &&& PTE_P = PTE_P := by
    have hmod : (w &&& 1).toNat = w.toNat % 2 := by
      rw [BitVec.toNat_and]
      exact Nat.and_one_is_mod _
    have hne : (w &&& 1).toNat ≠ 0 := fun h0 => h (BitVec.eq_of_toNat_eq h0)
    refine BitVec.eq_of_toNat_eq ?_
    change (w &&& 1).toNat = 1
    omega
  have h2 : pteFlags w &&& PTE_P = PTE_P := by
    rw [pteFlags, BitVec.and_assoc, show (0xFFF &&& PTE_P : BitVec 32) = PTE_P by decide, h1]
  rw [← h2]
  refine BitVec.eq_of_getLsbD_eq fun k _ => ?_
  rw [BitVec.getLsbD_or, BitVec.getLsbD_and]
  cases (pteFlags w).getLsbD k <;> rfl

theorem pteAt_some {mem : Nat → Page} (h : pteAt mem d v = some w) :
    ∃ t, tableAt mem d (v / 1024) = some t ∧ entry (mem t) (v % 1024) = w ∧ has w PTE_P := by
  obtain ⟨t, ht⟩ := Option.ne_none_iff_exists'.1 (pteAt_table h)
  rw [pteAt_of_table ht, presentEntry] at h
  split at h
  · next hp =>
    cases h
    exact ⟨t, ht, rfl, hp⟩
  · cases h

theorem addr_flags (w : BitVec 32) : pteAddr (pteFlags w) = 0 := by
  rw [pteAddr, pteFlags, BitVec.and_assoc]
  exact BitVec.and_zero

theorem mapped_le (hg : Good L (dirPages m.mem d) m) (hv : v ≤ userPages)
    (hmapped : ∀ k, k < v → pteAt m.mem d k ≠ none) : v ≤ 57344 := by
  have hget (k : Nat) (hk : k < v) : ∃ w, pteAt m.mem d k = some w := Option.ne_none_iff_exists'.1 (hmapped k hk)
  have hcard : (Finset.range v).card ≤ (Finset.range 57344).card := by
    refine Finset.card_le_card_of_injOn (fun k => ((pteAt m.mem d k).map frame).getD 0) (fun k hk => ?_) fun k hk l hl he => ?_
    · have hk := Finset.mem_range.1 hk
      obtain ⟨w, hw⟩ := hget k hk
      have := (hg.range (frame w) (Multiset.mem_add.2 (.inr (user_mem (by omega) hw)))).2
      simp only [hw, Option.map_some, Option.getD_some, Finset.coe_range, Set.mem_Iio]
      simp only [PGSIZE, PHYSTOP] at this
      omega
    · have hk := Finset.mem_range.1 hk
      have hl := Finset.mem_range.1 hl
      obtain ⟨w, hw⟩ := hget k hk
      obtain ⟨w', hw'⟩ := hget l hl
      simp only [hw, hw', Option.map_some, Option.getD_some] at he
      exact user_inj hg.nodup_hand (by omega) (by omega) hw hw' he
  simpa using hcard

theorem Apart.kept (h : Apart s d m) (hmv : Moves (dirPages m.mem d) (dirPages m'.mem d) m m') :
    (∀ y ∈ dirPages m.mem s, m'.mem y = m.mem y) ∧ pteAt m'.mem s = pteAt m.mem s ∧ Apart s d m' := by
  have hsame : ∀ y ∈ dirPages m.mem s, m'.mem y = m.mem y := fun y hy => hmv.outside y (h y hy)
  obtain ⟨-, hp, hd⟩ := dir_same hsame
  refine ⟨hsame, hp, fun y hy => ?_⟩
  rw [hd] at hy
  rw [hmv.bal]
  exact h y hy

/-- The page table entry that `copyuvm` enters for page `v`, in front of the pages after it. -/
theorem SamePages.cons {mem mem₁ mem' : Nat → Page} {hi : Nat} (h : SamePages s d (v + 1) hi mem₁ mem')
    (hw : pteAt mem s v = some w) (hp : has w PTE_P)
    (hself : pteAt mem' d v = some (BitVec.ofNat 32 (PGSIZE * x) ||| pteFlags w ||| PTE_P))
    (hdata : mem' (frame (BitVec.ofNat 32 (PGSIZE * x) ||| pteFlags w ||| PTE_P)) = mem (frame w))
    (hptes : pteAt mem₁ s = pteAt mem s) (hsame : ∀ y ∈ dirPages mem s, mem₁ y = mem y) (hu : hi ≤ userPages) :
    SamePages s d v hi mem mem' := by
  intro k w₀ hk hk' hw₀
  rcases Nat.eq_or_lt_of_le hk with rfl | hlt
  · obtain rfl : w = w₀ := Option.some.inj (hw.symm.trans hw₀)
    refine ⟨_, hself, ?_, hdata⟩
    rw [flags_or, flags_or, flags_phys, flags_of_addr_zero (addr_flags w), show pteFlags PTE_P = PTE_P by decide]
    exact (congrArg (· ||| PTE_P) BitVec.zero_or).trans (flags_or_present hp)
  · obtain ⟨w', hw', hf, hd⟩ := h k w₀ hlt hk' (by rw [hptes, hw₀])
    exact ⟨w', hw', hf, hd.trans (hsame _ (user_mem (by omega) hw₀))⟩

/-- The pages `copyuvm` needs: the directory, the 64 tables of the kernel part, and the user pages with their tables. -/
def copyPages (sz : Nat) : Nat := 65 + npages sz + (npages sz + 1023) / 1024

theorem card_dirPages_user {mem : Nat → Page} {n : Nat} (ht : ∀ i, tableAt mem d i ≠ none → KernelSlot i ∨ i < n)
    (h : ∀ k, v ≤ k → k < userPages → pteAt mem d k = none) : (dirPages mem d).card ≤ 65 + n + v := by
  have hle : (dirPages mem d).card ≤ 1 + (kernelSlots ∪ Finset.range n).card + v := by
    refine card_dirPages_le (fun i hi => ?_) h
    rw [Finset.mem_union, mem_kernelSlots, Finset.mem_range]
    exact ht i hi
  have hcard := Finset.card_union_le kernelSlots (Finset.range n)
  rw [Finset.card_range, card_kernelSlots] at hcard
  omega

theorem copyLoop_spec (v : Nat) {m : Machine} (hg : Good L (dirPages m.mem d) m) (hs : Apart s d m)
    (hall : ∀ k, k < npages sz → pteAt m.mem s k ≠ none) (hmapped : ∀ k, k < v → pteAt m.mem d k ≠ none)
    (hnone : ∀ k, v ≤ k → k < userPages → pteAt m.mem d k = none)
    (htab : ∀ i, tableAt m.mem d i ≠ none → KernelSlot i ∨ ∃ k < v, i = k / 1024) (hn : v ≤ npages sz) (hv : v ≤ userPages) :
    wp (copyLoop L s d sz (PGSIZE * v)) (fun r m' =>
      r = true ∧ npages sz ≤ userPages ∧ Grown d v (npages sz) m m' ∧ SamePages s d v (npages sz) m.mem m'.mem ∨
      r = false ∧ Moves (dirPages m.mem d) (dirPages m'.mem d) m m' ∧
        (Granted m m' → m.freelist.length + (dirPages m.mem d).card < copyPages sz)) (fun _ => False) m := by
  rw [copyLoop]
  by_cases hlt : PGSIZE * v < sz
  · rw [dif_pos hlt]
    have hvn := lt_npages.2 hlt
    have hvu : v < userPages := Nat.lt_of_le_of_lt (mapped_le hg hv hmapped) (by decide)
    have hv20 : v < 2 ^ 20 := Nat.lt_trans hvu userPages_lt
    obtain ⟨w, hw⟩ := Option.ne_none_iff_exists'.1 (hall v hvn)
    obtain ⟨t, ht, hentry, hp⟩ := pteAt_some hw
    have hparent : frame w ∈ dirPages m.mem s := user_mem hvu hw
    refine wp.bind (walkpgdir_read s (PGSIZE * v)) ?_
    rintro r m₁ ⟨rfl, rfl⟩
    rw [pdx_page hv20, ptx_page, ht]
    dsimp only [Option.map_some]
    refine wp_bind.2 (wp_get.2 ?_)
    rw [hentry]
    refine wp_bind.2 (wp_failIf.2 ⟨fun h => h hp, fun _ => wp.bind (kalloc_dir hg) ?_⟩)
    rintro (_ | x) m₂ ⟨hno, hyes⟩
    · obtain ⟨h₂, hmem, hs₂⟩ := hno rfl
      refine .inr ⟨rfl, h₂.moves, fun hgr => ?_⟩
      have hcard := h₂.moves.card
      have hle : (dirPages m₁.mem d).card ≤ 65 + (v + 1023) / 1024 + v := by
        refine card_dirPages_user (fun i hi => (htab i hi).imp_right ?_) hnone
        rintro ⟨k, hk, rfl⟩
        omega
      rw [hs₂ hgr, List.length_nil, hmem] at hcard
      rw [copyPages]
      omega
    dsimp only
    refine wp_bind.2 (wp_get.2 (wp_bind.2 (wp_setPage.2 ?_)))
    have h₂ := hyes x rfl (m₂.mem (frame w))
    -- the page that is copied is the parent's own, whether or not `x` is filled already
    have hfill : update m₂.mem x (m₂.mem (frame w)) x = m₁.mem (frame w) := by
      have hout := h₂.moves.outside _ (hs _ hparent)
      by_cases hx : frame w = x
      · rw [← hx] at hout ⊢
        exact hout
      · rw [update_self, ← hout]
        exact (update_of_ne hx ..).symm
    generalize hm₃ : ({ m₂ with mem := update m₂.mem x (m₂.mem (frame w)) } : Machine) = m₃ at h₂ ⊢
    have hx₃ : m₃.mem x = m₁.mem (frame w) := by
      rw [← hm₃]
      exact hfill
    refine wp.bind (mappages_user hvu (by rw [h₂.ptes, hnone v (Nat.le_refl v) hvu]) (addr_flags w) (h₂.moves.good hg)) ?_
    rintro r m₄ (⟨rfl, h₄, hheld⟩ | ⟨rfl, h₄, hno⟩)
    · have hmv₄ := h₄.moves
      rw [hheld] at hmv₄
      have hmv := h₂.moves.trans hmv₄
      have hent := h₄.toEntered.congr h₂.tables h₂.ptes
      have hframe : frame (BitVec.ofNat 32 (PGSIZE * x) ||| pteFlags w ||| PTE_P) = x := by
        rw [userHeld, if_pos hvu] at hheld
        exact Multiset.singleton_inj.1 hheld
      have hself : pteAt m₄.mem d v = some (BitVec.ofNat 32 (PGSIZE * x) ||| pteFlags w ||| PTE_P) :=
        by rw [hent.ptes, update_self]
      obtain ⟨hsame, hptes, hs₄⟩ := hs.kept hmv
      rw [if_pos rfl, show PGSIZE * v + PGSIZE = PGSIZE * (v + 1) by rw [Nat.mul_add, Nat.mul_one]]
      refine wp.post (copyLoop_spec (v + 1) (hmv.good hg) hs₄ (fun k hk => by rw [hptes]; exact hall k hk) (fun k hk => ?_)
        (fun k hk hk' => ?_) (fun i hi => ?_) hvn hvu) ?_
      · by_cases hkv : k = v
        · rw [hkv, hself]
          simp
        · rw [hent.ptes, update_of_ne hkv]
          exact hmapped k (by omega)
      · rw [hent.ptes, update_of_ne (by omega), hnone k (by omega) hk']
      · by_cases hiv : i = v / 1024
        · exact .inr ⟨v, Nat.lt_succ_self v, hiv⟩
        · rw [hent.others i hiv] at hi
          refine (htab i hi).imp_right ?_
          rintro ⟨k, hk, he⟩
          exact ⟨k, Nat.lt_succ_of_lt hk, he⟩
      · rintro r m' (⟨rfl, hle, h', hcopy⟩ | ⟨rfl, h', hlack⟩)
        · have hself' := (h'.same v (.inl (Nat.lt_succ_self v))).trans hself
          refine .inl ⟨rfl, hle, hent.grown hmv (h₂.mapped_data h₄.data) h' hvn, hcopy.cons hw hp hself' ?_ hptes hsame hle⟩
          rw [h'.data v _ hvu hself hself', h₄.page hvu, hframe, hx₃]
        · exact .inr ⟨rfl, hmv.trans h', fun hgr => hmv.card ▸ hlack (hmv.granted h' hgr).2⟩
    · rw [if_neg (by decide)]
      have hmv := h₂.moves.trans (h₄.moves.add {x})
      refine wp.bind (kfree_dir (hmv.good hg)) ?_
      rintro _ m' ⟨hk, -⟩
      refine .inr ⟨rfl, hmv.trans hk, fun hgr => ?_⟩
      -- the table for this page is missing, and `x` was the last free page
      have hcard := hmv.card
      have hle : (dirPages m₄.mem d).card ≤ 65 + v / 1024 + v := by
        refine card_dirPages_user (fun i hi => ?_) fun k hk hk' => ?_
        · have hiv : i ≠ v / 1024 := fun he => hi (by rw [hno.mem, he, hno.table])
          rw [hno.mem, h₂.tables] at hi
          refine (htab i hi).imp_right ?_
          rintro ⟨k, hk, rfl⟩
          omega
        · rw [h₄.ptes, h₂.ptes, hnone k hk hk']
      rw [hno.starved (h₂.moves.granted h₄.moves (hmv.granted hk hgr).1).2, List.length_nil, Multiset.card_add,
        Multiset.card_singleton] at hcard
      rw [copyPages]
      omega
  · rw [dif_neg hlt]
    have : npages sz ≤ v := Nat.not_lt.1 fun h => hlt (lt_npages.1 h)
    obtain rfl : v = npages sz := by omega
    exact .inl ⟨rfl, hv, .refl _ _ _, fun k w hk hk' => by omega⟩
termination_by sz - PGSIZE * v
decreasing_by
  simp only [PGSIZE] at *
  omega

/-- `d` is a copy of the first `sz` bytes of `s`, in pages that were free. -/
structure Forked (L : Link) (s d sz : Nat) (m m' : Machine) : Prop where
  kernel : KernelMap L m'.mem d
  pages : SamePages s d 0 (npages sz) m.mem m'.mem
  fresh : ∀ y ∈ dirPages m'.mem d, y ∈ m.freelist ∧ y ∉ m'.freelist
  own : ∀ v w, v < npages sz → pteAt m'.mem d v = some w → frame w ∈ dirPages m'.mem d ∧
    (∀ k w', k < npages sz → pteAt m'.mem d k = some w' → frame w' = frame w → k = v) ∧ frame w ∉ dirPages m.mem s

theorem Forked.of_grown {m₁ : Machine} (hg : Good L 0 m) (hs : ∀ y ∈ dirPages m.mem s, y ∉ m.freelist)
    (hmv : Moves 0 (dirPages m₁.mem d) m m₁) (hk : KernelMap L m₁.mem d) (hle : npages sz ≤ userPages)
      (hgr : Grown d 0 (npages sz) m₁ m')
    (hcopy : SamePages s d 0 (npages sz) m.mem m'.mem) : Forked L s d sz m m' := by
  have hmv' := hmv.trans hgr.moves
  have hg' := hmv'.good hg
  have hfresh : ∀ y ∈ dirPages m'.mem d, y ∈ m.freelist := fun y hy => by
    have hy' : y ∈ (m'.freelist : Multiset Nat) + dirPages m'.mem d := Multiset.mem_add.2 (.inr hy)
    rw [hmv'.bal, add_zero] at hy'
    exact hy'
  refine ⟨fun k hk' v hv => ?_, hcopy, fun y hy => ⟨hfresh y hy, fun hf => ?_⟩, fun v w hv hw =>
    ⟨user_mem (by omega) hw, ?_, fun hmem => ?_⟩⟩
  · -- the rows lie above the pages that were copied
    have hrow : userPages ≤ v := by
      have h1 : KERNBASE ≤ k.virt := by
        have := L.text
        simp only [kmap, List.mem_cons, List.not_mem_nil, or_false] at hk'
        rcases hk' with rfl | rfl | rfl | rfl
        all_goals (simp only [KERNLINK, KERNBASE, EXTMEM, DEVSPACE]; omega)
      have h2 := hv.1
      simp only [userPages, KERNBASE, PGSIZE] at *
      omega
    rw [hgr.same v (.inr (by omega))]
    exact hk k hk' v hv
  · exact Multiset.disjoint_left.1 (Multiset.nodup_add.1 hg'.nodup).2.2 (Multiset.mem_coe.2 hf) hy
  · exact fun k w' hk hw' he => user_inj hg'.nodup_hand (by omega) (by omega) hw' hw he
  · exact hs _ hmem (hfresh _ (user_mem (by omega) hw))

theorem Grown.spans {lo : Nat} (h : Grown d lo (npages sz) m m') (hle : lo ≤ npages sz)
    (hs : ∀ v, v < userPages → (pteAt m.mem d v ≠ none ↔ v < lo)) : Spans m'.mem d sz := by
  intro v hv
  by_cases hin : lo ≤ v ∧ v < npages sz
  · exact iff_of_true (h.ptes v hin.1 hin.2) hin.2
  · rw [h.same v (by omega), hs v hv]
    omega

theorem NewDir.spans {mem : Nat → Page} (h : NewDir mem d) : Spans mem d 0 := fun v hv =>
  iff_of_false (fun hne => hne (h.empty v hv)) (Nat.not_lt_zero v)

/-- What `copyuvm` returns, and the machine after it. -/
def Copied (L : Link) (s sz : Nat) (m : Machine) (r : Option Nat) (m' : Machine) : Prop :=
  match r with
  | none => Moves 0 0 m m' ∧ (Granted m m' → m.freelist.length < copyPages sz)
  | some d => Moves 0 (dirPages m'.mem d) m m' ∧ Spans m'.mem d sz ∧ Forked L s d sz m m'

theorem copyuvm_spec (hg : Good L 0 m) (hs : ∀ y ∈ dirPages m.mem s, y ∉ m.freelist)
    (hall : ∀ v, v < npages sz → pteAt m.mem s v ≠ none) : wp (copyuvm L s sz) (Copied L s sz m) (fun _ => False) m := by
  rw [copyuvm]
  refine wp.bind (((setupkvm_spec (E := fun _ => False) hg).and (setupkvm_exact hg)).mono (fun _ _ => id) fun _ => And.left) ?_
  rintro (_ | d) m₁ ⟨⟨hmv, hnew⟩, hmap⟩
  · refine ⟨hmv, fun hgr => ?_⟩
    have := hnew hgr
    rw [copyPages]
    omega
  have hparent : ∀ y ∈ dirPages m.mem s, m₁.mem y = m.mem y := fun y hy => hmv.outside y (by rw [add_zero]; exact hs y hy)
  obtain ⟨-, hptes, hpages⟩ := dir_same hparent
  have hapart : Apart s d m₁ := fun y hy => by
    rw [hpages] at hy
    rw [hmv.bal, add_zero]
    exact hs y hy
  refine wp.bind (copyLoop_spec 0 (hmv.good hg) hapart (fun k (hk : k < npages sz) =>
    by rw [hptes]; exact hall k hk) (fun k hk => by omega)
    (fun k _ hk => hnew.empty k hk) (fun i hi => .inl (hnew.gap i hi)) (Nat.zero_le _) (Nat.zero_le _)) ?_
  rintro r m₂ (⟨rfl, hle, h₂, hcopy⟩ | ⟨rfl, h₂, hlack⟩)
  · rw [if_pos rfl]
    refine ⟨hmv.trans h₂.moves, h₂.spans (Nat.zero_le _) hnew.spans,
      .of_grown hg hs hmv (hmap d rfl) hle h₂ fun v w hv hv' hw => ?_⟩
    obtain ⟨w', hw', hf, hd⟩ := hcopy v w hv hv' (by rw [hptes, hw])
    exact ⟨w', hw', hf, hd.trans (hparent _ (user_mem (by omega) hw))⟩
  · rw [if_neg (by decide)]
    have hmv' := hmv.trans h₂
    refine wp.bind (freevm_spec (hmv'.good hg)) fun _ m' h' => ⟨hmv'.trans h', fun hgr => ?_⟩
    have hcard := hmv.card
    have hlt := hlack (hmv.granted h₂ (hmv'.granted h' hgr).1).2
    rw [Multiset.card_zero] at hcard
    omega

/-- It fails only where `kalloc` does: one of its calls was refused, or there are fewer free pages than the copy takes. -/
theorem copyuvm_exact (hg : Good L 0 m) (hs : ∀ y ∈ dirPages m.mem s, y ∉ m.freelist)
    (hall : ∀ v, v < npages sz → pteAt m.mem s v ≠ none) :
    wp (copyuvm L s sz) (fun r m' => (∀ y ∈ dirPages m.mem s, m'.mem y = m.mem y) ∧ match r with
      | none => (m'.freelist : Multiset Nat) = m.freelist ∧
          ∃ asked, m.fails = asked ++ m'.fails ∧ (true ∈ asked ∨ m.freelist.length < copyPages sz)
      | some d => Forked L s d sz m m') (fun _ => False) m := by
  have hparent {u : Multiset Nat} {m' : Machine} (hmv : Moves 0 u m m') : ∀ y ∈ dirPages m.mem s,
    m'.mem y = m.mem y := fun y hy =>
    hmv.outside y (by rw [add_zero]; exact hs y hy)
  refine wp.post (copyuvm_spec hg hs hall) ?_
  rintro (_ | d) m' h
  · have hbal := h.1.bal
    rw [add_zero, add_zero] at hbal
    exact ⟨hparent h.1, hbal, h.1.asked h.2⟩
  · exact ⟨hparent h.1, h.2.2⟩

theorem copyuvm_exact_onePage : wp (copyuvm smallLink 0x102 PGSIZE)
    (fun r m' => ∃ d, r = some d ∧ Forked smallLink 0x102 d PGSIZE onePage m') (fun _ => False) onePage := by
  have hfree : ∀ y ∈ dirPages onePage.mem 0x102, y ∉ onePage.freelist := fun _ hy hf =>
    Multiset.disjoint_left.1 (Multiset.nodup_add.1 good_onePage.nodup).2.2 (Multiset.mem_coe.2 hf) hy
  have hall : ∀ v, v < npages PGSIZE → pteAt onePage.mem 0x102 v ≠ none := fun v hv =>
    (spans_onePage v (Nat.lt_of_lt_of_le hv (by decide))).2 hv
  have hg : Good smallLink 0 onePage := good_onePage.of_le (Multiset.zero_le _)
  have hlen : ¬ onePage.freelist.length < copyPages PGSIZE := by decide
  have hf : onePage.fails = [] := rfl
  -- the machine is made a variable, or elaboration would run the call on it
  generalize onePage = m₀ at *
  refine wp.post (copyuvm_exact hg hfree hall) ?_
  rintro (_ | d) m' ⟨-, h⟩
  · obtain ⟨-, asked, ha, hno⟩ := h
    rw [hf] at ha
    obtain ⟨rfl, -⟩ := List.append_eq_nil_iff.1 ha.symm
    exact absurd (hno.resolve_left List.not_mem_nil) hlen
  · exact ⟨d, rfl, h⟩

end Xv6.Vm
