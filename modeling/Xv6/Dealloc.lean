import Xv6.GrowProc

/-!
# The loop of `deallocuvm` on machine words

`deallocWords` is the loop with its 32-bit arithmetic: where a page table is missing, `a` is set to one
page before the next table and then advanced. It does the same as the loop on numbers, and as testing
every page of the range (`testPages`), from every state of the machine. On a directory whose pages are
different ones, that frees the present pages of the range once each and clears their entries.
-/

namespace Xv6.Vm

open Prog Function

variable (L : Link)

def deallocWords (d oldsz : Nat) : (rounds a : Nat) → VM Unit
  | 0, _ => throw .spins
  | n + 1, a =>
    if a < oldsz then do
      match ← walkpgdir d a false with
      | none => deallocWords d oldsz n ((((pdx a + 1) * 2 ^ 22 % 2 ^ 32 + 2 ^ 32 - PGSIZE) % 2 ^ 32 + PGSIZE) % 2 ^ 32)
      | some (t, j) => do
        let w := entry ((← get).mem t) j
        if has w PTE_P then do
          failIf (pteAddr w = 0) (.panic "kfree")
          kfree L (frame w)
          setEntry t j 0
          deallocWords d oldsz n ((a + PGSIZE) % 2 ^ 32)
        else deallocWords d oldsz n ((a + PGSIZE) % 2 ^ 32)
    else pure ()

/-- `deallocuvm`, its loop bounded by a number of rounds. -/
def deallocuvmWords (d oldsz newsz rounds : Nat) : VM Nat :=
  if oldsz ≤ newsz then pure oldsz
  else do
    deallocWords L d oldsz rounds ((newsz + PGSIZE - 1) % 2 ^ 32 / PGSIZE * PGSIZE)
    pure newsz

/-- The page `v` is freed and its entry cleared if it is present. -/
def testPage (d v : Nat) : VM Unit := do
  match ← walkpgdir d (PGSIZE * v) false with
  | none => pure ()
  | some (t, j) => do
    let w := entry ((← get).mem t) j
    if has w PTE_P then do
      failIf (pteAddr w = 0) (.panic "kfree")
      kfree L (frame w)
      setEntry t j 0
    else pure ()

def testPages (d lo cnt : Nat) : VM Unit := forRange (fun v _ => testPage L d v) lo cnt ()

variable {L} {d v oldsz newsz lo mid hi : Nat} {m m' m'' : Machine} {E : Fault → Prop}

theorem ok_bind {α β : Type} (a : α) (f : α → Except Fault β) : (Except.ok a >>= f) = f a := rfl

theorem run_walkpgdir (d va : Nat) (m : Machine) :
    (walkpgdir d va false).run m = .ok ((tableAt m.mem d (pdx va)).map fun t => (t, ptx va), m) := by
  obtain ⟨r, m', hr, rfl, rfl⟩ := (walkpgdir_read (E := fun _ => False) (m := m) d va).exists_ok
  exact hr

theorem testPages_skip (hv : v / 1024 < 1024) (ht : tableAt m.mem d (v / 1024) = none) (k cnt : Nat) (hk : v % 1024 + k ≤ 1024) :
    (testPages L d v (k + cnt)).run m = (testPages L d (v + k) cnt).run m := by
  induction k generalizing v with
  | zero => rw [Nat.zero_add, Nat.add_zero]
  | succ k ih =>
    have hstep : (testPage L d v).run m = .ok ((), m) := by
      rw [testPage, StateT.run_bind, run_walkpgdir, pdx_page (by omega), ht]
      rfl
    rw [testPages, show k + 1 + cnt = k + cnt + 1 by omega, forRange, StateT.run_bind, hstep]
    by_cases hlast : k = 0
    · subst hlast
      rw [Nat.zero_add]
      rfl
    · rw [show v + (k + 1) = v + 1 + k by omega]
      refine (ih (v := v + 1) (by omega) ?_ (by omega))
      rwa [show (v + 1) / 1024 = v / 1024 by omega]

theorem deallocLoop_eq (hK : oldsz ≤ KERNBASE) : deallocLoop L d oldsz (PGSIZE * v) = testPages L d v (npages oldsz - v) := by
  induction hn : npages oldsz - v using Nat.strongRecOn generalizing v with
  | ind n ih =>
    subst hn
    have hle := npages_le_userPages hK
    have hu : userPages = 0x80000 := by decide
    rw [deallocLoop]
    by_cases hlt : PGSIZE * v < oldsz
    · have hvn := lt_npages.2 hlt
      obtain ⟨c, hc⟩ : ∃ c, npages oldsz - v = c + 1 := ⟨npages oldsz - v - 1, by omega⟩
      rw [dif_pos hlt, show PGSIZE * v + PGSIZE = PGSIZE * (v + 1) from rfl, ih _ (by omega) rfl,
        show npages oldsz - (v + 1) = c by omega]
      refine StateT.ext fun m => ?_
      rw [StateT.run_bind, run_walkpgdir, pdx_page (by omega), ptx_page]
      cases ht : tableAt m.mem d (v / 1024) with
      | none =>
        -- on to the next page table
        have hw : (PGSIZE * v / 2 ^ 22 + 1) * 2 ^ 22 = PGSIZE * (1024 * (v / 1024 + 1)) := by
          simp only [PGSIZE]
          omega
        rw [Option.map_none, ok_bind, hw, ih _ (by omega) rfl]
        by_cases hfit : 1024 * (v / 1024 + 1) ≤ npages oldsz
        · have hskip := testPages_skip (L := L) (by omega) ht (1024 * (v / 1024 + 1) - v)
            (npages oldsz - 1024 * (v / 1024 + 1)) (by omega)
          rw [show 1024 * (v / 1024 + 1) - v + (npages oldsz - 1024 * (v / 1024 + 1)) = npages oldsz - v by omega,
            show v + (1024 * (v / 1024 + 1) - v) = 1024 * (v / 1024 + 1) by omega] at hskip
          exact hskip.symm
        · have hskip := testPages_skip (L := L) (by omega) ht (npages oldsz - v) 0 (by omega)
          rw [show npages oldsz - 1024 * (v / 1024 + 1) = 0 by omega]
          exact hskip.symm
      | some t =>
        conv_rhs => rw [hc, testPages, forRange, testPage, StateT.run_bind, StateT.run_bind,
          run_walkpgdir, pdx_page (by omega), ptx_page, ht]
        rw [Option.map_some, ok_bind, ok_bind]
        dsimp only
        by_cases hp : has (entry (m.mem t) (v % 1024)) PTE_P
        · simp only [StateT.run_bind, StateT.run_get, pure_bind, hp, if_true, bind_assoc]
          rfl
        · simp only [StateT.run_bind, StateT.run_get, pure_bind, hp, if_false, StateT.run_pure]
          rfl
    · have : npages oldsz ≤ v := Nat.not_lt.1 fun h => hlt (lt_npages.1 h)
      rw [dif_neg hlt, Nat.sub_eq_zero_of_le this]
      rfl

theorem deallocWords_eq (hK : oldsz ≤ KERNBASE) (n : Nat) (hn : npages oldsz - v < n) :
    deallocWords L d oldsz n (PGSIZE * v) = deallocLoop L d oldsz (PGSIZE * v) := by
  induction n generalizing v with
  | zero => omega
  | succ n ih =>
    have hle := npages_le_userPages hK
    have hu : userPages = 0x80000 := by decide
    rw [deallocWords, deallocLoop]
    by_cases hlt : PGSIZE * v < oldsz
    · have hvn := lt_npages.2 hlt
      have hnext : (PGSIZE * v + PGSIZE) % 2 ^ 32 = PGSIZE * (v + 1) := by
        simp only [PGSIZE]
        omega
      have hskip : (((v / 1024 + 1) * 2 ^ 22 % 2 ^ 32 + 2 ^ 32 - PGSIZE) % 2 ^ 32 + PGSIZE) % 2 ^ 32 =
        PGSIZE * (1024 * (v / 1024 + 1)) := by
        simp only [PGSIZE]
        omega
      have hskip' : (PGSIZE * v / 2 ^ 22 + 1) * 2 ^ 22 = PGSIZE * (1024 * (v / 1024 + 1)) := by
        simp only [PGSIZE]
        omega
      have hih := ih (v := v + 1) (by omega)
      rw [if_pos hlt, dif_pos hlt, pdx_page (by omega), hskip, hskip', hnext,
        show PGSIZE * v + PGSIZE = PGSIZE * (v + 1) from rfl, ih (v := 1024 * (v / 1024 + 1)) (by omega)]
      exact hih ▸ rfl
    · rw [if_neg hlt, dif_neg hlt]

theorem deallocuvmWords_eq (hK : oldsz ≤ KERNBASE) {rounds : Nat} (hr : 2 ^ 20 ≤ rounds) :
    deallocuvmWords L d oldsz newsz rounds = deallocuvm L d oldsz newsz := by
  have hle := npages_le_userPages hK
  have hu := userPages_lt
  rw [deallocuvmWords, deallocuvm]
  split
  · rfl
  · have hstart : (newsz + PGSIZE - 1) % 2 ^ 32 / PGSIZE * PGSIZE = PGSIZE * npages newsz := by
      simp only [npages, PGSIZE, KERNBASE] at *
      omega
    rw [hstart, deallocWords_eq hK rounds (by omega), show pgRoundUp newsz = PGSIZE * npages newsz from Nat.mul_comm ..]

/-! ### The effect on a directory -/

/-- The pages `lo ≤ v < hi` that are present have been freed, in order, and their entries cleared; no
other word of the tables, no word of the directory and no other page has changed. -/
structure Cleared (d lo hi : Nat) (m m' : Machine) : Prop where
  dir : m'.mem d = m.mem d
  entries : ∀ i t j, tableAt m.mem d i = some t → j < 1024 → entry (m'.mem t) j =
    if (lo ≤ 1024 * i + j ∧ 1024 * i + j < hi) ∧ has (entry (m.mem t) j) PTE_P then 0 else entry (m.mem t) j
  freelist : m'.freelist = ((List.range' lo (hi - lo)).filterMap fun v => (pteAt m.mem d v).map frame).reverse ++ m.freelist
  others : ∀ x, (∀ i, tableAt m.mem d i ≠ some x) → (∀ v, lo ≤ v → v < hi →
    (pteAt m.mem d v).map frame ≠ some x) → m'.mem x = m.mem x
  rest : m' = { m with mem := m'.mem, freelist := m'.freelist }

theorem Cleared.pteAt_eq (h : Cleared d lo hi m m') (hv : v < lo ∨ hi ≤ v) : pteAt m'.mem d v = pteAt m.mem d v := by
  rw [pteAt, pteAt, tableAt_congr h.dir]
  cases ht : tableAt m.mem d (v / 1024) with
  | none => rfl
  | some t =>
    rw [Option.bind_some, Option.bind_some, h.entries _ t _ ht (Nat.mod_lt _ (by decide)), if_neg (by omega)]

theorem Cleared.trans (h : Cleared d lo mid m m') (h' : Cleared d mid hi m' m'') (h1 : lo ≤ mid)
    (h2 : mid ≤ hi) : Cleared d lo hi m m'' := by
  have htab := tableAt_congr h.dir
  refine ⟨h'.dir.trans h.dir, fun i t j ht hj => ?_, ?_, fun x ht hx => ?_, ?_⟩
  · rw [h'.entries i t j (by rw [htab, ht]) hj, h.entries i t j ht hj]
    by_cases hp : has (entry (m.mem t) j) PTE_P
    · by_cases hm : 1024 * i + j < mid
      · rw [if_neg (by omega)]
        simp only [hp, and_true]
        exact if_congr (by omega) rfl rfl
      · rw [if_neg (show ¬ ((lo ≤ 1024 * i + j ∧ 1024 * i + j < mid) ∧ _) by omega)]
        simp only [hp, and_true]
        exact if_congr (by omega) rfl rfl
    · simp only [hp, and_false, if_false]
  · have hsame : (List.range' mid (hi - mid)).filterMap (fun v => (pteAt m'.mem d v).map frame) =
        (List.range' mid (hi - mid)).filterMap fun v => (pteAt m.mem d v).map frame :=
      List.filterMap_congr fun v hv => by rw [h.pteAt_eq (.inr (List.mem_range'_1.1 hv).1)]
    have hsplit : List.range' lo (hi - lo) = List.range' lo (mid - lo) ++ List.range' mid (hi - mid) := by
      have := List.range'_append_1 (s := lo) (m := mid - lo) (n := hi - mid)
      rw [show lo + (mid - lo) = mid by omega, show mid - lo + (hi - mid) = hi - lo by omega] at this
      exact this.symm
    rw [h'.freelist, h.freelist, hsame, hsplit, List.filterMap_append, List.reverse_append, List.append_assoc]
  · rw [h'.others x (by rwa [htab]) fun v hv hv' => ?_, h.others x ht fun v hv hv' => hx v hv (by omega)]
    rw [h.pteAt_eq (.inr hv)]
    exact hx v (by omega) hv'
  · rw [h'.rest, h.rest]

theorem Cleared.of_none (h : ∀ v, lo ≤ v → v < hi → pteAt m.mem d v = none) : Cleared d lo hi m m := by
  refine ⟨rfl, fun i t j ht hj => ?_, ?_, fun _ _ _ => rfl, rfl⟩
  · split
    · next hc =>
      have hn := h _ hc.1.1 hc.1.2
      rw [pteAt_of_table (by rwa [show (1024 * i + j) / 1024 = i by omega]),
        show (1024 * i + j) % 1024 = j by omega, presentEntry, if_pos hc.2] at hn
      cases hn
    · rfl
  · rw [List.filterMap_eq_nil_iff.2 fun v hv => ?_]
    · rfl
    · have := List.mem_range'_1.1 hv
      rw [h v this.1 (by omega)]
      rfl

theorem testPage_spec (hg : Good L (dirPages m.mem d) m) (hv : v < userPages) :
    wp (testPage L d v) (fun _ m' => Cleared d v (v + 1) m m' ∧ Unmapped d v (v + 1) m m') E m := by
  have hu := userPages_lt
  rw [testPage]
  refine wp.bind (walkpgdir_read d (PGSIZE * v)) ?_
  rintro r m₁ ⟨rfl, rfl⟩
  rw [pdx_page (by omega), ptx_page]
  have habsent : pteAt m₁.mem d v = none → ∀ k, v ≤ k → k < v + 1 → pteAt m₁.mem d k = none := fun h k hk hk' => by
    rwa [show k = v by omega]
  cases ht : tableAt m₁.mem d (v / 1024) with
  | none =>
    have hnone : pteAt m₁.mem d v = none := by rw [pteAt, ht]; rfl
    exact ⟨.of_none (habsent hnone), .of_none (habsent hnone)⟩
  | some t =>
    refine wp_bind.2 (wp_get.2 ?_)
    dsimp only
    by_cases hp : has (entry (m₁.mem t) (v % 1024)) PTE_P
    · have hw : pteAt m₁.mem d v = some (entry (m₁.mem t) (v % 1024)) := by rw [pteAt_of_table ht, presentEntry, if_pos hp]
      have hr := hg.range _ (Multiset.mem_add.2 (.inr (user_mem hv hw)))
      have hn := hg.nodup_hand
      rw [if_pos hp]
      refine wp_bind.2 (wp_failIf.2 ⟨fun hz => ?_, fun _ => ?_⟩)
      · have := L.text
        have := L.lt_end
        rw [frame, hz] at hr
        simp only [EXTMEM] at *
        exact absurd hr.1 (by simp; omega)
      refine ((?_ : wp _ (fun _ m' => Cleared d v (v + 1) m₁ m') E m₁).and (freePte_spec (E :=
        E) hg ht hv hw)).mono (fun _ _ => id) fun _ => And.left
      obtain ⟨w, hwe⟩ : ∃ w, entry (m₁.mem t) (v % 1024) = w := ⟨_, rfl⟩
      rw [hwe] at hp hw hr ⊢
      refine wp_bind.2 (wp_bind.2 (wp_failIf.2 ⟨fun h => by omega, fun _ => ?_⟩))
      have hwt : ∀ {i t'}, tableAt m₁.mem d i = some t' → t' ≠ frame w := fun h => (user_ne_table hn hv hw h).symm
      have htd := table_ne_dir hn ht
      refine ⟨?_, fun i t' j ht' hj => ?_, ?_, fun x hx hx' => ?_, rfl⟩
      · change update (update m₁.mem (frame w) junk) t _ d = m₁.mem d
        rw [update_of_ne htd.symm, update_of_ne (user_ne_dir hn hv hw).symm]
      · change entry (update (update m₁.mem (frame w) junk) t ((update m₁.mem (frame w) junk t).putU32
          (4 * (v % 1024)) 0) t') j = _
        by_cases htt : t' = t
        · subst htt
          obtain rfl := table_inj hn ht ht'
          rw [update_self, entry_putU32 (Nat.mod_lt _ (by decide)), update_of_ne (hwt ht)]
          by_cases hjv : j = v % 1024
          · rw [if_pos hjv, hjv, hwe, if_pos ⟨by omega, hp⟩]
          · rw [if_neg hjv, if_neg (by omega)]
        · have hi : i ≠ v / 1024 := fun h => htt (Option.some.inj (by rw [← ht', h, ht]))
          rw [update_of_ne htt, update_of_ne (hwt ht'), if_neg (by omega)]
      · change frame w :: m₁.freelist = _
        rw [Nat.add_sub_cancel_left, List.range'_one, List.filterMap_cons, hw]
        rfl
      · change update (update m₁.mem (frame w) junk) t _ x = m₁.mem x
        have hxt : x ≠ t := fun h => hx _ (h ▸ ht)
        have hxw : x ≠ frame w := fun h => hx' v (Nat.le_refl v) (Nat.lt_succ_self v) (by rw [hw, h]; rfl)
        rw [update_of_ne hxt, update_of_ne hxw]
    · have hnone : pteAt m₁.mem d v = none := by rw [pteAt_of_table ht, presentEntry, if_neg hp]
      rw [if_neg hp]
      exact ⟨.of_none (habsent hnone), .of_none (habsent hnone)⟩

theorem testPages_spec (hg : Good L (dirPages m.mem d) m) (hle : lo ≤ hi) (hu : hi ≤ userPages) :
    wp (testPages L d lo (hi - lo)) (fun _ m' => Cleared d lo hi m m') E m := by
  have hstart : ∀ v, lo ≤ v → v < lo → pteAt m.mem d v = none := fun v h h' => by omega
  have hloop := @wp_forRange _ _ _ (fun v _ => testPage L d v) E (fun v (_ : Unit) m' =>
    Cleared d lo v m m' ∧ Unmapped d lo v m m')
    lo (hi - lo) () m ⟨.of_none hstart, .of_none hstart⟩ ?_
  · refine wp.post hloop fun _ m' h => ?_
    rw [show lo + (hi - lo) = hi by omega] at h
    exact h.1
  · rintro v _ m₁ hv hv' ⟨h₁, hun⟩
    refine wp.post (testPage_spec (hun.moves.good hg) (by omega)) fun _ m₂ h₂ => ?_
    exact ⟨h₁.trans h₂.1 hv (Nat.le_succ v), hun.trans h₂.2 hv (Nat.le_succ v)⟩

/-- `deallocuvm` does what testing the pages from `PGROUNDUP(newsz)` up to `oldsz` one by one does, from
every state of the machine and with at most a round for each page; where the pages of the directory are
different ones, each present page is freed once. -/
theorem deallocuvm_exact (hK : oldsz ≤ KERNBASE) (d newsz : Nat) :
    (∀ rounds, 2 ^ 20 ≤ rounds → deallocuvmWords L d oldsz newsz rounds =
      (do testPages L d (npages newsz) (npages oldsz - npages newsz); pure (if newsz < oldsz then newsz else oldsz))) ∧
    ∀ m rounds, 2 ^ 20 ≤ rounds → Good L (dirPages m.mem d) m → wp (deallocuvmWords L d oldsz newsz rounds)
      (fun r m' => r = (if newsz < oldsz then newsz else oldsz) ∧
        Cleared d (npages newsz) (npages oldsz) m m') (fun _ => False) m := by
  have hle := npages_le_userPages hK
  have heq : ∀ rounds, 2 ^ 20 ≤ rounds → deallocuvmWords L d oldsz newsz rounds =
      (do testPages L d (npages newsz) (npages oldsz - npages newsz); pure (if newsz < oldsz then newsz
        else oldsz)) := fun rounds hr => by
    rw [deallocuvmWords_eq hK hr, deallocuvm]
    split
    · next h =>
      have hn : npages oldsz ≤ npages newsz := by
        simp only [npages, PGSIZE]
        omega
      rw [Nat.sub_eq_zero_of_le hn, if_neg (Nat.not_lt.2 h)]
      rfl
    · next h =>
      rw [show pgRoundUp newsz = PGSIZE * npages newsz from Nat.mul_comm .., deallocLoop_eq hK, if_pos (Nat.not_le.1 h)]
  refine ⟨heq, fun m rounds hr hg => ?_⟩
  rw [heq rounds hr]
  by_cases hlt : newsz < oldsz
  · have hn : npages newsz ≤ npages oldsz := by
      simp only [npages, PGSIZE]
      omega
    exact wp.bind (testPages_spec hg hn hle) fun _ m' h => ⟨rfl, h⟩
  · have hn : npages oldsz ≤ npages newsz := by
      simp only [npages, PGSIZE]
      omega
    rw [Nat.sub_eq_zero_of_le hn]
    exact ⟨rfl, .of_none fun v h h' => by omega⟩

/-- From 8 MB and a page down to nothing: only the first of the three page tables exists. -/
theorem deallocuvm_onePage : tableAt onePage.mem 0x102 1 = none ∧ wp (deallocuvmWords smallLink 0x102 0x801000 0 (2 ^ 20))
    (fun r m' => r = 0 ∧ Cleared 0x102 (npages 0) (npages 0x801000) onePage m') (fun _ => False) onePage := by
  refine ⟨by decide +kernel, ?_⟩
  have hg := good_onePage
  generalize onePage = m₀ at *
  exact (deallocuvm_exact (L := smallLink) (by decide) 0x102 0).2 m₀ _ (Nat.le_refl _) hg

end Xv6.Vm
