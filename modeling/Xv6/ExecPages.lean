import Xv6.AddressSpace

/-!
# What `exec` reads and changes in an address space

`uva2ka` reads one entry, and `clearpteu` takes the user bit off one.
-/

namespace Xv6.Vm

open Prog Function

variable {L : Link} {d t i j v x sz va : Nat} {w f : BitVec 32} {m m' m'' : Machine} {E : Fault → Prop} {bs : List Byte}

theorem entry_of_pteAt (ht : tableAt m.mem d (v / 1024) = some t) (hp : has (entry (m.mem t) (v % 1024)) PTE_P) :
    pteAt m.mem d v = some (entry (m.mem t) (v % 1024)) := by
  rw [pteAt_of_table ht, presentEntry, if_pos hp]

theorem pgRoundDown_eq (va : Nat) : pgRoundDown va = PGSIZE * (va / PGSIZE) := Nat.mul_comm ..

/-- User code has access to page `v`. -/
def Access (mem : Nat → Page) (d v : Nat) : Prop := ∃ w, pteAt mem d v = some w ∧ has w PTE_U

theorem uva2ka_spec (hv : v < 2 ^ 20) (ht : tableAt m.mem d (v / 1024) ≠ none) :
    wp (uva2ka d (PGSIZE * v)) (fun r m' => m' = m ∧ (r = none → ¬ Access m.mem d v) ∧
      ∀ x, r = some x → ∃ w, pteAt m.mem d v = some w ∧ has w PTE_U ∧ x = frame w) E m := by
  obtain ⟨t, ht⟩ := Option.ne_none_iff_exists'.1 ht
  rw [uva2ka]
  refine wp.bind (walkpgdir_read d (PGSIZE * v)) ?_
  rintro r m₁ ⟨rfl, rfl⟩
  rw [pdx_page hv, ptx_page, ht, Option.map_some, loadPte]
  refine wp_bind.2 (wp_bind.2 (wp_get.2 ((wp_pure _).2 ?_)))
  by_cases hp : has (entry (m₁.mem t) (v % 1024)) PTE_P
  · rw [if_neg (not_not.2 hp)]
    by_cases hu : has (entry (m₁.mem t) (v % 1024)) PTE_U
    · rw [if_neg (not_not.2 hu)]
      refine ⟨rfl, fun h => (nomatch h), ?_⟩
      rintro x ⟨⟩
      exact ⟨_, entry_of_pteAt ht hp, hu, rfl⟩
    · rw [if_pos hu]
      refine ⟨rfl, fun _ => ?_, fun x h => (nomatch h)⟩
      rintro ⟨w, hw, hwu⟩
      rw [entry_of_pteAt ht hp] at hw
      exact hu (Option.some.inj hw ▸ hwu)
  · rw [if_pos hp]
    refine ⟨rfl, fun _ => ?_, fun x h => (nomatch h)⟩
    rintro ⟨w, hw, -⟩
    rw [pteAt_of_table ht, presentEntry, if_neg hp] at hw
    cases hw

/-! ### `clearpteu` -/

theorem and_not_user (w g : BitVec 32) (hg : ~~~PTE_U &&& g = g) : w &&& ~~~PTE_U &&& g = w &&& g := by
  rw [BitVec.and_assoc, hg]

theorem presentEntry_and_not_user (w : BitVec 32) : presentEntry (w &&& ~~~PTE_U) = (presentEntry w).map (· &&& ~~~PTE_U) := by
  have hp : has (w &&& ~~~PTE_U) PTE_P ↔ has w PTE_P := by rw [has, has, and_not_user w PTE_P (by decide)]
  rw [presentEntry, presentEntry]
  by_cases h : has w PTE_P
  · rw [if_pos (hp.2 h), if_pos h, Option.map_some]
  · rw [if_neg fun hc => h (hp.1 hc), if_neg h, Option.map_none]

theorem frame_and_not_user (w : BitVec 32) : frame (w &&& ~~~PTE_U) = frame w := by
  rw [frame, frame, pteAddr, pteAddr, and_not_user w _ (by decide)]

theorem clearpteu_spec (hg : Good L (dirPages m.mem d) m) (hva : va < 2 ^ 32) (ht : tableAt m.mem d (va / PGSIZE / 1024) ≠ none) :
    wp (clearpteu d va) (fun _ m' => Moves (dirPages m.mem d) (dirPages m'.mem d) m m' ∧ tableAt m'.mem d = tableAt m.mem d ∧
      pteAt m'.mem d = update (pteAt m.mem d) (va / PGSIZE) ((pteAt m.mem d (va / PGSIZE)).map (· &&& ~~~PTE_U))) E m := by
  obtain ⟨v, hv⟩ : ∃ v, va / PGSIZE = v := ⟨_, rfl⟩
  rw [hv] at ht ⊢
  have hn := hg.nodup_hand
  have hpdx : pdx va = v / 1024 := by
    simp only [pdx, PGSIZE] at *
    omega
  have hptx : ptx va = v % 1024 := by
    simp only [ptx, PGSIZE] at *
    omega
  have hj : v % 1024 < 1024 := Nat.mod_lt _ (by decide)
  have hvv : 1024 * (v / 1024) + v % 1024 = v := Nat.div_add_mod v 1024
  obtain ⟨t, ht⟩ := Option.ne_none_iff_exists'.1 ht
  rw [clearpteu]
  refine wp.bind (walkpgdir_read d va) ?_
  rintro r m₁ ⟨rfl, rfl⟩
  rw [hpdx, hptx, ht]
  simp only [Option.map_some]
  refine wp_bind.2 (wp_get.2 (wp_setEntry.2 ?_))
  obtain ⟨w, hw⟩ : ∃ w, entry (m₁.mem t) (v % 1024) = w := ⟨_, rfl⟩
  have hold : pteAt m₁.mem d v = presentEntry w := by rw [pteAt_of_table ht, hw]
  rw [hw, hold, ← presentEntry_and_not_user]
  have hmv := Moves.setPte (w := w &&& ~~~PTE_U) hn ht hj
  have hheld : userHeld v (presentEntry (w &&& ~~~PTE_U)) = userHeld v (presentEntry w) := by
    rw [presentEntry_and_not_user, userHeld, userHeld, Option.map_map]
    congr 3
    exact funext frame_and_not_user
  have hpte := pteAt_setPte (w := w &&& ~~~PTE_U) (.of_nodup hn) ht hj
  have htab := tableAt_setPte (j := v % 1024) (w := w &&& ~~~PTE_U) (.of_nodup hn) ht
  rw [hvv, hold, hheld] at hmv
  rw [hvv] at hpte
  refine ⟨⟨?_, fun y hy => update_of_ne ?_ .., rfl, List.suffix_rfl⟩, htab, hpte⟩
  · have hb := hmv.bal
    rw [← add_assoc, ← add_assoc] at hb
    exact add_right_cancel hb
  · rintro rfl
    exact hy (Multiset.mem_add.2 (.inr (table_mem ht)))

end Xv6.Vm
