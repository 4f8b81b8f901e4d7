import Xv6.GrowProc

/-!
# `mappages` on machine words, and the kernel's mapping

`mapWords` is the loop of `mappages` with its 32-bit arithmetic; it ends when `a` is the last page. It
needs nothing of the directory but that the page tables are different pages, so that it can be used for
pages that no process owns: those of the kernel and of the devices.
-/

namespace Xv6.Vm

open Prog Function

def mapWords (d : Nat) (perm : BitVec 32) (last : Nat) : (rounds a pa : Nat) → VM Bool
  | 0, _, _ => throw .spins
  | n + 1, a, pa => do
    match ← walkpgdir d a true with
    | none => pure false
    | some (t, j) => do
      failIf (has (entry ((← get).mem t) j) PTE_P) (.panic "remap")
      setEntry t j (BitVec.ofNat 32 pa ||| perm ||| PTE_P)
      if a = last then pure true else mapWords d perm last n ((a + PGSIZE) % 2 ^ 32) ((pa + PGSIZE) % 2 ^ 32)

/-- `mappages`, its loop bounded by a number of rounds. -/
def mappagesWords (d va size pa : Nat) (perm : BitVec 32) (rounds : Nat) : VM Bool :=
  mapWords d perm (pgRoundDown ((va + size + 2 ^ 32 - 1) % 2 ^ 32)) rounds (pgRoundDown va) pa

def mapAllWords (d rounds : Nat) : List Kmap → VM Bool
  | [] => pure true
  | k :: ks => do
    if ← mappagesWords d k.virt k.size k.phys k.perm rounds then mapAllWords d rounds ks else pure false

/-- `setupkvm` with `mappagesWords`. -/
def setupkvmWords (L : Link) (rounds : Nat) : VM (Option Nat) := do
  match ← kalloc with
  | none => pure none
  | some d => do
    setPage d (Block.zero PGSIZE)
    failIf (DEVSPACE < KERNBASE + PHYSTOP) (.panic "PHYSTOP too high")
    if ← mapAllWords d rounds (kmap L) then pure (some d)
    else do
      freevm L d
      pure none

/-- The directory `d`, its page tables and the free pages are different pages. -/
structure Tabled (d : Nat) (m : Machine) : Prop where
  nodup : ((m.freelist : Multiset Nat) + ({d} + tables m.mem d)).Nodup
  small : ∀ x ∈ m.freelist, x < 2 ^ 20

/-- The entry for page `lo + i` of pages mapped from `pa` on. -/
def pageEntry (pa : Nat) (perm : BitVec 32) (i : Nat) : BitVec 32 := BitVec.ofNat 32 (pa + PGSIZE * i) ||| perm ||| PTE_P

/-- The pages `lo ≤ v < lo + cnt` are mapped from `pa` on, and the others as before. -/
def MappedFrom (d lo cnt pa : Nat) (perm : BitVec 32) (mem mem' : Nat → Page) : Prop :=
  ∀ v, pteAt mem' d v = if lo ≤ v ∧ v < lo + cnt then some (pageEntry pa perm (v - lo)) else pteAt mem d v

variable {L : Link} {d v x lo cnt pa : Nat} {perm : BitVec 32} {m m' m'' : Machine} {E : Fault → Prop}

/-! ### Page tables -/

namespace Tabled

variable (h : Tabled d m)
include h

theorem tree : Tree m.mem d := by
  have hn := (Multiset.nodup_add.1 h.nodup).2.1
  rw [Multiset.nodup_add] at hn
  refine ⟨fun {i t} ht hd => ?_, fun {i j t} hi hj => gather_inj hn.2.1 (tableAt_lt hi) (tableAt_lt hj) hi hj⟩
  have hmem : t ∈ tables m.mem d := mem_gather.2 ⟨i, tableAt_lt ht, ht⟩
  rw [hd] at hmem
  exact Multiset.disjoint_left.1 hn.2.2 (Multiset.mem_singleton_self d) hmem

theorem free (hx : x ∈ m.freelist) : x ≠ d ∧ ∀ k, tableAt m.mem d k ≠ some x := by
  have hout := Multiset.disjoint_left.1 (Multiset.nodup_add.1 h.nodup).2.2 (Multiset.mem_coe.2 hx)
  refine ⟨?_, fun k hk => hout ?_⟩
  · rintro rfl
    exact hout (by simp)
  · exact Multiset.mem_add.2 (.inr (mem_gather.2 ⟨k, tableAt_lt hk, hk⟩))

theorem congr (hf : (m'.freelist : Multiset Nat) = m.freelist) (ht : tableAt m'.mem d = tableAt m.mem d) : Tabled d m' := by
  refine ⟨?_, fun x hx => h.small x ?_⟩
  · rw [hf, tables, ht]
    exact h.nodup
  · rw [← Multiset.mem_coe, ← hf]
    exact hx

theorem withTable {t i : Nat} (hi : i < 1024) (hnone : tableAt m.mem d i = none)
    (hf : (m'.freelist : Multiset Nat) + {t} = m.freelist)
    (hm : m'.mem = Vm.withTable m.mem d i t) : Tabled d m' ∧ pteAt m'.mem d = pteAt m.mem d ∧ tableAt m'.mem d i = some t := by
  have hmem : t ∈ m.freelist := by
    rw [← Multiset.mem_coe, ← hf]
    simp
  obtain ⟨htd, hnew⟩ := h.free hmem
  have hlt := h.small t hmem
  rw [hm]
  refine ⟨⟨?_, fun x hx => h.small x ?_⟩, pteAt_withTable hlt hi hnone htd hnew h.tree, ?_⟩
  · have hn := h.nodup
    rw [← hf] at hn
    rw [hm, dirPages_withTable_tables hlt hi hnone]
    convert hn using 1
    abel
  · rw [← Multiset.mem_coe, ← hf]
    exact Multiset.mem_add.2 (.inl (Multiset.mem_coe.2 hx))
  · rw [tableAt_withTable hlt hi, update_self]

end Tabled

theorem walkpgdir_tabled (h : Tabled d m) (va : Nat) :
    wp (walkpgdir d va true) (fun r m' => Tabled d m' ∧ pteAt m'.mem d = pteAt m.mem d ∧
      ∀ t j, r = some (t, j) → j = ptx va ∧ tableAt m'.mem d (pdx va) = some t) E m := by
  have hi : pdx va < 1024 := Nat.mod_lt _ (by decide)
  refine wp_walkpgdir_alloc (fun t ht => ⟨h, rfl, ?_⟩) (fun _ m₁ hk hmem _ => ?_) fun hnone t m₁ hk => ?_
  · rintro _ _ ⟨⟩
    exact ⟨rfl, ht⟩
  · have hf := hk.bal
    rw [add_zero, add_zero] at hf
    refine ⟨h.congr hf (by rw [hmem]), by rw [hmem], ?_⟩
    rintro t j ⟨⟩
  · have hf := hk.bal
    rw [add_zero] at hf
    have hfree : t ∈ m.freelist := by
      rw [← Multiset.mem_coe, ← hf]
      simp
    obtain ⟨htab, hpte, hat⟩ : Tabled d { m₁ with mem := withTable m.mem d (pdx va) t } ∧ _ := h.withTable hi hnone hf rfl
    refine ⟨(h.free hfree).1.symm, htab, hpte, ?_⟩
    rintro t' j ⟨⟩
    exact ⟨rfl, hat⟩

/-! ### The loop -/

theorem mapLoop_exact (perm : BitVec 32) : ∀ (cnt : Nat) {v pa : Nat} {m : Machine}, v + cnt ≤ 2 ^ 20 →
    (∀ k, v ≤ k → k < v + cnt → pteAt m.mem d k = none) → Tabled d m →
    wp (mapLoop d perm cnt (PGSIZE * v) pa) (fun r m' => Tabled d m' ∧ (r = true → MappedFrom d v cnt pa perm m.mem m'.mem) ∧
      ∀ k, k < v ∨ v + cnt ≤ k → pteAt m'.mem d k = pteAt m.mem d k) E m
  | 0, v, pa, m, _, _, h => by
    refine ⟨h, fun _ k => ?_, fun _ _ => rfl⟩
    rw [if_neg (by omega)]
  | cnt + 1, v, pa, m, hlt, hnone, h => by
    rw [mapLoop]
    refine wp.bind (walkpgdir_tabled h (PGSIZE * v)) ?_
    rintro (_ | ⟨t, j⟩) m₁ ⟨h₁, hpte₁, hsome⟩
    · exact ⟨h₁, fun hf => absurd hf (by decide), fun k _ => by rw [hpte₁]⟩
    obtain ⟨rfl, ht⟩ := hsome t j rfl
    rw [pdx_page (by omega)] at ht
    rw [ptx_page v]
    have hj : v % 1024 < 1024 := Nat.mod_lt _ (by decide)
    have hv := hnone v (Nat.le_refl v) (by omega)
    refine wp_bind.2 (wp_get.2 (wp_bind.2 (wp_failIf.2 ⟨fun hp => ?_, fun _ => wp_bind.2 (wp_setEntry.2 ?_)⟩)))
    · -- there is no entry yet
      rw [← hpte₁, pteAt_of_table ht, presentEntry, if_pos hp] at hv
      cases hv
    · have htab := tableAt_setPte (j := v % 1024) (w := BitVec.ofNat 32 pa ||| perm ||| PTE_P) h₁.tree ht
      have hpte := pteAt_setPte (w := BitVec.ofNat 32 pa ||| perm ||| PTE_P) h₁.tree ht hj
      have hpe : presentEntry (BitVec.ofNat 32 pa ||| perm ||| PTE_P) = some (BitVec.ofNat 32 pa ||| perm ||| PTE_P) := by
        rw [presentEntry, if_pos (has_or.2 (.inr (by decide)))]
      rw [Nat.div_add_mod, hpe, hpte₁] at hpte
      have h₂ : Tabled d { m₁ with
          mem := update m₁.mem t
            ((m₁.mem t).putU32 (4 * (v % 1024)) (BitVec.ofNat 32 pa ||| perm ||| PTE_P)) } :=
        h₁.congr rfl htab
      rw [show PGSIZE * v + PGSIZE = PGSIZE * (v + 1) by rw [Nat.mul_add, Nat.mul_one]]
      refine wp.post (mapLoop_exact perm cnt (by omega) (fun k hk hk' => ?_) h₂) ?_
      · rw [hpte, update_of_ne (by omega)]
        exact hnone k (by omega) (by omega)
      · rintro r m' ⟨h', hyes, hrest⟩
        refine ⟨h', fun hr k => ?_, fun k hk => ?_⟩
        · rw [hyes hr k]
          by_cases hkv : k = v
          · subst hkv
            rw [if_neg (by omega), if_pos (by omega), hpte, update_self, Nat.sub_self]
            rfl
          · by_cases hin : v ≤ k ∧ k < v + (cnt + 1)
            · rw [if_pos (by omega), if_pos hin]
              simp only [pageEntry]
              rw [show pa + PGSIZE + PGSIZE * (k - (v + 1)) = pa + PGSIZE * (k - v) by simp only [PGSIZE]; omega]
            · rw [if_neg (by omega), if_neg hin, hpte, update_of_ne hkv]
        · rw [hrest k (by omega), hpte, update_of_ne (by omega)]

/-! ### Words -/

theorem mapWords_eq : ∀ (cnt : Nat) {n v pa pa' : Nat}, cnt < n → v + cnt < 2 ^ 20 → pa' % 2 ^ 32 = pa % 2 ^ 32 →
    mapWords d perm (PGSIZE * (v + cnt)) n (PGSIZE * v) pa' = mapLoop d perm (cnt + 1) (PGSIZE * v) pa
  | cnt, 0, v, pa, pa', hn, _, _ => absurd hn (Nat.not_lt_zero cnt)
  | cnt, n + 1, v, pa, pa', hn, hv, hpa => by
    have hw : BitVec.ofNat 32 pa' = BitVec.ofNat 32 pa := by
      rw [← BitVec.toNat_inj, BitVec.toNat_ofNat, BitVec.toNat_ofNat, hpa]
    rw [mapWords, mapLoop, hw]
    refine bind_congr fun r => ?_
    rcases r with _ | ⟨t, j⟩
    · rfl
    refine bind_congr fun m => bind_congr fun _ => bind_congr fun _ => ?_
    cases cnt with
    | zero =>
      rw [Nat.add_zero, if_pos rfl]
      rfl
    | succ cnt =>
      have hne : PGSIZE * v ≠ PGSIZE * (v + (cnt + 1)) := by
        simp only [PGSIZE]
        omega
      have ha : (PGSIZE * v + PGSIZE) % 2 ^ 32 = PGSIZE * (v + 1) := by
        simp only [PGSIZE]
        omega
      rw [if_neg hne, ha, show v + (cnt + 1) = v + 1 + cnt by omega, show PGSIZE * v + PGSIZE = PGSIZE * (v + 1) from rfl]
      exact mapWords_eq cnt (by omega) (by omega) (by omega)

section Range

variable {va size rounds : Nat} (hsz : 1 ≤ size) (hle : va + size ≤ 2 ^ 32)
include hsz hle

theorem mappages_pages (d pa : Nat) (perm : BitVec 32) : ∃ cnt, va / PGSIZE + cnt < 2 ^ 20 ∧
    (∀ v, va / PGSIZE ≤ v ∧ v < va / PGSIZE + (cnt + 1) ↔ PGSIZE * v < va + size ∧ va < PGSIZE * (v + 1)) ∧
    mappages d va size pa perm = mapLoop d perm (cnt + 1) (PGSIZE * (va / PGSIZE)) pa ∧
    pgRoundDown ((va + size + 2 ^ 32 - 1) % 2 ^ 32) = PGSIZE * (va / PGSIZE + cnt) := by
  refine ⟨(va + size - 1) / PGSIZE - va / PGSIZE, ?_, fun v => ?_, ?_, ?_⟩
  · simp only [PGSIZE]
    omega
  · simp only [PGSIZE]
    omega
  · rw [mappages]
    congr 1
    · simp only [pgRoundDown, PGSIZE]
      omega
    · rw [pgRoundDown, Nat.mul_comm]
  · simp only [pgRoundDown, PGSIZE]
    omega

theorem mappagesWords_eq (hr : 2 ^ 20 ≤ rounds) (d pa : Nat) (perm : BitVec 32) :
    mappagesWords d va size pa perm rounds = mappages d va size pa perm := by
  obtain ⟨cnt, hlt, -, hmap, hlast⟩ := mappages_pages hsz hle d pa perm
  rw [mappagesWords, hmap, hlast, show pgRoundDown va = PGSIZE * (va / PGSIZE) from Nat.mul_comm _ _]
  exact mapWords_eq cnt (Nat.lt_of_lt_of_le (Nat.lt_of_le_of_lt (Nat.le_add_left cnt _) hlt) hr) hlt rfl

theorem mappages_exact_spec (hnone : ∀ v, PGSIZE * v < va + size → va < PGSIZE * (v + 1) →
    pteAt m.mem d v = none) (h : Tabled d m) :
    wp (mappages d va size pa perm) (fun r m' => Tabled d m' ∧ (r = true → ∀ v, pteAt m'.mem d v =
      if PGSIZE * v < va + size ∧ va < PGSIZE * (v + 1) then some (pageEntry pa perm (v - va / PGSIZE))
        else pteAt m.mem d v)) E m := by
  obtain ⟨cnt, hlt, hin, hmap, -⟩ := mappages_pages hsz hle d pa perm
  rw [hmap]
  refine wp.post (mapLoop_exact perm (cnt + 1) (by omega) (fun k hk hk' => ?_) h) fun r m' h' => ⟨h'.1, fun hr v => ?_⟩
  · exact hnone k ((hin k).1 ⟨hk, hk'⟩).1 ((hin k).1 ⟨hk, hk'⟩).2
  · rw [h'.2.1 hr v]
    exact if_congr (hin v) rfl rfl

end Range

theorem addr_or (a b : BitVec 32) : pteAddr (a ||| b) = pteAddr a ||| pteAddr b := BitVec.and_or_distrib_right

theorem flags_or (a b : BitVec 32) : pteFlags (a ||| b) = pteFlags a ||| pteFlags b := BitVec.and_or_distrib_right

theorem flags_of_addr_zero {a : BitVec 32} (h : pteAddr a = 0) : pteFlags a = a := by
  have hsplit : a &&& (~~~0xFFF ||| 0xFFF) = a &&& ~~~0xFFF ||| a &&& 0xFFF := BitVec.and_or_distrib_left
  have hones : (~~~0xFFF ||| 0xFFF : BitVec 32) = BitVec.allOnes 32 := by decide
  rw [hones, BitVec.and_allOnes] at hsplit
  unfold pteAddr at h
  rw [h] at hsplit
  exact (hsplit.trans BitVec.zero_or).symm

theorem flags_phys (q : Nat) : pteFlags (BitVec.ofNat 32 (PGSIZE * q)) = 0 := by
  rw [pteFlags, ← phys_and_mask q, BitVec.and_assoc]
  exact BitVec.and_zero

theorem pageEntry_fields (hpa : pa % PGSIZE = 0) (hp : pteAddr perm = 0) (i : Nat) :
    pteAddr (pageEntry pa perm i) = BitVec.ofNat 32 (pa + PGSIZE * i) ∧ pteFlags (pageEntry pa perm i) = perm ||| PTE_P := by
  obtain ⟨q, hq⟩ : ∃ q, pa + PGSIZE * i = PGSIZE * q := ⟨(pa + PGSIZE * i) / PGSIZE, by simp only [PGSIZE] at *; omega⟩
  have hP : pteAddr PTE_P = 0 ∧ pteFlags PTE_P = PTE_P := by decide
  rw [pageEntry, hq, addr_or, addr_or, flags_or, flags_or, flags_phys, flags_of_addr_zero hp, hp, hP.1, hP.2]
  simp only [BitVec.ofNat_eq_ofNat, BitVec.or_zero, BitVec.zero_or]
  exact ⟨phys_and_mask q, trivial⟩

/-! ### The rows of `kmap` -/

/-- Page `v` lies in the row. -/
def Kmap.Has (k : Kmap) (v : Nat) : Prop := k.virt ≤ PGSIZE * v ∧ PGSIZE * v < k.virt + k.size

structure Kmap.Ok (k : Kmap) : Prop where
  virt : k.virt % PGSIZE = 0
  phys : k.phys % PGSIZE = 0
  whole : k.size % PGSIZE = 0
  pos : 1 ≤ k.size
  le : k.virt + k.size ≤ 2 ^ 32
  fits : k.phys + k.size ≤ 2 ^ 32
  perm : pteAddr k.perm = 0 ∧ ¬ has k.perm PTE_U

def KernelMap (L : Link) (mem : Nat → Page) (d : Nat) : Prop :=
  ∀ k ∈ kmap L, ∀ v, k.Has v → pteAt mem d v = some (pageEntry k.phys k.perm (v - k.virt / PGSIZE))

theorem Kmap.Ok.has_iff {k : Kmap} (h : k.Ok) : k.Has v ↔ PGSIZE * v < k.virt + k.size ∧ k.virt < PGSIZE * (v + 1) := by
  have h1 := h.virt
  have h2 := h.whole
  unfold Kmap.Has
  simp only [PGSIZE] at *
  omega

theorem kmap_ok (L : Link) : ∀ k ∈ kmap L, k.Ok := by
  have h0 := L.aligned
  have h1 := L.text
  have h2 := L.lt_end
  have h3 := L.end_le
  simp only [PGSIZE, EXTMEM, PHYSTOP] at h0 h1 h2 h3
  simp only [kmap, List.forall_mem_cons, List.not_mem_nil, false_imp_iff, implies_true, and_true]
  have hW : pteAddr PTE_W = 0 ∧ ¬ has PTE_W PTE_U := by decide
  have hR : pteAddr 0 = 0 ∧ ¬ has 0 PTE_U := by decide
  refine ⟨⟨?_, ?_, ?_, ?_, ?_, ?_, hW⟩, ⟨?_, ?_, ?_, ?_, ?_, ?_, hR⟩, ⟨?_, ?_, ?_, ?_, ?_, ?_, hW⟩, ?_, ?_, ?_, ?_, ?_, ?_, hW⟩
  all_goals simp only [PGSIZE, EXTMEM, PHYSTOP, KERNLINK, KERNBASE, DEVSPACE] <;> omega

theorem kmap_ordered (L : Link) : (kmap L).Pairwise fun k k' => k.virt + k.size ≤ k'.virt := by
  have h1 := L.text
  have h2 := L.lt_end
  have h3 := L.end_le
  simp only [EXTMEM, PHYSTOP] at h1 h3
  simp only [kmap, List.pairwise_cons, List.forall_mem_cons, List.not_mem_nil, false_imp_iff,
    implies_true, and_true, List.Pairwise.nil,
    EXTMEM, PHYSTOP, KERNLINK, KERNBASE, DEVSPACE]
  omega

theorem mapAll_exact : ∀ (ks : List Kmap) {m : Machine}, (∀ k ∈ ks, k.Ok) → (ks.Pairwise fun k k' => k.virt + k.size ≤ k'.virt) →
    (∀ k ∈ ks, ∀ v, k.Has v → pteAt m.mem d v = none) → Tabled d m →
    wp (mapAll d ks) (fun r m' => r = true →
      (∀ k ∈ ks, ∀ v, k.Has v → pteAt m'.mem d v = some (pageEntry k.phys k.perm (v - k.virt / PGSIZE))) ∧
      ∀ v, (∀ k ∈ ks, ¬ k.Has v) → pteAt m'.mem d v = pteAt m.mem d v) E m
  | [], m, _, _, _, _ => fun _ => ⟨by simp, fun _ _ => rfl⟩
  | k :: ks, m, hok, hord, hnone, h => by
    have hk := hok k List.mem_cons_self
    obtain ⟨hbefore, hord'⟩ := List.pairwise_cons.1 hord
    have hdisj : ∀ k' ∈ ks, ∀ v, k'.Has v → ¬ k.Has v := fun k' hk' v hv hv' => by
      have := hbefore k' hk'
      have := hv.1
      have := hv'.2
      omega
    rw [mapAll]
    refine wp.bind (mappages_exact_spec hk.pos hk.le (fun v h1 h2 => hnone k List.mem_cons_self v (hk.has_iff.2 ⟨h1, h2⟩)) h) ?_
    rintro (_ | _) m₁ ⟨h₁, hpte⟩
    · exact (wp_pure _).2 fun hf => absurd hf (by decide)
    have hin (v : Nat) (hv : k.Has v) := (hpte rfl v).trans (if_pos (hk.has_iff.1 hv))
    have hout (v : Nat) (hv : ¬ k.Has v) := (hpte rfl v).trans (if_neg fun h => hv (hk.has_iff.2 h))
    rw [if_pos rfl]
    refine wp.post (mapAll_exact ks (fun k' h' => hok k' (List.mem_cons_of_mem k h')) hord'
      (fun k' h' v hv => ?_) h₁) fun r m' h' hr => ?_
    · rw [hout v (hdisj k' h' v hv)]
      exact hnone k' (List.mem_cons_of_mem k h') v hv
    · obtain ⟨hrows, hrest⟩ := h' hr
      refine ⟨List.forall_mem_cons.2 ⟨fun v hv => ?_, hrows⟩, fun v hv => ?_⟩
      · rw [hrest v fun k' h' hv' => hdisj k' h' v hv' hv, hin v hv]
      · rw [hrest v fun k' h' => hv k' (List.mem_cons_of_mem k h'), hout v (hv k List.mem_cons_self)]

theorem Good.tabled (h : Good L (dirPages m.mem d) m) : Tabled d m :=
  ⟨(h.of_le (Multiset.le_add_right _ _)).nodup, fun _ hx => h.lt (Multiset.mem_add.2 (.inl (Multiset.mem_coe.2 hx)))⟩

theorem setupkvm_exact (hg : Good L 0 m) :
    wp (setupkvm L) (fun r m' => ∀ d, r = some d → KernelMap L m'.mem d) (fun _ => True) m := by
  rw [setupkvm]
  refine wp.bind kalloc_spec ?_
  rintro (_ | d) m₁ ⟨hk, -, -⟩
  · exact (wp_pure _).2 fun _ hn => absurd hn (by simp)
  refine wp_bind.2 (wp_setPage.2 (wp_bind.2 (wp_failIf.2 ⟨fun _ => trivial, fun _ => ?_⟩)))
  have hk₂ := hk.trans (Moves.setPage d (Block.zero PGSIZE) m₁)
  have hzero : ({ m₁ with mem := update m₁.mem d (Block.zero PGSIZE) } : Machine).mem d = Block.zero PGSIZE := update_self ..
  rw [← dirPages_zero hzero] at hk₂
  refine wp.bind (mapAll_exact (kmap L) (kmap_ok L) (kmap_ordered L) (fun _ _ _ _ => pteAt_zero hzero) (hk₂.good hg).tabled) ?_
  rintro (_ | _) m₃ h₃
  · refine wp.bind (wp_run.mono (fun _ _ _ => trivial) fun _ _ => trivial) fun _ _ (_ : True) => ?_
    exact (wp_pure _).2 fun _ hn => absurd hn (by simp)
  · rw [if_pos rfl]
    exact (wp_pure _).2 fun _ hd => Option.some.inj hd ▸ (h₃ rfl).1

theorem mapAllWords_eq {rounds : Nat} (hr : 2 ^ 20 ≤ rounds) (d : Nat) : ∀ ks : List Kmap,
    (∀ k ∈ ks, k.Ok) → mapAllWords d rounds ks = mapAll d ks
  | [], _ => rfl
  | k :: ks, hok => by
    have hk := hok k List.mem_cons_self
    rw [mapAllWords, mapAll, mappagesWords_eq hk.pos hk.le hr, mapAllWords_eq hr d ks fun k' h' =>
      hok k' (List.mem_cons_of_mem k h')]

theorem setupkvmWords_eq {rounds : Nat} (hr : 2 ^ 20 ≤ rounds) : setupkvmWords L rounds = setupkvm L := by
  unfold setupkvmWords
  simp only [mapAllWords_eq hr _ _ (kmap_ok L)]
  rfl

/-- The address `a` is translated to `pa` with the permissions `perm`, and not for user code. -/
def Translates (mem : Nat → Page) (d a pa : Nat) (perm : BitVec 32) : Prop :=
  ∃ w, pteAt mem d (a / PGSIZE) = some w ∧ (pteAddr w).toNat + a % PGSIZE = pa ∧ pteFlags w = perm ||| PTE_P ∧ ¬ has w PTE_U

theorem KernelMap.translates {mem : Nat → Page} (h : KernelMap L mem d) {k : Kmap} (hk : k ∈ kmap L) {a : Nat} (ha : k.virt ≤ a)
    (ha' : a < k.virt + k.size) : Translates mem d a (k.phys + (a - k.virt)) k.perm := by
  have hok := kmap_ok L k hk
  obtain ⟨h1, h2, h3, h4⟩ := (⟨hok.virt, hok.phys, hok.whole, hok.fits⟩ : _ ∧ _ ∧ _ ∧ _)
  have hv : k.Has (a / PGSIZE) := by
    unfold Kmap.Has
    simp only [PGSIZE] at *
    omega
  obtain ⟨haddr, hflags⟩ := pageEntry_fields hok.phys hok.perm.1 (a / PGSIZE - k.virt / PGSIZE)
  refine ⟨_, h k hk _ hv, ?_, hflags, fun hu => ?_⟩
  · rw [haddr, BitVec.toNat_ofNat]
    simp only [PGSIZE] at *
    omega
  · obtain ⟨q, hq⟩ : ∃ q, k.phys + PGSIZE * (a / PGSIZE - k.virt / PGSIZE) = PGSIZE * q := by
      refine ⟨k.phys / PGSIZE + (a / PGSIZE - k.virt / PGSIZE), ?_⟩
      simp only [PGSIZE] at *
      omega
    rw [pageEntry, hq, has_or, has_or] at hu
    rcases hu with (hu | hu) | hu
    · exact not_has_phys q (by decide) hu
    · exact hok.perm.2 hu
    · exact absurd hu (by decide)

/-- `mappages` maps the pages that meet `[va, va + size)` and no others; `setupkvm`, whose rows meet its
conditions, then maps all of the kernel. -/
theorem mappages_exact (d : Nat) {va size pa rounds : Nat} (perm : BitVec 32) (hsz : 1 ≤ size)
    (hle : va + size ≤ 2 ^ 32) (hpa : pa % PGSIZE = 0)
    (hr : 2 ^ 20 ≤ rounds) {m : Machine} (h : Tabled d m)
    (hnone : ∀ v, PGSIZE * v < va + size → va < PGSIZE * (v + 1) → pteAt m.mem d v = none) :
    wp (mappagesWords d va size pa perm rounds) (fun r m' => r = true → ∀ v, pteAt m'.mem d v =
        if PGSIZE * v < va + size ∧ va < PGSIZE * (v + 1) then some (pageEntry pa perm (v - va / PGSIZE)) else pteAt m.mem d v)
      (fun _ => False) m ∧
    (pteAddr perm = 0 → ∀ i, pteAddr (pageEntry pa perm i) = BitVec.ofNat 32 (pa + PGSIZE * i) ∧
      pteFlags (pageEntry pa perm i) = perm ||| PTE_P) ∧
    ∀ (L : Link) (m : Machine), Good L 0 m → wp (setupkvmWords L rounds) (fun r m' => ∀ d, r = some d → ∀ k ∈ kmap L, ∀ a,
      k.virt ≤ a → a < k.virt + k.size → Translates m'.mem d a (k.phys + (a - k.virt)) k.perm) (fun _ => False) m := by
  refine ⟨?_, fun hp i => pageEntry_fields hpa hp i, fun L m hg => ?_⟩
  · rw [mappagesWords_eq hsz hle hr]
    exact (mappages_exact_spec hsz hle hnone h).post fun _ _ => And.right
  · rw [setupkvmWords_eq hr]
    refine ((setupkvm_exact hg).and (setupkvm_spec (E := fun _ => False) hg)).mono
      (fun r m' hr d hd k hk a ha ha' => ?_) fun _ => And.right
    exact (hr.1 d hd).translates hk ha ha'

theorem mappages_exact_onePage : Tabled 0x102 onePage ∧
    ∃ m', (mappagesWords 0x102 20487 100 0x105000 PTE_W (2 ^ 20)).run onePage = .ok (true, m') ∧
      pteAt m'.mem 0x102 5 = some (pageEntry 0x105000 PTE_W 0) := by
  have hpage : ∀ v, PGSIZE * v < 20487 + 100 → 20487 < PGSIZE * (v + 1) → v = 5 := fun v h1 h2 => by
    simp only [PGSIZE] at h1 h2
    omega
  have hnone : pteAt onePage.mem 0x102 5 = none := spans_onePage.absent 5 (by decide) (by decide)
  have hr : (mappagesWords 0x102 20487 100 0x105000 PTE_W (2 ^ 20)).result onePage = some true := by decide +kernel
  have hmap := (mappages_exact 0x102 PTE_W (by decide) (by decide) (by decide) (Nat.le_refl _) good_onePage.tabled
    fun v h1 h2 => hpage v h1 h2 ▸ hnone).1.of_ok (run_eq_final hr)
  exact ⟨good_onePage.tabled, _, run_eq_final hr, (hmap rfl 5).trans (if_pos (by decide))⟩

end Xv6.Vm
