import Xv6.AddressSpace

/-!
# `growproc`

The size of a process and its user pages change together: `growproc` either moves both or leaves both alone. The
arithmetic on sizes is that of 32-bit words, and 0 is at once a size and the sign of failure, so this fails exactly for
a process that gives up all its memory or more than it has.
-/

namespace Xv6.Vm

open Prog Function

/-- The user pages mapped in `d` are those that `sz` bytes take. -/
def Spans (mem : Nat → Page) (d sz : Nat) : Prop := ∀ v, v < userPages → (pteAt mem d v ≠ none ↔ v < npages sz)

/-- The caller has `n` bytes more. Pages that it keeps are the same, and new ones are zero. -/
structure Resized (d : Nat) (n : Int) (m m' : Machine) : Prop where
  size : (m'.proc.sz : Int) = m.proc.sz + n
  bound : m'.proc.sz < KERNBASE
  spans : Spans m'.mem d m'.proc.sz
  kept : ∀ v w, v < npages m'.proc.sz → pteAt m.mem d v = some w → pteAt m'.mem d v = some w ∧ m'.mem (frame w) = m.mem (frame w)
  fresh : Zeroed d (npages m.proc.sz) (npages m'.proc.sz) m'.mem

structure Untouched (d : Nat) (m m' : Machine) : Prop where
  size : m'.proc.sz = m.proc.sz
  ptes : ∀ v, v < userPages → pteAt m'.mem d v = pteAt m.mem d v
  data : SameData d m.mem m'.mem

/-- What the caller of `growproc` may rely on. -/
def GrowExact (d : Nat) (n r : Int) (m m' : Machine) : Prop := (r = 0 → Resized d n m m') ∧ (r = -1 → Untouched d m m')

section

variable {L : Link} {d : Nat} {n : Int} {m m' : Machine}

theorem Spans.absent {mem : Nat → Page} {sz : Nat} (h : Spans mem d sz) (k : Nat) (hk : npages sz ≤ k) (hk' : k < userPages) :
    pteAt mem d k = none := by
  by_contra hne
  have := (h k hk').1 hne
  omega

theorem npages_mono {a b : Nat} (h : a ≤ b) : npages a ≤ npages b := by
  simp only [npages, PGSIZE]
  omega

theorem proc_setSize (hrest : m' = { m with mem := m'.mem, freelist := m'.freelist, fails := m'.fails }) (sz : Nat) :
    ({ m' with ptable := update m'.ptable m.cur { m'.ptable m.cur with sz := sz } } : Machine).proc.sz = sz := by
  rw [hrest]
  simp [Machine.proc]

theorem proc_rest (hrest : m' = { m with mem := m'.mem, freelist := m'.freelist, fails := m'.fails }) : m'.proc = m.proc := by
  rw [hrest]
  rfl

theorem growproc_pos (hd : m.proc.pgdir = some d) (hg : Good L (dirPages m.mem d) m) (hs : Spans m.mem d m.proc.sz)
    (hsz : m.proc.sz < KERNBASE) (hn : 0 < n) (hn' : n < 2 ^ 31) :
    wp (growproc L n) (fun r m' => (r = 0 ∨ r = -1) ∧ GrowExact d n r m m') (fun _ => False) m := by
  obtain ⟨k, rfl⟩ : ∃ k : Nat, n = k := ⟨n.toNat, by omega⟩
  have hnew : (((m.proc.sz : Int) + k) % 2 ^ 32).toNat = m.proc.sz + k := by
    simp only [KERNBASE] at hsz
    omega
  rw [growproc]
  refine wp_bind.2 (wp_get.2 ?_)
  rw [hd]
  refine wp_bind.2 ((wp_pure _).2 ?_)
  dsimp only
  rw [hnew, if_neg (by omega), if_pos hn]
  refine wp.bind (allocuvm_spec hg hs.absent) ?_
  rintro r m₁ (⟨rfl, hz, hlt, hgr, hzero⟩ | ⟨rfl, hw⟩)
  · rw [if_neg hz]
    rw [Nat.max_eq_right (by omega)] at hgr hzero ⊢
    refine ⟨.inl rfl, fun _ => ?_, fun h => absurd h (by decide)⟩
    have hp := proc_setSize hgr.moves.rest (m.proc.sz + k)
    have hle := npages_mono (Nat.le_add_right m.proc.sz k)
    refine ⟨?_, ?_, ?_, ?_, ?_⟩
    all_goals rw [hp]
    · omega
    · exact hlt
    · intro v hv
      by_cases hlo : v < npages m.proc.sz
      · exact iff_of_true (by rw [hgr.same v (.inl hlo)]; exact (hs v hv).2 hlo) (by omega)
      · by_cases hhi : v < npages (m.proc.sz + k)
        · exact iff_of_true (hgr.ptes v (by omega) hhi) hhi
        · exact iff_of_false (by rw [hgr.same v (.inr (by omega))]; exact fun h => hlo ((hs v hv).1 h)) hhi
    · intro v w hv hw
      have hu : v < userPages := lt_of_lt_of_le hv (npages_le_userPages (Nat.le_of_lt hlt))
      have hlo : v < npages m.proc.sz := (hs v hu).1 (by rw [hw]; simp)
      have hw' : pteAt m₁.mem d v = some w := by rw [hgr.same v (.inl hlo), hw]
      exact ⟨hw', hgr.data v w hu hw hw'⟩
    · exact hzero
  · rw [if_pos rfl]
    refine ⟨.inr rfl, fun h => absurd h (by decide), fun _ =>
      ⟨by rw [proc_rest hw.moves.rest], fun v _ => by rw [hw.ptes], hw.data⟩⟩

theorem growproc_neg (hd : m.proc.pgdir = some d) (hg : Good L (dirPages m.mem d) m) (hs : Spans m.mem d m.proc.sz)
    (hsz : m.proc.sz < KERNBASE) (hn : n < 0) (hn' : -2 ^ 31 ≤ n) :
    wp (growproc L n) (fun r m' => (r = 0 ∨ r = -1) ∧ (GrowExact d n r m m' ↔ 0 < m.proc.sz + n ∨
      m.proc.sz = 0)) (fun _ => False) m := by
  have hK : KERNBASE = 2 ^ 31 := by decide
  rw [growproc]
  refine wp_bind.2 (wp_get.2 ?_)
  rw [hd]
  refine wp_bind.2 ((wp_pure _).2 ?_)
  dsimp only
  rw [if_neg (by omega), if_neg (by omega)]
  by_cases hwrap : (m.proc.sz : Int) + n < 0
  · -- the new size is taken for a large one, and nothing happens
    have hbig : m.proc.sz ≤ (((m.proc.sz : Int) + n) % 2 ^ 32).toNat := by omega
    refine wp.bind (deallocuvm_spec (Nat.le_of_lt hsz) hg) ?_
    rintro r m₁ ⟨rfl, h₁⟩
    rw [Nat.min_eq_left hbig]
    by_cases hz : m.proc.sz = 0
    · rw [if_pos hz]
      refine ⟨.inr rfl, iff_of_true ⟨fun h => absurd h (by decide), fun _ => ⟨?_, fun v _ => ?_, h₁.data⟩⟩ (.inr hz)⟩
      · rw [proc_rest h₁.moves.rest]
      · refine h₁.same v (.inr ?_)
        rw [hz]
        exact Nat.zero_le v
    · rw [if_neg hz]
      refine ⟨.inl rfl, iff_of_false (fun h => ?_) (by omega)⟩
      have := (h.1 rfl).size
      rw [proc_setSize h₁.moves.rest] at this
      omega
  · obtain ⟨k, hk⟩ : ∃ k : Nat, (m.proc.sz : Int) + n = k := ⟨((m.proc.sz : Int) + n).toNat, by omega⟩
    have hnew : ((k : Int) % 2 ^ 32).toNat = k := by omega
    rw [hk, hnew]
    refine wp.bind (deallocuvm_spec (Nat.le_of_lt hsz) hg) ?_
    rintro r m₁ ⟨rfl, h₁⟩
    rw [Nat.min_eq_right (by omega)]
    have hle := npages_mono (show k ≤ m.proc.sz by omega)
    by_cases hz : k = 0
    · -- the pages are gone, but the size stays
      rw [if_pos hz]
      refine ⟨.inr rfl, iff_of_false (fun h => ?_) (by omega)⟩
      have hpos : 0 < npages m.proc.sz := lt_npages.2 (by omega)
      have hu : 0 < userPages := by decide
      have hgone := h₁.gone 0 (by rw [hz]; exact Nat.zero_le _) hpos
      rw [(h.2 rfl).ptes 0 hu] at hgone
      exact (hs 0 hu).2 hpos hgone
    · rw [if_neg hz]
      refine ⟨.inl rfl, iff_of_true ⟨fun _ => ?_, fun h => absurd h (by decide)⟩ (.inl (by omega))⟩
      have hp := proc_setSize h₁.moves.rest k
      refine ⟨?_, ?_, ?_, ?_, ?_⟩
      all_goals rw [hp]
      · omega
      · omega
      · intro v hv
        by_cases hlo : v < npages k
        · exact iff_of_true (by rw [h₁.same v (.inl hlo)]; exact (hs v hv).2 (by omega)) hlo
        · refine iff_of_false (fun h => h ?_) hlo
          by_cases hhi : v < npages m.proc.sz
          · exact h₁.gone v (by omega) hhi
          · rw [h₁.same v (.inr (by omega))]
            exact hs.absent v (by omega) hv
      · intro v w hv hw
        have hu : v < userPages := lt_of_lt_of_le hv (npages_le_userPages (by omega))
        have hw' : pteAt m₁.mem d v = some w := by rw [h₁.same v (.inl hv), hw]
        exact ⟨hw', h₁.data v w hu hw hw'⟩
      · exact fun v w hv hv' => by omega

/-- `growproc` returns, and it is exact and atomic exactly if it asks for more memory, leaves some, or there was none. -/
theorem growproc_exact_iff (hd : m.proc.pgdir = some d) (hg : Good L (dirPages m.mem d) m) (hs : Spans m.mem d m.proc.sz)
    (hsz : m.proc.sz < KERNBASE) (hn : -2 ^ 31 ≤ n ∧ n < 2 ^ 31) :
    ∃ r m', (growproc L n).run m = .ok (r, m') ∧ (r = 0 ∨ r = -1) ∧
      (GrowExact d n r m m' ↔ 0 ≤ n ∨ 0 < m.proc.sz + n ∨ m.proc.sz = 0) := by
  rcases lt_trichotomy n 0 with hneg | rfl | hpos
  · obtain ⟨r, m', hr, hret, hiff⟩ := (growproc_neg hd hg hs hsz hneg hn.1).exists_ok
    exact ⟨r, m', hr, hret, hiff.trans ⟨.inr, fun h => h.resolve_left (by omega)⟩⟩
  · have hw : wp (growproc L 0) (fun r m' => r = 0 ∧ m' = m) (fun _ => False) m := by
      rw [growproc]
      refine wp_bind.2 (wp_get.2 ?_)
      rw [hd]
      exact ⟨rfl, rfl⟩
    obtain ⟨_, _, hrun, rfl, rfl⟩ := hw.exists_ok
    refine ⟨0, _, hrun, .inl rfl,
      iff_of_true ⟨fun _ => ⟨by omega, hsz, hs, fun v w hv hw => ⟨hw, rfl⟩, fun v w hv hv' => by omega⟩,
      fun h => absurd h (by decide)⟩ (.inl (Int.le_refl 0))⟩
  · obtain ⟨r, m', hr, hret, hex⟩ := (growproc_pos hd hg hs hsz hpos hn.2).exists_ok
    exact ⟨r, m', hr, hret, iff_of_true hex (.inl (Int.le_of_lt hpos))⟩

end

/-! ### An address space of one page -/

def smallLink : Link := ⟨0x101000, 0x102000, by decide, by decide, by decide, by decide⟩

def oneTable : Nat → Page := withTable (fun _ => Block.zero PGSIZE) 0x102 0 0x103

def oneEntry : BitVec 32 := BitVec.ofNat 32 (PGSIZE * 0x104) ||| (PTE_W ||| PTE_U) ||| PTE_P

def onePage : Machine where
  mem := update oneTable 0x103 ((oneTable 0x103).putU32 (4 * 0) oneEntry)
  freelist := 0x105 :: List.range' 0x107 99
  fails := []
  ptable _ := ⟨.RUNNING, 1, none, false, fun _ => none, PGSIZE, some 0x102, some 0x106⟩
  cur := 0
  nextpid := 2
  ftable _ := ⟨.FD_NONE, 0, false, false, 0⟩
  pipes _ := ⟨false, false⟩

theorem oneTable_facts : tableAt oneTable 0x102 0 = some 0x103 ∧ (∀ v, pteAt oneTable 0x102 v = none) ∧
    dirPages oneTable 0x102 = {0x102} + {0x103} := by
  have hd : dirPages (fun _ => Block.zero PGSIZE) 0x102 = {0x102} := dirPages_zero rfl
  have hn : 0x103 ∉ dirPages (fun _ => Block.zero PGSIZE) 0x102 := by
    rw [hd]
    decide
  have hnd : (dirPages (fun _ => Block.zero PGSIZE) 0x102).Nodup := by
    rw [hd]
    exact Multiset.nodup_singleton _
  refine ⟨?_, fun v => ?_, ?_⟩
  · rw [oneTable, tableAt_withTable (by decide) (by decide), update_self]
  · rw [oneTable, pteAt_addTable (by decide) (by decide) (tableAt_zero rfl) hn hnd, pteAt_zero rfl]
  · rw [oneTable, dirPages_withTable (by decide) (by decide) (tableAt_zero rfl) hn hnd, hd]

theorem onePage_facts : pteAt onePage.mem 0x102 = update (fun _ => none) 0 (some oneEntry) ∧
    dirPages onePage.mem 0x102 = {0x102} + {0x103} + {0x104} := by
  obtain ⟨ht, hp, hd⟩ := oneTable_facts
  have hn : (dirPages oneTable 0x102).Nodup := by
    rw [hd]
    decide
  have htab := tableAt_setPte (j := 0) (w := oneEntry) (.of_nodup hn) ht
  have hpte := pteAt_setPte (w := oneEntry) (.of_nodup hn) ht (show 0 < 1024 by decide)
  have hpres : presentEntry oneEntry = some oneEntry := if_pos (by decide)
  rw [hpres] at hpte
  have hch := dirPages_change htab hpte
  have hheld : userHeld 0 (some oneEntry) = {0x104} := userHeld_mk (by decide) (by decide) (by decide)
  have hnone : userHeld 0 none = 0 := rfl
  rw [hp, hheld, hnone, add_zero, hd] at hch
  exact ⟨hpte.trans (by rw [funext hp]), hch⟩

theorem good_onePage : Good smallLink (dirPages onePage.mem 0x102) onePage := by
  have hd := onePage_facts.2
  refine ⟨?_, ?_⟩
  all_goals rw [hd]
  · change ((0x105 :: List.range' 0x107 99 ++ [0x102, 0x103, 0x104] : List Nat) : Multiset Nat).Nodup
    decide +kernel
  · change ∀ x ∈ ((0x105 :: List.range' 0x107 99 ++ [0x102, 0x103, 0x104] : List Nat) : Multiset Nat),
      0x102000 ≤ PGSIZE * x ∧ PGSIZE * x < PHYSTOP
    decide +kernel

theorem spans_onePage : Spans onePage.mem 0x102 onePage.proc.sz := by
  have hn : npages onePage.proc.sz = 1 := by decide
  intro v _
  rw [onePage_facts.1, hn]
  by_cases hv : v = 0
  · rw [hv, update_self]
    decide
  · rw [update_of_ne hv]
    exact iff_of_false (fun h => h rfl) (by omega)

/-- A second page. -/
theorem growproc_second_page : ∃ r m', (growproc smallLink 4096).run onePage = .ok (r, m') ∧
    GrowExact 0x102 4096 r onePage m' := by
  obtain ⟨r, m', hr, -, hiff⟩ := growproc_exact_iff (n := 4096) rfl good_onePage spans_onePage (by decide) (by decide)
  exact ⟨r, m', hr, hiff.2 (.inl (by decide))⟩

/-- Giving up the only page frees it and returns -1 with the old size; giving up two returns 0 and changes nothing. -/
theorem growproc_gives_up : onePage.proc.pgdir = some 0x102 ∧ onePage.proc.sz = 4096 ∧ Good smallLink
    (dirPages onePage.mem 0x102) onePage ∧
    Spans onePage.mem 0x102 4096 ∧
    (∃ m', (growproc smallLink (-4096)).run onePage = .ok (-1, m') ∧ m'.proc.sz = 4096 ∧ pteAt m'.mem 0x102 0 = none) ∧
    ∃ m', (growproc smallLink (-8192)).run onePage = .ok (0, m') ∧ m'.proc.sz = 4096 :=
  ⟨rfl, rfl, good_onePage, spans_onePage, ⟨_, run_eq_final (by decide +kernel), by decide +kernel, by decide +kernel⟩,
    _, run_eq_final (by decide +kernel), by decide +kernel⟩

end Xv6.Vm
