import Xv6.ExecPages
import Xv6.GrowProc

/-!
# `copyout` at any address

`uva2ka` reads the entry for a page without asking whether `walkpgdir` found a page table. So `copyout` is safe and exact
as long as the first page of its range that user code has no access to, if there is one, has a page table: all
pages before it are written, and it fails there. The range is taken modulo `2 ^ 32`.
-/

namespace Xv6.Vm

open Prog Function

/-- Directories made by `setupkvm`, `allocuvm` from the size on that was reached, and `clearpteu`; in between the kernel may do
anything that leaves the directory and its page tables alone. -/
inductive Built (L : Link) (d : Nat) : Nat → Machine → Prop
  | setup {m m' : Machine} (hg : Good L 0 m) (hr : (setupkvm L).run m = .ok (some d, m')) : Built L d 0 m'
  | alloc {sz oldsz newsz r : Nat} {m m' : Machine} (h : Built L d sz m) (ho : sz ≤ oldsz)
      (hr : (allocuvm L d oldsz newsz).run m = .ok (r, m')) : Built L d (max sz r) m'
  | clear {sz va : Nat} {m m' : Machine} (h : Built L d sz m) (hva : va < 2 ^ 32) (hr : (clearpteu d va).run m = .ok ((), m')) :
      Built L d sz m'
  | other {sz : Nat} {m m' : Machine} (h : Built L d sz m) (hg : Good L (dirPages m.mem d) m')
      (ht : tableAt m'.mem d = tableAt m.mem d) (hp : pteAt m'.mem d = pteAt m.mem d) : Built L d sz m'

/-- What `copyout` needs of a directory: its pages are its own, and user code has no access to kernel pages. -/
structure Ready (L : Link) (d : Nat) (m : Machine) : Prop where
  good : Good L (dirPages m.mem d) m
  noUser : ∀ v w, userPages ≤ v → pteAt m.mem d v = some w → ¬ has w PTE_U

section

variable {L : Link} {d sz v va : Nat} {m m' m₁ m₂ : Machine} {bs : List Byte}

theorem Built.ready (h : Built L d sz m) : Ready L d m ∧ ∀ k, npages sz ≤ k → k < userPages → pteAt m.mem d k = none := by
  induction h with
  | setup hg hr =>
    obtain ⟨hmv, hnew⟩ := (setupkvm_spec (E := fun _ => True) hg).of_ok hr
    exact ⟨⟨hmv.good hg, hnew.kernel.noUser⟩, fun k _ hk => hnew.empty k hk⟩
  | @alloc sz oldsz newsz r m m' _ ho hr ih =>
    obtain ⟨hR, habs⟩ := ih
    have hle := npages_mono ho
    have hnone : ∀ k, npages oldsz ≤ k → k < userPages → pteAt m.mem d k = none := fun k hk => habs k (by omega)
    rcases (allocuvm_spec (E := fun _ => True) hR.good hnone).of_ok hr with ⟨rfl, hz, hlt, hgr, -⟩ | ⟨rfl, hw⟩
    · have hhi : npages oldsz ≤ npages (max oldsz newsz) := npages_mono (Nat.le_max_left ..)
      have hmax : npages (max oldsz newsz) ≤ npages (max sz (max oldsz newsz)) := npages_mono (Nat.le_max_right ..)
      refine ⟨⟨hgr.moves.good hR.good, fun v w hv hw => ?_⟩, fun k hk hk' => ?_⟩
      · by_cases hin : npages oldsz ≤ v ∧ v < npages (max oldsz newsz)
        · have h1 : npages newsz ≤ userPages := npages_le_userPages (by omega)
          rcases Nat.le_total oldsz newsz with hon | hon
          · rw [Nat.max_eq_right hon] at hin
            omega
          · rw [Nat.max_eq_left hon] at hin
            omega
        · rw [hgr.same v (by omega)] at hw
          exact hR.noUser v w hv hw
      · rw [hgr.same k (.inr (by omega))]
        exact hnone k (by omega) hk'
    · refine ⟨⟨hw.moves.good hR.good, fun v w hv hwv => ?_⟩, fun k hk hk' => ?_⟩
      · rw [hw.ptes] at hwv
        exact hR.noUser v w hv hwv
      · rw [hw.ptes]
        exact habs k (by rwa [Nat.max_zero] at hk) hk'
  | @clear sz va m m' _ hva hr ih =>
    obtain ⟨hR, habs⟩ := ih
    have ht : tableAt m.mem d (va / PGSIZE / 1024) ≠ none := by
      intro hnone
      -- without a page table `clearpteu` panics
      have hpdx : pdx va = va / PGSIZE / 1024 := by
        simp only [pdx, PGSIZE]
        omega
      have hw : wp (clearpteu d va) (fun _ _ => False) (fun _ => True) m := by
        rw [clearpteu]
        refine wp.bind (walkpgdir_read d va) ?_
        rintro r m₁ ⟨rfl, rfl⟩
        rw [hpdx, hnone]
        exact (wp_throw _).2 trivial
      exact hw.of_ok hr
    obtain ⟨hmv, -, hp⟩ := (clearpteu_spec (E := fun _ => True) hR.good hva ht).of_ok hr
    refine ⟨⟨hmv.good hR.good, fun v w hv hw => ?_⟩, fun k hk hk' => ?_⟩
    · rw [hp] at hw
      by_cases hvv : v = va / PGSIZE
      · rw [hvv, update_self] at hw
        obtain ⟨w₀, -, rfl⟩ := Option.map_eq_some_iff.1 hw
        rw [has, BitVec.and_assoc]
        exact fun h => h BitVec.and_zero
      · rw [update_of_ne hvv] at hw
        exact hR.noUser v w hv hw
    · rw [hp]
      by_cases hkv : k = va / PGSIZE
      · rw [hkv, update_self, ← hkv, habs k hk hk']
        rfl
      · rw [update_of_ne hkv]
        exact habs k hk hk'
  | @other sz m m' _ hg ht hp ih =>
    obtain ⟨hR, habs⟩ := ih
    have hd : dirPages m'.mem d = dirPages m.mem d := by
      rw [dirPages, dirPages, Vm.tables, Vm.tables, users, users, ht, hp]
    refine ⟨⟨by rw [hd]; exact hg, ?_⟩, ?_⟩
    all_goals rw [hp]
    · exact hR.noUser
    · exact habs

/-! ### Statement -/

/-- Page `k` of a range that starts at `va`. -/
def pageOf (va k : Nat) : Nat := (va / PGSIZE + k) % 2 ^ 20

/-- How many pages `n` bytes at `va` meet. -/
def pagesMet (va n : Nat) : Nat := if n = 0 then 0 else (va % PGSIZE + n - 1) / PGSIZE + 1

/-- Where in physical memory the byte at address `a` is. -/
def placeOf (mem : Nat → Page) (d a : Nat) : Option (Nat × Nat) := (pteAt mem d (a / PGSIZE)).map fun w => (frame w, a % PGSIZE)

/-- `copyout` asks `uva2ka` for page `v` in the state `m'`. -/
inductive Asks (L : Link) (d : Nat) : Nat → List Byte → Machine → Nat → Machine → Prop
  | here {va : Nat} {bs : List Byte} {m : Machine} (hb : bs ≠ []) : Asks L d va bs m (va / PGSIZE) m
  | there {va v x : Nat} {bs : List Byte} {m m₁ m₂ m' : Machine} (hb : bs ≠ [])
      (hx : (uva2ka d (pgRoundDown va)).run m = .ok (some x, m₁))
      (hs : (kstore L x (va - pgRoundDown va) (bs.take (PGSIZE - (va - pgRoundDown va)))).run m₁ = .ok ((), m₂))
      (h : Asks L d ((pgRoundDown va + PGSIZE) % 2 ^ 32) (bs.drop (PGSIZE - (va - pgRoundDown va))) m₂ v
        m') : Asks L d va bs m v m'

/-- The call returns success exactly if user code has access to the whole range. Then the bytes are
there and nothing else has changed; otherwise only pages were written that user code has access to. -/
structure CopyExact (d va : Nat) (bs : List Byte) (m : Machine) (r : Bool) (m' : Machine) : Prop where
  ret : r = true ↔ ∀ k, k < pagesMet va bs.length → Access m.mem d (pageOf va k)
  rest : m' = { m with mem := m'.mem }
  map : pteAt m'.mem d = pteAt m.mem d
  bytes : r = true → ∀ j, j < bs.length → ∃ x o, placeOf m.mem d ((va + j) % 2 ^ 32) = some (x, o) ∧
    (m'.mem x).data o = bs.getD j 0
  only : r = true → ∀ x o, (∀ j, j < bs.length → placeOf m.mem d ((va + j) % 2 ^ 32) ≠ some (x, o)) →
    (m'.mem x).data o = (m.mem x).data o
  failed : r = false → ∀ x, (∀ v w, pteAt m.mem d v = some w → has w PTE_U → x ≠ frame w) → m'.mem x = m.mem x

def CopySafe (L : Link) (d va : Nat) (bs : List Byte) (m : Machine) : Prop :=
  (∀ v m', Asks L d va bs m v m' → tableAt m'.mem d (v / 1024) ≠ none) ∧
    ∃ r m', (copyout L d va bs).run m = .ok (r, m') ∧ CopyExact d va bs m r m'

def TablesAhead (d va n : Nat) (m : Machine) : Prop :=
  ∀ k, k < pagesMet va n → (∀ j, j < k → Access m.mem d (pageOf va j)) → tableAt m.mem d (pageOf va k / 1024) ≠ none

/-! ### One page -/

theorem sub_pgRoundDown (va : Nat) : va - pgRoundDown va = va % PGSIZE := by
  simp only [pgRoundDown, PGSIZE]
  omega

theorem next_page (hv : va / PGSIZE < userPages) : (pgRoundDown va + PGSIZE) % 2 ^ 32 = PGSIZE * (va / PGSIZE + 1) := by
  have := userPages_lt
  simp only [pgRoundDown, PGSIZE] at *
  omega

theorem pageOf_next (k : Nat) : pageOf (PGSIZE * (va / PGSIZE + 1)) k = pageOf va (k + 1) := by
  simp only [pageOf, PGSIZE]
  congr 1
  omega

theorem pagesMet_next {n : Nat} (hn : 0 < n) :
    pagesMet va n = pagesMet (PGSIZE * (va / PGSIZE + 1)) (n - (PGSIZE - va % PGSIZE)) + 1 := by
  simp only [pagesMet, PGSIZE]
  split
  · omega
  · split <;> omega

theorem pageOf_zero (hva : va < 2 ^ 32) : pageOf va 0 = va / PGSIZE := by
  simp only [pageOf, PGSIZE]
  omega

structure Stored (L : Link) (d va : Nat) (w : BitVec 32) (bs : List Byte) (m m' : Machine) : Prop where
  ready : Ready L d m'
  rest : m' = { m with mem := m'.mem }
  tables : tableAt m'.mem d = tableAt m.mem d
  map : pteAt m'.mem d = pteAt m.mem d
  mem : m'.mem = update m.mem (frame w)
    ((m.mem (frame w)).move (va % PGSIZE) (fun k => (bs.take (PGSIZE - va % PGSIZE)).getD k 0)
      (bs.take (PGSIZE - va % PGSIZE)).length)

theorem Ready.lt {w : BitVec 32} (hR : Ready L d m) (hw : pteAt m.mem d v = some w) (hu : has w PTE_U) : v < userPages := by
  by_contra hge
  exact hR.noUser v w (by omega) hw hu

theorem Ready.store {w : BitVec 32} {E : Fault → Prop} (hR : Ready L d m) (hw : pteAt m.mem d (va / PGSIZE) = some w)
    (hu : has w PTE_U) (bs : List Byte) :
    wp (kstore L (frame w) (va - pgRoundDown va) (bs.take (PGSIZE - (va - pgRoundDown va))))
      (fun _ m' => Stored L d va w bs m m') E m := by
  rw [sub_pgRoundDown]
  refine wp.post (kstore_user hR.good (hR.lt hw hu) hw (va % PGSIZE) (bs.take (PGSIZE - va % PGSIZE))) ?_
  rintro _ m' ⟨hk, hm⟩
  refine ⟨⟨hk.moves.good hR.good, ?_⟩, by rw [hm], hk.tables, hk.ptes, by rw [hm]⟩
  rw [hk.ptes]
  exact hR.noUser

theorem Access.congr (h : pteAt m'.mem d = pteAt m.mem d) : Access m'.mem d v ↔ Access m.mem d v := by
  rw [Access, Access, h]

theorem TablesAhead.next {w : BitVec 32} (h : TablesAhead d va bs.length m) (hb : bs ≠ []) (hva : va < 2 ^ 32)
    (hacc : Access m.mem d (va / PGSIZE)) (hs : Stored L d va w bs m m') :
    TablesAhead d (PGSIZE * (va / PGSIZE + 1)) (bs.drop (PGSIZE - va % PGSIZE)).length m' := by
  intro k hk hj
  have hlen := List.length_pos_iff.2 hb
  rw [List.length_drop] at hk
  rw [pageOf_next, hs.tables]
  refine h (k + 1) (by rw [pagesMet_next hlen]; omega) fun j hjk => ?_
  cases j with
  | zero => rwa [pageOf_zero hva]
  | succ j =>
    have := hj j (by omega)
    rwa [pageOf_next, Access.congr hs.map] at this

theorem TablesAhead.first (h : TablesAhead d va bs.length m) (hb : bs ≠ []) (hva : va < 2 ^ 32) :
    tableAt m.mem d (va / PGSIZE / 1024) ≠ none := by
  have hlen := List.length_pos_iff.2 hb
  have := h 0 (by rw [pagesMet_next hlen]; omega) fun j hj => absurd hj (Nat.not_lt_zero j)
  rwa [pageOf_zero hva] at this

/-! ### The whole range -/

theorem page_lt (hva : va < 2 ^ 32) : va / PGSIZE < 2 ^ 20 := by
  simp only [PGSIZE]
  omega

theorem Asks.table (h : Asks L d va bs m v m') (hR : Ready L d m) (hva : va < 2 ^ 32) (ht : TablesAhead d va bs.length m) :
    tableAt m'.mem d (v / 1024) ≠ none := by
  induction h with
  | here hb => exact ht.first hb hva
  | @there va v x bs m m₁ m₂ m' hb hx hs _ ih =>
    rw [pgRoundDown_eq] at hx
    obtain ⟨rfl, -, hyes⟩ := (uva2ka_spec (E := fun _ => True) (page_lt hva) (ht.first hb hva)).of_ok hx
    obtain ⟨w, hw, hu, rfl⟩ := hyes x rfl
    have hlt := hR.lt hw hu
    have hst := (hR.store (E := fun _ => True) hw hu bs).of_ok hs
    have hnext := next_page hlt
    have hlt32 := Nat.mod_lt (pgRoundDown va + PGSIZE) (show 0 < 2 ^ 32 by decide)
    refine ih hst.ready hlt32 ?_
    rw [hnext, sub_pgRoundDown]
    exact ht.next hb hva ⟨w, hw, hu⟩ hst

theorem asks_of_access {k : Nat} (hR : Ready L d m) (hva : va < 2 ^ 32) (hk : k < pagesMet va bs.length)
    (hacc : ∀ j, j < k → Access m.mem d (pageOf va j)) : ∃ m', Asks L d va bs m (pageOf va k) m' ∧
      tableAt m'.mem d = tableAt m.mem d := by
  have hb : bs ≠ [] := by
    rintro rfl
    simp [pagesMet] at hk
  induction k generalizing va bs m with
  | zero =>
    rw [pageOf_zero hva]
    exact ⟨m, .here hb, rfl⟩
  | succ k ih =>
    obtain ⟨w, hw, hu⟩ := hacc 0 (Nat.succ_pos k)
    rw [pageOf_zero hva] at hw
    have hlt := hR.lt hw hu
    have hlen := List.length_pos_iff.2 hb
    obtain ⟨r, m₁, hx, rfl, hno, hyes⟩ := (uva2ka_spec (E := fun _ => False) (page_lt hva) (pteAt_table hw)).exists_ok
    cases r with
    | none => exact absurd ⟨w, hw, hu⟩ (hno rfl)
    | some x =>
      obtain ⟨w', hw', -, rfl⟩ := hyes x rfl
      obtain rfl := Option.some.inj (hw.symm.trans hw')
      obtain ⟨_, m₂, hs, hst⟩ := (hR.store (E := fun _ => False) hw hu bs).exists_ok
      rw [pagesMet_next hlen, Nat.add_lt_add_iff_right, ← List.length_drop] at hk
      have hb' : bs.drop (PGSIZE - va % PGSIZE) ≠ [] := by
        intro hnil
        rw [hnil] at hk
        simp [pagesMet] at hk
      have hva' : PGSIZE * (va / PGSIZE + 1) < 2 ^ 32 := by
        rw [← next_page hlt]
        exact Nat.mod_lt _ (by decide)
      obtain ⟨m', ha, ht⟩ := ih hst.ready hva' hk (fun j hj => by
        rw [pageOf_next, Access.congr hst.map]
        exact hacc (j + 1) (by omega)) hb'
      rw [pageOf_next] at ha
      refine ⟨m', .there hb (by rw [pgRoundDown_eq]; exact hx) hs ?_, ht.trans hst.tables⟩
      rw [next_page hlt, sub_pgRoundDown]
      exact ha

theorem Ready.below {n k : Nat} (hR : Ready L d m) (hva : va < 2 ^ 32) (h : ∀ k, k < pagesMet va n → Access m.mem d (pageOf va k))
    (hk : k < pagesMet va n) : va / PGSIZE + k < userPages := by
  induction k with
  | zero =>
    obtain ⟨w, hw, hu⟩ := h 0 hk
    rw [pageOf_zero hva] at hw
    exact hR.lt hw hu
  | succ k ih =>
    have hlt := ih (by omega)
    obtain ⟨w, hw, hu⟩ := h (k + 1) hk
    have hpage : pageOf va (k + 1) = va / PGSIZE + (k + 1) := by
      have := userPages_lt
      exact Nat.mod_eq_of_lt (by omega)
    rw [hpage] at hw
    exact hR.lt hw hu

theorem Ready.byte {n j : Nat} (hR : Ready L d m) (hva : va < 2 ^ 32) (h : ∀ k, k < pagesMet va n → Access m.mem d (pageOf va k))
    (hj : j < n) : va + j < PGSIZE * userPages ∧ Access m.mem d ((va + j) / PGSIZE) := by
  have hk : (va % PGSIZE + j) / PGSIZE < pagesMet va n := by
    rw [pagesMet, if_neg (by omega)]
    simp only [PGSIZE]
    omega
  have hpage : va / PGSIZE + (va % PGSIZE + j) / PGSIZE = (va + j) / PGSIZE := by
    simp only [PGSIZE]
    omega
  have hlt := hR.below hva h hk
  have hacc := h _ hk
  rw [hpage] at hlt
  have := userPages_lt
  rw [pageOf, hpage, Nat.mod_eq_of_lt (by omega)] at hacc
  refine ⟨?_, hacc⟩
  simp only [PGSIZE] at *
  omega

theorem placeOf_eq_some {a x o : Nat} (h : placeOf m.mem d a = some (x, o)) : ∃ w, pteAt m.mem d
    (a / PGSIZE) = some w ∧ frame w = x := by
  obtain ⟨w, hw, he⟩ := Option.map_eq_some_iff.1 h
  exact ⟨w, hw, congrArg Prod.fst he⟩

theorem CopyExact.cons {w : BitVec 32} {r : Bool} (hR : Ready L d m) (hva : va < 2 ^ 32) (hb : bs ≠ [])
    (hw : pteAt m.mem d (va / PGSIZE) = some w) (hu : has w PTE_U) (hs : Stored L d va w bs m m₁)
    (h : CopyExact d (PGSIZE * (va / PGSIZE + 1)) (bs.drop (PGSIZE - va % PGSIZE)) m₁ r m') : CopyExact d va bs m r m' := by
  have hlen := List.length_pos_iff.2 hb
  have hlt := hR.lt hw hu
  have h32 := userPages_lt
  have hva' : PGSIZE * (va / PGSIZE + 1) < 2 ^ 32 := by
    rw [← next_page hlt]
    exact Nat.mod_lt _ (by decide)
  have hret : r = true ↔ ∀ k, k < pagesMet va bs.length → Access m.mem d (pageOf va k) := by
    rw [h.ret, pagesMet_next hlen, List.length_drop]
    constructor
    · intro hall k hk
      cases k with
      | zero =>
        rw [pageOf_zero hva]
        exact ⟨w, hw, hu⟩
      | succ k =>
        rw [← pageOf_next, ← Access.congr hs.map]
        exact hall k (by omega)
    · intro hall k hk
      rw [pageOf_next, Access.congr hs.map]
      exact hall (k + 1) (by omega)
  have hplace : placeOf m₁.mem d = placeOf m.mem d := by
    funext a
    rw [placeOf, placeOf, hs.map]
  -- address `va + j` seen from the next page
  have hshift : ∀ j, PGSIZE - va % PGSIZE ≤ j → PGSIZE * (va / PGSIZE + 1) + (j - (PGSIZE - va % PGSIZE)) = va + j := by
    intro j hj
    simp only [PGSIZE] at *
    omega
  have hfirst : ∀ j, j < PGSIZE - va % PGSIZE → placeOf m.mem d ((va + j) % 2 ^ 32) = some (frame w, va % PGSIZE + j) := by
    intro j hj
    have hmod : (va + j) % 2 ^ 32 = va + j := Nat.mod_eq_of_lt (by simp only [PGSIZE] at *; omega)
    have hdiv : (va + j) / PGSIZE = va / PGSIZE := by
      simp only [PGSIZE] at *
      omega
    have hoff : (va + j) % PGSIZE = va % PGSIZE + j := by
      simp only [PGSIZE] at *
      omega
    rw [hmod, placeOf, hdiv, hw, hoff]
    rfl
  refine ⟨hret, ?_, h.map.trans hs.map, fun hr j hj => ?_, fun hr x o hout => ?_, fun hr x hx => ?_⟩
  · rw [h.rest, hs.rest]
  · by_cases hjc : j < PGSIZE - va % PGSIZE
    · refine ⟨_, _, hfirst j hjc, ?_⟩
      have hlater : ∀ i, i < (bs.drop (PGSIZE - va % PGSIZE)).length →
          placeOf m₁.mem d ((PGSIZE * (va / PGSIZE + 1) + i) % 2 ^ 32) ≠ some (frame w, va % PGSIZE + j) := by
        intro i hi hp
        obtain ⟨hb32, -⟩ := hs.ready.byte hva' (h.ret.1 hr) hi
        rw [Nat.mod_eq_of_lt (by simp only [PGSIZE] at *; omega), hplace] at hp
        obtain ⟨w', hw', he⟩ := placeOf_eq_some hp
        have hpage := user_inj hR.good.nodup_hand (by simp only [PGSIZE] at *; omega) hlt hw' hw he
        simp only [PGSIZE] at hpage
        omega
      rw [h.only hr _ _ hlater, hs.mem, update_self,
        Block.move_data_in _ _ (by omega) (by rw [List.length_take]; omega) (by simp only [PGSIZE] at *; omega),
        Nat.add_sub_cancel_left, List.getD_eq_getElem?_getD, List.getElem?_take_of_lt hjc, ← List.getD_eq_getElem?_getD]
    · obtain ⟨x, o, hp, hd⟩ := h.bytes hr (j - (PGSIZE - va % PGSIZE)) (by rw [List.length_drop]; omega)
      rw [hshift j (by omega), hplace] at hp
      refine ⟨x, o, hp, hd.trans ?_⟩
      rw [List.getD_eq_getElem?_getD, List.getElem?_drop, ← List.getD_eq_getElem?_getD, Nat.add_sub_cancel' (by omega)]
  · rw [h.only hr x o fun i hi => ?_]
    · by_cases hx : x = frame w
      · rw [hs.mem, hx, update_self]
        refine Block.move_data_out _ _ ?_
        by_contra hin
        rw [List.length_take] at hin
        refine hout (o - va % PGSIZE) (by omega) ?_
        rw [hfirst _ (by omega), hx, Nat.add_sub_cancel' (by omega)]
      · rw [hs.mem, update_of_ne hx]
    · rw [List.length_drop] at hi
      have := hout (i + (PGSIZE - va % PGSIZE)) (by omega)
      rwa [← hshift _ (Nat.le_add_left ..), Nat.add_sub_cancel, ← hplace] at this
  · rw [h.failed hr x (by rw [hs.map]; exact hx), hs.mem, update_of_ne (hx _ w hw hu)]

theorem copyout_exact {E : Fault → Prop} (hR : Ready L d m) (hva : va < 2 ^ 32) (ht : TablesAhead d va bs.length m) :
    wp (copyout L d va bs) (fun r m' => CopyExact d va bs m r m') E m := by
  induction hn : bs.length using Nat.strong_induction_on generalizing va bs m with
  | _ n ih =>
    rw [copyout]
    split
    · next hb =>
      subst hb
      rw [wp_pure]
      exact ⟨iff_of_true rfl fun k hk => absurd hk (by simp [pagesMet]), rfl, rfl, fun _ j hj =>
        absurd hj (Nat.not_lt_zero j), fun _ _ _ _ => rfl,
        fun _ _ _ => rfl⟩
    · next hb =>
      rw [pgRoundDown_eq]
      refine wp.bind (uva2ka_spec (page_lt hva) (ht.first hb hva)) ?_
      rintro x m₁ ⟨rfl, hno, hyes⟩
      cases x with
      | none =>
        rw [wp_pure]
        have hnot : ¬ ∀ k, k < pagesMet va bs.length → Access m₁.mem d (pageOf va k) := by
          intro hall
          have := hall 0 (by rw [pagesMet_next (List.length_pos_iff.2 hb)]; omega)
          rw [pageOf_zero hva] at this
          exact hno rfl this
        exact ⟨iff_of_false Bool.false_ne_true hnot, rfl, rfl, fun h => absurd h Bool.false_ne_true,
          fun h => absurd h Bool.false_ne_true,
          fun _ _ _ => rfl⟩
      | some x =>
        obtain ⟨w, hw, hu, rfl⟩ := hyes x rfl
        rw [← pgRoundDown_eq]
        refine wp.bind (hR.store hw hu bs) fun _ m₂ hs => ?_
        rw [next_page (hR.lt hw hu), sub_pgRoundDown]
        have hlen := List.length_pos_iff.2 hb
        have hva' : PGSIZE * (va / PGSIZE + 1) < 2 ^ 32 := by
          rw [← next_page (hR.lt hw hu)]
          exact Nat.mod_lt _ (by decide)
        have hshort : (bs.drop (PGSIZE - va % PGSIZE)).length < n := by
          have := Nat.mod_lt va (show 0 < PGSIZE by decide)
          rw [List.length_drop]
          omega
        refine wp.post (ih _ hshort hs.ready hva' (ht.next hb hva ⟨w, hw, hu⟩ hs) rfl) fun r m' h => ?_
        exact h.cons hR hva hb hw hu hs

/-- `copyout` is safe and exact exactly if each page of the range that follows accessible ones only has a page table. -/
theorem copyout_safe_iff (hB : Built L d sz m) (hva : va < 2 ^ 32) : CopySafe L d va bs m ↔ TablesAhead d va bs.length m := by
  obtain ⟨hR, -⟩ := hB.ready
  constructor
  · rintro ⟨hask, -⟩ k hk hacc
    obtain ⟨m', ha, ht⟩ := asks_of_access hR hva hk hacc
    have := hask _ m' ha
    rwa [ht] at this
  · intro ht
    exact ⟨fun v m' ha => ha.table hR hva ht, (copyout_exact hR hva ht).exists_ok⟩

end

/-! ### In a new directory -/

theorem setupkvm_enough {L : Link} {m : Machine} (hg : Good L 0 m) (hf : m.fails = []) (hlen : 65 ≤ m.freelist.length) :
    ∃ d m', (setupkvm L).run m = .ok (some d, m') ∧ Moves 0 (dirPages m'.mem d) m m' ∧ NewDir m'.mem d := by
  obtain ⟨r, m', hr, hpost⟩ := (setupkvm_spec (E := fun _ => False) hg).exists_ok
  cases r with
  | none =>
    have := hpost.2 (hpost.1.granted_of_nil hf)
    omega
  | some d => exact ⟨d, m', hr, hpost.1, hpost.2⟩

theorem setupkvm_onePage : ∃ d m, (setupkvm smallLink).run onePage = .ok (some d, m) ∧ Moves 0 (dirPages m.mem d) onePage m ∧
    NewDir m.mem d := setupkvm_enough (good_onePage.of_le (Multiset.zero_le _)) rfl (by decide)

theorem allocuvm_page {L : Link} {d : Nat} {m : Machine} (hg : Good L (dirPages m.mem d) m) (hnone : pteAt m.mem d 0 = none)
    (hf : m.fails = []) (hlen : 2 ≤ m.freelist.length) :
    wp (allocuvm L d 0 PGSIZE) (fun r m' => r = PGSIZE ∧ Access m'.mem d 0) (fun _ => True) m := by
  have hu : 0 < userPages := by decide
  rw [allocuvm, if_neg (by decide), if_neg (by decide), show pgRoundUp 0 = PGSIZE * 0 from rfl, allocLoop, dif_pos (by decide)]
  refine wp.bind (wp.bind (kalloc_dir hg) ?_) (Q := fun r m' => r = true ∧ Access m'.mem d 0) ?_
  · rintro (_ | x) m₁ ⟨hno, hyes⟩
    · obtain ⟨h₁, hmem, hs⟩ := hno rfl
      have hcard := h₁.moves.card
      rw [hs (h₁.moves.granted_of_nil hf), hmem, List.length_nil] at hcard
      omega
    have h₁ := hyes x rfl (Block.zero PGSIZE)
    refine wp_bind.2 (wp_setPage.2 ?_)
    generalize ({ m₁ with mem := update m₁.mem x (Block.zero PGSIZE) } : Machine) = m₂ at h₁ ⊢
    refine wp.bind (mappages_user hu (by rw [h₁.ptes, hnone]) (by decide) (h₁.moves.good hg)) ?_
    rintro r m₃ (⟨rfl, h₃, -⟩ | ⟨rfl, h₃, hno₃⟩)
    · rw [if_pos rfl, allocLoop, dif_neg (by decide)]
      exact ⟨rfl, _, by rw [h₃.ptes, update_self], by rw [has_or, has_or]; exact .inl (.inr (by decide))⟩
    · have hcard := h₁.moves.card
      have hcard₃ := h₃.moves.card
      have hsame : dirPages m₂.mem d = dirPages m.mem d := by
        rw [dirPages, dirPages, Vm.tables, Vm.tables, users, users, h₁.tables, h₁.ptes]
      have hgr := (h₁.moves.trans (h₃.moves.add _)).granted_of_nil hf
      rw [hno₃.starved (h₁.moves.granted h₃.moves hgr).2, hno₃.mem, List.length_nil] at hcard₃
      rw [Multiset.card_add, Multiset.card_singleton, hsame] at hcard
      omega
  · rintro r m' ⟨rfl, h⟩
    exact ⟨rfl, h⟩

/-- The first page of a new address space is allocated and written. -/
theorem copyout_first_page : ∃ d sz m, Built smallLink d sz m ∧ Access m.mem d 0 ∧ CopySafe smallLink d 0 [0xAA] m := by
  obtain ⟨d, m, hr, hmv, hnew⟩ := setupkvm_onePage
  have hg := hmv.good (good_onePage.of_le (Multiset.zero_le _))
  have hlen : 2 ≤ m.freelist.length := by
    have hle := card_dirPages_le (v := 0) (fun i hi => mem_kernelSlots.2 (hnew.gap i hi)) fun k _ hk => hnew.empty k hk
    have hcard := hmv.card
    rw [card_kernelSlots] at hle
    rw [Multiset.card_zero, show onePage.freelist.length = 100 from rfl] at hcard
    omega
  have hf : m.fails = [] := List.suffix_nil.1 hmv.fails
  have halloc := allocuvm_page hg (hnew.empty 0 (by decide)) hf hlen
  obtain ⟨r, m', hr', -⟩ := (@allocuvm_spec smallLink d m (fun _ => False) 0 PGSIZE hg fun k _ hk => hnew.empty k hk).exists_ok
  have hacc := (halloc.of_ok hr').2
  have hB : Built smallLink d (max 0 r) m' := .alloc (.setup (good_onePage.of_le (Multiset.zero_le _)) hr) (Nat.le_refl 0) hr'
  refine ⟨d, _, m', hB, hacc, (copyout_safe_iff hB (by decide)).2 fun k hk _ => ?_⟩
  have hk1 : pagesMet 0 [0xAA].length = 1 := by decide
  obtain rfl : k = 0 := by omega
  obtain ⟨w, hw, -⟩ := hacc
  exact pteAt_table hw

/-- Page 0x400 of a new directory has no page table, and `copyout` reads an entry for it all the same. -/
theorem copyout_missing_table : ∃ d m, Built smallLink d 0 m ∧ Asks smallLink d 0x400000 [0xAA] m 0x400 m ∧
    tableAt m.mem d (0x400 / 1024) = none ∧ ¬ CopySafe smallLink d 0x400000 [0xAA] m := by
  obtain ⟨d, m, hr, -, hnew⟩ := setupkvm_onePage
  have hask : Asks smallLink d 0x400000 [0xAA] m 0x400 m := .here (List.cons_ne_nil _ _)
  have hnone : tableAt m.mem d (0x400 / 1024) = none := by
    by_contra h
    exact absurd (hnew.gap _ h) (by decide)
  exact ⟨d, m, .setup (good_onePage.of_le (Multiset.zero_le _)) hr, hask, hnone, fun h => h.1 _ _ hask hnone⟩

end Xv6.Vm
