import Xv6.ForkCopy

/-!
# Runs of `vm.c`

`userinit` and `exec` make address spaces, `fork` copies them, `growproc` and `exec` grow and cut them, and `wait` and
`exec` free them. Here this happens in any order, any call of `kalloc` may fail, and a size is the one that `vm.c` last
returned (`growproc` does not keep it if a process gives up all its memory). Every page stays free or in one place of
one address space, and an address space changes only when it is itself grown, cut or freed.
-/

namespace Xv6.Vm

open Prog Function

/-- A directory and a size. -/
abbrev Space := Nat × Nat

inductive SpaceOp
  | copy
  | alloc (newsz : Nat)
  | dealloc (newsz : Nat)
  | free

/-- A call for `a`, beside the address spaces `rest`. -/
def SpaceOp.exec (L : Link) (a : Space) (rest : List Space) : SpaceOp → Prog Machine Fault (List Space)
  | .copy => do
    match ← copyuvm L a.1 a.2 with
    | none => pure (a :: rest)
    | some d => pure ((d, a.2) :: a :: rest)
  | .alloc newsz => do
    let r ← allocuvm L a.1 a.2 newsz
    pure ((a.1, if r = 0 then a.2 else r) :: rest)
  | .dealloc newsz => do
    let r ← deallocuvm L a.1 a.2 newsz
    pure ((a.1, r) :: rest)
  | .free => do
    freevm L a.1
    pure rest

inductive VmOp
  | setup
  | call (a : Space) (op : SpaceOp)

/-- The directory that a call changes. One that is copied is only read. -/
def VmOp.target : VmOp → List Nat
  | .setup | .call _ .copy => []
  | .call a _ => [a.1]

def VmOp.exec (L : Link) (as : List Space) : VmOp → Prog Machine Fault (List Space)
  | .setup => do
    match ← setupkvm L with
    | none => pure as
    | some d => pure ((d, 0) :: as)
  | .call a op => if a ∈ as then op.exec L a (as.erase a) else pure as

def runVm (L : Link) : List Space → List VmOp → Prog Machine Fault (List Space)
  | as, [] => pure as
  | as, op :: ops => do
    let as' ← op.exec L as
    runVm L as' ops

def spacePages (mem : Nat → Page) (as : List Space) : Multiset Nat := (as.map fun a => dirPages mem a.1).sum

/-- Free pages and pages of address spaces are different pages, and an address space has the user pages its size takes. -/
structure Owned (L : Link) (as : List Space) (m : Machine) : Prop where
  good : Good L (spacePages m.mem as) m
  spans : ∀ a ∈ as, Spans m.mem a.1 a.2 ∧ a.2 < KERNBASE

/-- From `as` to `as'` no page is lost, and address spaces with directories other than `ds` are as they were. -/
structure Conserved (L : Link) (ds : List Nat) (as : List Space) (m : Machine) (as' : List Space)
    (m' : Machine) : Prop extends Owned L as' m' where
  bal : (m'.freelist : Multiset Nat) + spacePages m'.mem as' = m.freelist + spacePages m.mem as
  others : ∀ a ∈ as, a.1 ∉ ds → a ∈ as' ∧ ∀ y ∈ dirPages m.mem a.1, m'.mem y = m.mem y

section

variable {L : Link} {as as' as'' rest : List Space} {a : Space} {ds ds' : List Nat} {m m' m'' : Machine}

theorem dirPages_le (h : a ∈ as) (mem : Nat → Page) : dirPages mem a.1 ≤ spacePages mem as :=
  List.le_sum_of_mem (List.mem_map_of_mem h)

theorem Owned.same (h : Owned L as m) (ds : List Nat) : Conserved L ds as m as m := ⟨h, rfl, fun _ ha _ => ⟨ha, fun _ _ => rfl⟩⟩

theorem Conserved.trans (h : Conserved L ds as m as' m') (h' : Conserved L ds' as' m' as'' m'') :
    Conserved L (ds ++ ds') as m as'' m'' := by
  refine ⟨h'.toOwned, h'.bal.trans h.bal, fun a ha hn => ?_⟩
  rw [List.mem_append, not_or] at hn
  obtain ⟨ha', hy⟩ := h.others a ha hn.1
  obtain ⟨ha'', hy'⟩ := h'.others a ha' hn.2
  rw [(dir_same hy).2.2] at hy'
  exact ⟨ha'', fun y hmem => (hy' y hmem).trans (hy y hmem)⟩

theorem Owned.perm (h : Owned L as m) (hp : as.Perm as') : Owned L as' m :=
  ⟨by rw [spacePages, ← (hp.map _).sum_eq]; exact h.good, fun a ha => h.spans a (hp.mem_iff.2 ha)⟩

theorem Owned.dir (h : Owned L (a :: rest) m) : Good L (dirPages m.mem a.1) m := h.good.of_le
    (dirPages_le (List.mem_cons_self ..) _)

/-- The address spaces `l` have become `l'`, beside others. -/
theorem Owned.step (l l' : List Space) (h : Owned L (l ++ rest) m) (hmv : Moves (spacePages m.mem l) (spacePages m'.mem l') m m')
    (hl : ∀ a ∈ l', Spans m'.mem a.1 a.2 ∧ a.2 < KERNBASE) : Conserved L (l.map Prod.fst) (l ++ rest) m (l' ++ rest) m' := by
  have hsum (mem : Nat → Page) (l : List Space) : spacePages mem (l ++ rest) = spacePages mem
    l + spacePages mem rest := by simp [spacePages]
  have hn := h.good.nodup
  rw [hsum, ← add_assoc] at hn
  have hother (a : Space) (ha : a ∈ rest) : ∀ y ∈ dirPages m.mem a.1, m'.mem y = m.mem y := fun y hy => hmv.outside y fun hmem =>
    Multiset.disjoint_left.1 (Multiset.nodup_add.1 hn).2.2 hmem (Multiset.mem_of_le (dirPages_le ha _) hy)
  have hrest : spacePages m'.mem rest = spacePages m.mem rest :=
    congrArg List.sum (List.map_congr_left fun b hb => (dir_same (hother b hb)).2.2)
  have hmv' := hmv.add (spacePages m.mem rest)
  rw [← hsum, ← hrest, ← hsum] at hmv'
  refine ⟨⟨hmv'.good h.good, fun a ha => ?_⟩, hmv'.bal, fun a ha hna => ?_⟩
  · rcases List.mem_append.1 ha with ha | ha
    · exact hl a ha
    · obtain ⟨hs, hlt⟩ := h.spans a (List.mem_append_right l ha)
      exact ⟨fun v hv => by rw [(dir_same (hother a ha)).2.1]; exact hs v hv, hlt⟩
  · have har := (List.mem_append.1 ha).resolve_left fun hal => hna (List.mem_map_of_mem hal)
    exact ⟨List.mem_append_right l' har, hother a har⟩

theorem Unmapped.spans {d sz newsz : Nat} (h : Unmapped d (npages newsz) (npages sz) m m') (hs : Spans m.mem d sz) :
    Spans m'.mem d (min sz newsz) := by
  intro v hv
  have hmin : npages (min sz newsz) = min (npages sz) (npages newsz) := by
    simp only [npages, PGSIZE]
    omega
  by_cases hin : npages newsz ≤ v ∧ v < npages sz
  · exact iff_of_false (fun hne => hne (h.gone v hin.1 hin.2)) (by omega)
  · rw [h.same v (by omega), hs v hv]
    omega

theorem copyuvm_owned (h : Owned L (a :: rest) m) :
    wp (copyuvm L a.1 a.2) (Copied L a.1 a.2 m) (fun _ => False) m := by
  obtain ⟨hs, hlt⟩ := h.spans a (List.mem_cons_self ..)
  refine copyuvm_spec (h.good.of_le (Multiset.zero_le _)) (fun y hy hf => ?_) fun v hv => (hs v ?_).2 hv
  · exact Multiset.disjoint_left.1 (Multiset.nodup_add.1 h.dir.nodup).2.2 (Multiset.mem_coe.2 hf) hy
  · exact Nat.lt_of_lt_of_le hv (npages_mono (b := KERNBASE) (Nat.le_of_lt hlt))

theorem SpaceOp.exec_spec (h : Owned L (a :: rest) m) (op : SpaceOp) :
    wp (op.exec L a rest) (Conserved L (VmOp.call a op).target (a :: rest) m) (fun _ => False) m := by
  obtain ⟨hs, hlt⟩ := h.spans a (List.mem_cons_self ..)
  cases op with
  | copy =>
    refine wp.bind (copyuvm_owned h) ?_
    rintro (_ | d) m' hr
    · exact Owned.step [] [] h hr.1 (by simp)
    · exact Owned.step [] [(d, a.2)] h (by simpa [spacePages] using hr.1) (List.forall_mem_singleton.2 ⟨hr.2.1, hlt⟩)
  | alloc newsz =>
    refine wp.bind (allocuvm_spec h.dir hs.absent) ?_
    rintro r m' (⟨rfl, hr, hK, hgr, -⟩ | ⟨rfl, hw⟩)
    · rw [if_neg hr]
      exact Owned.step [a] [(a.1, _)] h (by simpa [spacePages] using hgr.moves)
        (List.forall_mem_singleton.2 ⟨hgr.spans (npages_mono (Nat.le_max_left _ _)) hs, Nat.max_lt.2 ⟨hlt, hK⟩⟩)
    · rw [if_pos rfl]
      exact Owned.step [a] [a] h (by simpa [spacePages] using hw.moves) (List.forall_mem_singleton.2
        ⟨fun v hv => by rw [hw.ptes]; exact hs v hv, hlt⟩)
  | dealloc newsz =>
    refine wp.bind (deallocuvm_spec (Nat.le_of_lt hlt) h.dir) ?_
    rintro r m' ⟨rfl, hu⟩
    exact Owned.step [a] [(a.1, _)] h (by simpa [spacePages] using hu.moves)
      (List.forall_mem_singleton.2 ⟨hu.spans hs, Nat.lt_of_le_of_lt (Nat.min_le_left _ _) hlt⟩)
  | free => exact wp.bind (freevm_spec h.dir) fun _ m' hmv => Owned.step [a] [] h (by simpa [spacePages] using hmv) (by simp)

theorem VmOp.exec_spec (h : Owned L as m) (op : VmOp) :
    wp (op.exec L as) (Conserved L op.target as m) (fun _ => False) m := by
  cases op with
  | setup =>
    refine wp.bind (setupkvm_spec (h.good.of_le (Multiset.zero_le _))) ?_
    rintro (_ | d) m' ⟨hmv, hnew⟩
    · exact Owned.step [] [] h hmv (by simp)
    · exact Owned.step [] [(d, 0)] h (by simpa [spacePages] using hmv) (List.forall_mem_singleton.2
        ⟨hnew.spans, (by decide : 0 < KERNBASE)⟩)
  | call a op =>
    refine (wp_ite _ _).2 ⟨fun ha => ?_, fun _ => h.same _⟩
    have hp := List.perm_cons_erase ha
    refine (SpaceOp.exec_spec (h.perm hp) op).post fun as' m' h' => ⟨h'.toOwned, ?_, fun b hb => h'.others b (hp.mem_iff.1 hb)⟩
    rw [h'.bal, spacePages, spacePages, (hp.map _).sum_eq]

/-- No order of the calls panics, loses a page or lets two address spaces share one. -/
theorem runVm_owned (h : Owned L as m) (ops : List VmOp) :
    wp (runVm L as ops) (Conserved L (ops.flatMap VmOp.target) as m) (fun _ => False) m := by
  induction ops generalizing as m with
  | nil => exact h.same _
  | cons op ops ih => exact wp.bind (op.exec_spec h) fun as₁ m₁ h₁ => wp.post (ih h₁.toOwned) fun as' m' h' => h₁.trans h'

/-- `fork` succeeds, and then the parent's address space is freed. -/
theorem runVm_onePage : wp (runVm smallLink [(0x102, 4096)] [.call (0x102, 4096) .copy, .call (0x102, 4096) .free])
    (fun as' m' => (∃ d, as' = [(d, 4096)]) ∧ Conserved smallLink [0x102] [(0x102, 4096)] onePage as'
      m') (fun _ => False) onePage := by
  have hown : Owned smallLink [(0x102, 4096)] onePage :=
    ⟨by rw [spacePages, List.map_singleton, List.sum_singleton]; exact good_onePage,
      List.forall_mem_singleton.2 ⟨spans_onePage, (by decide : 4096 < KERNBASE)⟩⟩
  have hlen : ¬ onePage.freelist.length < copyPages 4096 := by decide
  have hf : onePage.fails = [] := rfl
  generalize onePage = m₀ at *
  have hcopied : wp (runVm smallLink [(0x102, 4096)] [.call (0x102, 4096) .copy, .call (0x102, 4096) .free])
      (fun as' _ => ∃ d, as' = [(d, 4096)]) (fun _ => True) m₀ := by
    refine wp.bind (Q := fun as' _ => ∃ d, as' = [(d, 4096), (0x102, 4096)]) ?_ ?_
    · refine wp.bind ((copyuvm_owned hown).mono (fun _ _ => id) fun _ => False.elim) ?_
      rintro (_ | d) m' h
      · exact absurd (h.2 (h.1.granted_of_nil hf)) hlen
      · exact ⟨d, rfl⟩
    · rintro as' m' ⟨d, rfl⟩
      refine wp.bind (Q := fun as' _ => ∃ d, as' = [(d, 4096)]) ?_ fun _ _ => id
      rw [VmOp.exec, if_pos (by simp)]
      refine wp.bind (wp_run.mono (fun _ _ _ => trivial) fun _ _ => trivial) fun _ _ (_ : True) => ?_
      by_cases hd : d = 0x102
      · exact ⟨0x102, by rw [hd]; rfl⟩
      · exact ⟨d, by simp [hd]⟩
  exact (hcopied.and (runVm_owned hown _)).mono (fun _ _ => id) fun _ => And.right

end

end Xv6.Vm
