import Xv6.LogRun

/-!
# Whether the reservation of `begin_op` suffices

`begin_op` reserves `MAXOPBLOCKS` blocks for a bracket and admits brackets up to `LOGSIZE` blocks together; `log_write`
stops one block earlier, since one block of the log is the header. The invariant `Reserved` counts the blocks of the
header that belong to no open bracket, and for each open bracket the most it may log.
-/

namespace Xv6

open Prog Function Finset

/-- The distinct blocks that process `i` has passed to `log_write` since it last called `begin_op`. -/
def opBlocks (i : Nat) : List AdmAct → List Nat
  | [] => []
  | .beginOp j :: h => if j = i then [] else opBlocks i h
  | .logTest j b :: h => if j = i then absorb (opBlocks i h) b else opBlocks i h
  | _ :: h => opBlocks i h

/-- The bracket in which `log_write` is called has at most `k` distinct blocks with it. -/
def BracketFits (k : Nat) (h : List AdmAct) : AdmAct → Prop
  | .logTest i b => (opBlocks i (.logTest i b :: h)).length ≤ k
  | _ => True

instance (k : Nat) (h : List AdmAct) : DecidablePred (BracketFits k h)
  | .logTest i b => Nat.decLe (opBlocks i (.logTest i b :: h)).length k
  | .beginOp _ | .logEnter _ | .endEnter _ | .commit _ | .endLeave _ | .put .. | .kill _ => instDecidableTrue

/-- No bracket of the run logs more than `k` distinct blocks. -/
def WithinBudget (k : Nat) : List AdmAct → Prop := Always (BracketFits k)

instance (k : Nat) : DecidablePred (WithinBudget k) := decidableAlways _

/-- The header fits into the log on disk, and no `log_write` within the budget finds it full. -/
def RoomOk (sb : Superblock) (k : Nat) (h : List AdmAct) (s : AdmSys) : Prop :=
  s.dev.log.lh.length ≤ sb.nlog - 1 ∧ ∀ i b, s.procs i = .inOp → WithinBudget k (.logTest i b :: h) →
    (logTest sb).run s.dev ≠ .error (.panic "too big a transaction")

variable {sb : Superblock} {n k : Nat} {h : List AdmAct} {s : AdmSys} {a : AdmAct}

theorem WithinBudget.length_le (hb : WithinBudget k h) (i : Nat) : (opBlocks i h).length ≤ k := by
  induction h with
  | nil => exact Nat.zero_le k
  | cons a h ih =>
    have hrest := ih hb.2
    cases a with
    | beginOp j =>
      rw [opBlocks]
      split
      · exact Nat.zero_le k
      · exact hrest
    | logTest j b =>
      by_cases hj : j = i
      · subst hj
        exact hb.1
      · rw [opBlocks, if_neg hj]
        exact hrest
    | _ => exact hrest

theorem WithinBudget.mono {k' : Nat} (hk : k ≤ k') (hb : WithinBudget k h) : WithinBudget k' h := by
  induction h with
  | nil => trivial
  | cons a h ih =>
    refine ⟨?_, ih hb.2⟩
    have h1 := hb.1
    cases a <;> first | trivial | exact le_trans h1 hk

/-! ### The invariant -/

/-- The processes inside a bracket. -/
def openProcs (n : Nat) (s : AdmSys) : Finset Nat := (range n).filter fun i => (s.procs i).Open

/-- The blocks that the open brackets have logged. -/
def openBlocks (n : Nat) (h : List AdmAct) (s : AdmSys) : Finset Nat :=
  (openProcs n s).biUnion fun i => (opBlocks i h).toFinset

structure Reserved (n k : Nat) (h : List AdmAct) (s : AdmSys) : Prop where
  adm : Admission n s
  writing : ∀ i b, s.procs i = .writing b → b ∈ opBlocks i h
  room : (s.dev.log.lh.toFinset \ openBlocks n h s).card + k * (openProcs n s).card ≤ LOGSIZE - 2

theorem mem_openProcs {i : Nat} : i ∈ openProcs n s ↔ i < n ∧ (s.procs i).Open := by simp [openProcs]

theorem card_openProcs : (openProcs n s).card = tally n OpPc.Open s.procs := by
  rw [openProcs, card_eq_sum_ones, sum_filter, tally, total]

theorem mem_openBlocks {b : Nat} : b ∈ openBlocks n h s ↔ ∃ i, (i < n ∧ (s.procs i).Open) ∧ b ∈ opBlocks i h := by
  simp [openBlocks, mem_openProcs]

namespace Reserved

theorem length_le (hr : Reserved n k h s) (hb : WithinBudget k h) : s.dev.log.lh.length ≤ LOGSIZE - 2 := by
  have hcard : s.dev.log.lh.length = s.dev.log.lh.toFinset.card := (List.toFinset_card_of_nodup hr.adm.nodup).symm
  have hsplit : s.dev.log.lh.toFinset.card ≤
      (s.dev.log.lh.toFinset \ openBlocks n h s).card + (openBlocks n h s).card := Finset.card_le_card_sdiff_add_card
  have hopen : (openBlocks n h s).card ≤ (openProcs n s).card * k :=
    card_biUnion_le_card_mul _ _ _ fun i _ => (List.toFinset_card_le _).trans (hb.length_le i)
  have hroom := hr.room
  rw [Nat.mul_comm] at hopen
  omega

/-- A step of process `i`, which may wake others, after which the open brackets are the same and no block has lost
its bracket. -/
theorem keep (hr : Reserved n k h s) {i : Nat} {s' : AdmSys} (hs : Admission n s')
    (hother : ∀ j, j ≠ i → s'.procs j = s.procs j ∨ s'.procs j = (s.procs j).wake)
    (hopen : (s'.procs i).Open ↔ (s.procs i).Open) (hw : ∀ b, s'.procs i = .writing b → b ∈ opBlocks i (a :: h))
    (hlh : ∀ b ∈ s'.dev.log.lh, b ∈ s.dev.log.lh ∨ b ∈ openBlocks n (a :: h) s')
    (hop : ∀ j, (s.procs j).Open → opBlocks j h ⊆ opBlocks j (a :: h)) : Reserved n k (a :: h) s' := by
  have ho : ∀ j, (s'.procs j).Open ↔ (s.procs j).Open := fun j => by
    rcases eq_or_ne j i with rfl | hne
    · exact hopen
    · rcases hother j hne with e | e <;> simp [e]
  have hprocs : openProcs n s' = openProcs n s := by
    ext j
    rw [mem_openProcs, mem_openProcs, ho]
  refine ⟨hs, fun j b hj => ?_, ?_⟩
  · rcases eq_or_ne j i with rfl | hne
    · exact hw b hj
    · have hj' : s.procs j = .writing b := by
        rcases hother j hne with e | e <;> simpa [e] using hj
      exact hop j (by rw [hj']; trivial) (hr.writing j b hj')
  have hsub : s'.dev.log.lh.toFinset \ openBlocks n (a :: h) s' ⊆ s.dev.log.lh.toFinset \ openBlocks n h s := by
    intro b hb
    simp only [mem_sdiff, List.mem_toFinset] at hb ⊢
    refine ⟨(hlh b hb.1).resolve_right hb.2, fun hm => hb.2 ?_⟩
    obtain ⟨j, ⟨hlt, hpj⟩, hbj⟩ := mem_openBlocks.1 hm
    exact mem_openBlocks.2 ⟨j, ⟨hlt, (ho j).2 hpj⟩, hop j hpj hbj⟩
  rw [hprocs]
  exact le_trans (Nat.add_le_add_right (card_le_card hsub) _) hr.room

/-- `begin_op` admits another bracket. -/
theorem granted (hk : k < MAXOPBLOCKS) {i : Nat} {s' : AdmSys} (hr : Reserved n k h s)
    (hs : Admission n s') (hi : i < n) (hp : ¬ (s.procs i).Open) (hprocs : s'.procs = update s.procs i .inOp)
    (hlh : s'.dev.log.lh = s.dev.log.lh) (hc : s.dev.log.committing = false)
    (hadm : s.dev.log.lh.length + (s.dev.log.outstanding + 1) * MAXOPBLOCKS ≤ (LOGSIZE : Int)) :
    Reserved n k (.beginOp i :: h) s' := by
  have hself : i ∈ openProcs n s' := mem_openProcs.2 ⟨hi, by rw [hprocs, update_self]; trivial⟩
  have hother : ∀ j, j ≠ i → s'.procs j = s.procs j := fun j hj => by rw [hprocs, update_of_ne hj]
  have hop : ∀ j, j ≠ i → opBlocks j (.beginOp i :: h) = opBlocks j h := fun j hj => by
    rw [opBlocks, if_neg hj.symm]
  have hcard : (openProcs n s').card = (openProcs n s).card + 1 := by
    rw [← card_erase_add_one hself]
    congr 2
    ext j
    rw [mem_erase, mem_openProcs, mem_openProcs]
    refine ⟨fun ⟨hj, hlt, hpj⟩ => ⟨hlt, hother j hj ▸ hpj⟩, fun ⟨hlt, hpj⟩ => ?_⟩
    have hj : j ≠ i := fun e => hp (e ▸ hpj)
    exact ⟨hj, hlt, (hother j hj).symm ▸ hpj⟩
  refine ⟨hs, fun j b hj => ?_, ?_⟩
  · rcases eq_or_ne j i with rfl | hne
    · rw [hprocs, update_self] at hj
      cases hj
    · rw [hop j hne]
      exact hr.writing j b (hother j hne ▸ hj)
  -- the first bracket finds the header empty, any other has been counted by the admission test
  have hle : (s'.dev.log.lh.toFinset \ openBlocks n (.beginOp i :: h) s').card ≤ s.dev.log.lh.length := by
    rw [hlh]
    exact (card_le_card sdiff_subset).trans (List.toFinset_card_le _)
  have hout : s.dev.log.outstanding = ((openProcs n s).card : Int) := by rw [card_openProcs, hr.adm.outstanding]
  have hk9 : k * (openProcs n s').card ≤ 9 * (openProcs n s').card := Nat.mul_le_mul_right _ (Nat.le_of_lt_succ hk)
  rw [hout] at hadm
  simp only [MAXOPBLOCKS, LOGSIZE] at hadm ⊢
  by_cases h0 : (openProcs n s).card = 0
  · have hnil := hr.adm.empty (by omega) hc
    rw [hnil, List.length_nil] at hle
    omega
  · omega

/-- A bracket closes: what it has logged now belongs to none. -/
theorem closes {i : Nat} {s' : AdmSys} (hr : Reserved n k h s) (hb : WithinBudget k h)
    (hs : Admission n s') (hi : i < n) (hp : s.procs i = .inOp) (hpi : ¬ (s'.procs i).Open)
    (hother : ∀ j, j ≠ i → s'.procs j = s.procs j ∨ s'.procs j = (s.procs j).wake)
    (hlh : s'.dev.log.lh = s.dev.log.lh) : Reserved n k (.endEnter i :: h) s' := by
  have hopen : ∀ j, j ≠ i → ((s'.procs j).Open ↔ (s.procs j).Open) := fun j hj => by
    rcases hother j hj with e | e <;> simp [e]
  have hself : i ∈ openProcs n s := mem_openProcs.2 ⟨hi, by rw [hp]; trivial⟩
  have herase : openProcs n s' = (openProcs n s).erase i := by
    ext j
    rw [mem_erase, mem_openProcs, mem_openProcs]
    refine ⟨fun ⟨hlt, hpj⟩ => ?_, fun ⟨hj, hlt, hpj⟩ => ⟨hlt, (hopen j hj).2 hpj⟩⟩
    have hj : j ≠ i := fun e => hpi (e ▸ hpj)
    exact ⟨hj, hlt, (hopen j hj).1 hpj⟩
  refine ⟨hs, fun j b hj => ?_, ?_⟩
  · have hne : j ≠ i := fun e => hpi (by rw [← e, hj]; trivial)
    refine hr.writing j b ?_
    rcases hother j hne with e | e
    · rw [← e, hj]
    · rw [e] at hj
      simpa using hj
  have hsub : s'.dev.log.lh.toFinset \ openBlocks n (.endEnter i :: h) s' ⊆
      (s.dev.log.lh.toFinset \ openBlocks n h s) ∪ (opBlocks i h).toFinset := by
    intro b hb
    simp only [mem_sdiff, mem_union, List.mem_toFinset, hlh] at hb ⊢
    by_cases hbi : b ∈ opBlocks i h
    · exact .inr hbi
    · refine .inl ⟨hb.1, fun hm => hb.2 ?_⟩
      obtain ⟨j, ⟨hlt, hpj⟩, hbj⟩ := mem_openBlocks.1 hm
      have hj : j ≠ i := fun e => hbi (e ▸ hbj)
      exact mem_openBlocks.2 ⟨j, ⟨hlt, (hopen j hj).2 hpj⟩, hbj⟩
  have hcard := (card_le_card hsub).trans (card_union_le _ _)
  have hmine : (opBlocks i h).toFinset.card ≤ k := (List.toFinset_card_le _).trans (hb.length_le i)
  have hroom := hr.room
  rw [← card_erase_add_one hself, ← herase, Nat.mul_succ] at hroom
  omega

theorem step (hk : k < MAXOPBLOCKS) (hr : Reserved n k h s) (hb : WithinBudget k h) {s' : AdmSys}
    (hs : AdmStep sb n s a s') : Reserved n k (a :: h) s' := by
  have hadm := hr.adm.step hs
  cases hs with
  | @granted _ i hi hp hrun =>
    have hpc : ¬ (s.procs i).Open := by rcases hp with hp | hp <;> simp [hp, OpPc.Open]
    obtain ⟨hc, hfull, rfl⟩ := (beginOp_cases s.dev).of_ok hrun
    exact hr.granted hk hadm hi hpc rfl rfl hc hfull
  | @sleep i hi hp hrun =>
    have hpc : ¬ (s.procs i).Open := by rcases hp with hp | hp <;> simp [hp, OpPc.Open]
    refine hr.keep (i := i) hadm (fun j hj => .inl (update_of_ne hj _ _)) ?_ ?_ (fun b hb => .inl hb) ?_
    · exact iff_of_false (by simp [OpPc.Open]) hpc
    · simp
    · intro j hj
      have hne : i ≠ j := fun e => hpc (e ▸ hj)
      rw [opBlocks, if_neg hne]
      exact List.Subset.refl _
  | @test d i b hi hp hrun =>
    have hd : d = s.dev := by
      have hwp : wp (logTest sb) (fun _ d => d = s.dev) (fun _ => True) s.dev := by simp [logTest]
      exact hwp.of_ok hrun
    subst hd
    refine hr.keep (i := i) hadm (fun j hj => .inl (update_of_ne hj _ _)) ?_ ?_ (fun b hb => .inl hb) ?_
    · simp [hp, OpPc.Open]
    · intro x hx
      obtain rfl : b = x := by simpa using hx
      simp [opBlocks]
    · intro j _ x hx
      rw [opBlocks]
      split
      · exact mem_absorb.2 (.inl hx)
      · exact hx
  | @enter d i b hi hp hrun =>
    cases hrun
    refine hr.keep (i := i) hadm (fun j hj => .inl (update_of_ne hj _ _)) ?_ ?_ ?_ fun _ _ => List.Subset.refl _
    · simp [hp, OpPc.Open]
    · simp
    · intro x hx
      rcases mem_absorb.1 hx with hx | rfl
      · exact .inl hx
      · refine .inr (mem_openBlocks.2 ⟨i, ⟨hi, ?_⟩, hr.writing i x hp⟩)
        simp [OpPc.Open]
  | last hi hp hrun =>
    obtain ⟨-, -, rfl⟩ := (endEnter_cases s.dev).of_ok hrun
    refine hr.closes hb hadm hi hp ?_ (fun j hj => .inl (update_of_ne hj _ _)) rfl
    simp [OpPc.Open]
  | finish hi hp hrun =>
    obtain ⟨-, -, rfl⟩ := (endEnter_cases s.dev).of_ok hrun
    refine hr.closes hb hadm hi hp ?_ (fun j hj => .inr (by simp [update_of_ne hj])) rfl
    simp [OpPc.Open]
  | @commit _ i hi hp hrun =>
    have hlog := (commit_empties s.dev).of_ok hrun
    refine hr.keep (i := i) hadm (fun j hj => .inl (update_of_ne hj _ _)) ?_ ?_ ?_ fun _ _ => List.Subset.refl _
    · simp [hp, OpPc.Open]
    · simp
    · simp [hlog]
  | @leave _ i hi hp hrun =>
    cases hrun
    refine hr.keep (i := i) hadm (fun j hj => .inr (by simp [update_of_ne hj])) ?_ ?_ (fun b hb => .inl hb)
      fun _ _ => List.Subset.refl _
    · simp [hp, OpPc.Open]
    · simp
  | @put _ i b v hi hp hrun =>
    cases hrun
    refine hr.keep (i := i) hadm (fun _ _ => .inl rfl) .rfl ?_ (fun b hb => .inl hb) fun _ _ => List.Subset.refl _
    simp [hp]
  | @kill i =>
    refine hr.keep (i := i) hadm (fun j hj => .inl (update_of_ne hj _ _)) (by simp) (fun b hw => ?_) (fun b hb => .inl hb)
      fun _ _ => List.Subset.refl _
    exact hr.writing i b (by simpa using hw)

end Reserved

theorem Reserved.of_run (hk : k < MAXOPBLOCKS) (hr : (admLts sb n).Run h s) (hb : WithinBudget k h) :
    Reserved n k h s := by
  induction hr with
  | @init s hi =>
    have hnone : openProcs n s = ∅ := by
      refine filter_eq_empty_iff.2 fun i _ => ?_
      simp [hi.2 i, OpPc.Open]
    refine ⟨.init hi, fun i b hw => ?_, ?_⟩
    · rw [hi.2 i] at hw
      cases hw
    · simp [hnone, hi.1, LOGSIZE]
  | step _ hs ih => exact (ih hb.2).step hk hb.2 hs

/-! ### The reservation -/

/-- Three brackets, ten blocks each, but for the last block. -/
def threeFullBrackets : List AdmAct :=
  [.beginOp 0, .beginOp 1, .beginOp 2] ++ logs 0 (List.range' 100 10) ++ logs 1 (List.range' 110 10) ++
    logs 2 (List.range' 120 9)

/-- In this run the thirtieth block of the group is refused. -/
theorem threeFullBrackets_full : ∃ s, (admLts mkfsSuperblock 3).Run threeFullBrackets.reverse s ∧ s.procs 2 = .inOp ∧
    (logTest mkfsSuperblock).run s.dev = .error (.panic "too big a transaction") := by
  have hany : ((runActs mkfsSuperblock 3 zeroSys threeFullBrackets).any fun s => decide (s.procs 2 = .inOp) &&
      decide (29 ≤ s.dev.log.lh.length)) = true := by decide +kernel
  obtain ⟨s, hs, hb⟩ := (Option.any_eq_true _ _).1 hany
  obtain ⟨hp, hlen⟩ := (Bool.and_eq_true _ _).mp hb
  have hlen := of_decide_eq_true hlen
  have hr := run_of_runActs (S := admLts mkfsSuperblock 3) rfl _ (.init ⟨rfl, fun _ => rfl⟩) hs
  rw [List.append_nil] at hr
  refine ⟨s, hr, of_decide_eq_true hp, ?_⟩
  have hwp : wp (logTest mkfsSuperblock) (fun _ _ => False) (· = .panic "too big a transaction") s.dev := by
    have hn : mkfsSuperblock.nlog = 30 := rfl
    simp only [logTest, wp_bind, wp_get, wp_failIf]
    exact ⟨fun _ => trivial, fun hroom => by omega⟩
  cases htest : (logTest mkfsSuperblock).run s.dev with
  | ok y => exact (hwp.of_ok htest).elim
  | error f => rw [hwp.of_error htest]

/-- **When the reservation suffices.** With the log that `mkfs` makes, for any number of processes and every
interleaving of their steps in which no bracket logs more than `k` distinct blocks, `log_write` never reaches
`panic("too big a transaction")` and `lh.n` stays within the log on disk, if and only if `k` is less than
`MAXOPBLOCKS`. -/
theorem reservation_iff (k : Nat) : (∀ sb n h s, sb.nlog = LOGSIZE → (admLts sb n).Run h s → WithinBudget k h →
    RoomOk sb k h s) ↔ k < MAXOPBLOCKS := by
  constructor
  · intro hall
    by_contra hk
    obtain ⟨s, hr, hp, hfull⟩ := threeFullBrackets_full
    have hb : ∀ h, WithinBudget MAXOPBLOCKS h → WithinBudget k h := fun h hb => hb.mono (not_lt.1 hk)
    exact (hall _ _ _ _ rfl hr (hb _ (by decide))).2 2 129 hp (hb _ (by decide)) hfull
  · intro hk sb n h s hsize hr hb
    have hlen := (Reserved.of_run hk hr hb).length_le hb
    simp only [LOGSIZE] at hsize hlen
    refine ⟨by omega, fun i b _ _ he => ?_⟩
    have hwp : wp (logTest sb) (fun _ _ => True) (fun f => f ≠ .panic "too big a transaction") s.dev := by
      simp only [logTest, wp_bind, wp_get, wp_failIf, LOGSIZE]
      refine ⟨fun hfull => ?_, fun _ => ⟨fun _ => by simp, fun _ => trivial⟩⟩
      omega
    exact hwp.of_error he rfl

/-- Three brackets within their budget overrun the log that `mkfs` makes. -/
theorem reservation_too_small : ∃ s, (admLts mkfsSuperblock 3).Run threeFullBrackets.reverse s ∧ s.procs 2 = .inOp ∧
    WithinBudget MAXOPBLOCKS (.logTest 2 129 :: threeFullBrackets.reverse) ∧
    (logTest mkfsSuperblock).run s.dev = .error (.panic "too big a transaction") := by
  obtain ⟨s, hr, hp, hfull⟩ := threeFullBrackets_full
  exact ⟨s, hr, hp, by decide, hfull⟩

end Xv6
