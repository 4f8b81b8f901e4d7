import Xv6.Alloc

/-!
# What a transaction leaves alone

`TxFrame` relates the device before and after any code between `begin_op` and `end_op`: the disk and
the transaction count are untouched and the log header only grows, within its limits. `LogStep` adds
that blocks which are not logged keep their contents; only `itrunc`, which clears entries of a block
it is about to free, is not such a step. `end_op` then leaves every home block as the cache has it.
-/

namespace Xv6

open Prog

variable {sb : Superblock} {s : Dev}

structure TxFrame (sb : Superblock) (s s' : Dev) : Prop where
  disk : s'.disk = s.disk
  hist : s'.hist = s.hist
  out : s'.log.outstanding = s.log.outstanding
  committing : s'.log.committing = s.log.committing
  mono : ∀ x ∈ s.log.lh, x ∈ s'.log.lh
  nodup : s.log.lh.Nodup → s'.log.lh.Nodup
  len : s.log.lh.length ≤ LOGSIZE → s'.log.lh.length ≤ LOGSIZE
  room : s.log.lh.length < sb.nlog → s'.log.lh.length < sb.nlog

structure LogStep (sb : Superblock) (s s' : Dev) : Prop extends TxFrame sb s s' where
  unlogged : ∀ b, b ∉ s'.log.lh → s'.cache b = s.cache b

instance : Std.Refl (TxFrame sb) :=
  ⟨fun _ => ⟨rfl, rfl, rfl, rfl, fun _ => id, id, id, id⟩⟩

instance : IsTrans Dev (TxFrame sb) := ⟨fun _ _ _ h h' =>
  ⟨h'.disk.trans h.disk, h'.hist.trans h.hist, h'.out.trans h.out, h'.committing.trans h.committing,
    fun x hx => h'.mono x (h.mono x hx), h'.nodup ∘ h.nodup, h'.len ∘ h.len, h'.room ∘ h.room⟩⟩

instance : Std.Refl (LogStep sb) := ⟨fun s => ⟨Std.Refl.refl s, fun _ _ => rfl⟩⟩

instance : IsTrans Dev (LogStep sb) := ⟨fun a b c h h' =>
  ⟨IsTrans.trans a b c h.toTxFrame h'.toTxFrame, fun x hx => by
    rw [h'.unlogged x hx, h.unlogged x fun hm => hx (h'.mono x hm)]⟩⟩

theorem TxFrame.headOk {s' : Dev} (h : TxFrame sb s s') (hh : HeadOk sb s.log.lh) (hL : Layout sb)
    (hlog : ∀ x ∈ s'.log.lh, x ∈ s.log.lh ∨ sb.inodestart ≤ x ∧ x < sb.size) : HeadOk sb s'.log.lh := by
  refine ⟨h.nodup hh.nodup, fun x hx => ?_, fun x hx => ?_, h.len hh.len, h.room hh.room⟩
  · rcases hlog x hx with hx | hx
    · exact hh.home x hx
    · exact hL.home_of_le hx.1
  · rcases hlog x hx with hx | hx
    · exact hh.lt x hx
    · exact hL.lt_fssize hx.2

/-! ### The functions of `fs.c` -/

theorem keeps_bread (b : Nat) : Keeps (LogStep sb) (bread b) :=
  .bind .failIf fun _ => .bind .get fun _ => .pure _

theorem keeps_logWrite (b : Nat) : Keeps (LogStep sb) (logWrite sb b) := by
  intro s
  simp only [logWrite, wp_bind, wp_get, wp_failIf, wp_modify]
  refine ⟨fun _ => trivial, fun hroom => ⟨fun _ => trivial, fun _ => ?_⟩⟩
  have hlen := length_absorb_le s.log.lh b
  exact ⟨⟨rfl, rfl, rfl, rfl, fun x hx => mem_absorb.2 (.inl hx), fun h => nodup_absorb h b, fun _ => by simp only; omega,
    fun _ => by simp only; omega⟩, fun _ _ => rfl⟩

theorem keeps_logMod (b : Nat) (f : Blk → Blk) : Keeps (LogStep sb) (logMod sb b f) := by
  intro s
  simp only [logMod, bmod, logWrite, wp_bind, wp_get, wp_failIf, wp_modify]
  refine ⟨fun _ => trivial, fun hroom => ⟨fun _ => trivial, fun _ => ?_⟩⟩
  have hlen := length_absorb_le s.log.lh b
  refine ⟨⟨rfl, rfl, rfl, rfl, fun x hx => mem_absorb.2 (.inl hx), fun h => nodup_absorb h b,
    fun _ => by simp only; omega, fun _ => by simp only; omega⟩, fun x hx => Function.update_of_ne ?_ ..⟩
  rintro rfl
  exact hx (mem_absorb.2 (.inr rfl))

theorem keeps_bzero (b : Nat) : Keeps (LogStep sb) (bzero sb b) :=
  .bind (keeps_bread b) fun _ => keeps_logMod b _

theorem keeps_ballocIn (k : Nat) : Keeps (LogStep sb) (ballocIn sb k) := by
  refine .bind (keeps_bread _) fun bp => ?_
  split
  · exact .pure _
  · exact .bind (keeps_logMod _ _) fun _ => .bind (keeps_bzero _) fun _ => .pure _

theorem keeps_balloc : Keeps (LogStep sb) (balloc sb) := by
  refine .bind (.findRange keeps_ballocIn _ _) fun r => ?_
  split
  · exact .pure _
  · exact .throw _

theorem keeps_bfree (b : Nat) : Keeps (LogStep sb) (bfree sb b) :=
  .bind (keeps_bread _) fun _ => .bind .failIf fun _ => keeps_logMod _ _

theorem keeps_iupdate (i : Nat) (d : Dinode) : Keeps (LogStep sb) (iupdate sb i d) :=
  .bind (keeps_bread _) fun _ => keeps_logMod _ _

theorem keeps_iallocTry (t : BitVec 16) (inum : Nat) : Keeps (LogStep sb) (iallocTry sb t inum) :=
  .bind (keeps_bread _) fun _ => .ite (.bind (keeps_logMod _ _) fun _ => .pure _) (.pure _)

theorem keeps_iallocDisk (t : BitVec 16) : Keeps (LogStep sb) (iallocDisk sb t) := by
  rw [iallocDisk]
  refine .bind (.findRange (keeps_iallocTry t) _ _) fun r => ?_
  split
  · exact .pure _
  · exact .throw _

theorem keeps_addrAlloc (d : Dinode) (j : Nat) : Keeps (LogStep sb) (addrAlloc sb d j) :=
  .ite (.bind keeps_balloc fun _ => .pure _) (.pure _)

theorem keeps_entryAlloc (blk e : Nat) (up : Option Nat) : Keeps (LogStep sb) (entryAlloc sb blk e up) := by
  refine .bind (keeps_bread _) fun _ => .ite (.bind keeps_balloc fun _ => .bind (keeps_logMod _ _) fun _ => ?_) (.pure _)
  split
  · exact .pure _
  · exact .bind (keeps_logWrite _) fun _ => .pure _

theorem keeps_bmap (d : Dinode) (bn : Nat) : Keeps (LogStep sb) (bmap sb d bn) := by
  unfold bmap
  split
  · exact keeps_addrAlloc _ _
  split
  · exact .bind (keeps_addrAlloc _ _) fun ⟨_, _⟩ => .bind (keeps_entryAlloc _ _ _) fun _ => .pure _
  split
  · exact .bind (keeps_addrAlloc _ _) fun ⟨_, _⟩ => .bind (keeps_entryAlloc _ _ _) fun _ =>
      .bind (keeps_entryAlloc _ _ _) fun _ => .pure _
  · exact .throw _

theorem keeps_consoleread (n : Nat) : Keeps (LogStep sb) (consoleread n) := by
  intro s
  simp only [consoleread, wp_bind, wp_get]
  split
  · exact Std.Refl.refl s
  all_goals exact ⟨⟨rfl, rfl, rfl, rfl, fun _ => id, id, id, id⟩, fun _ _ => rfl⟩

theorem keeps_readLoop (d : Dinode) (off n tot : Nat) (acc : List Byte) :
    Keeps (LogStep sb) (readLoop sb d off n tot acc) := by
  fun_induction readLoop sb d off n tot acc with
  | case1 d off tot acc h ih =>
    exact .bind (keeps_bmap _ _) fun ⟨_, d'⟩ => .bind (keeps_bread _) fun bp => ih d' bp
  | case2 => exact .pure _

theorem keeps_readi (d : Dinode) (off n : Nat) : Keeps (LogStep sb) (readi sb d off n) :=
  .ite (.ite (.bind (keeps_consoleread n) fun _ => .pure _) (.pure _)) <| .ite (.pure _) <|
    .bind (keeps_readLoop _ _ _ _ _) fun _ => .pure _

theorem keeps_writeLoop (d : Dinode) (src : Nat → Byte) (off n tot : Nat) :
    Keeps (LogStep sb) (writeLoop sb d src off n tot) := by
  fun_induction writeLoop sb d src off n tot with
  | case1 d off tot h ih =>
    exact .bind (keeps_bmap _ _) fun ⟨_, d'⟩ => .bind (keeps_bread _) fun _ => .bind (keeps_logMod _ _) fun _ => ih d'
  | case2 => exact .pure _

theorem keeps_writei (i : Nat) (d : Dinode) (src : Nat → Byte) (off n : Nat) :
    Keeps (LogStep sb) (writei sb i d src off n) :=
  .ite (.ite (.pure _) (.pure _)) <| .ite (.pure _) <| .ite (.pure _) <|
    .bind (keeps_writeLoop _ _ _ _ _) fun _ => .ite (.bind (keeps_iupdate _ _) fun _ => .pure _) (.pure _)

theorem keeps_bmod (b : Nat) (f : Blk → Blk) : Keeps (TxFrame sb) (bmod b f) := fun _ =>
  ⟨rfl, rfl, rfl, rfl, fun _ => id, id, id, id⟩

theorem keeps_txFrame {α : Type} {x : DevM α} (h : Keeps (LogStep sb) x) : Keeps (TxFrame sb) x :=
  Keeps.mono h fun _ _ => LogStep.toTxFrame

theorem keeps_freeEntries (blk : Nat) : Keeps (LogStep sb) (freeEntries sb blk) :=
  .bind (keeps_bread _) fun _ => .forRange (fun _ _ => .ite (.pure _) (keeps_bfree _)) _ _ _

theorem keeps_itrunc (i : Nat) (d : Dinode) : Keeps (TxFrame sb) (itrunc sb i d) := by
  have hfree : ∀ b, Keeps (TxFrame sb) (bfree sb b) := fun b => keeps_txFrame (keeps_bfree b)
  have hent : ∀ b, Keeps (TxFrame sb) (freeEntries sb b) := fun b => keeps_txFrame (keeps_freeEntries b)
  refine .bind (.forRange (fun _ _ => .ite (.pure _) (.bind (hfree _) fun _ => .pure _)) _ _ _) fun _ =>
    .bind (.ite (.pure _) (.bind (hent _) fun _ => .bind (hfree _) fun _ => .pure _)) fun _ => .bind (.ite (.pure _) ?_) fun _ =>
    .bind (keeps_txFrame (keeps_iupdate _ _)) fun _ => .pure _
  refine .bind (keeps_txFrame (keeps_bread _)) fun _ => .bind (.forRange (fun _ _ => .ite (.pure _) ?_) _ _ _) fun _ =>
    .bind (hfree _) fun _ => .pure _
  exact .bind (hent _) fun _ => .bind (hfree _) fun _ => keeps_bmod _ _

/-! ### Brackets -/

theorem beginOp_spec : wp beginOp (fun _ s' => s' = { s with log := { s.log with
    outstanding := s.log.outstanding + 1 } }) (fun e => e = .sleeps) s := by
  simp only [beginOp, wp_bind, wp_get, wp_failIf, wp_modify]
  exact ⟨fun _ => trivial, fun _ => ⟨fun _ => trivial, fun _ => trivial⟩⟩

theorem endOp_spec (ha : LogArea sb) (h : HeadOk sb s.log.lh) :
    wp (endOp sb) (fun _ s' => (∀ b, Home sb b → s'.cache b = s.cache b) ∧
        s'.log.outstanding = s.log.outstanding - 1 ∧ s'.log.committing = false ∧ HeadOk sb s'.log.lh)
      (fun e => e = .panic "log.committing" ∧ s.log.committing = true) s := by
  simp only [endOp, wp_bind, wp_modify, wp_get, wp_failIf, wp_ite, wp_setCommitting, wp_pure]
  refine ⟨fun hc => ⟨trivial, hc⟩, fun hc => ⟨fun _ => ?_, fun _ => ?_⟩⟩
  · refine wp.mono (commit_home ha h) ?_ fun _ => False.elim
    rintro - s₁ ⟨l₁, c₁⟩
    exact ⟨c₁, by rw [l₁], trivial, by rw [l₁]; exact .nil ha⟩
  · exact ⟨fun _ _ => trivial, trivial, by simpa using hc, h⟩

/-- The last `end_op` of a group commits it. -/
theorem wp_endOp_last {Q : Unit → Dev → Prop} {E : Fault → Prop} (ho : s.log.outstanding = 1) (hc : s.log.committing = false)
    (h : wp (commit sb) (fun _ s' => Q () { s' with log := { s'.log with committing := false } }) E
      { s with log := ⟨0, true, s.log.lh⟩ }) : wp (endOp sb) Q E s := by
  simp only [endOp, wp_bind, wp_modify, wp_get, wp_failIf, wp_ite, wp_setCommitting, ho]
  refine ⟨fun hc' => ?_, fun _ => ⟨fun _ => h, fun hno => absurd rfl hno⟩⟩
  rw [hc] at hc'
  cases hc'

end Xv6
