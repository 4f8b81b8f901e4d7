import Xv6.Sysfile
import Xv6.Tx
import Mathlib.Data.Multiset.Count

/-!
# References and locks during a call

`Holds s₀ env tmp locks n s` describes the inode cache while a call runs: `env e` references to entry
`e` belong to open files and current directories, the call itself has the references `tmp` and the
locks `locks`, and `n` transactions are open. Entries with a reference in `env` are the same inodes as
in `s₀` and have not been freed since. Nothing is assumed about the disk, and nothing is said about
calls that panic or sleep for good.
-/

namespace Xv6

open Prog

abbrev AnyFault : Fault → Prop := fun _ => True

structure Holds (s₀ : Fs) (env : Nat → Nat) (tmp locks : Multiset Nat) (n : Nat) (s : Fs) : Prop where
  ref : ∀ e, (s.icache e).ref = (env e + tmp.count e : Nat)
  lock : ∀ e, (s.icache e).locked.toNat = locks.count e
  out : s.dev.log.outstanding = n
  idle : s.dev.log.committing = false
  known : ∀ e, 0 < (s.icache e).ref → e < NINODE ∧ (s.icache e).dev = ROOTDEV
  uniq : ∀ e e', 0 < (s.icache e).ref → 0 < (s.icache e').ref → (s.icache e).inum = (s.icache e').inum → e = e'
  keep : ∀ e, 0 < env e → (s.icache e).inum = (s₀.icache e).inum
  freed : ∃ l, s.freed = l ++ s₀.freed ∧ ∀ e, 0 < env e → (s₀.icache e).inum ∉ l

section

variable {sb : Superblock} {s₀ s s' : Fs} {env : Nat → Nat} {tmp locks : Multiset Nat} {n ip : Nat}

namespace Holds

theorem congr (h : Holds s₀ env tmp locks n s) (hr : ∀ e, (s'.icache e).ref = (s.icache e).ref)
    (hl : ∀ e, (s'.icache e).locked = (s.icache e).locked) (hd : ∀ e, (s'.icache e).dev = (s.icache e).dev)
    (hi : ∀ e, (s'.icache e).inum = (s.icache e).inum) (ho : s'.dev.log.outstanding = s.dev.log.outstanding)
    (hc : s'.dev.log.committing = s.dev.log.committing) (hf : s'.freed = s.freed) :
    Holds s₀ env tmp locks n s' := by
  refine ⟨fun e => ?_, fun e => ?_, ho.trans h.out, hc.trans h.idle, fun e he => ?_, fun e e' he he' => ?_, fun e he => ?_, ?_⟩
  · rw [hr, h.ref]
  · rw [hl, h.lock]
  · rw [hr] at he
    rw [hd]
    exact h.known e he
  · rw [hr] at he he'
    rw [hi, hi]
    exact h.uniq e e' he he'
  · rw [hi, h.keep e he]
  · rw [hf]
    exact h.freed

theorem update (h : Holds s₀ env tmp locks n s) {e' : Inode} {tmp' locks' : Multiset Nat}
    (hr : e'.ref = (env ip + tmp'.count ip : Nat)) (hl : e'.locked.toNat = locks'.count ip)
    (hd : 0 < e'.ref → ip < NINODE ∧ e'.dev = ROOTDEV)
    (hu : 0 < e'.ref → ∀ e, e ≠ ip → 0 < (s.icache e).ref → (s.icache e).inum ≠ e'.inum)
    (hk : 0 < env ip → e'.inum = (s.icache ip).inum) (ht : ∀ e, e ≠ ip → tmp'.count e = tmp.count e)
    (hlo : ∀ e, e ≠ ip → locks'.count e = locks.count e) :
    Holds s₀ env tmp' locks' n { s with icache := Function.update s.icache ip e' } := by
  refine ⟨fun e => ?_, fun e => ?_, h.out, h.idle, fun e he => ?_, fun e₁ e₂ h₁ h₂ hi => ?_, fun e he => ?_, h.freed⟩
  · rcases eq_or_ne e ip with rfl | hne
    · simpa using hr
    · simp only [Function.update_of_ne hne, h.ref, ht e hne]
  · rcases eq_or_ne e ip with rfl | hne
    · simpa using hl
    · simp only [Function.update_of_ne hne, h.lock, hlo e hne]
  · rcases eq_or_ne e ip with rfl | hne
    · simp only [Function.update_self] at he ⊢
      exact hd he
    · simp only [Function.update_of_ne hne] at he ⊢
      exact h.known e he
  · by_cases hq₁ : e₁ = ip <;> by_cases hq₂ : e₂ = ip
    · rw [hq₁, hq₂]
    · subst hq₁
      simp only [Function.update_self, Function.update_of_ne hq₂] at h₁ h₂ hi
      exact absurd hi.symm (hu h₁ e₂ hq₂ h₂)
    · subst hq₂
      simp only [Function.update_self, Function.update_of_ne hq₁] at h₁ h₂ hi
      exact absurd hi (hu h₂ e₁ hq₁ h₁)
    · simp only [Function.update_of_ne hq₁, Function.update_of_ne hq₂] at h₁ h₂ hi
      exact h.uniq e₁ e₂ h₁ h₂ hi
  · rcases eq_or_ne e ip with rfl | hne
    · simp only [Function.update_self, hk he, h.keep e he]
    · simp only [Function.update_of_ne hne, h.keep e he]

theorem set (h : Holds s₀ env tmp locks n s) {e' : Inode} (hr : e'.ref = (s.icache ip).ref)
    (hl : e'.locked = (s.icache ip).locked) (hd : e'.dev = (s.icache ip).dev) (hi : e'.inum = (s.icache ip).inum) :
    Holds s₀ env tmp locks n { s with icache := Function.update s.icache ip e' } := by
  refine h.update (hr.trans (h.ref ip)) (hl ▸ h.lock ip) (fun hp => ?_) (fun hp e he hpe hin => he ?_) (fun _ => hi)
    (fun _ _ => rfl) fun _ _ => rfl
  · rw [hd]
    exact h.known ip (hr ▸ hp)
  · exact h.uniq e ip hpe (hr ▸ hp) (hin.trans hi)

theorem setLock (h : Holds s₀ env tmp locks n s) {locks' : Multiset Nat} {b : Bool} (hip : b.toNat = locks'.count ip)
    (ho : ∀ e, e ≠ ip → locks'.count e = locks.count e) : Holds s₀ env tmp locks' n
      { s with icache := Function.update s.icache ip { s.icache ip with locked := b } } :=
  h.update (h.ref ip) hip (fun hp => h.known ip hp) (fun hp e he hpe hin => he (h.uniq e ip hpe hp hin)) (fun _ => rfl)
    (fun _ _ => rfl) ho

theorem setRef (h : Holds s₀ env tmp locks n s) (hpos : 0 < (s.icache ip).ref) {tmp' : Multiset Nat} {r : Int}
    (hip : r = (env ip + tmp'.count ip : Nat)) (ho : ∀ e, e ≠ ip → tmp'.count e = tmp.count e) :
    Holds s₀ env tmp' locks n { s with icache := Function.update s.icache ip { s.icache ip with ref := r } } :=
  h.update hip (h.lock ip) (fun _ => h.known ip hpos) (fun _ e he hpe hin => he (h.uniq e ip hpe hpos hin)) (fun _ => rfl)
    ho fun _ _ => rfl

theorem pos (h : Holds s₀ env (ip ::ₘ tmp) locks n s) : 0 < (s.icache ip).ref := by
  rw [h.ref, Multiset.count_cons_self]
  omega

theorem rebase (h : Holds s₀ env tmp locks n s) {env' : Nat → Nat} {tmp' : Multiset Nat}
    (he : ∀ e, env' e + tmp'.count e = env e + tmp.count e) : Holds s env' tmp' locks n s :=
  ⟨fun e => by rw [he, h.ref], h.lock, h.out, h.idle, h.known, h.uniq, fun _ _ => rfl, [], rfl, fun _ _ => by simp⟩

end Holds

/-! ### The device -/

theorem holds_beginOp (h : Holds s₀ env tmp locks n s) :
    wp (onDev beginOp) (fun _ => Holds s₀ env tmp locks (n + 1)) AnyFault s := by
  refine wp_onDev.2 (beginOp_spec.mono ?_ fun _ _ => trivial)
  rintro _ _ rfl
  exact { h with out := by simp only [h.out]; omega }

def SameBrackets (v v' : Dev) : Prop :=
  v'.log.outstanding = v.log.outstanding ∧ v'.log.committing = v.log.committing

instance : Std.Refl SameBrackets := ⟨fun _ => ⟨rfl, rfl⟩⟩

instance : IsTrans Dev SameBrackets := ⟨fun _ _ _ h h' => ⟨h'.1.trans h.1, h'.2.trans h.2⟩⟩

theorem keeps_brackets {α : Type} {x : DevM α} (h : Keeps (TxFrame sb) x) : Keeps SameBrackets x :=
  Keeps.mono h fun _ _ h => ⟨h.out, h.committing⟩

theorem holds_onDev {α : Type} {x : DevM α} (hx : Keeps SameBrackets x) (h : Holds s₀ env tmp locks n s) :
    wp (onDev x) (fun _ s' => Holds s₀ env tmp locks n s' ∧ s'.icache = s.icache) AnyFault s := by
  refine wp_onDev.2 ((hx s.dev).post fun _ v hv => ⟨?_, rfl⟩)
  exact h.congr (fun _ => rfl) (fun _ => rfl) (fun _ => rfl) (fun _ => rfl) hv.1 hv.2 rfl

theorem keeps_bread_brackets (b : Nat) : Keeps SameBrackets (bread b) :=
  .bind .failIf fun _ => .bind .get fun _ => .pure _

theorem keeps_bput_brackets (b : Nat) (v : Blk) : Keeps SameBrackets (bput b v) := fun _ => ⟨rfl, rfl⟩

theorem keeps_bwrite_brackets (b : Nat) : Keeps SameBrackets (bwrite b) := fun _ => ⟨rfl, rfl⟩

theorem keeps_installTrans : Keeps SameBrackets (installTrans sb) :=
  .bind .get fun _ => .forRange (fun _ _ => .bind (keeps_bread_brackets _) fun _ => .bind (keeps_bread_brackets _) fun _ =>
    .bind (keeps_bput_brackets _ _) fun _ => keeps_bwrite_brackets _) _ _ _

theorem keeps_writeHead : Keeps SameBrackets (writeHead sb) :=
  .bind (keeps_bread_brackets _) fun _ => .bind .get fun _ => .bind (keeps_bput_brackets _ _) fun _ =>
    keeps_bwrite_brackets _

theorem keeps_writeLog : Keeps SameBrackets (writeLog sb) :=
  .bind .get fun _ => .forRange (fun _ _ => .bind (keeps_bread_brackets _) fun _ => .bind (keeps_bread_brackets _) fun _ =>
    .bind (keeps_bput_brackets _ _) fun _ => keeps_bwrite_brackets _) _ _ _

theorem keeps_clearHead : Keeps SameBrackets clearHead := fun _ => ⟨rfl, rfl⟩

theorem keeps_commit : Keeps SameBrackets (commit sb) :=
  .bind .get fun _ => .ite (.bind keeps_writeLog fun _ => .bind keeps_writeHead fun _ => .bind keeps_installTrans fun _ =>
    .bind keeps_clearHead fun _ => keeps_writeHead) (.pure _)

theorem holds_endOp (h : Holds s₀ env tmp locks (n + 1) s) :
    wp (onDev (endOp sb)) (fun _ => Holds s₀ env tmp locks n) AnyFault s := by
  have hout : s.dev.log.outstanding - 1 = n := by rw [h.out]; omega
  refine wp_onDev.2 ?_
  simp only [endOp, wp_bind, wp_modify, wp_get, wp_failIf, wp_ite, wp_setCommitting, wp_pure]
  refine ⟨fun _ => trivial, fun hc => ⟨fun _ => ?_, fun _ => ?_⟩⟩
  · refine (keeps_commit _).post fun _ v hv => ?_
    exact { h with out := hv.1.trans hout, idle := rfl }
  · exact { h with out := hout, idle := by simpa using hc }

/-! ### The inode cache -/

theorem holds_iget (h : Holds s₀ env tmp locks n s) (i : Nat) :
    wp (iget ROOTDEV i) (fun ip => Holds s₀ env (ip ::ₘ tmp) locks n) AnyFault s := by
  have hadd : ∀ {ip e : Nat}, e ≠ ip → (ip ::ₘ tmp).count e = tmp.count e := fun hne => Multiset.count_cons_of_ne hne _
  rw [iget]
  refine wp_bind.2 (wp_get.2 ?_)
  split
  · next ip hf =>
    obtain ⟨-, hp⟩ := findInode_some hf
    simp only [decide_eq_true_eq] at hp
    refine h.setRef hp.1 ?_ fun e he => hadd he
    rw [h.ref, Multiset.count_cons_self]
    rfl
  · next hf =>
    split
    · trivial
    · next ip hf' =>
      obtain ⟨hip, hz⟩ := findInode_some hf'
      simp only [decide_eq_true_eq] at hz
      -- nobody refers to the recycled entry, and no entry stands for the same inode
      have hnone : env ip = 0 ∧ tmp.count ip = 0 := by
        have := h.ref ip
        rw [hz] at this
        omega
      have hout : ∀ e, 0 < (s.icache e).ref → (s.icache e).inum ≠ i := by
        intro e hp hin
        obtain ⟨hlt, hdev⟩ := h.known e hp
        have := findInode_none hf hlt
        simp only [decide_eq_false_iff_not] at this
        exact this ⟨hp, hdev, hin⟩
      refine h.update ?_ (h.lock ip) (fun _ => ⟨hip, rfl⟩) (fun _ e _ hp => hout e hp) (fun hp => ?_) (fun e he => hadd he)
        fun _ _ => rfl
      · rw [hnone.1, Multiset.count_cons_self, hnone.2]
        rfl
      · omega

theorem holds_idup (h : Holds s₀ env tmp locks n s) (hpos : 0 < (s.icache ip).ref) :
    wp (idup ip) (fun r s' => r = ip ∧ Holds s₀ env (ip ::ₘ tmp) locks n s') AnyFault s := by
  refine ⟨rfl, h.setRef hpos ?_ fun e he => Multiset.count_cons_of_ne he _⟩
  rw [h.ref, Multiset.count_cons_self]
  rfl

theorem holds_acquiresleep (h : Holds s₀ env tmp locks n s) :
    wp (acquiresleep ip) (fun _ s' => Holds s₀ env tmp (ip ::ₘ locks) n s' ∧ ∀ e, s'.icache e =
      if e = ip then { s.icache ip with locked := true } else s.icache e) AnyFault s := by
  simp only [acquiresleep, wp_bind, wp_get, wp_failIf, wp_setInode]
  refine ⟨fun _ => trivial, fun hl => ⟨h.setLock ?_ fun e he => Multiset.count_cons_of_ne he _, fun e => ?_⟩⟩
  · have := h.lock ip
    simp only [Bool.not_eq_true] at hl
    rw [hl] at this
    rw [Multiset.count_cons_self, ← this]
    rfl
  · simp only [Function.update_apply]

theorem holds_releasesleep (h : Holds s₀ env tmp (ip ::ₘ locks) n s) :
    wp (releasesleep ip) (fun _ s' => Holds s₀ env tmp locks n s' ∧ (s'.icache ip).ref = (s.icache ip).ref) AnyFault s := by
  refine ⟨h.setLock ?_ fun e he => (Multiset.count_cons_of_ne he _).symm, ?_⟩
  · have := h.lock ip
    rw [Multiset.count_cons_self] at this
    have hle := Bool.toNat_le (s.icache ip).locked
    rw [show locks.count ip = 0 by omega]
    rfl
  · simp

theorem holds_ilock (h : Holds s₀ env tmp locks n s) :
    wp (ilock sb ip) (fun _ => Holds s₀ env tmp (ip ::ₘ locks) n) AnyFault s := by
  rw [ilock]
  simp only [wp_bind, wp_get, wp_failIf]
  refine ⟨fun _ => trivial, fun _ => (holds_acquiresleep h).post fun _ s₁ h₁ => ?_⟩
  split
  · exact h₁.1
  · refine wp.bind (holds_onDev (keeps_bread_brackets _) h₁.1) fun bp s₂ h₂ => ?_
    simp only [wp_bind, wp_setInode, wp_failIf]
    exact ⟨fun _ => trivial, fun _ => h₂.1.set rfl rfl rfl rfl⟩

theorem holds_iunlock (h : Holds s₀ env tmp (ip ::ₘ locks) n s) :
    wp (iunlock ip) (fun _ => Holds s₀ env tmp locks n) AnyFault s := by
  rw [iunlock]
  simp only [wp_bind, wp_get, wp_failIf]
  exact ⟨fun _ => trivial, fun _ => (holds_releasesleep h).post fun _ _ => And.left⟩

theorem holds_setInode (h : Holds s₀ env tmp locks n s) {g : Inode → Inode}
    (hg : ∀ e, (g e).ref = e.ref ∧ (g e).locked = e.locked ∧ (g e).dev = e.dev ∧ (g e).inum = e.inum) :
    wp (setInode ip g) (fun _ s' => Holds s₀ env tmp locks n s' ∧ (s'.icache ip).ref = (s.icache ip).ref) AnyFault s := by
  obtain ⟨h1, h2, h3, h4⟩ := hg (s.icache ip)
  exact ⟨h.set h1 h2 h3 h4, by simpa using h1⟩

theorem holds_iupdate (h : Holds s₀ env tmp locks n s) :
    wp (Icache.iupdate sb ip) (fun _ s' => Holds s₀ env tmp locks n s' ∧ s'.icache = s.icache) AnyFault s := by
  rw [Icache.iupdate]
  refine wp_bind.2 (wp_get.2 ?_)
  exact holds_onDev (keeps_brackets (keeps_txFrame (keeps_iupdate _ _))) h

theorem holds_setFields (h : Holds s₀ env tmp locks n s) (g : Dinode → Dinode) :
    wp (setFields sb ip g) (fun _ => Holds s₀ env tmp locks n) AnyFault s :=
  wp.bind (holds_setInode h fun _ => ⟨rfl, rfl, rfl, rfl⟩) fun _ _ h₁ => (holds_iupdate h₁.1).post fun _ _ => And.left

theorem holds_readi (h : Holds s₀ env tmp (ip ::ₘ locks) n s) (off m : Nat) :
    wp (Icache.readi sb ip off m) (fun _ => Holds s₀ env tmp (ip ::ₘ locks) n) AnyFault s := by
  rw [Icache.readi]
  refine wp_bind.2 (wp_get.2 ?_)
  dsimp only
  split
  · have hcons : Keeps SameBrackets (consoleread m) :=
      have hk : Keeps (LogStep sb) (consoleread m) := keeps_consoleread m
      keeps_brackets (keeps_txFrame hk)
    refine wp.bind (holds_iunlock h) fun _ s₁ h₁ => ?_
    refine wp.bind (holds_onDev hcons h₁) fun _ s₂ h₂ => ?_
    exact wp.bind (holds_ilock h₂.1) fun _ _ h₃ => h₃
  · refine wp.bind (holds_onDev (keeps_brackets (keeps_txFrame (keeps_readi _ _ _))) h) fun ⟨r, d⟩ s₁ h₁ => ?_
    exact wp.bind (holds_setInode h₁.1 fun _ => ⟨rfl, rfl, rfl, rfl⟩) fun _ _ => And.left

theorem holds_writei (h : Holds s₀ env tmp (ip ::ₘ locks) n s) (src : Nat → Byte) (off m : Nat) :
    wp (Icache.writei sb ip src off m) (fun _ => Holds s₀ env tmp (ip ::ₘ locks) n) AnyFault s := by
  rw [Icache.writei]
  refine wp_bind.2 (wp_get.2 ?_)
  dsimp only
  split
  · refine wp.bind (holds_iunlock h) fun _ s₁ h₁ => ?_
    exact wp.bind (holds_ilock h₁) fun _ _ h₃ => h₃
  · refine wp.bind (holds_onDev (keeps_brackets (keeps_txFrame (keeps_writei _ _ _ _ _))) h) fun ⟨r, d⟩ s₁ h₁ => ?_
    exact wp.bind (holds_setInode h₁.1 fun _ => ⟨rfl, rfl, rfl, rfl⟩) fun _ _ => And.left

theorem holds_ifree (h : Holds s₀ env (ip ::ₘ tmp) locks n s) (h1 : (s.icache ip).ref = 1) :
    wp (ifree sb ip) (fun _ => Holds s₀ env (ip ::ₘ tmp) locks n) AnyFault s := by
  rw [ifree, Icache.itrunc]
  simp only [wp_bind, wp_get]
  refine (holds_onDev (keeps_brackets (keeps_itrunc _ _)) h).post fun d s₁ h₁ => ?_
  have hr₁ : (s₁.icache ip).ref = 1 := by rw [h₁.2, h1]
  refine wp.post (holds_setInode h₁.1 fun _ => by simp) fun _ s₂ h₂ => ?_
  refine wp.post (holds_setInode h₂.1 fun _ => by simp) fun _ s₃ h₃ => ?_
  refine (holds_iupdate h₃.1).post fun _ s₄ h₄ => ?_
  have hr₄ : (s₄.icache ip).ref = 1 := by rw [h₄.2, h₃.2, h₂.2, hr₁]
  have hH := h₄.1
  have henv : env ip = 0 := by
    have := hH.ref ip
    rw [hr₄, Multiset.count_cons_self] at this
    omega
  have hfree : Holds s₀ env (ip ::ₘ tmp) locks n { s₄ with freed := (s₄.icache ip).inum :: s₄.freed } := by
    obtain ⟨l, hl, hno⟩ := hH.freed
    refine { hH with freed := ⟨(s₄.icache ip).inum :: l, by simp [hl], fun e he hmem => ?_⟩ }
    rcases List.mem_cons.1 hmem with heq | hmem
    · have hpe : 0 < (s₄.icache e).ref := by
        rw [hH.ref]
        omega
      have : e = ip := hH.uniq e ip hpe (by rw [hr₄]; decide) ((hH.keep e he).trans heq)
      rw [this] at he
      omega
    · exact hno e he hmem
  simp only [wp_modify]
  exact wp.post (holds_setInode hfree fun _ => by simp) fun _ _ => And.left

theorem holds_iput (h : Holds s₀ env (ip ::ₘ tmp) locks n s) :
    wp (iput sb ip) (fun _ => Holds s₀ env tmp locks n) AnyFault s := by
  rw [iput]
  refine wp.bind (holds_acquiresleep h) fun _ s₁ h₁ => ?_
  have hlast : wp (ifreeLast sb ip) (fun _ => Holds s₀ env (ip ::ₘ tmp) (ip ::ₘ locks) n) AnyFault s₁ := by
    rw [ifreeLast]
    simp only [wp_bind, wp_get]
    split
    · next hc => exact holds_ifree h₁.1 hc.2.2
    · exact h₁.1
  refine wp.bind hlast fun _ s₂ h₂ => ?_
  refine wp.bind (holds_releasesleep h₂) fun _ s₃ h₃ => ?_
  refine h₃.1.setRef h₃.1.pos ?_ fun e he => (Multiset.count_cons_of_ne he _).symm
  have := h₃.1.ref ip
  rw [Multiset.count_cons_self] at this
  omega

theorem holds_iunlockput (h : Holds s₀ env (ip ::ₘ tmp) (ip ::ₘ locks) n s) :
    wp (iunlockput sb ip) (fun _ => Holds s₀ env tmp locks n) AnyFault s :=
  wp.bind (holds_iunlock h) fun _ _ h₁ => holds_iput h₁

theorem holds_ialloc (h : Holds s₀ env tmp locks n s) (type : BitVec 16) :
    wp (ialloc sb ROOTDEV type) (fun ip => Holds s₀ env (ip ::ₘ tmp) locks n) AnyFault s :=
  wp.bind (holds_onDev (keeps_brackets (keeps_txFrame (keeps_iallocDisk type))) h) fun i _ h₁ => holds_iget h₁.1 i

end

end Xv6
