import Xv6.Create
import Xv6.RefRun

/-!
# Failed calls

A call on names that fails has taken references and locks, and `sys_link` has counted a link; all of it
is given back before the transaction ends. What cannot be given back is an inode that has no link: the
last reference to it frees it. `sys_open` does not give a file back that it has created.
-/

namespace Xv6

open Prog Function

/-- The process that is about to make a call is the only one in the file system; its current directory is inode `c`. -/
structure Ready (sb : Superblock) (k : Kernel) (c : Nat) : Prop where
  rest : AtRest sb k.fs
  alone : k.fs.dev.log.outstanding = 0
  log : k.fs.dev.log.lh = []
  dur : Durable sb (fun _ => True) k.fs.dev
  cwd : CwdAt k.fs (refsOf k.fs) k.proc.cwd c
  root : ROOTINO < sb.ninodes
  entry : ∀ i nd l j nm, storeOf sb k.fs.dev.cache i = some nd → nd.type = T_DIR → HasEntry nd.bytes l j nm → j < sb.ninodes

structure NamesLinked (sb : Superblock) (s : Fs) : Prop where
  root : Retained (storeOf sb s.dev.cache) (Cached s) ROOTINO
  entry : ∀ i nd l j nm, storeOf sb s.dev.cache i = some nd → nd.type = T_DIR → HasEntry nd.bytes l j nm →
    Retained (storeOf sb s.dev.cache) (Cached s) j

/-- Nothing has changed in the blocks that hold inodes, the free map and the files, in memory and on the
disk, in the reference counts of the inode cache, and outside the file system. -/
structure Unchanged (sb : Superblock) (k k' : Kernel) : Prop where
  cache : ∀ b, Home sb b → k'.fs.dev.cache b = k.fs.dev.cache b
  disk : ∀ b, Home sb b → Needed sb k.fs.dev.cache b → k'.fs.dev.disk b = k.fs.dev.disk b
  ref : ∀ e, (k'.fs.icache e).ref = (k.fs.icache e).ref
  inum : ∀ e, 0 < (k.fs.icache e).ref → (k'.fs.icache e).inum = (k.fs.icache e).inum
  rest : k' = { k with fs := k'.fs }

def nameCalls : List SysCall := [.SYS_link, .SYS_unlink, .SYS_mkdir, .SYS_mknod, .SYS_chdir]

theorem tolerant_any : Tolerant fun _ => True :=
  ⟨trivial, trivial, trivial, trivial, trivial, trivial, fun _ _ => trivial⟩

theorem any_store {F : Store} : ∀ p ∈ (some fun _ => True : Option (Store → Prop)), p F := fun p hp => by
  rw [← Option.mem_some.1 hp]
  trivial

theorem wp_any {σ ε α : Type} {x : Prog σ ε α} {s : σ} : wp x (fun _ _ => True) (fun _ => True) s :=
  wp_run.mono (fun _ _ _ => trivial) fun _ _ => trivial

theorem wp_skip {σ ε α β : Type} {x : Prog σ ε α} {f : α → Prog σ ε β} {Q : β → σ → Prop} {s : σ}
    (h : ∀ a s', wp (f a) Q (fun _ => True) s') : wp (x >>= f) Q (fun _ => True) s :=
  wp.bind wp_any fun a s' _ => h a s'

section

variable {sb : Superblock} {P : Option (Store → Prop)} {F : Store} {k k' : Kernel} {s₀ s s' : Fs}
    {env : Nat → Nat} {E : Fault → Prop}
variable {c : Nat} {path : List Byte} {type major minor : BitVec 16} {Q : Int → Kernel → Prop}

theorem Unchanged.refl (sb : Superblock) (k : Kernel) : Unchanged sb k k :=
  ⟨fun _ _ => rfl, fun _ _ _ => rfl, fun _ => rfl, fun _ _ => rfl, rfl⟩

theorem Ready.sees (h : Ready sb k c) :
    Sees sb (some fun _ => True) k.fs (refsOf k.fs) 0 (storeOf sb k.fs.dev.cache) 0 0 k.fs := by
  have := h.rest.seesDurable (P := some fun _ => True) fun p hp => by
    rw [← Option.mem_some.1 hp]
    exact h.dur
  rwa [h.alone] at this

theorem Ready.named (h : Ready sb k c) (hn : NamesLinked sb k.fs) {hs : Multiset (Nat × Nat)} :
    Named sb (storeOf sb k.fs.dev.cache) (InUse k.fs (refsOf k.fs) hs) :=
  ⟨h.root, fun nd hF hz => (hn.root nd hF hz).inUse, fun i nd l j nm hF ht he =>
    ⟨h.entry i nd l j nm hF ht he, fun md hmd hz => (hn.entry i nd l j nm hF ht he md hmd hz).inUse⟩⟩

theorem Ready.walks (h : Ready sb k c) (hn : NamesLinked sb k.fs) :
    Walks sb k.fs (refsOf k.fs) (storeOf sb k.fs.dev.cache) 0 (fun _ => True) k.proc.cwd c :=
  (h.named hn).walks tolerant_any h.cwd

theorem Failed.unchanged (hL : Layout sb) (h : Ready sb k c)
    (hf : Failed sb (some fun _ => True) k.fs (refsOf k.fs) F k.fs s') : Unchanged sb k { k with fs := s' } := by
  have hdur := hf.sees.dur _ rfl
  refine ⟨hf.home, fun b hb hn => ?_, fun e => ?_, fun e he => ?_, rfl⟩
  · have hn' : Needed sb s'.dev.cache b := hn.congr hL hf.sees.ok.fs.owned fun b hb => (hf.home b hb).symm
    have hno : b ∉ s'.dev.log.lh := by
      rw [hf.log]
      exact List.not_mem_nil
    have hno₀ : b ∉ k.fs.dev.log.lh := by
      rw [h.log]
      exact List.not_mem_nil
    calc s'.dev.disk b = s'.dev.cache b := (hdur.behind b hb hno hn').symm
      _ = k.fs.dev.cache b := hf.home b hb
      _ = k.fs.dev.disk b := h.dur.behind b hb hno₀ hn
  · have href := hf.sees.ref e
    rw [Multiset.map_zero, Multiset.count_zero, Nat.add_zero] at href
    exact href.trans (Int.toNat_of_nonneg (h.rest.nonneg e))
  · refine hf.sees.keep e ?_
    unfold refsOf
    omega

/-! ### Calls at the level of the kernel -/

theorem sees_failK (hL : Layout sb) (h : Sees sb P s₀ env 1 F 0 0 s) (hP : ∀ p ∈ P, p F) (hdev : s.dev.cache = k.fs.dev.cache)
    (hbad : ∀ s', Failed sb P s₀ env F k.fs s' → Q (-1) { k with fs := s' }) :
    wp (do endOpK sb; pure (-1)) Q E { k with fs := s } := by
  refine wp_bind.2 (wp_onFs.2 ((sees_endOp hL h hP).mono ?_ fun _ => False.elim))
  rintro _ s₁ ⟨h₁, hhome, hlog⟩
  exact hbad s₁ ⟨h₁, fun b hb => by rw [hhome b hb, hdev], hlog⟩

theorem sees_releaseK {ip i : Nat} {r : Int} (hL : Layout sb)
    (h : Sees sb P s₀ env 1 F ((ip, i) ::ₘ 0) (ip ::ₘ 0) s) (hk : Retained F (InUse s₀ env 0) i)
    (hP : ∀ p ∈ P, p F) (hdev : s.dev.cache = k.fs.dev.cache)
    (hbad : ∀ s', Failed sb P s₀ env F k.fs s' → Q r { k with fs := s' }) :
    wp (do onFs (iunlockput sb ip); endOpK sb; pure r) Q E { k with fs := s } := by
  refine wp_bind.2 (wp_onFs.2 ((sees_unlock hL h hk).post ?_))
  rintro _ s₁ ⟨h₁, hdev₁⟩
  refine wp_bind.2 (wp_onFs.2 ((sees_endOp hL h₁ hP).mono ?_ fun _ => False.elim))
  rintro _ s₂ ⟨h₂, hhome, hlog⟩
  exact hbad s₂ ⟨h₂, fun b hb => by rw [hhome b hb, hdev₁, hdev], hlog⟩

theorem sees_mkInode (hL : Layout sb) (hw : Walks sb s₀ env F 0 E k.proc.cwd c) (hP : ∀ p ∈ P, p F)
    (h : Sees sb P s₀ env 0 F 0 0 k.fs)
    (hbegin : k.fs.dev.log.lh.length + (0 + 1) * MAXOPBLOCKS ≤ LOGSIZE ∨ E .sleeps) (path : List Byte)
      (type major minor : BitVec 16)
    (hbad : ∀ s', Refused F c path type → Failed sb P s₀ env F k.fs s' → Q (-1) { k with fs := s' })
    (hold : ∀ i j pd md name s', Entry F c path i j pd md name → Reused type md →
      Failed sb P s₀ env F k.fs s' → Q 0 { k with fs := s' })
    (hnew : ∀ dp i pd name s₁, NoEntry F c path i pd name → pd.bytes.length % 16 = 0 → Visit F (InUse s₀ env 0) E i →
      Sees sb P s₀ env 1 F ((dp, i) ::ₘ 0) {dp} s₁ → s₁.dev = { k.fs.dev with log := { k.fs.dev.log with outstanding := 1 } } →
      wp (createNew sb dp name type major minor)
        (fun ip s₂ => wp (do onFs (iunlockput sb ip); endOpK sb; pure 0) Q E { k with fs := s₂ }) E s₁) :
    wp (mkInode sb (some (path, type, major, minor))) Q E k := by
  rw [mkInode]
  refine wp_bind.2 (wp_onFs.2 ((sees_beginOp hL h hbegin).post ?_))
  rintro _ s₁ ⟨h₁, hdev₁⟩
  refine wp_bind.2 (wp_get.2 (wp_bind.2 (wp_onFs.2 (sees_create hL hw h₁ path type major minor ?_ ?_ ?_))))
  · intro s₂ href h₂ hdev₂
    exact sees_failK (k := k) hL h₂ hP (by rw [hdev₂, hdev₁]) fun s' => hbad s' href
  · intro ip i j pd md name s₂ hentry hreuse hv h₂ hdev₂
    exact sees_releaseK (k := k) hL h₂ hv.linked hP (by rw [hdev₂, hdev₁]) fun s' => hold i j pd md name s' hentry hreuse
  · intro dp i pd name s₂ hno ha hv h₂ hdev₂
    exact hnew dp i pd name s₂ hno ha hv h₂ (hdev₂.trans hdev₁)

/-! ### Failed calls on names -/

theorem emptyOp_unchanged (hL : Layout sb) (h : Ready sb k c) :
    wp (do beginOpK; endOpK sb; pure (-1)) (fun r k' => r = -1 → Unchanged sb k k') (fun _ => True) k := by
  refine wp_bind.2 (wp_onFs.2 ((sees_beginOp hL h.sees (.inr trivial)).post ?_))
  rintro _ s₁ ⟨h₁, hdev₁⟩
  exact sees_failK (k := k) hL h₁ any_store (by rw [hdev₁]) fun s' hf _ => hf.unchanged hL h

theorem sysLink_unchanged (hL : Layout sb) (h : Ready sb k c) (hn : NamesLinked sb k.fs) :
    wp (sysLink sb) (fun r k' => r = -1 → Unchanged sb k k') (fun _ => True) k := by
  rw [sysLink]
  refine wp_bind.2 (wp_get.2 ?_)
  dsimp only
  split
  · refine wp_onFs.2 (sees_link hL tolerant_any (h.named hn) h.cwd any_store h.sees _ _
      (fun s' hf _ => hf.unchanged hL h) fun ip i nd j pd name s₁ _ _ _ _ _ _ _ _ => ?_)
    exact wp_skip fun _ _ => wp_skip fun _ _ hr => absurd hr (by decide)
  · exact fun _ => .refl sb k

theorem sysUnlink_unchanged (hL : Layout sb) (h : Ready sb k c) (hn : NamesLinked sb k.fs) :
    wp (sysUnlink sb) (fun r k' => r = -1 → Unchanged sb k k') (fun _ => True) k := by
  rw [sysUnlink]
  refine wp_bind.2 (wp_get.2 ?_)
  dsimp only
  split
  · refine wp_onFs.2 (sees_unlink hL tolerant_any (h.named hn) h.cwd any_store h.sees _
      (.inl trivial) (fun s' hf _ => hf.unchanged hL h) fun dp ip i j off nd md name s₁ _ _ _ => ?_)
    exact wp_skip fun _ _ => wp_skip fun _ _ => wp_skip fun _ _ => wp_skip fun _ _ =>
      wp_skip fun _ _ => wp_skip fun _ _ => wp_skip fun _ _ hr => absurd hr (by decide)
  · exact fun _ => .refl sb k

theorem mkInode_unchanged (hL : Layout sb) (h : Ready sb k c) (hn : NamesLinked sb k.fs)
    (args : Option (List Byte × BitVec 16 × BitVec 16 × BitVec 16)) :
    wp (mkInode sb args) (fun r k' => r = -1 → Unchanged sb k k') (fun _ => True) k := by
  cases args with
  | none => exact emptyOp_unchanged hL h
  | some x =>
    obtain ⟨path, type, major, minor⟩ := x
    refine sees_mkInode hL (h.walks hn) any_store h.sees (.inr trivial) path type major minor
      (fun s' _ hf _ => hf.unchanged hL h) (fun _ _ _ _ _ _ _ _ _ hr => absurd hr (by decide)) fun dp i pd name s₁ _ _ _ _ _ => ?_
    refine wp_any.post fun ip s₂ _ => wp_skip fun _ _ => wp_skip fun _ _ hr => absurd hr (by decide)

theorem sysChdir_unchanged (hL : Layout sb) (h : Ready sb k c) (hn : NamesLinked sb k.fs) :
    wp (sysChdir sb) (fun r k' => r = -1 → Unchanged sb k k') (fun _ => True) k := by
  rw [sysChdir]
  refine wp_bind.2 (wp_onFs.2 ((sees_beginOp hL h.sees (.inr trivial)).post ?_))
  rintro _ s₁ ⟨h₁, hdev₁⟩
  refine wp_bind.2 (wp_get.2 ?_)
  dsimp only
  split
  · exact sees_failK (k := k) hL h₁ any_store (by rw [hdev₁]) fun s' hf _ => hf.unchanged hL h
  · next path hpath =>
    refine wp_bind.2 (wp_onFs.2 ((sees_namei hL (h.walks hn) path h₁).post ?_))
    rintro r s₂ ⟨hdev₂, hr⟩
    cases r with
    | none => exact sees_failK (k := k) hL hr.2 any_store (by rw [hdev₂, hdev₁]) fun s' hf _ => hf.unchanged hL h
    | some ip =>
      obtain ⟨i, -, hv, h₂⟩ := hr
      refine wp_bind.2 (wp_onFs.2 ((sees_ilock hL h₂ (Multiset.mem_cons_self ..) hv.alloc
        (.inl (Multiset.notMem_zero ip))).post ?_))
      rintro _ s₃ ⟨h₃, hdev₃⟩
      refine wp_bind.2 (wp_get.2 ?_)
      dsimp only
      split
      · exact sees_releaseK (k := k) hL h₃ hv.linked any_store (by rw [hdev₃, hdev₂, hdev₁]) fun s' hf _ => hf.unchanged hL h
      · exact wp_skip fun _ _ => wp_skip fun _ _ => wp_skip fun _ _ => wp_skip fun _ _ =>
          wp_skip fun _ _ hr => absurd hr (by decide)

theorem nameCall_unchanged (hL : Layout sb) (h : Ready sb k c) (hn : NamesLinked sb k.fs)
    {call : SysCall} (hc : call ∈ nameCalls) :
    wp (call.exec sb) (fun r k' => r = -1 → Unchanged sb k k') (fun _ => True) k := by
  simp only [nameCalls, List.mem_cons, List.not_mem_nil, or_false] at hc
  rcases hc with rfl | rfl | rfl | rfl | rfl
  · exact sysLink_unchanged hL h hn
  · exact sysUnlink_unchanged hL h hn
  · exact wp_bind.2 (wp_get.2 (mkInode_unchanged hL h hn _))
  · exact wp_bind.2 (wp_get.2 (mkInode_unchanged hL h hn _))
  · exact sysChdir_unchanged hL h hn

/-- If a call on names returns -1, everything is as it was before. -/
theorem failed_name_call (hL : Layout sb) (h : Ready sb k c) (hn : NamesLinked sb k.fs) {call : SysCall} (hc : call ∈ nameCalls)
    (hr : (call.exec sb).run k = .ok (-1, k')) : Unchanged sb k k' :=
  (nameCall_unchanged hL h hn hc).of_ok hr rfl

end

/-! ### `sys_open` -/

/-- `open` is asked to create a file, and there is none. -/
def Creates (F : Store) (c : Nat) (path : List Byte) (omode : BitVec 32) : Prop :=
  omode &&& O_CREATE ≠ 0 ∧ ∃ i pd name, NoEntry F c path i pd name

/-- There is no free `struct file` or no free descriptor. -/
def TablesFull (k : Kernel) : Prop := (∀ f < NFILE, (k.ftable f).ref ≠ 0) ∨ ∀ fd < NOFILE, k.proc.ofile fd ≠ none

section

variable {sb : Superblock} {P : Option (Store → Prop)} {F : Store} {k k' : Kernel} {s₀ s s' : Fs}
    {env : Nat → Nat} {E : Fault → Prop}
variable {c ip i : Nat} {path : List Byte} {omode : BitVec 32} {r : Int}

theorem sees_openInode {Q : Option Nat → Fs → Prop} {cwd : Option Nat} (hL : Layout sb) (hw : Walks sb s₀ env F 0 E cwd c)
    (h : Sees sb P s₀ env 1 F 0 0 s) (path : List Byte) (omode : BitVec 32)
    (hnone : ∀ s', ¬ Creates F c path omode → Sees sb P s₀ env 1 F 0 0 s' → s'.dev = s.dev → Q none s')
    (hold : ∀ ip i s', ¬ Creates F c path omode → Visit F (InUse s₀ env 0) E i →
      Sees sb P s₀ env 1 F ((ip, i) ::ₘ 0) (ip ::ₘ 0) s' →
      s'.dev = s.dev → Q (some ip) s')
    (hnew : ∀ dp i pd name s₁, Creates F c path omode → NoEntry F c path i pd name → pd.bytes.length % 16 = 0 →
      Visit F (InUse s₀ env 0) E i → Sees sb P s₀ env 1 F ((dp, i) ::ₘ 0) {dp} s₁ → s₁.dev = s.dev →
      wp (createNew sb dp name T_FILE 0 0) (fun ip s' => Q (some ip) s') E s₁) :
    wp (openInode sb cwd path omode) Q E s := by
  rw [openInode]
  split
  · next hc =>
    refine sees_create hL hw h path T_FILE 0 0 ?_ ?_ ?_
    · intro s' href
      exact hnone s' fun hno => hno.2.elim fun i hno => hno.elim fun pd hno => hno.elim fun name hno => hno.not_refused href
    · intro ip i j pd md name s' hentry _ hv
      exact hold ip j s' (fun hno => hno.2.elim fun i hno => hno.elim fun pd hno =>
        hno.elim fun name hno => hno.not_entry hentry) hv
    · intro dp i pd name s₁ hno ha hv
      exact hnew dp i pd name s₁ ⟨hc, i, pd, name, hno⟩ hno ha hv
  · next hc =>
    have hno : ¬ Creates F c path omode := fun hcr => hc hcr.1
    refine wp.bind (sees_namei hL hw path h) ?_
    rintro r s₁ ⟨hdev₁, hr⟩
    cases r with
    | none => exact hnone s₁ hno hr.2 hdev₁
    | some ip =>
      obtain ⟨i, -, hv, h₁⟩ := hr
      refine wp.bind (sees_ilock hL h₁ (Multiset.mem_cons_self ..) hv.alloc (.inl (Multiset.notMem_zero ip))) ?_
      rintro _ s₂ ⟨h₂, hdev₂⟩
      refine wp_bind.2 (wp_get.2 ?_)
      dsimp only
      split
      · refine wp.bind (sees_unlock hL h₂ hv.linked) ?_
        rintro _ s₃ ⟨h₃, hdev₃⟩
        exact hnone s₃ hno h₃ (by rw [hdev₃, hdev₂, hdev₁])
      · exact hold ip i s₂ hno hv h₂ (hdev₂.trans hdev₁)

theorem filealloc_first : wp filealloc (fun r k' => match r with
    | none => k' = k ∧ ∀ f < NFILE, (k.ftable f).ref ≠ 0
    | some f => f < NFILE ∧ (k.ftable f).ref = 0 ∧
      k' = { k with ftable := update k.ftable f { k.ftable f with ref := 1 } }) E k := by
  rw [filealloc]
  refine wp_bind.2 (wp_get.2 ?_)
  split
  · next hnone =>
    refine ⟨rfl, fun f hf hz => ?_⟩
    exact List.find?_eq_none.1 hnone f (List.mem_range.2 hf) (decide_eq_true hz)
  · next f hsome =>
    have hz : decide ((k.ftable f).ref = 0) = true := List.find?_some (p := fun f => decide ((k.ftable f).ref = 0)) hsome
    exact wp_bind.2 (wp_setFile.2 ⟨List.mem_range.1 (List.mem_of_find?_eq_some hsome), of_decide_eq_true hz, rfl⟩)

theorem fdalloc_first (f : Nat) : wp (fdalloc f) (fun r k' => match r with
    | none => k' = k ∧ ∀ fd < NOFILE, k.proc.ofile fd ≠ none
    | some fd => fd < NOFILE ∧ k.proc.ofile fd = none) E k := by
  rw [fdalloc]
  refine wp_bind.2 (wp_get.2 ?_)
  split
  · next hnone =>
    refine ⟨rfl, fun fd hfd hz => ?_⟩
    exact List.find?_eq_none.1 hnone fd (List.mem_range.2 hfd) (by rw [hz]; rfl)
  · next fd hsome =>
    have hno : (k.proc.ofile fd).isNone = true := List.find?_some (p := fun fd => (k.proc.ofile fd).isNone) hsome
    exact wp_bind.2 (wp_setProc.2 ⟨List.mem_range.1 (List.mem_of_find?_eq_some hsome), Option.isNone_iff_eq_none.1 hno⟩)

theorem fileclose_new {f : Nat} (hz : (k.ftable f).ref = 0) (ht : (k.ftable f).type = .FD_NONE) :
    wp (fileclose sb f) (fun _ k' => k' = k) E { k with ftable := update k.ftable f { k.ftable f with ref := 1 } } := by
  rw [fileclose]
  refine wp_bind.2 (wp_get.2 ?_)
  dsimp only
  rw [update_self]
  refine wp_bind.2 (wp_failIf.2 ⟨fun hlt => absurd hlt (lt_irrefl (1 : Int)), fun _ => ?_⟩)
  rw [if_neg (show ¬ (0 : Int) < 1 - 1 by decide)]
  refine wp_bind.2 (wp_setFile.2 ?_)
  rw [filerelease]
  dsimp only
  rw [ht]
  have hback : ({ k.ftable f with ref := 0, type := .FD_NONE } : File) = k.ftable f := by
    rw [← hz, ← ht]
  show _ = k
  rw [update_idem, update_self, hback, update_eq_self]

theorem sees_openFile (hL : Layout sb) (hfree : ∀ f, (k.ftable f).ref = 0 → (k.ftable f).type = .FD_NONE)
    (h : Sees sb P s₀ env 1 F ((ip, i) ::ₘ 0) (ip ::ₘ 0) s) (hk : Retained F (InUse s₀ env 0) i)
      (hP : ∀ p ∈ P, p F) (omode : BitVec 32) :
    wp (openFile sb ip omode) (fun r k' => (¬ TablesFull k ∧ 0 ≤ r) ∨ (TablesFull k ∧ r = -1 ∧ ∃ s', k' = { k with fs := s' } ∧
      Failed sb P s₀ env F s s')) (fun _ => True) { k with fs := s } := by
  have hend : TablesFull k → wp (do onFs (iunlockput sb ip); endOpK sb; pure (-1)) (fun r k' => (¬ TablesFull k ∧ 0 ≤ r) ∨
      (TablesFull k ∧ r = -1 ∧ ∃ s', k' = { k with fs := s' } ∧ Failed sb P s₀ env F s s')) (fun _ => True) { k with fs := s } :=
    fun hfull => sees_releaseK (k := { k with fs := s }) hL h hk hP rfl fun s' hf => .inr ⟨hfull, rfl, s', rfl, hf⟩
  rw [openFile]
  refine wp.bind filealloc_first ?_
  rintro r k₁ hr
  cases r with
  | none =>
    obtain ⟨rfl, hfull⟩ := hr
    exact hend (.inl hfull)
  | some f =>
    obtain ⟨hf, hz, rfl⟩ := hr
    refine wp.bind (fdalloc_first f) ?_
    rintro r k₂ hr
    cases r with
    | none =>
      obtain ⟨rfl, hfull⟩ := hr
      refine wp.bind (fileclose_new (k := { k with fs := s }) hz (hfree f hz)) ?_
      rintro _ _ rfl
      exact hend (.inr hfull)
    | some fd =>
      have hroom : ¬ TablesFull k := fun hfull => hfull.elim (fun hfull => hfull f hf hz) fun hfull => hfull fd hr.1 hr.2
      exact wp_skip fun _ _ => wp_skip fun _ _ => wp_skip fun _ _ => .inl ⟨hroom, Int.natCast_nonneg fd⟩

theorem created_ne {i j : Nat} {pd : Node} {name : List Byte} {type major minor : BitVec 16}
    (hi : F i = some pd) (hj : F j = none) :
    created F type major minor i pd name j ≠ F := by
  intro heq
  have hne : j ≠ i := fun hji => by
    rw [hji, hi] at hj
    cases hj
  have hnew := congrFun heq j
  rw [created, update_of_ne hne, update_self, hj] at hnew
  cases hnew

/-- A `sys_open` that fails has changed nothing, unless it has created the file. -/
theorem failed_open_iff (hL : Layout sb) (h : Ready sb k c) (hn : NamesLinked sb k.fs)
    (hfree : ∀ f, (k.ftable f).ref = 0 → (k.ftable f).type = .FD_NONE) (hr : (SysCall.SYS_open.exec sb).run k = .ok (r, k')) :
    (r = -1 → Unchanged sb k k') ↔ ¬ (TablesFull k ∧ ∃ path omode, k.proc.argstr 0 = some path ∧ k.proc.argint 1 = some omode ∧
      Creates (storeOf sb k.fs.dev.cache) c path omode) := by
  refine wp.of_ok (E := fun _ => True) (Q := fun r k' => (r = -1 → Unchanged sb k k') ↔ ¬ (TablesFull k ∧ ∃ path omode,
    k.proc.argstr 0 = some path ∧ k.proc.argint 1 = some omode ∧ Creates (storeOf sb k.fs.dev.cache) c path omode)) ?_ hr
  change wp (sysOpen sb) _ _ k
  rw [sysOpen]
  refine wp_bind.2 (wp_get.2 ?_)
  dsimp only
  split
  · next path omode hpath hmode =>
    have hargs : (∃ path omode, k.proc.argstr 0 = some path ∧ k.proc.argint 1 = some omode ∧
        Creates (storeOf sb k.fs.dev.cache) c path omode) ↔ Creates (storeOf sb k.fs.dev.cache) c path omode := by
      refine ⟨?_, fun hc => ⟨path, omode, hpath, hmode, hc⟩⟩
      rintro ⟨path', omode', hpath', hmode', hc⟩
      rw [hpath] at hpath'
      rw [hmode] at hmode'
      rwa [Option.some.inj hpath', Option.some.inj hmode']
    rw [hargs]
    refine wp_bind.2 (wp_onFs.2 ((sees_beginOp hL h.sees (.inr trivial)).post ?_))
    rintro _ s₁ ⟨h₁, hdev₁⟩
    refine wp_bind.2 (wp_onFs.2 (sees_openInode hL (h.walks hn) h₁ path omode ?_ ?_ ?_))
    · intro s₂ hno h₂ hdev₂
      refine sees_failK (k := k) hL h₂ any_store (by rw [hdev₂, hdev₁]) fun s' hf => ?_
      exact iff_of_true (fun _ => hf.unchanged hL h) fun hc => hno hc.2
    · intro ip i s₂ hno hv h₂ hdev₂
      refine (sees_openFile (k := k) hL hfree h₂ hv.linked any_store omode).post ?_
      rintro r k' (⟨hroom, hpos⟩ | ⟨hfull, rfl, s', rfl, hf⟩)
      · exact iff_of_true (fun hneg => by omega) fun hc => hno hc.2
      · refine iff_of_true (fun _ => ?_) fun hc => hno hc.2
        exact Failed.unchanged hL h ⟨hf.sees, fun b hb => by rw [hf.home b hb, hdev₂, hdev₁], hf.log⟩
    · intro dp i pd name s₂ hcr hno ha hv h₂ hdev₂
      refine (sees_createNew hL h₂ hno.dir hno.type hno.absent ha (by decide) ?_ (.inr trivial) (.inr trivial)
        (.inr trivial) (.inr fun _ _ => trivial)).post ?_
      · rw [counted_of_ne (by decide)]
        exact hv.linked pd hno.dir
      rintro ip s₃ ⟨j, hj, h₃⟩
      have hret : Retained (created (storeOf sb k.fs.dev.cache) T_FILE 0 0 i pd name j) (InUse k.fs (refsOf k.fs) 0) j := by
        intro nd hnd hz
        have hne : j ≠ i := fun hji => by
          rw [hji, hno.dir] at hj
          cases hj
        rw [created, update_of_ne hne, update_self] at hnd
        rw [← Option.some.inj hnd, newNode_nlink] at hz
        exact absurd hz (by decide)
      refine (sees_openFile (k := k) hL hfree h₃ hret any_store omode).post ?_
      rintro r k' (⟨hroom, hpos⟩ | ⟨hfull, rfl, s', rfl, hf⟩)
      · exact iff_of_true (fun hneg => by omega) fun hc => hroom hc.1
      · refine iff_of_false (fun hsame => ?_) fun hc => hc ⟨hfull, hcr⟩
        have hstore := storeOf_home hL h.rest.ok.fs.owned (hsame rfl).cache
        have hnew : storeOf sb s'.dev.cache = _ := hf.sees.store
        exact created_ne hno.dir hj (hnew.symm.trans hstore)
  · next hargs =>
    refine iff_of_true (fun _ => .refl sb k) ?_
    rintro ⟨-, path, omode, hpath, hmode, -⟩
    exact hargs path omode hpath hmode

end

/-! ### A call by a process in the root directory -/

/-- Process 0 traps with a pointer to `path` and the number `arg` as its arguments. -/
def trapPath (path : List Byte) (arg : Nat) : User where
  proc := 0
  sz := 64
  esp := 0
  mem a := if a = 4 then 16 else if 8 ≤ a ∧ a < 12 then leByte arg (a - 8) else if 16 ≤ a then path.getD (a - 16) 0 else 0
  kmem := []
  tape := []

/-- The files are `fs`; process 0 is in the root directory, and the inodes of `us` are in use. -/
def callKernel (fs : List FileImage) (us : List Nat) (path : List Byte) (arg : Nat) : Kernel :=
  ({ Kernel.start (boot (diskOf fs) []) with fs := fsOf fs (ROOTINO :: us) } : Kernel).user (trapPath path arg)

section

variable {fs : List FileImage} {us us' : List Nat}

theorem durable_boot_diskOf (fs : List FileImage) : Durable mkfsSuperblock (fun _ => True) (boot (diskOf fs) []) :=
  ⟨rfl, fun _ _ => rfl, fun _ _ _ _ => rfl, fun _ _ => trivial, fun _ hx => absurd hx List.not_mem_nil⟩

theorem Fits.ready (h : Fits fs) (hu : InCache (ROOTINO :: us)) (hw : Xv6.walkable fs us' = true) (path : List Byte) (arg : Nat) :
    Ready mkfsSuperblock (callKernel fs us path arg) ROOTINO := by
  refine ⟨h.atRest hu, rfl, rfl, durable_boot_diskOf fs, ⟨0, rfl, Nat.one_pos, rfl⟩, by decide, fun i nd l j nm hF ht he => ?_⟩
  obtain ⟨md, hmd, -⟩ := (h.walkable hw).entry i nd l j nm hF ht he
  exact (store_range hmd).2

theorem Fits.namesLinked (h : Fits fs) (hw : Xv6.walkable fs (ROOTINO :: us) = true) :
    NamesLinked mkfsSuperblock (fsOf fs (ROOTINO :: us)) := by
  have hret : ∀ {j}, Alive (storeOf mkfsSuperblock (fsOf fs (ROOTINO :: us)).dev.cache) (fsOf fs (ROOTINO :: us)) j →
      Retained (storeOf mkfsSuperblock (fsOf fs (ROOTINO :: us)).dev.cache) (Cached (fsOf fs (ROOTINO :: us))) j := by
    rintro j ⟨nd, hF, hz⟩ nd' hF' hz'
    rw [hF] at hF'
    obtain rfl := Option.some.inj hF'
    exact hz hz'
  exact ⟨hret (h.walkable hw).root, fun i nd l j nm hF ht he => hret ((h.walkable hw).entry i nd l j nm hF ht he)⟩

end

/-- `chdir("f")`, where `f` is a file. -/
theorem failed_chdir_f : ∃ k', (SysCall.SYS_chdir.exec mkfsSuperblock).run (callKernel treeWithF [] [102] 0) = .ok (-1, k') ∧
    Unchanged mkfsSuperblock (callKernel treeWithF [] [102] 0) k' := by
  have hr : (SysCall.SYS_chdir.exec mkfsSuperblock).run (callKernel treeWithF [] [102] 0) = .ok (-1,
    _) := run_eq_final (by decide +kernel)
  have hw : Xv6.walkable treeWithF [ROOTINO] = true := by decide +kernel
  exact ⟨_, hr, failed_name_call mkfs_layout (fits_treeWithF.ready inCache_root hw _ _)
    (fits_treeWithF.namesLinked hw) (by decide) hr⟩

/-- The root directory with a file `f` that has no link. -/
def treeUnlinked : List FileImage :=
  [dirNode 1 [([46], 1), ([46, 46], 1), ([102], 2)], fileNode 0 [104, 105]].map .ofNode

/-- `chdir("f")` fails, but its reference to `f` was the last one. -/
theorem failed_chdir_frees : Ready mkfsSuperblock (callKernel treeUnlinked [] [102] 0) ROOTINO ∧
    ∃ k', (SysCall.SYS_chdir.exec mkfsSuperblock).run (callKernel treeUnlinked [] [102] 0) = .ok (-1, k') ∧
      ¬ Unchanged mkfsSuperblock (callKernel treeUnlinked [] [102] 0) k' ∧
      (dinodeOf mkfsSuperblock (callKernel treeUnlinked [] [102] 0).fs.dev.disk 2).type = T_FILE ∧
      (dinodeOf mkfsSuperblock k'.fs.dev.disk 2).type = 0 := by
  have hfits : Fits treeUnlinked := ⟨by decide, by decide, by decide, by decide +kernel⟩
  have hw : Xv6.walkable treeUnlinked [1, 2] = true := by decide +kernel
  have hbefore : (dinodeOf mkfsSuperblock (callKernel treeUnlinked [] [102] 0).fs.dev.disk 2).type = T_FILE := by decide +kernel
  have hafter : (dinodeOf mkfsSuperblock ((SysCall.SYS_chdir.exec mkfsSuperblock).final
    (callKernel treeUnlinked [] [102] 0)).fs.dev.disk 2).type = 0 := by
    decide +kernel
  refine ⟨hfits.ready inCache_root hw _ _, _, run_eq_final (by decide +kernel), fun hc => ?_, hbefore, hafter⟩
  have hblk := hc.disk (iblock mkfsSuperblock 2) (by decide) (.inl (by decide))
  rw [dinodeOf_congr hblk] at hafter
  rw [hafter] at hbefore
  exact absurd hbefore (by decide)

def noDescriptor (k : Kernel) : Kernel :=
  { k with
    ftable := fun f => if f = 0 then ⟨.FD_PIPE, 16, true, false, 0, none, 0⟩ else ⟨.FD_NONE, 0, false, false, 0, none, 0⟩
    ptable := update k.ptable 0 { k.ptable 0 with ofile := fun _ => some 0 } }

theorem noDescriptor_free (k : Kernel) (f : Nat) (hz : ((noDescriptor k).ftable f).ref = 0) :
    ((noDescriptor k).ftable f).type = .FD_NONE := by
  unfold noDescriptor at hz ⊢
  dsimp only at hz ⊢
  split at hz
  · cases hz
  · next hne => rw [if_neg hne]

theorem ready_noDescriptor {path : List Byte} {arg : Nat} :
    Ready mkfsSuperblock (noDescriptor (callKernel treeWithF [] path arg)) ROOTINO := by
  have hw : Xv6.walkable treeWithF [ROOTINO] = true := by decide +kernel
  have h := fits_treeWithF.ready inCache_root hw path arg
  exact ⟨h.rest, h.alone, h.log, h.dur, ⟨0, rfl, Nat.one_pos, rfl⟩, h.root, h.entry⟩

/-- `open("f", O_RDONLY)` with no descriptor left. -/
theorem failed_open_f : ∃ k', (SysCall.SYS_open.exec mkfsSuperblock).run
    (noDescriptor (callKernel treeWithF [] [102] 0)) = .ok (-1, k') ∧
    Unchanged mkfsSuperblock (noDescriptor (callKernel treeWithF [] [102] 0)) k' := by
  have hr : (SysCall.SYS_open.exec mkfsSuperblock).run (noDescriptor (callKernel treeWithF [] [102] 0)) = .ok (-1, _) :=
    run_eq_final (by decide +kernel)
  have hn : NamesLinked mkfsSuperblock (noDescriptor (callKernel treeWithF [] [102] 0)).fs :=
    fits_treeWithF.namesLinked (by decide +kernel)
  refine ⟨_, hr, (failed_open_iff mkfs_layout ready_noDescriptor hn (noDescriptor_free _) hr).2 ?_ rfl⟩
  rintro ⟨-, path, omode, -, hmode, hcreate, -⟩
  have hzero : (noDescriptor (callKernel treeWithF [] [102] 0)).proc.argint 1 = some 0 := by decide +kernel
  rw [hzero] at hmode
  rw [← Option.some.inj hmode] at hcreate
  exact hcreate (by decide)

/-- `open("g", O_CREATE | O_RDWR)` with no descriptor left fails, but there is a file `g` now. -/
theorem failed_open_creates : Ready mkfsSuperblock (noDescriptor (callKernel treeWithF [] [103] 0x202)) ROOTINO ∧
    NamesLinked mkfsSuperblock (noDescriptor (callKernel treeWithF [] [103] 0x202)).fs ∧
    ∃ k', (SysCall.SYS_open.exec mkfsSuperblock).run (noDescriptor (callKernel treeWithF [] [103] 0x202)) = .ok (-1, k') ∧
      ¬ Unchanged mkfsSuperblock (noDescriptor (callKernel treeWithF [] [103] 0x202)) k' ∧
      (dinodeOf mkfsSuperblock (noDescriptor (callKernel treeWithF [] [103] 0x202)).fs.dev.disk 3).type = 0 ∧
      (dinodeOf mkfsSuperblock k'.fs.dev.disk 3).type = T_FILE := by
  have hbefore : (dinodeOf mkfsSuperblock
    (noDescriptor (callKernel treeWithF [] [103] 0x202)).fs.dev.disk 3).type = 0 := by decide +kernel
  have hafter : (dinodeOf mkfsSuperblock ((SysCall.SYS_open.exec mkfsSuperblock).final
      (noDescriptor (callKernel treeWithF [] [103] 0x202))).fs.dev.disk 3).type = T_FILE := by decide +kernel
  refine ⟨ready_noDescriptor, fits_treeWithF.namesLinked (by decide +kernel), _,
    run_eq_final (by decide +kernel), fun hc => ?_, hbefore, hafter⟩
  have hblk := hc.disk (iblock mkfsSuperblock 3) (by decide) (.inl (by decide))
  rw [dinodeOf_congr hblk] at hafter
  rw [hafter] at hbefore
  exact absurd hbefore (by decide)

end Xv6
