import Xv6.MakeInode

/-!
# Calls on names and crashes

A call on names is one transaction, and the disk is not written before its `end_op`. Recovery from any
image that the disk has while the call runs leads to the store before it or to the store after it, even
where the call frees an inode.
-/

namespace Xv6

open Prog Function

/-- Whatever the disk has held recovers to a store in `p`, or to the store of the cache. -/
def CrashSafe (sb : Superblock) (p : Store → Prop) (v : Dev) : Prop := Durable sb (fun G => p G ∨ G = storeOf sb v.cache) v

/-- Inside a transaction: nothing of it is on the disk yet. -/
def InCall (sb : Superblock) (p : Store → Prop) (s₀ : Fs) (env : Nat → Nat) (hs : Multiset (Nat × Nat))
    (locks : Multiset Nat) (s : Fs) : Prop :=
  ∃ F, Sees sb (some p) s₀ env 1 F hs locks s

section

variable {sb : Superblock} {p q : Store → Prop} {F : Store} {s₀ s s' : Fs} {env : Nat → Nat}
    {hs : Multiset (Nat × Nat)} {locks : Multiset Nat}
variable {v : Dev} {ip dp i j c off : Nat} {nd md : Node} {name : List Byte} {k k' : Kernel}

theorem Durable.mono (h : Durable sb p v) (hpq : ∀ G, p G → q G) : Durable sb q v := by
  refine ⟨h.clean, h.area, h.behind, fun V' hV' => hpq _ (h.disk V' hV'), fun x hx => ?_⟩
  obtain ⟨V, hrec, hset⟩ := h.hist x hx
  exact ⟨V, hrec, fun V' hV' => hpq _ (hset V' hV')⟩

theorem Durable.crashSafe (h : Durable sb p v) : CrashSafe sb p v := h.mono fun _ => .inl

theorem Failed.crashSafe (h : Failed sb (some p) s₀ env F s s') : CrashSafe sb p s'.dev := (h.sees.dur p rfl).crashSafe

namespace InCall

theorem endOp (hL : Layout sb) (h : InCall sb p s₀ env hs locks s) :
    wp (onDev (Xv6.endOp sb)) (fun _ s' => CrashSafe sb p s'.dev) (fun _ => True) s := by
  obtain ⟨F, h⟩ := h
  refine wp_onDev.2 ((endOp_durable hL (h.dur p rfl).crashSafe h.ok.fs (.inr rfl) h.out h.idle).mono ?_ fun _ => False.elim)
  rintro _ v ⟨hd, hc, -⟩
  rw [CrashSafe, storeOf_home hL h.ok.fs.owned hc]
  exact hd

theorem iput (hL : Layout sb) (h : InCall sb p s₀ env ((ip, i) ::ₘ hs) locks s) (hl : ip ∉ locks) :
    wp (Xv6.iput sb ip) (fun _ => InCall sb p s₀ env hs locks) (fun _ => True) s := by
  obtain ⟨F, h⟩ := h
  have hm : (ip, i) ∈ (ip, i) ::ₘ hs := Multiset.mem_cons_self ..
  have hpos := h.pos hm
  have hlt := h.lt hm
  have hH : wp (Xv6.iput sb ip) (fun _ => Holds s₀ env (hs.map Prod.fst) locks 1) AnyFault s :=
    holds_iput (by rw [← Multiset.map_cons Prod.fst (ip, i)]; exact h.toHolds)
  have hlk : ∀ e ∈ locks, e ≠ ip ∧ e ∈ locks := fun e he => ⟨fun hei => hl (hei ▸ he), he⟩
  suffices hS : wp (Xv6.iput sb ip) (fun _ s' => ∃ F', Shows sb (some p) F' hs locks s') (fun _ => True) s from
    (hH.and hS).mono (fun _ _ h' => h'.2.imp fun _ hF => ⟨h'.1, hF⟩) fun _ _ => trivial
  simp only [Xv6.iput, acquiresleep, releasesleep, ifreeLast, ifree, Icache.itrunc, Icache.iupdate, wp_bind, wp_get, wp_failIf,
    wp_setInode, wp_ite, wp_pure, wp_onDev, wp_modify, update_self, update_idem]
  refine ⟨fun _ => trivial, fun _ => ⟨fun hc => ?_, fun _ => ⟨F, ?_⟩⟩⟩
  · -- the last reference to an inode without links
    refine (itrunc_stored hL h.ok.fs (h.ok.sync ip hlt hpos hc.1)).mono ?_ fun _ _ => trivial
    rintro _ v₁ ⟨rfl, hst₁, -⟩
    refine (free_stored hL hst₁.fs hst₁.self (fun k hk => addr_wiped hk) rfl).mono ?_ fun _ _ => trivial
    rintro _ v₂ ⟨hst₂, -⟩
    exact ⟨_, h.toShows.stored hL hlt hpos (hst₁.trans hst₂) rfl rfl (fun hv => by simp only [Bool.false_eq_true] at hv)
      (fun g hg => .inl (Multiset.mem_cons_of_mem hg)) fun e he => .inl (hlk e he)⟩
  · exact h.toShows.entry hL hlt hpos rfl rfl (h.ok.sync ip hlt hpos) (fun g hg => .inl (Multiset.mem_cons_of_mem hg))
      fun e he => .inl (hlk e he)

theorem iunlockput (hL : Layout sb) (h : InCall sb p s₀ env ((ip, i) ::ₘ hs) (ip ::ₘ locks) s) :
    wp (Xv6.iunlockput sb ip) (fun _ => InCall sb p s₀ env hs locks) (fun _ => True) s := by
  obtain ⟨F, h⟩ := h
  refine wp.bind ((sees_iunlock hL h (Multiset.mem_cons_self ..)).mono (fun _ _ => id) fun _ => False.elim) fun _ s₁ h₁ => ?_
  exact iput hL ⟨F, h₁.1⟩ h.lock_once

theorem uncount (hL : Layout sb) (h : InCall sb p s₀ env hs locks s) (hm : (ip, i) ∈ hs) (hl : ip ∈ locks) :
    wp (setFields sb ip fun d => { d with nlink := d.nlink - 1 }) (fun _ => InCall sb p s₀ env hs locks) (fun _ => True) s := by
  obtain ⟨F, h⟩ := h
  refine (sees_setFields hL h hm hl (h.node hm hl) (g := fun d => { d with nlink := d.nlink - 1 })
    (fun _ => rfl) (fun _ => rfl) (fun _ => rfl)
    (w := fun x => { x with nlink := x.nlink - 1 }) (fun _ _ => rfl) (.inr fun _ _ => trivial)).post fun _ s' h' => ⟨_, h'.1⟩

theorem unlinkEntry (hL : Layout sb) (hr : Removable F i j off nd md name)
    (h : Sees sb (some p) s₀ env 1 F {(ip, j), (dp, i)} {ip, dp} s) :
    wp (Xv6.unlinkEntry sb dp ip off) (fun _ s' => CrashSafe sb p s'.dev) (fun _ => True) s := by
  have hm : (dp, i) ∈ ({(ip, j), (dp, i)} : Multiset (Nat × Nat)) := Multiset.mem_cons_of_mem (Multiset.mem_singleton_self _)
  have hl : dp ∈ ({ip, dp} : Multiset Nat) := Multiset.mem_cons_of_mem (Multiset.mem_singleton_self _)
  have hoff : off < 2 ^ 32 := by
    obtain ⟨k, rfl, he⟩ := dirFind_some hr.found
    have := (h.size_eq hm hl hr.dir).1
    have := (s.icache dp).d.size.isLt
    have := he.lt
    simp only [slots] at this
    omega
  refine wp.bind (sees_writei hL h hm hl hr.dir (by rw [hr.type]; decide) (fun _ => 0) off 16 hoff
    (by decide) (.inr fun _ _ => trivial)) ?_
  rintro r s₁ (⟨-, -, -, h₁, -⟩ | ⟨rfl, -⟩)
  swap
  · exact wp_bind.2 (wp_failIf.2 ⟨fun _ => trivial, fun hne => absurd (by decide) hne⟩)
  refine wp_bind.2 (wp_failIf.2 ⟨fun _ => trivial, fun _ => ?_⟩)
  have hdots : wp (unlinkDots sb dp ip) (fun _ => InCall sb p s₀ env {(ip, j), (dp, i)} {ip, dp}) (fun _ => True) s₁ := by
    refine wp_bind.2 (wp_get.2 ?_)
    dsimp only
    split
    · exact uncount hL ⟨_, h₁⟩ hm hl
    · exact ⟨_, h₁⟩
  refine hdots.bind fun _ s₂ h₂ => ?_
  rw [Multiset.pair_comm, Multiset.pair_comm ip] at h₂
  refine (iunlockput hL h₂).bind fun _ s₃ h₃ => ?_
  refine (uncount hL h₃ (Multiset.mem_singleton_self _) (Multiset.mem_singleton_self _)).bind
    fun _ s₄ (h₄ : InCall sb p s₀ env ((ip, j) ::ₘ 0) (ip ::ₘ 0) s₄) => ?_
  refine (iunlockput hL h₄).bind fun _ s₅ h₅ => ?_
  exact (endOp hL h₅).bind fun _ _ h₆ => h₆

end InCall

theorem mkInode_crash (hL : Layout sb) (hw : Walks sb s₀ env F 0 (fun _ => True) k.proc.cwd c) (hp : ∀ q ∈ some p, q F)
    (h : Sees sb (some p) s₀ env 0 F 0 0 k.fs) (hlinks : ∀ i nd, F i = some nd → nd.type = T_DIR → nd.nlink ≠ 65535)
    {args : Option (List Byte × BitVec 16 × BitVec 16 × BitVec 16)} (ht : ∀ x ∈ args, x.2.1 ≠ 0) :
    wp (mkInode sb args) (fun _ k' => CrashSafe sb p k'.fs.dev) (fun _ => True) k := by
  cases args with
  | none =>
    refine wp_bind.2 (wp_onFs.2 ((sees_beginOp hL h (.inr trivial)).post ?_))
    rintro _ s₁ ⟨h₁, hdev₁⟩
    exact sees_failK (k := k) hL h₁ hp (by rw [hdev₁]) fun s' hf => hf.crashSafe
  | some x =>
    obtain ⟨path, type, major, minor⟩ := x
    refine sees_mkInode hL hw hp h (.inr trivial) path type major minor (fun s' _ hf => hf.crashSafe)
      (fun _ _ _ _ _ s' _ _ hf => hf.crashSafe) ?_
    intro dp i pd name s₁ hno ha hv h₁ _
    have hkd : (pd.counted type).nlink = 0 → InUse s₀ env 0 i := by
      intro hz
      unfold Node.counted at hz
      split at hz
      · exact absurd (by bv_omega) (hlinks i pd hno.dir hno.type)
      · exact hv.linked pd hno.dir hz
    refine (sees_createNew hL h₁ hno.dir hno.type hno.absent ha (ht _ rfl) hkd (.inr trivial) hw.room
      (.inr trivial) (.inr fun _ _ => trivial)).post ?_
    rintro ip s₂ ⟨j, -, h₂⟩
    refine wp_bind.2 (wp_onFs.2 ((InCall.iunlockput hL ⟨_, h₂⟩).post fun _ s₃ h₃ => ?_))
    exact wp_bind.2 (wp_onFs.2 ((InCall.endOp hL h₃).post fun _ _ h₄ => h₄))

/-- A crash in `link`, `unlink`, `mkdir` or `mknod` finds a store that it could find before the call, or the store after it. -/
theorem nameCall_crash (hL : Layout sb) (h : Ready sb k c) (hn : NamesLinked sb k.fs)
    (hlinks : ∀ i nd, storeOf sb k.fs.dev.cache i = some nd → nd.type = T_DIR → nd.nlink ≠ 65535)
    (hd : Durable sb p k.fs.dev) (hp : p (storeOf sb k.fs.dev.cache)) {call : SysCall}
    (hc : call ∈ [.SYS_link, .SYS_unlink, .SYS_mkdir, .SYS_mknod]) {r : Int} (hr : (call.exec sb).run k = .ok (r, k')) :
    CrashSafe sb p k'.fs.dev := by
  have hsees : Sees sb (some p) k.fs (refsOf k.fs) 0 (storeOf sb k.fs.dev.cache) 0 0 k.fs := by
    have := h.rest.seesDurable (P := some p) fun q hq => Option.mem_some.1 hq ▸ hd
    rwa [h.alone] at this
  have hp' : ∀ q ∈ some p, q (storeOf sb k.fs.dev.cache) := fun q hq => Option.mem_some.1 hq ▸ hp
  suffices hcall : wp (call.exec sb) (fun _ k' => CrashSafe sb p k'.fs.dev) (fun _ => True) k from hcall.of_ok hr
  simp only [List.mem_cons, List.not_mem_nil, or_false] at hc
  rcases hc with rfl | rfl | rfl | rfl
  all_goals refine wp_bind.2 (wp_get.2 ?_)
  · dsimp only
    split
    · refine wp_onFs.2 (sees_link hL tolerant_any (h.named hn) h.cwd hp' hsees _ _ (fun s' hf => hf.crashSafe) ?_)
      intro ip i nd j pd name s₁ _ _ _ _ _ _ _ h₁
      exact (InCall.iput hL ⟨_, h₁⟩ (Multiset.notMem_zero ip)).bind fun _ s₂ h₂ => (InCall.endOp hL h₂).bind fun _ _ h₃ => h₃
    · exact hd.crashSafe
  · dsimp only
    split
    · refine wp_onFs.2 (sees_unlink hL tolerant_any (h.named hn) h.cwd hp' hsees _ (.inl trivial) (fun s' hf => hf.crashSafe) ?_)
      intro dp ip i j off nd md name s₁ hrem _ h₁
      exact InCall.unlinkEntry hL hrem h₁
    · exact hd.crashSafe
  · refine mkInode_crash hL (h.walks hn) hp' hsees hlinks fun x hx => ?_
    obtain ⟨_, -, rfl⟩ := Option.mem_map.1 hx
    exact (by decide : T_DIR ≠ 0)
  · refine mkInode_crash hL (h.walks hn) hp' hsees hlinks fun x hx => ?_
    obtain ⟨path, -, hx⟩ := Option.mem_bind_iff.1 hx
    obtain ⟨major, -, hx⟩ := Option.mem_bind_iff.1 hx
    obtain ⟨minor, -, hx⟩ := Option.mem_bind_iff.1 hx
    obtain rfl := Option.mem_some.1 hx
    exact (by decide : T_DEV ≠ 0)

end

/-- `mknod("d", …)`: the store is the one without the device or the one with it. -/
theorem mknod_d_crash : ∃ k', (SysCall.SYS_mknod.exec mkfsSuperblock).run (callKernel treeWithF [] [100] 0) = .ok (0, k') ∧
    CrashSafe mkfsSuperblock (fun G => G = storeOf mkfsSuperblock (diskOf treeWithF)) k'.fs.dev := by
  have hr : (SysCall.SYS_mknod.exec mkfsSuperblock).run (callKernel treeWithF [] [100] 0) = .ok (0,
    _) := run_eq_final (by decide +kernel)
  have hw : Xv6.walkable treeWithF [ROOTINO] = true := by decide +kernel
  have hready := fits_treeWithF.ready inCache_root hw [100] 0
  refine ⟨_, hr, nameCall_crash mkfs_layout hready (fits_treeWithF.namesLinked hw) ?_ ?_ rfl (by decide) hr⟩
  · exact fun i nd hF => fits_treeWithF.store_all (p := fun nd => nd.type = T_DIR → nd.nlink ≠ 65535) (by decide +kernel) hF
  · exact ⟨rfl, fun _ _ => rfl, fun _ _ _ _ => rfl, fun V' hV' => storeOf_home mkfs_layout hready.rest.ok.fs.owned hV',
      fun _ hx => absurd hx List.not_mem_nil⟩

end Xv6
