import Xv6.Refs
import Xv6.Store

/-!
# Inode operations on the store

`Sees` is what a call knows while it runs alone: the references and locks it has (`Holds`), the inode
number behind each of its references, and the store of the cache. If a crash invariant is given, whatever the disk
has held recovers to a store that satisfies it. One specification for each inode operation says what it makes
of the store, and whether it leaves the device alone. `E` are the faults that may happen; a fault outside it has to be
excluded by the state.
-/

namespace Xv6

open Prog Function

/-- The entries of the inode cache to which `env` has no reference. -/
def vacant (env : Nat → Nat) : Finset Nat := (Finset.range NINODE).filter fun e => env e = 0

/-- The cache holds the store `F`; `hs` are references with their inode numbers, `locks` entries that are locked;
`P` is the crash invariant, if there is one. -/
structure Shows (sb : Superblock) (P : Option (Store → Prop)) (F : Store) (hs : Multiset (Nat × Nat)) (locks : Multiset Nat)
    (s : Fs) : Prop where
  ok : CacheOk sb s
  store : storeOf sb s.dev.cache = F
  inum : ∀ h ∈ hs, (s.icache h.1).inum = h.2
  valid : ∀ e ∈ locks, 0 < (s.icache e).ref ∧ (s.icache e).valid = true
  dur : ∀ p ∈ P, Durable sb p s.dev

structure Sees (sb : Superblock) (P : Option (Store → Prop)) (s₀ : Fs) (env : Nat → Nat) (n : Nat) (F : Store)
    (hs : Multiset (Nat × Nat)) (locks : Multiset Nat) (s : Fs) : Prop
    extends Holds s₀ env (hs.map Prod.fst) locks n s, Shows sb P F hs locks s

section

variable {sb : Superblock} {P : Option (Store → Prop)} {F : Store} {s₀ s : Fs} {env : Nat → Nat} {E : Fault → Prop}
variable {hs hs' : Multiset (Nat × Nat)} {locks locks' : Multiset Nat} {n ip i : Nat} {nd : Node}

theorem sees_of {x : FsM Unit} {F' : Store} {m : Nat}
    (hH : wp x (fun _ => Holds s₀ env (hs'.map Prod.fst) locks' m) AnyFault s)
    {Q : Fs → Prop} (hS : wp x (fun _ s' => Shows sb P F' hs' locks' s' ∧ Q s') E s) :
    wp x (fun _ s' => Sees sb P s₀ env m F' hs' locks' s' ∧ Q s') E s :=
  (hH.and hS).mono (fun _ _ h => ⟨⟨h.1, h.2.1⟩, h.2.2⟩) fun _ => And.right

namespace Sees

theorem pos (h : Sees sb P s₀ env n F hs locks s) (hm : (ip, i) ∈ hs) : 0 < (s.icache ip).ref := by
  have : 0 < (hs.map Prod.fst).count ip := Multiset.count_pos.2 (Multiset.mem_map_of_mem Prod.fst hm)
  rw [h.ref]
  omega

theorem lt (h : Sees sb P s₀ env n F hs locks s) (hm : (ip, i) ∈ hs) : ip < NINODE := (h.known ip (h.pos hm)).1

theorem inum_eq (h : Sees sb P s₀ env n F hs locks s) (hm : (ip, i) ∈ hs) : (s.icache ip).inum = i := h.inum _ hm

theorem table (h : Sees sb P s₀ env n F hs locks s) (hm : (ip, i) ∈ hs) (hl : ip ∈ locks) :
    diskTable sb s.dev.cache i = some (s.icache ip).d := by
  have := h.ok.sync ip (h.lt hm) (h.pos hm) (h.valid ip hl).2
  rwa [h.inum _ hm] at this

theorem node (h : Sees sb P s₀ env n F hs locks s) (hm : (ip, i) ∈ hs) (hl : ip ∈ locks) :
    F i = some (nodeOf s.dev.cache (s.icache ip).d) := by
  rw [← h.store, storeOf_some (h.table hm hl)]

theorem range (h : Sees sb P s₀ env n F hs locks s) (hm : (ip, i) ∈ hs) : 1 ≤ i ∧ i < sb.ninodes := by
  have := h.ok.inum ip (h.lt hm) (h.pos hm)
  rwa [h.inum _ hm] at this

theorem entry_eq (h : Sees sb P s₀ env n F hs locks s) {ip' : Nat} (hm : (ip, i) ∈ hs) (hm' : (ip', i) ∈ hs) : ip = ip' :=
  h.uniq _ _ (h.pos hm) (h.pos hm') ((h.inum _ hm).trans (h.inum _ hm').symm)

end Sees

theorem diskTable_of_store {c : Image} (h : storeOf sb c i = some nd) :
    ∃ d, diskTable sb c i = some d ∧ nd = nodeOf c d := by
  rw [storeOf] at h
  cases hd : diskTable sb c i with
  | none =>
    rw [hd] at h
    cases h
  | some d =>
    rw [hd] at h
    exact ⟨d, rfl, (Option.some.inj h).symm⟩

/-! ### Changes to one entry -/

theorem Shows.stored (hL : Layout sb) (h : Shows sb P F hs locks s) (hip : ip < NINODE) (hpos : 0 < (s.icache ip).ref)
    {v : Dev} {e' : Inode} {freed' : List Nat} {o : Option Dinode} (hst : InodeStored sb (s.icache ip).inum o s.dev v)
    (hin : e'.inum = (s.icache ip).inum) (hdev : e'.dev = (s.icache ip).dev) (hv : e'.valid = true → o = some e'.d)
    (hhs : ∀ h ∈ hs', h ∈ hs ∨ h = (ip, (s.icache ip).inum))
    (hlk : ∀ e ∈ locks', e ≠ ip ∧ e ∈ locks ∨ e = ip ∧ 0 < e'.ref ∧ e'.valid = true) :
    Shows sb P (update F (s.icache ip).inum (o.map (nodeOf v.cache))) hs' locks'
      { dev := v, icache := update s.icache ip e', freed := freed' } := by
  refine ⟨h.ok.stored hip hpos hst hin hdev hv, ?_, fun g hg => ?_, fun e he => ?_, fun p hp => (h.dur p hp).stored hL hst⟩
  · rw [← h.store]
    exact hst.store
  · rcases hhs g hg with hg | rfl
    · by_cases hgi : g.1 = ip
      · simp only [hgi, update_self, hin]
        rw [← hgi, h.inum g hg]
      · simp only [update_of_ne hgi, h.inum g hg]
    · simp only [update_self, hin]
  · rcases hlk e he with ⟨hne, he⟩ | ⟨rfl, he⟩
    · simp only [update_of_ne hne]
      exact h.valid e he
    · simpa only [update_self] using he

theorem update_store (h : Shows sb P F hs locks s) (i : Nat) :
    update F i ((diskTable sb s.dev.cache i).map (nodeOf s.dev.cache)) = F := by
  rw [← h.store]
  exact update_eq_self ..

theorem Shows.entry (hL : Layout sb) (h : Shows sb P F hs locks s) (hip : ip < NINODE) (hpos : 0 < (s.icache ip).ref)
    {e' : Inode} (hin : e'.inum = (s.icache ip).inum) (hdev : e'.dev = (s.icache ip).dev)
    (hv : e'.valid = true → diskTable sb s.dev.cache (s.icache ip).inum = some e'.d)
    (hhs : ∀ h ∈ hs', h ∈ hs ∨ h = (ip, (s.icache ip).inum))
    (hlk : ∀ e ∈ locks', e ≠ ip ∧ e ∈ locks ∨ e = ip ∧ 0 < e'.ref ∧ e'.valid = true) :
    Shows sb P F hs' locks' { s with icache := update s.icache ip e' } := by
  rw [← update_store h (s.icache ip).inum]
  exact h.stored hL hip hpos (.same h.ok.fs rfl) hin hdev hv hhs hlk

theorem Shows.home (hL : Layout sb) (h : Shows sb P F hs locks s) {v : Dev} (hh : HeadOk sb v.log.lh)
    (hc : ∀ b, Home sb b → v.cache b = s.dev.cache b) (hd : ∀ p ∈ P, Durable sb p v) :
    Shows sb P F hs locks { s with dev := v } :=
  ⟨h.ok.home hL hh hc, by rw [← h.store]; exact storeOf_home hL h.ok.fs.owned hc, h.inum, h.valid, hd⟩

/-! ### Transactions -/

theorem sees_beginOp (hL : Layout sb) (h : Sees sb P s₀ env n F hs locks s)
    (hE : s.dev.log.lh.length + (n + 1) * MAXOPBLOCKS ≤ LOGSIZE ∨ E .sleeps) :
    wp (onDev beginOp) (fun _ s' => Sees sb P s₀ env (n + 1) F hs locks s' ∧
      s'.dev = { s.dev with log := { s.dev.log with outstanding := n + 1 } }) E s := by
  refine sees_of (holds_beginOp h.toHolds) (wp_onDev.2 ?_)
  simp only [beginOp, wp_bind, wp_get, wp_failIf, wp_modify, h.idle, h.out]
  refine ⟨fun hc => absurd hc Bool.false_ne_true, fun _ => ⟨fun hfull => hE.resolve_left fun hle => ?_, fun _ => ⟨?_, trivial⟩⟩⟩
  · simp only [MAXOPBLOCKS] at hle hfull
    omega
  · exact h.toShows.home hL h.ok.fs.head (fun _ _ => rfl) fun p hp => (h.dur p hp).congr rfl rfl rfl rfl

theorem sees_endOp (hL : Layout sb) (h : Sees sb P s₀ env 1 F hs locks s) (hP : ∀ p ∈ P, p F) :
    wp (onDev (endOp sb)) (fun _ s' => Sees sb P s₀ env 0 F hs locks s' ∧ (∀ b, Home sb b → s'.dev.cache b = s.dev.cache b) ∧
      s'.dev.log.lh = []) (fun _ => False) s := by
  have hplain : wp (onDev (endOp sb)) (fun _ s' => (∀ b, Home sb b → s'.dev.cache b = s.dev.cache b) ∧ HeadOk sb s'.dev.log.lh ∧
      s' = { s with dev := s'.dev }) (fun _ => False) s := by
    refine wp_onDev.2 ((endOp_spec hL.logArea h.ok.fs.head).mono (fun _ v hv => ⟨hv.1, hv.2.2.2, rfl⟩) ?_)
    rintro e ⟨-, hc⟩
    rw [h.idle] at hc
    cases hc
  have hdur : wp (onDev (endOp sb)) (fun _ s' => ∀ p ∈ P, Durable sb p s'.dev) (fun _ => True) s := by
    cases P with
    | none => exact hplain.mono (fun _ _ _ p hp => absurd hp (Option.not_mem_none p)) fun _ => False.elim
    | some p =>
      refine wp_onDev.2 ((endOp_durable hL (h.dur p rfl) h.ok.fs (by rw [h.store]; exact hP p rfl) h.out h.idle).mono
        ?_ fun _ => False.elim)
      rintro _ v ⟨hd, -⟩ q hq
      rwa [← Option.mem_some.1 hq]
  have hlog : wp (onDev (endOp sb)) (fun _ s' => s'.dev.log.lh = []) (fun _ => True) s :=
    wp_onDev.2 (endOp_empties hL h.ok.fs.head h.out)
  refine ((holds_endOp h.toHolds).and (hplain.and (hdur.and hlog))).mono ?_ fun _ he => he.2.1
  rintro _ s' ⟨hH, ⟨hc, hh, hs⟩, hd, hl⟩
  refine ⟨⟨hH, ?_⟩, hc, hl⟩
  rw [hs]
  exact h.toShows.home hL hh hc hd

/-! ### References and locks -/

theorem Sees.exists_free (h : Sees sb P s₀ env n F hs locks s) (hlt : hs.card < (vacant env).card) :
    ∃ e, e < NINODE ∧ (s.icache e).ref = 0 := by
  have hcard : (hs.map Prod.fst).toFinset.card < (vacant env).card :=
    lt_of_le_of_lt ((Multiset.toFinset_card_le _).trans (Multiset.card_map ..).le) hlt
  obtain ⟨e, he, hno⟩ := Finset.exists_mem_notMem_of_card_lt_card hcard
  obtain ⟨hlt, hz⟩ := Finset.mem_filter.1 he
  refine ⟨e, Finset.mem_range.1 hlt, ?_⟩
  rw [h.ref, hz, Multiset.count_eq_zero.2 fun hm => hno (Multiset.mem_toFinset.2 hm)]
  rfl

/-- `iget` finds an entry for inode `i`: its own, or a free one. -/
def Gettable (s : Fs) (i : Nat) : Prop :=
  (∃ e, e < NINODE ∧ 0 < (s.icache e).ref ∧ (s.icache e).dev = ROOTDEV ∧ (s.icache e).inum = i) ∨ ∃ e,
    e < NINODE ∧ (s.icache e).ref = 0

theorem Sees.spare (h : Sees sb P s₀ env n F hs locks s) (hlt : hs.card < (vacant env).card) (i : Nat) : Gettable s i :=
  .inr (h.exists_free hlt)

theorem iget_full (i : Nat) (s : Fs) : wp (iget ROOTDEV i) (fun _ _ => True) (fun _ => ¬ Gettable s i) s := by
  rw [iget]
  refine wp_bind.2 (wp_get.2 ?_)
  split
  · trivial
  · next hno =>
    split
    · next hf =>
      rintro (⟨e, he, hpos, hdev, hin⟩ | ⟨e, he, hz⟩)
      · simpa [hpos, hdev, hin] using findInode_none hno he
      · simpa [hz] using findInode_none hf he
    · trivial

theorem sees_iget (h : Sees sb P s₀ env n F hs locks s) (hi : 1 ≤ i ∧ i < sb.ninodes)
    (hE : Gettable s i ∨ E (.panic "iget: no inodes")) :
    wp (iget ROOTDEV i) (fun ip s' => Sees sb P s₀ env n F ((ip, i) ::ₘ hs) locks s' ∧ s'.dev = s.dev) E s := by
  have hH : wp (iget ROOTDEV i) (fun ip => Holds s₀ env (((ip, i) ::ₘ hs).map Prod.fst) locks n) AnyFault s :=
    (holds_iget h.toHolds i).post fun _ _ h' => by rwa [Multiset.map_cons]
  refine (((hH.and (iget_ok h.ok hi)).and (iget_cases ROOTDEV i s)).and (iget_full i s)).mono ?_ ?_
  · rintro ip s' ⟨⟨⟨hH', hok, hdev⟩, hip, hcase⟩, -⟩
    refine ⟨⟨hH', hok, by rw [hdev]; exact h.store, fun g hg => ?_, fun e he => ?_, by rw [hdev]; exact h.dur⟩, hdev⟩
    · rcases Multiset.mem_cons.1 hg with rfl | hg
      · rcases hcase with ⟨-, -, hin, rfl⟩ | ⟨-, -, rfl⟩
        · simp only [update_self, hin]
        · simp only [update_self]
      · rcases hcase with ⟨-, -, hin, rfl⟩ | ⟨-, hz, rfl⟩
        · by_cases hgi : g.1 = ip
          · simp only [hgi, update_self]
            rw [← hgi, h.inum g hg]
          · simp only [update_of_ne hgi, h.inum g hg]
        · have hgi : g.1 ≠ ip := fun he => by
            have hp : 0 < (s.icache g.1).ref := h.pos hg
            rw [he, hz] at hp
            exact lt_irrefl _ hp
          simp only [update_of_ne hgi, h.inum g hg]
    · have hv := h.valid e he
      rcases hcase with ⟨-, -, -, rfl⟩ | ⟨-, hz, rfl⟩
      · by_cases hei : e = ip
        · simp only [hei, update_self]
          rw [hei] at hv
          exact ⟨by omega, hv.2⟩
        · simpa only [update_of_ne hei] using hv
      · have hei : e ≠ ip := fun he => by
          rw [he, hz] at hv
          exact lt_irrefl _ hv.1
        simpa only [update_of_ne hei] using hv
  · rintro e ⟨⟨-, rfl⟩, hfull⟩
    exact hE.resolve_left hfull

theorem sees_idup (hL : Layout sb) (h : Sees sb P s₀ env n F hs locks s) (hpos : 0 < (s.icache ip).ref)
    (hi : (s.icache ip).inum = i) :
    wp (idup ip) (fun r s' => r = ip ∧ Sees sb P s₀ env n F ((ip, i) ::ₘ hs) locks s' ∧ s'.dev = s.dev) (fun _ => False) s := by
  subst hi
  have hlt := (h.known ip hpos).1
  have hS : wp (idup ip) (fun _ s' => Shows sb P F ((ip, (s.icache ip).inum) ::ₘ hs) locks s' ∧
    s'.dev = s.dev) (fun _ => False) s := by
    simp only [idup, wp_bind, wp_setInode, wp_pure]
    refine ⟨h.toShows.entry hL hlt hpos rfl rfl (fun hv => h.ok.sync ip hlt hpos hv) (fun g hg => ?_) fun e he => ?_, trivial⟩
    · rcases Multiset.mem_cons.1 hg with rfl | hg
      · exact .inr rfl
      · exact .inl hg
    · by_cases hei : e = ip
      · subst hei
        exact .inr ⟨rfl, by simp only; omega, (h.valid e he).2⟩
      · exact .inl ⟨hei, he⟩
  refine ((holds_idup h.toHolds hpos).and hS).mono ?_ fun _ he => he.2
  rintro r s' ⟨⟨hr, hH⟩, hS', hdev⟩
  exact ⟨hr, ⟨by rw [Multiset.map_cons]; exact hH, hS'⟩, hdev⟩

theorem Sees.unlocked (h : Sees sb P s₀ env n F hs locks s) (hl : ip ∉ locks) : (s.icache ip).locked = false := by
  have := h.lock ip
  rw [Multiset.count_eq_zero.2 hl] at this
  cases hb : (s.icache ip).locked
  · rfl
  · rw [hb] at this
    cases this

theorem Sees.locked (h : Sees sb P s₀ env n F hs locks s) (hl : ip ∈ locks) : (s.icache ip).locked = true := by
  have := h.lock ip
  have hp := Multiset.count_pos.2 hl
  cases hb : (s.icache ip).locked
  · rw [hb] at this
    simp only [Bool.toNat_false] at this
    omega
  · rfl

theorem Sees.lock_once (h : Sees sb P s₀ env n F hs (ip ::ₘ locks) s) : ip ∉ locks := by
  intro hm
  have hle := Bool.toNat_le (s.icache ip).locked
  have := h.lock ip
  rw [Multiset.count_cons_self] at this
  have := Multiset.count_pos.2 hm
  omega

theorem sees_ilock (hL : Layout sb) (h : Sees sb P s₀ env n F hs locks s) (hm : (ip, i) ∈ hs)
    (hF : F i ≠ none ∨ E (.panic "ilock: no type")) (hl : ip ∉ locks ∨ E .sleeps) :
    wp (ilock sb ip) (fun _ s' => Sees sb P s₀ env n F hs (ip ::ₘ locks) s' ∧ s'.dev = s.dev) E s := by
  have hpos := h.pos hm
  have hlt := h.lt hm
  have hin := h.inum_eq hm
  have hrange := h.ok.inum ip hlt hpos
  have hfss := hL.lt_fssize (hL.iblock_lt_size hrange.2)
  refine sees_of (holds_ilock h.toHolds) ?_
  have hlk : ∀ e ∈ ip ::ₘ locks, e ≠ ip ∧ e ∈ locks ∨ e = ip := by
    intro e he
    by_cases hei : e = ip
    · exact .inr hei
    · exact .inl ⟨hei, (Multiset.mem_cons.1 he).resolve_left hei⟩
  simp only [ilock, acquiresleep, wp_bind, wp_get, wp_failIf, wp_setInode, wp_ite, wp_pure, wp_onDev, wp_bread,
    update_self, update_idem]
  refine ⟨fun hz => absurd hz (by omega), fun _ => ⟨fun hlocked => hl.resolve_left fun hno => ?_,
    fun _ => ⟨fun hv => ?_, fun hv => ?_⟩⟩⟩
  · rw [h.unlocked hno] at hlocked
    cases hlocked
  · refine ⟨h.toShows.entry hL hlt hpos rfl rfl (fun _ => h.ok.sync ip hlt hpos hv) (fun _ => .inl) fun e he => ?_, trivial⟩
    exact (hlk e he).imp_right fun he => ⟨he, hpos, hv⟩
  · refine ⟨fun hge => absurd hge (not_le.2 hfss), fun _ => ⟨fun ht => hF.resolve_left fun hF => ?_, fun ht => ⟨?_, trivial⟩⟩⟩
    · obtain ⟨nd, hnd⟩ := Option.ne_none_iff_exists'.1 hF
      obtain ⟨d, hd, -⟩ := diskTable_of_store (c := s.dev.cache) (by rw [h.store, hnd])
      rw [← hin] at hd
      exact (diskTable_some hd).2.2.1 ((congrArg Dinode.type (diskTable_some hd).2.2.2).symm.trans ht)
    · exact h.toShows.entry hL hlt hpos rfl rfl (fun _ => diskTable_eq_some hrange rfl ht) (fun _ => .inl)
        fun e he => (hlk e he).imp_right fun he => ⟨he, hpos, rfl⟩

theorem sees_iunlock (hL : Layout sb) (h : Sees sb P s₀ env n F hs (ip ::ₘ locks) s) (hm : (ip, i) ∈ hs) :
    wp (iunlock ip) (fun _ s' => Sees sb P s₀ env n F hs locks s' ∧ (s'.icache ip).valid = true ∧
      (s'.icache ip).inum = i ∧ s'.dev = s.dev) (fun _ => False) s := by
  have hpos := h.pos hm
  have hlt := h.lt hm
  have hval := (h.valid ip (Multiset.mem_cons_self ..)).2
  have hlocked := h.locked (Multiset.mem_cons_self ip locks)
  have hS : wp (iunlock ip) (fun _ s' => Shows sb P F hs locks s' ∧ (s'.icache ip).valid = true ∧
      (s'.icache ip).inum = i ∧ s'.dev = s.dev) (fun _ => False) s := by
    simp only [iunlock, releasesleep, wp_bind, wp_get, wp_failIf, wp_setInode, update_self]
    refine ⟨fun hbad => ?_, fun _ => ⟨h.toShows.entry hL hlt hpos rfl rfl (fun _ => h.ok.sync ip hlt hpos hval)
      (fun _ => .inl) fun e he => ?_, hval, h.inum _ hm, trivial⟩⟩
    · rw [hlocked] at hbad
      rcases hbad with hb | hb
      · cases hb
      · omega
    · by_cases hei : e = ip
      · exact .inr ⟨hei, hpos, hval⟩
      · exact .inl ⟨hei, Multiset.mem_cons_of_mem he⟩
  exact ((holds_iunlock h.toHolds).and hS).mono (fun _ s' h' => ⟨⟨h'.1, h'.2.1⟩, h'.2.2⟩) fun _ => And.right

theorem Sees.ref_cons (h : Sees sb P s₀ env n F ((ip, i) ::ₘ hs) locks s) :
    (s.icache ip).ref = (env ip + (hs.map Prod.fst).count ip : Nat) + 1 := by
  have := h.ref ip
  rw [Multiset.map_cons, Multiset.count_cons_self] at this
  omega

theorem sees_iput (hL : Layout sb) (h : Sees sb P s₀ env n F ((ip, i) ::ₘ hs) locks s)
    (hk : ∀ nd, F i = some nd → nd.nlink = 0 → 0 < env ip ∨ ip ∈ hs.map Prod.fst) (hl : ip ∉ locks ∨ E .sleeps) :
    wp (iput sb ip) (fun _ s' => Sees sb P s₀ env n F hs locks s' ∧ s'.dev = s.dev) E s := by
  have hm : (ip, i) ∈ (ip, i) ::ₘ hs := Multiset.mem_cons_self ..
  have hpos := h.pos hm
  have hlt := h.lt hm
  have href := h.ref_cons
  have hH : wp (iput sb ip) (fun _ => Holds s₀ env (hs.map Prod.fst) locks n) AnyFault s :=
    holds_iput (by rw [← Multiset.map_cons Prod.fst (ip, i)]; exact h.toHolds)
  refine sees_of hH ?_
  simp only [iput, acquiresleep, releasesleep, ifreeLast, wp_bind, wp_get, wp_failIf, wp_setInode, wp_ite, wp_pure,
    update_self, update_idem]
  refine ⟨fun hlocked => hl.resolve_left fun hno => ?_, fun hfree => ⟨fun hc => ?_, fun _ => ⟨?_, trivial⟩⟩⟩
  · rw [h.unlocked hno] at hlocked
    cases hlocked
  · -- the inode would have been the last one's, without links
    exfalso
    have hsync := h.ok.sync ip hlt hpos hc.1
    rw [h.inum _ hm] at hsync
    have hF : F i = some (nodeOf s.dev.cache (s.icache ip).d) := by rw [← h.store, storeOf_some hsync]
    rcases hk _ hF hc.2.1 with he | he
    · omega
    · have := Multiset.count_pos.2 he
      omega
  · exact h.toShows.entry hL hlt hpos rfl rfl (fun hv => h.ok.sync ip hlt hpos hv)
      (fun g hg => .inl (Multiset.mem_cons_of_mem hg)) fun e he => .inl ⟨fun hei => hfree (h.locked (hei ▸ he)), he⟩

theorem sees_iunlockput (hL : Layout sb) (h : Sees sb P s₀ env n F ((ip, i) ::ₘ hs) (ip ::ₘ locks) s)
    (hk : ∀ nd, F i = some nd → nd.nlink = 0 → 0 < env ip ∨ ip ∈ hs.map Prod.fst) :
    wp (iunlockput sb ip) (fun _ s' => Sees sb P s₀ env n F hs locks s' ∧ s'.dev = s.dev) (fun _ => False) s := by
  refine wp.bind (sees_iunlock hL h (Multiset.mem_cons_self ..)) ?_
  rintro _ s₁ ⟨h₁, -, -, hdev₁⟩
  refine (sees_iput hL h₁ hk (.inl h.lock_once)).post ?_
  rintro _ s₂ ⟨h₂, hdev₂⟩
  exact ⟨h₂, hdev₂.trans hdev₁⟩

/-! ### Fields and bytes -/

theorem sees_setFields (hL : Layout sb) (h : Sees sb P s₀ env n F hs locks s) (hm : (ip, i) ∈ hs) (hl : ip ∈ locks)
    (hF : F i = some nd) {g : Dinode → Dinode} {w : Node → Node} (ht : ∀ d, (g d).type = d.type)
    (ha : ∀ d, (g d).addrs = d.addrs) (hs' : ∀ d, (g d).size = d.size) (hg : ∀ c d, nodeOf c (g d) = w (nodeOf c d))
    (hE : (∃ A, LogRoom sb A s.dev) ∨ ∀ e, LogFault e → E e) :
    wp (setFields sb ip g) (fun _ s' => Sees sb P s₀ env n (update F i (some (w nd))) hs locks s' ∧
      s'.dev = s.dev.iupdate sb i (g (s.icache ip).d)) E s := by
  have hpos := h.pos hm
  have hlt := h.lt hm
  have hT := h.ok.sync ip hlt hpos (h.valid ip hl).2
  have hnode := h.node hm hl
  rw [hF] at hnode
  obtain rfl := Option.some.inj hnode
  refine sees_of (holds_setFields h.toHolds g) ?_
  simp only [setFields, Icache.iupdate, wp_bind, wp_setInode, wp_get, wp_onDev, update_self]
  have hfss := hL.lt_fssize (hL.iblock_lt_size (diskTable_some hT).2.1)
  refine ((iupdate_stored hL h.ok.fs hT (g (s.icache ip).d) (ht _) (ha _) (hs' _)).and
    (iupdate_spec (P := ∃ A, LogRoom sb A s.dev) (g (s.icache ip).d) hfss id)).mono ?_ fun e he => hE.resolve_left he.2.2 e he.2.1
  rintro _ v ⟨⟨hst, hbytes⟩, hv⟩
  refine ⟨?_, by rw [hv, h.inum_eq hm]⟩
  have hnode : nodeOf v.cache (g (s.icache ip).d) = w (nodeOf s.dev.cache (s.icache ip).d) := by
    rw [← hg, nodeOf, nodeOf, hbytes]
    congr 1
    exact (contents_congr (hs' _) fun k _ => byteAt_addrs (ha _) k).symm
  rw [← hnode, ← Option.map_some, ← h.inum_eq hm]
  refine h.toShows.stored hL hlt hpos hst rfl rfl (fun _ => rfl) (fun _ => .inl) fun e he => ?_
  by_cases hei : e = ip
  · exact .inr ⟨hei, hpos, (h.valid ip hl).2⟩
  · exact .inl ⟨hei, he⟩

theorem sees_readi (hL : Layout sb) (h : Sees sb P s₀ env n F hs locks s) (hm : (ip, i) ∈ hs) (hl : ip ∈ locks)
    (hF : F i = some nd) (ht : nd.type ≠ T_DEV) (off m : Nat) (hoff : off ≤ nd.bytes.length) (hwrap : off + m < 2 ^ 32) :
    wp (Icache.readi sb ip off m) (fun r s' => r = (((min m (nd.bytes.length - off) : Nat) : Int), (nd.bytes.drop off).take m) ∧
      s' = s) (fun _ => False) s := by
  have hT := h.table hm hl
  have hnode := h.node hm hl
  rw [hF] at hnode
  obtain rfl := Option.some.inj hnode
  rw [Icache.readi]
  refine wp_bind.2 (wp_get.2 ?_)
  dsimp only
  rw [if_neg fun hc => ht hc.1]
  simp only [nodeOf, length_contents] at hoff ht ⊢
  refine wp_bind.2 (wp_onDev.2 ((readi_spec sb (h.ok.fs.owned.ptr_lt hL hT) (h.ok.fs.files _ _ hT) ht hoff hwrap).post ?_))
  rintro _ _ ⟨rfl, rfl⟩
  refine ⟨?_, ?_⟩
  · rw [slice_contents, readLen]
  · simp only [update_eq_self]

theorem sees_writei (hL : Layout sb) (h : Sees sb P s₀ env n F hs locks s) (hm : (ip, i) ∈ hs) (hl : ip ∈ locks)
    (hF : F i = some nd) (ht : nd.type ≠ T_DEV) (src : Nat → Byte) (off m : Nat) (hoff : off < 2 ^ 32) (hlen : m < 2 ^ 32)
    (hE : (off ≤ nd.bytes.length → off + m ≤ MAXFILE * BSIZE → Room sb off m s.dev (s.icache ip).d) ∨ ∀ e, AllocFault e → E e) :
    wp (Icache.writei sb ip src off m) (fun r s' =>
      (r = m ∧ off ≤ nd.bytes.length ∧ off + m ≤ MAXFILE * BSIZE ∧
        Sees sb P s₀ env n (update F i (some { nd with bytes := splice nd.bytes off ((List.range m).map src) }))
          hs locks s' ∧ Written sb (diskTable sb s.dev.cache) i ∅ off m src s.dev (s.icache ip).d s'.dev (s'.icache ip).d) ∨
      r = -1 ∧ ¬ (off ≤ nd.bytes.length ∧ off + m ≤ MAXFILE * BSIZE) ∧
        Sees sb P s₀ env n F hs locks s' ∧ s'.dev = s.dev) E s := by
  have hpos := h.pos hm
  have hlt := h.lt hm
  have hT := h.ok.sync ip hlt hpos (h.valid ip hl).2
  have hnode := h.node hm hl
  rw [hF] at hnode
  obtain rfl := Option.some.inj hnode
  have hH : wp (Icache.writei sb ip src off m) (fun _ => Holds s₀ env (hs.map Prod.fst) locks n) AnyFault s := by
    rw [← Multiset.cons_erase hl]
    exact holds_writei (by rw [Multiset.cons_erase hl]; exact h.toHolds) src off m
  have hlk : ∀ e ∈ locks, e ≠ ip ∧ e ∈ locks ∨ e = ip ∧ 0 < (s.icache ip).ref ∧ (s.icache ip).valid = true := fun e he => by
    by_cases hei : e = ip
    · exact .inr ⟨hei, hpos, (h.valid ip hl).2⟩
    · exact .inl ⟨hei, he⟩
  have hS : wp (Icache.writei sb ip src off m) (fun r s' =>
      (r = m ∧ off ≤ (nodeOf s.dev.cache (s.icache ip).d).bytes.length ∧ off + m ≤ MAXFILE * BSIZE ∧
        Shows sb P (update F i (some { nodeOf s.dev.cache (s.icache ip).d with
          bytes := splice (nodeOf s.dev.cache (s.icache ip).d).bytes off ((List.range m).map src) })) hs locks s' ∧
        Written sb (diskTable sb s.dev.cache) i ∅ off m src s.dev (s.icache ip).d s'.dev (s'.icache ip).d) ∨
      r = -1 ∧ ¬ (off ≤ (nodeOf s.dev.cache (s.icache ip).d).bytes.length ∧ off + m ≤ MAXFILE * BSIZE) ∧
        Shows sb P F hs locks s' ∧
        s'.dev = s.dev) E s := by
    simp only [nodeOf, length_contents] at ht hE ⊢
    rw [Icache.writei]
    refine wp_bind.2 (wp_get.2 ?_)
    dsimp only
    rw [if_neg fun hc => ht hc.1]
    by_cases ha : WriteArgs (s.icache ip).d off m
    · refine wp_bind.2 (wp_onDev.2 ((writei_spliced hL h.ok.fs hT ht src ha).mono ?_ fun e he =>
        hE.resolve_left (fun hroom => he.2 (hroom ha.1 ha.2.2)) e he.1))
      rintro ⟨r, d'⟩ v ⟨hr, hst, hsame, hbytes, -, hw⟩
      simp only at hr hst hsame hbytes hw
      refine .inl ⟨hr, ha.1, ha.2.2, ?_, ?_⟩
      · have hnode : nodeOf v.cache d' = { nodeOf s.dev.cache (s.icache ip).d with
            bytes := splice (contents s.dev.cache (s.icache ip).d) off ((List.range m).map src) } := by
          rw [nodeOf, hbytes, hsame]
          rfl
        change Shows sb P (update F i (some { nodeOf s.dev.cache (s.icache ip).d with
          bytes := splice (contents s.dev.cache (s.icache ip).d) off ((List.range m).map src) })) hs locks _
        rw [← hnode, ← Option.map_some, ← h.inum_eq hm]
        exact h.toShows.stored hL hlt hpos hst rfl rfl (fun _ => rfl) (fun _ => .inl) hlk
      · simp only [update_self]
        rwa [h.inum_eq hm] at hw
    · rw [writei_refused ht ⟨hoff, hlen⟩ src ha]
      refine .inr ⟨rfl, fun hc => ha ⟨hc.1, ?_, hc.2⟩, ?_, rfl⟩
      · have := hc.2
        simp only [MAXFILE, NDIRECT, NINDIRECT, NDINDIRECT, BSIZE] at this
        omega
      · exact h.toShows.entry hL hlt hpos rfl rfl (fun _ => hT) (fun _ => .inl) hlk
  refine (hH.and hS).mono ?_ fun _ => And.right
  rintro r s' ⟨hH', ⟨hr, h1, h2, hS', hw⟩ | ⟨hr, hno, hS', hdev⟩⟩
  · exact .inl ⟨hr, h1, h2, ⟨hH', hS'⟩, hw⟩
  · exact .inr ⟨hr, hno, ⟨hH', hS'⟩, hdev⟩

theorem iallocDisk_finds (hL : Layout sb) (type : BitVec 16) {v : Dev}
    (hfree : (∃ j, 1 ≤ j ∧ j < sb.ninodes ∧ (dinodeOf sb v.cache j).type = 0) ∨ E (.panic "ialloc: no inodes"))
    (hlog : (∃ A, LogRoom sb A v) ∨ ∀ e, LogFault e → E e) : wp (iallocDisk sb type) (fun _ _ => True) E v := by
  rw [iallocDisk]
  refine wp.bind (wp_findRange (fun k v' => v' = v ∧ ∀ j, 1 ≤ j → j < k → (dinodeOf sb v.cache j).type ≠ 0) (fun _ _ => True)
    ⟨rfl, fun j h1 h2 => absurd h2 (by omega)⟩ ?_) fun r v' hr => ?_
  · rintro inum t h1 h2 ⟨ht, hused⟩
    obtain rfl := ht
    have hn : inum < sb.ninodes := by omega
    have hfss := hL.lt_fssize (hL.iblock_lt_size hn)
    refine wp_bind.2 (wp_bread.2 ⟨fun hge => absurd hge (by omega), fun _ => ?_⟩)
    split
    · exact wp.bind ((logMod_spec (P := ∃ A, LogRoom sb A t) _ _ id).mono (fun _ _ => id) fun e he =>
        hlog.resolve_left he.2 e he.1)
        fun _ _ _ => trivial
    · next ht =>
      refine ⟨rfl, fun j hj1 hj2 => ?_⟩
      rcases Nat.lt_or_ge j inum with hlt | hge
      · exact hused j hj1 hlt
      · rw [show j = inum by omega]
        exact ht
  · cases r with
    | some inum => trivial
    | none =>
      refine (wp_throw _).2 (hfree.resolve_left ?_)
      rintro ⟨j, h1, hn, hz⟩
      exact hr.2 j h1 (by omega) hz

theorem sees_ialloc (hL : Layout sb) (h : Sees sb P s₀ env n F hs locks s) {type : BitVec 16} (ht : type ≠ 0)
    (hnone : (∃ j, 1 ≤ j ∧ j < sb.ninodes ∧ F j = none) ∨ E (.panic "ialloc: no inodes"))
    (hlog : (∃ A, LogRoom sb A s.dev) ∨ ∀ e, LogFault e → E e) (hcache : hs.card < (vacant env).card ∨
      E (.panic "iget: no inodes")) :
    wp (ialloc sb ROOTDEV type) (fun ip s' => ∃ j, F j = none ∧
      Sees sb P s₀ env n (update F j (some ⟨type, 0, 0, 0, []⟩)) ((ip, j) ::ₘ hs) locks s' ∧
      s'.dev = s.dev.iupdate sb j (.fresh type)) E s := by
  have hfree : ∀ j, 1 ≤ j → j < sb.ninodes → F j = none → (dinodeOf sb s.dev.cache j).type = 0 := by
    intro j h1 hn hj
    by_contra hne
    rw [← h.store, storeOf_some (diskTable_eq_some ⟨h1, hn⟩ rfl hne)] at hj
    cases hj
  have hdisk : wp (onDev (iallocDisk sb type)) (fun j s' => F j = none ∧ 1 ≤ j ∧ j < sb.ninodes ∧
      Shows sb P (update F j (some ⟨type, 0, 0, 0, []⟩)) hs locks s' ∧ s'.dev = s.dev.iupdate sb j (.fresh type))
      E s := by
    have hfinds : wp (iallocDisk sb type) (fun _ _ => True) E s.dev := by
      refine iallocDisk_finds hL type (hnone.imp_left ?_) hlog
      rintro ⟨j, h1, hn, hj⟩
      exact ⟨j, h1, hn, hfree j h1 hn hj⟩
    refine wp_onDev.2 ((((keeps_txFrame (keeps_iallocDisk type)).wp_and (iallocDisk_spec hL type s.dev)).and hfinds).mono ?_
      fun _ he => he.2)
    rintro j _ ⟨⟨⟨h1, hn, htz, rfl⟩, hfr⟩, -⟩
    have hnone : diskTable sb s.dev.cache j = none := if_neg fun hc => hc.2.2 htz
    have hst := fresh_stored hL h.ok.fs ⟨h1, hn⟩ htz ht hfr
    refine ⟨by rw [← h.store, storeOf_none hnone], h1, hn, ⟨⟨hst.fs, h.ok.inum, fun e he hp hv => ?_, h.ok.rootdev, h.ok.uniq⟩,
      ?_, h.inum, h.valid, fun p hp => (h.dur p hp).stored hL hst⟩, rfl⟩
    · have hs := h.ok.sync e he hp hv
      have hne : (s.icache e).inum ≠ j := fun hi => by
        rw [hi, hnone] at hs
        cases hs
      exact (hst.other hne).trans hs
    · rw [hst.store, h.store]
      rfl
  refine wp.bind (((holds_onDev (keeps_brackets (keeps_txFrame (keeps_iallocDisk type))) h.toHolds).and hdisk).mono
    (fun _ _ => id) fun _ => And.right) ?_
  rintro j s₁ ⟨⟨hH, -⟩, hnone, h1, hn, hS, hdev⟩
  have h₁ : Sees sb P s₀ env n _ hs locks s₁ := ⟨hH, hS⟩
  refine (sees_iget h₁ ⟨h1, hn⟩ (hcache.imp_left fun hc => h₁.spare hc j)).post ?_
  rintro ip s₂ ⟨h₂, hdev₂⟩
  exact ⟨j, hnone, h₂, hdev₂.trans hdev⟩

end

end Xv6
