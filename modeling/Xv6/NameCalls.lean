import Xv6.DirLink

/-!
# `sys_link` and `sys_unlink` on the store

Each call runs inside one transaction, alone. When it fails, no block but those of the log is different
afterwards: `sys_link` takes the link it has counted back before it ends. When it succeeds, its last
steps are left to the caller of the lemma, who knows whether an inode loses its last reference there.
-/

namespace Xv6

open Prog Function

structure Tolerant (E : Fault → Prop) : Prop where
  sleeps : E .sleeps
  type : E (.panic "ilock: no type")
  inodes : E (.panic "iget: no inodes")
  entry : E (.panic "dirlookup read")
  empty : E (.panic "isdirempty: readi")
  full : E (.panic "dirlink")
  alloc : ∀ e, AllocFault e → E e

/-- If inode `j` has no links, it is in use. -/
def Retained (F : Store) (live : Nat → Prop) (j : Nat) : Prop := ∀ nd, F j = some nd → nd.nlink = 0 → live j

structure Named (sb : Superblock) (F : Store) (live : Nat → Prop) : Prop where
  lt : ROOTINO < sb.ninodes
  root : Retained F live ROOTINO
  entry : ∀ i nd k j nm, F i = some nd → nd.type = T_DIR → HasEntry nd.bytes k j nm → j < sb.ninodes ∧ Retained F live j

/-- Paths can be followed from the root and from the current directory, inode `c`. -/
structure Walks (sb : Superblock) (s₀ : Fs) (env : Nat → Nat) (F : Store) (hs : Multiset (Nat × Nat)) (E : Fault → Prop)
    (cwd : Option Nat) (c : Nat) : Prop where
  sound : Sound sb F (InUse s₀ env hs) E
  lt : ROOTINO < sb.ninodes
  root : Visit F (InUse s₀ env hs) E ROOTINO
  room : hs.card + 1 < (vacant env).card ∨ E (.panic "iget: no inodes")
  cwd : CwdAt s₀ env cwd c
  alloc : F c ≠ none ∨ E (.panic "ilock: no type")

/-- The call has failed: the store and all blocks outside the log are as in `s`. -/
structure Failed (sb : Superblock) (P : Option (Store → Prop)) (s₀ : Fs) (env : Nat → Nat) (F : Store) (s s' : Fs) : Prop where
  sees : Sees sb P s₀ env 0 F 0 0 s'
  home : ∀ b, Home sb b → s'.dev.cache b = s.dev.cache b
  log : s'.dev.log.lh = []

section

variable {sb : Superblock} {P : Option (Store → Prop)} {F : Store} {s₀ s s₁ : Fs} {env : Nat → Nat} {E : Fault → Prop}
variable {hs : Multiset (Nat × Nat)} {locks : Multiset Nat} {n ip dp i j c : Nat} {nd md : Node}
    {name path : List Byte} {cwd : Option Nat}
variable {Q : Int → Fs → Prop}

/-! ### Paths -/

theorem InUse.mono {g : Nat × Nat} (h : InUse s₀ env hs j) : InUse s₀ env (g ::ₘ hs) j := by
  rcases h with h | ⟨e, he⟩
  · exact .inl h
  · exact .inr ⟨e, Multiset.mem_cons_of_mem he⟩

theorem Named.walks (hn : Named sb F (InUse s₀ env hs)) (hE : Tolerant E) (hc : CwdAt s₀ env cwd c) :
    Walks sb s₀ env F hs E cwd c := by
  have hv : ∀ {j}, Retained F (InUse s₀ env hs) j → Visit F (InUse s₀ env hs) E j := fun hk => ⟨.inr hE.type, hk⟩
  refine ⟨⟨fun i nd k j nm hF ht he => ?_, .inr hE.entry⟩, hn.lt, hv hn.root, .inr hE.inodes, hc, .inr hE.type⟩
  obtain ⟨hlt, hk⟩ := hn.entry i nd k j nm hF ht he
  exact ⟨hlt, hv hk⟩

theorem sees_namei (hL : Layout sb) (hw : Walks sb s₀ env F hs E cwd c) (path : List Byte) (h : Sees sb P s₀ env n F hs 0 s) :
    wp (namei sb cwd path) (fun r s' => s'.dev = s.dev ∧ match r with
      | none => follow F (startAt c path) (components path) = none ∧ Sees sb P s₀ env n F hs 0 s'
      | some ip => ∃ i, follow F (startAt c path) (components path) = some i ∧ Visit F (InUse s₀ env hs) E i ∧
          Sees sb P s₀ env n F ((ip, i) ::ₘ hs) 0 s') E s := by
  refine wp.bind (sees_namex hL hw.sound hw.lt hw.root false path (hw.room.imp_left .of_card) hw.cwd hw.alloc h) ?_
  rintro r s' ⟨hdev, hr⟩
  rw [walkTo, if_neg Bool.false_ne_true] at hr
  cases r with
  | none => exact ⟨hdev, Option.map_eq_none_iff.1 hr.1, hr.2⟩
  | some x =>
    obtain ⟨ip, nm⟩ := x
    obtain ⟨i, ho, hv, h'⟩ := hr
    obtain ⟨i', hi', heq⟩ := Option.map_eq_some_iff.1 ho
    cases heq
    exact ⟨hdev, i, hi', hv, h'⟩

theorem followParent_dir {i₀ : Nat} {cs : List (List Byte)} (h : followParent F i₀ cs = some (i, name)) :
    ∃ nd, F i = some nd ∧ nd.type = T_DIR := by
  unfold followParent at h
  split at h
  · split at h
    · next hdir =>
      cases h
      obtain ⟨nd, hnd, ht⟩ := (Option.any_eq_true _ _).1 hdir
      exact ⟨nd, hnd, of_decide_eq_true ht⟩
    · cases h
  · cases h

theorem sees_nameiparent (hL : Layout sb) (hw : Walks sb s₀ env F hs E cwd c) (path : List Byte)
    (h : Sees sb P s₀ env n F hs 0 s) :
    wp (nameiparent sb cwd path) (fun r s' => s'.dev = s.dev ∧ match r with
      | none => followParent F (startAt c path) (components path) = none ∧ Sees sb P s₀ env n F hs 0 s'
      | some (dp, name) => ∃ i nd, followParent F (startAt c path) (components path) = some (i, name) ∧ F i = some nd ∧
          nd.type = T_DIR ∧ Visit F (InUse s₀ env hs) E i ∧ Sees sb P s₀ env n F ((dp, i) ::ₘ hs) 0 s') E s := by
  refine (sees_namex hL hw.sound hw.lt hw.root true path (hw.room.imp_left .of_card) hw.cwd hw.alloc h).post ?_
  rintro r s' ⟨hdev, hr⟩
  rw [walkTo, if_pos rfl] at hr
  cases r with
  | none => exact ⟨hdev, hr⟩
  | some x =>
    obtain ⟨dp, nm⟩ := x
    obtain ⟨i, ho, hv, h'⟩ := hr
    obtain ⟨nd, hF, ht⟩ := followParent_dir ho
    exact ⟨hdev, i, nd, ho, hF, ht, hv, h'⟩

/-! ### The end of a call -/

theorem sees_fail (hL : Layout sb) (h : Sees sb P s₀ env 1 F 0 0 s₁) (hP : ∀ p ∈ P, p F) (hdev : s₁.dev.cache = s.dev.cache)
    (hbad : ∀ s', Failed sb P s₀ env F s s' → Q (-1) s') : wp (do onDev (endOp sb); pure (-1)) Q E s₁ := by
  refine wp.bind ((sees_endOp hL h hP).mono (fun _ _ => id) fun _ => False.elim) ?_
  rintro _ s₂ ⟨h₂, hhome, hlog⟩
  exact hbad s₂ ⟨h₂, fun b hb => by rw [hhome b hb, hdev], hlog⟩

theorem sees_unlock (hL : Layout sb) (h : Sees sb P s₀ env n F ((ip, i) ::ₘ hs) (ip ::ₘ locks) s)
    (hk : Retained F (InUse s₀ env hs) i) :
    wp (iunlockput sb ip) (fun _ s' => Sees sb P s₀ env n F hs locks s' ∧ s'.dev = s.dev) E s :=
  (sees_iunlockput hL h fun nd hF hz => h.second (hk nd hF hz)).mono (fun _ _ => id) fun _ => False.elim

/-! ### `sys_link` -/

theorem Named.update (hn : Named sb F (InUse s₀ env hs)) (hF : F i = some nd) {g : Nat × Nat} (hg : g.2 = i) {k : BitVec 16} :
    Named sb (update F i (some { nd with nlink := k })) (InUse s₀ env (g ::ₘ hs)) := by
  have hkept : ∀ {j}, Retained F (InUse s₀ env hs) j →
      Retained (Function.update F i (some { nd with nlink := k })) (InUse s₀ env (g ::ₘ hs)) j := by
    intro j hj md hmd hz
    by_cases hij : j = i
    · exact .inr ⟨g.1, by rw [hij, ← hg]; exact Multiset.mem_cons_self ..⟩
    · rw [update_of_ne hij] at hmd
      exact (hj md hmd hz).mono
  refine ⟨hn.lt, hkept hn.root, fun d md l j nm hd ht he => ?_⟩
  by_cases hdi : d = i
  · rw [hdi, update_self] at hd
    obtain rfl := Option.some.inj hd
    obtain ⟨hlt, hk⟩ := hn.entry i nd l j nm hF ht he
    exact ⟨hlt, hkept hk⟩
  · rw [update_of_ne hdi] at hd
    obtain ⟨hlt, hk⟩ := hn.entry d md l j nm hd ht he
    exact ⟨hlt, hkept hk⟩

theorem sees_linkBad (hL : Layout sb) (hE : Tolerant E) (hF : F i = some nd)
    (hk : Retained F (InUse s₀ env 0) i) {v : Dev} {d : Dinode}
    (hv : dinodeOf sb v.cache i = d)
      (h : Sees sb P s₀ env 1 (update F i (some { nd with nlink := nd.nlink + 1 })) {(ip, i)} 0 s₁)
    (hdev : s₁.dev = v.iupdate sb i { d with nlink := d.nlink + 1 }) (hcache : v.cache = s.dev.cache) (hP : ∀ p ∈ P, p F)
    (hbad : ∀ s', Failed sb P s₀ env F s s' → Q (-1) s') : wp (linkBad sb ip) Q E s₁ := by
  have hm : (ip, i) ∈ ({(ip, i)} : Multiset (Nat × Nat)) := Multiset.mem_singleton_self _
  refine wp.bind (sees_ilock hL h hm (.inr hE.type) (.inl (Multiset.notMem_zero ip))) ?_
  rintro _ s₂ ⟨h₂, hdev₂⟩
  have hl : ip ∈ ip ::ₘ (0 : Multiset Nat) := Multiset.mem_cons_self ..
  -- the inode in memory is the one on disk
  have hd : (s₂.icache ip).d = { d with nlink := d.nlink + 1 } := by
    rw [← (diskTable_some (h₂.table hm hl)).2.2.2, hdev₂, hdev, dinodeOf_iupdate, if_pos rfl]
  refine wp.bind (sees_setFields hL h₂ hm hl (update_self ..) (fun _ => rfl) (fun _ => rfl) (fun _ => rfl)
    (w := fun x => { x with nlink := x.nlink - 1 }) (fun _ _ => rfl) (.inr fun e he => hE.alloc e (.inr he))) ?_
  rintro _ s₃ ⟨h₃, hdev₃⟩
  have hstore : update (update F i (some { nd with nlink := nd.nlink + 1 })) i
      (some { nd with nlink := nd.nlink + 1 - 1 }) = F := by
    rw [update_idem, BitVec.add_sub_cancel, ← hF, update_eq_self]
  rw [hstore] at h₃
  have hback : s₃.dev.cache = s.dev.cache := by
    rw [hdev₃, hd, hdev₂, hdev, BitVec.add_sub_cancel, ← hv, iupdate_back, hcache]
  refine wp.bind (sees_unlock hL h₃ hk) ?_
  rintro _ s₄ ⟨h₄, hdev₄⟩
  exact sees_fail hL h₄ hP (by rw [hdev₄, hback]) hbad

theorem sees_linkEntry (hL : Layout sb) (hE : Tolerant E) (h : Sees sb P s₀ env n F ((dp, j) ::ₘ (ip, i) ::ₘ hs) {dp} s)
    (hn : Named sb F (InUse s₀ env ((ip, i) ::ₘ hs))) (hF : F j = some nd) (ht : nd.type = T_DIR) (name : List Byte) :
    wp (linkEntry sb dp ip name) (fun r s' =>
      (r = false ∧ Sees sb P s₀ env n F ((dp, j) ::ₘ (ip, i) ::ₘ hs) {dp} s' ∧ s'.dev = s.dev) ∨
      r = true ∧ dirFind nd.bytes name = none ∧ nd.bytes.length % 16 = 0 ∧
        Sees sb P s₀ env n (update F j (some (nd.enter name i))) ((dp, j) ::ₘ (ip, i) ::ₘ hs) {dp} s') E s := by
  have hm : (dp, j) ∈ (dp, j) ::ₘ (ip, i) ::ₘ hs := Multiset.mem_cons_self ..
  have hm' : (ip, i) ∈ (dp, j) ::ₘ (ip, i) ::ₘ hs := Multiset.mem_cons_of_mem (Multiset.mem_cons_self ..)
  rw [linkEntry]
  refine wp_bind.2 (wp_get.2 ?_)
  rw [(h.known dp (h.pos hm)).2, (h.known ip (h.pos hm')).2, if_neg fun hc => hc rfl, h.inum_eq hm']
  refine wp.bind (sees_dirlink hL h hm (Multiset.mem_singleton_self dp) hF ht name i (fun k j' nm he => ?_) (.inr hE.entry)
    (.inr hE.inodes) (.inr hE.sleeps) (.inr hE.full) (.inr hE.alloc)) ?_
  · obtain ⟨hlt, hk⟩ := hn.entry j nd k j' nm hF ht he
    exact ⟨hlt, fun md hmd hz => (hk md hmd hz).mono⟩
  rintro r s' (⟨rfl, -, h', hdev⟩ | ⟨rfl, hfind, ha, h', -⟩)
  · exact .inl ⟨rfl, h', hdev⟩
  · exact .inr ⟨rfl, hfind, ha, h'⟩

theorem sees_link (hL : Layout sb) (hE : Tolerant E) (hn : Named sb F (InUse s₀ env 0)) (hc : CwdAt s₀ env cwd c)
    (hP : ∀ p ∈ P, p F) (h : Sees sb P s₀ env 0 F 0 0 s) (old new : List Byte)
    (hbad : ∀ s', Failed sb P s₀ env F s s' → Q (-1) s')
    (hok : ∀ ip i nd j pd name s₁, follow F (startAt c old) (components old) = some i → F i = some nd → nd.type ≠ T_DIR →
      F j = some pd → pd.type = T_DIR → dirFind pd.bytes name = none → pd.bytes.length % 16 = 0 →
      Sees sb P s₀ env 1 (update (update F i (some { nd with nlink := nd.nlink + 1 }))
        j (some (pd.enter name i)))
        {(ip, i)} 0 s₁ → wp (do iput sb ip; onDev (endOp sb); pure 0) Q E s₁) : wp (link sb cwd old new) Q E s := by
  refine wp.bind (sees_beginOp hL h (.inr hE.sleeps)) ?_
  rintro _ s₁ ⟨h₁, hdev₁⟩
  refine wp.bind (sees_namei hL (hn.walks hE hc) old h₁) ?_
  rintro r s₂ ⟨hdev₂, hr⟩
  have hcache₂ : s₂.dev.cache = s.dev.cache := by rw [hdev₂, hdev₁]
  cases r with
  | none => exact sees_fail hL hr.2 hP hcache₂ hbad
  | some ip =>
    obtain ⟨i, hfollow, hvi, h₂⟩ := hr
    have hm : (ip, i) ∈ (ip, i) ::ₘ (0 : Multiset (Nat × Nat)) := Multiset.mem_cons_self ..
    refine wp.bind (sees_ilock hL h₂ hm hvi.alloc (.inl (Multiset.notMem_zero ip))) ?_
    rintro _ s₃ ⟨h₃, hdev₃⟩
    have hl : ip ∈ ip ::ₘ (0 : Multiset Nat) := Multiset.mem_cons_self ..
    obtain ⟨nd, hF⟩ : ∃ nd, F i = some nd := ⟨_, h₃.node hm hl⟩
    obtain ⟨-, htype, -⟩ := h₃.size_eq hm hl hF
    have hcache₃ : s₃.dev.cache = s.dev.cache := by rw [hdev₃, hcache₂]
    have hd₃ : dinodeOf sb s₃.dev.cache i = (s₃.icache ip).d := (diskTable_some (h₃.table hm hl)).2.2.2
    refine wp_bind.2 (wp_get.2 ?_)
    dsimp only
    rw [htype]
    split
    · -- directories are not linked
      refine wp.bind (sees_unlock hL h₃ hvi.linked) ?_
      rintro _ s₄ ⟨h₄, hdev₄⟩
      exact sees_fail hL h₄ hP (by rw [hdev₄, hcache₃]) hbad
    · next ht =>
      refine wp.bind (sees_setFields hL h₃ hm hl hF (fun _ => rfl) (fun _ => rfl) (fun _ => rfl)
        (w := fun x => { x with nlink := x.nlink + 1 }) (fun _ _ => rfl) (.inr fun e he => hE.alloc e (.inr he))) ?_
      rintro _ s₄ ⟨h₄, hdev₄⟩
      refine wp.bind ((sees_iunlock hL h₄ hm).mono (fun _ _ => id) fun _ => False.elim) ?_
      rintro _ s₅ ⟨h₅, -, -, hdev₅⟩
      have hn' : Named sb (update F i (some { nd with nlink := nd.nlink + 1 })) (InUse s₀ env ((ip, i) ::ₘ 0)) :=
        hn.update hF rfl
      refine wp.bind (sees_nameiparent hL (hn'.walks hE hc) new h₅) ?_
      rintro r s₆ ⟨hdev₆, hr⟩
      cases r with
      | none => exact sees_linkBad hL hE hF hvi.linked hd₃ hr.2 (by rw [hdev₆, hdev₅, hdev₄]) hcache₃ hP hbad
      | some x =>
        obtain ⟨dp, name⟩ := x
        obtain ⟨j, pd, -, hpd, hpt, hvj, h₆⟩ := hr
        have hm₆ : (dp, j) ∈ (dp, j) ::ₘ (ip, i) ::ₘ (0 : Multiset (Nat × Nat)) := Multiset.mem_cons_self ..
        have hij : j ≠ i := fun heq => by
          rw [heq, update_self] at hpd
          obtain rfl := Option.some.inj hpd
          exact ht hpt
        refine wp.bind (sees_ilock hL h₆ hm₆ hvj.alloc (.inl (Multiset.notMem_zero dp))) ?_
        rintro _ s₇ ⟨h₇, hdev₇⟩
        refine wp.bind (sees_linkEntry hL hE h₇ hn' hpd hpt name) ?_
        rintro r s₈ (⟨rfl, h₈, hdev₈⟩ | ⟨rfl, hfind, ha, h₈⟩)
        · refine wp.bind (sees_unlock hL h₈ hvj.linked) ?_
          rintro _ s₉ ⟨h₉, hdev₉⟩
          rw [if_neg Bool.false_ne_true]
          exact sees_linkBad hL hE hF hvi.linked hd₃ h₉ (by rw [hdev₉, hdev₈, hdev₇, hdev₆, hdev₅, hdev₄]) hcache₃ hP hbad
        · refine wp.bind (sees_unlock hL h₈ fun md hmd hz => ?_) ?_
          · rw [update_self] at hmd
            obtain rfl := Option.some.inj hmd
            exact hvj.linked pd hpd hz
          rintro _ s₉ ⟨h₉, -⟩
          rw [if_pos rfl]
          rw [update_of_ne hij] at hpd
          exact hok ip i nd j pd name s₉ hfollow hF ht hpd hpt hfind ha h₉

/-! ### `sys_unlink` -/

theorem sees_isdirempty (hL : Layout sb) (h : Sees sb P s₀ env n F hs locks s) (hm : (ip, i) ∈ hs)
    (hl : ip ∈ locks) (hF : F i = some nd)
    (ht : nd.type = T_DIR) (hE : nd.bytes.length % 16 = 0 ∨ E (.panic "isdirempty: readi")) :
    wp (isdirempty sb ip) (fun b s' => s' = s ∧ (b = true → ∀ k, 2 ≤ k → k < slots nd.bytes →
      deInum (slot nd.bytes k) = 0)) E s := by
  obtain ⟨hsize, -, -⟩ := h.size_eq hm hl hF
  rw [isdirempty]
  refine wp_bind.2 (wp_get.2 ?_)
  dsimp only
  rw [hsize]
  refine wp.bind (sees_scan hL h hm hl hF ht (fun _ => by omega) hE fun _ de => if deInum de ≠ 0 then some () else none) ?_
  rintro r _ ⟨rfl, hr⟩
  refine ⟨rfl, fun hb k hk hlt => ?_⟩
  cases r with
  | none =>
    have hle := dirEntries nd.bytes
    have hno := (hr k hk (by omega)).2
    by_contra hne
    rw [if_pos hne] at hno
    cases hno
  | some u => cases hb

theorem sees_fullDir (hL : Layout sb) (h : Sees sb P s₀ env n F hs locks s) (hm : (ip, i) ∈ hs)
    (hl : ip ∈ locks) (hF : F i = some nd)
    (hE : nd.bytes.length % 16 = 0 ∨ E (.panic "isdirempty: readi")) :
    wp (fullDir sb ip) (fun b s' => s' = s ∧ (b = false → nd.type = T_DIR → ∀ k, 2 ≤ k →
      k < slots nd.bytes → deInum (slot nd.bytes k) = 0))
      E s := by
  obtain ⟨-, htype, -⟩ := h.size_eq hm hl hF
  rw [fullDir]
  refine wp_bind.2 (wp_get.2 ?_)
  dsimp only
  rw [htype]
  split
  · next ht =>
    refine wp.bind (sees_isdirempty hL h hm hl hF ht hE) ?_
    rintro b _ ⟨rfl, hb⟩
    refine ⟨rfl, fun hf _ => hb ?_⟩
    rwa [Bool.not_eq_false'] at hf
  · next ht => exact ⟨rfl, fun _ hc => absurd hc ht⟩

theorem sees_unlinkBad (hL : Layout sb) (h : Sees sb P s₀ env 1 F {(dp, i)} {dp} s₁)
    (hk : Retained F (InUse s₀ env 0) i) (hP : ∀ p ∈ P, p F)
    (hdev : s₁.dev.cache = s.dev.cache) (hbad : ∀ s', Failed sb P s₀ env F s s' → Q (-1) s') : wp (unlinkBad sb dp) Q E s₁ := by
  refine wp.bind (sees_unlock hL h hk) ?_
  rintro _ s₂ ⟨h₂, hdev₂⟩
  exact sees_fail hL h₂ hP (by rw [hdev₂, hdev]) hbad

/-- The entry at `off` of directory `i` is the name of inode `j` that `sys_unlink` may remove. -/
structure Removable (F : Store) (i j off : Nat) (nd md : Node) (name : List Byte) : Prop where
  dir : F i = some nd
  type : nd.type = T_DIR
  found : dirFind nd.bytes name = some (j, off)
  dot : ¬ (namecmp name [46] = true ∨ namecmp name [46, 46] = true)
  node : F j = some md
  ne : i ≠ j
  nlink : 1 ≤ md.nlink.toInt
  empty : md.type = T_DIR → ∀ k, 2 ≤ k → k < slots md.bytes → deInum (slot md.bytes k) = 0

theorem sees_unlink (hL : Layout sb) (hE : Tolerant E) (hn : Named sb F (InUse s₀ env 0)) (hc : CwdAt s₀ env cwd c)
    (hP : ∀ p ∈ P, p F) (h : Sees sb P s₀ env 0 F 0 0 s) (path : List Byte)
    (hnl : E (.panic "unlink: nlink < 1") ∨ ∀ i nd k j nm md, F i = some nd → nd.type = T_DIR → HasEntry nd.bytes k j nm →
      nm ≠ nameKey [46] → nm ≠ nameKey [46, 46] → F j = some md → 1 ≤ md.nlink.toInt)
    (hbad : ∀ s', Failed sb P s₀ env F s s' → Q (-1) s')
    (hok : ∀ dp ip i j off nd md name s₁, Removable F i j off nd md name → Retained F (InUse s₀ env 0) i →
      Sees sb P s₀ env 1 F {(ip, j), (dp, i)} {ip, dp} s₁ → wp (unlinkEntry sb dp ip off) Q E s₁) :
        wp (unlink sb cwd path) Q E s := by
  refine wp.bind (sees_beginOp hL h (.inr hE.sleeps)) ?_
  rintro _ s₁ ⟨h₁, hdev₁⟩
  refine wp.bind (sees_nameiparent hL (hn.walks hE hc) path h₁) ?_
  rintro r s₂ ⟨hdev₂, hr⟩
  have hcache₂ : s₂.dev.cache = s.dev.cache := by rw [hdev₂, hdev₁]
  cases r with
  | none => exact sees_fail hL hr.2 hP hcache₂ hbad
  | some x =>
    obtain ⟨dp, name⟩ := x
    obtain ⟨i, nd, -, hF, ht, hvi, h₂⟩ := hr
    have hm : (dp, i) ∈ (dp, i) ::ₘ (0 : Multiset (Nat × Nat)) := Multiset.mem_cons_self ..
    have hl : dp ∈ dp ::ₘ (0 : Multiset Nat) := Multiset.mem_cons_self ..
    refine wp.bind (sees_ilock hL h₂ hm hvi.alloc (.inl (Multiset.notMem_zero dp))) ?_
    rintro _ s₃ ⟨h₃, hdev₃⟩
    have hcache₃ : s₃.dev.cache = s.dev.cache := by rw [hdev₃, hcache₂]
    split
    · exact sees_unlinkBad hL h₃ hvi.linked hP hcache₃ hbad
    · next hdot =>
      refine wp.bind (sees_dirlookup hL h₃ hm hl hF ht name (fun k j nm he => (hn.entry i nd k j nm hF ht he).1) (.inr hE.entry)
        (.inr hE.inodes)) ?_
      rintro r s₄ ⟨hdev₄, hr⟩
      cases r with
      | none =>
        obtain ⟨-, -, rfl⟩ := hr
        exact sees_unlinkBad hL h₃ hvi.linked hP hcache₃ hbad
      | some x =>
        obtain ⟨ip, off⟩ := x
        obtain ⟨j, hfind, h₄⟩ := hr
        obtain ⟨k, -, he⟩ := dirFind_some hfind
        have hkj := (hn.entry i nd k j _ hF ht he).2
        have hm₄ : (ip, j) ∈ (ip, j) ::ₘ (dp, i) ::ₘ (0 : Multiset (Nat × Nat)) := Multiset.mem_cons_self ..
        have hm₄' : (dp, i) ∈ (ip, j) ::ₘ (dp, i) ::ₘ (0 : Multiset (Nat × Nat)) := Multiset.mem_cons_of_mem hm
        refine wp.bind (sees_ilock hL h₄ hm₄ (.inr hE.type) (.inr hE.sleeps)) ?_
        rintro _ s₅ ⟨h₅, hdev₅⟩
        have hl₅ : ip ∈ ip ::ₘ dp ::ₘ (0 : Multiset Nat) := Multiset.mem_cons_self ..
        have hnode := h₅.node hm₄ hl₅
        obtain ⟨md, hmd⟩ : ∃ md, F j = some md := ⟨_, hnode⟩
        have hnlink : (s₅.icache ip).d.nlink = md.nlink := by
          rw [hmd] at hnode
          rw [Option.some.inj hnode]
          rfl
        refine wp_bind.2 (wp_get.2 (wp_bind.2 (wp_failIf.2 ⟨fun hlow => hnl.resolve_right fun hnl => ?_, fun hhigh => ?_⟩)))
        · have := hnl i nd k j _ md hF ht he (fun hc => hdot (.inl (namecmp_iff.2 hc))) (fun hc =>
            hdot (.inr (namecmp_iff.2 hc))) hmd
          rw [hnlink] at hlow
          omega
        · rw [hnlink] at hhigh
          refine wp.bind (sees_fullDir hL h₅ hm₄ hl₅ hmd (.inr hE.empty)) ?_
          rintro b _ ⟨rfl, hb⟩
          split
          · refine wp.bind (sees_unlock hL h₅ fun nd' hF' hz => (hkj nd' hF' hz).mono) ?_
            rintro _ s₆ ⟨h₆, hdev₆⟩
            exact sees_unlinkBad hL h₆ hvi.linked hP (by rw [hdev₆, hdev₅, hdev₄, hcache₃]) hbad
          · next hfull =>
            have hij : i ≠ j := by
              rintro rfl
              have hsame : dp = ip := h₅.entry_eq hm₄' hm₄
              exact h₅.lock_once (by rw [hsame]; exact Multiset.mem_cons_self ..)
            exact hok dp ip i j off nd md name _ ⟨hF, ht, hfind, hdot, hmd, hij,
              by omega, hb (Bool.eq_false_of_not_eq_true hfull)⟩ hvi.linked h₅

end

end Xv6
