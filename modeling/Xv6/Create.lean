import Xv6.NameCalls
import Xv6.Supply

/-!
# `create`

The inode at a path, or a new one: `created` is the store with the new inode and its name. A new
directory comes with its names for itself and for its parent, which gets a link for the latter.
-/

namespace Xv6

open Prog Function

def Node.counted (pd : Node) (type : BitVec 16) : Node := if type = T_DIR then { pd with nlink := pd.nlink + 1 } else pd

/-- The new inode `j` in directory `i`. -/
def newNode (type major minor : BitVec 16) (i j : Nat) : Node :=
  if type = T_DIR then ((⟨type, major, minor, 1, []⟩ : Node).enter [46] j).enter [46, 46] i else ⟨type, major, minor, 1, []⟩

/-- The store with the new inode `j`, called `name` in directory `i`. -/
def created (F : Store) (type major minor : BitVec 16) (i : Nat) (pd : Node) (name : List Byte) (j : Nat) : Store :=
  update (update F j (some (newNode type major minor i j))) i (some ((pd.counted type).enter name j))

/-- The path leads to directory `i`, which does not have the last name. -/
structure NoEntry (F : Store) (c : Nat) (path : List Byte) (i : Nat) (pd : Node) (name : List Byte) : Prop where
  parent : followParent F (startAt c path) (components path) = some (i, name)
  dir : F i = some pd
  type : pd.type = T_DIR
  absent : dirFind pd.bytes name = none

/-- The path leads to directory `i`, where the last name is that of inode `j`. -/
structure Entry (F : Store) (c : Nat) (path : List Byte) (i j : Nat) (pd md : Node) (name : List Byte) : Prop where
  parent : followParent F (startAt c path) (components path) = some (i, name)
  dir : F i = some pd
  type : pd.type = T_DIR
  found : ∃ off, dirFind pd.bytes name = some (j, off)
  node : F j = some md

/-- An inode that `create` returns when it is there already. -/
def Reused (type : BitVec 16) (md : Node) : Prop := type = T_FILE ∧ md.type = T_FILE ∨ md.type = T_DEV

/-- `create` has to give up: there is no directory to put the inode in, or its name is taken. -/
def Refused (F : Store) (c : Nat) (path : List Byte) (type : BitVec 16) : Prop :=
  followParent F (startAt c path) (components path) = none ∨ ∃ i j pd md name, Entry F c path i j pd md name ∧ ¬ Reused type md

section

variable {sb : Superblock} {P : Option (Store → Prop)} {F : Store} {s₀ s : Fs} {env : Nat → Nat} {E : Fault → Prop}
variable {hs : Multiset (Nat × Nat)} {locks : Multiset Nat} {n ip dp i j c m f : Nat} {nd md pd : Node}
    {name path : List Byte} {cwd : Option Nat}
variable {type major minor : BitVec 16}

theorem NoEntry.not_entry (h : NoEntry F c path i pd name) {i' j' : Nat} {pd' md' : Node} {name' : List Byte} :
    ¬ Entry F c path i' j' pd' md' name' := by
  intro he
  have heq : (i, name) = (i', name') := Option.some.inj (h.parent.symm.trans he.parent)
  obtain ⟨rfl, rfl⟩ := Prod.mk.inj heq
  obtain rfl := Option.some.inj (h.dir.symm.trans he.dir)
  obtain ⟨off, hoff⟩ := he.found
  rw [h.absent] at hoff
  cases hoff

theorem NoEntry.not_refused (h : NoEntry F c path i pd name) : ¬ Refused F c path type := by
  rintro (hnone | ⟨i', j', pd', md', name', he, -⟩)
  · rw [h.parent] at hnone
    cases hnone
  · exact h.not_entry he

theorem newNode_nlink (type major minor : BitVec 16) (i j : Nat) : (newNode type major minor i j).nlink = 1 := by
  unfold newNode
  split <;> rfl

theorem counted_of_ne (hne : type ≠ T_DIR) : pd.counted type = pd := if_neg hne

theorem counted_keeps (pd : Node) (type : BitVec 16) : (pd.counted type).bytes = pd.bytes ∧ (pd.counted type).type = pd.type := by
  unfold Node.counted
  split <;> exact ⟨rfl, rfl⟩

/-! ### A new entry -/

theorem sees_dirlink_new (hL : Layout sb) (h : Sees sb P s₀ env 1 F hs locks s) (hm : (dp, i) ∈ hs) (hl : dp ∈ locks)
    (hF : F i = some nd) (ht : nd.type = T_DIR) (ha : nd.bytes.length % 16 = 0)
      (hnone : dirFind nd.bytes name = none) (inum : Nat)
    (hfits : dirFree nd.bytes + 16 ≤ MAXFILE * BSIZE ∨ E (.panic "dirlink")) (hS : Supply sb E m (f + 3) s.dev) (hm20 : m ≤ 20) :
    wp (dirlink sb dp name inum) (fun r s' => r = 0 ∧ Sees sb P s₀ env 1 (update F i (some (nd.enter name inum))) hs locks s' ∧
      Supply sb E (m + 4) f s'.dev) E s := by
  obtain ⟨hsize, htype, -⟩ := h.size_eq hm hl hF
  obtain ⟨k, -, hoff, -⟩ := dirFree_spec nd.bytes
  rw [dirlink]
  have hlook : wp (dirlookup sb dp name) (fun r s' => r = none ∧ s' = s) E s := by
    rw [dirlookup]
    refine wp_bind.2 (wp_get.2 (wp_bind.2 (wp_failIf.2 ⟨fun hne => absurd (htype.trans ht) hne, fun _ => ?_⟩)))
    rw [hsize]
    refine wp.bind (sees_dirScan hL h hm hl hF ht name (.inl ha)) ?_
    rintro r _ ⟨rfl, hfind, -⟩
    rw [hfind, hnone]
    exact ⟨rfl, rfl⟩
  refine wp.bind hlook ?_
  rintro _ _ ⟨rfl, rfl⟩
  refine (sees_enter hL h hm hl hF ht ha name inum hfits ?_).post ?_
  · rw [hoff]
    exact (hS.room hL h hm20 (by omega) k _).imp_left fun hr _ => hr
  · rintro r s' ⟨hr, h', hw⟩
    rw [hoff] at hw
    exact ⟨hr, h', hS.written h.ok.fs.owned (h.table hm hl) hw⟩

/-! ### A new inode -/

theorem dirFind_nil (name : List Byte) : dirFind [] name = none := rfl

theorem dirFree_nil : dirFree ([] : List Byte) + 16 ≤ MAXFILE * BSIZE := by decide

theorem dirFind_dot (inum : Nat) : dirFind (entryBytes [46] inum) [46, 46] = none := by
  rw [dirFind_none]
  rintro k j he
  have hlt : k < 1 := by
    have := he.lt
    unfold slots at this
    rwa [length_entryBytes] at this
  have hslot : slot (entryBytes [46] inum) k = entryBytes [46] inum := by
    rw [show k = 0 by omega, slot, Nat.mul_zero, List.drop_zero, List.take_of_length_le (by rw [length_entryBytes])]
  have hname := he.name
  rw [hslot, nameKey_entryBytes] at hname
  exact absurd hname (by decide)

theorem enter_nil (nd : Node) (hb : nd.bytes = []) (name : List Byte) (inum : Nat) :
    (nd.enter name inum).bytes = entryBytes name inum := by
  have hfree : dirFree ([] : List Byte) = 0 := rfl
  simp only [Node.enter, hb, hfree, splice, List.take_nil, List.nil_append, List.drop_nil, List.append_nil]

theorem sees_createDots (hL : Layout sb) (h : Sees sb P s₀ env 1 F hs locks s) (hmd : (dp, i) ∈ hs) (hld : dp ∈ locks)
    (hm : (ip, j) ∈ hs) (hl : ip ∈ locks) (hij : i ≠ j) (hF : F i = some pd) (hj : F j = some ⟨type, major, minor, 1, []⟩)
    (hS : Supply sb E m (f + 6) s.dev) (hm9 : m ≤ 11) :
    wp (createDots sb type dp ip) (fun _ s' =>
      Sees sb P s₀ env 1 (update (update F i (some (pd.counted type))) j (some (newNode type major minor i j))) hs locks s' ∧
        Supply sb E (m + 9) f s'.dev) E s := by
  rw [createDots, Node.counted, newNode]
  split
  · next ht =>
    refine wp.bind (sees_setFields hL h hmd hld hF (fun _ => rfl) (fun _ => rfl) (fun _ => rfl)
      (w := fun x => { x with nlink := x.nlink + 1 }) (fun _ _ => rfl) (hS.log hL h (by omega))) ?_
    rintro _ s₁ ⟨h₁, hdev₁⟩
    have hS₁ : Supply sb E (m + 1) (f + 6) s₁.dev := by
      rw [hdev₁]
      exact hS.iupdate hL (h.range hmd).2 _
    have hj₁ : update F i (some { pd with nlink := pd.nlink + 1 }) j = some ⟨type, major, minor, 1, []⟩ := by
      rw [update_of_ne hij.symm, hj]
    refine wp_bind.2 (wp_get.2 ?_)
    rw [h₁.inum_eq hm, h₁.inum_eq hmd]
    refine wp.bind (sees_dirlink_new hL h₁ hm hl hj₁ ht rfl (dirFind_nil _) j (.inl dirFree_nil) hS₁ (by omega)) ?_
    rintro _ s₂ ⟨rfl, h₂, hS₂⟩
    refine wp_bind.2 (wp_failIf.2 ⟨fun hc => absurd hc (by decide), fun _ => ?_⟩)
    have hb : ((⟨type, major, minor, 1, []⟩ : Node).enter [46] j).bytes = entryBytes [46] j := enter_nil _ rfl _ _
    have hlen : (((⟨type, major, minor, 1, []⟩ : Node).enter [46] j).bytes).length = 16 := by rw [hb, length_entryBytes]
    refine wp.bind (sees_dirlink_new hL h₂ hm hl (update_self ..) ht (by rw [hlen])
      (by rw [hb]; exact dirFind_dot j) i (.inl ?_) hS₂
      (by omega)) ?_
    · obtain ⟨k, hk, hoff, -⟩ := dirFree_spec ((⟨type, major, minor, 1, []⟩ : Node).enter [46] j).bytes
      unfold slots at hk
      simp only [MAXFILE, NDIRECT, NINDIRECT, NDINDIRECT, BSIZE]
      omega
    rintro _ s₃ ⟨rfl, h₃, hS₃⟩
    rw [update_idem] at h₃
    exact wp_failIf.2 ⟨fun hc => absurd hc (by decide), fun _ => ⟨h₃, hS₃⟩⟩
  · rw [← hF, update_eq_self, ← hj, update_eq_self]
    refine ⟨h, hS.imp_left fun hS => ?_⟩
    obtain ⟨B, hcard, hB⟩ := hS.logged
    exact ⟨hS.cap, ⟨B, by omega, hB⟩, by have := hS.free; omega⟩

theorem sees_createNew (hL : Layout sb) (h : Sees sb P s₀ env 1 F ((dp, i) ::ₘ hs) {dp} s)
    (hF : F i = some pd) (hpt : pd.type = T_DIR)
    (hnone : dirFind pd.bytes name = none) (ha : pd.bytes.length % 16 = 0) (ht : type ≠ 0)
    (hkd : (pd.counted type).nlink = 0 → InUse s₀ env hs i)
    (hinode : (∃ j, 1 ≤ j ∧ j < sb.ninodes ∧ F j = none) ∨ E (.panic "ialloc: no inodes"))
    (hcache : hs.card + 1 < (vacant env).card ∨ E (.panic "iget: no inodes"))
    (hfits : dirFree pd.bytes + 16 ≤ MAXFILE * BSIZE ∨ E (.panic "dirlink")) (hS : Supply sb E 0 9 s.dev) :
    wp (createNew sb dp name type major minor) (fun ip s' => ∃ j, F j = none ∧
      Sees sb P s₀ env 1 (created F type major minor i pd name j) ((ip, j) ::ₘ hs) {ip} s') E s := by
  have hmd : (dp, i) ∈ (dp, i) ::ₘ hs := Multiset.mem_cons_self ..
  rw [createNew]
  refine wp_bind.2 (wp_get.2 ?_)
  rw [(h.known dp (h.pos hmd)).2]
  refine wp.bind (sees_ialloc hL h ht hinode (hS.log hL h (by omega)) (hcache.imp_left fun hc => by rwa [Multiset.card_cons])) ?_
  rintro ip s₁ ⟨j, hj, h₁, hdev₁⟩
  have hm : (ip, j) ∈ (ip, j) ::ₘ (dp, i) ::ₘ hs := Multiset.mem_cons_self ..
  have hmd₁ : (dp, i) ∈ (ip, j) ::ₘ (dp, i) ::ₘ hs := Multiset.mem_cons_of_mem hmd
  have hij : i ≠ j := fun heq => by
    rw [← heq, hF] at hj
    cases hj
  have hne : ip ∉ ({dp} : Multiset Nat) := fun hmem => hij (by
    rw [← h₁.inum_eq hmd₁, ← Multiset.mem_singleton.1 hmem, h₁.inum_eq hm])
  have hS₁ : Supply sb E 1 9 s₁.dev := by
    rw [hdev₁]
    exact hS.iupdate hL (h₁.range hm).2 _
  refine wp.bind (sees_ilock hL h₁ hm (.inl (by rw [update_self]; exact Option.some_ne_none _)) (.inl hne)) ?_
  rintro _ s₂ ⟨h₂, hdev₂⟩
  have hl : ip ∈ ip ::ₘ ({dp} : Multiset Nat) := Multiset.mem_cons_self ..
  have hld : dp ∈ ip ::ₘ ({dp} : Multiset Nat) := Multiset.mem_cons_of_mem (Multiset.mem_singleton_self dp)
  rw [← hdev₂] at hS₁
  refine wp.bind (sees_setFields hL h₂ hm hl (update_self ..) (fun _ => rfl) (fun _ => rfl) (fun _ => rfl)
    (w := fun x => { x with major := major, minor := minor, nlink := 1 }) (fun _ _ => rfl) (hS₁.log hL h₂ (by omega))) ?_
  rintro _ s₃ ⟨h₃, hdev₃⟩
  rw [update_idem] at h₃
  have hS₃ : Supply sb E 2 9 s₃.dev := by
    rw [hdev₃]
    exact hS₁.iupdate hL (h₂.range hm).2 _
  have hF₃ : update F j (some (⟨type, major, minor, 1, []⟩ : Node)) i = some pd := by rw [update_of_ne hij, hF]
  refine wp.bind (sees_createDots hL h₃ hmd₁ hld hm hl hij hF₃ (update_self ..) hS₃ (by omega)) ?_
  rintro _ s₄ ⟨h₄, hS₄⟩
  have hF₄ : update (update (update F j (some (⟨type, major, minor, 1, []⟩ : Node))) i (some (pd.counted type))) j
      (some (newNode type major minor i j)) i = some (pd.counted type) := by
    rw [update_of_ne hij, update_self]
  have hcb := counted_keeps pd type
  refine wp_bind.2 (wp_get.2 ?_)
  rw [h₄.inum_eq hm]
  refine wp.bind (sees_dirlink_new hL h₄ hmd₁ hld hF₄ (hcb.2.trans hpt) (by rw [hcb.1]; exact ha) (by rw [hcb.1]; exact hnone) j
    (by rw [hcb.1]; exact hfits) hS₄ (by omega)) ?_
  rintro _ s₅ ⟨rfl, h₅, -⟩
  refine wp_bind.2 (wp_failIf.2 ⟨fun hc => absurd hc (by decide), fun _ => ?_⟩)
  have hstore : update (update (update (update F j (some (⟨type, major, minor, 1, []⟩ : Node))) i
      (some (pd.counted type))) j (some (newNode type major minor i j))) i (some ((pd.counted type).enter name j)) =
      created F type major minor i pd name j := by
    rw [created, @update_comm Nat _ (fun _ => Option Node) i j hij, update_idem, update_idem]
  rw [hstore] at h₅
  have h₅' : Sees sb P s₀ env 1 (created F type major minor i pd name j) ((dp, i) ::ₘ (ip, j) ::ₘ hs) (dp ::ₘ {ip}) s₅ := by
    rw [Multiset.cons_swap (dp, i) (ip, j) hs, show dp ::ₘ ({ip} : Multiset Nat) = ip ::ₘ {dp} from Multiset.pair_comm dp ip]
    exact h₅
  refine wp.bind (sees_unlock hL h₅' fun nd' hnd' hz => ?_) ?_
  · rw [created, update_self] at hnd'
    obtain rfl := Option.some.inj hnd'
    exact (hkd hz).mono
  rintro _ s₆ ⟨h₆, -⟩
  exact ⟨j, hj, h₆⟩

theorem sees_create {Q : Option Nat → Fs → Prop} (hL : Layout sb) (hw : Walks sb s₀ env F hs E cwd c)
    (h : Sees sb P s₀ env 1 F hs 0 s) (path : List Byte) (type major minor : BitVec 16)
    (hnone : ∀ s', Refused F c path type → Sees sb P s₀ env 1 F hs 0 s' → s'.dev = s.dev → Q none s')
    (hold : ∀ ip i j pd md name s', Entry F c path i j pd md name → Reused type md → Visit F (InUse s₀ env hs) E j →
      Sees sb P s₀ env 1 F ((ip, j) ::ₘ hs) {ip} s' → s'.dev = s.dev → Q (some ip) s')
    (hnew : ∀ dp i pd name s₁, NoEntry F c path i pd name → pd.bytes.length % 16 = 0 → Visit F (InUse s₀ env hs) E i →
      Sees sb P s₀ env 1 F ((dp, i) ::ₘ hs) {dp} s₁ → s₁.dev = s.dev →
      wp (createNew sb dp name type major minor) (fun ip s' => Q (some ip) s') E s₁) :
    wp (create sb cwd path type major minor) Q E s := by
  rw [create]
  refine wp.bind (sees_nameiparent hL hw path h) ?_
  rintro r s₁ ⟨hdev₁, hr⟩
  cases r with
  | none => exact hnone s₁ (.inl hr.1) hr.2 hdev₁
  | some x =>
    obtain ⟨dp, name⟩ := x
    obtain ⟨i, pd, hparent, hF, ht, hvi, h₁⟩ := hr
    have hm : (dp, i) ∈ (dp, i) ::ₘ hs := Multiset.mem_cons_self ..
    have hl : dp ∈ dp ::ₘ (0 : Multiset Nat) := Multiset.mem_cons_self ..
    refine wp.bind (sees_ilock hL h₁ hm hvi.alloc (.inl (Multiset.notMem_zero dp))) ?_
    rintro _ s₂ ⟨h₂, hdev₂⟩
    refine wp.bind (sees_dirlookup hL h₂ hm hl hF ht name (fun k j nm he => (hw.sound.entry i pd k j nm hF ht he).1)
      (hw.sound.aligned.imp_left fun ha => ha i pd hF ht) (hw.room.imp_left fun hc j _ _ =>
        h₂.spare (by rwa [Multiset.card_cons]) j)) ?_
    rintro r s₃ ⟨hdev₃, hr⟩
    cases r with
    | none =>
      obtain ⟨habsent, ha, rfl⟩ := hr
      exact wp.bind (hnew dp i pd name _ ⟨hparent, hF, ht, habsent⟩ ha hvi h₂ (hdev₂.trans hdev₁)) fun _ _ hq => hq
    | some x =>
      obtain ⟨ip, off⟩ := x
      obtain ⟨j, hfind, h₃⟩ := hr
      obtain ⟨k, -, he⟩ := dirFind_some hfind
      have hvj := (hw.sound.entry i pd k j _ hF ht he).2
      rw [Multiset.cons_swap] at h₃
      refine wp.bind (sees_unlock hL h₃ fun nd hnd hz => (hvi.linked nd hnd hz).mono) ?_
      rintro _ s₄ ⟨h₄, hdev₄⟩
      have hm₄ : (ip, j) ∈ (ip, j) ::ₘ hs := Multiset.mem_cons_self ..
      refine wp.bind (sees_ilock hL h₄ hm₄ hvj.alloc (.inl (Multiset.notMem_zero ip))) ?_
      rintro _ s₅ ⟨h₅, hdev₅⟩
      obtain ⟨md, hmd⟩ : ∃ md, F j = some md := ⟨_, h₅.node hm₄ (Multiset.mem_cons_self ..)⟩
      obtain ⟨-, htype, -⟩ := h₅.size_eq hm₄ (Multiset.mem_cons_self ..) hmd
      have hdev : s₅.dev = s.dev := by rw [hdev₅, hdev₄, hdev₃, hdev₂, hdev₁]
      have hentry : Entry F c path i j pd md name := ⟨hparent, hF, ht, ⟨off, hfind⟩, hmd⟩
      refine wp_bind.2 (wp_get.2 ?_)
      dsimp only
      rw [htype]
      split
      · next hreuse => exact hold ip i j pd md name s₅ hentry hreuse hvj h₅ hdev
      · next hreuse =>
        refine wp.bind (sees_unlock hL h₅ hvj.linked) ?_
        rintro _ s₆ ⟨h₆, hdev₆⟩
        exact hnone s₆ (.inr ⟨i, j, pd, md, name, hentry, hreuse⟩) h₆ (hdev₆.trans hdev)

end

end Xv6
