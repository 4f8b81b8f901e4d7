import Xv6.StateOf

/-!
# Entering names into a directory, and removing them

`dirlink` fills the first free slot of a locked directory, or appends one; `sys_unlink` clears a slot. On the
directory as a map this adds or removes one name.
-/

namespace Xv6

open Prog Function

def Node.enter (nd : Node) (name : List Byte) (inum : Nat) : Node :=
  { nd with bytes := splice nd.bytes (dirFree nd.bytes) (entryBytes name inum) }

/-- The directory with the slot at `off` cleared. -/
def Node.clear (nd : Node) (off : Nat) : Node := { nd with bytes := splice nd.bytes off clearBytes }

section

variable {sb : Superblock} {P : Option (Store → Prop)} {F : Store} {s₀ s : Fs} {env : Nat → Nat} {E : Fault → Prop}
variable {hs : Multiset (Nat × Nat)} {locks : Multiset Nat} {n ip dp i j : Nat} {nd : Node} {name : List Byte}

theorem sees_freeDirent (hL : Layout sb) (h : Sees sb P s₀ env n F hs locks s) (hm : (dp, i) ∈ hs) (hl : dp ∈ locks)
    (hF : F i = some nd) (ht : nd.type = T_DIR) (ha : nd.bytes.length % 16 = 0) :
    wp (freeDirent sb dp) (fun off s' => s' = s ∧ off = dirFree nd.bytes) (fun _ => False) s := by
  obtain ⟨hsize, -, -⟩ := h.size_eq hm hl hF
  have hslots : (nd.bytes.length + 15) / 16 = slots nd.bytes := by
    unfold slots
    omega
  rw [freeDirent]
  refine wp_bind.2 (wp_get.2 ?_)
  dsimp only
  rw [hsize, hslots]
  refine wp.bind (sees_scan hL h hm hl hF ht (fun _ => by omega) (.inl ha) fun k de =>
    if deInum de = 0 then some (16 * k) else none) ?_
  rintro r _ ⟨rfl, hr⟩
  refine ⟨rfl, ?_⟩
  rw [dirFree]
  cases r with
  | none =>
    rw [List.findSome?_eq_none_iff.2 fun l hl => (hr l (Nat.zero_le l) (by have := List.mem_range.1 hl; omega)).2]
  | some off =>
    obtain ⟨k, -, -, hlt, hg, hno⟩ := hr
    rw [findSome?_range hlt hg fun l hl => hno l (Nat.zero_le l) hl]

theorem sees_enter (hL : Layout sb) (h : Sees sb P s₀ env n F hs locks s) (hm : (dp, i) ∈ hs) (hl : dp ∈ locks)
    (hF : F i = some nd) (ht : nd.type = T_DIR) (ha : nd.bytes.length % 16 = 0) (name : List Byte) (inum : Nat)
    (hfits : dirFree nd.bytes + 16 ≤ MAXFILE * BSIZE ∨ E (.panic "dirlink"))
    (hroom : (dirFree nd.bytes + 16 ≤ MAXFILE * BSIZE →
      Room sb (dirFree nd.bytes) 16 s.dev (s.icache dp).d) ∨ ∀ e, AllocFault e → E e) :
    wp (do
      let off ← freeDirent sb dp
      let r ← Icache.writei sb dp (dirent name inum) off 16
      failIf (r ≠ 16) (.panic "dirlink")
      pure 0) (fun (r : Int) s' => r = 0 ∧ Sees sb P s₀ env n (update F i (some (nd.enter name inum))) hs locks s' ∧
        Written sb (diskTable sb s.dev.cache) i ∅ (dirFree nd.bytes) 16 (dirent name inum) s.dev
          (s.icache dp).d s'.dev (s'.icache dp).d)
      E s := by
  obtain ⟨k, hk, hoff, -, -⟩ := dirFree_spec nd.bytes
  have hle : dirFree nd.bytes ≤ nd.bytes.length := by
    unfold slots at hk
    omega
  have hsize : nd.bytes.length < 2 ^ 31 := by
    have := (h.ok.fs.files _ _ (h.table hm hl)).size_le
    have := (h.size_eq hm hl hF).1
    omega
  refine wp.bind ((sees_freeDirent hL h hm hl hF ht ha).mono (fun _ _ => id) fun _ => False.elim) ?_
  rintro _ _ ⟨rfl, rfl⟩
  refine wp.bind (sees_writei hL h hm hl hF (by rw [ht]; decide) (dirent name inum) (dirFree nd.bytes) 16 (by omega) (by omega)
    (hroom.imp_left fun hr _ => hr)) ?_
  rintro r s₁ (⟨rfl, -, -, h₁, hw⟩ | ⟨rfl, hno, -, -⟩)
  · refine wp_bind.2 (wp_failIf.2 ⟨fun hne => absurd rfl hne, fun _ => ?_⟩)
    exact ⟨rfl, h₁, hw⟩
  · refine wp_bind.2 (wp_failIf.2 ⟨fun _ => hfits.resolve_left fun hmax => hno ⟨hle, hmax⟩, fun hc => absurd hc (by decide)⟩)

theorem sees_dirlink (hL : Layout sb) (h : Sees sb P s₀ env n F hs locks s) (hm : (dp, i) ∈ hs) (hl : dp ∈ locks)
    (hF : F i = some nd) (ht : nd.type = T_DIR) (name : List Byte) (inum : Nat)
    (hentry : ∀ k j nm, HasEntry nd.bytes k j nm → j < sb.ninodes ∧ ∀ md, F j = some md → md.nlink = 0 → InUse s₀ env hs j)
    (ha : nd.bytes.length % 16 = 0 ∨ E (.panic "dirlookup read"))
    (hcache : hs.card < (vacant env).card ∨ E (.panic "iget: no inodes"))
    (hself : (∀ j off, dirFind nd.bytes name = some (j, off) → ∀ e ∈ locks, ∃ i', (e, i') ∈ hs ∧ i' ≠ j) ∨ E .sleeps)
    (hfits : dirFree nd.bytes + 16 ≤ MAXFILE * BSIZE ∨ E (.panic "dirlink"))
    (hroom : (dirFree nd.bytes + 16 ≤ MAXFILE * BSIZE →
      Room sb (dirFree nd.bytes) 16 s.dev (s.icache dp).d) ∨ ∀ e, AllocFault e → E e) :
    wp (dirlink sb dp name inum) (fun r s' =>
      (r = -1 ∧ dirFind nd.bytes name ≠ none ∧ Sees sb P s₀ env n F hs locks s' ∧ s'.dev = s.dev) ∨
      r = 0 ∧ dirFind nd.bytes name = none ∧ nd.bytes.length % 16 = 0 ∧
        Sees sb P s₀ env n (update F i (some (nd.enter name inum))) hs locks s' ∧
        Written sb (diskTable sb s.dev.cache) i ∅ (dirFree nd.bytes) 16 (dirent name inum) s.dev
          (s.icache dp).d s'.dev (s'.icache dp).d)
      E s := by
  rw [dirlink]
  refine wp.bind (sees_dirlookup hL h hm hl hF ht name (fun k j nm he => (hentry k j nm he).1) ha
    (hcache.imp_left fun hc j _ _ => h.spare hc j)) ?_
  rintro r s₁ ⟨hdev₁, hr⟩
  cases r with
  | none =>
    obtain ⟨hfind, halign, rfl⟩ := hr
    refine (sees_enter hL h hm hl hF ht halign name inum hfits hroom).post ?_
    rintro r s₂ ⟨rfl, h₂, hw⟩
    exact .inr ⟨rfl, hfind, halign, h₂, hw⟩
  | some x =>
    obtain ⟨ip, off⟩ := x
    obtain ⟨j, hfind, h₁⟩ := hr
    obtain ⟨k, -, he⟩ := dirFind_some hfind
    refine wp.bind (sees_iput hL h₁ (fun md hmd hz => h₁.second ((hentry _ _ _ he).2 md hmd hz))
      (hself.imp_left fun hno hmem => ?_)) ?_
    · -- the entry that stands for the inode is not locked
      obtain ⟨i', hi', hne⟩ := hno j off hfind ip hmem
      exact hne ((h₁.inum_eq (Multiset.mem_cons_of_mem hi')).symm.trans (h₁.inum_eq (Multiset.mem_cons_self ..)))
    · rintro _ s₂ ⟨h₂, hdev₂⟩
      exact .inl ⟨rfl, by rw [hfind]; exact Option.some_ne_none _, h₂, hdev₂.trans hdev₁⟩

/-! ### The map -/

/-- Entry `ip` has got one more reference, or has been given to inode `j`. -/
def Gotten (ip j : Nat) (s s' : Fs) : Prop :=
  (0 < (s.icache ip).ref ∧ (s.icache ip).inum = j ∧
      s' = { s with icache := update s.icache ip { s.icache ip with ref := (s.icache ip).ref + 1 } }) ∨
    (s.icache ip).ref = 0 ∧
      s' = { s with
        icache := update s.icache ip
          { s.icache ip with dev := ROOTDEV, inum := j, ref := 1, valid := false } }

theorem Gotten.inum {s' : Fs} (h : Gotten ip j s s') : (s'.icache ip).inum = j := by
  rcases h with ⟨-, hin, rfl⟩ | ⟨-, rfl⟩
  · simp only [update_self, hin]
  · simp only [update_self]

theorem Sees.iget (h : Sees sb P s₀ env n F hs locks s) (hfree : hs.card < (vacant env).card) (j : Nat) :
    wp (Xv6.iget ROOTDEV j) (fun ip s' => Gotten ip j s s') (fun _ => False) s := by
  refine ((iget_cases ROOTDEV j s).and (iget_full j s)).mono ?_ ?_
  · rintro ip s' ⟨⟨-, ⟨hp, -, hin, rfl⟩ | ⟨-, hz, rfl⟩⟩, -⟩
    · exact .inl ⟨hp, hin, rfl⟩
    · exact .inr ⟨hz, rfl⟩
  · rintro e ⟨-, hfull⟩
    exact hfull (h.spare hfree j)

theorem Sees.dirlookup (hL : Layout sb) (h : Sees sb P s₀ env n F hs locks s) (hm : (dp, i) ∈ hs) (hl : dp ∈ locks)
    (hF : F i = some nd) (ht : nd.type = T_DIR) (ha : nd.bytes.length % 16 = 0)
      (hfree : hs.card < (vacant env).card) (name : List Byte) :
    wp (Xv6.dirlookup sb dp name) (fun r s' =>
      (r = none ∧ dirFind nd.bytes name = none ∧ s' = s) ∨
      ∃ ip j off, r = some (ip, off) ∧ dirFind nd.bytes name = some (j, off) ∧ Gotten ip j s s') (fun _ => False) s := by
  obtain ⟨hsize, htype, hdev⟩ := h.size_eq hm hl hF
  rw [Xv6.dirlookup]
  refine wp_bind.2 (wp_get.2 (wp_bind.2 (wp_failIf.2 ⟨fun hne => absurd (htype.trans ht) hne, fun _ => ?_⟩)))
  rw [hsize, hdev]
  refine wp.bind (sees_dirScan hL h hm hl hF ht name (.inl ha)) ?_
  rintro r _ ⟨rfl, hfind, -⟩
  cases r with
  | none => exact .inl ⟨rfl, hfind.symm, rfl⟩
  | some x =>
    refine wp.bind (h.iget hfree x.1) ?_
    intro ip s₁ hgot
    exact .inr ⟨ip, x.1, x.2, rfl, hfind.symm, hgot⟩

theorem Sees.iput_gotten (h : Sees sb P s₀ env n F hs locks s) {s₁ : Fs} (hgot : Gotten ip j s s₁)
    (hself : ∀ e ∈ locks, (s.icache e).inum ≠ j) :
    wp (iput sb ip) (fun _ s' => s'.dev = s.dev ∧ ∀ e, 0 < (s.icache e).ref → s'.icache e = s.icache e) (fun _ => False) s₁ := by
  have hunl : (s.icache ip).locked = false := by
    refine h.unlocked fun hmem => ?_
    rcases hgot with ⟨-, hin, -⟩ | ⟨hz, -⟩
    · exact hself ip hmem hin
    · have := (h.valid ip hmem).1
      omega
  simp only [iput, acquiresleep, releasesleep, ifreeLast, wp_bind, wp_get, wp_failIf, wp_setInode, wp_ite, wp_pure]
  rcases hgot with ⟨hp, -, rfl⟩ | ⟨hz, rfl⟩
  · simp only [update_self, update_idem, hunl]
    refine ⟨fun hc => absurd hc Bool.false_ne_true, fun _ => ⟨fun hc => absurd hc.2.2 (by omega),
      fun _ => ⟨trivial, fun e _ => ?_⟩⟩⟩
    by_cases he : e = ip
    · subst he
      simp only [update_self]
      generalize s.icache e = x at hunl
      cases x
      simp_all
    · simp only [update_of_ne he]
  · simp only [update_self, update_idem, hunl]
    refine ⟨fun hc => absurd hc Bool.false_ne_true, fun _ => ⟨fun hc => absurd hc.1 Bool.false_ne_true,
      fun _ => ⟨trivial, fun e he => ?_⟩⟩⟩
    have hne : e ≠ ip := fun hc => by
      rw [hc, hz] at he
      exact lt_irrefl _ he
    simp only [update_of_ne hne]

theorem Sees.dirlink (hL : Layout sb) (h : Sees sb P s₀ env n F hs locks s) (hm : (dp, i) ∈ hs) (hl : dp ∈ locks)
    (hF : F i = some nd) (ht : nd.type = T_DIR) (ha : nd.bytes.length % 16 = 0)
      (hfree : hs.card < (vacant env).card) (name : List Byte) (inum : Nat)
    (hself : ∀ j off, dirFind nd.bytes name = some (j, off) → ∀ e ∈ locks, (s.icache e).inum ≠ j)
    (hroom : dirFind nd.bytes name = none →
      dirFree nd.bytes + 16 ≤ MAXFILE * BSIZE ∧ Room sb (dirFree nd.bytes) 16 s.dev (s.icache dp).d) :
    wp (Xv6.dirlink sb dp name inum) (fun r s' => (r = -1 ∧ dirFind nd.bytes name ≠ none) ∨ r = 0 ∧ dirFind nd.bytes name = none ∧
      Sees sb P s₀ env n (update F i (some (nd.enter name inum))) hs locks s') (fun _ => False) s := by
  rw [Xv6.dirlink]
  refine wp.bind (h.dirlookup hL hm hl hF ht ha hfree name) ?_
  rintro r s₁ (⟨rfl, hfind, hs₁⟩ | ⟨ip, j, off, rfl, hfind, hgot⟩)
  · rw [hs₁]
    obtain ⟨hfits, hroom⟩ := hroom hfind
    refine (sees_enter hL h hm hl hF ht ha name inum (.inl hfits) (.inl fun _ => hroom)).post ?_
    rintro r s₂ ⟨rfl, h₂, -⟩
    exact .inr ⟨rfl, hfind, h₂⟩
  · refine wp.bind (h.iput_gotten hgot (hself j off hfind)) ?_
    intro _ s₂ _
    exact .inl ⟨rfl, by rw [hfind]; exact Option.some_ne_none _⟩

theorem card_touched_entry (k : Nat) : (touched (16 * k) 16).card ≤ 3 := by
  have hone : (16 * k + 16 + 511) / 512 = 16 * k / 512 + 1 := by omega
  rw [touched, hone, Nat.Ico_succ_singleton, Finset.singleton_biUnion]
  generalize locOf (16 * k / 512) = l
  cases l with
  | leafEnt k j => exact Finset.card_le_three
  | indEnt j => exact (Finset.card_le_two).trans (by decide)
  | leaf k => exact (Finset.card_le_two).trans (by decide)
  | _ => exact (Finset.card_singleton _).le.trans (by decide)

end

/-! ### The root directory, locked -/

end Xv6
