import Xv6.PathName
import Xv6.Sees

/-!
# Path lookup on the store

`dirlookup` and `namex` against `dirFind` and `follow`. A walk may come to a free inode, find a directory that
ends inside an entry or the inode cache full: these are its panics, and the side conditions exclude them one by one.
The inodes it gives back on the way survive that, because they have links or are in use elsewhere (`Visit`).
-/

namespace Xv6

open Prog

/-- Inode `j` is referred to by `env` or by `hs`. -/
def InUse (s₀ : Fs) (env : Nat → Nat) (hs : Multiset (Nat × Nat)) (j : Nat) : Prop :=
  (∃ e, 0 < env e ∧ (s₀.icache e).inum = j) ∨ ∃ e, (e, j) ∈ hs

/-- A walk can come to inode `j` and leave it again. -/
structure Visit (F : Store) (live : Nat → Prop) (E : Fault → Prop) (j : Nat) : Prop where
  alloc : F j ≠ none ∨ E (.panic "ilock: no type")
  linked : ∀ nd, F j = some nd → nd.nlink = 0 → live j

structure Sound (sb : Superblock) (F : Store) (live : Nat → Prop) (E : Fault → Prop) : Prop where
  entry : ∀ i nd k j nm, F i = some nd → nd.type = T_DIR → HasEntry nd.bytes k j nm → j < sb.ninodes ∧ Visit F live E j
  aligned : (∀ i nd, F i = some nd → nd.type = T_DIR → nd.bytes.length % 16 = 0) ∨ E (.panic "dirlookup read")

section

variable {sb : Superblock} {P : Option (Store → Prop)} {F : Store} {s₀ s : Fs} {env : Nat → Nat} {E : Fault → Prop}
variable {hs : Multiset (Nat × Nat)} {locks : Multiset Nat} {n ip dp i j : Nat} {nd : Node} {name : List Byte}

/-! ### Scanning a directory -/

theorem sees_readDirent (hL : Layout sb) (h : Sees sb P s₀ env n F hs locks s) (hm : (dp, i) ∈ hs) (hl : dp ∈ locks)
    (hF : F i = some nd) (ht : nd.type = T_DIR) {k : Nat} (hk : k < (nd.bytes.length + 15) / 16) {msg : String}
    (hE : nd.bytes.length % 16 = 0 ∨ E (.panic msg)) :
    wp (readDirent sb dp (16 * k) msg) (fun de s' => de = slot nd.bytes k ∧ s' = s ∧ k < slots nd.bytes) E s := by
  have hsize : nd.bytes.length < 2 ^ 31 := by
    have hT := h.table hm hl
    have hnode := h.node hm hl
    rw [hF] at hnode
    obtain rfl := Option.some.inj hnode
    have := (h.ok.fs.files _ _ hT).size_le
    simp only [nodeOf, length_contents]
    omega
  refine wp.bind ((sees_readi hL h hm hl hF (by rw [ht]; decide) (16 * k) 16 (by omega) (by omega)).mono (fun _ _ => id)
    fun _ => False.elim) ?_
  rintro _ _ ⟨rfl, rfl⟩
  simp only [wp_bind, wp_failIf, wp_pure]
  refine ⟨fun hne => hE.resolve_left fun ha => hne ?_, fun heq => ⟨rfl, trivial, ?_⟩⟩
  · rw [min_eq_left (by omega)]
    rfl
  · unfold slots
    simp only [ne_eq, not_not] at heq
    omega

theorem sees_scan {α : Type} (hL : Layout sb) (h : Sees sb P s₀ env n F hs locks s) (hm : (dp, i) ∈ hs) (hl : dp ∈ locks)
    (hF : F i = some nd) (ht : nd.type = T_DIR) {lo cnt : Nat}
      (hcnt : 0 < cnt → lo + cnt ≤ (nd.bytes.length + 15) / 16) {msg : String}
    (hE : nd.bytes.length % 16 = 0 ∨ E (.panic msg)) (g : Nat → List Byte → Option α) :
    wp (findRange (fun k => do
      let de ← readDirent sb dp (16 * k) msg
      pure (g k de)) lo cnt) (fun r s' => s' = s ∧ match r with
        | none => ∀ l, lo ≤ l → l < lo + cnt → l < slots nd.bytes ∧ g l (slot nd.bytes l) = none
        | some a => ∃ k, lo ≤ k ∧ k < lo + cnt ∧ k < slots nd.bytes ∧ g k (slot nd.bytes k) = some a ∧
            ∀ l, lo ≤ l → l < k → g l (slot nd.bytes l) = none) E s := by
  refine (wp_findRange (fun k s' => s' = s ∧ ∀ l, lo ≤ l → l < k → l < slots nd.bytes ∧ g l (slot nd.bytes l) = none)
    (fun a s' => s' = s ∧ ∃ k, lo ≤ k ∧ k < lo + cnt ∧ k < slots nd.bytes ∧ g k (slot nd.bytes k) = some a ∧
      ∀ l, lo ≤ l → l < k → g l (slot nd.bytes l) = none) ⟨rfl, fun l h1 h2 => absurd h1 (by omega)⟩ ?_).post ?_
  · rintro k _ hlo hhi ⟨rfl, hnone⟩
    refine wp.bind (sees_readDirent hL h hm hl hF ht (by omega) hE) ?_
    rintro _ _ ⟨rfl, rfl, hlt⟩
    cases hg : g k (slot nd.bytes k) with
    | none =>
      refine ⟨rfl, fun l h1 h2 => ?_⟩
      rcases Nat.lt_or_ge l k with hlk | hge
      · exact hnone l h1 hlk
      · rw [show l = k by omega]
        exact ⟨hlt, hg⟩
    | some a => exact ⟨rfl, k, hlo, hhi, hlt, hg, fun l h1 h2 => (hnone l h1 h2).2⟩
  · intro r s' hr
    cases r <;> exact hr

theorem findSome?_range {α : Type} {f : Nat → Option α} {m k : Nat} {a : α} (hk : k < m)
    (ha : f k = some a) (hno : ∀ l < k, f l = none) :
    (List.range m).findSome? f = some a := by
  rw [List.findSome?_eq_some_iff]
  refine ⟨List.range k, k, (List.range (m - k - 1)).map (k + 1 + ·), ?_, ha, fun l hl => hno l (List.mem_range.1 hl)⟩
  rw [← List.singleton_append, ← List.append_assoc, ← List.range_succ, ← List.range_add]
  congr 1
  omega

theorem dirEntries (bs : List Byte) : slots bs ≤ (bs.length + 15) / 16 := by
  unfold slots
  omega

theorem Sees.size_eq (h : Sees sb P s₀ env n F hs locks s) (hm : (dp, i) ∈ hs) (hl : dp ∈ locks) (hF : F i = some nd) :
    (s.icache dp).d.size.toNat = nd.bytes.length ∧ (s.icache dp).d.type = nd.type ∧ (s.icache dp).dev = ROOTDEV := by
  have hnode := h.node hm hl
  rw [hF] at hnode
  obtain rfl := Option.some.inj hnode
  exact ⟨by rw [nodeOf, length_contents], rfl, (h.known dp (h.pos hm)).2⟩

theorem sees_dirScan (hL : Layout sb) (h : Sees sb P s₀ env n F hs locks s) (hm : (dp, i) ∈ hs) (hl : dp ∈ locks)
    (hF : F i = some nd) (ht : nd.type = T_DIR) (name : List Byte) (ha : nd.bytes.length % 16 = 0 ∨ E (.panic "dirlookup read")) :
    wp (findRange (fun k => do
      let de ← readDirent sb dp (16 * k) "dirlookup read"
      pure (if deInum de ≠ 0 ∧ namecmp name (deName de) = true then some (deInum de, 16 * k) else none))
      0 ((nd.bytes.length + 15) / 16)) (fun r s' => s' = s ∧ r = dirFind nd.bytes name ∧
        (r = none → nd.bytes.length % 16 = 0)) E s := by
  refine (sees_scan hL h hm hl hF ht (fun _ => by omega) ha fun k de =>
    if deInum de ≠ 0 ∧ namecmp name (deName de) = true then some (deInum de, 16 * k) else none).post ?_
  rintro r _ ⟨rfl, hr⟩
  cases r with
  | none =>
    refine ⟨rfl, (List.findSome?_eq_none_iff.2 fun l hl => ?_).symm, fun _ => ?_⟩
    · have := dirEntries nd.bytes
      have hlt := List.mem_range.1 hl
      exact (hr l (Nat.zero_le l) (by omega)).2
    · -- the last entry was read as a whole
      by_contra hne
      have := (hr (slots nd.bytes) (Nat.zero_le _) (by unfold slots; omega)).1
      exact lt_irrefl _ this
  | some x =>
    obtain ⟨k, -, -, hlt, hg, hno⟩ := hr
    exact ⟨rfl, (findSome?_range hlt hg fun l hl => hno l (Nat.zero_le l) hl).symm, fun hc => absurd hc (Option.some_ne_none x)⟩

theorem sees_dirlookup (hL : Layout sb) (h : Sees sb P s₀ env n F hs locks s) (hm : (dp, i) ∈ hs) (hl : dp ∈ locks)
    (hF : F i = some nd) (ht : nd.type = T_DIR) (name : List Byte)
    (hrange : ∀ k j nm, HasEntry nd.bytes k j nm → j < sb.ninodes)
    (ha : nd.bytes.length % 16 = 0 ∨ E (.panic "dirlookup read"))
    (hE : (∀ j off, dirFind nd.bytes name = some (j, off) → Gettable s j) ∨ E (.panic "iget: no inodes")) :
    wp (dirlookup sb dp name) (fun r s' => s'.dev = s.dev ∧ match r with
      | none => dirFind nd.bytes name = none ∧ nd.bytes.length % 16 = 0 ∧ s' = s
      | some (ip, off) => ∃ j, dirFind nd.bytes name = some (j, off) ∧ Sees sb P s₀ env n F ((ip, j) ::ₘ hs) locks s') E s := by
  obtain ⟨hsize, htype, hdev⟩ := h.size_eq hm hl hF
  rw [dirlookup]
  refine wp_bind.2 (wp_get.2 (wp_bind.2 (wp_failIf.2 ⟨fun hne => absurd (htype.trans ht) hne, fun _ => ?_⟩)))
  rw [hsize, hdev]
  refine wp.bind (sees_dirScan hL h hm hl hF ht name ha) ?_
  rintro r _ ⟨rfl, hfind, halign⟩
  cases r with
  | none => exact ⟨rfl, hfind.symm, halign rfl, rfl⟩
  | some x =>
    obtain ⟨j, off⟩ := x
    obtain ⟨k', -, he⟩ := dirFind_some hfind.symm
    refine wp.bind (sees_iget h ⟨Nat.one_le_iff_ne_zero.2 he.used, hrange _ _ _ he⟩
      (hE.imp_left fun hE => hE j off hfind.symm)) ?_
    rintro ip s₁ ⟨h₁, hdev₁⟩
    exact ⟨hdev₁, j, hfind.symm, h₁⟩

/-! ### Walking -/

theorem Sees.second (h : Sees sb P s₀ env n F ((ip, j) ::ₘ hs) locks s) (hj : InUse s₀ env hs j) :
    0 < env ip ∨ ip ∈ hs.map Prod.fst := by
  have hm : (ip, j) ∈ (ip, j) ::ₘ hs := Multiset.mem_cons_self ..
  rcases hj with ⟨e, he, hin⟩ | ⟨e, he⟩
  · have hpe : 0 < (s.icache e).ref := by
      rw [h.ref]
      omega
    have : e = ip := h.uniq e ip hpe (h.pos hm) (by rw [h.keep e he, hin, h.inum_eq hm])
    exact .inl (this ▸ he)
  · have : e = ip := h.entry_eq (Multiset.mem_cons_of_mem he) hm
    exact .inr (this ▸ Multiset.mem_map_of_mem Prod.fst he)

theorem Sees.second_cons {g : Nat × Nat} (h : Sees sb P s₀ env n F (g ::ₘ (ip, j) ::ₘ hs) locks s) (hj : InUse s₀ env hs j) :
    0 < env ip ∨ ip ∈ (g ::ₘ hs).map Prod.fst := by
  have h' : Sees sb P s₀ env n F ((ip, j) ::ₘ g ::ₘ hs) locks s := Multiset.cons_swap g (ip, j) hs ▸ h
  exact h'.second (hj.imp_right fun ⟨e, he⟩ => ⟨e, Multiset.mem_cons_of_mem he⟩)

/-- What the walk with components `cs` from `i` is to find. -/
def walkTo (F : Store) (parent : Bool) (i : Nat) (cs : List (List Byte)) : Option (Nat × List Byte) :=
  if parent = true then followParent F i cs else (follow F i cs).map fun j => (j, [])

/-- What a walk has found: the device is as before, the call has one more reference if it found something. -/
def Walked (sb : Superblock) (P : Option (Store → Prop)) (s₀ : Fs) (env : Nat → Nat) (n : Nat)
    (F : Store) (hs : Multiset (Nat × Nat))
    (E : Fault → Prop) (o : Option (Nat × List Byte)) (v : Dev) (r : Option (Nat × List Byte)) (s : Fs) : Prop :=
  s.dev = v ∧ match r with
    | none => o = none ∧ Sees sb P s₀ env n F hs 0 s
    | some (ip, nm) => ∃ j, o = some (j, nm) ∧ Visit F (InUse s₀ env hs) E j ∧ Sees sb P s₀ env n F ((ip, j) ::ₘ hs) 0 s

theorem walkTo_nil (parent : Bool) : walkTo F parent i [] = if parent = true then none else some (i, []) := by
  cases parent <;> rfl

theorem walkTo_last {parent : Bool} (hp : parent = true) (hF : F i = some nd) (ht : nd.type = T_DIR) :
    walkTo F parent i [name] = some (i, name) := by
  rw [walkTo, if_pos hp, followParent_one, hF]
  simp [ht]

theorem lookup_dir (hF : F i = some nd) (ht : nd.type = T_DIR) : lookup F i name = (dirFind nd.bytes name).map Prod.fst := by
  rw [lookup, hF]
  exact if_pos ht

theorem lookup_file (hF : F i = some nd) (ht : nd.type ≠ T_DIR) : lookup F i name = none := by
  rw [lookup, hF]
  exact if_neg ht

theorem walkTo_cons {parent : Bool} {cs : List (List Byte)} (hcs : ¬ (parent = true ∧ cs = [])) :
    walkTo F parent i (name :: cs) = (lookup F i name).bind fun j => walkTo F parent j cs := by
  unfold walkTo
  by_cases hp : parent = true
  · simp only [if_pos hp, followParent_cons fun h => hcs ⟨hp, h⟩]
  · simp only [if_neg hp, follow_cons]
    cases lookup F i name <;> rfl

theorem walkTo_file {parent : Bool} {cs : List (List Byte)} (hF : F i = some nd) (ht : nd.type ≠ T_DIR) :
    walkTo F parent i (name :: cs) = none := by
  by_cases hcs : parent = true ∧ cs = []
  · rw [hcs.2, walkTo, if_pos hcs.1, followParent_one, hF]
    exact if_neg fun hd => ht (of_decide_eq_true hd)
  · rw [walkTo_cons hcs, lookup_file hF ht]
    rfl

/-- With inode `i` in hand beside `hs`, the cache has an entry for inode `j`: `j` is in it, or an entry is free, which
takes one more than `hs` needs unless `i` is in the cache anyway. -/
def StepRoom (s₀ : Fs) (env : Nat → Nat) (hs : Multiset (Nat × Nat)) (i j : Nat) : Prop :=
  InUse s₀ env hs j ∨ j = i ∨ hs.card + 1 < (vacant env).card ∨ InUse s₀ env 0 i ∧ hs.card < (vacant env).card

/-- Every inode on the way from `i` finds an entry. -/
def WalkRoom (F : Store) (s₀ : Fs) (env : Nat → Nat) (hs : Multiset (Nat × Nat)) (parent : Bool) : Nat → List (List Byte) → Prop
  | _, [] => True
  | i, name :: cs => parent = true ∧ cs = [] ∨
    ∀ j, lookup F i name = some j → StepRoom s₀ env hs i j ∧ WalkRoom F s₀ env hs parent j cs

/-- Every inode that `namex` comes to finds an entry. -/
structure NamexRoom (F : Store) (s₀ : Fs) (env : Nat → Nat) (hs : Multiset (Nat × Nat)) (parent : Bool)
    (c : Nat) (path : List Byte) :
    Prop where
  start : path.head? = some 47 → InUse s₀ env hs ROOTINO ∨ hs.card < (vacant env).card
  walk : WalkRoom F s₀ env hs parent (startAt c path) (components path)

theorem WalkRoom.of_card (hlt : hs.card + 1 < (vacant env).card) (parent : Bool) (i : Nat) (cs : List (List Byte)) :
    WalkRoom F s₀ env hs parent i cs := by
  induction cs generalizing i with
  | nil => trivial
  | cons name cs ih => exact .inr fun j _ => ⟨.inr (.inr (.inl hlt)), ih j⟩

theorem NamexRoom.of_card {parent : Bool} {c : Nat} {path : List Byte} (hlt : hs.card + 1 < (vacant env).card) :
    NamexRoom F s₀ env hs parent c path := ⟨fun _ => .inr (by omega), .of_card hlt ..⟩

theorem Sees.spare_inUse (h : Sees sb P s₀ env n F hs locks s) (hj : InUse s₀ env hs j) : Gettable s j := by
  rcases hj with ⟨e, he, hin⟩ | ⟨e, he⟩
  · have hpos : 0 < (s.icache e).ref := by
      rw [h.ref]
      omega
    obtain ⟨hlt, hdev⟩ := h.known e hpos
    exact .inl ⟨e, hlt, hpos, hdev, by rw [h.keep e he, hin]⟩
  · obtain ⟨hlt, hdev⟩ := h.known e (h.pos he)
    exact .inl ⟨e, hlt, h.pos he, hdev, h.inum_eq he⟩

theorem Sees.spare_step (h : Sees sb P s₀ env n F ((ip, i) ::ₘ hs) locks s) (hj : StepRoom s₀ env hs i j) : Gettable s j := by
  have hm : (ip, i) ∈ (ip, i) ::ₘ hs := Multiset.mem_cons_self ..
  rcases hj with hj | rfl | hlt | ⟨⟨e, he, hin⟩ | ⟨e, he⟩, hlt⟩
  · exact h.spare_inUse (hj.imp_right fun ⟨e, he⟩ => ⟨e, Multiset.mem_cons_of_mem he⟩)
  · exact h.spare_inUse (.inr ⟨ip, hm⟩)
  · exact h.spare (by rwa [Multiset.card_cons]) j
  · -- the entry of `i` is one that `env` has
    have hpos : 0 < (s.icache e).ref := by
      rw [h.ref]
      omega
    obtain rfl : e = ip := h.uniq e ip hpos (h.pos hm) (by rw [h.keep e he, hin, h.inum_eq hm])
    have hcard : (hs.map Prod.fst).toFinset.card < (vacant env).card :=
      lt_of_le_of_lt ((Multiset.toFinset_card_le _).trans (Multiset.card_map ..).le) hlt
    obtain ⟨e', he', hno⟩ := Finset.exists_mem_notMem_of_card_lt_card hcard
    obtain ⟨hlt', hz⟩ := Finset.mem_filter.1 he'
    have hne : e' ≠ e := fun hc => by
      rw [hc] at hz
      omega
    refine .inr ⟨e', Finset.mem_range.1 hlt', ?_⟩
    rw [h.ref, hz, Multiset.map_cons, Multiset.count_cons_of_ne hne,
      Multiset.count_eq_zero.2 fun hm => hno (Multiset.mem_toFinset.2 hm)]
    rfl
  · exact absurd he (Multiset.notMem_zero _)

theorem sees_namexLoop (hL : Layout sb) (hS : Sound sb F (InUse s₀ env hs) E) (parent : Bool) (path : List Byte)
    (hroom : WalkRoom F s₀ env hs parent i (components path) ∨ E (.panic "iget: no inodes"))
    (h : Sees sb P s₀ env n F ((ip, i) ::ₘ hs) 0 s) (hv : Visit F (InUse s₀ env hs) E i) :
    wp (namexLoop sb parent ip path) (Walked sb P s₀ env n F hs E (walkTo F parent i (components path)) s.dev) E s := by
  fun_induction namexLoop sb parent ip path generalizing s i with
  | case1 ip path hp hpar =>
    rw [components_none hp, walkTo_nil, if_pos hpar]
    refine wp.bind (sees_iput hL h (fun nd hF hz => h.second (hv.linked nd hF hz)) (.inl (Multiset.notMem_zero _))) ?_
    rintro _ s₁ ⟨h₁, hdev⟩
    exact ⟨hdev, rfl, h₁⟩
  | case2 ip path hp hpar =>
    rw [components_none hp, walkTo_nil, if_neg hpar]
    exact ⟨rfl, i, rfl, hv, h⟩
  | case3 ip path name rest hp ih =>
    obtain ⟨hcs, hrest⟩ := components_some hp
    have hm : (ip, i) ∈ (ip, i) ::ₘ hs := Multiset.mem_cons_self ..
    rw [hcs] at hroom ⊢
    refine wp.bind (sees_ilock hL h hm hv.alloc (.inl (Multiset.notMem_zero _))) ?_
    rintro _ s₁ ⟨h₁, hdev₁⟩
    have hl : ip ∈ ip ::ₘ (0 : Multiset Nat) := Multiset.mem_cons_self ..
    obtain ⟨nd, hF⟩ : ∃ nd, F i = some nd := ⟨_, h₁.node hm hl⟩
    obtain ⟨-, htype, -⟩ := h₁.size_eq hm hl hF
    have hlinked : ∀ nd, F i = some nd → nd.nlink = 0 → InUse s₀ env hs i := hv.linked
    refine wp_bind.2 (wp_get.2 ?_)
    dsimp only
    rw [htype]
    split
    · next ht =>
      rw [walkTo_file hF ht]
      refine wp.bind ((sees_iunlockput hL h₁ fun nd hF hz => h₁.second (hlinked nd hF hz)).mono
        (fun _ _ => id) fun _ => False.elim) ?_
      rintro _ s₂ ⟨h₂, hdev₂⟩
      exact ⟨hdev₂.trans hdev₁, rfl, h₂⟩
    · next ht =>
      rw [not_not] at ht
      split
      · next hlast =>
        rw [hrest.1 hlast.2, walkTo_last hlast.1 hF ht]
        refine wp.bind ((sees_iunlock hL h₁ hm).mono (fun _ _ => id) fun _ => False.elim) ?_
        rintro _ s₂ ⟨h₂, -, -, hdev₂⟩
        exact ⟨hdev₂.trans hdev₁, i, rfl, hv, h₂⟩
      · next hmore =>
        have hnot : ¬ (parent = true ∧ components rest = []) := fun hc => hmore ⟨hc.1, hrest.2 hc.2⟩
        have hnext : (∀ j off, dirFind nd.bytes name = some (j, off) → StepRoom s₀ env hs i j ∧
            WalkRoom F s₀ env hs parent j (components rest)) ∨ E (.panic "iget: no inodes") :=
          hroom.imp_left fun hr j off hf => hr.resolve_left hnot j (by rw [lookup_dir hF ht, hf]; rfl)
        rw [walkTo_cons hnot, lookup_dir hF ht]
        refine wp.bind (sees_dirlookup hL h₁ hm hl hF ht name (fun k j nm he => (hS.entry i nd k j nm hF ht he).1)
          (hS.aligned.imp_left fun ha => ha i nd hF ht) (hnext.imp_left fun hn j off hf => h₁.spare_step (hn j off hf).1)) ?_
        rintro r s₂ ⟨hdev₂, hr⟩
        cases r with
        | none =>
          obtain ⟨hfind, -, rfl⟩ := hr
          rw [hfind]
          refine wp.bind ((sees_iunlockput hL h₁ fun nd hF hz => h₁.second (hlinked nd hF hz)).mono
            (fun _ _ => id) fun _ => False.elim) ?_
          rintro _ s₃ ⟨h₃, hdev₃⟩
          exact ⟨hdev₃.trans hdev₁, rfl, h₃⟩
        | some x =>
          obtain ⟨next, off⟩ := x
          obtain ⟨j, hfind, h₂⟩ := hr
          obtain ⟨k, -, he⟩ := dirFind_some hfind
          have hvj := (hS.entry i nd k j _ hF ht he).2
          rw [hfind]
          have h₂' : Sees sb P s₀ env n F ((ip, i) ::ₘ (next, j) ::ₘ hs) (ip ::ₘ 0) s₂ :=
            Multiset.cons_swap (next, j) (ip, i) hs ▸ h₂
          refine wp.bind ((sees_iunlockput hL h₂' fun nd hF hz => h₂.second_cons (hlinked nd hF hz)).mono (fun _ _ => id)
            fun _ => False.elim) ?_
          rintro _ s₃ ⟨h₃, hdev₃⟩
          have := ih next (hnext.imp_left fun hn => (hn j off hfind).2) h₃ hvj
          rwa [hdev₃, hdev₂, hdev₁] at this

/-- The caller's current directory is inode `c`, held by its process. -/
def CwdAt (s₀ : Fs) (env : Nat → Nat) (cwd : Option Nat) (c : Nat) : Prop := ∃ e, cwd = some e ∧
    0 < env e ∧ (s₀.icache e).inum = c

theorem sees_namex (hL : Layout sb) (hS : Sound sb F (InUse s₀ env hs) E) (hroot : ROOTINO < sb.ninodes)
    (hvr : Visit F (InUse s₀ env hs) E ROOTINO) (parent : Bool) (path : List Byte) {c : Nat}
    (hroom : NamexRoom F s₀ env hs parent c path ∨ E (.panic "iget: no inodes"))
    {cwd : Option Nat} (hc : CwdAt s₀ env cwd c) (hvc : F c ≠ none ∨ E (.panic "ilock: no type"))
      (h : Sees sb P s₀ env n F hs 0 s) :
    wp (namex sb cwd parent path) (Walked sb P s₀ env n F hs E (walkTo F parent (startAt c path)
      (components path)) s.dev) E s := by
  have hstart : wp (namexStart cwd path) (fun ip s' =>
    Sees sb P s₀ env n F ((ip, startAt c path) ::ₘ hs) 0 s' ∧ s'.dev = s.dev) E s := by
    unfold namexStart startAt
    split
    · next hslash =>
      refine sees_iget h ⟨Nat.le_refl 1, hroot⟩ (hroom.imp_left fun hr => ?_)
      exact (hr.start hslash).elim h.spare_inUse fun hlt => h.spare hlt _
    · obtain ⟨e, rfl, he, hin⟩ := hc
      have hpos : 0 < (s.icache e).ref := by
        rw [h.ref]
        omega
      refine (sees_idup hL h hpos (by rw [h.keep e he, hin])).mono ?_ fun _ => False.elim
      rintro ip s₁ ⟨rfl, h₁, hdev₁⟩
      exact ⟨h₁, hdev₁⟩
  have hv : Visit F (InUse s₀ env hs) E (startAt c path) := by
    unfold startAt
    split
    · exact hvr
    · obtain ⟨e, -, he, hin⟩ := hc
      exact ⟨hvc, fun _ _ _ => .inl ⟨e, he, hin⟩⟩
  refine wp.bind hstart ?_
  rintro ip s₁ ⟨h₁, hdev₁⟩
  have := sees_namexLoop hL hS parent path (hroom.imp_left NamexRoom.walk) h₁ hv
  rwa [hdev₁] at this

end

end Xv6
