import Xv6.StateOf

/-!
# `namei` and `nameiparent` when nothing else is going on

From a state between calls, when every entry names an inode that exists and has a link or is in use, and every inode on
the way is in the inode cache or finds a free entry, the two functions return what the components of the path lead to.
-/

namespace Xv6

open Prog

section

variable {sb : Superblock} {s : Fs} {F : Store} {j : Nat}

structure LookedUp (s : Fs) (found : Option Nat) (s' : Fs) : Prop where
  dev : s'.dev = s.dev
  ref : ∀ e, (s'.icache e).ref = (s.icache e).ref + if found = some e then 1 else 0
  inum : ∀ e, 0 < (s.icache e).ref → (s'.icache e).inum = (s.icache e).inum
  unlocked : ∀ e, (s'.icache e).locked = false

theorem Sees.lookedUp {n : Nat} {ip : Nat} {s' : Fs} (hq : AtRest sb s) (h : Sees sb none s (refsOf s) n F ((ip, j) ::ₘ 0) 0 s')
    (hdev : s'.dev = s.dev) : LookedUp s (some ip) s' ∧ (s'.icache ip).inum = j := by
  refine ⟨⟨hdev, fun e => ?_, fun e he => h.keep e (by unfold refsOf; omega), fun e => h.unlocked (Multiset.notMem_zero e)⟩,
    h.inum_eq (Multiset.mem_cons_self ..)⟩
  have := hq.nonneg e
  rw [h.ref, refsOf, Multiset.map_cons, Multiset.map_zero]
  by_cases he : ip = e
  · rw [if_pos (by rw [he]), he, Multiset.count_cons_self, Multiset.count_zero]
    omega
  · rw [if_neg (fun hc => he (Option.some.inj hc)), Multiset.count_cons_of_ne (Ne.symm he), Multiset.count_zero]
    omega

theorem Sees.lookedUp_none {n : Nat} {s' : Fs} (hq : AtRest sb s) (h : Sees sb none s (refsOf s) n F 0 0 s')
    (hdev : s'.dev = s.dev) : LookedUp s none s' := by
  refine ⟨hdev, fun e => ?_, fun e he => h.keep e (by unfold refsOf; omega), fun e => h.unlocked (Multiset.notMem_zero e)⟩
  have := hq.nonneg e
  rw [h.ref, refsOf, Multiset.map_zero, Multiset.count_zero, if_neg (Option.some_ne_none _).symm]
  omega

theorem namex_walks (hL : Layout sb) (hq : AtRest sb s) (hw : Walkable sb s) {cwd : Option Nat} {c : Nat}
    (hc : CwdIs sb s cwd c) (parent : Bool) (path : List Byte)
    (hroom : NamexRoom (storeOf sb s.dev.cache) s (refsOf s) 0 parent c path) :
    ∃ r s', (namex sb cwd parent path).run s = .ok (r, s') ∧ LookedUp s (r.map Prod.fst) s' ∧
      (r.map fun x => ((s'.icache x.1).inum, x.2)) = walkTo (storeOf sb s.dev.cache) parent
        (startAt c path) (components path) := by
  obtain ⟨md, hroot, -⟩ := hw.root
  obtain ⟨e, hcwd, he, hin⟩ := hc.held
  have hcwd : CwdAt s (refsOf s) cwd c := ⟨e, hcwd, by unfold refsOf; omega, hin⟩
  obtain ⟨r, s', hr, hdev, hres⟩ := (sees_namex (E := fun _ => False) hL hw.sound (store_range hroot).2 hw.root.visit parent path
    (.inl hroom) hcwd (.inl hc.alloc) hq.sees).exists_ok
  refine ⟨r, s', hr, ?_⟩
  cases r with
  | none =>
    obtain ⟨ho, h⟩ := hres
    exact ⟨h.lookedUp_none hq hdev, ho.symm⟩
  | some x =>
    obtain ⟨ip, nm⟩ := x
    obtain ⟨j, ho, -, h⟩ := hres
    obtain ⟨hl, hj⟩ := h.lookedUp hq hdev
    refine ⟨hl, ?_⟩
    rw [ho, Option.map_some, hj]

/-- `namei` returns the inode that the components of the path lead to, `nameiparent` the one before the last component,
if it is a directory, together with that component; no other reference and no lock is left. -/
theorem path_lookup (hL : Layout sb) (hq : AtRest sb s) (hw : Walkable sb s) {cwd : Option Nat} {c : Nat}
    (hc : CwdIs sb s cwd c) (path : List Byte) :
    (NamexRoom (storeOf sb s.dev.cache) s (refsOf s) 0 false c path →
      ∃ r s', (namei sb cwd path).run s = .ok (r, s') ∧ LookedUp s r s' ∧
        (r.map fun ip => (s'.icache ip).inum) = follow (storeOf sb s.dev.cache) (startAt c path) (components path)) ∧
    (NamexRoom (storeOf sb s.dev.cache) s (refsOf s) 0 true c path →
      ∃ r s', (nameiparent sb cwd path).run s = .ok (r, s') ∧ LookedUp s (r.map Prod.fst) s' ∧
        (r.map fun x => ((s'.icache x.1).inum, x.2)) =
          followParent (storeOf sb s.dev.cache) (startAt c path) (components path)) := by
  refine ⟨fun hroom => ?_, namex_walks hL hq hw hc true path⟩
  obtain ⟨r, s', hr, hl, hres⟩ := namex_walks hL hq hw hc false path hroom
  have hrun : (namei sb cwd path).run s = .ok (r.map Prod.fst, s') := by
    have hw : wp (namei sb cwd path) (fun q t => q = r.map Prod.fst ∧ t = s') (fun _ => False) s := by
      refine wp.bind (wp_of_ok hr (Q := fun q t => q = r ∧ t = s') ⟨rfl, rfl⟩) ?_
      rintro q t ⟨hq, ht⟩
      rw [hq, ht]
      cases r <;> exact ⟨rfl, rfl⟩
    obtain ⟨q, t, hrun, hq, ht⟩ := hw.exists_ok
    rw [hrun, hq, ht]
  refine ⟨_, s', hrun, hl, ?_⟩
  rw [walkTo, if_neg Bool.false_ne_true] at hres
  have := congrArg (Option.map Prod.fst) hres
  simpa only [Option.map_map, Function.comp_def, Option.map_id'] using this

end

/-! ### In a small tree, and with a full cache -/

/-- A process in the root directory looks up `/f`. -/
theorem path_lookup_f : ∃ r s', (namei mkfsSuperblock (some 0) [47, 102]).run (fsOf treeWithF [1]) = .ok (r, s') ∧
    LookedUp (fsOf treeWithF [1]) r s' ∧ (r.map fun ip => (s'.icache ip).inum) = some 2 := by
  have hq := fits_treeWithF.atRest inCache_root
  have hw : Walkable mkfsSuperblock (fsOf treeWithF [1]) := fits_treeWithF.walkable (by decide +kernel)
  have hc : CwdIs mkfsSuperblock (fsOf treeWithF [1]) (some 0) 1 :=
    ⟨⟨0, rfl, by decide, rfl⟩, by rw [fits_treeWithF.storeOf_fsOf]; exact Option.some_ne_none _⟩
  obtain ⟨r, s', hr, hl, hres⟩ := (path_lookup mkfs_layout hq hw hc [47, 102]).1 (.of_card (by decide +kernel))
  refine ⟨r, s', hr, hl, hres.trans ?_⟩
  rw [fits_treeWithF.storeOf_fsOf]
  decide +kernel

def treeWithD : List FileImage := (dirNode 2 [([46], 1), ([46, 46], 1), ([100], 2)] :: dirNode 1 [([46], 2), ([46, 46], 1)] ::
  List.replicate 49 (fileNode 0 [])).map .ofNode

/-- With the root, which is the caller's directory, and another process's 49 open files in the inode cache, there is no
entry for `/d`. -/
theorem namei_full_cache : AtRest mkfsSuperblock (fsOf treeWithD (1 :: List.range' 3 49)) ∧
    Walkable mkfsSuperblock (fsOf treeWithD (1 :: List.range' 3 49)) ∧
    CwdIs mkfsSuperblock (fsOf treeWithD (1 :: List.range' 3 49)) (some 0) 1 ∧
    (namei mkfsSuperblock (some 0) [47, 100]).run (fsOf treeWithD (1 :: List.range' 3 49)) = .error (.panic "iget: no inodes") ∧
    follow (storeOf mkfsSuperblock (fsOf treeWithD (1 :: List.range' 3 49)).dev.cache) (startAt 1 [47,
      100]) (components [47, 100]) =
      some 2 := by
  have hfits : Fits treeWithD := ⟨by decide, by decide, by decide, by decide +kernel⟩
  have hcache : InCache (1 :: List.range' 3 49) := ⟨by decide, by decide, by decide⟩
  refine ⟨hfits.atRest hcache, hfits.walkable (by decide +kernel), ⟨⟨0, rfl, by decide, rfl⟩, ?_⟩,
    run_eq_error (by decide +kernel), ?_⟩
  · rw [hfits.storeOf_fsOf]
    exact Option.some_ne_none _
  · rw [hfits.storeOf_fsOf]
    decide +kernel

end Xv6
