import Xv6.NameWalk

/-!
# The kernel between two system calls

`AtRest` is a state in which no call is going on, `Walkable` one in which every entry of a directory
names an inode that exists and has a link or is in use. A call starts from there with no reference and
no lock of its own.
-/

namespace Xv6

open Prog

structure AtRest (sb : Superblock) (s : Fs) : Prop where
  ok : CacheOk sb s
  nonneg : ∀ e, 0 ≤ (s.icache e).ref
  table : ∀ e, 0 < (s.icache e).ref → e < NINODE
  unlocked : ∀ e, (s.icache e).locked = false
  idle : s.dev.log.committing = false
  open_ : 0 ≤ s.dev.log.outstanding

def refsOf (s : Fs) (e : Nat) : Nat := (s.icache e).ref.toNat

/-- Some entry of the inode cache stands for inode `j`. -/
def Cached (s : Fs) (j : Nat) : Prop := ∃ e, 0 < (s.icache e).ref ∧ (s.icache e).inum = j

/-- A directory entry or a starting point `j`: an inode that exists and has a link or is in use. -/
def Alive (F : Store) (s : Fs) (j : Nat) : Prop := ∃ nd, F j = some nd ∧ (nd.nlink = 0 → Cached s j)

structure Walkable (sb : Superblock) (s : Fs) : Prop where
  root : Alive (storeOf sb s.dev.cache) s ROOTINO
  aligned : ∀ i nd, storeOf sb s.dev.cache i = some nd → nd.type = T_DIR → nd.bytes.length % 16 = 0
  entry : ∀ i nd k j nm, storeOf sb s.dev.cache i = some nd → nd.type = T_DIR → HasEntry nd.bytes k j nm →
    Alive (storeOf sb s.dev.cache) s j

section

variable {sb : Superblock} {s : Fs} {F : Store} {E : Fault → Prop} {hs : Multiset (Nat × Nat)} {i j : Nat} {nd : Node}

theorem AtRest.seesDurable {P : Option (Store → Prop)} (hq : AtRest sb s) (hd : ∀ p ∈ P, Durable sb p s.dev) :
    Sees sb P s (refsOf s) s.dev.log.outstanding.toNat (storeOf sb s.dev.cache) 0 0 s := by
  have href : ∀ e, ((s.icache e).ref.toNat : Int) = (s.icache e).ref := fun e => Int.toNat_of_nonneg (hq.nonneg e)
  refine ⟨⟨fun e => ?_, fun e => ?_, ?_, hq.idle, fun e he => ⟨hq.table e he, hq.ok.rootdev e (hq.table e he) he⟩,
    fun e e' he he' hin => hq.ok.uniq e e' (hq.table e he) (hq.table e' he') he he' hin, fun _ _ =>
      rfl, [], rfl, fun _ _ => by simp⟩,
    hq.ok, rfl, fun _ hm => absurd hm (Multiset.notMem_zero _), fun _ hm => absurd hm (Multiset.notMem_zero _), hd⟩
  · simp [refsOf, href]
  · rw [hq.unlocked]
    rfl
  · exact (Int.toNat_of_nonneg hq.open_).symm

theorem AtRest.sees (hq : AtRest sb s) : Sees sb none s (refsOf s) s.dev.log.outstanding.toNat (storeOf sb s.dev.cache) 0 0 s :=
  hq.seesDurable fun _ hp => absurd hp (Option.not_mem_none _)

theorem store_range (h : storeOf sb s.dev.cache i = some nd) : 1 ≤ i ∧ i < sb.ninodes := by
  obtain ⟨d, hd, -⟩ := diskTable_of_store h
  exact ⟨(diskTable_some hd).1, (diskTable_some hd).2.1⟩

theorem Cached.inUse (h : Cached s j) : InUse s (refsOf s) hs j := by
  obtain ⟨e, he, hin⟩ := h
  refine .inl ⟨e, ?_, hin⟩
  unfold refsOf
  omega

theorem Alive.visit (h : Alive F s j) : Visit F (InUse s (refsOf s) hs) E j := by
  obtain ⟨nd, hF, hz⟩ := h
  refine ⟨.inl (by rw [hF]; exact Option.some_ne_none _), fun nd' hF' hz' => ?_⟩
  rw [hF] at hF'
  cases hF'
  exact (hz hz').inUse

theorem Walkable.sound (h : Walkable sb s) : Sound sb (storeOf sb s.dev.cache) (InUse s (refsOf s) hs) E := by
  refine ⟨fun i nd k j nm hF ht he => ?_, .inl h.aligned⟩
  obtain ⟨md, hmd, hz⟩ := h.entry i nd k j nm hF ht he
  exact ⟨(store_range hmd).2, Alive.visit ⟨md, hmd, hz⟩⟩

/-- The caller's current directory is inode `c`. -/
structure CwdIs (sb : Superblock) (s : Fs) (cwd : Option Nat) (c : Nat) : Prop where
  held : ∃ e, cwd = some e ∧ 0 < (s.icache e).ref ∧ (s.icache e).inum = c
  alloc : storeOf sb s.dev.cache c ≠ none

end

end Xv6
