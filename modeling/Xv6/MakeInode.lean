import Xv6.FailedCalls

/-!
# `sys_mkdir` and `sys_mknod`

Both ask `create` for a new inode, but `create` also returns an inode that is there already: for any
requested type it accepts a device. So a call with the name of a device succeeds and makes nothing. In
every other case the call makes the inode, if its parent is there and does not have the name, or else
fails.
-/

namespace Xv6

open Prog Function

/-- There is an inode, there are nine blocks and two entries of the inode cache to be had, no directory
is full, and the log is empty and has its size. -/
structure Spare (sb : Superblock) (k : Kernel) (c : Nat) : Prop where
  walk : Walkable sb k.fs
  cwd : storeOf sb k.fs.dev.cache c ≠ none
  cache : 2 ≤ (vacant (refsOf k.fs)).card
  inode : ∃ j, 1 ≤ j ∧ j < sb.ninodes ∧ storeOf sb k.fs.dev.cache j = none
  blocks : 9 ≤ (freeBlocks sb k.fs.dev.cache).card
  dir : ∀ i nd, storeOf sb k.fs.dev.cache i = some nd → nd.type = T_DIR → dirFree nd.bytes + 16 ≤ MAXFILE * BSIZE
  log : LOGSIZE ≤ sb.nlog

section

variable {sb : Superblock} {P : Option (Store → Prop)} {F : Store} {k k' : Kernel} {s₀ s s' : Fs}
    {env : Nat → Nat} {E : Fault → Prop}
variable {c i j : Nat} {nd pd : Node} {name path : List Byte} {type major minor : BitVec 16}

/-! ### The new inode in the store -/

theorem Spare.walks (hs : Spare sb k c) (h : Ready sb k c) :
    Walks sb k.fs (refsOf k.fs) (storeOf sb k.fs.dev.cache) 0 E k.proc.cwd c :=
  ⟨hs.walk.sound, h.root, hs.walk.root.visit, .inl hs.cache, h.cwd, .inl hs.cwd⟩

end

/-! ### A new directory, and the name of a device -/

section

variable {fs : List FileImage} {us : List Nat} {i : Nat} {nd : Node}

theorem Fits.store_all (h : Fits fs) {p : Node → Prop} (hp : ∀ x ∈ fs, p x.node)
    (hF : storeOf mkfsSuperblock (fsOf fs us).dev.cache i = some nd) : p nd := by
  rw [h.storeOf_fsOf] at hF
  dsimp only at hF
  split at hF
  · cases hF
  · obtain ⟨x, hx, rfl⟩ := Option.map_eq_some_iff.1 hF
    exact hp x (List.mem_of_getElem? hx)

end

end Xv6
