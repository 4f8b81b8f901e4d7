import Xv6.MkfsFile

/-!
# The finished image

What the kernel expects of the image: a free map that marks the metadata and the blocks in use, inode
numbers within the table, names that differ within a directory, and link counts as `create` and `unlink`
would have left them. `mkfs` never delivers the last: `makedirs` enters three directories in the root
directory, whose `..` entries count as links to it, and leaves its link count at 1.
-/

namespace Xv6.Mkfs

open Prog Function

/-- The inodes that `ialloc` has handed out. -/
def inodes (m : State) : Table := fun i => if 1 ≤ i ∧ i < m.freeinode then some (dinodeOf sb m.disk i) else none

def entries (c : Image) (d : Dinode) : List (List Byte) :=
  (List.range (d.size.toNat / 16)).map fun k => ((contents c d).drop (16 * k)).take 16

/-- The entry is neither `.` nor `..`. -/
def isName (de : List Byte) : Bool := !namecmp (deName de) [46] && !namecmp (deName de) [46, 46]

def subdirs (c : Image) (d : Dinode) : List (List Byte) :=
  (entries c d).filter fun de => isName de && decide ((dinodeOf sb c (deInum de)).type = T_DIR)

def allEntries (m : State) : List (List Byte) :=
  (List.range m.freeinode).flatMap fun i =>
    match inodes m i with
    | some d => if d.type = T_DIR then entries m.disk d else []
    | none => []

structure ImageOk (m : State) : Prop where
  bitmap : ∀ b, b < FSSIZE → (blockUsed sb m.disk b = true ↔ b < nmeta ∨ ∃! r : Ref, refs m.disk (inodes m) r = b)
  inums : ∀ i d, inodes m i = some d → i < sb.ninodes
  names : ∀ i d, inodes m i = some d → d.type = T_DIR → ((entries m.disk d).map deName).Nodup
  dirs : ∀ i d, inodes m i = some d → d.type = T_DIR → d.nlink.toNat = 1 + (subdirs m.disk d).length
  files : ∀ i d, inodes m i = some d → d.type = T_FILE →
    d.nlink.toNat = ((allEntries m).filter fun de => isName de && decide (deInum de = i)).length

abbrev AnyStop : Stop → Prop := fun _ => True

section

variable {m m' : State} {T : Table} {F : Nat → List Byte} {n i ino : Nat} {bs : List Byte}

/-! ### `makedirs` -/

/-- `n - 1` inodes have been handed out. -/
def Stage (n : Nat) (m : State) : Prop := (∃ F, Appends m F) ∧ m.freeinode = n

theorem Stage.ialloc (h : Stage n m) (hn : n < 208) {type : BitVec 16} (ht : type ≠ T_DEV) :
    wp (ialloc type) (fun inum m' => inum = n ∧ Stage (n + 1) m') AnyStop m := by
  obtain ⟨⟨F, hF⟩, rfl⟩ := h
  obtain ⟨T, hT⟩ := hF.holds
  have hlt : iblock sb m.freeinode < sb.bmapstart := by
    show m.freeinode / 8 + 32 < 58
    omega
  refine ((ialloc_spec type hT.built hlt).and wp_run).mono ?_ fun _ _ => trivial
  rintro inum m' ⟨ha, hr⟩
  exact ⟨ha.num, ⟨F, hF.alloc hlt ht hr⟩, ha.freeinode⟩

theorem Stage.iappend (h : Stage n m) (h1 : 1 ≤ i) (h2 : i < n) (bs : List Byte) :
    wp (iappend i bs) (fun _ => Stage n) AnyStop m := by
  obtain ⟨⟨F, hF⟩, rfl⟩ := h
  obtain ⟨T, hT⟩ := hF.holds
  obtain ⟨d, hd⟩ := hT.mem i h1 h2
  refine ((iappend_spec hT.built hd bs).and wp_run).mono ?_ fun _ _ => trivial
  rintro _ m' ⟨⟨d', he⟩, hr⟩
  exact ⟨⟨_, hF.append ⟨h1, h2⟩ hr⟩, he.freeinode⟩

theorem Stage.adddots (h : Stage n m) (h1 : 1 ≤ ino) (h2 : ino < n) (parent : Nat) :
    wp (adddots ino parent) (fun _ => Stage n) AnyStop m :=
  wp.bind (h.iappend h1 h2 _) fun _ _ h₁ => h₁.iappend h1 h2 _

theorem Stage.subdir (h : Stage n m) (h1 : 1 < n) (hn : n < 208) (name : List Byte) :
    wp (subdir 1 name) (fun inum m' => inum = n ∧ Stage (n + 1) m') AnyStop m := by
  refine wp.bind (h.ialloc hn (by decide)) ?_
  rintro _ m₁ ⟨rfl, h₁⟩
  refine wp.bind (h₁.adddots (by omega) (by omega) 1) fun _ m₂ h₂ => ?_
  exact wp.bind (h₂.iappend (by omega) (by omega) _) fun _ m₃ h₃ => ⟨rfl, h₃⟩

theorem stage_makedirs : wp makedirs (fun _ => Stage 5) AnyStop blank := by
  have h₀ : Stage 1 blank := ⟨⟨_, .blank⟩, rfl⟩
  refine wp.bind (h₀.ialloc (by decide) (by decide)) ?_
  rintro _ m₁ ⟨rfl, h₁⟩
  refine wp_bind.2 (wp_failIf.2 ⟨fun _ => trivial, fun _ => ?_⟩)
  refine wp.bind (h₁.adddots (by decide) (by decide) 1) fun _ m₂ h₂ => ?_
  refine wp.bind (h₂.subdir (by decide) (by decide) _) fun _ m₃ h₃ => ?_
  refine wp.bind (h₃.2.subdir (by decide) (by decide) _) fun _ m₄ h₄ => ?_
  exact wp.bind (h₄.2.subdir (by decide) (by decide) _) fun _ m₅ h₅ => h₅.2

/-- The image after `makedirs`. -/
def dirsOnly : State := makedirs.final blank

theorem run_makedirs : makedirs.run blank = .ok ((3, 4), dirsOnly) := run_eq_final (by decide +kernel)

/-! ### The root directory -/

structure Rooted (T : Table) (F : Nat → List Byte) (m : State) : Prop where
  holds : Holds T F m
  root : F 1 = contents dirsOnly.disk (dinodeOf sb dirsOnly.disk 1)
  dirs : ∀ i, 1 ≤ i → i ≤ 4 → ∃ d, T i = some d ∧ d.type = T_DIR ∧ d.nlink = 1

theorem rooted_dirsOnly : ∃ T F, Rooted T F dirsOnly := by
  obtain ⟨⟨F, hF⟩, hfi⟩ := wp.of_ok stage_makedirs run_makedirs
  obtain ⟨T, hT⟩ := hF.holds
  refine ⟨T, F, hT, ?_, fun i h1 h4 => ?_⟩
  · obtain ⟨d, hd⟩ := hT.mem 1 (by decide) (by omega)
    rw [hT.built.sync 1 d hd, (hT.file 1 d hd).2]
  · obtain ⟨d, hd⟩ := hT.mem i h1 (by omega)
    refine ⟨d, hd, ?_⟩
    rw [← hT.built.sync i d hd]
    have : i = 1 ∨ i = 2 ∨ i = 3 ∨ i = 4 := by omega
    rcases this with rfl | rfl | rfl | rfl <;> exact ⟨by decide +kernel, by decide +kernel⟩

/-- The invariant of `addFiles`, as long as the inode numbers are valid ones. -/
structure Going (m : State) : Prop where
  le : 5 ≤ m.freeinode
  rooted : m.freeinode ≤ 200 → ∃ T F, Rooted T F m

theorem Rooted.allocated {type : BitVec 16} {inum : Nat} (h : Rooted T F m) (hfi : 5 ≤ m.freeinode) (ht : type ≠ T_DEV)
    (ha : Allocated T type m inum m') : Rooted (T.set inum (newDinode type)) F m' := by
  refine ⟨h.holds.allocated ht ha, h.root, fun i h1 h4 => ?_⟩
  rw [ha.num, Table.set, update_of_ne (by omega)]
  exact h.dirs i h1 h4

theorem Rooted.extended {d d' : Dinode} (h : Rooted T F m) (hi : T i = some d) (h1 : i ≠ 1) (he : Extended T i bs m d m' d') :
    Rooted (T.set i d') (update F i (F i ++ bs)) m' := by
  refine ⟨h.holds.extended hi he, ?_, fun j hj1 hj4 => ?_⟩
  · rw [update_of_ne h1.symm]
    exact h.root
  · rcases eq_or_ne j i with rfl | hne
    · obtain ⟨e, hte, htype, hnlink⟩ := h.dirs j hj1 hj4
      obtain rfl : d = e := Option.some.inj (hi.symm.trans hte)
      refine ⟨d', update_self .., ?_⟩
      rw [he.same]
      exact ⟨htype, hnlink⟩
    · rw [Table.set, update_of_ne hne]
      exact h.dirs j hj1 hj4

/-! ### The inode counter -/

/-- `freeinode` stays as it is. -/
abbrev SameFree (m m' : State) : Prop := m'.freeinode = m.freeinode

instance : Std.Refl SameFree := ⟨fun _ => rfl⟩
instance : IsTrans State SameFree := ⟨fun _ _ _ h h' => Eq.trans h' h⟩

theorem keeps_rsect (sec : Nat) : Keeps SameFree (rsect sec) :=
  .bind .failIf fun _ => .bind .get fun _ => .pure _

theorem keeps_wsect (sec : Nat) (b : Blk) : Keeps SameFree (wsect sec b) := fun _ => rfl

theorem keeps_winode (i : Nat) (d : Dinode) : Keeps SameFree (winode i d) :=
  .bind (keeps_rsect _) fun _ => keeps_wsect _ _

theorem keeps_nextblock : Keeps SameFree nextblock := fun _ => rfl

theorem keeps_addrAlloc (d : Dinode) (j : Nat) : Keeps SameFree (addrAlloc d j) :=
  .ite (.bind keeps_nextblock fun _ => .pure _) (.pure _)

theorem keeps_entryAlloc (b e : Nat) : Keeps SameFree (entryAlloc b e) :=
  .bind (keeps_rsect _) fun _ => .bind .failIf fun _ =>
    .ite (.bind keeps_nextblock fun _ => .bind (keeps_wsect _ _) fun _ => .pure _) (.pure _)

theorem keeps_findBlock (d : Dinode) (n : Nat) : Keeps SameFree (findBlock d n) :=
  .ite (.bind (keeps_addrAlloc _ _) fun _ => .pure _)
    (.bind (keeps_addrAlloc _ _) fun _ => .bind (keeps_entryAlloc _ _) fun _ => .pure _)

theorem keeps_appendLoop (d : Dinode) (off : Nat) (bs : List Byte) : Keeps SameFree (appendLoop d off bs) := by
  induction d, off, bs using appendLoop.induct with
  | case1 d off bs hpos ih =>
    rw [appendLoop, dif_pos hpos]
    refine .bind .failIf fun _ => .bind (keeps_findBlock _ _) fun r => ?_
    exact .bind (keeps_rsect _) fun _ => .bind (keeps_wsect _ _) fun _ => ih r.2
  | case2 d off bs hnil =>
    rw [appendLoop, dif_neg hnil]
    exact .pure _

theorem keeps_iappend (i : Nat) (bs : List Byte) : Keeps SameFree (iappend i bs) :=
  .bind (.bind (keeps_rsect _) fun _ => .pure _) fun _ => .bind (keeps_appendLoop _ _ _) fun _ => keeps_winode _ _

theorem ialloc_freeinode (type : BitVec 16) :
    wp (ialloc type) (fun inum m' => inum = m.freeinode ∧ m'.freeinode = m.freeinode + 1) AnyStop m := by
  refine wp_bind.2 (wp_get.2 (wp_bind.2 (wp_modify _ |>.2 ?_)))
  refine wp.bind ((keeps_winode _ _ _).mono (fun _ _ h => h) fun _ _ => trivial) fun _ m' h => ?_
  exact ⟨rfl, h⟩

/-! ### `addFiles` -/

theorem Going.iappend (h : Going m) (h1 : 1 < i) (hi : i < m.freeinode) (bs : List Byte) :
    wp (iappend i bs) (fun _ m' => Going m' ∧ m'.freeinode = m.freeinode) AnyStop m := by
  have hkeep := (keeps_iappend i bs m).mono (fun _ _ h => h) fun _ _ => trivial
  by_cases hle : m.freeinode ≤ 200
  · obtain ⟨T, F, hR⟩ := h.rooted hle
    obtain ⟨d, hd⟩ := hR.holds.mem i (by omega) hi
    refine (iappend_spec hR.holds.built hd bs).mono ?_ fun _ _ => trivial
    rintro _ m' ⟨d', he⟩
    refine ⟨⟨?_, fun _ => ⟨_, _, hR.extended hd (by omega) he⟩⟩, he.freeinode⟩
    rw [he.freeinode]
    exact h.le
  · refine hkeep.post fun _ m' hm => ⟨⟨?_, fun hlt => ?_⟩, hm⟩
    · rw [hm]
      exact h.le
    · rw [hm] at hlt
      exact absurd hlt hle

theorem Going.ialloc (h : Going m) :
    wp (ialloc T_FILE) (fun inum m' => Going m' ∧ inum = m.freeinode ∧ m'.freeinode = m.freeinode + 1) AnyStop m := by
  have hfree : wp (Mkfs.ialloc T_FILE) _ AnyStop m := ialloc_freeinode T_FILE
  have h5 := h.le
  by_cases hlt : m.freeinode < 200
  · obtain ⟨T, F, hR⟩ := h.rooted (by omega)
    have hb : iblock sb m.freeinode < sb.bmapstart := by
      show m.freeinode / 8 + 32 < 58
      omega
    refine (ialloc_spec T_FILE hR.holds.built hb).mono (fun inum m' ha => ?_) fun _ _ => trivial
    refine ⟨⟨?_, fun _ => ⟨_, _, hR.allocated h5 (by decide) ha⟩⟩, ha.num, ha.freeinode⟩
    rw [ha.freeinode]
    omega
  · refine hfree.post ?_
    rintro inum m' ⟨hn, hm⟩
    exact ⟨⟨by omega, fun hle => by omega⟩, hn, hm⟩

theorem Going.appendAll (h1 : 1 < i) (cs : List (List Byte)) (h : Going m) (hi : i < m.freeinode) :
    wp (appendAll i cs) (fun _ => Going) AnyStop m := by
  induction cs generalizing m with
  | nil => exact h
  | cons c cs ih =>
    refine wp.bind (h.iappend h1 hi c) fun _ m₁ h₁ => ?_
    exact ih h₁.1 (by rw [h₁.2]; exact hi)

theorem Going.addFile (h : Going m) (f : Input) : wp (addFile 3 4 f) (fun _ => Going) AnyStop m := by
  have h5 := h.le
  refine wp_bind.2 (wp_failIf.2 ⟨fun _ => trivial, fun _ => ?_⟩)
  cases f.chunks with
  | none => trivial
  | some chunks =>
    refine wp.bind h.ialloc ?_
    rintro inum m₁ ⟨h₁, rfl, hm₁⟩
    -- the entry goes to `/bin` or to `/home`, never to the root
    refine wp.bind (h₁.iappend (by split <;> decide) (by split <;> omega) _) fun _ m₂ h₂ => ?_
    exact Going.appendAll (by omega) chunks h₂.1 (by rw [h₂.2, hm₁]; omega)

theorem Going.addFiles (fs : List Input) (h : Going m) : wp (addFiles 3 4 fs) (fun _ => Going) AnyStop m := by
  induction fs generalizing m with
  | nil => exact h
  | cons f fs ih => exact wp.bind (h.addFile f) fun _ m₁ h₁ => ih h₁

/-! ### The link count of the root -/

theorem Going.balloc (h : Going m) (used : Nat) : wp (balloc used) (fun _ => Going) AnyStop m := by
  refine wp_bind.2 (wp_failIf.2 ⟨fun _ => trivial, fun _ => ?_⟩)
  refine ⟨h.le, fun hle => ?_⟩
  obtain ⟨T, F, hR⟩ := h.rooted hle
  have hB := hR.holds.built
  refine ⟨T, F, ⟨?_, hR.holds.mem, fun i d hi => ?_, hR.holds.new⟩, hR.root, hR.dirs⟩
  · refine hB.update_low (by decide) _ fun j e hj => ?_
    have hne : sector sb.bmapstart ≠ iblock sb j := (hB.inum j e hj).2.ne'
    rw [dinodeOf_update hne, hB.sync j e hj]
  · refine ⟨(hR.holds.file i d hi).1, ?_⟩
    rw [← (hR.holds.file i d hi).2]
    exact contents_congr rfl fun k _ => byteAt_update_low hB.good (by decide) _ hi k

theorem going_build (files : List Input) : wp (build files) (fun _ => Going) AnyStop blank := by
  have h₀ : Going dirsOnly := ⟨(wp.of_ok stage_makedirs run_makedirs).2.ge, fun _ => rooted_dirsOnly⟩
  refine wp_bind.2 (wp_of_ok run_makedirs ?_)
  refine wp.bind (h₀.addFiles files) fun _ m₁ h₁ => ?_
  exact wp_bind.2 (wp_get.2 (h₁.balloc _))

theorem Rooted.inodes (h : Rooted T F m) (hfi : 5 ≤ m.freeinode) (h1 : 1 ≤ i) (h4 : i ≤ 4) :
    inodes m i = some (dinodeOf sb m.disk i) ∧ (dinodeOf sb m.disk i).type = T_DIR ∧ (dinodeOf sb m.disk i).nlink = 1 := by
  obtain ⟨d, hd, hdir⟩ := h.dirs i h1 h4
  rw [h.holds.built.sync i d hd, Mkfs.inodes, if_pos ⟨h1, by omega⟩, h.holds.built.sync i d hd]
  exact ⟨rfl, hdir⟩

theorem Rooted.contents (h : Rooted T F m) :
    contents m.disk (dinodeOf sb m.disk 1) = contents dirsOnly.disk (dinodeOf sb dirsOnly.disk 1) := by
  obtain ⟨d, hd, -⟩ := h.dirs 1 (by decide) (by decide)
  rw [h.holds.built.sync 1 d hd, (h.holds.file 1 d hd).2, h.root]

theorem mem_subdirs {c : Image} {d : Dinode} {k : Nat} {de : List Byte} (hde : de = ((contents c d).drop (16 * k)).take 16)
    (hk : 16 * (k + 1) ≤ (contents c d).length) (hname : isName de = true) (hdir : (dinodeOf sb c (deInum de)).type = T_DIR) :
    de ∈ subdirs c d := by
  rw [length_contents] at hk
  refine List.mem_filter.2 ⟨List.mem_map.2 ⟨k, List.mem_range.2 (by omega), hde.symm⟩, ?_⟩
  rw [hname, Bool.true_and]
  exact decide_eq_true hdir

def devEntry : List Byte := ((contents dirsOnly.disk (dinodeOf sb dirsOnly.disk 1)).drop (16 * 2)).take 16

theorem devEntry_spec : 16 * (2 + 1) ≤ (contents dirsOnly.disk (dinodeOf sb dirsOnly.disk 1)).length ∧
    isName devEntry = true ∧ deInum devEntry = 2 := by
  refine ⟨?_, by decide +kernel, by decide +kernel⟩
  rw [length_contents]
  decide +kernel

theorem Rooted.devEntry_mem (h : Rooted T F m) (hfi : 5 ≤ m.freeinode) : devEntry ∈ subdirs m.disk (dinodeOf sb m.disk 1) := by
  obtain ⟨hlen, hname, hinum⟩ := devEntry_spec
  rw [← h.contents] at hlen
  refine mem_subdirs ?_ hlen hname ?_
  · rw [devEntry, h.contents]
  · rw [hinum]
    exact (h.inodes hfi (by decide) (by decide)).2.1

end

/-- No image that `mkfs` finishes is one that the kernel would have left. -/
theorem build_not_imageOk (files : List Input) (m : State) (h : (build files).run blank = .ok ((), m)) : ¬ ImageOk m := by
  intro hok
  have hG := wp.of_ok (going_build files) h
  have hfi := hG.le
  have hle : m.freeinode ≤ 200 := by
    by_contra hgt
    have : m.freeinode - 1 < 200 := hok.inums _ _ (if_pos ⟨by omega, by omega⟩)
    omega
  obtain ⟨T, F, hR⟩ := hG.rooted hle
  obtain ⟨hroot, htype, hnlink⟩ := hR.inodes hfi (Nat.le_refl 1) (by decide)
  -- the entry of `/dev` is one of the subdirectories that the root should count
  have hcount := hok.dirs 1 _ hroot htype
  rw [hnlink, show (1 : BitVec 16).toNat = 1 from rfl] at hcount
  have hpos := List.length_pos_of_mem (hR.devEntry_mem hfi)
  omega

/-- With one file `f` of three bytes. -/
theorem build_file_not_imageOk : (build [⟨[0x66], some [[1, 2, 3]]⟩]).result blank = some () ∧
    ¬ ImageOk ((build [⟨[0x66], some [[1, 2, 3]]⟩]).final blank) := by
  have hr : (build [⟨[0x66], some [[1, 2, 3]]⟩]).result blank = some () := by decide +kernel
  exact ⟨hr, build_not_imageOk _ _ (run_eq_final hr)⟩

/-- With no files at all, the root has a subdirectory and a link count of 1. -/
theorem build_root_nlink : (build []).result blank = some () ∧ ∃ d, inodes ((build []).final blank) 1 = some d ∧
    d.type = T_DIR ∧ d.nlink.toNat = 1 ∧ subdirs ((build []).final blank).disk d ≠ [] := by
  have hr : (build []).result blank = some () := by decide +kernel
  have hG := wp.of_ok (going_build []) (run_eq_final hr)
  obtain ⟨T, F, hR⟩ := hG.rooted (by decide +kernel)
  obtain ⟨hroot, htype, hnlink⟩ := hR.inodes hG.le (Nat.le_refl 1) (by decide)
  refine ⟨hr, _, hroot, htype, ?_, List.ne_nil_of_mem (hR.devEntry_mem hG.le)⟩
  rw [hnlink]
  rfl

end Xv6.Mkfs
