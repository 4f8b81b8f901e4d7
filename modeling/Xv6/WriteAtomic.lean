import Xv6.FileCalls
import Xv6.StateOf

/-!
# Failed writes

`filewrite` works in transactions of at most 1536 bytes. When a later one is refused because the file
would become too large, the earlier ones are on the disk and the offset has moved, and the call returns
-1. The first transaction decides whether that can happen.
-/

namespace Xv6

open Prog

/-- The most that `filewrite` writes in one transaction. -/
def writeMax : Nat := (MAXOPBLOCKS - 1 - 1 - 2) / 2 * 512

/-- A write that failed has changed nothing, one that succeeded has stored `n` bytes at the offset. -/
structure WroteOrNot (sb : Superblock) (i f addr n : Nat) (k : Kernel) (r : Int) (k' : Kernel) : Prop where
  failed : r = -1 → (fileOf sb i k').1 = (fileOf sb i k).1 ∧ (fileOf sb i k').2.1 = (fileOf sb i k).2.1 ∧
    (k'.ftable f).off = (k.ftable f).off
  done : r = n → (fileOf sb i k').1 = splice (fileOf sb i k).1 (k.ftable f).off
    ((List.range n).map fun j => k.proc.mem (addr + j)) ∧
    (k'.ftable f).off = (k.ftable f).off + n

def AllOrNone (x : File) (len n : Nat) : Prop :=
  x.writable = true → n = 0 ∨ len < x.off ∨ x.off + n ≤ MAXFILE * BSIZE ∨ MAXFILE * BSIZE < x.off + min n writeMax

section

variable {sb : Superblock} {ip i f n : Nat} {d : Dinode} {bs : List Byte} {k k' : Kernel} {r : Int}

theorem filewriteLoop_ge (addr j : Nat) (k : Kernel) : wp (filewriteLoop sb f ip addr n j)
    (fun m _ => j ≤ m) (fun _ => True) k := by
  rw [filewriteLoop]
  split
  · next hlt =>
    refine wp.bind (wp_run.mono (fun _ _ _ => trivial) fun _ _ => trivial) ?_
    intro r k₁ _
    split
    · exact Nat.le_refl j
    · refine wp_bind.2 (wp_failIf.2 ⟨fun _ => trivial, fun _ => ?_⟩)
      refine (filewriteLoop_ge addr _ k₁).post ?_
      intro m _ hm
      omega
  · exact Nat.le_refl j
termination_by n - j
decreasing_by
  simp only [MAXOPBLOCKS]
  omega

theorem filewriteLoop_first (hL : Layout sb) (h : At sb ip i d bs k) (hoff : (k.ftable f).off < 2 ^ 32)
    (hn : n < 2 ^ 31) (addr : Nat) :
    wp (filewriteLoop sb f ip addr n 0) (fun m _ => m = 0 ↔ n = 0 ∨
      ¬ WriteArgs d (k.ftable f).off (min n writeMax)) (fun _ => True) k := by
  rw [filewriteLoop]
  split
  · next hlt =>
    dsimp only
    rw [Nat.sub_zero, Nat.add_zero, Nat.zero_add, show (MAXOPBLOCKS - 1 - 1 - 2) / 2 * 512 = writeMax from rfl]
    have hpos : 0 < min n writeMax := lt_min hlt (by decide)
    refine wp.bind (filewriteChunk_spec hL h rfl hoff (by omega) addr) ?_
    rintro r k₁ (⟨hno, rfl, -⟩ | ⟨ha, rfl, -⟩)
    · rw [if_pos (by decide)]
      exact iff_of_true rfl (.inr hno)
    · rw [if_neg (by omega)]
      refine wp_bind.2 (wp_failIf.2 ⟨fun _ => trivial, fun _ => ?_⟩)
      refine (filewriteLoop_ge addr _ k₁).post ?_
      intro m _ hm
      refine iff_of_false (by omega) ?_
      rintro (hz | hno)
      · omega
      · exact hno ha
  · next hge => exact iff_of_true rfl (.inl (by omega))

theorem filewrite_first (hL : Layout sb) (h : At sb ip i d bs k) (hf : (k.ftable f).type = .FD_INODE ∧ (k.ftable f).ip = some ip)
    (hw : (k.ftable f).writable = true) (hoff : (k.ftable f).off < 2 ^ 32) (hn : n < 2 ^ 31) (addr : Nat) :
    wp (filewrite sb f addr n) (fun r k' => ∃ d' m, Moved sb ip i f d d'
        (splice bs (k.ftable f).off ((List.range m).map fun j => k.proc.mem (addr + j))) ((k.ftable f).off + m) k k' ∧
      (m = n ↔ n = 0 ∨ (k.ftable f).off ≤ bs.length ∧ (k.ftable f).off + n ≤ MAXFILE * BSIZE) ∧
      (m = 0 ↔ n = 0 ∨ ¬ WriteArgs d (k.ftable f).off (min n writeMax)) ∧
        r = if m = n then (n : Int) else -1) (fun _ => True) k := by
  have hm : Moved sb ip i f d d (splice bs (k.ftable f).off ((List.range 0).map fun j =>
    k.proc.mem (addr + j))) ((k.ftable f).off + 0) k k := by
    rw [List.range_zero, List.map_nil, splice_nil]
    exact h.moved rfl
  rw [filewrite]
  refine wp_bind.2 (wp_get.2 ?_)
  dsimp only
  rw [hw, if_neg Bool.true_eq_false.mp, hf.1, hf.2]
  dsimp only
  rw [deref_some, pure_bind]
  refine wp.bind (((filewriteLoop_spec hL hn hoff 0 (Nat.zero_le n) hm fun hz => absurd hz (Nat.lt_irrefl 0)).and
    (filewriteLoop_first hL h hoff hn addr)).mono (fun _ _ => id) fun _ _ => trivial) ?_
  rintro m k' ⟨hs, hfirst⟩
  obtain ⟨d', hm'⟩ := hs.moved
  exact ⟨d', m, hm', hs.all, hfirst, rfl⟩

/-- A `filewrite` on a regular file is all or nothing exactly if the whole write or not even its first
transaction is accepted. -/
theorem filewrite_atomic_iff (hL : Layout sb) (hf : (k.ftable f).type = .FD_INODE ∧ (k.ftable f).ip = some ip)
    (h : (k.ftable f).writable = true → At sb ip i d bs k) (hoff : (k.ftable f).off < 2 ^ 32) (hn : n < 2 ^ 31) (addr : Nat)
    (hr : (filewrite sb f addr n).run k = .ok (r, k')) :
    WroteOrNot sb i f addr n k r k' ↔ AllOrNone (k.ftable f) (fileOf sb i k).1.length n := by
  by_cases hw : (k.ftable f).writable = true
  · have hat := h hw
    obtain ⟨d', m, hm, hall, hfirst, rfl⟩ := (filewrite_first hL hat hf hw hoff hn addr).of_ok hr
    have hlen := hat.length
    have hne : ((n : Int) = -1) = False := eq_false (by omega)
    have hargs : WriteArgs d (k.ftable f).off (min n writeMax) ↔
        (k.ftable f).off ≤ bs.length ∧ (k.ftable f).off + min n writeMax ≤ MAXFILE * BSIZE := by
      rw [hlen]
      refine ⟨fun ha => ⟨ha.1, ha.2.2⟩, fun ha => ⟨ha.1, ?_, ha.2⟩⟩
      have := ha.2
      simp only [MAXFILE, NDIRECT, NINDIRECT, NDINDIRECT, BSIZE] at this
      omega
    rw [hargs] at hfirst
    have hmin := Nat.min_le_left n writeMax
    have hfile := hm.file.fileOf_eq
    have hmoved := hm.off_eq
    rw [AllOrNone, hat.fileOf_eq]
    dsimp only
    constructor
    · -- the offset tells how far it came
      intro hatomic _
      by_cases hmn : m = n
      · rcases hall.1 hmn with hz | hfits
        · exact .inl hz
        · exact .inr (.inr (.inl hfits.2))
      · have hoff' := (hatomic.failed (if_neg hmn)).2.2
        rw [hmoved] at hoff'
        rcases hfirst.1 (by omega) with hz | hno
        · exact .inl hz
        · omega
    · intro hcond
      have hcond := hcond hw
      constructor
      · intro hr
        have hmn : m ≠ n := fun hmn => by
          rw [if_pos hmn, hne] at hr
          exact hr
        have hz : m = 0 := by
          refine hfirst.2 ?_
          have hno : ¬ (n = 0 ∨ (k.ftable f).off ≤ bs.length ∧ (k.ftable f).off + n ≤ MAXFILE *
            BSIZE) := fun hc => hmn (hall.2 hc)
          omega
        rw [hz] at hm hmoved hfile
        rw [List.range_zero, List.map_nil, splice_nil] at hfile hm
        have hsize : d'.size = d.size := BitVec.eq_of_toNat_eq (hm.file.length.symm.trans hlen)
        rw [hfile, hat.fileOf_eq, hmoved]
        exact ⟨rfl, hsize, rfl⟩
      · intro hr
        have hmn : m = n := by
          by_contra hmn
          rw [if_neg hmn] at hr
          omega
        rw [hfile, hat.fileOf_eq, hmoved, hmn]
        exact ⟨rfl, rfl⟩
  · have hfalse : (k.ftable f).writable = false := Bool.eq_false_of_not_eq_true hw
    refine iff_of_true ?_ fun hc => absurd hc hw
    have hsame : wp (filewrite sb f addr n) (fun r k' => r = -1 ∧ k' = k) (fun _ => True) k := by
      rw [filewrite]
      refine wp_bind.2 (wp_get.2 ?_)
      dsimp only
      rw [if_pos hfalse]
      exact ⟨rfl, rfl⟩
    obtain ⟨rfl, rfl⟩ := hsame.of_ok hr
    exact ⟨fun _ => ⟨rfl, rfl, rfl⟩, fun hc => absurd hc (by omega)⟩

end

/-! ### A file of maximal size -/

def fullFile : FileImage where
  type := T_FILE
  major := 0
  minor := 0
  nlink := 1
  len := 16523 * 512
  data _ := 0x61

/-- It is open for writing at offset `off`. -/
def fullKernel (off : Nat) : Kernel :=
  { Kernel.start (boot (diskOf [fullFile]) []) with
    fs := { fsOf [fullFile] [1] with
      icache := fun e => if e = 0 then ⟨ROOTDEV, 1, 1, false, true, fullFile.dinode 63⟩ else cacheOf [1] e }
    ftable := fun f => if f = 0 then ⟨.FD_INODE, 1, true, true, 0, some 0, off⟩ else ⟨.FD_NONE, 0, false, false, 0, none, 0⟩ }

theorem fits_fullFile : Fits [fullFile] := by
  refine ⟨by decide, fun x hx => ?_, fun x hx => ?_, by decide +kernel⟩ <;> obtain rfl := List.mem_singleton.1 hx
  · decide
  · exact Nat.le_refl _

theorem at_fullKernel (off : Nat) : At mkfsSuperblock 0 1 (fullFile.dinode 63) fullFile.node.bytes (fullKernel off) := by
  have htab : diskTable mkfsSuperblock (diskOf [fullFile]) = tableOf [fullFile] := diskTable_diskOf fits_fullFile
  have hone : diskTable mkfsSuperblock (diskOf [fullFile]) 1 = some (fullFile.dinode 63) := by
    rw [htab]
    rfl
  have hroot : ∀ e, 0 < ((fullKernel off).fs.icache e).ref → e = 0 := by
    intro e he
    by_contra hne
    have hc : (fullKernel off).fs.icache e = cacheOf [1] e := if_neg hne
    rw [hc] at he
    obtain ⟨i, hi, -⟩ := cacheOf_pos he
    have := (List.getElem?_eq_some_iff.1 hi).1
    exact hne (Nat.lt_one_iff.1 this)
  have hfs : FsOk mkfsSuperblock (boot (diskOf [fullFile]) []) (diskTable mkfsSuperblock (diskOf [fullFile])) := by
    rw [htab]
    exact fits_fullFile.fsOk []
  refine ⟨⟨hfs, fun e _ he => ?_, fun e _ he _ => ?_, fun e _ he => ?_, fun e e' _ _ he he' _ => ?_⟩,
    by decide, rfl, rfl, rfl, rfl, hone, ?_, rfl⟩
  · rw [hroot e he]
    exact ⟨Nat.le_refl 1, show 1 < 200 by decide⟩
  · rw [hroot e he]
    exact hone
  · rw [hroot e he]
    rfl
  · rw [hroot e he, hroot e' he']
  · exact (fits_fullFile.laid (k := 0) rfl).contents_eq (Nat.le_refl _)

/-- The last block of the file is written over. -/
theorem filewrite_atomic_last : ∃ k', (filewrite mkfsSuperblock 0 0 512).run (fullKernel (16522 * 512)) = .ok (512, k') ∧
    WroteOrNot mkfsSuperblock 1 0 0 512 (fullKernel (16522 * 512)) 512 k' := by
  have hr : (filewrite mkfsSuperblock 0 0 512).run (fullKernel (16522 * 512)) = .ok (512, _) := run_eq_final (by decide +kernel)
  refine ⟨_, hr, (filewrite_atomic_iff mkfs_layout ⟨rfl, rfl⟩ (fun _ => at_fullKernel _) (by decide)
    (by decide) 0 hr).2 fun _ => ?_⟩
  exact .inr (.inr (.inl (by decide)))

/-- Of 1537 bytes that begin 1536 bytes before the largest size of a file, 1536 are in the file and the
offset has moved when the write fails. -/
theorem failed_write_changes_file : At mkfsSuperblock 0 1 (fullFile.dinode 63) fullFile.node.bytes (fullKernel (16520 * 512)) ∧
    ∃ k', (filewrite mkfsSuperblock 0 0 1537).run (fullKernel (16520 * 512)) = .ok (-1, k') ∧
      ¬ WroteOrNot mkfsSuperblock 1 0 0 1537 (fullKernel (16520 * 512)) (-1) k' ∧ (k'.ftable 0).off = 16523 * 512 ∧
      byteAt (fullKernel (16520 * 512)).fs.dev.cache (fullFile.dinode 63) (16520 * 512) = 0x61 ∧
      byteAt k'.fs.dev.cache (dinodeOf mkfsSuperblock k'.fs.dev.cache 1) (16520 * 512) = 0 := by
  have hoff : (((filewrite mkfsSuperblock 0 0 1537).final (fullKernel (16520 * 512))).ftable 0).off =
    16523 * 512 := by decide +kernel
  refine ⟨at_fullKernel _, _, run_eq_final (by decide +kernel), fun hc => ?_, hoff, by decide +kernel, by decide +kernel⟩
  have := (hc.failed rfl).2.2
  rw [hoff] at this
  exact absurd this (by decide)

end Xv6
