import Xv6.Cipher
import Xv6.CryptLoop
import Xv6.InodeRun
import Xv6.RefRun

/-!
# Decrypting what was encrypted

`sys_encr` and then `sys_decr`, both through descriptors at offset 0 of a regular file, return 0 whatever
the key and the contents are. Whether the file is then what it was depends on its bytes: the cipher
works in the range of positive `char`s, and not for all keys.
-/

namespace Xv6

open Prog Function

/-- No call is in progress, and the first argument is a descriptor at offset 0 of the regular file `i`,
whose inode on disk is `d`. -/
structure Fresh (sb : Superblock) (i : Nat) (d : Dinode) (f ip : Nat) (k : Kernel) : Prop where
  arg : ∃ fd, k.proc.argfd 0 = some (fd, f)
  type : (k.ftable f).type = .FD_INODE
  file : (k.ftable f).ip = some ip
  off : (k.ftable f).off = 0
  resting : Resting sb ip i d k
  regular : d.type = T_FILE
  linked : d.nlink ≠ 0

/-- The bytes, the size and the flag of file `i`. -/
def fileOf (sb : Superblock) (i : Nat) (k : Kernel) : List Byte × BitVec 32 × BitVec 16 :=
  (contents k.fs.dev.cache (dinodeOf sb k.fs.dev.cache i), (dinodeOf sb k.fs.dev.cache i).size,
    (dinodeOf sb k.fs.dev.cache i).major)

section

variable {sb : Superblock} {i f f₂ ip : Nat} {d : Dinode} {k k₁ k₂ : Kernel} {flag : BitVec 16}

theorem cryptFile_spec (flag : BitVec 16) (g : BitVec 32 → Byte → Byte) (hL : Layout sb) (hlog : 12 ≤ sb.nlog)
    (h : Fresh sb i d f ip k) (hkey : k.encrKey ≠ -1) (hm : d.major ≠ flag) :
    wp (cryptFile sb flag g) (fun r k' => r = 0 ∧
      Finished sb f ip i d flag d.size.toNat ((contents k.fs.dev.cache d).map (g k.encrKey)) k k' ∧
      ∀ x ∈ k'.fs.dev.hist, x ∈ k.fs.dev.hist ∨
        ∃ V, Recovers sb x V ∧ Stage sb i d flag (g k.encrKey) (contents k.fs.dev.cache d) V) (fun _ => False) k := by
  obtain ⟨fd, ha⟩ := h.arg
  have hv := h.resting.view
  have hsize := hv.fileOk.size_le
  have hcode : ¬ (k.ftable f).type.code = T_DEV.toNat := by
    rw [h.type]
    decide
  have hmaj : ¬ k.major f = flag := by
    rw [Kernel.major, h.file]
    simp only [hv.d]
    exact hm
  rw [cryptFile]
  refine wp_bind.2 (wp_get.2 ?_)
  simp only [ha, hkey, hcode, hmaj, if_false, h.file, deref_some, pure_bind]
  have hdev : d.type ≠ T_DEV := by
    rw [h.regular]
    decide
  refine wp.bind (cryptLoop_spec hL hlog hdev h.linked flag g (length_contents k.fs.dev.cache d) _ 0
    h.resting ?_ ?_ (.inl rfl) (by omega)) ?_
  · rw [h.off]
    omega
  · rw [applyOn_self (by omega)]
  · rintro _ k' ⟨hf, hh⟩
    rw [length_contents] at hf
    exact ⟨rfl, hf, hh⟩

theorem Finished.fresh {off : Nat} {bs : List Byte} (hF : Fresh sb i d f ip k) (h : Finished sb f ip i d flag off bs k k₁)
    (hne : f₂ ≠ f) (htype : (k.ftable f₂).type = .FD_INODE) (hfile : (k.ftable f₂).ip = some ip)
    (hoff : (k.ftable f₂).off = 0) (href : 1 < (k.fs.icache ip).ref) {t : List (Option (List Byte))}
    (hfs : k₂.fs = { k₁.fs with dev := { k₁.fs.dev with tape := t } }) (hft : k₂.ftable = k₁.ftable)
      (harg : ∃ fd, k₂.proc.argfd 0 = some (fd, f₂)) : Fresh sb i { d with major := flag } f₂ ip k₂ := by
  have hf₂ : k₂.ftable f₂ = k.ftable f₂ := by
    rw [hft, h.eq]
    exact update_of_ne hne _ _
  have hi : k₂.fs.icache ip = { k.fs.icache ip with d := { d with major := flag }, ref := (k.fs.icache ip).ref - 1 } := by
    rw [hfs, h.icache, update_self]
  have hr := hF.resting
  refine ⟨harg, by rw [hf₂, htype], by rw [hf₂, hfile], by rw [hf₂, hoff], ⟨⟨?_, hr.view.lt, ?_, ?_, ?_, ?_⟩, ?_, ?_, ?_⟩,
    hF.regular, hF.linked⟩
  · rw [hfs]
    exact h.ok.tape t
  · rw [hi]
    simp only
    omega
  · rw [hi]
    exact hr.view.valid
  · rw [hi]
    exact hr.view.inum
  · rw [hi]
  · rw [hi]
    exact hr.unlocked
  · rw [hfs]
    exact h.log
  · rw [hfs]
    exact ⟨h.logOk.clean, h.logOk.area, h.logOk.unlogged, h.logOk.head⟩

/-- Encrypting and then decrypting a file under one key gives the file back exactly if its flag was 0 and each of
its bytes is one that the cipher can recover. -/
theorem decr_undoes_encr_iff (hL : Layout sb) (hlog : 12 ≤ sb.nlog) (h : Fresh sb i d f ip k) (hm : d.major ≠ 1)
    (hkey : k.encrKey ≠ -1) :
    ∃ k₁, (sysEncr sb).run k = .ok (0, k₁) ∧ ∀ k₂ d₂ f₂ ip₂, Fresh sb i d₂ f₂ ip₂ k₂ → k₂.encrKey = k.encrKey →
      (∀ b, Home sb b → k₂.fs.dev.cache b = k₁.fs.dev.cache b) →
      ∃ k₃, (sysDecr sb).run k₂ = .ok (0, k₃) ∧ (fileOf sb i k₃ = fileOf sb i k ↔
        d.major = 0 ∧ ∀ c ∈ contents k.fs.dev.cache d, Recoverable k.encrKey c) := by
  obtain ⟨_, k₁, hr₁, rfl, h₁, -⟩ := (cryptFile_spec 1 encrByte hL hlog h hkey hm).exists_ok
  refine ⟨k₁, hr₁, fun k₂ d₂ f₂ ip₂ h₂ hk₂ hc => ?_⟩
  have hd₂ : d₂ = { d with major := 1 } := by
    rw [← h₂.resting.view.dinode, dinodeOf_congr (hc _ (hL.home_of_le (inodestart_le_iblock sb i))), h₁.dinode]
  subst hd₂
  have hbytes : contents k₂.fs.dev.cache { d with major := 1 } = (contents k.fs.dev.cache d).map (encrByte k.encrKey) := by
    rw [← h₁.bytes]
    exact (h₂.resting.view.home hL h₁.logOk.head fun b hb => (hc b hb).symm).2.symm
  obtain ⟨_, k₃, hr₃, rfl, h₃, -⟩ :=
    (cryptFile_spec 0 decrByte hL hlog h₂ (by rwa [hk₂]) (by simp)).exists_ok
  refine ⟨k₃, hr₃, ?_⟩
  have hd := h.resting.view.dinode
  have hb₃ : contents k₃.fs.dev.cache { d with major := 0 } =
      (contents k.fs.dev.cache d).map fun c => decrByte k.encrKey (encrByte k.encrKey c) := by
    rw [h₃.bytes, hbytes, hk₂, List.map_map]
    rfl
  have hself : (contents k.fs.dev.cache d).map (fun c => decrByte k.encrKey (encrByte k.encrKey c)) =
      contents k.fs.dev.cache d ↔ ∀ c ∈ contents k.fs.dev.cache d, Recoverable k.encrKey c := by
    simp only [← decrByte_encrByte_iff]
    rw [← List.map_inj_left, List.map_id']
  have hfile : fileOf sb i k₃ = ((contents k.fs.dev.cache d).map fun c =>
    decrByte k.encrKey (encrByte k.encrKey c), d.size, 0) := by
    rw [fileOf, h₃.dinode, hb₃]
  rw [hfile, fileOf, hd, Prod.mk.injEq, Prod.mk.injEq, hself, eq_comm (a := (0 : BitVec 16))]
  simp only [true_and]
  exact and_comm

end

/-! ### One short file -/

def blkOf (bs : List Byte) : Blk where
  data k := if k < 512 then bs.getD k 0 else 0
  out _ hk := if_neg (Nat.not_lt.2 hk)

def twoFds (p : Nat) : Proc :=
  ⟨if p = 0 then .RUNNABLE else .UNUSED, p, none, false, fun fd => if p = 0 ∧ fd < 2 then some fd else none, none, PGSIZE, 0,
    fun _ => 0⟩

/-- A file of `size` bytes in `m` blocks as inode 1, open twice at offset 0 by process 0. -/
def openTwice (key : BitVec 32) (m size : Nat) (data : Nat → Blk) : Kernel where
  fs := {
    dev := boot (smallDisk (63 + m) (oneFile m size) data) []
    icache := fun e => if e = 0 then ⟨ROOTDEV, 1, 2, false, true, fileDinode m size⟩ else ⟨0, 0, 0, false, false, .fresh 0⟩
    freed := [] }
  ftable f := if f < 2 then ⟨.FD_INODE, 1, true, true, 0, some 0, 0⟩ else ⟨.FD_NONE, 0, false, false, 0, none, 0⟩
  ptable := twoFds
  cur := 0
  nextpid := 1
  pipes _ := ⟨fun _ => 0, 0, 0, false, false, 0⟩
  npipes := 0
  encrKey := key
  kmem := []

/-- The bytes `bs`, at most a block of them. -/
def fileKernel (key : BitVec 32) (bs : List Byte) : Kernel :=
  openTwice key 1 bs.length fun b => if b = 63 then blkOf bs else Block.zero _

theorem cacheOk_openTwice (key : BitVec 32) {m size : Nat} (hm : m ≤ 11) (hsize : size ≤ 512 * m) (data : Nat → Blk) :
    CacheOk mkfsSuperblock (openTwice key m size data).fs := by
  have hT : diskTable mkfsSuperblock (openTwice key m size data).fs.dev.cache = oneInode (fileDinode m size) :=
    diskTable_smallDisk (63 + m) m size _
  have hroot : ∀ e, 0 < ((openTwice key m size data).fs.icache e).ref → e = 0 := fun e he => by
    by_contra hne
    simp [openTwice, hne] at he
  refine ⟨?_, fun e _ he => ?_, fun e _ he _ => ?_, fun e _ he => ?_, fun e e' _ _ he he' _ => ?_⟩
  · rw [hT]
    exact fsOk_oneFile hm hsize data []
  · rw [hroot e he]
    exact ⟨Nat.le_refl 1, show 1 < 200 by decide⟩
  · rw [hroot e he, hT]
    rfl
  · rw [hroot e he]
    rfl
  · rw [hroot e he, hroot e' he']

theorem argfd_trapWith {k : Kernel} (hk : (k.ptable 0).ofile = (twoFds 0).ofile) (fd : Nat) :
    (k.user (trapWith fd)).proc.argfd 0 = { twoFds 0 with sz := 20, esp := 0, mem := (trapWith fd).mem }.argfd 0 := by
  have hp : (k.user (trapWith fd)).proc = { k.ptable 0 with sz := 20, esp := 0, mem := (trapWith fd).mem } := by
    rw [Kernel.proc, Kernel.user]
    exact update_self 0 _ k.ptable
  rw [hp]
  unfold Proc.argfd
  simp only [hk]
  rfl

theorem fresh_openTwice (key : BitVec 32) {m size : Nat} (hm : m ≤ 11) (hsize : size ≤ 512 * m) (data : Nat → Blk) :
    Fresh mkfsSuperblock 1 (fileDinode m size) 0 0 ((openTwice key m size data).user (trapWith 0)) := by
  have harg : ((openTwice key m size data).user (trapWith 0)).proc.argfd 0 = some (0, 0) := by
    rw [argfd_trapWith rfl]
    decide +kernel
  refine ⟨⟨0, harg⟩, rfl, rfl, rfl, ⟨⟨?_, by decide, show (0 : Int) < 2 by decide, rfl, rfl, rfl⟩, rfl, rfl, ?_⟩, rfl,
    by simp [fileDinode]⟩
  · exact (cacheOk_openTwice key hm hsize data).home mkfs_layout (.nil mkfs_logArea) fun _ _ => rfl
  · have hblk : (openTwice key m size data).fs.dev.disk mkfsSuperblock.logstart = Block.zero _ := rfl
    exact .boot mkfs_logArea (by rw [hblk]; decide) []

theorem fresh_fileKernel (key : BitVec 32) (bs : List Byte) (hbs : bs.length ≤ 512) :
    Fresh mkfsSuperblock 1 (fileDinode 1 bs.length) 0 0 ((fileKernel key bs).user (trapWith 0)) :=
  fresh_openTwice key (by decide) (by omega) _

theorem decr_undoes_encr_letter : ∃ k₁ k₃,
    (sysEncr mkfsSuperblock).run ((fileKernel 3 [0x61]).user (trapWith 0)) = .ok (0, k₁) ∧
    (sysDecr mkfsSuperblock).run (k₁.user (trapWith 1)) = .ok (0, k₃) ∧
    fileOf mkfsSuperblock 1 k₃ = fileOf mkfsSuperblock 1 ((fileKernel 3 [0x61]).user (trapWith 0)) := by
  have h : Fresh mkfsSuperblock 1 (fileDinode 1 1) 0 0 ((fileKernel 3 [0x61]).user (trapWith 0)) :=
    fresh_fileKernel 3 [0x61] (by decide)
  obtain ⟨k₁, hr₁, h₁⟩ := decr_undoes_encr_iff mkfs_layout (by decide) h (by decide) (by decide)
  have hfin := ((cryptFile_spec 1 encrByte mkfs_layout (by decide) h (by decide) (by decide)).of_ok hr₁).2.1
  have hof : (k₁.ptable 0).ofile = (twoFds 0).ofile := by
    rw [hfin.eq]
    rfl
  have harg : (k₁.user (trapWith 1)).proc.argfd 0 = some (1, 1) := by
    rw [argfd_trapWith hof]
    decide +kernel
  have h₂ : Fresh mkfsSuperblock 1 { fileDinode 1 1 with major := 1 } 1 0 (k₁.user (trapWith 1)) :=
    hfin.fresh h (by decide) rfl rfl rfl (by decide) rfl rfl ⟨1, harg⟩
  have hkey : (k₁.user (trapWith 1)).encrKey = 3 := by
    change k₁.encrKey = 3
    rw [hfin.eq]
    rfl
  obtain ⟨k₃, hr₃, h₃⟩ := h₁ (k₁.user (trapWith 1)) _ 1 0 h₂ hkey fun _ _ => rfl
  exact ⟨k₁, k₃, hr₁, hr₃, h₃.2 ⟨rfl, by decide +kernel⟩⟩

/-- A byte above 127 does not survive: 0xc3 becomes 0x43 under the key 3. -/
theorem decr_of_encr_differs : ∃ k k₁ k₃ d f ip, Fresh mkfsSuperblock 1 d f ip k ∧ d.major = 0 ∧ k.encrKey = 3 ∧
    (sysEncr mkfsSuperblock).run k = .ok (0, k₁) ∧ (sysDecr mkfsSuperblock).run (k₁.user (trapWith 1)) = .ok (0, k₃) ∧
    fileOf mkfsSuperblock 1 k = ([0xc3], 1, 0) ∧ fileOf mkfsSuperblock 1 k₃ = ([0x43], 1, 0) :=
  ⟨(fileKernel 3 [0xc3]).user (trapWith 0), _, _, _, _, _, fresh_fileKernel 3 [0xc3] (by decide), rfl, rfl,
    run_eq_final (by decide +kernel), run_eq_final (by decide +kernel), by decide +kernel, by decide +kernel⟩

end Xv6
