import Xv6.CryptWhole

/-!
# Reading an encrypted file, and decrypting it

`sys_read` decrypts what it has read from an encrypted file if the key is not negative; `sys_decr` decrypts the file itself
under every key but -1, from the offset of its descriptor on. Both are run here from the same state, and the bytes in
the reader's buffer are compared with those of the decrypted file.
-/

namespace Xv6

open Prog Function

/-- The `m` bytes of memory at `buf` are those of `bs` from `off` on. -/
def SameBytes (mem : Nat → Byte) (buf : Nat) (bs : List Byte) (off m : Nat) : Prop :=
  ∀ j < m, bs[off + j]? = some (mem (buf + j))

section

variable {sb : Superblock} {ip i f g fd buf n : Nat} {d : Dinode} {bs : List Byte} {k k₁ k₂ : Kernel} {r : Int}

theorem Still.at (hk : Still sb ip i d k) (ht : d.type = T_FILE) : At sb ip i d (contents k.fs.dev.cache d) k :=
  ⟨hk.view.ok, hk.view.lt, hk.view.valid, hk.view.inum, hk.view.d, hk.unlocked, hk.view.table, rfl, ht⟩

theorem Still.user (hL : Layout sb) (hk : Still sb ip i d k) (u : User) : Still sb ip i d (k.user u) :=
  ⟨⟨hk.view.ok.home hL (v := { k.fs.dev with tape := u.tape }) hk.view.ok.fs.head fun _ _ => rfl,
    hk.view.lt, hk.view.pos, hk.view.valid,
    hk.view.inum, hk.view.d⟩, hk.unlocked, hk.log⟩

theorem getElem?_arrayRead {x : File} {j : Nat} {b : Byte}
    (h : (readResult (arrayRead x bs n)).2[j]? = some b) : bs[x.off + j]? = some b := by
  rw [arrayRead] at h
  split at h
  · obtain ⟨hj, rfl⟩ := List.getElem?_eq_some_iff.1 h
    simp only [readResult, List.length_take, List.length_drop] at hj ⊢
    rw [List.getElem_take, List.getElem_drop, List.getElem?_eq_getElem]
  · cases h

theorem length_readResult (o : Option (List Byte)) : (readResult o).1.toNat = (readResult o).2.length := by
  cases o <;> rfl

theorem ReadDone.mem (h : ReadDone sb ip i f buf n d bs k r k₁) {j : Nat} {b : Byte}
    (hj : (readResult (arrayRead (k.ftable f) bs n)).2[j]? = some b) :
    (k₁.ptable k.cur).mem (buf + j) = if d.major = 1 ∧ 0 ≤ k.encrKey.toInt then decrByte k.encrKey b else b := by
  obtain ⟨hlt, hb⟩ := List.getElem?_eq_some_iff.1 hj
  have hput : putBytes k.proc.mem buf (readResult (arrayRead (k.ftable f) bs n)).2 (buf + j) = b := by
    rw [putBytes, if_pos (by omega), Nat.add_sub_cancel_left, List.getD_eq_getElem _ _ hlt, hb]
  have hr : r.toNat = (readResult (arrayRead (k.ftable f) bs n)).2.length := by rw [h.result, length_readResult]
  rw [h.ptable, update_self]
  dsimp only
  split
  · rw [mapMem, if_pos (by omega), hput]
  · exact hput

theorem Sealed.fileOf_eq {dies : Prop} {h : Byte → Byte} {off : Nat} {flag : BitVec 16}
    (hs : Sealed sb i d flag h off dies k.fs.dev.cache k₂.fs.dev.cache) :
    (dies → (fileOf sb i k₂).1 = []) ∧
      (¬ dies → (fileOf sb i k₂).1 = applyOn h off d.size.toNat (contents k.fs.dev.cache d)) := by
  refine ⟨fun hd => ?_, fun hno => ?_⟩
  · rw [fileOf, hs.freed hd]
    exact List.eq_nil_of_length_eq_zero (length_contents ..)
  · obtain ⟨htab, -, hbytes⟩ := hs.kept hno
    rw [fileOf, (diskTable_some htab).2.2.2, hbytes]

theorem decr_choice {P Q : Prop} [Decidable P] [Decidable Q] {h : Byte → Byte} {b : Byte} :
    (if Q then h b else b) = (if P then h b else b) ↔ (P ↔ Q) ∨ h b = b := by
  by_cases hP : P <;> by_cases hQ : Q <;> simp [hP, hQ, eq_comm]

/-- `sys_read` delivers what `sys_decr` would leave in the file exactly if, for every byte it reads, the inode outlives
`sys_decr` and the byte does not change under the formula, or both calls decrypt it or neither does. -/
theorem read_agrees_decr_iff (hL : Layout sb) (hk : Still sb ip i d k) (ht : d.type = T_FILE) (hm : d.major = 1) (u v : User)
    (ha : (k.user u).proc.argio = some (f, buf, n)) (hf : OnInode ip f k)
    (hv : (k.user v).proc.argfd 0 = some (fd, g)) (hg : OnInode ip g k) :
    ∃ r k₁, (sysRead sb).run (k.user u) = .ok (r, k₁) ∧ ∀ k₂, (sysDecr sb).run (k.user v) = .ok (0, k₂) →
      (SameBytes (k₁.ptable u.proc).mem buf (fileOf sb i k₂).1 (k.ftable f).off r.toNat ↔
        ∀ j b, (readResult (arrayRead (k.ftable f) (contents k.fs.dev.cache d) n)).2[j]? = some b →
          (d.nlink ≠ 0 ∨ (k.fs.icache ip).ref ≠ 1) ∧
            ((0 ≤ k.encrKey.toInt ↔ (k.ftable g).off ≤ (k.ftable f).off + j) ∨ decrByte k.encrKey b = b)) := by
  have hat := (hk.at ht).user hL u
  obtain ⟨r, k₁, hr, hdone⟩ := (sysRead_spec hL hat ha ⟨hf.type, hf.ip, hf.off⟩ (.inl hk.view.pos)).exists_ok
  refine ⟨r, k₁, hr, fun k₂ hd => ?_⟩
  obtain ⟨fuel, hrun⟩ := CryptCall.exec_loop (c := .decr) hv (show ((k.user v).ftable g).ip = some ip from hg.ip) hd
  have hs := ((hk.user hL v).cryptLoop hL (by rw [ht]; decide) 0 decrByte fuel rfl hg.off).of_ok hrun
  obtain ⟨hgone, hkept⟩ := Sealed.fileOf_eq (k := k) hs
  have hlen : r.toNat = (readResult (arrayRead (k.ftable f) (contents k.fs.dev.cache d) n)).2.length := by
    rw [hdone.result, length_readResult]
    rfl
  -- both sides speak of the bytes that were read, one by one
  have hbyte : ∀ j b, (readResult (arrayRead (k.ftable f) (contents k.fs.dev.cache d) n)).2[j]? = some b →
      ((fileOf sb i k₂).1[(k.ftable f).off + j]? = some ((k₁.ptable u.proc).mem (buf + j)) ↔
        (d.nlink ≠ 0 ∨ (k.fs.icache ip).ref ≠ 1) ∧
          ((0 ≤ k.encrKey.toInt ↔ (k.ftable g).off ≤ (k.ftable f).off + j) ∨ decrByte k.encrKey b = b)) := by
    intro j b hb
    have hmem : (k₁.ptable u.proc).mem (buf + j) = if 0 ≤ k.encrKey.toInt then decrByte k.encrKey b else b := by
      have := hdone.mem (j := j) (b := b) hb
      simp only [hm, true_and] at this
      exact this
    obtain ⟨hlt, hc⟩ := List.getElem?_eq_some_iff.1 (getElem?_arrayRead hb)
    by_cases hdies : Dies d (k.fs.icache ip)
    · rw [hgone hdies]
      refine iff_of_false (by simp) ?_
      rintro ⟨hne | hne, -⟩
      · exact hne hdies.1
      · exact hne hdies.2
    · have hor : d.nlink ≠ 0 ∨ (k.fs.icache ip).ref ≠ 1 := not_and_or.1 hdies
      rw [hkept hdies, List.getElem?_eq_getElem (by rw [length_applyOn]; exact hlt),
        getElem_applyOn _ hlt, hc, hmem, Option.some.injEq,
        and_iff_right hor]
      rw [length_contents] at hlt
      simp only [hlt, and_true]
      exact decr_choice
  constructor
  · intro hsame j b hb
    have hj : j < r.toNat := by
      rw [hlen]
      exact (List.getElem?_eq_some_iff.1 hb).1
    exact (hbyte j b hb).1 (hsame j hj)
  · intro hall j hj
    rw [hlen] at hj
    have hb := List.getElem?_eq_getElem hj
    exact (hbyte j _ hb).2 (hall j _ hb)

end

/-! ### One letter -/

def readTrap : User where
  proc := 0
  sz := 20
  esp := 0
  mem a := if a = 4 then 1 else if a = 8 then 16 else if a = 12 then 1 else 0
  kmem := []
  tape := []

/-- The letter `a` encrypted under `key`; descriptor 1 is at the beginning of the file. -/
def sealedLetter (key : BitVec 32) : Kernel := (sysEncr mkfsSuperblock).final ((fileKernel key [0x61]).user (trapWith 0))

theorem finished_sealedLetter {key : BitVec 32} (hkey : key ≠ -1) :
    Finished mkfsSuperblock 0 0 1 (fileDinode 1 1) 1 1
      ((contents (fileKernel key [0x61]).fs.dev.cache (fileDinode 1 1)).map (encrByte key))
      ((fileKernel key [0x61]).user (trapWith 0)) (sealedLetter key) := by
  obtain ⟨_, k', hr, -, hfin, -⟩ :=
    (cryptFile_spec 1 encrByte mkfs_layout (by decide) (fresh_fileKernel key [0x61] (by decide)) hkey (by decide)).exists_ok
  rw [sealedLetter, sysEncr, final_of_ok hr]
  exact hfin

theorem still_sealedLetter {key : BitVec 32} (hkey : key ≠ -1) :
    Still mkfsSuperblock 0 1 { fileDinode 1 1 with major := 1 } (sealedLetter key) := by
  have hfin := finished_sealedLetter hkey
  have hi : (sealedLetter key).fs.icache 0 = ⟨ROOTDEV, 1, 1, false, true, { fileDinode 1 1 with major := 1 }⟩ := by
    rw [hfin.icache, update_self]
    rfl
  refine ⟨⟨hfin.ok, by decide, ?_, ?_, ?_, ?_⟩, ?_, hfin.log⟩ <;> rw [hi]
  exact Int.one_pos

theorem argio_readTrap {k : Kernel} (hk : (k.ptable 0).ofile = (twoFds 0).ofile) :
    (k.user readTrap).proc.argio = some (1, 16, 1) := by
  have hp : (k.user readTrap).proc = { k.ptable 0 with sz := 20, esp := 0, mem := readTrap.mem } := by
    rw [Kernel.proc, Kernel.user]
    exact update_self 0 _ k.ptable
  have htwo : ({ twoFds 0 with sz := 20, esp := 0, mem := readTrap.mem } : Proc).argio = some (1, 16, 1) := by decide +kernel
  rw [hp, ← htwo]
  unfold Proc.argio Proc.argfd
  simp only [hk]
  rfl

theorem args_sealedLetter {key : BitVec 32} (hkey : key ≠ -1) :
    OnInode 0 1 (sealedLetter key) ∧ ((sealedLetter key).user readTrap).proc.argio = some (1, 16, 1) ∧
      ((sealedLetter key).user (trapWith 1)).proc.argfd 0 = some (1, 1) := by
  have hfin := finished_sealedLetter hkey
  have hft : (sealedLetter key).ftable 1 = ⟨.FD_INODE, 1, true, true, 0, some 0, 0⟩ := by
    rw [hfin.eq]
    rfl
  have hof : ((sealedLetter key).ptable 0).ofile = (twoFds 0).ofile := by
    rw [hfin.eq]
    rfl
  refine ⟨⟨by rw [hft], by rw [hft], by rw [hft]; decide⟩, ?_, ?_⟩
  · exact argio_readTrap hof
  · rw [argfd_trapWith hof]
    decide +kernel

/-- Under the key 3 the reader sees the letter that `sys_decr` restores. -/
theorem read_agrees_decr_letter : ∃ r k₁ k₂, (sysRead mkfsSuperblock).run ((sealedLetter 3).user readTrap) = .ok (r, k₁) ∧
    (sysDecr mkfsSuperblock).run ((sealedLetter 3).user (trapWith 1)) = .ok (0, k₂) ∧
    SameBytes (k₁.ptable 0).mem 16 (fileOf mkfsSuperblock 1 k₂).1 0 r.toNat := by
  have three_ne : (3 : BitVec 32) ≠ -1 := by decide
  obtain ⟨hfd, hio, harg⟩ := args_sealedLetter three_ne
  have hfin := finished_sealedLetter three_ne
  obtain ⟨r, k₁, hr, hiff⟩ := read_agrees_decr_iff mkfs_layout (still_sealedLetter three_ne) rfl rfl readTrap (trapWith 1)
    hio hfd harg hfd
  have hd : (sysDecr mkfsSuperblock).run ((sealedLetter 3).user (trapWith 1)) = .ok (0, _) := run_eq_final (by decide +kernel)
  have h0 : ((sealedLetter 3).ftable 1).off = 0 := by decide +kernel
  have hkey : (sealedLetter 3).encrKey = 3 := by decide +kernel
  refine ⟨r, k₁, _, hr, hd, ?_⟩
  have := (hiff _ hd).2 fun j b _ => ⟨.inl (by decide), .inl ?_⟩
  · rwa [h0] at this
  · rw [h0, hkey]
    exact iff_of_true (by decide) (Nat.zero_le _)

/-- Under the key -2 the reader sees the letter as it is encrypted, 0x5f; `sys_decr` decrypts it to 0x61. -/
theorem read_misses_negative_key : Still mkfsSuperblock 0 1 { fileDinode 1 1 with major := 1 } (sealedLetter (-2)) ∧
    (sealedLetter (-2)).encrKey = -2 ∧ (∃ k₁, (sysRead mkfsSuperblock).run ((sealedLetter (-2)).user readTrap) = .ok (1, k₁) ∧
      (k₁.ptable 0).mem 16 = 0x5f) ∧
    ∃ k₂, (sysDecr mkfsSuperblock).run ((sealedLetter (-2)).user (trapWith 1)) = .ok (0, k₂) ∧
      fileOf mkfsSuperblock 1 k₂ = ([0x61], 1, 0) :=
  ⟨still_sealedLetter (by decide), by decide +kernel, ⟨_, run_eq_final (by decide +kernel), by decide +kernel⟩,
    _, run_eq_final (by decide +kernel), by decide +kernel⟩

end Xv6
