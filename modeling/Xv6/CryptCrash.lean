import Xv6.CryptRoundTrip

/-!
# A crash during `sys_encr` or `sys_decr`

The calls commit after every ten blocks, so the log makes each batch atomic but not the file: after a
crash and recovery the first batches may be transformed while the flag still says that nothing is.
-/

namespace Xv6

open Prog

inductive CryptCall
  | encr
  | decr
deriving DecidableEq, Repr

namespace CryptCall

def exec (sb : Superblock) : CryptCall → KM Int
  | encr => sysEncr sb
  | decr => sysDecr sb

def flag : CryptCall → BitVec 16
  | encr => 1
  | decr => 0

def byte : CryptCall → BitVec 32 → Byte → Byte
  | encr => encrByte
  | decr => decrByte

theorem exec_eq (sb : Superblock) (c : CryptCall) : c.exec sb = cryptFile sb c.flag c.byte := by
  cases c <;> rfl

end CryptCall

/-- The file `i` on the disk `D`, when `n` of the bytes `bs` are transformed. -/
def PartDone (sb : Superblock) (i : Nat) (d : Dinode) (h : Byte → Byte) (bs : List Byte) (n : Nat) (D : Image) : Prop :=
  dinodeOf sb D i = d ∧ contents D d = applyOn h 0 n bs

/-- The file `i` on the disk `D` when the call is complete. -/
def AllDone (sb : Superblock) (i : Nat) (d : Dinode) (flag : BitVec 16) (h : Byte → Byte) (bs : List Byte) (D : Image) : Prop :=
  dinodeOf sb D i = { d with major := flag } ∧ contents D { d with major := flag } = bs.map h

section

variable {sb : Superblock} {i f ip : Nat} {d : Dinode} {k : Kernel}

/-- After a crash at any disk write of the call, and any further crashes during recovery, the file is transformed
in its first batches of ten blocks under the old flag, or entirely under the new one; with less than ten
blocks it is in its old or its new form. -/
theorem crypt_crash (c : CryptCall) (hL : Layout sb) (hlog : 12 ≤ sb.nlog) (h : Fresh sb i d f ip k)
    (hist : k.fs.dev.hist = []) (hkey : k.encrKey ≠ -1) (hm : d.major ≠ c.flag) :
    ∃ k', (c.exec sb).run k = .ok (0, k') ∧ ∀ x ∈ k.fs.dev.disk :: k'.fs.dev.hist, ∀ x', Crashes sb x x' → ∀ tape,
      ∃ s, (recoverFromLog sb).run (boot x' tape) = .ok ((), s) ∧
        ((∃ t, PartDone sb i d (c.byte k.encrKey) (contents k.fs.dev.cache d) (min d.size.toNat (5120 * t)) s.disk) ∨
          AllDone sb i d c.flag (c.byte k.encrKey) (contents k.fs.dev.cache d) s.disk) ∧
        (d.size.toNat ≤ 4608 → PartDone sb i d (c.byte k.encrKey) (contents k.fs.dev.cache d) 0 s.disk ∨
          AllDone sb i d c.flag (c.byte k.encrKey) (contents k.fs.dev.cache d) s.disk) := by
  obtain ⟨_, k', hr, rfl, -, hh⟩ := (cryptFile_spec c.flag c.byte hL hlog h hkey hm).exists_ok
  refine ⟨k', by rw [c.exec_eq]; exact hr, fun x hx x' hc tape => ?_⟩
  obtain ⟨V, hV, hstage⟩ : ∃ V, Recovers sb x V ∧ Stage sb i d c.flag (c.byte k.encrKey) (contents k.fs.dev.cache d) V := by
    rcases List.mem_cons.1 hx with rfl | hx
    · refine ⟨k.fs.dev.cache, .of_clean hL.logArea h.resting.logOk.clean fun b hb => h.resting.disk hb, .inl ⟨0, .inl rfl, ?_⟩⟩
      rw [applyOn_self (by omega)]
      exact h.resting.view.hasFile hL
    · rcases hh x hx with hx | hx
      · rw [hist] at hx
        cases hx
      · exact hx
  obtain ⟨_, s, hs, -, hdisk, -⟩ := (recover_spec hL.logArea (hc.recovers hL.logArea hV) tape).exists_ok
  refine ⟨s, hs, ?_⟩
  rcases hstage with ⟨t, ht, hfile⟩ | hfile
  · have hpart := hfile s.disk hdisk
    rw [length_contents] at ht hpart
    refine ⟨.inl ⟨t, hpart⟩, fun hle => .inl ?_⟩
    obtain rfl : t = 0 := by omega
    rwa [show min d.size.toNat (5120 * 0) = 0 by omega] at hpart
  · exact ⟨.inr (hfile s.disk hdisk), fun _ => .inr (hfile s.disk hdisk)⟩

end

/-! ### On short files -/

theorem crypt_crash_letter : ∃ k',
    (CryptCall.encr.exec mkfsSuperblock).run ((fileKernel 3 [0x61]).user (trapWith 0)) = .ok (0, k') ∧
    ∀ x ∈ k'.fs.dev.hist, ∃ s, (recoverFromLog mkfsSuperblock).run (boot x []) = .ok ((), s) ∧
      (PartDone mkfsSuperblock 1 (fileDinode 1 1) (encrByte 3) (contents (fileKernel 3 [0x61]).fs.dev.cache (fileDinode 1 1)) 0
          s.disk ∨
        AllDone mkfsSuperblock 1 (fileDinode 1 1) 1 (encrByte 3) (contents (fileKernel 3 [0x61]).fs.dev.cache (fileDinode 1 1))
          s.disk) := by
  obtain ⟨k', hr, h⟩ := crypt_crash .encr mkfs_layout (by decide) (fresh_fileKernel 3 [0x61] (by decide)) rfl (by decide)
    (by decide)
  refine ⟨k', hr, fun x hx => ?_⟩
  obtain ⟨s, hs, -, hshort⟩ := h x (List.mem_cons_of_mem _ hx) x (.refl x) []
  exact ⟨s, hs, hshort (by decide)⟩

def tenBlocks : Kernel := (openTwice 3 10 4609 fun _ => Block.zero _).user (trapWith 0)

theorem five_lt_hist : 5 < (Prog.final (sysEncr mkfsSuperblock) tenBlocks).fs.dev.hist.length := by decide +kernel

/-- A crash after the first of the two commits: the flag is still 0 but the first byte is transformed. -/
theorem encr_crash_between : ∃ k' x s, Fresh mkfsSuperblock 1 (fileDinode 10 4609) 0 0 tenBlocks ∧
    (sysEncr mkfsSuperblock).run tenBlocks = .ok (0, k') ∧ x ∈ k'.fs.dev.hist ∧
    (recoverFromLog mkfsSuperblock).run (boot x []) = .ok ((), s) ∧
    (dinodeOf mkfsSuperblock s.disk 1).major = 0 ∧ byteAt tenBlocks.fs.dev.cache (fileDinode 10 4609) 0 = 0 ∧
    byteAt s.disk (fileDinode 10 4609) 0 = 3 :=
  ⟨_, (Prog.final (sysEncr mkfsSuperblock) tenBlocks).fs.dev.hist.get ⟨5, five_lt_hist⟩, _,
    fresh_openTwice 3 (by decide) (by decide) _, run_eq_final (by decide +kernel), List.get_mem _ _,
    run_eq_final (by decide +kernel), by decide +kernel, by decide +kernel, by decide +kernel⟩

end Xv6
