import Xv6.CryptCrash

/-!
# `sys_encr` and `sys_decr` on any descriptor

The calls compare the descriptor's kind with an inode type, so nothing but the key and the flag stops
them: they run on directories, on devices and on files that are not open for writing.
-/

namespace Xv6

open Prog

def Kernel.OnRegular (k : Kernel) : Prop :=
  ∃ fd f ip, k.proc.argfd 0 = some (fd, f) ∧ (k.ftable f).type = .FD_INODE ∧ (k.ftable f).ip = some ip ∧
    (k.fs.icache ip).d.type = T_FILE ∧ (k.ftable f).readable = true ∧ (k.ftable f).writable = true

def CryptCall.Fails (c : CryptCall) (k : Kernel) : Prop :=
  ∀ fd f, k.proc.argfd 0 = some (fd, f) → k.encrKey = -1 ∨ k.major f = c.flag

section

variable {sb : Superblock} {k : Kernel} {f : Nat}

theorem code_ne_dev (t : FdType) : t.code ≠ T_DEV.toNat := by
  cases t <;> decide

theorem CryptCall.exec_fails (sb : Superblock) {c : CryptCall} (h : c.Fails k) : ∃ r : Int, r < 0 ∧
    (c.exec sb).run k = .ok (r, k) := by
  have hw : wp (c.exec sb) (fun r k' => r < 0 ∧ k' = k) (fun _ => False) k := by
    rw [c.exec_eq, cryptFile]
    refine wp_bind.2 (wp_get.2 ?_)
    rcases ha : k.proc.argfd 0 with _ | ⟨fd, f⟩
    · exact ⟨by decide, rfl⟩
    · dsimp only
      by_cases hkey : k.encrKey = -1
      · rw [if_pos hkey]
        exact ⟨by decide, rfl⟩
      · rw [if_neg hkey, if_neg (code_ne_dev _), if_pos ((h fd f ha).resolve_left hkey)]
        exact ⟨by decide, rfl⟩
  obtain ⟨r, k', hr, hneg, rfl⟩ := hw.exists_ok
  exact ⟨r, hneg, hr⟩

theorem CryptCall.exec_passes {c : CryptCall} (h : ¬ c.Fails k) : wp (c.exec sb) (fun r _ => r = 0) (fun _ => True) k := by
  have hno := h
  rw [CryptCall.Fails] at hno
  push Not at hno
  obtain ⟨fd, f, ha, hkey, hmaj⟩ := hno
  rw [c.exec_eq, cryptFile]
  refine wp_bind.2 (wp_get.2 ?_)
  simp only [ha, hkey, code_ne_dev, hmaj, if_false]
  refine wp.bind ((wp_run).mono (fun _ _ _ => trivial) fun _ _ => trivial) fun ip k₁ _ => ?_
  exact wp.bind ((wp_run).mono (fun _ _ _ => trivial) fun _ _ => trivial) fun _ _ _ => rfl

/-- The call returns a negative code and changes nothing, on anything but a regular file open for reading and
writing, exactly if one of its tests fails there. -/
theorem crypt_refuses_iff (c : CryptCall) (sb : Superblock) (k : Kernel) :
    (¬ k.OnRegular → ∃ r k', (c.exec sb).run k = .ok (r, k') ∧ r < 0 ∧ k' = k) ↔
      k.OnRegular ∨ ∀ fd f, k.proc.argfd 0 = some (fd, f) → k.encrKey = -1 ∨ k.major f = c.flag := by
  by_cases hreg : k.OnRegular
  · exact iff_of_true (fun hno => absurd hreg hno) (.inl hreg)
  · refine ⟨fun h => .inr ?_, fun h _ => ?_⟩
    · obtain ⟨r, k', hr, hneg, -⟩ := h hreg
      by_contra hno
      have hz : r = 0 := wp.of_ok (CryptCall.exec_passes hno) hr
      omega
    · obtain ⟨r, hneg, hr⟩ := CryptCall.exec_fails sb (h.resolve_left hreg)
      exact ⟨r, k, hr, hneg, rfl⟩

end

/-- `encr` on the root directory, open for reading only, returns 0: the inode number 1 of its entry `.` becomes 17. -/
theorem encr_changes_directory : ¬ (opened.user (trapWith 0)).OnRegular ∧
    (CryptCall.encr.exec mkfsSuperblock).run (opened.user (trapWith 0)) = .ok (0, encrypted) ∧
    (opened.ftable 0).writable = false ∧ (dinodeOf mkfsSuperblock opened.fs.dev.cache 1).type = T_DIR ∧
    (opened.fs.dev.cache 63).data 0 = 1 ∧ (encrypted.fs.dev.cache 63).data 0 = 17 := by
  refine ⟨?_, run_eq_final (by decide +kernel), by decide +kernel, by decide +kernel, by decide +kernel, by decide +kernel⟩
  rintro ⟨fd, f, ip, ha, -, -, -, -, hw⟩
  have harg : (opened.user (trapWith 0)).proc.argfd 0 = some (0, 0) := by decide +kernel
  obtain ⟨-, rfl⟩ := Prod.mk.inj (Option.some.inj (harg.symm.trans ha))
  have hro : ((opened.user (trapWith 0)).ftable 0).writable = false := by decide +kernel
  rw [hro] at hw
  cases hw

end Xv6
