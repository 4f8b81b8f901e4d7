import Xv6.CryptAny
import Xv6.CryptRace
import Xv6.LogCost
import Mathlib.Data.Set.Card

/-!
# The transactions of `sys_encr` and `sys_decr`

The loop starts at the descriptor's offset, wherever that is, and its last transaction gives a reference to
the inode back that it never took. Here are the transactions on a regular file from any state in which
nothing else is going on: what each does to the file and which blocks it logs, for every offset, length
and link count.
-/

namespace Xv6

open Prog Function

def Others (sb : Superblock) (i : Nat) (c c' : Image) : Prop :=
  ∀ j, j ≠ i → diskTable sb c' j = diskTable sb c j ∧ ∀ e, diskTable sb c j = some e → contents c' e = contents c e

/-- The bytes `[off, off')` of inode `i` were replaced by their images under `h`, and nothing else. -/
structure Rewrote (sb : Superblock) (i : Nat) (d : Dinode) (h : Byte → Byte) (off off' : Nat) (c c' : Image) : Prop where
  bytes : contents c' d = applyOn h off off' (contents c d)
  map : ∀ l, ptr c' d l = ptr c d l
  others : Others sb i c c'

/-- What the call leaves: the inode with its flag set, or, if the last reference to an inode without links was
given back, a free one. -/
structure Sealed (sb : Superblock) (i : Nat) (d : Dinode) (flag : BitVec 16) (h : Byte → Byte) (off : Nat) (dies : Prop)
    (c c' : Image) : Prop where
  others : Others sb i c c'
  kept : ¬ dies → diskTable sb c' i = some { d with major := flag } ∧ (∀ l, ptr c' { d with major := flag } l = ptr c d l) ∧
    contents c' { d with major := flag } = applyOn h off d.size.toNat (contents c d)
  freed : dies → dinodeOf sb c' i = { ({ d with major := flag } : Dinode).wiped with type := 0 }

section

variable {sb : Superblock} {i off off₁ off₂ : Nat} {d : Dinode} {flag : BitVec 16} {h : Byte → Byte} {dies : Prop}
  {c c₁ c₂ : Image} {v v' : Dev}

theorem Others.trans (h₁ : Others sb i c c₁) (h₂ : Others sb i c₁ c₂) : Others sb i c c₂ := fun j hj => by
  obtain ⟨ht₁, hb₁⟩ := h₁ j hj
  obtain ⟨ht₂, hb₂⟩ := h₂ j hj
  exact ⟨ht₂.trans ht₁, fun e he => (hb₂ e (ht₁.trans he)).trans (hb₁ e he)⟩

theorem InodeStored.others {o : Option Dinode} (hst : InodeStored sb i o v v') : Others sb i v.cache v'.cache :=
  fun j hj => ⟨hst.other hj, fun e he => hst.bytes j e hj he⟩

theorem FsOk.home_file (hL : Layout sb) (hfs : FsOk sb v (diskTable sb v.cache)) (hh : HeadOk sb v'.log.lh)
    (hc : ∀ b, Home sb b → v'.cache b = v.cache b) :
    (∀ j, dinodeOf sb v'.cache j = dinodeOf sb v.cache j) ∧ Others sb i v.cache v'.cache ∧
      ∀ j e, diskTable sb v.cache j = some e → contents v'.cache e = contents v.cache e ∧ ∀ l,
        ptr v'.cache e l = ptr v.cache e l := by
  have hdin : ∀ j, dinodeOf sb v'.cache j = dinodeOf sb v.cache j := fun j =>
    dinodeOf_congr (hc _ (hL.home_of_le (inodestart_le_iblock sb j)))
  have hbytes : ∀ j e, diskTable sb v.cache j = some e → contents v'.cache e = contents v.cache e := fun j e he =>
    contents_congr rfl fun k _ => (hfs.home hL hh hc).2 j e he k
  exact ⟨hdin, fun j _ => ⟨by rw [diskTable_congr fun j _ => hdin j], hbytes j⟩, fun j e he =>
    ⟨hbytes j e he, hfs.ptr_home hL hc he⟩⟩

theorem Rewrote.seal (h₁ : Rewrote sb i d h off off₁ c c₁) (h₂ : Sealed sb i d flag h off₁ dies c₁ c₂) (hle : off ≤ off₁)
    (hle' : off₁ ≤ d.size.toNat) : Sealed sb i d flag h off dies c c₂ := by
  refine ⟨h₁.others.trans h₂.others, fun hk => ?_, h₂.freed⟩
  obtain ⟨hd, hmap, hbytes⟩ := h₂.kept hk
  exact ⟨hd, fun l => (hmap l).trans (h₁.map l), by rw [hbytes, h₁.bytes, applyOn_trans hle hle']⟩

end

/-! ### A transaction -/

/-- From `begin_op` to the end of the rounds. -/
def cryptRounds (sb : Superblock) (g : BitVec 32 → Byte → Byte) (f ip : Nat) : KM Bool := do
  beginOpK
  onFs (ilock sb ip)
  cryptBatch sb g f ip 10

/-- A transaction of the loop up to its `end_op`. -/
def cryptBracket (sb : Superblock) (flag : BitVec 16) (g : BitVec 32 → Byte → Byte) (f ip : Nat) : KM Bool := do
  beginOpK
  cryptSegment sb flag g f ip

def Dies (d : Dinode) (e : Inode) : Prop := d.nlink = 0 ∧ e.ref = 1

def bitmapsOf (sb : Superblock) (c : Image) (d : Dinode) : Set Nat := {b | ∃ l, ptr c d l ≠ 0 ∧ b = bblock sb (ptr c d l)}

/-- The rounds of a transaction have got to `off'`; the entry is as `e` says. -/
structure Rounds (sb : Superblock) (f ip i : Nat) (d : Dinode) (h : Byte → Byte) (off off' : Nat) (e : Inode) (k k' : Kernel) :
    Prop where
  view : View sb ip i d k'.fs
  eq : k' = { k with fs := k'.fs, ftable := update k.ftable f { k.ftable f with off := off' } }
  icache : k'.fs.icache = update k.fs.icache ip e
  rewrote : Rewrote sb i d h off off' k.fs.dev.cache k'.fs.dev.cache
  out : k'.fs.dev.log.outstanding = 1
  committing : k'.fs.dev.log.committing = false
  lh : ∀ b, b ∈ k'.fs.dev.log.lh ↔ b ∈ dataBlocks k.fs.dev.cache d off (off' - off)

/-- The last transaction before its `end_op`. -/
structure Finale (sb : Superblock) (ip i : Nat) (d : Dinode) (flag : BitVec 16) (h : Byte → Byte) (off : Nat) (k k' : Kernel) :
    Prop where
  fs : FsOk sb k'.fs.dev (diskTable sb k'.fs.dev.cache)
  out : k'.fs.dev.log.outstanding = 1
  committing : k'.fs.dev.log.committing = false
  done : Sealed sb i d flag h off (Dies d (k.fs.icache ip)) k.fs.dev.cache k'.fs.dev.cache
  lh : ∀ b, b ∈ k'.fs.dev.log.lh ↔ b ∈ dataBlocks k.fs.dev.cache d off (d.size.toNat - off) ∨ b = iblock sb i ∨
    Dies d (k.fs.icache ip) ∧ b ∈ bitmapsOf sb k.fs.dev.cache d

section

variable {sb : Superblock} {f ip i off off' : Nat} {d : Dinode} {k k₁ k₂ : Kernel} {h : Byte → Byte}

theorem cryptLoop_bracket (flag : BitVec 16) (g : BitVec 32 → Byte → Byte) (fuel : Nat) :
    cryptLoop sb flag g f ip (fuel + 1) = (do
      let more ← cryptBracket sb flag g f ip
      endOpK sb
      if more = true then cryptLoop sb flag g f ip fuel else pure ()) := by
  rw [cryptLoop_succ, cryptBracket]
  simp only [bind_assoc]

theorem cryptBracket_rounds (flag : BitVec 16) (g : BitVec 32 → Byte → Byte) : cryptBracket sb flag g f ip = (do
    let more ← cryptRounds sb g f ip
    if more = true then do
      onFs (iunlock ip)
      pure true
    else do
      onFs (setFields sb ip fun d => { d with major := flag })
      onFs (iunlockput sb ip)
      pure false) := by
  rw [cryptBracket, cryptSegment, cryptRounds]
  simp only [bind_assoc]

theorem Still.rounds (hL : Layout sb) (hk : Still sb ip i d k) (ht : d.type ≠ T_DEV) (ho : (k.ftable f).off = off)
    (hoff : off < 2 ^ 32) (g : BitVec 32 → Byte → Byte) :
    wp (cryptRounds sb g f ip) (fun more k' => (more = true ↔ off + 4608 < d.size.toNat) ∧
      Rounds sb f ip i d (g k.encrKey) off (max off (min d.size.toNat (off + 5120))) { k.fs.icache ip with locked := true } k k')
      (fun _ => True) k := by
  refine wp.bind (wp.mono (hk.beginOp hL) (fun _ _ => id) fun _ => False.elim) ?_
  rintro _ k₁ ⟨e₁, hv₁, hi₁, hd₁⟩
  refine wp.bind (wp.mono (onFs_spec (hv₁.ilock (by rw [hi₁]; exact hk.unlocked))) (fun _ _ => id) fun _ => False.elim) ?_
  rintro _ k₂ ⟨e₂, s₂⟩
  have hv₂ : View sb ip i d k₂.fs := by
    rw [s₂]
    exact hv₁.set hv₁.pos rfl rfl rfl rfl
  have hd₂ : k₂.fs.dev = { k.fs.dev with log := ⟨1, false, []⟩ } := by rw [s₂, hd₁]
  have hkey : k₂.encrKey = k.encrKey := by rw [e₂, e₁]
  have ho₂ : (k₂.ftable f).off = off := by
    rw [e₂, e₁]
    exact ho
  refine wp.mono (cryptBatch_spec (P := False) hL ht g 10 hv₂ ho₂ hoff False.elim) ?_ fun _ _ => trivial
  rintro more k₃ ⟨hmore, h₃⟩
  have hlh := h₃.lh
  have hbytes := h₃.bytes
  have hmap := h₃.map
  have hstep := h₃.step
  have hst := h₃.stored.others
  rw [hkey] at hbytes
  rw [hd₂] at hlh hbytes hmap hstep hst
  refine ⟨hmore.trans (by omega), h₃.view, ?_, ?_, ⟨hbytes, hmap, hst⟩, hstep.out, hstep.committing, fun b => ?_⟩
  · rw [h₃.eq, e₂, e₁]
  · rw [h₃.icache, s₂, hi₁]
  · rw [hlh]
    simp

theorem Rounds.pause (hr : Rounds sb f ip i d h off off' { k.fs.icache ip with locked := true } k k₁)
    (hu : (k.fs.icache ip).locked = false) :
    wp (do
      onFs (iunlock ip)
      pure true) (fun more k' => more = true ∧ Rounds sb f ip i d h off off' (k.fs.icache ip) k k') (fun _ => True) k₁ := by
  have hl : (k₁.fs.icache ip).locked = true := by rw [hr.icache, update_self]
  refine wp.bind (wp.mono (onFs_spec (hr.view.iunlock hl)) (fun _ _ => id) fun _ => False.elim) ?_
  rintro _ k₂ ⟨e₂, s₂⟩
  have hd₂ : k₂.fs.dev = k₁.fs.dev := by rw [s₂]
  refine ⟨rfl, ?_, ?_, ?_, ?_, ?_, ?_, ?_⟩
  · rw [s₂]
    exact hr.view.set hr.view.pos rfl rfl rfl rfl
  · rw [e₂, hr.eq]
  · rw [s₂]
    simp only [hr.icache, update_idem, update_self]
    rw [← hu]
  · rw [hd₂]
    exact hr.rewrote
  · rw [hd₂]
    exact hr.out
  · rw [hd₂]
    exact hr.committing
  · rw [hd₂]
    exact hr.lh

theorem Rounds.finale (hL : Layout sb) (flag : BitVec 16)
    (hr : Rounds sb f ip i d h off (max off d.size.toNat) { k.fs.icache ip with locked := true } k k₁) :
    wp (do
      onFs (setFields sb ip fun d => { d with major := flag })
      onFs (iunlockput sb ip)
      pure false) (fun more k' => more = false ∧ Finale sb ip i d flag h off k k') (fun _ => True) k₁ := by
  refine wp.bind (wp.mono (onFs_spec (hr.view.setFields (P := False) (g := fun d => { d with major := flag }) hL rfl rfl rfl
    False.elim)) (fun _ _ => id) fun _ _ => trivial) ?_
  rintro _ k₂ ⟨e₂, h₂, hb₂⟩
  have hl₂ : (k₂.fs.icache ip).locked = true := by
    rw [h₂.icache, update_self]
    simp only [hr.icache, update_self]
  have href : (k₂.fs.icache ip).ref = (k.fs.icache ip).ref := by
    rw [h₂.icache, update_self]
    simp only [hr.icache, update_self]
  have hbytes : contents k₂.fs.dev.cache { d with major := flag } = applyOn h off d.size.toNat (contents k.fs.dev.cache d) := by
    rw [hb₂, hr.rewrote.bytes]
    by_cases hle : off ≤ d.size.toNat
    · rw [Nat.max_eq_right hle]
    · rw [Nat.max_eq_left (by omega), applyOn_self (Nat.le_refl off), applyOn_self (by omega)]
  have hmap : ∀ l, ptr k₂.fs.dev.cache { d with major := flag } l = ptr k.fs.dev.cache d l := fun l => by
    rw [h₂.map, hr.view.d, hr.rewrote.map]
  have hlh : ∀ b, b ∈ k₂.fs.dev.log.lh ↔ b ∈ dataBlocks k.fs.dev.cache d off (d.size.toNat - off) ∨ b = iblock sb i := fun b => by
    rw [h₂.lh, hr.lh, show max off d.size.toNat - off = d.size.toNat - off by omega]
    rfl
  have ho₂ := hr.rewrote.others.trans h₂.stored.others
  by_cases hdies : Dies d (k.fs.icache ip)
  · refine wp.bind (wp.mono (onFs_spec (h₂.view.iunlockput_last hL hl₂ hdies.1 (href.trans hdies.2))) (fun _ _ => id)
      fun _ _ => trivial) ?_
    rintro _ k₃ ⟨e₃, hst, hdin, hlh₃⟩
    refine ⟨rfl, hst.fs, ?_, ?_, ⟨ho₂.trans hst.others, fun hno => absurd hdies hno, fun _ => hdin⟩, fun b => ?_⟩
    · rw [hst.frame.out, h₂.step.out, hr.out]
    · rw [hst.frame.committing, h₂.step.committing, hr.committing]
    · rw [hlh₃, hlh]
      simp only [hmap, hdies, true_and, bitmapsOf, Set.mem_setOf_eq]
      tauto
  · refine wp.bind (wp.mono (onFs_spec (h₂.view.iunlockput hl₂ fun hz h1 => hdies ⟨hz, href.symm.trans h1⟩)) (fun _ _ => id)
      fun _ => False.elim) ?_
    rintro _ k₃ ⟨e₃, s₃⟩
    have hd₃ : k₃.fs.dev = k₂.fs.dev := by rw [s₃]
    refine ⟨rfl, ?_, ?_, ?_, ⟨?_, fun _ => ⟨?_, ?_, ?_⟩, fun hc => absurd hc hdies⟩, fun b => ?_⟩
    · rw [hd₃]
      exact h₂.view.ok.fs
    · rw [hd₃, h₂.step.out, hr.out]
    · rw [hd₃, h₂.step.committing, hr.committing]
    · rw [hd₃]
      exact ho₂
    · rw [hd₃]
      exact h₂.view.table
    · rw [hd₃]
      exact hmap
    · rw [hd₃]
      exact hbytes
    · rw [hd₃, hlh]
      simp only [hdies, false_and, or_false]

theorem Still.cryptBracket (hL : Layout sb) (hk : Still sb ip i d k) (ht : d.type ≠ T_DEV) (ho : (k.ftable f).off = off)
    (hoff : off < 2 ^ 32) (flag : BitVec 16) (g : BitVec 32 → Byte → Byte) :
    wp (cryptBracket sb flag g f ip) (fun more k' =>
      (more = true ∧ off + 4608 < d.size.toNat ∧
        Rounds sb f ip i d (g k.encrKey) off (min d.size.toNat (off + 5120)) (k.fs.icache ip) k k') ∨
      (more = false ∧ d.size.toNat ≤ off + 4608 ∧ Finale sb ip i d flag (g k.encrKey) off k k')) (fun _ => True) k := by
  rw [cryptBracket_rounds]
  refine wp.bind (hk.rounds hL ht ho hoff g) ?_
  rintro more k₁ ⟨hmore, h₁⟩
  split
  · next hm =>
    have hlt := hmore.1 hm
    rw [Nat.max_eq_right (by omega)] at h₁
    exact (h₁.pause hk.unlocked).post fun _ _ hp => .inl ⟨hp.1, hlt, hp.2⟩
  · next hm =>
    have hge : ¬ off + 4608 < d.size.toNat := fun hlt => hm (hmore.2 hlt)
    rw [Nat.min_eq_left (by omega)] at h₁
    exact (h₁.finale hL flag).post fun _ _ hp => .inr ⟨hp.1, by omega, hp.2⟩

theorem Rounds.endOp (hL : Layout sb) (hu : (k.fs.icache ip).locked = false)
    (hr : Rounds sb f ip i d h off off' (k.fs.icache ip) k k₁) :
    wp (endOpK sb) (fun _ k' => Still sb ip i d k' ∧ k'.fs.icache ip = k.fs.icache ip ∧ (k'.ftable f).off = off' ∧
      k'.encrKey = k.encrKey ∧ Rewrote sb i d h off off' k.fs.dev.cache k'.fs.dev.cache) (fun _ => False) k₁ := by
  have hi₁ : k₁.fs.icache ip = k.fs.icache ip := by rw [hr.icache, update_self]
  refine (AtEnd.endOp hL ⟨hr.view, by rw [hi₁]; exact hu, hr.out, hr.committing⟩).post ?_
  rintro _ k₂ ⟨e₂, hk₂, hi₂, hc₂⟩
  obtain ⟨-, hothers, hself⟩ := hr.view.ok.fs.home_file (i := i) hL hk₂.view.ok.fs.head hc₂
  obtain ⟨hbytes, hmap⟩ := hself i d hr.view.table
  refine ⟨hk₂, by rw [hi₂, hi₁], ?_, ?_, by rw [hbytes, hr.rewrote.bytes], fun l => by rw [hmap, hr.rewrote.map],
    hr.rewrote.others.trans hothers⟩
  · rw [e₂, hr.eq]
    simp
  · rw [e₂, hr.eq]

theorem Finale.endOp (hL : Layout sb) {flag : BitVec 16} (hf : Finale sb ip i d flag h off k k₁) :
    wp (endOpK sb) (fun _ k' => Sealed sb i d flag h off (Dies d (k.fs.icache ip)) k.fs.dev.cache k'.fs.dev.cache)
      (fun _ => False) k₁ := by
  refine wp.post (onFs_spec (onDev_spec (endOp_alone hL.logArea hf.fs.head hf.out hf.committing))) ?_
  rintro _ k₂ ⟨-, -, hlog, hc⟩
  have hhead : HeadOk sb k₂.fs.dev.log.lh := by
    rw [hlog]
    exact .nil hL.logArea
  obtain ⟨hdin, hothers, hself⟩ := hf.fs.home_file (i := i) hL hhead hc
  refine ⟨hf.done.others.trans hothers, fun hno => ?_, fun hdies => by rw [hdin, hf.done.freed hdies]⟩
  obtain ⟨htab, hmap, hbytes⟩ := hf.done.kept hno
  obtain ⟨hbytes₂, hmap₂⟩ := hself i _ htab
  exact ⟨by rw [diskTable_congr fun j _ => hdin j, htab], fun l => by rw [hmap₂, hmap], by rw [hbytes₂, hbytes]⟩

/-! ### The call -/

theorem Still.cryptLoop (hL : Layout sb) (ht : d.type ≠ T_DEV) (flag : BitVec 16) (g : BitVec 32 → Byte → Byte) (fuel : Nat)
    (hk : Still sb ip i d k) (ho : (k.ftable f).off = off) (hoff : off < 2 ^ 32) :
    wp (cryptLoop sb flag g f ip fuel) (fun _ k' =>
      Sealed sb i d flag (g k.encrKey) off (Dies d (k.fs.icache ip)) k.fs.dev.cache k'.fs.dev.cache) (fun _ => True) k := by
  induction fuel generalizing k off with
  | zero => trivial
  | succ fuel ih =>
    rw [cryptLoop_bracket]
    refine wp.bind (hk.cryptBracket hL ht ho hoff flag g) ?_
    rintro _ k₁ (⟨rfl, hlt, hr⟩ | ⟨rfl, -, hf⟩)
    · refine wp.bind (wp.mono (hr.endOp hL hk.unlocked) (fun _ _ => id) fun _ => False.elim) ?_
      rintro _ k₂ ⟨hk₂, hi₂, ho₂, hkey₂, hrew⟩
      have hsize := hk.view.fileOk.size_le
      refine (ih hk₂ ho₂ (by omega)).post ?_
      intro _ k₃ hs
      rw [hkey₂, hi₂] at hs
      exact hrew.seal hs (by omega) (by omega)
    · refine wp.bind (wp.mono (hf.endOp hL) (fun _ _ => id) fun _ => False.elim) ?_
      intro _ k₂ hs
      exact hs

/-- The descriptor `fd` of the caller stands for the regular file of inode `i`, and nothing else is going on. -/
structure CryptTarget (sb : Superblock) (fd f ip i : Nat) (d : Dinode) (k : Kernel) : Prop where
  still : Still sb ip i d k
  arg : k.proc.argfd 0 = some (fd, f)
  ip : (k.ftable f).ip = some ip
  type : d.type = T_FILE
  off : (k.ftable f).off < 2 ^ 32

theorem CryptCall.exec_loop {c : CryptCall} {fd : Nat} (ha : k.proc.argfd 0 = some (fd, f)) (hip : (k.ftable f).ip = some ip)
    (hr : (c.exec sb).run k = .ok (0, k₁)) : ∃ fuel, (cryptLoop sb c.flag c.byte f ip fuel).run k = .ok ((), k₁) := by
  have hw : wp (c.exec sb) (fun r k' => r = 0 → ∃ fuel, (cryptLoop sb c.flag c.byte f ip fuel).run k = .ok ((), k'))
      (fun _ => True) k := by
    rw [c.exec_eq, cryptFile]
    refine wp_bind.2 (wp_get.2 ?_)
    rw [ha]
    dsimp only
    rw [hip]
    split
    · exact fun hc => absurd hc (by decide)
    split
    · exact fun hc => absurd hc (by decide)
    split
    · exact fun hc => absurd hc (by decide)
    · refine wp_bind.2 (show wp (cryptLoop sb c.flag c.byte f ip _ >>= fun _ => pure 0) _ _ k from ?_)
      refine wp.bind (wp.mono wp_run (fun _ _ => id) fun _ _ => trivial) ?_
      rintro _ k' hrun _
      exact ⟨_, hrun⟩
  exact hw.of_ok hr rfl

structure Covers (sb : Superblock) (i : Nat) (d : Dinode) (h : Byte → Byte) (flag : BitVec 16) (c c' : Image) : Prop where
  bytes : contents c' (dinodeOf sb c' i) = (contents c d).map h
  size : (dinodeOf sb c' i).size = d.size
  map : ∀ l, ptr c' (dinodeOf sb c' i) l = ptr c d l
  nlink : (dinodeOf sb c' i).nlink = d.nlink
  major : (dinodeOf sb c' i).major = flag
  others : Others sb i c c'

theorem applyOn_eq_map {bs : List Byte} :
    applyOn h off bs.length bs = bs.map h ↔ ∀ b ∈ bs.take off, h b = b := by
  constructor
  · intro he b hb
    obtain ⟨j, hj, rfl⟩ := List.getElem_of_mem hb
    rw [List.length_take] at hj
    have hlt : j < bs.length := by omega
    have := List.getElem_of_eq he (by rw [length_applyOn]; exact hlt)
    rw [getElem_applyOn _ hlt, if_neg (by omega), List.getElem_map] at this
    rw [List.getElem_take, ← this]
  · intro hfix
    refine List.ext_getElem (by simp) fun j hj _ => ?_
    simp only [length_applyOn] at hj
    rw [getElem_applyOn _ hj, List.getElem_map]
    split
    · rfl
    · refine (hfix _ (List.mem_take_iff_getElem.2 ⟨j, by omega, rfl⟩)).symm

theorem Sealed.covers_freed {flag : BitVec 16} {e : Inode} {c c' : Image}
    (hs : Sealed sb i d flag h off (Dies d e) c c') (hf : FileOk c d)
    (hdies : Dies d e) : Covers sb i d h flag c c' ↔ (∀ b ∈ (contents c d).take off, h b = b) ∧
      (d.nlink ≠ 0 ∨ e.ref ≠ 1 ∨ ∀ l, ptr c d l = 0) := by
  have hd := hs.freed hdies
  have hwiped : ∀ l, ptr c' (dinodeOf sb c' i) l = 0 := fun l => by
    rw [hd]
    exact ptr_of_addr_zero (fun j hj => addr_wiped hj) l
  -- without blocks the file is empty
  have hempty : (∀ l, ptr c d l = 0) → d.size = 0 ∧ contents c d = [] := fun hz => by
    have h0 : d.size.toNat = 0 := by
      by_contra hne
      exact hf.mapped 0 (by omega) (hz _)
    exact ⟨BitVec.eq_of_toNat_eq h0, List.eq_nil_of_length_eq_zero (by rw [length_contents, h0])⟩
  constructor
  · intro hc
    have hz : ∀ l, ptr c d l = 0 := fun l => by rw [← hc.map, hwiped]
    rw [(hempty hz).2]
    exact ⟨fun b hb => by simp at hb, .inr (.inr hz)⟩
  · rintro ⟨-, hor⟩
    have hz : ∀ l, ptr c d l = 0 := (hor.resolve_left fun hne => hne hdies.1).resolve_left fun hne => hne hdies.2
    obtain ⟨hsize, hnil⟩ := hempty hz
    refine ⟨?_, by rw [hd, hsize]; rfl, fun l => by rw [hwiped, hz], by rw [hd]; rfl, by rw [hd]; rfl, hs.others⟩
    rw [hnil, hd]
    exact List.eq_nil_of_length_eq_zero (length_contents ..)

/-- A call that returns 0 has covered the file exactly if the bytes in front of the descriptor's offset do not change
under the formula, and the inode is not freed or had no blocks. -/
theorem crypt_covers_iff {fd : Nat} (c : CryptCall) (hL : Layout sb) (hk : CryptTarget sb fd f ip i d k)
    (hr : (c.exec sb).run k = .ok (0, k₁)) :
    Covers sb i d (c.byte k.encrKey) c.flag k.fs.dev.cache k₁.fs.dev.cache ↔
      (∀ b ∈ (contents k.fs.dev.cache d).take (k.ftable f).off, c.byte k.encrKey b = b) ∧
        (d.nlink ≠ 0 ∨ (k.fs.icache ip).ref ≠ 1 ∨ ∀ l, ptr k.fs.dev.cache d l = 0) := by
  obtain ⟨fuel, hrun⟩ := CryptCall.exec_loop hk.arg hk.ip hr
  have hs := (hk.still.cryptLoop hL (by rw [hk.type]; decide) c.flag c.byte fuel rfl hk.off).of_ok hrun
  have hlen : (contents k.fs.dev.cache d).length = d.size.toNat := length_contents ..
  by_cases hdies : Dies d (k.fs.icache ip)
  · exact hs.covers_freed hk.still.view.fileOk hdies
  · obtain ⟨htab, hmap, hbytes⟩ := hs.kept hdies
    have hd := (diskTable_some htab).2.2.2
    have hor : d.nlink ≠ 0 ∨ (k.fs.icache ip).ref ≠ 1 ∨ ∀ l, ptr k.fs.dev.cache d l = 0 := by
      by_cases hz : d.nlink = 0
      · exact .inr (.inl fun h1 => hdies ⟨hz, h1⟩)
      · exact .inl hz
    rw [and_iff_left hor, ← applyOn_eq_map, hlen, ← hbytes]
    constructor
    · intro hc
      have := hc.bytes
      rwa [hd] at this
    · intro hb
      exact ⟨by rw [hd, hb], by rw [hd], by rw [hd]; exact hmap, by rw [hd], by rw [hd], hs.others⟩

end

/-- A file of `size` bytes in `m` blocks, open at the offset `off` in the descriptors 0 and 1 of process 0. -/
def openAt (key : BitVec 32) (m size off : Nat) (data : Nat → Blk) : Kernel :=
  { (openTwice key m size data).user (trapWith 0) with
    ftable := fun f => { (openTwice key m size data).ftable f with off := off } }

theorem target_openAt (key : BitVec 32) {m size off : Nat} (hm : m ≤ 11) (hsize : size ≤ 512 * m) (hoff : off < 2 ^ 32)
    (data : Nat → Blk) : CryptTarget mkfsSuperblock 0 0 0 1 (fileDinode m size) (openAt key m size off data) := by
  have harg : ((openTwice key m size data).user (trapWith 0)).proc.argfd 0 = some (0, 0) := by
    rw [argfd_trapWith rfl]
    decide +kernel
  exact ⟨⟨(fresh_openTwice key hm hsize data).resting.view, rfl, rfl⟩, harg, rfl, rfl, hoff⟩

/-- The letter `a`, to be encrypted with the key 3 from the offset `off` on. -/
def letterAt (off : Nat) : Kernel := openAt 3 1 1 off fun b => if b = 63 then blkOf [0x61] else Block.zero _

/-- From the beginning the whole file is encrypted. -/
theorem crypt_covers_letter : ∃ k', (CryptCall.encr.exec mkfsSuperblock).run (letterAt 0) = .ok (0, k') ∧
    Covers mkfsSuperblock 1 (fileDinode 1 1) (encrByte 3) 1 (letterAt 0).fs.dev.cache k'.fs.dev.cache := by
  have hrun : (CryptCall.encr.exec mkfsSuperblock).run (letterAt 0) = .ok (0, _) := run_eq_final (by decide +kernel)
  refine ⟨_, hrun, (crypt_covers_iff .encr mkfs_layout (target_openAt 3 (by decide) (by decide) (by decide) _) hrun).2 ⟨?_, ?_⟩⟩
  · intro b hb
    cases hb
  · exact .inl (by decide)

/-- Behind a byte that was read before, the call returns 0 and sets the flag, but the byte stays what it was. -/
theorem encr_skips_letter : ∃ k', (CryptCall.encr.exec mkfsSuperblock).run (letterAt 1) = .ok (0, k') ∧
    (dinodeOf mkfsSuperblock k'.fs.dev.cache 1).major = 1 ∧
    contents (letterAt 1).fs.dev.cache (fileDinode 1 1) = [0x61] ∧ encrByte 3 0x61 = 0x64 ∧
    contents k'.fs.dev.cache (dinodeOf mkfsSuperblock k'.fs.dev.cache 1) = [0x61] :=
  ⟨_, run_eq_final (by decide +kernel), by decide +kernel, by decide +kernel, by decide +kernel, by decide +kernel⟩

/-! ### What a transaction logs -/

section

variable {sb : Superblock} {f ip i off off' : Nat} {d : Dinode} {k k₁ k₂ : Kernel} {h : Byte → Byte}

instance (d : Dinode) (e : Inode) : Decidable (Dies d e) := inferInstanceAs (Decidable (_ ∧ _))

noncomputable def freeCost (sb : Superblock) (c : Image) (d : Dinode) (e : Inode) : Nat :=
  if Dies d e then (bitmapsOf sb c d).ncard else 0

/-- Where the last transaction of a call starts that begins at `off`. -/
def lastStart (off size : Nat) : Nat :=
  if off + 4608 < size then min size (off + 5120 * ((size - off - 4609) / 5120 + 1)) else off

/-- No transaction of a call that begins at `off` logs more than `MAXOPBLOCKS` blocks, when `m` blocks of the free map are
logged at the end. -/
def FitsBudget (off size m : Nat) : Prop :=
  (off % 512 = 0 ∨ size ≤ off / 512 * 512 + 5120) ∧
    blocksMet (lastStart off size) (size - lastStart off size) + 1 + m ≤ MAXOPBLOCKS

theorem lastStart_step {size : Nat} (hlt : off + 4608 < size) : lastStart (min size (off + 5120)) size = lastStart off size := by
  rw [lastStart, lastStart, if_pos hlt]
  split <;> omega

theorem fitsBudget_step {size m : Nat} (hlt : off + 4608 < size) :
    FitsBudget off size m ↔ blocksMet off (min size (off + 5120) - off) ≤ MAXOPBLOCKS ∧
      FitsBudget (min size (off + 5120)) size m := by
  have hmet : blocksMet off (min size (off + 5120) - off) = (min size (off + 5120) - 1) / 512 + 1 - off / 512 := by
    rw [blocksMet, if_neg (by omega), Nat.add_sub_cancel' (by omega)]
  rw [FitsBudget, FitsBudget, lastStart_step hlt, hmet, ← and_assoc]
  refine and_congr_left fun _ => ?_
  simp only [MAXOPBLOCKS]
  omega

theorem fitsBudget_last {size m : Nat} (hle : size ≤ off + 4608) :
    FitsBudget off size m ↔ blocksMet off (size - off) + 1 + m ≤ MAXOPBLOCKS := by
  have hstart : lastStart off size = off := if_neg (by omega)
  rw [FitsBudget, hstart]
  exact and_iff_right (.inr (by omega))

theorem ncard_dataBlocks {n : Nat} {s : Fs} (hv : View sb ip i d s) (hle : n = 0 ∨ off + n ≤ d.size.toNat) :
    (dataBlocks s.dev.cache d off n).ncard = blocksMet off n := by
  obtain rfl | hle := hle
  · rw [dataBlocks, dataAt_zero, Set.image_empty, Set.ncard_empty, blocksMet, if_pos rfl]
  have hsize := hv.fileOk.size_le
  have hset : dataAt off n = ↑(dataLocs off n) := Set.ext fun l => (Finset.mem_coe.trans mem_dataLocs).symm
  have hinj : Set.InjOn (ptr s.dev.cache d) ↑(dataLocs off n) := fun l hl l' _ he => by
    obtain ⟨k, h1, h2, rfl⟩ := mem_dataLocs.1 (Finset.mem_coe.1 hl)
    have hz := hv.fileOk.mapped (k / 512) (by omega)
    rw [← refs_some hv.table] at hz he
    rw [← refs_some hv.table] at he
    exact (Prod.ext_iff.1 (hv.ok.fs.owned.inj _ _ he hz)).2
  rw [dataBlocks, hset, hinj.ncard_image, Set.ncard_coe_finset, card_dataLocs (by omega)]

theorem le_of_mem_dataBlocks {n b : Nat} {s : Fs} (hv : View sb ip i d s) (hle : n = 0 ∨ off + n ≤ d.size.toNat)
    (hb : b ∈ dataBlocks s.dev.cache d off n) : sb.nmeta ≤ b := by
  obtain ⟨k, h1, h2, rfl⟩ := mem_dataBlocks.1 hb
  have hz := hv.fileOk.mapped (k / 512) (by omega)
  rw [← refs_some hv.table] at hz ⊢
  exact (hv.ok.fs.owned.range _ hz).1

theorem mem_bitmapsOf {b : Nat} {s : Fs} (hL : Layout sb) (hv : View sb ip i d s) (hb : b ∈ bitmapsOf sb s.dev.cache d) :
    sb.bmapstart ≤ b ∧ b < sb.nmeta := by
  obtain ⟨l, hz, rfl⟩ := hb
  rw [← refs_some hv.table] at hz ⊢
  exact ⟨bmapstart_le_bblock sb _, hL.bblock_lt (hv.ok.fs.owned.range _ hz).2⟩

theorem Rounds.card_lh {e : Inode} (hk : Still sb ip i d k) (hr : Rounds sb f ip i d h off off' e k k₁) (hle : off ≤ off')
    (hle' : off' ≤ d.size.toNat) : k₁.fs.dev.log.lh.toFinset.card = blocksMet off (off' - off) := by
  have hset : (↑k₁.fs.dev.log.lh.toFinset : Set Nat) = dataBlocks k.fs.dev.cache d off (off' - off) := by
    ext b
    rw [List.coe_toFinset]
    exact hr.lh b
  rw [← Set.ncard_coe_finset, hset, ncard_dataBlocks hk.view (.inr (by omega))]

theorem Finale.card_lh (hL : Layout sb) {flag : BitVec 16} (hk : Still sb ip i d k) (hf : Finale sb ip i d flag h off k k₁) :
    k₁.fs.dev.log.lh.toFinset.card = blocksMet off (d.size.toNat - off) + 1 + freeCost sb k.fs.dev.cache d (k.fs.icache ip) := by
  have hset : (↑k₁.fs.dev.log.lh.toFinset : Set Nat) = dataBlocks k.fs.dev.cache d off (d.size.toNat - off) ∪ {iblock sb i} ∪
      if Dies d (k.fs.icache ip) then bitmapsOf sb k.fs.dev.cache d else ∅ := by
    ext b
    rw [List.coe_toFinset]
    refine (hf.lh b).trans ?_
    split
    · next hd => simp only [hd, true_and, Set.mem_union, Set.mem_singleton_iff, or_assoc]
    · next hd => simp only [hd, false_and, or_false, Set.union_empty, Set.mem_union, Set.mem_singleton_iff]
  have hfin := Finset.finite_toSet k₁.fs.dev.log.lh.toFinset
  rw [hset] at hfin
  have hle : d.size.toNat - off = 0 ∨ off + (d.size.toNat - off) ≤ d.size.toNat := by omega
  have hib := hL.iblock_lt hk.view.inum_lt
  have hbm := hL.bmap_lt
  -- data blocks lie behind the free map, and the inodes in front of it
  have hdisj : Disjoint (dataBlocks k.fs.dev.cache d off (d.size.toNat - off)) {iblock sb i} := by
    refine Set.disjoint_singleton_right.2 fun hb => ?_
    have := le_of_mem_dataBlocks hk.view hle hb
    omega
  have hdisj' : Disjoint (dataBlocks k.fs.dev.cache d off (d.size.toNat - off) ∪ {iblock sb i})
      (if Dies d (k.fs.icache ip) then bitmapsOf sb k.fs.dev.cache d else ∅) := by
    refine Set.disjoint_left.2 fun b hb hb' => ?_
    split at hb'
    · have hmap := mem_bitmapsOf hL hk.view hb'
      rcases hb with hb | rfl
      · have := le_of_mem_dataBlocks hk.view hle hb
        omega
      · omega
    · exact hb'
  rw [← Set.ncard_coe_finset, hset, Set.ncard_union_eq hdisj' (hfin.subset Set.subset_union_left)
    (hfin.subset Set.subset_union_right),
    Set.ncard_union_eq hdisj ((hfin.subset Set.subset_union_left).subset Set.subset_union_left) (Set.finite_singleton _),
    ncard_dataBlocks hk.view hle, Set.ncard_singleton, freeCost, apply_ite Set.ncard, Set.ncard_empty]

end

/-- A call of `c` that starts in `k₀` begins a transaction in the state `k`. -/
inductive CryptBegins (sb : Superblock) (c : CryptCall) (f ip : Nat) (k₀ : Kernel) : Kernel → Prop
  | start : CryptBegins sb c f ip k₀ k₀
  | next {k k₁ k₂ : Kernel} (h : CryptBegins sb c f ip k₀ k)
      (hr : (cryptBracket sb c.flag c.byte f ip).run k = .ok (true, k₁)) (he : (endOpK sb).run k₁ = .ok ((), k₂)) :
      CryptBegins sb c f ip k₀ k₂

section

variable {sb : Superblock} {c : CryptCall} {f ip i off : Nat} {d : Dinode} {k k₀ k₁ k₂ : Kernel}

theorem CryptBegins.head (hr : (cryptBracket sb c.flag c.byte f ip).run k₀ = .ok (true, k₁))
    (he : (endOpK sb).run k₁ = .ok ((), k₂)) (h : CryptBegins sb c f ip k₂ k) : CryptBegins sb c f ip k₀ k := by
  induction h with
  | start => exact .next .start hr he
  | next _ hr' he' ih => exact .next ih hr' he'

/-- Every transaction of the call logs at most `MAXOPBLOCKS` blocks. -/
def Budgeted (sb : Superblock) (c : CryptCall) (f ip : Nat) (k₀ : Kernel) : Prop :=
  ∀ k more k', CryptBegins sb c f ip k₀ k → (cryptBracket sb c.flag c.byte f ip).run k = .ok (more, k') →
    k'.fs.dev.log.lh.toFinset.card ≤ MAXOPBLOCKS

theorem CryptBegins.fits (hL : Layout sb) (hk : Still sb ip i d k₀) (ht : d.type ≠ T_DEV) (hoff : (k₀.ftable f).off < 2 ^ 32)
    (hfit : FitsBudget (k₀.ftable f).off d.size.toNat (freeCost sb k₀.fs.dev.cache d (k₀.fs.icache ip)))
    (hb : CryptBegins sb c f ip k₀ k) : Still sb ip i d k ∧ (k.ftable f).off < 2 ^ 32 ∧
      FitsBudget (k.ftable f).off d.size.toNat (freeCost sb k.fs.dev.cache d (k.fs.icache ip)) := by
  induction hb with
  | start => exact ⟨hk, hoff, hfit⟩
  | @next k k₁ k₂ _ hr he ih =>
    obtain ⟨hs, ho, hf⟩ := ih
    have hsize := hs.view.fileOk.size_le
    rcases (hs.cryptBracket hL ht rfl ho c.flag c.byte).of_ok hr with ⟨-, hlt, hrd⟩ | ⟨hno, -⟩
    · obtain ⟨hs₂, hi₂, ho₂, -, hrew⟩ := (hrd.endOp hL hs.unlocked).of_ok he
      refine ⟨hs₂, by omega, ?_⟩
      have hcost : freeCost sb k₂.fs.dev.cache d (k₂.fs.icache ip) = freeCost sb k.fs.dev.cache d (k.fs.icache ip) := by
        simp only [freeCost, bitmapsOf, hrew.map, hi₂]
      rw [ho₂, hcost]
      exact ((fitsBudget_step hlt).1 hf).2
    · cases hno

theorem cryptLoop_budget (hL : Layout sb) (ht : d.type ≠ T_DEV) (fuel : Nat) (hk : Still sb ip i d k)
    (hoff : (k.ftable f).off < 2 ^ 32) :
    wp (cryptLoop sb c.flag c.byte f ip fuel) (fun _ _ => Budgeted sb c f ip k →
      FitsBudget (k.ftable f).off d.size.toNat (freeCost sb k.fs.dev.cache d (k.fs.icache ip))) (fun _ => True) k := by
  induction fuel generalizing k with
  | zero => trivial
  | succ fuel ih =>
    have hsize := hk.view.fileOk.size_le
    rw [cryptLoop_bracket]
    refine wp.bind (wp.mono ((hk.cryptBracket hL ht rfl hoff c.flag c.byte).and wp_run) (fun _ _ => id) fun _ _ => trivial) ?_
    rintro _ k₁ ⟨⟨rfl, hlt, hr⟩ | ⟨rfl, hle, hf⟩, hrun⟩
    · refine wp.bind (wp.mono ((hr.endOp hL hk.unlocked).and wp_run) (fun _ _ => id) fun _ he => he.1.elim) ?_
      rintro _ k₂ ⟨⟨hk₂, hi₂, ho₂, -, hrew⟩, hrun₂⟩
      refine (ih hk₂ (by omega)).post ?_
      intro _ k₃ hfit hbud
      have hcost : freeCost sb k₂.fs.dev.cache d (k₂.fs.icache ip) = freeCost sb k.fs.dev.cache d (k.fs.icache ip) := by
        simp only [freeCost, bitmapsOf, hrew.map, hi₂]
      have hcard := hbud k true k₁ .start hrun
      rw [hr.card_lh hk (by omega) (by omega)] at hcard
      have := hfit fun k' more k'' hb => hbud k' more k'' (hb.head hrun hrun₂)
      rw [ho₂, hcost] at this
      exact (fitsBudget_step hlt).2 ⟨hcard, this⟩
    · refine wp.bind (wp.mono (hf.endOp hL) (fun _ _ => id) fun _ => False.elim) ?_
      intro _ k₂ _ hbud
      have hcard := hbud k false k₁ .start hrun
      rw [hf.card_lh hL hk] at hcard
      exact (fitsBudget_last hle).2 hcard

/-- Every transaction of a call that returns 0 is within the budget exactly if the offset is a multiple of 512 or
the rest of the file lies in ten blocks, and the last transaction leaves room for the inode and for the blocks of the free map
that are logged if it is freed. -/
theorem crypt_budget_iff {fd : Nat} (hL : Layout sb) (hk : CryptTarget sb fd f ip i d k)
    (hr : (c.exec sb).run k = .ok (0, k₁)) :
    Budgeted sb c f ip k ↔
      FitsBudget (k.ftable f).off d.size.toNat (freeCost sb k.fs.dev.cache d (k.fs.icache ip)) := by
  have ht : d.type ≠ T_DEV := by
    rw [hk.type]
    decide
  constructor
  · obtain ⟨fuel, hrun⟩ := CryptCall.exec_loop hk.arg hk.ip hr
    exact (cryptLoop_budget hL ht fuel hk.still hk.off).of_ok hrun
  · intro hfit k' more k'' hb hrun
    obtain ⟨hs, ho, hf⟩ := hb.fits hL hk.still ht hk.off hfit
    rcases (hs.cryptBracket hL ht rfl ho c.flag c.byte).of_ok hrun with ⟨-, hlt, hrd⟩ | ⟨-, hle, hfin⟩
    · rw [hrd.card_lh hs (by omega) (by omega)]
      exact ((fitsBudget_step hlt).1 hf).1
    · rw [hfin.card_lh hL hs]
      exact (fitsBudget_last hle).1 hf

end

theorem crypt_budget_letter : ∃ k', (CryptCall.encr.exec mkfsSuperblock).run (letterAt 0) = .ok (0, k') ∧
    Budgeted mkfsSuperblock .encr 0 0 (letterAt 0) := by
  have hrun : (CryptCall.encr.exec mkfsSuperblock).run (letterAt 0) = .ok (0, _) := run_eq_final (by decide +kernel)
  refine ⟨_, hrun, (crypt_budget_iff mkfs_layout (target_openAt 3 (by decide) (by decide) (by decide) _) hrun).2 ?_⟩
  have hfree : freeCost mkfsSuperblock (letterAt 0).fs.dev.cache (fileDinode 1 1) ((letterAt 0).fs.icache 0) = 0 :=
    if_neg (by decide)
  refine ⟨.inl rfl, ?_⟩
  change blocksMet 0 1 + 1 + freeCost mkfsSuperblock (letterAt 0).fs.dev.cache (fileDinode 1 1) ((letterAt 0).fs.icache 0) ≤ _
  rw [hfree]
  decide

def elevenBlocks : Kernel := openAt 3 11 5632 1 fun _ => Block.zero _

/-- The first transaction of the call meets all eleven blocks. -/
theorem encr_over_budget : CryptTarget mkfsSuperblock 0 0 0 1 (fileDinode 11 5632) elevenBlocks ∧
    ∃ k₁ k', (CryptCall.encr.exec mkfsSuperblock).run elevenBlocks = .ok (0, k') ∧
      CryptBegins mkfsSuperblock .encr 0 0 elevenBlocks elevenBlocks ∧
      (cryptBracket mkfsSuperblock CryptCall.encr.flag CryptCall.encr.byte 0 0).run elevenBlocks = .ok (true, k₁) ∧
      k₁.fs.dev.log.lh.toFinset.card = 11 ∧ MAXOPBLOCKS = 10 :=
  ⟨target_openAt 3 (by decide) (by decide) (by decide) _, _, _, run_eq_final (by decide +kernel), .start,
    run_eq_final (by decide +kernel), by decide +kernel, rfl⟩

end Xv6
