import Xv6.InodeProcs
import Xv6.InodeRun

/-!
# The inode cache as a copy of the disk

`Books` says who holds what: an entry has as many references as its count says, and its sleep-lock is
held by the process named, who has a reference. `Copies` says what the entries stand for: entries with
references stand for different inodes, and each mirrors its inode on disk as far as the holder of its
lock has got (`Mirrors`), except for an inode that `iput` has just marked free.
-/

namespace Xv6

open Prog InodeSys Function

/-- How far the holder of the lock of entry `e`, if any, has got with it; `ready` means that it is not in the middle
of an operation on this entry. -/
def stage (pc : Nat → InodePc) (o : Option Nat) (e : Nat) : Option InodePc :=
  o.map fun p => if (pc p).entry = some e then pc p else .ready

/-- What entry `e` says about its inode on disk. -/
def Mirrors (sb : Superblock) (c : Image) (e : Inode) : Option InodePc → Prop
  | some .ready | some (.last _) => e.valid = true ∧ diskTable sb c e.inum = some e.d
  | some (.changed _) => e.valid = true ∧
      ∃ d, diskTable sb c e.inum = some d ∧ e.d.type = d.type ∧ e.d.addrs = d.addrs ∧ e.d.size = d.size
  | some (.truncated _) => e.valid = true ∧ diskTable sb c e.inum = some e.d ∧ ∀ k, k < 13 → e.d.addr k = 0
  | some (.freed _) => True
  | _ => e.valid = true → diskTable sb c e.inum = some e.d

structure Books (s : InodeSys) : Prop where
  ref : ∀ e, (s.fs.icache e).ref = (s.refs.countP fun t => t.ip = e : Nat)
  bound : ∀ t ∈ s.refs, t.ip < NINODE
  locked : ∀ e, (s.fs.icache e).locked = (s.holder e).isSome
  entry : ∀ p e, (s.pc p).entry = some e → s.holder e = some p
  held : ∀ e p, s.holder e = some p → .held p e ∈ s.refs ∨ (s.pc p).puts = some e
  puts : ∀ p e, (s.pc p).puts = some e → .put p e ∈ s.refs
  dropping : ∀ p e, s.pc p = .dropping e → s.holder e ≠ some p

structure Copies (sb : Superblock) (s : InodeSys) : Prop where
  fs : FsOk sb s.fs.dev (diskTable sb s.fs.dev.cache)
  inum : ∀ e, e < NINODE → 0 < (s.fs.icache e).ref → 1 ≤ (s.fs.icache e).inum ∧ (s.fs.icache e).inum < sb.ninodes
  rootdev : ∀ e, e < NINODE → 0 < (s.fs.icache e).ref → (s.fs.icache e).dev = ROOTDEV
  uniq : ∀ e e', e < NINODE → e' < NINODE → 0 < (s.fs.icache e).ref → 0 < (s.fs.icache e').ref →
    (s.fs.icache e).inum = (s.fs.icache e').inum → e = e'
  mirror : ∀ e, e < NINODE → 0 < (s.fs.icache e).ref →
    Mirrors sb s.fs.dev.cache (s.fs.icache e) (stage s.pc (s.holder e) e)
  born : ∀ i t, s.born i = some t → diskTable sb s.fs.dev.cache i = some (.fresh t)

section Stage

variable {pc : Nat → InodePc} {p e : Nat} {c : InodePc} {o : Option Nat}

@[simp] theorem stage_none : stage pc none e = none := rfl

theorem stage_some : stage pc (some p) e = some (if (pc p).entry = some e then pc p else .ready) := rfl

theorem stage_of_entry (h : (pc p).entry = some e) : stage pc (some p) e = some (pc p) := by
  rw [stage_some, if_pos h]

theorem stage_of_ready (h : (pc p).entry = none) : stage pc (some p) e = some .ready := by
  rw [stage_some, h, if_neg nofun]

theorem stage_update (h : (pc p).entry ≠ some e) (hc : c.entry ≠ some e) :
    stage (update pc p c) o e = stage pc o e := by
  cases o with
  | none => rfl
  | some q =>
    rw [stage_some, stage_some]
    rcases eq_or_ne q p with rfl | hne
    · rw [update_self, if_neg hc, if_neg h]
    · rw [update_of_ne hne]

end Stage

theorem Mirrors.congr {sb : Superblock} {c c' : Image} {e e' : Inode} {o : Option InodePc} (h : Mirrors sb c e o)
    (hi : e'.inum = e.inum) (hv : e'.valid = e.valid) (hd : e'.d = e.d)
    (hc : diskTable sb c' e.inum = diskTable sb c e.inum) : Mirrors sb c' e' o := by
  unfold Mirrors at h ⊢
  rwa [hi, hv, hd, hc]

section Ownership

variable {s : InodeSys} {p ip : Nat}

namespace Books

theorem pos (h : Books s) {t : InodeRef} (ht : t ∈ s.refs) : 0 < (s.fs.icache t.ip).ref := by
  rw [h.ref]
  exact Int.natCast_pos.2 (List.countP_pos_iff.2 ⟨t, ht, decide_eq_true rfl⟩)

theorem mem_of_holder (h : Books s) (hh : s.holder ip = some p) : ∃ t ∈ s.refs, t.ip = ip := by
  rcases h.held ip p hh with hm | hm
  · exact ⟨_, hm, rfl⟩
  · exact ⟨_, h.puts p ip hm, rfl⟩

theorem lt_of_holder (h : Books s) (hh : s.holder ip = some p) : ip < NINODE := by
  obtain ⟨t, ht, rfl⟩ := h.mem_of_holder hh
  exact h.bound t ht

theorem pos_of_holder (h : Books s) (hh : s.holder ip = some p) : 0 < (s.fs.icache ip).ref := by
  obtain ⟨t, ht, rfl⟩ := h.mem_of_holder hh
  exact h.pos ht

end Books

def SameLocks (f g : Fs) : Prop := ∀ e, (f.icache e).ref = (g.icache e).ref ∧ (f.icache e).locked = (g.icache e).locked

theorem SameLocks.refl (f : Fs) : SameLocks f f := fun _ => ⟨rfl, rfl⟩

theorem SameLocks.update {f : Fs} {v : Dev} {l : List Nat} {e' : Inode} (hr : e'.ref = (f.icache ip).ref)
    (hl : e'.locked = (f.icache ip).locked) : SameLocks ⟨v, update f.icache ip e', l⟩ f := by
  intro e
  rcases eq_or_ne e ip with rfl | hne
  · simp only [update_self]
    exact ⟨hr, hl⟩
  · simp only [update_of_ne hne]
    exact ⟨trivial, trivial⟩

namespace Books

theorem move (h : Books s) {f : Fs} {c : InodePc} {b : Nat → Option (BitVec 16)} (hf : SameLocks f s.fs)
    (hc : ∀ e, c.entry = some e → s.holder e = some p) (hp : c.puts = (s.pc p).puts) (hd : ∀ e, c ≠ .dropping e) :
    Books { s with fs := f, pc := update s.pc p c, born := b } := by
  have hputs : ∀ q, (update s.pc p c q).puts = (s.pc q).puts := fun q => by
    rcases eq_or_ne q p with rfl | hne
    · rw [update_self, hp]
    · rw [update_of_ne hne]
  refine ⟨fun e => (hf e).1.trans (h.ref e), h.bound, fun e => (hf e).2.trans (h.locked e), fun q e he => ?_,
    fun e q hq => ?_, fun q e he => ?_, fun q e he => ?_⟩
  · rcases eq_or_ne q p with rfl | hne
    · simp only [update_self] at he
      exact hc e he
    · simp only [update_of_ne hne] at he
      exact h.entry q e he
  · simp only [hputs]
    exact h.held e q hq
  · simp only [hputs] at he
    exact h.puts q e he
  · rcases eq_or_ne q p with rfl | hne
    · simp only [update_self] at he
      exact absurd he (hd e)
    · simp only [update_of_ne hne] at he
      exact h.dropping q e he

theorem sameLocks (h : Books s) {f : Fs} {b : Nat → Option (BitVec 16)} (hf : SameLocks f s.fs) :
    Books { s with fs := f, born := b } :=
  ⟨fun e => (hf e).1.trans (h.ref e), h.bound, fun e => (hf e).2.trans (h.locked e), h.entry, h.held, h.puts, h.dropping⟩

theorem gain (h : Books s) {v : Dev} {l : List Nat} {e' : Inode} (hip : ip < NINODE)
    (href : e'.ref = (s.fs.icache ip).ref + 1) (hl : e'.locked = (s.fs.icache ip).locked) :
    Books { s with fs := ⟨v, update s.fs.icache ip e', l⟩, refs := .held p ip :: s.refs } := by
  refine ⟨fun e => ?_, fun t ht => ?_, fun e => ?_, h.entry, fun e q hq => ?_, fun q e he => ?_, h.dropping⟩
  · rcases eq_or_ne e ip with rfl | hne
    · simp only [update_self, List.countP_cons, InodeRef.ip_held, decide_true, if_true, href, h.ref]
      omega
    · simp only [update_of_ne hne, List.countP_cons, InodeRef.ip_held, decide_eq_true_eq, hne.symm, if_false, h.ref]
      omega
  · rcases List.mem_cons.1 ht with rfl | ht
    · exact hip
    · exact h.bound t ht
  · rcases eq_or_ne e ip with rfl | hne
    · simp only [update_self, hl, h.locked]
    · simp only [update_of_ne hne, h.locked]
  · exact (h.held e q hq).imp_left (List.mem_cons_of_mem _)
  · exact List.mem_cons_of_mem _ (h.puts q e he)

theorem give (h : Books s) {q : Nat} (hm : .held p ip ∈ s.refs) (hh : s.holder ip ≠ some p) :
    Books { s with refs := .held q ip :: s.refs.erase (.held p ip) } := by
  have hperm := List.perm_cons_erase hm
  refine ⟨fun e => ?_, fun t ht => ?_, h.locked, h.entry, fun e q' hq => ?_, fun q' e he => ?_, h.dropping⟩
  · rw [h.ref, hperm.countP_eq]
    simp only [List.countP_cons, InodeRef.ip_held]
    rfl
  · rcases List.mem_cons.1 ht with rfl | ht
    · exact h.bound (.held p ip) hm
    · exact h.bound t (List.mem_of_mem_erase ht)
  · refine (h.held e q' hq).imp_left fun hmem => List.mem_cons_of_mem _ ((List.mem_erase_of_ne ?_).2 hmem)
    rintro heq
    obtain ⟨rfl, rfl⟩ := InodeRef.held.inj heq
    exact hh hq
  · exact List.mem_cons_of_mem _ ((List.mem_erase_of_ne (fun heq => by cases heq)).2 (h.puts q' e he))

theorem acquire (h : Books s) {f : Fs} {c : InodePc} {r : List InodeRef} (ho : s.holder ip = none)
    (hr : s.pc p = .ready) (hf : ∀ e, (f.icache e).ref = (s.fs.icache e).ref ∧
      (f.icache e).locked = if e = ip then true else (s.fs.icache e).locked)
    (hcount : ∀ e, (r.countP fun t => t.ip = e) = s.refs.countP fun t => t.ip = e) (hb : ∀ t ∈ r, t.ip < NINODE)
    (hheld : ∀ q e, e ≠ ip → .held q e ∈ s.refs → .held q e ∈ r) (hput : ∀ q e, .put q e ∈ s.refs → .put q e ∈ r)
    (hc : c.entry = some ip)
    (hown : .held p ip ∈ r ∧ c.puts = none ∨ .put p ip ∈ r ∧ c.puts = some ip) :
    Books { s with fs := f, pc := update s.pc p c, holder := update s.holder ip (some p), refs := r } := by
  refine ⟨fun e => ?_, hb, fun e => ?_, fun q e he => ?_, fun e q hq => ?_, fun q e he => ?_, fun q e he => ?_⟩
  · rw [(hf e).1, h.ref, hcount]
  · rw [(hf e).2]
    rcases eq_or_ne e ip with rfl | hne
    · simp only [if_true, update_self, Option.isSome_some]
    · simp only [if_neg hne, update_of_ne hne, h.locked]
  · rcases eq_or_ne q p with rfl | hne
    · simp only [update_self, hc] at he
      cases he
      simp only [update_self]
    · simp only [update_of_ne hne] at he
      have := h.entry q e he
      rcases eq_or_ne e ip with rfl | hei
      · rw [ho] at this
        cases this
      · simp only [update_of_ne hei, this]
  · rcases eq_or_ne e ip with rfl | hei
    · simp only [update_self] at hq
      cases hq
      simp only [update_self]
      exact hown.imp And.left And.right
    · simp only [update_of_ne hei] at hq
      rcases h.held e q hq with hm | hm
      · exact .inl (hheld q e hei hm)
      · rcases eq_or_ne q p with rfl | hne
        · rw [hr] at hm
          cases hm
        · simp only [update_of_ne hne]
          exact .inr hm
  · rcases eq_or_ne q p with rfl | hne
    · simp only [update_self] at he
      rcases hown with ⟨-, hn⟩ | ⟨hm, hs⟩
      · rw [hn] at he
        cases he
      · rw [hs] at he
        cases he
        exact hm
    · simp only [update_of_ne hne] at he
      exact hput q e (h.puts q e he)
  · rcases eq_or_ne q p with rfl | hne
    · simp only [update_self] at he
      rw [he] at hc
      cases hc
    · simp only [update_of_ne hne] at he
      rcases eq_or_ne e ip with rfl | hei
      · simp only [update_self]
        exact fun hh => hne (Option.some.inj hh).symm
      · simp only [update_of_ne hei]
        exact h.dropping q e he

theorem release (h : Books s) {f : Fs} {c : InodePc} (ho : s.holder ip = some p)
    (hf : ∀ e, (f.icache e).ref = (s.fs.icache e).ref ∧
      (f.icache e).locked = if e = ip then false else (s.fs.icache e).locked)
    (hc : c.entry = none) (hp : c.puts = (s.pc p).puts) (hd : ∀ e, c = .dropping e → e = ip)
    (he : ∀ e, (s.pc p).entry = some e → e = ip) :
    Books { s with fs := f, pc := update s.pc p c, holder := update s.holder ip none } := by
  have hputs : ∀ q, (update s.pc p c q).puts = (s.pc q).puts := fun q => by
    rcases eq_or_ne q p with rfl | hne
    · rw [update_self, hp]
    · rw [update_of_ne hne]
  have hold : ∀ {e q}, update s.holder ip none e = some q → e ≠ ip ∧ s.holder e = some q := fun {e q} hq => by
    rcases eq_or_ne e ip with rfl | hei
    · rw [update_self] at hq
      cases hq
    · rw [update_of_ne hei] at hq
      exact ⟨hei, hq⟩
  refine ⟨fun e => (hf e).1.trans (h.ref e), h.bound, fun e => ?_, fun q e hq => ?_, fun e q hq => ?_, fun q e hq => ?_,
    fun q e hq hh => ?_⟩
  · rw [(hf e).2]
    rcases eq_or_ne e ip with rfl | hne
    · simp only [if_true, update_self, Option.isSome_none]
    · simp only [if_neg hne, update_of_ne hne, h.locked]
  · rcases eq_or_ne q p with rfl | hne
    · simp only [update_self, hc] at hq
      cases hq
    · simp only [update_of_ne hne] at hq
      have hq' := h.entry q e hq
      have hei : e ≠ ip := by
        rintro rfl
        rw [ho] at hq'
        exact hne (Option.some.inj hq').symm
      simp only [update_of_ne hei, hq']
  · simp only [hputs]
    exact h.held e q (hold hq).2
  · simp only [hputs] at hq
    exact h.puts q e hq
  · obtain ⟨hei, hh⟩ := hold hh
    rcases eq_or_ne q p with rfl | hne
    · simp only [update_self] at hq
      exact hei (hd e hq)
    · simp only [update_of_ne hne] at hq
      exact h.dropping q e hq hh

theorem dropped (h : Books s) {v : Dev} {l : List Nat} {e' : Inode} (hpc : s.pc p = .dropping ip)
    (href : e'.ref = (s.fs.icache ip).ref - 1) (hl : e'.locked = (s.fs.icache ip).locked) :
    Books { s with fs := ⟨v, update s.fs.icache ip e', l⟩, pc := update s.pc p .ready,
                   refs := s.refs.erase (.put p ip) } := by
  have hm : .put p ip ∈ s.refs := h.puts p ip (by rw [hpc]; rfl)
  have hperm := List.perm_cons_erase hm
  refine ⟨fun e => ?_, fun t ht => h.bound t (List.mem_of_mem_erase ht), fun e => ?_, fun q e he => ?_, fun e q hq => ?_,
    fun q e he => ?_, fun q e he => ?_⟩
  · have hcount := hperm.countP_eq fun t => decide (t.ip = e)
    have href' := h.ref e
    rw [hcount] at href'
    rcases eq_or_ne e ip with rfl | hne
    · simp only [List.countP_cons, InodeRef.ip_put, decide_true, if_true] at href'
      simp only [update_self, href, href']
      omega
    · simp only [List.countP_cons, InodeRef.ip_put, decide_eq_true_eq, hne.symm, if_false] at href'
      simp only [update_of_ne hne, href']
      omega
  · rcases eq_or_ne e ip with rfl | hne
    · simp only [update_self, hl, h.locked]
    · simp only [update_of_ne hne, h.locked]
  · rcases eq_or_ne q p with rfl | hne
    · simp only [update_self] at he
      cases he
    · simp only [update_of_ne hne] at he
      exact h.entry q e he
  · rcases h.held e q hq with hmem | hmem
    · exact .inl ((List.mem_erase_of_ne (fun heq => by cases heq)).2 hmem)
    · rcases eq_or_ne q p with rfl | hne
      · rw [hpc] at hmem
        cases hmem
        exact absurd hq (h.dropping q ip hpc)
      · simp only [update_of_ne hne]
        exact .inr hmem
  · rcases eq_or_ne q p with rfl | hne
    · simp only [update_self] at he
      cases he
    · simp only [update_of_ne hne] at he
      refine (List.mem_erase_of_ne fun heq => ?_).2 (h.puts q e he)
      exact hne (InodeRef.put.inj heq).1
  · rcases eq_or_ne q p with rfl | hne
    · simp only [update_self] at he
      cases he
    · simp only [update_of_ne hne] at he
      exact h.dropping q e he

end Books

end Ownership

section Mirror

variable {sb : Superblock} {s s' : InodeSys} {p ip : Nat}

theorem Copies.change (h : Copies sb s) (hip : ip < NINODE) (hpos : 0 < (s.fs.icache ip).ref) {v : Dev} {l : List Nat}
    {e' : Inode} {o : Option Dinode} (hst : InodeStored sb (s.fs.icache ip).inum o s.fs.dev v)
    (hfs : s'.fs = ⟨v, update s.fs.icache ip e', l⟩) (hin : e'.inum = (s.fs.icache ip).inum)
    (hdev : e'.dev = (s.fs.icache ip).dev)
    (hstage : ∀ e, e ≠ ip → stage s'.pc (s'.holder e) e = stage s.pc (s.holder e) e)
    (hm : Mirrors sb v.cache e' (stage s'.pc (s'.holder ip) ip))
    (hborn : ∀ i t, s'.born i = some t → diskTable sb v.cache i = some (.fresh t)) : Copies sb s' := by
  have hget : ∀ e, 0 < (update s.fs.icache ip e' e).ref → 0 < (s.fs.icache e).ref ∧
      (update s.fs.icache ip e' e).inum = (s.fs.icache e).inum ∧
      (update s.fs.icache ip e' e).dev = (s.fs.icache e).dev := by
    intro e he
    rcases eq_or_ne e ip with rfl | hne
    · rw [update_self]
      exact ⟨hpos, hin, hdev⟩
    · rw [update_of_ne hne] at he ⊢
      exact ⟨he, rfl, rfl⟩
  refine ⟨?_, fun e he hp => ?_, fun e he hp => ?_, fun e e₁ he he₁ hp hp₁ hi => ?_, fun e he hp => ?_, fun i t hb => ?_⟩
  · rw [hfs]
    exact hst.fs
  · rw [hfs] at hp ⊢
    obtain ⟨h1, h2, -⟩ := hget e hp
    simp only [h2]
    exact h.inum e he h1
  · rw [hfs] at hp ⊢
    obtain ⟨h1, -, h3⟩ := hget e hp
    simp only [h3]
    exact h.rootdev e he h1
  · rw [hfs] at hp hp₁ hi
    obtain ⟨h1, h2, -⟩ := hget e hp
    obtain ⟨h1', h2', -⟩ := hget e₁ hp₁
    simp only [h2, h2'] at hi
    exact h.uniq e e₁ he he₁ h1 h1' hi
  · rw [hfs] at hp ⊢
    rcases eq_or_ne e ip with rfl | hne
    · simp only [update_self]
      exact hm
    · simp only [update_of_ne hne] at hp ⊢
      rw [hstage e hne]
      refine (h.mirror e he hp).congr rfl rfl rfl (hst.other fun hi => hne ?_)
      exact h.uniq e ip he hip hp hpos hi
  · rw [hfs]
    exact hborn i t hb

end Mirror

/-! ### Every step keeps both -/

/-- `ialloc` looks at inodes from 1 on and returns one there is. -/
def InodePc.Sound (sb : Superblock) : InodePc → Prop
  | .scanning inum type => 1 ≤ inum ∧ type ≠ 0
  | .allocated inum => 1 ≤ inum ∧ inum < sb.ninodes
  | _ => True

structure InodeInv (sb : Superblock) (s : InodeSys) : Prop where
  books : Books s
  copies : Copies sb s
  pcs : ∀ p, (s.pc p).Sound sb

def SameInodes (f f' : Fs) : Prop := ∀ e, 0 < (f.icache e).ref →
  (f'.icache e).dev = (f.icache e).dev ∧ (f'.icache e).inum = (f.icache e).inum

structure InodeStep (sb : Superblock) (s s' : InodeSys) : Prop where
  inv : InodeInv sb s'
  kept : SameInodes s.fs s'.fs

section Steps

variable {sb : Superblock} {s s' : InodeSys} {p ip : Nat} {c : InodePc}

theorem sound_update (h : InodeInv sb s) (hc : c.Sound sb) (q : Nat) : (update s.pc p c q).Sound sb := by
  rcases eq_or_ne q p with rfl | hne
  · rw [update_self]
    exact hc
  · rw [update_of_ne hne]
    exact h.pcs q

theorem InodeInv.onEntry (h : InodeInv sb s) (hip : ip < NINODE) (hpos : 0 < (s.fs.icache ip).ref)
    (hX : ∀ e, (s.pc p).entry = some e → e = ip) (hc : ∀ e, c.entry = some e → e = ip) (hs : c.Sound sb) {v : Dev}
    {l : List Nat} {e' : Inode} {o : Option Dinode} (hst : InodeStored sb (s.fs.icache ip).inum o s.fs.dev v)
    (hfs : s'.fs = ⟨v, update s.fs.icache ip e', l⟩) (hpc : s'.pc = update s.pc p c)
    (hin : e'.inum = (s.fs.icache ip).inum) (hdev : e'.dev = (s.fs.icache ip).dev)
    (hh : ∀ e, e ≠ ip → s'.holder e = s.holder e) (hm : Mirrors sb v.cache e' (stage s'.pc (s'.holder ip) ip))
    (hborn : ∀ i t, s'.born i = some t → diskTable sb v.cache i = some (.fresh t)) (hb : Books s') : InodeStep sb s s' := by
  refine ⟨⟨hb, h.copies.change hip hpos hst hfs hin hdev (fun e he => ?_) hm hborn, fun q => ?_⟩, fun e he => ?_⟩
  · rw [hpc, hh e he]
    exact stage_update (fun hx => he (hX e hx)) fun hx => he (hc e hx)
  · rw [hpc]
    exact sound_update h hs q
  · rw [hfs]
    rcases eq_or_ne e ip with rfl | hne
    · simp only [update_self]
      exact ⟨hdev, hin⟩
    · simp only [update_of_ne hne]
      exact ⟨trivial, trivial⟩

theorem InodeInv.offEntries (h : InodeInv sb s) (hX : (s.pc p).entry = none) (hc : c.entry = none) (hs : c.Sound sb)
    (hfs : FsOk sb s'.fs.dev (diskTable sb s'.fs.dev.cache)) (hic : s'.fs.icache = s.fs.icache)
    (htab : ∀ i, diskTable sb s.fs.dev.cache i ≠ none →
      diskTable sb s'.fs.dev.cache i = diskTable sb s.fs.dev.cache i)
    (hpc : s'.pc = update s.pc p c) (hh : s'.holder = s.holder)
    (hborn : ∀ i t, s'.born i = some t → diskTable sb s'.fs.dev.cache i = some (.fresh t)) (hb : Books s') :
    InodeStep sb s s' := by
  refine ⟨⟨hb, ⟨hfs, ?_, ?_, ?_, fun e he hp => ?_, hborn⟩, fun q => ?_⟩, fun e he => ?_⟩
  · rw [hic]
    exact h.copies.inum
  · rw [hic]
    exact h.copies.rootdev
  · rw [hic]
    exact h.copies.uniq
  · have hm := h.copies.mirror e he (by rwa [hic] at hp)
    rw [hic, hpc, hh, stage_update (by rw [hX]; nofun) (by rw [hc]; nofun)]
    unfold Mirrors at hm ⊢
    split at hm
    · rwa [htab _ (by rw [hm.2]; nofun)]
    · rwa [htab _ (by rw [hm.2]; nofun)]
    · obtain ⟨hv, d, hd, hrest⟩ := hm
      exact ⟨hv, d, by rw [htab _ (by rw [hd]; nofun), hd], hrest⟩
    · rwa [htab _ (by rw [hm.2.1]; nofun)]
    · trivial
    · exact fun hv => by rw [htab _ (by rw [hm hv]; nofun), hm hv]
  · rw [hpc]
    exact sound_update h hs q
  · rw [hic]
    exact ⟨rfl, rfl⟩

theorem InodeInv.inMemory (h : InodeInv sb s) (hip : ip < NINODE) (hpos : 0 < (s.fs.icache ip).ref)
    (hX : ∀ e, (s.pc p).entry = some e → e = ip) (hc : ∀ e, c.entry = some e → e = ip) (hs : c.Sound sb)
    {l : List Nat} {e' : Inode} (hfs : s'.fs = ⟨s.fs.dev, update s.fs.icache ip e', l⟩)
    (hpc : s'.pc = update s.pc p c) (hin : e'.inum = (s.fs.icache ip).inum)
    (hdev : e'.dev = (s.fs.icache ip).dev)
    (hh : ∀ e, e ≠ ip → s'.holder e = s.holder e)
    (hm : Mirrors sb s.fs.dev.cache e' (stage s'.pc (s'.holder ip) ip)) (hborn : s'.born = s.born) (hb : Books s') :
    InodeStep sb s s' := by
  refine h.onEntry hip hpos hX hc hs (.same h.copies.fs rfl) hfs hpc hin hdev hh hm (fun i t hi => ?_) hb
  rw [hborn] at hi
  exact h.copies.born i t hi

theorem update_icache_self (f : Fs) (ip : Nat) : f = ⟨f.dev, update f.icache ip (f.icache ip), f.freed⟩ := by
  rw [update_eq_self]

theorem born_stored (h : InodeInv sb s) {i : Nat} {o : Option Dinode} {v : Dev} (hst : InodeStored sb i o s.fs.dev v)
    {j : Nat} {t : BitVec 16} (hj : update s.born i none j = some t) :
    diskTable sb v.cache j = some (.fresh t) := by
  rcases eq_or_ne j i with rfl | hne
  · rw [update_self] at hj
    cases hj
  · rw [update_of_ne hne] at hj
    rw [hst.other hne]
    exact h.copies.born j t hj

theorem iget_step (h : InodeInv sb s) {i : Nat} (hi : 1 ≤ i ∧ i < sb.ninodes) (hX : (s.pc p).entry = none)
    (hp : (s.pc p).puts = none) (hc : c.entry = none ∧ c.puts = none) (hs : c.Sound sb) :
    wp (iget ROOTDEV i) (fun ip f => InodeStep sb s
      { s with fs := f, pc := update s.pc p c, refs := .held p ip :: s.refs } ∧ (f.icache ip).inum = i)
      (fun _ => True) s.fs := by
  have hbooks : Books { s with pc := update s.pc p c } := h.books.move (.refl _)
    (fun e he => by rw [hc.1] at he; cases he) (by rw [hp, hc.2]) fun e he => by rw [he] at hc; cases hc.2
  refine (iget_cases ROOTDEV i s.fs).mono ?_ fun _ _ => trivial
  rintro ip _ ⟨hip, ⟨hpos, -, hin, rfl⟩ | ⟨hmiss, hz, rfl⟩⟩
  · refine ⟨h.inMemory hip hpos (fun e he => by rw [hX] at he; cases he) (fun e he => by rw [hc.1] at he; cases he) hs
      rfl rfl rfl rfl (fun _ _ => rfl) ?_ rfl (hbooks.gain hip rfl rfl), ?_⟩
    · rw [stage_update (by rw [hX]; nofun) (by rw [hc.1]; nofun)]
      exact (h.copies.mirror ip hip hpos).congr rfl rfl rfl rfl
    · simp only [update_self]
      exact hin
  · have hno : ∀ e, e < NINODE → 0 < (s.fs.icache e).ref → (s.fs.icache e).inum ≠ i := fun e he hpe hin =>
      hmiss e he ⟨hpe, h.copies.rootdev e he hpe, hin⟩
    refine ⟨⟨⟨hbooks.gain hip (by rw [hz]; rfl) rfl, ⟨h.copies.fs, fun e he hpe => ?_, fun e he hpe =>
      ?_, fun e e' he he' hpe hpe' heq => ?_,
      fun e he hpe => ?_, h.copies.born⟩, sound_update h hs⟩, fun e he => ?_⟩, ?_⟩
    · rcases eq_or_ne e ip with rfl | hne
      · simp only [update_self]; exact hi
      · simp only [update_of_ne hne] at hpe ⊢
        exact h.copies.inum e he hpe
    · rcases eq_or_ne e ip with rfl | hne
      · simp only [update_self]
      · simp only [update_of_ne hne] at hpe ⊢
        exact h.copies.rootdev e he hpe
    · rcases eq_or_ne e ip with rfl | hne <;> rcases eq_or_ne e' e with rfl | hne'
      · rfl
      · simp only [update_self, update_of_ne hne'] at hpe' heq
        exact absurd heq.symm (hno e' he' hpe')
      · rfl
      · rcases eq_or_ne e' ip with rfl | hei'
        · simp only [update_self, update_of_ne hne] at hpe heq
          exact absurd heq (hno e he hpe)
        · simp only [update_of_ne hne, update_of_ne hei'] at hpe hpe' heq
          exact h.copies.uniq e e' he he' hpe hpe' heq
    · simp only [stage_update (p := p) (c := c) (e := e) (by rw [hX]; nofun) (by rw [hc.1]; nofun)]
      rcases eq_or_ne e ip with rfl | hne
      · -- nobody holds the lock of an entry without references
        have hfree : s.holder e = none := by
          rcases ho : s.holder e with _ | q
          · rfl
          · have := h.books.pos_of_holder ho
            omega
        simp only [hfree, stage_none, update_self]
        exact fun hv => by simp only [Bool.false_eq_true] at hv
      · simp only [update_of_ne hne] at hpe ⊢
        exact h.copies.mirror e he hpe
    · have hne : e ≠ ip := by
        rintro rfl
        omega
      simp only [update_of_ne hne]
      exact ⟨trivial, trivial⟩
    · simp only [update_self]

theorem InodeInv.free (h : InodeInv sb s) (hip : ip < NINODE) (hpos : 0 < (s.fs.icache ip).ref)
    (hl : ¬ (s.fs.icache ip).locked = true) : s.holder ip = none ∧
    ((s.fs.icache ip).valid = true → diskTable sb s.fs.dev.cache (s.fs.icache ip).inum = some (s.fs.icache ip).d) := by
  have ho : s.holder ip = none := by
    rw [h.books.locked] at hl
    simpa using hl
  have hm := h.copies.mirror ip hip hpos
  rw [ho] at hm
  exact ⟨ho, hm⟩

theorem InodeInv.open (h : InodeInv sb s) (hh : s.holder ip = some p) (hX : (s.pc p).entry = none) :
    (s.fs.icache ip).valid = true ∧ diskTable sb s.fs.dev.cache (s.fs.icache ip).inum = some (s.fs.icache ip).d := by
  have hm := h.copies.mirror ip (h.books.lt_of_holder hh) (h.books.pos_of_holder hh)
  rw [hh, stage_of_ready hX] at hm
  exact hm

theorem InodeInv.inside (h : InodeInv sb s) (hpc : s.pc p = c) (hc : c.entry = some ip) : s.holder ip = some p ∧
    (∀ e, (s.pc p).entry = some e → e = ip) ∧ Mirrors sb s.fs.dev.cache (s.fs.icache ip) (some c) := by
  subst hpc
  have hh := h.books.entry p ip hc
  have hm := h.copies.mirror ip (h.books.lt_of_holder hh) (h.books.pos_of_holder hh)
  rw [hh, stage_of_entry hc] at hm
  refine ⟨hh, fun e he => ?_, hm⟩
  rw [hc] at he
  exact (Option.some.inj he).symm

theorem InodeInv.hold (h : InodeInv sb s) (hh : s.holder ip = some p) (hX : ∀ e, (s.pc p).entry = some e → e = ip)
    (hc : c.entry = some ip ∨ c = .ready) (hp : c.puts = (s.pc p).puts) {v : Dev} {l : List Nat} {e' : Inode}
    {o : Option Dinode} {b : Nat → Option (BitVec 16)} (hst : InodeStored sb (s.fs.icache ip).inum o s.fs.dev v)
    (hin : e'.inum = (s.fs.icache ip).inum) (hdev : e'.dev = (s.fs.icache ip).dev)
    (hr : e'.ref = (s.fs.icache ip).ref) (hl : e'.locked = (s.fs.icache ip).locked) (hm : Mirrors sb v.cache e' (some c))
    (hborn : ∀ i t, b i = some t → diskTable sb v.cache i = some (.fresh t)) :
    InodeStep sb s { s with fs := ⟨v, update s.fs.icache ip e', l⟩, pc := update s.pc p c, born := b } := by
  have hentry : ∀ e, c.entry = some e → e = ip := by
    intro e he
    rcases hc with hc | rfl
    · rw [hc] at he
      exact (Option.some.inj he).symm
    · cases he
  have hstage : stage (update s.pc p c) (some p) ip = some c := by
    rcases hc with hc | rfl
    · rw [stage_of_entry (by rw [update_self, hc]), update_self]
    · rw [stage_of_ready (by rw [update_self]; rfl)]
  have hsound : c.Sound sb := by
    cases c <;> first | trivial | (rcases hc with hc | hc <;> cases hc)
  refine h.onEntry (h.books.lt_of_holder hh) (h.books.pos_of_holder hh) hX hentry hsound hst rfl rfl hin hdev
    (fun _ _ => rfl) ?_ hborn (h.books.move (.update hr hl) (fun e he => ?_) hp fun e he => ?_)
  · simp only [hh, hstage]
    exact hm
  · rw [hentry e he, hh]
  · subst he
    rcases hc with hc | hc <;> cases hc

theorem InodeInv.pass (h : InodeInv sb s) (hh : s.holder ip = some p) (hX : ∀ e, (s.pc p).entry = some e → e = ip)
    (hc : c.entry = some ip ∨ c = .ready) (hp : c.puts = (s.pc p).puts)
    (hm : Mirrors sb s.fs.dev.cache (s.fs.icache ip) (some c)) :
    InodeStep sb s { s with pc := update s.pc p c } := by
  have hstep := h.hold (l := s.fs.freed) hh hX hc hp (.same h.copies.fs rfl) rfl rfl rfl rfl hm h.copies.born
  rwa [← update_icache_self] at hstep

theorem locked_update {f : Fs} {v : Dev} {l : List Nat} {b : Bool} (e : Nat) :
    ((⟨v, update f.icache ip { f.icache ip with locked := b }, l⟩ : Fs).icache e).ref = (f.icache e).ref ∧
    ((⟨v, update f.icache ip { f.icache ip with locked := b }, l⟩ : Fs).icache e).locked =
      if e = ip then b else (f.icache e).locked := by
  rcases eq_or_ne e ip with rfl | hne
  · simp only [update_self, if_true, and_self]
  · simp only [update_of_ne hne, if_neg hne, and_self]

theorem InodeInv.take (h : InodeInv sb s) (hr : s.pc p = .ready) (hip : ip < NINODE) (hpos : 0 < (s.fs.icache ip).ref)
    (hl : ¬ (s.fs.icache ip).locked = true) (hc : c = .ilocking ip ∨ c = .iputting ip) {r : List InodeRef}
    (hb : s.holder ip = none → Books
      { s with fs := { s.fs with icache := update s.fs.icache ip { s.fs.icache ip with locked := true } },
               pc := update s.pc p c, holder := update s.holder ip (some p), refs := r }) :
    InodeStep sb s
      { s with fs := { s.fs with icache := update s.fs.icache ip { s.fs.icache ip with locked := true } },
               pc := update s.pc p c, holder := update s.holder ip (some p), refs := r } := by
  obtain ⟨ho, hm⟩ := h.free hip hpos hl
  have hentry : c.entry = some ip := by rcases hc with rfl | rfl <;> rfl
  refine h.inMemory hip hpos (fun e he => by rw [hr] at he; cases he) (fun e he => ?_) ?_ rfl rfl rfl rfl
    (fun e he => update_of_ne he _ _) ?_ rfl (hb ho)
  · rw [hentry] at he
    exact (Option.some.inj he).symm
  · rcases hc with rfl | rfl <;> trivial
  · simp only [update_self]
    rw [stage_of_entry (by rw [update_self, hentry]), update_self]
    rcases hc with rfl | rfl <;> exact hm

theorem InodeInv.edit (h : InodeInv sb s) (hh : s.holder ip = some p) (hr : s.pc p = .ready) {v : Dev} {d : Dinode}
    {l : List Nat} {b : Nat → Option (BitVec 16)} (hst : InodeStored sb (s.fs.icache ip).inum (some d) s.fs.dev v)
    (hborn : ∀ i t, b i = some t → diskTable sb v.cache i = some (.fresh t)) :
    InodeStep sb s
      { s with fs := ⟨v, update s.fs.icache ip { s.fs.icache ip with d := d }, l⟩, born := b } := by
  have hX : ∀ e, (s.pc p).entry = some e → e = ip := fun e he => by rw [hr] at he; cases he
  have hv := (h.open hh (by rw [hr]; rfl)).1
  refine h.onEntry (h.books.lt_of_holder hh) (h.books.pos_of_holder hh) hX hX (h.pcs p) hst rfl
    (update_eq_self p s.pc).symm rfl rfl (fun _ _ => rfl) ?_ hborn (h.books.sameLocks (.update rfl rfl))
  simp only [hh]
  rw [stage_of_ready (by rw [hr]; rfl)]
  exact ⟨hv, hst.self⟩

theorem goOn_ok (hL : Layout sb) (h : InodeInv sb s) (hpc : s.pc p = c) :
    wp (InodeAct.goOn sb p c) (fun _ s' => InodeStep sb s s') (fun _ => True) s := by
  cases c with
  | ready => exact trivial
  | changed ip => exact trivial
  | ilocking ip =>
    obtain ⟨hh, hX, hm⟩ := h.inside hpc rfl
    simp only [InodeAct.goOn, ilockLoad, wp_bind, wp_inFs, wp_get, wp_ite, wp_pure, wp_onDev, wp_bread, wp_setInode,
      wp_failIf, wp_modify]
    refine ⟨fun hv => ?_, fun hv => ⟨fun _ => trivial, fun _ => ⟨fun _ => trivial, fun ht => ?_⟩⟩⟩
    · exact h.pass hh hX (.inr rfl) (by rw [hpc]; rfl) ⟨hv, hm hv⟩
    · refine h.hold hh hX (.inr rfl) (by rw [hpc]; rfl) (.same h.copies.fs rfl) rfl rfl rfl rfl ⟨rfl, ?_⟩ h.copies.born
      exact diskTable_eq_some (h.copies.inum ip (h.books.lt_of_holder hh) (h.books.pos_of_holder hh)) rfl ht
  | iputting ip =>
    obtain ⟨hh, hX, hm⟩ := h.inside hpc rfl
    simp only [InodeAct.goOn, wp_bind, wp_get, wp_modify]
    split
    · next hlast => exact h.pass hh hX (.inl rfl) (by rw [hpc]; rfl) ⟨hlast.1, hm hlast.1⟩
    · exact h.pass hh hX (.inl rfl) (by rw [hpc]; rfl) hm
  | last ip =>
    obtain ⟨hh, hX, hm⟩ := h.inside hpc rfl
    simp only [InodeAct.goOn, Icache.itrunc, wp_bind, wp_inFs, wp_get, wp_onDev, wp_setInode, wp_modify]
    refine (itrunc_stored hL h.copies.fs hm.2).mono ?_ fun _ _ => trivial
    rintro _ v ⟨rfl, hst, -⟩
    simp only [update_self]
    exact h.hold hh hX (.inl rfl) (by rw [hpc]; rfl) hst rfl rfl rfl rfl ⟨hm.1, hst.self, fun k hk => addr_wiped hk⟩
      fun i t => born_stored h hst
  | truncated ip =>
    obtain ⟨hh, hX, hm⟩ := h.inside hpc rfl
    simp only [InodeAct.goOn, ifreeMark, Icache.iupdate, wp_bind, wp_inFs, wp_get, wp_onDev, wp_setInode, wp_modify,
      update_self]
    refine (free_stored hL h.copies.fs hm.2.1 hm.2.2 rfl).mono ?_ fun _ _ => trivial
    rintro _ v ⟨hst, -⟩
    exact h.hold hh hX (.inl rfl) (by rw [hpc]; rfl) hst rfl rfl rfl rfl trivial fun i t => born_stored h hst
  | freed ip =>
    obtain ⟨hh, hX, -⟩ := h.inside hpc rfl
    simp only [InodeAct.goOn, wp_bind, wp_inFs, wp_setInode, wp_modify]
    refine h.hold hh hX (.inl rfl) (by rw [hpc]; rfl) (.same h.copies.fs rfl) rfl rfl rfl rfl (fun hv => ?_) h.copies.born
    simp only [Bool.false_eq_true] at hv
  | releasing ip =>
    obtain ⟨hh, hX, hm⟩ := h.inside hpc rfl
    simp only [InodeAct.goOn, releasesleep, wp_bind, wp_inFs, wp_setInode, wp_modify]
    refine h.inMemory (c := .dropping ip) (p := p) (h.books.lt_of_holder hh) (h.books.pos_of_holder hh) hX
      (fun e he => by cases he) trivial rfl rfl rfl rfl (fun e he => update_of_ne he _ _) ?_ rfl
      (h.books.release hh locked_update rfl (by rw [hpc]; rfl) (fun e he => by cases he; rfl) hX)
    simp only [InodeSys.goto, InodeSys.lock, update_self, stage_none]
    exact hm
  | dropping ip =>
    have hX : (s.pc p).entry = none := by rw [hpc]; rfl
    have hmem := h.books.puts p ip (by rw [hpc]; rfl)
    have hip : ip < NINODE := h.books.bound _ hmem
    have hpos : 0 < (s.fs.icache ip).ref := h.books.pos hmem
    simp only [InodeAct.goOn, wp_bind, wp_inFs, wp_setInode, wp_modify]
    refine h.inMemory (c := .ready) (p := p) hip hpos (fun e he => by rw [hX] at he; cases he)
      (fun e he => by cases he) trivial rfl rfl rfl rfl (fun _ _ => rfl) ?_ rfl (h.books.dropped hpc rfl rfl)
    have hne : (s.pc p).entry ≠ some ip := by
      rw [hX]
      exact (Option.some_ne_none ip).symm
    have hne' : InodePc.ready.entry ≠ some ip := (Option.some_ne_none ip).symm
    simp only [InodeSys.goto, InodeSys.lose, stage_update (p := p) (c := .ready) (e := ip) hne hne']
    exact (h.copies.mirror ip hip hpos).congr rfl rfl rfl rfl
  | scanning inum type =>
    have hX : (s.pc p).entry = none := by rw [hpc]; rfl
    have hsound := h.pcs p
    rw [hpc] at hsound
    simp only [InodeAct.goOn, wp_bind, wp_failIf, wp_inFs, wp_onDev]
    refine ⟨fun _ => trivial, fun hn => ?_⟩
    refine ((keeps_txFrame (keeps_iallocTry type inum)).wp_and
      (iallocTry_spec hL type (Nat.lt_of_not_le hn) s.fs.dev)).mono ?_ fun _ _ => trivial
    rintro r v ⟨hr, hfr⟩
    cases r with
    | none =>
      subst hr
      exact h.offEntries (c := .scanning (inum + 1) type) (p := p) hX rfl ⟨by omega, hsound.2⟩ h.copies.fs rfl
        (fun _ _ => rfl) rfl rfl h.copies.born
        (h.books.move (.refl _) (fun e he => by cases he) (by rw [hpc]; rfl) fun e he => by cases he)
    | some k =>
      obtain ⟨rfl, htz, rfl⟩ := hr
      have hst := fresh_stored hL h.copies.fs ⟨hsound.1, Nat.lt_of_not_le hn⟩ htz hsound.2 hfr
      have hnone : diskTable sb s.fs.dev.cache k = none := if_neg fun hc => hc.2.2 htz
      refine h.offEntries (c := .allocated k) (p := p) hX rfl ⟨hsound.1, Nat.lt_of_not_le hn⟩ hst.fs rfl
        (fun i hi => hst.other fun hik => hi (by rw [hik, hnone])) rfl rfl (fun i t hb => ?_)
        (h.books.move (fun _ => ⟨rfl, rfl⟩) (fun e he => by cases he) (by rw [hpc]; rfl) fun e he => by cases he)
      simp only [InodeSys.goto, InodeSys.store] at hb ⊢
      rcases eq_or_ne i k with rfl | hne
      · rw [update_self] at hb
        cases hb
        exact hst.self
      · rw [update_of_ne hne] at hb
        rw [hst.other hne]
        exact h.copies.born i t hb
  | allocated inum =>
    have hi := h.pcs p
    rw [hpc] at hi
    simp only [InodeAct.goOn, wp_bind, wp_inFs, wp_modify]
    exact (iget_step h (c := .ready) hi (by rw [hpc]; rfl) (by rw [hpc]; rfl) ⟨rfl, rfl⟩ trivial).post fun _ _ hs => hs.1

theorem InodeInv.home (hL : Layout sb) (h : InodeInv sb s) (hr : s.pc p = .ready) {v : Dev} (hh : HeadOk sb v.log.lh)
    (hc : ∀ b, Home sb b → v.cache b = s.fs.dev.cache b) : InodeStep sb s { s with fs := { s.fs with dev := v } } := by
  have htab : diskTable sb v.cache = diskTable sb s.fs.dev.cache := diskTable_congr fun j _ =>
    dinodeOf_congr (hc _ (hL.home_of_le (inodestart_le_iblock sb j)))
  refine h.offEntries (p := p) (by rw [hr]; rfl) (by rw [hr]; rfl) (h.pcs p) ?_ rfl (fun i _ => ?_)
    (update_eq_self p s.pc).symm rfl (fun i t hi => ?_) (h.books.sameLocks fun _ => ⟨rfl, rfl⟩)
  · simp only [htab]
    exact (h.copies.fs.home hL hh hc).1
  · simp only [htab]
  · simp only [htab]
    exact h.copies.born i t hi

theorem exec_ok (hL : Layout sb) (h : InodeInv sb s) {a : InodeAct} (ha : a.Allowed sb s p) :
    wp (a.exec sb p) (fun _ s' => InodeStep sb s s') (fun _ => True) s := by
  have hready {ip : Nat} (hr : s.pc p = .ready) (e : Nat) (he : (s.pc p).entry = some e) : e = ip := by
    rw [hr] at he
    cases he
  cases a with
  | iget inum =>
    simp only [InodeAct.exec, wp_bind, wp_inFs, wp_modify]
    refine (iget_step h (c := .ready) (p := p) ha.2 (by rw [ha.1]; rfl) (by rw [ha.1]; rfl) ⟨rfl, rfl⟩ trivial).post
      fun ip f hs => ?_
    have hpc : update s.pc p .ready = s.pc := by rw [← ha.1, update_eq_self]
    rw [hpc] at hs
    exact hs.1
  | idup ip =>
    have hip : ip < NINODE := h.books.bound _ ha.2
    have hpos : 0 < (s.fs.icache ip).ref := h.books.pos ha.2
    simp only [InodeAct.exec, Xv6.idup, wp_bind, wp_inFs, wp_setInode, wp_pure, wp_modify]
    exact h.inMemory hip hpos (hready ha.1) (hready ha.1) (h.pcs p) rfl (update_eq_self p s.pc).symm rfl rfl
      (fun _ _ => rfl) ((h.copies.mirror ip hip hpos).congr rfl rfl rfl rfl) rfl (h.books.gain hip rfl rfl)
  | give ip q =>
    exact h.offEntries (by rw [ha.1]; rfl) (by rw [ha.1]; rfl) (h.pcs p) h.copies.fs rfl (fun _ _ => rfl)
      (update_eq_self p s.pc).symm rfl h.copies.born (h.books.give ha.2.1 ha.2.2)
  | ilock ip =>
    simp only [InodeAct.exec, acquiresleep, wp_bind, wp_get, wp_failIf, wp_inFs, wp_setInode, wp_modify]
    refine ⟨fun _ => trivial, fun _ => ⟨fun _ => trivial, fun hl => ?_⟩⟩
    exact h.take ha.1 (h.books.bound _ ha.2) (h.books.pos ha.2) hl (.inl rfl) fun ho => h.books.acquire ho ha.1
      locked_update (fun _ => rfl) h.books.bound (fun _ _ _ => id) (fun _ _ => id) rfl (.inl ⟨ha.2, rfl⟩)
  | iunlock ip =>
    obtain ⟨hv, hT⟩ := h.open ha.2 (by rw [ha.1]; rfl)
    simp only [InodeAct.exec, Xv6.iunlock, releasesleep, wp_bind, wp_get, wp_failIf, wp_inFs, wp_setInode, wp_modify]
    refine ⟨fun _ => trivial, fun _ => ?_⟩
    have hb := h.books.release (f := ⟨s.fs.dev, update s.fs.icache ip { s.fs.icache ip with locked := false }, s.fs.freed⟩)
      ha.2 locked_update (c := s.pc p) (by rw [ha.1]; rfl) rfl (fun e he => by rw [ha.1] at he; cases he) (hready ha.1)
    rw [update_eq_self] at hb
    refine h.inMemory (h.books.lt_of_holder ha.2) (h.books.pos_of_holder ha.2) (hready ha.1) (hready ha.1) (h.pcs p) rfl
      (update_eq_self p s.pc).symm rfl rfl (fun e he => update_of_ne he _ _) ?_ rfl hb
    simp only [InodeSys.lock, update_self, stage_none]
    exact fun _ => hT
  | setFields ip major minor nlink =>
    simp only [InodeAct.exec, wp_bind, wp_inFs, wp_setInode, wp_modify]
    obtain ⟨hpc | hpc, hh⟩ := ha
    · obtain ⟨hv, hT⟩ := h.open hh (by rw [hpc]; rfl)
      exact h.hold hh (hready hpc) (.inl rfl) (by rw [hpc]; rfl) (.same h.copies.fs rfl) rfl rfl rfl rfl
        ⟨hv, _, hT, rfl, rfl, rfl⟩ h.copies.born
    · obtain ⟨-, hX, hv, hm⟩ := h.inside hpc rfl
      exact h.hold hh hX (.inl rfl) (by rw [hpc]) (.same h.copies.fs rfl) rfl rfl rfl rfl ⟨hv, hm⟩ h.copies.born
  | iupdate ip =>
    simp only [InodeAct.exec, Icache.iupdate, wp_bind, wp_inFs, wp_get, wp_onDev, wp_modify]
    obtain ⟨hpc, hh⟩ := ha
    -- what is in memory differs from the disk in `major`, `minor` and `nlink` at most
    obtain ⟨hX, hputs, hv, d, hT, ht, haddr, hs⟩ : (∀ e, (s.pc p).entry = some e → e = ip) ∧ (s.pc p).puts = none ∧
        (s.fs.icache ip).valid = true ∧ ∃ d, diskTable sb s.fs.dev.cache (s.fs.icache ip).inum = some d ∧
          (s.fs.icache ip).d.type = d.type ∧ (s.fs.icache ip).d.addrs = d.addrs ∧ (s.fs.icache ip).d.size = d.size := by
      rcases hpc with hpc | hpc
      · obtain ⟨hv, hT⟩ := h.open hh (by rw [hpc]; rfl)
        exact ⟨hready hpc, by rw [hpc]; rfl, hv, _, hT, rfl, rfl, rfl⟩
      · obtain ⟨-, hX, hm⟩ := h.inside hpc rfl
        exact ⟨hX, by rw [hpc]; rfl, hm⟩
    refine (iupdate_stored hL h.copies.fs hT _ ht haddr hs).mono ?_ fun _ _ => trivial
    rintro _ v ⟨hst, -⟩
    have hstep := h.hold (c := .ready) (l := s.fs.freed) hh hX (.inr rfl) (by rw [hputs]; rfl) hst rfl rfl rfl rfl
      ⟨hv, hst.self⟩ fun i t => born_stored h hst
    rwa [update_eq_self] at hstep
  | readi ip off n =>
    obtain ⟨hr, hh, hoff, hn, hcons⟩ := ha
    obtain ⟨hv, hT⟩ := h.open hh (by rw [hr]; rfl)
    simp only [InodeAct.exec, Icache.readi, wp_bind, wp_inFs, wp_get, if_neg hcons, wp_onDev]
    refine (readi_same hL h.copies.fs hT hcons hoff hn).mono ?_ fun _ => False.elim
    rintro ⟨r, _⟩ _ ⟨rfl, rfl⟩
    exact h.edit hh hr (.same h.copies.fs hT) h.copies.born
  | writei ip src off n =>
    obtain ⟨hr, hh, hoff, hn, hcons⟩ := ha
    obtain ⟨hv, hT⟩ := h.open hh (by rw [hr]; rfl)
    simp only [InodeAct.exec, Icache.writei, wp_bind, wp_inFs, wp_get, if_neg hcons, wp_onDev]
    refine (writei_stored hL h.copies.fs hT hcons src hoff hn).mono ?_ fun _ _ => trivial
    rintro ⟨r, d⟩ v hst
    simp only [wp_setInode, wp_pure, wp_modify, update_self]
    exact h.edit hh hr hst fun i t => born_stored h hst
  | iput ip =>
    simp only [InodeAct.exec, acquiresleep, wp_bind, wp_get, wp_failIf, wp_inFs, wp_setInode, wp_modify]
    refine ⟨fun _ => trivial, fun hl => ?_⟩
    have hperm := List.perm_cons_erase ha.2
    have hip : ip < NINODE := h.books.bound _ ha.2
    refine h.take ha.1 hip (h.books.pos ha.2) hl (.inr rfl) fun ho => h.books.acquire ho ha.1 locked_update (fun e => ?_)
      (fun t ht => ?_) (fun q e he hm => ?_) (fun q e hm => ?_) rfl (.inr ⟨List.mem_cons_self .., rfl⟩)
    · rw [hperm.countP_eq]
      simp only [InodeSys.lock, InodeSys.gain, InodeSys.lose, List.countP_cons, InodeRef.ip_held, InodeRef.ip_put]
      rfl
    · rcases List.mem_cons.1 ht with rfl | ht
      · exact hip
      · exact h.books.bound t (List.mem_of_mem_erase ht)
    · exact List.mem_cons_of_mem _ ((List.mem_erase_of_ne fun heq => he (InodeRef.held.inj heq).2).2 hm)
    · exact List.mem_cons_of_mem _ ((List.mem_erase_of_ne (fun heq => by cases heq)).2 hm)
  | ialloc type =>
    exact h.offEntries (c := .scanning 1 type) (p := p) (by rw [ha.1]; rfl) rfl ⟨Nat.le_refl 1, ha.2⟩ h.copies.fs rfl
      (fun _ _ => rfl) rfl rfl h.copies.born
      (h.books.move (.refl _) (fun e he => by cases he) (by rw [ha.1]; rfl) fun e he => by cases he)
  | beginOp =>
    refine wp_inFs.2 (wp_onDev.2 (beginOp_spec.mono ?_ fun _ _ => trivial))
    rintro _ _ rfl
    exact h.home hL ha h.copies.fs.head fun _ _ => rfl
  | endOp =>
    refine wp_inFs.2 (wp_onDev.2 ((endOp_spec hL.logArea h.copies.fs.head).mono ?_ fun _ _ => trivial))
    rintro _ v ⟨hc, -, -, hh⟩
    exact h.home hL ha hh hc
  | next =>
    simp only [InodeAct.exec, wp_bind, wp_get]
    exact goOn_ok hL h rfl

end Steps

/-! ### Runs -/

def inodeLts (sb : Superblock) : Lts InodeSys (Nat × InodeAct) where
  init s := FsOk sb s.fs.dev (diskTable sb s.fs.dev.cache) ∧
    (∀ e, (s.fs.icache e).ref = 0 ∧ (s.fs.icache e).locked = false) ∧ (∀ p, s.pc p = .ready) ∧
    (∀ e, s.holder e = none) ∧ s.refs = [] ∧ ∀ i, s.born i = none
  step s a s' := a.2.Allowed sb s a.1 ∧ (a.2.exec sb a.1).run s = .ok ((), s')

structure Coherent (sb : Superblock) (s : InodeSys) : Prop where
  /-- No inode has two entries with references. -/
  unique : ∀ e e', e < NINODE → e' < NINODE → 0 < (s.fs.icache e).ref → 0 < (s.fs.icache e').ref →
    (s.fs.icache e).dev = (s.fs.icache e').dev → (s.fs.icache e).inum = (s.fs.icache e').inum → e = e'
  /-- No entry with references is given to another inode. -/
  assigned : ∀ a s', (inodeLts sb).step s a s' → ∀ e, 0 < (s.fs.icache e).ref →
    (s'.fs.icache e).dev = (s.fs.icache e).dev ∧ (s'.fs.icache e).inum = (s.fs.icache e).inum
  /-- A valid entry with references is, while its lock is free, what the disk has. -/
  copy : ∀ e, e < NINODE → 0 < (s.fs.icache e).ref → (s.fs.icache e).valid = true → (s.fs.icache e).locked = false →
    (s.fs.icache e).d = dinodeOf sb s.fs.dev.cache (s.fs.icache e).inum
  /-- `ialloc` returns an entry for the inode that it has allocated. -/
  returned : ∀ p inum s', s.pc p = .allocated inum → (inodeLts sb).step s (p, .next) s' →
    ∃ ip, s'.refs = .held p ip :: s.refs ∧ (s'.fs.icache ip).inum = inum
  /-- Who locks an inode sees what the disk has. As long as nothing has been stored into an inode since `ialloc`
  took it, that is the type given and zeros. -/
  locked : ∀ p ip s', s.pc p = .ilocking ip → (inodeLts sb).step s (p, .next) s' →
    (s'.fs.icache ip).d = dinodeOf sb s'.fs.dev.cache (s.fs.icache ip).inum ∧
    ∀ type, s.born (s.fs.icache ip).inum = some type → (s'.fs.icache ip).d = .fresh type

section Runs

variable {sb : Superblock} {h : List (Nat × InodeAct)} {s s' : InodeSys} {p ip : Nat}

theorem inodeInv_of_run (hL : Layout sb) (hr : (inodeLts sb).Run h s) : InodeInv sb s := by
  refine Lts.Run.invariant (S := inodeLts sb) (I := fun _ s => InodeInv sb s) (fun s hi => ?_) (fun _ s a s' hI hs => ?_) hr
  · obtain ⟨hfs, hcold, hpc, hh, hrefs, hborn⟩ := hi
    have hno : ∀ e, ¬ 0 < (s.fs.icache e).ref := fun e => by rw [(hcold e).1]; exact Int.lt_irrefl 0
    refine ⟨⟨fun e => ?_, fun t ht => ?_, fun e => ?_, fun p e he => ?_, fun e p he => ?_, fun p e he => ?_, fun p e he => ?_⟩,
      ⟨hfs, fun e _ hp => absurd hp (hno e), fun e _ hp => absurd hp (hno e), fun e _ _ _ hp => absurd hp (hno e),
        fun e _ hp => absurd hp (hno e), fun i t hi => ?_⟩, fun p => ?_⟩
    · rw [hrefs, (hcold e).1]
      rfl
    · rw [hrefs] at ht
      cases ht
    · rw [(hcold e).2, hh e]
      rfl
    · rw [hpc] at he
      cases he
    · rw [hh] at he
      cases he
    · rw [hpc] at he
      cases he
    · rw [hpc] at he
      cases he
    · rw [hborn] at hi
      cases hi
    · rw [hpc]
      trivial
  · exact ((exec_ok hL hI hs.1).of_ok hs.2).inv

theorem ilock_returns (hL : Layout sb) (hI : InodeInv sb s) (hpc : s.pc p = .ilocking ip)
    (hs : (inodeLts sb).step s (p, .next) s') :
    diskTable sb s'.fs.dev.cache (s.fs.icache ip).inum = some (s'.fs.icache ip).d ∧ s'.born = s.born := by
  obtain ⟨hh, -, hm⟩ := hI.inside hpc rfl
  have hI' := ((exec_ok hL hI hs.1).of_ok hs.2)
  have hpost : wp (InodeAct.exec sb p .next) (fun _ t => t.pc = update s.pc p .ready ∧ t.holder = s.holder ∧
      t.born = s.born) (fun _ => True) s := by
    simp only [InodeAct.exec, wp_bind, wp_get, hpc, InodeAct.goOn, ilockLoad, wp_inFs, wp_ite, wp_pure, wp_onDev, wp_bread,
      wp_setInode, wp_failIf, wp_modify]
    exact ⟨fun _ => ⟨rfl, rfl, rfl⟩, fun _ => ⟨fun _ => trivial, fun _ => ⟨fun _ => trivial, fun _ => ⟨rfl, rfl, rfl⟩⟩⟩⟩
  obtain ⟨hpc', hh', hb⟩ := hpost.of_ok hs.2
  have hheld : s'.holder ip = some p := by rw [hh', hh]
  have hopen := hI'.inv.open hheld (by rw [hpc', update_self]; rfl)
  rw [(hI'.kept ip (hI.books.pos_of_holder hh)).2] at hopen
  exact ⟨hopen.2, hb⟩

/-- The inode cache is unique and write-through, and a fresh inode is seen fresh. -/
theorem inode_cache_coherent (hL : Layout sb) (hr : (inodeLts sb).Run h s) : Coherent sb s := by
  have hI := inodeInv_of_run hL hr
  refine ⟨fun e e' he he' hp hp' _ hi => hI.copies.uniq e e' he he' hp hp' hi,
    fun a s' hs e he => ((exec_ok hL hI hs.1).of_ok hs.2).kept e he, fun e he hp hv hl => ?_,
    fun p inum s' hpc hs => ?_, fun p ip s' hpc hs => ?_⟩
  · have hT := (hI.free he hp (by rw [hl]; exact Bool.false_ne_true)).2 hv
    exact (diskTable_some hT).2.2.2.symm
  · have hsound := hI.pcs p
    rw [hpc] at hsound
    have hpost : wp (InodeAct.exec sb p .next) (fun _ t => ∃ ip, t.refs = .held p ip :: s.refs ∧
        (t.fs.icache ip).inum = inum) (fun _ => True) s := by
      simp only [InodeAct.exec, wp_bind, wp_get, hpc, InodeAct.goOn, wp_inFs, wp_modify]
      exact (iget_step hI (c := .ready) (p := p) hsound (by rw [hpc]; rfl) (by rw [hpc]; rfl) ⟨rfl, rfl⟩ trivial).post
        fun ip _ hstep => ⟨ip, rfl, hstep.2⟩
    exact hpost.of_ok hs.2
  · obtain ⟨hT, hb⟩ := ilock_returns hL hI hpc hs
    refine ⟨(diskTable_some hT).2.2.2.symm, fun type ht => ?_⟩
    have hI' := ((exec_ok hL hI hs.1).of_ok hs.2).inv
    have hfresh := hI'.copies.born _ type (by rw [hb, ht])
    rw [hT] at hfresh
    exact Option.some.inj hfresh

end Runs

/-! ### One process alone -/

def inodeScript (sb : Superblock) : List (Nat × InodeAct) → InodeSysM Unit
  | [] => pure ()
  | a :: as => do
    failIf (¬ a.2.Allowed sb (← get) a.1) .sleeps
    a.2.exec sb a.1
    inodeScript sb as

theorem run_inodeScript {sb : Superblock} {as : List (Nat × InodeAct)} : ∀ {h : List (Nat × InodeAct)} {s s' : InodeSys},
    (inodeLts sb).Run h s → (inodeScript sb as).run s = .ok ((), s') → (inodeLts sb).Run (as.reverse ++ h) s' := by
  induction as with
  | nil =>
    intro h s s' hr hs
    cases hs
    exact hr
  | cons a as ih =>
    intro h s s' hr hs
    have hw : wp (inodeScript sb (a :: as)) (fun _ t => (inodeLts sb).Run ((a :: as).reverse ++ h) t) (fun _ => True) s := by
      simp only [inodeScript, wp_bind, wp_get, wp_failIf]
      refine ⟨fun _ => trivial, fun ha => ?_⟩
      refine (wp_run (x := a.2.exec sb a.1) (s := s)).mono (fun _ s₁ h₁ => ?_) fun _ _ => trivial
      refine (wp_run (x := inodeScript sb as) (s := s₁)).mono (fun _ s₂ h₂ => ?_) fun _ _ => trivial
      have hrun := ih (.step hr ⟨not_not.1 ha, h₁⟩) h₂
      simpa using hrun
    exact hw.of_ok hs

section Alone

variable {sb : Superblock} {s : InodeSys} {p ip : Nat} {f : Fs} {as : List (Nat × InodeAct)}
  {Q : Unit → InodeSys → Prop} {E : Fault → Prop}

theorem wp_inodeScript_cons {a : Nat × InodeAct} (ha : a.2.Allowed sb s a.1)
    (h : wp (a.2.exec sb a.1) (fun _ s' => wp (inodeScript sb as) Q E s') E s) : wp (inodeScript sb (a :: as)) Q E s := by
  simp only [inodeScript, wp_bind, wp_get, wp_failIf]
  exact ⟨fun hn => absurd ha hn, fun _ => h⟩

theorem wp_inodeScript_next {c : InodePc} (hpc : s.pc p = c)
    (h : wp (InodeAct.goOn sb p c) (fun _ s' => wp (inodeScript sb as) Q E s') E s) :
    wp (inodeScript sb ((p, .next) :: as)) Q E s := by
  refine wp_inodeScript_cons trivial ?_
  simp only [InodeAct.exec, wp_bind, wp_get, hpc]
  exact h

theorem ilock_alone (hpc : s.pc p = .ready) (hm : .held p ip ∈ s.refs) (hr : (ilock sb ip).run s.fs = .ok ((), f)) :
    ∃ s', (inodeScript sb [(p, .ilock ip), (p, .next)]).run s = .ok ((), s') ∧ s'.fs = f := by
  have hseq : wp (ilock sb ip) (fun _ f' => f' = f) (fun _ => False) s.fs := wp_of_ok hr rfl
  simp only [ilock_eq, wp_bind, wp_get, wp_failIf, acquiresleep, wp_setInode] at hseq
  have hsteps : wp (inodeScript sb [(p, .ilock ip), (p, .next)]) (fun _ s' => s'.fs = f) (fun _ => False) s := by
    refine wp_inodeScript_cons ⟨hpc, hm⟩ ?_
    simp only [InodeAct.exec, wp_bind, wp_get, wp_failIf, acquiresleep, wp_inFs, wp_setInode, wp_modify]
    refine ⟨hseq.1, fun hpos => ⟨(hseq.2 hpos).1, fun hl => ?_⟩⟩
    refine wp_inodeScript_next (update_self ..) ?_
    simp only [InodeAct.goOn, wp_bind, wp_inFs, wp_modify]
    exact (hseq.2 hpos).2 hl
  obtain ⟨_, s', hrun, hfs⟩ := hsteps.exists_ok
  exact ⟨s', hrun, hfs⟩

theorem iput_alone (hpc : s.pc p = .ready) (hm : .held p ip ∈ s.refs) (hr : (iput sb ip).run s.fs = .ok ((), f)) :
    ∃ n s', (inodeScript sb ((p, .iput ip) :: List.replicate n (p, .next))).run s = .ok ((), s') ∧ s'.fs = f := by
  have hseq : wp (iput sb ip) (fun _ f' => f' = f) (fun _ => False) s.fs := wp_of_ok hr rfl
  simp only [iput, ifreeLast, ifree_eq, wp_bind, wp_get, wp_failIf, acquiresleep, wp_setInode, wp_ite, wp_pure, releasesleep,
    update_self, update_idem] at hseq
  obtain ⟨hfree, hseq⟩ := hseq
  -- the last two steps, from the point where the inode has been dealt with
  let drop (e : Inode) : Inode := { e with locked := false, ref := e.ref - 1 }
  have hdrop : ∀ t : InodeSys, t.pc p = .releasing ip →
      ({ t.fs with icache := update t.fs.icache ip (drop (t.fs.icache ip)) } : Fs) = f →
      wp (inodeScript sb (List.replicate 2 (p, .next))) (fun _ s' => s'.fs = f) (fun _ => False) t := by
    intro t ht hf
    refine wp_inodeScript_next ht ?_
    simp only [InodeAct.goOn, releasesleep, wp_bind, wp_inFs, wp_setInode, wp_modify]
    refine wp_inodeScript_next (update_self ..) ?_
    simp only [InodeAct.goOn, wp_bind, wp_inFs, wp_setInode, wp_modify, InodeSys.goto, InodeSys.lock, update_self,
      update_idem]
    exact hf
  suffices hsteps : ∃ n, wp (inodeScript sb ((p, .iput ip) :: List.replicate n (p, .next))) (fun _ s' => s'.fs = f)
      (fun _ => False) s by
    obtain ⟨n, hsteps⟩ := hsteps
    obtain ⟨_, s', hrun, hfs⟩ := hsteps.exists_ok
    exact ⟨n, s', hrun, hfs⟩
  by_cases hlast : (s.fs.icache ip).valid = true ∧ (s.fs.icache ip).d.nlink = 0 ∧ (s.fs.icache ip).ref = 1
  · refine ⟨6, wp_inodeScript_cons ⟨hpc, hm⟩ ?_⟩
    simp only [InodeAct.exec, wp_bind, wp_get, wp_failIf, acquiresleep, wp_inFs, wp_setInode, wp_modify]
    refine ⟨hfree, fun hl => ?_⟩
    refine wp_inodeScript_next (update_self ..) ?_
    simp only [InodeAct.goOn, wp_bind, wp_get, wp_modify, InodeSys.goto, InodeSys.lock, InodeSys.gain, InodeSys.lose,
      update_self, if_pos hlast]
    refine wp_inodeScript_next (update_self ..) ?_
    simp only [InodeAct.goOn, wp_bind, wp_inFs, wp_modify]
    refine ((hseq hl).1 hlast).post fun _ f₁ h₁ => ?_
    refine wp_inodeScript_next (update_self ..) ?_
    simp only [InodeAct.goOn, wp_bind, wp_inFs, wp_modify]
    refine h₁.post fun _ f₂ h₂ => ?_
    refine wp_inodeScript_next (update_self ..) ?_
    simp only [InodeAct.goOn, wp_bind, wp_inFs, wp_modify, wp_setInode]
    refine hdrop _ (update_self ..) ?_
    simp only [InodeSys.goto, update_self, update_idem]
    exact h₂
  · refine ⟨3, wp_inodeScript_cons ⟨hpc, hm⟩ ?_⟩
    simp only [InodeAct.exec, wp_bind, wp_get, wp_failIf, acquiresleep, wp_inFs, wp_setInode, wp_modify]
    refine ⟨hfree, fun hl => ?_⟩
    refine wp_inodeScript_next (update_self ..) ?_
    simp only [InodeAct.goOn, wp_bind, wp_get, wp_modify, InodeSys.goto, InodeSys.lock, InodeSys.gain, InodeSys.lose,
      update_self, if_neg hlast]
    refine hdrop _ (update_self ..) ?_
    simp only [update_self, update_idem]
    exact (hseq hl).2 hlast

end Alone

/-! ### Concrete runs -/

def oneFileSys : InodeSys where
  fs := oneBlockFs
  pc _ := .ready
  holder _ := none
  refs := []
  born _ := none

theorem run_oneFileSys : (inodeLts mkfsSuperblock).Run [] oneFileSys := by
  have hT : diskTable mkfsSuperblock oneFileSys.fs.dev.cache = oneInode (fileDinode 1 5) := diskTable_smallDisk 64 1 5 _
  refine .init ⟨?_, fun _ => ⟨rfl, rfl⟩, fun _ => rfl, fun _ => rfl, rfl, fun _ => rfl⟩
  rw [hT]
  exact fsOk_oneFile (by decide) (by decide) _ _

/-- `ialloc` and the first `ilock` after it, up to the point where `ilock` has the sleep-lock. -/
def freshScript : List (Nat × InodeAct) :=
  [(0, .beginOp), (0, .ialloc T_FILE), (0, .next), (0, .next), (0, .next), (0, .ilock 0)]

theorem inode_cache_coherent_fresh : ∃ h s, (inodeLts mkfsSuperblock).Run h s ∧ s.pc 0 = .ilocking 0 ∧
    (s.fs.icache 0).inum = 2 ∧ s.born 2 = some T_FILE ∧
    ∃ s', (inodeLts mkfsSuperblock).step s (0, .next) s' ∧ (s'.fs.icache 0).d = .fresh T_FILE := by
  have hres : (inodeScript mkfsSuperblock freshScript).result oneFileSys = some () := by decide +kernel
  have hr := run_inodeScript run_oneFileSys (run_eq_final hres)
  have hpc : ((inodeScript mkfsSuperblock freshScript).final oneFileSys).pc 0 = .ilocking 0 := by decide +kernel
  have hin : (((inodeScript mkfsSuperblock freshScript).final oneFileSys).fs.icache 0).inum = 2 := by decide +kernel
  have hborn : ((inodeScript mkfsSuperblock freshScript).final oneFileSys).born 2 = some T_FILE := by decide +kernel
  have hnext : (InodeAct.exec mkfsSuperblock 0 .next).result
      ((inodeScript mkfsSuperblock freshScript).final oneFileSys) = some () := by decide +kernel
  have hs : (inodeLts mkfsSuperblock).step ((inodeScript mkfsSuperblock freshScript).final oneFileSys) (0, .next) _ :=
    ⟨trivial, run_eq_final hnext⟩
  exact ⟨_, _, hr, hpc, hin, hborn, _, hs,
    ((inode_cache_coherent mkfs_layout hr).locked 0 0 _ hpc hs).2 T_FILE (by rw [hin, hborn])⟩

def staleScript : List (Nat × InodeAct) :=
  [(0, .iget 2), (0, .iget 1), (0, .ilock 1), (0, .next), (0, .iunlock 1),
    (0, .iput 1), (0, .next), (0, .next), (0, .next), (0, .iput 0), (0, .next), (0, .next), (0, .next),
    (0, .iget 1), (0, .ilock 0), (0, .next), (0, .beginOp), (0, .setFields 0 0 0 2), (0, .iupdate 0)]

def overtakenScript : List (Nat × InodeAct) :=
  [(1, .iget 2), (0, .beginOp), (0, .ialloc T_FILE), (0, .next), (0, .next), (0, .next),
    (1, .ilock 0), (1, .next), (1, .setFields 0 0 0 1), (1, .iupdate 0), (1, .iunlock 0), (0, .ilock 0), (0, .next)]

theorem inode_cache_stale_and_overtaken :
    (∃ h s, (inodeLts mkfsSuperblock).Run h s ∧ (s.fs.icache 1).valid = true ∧ (s.fs.icache 1).locked = false ∧
      (s.fs.icache 1).ref = 0 ∧
      (s.fs.icache 1).d.nlink ≠ (dinodeOf mkfsSuperblock s.fs.dev.cache (s.fs.icache 1).inum).nlink) ∧
    ∃ h s, (inodeLts mkfsSuperblock).Run h s ∧ s.refs = [.held 0 0, .held 1 0] ∧ s.holder 0 = some 0 ∧ s.pc 0 = .ready ∧
      (s.fs.icache 0).d.nlink ≠ (Dinode.fresh T_FILE).nlink := by
  have hstale : (inodeScript mkfsSuperblock staleScript).result oneFileSys = some () := by decide +kernel
  have hover : (inodeScript mkfsSuperblock overtakenScript).result oneFileSys = some () := by decide +kernel
  refine ⟨⟨_, _, run_inodeScript run_oneFileSys (run_eq_final hstale), ?_⟩,
    _, _, run_inodeScript run_oneFileSys (run_eq_final hover), ?_⟩ <;> decide +kernel

end Xv6
