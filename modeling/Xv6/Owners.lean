import Xv6.ByteFile
import Xv6.Icache
import Xv6.Trunc

/-!
# Who owns which block, over whole runs

The allocated inodes are read off the disk (`diskTable`). `CacheOk` is the invariant of the inode
cache: the free map balances with the allocated inodes, no file has a hole, and a valid entry with
references agrees with the inode block it stands for. Every inode operation keeps it.
-/

namespace Xv6

open Prog Function

def diskTable (sb : Superblock) (c : Image) : Table := fun i =>
  if 1 ≤ i ∧ i < sb.ninodes ∧ (dinodeOf sb c i).type ≠ 0 then some (dinodeOf sb c i) else none

structure CacheOk (sb : Superblock) (s : Fs) : Prop where
  fs : FsOk sb s.dev (diskTable sb s.dev.cache)
  inum : ∀ e, e < NINODE → 0 < (s.icache e).ref → 1 ≤ (s.icache e).inum ∧ (s.icache e).inum < sb.ninodes
  sync : ∀ e, e < NINODE → 0 < (s.icache e).ref → (s.icache e).valid = true →
    diskTable sb s.dev.cache (s.icache e).inum = some (s.icache e).d
  rootdev : ∀ e, e < NINODE → 0 < (s.icache e).ref → (s.icache e).dev = ROOTDEV
  uniq : ∀ e e', e < NINODE → e' < NINODE → 0 < (s.icache e).ref → 0 < (s.icache e').ref →
    (s.icache e).inum = (s.icache e').inum → e = e'

def NoDoubleFree (e : Fault) : Prop := e ≠ .panic "freeing free block"

theorem AllocFault.noDoubleFree {e : Fault} (h : AllocFault e) : NoDoubleFree e := by
  rcases h with rfl | rfl | rfl <;> simp [NoDoubleFree]

section

variable {sb : Superblock} {s : Fs} {c c' : Image} {i ip : Nat} {d : Dinode}

theorem diskTable_some (h : diskTable sb c i = some d) :
    1 ≤ i ∧ i < sb.ninodes ∧ d.type ≠ 0 ∧ dinodeOf sb c i = d := by
  unfold diskTable at h
  split at h
  · next hc =>
    cases h
    exact ⟨hc.1, hc.2.1, hc.2.2, rfl⟩
  · cases h

theorem diskTable_eq_some (hi : 1 ≤ i ∧ i < sb.ninodes) (hd : dinodeOf sb c i = d) (ht : d.type ≠ 0) :
    diskTable sb c i = some d := by
  subst hd
  exact if_pos ⟨hi.1, hi.2, ht⟩

theorem diskTable_set (hi : 1 ≤ i ∧ i < sb.ninodes) (hd : dinodeOf sb c' i = d) (ht : d.type ≠ 0)
    (ho : ∀ j, j ≠ i → j < sb.ninodes → dinodeOf sb c' j = dinodeOf sb c j) :
    diskTable sb c' = (diskTable sb c).set i d := by
  funext j
  by_cases hj : j = i
  · subst hj
    rw [Table.set, update_self, diskTable_eq_some hi hd ht]
  · rw [Table.set, update_of_ne hj]
    unfold diskTable
    by_cases hn : j < sb.ninodes
    · rw [ho j hj hn]
    · rw [if_neg (by omega), if_neg (by omega)]

theorem diskTable_free (hd : (dinodeOf sb c' i).type = 0)
    (ho : ∀ j, j ≠ i → j < sb.ninodes → dinodeOf sb c' j = dinodeOf sb c j) :
    diskTable sb c' = update (diskTable sb c) i none := by
  funext j
  by_cases hj : j = i
  · subst hj
    rw [update_self]
    exact if_neg fun h => h.2.2 hd
  · rw [update_of_ne hj]
    unfold diskTable
    by_cases hn : j < sb.ninodes
    · rw [ho j hj hn]
    · rw [if_neg (by omega), if_neg (by omega)]

theorem diskTable_congr (ho : ∀ j, j < sb.ninodes → dinodeOf sb c' j = dinodeOf sb c j) :
    diskTable sb c' = diskTable sb c := by
  funext j
  unfold diskTable
  by_cases hn : j < sb.ninodes
  · rw [ho j hn]
  · rw [if_neg (by omega), if_neg (by omega)]

/-- The image depends on block `b`: metadata, or named by an allocated inode. -/
def Needed (sb : Superblock) (c : Image) (b : Nat) : Prop := b < sb.nmeta ∨ ∃ r, refs c (diskTable sb c) r = b

/-- The device after inode `i` on disk has become `o`; a free inode is no entry of the table. -/
structure InodeStored (sb : Superblock) (i : Nat) (o : Option Dinode) (v v' : Dev) : Prop where
  fs : FsOk sb v' (diskTable sb v'.cache)
  table : diskTable sb v'.cache = update (diskTable sb v.cache) i o
  bytes : ∀ j d, j ≠ i → diskTable sb v.cache j = some d → contents v'.cache d = contents v.cache d
  frame : TxFrame sb v v'
  unlogged : ∀ b, b ∉ v'.log.lh → Needed sb v'.cache b → v'.cache b = v.cache b ∧ Needed sb v.cache b

theorem InodeStored.same {v : Dev} {o : Option Dinode} (h : FsOk sb v (diskTable sb v.cache))
    (hi : diskTable sb v.cache i = o) : InodeStored sb i o v v :=
  ⟨h, by rw [← hi, update_eq_self], fun _ _ _ _ => rfl, Std.Refl.refl v, fun _ _ hb => ⟨rfl, hb⟩⟩

theorem InodeStored.self {v v' : Dev} {o : Option Dinode} (h : InodeStored sb i o v v') : diskTable sb v'.cache i = o := by
  rw [h.table, update_self]

theorem InodeStored.other {v v' : Dev} {o : Option Dinode} (h : InodeStored sb i o v v') {j : Nat} (hj : j ≠ i) :
    diskTable sb v'.cache j = diskTable sb v.cache j := by
  rw [h.table, update_of_ne hj]

theorem InodeStored.trans {v v₁ v₂ : Dev} {o₁ o₂ : Option Dinode} (h₁ : InodeStored sb i o₁ v v₁)
    (h₂ : InodeStored sb i o₂ v₁ v₂) : InodeStored sb i o₂ v v₂ := by
  refine ⟨h₂.fs, by rw [h₂.table, h₁.table, update_idem], fun j d hj hd => ?_,
    IsTrans.trans _ _ _ h₁.frame h₂.frame, fun b hb hn => ?_⟩
  · rw [h₂.bytes j d hj (by rw [h₁.other hj, hd]), h₁.bytes j d hj hd]
  · obtain ⟨he₂, hn₂⟩ := h₂.unlogged b hb hn
    obtain ⟨he₁, hn₁⟩ := h₁.unlogged b (fun hm => hb (h₂.frame.mono b hm)) hn₂
    exact ⟨he₂.trans he₁, hn₁⟩

/-! ### Changes to the table of entries -/

theorem CacheOk.change (h : CacheOk sb s) (hpos : 0 < (s.icache ip).ref) {dev' : Dev} {e' : Inode}
    {freed' : List Nat} (hfs : FsOk sb dev' (diskTable sb dev'.cache))
    (ho : ∀ j, j ≠ (s.icache ip).inum → diskTable sb dev'.cache j = diskTable sb s.dev.cache j)
    (hin : e'.inum = (s.icache ip).inum) (hdev : e'.dev = (s.icache ip).dev) (hip : ip < NINODE)
    (hv : 0 < e'.ref → e'.valid = true → diskTable sb dev'.cache (s.icache ip).inum = some e'.d) :
    CacheOk sb { dev := dev', icache := update s.icache ip e', freed := freed' } := by
  have hget : ∀ e, 0 < (update s.icache ip e' e).ref → 0 < (s.icache e).ref ∧
      (update s.icache ip e' e).inum = (s.icache e).inum ∧
      (update s.icache ip e' e).dev = (s.icache e).dev := by
    intro e he
    by_cases hip : e = ip
    · subst hip
      rw [update_self] at he ⊢
      exact ⟨hpos, hin, hdev⟩
    · rw [update_of_ne hip] at he ⊢
      exact ⟨he, rfl, rfl⟩
  refine ⟨hfs, fun e he hp => ?_, fun e he hp hval => ?_, fun e he hp => ?_, fun e e₁ he he₁ hp hp₁ hi => ?_⟩
  · obtain ⟨h1, h2, -⟩ := hget e hp
    simp only [h2]
    exact h.inum e he h1
  · obtain ⟨h1, h2, -⟩ := hget e hp
    simp only [h2] at hval ⊢
    by_cases hei : e = ip
    · subst hei
      simp only [update_self] at hval hp ⊢
      exact hv hp hval
    · simp only [update_of_ne hei] at hval ⊢
      rw [ho _ fun hi => hei (h.uniq e ip he hip h1 hpos hi)]
      exact h.sync e he h1 hval
  · obtain ⟨h1, -, h3⟩ := hget e hp
    simp only [h3]
    exact h.rootdev e he h1
  · obtain ⟨h1, h2, -⟩ := hget e hp
    obtain ⟨h1', h2', -⟩ := hget e₁ hp₁
    simp only [h2, h2'] at hi
    exact h.uniq e e₁ he he₁ h1 h1' hi

theorem CacheOk.stored (h : CacheOk sb s) (hip : ip < NINODE) (hpos : 0 < (s.icache ip).ref) {v : Dev} {e' : Inode}
    {freed' : List Nat} {o : Option Dinode} (hst : InodeStored sb (s.icache ip).inum o s.dev v)
    (hin : e'.inum = (s.icache ip).inum) (hdev : e'.dev = (s.icache ip).dev)
    (hv : e'.valid = true → o = some e'.d) :
    CacheOk sb { dev := v, icache := update s.icache ip e', freed := freed' } :=
  h.change hpos hst.fs (fun _ => hst.other) hin hdev hip fun _ hval => hst.self.trans (hv hval)

theorem CacheOk.set_entry (h : CacheOk sb s) (hip : ip < NINODE) (hpos : 0 < (s.icache ip).ref) {e' : Inode}
    (hin : e'.inum = (s.icache ip).inum) (hdev : e'.dev = (s.icache ip).dev)
    (hv : e'.valid = true → diskTable sb s.dev.cache (s.icache ip).inum = some e'.d) :
    CacheOk sb { s with icache := update s.icache ip e' } :=
  h.change hpos h.fs (fun _ _ => rfl) hin hdev hip fun _ => hv

theorem CacheOk.home (hL : Layout sb) (h : CacheOk sb s) {v : Dev} (hh : HeadOk sb v.log.lh)
    (hc : ∀ b, Home sb b → v.cache b = s.dev.cache b) : CacheOk sb { s with dev := v } := by
  have htab : diskTable sb v.cache = diskTable sb s.dev.cache := diskTable_congr fun j hj =>
    dinodeOf_congr (hc _ (hL.home_of_le (inodestart_le_iblock sb j)))
  refine ⟨?_, h.inum, fun e he hp hv => ?_, h.rootdev, h.uniq⟩
  · simp only [htab]
    exact (h.fs.home hL hh hc).1
  · simp only [htab]
    exact h.sync e he hp hv

/-! ### `iget`, `idup`, `ilock`, `iunlock` -/

theorem iget_cases (dev i : Nat) (s : Fs) :
    wp (iget dev i) (fun ip s' => ip < NINODE ∧
      ((0 < (s.icache ip).ref ∧ (s.icache ip).dev = dev ∧ (s.icache ip).inum = i ∧
        s' = { s with icache := update s.icache ip { s.icache ip with ref := (s.icache ip).ref + 1 } }) ∨
      ((∀ e, e < NINODE → ¬ (0 < (s.icache e).ref ∧ (s.icache e).dev = dev ∧ (s.icache e).inum = i)) ∧
        (s.icache ip).ref = 0 ∧
        s' = { s with icache := update s.icache ip { s.icache ip with dev := dev, inum := i, ref := 1, valid := false } })))
      (fun e => e = .panic "iget: no inodes") s := by
  rw [iget]
  refine wp_bind.2 (wp_get.2 ?_)
  split
  · next ip hf =>
    obtain ⟨hip, hp⟩ := findInode_some hf
    simp only [decide_eq_true_eq] at hp
    exact ⟨hip, .inl ⟨hp.1, hp.2.1, hp.2.2, rfl⟩⟩
  · next hf =>
    split
    · exact rfl
    · next ip hf' =>
      obtain ⟨hip, hz⟩ := findInode_some hf'
      simp only [decide_eq_true_eq] at hz
      refine ⟨hip, .inr ⟨fun e he => ?_, hz, rfl⟩⟩
      have := findInode_none hf he
      simpa only [decide_eq_false_iff_not] using this

theorem iget_ok (h : CacheOk sb s) (hi : 1 ≤ i ∧ i < sb.ninodes) :
    wp (iget ROOTDEV i) (fun _ s' => CacheOk sb s' ∧ s'.dev = s.dev) NoDoubleFree s := by
  refine (iget_cases ROOTDEV i s).mono ?_ fun _ he => by rw [he]; simp [NoDoubleFree]
  rintro ip _ ⟨hip, ⟨hpos, -, -, rfl⟩ | ⟨hmiss, hz, rfl⟩⟩
  · exact ⟨h.set_entry hip hpos rfl rfl fun hv => h.sync ip hip hpos hv, rfl⟩
  · have hno : ∀ e, e < NINODE → 0 < (s.icache e).ref → (s.icache e).inum ≠ i := fun e he hp hin =>
      hmiss e he ⟨hp, h.rootdev e he hp, hin⟩
    refine ⟨⟨h.fs, fun e he hp => ?_, fun e he hp hv => ?_, fun e he hp => ?_, fun e e' he he' hp hp' heq => ?_⟩, rfl⟩
    · by_cases hei : e = ip
      · simp only [hei, update_self]; exact hi
      · simp only [update_of_ne hei] at hp ⊢
        exact h.inum e he hp
    · by_cases hei : e = ip
      · simp only [hei, update_self, Bool.false_eq_true] at hv
      · simp only [update_of_ne hei] at hp hv ⊢
        exact h.sync e he hp hv
    · by_cases hei : e = ip
      · simp only [hei, update_self]
      · simp only [update_of_ne hei] at hp ⊢
        exact h.rootdev e he hp
    · by_cases hei : e = ip <;> by_cases hei' : e' = ip
      · rw [hei, hei']
      · simp only [hei, update_self, update_of_ne hei'] at hp' heq
        exact absurd heq.symm (hno e' he' hp')
      · simp only [hei', update_self, update_of_ne hei] at hp heq
        exact absurd heq (hno e he hp)
      · simp only [update_of_ne hei, update_of_ne hei'] at hp hp' heq
        exact h.uniq e e' he he' hp hp' heq

structure Held (sb : Superblock) (s : Fs) (ip : Nat) (s' : Fs) : Prop where
  ok : CacheOk sb s'
  dev : s'.dev = s.dev
  pos : 0 < (s'.icache ip).ref
  valid : (s'.icache ip).valid = true
  inum : (s'.icache ip).inum = (s.icache ip).inum

theorem ilock_ok (h : CacheOk sb s) (hip : ip < NINODE) :
    wp (ilock sb ip) (fun _ s' => Held sb s ip s') NoDoubleFree s := by
  simp only [ilock, acquiresleep, wp_bind, wp_get, wp_failIf, wp_setInode, wp_ite, wp_pure, wp_onDev, wp_bread,
    update_self]
  refine ⟨fun _ => by simp [NoDoubleFree], fun hr => ⟨fun _ => by simp [NoDoubleFree], fun _ => ⟨fun hv => ?_, fun hv => ?_⟩⟩⟩
  · exact ⟨h.set_entry hip (by omega) rfl rfl fun _ => h.sync ip hip (by omega) hv, rfl,
      by simp only [update_self]; omega, by simp only [update_self]; exact hv,
      by simp only [update_self]⟩
  · refine ⟨fun _ => by simp [NoDoubleFree], fun _ => ⟨fun _ => by simp [NoDoubleFree], fun ht => ?_⟩⟩
    have hin := h.inum ip hip (by omega)
    simp only [update_idem]
    exact ⟨h.set_entry hip (by omega) rfl rfl fun _ => diskTable_eq_some hin rfl ht, rfl,
      by simp only [update_self]; omega, by simp only [update_self],
      by simp only [update_self]⟩

theorem iunlock_ok (h : CacheOk sb s) (hip : ip < NINODE) :
    wp (iunlock ip) (fun _ s' => CacheOk sb s' ∧ s'.dev = s.dev) NoDoubleFree s := by
  simp only [iunlock, releasesleep, wp_bind, wp_get, wp_failIf, wp_setInode]
  refine ⟨fun _ => by simp [NoDoubleFree], fun hr => ⟨h.set_entry hip (by omega) rfl rfl fun hv => ?_, trivial⟩⟩
  exact h.sync ip hip (by omega) hv

/-! ### Reading and writing -/

theorem consoleread_spec (n : Nat) (v : Dev) :
    wp (consoleread n) (fun _ v' => ∃ t, v' = { v with tape := t }) (fun _ => False) v := by
  simp only [consoleread, wp_bind, wp_get]
  split
  · exact ⟨v.tape, rfl⟩
  · next rest _ => exact ⟨rest, rfl⟩
  · next rest _ => exact ⟨rest, rfl⟩

theorem CacheOk.tape (h : CacheOk sb s) (t : List (Option (List Byte))) :
    CacheOk sb { s with dev := { s.dev with tape := t } } :=
  ⟨⟨h.fs.owned, h.fs.inum, h.fs.files, h.fs.head⟩, h.inum, h.sync, h.rootdev, h.uniq⟩

theorem readi_same (hL : Layout sb) {v : Dev} (h : FsOk sb v (diskTable sb v.cache)) (hT : diskTable sb v.cache i = some d)
    (hcons : ¬ (d.type = T_DEV ∧ d.major = CONSOLE)) {off n : Nat} (hoff : off < 2 ^ 32) (hn : n < 2 ^ 32) :
    wp (Xv6.readi sb d off n) (fun r v' => r.2 = d ∧ v' = v) (fun _ => False) v := by
  by_cases ht : d.type = T_DEV
  · rw [Xv6.readi, if_pos ht, if_neg fun hm => hcons ⟨ht, hm⟩]
    exact ⟨rfl, rfl⟩
  · by_cases ha : off ≤ d.size.toNat ∧ off + n < 2 ^ 32
    · refine (readi_spec sb (h.owned.ptr_lt hL hT) (h.files _ _ hT) ht ha.1 ha.2).post ?_
      rintro _ _ ⟨rfl, rfl⟩
      exact ⟨rfl, rfl⟩
    · rw [readi_refused ht ⟨hoff, hn⟩ (by omega)]
      exact ⟨rfl, rfl⟩

theorem writei_spliced (hL : Layout sb) {v : Dev} (h : FsOk sb v (diskTable sb v.cache))
    (hT : diskTable sb v.cache i = some d) (ht : d.type ≠ T_DEV) (src : Nat → Byte) {off n : Nat}
    (ha : WriteArgs d off n) :
    wp (Xv6.writei sb i d src off n) (fun r v' => r.1 = n ∧ InodeStored sb i (some r.2) v v' ∧
      r.2 = { d with addrs := r.2.addrs, size := r.2.size } ∧
      contents v'.cache r.2 = splice (contents v.cache d) off ((List.range n).map src) ∧ LogStep sb v v' ∧
      Written sb (diskTable sb v.cache) i ∅ off n src v d v' r.2) (fun e => AllocFault e ∧ ¬ Room sb off n v d) v := by
  obtain ⟨hi1, hin, htype, -⟩ := diskTable_some hT
  have hO := h.owned
  rw [← Table.set_eq hT] at hO
  have hkeep : Keeps (LogStep sb) (Xv6.writei sb i d src off n) := keeps_writei _ _ src off n
  refine (hkeep.wp_and (writei_spec hL hin hO (h.files _ _ hT) ht src ha)).mono ?_ fun _ he => he
  rintro ⟨r, d'⟩ v' ⟨⟨hr, hw⟩, hfr⟩
  simp only at hw
  have htab : diskTable sb v'.cache = (diskTable sb v.cache).set i d' :=
    diskTable_set ⟨hi1, hin⟩ (hw.sync (diskTable_some hT).2.2.2) (by rw [hw.same]; exact htype) hw.dinodes
  refine ⟨hr, ⟨?_, htab, fun j e hj he => ?_, hfr.toTxFrame, fun b hb hn => ⟨hfr.unlogged b hb, hn.imp_right ?_⟩⟩, hw.same,
    hw.contents_eq (h.files _ _ hT) ha.1 ?_, hfr, hw⟩
  · rw [htab]
    exact h.written hL hT hw hfr.toTxFrame
  · exact contents_congr rfl fun k _ => hw.bytes_other j e hj he k
  · rintro ⟨r, rfl⟩
    refine ⟨r, ?_⟩
    have hnews := hw.announced.news r
    rw [Table.set_eq hT, ← htab] at hnews
    exact (hnews.resolve_right hb).symm
  · have := ha.2.2
    simp only [MAXFILE, NDIRECT, NINDIRECT, NDINDIRECT, BSIZE] at this
    omega

theorem writei_stored (hL : Layout sb) {v : Dev} (h : FsOk sb v (diskTable sb v.cache))
    (hT : diskTable sb v.cache i = some d) (hcons : ¬ (d.type = T_DEV ∧ d.major = CONSOLE)) (src : Nat → Byte)
    {off n : Nat} (hoff : off < 2 ^ 32) (hn : n < 2 ^ 32) :
    wp (Xv6.writei sb i d src off n) (fun r v' => InodeStored sb i (some r.2) v v') AllocFault v := by
  by_cases ht : d.type = T_DEV
  · rw [Xv6.writei, if_pos ht, if_neg fun hm => hcons ⟨ht, hm⟩]
    exact .same h hT
  · by_cases ha : WriteArgs d off n
    · exact (writei_spliced hL h hT ht src ha).mono (fun _ _ hw => hw.2.1) fun _ he => he.1
    · rw [writei_refused ht ⟨hoff, hn⟩ src ha]
      exact .same h hT

theorem Icache.readi_ok (hL : Layout sb) (h : CacheOk sb s) (hip : ip < NINODE) (hpos : 0 < (s.icache ip).ref)
    (hv : (s.icache ip).valid = true) {off n : Nat} (hoff : off < 2 ^ 32) (hn : n < 2 ^ 32) :
    wp (Icache.readi sb ip off n) (fun _ s' => CacheOk sb s' ∧ s'.dev.cache = s.dev.cache) NoDoubleFree s := by
  have hT := h.sync ip hip hpos hv
  rw [Icache.readi]
  refine wp_bind.2 (wp_get.2 ?_)
  dsimp only
  split
  · refine wp.bind (iunlock_ok h hip) ?_
    rintro _ s₁ ⟨h₁, hd₁⟩
    refine wp_bind.2 (wp_onDev.2 ((consoleread_spec n s₁.dev).mono ?_ fun _ => False.elim))
    rintro r _ ⟨t, rfl⟩
    refine wp.bind (ilock_ok (h₁.tape t) hip) fun _ s₂ h₂ => ⟨h₂.ok, ?_⟩
    rw [h₂.dev, hd₁]
  · next hcons =>
    refine wp_bind.2 (wp_onDev.2 ((readi_same hL h.fs hT hcons hoff hn).mono ?_ fun _ => False.elim))
    rintro ⟨r, _⟩ _ ⟨rfl, rfl⟩
    exact ⟨h.set_entry hip hpos rfl rfl fun _ => hT, rfl⟩

theorem Icache.writei_ok (hL : Layout sb) (h : CacheOk sb s) (hip : ip < NINODE) (hpos : 0 < (s.icache ip).ref)
    (hv : (s.icache ip).valid = true) (src : Nat → Byte) {off n : Nat} (hoff : off < 2 ^ 32) (hn : n < 2 ^ 32) :
    wp (Icache.writei sb ip src off n) (fun _ s' => CacheOk sb s') NoDoubleFree s := by
  have hT := h.sync ip hip hpos hv
  rw [Icache.writei]
  refine wp_bind.2 (wp_get.2 ?_)
  dsimp only
  split
  · refine wp.bind (iunlock_ok h hip) ?_
    rintro _ s₁ ⟨h₁, -⟩
    exact wp.bind (ilock_ok h₁ hip) fun _ s₂ h₂ => h₂.ok
  · next hcons =>
    refine wp_bind.2 (wp_onDev.2 ((writei_stored hL h.fs hT hcons src hoff hn).mono ?_ fun _ => AllocFault.noDoubleFree))
    rintro ⟨r, d'⟩ v' hst
    exact h.stored hip hpos hst rfl rfl fun _ => rfl

/-! ### `iupdate` of changed fields -/

theorem FsOk.iupdate (hL : Layout sb) {v : Dev} {T : Table} (h : FsOk sb v T) {d' : Dinode} (hi : T i = some d)
    (ha : d'.addrs = d.addrs) (hs : d'.size = d.size) (ht : TxFrame sb v (v.iupdate sb i d')) :
    FsOk sb (v.iupdate sb i d') (T.set i d') := by
  have hin := h.inum i d hi
  have hib := hL.iblock_lt hin
  have hbm := hL.bmap_lt
  have hO := h.owned
  rw [← Table.set_eq hi] at hO
  have hO' := (hO.set_same ha).store_low hL hib (putDinode sb v.cache i d' (iblock sb i))
  refine ⟨hO', fun j e he => ?_, fun j e he => ?_, ht.headOk h.head hL fun x hx => ?_⟩
  · by_cases hj : j = i
    · exact hj ▸ hin
    · rw [Table.set, update_of_ne hj] at he
      exact h.inum j e he
  · by_cases hj : j = i
    · subst hj
      rw [Table.set, update_self] at he
      cases he
      have hf := h.files j d hi
      refine ⟨by rw [hs]; exact hf.size_le, fun bn hbn => ?_⟩
      rw [Dev.iupdate, ptr_store_low (hO.set_same ha) (by omega) _ (update_self ..), ptr_addrs ha]
      exact hf.mapped bn (by rwa [← hs])
    · rw [Table.set, update_of_ne hj] at he
      have hf := h.files j e he
      refine ⟨hf.size_le, fun bn hbn => ?_⟩
      rw [Dev.iupdate, ptr_store_low h.owned (by omega) _ he]
      exact hf.mapped bn hbn
  · rcases mem_absorb.1 hx with hx | rfl
    · exact .inl hx
    · exact .inr ⟨inodestart_le_iblock sb i, hL.iblock_lt_size hin⟩

theorem iupdate_contents (hL : Layout sb) {v : Dev} (h : FsOk sb v (diskTable sb v.cache)) (hin : i < sb.ninodes)
    (d' : Dinode) {j : Nat} {e : Dinode} (he : diskTable sb v.cache j = some e) :
    contents (v.iupdate sb i d').cache e = contents v.cache e := by
  have hib := hL.iblock_lt hin
  have hbm := hL.bmap_lt
  exact contents_congr rfl fun k _ => byteAt_store_low h.owned (by omega) _ he k

theorem iupdate_unlogged (hL : Layout sb) {v : Dev} (h : FsOk sb v (diskTable sb v.cache)) (hin : i < sb.ninodes)
    (d' : Dinode) (hrefs : refs v.cache (diskTable sb (v.iupdate sb i d').cache) = refs v.cache (diskTable sb v.cache)) {b : Nat}
    (hb : b ∉ (v.iupdate sb i d').log.lh) (hn : Needed sb (v.iupdate sb i d').cache b) :
    (v.iupdate sb i d').cache b = v.cache b ∧ Needed sb v.cache b := by
  have hib := hL.iblock_lt hin
  have hbm := hL.bmap_lt
  have hb' := mt mem_absorb.2 hb
  push Not at hb'
  refine ⟨update_of_ne hb'.2 .., hn.imp_right ?_⟩
  have hO : Owned sb v.cache (diskTable sb (v.iupdate sb i d').cache) ∅ := by
    rw [Owned, hrefs]
    exact h.owned
  rintro ⟨r, rfl⟩
  refine ⟨r, ?_⟩
  rw [← hrefs, ← refs_store_low hO (by omega : iblock sb i < sb.nmeta) (putDinode sb v.cache i d' (iblock sb i))]
  rfl

theorem iupdate_stored (hL : Layout sb) {v : Dev} (h : FsOk sb v (diskTable sb v.cache))
    (hT : diskTable sb v.cache i = some d) (d' : Dinode) (ht : d'.type = d.type) (ha : d'.addrs = d.addrs)
    (hs : d'.size = d.size) : wp (Xv6.iupdate sb i d') (fun _ v' => InodeStored sb i (some d') v v' ∧
      contents v'.cache d' = contents v.cache d) AllocFault v := by
  obtain ⟨hi1, hin, htype, -⟩ := diskTable_some hT
  refine ((keeps_txFrame (keeps_iupdate _ _)).wp_and
    (iupdate_spec (P := False) _ (hL.lt_fssize (hL.iblock_lt_size hin)) False.elim)).mono ?_
    fun _ he => .inr he.1
  rintro _ _ ⟨rfl, hfr⟩
  have htab : diskTable sb (v.iupdate sb i d').cache = (diskTable sb v.cache).set i d' :=
    diskTable_set ⟨hi1, hin⟩ (by rw [dinodeOf_iupdate, if_pos rfl]) (by rwa [ht])
      fun j hj _ => by rw [dinodeOf_iupdate, if_neg hj]
  refine ⟨⟨?_, htab, fun j e _ he => ?_, hfr, fun b hb hn => iupdate_unlogged hL h hin d' ?_ hb hn⟩, ?_⟩
  · rw [htab]
    exact h.iupdate hL hT ha hs hfr
  · exact iupdate_contents hL h hin d' he
  · rw [htab]
    exact refs_update_table hT fun j _ => by rw [Dinode.addr, Dinode.addr, ha]
  · rw [← iupdate_contents hL h hin d' hT]
    exact contents_congr hs fun k _ => byteAt_addrs ha k

theorem setFields_ok (hL : Layout sb) (h : CacheOk sb s) (hip : ip < NINODE) (hpos : 0 < (s.icache ip).ref)
    (hv : (s.icache ip).valid = true) (major minor nlink : BitVec 16) :
    wp (do
        setInode ip fun e => { e with d := { e.d with major := major, minor := minor, nlink := nlink } }
        Icache.iupdate sb ip) (fun _ s' => CacheOk sb s') NoDoubleFree s := by
  simp only [Icache.iupdate, wp_bind, wp_setInode, wp_get, wp_onDev, update_self]
  refine (iupdate_stored hL h.fs (h.sync ip hip hpos hv)
    { (s.icache ip).d with major := major, minor := minor, nlink := nlink } rfl rfl rfl).mono (fun _ v hst => ?_)
    fun _ => AllocFault.noDoubleFree
  exact h.stored hip hpos hst.1 rfl rfl fun _ => rfl

/-! ### `iput` -/

theorem FsOk.relist (hL : Layout sb) {v : Dev} {T : Table} (h : FsOk sb v T) (hin : i < sb.ninodes) {o : Option Dinode}
    (hrefs : ∀ c, refs c (update T i o) = refs c T) (hsz : ∀ d, o = some d → d.size = 0) (d' : Dinode)
    (ht : TxFrame sb v (v.iupdate sb i d')) : FsOk sb (v.iupdate sb i d') (update T i o) := by
  have hib := hL.iblock_lt hin
  have hbm := hL.bmap_lt
  refine ⟨?_, fun j e he => ?_, fun j e he => ?_, ht.headOk h.head hL fun x hx => ?_⟩
  · rw [Owned, hrefs]
    exact h.owned.store_low hL hib _
  · by_cases hj : j = i
    · exact hj ▸ hin
    · rw [update_of_ne hj] at he
      exact h.inum j e he
  · by_cases hj : j = i
    · rw [hj, update_self] at he
      exact .of_size_zero (hsz e he)
    · rw [update_of_ne hj] at he
      have hf := h.files j e he
      refine ⟨hf.size_le, fun bn hbn => ?_⟩
      rw [Dev.iupdate, ptr_store_low h.owned (by omega) _ he]
      exact hf.mapped bn hbn
  · rcases mem_absorb.1 hx with hx | rfl
    · exact .inl hx
    · exact .inr ⟨inodestart_le_iblock sb i, hL.iblock_lt_size hin⟩

theorem FsOk.truncated (hL : Layout sb) {v v₁ : Dev} {T : Table} (h : FsOk sb v T) (hi : T i = some d)
    (hT : Truncated sb T i ∅ v d v₁) (ht : TxFrame sb v v₁) : FsOk sb v₁ (T.set i d.wiped) := by
  refine ⟨hT.owned, fun j e he => ?_, fun j e he => ?_, ht.headOk h.head hL hT.logged⟩
  · by_cases hj : j = i
    · exact hj ▸ h.inum i d hi
    · rw [Table.set, update_of_ne hj] at he
      exact h.inum j e he
  · by_cases hj : j = i
    · rw [hj, Table.set, update_self] at he
      cases he
      exact .of_size_zero rfl
    · have hset : ∀ d, T.set i d j = some e := fun d => by
        rw [Table.set, update_of_ne hj] at he
        rw [Table.set, update_of_ne hj, he]
      have hf := h.files j e (by rwa [Table.set, update_of_ne hj] at he)
      refine ⟨hf.size_le, fun bn hbn => ?_⟩
      have href := hT.refs_other j (locOf bn) hj
      rw [refs_some (hset _), refs_some (hset _)] at href
      rw [href]
      exact hf.mapped bn hbn

theorem Truncated.unlogged_needed (hL : Layout sb) {v v' : Dev} (h : FsOk sb v (diskTable sb v.cache))
    (hT : diskTable sb v.cache i = some d) (htr : Truncated sb (diskTable sb v.cache) i ∅ v d v') {b : Nat}
    (hb : b ∉ v'.log.lh) (hn : b < sb.nmeta ∨ ∃ r, refs v'.cache ((diskTable sb v.cache).set i d.wiped) r = b) :
    v'.cache b = v.cache b ∧ Needed sb v.cache b := by
  have hdind : refs v.cache (diskTable sb v.cache) (i, .dind) = d.addr 12 := by
    rw [refs_some hT]
    rfl
  have hlow : b < sb.nmeta → v'.cache b = v.cache b ∧ Needed sb v.cache b := fun hlt => by
    refine ⟨htr.unlogged b hb ?_, .inl hlt⟩
    by_cases hz : d.addr 12 = 0
    · exact (eq_or_ne b 0).imp_right fun hne he => hne (he.trans hz)
    · have := (h.owned.range (i, .dind) (by rwa [hdind])).1
      rw [hdind] at this
      exact .inr (by omega)
  rcases hn with hn | ⟨⟨j, l⟩, rfl⟩
  · exact hlow hn
  · by_cases hz : refs v'.cache ((diskTable sb v.cache).set i d.wiped) (j, l) = 0
    · exact hlow (by rw [hz]; exact hL.nmeta_pos)
    · have hj : j ≠ i := by
        rintro rfl
        exact hz (by rw [refs_set]; exact ptr_of_addr_zero (fun k hk => addr_wiped hk) l)
      have hr := htr.refs_other j l hj
      rw [Table.set_eq hT] at hr
      rw [hr] at hz hb ⊢
      refine ⟨htr.unlogged _ hb (.inr fun he => hj ?_), .inr ⟨_, rfl⟩⟩
      rw [← hdind] at he
      exact (Prod.ext_iff.1 (h.owned.inj _ _ he hz)).1

theorem itrunc_stored (hL : Layout sb) {v : Dev} (h : FsOk sb v (diskTable sb v.cache))
    (hT : diskTable sb v.cache i = some d) :
    wp (Xv6.itrunc sb i d) (fun d' v' => d' = d.wiped ∧ InodeStored sb i (some d') v v' ∧
      Truncated sb (diskTable sb v.cache) i ∅ v d v') AllocFault v := by
  obtain ⟨hi1, hin, htype, -⟩ := diskTable_some hT
  have hO := h.owned
  rw [← Table.set_eq hT] at hO
  refine ((keeps_itrunc _ _).wp_and (itrunc_spec hL hin hO)).mono ?_ fun _ he => .inr he.1
  rintro _ v' ⟨⟨rfl, htr⟩, hfr⟩
  have htab : diskTable sb v'.cache = (diskTable sb v.cache).set i d.wiped :=
    diskTable_set ⟨hi1, hin⟩ htr.dinode htype htr.dinodes
  refine ⟨rfl, ⟨?_, htab, fun j e hj he => ?_, hfr, fun b hb hn => ?_⟩, htr⟩
  · rw [htab]
    exact h.truncated hL hT htr hfr
  · exact contents_congr rfl fun k _ => htr.bytes_other j e hj he k
  · rw [Needed, htab] at hn
    exact htr.unlogged_needed hL h hT hb hn

theorem free_stored (hL : Layout sb) {v : Dev} (h : FsOk sb v (diskTable sb v.cache))
    (hT : diskTable sb v.cache i = some d) (hz : ∀ k, k < 13 → d.addr k = 0) {d' : Dinode} (ht : d'.type = 0) :
    wp (Xv6.iupdate sb i d') (fun _ v' => InodeStored sb i none v v' ∧ v' = v.iupdate sb i d') AllocFault v := by
  obtain ⟨-, hin, -, -⟩ := diskTable_some hT
  refine ((keeps_txFrame (keeps_iupdate _ _)).wp_and
    (iupdate_spec (P := False) _ (hL.lt_fssize (hL.iblock_lt_size hin)) False.elim)).mono ?_
    fun _ he => .inr he.1
  rintro _ _ ⟨rfl, hfr⟩
  have htab : diskTable sb (v.iupdate sb i d').cache = update (diskTable sb v.cache) i none :=
    diskTable_free (by rw [dinodeOf_iupdate, if_pos rfl, ht]) fun j hj _ => by rw [dinodeOf_iupdate, if_neg hj]
  have hrefs : ∀ c, refs c (update (diskTable sb v.cache) i none) = refs c (diskTable sb v.cache) := fun c => by
    rw [← refs_set_empty hz, Table.set_eq hT]
  refine ⟨⟨?_, htab, fun j e _ he => iupdate_contents hL h hin d' he, hfr, fun b hb hn =>
    iupdate_unlogged hL h hin d' (by rw [htab, hrefs]) hb hn⟩, rfl⟩
  rw [htab]
  exact h.relist hL hin hrefs (fun _ he => by cases he) d' hfr

theorem ifree_ok (hL : Layout sb) (h : CacheOk sb s) (hip : ip < NINODE) (hpos : 0 < (s.icache ip).ref)
    (hv : (s.icache ip).valid = true) :
    wp (ifree sb ip) (fun _ s' => CacheOk sb s' ∧ (s'.icache ip).ref = (s.icache ip).ref ∧
        ∀ b, b < sb.size → (blockUsed sb s'.dev.cache b = true ↔ blockUsed sb s.dev.cache b = true ∧
          ∀ l, ptr s.dev.cache (s.icache ip).d l = b → b = 0)) NoDoubleFree s := by
  have hT := h.sync ip hip hpos hv
  obtain ⟨-, hin, -, -⟩ := diskTable_some hT
  have hO := h.fs.owned
  rw [← Table.set_eq hT] at hO
  simp only [ifree, Icache.itrunc, Icache.iupdate, wp_bind, wp_get, wp_onDev, wp_setInode, wp_modify,
    update_self, update_idem]
  refine (itrunc_stored hL h.fs hT).mono ?_ fun _ => AllocFault.noDoubleFree
  rintro _ v₁ ⟨rfl, hst₁, htr⟩
  refine (free_stored hL hst₁.fs hst₁.self (fun k hk => addr_wiped hk) rfl).mono ?_ fun _ => AllocFault.noDoubleFree
  rintro _ _ ⟨hst₂, rfl⟩
  have hst : InodeStored sb (s.icache ip).inum none s.dev
      (v₁.iupdate sb (s.icache ip).inum { (s.icache ip).d.wiped with type := 0 }) := hst₁.trans hst₂
  refine ⟨h.stored hip hpos hst rfl rfl fun hfalse => ?_, trivial, fun b hb => ?_⟩
  · simp only [Bool.false_eq_true] at hfalse
  · rw [Dev.iupdate, blockUsed_store hL (.inl (hL.iblock_lt hin)) _ hb]
    exact htr.blockUsed hL hO hb

theorem iput_ok (hL : Layout sb) (h : CacheOk sb s) (hip : ip < NINODE) (hpos : 0 < (s.icache ip).ref) :
    wp (iput sb ip) (fun _ s' => CacheOk sb s' ∧ ∀ b, b < sb.size → (blockUsed sb s'.dev.cache b = true ↔
        blockUsed sb s.dev.cache b = true ∧ ((s.icache ip).valid = true ∧ (s.icache ip).d.nlink = 0 ∧ (s.icache ip).ref = 1 →
          ∀ l, ptr s.dev.cache (s.icache ip).d l = b → b = 0))) NoDoubleFree s := by
  have hlock : CacheOk sb { s with icache := update s.icache ip { s.icache ip with locked := true } } :=
    h.set_entry hip hpos rfl rfl fun hv => h.sync ip hip hpos hv
  -- unlocking and dropping the reference keep the invariant
  let drop (e : Inode) : Inode := { e with locked := false, ref := e.ref - 1 }
  have hdrop (t : Fs) (ht : CacheOk sb t) (hp : 0 < (t.icache ip).ref) :
      CacheOk sb { t with icache := update t.icache ip (drop (t.icache ip)) } :=
    ht.set_entry hip hp rfl rfl fun hv => ht.sync ip hip hp hv
  simp only [iput, acquiresleep, releasesleep, ifreeLast, wp_bind, wp_get, wp_failIf, wp_setInode, wp_ite, wp_pure,
    update_self, update_idem]
  refine ⟨fun _ => by simp [NoDoubleFree], fun _ => ⟨fun hc => ?_, fun hc => ?_⟩⟩
  · refine (ifree_ok hL hlock hip (by simpa using hpos) (by simpa using hc.1)).post ?_
    rintro _ s₁ ⟨h₁, hr, hbits⟩
    simp only [update_self] at hr hbits
    refine ⟨hdrop s₁ h₁ (by omega), fun b hb => ?_⟩
    rw [hbits b hb]
    simp only [hc, and_self, true_implies]
  · refine ⟨?_, fun b hb => ?_⟩
    · have := hdrop _ hlock (by simpa using hpos)
      simpa only [update_self, update_idem] using this
    · simp only [hc, false_implies, and_true]

/-! ### `ialloc` -/

theorem iallocTry_spec (hL : Layout sb) (type : BitVec 16) {inum : Nat} (hn : inum < sb.ninodes) (v : Dev) :
    wp (iallocTry sb type inum) (fun r v' => match r with
      | none => v' = v
      | some k => k = inum ∧ (dinodeOf sb v.cache inum).type = 0 ∧ v' = v.iupdate sb inum (.fresh type)) AllocFault v := by
  have := hL.lt_fssize (hL.iblock_lt_size hn)
  refine wp_bind.2 (wp_bread.2 ⟨fun hge => absurd hge (by omega), fun _ => ?_⟩)
  split
  · next ht =>
    refine wp.bind ((logMod_spec (P := False) _ _ False.elim).mono (fun _ _ => id)
      fun _ he => .inr he.1) ?_
    rintro _ _ rfl
    refine ⟨rfl, ht, ?_⟩
    rw [Dev.iupdate, putDinode, update_self]
  · exact rfl

theorem iallocDisk_spec (hL : Layout sb) (type : BitVec 16) (v : Dev) :
    wp (iallocDisk sb type) (fun inum v' => 1 ≤ inum ∧ inum < sb.ninodes ∧ (dinodeOf sb v.cache inum).type = 0 ∧
      v' = v.iupdate sb inum (.fresh type)) (fun e => AllocFault e ∨ e = .panic "ialloc: no inodes") v := by
  rw [iallocDisk]
  refine wp.bind (wp_findRange (fun _ v' => v' = v) (fun inum v' => 1 ≤ inum ∧ inum < sb.ninodes ∧
    (dinodeOf sb v.cache inum).type = 0 ∧ v' = v.iupdate sb inum (.fresh type)) rfl ?_) fun r v' hr => ?_
  · rintro inum t h1 h2 rfl
    have hn : inum < sb.ninodes := by omega
    refine (iallocTry_spec hL type hn t).mono (fun r v' hr => ?_) fun _ => .inl
    cases r with
    | none => exact hr
    | some k =>
      obtain ⟨rfl, ht, hv⟩ := hr
      exact ⟨h1, hn, ht, hv⟩
  · cases r with
    | some inum => exact hr
    | none => exact (wp_throw _).2 (.inr rfl)

theorem fresh_stored (hL : Layout sb) {v : Dev} (h : FsOk sb v (diskTable sb v.cache)) (hi : 1 ≤ i ∧ i < sb.ninodes)
    (htz : (dinodeOf sb v.cache i).type = 0) {type : BitVec 16} (ht : type ≠ 0)
    (hfr : TxFrame sb v (v.iupdate sb i (.fresh type))) :
    InodeStored sb i (some (.fresh type)) v (v.iupdate sb i (.fresh type)) := by
  have hnone : diskTable sb v.cache i = none := if_neg fun hc => hc.2.2 htz
  have htab : diskTable sb (v.iupdate sb i (.fresh type)).cache = (diskTable sb v.cache).set i (.fresh type) :=
    diskTable_set hi (by rw [dinodeOf_iupdate, if_pos rfl]) ht fun j hj _ => by rw [dinodeOf_iupdate, if_neg hj]
  have hrefs : ∀ c, refs c ((diskTable sb v.cache).set i (.fresh type)) = refs c (diskTable sb v.cache) := fun c => by
    rw [refs_set_empty fun k _ => Dinode.addr_fresh type k, ← hnone, update_eq_self]
  refine ⟨?_, htab, fun j e _ he => iupdate_contents hL h hi.2 _ he, hfr, fun b hb hn =>
    iupdate_unlogged hL h hi.2 _ (by rw [htab, hrefs]) hb hn⟩
  rw [htab]
  refine h.relist hL hi.2 hrefs (fun d hd => ?_) _ hfr
  cases hd
  rfl

theorem ialloc_ok (hL : Layout sb) (h : CacheOk sb s) {type : BitVec 16} (ht : type ≠ 0) :
    wp (ialloc sb ROOTDEV type) (fun _ s' => CacheOk sb s') NoDoubleFree s := by
  rw [ialloc]
  refine wp_bind.2 (wp_onDev.2 (((keeps_txFrame (keeps_iallocDisk type)).wp_and (iallocDisk_spec hL type s.dev)).mono ?_
    fun _ he => he.elim AllocFault.noDoubleFree fun h => by rw [h]; simp [NoDoubleFree]))
  rintro inum _ ⟨⟨h1, hn, htz, rfl⟩, hfr⟩
  have hnone : diskTable sb s.dev.cache inum = none := if_neg fun hc => hc.2.2 htz
  have hst := fresh_stored hL h.fs ⟨h1, hn⟩ htz ht hfr
  have hok : CacheOk sb { s with dev := s.dev.iupdate sb inum (.fresh type) } := by
    refine ⟨hst.fs, h.inum, fun e he hp hv => ?_, h.rootdev, h.uniq⟩
    have hs := h.sync e he hp hv
    have hne : (s.icache e).inum ≠ inum := fun hi => by
      rw [hi, hnone] at hs
      cases hs
    exact (hst.other hne).trans hs
  exact (iget_ok hok ⟨h1, hn⟩).post fun _ _ => And.left

end

end Xv6
