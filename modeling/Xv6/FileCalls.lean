import Xv6.CryptRoundTrip
import Xv6.OpenFile

/-!
# `sys_read` and `sys_write` on a regular file

Whatever the file's flag and the key are, `filewrite` stores the bytes of the caller's buffer and `fileread` puts
the bytes of the file into it. Around them `sys_write` encrypts the buffer of the caller of a write to a plain file, and
`sys_read` decrypts what it has read from an encrypted one, although nothing was encrypted on the way there.
-/

namespace Xv6

open Prog Function

/-- Reading `n` bytes at the offset of `x` from an array. -/
def arrayRead (x : File) (bs : List Byte) (n : Nat) : Option (List Byte) :=
  if x.readable = true ∧ x.off ≤ bs.length ∧ x.off + n < 2 ^ 32 then some ((bs.drop x.off).take n) else none

/-- Whether `n` bytes can be written at the offset of `x`. -/
def ArrayFits (x : File) (bs : List Byte) (n : Nat) : Prop :=
  x.writable = true ∧ (n = 0 ∨ x.off ≤ bs.length ∧ x.off + n ≤ MAXFILE * BSIZE)

section

variable {sb : Superblock} {ip i f off n : Nat} {d d' : Dinode} {bs bs' : List Byte} {k k' : Kernel} {s : Fs} {src : Nat → Byte}

/-! ### Transfers -/

theorem View.writei (hL : Layout sb) (h : View sb ip i d s) (ht : d.type ≠ T_DEV) (hoff : off < 2 ^ 32) (hn : n < 2 ^ 32)
    (src : Nat → Byte) :
    wp (Icache.writei sb ip src off n) (fun r s' =>
      ¬ WriteArgs d off n ∧ r = -1 ∧ s' = s ∨
        WriteArgs d off n ∧ r = n ∧ ∃ d', View sb ip i d' s' ∧ d' = { d with addrs := d'.addrs, size := d'.size } ∧
          s'.icache = update s.icache ip { s.icache ip with d := d' } ∧
          contents s'.dev.cache d' = splice (contents s.dev.cache d) off ((List.range n).map src) ∧
          LogStep sb s.dev s'.dev ∧ Written sb (diskTable sb s.dev.cache) i ∅ off n src s.dev d s'.dev d')
      (fun _ => WriteArgs d off n ∧ ¬ Room sb off n s.dev d) s := by
  obtain rfl := h.inum
  rw [Icache.writei]
  refine wp_bind.2 (wp_get.2 ?_)
  dsimp only
  rw [h.d, if_neg fun hc => ht hc.1]
  by_cases ha : WriteArgs d off n
  · refine wp_bind.2 (wp_onDev.2 ((writei_spliced hL h.ok.fs h.table ht src ha).mono ?_ fun _ he => ⟨ha, he.2⟩))
    rintro ⟨r, d'⟩ v ⟨hr, hst, hsame, hb, hstep, hw⟩
    exact Or.inr ⟨ha, hr, d', h.stored hst, hsame, rfl, hb, hstep, hw⟩
  · rw [writei_refused ht ⟨hoff, hn⟩ src ha]
    refine Or.inl ⟨ha, rfl, ?_⟩
    have hself : ({ s.icache ip with d := d } : Inode) = s.icache ip := by rw [← h.d]
    change ({ s with icache := update s.icache ip { s.icache ip with d := d } } : Fs) = s
    rw [hself, update_eq_self]

/-- The descriptor `f` has moved to `off'`, and the file has the fields `d'` and the bytes `bs'`. -/
structure Moved (sb : Superblock) (ip i f : Nat) (d d' : Dinode) (bs' : List Byte) (off' : Nat) (k k' : Kernel) : Prop where
  eq : k' = { k with fs := k'.fs, ftable := update k.ftable f { k.ftable f with off := off' } }
  file : At sb ip i d' bs' k'
  same : d' = { d with addrs := d'.addrs, size := d'.size }

theorem At.moved (h : At sb ip i d bs k) (ho : (k.ftable f).off = off) : Moved sb ip i f d d bs off k k := by
  refine ⟨?_, h, rfl⟩
  rw [← ho, update_eq_self]

theorem Moved.trans {d'' : Dinode} {bs'' : List Byte} {off' off'' : Nat} {k'' : Kernel} (h : Moved sb ip i f d d' bs' off' k k')
    (h' : Moved sb ip i f d' d'' bs'' off'' k' k'') : Moved sb ip i f d d'' bs'' off'' k k'' := by
  refine ⟨?_, h'.file, ?_⟩
  · rw [h'.eq, h.eq]
    simp only [update_idem, update_self]
  · rw [h'.same, h.same]

theorem Moved.off_eq {off' : Nat} (h : Moved sb ip i f d d' bs' off' k k') : (k'.ftable f).off = off' := by
  rw [h.eq]
  simp

theorem At.type_ne (h : At sb ip i d bs k) : d.type ≠ T_DEV := by
  rw [h.type]
  decide

theorem At.length (h : At sb ip i d bs k) : bs.length = d.size.toNat := by rw [← h.bytes, length_contents]

theorem advance_spec (ho : (k.ftable f).off = off) (hlt : off + n < 2 ^ 32) {E : Fault → Prop} :
    wp (advance f n) (fun _ k' => k' = { k with ftable := update k.ftable f { k.ftable f with off := off + n } }) E k := by
  rw [advance]
  split
  · refine wp_setFile.2 ?_
    rw [ho, Int.toNat_natCast, Nat.mod_eq_of_lt hlt]
  · next hz =>
    have : n = 0 := by omega
    rw [this, Nat.add_zero, ← ho, update_eq_self]
    rfl

/-- The part of a transaction of `filewrite` from `ilock` to `iunlock`. -/
def writeSegment (sb : Superblock) (f ip addr n1 : Nat) : KM Int := do
  onFs (ilock sb ip)
  let k ← get
  let r ← onFs (Icache.writei sb ip (fun i => k.proc.mem (addr + i)) (k.ftable f).off n1)
  advance f r
  onFs (iunlock ip)
  pure r

theorem filewriteChunk_eq (addr : Nat) : filewriteChunk sb f ip addr n = (do
    beginOpK
    let r ← writeSegment sb f ip addr n
    endOpK sb
    pure r) := by
  rw [filewriteChunk, writeSegment]
  simp only [bind_assoc, pure_bind]

theorem At.writeSegment (hL : Layout sb) (h : At sb ip i d bs k) (ho : (k.ftable f).off = off)
    (hoff : off < 2 ^ 32) (hn : n < 2 ^ 32)
    (addr : Nat) : wp (writeSegment sb f ip addr n) (fun r k' =>
      ¬ WriteArgs d off n ∧ r = -1 ∧ Moved sb ip i f d d bs off k k' ∨
        WriteArgs d off n ∧ r = n ∧ ∃ d', Moved sb ip i f d d' (splice bs off ((List.range n).map fun j => k.proc.mem (addr + j)))
          (off + n) k k') (fun _ => True) k := by
  refine wp.bind (h.ilock (.inr fun _ => trivial)) ?_
  rintro _ k₂ ⟨e₂, hv₂, hdev₂, hl₂⟩
  have hmem : k₂.proc.mem = k.proc.mem := by rw [e₂]; rfl
  have ho₂ : (k₂.ftable f).off = off := by
    rw [e₂]
    exact ho
  have hbytes₂ : contents k₂.fs.dev.cache d = bs := by
    rw [hdev₂]
    exact h.bytes
  refine wp_bind.2 (wp_get.2 ?_)
  rw [ho₂, hmem]
  refine wp.bind (wp.mono (onFs_spec (hv₂.writei hL h.type_ne hoff hn fun j => k.proc.mem (addr + j))) (fun _ _ => id)
    fun _ _ => trivial) ?_
  rintro r k₃ ⟨e₃, ⟨ha, rfl, hs₃⟩ | ⟨ha, rfl, d', hv₃, hsame, hi₃, hb₃, -⟩⟩
  · -- refused: the offset stays
    rw [advance, if_neg (by decide), pure_bind]
    have hv₃ : View sb ip i d k₃.fs := by rwa [hs₃]
    refine wp.bind (wp.mono (onFs_spec (hv₃.iunlock (by rw [hs₃]; exact hl₂))) (fun _ _ hq => hq) fun _ => False.elim) ?_
    rintro _ k₄ ⟨e₄, hs₄⟩
    have h₄ := hv₃.at h.type hs₄ ⟨rfl, rfl, rfl, rfl, rfl⟩
    refine Or.inl ⟨ha, rfl, ?_, ?_, rfl⟩
    · rw [e₄, e₃, e₂, ← ho, update_eq_self]
    · rwa [hs₃, hbytes₂] at h₄
  · refine wp.bind (advance_spec (by rw [e₃]; exact ho₂) ha.2.1) ?_
    rintro _ k₄ e₄
    have hfs₄ : k₄.fs = k₃.fs := by rw [e₄]
    have hl₄ : (k₄.fs.icache ip).locked = true := by
      rw [hfs₄, hi₃, update_self]
      exact hl₂
    rw [← hfs₄] at hv₃ hb₃
    refine wp.bind (wp.mono (onFs_spec (hv₃.iunlock hl₄)) (fun _ _ hq => hq) fun _ => False.elim) ?_
    rintro _ k₅ ⟨e₅, hs₅⟩
    have h₅ := hv₃.at (by rw [hsame]; exact h.type) hs₅ ⟨rfl, rfl, rfl, rfl, rfl⟩
    rw [hb₃, hbytes₂] at h₅
    refine Or.inr ⟨ha, rfl, d', ?_, h₅, hsame⟩
    rw [e₅, e₄, e₃, e₂]

theorem Moved.bracket {d' : Dinode} {off' : Nat} {k₁ k₂ : Kernel}
    (h : Moved sb ip i f d d' bs' off' k₁ k₂) (hb : k₁ = { k with fs := k₁.fs })
    (he : k' = { k₂ with fs := k'.fs }) (hat : At sb ip i d' bs' k') : Moved sb ip i f d d' bs' off' k k' := by
  refine ⟨?_, hat, h.same⟩
  rw [he, h.eq, hb]

theorem filewriteChunk_spec (hL : Layout sb) (h : At sb ip i d bs k) (ho : (k.ftable f).off = off)
    (hoff : off < 2 ^ 32) (hn : n < 2 ^ 32)
    (addr : Nat) : wp (filewriteChunk sb f ip addr n) (fun r k' =>
      ¬ WriteArgs d off n ∧ r = -1 ∧ Moved sb ip i f d d bs off k k' ∨
        WriteArgs d off n ∧ r = n ∧ ∃ d', Moved sb ip i f d d' (splice bs off ((List.range n).map fun j => k.proc.mem (addr + j)))
          (off + n) k k') (fun _ => True) k := by
  rw [filewriteChunk_eq]
  refine wp.bind (h.beginOp hL) ?_
  rintro _ k₁ ⟨e₁, h₁⟩
  have hmem : k₁.proc.mem = k.proc.mem := by rw [e₁]; rfl
  have ho₁ : (k₁.ftable f).off = off := by
    rw [e₁]
    exact ho
  refine wp.bind (h₁.writeSegment hL ho₁ hoff hn addr) ?_
  rw [hmem]
  rintro r k₂ (⟨ha, rfl, hm⟩ | ⟨ha, rfl, d', hm⟩)
  · refine wp.bind (hm.file.endOp hL) ?_
    rintro _ k₃ ⟨e₃, h₃⟩
    exact Or.inl ⟨ha, rfl, hm.bracket e₁ e₃ h₃⟩
  · refine wp.bind (hm.file.endOp hL) ?_
    rintro _ k₃ ⟨e₃, h₃⟩
    exact Or.inr ⟨ha, rfl, d', hm.bracket e₁ e₃ h₃⟩

theorem splice_splice {a b : List Byte} (hoff : off ≤ bs.length) : splice (splice bs off a)
    (off + a.length) b = splice bs off (a ++ b) := by
  have hlen : (bs.take off ++ a).length = off + a.length := by rw [List.length_append, List.length_take_of_le hoff]
  have h₁ : (splice bs off a).take (off + a.length) = bs.take off ++ a := List.take_left' hlen
  have h₂ : (splice bs off a).drop (off + a.length + b.length) = bs.drop (off + a.length + b.length) := by
    rw [splice, ← hlen, List.drop_length_add_append, hlen, List.drop_drop]
  rw [splice, h₁, h₂, splice, List.length_append, List.append_assoc, ← Nat.add_assoc]
  simp

theorem splice_range (g : Nat → Byte) (hoff : off ≤ bs.length) (m n : Nat) :
    splice (splice bs off ((List.range m).map g)) (off + m) ((List.range n).map fun j => g (m + j)) =
      splice bs off ((List.range (m + n)).map g) := by
  have h := splice_splice (a := (List.range m).map g) (b := (List.range n).map fun j => g (m + j)) hoff
  rw [List.length_map, List.length_range] at h
  rw [h, List.range_add, List.map_append, List.map_map]
  rfl

/-- What `filewrite` has done when it is at position `i'`: the bytes from `i` on are in the file. -/
structure Stored (sb : Superblock) (ip i f : Nat) (d : Dinode) (bs : List Byte) (off addr n : Nat)
    (k : Kernel) (i' : Nat) (k' : Kernel) : Prop where
  le : i' ≤ n
  moved : ∃ d', Moved sb ip i f d d' (splice bs off ((List.range i').map fun j => k.proc.mem (addr + j))) (off + i') k k'
  all : i' = n ↔ n = 0 ∨ off ≤ bs.length ∧ off + n ≤ MAXFILE * BSIZE

theorem length_splice {a : List Byte} :
    (splice bs off a).length = min off bs.length + a.length + (bs.length - (off + a.length)) := by
  simp only [splice, List.length_append, List.length_take, List.length_drop]

theorem splice_nil : splice bs off [] = bs := by
  rw [splice, List.append_nil, List.length_nil, Nat.add_zero, List.take_append_drop]

theorem filewriteLoop_spec {d' : Dinode} {k' : Kernel} (hL : Layout sb) {addr : Nat} (hn : n < 2 ^ 31)
    (hoff : off < 2 ^ 32) (j : Nat) (hj : j ≤ n)
    (hm : Moved sb ip i f d d' (splice bs off ((List.range j).map fun j => k.proc.mem (addr + j))) (off + j) k k')
    (hstart : 0 < j → off ≤ bs.length ∧ off + j ≤ MAXFILE * BSIZE) :
    wp (filewriteLoop sb f ip addr n j) (Stored sb ip i f d bs off addr n k) (fun _ => True) k' := by
  simp only [MAXFILE, NDIRECT, NINDIRECT, NDINDIRECT, BSIZE] at hstart
  rw [filewriteLoop]
  by_cases hlt : j < n
  · rw [dif_pos hlt]
    dsimp only
    have hn1 : min (n - j) ((MAXOPBLOCKS - 1 - 1 - 2) / 2 * 512) = min (n - j) 1536 := rfl
    rw [hn1]
    obtain ⟨n1, hn1⟩ : ∃ n1, min (n - j) 1536 = n1 := ⟨_, rfl⟩
    rw [hn1]
    -- the offset is in the file exactly if it was at the start
    have hin : off + j ≤ d'.size.toNat ↔ off ≤ bs.length := by
      rw [← hm.file.length, length_splice, List.length_map, List.length_range]
      omega
    have hmem : k'.proc.mem = k.proc.mem := by rw [hm.eq]; rfl
    refine wp.bind (filewriteChunk_spec hL hm.file hm.off_eq (by omega) (by omega) (addr + j)) ?_
    rintro r k₁ (⟨hno, rfl, h₁⟩ | ⟨ha, rfl, d₁, h₁⟩)
    · rw [if_pos (by decide)]
      refine ⟨hj, ⟨d', hm.trans h₁⟩, iff_of_false (by omega) ?_⟩
      rintro (hz | ⟨hle, hmax⟩)
      · omega
      · simp only [MAXFILE, NDIRECT, NINDIRECT, NDINDIRECT, BSIZE] at hmax
        refine hno ⟨hin.2 hle, by omega, ?_⟩
        simp only [MAXFILE, NDIRECT, NINDIRECT, NDINDIRECT, BSIZE]
        omega
    · have hle := hin.1 ha.1
      have hmax := ha.2.2
      simp only [MAXFILE, NDIRECT, NINDIRECT, NDINDIRECT, BSIZE] at hmax
      rw [if_neg (by omega)]
      refine wp_bind.2 (wp_failIf.2 ⟨fun hne => absurd rfl hne, fun _ => ?_⟩)
      have h₂ := hm.trans h₁
      rw [hmem] at h₂
      simp only [Nat.add_assoc addr j] at h₂
      rw [splice_range (fun j => k.proc.mem (addr + j)) hle, Nat.add_assoc] at h₂
      refine filewriteLoop_spec hL hn hoff (j + n1) (by omega) h₂ fun _ => ⟨hle, ?_⟩
      simp only [MAXFILE, NDIRECT, NINDIRECT, NDINDIRECT, BSIZE]
      omega
  · rw [dif_neg hlt]
    obtain rfl : j = n := by omega
    refine ⟨Nat.le_refl j, ⟨d', hm⟩, iff_of_true rfl ?_⟩
    simp only [MAXFILE, NDIRECT, NINDIRECT, NDINDIRECT, BSIZE]
    omega
termination_by n - j
decreasing_by omega

theorem filewrite_spec (hL : Layout sb) (h : At sb ip i d bs k) (hf : (k.ftable f).type = .FD_INODE ∧ (k.ftable f).ip = some ip)
    (hoff : (k.ftable f).off < 2 ^ 32) (hn : n < 2 ^ 31) (addr : Nat) :
    wp (filewrite sb f addr n) (fun r k' => ∃ d' m,
      Moved sb ip i f d d' (splice bs (k.ftable f).off ((List.range m).map fun j => k.proc.mem (addr + j)))
        ((k.ftable f).off + m) k k' ∧
      (ArrayFits (k.ftable f) bs n ∧ r = n ∧ m = n ∨ ¬ ArrayFits (k.ftable f) bs n ∧ r = -1)) (fun _ => True) k := by
  have hm : Moved sb ip i f d d (splice bs (k.ftable f).off ((List.range 0).map fun j =>
    k.proc.mem (addr + j))) ((k.ftable f).off + 0) k k := by
    rw [List.range_zero, List.map_nil, splice_nil]
    exact h.moved rfl
  rw [filewrite, ArrayFits]
  refine wp_bind.2 (wp_get.2 ?_)
  dsimp only
  by_cases hw : (k.ftable f).writable = false
  · rw [if_pos hw]
    exact ⟨d, 0, hm, .inr ⟨by simp [hw], rfl⟩⟩
  rw [if_neg hw, hf.1, hf.2]
  dsimp only
  rw [deref_some, pure_bind]
  refine wp.bind (filewriteLoop_spec hL hn hoff 0 (Nat.zero_le n) hm fun hz => absurd hz (Nat.lt_irrefl 0)) ?_
  rintro m k' hs
  obtain ⟨d', hm'⟩ := hs.moved
  refine ⟨d', m, hm', ?_⟩
  simp only [Bool.eq_true_of_not_eq_false hw, true_and, ← hs.all]
  by_cases hmn : m = n
  · exact .inl ⟨hmn, if_pos hmn, hmn⟩
  · exact .inr ⟨hmn, if_neg hmn⟩

theorem At.filestat {E : Fault → Prop} (h : At sb ip i d bs k) (hf : (k.ftable f).type = .FD_INODE ∧ (k.ftable f).ip = some ip)
    (hE : 0 < (k.fs.icache ip).ref ∨ ∀ e, E e) :
    wp (filestat sb f) (fun r k' => k' = { k with fs := k'.fs } ∧ At sb ip i d bs k' ∧ 0 < (k'.fs.icache ip).ref ∧
      ∃ st, r = some st ∧ st.type = T_FILE) E k := by
  rw [Xv6.filestat]
  refine wp_bind.2 (wp_get.2 ?_)
  dsimp only
  rw [if_pos hf.1, hf.2, deref_some, pure_bind]
  refine wp.bind (h.ilock hE) ?_
  rintro _ k₁ ⟨e₁, hv₁, hdev₁, hl₁⟩
  refine wp_bind.2 (wp_get.2 ?_)
  refine wp.bind (wp.mono (onFs_spec (hv₁.iunlock hl₁)) (fun _ _ hq => hq) fun _ => False.elim) ?_
  rintro _ k₂ ⟨e₂, hs₂⟩
  have h₂ := hv₁.at h.type hs₂ ⟨rfl, rfl, rfl, rfl, rfl⟩
  rw [hdev₁, h.bytes] at h₂
  refine ⟨by rw [e₂, e₁], h₂, ?_, _, rfl, ?_⟩
  · rw [hs₂]
    simp only [update_self]
    exact hv₁.pos
  · change (k₁.fs.icache ip).d.type = T_FILE
    rw [hv₁.d, h.type]

/-- What `readi` returns for the bytes it may read. -/
def readResult : Option (List Byte) → Int × List Byte
  | none => (-1, [])
  | some b => (b.length, b)

theorem View.readi_all (hL : Layout sb) (h : View sb ip i d s) (ht : d.type ≠ T_DEV) (hoff : off < 2 ^ 32) (hn : n < 2 ^ 32) :
    wp (Icache.readi sb ip off n) (fun r s' => s' = s ∧ r = readResult (if off ≤ d.size.toNat ∧ off + n < 2 ^ 32 then
      some (((contents s.dev.cache d).drop off).take n) else none)) (fun _ => False) s := by
  by_cases hc : off ≤ d.size.toNat ∧ off + n < 2 ^ 32
  · rw [if_pos hc]
    refine (h.readi hL ht hc.1 hc.2).post ?_
    rintro r s' ⟨rfl, rfl⟩
    refine ⟨rfl, ?_⟩
    rw [readResult, List.length_take, List.length_drop, length_contents, readLen]
  · rw [if_neg hc, Icache.readi]
    refine wp_bind.2 (wp_get.2 ?_)
    dsimp only
    rw [h.d, if_neg fun hc => ht hc.1, readi_refused ht ⟨hoff, hn⟩ (by omega)]
    have hself : ({ s.icache ip with d := d } : Inode) = s.icache ip := by rw [← h.d]
    refine ⟨?_, rfl⟩
    change ({ s with icache := update s.icache ip { s.icache ip with d := d } } : Fs) = s
    rw [hself, update_eq_self]

theorem putBytes_nil (m : Nat → Byte) (a : Nat) : putBytes m a [] = m := by
  funext x
  rw [putBytes, if_neg]
  simp only [List.length_nil]
  omega

/-- The bytes `b` have been read through `f` into the caller's memory. -/
structure Received (sb : Superblock) (ip i f : Nat) (d : Dinode) (bs : List Byte) (addr : Nat)
    (k : Kernel) (b : List Byte) (k' : Kernel) :
    Prop where
  eq : k' = { k with
    fs := k'.fs
    ftable := update k.ftable f { k.ftable f with off := (k.ftable f).off + b.length }
    ptable := update k.ptable k.cur { k.ptable k.cur with mem := putBytes k.proc.mem addr b } }
  file : At sb ip i d bs k'

theorem fileread_spec (hL : Layout sb) (h : At sb ip i d bs k) (hf : (k.ftable f).type = .FD_INODE ∧ (k.ftable f).ip = some ip)
    (hp : 0 < (k.fs.icache ip).ref) (hoff : (k.ftable f).off < 2 ^ 32) (hn : n < 2 ^ 32) (addr : Nat) :
    wp (fileread sb f addr n) (fun r k' => r = (readResult (arrayRead (k.ftable f) bs n)).1 ∧
      Received sb ip i f d bs addr k (readResult (arrayRead (k.ftable f) bs n)).2 k') (fun _ => False) k := by
  rw [fileread]
  refine wp_bind.2 (wp_get.2 ?_)
  dsimp only
  by_cases hr : (k.ftable f).readable = false
  · rw [if_pos hr, arrayRead, if_neg (by simp [hr])]
    refine ⟨rfl, ?_, h⟩
    simp only [readResult, putBytes_nil, List.length_nil, Nat.add_zero, Kernel.proc, update_eq_self]
  rw [if_neg hr, hf.1, hf.2]
  dsimp only
  rw [deref_some, pure_bind]
  refine wp.bind (h.ilock (.inl hp)) ?_
  rintro _ k₁ ⟨e₁, hv₁, hdev₁, hl₁⟩
  refine wp.bind (onFs_spec (hv₁.readi_all hL h.type_ne hoff hn)) ?_
  rintro _ k₂ ⟨e₂, hs₂, rfl⟩
  have harr : (if (k.ftable f).off ≤ d.size.toNat ∧ (k.ftable f).off + n < 2 ^ 32 then
      some (((contents k₁.fs.dev.cache d).drop (k.ftable f).off).take n) else none) = arrayRead (k.ftable f) bs n := by
    rw [hdev₁, h.bytes, ← h.length, arrayRead]
    simp only [Bool.eq_true_of_not_eq_false hr, true_and]
  rw [harr]
  have hlen : (k.ftable f).off + (readResult (arrayRead (k.ftable f) bs n)).2.length < 2 ^ 32 ∧
      ((readResult (arrayRead (k.ftable f) bs n)).1 = (readResult (arrayRead (k.ftable f) bs n)).2.length ∨
        (readResult (arrayRead (k.ftable f) bs n)).1 = -1 ∧ (readResult (arrayRead (k.ftable f) bs n)).2 = []) := by
    rw [arrayRead]
    split
    · next hc =>
      refine ⟨?_, .inl rfl⟩
      rw [readResult, List.length_take]
      omega
    · exact ⟨hoff, .inr ⟨rfl, rfl⟩⟩
  generalize readResult (arrayRead (k.ftable f) bs n) = rb at hlen ⊢
  obtain ⟨r, b⟩ := rb
  dsimp only at hlen
  refine wp_bind.2 (wp_bind.2 (wp_get.2 (wp_setProc.2 ?_)))
  have hadv : wp (advance f r) (fun _ k₃ => k₃ = { k with
      fs := k₂.fs
      ftable := update k.ftable f { k.ftable f with off := (k.ftable f).off + b.length }
      ptable := update k.ptable k.cur { k.ptable k.cur with mem := putBytes k.proc.mem addr b } }) (fun _ => False)
      { k₂ with ptable := update k₂.ptable k₂.cur { k₂.ptable k₂.cur with mem := putBytes (k₂.ptable k₂.cur).mem addr b } } := by
    have hk₂ : k₂ = { k with fs := k₂.fs } := by rw [e₂, e₁]
    rw [hk₂]
    rcases hlen with ⟨hlt, rfl | ⟨rfl, rfl⟩⟩
    · refine wp.post (advance_spec ?_ hlt) ?_
      · rfl
      · rintro _ k₃ rfl
        rfl
    · simp only [List.length_nil, Nat.add_zero, update_eq_self]
      rfl
  refine wp.bind hadv ?_
  rintro _ k₃ e₃
  have hfs₃ : k₃.fs = k₁.fs := by rw [e₃, hs₂]
  rw [← hfs₃] at hv₁ hl₁
  refine wp.bind (wp.mono (onFs_spec (hv₁.iunlock hl₁)) (fun _ _ hq => hq) fun _ => False.elim) ?_
  rintro _ k₄ ⟨e₄, hs₄⟩
  have h₄ := hv₁.at h.type hs₄ ⟨rfl, rfl, rfl, rfl, rfl⟩
  rw [hfs₃, hdev₁, h.bytes] at h₄
  refine ⟨rfl, ?_, h₄⟩
  rw [e₄, e₃]

/-! ### The two calls -/

/-- The memory `m` with `g` applied to `n` bytes at `buf`. -/
def mapMem (g : Byte → Byte) (buf n : Nat) (m : Nat → Byte) : Nat → Byte := fun a => if buf ≤ a ∧
    a < buf + n then g (m a) else m a

theorem mapMem_eq_iff {g : Byte → Byte} {buf : Nat} {m : Nat → Byte} : mapMem g buf n m = m ↔ ∀ j < n, g
    (m (buf + j)) = m (buf + j) := by
  constructor
  · intro h j hj
    have hb := congrFun h (buf + j)
    rwa [mapMem, if_pos (by omega)] at hb
  · intro h
    funext a
    rw [mapMem]
    split
    · next ha =>
      have := h (a - buf) (by omega)
      rwa [Nat.add_sub_cancel' ha.1] at this
    · rfl

theorem cryptUser_spec (h : At sb ip i d bs k) (hip : (k.ftable f).ip = some ip) (flag : BitVec 16)
    (g : BitVec 32 → Byte → Byte) {st : Stat}
    (ht : st.type = T_FILE) (buf : Nat) (r : Int) :
    wp (cryptUser flag g f st buf r) (fun _ k' => k' = { k with ptable := update k.ptable k.cur { k.ptable k.cur with
      mem := if d.major = flag ∧ 0 ≤ k.encrKey.toInt then mapMem (g k.encrKey) buf r.toNat k.proc.mem
        else k.proc.mem } }) (fun _ => False) k := by
  rw [cryptUser]
  refine wp_bind.2 (wp_get.2 ?_)
  rw [hip, deref_some, pure_bind, h.fields]
  simp only [ht, true_and]
  by_cases hc : d.major = flag ∧ 0 ≤ k.encrKey.toInt
  · rw [if_pos hc, if_pos hc]
    rfl
  · rw [if_neg hc, if_neg hc]
    simp only [Kernel.proc, update_eq_self]
    rfl

theorem argio_lt {p : Proc} {buf : Nat} (h : p.argio = some (f, buf, n)) : n < 2 ^ 31 := by
  simp only [Proc.argio, Proc.argptr, Option.bind_eq_bind, Option.bind_eq_some_iff, Option.some.injEq, Prod.mk.injEq] at h
  obtain ⟨_, _, w, _, _, ⟨_, _, hif⟩, rfl, rfl, rfl⟩ := h
  split at hif
  · cases hif
  · next hc =>
    have hnn : 0 ≤ w.toInt := by omega
    rw [BitVec.toInt_eq_toNat_cond] at hnn
    have := w.isLt
    split at hnn <;> omega

/-- The descriptor `f` stands for the inode in entry `ip`. -/
structure OnInode (ip f : Nat) (k : Kernel) : Prop where
  type : (k.ftable f).type = .FD_INODE
  ip : (k.ftable f).ip = some ip
  off : (k.ftable f).off < 2 ^ 32

inductive IoCall
  | read
  | write

namespace IoCall

def exec (sb : Superblock) : IoCall → KM Int
  | read => sysRead sb
  | write => sysWrite sb

def after (f buf : Nat) (bs : List Byte) (k k' : Kernel) : IoCall → List Byte
  | read => bs
  | write => splice bs (k.ftable f).off ((List.range ((k'.ftable f).off - (k.ftable f).off)).map fun j => k.proc.mem (buf + j))

/-- The result of the call, and what it should do to the memory of process `p`. -/
def Result (f buf n : Nat) (bs : List Byte) (k : Kernel) (r : Int) (k' : Kernel) : IoCall → Prop
  | read => r = (readResult (arrayRead (k.ftable f) bs n)).1 ∧ ∀ p, (k'.ptable p).mem =
      if p = k.cur then putBytes (k.ptable p).mem buf (readResult (arrayRead (k.ftable f) bs n)).2 else (k.ptable p).mem
  | write => (ArrayFits (k.ftable f) bs n ∧ r = n ∧ (k'.ftable f).off = (k.ftable f).off + n ∨
      ¬ ArrayFits (k.ftable f) bs n ∧ r = -1) ∧
      ∀ p, (k'.ptable p).mem = (k.ptable p).mem

def Works (sb : Superblock) (i f buf n : Nat) (bs : List Byte) (k : Kernel) (r : Int) (k' : Kernel) (c : IoCall) : Prop :=
  (fileOf sb i k').1 = c.after f buf bs k k' ∧ c.Result f buf n bs k r k'

def Spares (f buf n : Nat) (bs : List Byte) (major : BitVec 16) (k : Kernel) : IoCall → Prop
  | read => major = 1 → 0 ≤ k.encrKey.toInt → ∀ b ∈ (readResult (arrayRead (k.ftable f) bs n)).2, decrByte k.encrKey b = b
  | write => ArrayFits (k.ftable f) bs n → major = 0 → 0 ≤ k.encrKey.toInt →
      ∀ j < n, encrByte k.encrKey (k.proc.mem (buf + j)) = k.proc.mem (buf + j)

end IoCall

/-- Calls of `sys_read` and `sys_write` on the file, and the array of bytes they should work on. -/
inductive IoRun (sb : Superblock) (ip i : Nat) : Kernel → List Byte → Prop
  | start {d : Dinode} {bs : List Byte} {k : Kernel} (h : At sb ip i d bs k) : IoRun sb ip i k bs
  | step {bs : List Byte} {k k' : Kernel} {u : User} {c : IoCall} {f buf n : Nat} {r : Int} (h : IoRun sb ip i k bs)
      (ha : (k.user u).proc.argio = some (f, buf, n)) (hf : OnInode ip f k) (hr : (c.exec sb).run (k.user u) = .ok (r, k')) :
      IoRun sb ip i k' (c.after f buf bs (k.user u) k')

theorem At.fileOf_eq (h : At sb ip i d bs k) : fileOf sb i k = (bs, d.size, d.major) := by
  rw [fileOf, (diskTable_some h.table).2.2.2, h.bytes]

/-- What `sys_write` does to the memory of process `p`. -/
structure WriteDone (sb : Superblock) (ip i f buf n : Nat) (d : Dinode) (bs : List Byte) (k : Kernel)
    (r : Int) (k' : Kernel) : Prop where
  file : ∃ d', At sb ip i d' (IoCall.write.after f buf bs k k') k'
  result : ArrayFits (k.ftable f) bs n ∧ r = n ∧ (k'.ftable f).off = (k.ftable f).off + n ∨ ¬ ArrayFits (k.ftable f) bs n ∧ r = -1
  ptable : k'.ptable = update k.ptable k.cur { k.ptable k.cur with
    mem := if d.major = 0 ∧ 0 ≤ k.encrKey.toInt then mapMem (encrByte k.encrKey) buf r.toNat k.proc.mem else k.proc.mem }

theorem sysWrite_spec (hL : Layout sb) (h : At sb ip i d bs k) {buf : Nat}
    (ha : k.proc.argio = some (f, buf, n)) (hf : OnInode ip f k) :
    wp (sysWrite sb) (WriteDone sb ip i f buf n d bs k) (fun _ => True) k := by
  rw [sysWrite]
  refine wp_bind.2 (wp_get.2 ?_)
  rw [ha]
  dsimp only
  refine wp.bind (h.filestat ⟨hf.type, hf.ip⟩ (.inr fun _ => trivial)) ?_
  rintro _ k₁ ⟨e₁, h₁, -, st, rfl, hst⟩
  dsimp only
  have hx : k₁.ftable f = k.ftable f := by rw [e₁]
  have hmem : k₁.proc.mem = k.proc.mem := by rw [e₁]; rfl
  refine wp.bind (filewrite_spec hL h₁ (by rw [hx]; exact ⟨hf.type, hf.ip⟩) (by rw [hx]; exact hf.off) (argio_lt ha) buf) ?_
  rintro r k₂ ⟨d₂, m, h₂, hr⟩
  rw [hx] at h₂ hr
  have hx₂ : k₂.ftable f = { k.ftable f with off := (k.ftable f).off + m } := by
    rw [h₂.eq]
    simp only [update_self, hx]
  refine wp.bind (wp.mono (cryptUser_spec h₂.file (by rw [hx₂]; exact hf.ip) 0 encrByte hst buf _)
    (fun _ _ hq => hq) fun _ => False.elim) ?_
  rintro _ k₃ e₃
  have hx₃ : k₃.ftable f = k₂.ftable f := by rw [e₃]
  refine ⟨⟨d₂, ?_⟩, ?_, ?_⟩
  · rw [IoCall.after, hx₃, hx₂, Nat.add_sub_cancel_left, ← hmem]
    exact h₂.file.dev hL h₂.file.ok.fs.head (fun _ _ => rfl) (by rw [e₃])
  · rw [hx₃, hx₂]
    rcases hr with ⟨hfits, rfl, rfl⟩ | hr
    · exact .inl ⟨hfits, rfl, rfl⟩
    · exact .inr hr
  · rw [e₃, h₂.same, h₂.eq, e₁]
    rfl

/-- What `sys_read` has done. -/
structure ReadDone (sb : Superblock) (ip i f buf n : Nat) (d : Dinode) (bs : List Byte) (k : Kernel)
    (r : Int) (k' : Kernel) : Prop where
  file : At sb ip i d bs k'
  result : r = (readResult (arrayRead (k.ftable f) bs n)).1
  ptable : k'.ptable = update k.ptable k.cur { k.ptable k.cur with
    mem := if d.major = 1 ∧ 0 ≤ k.encrKey.toInt then
        mapMem (decrByte k.encrKey) buf r.toNat (putBytes k.proc.mem buf (readResult (arrayRead (k.ftable f) bs n)).2)
      else putBytes k.proc.mem buf (readResult (arrayRead (k.ftable f) bs n)).2 }

theorem sysRead_spec {E : Fault → Prop} (hL : Layout sb) (h : At sb ip i d bs k) {buf : Nat}
    (ha : k.proc.argio = some (f, buf, n))
    (hf : OnInode ip f k) (hE : 0 < (k.fs.icache ip).ref ∨ ∀ e, E e) : wp (sysRead sb) (ReadDone sb ip i f buf n d bs k) E k := by
  rw [sysRead]
  refine wp_bind.2 (wp_get.2 ?_)
  rw [ha]
  dsimp only
  refine wp.bind (h.filestat ⟨hf.type, hf.ip⟩ hE) ?_
  rintro _ k₁ ⟨e₁, h₁, hp₁, st, rfl, hst⟩
  dsimp only
  have hx : k₁.ftable f = k.ftable f := by rw [e₁]
  have hmem : k₁.proc.mem = k.proc.mem := by rw [e₁]; rfl
  have hn := argio_lt ha
  refine wp.bind (wp.mono (fileread_spec hL h₁ (by rw [hx]; exact ⟨hf.type, hf.ip⟩) hp₁ (by rw [hx]; exact hf.off) (by omega) buf)
    (fun _ _ hq => hq) fun _ => False.elim) ?_
  rintro r k₂ ⟨hr, h₂⟩
  rw [hx] at hr h₂
  have hx₂ : (k₂.ftable f).ip = some ip := by
    rw [h₂.eq]
    simp only [update_self, hx, hf.ip]
  refine wp.bind (wp.mono (cryptUser_spec h₂.file hx₂ 1 decrByte hst buf _) (fun _ _ hq => hq) fun _ => False.elim) ?_
  rintro _ k₃ e₃
  refine ⟨?_, hr, ?_⟩
  · exact h₂.file.dev hL h₂.file.ok.fs.head (fun _ _ => rfl) (by rw [e₃])
  · rw [e₃, h₂.eq, e₁]
    simp only [Kernel.proc, update_self, update_idem]

theorem IoRun.at (hL : Layout sb) (h : IoRun sb ip i k bs) : ∃ d, At sb ip i d bs k := by
  induction h with
  | start h => exact ⟨_, h⟩
  | @step bs k k' u c f buf n r _ ha hf hr ih =>
    obtain ⟨d, hat⟩ := ih
    have hat := hat.user hL u
    cases c with
    | read => exact ⟨d, (wp.of_ok (sysRead_spec hL hat ha ⟨hf.type, hf.ip, hf.off⟩ (.inr fun _ => trivial)) hr).file⟩
    | write => exact (wp.of_ok (sysWrite_spec hL hat ha ⟨hf.type, hf.ip, hf.off⟩) hr).file

theorem mem_update_iff (pt : Nat → Proc) (p₀ : Nat) {m m' : Nat → Byte} :
    (∀ p, (update pt p₀ { pt p₀ with mem := m } p).mem = if p = p₀ then m' else (pt p).mem) ↔ m = m' := by
  constructor
  · intro h
    have h₀ := h p₀
    rwa [update_self, if_pos rfl] at h₀
  · rintro rfl p
    rw [update_apply]
    split <;> rfl

theorem if_mapMem_iff {P : Prop} [Decidable P] {g : Byte → Byte} {buf : Nat} {m : Nat → Byte} :
    (if P then mapMem g buf n m else m) = m ↔ (P → ∀ j < n, g (m (buf + j)) = m (buf + j)) := by
  by_cases hP : P
  · rw [if_pos hP, mapMem_eq_iff]
    exact ⟨fun h _ => h, fun h => h hP⟩
  · rw [if_neg hP]
    exact ⟨fun _ h => absurd h hP, fun _ => rfl⟩

theorem WriteDone.works_iff {buf : Nat} {r : Int} (h : WriteDone sb ip i f buf n d bs k r k') :
    IoCall.write.Works sb i f buf n bs k r k' ↔ IoCall.write.Spares f buf n bs d.major k := by
  obtain ⟨d', hat⟩ := h.file
  have hfile : (fileOf sb i k').1 = IoCall.write.after f buf bs k k' := by rw [hat.fileOf_eq]
  have hsame : ∀ p, (if p = k.cur then k.proc.mem else (k.ptable p).mem) = (k.ptable p).mem := fun p => by
    split
    · next hp => rw [hp, Kernel.proc]
    · rfl
  have hmem : (∀ p, (k'.ptable p).mem = (k.ptable p).mem) ↔
      (d.major = 0 ∧ 0 ≤ k.encrKey.toInt → ∀ j < r.toNat, encrByte k.encrKey (k.proc.mem (buf + j)) = k.proc.mem (buf + j)) := by
    rw [← if_mapMem_iff, ← mem_update_iff k.ptable k.cur, h.ptable]
    simp only [hsame]
  simp only [IoCall.Works, IoCall.Result, IoCall.Spares, hfile, hmem, true_and, h.result]
  rcases h.result with ⟨hfits, rfl, -⟩ | ⟨hno, rfl⟩
  · rw [Int.toNat_natCast]
    exact ⟨fun hj _ h0 hk => hj ⟨h0, hk⟩, fun hj hc => hj hfits hc.1 hc.2⟩
  · exact ⟨fun _ hfits => absurd hfits hno, fun _ _ j hj => absurd hj (Nat.not_lt_zero j)⟩

theorem ReadDone.works_iff {buf : Nat} {r : Int} (h : ReadDone sb ip i f buf n d bs k r k') :
    IoCall.read.Works sb i f buf n bs k r k' ↔ IoCall.read.Spares f buf n bs d.major k := by
  have hfile : (fileOf sb i k').1 = IoCall.read.after f buf bs k k' := by
    rw [h.file.fileOf_eq]
    rfl
  have hlen : r.toNat = (readResult (arrayRead (k.ftable f) bs n)).2.length := by
    rw [h.result]
    cases arrayRead (k.ftable f) bs n <;> rfl
  have hres := h.result
  have hpt := h.ptable
  simp only [IoCall.Works, IoCall.Result, IoCall.Spares, hfile, true_and, ← hres]
  generalize (readResult (arrayRead (k.ftable f) bs n)).2 = b at hlen hpt ⊢
  have hcur : ∀ p, (if p = k.cur then putBytes (k.ptable p).mem buf b else (k.ptable p).mem) =
      if p = k.cur then putBytes k.proc.mem buf b else (k.ptable p).mem := fun p => by
    split
    · next hp => rw [hp, Kernel.proc]
    · rfl
  simp only [hcur, hpt]
  rw [mem_update_iff, if_mapMem_iff, hlen, List.forall_mem_iff_getElem, ← and_imp]
  refine forall_congr' fun _ => forall₂_congr fun j hj => ?_
  rw [putBytes, if_pos (by omega), Nat.add_sub_cancel_left, List.getD_eq_getElem _ _ hj]

/-- A call on the file works on its array of bytes exactly if the cipher spares its bytes. -/
theorem io_works_iff (hL : Layout sb) (h : IoRun sb ip i k bs) (u : User) (c : IoCall) {buf : Nat}
    (ha : (k.user u).proc.argio = some (f, buf, n)) (hf : OnInode ip f k) :
    (c = .read → 0 < (k.fs.icache ip).ref → ∃ r k', (c.exec sb).run (k.user u) = .ok (r, k')) ∧
    ∀ r k', (c.exec sb).run (k.user u) = .ok (r, k') →
      (c.Works sb i f buf n bs (k.user u) r k' ↔ c.Spares f buf n bs (fileOf sb i k).2.2 (k.user u)) := by
  obtain ⟨d, hat⟩ := h.at hL
  have hmaj : (fileOf sb i k).2.2 = d.major := by rw [hat.fileOf_eq]
  have hat := hat.user hL u
  have hf : OnInode ip f (k.user u) := ⟨hf.type, hf.ip, hf.off⟩
  rw [hmaj]
  refine ⟨?_, fun r k' hr => ?_⟩
  · rintro rfl hp
    obtain ⟨r, k', hr, -⟩ := (sysRead_spec hL hat ha hf (.inl hp)).exists_ok
    exact ⟨r, k', hr⟩
  · cases c with
    | read => exact (wp.of_ok (sysRead_spec hL hat ha hf (.inr fun _ => trivial)) hr).works_iff
    | write => exact (wp.of_ok (sysWrite_spec hL hat ha hf) hr).works_iff

end

/-! ### One byte -/

/-- Process 0 traps with descriptor 0 and the one byte `b` at address 16 as its buffer. -/
def ioTrap (b : Byte) : User where
  proc := 0
  sz := 20
  esp := 0
  mem a := if a = 8 then 16 else if a = 12 then 1 else if a = 16 then b else 0
  kmem := []
  tape := []

theorem at_fileKernel (key : BitVec 32) (b : Byte) : At mkfsSuperblock 0 1 (fileDinode 1 1)
    (contents (fileKernel key [b]).fs.dev.cache (fileDinode 1 1))
    (fileKernel key [b]) := by
  have h := (fresh_fileKernel key [b] (by simp)).resting
  have hok : CacheOk mkfsSuperblock (fileKernel key [b]).fs := cacheOk_openTwice key (by decide) (by simp) _
  exact ⟨hok, by decide, rfl, rfl, rfl, rfl, h.view.table, rfl, rfl⟩

/-- The byte in the file is read into the buffer when no key is set. -/
theorem io_works_read : ∃ r k', (sysRead mkfsSuperblock).run ((fileKernel (-1) [0x61]).user (ioTrap 0)) = .ok (r, k') ∧
    IoCall.read.Works mkfsSuperblock 1 0 16 1 [0x61] ((fileKernel (-1) [0x61]).user (ioTrap 0)) r k' := by
  have hbs : contents (fileKernel (-1) [0x61]).fs.dev.cache (fileDinode 1 1) = [0x61] := by decide +kernel
  have hrun := IoRun.start (at_fileKernel (-1) 0x61)
  rw [hbs] at hrun
  have harg : ((fileKernel (-1) [0x61]).user (ioTrap 0)).proc.argio = some (0, 16, 1) := by decide +kernel
  obtain ⟨hret, hiff⟩ := io_works_iff mkfs_layout hrun (ioTrap 0) .read harg ⟨rfl, rfl, by decide⟩
  obtain ⟨r, k', hr⟩ := hret rfl (by decide)
  exact ⟨r, k', hr, (hiff r k' hr).2 fun _ hkey => absurd hkey (by decide)⟩

/-- A write under the key 3 changes the caller's buffer from 0x61 to 0x64. -/
theorem write_changes_buffer : ∃ k k', IoRun mkfsSuperblock 0 1 k [0] ∧ k.encrKey = 3 ∧
    (sysWrite mkfsSuperblock).run (k.user (ioTrap 0x61)) = .ok (1, k') ∧ fileOf mkfsSuperblock 1 k' = ([0x61], 1, 0) ∧
    (k.user (ioTrap 0x61)).proc.mem 16 = 0x61 ∧ k'.proc.mem 16 = 0x64 := by
  have hbs : contents (fileKernel 3 [0]).fs.dev.cache (fileDinode 1 1) = [0] := by decide +kernel
  have hrun := IoRun.start (at_fileKernel 3 0)
  rw [hbs] at hrun
  exact ⟨fileKernel 3 [0], _, hrun, rfl, run_eq_final (by decide +kernel),
    by decide +kernel, by decide +kernel, by decide +kernel⟩

end Xv6
