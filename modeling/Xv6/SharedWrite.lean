import Xv6.FileCalls
import Xv6.Tagged

/-!
# Concurrent `filewrite` on a shared file structure

Any number of processes write through one `struct file`. `WriteSys` interleaves them at the points where
the lock of the inode is not held: before and after `begin_op` and `end_op`, and around the stretches
under the lock (`writeSegment`). It remembers what was asked for and what has been written under the
lock, in this order, and what the calls have returned.
-/

namespace Xv6

open Prog Function

/-- The bytes of a chunk of `filewrite` at position `i` of `n`. -/
def chunkLen (n i : Nat) : Nat := min (n - i) (((MAXOPBLOCKS - 1 - 1 - 2) / 2) * 512)

/-- Where a process is in `filewrite(f, addr, n)`, at position `i`: outside, before `begin_op`, before
`ilock`, or before `end_op`. -/
inductive WritePc
  | out
  | begin (addr n i : Nat)
  | lock (addr n i : Nat)
  | unlocked (addr n i : Nat) (r : Int)
deriving DecidableEq

/-- The bytes of memory from `addr` on. -/
def bytesAt (mem : Nat → Byte) (addr n : Nat) : List Byte := (List.range n).map fun j => mem (addr + j)

structure WriteSys where
  k : Kernel
  pc : Nat → WritePc
  /-- The buffers of the calls, with the process that made the call. -/
  asked : List (Nat × List Byte)
  /-- The chunks that have been written. -/
  chunks : List (Nat × List Byte)
  /-- Length and result of the calls that have returned. -/
  results : List (Nat × Int)

abbrev WriteM := Prog WriteSys Fault

namespace WriteSys

def kern {α : Type} (x : KM α) : WriteM α := zoom WriteSys.k (fun k s => { s with k }) x

def move (p : Nat) (c : WritePc) : WriteM Unit := modify fun s => { s with pc := update s.pc p c }

/-- `filewrite` returns `r`. -/
def leave (p n : Nat) (r : Int) : WriteM Unit := modify fun s =>
  { s with pc := update s.pc p .out, results := s.results ++ [(n, r)] }

/-- `while(i < n)` and the end of `filewrite`. -/
def loop (p addr n i : Nat) : WriteM Unit := if i < n then move p (.begin addr n i) else leave p n (if i = n then n else -1)

end WriteSys

inductive WriteAct
  /-- A process calls `filewrite(f, addr, n)`. -/
  | call (u : User) (addr n : Nat)
  /-- The process goes on to the next point without the lock. -/
  | run (p : Nat)

/-- The action on the file structure `f`, which is one of an inode. -/
def WriteAct.exec (sb : Superblock) (f : Nat) : WriteAct → WriteM Unit
  | .call u addr n => do
    let s ← get
    failIf (s.pc u.proc ≠ .out) .sleeps
    set { s with k := s.k.user u, asked := s.asked ++ [(u.proc, bytesAt u.mem addr n)] }
    if (s.k.ftable f).writable = false then WriteSys.leave u.proc n (-1) else WriteSys.loop u.proc addr n 0
  | .run p => do
    let s ← get
    set { s with k := { s.k with cur := p } }
    match s.pc p with
    | .out => throw .sleeps
    | .begin addr n i => do
      WriteSys.kern beginOpK
      WriteSys.move p (.lock addr n i)
    | .lock addr n i => do
      let ip ← WriteSys.kern (deref (s.k.ftable f).ip)
      let r ← WriteSys.kern (writeSegment sb f ip (addr + i) (chunkLen n i))
      modify fun s => { s with chunks := s.chunks ++ [(p, bytesAt s.k.proc.mem (addr + i) r.toNat)] }
      WriteSys.move p (.unlocked addr n i r)
    | .unlocked addr n i r => do
      WriteSys.kern (endOpK sb)
      if r < 0 then WriteSys.leave p n (if i = n then n else -1)
      else do
        failIf (r ≠ chunkLen n i) (.panic "short filewrite")
        WriteSys.loop p addr n (i + chunkLen n i)

/-- The calls so far, with one of `n` bytes more, do not ask for more than a file can hold behind the bytes `bs`. -/
def WriteAct.Fits (bs : List Byte) (s : WriteSys) : WriteAct → Prop
  | .call _ _ n => bs.length + (Tagged.all s.asked).length + n ≤ MAXFILE * BSIZE
  | .run _ => True

instance (bs : List Byte) (s : WriteSys) (a : WriteAct) : Decidable (a.Fits bs s) := by
  cases a with
  | call u addr n => exact inferInstanceAs (Decidable (_ ≤ _))
  | run p => exact inferInstanceAs (Decidable True)

/-- The states reached from one without calls in which inode `i`, the cache entry `ip`, is a regular file with the contents `bs`
and `f` is open for writing at its end. -/
inductive WriteRun (sb : Superblock) (ip i f : Nat) (bs : List Byte) : WriteSys → Prop
  | start {k : Kernel} {d : Dinode} (h : At sb ip i d bs k)
      (hf : (k.ftable f).type = .FD_INODE ∧ (k.ftable f).ip = some ip ∧ (k.ftable f).writable = true ∧
        (k.ftable f).off = bs.length) :
      WriteRun sb ip i f bs ⟨k, fun _ => .out, [], [], []⟩
  | step {s s' : WriteSys} {a : WriteAct} (h : WriteRun sb ip i f bs s) (hfits : a.Fits bs s)
      (hs : (a.exec sb f).run s = .ok ((), s')) :
      WriteRun sb ip i f bs s'

/-! ### The invariant -/

def WritePc.rest (mem : Nat → Byte) : WritePc → List Byte
  | .out => []
  | .begin addr n i | .lock addr n i => bytesAt mem (addr + i) (n - i)
  | .unlocked addr n i _ => bytesAt mem (addr + (i + chunkLen n i)) (n - (i + chunkLen n i))

def WritePc.Ok : WritePc → Prop
  | .out => True
  | .begin _ n i | .lock _ n i => i < n
  | .unlocked _ n i r => i < n ∧ r = chunkLen n i

structure Appending (sb : Superblock) (ip i f : Nat) (bs : List Byte) (s : WriteSys) : Prop where
  file : ∃ d, At sb ip i d (bs ++ Tagged.all s.chunks) s.k
  fd : (s.k.ftable f).type = .FD_INODE ∧ (s.k.ftable f).ip = some ip ∧ (s.k.ftable f).writable = true ∧
    (s.k.ftable f).off = (bs ++ Tagged.all s.chunks).length
  pc : ∀ p, (s.pc p).Ok
  small : ∀ c ∈ s.chunks, c.2.length ≤ 1536
  /-- What a process has asked for has been written, or is still to be written. -/
  order : ∀ p, Tagged.of p s.asked = Tagged.of p s.chunks ++ (s.pc p).rest (s.k.ptable p).mem
  room : bs.length + (Tagged.all s.asked).length ≤ MAXFILE * BSIZE
  results : ∀ x ∈ s.results, x.2 = x.1

theorem length_bytesAt (mem : Nat → Byte) (addr n : Nat) : (bytesAt mem addr n).length = n := by
  rw [bytesAt, List.length_map, List.length_range]

theorem bytesAt_add (mem : Nat → Byte) (addr m n : Nat) : bytesAt mem addr
    (m + n) = bytesAt mem addr m ++ bytesAt mem (addr + m) n := by
  rw [bytesAt, List.range_add, List.map_append, List.map_map, bytesAt, bytesAt]
  refine congrArg _ (List.map_congr_left fun j _ => ?_)
  rw [Function.comp_apply, Nat.add_assoc]

theorem chunkLen_le (n i : Nat) : chunkLen n i ≤ n - i ∧ chunkLen n i ≤ 1536 := ⟨Nat.min_le_left .., Nat.min_le_right ..⟩

theorem rest_chunk (mem : Nat → Byte) (addr n i : Nat) :
    bytesAt mem (addr + i) (n - i) = bytesAt mem (addr + i) (chunkLen n i) ++ bytesAt mem
      (addr + (i + chunkLen n i)) (n - (i + chunkLen n i)) := by
  have hle := (chunkLen_le n i).1
  rw [← Nat.add_assoc, ← bytesAt_add]
  exact congrArg _ (by omega)

theorem splice_length (bs a : List Byte) : splice bs bs.length a = bs ++ a := by
  rw [splice, List.take_length, List.drop_eq_nil_of_le (Nat.le_add_right _ _), List.append_nil]

namespace Appending

variable {sb : Superblock} {ip i f p : Nat} {bs : List Byte} {s : WriteSys} {k : Kernel}

theorem kernel (h : Appending sb ip i f bs s) (hat : ∃ d, At sb ip i d (bs ++ Tagged.all s.chunks) k)
    (hft : k.ftable = s.k.ftable)
    (hpt : k.ptable = s.k.ptable) : Appending sb ip i f bs { s with k := k } := by
  refine ⟨hat, ?_, h.pc, h.small, fun p => ?_, h.room, h.results⟩
  · rw [hft]
    exact h.fd
  · rw [hpt]
    exact h.order p

theorem pc_update (h : ∀ q, (s.pc q).Ok) {c : WritePc} (hc : c.Ok) (q : Nat) : (update s.pc p c q).Ok := by
  rcases eq_or_ne q p with rfl | hne
  · rw [update_self]
    exact hc
  · rw [update_of_ne hne]
    exact h q

theorem move (h : Appending sb ip i f bs s) {c : WritePc} (hc : c.Ok)
    (hrest : ∀ mem, c.rest mem = (s.pc p).rest mem) {r : List (Nat × Int)}
    (hr : ∀ x ∈ r, x.2 = x.1) : Appending sb ip i f bs { s with pc := update s.pc p c, results := s.results ++ r } := by
  refine ⟨h.file, h.fd, pc_update h.pc hc, h.small, fun q => ?_, h.room, fun x hx => ?_⟩
  · dsimp only
    rw [h.order q]
    rcases eq_or_ne q p with rfl | hne
    · rw [update_self, hrest]
    · rw [update_of_ne hne]
  · rcases List.mem_append.1 hx with hx | hx
    · exact h.results x hx
    · exact hr x hx

theorem loop (h : Appending sb ip i f bs s) {addr n j : Nat} (hj : j ≤ n)
    (hrest : ∀ mem, bytesAt mem (addr + j) (n - j) = (s.pc p).rest mem) :
    wp (WriteSys.loop p addr n j) (fun _ => Appending sb ip i f bs) (fun _ => True) s := by
  unfold WriteSys.loop
  split
  · next hlt =>
    have hmove := h.move (p := p) (c := .begin addr n j) (r := []) hlt hrest fun _ hx => absurd hx List.not_mem_nil
    rw [List.append_nil] at hmove
    exact hmove
  · next hge =>
    obtain rfl : j = n := by omega
    rw [if_pos rfl]
    refine h.move (p := p) (c := .out) (r := [(j, (j : Int))]) trivial (fun mem => ?_) fun x hx => ?_
    · rw [← hrest mem, Nat.sub_self]
      rfl
    · rw [List.mem_singleton.1 hx]

theorem wp_kern {α : Type} {x : KM α} {Q : α → WriteSys → Prop} {E : Fault → Prop} :
    wp (WriteSys.kern x) Q E s ↔ wp x (fun a k => Q a { s with k := k }) E s.k := wp_zoom

theorem fits (h : Appending sb ip i f bs s) {addr n j : Nat} (hp : s.pc p = .lock addr n j) :
    (bs ++ Tagged.all s.chunks).length + chunkLen n j ≤ MAXFILE * BSIZE := by
  have hle : (Tagged.all (s.chunks ++
    [(p, bytesAt (s.k.ptable p).mem (addr + j) (chunkLen n j))])).length ≤ (Tagged.all s.asked).length := by
    refine Tagged.length_all_le fun q => ?_
    rcases eq_or_ne p q with rfl | hne
    · rw [Tagged.of_concat_self, h.order p, hp, WritePc.rest, rest_chunk, ← List.append_assoc]
      exact (List.prefix_append ..).length_le
    · rw [Tagged.of_concat_of_ne hne, h.order q, List.length_append]
      exact Nat.le_add_right _ _
  rw [Tagged.all_concat, List.length_append, length_bytesAt] at hle
  have hroom := h.room
  rw [List.length_append]
  omega

theorem segment (hL : Layout sb) (h : Appending sb ip i f bs s) {addr n j : Nat} (hp : s.pc p = .lock addr n j) :
    wp (writeSegment sb f ip (addr + j) (chunkLen n j)) (fun r k => Appending sb ip i f bs { s with
        k := k
        chunks := s.chunks ++ [(p, bytesAt k.proc.mem (addr + j) r.toNat)]
        pc := update s.pc p (.unlocked addr n j r) }) (fun _ => True) { s.k with cur := p } := by
  obtain ⟨d, hat⟩ := h.file
  have hat' : At sb ip i d (bs ++ Tagged.all s.chunks) { s.k with cur := p } := hat.dev hL hat.ok.fs.head (fun _ _ => rfl) rfl
  have hfits := h.fits hp
  have hsize := hat.length
  have hmax : MAXFILE * BSIZE < 2 ^ 31 := by decide
  have hlt : j < n := by
    have hok := h.pc p
    rwa [hp] at hok
  refine (hat'.writeSegment hL h.fd.2.2.2 (by omega) (by omega) (addr + j)).post ?_
  rintro r k (⟨hno, -⟩ | ⟨-, rfl, d', hm⟩)
  · exact absurd ⟨hsize.le, by omega, hfits⟩ hno
  have hmem : k.proc.mem = (s.k.ptable p).mem := by rw [hm.eq]; rfl
  have hpt : k.ptable = s.k.ptable := by rw [hm.eq]
  rw [Int.toNat_natCast, hmem]
  have hfile := hm.file
  rw [splice_length] at hfile
  have hall : Tagged.all (s.chunks ++ [(p, bytesAt (s.k.ptable p).mem (addr + j) (chunkLen n j))]) =
      Tagged.all s.chunks ++ bytesAt (s.k.ptable p).mem (addr + j) (chunkLen n j) := Tagged.all_concat
  refine ⟨⟨d', ?_⟩, ?_, pc_update h.pc ⟨hlt, rfl⟩, fun c hc => ?_, fun q => ?_, h.room, h.results⟩
  · dsimp only
    rw [hall, ← List.append_assoc]
    exact hfile
  · dsimp only
    rw [hall, ← List.append_assoc, List.length_append, length_bytesAt, hm.eq]
    simp only [update_self, and_true]
    exact ⟨h.fd.1, h.fd.2.1, h.fd.2.2.1⟩
  · rcases List.mem_append.1 hc with hc | hc
    · exact h.small c hc
    · rw [List.mem_singleton.1 hc, length_bytesAt]
      exact (chunkLen_le n j).2
  · dsimp only
    rw [hpt, h.order q]
    rcases eq_or_ne p q with rfl | hne
    · rw [Tagged.of_concat_self, update_self, hp, WritePc.rest, WritePc.rest, List.append_assoc, ← rest_chunk]
    · rw [Tagged.of_concat_of_ne hne, update_of_ne hne.symm]

theorem run (hL : Layout sb) (h : Appending sb ip i f bs s) (p : Nat) :
    wp (WriteAct.exec sb f (.run p)) (fun _ => Appending sb ip i f bs) (fun _ => True) s := by
  obtain ⟨d, hat⟩ := h.file
  have hat' : At sb ip i d (bs ++ Tagged.all s.chunks) { s.k with cur := p } := hat.dev hL hat.ok.fs.head (fun _ _ => rfl) rfl
  have hok := h.pc p
  refine wp_bind.2 (wp_get.2 (wp_bind.2 ((wp_set _).2 ?_)))
  cases hp : s.pc p with
  | out => trivial
  | begin addr n j =>
    rw [hp] at hok
    refine wp_bind.2 (wp_kern.2 ((hat'.beginOp hL).post ?_))
    rintro _ k ⟨e, hk⟩
    have hnew := h.kernel (k := k) ⟨d, hk⟩ (by rw [e]) (by rw [e])
    have hmove := hnew.move (p := p) (c := .lock addr n j) (r := []) hok (fun mem => ?_) fun _ hx => absurd hx List.not_mem_nil
    · rw [List.append_nil] at hmove
      exact hmove
    · change _ = (s.pc p).rest mem
      rw [hp]
      rfl
  | lock addr n j =>
    rw [h.fd.2.1]
    refine wp_bind.2 (wp_kern.2 ?_)
    rw [deref_some]
    refine wp_bind.2 (wp_kern.2 ((h.segment hL hp).post ?_))
    intro r k hk
    exact hk
  | unlocked addr n j r =>
    rw [hp] at hok
    obtain ⟨hlt, rfl⟩ := hok
    have hle := (chunkLen_le n j).1
    refine wp_bind.2 (wp_kern.2 ((hat'.endOp hL).post ?_))
    rintro _ k ⟨e, hk⟩
    have hnew := h.kernel (k := k) ⟨d, hk⟩ (by rw [e]) (by rw [e])
    dsimp only
    rw [if_neg (by omega)]
    refine wp_bind.2 (wp_failIf.2 ⟨fun hne => absurd rfl hne, fun _ => ?_⟩)
    refine hnew.loop (by omega) fun mem => ?_
    change _ = (s.pc p).rest mem
    rw [hp]
    rfl

theorem ask (hL : Layout sb) (h : Appending sb ip i f bs s) {u : User} {addr n : Nat} (hout : s.pc u.proc = .out)
    (hroom : bs.length + (Tagged.all s.asked).length + n ≤ MAXFILE * BSIZE) {c : WritePc} (hc : c.Ok)
    (hrest : c.rest u.mem = bytesAt u.mem addr n) {r : List (Nat × Int)} (hr : ∀ x ∈ r, x.2 = x.1) :
    Appending sb ip i f bs { s with
      k := s.k.user u
      asked := s.asked ++ [(u.proc, bytesAt u.mem addr n)]
      pc := update s.pc u.proc c
      results := s.results ++ r } := by
  obtain ⟨d, hat⟩ := h.file
  refine ⟨⟨d, hat.user hL u⟩, h.fd, pc_update h.pc hc, h.small, fun q => ?_, ?_, fun x hx => ?_⟩
  · have hq := h.order q
    dsimp only [Kernel.user]
    rcases eq_or_ne u.proc q with rfl | hne
    · rw [hout, WritePc.rest, List.append_nil] at hq
      rw [Tagged.of_concat_self, update_self, update_self, hrest, hq]
    · rw [Tagged.of_concat_of_ne hne, update_of_ne hne.symm, update_of_ne hne.symm, hq]
  · dsimp only
    rw [Tagged.all_concat, List.length_append, length_bytesAt, ← Nat.add_assoc]
    exact hroom
  · rcases List.mem_append.1 hx with hx | hx
    · exact h.results x hx
    · exact hr x hx

theorem call (hL : Layout sb) (h : Appending sb ip i f bs s) (u : User) (addr n : Nat)
    (hfits : WriteAct.Fits bs s (.call u addr n)) :
    wp (WriteAct.exec sb f (.call u addr n)) (fun _ => Appending sb ip i f bs) (fun _ => True) s := by
  refine wp_bind.2 (wp_get.2 (wp_bind.2 (wp_failIf.2 ⟨fun _ => trivial, fun hout => wp_bind.2 ((wp_set _).2 ?_)⟩)))
  rw [not_not] at hout
  rw [if_neg (by simp [h.fd.2.2.1])]
  unfold WriteSys.loop
  split
  · next hlt =>
    have hask := h.ask hL (c := .begin addr n 0) (r := []) hout hfits hlt rfl fun _ hx => absurd hx List.not_mem_nil
    rw [List.append_nil] at hask
    exact hask
  · next hge =>
    obtain rfl : n = 0 := by omega
    refine h.ask hL (c := .out) (r := [(0, 0)]) hout hfits trivial rfl fun x hx => ?_
    rw [List.mem_singleton.1 hx]
    rfl

end Appending

section

variable {sb : Superblock} {ip i f : Nat} {bs : List Byte} {s : WriteSys}

theorem WriteRun.appending (hL : Layout sb) (h : WriteRun sb ip i f bs s) : Appending sb ip i f bs s := by
  induction h with
  | @start k d h hf =>
    have hmax : bs.length ≤ MAXFILE * BSIZE := by
      rw [h.length]
      exact (h.ok.fs.files i d h.table).size_le
    have hnil : bs ++ Tagged.all ([] : List (Nat × List Byte)) = bs := List.append_nil bs
    refine ⟨⟨d, ?_⟩, ?_, fun _ => trivial, fun c hc => absurd hc List.not_mem_nil, fun _ => rfl, hmax,
      fun c hc => absurd hc List.not_mem_nil⟩
    · rw [hnil]
      exact h
    · rw [hnil]
      exact hf
  | @step s s' a _ hfits hs ih =>
    cases a with
    | call u addr n => exact wp.of_ok (ih.call hL u addr n hfits) hs
    | run p => exact wp.of_ok (ih.run hL p) hs

/-- Processes that write through one `struct file` at the end of a file lose nothing: the file has its old contents and then the
chunks in the order of the lock, and the offset is its size. The chunks of a process are the bytes that it has asked for, in
order, up to those it has still to write, and every call that returns has written all of its bytes. -/
theorem shared_writes_append (hL : Layout sb) (h : WriteRun sb ip i f bs s) :
    (fileOf sb i s.k).1 = bs ++ Tagged.all s.chunks ∧ (s.k.ftable f).off = (fileOf sb i s.k).2.1.toNat ∧
    (s.k.ftable f).off = bs.length + (Tagged.all s.chunks).length ∧ (∀ c ∈ s.chunks, c.2.length ≤ 1536) ∧
    (∀ p, Tagged.of p s.asked = Tagged.of p s.chunks ++ (s.pc p).rest (s.k.ptable p).mem) ∧
    (∀ x ∈ s.results, x.2 = x.1) ∧
    ((∀ p, s.pc p = .out) → ∀ p, Tagged.of p s.chunks = Tagged.of p s.asked) := by
  have ha := h.appending hL
  obtain ⟨d, hat⟩ := ha.file
  have hoff := ha.fd.2.2.2
  rw [hat.fileOf_eq]
  refine ⟨rfl, hoff.trans hat.length, ?_, ha.small, ha.order, ha.results, fun hout p => ?_⟩
  · rw [hoff, List.length_append]
  · rw [ha.order p, hout p, WritePc.rest, List.append_nil]

end

/-! ### Two processes -/

/-- The file has one byte, and `f` 0 is open for writing at its end. -/
def atEnd : Kernel := { fileKernel (-1) [0x61] with
  ftable := fun f =>
    if f = 0 then ⟨.FD_INODE, 2, true, true, 0, some 0, 1⟩ else ⟨.FD_NONE, 0, false, false, 0, none, 0⟩ }

/-- Process `p` writes `n` bytes `b`. -/
def writeBy (p n : Nat) (b : Byte) : WriteAct := .call ⟨p, 0, 0, fun _ => b, [], []⟩ 0 n

def wrote (s : WriteSys) (a : WriteAct) : WriteSys := (a.exec mkfsSuperblock 0).final s

theorem WriteRun.next {ip i : Nat} {bs : List Byte} {s : WriteSys} (h : WriteRun mkfsSuperblock ip i 0 bs s) (a : WriteAct)
    (hfits : a.Fits bs s) (hr : (a.exec mkfsSuperblock 0).result s = some ()) : WriteRun mkfsSuperblock ip i 0 bs (wrote s a) :=
  h.step hfits (run_eq_final hr)

def twoWriters : WriteSys :=
  [writeBy 0 2 0x62, writeBy 1 1 0x63, .run 0, .run 1, .run 1, .run 0, .run 0, .run 1].foldl wrote
    ⟨atEnd, fun _ => .out, [], [], []⟩

theorem shared_writes_append_two : twoWriters.chunks = [(1, [0x63]), (0, [0x62, 0x62])] ∧
    (fileOf mkfsSuperblock 1 twoWriters.k).1 = [0x61] ++ Tagged.all twoWriters.chunks := by
  have hbs : contents (fileKernel (-1) [0x61]).fs.dev.cache (fileDinode 1 1) = [0x61] := by decide +kernel
  have hat : At mkfsSuperblock 0 1 (fileDinode 1 1) [0x61] atEnd := by
    have h := at_fileKernel (-1) 0x61
    rw [hbs] at h
    exact h.dev mkfs_layout h.ok.fs.head (fun _ _ => rfl) rfl
  have h₀ : WriteRun mkfsSuperblock 0 1 0 [0x61] ⟨atEnd, fun _ => .out, [], [], []⟩ := .start hat ⟨rfl, rfl, rfl, rfl⟩
  have h₂ := (h₀.next (writeBy 0 2 0x62) (by decide +kernel) (by decide +kernel)).next
    (writeBy 1 1 0x63) (by decide +kernel) (by decide +kernel)
  have h₅ := ((h₂.next (.run 0) trivial (by decide +kernel)).next (.run 1) trivial
    (by decide +kernel)).next (.run 1) trivial (by decide +kernel)
  have h₈ := ((h₅.next (.run 0) trivial (by decide +kernel)).next (.run 0) trivial
    (by decide +kernel)).next (.run 1) trivial (by decide +kernel)
  exact ⟨by decide +kernel, (shared_writes_append mkfs_layout h₈).1⟩

end Xv6
