import Xv6.CryptCrash
import Xv6.OpenFile

/-!
# Interleaved `sys_encr`, `sys_decr` and `sys_setkey`

Both calls test the flag before they lock the inode, release the lock after every ten blocks, and read the
key again for every byte. `CryptSys` interleaves any number of processes at the points where the lock is
not held: before and after `begin_op` and `end_op`, and around the stretches under the lock (`cryptSegment`).
Calls that do not overlap, with each other or with a change of the key, leave the file plain under flag 0
or encrypted once under flag 1.
-/

namespace Xv6

open Prog Function

section Stretches

variable (sb : Superblock)

/-- The tests before `begin_op`; the file and its inode if the call goes on. -/
def cryptCheck (flag : BitVec 16) : KM (Option (Nat × Nat)) := do
  let k ← get
  match k.proc.argfd 0 with
  | none => pure none
  | some (_, f) =>
    if k.encrKey = -1 then pure none
    else if (k.ftable f).type.code = T_DEV.toNat then pure none
    else if k.major f = flag then pure none
    else do
      let ip ← deref (k.ftable f).ip
      pure (some (f, ip))

/-- From `ilock` to `iunlock` or `iunlockput`; whether there may be more to do. -/
def cryptSegment (flag : BitVec 16) (g : BitVec 32 → Byte → Byte) (f ip : Nat) : KM Bool := do
  onFs (ilock sb ip)
  let more ← cryptBatch sb g f ip 10
  if more = true then do
    onFs (iunlock ip)
    pure true
  else do
    onFs (setFields sb ip fun d => { d with major := flag })
    onFs (iunlockput sb ip)
    pure false

variable {sb} {flag : BitVec 16} {g : BitVec 32 → Byte → Byte} {f ip : Nat}

theorem cryptLoop_succ (fuel : Nat) : cryptLoop sb flag g f ip (fuel + 1) = (do
    beginOpK
    let more ← cryptSegment sb flag g f ip
    endOpK sb
    if more = true then cryptLoop sb flag g f ip fuel else pure ()) := by
  rw [cryptLoop, cryptSegment]
  simp only [bind_assoc]
  congr 1
  funext _
  congr 1
  funext _
  congr 1
  funext more
  cases more <;> simp [cryptFinish]

theorem cryptCheck_spec (sb : Superblock) (g : BitVec 32 → Byte → Byte) {k : Kernel} : wp (cryptCheck flag) (fun r k' => k' = k ∧
    match r with
    | none => ∃ c : Int, c < 0 ∧ (cryptFile sb flag g).run k = .ok (c, k)
    | some (f, ip) => (∃ fd, k.proc.argfd 0 = some (fd, f)) ∧ (k.ftable f).ip = some ip ∧ k.encrKey ≠ -1 ∧ k.major f ≠ flag ∧
      (cryptFile sb flag g).run k =
        (do
          cryptLoop sb flag g f ip (2 ^ 32 + k.fs.dev.tape.length)
          pure (0 : Int)).run k) (fun _ => True) k := by
  have hrun : (cryptFile sb flag g).run k =
      (match k.proc.argfd 0 with
        | none => pure (-1)
        | some (_, f) =>
          if k.encrKey = -1 then pure (-1)
          else if (k.ftable f).type.code = T_DEV.toNat then pure (-2)
          else if k.major f = flag then pure (-3)
          else do
            let ip ← deref (k.ftable f).ip
            cryptLoop sb flag g f ip (2 ^ 32 + k.fs.dev.tape.length)
            pure 0 : KM Int).run k := rfl
  refine wp_bind.2 (wp_get.2 ?_)
  rw [hrun]
  rcases ha : k.proc.argfd 0 with _ | ⟨fd, f⟩
  · exact ⟨rfl, -1, by decide, rfl⟩
  · dsimp only
    by_cases hkey : k.encrKey = -1
    · rw [if_pos hkey]
      refine ⟨rfl, -1, by decide, ?_⟩
      rw [if_pos hkey]
      rfl
    by_cases htype : (k.ftable f).type.code = T_DEV.toNat
    · rw [if_neg hkey, if_pos htype]
      refine ⟨rfl, -2, by decide, ?_⟩
      rw [if_neg hkey, if_pos htype]
      rfl
    by_cases hmajor : k.major f = flag
    · rw [if_neg hkey, if_neg htype, if_pos hmajor]
      refine ⟨rfl, -3, by decide, ?_⟩
      rw [if_neg hkey, if_neg htype, if_pos hmajor]
      rfl
    · rw [if_neg hkey, if_neg htype, if_neg hmajor]
      cases hip : (k.ftable f).ip with
      | none => trivial
      | some ip =>
        refine ⟨rfl, ⟨fd, rfl⟩, hip, hkey, hmajor, ?_⟩
        rw [if_neg hkey, if_neg htype, if_neg hmajor]
        rfl

end Stretches

/-! ### Any number of processes -/

/-- Where a process is: outside, before `begin_op`, before `ilock`, before the `end_op` of a stretch, before the last one. -/
inductive CryptPc
  | out
  | begin (c : CryptCall) (f ip : Nat)
  | lock (c : CryptCall) (f ip : Nat)
  | unlocked (c : CryptCall) (f ip : Nat)
  | done
deriving DecidableEq

def CryptPc.Uses (f : Nat) : CryptPc → Prop
  | .begin _ f' _ | .lock _ f' _ | .unlocked _ f' _ => f' = f
  | _ => False

/-- The kernel with its processes, and the keys under which there have been encryptions, the last one first. -/
structure CryptSys where
  k : Kernel
  pc : Nat → CryptPc
  keys : List (BitVec 32)

abbrev CryptM := Prog CryptSys Fault

def onKernel {α : Type} (x : KM α) : CryptM α := zoom CryptSys.k (fun k s => { s with k }) x

def goto (p : Nat) (c : CryptPc) : CryptM Unit := modify fun s => { s with pc := update s.pc p c }

inductive CryptAct
  | call (u : User) (c : CryptCall)
  | setkey (u : User)
  /-- The process goes on to the next point without the lock. -/
  | run (p : Nat)

def CryptAct.exec (sb : Superblock) : CryptAct → CryptM Unit
  | .call u c => do
    let s ← get
    failIf (s.pc u.proc ≠ .out) .sleeps
    set { s with k := s.k.user u }
    match ← onKernel (cryptCheck c.flag) with
    | none => pure ()
    | some (f, ip) => goto u.proc (.begin c f ip)
  | .setkey u => do
    let s ← get
    failIf (s.pc u.proc ≠ .out) .sleeps
    set { s with k := s.k.user u }
    let _ ← onKernel sysSetkey
    pure ()
  | .run p => do
    let s ← get
    set { s with k := { s.k with cur := p } }
    match s.pc p with
    | .out => throw .sleeps
    | .begin c f ip => do
      onKernel beginOpK
      goto p (.lock c f ip)
    | .lock c f ip => do
      let more ← onKernel (cryptSegment sb c.flag c.byte f ip)
      modify fun s => { s with keys := if c = .encr then s.k.encrKey :: s.keys else s.keys }
      goto p (if more then .unlocked c f ip else .done)
    | .unlocked c f ip => do
      onKernel (endOpK sb)
      goto p (.begin c f ip)
    | .done => do
      onKernel (endOpK sb)
      goto p .out

def CryptAct.proc : CryptAct → Nat
  | .call u _ => u.proc
  | .setkey u => u.proc
  | .run p => p

def CryptAct.OnFile (ip : Nat) (s : CryptSys) : CryptAct → Prop
  | .call u _ => ∀ fd f, (s.k.user u).proc.argfd 0 = some (fd, f) → (s.k.ftable f).type = .FD_INODE ∧
    (s.k.ftable f).ip = some ip ∧ (s.k.ftable f).off = 0 ∧ ∀ q, ¬ (s.pc q).Uses f
  | _ => True

/-- An encryption changes the file; a decryption has the key of the last encryption and bytes that it can recover. -/
def CryptCall.Fits (bs : List Byte) (keys : List (BitVec 32)) (key : BitVec 32) : CryptCall → Prop
  | .encr => bs.map (encrByte key) ≠ bs
  | .decr => keys.head? = some key ∧ ∀ b ∈ bs, Recoverable key b

/-- A call that passes its tests finds no other one in progress and a key that fits. The key is not set during a call. -/
def CryptAct.Isolated (bs : List Byte) (s : CryptSys) : CryptAct → Prop
  | .call u c => ∀ fd f, (s.k.user u).proc.argfd 0 = some (fd, f) → s.k.encrKey ≠ -1 → s.k.major f ≠ c.flag →
    (∀ q, s.pc q = .out) ∧ c.Fits bs s.keys s.k.encrKey
  | .setkey _ => ∀ q, s.pc q = .out
  | .run _ => True

/-- The states reached by actions that satisfy `P`, from one without calls in which inode `i`, the cache entry `ip`, is a plain
regular file with the contents `bs`. -/
inductive CryptRun (sb : Superblock) (ip i : Nat) (bs : List Byte) (P : CryptSys → CryptAct → Prop) : CryptSys → Prop
  | start {k : Kernel} {d : Dinode} (h : Resting sb ip i d k) (ht : d.type = T_FILE) (hm : d.major = 0) (hl : d.nlink ≠ 0)
      (hb : contents k.fs.dev.cache d = bs) : CryptRun sb ip i bs P ⟨k, fun _ => .out, []⟩
  | step {s s' : CryptSys} {a : CryptAct} (h : CryptRun sb ip i bs P s) (hP : P s a) (hs : (a.exec sb).run s = .ok ((), s')) :
      CryptRun sb ip i bs P s'

def Truthful (bs : List Byte) (keys : List (BitVec 32)) (file : List Byte × BitVec 32 × BitVec 16) : Prop :=
  (file.2.2 = 1 ↔ ∃ key ∈ keys, file.1 = bs.map (encrByte key)) ∧ (file.2.2 = 0 ↔ file.1 = bs)

section

variable {sb : Superblock} {ip i f off : Nat} {d : Dinode} {bs bs' : List Byte} {k k' : Kernel} {s s' : CryptSys}

theorem At.segment (h : At sb ip i d bs' k) (hlink : d.nlink ≠ 0) (hL : Layout sb) (c : CryptCall)
    (ho : (k.ftable f).off = off) (hle : off ≤ d.size.toNat) :
    wp (cryptSegment sb c.flag c.byte f ip) (fun more k' =>
      k' = { k with fs := k'.fs, ftable := k'.ftable } ∧
      (more = true ∧ (k'.ftable f).off = min d.size.toNat (off + 5120) ∧
          At sb ip i d (applyOn (c.byte k.encrKey) off (min d.size.toNat (off + 5120)) bs') k' ∨
        more = false ∧ At sb ip i { d with major := c.flag } (applyOn (c.byte k.encrKey) off d.size.toNat bs') k'))
      (fun _ => True) k := by
  have ht : d.type ≠ T_DEV := by
    rw [h.type]
    decide
  refine wp.bind (h.ilock (.inr fun _ => trivial)) ?_
  rintro _ k₁ ⟨e₁, hv₁, hdev₁, hl₁⟩
  have hkey : k₁.encrKey = k.encrKey := by rw [e₁]
  have ho₁ : (k₁.ftable f).off = off := by
    rw [e₁]
    exact ho
  have hbytes₁ : contents k₁.fs.dev.cache d = bs' := by
    rw [hdev₁]
    exact h.bytes
  have hsize := hv₁.fileOk.size_le
  refine wp.bind ((cryptBatch_spec (P := False) hL ht c.byte 10 hv₁ ho₁ (by omega) False.elim).mono (fun _ _ hq => hq)
    fun _ _ => trivial) ?_
  rintro more k₂ ⟨hmore, h₂⟩
  rw [hkey, show max off (min d.size.toNat (off + 512 * 10)) = min d.size.toNat (off + 512 * 10) by omega] at h₂
  have hl₂ : (k₂.fs.icache ip).locked = true := by
    rw [h₂.icache]
    exact hl₁
  have hb₂ := h₂.bytes
  rw [hbytes₁] at hb₂
  split
  · next hm =>
    refine wp.bind (wp.mono (onFs_spec (h₂.view.iunlock hl₂)) (fun _ _ hq => hq) fun _ => False.elim) ?_
    rintro _ k₃ ⟨e₃, hs₃⟩
    refine ⟨?_, Or.inl ⟨rfl, ?_, ?_⟩⟩
    · rw [e₃, h₂.eq, e₁]
    · rw [e₃, h₂.off_eq]
    · rw [← hb₂]
      exact h₂.view.at h.type hs₃ ⟨rfl, rfl, rfl, rfl, rfl⟩
  · next hm =>
    have hend : min d.size.toNat (off + 5120) = d.size.toNat := by
      have : ¬ (10 = 0 ∨ off + 512 * (10 - 1) < d.size.toNat) := fun hc => hm (hmore.2 hc)
      omega
    rw [show off + 512 * 10 = off + 5120 from rfl, hend] at hb₂
    refine wp.bind (wp.mono (onFs_spec (h₂.view.setFields (P := False) (g := fun d => { d with major := c.flag }) hL rfl rfl rfl
      False.elim)) (fun _ _ hq => hq) fun _ _ => trivial) ?_
    rintro _ k₃ ⟨e₃, h₃, hb₃⟩
    have hl₃ : (k₃.fs.icache ip).locked = true := by
      rw [h₃.icache, update_self]
      exact hl₂
    refine wp.bind (wp.mono (onFs_spec (h₃.view.iunlockput hl₃ fun hz => absurd hz hlink))
      (fun _ _ hq => hq) fun _ => False.elim) ?_
    rintro _ k₄ ⟨e₄, hs₄⟩
    refine ⟨?_, Or.inr ⟨rfl, ?_⟩⟩
    · rw [e₄, e₃, h₂.eq, e₁]
    · rw [← hb₂, ← hb₃]
      exact h₃.view.at h.type hs₄ ⟨rfl, rfl, rfl, rfl, rfl⟩

/-! ### The invariant -/

def Whole (bs : List Byte) (keys : List (BitVec 32)) (major : BitVec 16) (bs' : List Byte) : Prop :=
  major = 0 ∧ bs' = bs ∨ major = 1 ∧ ∃ key, keys.head? = some key ∧ bs' = bs.map (encrByte key)

def Begun (bs : List Byte) (keys : List (BitVec 32)) (key : BitVec 32) (major : BitVec 16) : CryptCall → List Byte → Prop
  | .encr, base => major = 0 ∧ base = bs ∧ bs.map (encrByte key) ≠ bs
  | .decr, base => major = 1 ∧ base = bs.map (encrByte key) ∧ keys.head? = some key ∧ ∀ b ∈ bs, Recoverable key b

/-- The call `c` has transformed the file up to the offset of its descriptor. -/
structure Busy (bs : List Byte) (d : Dinode) (bs' : List Byte) (k : Kernel) (keys : List (BitVec 32)) (c : CryptCall) (f : Nat)
    (base : List Byte) : Prop where
  le : (k.ftable f).off ≤ d.size.toNat
  aligned : (k.ftable f).off % 512 = 0 ∨ (k.ftable f).off = d.size.toNat
  bytes : bs' = applyOn (c.byte k.encrKey) 0 (k.ftable f).off base
  begun : Begun bs keys k.encrKey d.major c base

inductive Doing (ip : Nat) (bs : List Byte) (d : Dinode) (bs' : List Byte) (s : CryptSys) : Prop
  | idle (hout : ∀ q, s.pc q = .out) (h : Whole bs s.keys d.major bs')
  | busy (p f : Nat) (c : CryptCall) (base : List Byte) (hout : ∀ q, q ≠ p → s.pc q = .out)
      (hpc : s.pc p = .begin c f ip ∨ s.pc p = .lock c f ip ∨ s.pc p = .unlocked c f ip) (h : Busy bs d bs' s.k s.keys c f base)
  | done (p : Nat) (hout : ∀ q, q ≠ p → s.pc q = .out) (hpc : s.pc p = .done) (h : Whole bs s.keys d.major bs')

structure Race (sb : Superblock) (ip i : Nat) (bs : List Byte) (s : CryptSys) : Prop where
  file : ∃ d bs', At sb ip i d bs' s.k ∧ (d.nlink ≠ 0 ∧ d.size.toNat = bs.length) ∧ Doing ip bs d bs' s
  keys : ∀ key ∈ s.keys, bs.map (encrByte key) ≠ bs

theorem Begun.finish {keys : List (BitVec 32)} {key : BitVec 32} {major : BitVec 16} {c : CryptCall} {base : List Byte}
    (h : Begun bs keys key major c base) :
    Whole bs (if c = .encr then key :: keys else keys) c.flag (base.map (c.byte key)) := by
  cases c with
  | encr =>
    obtain ⟨-, rfl, -⟩ := h
    exact Or.inr ⟨rfl, key, rfl, rfl⟩
  | decr =>
    obtain ⟨-, rfl, -, hrec⟩ := h
    refine Or.inl ⟨rfl, ?_⟩
    rw [List.map_map]
    refine (List.map_congr_left fun b hb => ?_).trans (List.map_id' bs)
    exact (decrByte_encrByte_iff key b).2 (hrec b hb)

theorem Begun.step {keys : List (BitVec 32)} {key : BitVec 32} {major : BitVec 16} {c : CryptCall} {base : List Byte}
    (h : Begun bs keys key major c base) : Begun bs (if c = .encr then key :: keys else keys) key major c base := by
  cases c <;> exact h

theorem Busy.congr {keys : List (BitVec 32)} {c : CryptCall} {base : List Byte} (h : Busy bs d bs' k keys c f base)
    (hk : k' = { k with fs := k'.fs, ptable := k'.ptable, cur := k'.cur, kmem := k'.kmem }) : Busy bs d bs' k' keys c f base := by
  rw [hk]
  exact ⟨h.le, h.aligned, h.bytes, h.begun⟩

theorem Doing.user (h : Doing ip bs d bs' s) (u : User) : Doing ip bs d bs' { s with k := s.k.user u } := by
  cases h with
  | idle hout hw => exact .idle hout hw
  | busy p f c base hout hp hbusy => exact .busy p f c base hout hp (hbusy.congr rfl)
  | done p hout hp hw => exact .done p hout hp hw

theorem Doing.whole (h : Doing ip bs d bs' s) (hout : ∀ q, s.pc q = .out) : Whole bs s.keys d.major bs' := by
  cases h with
  | idle _ hw => exact hw
  | busy p _ _ _ _ hp => simp [hout] at hp
  | done p _ hp => simp [hout] at hp

@[simp] theorem wp_onKernel {α : Type} {x : KM α} {Q : α → CryptSys → Prop} {E : Fault → Prop} :
    wp (onKernel x) Q E s ↔ wp x (fun a k => Q a { s with k }) E s.k := wp_zoom

theorem Race.begin (hL : Layout sb) (h : Race sb ip i bs s) {u : User} {c : CryptCall} (hout : ∀ q, s.pc q = .out)
    (hip : (s.k.ftable f).ip = some ip) (hoff : (s.k.ftable f).off = 0) (hmaj : s.k.major f ≠ c.flag)
    (hc : c.Fits bs s.keys s.k.encrKey) :
    Race sb ip i bs { s with k := s.k.user u, pc := update s.pc u.proc (.begin c f ip) } := by
  obtain ⟨d, bs', hat, hlen, hdo⟩ := h.file
  have hw := hdo.whole hout
  have hm : d.major ≠ c.flag := by
    rw [Kernel.major, hip] at hmaj
    simp only [hat.fields] at hmaj
    exact hmaj
  refine ⟨⟨d, bs', hat.user hL u, hlen, .busy u.proc f c bs' (fun q hq => ?_) (Or.inl ?_) ⟨?_, Or.inl ?_, ?_, ?_⟩⟩, h.keys⟩
  · exact (update_of_ne hq ..).trans (hout q)
  · exact update_self ..
  · show (s.k.ftable f).off ≤ _
    rw [hoff]
    exact Nat.zero_le _
  · show (s.k.ftable f).off % 512 = 0
    rw [hoff]
  · show bs' = applyOn _ 0 (s.k.ftable f).off bs'
    rw [hoff, applyOn_self (Nat.le_refl 0)]
  · cases c with
    | encr =>
      rcases hw with ⟨h0, rfl⟩ | ⟨h1, -⟩
      · exact ⟨h0, rfl, hc⟩
      · exact absurd h1 hm
    | decr =>
      rcases hw with ⟨h0, -⟩ | ⟨h1, key, hk, rfl⟩
      · exact absurd h0 hm
      · obtain rfl : s.k.encrKey = key := Option.some.inj (hc.1.symm.trans hk)
        exact ⟨h1, rfl, hc⟩

theorem sysSetkey_spec : wp sysSetkey (fun _ k' => k' = { k with encrKey := k'.encrKey }) (fun _ => True) k := by
  rw [sysSetkey]
  refine wp_bind.2 (wp_get.2 ?_)
  cases k.proc.argint 0 with
  | none => rfl
  | some key => rfl

theorem Race.segment (h : Race sb ip i bs s) {p : Nat} {c : CryptCall} {base : List Byte} {more : Bool}
    (hlen : d.nlink ≠ 0 ∧ d.size.toNat = bs.length)
    (hout : ∀ q, q ≠ p → s.pc q = .out) (hbusy : Busy bs d bs' s.k s.keys c f base)
    (e : k' = { s.k with cur := p, fs := k'.fs, ftable := k'.ftable })
    (hk : more = true ∧ (k'.ftable f).off = min d.size.toNat ((s.k.ftable f).off + 5120) ∧
        At sb ip i d (applyOn (c.byte s.k.encrKey) (s.k.ftable f).off (min d.size.toNat ((s.k.ftable f).off + 5120)) bs') k' ∨
      more = false ∧ At sb ip i { d with major := c.flag } (applyOn (c.byte s.k.encrKey)
        (s.k.ftable f).off d.size.toNat bs') k') :
    Race sb ip i bs { s with
      k := k'
      pc := update s.pc p (if more then .unlocked c f ip else .done)
      keys := if c = .encr then k'.encrKey :: s.keys else s.keys } := by
  have hkey : k'.encrKey = s.k.encrKey := by rw [e]
  have hle := hbusy.le
  have hbeg := hbusy.begun
  have hpcs : ∀ {c' : CryptPc} (q : Nat), q ≠ p → update s.pc p c' q = .out :=
    fun q hq => (update_of_ne hq ..).trans (hout q hq)
  have hkeys : ∀ key ∈ (if c = .encr then k'.encrKey :: s.keys else s.keys), bs.map (encrByte key) ≠ bs := by
    intro key hm
    cases c with
    | encr =>
      rcases List.mem_cons.1 hm with rfl | hm
      · rw [hkey]
        exact hbeg.2.2
      · exact h.keys key hm
    | decr => exact h.keys key hm
  rw [hbusy.bytes] at hk
  rcases hk with ⟨rfl, ho', hk⟩ | ⟨rfl, hk⟩
  · rw [applyOn_trans (Nat.zero_le _) (by omega)] at hk
    have hal := hbusy.aligned
    refine ⟨⟨d, _, hk, hlen, .busy p f c base hpcs (Or.inr (Or.inr (update_self ..))) ⟨?_, ?_, ?_, ?_⟩⟩, hkeys⟩
    · rw [ho']
      omega
    · rw [ho']
      omega
    · rw [hkey, ho']
    · rw [hkey]
      exact hbeg.step
  · have hbase : base.length = d.size.toNat := by
      cases c with
      | encr => rw [hbeg.2.1, hlen.2]
      | decr => rw [hbeg.2.1, List.length_map, hlen.2]
    rw [applyOn_trans (Nat.zero_le _) hle, ← hbase, applyOn_all] at hk
    refine ⟨⟨_, _, hk, hlen, .done p hpcs (update_self ..) ?_⟩, hkeys⟩
    rw [hkey]
    exact hbeg.finish

theorem Race.run (hL : Layout sb) (h : Race sb ip i bs s) (p : Nat) : wp (CryptAct.exec sb (.run p))
    (fun _ => Race sb ip i bs) (fun _ => True) s := by
  obtain ⟨d, bs', hat, hlen, hdo⟩ := h.file
  have hat' : At sb ip i d bs' { s.k with cur := p } := hat.dev hL hat.ok.fs.head (fun _ _ => rfl) rfl
  refine wp_bind.2 (wp_get.2 (wp_bind.2 ((wp_set _).2 ?_)))
  cases hdo with
  | idle hout hw =>
    rw [hout p]
    trivial
  | done p' hout hp hw =>
    rcases eq_or_ne p p' with rfl | hne
    · rw [hp]
      refine wp_bind.2 (wp_onKernel.2 ((hat'.endOp hL).post ?_))
      rintro _ k' ⟨-, hk'⟩
      refine ⟨⟨d, bs', hk', hlen, .idle (fun q => ?_) hw⟩, h.keys⟩
      rcases eq_or_ne q p with rfl | hq
      · exact update_self ..
      · exact (update_of_ne hq ..).trans (hout q hq)
    · rw [hout p hne]
      trivial
  | busy p' f c base hout hp hbusy =>
    rcases eq_or_ne p p' with rfl | hne
    · have hpcs : ∀ {c' : CryptPc} (q : Nat), q ≠ p → update s.pc p c' q = .out :=
        fun q hq => (update_of_ne hq ..).trans (hout q hq)
      rcases hp with hp | hp | hp <;> rw [hp]
      · refine wp_bind.2 (wp_onKernel.2 ((hat'.beginOp hL).post ?_))
        rintro _ k' ⟨e, hk'⟩
        refine ⟨⟨d, bs', hk', hlen, .busy p f c base hpcs (Or.inr (Or.inl (update_self ..))) (hbusy.congr ?_)⟩, h.keys⟩
        rw [e]
      · refine wp_bind.2 (wp_onKernel.2 ((hat'.segment hlen.1 hL c rfl hbusy.le).post ?_))
        rintro more k' ⟨e, hk'⟩
        exact h.segment hlen hout hbusy e hk'
      · refine wp_bind.2 (wp_onKernel.2 ((hat'.endOp hL).post ?_))
        rintro _ k' ⟨e, hk'⟩
        refine ⟨⟨d, bs', hk', hlen, .busy p f c base hpcs (Or.inl (update_self ..)) (hbusy.congr ?_)⟩, h.keys⟩
        rw [e]
    · rw [hout p hne]
      trivial

theorem Race.exec (hL : Layout sb) (h : Race sb ip i bs s) {a : CryptAct} (hf : a.OnFile ip s) (hi : a.Isolated bs s) :
    wp (a.exec sb) (fun _ => Race sb ip i bs) (fun _ => True) s := by
  cases a with
  | call u c =>
    refine wp_bind.2 (wp_get.2 (wp_bind.2 (wp_failIf.2 ⟨fun _ => trivial, fun _ => wp_bind.2 ((wp_set _).2 ?_)⟩)))
    refine wp_bind.2 (wp_onKernel.2 ((cryptCheck_spec sb c.byte).post ?_))
    rintro r k' ⟨rfl, hr⟩
    rcases r with _ | ⟨f, ip'⟩
    · obtain ⟨d, bs', hat, hlen, hdo⟩ := h.file
      exact ⟨⟨d, bs', hat.user hL u, hlen, hdo.user u⟩, h.keys⟩
    · obtain ⟨⟨fd, ha⟩, hip', hkey, hmaj, -⟩ := hr
      obtain ⟨-, hip, hoff, -⟩ := hf fd f ha
      obtain rfl : ip = ip' := Option.some.inj (hip.symm.trans hip')
      have hmaj : s.k.major f ≠ c.flag := by
        rw [Kernel.major, hip'] at hmaj
        rw [Kernel.major, hip]
        exact hmaj
      obtain ⟨hout, hfits⟩ := hi fd f ha hkey hmaj
      exact h.begin hL hout hip hoff hmaj hfits
  | setkey u =>
    refine wp_bind.2 (wp_get.2 (wp_bind.2 (wp_failIf.2 ⟨fun _ => trivial, fun _ => wp_bind.2 ((wp_set _).2 ?_)⟩)))
    refine wp_bind.2 (wp_onKernel.2 (sysSetkey_spec.post ?_))
    rintro r k' e
    obtain ⟨d, bs', hat, hlen, hdo⟩ := h.file
    have hu := hat.user hL u
    refine ⟨⟨d, bs', hu.dev hL hu.ok.fs.head (fun _ _ => rfl) ?_, hlen, .idle hi (hdo.whole hi)⟩, h.keys⟩
    rw [e]
  | run p => exact h.run hL p

theorem CryptRun.race (hL : Layout sb) (h : CryptRun sb ip i bs (fun s a => a.OnFile ip s ∧
    a.Isolated bs s) s) : Race sb ip i bs s := by
  induction h with
  | start h ht hm hl hb =>
    refine ⟨⟨_, _, ⟨h.view.ok, h.view.lt, h.view.valid, h.view.inum, h.view.d, h.unlocked, h.view.table, hb, ht⟩, ⟨hl, ?_⟩,
      .idle (fun _ => rfl) (Or.inl ⟨hm, rfl⟩)⟩, fun _ hk => absurd hk List.not_mem_nil⟩
    rw [← hb, length_contents]
  | step _ hP hs ih => exact wp.of_ok (ih.exec hL hP.1 hP.2) hs

/-- As long as calls on the file do not overlap, no key is set during a call, encryptions change the file and decryptions
have the key of the last encryption and bytes that they can recover, the flag of the file says after every call
whether its bytes are encrypted once under a single key or as they were. -/
theorem crypt_isolated (hL : Layout sb) (h : CryptRun sb ip i bs (fun s a => a.OnFile ip s ∧ a.Isolated bs s) s)
    (hout : ∀ p, s.pc p = .out) : Truthful bs s.keys (fileOf sb i s.k) := by
  obtain ⟨⟨d, bs', hat, -, hdo⟩, hkeys⟩ := h.race hL
  have hd : dinodeOf sb s.k.fs.dev.cache i = d := (diskTable_some hat.table).2.2.2
  have hfile : fileOf sb i s.k = (bs', d.size, d.major) := by rw [fileOf, hd, hat.bytes]
  rw [Truthful, hfile]
  rcases hdo.whole hout with ⟨h0, rfl⟩ | ⟨h1, key, hk, rfl⟩
  · refine ⟨iff_of_false ?_ ?_, iff_of_true h0 rfl⟩
    · rw [h0]
      exact (by decide : ¬ (0 : BitVec 16) = 1)
    · rintro ⟨key, hm, he⟩
      exact hkeys key hm he.symm
  · have hm := List.mem_of_mem_head? hk
    refine ⟨iff_of_true h1 ⟨key, hm, rfl⟩, iff_of_false ?_ (hkeys key hm)⟩
    rw [h1]
    exact (by decide : ¬ (1 : BitVec 16) = 0)

theorem CryptAct.exec_other (a : CryptAct) : wp (a.exec sb) (fun _ s' => ∀ q, q ≠ a.proc →
    s'.pc q = s.pc q) (fun _ => True) s := by
  cases a with
  | call u c =>
    refine wp_bind.2 (wp_get.2 (wp_bind.2 (wp_failIf.2 ⟨fun _ => trivial, fun _ => wp_bind.2 ((wp_set _).2 ?_)⟩)))
    refine wp_bind.2 (wp_onKernel.2 (wp_run.mono ?_ fun _ _ => trivial))
    rintro (_ | ⟨f, ip⟩) k' -
    · exact fun _ _ => rfl
    · exact fun q hq => update_of_ne hq ..
  | setkey u =>
    refine wp_bind.2 (wp_get.2 (wp_bind.2 (wp_failIf.2 ⟨fun _ => trivial, fun _ => wp_bind.2 ((wp_set _).2 ?_)⟩)))
    exact wp_bind.2 (wp_onKernel.2 (wp_run.mono (fun _ _ _ _ _ => rfl) fun _ _ => trivial))
  | run p =>
    refine wp_bind.2 (wp_get.2 (wp_bind.2 ((wp_set _).2 ?_)))
    cases hp : s.pc p with
    | out => trivial
    | _ => exact wp_bind.2 (wp_onKernel.2 (wp_run.mono (fun _ _ _ q hq => update_of_ne hq ..) fun _ _ => trivial))

end

/-! ### Two processes -/

def openByTwo (key : BitVec 32) (bs : List Byte) : Kernel :=
  { fileKernel key bs with
    ptable := fun p => ⟨.RUNNABLE, p, none, false, fun fd => if p < 2 ∧ fd = 0 then some p else none,
      none, PGSIZE, 0, fun _ => 0⟩ }

def callBy (p : Nat) (c : CryptCall) : CryptAct := .call { trapWith 0 with proc := p } c

def raceStart : CryptSys := ⟨openByTwo 3 [0x61], fun _ => .out, []⟩

theorem cryptRun_raceStart {P : CryptSys → CryptAct → Prop} : CryptRun mkfsSuperblock 0 1 [0x61] P raceStart := by
  have h := (fresh_fileKernel 3 [0x61] (by decide)).resting
  exact .start (d := fileDinode 1 1) ⟨h.view, h.unlocked, h.log, h.logOk⟩ rfl rfl (by simp [fileDinode]) (by decide +kernel)

def stepped (s : CryptSys) (a : CryptAct) : CryptSys := (a.exec mkfsSuperblock).final s

structure TwoRun (P : CryptSys → CryptAct → Prop) (s : CryptSys) : Prop where
  run : CryptRun mkfsSuperblock 0 1 [0x61] P s
  others : ∀ q, 2 ≤ q → s.pc q = .out

theorem TwoRun.next {P : CryptSys → CryptAct → Prop} {s : CryptSys} (h : TwoRun P s) (a : CryptAct) (ha : a.proc < 2) (hP : P s a)
    (hr : (a.exec mkfsSuperblock).result s = some ()) : TwoRun P (stepped s a) := by
  have hrun := run_eq_final hr
  refine ⟨h.run.step hP hrun, fun q hq => ?_⟩
  rw [← h.others q hq]
  exact wp.of_ok a.exec_other hrun q (by omega)

theorem TwoRun.out {P : CryptSys → CryptAct → Prop} {s : CryptSys} (h : TwoRun P s) (h0 : s.pc 0 = .out)
    (h1 : s.pc 1 = .out) (q : Nat) :
    s.pc q = .out := by
  match q with
  | 0 => exact h0
  | 1 => exact h1
  | q + 2 => exact h.others (q + 2) (by omega)

theorem onFile_callBy {s : CryptSys} {p : Nat} (c : CryptCall)
    (ha : (s.k.user { trapWith 0 with proc := p }).proc.argfd 0 = some (0, p))
    (hf : (s.k.ftable p).type = .FD_INODE ∧ (s.k.ftable p).ip = some 0 ∧ (s.k.ftable p).off = 0)
      (hu : ∀ q, ¬ (s.pc q).Uses p) : (callBy p c).OnFile 0 s := by
  rintro fd f h
  obtain ⟨rfl, rfl⟩ : 0 = fd ∧ p = f := by simpa using ha.symm.trans h
  exact ⟨hf.1, hf.2.1, hf.2.2, hu⟩

theorem onFile_first (c : CryptCall) : (callBy 0 c).OnFile 0 raceStart :=
  onFile_callBy c (by decide +kernel) ⟨rfl, rfl, rfl⟩ fun _ => id

/-- Process 0 makes one call of `sys_encr`. -/
def oneCall : CryptSys := stepped (stepped (stepped (stepped raceStart (callBy 0 .encr)) (.run 0)) (.run 0)) (.run 0)

theorem crypt_isolated_once : oneCall.pc 0 = .out ∧ fileOf mkfsSuperblock 1 oneCall.k = ([0x64], 1, 1) ∧
    Truthful [0x61] oneCall.keys (fileOf mkfsSuperblock 1 oneCall.k) := by
  have h₀ : TwoRun (fun s a => a.OnFile 0 s ∧ a.Isolated [0x61] s) raceStart := ⟨cryptRun_raceStart, fun _ _ => rfl⟩
  have hi : (callBy 0 .encr).Isolated [0x61] raceStart := fun _ _ _ _ _ =>
    ⟨fun _ => rfl, (by decide : [(0x61 : Byte)].map (encrByte 3) ≠ [0x61])⟩
  have h₁ := h₀.next (callBy 0 .encr) (by decide) ⟨onFile_first _, hi⟩ (by decide +kernel)
  have h₄ := ((h₁.next (.run 0) (by decide) ⟨trivial, trivial⟩ (by decide +kernel)).next (.run 0) (by decide) ⟨trivial, trivial⟩
    (by decide +kernel)).next (.run 0) (by decide) ⟨trivial, trivial⟩ (by decide +kernel)
  have hpc : oneCall.pc 0 = .out := by decide +kernel
  exact ⟨hpc, by decide +kernel, crypt_isolated mkfs_layout h₄.run (h₄.out hpc (by decide +kernel))⟩

def twoCalls : CryptSys :=
  stepped (stepped (stepped (stepped (stepped (stepped (stepped (stepped raceStart (callBy 0 .encr))
    (callBy 1 .encr)) (.run 0)) (.run 0)) (.run 0)) (.run 1)) (.run 1))
    (.run 1)

/-- The file is encrypted twice and says that it is encrypted. -/
theorem crypt_twice : CryptRun mkfsSuperblock 0 1 [0x61] (fun s a => a.OnFile 0 s) twoCalls ∧ (∀ p, twoCalls.pc p = .out) ∧
    fileOf mkfsSuperblock 1 twoCalls.k = ([0x67], 1, 1) ∧ twoCalls.keys = [3, 3] ∧
    ¬ Truthful [0x61] twoCalls.keys (fileOf mkfsSuperblock 1 twoCalls.k) := by
  have h₀ : TwoRun (fun s a => a.OnFile 0 s) raceStart := ⟨cryptRun_raceStart, fun _ _ => rfl⟩
  have h₁ := h₀.next (callBy 0 .encr) (by decide) (onFile_first _) (by decide +kernel)
  have hsecond : (callBy 1 .encr).OnFile 0 (stepped raceStart (callBy 0 .encr)) := by
    refine onFile_callBy _ (by decide +kernel) (by decide +kernel) fun q => ?_
    rcases eq_or_ne q 0 with rfl | hq
    · have hpc : (stepped raceStart (callBy 0 .encr)).pc 0 = .begin .encr 0 0 := by decide +kernel
      rw [hpc]
      exact (by decide : ¬ 0 = 1)
    · rw [show (stepped raceStart (callBy 0 .encr)).pc q = .out from
        wp.of_ok (callBy 0 .encr).exec_other (run_eq_final (a := ()) (by decide +kernel)) q hq]
      exact id
  have h₂ := h₁.next (callBy 1 .encr) (by decide) hsecond (by decide +kernel)
  have h₅ := ((h₂.next (.run 0) (by decide) trivial (by decide +kernel)).next (.run 0) (by decide) trivial
    (by decide +kernel)).next (.run 0) (by decide) trivial (by decide +kernel)
  have h₈ := ((h₅.next (.run 1) (by decide) trivial (by decide +kernel)).next (.run 1) (by decide) trivial
    (by decide +kernel)).next (.run 1) (by decide) trivial (by decide +kernel)
  have hfile : fileOf mkfsSuperblock 1 twoCalls.k = ([0x67], 1, 1) := by decide +kernel
  have hkeys : twoCalls.keys = [3, 3] := by decide +kernel
  refine ⟨h₈.run, h₈.out (by decide +kernel) (by decide +kernel), hfile, hkeys, fun ht => ?_⟩
  rw [hfile, hkeys] at ht
  obtain ⟨key, hm, he⟩ := ht.1.1 rfl
  obtain rfl : key = 3 := by simpa using hm
  exact absurd he (by decide)

end Xv6
