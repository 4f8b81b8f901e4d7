import Mathlib.Data.Fintype.Card
import Xv6.Ide

/-!
# The disk driver is an atomic block store

`Mem` is the state that `memide.c` works on, and `spec` what the requests of a run do to it if each one is carried out by
`memide.c` at its interrupt. In every run of the driver the buffers are those of `spec`, and so are the disks, but for a write
that the disk has executed and not acknowledged.
-/

namespace Xv6.Ide

open Prog Function

/-! ### The specification -/

/-- The buffers and the disks; disk 1 is `memdisk`. -/
structure Mem where
  buf : BufId → Buf
  disk : Nat → Image

/-- The transfer at the end of `iderw` of `memide.c`, on the disk of the buffer. -/
def Mem.transfer (m : Mem) (b : BufId) : Mem :=
  let x := m.buf b
  let d := x.dev % 2
  if x.dirty = true then
    { buf := update m.buf b { x with dirty := false, valid := true }
      disk := update m.disk d (update (m.disk d) x.blockno x.data) }
  else { m with buf := update m.buf b { x with data := m.disk d x.blockno, valid := true } }

theorem Mem.transfer_disk (m : Mem) (b : BufId) : (m.transfer b).disk = if (m.buf b).dirty = true
    then update m.disk ((m.buf b).dev % 2) (update (m.disk ((m.buf b).dev % 2)) (m.buf b).blockno (m.buf b).data)
    else m.disk := by
  unfold Mem.transfer
  dsimp only
  split <;> rfl

/-- `iderw` of `memide.c`, which has disk 1 only. -/
def memIderw (disksize p : Nat) (b : BufId) : Prog Mem Fault Unit := do
  let x := (← get).buf b
  failIf (x.lock ≠ some p) (.panic "iderw: buf not locked")
  failIf (x.valid = true ∧ x.dirty = false) (.panic "iderw: nothing to do")
  failIf (x.dev ≠ 1) (.panic "iderw: request not for disk 1")
  failIf (disksize ≤ x.blockno) (.panic "iderw: block out of range")
  if x.dirty = true then
    modify fun m => { m with buf := update m.buf b { m.buf b with dirty := false } }
    modify fun m => { m with disk := update m.disk 1 (update (m.disk 1) x.blockno (m.buf b).data) }
  else modify fun m => { m with buf := update m.buf b { m.buf b with data := m.disk 1 x.blockno } }
  modify fun m => { m with buf := update m.buf b { m.buf b with valid := true } }

theorem memIderw_eq {disksize p : Nat} {b : BufId} {m : Mem} (hlock : (m.buf b).lock = some p)
    (hneed : ¬ ((m.buf b).valid = true ∧ (m.buf b).dirty = false)) (hdev : (m.buf b).dev = 1)
      (hno : (m.buf b).blockno < disksize) :
    (memIderw disksize p b).run m = .ok ((), m.transfer b) := by
  have hwp : wp (memIderw disksize p b) (fun _ m' => m' = m.transfer b) (fun _ => False) m := by
    unfold memIderw Mem.transfer
    refine wp_bind.2 (wp_get.2 ?_)
    simp only [wp_bind, wp_failIf, hlock, hdev, ne_eq, not_true_eq_false, false_implies, true_and,
      not_false_eq_true, forall_const, hneed]
    refine ⟨fun h => absurd h (Nat.not_le.2 hno), fun _ => ?_⟩
    cases hd : (m.buf b).dirty <;> simp [hd, hdev, hlock]
  obtain ⟨_, m', hr, rfl⟩ := hwp.exists_ok
  exact hr

def Mem.step (m : Mem) : Ev → Mem
  | .intr (some b) => m.transfer b
  | .touch b x => { m with buf := update m.buf b x }
  | _ => m

/-- The buffers and the disks after the events of `h`, newest first. -/
def spec (m : Mem) (h : List Ev) : Mem := h.foldr (fun e m => m.step e) m

def called : List Ev → List BufId
  | [] => []
  | .call _ b :: h => called h ++ [b]
  | _ :: h => called h

def served : List Ev → List BufId
  | [] => []
  | .intr (some b) :: h => served h ++ [b]
  | _ :: h => served h

/-- The event is a request for `b`, its interrupt, or a change of `b`. -/
def Ev.On (b : BufId) : Ev → Prop
  | .call _ c => c = b
  | .intr c => c = some b
  | .touch c _ => c = b
  | _ => False

/-! ### What the functions do -/

namespace Buf

variable {x : Buf}

theorem ports_command : x.ports.command = if x.dirty = true then IDE_CMD_WRITE else IDE_CMD_READ := rfl

theorem ports_device (h : x.blockno < FSSIZE) : x.ports.device = BitVec.ofNat 8 (0xe0 ||| (x.dev % 2) <<< 4) := by
  have hhigh : (x.blockno * (BSIZE / SECTOR_SIZE)) >>> 24 = 0 := by
    rw [Nat.shiftRight_eq_div_pow]
    have hlt : x.blockno * 1 < 20000 := (Nat.mul_one _).symm ▸ h
    exact Nat.div_eq_of_lt (hlt.trans (by decide))
  simp only [ports, hhigh, Nat.and_one_is_mod, Nat.zero_and, Nat.or_zero]

theorem ports_drive (h : x.blockno < FSSIZE) : x.ports.drive = x.dev % 2 := by
  rw [Ports.drive, ports_device h]
  rcases Nat.mod_two_eq_zero_or_one x.dev with hd | hd <;> rw [hd] <;> decide

theorem ports_sector (h : x.blockno < FSSIZE) : x.ports.sector = x.blockno := by
  have hdev : x.ports.device.toNat % 16 = 0 := by
    rw [ports_device h]
    rcases Nat.mod_two_eq_zero_or_one x.dev with hd | hd <;> rw [hd] <;> decide
  have hmask : ∀ n, n &&& 0xff = n % 2 ^ 8 := fun n => Nat.and_two_pow_sub_one_eq_mod n 8
  have hone : BSIZE / SECTOR_SIZE = 1 := rfl
  have hno : x.blockno < 20000 := h
  unfold Ports.sector
  simp only [ports, hone, Nat.mul_one, hmask, BitVec.toNat_ofNat, Nat.shiftRight_eq_div_pow,
    Nat.shiftLeft_eq, Nat.mod_mod] at hdev ⊢
  omega

end Buf

/-- The controller when `idestart(b)` returns. -/
def Controller.start (c : Controller) (x : Buf) : Controller :=
  let c := if c.busy then c.execute else c
  { c with ports := x.ports, fifo := if x.dirty then x.data else c.fifo, busy := true }

theorem idestart_spec (s : State) (b : BufId) :
    wp (idestart b) (fun _ s' => (s.buf b).blockno < FSSIZE ∧ s' = { s with ctl := s.ctl.start (s.buf b) })
      (fun _ => FSSIZE ≤ (s.buf b).blockno) s := by
  unfold idestart idewait
  refine wp_bind.2 (wp_get.2 ?_)
  simp only [wp_bind, wp_failIf, wp_modify]
  refine ⟨id, fun h => ⟨fun h7 => absurd h7 (by decide), fun _ => ⟨Nat.not_le.1 h, rfl⟩⟩⟩

theorem iderwTest_spec (s : State) (p : Nat) (b : BufId) :
    wp (iderwTest p b) (fun r s' => if (s.buf b).valid = true ∧ (s.buf b).dirty = false
        then r = true ∧ s' = { s with proc := update s.proc p .out }
        else r = false ∧ s' = { s with proc := update s.proc p (.asleep b) }) (fun _ => False) s := by
  unfold iderwTest
  refine wp_bind.2 (wp_get.2 ((wp_ite _ _).2 ⟨fun h => ?_, fun h => ?_⟩))
  · simp only [if_pos h]
    exact ⟨rfl, rfl⟩
  · simp only [if_neg h]
    exact ⟨rfl, rfl⟩

theorem iderw_spec (s : State) (p : Nat) (b : BufId) :
    wp (iderw p b) (fun _ s' => (s.buf b).lock = some p ∧ ¬ ((s.buf b).valid = true ∧ (s.buf b).dirty = false) ∧
        ∃ q, s.queue.push (NBUF + 1) b = some q ∧ (q.head = some b → (s.buf b).blockno < FSSIZE) ∧
          s' = { s with queue := q, ctl := if q.head = some b then s.ctl.start (s.buf b) else s.ctl,
                        proc := update s.proc p (.asleep b) }) (fun _ => True) s := by
  unfold iderw
  refine wp_bind.2 (wp_get.2 ?_)
  simp only [wp_bind, wp_failIf, implies_true, true_and]
  intro hlock hneed hdev
  rw [not_not] at hlock
  cases hq : s.queue.push (NBUF + 1) b with
  | none => trivial
  | some q =>
    dsimp only
    refine wp_bind.2 ((wp_set _).2 ((wp_ite _ _).2 ⟨fun hh => ?_, fun hh => ?_⟩))
    · refine wp_bind.2 ((idestart_spec _ b).mono (fun _ => ?_) fun _ _ => trivial)
      rintro s' ⟨hno, rfl⟩
      refine (iderwTest_spec _ p b).mono (fun r s' hs => ?_) fun _ => False.elim
      rw [if_neg hneed] at hs
      exact ⟨hlock, hneed, q, rfl, fun _ => hno, by rw [hs.2, if_pos hh]⟩
    · refine (iderwTest_spec _ p b).mono (fun r s' hs => ?_) fun _ => False.elim
      rw [if_neg hneed] at hs
      exact ⟨hlock, hneed, q, rfl, fun h => absurd h hh, by rw [hs.2, if_neg hh]⟩

def Buf.done (x : Buf) (fifo : Blk) : Buf :=
    { x with data := if x.dirty = true then x.data else fifo, valid := true, dirty := false }

/-- The request for `b` leaves the queue. -/
def State.complete (s : State) (b : BufId) : State :=
  { s with
    buf := update s.buf b ((s.buf b).done s.ctl.fifo)
    queue := s.queue.pop b
    proc := fun p => if s.proc p = .asleep b then .awake b else s.proc p }

theorem ideintr_spec {s : State} {b : BufId} (hb : s.queue.head = some b) (hready : s.ctl.busy = false) :
    wp ideintr (fun _ s' => match s.queue.next b with
        | none => s' = s.complete b
        | some c => ((s.complete b).buf c).blockno < FSSIZE ∧
            s' = { s.complete b with ctl := s.ctl.start ((s.complete b).buf c) })
      (fun _ => ∃ c, s.queue.next b = some c ∧ FSSIZE ≤ ((s.complete b).buf c).blockno) s := by
  have hrest : wp (do wakeup b; startNext) (fun _ s' => match s.queue.next b with
        | none => s' = s.complete b
        | some c => ((s.complete b).buf c).blockno < FSSIZE ∧
            s' = { s.complete b with ctl := s.ctl.start ((s.complete b).buf c) })
      (fun _ => ∃ c, s.queue.next b = some c ∧ FSSIZE ≤ ((s.complete b).buf c).blockno)
      { s.complete b with proc := s.proc } := by
    unfold startNext
    refine wp_bind.2 ((wp_modify _).2 (wp_bind.2 (wp_get.2 ?_)))
    have hhead : (s.complete b).queue.head = s.queue.next b := rfl
    cases hn : s.queue.next b with
    | none =>
      rw [hn] at hhead
      dsimp only
      rw [hhead]
      rfl
    | some c =>
      rw [hn] at hhead
      dsimp only
      rw [hhead]
      exact (idestart_spec _ c).mono (fun _ _ h => h) fun _ h => ⟨c, rfl, h⟩
  have hstate : ∀ x : Buf, x = (s.buf b).done s.ctl.fifo →
      ({ s with queue := s.queue.pop b, buf := update s.buf b x } : State) = { s.complete b with proc := s.proc } := by
    rintro x rfl
    rfl
  unfold ideintr
  refine wp_bind.2 (wp_get.2 ?_)
  rw [hb]
  dsimp only
  refine wp_bind.2 ((wp_set _).2 ((wp_ite _ _).2 ⟨fun hd => ?_, fun hd => ?_⟩))
  · unfold idewait
    refine wp_bind.2 ((wp_modify _).2 (wp_bind.2 ((wp_modify _).2 (wp_bind.2 ((wp_modify _).2 ?_)))))
    dsimp only
    rw [hready, if_neg Bool.false_ne_true, update_idem, update_self, hstate _ (by simp [Buf.done, hd])]
    exact hrest
  · refine wp_bind.2 ((wp_modify _).2 ?_)
    dsimp only
    rw [hstate _ (by simp [Buf.done, hd])]
    exact hrest

/-! ### The controller -/

def Drive (m : Mem) (c : Controller) : List BufId → Prop
  | [] => c.busy = false ∧ c.irq = 0 ∧ c.disk = m.disk
  | b :: _ => c.ports = (m.buf b).ports ∧ (m.buf b).blockno < FSSIZE ∧
    (c.busy = true ∧ c.irq = 0 ∧ c.disk = m.disk ∧ ((m.buf b).dirty = true → c.fifo = (m.buf b).data) ∨
      c.busy = false ∧ c.irq = 1 ∧ c.disk = (m.transfer b).disk ∧
        ((m.buf b).dirty = false → c.fifo = m.disk ((m.buf b).dev % 2) (m.buf b).blockno))

namespace Drive

variable {m m' : Mem} {c : Controller} {b : BufId} {l l' : List BufId} {n : Nat}

theorem append (h : Drive m c (b :: l)) : Drive m c (b :: l') := h

theorem congr (h : Drive m c l) (hd : m'.disk = m.disk) (hb : ∀ b ∈ l, m'.buf b = m.buf b) : Drive m' c l := by
  cases l with
  | nil => exact ⟨h.1, h.2.1, h.2.2.trans hd.symm⟩
  | cons b l =>
    have hx := hb b (List.mem_cons_self ..)
    have ht : (m'.transfer b).disk = (m.transfer b).disk := by rw [Mem.transfer_disk, Mem.transfer_disk, hx, hd]
    simp only [Drive] at h ⊢
    rwa [hx, hd, ht]

theorem execute (h : Drive m c l) (hbusy : c.busy = true) : Drive m c.execute l := by
  cases l with
  | nil => simp [h.1] at hbusy
  | cons b l =>
    obtain ⟨hports, hno, ⟨-, hirq, hdisk, hfifo⟩ | ⟨hidle, -⟩⟩ := h
    · have hcmd := congrArg Ports.command hports
      rw [Buf.ports_command] at hcmd
      have hdrive : c.ports.drive = (m.buf b).dev % 2 := by rw [hports, Buf.ports_drive hno]
      have hsector : c.ports.sector = (m.buf b).blockno := by rw [hports, Buf.ports_sector hno]
      have ht := m.transfer_disk b
      unfold Controller.execute
      dsimp only
      cases hd : (m.buf b).dirty with
      | true =>
        rw [hd, if_pos rfl] at hcmd ht
        rw [if_pos hcmd]
        refine ⟨hports, hno, .inr ⟨rfl, by simp [hirq], ?_, fun hf => ?_⟩⟩
        · rw [ht, hdrive, hsector, hdisk, hfifo hd]
        · simp [hd] at hf
      | false =>
        rw [hd, if_neg Bool.false_ne_true] at hcmd ht
        have hr : ¬ c.ports.command = IDE_CMD_WRITE := by
          rw [hcmd]
          decide
        rw [if_neg hr, if_pos hcmd]
        refine ⟨hports, hno, .inr ⟨rfl, by simp [hirq], hdisk.trans ht.symm, fun _ => ?_⟩⟩
        rw [hdrive, hsector, hdisk]
    · simp [hidle] at hbusy

theorem start (h : Drive m c []) (hno : (m.buf b).blockno < FSSIZE) : Drive m (c.start (m.buf b)) (b :: l) := by
  obtain ⟨hbusy, hirq, hdisk⟩ := h
  unfold Controller.start
  rw [hbusy]
  refine ⟨rfl, hno, .inl ⟨rfl, hirq, hdisk, fun hd => ?_⟩⟩
  simp only [hd, if_true]

theorem acknowledge (h : Drive m c l) (hirq : c.irq = n + 1) : ∃ b rest, l = b :: rest ∧ c.busy = false ∧
    update m.buf b ((m.buf b).done c.fifo) = (m.transfer b).buf ∧ Drive (m.transfer b) { c with irq := n } [] := by
  cases l with
  | nil => simp [h.2.1] at hirq
  | cons b rest =>
    obtain ⟨-, -, ⟨-, h0, -⟩ | ⟨hbusy, h1, hdisk, hfifo⟩⟩ := h
    · simp [h0] at hirq
    · refine ⟨b, rest, rfl, hbusy, ?_, hbusy, by simp; omega, hdisk⟩
      unfold Mem.transfer Buf.done
      cases hd : (m.buf b).dirty with
      | true => simp [hd]
      | false => simp [hd, hfifo hd]

end Drive

/-! ### Histories of a request -/

/-- Process `p` has called `iderw(b)`, and nothing has happened to `b` since. -/
def Pending (p : Nat) (b : BufId) (h : List Ev) : Prop := ∃ h₁ h₂, h = h₂ ++ .call p b :: h₁ ∧ ∀ e ∈ h₂, ¬ e.On b

/-- Process `p` has called `iderw(b)`, and nothing has happened to `b` since but one interrupt. -/
def Served (p : Nat) (b : BufId) (h : List Ev) : Prop :=
  ∃ h₁ h₂ h₃, h = h₃ ++ .intr (some b) :: (h₂ ++ .call p b :: h₁) ∧ (∀ e ∈ h₂, ¬ e.On b) ∧ ∀ e ∈ h₃, ¬ e.On b

section Histories

variable {p : Nat} {b c : BufId} {h : List Ev} {e : Ev}

theorem Pending.cons (hp : Pending p b h) (he : ¬ e.On b) : Pending p b (e :: h) := by
  obtain ⟨h₁, h₂, rfl, hn⟩ := hp
  exact ⟨h₁, e :: h₂, rfl, List.forall_mem_cons.2 ⟨he, hn⟩⟩

theorem Served.cons (hs : Served p b h) (he : ¬ e.On b) : Served p b (e :: h) := by
  obtain ⟨h₁, h₂, h₃, rfl, hn₂, hn₃⟩ := hs
  exact ⟨h₁, h₂, e :: h₃, rfl, hn₂, List.forall_mem_cons.2 ⟨he, hn₃⟩⟩

theorem Pending.call : Pending p b (.call p b :: h) := ⟨h, [], rfl, fun _ he => absurd he List.not_mem_nil⟩

theorem Pending.served (hp : Pending p b h) : Served p b (.intr (some b) :: h) := by
  obtain ⟨h₁, h₂, rfl, hn⟩ := hp
  exact ⟨h₁, h₂, [], rfl, hn, fun _ he => absurd he List.not_mem_nil⟩

theorem Mem.transfer_buf_of_ne {m : Mem} (hne : c ≠ b) : (m.transfer b).buf c = m.buf c := by
  unfold Mem.transfer
  dsimp only
  split <;> exact update_of_ne hne ..

theorem Mem.step_buf {m : Mem} (he : ¬ e.On b) : (m.step e).buf b = m.buf b := by
  unfold Mem.step
  split
  · exact Mem.transfer_buf_of_ne fun hb => he (congrArg some hb.symm)
  · exact update_of_ne (fun hb => he hb.symm) ..
  · rfl

theorem spec_buf {m : Mem} {h₁ : List Ev} (hn : ∀ e ∈ h₁, ¬ e.On b) : (spec m (h₁ ++ h)).buf b = (spec m h).buf b := by
  induction h₁ with
  | nil => rfl
  | cons e h₁ ih =>
    rw [List.forall_mem_cons] at hn
    exact (Mem.step_buf hn.1).trans (ih hn.2)

end Histories

/-! ### The invariant -/

/-- Process `p` is in `iderw(b)`: its request is in the queue, or it is done and the process is not asleep. -/
def Waiting (h : List Ev) (s : State) (l : List BufId) (p : Nat) (b : BufId) : Prop :=
  (s.buf b).lock = some p ∧
    (b ∈ l ∧ ¬ ((s.buf b).valid = true ∧ (s.buf b).dirty = false) ∧ Pending p b h ∨
      b ∉ l ∧ s.proc p = .awake b ∧ ((s.buf b).valid = true ∧ (s.buf b).dirty = false) ∧ Served p b h)

structure Inv (m : Mem) (h : List Ev) (s : State) (l : List BufId) : Prop where
  queue : s.queue.Holds l
  fifo : called h = served h ++ l
  drive : Drive (spec m h) s.ctl l
  buf : s.buf = (spec m h).buf
  waiting : ∀ p b, s.Waits p b → Waiting h s l p b
  waiter : ∀ b ∈ l, ∃ p, s.Waits p b

namespace Inv

variable {m : Mem} {h : List Ev} {s s' : State} {l : List BufId} {p q : Nat} {b c : BufId} {e : Ev}

theorem boot (x : BufId → Buf) (d : Nat → Image) (k : Bool) : Inv ⟨x, d⟩ [] (boot x d k) [] where
  queue := ⟨rfl, List.nodup_nil⟩
  fifo := rfl
  drive := ⟨rfl, rfl, rfl⟩
  buf := rfl
  waiting p b hw := by
    rcases hw with hw | hw
    · cases hw
    · cases hw
  waiter b hb := absurd hb List.not_mem_nil

theorem not_mem (hi : Inv m h s l) (hlock : (s.buf b).lock = some p) (hp : s.proc p = .out) : b ∉ l := by
  intro hb
  obtain ⟨q, hq⟩ := hi.waiter b hb
  have hlock' := (hi.waiting q b hq).1
  rw [hlock, Option.some.injEq] at hlock'
  subst hlock'
  rcases hq with hq | hq
  · rw [hp] at hq
    cases hq
  · rw [hp] at hq
    cases hq

theorem length_lt (hi : Inv m h s l) : l.length < NBUF + 1 := by
  have hle := List.Nodup.length_le_card hi.queue.nodup
  rw [Fintype.card_fin] at hle
  exact Nat.lt_succ_of_le hle

theorem goto (hi : Inv m h s l) {pc : Pc} (hcall : called (e :: h) = called h) (hserve : served (e :: h) = served h)
    (hspec : ∀ m : Mem, m.step e = m) (hon : ∀ b, ¬ e.On b)
    (hw : ∀ b, pc = .asleep b ∨ pc = .awake b → s.Waits p b) (hasleep : ∀ b, pc = .asleep b → b ∈ l)
    (hb : ∀ b ∈ l, s.Waits p b → pc = .asleep b ∨ pc = .awake b) :
    Inv m (e :: h) { s with proc := update s.proc p pc } l := by
  have hs : spec m (e :: h) = spec m h := hspec _
  refine ⟨hi.queue, by rw [hcall, hserve, hi.fifo], by rw [hs]; exact hi.drive, by
    rw [hs]; exact hi.buf, fun q b hq => ?_, fun b hm => ?_⟩
  · rcases eq_or_ne q p with rfl | hne
    · simp only [State.Waits, update_self] at hq
      obtain ⟨hlock, ⟨hm, hf, hpend⟩ | ⟨hm, -, hf, hserved⟩⟩ := hi.waiting q b (hw b hq)
      · exact ⟨hlock, .inl ⟨hm, hf, hpend.cons (hon b)⟩⟩
      · refine ⟨hlock, .inr ⟨hm, ?_, hf, hserved.cons (hon b)⟩⟩
        simp only [update_self]
        exact hq.resolve_left fun ha => hm (hasleep b ha)
    · simp only [State.Waits, update_of_ne hne] at hq
      simp only [Waiting, update_of_ne hne]
      obtain ⟨hlock, ⟨hm, hf, hpend⟩ | ⟨hm, ha, hf, hserved⟩⟩ := hi.waiting q b hq
      · exact ⟨hlock, .inl ⟨hm, hf, hpend.cons (hon b)⟩⟩
      · exact ⟨hlock, .inr ⟨hm, ha, hf, hserved.cons (hon b)⟩⟩
  · obtain ⟨q, hq⟩ := hi.waiter b hm
    rcases eq_or_ne q p with rfl | hne
    · refine ⟨q, ?_⟩
      simp only [State.Waits, update_self]
      exact hb b hm hq
    · exact ⟨q, by simpa only [State.Waits, update_of_ne hne] using hq⟩

theorem call (hi : Inv m h s l) (hp : s.proc p = .out) (hlock : (s.buf b).lock = some p)
    (hneed : ¬ ((s.buf b).valid = true ∧ (s.buf b).dirty = false)) {q : LinkedQueue BufId}
      (hq : s.queue.push (NBUF + 1) b = some q)
    (hno : q.head = some b → (s.buf b).blockno < FSSIZE) :
    Inv m (.call p b :: h) { s with
      queue := q
      ctl := if q.head = some b then s.ctl.start (s.buf b) else s.ctl
      proc := update s.proc p (.asleep b) } (l ++ [b]) := by
  have hb := hi.not_mem hlock hp
  obtain ⟨q', hq', hholds⟩ := hi.queue.push hb hi.length_lt
  obtain rfl : q = q' := Option.some.inj (hq.symm.trans hq')
  refine ⟨hholds, ?_, ?_, hi.buf, fun p' b' hw => ?_, fun c hc => ?_⟩
  · change called h ++ [b] = served h ++ (l ++ [b])
    rw [hi.fifo, List.append_assoc]
  · change Drive (spec m h) _ _
    cases l with
    | nil =>
      have hhead : q.head = some b := hholds.head_eq
      rw [if_pos hhead, hi.buf]
      refine Drive.start hi.drive ?_
      rw [← hi.buf]
      exact hno hhead
    | cons a l =>
      have hhead : q.head = some a := hholds.head_eq
      have hne : ¬ q.head = some b := by
        rw [hhead, Option.some.injEq]
        rintro rfl
        exact hb (List.mem_cons_self ..)
      rw [if_neg hne]
      exact hi.drive.append
  · rcases eq_or_ne p' p with rfl | hne
    · simp only [State.Waits, update_self] at hw
      obtain rfl : b = b' := by
        rcases hw with hw | hw
        · exact Pc.asleep.inj hw
        · cases hw
      exact ⟨hlock, .inl ⟨List.mem_append_right l (List.mem_singleton_self b), hneed, .call⟩⟩
    · simp only [State.Waits, update_of_ne hne] at hw
      obtain ⟨hlock', hrest⟩ := hi.waiting p' b' hw
      have hbb : b ≠ b' := by
        rintro rfl
        rw [hlock, Option.some.injEq] at hlock'
        exact hne hlock'.symm
      have hmem : b' ∈ l ++ [b] ↔ b' ∈ l := by simp [hbb.symm]
      simp only [Waiting, hmem, update_of_ne hne]
      rcases hrest with ⟨hm, hf, hpend⟩ | ⟨hm, ha, hf, hserved⟩
      · exact ⟨hlock', .inl ⟨hm, hf, hpend.cons hbb⟩⟩
      · exact ⟨hlock', .inr ⟨hm, ha, hf, hserved.cons hbb⟩⟩
  · rcases List.mem_append.1 hc with hc | hc
    · obtain ⟨p', hw⟩ := hi.waiter c hc
      have hne : p' ≠ p := by
        rintro rfl
        rw [State.Waits, hp] at hw
        simp at hw
      exact ⟨p', by simpa only [State.Waits, update_of_ne hne] using hw⟩
    · obtain rfl := List.mem_singleton.1 hc
      refine ⟨p, .inl ?_⟩
      exact update_self ..

theorem disk (hi : Inv m h s l) (hbusy : s.ctl.busy = true) : Inv m (.disk :: h) { s with ctl := s.ctl.execute } l where
  queue := hi.queue
  fifo := hi.fifo
  drive := hi.drive.execute hbusy
  buf := hi.buf
  waiting p b hw := by
    obtain ⟨hlock, ⟨hm, hf, hpend⟩ | ⟨hm, ha, hf, hserved⟩⟩ := hi.waiting p b hw
    · exact ⟨hlock, .inl ⟨hm, hf, hpend.cons id⟩⟩
    · exact ⟨hlock, .inr ⟨hm, ha, hf, hserved.cons id⟩⟩
  waiter := hi.waiter

theorem touch (hi : Inv m h s l) (x : Buf) (hb : ∀ p, ¬ s.Waits p b) :
    Inv m (.touch b x :: h) { s with buf := update s.buf b x } l := by
  have hne : ∀ {p c}, s.Waits p c → b ≠ c := by
    rintro p c hw rfl
    exact hb p hw
  have hmem : ∀ c ∈ l, c ≠ b := fun c hc => by
    obtain ⟨p, hw⟩ := hi.waiter c hc
    exact (hne hw).symm
  refine ⟨hi.queue, hi.fifo, ?_, ?_, fun p c hw => ?_, hi.waiter⟩
  · exact hi.drive.congr rfl fun c hc => update_of_ne (hmem c hc) ..
  · exact congrArg (update · b x) hi.buf
  · have hbc := hne hw
    simp only [Waiting, update_of_ne hbc.symm]
    obtain ⟨hlock, ⟨hm, hf, hpend⟩ | ⟨hm, ha, hf, hserved⟩⟩ := hi.waiting p c hw
    · exact ⟨hlock, .inl ⟨hm, hf, hpend.cons hbc⟩⟩
    · exact ⟨hlock, .inr ⟨hm, ha, hf, hserved.cons hbc⟩⟩

theorem complete (hi : Inv m h s (b :: l)) (hbuf : update s.buf b ((s.buf b).done s.ctl.fifo) = ((spec m h).transfer b).buf)
    {c : Controller} (hdrive : Drive ((spec m h).transfer b) c l) : Inv m (.intr (some b) :: h)
      { s.complete b with ctl := c } l := by
  have hnd := List.nodup_cons.1 hi.queue.nodup
  refine ⟨hi.queue.pop, ?_, hdrive, hbuf, fun p a hw => ?_, fun a ha => ?_⟩
  · change called h = served h ++ [b] ++ l
    rw [hi.fifo, List.append_assoc, List.singleton_append]
  · simp only [State.Waits, State.complete] at hw
    rcases eq_or_ne a b with rfl | hne
    · have hw' : s.Waits p a ∧ (State.complete s a).proc p = .awake a := by
        by_cases hs : s.proc p = .asleep a
        · exact ⟨.inl hs, if_pos hs⟩
        · rw [if_neg hs] at hw
          exact ⟨hw, (if_neg hs).trans (hw.resolve_left hs)⟩
      obtain ⟨hlock, ⟨-, -, hpend⟩ | ⟨hm, -⟩⟩ := hi.waiting p a hw'.1
      · refine ⟨?_, .inr ⟨hnd.1, hw'.2, ?_, hpend.served⟩⟩
        · simp only [State.complete, update_self, Buf.done, hlock]
        · simp only [State.complete, update_self, Buf.done, and_self]
      · exact absurd (List.mem_cons_self ..) hm
    · have hw' : s.Waits p a ∧ ∀ pc, s.proc p = pc → (State.complete s b).proc p = pc := by
        by_cases hs : s.proc p = .asleep b
        · rw [if_pos hs] at hw
          simp [hne.symm] at hw
        · rw [if_neg hs] at hw
          exact ⟨hw, fun pc hpc => (if_neg hs).trans hpc⟩
      have hon : ¬ Ev.On a (.intr (some b)) := fun he => hne (Option.some.inj he).symm
      have hmem : a ∈ b :: l ↔ a ∈ l := by simp [hne]
      obtain ⟨hlock, hrest⟩ := hi.waiting p a hw'.1
      rw [hmem] at hrest
      simp only [Waiting, State.complete, update_of_ne hne]
      rcases hrest with ⟨hm, hf, hpend⟩ | ⟨hm, ha, hf, hserved⟩
      · exact ⟨hlock, .inl ⟨hm, hf, hpend.cons hon⟩⟩
      · exact ⟨hlock, .inr ⟨hm, hw'.2 _ ha, hf, hserved.cons hon⟩⟩
  · obtain ⟨p, hw⟩ := hi.waiter a (List.mem_cons_of_mem b ha)
    have hne : a ≠ b := ne_of_mem_of_not_mem ha hnd.1
    refine ⟨p, ?_⟩
    have hs : ¬ s.proc p = .asleep b := by
      intro hs
      rw [State.Waits, hs] at hw
      simp [hne.symm] at hw
    simpa only [State.Waits, State.complete, if_neg hs] using hw

theorem intr (hi : Inv m h s l) {n : Nat} (hirq : s.ctl.irq = n + 1) : ∃ b rest, l = b :: rest ∧
    wp ideintr (fun _ s' => Inv m (.intr (some b) :: h) s' rest) (fun _ => ∃ c ∈ rest, FSSIZE ≤ (s.buf c).blockno)
      { s with ctl := { s.ctl with irq := n } } := by
  obtain ⟨b, rest, rfl, hbusy, hbuf, hidle⟩ := hi.drive.acknowledge hirq
  rw [← hi.buf] at hbuf
  have hnd := List.nodup_cons.1 hi.queue.nodup
  have hnext : s.queue.next b = rest.head? := hi.queue.pop.head_eq
  refine ⟨b, rest, rfl, ?_⟩
  refine (ideintr_spec (s := { s with ctl := { s.ctl with irq := n } }) hi.queue.head_eq hbusy).mono (fun _ s' hs => ?_) ?_
  · rw [hnext] at hs
    cases rest with
    | nil =>
      obtain rfl := hs
      exact hi.complete hbuf hidle
    | cons c rest =>
      obtain ⟨hno, rfl⟩ := hs
      have hc : (State.complete s b).buf c = ((spec m h).transfer b).buf c := congrFun hbuf c
      refine hi.complete hbuf ?_
      have hno' : (((spec m h).transfer b).buf c).blockno < FSSIZE := hc ▸ hno
      have hstart := Drive.start (l := rest) hidle hno'
      rw [← hc] at hstart
      exact hstart
  · rintro - ⟨c, hc, hle⟩
    rw [hnext] at hc
    have hm : c ∈ rest := List.mem_of_mem_head? hc
    refine ⟨c, hm, ?_⟩
    have hne : c ≠ b := ne_of_mem_of_not_mem hm hnd.1
    simpa only [State.complete, update_of_ne hne] using hle

theorem step (hi : Inv m h s l) (hs : Step s e s') : ∃ l', Inv m (e :: h) s' l' := by
  cases hs with
  | call hp hr =>
    obtain ⟨hlock, hneed, q, hq, hno, rfl⟩ := (iderw_spec s _ _).of_ok hr
    exact ⟨_, hi.call hp hlock hneed hq hno⟩
  | @test _ p b r hp hr =>
    have hspec := (iderwTest_spec s p b).of_ok hr
    obtain ⟨-, ⟨hm, hf, -⟩ | ⟨hm, -, hf, -⟩⟩ := hi.waiting p b (.inr hp)
    · rw [if_neg hf] at hspec
      obtain ⟨rfl, rfl⟩ := hspec
      refine ⟨l, hi.goto rfl rfl (fun _ => rfl) (fun _ => id) ?_ ?_ ?_⟩
      · rintro c (hc | hc)
        · cases hc
          exact .inr hp
        · cases hc
      · intro c hc
        cases hc
        exact hm
      · rintro c - (hc | hc)
        · rw [hp] at hc
          cases hc
        · rw [hp] at hc
          cases hc
          exact .inl rfl
    · rw [if_pos hf] at hspec
      obtain ⟨rfl, rfl⟩ := hspec
      refine ⟨l, hi.goto rfl rfl (fun _ => rfl) (fun _ => id) ?_ ?_ ?_⟩
      · rintro c (hc | hc) <;> cases hc
      · intro c hc
        cases hc
      · rintro c hmc (hc | hc)
        · rw [hp] at hc
          cases hc
        · rw [hp] at hc
          cases hc
          exact absurd hmc hm
  | disk hbusy => exact ⟨l, hi.disk hbusy⟩
  | intr hirq hr =>
    obtain ⟨b, rest, rfl, hwp⟩ := hi.intr hirq
    rw [hi.queue.head_eq]
    exact ⟨rest, hwp.of_ok hr⟩
  | @kill p b hp =>
    refine ⟨l, hi.goto rfl rfl (fun _ => rfl) (fun _ => id) ?_ ?_ ?_⟩
    · rintro c (hc | hc)
      · cases hc
      · cases hc
        exact .inl hp
    · intro c hc
      cases hc
    · rintro c - (hc | hc)
      · rw [hp] at hc
        cases hc
        exact .inr rfl
      · rw [hp] at hc
        cases hc
  | touch x hb => exact ⟨l, hi.touch x hb⟩

end Inv

theorem Inv.run {x : BufId → Buf} {d : Nat → Image} {k : Bool} {h : List Ev} {s : State} (hr : (ideLts x d k).Run h s) :
    ∃ l, Inv ⟨x, d⟩ h s l := by
  refine Lts.Run.invariant (S := ideLts x d k) (I := fun h s => ∃ l, Inv ⟨x, d⟩ h s l) (fun s hs =>
    ?_) (fun h s e s' hi hs => ?_) hr
  · obtain rfl : s = Ide.boot x d k := hs
    exact ⟨[], .boot x d k⟩
  · obtain ⟨l, hi⟩ := hi
    exact hi.step hs

/-! ### The driver implements `memide.c` -/

/-- `iderw(b)` returns in process `p` after the events `h`: between the call and the return there was one interrupt for `b` and
nothing else happened to `b`, so that the buffer is as `memide.c` leaves it when it is called at the interrupt. -/
def Returns (m : Mem) (p : Nat) (b : BufId) (h : List Ev) : Prop :=
  ∃ h₁ h₂ h₃, h = h₃ ++ .intr (some b) :: (h₂ ++ .call p b :: h₁) ∧ (∀ e ∈ h₂, ¬ e.On b) ∧ (∀ e ∈ h₃, ¬ e.On b) ∧
    (spec m h).buf b = ((spec m (h₂ ++ .call p b :: h₁)).transfer b).buf b ∧
    ((spec m h).buf b).valid = true ∧ ((spec m h).buf b).dirty = false

/-- The driver in the state `s`, after the events `h` and with the requests `l` in the queue. -/
structure Atomic (m : Mem) (h : List Ev) (s : State) (l : List BufId) : Prop where
  queue : s.queue.Holds l
  /-- Requests are served in order, none is lost and none is served twice. -/
  fifo : called h = served h ++ l
  idle : l = [] → s.ctl.busy = false ∧ s.ctl.irq = 0
  /-- The first request of the queue is the command in progress. -/
  active : ∀ b rest, l = b :: rest → s.ctl.ports = (s.buf b).ports ∧ s.ctl.ports.drive = (s.buf b).dev % 2 ∧
    s.ctl.ports.sector = (s.buf b).blockno ∧ (s.ctl.busy = true ∧ s.ctl.irq = 0 ∨ s.ctl.busy = false ∧ s.ctl.irq = 1)
  /-- It is acknowledged next, unless the driver is to start a request outside the file system then. -/
  next : ∀ b rest, l = b :: rest → s.ctl.irq = 1 → (∀ c ∈ rest, (s.buf c).blockno < FSSIZE) → ∃ s', Step s (.intr (some b)) s'
  buf : s.buf = (spec m h).buf
  disk : s.ctl.disk = if s.ctl.irq = 0 then (spec m h).disk else (l.head?.elim (spec m h) (spec m h).transfer).disk
  /-- The effect of the interrupt is that of `iderw` of `memide.c` in the process that waits for it. -/
  memide : ∀ b rest, l = b :: rest → ∃ p, s.Waits p b ∧ spec m (.intr (some b) :: h) = (spec m h).transfer b ∧
    ((s.buf b).dev = 1 → (memIderw FSSIZE p b).run (spec m h) = .ok ((), (spec m h).transfer b))
  /-- A call does not return at once, and whoever is in `iderw` has a request in the queue or is awake and finds it done. -/
  call : ∀ p b s', Step s (.call p b) s' → s'.proc p = .asleep b
  waits : ∀ p b, s.Waits p b → b ∈ l ∧ Pending p b h ∨ s.proc p = .awake b ∧ (s.buf b).valid = true ∧
    (s.buf b).dirty = false ∧ Served p b h
  returns : ∀ p b h₀, .test p b true :: h₀ <:+ h → Returns m p b h₀

theorem Served.returns {m : Mem} {h : List Ev} {p : Nat} {b : BufId} (hs : Served p b h) (hv : ((spec m h).buf b).valid = true)
    (hd : ((spec m h).buf b).dirty = false) : Returns m p b h := by
  obtain ⟨h₁, h₂, h₃, rfl, hn₂, hn₃⟩ := hs
  exact ⟨h₁, h₂, h₃, rfl, hn₂, hn₃, spec_buf hn₃, hv, hd⟩

/-- The driver is an atomic block store in every run. -/
theorem ide_atomic (x : BufId → Buf) (d : Nat → Image) (havedisk1 : Bool) {h : List Ev} {s : State}
    (hr : (ideLts x d havedisk1).Run h s) : ∃ l, Atomic ⟨x, d⟩ h s l := by
  obtain ⟨l, hi⟩ := Inv.run hr
  refine ⟨l, hi.queue, hi.fifo, ?_, ?_, ?_, hi.buf, ?_, ?_, ?_, ?_, ?_⟩
  · rintro rfl
    exact ⟨hi.drive.1, hi.drive.2.1⟩
  · rintro b rest rfl
    obtain ⟨hports, hno, hphase⟩ := hi.drive
    rw [hports, hi.buf, Buf.ports_drive hno, Buf.ports_sector hno]
    refine ⟨rfl, rfl, rfl, ?_⟩
    rcases hphase with ⟨hb, hirq, -⟩ | ⟨hb, hirq, -⟩
    · exact .inl ⟨hb, hirq⟩
    · exact .inr ⟨hb, hirq⟩
  · rintro b rest rfl hirq hno
    obtain ⟨b', rest', heq, hwp⟩ := hi.intr (n := 0) hirq
    obtain ⟨rfl, rfl⟩ := List.cons.inj heq
    have htotal : wp ideintr (fun _ _ => True) (fun _ => False) { s with ctl := { s.ctl with irq := 0 } } :=
      hwp.mono (fun _ _ _ => trivial) fun _ ⟨c, hc, hle⟩ => absurd (hno c hc) (Nat.not_lt.2 hle)
    obtain ⟨_, s', hok, -⟩ := htotal.exists_ok
    have hstep := Step.intr hirq hok
    rw [hi.queue.head_eq] at hstep
    exact ⟨s', hstep⟩
  · cases l with
    | nil => rw [if_pos hi.drive.2.1, hi.drive.2.2]
    | cons b rest =>
      obtain ⟨-, -, ⟨-, hirq, hdisk, -⟩ | ⟨-, hirq, hdisk, -⟩⟩ := hi.drive
      · rw [if_pos hirq, hdisk]
      · rw [if_neg (by omega), hdisk]
        rfl
  · rintro b rest rfl
    obtain ⟨p, hw⟩ := hi.waiter b (List.mem_cons_self ..)
    obtain ⟨hlock, ⟨-, hneed, -⟩ | ⟨hm, -⟩⟩ := hi.waiting p b hw
    · refine ⟨p, hw, rfl, fun hdev => ?_⟩
      have hno := hi.drive.2.1
      rw [hi.buf] at hlock hneed hdev
      exact memIderw_eq hlock hneed hdev hno
    · exact absurd (List.mem_cons_self ..) hm
  · intro p b s' hs
    cases hs with
    | call hp hok =>
      obtain ⟨-, -, q, -, -, rfl⟩ := (iderw_spec s p b).of_ok hok
      exact update_self ..
  · intro p b hw
    obtain ⟨-, ⟨hm, -, hpend⟩ | ⟨-, ha, hf, hserved⟩⟩ := hi.waiting p b hw
    · exact .inl ⟨hm, hpend⟩
    · exact .inr ⟨ha, hf.1, hf.2, hserved⟩
  · intro p b h₀ hsuf
    obtain ⟨s₁, s₂, hr₁, hs₁⟩ := hr.of_suffix hsuf
    obtain ⟨l₁, hi₁⟩ := Inv.run hr₁
    cases hs₁ with
    | test hp hok =>
      have hspec := (iderwTest_spec s₁ p b).of_ok hok
      obtain ⟨-, ⟨-, hf, -⟩ | ⟨-, -, hf, hserved⟩⟩ := hi₁.waiting p b (.inr hp)
      · rw [if_neg hf] at hspec
        cases hspec.1
      · rw [hi₁.buf] at hf
        exact hserved.returns hf.1 hf.2

/-- Process 0 reads block 5 of disk 1 into a buffer. -/
theorem ide_atomic_read : ∃ h, .test 0 0 true ∈ h ∧ ∃ s, (ideLts (fun _ => ⟨false, false, 1, 5, some 0, .zero BSIZE⟩)
    (fun _ _ => .zero BSIZE) true).Run h s ∧ ∃ l, Atomic ⟨fun _ =>
      ⟨false, false, 1, 5, some 0, .zero BSIZE⟩, fun _ _ => .zero BSIZE⟩ h s l := by
  have h0 : (ideLts (fun _ => ⟨false, false, 1, 5, some 0, .zero BSIZE⟩) (fun _ _ => .zero BSIZE) true).Run [] _ := .init rfl
  have h1 := h0.step (.call (p := 0) (b := 0) rfl rfl)
  have h2 := h1.step (.disk rfl)
  have h3 := h2.step (.intr (n := 0) rfl rfl)
  have h4 := h3.step (.test (p := 0) (b := 0) (r := true) rfl rfl)
  exact ⟨_, List.mem_cons_self .., _, h4, ide_atomic _ _ _ h4⟩

end Xv6.Ide
