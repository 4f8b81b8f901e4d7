import Xv6.Kernel
import Xv6.Ring

/-!
# The pipe buffer over all interleavings (`pipe.c`)

`pipewrite` and `piperead` hold the pipe's spin-lock except while they sleep; `Pipe.write` and
`Pipe.read` are the stretches in between. `PipeSys` is a pipe with any number of processes in or out of
the two functions. At every moment what has been stored is what has been delivered followed by what is
in the ring.
-/

namespace Xv6

open Prog Function

/-! ### Stretches between sleeps -/

/-- How a stretch of `pipewrite` ends. -/
inductive WriteStop
  | done
  | failed
  | asleep
deriving DecidableEq, Repr

/-- How a stretch of `piperead` ends. -/
inductive ReadStop
  | done (bs : List Byte)
  | failed
  | asleep
deriving DecidableEq, Repr

namespace Pipe

/-- `p->nwrite == p->nread + PIPESIZE` -/
def Full (q : Pipe) : Prop := q.nwrite = q.nread + BitVec.ofNat 32 PIPESIZE

/-- `p->nread == p->nwrite` -/
def Empty (q : Pipe) : Prop := q.nread = q.nwrite

instance (q : Pipe) : Decidable q.Full := inferInstanceAs (Decidable (_ = _))

instance (q : Pipe) : Decidable q.Empty := inferInstanceAs (Decidable (_ = _))

/-- `pipewrite` from the head of its loop with the bytes `bs` to go; the bytes not stored are returned. -/
def write (killed : Bool) : List Byte → Pipe → Pipe × List Byte × WriteStop
  | [], q => (q, [], .done)
  | b :: bs, q =>
    if q.Full then (q, b :: bs, if q.readopen = false ∨ killed = true then .failed else .asleep)
    else write killed bs (q.put b)

/-- `piperead` from the head of its loop. -/
def read (killed : Bool) (n : Nat) (q : Pipe) : Pipe × ReadStop :=
  if q.Empty ∧ q.writeopen = true then (q, if killed = true then .failed else .asleep)
  else ((q.drain n).2, .done (q.drain n).1)

def queue (q : Pipe) : List Byte := Ring.queue PIPESIZE q.data q.nread q.nwrite

def Fits (q : Pipe) : Prop := (q.nwrite - q.nread).toNat ≤ PIPESIZE

variable {q : Pipe} {killed : Bool} {bs : List Byte} {n : Nat}

theorem full_iff : q.Full ↔ (q.nwrite - q.nread).toNat = PIPESIZE := Ring.full_iff (by decide)

theorem empty_iff : q.Empty ↔ q.queue = [] := Ring.queue_eq_nil.symm

theorem put_spec (hfit : q.Fits) (hfull : ¬ q.Full) (b : Byte) : (q.put b).Fits ∧ (q.put b).queue = q.queue ++ [b] := by
  have hlt : (q.nwrite - q.nread).toNat < PIPESIZE := lt_of_le_of_ne hfit fun he => hfull (full_iff.2 he)
  refine ⟨?_, Ring.queue_push (by decide) (by decide) hlt b⟩
  have hsucc : (q.nwrite + 1#32 - q.nread).toNat = _ := Ring.succ_sub_toNat (by simp only [PIPESIZE] at hlt; omega)
  rw [Fits]
  exact hsucc.le.trans hlt

theorem write_spec (killed : Bool) (bs : List Byte) (hfit : q.Fits) :
    (write killed bs q).1.Fits ∧ ∃ done, bs = done ++ (write killed bs q).2.1 ∧
      (write killed bs q).1.queue = q.queue ++ done := by
  induction bs generalizing q with
  | nil => exact ⟨hfit, [], rfl, (List.append_nil _).symm⟩
  | cons b bs ih =>
    rw [write]
    split
    · exact ⟨hfit, [], rfl, (List.append_nil _).symm⟩
    · next hfull =>
      obtain ⟨hfit', hq⟩ := put_spec hfit hfull b
      obtain ⟨hf, done, hbs, hqueue⟩ := ih hfit'
      refine ⟨hf, b :: done, congrArg (b :: ·) hbs, ?_⟩
      rw [hqueue, hq, List.append_assoc, List.singleton_append]

theorem drain_spec (n : Nat) (hfit : q.Fits) :
    (q.drain n).2.Fits ∧ q.queue = (q.drain n).1 ++ (q.drain n).2.queue ∧
      ((q.drain n).1.length = n ∨ (q.drain n).2.Empty) := by
  induction n generalizing q with
  | zero => exact ⟨hfit, rfl, Or.inl rfl⟩
  | succ n ih =>
    rw [drain]
    split
    · next he => exact ⟨hfit, rfl, Or.inr he⟩
    · next hne =>
      have hpop : q.queue = _ := Ring.queue_pop hne
      have hless : (q.nwrite - (q.nread + 1#32)).toNat + 1 = _ := Ring.sub_succ_toNat hne
      have hfit' : Fits { q with nread := q.nread + 1 } := (Nat.le_succ _).trans (hless.le.trans hfit)
      obtain ⟨hf, hqueue, hlen⟩ := ih hfit'
      refine ⟨hf, ?_, hlen.imp_left fun h => ?_⟩
      · rw [hpop, List.cons_append, ← hqueue]
        rfl
      · rw [List.length_cons, h]

end Pipe

/-! ### `pipewrite` of the kernel -/

def Kernel.buffer (k : Kernel) (addr n : Nat) : List Byte := (List.range n).map fun i => k.proc.mem (addr + i)

theorem Kernel.buffer_succ (k : Kernel) (addr n : Nat) :
    k.buffer addr (n + 1) = k.proc.mem addr :: k.buffer (addr + 1) n := by
  simp [Kernel.buffer, List.range_succ_eq_map, Function.comp_def, Nat.add_assoc, Nat.add_comm 1]

/-- Up to the place where it sleeps, `pipewrite` does what `Pipe.write` says. -/
theorem pipewrite_stretch (k : Kernel) (p addr n : Nat) :
    wp (pipewrite p addr n)
      (fun r k' => match (k.pipes p).write k.proc.killed (k.buffer addr n) with
        | (q, _, stop) => k' = { k with pipes := update k.pipes p q } ∧ (stop = .done ∧ r = n ∨ stop = .failed ∧ r = -1))
      (fun e => e = .sleeps ∧ ((k.pipes p).write k.proc.killed (k.buffer addr n)).2.2 = .asleep) k := by
  rw [pipewrite]
  rcases hw : (k.pipes p).write k.proc.killed (k.buffer addr n) with ⟨q, rest, stop⟩
  dsimp only
  -- before iteration `i` the rest of the stretch starts at byte `i` of the buffer
  refine (wp_findRange (fun i k' => ∃ q₁, k' = { k with pipes := update k.pipes p q₁ } ∧
      q₁.write k.proc.killed (k.buffer (addr + i) (n - i)) = (q, rest, stop))
    (fun r k' => k' = { k with pipes := update k.pipes p q } ∧ stop = .failed ∧ r = -1)
    ⟨k.pipes p, by rw [update_eq_self], hw⟩ ?_).bind fun r k' hr => ?_
  · rintro i _ - hi ⟨q₁, rfl, hq₁⟩
    have hn : n - i = n - (i + 1) + 1 := by omega
    rw [hn, Kernel.buffer_succ, Pipe.write] at hq₁
    simp only [wp_bind, wp_get, update_self]
    split
    · next hfull =>
      have hF : q₁.Full := hfull
      rw [if_pos hF] at hq₁
      obtain ⟨rfl, hq₂⟩ := Prod.mk.inj hq₁
      obtain ⟨-, hstop⟩ := Prod.mk.inj hq₂
      refine wp_bind.2 (wp_failIf.2 ⟨fun hs => ⟨rfl, ?_⟩, fun hs => ⟨rfl, ?_, rfl⟩⟩)
      · rw [update_self] at hs
        rw [← hstop, if_neg fun hor => hor.elim (fun h => by simp [hs.1] at h) fun h => by
          rw [show k.proc.killed = false from hs.2] at h
          cases h]
      · rw [update_self] at hs
        rw [← hstop, if_pos]
        by_contra hno
        rw [not_or, Bool.not_eq_false, Bool.not_eq_true] at hno
        exact hs hno
    · next hfull =>
      have hF : ¬ q₁.Full := hfull
      rw [if_neg hF] at hq₁
      refine ⟨q₁.put (k.proc.mem (addr + i)), ?_, hq₁⟩
      simp only [update_self, update_idem]
      rfl
  · cases r with
    | some a =>
      obtain ⟨rfl, hstop, rfl⟩ := hr
      exact ⟨rfl, Or.inr ⟨hstop, rfl⟩⟩
    | none =>
      obtain ⟨q₁, rfl, hq₁⟩ := hr
      rw [Nat.zero_add, Nat.sub_self] at hq₁
      obtain ⟨rfl, hq₂⟩ := Prod.mk.inj hq₁
      obtain ⟨-, hstop⟩ := Prod.mk.inj hq₂
      exact ⟨rfl, Or.inl ⟨hstop.symm, rfl⟩⟩

/-! ### Any number of processes -/

/-- Where a process is. `awake` is false from `sleep` to the next `wakeup`. -/
inductive PipeProc
  | out
  | writing (n : Nat) (rest : List Byte) (awake : Bool)
  | reading (n : Nat) (awake : Bool)

/-- `wakeup(&p->nread)` -/
def PipeProc.wakeReader : PipeProc → PipeProc
  | reading n _ => reading n true
  | t => t

/-- `wakeup(&p->nwrite)` -/
def PipeProc.wakeWriter : PipeProc → PipeProc
  | writing n rest _ => writing n rest true
  | t => t

structure PipeSys where
  pipe : Pipe
  procs : Nat → PipeProc
  killed : Nat → Bool
  stored : List Byte
  delivered : List Byte

inductive PipeRet
  | wrote (r : Int)
  | got (n : Nat) (r : Int)
deriving DecidableEq, Repr

namespace PipeSys

/-- The pipe that `pipealloc` makes of a page, with nobody in it. -/
def fresh (data : Nat → Byte) (killed : Nat → Bool) : PipeSys where
  pipe := ⟨data, 0, 0, true, true, 0⟩
  procs _ := .out
  killed := killed
  stored := []
  delivered := []

/-- Process `i` runs in `pipewrite`, called with `n` bytes of which `bs` are left. -/
def runWrite (s : PipeSys) (i n : Nat) (bs : List Byte) : PipeSys × Option PipeRet :=
  let (q, rest, stop) := s.pipe.write (s.killed i) bs
  let s := { s with pipe := q, stored := s.stored ++ bs.take (bs.length - rest.length) }
  match stop with
  | .done => ({ s with procs := update (fun j => (s.procs j).wakeReader) i .out }, some (.wrote n))
  | .failed => ({ s with procs := update s.procs i .out }, some (.wrote (-1)))
  | .asleep => ({ s with procs := update (fun j => (s.procs j).wakeReader) i (.writing n rest false) }, none)

/-- Process `i` runs in `piperead`, called for `n` bytes. -/
def runRead (s : PipeSys) (i n : Nat) : PipeSys × Option PipeRet :=
  let (q, stop) := s.pipe.read (s.killed i) n
  let s := { s with pipe := q }
  match stop with
  | .done bs => ({ s with
      delivered := s.delivered ++ bs
      procs := update (fun j => (s.procs j).wakeWriter) i .out }, some (.got n bs.length))
  | .failed => ({ s with procs := update s.procs i .out }, some (.got n (-1)))
  | .asleep => ({ s with procs := update s.procs i (.reading n false) }, none)

def kill (s : PipeSys) (i : Nat) : PipeSys :=
  { s with
    killed := update s.killed i true
    procs := update s.procs i (s.procs i).wakeReader.wakeWriter }

/-- `pipeclose` -/
def close (s : PipeSys) (writable : Bool) : PipeSys :=
  { s with
    pipe := s.pipe.close writable
    procs := fun j => if writable = true then (s.procs j).wakeReader else (s.procs j).wakeWriter }

end PipeSys

inductive PipeStep : PipeSys → Option PipeRet → PipeSys → Prop
  | write {s : PipeSys} {i : Nat} (bs : List Byte) (h : s.procs i = .out) :
      PipeStep s (s.runWrite i bs.length bs).2 (s.runWrite i bs.length bs).1
  | read {s : PipeSys} {i : Nat} (n : Nat) (h : s.procs i = .out) : PipeStep s (s.runRead i n).2 (s.runRead i n).1
  | resumeWrite {s : PipeSys} {i n : Nat} {rest : List Byte} (h : s.procs i = .writing n rest true) :
      PipeStep s (s.runWrite i n rest).2 (s.runWrite i n rest).1
  | resumeRead {s : PipeSys} {i n : Nat} (h : s.procs i = .reading n true) : PipeStep s (s.runRead i n).2 (s.runRead i n).1
  | kill (s : PipeSys) (i : Nat) : PipeStep s none (s.kill i)
  | close (s : PipeSys) (writable : Bool) : PipeStep s none (s.close writable)

inductive PipeReach : PipeSys → Prop
  | fresh (data : Nat → Byte) (killed : Nat → Bool) : PipeReach (.fresh data killed)
  | step {s s' : PipeSys} {r : Option PipeRet} (h : PipeReach s) (hs : PipeStep s r s') : PipeReach s'

structure PipeSys.Ok (s : PipeSys) : Prop where
  fits : s.pipe.Fits
  fifo : s.stored = s.delivered ++ s.pipe.queue

section

variable {s s' : PipeSys} {r : Option PipeRet} {i n : Nat} {bs : List Byte}

theorem PipeSys.Ok.runWrite (h : s.Ok) (i n : Nat) (bs : List Byte) : (s.runWrite i n bs).1.Ok := by
  obtain ⟨hfit, done, hbs, hqueue⟩ := Pipe.write_spec (s.killed i) bs h.fits
  rw [PipeSys.runWrite]
  rcases hw : s.pipe.write (s.killed i) bs with ⟨q, rest, stop⟩
  rw [hw] at hfit hbs hqueue
  dsimp only at hfit hbs hqueue ⊢
  have hdone : bs.take (bs.length - rest.length) = done := by
    rw [hbs]
    simp
  have hfifo : s.stored ++ bs.take (bs.length - rest.length) = s.delivered ++ q.queue := by
    rw [hdone, hqueue, h.fifo, List.append_assoc]
  cases stop <;> exact ⟨hfit, hfifo⟩

theorem PipeSys.Ok.runRead (h : s.Ok) (i n : Nat) : (s.runRead i n).1.Ok := by
  rw [PipeSys.runRead, Pipe.read]
  by_cases hc : s.pipe.Empty ∧ s.pipe.writeopen = true
  · rw [if_pos hc]
    cases s.killed i <;> exact ⟨h.fits, h.fifo⟩
  · rw [if_neg hc]
    obtain ⟨hfit, hqueue, -⟩ := Pipe.drain_spec n h.fits
    refine ⟨hfit, ?_⟩
    dsimp only
    rw [h.fifo, List.append_assoc, ← hqueue]

theorem Pipe.close_ring (q : Pipe) (writable : Bool) :
    (q.close writable).data = q.data ∧ (q.close writable).nread = q.nread ∧ (q.close writable).nwrite = q.nwrite := by
  rw [Pipe.close, Pipe.shut]
  cases writable <;> simp <;> split <;> simp

theorem PipeSys.Ok.close (h : s.Ok) (writable : Bool) : (s.close writable).Ok := by
  obtain ⟨hd, hr, hw⟩ := s.pipe.close_ring writable
  refine ⟨?_, ?_⟩
  · have hfit := h.fits
    simp only [Pipe.Fits, PipeSys.close, hr, hw] at hfit ⊢
    exact hfit
  · have hfifo := h.fifo
    simp only [Pipe.queue, PipeSys.close, hd, hr, hw] at hfifo ⊢
    exact hfifo

theorem PipeStep.ok (h : s.Ok) (hs : PipeStep s r s') : s'.Ok := by
  cases hs with
  | write bs _ => exact h.runWrite _ _ bs
  | read n _ => exact h.runRead _ n
  | resumeWrite _ => exact h.runWrite ..
  | resumeRead _ => exact h.runRead ..
  | kill i => exact ⟨h.fits, h.fifo⟩
  | close writable => exact h.close writable

theorem PipeReach.ok (h : PipeReach s) : s.Ok := by
  induction h with
  | fresh data killed => exact ⟨by simp [PipeSys.fresh, Pipe.Fits], Ring.queue_self.symm⟩
  | step _ hs ih => exact hs.ok ih

theorem PipeSys.runWrite_ne_got (s : PipeSys) (i n m : Nat) (bs : List Byte) (r : Int) :
    (s.runWrite i n bs).2 ≠ some (.got m r) := by
  rw [PipeSys.runWrite]
  rcases s.pipe.write (s.killed i) bs with ⟨q, rest, stop⟩
  cases stop <;> simp

theorem PipeSys.runRead_zero (h : s.Ok) (hn : 0 < n) {m : Nat} (hr : (s.runRead i m).2 = some (.got n 0)) :
    s.pipe.Empty ∧ s.pipe.writeopen = false := by
  rw [PipeSys.runRead, Pipe.read] at hr
  by_cases hc : s.pipe.Empty ∧ s.pipe.writeopen = true
  · -- a killed reader gets -1
    rw [if_pos hc] at hr
    cases hk : s.killed i <;> simp [hk] at hr
  · rw [if_neg hc] at hr
    obtain ⟨-, hqueue, hlen⟩ := Pipe.drain_spec m h.fits
    simp only [Option.some.injEq, PipeRet.got.injEq] at hr
    obtain ⟨rfl, hz⟩ := hr
    have hnil : (s.pipe.drain m).1 = [] := List.length_eq_zero_iff.1 (by exact_mod_cast hz)
    have hend : (s.pipe.drain m).2.Empty := hlen.resolve_left fun hl => by
      rw [hnil] at hl
      exact absurd hl.symm hn.ne'
    rw [hnil, Pipe.empty_iff.1 hend, List.append_nil] at hqueue
    have hE : s.pipe.Empty := Pipe.empty_iff.2 hqueue
    exact ⟨hE, Bool.eq_false_of_not_eq_true fun hw => hc ⟨hE, hw⟩⟩

theorem PipeStep.got_zero (h : s.Ok) (hn : 0 < n) (hs : PipeStep s (some (.got n 0)) s') :
    s.pipe.Empty ∧ s.pipe.writeopen = false := by
  generalize hr : some (PipeRet.got n 0) = r at hs
  cases hs with
  | read m _ => exact PipeSys.runRead_zero h hn hr.symm
  | resumeRead _ => exact PipeSys.runRead_zero h hn hr.symm
  | write bs _ => exact (PipeSys.runWrite_ne_got _ _ _ _ _ _ hr.symm).elim
  | resumeWrite _ => exact (PipeSys.runWrite_ne_got _ _ _ _ _ _ hr.symm).elim
  | kill _ => cases hr
  | close _ => cases hr

/-- Over every interleaving of reads, writes, closes and kills the pipe is a FIFO: the counters are at most
`PIPESIZE` apart modulo 2³², the bytes delivered so far, in order, are a first part of the bytes stored, and
the rest is in the ring; a read of at least one byte returns 0 only if the ring is empty and the write end closed. -/
theorem pipe_fifo (h : PipeReach s) :
    (s.pipe.nwrite - s.pipe.nread).toNat ≤ PIPESIZE ∧ s.stored = s.delivered ++ s.pipe.queue ∧
      ∀ n s', 0 < n → PipeStep s (some (.got n 0)) s' → s.pipe.nread = s.pipe.nwrite ∧ s.pipe.writeopen = false :=
  ⟨h.ok.fits, h.ok.fifo, fun _ _ hn hs => hs.got_zero h.ok hn⟩

end

def oneRead : PipeSys := (((PipeSys.fresh (fun _ => 0) fun _ => false).runWrite 0 2 [65, 66]).1.runRead 1 1).1

theorem pipe_fifo_oneRead : PipeReach oneRead ∧ oneRead.stored = [65, 66] ∧ oneRead.delivered = [65] ∧
    oneRead.stored = oneRead.delivered ++ oneRead.pipe.queue :=
  have h : PipeReach oneRead := .step (.step (.fresh _ _) (.write (i := 0) [65, 66] rfl)) (.read (i := 1) 1 rfl)
  ⟨h, by decide +kernel, by decide +kernel, (pipe_fifo h).2.1⟩

end Xv6
