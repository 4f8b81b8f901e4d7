import Xv6.PipeRun
import Xv6.RefRun

/-!
# Pipes through the system calls

What a pipe is for: a write of `n` bytes returns `n`, the reads return the bytes written, in order, and once
the write end is closed they drain what is left and then return 0. `PipeTrace.Works` says so of the calls
made on one pipe since `sys_pipe`. But `sys_read` and `sys_write` call `filestat` before anything else, and
`filestat` fails on whatever is not an inode, so that neither ever reaches `piperead` or `pipewrite`.
-/

namespace Xv6

open Prog

inductive PipeEvent
  /-- `sys_write` of the bytes `bs` returned `r`. -/
  | wrote (bs : List Byte) (r : Int)
  /-- `sys_read` for `n` bytes returned `r` and the bytes `bs`; `ended` if the write end was closed. -/
  | got (n : Nat) (bs : List Byte) (r : Int) (ended : Bool)

/-- The calls do what a pipe is for, when `sent` has been written and `seen` read before. -/
def PipeTrace.Works (sent seen : List Byte) : List PipeEvent → Prop
  | [] => True
  | .wrote bs r :: tr => r = bs.length ∧ Works (sent ++ bs) seen tr
  | .got n bs r ended :: tr =>
    seen ++ bs <+: sent ∧ (ended = true → r = min n (sent.length - seen.length)) ∧ Works sent (seen ++ bs) tr

def PipeTrace.Unused (tr : List PipeEvent) : Prop :=
  ∀ e ∈ tr, match e with
    | .wrote _ _ => False
    | .got _ _ _ ended => ended = false

/-- The open file `x` is the read end (`writable` false) or the write end of the pipe `p`. -/
def File.EndOf (x : File) (p : Nat) (writable : Bool) : Prop :=
  0 < x.ref ∧ x.type = .FD_PIPE ∧ x.pipe = p ∧ x.writable = writable

instance (x : File) (p : Nat) (writable : Bool) : Decidable (x.EndOf p writable) :=
  inferInstanceAs (Decidable (_ ∧ _ ∧ _ ∧ _))

/-- The caller has a valid buffer of `n` bytes at `buf` for an end of the pipe `p`, is not killed, and the read
end is open. -/
structure OnPipe (k : Kernel) (p : Nat) (writable : Bool) (f buf n : Nat) : Prop where
  args : k.proc.argio = some (f, buf, n)
  isEnd : (k.ftable f).EndOf p writable
  alive : k.proc.killed = false
  readopen : (k.pipes p).readopen = true

/-- The events on the pipe `p` in one call. -/
inductive Emits (p : Nat) (k : Kernel) : SysCall → Int → Kernel → List PipeEvent → Prop
  | wrote {f buf n : Nat} {r : Int} {k' : Kernel} (h : OnPipe k p true f buf n) :
      Emits p k .SYS_write r k' [.wrote (k.buffer buf n) r]
  | got {f buf n : Nat} {r : Int} {k' : Kernel} (h : OnPipe k p false f buf n) :
      Emits p k .SYS_read r k' [.got n (k'.buffer buf r.toNat) r !(k.pipes p).writeopen]
  | other {call : SysCall} {r : Int} {k' : Kernel} (hw : call = .SYS_write → ∀ f buf n, ¬ OnPipe k p true f buf n)
      (hr : call = .SYS_read → ∀ f buf n, ¬ OnPipe k p false f buf n) : Emits p k call r k' []

/-- Any run from the moment that `sys_pipe` has made the pipe `p`, with the calls on that pipe. -/
inductive PipeTrace (sb : Superblock) (p : Nat) : Kernel → List PipeEvent → Prop
  | made {k k' : Kernel} {u : User} (h : SysRun sb (fun _ _ => True) k) (hp : p = k.npipes) (lt : u.proc < NPROC)
      (live : (k.ptable u.proc).Live) (ok : (sysPipe sb).run (k.user u) = .ok (0, k')) : PipeTrace sb p k' []
  | call {k k' : Kernel} {u : User} {call : SysCall} {r : Int} {tr evs : List PipeEvent} (h : PipeTrace sb p k tr)
      (lt : u.proc < NPROC) (live : (k.ptable u.proc).Live) (ok : (call.exec sb).run (k.user u) = .ok (r, k'))
      (hev : Emits p (k.user u) call r k' evs) : PipeTrace sb p k' (tr ++ evs)

section

variable {sb : Superblock} {k k' : Kernel} {f buf n p : Nat} {w : Bool} {r : Int} {tr : List PipeEvent}

theorem filestat_pipe (h : (k.ftable f).type = .FD_PIPE) :
    wp (filestat sb f) (fun r k' => r = none ∧ k' = k) (fun _ => False) k := by
  rw [filestat]
  refine wp_bind.2 (wp_get.2 ?_)
  dsimp only
  rw [h, if_neg (by decide)]
  exact ⟨rfl, rfl⟩

theorem sysWrite_onPipe (h : OnPipe k p w f buf n) : wp (sysWrite sb) (fun r k' => r = -1 ∧ k' = k) (fun _ => False) k := by
  rw [sysWrite]
  refine wp_bind.2 (wp_get.2 ?_)
  simp only [h.args]
  refine wp.bind (filestat_pipe h.isEnd.2.1) ?_
  rintro _ _ ⟨rfl, rfl⟩
  exact ⟨rfl, rfl⟩

theorem sysRead_onPipe (h : OnPipe k p w f buf n) : wp (sysRead sb) (fun r k' => r = -1 ∧ k' = k) (fun _ => False) k := by
  rw [sysRead]
  refine wp_bind.2 (wp_get.2 ?_)
  simp only [h.args]
  refine wp.bind (filestat_pipe h.isEnd.2.1) ?_
  rintro _ _ ⟨rfl, rfl⟩
  exact ⟨rfl, rfl⟩

def PipeEvent.Failed : PipeEvent → Prop
  | wrote _ r => r = -1
  | got _ bs r _ => r = -1 ∧ bs = []

theorem Emits.failed {call : SysCall} {evs : List PipeEvent} (h : Emits p k call r k' evs)
    (ok : (call.exec sb).run k = .ok (r, k')) : ∀ e ∈ evs, e.Failed := by
  intro e he
  cases h with
  | wrote h =>
    obtain rfl := List.mem_singleton.1 he
    exact (wp.of_ok (sysWrite_onPipe h) ok).1
  | got h =>
    obtain rfl := List.mem_singleton.1 he
    obtain ⟨rfl, -⟩ := wp.of_ok (sysRead_onPipe h) ok
    exact ⟨rfl, rfl⟩
  | other _ _ => cases he

theorem PipeTrace.failed (h : PipeTrace sb p k tr) : ∀ e ∈ tr, e.Failed := by
  induction h with
  | made _ _ _ _ _ => exact fun e he => by cases he
  | call _ _ _ ok hev ih =>
    intro e he
    rcases List.mem_append.1 he with he | he
    · exact ih e he
    · exact hev.failed ok e he

theorem PipeTrace.works_iff (hf : ∀ e ∈ tr, e.Failed) : PipeTrace.Works [] [] tr ↔ PipeTrace.Unused tr := by
  induction tr with
  | nil => exact iff_of_true trivial fun e he => by cases he
  | cons e tr ih =>
    have ih := ih fun e he => hf e (List.mem_cons_of_mem _ he)
    have he := hf e List.mem_cons_self
    rw [PipeTrace.Unused, List.forall_mem_cons]
    cases e with
    | wrote bs r =>
      obtain rfl : r = -1 := he
      refine iff_of_false (fun hw => ?_) fun hu => hu.1
      have := hw.1
      omega
    | got n bs r ended =>
      obtain ⟨rfl, rfl⟩ := he
      constructor
      · rintro ⟨-, hend, hw⟩
        refine ⟨?_, ih.1 hw⟩
        cases ended with
        | false => rfl
        | true =>
          have := hend rfl
          simp only [List.length_nil, Nat.sub_self] at this
          omega
      · rintro ⟨rfl, hu⟩
        exact ⟨List.prefix_refl _, fun hno => (by cases hno), ih.2 hu⟩

/-- In every run since `sys_pipe` the calls on a pipe do what a pipe is for exactly if nothing is ever written to it
and nothing read after its write end is closed. -/
theorem pipe_calls_work_iff (h : PipeTrace sb p k tr) : PipeTrace.Works [] [] tr ↔ PipeTrace.Unused tr :=
  PipeTrace.works_iff h.failed

end

/-- Process 0 traps with the arguments `fd`, 16 and 1; the byte at address 16 is 65. -/
def trapIo (fd : Nat) : User where
  proc := 0
  sz := 20
  esp := 0
  mem a := if a = 4 then BitVec.ofNat 8 fd else if a = 8 then 16 else if a = 12 then 1 else if a = 16 then 65 else 0
  kmem := []
  tape := []

/-- `pipe(fds)` just after boot. -/
def piped : Kernel := Prog.final (SysCall.SYS_pipe.exec mkfsSuperblock) (booted.user (trapWith 8))

theorem sysRun_booted {P : Kernel → SysCall → Prop} : SysRun mkfsSuperblock P booted :=
  .boot (run_eq_final (x := recoverFromLog mkfsSuperblock) (s := Xv6.boot emptyRoot []) (a := ()) (by decide +kernel))

theorem pipeTrace_piped : PipeTrace mkfsSuperblock 0 piped [] :=
  .made (k := booted) (u := trapWith 8) sysRun_booted rfl (by decide) (by decide) (run_eq_final (by decide +kernel))

theorem onPipe_read : OnPipe (piped.user (trapIo 0)) 0 false 0 16 1 :=
  ⟨by decide +kernel, by decide +kernel, by decide +kernel, by decide +kernel⟩

theorem onPipe_write : OnPipe (piped.user (trapIo 1)) 0 true 1 16 1 :=
  ⟨by decide +kernel, by decide +kernel, by decide +kernel, by decide +kernel⟩

theorem pipeTrace_read : PipeTrace mkfsSuperblock 0 (piped.user (trapIo 0)) [.got 1 [] (-1) false] := by
  have hfail : wp (sysRead mkfsSuperblock) _ _ _ := sysRead_onPipe onPipe_read
  obtain ⟨_, _, hok, rfl, rfl⟩ := hfail.exists_ok
  have hopen : ((piped.user (trapIo 0)).pipes 0).writeopen = true := by decide +kernel
  have hev : Emits 0 (piped.user (trapIo 0)) .SYS_read (-1) (piped.user (trapIo 0)) _ := .got onPipe_read
  rw [hopen] at hev
  have hrun : (SysCall.SYS_read.exec mkfsSuperblock).run (piped.user (trapIo 0)) = _ := hok
  exact pipeTrace_piped.call (by decide) (by decide +kernel) hrun hev

/-- `read(fds[0], buf, 1)` on the new pipe fails at once where it should sleep, but delivers no wrong byte. -/
theorem pipe_calls_work_iff_unused :
    PipeTrace mkfsSuperblock 0 (piped.user (trapIo 0)) [.got 1 [] (-1) false] ∧ PipeTrace.Works [] [] [.got 1 [] (-1) false] := by
  refine ⟨pipeTrace_read, (pipe_calls_work_iff pipeTrace_read).2 fun e he => ?_⟩
  obtain rfl := List.mem_singleton.1 he
  rfl

/-- `write(fds[1], buf, 1)` on the new pipe returns -1. -/
theorem pipe_write_fails : PipeTrace mkfsSuperblock 0 (piped.user (trapIo 1)) [.wrote [65] (-1)] ∧
    ¬ PipeTrace.Works [] [] [.wrote [65] (-1)] := by
  have hfail : wp (sysWrite mkfsSuperblock) _ _ _ := sysWrite_onPipe onPipe_write
  obtain ⟨_, _, hok, rfl, rfl⟩ := hfail.exists_ok
  have hbytes : (piped.user (trapIo 1)).buffer 16 1 = [65] := by decide +kernel
  have hev : Emits 0 (piped.user (trapIo 1)) .SYS_write (-1) (piped.user (trapIo 1)) _ := .wrote onPipe_write
  rw [hbytes] at hev
  have hrun : (SysCall.SYS_write.exec mkfsSuperblock).run (piped.user (trapIo 1)) = _ := hok
  refine ⟨pipeTrace_piped.call (by decide) (by decide +kernel) hrun hev, fun hw => ?_⟩
  exact absurd hw.1 (by decide)

end Xv6
