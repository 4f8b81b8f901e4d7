import Xv6.BioUsers
import Xv6.IdeRun

/-!
# The driver below the buffer cache

In `Bio.lean` a request is on the disk as soon as it is started, and nothing is said of the controller. Every run of the
driver of `Ide.lean` is a run of that driver too, with the same buffers and the same queue.
-/

namespace Xv6.Bio

open Prog Function

variable {c : Bcache}

/-- The fields that the driver uses. -/
def Buf.driver (x : Buf) : Ide.Buf := ⟨x.valid, x.dirty, x.dev, x.blockno, x.lock, x.data⟩

/-- The driver of the cache at an event of `Ide.lean`. The disk has no steps of its own here. -/
def replayEv : Ide.Ev → BioM Unit
  | .call p b => iderw p b
  | .intr _ => ideintr true
  | .touch b x => edit b fun y =>
    { y with valid := x.valid, dirty := x.dirty, dev := x.dev, blockno := x.blockno, lock := x.lock, data := x.data }
  | _ => pure ()

def replay : List Ide.Ev → BioM Unit
  | [] => pure ()
  | e :: h => do
    replay h
    replayEv e

/-- The cache and the memory of `Ide.spec`, with the requests `l`. The first of them is not in the memory yet; here the disk
has it as soon as it is started. -/
structure Driven (c : Bcache) (m : Ide.Mem) (l : List Ide.BufId) : Prop where
  disk1 : c.havedisk1 = true
  queue : c.idequeue = l.map Fin.val
  buf : ∀ b : Ide.BufId, m.buf b = (c.buf b).driver
  disk : c.disk = l.head?.elim m.disk fun b => (m.transfer b).disk

section Driver

variable {m : Ide.Mem} {l : List Ide.BufId} {b : Ide.BufId}

theorem idestart_transfer (hb : m.buf b = (c.buf b).driver) (hd : c.disk = m.disk) (hno : (m.buf b).blockno < FSSIZE) :
    wp (idestart b) (fun _ c' => c' = { c with disk := (m.transfer b).disk }) (fun _ => False) c := by
  have hfits : ¬ FSSIZE ≤ (c.buf b).blockno := by
    rw [hb] at hno
    exact Nat.not_le.2 hno
  rw [idestart]
  refine wp_bind.2 (wp_get.2 (wp_bind.2 (wp_failIf.2 ⟨fun hle => hfits hle, fun _ => ?_⟩)))
  rw [m.transfer_disk, hb, ← hd]
  cases hdirty : (c.buf b).dirty with
  | true => simp [Buf.driver, hdirty]
  | false => simp [Buf.driver, hdirty]

theorem Driven.iderw (h : Driven c m l) {p : Nat} (hlock : (m.buf b).lock = some p)
    (hneed : ¬ ((m.buf b).valid = true ∧ (m.buf b).dirty = false)) (hno : l = [] → (m.buf b).blockno < FSSIZE) :
    wp (iderw p b) (fun _ c' => Driven c' m (l ++ [b])) (fun _ => False) c := by
  have hqueue : c.idequeue ++ [b.val] = (l ++ [b]).map Fin.val := by
    rw [h.queue, List.map_append]
    rfl
  rw [h.buf b] at hlock hneed
  have hlock' : (c.buf b).lock = some p := hlock
  have hneed' : ¬ ((c.buf b).valid = true ∧ (c.buf b).dirty = false) := hneed
  rw [Bio.iderw]
  refine wp_bind.2 (wp_get.2 ?_)
  simp only [wp_bind, wp_failIf, wp_set]
  refine ⟨fun hne => hne hlock', fun _ => ⟨hneed', fun _ => ⟨fun hone => ?_, fun _ => ?_⟩⟩⟩
  · rw [h.disk1] at hone
    cases hone.2
  cases l with
  | nil =>
    rw [if_pos (show c.idequeue = [] from h.queue)]
    refine (idestart_transfer (c := { c with idequeue := c.idequeue ++ [b.val] }) (h.buf b) h.disk (hno rfl)).post ?_
    rintro _ _ rfl
    exact ⟨h.disk1, hqueue, h.buf, rfl⟩
  | cons a l =>
    have hne : c.idequeue ≠ [] := by
      rw [h.queue]
      exact List.cons_ne_nil _ _
    rw [if_neg hne]
    exact ⟨h.disk1, hqueue, h.buf, h.disk⟩

theorem Driven.transfer_buf (h : Driven c m (b :: l)) (a : Ide.BufId) :
    (m.transfer b).buf a = (update c.buf b { c.buf b with
      data := if (c.buf b).dirty = false then c.sector (c.buf b).dev (c.buf b).blockno else (c.buf b).data
      valid := true
      dirty := false } a).driver := by
  have hd : c.disk = (m.transfer b).disk := h.disk
  rw [m.transfer_disk, h.buf b] at hd
  rcases eq_or_ne a b with rfl | hne
  · rw [update_self, Ide.Mem.transfer, h.buf a]
    cases hdirty : (c.buf a).dirty with
    | true => simp [Buf.driver, hdirty]
    | false => simp [Buf.driver, hdirty, Bcache.sector, hd]
  · rw [update_of_ne (Fin.val_ne_of_ne hne), ← h.buf a, Ide.Mem.transfer]
    split
    · exact update_of_ne hne ..
    · exact update_of_ne hne ..

theorem Driven.ideintr (h : Driven c m (b :: l)) (hno : ∀ a ∈ l.head?, ((m.transfer b).buf a).blockno < FSSIZE) :
    wp (ideintr true) (fun _ c' => Driven c' (m.transfer b) l) (fun _ => False) c := by
  rw [Bio.ideintr]
  refine wp_bind.2 (wp_get.2 ?_)
  rw [h.queue]
  simp only [List.map_cons, wp_bind, wp_set, wp_edit, and_true]
  cases l with
  | nil => exact ⟨h.disk1, rfl, h.transfer_buf, h.disk⟩
  | cons a l =>
    refine wp.post (idestart_transfer ?_ h.disk (hno a rfl)) ?_
    · exact h.transfer_buf a
    · rintro _ _ rfl
      exact ⟨h.disk1, rfl, h.transfer_buf, rfl⟩

theorem Driven.touch (h : Driven c m l) (x : Ide.Buf) (hb : b ∉ l) :
    wp (replayEv (.touch b x)) (fun _ c' => Driven c' (m.step (.touch b x)) l) (fun _ => False) c := by
  rw [replayEv, wp_edit]
  refine ⟨h.disk1, h.queue, fun a => ?_, ?_⟩
  · rcases eq_or_ne a b with rfl | hne
    · simp [Ide.Mem.step, Bcache.setBuf, Buf.driver]
    · simp only [Ide.Mem.step, Bcache.setBuf, update_of_ne hne, update_of_ne (Fin.val_ne_of_ne hne), h.buf a]
  · refine h.disk.trans ?_
    cases l with
    | nil => rfl
    | cons a l =>
      have hne : a ≠ b := fun he => hb (he ▸ List.mem_cons_self ..)
      simp only [List.head?_cons, Option.elim_some, Ide.Mem.transfer_disk, Ide.Mem.step, update_of_ne hne]

theorem Driven.step {m : Ide.Mem} {h : List Ide.Ev} {s s' : Ide.State} {e : Ide.Ev} {l l' : List Ide.BufId}
    (hd : Driven c (Ide.spec m h) l) (hi : Ide.Inv m h s l) (hi' : Ide.Inv m (e :: h) s' l') (hs : Ide.Step s e s') :
    wp (replayEv e) (fun _ c' => Driven c' (Ide.spec m (e :: h)) l') (fun _ => False) c := by
  have hfifo := hi'.fifo
  cases hs with
  | @call _ p b _ hp hr =>
    obtain ⟨hlock, hneed, -⟩ := (Ide.iderw_spec s p b).of_ok hr
    obtain rfl : l ++ [b] = l' := by
      refine List.append_cancel_left (?_ : Ide.served h ++ _ = Ide.served h ++ _)
      rw [← List.append_assoc, ← hi.fifo]
      exact hfifo
    rw [hi.buf] at hlock hneed
    refine hd.iderw hlock hneed ?_
    rintro rfl
    exact hi'.drive.2.1
  | intr hirq hr =>
    obtain ⟨b, rest, rfl, -⟩ := hi.intr hirq
    have hhead : s.queue.head = some b := hi.queue.head_eq
    rw [hhead] at hfifo hi' ⊢
    obtain rfl : rest = l' := by
      refine List.append_cancel_left (?_ : (Ide.served h ++ [b]) ++ _ = (Ide.served h ++ [b]) ++ _)
      rw [List.append_assoc, List.singleton_append, ← hi.fifo]
      exact hfifo
    refine hd.ideintr fun a ha => ?_
    cases rest with
    | nil => cases ha
    | cons a' rest =>
      cases ha
      exact hi'.drive.2.1
  | @touch b x hb =>
    obtain rfl : l = l' := List.append_cancel_left (hi.fifo.symm.trans hfifo)
    refine hd.touch x fun hm => ?_
    obtain ⟨p, hw⟩ := hi.waiter b hm
    exact hb p hw
  | test hp hr | disk hbusy | kill hp =>
    obtain rfl : l = l' := List.append_cancel_left (hi.fifo.symm.trans hfifo)
    exact hd

/-- The driver above and that of `Ide.lean` have the same queue and the same buffers after every run of the latter, and
they agree on the disk as soon as the controller has executed its command. -/
theorem replay_agrees {x : Ide.BufId → Ide.Buf} {d : Nat → Image} {k : Bool} {h : List Ide.Ev} {s : Ide.State}
    (hr : (Ide.ideLts x d k).Run h s) (hc : Driven c ⟨x, d⟩ []) :
    wp (replay h) (fun _ c' => ∃ l, s.queue.Holds l ∧ c'.idequeue = l.map Fin.val ∧
      (∀ b : Ide.BufId, s.buf b = (c'.buf b).driver) ∧
      (s.ctl.busy = false → c'.disk = s.ctl.disk)) (fun _ => False) c := by
  have hrun : wp (replay h) (fun _ c' => ∃ l, Ide.Inv ⟨x, d⟩ h s l ∧ Driven c' (Ide.spec ⟨x, d⟩ h) l) (fun _ => False) c := by
    induction hr with
    | init hs =>
      obtain rfl : _ = Ide.boot x d k := hs
      exact ⟨[], .boot x d k, hc⟩
    | step hr hs ih =>
      refine wp.bind ih fun _ c₁ ⟨l, hi, hd⟩ => ?_
      obtain ⟨l', hi'⟩ := hi.step hs
      exact (hd.step hi hi' hs).post fun _ _ hd' => ⟨l', hi', hd'⟩
  refine hrun.post fun _ c' ⟨l, hi, hd⟩ => ⟨l, hi.queue, hd.queue, fun b => ?_, fun hbusy => ?_⟩
  · rw [hi.buf]
    exact hd.buf b
  · rw [hd.disk]
    cases l with
    | nil => exact hi.drive.2.2.symm
    | cons b l =>
      obtain ⟨-, -, ⟨hbusy', -⟩ | ⟨-, -, hdisk, -⟩⟩ := hi.drive
      · rw [hbusy] at hbusy'
        cases hbusy'
      · exact hdisk.symm

end Driver

end Xv6.Bio
