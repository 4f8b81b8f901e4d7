import Xv6.Console
import Xv6.Ring

/-!
# The line discipline loses and invents nothing

`typed` is what the keystrokes of a run mean: the characters that are committed, and the line that can still be edited. `taken`
is what the readers have got, with a `^D` for every read of positive length that returned nothing. In every run the ring
has what is committed and not taken, and then the line.
-/

namespace Xv6.Console

open Function

/-! ### The specification -/

structure Typed where
  committed : List Byte
  line : List Byte
  table : Bool

/-- How many characters are in use when `taken` have been read. -/
def Typed.used (taken : Nat) (t : Typed) : Nat := t.committed.length - taken + t.line.length

def Typed.ordinary (taken : Nat) (t : Typed) (c : Byte) : Typed :=
  if t.table = true ∨ c = 0 ∨ INPUT_BUF ≤ t.used taken then t
  else
    let c := if c = chr '\r' then chr '\n' else c
    if c = chr '\n' ∨ c = ctl 'D' ∨
      t.used taken + 1 = INPUT_BUF then { t with committed := t.committed ++ t.line ++ [c], line := [] }
    else { t with line := t.line ++ [c] }

def Typed.key (taken : Nat) (t : Typed) (c : Byte) : Typed :=
  if c = ctl 'P' then t
  else if c = ctl 'U' then { t with line := [] }
  else if c = ctl 'H' ∨ c = chr '\x7f' then { t with line := t.line.dropLast }
  else if c = ctl 'C' then { t with table := !t.table }
  else t.ordinary taken c

/-- The read got the bytes and took the `^D` if it returned nothing. -/
def got (target : Nat) (bs : List Byte) (st : Stop) : List Byte := bs ++ if 0 < target ∧ st = .ret 0 then [ctl 'D'] else []

/-- What the readers have taken, oldest first. A reader that goes on after a sleep has a positive length. -/
def taken : List Ev → List Byte
  | [] => []
  | .call _ n bs st :: h => taken h ++ got n bs st
  | .resume _ bs st :: h => taken h ++ got 1 bs st
  | _ :: h => taken h

def delivered : List Ev → List Byte
  | [] => []
  | .call _ _ bs _ :: h => delivered h ++ bs
  | .resume _ bs _ :: h => delivered h ++ bs
  | _ :: h => delivered h

def emptyReads : List Ev → Nat
  | [] => 0
  | .call _ n _ st :: h => emptyReads h + if 0 < n ∧ st = .ret 0 then 1 else 0
  | .resume _ _ st :: h => emptyReads h + if st = .ret 0 then 1 else 0
  | _ :: h => emptyReads h

/-- What the last `consoleread` of process `p` has stored. -/
def given (p : Nat) : List Ev → List Byte
  | [] => []
  | .call q _ bs _ :: h => if q = p then bs else given p h
  | .resume q bs _ :: h => if q = p then given p h ++ bs else given p h
  | _ :: h => given p h

def typed : List Ev → Typed
  | [] => ⟨[], [], false⟩
  | .intr cs :: h => cs.foldl (Typed.key (taken h).length) (typed h)
  | _ :: h => typed h

/-! ### The ring -/

/-- The ring has the characters of `unread`, then those of `line`; `k` characters have been read before. -/
structure Holds (k : Nat) (inp : Input) (unread line : List Byte) : Prop where
  r : inp.r = BitVec.ofNat 32 k
  w : inp.w = BitVec.ofNat 32 (k + unread.length)
  queue : Ring.queue INPUT_BUF inp.buf inp.r inp.e = unread ++ line
  room : (unread ++ line).length ≤ INPUT_BUF
  full : (unread ++ line).length = INPUT_BUF → line = []
  nl : chr '\n' ∉ line

namespace Holds

variable {k : Nat} {inp : Input} {unread line : List Byte}

theorem dvd : INPUT_BUF ∣ 2 ^ 32 := by decide

theorem length_eq (h : Holds k inp unread line) : (inp.e - inp.r).toNat = (unread ++ line).length := by
  rw [← h.queue, Ring.length_queue]

theorem e (h : Holds k inp unread line) : inp.e = BitVec.ofNat 32 (k + (unread ++ line).length) := by
  have he : inp.e - inp.r = BitVec.ofNat 32 (unread ++ line).length := by
    rw [← h.length_eq, BitVec.ofNat_toNat, BitVec.setWidth_eq]
  rw [BitVec.ofNat_add, ← h.r, ← he, BitVec.add_comm, BitVec.sub_add_cancel]

theorem ofNat_inj {a b : Nat} (hb : b ≤ INPUT_BUF) (h : a ≤ b)
    (he : BitVec.ofNat 32 (k + b) = BitVec.ofNat 32 (k + a)) : a = b := by
  rw [BitVec.ofNat_add, BitVec.ofNat_add, add_right_inj] at he
  have hn := congrArg BitVec.toNat he
  have hbuf : INPUT_BUF = 128 := rfl
  rw [BitVec.toNat_ofNat, BitVec.toNat_ofNat, Nat.mod_eq_of_lt (by omega), Nat.mod_eq_of_lt (by omega)] at hn
  exact hn.symm

theorem e_eq_w (h : Holds k inp unread line) : inp.e = inp.w ↔ line = [] := by
  have hroom := h.room
  rw [h.e, h.w]
  constructor
  · intro he
    have hlen := ofNat_inj hroom (by simp) he
    rw [List.length_append] at hlen
    exact List.length_eq_zero_iff.1 (by omega)
  · rintro rfl
    rw [List.append_nil]

theorem r_eq_w (h : Holds k inp unread line) : inp.r = inp.w ↔ unread = [] := by
  have hroom := h.room
  rw [List.length_append] at hroom
  rw [h.r, h.w]
  constructor
  · intro he
    have hlen := ofNat_inj (a := 0) (b := unread.length) (by omega) (Nat.zero_le _) he.symm
    exact List.length_eq_zero_iff.1 hlen.symm
  · rintro rfl
    rfl

theorem line_length (h : Holds k inp unread line) : (inp.e - inp.w).toNat = line.length := by
  have hroom := h.room
  have hbuf : INPUT_BUF = 128 := rfl
  rw [List.length_append] at hroom
  rw [h.e, h.w, List.length_append, ← Nat.add_assoc, BitVec.ofNat_add (k + unread.length),
    add_sub_cancel_left, BitVec.toNat_ofNat,
    Nat.mod_eq_of_lt (by omega)]

theorem unread_length (h : Holds k inp unread line) : (inp.w - inp.r).toNat = unread.length := by
  have hroom := h.room
  have hbuf : INPUT_BUF = 128 := rfl
  rw [List.length_append] at hroom
  rw [h.r, h.w, BitVec.ofNat_add, add_sub_cancel_left, BitVec.toNat_ofNat, Nat.mod_eq_of_lt (by omega)]

theorem split (h : Holds k inp unread line) : Ring.queue INPUT_BUF inp.buf inp.r inp.w = unread ∧
    Ring.queue INPUT_BUF inp.buf inp.w inp.e = line := by
  have hle : (inp.w - inp.r).toNat ≤ (inp.e - inp.r).toNat := by
    rw [h.unread_length, h.length_eq, List.length_append]
    exact Nat.le_add_right _ _
  have hqueue := h.queue
  rw [Ring.queue_split hle] at hqueue
  exact List.append_inj hqueue (by rw [Ring.length_queue, h.unread_length])

theorem r_ne_e (h : Holds k inp unread line) (hne : unread ++ line ≠ []) : inp.r ≠ inp.e := by
  intro he
  have hlen := h.length_eq
  rw [he, BitVec.sub_self, BitVec.toNat_zero] at hlen
  exact hne (List.length_eq_zero_iff.1 hlen.symm)

theorem backspace (h : Holds k inp unread line) : Holds k inp.backspace unread line.dropLast := by
  unfold Input.backspace
  split
  · next hne =>
    have hline : line ≠ [] := fun hl => hne (h.e_eq_w.2 hl)
    have hre := h.r_ne_e (List.append_ne_nil_of_right_ne_nil unread hline)
    have hlt : line.dropLast.length < line.length := by
      rw [List.length_dropLast]
      exact Nat.sub_lt (List.length_pos_iff.2 hline) Nat.one_pos
    have hroom := h.room
    rw [List.length_append] at hroom
    refine ⟨h.r, h.w, ?_, ?_, fun hfull => ?_, fun hm => h.nl (List.mem_of_mem_dropLast hm)⟩
    · have hqueue := congrArg List.dropLast ((Ring.queue_concat hre).symm.trans h.queue)
      rw [List.dropLast_concat, List.dropLast_append_of_ne_nil hline] at hqueue
      exact hqueue
    · rw [List.length_append]
      omega
    · rw [List.length_append] at hfull
      omega
  · next he =>
    obtain rfl := h.e_eq_w.1 (not_not.1 he)
    exact h

theorem last (h : Holds k inp unread line) (hl : line ≠ []) : inp.buf ((inp.e - 1).toNat % INPUT_BUF) ∈ line := by
  have hqueue := (Ring.queue_concat (h.r_ne_e (List.append_ne_nil_of_right_ne_nil unread hl))).symm.trans h.queue
  rw [← List.dropLast_append_getLast hl, ← List.append_assoc] at hqueue
  have hlast := List.append_inj_right' hqueue rfl
  have hbuf : inp.buf ((inp.e - 1#32).toNat % INPUT_BUF) = line.getLast hl := List.singleton_inj.1 hlast
  exact hbuf ▸ List.getLast_mem hl

theorem killLine (h : Holds k inp unread line) {n : Nat} (hn : line.length ≤ n) : Holds k (inp.killLine n) unread [] := by
  induction n generalizing inp line with
  | zero =>
    obtain rfl := List.length_eq_zero_iff.1 (Nat.le_zero.1 hn)
    exact h
  | succ n ih =>
    unfold Input.killLine
    split
    · next hc =>
      have hback := h.backspace
      rw [Input.backspace, if_pos hc.1] at hback
      refine ih hback ?_
      rw [List.length_dropLast]
      omega
    · next hc =>
      have hline : line = [] := by
        by_contra hl
        refine hc ⟨fun he => hl (h.e_eq_w.1 he), fun hnl => ?_⟩
        have hlast := h.last hl
        rw [hnl] at hlast
        exact h.nl hlast
      subst hline
      exact h

theorem put (h : Holds k inp unread line) (hlt : (unread ++ line).length < INPUT_BUF) (c : Byte) :
    let c' := if c = chr '\r' then chr '\n' else c
    if c' = chr '\n' ∨ c' = ctl 'D' ∨ (unread ++ line).length + 1 = INPUT_BUF
    then (inp.put c).2 = true ∧ Holds k (inp.put c).1 (unread ++ line ++ [c']) []
    else (inp.put c).2 = false ∧ Holds k (inp.put c).1 unread (line ++ [c']) := by
  intro c'
  have hqueue : Ring.queue INPUT_BUF (update inp.buf (inp.e.toNat % INPUT_BUF) c') inp.r
    (inp.e + 1#32) = unread ++ line ++ [c'] := by
    rw [Ring.queue_push dvd (by decide) (by rwa [h.length_eq]), h.queue]
  have hfull : inp.e + 1#32 = inp.r + BitVec.ofNat 32 INPUT_BUF ↔ (unread ++ line).length + 1 = INPUT_BUF := by
    have hlen := congrArg List.length hqueue
    rw [Ring.length_queue, List.length_append, List.length_singleton] at hlen
    rw [Ring.full_iff (by decide), hlen]
  have hput : inp.put c = if c' = chr '\n' ∨ c' = ctl 'D' ∨ inp.e + 1#32 = inp.r + BitVec.ofNat 32 INPUT_BUF
      then ({ inp with buf := update inp.buf (inp.e.toNat % INPUT_BUF) c', e := inp.e + 1#32, w := inp.e + 1#32 }, true)
      else ({ inp with buf := update inp.buf (inp.e.toNat % INPUT_BUF) c', e := inp.e + 1#32 }, false) := rfl
  have hiff : (c' = chr '\n' ∨ c' = ctl 'D' ∨ inp.e + 1#32 = inp.r + BitVec.ofNat 32 INPUT_BUF) ↔
      c' = chr '\n' ∨ c' = ctl 'D' ∨ (unread ++ line).length + 1 = INPUT_BUF := or_congr Iff.rfl (or_congr Iff.rfl hfull)
  split
  · next hc =>
    rw [hput, if_pos (hiff.2 hc)]
    refine ⟨rfl, h.r, ?_, ?_, ?_, fun _ => rfl, List.not_mem_nil⟩
    · rw [List.length_append, List.length_singleton, ← Nat.add_assoc, BitVec.ofNat_add, ← h.e]
    · rw [List.append_nil]
      exact hqueue
    · rw [List.append_nil, List.length_append]
      exact hlt
  · next hn =>
    rw [hput, if_neg (mt hiff.1 hn)]
    rw [not_or, not_or] at hn
    obtain ⟨hnl, -, hne⟩ := hn
    refine ⟨rfl, h.r, h.w, ?_, ?_, fun hf => ?_, ?_⟩
    · rw [← List.append_assoc]
      exact hqueue
    · rw [← List.append_assoc, List.length_append]
      exact hlt
    · rw [← List.append_assoc, List.length_append] at hf
      exact absurd hf hne
    · intro hm
      rcases List.mem_append.1 hm with hm | hm
      · exact h.nl hm
      · exact hnl (List.mem_singleton.1 hm).symm

theorem take {c : Byte} (h : Holds k inp (c :: unread) line) : inp.buf (inp.r.toNat % INPUT_BUF) = c ∧
    Holds (k + 1) { inp with r := inp.r + 1 } unread line := by
  have hre := h.r_ne_e (List.cons_ne_nil c _)
  have hqueue := h.queue
  rw [Ring.queue_pop hre, List.cons_append] at hqueue
  obtain ⟨hc, hrest⟩ := List.cons.inj hqueue
  have hroom := h.room
  rw [List.cons_append, List.length_cons] at hroom
  refine ⟨hc, ?_, ?_, hrest, by omega, fun hf => by omega, h.nl⟩
  · change inp.r + 1#32 = _
    rw [h.r, BitVec.ofNat_add]
  · rw [h.w, List.length_cons]
    exact congrArg _ (by omega)

end Holds

/-! ### Reading -/

/-- What one stretch of `consoleread` does, with `n` of `target` bytes still to read. -/
structure Reads (killed : Bool) (target n k : Nat) (unread line : List Byte) (bs : List Byte)
    (st : Stop) (inp : Input) : Prop where
  holds : ∃ rest, unread = got target bs st ++ rest ∧ Holds (k + (got target bs st).length) inp rest line
  data : ctl 'D' ∉ bs
  ret : ∀ r, st = .ret r → r = target - n + bs.length ∨ r = -1 ∧ killed = true
  sleep : ∀ m, st = .sleep m → m + bs.length = n ∧ 0 < m ∧ inp.r = inp.w ∧ killed = false

theorem got_of_ne {target : Nat} {bs : List Byte} {st : Stop} (h : st ≠ .ret 0) : got target bs st = bs := by
  rw [got, if_neg fun hc => h hc.2, List.append_nil]

theorem Holds.read {k : Nat} {inp : Input} {unread line : List Byte} {target n : Nat}
    (h : Holds k inp unread line) (killed : Bool)
    (hn : n ≤ target) : Reads killed target n k unread line (inp.read killed target n).1 (inp.read killed target n).2.1
      (inp.read killed target n).2.2 := by
  induction n generalizing k inp unread with
  | zero =>
    have hgot : got target [] (.ret target) = [] := by
      rw [got, if_neg, List.append_nil]
      rintro ⟨hpos, he⟩
      have hz := Stop.ret.inj he
      omega
    refine ⟨⟨unread, ?_, ?_⟩, List.not_mem_nil, ?_, nofun⟩
    · rw [Input.read, hgot, List.nil_append]
    · rw [Input.read, hgot]
      exact h
    · intro r hr
      cases hr
      exact .inl (by simp [Input.read])
  | succ n ih =>
    unfold Input.read
    split
    · next he =>
      -- nothing to read
      obtain rfl := h.r_eq_w.1 he
      have hst : (if killed = true then Stop.ret (-1) else .sleep (n + 1)) ≠ .ret 0 := by
        split <;> simp
      refine ⟨⟨[], ?_, ?_⟩, List.not_mem_nil, fun r hr => ?_, fun m hm => ?_⟩
      · rw [got_of_ne hst]
        rfl
      · rw [got_of_ne hst]
        exact h
      · dsimp only at hr
        split at hr
        · next hk =>
          cases hr
          exact .inr ⟨rfl, hk⟩
        · cases hr
      · dsimp only at hm
        split at hm
        · cases hm
        · next hk =>
          cases hm
          exact ⟨rfl, Nat.succ_pos n, he, Bool.eq_false_iff.2 hk⟩
    · next hne =>
      obtain ⟨c, rest, rfl⟩ := List.exists_cons_of_ne_nil fun hu => hne (h.r_eq_w.2 hu)
      obtain ⟨hc, htake⟩ := h.take
      rw [hc]
      dsimp only
      split
      · next hd =>
        -- `^D` is taken by a reader that has nothing yet, and put back by any other
        subst hd
        have hret : ∀ r, Stop.ret (target - ((n : Int) + 1)) = .ret r →
          r = target - ((n + 1 : Nat) : Int) + ([] : List Byte).length ∨ r = -1 ∧ killed = true := by
          intro r hr
          cases hr
          exact .inl (by simp)
        split
        · next hlt =>
          have hst : Stop.ret (target - ((n : Int) + 1)) ≠ .ret 0 := by
            intro he
            have hz := Stop.ret.inj he
            omega
          refine ⟨⟨ctl 'D' :: rest, ?_, ?_⟩, List.not_mem_nil, hret, nofun⟩
          · rw [got_of_ne hst]
            rfl
          · rw [got_of_ne hst]
            have hr : inp.r + 1 - 1 = inp.r := BitVec.add_sub_cancel ..
            rw [hr]
            exact h
        · next hge =>
          have hgot : got target [] (.ret (target - ((n : Int) + 1))) = [ctl 'D'] := by
            have hz : (target : Int) - ((n : Int) + 1) = 0 := by omega
            rw [got, hz, if_pos ⟨by omega, rfl⟩, List.nil_append]
          refine ⟨⟨rest, ?_, ?_⟩, List.not_mem_nil, hret, nofun⟩
          · rw [hgot, List.singleton_append]
          · rw [hgot]
            exact htake
      · next hd =>
        split
        · next hnl =>
          have hst : Stop.ret (target - (n : Int)) ≠ .ret 0 := by
            intro he
            have hz := Stop.ret.inj he
            omega
          refine ⟨⟨rest, ?_, ?_⟩, fun hm => hd (List.mem_singleton.1 hm).symm, fun r hr => ?_, nofun⟩
          · rw [got_of_ne hst, List.singleton_append]
          · rw [got_of_ne hst]
            exact htake
          · cases hr
            exact .inl (by simp; omega)
        · obtain ⟨⟨rest', hrest, hholds⟩, hdata, hret, hsleep⟩ := ih htake (by omega)
          have hgot : ∀ bs st, got target (c :: bs) st = c :: got target bs st := fun _ _ => rfl
          refine ⟨⟨rest', ?_, ?_⟩, ?_, fun r hr => ?_, fun m hm => ?_⟩
          · rw [hgot, List.cons_append, ← hrest]
          · rw [hgot, List.length_cons, Nat.add_comm _ 1, ← Nat.add_assoc]
            exact hholds
          · exact List.not_mem_cons_of_ne_of_not_mem (Ne.symm hd) hdata
          · rcases hret r hr with hr | hr
            · refine .inl ?_
              rw [hr, List.length_cons]
              omega
            · exact .inr hr
          · obtain ⟨hlen, hrest⟩ := hsleep m hm
            refine ⟨?_, hrest⟩
            rw [List.length_cons]
            omega

/-! ### The invariant -/

/-- The reader `p` in the state `pc`. -/
def ReaderOk (h : List Ev) (inp : Input) (p : Nat) : Pc → Prop
  | .out => True
  | .reading target n dst asleep => dst = given p h ∧ dst.length + n = target ∧ 0 < n ∧ (asleep = true → inp.r = inp.w)

structure Inv (h : List Ev) (s : State) : Prop where
  ring : ∃ unread, (typed h).committed = taken h ++ unread ∧ Holds (taken h).length s.input unread (typed h).line
  table : s.isShowingTable = (typed h).table
  reader : ∀ p, ReaderOk h s.input p (s.proc p)
  killed : ∀ p, s.killed p = true → .kill p ∈ h
  delivered : delivered h = (taken h).filter (· ≠ ctl 'D')
  empty : emptyReads h = (taken h).count (ctl 'D')

/-- What a keystroke keeps of the invariant; `h` is the history before the interrupt. -/
structure KeyInv (h : List Ev) (t : Typed) (s : State) : Prop where
  ring : ∃ unread, t.committed = taken h ++ unread ∧ Holds (taken h).length s.input unread t.line
  table : s.isShowingTable = t.table
  reader : ∀ p, ReaderOk h s.input p (s.proc p)

namespace KeyInv

variable {h : List Ev} {t t' : Typed} {s : State} {c : Byte}

theorem reader_wakeup (hr : ∀ p, ReaderOk h s.input p (s.proc p)) (inp : Input) (p : Nat) :
    ReaderOk h inp p (({ s with input := inp } : State).wakeup.proc p) := by
  have hp := hr p
  unfold State.wakeup
  dsimp only
  cases hpc : s.proc p with
  | out => trivial
  | reading target n dst asleep =>
    rw [hpc] at hp
    exact ⟨hp.1, hp.2.1, hp.2.2.1, nofun⟩

theorem reader_edit (hr : ∀ p, ReaderOk h s.input p (s.proc p)) {inp : Input} (hi : inp.r = s.input.r ∧
    inp.w = s.input.w) (p : Nat) :
    ReaderOk h inp p (s.proc p) := by
  have hp := hr p
  cases hpc : s.proc p with
  | out => trivial
  | reading target n dst asleep =>
    rw [hpc] at hp
    rw [ReaderOk, hi.1, hi.2]
    exact hp

theorem killLine_same (n : Nat) (inp : Input) : (inp.killLine n).r = inp.r ∧ (inp.killLine n).w = inp.w := by
  induction n generalizing inp with
  | zero => exact ⟨rfl, rfl⟩
  | succ n ih =>
    unfold Input.killLine
    split
    · exact ih _
    · exact ⟨rfl, rfl⟩

theorem backspace_same (inp : Input) : inp.backspace.r = inp.r ∧ inp.backspace.w = inp.w := by
  unfold Input.backspace
  split <;> exact ⟨rfl, rfl⟩

theorem put_same (inp : Input) (h : (inp.put c).2 = false) : (inp.put c).1.r = inp.r ∧ (inp.put c).1.w = inp.w := by
  unfold Input.put at h ⊢
  generalize (if c = chr '\r' then chr '\n' else c) = c' at h ⊢
  dsimp only at h ⊢
  split at h
  · cases h
  · next hc =>
    rw [if_neg hc]
    exact ⟨rfl, rfl⟩

theorem used_eq {unread : List Byte} (hc : t.committed = taken h ++ unread) : t.used
    (taken h).length = (unread ++ t.line).length := by
  rw [Typed.used, hc, List.length_append, List.length_append, Nat.add_sub_cancel_left]

theorem ordinary (hi : KeyInv h t s) (c : Byte) : KeyInv h (t.ordinary (taken h).length c) (s.ordinary c) := by
  obtain ⟨⟨unread, hc, hh⟩, htable, hreader⟩ := id hi
  unfold Typed.ordinary State.ordinary
  rw [used_eq hc]
  by_cases ht : t.table = true
  · rw [if_pos (.inl ht), if_pos (htable.trans ht)]
    split
    · exact ⟨⟨unread, hc, hh⟩, htable, hreader⟩
    · split <;> exact ⟨⟨unread, hc, hh⟩, htable, hreader⟩
  have hlt : s.input.e - s.input.r < BitVec.ofNat 32 INPUT_BUF ↔ (unread ++ t.line).length < INPUT_BUF := by
    rw [← hh.length_eq]
    exact BitVec.lt_def
  have hs : ¬ s.isShowingTable = true := fun hs => ht (htable ▸ hs)
  rw [if_neg hs]
  by_cases hcond : c ≠ 0 ∧ s.input.e - s.input.r < BitVec.ofNat 32 INPUT_BUF
  · have hroom := hlt.1 hcond.2
    have hn : ¬ (t.table = true ∨ c = 0 ∨ INPUT_BUF ≤ (unread ++ t.line).length) := by
      rintro (h1 | h1 | h1)
      · exact ht h1
      · exact hcond.1 h1
      · exact absurd hroom (Nat.not_lt.2 h1)
    rw [if_pos hcond, if_neg hn]
    dsimp only
    have hput := hh.put hroom c
    cases hp : s.input.put c with
    | mk inp b =>
      rw [hp] at hput
      dsimp only at hput
      generalize (if c = chr '\r' then chr '\n' else c) = c' at hput ⊢
      split
      · next hcommit =>
        rw [if_pos hcommit] at hput
        obtain ⟨rfl, hnew⟩ := hput
        refine ⟨⟨unread ++ t.line ++ [c'], ?_, hnew⟩, htable, reader_wakeup hreader inp⟩
        simp only [hc, List.append_assoc]
      · next hcommit =>
        rw [if_neg hcommit] at hput
        obtain ⟨rfl, hnew⟩ := hput
        have hsame := put_same (c := c) s.input (by rw [hp])
        rw [hp] at hsame
        exact ⟨⟨unread, hc, hnew⟩, htable, reader_edit hreader hsame⟩
  · have hy : t.table = true ∨ c = 0 ∨ INPUT_BUF ≤ (unread ++ t.line).length := by
      rw [not_and_or, not_not, hlt, Nat.not_lt] at hcond
      exact .inr hcond
    rw [if_neg hcond, if_pos hy]
    exact hi

theorem key (hi : KeyInv h t s) (c : Byte) : KeyInv h (t.key (taken h).length c) (s.key c) := by
  obtain ⟨⟨unread, hc, hh⟩, htable, hreader⟩ := id hi
  unfold Typed.key State.key
  dsimp only
  split
  · exact hi
  · split
    · exact ⟨⟨unread, hc, hh.killLine hh.line_length.ge⟩, htable, reader_edit hreader (killLine_same _ _)⟩
    · split
      · exact ⟨⟨unread, hc, hh.backspace⟩, htable, reader_edit hreader (backspace_same _)⟩
      · split
        · rw [← htable]
          split <;> exact ⟨⟨unread, hc, hh⟩, rfl, hreader⟩
        · exact hi.ordinary c

theorem consoleintr (hi : KeyInv h t s) (cs : List Byte) : KeyInv h
    (cs.foldl (Typed.key (taken h).length) t) (s.consoleintr cs) := by
  induction cs generalizing t s with
  | nil => exact hi
  | cons c cs ih => exact ih (hi.key c)

end KeyInv

theorem key_killed (s : State) (c : Byte) : (s.key c).killed = s.killed := by
  have hord : (s.ordinary c).killed = s.killed := by
    unfold State.ordinary
    split
    · split
      · rfl
      · split <;> rfl
    · split
      · split <;> rfl
      · rfl
  unfold State.key
  split
  · rfl
  · split
    · rfl
    · split
      · rfl
      · split
        · dsimp only
          split <;> rfl
        · exact hord

theorem consoleintr_killed (s : State) (cs : List Byte) : (s.consoleintr cs).killed = s.killed := by
  induction cs generalizing s with
  | nil => rfl
  | cons c cs ih => exact (ih (s.key c)).trans (key_killed s c)

namespace Inv

variable {h : List Ev} {s s' : State} {e : Ev}

theorem boot : Inv [] boot where
  ring := ⟨[], rfl, rfl, rfl, rfl, Nat.zero_le _, fun _ => rfl, List.not_mem_nil⟩
  table := rfl
  reader _ := trivial
  killed _ hk := nomatch hk
  delivered := rfl
  empty := rfl

theorem intr (hi : Inv h s) (cs : List Byte) : Inv (.intr cs :: h) (s.consoleintr cs) := by
  have hkey : KeyInv h (typed h) s := ⟨hi.ring, hi.table, hi.reader⟩
  have hnew := hkey.consoleintr cs
  refine ⟨hnew.ring, hnew.table, hnew.reader, fun p hk => ?_, hi.delivered, hi.empty⟩
  rw [consoleintr_killed] at hk
  exact List.mem_cons_of_mem _ (hi.killed p hk)

theorem kill (hi : Inv h s) (p : Nat) : Inv (.kill p :: h) (s.kill p) := by
  refine ⟨hi.ring, hi.table, fun q => ?_, fun q hk => ?_, hi.delivered, hi.empty⟩
  · have hq := hi.reader q
    unfold State.kill
    dsimp only
    rcases eq_or_ne q p with rfl | hne
    · rw [update_self]
      cases hpc : s.proc q with
      | out => trivial
      | reading target n dst asleep =>
        rw [hpc] at hq
        exact ⟨hq.1, hq.2.1, hq.2.2.1, nofun⟩
    · rw [update_of_ne hne]
      exact hq
  · unfold State.kill at hk
    dsimp only at hk
    rcases eq_or_ne q p with rfl | hne
    · exact List.mem_cons_self ..
    · rw [update_of_ne hne] at hk
      exact List.mem_cons_of_mem _ (hi.killed q hk)

theorem read (hi : Inv h s) {p target n : Nat} (dst : List Byte) {bs : List Byte} {st : Stop} {inp : Input}
    (hr : s.input.read (s.killed p) target n = (bs, st, inp)) (hn : dst.length + n = target)
    (htyped : typed (e :: h) = typed h) (htaken : taken (e :: h) = taken h ++ got target bs st)
    (hgiven : ∀ q, given q (e :: h) = if p = q then dst ++ bs else given q h)
      (hdeliv : Console.delivered (e :: h) = Console.delivered h ++ bs)
    (hempty : emptyReads (e :: h) = emptyReads h + if 0 < target ∧ st = .ret 0 then 1 else 0) :
    Inv (e :: h) (s.stop p target dst (bs, st, inp)) := by
  obtain ⟨unread, hc, hh⟩ := hi.ring
  have hle : n ≤ target := by omega
  have hreads := hh.read (s.killed p) hle
  rw [hr] at hreads
  dsimp only at hreads
  obtain ⟨⟨rest, hrest, hholds⟩, hdata, -, hsleep⟩ := hreads
  -- whoever is still asleep had nothing to read, so that this reader found nothing either
  have hothers : ∀ q, p ≠ q → ReaderOk (e :: h) inp q (s.proc q) := by
    intro q hne
    have hq := hi.reader q
    cases hpc : s.proc q with
    | out => trivial
    | reading target' n' dst' asleep =>
      rw [hpc] at hq
      refine ⟨?_, hq.2.1, hq.2.2.1, fun ha => ?_⟩
      · rw [hgiven, if_neg hne]
        exact hq.1
      · have hnil := hh.r_eq_w.1 (hq.2.2.2 ha)
        rw [hnil] at hrest
        exact hholds.r_eq_w.2 (List.append_eq_nil_iff.1 hrest.symm).2
  have hring : ∃ unread, (typed (e :: h)).committed = taken (e :: h) ++ unread ∧
      Holds (taken (e :: h)).length inp unread (typed (e :: h)).line := by
    refine ⟨rest, ?_, ?_⟩
    · rw [htyped, htaken, hc, hrest, List.append_assoc]
    · rw [htyped, htaken, List.length_append]
      exact hholds
  have hfilter : bs.filter (· ≠ ctl 'D') = bs := List.filter_eq_self.2 fun b hb => by
    have hne : b ≠ ctl 'D' := ne_of_mem_of_not_mem hb hdata
    simp [hne]
  have hcount : bs.count (ctl 'D') = 0 := List.count_eq_zero.2 hdata
  have hreader : ∀ q, ReaderOk (e :: h) inp q ((s.stop p target dst (bs, st, inp)).proc q) := by
    intro q
    rcases eq_or_ne p q with rfl | hne
    · cases st with
      | ret r =>
        simp only [State.stop, update_self]
        exact trivial
      | sleep m =>
        obtain ⟨hlen, hpos, hrw, -⟩ := hsleep m rfl
        simp only [State.stop, update_self]
        refine ⟨?_, ?_, hpos, fun _ => hrw⟩
        · rw [hgiven, if_pos rfl]
        · rw [List.length_append]
          omega
    · have hproc : (s.stop p target dst (bs, st, inp)).proc q = s.proc q := by
        cases st <;> exact update_of_ne hne.symm ..
      rw [hproc]
      exact hothers q hne
  have hstate : (s.stop p target dst (bs, st, inp)).input = inp ∧
    (s.stop p target dst (bs, st, inp)).isShowingTable = s.isShowingTable ∧
      (s.stop p target dst (bs, st, inp)).killed = s.killed := by
    cases st <;> exact ⟨rfl, rfl, rfl⟩
  refine ⟨by rw [hstate.1]; exact hring, by rw [hstate.2.1, htyped]; exact hi.table, fun q => by rw [hstate.1]; exact hreader q,
    fun q hk => ?_, ?_, ?_⟩
  · rw [hstate.2.2] at hk
    exact List.mem_cons_of_mem e (hi.killed q hk)
  · rw [hdeliv, htaken, hi.delivered, List.filter_append, got, List.filter_append, hfilter]
    split <;> simp
  · rw [hempty, htaken, hi.empty, List.count_append, got, List.count_append, hcount]
    split <;> simp

theorem step (hi : Inv h s) (hs : Step s e s') : Inv (e :: h) s' := by
  cases hs with
  | intr cs => exact hi.intr cs
  | @call p n bs st inp hp hr =>
    exact hi.read [] hr (Nat.zero_add n) rfl rfl (fun q => rfl) rfl rfl
  | @resume p target n dst bs st inp hp hr =>
    have hq := hi.reader p
    rw [hp] at hq
    obtain ⟨hdst, hlen, hpos, -⟩ := hq
    have htarget : 0 < target := by omega
    refine hi.read dst hr hlen rfl ?_ (fun q => ?_) rfl ?_
    · simp only [taken, got, htarget, Nat.one_pos]
    · rw [hdst]
      change (if p = q then given q h ++ bs else given q h) = _
      split
      · next he => rw [he]
      · rfl
    · simp only [emptyReads, htarget, true_and]
  | kill p => exact hi.kill p

end Inv

theorem Inv.run {h : List Ev} {s : State} (hr : consoleLts.Run h s) : Inv h s := by
  refine Lts.Run.invariant (S := consoleLts) (I := Inv) (fun s hs => ?_) (fun _ _ _ _ hi hs => hi.step hs) hr
  obtain rfl : s = Console.boot := hs
  exact .boot

/-! ### The line discipline -/

/-- In this event `consoleread` returns `r` in process `p`. -/
def Ev.Returns (p : Nat) (r : Int) : Ev → Prop
  | .call q _ _ st => q = p ∧ st = .ret r
  | .resume q _ st => q = p ∧ st = .ret r
  | _ => False

/-- The console in the state `s`, after the events `h`. -/
structure Disciplined (h : List Ev) (s : State) : Prop where
  /-- The counters run on: they are the numbers of characters read, committed and typed, wrapped to a word. -/
  r : s.input.r = BitVec.ofNat 32 (taken h).length
  w : s.input.w = BitVec.ofNat 32 (typed h).committed.length
  e : s.input.e = BitVec.ofNat 32 ((typed h).committed.length + (typed h).line.length)
  order : (taken h).length ≤ (typed h).committed.length ∧
    (typed h).committed.length + (typed h).line.length ≤ (taken h).length + INPUT_BUF
  full : s.input.e = s.input.r + BitVec.ofNat 32 INPUT_BUF → s.input.w = s.input.e
  /-- What is committed has been taken, in order and once, or is still in the ring. -/
  committed : (typed h).committed = taken h ++ Ring.queue INPUT_BUF s.input.buf s.input.r s.input.w
  line : (typed h).line = Ring.queue INPUT_BUF s.input.buf s.input.w s.input.e
  /-- Everything taken has been delivered but the `^D`s, and each of those was a read that returned nothing. -/
  delivered : delivered h = (taken h).filter (· ≠ ctl 'D')
  empty : emptyReads h = (taken h).count (ctl 'D')
  /-- A read returns what was delivered to it, or -1 if the process has been killed. -/
  returns : ∀ p r e h₀, e :: h₀ <:+ h → Ev.Returns p r e → r = (given p (e :: h₀)).length ∨ r = -1 ∧ .kill p ∈ h₀
  /-- No wakeup is lost. -/
  asleep : ∀ p target n dst, s.proc p = .reading target n dst true → s.input.r = s.input.w

theorem Step.returns {h : List Ev} {s s' : State} {e : Ev} {p : Nat} {r : Int} (hi : Inv h s)
    (hs : Step s e s') (hret : e.Returns p r) :
    r = (given p (e :: h)).length ∨ r = -1 ∧ .kill p ∈ h := by
  obtain ⟨unread, -, hh⟩ := hi.ring
  cases hs with
  | @call q n bs st inp hq hr =>
    obtain ⟨rfl, rfl⟩ := hret
    have hreads := hh.read (s.killed q) (Nat.le_refl n)
    rw [hr] at hreads
    dsimp only at hreads
    rcases hreads.ret r rfl with hr | ⟨hr, hk⟩
    · refine .inl ?_
      rw [given, if_pos rfl, hr]
      omega
    · exact .inr ⟨hr, hi.killed q hk⟩
  | @resume q target n dst bs st inp hq hr =>
    obtain ⟨rfl, rfl⟩ := hret
    have hp := hi.reader q
    rw [hq] at hp
    obtain ⟨hdst, hlen, -, -⟩ := hp
    have hle : n ≤ target := by omega
    have hreads := hh.read (s.killed q) hle
    rw [hr] at hreads
    dsimp only at hreads
    rcases hreads.ret r rfl with hr | ⟨hr, hk⟩
    · refine .inl ?_
      rw [given, if_pos rfl, ← hdst, List.length_append, hr]
      omega
    · exact .inr ⟨hr, hi.killed q hk⟩
  | intr => exact hret.elim
  | kill => exact hret.elim

/-- The line discipline loses and invents nothing, in every run. -/
theorem console_disciplined {h : List Ev} {s : State} (hr : consoleLts.Run h s) : Disciplined h s := by
  have hi := Inv.run hr
  obtain ⟨unread, hc, hh⟩ := hi.ring
  have hroom := hh.room
  rw [List.length_append] at hroom
  have hlen : (typed h).committed.length = (taken h).length + unread.length := by rw [hc, List.length_append]
  refine ⟨hh.r, ?_, ?_, ⟨by omega, by omega⟩, fun hfull => ?_, ?_, hh.split.2.symm, hi.delivered,
    hi.empty, fun p r e h₀ hsuf hret => ?_,
    fun p target n dst hp => ?_⟩
  · rw [hlen, hh.w]
  · rw [hlen, hh.e, List.length_append, Nat.add_assoc]
  · rw [Ring.full_iff (by decide), hh.length_eq] at hfull
    exact (hh.e_eq_w.2 (hh.full hfull)).symm
  · rw [hh.split.1, hc]
  · obtain ⟨s₁, s₂, hr₁, hs⟩ := hr.of_suffix hsuf
    exact Step.returns (Inv.run hr₁) hs hret
  · have hreader := hi.reader p
    rw [hp] at hreader
    exact hreader.2.2.2 rfl

/-- `ab`, backspace, return and `^D` are typed; one read gets the line and the next one nothing. -/
theorem console_disciplined_line : ∃ s, (taken [.call 0 10 [] (.ret 0), .call 0 10 [chr 'a', chr '\n'] (.ret 2),
      .intr [chr 'a', chr 'b', ctl 'H', chr '\r', ctl 'D']] = [chr 'a', chr '\n', ctl 'D']) ∧
    Disciplined [.call 0 10 [] (.ret 0), .call 0 10 [chr 'a', chr '\n'] (.ret 2),
      .intr [chr 'a', chr 'b', ctl 'H', chr '\r', ctl 'D']] s := by
  have h0 : consoleLts.Run [] boot := .init rfl
  have h1 := h0.step (.intr [chr 'a', chr 'b', ctl 'H', chr '\r', ctl 'D'])
  have h2 := h1.step (.call (p := 0) (n := 10) rfl rfl)
  have h3 := h2.step (.call (p := 0) (n := 10) rfl rfl)
  exact ⟨_, rfl, console_disciplined h3⟩

end Xv6.Console
