import Xv6.GrepMatch
import Xv6.Memmove
import Xv6.ShStrings

/-!
# The lines that `grep` writes (`grep.c`)

`grep` reads into a buffer of 1024 bytes, writes the matching lines that end in it and moves the
unfinished line to the beginning. If the buffer has no newline it is dropped, so that a piece without a
newline is lost together with what was kept before.
-/

namespace Xv6.Grep

open Function

abbrev newline : Byte := 0x0A

def strchr (b : Memory) (c : Byte) : (n p : Nat) → Option Nat
  | 0, _ => none
  | n + 1, p => if b p = 0 then none else if b p = c then some p else strchr b c n (p + 1)

/-- The loop over the lines in the buffer: the buffer, the beginning of the rest and the output after it. -/
def lines (re : List Byte) : (n : Nat) → Memory → (p : Nat) → List Byte → Memory × Nat × List Byte
  | 0, b, p, out => (b, p, out)
  | n + 1, b, p, out =>
    match strchr b newline 1024 p with
    | none => (b, p, out)
    | some q =>
      if matchText re (Sh.cstr (update b q 0) 1024 p) = true then
        lines re n (update (update b q 0) q newline) (q + 1) (out ++ (List.range (q + 1 - p)).map
          fun i => update (update b q 0) q newline (p + i))
      else lines re n (update b q 0) (q + 1) out

structure State where
  buf : Memory
  m : Nat
  out : List Byte

/-- What `read` does to the buffer. -/
def fill (b : Memory) (p : Nat) (c : List Byte) : Memory := fun k => if p ≤ k ∧ k < p + c.length then c.getD (k - p) 0 else b k

/-- One round of the loop of `grep`, in which `read` has returned `c`. -/
def round (re : List Byte) (s : State) (c : List Byte) : State :=
  let r := lines re 1024 (update (fill s.buf s.m c) (s.m + c.length) 0) 0 s.out
  let m := if r.2.1 = 0 then 0 else s.m + c.length
  if 0 < m then ⟨Ulib.memmove r.1 0 r.2.1 (m - r.2.1), m - r.2.1, r.2.2⟩ else ⟨r.1, m, r.2.2⟩

/-- The output, if the calls of `read` return the pieces `cs` and then 0; `none` if one is longer than was asked for. -/
def grep (re : List Byte) : List (List Byte) → State → Option (List Byte)
  | [], s => some s.out
  | c :: cs, s => if c.length ≤ 1024 - s.m - 1 then grep re cs (round re s c) else none

def cut : List Byte → List (List Byte) × List Byte
  | [] => ([], [])
  | b :: s =>
    if b = newline then ([] :: (cut s).1, (cut s).2)
    else match (cut s).1 with
      | [] => ([], b :: (cut s).2)
      | l :: ls => ((b :: l) :: ls, (cut s).2)

def matching (re s : List Byte) : List Byte := ((cut s).1.filter (matchText re)).flatMap (· ++ [newline])

section

variable {re l r s t c : List Byte} {cs : List (List Byte)} {b : Memory} {p n : Nat}

theorem cut_cons (hl : newline ∉ l) : cut (l ++ newline :: r) = (l :: (cut r).1, (cut r).2) := by
  induction l with
  | nil => rw [List.nil_append, cut, if_pos rfl]
  | cons b l ih =>
    obtain ⟨hb, hl⟩ := List.ne_and_not_mem_of_not_mem_cons hl
    rw [List.cons_append, cut, if_neg hb.symm, ih hl]

theorem cut_single (hl : newline ∉ l) : cut l = ([], l) := by
  induction l with
  | nil => rfl
  | cons b l ih =>
    obtain ⟨hb, hl⟩ := List.ne_and_not_mem_of_not_mem_cons hl
    rw [cut, if_neg hb.symm, ih hl]

theorem lines_induction {P : List Byte → Prop} (single : ∀ l, newline ∉ l → P l)
    (cons : ∀ l r, newline ∉ l → P r → P (l ++ newline :: r))
    (s : List Byte) : P s := by
  by_cases hs : newline ∈ s
  · obtain ⟨l, r, rfl, hl⟩ := List.eq_append_cons_of_mem hs
    exact cons l r hl (lines_induction single cons r)
  · exact single s hs
termination_by s.length
decreasing_by
  subst_vars
  simp only [List.length_append, List.length_cons]
  omega

theorem newline_not_mem_tail (s : List Byte) : newline ∉ (cut s).2 := by
  induction s using lines_induction with
  | single l hl => rwa [cut_single hl]
  | cons l r hl ih => rwa [cut_cons hl]

theorem cut_append (s t : List Byte) : cut (s ++ t) = ((cut s).1 ++ (cut ((cut s).2 ++ t)).1, (cut ((cut s).2 ++ t)).2) := by
  induction s using lines_induction with
  | single l hl => rw [cut_single hl, List.nil_append]
  | cons l r hl ih => rw [List.append_assoc, List.cons_append, cut_cons hl, cut_cons hl, ih, List.cons_append]

theorem cut_join (s : List Byte) : (cut s).1.flatMap (· ++ [newline]) ++ (cut s).2 = s := by
  induction s using lines_induction with
  | single l hl => rw [cut_single hl, List.flatMap_nil, List.nil_append]
  | cons l r hl ih => rw [cut_cons hl, List.flatMap_cons, List.append_assoc, List.append_assoc, ih, List.singleton_append]

theorem length_tail_le (s : List Byte) : (cut s).2.length ≤ s.length := by
  have := congrArg List.length (cut_join s)
  rw [List.length_append] at this
  omega

theorem matching_append (re s t : List Byte) : matching re (s ++ t) = matching re s ++ matching re ((cut s).2 ++ t) := by
  rw [matching, cut_append, List.filter_append, List.flatMap_append, matching, matching]

theorem matching_single (hl : newline ∉ l) : matching re l = [] := by
  rw [matching, cut_single hl]
  rfl

/-! ### One round -/

/-- The text `s` is in the buffer from `p` on, with a NUL after it. -/
def At (b : Memory) (p : Nat) (s : List Byte) : Prop := ∀ k x, (s ++ [0])[k]? = some x → b (p + k) = x

theorem At.head {x : Byte} (h : At b p (x :: s)) : b p = x := h 0 x rfl

theorem At.drop (h : At b p (l ++ s)) : At b (p + l.length) s := fun k x hk => by
  rw [Nat.add_assoc]
  refine h _ x ?_
  rwa [List.append_assoc, List.getElem?_append_right (Nat.le_add_right ..), Nat.add_sub_cancel_left]

theorem At.take (h : At b p (l ++ s)) {k : Nat} {x : Byte} (hk : l[k]? = some x) : b (p + k) = x := by
  refine h k x ?_
  have hlt := (List.getElem?_eq_some_iff.1 hk).1
  rwa [List.append_assoc, List.getElem?_append_left hlt]

theorem At.tail {x : Byte} (h : At b p (x :: s)) : At b (p + 1) s := At.drop (l := [x]) h

theorem At.congr (h : At b p s) {b' : Memory} (hb : ∀ k, p ≤ k → b' k = b k) : At b' p s := fun k x hk => by
  rw [hb _ (Nat.le_add_right ..), h k x hk]

theorem strchr_none (hb : At b p l) (hl : newline ∉ l) : strchr b newline n p = none := by
  induction n generalizing p l with
  | zero => rfl
  | succ n ih =>
    rw [strchr]
    cases l with
    | nil => rw [show b p = 0 from hb 0 0 rfl, if_pos rfl]
    | cons x l =>
      obtain ⟨hx, hl⟩ := List.ne_and_not_mem_of_not_mem_cons hl
      rw [hb.head, if_neg hx.symm, ih hb.tail hl, ite_self]

theorem strchr_some (h0 : 0 ∉ l) (hl : newline ∉ l) (hb : At b p (l ++ newline :: r)) (hn : l.length < n) :
    strchr b newline n p = some (p + l.length) := by
  induction n generalizing p l with
  | zero => omega
  | succ n ih =>
    rw [strchr]
    cases l with
    | nil =>
      rw [hb.head, if_neg (by decide), if_pos rfl]
      rfl
    | cons x l =>
      obtain ⟨hx, hl⟩ := List.ne_and_not_mem_of_not_mem_cons hl
      obtain ⟨hx0, h0⟩ := List.ne_and_not_mem_of_not_mem_cons h0
      rw [hb.head, if_neg hx0.symm, if_neg hx.symm, ih h0 hl hb.tail (by simpa using hn), List.length_cons]
      congr 1
      omega

theorem map_range_at {w : List Byte} (h : ∀ k x, w[k]? = some x → b (p + k) = x) :
    (List.range w.length).map (fun i => b (p + i)) = w :=
  List.ext_getElem (by simp) fun k hk hk' => by
    rw [List.getElem_map, List.getElem_range]
    exact h k _ (List.getElem?_eq_getElem hk')

theorem lines_spec (re s : List Byte) : ∀ {n : Nat} {b : Memory} {p : Nat} {out : List Byte}, 0 ∉ s →
    At b p s → p + s.length < 1024 → s.length < n →
    ∃ b' q, lines re n b p out = (b', q, out ++ matching re s) ∧ q + (cut s).2.length = p + s.length ∧
      ∀ k, q ≤ k → b' k = b k := by
  induction s using lines_induction with
  | single l hl =>
    intro n b p out _ hb hp hn
    obtain ⟨n, rfl⟩ := Nat.exists_eq_succ_of_ne_zero (show n ≠ 0 by omega)
    rw [lines, strchr_none hb hl, matching_single hl, cut_single hl, List.append_nil]
    exact ⟨b, p, rfl, rfl, fun _ _ => rfl⟩
  | cons l r hl ih =>
    intro n b p out h0 hb hp hn
    obtain ⟨n, rfl⟩ := Nat.exists_eq_succ_of_ne_zero (show n ≠ 0 by omega)
    simp only [List.mem_append, List.mem_cons, not_or] at h0
    simp only [List.length_append, List.length_cons] at hp hn
    have hout : ∀ k, p + l.length + 1 ≤ k → update b (p + l.length) 0 k = b k := fun k hk => update_of_ne (by omega) ..
    have hrest : At b (p + l.length + 1) r := hb.drop.tail
    have hstr : Sh.cstr (update b (p + l.length) 0) 1024 p = l := by
      refine Sh.cstr_eq l (fun k x hk => ⟨?_, ?_⟩) (update_self ..) (by omega)
      · have hlt := (List.getElem?_eq_some_iff.1 hk).1
        rw [update_of_ne (by omega), hb.take hk]
      · rintro rfl
        exact h0.1 (List.mem_of_getElem? hk)
    rw [lines, strchr_some h0.1 hl hb (by omega)]
    dsimp only
    rw [hstr, matching, cut_cons hl]
    split
    · next hm =>
      -- the newline is put back
      have hback : update (update b (p + l.length) 0) (p + l.length) newline = b := by
        rw [update_idem, ← hb.drop.head, update_eq_self]
      have hline : (List.range (p + l.length + 1 - p)).map (fun i => b (p + i)) = l ++ [newline] := by
        rw [show p + l.length + 1 - p = (l ++ [newline]).length by simp; omega]
        refine map_range_at fun k x hk => At.take (s := r) ?_ hk
        rwa [List.append_assoc]
      rw [hback, hline]
      obtain ⟨b', q, he, hq, hb'⟩ := @ih n _ _ (out ++ (l ++ [newline])) h0.2.2 hrest (by omega) (by omega)
      refine ⟨b', q, ?_, by simp; omega, hb'⟩
      rw [he, List.filter_cons_of_pos hm, List.flatMap_cons, List.append_assoc]
      rfl
    · next hm =>
      obtain ⟨b', q, he, hq, hb'⟩ := @ih n _ _ out h0.2.2 (hrest.congr hout) (by omega) (by omega)
      have := length_tail_le r
      refine ⟨b', q, ?_, by simp; omega, fun k hk => ?_⟩
      · rw [he, List.filter_cons_of_neg hm]
        rfl
      · rw [hb' k hk, hout k (by omega)]

def kept (s : List Byte) : List Byte := if newline ∈ s then (cut s).2 else []

/-- The buffer begins with the text `t`. -/
def Begun (t : List Byte) (s : State) : Prop := s.m = t.length ∧ ∀ k x, t[k]? = some x → s.buf k = x

theorem tail_lt (hs : newline ∈ s) : (cut s).2.length < s.length := by
  obtain ⟨l, r, rfl, hl⟩ := List.eq_append_cons_of_mem hs
  have := length_tail_le r
  rw [cut_cons hl, List.length_append, List.length_cons]
  exact Nat.lt_of_le_of_lt this (by omega)

theorem At.filled {s : State} (h : Begun t s) : At (update (fill s.buf s.m c) (s.m + c.length) 0) 0 (t ++ c) := fun k x hk => by
  obtain ⟨hm, ht⟩ := h
  rw [Nat.zero_add, hm]
  rw [List.append_assoc, List.getElem?_append, List.getElem?_append] at hk
  split at hk
  · rw [update_of_ne (by omega), fill, if_neg (by omega), ht k x hk]
  · split at hk
    · rw [update_of_ne (by omega), fill, if_pos ⟨by omega, by omega⟩, List.getD_eq_getElem?_getD, hk]
      rfl
    · have hlt := (List.getElem?_eq_some_iff.1 hk).1
      rw [List.length_singleton] at hlt
      obtain rfl : k = t.length + c.length := by omega
      rw [Nat.add_sub_cancel_left, Nat.sub_self] at hk
      rw [update_self]
      exact Option.some.inj hk

theorem round_spec (re : List Byte) {s : State} (h : Begun t s) (h0 : 0 ∉ t ++ c) (hlen : t.length + c.length < 1024) :
    Begun (kept (t ++ c)) (round re s c) ∧ (round re s c).out = s.out ++ matching re (t ++ c) := by
  obtain ⟨b', q, he, hq, hb'⟩ := @lines_spec re (t ++ c) 1024 _ _ s.out h0 (At.filled h) (by simp; omega) (by simp; omega)
  have hm := h.1
  rw [List.length_append] at hq
  rw [round, he, kept]
  dsimp only
  by_cases hn : newline ∈ t ++ c
  · have hlt := tail_lt hn
    rw [List.length_append] at hlt
    rw [if_pos hn, if_neg (show ¬ q = 0 by omega), if_pos (by omega)]
    have hcopy : Copied 0 q (s.m + c.length - q) b' _ := (ulib_copied_iff (by omega) (by omega)).2 ?_
    · refine ⟨⟨by simp only; omega, fun k x hk => ?_⟩, rfl⟩
      have hk' := (List.getElem?_eq_some_iff.1 hk).1
      have hin := hcopy.inside k (by omega)
      rw [Nat.zero_add] at hin
      have hat := At.filled (c := c) h
      rw [← cut_join (t ++ c)] at hat
      have hlen : q = 0 + ((cut (t ++ c)).1.flatMap (· ++ [newline])).length := by
        have := congrArg List.length (cut_join (t ++ c))
        rw [List.length_append, List.length_append] at this
        omega
      refine hin.trans ?_
      rw [hb' _ (by omega), hlen]
      exact hat.drop k x (by rwa [List.getElem?_append_left hk'])
    · rw [Harmless, if_pos (by omega)]
      exact .inl (Nat.zero_le q)
  · have htail : (cut (t ++ c)).2.length = t.length + c.length := by rw [cut_single hn, List.length_append]
    rw [if_neg hn, if_pos (show q = 0 by omega), if_neg (Nat.lt_irrefl 0)]
    exact ⟨⟨rfl, fun k x hk => by cases hk⟩, rfl⟩

/-! ### All rounds -/

/-- The output for the pieces `cs` if `t` has been kept. -/
def written (re : List Byte) : (t : List Byte) → List (List Byte) → List Byte
  | _, [] => []
  | t, c :: cs => matching re (t ++ c) ++ written re (kept (t ++ c)) cs

theorem kept_suffix (s : List Byte) : kept s <:+ s := by
  rw [kept]
  split
  · exact ⟨_, cut_join s⟩
  · exact List.nil_suffix

theorem grep_eq (re : List Byte) {s : State} (h : Begun t s) (ht : t.length < 1024)
    (h0 : 0 ∉ t ++ cs.flatten) (hr : grep re cs s ≠ none) :
    grep re cs s = some (s.out ++ written re t cs) := by
  induction cs generalizing t s with
  | nil => rw [grep, written, List.append_nil]
  | cons c cs ih =>
    rw [grep] at hr ⊢
    split at hr
    · next hlen =>
      rw [if_pos hlen]
      have hm := h.1
      rw [List.flatten_cons, ← List.append_assoc, List.mem_append, not_or] at h0
      obtain ⟨hround, hout⟩ := round_spec re h h0.1 (by omega)
      have hsuf := kept_suffix (t ++ c)
      have hlt := hsuf.length_le
      rw [List.length_append] at hlt
      rw [ih hround (by omega) (List.not_mem_append (fun hk => h0.1 (hsuf.subset hk)) h0.2) hr, hout, written, List.append_assoc]
    · exact absurd rfl hr

def Whole (cs : List (List Byte)) : Prop := ∀ a c b, cs = a ++ c :: b → newline ∈ b.flatten → newline ∈ c

theorem Whole.tail (h : Whole (c :: cs)) : Whole cs := fun a d b he => h (c :: a) d b (by rw [he]; rfl)

theorem written_whole (re : List Byte) (hw : Whole cs) (ht : newline ∉ t) : written re t cs = matching re (t ++ cs.flatten) := by
  induction cs generalizing t with
  | nil =>
    rw [List.flatten_nil, List.append_nil, matching_single ht]
    rfl
  | cons c cs ih =>
    rw [written, List.flatten_cons, ← List.append_assoc, matching_append re (t ++ c), kept]
    by_cases hc : newline ∈ c
    · rw [if_pos (List.mem_append.2 (.inr hc)), ih hw.tail (newline_not_mem_tail _)]
    · -- no newline follows
      have hcs : newline ∉ cs.flatten := fun hm => hc (hw [] c cs rfl hm)
      have htc : newline ∉ t ++ c := List.not_mem_append ht hc
      rw [if_neg htc, ih hw.tail List.not_mem_nil, List.nil_append, matching_single hcs, cut_single htc,
        matching_single (List.not_mem_append htc hcs), matching_single htc]

theorem matchText_nil (s : List Byte) : matchText [] s = true := by
  cases s <;> rfl

theorem length_matching_nil (s : List Byte) : (matching [] s).length + (cut s).2.length = s.length := by
  have h : (cut s).1.filter (matchText []) = (cut s).1 := List.filter_eq_self.2 fun l _ => matchText_nil l
  rw [matching, h, ← List.length_append, cut_join]

theorem length_matching_append (hl : newline ∉ l) (r : List Byte) :
    (matching [] (l ++ r)).length = (matching [] r).length + if newline ∈ r then l.length else 0 := by
  split
  · next hr =>
    obtain ⟨l', r, rfl, hl'⟩ := List.eq_append_cons_of_mem hr
    have h1 := length_matching_nil (l ++ (l' ++ newline :: r))
    have h2 := length_matching_nil (l' ++ newline :: r)
    rw [cut_cons hl'] at h2
    rw [← List.append_assoc, cut_cons (List.not_mem_append hl hl'), List.append_assoc, List.length_append] at h1
    dsimp only at h1 h2
    omega
  · next hr => rw [matching_single hr, matching_single (List.not_mem_append hl hr), Nat.add_zero]

theorem Whole.cons (h : Whole cs) (hc : newline ∈ cs.flatten → newline ∈ c) : Whole (c :: cs) := by
  rintro (_ | ⟨a, as⟩) d b he hb
  · obtain ⟨rfl, rfl⟩ := List.cons.inj he
    exact hc hb
  · exact h as d b (List.cons.inj he).2 hb

theorem length_written (hne : ∀ c ∈ cs, c ≠ []) (ht : newline ∉ t) :
    (written [] t cs).length ≤ (matching [] (t ++ cs.flatten)).length ∧
    ((written [] t cs).length = (matching [] (t ++ cs.flatten)).length → Whole cs) := by
  induction cs generalizing t with
  | nil => exact ⟨Nat.zero_le _, fun _ a c b he => by simp at he⟩
  | cons c cs ih =>
    obtain ⟨hc0, hne⟩ := List.forall_mem_cons.1 hne
    rw [written, List.flatten_cons, ← List.append_assoc, matching_append [] (t ++ c),
      List.length_append, List.length_append, kept]
    by_cases hc : newline ∈ c
    · rw [if_pos (List.mem_append.2 (.inr hc))]
      obtain ⟨hle, heq⟩ := ih hne (newline_not_mem_tail (t ++ c))
      exact ⟨by omega, fun he => (heq (by omega)).cons fun _ => hc⟩
    · have htc : newline ∉ t ++ c := List.not_mem_append ht hc
      obtain ⟨hle, heq⟩ := ih hne List.not_mem_nil
      rw [List.nil_append] at hle heq
      rw [if_neg htc, matching_single htc, cut_single htc, length_matching_append htc]
      have hpos := List.length_pos_iff.2 hc0
      rw [List.length_append]
      refine ⟨by omega, fun he => ?_⟩
      -- the piece is lost, so that nothing may come after it
      by_cases hcs : newline ∈ cs.flatten
      · rw [if_pos hcs] at he
        omega
      · rw [if_neg hcs] at he
        exact (heq (by simpa using he)).cons fun h => absurd h hcs

/-- `grep` writes the matching lines of its input, for every pattern, just if every piece that comes
before a newline has one. -/
theorem grep_iff {cs : List (List Byte)} (b : Memory) (h0 : 0 ∉ cs.flatten) (hne : ∀ c ∈ cs, c ≠ [])
    (hread : ∀ re, grep re cs ⟨b, 0, []⟩ ≠ none) :
    (∀ re, grep re cs ⟨b, 0, []⟩ = some (matching re cs.flatten)) ↔ Whole cs := by
  have heq : ∀ re, grep re cs ⟨b, 0, []⟩ = some (written re [] cs) := fun re =>
    grep_eq re (t := []) ⟨rfl, fun k x hk => by cases hk⟩ (by decide) h0 (hread re)
  constructor
  · intro h
    have hnil := Option.some.inj ((heq []).symm.trans (h []))
    refine (length_written hne List.not_mem_nil).2 ?_
    rw [hnil, List.nil_append]
  · intro h re
    rw [heq, written_whole re h List.not_mem_nil, List.nil_append]

theorem round_m_le (re : List Byte) (s : State) (c : List Byte) : (round re s c).m ≤ s.m + c.length := by
  simp only [round]
  split <;> split <;> simp

/-- Two lines in two pieces, the second without its newline at first. -/
theorem grep_iff_two_reads : grep [] [[0x61, newline, 0x62], [newline]] ⟨fun _ => 0, 0, []⟩ =
    some (matching [] [0x61, newline, 0x62, newline]) := by
  have hwhole : Whole [[0x61, newline, 0x62], [newline]] := by
    rintro (_ | ⟨_, _ | _⟩) c b he hb
    · obtain ⟨rfl, rfl⟩ := List.cons.inj he
      decide
    · obtain ⟨-, he⟩ := List.cons.inj he
      obtain ⟨rfl, rfl⟩ := List.cons.inj he
      cases hb
    · simp at he
  refine (@grep_iff [[0x61, newline, 0x62], [newline]] (fun _ => 0) (by decide) (by decide) fun re => ?_).2 hwhole []
  have hm := round_m_le re ⟨fun _ => 0, 0, []⟩ [0x61, newline, 0x62]
  simp only [List.length_cons, List.length_nil] at hm
  rw [grep, if_pos (by decide), grep, if_pos (by simp only [List.length_cons, List.length_nil]; omega)]
  exact Option.some_ne_none _

/-- A line that comes in two pieces, the first without a newline. -/
theorem grep_drops_piece : grep [] [[0x61], [newline]] ⟨fun _ => 0, 0, []⟩ = some [newline] ∧ matching
    [] [0x61, newline] = [0x61, newline] := by
  decide +kernel

end

end Xv6.Grep
