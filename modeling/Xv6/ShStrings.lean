import Mathlib.Data.List.Forall2
import Xv6.ShGrammar

/-!
# The strings of a command

`nulterminate` ends every string of a command with a 0 in the line itself. The byte after a word is
white, a symbol or the end of the line, never a byte of a word, so that no string loses a byte.
-/

namespace Xv6.Sh

open Prog

/-- The places where `nulterminate` writes. -/
def Cmd.ends : Cmd → List Nat
  | .exec argv => argv.map Prod.snd
  | .redir cmd _ efile _ _ => efile :: cmd.ends
  | .pipe left right => left.ends ++ right.ends
  | .list left right => left.ends ++ right.ends
  | .back cmd => cmd.ends

/-- The string of C at `q`, of less than `n` bytes. -/
def cstr (mem : Nat → Byte) : Nat → Nat → List Byte
  | 0, _ => []
  | n + 1, q => if mem q = 0 then [] else mem q :: cstr mem n (q + 1)

def Cmd.strings (mem : Nat → Byte) (n : Nat) : Cmd → Tree
  | .exec argv => .exec (argv.map fun p => cstr mem n p.1)
  | .redir cmd file _ mode fd => .redir (cmd.strings mem n) (cstr mem n file) mode fd
  | .pipe left right => .pipe (left.strings mem n) (right.strings mem n)
  | .list left right => .list (left.strings mem n) (right.strings mem n)
  | .back cmd => .back (cmd.strings mem n)

theorem foldl_update_apply (argv : List (Nat × Nat)) (mem : Nat → Byte) (k : Nat) :
    argv.foldl (fun mem p => Function.update mem p.2 0) mem k = if k ∈ argv.map Prod.snd then 0 else mem k := by
  induction argv generalizing mem with
  | nil => simp
  | cons p argv ih =>
    rw [List.foldl_cons, ih]
    simp only [List.map_cons, List.mem_cons]
    by_cases hk : k = p.2
    · simp [hk]
    · simp only [Function.update_of_ne hk, or_iff_right hk]

theorem nulterminate_apply (c : Cmd) (mem : Nat → Byte) (k : Nat) :
    nulterminate c mem k = if k ∈ c.ends then 0 else mem k := by
  induction c generalizing mem with
  | exec argv => exact foldl_update_apply argv mem k
  | redir c q eq m fd ih =>
    by_cases hk : k = eq
    · simp [nulterminate, Cmd.ends, hk]
    · simp [nulterminate, Cmd.ends, hk, ih]
  | pipe c c' ih ih' | list c c' ih ih' =>
    rw [nulterminate, ih', ih]
    by_cases h₁ : k ∈ c.ends <;> by_cases h₂ : k ∈ c'.ends <;> simp [Cmd.ends, h₁, h₂]
  | back c ih => exact ih mem

theorem cstr_eq {mem : Nat → Byte} (x : List Byte) : ∀ {n q}, (∀ k b, x[k]? = some b → mem (q + k) = b ∧ b ≠ 0) →
    mem (q + x.length) = 0 → x.length < n → cstr mem n q = x := by
  induction x with
  | nil =>
    intro n q _ h0 hn
    obtain ⟨n, rfl⟩ := Nat.exists_eq_succ_of_ne_zero (by omega : n ≠ 0)
    exact if_pos h0
  | cons b x ih =>
    intro n q hx h0 hn
    obtain ⟨n, rfl⟩ := Nat.exists_eq_succ_of_ne_zero (by omega : n ≠ 0)
    obtain ⟨hb, hb0⟩ := hx 0 b rfl
    rw [Nat.add_zero] at hb
    rw [cstr, hb, if_neg hb0]
    have hx' : ∀ k b', x[k]? = some b' → mem (q + 1 + k) = b' ∧ b' ≠ 0 := by
      intro k b' hk
      have := hx (k + 1) b' hk
      rwa [← Nat.add_assoc, Nat.add_right_comm] at this
    rw [List.length_cons, ← Nat.add_assoc, Nat.add_right_comm] at h0
    rw [ih hx' h0 (by rw [List.length_cons] at hn; omega)]

section

variable {buf x : List Byte} {q eq : Nat} {c : Cmd} {t : Tree} {mem : Nat → Byte}

theorem WordAt.get (h : WordAt buf q eq x) {k : Nat} {b : Byte} (hk : x[k]? = some b) : buf[q + k]? = some b := by
  obtain ⟨pre, post, rfl, rfl, -, -⟩ := h.split
  have hlt := (List.getElem?_eq_some_iff.1 hk).1
  rw [List.append_assoc, List.getElem?_append_right (by omega), Nat.add_sub_cancel_left, List.getElem?_append_left hlt, hk]

theorem WordAt.stop (h : WordAt buf q eq x) : ∀ b, buf[eq]? = some b → isWord b = false := by
  obtain ⟨pre, post, rfl, rfl, rfl, hstop⟩ := h.split
  intro b hb
  rw [List.getElem?_append_right (by rw [List.length_append]), List.length_append, Nat.sub_self, ← List.head?_eq_getElem?] at hb
  exact hstop b hb

theorem WordAt.bounds (h : WordAt buf q eq x) : eq = q + x.length ∧ eq ≤ buf.length := by
  obtain ⟨pre, post, rfl, rfl, rfl, -⟩ := h.split
  refine ⟨rfl, ?_⟩
  rw [List.length_append, List.length_append]
  omega

theorem Means.ends_stop (h : Means buf c t) : ∀ k ∈ c.ends, ∀ b, buf[k]? = some b → isWord b = false := by
  induction h with
  | @exec argv ws hw =>
    intro k hk
    obtain ⟨p, hp, rfl⟩ := List.mem_map.1 hk
    induction hw with
    | nil => cases hp
    | cons hx _ ih =>
      rcases List.mem_cons.1 hp with rfl | hp
      · exact hx.stop
      · exact ih hp (List.mem_map_of_mem hp)
  | redir _ hx ih =>
    intro k hk
    rcases List.mem_cons.1 hk with rfl | hk
    · exact hx.stop
    · exact ih k hk
  | pipe _ _ ih ih' | list _ _ ih ih' =>
    intro k hk
    rcases List.mem_append.1 hk with hk | hk
    · exact ih k hk
    · exact ih' k hk
  | back _ ih => exact ih

theorem WordAt.cstr (h : WordAt buf q eq x) (h0 : 0 ∉ buf) (hmem : ∀ k b, buf[k]? = some b → isWord b = true → mem k = b)
    (hend : mem eq = 0) : Sh.cstr mem (buf.length + 1) q = x := by
  obtain ⟨heq, hle⟩ := h.bounds
  refine cstr_eq x (fun k b hk => ?_) (heq ▸ hend) (by omega)
  have hb := h.get hk
  have hword := h.word b (List.mem_of_getElem? hk)
  refine ⟨hmem _ b hb hword, ?_⟩
  rintro rfl
  exact h0 (List.mem_of_getElem? hb)

theorem Means.strings (h : Means buf c t) (h0 : 0 ∉ buf) (hmem : ∀ k b, buf[k]? = some b → isWord b = true → mem k = b) :
    (∀ k ∈ c.ends, mem k = 0) → c.strings mem (buf.length + 1) = t := by
  induction h with
  | @exec argv ws hw =>
    intro hend
    rw [Cmd.strings]
    congr 1
    induction hw with
    | nil => rfl
    | @cons p x _ _ hx _ ih =>
      have hx' := hx.cstr h0 hmem (hend p.2 (List.mem_cons_self ..))
      rw [List.map_cons, hx', ih fun k hk => hend k (List.mem_cons_of_mem _ hk)]
  | redir _ hx ih =>
    intro hend
    rw [Cmd.strings, hx.cstr h0 hmem (hend _ (List.mem_cons_self ..)), ih fun k hk => hend k (List.mem_cons_of_mem _ hk)]
  | pipe _ _ ih ih' | list _ _ ih ih' =>
    intro hend
    rw [Cmd.strings, ih fun k hk => hend k (List.mem_append_left _ hk), ih' fun k hk => hend k (List.mem_append_right _ hk)]
  | back _ ih =>
    intro hend
    rw [Cmd.strings, ih hend]

theorem Means.nulterminate (h : Means buf c t) (h0 : 0 ∉ buf) :
    c.strings (Sh.nulterminate c (memory buf)) (buf.length + 1) = t := by
  refine h.strings h0 ?_ ?_
  · intro k b hk hb
    rw [nulterminate_apply, if_neg fun hk' => by simp [h.ends_stop k hk' b hk] at hb]
    simp [memory, hk]
  · intro k hk
    rw [nulterminate_apply, if_pos hk]

/-! ## The parser -/

variable {E : Fault → Prop}

theorem at_start (buf : List Byte) : At buf buf (lex buf) := ⟨rfl, List.suffix_refl buf⟩

theorem parseall_sound (buf : List Byte) : wp (parseall buf.length) (fun c _ => ∃ t, Derives .line (lex buf) t ∧ Means buf c t)
    Complaint buf := by
  have hlen := lex_length_le buf
  refine ((parse_sound _).1 (by omega) (at_start buf)).bind ?_
  rintro c w ⟨a, rest, t, ha, h, hd, hc⟩
  refine (peek_spec (by decide) h).bind ?_
  rintro r w' ⟨-, -, hw⟩
  refine wp_bind.2 (wp_get.2 (wp_bind.2 (wp_failIf.2 ⟨fun _ => .leftovers, fun hn => ?_⟩)))
  rw [hw.1 (not_not.1 hn), List.append_nil] at ha
  exact ⟨t, ha ▸ hd, hc⟩

theorem parseall_complete (h : Derives .line (lex buf) t) : wp (parseall buf.length) (fun c _ => Means buf c t) E buf := by
  have hlen := lex_length_le buf
  have hat : At buf buf (lex buf ++ []) := by
    rw [List.append_nil]
    exact at_start buf
  refine (parse_complete h (Follow.nil .line) hat (by simp only [Nt.depth]; omega : _ ≤ 2 * buf.length + 2)).bind ?_
  rintro c w ⟨hw, hc⟩
  refine (peek_spec (by decide) hw).bind ?_
  rintro r w' ⟨-, -, hw'⟩
  exact wp_bind.2 (wp_get.2 (wp_bind.2 (wp_failIf.2 ⟨fun hn => absurd (hw'.2 rfl) hn, fun _ => hc⟩)))

end

/-- `parsecmd` returns a tree for the lines of the grammar only: the one tree that the grammar gives,
its strings being the words of the line. For every other line it ends in a complaint; it never runs on,
and never stores past the end of `argv`. -/
theorem parsecmd_grammar (buf : List Byte) (h0 : 0 ∉ buf) :
    match parsecmd buf with
    | .ok (cmd, mem) => Derives .line (lex buf) (cmd.strings mem (buf.length + 1)) ∧
        ∀ t, Derives .line (lex buf) t → t = cmd.strings mem (buf.length + 1)
    | .error e => Complaint e ∧ ∀ t, ¬ Derives .line (lex buf) t := by
  unfold parsecmd
  cases hr : (parseall buf.length).run buf with
  | ok r =>
    obtain ⟨cmd, w⟩ := r
    obtain ⟨t, hd, hc⟩ := (parseall_sound buf).of_ok hr
    refine ⟨?_, fun t' hd' => ?_⟩
    · rw [hc.nulterminate h0]
      exact hd
    · have hc' := (parseall_complete (E := fun _ => False) hd').of_ok hr
      exact (hc'.nulterminate h0).symm
  | error e =>
    refine ⟨(parseall_sound buf).of_error hr, fun t hd => ?_⟩
    exact (parseall_complete (E := fun _ => False) hd).of_error hr

def sample : List Byte := [ch '(', ch 'l', ch 's', ch ';', ch 'w', ch 'c', ch ')', ch '>', ch 'f',
    ch '|', ch 'a', ch ' ', ch 'x', ch '&']

def sampleTree : Tree := .back (.pipe
  (.redir (.list (.exec [[ch 'l', ch 's']]) (.exec [[ch 'w', ch 'c']])) [ch 'f'] 0x201 1) (.exec [[ch 'a'], [ch 'x']]))

def sampleCmd : Cmd := .back (.pipe
  (.redir (.list (.exec [(1, 3)]) (.exec [(4, 6)])) 8 9 0x201 1) (.exec [(10, 11), (12, 13)]))

theorem parsecmd_grammar_sample : Derives .line (lex sample) sampleTree := by
  have h := parsecmd_grammar sample (by decide)
  have hr : (parseall sample.length).result sample = some sampleCmd := by decide +kernel
  have hs : sampleCmd.strings (nulterminate sampleCmd (memory sample)) (sample.length + 1) = sampleTree := by decide +kernel
  rw [parsecmd, run_eq_final hr] at h
  exact hs ▸ h.1

end Xv6.Sh
