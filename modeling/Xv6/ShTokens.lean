import Mathlib.Data.List.DropRight
import Mathlib.Data.List.TakeWhile
import Xv6.Sh

/-!
# The tokens of a command line

`lex` cuts a line into tokens. `peek` looks at the first token of what is left of the line, and
`gettoken` takes it away; for a word it returns the place of the word in the line.
-/

namespace Xv6.Sh

open Prog

inductive Tok
  | word (x : List Byte)
  | lt | gt | gtgt | bar | amp | semi | lpar | rpar
deriving DecidableEq, Repr

/-- The token that starts with the byte `c`, which is not white, and what is left of the text `t` after `c`. -/
def first (c : Byte) (t : List Byte) : Tok × List Byte :=
  if c = ch '<' then (.lt, t)
  else if c = ch '|' then (.bar, t)
  else if c = ch '>' then if t.head? = some (ch '>') then (.gtgt, t.tail) else (.gt, t)
  else if c = ch '&' then (.amp, t)
  else if c = ch ';' then (.semi, t)
  else if c = ch '(' then (.lpar, t)
  else if c = ch ')' then (.rpar, t)
  else (.word (c :: t.takeWhile isWord), t.dropWhile isWord)

/-- What `gettoken` returns for a token. -/
def Tok.code : Tok → Byte
  | .word _ => ch 'a'
  | .lt => ch '<'
  | .gt => ch '>'
  | .gtgt => ch '+'
  | .bar => ch '|'
  | .amp => ch '&'
  | .semi => ch ';'
  | .lpar => ch '('
  | .rpar => ch ')'

/-- The token starts with one of the symbols `toks`. -/
def Tok.startsIn (toks : List Byte) : Tok → Bool
  | .word _ => false
  | .gtgt => toks.contains (ch '>')
  | k => toks.contains k.code

theorem first_suffix (c : Byte) (t : List Byte) : (first c t).2 <:+ t := by
  unfold first
  repeat' split
  all_goals first
    | exact List.suffix_refl t
    | exact List.tail_suffix t
    | exact List.dropWhile_suffix _

theorem isWord_of_not_mem {c : Byte} (hw : isWhite c = false) (hs : c ∉ symbols) : isWord c = true := by
  have hs' : symbols.contains c = false := by simpa using hs
  unfold isWhite at hw
  unfold isWord
  rw [hw, hs']
  rfl

theorem not_symbol_ne {c : Byte} (hs : c ∉ symbols) : c ≠ ch '<' ∧ c ≠ ch '|' ∧ c ≠ ch '>' ∧ c ≠ ch '&' ∧ c ≠ ch ';' ∧
    c ≠ ch '(' ∧ c ≠ ch ')' := by
  simpa [symbols, not_or] using hs

theorem first_word {c : Byte} {t : List Byte} (hs : c ∉ symbols) :
    first c t = (.word (c :: t.takeWhile isWord), t.dropWhile isWord) := by
  obtain ⟨h₁, h₂, h₃, h₄, h₅, h₆, h₇⟩ := not_symbol_ne hs
  simp [first, h₁, h₂, h₃, h₄, h₅, h₆, h₇]

theorem scan_word {c : Byte} {t : List Byte} (hs : c ∉ symbols) (hc : isWord c = true) :
    scan (c :: t) = (ch 'a', t.dropWhile isWord) := by
  obtain ⟨h₁, h₂, h₃, h₄, h₅, h₆, h₇⟩ := not_symbol_ne hs
  simp [scan, h₁, h₂, h₃, h₄, h₅, h₆, h₇, hc]

theorem scan_eq {c : Byte} (hw : isWhite c = false) (t : List Byte) :
    scan (c :: t) = ((first c t).1.code, (first c t).2) := by
  by_cases hs : c ∈ symbols
  · simp only [symbols, List.mem_cons, List.not_mem_nil, or_false] at hs
    rcases hs with rfl | rfl | rfl | rfl | rfl | rfl | rfl
    · rfl
    · rfl
    · cases t with
      | nil => rfl
      | cons d t =>
        by_cases hd : d = ch '>'
        · subst hd; rfl
        · have h₁ : scan (ch '>' :: d :: t) = (ch '>', d :: t) := by
            simp only [scan, List.headD_cons, hd, if_false, if_true]
            rfl
          have h₂ : first (ch '>') (d :: t) = (.gt, d :: t) := by
            simp only [first, List.head?_cons, Option.some.injEq, hd, if_false, if_true]
            rfl
          rw [h₁, h₂]
          rfl
    · rfl
    · rfl
    · rfl
    · rfl
  · rw [first_word hs, scan_word hs (isWord_of_not_mem hw hs)]
    rfl

theorem startsIn_first {c : Byte} {toks : List Byte} (ht : toks ⊆ symbols) (t : List Byte) :
    (first c t).1.startsIn toks = toks.contains c := by
  by_cases hs : c ∈ symbols
  · simp only [symbols, List.mem_cons, List.not_mem_nil, or_false] at hs
    rcases hs with rfl | rfl | rfl | rfl | rfl | rfl | rfl
    · rfl
    · rfl
    · have h : (first (ch '>') t).1 = .gtgt ∨ (first (ch '>') t).1 = .gt := by
        change (if t.head? = some (ch '>') then ((.gtgt, t.tail) : Tok × List Byte) else (.gt, t)).1 = .gtgt ∨
          (if t.head? = some (ch '>') then ((.gtgt, t.tail) : Tok × List Byte) else (.gt, t)).1 = .gt
        split
        · exact .inl rfl
        · exact .inr rfl
      rcases h with h | h <;> rw [h] <;> rfl
    · rfl
    · rfl
    · rfl
    · rfl
  · have hc : toks.contains c = false := by simpa using fun h => hs (ht h)
    rw [first_word hs, hc]
    rfl

theorem word_first {c : Byte} {t x : List Byte} (hw : isWhite c = false) (h : (first c t).1 = .word x) :
    c :: t = x ++ (first c t).2 ∧ (∀ b ∈ x, isWord b = true) ∧ ∀ b ∈ (first c t).2.head?, isWord b = false := by
  by_cases hs : c ∈ symbols
  · exfalso
    simp only [symbols, List.mem_cons, List.not_mem_nil, or_false] at hs
    rcases hs with rfl | rfl | rfl | rfl | rfl | rfl | rfl
    · cases h
    · cases h
    · change (if t.head? = some (ch '>') then ((.gtgt, t.tail) : Tok × List Byte) else (.gt, t)).1 = .word x at h
      split at h <;> cases h
    · cases h
    · cases h
    · cases h
    · cases h
  · rw [first_word hs] at h ⊢
    cases h
    refine ⟨?_, ?_, ?_⟩
    · exact congrArg (c :: ·) (List.takeWhile_append_dropWhile ..).symm
    · intro b hb
      rcases List.mem_cons.1 hb with rfl | hb
      · exact isWord_of_not_mem hw hs
      · exact List.mem_takeWhile_imp hb
    · intro b hb
      have := List.head?_dropWhile_not isWord t
      dsimp only at hb
      rw [Option.mem_def.1 hb] at this
      simpa using this

def lex (s : List Byte) : List Tok :=
  match _h : s.dropWhile isWhite with
  | [] => []
  | c :: t => (first c t).1 :: lex (first c t).2
termination_by s.length
decreasing_by
  have h₁ := (first_suffix c t).length_le
  have h₂ := (List.dropWhile_suffix (l := s) isWhite).length_le
  rw [_h, List.length_cons] at h₂
  omega

theorem lex_nil {s : List Byte} (h : s.dropWhile isWhite = []) : lex s = [] := by
  rw [lex]
  split
  · rfl
  · rename_i h'
    rw [h] at h'
    cases h'

theorem lex_cons {s : List Byte} {c : Byte} {t : List Byte} (h : s.dropWhile isWhite = c :: t) :
    lex s = (first c t).1 :: lex (first c t).2 := by
  rw [lex]
  split
  · rename_i h'
    rw [h] at h'
    cases h'
  · rename_i h'
    rw [h] at h'
    cases h'
    rfl

theorem lex_strip (s : List Byte) : lex (s.dropWhile isWhite) = lex s := by
  have hi : (s.dropWhile isWhite).dropWhile isWhite = s.dropWhile isWhite := List.dropWhile_idempotent ..
  cases h : s.dropWhile isWhite with
  | nil => rw [lex_nil h, lex_nil (by rfl)]
  | cons c t =>
    rw [h] at hi
    rw [lex_cons h, lex_cons hi]

theorem not_white {s t : List Byte} {c : Byte} (h : s.dropWhile isWhite = c :: t) : isWhite c = false := by
  have := List.head?_dropWhile_not isWhite s
  rw [h] at this
  simpa using this

theorem lex_length_le (s : List Byte) : (lex s).length ≤ s.length := by
  induction hn : s.length using Nat.strong_induction_on generalizing s with
  | _ n ih =>
    cases h : s.dropWhile isWhite with
    | nil => simp [lex_nil h]
    | cons c t =>
      have h₁ := (first_suffix c t).length_le
      have h₂ := (List.dropWhile_suffix (l := s) isWhite).length_le
      rw [h, List.length_cons] at h₂
      have h₃ := ih _ (by omega) (first c t).2 rfl
      rw [lex_cons h, List.length_cons]
      omega

/-- The bytes from `q` to `eq` of the line are the word `x`, which does not go on at `eq`. -/
structure WordAt (line : List Byte) (q eq : Nat) (x : List Byte) : Prop where
  split : ∃ pre post, line = pre ++ x ++ post ∧ q = pre.length ∧ eq = pre.length + x.length ∧ ∀ b ∈ post.head?, isWord b = false
  word : ∀ b ∈ x, isWord b = true

/-- What is left of the line are the tokens `ts`. -/
def At (line : List Byte) (w : List Byte) (ts : List Tok) : Prop := lex w = ts ∧ w <:+ line

/-- The first of the tokens starts with one of the symbols `toks`. -/
def startIn (toks : List Byte) : List Tok → Bool
  | [] => false
  | k :: _ => k.startsIn toks

section

variable {line w : List Byte} {ts : List Tok} {E : Fault → Prop}

theorem At.strip (h : At line w ts) : At line (w.dropWhile isWhite) ts :=
  ⟨(lex_strip w).trans h.1, (List.dropWhile_suffix _).trans h.2⟩

theorem At.length_le (h : At line w ts) : ts.length ≤ line.length := by
  rw [← h.1]
  exact (lex_length_le w).trans h.2.length_le

theorem peek_spec {toks : List Byte} (ht : toks ⊆ symbols) (h : At line w ts) :
    wp (peek toks) (fun r w' => r = startIn toks ts ∧ At line w' ts ∧ (w' = [] ↔ ts = [])) E w := by
  refine wp_bind.2 (wp_get.2 (wp_bind.2 ((wp_set _).2 ?_)))
  refine ⟨?_, h.strip, ?_⟩
  · cases hd : w.dropWhile isWhite with
    | nil => rw [← h.1, lex_nil hd]; rfl
    | cons c t => rw [← h.1, lex_cons hd]; exact (startsIn_first ht t).symm
  · cases hd : w.dropWhile isWhite with
    | nil => simp [← h.1, lex_nil hd]
    | cons c t => simp [← h.1, lex_cons hd]

theorem gettoken_end (h : At line w []) :
    wp (gettoken line.length) (fun r w' => r.1 = 0 ∧ At line w' []) E w := by
  refine wp_bind.2 (wp_get.2 ?_)
  cases hd : w.dropWhile isWhite with
  | nil =>
    refine wp_bind.2 ((wp_set _).2 ⟨rfl, ?_, List.nil_suffix⟩)
    exact lex_nil rfl
  | cons c t =>
    have := h.1
    rw [lex_cons hd] at this
    cases this

theorem gettoken_spec {k : Tok} (h : At line w (k :: ts)) :
    wp (gettoken line.length) (fun r w' => At line w' ts ∧ r.1 = k.code ∧ ∀ x, k = .word x → WordAt line r.2.1 r.2.2 x) E w := by
  refine wp_bind.2 (wp_get.2 ?_)
  cases hd : w.dropWhile isWhite with
  | nil =>
    have := h.1
    rw [lex_nil hd] at this
    cases this
  | cons c t =>
    have hw := not_white hd
    have hl := h.1
    rw [lex_cons hd] at hl
    obtain ⟨rfl, rfl⟩ := List.cons.inj hl
    have hsuf : c :: t <:+ line := hd ▸ h.strip.2
    have hr : (first c t).2 <:+ line := ((first_suffix c t).trans (List.suffix_cons c t)).trans hsuf
    dsimp only
    rw [scan_eq hw]
    refine wp_bind.2 ((wp_set _).2 ⟨⟨lex_strip _, (List.dropWhile_suffix _).trans hr⟩, rfl, fun x hx => ?_⟩)
    obtain ⟨heq, hword, hstop⟩ := word_first hw hx
    obtain ⟨pre, hpre⟩ := hsuf
    have hlen : line.length = pre.length + (x.length + (first c t).2.length) := by
      rw [← hpre, heq, List.length_append, List.length_append]
    have hlen' : (c :: t).length = x.length + (first c t).2.length := by rw [heq, List.length_append]
    refine ⟨⟨pre, (first c t).2, ?_, ?_, ?_, hstop⟩, hword⟩
    · rw [← hpre, heq, List.append_assoc]
    · dsimp only; omega
    · dsimp only; omega

end

end Xv6.Sh
