import Xv6.ShTokens

/-!
# The grammar of the shell

    line ::= pipe '&'* [';' line] pipe ::= exec ['|' pipe] exec ::= redir* (word redir*)* | '(' line ')'
    redir* redir ::= ('<' | '>' | '>>') word

`Derives` relates the tokens of each phrase to its tree. The parser returns a tree exactly for the lines
of the grammar, and the tree is the one that the grammar gives; for any other line it ends in one of its
four complaints. The strings of the tree are the words of the line, also after `nulterminate` has
written its zeros between them.
-/

namespace Xv6.Sh

open Prog

inductive Tree
  | exec (argv : List (List Byte))
  | redir (cmd : Tree) (file : List Byte) (mode fd : Nat)
  | pipe (left right : Tree)
  | list (left right : Tree)
  | back (cmd : Tree)
deriving DecidableEq, Repr

inductive Arrow
  | lt | gt | gtgt

def Arrow.tok : Arrow → Tok
  | .lt => .lt
  | .gt => .gt
  | .gtgt => .gtgt

def Arrow.mode : Arrow → Nat
  | .lt => O_RDONLY
  | .gt => O_WRONLY ||| O_CREATE
  | .gtgt => O_WRONLY ||| O_CREATE

def Arrow.fd : Arrow → Nat
  | .lt => 0
  | .gt => 1
  | .gtgt => 1

/-- `redir*` -/
def redirToks (rs : List (Arrow × List Byte)) : List Tok := rs.flatMap fun r => [r.1.tok, .word r.2]

/-- `(word redir*)*` -/
def argToks (args : List (List Byte × List (Arrow × List Byte))) : List Tok :=
  args.flatMap fun a => .word a.1 :: redirToks a.2

def Tree.redirs (rs : List (Arrow × List Byte)) (t : Tree) : Tree := rs.foldl (fun t r => .redir t r.2 r.1.mode r.1.fd) t

def Tree.backs : Nat → Tree → Tree
  | 0, t => t
  | n + 1, t => backs n (.back t)

inductive Nt
  | line | pipe | exec

inductive Derives : Nt → List Tok → Tree → Prop
  | line {a t} (n : Nat) : Derives .pipe a t → Derives .line (a ++ List.replicate n .amp) (t.backs n)
  | seq {a t b u} (n : Nat) : Derives .pipe a t → Derives .line b u →
      Derives .line (a ++ (List.replicate n .amp ++ .semi :: b)) (.list (t.backs n) u)
  | one {a t} : Derives .exec a t → Derives .pipe a t
  | bar {a t b u} : Derives .exec a t → Derives .pipe b u → Derives .pipe (a ++ .bar :: b) (.pipe t u)
  | simple (rs : List (Arrow × List Byte)) (args : List (List Byte × List (Arrow × List Byte))) : args.length < MAXARGS →
      Derives .exec (redirToks rs ++ argToks args) (.redirs (rs ++ args.flatMap Prod.snd) (.exec (args.map Prod.fst)))
  | block {a t} (rs : List (Arrow × List Byte)) : Derives .line a t →
      Derives .exec (.lpar :: (a ++ .rpar :: redirToks rs)) (.redirs rs t)

inductive Complaint : Fault → Prop
  | leftovers : Complaint (.panic "syntax")
  | file : Complaint (.panic "missing file for redirection")
  | block : Complaint (.panic "syntax - missing )")
  | args : Complaint (.panic "too many args")

inductive Means (line : List Byte) : Cmd → Tree → Prop
  | exec {argv ws} : List.Forall₂ (fun p x => WordAt line p.1 p.2 x) argv ws → Means line (.exec argv) (.exec ws)
  | redir {c t q eq x m fd} : Means line c t → WordAt line q eq x → Means line (.redir c q eq m fd) (.redir t x m fd)
  | pipe {c t c' t'} : Means line c t → Means line c' t' → Means line (.pipe c c') (.pipe t t')
  | list {c t c' t'} : Means line c t → Means line c' t' → Means line (.list c c') (.list t t')
  | back {c t} : Means line c t → Means line (.back c) (.back t)

structure RedirMeans (line : List Byte) (r : Redir) (s : Arrow × List Byte) : Prop where
  file : WordAt line r.file r.efile s.2
  mode : r.mode = s.1.mode
  fd : r.fd = s.1.fd

section

variable {line w : List Byte} {ts rest : List Tok} {rs : List Redir} {ss : List (Arrow × List Byte)} {c : Cmd} {t : Tree}
  {argv : List (Nat × Nat)} {ws : List (List Byte)} {E : Fault → Prop}

theorem Means.redirs (h : Means line c t) (hr : List.Forall₂ (RedirMeans line) rs ss) :
    Means line (rs.foldl redircmd c) (t.redirs ss) := by
  induction hr generalizing c t with
  | nil => exact h
  | @cons r s _ _ hrs _ ih =>
    refine ih ?_
    unfold redircmd
    rw [hrs.mode, hrs.fd]
    exact .redir h hrs.file

/-! ## Redirections -/

theorem startIn_arrow (h : startIn [ch '<', ch '>'] ts = true) : ∃ a : Arrow, ∃ ts', ts = a.tok :: ts' := by
  cases ts with
  | nil => cases h
  | cons k ts' =>
    cases k with
    | lt => exact ⟨.lt, ts', rfl⟩
    | gt => exact ⟨.gt, ts', rfl⟩
    | gtgt => exact ⟨.gtgt, ts', rfl⟩
    | _ => exact Bool.noConfusion (show false = true from h)

theorem startIn_singleton {c : Byte} {k : Tok} (hk : ∀ k' : Tok, k'.startsIn [c] = true → k' = k)
    (h : startIn [c] ts = true) : ∃ ts', ts = k :: ts' := by
  cases ts with
  | nil => cases h
  | cons k' ts' => exact ⟨ts', by rw [hk k' h]⟩

theorem startsIn_lpar (k : Tok) (h : k.startsIn [ch '('] = true) : k = .lpar := by
  cases k <;> first | rfl | exact Bool.noConfusion (show false = true from h)

theorem startsIn_rpar (k : Tok) (h : k.startsIn [ch ')'] = true) : k = .rpar := by
  cases k <;> first | rfl | exact Bool.noConfusion (show false = true from h)

theorem startsIn_amp (k : Tok) (h : k.startsIn [ch '&'] = true) : k = .amp := by
  cases k <;> first | rfl | exact Bool.noConfusion (show false = true from h)

theorem startsIn_semi (k : Tok) (h : k.startsIn [ch ';'] = true) : k = .semi := by
  cases k <;> first | rfl | exact Bool.noConfusion (show false = true from h)

theorem startsIn_bar (k : Tok) (h : k.startsIn [ch '|'] = true) : k = .bar := by
  cases k <;> first | rfl | exact Bool.noConfusion (show false = true from h)

theorem code_word {k : Tok} (h : k.code = ch 'a') : ∃ x, k = .word x := by
  cases k with
  | word x => exact ⟨x, rfl⟩
  | _ => exact absurd h (by decide)

theorem code_ne_zero (k : Tok) : k.code ≠ 0 := by
  cases k with
  | word x => exact show ch 'a' ≠ 0 by decide
  | _ => decide

theorem redir_of_code (a : Arrow) (q eq : Nat) :
    (if a.tok.code = ch '<' then [(⟨q, eq, O_RDONLY, 0⟩ : Redir)]
      else if a.tok.code = ch '>' then [⟨q, eq, O_WRONLY ||| O_CREATE, 1⟩]
      else if a.tok.code = ch '+' then [⟨q, eq, O_WRONLY ||| O_CREATE, 1⟩]
      else []) = [⟨q, eq, a.mode, a.fd⟩] := by
  cases a <;> rfl

theorem RedirMeans.snoc {a : Arrow} {q eq : Nat} {x : List Byte} (hm : List.Forall₂ (RedirMeans line) rs ss)
    (hw : WordAt line q eq x) : List.Forall₂ (RedirMeans line) (rs ++ [⟨q, eq, a.mode, a.fd⟩]) (ss ++ [(a, x)]) :=
  List.rel_append hm (.cons ⟨hw, rfl, rfl⟩ .nil)

theorem parseredirs_sound (fuel : Nat) : ∀ {rs ss w ts}, ts.length < fuel → At line w ts → List.Forall₂ (RedirMeans line) rs ss →
    wp (parseredirs line.length fuel rs) (fun rs' w' => ∃ ss' rest, ts = redirToks ss' ++ rest ∧ At line w' rest ∧
      List.Forall₂ (RedirMeans line) rs' (ss ++ ss')) Complaint w := by
  induction fuel with
  | zero => intro _ _ _ _ hf; omega
  | succ fuel ih =>
    intro rs ss w ts hf h hm
    refine (peek_spec (by decide) h).bind ?_
    rintro r w₁ ⟨rfl, h₁, -⟩
    split
    · rename_i hs
      obtain ⟨a, ts₁, rfl⟩ := startIn_arrow hs
      refine (gettoken_spec h₁).bind ?_
      rintro ⟨tok, q₀, eq₀⟩ w₂ ⟨h₂, htok, -⟩
      dsimp only at htok ⊢
      cases ts₁ with
      | nil =>
        refine (gettoken_end h₂).bind ?_
        rintro ⟨tok', q, eq⟩ w₃ ⟨htok', -⟩
        dsimp only at htok' ⊢
        exact wp_bind.2 (wp_failIf.2 ⟨fun _ => .file, fun hn => absurd (by rw [htok']; decide) hn⟩)
      | cons k ts₂ =>
        refine (gettoken_spec h₂).bind ?_
        rintro ⟨tok', q, eq⟩ w₃ ⟨h₃, htok', hw⟩
        dsimp only at htok' hw ⊢
        refine wp_bind.2 (wp_failIf.2 ⟨fun _ => .file, fun hn => ?_⟩)
        obtain ⟨x, rfl⟩ := code_word (htok'.symm.trans (not_not.1 hn))
        rw [htok, redir_of_code]
        refine (ih (by simp only [List.length_cons] at hf; omega) h₃ (RedirMeans.snoc hm (hw x rfl))).post ?_
        rintro rs' w' ⟨ss', rest, rfl, h', hm'⟩
        exact ⟨(a, x) :: ss', rest, rfl, h', by simpa using hm'⟩
    · exact ⟨[], ts, rfl, h₁, by simpa using hm⟩

theorem startIn_redirToks {s : Arrow × List Byte} : startIn [ch '<', ch '>'] (redirToks (s :: ss) ++ rest) = true := by
  obtain ⟨a, x⟩ := s
  cases a <;> rfl

theorem parseredirs_complete (ss' : List (Arrow × List Byte)) : ∀ {fuel rs ss w}, ss'.length < fuel →
    At line w (redirToks ss' ++ rest) → startIn [ch '<', ch '>'] rest = false → List.Forall₂ (RedirMeans line) rs ss →
    wp (parseredirs line.length fuel rs) (fun rs' w' => At line w' rest ∧
      List.Forall₂ (RedirMeans line) rs' (ss ++ ss')) E w := by
  induction ss' with
  | nil =>
    intro fuel rs ss w hf h hs hm
    obtain ⟨fuel, rfl⟩ := Nat.exists_eq_succ_of_ne_zero (by omega : fuel ≠ 0)
    refine (peek_spec (by decide) h).bind ?_
    rintro r w₁ ⟨rfl, h₁, -⟩
    rw [if_neg (by rw [show redirToks [] ++ rest = rest from rfl, hs]; decide)]
    exact ⟨h₁, by simpa using hm⟩
  | cons s ss' ih =>
    obtain ⟨a, x⟩ := s
    intro fuel rs ss w hf h hs hm
    obtain ⟨fuel, rfl⟩ := Nat.exists_eq_succ_of_ne_zero (by omega : fuel ≠ 0)
    refine (peek_spec (by decide) h).bind ?_
    rintro r w₁ ⟨rfl, h₁, -⟩
    rw [if_pos startIn_redirToks]
    refine (gettoken_spec h₁).bind ?_
    rintro ⟨tok, q₀, eq₀⟩ w₂ ⟨h₂, htok, -⟩
    refine (gettoken_spec h₂).bind ?_
    rintro ⟨tok', q, eq⟩ w₃ ⟨h₃, htok', hw⟩
    dsimp only at htok htok' hw ⊢
    refine wp_bind.2 (wp_failIf.2 ⟨fun hn => absurd htok' hn, fun _ => ?_⟩)
    rw [htok, redir_of_code]
    refine (ih (by simp only [List.length_cons] at hf; omega) h₃ hs (RedirMeans.snoc hm (hw x rfl))).post ?_
    rintro rs' w' ⟨h', hm'⟩
    exact ⟨h', by simpa using hm'⟩

theorem redirToks_length (ss : List (Arrow × List Byte)) : ss.length ≤ (redirToks ss).length := by
  induction ss with
  | nil => exact Nat.le_refl 0
  | cons s ss ih =>
    change ss.length + 1 ≤ ([s.1.tok, .word s.2] ++ redirToks ss).length
    rw [List.length_append]
    exact Nat.add_comm _ _ ▸ Nat.add_le_add (Nat.le_of_ble_eq_true rfl) ih

/-! ## Simple commands -/

theorem execLoop_sound (fuel : Nat) : ∀ {argv rs ws ss w ts}, ts.length < fuel → At line w ts →
    List.Forall₂ (fun p x => WordAt line p.1 p.2 x) argv ws → List.Forall₂ (RedirMeans line) rs ss → argv.length < MAXARGS →
    wp (execLoop line.length fuel argv rs) (fun r w' => ∃ args rest, ts = argToks args ++ rest ∧ At line w' rest ∧
      List.Forall₂ (fun p x => WordAt line p.1 p.2 x) r.1 (ws ++ args.map Prod.fst) ∧
      List.Forall₂ (RedirMeans line) r.2 (ss ++ args.flatMap Prod.snd) ∧ r.1.length < MAXARGS) Complaint w := by
  induction fuel with
  | zero => intro _ _ _ _ _ _ hf; omega
  | succ fuel ih =>
    intro argv rs ws ss w ts hf h hw hm hl
    refine (peek_spec (by decide) h).bind ?_
    rintro r w₁ ⟨-, h₁, -⟩
    split
    · exact ⟨[], ts, rfl, h₁, by simpa using hw, by simpa using hm, hl⟩
    cases ts with
    | nil =>
      refine (gettoken_end h₁).bind ?_
      rintro ⟨tok, q, eq⟩ w₂ ⟨htok, h₂⟩
      dsimp only at htok ⊢
      rw [if_pos htok]
      exact ⟨[], [], rfl, h₂, by simpa using hw, by simpa using hm, hl⟩
    | cons k ts =>
      refine (gettoken_spec h₁).bind ?_
      rintro ⟨tok, q, eq⟩ w₂ ⟨h₂, htok, hx⟩
      dsimp only at htok hx ⊢
      rw [if_neg (htok ▸ code_ne_zero k)]
      refine wp_bind.2 (wp_failIf.2 ⟨fun _ => .leftovers, fun hn => ?_⟩)
      obtain ⟨x, rfl⟩ := code_word (htok.symm.trans (not_not.1 hn))
      refine wp_bind.2 (wp_failIf.2 ⟨fun hn => absurd hl (Nat.not_lt.2 hn), fun _ => ?_⟩)
      refine wp_bind.2 (wp_failIf.2 ⟨fun _ => .args, fun hn => ?_⟩)
      have hlen := h₂.length_le
      refine (parseredirs_sound _ (by omega) h₂ hm).bind ?_
      rintro rs' w₃ ⟨ss', rest, rfl, h₃, hm'⟩
      have hw' : List.Forall₂ (fun (p : Nat × Nat) x => WordAt line p.1 p.2 x) (argv ++ [(q, eq)]) (ws ++ [x]) :=
        List.rel_append hw (.cons (hx x rfl) .nil)
      simp only [List.length_cons, List.length_append] at hf
      refine (ih (by omega) h₃ hw' hm' (by simpa using Nat.lt_of_not_le hn)).post ?_
      rintro r w' ⟨args, rest', rfl, h', hw'', hm'', hl'⟩
      refine ⟨(x, ss') :: args, rest', ?_, h', by simpa using hw'', by simpa using hm'', hl'⟩
      simp [argToks]

def Nt.follow : Nt → List Tok
  | .exec => [.bar, .rpar, .amp, .semi]
  | .pipe => [.rpar, .amp, .semi]
  | .line => [.rpar]

def Follow (X : Nt) (rest : List Tok) : Prop := ∀ k ∈ rest.head?, k ∈ X.follow

theorem Follow.nil (X : Nt) : Follow X [] := by
  intro k hk
  cases hk

theorem follow_cons {X : Nt} {k : Tok} (hk : k ∈ X.follow) : Follow X (k :: rest) := by
  intro k' hk'
  cases hk'
  exact hk

theorem Follow.startIn {X : Nt} {toks : List Byte} (h : Follow X rest) (ht : ∀ k ∈ X.follow, k.startsIn toks = false) :
    startIn toks rest = false := by
  cases rest with
  | nil => rfl
  | cons k rest => exact ht k (h k rfl)

theorem startIn_argToks {toks : List Byte} (args : List (List Byte × List (Arrow × List Byte))) (h : startIn toks rest = false) :
    startIn toks (argToks args ++ rest) = false := by
  cases args with
  | nil => exact h
  | cons a args => rfl

theorem execLoop_complete (args : List (List Byte × List (Arrow × List Byte))) : ∀ {fuel argv rs ws ss w}, args.length < fuel →
    At line w (argToks args ++ rest) → Follow .exec rest → argv.length + args.length < MAXARGS →
    List.Forall₂ (fun p x => WordAt line p.1 p.2 x) argv ws → List.Forall₂ (RedirMeans line) rs ss →
    wp (execLoop line.length fuel argv rs) (fun r w' => At line w' rest ∧ r.1.length < MAXARGS ∧
      List.Forall₂ (fun p x => WordAt line p.1 p.2 x) r.1 (ws ++ args.map Prod.fst) ∧
      List.Forall₂ (RedirMeans line) r.2 (ss ++ args.flatMap Prod.snd)) E w := by
  induction args with
  | nil =>
    intro fuel argv rs ws ss w hf h hF hl hw hm
    obtain ⟨fuel, rfl⟩ := Nat.exists_eq_succ_of_ne_zero (by omega : fuel ≠ 0)
    refine (peek_spec (by decide) h).bind ?_
    rintro r w₁ ⟨rfl, h₁, -⟩
    have hw' : List.Forall₂ (fun (p : Nat × Nat) x => WordAt line p.1 p.2 x) argv (ws ++ []) := by simpa using hw
    have hm' : List.Forall₂ (RedirMeans line) rs (ss ++ []) := by simpa using hm
    cases rest with
    | nil =>
      refine (gettoken_end h₁).bind ?_
      rintro ⟨tok, q, eq⟩ w₂ ⟨htok, h₂⟩
      dsimp only at htok ⊢
      rw [if_pos htok]
      exact ⟨h₂, hl, hw', hm'⟩
    | cons k rest =>
      have hk : ∀ k ∈ Nt.exec.follow, k.startsIn [ch '|', ch ')', ch '&', ch ';'] = true := by decide
      rw [if_pos (show startIn _ (argToks [] ++ k :: rest) = true from hk k (hF k rfl))]
      exact ⟨h₁, hl, hw', hm'⟩
  | cons a args ih =>
    obtain ⟨x, ss'⟩ := a
    intro fuel argv rs ws ss w hf h hF hl hw hm
    obtain ⟨fuel, rfl⟩ := Nat.exists_eq_succ_of_ne_zero (by omega : fuel ≠ 0)
    rw [List.length_cons] at hf hl
    have h' : At line w (.word x :: (redirToks ss' ++ (argToks args ++ rest))) := by
      rw [← List.append_assoc]
      exact h
    refine (peek_spec (by decide) h').bind ?_
    rintro r w₁ ⟨hr, h₁, -⟩
    obtain rfl : r = false := hr
    rw [if_neg Bool.false_ne_true]
    refine (gettoken_spec h₁).bind ?_
    rintro ⟨tok, q, eq⟩ w₂ ⟨h₂, htok, hx⟩
    dsimp only at htok hx ⊢
    rw [if_neg (htok ▸ code_ne_zero _)]
    refine wp_bind.2 (wp_failIf.2 ⟨fun hn => absurd htok hn, fun _ => ?_⟩)
    refine wp_bind.2 (wp_failIf.2 ⟨fun hn => by omega, fun _ => ?_⟩)
    refine wp_bind.2 (wp_failIf.2 ⟨fun hn => by omega, fun _ => ?_⟩)
    have hlen := h₂.length_le
    have hss := redirToks_length ss'
    rw [List.length_append] at hlen
    refine (parseredirs_complete ss' (by omega) h₂ (startIn_argToks args (hF.startIn (by decide))) hm).bind ?_
    rintro rs' w₃ ⟨h₃, hm'⟩
    have hw' : List.Forall₂ (fun (p : Nat × Nat) x => WordAt line p.1 p.2 x) (argv ++ [(q, eq)]) (ws ++ [x]) :=
      List.rel_append hw (.cons (hx x rfl) .nil)
    refine (ih (by omega) h₃ hF (by simp only [List.length_append, List.length_singleton]; omega) hw' hm').post ?_
    rintro r w' ⟨h', hl', hw'', hm''⟩
    exact ⟨h', hl', by simpa using hw'', by simpa using hm''⟩

theorem argToks_length (args : List (List Byte × List (Arrow × List Byte))) : args.length ≤ (argToks args).length := by
  induction args with
  | nil => exact Nat.le_refl 0
  | cons a args ih =>
    change args.length + 1 ≤ (Tok.word a.1 :: (redirToks a.2 ++ argToks args)).length
    rw [List.length_cons, List.length_append]
    omega

/-! ## The phrases -/

/-- The command `c` is read from a first part of the tokens `ts`, a phrase of the kind `X`. -/
def Parsed (line : List Byte) (X : Nt) (ts : List Tok) (c : Cmd) (w : List Byte) : Prop :=
  ∃ a rest t, ts = a ++ rest ∧ At line w rest ∧ Derives X a t ∧ Means line c t

theorem parseblock_sound {pl : PM Cmd} (hp : ∀ {w ts'}, ts'.length < (Tok.lpar :: ts).length → At line w ts' →
    wp pl (Parsed line .line ts') Complaint w) (h : At line w (.lpar :: ts)) :
    wp (parseblock line.length pl) (Parsed line .exec (.lpar :: ts)) Complaint w := by
  refine (peek_spec (by decide) h).bind ?_
  rintro r w₁ ⟨rfl, h₁, -⟩
  refine wp_bind.2 (wp_failIf.2 ⟨fun hn => Bool.noConfusion (show true = false from hn), fun _ => ?_⟩)
  refine (gettoken_spec h₁).bind ?_
  rintro - w₂ ⟨h₂, -, -⟩
  refine (hp (Nat.lt_succ_self _) h₂).bind ?_
  rintro c w₃ ⟨a, rest, t, rfl, h₃, hd, hc⟩
  refine (peek_spec (by decide) h₃).bind ?_
  rintro r w₄ ⟨rfl, h₄, -⟩
  refine wp_bind.2 (wp_failIf.2 ⟨fun _ => .block, fun hn => ?_⟩)
  obtain ⟨rest, rfl⟩ := startIn_singleton startsIn_rpar (Bool.not_eq_false _ ▸ hn)
  refine (gettoken_spec h₄).bind ?_
  rintro - w₅ ⟨h₅, -, -⟩
  have hlen := h₅.length_le
  refine (parseredirs_sound _ (by omega) h₅ .nil).bind ?_
  rintro rs w₆ ⟨ss, rest, rfl, h₆, hm⟩
  exact ⟨_, rest, _, by simp, h₆, .block ss hd, hc.redirs hm⟩

theorem parseexec_sound {pl : PM Cmd} (hp : ∀ {w ts'}, ts'.length < ts.length → At line w ts' →
    wp pl (Parsed line .line ts') Complaint w) (h : At line w ts) :
    wp (parseexec line.length pl) (Parsed line .exec ts) Complaint w := by
  refine (peek_spec (by decide) h).bind ?_
  rintro r w₁ ⟨rfl, h₁, -⟩
  split
  · rename_i hs
    obtain ⟨ts, rfl⟩ := startIn_singleton startsIn_lpar hs
    exact parseblock_sound hp h₁
  have hlen := h₁.length_le
  refine (parseredirs_sound _ (by omega) h₁ .nil).bind ?_
  rintro rs w₂ ⟨ss, ts', rfl, h₂, hm⟩
  have hlen' := h₂.length_le
  refine (execLoop_sound _ (by omega) h₂ .nil hm (by decide)).bind ?_
  rintro ⟨argv, rs'⟩ w₃ ⟨args, rest, rfl, h₃, hw, hm', hl⟩
  refine wp_bind.2 (wp_failIf.2 ⟨fun hn => absurd hl (Nat.not_lt.2 hn), fun _ => ?_⟩)
  have hargs : args.length = argv.length := by simpa using hw.length_eq.symm
  exact ⟨_, rest, _, by simp, h₃, .simple ss args (hargs ▸ hl), (Means.exec hw).redirs hm'⟩

theorem backLoop_sound (fuel : Nat) : ∀ {c t w ts}, ts.length < fuel → At line w ts → Means line c t →
    wp (backLoop line.length fuel c) (fun c' w' => ∃ n rest, ts = List.replicate n .amp ++ rest ∧ At line w' rest ∧
      Means line c' (t.backs n)) Complaint w := by
  induction fuel with
  | zero => intro _ _ _ _ hf; omega
  | succ fuel ih =>
    intro c t w ts hf h hm
    refine (peek_spec (by decide) h).bind ?_
    rintro r w₁ ⟨rfl, h₁, -⟩
    split
    · rename_i hs
      obtain ⟨ts, rfl⟩ := startIn_singleton startsIn_amp hs
      refine (gettoken_spec h₁).bind ?_
      rintro - w₂ ⟨h₂, -, -⟩
      refine (ih (Nat.lt_of_succ_lt_succ hf) h₂ (.back hm)).post ?_
      rintro c' w' ⟨n, rest, rfl, h', hm'⟩
      exact ⟨n + 1, rest, rfl, h', hm'⟩
    · exact ⟨0, ts, rfl, h₁, hm⟩

theorem backLoop_complete (n : Nat) : ∀ {fuel c t w}, n < fuel → At line w (List.replicate n .amp ++ rest) →
    startIn [ch '&'] rest = false → Means line c t →
    wp (backLoop line.length fuel c) (fun c' w' => At line w' rest ∧ Means line c' (t.backs n)) E w := by
  induction n with
  | zero =>
    intro fuel c t w hf h hs hm
    obtain ⟨fuel, rfl⟩ := Nat.exists_eq_succ_of_ne_zero (by omega : fuel ≠ 0)
    refine (peek_spec (by decide) h).bind ?_
    rintro r w₁ ⟨hr, h₁, -⟩
    obtain rfl : r = false := hr.trans hs
    exact ⟨h₁, hm⟩
  | succ n ih =>
    intro fuel c t w hf h hs hm
    obtain ⟨fuel, rfl⟩ := Nat.exists_eq_succ_of_ne_zero (by omega : fuel ≠ 0)
    refine (peek_spec (by decide) h).bind ?_
    rintro r w₁ ⟨hr, h₁, -⟩
    obtain rfl : r = true := hr
    refine (gettoken_spec h₁).bind ?_
    rintro - w₂ ⟨h₂, -, -⟩
    exact ih (Nat.lt_of_succ_lt_succ hf) h₂ hs (.back hm)

theorem parse_sound (n : Nat) : (∀ {w ts}, 2 * ts.length + 2 ≤ n → At line w ts →
      wp (parseline line.length n) (Parsed line .line ts) Complaint w) ∧
    ∀ {w ts}, 2 * ts.length + 1 ≤ n → At line w ts → wp (parsepipe line.length n) (Parsed line .pipe ts) Complaint w := by
  induction n with
  | zero => exact ⟨fun hn => by omega, fun hn => by omega⟩
  | succ n ih =>
    obtain ⟨ihl, ihp⟩ := ih
    constructor
    · intro w ts hn h
      rw [parseline]
      refine (ihp (by omega) h).bind ?_
      rintro c w₁ ⟨a, ts₁, t, rfl, h₁, hd, hc⟩
      have hlen := h₁.length_le
      refine (backLoop_sound _ (by omega) h₁ hc).bind ?_
      rintro c' w₂ ⟨k, ts₂, rfl, h₂, hc'⟩
      refine (peek_spec (by decide) h₂).bind ?_
      rintro r w₃ ⟨rfl, h₃, -⟩
      split
      · rename_i hs
        obtain ⟨ts₃, rfl⟩ := startIn_singleton startsIn_semi hs
        refine (gettoken_spec h₃).bind ?_
        rintro - w₄ ⟨h₄, -, -⟩
        simp only [List.length_append, List.length_cons] at hn
        refine (ihl (by omega) h₄).bind ?_
        rintro right w₅ ⟨b, rest, u, rfl, h₅, hd', hu⟩
        exact ⟨_, rest, _, by simp, h₅, .seq k hd hd', .list hc' hu⟩
      · exact ⟨_, ts₂, _, by simp, h₃, .line k hd, hc'⟩
    · intro w ts hn h
      rw [parsepipe]
      refine (parseexec_sound (fun hlt => ihl (by omega)) h).bind ?_
      rintro c w₁ ⟨a, ts₁, t, rfl, h₁, hd, hc⟩
      refine (peek_spec (by decide) h₁).bind ?_
      rintro r w₂ ⟨rfl, h₂, -⟩
      split
      · rename_i hs
        obtain ⟨ts₂, rfl⟩ := startIn_singleton startsIn_bar hs
        refine (gettoken_spec h₂).bind ?_
        rintro - w₃ ⟨h₃, -, -⟩
        simp only [List.length_append, List.length_cons] at hn
        refine (ihp (by omega) h₃).bind ?_
        rintro right w₄ ⟨b, rest, u, rfl, h₄, hd', hu⟩
        exact ⟨_, rest, _, by simp, h₄, .bar hd hd', .pipe hc hu⟩
      · exact ⟨a, ts₁, t, rfl, h₂, .one hd, hc⟩

theorem parseline_amps {n k : Nat} {f : Cmd → PM Cmd} {R : Cmd → List Byte → Prop}
    (hp : wp (parsepipe line.length n) (fun c w' => At line w' (List.replicate k .amp ++ rest) ∧ Means line c t) E w)
    (hs : startIn [ch '&'] rest = false) (hf : ∀ c w', At line w' rest → Means line c (t.backs k) → wp (f c) R E w') :
    wp (parsepipe line.length n >>= fun c => backLoop line.length (line.length + 1) c >>= f) R E w := by
  refine hp.bind ?_
  rintro c w₁ ⟨h₁, hc⟩
  have hlen := h₁.length_le
  rw [List.length_append, List.length_replicate] at hlen
  refine (backLoop_complete k (by omega) h₁ hs hc).bind ?_
  rintro c' w₂ ⟨h₂, hc'⟩
  exact hf c' w₂ h₂ hc'

theorem Follow.pipe (h : Follow .line rest) : Follow .pipe rest := fun k hk => List.mem_cons.2
    (.inl (List.mem_singleton.1 (h k hk)))

theorem Follow.exec (h : Follow .pipe rest) : Follow .exec rest := fun k hk => List.mem_cons_of_mem _ (h k hk)

theorem follow_amps {n : Nat} (h : Follow .pipe rest) : Follow .pipe (List.replicate n .amp ++ rest) := by
  cases n with
  | zero => exact h
  | succ n => exact follow_cons (by decide)

def Nt.parser (es n : Nat) : Nt → PM Cmd
  | .line => parseline es n
  | .pipe => parsepipe es n
  | .exec => parseexec es (parseline es n)

/-- A bound of the recursion that is enough for a phrase of `len` tokens. -/
def Nt.depth (len : Nat) : Nt → Nat
  | .line => 2 * len + 2
  | .pipe => 2 * len + 1
  | .exec => 2 * len

theorem parse_complete {X : Nt} {a : List Tok} (hd : Derives X a t) : ∀ {rest w n}, Follow X rest → At line w (a ++ rest) →
    X.depth a.length ≤ n → wp (X.parser line.length n) (fun c w' => At line w' rest ∧ Means line c t) E w := by
  induction hd with
  | @line a t k hd ih =>
    intro rest w n hF h hn
    simp only [Nt.depth, List.length_append, List.length_replicate] at hn
    obtain ⟨n, rfl⟩ := Nat.exists_eq_succ_of_ne_zero (by omega : n ≠ 0)
    rw [List.append_assoc] at h
    have hp := ih (follow_amps hF.pipe) h (by simp only [Nt.depth]; omega : Nt.depth a.length .pipe ≤ n)
    refine parseline_amps hp (hF.startIn (by decide)) ?_
    intro c w₁ h₁ hc
    refine (peek_spec (by decide) h₁).bind ?_
    rintro r w₂ ⟨hr, h₂, -⟩
    obtain rfl : r = false := hr.trans (hF.startIn (by decide))
    exact ⟨h₂, hc⟩
  | @seq a t b u k hd hd' ih ih' =>
    intro rest w n hF h hn
    simp only [Nt.depth, List.length_append, List.length_replicate, List.length_cons] at hn
    obtain ⟨n, rfl⟩ := Nat.exists_eq_succ_of_ne_zero (by omega : n ≠ 0)
    rw [List.append_assoc, List.append_assoc] at h
    have hp := ih (follow_amps (follow_cons (by decide))) h (by simp only [Nt.depth]; omega : Nt.depth a.length .pipe ≤ n)
    refine parseline_amps hp rfl ?_
    intro c w₁ h₁ hc
    refine (peek_spec (by decide) h₁).bind ?_
    rintro r w₂ ⟨hr, h₂, -⟩
    obtain rfl : r = true := hr
    refine (gettoken_spec h₂).bind ?_
    rintro - w₃ ⟨h₃, -, -⟩
    refine (ih' hF h₃ (by simp only [Nt.depth]; omega)).bind ?_
    rintro c' w₄ ⟨h₄, hc'⟩
    exact ⟨h₄, .list hc hc'⟩
  | @one a t hd ih =>
    intro rest w n hF h hn
    simp only [Nt.depth] at hn
    obtain ⟨n, rfl⟩ := Nat.exists_eq_succ_of_ne_zero (by omega : n ≠ 0)
    refine (ih hF.exec h (by simp only [Nt.depth]; omega)).bind ?_
    rintro c w₁ ⟨h₁, hc⟩
    refine (peek_spec (by decide) h₁).bind ?_
    rintro r w₂ ⟨hr, h₂, -⟩
    obtain rfl : r = false := hr.trans (hF.startIn (by decide))
    exact ⟨h₂, hc⟩
  | @bar a t b u hd hd' ih ih' =>
    intro rest w n hF h hn
    simp only [Nt.depth, List.length_append, List.length_cons] at hn
    obtain ⟨n, rfl⟩ := Nat.exists_eq_succ_of_ne_zero (by omega : n ≠ 0)
    rw [List.append_assoc] at h
    refine (ih (follow_cons (by decide)) h (by simp only [Nt.depth]; omega)).bind ?_
    rintro c w₁ ⟨h₁, hc⟩
    refine (peek_spec (by decide) h₁).bind ?_
    rintro r w₂ ⟨hr, h₂, -⟩
    obtain rfl : r = true := hr
    refine (gettoken_spec h₂).bind ?_
    rintro - w₃ ⟨h₃, -, -⟩
    refine (ih' hF h₃ (by simp only [Nt.depth]; omega)).bind ?_
    rintro c' w₄ ⟨h₄, hc'⟩
    exact ⟨h₄, .pipe hc hc'⟩
  | simple ss args hl =>
    intro rest w n hF h hn
    rw [List.append_assoc] at h
    have hstart : startIn [ch '('] (redirToks ss ++ (argToks args ++ rest)) = false := by
      cases ss with
      | nil => exact startIn_argToks args (hF.startIn (by decide))
      | cons s ss => obtain ⟨x, _⟩ := s; cases x <;> rfl
    refine (peek_spec (by decide) h).bind ?_
    rintro r w₁ ⟨hr, h₁, -⟩
    obtain rfl : r = false := hr.trans hstart
    have hlen := h₁.length_le
    have hss := redirToks_length ss
    have hargs := argToks_length args
    simp only [List.length_append] at hlen
    have hss' := parseredirs_complete (E := E) ss (by omega : ss.length < line.length + 1) h₁
      (startIn_argToks args (hF.startIn (by decide))) .nil
    refine hss'.bind ?_
    rintro rs w₂ ⟨h₂, hm⟩
    refine (execLoop_complete args (by omega) h₂ hF (by simpa using hl) .nil hm).bind ?_
    rintro ⟨argv, rs'⟩ w₃ ⟨h₃, hl', hw, hm'⟩
    refine wp_bind.2 (wp_failIf.2 ⟨fun hn => absurd hl' (Nat.not_lt.2 hn), fun _ => ?_⟩)
    exact ⟨h₃, (Means.exec hw).redirs hm'⟩
  | @block a t ss hd ih =>
    intro rest w n hF h hn
    simp only [Nt.depth, List.length_cons, List.length_append] at hn
    have h' : At line w (.lpar :: (a ++ .rpar :: (redirToks ss ++ rest))) := by
      simpa only [List.cons_append, List.append_assoc] using h
    refine (peek_spec (by decide) h').bind ?_
    rintro r w₁ ⟨hr, h₁, -⟩
    obtain rfl : r = true := hr
    refine (peek_spec (by decide) h₁).bind ?_
    rintro r w₂ ⟨hr, h₂, -⟩
    refine wp_bind.2 (wp_failIf.2 ⟨fun hn => Bool.noConfusion (show true = false from hr.symm.trans hn), fun _ => ?_⟩)
    refine (gettoken_spec h₂).bind ?_
    rintro - w₃ ⟨h₃, -, -⟩
    refine (ih (follow_cons (by decide)) h₃ (by simp only [Nt.depth]; omega)).bind ?_
    rintro c w₄ ⟨h₄, hc⟩
    refine (peek_spec (by decide) h₄).bind ?_
    rintro r w₅ ⟨hr, h₅, -⟩
    refine wp_bind.2 (wp_failIf.2 ⟨fun hn => Bool.noConfusion (show true = false from hr.symm.trans hn), fun _ => ?_⟩)
    refine (gettoken_spec h₅).bind ?_
    rintro - w₆ ⟨h₆, -, -⟩
    have hlen := h₆.length_le
    have hss := redirToks_length ss
    rw [List.length_append] at hlen
    refine (parseredirs_complete ss (by omega) h₆ (hF.startIn (by decide)) .nil).bind ?_
    rintro rs w₇ ⟨h₇, hm⟩
    exact ⟨h₇, hc.redirs hm⟩

end

end Xv6.Sh
