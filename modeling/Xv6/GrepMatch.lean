import Mathlib.Computability.Language
import Xv6.Bytes

/-!
# The matcher of `grep` (`grep.c`)

A string of C is the list of its bytes before the NUL. `matchstar` and `matchhere` call each other on
ever shorter strings; here `matchstar` is given `matchhere` of the rest of the pattern. The meaning of a
pattern is a language: the product of the languages of its items, a star being a Kleene star.
-/

namespace Xv6.Grep

abbrev caret : Byte := 0x5E
abbrev dot : Byte := 0x2E
abbrev star : Byte := 0x2A
abbrev dollar : Byte := 0x24

/-- `matchstar(c, re, text)`, with `matchhere(re, ·)` as an argument. -/
def matchstar (matchhere : List Byte → Bool) (c : Byte) : List Byte → Bool
  | [] => matchhere []
  | t :: text => matchhere (t :: text) || (t == c || c == dot) && matchstar matchhere c text

/-- The last test of `matchhere`: one character and then the rest of the pattern. -/
def matchone (matchhere : List Byte → Bool) (c : Byte) : List Byte → Bool
  | [] => false
  | t :: text => (c == dot || c == t) && matchhere text

def matchhere : List Byte → List Byte → Bool
  | [], _ => true
  | [c], text => if c = dollar then text.isEmpty else matchone (matchhere []) c text
  | c :: c' :: re, text => if c' = star then matchstar (matchhere re) c text else matchone (matchhere (c' :: re)) c text

/-- The loop of `match` over the places where the text may begin. -/
def matchfrom (re : List Byte) : List Byte → Bool
  | [] => matchhere re []
  | t :: text => matchhere re (t :: text) || matchfrom re text

/-- `match`. -/
def matchText (re text : List Byte) : Bool := if re.head? = some caret then matchhere re.tail text else matchfrom re text

/-! ### The language of a pattern -/

inductive Item
  | one (c : Byte)
  | many (c : Byte)

/-- The character `x` is one that `c` stands for. -/
def Accepts (c x : Byte) : Prop := c = dot ∨ c = x

def single (c : Byte) : Language Byte := {w : List Byte | ∃ x, w = [x] ∧ Accepts c x}

def Item.language : Item → Language Byte
  | one c => single c
  | many c => KStar.kstar (single c)

/-- A pattern after its `^`: the items, and whether it ends with the anchor. -/
def items : List Byte → List Item × Bool
  | [] => ([], false)
  | [c] => if c = dollar then ([], true) else ([.one c], false)
  | c :: c' :: re => if c' = star then ((.many c) :: (items re).1, (items re).2) else ((.one c) ::
      (items (c' :: re)).1, (items (c' :: re)).2)

def language (its : List Item) : Language Byte := (its.map Item.language).prod

def Begins (p : List Item × Bool) (text : List Byte) : Prop := ∃ mid post, text = mid ++ post ∧
    (p.2 = true → post = []) ∧ mid ∈ language p.1

section

variable {here : List Byte → Bool} {p : List Item × Bool} {c : Byte} {re text w : List Byte}

theorem mem_language_cons {i : Item} {its : List Item} : w ∈ language (i :: its) ↔ ∃ a ∈ i.language,
    ∃ b ∈ language its, a ++ b = w := by
  rw [language, List.map_cons, List.prod_cons]
  exact Language.mem_mul

theorem mem_many : w ∈ (Item.many c).language ↔ ∀ x ∈ w, Accepts c x := by
  rw [Item.language, Language.mem_kstar]
  constructor
  · rintro ⟨ws, rfl, hws⟩ x hx
    obtain ⟨u, hu, hxu⟩ := List.mem_flatten.1 hx
    obtain ⟨y, rfl, hy⟩ := hws u hu
    rwa [List.mem_singleton.1 hxu]
  · intro h
    refine ⟨w.map fun x => [x], ?_, fun u hu => ?_⟩
    · exact (List.flatMap_singleton' w).symm
    · obtain ⟨x, hx, rfl⟩ := List.mem_map.1 hu
      exact ⟨x, rfl, h x hx⟩

variable (h : ∀ text, here text = true ↔ Begins p text)
include h

theorem matchone_iff : matchone here c text = true ↔ Begins (.one c :: p.1, p.2) text := by
  cases text with
  | nil =>
    refine ⟨fun hf => absurd hf Bool.false_ne_true, ?_⟩
    rintro ⟨mid, post, he, -, hm⟩
    obtain ⟨a, ⟨x, rfl, -⟩, b, -, rfl⟩ := mem_language_cons.1 hm
    cases he
  | cons t text =>
    have hacc : (c == dot || c == t) = true ↔ Accepts c t := by simp [Accepts]
    rw [matchone, Bool.and_eq_true, hacc, h]
    constructor
    · rintro ⟨ht, mid, post, rfl, hp, hm⟩
      exact ⟨t :: mid, post, rfl, hp, mem_language_cons.2 ⟨[t], ⟨t, rfl, ht⟩, mid, hm, rfl⟩⟩
    · rintro ⟨mid, post, he, hp, hm⟩
      obtain ⟨a, ⟨x, rfl, hx⟩, b, hb, rfl⟩ := mem_language_cons.1 hm
      obtain ⟨rfl, rfl⟩ := List.cons.inj he
      exact ⟨hx, b, post, rfl, hp, hb⟩

theorem matchstar_iff_append : matchstar here c text = true ↔ ∃ a b, text = a ++ b ∧ (∀ x ∈ a, Accepts c x) ∧ Begins p b := by
  induction text with
  | nil =>
    rw [matchstar, h]
    constructor
    · exact fun hb => ⟨[], [], rfl, fun x hx => absurd hx List.not_mem_nil, hb⟩
    · rintro ⟨a, b, he, -, hb⟩
      obtain ⟨rfl, rfl⟩ := List.append_eq_nil_iff.1 he.symm
      exact hb
  | cons t text ih =>
    have hacc : (t == c || c == dot) = true ↔ Accepts c t := by
      rw [Bool.or_eq_true, beq_iff_eq, beq_iff_eq, or_comm, eq_comm (a := t)]
      rfl
    rw [matchstar, Bool.or_eq_true, Bool.and_eq_true, hacc, h, ih]
    constructor
    · rintro (hb | ⟨ht, a, b, rfl, ha, hb⟩)
      · exact ⟨[], t :: text, rfl, fun x hx => absurd hx List.not_mem_nil, hb⟩
      · exact ⟨t :: a, b, rfl, List.forall_mem_cons.2 ⟨ht, ha⟩, hb⟩
    · rintro ⟨a, b, he, ha, hb⟩
      cases a with
      | nil =>
        rw [List.nil_append] at he
        exact .inl (he ▸ hb)
      | cons x a =>
        obtain ⟨rfl, rfl⟩ := List.cons.inj he
        obtain ⟨hx, ha⟩ := List.forall_mem_cons.1 ha
        exact .inr ⟨hx, a, b, rfl, ha, hb⟩

theorem matchstar_iff : matchstar here c text = true ↔ Begins (.many c :: p.1, p.2) text := by
  rw [matchstar_iff_append h]
  constructor
  · rintro ⟨a, _, rfl, ha, mid, post, rfl, hp, hm⟩
    exact ⟨a ++ mid, post, (List.append_assoc ..).symm, hp, mem_language_cons.2 ⟨a, mem_many.2 ha, mid, hm, rfl⟩⟩
  · rintro ⟨_, post, rfl, hp, hm⟩
    obtain ⟨a, ha, b, hb, rfl⟩ := mem_language_cons.1 hm
    exact ⟨a, b ++ post, List.append_assoc .., mem_many.1 ha, b, post, rfl, hp, hb⟩

end

theorem begins_nil {text : List Byte} : Begins ([], false) text := ⟨[], text, rfl, fun h => absurd h Bool.false_ne_true, rfl⟩

theorem matchhere_iff : ∀ re text : List Byte, matchhere re text = true ↔ Begins (items re) text
  | [], text => iff_of_true rfl begins_nil
  | [c], text => by
    rw [matchhere, items]
    split
    · rw [List.isEmpty_iff]
      constructor
      · rintro rfl
        exact ⟨[], [], rfl, fun _ => rfl, rfl⟩
      · rintro ⟨mid, post, rfl, hp, hm⟩
        rw [hp rfl, show mid = [] from hm]
        rfl
    · exact matchone_iff fun text => matchhere_iff [] text
  | c :: c' :: re, text => by
    rw [matchhere, items]
    split
    · exact matchstar_iff fun text => matchhere_iff re text
    · exact matchone_iff fun text => matchhere_iff (c' :: re) text

theorem matchfrom_iff (re text : List Byte) : matchfrom re text = true ↔ ∃ pre rest,
    text = pre ++ rest ∧ Begins (items re) rest := by
  induction text with
  | nil =>
    rw [matchfrom, matchhere_iff]
    constructor
    · exact fun h => ⟨[], [], rfl, h⟩
    · rintro ⟨pre, rest, he, h⟩
      obtain ⟨rfl, rfl⟩ := List.append_eq_nil_iff.1 he.symm
      exact h
  | cons t text ih =>
    rw [matchfrom, Bool.or_eq_true, matchhere_iff, ih]
    constructor
    · rintro (h | ⟨pre, rest, rfl, h⟩)
      · exact ⟨[], t :: text, rfl, h⟩
      · exact ⟨t :: pre, rest, rfl, h⟩
    · rintro ⟨pre, rest, he, h⟩
      cases pre with
      | nil =>
        rw [List.nil_append] at he
        exact .inl (he ▸ h)
      | cons x pre =>
        obtain ⟨rfl, rfl⟩ := List.cons.inj he
        exact .inr ⟨pre, rest, rfl, h⟩

/-- The pattern without its `^`. -/
def body (re : List Byte) : List Byte := if re.head? = some caret then re.tail else re

/-- `match` decides whether a part of the text belongs to the language of the pattern. -/
theorem matchText_iff (re text : List Byte) : matchText re text = true ↔
    ∃ pre mid post, text = pre ++ mid ++ post ∧ (re.head? = some caret → pre = []) ∧ ((items (body re)).2 = true → post = []) ∧
      mid ∈ language (items (body re)).1 := by
  rw [matchText, body]
  split
  · rw [matchhere_iff]
    constructor
    · rintro ⟨mid, post, rfl, hp, hm⟩
      exact ⟨[], mid, post, rfl, fun _ => rfl, hp, hm⟩
    · rintro ⟨pre, mid, post, rfl, hpre, hp, hm⟩
      rw [hpre ‹_›]
      exact ⟨mid, post, rfl, hp, hm⟩
  · rw [matchfrom_iff]
    constructor
    · rintro ⟨pre, rest, rfl, mid, post, rfl, hp, hm⟩
      exact ⟨pre, mid, post, (List.append_assoc ..).symm, fun h => absurd h ‹_›, hp, hm⟩
    · rintro ⟨pre, mid, post, rfl, -, hp, hm⟩
      exact ⟨pre, mid ++ post, List.append_assoc .., mid, post, rfl, hp, hm⟩

end Xv6.Grep
