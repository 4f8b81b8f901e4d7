import Xv6.DirMap
import Xv6.Store
import Mathlib.Data.List.SplitOn

/-!
# The meaning of a path name

A path is cut at its slashes; what is left between them, each piece down to its first 14 bytes, are its components.
`follow` looks one component after another up, starting from an inode. `skipelem` takes the components off one by one.
-/

namespace Xv6

def components (path : List Byte) : List (List Byte) := ((path.splitOn 47).filter (· ≠ [])).map (List.take DIRSIZ)

/-- The inode that a name stands for in directory `i`. -/
def lookup (F : Store) (i : Nat) (name : List Byte) : Option Nat :=
  match F i with
  | none => none
  | some nd => if nd.type = T_DIR then (dirFind nd.bytes name).map Prod.fst else none

/-- The inode reached from `i` by the given components. -/
def follow (F : Store) (i : Nat) (cs : List (List Byte)) : Option Nat := cs.foldlM (lookup F) i

/-- Where a path starts, when the current directory is inode `cwd`. -/
def startAt (cwd : Nat) (path : List Byte) : Nat := if path.head? = some 47 then ROOTINO else cwd

def followParent (F : Store) (i : Nat) (cs : List (List Byte)) : Option (Nat × List Byte) :=
  match cs.getLast?, follow F i cs.dropLast with
  | some name, some j => if (F j).any (fun nd => nd.type = T_DIR) then some (j, name) else none
  | _, _ => none

section

variable {path name rest : List Byte} {F : Store} {i : Nat} {cs : List (List Byte)}

/-! ### Cutting -/

theorem components_slash : components (47 :: path) = components path := by
  simp [components, List.splitOn, List.splitOnP_cons]

theorem components_dropSlashes : components (path.dropWhile (· = 47)) = components path := by
  induction path with
  | nil => rfl
  | cons b path ih =>
    by_cases hb : b = 47
    · rw [List.dropWhile_cons_of_pos (by simpa using hb), ih, hb, components_slash]
    · rw [List.dropWhile_cons_of_neg (by simpa using hb)]

theorem splitOn_span (path : List Byte) : ∃ l, path.splitOn 47 = path.takeWhile (· ≠ 47) :: l ∧
    ((l = [] ∧ path.dropWhile (· ≠ 47) = []) ∨ ∃ p, path.dropWhile (· ≠ 47) = 47 :: p ∧ l = p.splitOn 47) := by
  induction path with
  | nil => exact ⟨[], rfl, .inl ⟨rfl, rfl⟩⟩
  | cons b path ih =>
    by_cases hb : b = 47
    · refine ⟨path.splitOn 47, ?_, .inr ⟨path, ?_, rfl⟩⟩
      · simp [List.splitOn, List.splitOnP_cons, hb]
      · rw [List.dropWhile_cons_of_neg (by simpa using hb), hb]
    · obtain ⟨l, hl, hrest⟩ := ih
      refine ⟨l, ?_, ?_⟩
      · rw [List.takeWhile_cons_of_pos (by simpa using hb)]
        simp only [List.splitOn] at hl ⊢
        rw [List.splitOnP_cons, if_neg (by simpa using hb), hl]
        rfl
      · rwa [List.dropWhile_cons_of_pos (by simpa using hb)]

theorem components_none (h : skipelem path = none) : components path = [] := by
  unfold skipelem at h
  split at h
  · next hp =>
    rw [← components_dropSlashes, hp]
    rfl
  · cases h

theorem components_some (h : skipelem path = some (name, rest)) :
    components path = name :: components rest ∧ (rest = [] ↔ components rest = []) := by
  unfold skipelem at h
  split at h
  · cases h
  · next b s hp =>
    obtain ⟨rfl, rfl⟩ := Prod.mk.inj (Option.some.inj h)
    have hb : ¬ b = 47 := by
      have := List.head?_dropWhile_not (fun x : Byte => decide (x = 47)) path
      rw [hp] at this
      simpa using this
    obtain ⟨l, hl, hrest⟩ := splitOn_span (b :: s)
    have hne : (b :: s).takeWhile (· ≠ 47) ≠ [] := by
      rw [List.takeWhile_cons_of_pos (by simpa using hb)]
      exact List.cons_ne_nil _ _
    constructor
    · rw [← components_dropSlashes, hp, components, hl, List.filter_cons_of_pos (by simpa using hne),
        List.map_cons, components_dropSlashes]
      rcases hrest with ⟨rfl, hd⟩ | ⟨p, hd, rfl⟩
      · rw [hd]
        rfl
      · rw [hd, components_slash]
        rfl
    · -- what is left does not begin with a slash
      refine ⟨fun h => by rw [h]; rfl, fun h => ?_⟩
      by_contra hr
      obtain ⟨c, t, hct⟩ := List.exists_cons_of_ne_nil hr
      rw [hct] at h
      have hc : ¬ c = 47 := by
        have := List.head?_dropWhile_not (fun x : Byte => decide (x = 47)) ((b :: s).dropWhile (· ≠ 47))
        rw [hct] at this
        simpa using this
      obtain ⟨l', hl', -⟩ := splitOn_span (c :: t)
      rw [components, hl', List.filter_cons_of_pos] at h
      · cases h
      · rw [List.takeWhile_cons_of_pos (by simpa using hc)]
        simp

/-! ### Following -/

theorem follow_cons : follow F i (name :: cs) = (lookup F i name).bind fun j => follow F j cs := rfl

theorem followParent_one : followParent F i [name] = if (F i).any (fun nd => nd.type = T_DIR) then some (i, name) else none := rfl

theorem followParent_cons (hcs : cs ≠ []) : followParent F i
    (name :: cs) = (lookup F i name).bind fun j => followParent F j cs := by
  unfold followParent
  rw [List.getLast?_cons_of_ne_nil hcs, List.dropLast_cons_of_ne_nil hcs, follow_cons]
  cases hl : lookup F i name with
  | none =>
    cases cs.getLast? <;> rfl
  | some j => rfl

end

end Xv6
