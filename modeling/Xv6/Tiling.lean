import Mathlib.Algebra.Ring.Nat
import Mathlib.Data.List.Pairwise
import Mathlib.Algebra.BigOperators.Group.List.Basic

/-!
# Extents that tile a range

An extent is an interval of addresses. `Tiles lo hi l` says that the extents of `l` are not empty, do
not overlap, and fill the range from `lo` to `hi`. Two neighbours may be joined and an extent may be
split, and the range may grow at its end. A list of extents is `Spread` if it is in increasing order
with a gap after each; an extent that is put into such a list and joined with the neighbours it touches
leaves it so.
-/

structure Extent where
  start : Nat
  len : Nat
deriving DecidableEq

namespace Extent

variable {a b c : Extent} {lo hi n m : Nat} {l l' l₁ l₂ : List Extent}

def finish (a : Extent) : Nat := a.start + a.len

def Separate (a b : Extent) : Prop := a.finish ≤ b.start ∨ b.finish ≤ a.start

theorem Separate.symm (h : Separate a b) : Separate b a := Or.symm h

/-- `a` and what follows it. -/
def join (a b : Extent) : Extent := ⟨a.start, a.len + b.len⟩

theorem finish_join (h : a.finish = b.start) : (a.join b).finish = b.finish := by
  simp only [finish, join] at *
  omega

structure Tiles (lo hi : Nat) (l : List Extent) : Prop where
  apart : l.Pairwise Separate
  inside : ∀ a ∈ l, lo ≤ a.start ∧ a.finish ≤ hi ∧ 0 < a.len
  total : lo + (l.map len).sum = hi

theorem tiles_nil : Tiles lo lo [] := ⟨.nil, fun _ h => absurd h List.not_mem_nil, rfl⟩

theorem Tiles.perm (h : Tiles lo hi l) (hp : l.Perm l') : Tiles lo hi l' := by
  refine ⟨(hp.pairwise_iff fun h => Separate.symm h).1 h.apart, fun a ha => h.inside a (hp.mem_iff.2 ha), ?_⟩
  rw [← (hp.map len).sum_eq]
  exact h.total

theorem Tiles.apart_of_ne (h : Tiles lo hi l) (ha : a ∈ l) (hb : b ∈ l) (hne : a ≠ b) : Separate a b := by
  have : Std.Symm Separate := ⟨fun _ _ => Separate.symm⟩
  exact h.apart.forall ha hb hne

theorem Tiles.join (h : Tiles lo hi (a :: b :: l)) (hab : a.finish = b.start) : Tiles lo hi (a.join b :: l) := by
  obtain ⟨hp, hin, ht⟩ := h
  rw [List.pairwise_cons, List.pairwise_cons] at hp
  have ha := hin a (List.mem_cons_self ..)
  have hb := hin b (List.mem_cons_of_mem a (List.mem_cons_self ..))
  have hfin := finish_join hab
  refine ⟨List.pairwise_cons.2 ⟨fun c hc => ?_, hp.2.2⟩, fun c hc => ?_, ?_⟩
  · -- `c` is not empty, so it does not fit between the two
    have hc' := hin c (List.mem_cons_of_mem a (List.mem_cons_of_mem b hc))
    have h1 := hp.1 c (List.mem_cons_of_mem b hc)
    have h2 := hp.2.1 c hc
    simp only [Separate, Extent.join, finish] at *
    omega
  · rcases List.mem_cons.1 hc with rfl | hc
    · rw [hfin]
      exact ⟨ha.1, hb.2.1, Nat.add_pos_left ha.2.2 _⟩
    · exact hin c (List.mem_cons_of_mem a (List.mem_cons_of_mem b hc))
  · simp only [List.map_cons, List.sum_cons] at ht ⊢
    simp only [Extent.join]
    omega

theorem Tiles.split (h : Tiles lo hi (⟨n, a.len + b.len⟩ :: l)) (hb : b.start = n + a.len) (ha : a.start = n) (ha0 : 0 < a.len)
    (hb0 : 0 < b.len) : Tiles lo hi (a :: b :: l) := by
  obtain ⟨hp, hin, ht⟩ := h
  rw [List.pairwise_cons] at hp
  have hn := hin _ (List.mem_cons_self ..)
  simp only [finish] at hn
  refine ⟨List.pairwise_cons.2 ⟨fun c hc => ?_, List.pairwise_cons.2 ⟨fun c hc => ?_, hp.2⟩⟩, fun c hc => ?_, ?_⟩
  · rcases List.mem_cons.1 hc with rfl | hc
    · exact .inl (by simp only [finish]; omega)
    · have := hp.1 c hc
      simp only [Separate, finish] at *
      omega
  · have := hp.1 c hc
    simp only [Separate, finish] at *
    omega
  · rcases List.mem_cons.1 hc with rfl | hc
    · simp only [finish]
      omega
    · rcases List.mem_cons.1 hc with rfl | hc
      · simp only [finish]
        omega
      · exact hin c (List.mem_cons_of_mem _ hc)
  · simp only [List.map_cons, List.sum_cons] at ht ⊢
    omega

theorem Tiles.grow (h : Tiles lo hi l) (hn : 0 < n) : Tiles lo (hi + n) (⟨hi, n⟩ :: l) := by
  refine ⟨List.pairwise_cons.2 ⟨fun c hc => .inr (h.inside c hc).2.1, h.apart⟩, fun c hc => ?_, ?_⟩
  · rcases List.mem_cons.1 hc with rfl | hc
    · have := h.total
      simp only [finish]
      omega
    · have := h.inside c hc
      omega
  · have := h.total
    simp only [List.map_cons, List.sum_cons]
    omega

/-! ### Spread lists -/

def Before (a b : Extent) : Prop := a.finish < b.start

def Spread (l : List Extent) : Prop := l.Pairwise Before

/-- `b` joined with the first extent of the list if it touches it. -/
def joinNext (b : Extent) : List Extent → Extent × List Extent
  | [] => (b, [])
  | c :: l => if b.finish = c.start then (b.join c, l) else (b, c :: l)

/-- The list `l₁ ++ a :: l₂` with `b` put in behind `a`. -/
def coalesce (l₁ : List Extent) (a b : Extent) (l₂ : List Extent) : List Extent :=
  if a.finish = (joinNext b l₂).1.start then l₁ ++ a.join (joinNext b l₂).1 :: (joinNext b l₂).2
  else l₁ ++ a :: (joinNext b l₂).1 :: (joinNext b l₂).2

theorem joinNext_start : (joinNext b l).1.start = b.start := by
  unfold joinNext
  split
  · rfl
  · split <;> rfl

theorem spread_joinNext (h : Spread l) (hb : ∀ c ∈ l, b.finish ≤ c.start) : Spread ((joinNext b l).1 :: (joinNext b l).2) := by
  cases l with
  | nil => exact List.pairwise_singleton ..
  | cons c l =>
    obtain ⟨hc, hl⟩ := List.pairwise_cons.1 h
    rw [joinNext]
    split
    · next he =>
      refine List.pairwise_cons.2 ⟨fun d hd => ?_, hl⟩
      rw [Before, finish_join he]
      exact hc d hd
    · next he =>
      refine List.pairwise_cons.2 ⟨fun d hd => ?_, h⟩
      have hbc := hb c (List.mem_cons_self ..)
      rcases List.mem_cons.1 hd with rfl | hd
      · exact Nat.lt_of_le_of_ne hbc he
      · have := hc d hd
        simp only [Before, finish] at *
        omega

theorem spread_coalesce (h : Spread (l₁ ++ a :: l₂)) (ha : a.finish ≤ b.start) (hb : ∀ c ∈ l₂, b.finish ≤ c.start) :
    Spread (coalesce l₁ a b l₂) := by
  obtain ⟨h₁, h₂, h₁₂⟩ := List.pairwise_append.1 h
  have hnext := spread_joinNext (List.pairwise_cons.1 h₂).2 hb
  have hstart : (joinNext b l₂).1.start = b.start := joinNext_start
  obtain ⟨hnext₁, hnext₂⟩ := List.pairwise_cons.1 hnext
  -- what is before `a` is before all the rest
  have hbefore : ∀ c d, c ∈ l₁ → a.start ≤ d.start → Before c d := fun c d hc hd => by
    have := h₁₂ c hc a (List.mem_cons_self ..)
    simp only [Before, finish] at *
    omega
  have hafter : ∀ d ∈ (joinNext b l₂).2, a.start ≤ d.start := fun d hd => by
    have := hnext₁ d hd
    simp only [Before, finish] at *
    omega
  rw [coalesce]
  split
  · next he =>
    refine List.pairwise_append.2 ⟨h₁, List.pairwise_cons.2 ⟨fun d hd => ?_, hnext₂⟩, fun c hc d hd => hbefore c d hc ?_⟩
    · rw [Before, finish_join he]
      exact hnext₁ d hd
    · rcases List.mem_cons.1 hd with rfl | hd
      · exact Nat.le_refl _
      · exact hafter d hd
  · next he =>
    refine List.pairwise_append.2 ⟨h₁, List.pairwise_cons.2 ⟨fun d hd => ?_, hnext⟩, fun c hc d hd => hbefore c d hc ?_⟩
    · have hlt : a.finish < (joinNext b l₂).1.start := by omega
      rcases List.mem_cons.1 hd with rfl | hd
      · exact hlt
      · have := hnext₁ d hd
        simp only [Before, finish] at *
        omega
    · rcases List.mem_cons.1 hd with rfl | hd
      · exact Nat.le_refl _
      · rcases List.mem_cons.1 hd with rfl | hd
        · simp only [finish] at ha
          omega
        · exact hafter d hd

theorem Tiles.joinNext {rest : List Extent} (h : Tiles lo hi (b :: (l ++ rest))) :
    Tiles lo hi ((b.joinNext l).1 :: ((b.joinNext l).2 ++ rest)) := by
  cases l with
  | nil => exact h
  | cons c l =>
    rw [Extent.joinNext]
    split
    · next he => exact h.join he
    · exact h

theorem Tiles.coalesce {rest : List Extent} (h : Tiles lo hi (b :: (l₁ ++ a :: l₂ ++ rest))) :
    Tiles lo hi (Extent.coalesce l₁ a b l₂ ++ rest) := by
  have hout : (b :: (l₁ ++ a :: l₂ ++ rest)).Perm (b :: (l₂ ++ (a :: (l₁ ++ rest)))) := by
    refine List.perm_iff_count.2 fun e => ?_
    simp only [List.count_cons, List.count_append]
    omega
  have h₁ := (h.perm hout).joinNext
  have hfront : ((b.joinNext l₂).1 :: ((b.joinNext l₂).2 ++ (a :: (l₁ ++ rest)))).Perm
      (a :: (b.joinNext l₂).1 :: (l₁ ++ ((b.joinNext l₂).2 ++ rest))) := by
    refine List.perm_iff_count.2 fun e => ?_
    simp only [List.count_cons, List.count_append]
    omega
  have h₂ := h₁.perm hfront
  rw [Extent.coalesce]
  split
  · next he =>
    refine (h₂.join he).perm (List.perm_iff_count.2 fun e => ?_)
    simp only [List.count_cons, List.count_append]
    omega
  · refine h₂.perm (List.perm_iff_count.2 fun e => ?_)
    simp only [List.count_cons, List.count_append]
    omega

end Extent
