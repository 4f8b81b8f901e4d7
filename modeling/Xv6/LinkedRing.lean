import Mathlib.Data.List.Basic
import Mathlib.Data.List.Nodup
import Mathlib.Logic.Function.Basic

/-!
# Doubly linked rings

Nodes are numbers and the links two functions. `Seg x l y` says that the links lead from `x` through the
nodes of `l` to `y`, and back; `IsRing h l` that they lead from the head `h` through the distinct nodes of
`l` back to `h`. Unlinking a node takes it out of the list, linking it behind the head puts it in front, and
a scan in either direction finds what a search of the list finds.
-/

structure Links where
  prev : Nat → Nat
  next : Nat → Nat

namespace Links

open Function

/-- `b->next->prev = b->prev; b->prev->next = b->next;` -/
def remove (L : Links) (b : Nat) : Links :=
  let L := { L with prev := update L.prev (L.next b) (L.prev b) }
  { L with next := update L.next (L.prev b) (L.next b) }

/-- `b->next = h->next; b->prev = h; h->next->prev = b; h->next = b;` -/
def insertAfter (L : Links) (h b : Nat) : Links :=
  let L := { L with next := update L.next b (L.next h) }
  let L := { L with prev := update L.prev b h }
  let L := { L with prev := update L.prev (L.next h) b }
  { L with next := update L.next h b }

/-- Walk from the node `b` in the direction `step`, for at most `fuel` nodes, until `p` holds or the head is reached. -/
def scan (step : Nat → Nat) (h : Nat) (p : Nat → Bool) : (fuel b : Nat) → Option Nat
  | 0, _ => none
  | fuel + 1, b => if b = h then none else if p b then some b else scan step h p fuel (step b)

def Seg (L : Links) : Nat → List Nat → Nat → Prop
  | x, [], y => L.next x = y ∧ L.prev y = x
  | x, a :: l, y => L.next x = a ∧ L.prev a = x ∧ Seg L a l y

structure IsRing (L : Links) (h : Nat) (l : List Nat) : Prop where
  seg : L.Seg h l h
  nodup : (h :: l).Nodup

variable {L L' : Links} {h x y a b : Nat} {l l₁ l₂ : List Nat}

/-! ### Segments -/

theorem seg_append : L.Seg x (l₁ ++ a :: l₂) y ↔ L.Seg x l₁ a ∧ L.Seg a l₂ y := by
  induction l₁ generalizing x with
  | nil => exact and_assoc.symm
  | cons c l₁ ih => simp only [List.cons_append, Seg, ih, and_assoc]

theorem Seg.congr (hs : L.Seg x l y) (hn : ∀ a ∈ x :: l, L'.next a = L.next a) (hp : ∀ a ∈ y :: l, L'.prev a = L.prev a) :
    L'.Seg x l y := by
  induction l generalizing x with
  | nil =>
    rw [Seg, hn x (List.mem_cons_self ..), hp y (List.mem_cons_self ..)]
    exact hs
  | cons c l ih =>
    obtain ⟨h1, h2, h3⟩ := hs
    refine ⟨?_, ?_, ih h3 (fun a ha => hn a (List.mem_cons_of_mem _ ha)) fun a ha => hp a ?_⟩
    · rw [hn x (List.mem_cons_self ..), h1]
    · rw [hp c (List.mem_cons_of_mem _ (List.mem_cons_self ..)), h2]
    · rcases List.mem_cons.1 ha with rfl | ha
      · exact List.mem_cons_self ..
      · exact List.mem_cons_of_mem _ (List.mem_cons_of_mem _ ha)

theorem Seg.prev_mem (hs : L.Seg x l y) : L.prev y ∈ x :: l := by
  induction l generalizing x with
  | nil => exact List.mem_cons.2 (Or.inl hs.2)
  | cons c l ih => exact List.mem_cons_of_mem _ (ih hs.2.2)

theorem Seg.next_mem (hs : L.Seg x l y) : L.next x ∈ y :: l := by
  cases l with
  | nil => exact List.mem_cons.2 (Or.inl hs.1)
  | cons c l =>
    rw [hs.1]
    exact List.mem_cons_of_mem _ (List.mem_cons_self ..)

theorem Seg.flip (hs : L.Seg x l y) : (Links.mk L.next L.prev).Seg y l.reverse x := by
  induction l generalizing x with
  | nil => exact ⟨hs.2, hs.1⟩
  | cons c l ih =>
    rw [List.reverse_cons]
    exact seg_append.2 ⟨ih hs.2.2, hs.2.1, hs.1⟩

theorem Seg.join (h₁ : L.Seg x l₁ b) (h₂ : L.Seg b l₂ y) (hn : (x :: (l₁ ++ l₂)).Nodup) (hy : y ∉ l₁ ++ l₂)
    (hL : L'.next = update L.next (L.prev b) (L.next b)) (hL' : L'.prev = update L.prev (L.next b) (L.prev b)) :
    L'.Seg x (l₁ ++ l₂) y := by
  induction l₁ generalizing x with
  | nil =>
    obtain ⟨-, rfl⟩ := h₁
    cases l₂ with
    | nil =>
      refine ⟨?_, ?_⟩
      · rw [hL, update_self, h₂.1]
      · rw [hL', h₂.1, update_self]
    | cons c l₂ =>
      obtain ⟨hbc, -, hseg⟩ := h₂
      refine ⟨?_, ?_, hseg.congr (fun a ha => ?_) fun a ha => ?_⟩
      · rw [hL, update_self, hbc]
      · rw [hL', hbc, update_self]
      · rw [hL, update_of_ne]
        rintro rfl
        exact (List.nodup_cons.1 hn).1 ha
      · rw [hL', hbc, update_of_ne]
        rintro rfl
        rcases List.mem_cons.1 ha with rfl | ha
        · exact hy (List.mem_cons_self ..)
        · exact (List.nodup_cons.1 (List.nodup_cons.1 hn).2).1 ha
  | cons c l₁ ih =>
    obtain ⟨hxc, hcx, hseg⟩ := h₁
    have hn' := List.nodup_cons.1 hn
    refine ⟨?_, ?_, ih hseg hn'.2 (fun hm => hy (List.mem_cons_of_mem _ hm))⟩
    · rw [hL, update_of_ne, hxc]
      rintro rfl
      have := hseg.prev_mem
      exact hn'.1 (List.mem_append_left l₂ this)
    · rw [hL', update_of_ne, hcx]
      rintro rfl
      rcases List.mem_cons.1 h₂.next_mem with he | hm
      · rw [he] at hy
        exact hy (List.mem_cons_self ..)
      · exact (List.nodup_cons.1 hn'.2).1 (List.mem_append_right _ hm)

/-! ### Rings -/

theorem isRing_nil (hp : L.prev h = h) (hn : L.next h = h) : L.IsRing h [] := ⟨⟨hn, hp⟩, List.nodup_singleton h⟩

theorem IsRing.remove (hr : L.IsRing h (l₁ ++ b :: l₂)) : (L.remove b).IsRing h (l₁ ++ l₂) := by
  obtain ⟨h₁, h₂⟩ := seg_append.1 hr.seg
  have hnd : (h :: (l₁ ++ l₂)).Nodup := hr.nodup.sublist (by simp)
  have hb : L.next b ≠ b := fun he => by
    have hm := h₂.next_mem
    rw [he] at hm
    have := hr.nodup
    simp only [List.nodup_cons, List.nodup_append, List.mem_append, List.mem_cons] at this
    rcases List.mem_cons.1 hm with rfl | hm
    · exact this.1 (Or.inr (Or.inl rfl))
    · exact this.2.2.1.1 hm
  refine ⟨h₁.join h₂ hnd (List.nodup_cons.1 hnd).1 ?_ ?_, hnd⟩
  · simp [Links.remove, update_of_ne hb.symm]
  · rfl

theorem IsRing.insertAfter (hr : L.IsRing h l) (hb : b ∉ h :: l) : (L.insertAfter h b).IsRing h (b :: l) := by
  have hbh : b ≠ h := fun he => hb (he ▸ List.mem_cons_self ..)
  have hbn : b ≠ L.next h := fun he => hb (he ▸ hr.seg.next_mem)
  have hnext : ∀ a, (L.insertAfter h b).next a = if a = h then b else if a = b then L.next h else L.next a := fun a => by
    simp only [Links.insertAfter, update_apply]
  have hprev : ∀ a, (L.insertAfter h b).prev a = if a = L.next h then b else if a = b then h else L.prev a := fun a => by
    simp only [Links.insertAfter, update_apply, if_neg hbh.symm]
  refine ⟨⟨?_, ?_, ?_⟩, ?_⟩
  · rw [hnext, if_pos rfl]
  · rw [hprev, if_neg hbn, if_pos rfl]
  · cases l with
    | nil =>
      refine ⟨?_, ?_⟩
      · rw [hnext, if_neg hbh, if_pos rfl, hr.seg.1]
      · rw [hprev, if_pos hr.seg.1.symm]
    | cons c l =>
      obtain ⟨hc, -, hseg⟩ := hr.seg
      have hn := hr.nodup
      simp only [List.nodup_cons, List.mem_cons, not_or] at hn hb
      refine ⟨?_, ?_, hseg.congr (fun a ha => ?_) fun a ha => ?_⟩
      · rw [hnext, if_neg hbh, if_pos rfl, hc]
      · rw [hprev, if_pos hc.symm]
      · rw [hnext, if_neg, if_neg]
        · rintro rfl
          exact (List.mem_cons.1 ha).elim hb.2.1 hb.2.2
        · rintro rfl
          exact (List.mem_cons.1 ha).elim hn.1.1 hn.1.2
      · rw [hprev, if_neg, if_neg]
        · rintro rfl
          exact (List.mem_cons.1 ha).elim hb.1 hb.2.2
        · rintro rfl
          rw [hc] at ha
          exact (List.mem_cons.1 ha).elim (fun he => hn.1.1 he.symm) hn.2.1
  · refine List.nodup_cons.2 ⟨?_, List.nodup_cons.2 ⟨fun hm => hb (List.mem_cons_of_mem _ hm), (List.nodup_cons.1 hr.nodup).2⟩⟩
    rw [List.mem_cons, not_or]
    exact ⟨hbh.symm, (List.nodup_cons.1 hr.nodup).1⟩

theorem scan_next (hs : L.Seg x l h) (hh : h ∉ l) (p : Nat → Bool) {fuel : Nat} (hf : l.length < fuel) :
    scan L.next h p fuel (L.next x) = l.find? p := by
  induction l generalizing x fuel with
  | nil =>
    obtain ⟨n, rfl⟩ : ∃ n, fuel = n + 1 := ⟨fuel - 1, by simp at hf; omega⟩
    rw [scan, hs.1, if_pos rfl]
    rfl
  | cons c l ih =>
    obtain ⟨n, rfl⟩ : ∃ n, fuel = n + 1 := ⟨fuel - 1, by simp at hf; omega⟩
    rw [List.mem_cons, not_or] at hh
    rw [scan, hs.1, if_neg (Ne.symm hh.1), List.find?_cons]
    cases hp : p c with
    | true => simp
    | false =>
      rw [ih hs.2.2 hh.2 (by simpa using hf)]
      simp

theorem IsRing.scan_next (hr : L.IsRing h l) (p : Nat → Bool) {fuel : Nat} (hf : l.length < fuel) :
    scan L.next h p fuel (L.next h) = l.find? p :=
  Links.scan_next hr.seg (List.nodup_cons.1 hr.nodup).1 p hf

theorem IsRing.scan_prev (hr : L.IsRing h l) (p : Nat → Bool) {fuel : Nat} (hf : l.length < fuel) :
    scan L.prev h p fuel (L.prev h) = l.reverse.find? p :=
  Links.scan_next hr.seg.flip (by rw [List.mem_reverse]; exact (List.nodup_cons.1 hr.nodup).1) p (by simpa using hf)

end Links
