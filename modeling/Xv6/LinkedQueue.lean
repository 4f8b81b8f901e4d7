import Mathlib.Data.List.Nodup
import Mathlib.Logic.Function.Basic

/-!
# Queues of linked nodes

The nodes carry the link to their successor themselves, and the queue is a pointer to the first one. `Holds q l` says
that the links lead from the head through the distinct nodes of `l` to the end. A node is appended by
a walk of a pointer to a pointer, and taken off at the front.
-/

structure LinkedQueue (α : Type) where
  head : Option α
  next : α → Option α

namespace LinkedQueue

open Function

variable {α : Type}

inductive Place (α : Type)
  | head
  | next (a : α)
deriving DecidableEq

def load (q : LinkedQueue α) : Place α → Option α
  | .head => q.head
  | .next a => q.next a

def store [DecidableEq α] (q : LinkedQueue α) (v : Option α) : Place α → LinkedQueue α
  | .head => { q with head := v }
  | .next a => { q with next := update q.next a v }

/-- `for(; *pp; pp = &(*pp)->next);`, for at most `fuel` tests. -/
def last (q : LinkedQueue α) : (fuel : Nat) → Place α → Option (Place α)
  | 0, _ => none
  | fuel + 1, pp =>
    match q.load pp with
    | none => some pp
    | some a => last q fuel (.next a)

/-- `a->next = 0`, and `a` is stored at the end of the walk from the head. -/
def push [DecidableEq α] (q : LinkedQueue α) (fuel : Nat) (a : α) : Option (LinkedQueue α) :=
  let q := q.store none (.next a)
  (q.last fuel .head).map (q.store (some a))

/-- `head = head->next` -/
def pop (q : LinkedQueue α) (a : α) : LinkedQueue α := { q with head := q.next a }

/-- The links lead from the pointer `v` through `l` to the end. -/
def Leads (next : α → Option α) : Option α → List α → Prop
  | v, [] => v = none
  | v, a :: l => v = some a ∧ Leads next (next a) l

structure Holds (q : LinkedQueue α) (l : List α) : Prop where
  leads : Leads q.next q.head l
  nodup : l.Nodup

theorem Leads.congr {next next' : α → Option α} {v : Option α} {l : List α} (h : Leads next v l)
    (hn : ∀ a ∈ l, next' a = next a) :
    Leads next' v l := by
  induction l generalizing v with
  | nil => exact h
  | cons a l ih =>
    obtain ⟨hv, hl⟩ := h
    refine ⟨hv, ?_⟩
    rw [hn a (List.mem_cons_self ..)]
    exact ih hl fun b hb => hn b (List.mem_cons_of_mem a hb)

theorem last_eq {q : LinkedQueue α} {l : List α} {fuel : Nat} {p : Place α}
    (h : Leads q.next (q.load p) l) (hf : l.length < fuel) :
    q.last fuel p = some (l.getLast?.elim p .next) := by
  induction l generalizing fuel p with
  | nil =>
    obtain ⟨fuel, rfl⟩ := Nat.exists_eq_succ_of_ne_zero (Nat.ne_zero_of_lt hf)
    have hv : q.load p = none := h
    simp only [last, hv]
    rfl
  | cons a l ih =>
    obtain ⟨fuel, rfl⟩ := Nat.exists_eq_succ_of_ne_zero (Nat.ne_zero_of_lt hf)
    obtain ⟨hv, hl⟩ := h
    have hrest := ih (p := .next a) hl (Nat.lt_of_succ_lt_succ hf)
    simp only [last, hv]
    rw [hrest, List.getLast?_cons]
    cases l.getLast? <;> rfl

theorem Leads.snoc [DecidableEq α] {next : α → Option α} {v : Option α} {l : List α} {a b : α} (h : Leads next v (l ++ [b]))
    (hnd : (l ++ [b]).Nodup) (ha : next a = none) (hab : a ≠ b) (hal : a ∉ l) :
    Leads (update next b (some a)) v (l ++ [b] ++ [a]) := by
  induction l generalizing v with
  | nil =>
    refine ⟨h.1, ?_, ?_⟩
    · exact update_self ..
    · exact (update_of_ne hab ..).trans ha
  | cons c l ih =>
    obtain ⟨hv, hl⟩ := h
    rw [List.cons_append, List.nodup_cons] at hnd
    have hcb : c ≠ b := by
      rintro rfl
      exact hnd.1 (List.mem_append_right l (List.mem_singleton_self c))
    refine ⟨hv, ?_⟩
    rw [update_of_ne hcb]
    exact ih hl hnd.2 fun hm => hal (List.mem_cons_of_mem c hm)

theorem Holds.push [DecidableEq α] {q : LinkedQueue α} {l : List α} {a : α} {fuel : Nat} (h : q.Holds l)
    (ha : a ∉ l) (hf : l.length < fuel) :
    ∃ q', q.push fuel a = some q' ∧ q'.Holds (l ++ [a]) := by
  have hcut : Leads (q.store none (.next a)).next q.head l :=
    h.leads.congr fun b hb => update_of_ne (ne_of_mem_of_not_mem hb ha) ..
  have hnd : (l ++ [a]).Nodup := List.nodup_append.2 ⟨h.nodup, List.nodup_singleton a, fun b hb c hc => by
    rintro rfl
    exact ha (List.mem_singleton.1 hc ▸ hb)⟩
  have hlast := last_eq (q := q.store none (.next a)) (p := .head) hcut hf
  refine ⟨_, by rw [LinkedQueue.push, hlast, Option.map_some], ?_⟩
  rcases List.eq_nil_or_concat l with rfl | ⟨l', b, rfl⟩
  · exact ⟨⟨rfl, update_self ..⟩, hnd⟩
  · rw [List.concat_eq_append] at *
    have hab : a ≠ b := fun he => ha (List.mem_append_right l' (List.mem_singleton.2 he))
    have hal : a ∉ l' := fun hm => ha (List.mem_append_left [b] hm)
    rw [List.getLast?_append_of_ne_nil _ (List.cons_ne_nil b []), List.getLast?_singleton]
    exact ⟨hcut.snoc h.nodup (update_self ..) hab hal, hnd⟩

theorem Holds.pop {q : LinkedQueue α} {l : List α} {a : α} (h : q.Holds (a :: l)) : (q.pop a).Holds l :=
  ⟨h.leads.2, (List.nodup_cons.1 h.nodup).2⟩

theorem Holds.head_eq {q : LinkedQueue α} {l : List α} (h : q.Holds l) : q.head = l.head? := by
  cases l with
  | nil => exact h.leads
  | cons a l => exact h.leads.1

end LinkedQueue
