import Xv6.Circuit
import Xv6.Tiling
import Xv6.Umalloc

/-!
# The user heap is well formed

The free blocks with `base` in front of them are a circuit of links in the order of their addresses,
with a gap after each. Together with the live allocations they tile what `sbrk` has given. The loops of
`malloc` and `free` walk along this circuit, so they come to the place they look for; a block that is
put in and joined with its neighbours is `Extent.coalesce`.
-/

namespace Xv6.Umalloc

open Prog Extent Circuit Function

/-! ### Statement -/

/-- `base` lies below the heap, which starts at `brk₀`. -/
structure Layout (base brk₀ : Nat) : Prop where
  pos : 0 < base
  below : base + 8 ≤ brk₀
  top : brk₀ < 2 ^ 31

/-- `base` as a block. -/
def baseBlock (base : Nat) : Extent := ⟨base, 0⟩

structure WellFormed (base brk₀ : Nat) (s : Heap) (free live : List Extent) : Prop where
  /-- The list is circular and goes through `base` once. -/
  links : Threaded (fun p => (s.hdr p).ptr) ((baseBlock base :: free).map start) base
  freep : s.freep ∈ (baseBlock base :: free).map start
  /-- In increasing order, and no two blocks touch. -/
  spread : Spread (baseBlock base :: free)
  /-- Free blocks and allocations do not overlap, and they are all that `sbrk` has given. -/
  tiles : Tiles brk₀ s.brk (free ++ live)
  sizes : ∀ b ∈ baseBlock base :: (free ++ live), 8 * (s.hdr b.start).size = b.len
  brk : s.brk < 2 ^ 31

inductive Reach (base brk₀ : Nat) : Heap → List Extent → Prop
  | start {s : Heap} (hf : s.freep = 0) (hb : s.brk = brk₀) : Reach base brk₀ s []
  | null {s s' : Heap} {live : List Extent} {n : Nat} (h : Reach base brk₀ s live) (hn : 8 * ((n + 7) / 8 + 1) < 2 ^ 31 - 2 ^ 15)
      (hr : (malloc base n).run s = .ok (0, s')) : Reach base brk₀ s' live
  | malloc {s s' : Heap} {live : List Extent} {n r : Nat} (h : Reach base brk₀ s live)
      (hn : 8 * ((n + 7) / 8 + 1) < 2 ^ 31 - 2 ^ 15)
      (hr : (malloc base n).run s = .ok (r, s')) (h0 : r ≠ 0) : Reach base brk₀ s' (⟨r - 8, 8 * ((n + 7) / 8 + 1)⟩ :: live)
  | free {s s' : Heap} {live : List Extent} {b : Extent} (h : Reach base brk₀ s live) (hb : b ∈ live)
      (hr : (free (b.start + 8)).run s = .ok ((), s')) : Reach base brk₀ s' (live.erase b)
  /-- The program writes to its allocations, and the kernel's memory changes. -/
  | other {s : Heap} {live : List Extent} {hdr : Nat → Header} {refused : List Bool} (h : Reach base brk₀ s live)
      (hw : ∀ p, p = base ∨ brk₀ ≤ p ∧ p < s.brk ∧ (∀ b ∈ live, ¬ (b.start < p ∧ p < b.finish)) → hdr p = s.hdr p) :
      Reach base brk₀ { s with hdr, refused } live

/-- The heap with another header at `p`. -/
def Heap.put (s : Heap) (p : Nat) (h : Header) : Heap := { s with hdr := update s.hdr p h }

/-! ### The circuit of free blocks -/

section

variable {base brk₀ n : Nat} {s s' : Heap} {free live R₁ R₂ : List Extent} {a b c : Extent} {E : Fault → Prop}

abbrev succ (s : Heap) (p : Nat) : Nat := (s.hdr p).ptr

theorem spread_start_lt (h : Spread (R₁ ++ a :: R₂)) : (∀ c ∈ R₁, c.finish < a.start) ∧ ∀ c ∈ R₂, a.finish < c.start := by
  obtain ⟨-, h₂, h₁₂⟩ := List.pairwise_append.1 h
  exact ⟨fun c hc => h₁₂ c hc a (List.mem_cons_self ..), (List.pairwise_cons.1 h₂).1⟩

theorem finish_ge (a : Extent) : a.start ≤ a.finish := Nat.le_add_right ..

theorem succ_eq (h : Threaded (succ s) ((R₁ ++ a :: R₂).map start) base) : succ s a.start = (R₂.map start).headD base := by
  rw [List.map_append, threaded_append, List.map_cons] at h
  exact h.2.1

theorem WellFormed.base_le (h : WellFormed base brk₀ s free live) (hb : b ∈ baseBlock base :: free) : base ≤ b.start := by
  rcases List.mem_cons.1 hb with rfl | hb
  · exact Nat.le_refl _
  · have := (List.pairwise_cons.1 h.spread).1 b hb
    exact Nat.le_of_lt this

theorem WellFormed.between_iff (h : WellFormed base brk₀ s free live) (hF : baseBlock base :: free = R₁ ++ a :: R₂) {bp : Nat}
    (hbp : base < bp) (hne : ∀ c ∈ R₂, bp ≠ c.start) : Between s.hdr bp a.start ↔ a.start < bp ∧ ∀ c ∈ R₂, bp < c.start := by
  have hlinks := h.links
  have hspread := h.spread
  rw [hF] at hlinks hspread
  have hsucc := succ_eq hlinks
  obtain ⟨-, hafter⟩ := spread_start_lt hspread
  have ha := finish_ge a
  rw [Between, show (s.hdr a.start).ptr = succ s a.start from rfl, hsucc]
  cases R₂ with
  | nil =>
    have hle : base ≤ a.start := h.base_le (by rw [hF]; exact List.mem_append.2 (.inr (List.mem_cons_self ..)))
    simp only [List.map_nil, List.headD_nil]
    constructor
    · intro hb
      exact ⟨by omega, fun c hc => absurd hc List.not_mem_nil⟩
    · intro hb
      exact .inr ⟨hle, .inl hb.1⟩
  | cons c R₂ =>
    have hc := hafter c (List.mem_cons_self ..)
    simp only [List.map_cons, List.headD_cons]
    constructor
    · intro hb
      refine ⟨by omega, fun d hd => ?_⟩
      rcases List.mem_cons.1 hd with rfl | hd
      · omega
      · have hcd : c.finish < d.start := by
          have := (List.pairwise_cons.1 (List.pairwise_cons.1 (List.pairwise_append.1 hspread).2.1).2).1
          exact this d hd
        have := finish_ge c
        omega
    · intro hb
      exact .inl ⟨hb.1, hb.2 c (List.mem_cons_self ..)⟩

theorem exists_split {l : List Extent} {x : Nat} (h : Spread (a :: l)) (ha : a.start < x) :
    ∃ R₁ c R₂, a :: l = R₁ ++ c :: R₂ ∧ c.start < x ∧ ∀ d ∈ R₂, x ≤ d.start := by
  induction l generalizing a with
  | nil => exact ⟨[], a, [], rfl, ha, fun d hd => absurd hd List.not_mem_nil⟩
  | cons c l ih =>
    obtain ⟨hac, hcl⟩ := List.pairwise_cons.1 h
    by_cases hc : c.start < x
    · obtain ⟨R₁, e, R₂, he, hex, hR⟩ := ih hcl hc
      exact ⟨a :: R₁, e, R₂, by rw [he]; rfl, hex, hR⟩
    · refine ⟨[], a, c :: l, rfl, ha, fun d hd => ?_⟩
      rcases List.mem_cons.1 hd with rfl | hd
      · omega
      · have := (List.pairwise_cons.1 hcl).1 d hd
        have := finish_ge c
        simp only [Before] at *
        omega

theorem freeLoop_skip {bp fuel p k : Nat} (hk : ∀ j, j < k → ¬ Between s.hdr bp ((succ s)^[j] p)) :
    (freeLoop bp (fuel + k) p).run s = (freeLoop bp fuel ((succ s)^[k] p)).run s := by
  induction k generalizing p with
  | zero => rfl
  | succ k ih =>
    have h0 : ¬ Between s.hdr bp p := hk 0 (Nat.succ_pos k)
    have hstep : (freeLoop bp (fuel + (k + 1)) p).run s = (freeLoop bp (fuel + k) (succ s p)).run s := by
      rw [← Nat.add_assoc, freeLoop, StateT.run_bind]
      change StateT.run (if Between s.hdr bp p then pure p else freeLoop bp (fuel + k) (s.hdr p).ptr) s = _
      rw [if_neg h0]
    rw [hstep, ih fun j hj => ?_]
    · rfl
    · exact hk (j + 1) (Nat.succ_lt_succ hj)

/-! ### Blocks and allocations -/

theorem WellFormed.length_lt (h : WellFormed base brk₀ s free live) : free.length < 2 ^ 28 := by
  have hsum : ∀ l : List Extent, (∀ b ∈ l, 8 ≤ b.len) → 8 * l.length ≤ (l.map len).sum := by
    intro l hl
    induction l with
    | nil => exact Nat.le_refl 0
    | cons b l ih =>
      have hb := hl b (List.mem_cons_self ..)
      have := ih fun c hc => hl c (List.mem_cons_of_mem b hc)
      simp only [List.length_cons, List.map_cons, List.sum_cons]
      omega
  have hfree := hsum free fun b hb => by
    have hpos := (h.tiles.inside b (List.mem_append.2 (.inl hb))).2.2
    have hsize := h.sizes b (List.mem_cons_of_mem _ (List.mem_append.2 (.inl hb)))
    omega
  have htotal := h.tiles.total
  rw [List.map_append, List.sum_append] at htotal
  have := h.brk
  omega

theorem WellFormed.live_inside (h : WellFormed base brk₀ s free live) (hb : b ∈ live) : brk₀ ≤ b.start ∧
    b.finish ≤ s.brk ∧ 0 < b.len :=
  h.tiles.inside b (List.mem_append.2 (.inr hb))

theorem WellFormed.free_inside (h : WellFormed base brk₀ s free live) (hc : c ∈ free) : brk₀ ≤ c.start ∧
    c.finish ≤ s.brk ∧ 0 < c.len :=
  h.tiles.inside c (List.mem_append.2 (.inl hc))

theorem WellFormed.apart (hL : Layout base brk₀) (h : WellFormed base brk₀ s free live)
    (hc : c ∈ baseBlock base :: free) (hb : b ∈ live) :
    c.finish ≤ b.start ∨ b.finish ≤ c.start := by
  rcases List.mem_cons.1 hc with rfl | hc
  · have := (h.live_inside hb).1
    have := hL.below
    exact .inl (by simp only [baseBlock, finish]; omega)
  · exact (List.pairwise_append.1 h.tiles.apart).2.2 c hc b hb

theorem WellFormed.size_ring (h : WellFormed base brk₀ s free live) (hc : c ∈ baseBlock base :: free) :
    8 * (s.hdr c.start).size = c.len := by
  rcases List.mem_cons.1 hc with rfl | hc
  · exact h.sizes _ (List.mem_cons_self ..)
  · exact h.sizes c (List.mem_cons_of_mem _ (List.mem_append.2 (.inl hc)))

theorem WellFormed.start_ne (hL : Layout base brk₀) (h : WellFormed base brk₀ s free live)
    (hc : c ∈ baseBlock base :: free) (hb : b ∈ live) :
    b.start ≠ c.start := by
  have hb' := h.live_inside hb
  rcases List.mem_cons.1 hc with rfl | hc'
  · have := hL.below
    simp only [baseBlock]
    omega
  · have hap := h.apart hL hc hb
    have hc' := h.free_inside hc'
    simp only [finish] at *
    omega

theorem WellFormed.base_lt (hL : Layout base brk₀) (h : WellFormed base brk₀ s free live) (hb : b ∈ live) : base < b.start := by
  have := (h.live_inside hb).1
  have := hL.below
  omega

theorem freeLoop_spec (hL : Layout base brk₀) (h : WellFormed base brk₀ s free live) (hb : b ∈ live) :
    wp (freeLoop b.start steps s.freep) (fun p s' => s' = s ∧ ∃ R₁ a R₂, baseBlock base :: free = R₁ ++ a :: R₂ ∧ p = a.start ∧
      a.finish ≤ b.start ∧ ∀ c ∈ R₂, b.finish ≤ c.start) E s := by
  have hbase := h.base_lt hL hb
  have hne : ∀ c ∈ baseBlock base :: free, b.start ≠ c.start := fun c hc => h.start_ne hL hc hb
  -- there is a place to stop at
  obtain ⟨S₁, c, S₂, hS, hc, hS₂⟩ := exists_split h.spread (show (baseBlock base).start < b.start from hbase)
  have hmemS : ∀ d ∈ S₂, d ∈ baseBlock base :: free := fun d hd => by
    rw [hS]
    exact List.mem_append.2 (.inr (List.mem_cons_of_mem c hd))
  have hmemc : c ∈ baseBlock base :: free := by
    rw [hS]
    exact List.mem_append.2 (.inr (List.mem_cons_self ..))
  have hstop := (h.between_iff hS hbase fun d hd => hne d (hmemS d hd)).2
    ⟨hc, fun d hd => Nat.lt_of_le_of_ne (hS₂ d hd) (hne d (hmemS d hd))⟩
  obtain ⟨k, hk, hz, hmin⟩ := exists_first (a := base) (l := free.map start) h.links h.freep (List.mem_map_of_mem hmemc) hstop
  rw [List.length_map] at hk
  have hlen := h.length_lt
  obtain ⟨fuel, hfuel⟩ : ∃ fuel, steps = fuel + 1 + k := ⟨steps - 1 - k, by simp only [steps]; omega⟩
  -- the place it does stop at is as good
  have hmem : (succ s)^[k] s.freep ∈ (baseBlock base :: free).map start := iterate_mem (a := base) h.links h.freep k
  obtain ⟨e, he, hez⟩ := List.mem_map.1 hmem
  obtain ⟨R₁, R₂, hR⟩ := List.append_of_mem he
  have hmemR : ∀ d ∈ R₂, d ∈ baseBlock base :: free := fun d hd => by
    rw [hR]
    exact List.mem_append.2 (.inr (List.mem_cons_of_mem e hd))
  rw [← hez] at hz
  obtain ⟨heb, hafter⟩ := (h.between_iff hR hbase fun d hd => hne d (hmemR d hd)).1 hz
  have hrun : (freeLoop b.start steps s.freep).run s = .ok (e.start, s) := by
    rw [hfuel, freeLoop_skip hmin, ← hez, freeLoop, StateT.run_bind]
    change StateT.run (if Between s.hdr b.start e.start then pure e.start else _) s = _
    rw [if_pos hz]
    rfl
  have hpos := (h.live_inside hb).2.2
  refine wp_of_ok hrun ⟨rfl, R₁, e, R₂, hR, rfl, ?_, fun d hd => ?_⟩
  · rcases h.apart hL he hb with hap | hap
    · exact hap
    · simp only [finish] at *
      omega
  · rcases h.apart hL (hmemR d hd) hb with hap | hap
    · have := hafter d hd
      simp only [finish] at *
      omega
    · exact hap

/-! ### Putting a block in -/

theorem put_put {p : Nat} {h h' : Header} : (s.put p h).put p h' = s.put p h' := by
  rw [Heap.put, Heap.put, Heap.put, update_idem]

theorem put_hdr_self {p : Nat} {h : Header} : (s.put p h).hdr p = h := update_self ..

theorem put_hdr_ne {p q : Nat} {h : Header} (hpq : p ≠ q) : (s.put q h).hdr p = s.hdr p := update_of_ne hpq ..

@[simp] theorem wp_setPtr {p v : Nat} {Q : Unit → Heap → Prop} :
    wp (setPtr p v) Q E s ↔ Q () (s.put p { s.hdr p with ptr := v }) := Iff.rfl

@[simp] theorem wp_setSize {p v : Nat} {Q : Unit → Heap → Prop} :
    wp (setSize p v) Q E s ↔ Q () (s.put p { s.hdr p with size := v % 2 ^ 32 }) := Iff.rfl

theorem plus_eq {p m : Nat} (h : p + 8 * m < 2 ^ 32) : plus p m = p + 8 * m := Nat.mod_eq_of_lt h

theorem putUpper_spec {p : Nat} (hq : succ s p = (R₂.map start).headD base) (hlinks : Threaded (succ s) (R₂.map start) base)
    (hsize : ∀ c ∈ b :: R₂, 8 * (s.hdr c.start).size = c.len ∧ c.finish < 2 ^ 31) (hbase : base < b.start) :
    wp (putUpper b.start p) (fun _ s' =>
      s' = s.put b.start ⟨((b.joinNext R₂).2.map start).headD base, (b.joinNext R₂).1.len / 8⟩) E s := by
  obtain ⟨hb, hb31⟩ := hsize b (List.mem_cons_self ..)
  have hplus : plus b.start (s.hdr b.start).size = b.finish := by
    rw [plus_eq, hb]
    · rfl
    · rw [hb]
      simp only [finish] at hb31
      omega
  have hbfin := finish_ge b
  rw [putUpper]
  refine wp_bind.2 (wp_get.2 ?_)
  rw [show (s.hdr p).ptr = succ s p from rfl, hq, hplus]
  cases R₂ with
  | nil =>
    rw [if_neg (by simp only [List.map_nil, List.headD_nil]; omega), wp_setPtr]
    refine congrArg (s.put b.start) (congrArg (Header.mk base) ?_)
    simp only [joinNext]
    omega
  | cons c R₂ =>
    obtain ⟨hc, hc31⟩ := hsize c (List.mem_cons_of_mem b (List.mem_cons_self ..))
    rw [List.map_cons, List.headD_cons, joinNext]
    by_cases he : b.finish = c.start
    · rw [if_pos he, if_pos he]
      refine wp_bind.2 (wp_setSize.2 (wp_setPtr.2 ?_))
      rw [put_put, put_hdr_self]
      have hptr : (s.hdr c.start).ptr = (R₂.map start).headD base := hlinks.1
      have hsz : ((s.hdr b.start).size + (s.hdr c.start).size) % 2 ^ 32 = (b.join c).len / 8 := by
        simp only [Extent.join, finish] at *
        omega
      rw [hptr, hsz]
    · rw [if_neg he, if_neg he, wp_setPtr]
      refine congrArg (s.put b.start) (congrArg (Header.mk c.start) ?_)
      change (s.hdr b.start).size = b.len / 8
      omega

theorem putLower_spec {bp m q : Nat} (hb : s.hdr bp = ⟨q, m⟩) (ha : 8 * (s.hdr a.start).size = a.len)
    (ha31 : a.finish < 2 ^ 31) (hm : a.len / 8 + m < 2 ^ 31) :
    wp (putLower bp a.start) (fun _ s' =>
      s' = s.put a.start (if a.finish = bp then ⟨q, a.len / 8 + m⟩ else ⟨bp, a.len / 8⟩)) E s := by
  have hsz : (s.hdr a.start).size = a.len / 8 := by omega
  have hplus : plus a.start (s.hdr a.start).size = a.finish := by
    rw [plus_eq, ha]
    · rfl
    · rw [ha]
      simp only [finish] at ha31
      omega
  rw [putLower]
  refine wp_bind.2 (wp_get.2 ?_)
  rw [hplus, hb]
  by_cases he : a.finish = bp
  · rw [if_pos he, if_pos he]
    refine wp_bind.2 (wp_setSize.2 (wp_setPtr.2 ?_))
    rw [put_put, put_hdr_self, hsz, Nat.mod_eq_of_lt (by dsimp only; omega)]
  · rw [if_neg he, if_neg he, wp_setPtr]
    exact congrArg (s.put a.start) (congrArg (Header.mk bp) hsz)

theorem joinNext_subset {l : List Extent} : ∀ c ∈ (b.joinNext l).2, c ∈ l := by
  cases l with
  | nil => exact fun c hc => hc
  | cons d l =>
    rw [joinNext]
    split
    · exact fun c hc => List.mem_cons_of_mem d hc
    · exact fun c hc => hc

theorem linked_joinNext {l : List Extent} {next : Nat → Nat} (h : Threaded next (l.map start) base) :
    Threaded next ((b.joinNext l).2.map start) base := by
  cases l with
  | nil => exact h
  | cons d l =>
    rw [joinNext]
    split
    · exact h.2
    · exact h

theorem linked_coalesce {next : Nat → Nat} (h₁ : Threaded next (R₁.map start) a.start)
    (h₂ : Threaded next ((b.joinNext R₂).2.map start) base)
    (ha : next a.start = if a.finish = b.start then ((b.joinNext R₂).2.map start).headD base else b.start)
    (hb : a.finish ≠ b.start → next b.start = ((b.joinNext R₂).2.map start).headD base) :
    Threaded next ((coalesce R₁ a b R₂).map start) base := by
  rw [coalesce, joinNext_start]
  by_cases he : a.finish = b.start
  · rw [if_pos he] at ha ⊢
    rw [List.map_append, threaded_append]
    exact ⟨h₁, ha, h₂⟩
  · rw [if_neg he] at ha ⊢
    rw [List.map_append, threaded_append]
    refine ⟨h₁, ha.trans ?_, ?_, h₂⟩
    · exact joinNext_start.symm
    · rw [joinNext_start]
      exact hb he

theorem exists_mem_coalesce : ∃ c ∈ coalesce R₁ a b R₂, b.len ≤ c.len := by
  have hnext : b.len ≤ (b.joinNext R₂).1.len := by
    cases R₂ with
    | nil => exact Nat.le_refl _
    | cons d l =>
      rw [joinNext]
      split
      · exact Nat.le_add_right ..
      · exact Nat.le_refl _
  rw [coalesce]
  split
  · exact ⟨_, List.mem_append.2 (.inr (List.mem_cons_self ..)), hnext.trans (Nat.le_add_left ..)⟩
  · exact ⟨_, List.mem_append.2 (.inr (List.mem_cons_of_mem _ (List.mem_cons_self ..))), hnext⟩

theorem coalesce_cons {r : Extent} : coalesce (r :: R₁) a b R₂ = r :: coalesce R₁ a b R₂ := by
  unfold coalesce
  split <;> rfl

theorem joinNext_finish {l : List Extent} {m : Nat} (h : ∀ c ∈ b :: l, c.finish ≤ m) : (b.joinNext l).1.finish ≤ m := by
  cases l with
  | nil => exact h b (List.mem_cons_self ..)
  | cons d l =>
    rw [joinNext]
    split
    · next he =>
      rw [finish_join he]
      exact h d (List.mem_cons_of_mem b (List.mem_cons_self ..))
    · exact h b (List.mem_cons_self ..)

theorem joinNext_dvd {l : List Extent} (h : ∀ c ∈ b :: l, 8 ∣ c.len) : 8 ∣ (b.joinNext l).1.len := by
  cases l with
  | nil => exact h b (List.mem_cons_self ..)
  | cons d l =>
    rw [joinNext]
    split
    · exact Nat.dvd_add (h b (List.mem_cons_self ..)) (h d (List.mem_cons_of_mem b (List.mem_cons_self ..)))
    · exact h b (List.mem_cons_self ..)

theorem mem_coalesce (hc : c ∈ coalesce R₁ a b R₂) : c ∈ R₁ ∨ c ∈ (b.joinNext R₂).2 ∨
    (a.finish = b.start ∧ c = a.join (b.joinNext R₂).1) ∨ (a.finish ≠ b.start ∧ (c = a ∨ c = (b.joinNext R₂).1)) := by
  rw [coalesce, joinNext_start] at hc
  by_cases he : a.finish = b.start
  · rw [if_pos he] at hc
    rcases List.mem_append.1 hc with hc | hc
    · exact .inl hc
    · rcases List.mem_cons.1 hc with hc | hc
      · exact .inr (.inr (.inl ⟨he, hc⟩))
      · exact .inr (.inl hc)
  · rw [if_neg he] at hc
    rcases List.mem_append.1 hc with hc | hc
    · exact .inl hc
    · rcases List.mem_cons.1 hc with hc | hc
      · exact .inr (.inr (.inr ⟨he, .inl hc⟩))
      · rcases List.mem_cons.1 hc with hc | hc
        · exact .inr (.inr (.inr ⟨he, .inr hc⟩))
        · exact .inr (.inl hc)

theorem exists_free (hL : Layout base brk₀) (h : WellFormed base brk₀ s free live) (hb : b ∈ live)
    (hF : baseBlock base :: free = R₁ ++ a :: R₂) : ∃ free', coalesce R₁ a b R₂ = baseBlock base ::
      free' ∧ Tiles brk₀ s.brk (free' ++ live.erase b) := by
  have hperm : (free ++ live).Perm (b :: (free ++ live.erase b)) := by
    refine List.Perm.trans ?_ List.perm_middle
    exact List.Perm.append_left free (List.perm_cons_erase hb)
  have ht := h.tiles.perm hperm
  cases R₁ with
  | nil =>
    obtain ⟨rfl, rfl⟩ := List.cons.inj hF
    refine ⟨(b.joinNext free).1 :: (b.joinNext free).2, ?_, ht.joinNext⟩
    have := h.base_lt hL hb
    rw [coalesce, joinNext_start, if_neg (by simp only [baseBlock, finish]; omega)]
    rfl
  | cons r R₁ =>
    obtain ⟨rfl, rfl⟩ := List.cons.inj hF
    exact ⟨coalesce R₁ a b R₂, coalesce_cons, ht.coalesce⟩

/-- What `free` has stored. -/
structure Put (a b : Extent) (R₂ : List Extent) (base : Nat) (s s' : Heap) : Prop where
  low : s'.hdr a.start = if a.finish = b.start then ⟨((b.joinNext R₂).2.map start).headD base,
    a.len / 8 + (b.joinNext R₂).1.len / 8⟩
    else ⟨b.start, a.len / 8⟩
  new : s'.hdr b.start = ⟨((b.joinNext R₂).2.map start).headD base, (b.joinNext R₂).1.len / 8⟩
  rest : ∀ p, p ≠ a.start → p ≠ b.start → s'.hdr p = s.hdr p
  freep : s'.freep = a.start
  brk : s'.brk = s.brk

theorem Put.wellFormed (hL : Layout base brk₀) (h : WellFormed base brk₀ s free live) (hb : b ∈ live)
    (hF : baseBlock base :: free = R₁ ++ a :: R₂) (hab : a.finish ≤ b.start)
      (hR₂ : ∀ c ∈ R₂, b.finish ≤ c.start) (hp : Put a b R₂ base s s') :
    ∃ free', WellFormed base brk₀ s' free' (live.erase b) ∧ ∃ c ∈ free', b.len ≤ c.len := by
  obtain ⟨free', hF', ht⟩ := exists_free hL h hb hF
  have hmem : ∀ c ∈ R₁ ++ a :: R₂, c ∈ baseBlock base :: free := fun c hc => by rwa [hF]
  have hamem := hmem a (List.mem_append.2 (.inr (List.mem_cons_self ..)))
  have hR₁mem : ∀ c ∈ R₁, c ∈ baseBlock base :: free := fun c hc => hmem c (List.mem_append.2 (.inl hc))
  have hR₂mem : ∀ c ∈ (b.joinNext R₂).2, c ∈ baseBlock base :: free := fun c hc =>
    hmem c (List.mem_append.2 (.inr (List.mem_cons_of_mem a (joinNext_subset c hc))))
  have hlinks := h.links
  have hspread := h.spread
  rw [hF] at hlinks hspread
  rw [List.map_append, threaded_append] at hlinks
  obtain ⟨hl₁, -, hl₂⟩ := hlinks
  obtain ⟨hbefore, hafter⟩ := spread_start_lt hspread
  have hposb := (h.live_inside hb).2.2
  have hne : a.start ≠ b.start := fun he => h.start_ne hL hamem hb he.symm
  -- the other blocks keep their headers
  have hold₁ : ∀ c ∈ R₁, s'.hdr c.start = s.hdr c.start := fun c hc => by
    have := hbefore c hc
    have := finish_ge c
    exact hp.rest _ (by omega) fun he => h.start_ne hL (hR₁mem c hc) hb he.symm
  have hold₂ : ∀ c ∈ (b.joinNext R₂).2, s'.hdr c.start = s.hdr c.start := fun c hc => by
    have := hafter c (joinNext_subset c hc)
    have := finish_ge a
    exact hp.rest _ (by omega) fun he => h.start_ne hL (hR₂mem c hc) hb he.symm
  have hsize := fun c => h.size_ring (c := c)
  have hdvdb : 8 ∣ (b.joinNext R₂).1.len := joinNext_dvd fun c hc => by
    rcases List.mem_cons.1 hc with rfl | hc
    · exact ⟨_, (h.sizes c (List.mem_cons_of_mem _ (List.mem_append.2 (.inr hb)))).symm⟩
    · exact ⟨_, (hsize c (hmem c (List.mem_append.2 (.inr (List.mem_cons_of_mem a hc))))).symm⟩
  have hdvda : 8 ∣ a.len := ⟨_, (hsize a hamem).symm⟩
  refine ⟨free', ⟨?_, ?_, ?_, ?_, fun c hc => ?_, ?_⟩, ?_⟩
  · rw [← hF']
    refine linked_coalesce (hl₁.congr fun x hx => ?_) (linked_joinNext hl₂ |>.congr fun x hx => ?_) ?_ fun _ => ?_
    · obtain ⟨c, hc, rfl⟩ := List.mem_map.1 hx
      rw [hold₁ c hc]
    · obtain ⟨c, hc, rfl⟩ := List.mem_map.1 hx
      rw [hold₂ c hc]
    · rw [hp.low]
      split <;> rfl
    · rw [hp.new]
  · rw [← hF', hp.freep, coalesce]
    split
    · exact List.mem_map.2 ⟨_, List.mem_append.2 (.inr (List.mem_cons_self ..)), rfl⟩
    · exact List.mem_map.2 ⟨_, List.mem_append.2 (.inr (List.mem_cons_self ..)), rfl⟩
  · rw [← hF']
    exact spread_coalesce hspread hab hR₂
  · rw [hp.brk]
    exact ht
  · rw [← List.cons_append, ← hF'] at hc
    rcases List.mem_append.1 hc with hc | hc
    · rcases mem_coalesce hc with hc | hc | ⟨he, rfl⟩ | ⟨he, rfl | rfl⟩
      · rw [hold₁ c hc]
        exact hsize c (hR₁mem c hc)
      · rw [hold₂ c hc]
        exact hsize c (hR₂mem c hc)
      · change 8 * (s'.hdr a.start).size = a.len + (b.joinNext R₂).1.len
        rw [hp.low, if_pos he]
        dsimp only
        omega
      · rw [hp.low, if_neg he]
        dsimp only
        omega
      · rw [joinNext_start, hp.new]
        dsimp only
        omega
    · -- another allocation
      have hcl : c ∈ live := List.mem_of_mem_erase hc
      have hap : Separate b c := by
        have hpw := h.tiles.perm (List.Perm.append_left free (List.perm_cons_erase hb))
        exact (List.pairwise_cons.1 (List.pairwise_append.1 hpw.apart).2.1).1 c hc
      have hposc := (h.live_inside hcl).2.2
      rw [hp.rest c.start (h.start_ne hL hamem hcl) (by simp only [Separate, finish] at hap; omega)]
      exact h.sizes c (List.mem_cons_of_mem _ (List.mem_append.2 (.inr hcl)))
  · rw [hp.brk]
    exact h.brk
  · obtain ⟨c, hc, hlen⟩ : ∃ c ∈ coalesce R₁ a b R₂, b.len ≤ c.len := exists_mem_coalesce
    rw [hF'] at hc
    rcases List.mem_cons.1 hc with rfl | hc
    · simp only [baseBlock] at hlen
      omega
    · exact ⟨c, hc, hlen⟩

theorem free_spec (hL : Layout base brk₀) (h : WellFormed base brk₀ s free live) (hb : b ∈ live) :
    wp (Umalloc.free (b.start + 8)) (fun _ s' => s'.brk = s.brk ∧
      ∃ free', WellFormed base brk₀ s' free' (live.erase b) ∧ ∃ c ∈ free', b.len ≤ c.len) E s := by
  rw [Umalloc.free, Nat.add_sub_cancel]
  refine wp_bind.2 (wp_get.2 (wp.bind (freeLoop_spec hL h hb) ?_))
  rintro _ s ⟨rfl, R₁, a, R₂, hF, rfl, hab, hR₂⟩
  have hlinks := h.links
  rw [hF] at hlinks
  have hsucc := succ_eq hlinks
  rw [List.map_append, threaded_append] at hlinks
  have hmem : ∀ c ∈ a :: R₂, c ∈ baseBlock base :: free := fun c hc => by
    rw [hF]
    exact List.mem_append.2 (.inr hc)
  have hfin : ∀ c ∈ baseBlock base :: free, c.finish < 2 ^ 31 := fun c hc => by
    have hbrk := h.brk
    rcases List.mem_cons.1 hc with rfl | hc
    · have := hL.below
      have := hL.top
      simp only [baseBlock, finish]
      omega
    · have := (h.free_inside hc).2.1
      omega
  have hsize := fun c => h.size_ring (c := c)
  have hbfin : b.finish < 2 ^ 31 := by
    have := (h.live_inside hb).2.1
    have := h.brk
    omega
  have hamem := hmem a (List.mem_cons_self ..)
  have hne : a.start ≠ b.start := fun he => h.start_ne hL hamem hb he.symm
  have hup : ∀ c ∈ b :: R₂, 8 * (s.hdr c.start).size = c.len ∧ c.finish < 2 ^ 31 := fun c hc => by
    rcases List.mem_cons.1 hc with rfl | hc
    · exact ⟨h.sizes c (List.mem_cons_of_mem _ (List.mem_append.2 (.inr hb))), hbfin⟩
    · exact ⟨hsize c (hmem c (List.mem_cons_of_mem a hc)), hfin c (hmem c (List.mem_cons_of_mem a hc))⟩
  refine wp.bind (putUpper_spec hsucc hlinks.2.2 hup (h.base_lt hL hb)) ?_
  rintro _ s₁ rfl
  have hlen : a.len / 8 + (b.joinNext R₂).1.len / 8 < 2 ^ 31 := by
    have h1 : (b.joinNext R₂).1.finish ≤ 2 ^ 31 := joinNext_finish fun c hc => Nat.le_of_lt (hup c hc).2
    have h2 := hfin a hamem
    simp only [finish] at h1 h2
    omega
  refine wp.bind (putLower_spec put_hdr_self (by rw [put_hdr_ne hne]; exact hsize a hamem) (hfin a hamem) hlen) ?_
  rintro _ s₂ rfl
  refine (wp_modify _).2 ⟨rfl, Put.wellFormed hL h hb hF hab hR₂ ⟨?_, ?_, fun p hpa hpb => ?_, rfl, rfl⟩⟩
  · exact put_hdr_self
  · exact (put_hdr_ne hne.symm).trans put_hdr_self
  · exact (put_hdr_ne hpa).trans (put_hdr_ne hpb)

/-! ### More memory -/

theorem sbrk_spec {m : Nat} (hm : m < 2 ^ 31) : wp (sbrk m) (fun p s' => ∃ refused,
    p = 2 ^ 32 - 1 ∧ s' = { s with refused } ∨ p = s.brk ∧ s.brk + m < 2 ^ 31 ∧
      s' = { s with brk := s.brk + m, refused }) E s := by
  rw [sbrk]
  refine wp_bind.2 (wp_failIf.2 ⟨fun h => absurd h (by omega), fun _ => wp_bind.2 (wp_get.2 (wp_bind.2 ((wp_modify _).2 ?_)))⟩)
  split
  · exact ⟨_, .inl ⟨rfl, rfl⟩⟩
  · next h =>
    rw [not_or] at h
    exact wp_bind.2 ((wp_modify _).2 ⟨_, .inr ⟨rfl, by omega, rfl⟩⟩)

theorem WellFormed.grow {m : Nat} {refused : List Bool} (hL : Layout base brk₀)
    (h : WellFormed base brk₀ s free live) (hm : 0 < m)
    (htop : s.brk + 8 * m < 2 ^ 31) (s' : Heap) (hs' : s' = { s with brk := s.brk + 8 * m, refused }) :
    WellFormed base brk₀ (s'.put s.brk { s'.hdr s.brk with size := m }) free (⟨s.brk, 8 * m⟩ :: live) := by
  subst hs'
  have hlt : ∀ c ∈ baseBlock base :: (free ++ live), c.start ≠ s.brk := fun c hc => by
    have hbrk := h.tiles.total
    rcases List.mem_cons.1 hc with rfl | hc
    · have := hL.below
      simp only [baseBlock]
      omega
    · have := h.tiles.inside c hc
      simp only [finish] at this
      omega
  refine ⟨h.links.congr fun x _ => ?_, h.freep, h.spread, ?_, fun c hc => ?_, htop⟩
  · dsimp only [Heap.put]
    by_cases hx : x = s.brk
    · rw [hx, update_self]
    · rw [update_of_ne hx]
  · exact (h.tiles.grow (by omega)).perm List.perm_middle.symm
  · have hc' : c = ⟨s.brk, 8 * m⟩ ∨ c ∈ baseBlock base :: (free ++ live) := by
      simp only [List.mem_cons, List.mem_append] at hc ⊢
      tauto
    rcases hc' with rfl | hc'
    · rw [put_hdr_self]
    · rw [put_hdr_ne (hlt c hc')]
      exact h.sizes c hc'

theorem morecore_spec (hL : Layout base brk₀) (h : WellFormed base brk₀ s free live) (hn : 0 < n)
    (hlim : 8 * n < 2 ^ 31 - 2 ^ 15) :
    wp (morecore n) (fun r s' => r = 0 ∧ WellFormed base brk₀ s' free live ∨
      r ≠ 0 ∧ r = s'.freep ∧ ∃ free', WellFormed base brk₀ s' free' live ∧ ∃ c ∈ free', 8 * n ≤ c.len) E s := by
  rw [morecore]
  have hmax : n ≤ (if n < 4096 then 4096 else n) ∧ 8 * (if n < 4096 then 4096 else n) < 2 ^ 31 := by
    split <;> omega
  generalize (if n < 4096 then 4096 else n) = m at hmax
  obtain ⟨hnm, hm⟩ := hmax
  rw [Nat.mod_eq_of_lt (by omega)]
  refine wp.bind (sbrk_spec (by omega)) ?_
  rintro p s₁ ⟨refused, ⟨rfl, rfl⟩ | ⟨rfl, htop, hs₁⟩⟩
  · rw [if_pos rfl]
    exact .inl ⟨rfl, h.links, h.freep, h.spread, h.tiles, h.sizes, h.brk⟩
  · have hbrk := h.brk
    rw [if_neg (by omega)]
    have hg := h.grow hL (m := m) (by omega) (by omega) s₁ (by rw [hs₁, Nat.mul_comm])
    refine wp_bind.2 (wp_setSize.2 ?_)
    rw [Nat.mod_eq_of_lt (by omega), show plus s.brk 1 = s.brk + 8 from plus_eq (by omega)]
    have hfree := free_spec (E := E) hL hg (List.mem_cons_self ..)
    refine wp.bind hfree ?_
    rintro _ s₂ ⟨-, free', h₂, c, hc, hlen⟩
    rw [List.erase_cons_head] at h₂
    refine wp_bind.2 (wp_get.2 (.inr ⟨?_, rfl, free', h₂, c, hc, ?_⟩))
    · obtain ⟨d, hd, hds⟩ := List.mem_map.1 h₂.freep
      have := h₂.base_le hd
      have := hL.pos
      omega
    · dsimp only at hlen
      omega

/-! ### Taking a block -/

theorem exists_below {e : Extent} (hF : baseBlock base :: free = R₁ ++ e :: R₂) :
    ∃ T, free = T ++ R₂ ∧ ∀ l, R₁ ++ e :: l = baseBlock base :: (T ++ l) := by
  cases R₁ with
  | nil =>
    obtain ⟨rfl, rfl⟩ := List.cons.inj hF
    exact ⟨[], rfl, fun l => rfl⟩
  | cons r R₁ =>
    obtain ⟨rfl, rfl⟩ := List.cons.inj hF
    refine ⟨R₁ ++ [e], ?_, fun l => ?_⟩
    · rw [List.append_assoc]
      rfl
    · rw [List.append_assoc]
      rfl

theorem WellFormed.unlink {e : Extent} (h : WellFormed base brk₀ s free live) (hF : baseBlock base :: free = R₁ ++ e :: c :: R₂) :
    ∃ free', WellFormed base brk₀
      { s.put e.start { s.hdr e.start with ptr := succ s c.start } with freep := e.start } free'
      (c :: live) := by
  obtain ⟨T, rfl, hT⟩ := exists_below hF
  have hlinks := h.links
  have hspread := h.spread
  rw [hF] at hlinks hspread
  obtain ⟨hbefore, hafter⟩ := spread_start_lt hspread
  have hefin := finish_ge e
  have hsc : succ s c.start = (R₂.map start).headD base := by
    have hlinks' : Threaded (succ s) (((R₁ ++ [e]) ++ c :: R₂).map start) base := by
      rw [List.append_assoc]
      exact hlinks
    exact succ_eq hlinks'
  rw [List.map_append, threaded_append] at hlinks
  obtain ⟨hl₁, -, -, hl₂⟩ := hlinks
  refine ⟨T ++ R₂, ?_, ?_, ?_, ?_, fun d hd => ?_, h.brk⟩
  · rw [← hT R₂, List.map_append, threaded_append]
    refine ⟨hl₁.congr fun x hx => ?_, ?_, hl₂.congr fun x hx => ?_⟩
    · obtain ⟨d, hd, rfl⟩ := List.mem_map.1 hx
      have := hbefore d hd
      have := finish_ge d
      exact congrArg Header.ptr (put_hdr_ne (by omega))
    · exact (congrArg Header.ptr put_hdr_self).trans hsc
    · obtain ⟨d, hd, rfl⟩ := List.mem_map.1 hx
      have := hafter d (List.mem_cons_of_mem c hd)
      exact congrArg Header.ptr (put_hdr_ne (by omega))
  · rw [← hT R₂]
    exact List.mem_map.2 ⟨e, List.mem_append.2 (.inr (List.mem_cons_self ..)), rfl⟩
  · rw [← hT R₂]
    refine List.Pairwise.sublist ?_ hspread
    exact List.Sublist.append_left (List.Sublist.cons_cons e (List.sublist_cons_self c R₂)) R₁
  · refine h.tiles.perm (List.perm_iff_count.2 fun x => ?_)
    simp only [List.count_cons, List.count_append]
    omega
  · have hd' : d ∈ baseBlock base :: (T ++ c :: R₂ ++ live) := by
      simp only [List.mem_cons, List.mem_append] at hd ⊢
      tauto
    have hold := h.sizes d hd'
    by_cases hde : d.start = e.start
    · rw [hde] at hold ⊢
      exact (congrArg (fun x : Header => 8 * x.size) put_hdr_self).trans hold
    · exact (congrArg (fun x : Header => 8 * x.size) (put_hdr_ne hde)).trans hold

theorem spread_shrink {m : Nat} (h : Spread (R₁ ++ c :: R₂)) (hm : m ≤ c.len) : Spread (R₁ ++ ⟨c.start, m⟩ :: R₂) := by
  obtain ⟨h₁, h₂, h₁₂⟩ := List.pairwise_append.1 h
  obtain ⟨hc, h₂⟩ := List.pairwise_cons.1 h₂
  refine List.pairwise_append.2 ⟨h₁, List.pairwise_cons.2 ⟨fun d hd => ?_, h₂⟩, fun d hd e he => ?_⟩
  · have := hc d hd
    simp only [Before, finish] at *
    omega
  · rcases List.mem_cons.1 he with rfl | he
    · exact h₁₂ d hd c (List.mem_cons_self ..)
    · exact h₁₂ d hd e (List.mem_cons_of_mem c he)

theorem WellFormed.carve {e : Extent} {m : Nat} (hL : Layout base brk₀) (h : WellFormed base brk₀ s free live)
    (hF : baseBlock base :: free = R₁ ++ e :: c :: R₂) (hm : 0 < m) (hn : 0 < n) (hlen : c.len = 8 * m + 8 * n) :
    ∃ free', WellFormed base brk₀ { (s.put c.start { s.hdr c.start with size := m }).put (c.start + 8 * m)
      { (s.put c.start { s.hdr c.start with size := m }).hdr (c.start + 8 * m) with size := n } with freep := e.start } free'
      (⟨c.start + 8 * m, 8 * n⟩ :: live) := by
  obtain ⟨T, rfl, hT⟩ := exists_below hF
  have hcmem : c ∈ T ++ c :: R₂ := List.mem_append.2 (.inr (List.mem_cons_self ..))
  have hq : c.start + 8 * m ≠ c.start := by omega
  -- the links stay as they are
  have hptr : ∀ x, (((s.put c.start { s.hdr c.start with size := m }).put (c.start + 8 * m)
      { (s.put c.start { s.hdr c.start with size := m }).hdr (c.start + 8 * m) with size := n }).hdr x).ptr = (s.hdr x).ptr := by
    intro x
    by_cases hx : x = c.start + 8 * m
    · rw [hx, put_hdr_self, put_hdr_ne hq]
    · rw [put_hdr_ne hx]
      by_cases hxc : x = c.start
      · rw [hxc, put_hdr_self]
      · rw [put_hdr_ne hxc]
  -- the other blocks and allocations lie elsewhere
  have hperm : (T ++ c :: R₂ ++ live).Perm (c :: (T ++ R₂ ++ live)) := by
    refine List.perm_iff_count.2 fun x => ?_
    simp only [List.count_cons, List.count_append]
    omega
  have ht := h.tiles.perm hperm
  have hapart := (List.pairwise_cons.1 ht.apart).1
  have helse : ∀ d ∈ baseBlock base :: (T ++ R₂ ++ live), d.start ≠ c.start ∧ d.start ≠ c.start + 8 * m := fun d hd => by
    have hc := ht.inside c (List.mem_cons_self ..)
    rcases List.mem_cons.1 hd with rfl | hd
    · have := hL.below
      simp only [baseBlock]
      omega
    · have hap := hapart d hd
      have hd := ht.inside d (List.mem_cons_of_mem c hd)
      simp only [Separate, finish] at *
      omega
  refine ⟨T ++ ⟨c.start, 8 * m⟩ :: R₂, ?_, ?_, ?_, ?_, fun d hd => ?_, h.brk⟩
  · have hlinks := h.links.congr fun x _ => hptr x
    simp only [List.map_cons, List.map_append] at hlinks ⊢
    exact hlinks
  · rw [← hT]
    exact List.mem_map.2 ⟨e, List.mem_append.2 (.inr (List.mem_cons_self ..)), rfl⟩
  · have hspread' : Spread ((baseBlock base :: T) ++ c :: R₂) := h.spread
    exact spread_shrink hspread' (by omega)
  · have hsplit : Tiles brk₀ s.brk ((⟨c.start, 8 * m⟩ : Extent) :: ⟨c.start + 8 * m, 8 * n⟩ :: (T ++ R₂ ++ live)) := by
      refine Tiles.split (n := c.start) ?_ rfl rfl (by dsimp only; omega) (by dsimp only; omega)
      rw [show (⟨c.start, 8 * m + 8 * n⟩ : Extent) = c by rw [← hlen]]
      exact ht
    refine hsplit.perm (List.perm_iff_count.2 fun x => ?_)
    simp only [List.count_cons, List.count_append]
    omega
  · have hd' : d = ⟨c.start, 8 * m⟩ ∨ d = ⟨c.start + 8 * m, 8 * n⟩ ∨ d ∈ baseBlock base :: (T ++ R₂ ++ live) := by
      simp only [List.mem_cons, List.mem_append] at hd ⊢
      tauto
    rcases hd' with rfl | rfl | hd'
    · exact congrArg (fun x : Header => 8 * x.size) ((put_hdr_ne hq.symm).trans put_hdr_self)
    · exact congrArg (fun x : Header => 8 * x.size) put_hdr_self
    · obtain ⟨h1, h2⟩ := helse d hd'
      refine (congrArg (fun x : Header => 8 * x.size) ((put_hdr_ne h2).trans (put_hdr_ne h1))).trans (h.sizes d ?_)
      simp only [List.mem_cons, List.mem_append] at hd' ⊢
      tauto

theorem take_spec {e : Extent} (hL : Layout base brk₀) (h : WellFormed base brk₀ s free live)
    (hF : baseBlock base :: free = R₁ ++ e :: c :: R₂) (hn : 0 < n) (hfit : n ≤ (s.hdr c.start).size) :
    wp (take n e.start c.start) (fun r s' => r ≠ 0 ∧ ∃ free', WellFormed base brk₀ s' free' (⟨r - 8, 8 * n⟩ :: live)) E s := by
  have hcmem : c ∈ free := by
    obtain ⟨T, rfl, -⟩ := exists_below hF
    exact List.mem_append.2 (.inr (List.mem_cons_self ..))
  have hsize := h.sizes c (List.mem_cons_of_mem _ (List.mem_append.2 (.inl hcmem)))
  have hin := h.free_inside hcmem
  have hbrk := h.brk
  have htop : c.start + c.len < 2 ^ 31 := by
    simp only [finish] at hin
    omega
  rw [take]
  refine wp_bind.2 (wp_get.2 ?_)
  by_cases he : (s.hdr c.start).size = n
  · rw [if_pos he]
    refine wp_bind.2 (wp_setPtr.2 (wp_bind.2 ((wp_modify _).2 ?_)))
    rw [plus_eq (by omega)]
    obtain ⟨free', hw⟩ := h.unlink hF
    have hc : (⟨c.start + 8 * 1 - 8, 8 * n⟩ : Extent) = c := by
      rw [← he, hsize, show c.start + 8 * 1 - 8 = c.start by omega]
    refine ⟨by omega, free', ?_⟩
    rw [hc]
    exact hw
  · rw [if_neg he]
    have hplus : plus c.start ((s.hdr c.start).size - n) = c.start + 8 * ((s.hdr c.start).size - n) := plus_eq (by omega)
    dsimp only
    rw [hplus, plus_eq (by omega)]
    refine wp_bind.2 (wp_setSize.2 (wp_bind.2 (wp_setSize.2 (wp_bind.2 ((wp_modify _).2 ?_)))))
    obtain ⟨free', hw⟩ := h.carve hL hF (m := (s.hdr c.start).size - n) (by omega) hn (by omega)
    refine ⟨by omega, free', ?_⟩
    rw [Nat.mod_eq_of_lt (by omega), Nat.mod_eq_of_lt (by omega), Nat.mul_one, Nat.add_sub_cancel]
    exact hw

/-! ### The search for a block -/

/-- The loop of `malloc` stops at `z`: the next block is large enough, or it is where the search started. -/
def Stops (s : Heap) (n z : Nat) : Prop := n ≤ (s.hdr (succ s z)).size ∨ succ s z = s.freep

theorem mallocLoop_skip {fuel z k : Nat} (hk : ∀ j, j < k → ¬ Stops s n ((succ s)^[j] z)) :
    (mallocLoop n (fuel + k) z (succ s z)).run s = (mallocLoop n fuel ((succ s)^[k] z) (succ s ((succ s)^[k] z))).run s := by
  induction k generalizing z with
  | zero => rfl
  | succ k ih =>
    have h0 : ¬ Stops s n z := hk 0 (Nat.succ_pos k)
    rw [Stops, not_or] at h0
    have hstep : (mallocLoop n (fuel + (k + 1)) z (succ s z)).run s =
      (mallocLoop n (fuel + k) (succ s z) (succ s (succ s z))).run s := by
      rw [← Nat.add_assoc, mallocLoop, StateT.run_bind]
      change StateT.run (if n ≤ (s.hdr (succ s z)).size then take n z (succ s z) else if succ s z = s.freep then _
        else mallocLoop n (fuel + k) (succ s z) (s.hdr (succ s z)).ptr) s = _
      rw [if_neg h0.1, if_neg h0.2]
    rw [hstep, ih fun j hj => ?_]
    · rfl
    · exact hk (j + 1) (Nat.succ_lt_succ hj)

theorem WellFormed.exists_stop (h : WellFormed base brk₀ s free live) (n : Nat) :
    ∃ k, k ≤ 2 ^ 29 ∧ Stops s n ((succ s)^[k] s.freep) ∧ ∀ j, j < k → ¬ Stops s n ((succ s)^[j] s.freep) := by
  have hsucc : succ s s.freep ∈ base :: free.map start := iterate_mem (a := base) h.links h.freep 1
  obtain ⟨i, -, hi⟩ := exists_iterate (a := base) (l := free.map start) h.links hsucc h.freep
  -- the node before `freep`
  have hpred : succ s ((succ s)^[i] s.freep) = s.freep :=
    (Function.iterate_succ_apply' (succ s) i s.freep).symm.trans hi
  have hmem : (succ s)^[i] s.freep ∈ base :: free.map start := iterate_mem (a := base) h.links h.freep i
  have hstop : Stops s n ((succ s)^[i] s.freep) := .inr hpred
  obtain ⟨k, hk, hz, hmin⟩ := exists_first (a := base) (l := free.map start) h.links h.freep hmem hstop
  have := h.length_lt
  rw [List.length_map] at hk
  exact ⟨k, by omega, hz, hmin⟩

theorem WellFormed.exists_next {z : Nat} (h : WellFormed base brk₀ s free live)
    (hz : z ∈ (baseBlock base :: free).map start) (hn : 0 < n)
    (hfit : n ≤ (s.hdr (succ s z)).size) : ∃ R₁ e c R₂, baseBlock base :: free = R₁ ++ e :: c :: R₂ ∧
      e.start = z ∧ c.start = succ s z := by
  obtain ⟨e, he, rfl⟩ := List.mem_map.1 hz
  obtain ⟨R₁, R₂, hR⟩ := List.append_of_mem he
  have hlinks := h.links
  rw [hR] at hlinks
  have hsucc := succ_eq hlinks
  cases R₂ with
  | nil =>
    have hbase := h.sizes (baseBlock base) (List.mem_cons_self ..)
    rw [hsucc] at hfit
    simp only [baseBlock, List.map_nil, List.headD_nil] at *
    omega
  | cons c R₂ => exact ⟨R₁, e, c, R₂, hR, rfl, hsucc.symm⟩

theorem mallocLoop_fit {z fuel : Nat} (hL : Layout base brk₀) (h : WellFormed base brk₀ s free live)
    (hz : z ∈ (baseBlock base :: free).map start) (hn : 0 < n) (hfit : n ≤ (s.hdr (succ s z)).size) :
    wp (mallocLoop n (fuel + 1) z (succ s z)) (fun r s' => r ≠ 0 ∧ ∃ free',
      WellFormed base brk₀ s' free' (⟨r - 8, 8 * n⟩ :: live)) E s := by
  obtain ⟨R₁, e, c, R₂, hF, rfl, hc⟩ := h.exists_next hz hn hfit
  rw [mallocLoop]
  refine wp_bind.2 (wp_get.2 ?_)
  rw [if_pos hfit, ← hc]
  exact take_spec hL h hF hn (by rw [hc]; exact hfit)

theorem mallocLoop_found {fuel : Nat} (hL : Layout base brk₀) (h : WellFormed base brk₀ s free live)
    (hn : 0 < n) (hfuel : 2 ^ 29 < fuel)
    (hc : c ∈ free) (hlen : 8 * n ≤ c.len) :
    wp (mallocLoop n fuel s.freep (succ s s.freep)) (fun r s' => r ≠ 0 ∧ ∃ free',
      WellFormed base brk₀ s' free' (⟨r - 8, 8 * n⟩ :: live)) E s := by
  obtain ⟨k, hk, hz, hmin⟩ := h.exists_stop n
  have hfit : n ≤ (s.hdr (succ s ((succ s)^[k] s.freep))).size := by
    by_contra hno
    -- then the search is back where it started, without a block that is large enough
    have hback : (succ s)^[k + 1] s.freep = s.freep := by
      rw [Function.iterate_succ_apply']
      exact hz.resolve_left hno
    have hcmem : c.start ∈ base :: free.map start := List.mem_cons_of_mem _ (List.mem_map_of_mem hc)
    obtain ⟨j, hj, hjc⟩ := exists_of_return (a := base) (l := free.map start) h.links h.freep (Nat.succ_pos k) hback hcmem
    have hsize := h.sizes c (List.mem_cons_of_mem _ (List.mem_append.2 (.inl hc)))
    have hjs : succ s ((succ s)^[j] s.freep) = c.start := (Function.iterate_succ_apply' (succ s) j s.freep).symm.trans hjc
    rcases Nat.lt_or_ge j k with hjk | hjk
    · refine hmin j hjk (.inl ?_)
      rw [hjs]
      omega
    · obtain rfl : j = k := by omega
      rw [hjs] at hno
      omega
  obtain ⟨f, rfl⟩ : ∃ f, fuel = f + 1 + k := ⟨fuel - 1 - k, by omega⟩
  have hmem : (succ s)^[k] s.freep ∈ (baseBlock base :: free).map start := iterate_mem (a := base) h.links h.freep k
  have hrest : wp (mallocLoop n (f + 1) _ _) _ E s := mallocLoop_fit hL h hmem hn hfit
  unfold wp at hrest ⊢
  rw [mallocLoop_skip hmin]
  exact hrest

theorem mallocLoop_spec (hL : Layout base brk₀) (h : WellFormed base brk₀ s free live) (hn : 0 < n)
    (hlim : 8 * n < 2 ^ 31 - 2 ^ 15) :
    wp (mallocLoop n steps s.freep (succ s s.freep)) (fun r s' => r = 0 ∧ WellFormed base brk₀ s' free live ∨
      r ≠ 0 ∧ ∃ free', WellFormed base brk₀ s' free' (⟨r - 8, 8 * n⟩ :: live)) E s := by
  obtain ⟨k, hk, hz, hmin⟩ := h.exists_stop n
  obtain ⟨f, hf, hf29⟩ : ∃ f, steps = f + 1 + k ∧ 2 ^ 29 < f :=
    ⟨steps - 1 - k, by simp only [steps]; omega, by simp only [steps]; omega⟩
  have hmem : (succ s)^[k] s.freep ∈ (baseBlock base :: free).map start := iterate_mem (a := base) h.links h.freep k
  have hrest : wp (mallocLoop n (f + 1) ((succ s)^[k] s.freep) (succ s ((succ s)^[k] s.freep))) (fun r s' =>
      r = 0 ∧ WellFormed base brk₀ s' free live ∨ r ≠ 0 ∧ ∃ free',
        WellFormed base brk₀ s' free' (⟨r - 8, 8 * n⟩ :: live)) E s := by
    by_cases hfit : n ≤ (s.hdr (succ s ((succ s)^[k] s.freep))).size
    · exact wp.post (mallocLoop_fit hL h hmem hn hfit) fun _ _ => .inr
    · rw [mallocLoop]
      refine wp_bind.2 (wp_get.2 ?_)
      rw [if_neg hfit, if_pos (hz.resolve_left hfit)]
      refine wp.bind (morecore_spec hL h hn hlim) ?_
      rintro r s₁ (⟨rfl, h₁⟩ | ⟨hr, rfl, free₁, h₁, c, hc, hlen⟩)
      · rw [if_pos rfl]
        exact .inl ⟨rfl, h₁⟩
      · rw [if_neg hr]
        exact wp_bind.2 (wp_get.2 (wp.post (mallocLoop_found hL h₁ hn hf29 hc hlen) fun _ _ => .inr))
  unfold wp at hrest ⊢
  rw [hf, mallocLoop_skip hmin]
  exact hrest

/-! ### Whole runs -/

def Sound (base brk₀ : Nat) (s : Heap) (live : List Extent) : Prop :=
  (s.freep = 0 ∧ live = [] ∧ s.brk = brk₀) ∨ ∃ free, WellFormed base brk₀ s free live

theorem WellFormed.freep_ne (hL : Layout base brk₀) (h : WellFormed base brk₀ s free live) : s.freep ≠ 0 := by
  obtain ⟨c, hc, hcs⟩ := List.mem_map.1 h.freep
  have := h.base_le hc
  have := hL.pos
  omega

theorem init_spec (hL : Layout base brk₀) (h : Sound base brk₀ s live) : wp (init base)
    (fun _ s' => ∃ free, WellFormed base brk₀ s' free live) E s := by
  rw [init]
  refine wp_bind.2 (wp_get.2 ?_)
  rcases h with ⟨hf, rfl, hb⟩ | ⟨free, h⟩
  · rw [if_pos hf]
    have hself : update s.hdr base (⟨base, 0⟩ : Header) base = ⟨base, 0⟩ := update_self ..
    refine (wp_set _).2 ⟨[], ⟨?_, trivial⟩, List.mem_cons_self .., List.pairwise_singleton .., ?_, fun b hb => ?_, ?_⟩
    · exact congrArg Header.ptr hself
    · rw [hb]
      exact tiles_nil
    · obtain rfl : b = baseBlock base := List.mem_singleton.1 hb
      exact congrArg (fun x : Header => 8 * x.size) hself
    · rw [hb]
      exact hL.top
  · rw [if_neg (h.freep_ne hL)]
    exact ⟨free, h⟩

theorem malloc_spec {m : Nat} (hL : Layout base brk₀) (h : Sound base brk₀ s live)
    (hm : 8 * ((m + 7) / 8 + 1) < 2 ^ 31 - 2 ^ 15) :
    wp (malloc base m) (fun r s' => ∃ free, r = 0 ∧ WellFormed base brk₀ s' free live ∨
      r ≠ 0 ∧ WellFormed base brk₀ s' free (⟨r - 8, 8 * ((m + 7) / 8 + 1)⟩ :: live)) E s := by
  have hunits : nunits m = (m + 7) / 8 + 1 := by
    rw [nunits, Nat.mod_eq_of_lt (by omega)]
    rfl
  rw [malloc, hunits]
  refine wp.bind (init_spec hL h) fun _ s₁ ⟨free, h₁⟩ => wp_bind.2 (wp_get.2 ?_)
  refine wp.post (mallocLoop_spec hL h₁ (Nat.succ_pos _) hm) fun r s' hr => ?_
  rcases hr with ⟨rfl, h'⟩ | ⟨hr, free', h'⟩
  · exact ⟨free, .inl ⟨rfl, h'⟩⟩
  · exact ⟨free', .inr ⟨hr, h'⟩⟩

theorem WellFormed.other {hdr : Nat → Header} {refused : List Bool} (hL : Layout base brk₀) (h : WellFormed base brk₀ s free live)
    (hw : ∀ p, p = base ∨ brk₀ ≤ p ∧ p < s.brk ∧ (∀ b ∈ live, ¬ (b.start < p ∧ p < b.finish)) → hdr p = s.hdr p) :
    WellFormed base brk₀ { s with hdr, refused } free live := by
  have hsame : ∀ c ∈ baseBlock base :: (free ++ live), hdr c.start = s.hdr c.start := fun c hc => by
    rcases List.mem_cons.1 hc with rfl | hc
    · exact hw _ (.inl rfl)
    · have hin := h.tiles.inside c hc
      refine hw _ (.inr ⟨hin.1, by simp only [finish] at hin; omega, fun b hb => ?_⟩)
      have hinb := h.live_inside hb
      rcases List.mem_append.1 hc with hc | hc
      · have := h.apart hL (List.mem_cons_of_mem _ hc) hb
        simp only [finish] at *
        omega
      · by_cases hcb : c = b
        · rw [hcb]
          omega
        · have hap := h.tiles.apart_of_ne (List.mem_append.2 (.inr hc)) (List.mem_append.2 (.inr hb)) hcb
          simp only [Separate, finish] at *
          omega
  refine ⟨h.links.congr fun x hx => ?_, h.freep, h.spread, h.tiles, fun c hc => ?_, h.brk⟩
  · obtain ⟨c, hc, rfl⟩ := List.mem_map.1 hx
    refine congrArg Header.ptr (hsame c ?_)
    rcases List.mem_cons.1 hc with rfl | hc
    · exact List.mem_cons_self ..
    · exact List.mem_cons_of_mem _ (List.mem_append.2 (.inl hc))
  · exact (congrArg (fun x : Header => 8 * x.size) (hsame c hc)).trans (h.sizes c hc)

theorem Reach.sound (hL : Layout base brk₀) (h : Reach base brk₀ s live) : Sound base brk₀ s live := by
  induction h with
  | start hf hb => exact .inl ⟨hf, rfl, hb⟩
  | null _ hn hr ih =>
    obtain ⟨free, ⟨-, h⟩ | ⟨h0, -⟩⟩ := (malloc_spec (E := fun _ => True) hL ih hn).of_ok hr
    · exact .inr ⟨free, h⟩
    · exact absurd rfl h0
  | malloc _ hn hr h0 ih =>
    obtain ⟨free, ⟨rfl, -⟩ | ⟨-, h⟩⟩ := (malloc_spec (E := fun _ => True) hL ih hn).of_ok hr
    · exact absurd rfl h0
    · exact .inr ⟨free, h⟩
  | free _ hb hr ih =>
    rcases ih with ⟨-, rfl, -⟩ | ⟨free, h⟩
    · exact absurd hb List.not_mem_nil
    · obtain ⟨-, free', h', -⟩ := (free_spec (E := fun _ => True) hL h hb).of_ok hr
      exact .inr ⟨free', h'⟩
  | other _ hw ih =>
    rcases ih with ⟨hf, hl, hb⟩ | ⟨free, h⟩
    · exact .inl ⟨hf, hl, hb⟩
    · exact .inr ⟨free, h.other hL hw⟩

/-- The user heap is well formed after every sequence of calls; `malloc` and `free` return, and an
allocation has at least the bytes asked for, which overlap no other. -/
theorem heap_wellFormed (hL : Layout base brk₀) (h : Reach base brk₀ s live) :
    (s.freep = 0 ∧ live = [] ∧ s.brk = brk₀ ∨ ∃ free, WellFormed base brk₀ s free live) ∧
    (∀ m, 8 * ((m + 7) / 8 + 1) < 2 ^ 31 - 2 ^ 15 → ∃ r s', (malloc base m).run s = .ok (r, s') ∧
      (r ≠ 0 → brk₀ ≤ r ∧ r + m ≤ s'.brk ∧ ∀ b ∈ live, Separate ⟨r, m⟩ b)) ∧
    ∀ b ∈ live, ∃ s', (Umalloc.free (b.start + 8)).run s = .ok ((), s') := by
  have hs := h.sound hL
  refine ⟨hs, fun m hm => ?_, fun b hb => ?_⟩
  · obtain ⟨r, s', hr, free, hpost⟩ := (malloc_spec (E := fun _ => False) hL hs hm).exists_ok
    refine ⟨r, s', hr, fun h0 => ?_⟩
    obtain ⟨-, h'⟩ := hpost.resolve_left fun h => h0 h.1
    have hin := h'.live_inside (List.mem_cons_self ..)
    have hpw := (List.pairwise_append.1 h'.tiles.apart).2.1
    simp only [finish] at hin
    have hbrk := hL.below
    refine ⟨by omega, by omega, fun b hb => ?_⟩
    have hap := (List.pairwise_cons.1 hpw).1 b hb
    simp only [Separate, finish] at *
    omega
  · rcases hs with ⟨-, rfl, -⟩ | ⟨free, hw⟩
    · exact absurd hb List.not_mem_nil
    · obtain ⟨_, s', hr, -⟩ := (free_spec (E := fun _ => False) hL hw hb).exists_ok
      exact ⟨s', hr⟩

end

def fresh : Heap := ⟨fun _ => ⟨0, 0⟩, 0, 0x3000, []⟩

/-- After two allocations the first one is freed. -/
theorem heap_wellFormed_two : ∃ s free, WellFormed 0x800 0x3000 s free [⟨0xaec0, 208⟩] := by
  have hL : Layout 0x800 0x3000 := ⟨by decide, by decide, by decide⟩
  have hr₁ : (malloc 0x800 100).result fresh = some 0xaf98 := by decide +kernel
  have hr₂ : (malloc 0x800 200).result ((malloc 0x800 100).final fresh) = some 0xaec8 := by decide +kernel
  have h₁ := Reach.malloc (.start rfl rfl) (by decide) (run_eq_final hr₁) (by decide)
  have h₂ := Reach.malloc h₁ (by decide) (run_eq_final hr₂) (by decide)
  obtain ⟨s, hr₃⟩ := (heap_wellFormed hL h₂).2.2 ⟨0xaf90, 112⟩ (List.mem_cons_of_mem _ (List.mem_cons_self ..))
  have h₃ := Reach.free h₂ (List.mem_cons_of_mem _ (List.mem_cons_self ..)) hr₃
  rcases (heap_wellFormed hL h₃).1 with ⟨-, hnil, -⟩ | ⟨free, hw⟩
  · exact absurd hnil (by decide)
  · exact ⟨s, free, hw⟩

end Xv6.Umalloc
