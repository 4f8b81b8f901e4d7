import Xv6.Bio

/-!
# Who has which buffer

The ring is a permutation of the buffers, and a buffer in use (`Claimed`) is the first one on it with its
device and block number, which is what makes `bget` find it (`Lru`). `Users` relates the callers to the
reference counts and locks. Most steps leave all of this alone (`Users.congr`); in the others one caller takes or gives
back one buffer or its lock (`Users.step`).
-/

namespace Xv6.Bio

open Prog Function

def Buf.Claimed (x : Buf) : Prop := 0 < x.refcnt ∨ x.valid = true ∨ x.dirty = true

def Bcache.named (c : Bcache) (dev blockno : Nat) : Nat → Bool := fun b => (c.buf b).dev = dev ∧ (c.buf b).blockno = blockno

structure Lru (c : Bcache) (l : List Nat) : Prop where
  ring : c.links.IsRing head l
  perm : l.Perm (List.range NBUF)
  first : ∀ b, b < NBUF → (c.buf b).Claimed → l.find? (c.named (c.buf b).dev (c.buf b).blockno) = some b

structure Users (D : Set Nat) (n : Nat) (s : BioSys) : Prop where
  lru : ∃ l, Lru s.c l
  out : ∀ i, n ≤ i → (s.caller i).phase = .idle
  key : ∀ i, (s.caller i).phase ≠ .idle → (s.caller i).b < NBUF ∧
    (s.c.buf (s.caller i).b).dev = (s.caller i).dev ∧ (s.c.buf (s.caller i).b).blockno = (s.caller i).blockno
  refcnt : ∀ b, b < NBUF → (s.c.buf b).refcnt = tally n (Caller.Refers b) s.caller
  lock : ∀ i b, b < NBUF → ((s.caller i).phase.hasLock = true ∧ (s.caller i).b = b ↔ (s.c.buf b).lock = some i)
  dev : ∀ b, b < NBUF → (s.c.buf b).Claimed → (s.c.buf b).dev ∈ D

variable {D : Set Nat} {n i b : Nat} {s s' : BioSys} {c : Bcache} {l : List Nat}

/-! ### Buffers -/

theorem Bcache.buf_setBuf (c : Bcache) (b : Nat) (x : Buf) (b' : Nat) : (c.setBuf b x).buf b' = if b' = b then x else c.buf b' :=
  update_apply ..

@[simp] theorem wp_edit {f : Buf → Buf} {Q : Unit → Bcache → Prop} {E : Fault → Prop} :
    wp (edit b f) Q E c ↔ Q () (c.setBuf b (f (c.buf b))) := Iff.rfl

@[simp] theorem wp_onCache {α : Type} {x : BioM α} {Q : α → BioSys → Prop} {E : Fault → Prop} :
    wp (onCache x) Q E s ↔ wp x (fun a c => Q a { s with c }) E s.c := wp_zoom

theorem wp_expect {ps : List Phase} {Q : Nat → BioSys → Prop} {E : Fault → Prop} (hE : E .sleeps)
    (h : (s.caller i).phase ∈ ps → Q (s.caller i).b s) : wp (expect i ps) Q E s := by
  refine wp_bind.2 (wp_get.2 (wp_bind.2 (wp_failIf.2 ⟨fun _ => hE, fun hn => ?_⟩)))
  exact h (not_not.1 hn)

theorem Lru.mem_iff (h : Lru c l) : b ∈ l ↔ b < NBUF := by rw [h.perm.mem_iff, List.mem_range]

theorem Lru.length (h : Lru c l) : l.length = NBUF := by rw [h.perm.length_eq, List.length_range]

theorem Lru.unique (h : Lru c l) {b b' : Nat} (hb : b < NBUF) (hb' : b' < NBUF) (hc : (c.buf b).Claimed)
    (hc' : (c.buf b').Claimed)
    (hd : (c.buf b).dev = (c.buf b').dev) (hk : (c.buf b).blockno = (c.buf b').blockno) : b = b' := by
  have h₁ := h.first b hb hc
  rw [hd, hk, h.first b' hb' hc'] at h₁
  exact (Option.some.inj h₁).symm

/-! ### References and locks -/

theorem Users.refers_lt (h : Users D n s) (hi : (s.caller i).phase ≠ .idle) : i < n := by
  by_contra hge
  exact hi (h.out i (Nat.le_of_not_lt hge))

theorem Users.refcnt_pos (h : Users D n s) (hi : (s.caller i).phase ≠ .idle) : 0 < (s.c.buf (s.caller i).b).refcnt := by
  rw [h.refcnt _ (h.key i hi).1]
  exact tally_pos (h.refers_lt hi) ⟨hi, rfl⟩

theorem Users.claimed (h : Users D n s) (hi : (s.caller i).phase ≠ .idle) : (s.c.buf (s.caller i).b).Claimed :=
  Or.inl (h.refcnt_pos hi)

theorem Users.congr (h : Users D n s) (hl : s'.c.links = s.c.links)
    (hb : ∀ b, (s'.c.buf b).dev = (s.c.buf b).dev ∧ (s'.c.buf b).blockno = (s.c.buf b).blockno ∧
      (s'.c.buf b).refcnt = (s.c.buf b).refcnt ∧ (s'.c.buf b).lock = (s.c.buf b).lock ∧
      ((s'.c.buf b).Claimed → (s.c.buf b).Claimed))
    (hc : ∀ i, (s'.caller i).b = (s.caller i).b ∧ (s'.caller i).dev = (s.caller i).dev ∧
      (s'.caller i).blockno = (s.caller i).blockno ∧
      ((s'.caller i).phase = .idle ↔ (s.caller i).phase = .idle) ∧ (s'.caller i).phase.hasLock = (s.caller i).phase.hasLock) :
    Users D n s' := by
  obtain ⟨l, hL⟩ := h.lru
  have hnamed : s'.c.named = s.c.named := by
    funext dev blockno b
    simp only [Bcache.named, (hb b).1, (hb b).2.1]
  refine ⟨⟨l, ?_, hL.perm, fun b hlt hcl => ?_⟩, fun i hi => ?_, fun i hi => ?_, fun b hlt => ?_,
    fun i b hlt => ?_, fun b hlt hcl => ?_⟩
  · rw [hl]
    exact hL.ring
  · rw [hnamed, (hb b).1, (hb b).2.1]
    exact hL.first b hlt ((hb b).2.2.2.2 hcl)
  · exact (hc i).2.2.2.1.2 (h.out i hi)
  · obtain ⟨h1, h2, h3, h4, -⟩ := hc i
    rw [h1, h2, h3, (hb _).1, (hb _).2.1]
    exact h.key i fun he => hi (h4.2 he)
  · rw [(hb b).2.2.1, h.refcnt b hlt]
    refine (tally_congr fun j => ?_).symm
    rw [Caller.Refers, Caller.Refers, (hc j).1, Ne, Ne, (hc j).2.2.2.1]
  · rw [(hb b).2.2.2.1, ← h.lock i b hlt, (hc i).1, (hc i).2.2.2.2]
  · rw [(hb b).1]
    exact h.dev b hlt ((hb b).2.2.2.2 hcl)

theorem hasLock_ne_idle {p : Phase} (h : p.hasLock = true) : p ≠ .idle := by
  rintro rfl
  exact Bool.noConfusion h

theorem Users.step (h : Users D n s) (hi : i < n) (hb : b < NBUF) (hlru : ∃ l, Lru s'.c l)
    (hbuf : ∀ b', b' ≠ b → s'.c.buf b' = s.c.buf b') (hcall : ∀ j, j ≠ i → s'.caller j = s.caller j)
    (hother : ∀ j, j ≠ i → (s.caller j).Refers b →
      (s'.c.buf b).dev = (s.c.buf b).dev ∧ (s'.c.buf b).blockno = (s.c.buf b).blockno)
    (hold : (s.caller i).phase ≠ .idle → (s.caller i).b = b)
    (hnew : (s'.caller i).phase ≠ .idle → (s'.caller i).b = b ∧ (s'.c.buf b).dev = (s'.caller i).dev ∧
      (s'.c.buf b).blockno = (s'.caller i).blockno)
    (href : (s'.c.buf b).refcnt + (if (s.caller i).phase = .idle then 0 else 1) =
      (s.c.buf b).refcnt + if (s'.caller i).phase = .idle then 0 else 1)
    (hlock : (s'.caller i).phase.hasLock = true ↔ (s'.c.buf b).lock = some i)
    (hlock' : ∀ j, j ≠ i → ((s'.c.buf b).lock = some j ↔ (s.c.buf b).lock = some j))
    (hdev : (s'.c.buf b).Claimed → (s'.c.buf b).dev ∈ D) : Users D n s' := by
  have hcaller : s'.caller = update s.caller i (s'.caller i) := by
    funext j
    rcases eq_or_ne j i with rfl | hne
    · rw [update_self]
    · rw [update_of_ne hne, hcall j hne]
  refine ⟨hlru, fun j hj => ?_, fun j hj => ?_, fun b' hlt => ?_, fun j b' hlt => ?_, fun b' hlt hc => ?_⟩
  · rw [hcall j (by omega)]
    exact h.out j hj
  · rcases eq_or_ne j i with rfl | hne
    · obtain ⟨he, hk⟩ := hnew hj
      rw [he]
      exact ⟨hb, hk⟩
    · rw [hcall j hne] at hj ⊢
      obtain ⟨hlt, hk⟩ := h.key j hj
      refine ⟨hlt, ?_⟩
      rcases eq_or_ne (s.caller j).b b with he | hne'
      · have ho := hother j hne ⟨hj, he⟩
        rw [he] at hk ⊢
        rw [ho.1, ho.2]
        exact hk
      · rw [hbuf _ hne']
        exact hk
  · have hu := total_update hi (fun x : Caller => if Caller.Refers b' x then 1 else 0) s.caller (s'.caller i)
    rw [← hcaller] at hu
    have hr := h.refcnt b' hlt
    rcases eq_or_ne b' b with rfl | hne
    · have e₁ : (s.caller i).Refers b' ↔ ¬ (s.caller i).phase = .idle := ⟨fun hr => hr.1, fun hp => ⟨hp, hold hp⟩⟩
      have e₂ : (s'.caller i).Refers b' ↔ ¬ (s'.caller i).phase = .idle := ⟨fun hr => hr.1, fun hp => ⟨hp, (hnew hp).1⟩⟩
      simp only [e₁, e₂, ite_not] at hu
      unfold tally at hr ⊢
      omega
    · have e₁ : ¬ (s.caller i).Refers b' := fun hr => hne (hr.2.symm.trans (hold hr.1))
      have e₂ : ¬ (s'.caller i).Refers b' := fun hr => hne (hr.2.symm.trans (hnew hr.1).1)
      rw [if_neg e₁, if_neg e₂] at hu
      rw [hbuf b' hne, hr]
      exact hu.symm
  · rcases eq_or_ne j i with rfl | hne
    · rcases eq_or_ne b' b with rfl | hne'
      · rw [← hlock]
        exact ⟨fun hp => hp.1, fun hp => ⟨hp, (hnew (hasLock_ne_idle hp)).1⟩⟩
      · rw [hbuf b' hne', ← h.lock j b' hlt]
        constructor
        · rintro ⟨hp, he⟩
          exact absurd (he.symm.trans (hnew (hasLock_ne_idle hp)).1) hne'
        · rintro ⟨hp, he⟩
          exact absurd (he.symm.trans (hold (hasLock_ne_idle hp))) hne'
    · rw [hcall j hne, h.lock j b' hlt]
      rcases eq_or_ne b' b with rfl | hne'
      · exact (hlock' j hne).symm
      · rw [hbuf b' hne']
  · rcases eq_or_ne b' b with rfl | hne
    · exact hdev hc
    · rw [hbuf b' hne] at hc ⊢
      exact h.dev b' hlt hc

/-! ### `bget` -/

def Buf.taken (x : Buf) : Buf := { x with refcnt := x.refcnt + 1 }

def Buf.recycled (x : Buf) (dev blockno : Nat) : Buf := { x with dev, blockno, valid := false, dirty := false, refcnt := 1 }

theorem bget_spec (h : Lru c l) (dev blockno : Nat) :
    wp (bget dev blockno) (fun b c' =>
      l.find? (c.named dev blockno) = some b ∧ c' = c.setBuf b (c.buf b).taken ∨
      l.find? (c.named dev blockno) = none ∧ b < NBUF ∧ (c.buf b).refcnt = 0 ∧ (c.buf b).dirty = false ∧
        c' = c.setBuf b ((c.buf b).recycled dev blockno)) (fun _ => True) c := by
  have hlen : l.length < NBUF + 1 := by
    rw [h.length]
    exact Nat.lt_succ_self _
  refine wp_bind.2 (wp_get.2 ?_)
  rw [h.ring.scan_next _ hlen, h.ring.scan_prev _ hlen]
  cases hf : l.find? (c.named dev blockno) with
  | some b =>
    rw [show (l.find? fun b => decide ((c.buf b).dev = dev ∧ (c.buf b).blockno = blockno)) = some b from hf]
    exact wp_bind.2 (wp_edit.2 (Or.inl ⟨rfl, rfl⟩))
  | none =>
    rw [show (l.find? fun b => decide ((c.buf b).dev = dev ∧ (c.buf b).blockno = blockno)) = none from hf]
    cases hr : l.reverse.find? (fun b => decide ((c.buf b).refcnt = 0 ∧ (c.buf b).dirty = false)) with
    | none => trivial
    | some b =>
      have hfree := List.find?_some hr
      have hb : b < NBUF := h.mem_iff.1 (List.mem_reverse.1 (List.mem_of_find?_eq_some hr))
      refine wp_bind.2 (wp_edit.2 (Or.inr ⟨rfl, hb, ?_⟩))
      rw [decide_eq_true_eq] at hfree
      exact ⟨hfree.1, hfree.2, rfl⟩

theorem find?_of_imp {p q : Nat → Bool} (h : l.find? p = some b) (hq : q b = true) (hqp : ∀ a ∈ l, q a = true → p a = true) :
    l.find? q = some b := by
  rw [List.find?_eq_some_iff_append] at h ⊢
  obtain ⟨-, l₁, l₂, rfl, hn⟩ := h
  refine ⟨hq, l₁, l₂, rfl, fun a ha => ?_⟩
  by_contra hc
  have hp := hqp a (by simp [ha]) (by simpa using hc)
  simpa [hp] using hn a ha

/-- The caller's entry after `bget`. -/
def BioSys.asking (s : BioSys) (c : Bcache) (i b dev blockno : Nat) : BioSys :=
  { s with c, caller := update s.caller i { phase := .waiting, b, dev, blockno } }

@[simp] theorem asking_caller {dev blockno : Nat} : (s.asking c i b dev blockno).caller i =
    { phase := .waiting, b, dev, blockno } :=
  update_self ..

theorem asking_caller_of_ne {j dev blockno : Nat} (h : j ≠ i) : (s.asking c i b dev blockno).caller j = s.caller j :=
  update_of_ne h ..

@[simp] theorem asking_c {dev blockno : Nat} : (s.asking c i b dev blockno).c = c := rfl

theorem Bcache.buf_setBuf_self (c : Bcache) (b : Nat) (x : Buf) : (c.setBuf b x).buf b = x := update_self ..

theorem Bcache.buf_setBuf_of_ne {b' : Nat} (c : Bcache) (x : Buf) (h : b' ≠ b) : (c.setBuf b x).buf b' = c.buf b' :=
  update_of_ne h ..

theorem Users.unlocked (h : Users D n s) (hb : b < NBUF) (hi : (s.caller i).phase = .idle) :
    (s.c.buf b).lock ≠ some i := fun hl => by
  have hp := ((h.lock i b hb).2 hl).1
  rw [hi] at hp
  exact Bool.noConfusion hp

theorem Lru.taken (hL : Lru c l) {dev blockno : Nat} (hf : l.find? (c.named dev blockno) = some b) :
    Lru (c.setBuf b (c.buf b).taken) l := by
  have hnamed : (c.setBuf b (c.buf b).taken).named = c.named := by
    funext dev blockno b'
    simp only [Bcache.named, Bcache.buf_setBuf]
    split
    · next he =>
      rw [he]
      rfl
    · rfl
  have hkey : (c.buf b).dev = dev ∧ (c.buf b).blockno = blockno := by simpa [Bcache.named] using List.find?_some hf
  refine ⟨hL.ring, hL.perm, fun b' hlt hc => ?_⟩
  rw [hnamed]
  rcases eq_or_ne b' b with rfl | hne
  · rw [Bcache.buf_setBuf_self]
    show l.find? (c.named (c.buf b').dev (c.buf b').blockno) = _
    rw [hkey.1, hkey.2, hf]
  · rw [Bcache.buf_setBuf_of_ne _ _ hne] at hc ⊢
    exact hL.first b' hlt hc

theorem Users.taken (h : Users D n s) (hL : Lru s.c l) (hi : i < n) (hidle : (s.caller i).phase = .idle) {dev blockno : Nat}
    (hd : dev ∈ D) (hf : l.find? (s.c.named dev blockno) = some b) :
    Users D n (s.asking (s.c.setBuf b (s.c.buf b).taken) i b dev blockno) := by
  have hb : b < NBUF := hL.mem_iff.1 (List.mem_of_find?_eq_some hf)
  have hkey : (s.c.buf b).dev = dev ∧ (s.c.buf b).blockno = blockno := by simpa [Bcache.named] using List.find?_some hf
  have hself := s.c.buf_setBuf_self b (s.c.buf b).taken
  refine h.step hi hb ⟨l, hL.taken hf⟩ (fun b' hne => s.c.buf_setBuf_of_ne _ hne) (fun j hne => asking_caller_of_ne hne) ?_
    (fun hp => absurd hidle hp) ?_ ?_ ?_ ?_ ?_
  · intro j _ _
    rw [asking_c, hself]
    exact ⟨rfl, rfl⟩
  · intro _
    rw [asking_c, hself, asking_caller]
    exact ⟨rfl, hkey⟩
  · rw [asking_c, hself, asking_caller, if_pos hidle, if_neg Phase.noConfusion]
    rfl
  · rw [asking_c, hself, asking_caller]
    exact ⟨fun hp => Bool.noConfusion hp, fun hp => absurd hp (h.unlocked hb hidle)⟩
  · intro j _
    rw [asking_c, hself]
    exact Iff.rfl
  · intro _
    rw [asking_c, hself]
    show (s.c.buf b).dev ∈ D
    rw [hkey.1]
    exact hd

theorem Lru.recycled (hL : Lru c l) {dev blockno : Nat} (hf : l.find? (c.named dev blockno) = none) (hb : b < NBUF) :
    Lru (c.setBuf b ((c.buf b).recycled dev blockno)) l := by
  have hno := List.find?_eq_none.1 hf
  refine ⟨hL.ring, hL.perm, fun b' hlt hc => ?_⟩
  rcases eq_or_ne b' b with rfl | hne
  · -- nobody else stands for the block
    have hself := c.buf_setBuf_self b' ((c.buf b').recycled dev blockno)
    rw [hself]
    cases hg : l.find? ((c.setBuf b' ((c.buf b').recycled dev blockno)).named dev blockno) with
    | none =>
      have := List.find?_eq_none.1 hg b' (hL.mem_iff.2 hlt)
      rw [Bcache.named, hself] at this
      exact absurd (decide_eq_true ⟨rfl, rfl⟩) this
    | some a =>
      rcases eq_or_ne a b' with rfl | hne
      · exact hg
      · have hn := List.find?_some hg
        rw [Bcache.named, Bcache.buf_setBuf_of_ne _ _ hne] at hn
        exact absurd hn (hno a (List.mem_of_find?_eq_some hg))
  · rw [Bcache.buf_setBuf_of_ne _ _ hne] at hc ⊢
    refine find?_of_imp (hL.first b' hlt hc) ?_ fun a ha hn => ?_
    · rw [Bcache.named, Bcache.buf_setBuf_of_ne _ _ hne]
      exact decide_eq_true ⟨rfl, rfl⟩
    · rcases eq_or_ne a b with rfl | hna
      · rw [Bcache.named, Bcache.buf_setBuf_self, decide_eq_true_eq] at hn
        exact absurd (decide_eq_true ⟨hn.1.symm, hn.2.symm⟩) (hno b' (hL.mem_iff.2 hlt))
      · rwa [Bcache.named, Bcache.buf_setBuf_of_ne _ _ hna] at hn

theorem Users.not_refers (h : Users D n s) (hb : b < NBUF) (h0 : (s.c.buf b).refcnt = 0) (j : Nat) : ¬ (s.caller j).Refers b := by
  rintro ⟨hp, rfl⟩
  have := h.refcnt_pos hp
  omega

theorem Users.recycled (h : Users D n s) (hL : Lru s.c l) (hi : i < n) (hidle : (s.caller i).phase = .idle) {dev blockno : Nat}
    (hd : dev ∈ D) (hf : l.find? (s.c.named dev blockno) = none) (hb : b < NBUF) (h0 : (s.c.buf b).refcnt = 0) :
    Users D n (s.asking (s.c.setBuf b ((s.c.buf b).recycled dev blockno)) i b dev blockno) := by
  have hself := s.c.buf_setBuf_self b ((s.c.buf b).recycled dev blockno)
  refine h.step hi hb ⟨l, hL.recycled hf hb⟩ (fun b' hne => s.c.buf_setBuf_of_ne _ hne) (fun j hne => asking_caller_of_ne hne) ?_
    (fun hp => absurd hidle hp) ?_ ?_ ?_ ?_ ?_
  · intro j _ hj
    exact absurd hj (h.not_refers hb h0 j)
  · intro _
    rw [asking_c, hself, asking_caller]
    exact ⟨rfl, rfl, rfl⟩
  · rw [asking_c, hself, asking_caller, if_pos hidle, if_neg Phase.noConfusion, h0]
    rfl
  · rw [asking_c, hself, asking_caller]
    exact ⟨fun hp => Bool.noConfusion hp, fun hp => absurd hp (h.unlocked hb hidle)⟩
  · intro j _
    rw [asking_c, hself]
    exact Iff.rfl
  · intro _
    rw [asking_c, hself]
    exact hd

/-! ### The sleep-lock and `brelse` -/

/-- Caller `i` goes on to the phase `p` and leaves the cache as `c`. -/
def BioSys.goes (s : BioSys) (c : Bcache) (i : Nat) (p : Phase) : BioSys :=
  { s with c, caller := update s.caller i { s.caller i with phase := p } }

@[simp] theorem goes_c {p : Phase} : (s.goes c i p).c = c := rfl

@[simp] theorem goes_caller {p : Phase} : (s.goes c i p).caller i = { s.caller i with phase := p } := update_self ..

theorem goes_caller_of_ne {p : Phase} {j : Nat} (h : j ≠ i) : (s.goes c i p).caller j = s.caller j := update_of_ne h ..

theorem Lru.setBuf (hL : Lru c l) {x : Buf} (hd : x.dev = (c.buf b).dev) (hk : x.blockno = (c.buf b).blockno)
    (hc : x.Claimed → (c.buf b).Claimed) : Lru (c.setBuf b x) l := by
  have hdev : ∀ a, ((c.setBuf b x).buf a).dev = (c.buf a).dev ∧ ((c.setBuf b x).buf a).blockno = (c.buf a).blockno := fun a => by
    rw [Bcache.buf_setBuf]
    split
    · next he =>
      rw [he]
      exact ⟨hd, hk⟩
    · exact ⟨rfl, rfl⟩
  have hnamed : (c.setBuf b x).named = c.named := by
    funext dev blockno a
    simp only [Bcache.named, (hdev a).1, (hdev a).2]
  refine ⟨hL.ring, hL.perm, fun a hlt ha => ?_⟩
  rw [hnamed, (hdev a).1, (hdev a).2]
  refine hL.first a hlt ?_
  rcases eq_or_ne a b with rfl | hne
  · rw [Bcache.buf_setBuf_self] at ha
    exact hc ha
  · rwa [Bcache.buf_setBuf_of_ne _ _ hne] at ha

theorem Users.relock (h : Users D n s) (hne : (s.caller i).phase ≠ .idle) {ph : Phase} (hph : ph ≠ .idle) {x : Option Nat}
    (hlock : ph.hasLock = true ↔ x = some i) (hlock' : ∀ j, j ≠ i → (x = some j ↔ (s.c.buf (s.caller i).b).lock = some j)) :
    Users D n (s.goes (s.c.setBuf (s.caller i).b { s.c.buf (s.caller i).b with lock := x }) i ph) := by
  obtain ⟨l, hL⟩ := h.lru
  obtain ⟨hb, hkey⟩ := h.key i hne
  have hself := s.c.buf_setBuf_self (s.caller i).b { s.c.buf (s.caller i).b with lock := x }
  refine h.step (h.refers_lt hne) hb ⟨l, hL.setBuf rfl rfl id⟩ (fun b' hne => s.c.buf_setBuf_of_ne _ hne)
    (fun j hne => goes_caller_of_ne hne) ?_ (fun _ => rfl) ?_ ?_ ?_ ?_ ?_
  · intro j _ _
    rw [goes_c, hself]
    exact ⟨rfl, rfl⟩
  · intro _
    rw [goes_c, hself, goes_caller]
    exact ⟨rfl, hkey⟩
  · rw [goes_c, hself, goes_caller, if_neg hne, if_neg hph]
  · rw [goes_c, hself, goes_caller]
    exact hlock
  · intro j hj
    rw [goes_c, hself]
    exact hlock' j hj
  · intro hc
    rw [goes_c, hself] at hc ⊢
    exact h.dev _ hb hc

theorem Users.acquired (h : Users D n s) (hp : (s.caller i).phase = .waiting) (hl : (s.c.buf (s.caller i).b).lock = none) :
    Users D n (s.goes (s.c.setBuf (s.caller i).b { s.c.buf (s.caller i).b with lock := some i }) i .locked) := by
  refine h.relock (by simp [hp]) Phase.noConfusion ⟨fun _ => rfl, fun _ => rfl⟩ fun j hj => ?_
  rw [hl]
  exact ⟨fun he => absurd (Option.some.inj he).symm hj, fun he => (nomatch he)⟩

theorem Users.released (h : Users D n s) (hp : (s.caller i).phase = .holding) :
    Users D n (s.goes (s.c.setBuf (s.caller i).b { s.c.buf (s.caller i).b with lock := none }) i .leaving) := by
  have hne : (s.caller i).phase ≠ .idle := by simp [hp]
  have hl : (s.c.buf (s.caller i).b).lock = some i := (h.lock i _ (h.key i hne).1).1 ⟨by rw [hp]; rfl, rfl⟩
  refine h.relock hne Phase.noConfusion ⟨fun he => Bool.noConfusion he, fun he => (nomatch he)⟩ fun j hj => ?_
  rw [hl]
  exact ⟨fun he => (nomatch he), fun he => absurd (Option.some.inj he).symm hj⟩

theorem Lru.front (hL : Lru c l) (hb : b < NBUF) (hc : (c.buf b).Claimed) :
    ∃ l', Lru { c with links := (c.links.remove b).insertAfter head b } l' := by
  obtain ⟨l₁, l₂, rfl⟩ := List.append_of_mem (hL.mem_iff.2 hb)
  have hnd := hL.ring.nodup
  have hbm : b ∉ head :: (l₁ ++ l₂) := by
    simp only [List.nodup_cons, List.nodup_append, List.mem_append, List.mem_cons] at hnd
    grind
  refine ⟨b :: (l₁ ++ l₂), hL.ring.remove.insertAfter hbm, ?_, fun a ha hca => ?_⟩
  · exact List.perm_middle.symm.trans hL.perm
  · show (b :: (l₁ ++ l₂)).find? (c.named (c.buf a).dev (c.buf a).blockno) = some a
    rcases eq_or_ne a b with rfl | hne
    · exact List.find?_cons_of_pos (decide_eq_true ⟨rfl, rfl⟩)
    · -- `b` stands for another block
      have hnot : ¬ c.named (c.buf a).dev (c.buf a).blockno b = true := fun hn => by
        rw [Bcache.named, decide_eq_true_eq] at hn
        exact hne (hL.unique ha hb hca hc hn.1.symm hn.2.symm)
      have hfirst := hL.first a ha hca
      rw [List.find?_append, List.find?_cons_of_neg hnot, ← List.find?_append] at hfirst
      rw [List.find?_cons_of_neg hnot, hfirst]

/-- The reference of caller `i` is given back. -/
def Bcache.dropped (c : Bcache) (b : Nat) : Bcache :=
  let c := c.setBuf b { c.buf b with refcnt := (c.buf b).refcnt - 1 }
  if (c.buf b).refcnt = 0 then { c with links := (c.links.remove b).insertAfter head b } else c

theorem brelse_spec {Q : Unit → Bcache → Prop} {E : Fault → Prop} : wp (brelse b) Q E c ↔ Q () (c.dropped b) := by
  rw [brelse, Bcache.dropped]
  simp only [wp_bind, wp_edit, wp_get, wp_ite, wp_set, wp_pure]
  split <;> simp_all

theorem dropped_buf (c : Bcache) (b : Nat) :
    (c.dropped b).buf = (c.setBuf b { c.buf b with refcnt := (c.buf b).refcnt - 1 }).buf := by
  rw [Bcache.dropped]
  split <;> rfl

theorem Users.dropped (h : Users D n s) (hp : (s.caller i).phase = .leaving) (hv : (s.c.buf (s.caller i).b).valid = true) :
    Users D n (s.goes (s.c.dropped (s.caller i).b) i .idle) := by
  obtain ⟨l, hL⟩ := h.lru
  have hne : (s.caller i).phase ≠ .idle := by simp [hp]
  obtain ⟨hb, hkey⟩ := h.key i hne
  have hpos := h.refcnt_pos hne
  have hself : (s.c.dropped (s.caller i).b).buf (s.caller i).b =
      { s.c.buf (s.caller i).b with refcnt := (s.c.buf (s.caller i).b).refcnt - 1 } := by
    rw [dropped_buf, Bcache.buf_setBuf_self]
  have hl : (s.c.buf (s.caller i).b).lock ≠ some i := fun he => by
    have := ((h.lock i _ hb).2 he).1
    rw [hp] at this
    exact Bool.noConfusion this
  have hlru : ∃ l', Lru (s.c.dropped (s.caller i).b) l' := by
    have hL' := hL.setBuf (b := (s.caller i).b) (x :=
      { s.c.buf (s.caller i).b with refcnt := (s.c.buf (s.caller i).b).refcnt - 1 })
      rfl rfl fun _ => h.claimed hne
    rw [Bcache.dropped]
    dsimp only
    split
    · refine hL'.front hb (Or.inr (Or.inl ?_))
      rw [Bcache.buf_setBuf_self]
      exact hv
    · exact ⟨l, hL'⟩
  refine h.step (h.refers_lt hne) hb hlru (fun b' hne => ?_) (fun j hne => goes_caller_of_ne hne) ?_ (fun _ => rfl) ?_ ?_ ?_ ?_ ?_
  · rw [goes_c, dropped_buf, Bcache.buf_setBuf_of_ne _ _ hne]
  · intro j _ _
    rw [goes_c, hself]
    exact ⟨rfl, rfl⟩
  · intro hidle
    rw [goes_caller] at hidle
    exact absurd rfl hidle
  · rw [goes_c, hself, goes_caller, if_neg hne, if_pos rfl]
    dsimp only
    omega
  · rw [goes_c, hself, goes_caller]
    exact ⟨fun he => Bool.noConfusion he, fun he => absurd he hl⟩
  · intro j hj
    rw [goes_c, hself]
  · intro _
    rw [goes_c, hself]
    exact h.dev _ hb (h.claimed hne)

end Xv6.Bio
