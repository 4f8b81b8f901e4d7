import Xv6.BioUsers

/-!
# The buffer cache is coherent

`Coherent` relates the data to the disk: a valid buffer has the last modification of its block, and a
modification that is not on the disk is in a buffer that cannot be recycled, because it is dirty or in the
hands of a caller that will call `log_write` or `bwrite`. Every action of a caller or of the disk keeps it.
-/

namespace Xv6.Bio

open Prog Function

structure Coherent (D : Set Nat) (s : BioSys) : Prop where
  nodup : s.c.idequeue.Nodup
  queued : ∀ b ∈ s.c.idequeue, ∃ i, (s.caller i).b = b ∧
    ((s.caller i).phase = .reading ∧ (s.c.buf b).valid = false ∧ (s.c.buf b).dirty = false ∨
      (s.caller i).phase = .writing ∧ (s.c.buf b).dirty = true)
  dirty : ∀ b, b < NBUF → (s.c.buf b).dirty = true → (s.c.buf b).valid = true
  held : ∀ i, (s.caller i).phase ∈ [.holding, .modified, .writing, .leaving] → (s.c.buf (s.caller i).b).valid = true
  data : ∀ b, b < NBUF → (s.c.buf b).valid = true → (s.c.buf b).data = s.latest (s.c.buf b).dev (s.c.buf b).blockno
  pinned : ∀ dev ∈ D, ∀ blockno, s.c.sector dev blockno ≠ s.latest dev blockno →
    ∃ b, b < NBUF ∧ (s.c.buf b).dev = dev ∧ (s.c.buf b).blockno = blockno ∧ (s.c.buf b).valid = true ∧
      ((s.c.buf b).dirty = true ∨ ∃ i, (s.caller i).phase = .modified ∧ (s.caller i).b = b)

def Started (s : BioSys) : Prop := ∀ b rest, s.c.idequeue = b :: rest → (s.c.buf b).dirty = true →
  s.c.sector (s.c.buf b).dev (s.c.buf b).blockno = (s.c.buf b).data

variable {D : Set Nat} {n i b : Nat} {s s' : BioSys} {c : Bcache} {l : List Nat}

/-! ### Data -/

def SameData (c c' : Bcache) : Prop := ∀ b, (c'.buf b).valid = (c.buf b).valid ∧ (c'.buf b).dirty = (c.buf b).dirty ∧
  (c'.buf b).dev = (c.buf b).dev ∧ (c'.buf b).blockno = (c.buf b).blockno ∧ (c'.buf b).data = (c.buf b).data

theorem sameData_setBuf {x : Buf} (h : x.valid = (c.buf b).valid ∧ x.dirty = (c.buf b).dirty ∧ x.dev = (c.buf b).dev ∧
    x.blockno = (c.buf b).blockno ∧ x.data = (c.buf b).data) : SameData c (c.setBuf b x) := by
  intro a
  rw [Bcache.buf_setBuf]
  split
  · next he =>
    rw [he]
    exact h
  · exact ⟨rfl, rfl, rfl, rfl, rfl⟩

theorem Coherent.congr (h : Coherent D s) (hq : s'.c.idequeue = s.c.idequeue)
    (hdisk : s'.c.disk = s.c.disk) (hlat : s'.latest = s.latest)
    (hb : SameData s.c s'.c)
    (hw : ∀ i, (s.caller i).phase ∈ [.reading, .writing, .modified] → s'.caller i = s.caller i ∨
      (s.caller i).phase ≠ .modified ∧ (s.c.buf (s.caller i).b).valid = true ∧ (s.c.buf (s.caller i).b).dirty = false ∨
      (s.caller i).phase = .modified ∧ (s.c.buf (s.caller i).b).dirty = true)
    (hh : ∀ i, (s'.caller i).phase ∈ [.holding, .modified, .writing, .leaving] → (s.c.buf (s'.caller i).b).valid = true) :
    Coherent D s' := by
  refine ⟨hq ▸ h.nodup, fun b hm => ?_, fun b hlt hd => ?_, fun i hi => ?_, fun b hlt hv => ?_, fun dev hdev blockno hne => ?_⟩
  · rw [hq] at hm
    obtain ⟨i, rfl, hi⟩ := h.queued b hm
    have hphase : (s.caller i).phase ∈ [.reading, .writing] := by
      rcases hi with ⟨hp, -⟩ | ⟨hp, -⟩ <;> simp [hp]
    refine ⟨i, ?_⟩
    rw [(hb _).1, (hb _).2.1]
    rcases hw i (List.mem_append_left [Phase.modified] hphase) with he | ⟨-, hv, hd⟩ | ⟨hp, -⟩
    · rw [he]
      exact ⟨rfl, hi⟩
    · simp [hv, hd] at hi
    · simp [hp] at hphase
  · rw [(hb b).2.1] at hd
    rw [(hb b).1]
    exact h.dirty b hlt hd
  · rw [(hb _).1]
    exact hh i hi
  · rw [(hb b).1] at hv
    rw [(hb b).2.2.2.2, (hb b).2.2.1, (hb b).2.2.2.1, hlat]
    exact h.data b hlt hv
  · rw [Bcache.sector, hdisk, hlat] at hne
    obtain ⟨b, hlt, hkd, hkb, hv, hpin⟩ := h.pinned dev hdev blockno hne
    refine ⟨b, hlt, ?_⟩
    rw [(hb b).1, (hb b).2.1, (hb b).2.2.1, (hb b).2.2.2.1]
    refine ⟨hkd, hkb, hv, ?_⟩
    rcases hpin with hd | ⟨i, hp, rfl⟩
    · exact Or.inl hd
    · rcases hw i (by simp [hp]) with he | ⟨hno, -⟩ | ⟨-, hd⟩
      · exact Or.inr ⟨i, by rw [he]; exact ⟨hp, rfl⟩⟩
      · exact absurd hp hno
      · exact Or.inl hd

theorem Started.congr (h : Started s) (hq : s'.c.idequeue = s.c.idequeue) (hdisk : s'.c.disk = s.c.disk)
    (hb : ∀ b ∈ s.c.idequeue, s'.c.buf b = s.c.buf b ∨ (s'.c.buf b).dirty = (s.c.buf b).dirty ∧
      (s'.c.buf b).dev = (s.c.buf b).dev ∧
      (s'.c.buf b).blockno = (s.c.buf b).blockno ∧ (s'.c.buf b).data = (s.c.buf b).data) : Started s' := by
  intro b rest hr hd
  rw [hq] at hr
  rw [Bcache.sector, hdisk]
  rcases hb b (by rw [hr]; exact List.mem_cons_self ..) with he | ⟨h1, h2, h3, h4⟩
  · rw [he] at hd ⊢
    exact h b rest hr hd
  · rw [h1] at hd
    rw [h2, h3, h4]
    exact h b rest hr hd

structure Ok (D : Set Nat) (n : Nat) (s : BioSys) : Prop where
  users : Users D n s
  coherent : Coherent D s
  started : Started s

theorem Ok.goes (h : Ok D n s) {p : Phase} (hU : Users D n (s.goes c i p))
    (hq : c.idequeue = s.c.idequeue) (hdisk : c.disk = s.c.disk)
    (hb : SameData s.c c)
    (hw : (s.caller i).phase ∈ [.reading, .writing, .modified] →
      (s.caller i).phase ≠ .modified ∧ (s.c.buf (s.caller i).b).valid = true ∧ (s.c.buf (s.caller i).b).dirty = false ∨
      (s.caller i).phase = .modified ∧ (s.c.buf (s.caller i).b).dirty = true)
    (hh : p ∈ [.holding, .modified, .writing, .leaving] → (s.c.buf (s.caller i).b).valid = true) : Ok D n (s.goes c i p) := by
  refine ⟨hU, h.coherent.congr hq hdisk rfl hb (fun j hj => ?_) fun j hj => ?_,
    h.started.congr hq hdisk fun a _ => Or.inr (hb a).2⟩
  · rcases eq_or_ne j i with rfl | hne
    · exact Or.inr (hw hj)
    · exact Or.inl (goes_caller_of_ne hne)
  · rcases eq_or_ne j i with rfl | hne
    · rw [goes_caller] at hj ⊢
      exact hh hj
    · rw [goes_caller_of_ne hne] at hj ⊢
      exact h.coherent.held j hj

theorem Ok.not_queued (h : Ok D n s) (hl : (s.caller i).phase.hasLock = true) (hr : (s.caller i).phase ≠ .reading)
    (hw : (s.caller i).phase ≠ .writing) : (s.caller i).b ∉ s.c.idequeue := by
  intro hm
  obtain ⟨j, hj, hp⟩ := h.coherent.queued _ hm
  have hb := (h.users.key i (hasLock_ne_idle hl)).1
  have hli := (h.users.lock i _ hb).1 ⟨hl, rfl⟩
  have hlj := (h.users.lock j _ hb).1 ⟨by rcases hp with ⟨hp, -⟩ | ⟨hp, -⟩ <;> (rw [hp]; rfl), hj⟩
  obtain rfl : i = j := Option.some.inj (hli.symm.trans hlj)
  rcases hp with ⟨hp, -⟩ | ⟨hp, -⟩
  · exact hr hp
  · exact hw hp

theorem Ok.taken (h : Ok D n s) (hL : Lru s.c l) (hi : i < n) (hidle : (s.caller i).phase = .idle) {dev blockno : Nat}
    (hd : dev ∈ D) (hf : l.find? (s.c.named dev blockno) = some b) :
    Ok D n (s.asking (s.c.setBuf b (s.c.buf b).taken) i b dev blockno) := by
  have hsame : SameData s.c (s.c.setBuf b (s.c.buf b).taken) := sameData_setBuf ⟨rfl, rfl, rfl, rfl, rfl⟩
  refine ⟨h.users.taken hL hi hidle hd hf, ?_, ?_⟩
  · refine h.coherent.congr rfl rfl rfl hsame (fun j hj => Or.inl (asking_caller_of_ne ?_)) fun j hj => ?_
    · rintro rfl
      simp [hidle] at hj
    · rcases eq_or_ne j i with rfl | hne
      · rw [asking_caller] at hj
        simp at hj
      · rw [asking_caller_of_ne hne] at hj ⊢
        exact h.coherent.held j hj
  · exact h.started.congr rfl rfl fun a _ => Or.inr (hsame a).2

theorem Ok.recycled (h : Ok D n s) (hL : Lru s.c l) (hi : i < n) (hidle : (s.caller i).phase = .idle) {dev blockno : Nat}
    (hd : dev ∈ D) (hf : l.find? (s.c.named dev blockno) = none) (hb : b < NBUF) (h0 : (s.c.buf b).refcnt = 0)
    (hclean : (s.c.buf b).dirty = false) :
    Ok D n (s.asking (s.c.setBuf b ((s.c.buf b).recycled dev blockno)) i b dev blockno) := by
  have hno := h.users.not_refers hb h0
  have hself := s.c.buf_setBuf_self b ((s.c.buf b).recycled dev blockno)
  have hother : ∀ {a}, a ≠ b → (s.c.setBuf b ((s.c.buf b).recycled dev blockno)).buf a = s.c.buf a :=
    fun hne => s.c.buf_setBuf_of_ne _ hne
  -- the callers that matter are others, with other buffers
  have hj : ∀ {j}, (s.caller j).phase ≠ .idle → j ≠ i ∧ (s.caller j).b ≠ b := fun {j} hp =>
    ⟨fun he => hp (he ▸ hidle), fun he => hno j ⟨hp, he⟩⟩
  have hq : ∀ {a}, a ∈ s.c.idequeue → a ≠ b := fun {a} hm => by
    obtain ⟨j, rfl, hp⟩ := h.coherent.queued a hm
    exact (hj (by rcases hp with ⟨hp, -⟩ | ⟨hp, -⟩ <;> simp [hp])).2
  refine ⟨h.users.recycled hL hi hidle hd hf hb h0, ?_, h.started.congr rfl rfl fun a ha => Or.inl (hother (hq ha))⟩
  refine ⟨h.coherent.nodup, fun a hm => ?_, fun a hlt hda => ?_, fun j hp => ?_, fun a hlt hv => ?_,
    fun dev' hdev blockno' hne => ?_⟩
  · obtain ⟨j, hja, hp⟩ := h.coherent.queued a hm
    refine ⟨j, ?_⟩
    rw [asking_c, hother (hq hm), asking_caller_of_ne (hj (by rcases hp with ⟨hp, -⟩ | ⟨hp, -⟩ <;> simp [hp])).1]
    exact ⟨hja, hp⟩
  · rw [asking_c] at hda ⊢
    rcases eq_or_ne a b with rfl | hne
    · rw [hself] at hda
      exact Bool.noConfusion hda
    · rw [hother hne] at hda ⊢
      exact h.coherent.dirty a hlt hda
  · rcases eq_or_ne j i with rfl | hne
    · rw [asking_caller] at hp
      simp at hp
    · rw [asking_caller_of_ne hne] at hp ⊢
      rw [asking_c, hother (hj fun he => by simp [he] at hp).2]
      exact h.coherent.held j hp
  · rw [asking_c] at hv ⊢
    rcases eq_or_ne a b with rfl | hne
    · rw [hself] at hv
      exact Bool.noConfusion hv
    · rw [hother hne] at hv ⊢
      exact h.coherent.data a hlt hv
  · obtain ⟨a, hlt, hkd, hkb, hv, hpin⟩ := h.coherent.pinned dev' hdev blockno' hne
    have hab : a ≠ b := by
      rintro rfl
      rcases hpin with hd' | ⟨j, hp, hja⟩
      · rw [hclean] at hd'
        exact Bool.noConfusion hd'
      · exact (hj (by simp [hp])).2 hja
    refine ⟨a, hlt, ?_⟩
    rw [asking_c, hother hab]
    refine ⟨hkd, hkb, hv, hpin.imp_right ?_⟩
    rintro ⟨j, hp, hja⟩
    refine ⟨j, ?_⟩
    rw [asking_caller_of_ne (hj (by simp [hp])).1]
    exact ⟨hp, hja⟩

/-! ### The disk -/

section Disk

/-- The disk with the data of buffer `b`. -/
def Bcache.flushed (c : Bcache) (b : Nat) : Bcache :=
  let x := c.buf b
  { c with disk := update c.disk (x.dev % 2) (update (c.disk (x.dev % 2)) x.blockno x.data) }

theorem sector_flushed (c : Bcache) (b dev blockno : Nat) : (c.flushed b).sector dev blockno =
    if dev % 2 = (c.buf b).dev % 2 ∧ blockno = (c.buf b).blockno then (c.buf b).data else c.sector dev blockno := by
  simp only [Bcache.sector, Bcache.flushed, update_apply]
  split
  · next he =>
    rw [update_apply]
    simp [he]
  · next he => simp [he]

def Distinct (D : Set Nat) : Prop := ∀ d ∈ D, ∀ d' ∈ D, d % 2 = d' % 2 → d = d'

theorem Users.queued_lt (h : Users D n s) (hC : Coherent D s) (hm : b ∈ s.c.idequeue) :
    b < NBUF ∧ (s.c.buf b).Claimed ∧ (s.c.buf b).dev ∈ D := by
  obtain ⟨j, rfl, hp⟩ := hC.queued b hm
  have hne : (s.caller j).phase ≠ .idle := by rcases hp with ⟨hp, -⟩ | ⟨hp, -⟩ <;> simp [hp]
  exact ⟨(h.key j hne).1, h.claimed hne, h.dev _ (h.key j hne).1 (h.claimed hne)⟩

theorem Coherent.flushed (hD : Distinct D) (hU : Users D n s) (h : Coherent D s) (hb : b < NBUF) (hd : (s.c.buf b).dirty = true) :
    Coherent D { s with c := s.c.flushed b } := by
  refine ⟨h.nodup, h.queued, h.dirty, h.held, h.data, fun dev hdev blockno hne => h.pinned dev hdev blockno fun he => hne ?_⟩
  show (s.c.flushed b).sector dev blockno = s.latest dev blockno
  rw [sector_flushed]
  split
  · next hk =>
    have hbD : (s.c.buf b).dev ∈ D := hU.dev b hb (Or.inr (Or.inr hd))
    rw [hD dev hdev _ hbD hk.1, hk.2]
    exact h.data b hb (h.dirty b hb hd)
  · exact he

theorem idestart_ok (hD : Distinct D) (hU : Users D n s) (h : Coherent D s) {rest : List Nat} (hq : s.c.idequeue = b :: rest) :
    wp (idestart b) (fun _ c => Ok D n { s with c }) (fun _ => True) s.c := by
  obtain ⟨hb, -, hbD⟩ := hU.queued_lt h (by rw [hq]; exact List.mem_cons_self ..)
  refine wp_bind.2 (wp_get.2 (wp_bind.2 (wp_failIf.2 ⟨fun _ => trivial, fun _ => ?_⟩)))
  cases hd : (s.c.buf b).dirty with
  | true =>
    rw [if_pos rfl]
    refine ⟨?_, h.flushed hD hU hb hd, fun b' rest' hq' _ => ?_⟩
    · exact hU.congr rfl (fun _ => ⟨rfl, rfl, rfl, rfl, id⟩) fun _ => ⟨rfl, rfl, rfl, Iff.rfl, rfl⟩
    · obtain ⟨rfl, -⟩ := List.cons.inj (hq.symm.trans hq')
      show (s.c.flushed b).sector (s.c.buf b).dev (s.c.buf b).blockno = (s.c.buf b).data
      rw [sector_flushed, if_pos ⟨rfl, rfl⟩]
  | false =>
    rw [if_neg Bool.false_ne_true]
    refine ⟨hU, h, fun b' rest' hq' hd' => ?_⟩
    obtain ⟨rfl, -⟩ := List.cons.inj (hq.symm.trans hq')
    rw [hd] at hd'
    exact Bool.noConfusion hd'

theorem Ok.iderw (hD : Distinct D) (h : Ok D n s) (hl : (s.caller i).phase.hasLock = true) (hr : (s.caller i).phase ≠ .reading)
    (hw : (s.caller i).phase ≠ .writing) {p : Phase}
    (hp : p = .reading ∧ (s.c.buf (s.caller i).b).valid = false ∧ (s.caller i).phase ≠ .modified ∨
      p = .writing ∧ (s.c.buf (s.caller i).b).dirty = true) :
    wp (iderw i (s.caller i).b) (fun _ c => Ok D n (s.goes c i p)) (fun _ => True) s.c := by
  have hidle := hasLock_ne_idle hl
  obtain ⟨hb, -⟩ := h.users.key i hidle
  have hnq := h.not_queued hl hr hw
  have hpl : p.hasLock = true := by rcases hp with ⟨rfl, -⟩ | ⟨rfl, -⟩ <;> rfl
  have hj : ∀ {j}, ((s.caller j).phase = .reading ∨ (s.caller j).phase = .writing) → j ≠ i := fun {j} hp he => by
    rw [he] at hp
    exact hp.elim hr hw
  have hclean : (s.c.buf (s.caller i).b).valid = false → (s.c.buf (s.caller i).b).dirty = false := fun hv =>
    Bool.eq_false_of_not_eq_true fun hd => by
      rw [h.coherent.dirty _ hb hd] at hv
      exact Bool.noConfusion hv
  have hU : Users D n (s.goes { s.c with idequeue := s.c.idequeue ++ [(s.caller i).b] } i p) := by
    refine h.users.congr rfl (fun _ => ⟨rfl, rfl, rfl, rfl, id⟩) fun j => ?_
    rcases eq_or_ne j i with rfl | hne
    · rw [goes_caller]
      exact ⟨rfl, rfl, rfl, ⟨fun he => absurd he (hasLock_ne_idle hpl), fun he => absurd he hidle⟩, hpl.trans hl.symm⟩
    · rw [goes_caller_of_ne hne]
      exact ⟨rfl, rfl, rfl, Iff.rfl, rfl⟩
  have hC : Coherent D (s.goes { s.c with idequeue := s.c.idequeue ++ [(s.caller i).b] } i p) := by
    refine ⟨?_, fun a ha => ?_, h.coherent.dirty, fun j hjp => ?_, h.coherent.data, fun dev hdev blockno hne => ?_⟩
    · exact List.nodup_append.2 ⟨h.coherent.nodup, List.nodup_singleton _, fun a ha b' hb' he =>
        hnq (by rw [List.mem_singleton] at hb'; rw [← hb', ← he]; exact ha)⟩
    · rcases List.mem_append.1 ha with ha | ha
      · obtain ⟨j, hja, hjp⟩ := h.coherent.queued a ha
        refine ⟨j, ?_⟩
        rw [goes_caller_of_ne (hj (hjp.imp And.left And.left))]
        exact ⟨hja, hjp⟩
      · obtain rfl := List.mem_singleton.1 ha
        refine ⟨i, ?_⟩
        rw [goes_caller]
        exact ⟨rfl, hp.imp (fun hp => ⟨hp.1, hp.2.1, hclean hp.2.1⟩) id⟩
    · rcases eq_or_ne j i with rfl | hne
      · rw [goes_caller] at hjp ⊢
        rcases hp with ⟨rfl, -⟩ | ⟨-, hd⟩
        · simp at hjp
        · exact h.coherent.dirty _ hb hd
      · rw [goes_caller_of_ne hne] at hjp ⊢
        exact h.coherent.held j hjp
    · obtain ⟨a, hlt, hkd, hkb, hv, hpin⟩ := h.coherent.pinned dev hdev blockno hne
      refine ⟨a, hlt, hkd, hkb, hv, ?_⟩
      rcases hpin with hd | ⟨j, hjp, rfl⟩
      · exact Or.inl hd
      · rcases eq_or_ne j i with rfl | hne
        · exact Or.inl (hp.elim (fun hp => absurd hjp hp.2.2) And.right)
        · exact Or.inr ⟨j, by rw [goes_caller_of_ne hne]; exact ⟨hjp, rfl⟩⟩
  refine wp_bind.2 (wp_get.2 ?_)
  refine wp_bind.2 (wp_failIf.2 ⟨fun _ => trivial, fun _ => ?_⟩)
  refine wp_bind.2 (wp_failIf.2 ⟨fun _ => trivial, fun _ => ?_⟩)
  refine wp_bind.2 (wp_failIf.2 ⟨fun _ => trivial, fun _ => ?_⟩)
  refine wp_bind.2 ((wp_set _).2 ?_)
  cases hq : s.c.idequeue with
  | nil =>
    rw [if_pos rfl]
    rw [hq] at hU hC
    exact idestart_ok hD hU hC rfl
  | cons a rest =>
    rw [if_neg (List.cons_ne_nil _ _)]
    rw [hq] at hU hC
    refine ⟨hU, hC, fun b' rest' hq' hd => ?_⟩
    obtain ⟨rfl, -⟩ := List.cons.inj hq'
    exact h.started a rest hq hd

/-- The request of `b` is done and `data` is in the buffer. -/
def Bcache.finished (c : Bcache) (b : Nat) (rest : List Nat) (data : Blk) : Bcache :=
  ({ c with idequeue := rest } : Bcache).setBuf b { c.buf b with data, valid := true, dirty := false }

theorem buf_finished_self {rest : List Nat} {data : Blk} :
    (c.finished b rest data).buf b = { c.buf b with data, valid := true, dirty := false } := update_self ..

theorem buf_finished_of_ne {a : Nat} {rest : List Nat} {data : Blk} (h : a ≠ b) : (c.finished b rest data).buf a = c.buf a :=
  update_of_ne h ..

theorem Users.finished (h : Users D n s) (hcl : (s.c.buf b).Claimed) (rest : List Nat) (data : Blk) :
    Users D n { s with c := s.c.finished b rest data } := by
  refine h.congr rfl (fun a => ?_) fun _ => ⟨rfl, rfl, rfl, Iff.rfl, rfl⟩
  rcases eq_or_ne a b with rfl | hne
  · rw [buf_finished_self]
    exact ⟨rfl, rfl, rfl, rfl, fun _ => hcl⟩
  · rw [buf_finished_of_ne hne]
    exact ⟨rfl, rfl, rfl, rfl, id⟩

theorem Coherent.finished (h : Coherent D s) {rest : List Nat} {data : Blk} (hq : s.c.idequeue = b :: rest)
    (hsector : s.c.sector (s.c.buf b).dev (s.c.buf b).blockno = s.latest (s.c.buf b).dev (s.c.buf b).blockno)
    (hdata : data = s.latest (s.c.buf b).dev (s.c.buf b).blockno) : Coherent D { s with c := s.c.finished b rest data } := by
  have hnd := h.nodup
  rw [hq, List.nodup_cons] at hnd
  refine ⟨hnd.2, fun a ha => ?_, fun a hlt hd => ?_, fun j hj => ?_, fun a hlt hv => ?_, fun dev hdev blockno hne => ?_⟩
  · dsimp only
    rw [buf_finished_of_ne (show a ≠ b from fun he => hnd.1 (he ▸ ha))]
    exact h.queued a (hq ▸ List.mem_cons_of_mem _ ha)
  · rcases eq_or_ne a b with rfl | hne
    · dsimp only
      rw [buf_finished_self]
    · dsimp only at hd ⊢
      rw [buf_finished_of_ne hne] at hd ⊢
      exact h.dirty a hlt hd
  · dsimp only at hj ⊢
    rcases eq_or_ne (s.caller j).b b with he | hne
    · rw [he, buf_finished_self]
    · rw [buf_finished_of_ne hne]
      exact h.held j hj
  · dsimp only at hv ⊢
    rcases eq_or_ne a b with rfl | hne
    · rw [buf_finished_self]
      exact hdata
    · rw [buf_finished_of_ne hne] at hv ⊢
      exact h.data a hlt hv
  · obtain ⟨a, hlt, hkd, hkb, hv, hpin⟩ := h.pinned dev hdev blockno hne
    have hab : a ≠ b := by
      rintro rfl
      rw [hkd, hkb] at hsector
      exact hne hsector
    refine ⟨a, hlt, ?_⟩
    dsimp only
    rw [buf_finished_of_ne hab]
    exact ⟨hkd, hkb, hv, hpin⟩

theorem Ok.active (h : Ok D n s) {rest : List Nat} (hq : s.c.idequeue = b :: rest) :
    s.c.sector (s.c.buf b).dev (s.c.buf b).blockno = s.latest (s.c.buf b).dev (s.c.buf b).blockno ∧
      ((s.c.buf b).dirty = true → (s.c.buf b).data = s.latest (s.c.buf b).dev (s.c.buf b).blockno) := by
  have hm : b ∈ s.c.idequeue := hq ▸ List.mem_cons_self ..
  obtain ⟨hb, hcl, hbD⟩ := h.users.queued_lt h.coherent hm
  obtain ⟨j, hjb, ⟨-, hv, hd⟩ | ⟨-, hd⟩⟩ := h.coherent.queued b hm
  · refine ⟨?_, fun hd' => ?_⟩
    · by_contra hne
      obtain ⟨a, hlt, hkd, hkb, hva, -⟩ := h.coherent.pinned _ hbD _ hne
      obtain ⟨l, hL⟩ := h.users.lru
      obtain rfl := hL.unique hlt hb (Or.inr (Or.inl hva)) hcl hkd hkb
      rw [hv] at hva
      exact Bool.noConfusion hva
    · rw [hd] at hd'
      exact Bool.noConfusion hd'
  · have hdat := h.coherent.data b hb (h.coherent.dirty b hb hd)
    exact ⟨(h.started b rest hq hd).trans hdat, fun _ => hdat⟩

theorem Ok.ideintr (hD : Distinct D) (h : Ok D n s) : wp (ideintr true) (fun _ c => Ok D n { s with c }) (fun _ => True) s.c := by
  refine wp_bind.2 (wp_get.2 ?_)
  cases hq : s.c.idequeue with
  | nil => exact h
  | cons b rest =>
    obtain ⟨hb, hcl, -⟩ := h.users.queued_lt h.coherent (hq ▸ List.mem_cons_self ..)
    obtain ⟨hsector, hdirty⟩ := h.active hq
    have hdata : (if (s.c.buf b).dirty = false ∧ true = true then s.c.sector (s.c.buf b).dev
      (s.c.buf b).blockno else (s.c.buf b).data) =
        s.latest (s.c.buf b).dev (s.c.buf b).blockno := by
      cases hd : (s.c.buf b).dirty with
      | true => exact hdirty hd
      | false => exact hsector
    refine wp_bind.2 ((wp_set _).2 (wp_bind.2 (wp_edit.2 ?_)))
    have hU := h.users.finished hcl rest
      (if (s.c.buf b).dirty = false ∧ true = true then s.c.sector (s.c.buf b).dev (s.c.buf b).blockno else (s.c.buf b).data)
    have hC := h.coherent.finished hq hsector hdata
    cases rest with
    | nil => exact ⟨hU, hC, fun _ _ he => nomatch he⟩
    | cons b' rest => exact idestart_ok hD hU hC rfl

end Disk

/-! ### Modifications -/

theorem mem_writable {p : Phase} (h : p ∈ [.holding, .modified]) :
    p.hasLock = true ∧ p ≠ .reading ∧ p ≠ .writing ∧ p ∈ [Phase.holding, .modified, .writing, .leaving] := by
  simp only [List.mem_cons, List.not_mem_nil, or_false] at h
  rcases h with rfl | rfl <;> decide

theorem Ok.edited (h : Ok D n s) (hp : (s.caller i).phase ∈ [.holding, .modified]) {x : Buf}
    (hx : x.dev = (s.c.buf (s.caller i).b).dev ∧ x.blockno = (s.c.buf (s.caller i).b).blockno ∧ x.valid = true ∧
      x.refcnt = (s.c.buf (s.caller i).b).refcnt ∧ x.lock = (s.c.buf (s.caller i).b).lock)
    (hc : s'.c = s.c.setBuf (s.caller i).b x) (hcall : s'.caller = update s.caller i { s.caller i with phase := .modified })
    (hself : x.data = s'.latest x.dev x.blockno)
    (hlat : ∀ dev blockno, ¬ (dev = x.dev ∧ blockno = x.blockno) → s'.latest dev blockno = s.latest dev blockno) : Ok D n s' := by
  obtain ⟨hl, hr, hw, hmem⟩ := mem_writable hp
  obtain ⟨l, hL⟩ := h.users.lru
  have hidle := hasLock_ne_idle hl
  have hnq := h.not_queued hl hr hw
  have hcl := h.users.claimed hidle
  have hb := (h.users.key i hidle).1
  have hi : s'.caller i = { s.caller i with phase := .modified } := by rw [hcall, update_self]
  have hj : ∀ {j}, j ≠ i → s'.caller j = s.caller j := fun hne => by rw [hcall, update_of_ne hne]
  have hbuf : s'.c.buf (s.caller i).b = x := by rw [hc, Bcache.buf_setBuf_self]
  have hother : ∀ {a}, a ≠ (s.caller i).b → s'.c.buf a = s.c.buf a := fun hne => by rw [hc, Bcache.buf_setBuf_of_ne _ _ hne]
  have hq : s'.c.idequeue = s.c.idequeue := by rw [hc]; rfl
  have hdisk : s'.c.disk = s.c.disk := by rw [hc]; rfl
  refine ⟨h.users.congr (by rw [hc]; rfl) (fun a => ?_) fun j => ?_, ⟨hq ▸ h.coherent.nodup, fun a ha => ?_, fun a hlt hd => ?_,
    fun j hjp => ?_, fun a hlt hv => ?_, fun dev hdev blockno hne => ?_⟩, ?_⟩
  · rcases eq_or_ne a (s.caller i).b with rfl | hne
    · rw [hbuf]
      exact ⟨hx.1, hx.2.1, hx.2.2.2.1, hx.2.2.2.2, fun _ => hcl⟩
    · rw [hother hne]
      exact ⟨rfl, rfl, rfl, rfl, id⟩
  · rcases eq_or_ne j i with rfl | hne
    · rw [hi]
      exact ⟨rfl, rfl, rfl, ⟨fun he => (nomatch he), fun he => absurd he hidle⟩, hl.symm⟩
    · rw [hj hne]
      exact ⟨rfl, rfl, rfl, Iff.rfl, rfl⟩
  · rw [hq] at ha
    obtain ⟨j, hja, hjp⟩ := h.coherent.queued a ha
    have hne : j ≠ i := by
      rintro rfl
      exact hjp.elim (fun hp => hr hp.1) fun hp => hw hp.1
    refine ⟨j, ?_⟩
    rw [hj hne, hother fun he => hnq (he ▸ ha)]
    exact ⟨hja, hjp⟩
  · rcases eq_or_ne a (s.caller i).b with rfl | hne
    · rw [hbuf]
      exact hx.2.2.1
    · rw [hother hne] at hd ⊢
      exact h.coherent.dirty a hlt hd
  · rcases eq_or_ne (s'.caller j).b (s.caller i).b with he | hne
    · rw [he, hbuf]
      exact hx.2.2.1
    · have hji : j ≠ i := by
        rintro rfl
        rw [hi] at hne
        exact hne rfl
      rw [hother hne]
      rw [hj hji] at hjp ⊢
      exact h.coherent.held j hjp
  · rcases eq_or_ne a (s.caller i).b with rfl | hne
    · rw [hbuf]
      exact hself
    · rw [hother hne] at hv ⊢
      -- the other valid buffers stand for other blocks
      rw [hlat _ _ fun hk => hne (hL.unique hlt hb (Or.inr (Or.inl hv)) hcl (hk.1.trans hx.1) (hk.2.trans hx.2.1))]
      exact h.coherent.data a hlt hv
  · by_cases hk : dev = x.dev ∧ blockno = x.blockno
    · refine ⟨(s.caller i).b, hb, ?_⟩
      rw [hbuf]
      exact ⟨hk.1.symm, hk.2.symm, hx.2.2.1, Or.inr ⟨i, by rw [hi], by rw [hi]⟩⟩
    · rw [Bcache.sector, hdisk, hlat _ _ hk] at hne
      obtain ⟨a, hlt, hkd, hkb, hv, hpin⟩ := h.coherent.pinned dev hdev blockno hne
      have hab : a ≠ (s.caller i).b := by
        rintro rfl
        exact hk ⟨hkd.symm.trans hx.1.symm, hkb.symm.trans hx.2.1.symm⟩
      refine ⟨a, hlt, ?_⟩
      rw [hother hab]
      refine ⟨hkd, hkb, hv, hpin.imp_right ?_⟩
      rintro ⟨j, hjp, rfl⟩
      refine ⟨j, ?_⟩
      rw [hj fun he => hab (he ▸ rfl)]
      exact ⟨hjp, rfl⟩
  · refine h.started.congr hq hdisk fun a ha => Or.inl (hother ?_)
    rintro rfl
    exact hnq ha

theorem Ok.stored (h : Ok D n s) (hp : (s.caller i).phase ∈ [.holding, .modified]) (v : Blk)
    (hc : s'.c = s.c.setBuf (s.caller i).b
    { s.c.buf (s.caller i).b with data := v }) (hs :
      s' = (({ s with c := s'.c } : BioSys).noted (s.caller i).b v).goes s'.c i .modified) :
    Ok D n s' := by
  have hv := h.coherent.held i (mem_writable hp).2.2.2
  have hlatest : s'.latest = update s.latest (s.c.buf (s.caller i).b).dev
      (update (s.latest (s.c.buf (s.caller i).b).dev) (s.c.buf (s.caller i).b).blockno v) := by
    rw [hs]
    show update s.latest (s'.c.buf (s.caller i).b).dev
      (update (s.latest (s'.c.buf (s.caller i).b).dev) (s'.c.buf (s.caller i).b).blockno v) = _
    rw [hc, Bcache.buf_setBuf_self]
  refine h.edited (x := { s.c.buf (s.caller i).b with data := v }) hp ⟨rfl, rfl, hv, rfl, rfl⟩ hc (by rw [hs]; rfl) ?_
    fun dev blockno hk => ?_
  · rw [hlatest, update_self, update_self]
  · rw [hlatest, update_apply]
    split
    · next he =>
      rw [update_of_ne fun he' => hk ⟨he, he'⟩, he]
    · rfl

theorem goes_goes {c' : Bcache} {p q : Phase} : (s.goes c i p).goes c' i q = s.goes c' i q := by
  simp [BioSys.goes, update_idem]

theorem Ok.dirtied (h : Ok D n s) (hp : (s.caller i).phase ∈ [.holding, .modified]) :
    Ok D n (s.goes (s.c.setBuf (s.caller i).b { s.c.buf (s.caller i).b with dirty := true }) i .modified) := by
  have hmem := mem_writable hp
  have hb := (h.users.key i (hasLock_ne_idle hmem.1)).1
  have hv := h.coherent.held i hmem.2.2.2
  exact h.edited (x := { s.c.buf (s.caller i).b with dirty := true }) hp ⟨rfl, rfl, hv, rfl, rfl⟩ rfl rfl
    (h.coherent.data _ hb hv) fun _ _ _ => rfl

theorem Ok.logged (h : Ok D n s) (hp : (s.caller i).phase ∈ [.holding, .modified]) :
    Ok D n (s.goes (s.c.setBuf (s.caller i).b { s.c.buf (s.caller i).b with dirty := true }) i .holding) := by
  have h₁ := h.dirtied hp
  have hb := (h.users.key i (hasLock_ne_idle (mem_writable hp).1)).1
  rw [← goes_goes (c := s.c.setBuf (s.caller i).b { s.c.buf (s.caller i).b with dirty := true }) (p := .modified)]
  have hd : (((s.goes (s.c.setBuf (s.caller i).b { s.c.buf (s.caller i).b with dirty := true }) i .modified).c.buf
      (s.caller i).b).dirty) = true := by rw [goes_c, Bcache.buf_setBuf_self]
  refine h₁.goes ?_ rfl rfl (fun _ => ⟨rfl, rfl, rfl, rfl, rfl⟩) (fun _ => Or.inr ?_) fun _ => ?_
  · refine h₁.users.congr rfl (fun _ => ⟨rfl, rfl, rfl, rfl, id⟩) fun j => ?_
    rcases eq_or_ne j i with rfl | hne
    · rw [goes_caller, goes_caller]
      exact ⟨rfl, rfl, rfl, ⟨fun he => (nomatch he), fun he => (nomatch he)⟩, rfl⟩
    · rw [goes_caller_of_ne hne]
      exact ⟨rfl, rfl, rfl, Iff.rfl, rfl⟩
  · rw [goes_caller]
    exact ⟨rfl, hd⟩
  · rw [goes_caller]
    exact h₁.coherent.dirty _ hb hd

theorem Ok.bwrite (hD : Distinct D) (h : Ok D n s) (hp : (s.caller i).phase ∈ [.holding, .modified]) :
    wp (bwrite i (s.caller i).b) (fun _ c => Ok D n (s.goes c i .writing)) (fun _ => True) s.c := by
  refine wp_bind.2 (wp_get.2 (wp_bind.2 (wp_failIf.2 ⟨fun _ => trivial, fun _ => wp_bind.2 (wp_edit.2 ?_)⟩)))
  have h₁ := h.dirtied hp
  have hw := h₁.iderw (i := i) (p := .writing) hD (by rw [goes_caller]; rfl) (by rw [goes_caller]; exact Phase.noConfusion)
    (by rw [goes_caller]; exact Phase.noConfusion) (Or.inr ⟨rfl, by rw [goes_caller, goes_c, Bcache.buf_setBuf_self]⟩)
  rw [goes_caller] at hw
  refine hw.post fun _ c hc => ?_
  rwa [goes_goes] at hc

/-! ### Runs -/

theorem Ok.moves (h : Ok D n s) {p : Phase} (hl : (s.caller i).phase.hasLock = true) (hp : p.hasLock = true)
    (hm : (s.caller i).phase ≠ .modified) (hv : (s.c.buf (s.caller i).b).valid = true)
    (hd : (s.caller i).phase = .locked ∨ (s.c.buf (s.caller i).b).dirty = false) : Ok D n (s.goes s.c i p) := by
  refine h.goes ?_ rfl rfl (fun _ => ⟨rfl, rfl, rfl, rfl, rfl⟩) (fun hmem => ?_) fun _ => hv
  · refine h.users.congr rfl (fun _ => ⟨rfl, rfl, rfl, rfl, id⟩) fun j => ?_
    rcases eq_or_ne j i with rfl | hne
    · rw [goes_caller]
      exact ⟨rfl, rfl, rfl, ⟨fun he => absurd he (hasLock_ne_idle hp), fun he =>
        absurd he (hasLock_ne_idle hl)⟩, hp.trans hl.symm⟩
    · rw [goes_caller_of_ne hne]
      exact ⟨rfl, rfl, rfl, Iff.rfl, rfl⟩
  · rcases hd with hd | hd
    · simp [hd] at hmem
    · exact Or.inl ⟨hm, hv, hd⟩

theorem Ok.exec (hD : Distinct D) (h : Ok D n s) {a : Action} (ha : a.Allowed D) :
    wp (a.exec n) (fun _ => Ok D n) (fun _ => True) s := by
  cases a with
  | bget i dev blockno =>
    refine wp_bind.2 (wp_failIf.2 ⟨fun _ => trivial, fun hi => wp_bind.2 (wp_expect trivial fun hp => ?_)⟩)
    obtain ⟨l, hL⟩ := h.users.lru
    refine wp_bind.2 (wp_onCache.2 ((bget_spec hL dev blockno).post fun b c hc => ?_))
    have hidle := List.mem_singleton.1 hp
    rcases hc with ⟨hf, rfl⟩ | ⟨hf, hb, h0, hclean, rfl⟩
    · exact h.taken hL (Nat.lt_of_not_le hi) hidle ha hf
    · exact h.recycled hL (Nat.lt_of_not_le hi) hidle ha hf hb h0 hclean
  | acquire i =>
    refine wp_bind.2 (wp_expect trivial fun hp => wp_bind.2 (wp_onCache.2 ?_))
    refine wp_bind.2 (wp_get.2 (wp_bind.2 (wp_failIf.2 ⟨fun _ => trivial, fun hl => wp_edit.2 ?_⟩)))
    have hp := List.mem_singleton.1 hp
    exact h.goes (h.users.acquired hp (not_not.1 hl)) rfl rfl (sameData_setBuf ⟨rfl, rfl, rfl, rfl,
      rfl⟩) (fun hm => by simp [hp] at hm)
      fun hm => by simp at hm
  | check i =>
    refine wp_bind.2 (wp_expect trivial fun hp => wp_bind.2 (wp_get.2 ?_))
    have hp := List.mem_singleton.1 hp
    cases hv : (s.c.buf (s.caller i).b).valid with
    | true =>
      rw [if_pos rfl]
      exact h.moves (by rw [hp]; rfl) rfl (by simp [hp]) hv (Or.inl hp)
    | false =>
      rw [if_neg Bool.false_ne_true]
      exact wp_bind.2 (wp_onCache.2 (h.iderw hD (by rw [hp]; rfl) (by simp [hp]) (by simp [hp]) (Or.inl ⟨rfl, hv, by simp [hp]⟩)))
  | wake i =>
    refine wp_bind.2 (wp_expect trivial fun hp => wp_bind.2 (wp_get.2 (wp_bind.2 (wp_failIf.2 ⟨fun _ => trivial, fun hf => ?_⟩))))
    obtain ⟨hv, hd⟩ := not_not.1 hf
    have hp : (s.caller i).phase = .reading ∨ (s.caller i).phase = .writing := by simpa using hp
    exact h.moves (by rcases hp with hp | hp <;> (rw [hp]; rfl)) rfl (by rcases hp with hp | hp <;> simp [hp]) hv (Or.inr hd)
  | store i v =>
    refine wp_bind.2 (wp_expect trivial fun hp => wp_bind.2 (wp_onCache.2 (wp_edit.2 ?_)))
    exact h.stored hp v rfl rfl
  | logWrite i =>
    refine wp_bind.2 (wp_expect trivial fun hp => wp_bind.2 (wp_onCache.2 (wp_edit.2 ?_)))
    exact h.logged hp
  | bwrite i =>
    refine wp_bind.2 (wp_expect trivial fun hp => wp_bind.2 (wp_onCache.2 ?_))
    exact h.bwrite hD hp
  | release i =>
    refine wp_bind.2 (wp_expect trivial fun hp => wp_bind.2 (wp_onCache.2 ?_))
    refine wp_bind.2 (wp_get.2 (wp_bind.2 (wp_failIf.2 ⟨fun _ => trivial, fun _ => wp_edit.2 ?_⟩)))
    have hp := List.mem_singleton.1 hp
    exact h.goes (h.users.released hp) rfl rfl (sameData_setBuf ⟨rfl, rfl, rfl, rfl, rfl⟩) (fun hm => by simp [hp] at hm)
      fun _ => h.coherent.held i (by simp [hp])
  | brelse i =>
    refine wp_bind.2 (wp_expect trivial fun hp => wp_bind.2 (wp_onCache.2 (brelse_spec.2 ?_)))
    have hp := List.mem_singleton.1 hp
    have hdisk : (s.c.dropped (s.caller i).b).idequeue = s.c.idequeue ∧ (s.c.dropped (s.caller i).b).disk = s.c.disk := by
      rw [Bcache.dropped]
      dsimp only
      split <;> exact ⟨rfl, rfl⟩
    refine h.goes (h.users.dropped hp (h.coherent.held i (by simp [hp]))) hdisk.1 hdisk.2 (fun a =>
      ?_) (fun hm => by simp [hp] at hm)
      fun hm => by simp at hm
    rw [dropped_buf]
    exact sameData_setBuf (x :=
      { s.c.buf (s.caller i).b with refcnt := (s.c.buf (s.caller i).b).refcnt - 1 }) ⟨rfl, rfl, rfl, rfl, rfl⟩ a
  | ideintr ok =>
    obtain rfl : ok = true := ha
    exact wp_onCache.2 (h.ideintr hD)

/-! ### From boot -/

theorem isRing_foldl (bs : List Nat) {L : Links} (hr : L.IsRing head l) (hn : (head :: (bs.reverse ++ l)).Nodup) :
    (bs.foldl (fun L b => L.insertAfter head b) L).IsRing head (bs.reverse ++ l) := by
  induction bs generalizing L l with
  | nil => exact hr
  | cons b bs ih =>
    rw [List.reverse_cons, List.append_assoc] at hn ⊢
    refine ih (hr.insertAfter fun hm => ?_) hn
    simp only [List.nodup_cons, List.nodup_append, List.mem_append, List.mem_cons, List.singleton_append] at hn hm
    grind

theorem not_claimed_start {disk : Nat → Image} {havedisk1 : Bool} : ¬ ((start disk havedisk1).c.buf b).Claimed := by
  rintro (hc | hc | hc)
  · exact Nat.lt_irrefl 0 hc
  · exact Bool.false_ne_true hc
  · exact Bool.false_ne_true hc

theorem ok_start (disk : Nat → Image) (havedisk1 : Bool) : Ok D n (start disk havedisk1) := by
  have hring : (start disk havedisk1).c.links.IsRing head ((List.range NBUF).reverse ++ []) := by
    refine isRing_foldl _ (Links.isRing_nil ?_ ?_) ?_
    · dsimp only
      rw [update_self]
    · dsimp only
      rw [update_self]
    · decide
  rw [List.append_nil] at hring
  refine ⟨⟨⟨_, hring, List.reverse_perm _, fun b _ hc => absurd hc not_claimed_start⟩, fun _ _ => rfl, fun i hi => absurd rfl hi,
    fun b _ => (tally_eq_zero fun j hr => hr.1 rfl).symm, fun i b _ => ?_, fun b _ hc => absurd hc not_claimed_start⟩,
    ⟨List.nodup_nil, fun b hb => absurd hb List.not_mem_nil, fun b _ hd => ?_, fun i hi => ?_,
      fun b _ hv => ?_, fun _ _ _ hne => ?_⟩, ?_⟩
  · exact ⟨fun hl => Bool.noConfusion hl.1, fun hl => nomatch hl⟩
  · exact absurd hd Bool.false_ne_true
  · exact absurd hi (show Phase.idle ∉ [Phase.holding, .modified, .writing, .leaving] by decide)
  · exact absurd hv Bool.false_ne_true
  · exact absurd rfl hne
  · rintro b rest hq
    cases hq

theorem Reach.ok (hD : Distinct D) (h : Reach D n s) : Ok D n s := by
  induction h with
  | start disk havedisk1 => exact ok_start disk havedisk1
  | step _ ha hr ih => exact wp.of_ok (ih.exec hD ha) hr

/-- Over every run of `bread`, `log_write`, `bwrite` and `brelse` by any number of callers, on devices that are different
disks: at most one buffer in use for each block, reference counts that say how many callers have the buffer, a ring that is
a permutation of the buffers, and data that is the last modification of the block for everybody that has got it from `bread`. -/
theorem bcache_coherent (hD : Distinct D) (h : Reach D n s) :
    (∀ b b', b < NBUF → b' < NBUF → (s.c.buf b).Claimed → (s.c.buf b').Claimed → (s.c.buf b).dev = (s.c.buf b').dev →
      (s.c.buf b).blockno = (s.c.buf b').blockno → b = b') ∧
    (∀ b, b < NBUF → (s.c.buf b).refcnt = tally n (Caller.Refers b) s.caller) ∧
    (∃ l, l.Perm (List.range NBUF) ∧ s.c.links.IsRing head l) ∧
    ∀ i, (s.caller i).phase = .holding ∨ (s.caller i).phase = .modified →
      (s.c.buf (s.caller i).b).data = s.latest (s.caller i).dev (s.caller i).blockno := by
  have hok := h.ok hD
  obtain ⟨l, hL⟩ := hok.users.lru
  refine ⟨fun b b' hb hb' hc hc' hd hk => hL.unique hb hb' hc hc' hd hk, hok.users.refcnt, ⟨l, hL.perm, hL.ring⟩, fun i hi => ?_⟩
  have hne : (s.caller i).phase ≠ .idle := by rcases hi with hi | hi <;> simp [hi]
  obtain ⟨hb, hkd, hkb⟩ := hok.users.key i hne
  rw [← hkd, ← hkb]
  exact hok.coherent.data _ hb (hok.coherent.held i (by rcases hi with hi | hi <;> simp [hi]))

/-! ### Two short runs -/

def execAll (n : Nat) : List Action → SysM Unit
  | [] => pure ()
  | a :: as => do
    a.exec n
    execAll n as

theorem Reach.execAll {as : List Action} (h : Reach D n s) (ha : ∀ a ∈ as, a.Allowed D) :
    wp (execAll n as) (fun _ => Reach D n) (fun _ => True) s := by
  induction as generalizing s with
  | nil => exact h
  | cons a as ih =>
    refine wp.bind (wp_run.mono (fun _ _ hr => hr) fun _ _ => trivial) fun _ s₁ hr => ?_
    exact ih (h.step (ha a (List.mem_cons_self ..)) hr) fun b hb => ha b (List.mem_cons_of_mem _ hb)

def readBlock (dev blockno : Nat) : List Action := [.bget 0 dev blockno, .acquire 0, .check 0, .ideintr true, .wake 0]

def writeBlock (v : Blk) : List Action := [.store 0 v, .bwrite 0, .ideintr true, .wake 0]

def giveBack : List Action := [.release 0, .brelse 0]

def blkOnes : Blk := (Block.zero BSIZE).putU32 0 1

def emptyDisks : BioSys := start (fun _ _ => Block.zero _) true

def again : List Action := readBlock 1 5 ++ writeBlock blkOnes ++ giveBack ++ [.bget 0 1 5, .acquire 0, .check 0]

theorem bcache_coherent_again : (execAll 1 again).result emptyDisks = some () ∧
    (((execAll 1 again).final emptyDisks).caller 0).phase = .holding ∧
    (((execAll 1 again).final emptyDisks).c.buf (((execAll 1 again).final emptyDisks).caller 0).b).data =
      ((execAll 1 again).final emptyDisks).latest 1 5 := by
  have hrun : (execAll 1 again).result emptyDisks = some () := by decide +kernel
  have hreach : Reach {1} 1 ((execAll 1 again).final emptyDisks) :=
    wp.of_ok (Reach.execAll (.start _ _) fun a ha => by
      simp only [again, readBlock, writeBlock, giveBack, List.mem_append, List.mem_cons, List.not_mem_nil, or_false] at ha
      rcases ha with ((h | h) | h) | h <;> rcases h with rfl | h <;> grind [Action.Allowed]) (run_eq_final hrun)
  have hD : Distinct {1} := fun d hd d' hd' _ => (Set.mem_singleton_iff.1 hd).trans (Set.mem_singleton_iff.1 hd').symm
  have hphase : (((execAll 1 again).final emptyDisks).caller 0).phase = .holding := by decide +kernel
  refine ⟨hrun, hphase, ?_⟩
  have hdata := (bcache_coherent hD hreach).2.2.2 0 (Or.inl hphase)
  rw [show (((execAll 1 again).final emptyDisks).caller 0).dev = 1 by decide +kernel,
    show (((execAll 1 again).final emptyDisks).caller 0).blockno = 5 by decide +kernel] at hdata
  exact hdata

def crossed : List Action := readBlock 0 5 ++ writeBlock blkOnes ++ giveBack ++ readBlock 2 5

def crossedCached : List Action :=
  readBlock 2 5 ++ giveBack ++ readBlock 0 5 ++ writeBlock blkOnes ++ giveBack ++ [.bget 0 2 5, .acquire 0, .check 0]

/-- Nobody has modified block 5 of device 2. In the first run `bread` returns something that it never had; in the second
what it had, although the disk has something else by now. -/
theorem bcache_crossed :
    ((execAll 1 crossed).result emptyDisks = some () ∧
      (((execAll 1 crossed).final emptyDisks).caller 0).phase = .holding ∧
      (((execAll 1 crossed).final emptyDisks).c.buf (((execAll 1 crossed).final emptyDisks).caller 0).b).data.data 0 = 1 ∧
      (((execAll 1 crossed).final emptyDisks).latest 2 5).data 0 = 0) ∧
    (execAll 1 crossedCached).result emptyDisks = some () ∧
      (((execAll 1 crossedCached).final emptyDisks).caller 0).phase = .holding ∧
      (((execAll 1 crossedCached).final emptyDisks).c.buf
        (((execAll 1 crossedCached).final emptyDisks).caller 0).b).data.data 0 = 0 ∧
      (((execAll 1 crossedCached).final emptyDisks).c.sector 2 5).data 0 = 1 := by
  refine ⟨⟨?_, ?_, ?_, ?_⟩, ?_, ?_, ?_, ?_⟩ <;> decide +kernel

end Xv6.Bio
