import Xv6.Log
import Mathlib.Data.List.GetD

/-!
# Crash atomicity of the log

The home locations are the blocks outside the log area. `Recovers sb d V` says that recovery from the
disk image `d` yields the home image `V`. One commit takes the disk through images that all recover to
the image before it or to the image after it (`commit_spec`), and so does recovery itself
(`recover_spec`). `LogOk` is what holds between operations.
-/

namespace Xv6

open Prog Function

variable (sb : Superblock)

def Home (b : Nat) : Prop := b < sb.logstart ∨ sb.logstart + sb.nlog ≤ b

instance (b : Nat) : Decidable (Home sb b) := inferInstanceAs (Decidable (_ ∨ _))

structure LogArea : Prop where
  pos : 0 < sb.nlog
  fits : sb.logstart + sb.nlog ≤ FSSIZE

structure HeadOk (lh : List Nat) : Prop where
  nodup : lh.Nodup
  home : ∀ b ∈ lh, Home sb b
  lt : ∀ b ∈ lh, b < FSSIZE
  len : lh.length ≤ LOGSIZE
  room : lh.length < sb.nlog

/-- `d` with the first `i` logged blocks copied from the log blocks of `c`. -/
def installed (c : Image) (lh : List Nat) (d : Image) (i : Nat) : Image := fun b =>
  if b ∈ lh.take i then c (sb.logstart + lh.idxOf b + 1) else d b

/-- Recovery from `d` yields the home image `V`. -/
structure Recovers (d V : Image) : Prop where
  head : HeadOk sb (decodeHead (d sb.logstart))
  img : ∀ b, Home sb b → installed sb d (decodeHead (d sb.logstart)) d
    (decodeHead (d sb.logstart)).length b = V b

structure LogOk (s : Dev) : Prop where
  clean : headN (s.disk sb.logstart) = 0
  area : ∀ b, ¬ Home sb b → s.cache b = s.disk b
  unlogged : ∀ b, Home sb b → b ∉ s.log.lh → s.cache b = s.disk b
  head : HeadOk sb s.log.lh

variable {sb}

theorem not_home_log {i : Nat} (hi : i < sb.nlog) : ¬ Home sb (sb.logstart + i) := by
  unfold Home; omega

theorem LogArea.start_not_home (h : LogArea sb) : ¬ Home sb sb.logstart := not_home_log h.pos

theorem HeadOk.log_not_mem {lh : List Nat} (h : HeadOk sb lh) {i : Nat} (hi : i < sb.nlog) :
    sb.logstart + i ∉ lh := fun hm => not_home_log hi (h.home _ hm)

theorem HeadOk.nil (h : LogArea sb) : HeadOk sb [] :=
  ⟨List.nodup_nil, by simp, by simp, by simp, h.pos⟩

theorem getD_mem_of_lt {lh : List Nat} {i : Nat} (hi : i < lh.length) : lh.getD i 0 ∈ lh := by
  rw [List.getD_eq_getElem _ _ hi]; exact List.getElem_mem hi

/-! ### Copying the log to the home locations -/

theorem installed_zero (c : Image) (lh : List Nat) (d : Image) : installed sb c lh d 0 = d := by
  funext b; simp [installed]

theorem installed_succ {c : Image} {lh : List Nat} {d : Image} {i : Nat} (hn : lh.Nodup) (hi : i < lh.length) :
    installed sb c lh d (i + 1) =
      update (installed sb c lh d i) (lh.getD i 0) (c (sb.logstart + i + 1)) := by
  funext b
  have hidx : lh.idxOf lh[i] = i := hn.idxOf_getElem i hi
  simp only [List.getD_eq_getElem _ _ hi, installed, List.take_succ_eq_append_getElem hi, List.mem_append,
    List.mem_singleton]
  by_cases hb : b = lh[i]
  · subst hb
    simp [hidx]
  · simp [hb, installed]

theorem installed_of_not_mem {c : Image} {lh : List Nat} {d : Image} {i b : Nat} (hb : b ∉ lh) :
    installed sb c lh d i b = d b :=
  if_neg fun h => hb (List.mem_of_mem_take h)

theorem installed_of_mem {c : Image} {lh : List Nat} {d : Image} {b : Nat} (hb : b ∈ lh) :
    installed sb c lh d lh.length b = c (sb.logstart + lh.idxOf b + 1) := by
  simp [installed, hb]

theorem installed_installed {c c' : Image} {lh : List Nat} {d : Image} {i : Nat}
    (hc : ∀ j, j < lh.length → c' (sb.logstart + j + 1) = c (sb.logstart + j + 1)) :
    installed sb c' lh (installed sb c lh d i) lh.length = installed sb c lh d lh.length := by
  funext b
  by_cases hb : b ∈ lh
  · rw [installed_of_mem hb, installed_of_mem hb, hc _ (List.idxOf_lt_length_of_mem hb)]
  · rw [installed_of_not_mem hb, installed_of_not_mem hb, installed_of_not_mem hb]

/-- `d` with the first `i` log blocks filled from the blocks of `c` that `lh` names. -/
def logged (sb : Superblock) (c : Image) (lh : List Nat) (d : Image) (i : Nat) : Image := fun b =>
  if sb.logstart < b ∧ b ≤ sb.logstart + i then c (lh.getD (b - sb.logstart - 1) 0) else d b

theorem logged_zero (c : Image) (lh : List Nat) (d : Image) : logged sb c lh d 0 = d := by
  funext b
  exact if_neg (by omega)

theorem logged_succ (c : Image) (lh : List Nat) (d : Image) (i : Nat) :
    logged sb c lh d (i + 1) =
      update (logged sb c lh d i) (sb.logstart + i + 1) (c (lh.getD i 0)) := by
  funext b
  by_cases hb : b = sb.logstart + i + 1
  · subst hb
    have : sb.logstart + i + 1 - sb.logstart - 1 = i := by omega
    rw [update_self, logged, if_pos (by omega), this]
  · rw [update_of_ne hb, logged, logged]
    exact if_congr (by omega) rfl rfl

theorem logged_home {c : Image} {lh : List Nat} {d : Image} {i b : Nat} (hi : i < sb.nlog) (hb : Home sb b) :
    logged sb c lh d i b = d b :=
  if_neg (by unfold Home at hb; omega)

theorem logged_start {c : Image} {lh : List Nat} {d : Image} {i : Nat} :
    logged sb c lh d i sb.logstart = d sb.logstart := if_neg (by omega)

theorem logged_log {c : Image} {lh : List Nat} {d : Image} {i j : Nat} (hj : j < i) :
    logged sb c lh d i (sb.logstart + j + 1) = c (lh.getD j 0) := by
  have : sb.logstart + j + 1 - sb.logstart - 1 = j := by omega
  rw [logged, if_pos (by omega), this]

section Specs

variable (ha : LogArea sb) {s : Dev} {H : Image → Prop}

include ha

theorem installTrans_spec (h : HeadOk sb s.log.lh)
    (hH : ∀ i, i ≤ s.log.lh.length → H (installed sb s.cache s.log.lh s.disk i))
    (hs : ∀ d ∈ s.hist, H d) :
    wp (installTrans sb) (fun _ s' => s'.log = s.log ∧ s'.tape = s.tape ∧
        s'.disk = installed sb s.cache s.log.lh s.disk s.log.lh.length ∧
        s'.cache = installed sb s.cache s.log.lh s.cache s.log.lh.length ∧ ∀ d ∈ s'.hist, H d)
      (fun _ => False) s := by
  have hlog : ∀ {i j}, j < s.log.lh.length →
      installed sb s.cache s.log.lh s.cache i (sb.logstart + j + 1) = s.cache (sb.logstart + j + 1) :=
    fun {i j} hj => installed_of_not_mem (h.log_not_mem (i := j + 1) (by have := h.room; omega))
  simp only [installTrans, wp_bind, wp_get]
  refine (wp_forRange (fun i _ t => t.log = s.log ∧ t.tape = s.tape ∧
    t.disk = installed sb s.cache s.log.lh s.disk i ∧
    t.cache = installed sb s.cache s.log.lh s.cache i ∧ ∀ d ∈ t.hist, H d) ?_ ?_).post ?_
  · exact ⟨rfl, rfl, (installed_zero ..).symm, (installed_zero ..).symm, hs⟩
  · rintro i - t - hi ⟨h1, h2, h3, h4, h5⟩
    rw [Nat.zero_add] at hi
    have hmem := getD_mem_of_lt hi
    have hfit := ha.fits
    have hroom := h.room
    have hlt := h.lt _ hmem
    simp only [wp_bind, wp_bread, wp_bput, wp_bwrite]
    refine ⟨fun hge => by omega, fun _ => ⟨fun hge => by omega, fun _ => ?_⟩⟩
    have hc : t.cache (sb.logstart + i + 1) = s.cache (sb.logstart + i + 1) := by rw [h4, hlog hi]
    have hd : update t.disk (s.log.lh.getD i 0) (s.cache (sb.logstart + i + 1)) =
        installed sb s.cache s.log.lh s.disk (i + 1) := by rw [h3, installed_succ h.nodup hi]
    refine ⟨h1, h2, ?_, ?_, ?_⟩
    · simp only [update_self, hc, hd]
    · simp only [hc, h4, installed_succ h.nodup hi]
    · simp only [update_self, hc, hd, List.mem_cons, forall_eq_or_imp]
      exact ⟨hH _ (by omega), h5⟩
  · intro _ t ht
    simpa using ht

theorem writeLog_spec (h : HeadOk sb s.log.lh)
    (hH : ∀ i, i ≤ s.log.lh.length → H (logged sb s.cache s.log.lh s.disk i))
    (hs : ∀ d ∈ s.hist, H d) :
    wp (writeLog sb) (fun _ s' => s'.log = s.log ∧ s'.tape = s.tape ∧
        s'.disk = logged sb s.cache s.log.lh s.disk s.log.lh.length ∧
        s'.cache = logged sb s.cache s.log.lh s.cache s.log.lh.length ∧ ∀ d ∈ s'.hist, H d)
      (fun _ => False) s := by
  simp only [writeLog, wp_bind, wp_get]
  refine (wp_forRange (fun i _ t => t.log = s.log ∧ t.tape = s.tape ∧
    t.disk = logged sb s.cache s.log.lh s.disk i ∧
    t.cache = logged sb s.cache s.log.lh s.cache i ∧ ∀ d ∈ t.hist, H d) ?_ ?_).post ?_
  · exact ⟨rfl, rfl, (logged_zero ..).symm, (logged_zero ..).symm, hs⟩
  · rintro i - t - hi ⟨h1, h2, h3, h4, h5⟩
    rw [Nat.zero_add] at hi
    have hmem := getD_mem_of_lt hi
    have hfit := ha.fits
    have hroom := h.room
    have hlt := h.lt _ hmem
    simp only [wp_bind, wp_bread, wp_bput, wp_bwrite]
    refine ⟨fun hge => by omega, fun _ => ⟨fun hge => by omega, fun _ => ?_⟩⟩
    have hc : t.cache (s.log.lh.getD i 0) = s.cache (s.log.lh.getD i 0) := by
      rw [h4, logged_home (by omega) (h.home _ hmem)]
    have hd : update t.disk (sb.logstart + i + 1) (s.cache (s.log.lh.getD i 0)) =
        logged sb s.cache s.log.lh s.disk (i + 1) := by rw [h3, logged_succ]
    refine ⟨h1, h2, ?_, ?_, ?_⟩
    · simp only [update_self, hc, hd]
    · simp only [hc, h4, logged_succ]
    · simp only [update_self, hc, hd, List.mem_cons, forall_eq_or_imp]
      exact ⟨hH _ (by omega), h5⟩
  · intro _ t ht
    simpa using ht

theorem wp_writeHead {Q : Unit → Dev → Prop} {E : Fault → Prop}
    (h : Q () { s with
      cache := update s.cache sb.logstart (encodeHead (s.cache sb.logstart) s.log.lh)
      disk := update s.disk sb.logstart (encodeHead (s.cache sb.logstart) s.log.lh)
      hist := update s.disk sb.logstart (encodeHead (s.cache sb.logstart) s.log.lh) :: s.hist }) :
    wp (writeHead sb) Q E s := by
  have := ha.pos
  have := ha.fits
  simp only [writeHead, wp_bind, wp_bread, wp_get, wp_bput, wp_bwrite]
  refine ⟨fun hge => by omega, fun _ => ?_⟩
  simpa only [update_self] using h

end Specs

/-! ### Recovery -/

theorem Recovers.of_clean (ha : LogArea sb) {d V : Image} (hc : headN (d sb.logstart) = 0)
    (hV : ∀ b, Home sb b → d b = V b) : Recovers sb d V := by
  refine ⟨?_, fun b hb => ?_⟩
  · rw [decodeHead_of_headN hc]; exact .nil ha
  · rw [decodeHead_of_headN hc, installed_of_not_mem List.not_mem_nil, hV b hb]

theorem Recovers.of_head {d V : Image} {lh : List Nat} (hd : decodeHead (d sb.logstart) = lh)
    (hh : HeadOk sb lh) (hlog : ∀ i, i < lh.length → d (sb.logstart + i + 1) = V (lh.getD i 0))
    (hV : ∀ b, Home sb b → b ∉ lh → d b = V b) : Recovers sb d V := by
  refine ⟨hd ▸ hh, fun b hb => ?_⟩
  rw [hd]
  by_cases hm : b ∈ lh
  · have hi := List.idxOf_lt_length_of_mem hm
    rw [installed_of_mem hm, hlog _ hi, List.getD_eq_getElem _ _ hi, List.getElem_idxOf hi]
  · rw [installed_of_not_mem hm, hV b hb hm]

theorem Recovers.installed {c d V : Image} (h : Recovers sb d V)
    (hc : ∀ j, j < (decodeHead (d sb.logstart)).length → c (sb.logstart + j + 1) = d (sb.logstart + j + 1))
    (i : Nat) : Recovers sb (Xv6.installed sb c (decodeHead (d sb.logstart)) d i) V := by
  have hroom := h.head.room
  have hst : Xv6.installed sb c (decodeHead (d sb.logstart)) d i sb.logstart = d sb.logstart :=
    installed_of_not_mem (h.head.log_not_mem (i := 0) (by omega))
  refine ⟨by rw [hst]; exact h.head, fun b hb => ?_⟩
  rw [hst, installed_installed]
  · refine Eq.trans ?_ (h.img b hb)
    by_cases hm : b ∈ decodeHead (d sb.logstart)
    · rw [installed_of_mem hm, installed_of_mem hm, hc _ (List.idxOf_lt_length_of_mem hm)]
    · rw [installed_of_not_mem hm, installed_of_not_mem hm]
  · intro j hj
    have hm : sb.logstart + j + 1 ∉ decodeHead (d sb.logstart) := h.head.log_not_mem (i := j + 1) (by omega)
    rw [installed_of_not_mem hm, hc j hj]

theorem recover_spec (ha : LogArea sb) {d V : Image} (h : Recovers sb d V)
    (tape : List (Option (List Byte))) :
    wp (recoverFromLog sb) (fun _ s' => headN (s'.disk sb.logstart) = 0 ∧
        (∀ b, Home sb b → s'.disk b = V b) ∧ ∀ d' ∈ s'.hist, Recovers sb d' V)
      (fun _ => False) (boot d tape) := by
  have := ha.pos
  have := ha.fits
  have hst := h.head.log_not_mem (i := 0) ha.pos
  simp only [recoverFromLog, readHead, boot, wp_bind, wp_bread, wp_modify, wp_clearHead]
  refine ⟨fun hge => by omega, fun _ => ?_⟩
  have hI : ∀ i, Recovers sb (installed sb d (decodeHead (d sb.logstart)) d i) V :=
    fun i => h.installed (fun _ _ => rfl) i
  refine wp.post (installTrans_spec ha (H := fun d' => Recovers sb d' V) h.head (fun i _ => hI i)
    (by simp)) ?_
  rintro - s' ⟨-, -, hd, -, hist⟩
  simp only at hd
  have hN : ∀ b, headN (encodeHead b []) = 0 := fun b => headN_encodeHead b (by simp)
  have hV : ∀ b, Home sb b → s'.disk b = V b := fun b hb => hd ▸ h.img b hb
  have hne : ∀ b, Home sb b → b ≠ sb.logstart := fun b hb e => ha.start_not_home (e ▸ hb)
  refine wp_writeHead ha ⟨?_, fun b hb => ?_, ?_⟩
  · simp only [update_self]; exact hN _
  · simp only [update_of_ne (hne b hb)]; exact hV b hb
  · simp only [List.mem_cons, forall_eq_or_imp]
    refine ⟨.of_clean ha ?_ fun b hb => ?_, hist⟩
    · rw [update_self]; exact hN _
    · rw [update_of_ne (hne b hb)]; exact hV b hb

/-! ### One commit -/

theorem installed_logged (ha : LogArea sb) {lh : List Nat} (h : HeadOk sb lh) (c d : Image) (v : Blk) {b : Nat}
    (hb : Home sb b) :
    installed sb (update (logged sb c lh c lh.length) sb.logstart v) lh
      (update (logged sb c lh d lh.length) sb.logstart v) lh.length b = if b ∈ lh then c b else d b := by
  have hne : b ≠ sb.logstart := fun e => ha.start_not_home (e ▸ hb)
  by_cases hm : b ∈ lh
  · have hi := List.idxOf_lt_length_of_mem hm
    rw [installed_of_mem hm, update_of_ne (by omega), logged_log hi, List.getD_eq_getElem _ _ hi,
      List.getElem_idxOf hi, if_pos hm]
  · rw [installed_of_not_mem hm, update_of_ne hne, logged_home h.room hb, if_neg hm]

theorem commit_home (ha : LogArea sb) {s : Dev} (h : HeadOk sb s.log.lh) :
    wp (commit sb) (fun _ s' => s'.log = { s.log with lh := [] } ∧ ∀ b, Home sb b → s'.cache b = s.cache b)
      (fun _ => False) s := by
  have hne : ∀ b, Home sb b → b ≠ sb.logstart := fun b hb e => ha.start_not_home (e ▸ hb)
  simp only [commit, wp_bind, wp_get, wp_ite, wp_clearHead, wp_pure]
  refine ⟨fun _ => ?_, fun hnil => ?_⟩
  · refine wp.post (writeLog_spec ha (H := fun _ => True) h (fun _ _ => trivial) fun _ _ => trivial) ?_
    rintro - s₁ ⟨l₁, -, -, c₁, -⟩
    refine wp_writeHead ha (wp.post (installTrans_spec ha (H := fun _ => True) (by rw [l₁]; exact h)
      (fun _ _ => trivial) fun _ _ => trivial) ?_)
    rintro - s₂ ⟨l₂, -, -, c₂, -⟩
    simp only [l₁, c₁] at l₂ c₂
    refine wp_writeHead ha ⟨by rw [l₂], fun b hb => ?_⟩
    simp only [update_of_ne (hne b hb), c₂, installed_logged ha h _ _ _ hb, ite_self]
  · rw [← List.eq_nil_of_length_eq_zero (by omega : s.log.lh.length = 0)]
    exact ⟨rfl, fun _ _ => trivial⟩

def merged (s : Dev) : Image := fun b => if b ∈ s.log.lh then s.cache b else s.disk b

theorem commit_merged (ha : LogArea sb) {s : Dev} (hclean : headN (s.disk sb.logstart) = 0)
    (harea : ∀ b, ¬ Home sb b → s.cache b = s.disk b) (hhead : HeadOk sb s.log.lh) :
    wp (commit sb) (fun _ s' => headN (s'.disk sb.logstart) = 0 ∧ (∀ b, ¬ Home sb b → s'.cache b = s'.disk b) ∧
        s'.log = { s.log with lh := [] } ∧ s'.tape = s.tape ∧
        (∀ b, Home sb b → s'.disk b = merged s b) ∧ (∀ b, Home sb b → s'.cache b = s.cache b) ∧
        ∀ d ∈ s'.hist, d ∈ s.hist ∨ Recovers sb d s.disk ∨ Recovers sb d (merged s))
      (fun _ => False) s := by
  have hst := ha.start_not_home
  have hne : ∀ b, Home sb b → b ≠ sb.logstart := fun b hb e => hst (e ▸ hb)
  have hroom := hhead.room
  simp only [commit, wp_bind, wp_get, wp_ite, wp_clearHead, wp_pure]
  refine ⟨fun hpos => ?_, fun hnil => ?_⟩
  · -- while the log blocks are written the header on disk stays clean
    refine (writeLog_spec ha
      (H := fun d => d ∈ s.hist ∨ Recovers sb d s.disk ∨ Recovers sb d (merged s)) hhead
      (fun i hi => .inr (.inl (.of_clean ha ?_ fun b hb => logged_home (by omega) hb)))
      fun d hd => .inl hd).post ?_
    · rw [logged_start]; exact hclean
    rintro - s₁ ⟨l₁, t₁, d₁, c₁, hist₁⟩
    refine wp_writeHead ha ?_
    -- the header write commits
    set hd := encodeHead (s₁.cache sb.logstart) s₁.log.lh with hhd
    have hdec : decodeHead hd = s.log.lh := by
      rw [hhd, l₁]; exact decodeHead_encodeHead _ hhead.len hhead.lt
    have hlog : ∀ c : Image, ∀ i, i < s.log.lh.length →
        update (logged sb s.cache s.log.lh c s.log.lh.length) sb.logstart hd (sb.logstart + i + 1) =
          s.cache (s.log.lh.getD i 0) := fun c i hi => by
      rw [update_of_ne (by omega), logged_log hi]
    have hrec : Recovers sb (update s₁.disk sb.logstart hd) (merged s) := by
      refine .of_head (by rw [update_self]; exact hdec) hhead (fun i hi => ?_) fun b hb hm => ?_
      · rw [d₁, hlog s.disk i hi, merged, if_pos (getD_mem_of_lt hi)]
      · rw [update_of_ne (hne b hb), d₁, logged_home hroom hb, merged, if_neg hm]
    refine (installTrans_spec ha
      (H := fun d => d ∈ s.hist ∨ Recovers sb d s.disk ∨ Recovers sb d (merged s)) ?_ ?_ ?_).post ?_
    · rw [l₁]; exact hhead
    · intro i _
      have hlh : s₁.log.lh = decodeHead (update s₁.disk sb.logstart hd sb.logstart) := by
        rw [update_self, hdec, l₁]
      simp only [hlh]
      refine .inr (.inr (hrec.installed (fun j hj => ?_) i))
      rw [← hlh, l₁] at hj
      rw [c₁, d₁, hlog _ j hj, hlog _ j hj]
    · simp only [List.mem_cons, forall_eq_or_imp]
      exact ⟨.inr (.inr hrec), hist₁⟩
    rintro - s₂ ⟨l₂, t₂, d₂, c₂, hist₂⟩
    simp only [l₁] at l₂ d₂ c₂
    have hcache : ∀ b, Home sb b → s₂.cache b = s.cache b := fun b hb => by
      rw [c₂, c₁, installed_logged ha hhead _ _ _ hb, ite_self]
    have hdisk : ∀ b, Home sb b → s₂.disk b = merged s b := fun b hb => by
      rw [d₂, c₁, d₁, installed_logged ha hhead _ _ _ hb, merged]
    have harea₂ : ∀ b, ¬ Home sb b → s₂.cache b = s₂.disk b := fun b hb => by
      have hm : b ∉ s.log.lh := fun hm => hb (hhead.home b hm)
      rw [c₂, d₂, installed_of_not_mem hm, installed_of_not_mem hm, c₁, d₁]
      by_cases hs : b = sb.logstart
      · rw [hs, update_self, update_self]
      · rw [update_of_ne hs, update_of_ne hs]
        unfold logged
        split
        · rfl
        · exact harea b hb
    -- clearing the header forgets the log
    have hN : ∀ b, headN (encodeHead b []) = 0 := fun b => headN_encodeHead b (by simp)
    refine wp_writeHead ha ⟨?_, fun b hb => ?_, ?_, ?_, fun b hb => ?_, fun b hb => ?_, ?_⟩
    · simp only [update_self]; exact hN _
    · by_cases hs : b = sb.logstart
      · simp only [hs, update_self]
      · simp only [update_of_ne hs]; exact harea₂ b hb
    · rw [l₂]
    · rw [t₂, t₁]
    · simp only [update_of_ne (hne b hb), hdisk b hb]
    · simp only [update_of_ne (hne b hb), hcache b hb]
    · simp only [List.mem_cons, forall_eq_or_imp]
      refine ⟨.inr (.inr (.of_clean ha ?_ fun b hb => ?_)), hist₂⟩
      · rw [update_self]; exact hN _
      · rw [update_of_ne (hne b hb), hdisk b hb]
  · have hlh : s.log.lh = [] := List.eq_nil_of_length_eq_zero (by omega)
    have hm : ∀ b, merged s b = s.disk b := fun b => by rw [merged, hlh, if_neg List.not_mem_nil]
    refine ⟨hclean, harea, by rw [← hlh], trivial, fun b _ => (hm b).symm, fun _ _ => trivial, fun d hd => .inl hd⟩

theorem commit_spec (ha : LogArea sb) {s : Dev} (h : LogOk sb s) :
    wp (commit sb) (fun _ s' => LogOk sb s' ∧
        s'.log = { s.log with lh := [] } ∧ s'.tape = s.tape ∧
        (∀ b, Home sb b → s'.disk b = s.cache b) ∧ (∀ b, Home sb b → s'.cache b = s.cache b) ∧
        ∀ d ∈ s'.hist, d ∈ s.hist ∨ Recovers sb d s.disk ∨ Recovers sb d s.cache)
      (fun _ => False) s := by
  have hm : ∀ b, Home sb b → merged s b = s.cache b := fun b hb => by
    by_cases hmem : b ∈ s.log.lh
    · rw [merged, if_pos hmem]
    · rw [merged, if_neg hmem, h.unlogged b hb hmem]
  refine (commit_merged ha h.clean h.area h.head).post ?_
  rintro - s' ⟨hclean, harea, hlog, htape, hdisk, hcache, hhist⟩
  refine ⟨⟨hclean, harea, fun b hb _ => ?_, by rw [hlog]; exact .nil ha⟩, hlog, htape, fun b hb => ?_, hcache, fun d hd => ?_⟩
  · rw [hcache b hb, hdisk b hb, hm b hb]
  · rw [hdisk b hb, hm b hb]
  · rcases hhist d hd with hd | hd | hd
    · exact .inl hd
    · exact .inr (.inl hd)
    · exact .inr (.inr ⟨hd.head, fun b hb => (hd.img b hb).trans (hm b hb)⟩)

theorem LogOk.boot (ha : LogArea sb) {d : Image} (h : headN (d sb.logstart) = 0)
    (tape : List (Option (List Byte))) : LogOk sb (boot d tape) :=
  ⟨h, fun _ _ => rfl, fun _ _ _ => rfl, .nil ha⟩

/-! ### Crashes -/

/-- `d'` is a disk image left by some number of crashes inside `recover_from_log`, starting from
the image `d`. -/
inductive Crashes (sb : Superblock) : Image → Image → Prop where
  | refl (d : Image) : Crashes sb d d
  | again {d d₁ d₂ : Image} {tape : List (Option (List Byte))} {s : Dev} : Crashes sb d d₁ →
      (recoverFromLog sb).run (boot d₁ tape) = .ok ((), s) → d₂ ∈ s.hist → Crashes sb d d₂

theorem Crashes.recovers (ha : LogArea sb) {d d' V : Image} (h : Crashes sb d d') (hr : Recovers sb d V) :
    Recovers sb d' V := by
  induction h with
  | refl => exact hr
  | again _ hrun hd ih => exact ((recover_spec ha ih _).of_ok hrun).2.2 _ hd

/-- The layout `mkfs` gives the disk. -/
def mkfsSuperblock : Superblock :=
  { size := 20000, nblocks := 19937, ninodes := 200, nlog := 30, logstart := 2, inodestart := 32,
    bmapstart := 58 }

theorem mkfs_logArea : LogArea mkfsSuperblock := ⟨by decide, by decide⟩

end Xv6
