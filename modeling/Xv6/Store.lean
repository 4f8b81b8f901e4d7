import Xv6.Owners

/-!
# The store of inodes, and what of it survives a crash

A disk image stands for a store: the allocated inodes with the bytes of their files. `Durable sb P v`
is the crash invariant of a device whose calls run one at a time: whatever image the disk has had, recovery
from it yields a store in `P`. The cache may be ahead of the disk in logged blocks, and in free blocks, since
`itrunc` clears the double-indirect block in the buffer only; a commit makes the store of the cache that of
the disk (`endOp_durable`).
-/

namespace Xv6

open Prog Function

structure Node where
  type : BitVec 16
  major : BitVec 16
  minor : BitVec 16
  nlink : BitVec 16
  bytes : List Byte
deriving DecidableEq

abbrev Store := Nat → Option Node

def nodeOf (c : Image) (d : Dinode) : Node := ⟨d.type, d.major, d.minor, d.nlink, contents c d⟩

def storeOf (sb : Superblock) (c : Image) : Store := fun i => (diskTable sb c i).map (nodeOf c)

/-- Every image with these home blocks holds a store in `P`. -/
def Settles (sb : Superblock) (P : Store → Prop) (V : Image) : Prop :=
  ∀ V', (∀ b, Home sb b → V' b = V b) → P (storeOf sb V')

structure Durable (sb : Superblock) (P : Store → Prop) (v : Dev) : Prop where
  clean : headN (v.disk sb.logstart) = 0
  area : ∀ b, ¬ Home sb b → v.cache b = v.disk b
  behind : ∀ b, Home sb b → b ∉ v.log.lh → Needed sb v.cache b → v.cache b = v.disk b
  disk : Settles sb P v.disk
  hist : ∀ x ∈ v.hist, ∃ V, Recovers sb x V ∧ Settles sb P V

section

variable {sb : Superblock} {P : Store → Prop} {c c' : Image} {v v' : Dev} {i : Nat} {d : Dinode}

theorem storeOf_some (h : diskTable sb c i = some d) : storeOf sb c i = some (nodeOf c d) := by
  rw [storeOf, h, Option.map_some]

theorem storeOf_none (h : diskTable sb c i = none) : storeOf sb c i = none := by
  rw [storeOf, h, Option.map_none]

theorem InodeStored.store {o : Option Dinode} (h : InodeStored sb i o v v') :
    storeOf sb v'.cache = update (storeOf sb v.cache) i (o.map (nodeOf v'.cache)) := by
  funext j
  by_cases hj : j = i
  · rw [hj, update_self, storeOf, h.self]
  · rw [update_of_ne hj, storeOf, storeOf, h.other hj]
    cases hd : diskTable sb v.cache j with
    | none => rfl
    | some d => rw [Option.map_some, Option.map_some, nodeOf, nodeOf, h.bytes j d hj hd]

theorem Needed.home (hL : Layout sb) (hO : Owned sb c (diskTable sb c) ∅) {r : Ref}
    (hz : refs c (diskTable sb c) r ≠ 0) : Home sb (refs c (diskTable sb c) r) := by
  have h1 := (hO.range r hz).1
  have h2 := hL.inodes_lt
  have h3 := hL.bmap_lt
  exact hL.home_of_le (by omega)

theorem storeOf_congr (hL : Layout sb) (hO : Owned sb c (diskTable sb c) ∅)
    (h : ∀ b, Home sb b → Needed sb c b → c' b = c b) : storeOf sb c' = storeOf sb c := by
  have hino := hL.inodes_lt
  have hbm := hL.bmap_lt
  have htab : diskTable sb c' = diskTable sb c := diskTable_congr fun j hj =>
    dinodeOf_congr (h _ (hL.home_of_le (inodestart_le_iblock sb j)) (.inl (by have := hL.iblock_lt hj; omega)))
  have hblk : ∀ r, refs c (diskTable sb c) r ≠ 0 → c' (refs c (diskTable sb c) r) = c (refs c (diskTable sb c) r) :=
    fun r hz => h _ (Needed.home hL hO hz) (.inr ⟨r, rfl⟩)
  funext j
  rw [storeOf, storeOf, htab]
  cases hd : diskTable sb c j with
  | none => rfl
  | some d =>
    have hptr : ∀ l, ptr c' d l = ptr c d l := fun l => by
      refine ptr_congr (fun _ _ => rfl) (fun l' q _ hz => ?_) l
      have := hblk (j, q) (by rwa [refs_some hd])
      rwa [refs_some hd] at this
    have hbytes : contents c' d = contents c d := contents_congr rfl fun k _ => by
      refine byteAt_congr (hptr _) fun hz => ?_
      have := hblk (j, locOf (k / 512)) (by rwa [refs_some hd])
      rwa [refs_some hd] at this
    rw [Option.map_some, Option.map_some, nodeOf, nodeOf, hbytes]

theorem storeOf_home (hL : Layout sb) (hO : Owned sb c (diskTable sb c) ∅) (h : ∀ b, Home sb b → c' b = c b) :
    storeOf sb c' = storeOf sb c :=
  storeOf_congr hL hO fun b hb _ => h b hb

theorem needed_of_not_home (hL : Layout sb) {b : Nat} (hb : ¬ Home sb b) : Needed sb c b := by
  by_contra hn
  have hge : sb.nmeta ≤ b := not_lt.1 fun hlt => hn (.inl hlt)
  have h1 := hL.inodes_lt
  have h2 := hL.bmap_lt
  exact hb (hL.home_of_le (by omega))

theorem Durable.stored {o : Option Dinode} (hL : Layout sb) (h : Durable sb P v) (hst : InodeStored sb i o v v') :
    Durable sb P v' := by
  refine ⟨?_, fun b hb => ?_, fun b hb hno hn => ?_, ?_, ?_⟩
  · rw [hst.frame.disk]
    exact h.clean
  · have hno : b ∉ v'.log.lh := fun hm => hb (hst.fs.head.home b hm)
    rw [(hst.unlogged b hno (needed_of_not_home hL hb)).1, h.area b hb, hst.frame.disk]
  · obtain ⟨he, hn'⟩ := hst.unlogged b hno hn
    rw [he, h.behind b hb (fun hm => hno (hst.frame.mono b hm)) hn', hst.frame.disk]
  · rw [hst.frame.disk]
    exact h.disk
  · rw [hst.frame.hist]
    exact h.hist

theorem Durable.congr (h : Durable sb P v) (hc : v'.cache = v.cache) (hd : v'.disk = v.disk) (hl : v'.log.lh = v.log.lh)
    (hh : v'.hist = v.hist) : Durable sb P v' := by
  refine ⟨?_, fun b hb => ?_, fun b hb hno hn => ?_, ?_, ?_⟩
  · rw [hd]
    exact h.clean
  · rw [hc, hd, h.area b hb]
  · rw [hc] at hn ⊢
    rw [hl] at hno
    rw [hd, h.behind b hb hno hn]
  · rw [hd]
    exact h.disk
  · rw [hh]
    exact h.hist

theorem Durable.merged (hL : Layout sb) (h : Durable sb P v) (hO : Owned sb v.cache (diskTable sb v.cache) ∅)
    (hP : P (storeOf sb v.cache)) : Settles sb P (Xv6.merged v) := by
  intro V' hV'
  rw [storeOf_congr (c := v.cache) hL hO fun b hb hn => ?_]
  · exact hP
  · rw [hV' b hb, Xv6.merged]
    split
    · rfl
    · next hm => exact (h.behind b hb hm hn).symm

theorem Needed.congr (hL : Layout sb) (hO : Owned sb c (diskTable sb c) ∅) (h : ∀ b, Home sb b → c' b = c b) {b : Nat}
    (hn : Needed sb c' b) : Needed sb c b := by
  rcases hn with hlt | ⟨r, hr⟩
  · exact .inl hlt
  · refine .inr ⟨r, ?_⟩
    have htab : diskTable sb c' = diskTable sb c := diskTable_congr fun j hj =>
      dinodeOf_congr (h _ (hL.home_of_le (inodestart_le_iblock sb j)))
    rw [← hr, htab]
    exact (congrFun (refs_congr fun i l q _ hz => h _ (Needed.home hL hO hz)) r).symm

theorem endOp_empties (hL : Layout sb) (hh : HeadOk sb v.log.lh) (ho : v.log.outstanding = 1) :
    wp (endOp sb) (fun _ v' => v'.log.lh = []) (fun _ => True) v := by
  simp only [endOp, wp_bind, wp_modify, wp_get, wp_failIf, wp_ite, wp_setCommitting, wp_pure]
  refine ⟨fun _ => trivial, fun _ => ⟨fun _ => ?_, fun hno => absurd (by rw [ho]; rfl) hno⟩⟩
  refine wp.mono (commit_home hL.logArea hh) ?_ fun _ => False.elim
  rintro - v' ⟨hlog, -⟩
  rw [hlog]

theorem endOp_durable (hL : Layout sb) (h : Durable sb P v) (hfs : FsOk sb v (diskTable sb v.cache))
    (hP : P (storeOf sb v.cache)) (ho : v.log.outstanding = 1) (hc : v.log.committing = false) :
    wp (endOp sb) (fun _ v' => Durable sb P v' ∧ (∀ b, Home sb b → v'.cache b = v.cache b) ∧ HeadOk sb v'.log.lh)
      (fun _ => False) v := by
  refine wp_endOp_last ho hc (wp.post (commit_merged hL.logArea h.clean h.area hfs.head) ?_)
  rintro - v' ⟨hclean, harea, hlog, -, hdisk, hcache, hhist⟩
  have hmerged := h.merged hL hfs.owned hP
  refine ⟨⟨hclean, harea, fun b hb _ hn => ?_, fun V' hV' => hmerged V' fun b hb =>
    (hV' b hb).trans (hdisk b hb), ?_⟩, hcache, ?_⟩
  · rw [hcache b hb, hdisk b hb, merged]
    split
    · rfl
    · next hm => exact h.behind b hb hm (hn.congr hL hfs.owned hcache)
  · intro x hx
    rcases hhist x hx with hx | hx | hx
    · exact h.hist x hx
    · exact ⟨_, hx, h.disk⟩
    · exact ⟨_, hx, hmerged⟩
  · simp only [hlog]
    exact .nil hL.logArea

end

end Xv6
