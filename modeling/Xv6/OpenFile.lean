import Xv6.CryptLoop
import Xv6.RefRun

/-!
# A regular file between two stretches of code

`At` says that an inode is in a cache entry, that its lock is free and which bytes it has. Brackets of
transactions and user code keep it, `ilock` turns it into a `View`, and releasing the lock gives it back.
-/

namespace Xv6

open Prog Function

variable {sb : Superblock} {ip i f off : Nat} {d : Dinode} {bs' : List Byte} {k k' : Kernel}

/-- Inode `i` is in the cache entry `ip`, unlocked, and has the contents `bs'`. -/
structure At (sb : Superblock) (ip i : Nat) (d : Dinode) (bs' : List Byte) (k : Kernel) : Prop where
  ok : CacheOk sb k.fs
  lt : ip < NINODE
  valid : (k.fs.icache ip).valid = true
  inum : (k.fs.icache ip).inum = i
  fields : (k.fs.icache ip).d = d
  unlocked : (k.fs.icache ip).locked = false
  table : diskTable sb k.fs.dev.cache i = some d
  bytes : contents k.fs.dev.cache d = bs'
  type : d.type = T_FILE

theorem At.view (h : At sb ip i d bs' k) (hp : 0 < (k.fs.icache ip).ref) : View sb ip i d k.fs :=
  ⟨h.ok, h.lt, hp, h.valid, h.inum, h.fields⟩

theorem At.dev (h : At sb ip i d bs' k) (hL : Layout sb) {v : Dev} (hh : HeadOk sb v.log.lh)
    (hc : ∀ b, Home sb b → v.cache b = k.fs.dev.cache b) (hfs : k'.fs = { k.fs with dev := v }) : At sb ip i d bs' k' := by
  have htab : diskTable sb v.cache = diskTable sb k.fs.dev.cache := diskTable_congr fun j hj =>
    dinodeOf_congr (hc _ (hL.home_of_le (inodestart_le_iblock sb j)))
  have hbytes : contents v.cache d = contents k.fs.dev.cache d :=
    contents_congr rfl fun j _ => (h.ok.fs.home hL hh hc).2 i d h.table j
  refine ⟨?_, h.lt, ?_, ?_, ?_, ?_, ?_, ?_, h.type⟩
  all_goals rw [hfs]
  · exact h.ok.home hL hh hc
  · exact h.valid
  · exact h.inum
  · exact h.fields
  · exact h.unlocked
  · rw [htab]
    exact h.table
  · rw [hbytes]
    exact h.bytes

theorem At.user (h : At sb ip i d bs' k) (hL : Layout sb) (u : User) : At sb ip i d bs' (k.user u) :=
  h.dev hL (v := { k.fs.dev with tape := u.tape }) h.ok.fs.head (fun _ _ => rfl) rfl

theorem At.beginOp (h : At sb ip i d bs' k) (hL : Layout sb) :
    wp beginOpK (fun _ k' => k' = { k with fs := k'.fs } ∧ At sb ip i d bs' k') (fun _ => True) k := by
  refine wp.mono (onFs_spec (onDev_spec beginOp_spec)) ?_ fun _ _ => trivial
  rintro _ k' ⟨e, hfs, hdev⟩
  exact ⟨e, h.dev hL (by rw [hdev]; exact h.ok.fs.head) (fun _ _ => by rw [hdev]) hfs⟩

theorem At.endOp (h : At sb ip i d bs' k) (hL : Layout sb) :
    wp (endOpK sb) (fun _ k' => k' = { k with fs := k'.fs } ∧ At sb ip i d bs' k') (fun _ => True) k := by
  refine wp.mono (onFs_spec (onDev_spec (endOp_spec hL.logArea h.ok.fs.head))) ?_ fun _ _ => trivial
  rintro _ k' ⟨e, hfs, hc, -, -, hh⟩
  exact ⟨e, h.dev hL hh hc hfs⟩

theorem At.ilock {E : Fault → Prop} (h : At sb ip i d bs' k) (hE : 0 < (k.fs.icache ip).ref ∨ ∀ e, E e) :
    wp (onFs (ilock sb ip)) (fun _ k' => k' = { k with fs := k'.fs } ∧ View sb ip i d k'.fs ∧ k'.fs.dev = k.fs.dev ∧
      (k'.fs.icache ip).locked = true) E k := by
  by_cases hp : 0 < (k.fs.icache ip).ref
  · have hv := h.view hp
    refine wp.mono (onFs_spec (hv.ilock h.unlocked)) ?_ fun _ => False.elim
    rintro _ k' ⟨e, hs⟩
    refine ⟨e, ?_⟩
    rw [hs]
    refine ⟨hv.set hp rfl rfl rfl rfl, rfl, ?_⟩
    simp only [update_self]
  · refine wp_onFs.2 ?_
    rw [Xv6.ilock]
    refine wp_bind.2 (wp_get.2 (wp_bind.2 (wp_failIf.2 ⟨fun _ => hE.resolve_left hp _, fun hn => absurd ?_ hn⟩)))
    omega

theorem View.at (hv : View sb ip i d k.fs) (ht : d.type = T_FILE) {e : Inode} (hfs : k'.fs = { k.fs with
    icache := update k.fs.icache ip e }) (he : e.valid = (k.fs.icache ip).valid ∧ e.dev = (k.fs.icache ip).dev ∧
      e.inum = (k.fs.icache ip).inum ∧ e.d = (k.fs.icache ip).d ∧ e.locked = false) :
    At sb ip i d (contents k.fs.dev.cache d) k' := by
  have hok : CacheOk sb k'.fs := by
    rw [hfs]
    refine hv.ok.set_entry hv.lt hv.pos he.2.2.1 he.2.1 fun _ => ?_
    rw [he.2.2.2.1]
    exact hv.ok.sync ip hv.lt hv.pos hv.valid
  have hi : k'.fs.icache ip = e := by
    rw [hfs]
    exact update_self ..
  refine ⟨hok, hv.lt, ?_, ?_, ?_, ?_, ?_, ?_, ht⟩
  · rw [hi, he.1, hv.valid]
  · rw [hi, he.2.2.1, hv.inum]
  · rw [hi, he.2.2.2.1, hv.d]
  · rw [hi, he.2.2.2.2]
  · rw [hfs]
    exact hv.table
  · rw [hfs]

end Xv6
