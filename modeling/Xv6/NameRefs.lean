import Xv6.Refs

/-!
# References taken by path names and directory operations

Every exit of the directory layer and of the calls built on it gives back the references and locks
it took, except those it returns to its caller.
-/

namespace Xv6

open Prog

section

variable {sb : Superblock} {s₀ s : Fs} {env : Nat → Nat} {tmp locks : Multiset Nat} {n ip dp : Nat}

theorem holds_readDirent (h : Holds s₀ env tmp (dp ::ₘ locks) n s) (off : Nat) (msg : String) :
    wp (readDirent sb dp off msg) (fun _ => Holds s₀ env tmp (dp ::ₘ locks) n) AnyFault s := by
  refine wp.bind (holds_readi h off 16) fun ⟨r, de⟩ s₁ h₁ => ?_
  simp only [wp_bind, wp_failIf, wp_pure]
  exact ⟨fun _ => trivial, fun _ => h₁⟩

theorem holds_scan {α : Type} {msg : String} {g : Nat → List Byte → Option α} (h : Holds s₀ env tmp (dp ::ₘ locks) n s)
    (lo cnt : Nat) :
    wp (findRange (fun k => do
      let de ← readDirent sb dp (16 * k) msg
      pure (g k de)) lo cnt) (fun _ => Holds s₀ env tmp (dp ::ₘ locks) n) AnyFault s := by
  refine (wp_findRange (fun _ => Holds s₀ env tmp (dp ::ₘ locks) n) (fun _ => Holds s₀ env tmp (dp ::ₘ locks) n) h ?_).post ?_
  · intro k t _ _ ht
    refine wp.bind (holds_readDirent ht _ _) fun de t' ht' => ?_
    cases g k de <;> exact ht'
  · intro r t ht
    cases r <;> exact ht

theorem holds_dirlookup (h : Holds s₀ env (dp ::ₘ tmp) (dp ::ₘ locks) n s) (name : List Byte) :
    wp (dirlookup sb dp name) (fun r s' => match r with
      | none => Holds s₀ env (dp ::ₘ tmp) (dp ::ₘ locks) n s'
      | some (ip, _) => Holds s₀ env (ip ::ₘ dp ::ₘ tmp) (dp ::ₘ locks) n s') AnyFault s := by
  rw [dirlookup]
  simp only [wp_bind, wp_get, wp_failIf]
  refine ⟨fun _ => trivial, fun _ => ?_⟩
  refine wp.post (holds_scan h _ _) fun r s₁ h₁ => ?_
  cases r with
  | none => exact h₁
  | some x =>
    rw [(h.known dp h.pos).2]
    exact wp.bind (holds_iget h₁ x.1) fun ip _ h₂ => h₂

theorem holds_freeDirent (h : Holds s₀ env tmp (dp ::ₘ locks) n s) :
    wp (freeDirent sb dp) (fun _ => Holds s₀ env tmp (dp ::ₘ locks) n) AnyFault s :=
  wp_bind.2 (wp_get.2 (wp.bind (holds_scan h _ _) fun _ _ h₁ => h₁))

theorem holds_dirlink (h : Holds s₀ env (dp ::ₘ tmp) (dp ::ₘ locks) n s) (name : List Byte) (inum : Nat) :
    wp (dirlink sb dp name inum) (fun _ => Holds s₀ env (dp ::ₘ tmp) (dp ::ₘ locks) n) AnyFault s := by
  refine wp.bind (holds_dirlookup h name) fun r s₁ h₁ => ?_
  cases r with
  | some x => exact wp.bind (holds_iput h₁) fun _ _ h₂ => h₂
  | none =>
    refine wp.bind (holds_freeDirent h₁) fun off s₂ h₂ => ?_
    refine wp.bind (holds_writei h₂ _ _ _) fun r s₃ h₃ => ?_
    simp only [wp_bind, wp_failIf, wp_pure]
    exact ⟨fun _ => trivial, fun _ => h₃⟩

def Found (s₀ : Fs) (env : Nat → Nat) (tmp locks : Multiset Nat) (n : Nat) (r : Option (Nat × List Byte)) (s : Fs) : Prop :=
  match r with
  | none => Holds s₀ env tmp locks n s
  | some (ip, _) => Holds s₀ env (ip ::ₘ tmp) locks n s

theorem holds_namexLoop (parent : Bool) (path : List Byte) (h : Holds s₀ env (ip ::ₘ tmp) locks n s) :
    wp (namexLoop sb parent ip path) (Found s₀ env tmp locks n) AnyFault s := by
  fun_induction namexLoop sb parent ip path generalizing s with
  | case1 ip path _ hp => exact wp.bind (holds_iput h) fun _ _ h₁ => h₁
  | case2 ip path _ hp => exact h
  | case3 ip path name rest _ ih =>
    refine wp.bind (holds_ilock h) fun _ s₁ h₁ => ?_
    refine wp_bind.2 (wp_get.2 ?_)
    dsimp only
    split
    · exact wp.bind (holds_iunlockput h₁) fun _ _ h₂ => h₂
    split
    · exact wp.bind (holds_iunlock h₁) fun _ _ h₂ => h₂
    · refine wp.bind (holds_dirlookup h₁ name) fun r s₂ h₂ => ?_
      cases r with
      | none => exact wp.bind (holds_iunlockput h₂) fun _ _ h₃ => h₃
      | some x =>
        have h₂' : Holds s₀ env (ip ::ₘ x.1 ::ₘ tmp) (ip ::ₘ locks) n s₂ := Multiset.cons_swap x.1 ip tmp ▸ h₂
        exact wp.bind (holds_iunlockput h₂') fun _ s₃ h₃ => ih x.1 h₃

/-- The caller's current directory is one of the references in `env`. -/
def CwdHeld (env : Nat → Nat) (cwd : Option Nat) : Prop := ∀ ip, cwd = some ip → 0 < env ip

variable {cwd : Option Nat}

theorem holds_namex (h : Holds s₀ env tmp locks n s) (hc : CwdHeld env cwd) (parent : Bool) (path : List Byte) :
    wp (namex sb cwd parent path) (Found s₀ env tmp locks n) AnyFault s := by
  have hstart : wp (namexStart cwd path) (fun ip => Holds s₀ env (ip ::ₘ tmp) locks n) AnyFault s := by
    unfold namexStart
    split
    · exact holds_iget h ROOTINO
    · split
      · next ip =>
        have hpos : 0 < (s.icache ip).ref := by
          have := hc ip rfl
          rw [h.ref]
          omega
        refine (holds_idup h hpos).post ?_
        rintro _ s₁ ⟨rfl, h₁⟩
        exact h₁
      · trivial
  exact wp.bind hstart fun ip s₁ h₁ => holds_namexLoop parent path h₁

theorem holds_namei (h : Holds s₀ env tmp locks n s) (hc : CwdHeld env cwd) (path : List Byte) :
    wp (namei sb cwd path) (fun r s' => match r with
      | none => Holds s₀ env tmp locks n s'
      | some ip => Holds s₀ env (ip ::ₘ tmp) locks n s') AnyFault s := by
  refine wp.bind (holds_namex h hc false path) fun r s₁ h₁ => ?_
  cases r with
  | none => exact h₁
  | some x => exact h₁

/-! ### The bodies of the calls -/

theorem holds_linkBad (h : Holds s₀ env (ip ::ₘ tmp) locks (n + 1) s) :
    wp (linkBad sb ip) (fun _ => Holds s₀ env tmp locks n) AnyFault s := by
  refine wp.bind (holds_ilock h) fun _ s₁ h₁ => ?_
  refine wp.bind (holds_setFields h₁ _) fun _ s₂ h₂ => ?_
  refine wp.bind (holds_iunlockput h₂) fun _ s₃ h₃ => ?_
  exact wp.bind (holds_endOp h₃) fun _ _ h₄ => h₄

theorem holds_linkEntry (h : Holds s₀ env (dp ::ₘ tmp) (dp ::ₘ locks) n s) (ip : Nat) (name : List Byte) :
    wp (linkEntry sb dp ip name) (fun _ => Holds s₀ env (dp ::ₘ tmp) (dp ::ₘ locks) n) AnyFault s := by
  rw [linkEntry]
  refine wp_bind.2 (wp_get.2 ?_)
  split
  · exact h
  · exact wp.bind (holds_dirlink h name _) fun _ _ h₁ => h₁

theorem holds_link (h : Holds s₀ env tmp locks n s) (hc : CwdHeld env cwd) (old new : List Byte) :
    wp (link sb cwd old new) (fun _ => Holds s₀ env tmp locks n) AnyFault s := by
  refine wp.bind (holds_beginOp h) fun _ s₁ h₁ => ?_
  refine wp.bind (holds_namei h₁ hc old) fun r s₂ h₂ => ?_
  cases r with
  | none => exact wp.bind (holds_endOp h₂) fun _ _ h₃ => h₃
  | some ip =>
    refine wp.bind (holds_ilock h₂) fun _ s₃ h₃ => ?_
    refine wp_bind.2 (wp_get.2 ?_)
    dsimp only
    split
    · refine wp.bind (holds_iunlockput h₃) fun _ s₄ h₄ => ?_
      exact wp.bind (holds_endOp h₄) fun _ _ h₅ => h₅
    · refine wp.bind (holds_setFields h₃ _) fun _ s₄ h₄ => ?_
      refine wp.bind (holds_iunlock h₄) fun _ s₅ h₅ => ?_
      refine wp.bind (holds_namex h₅ hc true new) fun r s₆ h₆ => ?_
      cases r with
      | none => exact holds_linkBad h₆
      | some x =>
        refine wp.bind (holds_ilock h₆) fun _ s₇ h₇ => ?_
        refine wp.bind (holds_linkEntry h₇ ip x.2) fun ok s₈ h₈ => ?_
        refine wp.bind (holds_iunlockput h₈) fun _ s₉ h₉ => ?_
        split
        · refine wp.bind (holds_iput h₉) fun _ t ht => ?_
          exact wp.bind (holds_endOp ht) fun _ _ ht' => ht'
        · exact holds_linkBad h₉

theorem holds_fullDir (h : Holds s₀ env tmp (ip ::ₘ locks) n s) :
    wp (fullDir sb ip) (fun _ => Holds s₀ env tmp (ip ::ₘ locks) n) AnyFault s := by
  rw [fullDir]
  refine wp_bind.2 (wp_get.2 ?_)
  dsimp only
  split
  · have hempty : wp (isdirempty sb ip) (fun _ => Holds s₀ env tmp (ip ::ₘ locks) n) AnyFault s :=
      wp_bind.2 (wp_get.2 (wp.bind (holds_scan h _ _) fun _ _ h₁ => h₁))
    exact wp.bind hempty fun _ _ h₁ => h₁
  · exact h

theorem holds_unlinkBad (h : Holds s₀ env (dp ::ₘ tmp) (dp ::ₘ locks) (n + 1) s) :
    wp (unlinkBad sb dp) (fun _ => Holds s₀ env tmp locks n) AnyFault s :=
  wp.bind (holds_iunlockput h) fun _ _ h₁ => wp.bind (holds_endOp h₁) fun _ _ h₂ => h₂

theorem holds_unlinkDots (h : Holds s₀ env tmp locks n s) :
    wp (unlinkDots sb dp ip) (fun _ => Holds s₀ env tmp locks n) AnyFault s := by
  rw [unlinkDots]
  refine wp_bind.2 (wp_get.2 ?_)
  dsimp only
  split
  · exact holds_setFields h _
  · exact h

theorem holds_unlinkEntry (h : Holds s₀ env (dp ::ₘ ip ::ₘ tmp) (dp ::ₘ ip ::ₘ locks) (n + 1) s) (off : Nat) :
    wp (unlinkEntry sb dp ip off) (fun _ => Holds s₀ env tmp locks n) AnyFault s := by
  refine wp.bind (holds_writei h _ _ _) fun r s₁ h₁ => ?_
  simp only [wp_bind, wp_failIf]
  refine ⟨fun _ => trivial, fun _ => (holds_unlinkDots h₁).post fun _ s₂ h₂ => ?_⟩
  refine (holds_iunlockput h₂).post fun _ s₃ h₃ => ?_
  refine (holds_setFields h₃ _).post fun _ s₄ h₄ => ?_
  refine (holds_iunlockput h₄).post fun _ s₅ h₅ => ?_
  exact (holds_endOp h₅).post fun _ _ h₆ => h₆

theorem holds_unlink (h : Holds s₀ env tmp locks n s) (hc : CwdHeld env cwd) (path : List Byte) :
    wp (unlink sb cwd path) (fun _ => Holds s₀ env tmp locks n) AnyFault s := by
  refine wp.bind (holds_beginOp h) fun _ s₁ h₁ => ?_
  refine wp.bind (holds_namex h₁ hc true path) fun r s₂ h₂ => ?_
  cases r with
  | none => exact wp.bind (holds_endOp h₂) fun _ _ h₃ => h₃
  | some x =>
    refine wp.bind (holds_ilock h₂) fun _ s₃ h₃ => ?_
    dsimp only
    split
    · exact holds_unlinkBad h₃
    · refine wp.bind (holds_dirlookup h₃ x.2) fun r s₄ h₄ => ?_
      cases r with
      | none => exact holds_unlinkBad h₄
      | some y =>
        refine wp.bind (holds_ilock h₄) fun _ s₅ h₅ => ?_
        simp only [wp_bind, wp_get, wp_failIf]
        refine ⟨fun _ => trivial, fun _ => (holds_fullDir h₅).post fun full s₆ h₆ => ?_⟩
        split
        · exact wp.bind (holds_iunlockput h₆) fun _ _ h₇ => holds_unlinkBad h₇
        · refine holds_unlinkEntry ?_ _
          rw [Multiset.cons_swap x.1, Multiset.cons_swap x.1]
          exact h₆

theorem holds_createDots (h : Holds s₀ env (ip ::ₘ tmp) (ip ::ₘ locks) n s) (type : BitVec 16) :
    wp (createDots sb type dp ip) (fun _ => Holds s₀ env (ip ::ₘ tmp) (ip ::ₘ locks) n) AnyFault s := by
  rw [createDots]
  split
  case isFalse => exact h
  refine wp.bind (holds_setFields h _) fun _ s₁ h₁ => ?_
  refine wp_bind.2 (wp_get.2 ?_)
  refine wp.bind (holds_dirlink h₁ _ _) fun r s₂ h₂ => ?_
  simp only [wp_bind, wp_failIf]
  refine ⟨fun _ => trivial, fun _ => (holds_dirlink h₂ _ _).post fun r s₃ h₃ => ?_⟩
  exact ⟨fun _ => trivial, fun _ => h₃⟩

theorem holds_createNew (h : Holds s₀ env (dp ::ₘ tmp) (dp ::ₘ locks) n s) (name : List Byte) (type major minor : BitVec 16) :
    wp (createNew sb dp name type major minor) (fun ip => Holds s₀ env (ip ::ₘ tmp) (ip ::ₘ locks) n) AnyFault s := by
  rw [createNew]
  refine wp_bind.2 (wp_get.2 ?_)
  rw [(h.known dp h.pos).2]
  refine wp.bind (holds_ialloc h type) fun ip s₁ h₁ => ?_
  refine wp.bind (holds_ilock h₁) fun _ s₂ h₂ => ?_
  refine wp.bind (holds_setFields h₂ _) fun _ s₃ h₃ => ?_
  refine wp.bind (holds_createDots h₃ type) fun _ s₄ h₄ => ?_
  have h₄' : Holds s₀ env (dp ::ₘ ip ::ₘ tmp) (dp ::ₘ ip ::ₘ locks) n s₄ :=
    Multiset.cons_swap ip dp tmp ▸ Multiset.cons_swap ip dp locks ▸ h₄
  refine wp_bind.2 (wp_get.2 ?_)
  refine wp.bind (holds_dirlink h₄' name _) fun r s₅ h₅ => ?_
  simp only [wp_bind, wp_failIf]
  refine ⟨fun _ => trivial, fun _ => ?_⟩
  exact (holds_iunlockput h₅).post fun _ _ h₆ => h₆

theorem holds_create (h : Holds s₀ env tmp locks n s) (hc : CwdHeld env cwd) (path : List Byte) (type major minor : BitVec 16) :
    wp (create sb cwd path type major minor) (fun r s' => match r with
      | none => Holds s₀ env tmp locks n s'
      | some ip => Holds s₀ env (ip ::ₘ tmp) (ip ::ₘ locks) n s') AnyFault s := by
  refine wp.bind (holds_namex h hc true path) fun r s₁ h₁ => ?_
  cases r with
  | none => exact h₁
  | some x =>
    refine wp.bind (holds_ilock h₁) fun _ s₂ h₂ => ?_
    refine wp.bind (holds_dirlookup h₂ x.2) fun r s₃ h₃ => ?_
    cases r with
    | none => exact wp.bind (holds_createNew h₃ _ _ _ _) fun _ _ h₄ => h₄
    | some y =>
      have h₃' : Holds s₀ env (x.1 ::ₘ y.1 ::ₘ tmp) (x.1 ::ₘ locks) n s₃ := Multiset.cons_swap y.1 x.1 tmp ▸ h₃
      refine wp.bind (holds_iunlockput h₃') fun _ s₄ h₄ => ?_
      refine wp.bind (holds_ilock h₄) fun _ s₅ h₅ => ?_
      refine wp_bind.2 (wp_get.2 ?_)
      dsimp only
      split
      · exact h₅
      · exact wp.bind (holds_iunlockput h₅) fun _ _ h₆ => h₆

theorem holds_openInode (h : Holds s₀ env tmp locks n s) (hc : CwdHeld env cwd) (path : List Byte) (omode : BitVec 32) :
    wp (openInode sb cwd path omode) (fun r s' => match r with
      | none => Holds s₀ env tmp locks n s'
      | some ip => Holds s₀ env (ip ::ₘ tmp) (ip ::ₘ locks) n s') AnyFault s := by
  rw [openInode]
  split
  · exact holds_create h hc _ _ _ _
  · refine wp.bind (holds_namei h hc path) fun r s₁ h₁ => ?_
    cases r with
    | none => exact h₁
    | some ip =>
      refine wp.bind (holds_ilock h₁) fun _ s₂ h₂ => ?_
      refine wp_bind.2 (wp_get.2 ?_)
      dsimp only
      split
      · exact wp.bind (holds_iunlockput h₂) fun _ _ h₃ => h₃
      · exact h₂

end

end Xv6
