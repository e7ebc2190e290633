import Xv6.Fs.System
import Xv6.Lib.Count

/-!
# Reference counts of files and inodes

Every reference is counted once: the count of an open file is the number of descriptors for it, that
of an inode in the cache the number of open files and current directories that it is, and a pipe has
an end open as long as there is an open file for it. Inside a call there are references besides, which
the code holds in its variables; they are listed, and at the end of a call the list is empty.

This does not depend on what is on the disk, and is shown for every layer that counts references as
the inode cache does.
-/

namespace Xv6.Fs

open Lib Finset

/-! ### Layers that count references -/

/-- What an entry of the inode cache holds, and how often it is referred to. -/
structure View (σ : Type) where
  inum : σ → Slot → Word
  ref : σ → Slot → ℤ

/-- A reference to the inode `i` has been taken, in the entry `k`. -/
structure Got {σ : Type} (v : View σ) (s : σ) (i : Word) (k : Slot) (s' : σ) : Prop where
  inum : v.inum s' = Function.update (v.inum s) k i
  ref : v.ref s' = Function.update (v.ref s) k (v.ref s k + 1)
  slot : 0 < v.ref s k ∧ v.inum s k = i ∨
    v.ref s k = 0 ∧ ∀ k', 0 < v.ref s k' → v.inum s k' ≠ i

structure Counts {σ : Type} (L : Layer Act Ans Panic Fault σ) (v : View σ) : Prop where
  iget : ∀ {s i k s'}, L.exec (.iget i) s = .ok (k, s') → Got v s i k s'
  ialloc : ∀ {s type k s'}, L.exec (.ialloc type) s = .ok (k, s') → ∃ i, Got v s i k s'
  idup : ∀ {s k r s'}, L.exec (.idup k) s = .ok (r, s') → 0 < v.ref s k ∧ v.inum s' = v.inum s ∧
    v.ref s' = Function.update (v.ref s) k (v.ref s k + 1)
  iput : ∀ {s k r s'}, L.exec (.iput k) s = .ok (r, s') → v.inum s' = v.inum s ∧
    v.ref s' = Function.update (v.ref s) k (v.ref s k - 1)
  ilock : ∀ {s k r s'}, L.exec (.ilock k) s = .ok (r, s') → v.inum s' = v.inum s ∧ v.ref s' = v.ref s
  iunlock : ∀ {s k r s'}, L.exec (.iunlock k) s = .ok (r, s') → v.inum s' = v.inum s ∧ v.ref s' = v.ref s
  fields : ∀ {s k r s'}, L.exec (.fields k) s = .ok (r, s') → v.inum s' = v.inum s ∧ v.ref s' = v.ref s
  iupdate : ∀ {s k a b c r s'}, L.exec (.iupdate k a b c) s = .ok (r, s') →
    v.inum s' = v.inum s ∧ v.ref s' = v.ref s
  readi : ∀ {s k o n r s'}, L.exec (.readi k o n) s = .ok (r, s') →
    v.inum s' = v.inum s ∧ v.ref s' = v.ref s
  writei : ∀ {s k x o n r s'}, L.exec (.writei k x o n) s = .ok (r, s') →
    v.inum s' = v.inum s ∧ v.ref s' = v.ref s

/-! ### The counts -/

/-- The process is in the directory that the entry `k` holds. -/
def inDir (k : Slot) : Option Proc → ℕ
  | none => 0
  | some pr => if pr.cwd = k then 1 else 0

/-- The file is open on the inode that the entry `k` holds. -/
def onInode (k : Slot) (x : File) : ℕ := if 0 < x.ref ∧ x.type = .inode ∧ x.ip = k then 1 else 0

namespace Files

/-- The number of open files and current directories that are the inode in the entry `k`. -/
def uses (f : Files) (k : Slot) : ℕ := ∑ i, onInode k (f.file i) + ∑ p, inDir k (f.proc p)

theorem uses_setFile (f : Files) (i : Fin NFILE) (x : File) (k : Slot) :
    (f.setFile i x).uses k + onInode k (f.file i) = f.uses k + onInode k x := by
  have := sum_update (onInode k) f.file i x
  unfold uses setFile
  dsimp only
  omega

theorem uses_setProc (f : Files) (p : Fin NPROC) (x : Option Proc) (k : Slot) :
    (f.setProc p x).uses k + inDir k (f.proc p) = f.uses k + inDir k x := by
  have := sum_update (inDir k) f.proc p x
  unfold uses setProc
  dsimp only
  omega

end Files

/-- The reference that a lookup has taken. -/
def held {α : Type} (r : Option (Slot × α)) : List Slot := (r.map Prod.fst).toList

/-! ### Inodes -/

section inodes

variable {σ : Type} {v : View σ} {L : Layer Act Ans Panic Fault σ} {f : Files} {l l' : List Slot}
  {s s' : σ} {k : Slot} {i : Word}

/-- The references to inodes are counted; the code holds `l` besides. -/
structure Balanced (v : View σ) (f : Files) (l : List Slot) (s : σ) : Prop where
  ref : ∀ k, v.ref s k = f.uses k + l.count k
  once : ∀ {k k'}, 0 < v.ref s k → 0 < v.ref s k' → v.inum s k = v.inum s k' → k = k'

theorem Balanced.perm (hb : Balanced v f l s) (h : l.Perm l') : Balanced v f l' s :=
  ⟨fun k => by rw [hb.ref, h.count_eq], hb.once⟩

/-- Other files, with the same uses or with a use for a reference of the code. -/
theorem Balanced.files (hb : Balanced v f l s) {f' : Files}
    (h : ∀ k, f'.uses k + l'.count k = f.uses k + l.count k) : Balanced v f' l' s :=
  ⟨fun k => by rw [hb.ref]; have := h k; omega, hb.once⟩

theorem Balanced.same (hb : Balanced v f l s) (h : v.inum s' = v.inum s ∧ v.ref s' = v.ref s) :
    Balanced v f l s' :=
  ⟨fun k => by rw [h.2, hb.ref], fun {k k'} => by rw [h.1, h.2]; exact hb.once⟩

theorem Balanced.got (hb : Balanced v f l s) (hg : Got v s i k s') : Balanced v f (k :: l) s' := by
  have hpos : ∀ k', k' ≠ k → v.ref s' k' = v.ref s k' := fun k' h => by
    rw [hg.ref, Function.update_of_ne h]
  have hinum : ∀ k', k' ≠ k → v.inum s' k' = v.inum s k' := fun k' h => by
    rw [hg.inum, Function.update_of_ne h]
  have hnew : ∀ k', k' ≠ k → 0 < v.ref s k' → v.inum s k' ≠ i := by
    intro k' hne hr he
    rcases hg.slot with ⟨hk, hi⟩ | ⟨-, hno⟩
    · exact hne (hb.once hr hk (he.trans hi.symm))
    · exact hno k' hr he
  have hself : v.inum s' k = i := by rw [hg.inum, Function.update_self]
  constructor
  · intro k'
    by_cases hk : k' = k
    · rw [hk, hg.ref, Function.update_self, hb.ref, List.count_cons_self]
      push_cast
      omega
    · rw [hpos k' hk, hb.ref, List.count_cons_of_ne (Ne.symm hk)]
  · intro k₁ k₂ h₁ h₂ he
    by_cases hk₁ : k₁ = k <;> by_cases hk₂ : k₂ = k
    · exact hk₁.trans hk₂.symm
    · rw [hk₁, hself, hinum k₂ hk₂] at he
      rw [hpos k₂ hk₂] at h₂
      exact absurd he.symm (hnew k₂ hk₂ h₂)
    · rw [hk₂, hself, hinum k₁ hk₁] at he
      rw [hpos k₁ hk₁] at h₁
      exact absurd he (hnew k₁ hk₁ h₁)
    · rw [hpos k₁ hk₁] at h₁
      rw [hpos k₂ hk₂] at h₂
      rw [hinum k₁ hk₁, hinum k₂ hk₂] at he
      exact hb.once h₁ h₂ he

theorem Balanced.put (hb : Balanced v f (k :: l) s) (hi : v.inum s' = v.inum s)
    (hr : v.ref s' = Function.update (v.ref s) k (v.ref s k - 1)) : Balanced v f l s' := by
  have hle : ∀ k', v.ref s' k' ≤ v.ref s k' := fun k' => by
    rw [hr, Function.update_apply]
    split
    · rename_i h
      rw [h]
      omega
    · exact le_rfl
  refine ⟨fun k' => ?_, fun {k₁ k₂} h₁ h₂ he => ?_⟩
  · have := hb.ref k'
    rw [hr]
    by_cases hk : k' = k
    · rw [hk, List.count_cons_self] at this
      rw [hk, Function.update_self]
      omega
    · rw [List.count_cons_of_ne (Ne.symm hk)] at this
      rw [Function.update_of_ne hk, this]
  · rw [hi] at he
    exact hb.once (lt_of_lt_of_le h₁ (hle k₁)) (lt_of_lt_of_le h₂ (hle k₂)) he

variable (hL : Counts L v)

include hL

theorem after_iget (i : Word) :
    Cmd.After L (Balanced v f l) (Code.iget i) fun k => Balanced v f (k :: l) :=
  Cmd.After.call_ok fun _ _ _ hb h => hb.got (hL.iget h)

theorem after_ialloc (type : Short) :
    Cmd.After L (Balanced v f l) (Code.ialloc type) fun k => Balanced v f (k :: l) :=
  Cmd.After.call_ok fun _ _ _ hb h => hb.got (hL.ialloc h).choose_spec

theorem after_idup (k : Slot) :
    Cmd.After L (Balanced v f l) (Code.idup k) fun _ => Balanced v f (k :: l) := by
  refine Cmd.After.call_ok fun s r s' hb h => ?_
  obtain ⟨hk, hi, hr⟩ := hL.idup h
  exact hb.got ⟨by rw [hi, Function.update_eq_self], hr, .inl ⟨hk, rfl⟩⟩

theorem after_iput (k : Slot) :
    Cmd.After L (Balanced v f (k :: l)) (Code.iput k) fun _ => Balanced v f l :=
  Cmd.After.call_ok fun _ _ _ hb h => hb.put (hL.iput h).1 (hL.iput h).2

theorem after_ilock (k : Slot) : Cmd.After L (Balanced v f l) (Code.ilock k) fun _ => Balanced v f l :=
  Cmd.After.call_ok fun _ _ _ hb h => hb.same (hL.ilock h)

theorem after_iunlock (k : Slot) : Cmd.After L (Balanced v f l) (Code.iunlock k) fun _ => Balanced v f l :=
  Cmd.After.call_ok fun _ _ _ hb h => hb.same (hL.iunlock h)

theorem after_iunlockput (k : Slot) :
    Cmd.After L (Balanced v f (k :: l)) (Code.iunlockput k) fun _ => Balanced v f l :=
  (after_iunlock hL k).bind fun _ => after_iput hL k

theorem after_fields (k : Slot) : Cmd.After L (Balanced v f l) (Code.fields k) fun _ => Balanced v f l :=
  Cmd.After.call_ok fun _ _ _ hb h => hb.same (hL.fields h)

theorem after_iupdate (k : Slot) (a b c : Short) :
    Cmd.After L (Balanced v f l) (Code.iupdate k a b c) fun _ => Balanced v f l :=
  Cmd.After.call_ok fun _ _ _ hb h => hb.same (hL.iupdate h)

theorem after_readi (k : Slot) (o n : Word) :
    Cmd.After L (Balanced v f l) (Code.readi k o n) fun _ => Balanced v f l :=
  Cmd.After.call_ok fun _ _ _ hb h => hb.same (hL.readi h)

theorem after_writei (k : Slot) (x : ℕ → Byte) (o n : Word) :
    Cmd.After L (Balanced v f l) (Code.writei k x o n) fun _ => Balanced v f l :=
  Cmd.After.call_ok fun _ _ _ hb h => hb.same (hL.writei h)

theorem after_readEntry (k : Slot) (off : Word) (e : Panic) :
    Cmd.After L (Balanced v f l) (Code.readEntry k off e) fun _ => Balanced v f l := by
  refine (after_readi hL k off _).bind fun r => ?_
  split
  · exact .ite (fun _ => .pure fun _ => id) fun _ => .stop
  · exact .stop

theorem after_writeEntry (k : Slot) (de : Dirent) (off : Word) (e : Panic) :
    Cmd.After L (Balanced v f l) (Code.writeEntry k de off e) fun _ => Balanced v f l := by
  refine (after_writei hL k _ off _).bind fun r => ?_
  split
  · exact .ite (fun _ => .pure fun _ => id) fun _ => .stop
  · exact .stop

/-! ### Directories and paths -/

theorem after_lookupLoop (k : Slot) (name : List Byte) (size : Word) (fuel : ℕ) (off : Word) :
    Cmd.After L (Balanced v f l) (Code.lookupLoop k name size fuel off) fun r =>
      Balanced v f (held r ++ l) := by
  induction fuel generalizing off with
  | zero => exact .stop
  | succ fuel ih =>
    refine .ite (fun _ => (after_readEntry hL k off _).bind fun de => ?_) fun _ => .pure fun _ => id
    exact .ite (fun _ => (after_iget hL _).bind fun ip => .pure fun _ => id) fun _ => ih _

theorem after_dirlookup (dp : Slot) (name : List Byte) :
    Cmd.After L (Balanced v f l) (Code.dirlookup dp name) fun r => Balanced v f (held r ++ l) := by
  refine (after_fields hL dp).bind fun x => ?_
  exact .ite (fun _ => .stop) fun _ => after_lookupLoop hL dp name _ _ _

theorem after_emptyLoop (k : Slot) (size : Word) (fuel : ℕ) (off : Word) :
    Cmd.After L (Balanced v f l) (Code.emptyLoop k size fuel off) fun _ => Balanced v f l := by
  induction fuel generalizing off with
  | zero => exact .stop
  | succ fuel ih =>
    refine .ite (fun _ => (after_readEntry hL k off _).bind fun de => ?_) fun _ => .pure fun _ => id
    exact .ite (fun _ => .pure fun _ => id) fun _ => ih _

theorem after_isemptyLoop (k : Slot) (size : Word) (fuel : ℕ) (off : Word) :
    Cmd.After L (Balanced v f l) (Code.isemptyLoop k size fuel off) fun _ => Balanced v f l := by
  induction fuel generalizing off with
  | zero => exact .stop
  | succ fuel ih =>
    refine .ite (fun _ => (after_readEntry hL k off _).bind fun de => ?_) fun _ => .pure fun _ => id
    exact .ite (fun _ => .pure fun _ => id) fun _ => ih _

theorem after_dirlink (dp : Slot) (name : List Byte) (inum : Word) :
    Cmd.After L (Balanced v f l) (Code.dirlink dp name inum) fun _ => Balanced v f l := by
  refine (after_dirlookup hL dp name).bind fun r => ?_
  cases r with
  | some r => exact (after_iput hL r.1).bind fun _ => .pure fun _ => id
  | none =>
    refine (after_fields hL dp).bind fun x => (after_emptyLoop hL dp _ _ _).bind fun off => ?_
    exact (after_writeEntry hL dp _ off _).bind fun _ => .pure fun _ => id

theorem after_namexLoop (parent : Bool) (fuel : ℕ) (ip : Slot) (path : List Byte) :
    Cmd.After L (Balanced v f (ip :: l)) (Code.namexLoop parent fuel ip path) fun r =>
      Balanced v f (held r ++ l) := by
  induction fuel generalizing ip path with
  | zero => exact .stop
  | succ fuel ih =>
    unfold Code.namexLoop
    have hnone : Cmd.After L (Balanced v f (ip :: l))
        (do Code.iunlockput ip; pure (none : Option (Slot × List Byte))) fun r =>
          Balanced v f (held r ++ l) := (after_iunlockput hL ip).bind fun _ => .pure fun _ => id
    cases skipelem path with
    | none =>
      exact .ite (fun _ => (after_iput hL ip).bind fun _ => .pure fun _ => id) fun _ => .pure fun _ => id
    | some x =>
      obtain ⟨name, path⟩ := x
      refine (after_ilock hL ip).bind fun _ => (after_fields hL ip).bind fun x => ?_
      refine .ite (fun _ => hnone) fun _ => .ite (fun _ => ?_) fun _ => ?_
      · exact (after_iunlock hL ip).bind fun _ => .pure fun _ => id
      refine (after_dirlookup hL ip name).bind fun r => ?_
      cases r with
      | none => exact hnone
      | some r =>
        refine Cmd.After.bind ?_ fun _ => ih r.1 path
        exact (after_iunlockput hL ip).weaken (fun _ hb => hb.perm (.swap ..)) fun _ _ => id

theorem after_start (cwd : Slot) (path : List Byte) :
    Cmd.After L (Balanced v f l) (Code.start cwd path) fun k => Balanced v f (k :: l) :=
  .ite (fun _ => after_iget hL _) fun _ => (after_idup hL cwd).bind fun _ => .pure fun _ => id

theorem after_namex (cwd : Slot) (path : List Byte) (parent : Bool) :
    Cmd.After L (Balanced v f l) (Code.namex cwd path parent) fun r => Balanced v f (held r ++ l) :=
  (after_start hL cwd path).bind fun ip => after_namexLoop hL parent _ ip path

theorem after_namei (cwd : Slot) (path : List Byte) :
    Cmd.After L (Balanced v f l) (Code.namei cwd path) fun r => Balanced v f (r.toList ++ l) :=
  (after_namex hL cwd path false).bind fun _ => .pure fun _ => id

theorem after_makeDots (dp ip : Slot) (type : Short) :
    Cmd.After L (Balanced v f l) (Code.makeDots dp ip type) fun _ => Balanced v f l := by
  refine .ite (fun _ => ?_) fun _ => .pure fun _ => id
  refine (after_fields hL dp).bind fun x => (after_iupdate hL dp _ _ _).bind fun _ => ?_
  refine (after_fields hL ip).bind fun y => (after_dirlink hL ip _ _).bind fun ok => ?_
  refine .ite (fun _ => .stop) fun _ => (after_dirlink hL ip _ _).bind fun ok => ?_
  exact .ite (fun _ => .stop) fun _ => .pure fun _ => id

theorem after_make (dp : Slot) (name : List Byte) (type major minor : Short) :
    Cmd.After L (Balanced v f (dp :: l)) (Code.make dp name type major minor) fun ip =>
      Balanced v f (ip :: l) := by
  refine (after_ialloc hL type).bind fun ip => (after_ilock hL ip).bind fun _ => ?_
  refine (after_iupdate hL ip _ _ _).bind fun _ => (after_makeDots hL dp ip type).bind fun _ => ?_
  refine (after_fields hL ip).bind fun x => (after_dirlink hL dp _ _).bind fun ok => ?_
  refine .ite (fun _ => .stop) fun _ => Cmd.After.bind ?_ fun _ => .pure fun _ => id
  exact (after_iunlockput hL dp).weaken (fun _ hb => hb.perm (.swap ..)) fun _ _ => id

theorem after_create (cwd : Slot) (path : List Byte) (type major minor : Short) :
    Cmd.After L (Balanced v f l) (Code.create cwd path type major minor) fun r =>
      Balanced v f (r.toList ++ l) := by
  refine (after_namex hL cwd path true).bind fun r => ?_
  cases r with
  | none => exact .pure fun _ => id
  | some r =>
    obtain ⟨dp, name⟩ := r
    refine (after_ilock hL dp).bind fun _ => (after_dirlookup hL dp name).bind fun r => ?_
    cases r with
    | none => exact (after_make hL dp name _ _ _).bind fun ip => .pure fun _ => id
    | some r =>
      obtain ⟨ip, off⟩ := r
      have hput : Cmd.After L (Balanced v f (ip :: dp :: l)) (Code.iunlockput dp) fun _ =>
          Balanced v f (ip :: l) :=
        (after_iunlockput hL dp).weaken (fun _ hb => hb.perm (.swap ..)) fun _ _ => id
      refine hput.bind fun _ => (after_ilock hL ip).bind fun _ => (after_fields hL ip).bind fun x => ?_
      refine .ite (fun _ => .pure fun _ => id) fun _ => ?_
      exact (after_iunlockput hL ip).bind fun _ => .pure fun _ => id

/-! ### System calls that leave the files alone -/

theorem after_unlinkBad (ip : Slot) :
    Cmd.After L (Balanced v f (ip :: l)) (Code.unlinkBad ip) fun _ => Balanced v f l := by
  refine (after_ilock hL ip).bind fun _ => (after_fields hL ip).bind fun x => ?_
  exact (after_iupdate hL ip _ _ _).bind fun _ => after_iunlockput hL ip

theorem after_sysLink (pr : Proc) (old new : List Byte) :
    Cmd.After L (Balanced v f l) (Code.sysLink pr old new) fun _ => Balanced v f l := by
  refine (after_namei hL pr.cwd old).bind fun r => ?_
  cases r with
  | none => exact .pure fun _ => id
  | some ip =>
    refine (after_ilock hL ip).bind fun _ => (after_fields hL ip).bind fun x => ?_
    refine .ite (fun _ => (after_iunlockput hL ip).bind fun _ => .pure fun _ => id) fun _ => ?_
    refine (after_iupdate hL ip _ _ _).bind fun _ => (after_iunlock hL ip).bind fun _ => ?_
    refine (after_namex hL pr.cwd new true).bind fun r => ?_
    cases r with
    | none => exact (after_unlinkBad hL ip).bind fun _ => .pure fun _ => id
    | some r =>
      obtain ⟨dp, name⟩ := r
      refine (after_ilock hL dp).bind fun _ => (after_dirlink hL dp _ _).bind fun ok => ?_
      refine (after_iunlockput hL dp).bind fun _ => .ite (fun _ => ?_) fun _ => ?_
      · exact (after_iput hL ip).bind fun _ => .pure fun _ => id
      · exact (after_unlinkBad hL ip).bind fun _ => .pure fun _ => id

theorem after_isfull (ip : Slot) (type : Short) :
    Cmd.After L (Balanced v f l) (Code.isfull ip type) fun _ => Balanced v f l := by
  refine .ite (fun _ => ?_) fun _ => .pure fun _ => id
  refine Cmd.After.bind (Q := fun _ => Balanced v f l) ?_ fun _ => .pure fun _ => id
  exact (after_fields hL ip).bind fun x => after_isemptyLoop hL ip _ _ _

theorem after_dropUp (dp : Slot) (type : Short) :
    Cmd.After L (Balanced v f l) (Code.dropUp dp type) fun _ => Balanced v f l :=
  .ite (fun _ => (after_fields hL dp).bind fun _ => after_iupdate hL dp _ _ _) fun _ =>
    .pure fun _ => id

theorem after_unlinkAt (dp : Slot) (name : List Byte) :
    Cmd.After L (Balanced v f (dp :: l)) (Code.unlinkAt dp name) fun _ => Balanced v f l := by
  have hput : ∀ z : ℤ, Cmd.After L (Balanced v f (dp :: l)) (do Code.iunlockput dp; pure z) fun _ =>
      Balanced v f l := fun z => (after_iunlockput hL dp).bind fun _ => .pure fun _ => id
  refine .ite (fun _ => hput _) fun _ => (after_dirlookup hL dp name).bind fun r => ?_
  cases r with
  | none => exact hput _
  | some r =>
    obtain ⟨ip, off⟩ := r
    refine (after_ilock hL ip).bind fun _ => (after_fields hL ip).bind fun x => ?_
    refine .ite (fun _ => .stop) fun _ => (after_isfull hL ip _).bind fun full => ?_
    refine .ite (fun _ => (after_iunlockput hL ip).bind fun _ => hput _) fun _ => ?_
    refine (after_writeEntry hL dp _ off _).bind fun _ => (after_dropUp hL dp _).bind fun _ => ?_
    refine Cmd.After.bind (Q := fun _ => Balanced v f (ip :: l)) ?_ fun _ => ?_
    · exact (after_iunlockput hL dp).weaken (fun _ hb => hb.perm (.swap ..)) fun _ _ => id
    · refine (after_fields hL ip).bind fun x => (after_iupdate hL ip _ _ _).bind fun _ => ?_
      exact (after_iunlockput hL ip).bind fun _ => .pure fun _ => id

theorem after_sysUnlink (pr : Proc) (path : List Byte) :
    Cmd.After L (Balanced v f l) (Code.sysUnlink pr path) fun _ => Balanced v f l := by
  refine (after_namex hL pr.cwd path true).bind fun r => ?_
  cases r with
  | none => exact .pure fun _ => id
  | some r => exact (after_ilock hL r.1).bind fun _ => after_unlinkAt hL r.1 r.2

theorem after_sysMake (pr : Proc) (path : List Byte) (type major minor : Short) :
    Cmd.After L (Balanced v f l) (Code.sysMake pr path type major minor) fun _ =>
      Balanced v f l := by
  refine (after_create hL pr.cwd path type major minor).bind fun r => ?_
  cases r with
  | none => exact .pure fun _ => id
  | some ip => exact (after_iunlockput hL ip).bind fun _ => .pure fun _ => id

end inodes

/-! ### The inode cache -/

/-- The entries of the inode cache. -/
def blockView : View Blocks where
  inum s k := (s.icache k).inum
  ref s k := (s.icache k).ref

/-- The functions on the content of an inode do not touch which one it is, and who refers to it. -/
def Inode.Same (ip ip' : Inode) : Prop := ip'.inum = ip.inum ∧ ip'.ref = ip.ref

section cache

variable {sb : Superblock} {devsw : Fin NDEV → Bool} {ip ip' : Inode} {d d' : Disk} {s s' : Blocks}
  {k : Slot}

theorem Inode.Same.rfl {toDinode : Dinode} {valid : Bool} :
    ip.Same { toDinode := toDinode, inum := ip.inum, ref := ip.ref, valid := valid } := ⟨Eq.refl _, Eq.refl _⟩

theorem Inode.Same.trans {ip'' : Inode} (h : ip.Same ip') (h' : ip'.Same ip'') : ip.Same ip'' :=
  ⟨h'.1.trans h.1, h'.2.trans h.2⟩

theorem bmap_same {b : Log.BlockNo} {bn : ℕ} (h : bmap sb ip d bn = .ok (b, ip', d')) : ip.Same ip' := by
  rw [bmap_eq] at h
  split at h
  · dsimp only at h
    split at h
    · obtain ⟨x, -, h⟩ := bind_eq_ok.1 h
      cases h
      exact .rfl
    · cases h
      exact .rfl
  · dsimp only at h
    split at h
    · split at h
      · obtain ⟨x, -, h⟩ := bind_eq_ok.1 h
        obtain ⟨y, hy, h⟩ := bind_eq_ok.1 h
        cases hy
        dsimp only at h
        split at h
        · obtain ⟨z, -, h⟩ := bind_eq_ok.1 h
          cases h
          exact .rfl
        · cases h
          exact .rfl
      · obtain ⟨y, hy, h⟩ := bind_eq_ok.1 h
        cases hy
        dsimp only at h
        split at h
        · obtain ⟨z, -, h⟩ := bind_eq_ok.1 h
          cases h
          exact .rfl
        · cases h
          exact .rfl
    · cases h

theorem readLoop_same {fuel off n : ℕ} {l : List Byte}
    (h : readLoop sb fuel ip d off n = .ok (l, ip', d')) : ip.Same ip' := by
  induction fuel generalizing ip d off n l with
  | zero =>
    cases n <;> cases h
    exact .rfl
  | succ fuel ih =>
    cases n with
    | zero =>
      cases h
      exact .rfl
    | succ n =>
      obtain ⟨⟨b, ip₁, d₁⟩, h₁, h⟩ := bind_eq_ok.1 h
      obtain ⟨⟨rest, ip₂, d₂⟩, h₂, h⟩ := bind_eq_ok.1 h
      cases h
      exact (bmap_same h₁).trans (ih h₂)

theorem readi_same {r : Io (List Byte)} {off n : Word} (h : readi sb devsw ip d off n = .ok (r, ip', d')) :
    ip.Same ip' := by
  unfold readi at h
  split at h
  · cases h
    exact .rfl
  · split at h
    · cases h
      exact .rfl
    · obtain ⟨⟨l, ip₁, d₁⟩, h₁, h⟩ := bind_eq_ok.1 h
      cases h
      exact readLoop_same h₁

theorem writeLoop_same {fuel off : ℕ} {src : List Byte}
    (h : writeLoop sb fuel ip d off src = .ok (ip', d')) : ip.Same ip' := by
  induction fuel generalizing ip d off src with
  | zero =>
    cases src <;> cases h
    exact .rfl
  | succ fuel ih =>
    cases src with
    | nil =>
      cases h
      exact .rfl
    | cons x src =>
      obtain ⟨⟨b, ip₁, d₁⟩, h₁, h⟩ := bind_eq_ok.1 h
      exact (bmap_same h₁).trans (ih h)

theorem writei_same {r : Io Word} {src : ℕ → Byte} {off n : Word}
    (h : writei sb devsw ip d src off n = .ok (r, ip', d')) : ip.Same ip' := by
  rw [writei_eq] at h
  split at h
  · cases h
    exact .rfl
  · split at h
    · cases h
      exact .rfl
    · split at h
      · cases h
        exact .rfl
      · obtain ⟨⟨ip₁, d₁⟩, h₁, h⟩ := bind_eq_ok.1 h
        have hs : ip.Same ip₁ := writeLoop_same h₁
        dsimp only at h
        split at h <;> cases h
        · exact hs
        · exact hs

theorem freeDirect_same {x x' : Inode × Disk} {i : Fin NDIRECT} (h : freeDirect x i = .ok x') :
    x.1.Same x'.1 := by
  unfold freeDirect at h
  dsimp only at h
  split at h
  · obtain ⟨d, -, h⟩ := bind_eq_ok.1 h
    cases h
    exact .rfl
  · cases h
    exact .rfl

theorem freeInode_same (h : Iput.freeInode ip d = .ok (ip', d')) : ip.Same ip' := by
  obtain ⟨⟨ip₁, d₁⟩, h₁, h⟩ := bind_eq_ok.1 h
  obtain ⟨⟨ip₂, d₂⟩, h₂, h₁⟩ := bind_eq_ok.1 h₁
  cases h
  have hs : ip.Same ip₂ :=
    foldlM_rel (r := fun x y => x.1.Same y.1) (fun _ => .rfl) (fun h h' => h.trans h') freeDirect_same _ h₂
  have hs' : ip₂.Same ip₁ := by
    dsimp only at h₁
    split at h₁
    · obtain ⟨x, -, h₁⟩ := bind_eq_ok.1 h₁
      cases h₁
      exact .rfl
    · cases h₁
      exact .rfl
  exact hs.trans hs'

theorem blockView_put {d : Disk} {i : Word} {n : ℤ} (hi : ip.inum = i) (hn : ip.ref = n) :
    blockView.inum { s.put k ip with disk := d } = Function.update (blockView.inum s) k i ∧
      blockView.ref { s.put k ip with disk := d } = Function.update (blockView.ref s) k n := by
  refine ⟨funext fun k' => ?_, funext fun k' => ?_⟩
  · show ((s.put k ip).icache k').inum = _
    by_cases hk : k' = k
    · rw [hk, s.put_self, Function.update_self, hi]
    · rw [s.put_of_ne ip hk, Function.update_of_ne hk]
      rfl
  · show ((s.put k ip).icache k').ref = _
    by_cases hk : k' = k
    · rw [hk, s.put_self, Function.update_self, hn]
    · rw [s.put_of_ne ip hk, Function.update_of_ne hk]
      rfl

theorem blockView_same {d : Disk} (h : (s.icache k).Same ip) :
    blockView.inum { s.put k ip with disk := d } = blockView.inum s ∧
      blockView.ref { s.put k ip with disk := d } = blockView.ref s := by
  have := blockView_put (s := s) (k := k) (d := d) h.1 h.2
  rw [this.1, this.2]
  exact ⟨Function.update_eq_self .., Function.update_eq_self ..⟩

theorem blockView_ref {d : Disk} {n : ℤ} (hi : ip.inum = (s.icache k).inum) (hn : ip.ref = n) :
    blockView.inum { s.put k ip with disk := d } = blockView.inum s ∧
      blockView.ref { s.put k ip with disk := d } = Function.update (blockView.ref s) k n := by
  have := blockView_put (s := s) (k := k) (d := d) hi hn
  rw [this.1, this.2]
  exact ⟨Function.update_eq_self .., rfl⟩

theorem got_iget {i : Word} (h : s.iget i = .ok (k, s')) : Got blockView s i k s' := by
  unfold Blocks.iget at h
  split at h
  · rename_i k' hf
    cases h
    have hk := List.find?_some hf
    simp only [decide_eq_true_eq] at hk
    have hnew : ({ s.icache k with ref := (s.icache k).ref + 1 } : Inode).inum = i := hk.2
    have := blockView_put (s := s) (k := k) (d := s.disk) hnew rfl
    exact ⟨this.1, this.2, .inl hk⟩
  · rename_i hf
    split at h
    · rename_i k' hf'
      cases h
      have hk : (s.icache k).ref = 0 := by simpa using List.find?_some hf'
      have hnew : ({ s.icache k with inum := i, ref := 1, valid := false } : Inode).inum = i := rfl
      have := blockView_put (s := s) (k := k) (d := s.disk) (n := (s.icache k).ref + 1) hnew
        (by rw [hk]; rfl)
      refine ⟨this.1, this.2, .inr ⟨hk, fun k' hr he => ?_⟩⟩
      have := List.find?_eq_none.1 hf k' (List.mem_finRange k')
      simp only [decide_eq_true_eq] at this
      exact this ⟨hr, he⟩
    · cases h

theorem ilock_same (h : s.ilock k = .ok s') :
    blockView.inum s' = blockView.inum s ∧ blockView.ref s' = blockView.ref s := by
  unfold Blocks.ilock at h
  dsimp only at h
  split at h
  · cases h
  split at h
  · cases h
  split at h
  · cases h
    exact ⟨rfl, rfl⟩
  split at h
  · cases h
  · cases h
    exact blockView_same (d := s.disk) .rfl

theorem iput_ref (h : s.iput k = .ok s') : blockView.inum s' = blockView.inum s ∧
    blockView.ref s' = Function.update (blockView.ref s) k (blockView.ref s k - 1) := by
  unfold Blocks.iput at h
  dsimp only at h
  split at h
  · cases h
  split at h
  · cases h
  split at h
  · obtain ⟨⟨ip, d⟩, h₁, h⟩ := bind_eq_ok.1 h
    cases h
    have hs := freeInode_same h₁
    exact blockView_ref (d := d) hs.1 (congrArg (· - 1) hs.2)
  · cases h
    exact blockView_ref (d := s.disk) rfl rfl

/-- **The inode cache counts references.** -/
theorem blockLayer_counts : Counts (blockLayer sb devsw) blockView where
  iget h := got_iget h
  ialloc {s type k s'} h := by
    have h : s.ialloc sb type = .ok (k, s') := h
    unfold Blocks.ialloc at h
    split at h
    · cases h
    · exact ⟨_, (got_iget h).inum, (got_iget h).ref, (got_iget h).slot⟩
  idup {s k r s'} h := by
    obtain ⟨s₁, h₁, h⟩ := bind_eq_ok.1 h
    cases h
    unfold Blocks.idup at h₁
    split at h₁
    · cases h₁
    · rename_i hk
      cases h₁
      exact ⟨by show 0 < (s.icache k).ref; omega, blockView_ref (d := s.disk) rfl rfl⟩
  iput h := by
    obtain ⟨s₁, h₁, h⟩ := bind_eq_ok.1 h
    cases h
    exact iput_ref h₁
  ilock h := by
    obtain ⟨s₁, h₁, h⟩ := bind_eq_ok.1 h
    cases h
    exact ilock_same h₁
  iunlock h := by
    obtain ⟨s₁, h₁, h⟩ := bind_eq_ok.1 h
    cases h
    rw [iunlock_ok h₁]
    exact ⟨rfl, rfl⟩
  fields h := by
    obtain ⟨ip, -, h⟩ := bind_eq_ok.1 h
    cases h
    exact ⟨rfl, rfl⟩
  iupdate h := by
    obtain ⟨ip, h₁, h⟩ := bind_eq_ok.1 h
    cases h
    obtain ⟨rfl, -⟩ := locked_ok h₁
    exact blockView_same .rfl
  readi h := by
    obtain ⟨ip, h₁, h⟩ := bind_eq_ok.1 h
    obtain ⟨⟨r, ip', d⟩, h₂, h⟩ := bind_eq_ok.1 h
    cases h
    obtain ⟨rfl, -⟩ := locked_ok h₁
    exact blockView_same (readi_same h₂)
  writei h := by
    obtain ⟨ip, h₁, h⟩ := bind_eq_ok.1 h
    obtain ⟨⟨r, ip', d⟩, h₂, h⟩ := bind_eq_ok.1 h
    cases h
    obtain ⟨rfl, -⟩ := locked_ok h₁
    exact blockView_same (writei_same h₂)

end cache

end Xv6.Fs
