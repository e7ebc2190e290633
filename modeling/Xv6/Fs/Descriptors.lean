import Xv6.Fs.Refs
import Mathlib.Algebra.BigOperators.Fin
import Mathlib.Data.List.ReduceOption

/-!
# Descriptors, files and pipes

The references to open files, and the system calls that take and give them up.
-/

namespace Xv6.Fs

open Lib Finset

/-! ### Open files -/

section files

def descriptors (i : Fin NFILE) : Option Proc → ℕ
  | none => 0
  | some pr => ∑ fd, if pr.ofile fd = some i then 1 else 0

def Files.fds (f : Files) (i : Fin NFILE) : ℕ := ∑ p, descriptors i (f.proc p)

theorem Files.fds_setProc (f : Files) (p : Fin NPROC) (x : Option Proc) (i : Fin NFILE) :
    (f.setProc p x).fds i + descriptors i (f.proc p) = f.fds i + descriptors i x :=
  sum_update (descriptors i) f.proc p x

theorem descriptors_update (pr : Proc) (fd : Fin NOFILE) (x : Option (Fin NFILE)) (i : Fin NFILE) :
    descriptors i (some { pr with ofile := Function.update pr.ofile fd x }) +
        (if pr.ofile fd = some i then 1 else 0) =
      descriptors i (some pr) + if x = some i then 1 else 0 :=
  sum_update (fun y => if y = some i then 1 else 0) pr.ofile fd x

variable {f f' : Files} {m : List (Fin NFILE)} {i : Fin NFILE} {p : Fin NPROC} {pr pr' : Proc} {x : File}

/-- The references to open files are counted; the code holds `m` besides. -/
structure Held (f : Files) (m : List (Fin NFILE)) : Prop where
  ref : ∀ i, (f.file i).ref = f.fds i + m.count i
  closed : ∀ i, (f.file i).ref = 0 → (f.file i).type = .none

/-- The file is an end of the pipe in the page `a`: the one to write to, or the one to read from. -/
def File.IsEnd (x : File) (a : Word) (w : Bool) : Prop :=
  0 < x.ref ∧ x.type = .pipe ∧ x.pipe = a ∧ x.writable = w

/-- The end of a pipe is open. -/
def pipeOpen (x : Option Pipe) (w : Bool) : Bool :=
  match x with
  | none => false
  | some x => if w then x.writeopen else x.readopen

/-- An end of a pipe is open as long as there is a file for it, and the pipe is there as long as one
of its ends is open. -/
structure Piped (f : Files) : Prop where
  ends : ∀ a w, pipeOpen (f.pipe a) w = true ↔ ∃ i, (f.file i).IsEnd a w
  kept : ∀ a, (f.pipe a).isSome = true → ∃ w, pipeOpen (f.pipe a) w = true
  once : ∀ {a w i j}, (f.file i).IsEnd a w → (f.file j).IsEnd a w → i = j

theorem Files.setFile_self (f : Files) (i : Fin NFILE) (x : File) : (f.setFile i x).file i = x :=
  Function.update_self ..

theorem Files.setFile_of_ne (f : Files) {i j : Fin NFILE} (x : File) (h : j ≠ i) :
    (f.setFile i x).file j = f.file j := Function.update_of_ne h ..

theorem Files.setProc_self (f : Files) (p : Fin NPROC) (x : Option Proc) : (f.setProc p x).proc p = x :=
  Function.update_self ..

theorem Piped.setFile (hp : Piped f) (h : ∀ a w, x.IsEnd a w ↔ (f.file i).IsEnd a w) :
    Piped (f.setFile i x) := by
  have hall : ∀ j a w, ((f.setFile i x).file j).IsEnd a w ↔ (f.file j).IsEnd a w := by
    intro j a w
    by_cases hj : j = i
    · rw [hj, Files.setFile_self, h]
    · rw [Files.setFile_of_ne f x hj]
  refine ⟨fun a w => (hp.ends a w).trans ?_, hp.kept, fun {a w j j'} hj hj' => ?_⟩
  · simp only [hall]
  · exact hp.once ((hall ..).1 hj) ((hall ..).1 hj')

/-- Set a file: the count may change by what the code holds. -/
theorem Held.setFile (hh : Held f m) {m' : List (Fin NFILE)}
    (hr : x.ref + m.count i = (f.file i).ref + m'.count i)
    (hm : ∀ j, j ≠ i → m'.count j = m.count j) (hx : x.ref = 0 → x.type = .none) :
    Held (f.setFile i x) m' := by
  refine ⟨fun j => ?_, fun j => ?_⟩
  · have hfds : (f.setFile i x).fds j = f.fds j := rfl
    by_cases hj : j = i
    · have := hh.ref j
      rw [hj] at this
      rw [hfds, hj, Files.setFile_self]
      omega
    · rw [hfds, Files.setFile_of_ne f x hj, hh.ref, hm j hj]
  · by_cases hj : j = i
    · rw [hj, Files.setFile_self]
      exact hx
    · rw [Files.setFile_of_ne f x hj]
      exact hh.closed j

/-- Set a process: a reference that the code holds may become a descriptor. -/
theorem Held.setProc (hh : Held f m) {m' : List (Fin NFILE)} {y : Option Proc}
    (h : ∀ i, descriptors i y + m'.count i = descriptors i (f.proc p) + m.count i) :
    Held (f.setProc p y) m' := by
  refine ⟨fun i => ?_, hh.closed⟩
  have h₁ := f.fds_setProc p y i
  have h₂ := h i
  have h₃ : ((f.setProc p y).file i).ref = _ := hh.ref i
  rw [h₃]
  omega

theorem count_cons' (m : List (Fin NFILE)) (i j : Fin NFILE) :
    (i :: m).count j = m.count j + if i = j then 1 else 0 := by
  rw [List.count_cons]
  simp

theorem Held.fdalloc {fd : Fin NOFILE} (hh : Held f (i :: m)) (hp : f.proc p = some pr)
    (h : fdalloc pr i = some (fd, pr')) : Held (f.setProc p (some pr')) m := by
  unfold Fs.fdalloc at h
  split at h
  · cases h
  · rename_i fd' hfd
    cases h
    have hnone : pr.ofile fd = none := by simpa using List.find?_some hfd
    refine hh.setProc fun j => ?_
    have := descriptors_update pr fd (some i) j
    simp only [hnone, reduceCtorEq, if_false, Option.some.injEq] at this
    rw [hp, count_cons']
    omega

/-- A descriptor that is closed is a reference of the code. -/
theorem Held.release {fd : Fin NOFILE} (hh : Held f m) (hp : f.proc p = some pr)
    (hfd : pr.ofile fd = some i) :
    Held (f.setProc p (some { pr with ofile := Function.update pr.ofile fd none })) (i :: m) := by
  refine hh.setProc fun j => ?_
  have := descriptors_update pr fd none j
  simp only [hfd, reduceCtorEq, if_false, Option.some.injEq] at this
  rw [hp, count_cons']
  omega

theorem fdalloc_cwd {fd : Fin NOFILE} (h : fdalloc pr i = some (fd, pr')) : pr'.cwd = pr.cwd := by
  unfold fdalloc at h
  split at h <;> cases h
  rfl

/-- A process in the same directory does not change the uses. -/
theorem Files.uses_cwd (hp : f.proc p = some pr) (h : pr'.cwd = pr.cwd) (k : Slot) :
    (f.setProc p (some pr')).uses k = f.uses k := by
  have := f.uses_setProc p (some pr') k
  have he : inDir k (some pr') = inDir k (some pr) := by simp only [inDir, h]
  rw [hp, he] at this
  omega

end files

/-! ### Files and inodes -/

section counted

variable {σ : Type} {v : View σ} {L : Layer Act Ans Panic Fault σ} {f f' : Files}
  {m m' : List (Fin NFILE)} {l l' : List Slot} {s : σ} {i : Fin NFILE} {p : Fin NPROC} {pr pr' : Proc}

/-- All references are counted; the code holds `m` and `l` besides. -/
structure Counted (v : View σ) (f : Files) (m : List (Fin NFILE)) (l : List Slot) (s : σ) : Prop where
  held : Held f m
  piped : Piped f
  inodes : Balanced v f l s

theorem After.counted {α : Type} {c : Code α} {l' : α → List Slot}
    (h : Cmd.After L (Balanced v f l) c fun x => Balanced v f (l' x)) :
    Cmd.After L (Counted v f m l) c fun x => Counted v f m (l' x) :=
  .of_ok fun _ _ _ hc hr => ⟨hc.held, hc.piped, h.ok hc.inodes hr⟩

/-- What is left to say of other files: who refers to them, and what they refer to. -/
theorem Counted.files (hc : Counted v f m l s) (hh : Held f' m') (hp : Piped f')
    (h : ∀ k, f'.uses k + l'.count k = f.uses k + l.count k) : Counted v f' m' l' s :=
  ⟨hh, hp, hc.inodes.files h⟩

theorem Counted.perm (hc : Counted v f m l s) (h : m.Perm m') : Counted v f m' l s :=
  ⟨⟨fun i => by rw [hc.held.ref, h.count_eq], hc.held.closed⟩, hc.piped, hc.inodes⟩

theorem Counted.setFile (hc : Counted v f m l s) {x : File}
    (hr : x.ref + m.count i = (f.file i).ref + m'.count i)
    (hm : ∀ j, j ≠ i → m'.count j = m.count j) (hx : x.ref = 0 → x.type = .none)
    (ho : ∀ k, onInode k x + l'.count k = onInode k (f.file i) + l.count k)
    (he : ∀ a w, x.IsEnd a w ↔ (f.file i).IsEnd a w) : Counted v (f.setFile i x) m' l' s := by
  refine hc.files (hc.held.setFile hr hm hx) (hc.piped.setFile he) fun k => ?_
  have h₁ := f.uses_setFile i x k
  have h₂ := ho k
  omega

/-- Set a file that is open on the same inode, or an end of the same pipe, as before. -/
theorem Counted.setRef (hc : Counted v f m l s) {x : File}
    (hr : x.ref + m.count i = (f.file i).ref + m'.count i)
    (hm : ∀ j, j ≠ i → m'.count j = m.count j) (hpos : 0 < x.ref) (hpos' : 0 < (f.file i).ref)
    (hx : x.type = (f.file i).type ∧ x.ip = (f.file i).ip ∧ x.pipe = (f.file i).pipe ∧
      x.writable = (f.file i).writable) : Counted v (f.setFile i x) m' l s := by
  obtain ⟨ht, hi, hp, hw⟩ := hx
  refine hc.setFile hr hm (fun h => absurd h hpos.ne') (fun k => ?_) fun a w => ?_
  · unfold onInode
    simp only [ht, hi, hpos, hpos', true_and]
  · unfold File.IsEnd
    simp only [ht, hp, hw, hpos, hpos', true_and]

theorem onInode_of_ne {x : File} (ht : x.type ≠ .inode) (k : Slot) : onInode k x = 0 :=
  if_neg fun h => ht h.2.1

theorem not_isEnd {x : File} (ht : x.type ≠ .pipe) (a : Word) (w : Bool) : ¬ x.IsEnd a w :=
  fun h => ht h.2.1

theorem Counted.setNone (hc : Counted v f m l s) {x : File}
    (hr : x.ref + m.count i = (f.file i).ref + m'.count i)
    (hm : ∀ j, j ≠ i → m'.count j = m.count j) (ht : x.type = .none) (ht' : (f.file i).type = .none) :
    Counted v (f.setFile i x) m' l s := by
  have hne : ∀ {y : File}, y.type = .none → y.type ≠ .inode ∧ y.type ≠ .pipe := fun h => by
    rw [h]
    exact ⟨nofun, nofun⟩
  refine hc.setFile hr hm (fun _ => ht) (fun k => ?_) fun a w => ?_
  · rw [onInode_of_ne (hne ht).1, onInode_of_ne (hne ht').1]
  · exact iff_of_false (not_isEnd (hne ht).2 a w) (not_isEnd (hne ht').2 a w)

theorem Counted.filealloc (hc : Counted v f m l s) (h : f.filealloc = some (i, f')) :
    Counted v f' (i :: m) l s ∧ (f.file i).ref = 0 ∧ ((f'.file i).type = .none ∧
      ∀ j, j ≠ i → f'.file j = f.file j) ∧ f'.proc = f.proc ∧ f'.pipe = f.pipe := by
  unfold Files.filealloc at h
  split at h
  · cases h
  · rename_i j hj
    cases h
    have href : (f.file i).ref = 0 := by simpa using List.find?_some hj
    have ht := hc.held.closed i href
    refine ⟨hc.setNone ?_ (fun j hj => List.count_cons_of_ne (Ne.symm hj)) ht ht, href, ⟨?_, ?_⟩, rfl,
      rfl⟩
    · rw [href, List.count_cons_self]
      push_cast
      omega
    · rw [Files.setFile_self, ht]
    · exact fun j hj => Files.setFile_of_ne f _ hj

theorem Counted.filedup (hc : Counted v f m l s) (hr : 1 ≤ (f.file i).ref) :
    Counted v (f.setFile i { f.file i with ref := (f.file i).ref + 1 }) (i :: m) l s := by
  refine hc.setRef ?_ (fun j hj => List.count_cons_of_ne (Ne.symm hj)) ?_ (by omega) ⟨rfl, rfl, rfl, rfl⟩
  · rw [List.count_cons_self]
    push_cast
    omega
  · show 0 < (f.file i).ref + 1
    omega

theorem Counted.setOff (hc : Counted v f m l s) (i : Fin NFILE) (off : Word) :
    Counted v (f.setFile i { f.file i with off := off }) m l s :=
  hc.setFile rfl (fun _ _ => rfl) (hc.held.closed i) (fun _ => rfl) fun _ _ => Iff.rfl

theorem Counted.fdalloc {fd : Fin NOFILE} (hc : Counted v f (i :: m) l s) (hp : f.proc p = some pr)
    (h : fdalloc pr i = some (fd, pr')) : Counted v (f.setProc p (some pr')) m l s := by
  refine hc.files (hc.held.fdalloc hp h) ⟨hc.piped.ends, hc.piped.kept, hc.piped.once⟩ fun k => ?_
  rw [Files.uses_cwd hp (fdalloc_cwd h)]

theorem Counted.release {fd : Fin NOFILE} (hc : Counted v f m l s) (hp : f.proc p = some pr)
    (hfd : pr.ofile fd = some i) :
    Counted v (f.setProc p (some { pr with ofile := Function.update pr.ofile fd none })) (i :: m) l s := by
  refine hc.files (hc.held.release hp hfd) ⟨hc.piped.ends, hc.piped.kept, hc.piped.once⟩ fun k => ?_
  have hcwd : ({ pr with ofile := Function.update pr.ofile fd none } : Proc).cwd = pr.cwd := rfl
  rw [Files.uses_cwd hp hcwd]

theorem Held.pos (hh : Held f (i :: m)) : 0 < (f.file i).ref := by
  rw [hh.ref, List.count_cons_self]
  omega

theorem Counted.openInode {x : File} {ip : Slot} (hc : Counted v f m (ip :: l) s)
    (ht : (f.file i).type = .none) (hpos : 0 < (f.file i).ref) (hr : x.ref = (f.file i).ref)
    (hx : x.type = .inode) (hip : x.ip = ip) : Counted v (f.setFile i x) m l s := by
  have hne : (f.file i).type ≠ .inode ∧ (f.file i).type ≠ .pipe := by
    rw [ht]
    exact ⟨nofun, nofun⟩
  refine hc.setFile (by rw [hr]) (fun _ _ => rfl) (fun h => absurd (hr.symm.trans h) hpos.ne')
    (fun k => ?_) fun a w => ?_
  · rw [onInode_of_ne hne.1, List.count_cons]
    unfold onInode
    simp only [hx, hip, hr, hpos, true_and, beq_iff_eq]
    omega
  · refine iff_of_false (not_isEnd ?_ a w) (not_isEnd hne.2 a w)
    rw [hx]
    exact nofun

theorem pipeclose_some {a : Word} {y : Pipe} (h : f.pipe a = some y) (w : Bool) :
    ∃ z, Code.pipeclose f a w = pure (f.setPipe a z) ∧
      (∀ w', pipeOpen z w' = true ↔ w' ≠ w ∧ pipeOpen (some y) w' = true) ∧
      (z.isSome = true → ∃ w', pipeOpen z w' = true) := by
  unfold Code.pipeclose
  rw [h]
  refine ⟨_, rfl, ?_⟩
  clear h
  obtain ⟨ro, wo⟩ := y
  revert ro wo w
  decide

theorem Piped.close {x : File} {a : Word} {w : Bool} {z : Option Pipe} (hp : Piped f)
    (hi : (f.file i).IsEnd a w) (hx : x.type = .none)
    (hz : ∀ w', pipeOpen z w' = true ↔ w' ≠ w ∧ pipeOpen (f.pipe a) w' = true)
    (hk : z.isSome = true → ∃ w', pipeOpen z w' = true) : Piped ((f.setFile i x).setPipe a z) := by
  have hend : ∀ j a' w', ((f.setFile i x).file j).IsEnd a' w' ↔ j ≠ i ∧ (f.file j).IsEnd a' w' := by
    intro j a' w'
    by_cases hj : j = i
    · rw [hj, Files.setFile_self]
      exact iff_of_false (not_isEnd (by rw [hx]; exact nofun) a' w') fun h => h.1 rfl
    · rw [Files.setFile_of_ne f x hj]
      exact (and_iff_right hj).symm
  refine ⟨fun a' w' => ?_, fun a' => ?_, fun {a' w' j j'} hj hj' => ?_⟩
  · show pipeOpen (Function.update f.pipe a z a') w' = true ↔
      ∃ j, ((f.setFile i x).file j).IsEnd a' w'
    simp only [hend]
    by_cases ha : a' = a
    · rw [ha, Function.update_self, hz, hp.ends]
      constructor
      · rintro ⟨hw, j, hj⟩
        refine ⟨j, fun he => hw ?_, hj⟩
        rw [he] at hj
        exact hj.2.2.2.symm.trans hi.2.2.2
      · rintro ⟨j, hne, hj⟩
        refine ⟨fun hw => hne (hp.once (hw ▸ hj) hi), j, hj⟩
    · rw [Function.update_of_ne ha, hp.ends]
      refine exists_congr fun j => (and_iff_right_of_imp fun hj he => ha ?_).symm
      rw [he] at hj
      exact hj.2.2.1.symm.trans hi.2.2.1
  · show (Function.update f.pipe a z a').isSome = true → _
    by_cases ha : a' = a
    · rw [ha, Function.update_self]
      intro h
      obtain ⟨w', hw⟩ := hk h
      exact ⟨w', by show pipeOpen (Function.update f.pipe a z a) w' = true; rw [Function.update_self, hw]⟩
    · rw [Function.update_of_ne ha]
      intro h
      obtain ⟨w', hw⟩ := hp.kept a' h
      exact ⟨w', by
        show pipeOpen (Function.update f.pipe a z a') w' = true
        rw [Function.update_of_ne ha, hw]⟩
  · exact hp.once ((hend ..).1 hj).2 ((hend ..).1 hj').2

theorem Counted.shut {x : File} (hc : Counted v f (i :: m) l s) (hone : (f.file i).ref = 1)
    (hr : x.ref = 0) (ht : x.type = .none) : Held (f.setFile i x) m ∧
      ∀ k, (f.setFile i x).uses k + onInode k (f.file i) = f.uses k := by
  refine ⟨hc.held.setFile ?_ (fun j hj => (List.count_cons_of_ne (Ne.symm hj)).symm) fun _ => ht,
    fun k => ?_⟩
  · rw [List.count_cons_self, hr, hone]
    push_cast
    omega
  · have hx : onInode k x = 0 := onInode_of_ne (by rw [ht]; exact nofun) k
    rw [f.uses_setFile, hx, Nat.add_zero]

theorem after_pipeclose {x : File} (hone : (f.file i).ref = 1) (hpipe : (f.file i).type = .pipe)
    (hr : x.ref = 0) (ht : x.type = .none) :
    Cmd.After L (Counted v f (i :: m) l)
      (Code.pipeclose (f.setFile i x) (f.file i).pipe (f.file i).writable) fun f' =>
        Counted v f' m l := by
  refine .of_ok fun s f' s' hc h => ?_
  have hi : (f.file i).IsEnd (f.file i).pipe (f.file i).writable := ⟨by omega, hpipe, rfl, rfl⟩
  have hopen := (hc.piped.ends _ _).2 ⟨i, hi⟩
  cases hy : f.pipe (f.file i).pipe with
  | none =>
    rw [hy] at hopen
    cases hopen
  | some y =>
    obtain ⟨z, hz, hends, hkept⟩ := pipeclose_some (f := f.setFile i x) hy (f.file i).writable
    rw [hz] at h
    cases h
    obtain ⟨hh, hu⟩ := hc.shut hone hr ht
    refine hc.files ⟨hh.ref, hh.closed⟩ (hc.piped.close hi ht (by rw [hy]; exact hends) hkept)
      fun k => ?_
    have hu := hu k
    rw [onInode_of_ne (by rw [hpipe]; exact nofun)] at hu
    have huses : ((f.setFile i x).setPipe (f.file i).pipe z).uses k = (f.setFile i x).uses k := rfl
    rw [huses]
    omega

theorem after_closeInode (hL : Counts L v) {x : File} (hone : (f.file i).ref = 1)
    (hi : (f.file i).type = .inode) (hr : x.ref = 0) (ht : x.type = .none) :
    Cmd.After L (Counted v f (i :: m) l)
      (do Code.iput (f.file i).ip; pure (f.setFile i x)) fun f' => Counted v f' m l := by
  refine Cmd.After.bind (Q := fun _ => Counted v (f.setFile i x) m l) ?_ fun _ => .pure fun _ => id
  refine (After.counted (after_iput hL _)).weaken (fun s hc => ?_) fun _ _ => id
  obtain ⟨hh, hu⟩ := hc.shut hone hr ht
  refine hc.files hh (hc.piped.setFile fun a w => ?_) fun k => ?_
  · exact iff_of_false (fun h => nomatch ht.symm.trans h.2.1) fun h => nomatch hi.symm.trans h.2.1
  · have hk : onInode k (f.file i) = if (f.file i).ip = k then 1 else 0 := by
      unfold onInode
      simp only [hi, hone, Int.one_pos, true_and]
    have hu := hu k
    rw [hk] at hu
    rw [List.count_cons]
    simp only [beq_iff_eq]
    omega

theorem after_fileclose (hL : Counts L v) (i : Fin NFILE) :
    Cmd.After L (Counted v f (i :: m) l) (Code.fileclose f i) fun f' => Counted v f' m l := by
  unfold Code.fileclose
  dsimp only
  refine .ite (fun _ => .stop) fun h₁ => .ite (fun h₂ => .pure fun s hc => ?_) fun h₂ => ?_
  · refine hc.setRef ?_ (fun j hj => (List.count_cons_of_ne (Ne.symm hj)).symm) (by exact h₂) (by omega)
      ⟨rfl, rfl, rfl, rfl⟩
    rw [List.count_cons_self]
    push_cast
    omega
  have hone : (f.file i).ref = 1 := by omega
  cases ht : (f.file i).type with
  | none =>
    refine .pure fun s hc => ?_
    refine hc.setNone ?_ (fun j hj => (List.count_cons_of_ne (Ne.symm hj)).symm) rfl ht
    rw [List.count_cons_self, hone]
    push_cast
    omega
  | pipe => exact after_pipeclose hone ht rfl rfl
  | inode => exact after_closeInode hL hone ht rfl rfl

theorem Piped.open {j : Fin NFILE} {a : Word} {x y : File} (hp : Piped f) (ha : f.pipe a = none)
    (hij : i ≠ j) (hi : (f.file i).type = .none) (hj : (f.file j).type = .none) (hx : x.IsEnd a false)
    (hy : y.IsEnd a true) :
    Piped (((f.setPipe a (some ⟨true, true⟩)).setFile i x).setFile j y) := by
  obtain ⟨f', hf⟩ : ∃ f', f' = ((f.setPipe a (some ⟨true, true⟩)).setFile i x).setFile j y := ⟨_, rfl⟩
  have hfi : f'.file i = x := by
    rw [hf, Files.setFile_of_ne _ _ hij, Files.setFile_self]
  have hfj : f'.file j = y := by
    rw [hf, Files.setFile_self]
  have hfn : ∀ n, n ≠ i → n ≠ j → f'.file n = f.file n := by
    intro n hni hnj
    rw [hf, Files.setFile_of_ne _ _ hnj, Files.setFile_of_ne _ _ hni]
    rfl
  have hpa : f'.pipe a = some ⟨true, true⟩ := by
    rw [hf]
    exact Function.update_self ..
  have hpn : ∀ a', a' ≠ a → f'.pipe a' = f.pipe a' := by
    intro a' h
    rw [hf]
    exact Function.update_of_ne h ..
  have hno : ∀ n w, ¬ (f.file n).IsEnd a w := by
    intro n w h
    have := (hp.ends a w).2 ⟨n, h⟩
    rw [ha] at this
    cases this
  -- the ends of the new pipe, and those that there were
  have hnew : ∀ {n w}, (f'.file n).IsEnd a w → n = if w then j else i := by
    intro n w h
    by_cases hni : n = i
    · rw [hni, hfi] at h
      rw [hni, h.2.2.2.symm.trans hx.2.2.2, if_neg nofun]
    · by_cases hnj : n = j
      · rw [hnj, hfj] at h
        rw [hnj, h.2.2.2.symm.trans hy.2.2.2, if_pos rfl]
      · rw [hfn n hni hnj] at h
        exact absurd h (hno n w)
  have hold : ∀ {n a' w}, a' ≠ a → ((f'.file n).IsEnd a' w ↔ (f.file n).IsEnd a' w) := by
    intro n a' w hne
    by_cases hni : n = i
    · rw [hni, hfi]
      exact iff_of_false (fun h => hne (h.2.2.1.symm.trans hx.2.2.1)) fun h => nomatch hi.symm.trans h.2.1
    · by_cases hnj : n = j
      · rw [hnj, hfj]
        exact iff_of_false (fun h => hne (h.2.2.1.symm.trans hy.2.2.1)) fun h =>
          nomatch hj.symm.trans h.2.1
      · rw [hfn n hni hnj]
  rw [← hf]
  refine ⟨fun a' w => ?_, fun a' => ?_, fun {a' w n n'} hn hn' => ?_⟩
  · by_cases h : a' = a
    · rw [h, hpa]
      cases w with
      | false => exact iff_of_true rfl ⟨i, hfi ▸ hx⟩
      | true => exact iff_of_true rfl ⟨j, hfj ▸ hy⟩
    · rw [hpn a' h, hp.ends]
      simp only [hold h]
  · by_cases h : a' = a
    · rw [h, hpa]
      exact fun _ => ⟨true, rfl⟩
    · rw [hpn a' h]
      exact hp.kept a'
  · by_cases h : a' = a
    · rw [h] at hn hn'
      exact (hnew hn).trans (hnew hn').symm
    · exact hp.once ((hold h).1 hn) ((hold h).1 hn')

/-- The two files that `pipealloc` has taken become the ends of a pipe. -/
theorem Counted.pipe {j : Fin NFILE} {a : Word} {x y : File} (hc : Counted v f m l s)
    (ha : f.pipe a = none) (hij : i ≠ j) (hi : (f.file i).type = .none) (hj : (f.file j).type = .none)
    (hri : x.ref = (f.file i).ref) (hrj : y.ref = (f.file j).ref) (hx : x.IsEnd a false)
    (hy : y.IsEnd a true) :
    Counted v (((f.setPipe a (some ⟨true, true⟩)).setFile i x).setFile j y) m l s := by
  have hne : ∀ {z : File} {k}, z.type ≠ .inode → onInode k z = 0 := fun h => onInode_of_ne h _
  have hxi : x.type ≠ .inode := fun h => nomatch hx.2.1.symm.trans h
  have hyi : y.type ≠ .inode := fun h => nomatch hy.2.1.symm.trans h
  have h₁ : Held (f.setFile i x) m :=
    hc.held.setFile (by rw [hri]) (fun _ _ => rfl) fun h => absurd h hx.1.ne'
  have hfj : (f.setFile i x).file j = f.file j := Files.setFile_of_ne f x hij.symm
  have h₂ : Held ((f.setFile i x).setFile j y) m :=
    h₁.setFile (by rw [hrj, hfj]) (fun _ _ => rfl) fun h => absurd h hy.1.ne'
  refine hc.files ⟨h₂.ref, h₂.closed⟩ (hc.piped.open ha hij hi hj hx hy) fun k => ?_
  have hu₁ := f.uses_setFile i x k
  have hu₂ := (f.setFile i x).uses_setFile j y k
  rw [hne hxi, hne (by rw [hi]; exact nofun)] at hu₁
  rw [hne hyi, hfj, hne (by rw [hj]; exact nofun)] at hu₂
  have huses : (((f.setPipe a (some ⟨true, true⟩)).setFile i x).setFile j y).uses k =
      ((f.setFile i x).setFile j y).uses k := rfl
  rw [huses]
  omega

theorem after_pipealloc (hL : Counts L v) {page : Option Word} (hpage : ∀ a ∈ page, f.pipe a = none) :
    Cmd.After L (Counted v f m l) (Code.pipealloc f page) fun r s =>
      match r.2 with
      | none => Counted v r.1 m l s
      | some (i, j) => Counted v r.1 (i :: j :: m) l s ∧ r.1.proc = f.proc := by
  unfold Code.pipealloc
  cases ha : f.filealloc with
  | none => exact .pure fun s => id
  | some r =>
    obtain ⟨i, f₁⟩ := r
    dsimp only
    cases hb : f₁.filealloc with
    | none =>
      refine Cmd.After.bind ?_ fun f' => .pure fun _ => id
      exact (after_fileclose hL i).weaken (fun s hc => (hc.filealloc ha).1) fun _ _ => id
    | some r =>
      obtain ⟨j, f₂⟩ := r
      have hboth : ∀ s, Counted v f m l s → Counted v f₂ (i :: j :: m) l s := fun s hc =>
        ((hc.filealloc ha).1.filealloc hb).1.perm (.swap ..)
      cases page with
      | none =>
        refine Cmd.After.bind ((after_fileclose hL i).weaken hboth fun _ _ => id) fun f' => ?_
        exact (after_fileclose hL j).bind fun f' => .pure fun _ => id
      | some a =>
        refine .pure fun s hc => ?_
        obtain ⟨hc₁, -, ⟨hti, -⟩, hpr₁, hpi₁⟩ := hc.filealloc ha
        obtain ⟨hc₂, hrj, ⟨htj, hrest⟩, hpr₂, hpi₂⟩ := hc₁.filealloc hb
        have hij : i ≠ j := fun he => by
          have := hc₁.held.pos
          rw [he, hrj] at this
          exact absurd this (lt_irrefl 0)
        have hi : (f₂.file i).type = .none := by rw [hrest i hij, hti]
        have hpos : 0 < (f₂.file i).ref := (hboth s hc).held.pos
        have hfj : ∀ x, ((f₂.setPipe a (some ⟨true, true⟩)).setFile i x).file j = f₂.file j := fun x =>
          Files.setFile_of_ne _ _ hij.symm
        refine ⟨(hboth s hc).pipe ?_ hij hi htj rfl ?_ ⟨hpos, rfl, rfl, rfl⟩ ⟨?_, rfl, rfl, rfl⟩, ?_⟩
        · rw [hpi₂, hpi₁]
          exact hpage a rfl
        · show (((f₂.setPipe a (some ⟨true, true⟩)).setFile i _).file j).ref = _
          rw [hfj]
        · show 0 < (((f₂.setPipe a (some ⟨true, true⟩)).setFile i _).file j).ref
          rw [hfj]
          exact hc₂.held.pos
        · exact hpr₂.trans hpr₁

/-! ### System calls on files -/

section calls

variable {g : Fin NPROC → Option Proc} (hL : Counts L v)

include hL

theorem after_fileread (i : Fin NFILE) (n got : Word) :
    Cmd.After L (Counted v f m l) (Code.fileread f i n got) fun r => Counted v r.1 m l := by
  refine .ite (fun _ => .pure fun _ => id) fun _ => ?_
  split
  · exact .pure fun _ => id
  · refine (After.counted (after_ilock hL _)).bind fun _ => ?_
    refine (After.counted (after_readi hL _ _ _)).bind fun r => ?_
    refine (After.counted (after_iunlock hL _)).bind fun _ => ?_
    cases r with
    | fail => exact .pure fun _ => id
    | device => exact .ite (fun _ => .pure fun _ hc => hc.setOff i _) fun _ => .pure fun _ => id
    | done bytes => exact .pure fun _ hc => hc.setOff i _
  · exact .stop

theorem after_writeLoop (ip : Slot) (src : ℕ → Byte) (n fuel w : ℕ) (off : Word) :
    Cmd.After L (Balanced v f l) (Code.writeLoop ip src n fuel w off) fun _ => Balanced v f l := by
  induction fuel generalizing w off with
  | zero => exact .stop
  | succ fuel ih =>
    refine .ite (fun _ => ?_) fun _ => .pure fun _ => id
    refine (after_ilock hL ip).bind fun _ => (after_writei hL ip _ _ _).bind fun r => ?_
    refine (after_iunlock hL ip).bind fun _ => ?_
    cases r with
    | fail => exact .pure fun _ => id
    | device => exact ih _ _
    | done k => exact .ite (fun _ => .stop) fun _ => ih _ _

theorem after_filewrite (i : Fin NFILE) (src : ℕ → Byte) (n got : Word) :
    Cmd.After L (Counted v f m l) (Code.filewrite f i src n got) fun r => Counted v r.1 m l := by
  refine .ite (fun _ => .pure fun _ => id) fun _ => ?_
  split
  · exact .pure fun _ => id
  · refine (After.counted (after_writeLoop hL _ src _ _ _ _)).bind fun r => ?_
    exact .pure fun _ hc => hc.setOff i _
  · exact .stop

theorem after_openAt (hp : f.proc p = some pr) (ip : Slot) (omode : Word) :
    Cmd.After L (Counted v f m (ip :: l)) (Code.openAt f p pr ip omode) fun r => Counted v r.1 m l := by
  unfold Code.openAt
  cases ha : f.filealloc with
  | none => exact (After.counted (after_iunlockput hL ip)).bind fun _ => .pure fun _ => id
  | some r =>
    obtain ⟨i, f₁⟩ := r
    dsimp only
    cases hf : fdalloc pr i with
    | none =>
      refine Cmd.After.bind (Q := fun f' => Counted v f' m (ip :: l)) ?_ fun f' => ?_
      · exact (after_fileclose hL i).weaken (fun s hc => (hc.filealloc ha).1) fun _ _ => id
      · exact (After.counted (after_iunlockput hL ip)).bind fun _ => .pure fun _ => id
    | some r =>
      refine (After.counted (after_iunlock hL ip)).bind fun _ => .pure fun s hc => ?_
      obtain ⟨hc₁, -, ⟨ht, -⟩, hpr, -⟩ := hc.filealloc ha
      exact (hc₁.fdalloc (by rw [hpr, hp]) hf).openInode ht hc₁.held.pos rfl rfl rfl

theorem after_sysOpen (hp : f.proc p = some pr) (path : List Byte) (omode : Word) :
    Cmd.After L (Counted v f m l) (Code.sysOpen f p pr path omode) fun r => Counted v r.1 m l := by
  refine .ite (fun _ => ?_) fun _ => ?_
  · refine (After.counted (after_create hL pr.cwd path _ _ _)).bind fun r => ?_
    cases r with
    | none => exact .pure fun _ => id
    | some ip => exact after_openAt hL hp ip omode
  · refine (After.counted (after_namei hL pr.cwd path)).bind fun r => ?_
    cases r with
    | none => exact .pure fun _ => id
    | some ip =>
      refine (After.counted (after_ilock hL ip)).bind fun _ => ?_
      refine (After.counted (after_fields hL ip)).bind fun x => ?_
      refine .ite (fun _ => ?_) fun _ => after_openAt hL hp ip omode
      exact (After.counted (after_iunlockput hL ip)).bind fun _ => .pure fun _ => id

omit hL in
theorem argfd_some {fd : Word} {n : Fin NOFILE} (h : argfd pr fd = some (n, i)) :
    pr.ofile n = some i := by
  unfold argfd at h
  split at h
  · rw [Option.map_eq_some_iff] at h
    obtain ⟨j, hj, he⟩ := h
    cases he
    exact hj
  · cases h

omit hL in
theorem after_sysDup (hp : f.proc p = some pr) (fd : Word) :
    Cmd.After L (Counted v f m l) (Code.sysDup f p pr fd) fun r => Counted v r.1 m l := by
  unfold Code.sysDup
  cases argfd pr fd with
  | none => exact .pure fun _ => id
  | some r =>
    obtain ⟨n, i⟩ := r
    dsimp only
    cases hf : fdalloc pr i with
    | none => exact .pure fun _ => id
    | some r =>
      refine Cmd.After.bind (Q := fun f' => Counted v f' m l) ?_ fun _ => .pure fun _ => id
      refine .ite (fun _ => .stop) fun h => .pure fun s hc => ?_
      have h : ¬ (f.file i).ref < 1 := h
      -- the descriptor and the reference are independent of each other
      exact (hc.filedup (by omega)).fdalloc hp hf

theorem after_sysClose (hp : f.proc p = some pr) (fd : Word) :
    Cmd.After L (Counted v f m l) (Code.sysClose f p pr fd) fun r => Counted v r.1 m l := by
  unfold Code.sysClose
  cases ha : argfd pr fd with
  | none => exact .pure fun _ => id
  | some r =>
    obtain ⟨n, i⟩ := r
    refine Cmd.After.bind ?_ fun f' => .pure fun _ => id
    exact (after_fileclose hL i).weaken (fun s hc => hc.release hp (argfd_some ha)) fun _ _ => id

theorem after_sysChdir (hp : f.proc p = some pr) (path : List Byte) :
    Cmd.After L (Counted v f m l) (Code.sysChdir f p pr path) fun r => Counted v r.1 m l := by
  refine (After.counted (after_namei hL pr.cwd path)).bind fun r => ?_
  cases r with
  | none => exact .pure fun _ => id
  | some ip =>
    refine (After.counted (after_ilock hL ip)).bind fun _ => ?_
    refine (After.counted (after_fields hL ip)).bind fun x => ?_
    refine .ite (fun _ => (After.counted (after_iunlockput hL ip)).bind fun _ => .pure fun _ => id) fun _ => ?_
    refine (After.counted (after_iunlock hL ip)).bind fun _ => ?_
    refine Cmd.After.bind (Q := fun _ => Counted v (f.setProc p (some { pr with cwd := ip })) m l) ?_
      fun _ => .pure fun _ => id
    -- the new directory is in use already when the old one is put
    refine (After.counted (after_iput hL pr.cwd)).weaken (fun s hc => ?_) fun _ _ => id
    refine hc.files (hc.held.setProc fun i => ?_) ⟨hc.piped.ends, hc.piped.kept, hc.piped.once⟩
      fun k => ?_
    · rw [hp]
      rfl
    · have := f.uses_setProc p (some { pr with cwd := ip }) k
      rw [hp] at this
      simp only [inDir] at this
      show _ = f.uses k + (ip :: l).count k
      rw [List.count_cons, List.count_cons]
      simp only [beq_iff_eq]
      omega

theorem after_sysPipe (hp : f.proc p = some pr) {page : Option Word}
    (hpage : ∀ a ∈ page, f.pipe a = none) :
    Cmd.After L (Counted v f m l) (Code.sysPipe f p pr page) fun r => Counted v r.1 m l := by
  refine (after_pipealloc hL hpage).bind fun r => ?_
  obtain ⟨f', _ | ⟨i, j⟩⟩ := r
  · exact .pure fun _ => id
  dsimp only
  have hclose : Cmd.After L (fun s => Counted v f' (i :: j :: m) l s ∧ f'.proc = f.proc)
      (do let f ← Code.fileclose f' i; let f ← Code.fileclose f j; pure (f, -1)) fun r =>
        Counted v r.1 m l := by
    refine ((after_fileclose hL i).weaken (fun s hc => hc.1) fun _ _ => id).bind fun f' => ?_
    exact (after_fileclose hL j).bind fun f' => .pure fun _ => id
  cases hi : fdalloc pr i with
  | none => exact hclose
  | some r =>
    obtain ⟨fd, pr₁⟩ := r
    dsimp only
    cases hj : fdalloc pr₁ j with
    | none => exact hclose
    | some r =>
      refine .pure fun s hc => ?_
      obtain ⟨hc, hpr⟩ := hc
      have h₂ := (hc.fdalloc (hpr ▸ hp) hi).fdalloc (Files.setProc_self ..) hj
      unfold Files.setProc at h₂ ⊢
      rwa [Function.update_idem] at h₂

/-! ### `fork` and `exit` -/

omit hL in
theorem after_dupAll (o : List (Option (Fin NFILE))) :
    Cmd.After L (fun s => Counted v f m l s ∧ f.proc = g) (Code.dupAll o f) fun f' s =>
      Counted v f' (o.reduceOption ++ m) l s ∧ f'.proc = g := by
  induction o generalizing f m with
  | nil => exact .pure fun _ => id
  | cons x o ih =>
    cases x with
    | none => exact ih
    | some i =>
      unfold Code.dupAll
      refine Cmd.After.bind (Q := fun f' s => Counted v f' (i :: m) l s ∧ f'.proc = g) ?_ fun f' => ?_
      · exact .ite (fun _ => .stop) fun h => .pure fun s hc => ⟨hc.1.filedup (by omega), hc.2⟩
      · exact ih.weaken (fun _ => id) fun f' s hc => ⟨hc.1.perm List.perm_middle, hc.2⟩

omit hL in
/-- The descriptors of a process are the open files in its table. -/
theorem descriptors_eq (pr : Proc) (i : Fin NFILE) :
    descriptors i (some pr) = ((List.finRange NOFILE).map pr.ofile).reduceOption.count i := by
  show ∑ fd, _ = _
  rw [Fin.sum_univ_def]
  induction List.finRange NOFILE with
  | nil => rfl
  | cons fd l ih =>
    rw [List.map_cons, List.sum_cons, ih, List.map_cons]
    cases pr.ofile fd with
    | none => simp [List.reduceOption_cons_of_none]
    | some j => simp [List.reduceOption_cons_of_some, List.count_cons, Nat.add_comm]

theorem after_fork {np : Fin NPROC} (pr : Proc) (hnp : f.proc np = none) :
    Cmd.After L (Counted v f m l) (Code.fork f pr np) fun r => Counted v r.1 m l := by
  refine Cmd.After.bind ((after_dupAll (g := f.proc) _).weaken (fun s hc => ⟨hc, rfl⟩) fun _ _ => id)
    fun f' => ?_
  refine Cmd.After.bind (Q := fun _ s => Counted v f' (((List.finRange NOFILE).map pr.ofile).reduceOption
    ++ m) (pr.cwd :: l) s ∧ f'.proc = f.proc) ?_ fun _ => .pure fun s hc => ?_
  · exact .of_ok fun s x s' hc hr => ⟨(After.counted (after_idup hL pr.cwd)).ok hc.1 hr, hc.2⟩
  · obtain ⟨hc, hpr⟩ := hc
    have hnp' : f'.proc np = none := by rw [hpr, hnp]
    refine hc.files (hc.held.setProc fun i => ?_) ⟨hc.piped.ends, hc.piped.kept, hc.piped.once⟩
      fun k => ?_
    · rw [hnp', descriptors_eq, List.count_append]
      show _ = 0 + _
      omega
    · have := f'.uses_setProc np (some pr) k
      rw [hnp'] at this
      simp only [inDir] at this
      rw [List.count_cons]
      simp only [beq_iff_eq]
      omega

omit hL in
theorem pipeclose_setProc (f : Files) (p : Fin NPROC) (x : Option Proc) (a : Word) (w : Bool) :
    Code.pipeclose (f.setProc p x) a w = Code.pipeclose f a w >>= fun f => pure (f.setProc p x) := by
  unfold Code.pipeclose
  show (match f.pipe a with | none => _ | some y => _) = (match f.pipe a with | none => _ | some y => _) >>= _
  cases f.pipe a <;> rfl

omit hL in
theorem fileclose_setProc (f : Files) (p : Fin NPROC) (x : Option Proc) (i : Fin NFILE) :
    Code.fileclose (f.setProc p x) i = Code.fileclose f i >>= fun f => pure (f.setProc p x) := by
  unfold Code.fileclose
  have hfile : (f.setProc p x).file i = f.file i := rfl
  rw [hfile]
  dsimp only
  split
  · rfl
  split
  · rfl
  split
  · exact pipeclose_setProc (f.setFile i _) p x _ _
  · rfl
  · rfl

theorem after_closeAll (o : List (Fin NOFILE)) (hp : f.proc p = some pr)
    (hpr : ∀ fd, fd ∉ o → pr.ofile fd = none) :
    Cmd.After L (Counted v f m l) (Code.closeAll p o f) fun f' s =>
      Counted v f' m l s ∧ f'.proc p = some { cwd := pr.cwd } := by
  induction o generalizing f pr with
  | nil =>
    refine .pure fun s hc => ⟨hc, ?_⟩
    have : pr.ofile = fun _ => none := funext fun fd => hpr fd (by simp)
    rw [hp, ← this]
  | cons fd o ih =>
    unfold Code.closeAll
    rw [hp]
    dsimp only
    cases hfd : pr.ofile fd with
    | none =>
      refine ih hp fun n hn => ?_
      by_cases h : n = fd
      · rw [h, hfd]
      · exact hpr n (by simp [h, hn])
    | some i =>
      dsimp only
      -- the descriptor may as well be cleared before the file is closed
      refine .of_ok fun s f' s' hc hr => ?_
      rw [Cmd.run_bind] at hr
      obtain ⟨⟨f₁, s₁⟩, h₁, h₂⟩ := bind_eq_ok.1 hr
      have hclose : (Code.fileclose (f.setProc p (some { pr with ofile := Function.update pr.ofile fd none }))
          i).run L s = .ok (f₁.setProc p (some { pr with ofile := Function.update pr.ofile fd none }), s₁) := by
        rw [fileclose_setProc, Cmd.run_bind, h₁]
        rfl
      have hpr' : ∀ n, n ∉ o → Function.update pr.ofile fd none n = none := fun n hn => by
        by_cases h : n = fd
        · rw [h, Function.update_self]
        · rw [Function.update_of_ne h]
          exact hpr n (by simp [h, hn])
      have hnext := ih (f₁.setProc_self p (some { pr with ofile := Function.update pr.ofile fd none })) hpr'
      exact hnext.ok ((after_fileclose hL i).ok (hc.release hp hfd) hclose) h₂

theorem after_exit (hp : f.proc p = some pr) :
    Cmd.After L (Counted v f m l) (Code.exit f p pr) fun r => Counted v r.1 m l := by
  refine .ite (fun _ => .stop) fun _ => ?_
  refine (after_closeAll hL (List.finRange NOFILE) hp fun fd hfd => ?_).bind fun f' => ?_
  · exact absurd (List.mem_finRange fd) hfd
  refine Cmd.After.bind (Q := fun _ => Counted v (f'.setProc p none) m l) ?_ fun _ => .pure fun _ => id
  refine (After.counted (after_iput hL pr.cwd)).weaken (fun s hc => ?_) fun _ _ => id
  obtain ⟨hc, hp'⟩ := hc
  refine hc.files (hc.held.setProc fun i => ?_) ⟨hc.piped.ends, hc.piped.kept, hc.piped.once⟩
    fun k => ?_
  · rw [hp']
    simp [descriptors]
  · have := f'.uses_setProc p none k
    rw [hp'] at this
    simp only [inDir] at this
    rw [List.count_cons]
    simp only [beq_iff_eq]
    omega

/-- **Every system call keeps the counts.** -/
theorem after_call {c : Call} (hp : f.proc p = some pr) (he : c.enabled f p = true) :
    Cmd.After L (Counted v f m l) (c.code f p pr) fun r => Counted v r.1 m l := by
  have hkeep : ∀ {c : Code ℤ}, Cmd.After L (Balanced v f l) c (fun _ => Balanced v f l) →
      Cmd.After L (Counted v f m l) (keepFiles f c) fun r => Counted v r.1 m l := fun h =>
    (After.counted h).bind fun _ => .pure fun _ => id
  cases c with
  | badargs => exact .pure fun _ => id
  | sysOpen path omode => exact after_sysOpen hL hp path omode
  | sysDup fd => exact after_sysDup hp fd
  | sysClose fd => exact after_sysClose hL hp fd
  | sysRead fd n got =>
    unfold Call.code
    dsimp only [Code.sysRead]
    cases argfd pr fd with
    | none => exact .pure fun _ => id
    | some r => exact .ite (fun _ => .pure fun _ => id) fun _ => after_fileread hL r.2 n got
  | sysWrite fd src n got =>
    unfold Call.code
    dsimp only [Code.sysWrite]
    cases argfd pr fd with
    | none => exact .pure fun _ => id
    | some r => exact .ite (fun _ => .pure fun _ => id) fun _ => after_filewrite hL r.2 src n got
  | sysLink old new => exact hkeep (after_sysLink hL pr old new)
  | sysUnlink path => exact hkeep (after_sysUnlink hL pr path)
  | sysMkdir path => exact hkeep (after_sysMake hL pr path _ _ _)
  | sysMknod path major minor => exact hkeep (after_sysMake hL pr path _ _ _)
  | sysChdir path => exact after_sysChdir hL hp path
  | sysPipe page =>
    refine after_sysPipe hL hp fun a ha => ?_
    cases ha
    simpa [Call.enabled, hp] using he
  | fork np =>
    cases np with
    | none => exact .pure fun _ => id
    | some np => exact after_fork hL pr (by simpa [Call.enabled, hp] using he)
  | exit => exact after_exit hL hp

end calls

end counted

/-! ### Runs -/

section runs

variable {σ : Type} {v : View σ} {L : Layer Act Ans Panic Fault σ} {i : σ} {s s' : Sys σ}
  {h : List ((Fin NPROC × Call) × ℤ)}

/-- Before the first call one process is in the directory of the first entry of the cache. -/
theorem Counted.boot (hinum : ∀ k, v.ref i k = if k = 0 then 1 else 0) :
    Counted v .boot [] [] i := by
  refine ⟨⟨fun j => ?_, fun _ _ => rfl⟩, ⟨fun a w => ?_, fun a ha => ?_, ?_⟩, fun k => ?_, ?_⟩
  · show 0 = (((∑ p, descriptors j (if p = 0 then some { cwd := 0 } else none) : ℕ) : ℤ)) + 0
    have : ∀ p : Fin NPROC, descriptors j (if p = 0 then some { cwd := 0 } else none) = 0 := fun p => by
      split <;> simp [descriptors]
    simp [this]
  · exact iff_of_false nofun fun ⟨j, hj⟩ => nomatch hj.2.1
  · cases ha
  · exact fun hj => nomatch hj.2.1
  · rw [hinum]
    have hfile : ∀ j, onInode k (Files.boot.file j) = 0 := fun j =>
      onInode_of_ne (show FdType.none ≠ .inode from nofun) k
    have hproc : ∀ p, inDir k (Files.boot.proc p) = if p = 0 then (if 0 = k then 1 else 0) else 0 := by
      intro p
      show inDir k (if p = 0 then some { cwd := 0 } else none) = _
      split <;> rfl
    simp [Files.uses, hfile, hproc, eq_comm]
  · intro k k' hk hk' _
    rw [hinum] at hk hk'
    have h₁ : k = 0 := by_contra fun h => by simp [h] at hk
    have h₂ : k' = 0 := by_contra fun h => by simp [h] at hk'
    rw [h₁, h₂]

theorem Counted.step {e : (Fin NPROC × Call) × ℤ} (hL : Counts L v)
    (hc : Counted v s.files [] [] s.inodes) (h : (system L i).Step s e s') :
    Counted v s'.files [] [] s'.inodes := by
  obtain ⟨⟨p, c⟩, o⟩ := e
  obtain ⟨he, hx⟩ : c.enabled s.files p = true ∧ s.call L p c = .ok (s', o) := h
  unfold Sys.call at hx
  split at hx
  · cases hx
  · rename_i pr hp
    split at hx
    · rename_i f r t hr
      cases hx
      exact (after_call hL hp he).ok hc hr
    · cases hx

theorem Counted.runs (hL : Counts L v) (hi : ∀ k, v.ref i k = if k = 0 then 1 else 0)
    (hr : (system L i).Runs h s) : Counted v s.files [] [] s.inodes :=
  hr.invariant (P := fun _ s => Counted v s.files [] [] s.inodes) (.boot hi) fun _ hc hst => hc.step hL hst

end runs

variable {sb : Superblock} {devsw : Fin NDEV → Bool} {d : Disk} {s : Sys Blocks}
  {h : List ((Fin NPROC × Call) × ℤ)}

/-- **References are counted.** After any system calls by any processes, whether they succeed or not:
the count of an open file is the number of descriptors for it; no inode is in two entries of the cache
that are in use, and the count of an entry is the number of open files and current directories that
are its inode; an end of a pipe is open just when there is an open file for it, there is never more
than one, and the page of the pipe has been given back just when both are closed. -/
theorem reference_counts (hr : (system (blockLayer sb devsw) (.boot d)).Runs h s) :
    (∀ i, (s.files.file i).ref = s.files.fds i) ∧
    (∀ k k', 0 < (s.inodes.icache k).ref → 0 < (s.inodes.icache k').ref →
      (s.inodes.icache k).inum = (s.inodes.icache k').inum → k = k') ∧
    (∀ k, (s.inodes.icache k).ref = s.files.uses k) ∧
    (∀ a w, (pipeOpen (s.files.pipe a) w = true ↔ ∃ i, (s.files.file i).IsEnd a w) ∧
      ∀ i j, (s.files.file i).IsEnd a w → (s.files.file j).IsEnd a w → i = j) ∧
    ∀ a, s.files.pipe a = none ↔ ∀ w, pipeOpen (s.files.pipe a) w = false := by
  have hc := Counted.runs blockLayer_counts (fun k => rfl) hr
  refine ⟨fun i => ?_, fun k k' => hc.inodes.once, fun k => ?_, fun a w => ?_, fun a => ⟨fun h w => ?_, fun h => ?_⟩⟩
  · rw [hc.held.ref i, List.count_nil, Nat.cast_zero, add_zero]
  · refine (hc.inodes.ref k).trans ?_
    rw [List.count_nil, Nat.cast_zero, add_zero]
  · exact ⟨hc.piped.ends a w, fun i j => hc.piped.once⟩
  · rw [h]
    rfl
  · by_contra hne
    obtain ⟨w, hw⟩ := hc.piped.kept a (Option.isSome_iff_ne_none.2 hne)
    rw [h w] at hw
    cases hw

/-- Open a file and a pipe, fork, and close one end of the pipe in the parent and both in the child. -/
def refsRun : List ((Fin NPROC × Call) × ℤ) :=
  [((0, .sysOpen ⟨[0x63], by decide⟩ 0x202), 0), ((0, .sysPipe (some 4096)), 0), ((0, .fork (some 1)), 1),
    ((0, .sysClose 2), 0), ((1, .sysClose 2), 0), ((1, .sysClose 1), 0), ((1, .sysDup 0), 1)]

theorem reference_counts_fork :
    ∃ s, (system (blockLayer tinySb fun _ => false) (.boot rootDisk)).Runs refsRun.reverse s ∧
      s.files.fds 0 = 3 ∧ s.files.uses 0 = 2 ∧
      (∃ i, (s.files.file i).IsEnd 4096 false) ∧ ¬ ∃ i, (s.files.file i).IsEnd 4096 true := by
  obtain ⟨s, hr, hs⟩ := (system (blockLayer tinySb fun _ => false) (.boot rootDisk)).exists_runs refsRun
    (fun s => (s.files.file 0).ref = 3 ∧ (s.inodes.icache 0).ref = 2 ∧
      pipeOpen (s.files.pipe 4096) false = true ∧ pipeOpen (s.files.pipe 4096) true = false)
    (by decide +kernel)
  obtain ⟨hfile, hinode, hread, hwrite⟩ := of_decide_eq_true hs
  obtain ⟨hfds, -, huses, hends, -⟩ := reference_counts hr
  refine ⟨s, hr, ?_, ?_, (hends 4096 false).1.1 hread, fun h => ?_⟩
  · have := hfds 0
    omega
  · have := huses 0
    omega
  · rw [(hends 4096 true).1.2 h] at hwrite
    cases hwrite

end Xv6.Fs
