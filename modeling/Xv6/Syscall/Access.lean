import Xv6.Syscall.Copy

/-!
# System calls stay inside the process

Every system call touches only bytes below `sz`, with one exception: `sys_getpinfo` checks the size
of a pointer and `getpinfo` stores a whole `struct proc_stat`, so that a `struct` in the last bytes
of the process is written past its end.
-/

namespace Xv6.Syscall

open Lib Process

variable {N : Type} {c : Env N} {sz : Word} {m : Word → Byte} {α β : Type}

/-- From the memory `m` the code stays inside the process. -/
def Safe (sz : Word) (m : Word → Byte) (p : UserM α) : Prop :=
  Prog.Triple (Intact sz m) p fun _ => Inside sz

theorem Safe.pure {a : α} : Safe sz m (pure a : UserM α) := Prog.Triple.pure fun _ hs => hs.2

theorem Reads.safe {p : UserM α} {R : α → Prop} (h : Reads sz m p R) : Safe sz m p :=
  Prog.Triple.weaken h (fun _ hs => hs) fun _ _ hs => hs.2.2

theorem Stays.safe {p : UserM α} (h : Stays sz p) : Safe sz m p :=
  Prog.Triple.weaken h (fun _ hs => hs.2) fun _ _ hs => hs

theorem Reads.seq {p : UserM α} {f : α → UserM β} {R : α → Prop} (hp : Reads sz m p R)
    (hf : ∀ a, R a → Safe sz m (f a)) : Safe sz m (p >>= f) :=
  Prog.Triple.bind hp fun a => Prog.Triple.of_imp (hf a)

/-- The common start of a call: an argument is fetched, or the call returns. -/
theorem Reads.orFail {p : UserM (Option α)} {f : Option α → UserM β} {R : Option α → Prop}
    (hp : Reads sz m p R) (h0 : Safe sz m (f none))
    (hf : ∀ a, R (some a) → Safe sz m (f (some a))) : Safe sz m (p >>= f) := by
  refine hp.seq fun r hr => ?_
  cases r with
  | none => exact h0
  | some a => exact hf a hr

section calls

variable (hc : c.sz < KERNBASE)

include hc

theorem reads_argfd (n : Word) : Reads c.sz m (argfd c n) fun _ => True := by
  refine (reads_argint hc n).bind fun r _ => ?_
  cases r with
  | none => exact .pure trivial
  | some fd =>
    dsimp only
    split
    · exact .pure trivial
    · exact .pure trivial

theorem safe_sysInt : Safe c.sz m (sysInt c) :=
  (reads_argint hc 0).orFail .pure fun _ _ => .pure

theorem safe_sysFd : Safe c.sz m (sysFd c) :=
  (reads_argfd hc 0).orFail .pure fun _ _ => .pure

theorem safe_sysTransfer {f : File → Word → Word → UserM Word}
    (hf : ∀ file p n, n.toNat < 2 ^ 31 → p.toNat + n.toNat ≤ c.sz.toNat → Safe c.sz m (f file p n)) :
    Safe c.sz m (sysTransfer c f) := by
  refine (reads_argfd hc 0).orFail .pure fun file _ => ?_
  refine (reads_argint hc 2).orFail .pure fun n _ => ?_
  refine (reads_argptr hc 1 n).orFail .pure fun p hp => ?_
  exact hf file p n (argPtr_size hp.symm) (argPtr_le hc hp.symm)

theorem safe_sysFstat : Safe c.sz m (sysFstat c) := by
  refine (reads_argfd hc 0).orFail .pure fun f _ => ?_
  refine (reads_argptr hc 1 20).orFail .pure fun st hst => ?_
  exact (stays_filestat (argPtr_le hc hst.symm)).safe

omit hc in
theorem safe_create {path : Word} {f : Bool → UserM α} (hp : IsStr c.sz m path)
    (hf : ∀ ok, Safe c.sz m (f ok)) : Safe c.sz m (create c path >>= f) :=
  Reads.seq (R := fun _ => True) ((reads_namex hp).bind fun _ _ => .pure trivial) fun ok _ => hf ok

theorem safe_sysLink : Safe c.sz m (sysLink c) := by
  refine (reads_argstr hc 0).orFail .pure fun old hold => ?_
  refine (reads_argstr hc 1).orFail .pure fun new hnew => ?_
  refine (reads_namex (hold _ rfl)).orFail .pure fun ip _ => ?_
  dsimp only
  split
  · exact .pure
  · exact (reads_namex (hnew _ rfl)).orFail .pure fun _ _ => .pure

theorem safe_sysUnlink : Safe c.sz m (sysUnlink c) := by
  refine (reads_argstr hc 0).orFail .pure fun path hpath => ?_
  exact (reads_namex (hpath _ rfl)).orFail .pure fun _ _ => .pure

theorem safe_sysOpen : Safe c.sz m (sysOpen c) := by
  refine (reads_argstr hc 0).orFail .pure fun path hpath => ?_
  refine (reads_argint hc 1).orFail .pure fun omode _ => ?_
  dsimp only
  split
  · exact safe_create (hpath _ rfl) fun _ => .pure
  · exact (reads_namex (hpath _ rfl)).orFail .pure fun _ _ => .pure

theorem safe_sysMkdir : Safe c.sz m (sysMkdir c) := by
  refine (reads_argstr hc 0).orFail .pure fun path hpath => ?_
  exact safe_create (hpath _ rfl) fun _ => .pure

theorem safe_sysMknod : Safe c.sz m (sysMknod c) := by
  refine (reads_argstr hc 0).orFail .pure fun path hpath => ?_
  refine (reads_argint hc 1).orFail .pure fun _ _ => ?_
  refine (reads_argint hc 2).orFail .pure fun _ _ => ?_
  exact safe_create (hpath _ rfl) fun _ => .pure

theorem safe_sysChdir : Safe c.sz m (sysChdir c) := by
  refine (reads_argstr hc 0).orFail .pure fun path hpath => ?_
  exact (reads_namex (hpath _ rfl)).orFail .pure fun _ _ => .pure

theorem reads_fetchArgv {uargv : Word} :
    Reads c.sz m (fetchArgv c uargv) fun r => ∀ argv, r = some argv → ∀ a ∈ argv, IsStr c.sz m a := by
  refine Prog.Triple.weaken (Prog.Triple.loop
    (I := fun x s => (∀ a ∈ x.2, IsStr c.sz m a) ∧ Intact c.sz m s)
    (v := fun x => MAXARG - x.1) (fun x => ?_) (by decide))
    (fun s hs => ⟨by simp, hs⟩) fun _ _ hs => hs
  obtain ⟨i, argv⟩ := x
  refine Prog.Triple.of_imp fun hargv => ?_
  dsimp only at hargv ⊢
  split
  · exact Prog.Triple.pure fun s hs => ⟨by simp, hs⟩
  · rename_i hi
    refine Prog.Triple.bind (reads_fetchint hc _) fun r => Prog.Triple.of_imp fun _ => ?_
    cases r with
    | none => exact Prog.Triple.pure fun s hs => ⟨by simp, hs⟩
    | some uarg =>
      dsimp only
      split
      · refine Prog.Triple.pure fun s hs => ⟨fun argv' h => ?_, hs⟩
        exact Option.some.inj h ▸ hargv
      · refine Prog.Triple.bind reads_fetchstr fun r => Prog.Triple.of_imp fun hr => ?_
        cases r with
        | none => exact Prog.Triple.pure fun s hs => ⟨by simp, hs⟩
        | some len =>
          refine Prog.Triple.pure fun s hs => ⟨⟨fun a ha => ?_, hs⟩, by dsimp only; omega⟩
          rcases List.mem_append.1 ha with ha | ha
          · exact hargv a ha
          · exact List.mem_singleton.1 ha ▸ hr rfl

theorem safe_sysExec : Safe c.sz m (sysExec c) := by
  refine (reads_argstr hc 0).orFail .pure fun path hpath => ?_
  refine (reads_argint hc 1).orFail .pure fun uargv _ => ?_
  refine (reads_fetchArgv hc).orFail .pure fun argv hargv => ?_
  exact (reads_exec (hpath _ rfl) (hargv _ rfl)).safe

theorem safe_sysPipe : Safe c.sz m (sysPipe c) := by
  refine (reads_argptr hc 0 8).orFail .pure fun fd hfd => ?_
  have hle : fd.toNat + 8 ≤ c.sz.toNat := argPtr_le hc hfd.symm
  have hsz := c.sz.isLt
  have h4 : (fd + 4).toNat = fd.toNat + 4 := add_toNat (by rw [show (4 : Word).toNat = 4 from rfl]; omega)
  dsimp only
  split
  · exact .pure
  · split
    · exact .pure
    · split
      · exact .pure
      · refine Stays.safe ((stays_storeInt (by omega)).bind fun _ => ?_)
        exact (stays_storeInt (by omega)).bind fun _ => .pure

theorem safe_sysWaitx : Safe c.sz m (sysWaitx c) := by
  refine (reads_argptr hc 0 4).orFail .pure fun wtime hw => ?_
  refine (reads_argptr hc 1 4).orFail .pure fun rtime hr => ?_
  dsimp only
  split
  · exact .pure
  · refine Stays.safe ((stays_storeInt (argPtr_le hc hr.symm)).bind fun _ => ?_)
    exact (stays_storeInt (argPtr_le hc hw.symm)).bind fun _ => .pure

end calls

/-! ### `getpinfo` -/

theorem stays_forM {ι : Type} {l : List ι} {f : ι → UserM Unit} (h : ∀ i ∈ l, Stays sz (f i)) :
    Stays sz (l.forM f) := by
  induction l with
  | nil => exact .pure
  | cons i l ih =>
    show Stays sz (f i >>= fun _ => l.forM f)
    exact (h i List.mem_cons_self).bind fun _ => ih fun j hj => h j (.tail _ hj)

/-- `getpinfo` fills in the 36 bytes of a `struct proc_stat`. -/
theorem stays_getpinfo {pid ps : Word} (h : ps.toNat + 36 ≤ sz.toNat) :
    Stays sz (getpinfo c pid ps) := by
  have hsz := sz.isLt
  have hoff : ∀ k : Word, k.toNat ≤ 32 → (ps + k).toNat + 4 ≤ sz.toNat := fun k hk => by
    rw [add_toNat (by omega)]
    omega
  unfold getpinfo
  split
  · exact .pure
  · refine (stays_storeInt (by omega)).bind fun _ => ?_
    refine (stays_storeInt (hoff 4 (by decide))).bind fun _ => ?_
    refine (stays_storeInt (hoff 8 (by decide))).bind fun _ => ?_
    refine (stays_storeInt (hoff 12 (by decide))).bind fun _ => ?_
    refine (stays_forM fun i _ => ?_).bind fun _ => .pure
    rw [BitVec.add_assoc]
    exact stays_storeInt (hoff _ (by revert i; decide))

/-- The code touches the byte at `a`. -/
def Touches (a : Word) (p : UserM α) : Prop :=
  Prog.Triple (fun _ => True) p fun _ s => a ∈ s.trace

theorem touches_storeInt (a w : Word) : Touches (a + 3) (storeInt a w) := by
  intro s _
  refine ⟨(), _, rfl, ?_⟩
  have h3 : a + 3 = a + 1 + 1 + 1 := by bv_omega
  rw [h3]
  exact List.mem_cons_self

theorem Touches.after {a b : Word} {p : UserM α} {q : α → UserM β} (hp : Touches a p)
    (hq : ∀ x, Touches b (q x)) : Touches b (p >>= q) :=
  Prog.Triple.bind hp fun x => Prog.Triple.weaken (hq x) (fun _ _ => trivial) fun _ _ hs => hs

theorem Touches.done {a : Word} {p : UserM α} (hp : Touches a p) (b : β) :
    Touches a (p >>= fun _ => pure b) :=
  Prog.Triple.bind hp fun _ => Prog.Triple.pure fun _ hs => hs

/-- The last byte that `getpinfo` stores is the last one of the `struct`. -/
theorem touches_getpinfo {pid ps : Word} {p : ProcId} (hp : findPid c pid = some p) :
    Touches (ps + 35) (getpinfo c pid ps) := by
  unfold getpinfo
  rw [hp]
  refine (touches_storeInt _ _).after fun _ => ?_
  refine (touches_storeInt _ _).after fun _ => ?_
  refine (touches_storeInt _ _).after fun _ => ?_
  refine (touches_storeInt _ _).after fun _ => ?_
  refine Touches.done ?_ _
  refine (touches_storeInt _ _).after fun _ => ?_
  refine (touches_storeInt _ _).after fun _ => ?_
  refine (touches_storeInt _ _).after fun _ => ?_
  refine (touches_storeInt _ _).after fun _ => ?_
  refine Touches.done ?_ _
  have h35 : ps + 35 = ps + 16 + 4 * .ofNat 32 4 + 3 := by
    rw [BitVec.add_assoc, BitVec.add_assoc]
    rfl
  rw [h35]
  exact touches_storeInt _ _

/-- The call is a `getpinfo` that finds its process, with a `struct` that starts inside the process
and ends outside. -/
def overruns (c : Env N) (m : Word → Byte) : Bool :=
  c.eax.toInt = 24 &&
    match argWord c.toFrame m 0, argPtr c.toFrame m 1 4 with
    | some pid, some ps => (findPid c pid).isSome && c.sz.toNat < ps.toNat + 36
    | _, _ => false

theorem safe_sysGetpinfo (hc : c.sz < KERNBASE) (he : c.eax.toInt = 24) (ho : overruns c m = false) :
    Safe c.sz m (sysGetpinfo c) := by
  refine (reads_argint hc 0).orFail .pure fun pid hpid => ?_
  refine (reads_argptr hc 1 4).orFail .pure fun ps hps => ?_
  simp only [overruns, he, ← hpid, ← hps, decide_true, Bool.true_and, Bool.and_eq_false_iff,
    decide_eq_false_iff_not, not_lt] at ho
  rcases ho with ho | ho
  · -- no such process
    have hnone : findPid c pid = none := by simpa using ho
    show Safe c.sz m (getpinfo c pid ps)
    unfold getpinfo
    rw [hnone]
    exact .pure
  · exact (stays_getpinfo ho).safe

/-- A call that overruns touches the last byte of the `struct`. -/
theorem touches_sysGetpinfo (hc : c.sz < KERNBASE) (ho : overruns c m = true) :
    ∃ ps, c.eax.toInt = 24 ∧ argPtr c.toFrame m 1 4 = some ps ∧ c.sz.toNat < ps.toNat + 36 ∧
      Prog.Triple (Intact c.sz m) (sysGetpinfo c) fun _ s => ps + 35 ∈ s.trace := by
  unfold overruns at ho
  rw [Bool.and_eq_true, decide_eq_true_eq] at ho
  obtain ⟨he, ho⟩ := ho
  split at ho
  · rename_i pid ps hpid hps
    rw [Bool.and_eq_true, decide_eq_true_eq] at ho
    obtain ⟨p, hp⟩ := Option.isSome_iff_exists.1 ho.1
    refine ⟨ps, he, hps, ho.2, ?_⟩
    refine Prog.Triple.bind (reads_argint hc 0) fun r => Prog.Triple.of_imp fun hr => ?_
    rw [hr, hpid]
    refine Prog.Triple.bind (reads_argptr hc 1 4) fun r => Prog.Triple.of_imp fun hr => ?_
    rw [hr, hps]
    exact Prog.Triple.weaken (touches_getpinfo hp) (fun _ _ => trivial) fun _ _ hs => hs
  · cases ho

/-- **User memory accesses stay inside the process.** Every system call of a process below
`KERNBASE` returns, whatever is in the user memory and whatever the kernel finds, and all bytes that
it reads or writes are below `sz`, unless it is a `getpinfo` whose `struct` ends outside. -/
theorem access_inside_iff (hc : c.sz < KERNBASE) (m : Word → Byte) :
    ∃ r s, (syscall c).eval { byte := m } = (.ok r, s) ∧
      ((∀ a ∈ s.trace, a < c.sz) ↔ overruns c m = false) := by
  have hinit : Intact c.sz m { byte := m } := ⟨rfl, by simp [Inside]⟩
  cases ho : overruns c m with
  | false =>
    have hsafe : Safe c.sz m (syscall c) := by
      unfold syscall
      split
      all_goals first | exact .pure | skip
      · exact safe_sysPipe hc
      · exact safe_sysTransfer hc fun _ _ _ hn hp => (stays_fileread hn hp).safe
      · exact safe_sysInt hc
      · exact safe_sysExec hc
      · exact safe_sysFstat hc
      · exact safe_sysChdir hc
      · exact safe_sysFd hc
      · exact safe_sysInt hc
      · exact safe_sysInt hc
      · exact safe_sysOpen hc
      · exact safe_sysTransfer hc fun _ _ _ hn hp => (reads_filewrite hn hp).safe
      · exact safe_sysMknod hc
      · exact safe_sysUnlink hc
      · exact safe_sysLink hc
      · exact safe_sysMkdir hc
      · exact safe_sysFd hc
      · exact safe_sysWaitx hc
      · exact safe_sysInt hc
      · exact safe_sysGetpinfo hc ‹_› ho
    obtain ⟨r, s, hr, hs⟩ := hsafe _ hinit
    exact ⟨r, s, hr, iff_of_true hs rfl⟩
  | true =>
    obtain ⟨ps, he, hps, hlt, htouch⟩ := touches_sysGetpinfo hc ho
    obtain ⟨r, s, hr, hs⟩ := htouch _ hinit
    refine ⟨r, s, ?_, iff_of_false (fun hall => ?_) (by simp)⟩
    · unfold syscall
      rw [he]
      exact hr
    · have hin : (ps + 35).toNat < c.sz.toNat := hall _ hs
      have hps' : ps.toNat + 4 ≤ c.sz.toNat := argPtr_le hc hps
      have hsz : c.sz.toNat < 2 ^ 31 := hc
      have h35 : (35 : Word).toNat = 35 := rfl
      rw [add_toNat (by omega)] at hin
      omega

/-- A process of one page that calls `getpinfo` for the pid 0, which every free slot has. -/
def pinfoEnv : Env Unit where
  sz := 4096
  esp := 2000
  eax := 24
  ofile _ := none
  tree := { root := (), cwd := (), isDir := fun _ => true, dirlookup := fun _ _ => none }
  sched := .mlfq
  proc _ := {}
  child := none
  image := none
  mapped _ := false
  pipealloc := true
  ret := 0

/-- Its stack, with the pointer `ps` as the second argument. -/
def pinfoMem (ps : Word) : Word → Byte := fun a =>
  if a = 2008 then ps.extractLsb' 0 8 else if a = 2009 then ps.extractLsb' 8 8 else 0

/-- A `struct` that ends with the page. -/
theorem access_inside_page :
    ∃ r s, (syscall pinfoEnv).eval { byte := pinfoMem 4060 } = (.ok r, s) ∧
      ∀ a ∈ s.trace, a < pinfoEnv.sz := by
  obtain ⟨r, s, hr, hs⟩ := access_inside_iff (c := pinfoEnv) (by decide) (pinfoMem 4060)
  exact ⟨r, s, hr, hs.2 (by decide +kernel)⟩

/-- With four bytes left the check passes and 32 bytes are written past the end of the process. -/
theorem getpinfo_overruns :
    ∃ a, a ∈ ((syscall pinfoEnv).eval { byte := pinfoMem 4092 }).2.trace ∧ ¬ a < pinfoEnv.sz :=
  ⟨4127, by decide +kernel, by decide⟩

end Xv6.Syscall
