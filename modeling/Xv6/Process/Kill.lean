import Xv6.Process.Core

/-!
# Who is killed

`p->killed` is set by `kill` and by a fatal trap, and `allocproc` does not clear it: a process is
born killed when its slot was left so. `kill` finds a slot by its pid alone, so it can mark a free
slot, and a `fork` that fails after its child was killed leaves the mark behind. In runs where
neither happens, a process is killed only if it was struck in its own life.
-/

namespace Xv6.Process

open Lib

variable {C : Type} {b : Sched} {k k' : Kern C} {e : Event C} {p q : ProcId}

/-- The event is a call of `kill` with the pid `pid`, or a fatal trap of `p`. -/
def strikes (p : ProcId) (pid : Word) : Event C → Bool
  | (.proc _ _ (.kill n), _) => n = pid
  | (.proc _ q .trapKill, _) => q = p
  | _ => false

/-- Since the slot `p` was last allocated, there was a call of `kill` with the pid `pid` or a fatal
trap of `p`. -/
def struck (p : ProcId) (pid : Word) : List (Event C) → Bool
  | [] => false
  | e :: h => !allocates p e && (strikes p pid e || struck p pid h)

/-- `kill` finds no free slot, and a `fork` that gives up leaves no killed child behind. -/
def killGuard (k : Kern C) : Act C → Bool
  | .proc _ _ (.kill pid) =>
    match (List.finRange NPROC).find? fun p => (k.proc p).pid = pid with
    | some q => (k.proc q).state ≠ .unused
    | none => true
  | .proc _ p .forkFail =>
    match (k.proc p).thread with
    | .fork np _ => !(k.proc np).killed
    | _ => true
  | _ => true

/-- A killed slot is in use and was struck by its own pid. -/
def StruckAll (h : List (Event C)) (k : Kern C) : Prop :=
  ∀ p, (k.proc p).killed = true →
    (k.proc p).state ≠ .unused ∧ struck p (k.proc p).pid h = true

/-- One step: the cases are the ways a step changes one process. -/
theorem StruckAll.step [DecidableEq C] {h : List (Event C)} (hi : StruckAll h k) (hs : Shape k)
    (hst : Step b k e k') (hg : killGuard k e.1 = true) : StruckAll (e :: h) k' := by
  intro p hp
  by_cases ha : allocates p e = true
  · -- a new process: its slot was free, hence not killed
    obtain ⟨hu, hc⟩ := alloc_step hs hst ha
    have hk : (k.proc p).killed = true := (congrArg Core.killed hc).symm.trans hp
    exact absurd hu (hi p hk).1
  · have hcore := core_step hs hst p
    rw [← core_killed] at hp
    rw [← core_state, ← core_pid]
    have hold : (k.proc p).killed = true →
        (k.proc p).state ≠ .unused ∧ struck p (k.proc p).pid (e :: h) = true := fun hk =>
      ⟨(hi p hk).1, by simp [struck, ha, (hi p hk).2]⟩
    generalize hy : (k'.proc p).core = y at hcore hp ⊢
    cases hcore with
    | same => exact hold hp
    | wake | dispatch | yield | sleep | activate | exit => exact ⟨by simp, (hold hp).2⟩
    | exitBegin | thread | incRuntime => exact hold hp
    | alloc h' _ => exact absurd h' ha
    | abandon he ht _ =>
      rw [he] at hg
      simp only [killGuard, ht, Bool.not_eq_true'] at hg
      simp [hg] at hp
    | reap _ _ _ => simp at hp
    | kill he hpid hf s hs' =>
      rw [he] at hg
      have hu : (k.proc p).state ≠ .unused := by simpa [killGuard, hf] using hg
      refine ⟨?_, ?_⟩
      · rcases hs' with rfl | ⟨-, rfl⟩
        · exact hu
        · simp
      · obtain ⟨a, o⟩ := e
        cases he
        rw [core_pid] at hpid
        simp [struck, ha, strikes, hpid]
    | trap he hrun =>
      obtain ⟨a, o⟩ := e
      cases he
      rw [core_state] at hrun
      exact ⟨by simp [hrun], by simp [struck, ha, strikes]⟩

theorem wake_other (h : wake b k p = .ok k') (hq : q ≠ p) : k'.proc q = k.proc q := by
  unfold wake at h
  dsimp only at h
  split at h
  · split at h
    · cases h
    · rename_i h₁
      cases h
      rw [Kern.setProc_proc_ne _ _ _ hq, (enqueue_frame h₁).2, Kern.setProc_proc_ne _ _ _ hq]
  · cases h
    exact Kern.setProc_proc_ne _ _ _ hq

/-- `kill` changes no process with another pid. -/
theorem kill_other {pid : Word} {o : Out} (h : kill b k pid = .ok (k', o))
    (hq : (k.proc q).pid ≠ pid) : k'.proc q = k.proc q := by
  rcases kill_cases h with ⟨rfl, -⟩ | ⟨p, hp, -, h⟩
  · rfl
  have hpid : (k.proc p).pid = pid := by simpa using List.find?_some hp
  have hne : q ≠ p := by rintro rfl; exact hq hpid
  rcases h with rfl | ⟨-, h₁⟩
  · exact Kern.setProc_proc_ne _ _ _ hne
  · rw [wake_other h₁ hne, Kern.setProc_proc_ne _ _ _ hne]

/-- **A process is killed only if it was struck in its own life**, in every run in which `kill`
finds no free slot and no failing `fork` leaves a killed child; and no call of `kill` changes a
process with another pid. -/
theorem killed_struck [DecidableEq C] {h : List (Event C)} (hr : GuardedRuns killGuard b h k) :
    (∀ p, (k.proc p).state ≠ .unused → (k.proc p).killed = true →
      struck p (k.proc p).pid h = true) ∧
    ∀ c r pid o k', Step b k (.proc c r (.kill pid), o) k' → ∀ q, (k.proc q).pid ≠ pid →
      k'.proc q = k.proc q := by
  have hinv : Shape k ∧ StruckAll h k := by
    refine hr.invariant (P := fun h k => Shape k ∧ StruckAll h k) ⟨.init, fun p hp => by cases hp⟩ ?_
    rintro h k e k' - ⟨hs, hi⟩ ⟨hst, hg⟩
    exact ⟨hs.step hst, hi.step hs hst hg⟩
  exact ⟨fun p _ hk => (hinv.2 p hk).2, fun c r pid o k' hst q hq => kill_other hst.2 hq⟩

/-- A child that has been killed. -/
def killChildEvents : List (Event (Fin 2)) :=
  [(.userinitAlloc, .alloc 0), (.userinit, .done), (.scheduler 0, .dispatch 0), (.resume 0, .done),
    (.proc 0 0 .forkAlloc, .alloc 1), (.proc 0 0 .forkCopy, .done), (.proc 0 0 .fork, .done),
    (.proc 0 0 (.kill 2), .done)]

theorem killed_struck_child :
    ∃ k : Kern (Fin 2), GuardedRuns killGuard .mlfq killChildEvents.reverse k ∧
      ((k.proc 1).state ≠ .unused ∧ (k.proc 1).killed = true) ∧
      struck 1 (k.proc 1).pid killChildEvents.reverse = true := by
  obtain ⟨k, hr, hk⟩ := (kernel .mlfq).exists_guarded killGuard killChildEvents
    (fun k => (k.proc 1).state ≠ .unused ∧ (k.proc 1).killed = true) (by decide +kernel)
  simp only [decide_eq_true_eq] at hk
  exact ⟨k, hr, hk, (killed_struck hr).1 1 hk.1 hk.2⟩

/-- The first process kills the pid 0, which is that of every free slot, and forks. -/
def killFreeEvents : List (Event (Fin 2)) :=
  [(.userinitAlloc, .alloc 0), (.userinit, .done), (.scheduler 0, .dispatch 0), (.resume 0, .done),
    (.proc 0 0 (.kill 0), .done), (.proc 0 0 .forkAlloc, .alloc 1), (.proc 0 0 .forkCopy, .done),
    (.proc 0 0 .fork, .done)]

/-- The child is runnable and killed, though nobody called `kill` with its pid and it never ran. -/
theorem born_killed :
    ∃ k : Kern (Fin 2), Runs .mlfq killFreeEvents.reverse k ∧ (k.proc 1).state = .runnable ∧
      (k.proc 1).killed = true ∧ struck 1 (k.proc 1).pid killFreeEvents.reverse = false := by
  obtain ⟨k, hr, hk⟩ := (kernel .mlfq).exists_runs killFreeEvents (fun k => (k.proc 1).state = .runnable ∧
    (k.proc 1).killed = true ∧ struck 1 (k.proc 1).pid killFreeEvents.reverse = false)
    (by decide +kernel)
  exact ⟨k, hr, by simpa using hk⟩

end Xv6.Process
