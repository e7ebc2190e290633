import Xv6.Process.Ready
import Xv6.Process.Kill
import Xv6.Lib.Scan

/-!
# Looking a process up by its pid

`kill` and `getpinfo` walk the table and stop at the first slot with the pid, whatever its state. A
slot that was never used or that `wait` has freed has pid 0, and a slot that a failing `fork` gave
up keeps the pid of the child it was for. The two calls name a live process exactly when the slot
they stop at is in use.
-/

namespace Xv6.Process

open Lib

variable {C : Type} {b : Sched} {k k' : Kern C} {p q : ProcId} {pid : Word}

structure ProcStat where
  pid : Word
  runtime : Word
  numRun : Word
  currentQueue : Word
  ticks : Fin NUM_QUEUES → Word

/-- What `getpinfo` reports about the process it stops at: only the multi-level feedback build has
queues. -/
def procStat (b : Sched) (p : Proc) : ProcStat where
  pid := p.pid
  runtime := p.runTime
  numRun := p.numRun
  currentQueue := if b = .mlfq then .ofInt 32 p.queue else -1
  ticks := if b = .mlfq then p.ticks else fun _ => -1

/-- The slot at which the loops of `kill` and `getpinfo` stop. -/
def lookup (k : Kern C) (pid : Word) : Option ProcId :=
  (List.finRange NPROC).find? fun p => (k.proc p).pid = pid

/-- `getpinfo`: the report, or `none` where it returns -1. -/
def getpinfo (b : Sched) (k : Kern C) (pid : Word) : Option ProcStat :=
  match lookup k pid with
  | some p => some (procStat b (k.proc p))
  | none => none

/-- The slot is in use and has the pid. -/
def Live (k : Kern C) (pid : Word) (p : ProcId) : Prop :=
  (k.proc p).state ≠ .unused ∧ (k.proc p).pid = pid

/-- **The two calls name only live processes**: each succeeds exactly if some process has the pid,
and then the slot it stops at is such a process and the only one it acts on or reports; otherwise
nothing changes. -/
structure NamesLive (b : Sched) (k : Kern C) (pid : Word) : Prop where
  kill : ∃ k' o, kill b k pid = .ok (k', o) ∧ (o = .done ↔ ∃ p, Live k pid p) ∧
    (o = .done → ∃ p, lookup k pid = some p ∧ Live k pid p ∧ (k'.proc p).killed = true ∧
      ∀ q ≠ p, k'.proc q = k.proc q) ∧
    (o ≠ .done → o = .failed ∧ k' = k)
  getpinfo : ((getpinfo b k pid).isSome ↔ ∃ p, Live k pid p) ∧
    ∀ ps, getpinfo b k pid = some ps →
      ∃ p, lookup k pid = some p ∧ Live k pid p ∧ ps = procStat b (k.proc p)

theorem lookup_pid (h : lookup k pid = some p) : (k.proc p).pid = pid := by
  simpa using List.find?_some h

theorem lookup_none (h : lookup k pid = none) (p : ProcId) : (k.proc p).pid ≠ pid := by
  simpa using find?_finRange_none h p

/-- The loop stops at the first slot with the pid. -/
theorem lookup_le (h : lookup k pid = some p) (hq : (k.proc q).pid = pid) : p ≤ q :=
  find?_finRange_le h (by simpa using hq)

theorem kill_none (h : lookup k pid = none) : kill b k pid = .ok (k, .failed) := by
  unfold lookup at h
  simp only [kill, h]

/-- `kill` succeeds from every state that a run reaches, if the lock is free. -/
theorem exists_kill [DecidableEq C] {h : List (Event C)} (hr : Runs b h k) (hl : k.lock = .free) (pid : Word) :
    ∃ k' o, kill b k pid = .ok (k', o) := by
  by_cases hb : b = .mlfq
  · subst hb
    obtain ⟨qs, hq⟩ := (Runs.sound hr).queued
    rw [hl] at hq
    obtain ⟨k', o, hx, -⟩ := hq.kill pid
    exact ⟨k', o, hx⟩
  · -- without queues nothing can fail
    cases hf : lookup k pid with
    | none => exact ⟨k, .failed, kill_none hf⟩
    | some p =>
      unfold lookup at hf
      by_cases hs : (k.proc p).state = .sleeping
      · simp [kill, hf, hs, wake, hb]
      · simp [kill, hf, hs]

theorem kill_some (h : lookup k pid = some p) {o : Out} (hx : kill b k pid = .ok (k', o)) :
    o = .done ∧ (k'.proc p).killed = true ∧ ∀ q ≠ p, k'.proc q = k.proc q := by
  unfold lookup at h
  simp only [kill, h] at hx
  have hset : ((k.setProc p fun q => { q with killed := true }).proc p).killed = true := by simp
  split at hx
  · rename_i hs
    split at hx
    · cases hx
    · rename_i k₁ hw
      cases hx
      refine ⟨rfl, ?_, fun q hq => by rw [wake_other hw hq, Kern.setProc_proc_ne _ _ _ hq]⟩
      rcases (wake_frame hs hw).2 p with hsame | ⟨-, t, a, hwoken⟩
      · rw [hsame, hset]
      · rw [hwoken]
        exact hset
  · cases hx
    exact ⟨rfl, hset, fun q hq => Kern.setProc_proc_ne _ _ _ hq⟩

theorem NamesLive.found (hn : NamesLive b k pid) (hp : lookup k pid = some p) :
    (k.proc p).state ≠ .unused := by
  obtain ⟨k', o, hx, -, hdone, -⟩ := hn.kill
  obtain ⟨q, hq, hlive, -⟩ := hdone (kill_some hp hx).1
  rw [hp] at hq
  cases hq
  exact hlive.1

/-- **Lookups by pid name live processes exactly if no free slot comes first.** In every state that a
run reaches and for every pid: `kill` and `getpinfo` succeed exactly if some process has the pid,
act on or report that process only, and otherwise change nothing, if and only if every free slot with
the pid comes after a slot in use with the pid. -/
theorem pid_names_live_iff [DecidableEq C] {h : List (Event C)} (hr : Runs b h k) (hl : k.lock = .free) (pid : Word) :
    NamesLive b k pid ↔
      ∀ p, (k.proc p).state = .unused → (k.proc p).pid = pid → ∃ q < p, Live k pid q := by
  constructor
  · intro hn p hu hp
    cases hf : lookup k pid with
    | none => exact absurd hp (lookup_none hf p)
    | some q =>
      have hq := hn.found hf
      have hne : q ≠ p := by
        rintro rfl
        exact hq hu
      exact ⟨q, lt_of_le_of_ne (lookup_le hf hp) hne, hq, lookup_pid hf⟩
  · intro hfree
    obtain ⟨k', o, hx⟩ := exists_kill hr hl pid
    cases hf : lookup k pid with
    | none =>
      have hnone : ¬ ∃ p, Live k pid p := fun ⟨p, hp⟩ => lookup_none hf p hp.2
      have hx' := kill_none (b := b) hf
      refine ⟨⟨k, .failed, hx', by simpa using hnone, nofun, fun _ => ⟨rfl, rfl⟩⟩, ?_, ?_⟩
      · simpa [getpinfo, hf] using hnone
      · simp [getpinfo, hf]
    | some p =>
      have hlive : Live k pid p := by
        refine ⟨fun hu => ?_, lookup_pid hf⟩
        obtain ⟨q, hq, -, hpid⟩ := hfree p hu (lookup_pid hf)
        exact absurd (lookup_le hf hpid) (not_le.2 hq)
      obtain ⟨rfl, hkilled, hother⟩ := kill_some hf hx
      refine ⟨⟨k', .done, hx, by simp [show ∃ p, Live k pid p from ⟨p, hlive⟩],
        fun _ => ⟨p, hf, hlive, hkilled, hother⟩, fun hne => absurd rfl hne⟩, ?_, fun ps hps => ?_⟩
      · simp [getpinfo, hf, show ∃ p, Live k pid p from ⟨p, hlive⟩]
      · simp only [getpinfo, hf, Option.some.injEq] at hps
        exact ⟨p, hf, hlive, hps.symm⟩

/-- The first process has forked a child. -/
theorem pid_names_live_iff_child :
    ∃ k : Kern (Fin 2), Runs .mlfq forkEvents.reverse k ∧ k.lock = .free ∧ (k.proc 1).pid = 2 ∧
      NamesLive .mlfq k 2 := by
  obtain ⟨k, hr, hk⟩ := (kernel .mlfq).exists_runs forkEvents (fun k => k.lock = .free ∧
    (k.proc 1).pid = 2 ∧ ∀ p, (k.proc p).state = .unused → (k.proc p).pid ≠ 2) (by decide +kernel)
  simp only [decide_eq_true_eq] at hk
  exact ⟨k, hr, hk.1, hk.2.1, (pid_names_live_iff hr hk.1 2).2 fun p hu hp => absurd hp (hk.2.2 p hu)⟩

/-- A `fork` gives its child up. -/
def forkFailEvents : List (Event (Fin 2)) :=
  [(.userinitAlloc, .alloc 0), (.userinit, .done), (.scheduler 0, .dispatch 0), (.resume 0, .done),
    (.proc 0 0 .forkAlloc, .alloc 1), (.proc 0 0 .forkFail, .failed)]

/-- The pid 0 is that of every slot that was never used, and the pid 2 is left in the slot of the
child: `kill` and `getpinfo` succeed for both, though the only process there is has the pid 1. -/
theorem pid_names_free_slots :
    ∃ k : Kern (Fin 2), Runs .mlfq forkFailEvents.reverse k ∧ k.lock = .free ∧
      (∀ p, (k.proc p).state ≠ .unused → (k.proc p).pid = 1) ∧
      (∃ k₀, kill .mlfq k 0 = .ok (k₀, .done)) ∧ (getpinfo .mlfq k 0).isSome ∧
      (∃ k₂, kill .mlfq k 2 = .ok (k₂, .done)) ∧ (getpinfo .mlfq k 2).isSome ∧
      ¬ NamesLive .mlfq k 0 ∧ ¬ NamesLive .mlfq k 2 := by
  obtain ⟨k, hr, hk⟩ := (kernel .mlfq).exists_runs forkFailEvents (fun k => k.lock = .free ∧
    (∀ p, (k.proc p).state ≠ .unused → (k.proc p).pid = 1) ∧ lookup k 0 = some 2 ∧
    lookup k 2 = some 1 ∧ (k.proc 2).state = .unused ∧ (k.proc 1).state = .unused) (by decide +kernel)
  simp only [decide_eq_true_eq] at hk
  obtain ⟨hl, hone, h0, h2, hu2, hu1⟩ := hk
  obtain ⟨k₀, o₀, hx₀⟩ := exists_kill hr hl 0
  obtain ⟨k₂, o₂, hx₂⟩ := exists_kill hr hl 2
  obtain ⟨rfl, -⟩ := kill_some h0 hx₀
  obtain ⟨rfl, -⟩ := kill_some h2 hx₂
  refine ⟨k, hr, hl, hone, ⟨k₀, hx₀⟩, by unfold getpinfo; rw [h0]; rfl, ⟨k₂, hx₂⟩,
    by unfold getpinfo; rw [h2]; rfl, ?_, ?_⟩
  · exact fun hn => hn.found h0 hu2
  · exact fun hn => hn.found h2 hu1

end Xv6.Process
