import Xv6.Process.Shape

/-!
# What a step does to one process

The fields of a process that make up its life (its state, its pid, whether it is killed, what its
kernel thread is doing, its times) change in few ways. `core_step` says so once for all steps and
all scheduler builds: every invariant about the life of a process is a case analysis on
`CoreStep`.
-/

namespace Xv6.Process

open Lib

variable {C : Type} {b : Sched} {k k' : Kern C} {e : Event C} {p q : ProcId}

/-- The fields of a process that make up its life. -/
structure Core where
  state : ProcState
  pid : Word
  killed : Bool
  thread : Thread
  startTime : Word
  endTime : Word
  runTime : Word

def Proc.core (p : Proc) : Core :=
  ⟨p.state, p.pid, p.killed, p.thread, p.startTime, p.endTime, p.runTime⟩

@[simp] theorem core_state (p : Proc) : p.core.state = p.state := rfl
@[simp] theorem core_pid (p : Proc) : p.core.pid = p.pid := rfl
@[simp] theorem core_killed (p : Proc) : p.core.killed = p.killed := rfl
@[simp] theorem core_thread (p : Proc) : p.core.thread = p.thread := rfl

/-- What `waitx` reports about the child `x`: the wait time and the run time. -/
def Core.times (x : Core) : Word × Word := (x.endTime - x.startTime - x.runTime, x.runTime)

/-- The ways in which the step `e` out of `k` can change the process in the slot `q`. -/
inductive CoreStep (k : Kern C) (e : Event C) (q : ProcId) (x : Core) : Core → Prop
  | same : CoreStep k e q x x
  | wake : x.state = .sleeping → CoreStep k e q x { x with state := .runnable }
  | dispatch : x.state = .runnable → CoreStep k e q x { x with state := .running }
  | yield : x.state = .running → CoreStep k e q x { x with state := .runnable }
  | sleep : x.state = .running → CoreStep k e q x { x with state := .sleeping }
  | alloc : allocates q e = true → x.state = .unused →
      CoreStep k e q x ⟨.embryo, k.nextpid, x.killed, .run, k.ticks, 0, 0⟩
  | abandon {c : C} {p : ProcId} : e.1 = .proc c p .forkFail →
      (k.proc p).thread = .fork q false → x.state = .embryo →
      CoreStep k e q x { x with state := .unused }
  | activate : x.state = .embryo → CoreStep k e q x { x with state := .runnable }
  | kill {c : C} {p : ProcId} {pid : Word} : e.1 = .proc c p (.kill pid) → x.pid = pid →
      ((List.finRange NPROC).find? fun p => (k.proc p).pid = pid) = some q →
      ∀ s, s = x.state ∨ x.state = .sleeping ∧ s = .runnable →
      CoreStep k e q x { x with killed := true, state := s }
  | trap {c : C} : e.1 = .proc c q .trapKill → x.state = .running →
      CoreStep k e q x { x with killed := true }
  | exitBegin {c : C} : e.1 = .proc c q .exitBegin → x.state = .running →
      CoreStep k e q x { x with endTime := k.ticks, thread := .exit }
  | exit {c : C} : e.1 = .proc c q .exit → x.state = .running → x.thread = .exit →
      CoreStep k e q x { x with state := .zombie }
  | reap {times : Option (Word × Word)} : e.2 = .reaped q x.pid times → x.state = .zombie →
      (∀ t ∈ times, t = x.times) →
      CoreStep k e q x { x with state := .unused, pid := 0, killed := false }
  | thread : x.state = .running → ∀ t, t ≠ .exit → x.thread ≠ .exit →
      CoreStep k e q x { x with thread := t }
  | incRuntime : e.1 = .incRuntime → x.state = .running →
      CoreStep k e q x { x with runTime := x.runTime + 1 }

theorem CoreStep.of_eq {y y' : Core} (h : y = y') : CoreStep k e q y y' := h ▸ .same

theorem CoreStep.used {x y : Core} (h : CoreStep k e q x y) (ha : allocates q e = false)
    (hy : y.state ≠ .unused) : x.state ≠ .unused := by
  cases h with
  | same | incRuntime => exact hy
  | alloc h _ => simp [ha] at h
  | wake hx | dispatch hx | yield hx | sleep hx | activate hx | thread hx => simp [hx]
  | trap _ hx | exitBegin _ hx | exit _ hx | abandon _ _ hx | reap _ hx => simp [hx]
  | kill _ _ _ s hs =>
    rcases hs with rfl | ⟨hx, -⟩
    · exact hy
    · simp [hx]

theorem Woken.coreStep {x x' : Proc} (h : Woken x x') : CoreStep k e q x.core x'.core := by
  rcases h with rfl | ⟨hs, t, a, rfl⟩
  · exact .same
  · exact .wake hs

theorem WokenAll.coreStep (h : WokenAll k k') (q : ProcId) :
    CoreStep k e q (k.proc q).core (k'.proc q).core := (h.2 q).coreStep

/-- A change of one process structure: it is enough to look at its own slot. -/
theorem coreStep_setProc {k₀ : Kern C} {f : Proc → Proc}
    (h : CoreStep k₀ e p (k.proc p).core (f (k.proc p)).core) (q : ProcId) :
    CoreStep k₀ e q (k.proc q).core ((k.setProc p f).proc q).core := by
  by_cases hq : q = p
  · subst hq; simpa using h
  · rw [Kern.setProc_proc_ne _ _ _ hq]; exact .same

theorem find?_mem {f : ProcId → Bool} (h : (List.finRange NPROC).find? f = some p) : f p = true :=
  List.find?_some h

/-! ### The pieces -/

theorem switchTo_core [DecidableEq C] {k₀ : Kern C} (hp : (k.proc p).state = .runnable) {c : C} (q : ProcId) :
    CoreStep k₀ e q (k.proc q).core ((switchTo k c p).proc q).core :=
  coreStep_setProc (f := fun q => { q with numRun := q.numRun + 1, state := .running })
    (.dispatch hp) q

theorem allocproc_core (h : allocproc k = some (p, k')) (he : allocates p e = true)
    (q : ProcId) : CoreStep k e q (k.proc q).core (k'.proc q).core := by
  obtain ⟨hu, rfl⟩ := allocproc_eq h
  exact coreStep_setProc (f := embryo k) (.alloc he hu) q

theorem activate_core (ha : (k.proc p).state = .embryo)
    (h : activate b k p = .ok k') (q : ProcId) :
    CoreStep k e q (k.proc q).core (k'.proc q).core := by
  rw [(activate_frame h).2]
  exact coreStep_setProc (f := fun q => { q with state := .runnable }) (.activate ha) q

theorem kill_core {c : C} {r : ProcId} {pid : Word} {o : Out} (he : e.1 = .proc c r (.kill pid))
    (h : kill b k pid = .ok (k', o)) (q : ProcId) :
    CoreStep k e q (k.proc q).core (k'.proc q).core := by
  rcases kill_cases h with ⟨rfl, -⟩ | ⟨p, hp, -, h⟩
  · exact .same
  have hpid : (k.proc p).pid = pid := by simpa using find?_mem hp
  rcases h with rfl | ⟨hs, hw⟩
  · exact coreStep_setProc (f := fun q => { q with killed := true })
      (.kill he hpid hp _ (.inl rfl)) q
  · have hw := (wake_frame (by simpa using hs) hw).2 q
    by_cases hq : q = p
    · subst hq
      rw [Kern.setProc_proc_self] at hw
      rcases hw with hw | ⟨-, t, a, hw⟩
      · rw [hw]; exact .kill he hpid hp _ (.inl rfl)
      · rw [hw]; exact .kill he hpid hp _ (.inr ⟨hs, rfl⟩)
    · rw [Kern.setProc_proc_ne _ _ _ hq] at hw
      exact hw.coreStep

theorem exit_core {c : C} (he : e.1 = .proc c p .exit) (hs : (k.proc p).state = .running)
    (ht : (k.proc p).thread = .exit) (h : exit b k c p = .ok k') (q : ProcId) :
    CoreStep k e q (k.proc q).core (k'.proc q).core := by
  obtain ⟨k₁, hst, rfl⟩ := exit_frame h
  obtain ⟨par, hw⟩ := hst.2 q
  by_cases hq : q = p
  · subst hq
    have : ({ k₁.proc q with state := .zombie } : Proc).core =
        { (k.proc q).core with state := .zombie } := by
      rcases hw with hw | ⟨-, t, a, hw⟩ <;> rw [hw] <;> rfl
    simp only [Kern.setProc_proc_self, this]
    exact .exit he hs ht
  · simp only [Kern.setProc_proc_ne _ _ _ hq]
    exact hw.coreStep

theorem waitLoop_core {k₀ : Kern C} {w : WaitKind} {c : C} (hs : (k.proc p).state = .running)
    (ho : e.2 = (waitLoop w k c p).2) (q : ProcId) :
    CoreStep k₀ e q (k.proc q).core ((waitLoop w k c p).1.proc q).core := by
  unfold waitLoop at ho ⊢
  split at ho
  · rename_i z hz
    have hzs : (k.proc z).state = .zombie := by
      have := find?_mem hz
      simp only [decide_eq_true_eq] at this
      exact this.2
    refine coreStep_setProc (f := reap) (.reap ho hzs ?_) q
    cases w <;> simp [Core.times, Proc.core]
  · dsimp only at ho ⊢
    split at ho
    · rename_i hk
      simp only [hk, if_true]
      exact .same
    · rename_i hk
      simp only [hk]
      exact coreStep_setProc
        (f := fun q => { q with chan := some (.proc p), state := .sleeping, context := .wait w })
        (.sleep hs) q

theorem Tallied.core (h : Tallied k k') (q : ProcId) : (k'.proc q).core = (k.proc q).core := by
  obtain ⟨i, a, t, ct, hq⟩ := h.2 q
  rw [hq]
  rfl

theorem Pass.core [DecidableEq C] {k₀ : Kern C} {c : C} {o : Out} (h : Pass k c k' o) (q : ProcId) :
    CoreStep k₀ e q (k.proc q).core (k'.proc q).core := by
  cases h with
  | rest h => exact .of_eq (h.core q).symm
  | dispatch h hp =>
    rw [← h.core q]
    exact switchTo_core hp q

theorem requeue_core (h : requeue k p = .ok k') (q : ProcId) :
    (k'.proc q).core = (k.proc q).core := by
  unfold requeue at h
  split at h
  · dsimp only at h
    rw [(enqueue_frame h).2]
    split
    all_goals
      by_cases hq : q = p
      · subst hq; simp only [Kern.setProc_proc_self]; rfl
      · simp only [Kern.setProc_proc_ne _ _ _ hq]
  · cases h; rfl

theorem back_core [DecidableEq C] {c : C} {o : Out} (h : back b k c p = .ok (k', o)) (q : ProcId) :
    CoreStep k e q (k.proc q).core (k'.proc q).core := by
  unfold back at h
  dsimp only at h
  split at h
  · obtain ⟨rfl, rfl⟩ := Prod.mk.inj (Except.ok.inj h)
    exact (schedRR_pass { k with cpu := Function.update k.cpu c none } ..).core q
  · split at h
    · cases h
    · rename_i k₁ h₁
      cases h
      exact .of_eq (requeue_core h₁ q).symm
  · cases h; exact .same

theorem resume_core {c : C} (hs : (k.proc p).state = .running) (ho : e.2 = (resume k c p).2)
    (q : ProcId) : CoreStep k e q (k.proc q).core ((resume k c p).1.proc q).core := by
  have hset : ∀ r, ((k.setProc p fun q => { q with chan := none }).proc r).core =
      (k.proc r).core := fun r => by
    by_cases hr : r = p
    · subst hr; simp only [Kern.setProc_proc_self]; rfl
    · simp only [Kern.setProc_proc_ne _ _ _ hr]
  unfold resume at ho ⊢
  split at ho
  · exact .same
  · exact .same
  · exact .of_eq (hset q).symm
  · rw [← hset q]
    exact waitLoop_core (by simpa using hs) ho q

/-! ### Every step -/

theorem allocates_fork {c : C} (h : e.1 = .proc c p .forkAlloc) (ho : e.2 = .alloc q) :
    allocates q e = true := by
  obtain ⟨a, o⟩ := e
  obtain rfl : a = .proc c p .forkAlloc := h
  obtain rfl : o = .alloc q := ho
  simp [allocates]

theorem execProc_core [DecidableEq C] {c : C} {a : ProcAct} (hs : Shape k)
    (he : e.1 = .proc c p a) (hen : enabled b k e.1 = true)
    (h : execProc b k c p a = .ok (k', e.2)) (q : ProcId) :
    CoreStep k e q (k.proc q).core (k'.proc q).core := by
  obtain ⟨hc, hallow, hfree, -, hrun⟩ := lock_of_enabled hs (he ▸ hen)
  -- a field outside the core
  have hset : ∀ {f : Proc → Proc}, (∀ x, (f x).core = x.core) →
      CoreStep k e q (k.proc q).core ((k.setProc p f).proc q).core := fun hf =>
    coreStep_setProc (.of_eq (hf _).symm) q
  generalize ho : e.2 = o at h
  cases a with
  | yield =>
    cases h
    exact coreStep_setProc (f := fun q => { q with state := .runnable, context := .yield })
      (.yield hrun) q
  | sleep chan =>
    cases h
    exact coreStep_setProc
      (f := fun q => { q with chan := some chan, state := .sleeping, context := .sleep })
      (.sleep hrun) q
  | wait w =>
    obtain ⟨rfl, rfl⟩ := Prod.mk.inj (Except.ok.inj h)
    exact waitLoop_core hrun ho q
  | exitBegin =>
    simp only [execProc] at h
    split at h
    · cases h
    · cases h
      exact coreStep_setProc (f := fun q => { q with endTime := k.ticks, thread := .exit })
        (.exitBegin he hrun) q
  | exit =>
    obtain ⟨h₁, rfl⟩ := execProc_exit h
    exact exit_core he hrun (of_decide_eq_true hallow) h₁ q
  | forkAlloc =>
    simp only [execProc] at h
    split at h
    · cases h; exact .same
    · rename_i np k₁ h₁
      cases h
      obtain ⟨hu, -⟩ := allocproc_eq h₁
      have ht : (k.proc p).thread = .run := of_decide_eq_true hallow
      have ha : CoreStep k e q (k.proc q).core (k₁.proc q).core :=
        allocproc_core h₁ (allocates_fork he ho) q
      by_cases hq : q = p
      · -- the slot is not the caller's own, which is running
        subst hq
        have hne : q ≠ np := by rintro rfl; simp [hrun] at hu
        obtain ⟨-, rfl⟩ := allocproc_eq h₁
        simp only [Kern.setProc_proc_self, Kern.setProc_proc_ne _ _ _ hne]
        exact .thread hrun _ (by simp) (by simp [ht])
      · rw [Kern.setProc_proc_ne _ _ _ hq]
        exact ha
  | forkFail =>
    obtain ⟨np, d, ht, rfl, rfl⟩ := execProc_forkFail h
    have hne : np ≠ p := by rintro rfl; simp [hs.fork ht] at hrun
    rw [ht] at hallow
    cases d with
    | true => cases hallow
    | false =>
      by_cases hq : q = p
      · subst hq
        simp only [Kern.setProc_proc_self, Kern.setProc_proc_ne _ _ _ hne.symm]
        exact .thread hrun _ (by simp) (by simp [ht])
      · rw [Kern.setProc_proc_ne _ _ _ hq]
        by_cases hqn : q = np
        · subst hqn
          simp only [Kern.setProc_proc_self]
          exact .abandon he ht (hs.fork ht)
        · rw [Kern.setProc_proc_ne _ _ _ hqn]
          exact .same
  | forkCopy =>
    obtain ⟨np, d, ht, rfl, rfl⟩ := execProc_forkCopy h
    have hne : np ≠ p := by rintro rfl; simp [hs.fork ht] at hrun
    by_cases hq : q = p
    · subst hq
      simp only [Kern.setProc_proc_self, Kern.setProc_proc_ne _ _ _ hne.symm]
      exact .thread hrun _ (by simp) (by simp [ht])
    · rw [Kern.setProc_proc_ne _ _ _ hq]
      exact coreStep_setProc (f := fun q => { q with parent := some p }) .same q
  | fork =>
    obtain ⟨np, d, k₁, ht, h₁, rfl, rfl⟩ := execProc_fork h
    have hne : np ≠ p := by rintro rfl; simp [hs.fork ht] at hrun
    have ha : CoreStep k e q (k.proc q).core (k₁.proc q).core :=
      activate_core (hs.fork ht) h₁ q
    by_cases hq : q = p
    · subst hq
      simp only [Kern.setProc_proc_self, (activate_frame h₁).2,
        Kern.setProc_proc_ne _ _ _ hne.symm]
      exact .thread hrun _ (by simp) (by simp [ht])
    · rw [Kern.setProc_proc_ne _ _ _ hq]
      exact ha
  | kill pid => exact kill_core he h q
  | trapKill =>
    cases h
    exact coreStep_setProc (f := fun q => { q with killed := true }) (.trap he hrun) q
  | setPriority n =>
    simp only [execProc] at h
    split at h
    · cases h; exact .same
    · cases h; exact hset fun _ => rfl
  | incPinfoTicks =>
    simp only [execProc] at h
    split at h
    · cases h; exact hset fun _ => rfl
    · cases h
  | punisher => cases h; exact hset fun _ => rfl
  | incTimeslice => cases h; exact hset fun _ => rfl

/-- **What a step does to one process.** -/
theorem core_step [DecidableEq C] (hs : Shape k) (h : Step b k e k') (q : ProcId) :
    CoreStep k e q (k.proc q).core (k'.proc q).core := by
  obtain ⟨a, o⟩ := e
  obtain ⟨he, hx⟩ := step_iff.1 h
  cases a with
  | userinitAlloc =>
    obtain ⟨p, k₁, h₁, rfl, rfl⟩ := exec_userinitAlloc hx
    exact allocproc_core h₁ (by simp [allocates]) q
  | userinit =>
    obtain ⟨p, k₁, hb, h₁, rfl, rfl⟩ := exec_userinit hx
    exact activate_core (hs.boot hb) h₁ q
  | readTicks c => cases hx; exact .same
  | scheduler c =>
    exact (scheduler_pass hx).core q
  | resume c =>
    obtain ⟨p, hl, hx⟩ := exec_resume he hx
    obtain ⟨rfl, rfl⟩ := Prod.mk.inj hx
    exact resume_core (hs.running (hs.resumed hl) (by simp [hl])) rfl q
  | back c =>
    obtain ⟨p, -, hx⟩ := exec_back he hx
    exact back_core hx q
  | proc c p a => exact execProc_core hs rfl he hx q
  | wakeup chan =>
    obtain ⟨h₁, rfl⟩ := exec_wakeup hx
    exact (wakeup1_frame h₁).coreStep q
  | tick => cases hx; exact .same
  | incRuntime =>
    cases hx
    simp only [incRuntime]
    split
    · rename_i hr
      exact .incRuntime rfl hr
    · exact .same
  | wakeupTicks =>
    obtain ⟨k₁, h₁, rfl, rfl⟩ := exec_wakeupTicks hx
    exact (wakeup1_frame h₁).coreStep q

/-- What `allocproc` finds in the slot it takes, and leaves there. -/
theorem alloc_step [DecidableEq C] (hs : Shape k) (h : Step b k e k') (he : allocates q e = true) :
    (k.proc q).state = .unused ∧ (k'.proc q).core =
      ⟨.embryo, k.nextpid, (k.proc q).killed, .run, k.ticks, 0, 0⟩ := by
  obtain ⟨a, o⟩ := e
  obtain ⟨hen, hx⟩ := step_iff.1 h
  unfold allocates at he
  split at he
  · rename_i p heq
    obtain ⟨rfl, rfl⟩ := Prod.mk.inj heq
    obtain rfl : p = q := by simpa using he
    simp only [exec] at hx
    split at hx
    · cases hx
    · rename_i h₁
      cases hx
      obtain ⟨hu, rfl⟩ := allocproc_eq h₁
      exact ⟨hu, by simp only [Kern.setProc_proc_self]; rfl⟩
  · rename_i c r p heq
    obtain ⟨rfl, rfl⟩ := Prod.mk.inj heq
    obtain rfl : p = q := by simpa using he
    obtain ⟨-, -, -, -, hrun⟩ := lock_of_enabled hs hen
    simp only [exec, execProc] at hx
    split at hx
    · cases hx
    · rename_i h₁
      cases hx
      obtain ⟨hu, rfl⟩ := allocproc_eq h₁
      have hne : p ≠ r := by rintro rfl; simp [hrun] at hu
      refine ⟨hu, ?_⟩
      simp only [Kern.setProc_proc_ne _ _ _ hne, Kern.setProc_proc_self]
      rfl
  · cases he

/-! ### Reaping -/

/-- The process whose `wait` or `waitx` the act goes on with. -/
def waiter (k : Kern C) : Act C → Option ProcId
  | .proc _ p (.wait _) => some p
  | .resume _ => match k.lock with | .resumed _ p => some p | _ => none
  | _ => none

/-- What a reaping loop answers is about a zombie, whose slot it has freed. -/
theorem waitLoop_reaped {w : WaitKind} {c : C} {pid : Word} {times : Option (Word × Word)}
    (h : (waitLoop w k c p).2 = .reaped q pid times) :
    (k.proc q).state = .zombie ∧ pid = (k.proc q).pid ∧ (∀ t ∈ times, t = (k.proc q).core.times) ∧
      (k.proc q).parent = some p ∧ ((waitLoop w k c p).1.proc q).state = .unused := by
  unfold waitLoop at h ⊢
  split at h
  · rename_i z hz
    have hf := List.find?_some hz
    simp only [decide_eq_true_eq] at hf
    simp only [Out.reaped.injEq] at h
    obtain ⟨rfl, rfl, rfl⟩ := h
    refine ⟨hf.2, rfl, ?_, hf.1, ?_⟩
    · cases w <;> simp [Core.times, Proc.core]
    · simp [reap]
  · dsimp only at h
    split at h <;> cases h

/-- **A child is reaped** by its parent, as a zombie, and its slot is free afterwards. -/
theorem reaped_step [DecidableEq C] {pid : Word} {times : Option (Word × Word)} (hst : Step b k e k')
    (he : e.2 = .reaped q pid times) :
    (k.proc q).state = .zombie ∧ pid = (k.proc q).pid ∧ (∀ t ∈ times, t = (k.proc q).core.times) ∧
      (∃ p, waiter k e.1 = some p ∧ (k.proc q).parent = some p) ∧ (k'.proc q).state = .unused := by
  obtain ⟨a, o⟩ := e
  obtain rfl : o = .reaped q pid times := he
  obtain ⟨-, hx⟩ := step_iff.1 hst
  have hpass : ∀ {k₁ k₂ : Kern C} {c}, ¬ Pass k₁ c k₂ (.reaped q pid times) := by
    intro k₁ k₂ c h
    cases h with
    | rest h ho => rcases ho with ho | ⟨_, ho⟩ <;> cases ho
  cases a with
  | userinitAlloc | wakeup | wakeupTicks =>
    simp only [exec] at hx
    split at hx <;> cases hx
  | userinit =>
    simp only [exec] at hx
    split at hx
    · split at hx <;> cases hx
    · cases hx
  | readTicks | tick | incRuntime => cases hx
  | scheduler c =>
    exact absurd (scheduler_pass hx) hpass
  | resume c =>
    simp only [exec] at hx
    split at hx
    · rename_i c' p hl
      have ho : (resume k c p).2 = .reaped q pid times := congrArg Prod.snd (Except.ok.inj hx)
      have hk : (resume k c p).1 = k' := congrArg Prod.fst (Except.ok.inj hx)
      unfold resume at ho hk
      split at ho
      · cases ho
      · cases ho
      · cases ho
      · rename_i hctx
        rw [hctx] at hk
        obtain ⟨hz, hpid, ht, hpar, hu⟩ := waitLoop_reaped ho
        -- the channel of the caller has been cleared
        have hset : ((k.setProc p fun q => { q with chan := none }).proc q).core = (k.proc q).core ∧
            ((k.setProc p fun q => { q with chan := none }).proc q).parent = (k.proc q).parent := by
          rw [Kern.setProc_proc]
          split
          · rename_i hq
            rw [hq]
            exact ⟨rfl, rfl⟩
          · exact ⟨rfl, rfl⟩
        rw [← core_state, hset.1] at hz
        rw [← core_pid, hset.1] at hpid
        rw [hset.1] at ht
        rw [hset.2] at hpar
        refine ⟨hz, hpid, ht, ⟨p, ?_, hpar⟩, hk ▸ hu⟩
        simp only [waiter, hl]
    · cases hx
  | back c =>
    simp only [exec] at hx
    split at hx
    · simp only [back] at hx
      split at hx
      · exact absurd (Except.ok.inj hx ▸ schedRR_pass ..) hpass
      · split at hx <;> cases hx
      · cases hx
    · cases hx
  | proc c p a =>
    cases a with
    | wait w =>
      obtain ⟨hz, hpid, ht, hpar, hu⟩ := waitLoop_reaped (congrArg Prod.snd (Except.ok.inj hx))
      rw [show (waitLoop w k c p).1 = k' from congrArg Prod.fst (Except.ok.inj hx)] at hu
      exact ⟨hz, hpid, ht, ⟨p, rfl, hpar⟩, hu⟩
    | yield | sleep | trapKill | punisher | incTimeslice => cases hx
    | exitBegin | exit | forkAlloc | forkFail | forkCopy | setPriority | incPinfoTicks =>
      simp only [exec, execProc] at hx
      split at hx <;> cases hx
    | fork =>
      obtain ⟨-, -, -, -, -, -, h⟩ := execProc_fork (c := c) hx
      cases h
    | kill =>
      rcases kill_cases hx with ⟨-, h⟩ | ⟨-, -, h, -⟩ <;> cases h

/-! ### The clock -/

/-- The clock, the timer interrupt and `userinit` have not moved. -/
structure SameClock (k k' : Kern C) : Prop where
  ticks : k'.ticks = k.ticks
  phase : k'.phase = k.phase
  boot : k'.boot = k.boot

theorem SameClock.refl (k : Kern C) : SameClock k k := ⟨rfl, rfl, rfl⟩

theorem SameRest.sameClock (h : SameRest k k') : SameClock k k' := ⟨h.ticks, h.phase, h.boot⟩

theorem waitLoop_clock {w : WaitKind} {c : C} : SameClock k (waitLoop w k c p).1 := by
  unfold waitLoop
  split
  · exact ⟨rfl, rfl, rfl⟩
  · dsimp only
    split <;> exact ⟨rfl, rfl, rfl⟩

theorem resume_clock {c : C} : SameClock k (resume k c p).1 := by
  unfold resume
  split
  · exact ⟨rfl, rfl, rfl⟩
  · exact ⟨rfl, rfl, rfl⟩
  · exact ⟨rfl, rfl, rfl⟩
  · exact ⟨waitLoop_clock.ticks, waitLoop_clock.phase, waitLoop_clock.boot⟩

theorem Pass.clock [DecidableEq C] {c : C} {o : Out} (h : Pass k c k' o) : SameClock k k' := by
  cases h with
  | rest h | dispatch h => exact ⟨h.1.ticks, h.1.phase, h.1.boot⟩

theorem back_clock [DecidableEq C] {c : C} {o : Out} (h : back b k c p = .ok (k', o)) : SameClock k k' := by
  unfold back at h
  dsimp only at h
  split at h
  · obtain ⟨rfl, rfl⟩ := Prod.mk.inj (Except.ok.inj h)
    have := (schedRR_pass { k with cpu := Function.update k.cpu c none } c (p + 1)).clock
    exact ⟨this.ticks, this.phase, this.boot⟩
  · split at h
    · cases h
    · rename_i h₁
      have := (requeue_calm h₁).2.sameClock
      cases h
      exact ⟨this.ticks, this.phase, this.boot⟩
  · cases h; exact ⟨rfl, rfl, rfl⟩

theorem kill_clock {pid : Word} {o : Out} (h : kill b k pid = .ok (k', o)) : SameClock k k' := by
  rcases kill_cases h with ⟨rfl, -⟩ | ⟨p, -, -, rfl | ⟨hs, h₁⟩⟩
  · exact .refl _
  · exact ⟨rfl, rfl, rfl⟩
  · have := (wake_frame (by simpa using hs) h₁).1.sameClock
    exact ⟨this.ticks, this.phase, this.boot⟩

theorem execProc_clock {c : C} {a : ProcAct} {o : Out}
    (h : execProc b k c p a = .ok (k', o)) : SameClock k k' := by
  cases a with
  | wait w =>
    obtain ⟨rfl, rfl⟩ := Prod.mk.inj (Except.ok.inj h)
    exact waitLoop_clock
  | kill pid => exact kill_clock h
  | yield | sleep | trapKill | punisher | incTimeslice => cases h; exact ⟨rfl, rfl, rfl⟩
  | exitBegin | setPriority | incPinfoTicks =>
    simp only [execProc] at h
    split at h <;> cases h <;> exact ⟨rfl, rfl, rfl⟩
  | exit =>
    obtain ⟨h₁, rfl⟩ := execProc_exit h
    obtain ⟨k₁, hst, rfl⟩ := exit_frame h₁
    have := hst.1.sameClock
    exact ⟨this.ticks, this.phase, this.boot⟩
  | forkAlloc =>
    simp only [execProc] at h
    split at h
    · cases h; exact .refl k
    · rename_i h₁
      obtain ⟨-, rfl⟩ := allocproc_eq h₁
      cases h; exact ⟨rfl, rfl, rfl⟩
  | forkFail | forkCopy =>
    simp only [execProc] at h
    split at h
    · cases h; exact ⟨rfl, rfl, rfl⟩
    · cases h
  | fork =>
    obtain ⟨np, d, k₁, -, h₁, rfl, rfl⟩ := execProc_fork h
    have := (activate_frame h₁).1.sameClock
    exact ⟨this.ticks, this.phase, this.boot⟩

/-- The phase of the timer interrupt after a step. -/
def phaseAfter (t : TickPhase) : Act C → TickPhase
  | .tick => .ticked
  | .incRuntime => .counted
  | .wakeupTicks => .idle
  | _ => t

theorem clock_step [DecidableEq C] (h : Step b k e k') :
    k'.ticks = (if e.1 = .tick then k.ticks + 1 else k.ticks) ∧
      k'.phase = phaseAfter k.phase e.1 := by
  obtain ⟨a, o⟩ := e
  obtain ⟨he, hx⟩ := step_iff.1 h
  have hsame : k'.ticks = k.ticks → k'.phase = k.phase → a ≠ .tick →
      phaseAfter k.phase a = k.phase →
      k'.ticks = (if a = .tick then k.ticks + 1 else k.ticks) ∧ k'.phase = phaseAfter k.phase a :=
    fun ht hp ha hpa => ⟨by rw [if_neg ha, ht], by rw [hpa, hp]⟩
  cases a with
  | userinitAlloc =>
    obtain ⟨p, k₁, h₁, rfl, rfl⟩ := exec_userinitAlloc hx
    obtain ⟨-, rfl⟩ := allocproc_eq h₁
    exact hsame rfl rfl (by simp) rfl
  | userinit =>
    obtain ⟨p, k₁, -, h₁, rfl, rfl⟩ := exec_userinit hx
    have hr := (activate_frame h₁).1
    exact hsame hr.ticks hr.phase (by simp) rfl
  | readTicks c => cases hx; exact hsame rfl rfl (by simp) rfl
  | scheduler c =>
    have hc := (scheduler_pass hx).clock
    exact hsame hc.ticks hc.phase (by simp) rfl
  | resume c =>
    obtain ⟨p, -, hx⟩ := exec_resume he hx
    have hk : (resume k c p).1 = k' := congrArg Prod.fst hx
    exact hsame (hk ▸ resume_clock.ticks) (hk ▸ resume_clock.phase) (by simp) rfl
  | back c =>
    obtain ⟨p, -, hx⟩ := exec_back he hx
    exact hsame (back_clock hx).ticks (back_clock hx).phase (by simp) rfl
  | proc c p a => exact hsame (execProc_clock hx).ticks (execProc_clock hx).phase (by simp) rfl
  | wakeup chan =>
    obtain ⟨h₁, rfl⟩ := exec_wakeup hx
    have hr := (wakeup1_frame h₁).1
    exact hsame hr.ticks hr.phase (by simp) rfl
  | tick => cases hx; exact ⟨by simp, rfl⟩
  | incRuntime => cases hx; exact ⟨by simp [incRuntime], rfl⟩
  | wakeupTicks =>
    obtain ⟨k₁, h₁, rfl, rfl⟩ := exec_wakeupTicks hx
    have hr := (wakeup1_frame h₁).1
    exact ⟨by simpa using hr.ticks, rfl⟩

end Xv6.Process
