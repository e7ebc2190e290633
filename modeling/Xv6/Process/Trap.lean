import Xv6.Process.Turn

/-!
# `trap.c`: the timer interrupt of the multi-level feedback build

On CPU 0 the handler first advances the clock and the run times. Then the process that was
interrupted, if there is one, goes through the rest of the handler: it leaves if it was killed in user
mode, counts the tick for its queue, and either uses up its slice and yields, or gets one more tick.
The handler runs with interrupts off on its CPU, so a process is in at most one of them; a process
that yields in the handler comes back to it.
-/

namespace Xv6.Process

open Lib

variable {C : Type} [DecidableEq C]

/-- Where a process is in the timer handler. `user` says that the interrupt came from user mode. -/
inductive TrapPc
  /-- Not in the timer handler. -/
  | out
  /-- CPU 0, between `acquire(&tickslock)` and `release(&tickslock)`. -/
  | tick (user : Bool)
  /-- Before the test of `killed` at the top. -/
  | check (user : Bool)
  /-- Before `inc_pinfo_ticks()`. -/
  | count (user : Bool)
  /-- Before the comparison of `cur_timeslices` with `TIMESLICE(queue)`. -/
  | compare (user : Bool)
  /-- Before `punisher()`. -/
  | punish (user : Bool)
  /-- Before `yield()`. -/
  | yield (user : Bool)
  /-- Before `inc_timeslice()`. -/
  | slice
  /-- Before the test of `killed` at the end. -/
  | recheck (user : Bool)
  /-- In the `exit()` at the top. -/
  | exitTop
  /-- In the `exit()` at the end. -/
  | exitEnd
  deriving DecidableEq

def ProcAct.exits : ProcAct → Bool
  | .exitBegin | .exit | .sleep _ => true
  | _ => false

/-- The piece of code belongs to the timer handler alone. -/
def ProcAct.handles : ProcAct → Bool
  | .incPinfoTicks | .punisher | .incTimeslice => true
  | _ => false

namespace TrapPc

/-- The pieces of code that a process can run there. -/
def admits (pc : TrapPc) (a : ProcAct) : Bool :=
  match pc with
  | .out => !a.handles
  | .count _ => a = .incPinfoTicks
  | .punish _ => a = .punisher
  | .yield _ => a = .yield
  | .slice => a = .incTimeslice
  | .exitTop | .exitEnd => a.exits
  | _ => false

def next : TrapPc → TrapPc
  | .count user => .compare user
  | .punish user => .yield user
  | .yield user => .recheck user
  | .slice => .out
  | pc => pc

/-- Where the process on CPU 0 is after `release(&tickslock)`. -/
def ticked : TrapPc → TrapPc
  | .tick user => .check user
  | pc => pc

/-- The next thing in the handler is a test. -/
def tests : TrapPc → Bool
  | .check _ | .compare _ | .recheck _ => true
  | _ => false

/-- The process is in the handler and has not yielded or called `exit`. -/
def inside : TrapPc → Bool
  | .out | .recheck _ | .exitTop | .exitEnd => false
  | _ => true

end TrapPc

/-- `TIMESLICE(i)`. -/
def timeslice (i : ℤ) : Word := 1 <<< i.toNat

/-- The tests that the handler makes without the lock. -/
def TrapPc.test (p : Proc) : TrapPc → TrapPc
  | .check user =>
    if p.killed && user then .exitTop else if p.state = .running then .count user else .recheck user
  | .compare user => if (timeslice p.queue).sle p.curTimeslices then .punish user else .slice
  | .recheck user => if p.killed && user then .exitEnd else .out
  | pc => pc

/-- The kernel together with the places of the processes in the timer handler. -/
structure Trap (C : Type) where
  kern : Kern C
  pc : ProcId → TrapPc

inductive TrapAct (C : Type)
  /-- A step of the kernel. -/
  | kern (a : Act C)
  /-- A timer interrupt on `c`, while it runs `p` or its scheduler. -/
  | timer (c : C) (p : Option ProcId) (user : Bool)
  /-- A test of the handler. -/
  | test (c : C) (p : ProcId)
  deriving DecidableEq

abbrev TrapEvent (C : Type) := TrapAct C × Out

section machine

variable (cpu0 : C)

/-- The step of the kernel is one that the handlers in progress leave to be taken. The clock advances
in the handler only, and the scheduler of CPU 0 waits for the handler that interrupted it. -/
def Trap.admits (s : Trap C) : Act C → Bool
  | .proc _ p a => (s.pc p).admits a
  | .scheduler c | .readTicks c => c ≠ cpu0 || s.kern.phase = .idle
  | .tick => false
  | _ => true

/-- Where the process `p` is after a step of the kernel. -/
def Trap.pcAfter (s : Trap C) (e : Event C) (p : ProcId) : TrapPc :=
  if allocates p e then .out
  else match e.1 with
    | .proc _ q _ => if q = p then (s.pc p).next else s.pc p
    | .wakeupTicks => if s.kern.cpu cpu0 = some p then (s.pc p).ticked else s.pc p
    | _ => s.pc p

/-- A process is interrupted by the timer. -/
def Trap.arrive (s : Trap C) (c : C) (user : Bool) (p : Option ProcId) (q : ProcId) : TrapPc :=
  if p = some q then if c = cpu0 then .tick user else .check user else s.pc q

def Trap.enabled (s : Trap C) : TrapAct C → Bool
  | .kern a => Process.enabled .mlfq s.kern a && s.admits cpu0 a
  | .timer c p _ =>
    s.kern.cpu c = p && !s.kern.lock.heldBy c && p.all (fun p => s.pc p = .out) &&
      (c ≠ cpu0 || s.kern.phase = .idle)
  | .test c p => s.kern.cpu c = some p && !s.kern.lock.heldBy c && (s.pc p).tests

def Trap.exec (s : Trap C) : TrapAct C → Except Fault (Trap C × Out)
  | .kern a =>
    match Process.exec .mlfq s.kern a with
    | .error f => .error f
    | .ok (k, o) => .ok (⟨k, s.pcAfter cpu0 (a, o)⟩, o)
  | .timer c p user =>
    if c = cpu0 then
      match Process.exec .mlfq s.kern .tick with
      | .error f => .error f
      | .ok (k, o) => .ok (⟨k, s.arrive cpu0 c user p⟩, o)
    else .ok (⟨s.kern, s.arrive cpu0 c user p⟩, .done)
  | .test _ p => .ok (⟨s.kern, Function.update s.pc p ((s.pc p).test (s.kern.proc p))⟩, .done)

/-- **The multi-level feedback build with its timer handler**, for any set of CPUs. -/
def traps : Machine (Trap C) (TrapAct C) Out Fault := ⟨⟨boot C, fun _ => .out⟩, Trap.enabled cpu0, Trap.exec cpu0⟩

end machine

variable {cpu0 : C} {s s' : Trap C} {e : TrapEvent C} {h : List (TrapEvent C)} {k k' : Kern C} {p q : ProcId}

/-! ### The kernel of a run -/

/-- A step of the machine is a step of the kernel, or leaves it as it is. -/
theorem kern_step (hst : (traps cpu0).Step s e s') :
    (∃ a, e.1 = .kern a ∧ s.admits cpu0 a = true ∧ Step .mlfq s.kern (a, e.2) s'.kern ∧
        s'.pc = s.pcAfter cpu0 (a, e.2)) ∨
      (∃ c p user, e.1 = .timer c p user ∧ s.kern.cpu c = p ∧ s.kern.lock.heldBy c = false ∧
        p.all (fun p => s.pc p = .out) = true ∧ s'.pc = s.arrive cpu0 c user p ∧
        (c = cpu0 ∧ s.kern.phase = .idle ∧ Step .mlfq s.kern (.tick, .done) s'.kern ∨
          c ≠ cpu0 ∧ s'.kern = s.kern)) ∨
      ∃ c p, e.1 = .test c p ∧ s.kern.cpu c = some p ∧ s.kern.lock.heldBy c = false ∧
        (s.pc p).tests = true ∧ s'.kern = s.kern ∧
        s'.pc = Function.update s.pc p ((s.pc p).test (s.kern.proc p)) := by
  obtain ⟨a, o⟩ := e
  obtain ⟨hen, hx⟩ := hst
  cases a with
  | kern a =>
    left
    simp only [traps, Trap.enabled, Bool.and_eq_true] at hen
    simp only [traps, Trap.exec] at hx
    split at hx
    · cases hx
    · rename_i k o' hk
      cases hx
      exact ⟨a, rfl, hen.2, ⟨hen.1, hk⟩, rfl⟩
  | timer c p user =>
    right; left
    simp only [traps, Trap.enabled, Bool.and_eq_true, decide_eq_true_eq, Bool.not_eq_true',
      Bool.or_eq_true, ne_eq, decide_not] at hen
    obtain ⟨⟨⟨hcpu, hheld⟩, hout⟩, hphase⟩ := hen
    simp only [traps, Trap.exec] at hx
    split at hx
    · rename_i hc
      cases hx
      have hidle : s.kern.phase = .idle := by simpa [hc] using hphase
      exact ⟨c, p, user, rfl, hcpu, hheld, hout, rfl,
        .inl ⟨hc, hidle, by simp [kernel, Process.enabled, hidle], rfl⟩⟩
    · rename_i hc
      cases hx
      exact ⟨c, p, user, rfl, hcpu, hheld, hout, rfl, .inr ⟨hc, rfl⟩⟩
  | test c p =>
    right; right
    simp only [traps, Trap.enabled, Bool.and_eq_true, decide_eq_true_eq, Bool.not_eq_true'] at hen
    cases hx
    exact ⟨c, p, rfl, hen.1.1, hen.1.2, hen.2, rfl, rfl⟩

theorem kern_step_of {a : Act C} (hst : (traps cpu0).Step s e s') (he : e.1 = .kern a) :
    Step .mlfq s.kern (a, e.2) s'.kern := by
  rcases kern_step hst with ⟨a', ha', -, hstep, -⟩ | ⟨_, _, _, ha', -⟩ | ⟨_, _, ha', -⟩
  · rw [he] at ha'
    cases ha'
    exact hstep
  · rw [he] at ha'
    cases ha'
  · rw [he] at ha'
    cases ha'

/-- A piece of code of `p` is one that the handler admits there. -/
theorem kern_proc {c : C} {a : ProcAct} (hst : (traps cpu0).Step s e s') (he : e.1 = .kern (.proc c p a)) :
    (s.pc p).admits a = true ∧ s'.pc = s.pcAfter cpu0 (.proc c p a, e.2) := by
  rcases kern_step hst with ⟨a', ha', hadm, -, hpc⟩ | ⟨_, _, _, ha', -⟩ | ⟨_, _, ha', -⟩
  · rw [he] at ha'
    cases ha'
    exact ⟨hadm, hpc⟩
  · rw [he] at ha'
    cases ha'
  · rw [he] at ha'
    cases ha'

theorem kern_runs (hr : (traps cpu0).Runs h s) : ∃ h', Runs .mlfq h' s.kern := by
  refine hr.invariant (P := fun _ s => ∃ h', Runs .mlfq h' s.kern) ⟨[], .start⟩ ?_
  rintro h s e s' - ⟨h', hk⟩ hst
  rcases kern_step hst with ⟨a, -, -, hstep, -⟩ | ⟨c, p, user, -, -, -, -, -, ⟨-, -, hstep⟩ | ⟨-, hsame⟩⟩ |
    ⟨c, p, -, -, -, -, hsame, -⟩
  · exact ⟨_, .step hk hstep⟩
  · exact ⟨_, .step hk hstep⟩
  · exact ⟨h', hsame ▸ hk⟩
  · exact ⟨h', hsame ▸ hk⟩

/-! ### On the way back to the scheduler -/

theorem enabled_proc {b : Sched} {c : C} {a : ProcAct} (hen : enabled b k (.proc c p a) = true) :
    k.cpu c = some p ∧ (a.locked = true → k.lock = .free) ∧ k.lock.heldBy c = false := by
  simp only [enabled, Bool.and_eq_true, decide_eq_true_eq] at hen
  obtain ⟨⟨hcpu, -⟩, hlock⟩ := hen
  cases ha : a.locked with
  | true =>
    have hfree : k.lock = .free := by simpa [ha] using hlock
    exact ⟨hcpu, fun _ => hfree, by rw [hfree]; rfl⟩
  | false =>
    refine ⟨hcpu, by simp, by simpa [ha] using hlock⟩

theorem Shape.running_of_not_held {c : C} (hs : Shape k) (hc : k.cpu c = some p)
    (hl : k.lock.heldBy c = false) : (k.proc p).state = .running := by
  refine hs.running hc fun h => ?_
  rw [h] at hl
  simp [Lock.heldBy] at hl

/-- A process that gets on its way back to the scheduler was running. -/
theorem leaves_running {b : Sched} {e : Event C} {c : C} (hs : Shape k) (hst : Step b k e k')
    (hl' : k'.lock = .back c p) (hl : k.lock ≠ .back c p) : (k.proc p).state = .running := by
  have hands := (hands_step hst).lock
  have hen : enabled b k e.1 = true := hst.1
  obtain ⟨a, o⟩ := e
  rw [hl'] at hands
  cases a with
  | resume c' =>
    cases hlock : k.lock with
    | resumed c₁ p₁ =>
      have hrun := hs.running (hs.resumed hlock) (by simp [hlock])
      cases o <;> simp only [lockAfter, hlock] at hands <;> cases hands
      exact hrun
    | free | back => simp [enabled, hlock] at hen
  | back c' | scheduler c' => cases o <;> cases hands
  | proc c' p' a =>
    have hrun := hs.running_of_not_held (enabled_proc hen).1 (enabled_proc hen).2.2
    cases a with
    | yield | sleep chan | exit =>
      cases hands
      exact hrun
    | wait w =>
      cases o <;> cases hands
      exact hrun
    | _ => exact absurd hands.symm hl
  | _ => exact absurd hands.symm hl

omit [DecidableEq C] in
theorem TurnStep.embryo {b : Sched} {e : Event C} {x y : Turn} (h : TurnStep b k e q x y)
    (hy : y.state = .embryo) : x.state = .embryo ∨ allocates q e = true := by
  cases h with
  | same | age => exact .inl hy
  | alloc ha => exact .inr ha
  | requeue _ _ _ hx =>
    have hy : x.state = .embryo := hy
    rw [hx] at hy
    cases hy
  | setPriority _ hx | incRuntime _ hx | incPinfoTicks _ _ hx | punisher _ hx | incTimeslice _ hx =>
    have hy : x.state = .embryo := hy
    rw [hx] at hy
    cases hy
  | _ => cases hy

theorem allocates_free {b : Sched} {e : Event C} (hst : Step b k e k') (ha : allocates q e = true) :
    k.lock = .free := by
  have hen : enabled b k e.1 = true := hst.1
  obtain ⟨a, o⟩ := e
  cases a with
  | userinitAlloc =>
    simp only [enabled, Bool.and_eq_true, decide_eq_true_eq] at hen
    exact hen.2
  | proc c p a =>
    cases a with
    | forkAlloc => exact (enabled_proc hen).2.1 rfl
    | _ => cases ha
  | _ => cases ha

/-- A process on its way back is not a new one. -/
theorem Runs.back_embryo {b : Sched} {h : List (Event C)} (hr : Runs b h k) :
    ∀ c p, k.lock = .back c p → (k.proc p).state ≠ .embryo := by
  refine hr.invariant (P := fun _ k => ∀ c p, k.lock = .back c p → (k.proc p).state ≠ .embryo) nofun ?_
  intro h k e k' hr ih hst c p hl hemb
  rcases (Runs.turn_step hr hst p).embryo hemb with hx | ha
  · by_cases hl₀ : k.lock = .back c p
    · exact ih c p hl₀ hx
    · have hrun := leaves_running (Runs.shape hr) hst hl hl₀
      rw [turn_state, hrun] at hx
      cases hx
  · have hands := (hands_step hst).lock
    rw [hl] at hands
    obtain ⟨a, o⟩ := e
    have hfree := allocates_free hst ha
    cases a with
    | userinitAlloc =>
      rw [hfree] at hands
      cases hands
    | proc c p a =>
      cases a with
      | forkAlloc =>
        rw [hfree] at hands
        cases hands
      | _ => cases ha
    | _ => cases ha

/-- Nothing but its scheduler touches a process on its way back. -/
theorem held_step {b : Sched} {h : List (Event C)} {e : Event C} {c : C} (hr : Runs b h k)
    (hst : Step b k e k') (hl : k.lock = .back c p) (he : e.1 ≠ .back c) :
    (k'.proc p).turn = (k.proc p).turn ∧ k'.lock = .back c p := by
  have hands := (hands_step hst).lock
  obtain ⟨a, o⟩ := e
  obtain ⟨hen, hx⟩ := step_iff.1 hst
  rw [hl] at hands
  cases a with
  | readTicks c' | tick =>
    cases hx
    exact ⟨rfl, hl⟩
  | back c' =>
    obtain ⟨p', hl'⟩ := enabled_back hen
    rw [hl] at hl'
    cases hl'
    exact absurd rfl he
  | proc c' p' a =>
    have hlocked : a.locked = false := by
      cases ha : a.locked with
      | false => rfl
      | true =>
        have hfree := (enabled_proc hen).2.1 ha
        rw [hl] at hfree
        cases hfree
    cases a with
    | exitBegin =>
      simp only [exec, execProc] at hx
      split at hx
      · cases hx
      · cases hx
        exact ⟨turn_setProc rfl p, hl⟩
    | trapKill =>
      cases hx
      exact ⟨turn_setProc rfl p, hl⟩
    | forkCopy =>
      simp only [exec, execProc] at hx
      split at hx
      · cases hx
        refine ⟨?_, hl⟩
        rw [turn_setProc (f := fun q => { q with thread := .fork _ true }) rfl,
          turn_setProc (f := fun q => { q with parent := some p' }) rfl]
      · cases hx
    | forkFail =>
      simp only [exec, execProc] at hx
      split at hx
      · rename_i np d hth
        cases hx
        refine ⟨?_, hl⟩
        have hne : p ≠ np := by
          rintro rfl
          exact Runs.back_embryo hr c p hl (hr.shape.fork hth)
        rw [turn_setProc (f := fun q => { q with thread := .run }) rfl, Kern.setProc_proc_ne _ _ _ hne]
      · cases hx
    | _ => cases hlocked
  | resume c' => simp [enabled, hl] at hen
  | userinitAlloc | userinit | scheduler | wakeup | incRuntime | wakeupTicks => simp [enabled, hl] at hen

/-- The scheduler puts a process that comes back runnable onto a queue. -/
theorem back_requeued {e : Event C} {c : C} (hst : Step .mlfq k e k') (he : e.1 = .back c)
    (hl : k.lock = .back c p) :
    (k'.proc p).turn = (if (k.proc p).state = .runnable then (k.proc p).turn.requeued else (k.proc p).turn) ∧
      k'.lock = .free ∧ e.2 = .done := by
  obtain ⟨a, o⟩ := e
  obtain rfl : a = .back c := he
  have hx := (step_iff.1 hst).2
  simp only [exec, hl, back] at hx
  split at hx
  · cases hx
  · rename_i k₁ h₁
    cases hx
    refine ⟨?_, rfl, rfl⟩
    have := requeue_turn h₁ p
    simpa using this

/-- Only the scheduler dispatches, and only a process that is runnable. -/
theorem scheduler_runnable {c : C} (hs : Sound k) (hst : Step .mlfq k (.scheduler c, .dispatch p) k') :
    (k.proc p).state = .runnable := by
  obtain ⟨hen, hx⟩ := step_iff.1 hst
  obtain ⟨qs, hq⟩ := hs.queued
  rw [(enabled_scheduler hen).2] at hq
  have hq : Ready { k with seen := Function.update k.seen c none } none qs := hq.of_eq rfl rfl rfl
  obtain ⟨k₁, o, hx₁, -, ⟨ho, -⟩ | ⟨p', ho, hp'⟩⟩ := hq.schedMLFQ c
  · have hx : schedMLFQ { k with seen := Function.update k.seen c none } c = _ := hx
    rw [hx₁] at hx
    cases hx
    cases ho
  · have hx : schedMLFQ { k with seen := Function.update k.seen c none } c = _ := hx
    rw [hx₁] at hx
    cases hx
    cases ho
    exact hp'

/-! ### What a step does to one process -/

/-- The ways in which a step can move the process `p`, with the turn `x`, in the handler and change
its turn. -/
inductive Handled (cpu0 : C) (s : Trap C) (e : TrapEvent C) (p : ProcId) (x : Turn) : TrapPc → Turn → Prop
  | same : (∀ c, s.kern.lock = .back c p → e.1 ≠ .kern (.back c)) → (∀ c user, e.1 ≠ .timer c (some p) user) →
      Handled cpu0 s e p x (s.pc p) x
  | kern {a : Act C} {y : Turn} : e.1 = .kern a → TurnStep .mlfq s.kern (a, e.2) p x y →
      allocates p (a, e.2) = false → (∀ c, s.kern.lock ≠ .back c p) →
      (∀ c b, a = .proc c p b → (s.pc p).admits b = true ∧ (s.pc p).next = s.pc p) →
      Handled cpu0 s e p x (s.pc p) y
  | alloc {a : Act C} : e.1 = .kern a → allocates p (a, e.2) = true → x.state = .unused →
      Handled cpu0 s e p x .out ⟨.embryo, 60, 0, 0, 0, false, 0, fun _ => 0⟩
  | back {c : C} : e.1 = .kern (.back c) → s.kern.lock = .back c p →
      Handled cpu0 s e p x (s.pc p) (if x.state = .runnable then x.requeued else x)
  | arrive {c : C} {user : Bool} : e.1 = .timer c (some p) user → s.kern.cpu c = some p →
      s.kern.lock.heldBy c = false → s.pc p = .out →
      Handled cpu0 s e p x (if c = cpu0 then .tick user else .check user) x
  | ticked {user : Bool} : e.1 = .kern .wakeupTicks → s.pc p = .tick user →
      Handled cpu0 s e p x (.check user) x
  | test {c : C} : e.1 = .test c p → s.kern.cpu c = some p → x.state = .running →
      (s.pc p).tests = true → Handled cpu0 s e p x ((s.pc p).test (s.kern.proc p)) x
  | count {c : C} {user : Bool} (i : Fin NUM_QUEUES) : e.1 = .kern (.proc c p .incPinfoTicks) →
      s.pc p = .count user → x.queue = (i.val : ℤ) →
      Handled cpu0 s e p x (.compare user) { x with ticks := Function.update x.ticks i (x.ticks i + 1) }
  | punish {c : C} {user : Bool} : e.1 = .kern (.proc c p .punisher) → s.pc p = .punish user →
      Handled cpu0 s e p x (.yield user) { x with punish := true }
  | slice {c : C} : e.1 = .kern (.proc c p .incTimeslice) → s.pc p = .slice →
      Handled cpu0 s e p x .out { x with curTimeslices := x.curTimeslices + 1 }
  | preempt {c : C} {user : Bool} : e.1 = .kern (.proc c p .yield) → s.pc p = .yield user →
      x.state = .running → Handled cpu0 s e p x (.recheck user) { x with state := .runnable }

omit [DecidableEq C] in
theorem TurnStep.fresh {b : Sched} {e : Event C} {x y : Turn} (h : TurnStep b k e q x y)
    (hx : x.state = .unused) (hy : y.state = .embryo) :
    y = ⟨.embryo, 60, 0, 0, 0, false, 0, fun _ => 0⟩ := by
  cases h with
  | alloc => rfl
  | same =>
    rw [hx] at hy
    cases hy
  | age _ _ h | setPriority _ h | incRuntime _ h | incPinfoTicks _ _ h | punisher _ h | incTimeslice _ h
  | requeue _ _ _ h =>
    rw [hx] at h
    cases h
  | _ => cases hy

theorem handled_own {h' : List (Event C)} {a : ProcAct} {c : C} (hk : Runs .mlfq h' s.kern)
    (he : e.1 = .kern (.proc c p a)) (hst : Step .mlfq s.kern (.proc c p a, e.2) s'.kern)
    (hadm : (s.pc p).admits a = true) :
    Handled cpu0 s e p (s.kern.proc p).turn (s.pc p).next (s'.kern.proc p).turn := by
  have hturn := Runs.turn_step hk hst p
  obtain ⟨hcpu, -, hheld⟩ := enabled_proc (step_iff.1 hst).1
  have hrun := hk.shape.running_of_not_held hcpu hheld
  have halloc : allocates p (Act.proc c p a, e.2) = false := by
    by_contra ha
    have := (alloc_step hk.shape hst (by simpa using ha)).1
    rw [hrun] at this
    cases this
  have hback : ∀ c, s.kern.lock ≠ .back c p := by
    intro c' hl
    obtain rfl := hk.shape.cpu_inj hcpu (hk.shape.back hl)
    simp [hl, Lock.heldBy] at hheld
  have hx := (step_iff.1 hst).2
  have hstay : (s.pc p).next = s.pc p →
      Handled cpu0 s e p (s.kern.proc p).turn (s.pc p).next (s'.kern.proc p).turn := by
    intro hnext
    rw [hnext]
    refine .kern he hturn halloc hback fun c' b hb => ?_
    cases hb
    exact ⟨hadm, hnext⟩
  cases hp : s.pc p with
  | out | exitTop | exitEnd => exact hp ▸ hstay (by rw [hp]; rfl)
  | tick | check | compare | recheck =>
    rw [hp] at hadm
    cases hadm
  | count user =>
    rw [hp] at hadm
    obtain rfl : a = .incPinfoTicks := by simpa [TrapPc.admits] using hadm
    simp only [exec, execProc] at hx
    split at hx
    · rename_i hq
      rw [← (Prod.mk.inj (Except.ok.inj hx)).1, Kern.setProc_proc_self]
      exact .count ⟨(s.kern.proc p).queue.toNat, by omega⟩ he hp (by simp [hq.1])
    · cases hx
  | punish user =>
    rw [hp] at hadm
    obtain rfl : a = .punisher := by simpa [TrapPc.admits] using hadm
    simp only [exec, execProc] at hx
    rw [← (Prod.mk.inj (Except.ok.inj hx)).1, Kern.setProc_proc_self]
    exact .punish he hp
  | yield user =>
    rw [hp] at hadm
    obtain rfl : a = .yield := by simpa [TrapPc.admits] using hadm
    simp only [exec, execProc] at hx
    rw [← (Prod.mk.inj (Except.ok.inj hx)).1]
    simp only [Kern.setProc_proc_self]
    exact .preempt he hp hrun
  | slice =>
    rw [hp] at hadm
    obtain rfl : a = .incTimeslice := by simpa [TrapPc.admits] using hadm
    simp only [exec, execProc] at hx
    rw [← (Prod.mk.inj (Except.ok.inj hx)).1, Kern.setProc_proc_self]
    exact .slice he hp

/-- A step of the kernel that is not a piece of code of `p`. -/
theorem handled_kern {h' : List (Event C)} {a : Act C} (hk : Runs .mlfq h' s.kern) (he : e.1 = .kern a)
    (hst : Step .mlfq s.kern (a, e.2) s'.kern) (hown : ∀ c b, a ≠ .proc c p b) :
    Handled cpu0 s e p (s.kern.proc p).turn (s.pcAfter cpu0 (a, e.2) p) (s'.kern.proc p).turn := by
  have hturn := Runs.turn_step hk hst p
  have hnot : ∀ c b, a = .proc c p b → (s.pc p).admits b = true ∧ (s.pc p).next = s.pc p :=
    fun c b h => absurd h (hown c b)
  by_cases ha : allocates p (a, e.2) = true
  · obtain ⟨hx, hcore⟩ := alloc_step hk.shape hst ha
    have hy : (s'.kern.proc p).state = .embryo := congrArg Core.state hcore
    rw [Trap.pcAfter, if_pos ha, hturn.fresh hx hy]
    exact .alloc he ha hx
  have ha' : allocates p (a, e.2) = false := by simpa using ha
  by_cases hback : ∃ c, s.kern.lock = .back c p
  · obtain ⟨c, hl⟩ := hback
    by_cases hbk : a = .back c
    · subst hbk
      rw [(back_requeued hst rfl hl).1]
      simp only [Trap.pcAfter, ha', Bool.false_eq_true, if_false]
      exact .back he hl
    · -- the lock is held, so the handler of CPU 0 does not go on either
      rw [(held_step hk hst hl hbk).1]
      have hpc : s.pcAfter cpu0 (a, e.2) p = s.pc p := by
        have hen := (step_iff.1 hst).1
        simp only [Trap.pcAfter, ha', Bool.false_eq_true, if_false]
        cases a with
        | proc c q b => exact if_neg fun h => hown c b (by rw [h])
        | wakeupTicks => simp [enabled, hl] at hen
        | _ => rfl
      rw [hpc]
      refine .same (fun c' hl' h => hbk ?_) (by simp [he])
      rw [hl] at hl'
      cases hl'
      rw [he] at h
      cases h
      rfl
  · have hback : ∀ c, s.kern.lock ≠ .back c p := fun c h => hback ⟨c, h⟩
    have hkeep : Handled cpu0 s e p (s.kern.proc p).turn (s.pc p) (s'.kern.proc p).turn :=
      .kern he hturn ha' hback hnot
    simp only [Trap.pcAfter, ha', Bool.false_eq_true, if_false]
    cases a with
    | proc c q b =>
      have hne : q ≠ p := fun h => hown c b (by rw [h])
      simp only [hne, if_false]
      exact hkeep
    | wakeupTicks =>
      dsimp only
      split
      · rename_i hcpu
        cases hp : s.pc p with
        | tick user =>
          -- the process runs, so `wakeup` leaves it as it is
          have hrun := hk.shape.running hcpu (hback cpu0)
          have hsame : (s'.kern.proc p).turn = (s.kern.proc p).turn := by
            generalize hy : (s'.kern.proc p).turn = y at hturn
            cases hturn with
            | same => rfl
            | wake h | abandon h | activate h | reap h => simp [hrun] at h
            | alloc h => simp [ha'] at h
            | dispatch h => rcases h with h | h <;> cases h
            | sleep h => rcases h with ⟨_, h⟩ | ⟨_, h⟩ | ⟨h, -⟩ <;> cases h
            | age _ h | requeue _ h | yield h | exit h | setPriority h | incRuntime h | incPinfoTicks _ h
            | punisher h | incTimeslice h => cases h
          rw [hsame]
          exact .ticked he hp
        | _ =>
          rw [hp] at hkeep
          exact hkeep
      · exact hkeep
    | _ => exact hkeep

/-- **What a step does to one process.** -/
theorem handled_step (hr : (traps cpu0).Runs h s) (hst : (traps cpu0).Step s e s') (p : ProcId) :
    Handled cpu0 s e p (s.kern.proc p).turn (s'.pc p) (s'.kern.proc p).turn := by
  obtain ⟨h', hk⟩ := kern_runs hr
  rcases kern_step hst with ⟨a, he, hadm, hstep, hpc⟩ |
    ⟨c, p', user, he, hcpu, hheld, hout, hpc, hkern⟩ | ⟨c, p', he, hcpu, hheld, htests, hkern, hpc⟩
  · rw [hpc]
    by_cases hown : ∃ c b, a = .proc c p b
    · obtain ⟨c, b, rfl⟩ := hown
      have hown : Handled cpu0 s e p _ (s.pc p).next _ := handled_own hk he hstep hadm
      have halloc : allocates p (Act.proc c p b, e.2) = false := by
        obtain ⟨hcpu, -, hheld⟩ := enabled_proc (step_iff.1 hstep).1
        by_contra ha
        have := (alloc_step hk.shape hstep (by simpa using ha)).1
        rw [hk.shape.running_of_not_held hcpu hheld] at this
        cases this
      simp only [Trap.pcAfter, halloc, Bool.false_eq_true, if_false, if_true]
      exact hown
    · exact handled_kern hk he hstep fun c b h => hown ⟨c, b, h⟩
  · have hturn : (s'.kern.proc p).turn = (s.kern.proc p).turn := by
      rcases hkern with ⟨-, -, hstep⟩ | ⟨-, hsame⟩
      · have hproc : s.kern.proc = s'.kern.proc := congrArg (fun r => r.1.proc) (Except.ok.inj (step_iff.1 hstep).2)
        rw [hproc]
      · rw [hsame]
    rw [hpc, hturn, Trap.arrive]
    split
    · rename_i hp
      subst hp
      exact .arrive he hcpu hheld (by simpa using hout)
    · rename_i hp
      refine .same (by simp [he]) fun c' u h => hp ?_
      rw [he] at h
      cases h
      rfl
  · rw [hpc, hkern]
    by_cases hp : p = p'
    · subst hp
      rw [Function.update_self]
      exact .test he hcpu (hk.shape.running_of_not_held hcpu hheld) htests
    · rw [Function.update_of_ne hp]
      exact .same (by simp [he]) (by simp [he])

/-! ### The processes in the handler -/

/-- A process in the handler runs, and one that is just switched to is not in it, or has yielded or
called `exit` there. -/
structure Inside (s : Trap C) : Prop where
  running : ∀ p, (s.pc p).inside = true → (s.kern.proc p).state = .running
  resumed : ∀ c p, s.kern.lock = .resumed c p → (s.pc p).inside = false

theorem TrapPc.inside_test {pc : TrapPc} {x : Proc} (h : (pc.test x).inside = true) : pc.inside = true := by
  cases pc with
  | recheck user =>
    simp only [test] at h
    split at h <;> cases h
  | check | compare => rfl
  | _ => exact h

omit [DecidableEq C] in
/-- A process that stops running does so in a piece of code of its own, or when it is resumed. -/
theorem TurnStep.stops {b : Sched} {e : Event C} {x y : Turn} (h : TurnStep b k e q x y)
    (hx : x.state = .running) :
    y.state = .running ∨ (∃ c a, e.1 = .proc c q a) ∨ ∃ c, k.lock = .resumed c q := by
  cases h with
  | same => exact .inl hx
  | wake h | alloc _ h | abandon h | activate h | age _ _ h | dispatch _ _ h | requeue _ _ _ h | reap h =>
    rw [hx] at h
    cases h
  | yield he | exit he => exact .inr (.inl ⟨_, _, he⟩)
  | sleep he =>
    rcases he with ⟨_, he⟩ | ⟨_, he⟩ | ⟨-, hl⟩
    · exact .inr (.inl ⟨_, _, he⟩)
    · exact .inr (.inl ⟨_, _, he⟩)
    · exact .inr (.inr ⟨_, hl⟩)
  | _ => exact .inl hx

theorem TrapPc.not_inside_of_next {pc : TrapPc} {a : ProcAct} (ha : pc.admits a = true) (h : pc.next = pc) :
    pc.inside = false := by
  cases pc with
  | tick | check | compare | recheck => cases ha
  | count | punish | yield | slice => cases h
  | out | exitTop | exitEnd => rfl

/-- A process gets into the handler by an interrupt on its CPU. -/
theorem Handled.enters {x y : Turn} {pc : TrapPc} (h : Handled cpu0 s e p x pc y) (hp : pc.inside = true) :
    (s.pc p).inside = true ∨ ∃ c, s.kern.cpu c = some p ∧ s.kern.lock.heldBy c = false := by
  cases h with
  | same | kern | back => exact .inl hp
  | alloc | slice | preempt => cases hp
  | arrive _ hcpu hheld => exact .inr ⟨_, hcpu, hheld⟩
  | ticked _ hpc | count _ _ hpc | punish _ hpc => exact .inl (by rw [hpc]; rfl)
  | test => exact .inl (TrapPc.inside_test hp)

/-- A process is just switched to because it was runnable. -/
theorem resumed_step {h' : List (Event C)} {c : C} (hk : Runs .mlfq h' s.kern) (hst : (traps cpu0).Step s e s')
    (hl : s'.kern.lock = .resumed c p) :
    s.kern.lock = .resumed c p ∨ (s.kern.proc p).state = .runnable := by
  rcases kern_step hst with ⟨a, -, -, hstep, -⟩ | ⟨-, -, -, -, -, -, -, -, ⟨-, -, hstep⟩ | ⟨-, hsame⟩⟩ |
    ⟨-, -, -, -, -, -, hsame, -⟩
  · have hands := (hands_step hstep).lock
    rw [hl] at hands
    generalize e.2 = o at hstep hands
    cases a with
    | scheduler c' =>
      cases o <;> cases hands
      exact .inr (scheduler_runnable hk.sound hstep)
    | back c' =>
      obtain ⟨p', hl'⟩ := enabled_back (step_iff.1 hstep).1
      rw [(back_requeued hstep rfl hl').2.1] at hl
      cases hl
    | resume c' =>
      obtain ⟨hen, -⟩ := step_iff.1 hstep
      cases hlock : s.kern.lock with
      | resumed c₁ p₁ => cases o <;> simp only [lockAfter, hlock] at hands <;> cases hands
      | free | back => simp [enabled, hlock] at hen
    | proc c' p' a =>
      cases a with
      | yield | sleep chan | exit => cases hands
      | wait w => cases o <;> cases hands
      | _ => exact .inl hands.symm
    | _ => exact .inl hands.symm
  · have hands := (hands_step hstep).lock
    rw [hl] at hands
    exact .inl hands.symm
  · exact .inl (hsame ▸ hl)
  · exact .inl (hsame ▸ hl)

theorem Inside.step (hi : Inside s) (hr : (traps cpu0).Runs h s) (hst : (traps cpu0).Step s e s') :
    Inside s' := by
  obtain ⟨h', hk⟩ := kern_runs hr
  have hrunning : ∀ p, (s'.pc p).inside = true → (s'.kern.proc p).state = .running := by
    intro p hp
    have hmove := handled_step hr hst p
    rw [← turn_state]
    generalize (s'.kern.proc p).turn = y at hmove
    generalize hpc : s'.pc p = pc at hmove hp
    cases hmove with
    | same => exact hi.running p hp
    | kern he hturn halloc hback hown =>
      rcases hturn.stops (hi.running p hp) with hy | ⟨c, a, ha⟩ | ⟨c, hl⟩
      · exact hy
      · have := hown c a ha
        rw [TrapPc.not_inside_of_next this.1 this.2] at hp
        cases hp
      · rw [hi.resumed c p hl] at hp
        cases hp
    | alloc | preempt => cases hp
    | back he hl =>
      have hrun := hi.running p hp
      rw [turn_state, hrun, if_neg (by decide)]
      exact hrun
    | arrive he hcpu hheld => exact hk.shape.running_of_not_held hcpu hheld
    | ticked he hpc' | count i he hpc' | punish he hpc' =>
      exact hi.running p (by rw [hpc']; rfl)
    | slice he hpc' => exact hi.running p (by rw [hpc']; rfl)
    | test he hcpu hrun => exact hrun
  refine ⟨hrunning, fun c p hl => Bool.eq_false_iff.2 fun hp => ?_⟩
  rcases resumed_step hk hst hl with hl₀ | hrun
  · rcases (handled_step hr hst p).enters hp with hin | ⟨c', hcpu, hheld⟩
    · rw [hi.resumed c p hl₀] at hin
      cases hin
    · obtain rfl := hk.shape.cpu_inj hcpu (hk.shape.resumed hl₀)
      simp [hl₀, Lock.heldBy] at hheld
  · have hrunning : (s.kern.proc p).state = .running := by
      rcases (handled_step hr hst p).enters hp with hin | ⟨c', hcpu, hheld⟩
      · exact hi.running p hin
      · exact hk.shape.running_of_not_held hcpu hheld
    rw [hrun] at hrunning
    cases hrunning

theorem inside_runs (hr : (traps cpu0).Runs h s) : Inside s := by
  refine hr.invariant (P := fun _ s => Inside s) ⟨nofun, nofun⟩ ?_
  intro h s e s' hr hi hst
  exact hi.step hr hst

end Xv6.Process
