import Xv6.Process.Trap

/-!
# Ticks per queue and run time

The timer handler of CPU 0 adds one to the run time of every process that runs, and the process then
adds one to its ticks on its queue. With one CPU the two go together, with an `exit` in between: a
process that was killed and interrupted in user mode leaves at the top of the handler, after the first
count and before the second.
-/

namespace Xv6.Process

open Lib

variable {C : Type} [DecidableEq C] {cpu0 : C} {s s' : Trap C} {e : TrapEvent C} {h : List (TrapEvent C)}
  {p : ProcId} {pc : TrapPc} {x y : Turn}

/-! ### The handler of CPU 0 -/

/-- While the clock of CPU 0 advances, the process that was interrupted waits for it, and CPU 0 holds no
lock. -/
structure Ticking (cpu0 : C) (s : Trap C) : Prop where
  tick : ∀ p user, s.pc p = .tick user → s.kern.cpu cpu0 = some p ∧ s.kern.phase ≠ .idle
  held : s.kern.phase ≠ .idle → s.kern.lock.heldBy cpu0 = false
  waits : s.kern.phase ≠ .idle → ∀ p, s.kern.cpu cpu0 = some p → ∃ user, s.pc p = .tick user

/-- A step of the kernel does not move the process that waits for the clock. -/
theorem pcAfter_tick {a : Act C} {o : Out} {user : Bool} (hadm : s.admits cpu0 a = true)
    (htick : ∀ p user, s.pc p = .tick user → s.kern.cpu cpu0 = some p)
    (hpc : s.pcAfter cpu0 (a, o) p = .tick user) : s.pc p = .tick user ∧ a ≠ .wakeupTicks := by
  unfold Trap.pcAfter at hpc
  split at hpc
  · cases hpc
  cases a with
  | proc c q b =>
    simp only at hpc
    split at hpc
    · rename_i hq
      subst hq
      have hadm : (s.pc q).admits b = true := hadm
      cases hp : s.pc q with
      | tick u =>
        rw [hp] at hadm
        cases hadm
      | _ =>
        rw [hp] at hpc
        cases hpc
    · exact ⟨hpc, by simp⟩
  | wakeupTicks =>
    simp only at hpc
    split at hpc
    · cases hp : s.pc p <;> simp [hp, TrapPc.ticked] at hpc
    · rename_i hcpu
      exact absurd (htick p user hpc) hcpu
  | _ => exact ⟨hpc, by simp⟩

/-- The kernel starts to advance the clock in the handler only. -/
theorem phase_step {a : Act C} {o : Out} (hadm : s.admits cpu0 a = true)
    (hst : Step .mlfq s.kern (a, o) s'.kern) (hphase : s'.kern.phase ≠ .idle) : s.kern.phase ≠ .idle := by
  rw [(clock_step hst).2] at hphase
  cases a with
  | tick => cases hadm
  | incRuntime =>
    have hen := (step_iff.1 hst).1
    simp only [enabled, Bool.and_eq_true, decide_eq_true_eq] at hen
    simp [hen.1]
  | wakeupTicks => exact absurd rfl hphase
  | _ => exact hphase

/-- A step of the kernel while the clock of CPU 0 advances. -/
theorem Ticking.still {a : Act C} {o : Out} (ht : Ticking cpu0 s) (hadm : s.admits cpu0 a = true)
    (hst : Step .mlfq s.kern (a, o) s'.kern)
    (hphase : s.kern.phase ≠ .idle) :
    s'.kern.cpu cpu0 = s.kern.cpu cpu0 ∧ s'.kern.lock.heldBy cpu0 = false := by
  have hheld := ht.held hphase
  have hen := (step_iff.1 hst).1
  have hands := hands_step hst
  have hsched : a ≠ .scheduler cpu0 := by
    rintro rfl
    simp [Trap.admits, hphase] at hadm
  have hback : a ≠ .back cpu0 := by
    rintro rfl
    obtain ⟨p, hl⟩ := enabled_back hen
    simp [hl, Lock.heldBy] at hheld
  refine ⟨by rw [hands.cpu, cpuAfter_of_ne hsched hback], ?_⟩
  rw [hands.lock]
  cases a with
  | scheduler c =>
    have hne : c ≠ cpu0 := fun h => hsched (by rw [h])
    cases o <;> simp [lockAfter, Lock.heldBy, hne]
  | back c =>
    have hne : c ≠ cpu0 := fun h => hback (by rw [h])
    cases o <;> simp [lockAfter, Lock.heldBy, hne]
  | resume c =>
    cases hl : s.kern.lock with
    | resumed c₁ p =>
      have hne : c₁ ≠ cpu0 := by simpa [hl, Lock.heldBy] using hheld
      have hc : c₁ = c := by simpa [enabled, hl] using hen
      subst hc
      cases o <;> simp [lockAfter, Lock.heldBy, hne]
    | free | back => simp [enabled, hl] at hen
  | proc c p b =>
    have hne : c ≠ cpu0 := by
      rintro rfl
      obtain ⟨user, hp⟩ := ht.waits hphase p (enabled_proc hen).1
      have hadm : (s.pc p).admits b = true := hadm
      rw [hp] at hadm
      cases hadm
    cases b with
    | yield | sleep chan | exit => simp [lockAfter, Lock.heldBy, hne]
    | wait w => cases o <;> simp [lockAfter, Lock.heldBy, hne]
    | _ => exact hheld
  | _ => exact hheld

theorem Ticking.step (ht : Ticking cpu0 s) (hr : (traps cpu0).Runs h s) (hst : (traps cpu0).Step s e s') :
    Ticking cpu0 s' := by
  obtain ⟨h', hk⟩ := kern_runs hr
  rcases kern_step hst with ⟨a, he, hadm, hstep, hpc⟩ |
    ⟨c, p', user, he, hcpu, hheld, hout, hpc, hkern⟩ | ⟨c, p', he, hcpu, hheld, htests, hkern, hpc⟩
  · refine ⟨fun p user hp => ?_, fun hphase => ?_, fun hphase p hp => ?_⟩
    · rw [hpc] at hp
      obtain ⟨hp, hne⟩ := pcAfter_tick hadm (fun p user h => (ht.tick p user h).1) hp
      obtain ⟨hcpu, hphase⟩ := ht.tick p user hp
      refine ⟨by rw [(ht.still hadm hstep hphase).1, hcpu], ?_⟩
      rw [(clock_step hstep).2]
      cases a with
      | wakeupTicks => exact absurd rfl hne
      | tick | incRuntime => simp [phaseAfter]
      | _ => exact hphase
    · exact (ht.still hadm hstep (phase_step hadm hstep hphase)).2
    · have hphase₀ := phase_step hadm hstep hphase
      rw [(ht.still hadm hstep hphase₀).1] at hp
      obtain ⟨user, hu⟩ := ht.waits hphase₀ p hp
      have hrun := (hk.shape).running_of_not_held hp (ht.held hphase₀)
      refine ⟨user, ?_⟩
      have halloc : allocates p (a, e.2) = false := by
        by_contra ha
        have := (alloc_step hk.shape hstep (by simpa using ha)).1
        rw [hrun] at this
        cases this
      rw [hpc]
      simp only [Trap.pcAfter, halloc, Bool.false_eq_true, if_false]
      cases a with
      | proc c q b =>
        dsimp only
        split
        · rw [hu]
          rfl
        · exact hu
      | wakeupTicks =>
        rw [(clock_step hstep).2] at hphase
        exact absurd rfl hphase
      | _ => exact hu
  · -- a timer interrupt
    rcases hkern with ⟨rfl, hidle, hstep⟩ | ⟨hc, hsame⟩
    · have hcpu' : s'.kern.cpu = s.kern.cpu := (hands_step hstep).cpu
      have hlock : s'.kern.lock = s.kern.lock := (hands_step hstep).lock
      have hphase' : s'.kern.phase ≠ .idle := by
        rw [(clock_step hstep).2]
        simp [phaseAfter]
      refine ⟨fun p u hp => ⟨?_, hphase'⟩, fun _ => by rw [hlock, hheld], fun _ p hp => ?_⟩
      · rw [hpc, Trap.arrive] at hp
        split at hp
        · rename_i hp'
          rw [hcpu', hcpu, hp']
        · exact absurd hidle (ht.tick p u hp).2
      · rw [hcpu', hcpu] at hp
        refine ⟨user, ?_⟩
        rw [hpc, Trap.arrive, if_pos hp, if_pos rfl]
    · -- on another CPU
      rw [show s' = ⟨s.kern, s'.pc⟩ by rw [← hsame]]
      refine ⟨fun p u hp => ?_, ht.held, fun hphase p hp => ?_⟩
      · have hp : s'.pc p = .tick u := hp
        rw [hpc, Trap.arrive] at hp
        split at hp
        · cases hp
        · exact ht.tick p u hp
      · obtain ⟨u, hu⟩ := ht.waits hphase p hp
        refine ⟨u, show s'.pc p = _ from ?_⟩
        rw [hpc, Trap.arrive, if_neg, hu]
        rintro rfl
        exact hc (hk.shape.cpu_inj hcpu hp)
  · -- a test
    have htick : ∀ p u, s'.pc p = .tick u ↔ s.pc p = .tick u := by
      intro p u
      rw [hpc]
      by_cases hp : p = p'
      · subst hp
        rw [Function.update_self]
        cases hpc : s.pc p with
        | tick =>
          rw [hpc] at htests
          cases htests
        | check user =>
          simp only [TrapPc.test]
          split
          · simp
          · split <;> simp
        | recheck user | compare user =>
          simp only [TrapPc.test]
          split <;> simp
        | _ => rfl
      · rw [Function.update_of_ne hp]
    rw [show s' = ⟨s.kern, s'.pc⟩ by rw [← hkern]]
    refine ⟨fun p u hp => ht.tick p u ((htick p u).1 hp), ht.held, fun hphase p hp => ?_⟩
    obtain ⟨u, hu⟩ := ht.waits hphase p hp
    exact ⟨u, (htick p u).2 hu⟩

theorem ticking_runs (hr : (traps cpu0).Runs h s) : Ticking cpu0 s := by
  refine hr.invariant (P := fun _ s => Ticking cpu0 s) ⟨nofun, fun h => absurd rfl h, fun h => absurd rfl h⟩ ?_
  intro h s e s' hr ht hst
  exact ht.step hr hst

/-! ### The two counts -/

/-- `ticks[0] + … + ticks[NUM_QUEUES - 1]`. -/
def ticksSum (t : Fin NUM_QUEUES → Word) : Word := t 0 + t 1 + t 2 + t 3 + t 4

theorem ticksSum_update (t : Fin NUM_QUEUES → Word) (i : Fin NUM_QUEUES) :
    ticksSum (Function.update t i (t i + 1)) = ticksSum t + 1 := by
  match i with
  | 0 =>
    show t 0 + 1 + t 1 + t 2 + t 3 + t 4 = t 0 + t 1 + t 2 + t 3 + t 4 + 1
    ac_rfl
  | 1 =>
    show t 0 + (t 1 + 1) + t 2 + t 3 + t 4 = t 0 + t 1 + t 2 + t 3 + t 4 + 1
    ac_rfl
  | 2 =>
    show t 0 + t 1 + (t 2 + 1) + t 3 + t 4 = t 0 + t 1 + t 2 + t 3 + t 4 + 1
    ac_rfl
  | 3 =>
    show t 0 + t 1 + t 2 + (t 3 + 1) + t 4 = t 0 + t 1 + t 2 + t 3 + t 4 + 1
    ac_rfl
  | 4 =>
    show t 0 + t 1 + t 2 + t 3 + (t 4 + 1) = t 0 + t 1 + t 2 + t 3 + t 4 + 1
    ac_rfl

/-- The process has been counted in its run time and not yet in its ticks. -/
def Trap.owes (s : Trap C) (p : ProcId) : Bool :=
  match s.pc p with
  | .tick _ => s.kern.phase = .counted
  | .check _ | .count _ | .exitTop => true
  | _ => false

/-- The two counts of a process agree, up to the one that it owes. -/
def Balanced (owes : Bool) (x : Turn) : Prop :=
  x.state ≠ .unused → ticksSum x.ticks + (if owes then 1 else 0) = x.runTime

omit [DecidableEq C] in
theorem TurnStep.counts {k : Kern C} {e : Event C} (hturn : TurnStep .mlfq k e p x y) (hinc : e.1 ≠ .incRuntime)
    (halloc : allocates p e = false) (hown : ∀ c, e.1 ≠ .proc c p .incPinfoTicks) :
    y.ticks = x.ticks ∧ y.runTime = x.runTime ∧ (y.state ≠ .unused → x.state ≠ .unused) := by
  cases hturn with
  | same | age | requeue => exact ⟨rfl, rfl, id⟩
  | wake h | activate h => exact ⟨rfl, rfl, fun _ => by simp [h]⟩
  | alloc h => simp [halloc] at h
  | abandon | reap => exact ⟨rfl, rfl, fun h => absurd rfl h⟩
  | dispatch _ _ h => exact ⟨rfl, rfl, fun _ => by simp [h]⟩
  | yield _ h | sleep _ h | exit _ h => exact ⟨rfl, rfl, fun _ => by simp [h]⟩
  | setPriority => exact ⟨rfl, rfl, id⟩
  | incRuntime h => exact absurd h hinc
  | incPinfoTicks _ h => exact absurd h (hown _)
  | punisher | incTimeslice => exact ⟨rfl, rfl, id⟩

theorem Balanced.congr {o : Bool} (hb : Balanced o x) (ht : y.ticks = x.ticks) (hr : y.runTime = x.runTime)
    (hs : y.state ≠ .unused → x.state ≠ .unused) : Balanced o y := by
  intro h
  rw [ht, hr]
  exact hb (hs h)

omit [DecidableEq C] in
/-- Whether a process owes a tick depends on where it is, and while it waits for the clock on the phase
of the clock. -/
theorem owes_congr (hpc : s'.pc p = s.pc p)
    (hphase : ∀ user, s.pc p = .tick user → s'.kern.phase = s.kern.phase) : s'.owes p = s.owes p := by
  unfold Trap.owes
  rw [hpc]
  cases hp : s.pc p with
  | tick user => rw [hphase user hp]
  | _ => rfl

/-- The clock does not move while a process waits for it, but in its own steps. -/
theorem phase_of_tick (ht : Ticking cpu0 s) (hst : (traps cpu0).Step s e s') {user : Bool} (hp : s.pc p = .tick user)
    (hp' : s'.pc p = .tick user) (ht' : Ticking cpu0 s') (hinc : e.1 ≠ .kern .incRuntime) :
    s'.kern.phase = s.kern.phase := by
  have hidle := (ht.tick p user hp).2
  have hidle' := (ht'.tick p user hp').2
  rcases kern_step hst with ⟨a, he, hadm, hstep, -⟩ | ⟨_, _, _, -, -, -, -, -, ⟨-, h, -⟩ | ⟨-, hsame⟩⟩ |
    ⟨_, _, -, -, -, -, hsame, -⟩
  · have hclock := (clock_step hstep).2
    cases a with
    | tick => cases hadm
    | incRuntime => exact absurd he hinc
    | wakeupTicks => exact absurd hclock hidle'
    | _ => exact hclock
  · exact absurd h hidle
  · rw [hsame]
  · rw [hsame]

/-- `inc_runtime` counts the process that waits for the clock. -/
theorem Balanced.incRuntime (hone : ∀ c : C, c = cpu0) (hr : (traps cpu0).Runs h s)
    (hst : (traps cpu0).Step s e s') (he : e.1 = .kern .incRuntime)
    (hb : Balanced (s.owes p) (s.kern.proc p).turn) : Balanced (s'.owes p) (s'.kern.proc p).turn := by
  obtain ⟨h', hk⟩ := kern_runs hr
  have hstep := kern_step_of hst he
  obtain ⟨hen, hx⟩ := step_iff.1 hstep
  simp only [enabled, Bool.and_eq_true, decide_eq_true_eq] at hen
  have hpc : s'.pc p = s.pc p := by
    rcases kern_step hst with ⟨a, ha, -, -, hpc⟩ | ⟨_, _, _, ha, -⟩ | ⟨_, _, ha, -⟩
    · rw [he] at ha
      cases ha
      rw [hpc]
      simp [Trap.pcAfter, allocates]
    · rw [he] at ha
      cases ha
    · rw [he] at ha
      cases ha
  have hphase : s'.kern.phase = .counted := (clock_step hstep).2
  have hproc : s'.kern.proc p = if (s.kern.proc p).state = .running then
      { s.kern.proc p with runTime := (s.kern.proc p).runTime + 1 } else s.kern.proc p :=
    (congrArg (fun r => r.1.proc p) (Except.ok.inj hx)).symm
  rw [hproc]
  split
  · rename_i hrun
    -- with one CPU, it is the process that waits
    obtain ⟨c, hc⟩ := hk.placed.cpu p hrun
    rw [hone c] at hc
    obtain ⟨user, hu⟩ := (ticking_runs hr).waits (by simp [hen.1]) p hc
    have howes : s.owes p = false := by simp [Trap.owes, hu, hen.1]
    have howes' : s'.owes p = true := by simp [Trap.owes, hpc, hu, hphase]
    intro hlive
    have hsum : ticksSum (s.kern.proc p).ticks = (s.kern.proc p).runTime := by
      have := hb hlive
      rw [howes] at this
      simpa using this
    show ticksSum (s.kern.proc p).ticks + (if s'.owes p then 1 else 0) = (s.kern.proc p).runTime + 1
    rw [howes', if_pos rfl, hsum]
  · rename_i hrun
    rw [owes_congr hpc]
    · exact hb
    · intro user hp
      exact absurd ((inside_runs hr).running p (by rw [hp]; rfl)) hrun

/-- **A step keeps the two counts together.** -/
theorem Balanced.step (hone : ∀ c : C, c = cpu0) (hr : (traps cpu0).Runs h s)
    (hst : (traps cpu0).Step s e s') (hb : Balanced (s.owes p) (s.kern.proc p).turn) :
    Balanced (s'.owes p) (s'.kern.proc p).turn := by
  by_cases hinc : e.1 = .kern .incRuntime
  · exact hb.incRuntime hone hr hst hinc
  obtain ⟨h', hk⟩ := kern_runs hr
  have ht := ticking_runs hr
  have ht' : Ticking cpu0 s' := ht.step hr hst
  have howes : s'.pc p = s.pc p → s'.owes p = s.owes p := fun hpc =>
    owes_congr hpc fun user hp => phase_of_tick ht hst hp (hpc.trans hp) ht' hinc
  have hmove := handled_step hr hst p
  generalize hy : (s'.kern.proc p).turn = y at hmove
  generalize hpc : s'.pc p = pc at hmove
  cases hmove with
  | same =>
    rw [howes hpc]
    exact hb
  | kern he hturn halloc hback hown =>
    obtain ⟨h1, h2, h3⟩ := hturn.counts (fun h => hinc (by rw [he]; exact congrArg _ h)) halloc fun c h => by
      obtain ⟨hadm, hnext⟩ := hown c _ h
      cases hp : s.pc p with
      | count =>
        rw [hp] at hnext
        cases hnext
      | punish | yield | slice =>
        rw [hp] at hadm
        simp [TrapPc.admits] at hadm
      | _ =>
        rw [hp] at hadm
        cases hadm
    rw [howes hpc]
    exact hb.congr h1 h2 h3
  | alloc =>
    intro _
    have : s'.owes p = false := by simp [Trap.owes, hpc]
    rw [this]
    rfl
  | back he hl =>
    rw [howes hpc]
    split
    · exact hb.congr rfl rfl id
    · exact hb
  | arrive he hcpu hheld hout =>
    have hphase : s'.kern.phase = .ticked := by
      rcases kern_step hst with ⟨_, ha, -⟩ | ⟨_, _, _, -, -, -, -, -, ⟨-, -, hstep⟩ | ⟨hne, -⟩⟩ | ⟨_, _, ha, -⟩
      · rw [he] at ha
        cases ha
      · exact (clock_step hstep).2
      · exact absurd (hone _) hne
      · rw [he] at ha
        cases ha
    rw [if_pos (hone _)] at hpc
    have h0 : s.owes p = false := by simp [Trap.owes, hout]
    have h1 : s'.owes p = false := by simp [Trap.owes, hpc, hphase]
    rw [h1, ← h0]
    exact hb
  | ticked he hp =>
    have hen := (step_iff.1 (kern_step_of hst he)).1
    simp only [enabled, Bool.and_eq_true, decide_eq_true_eq] at hen
    have h0 : s.owes p = true := by simp [Trap.owes, hp, hen.1]
    have h1 : s'.owes p = true := by simp [Trap.owes, hpc]
    rw [h1, ← h0]
    exact hb
  | test he hcpu hrun htests =>
    have hrun : (s.kern.proc p).state = .running := hrun
    have howes : s'.owes p = s.owes p := by
      cases hp : s.pc p with
      | check user =>
        have h0 : s.owes p = true := by simp [Trap.owes, hp]
        rw [hp, TrapPc.test, if_pos hrun] at hpc
        rw [h0]
        split at hpc <;> simp [Trap.owes, hpc]
      | compare user | recheck user =>
        have h0 : s.owes p = false := by simp [Trap.owes, hp]
        rw [hp, TrapPc.test] at hpc
        rw [h0]
        split at hpc <;> simp [Trap.owes, hpc]
      | _ =>
        rw [hp] at htests
        cases htests
    rw [howes]
    exact hb
  | count i he hp _ =>
    have h0 : s.owes p = true := by simp [Trap.owes, hp]
    have h1 : s'.owes p = false := by simp [Trap.owes, hpc]
    rw [h1]
    intro hlive
    have hsum := hb hlive
    rw [h0] at hsum
    show ticksSum (Function.update (s.kern.proc p).ticks i ((s.kern.proc p).ticks i + 1)) + 0 = _
    rw [ticksSum_update]
    simpa using hsum
  | punish he hp =>
    have h0 : s.owes p = false := by simp [Trap.owes, hp]
    have h1 : s'.owes p = false := by simp [Trap.owes, hpc]
    rw [h1, ← h0]
    exact hb.congr rfl rfl id
  | slice he hp =>
    have h0 : s.owes p = false := by simp [Trap.owes, hp]
    have h1 : s'.owes p = false := by simp [Trap.owes, hpc]
    rw [h1, ← h0]
    exact hb.congr rfl rfl id
  | preempt he hp hrun =>
    have h0 : s.owes p = false := by simp [Trap.owes, hp]
    have h1 : s'.owes p = false := by simp [Trap.owes, hpc]
    rw [h1, ← h0]
    exact hb.congr rfl rfl fun _ => by rw [hrun]; decide

theorem balanced_runs (hone : ∀ c : C, c = cpu0) (hr : (traps cpu0).Runs h s) (p : ProcId) :
    Balanced (s.owes p) (s.kern.proc p).turn := by
  refine hr.invariant (P := fun _ s => Balanced (s.owes p) (s.kern.proc p).turn) (fun h => absurd rfl h) ?_
  intro h s e s' hr hb hst
  exact hb.step hone hr hst

/-! ### Killed -/

omit [DecidableEq C] in
/-- A process stays killed until it is reaped. -/
theorem CoreStep.stays_killed {k : Kern C} {e : Event C} {x y : Core} (h : CoreStep k e p x y)
    (hx : x.killed = true) (hy : y.state ≠ .unused) : y.killed = true := by
  cases h with
  | reap => exact absurd rfl hy
  | kill | trap => rfl
  | _ => exact hx

omit [DecidableEq C] in
theorem pcAfter_exitTop {a : Act C} {o : Out} (hpc : s.pcAfter cpu0 (a, o) p = .exitTop) :
    s.pc p = .exitTop ∧ allocates p (a, o) = false := by
  unfold Trap.pcAfter at hpc
  split at hpc
  · cases hpc
  rename_i ha
  refine ⟨?_, by simpa using ha⟩
  cases a with
  | proc c q b =>
    simp only at hpc
    split at hpc
    · cases hp : s.pc p <;> simp [hp, TrapPc.next] at hpc
      rfl
    · exact hpc
  | wakeupTicks =>
    simp only at hpc
    split at hpc
    · cases hp : s.pc p <;> simp [hp, TrapPc.ticked] at hpc
      rfl
    · exact hpc
  | _ => exact hpc

theorem exitTop_killed (hr : (traps cpu0).Runs h s) :
    ∀ p, s.pc p = .exitTop → (s.kern.proc p).state ≠ .unused → (s.kern.proc p).killed = true := by
  refine hr.invariant (P := fun _ s => ∀ p, s.pc p = .exitTop → (s.kern.proc p).state ≠ .unused →
    (s.kern.proc p).killed = true) nofun ?_
  intro h s e s' hr ih hst p hp hlive
  obtain ⟨h', hk⟩ := kern_runs hr
  rcases kern_step hst with ⟨a, he, hadm, hstep, hpc⟩ |
    ⟨c, p', user, he, hcpu, hheld, hout, hpc, hkern⟩ | ⟨c, p', he, hcpu, hheld, htests, hkern, hpc⟩
  · rw [hpc] at hp
    obtain ⟨hp, ha⟩ := pcAfter_exitTop hp
    have hcore := core_step hk.shape hstep p
    exact hcore.stays_killed (ih p hp (hcore.used ha hlive)) hlive
  · have hp₀ : s.pc p = .exitTop := by
      rw [hpc, Trap.arrive] at hp
      split at hp
      · split at hp <;> cases hp
      · exact hp
    rcases hkern with ⟨-, -, hstep⟩ | ⟨-, hsame⟩
    · have hproc : s.kern.proc = s'.kern.proc := congrArg (fun r => r.1.proc) (Except.ok.inj (step_iff.1 hstep).2)
      rw [← hproc] at hlive ⊢
      exact ih p hp₀ hlive
    · rw [hsame] at hlive ⊢
      exact ih p hp₀ hlive
  · rw [hkern] at hlive ⊢
    rw [hpc] at hp
    by_cases hpp : p = p'
    · subst hpp
      rw [Function.update_self] at hp
      cases hpc₀ : s.pc p with
      | check user =>
        rw [hpc₀, TrapPc.test] at hp
        split at hp
        · rename_i hkilled
          exact (Bool.and_eq_true_iff.1 hkilled).1
        · split at hp <;> cases hp
      | compare user | recheck user =>
        rw [hpc₀, TrapPc.test] at hp
        split at hp <;> cases hp
      | _ =>
        rw [hpc₀] at htests
        cases htests
    · rw [Function.update_of_ne hpp] at hp
      exact ih p hp hlive

/-! ### Every run -/

/-- **Tick accounting.** In the multi-level feedback build with one CPU, in every run and every state
outside the timer handler, the ticks of a live process on the queues add up to its run time; they are
one less for a process that was killed and left by the `exit` at the top of the handler of a timer
interrupt from user mode. -/
theorem mlfq_accounts (hone : ∀ c : C, c = cpu0) (hr : (traps cpu0).Runs h s)
    (hout : ∀ p, s.kern.cpu cpu0 = some p → (s.pc p).inside = false) :
    ∀ p, (s.kern.proc p).state ≠ .unused →
      if s.pc p = .exitTop then
        (s.kern.proc p).killed = true ∧ ticksSum (s.kern.proc p).ticks + 1 = (s.kern.proc p).runTime
      else ticksSum (s.kern.proc p).ticks = (s.kern.proc p).runTime := by
  intro p hlive
  obtain ⟨h', hk⟩ := kern_runs hr
  have hsum := balanced_runs hone hr p hlive
  have hin : (s.pc p).inside = false := by
    by_contra h
    obtain ⟨c, hc⟩ := hk.placed.cpu p ((inside_runs hr).running p (by simpa using h))
    exact h (hout p (hone c ▸ hc))
  split
  · rename_i hp
    have howes : s.owes p = true := by simp [Trap.owes, hp]
    rw [howes] at hsum
    exact ⟨exitTop_killed hr p hp hlive, by simpa using hsum⟩
  · rename_i hp
    have howes : s.owes p = false := by
      cases hpc : s.pc p with
      | exitTop => exact absurd hpc hp
      | tick | check | count =>
        rw [hpc] at hin
        cases hin
      | _ => simp [Trap.owes, hpc]
    rw [howes] at hsum
    simpa using hsum

/-- The first process forks a child and kills it; the child is interrupted in user mode and leaves. -/
def accountEvents : List (TrapEvent Unit) :=
  [(.kern .userinitAlloc, .alloc 0), (.kern .userinit, .done), (.kern (.scheduler ()), .dispatch 0),
    (.kern (.resume ()), .done), (.kern (.proc () 0 .forkAlloc), .alloc 1), (.kern (.proc () 0 .forkCopy), .done),
    (.kern (.proc () 0 .fork), .done), (.kern (.proc () 0 (.kill 2)), .done), (.kern (.proc () 0 .yield), .done),
    (.kern (.back ()), .done), (.kern (.scheduler ()), .dispatch 1), (.kern (.resume ()), .done),
    (.timer () (some 1) true, .done), (.kern .incRuntime, .done), (.kern .wakeupTicks, .done),
    (.test () 1, .done)]

/-- The child has a run time of one tick, and no ticks. -/
theorem mlfq_accounts_killed :
    ∃ s : Trap Unit, (traps ()).Runs accountEvents.reverse s ∧ (s.kern.proc 1).runTime = 1 ∧
      ticksSum (s.kern.proc 1).ticks + 1 = (s.kern.proc 1).runTime ∧
      ticksSum (s.kern.proc 0).ticks = (s.kern.proc 0).runTime := by
  obtain ⟨s, hr, hs⟩ := (traps ()).exists_runs accountEvents (fun s =>
    (∀ p, s.kern.cpu () = some p → (s.pc p).inside = false) ∧ (s.kern.proc 0).state ≠ .unused ∧
      (s.kern.proc 1).state ≠ .unused ∧ s.pc 0 = .out ∧ s.pc 1 = .exitTop ∧ (s.kern.proc 1).runTime = 1)
    (by decide +kernel)
  simp only [decide_eq_true_eq] at hs
  obtain ⟨hout, hlive0, hlive1, hpc0, hpc1, hone⟩ := hs
  have h0 := mlfq_accounts (fun _ => rfl) hr hout 0 hlive0
  have h1 := mlfq_accounts (fun _ => rfl) hr hout 1 hlive1
  rw [if_neg (by simp [hpc0])] at h0
  rw [if_pos hpc1] at h1
  exact ⟨s, hr, hone, h1.2, h0⟩

end Xv6.Process
