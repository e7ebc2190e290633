import Xv6.Process.Core

/-!
# What `waitx` reports

`waitx` reports the run time of a child and, as its wait time, the rest of the time from
`start_time` to `end_time`. Two gaps between the places that write these fields make the report
wrong: a process goes on running after `exit` has recorded `end_time`, and a process allocated
between `ticks++` and `inc_runtime()` is counted for a tick that came before it. In runs without
either, the two times are what they should be.
-/

namespace Xv6.Process

open Lib

variable {C : Type} [DecidableEq C] {b : Sched} {k k' : Kern C} {e : Event C} {p q : ProcId}
  {h : List (Event C)}

/-- The event is the end of the process `q`, the locked section of `exit`. -/
def terminates (q : ProcId) : Event C → Bool
  | (.proc _ p .exit, _) => p = q
  | _ => false

def terminated (q : ProcId) : List (Event C) → Bool
  | [] => false
  | e :: h => !allocates q e && (terminates q e || terminated q h)

/-- The number of ticks from the last allocation of the slot `q` to the end of its process, or up
to now. -/
def lifetime (q : ProcId) : List (Event C) → ℕ
  | [] => 0
  | e :: h =>
    if allocates q e then 0
    else if e.1 = .tick ∧ terminated q h = false then lifetime q h + 1
    else lifetime q h

/-- No tick comes while a process is inside `exit`, and no process that runs when the run times are
counted was allocated since the tick. -/
def timeGuard (k : Kern C) : Act C → Bool
  | .tick => (List.finRange NPROC).all fun p =>
      (k.proc p).thread ≠ .exit || (k.proc p).state = .zombie || (k.proc p).state = .unused
  | .incRuntime => (List.finRange NPROC).all fun p =>
      (k.proc p).state ≠ .running || (k.proc p).startTime ≠ k.ticks
  | _ => true

/-- The times of a process with the life `x`, of which `n` ticks have passed: it has been counted
`r` times, at most once a tick, and one more count may be due in the present timer interrupt. -/
structure Timed (k : Kern C) (n r : ℕ) (x : Core) : Prop where
  runTime : x.runTime = .ofNat 32 r
  le : r ≤ n
  zombie : x.state = .zombie → x.endTime - x.startTime = .ofNat 32 n
  ticks : x.state ≠ .zombie → k.ticks - x.startTime = .ofNat 32 n
  exit : x.state ≠ .zombie → x.thread = .exit → x.endTime = k.ticks
  due : x.state ≠ .zombie → k.phase = .ticked → x.startTime = k.ticks ∨ r < n

/-- Every slot in use is timed by the history. -/
def TimedAll (h : List (Event C)) (k : Kern C) : Prop :=
  ∀ q, (k.proc q).state ≠ .unused →
    (terminated q h = true ↔ (k.proc q).state = .zombie) ∧
      ∃ r, Timed k (lifetime q h) r (k.proc q).core

/-- The state of the locked section of `exit`, and what it leaves. -/
theorem exit_step {c : C} (hs : Shape k) (h : Step b k e k') (he : e.1 = .proc c q .exit) :
    (k.proc q).state = .running ∧ (k.proc q).thread = .exit ∧
      (k'.proc q).core = { (k.proc q).core with state := .zombie } := by
  obtain ⟨a, o⟩ := e
  obtain rfl : a = .proc c q .exit := he
  obtain ⟨-, hallow, -, -, hrun⟩ := lock_of_enabled hs (step_iff.1 h).1
  refine ⟨hrun, of_decide_eq_true hallow, ?_⟩
  have hx := (step_iff.1 h).2
  simp only [exec, execProc] at hx
  split at hx
  · cases hx
  · rename_i h₁
    obtain ⟨k₁, hst, rfl⟩ := exit_frame h₁
    cases hx
    obtain ⟨par, hw | ⟨-, t, a, hw⟩⟩ := hst.2 q <;>
      simp only [Kern.setProc_proc_self, hw] <;> rfl

/-! ### One step -/

section step

variable {n r : ℕ} {x y : Core}

omit [DecidableEq C] in
theorem Timed.clock (ht : Timed k n r x) (hticks : k'.ticks = k.ticks)
    (hphase : k'.phase = .ticked → k.phase = .ticked) : Timed k' n r x where
  runTime := ht.runTime
  le := ht.le
  zombie := ht.zombie
  ticks := by rw [hticks]; exact ht.ticks
  exit := by rw [hticks]; exact ht.exit
  due hx h := by rw [hticks]; exact ht.due hx (hphase h)

omit [DecidableEq C] in
/-- Between two ticks the times of a process stand still while it lives. -/
theorem Timed.keep (ht : Timed k n r x) (hticks : k'.ticks = k.ticks)
    (hphase : k'.phase = .ticked → k.phase = .ticked) (hx : x.state ≠ .zombie)
    (hy : y.state ≠ .zombie) (hrun : y.runTime = x.runTime) (hstart : y.startTime = x.startTime)
    (hexit : y.thread = .exit → y.endTime = k.ticks) : Timed k' n r y where
  runTime := hrun.trans ht.runTime
  le := ht.le
  zombie h := absurd h hy
  ticks _ := by rw [hticks, hstart]; exact ht.ticks hx
  exit _ h := by rw [hticks]; exact hexit h
  due _ h := by rw [hticks, hstart]; exact ht.due hx (hphase h)

omit [DecidableEq C] in
/-- A step other than a tick, the allocation of the process and its end. -/
theorem Timed.step (ht : Timed k n r x) (hc : CoreStep k e q x y) (hy : y.state ≠ .unused)
    (hticks : k'.ticks = k.ticks) (hphase : k'.phase = .ticked → k.phase = .ticked)
    (halloc : allocates q e = false) (hterm : terminates q e = false)
    (hinc : e.1 = .incRuntime → x.state = .running →
      k.phase = .ticked ∧ k'.phase ≠ .ticked ∧ x.startTime ≠ k.ticks) :
    (∃ r', Timed k' n r' y) ∧ (y.state = .zombie ↔ x.state = .zombie) := by
  -- the process lives before and after, and keeps its times
  have hkeep : ∀ {y : Core}, x.state ≠ .zombie → y.state ≠ .zombie → y.runTime = x.runTime →
      y.startTime = x.startTime → (y.thread = .exit → y.endTime = k.ticks) →
      (∃ r', Timed k' n r' y) ∧ (y.state = .zombie ↔ x.state = .zombie) :=
    fun hx hy h1 h2 h3 => ⟨⟨r, ht.keep hticks hphase hx hy h1 h2 h3⟩, by simp [hx, hy]⟩
  cases hc with
  | same => exact ⟨⟨r, ht.clock hticks hphase⟩, .rfl⟩
  | wake hx => exact hkeep (by simp [hx]) (by simp) rfl rfl (ht.exit (by simp [hx]))
  | dispatch hx => exact hkeep (by simp [hx]) (by simp) rfl rfl (ht.exit (by simp [hx]))
  | yield hx => exact hkeep (by simp [hx]) (by simp) rfl rfl (ht.exit (by simp [hx]))
  | sleep hx => exact hkeep (by simp [hx]) (by simp) rfl rfl (ht.exit (by simp [hx]))
  | activate hx => exact hkeep (by simp [hx]) (by simp) rfl rfl (ht.exit (by simp [hx]))
  | trap _ hx => exact hkeep (by simp [hx]) (by simp [hx]) rfl rfl (ht.exit (by simp [hx]))
  | exitBegin _ hx => exact hkeep (by simp [hx]) (by simp [hx]) rfl rfl fun _ => rfl
  | thread hx t hne _ => exact hkeep (by simp [hx]) (by simp [hx]) rfl rfl fun h => absurd h hne
  | alloc h _ => simp [halloc] at h
  | abandon => simp at hy
  | reap => simp at hy
  | exit he _ _ =>
    obtain ⟨a, o⟩ := e
    cases he
    simp [terminates] at hterm
  | kill _ _ _ s hs =>
    rcases hs with rfl | ⟨hx, rfl⟩
    · obtain ⟨h1, h2, h3, h4, h5, h6⟩ := ht.clock hticks hphase
      exact ⟨⟨r, h1, h2, h3, h4, h5, h6⟩, .rfl⟩
    · exact hkeep (by simp [hx]) (by simp) rfl rfl (ht.exit (by simp [hx]))
  | incRuntime he hx =>
    obtain ⟨hp, hp', hne⟩ := hinc he hx
    have hz : x.state ≠ .zombie := by simp [hx]
    have hlt : r < n := (ht.due hz hp).resolve_left hne
    refine ⟨⟨r + 1, ⟨?_, hlt, fun h => absurd h hz, ?_, ?_, fun _ h => absurd h hp'⟩⟩, .rfl⟩
    · show x.runTime + 1 = _
      rw [ht.runTime]
      exact (BitVec.ofNat_add r 1).symm
    · rw [hticks]; exact ht.ticks
    · rw [hticks]; exact ht.exit

end step

theorem TimedAll.step (hi : TimedAll h k) (hs : Shape k) (hst : Step b k e k')
    (hg : timeGuard k e.1 = true) : TimedAll (e :: h) k' := by
  intro q hq
  obtain ⟨hticks, hphase⟩ := clock_step hst
  by_cases ha : allocates q e = true
  · -- a new process: no tick has passed
    obtain ⟨-, hc⟩ := alloc_step hs hst ha
    have hnt : e.1 ≠ .tick := by
      rintro he
      obtain ⟨a, o⟩ := e
      cases he
      cases ha
    rw [if_neg hnt] at hticks
    have hst' : (k'.proc q).state = .embryo := congrArg Core.state hc
    refine ⟨by simp [terminated, ha, hst'], 0, ?_⟩
    rw [hc]
    simp only [lifetime, ha, if_true]
    exact ⟨rfl, le_rfl, by simp, by simp [hticks], by simp, fun _ _ => .inl hticks.symm⟩
  · have ha' : allocates q e = false := by simpa using ha
    by_cases htick : e.1 = .tick
    · -- a tick: nothing else changes, and nobody is inside `exit`
      obtain ⟨a, o⟩ := e
      obtain rfl : a = .tick := htick
      obtain ⟨-, hx⟩ := step_iff.1 hst
      cases hx
      obtain ⟨hz, r, ht⟩ := hi q hq
      have hg : (k.proc q).thread ≠ .exit ∨ (k.proc q).state = .zombie := by
        have := List.all_eq_true.1 hg q (List.mem_finRange q)
        simp only [Bool.or_eq_true, decide_eq_true_eq] at this
        exact this.resolve_right hq
      refine ⟨by simpa [terminated, ha', terminates] using hz, r, ?_⟩
      by_cases hd : (k.proc q).state = .zombie
      · have hl : lifetime q ((.tick, .done) :: h) = lifetime q h := by
          simp [lifetime, ha', hz.2 hd]
        rw [hl]
        exact ⟨ht.runTime, ht.le, ht.zombie, fun h => absurd hd h, fun h => absurd hd h,
          fun h => absurd hd h⟩
      · have hl : lifetime q ((.tick, .done) :: h) = lifetime q h + 1 := by
          have : terminated q h = false := by simpa [hd] using hz
          simp [lifetime, ha', this]
        rw [hl]
        refine ⟨ht.runTime, by have := ht.le; omega, fun h => absurd h hd, fun _ => ?_,
          fun _ h => absurd h (hg.resolve_right hd), fun _ _ => .inr (by have := ht.le; omega)⟩
        show k.ticks + 1 - _ = _
        have := ht.ticks hd
        rw [BitVec.ofNat_add, ← this]
        bv_omega
    · rw [if_neg htick] at hticks
      have hlife : lifetime q (e :: h) = lifetime q h := by simp [lifetime, ha', htick]
      rw [hlife]
      have hcore := core_step hs hst q
      obtain ⟨hz, r, ht⟩ := hi q (hcore.used ha' hq)
      by_cases hterm : terminates q e = true
      · -- its end: the time that `exit` recorded is still the present one
        obtain ⟨c, he⟩ : ∃ c, e.1 = .proc c q .exit := by
          unfold terminates at hterm
          split at hterm
          · rename_i c p o
            exact ⟨c, by rw [of_decide_eq_true hterm]⟩
          · cases hterm
        obtain ⟨hrun, hth, hc⟩ := exit_step hs hst he
        have hd : (k.proc q).core.state ≠ .zombie := by simp [hrun]
        have hst' : (k'.proc q).state = .zombie := congrArg Core.state hc
        refine ⟨by simp [terminated, ha', hterm, hst'], r, ?_⟩
        rw [hc]
        refine ⟨ht.runTime, ht.le, fun _ => ?_, by simp, by simp, by simp⟩
        exact (ht.exit hd hth) ▸ ht.ticks hd
      · have hterm' : terminates q e = false := by simpa using hterm
        have hph : k'.phase = .ticked → k.phase = .ticked := by
          rw [hphase]
          unfold phaseAfter
          split <;> simp_all
        have hinc : e.1 = .incRuntime → (k.proc q).core.state = .running →
            k.phase = .ticked ∧ k'.phase ≠ .ticked ∧ (k.proc q).core.startTime ≠ k.ticks := by
          intro he hrun
          have hen := (step_iff.1 hst).1
          rw [he] at hen hg hphase
          refine ⟨?_, by simp [hphase, phaseAfter], ?_⟩
          · simp only [enabled, Bool.and_eq_true, decide_eq_true_eq] at hen
            exact hen.1
          · have := List.all_eq_true.1 hg q (List.mem_finRange q)
            simp only [Bool.or_eq_true, decide_eq_true_eq] at this
            exact this.resolve_left (fun h => h hrun)
        obtain ⟨⟨r', ht'⟩, hzz⟩ := ht.step hcore hq hticks hph ha' hterm' hinc
        refine ⟨?_, r', ht'⟩
        rw [← core_state, hzz, core_state, ← hz]
        simp [terminated, ha', hterm']

theorem Run.timed (hr : GuardedRuns timeGuard b h k) : TimedAll h k := by
  have : Shape k ∧ TimedAll h k := by
    refine hr.invariant (P := fun h k => Shape k ∧ TimedAll h k)
      ⟨.init, fun q hq => absurd rfl hq⟩ ?_
    rintro h k e k' - ⟨hs, hi⟩ ⟨hst, hg⟩
    exact ⟨hs.step hst, hi.step hs hst hg⟩
  exact this.2

/-! ### The report -/

/-- **What `waitx` reports**, in every run in which no tick comes while a process is inside `exit`
and nobody is counted for a tick before its birth: the run time and the wait time of the child are
not negative and add up to the number of ticks from its allocation to its end, as long as these are
fewer than `2 ^ 31`. -/
theorem waitx_times {pid wtime rtime : Word} (hr : GuardedRuns timeGuard b h k)
    (hst : Step b k e k') (he : e.2 = .reaped q pid (some (wtime, rtime)))
    (hn : lifetime q h < 2 ^ 31) :
    0 ≤ rtime.toInt ∧ 0 ≤ wtime.toInt ∧ rtime.toInt + wtime.toInt = lifetime q h := by
  obtain ⟨hz, -, ht, -⟩ := reaped_step hst he
  have ht := ht _ rfl
  obtain ⟨-, r, htimed⟩ := Run.timed hr q (by simp [hz])
  obtain ⟨rfl, rfl⟩ := Prod.mk.inj ht
  have hle := htimed.le
  rw [htimed.zombie hz, htimed.runTime, word_sub hle, word_toInt (by omega), word_toInt (by omega)]
  omega

/-- The first process waits for a child that runs for a tick before it exits. -/
def waitxEvents : List (Event (Fin 1)) :=
  [(.userinitAlloc, .alloc 0), (.userinit, .done), (.scheduler 0, .dispatch 0), (.resume 0, .done),
    (.proc 0 0 .forkAlloc, .alloc 1), (.proc 0 0 .forkCopy, .done), (.proc 0 0 .fork, .done),
    (.proc 0 0 (.wait .waitx), .asleep), (.back 0, .done), (.scheduler 0, .dispatch 1),
    (.resume 0, .done), (.tick, .done), (.incRuntime, .done), (.wakeupTicks, .done),
    (.proc 0 1 .exitBegin, .done), (.proc 0 1 .exit, .done), (.back 0, .done),
    (.scheduler 0, .dispatch 0)]

theorem waitx_times_child :
    ∃ k k' : Kern (Fin 1), GuardedRuns timeGuard .mlfq waitxEvents.reverse k ∧
      Step .mlfq k (.resume 0, .reaped 1 2 (some (0, 1))) k' ∧
      (1 : Word).toInt + (0 : Word).toInt = lifetime (C := Fin 1) 1 waitxEvents.reverse := by
  obtain ⟨k, hr, hk⟩ := (kernel .mlfq).exists_guarded timeGuard waitxEvents
    (fun k => ((kernel .mlfq).step? k (.resume 0, .reaped 1 2 (some (0, 1)))).isSome) (by decide +kernel)
  obtain ⟨k', hk'⟩ := Option.isSome_iff_exists.1 hk
  have hst := Machine.step?_step hk'
  exact ⟨k, k', hr, hst, (waitx_times hr hst rfl (by decide +kernel)).2.2⟩

/-- The same child, with the tick after `exit` has recorded the end time. -/
def lateTickEvents : List (Event (Fin 1)) :=
  [(.userinitAlloc, .alloc 0), (.userinit, .done), (.scheduler 0, .dispatch 0), (.resume 0, .done),
    (.proc 0 0 .forkAlloc, .alloc 1), (.proc 0 0 .forkCopy, .done), (.proc 0 0 .fork, .done),
    (.proc 0 0 (.wait .waitx), .asleep), (.back 0, .done), (.scheduler 0, .dispatch 1),
    (.resume 0, .done), (.proc 0 1 .exitBegin, .done), (.tick, .done), (.incRuntime, .done),
    (.wakeupTicks, .done), (.proc 0 1 .exit, .done), (.back 0, .done), (.scheduler 0, .dispatch 0)]

/-- `waitx` reports a wait time of `-1`. -/
theorem waitx_negative :
    ∃ k k' : Kern (Fin 1), Runs .mlfq lateTickEvents.reverse k ∧
      Step .mlfq k (.resume 0, .reaped 1 2 (some (-1, 1))) k' ∧ (-1 : Word).toInt < 0 := by
  obtain ⟨k, hr, hk⟩ := (kernel .mlfq).exists_runs lateTickEvents
    (fun k => ((kernel .mlfq).step? k (.resume 0, .reaped 1 2 (some (-1, 1)))).isSome) (by decide +kernel)
  obtain ⟨k', hk'⟩ := Option.isSome_iff_exists.1 hk
  exact ⟨k, k', hr, Machine.step?_step hk', by decide⟩

end Xv6.Process
