import Xv6.Process.Ready

/-!
# What a step does to the turn of one process

The fields that decide who runs and for how long (the state, the priority and the time slices, the
queue with its slice counter and punishment, the run time and the ticks per queue) change in few
ways, and the CPUs change hands only in the scheduler. `turn_step` and `cpu_step` say so once for
all steps and all scheduler builds.
-/

namespace Xv6.Process

open Lib

variable {C : Type} {b : Sched} {k k' : Kern C} {e : Event C} {p q : ProcId}

structure Turn where
  state : ProcState
  priority : ℤ
  timeslices : Word
  curTimeslices : Word
  queue : ℤ
  punish : Bool
  runTime : Word
  ticks : Fin NUM_QUEUES → Word

def Proc.turn (p : Proc) : Turn :=
  ⟨p.state, p.priority, p.timeslices, p.curTimeslices, p.queue, p.punish, p.runTime, p.ticks⟩

@[simp] theorem turn_state (p : Proc) : p.turn.state = p.state := rfl
@[simp] theorem turn_priority (p : Proc) : p.turn.priority = p.priority := rfl
@[simp] theorem turn_timeslices (p : Proc) : p.turn.timeslices = p.timeslices := rfl
@[simp] theorem turn_curTimeslices (p : Proc) : p.turn.curTimeslices = p.curTimeslices := rfl
@[simp] theorem turn_queue (p : Proc) : p.turn.queue = p.queue := rfl
@[simp] theorem turn_punish (p : Proc) : p.turn.punish = p.punish := rfl
@[simp] theorem turn_runTime (p : Proc) : p.turn.runTime = p.runTime := rfl
@[simp] theorem turn_ticks (p : Proc) : p.turn.ticks = p.ticks := rfl

/-- What waking up does: the multi-level feedback build starts a new slice. -/
def Turn.woken (b : Sched) (x : Turn) : Turn :=
  { x with state := .runnable, curTimeslices := if b = .mlfq then 0 else x.curTimeslices }

/-- What the scheduler does to the process it switches to. -/
def Turn.dispatched (b : Sched) (x : Turn) : Turn :=
  { x with
    state := .running
    timeslices := if b = .pbs then x.timeslices + 1 else x.timeslices
    curTimeslices := if b = .mlfq then x.curTimeslices + 1 else x.curTimeslices }

/-- What the multi-level feedback scheduler does to a process that comes back runnable. -/
def Turn.requeued (x : Turn) : Turn :=
  { x with
    curTimeslices := 0, punish := false
    queue := if x.punish = true ∧ x.queue ≠ NUM_QUEUES - 1 then x.queue + 1 else x.queue }

/-- The slot is one that has waited for more than `AGE_LIMIT` ticks. -/
def Kern.isOld (k : Kern C) (q : ProcId) : Bool :=
  Process.isOld k.ticks (.ofNat 32 AGE_LIMIT) (k.proc q)

/-- The ways in which the step `e` out of `k` can change the turn of the process in the slot `q`. -/
inductive TurnStep (b : Sched) (k : Kern C) (e : Event C) (q : ProcId) (x : Turn) : Turn → Prop
  | same : TurnStep b k e q x x
  | wake : x.state = .sleeping → TurnStep b k e q x (x.woken b)
  | alloc : allocates q e = true → x.state = .unused →
      TurnStep b k e q x ⟨.embryo, 60, 0, 0, 0, false, 0, fun _ => 0⟩
  | abandon : x.state = .embryo → TurnStep b k e q x { x with state := .unused }
  | activate : x.state = .embryo → TurnStep b k e q x { x with state := .runnable }
  | age {c : C} : b = .mlfq → e.1 = .scheduler c → x.state = .runnable → k.isOld q = true →
      TurnStep b k e q x { x with queue := x.queue - 1 }
  | dispatch {c : C} : e.1 = .scheduler c ∨ e.1 = .back c → e.2 = .dispatch q →
      x.state = .runnable → ∀ i, i = x.queue ∨ b = .mlfq ∧ k.isOld q = true ∧ i = x.queue - 1 →
      TurnStep b k e q x ({ x with queue := i }.dispatched b)
  | requeue {c : C} : b = .mlfq → e.1 = .back c → k.lock = .back c q → x.state = .runnable →
      TurnStep b k e q x x.requeued
  | yield {c : C} : e.1 = .proc c q .yield → x.state = .running →
      TurnStep b k e q x { x with state := .runnable }
  | sleep {c : C} : (∃ chan, e.1 = .proc c q (.sleep chan)) ∨ (∃ w, e.1 = .proc c q (.wait w)) ∨
      e.1 = .resume c ∧ k.lock = .resumed c q → x.state = .running →
      TurnStep b k e q x { x with state := .sleeping }
  | exit {c : C} : e.1 = .proc c q .exit → x.state = .running →
      TurnStep b k e q x { x with state := .zombie }
  | reap : x.state = .zombie → TurnStep b k e q x { x with state := .unused }
  | setPriority {c : C} {n : ℤ} : e.1 = .proc c q (.setPriority n) → x.state = .running →
      0 ≤ n → n ≤ 100 → TurnStep b k e q x
        { x with priority := n, timeslices := if n ≠ x.priority then 0 else x.timeslices }
  | incRuntime : e.1 = .incRuntime → x.state = .running →
      TurnStep b k e q x { x with runTime := x.runTime + 1 }
  | incPinfoTicks {c : C} (i : Fin NUM_QUEUES) : e.1 = .proc c q .incPinfoTicks →
      x.state = .running → x.queue = (i.val : ℤ) →
      TurnStep b k e q x { x with ticks := Function.update x.ticks i (x.ticks i + 1) }
  | punisher {c : C} : e.1 = .proc c q .punisher → x.state = .running →
      TurnStep b k e q x { x with punish := true }
  | incTimeslice {c : C} : e.1 = .proc c q .incTimeslice → x.state = .running →
      TurnStep b k e q x { x with curTimeslices := x.curTimeslices + 1 }

theorem TurnStep.of_eq {y y' : Turn} (h : y = y') : TurnStep b k e q y y' := h ▸ .same

/-- A change of one process structure: it is enough to look at its own slot. -/
theorem turnStep_setProc {k₀ : Kern C} {f : Proc → Proc}
    (h : TurnStep b k₀ e p (k.proc p).turn (f (k.proc p)).turn) (q : ProcId) :
    TurnStep b k₀ e q (k.proc q).turn ((k.setProc p f).proc q).turn := by
  by_cases hq : q = p
  · subst hq; simpa using h
  · rw [Kern.setProc_proc_ne _ _ _ hq]; exact .same

theorem turn_setProc {f : Proc → Proc} (hf : (f (k.proc p)).turn = (k.proc p).turn) (q : ProcId) :
    ((k.setProc p f).proc q).turn = (k.proc q).turn := by
  by_cases hq : q = p
  · subst hq; simpa using hf
  · rw [Kern.setProc_proc_ne _ _ _ hq]

/-! ### Waking up -/

/-- Some sleeping processes have been woken up, and no other turn has changed. -/
def TurnWoken (b : Sched) (k k' : Kern C) : Prop :=
  SameRest k k' ∧ ∀ q, (k'.proc q).turn = (k.proc q).turn ∨
    (k.proc q).state = .sleeping ∧ (k'.proc q).turn = (k.proc q).turn.woken b

theorem TurnWoken.refl (k : Kern C) : TurnWoken b k k := ⟨.refl k, fun _ => .inl rfl⟩

theorem TurnWoken.trans {k k' k'' : Kern C} (h : TurnWoken b k k') (h' : TurnWoken b k' k'') :
    TurnWoken b k k'' := by
  refine ⟨h.1.trans h'.1, fun q => ?_⟩
  rcases h'.2 q with hq' | ⟨hs', hq'⟩
  · rw [hq']
    exact h.2 q
  · rcases h.2 q with hq | ⟨-, hq⟩
    · rw [hq', hq]
      exact .inr ⟨by rw [← turn_state, ← hq, turn_state, hs'], rfl⟩
    · -- a process that was woken up does not sleep
      rw [← turn_state, hq] at hs'
      cases hs'

theorem TurnWoken.turnStep {k₀ : Kern C} (h : TurnWoken b k k') (q : ProcId) :
    TurnStep b k₀ e q (k.proc q).turn (k'.proc q).turn := by
  rcases h.2 q with hq | ⟨hs, hq⟩
  · exact .of_eq hq.symm
  · rw [hq]
    exact .wake hs

theorem wake_turn (hs : (k.proc p).state = .sleeping) (h : wake b k p = .ok k') : TurnWoken b k k' := by
  refine ⟨(wake_frame hs h).1, fun q => ?_⟩
  unfold wake at h
  dsimp only at h
  split at h
  · rename_i hb
    split at h
    · cases h
    · rename_i k₁ he
      obtain ⟨-, hproc⟩ := enqueue_frame he
      cases h
      by_cases hq : q = p
      · subst hq
        refine .inr ⟨hs, ?_⟩
        simp only [Kern.setProc_proc_self, hproc]
        simp [Proc.turn, Turn.woken, hb]
      · rw [Kern.setProc_proc_ne _ _ _ hq, hproc, Kern.setProc_proc_ne _ _ _ hq]
        exact .inl rfl
  · rename_i hb
    cases h
    by_cases hq : q = p
    · subst hq
      refine .inr ⟨hs, ?_⟩
      simp [Proc.turn, Turn.woken, hb]
    · rw [Kern.setProc_proc_ne _ _ _ hq]
      exact .inl rfl

theorem wakeup1_turn {chan : Option Chan} (h : wakeup1 b k chan = .ok k') : TurnWoken b k k' := by
  refine foldlM_rel TurnWoken.refl TurnWoken.trans (fun {k q k'} hq => ?_) _ h
  unfold wakeup1Body at hq
  split at hq
  · rename_i hc
    exact wake_turn hc.1 hq
  · cases hq
    exact .refl k

theorem reparent_turn (h : reparent b p k q = .ok k') : TurnWoken b k k' := by
  unfold reparent at h
  split at h
  · dsimp only at h
    have hset : TurnWoken b k (k.setProc q fun r => { r with parent := k.initproc }) :=
      ⟨rfl, fun r => .inl (turn_setProc rfl r)⟩
    split at h
    · exact hset.trans (wakeup1_turn h)
    · cases h
      exact hset
  · cases h
    exact .refl k

/-- The two loops of `exit`, before the process becomes a zombie. -/
theorem exit_turn {c : C} (h : exit b k c p = .ok k') :
    ∃ k₁, TurnWoken b k k₁ ∧
      k' = { k₁.setProc p fun q => { q with state := .zombie } with lock := .back c p } := by
  unfold exit at h
  split at h
  · cases h
  rename_i k₁ h₁
  split at h
  · cases h
  rename_i k₂ h₂
  cases h
  exact ⟨k₂, (wakeup1_turn h₁).trans (foldlM_rel TurnWoken.refl TurnWoken.trans reparent_turn _ h₂), rfl⟩

/-! ### Ageing and dispatching -/

/-- The ageing pass moves up processes that have waited for long, each once. -/
def Sifted (k k' : Kern C) : Prop :=
  SameRest k k' ∧ ∀ q, k'.proc q = k.proc q ∨
    (k.proc q).state = .runnable ∧ k.isOld q = true ∧ k'.proc q = aged k.ticks (k.proc q)

theorem Sifted.refl (k : Kern C) : Sifted k k := ⟨.refl k, fun _ => .inl rfl⟩

theorem not_isOld_aged {ticks : Word} (x : Proc) :
    Process.isOld ticks (.ofNat 32 AGE_LIMIT) (aged ticks x) = false := by
  simp [Process.isOld, aged]

theorem Sifted.trans {k k' k'' : Kern C} (h : Sifted k k') (h' : Sifted k' k'') : Sifted k k'' := by
  refine ⟨h.1.trans h'.1, fun q => ?_⟩
  have ht := h.1.ticks
  rcases h'.2 q with hq' | ⟨hs, hold, hq'⟩
  · rw [hq']
    exact h.2 q
  · rcases h.2 q with hq | ⟨-, -, hq⟩
    · rw [hq', hq, ht]
      rw [hq] at hs
      refine .inr ⟨hs, ?_, rfl⟩
      rwa [Kern.isOld, hq, ht] at hold
    · rw [Kern.isOld, hq, ht, not_isOld_aged] at hold
      cases hold

theorem Ready.sifts {qs : Fin NUM_QUEUES → List ProcId} (h : Ready k none qs)
    (hx : [1, 2, 3, 4].foldlM Process.ageQueue k = .ok k') : Sifted k k' := by
  have hpass : ∃ k₁, [1, 2, 3, 4].foldlM Process.ageQueue k = .ok k₁ ∧ Queued k₁ none ∧ Sifted k k₁ := by
    refine foldlM_ok (P := fun k₁ => Queued k₁ none ∧ Sifted k k₁) ?_ ⟨⟨qs, h⟩, .refl k⟩
    rintro k₁ i hi ⟨⟨qs, h⟩, hs⟩
    obtain ⟨k₂, hx₂, hproc, h₂⟩ := h.ageQueue (i := i) (by rintro rfl; exact absurd hi (by decide))
    refine ⟨k₂, hx₂, ⟨_, h₂⟩, hs.trans ⟨(ageQueue_frame hx₂).1, fun q => ?_⟩⟩
    rw [hproc, agedAll]
    split
    · rename_i hq
      have hold := List.all_eq_true.1 List.all_takeWhile q hq
      have hmem := (h.mem q i).1 (List.takeWhile_subset _ hq)
      exact .inr ⟨hmem.1, hold, rfl⟩
    · exact .inl rfl
  obtain ⟨k₁, hx₁, -, hs⟩ := hpass
  obtain rfl : k₁ = k' := Except.ok.inj (hx₁.symm.trans hx)
  exact hs

theorem schedRR_turn [DecidableEq C] {k₀ : Kern C} {c : C} {n : ℕ} (he : e.1 = .scheduler c ∨ e.1 = .back c)
    (ho : e.2 = (schedRR k c n).2) (q : ProcId) :
    TurnStep .rr k₀ e q (k.proc q).turn ((schedRR k c n).1.proc q).turn := by
  unfold schedRR at ho ⊢
  split at ho
  · exact .same
  · rename_i p hf
    have hp := find?_mem hf
    simp only [decide_eq_true_eq] at hp
    exact turnStep_setProc (f := fun q => { q with numRun := q.numRun + 1, state := .running })
      (.dispatch he ho hp.2 _ (.inl rfl)) q

theorem schedMLFQ_turn [DecidableEq C] {c : C} {o : Out} {k₀ : Kern C} {qs : Fin NUM_QUEUES → List ProcId}
    (hq : Ready k none qs) (h₀ : ∀ q, k₀.isOld q = k.isOld q)
    (he : e.1 = .scheduler c) (ho : e.2 = o) (h : schedMLFQ k c = .ok (k', o)) (q : ProcId) :
    TurnStep .mlfq k₀ e q (k.proc q).turn (k'.proc q).turn := by
  unfold schedMLFQ at h
  split at h
  · cases h
  rename_i k₁ h₁
  have hs := (hq.sifts h₁).2 q
  have hage : TurnStep .mlfq k₀ e q (k.proc q).turn (k₁.proc q).turn := by
    rcases hs with hs | ⟨hrun, hold, hs⟩
    · rw [hs]
      exact .same
    · rw [hs]
      exact .age rfl he hrun (by rw [h₀, hold])
  split at h
  · cases h
  · rename_i k₂ h₂
    cases h
    simpa only [(popFirst_frame h₂).2] using hage
  · rename_i k₂ p h₂
    have hp₂ := (popFirst_frame h₂).2
    rw [← hp₂] at hs hage
    split at h
    · cases h
      exact hage
    · rename_i hrun
      cases h
      by_cases hqp : q = p
      · subst hqp
        have hrun : (k₂.proc q).state = .runnable := by simpa using hrun
        simp only [switchTo, Kern.setProc_proc_self]
        rcases hs with hs | ⟨hrun', hold, hs⟩
        · rw [hs] at hrun ⊢
          exact .dispatch (.inl he) ho hrun _ (.inl rfl)
        · rw [hs]
          exact .dispatch (.inl he) ho hrun' _ (.inr ⟨rfl, by rw [h₀, hold], rfl⟩)
      · simpa only [switchTo, Kern.setProc_proc_ne _ _ _ hqp] using hage

theorem scheduler_turn [DecidableEq C] {k₀ : Kern C} {c : C} {t : Word} {o : Out} (h₀ : ∀ q, k₀.isOld q = k.isOld q)
    (hq : b = .mlfq → Queued k none) (he : e.1 = .scheduler c) (ho : e.2 = o)
    (h : scheduler b k c t = .ok (k', o)) (q : ProcId) :
    TurnStep b k₀ e q (k.proc q).turn (k'.proc q).turn := by
  unfold scheduler at h
  split at h
  · obtain ⟨rfl, rfl⟩ := Prod.mk.inj (Except.ok.inj h)
    exact schedRR_turn (.inl he) ho q
  · split at h
    · cases h
      exact .same
    · rename_i p hp
      cases h
      exact turnStep_setProc (f := fun q => { q with numRun := q.numRun + 1, state := .running })
        (.dispatch (.inl he) ho (pickFCFS_runnable hp) _ (.inl rfl)) q
  · split at h
    · cases h
      exact .same
    · rename_i p hp
      cases h
      by_cases hqp : q = p
      · subst hqp
        simp only [switchTo, Kern.setProc_proc_self]
        exact .dispatch (.inl he) ho (pickPBS_runnable hp) _ (.inl rfl)
      · simp only [switchTo, Kern.setProc_proc_ne _ _ _ hqp]
        exact .same
  · obtain ⟨qs, hq⟩ := hq rfl
    exact schedMLFQ_turn hq h₀ he ho h q

/-! ### Coming back -/

theorem requeue_turn (h : requeue k p = .ok k') (q : ProcId) :
    (k'.proc q).turn = if q = p ∧ (k.proc p).state = .runnable then (k.proc q).turn.requeued
      else (k.proc q).turn := by
  unfold requeue at h
  split at h
  · rename_i hs
    dsimp only at h
    rw [(enqueue_frame h).2]
    by_cases hq : q = p
    · subst hq
      conv_rhs => rw [if_pos ⟨rfl, hs⟩]
      cases hpun : (k.proc q).punish <;> simp [hpun, Proc.turn, Turn.requeued]
    · conv_rhs => rw [if_neg fun h => hq h.1]
      split <;> simp only [Kern.setProc_proc_ne _ _ _ hq]
  · rename_i hs
    cases h
    rw [if_neg fun h => hs h.2]

theorem back_turn [DecidableEq C] {c : C} {o : Out} (hl : k.lock = .back c p) (he : e.1 = .back c) (ho : e.2 = o)
    (h : back b k c p = .ok (k', o)) (q : ProcId) :
    TurnStep b k e q (k.proc q).turn (k'.proc q).turn := by
  unfold back at h
  dsimp only at h
  split at h
  · obtain ⟨rfl, rfl⟩ := Prod.mk.inj (Except.ok.inj h)
    exact schedRR_turn (k := { k with cpu := Function.update k.cpu c none }) (.inr he) ho q
  · split at h
    · cases h
    · rename_i k₁ h₁
      cases h
      simp only [requeue_turn h₁ q]
      split
      · rename_i hs
        obtain ⟨rfl, hs⟩ := hs
        exact .requeue rfl he hl hs
      · exact .same
  · cases h
    exact .same

theorem waitLoop_turn {k₀ : Kern C} {w : WaitKind} {c : C} (hs : (k.proc p).state = .running)
    (he : e.1 = .proc c p (.wait w) ∨ e.1 = .resume c ∧ k₀.lock = .resumed c p) (q : ProcId) :
    TurnStep b k₀ e q (k.proc q).turn ((waitLoop w k c p).1.proc q).turn := by
  unfold waitLoop
  split
  · rename_i z hz
    have hzs := find?_mem hz
    simp only [decide_eq_true_eq] at hzs
    exact turnStep_setProc (f := reap) (.reap hzs.2) q
  · dsimp only
    split
    · exact .same
    · refine turnStep_setProc
        (f := fun q => { q with chan := some (.proc p), state := .sleeping, context := .wait w })
        (.sleep (c := c) ?_ hs) q
      exact .inr (he.imp (fun he => ⟨w, he⟩) id)

theorem resume_turn {c : C} (hs : (k.proc p).state = .running) (hl : k.lock = .resumed c p)
    (he : e.1 = .resume c) (q : ProcId) :
    TurnStep b k e q (k.proc q).turn ((resume k c p).1.proc q).turn := by
  have hset := turn_setProc (k := k) (p := p) (f := fun q => { q with chan := none }) rfl q
  unfold resume
  split
  · exact .same
  · exact .same
  · exact .of_eq hset.symm
  · rw [← hset]
    exact waitLoop_turn (by simpa using hs) (.inr ⟨he, hl⟩) q

/-! ### Every step -/

theorem kill_turn {pid : Word} {o : Out} (h : kill b k pid = .ok (k', o)) (q : ProcId) :
    TurnStep b k e q (k.proc q).turn (k'.proc q).turn := by
  rcases kill_cases h with ⟨rfl, -⟩ | ⟨p, -, -, h⟩
  · exact .same
  have hset := turn_setProc (k := k) (p := p) (f := fun q => { q with killed := true }) rfl q
  rcases h with rfl | ⟨hs, hw⟩
  · exact .of_eq hset.symm
  · rw [← hset]
    exact (wake_turn (by simpa using hs) hw).turnStep q

theorem execProc_turn [DecidableEq C] {c : C} {a : ProcAct} {o : Out} (hs : Shape k) (he : e.1 = .proc c p a)
    (ho : e.2 = o) (hen : enabled b k (.proc c p a) = true) (h : execProc b k c p a = .ok (k', o))
    (q : ProcId) : TurnStep b k e q (k.proc q).turn (k'.proc q).turn := by
  obtain ⟨-, hallow, -, -, hrun⟩ := lock_of_enabled hs hen
  have hset : ∀ {f : Proc → Proc}, (f (k.proc p)).turn = (k.proc p).turn →
      TurnStep b k e q (k.proc q).turn ((k.setProc p f).proc q).turn := fun hf =>
    .of_eq (turn_setProc hf q).symm
  cases a with
  | yield =>
    cases h
    exact turnStep_setProc (f := fun q => { q with state := .runnable, context := .yield })
      (.yield he hrun) q
  | sleep chan =>
    cases h
    exact turnStep_setProc
      (f := fun q => { q with chan := some chan, state := .sleeping, context := .sleep })
      (.sleep (.inl ⟨chan, he⟩) hrun) q
  | wait w =>
    obtain ⟨rfl, rfl⟩ := Prod.mk.inj (Except.ok.inj h)
    exact waitLoop_turn hrun (.inl he) q
  | exitBegin =>
    simp only [execProc] at h
    split at h
    · cases h
    · cases h
      exact hset rfl
  | exit =>
    obtain ⟨h₁, rfl⟩ := execProc_exit h
    obtain ⟨k₁, hw, rfl⟩ := exit_turn h₁
    by_cases hq : q = p
    · subst hq
      simp only [Kern.setProc_proc_self]
      have hsame : (k₁.proc q).turn = (k.proc q).turn := by
        rcases hw.2 q with hq | ⟨hsleep, -⟩
        · exact hq
        · rw [hrun] at hsleep
          cases hsleep
      have hz : ({ k₁.proc q with state := .zombie } : Proc).turn =
          { (k.proc q).turn with state := .zombie } := by
        rw [← hsame]
        rfl
      rw [hz]
      exact .exit he hrun
    · simp only [Kern.setProc_proc_ne _ _ _ hq]
      exact hw.turnStep q
  | forkAlloc =>
    simp only [execProc] at h
    split at h
    · cases h
      exact .same
    · rename_i np k₁ h₁
      cases h
      obtain ⟨hu, rfl⟩ := allocproc_eq h₁
      rw [turn_setProc rfl]
      exact turnStep_setProc (f := embryo k) (.alloc (allocates_fork he ho) hu) q
  | forkFail =>
    obtain ⟨np, d, ht, rfl, rfl⟩ := execProc_forkFail h
    rw [turn_setProc rfl]
    exact turnStep_setProc (f := fun q => { q with state := .unused }) (.abandon (hs.fork ht)) q
  | forkCopy =>
    obtain ⟨np, d, ht, rfl, rfl⟩ := execProc_forkCopy h
    rw [turn_setProc rfl, turn_setProc rfl]
    exact .same
  | fork =>
    obtain ⟨np, d, k₁, ht, h₁, rfl, rfl⟩ := execProc_fork h
    rw [turn_setProc rfl, (activate_frame h₁).2]
    exact turnStep_setProc (f := fun q => { q with state := .runnable }) (.activate (hs.fork ht)) q
  | kill pid => exact kill_turn h q
  | trapKill =>
    cases h
    exact hset rfl
  | setPriority n =>
    simp only [execProc] at h
    split at h
    · cases h
      exact .same
    · rename_i hn
      cases h
      have h0 : 0 ≤ n := by omega
      have h100 : n ≤ 100 := by omega
      exact turnStep_setProc (f := fun q => { q with
        priority := n, timeslices := if n ≠ q.priority then 0 else q.timeslices })
        (.setPriority he hrun h0 h100) q
  | incPinfoTicks =>
    simp only [execProc] at h
    split at h
    · rename_i hi
      cases h
      refine turnStep_setProc (f := fun q => { q with
        ticks := Function.update q.ticks ⟨(k.proc p).queue.toNat, by omega⟩ _ }) ?_ q
      exact .incPinfoTicks ⟨(k.proc p).queue.toNat, by omega⟩ he hrun (by simp [hi.1])
    · cases h
  | punisher =>
    cases h
    exact turnStep_setProc (f := fun q => { q with punish := true }) (.punisher he hrun) q
  | incTimeslice =>
    cases h
    exact turnStep_setProc (f := fun q => { q with curTimeslices := q.curTimeslices + 1 })
      (.incTimeslice he hrun) q

/-- **What a step does to the turn of one process.** -/
theorem turn_step [DecidableEq C] (hs : Shape k) (hq : b = .mlfq → Queued k k.lock.pending) (h : Step b k e k')
    (q : ProcId) : TurnStep b k e q (k.proc q).turn (k'.proc q).turn := by
  obtain ⟨a, o⟩ := e
  obtain ⟨he, hx⟩ := step_iff.1 h
  cases a with
  | userinitAlloc =>
    obtain ⟨p, k₁, h₁, rfl, rfl⟩ := exec_userinitAlloc hx
    obtain ⟨hu, rfl⟩ := allocproc_eq h₁
    exact turnStep_setProc (f := embryo k) (.alloc (by simp [allocates]) hu) q
  | userinit =>
    obtain ⟨p, k₁, hb, h₁, rfl, rfl⟩ := exec_userinit hx
    simp only [(activate_frame h₁).2]
    exact turnStep_setProc (f := fun q => { q with state := .runnable }) (.activate (hs.boot hb)) q
  | readTicks c =>
    cases hx
    exact .same
  | scheduler c =>
    simp only [enabled, Bool.and_eq_true, decide_eq_true_eq] at he
    have hold : ∀ q, k.isOld q = { k with seen := Function.update k.seen c none }.isOld q := fun _ => rfl
    refine scheduler_turn hold (fun hb => ?_) rfl rfl hx q
    obtain ⟨qs, hq⟩ := hq hb
    rw [he.1.2] at hq
    exact ⟨qs, hq.of_eq rfl rfl rfl⟩
  | resume c =>
    obtain ⟨p, hl, hx⟩ := exec_resume he hx
    obtain ⟨rfl, rfl⟩ := Prod.mk.inj hx
    exact resume_turn (hs.running (hs.resumed hl) (by simp [hl])) hl rfl q
  | back c =>
    obtain ⟨p, hl, hx⟩ := exec_back he hx
    exact back_turn hl rfl rfl hx q
  | proc c p a => exact execProc_turn hs rfl rfl he hx q
  | wakeup chan =>
    obtain ⟨h₁, rfl⟩ := exec_wakeup hx
    exact (wakeup1_turn h₁).turnStep q
  | tick =>
    cases hx
    exact .same
  | incRuntime =>
    cases hx
    simp only [incRuntime]
    split
    · rename_i hr
      exact .incRuntime rfl hr
    · exact .same
  | wakeupTicks =>
    obtain ⟨k₁, h₁, rfl, rfl⟩ := exec_wakeupTicks hx
    exact (wakeup1_turn h₁).turnStep q

/-! ### The CPUs and the lock -/

def cpuAfter [DecidableEq C] (cpu : C → Option ProcId) : Event C → C → Option ProcId
  | (.scheduler c, .dispatch p) | (.back c, .dispatch p) => Function.update cpu c (some p)
  | (.back c, _) => Function.update cpu c none
  | _ => cpu

def lockAfter (lock : Lock C) : Event C → Lock C
  | (.scheduler c, .dispatch p) | (.back c, .dispatch p) => .resumed c p
  | (.scheduler _, _) | (.back _, _) => .free
  | (.resume c, .asleep) => match lock with
    | .resumed _ p => .back c p
    | _ => lock
  | (.resume _, _) => .free
  | (.proc c p .yield, _) | (.proc c p (.sleep _), _) | (.proc c p .exit, _) => .back c p
  | (.proc c p (.wait _), .asleep) => .back c p
  | (.proc _ _ (.wait _), _) => .free
  | _ => lock

/-- The values of `ticks` that the scheduler loops have read, after a step. -/
def seenAfter [DecidableEq C] (k : Kern C) : Act C → C → Option Word
  | .readTicks c => Function.update k.seen c (some k.ticks)
  | .scheduler c => Function.update k.seen c none
  | _ => k.seen

/-- What a step leaves in the hands of the CPUs. -/
structure Hands [DecidableEq C] (k : Kern C) (e : Event C) (k' : Kern C) : Prop where
  cpu : k'.cpu = cpuAfter k.cpu e
  lock : k'.lock = lockAfter k.lock e
  seen : k'.seen = seenAfter k e.1

theorem SameRest.seen (h : SameRest k k') : k'.seen = k.seen := by rw [h]

theorem waitLoop_hands {w : WaitKind} {c : C} :
    (waitLoop w k c p).1.cpu = k.cpu ∧ (waitLoop w k c p).1.seen = k.seen ∧
      (waitLoop w k c p).1.lock = if (waitLoop w k c p).2 = .asleep then .back c p else .free := by
  unfold waitLoop
  split
  · exact ⟨rfl, rfl, rfl⟩
  · dsimp only
    split <;> exact ⟨rfl, rfl, rfl⟩

theorem resume_hands {c : C} :
    (resume k c p).1.cpu = k.cpu ∧ (resume k c p).1.seen = k.seen ∧
      (resume k c p).1.lock = if (resume k c p).2 = .asleep then .back c p else .free := by
  unfold resume
  split
  · exact ⟨rfl, rfl, rfl⟩
  · exact ⟨rfl, rfl, rfl⟩
  · exact ⟨rfl, rfl, rfl⟩
  · exact waitLoop_hands

theorem Pass.hands [DecidableEq C] {c : C} {o : Out} (h : Pass k c k' o) :
    (∃ p, o = .dispatch p ∧ k'.cpu = Function.update k.cpu c (some p) ∧ k'.lock = .resumed c p ∧
        k'.seen = k.seen) ∨
      (∀ p, o ≠ .dispatch p) ∧ k'.cpu = k.cpu ∧ k'.lock = .free ∧ k'.seen = k.seen := by
  cases h with
  | rest h ho => exact .inr ⟨by rcases ho with rfl | ⟨_, rfl⟩ <;> simp, h.1.cpu, rfl, h.1.seen⟩
  | dispatch h hp => exact .inl ⟨_, rfl, by rw [← h.1.cpu]; rfl, rfl, h.1.seen⟩

theorem back_hands [DecidableEq C] {c : C} {o : Out} (h : back b k c p = .ok (k', o)) : Hands k (.back c, o) k' := by
  unfold back at h
  dsimp only at h
  split at h
  · have hands := (schedRR_pass { k with cpu := Function.update k.cpu c none } c (p + 1)).hands
    rw [Except.ok.inj h] at hands
    rcases hands with ⟨q, rfl, hcpu, hlock, hseen⟩ | ⟨ho, hcpu, hlock, hseen⟩
    · refine ⟨?_, hlock, hseen⟩
      rw [hcpu]
      exact Function.update_idem ..
    · cases o with
      | dispatch q => exact absurd rfl (ho q)
      | _ => exact ⟨hcpu, hlock, hseen⟩
  · split at h
    · cases h
    · rename_i k₁ h₁
      have hr := (requeue_calm h₁).2
      cases h
      exact ⟨hr.cpu, rfl, hr.seen⟩
  · cases h
    exact ⟨rfl, rfl, rfl⟩

theorem execProc_hands [DecidableEq C] {c : C} {a : ProcAct} {o : Out} (h : execProc b k c p a = .ok (k', o)) :
    Hands k (.proc c p a, o) k' := by
  cases a with
  | wait w =>
    have hx : waitLoop w k c p = (k', o) := Except.ok.inj h
    have hands := waitLoop_hands (w := w) (k := k) (p := p) (c := c)
    rw [hx] at hands
    obtain ⟨hcpu, hseen, hlock⟩ := hands
    refine ⟨hcpu, ?_, hseen⟩
    cases o <;> exact hlock
  | kill pid =>
    rcases kill_cases h with ⟨rfl, rfl⟩ | ⟨p, -, rfl, rfl | ⟨hs, h₁⟩⟩
    · exact ⟨rfl, rfl, rfl⟩
    · exact ⟨rfl, rfl, rfl⟩
    · have hr := (wake_frame (by simpa using hs) h₁).1
      exact ⟨hr.cpu, hr.lock, hr.seen⟩
  | yield | sleep | trapKill | punisher | incTimeslice =>
    cases h
    exact ⟨rfl, rfl, rfl⟩
  | exitBegin | setPriority | incPinfoTicks =>
    simp only [execProc] at h
    split at h <;> cases h <;> exact ⟨rfl, rfl, rfl⟩
  | exit =>
    obtain ⟨h₁, rfl⟩ := execProc_exit h
    obtain ⟨k₁, hst, rfl⟩ := exit_frame h₁
    exact ⟨hst.1.cpu, rfl, hst.1.seen⟩
  | forkAlloc =>
    simp only [execProc] at h
    split at h
    · cases h
      exact ⟨rfl, rfl, rfl⟩
    · rename_i h₁
      obtain ⟨-, rfl⟩ := allocproc_eq h₁
      cases h
      exact ⟨rfl, rfl, rfl⟩
  | forkFail | forkCopy =>
    simp only [execProc] at h
    split at h
    · cases h
      exact ⟨rfl, rfl, rfl⟩
    · cases h
  | fork =>
    obtain ⟨np, d, k₁, -, h₁, rfl, rfl⟩ := execProc_fork h
    have hr := (activate_frame h₁).1
    exact ⟨hr.cpu, hr.lock, hr.seen⟩

/-- **The CPUs and the lock change hands in the scheduler**, and where a process gives up its CPU. -/
theorem hands_step [DecidableEq C] (h : Step b k e k') : Hands k e k' := by
  obtain ⟨a, o⟩ := e
  obtain ⟨he, hx⟩ := step_iff.1 h
  cases a with
  | userinitAlloc =>
    obtain ⟨p, k₁, h₁, rfl, rfl⟩ := exec_userinitAlloc hx
    obtain ⟨-, rfl⟩ := allocproc_eq h₁
    exact ⟨rfl, rfl, rfl⟩
  | userinit =>
    obtain ⟨p, k₁, -, h₁, rfl, rfl⟩ := exec_userinit hx
    have hr := (activate_frame h₁).1
    exact ⟨hr.cpu, hr.lock, hr.seen⟩
  | readTicks c | tick | incRuntime =>
    cases hx
    exact ⟨rfl, rfl, rfl⟩
  | scheduler c =>
    rcases (scheduler_pass hx).hands with ⟨p, ho, hcpu, hlock, hseen⟩ | ⟨ho, hcpu, hlock, hseen⟩
    · dsimp only at ho
      subst ho
      exact ⟨hcpu, hlock, hseen⟩
    · cases o with
      | dispatch p => exact absurd rfl (ho p)
      | _ => exact ⟨hcpu, hlock, hseen⟩
  | resume c =>
    obtain ⟨p, hl, hx⟩ := exec_resume he hx
    have hands := resume_hands (k := k) (p := p) (c := c)
    rw [hx] at hands
    obtain ⟨hcpu, hseen, hlock⟩ := hands
    refine ⟨hcpu, ?_, hseen⟩
    rw [hl]
    cases o <;> exact hlock
  | back c =>
    obtain ⟨p, -, hx⟩ := exec_back he hx
    exact back_hands hx
  | proc c p a => exact execProc_hands hx
  | wakeup chan =>
    obtain ⟨h₁, rfl⟩ := exec_wakeup hx
    have hr := (wakeup1_frame h₁).1
    exact ⟨hr.cpu, hr.lock, hr.seen⟩
  | wakeupTicks =>
    obtain ⟨k₁, h₁, rfl, rfl⟩ := exec_wakeupTicks hx
    have hr := (wakeup1_frame h₁).1
    exact ⟨hr.cpu, hr.lock, hr.seen⟩

/-! ### Who runs -/

/-- A process that runs is on a CPU, and one that has just switched away does not run. -/
structure Placed (k : Kern C) : Prop where
  shape : Shape k
  cpu : ∀ p, (k.proc p).state = .running → ∃ c, k.cpu c = some p
  back : ∀ c p, k.lock = .back c p → (k.proc p).state ≠ .running

theorem Placed.init : Placed (Process.boot C) := ⟨.init, nofun, nofun⟩

/-- A process starts to run when it is dispatched. -/
theorem TurnStep.running {x y : Turn} (h : TurnStep b k e q x y) (hy : y.state = .running) :
    x.state = .running ∨ e.2 = .dispatch q ∧ ∃ c, e.1 = .scheduler c ∨ e.1 = .back c := by
  cases h with
  | same | age => exact .inl hy
  | dispatch he ho _ _ _ => exact .inr ⟨ho, _, he⟩
  | requeue _ _ _ hx =>
    have hy : x.state = .running := hy
    rw [hx] at hy
    cases hy
  | setPriority _ hx | incRuntime _ hx | incPinfoTicks _ _ hx | punisher _ hx | incTimeslice _ hx =>
    exact .inl hx
  | _ => cases hy

theorem waitLoop_left {w : WaitKind} {c c' : C} {p' : ProcId}
    (h : (waitLoop w k c p).1.lock = .back c' p') : ((waitLoop w k c p).1.proc p').state ≠ .running := by
  unfold waitLoop at h ⊢
  split at h
  · cases h
  · dsimp only at h ⊢
    split at h
    · cases h
    · rename_i hk
      cases h
      simp [hk]

theorem resume_left {c c' : C} {p' : ProcId} (h : (resume k c p).1.lock = .back c' p') :
    ((resume k c p).1.proc p').state ≠ .running := by
  unfold resume at h ⊢
  split at h
  · cases h
  · cases h
  · cases h
  · exact waitLoop_left h

/-- A process that switches away has stopped running. -/
theorem left_step [DecidableEq C] {c : C} (h : Step b k e k') (hl : k'.lock = .back c p) :
    k.lock = .back c p ∨ (k'.proc p).state ≠ .running := by
  have hands := (hands_step h).lock
  obtain ⟨a, o⟩ := e
  obtain ⟨he, hx⟩ := step_iff.1 h
  rw [hl] at hands
  cases a with
  | resume c' =>
    obtain ⟨p₀, -, hx⟩ := exec_resume he hx
    obtain rfl : (resume k c' p₀).1 = k' := congrArg Prod.fst hx
    exact .inr (resume_left hl)
  | back c' | scheduler c' => cases o <;> cases hands
  | proc c' q a =>
    cases a with
    | yield | sleep chan =>
      cases hx
      cases hands
      simp
    | wait w =>
      have hk : (waitLoop w k c' q).1 = k' := congrArg Prod.fst (Except.ok.inj hx)
      subst hk
      exact .inr (waitLoop_left hl)
    | exit =>
      obtain ⟨h₁, rfl⟩ := execProc_exit hx
      obtain ⟨k₁, -, rfl⟩ := exit_frame h₁
      cases hands
      simp
    | _ => exact .inl hands.symm
  | _ => exact .inl hands.symm

theorem enabled_scheduler [DecidableEq C] {c : C} (h : enabled b k (.scheduler c) = true) :
    k.cpu c = none ∧ k.lock = .free := by
  simp only [enabled, Bool.and_eq_true, decide_eq_true_eq] at h
  exact h.1

theorem enabled_back [DecidableEq C] {c : C} (h : enabled b k (.back c) = true) : ∃ p, k.lock = .back c p := by
  simp only [enabled] at h
  split at h
  · rename_i c' p hl
    obtain rfl : c' = c := by simpa using h
    exact ⟨p, hl⟩
  · cases h

/-- A CPU changes its process in its own scheduler only. -/
theorem cpuAfter_of_ne [DecidableEq C] {cpu : C → Option ProcId} {c : C} (hs : e.1 ≠ .scheduler c) (hb : e.1 ≠ .back c) :
    cpuAfter cpu e c = cpu c := by
  obtain ⟨a, o⟩ := e
  cases a with
  | scheduler c' =>
    have hne : c ≠ c' := by
      rintro rfl
      exact hs rfl
    cases o <;> simp [cpuAfter, hne]
  | back c' =>
    have hne : c ≠ c' := by
      rintro rfl
      exact hb rfl
    cases o <;> simp [cpuAfter, hne]
  | _ => rfl

theorem cpuAfter_dispatch [DecidableEq C] {cpu : C → Option ProcId} {c : C} (ho : e.2 = .dispatch p)
    (he : e.1 = .scheduler c ∨ e.1 = .back c) : cpuAfter cpu e = Function.update cpu c (some p) := by
  obtain ⟨a, o⟩ := e
  obtain rfl : o = .dispatch p := ho
  rcases he with he | he <;> cases he <;> rfl

theorem Placed.step [DecidableEq C] (h : Placed k) (hq : b = .mlfq → Queued k k.lock.pending) (hst : Step b k e k') :
    Placed k' := by
  have hturn := turn_step h.shape hq hst
  have hcpu := (hands_step hst).cpu
  have hen : enabled b k e.1 = true := hst.1
  refine ⟨h.shape.step hst, fun p hp => ?_, fun c p hl => ?_⟩
  · rcases (hturn p).running hp with hrun | ⟨ho, c, he⟩
    · -- it was on a CPU, which has not switched
      obtain ⟨c, hc⟩ := h.cpu p hrun
      refine ⟨c, ?_⟩
      rw [hcpu, cpuAfter_of_ne, hc]
      · intro he
        rw [he] at hen
        have hidle := (enabled_scheduler hen).1
        rw [hc] at hidle
        cases hidle
      · intro he
        rw [he] at hen
        obtain ⟨p', hl⟩ := enabled_back hen
        have hp' := h.shape.back hl
        rw [hc] at hp'
        cases hp'
        exact h.back c p hl hrun
    · exact ⟨c, by rw [hcpu, cpuAfter_dispatch ho he, Function.update_self]⟩
  · rcases left_step hst hl with hl₀ | hstopped
    · intro hp
      rcases (hturn p).running hp with hrun | ⟨ho, c', he⟩
      · exact h.back c p hl₀ hrun
      · have hlock := (hands_step hst).lock
        obtain ⟨a, o⟩ := e
        obtain rfl : o = .dispatch p := ho
        rw [hl] at hlock
        rcases he with he | he <;> cases he <;> cases hlock
    · exact hstopped

theorem Runs.placed [DecidableEq C] {h : List (Event C)} (hr : Runs b h k) : Placed k := by
  have hinv : Placed k ∧ (b = .mlfq → Sound k) := by
    refine hr.invariant (P := fun _ k => Placed k ∧ (b = .mlfq → Sound k)) ⟨.init, fun _ => .init⟩ ?_
    rintro h k e k' - ⟨hp, hs⟩ hst
    refine ⟨hp.step (fun hb => (hs hb).queued) hst, fun hb => ?_⟩
    subst hb
    exact (hs rfl).step hst
  exact hinv.1

theorem Runs.turn_step [DecidableEq C] {h : List (Event C)} (hr : Runs b h k) (hst : Step b k e k') (q : ProcId) :
    TurnStep b k e q (k.proc q).turn (k'.proc q).turn := by
  refine Process.turn_step hr.shape (fun hb => ?_) hst q
  subst hb
  exact hr.sound.queued

end Xv6.Process
