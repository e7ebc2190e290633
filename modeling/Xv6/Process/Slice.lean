import Xv6.Process.Trap

/-!
# Time slices

The scheduler starts a slice with the count one, and every timer interrupt that does not preempt adds
one, so in the handler of the `n`-th interrupt after the dispatch the count is `n`. The slice of queue
`q` is used up at `2 ^ q`: then the handler sets `punish`, and the scheduler, which gets the process
back, moves it to the next queue. Everybody else comes back to the queue they were on.
-/

namespace Xv6.Process

open Lib

variable {C : Type} [DecidableEq C] {cpu0 : C} {s s' : Trap C} {e : TrapEvent C} {h : List (TrapEvent C)}
  {p : ProcId} {n : ℕ} {pc : TrapPc} {x y : Turn}

/-- The scheduler of some CPU switches to `p`. -/
def starts (p : ProcId) : TrapEvent C → Bool
  | (.kern (.scheduler _), .dispatch q) => q = p
  | _ => false

/-- A timer interrupt on the CPU that runs `p`. -/
def interrupts (p : ProcId) : TrapEvent C → Bool
  | (.timer _ (some q) _, _) => q = p
  | _ => false

/-- The number of timer interrupts of `p` since it was dispatched. -/
def trapsSince (p : ProcId) : List (TrapEvent C) → ℕ
  | [] => 0
  | e :: h => if starts p e then 0 else trapsSince p h + if interrupts p e then 1 else 0

/-- The count of a process that runs, against the number `n` of its interrupts since the dispatch. -/
def Counted (n : ℕ) (x : Turn) : TrapPc → Prop
  | .out | .recheck _ => x.curTimeslices.toNat = n + 1
  | .tick _ | .check _ | .count _ | .compare _ => x.curTimeslices.toNat = n
  | .punish _ | .yield _ => x.curTimeslices.toNat = n ∧ n = 2 ^ x.queue.toNat
  | .slice => x.curTimeslices.toNat = n ∧ n < 2 ^ x.queue.toNat
  | .exitTop | .exitEnd => True

/-- The process has yielded in the handler. -/
def TrapPc.preempted : TrapPc → Bool
  | .recheck _ => true
  | _ => false

/-- The process is about to yield in the handler. -/
def TrapPc.yields : TrapPc → Bool
  | .yield _ => true
  | _ => false

/-- The slice of a process: `back` says that it is on its way back to the scheduler. -/
structure Sliced (n : ℕ) (pc : TrapPc) (back : Prop) (x : Turn) : Prop where
  running : x.state = .running → (1 ≤ x.curTimeslices.toNat ∧ x.curTimeslices.toNat ≤ 2 ^ x.queue.toNat) ∧
    x.punish = pc.yields ∧ Counted n x pc
  waiting : x.state = .runnable ∧ ¬ back ∨ x.state = .embryo → x.curTimeslices = 0 ∧ x.punish = false
  pending : x.state = .runnable → back →
    (1 ≤ x.curTimeslices.toNat ∧ x.curTimeslices.toNat ≤ 2 ^ x.queue.toNat) ∧ x.punish = pc.preempted ∧
      (pc.preempted = true → x.curTimeslices.toNat = 2 ^ x.queue.toNat) ∧ (pc = .out → x.curTimeslices.toNat = n + 1)
  sleeping : x.state = .sleeping → x.punish = false

/-! ### One step -/

theorem timeslice_sle {q : ℤ} (hq : 0 ≤ q ∧ q < NUM_QUEUES) {w : Word} (hw : w.toNat ≤ 2 ^ q.toNat) :
    (timeslice q).sle w = true ↔ 2 ^ q.toNat ≤ w.toNat := by
  obtain ⟨i, rfl⟩ : ∃ i : Fin NUM_QUEUES, q = (i.val : ℤ) := ⟨⟨q.toNat, by omega⟩, by simp [hq.1]⟩
  have hslice : ∀ i : Fin NUM_QUEUES, (timeslice (i.val : ℤ)).toInt = ((2 ^ i.val : ℕ) : ℤ) ∧ 2 ^ i.val ≤ 16 := by
    decide
  have hpow := (hslice i).2
  rw [Int.toNat_natCast] at hw ⊢
  rw [BitVec.sle_iff_toInt_le, (hslice i).1, BitVec.toInt_eq_toNat_of_lt (by omega)]
  omega

theorem starts_runnable (hr : (traps cpu0).Runs h s) (hst : (traps cpu0).Step s e s')
    (he : starts p e = true) : (s.kern.proc p).state = .runnable := by
  obtain ⟨h', hk⟩ := kern_runs hr
  obtain ⟨a, o⟩ := e
  unfold starts at he
  split at he
  · rename_i c q heq
    cases heq
    obtain rfl : q = p := by simpa using he
    rcases kern_step hst with ⟨a, ha, -, hstep, -⟩ | ⟨_, _, _, ha, -⟩ | ⟨_, _, ha, -⟩
    · cases ha
      exact scheduler_runnable hk.sound hstep
    · cases ha
    · cases ha
  · cases he

/-- A process that runs is not dispatched. -/
theorem trapsSince_running (hr : (traps cpu0).Runs h s) (hst : (traps cpu0).Step s e s')
    (hrun : (s.kern.proc p).state = .running) :
    trapsSince p (e :: h) = trapsSince p h + if interrupts p e then 1 else 0 := by
  rw [trapsSince, if_neg]
  intro he
  rw [starts_runnable hr hst he] at hrun
  cases hrun

omit [DecidableEq C] in
theorem interrupts_kern {a : Act C} (he : e.1 = .kern a) : interrupts p e = false := by
  obtain ⟨a, o⟩ := e
  obtain rfl : a = .kern _ := he
  rfl

omit [DecidableEq C] in
theorem interrupts_test {c : C} {q : ProcId} (he : e.1 = .test c q) : interrupts p e = false := by
  obtain ⟨a, o⟩ := e
  obtain rfl : a = .test _ _ := he
  rfl

/-- The process is on its way back to the scheduler of some CPU. -/
def Trap.returns (s : Trap C) (p : ProcId) : Prop := ∃ c, s.kern.lock = .back c p

/-- No process is dispatched while the lock is handed over. -/
theorem not_returns_of_starts (hst : (traps cpu0).Step s e s') (he : starts p e = true) : ¬ s.returns p := by
  rintro ⟨c', hl⟩
  obtain ⟨a, o⟩ := e
  unfold starts at he
  split at he
  · rename_i c q heq
    cases heq
    have hen := (step_iff.1 (kern_step_of hst rfl)).1
    simp [enabled, hl] at hen
  · cases he

theorem Sliced.rest {back : Prop} (h1 : x.state ≠ .running) (h2 : x.state ≠ .runnable) (h3 : x.state ≠ .embryo)
    (h4 : x.state = .sleeping → x.punish = false) : Sliced n pc back x :=
  ⟨fun h => absurd h h1, fun h => h.elim (fun h => absurd h.1 h2) fun h => absurd h h3,
    fun h => absurd h h2, h4⟩

omit [DecidableEq C] in
/-- What a step that does not concern the handler does to a slice. -/
theorem Sliced.turnStep {a : Act C} {back back' : Prop} {o : Out} {n' : ℕ}
    (hs : Sliced n pc back x) (hturn : TurnStep .mlfq s.kern (a, o) p x y) (hnb : ¬ back)
    (halloc : allocates p (a, o) = false) (hl : ∀ c, s.kern.lock ≠ .back c p)
    (hown : ∀ c b, a = .proc c p b → pc.admits b = true ∧ pc.next = pc)
    (hin : pc.inside = true → x.state = .running) (hres : ∀ c, s.kern.lock = .resumed c p → pc.inside = false)
    (hback : back' → x.state = .running) (hyield : ∀ c, a = .proc c p .yield → back')
    (hn : x.state = .running → n' = n)
    (hstart : ∀ c, a = .scheduler c ∨ a = .back c → o = .dispatch p → n' = 0) : Sliced n' pc back' y := by
  have hout : ∀ c b, a = .proc c p b → pc.inside = false := fun c b h =>
    TrapPc.not_inside_of_next (hown c b h).1 (hown c b h).2
  have hyields : pc.inside = false → pc.yields = false := by cases pc <;> simp [TrapPc.inside, TrapPc.yields]
  -- only a process that ran is on its way back afterwards
  have hstays : ∀ {st}, x.state = st → st ≠ .running → ¬ back' := by
    rintro st rfl h hb
    exact h (hback hb)
  cases hturn with
  | same =>
    exact ⟨fun h => hn h ▸ hs.running h, fun h => hs.waiting (h.imp (fun h => ⟨h.1, hnb⟩) id),
      fun h hb => absurd hb (hstays h (by simp)), hs.sleeping⟩
  | wake hx =>
    exact ⟨nofun, fun _ => ⟨rfl, hs.sleeping hx⟩, fun _ hb => absurd hb (hstays hx (by simp)), nofun⟩
  | alloc h => simp [halloc] at h
  | abandon hx | reap hx => exact .rest (by simp) (by simp) (by simp) (by simp)
  | activate hx =>
    exact ⟨nofun, fun _ => hs.waiting (.inr hx), fun _ hb => absurd hb (hstays hx (by simp)), nofun⟩
  | age _ _ hx _ =>
    have hw := hs.waiting (.inl ⟨hx, hnb⟩)
    refine ⟨fun h => ?_, fun _ => hw, fun _ hb => absurd hb (hstays hx (by simp)), fun _ => hw.2⟩
    have h : x.state = .running := h
    rw [hx] at h
    cases h
  | dispatch he ho hx i _ =>
    obtain ⟨hcur, hpun⟩ := hs.waiting (.inl ⟨hx, hnb⟩)
    have hinside : pc.inside = false := by
      by_contra h
      have := hin (by simpa using h)
      rw [hx] at this
      cases this
    have hone : (x.curTimeslices + 1).toNat = 1 := by
      rw [hcur]
      decide
    refine ⟨fun _ => ⟨⟨?_, ?_⟩, ?_, ?_⟩, by simp [Turn.dispatched], by simp [Turn.dispatched],
      by simp [Turn.dispatched]⟩
    · simp only [Turn.dispatched, if_true, hone]
      exact le_rfl
    · simp only [Turn.dispatched, if_true, hone]
      exact Nat.one_le_two_pow
    · rw [hyields hinside]
      exact hpun
    · rw [hstart _ he ho]
      cases pc <;> first | exact hone | trivial
  | requeue _ _ h => exact absurd h (hl _)
  | yield he hx =>
    have hp := hout _ _ he
    refine ⟨nofun, fun h => h.elim (fun h => absurd (hyield _ he) h.2) nofun, fun _ _ => ?_, nofun⟩
    have hpre : pc.preempted = false := by
      have hadm := (hown _ _ he).1
      cases pc <;> first | rfl | cases hadm
    obtain ⟨hbound, hpun, hcount⟩ := hs.running hx
    refine ⟨hbound, by rw [hpre, ← hyields hp]; exact hpun, fun h => absurd h (by simp [hpre]), ?_⟩
    rintro rfl
    rw [hn hx]
    exact hcount
  | sleep he hx =>
    have hp : pc.inside = false := by
      rcases he with ⟨_, he⟩ | ⟨_, he⟩ | ⟨-, hl⟩
      · exact hout _ _ he
      · exact hout _ _ he
      · exact hres _ hl
    refine .rest (by simp) (by simp) (by simp) fun _ => ?_
    exact (hs.running hx).2.1.trans (hyields hp)
  | exit he hx => exact .rest (by simp) (by simp) (by simp) (by simp)
  | setPriority he hx | incRuntime he hx =>
    obtain ⟨hbound, hpun, hcount⟩ := hs.running hx
    refine ⟨fun _ => ⟨hbound, hpun, hn hx ▸ ?_⟩, fun h => ?_, fun h => ?_, fun h => ?_⟩
    · cases pc <;> exact hcount
    · simp [hx] at h
    · simp [hx] at h
    · simp [hx] at h
  | incPinfoTicks _ he | punisher he | incTimeslice he =>
    -- these belong to the handler
    obtain ⟨hadm, hnext⟩ := hown _ _ he
    cases pc with
    | count | punish | yield | slice => cases hnext
    | _ => cases hadm

theorem Sliced.of_running {back : Prop} (hx : x.state = .running)
    (hbound : 1 ≤ x.curTimeslices.toNat ∧ x.curTimeslices.toNat ≤ 2 ^ x.queue.toNat)
    (hpun : x.punish = pc.yields) (hcount : Counted n x pc) : Sliced n pc back x := by
  refine ⟨fun _ => ⟨hbound, hpun, hcount⟩, fun h => ?_, fun h => ?_, fun h => ?_⟩
  all_goals simp [hx] at h

theorem Sliced.test {back back' : Prop} {q : Proc} (hs : Sliced n pc back q.turn) (hrun : q.state = .running)
    (hq : 0 ≤ q.queue ∧ q.queue < NUM_QUEUES) (htests : pc.tests = true) : Sliced n (pc.test q) back' q.turn := by
  obtain ⟨hbound, hpun, hcount⟩ := hs.running hrun
  cases pc with
  | check user =>
    simp only [TrapPc.test, hrun, if_true]
    split
    · exact .of_running hrun hbound hpun trivial
    · exact .of_running hrun hbound hpun hcount
  | compare user =>
    simp only [TrapPc.test]
    have hcount : q.curTimeslices.toNat = n := hcount
    have hle₂ : q.curTimeslices.toNat ≤ 2 ^ q.queue.toNat := hbound.2
    split
    · rename_i hle
      rw [timeslice_sle hq hle₂] at hle
      exact .of_running hrun hbound hpun ⟨hcount, hcount ▸ le_antisymm hbound.2 hle⟩
    · rename_i hlt
      rw [timeslice_sle hq hle₂] at hlt
      exact .of_running hrun hbound hpun ⟨hcount, hcount ▸ not_le.1 hlt⟩
  | recheck user =>
    simp only [TrapPc.test]
    split
    · exact .of_running hrun hbound hpun trivial
    · exact .of_running hrun hbound hpun hcount
  | _ => cases htests

/-- A process gets on its way back only if it was running. -/
theorem leaves_step {h' : List (Event C)} {c : C} (hk : Runs .mlfq h' s.kern) (hst : (traps cpu0).Step s e s')
    (hl' : s'.kern.lock = .back c p) (hl : s.kern.lock ≠ .back c p) : (s.kern.proc p).state = .running := by
  rcases kern_step hst with ⟨a, -, -, hstep, -⟩ | ⟨_, _, _, -, -, -, -, -, ⟨-, -, hstep⟩ | ⟨-, hsame⟩⟩ |
    ⟨_, _, -, -, -, -, hsame, -⟩
  · exact leaves_running hk.shape hstep hl' hl
  · exact leaves_running hk.shape hstep hl' hl
  · exact absurd (hsame ▸ hl') hl
  · exact absurd (hsame ▸ hl') hl

/-- It stays on its way back until the scheduler takes it. -/
theorem lock_step {h' : List (Event C)} {c : C} (hk : Runs .mlfq h' s.kern) (hst : (traps cpu0).Step s e s')
    (hl : s.kern.lock = .back c p) (he : e.1 ≠ .kern (.back c)) : s'.kern.lock = .back c p := by
  rcases kern_step hst with ⟨a, ha, -, hstep, -⟩ | ⟨_, _, _, -, -, -, -, -, ⟨-, -, hstep⟩ | ⟨-, hsame⟩⟩ |
    ⟨_, _, -, -, -, -, hsame, -⟩
  · exact (held_step hk hstep hl fun h => he (by rw [ha, ← h])).2
  · exact (held_step hk hstep hl nofun).2
  · rw [hsame, hl]
  · rw [hsame, hl]

/-- A process in the handler runs, and its interrupts are counted. -/
theorem Sliced.handler {back : Prop} {pc : TrapPc} {a : Act C}
    (hs : Sliced (trapsSince p h) (s.pc p) back (s.kern.proc p).turn) (hr : (traps cpu0).Runs h s)
    (hst : (traps cpu0).Step s e s') (he : e.1 = .kern a) (hp : s.pc p = pc) (hin : pc.inside = true) :
    trapsSince p (e :: h) = trapsSince p h ∧ (s.kern.proc p).state = .running ∧
      (1 ≤ (s.kern.proc p).curTimeslices.toNat ∧
        (s.kern.proc p).curTimeslices.toNat ≤ 2 ^ (s.kern.proc p).queue.toNat) ∧
      (s.kern.proc p).punish = pc.yields ∧ Counted (trapsSince p h) (s.kern.proc p).turn pc := by
  subst hp
  have hrun := (inside_runs hr).running p hin
  exact ⟨by rw [trapsSince_running hr hst hrun, interrupts_kern he]; rfl, hrun, hs.running hrun⟩

/-- The handler adds to a slice that is not used up. -/
theorem Sliced.slice {back : Prop} {q : Proc} (hrun : q.state = .running)
    (hq : 0 ≤ q.queue ∧ q.queue < NUM_QUEUES) (hpun : q.punish = false) (hcount : Counted n q.turn .slice) :
    Sliced n .out back { q.turn with curTimeslices := q.curTimeslices + 1 } := by
  obtain ⟨hn, hlt⟩ := hcount
  have hpow : 2 ^ q.queue.toNat ≤ 2 ^ 4 := by
    refine Nat.pow_le_pow_right (by decide) ?_
    have hq4 : q.queue < 5 := hq.2
    omega
  have hlt : n < 2 ^ q.queue.toNat := hlt
  have hsucc : (q.curTimeslices + 1).toNat = n + 1 := by
    rw [BitVec.toNat_add, show q.curTimeslices.toNat = n from hn, show (1 : Word).toNat = 1 from rfl]
    exact Nat.mod_eq_of_lt (by omega)
  refine .of_running hrun ⟨?_, ?_⟩ hpun hsucc
  · simp only [hsucc]
    omega
  · simp only [hsucc]
    exact hlt

/-- **A step keeps the slices.** -/
theorem Sliced.step (hs : Sliced (trapsSince p h) (s.pc p) (s.returns p) (s.kern.proc p).turn)
    (hr : (traps cpu0).Runs h s) (hst : (traps cpu0).Step s e s') :
    Sliced (trapsSince p (e :: h)) (s'.pc p) (s'.returns p) (s'.kern.proc p).turn := by
  obtain ⟨h', hk⟩ := kern_runs hr
  have hin := inside_runs hr
  have hq : 0 ≤ (s.kern.proc p).queue ∧ (s.kern.proc p).queue < NUM_QUEUES := by
    obtain ⟨qs, hq⟩ := hk.sound.queued
    exact hq.queue p
  have hmove := handled_step hr hst p
  generalize hy : (s'.kern.proc p).turn = y at hmove
  generalize hpc : s'.pc p = pc at hmove
  cases hmove with
  | same hback htimer =>
    have hint : interrupts p e = false := by
      unfold interrupts
      split
      · rename_i c q user o
        rw [decide_eq_false_iff_not]
        rintro rfl
        exact htimer c user rfl
      · rfl
    have hret : s.returns p → s'.returns p := fun ⟨c, hl⟩ => ⟨c, lock_step hk hst hl (hback c hl)⟩
    refine ⟨fun hrun => ?_, fun h => hs.waiting (h.imp (fun h => ⟨h.1, fun h' => h.2 (hret h')⟩) id),
      fun h hb => ?_, hs.sleeping⟩
    · rw [trapsSince_running hr hst hrun, hint]
      exact hs.running hrun
    · have hb : s.returns p := by
        by_contra hnot
        obtain ⟨c, hl⟩ := hb
        have := leaves_step hk hst hl fun h => hnot ⟨c, h⟩
        rw [turn_state, this] at h
        cases h
      rw [trapsSince, if_neg fun he => not_returns_of_starts hst he hb, hint]
      exact hs.pending h hb
  | kern he hturn halloc hback hown =>
    refine hs.turnStep hturn (fun ⟨c, hl⟩ => hback c hl) halloc hback hown (hin.running p)
      (fun c hl => hin.resumed c p hl) ?_ ?_ ?_ ?_
    · rintro ⟨c, hl⟩
      exact leaves_running hk.shape (kern_step_of hst he) hl (hback c)
    · rintro c rfl
      exact ⟨c, (hands_step (kern_step_of hst he)).lock⟩
    · intro hrun
      rw [trapsSince_running hr hst hrun, interrupts_kern he]
      rfl
    · rintro c (rfl | rfl) ho
      · obtain ⟨a, o⟩ := e
        obtain rfl : a = .kern (.scheduler c) := he
        obtain rfl : o = .dispatch p := ho
        simp [trapsSince, starts]
      · obtain ⟨p', hl'⟩ := enabled_back (step_iff.1 (kern_step_of hst he)).1
        rw [(back_requeued (kern_step_of hst he) rfl hl').2.2] at ho
        cases ho
  | alloc he ha hx => exact ⟨nofun, fun _ => ⟨rfl, rfl⟩, nofun, nofun⟩
  | back he hl =>
    have hfree := (back_requeued (kern_step_of hst he) rfl hl).2.1
    split
    · refine ⟨fun h => ?_, fun _ => ⟨rfl, rfl⟩, fun _ ⟨c, h⟩ => ?_, fun _ => rfl⟩
      · rename_i hrun
        have h : (s.kern.proc p).turn.state = .running := h
        rw [hrun] at h
        cases h
      · rw [hfree] at h
        cases h
    · rename_i hrun
      exact .rest (hk.placed.back _ p hl) hrun (Runs.back_embryo hk _ p hl) hs.sleeping
  | arrive he hcpu hheld hout =>
    have hrun := hk.shape.running_of_not_held hcpu hheld
    obtain ⟨hbound, hpun, hcnt⟩ := hs.running hrun
    rw [hout] at hpun hcnt
    have hn : trapsSince p (e :: h) = trapsSince p h + 1 := by
      obtain ⟨a, o⟩ := e
      obtain rfl : a = .timer _ (some p) _ := he
      rw [trapsSince_running hr hst hrun]
      simp [interrupts]
    rw [hn]
    split
    · exact .of_running hrun hbound hpun hcnt
    · exact .of_running hrun hbound hpun hcnt
  | ticked he hp =>
    obtain ⟨hn, hrun, hbound, hpun, hcnt⟩ := hs.handler hr hst he hp rfl
    exact hn ▸ .of_running hrun hbound hpun hcnt
  | test he hcpu hrun htests =>
    rw [trapsSince_running hr hst hrun, interrupts_test he]
    exact hs.test hrun hq htests
  | count i he hp _ =>
    obtain ⟨hn, hrun, hbound, hpun, hcnt⟩ := hs.handler hr hst he hp rfl
    exact hn ▸ .of_running hrun hbound hpun hcnt
  | punish he hp =>
    obtain ⟨hn, hrun, hbound, -, hcnt⟩ := hs.handler hr hst he hp rfl
    exact hn ▸ .of_running hrun hbound rfl hcnt
  | slice he hp =>
    obtain ⟨hn, hrun, -, hpun, hcnt⟩ := hs.handler hr hst he hp rfl
    exact hn ▸ .slice hrun hq hpun hcnt
  | preempt he hp hrun =>
    obtain ⟨hbound, hpun, hcnt⟩ := hs.running hrun
    have hret : s'.returns p := ⟨_, (hands_step (kern_step_of hst he)).lock⟩
    rw [hp] at hpun hcnt
    exact ⟨nofun, fun h => h.elim (fun h => absurd hret h.2) nofun,
      fun _ _ => ⟨hbound, hpun, fun _ => hcnt.1.trans hcnt.2, nofun⟩, nofun⟩

theorem sliced_runs (hr : (traps cpu0).Runs h s) (p : ProcId) :
    Sliced (trapsSince p h) (s.pc p) (s.returns p) (s.kern.proc p).turn := by
  refine hr.invariant (P := fun h s => Sliced (trapsSince p h) (s.pc p) (s.returns p) (s.kern.proc p).turn)
    (.rest nofun nofun nofun nofun) ?_
  intro h s e s' hr hs hst
  exact hs.step hr hst

/-! ### Demotion -/

/-- The scheduler puts the process that comes back at the end of a queue. -/
theorem back_tail {k k' : Kern C} {c : C} {o : Out} {qs : Fin NUM_QUEUES → List ProcId}
    (hst : Step .mlfq k (.back c, o) k') (hl : k.lock = .back c p) (hq : Ready k (some p) qs)
    (hrun : (k.proc p).state = .runnable) : Ready k' none (snoc qs (slot (backTo (k.proc p))) p) := by
  have hx := (step_iff.1 hst).2
  simp only [exec, hl, back] at hx
  have hq' : Ready { k with cpu := Function.update k.cpu c none } (some p) qs := hq.of_eq rfl rfl rfl
  obtain ⟨k₁, hk₁, hready⟩ := hq'.requeue
  simp only [hl] at hk₁
  rw [hk₁] at hx
  cases hx
  rw [if_pos hrun] at hready
  exact hready.of_eq rfl rfl rfl

/-- The queue that a process comes back to: the next one if it was preempted. -/
def returnsTo (s : Trap C) (p : ProcId) : ℤ :=
  if (s.pc p).preempted then min ((s.kern.proc p).queue + 1) (NUM_QUEUES - 1) else (s.kern.proc p).queue

theorem backTo_eq (hr : (traps cpu0).Runs h s) (hret : s.returns p) (hrun : (s.kern.proc p).state = .runnable) :
    backTo (s.kern.proc p) = returnsTo s p := by
  obtain ⟨h', hk⟩ := kern_runs hr
  obtain ⟨qs, hq⟩ := hk.sound.queued
  have hlt : (s.kern.proc p).queue < 5 := (hq.queue p).2
  have hpun : (s.kern.proc p).punish = (s.pc p).preempted := ((sliced_runs hr p).pending hrun hret).2.1
  have h5 : (NUM_QUEUES : ℤ) = 5 := rfl
  unfold backTo returnsTo
  rw [hpun, h5]
  cases (s.pc p).preempted with
  | false => rfl
  | true =>
    simp only [true_and, if_true]
    split <;> omega

/-- How the queue of a process changes. -/
theorem queue_step (hr : (traps cpu0).Runs h s) (hst : (traps cpu0).Step s e s') (p : ProcId) :
    (s'.kern.proc p).queue = (s.kern.proc p).queue ∨
    (∃ a, e.1 = .kern a ∧ allocates p (a, e.2) = true ∧ (s'.kern.proc p).queue = 0) ∨
    (∃ c, e.1 = .kern (.scheduler c) ∧ (s.kern.proc p).state = .runnable ∧ s.kern.isOld p = true ∧
      (s'.kern.proc p).queue = (s.kern.proc p).queue - 1) ∨
    ∃ c, e.1 = .kern (.back c) ∧ s.kern.lock = .back c p ∧ (s.kern.proc p).state = .runnable ∧
      (s.pc p).preempted = true ∧ (s'.kern.proc p).queue = returnsTo s p := by
  have hmove := handled_step hr hst p
  rw [← turn_queue, ← turn_queue, ← turn_state]
  generalize hy : (s'.kern.proc p).turn = y at hmove
  generalize s'.pc p = pc at hmove
  cases hmove with
  | kern he hturn halloc hback hown =>
    cases hturn with
    | alloc h => simp [halloc] at h
    | age _ hs hx hold => exact .inr (.inr (.inl ⟨_, by rw [he]; exact congrArg _ hs, hx, hold, rfl⟩))
    | dispatch hs ho hx i hi =>
      rcases hi with rfl | ⟨-, hold, rfl⟩
      · exact .inl rfl
      · rcases hs with hs | hs
        · exact .inr (.inr (.inl ⟨_, by rw [he]; exact congrArg _ hs, hx, hold, rfl⟩))
        · obtain rfl : _ = Act.back _ := hs
          obtain ⟨p', hl'⟩ := enabled_back (step_iff.1 (kern_step_of hst he)).1
          rw [(back_requeued (kern_step_of hst he) rfl hl').2.2] at ho
          cases ho
    | requeue _ _ h => exact absurd h (hback _)
    | _ => exact .inl rfl
  | alloc he ha => exact .inr (.inl ⟨_, he, ha, rfl⟩)
  | back he hl =>
    split
    · rename_i hrun
      have hto := backTo_eq hr ⟨_, hl⟩ hrun
      cases hp : (s.pc p).preempted with
      | true =>
        refine .inr (.inr (.inr ⟨_, he, hl, hrun, rfl, ?_⟩))
        exact hto
      | false =>
        left
        have hpun : (s.kern.proc p).punish = false := by
          rw [← hp]
          exact ((sliced_runs hr p).pending hrun ⟨_, hl⟩).2.1
        simp [Turn.requeued, hpun]
    · exact .inl rfl
  | _ => exact .inl rfl

/-! ### Every run -/

/-- **Time slices and demotion.** In every run of the multi-level feedback build, on any CPUs:

* a process that runs has `1 ≤ cur_timeslices ≤ 2 ^ q`; outside the timer handler the count is the
  number of its timer interrupts since the dispatch and one more, so that none of these was the
  `2 ^ q`-th, and the one in whose handler it is about to yield is;
* a process that is runnable, and not on its way back to the scheduler with the lock held, has
  `cur_timeslices = 0` and `punish = 0`, and is on the list of its queue;
* one that is on its way back still has the count of the slice that it has used, and `punish` is set
  exactly if the handler has preempted it, which is with the whole slice used;
* the handler adds to the count only before the `2 ^ q`-th interrupt, and yields only at it;
* a process that comes back runnable goes to the end of the next queue if it was preempted (of the last
  one if there is no next), and of its own queue otherwise, with a fresh slice;
* its queue changes in no other way than by this demotion or by ageing, until the slot is allocated
  anew. -/
theorem mlfq_slices (hr : (traps cpu0).Runs h s) :
    (∀ p, (s.kern.proc p).state = .running →
      (1 ≤ (s.kern.proc p).curTimeslices.toNat ∧
        (s.kern.proc p).curTimeslices.toNat ≤ 2 ^ (s.kern.proc p).queue.toNat) ∧
      (s.pc p = .out → (s.kern.proc p).curTimeslices.toNat = trapsSince p h + 1) ∧
      ((s.pc p).yields = true → trapsSince p h = 2 ^ (s.kern.proc p).queue.toNat)) ∧
    (∃ qs, Ready s.kern s.kern.lock.pending qs ∧
      ∀ p, (s.kern.proc p).state = .runnable → ¬ s.returns p →
        (s.kern.proc p).curTimeslices = 0 ∧ (s.kern.proc p).punish = false ∧
          p ∈ qs (slot (s.kern.proc p).queue)) ∧
    (∀ p, (s.kern.proc p).state = .runnable → s.returns p →
      (1 ≤ (s.kern.proc p).curTimeslices.toNat ∧
        (s.kern.proc p).curTimeslices.toNat ≤ 2 ^ (s.kern.proc p).queue.toNat) ∧
      (s.kern.proc p).punish = (s.pc p).preempted ∧
      ((s.pc p).preempted = true → (s.kern.proc p).curTimeslices.toNat = 2 ^ (s.kern.proc p).queue.toNat) ∧
      (s.pc p = .out → (s.kern.proc p).curTimeslices.toNat = trapsSince p h + 1)) ∧
    ∀ e s', (traps cpu0).Step s e s' → ∀ p,
      (∀ c, e.1 = .kern (.proc c p .incTimeslice) →
        trapsSince p h < 2 ^ (s.kern.proc p).queue.toNat) ∧
      (∀ c, e.1 = .kern (.proc c p .yield) → (s.pc p).yields = true →
        trapsSince p h = 2 ^ (s.kern.proc p).queue.toNat ∧ (s'.pc p).preempted = true ∧ s'.returns p) ∧
      (∀ c, e.1 = .kern (.back c) → s.kern.lock = .back c p → (s.kern.proc p).state = .runnable →
        (∃ qs, Ready s.kern (some p) qs ∧ Ready s'.kern none (snoc qs (slot (returnsTo s p)) p)) ∧
        (s'.kern.proc p).queue = returnsTo s p ∧ (s'.kern.proc p).curTimeslices = 0 ∧
        (s'.kern.proc p).punish = false) ∧
      ((s'.kern.proc p).queue = (s.kern.proc p).queue ∨
        (∃ a, e.1 = .kern a ∧ allocates p (a, e.2) = true ∧ (s'.kern.proc p).queue = 0) ∨
        (∃ c, e.1 = .kern (.scheduler c) ∧ (s.kern.proc p).state = .runnable ∧ s.kern.isOld p = true ∧
          (s'.kern.proc p).queue = (s.kern.proc p).queue - 1) ∨
        ∃ c, e.1 = .kern (.back c) ∧ s.kern.lock = .back c p ∧ (s.kern.proc p).state = .runnable ∧
          (s.pc p).preempted = true ∧ (s'.kern.proc p).queue = returnsTo s p) := by
  obtain ⟨h', hk⟩ := kern_runs hr
  have hsliced := sliced_runs hr
  obtain ⟨qs, hq⟩ := hk.sound.queued
  refine ⟨fun p hrun => ?_, ⟨qs, hq, fun p hrun hret => ?_⟩, fun p hrun hret => (hsliced p).pending hrun hret,
    fun e s' hst p => ⟨?_, ?_, ?_, queue_step hr hst p⟩⟩
  · obtain ⟨hbound, -, hcount⟩ := (hsliced p).running hrun
    refine ⟨hbound, fun hp => ?_, fun hp => ?_⟩
    · rw [hp] at hcount
      exact hcount
    · cases hpc : s.pc p with
      | yield user =>
        rw [hpc] at hcount
        exact hcount.2
      | _ =>
        rw [hpc] at hp
        cases hp
  · obtain ⟨hcur, hpun⟩ := (hsliced p).waiting (.inl ⟨hrun, hret⟩)
    refine ⟨hcur, hpun, (hq.mem p _).2 ⟨hrun, ?_, fun hp => hret ?_⟩⟩
    · rw [slot_eq (hq.queue p)]
      simp [(hq.queue p).1]
    · cases hl : s.kern.lock with
      | back c p' =>
        rw [hl] at hp
        cases hp
        exact ⟨c, hl⟩
      | free | resumed =>
        rw [hl] at hp
        cases hp
  · intro c he
    have hadm := (kern_proc hst he).1
    cases hp : s.pc p with
    | slice =>
      obtain ⟨-, -, -, -, -, hlt⟩ := (hsliced p).handler hr hst he hp rfl
      exact hlt
    | count | punish | yield =>
      rw [hp] at hadm
      simp [TrapPc.admits] at hadm
    | _ =>
      rw [hp] at hadm
      cases hadm
  · intro c he hy
    cases hp : s.pc p with
    | yield user =>
      obtain ⟨-, -, -, -, -, hfull⟩ := (hsliced p).handler hr hst he hp rfl
      refine ⟨hfull, ?_, ⟨c, (hands_step (kern_step_of hst he)).lock⟩⟩
      rw [(kern_proc hst he).2]
      simp [Trap.pcAfter, allocates, hp, TrapPc.next, TrapPc.preempted]
    | _ =>
      rw [hp] at hy
      cases hy
  · intro c he hl hrun
    have hto := backTo_eq hr ⟨c, hl⟩ hrun
    have hturn := (back_requeued (kern_step_of hst he) rfl hl).1
    rw [if_pos hrun] at hturn
    rw [hl] at hq
    refine ⟨⟨qs, hq, hto ▸ back_tail (kern_step_of hst he) hl hq hrun⟩, ?_, ?_, ?_⟩
    · exact (congrArg Turn.queue hturn).trans hto
    · exact congrArg Turn.curTimeslices hturn
    · exact congrArg Turn.punish hturn

/-- The first process uses up its slice of queue 0, which is one tick, and yields. -/
def sliceEvents : List (TrapEvent Unit) :=
  [(.kern .userinitAlloc, .alloc 0), (.kern .userinit, .done), (.kern (.scheduler ()), .dispatch 0),
    (.kern (.resume ()), .done), (.timer () (some 0) true, .done), (.kern .incRuntime, .done),
    (.kern .wakeupTicks, .done), (.test () 0, .done), (.kern (.proc () 0 .incPinfoTicks), .done),
    (.test () 0, .done), (.kern (.proc () 0 .punisher), .done), (.kern (.proc () 0 .yield), .done)]

/-- It comes back to queue 1. -/
theorem mlfq_slices_demote :
    ∃ s s' : Trap Unit, (traps ()).Runs sliceEvents.reverse s ∧
      (traps ()).Step s (.kern (.back ()), .done) s' ∧ (s'.kern.proc 0).queue = 1 ∧
      (s'.kern.proc 0).curTimeslices = 0 := by
  obtain ⟨s, hr, hs⟩ := (traps ()).exists_runs sliceEvents (fun s => s.kern.lock = .back () 0 ∧
    (s.kern.proc 0).state = .runnable ∧ returnsTo s 0 = 1 ∧
      ((traps ()).step? s (.kern (.back ()), .done)).isSome) (by decide +kernel)
  simp only [decide_eq_true_eq] at hs
  obtain ⟨hl, hrun, hto, hsome⟩ := hs
  obtain ⟨s', hs'⟩ := Option.isSome_iff_exists.1 hsome
  have hst := Machine.step?_step hs'
  obtain ⟨-, hq, hcur, -⟩ := ((mlfq_slices hr).2.2.2 _ s' hst 0).2.2.1 () rfl hl hrun
  exact ⟨s, s', hr, hst, hq.trans hto, hcur⟩

/-- Between its `yield` and the scheduler it is runnable with its slice used up and `punish` set. -/
theorem mlfq_runnable_punished :
    ∃ s : Trap Unit, (traps ()).Runs sliceEvents.reverse s ∧ (s.kern.proc 0).state = .runnable ∧
      (s.kern.proc 0).curTimeslices = 1 ∧ (s.kern.proc 0).punish = true := by
  obtain ⟨s, hr, hs⟩ := (traps ()).exists_runs sliceEvents (fun s => (s.kern.proc 0).state = .runnable ∧
    (s.kern.proc 0).curTimeslices = 1 ∧ (s.kern.proc 0).punish = true) (by decide +kernel)
  simp only [decide_eq_true_eq] at hs
  exact ⟨s, hr, hs⟩

end Xv6.Process
