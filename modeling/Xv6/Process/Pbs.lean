import Xv6.Process.Turn
import Xv6.Lib.Scan
import Mathlib.Data.Prod.Lex

/-!
# Priority based scheduling

The scheduler loop of the priority based build keeps the runnable process with the least priority
number, and among those the one with the fewest time slices. Priorities stay between 0 and 100, so
the loop, which starts from the bound 101, finds a process whenever one is runnable. On one CPU the
best processes take turns: their counts of time slices differ by at most one, until the counter, a
signed word, overflows.
-/

namespace Xv6.Process

open Lib

variable {C : Type} [DecidableEq C] {b : Sched} {k k' : Kern C} {e : Event C} {p q : ProcId}
  {h : List (Event C)}

/-! ### What the loop picks -/

/-- The key by which the loop orders the processes. -/
def pbsKey (p : Proc) : ℤ ×ₗ ℤ := toLex (p.priority, p.timeslices.toInt)

omit [DecidableEq C] in
/-- **The pass of the loop**: it picks a runnable process with the least key, unless none is below
the bound. -/
theorem pickPBS_spec (k : Kern C) (t : Word) :
    (pickPBS k t = none ∧
      ∀ p, (k.proc p).state = .runnable → toLex (101, (t + 100).toInt) ≤ pbsKey (k.proc p)) ∨
    ∃ p, pickPBS k t = some p ∧ (k.proc p).state = .runnable ∧
      ∀ q, (k.proc q).state = .runnable → pbsKey (k.proc p) ≤ pbsKey (k.proc q) := by
  let g : ℤ × Word × Option ProcId → ProcId → ℤ × Word × Option ProcId := fun m p =>
    if (k.proc p).state ≠ .runnable then m
    else if (k.proc p).priority < m.1 then ((k.proc p).priority, (k.proc p).timeslices, some p)
    else if (k.proc p).priority = m.1 ∧ (k.proc p).timeslices.slt m.2.1 then
      (m.1, (k.proc p).timeslices, some p)
    else m
  have hpass := foldl_least g (fun m => m.2.2) (fun m => (toLex (m.1, m.2.1.toInt) : ℤ ×ₗ ℤ))
    (fun p => (k.proc p).state = .runnable) (fun p => pbsKey (k.proc p))
    (fun m p hp hlt => by
      simp only [pbsKey, Prod.Lex.toLex_lt_toLex] at hlt
      rcases hlt with hlt | ⟨heq, hlt⟩
      · simp [g, hp, hlt, pbsKey]
      · simp [g, hp, heq, hlt, BitVec.slt_iff_toInt_lt, pbsKey])
    (fun m p hkeep => by
      by_cases hp : (k.proc p).state = .runnable
      · have hkeep := hkeep hp
        simp only [pbsKey, Prod.Lex.toLex_lt_toLex, not_or, not_and] at hkeep
        have hslt : ¬ ((k.proc p).priority = m.1 ∧ (k.proc p).timeslices.slt m.2.1 = true) := by
          rintro ⟨heq, hlt⟩
          exact hkeep.2 heq (BitVec.slt_iff_toInt_lt.1 hlt)
        simp only [g, hp, ne_eq, not_true_eq_false, if_false, if_neg hkeep.1, if_neg hslt]
      · simp [g, hp])
    (List.finRange NPROC) (m := (101, t + 100, none)) rfl
  rcases hpass with ⟨hnone, hall⟩ | ⟨p, -, hsome, hp, -, hall⟩
  · exact .inl ⟨hnone, fun q hq => hall q (List.mem_finRange q) hq⟩
  · exact .inr ⟨p, hsome, hp, fun q hq => hall q (List.mem_finRange q) hq⟩

/-! ### Priorities -/

/-- Every priority is between 0 and 100. -/
def Ranked (k : Kern C) : Prop := ∀ p, 0 ≤ (k.proc p).priority ∧ (k.proc p).priority ≤ 100

omit [DecidableEq C] in
theorem TurnStep.priority {x y : Turn} (h : TurnStep b k e q x y)
    (hx : 0 ≤ x.priority ∧ x.priority ≤ 100) : 0 ≤ y.priority ∧ y.priority ≤ 100 := by
  cases h with
  | alloc => exact ⟨by decide, by decide⟩
  | setPriority _ _ h0 h100 => exact ⟨h0, h100⟩
  | _ => exact hx

theorem Runs.ranked (hr : Runs b h k) : Ranked k := by
  refine hr.invariant (P := fun _ k => Ranked k) (fun p => ⟨le_rfl, show (0 : ℤ) ≤ 100 by decide⟩) ?_
  intro h k e k' hr hk hst p
  exact (Runs.turn_step hr hst p).priority (hk p)

/-- **A pass of the scheduler** switches to a process whenever one is runnable, and to one with the
least key. -/
theorem pbs_pass (hk : Ranked k) {c : C} {o : Out} (hst : Step .pbs k (.scheduler c, o) k') :
    ((∃ p, (k.proc p).state = .runnable) → ∃ p, o = .dispatch p) ∧
      ∀ p, o = .dispatch p → (k.proc p).state = .runnable ∧
        ∀ q, (k.proc q).state = .runnable → pbsKey (k.proc p) ≤ pbsKey (k.proc q) := by
  have hx := (step_iff.1 hst).2
  simp only [exec, scheduler] at hx
  rcases pickPBS_spec { k with seen := Function.update k.seen c none } ((k.seen c).getD 0) with
    ⟨hnone, hall⟩ | ⟨p, hsome, hp, hall⟩
  · rw [hnone] at hx
    cases hx
    refine ⟨?_, fun p hp => by cases hp⟩
    rintro ⟨p, hp⟩
    -- no priority reaches the bound
    have hle := hall p hp
    have h100 := (hk p).2
    simp only [pbsKey, Prod.Lex.toLex_le_toLex] at hle
    omega
  · rw [hsome] at hx
    cases hx
    refine ⟨fun _ => ⟨p, rfl⟩, fun p' hp' => ?_⟩
    cases hp'
    exact ⟨hp, hall⟩

/-! ### Taking turns -/

/-- The processes of `S` are runnable or running, and no other process that is runnable is as good
as the priority `π`. -/
structure Peers (S : Set ProcId) (π : ℤ) (k : Kern C) : Prop where
  state : ∀ p ∈ S, (k.proc p).state = .runnable ∨ (k.proc p).state = .running
  best : ∀ q ∉ S, (k.proc q).state = .runnable → π < (k.proc q).priority

/-- A step between two states in which the processes of `S` are peers, and in which none of them
changes its priority. -/
structure PeerStep (S : Set ProcId) (π : ℤ) (k : Kern C) (e : Event C) (k' : Kern C) : Prop where
  step : Step .pbs k e k'
  before : Peers S π k
  after : Peers S π k'
  priority : ∀ p ∈ S, ∀ c n, e.1 ≠ .proc c p (.setPriority n)

/-- No process of `S` is dispatched with a counter that would overflow. -/
def NoOverflow (S : Set ProcId) (k : Kern C) (e : Event C) : Prop :=
  ∀ p ∈ S, e.2 = .dispatch p → (k.proc p).timeslices.toInt < 2 ^ 31 - 1

/-- The processes of `S` have the priority `π`, and each has had `m` or `m + 1` time slices. -/
structure Level (S : Set ProcId) (π m : ℤ) (k : Kern C) : Prop where
  priority : ∀ p ∈ S, (k.proc p).priority = π
  timeslices : ∀ p ∈ S, (k.proc p).timeslices.toInt = m ∨ (k.proc p).timeslices.toInt = m + 1

theorem word_toInt_succ {x : Word} (h : x.toInt < 2 ^ 31 - 1) : (x + 1).toInt = x.toInt + 1 := by
  have h1 : (1 : Word).toInt = 1 := by decide
  have hle := BitVec.le_toInt x
  rw [BitVec.toInt_add, h1]
  exact Int.bmod_eq_of_le (by omega) (by omega)

/-- On one CPU, everybody who is runnable or running is runnable when a scheduler looks. -/
theorem Placed.runnable_of_scheduler (hp : Placed k) (hone : ∀ c c' : C, c = c') {c : C}
    (hen : enabled b k (.scheduler c) = true) (hs : (k.proc p).state = .runnable ∨ (k.proc p).state = .running) :
    (k.proc p).state = .runnable := by
  rcases hs with hs | hs
  · exact hs
  · obtain ⟨c', hc'⟩ := hp.cpu p hs
    obtain rfl := hone c c'
    rw [(enabled_scheduler hen).1] at hc'
    cases hc'

/-- What a step does to the counter and the priority of a peer. -/
theorem PeerStep.peer {S : Set ProcId} {π : ℤ} (hr : Runs .pbs h k) (hst : PeerStep S π k e k')
    (hp : p ∈ S) : (k'.proc p).priority = (k.proc p).priority ∧
      ((k'.proc p).timeslices = (k.proc p).timeslices ∨ (∃ c, e = (.scheduler c, .dispatch p)) ∧
        (k'.proc p).timeslices = (k.proc p).timeslices + 1) := by
  have hturn := Runs.turn_step hr hst.step p
  generalize hy : (k'.proc p).turn = y at hturn
  rw [← turn_priority, ← turn_timeslices, ← turn_timeslices, ← turn_priority, hy]
  cases hturn with
  | alloc _ hx =>
    rcases hst.before.state p hp with hs | hs <;> simp [hs] at hx
  | setPriority he => exact absurd he (hst.priority p hp _ _)
  | dispatch he ho _ i _ =>
    refine ⟨rfl, .inr ⟨?_, rfl⟩⟩
    obtain ⟨a, o⟩ := e
    obtain rfl : o = .dispatch p := ho
    rcases he with he | he
    · exact ⟨_, by rw [show a = _ from he]⟩
    · -- only the round-robin loop goes on after a switch
      obtain rfl : a = .back _ := he
      have hx := (step_iff.1 hst.step).2
      simp only [exec] at hx
      split at hx
      · cases hx
      · cases hx
  | _ => exact ⟨rfl, .inl rfl⟩

/-- **One step keeps the level**: the process that is dispatched has the fewest time slices. -/
theorem Level.step {S : Set ProcId} {π m : ℤ} (hl : Level S π m k) (hr : Runs .pbs h k)
    (hone : ∀ c c' : C, c = c') (hst : PeerStep S π k e k') (hno : NoOverflow S k e) :
    ∃ m', Level S π m' k' := by
  have hprio : ∀ p ∈ S, (k'.proc p).priority = π := fun p hp => by
    rw [(hst.peer hr hp).1, hl.priority p hp]
  by_cases hdisp : ∃ p ∈ S, ∃ c, e = (.scheduler c, .dispatch p)
  · obtain ⟨p, hp, c, rfl⟩ := hdisp
    obtain ⟨-, hmin⟩ := (pbs_pass hr.ranked hst.step).2 p rfl
    -- all peers are runnable, so `p` has the fewest slices among them
    have hle : ∀ q ∈ S, (k.proc p).timeslices.toInt ≤ (k.proc q).timeslices.toInt := by
      intro q hq
      have hrun := hr.placed.runnable_of_scheduler hone hst.step.1 (hst.before.state q hq)
      have hkey := hmin q hrun
      simp only [pbsKey, Prod.Lex.toLex_le_toLex, hl.priority p hp, hl.priority q hq, lt_irrefl,
        true_and, false_or] at hkey
      exact hkey
    have hother : ∀ q ∈ S, q ≠ p → (k'.proc q).timeslices = (k.proc q).timeslices := by
      intro q hq hne
      rcases (hst.peer hr hq).2 with hsame | ⟨⟨c', he⟩, -⟩
      · exact hsame
      · cases he
        exact absurd rfl hne
    have hself : (k'.proc p).timeslices.toInt = (k.proc p).timeslices.toInt + 1 ∨
        (k'.proc p).timeslices.toInt = (k.proc p).timeslices.toInt := by
      rcases (hst.peer hr hp).2 with hsame | ⟨-, hsucc⟩
      · exact .inr (by rw [hsame])
      · exact .inl (by rw [hsucc, word_toInt_succ (hno p hp rfl)])
    rcases hl.timeslices p hp with hpm | hpm
    · refine ⟨m, hprio, fun q hq => ?_⟩
      by_cases hqp : q = p
      · subst hqp
        omega
      · rw [hother q hq hqp]
        exact hl.timeslices q hq
    · -- `p` was not behind, so nobody was
      refine ⟨m + 1, hprio, fun q hq => ?_⟩
      by_cases hqp : q = p
      · subst hqp
        omega
      · rw [hother q hq hqp]
        have := hle q hq
        rcases hl.timeslices q hq with hqm | hqm <;> omega
  · refine ⟨m, hprio, fun p hp => ?_⟩
    rcases (hst.peer hr hp).2 with hsame | ⟨⟨c, he⟩, -⟩
    · rw [hsame]
      exact hl.timeslices p hp
    · exact absurd ⟨p, hp, c, he⟩ hdisp

/-- The processes of `S` have equal priorities `π` and equal counts of time slices. -/
def Even (S : Set ProcId) (π : ℤ) (k : Kern C) : Prop :=
  (∀ p ∈ S, (k.proc p).priority = π) ∧ ∀ p ∈ S, ∀ q ∈ S, (k.proc p).timeslices = (k.proc q).timeslices

omit [DecidableEq C] in
theorem Even.level {S : Set ProcId} {π : ℤ} (he : Even S π k) : ∃ m, Level S π m k := by
  by_cases hS : ∃ p, p ∈ S
  · obtain ⟨p, hp⟩ := hS
    exact ⟨(k.proc p).timeslices.toInt, he.1, fun q hq => .inl (by rw [he.2 q hq p hp])⟩
  · exact ⟨0, he.1, fun q hq => absurd ⟨q, hq⟩ hS⟩

/-- **Priority based scheduling.** In every run all priorities are between 0 and 100, and every pass
of a scheduler switches to a process whenever one is runnable, to one with the least priority number
and among those with the fewest time slices. From a state of the run on, on one CPU: as long as a set
of processes with equal priorities and counts at first stay runnable or running, do not change their
priority, meet no other runnable process of equal or better priority, and no counter of theirs
overflows, their counts differ by at most one. -/
theorem pbs_fair (hr : Runs .pbs h k) :
    Ranked k ∧
    (∀ c o k', Step .pbs k (.scheduler c, o) k' →
      ((∃ p, (k.proc p).state = .runnable) → ∃ p, o = .dispatch p) ∧
        ∀ p, o = .dispatch p → (k.proc p).state = .runnable ∧
          ∀ q, (k.proc q).state = .runnable → pbsKey (k.proc p) ≤ pbsKey (k.proc q)) ∧
    ∀ (S : Set ProcId) (π : ℤ) (h' : List (Event C)) (k' : Kern C), (∀ c c' : C, c = c') → Even S π k →
      Run (fun k e k' => PeerStep S π k e k' ∧ NoOverflow S k e) k h' k' →
      ∀ p ∈ S, ∀ q ∈ S, (k'.proc p).timeslices.toInt ≤ (k'.proc q).timeslices.toInt + 1 := by
  refine ⟨hr.ranked, fun c o k' hst => pbs_pass hr.ranked hst, fun S π h' k' hone heven hrun => ?_⟩
  have hinv : (∃ h, Runs .pbs h k') ∧ ∃ m, Level S π m k' := by
    refine Run.invariant hrun (P := fun _ k' => (∃ h, Runs .pbs h k') ∧ ∃ m, Level S π m k')
      ⟨⟨h, hr⟩, heven.level⟩ ?_
    rintro h' k e k' - ⟨⟨h, hr⟩, m, hl⟩ ⟨hst, hno⟩
    exact ⟨⟨e :: h, .step hr hst.step⟩, hl.step hr hone hst hno⟩
  obtain ⟨-, m, hl⟩ := hinv
  intro p hp q hq
  have hp := hl.timeslices p hp
  have hq := hl.timeslices q hq
  omega

/-! ### Two processes on one CPU -/

section Duo

variable {S : Set ProcId} {r s : ProcId} {x y : Word} {k k' : Kern Unit} {e : Event Unit}

/-- Two processes of the default priority, those of `S`, have `x` and `y` time slices, and nobody
else has a slot. -/
structure Pair (S : Set ProcId) (r s : ProcId) (x y : Word) (k : Kern Unit) : Prop where
  mem : ∀ p, p ∈ S ↔ p = r ∨ p = s
  ne : r ≠ s
  state : ∀ p, p = r ∨ p = s → (k.proc p).state = .runnable ∨ (k.proc p).state = .running
  priority : ∀ p, p = r ∨ p = s → (k.proc p).priority = 60
  timeslices : (k.proc r).timeslices = x ∧ (k.proc s).timeslices = y
  other : ∀ q, q ≠ r → q ≠ s → (k.proc q).state = .unused

theorem Pair.peers (hp : Pair S r s x y k) :
    Peers S 60 k := by
  refine ⟨fun p h => hp.state p ((hp.mem p).1 h), fun q hq hrun => ?_⟩
  rw [hp.mem, not_or] at hq
  rw [hp.other q hq.1 hq.2] at hrun
  cases hrun

theorem Pair.symm (hp : Pair S r s x y k) : Pair S s r y x k :=
  ⟨fun p => (hp.mem p).trans or_comm, hp.ne.symm, fun p h => hp.state p h.symm, fun p h => hp.priority p h.symm,
    hp.timeslices.symm, fun q hs hr => hp.other q hr hs⟩

/-- A kernel thread that goes on by giving up the lock. -/
def Resumes (p : ProcId) (k : Kern Unit) : Prop :=
  (k.proc p).context = .yield ∨ (k.proc p).context = .forkret

/-- The only CPU runs `r`, and `s` waits for it. -/
structure Duo (S : Set ProcId) (r s : ProcId) (x y : Word) (k : Kern Unit) : Prop where
  pair : Pair S r s x y k
  cpu : k.cpu () = some r
  lock : k.lock = .free
  run : (k.proc r).state = .running
  wait : (k.proc s).state = .runnable
  resumes : Resumes s k

/-- The scheduler of the only CPU is about to look at `r` and `s`. -/
structure DuoWait (S : Set ProcId) (r s : ProcId) (x y : Word) (k : Kern Unit) : Prop where
  pair : Pair S r s x y k
  cpu : k.cpu () = none
  lock : k.lock = .free
  seen : (k.seen ()).isSome = true
  state : ∀ p, p = r ∨ p = s → (k.proc p).state = .runnable
  resumes : ∀ p, p = r ∨ p = s → Resumes p k

/-- The steps of two peers, of which a dispatch finds one with `x` or `y` time slices. -/
def DuoStep (S : Set ProcId) (x y : Word) (k : Kern Unit) (e : Event Unit) (k' : Kern Unit) : Prop :=
  PeerStep S 60 k e k' ∧
    ∀ p, e.2 = .dispatch p → (k.proc p).timeslices = x ∨ (k.proc p).timeslices = y

/-- The process that runs yields, and the scheduler reads the clock. -/
theorem Duo.yields (hd : Duo S r s x y k) :
    ∃ h' k', Run (DuoStep S x y) k h' k' ∧ DuoWait S r s x y k' := by
  set k₁ : Kern Unit := { k.setProc r fun q => { q with state := .runnable, context := .yield } with
    lock := .back () r } with hk₁
  set k₂ : Kern Unit := { k₁ with cpu := Function.update k₁.cpu () none, lock := .free } with hk₂
  set k₃ : Kern Unit := { k₂ with seen := Function.update k₂.seen () (some k₂.ticks) } with hk₃
  have hr₁ : k₁.proc r = { k.proc r with state := .runnable, context := .yield } := by simp [hk₁]
  have hq₁ : ∀ q, q ≠ r → k₁.proc q = k.proc q := fun q hq => by simp [hk₁, hq]
  have hrun₁ : ∀ p, p = r ∨ p = s → (k₁.proc p).state = .runnable := by
    rintro p (rfl | rfl)
    · rw [hr₁]
    · rw [hq₁ p hd.pair.ne.symm, hd.wait]
  have hpair₁ : Pair S r s x y k₁ := by
    refine ⟨hd.pair.mem, hd.pair.ne, fun p hp => .inl (hrun₁ p hp), ?_, ?_, fun q hqr hqs => ?_⟩
    · rintro p (rfl | rfl)
      · rw [hr₁]
        exact hd.pair.priority p (.inl rfl)
      · rw [hq₁ p hd.pair.ne.symm]
        exact hd.pair.priority p (.inr rfl)
    · rw [hr₁, hq₁ s hd.pair.ne.symm]
      exact hd.pair.timeslices
    · rw [hq₁ q hqr, hd.pair.other q hqr hqs]
  have hpair₃ : Pair S r s x y k₃ := ⟨hpair₁.1, hpair₁.2, hpair₁.3, hpair₁.4, hpair₁.5, hpair₁.6⟩
  have hst₁ : DuoStep S x y k (.proc () r .yield, .done) k₁ := by
    refine ⟨⟨⟨?_, rfl⟩, hd.pair.peers, hpair₁.peers, fun p _ c n hp => ?_⟩, fun p hp => by cases hp⟩
    · have hyield : ProcAct.allowed .yield (k.proc r).thread = true := by cases (k.proc r).thread <;> rfl
      simp [kernel, enabled, hd.cpu, hd.lock, hyield, Lock.heldBy]
    · cases hp
  have hst₂ : DuoStep S x y k₁ (.back (), .done) k₂ := by
    refine ⟨⟨⟨?_, rfl⟩, hpair₁.peers, ⟨hpair₁.peers.1, hpair₁.peers.2⟩, fun p _ c n hp => by cases hp⟩,
      fun p hp => by cases hp⟩
    simp [kernel, enabled, hk₁]
  have hst₃ : DuoStep S x y k₂ (.readTicks (), .done) k₃ := by
    refine ⟨⟨⟨?_, rfl⟩, ⟨hpair₁.peers.1, hpair₁.peers.2⟩, hpair₃.peers, fun p _ c n hp => by cases hp⟩,
      fun p hp => by cases hp⟩
    simp [kernel, enabled, hk₂, Lock.heldBy]
  refine ⟨_, k₃, .step (.step (.step .start hst₁) hst₂) hst₃, hpair₃, ?_, rfl, ?_, hrun₁, ?_⟩
  · simp [hk₃, hk₂]
  · simp [hk₃]
  · rintro p (rfl | rfl)
    · exact .inl (by simp [hk₃, hk₂, hr₁])
    · have := hd.resumes
      rwa [Resumes, ← hq₁ p hd.pair.ne.symm] at this

/-- The scheduler switches to the process `r` of the two, which goes on. -/
theorem DuoWait.dispatches (hd : DuoWait S r s x y k)
    (hpick : pickPBS { k with seen := Function.update k.seen () none } ((k.seen ()).getD 0) = some r) :
    ∃ h' k', Run (DuoStep S x y) k h' k' ∧ Duo S r s (x + 1) y k' := by
  set k₁ : Kern Unit := switchTo ({ k with seen := Function.update k.seen () none }.setProc r
    fun q => { q with timeslices := q.timeslices + 1 }) () r with hk₁
  set k₂ : Kern Unit := { k₁ with lock := .free } with hk₂
  have hr₁ : k₁.proc r = { k.proc r with
      timeslices := (k.proc r).timeslices + 1, numRun := (k.proc r).numRun + 1, state := .running } := by
    simp [hk₁, switchTo]
  have hq₁ : ∀ q, q ≠ r → k₁.proc q = k.proc q := fun q hq => by simp [hk₁, switchTo, hq]
  have hpair₁ : Pair S r s (x + 1) y k₁ := by
    refine ⟨hd.pair.mem, hd.pair.ne, ?_, ?_, ?_, fun q hqr hqs => ?_⟩
    · rintro p (rfl | rfl)
      · rw [hr₁]
        exact .inr rfl
      · rw [hq₁ p hd.pair.ne.symm]
        exact hd.pair.state p (.inr rfl)
    · rintro p (rfl | rfl)
      · rw [hr₁]
        exact hd.pair.priority p (.inl rfl)
      · rw [hq₁ p hd.pair.ne.symm]
        exact hd.pair.priority p (.inr rfl)
    · rw [hr₁, hq₁ s hd.pair.ne.symm, ← hd.pair.timeslices.1]
      exact ⟨rfl, hd.pair.timeslices.2⟩
    · rw [hq₁ q hqr, hd.pair.other q hqr hqs]
  have hpair₂ : Pair S r s (x + 1) y k₂ := ⟨hpair₁.1, hpair₁.2, hpair₁.3, hpair₁.4, hpair₁.5, hpair₁.6⟩
  have hst₁ : DuoStep S x y k (.scheduler (), .dispatch r) k₁ := by
    refine ⟨⟨⟨?_, ?_⟩, hd.pair.peers, hpair₁.peers, fun p _ c n hp => by cases hp⟩, ?_⟩
    · simp [kernel, enabled, hd.cpu, hd.lock, hd.seen]
    · show exec .pbs k (.scheduler ()) = _
      simp only [exec, scheduler, hpick, hk₁]
    · intro p hp
      cases hp
      exact .inl hd.pair.timeslices.1
  have hst₂ : DuoStep S x y k₁ (.resume (), .done) k₂ := by
    refine ⟨⟨⟨?_, ?_⟩, hpair₁.peers, hpair₂.peers, fun p _ c n hp => by cases hp⟩,
      fun p hp => by cases hp⟩
    · simp [kernel, enabled, hk₁, switchTo]
    · have hctx := hd.resumes r (.inl rfl)
      rw [Resumes, show (k.proc r).context = (k₁.proc r).context by rw [hr₁]] at hctx
      show Except.ok (resume k₁ () r) = _
      rcases hctx with hctx | hctx <;> simp only [resume, hctx, hk₂]
  refine ⟨_, k₂, .step (.step .start hst₁) hst₂, hpair₂, ?_, rfl, ?_, ?_, ?_⟩
  · simp [hk₂, hk₁, switchTo]
  · simp [hk₂, hr₁]
  · show (k₁.proc s).state = _
    rw [hq₁ s hd.pair.ne.symm, hd.state s (.inr rfl)]
  · show (k₁.proc s).context = _ ∨ (k₁.proc s).context = _
    rw [hq₁ s hd.pair.ne.symm]
    exact hd.resumes s (.inr rfl)

theorem DuoWait.symm (hd : DuoWait S r s x y k) :
    DuoWait S s r y x k :=
  ⟨hd.pair.symm, hd.cpu, hd.lock, hd.seen, fun p h => hd.state p h.symm, fun p h => hd.resumes p h.symm⟩

theorem DuoStep.symm (h : DuoStep S y x k e k') : DuoStep S x y k e k' :=
  ⟨h.1, fun p hp => (h.2 p hp).symm⟩

/-- **A turn**: the one that runs yields, and one with the fewest time slices is next. -/
theorem Duo.turn (hd : Duo S r s x y k) :
    ∃ h' k', Run (DuoStep S x y) k h' k' ∧
      (x.toInt ≤ y.toInt ∧ Duo S r s (x + 1) y k' ∨ y.toInt ≤ x.toInt ∧ Duo S s r (y + 1) x k') := by
  obtain ⟨h₁, k₁, hrun₁, hw⟩ := hd.yields
  have hkey : ∀ p q, (p = r ∨ p = s) → (q = r ∨ q = s) → pbsKey (k₁.proc p) ≤ pbsKey (k₁.proc q) →
      (k₁.proc p).timeslices.toInt ≤ (k₁.proc q).timeslices.toInt := by
    intro p q hp hq hle
    simpa [pbsKey, Prod.Lex.toLex_le_toLex, hw.pair.priority p hp, hw.pair.priority q hq] using hle
  rcases pickPBS_spec { k₁ with seen := Function.update k₁.seen () none } ((k₁.seen ()).getD 0) with
    ⟨-, hall⟩ | ⟨p, hpick, hp, hall⟩
  · -- the bound is above every priority
    have hle := hall r (hw.state r (.inl rfl))
    simp [pbsKey, Prod.Lex.toLex_le_toLex, hw.pair.priority r (.inl rfl)] at hle
  · have hmem : p = r ∨ p = s := by
      by_contra hne
      rw [not_or] at hne
      rw [show (k₁.proc p).state = .unused from hw.pair.other p hne.1 hne.2] at hp
      cases hp
    obtain ⟨hx, hy⟩ := hw.pair.timeslices
    rcases hmem with rfl | rfl
    · obtain ⟨h₂, k₂, hrun₂, hd₂⟩ := hw.dispatches hpick
      have hle := hkey p s (.inl rfl) (.inr rfl) (hall s (hw.state s (.inr rfl)))
      rw [hx, hy] at hle
      exact ⟨_, k₂, hrun₁.append hrun₂, .inl ⟨hle, hd₂⟩⟩
    · obtain ⟨h₂, k₂, hrun₂, hd₂⟩ := hw.symm.dispatches hpick
      have hle := hkey p r (.inr rfl) (.inl rfl) (hall r (hw.state r (.inl rfl)))
      rw [hx, hy] at hle
      exact ⟨_, k₂, hrun₁.append (hrun₂.mono DuoStep.symm), .inr ⟨hle, hd₂⟩⟩

/-- Two turns: from equal counts, one of the two is ahead, and then the other draws level. -/
theorem Duo.turns {n : ℕ} (hn : n + 1 < 2 ^ 31)
    (hd : Duo S r s (.ofNat 32 n) (.ofNat 32 n) k) :
    ∃ h' k' r' s', Run (PeerStep S 60) k h' k' ∧
      Duo S r' s' (.ofNat 32 (n + 1)) (.ofNat 32 (n + 1)) k' := by
  have hsucc : BitVec.ofNat 32 n + 1 = .ofNat 32 (n + 1) := (BitVec.ofNat_add n 1).symm
  have hlt : ¬ (BitVec.ofNat 32 (n + 1)).toInt ≤ (BitVec.ofNat 32 n).toInt := by
    rw [word_toInt hn, word_toInt (by omega)]
    omega
  obtain ⟨h₁, k₁, hrun₁, hd₁⟩ := hd.turn
  rw [hsucc] at hd₁
  rcases hd₁ with ⟨-, hd₁⟩ | ⟨-, hd₁⟩
  all_goals
    obtain ⟨h₂, k₂, hrun₂, hd₂⟩ := hd₁.turn
    rw [hsucc] at hd₂
    rcases hd₂ with ⟨hle, -⟩ | ⟨-, hd₂⟩
    · exact absurd hle hlt
  · exact ⟨_, k₂, s, r, (hrun₁.mono And.left).append (hrun₂.mono And.left), hd₂⟩
  · exact ⟨_, k₂, r, s, (hrun₁.mono And.left).append (hrun₂.mono And.left), hd₂⟩

theorem Duo.counts {n m : ℕ} (hn : n + m < 2 ^ 31) (hd : Duo S r s (.ofNat 32 n) (.ofNat 32 n) k) :
    ∃ h' k' r' s', Run (PeerStep S 60) k h' k' ∧ Duo S r' s' (.ofNat 32 (n + m)) (.ofNat 32 (n + m)) k' := by
  induction m with
  | zero => exact ⟨[], k, r, s, .start, hd⟩
  | succ m ih =>
    obtain ⟨h₁, k₁, r₁, s₁, hrun₁, hd₁⟩ := ih (by omega)
    obtain ⟨h₂, k₂, r₂, s₂, hrun₂, hd₂⟩ := hd₁.turns hn
    exact ⟨_, k₂, r₂, s₂, hrun₁.append hrun₂, hd₂⟩

theorem Pair.even (hp : Pair S r s x x k) : Even S 60 k := by
  have hx : ∀ p ∈ S, (k.proc p).timeslices = x := by
    intro p h
    rcases (hp.mem p).1 h with rfl | rfl
    · exact hp.timeslices.1
    · exact hp.timeslices.2
  exact ⟨fun p h => hp.priority p ((hp.mem p).1 h), fun p h q h' => by rw [hx p h, hx q h']⟩

end Duo

/-- The first process runs and forks a child, yields, and the child runs: both have had one time
slice. -/
def pbsEvents : List (Event Unit) :=
  [(.userinitAlloc, .alloc 0), (.userinit, .done), (.readTicks (), .done),
    (.scheduler (), .dispatch 0), (.resume (), .done), (.proc () 0 .forkAlloc, .alloc 1),
    (.proc () 0 .forkCopy, .done), (.proc () 0 .fork, .done), (.proc () 0 .yield, .done),
    (.back (), .done), (.readTicks (), .done), (.scheduler (), .dispatch 1), (.resume (), .done)]

theorem pbsEvents_duo : ∃ k, Runs .pbs pbsEvents.reverse k ∧ Duo {p | p = 1 ∨ p = 0} 1 0 1 1 k := by
  obtain ⟨k, hr, hk⟩ := (kernel .pbs).exists_runs pbsEvents
    (fun k => (∀ p, p = 1 ∨ p = 0 → (k.proc p).priority = 60) ∧
      ((k.proc 1).timeslices = 1 ∧ (k.proc 0).timeslices = 1) ∧
      (∀ q, q ≠ 1 → q ≠ 0 → (k.proc q).state = .unused) ∧ k.cpu () = some 1 ∧ k.lock = .free ∧
      (k.proc 1).state = .running ∧ (k.proc 0).state = .runnable ∧ (k.proc 0).context = .yield)
    (by decide +kernel)
  simp only [decide_eq_true_eq] at hk
  obtain ⟨hprio, hts, hother, hcpu, hlock, hrun, hwait, hctx⟩ := hk
  refine ⟨k, hr, ⟨fun p => Iff.rfl, by decide, ?_, hprio, hts, hother⟩, hcpu, hlock, hrun, hwait, .inl hctx⟩
  rintro p (rfl | rfl)
  · exact .inr hrun
  · exact .inl hwait

/-- The first process and its child, with one time slice each, take a turn: one of them is ahead. -/
theorem pbs_fair_turn :
    ∃ (k k' : Kern Unit) (h' : List (Event Unit)), Runs .pbs pbsEvents.reverse k ∧
      Even {p | p = 1 ∨ p = 0} 60 k ∧
      Run (fun k e k' => PeerStep {p | p = 1 ∨ p = 0} 60 k e k' ∧ NoOverflow {p | p = 1 ∨ p = 0} k e) k h' k' ∧
      (∃ r s, Duo {p | p = 1 ∨ p = 0} r s 2 1 k') ∧
      (k'.proc 0).timeslices.toInt ≤ (k'.proc 1).timeslices.toInt + 1 := by
  obtain ⟨k, hr, hd⟩ := pbsEvents_duo
  obtain ⟨h', k', hrun, hd'⟩ := hd.turn
  have hone : (1 : Word).toInt < 2 ^ 31 - 1 := by decide
  have hrun' := hrun.mono (S := fun k e k' =>
      PeerStep {p | p = 1 ∨ p = 0} 60 k e k' ∧ NoOverflow {p | p = 1 ∨ p = 0} k e) fun hst => by
    refine ⟨hst.1, fun p _ hp => ?_⟩
    rcases hst.2 p hp with hx | hx
    · rwa [hx]
    · rwa [hx]
  have hfair := (pbs_fair hr).2.2 _ _ h' k' (fun _ _ => rfl) hd.pair.even hrun'
  refine ⟨k, k', h', hr, hd.pair.even, hrun', ?_, hfair 0 (.inr rfl) 1 (.inl rfl)⟩
  rcases hd' with ⟨-, hd'⟩ | ⟨-, hd'⟩
  · exact ⟨_, _, hd'⟩
  · exact ⟨_, _, hd'⟩

/-- After `2 ^ 31 - 1` time slices each, one of two processes that share the only CPU is dispatched
once more: its counter becomes the least signed word, and it is behind by `2 ^ 32 - 1`. -/
theorem pbs_overflow :
    ∃ (h h' : List (Event Unit)) (k k' : Kern Unit) (r s : ProcId), Runs .pbs h k ∧
      (k.proc 0).priority = 60 ∧ (k.proc 1).priority = 60 ∧ Even {p | p = 1 ∨ p = 0} 60 k ∧
      Run (PeerStep {p | p = 1 ∨ p = 0} 60) k h' k' ∧ (r = 1 ∨ r = 0) ∧ (s = 1 ∨ s = 0) ∧
      (k'.proc r).timeslices.toInt = (k'.proc s).timeslices.toInt + (2 ^ 32 - 1) := by
  obtain ⟨k, hr, hd⟩ := pbsEvents_duo
  obtain ⟨h₁, k₁, r, s, hrun₁, hd₁⟩ := Duo.counts (n := 1) (m := 2 ^ 31 - 2) (by decide) hd
  obtain ⟨h₂, k₂, hrun₂, hd₂⟩ := hd₁.turn
  have hmin : (BitVec.ofNat 32 (1 + (2 ^ 31 - 2)) + 1).toInt = -2 ^ 31 := by decide
  have hmax : (BitVec.ofNat 32 (1 + (2 ^ 31 - 2))).toInt = 2 ^ 31 - 1 := by decide
  have hrun := hrun₁.append (hrun₂.mono And.left)
  have hprio := hd.pair.priority
  rcases hd₂ with ⟨-, hd₂⟩ | ⟨-, hd₂⟩
  all_goals
    refine ⟨_, _, k, k₂, _, _, hr, hprio 0 (.inr rfl), hprio 1 (.inl rfl), hd.pair.even, hrun,
      (hd₂.pair.mem _).2 (.inr rfl), (hd₂.pair.mem _).2 (.inl rfl), ?_⟩
    rw [hd₂.pair.timeslices.1, hd₂.pair.timeslices.2, hmin, hmax]
    decide

end Xv6.Process
