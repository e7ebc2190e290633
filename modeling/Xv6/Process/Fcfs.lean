import Xv6.Process.Turn
import Xv6.Lib.Scan

/-!
# First come, first served

The scheduler loop of the first-come-first-served build keeps the runnable process with the least
`start_time`, starting from the bound `ticks + 100`, and compares as signed words. `start_time` is
the value of `ticks` when the slot was allocated, so the choice is right as long as neither side of
the comparison has passed the sign bit and the bound, which is computed before the lock is taken, is
still above the clock.
-/

namespace Xv6.Process

open Lib

variable {C : Type} [DecidableEq C] {b : Sched} {k k' : Kern C} {e : Event C} {p q : ProcId}
  {h : List (Event C)}

/-! ### What the loop picks -/

omit [DecidableEq C] in
/-- **The pass of the loop**: it picks a runnable process with the least `start_time`, unless none is
below the bound. -/
theorem pickFCFS_spec (k : Kern C) (t : Word) :
    (pickFCFS k t = none ∧
      ∀ p, (k.proc p).state = .runnable → (t + 100).toInt ≤ (k.proc p).startTime.toInt) ∨
    ∃ p, pickFCFS k t = some p ∧ (k.proc p).state = .runnable ∧
      (k.proc p).startTime.toInt < (t + 100).toInt ∧
      ∀ q, (k.proc q).state = .runnable → (k.proc p).startTime.toInt ≤ (k.proc q).startTime.toInt := by
  let g : Word × Option ProcId → ProcId → Word × Option ProcId := fun m p =>
    if (k.proc p).state ≠ .runnable then m
    else if (k.proc p).startTime.slt m.1 then ((k.proc p).startTime, some p) else m
  have hpass := foldl_least g Prod.snd (fun m => m.1.toInt)
    (fun p => (k.proc p).state = .runnable) (fun p => (k.proc p).startTime.toInt)
    (fun m p hp hlt => by simp [g, hp, BitVec.slt_iff_toInt_lt, hlt])
    (fun m p hkeep => by
      by_cases hp : (k.proc p).state = .runnable
      · simp [g, hp, BitVec.slt_iff_toInt_lt, hkeep hp]
      · simp [g, hp])
    (List.finRange NPROC) (m := (t + 100, none)) rfl
  rcases hpass with ⟨hnone, hall⟩ | ⟨p, -, hsome, hp, hlt, hall⟩
  · exact .inl ⟨hnone, fun q hq => hall q (List.mem_finRange q) hq⟩
  · exact .inr ⟨p, hsome, hp, hlt, fun q hq => hall q (List.mem_finRange q) hq⟩

/-! ### The dates of the processes -/

def ticksOf (h : List (Event C)) : ℕ := h.countP fun e => e.1 = .tick

/-- The tick at which the slot `q` was last allocated. -/
def bornAt (q : ProcId) : List (Event C) → ℕ
  | [] => 0
  | e :: h => if allocates q e then ticksOf h else bornAt q h

theorem ticksOf_cons (e : Event C) (h : List (Event C)) :
    ticksOf (e :: h) = ticksOf h + if e.1 = .tick then 1 else 0 := by
  simp only [ticksOf, List.countP_cons, decide_eq_true_eq]

/-- The clock, the `start_time` of every slot in use and the values that the scheduler loops have
read are the dates of the history. -/
structure Dated (h : List (Event C)) (k : Kern C) : Prop where
  ticks : k.ticks = .ofNat 32 (ticksOf h)
  start : ∀ q, (k.proc q).state ≠ .unused →
    (k.proc q).startTime = .ofNat 32 (bornAt q h) ∧ bornAt q h ≤ ticksOf h
  seen : ∀ c t, k.seen c = some t → ∃ n ≤ ticksOf h, t = .ofNat 32 n

omit [DecidableEq C] in
theorem CoreStep.startTime {x y : Core} (h : CoreStep k e q x y) (ha : allocates q e = false) :
    y.startTime = x.startTime := by
  cases h with
  | alloc h _ => simp [ha] at h
  | _ => rfl

theorem Dated.step (hd : Dated h k) (hs : Shape k) (hst : Step b k e k') : Dated (e :: h) k' := by
  have hle : ticksOf h ≤ ticksOf (e :: h) := by
    rw [ticksOf_cons]
    omega
  refine ⟨?_, fun q hq => ?_, fun c t ht => ?_⟩
  · rw [(clock_step hst).1, ticksOf_cons, hd.ticks]
    split
    · rw [BitVec.ofNat_add]
      rfl
    · rfl
  · by_cases ha : allocates q e = true
    · obtain ⟨-, hcore⟩ := alloc_step hs hst ha
      have hstart : (k'.proc q).startTime = k.ticks := congrArg Core.startTime hcore
      simp only [bornAt, ha, if_true]
      exact ⟨hstart.trans hd.ticks, hle⟩
    · have ha : allocates q e = false := by simpa using ha
      have hcore := core_step hs hst q
      have hstart : (k'.proc q).startTime = (k.proc q).startTime := hcore.startTime ha
      obtain ⟨hborn, hb⟩ := hd.start q (hcore.used ha hq)
      simp only [bornAt, ha]
      exact ⟨hstart.trans hborn, hb.trans hle⟩
  · rw [(hands_step hst).seen] at ht
    have hold : ∀ {t}, k.seen c = some t → ∃ n ≤ ticksOf (e :: h), t = BitVec.ofNat 32 n := by
      intro t ht
      obtain ⟨n, hn, rfl⟩ := hd.seen c t ht
      exact ⟨n, hn.trans hle, rfl⟩
    obtain ⟨a, o⟩ := e
    cases a with
    | readTicks c' =>
      by_cases hc : c = c'
      · subst hc
        obtain rfl : k.ticks = t := by simpa [seenAfter] using ht
        exact ⟨ticksOf h, hle, hd.ticks⟩
      · exact hold (by simpa [seenAfter, hc] using ht)
    | scheduler c' =>
      by_cases hc : c = c'
      · simp [seenAfter, hc] at ht
      · exact hold (by simpa [seenAfter, hc] using ht)
    | _ => exact hold ht

/-- The clock stays below the sign bit; and when a scheduler takes the lock, its bound is below the
sign bit and above the clock. -/
def fcfsGuard (k : Kern C) : Act C → Bool
  | .tick => k.ticks.toNat + 1 < 2 ^ 31
  | .scheduler c => ((k.seen c).getD 0).toNat + 100 < 2 ^ 31 ∧
      k.ticks.toNat < ((k.seen c).getD 0).toNat + 100
  | _ => true

theorem GuardedRuns.dated (hr : GuardedRuns fcfsGuard .fcfs h k) :
    Dated h k ∧ ticksOf h < 2 ^ 31 := by
  have hinv : Shape k ∧ Dated h k ∧ ticksOf h < 2 ^ 31 := by
    refine Run.invariant hr (P := fun h k => Shape k ∧ Dated h k ∧ ticksOf h < 2 ^ 31)
      ⟨.init, ⟨rfl, fun _ h => absurd rfl h, nofun⟩, by simp [ticksOf]⟩ ?_
    rintro h k e k' - ⟨hs, hd, hlt⟩ ⟨hst, hg⟩
    refine ⟨hs.step hst, hd.step hs hst, ?_⟩
    rw [ticksOf_cons]
    split
    · rename_i he
      rw [he] at hg
      simp only [fcfsGuard, decide_eq_true_eq, hd.ticks, BitVec.toNat_ofNat] at hg
      omega
    · omega
  exact hinv.2

/-- **First come, first served.** In every run in which the clock stays below the sign bit and every
scheduler takes the lock with a bound that is below the sign bit and above the clock: a pass of a
scheduler switches to a process whenever one is runnable, and that process is runnable and was
allocated no later than any other runnable one. -/
theorem fcfs_selects (hr : GuardedRuns fcfsGuard .fcfs h k) {c : C} {o : Out}
    (hg : fcfsGuard k (.scheduler c) = true) (hst : Step .fcfs k (.scheduler c, o) k') :
    ((∃ p, (k.proc p).state = .runnable) → ∃ p, o = .dispatch p) ∧
      ∀ p, o = .dispatch p → (k.proc p).state = .runnable ∧
        ∀ q, (k.proc q).state = .runnable → bornAt p h ≤ bornAt q h := by
  obtain ⟨hd, hlt⟩ := hr.dated
  simp only [fcfsGuard, decide_eq_true_eq, hd.ticks, BitVec.toNat_ofNat] at hg
  set t := (k.seen c).getD 0 with ht
  -- the keys and the bound are the dates themselves
  have hkey : ∀ q, (k.proc q).state = .runnable →
      (k.proc q).startTime.toInt = bornAt q h ∧ bornAt q h ≤ ticksOf h := by
    intro q hq
    obtain ⟨hstart, hle⟩ := hd.start q (by rw [hq]; decide)
    refine ⟨?_, hle⟩
    rw [hstart, word_toInt (by omega)]
  have hbound : (t + 100).toInt = t.toNat + 100 := by
    have hn : (t + 100).toNat = t.toNat + 100 := by
      rw [BitVec.toNat_add]
      exact Nat.mod_eq_of_lt (by simp; omega)
    rw [BitVec.toInt_eq_toNat_of_lt (by omega), hn]
    rfl
  have hx := (step_iff.1 hst).2
  simp only [exec, scheduler] at hx
  rcases pickFCFS_spec k t with ⟨hnone, hall⟩ | ⟨p, hsome, hp, -, hall⟩
  · have hpick : pickFCFS { k with seen := Function.update k.seen c none } t = none := hnone
    rw [hpick] at hx
    cases hx
    refine ⟨?_, fun p hp => by cases hp⟩
    rintro ⟨p, hp⟩
    have hle := hall p hp
    rw [hbound, (hkey p hp).1] at hle
    have := (hkey p hp).2
    omega
  · have hpick : pickFCFS { k with seen := Function.update k.seen c none } t = some p := hsome
    rw [hpick] at hx
    cases hx
    refine ⟨fun _ => ⟨p, rfl⟩, fun p' hp' => ?_⟩
    cases hp'
    refine ⟨hp, fun q hq => ?_⟩
    have hle := hall q hq
    rw [(hkey p hp).1, (hkey q hq).1] at hle
    exact_mod_cast hle

/-- The first process forks a child and gives up its CPU one tick later; a second CPU has read the
clock. -/
def fcfsEvents : List (Event (Fin 2)) :=
  [(.userinitAlloc, .alloc 0), (.userinit, .done), (.readTicks 0, .done), (.scheduler 0, .dispatch 0),
    (.resume 0, .done), (.tick, .done), (.proc 0 0 .forkAlloc, .alloc 1), (.proc 0 0 .forkCopy, .done),
    (.proc 0 0 .fork, .done), (.proc 0 0 .yield, .done), (.back 0, .done), (.readTicks 1, .done)]

theorem fcfs_selects_older :
    ∃ k k' : Kern (Fin 2), GuardedRuns fcfsGuard .fcfs fcfsEvents.reverse k ∧
      ((k.proc 0).state = .runnable ∧ (k.proc 1).state = .runnable) ∧
      Step .fcfs k (.scheduler 1, .dispatch 0) k' ∧
      bornAt 0 fcfsEvents.reverse ≤ bornAt 1 fcfsEvents.reverse := by
  obtain ⟨k, hr, hk⟩ := (kernel .fcfs).exists_guarded fcfsGuard fcfsEvents (fun k =>
    ((k.proc 0).state = .runnable ∧ (k.proc 1).state = .runnable) ∧ fcfsGuard k (.scheduler 1) ∧
      ((kernel .fcfs).step? k (.scheduler 1, .dispatch 0)).isSome) (by decide +kernel)
  simp only [decide_eq_true_eq] at hk
  obtain ⟨hrun, hg, hsome⟩ := hk
  obtain ⟨k', hk'⟩ := Option.isSome_iff_exists.1 hsome
  have hst := Machine.step?_step hk'
  exact ⟨k, k', hr, hrun, hst, ((fcfs_selects hr hg hst).2 0 rfl).2 1 hrun.2⟩

/-! ### At the sign bit -/

/-- Nobody runs or sleeps, and no timer interrupt is going on. -/
structure Still (k : Kern C) : Prop where
  lock : k.lock = .free
  phase : k.phase = .idle
  running : ∀ p, (k.proc p).state ≠ .running
  sleeping : ∀ p, (k.proc p).state ≠ .sleeping

omit [DecidableEq C] in
theorem wakeup1_still (hq : ∀ p, (k.proc p).state ≠ .sleeping) (chan : Option Chan) :
    wakeup1 b k chan = .ok k := by
  unfold wakeup1
  induction List.finRange NPROC with
  | nil => rfl
  | cons p l ih =>
    rw [List.foldlM_cons, show wakeup1Body b chan k p = .ok k from if_neg fun h => hq p h.1]
    exact ih

omit [DecidableEq C] in
theorem incRuntime_still (hq : ∀ p, (k.proc p).state ≠ .running) : incRuntime k = k := by
  unfold incRuntime
  simp only [hq, if_false]

/-- A timer interrupt only counts. -/
theorem Still.tick (hq : Still k) (hr : Runs b h k) :
    ∃ h', Runs b h' { k with ticks := k.ticks + 1 } := by
  have h₁ : Step b k (.tick, .done) { k with ticks := k.ticks + 1, phase := .ticked } := by
    refine ⟨?_, rfl⟩
    simp [kernel, enabled, hq.phase]
  have h₂ : Step b { k with ticks := k.ticks + 1, phase := .ticked } (.incRuntime, .done)
      { k with ticks := k.ticks + 1, phase := .counted } := by
    refine ⟨by simp [kernel, enabled, hq.lock], ?_⟩
    have hsame := incRuntime_still (k := { k with ticks := k.ticks + 1, phase := .ticked }) hq.running
    simp only [kernel, exec, hsame]
  have h₃ : Step b { k with ticks := k.ticks + 1, phase := .counted } (.wakeupTicks, .done)
      { k with ticks := k.ticks + 1 } := by
    refine ⟨by simp [kernel, enabled, hq.lock], ?_⟩
    have hsame := wakeup1_still (b := b) (k := { k with ticks := k.ticks + 1, phase := .counted })
      hq.sleeping (some .ticks)
    simp only [kernel, exec, hsame, hq.phase]
  exact ⟨_, .step (.step (.step hr h₁) h₂) h₃⟩

theorem Still.ticks (hq : Still k) (hr : Runs b h k) (n : ℕ) :
    ∃ h', Runs b h' { k with ticks := k.ticks + .ofNat 32 n } := by
  induction n with
  | zero => exact ⟨h, by simpa using hr⟩
  | succ n ih =>
    obtain ⟨h', hr'⟩ := ih
    obtain ⟨h'', hr''⟩ := Still.tick (k := { k with ticks := k.ticks + .ofNat 32 n })
      ⟨hq.lock, hq.phase, hq.running, hq.sleeping⟩ hr'
    refine ⟨h'', ?_⟩
    rw [BitVec.ofNat_add, ← BitVec.add_assoc]
    exact hr''

/-- A hundred ticks before the clock passes the sign bit, the bound `ticks + 100` is the least signed
word: the scheduler finds no process, though the first one is runnable. -/
theorem fcfs_finds_none :
    ∃ (h : List (Event (Fin 2))) (k k' : Kern (Fin 2)), Runs .fcfs h k ∧
      (k.proc 0).state = .runnable ∧ k.ticks = .ofNat 32 (2 ^ 31 - 100) ∧
      Step .fcfs k (.scheduler 0, .idle) k' := by
  obtain ⟨k, hr, hk⟩ := (kernel .fcfs).exists_runs
    ([(.userinitAlloc, .alloc 0), (.userinit, .done)] : List (Event (Fin 2)))
    (fun k => k.lock = .free ∧ k.phase = .idle ∧ k.ticks = 0 ∧ k.cpu 0 = none ∧
      (k.proc 0).state = .runnable ∧
      ∀ p, (k.proc p).state ≠ .running ∧ (k.proc p).state ≠ .sleeping) (by decide +kernel)
  simp only [decide_eq_true_eq] at hk
  obtain ⟨hl, hphase, h0, hcpu, hrun, hstill⟩ := hk
  obtain ⟨h', hr'⟩ := Still.ticks ⟨hl, hphase, fun p => (hstill p).1, fun p => (hstill p).2⟩ hr (2 ^ 31 - 100)
  rw [h0, show (0 : Word) + .ofNat 32 (2 ^ 31 - 100) = .ofNat 32 (2 ^ 31 - 100) by decide] at hr'
  set k₁ : Kern (Fin 2) := { k with ticks := .ofNat 32 (2 ^ 31 - 100) } with hk₁
  have hread : Step .fcfs k₁ (.readTicks 0, .done)
      { k₁ with seen := Function.update k₁.seen 0 (some k₁.ticks) } := by
    refine ⟨?_, rfl⟩
    simp [kernel, enabled, hk₁, hcpu, hl, Lock.heldBy]
  set k₂ : Kern (Fin 2) := { k₁ with seen := Function.update k₁.seen 0 (some k₁.ticks) } with hk₂
  -- no word is below the bound
  have hnone : pickFCFS { k₂ with seen := Function.update k₂.seen 0 none } k₁.ticks = none := by
    rcases pickFCFS_spec { k₂ with seen := Function.update k₂.seen 0 none } k₁.ticks with
      ⟨hnone, -⟩ | ⟨p, -, -, hlt, -⟩
    · exact hnone
    · have hmin : (k₁.ticks + 100).toInt = -2 ^ 31 := by
        show (BitVec.ofNat 32 (2 ^ 31 - 100) + 100).toInt = _
        decide
      have hle := BitVec.le_toInt (k₂.proc p).startTime
      rw [hmin] at hlt
      exact absurd hlt (not_lt.2 hle)
  refine ⟨_, k₂, { k₂ with seen := Function.update k₂.seen 0 none, lock := .free }, .step hr' hread,
    hrun, rfl, ?_, ?_⟩
  · simp [kernel, enabled, hk₂, hk₁, hcpu, hl]
  · show exec .fcfs k₂ (.scheduler 0) = _
    have hseen : (k₂.seen 0).getD 0 = k₁.ticks := by simp [hk₂]
    simp only [exec, scheduler, hseen, hnone]

end Xv6.Process
