import Xv6.Pipe.Code

/-!
# Sleepers on a ready pipe

A process sleeps on an address while it waits for a condition on the pipe. Whoever makes the
condition true has the lock, and owes the sleepers a `wakeup` before giving the lock up. One path of
`pipewrite` does not pay: a writer that finds the buffer full and gives up, because it is killed or
nobody reads any more, has not woken the readers for the bytes that it has put in. Apart from this
path, no process sleeps for a condition that holds while the lock is free.
-/

namespace Xv6.Pipe

open Lib

variable {P : Type} {s s' : State P} {p q r : P} {a : Act P} {o : Out} {ch : Chan}
  {h : List (Act P × Out)}

/-! ### Conditions, sleepers and debts -/

/-- What the sleepers on an address wait for. -/
def State.holds (s : State P) : Chan → Bool
  | .nread => !s.isEmpty || !s.writeopen
  | .nwrite => !s.isFull || !s.readopen

/-- The process has `p->lock`. -/
def Pc.inLock : Pc P → Bool
  | .body _ | .wakeup _ _ | .wakeup1 _ _ | .sleep _ _ => true
  | _ => false

/-- The process has `ptable.lock`. -/
def Pc.inTable : Pc P → Bool
  | .wakeup1 _ _ | .sched _ _ | .strike _ => true
  | _ => false

/-- The process is about to be `SLEEPING` on `ch`, with `p->lock` given up. -/
def Pc.falling : Pc P → Option Chan
  | .sched ch _ => some ch
  | _ => none

/-- The call has seen that the condition of `ch` does not hold. -/
def Body.blocked : Body → Option Chan
  | .full _ _ => some .nwrite
  | _ => none

def Pc.blocked : Pc P → Option Chan
  | .sleep ch _ => some ch
  | .body b | .wakeup _ b | .wakeup1 _ b => b.blocked
  | _ => none

/-- Where a call that has just got the lock, or gets it back, can be. -/
def Body.starts : Body → Bool
  | .write _ _ | .wait _ | .close _ => true
  | _ => false

/-- What the process does when it has got the lock, if that is what it waits for. -/
def Pc.resumes : Pc P → Option Body
  | .acquire b | .sleep _ b | .sched _ b | .asleep b => some b
  | _ => none

/-- The process will wake the sleepers on `ch` before it gives `p->lock` up. -/
def Pc.owes (fresh : Bool) : Pc P → Chan → Bool
  | .body (.write _ _), ch => fresh && ch = .nread
  | .body (.copy _ i), ch => 0 < i && ch = .nwrite
  | .wakeup ch' _, ch | .wakeup1 ch' _, ch => ch' = ch
  | _, _ => false

/-- The process is asleep on `ch`, or falling asleep. -/
def State.Waits (s : State P) (q : P) (ch : Chan) : Prop :=
  s.sleeping q = some ch ∨ (s.pc q).falling = some ch

theorem Body.blocked_of_starts {b : Body} (hb : b.starts = true) : b.blocked = none := by
  cases b with
  | write | wait | close => rfl
  | _ => cases hb

theorem Pc.inLock_of_owes {x : Pc P} {fresh : Bool} (ho : x.owes fresh ch = true) : x.inLock = true := by
  cases x with
  | body | wakeup | wakeup1 => rfl
  | _ => cases ho

theorem Pc.inLock_of_blocked {x : Pc P} (hb : x.blocked = some ch) : x.inLock = true := by
  cases x with
  | body | wakeup | wakeup1 | sleep => rfl
  | _ => cases hb

theorem Pc.inTable_of_falling {x : Pc P} (hf : x.falling = some ch) : x.inTable = true := by
  cases x with
  | sched => rfl
  | _ => cases hf

/-- The invariant of the locks, and of what is owed. -/
structure Paid (s : State P) : Prop where
  lock : ∀ q, (s.pc q).inLock = true → s.lock = some q
  table : ∀ q, (s.pc q).inTable = true → s.ptable = some q
  starts : ∀ q b, (s.pc q).resumes = some b → b.starts = true
  blocked : ∀ q ch, (s.pc q).blocked = some ch → s.holds ch = false
  /-- Whoever waits for a condition that holds is going to be woken. -/
  debt : ∀ q ch, s.Waits q ch → s.holds ch = true → ∃ r, (s.pc r).owes s.fresh ch = true

theorem Paid.eq_of_lock (hi : Paid s) (hp : (s.pc p).inLock = true) (hq : (s.pc q).inLock = true) :
    q = p :=
  Option.some.inj ((hi.lock q hq).symm.trans (hi.lock p hp))

/-- While `p` has the lock, nobody else owes anything. -/
theorem Paid.eq_of_owes (hi : Paid s) (hp : (s.pc p).inLock = true)
    (hr : (s.pc r).owes s.fresh ch = true) : r = p :=
  hi.eq_of_lock hp (Pc.inLock_of_owes hr)

/-- **With the lock free, no one waits for a condition that holds.** -/
theorem Paid.not_waits (hi : Paid s) (hl : s.lock = none) (hh : s.holds ch = true) : ¬ s.Waits q ch := by
  intro hw
  obtain ⟨r, hr⟩ := hi.debt q ch hw hh
  have := hi.lock r (Pc.inLock_of_owes hr)
  rw [hl] at this
  cases this

/-- Nothing changes for the sleepers on `ch` that would have to be paid for. -/
theorem Paid.keep (hi : Paid s) (hw : ∀ q, s'.Waits q ch → s.Waits q ch)
    (hh : s'.holds ch = true → s.holds ch = true)
    (ho : ∀ r, (s.pc r).owes s.fresh ch = true → (s'.pc r).owes s'.fresh ch = true) (hq : s'.Waits q ch)
    (hc : s'.holds ch = true) : ∃ r, (s'.pc r).owes s'.fresh ch = true := by
  obtain ⟨r, hr⟩ := hi.debt q ch (hw q hq) (hh hc)
  exact ⟨r, ho r hr⟩

/-- The process that has the lock is the only one that owes. -/
theorem Paid.owes_own (hi : Paid s) (hp : (s.pc p).inLock = true)
    (ho : (s.pc p).owes s.fresh ch = true → (s'.pc p).owes s'.fresh ch = true) (r : P)
    (hr : (s.pc r).owes s.fresh ch = true) : (s'.pc r).owes s'.fresh ch = true := by
  obtain rfl := hi.eq_of_owes hp hr
  exact ho hr

/-- A process that goes to sleep owes nothing, and has the lock. -/
theorem Paid.not_waits_sleep {ch' : Chan} {b : Body} (hi : Paid s) (hp : s.pc p = .sleep ch' b)
    (hc : s.holds ch = true) : ¬ s.Waits q ch := by
  intro hw
  obtain ⟨r, hr⟩ := hi.debt q ch hw hc
  obtain rfl := hi.eq_of_owes (p := p) (by rw [hp]; rfl) hr
  rw [hp] at hr
  cases hr

variable [DecidableEq P]

/-! ### The locks -/

/-- A lock is passed on correctly. -/
theorem owner_step {inside : Pc P → Bool} {pc pc' : P → Pc P} {own own' : Option P}
    (hi : ∀ q, inside (pc q) = true → own = some q) (hne : ∀ q ≠ p, pc' q = pc q)
    (hnew : inside (pc' p) = true → own' = some p)
    (hold : own' = own ∨ own = none ∨ inside (pc p) = true) :
    ∀ q, inside (pc' q) = true → own' = some q := by
  intro q hq
  by_cases hqp : q = p
  · subst hqp
    exact hnew hq
  · rw [hne q hqp] at hq
    rcases hold with he | he | he
    · rw [he, hi q hq]
    · rw [hi q hq] at he
      cases he
    · exact absurd (Option.some.inj ((hi q hq).symm.trans (hi p he))) hqp

theorem Next.lock (hn : Next s p s' o) (hready : s.ready p = true)
    (hin : (s.pc p).inLock = true → s.lock = some p) :
    ((s'.pc p).inLock = true → s'.lock = some p) ∧
      (s'.lock = s.lock ∨ s.lock = none ∨ (s.pc p).inLock = true) := by
  unfold State.ready at hready
  cases hn <;> simp_all [State.goto, State.leave, State.put, State.get, State.wake, Pc.inLock]

theorem Next.table (hn : Next s p s' o) (hready : s.ready p = true)
    (hin : (s.pc p).inTable = true → s.ptable = some p) :
    ((s'.pc p).inTable = true → s'.ptable = some p) ∧
      (s'.ptable = s.ptable ∨ s.ptable = none ∨ (s.pc p).inTable = true) := by
  unfold State.ready at hready
  cases hn <;> simp_all [State.goto, State.leave, State.put, State.get, State.wake, Pc.inTable]

theorem Next.starts (hn : Next s p s' o) (hs : ∀ b, (s.pc p).resumes = some b → b.starts = true) :
    ∀ b, (s'.pc p).resumes = some b → b.starts = true := by
  cases hn with
  | full hp | wait hp =>
    rw [pc_goto]
    rintro b ⟨⟩
    rfl
  | sleep hp | sched hp | asleep hp =>
    rw [hp] at hs
    rw [pc_goto]
    exact hs
  | giveUp hp | written hp | refuse hp | read hp | closed hp =>
    rw [pc_leave]
    rintro b ⟨⟩
  | _ =>
    rw [pc_goto]
    rintro b ⟨⟩

/-! ### The conditions -/

/-- Only with the lock can a condition change. -/
theorem Next.holds (hn : Next s p s' o) : s'.holds = s.holds ∨ (s.pc p).inLock = true := by
  cases hn with
  | put hp | get hp | closeWrite hp | closeRead hp =>
    rw [hp]
    exact .inr rfl
  | _ => exact .inl rfl

theorem Next.blocked (hn : Next s p s' o) (hi : Paid s) (hc : (s'.pc p).blocked = some ch) :
    s'.holds ch = false := by
  have hb := hi.blocked p ch
  cases hn with
  | acquire hp =>
    have hstart := hi.starts p _ (by rw [hp]; rfl)
    rw [pc_goto] at hc
    cases (Body.blocked_of_starts hstart).symm.trans hc
  | block hp hf hk =>
    rw [pc_goto] at hc
    cases hc
    show (!s.isFull || !s.readopen) = false
    rw [hf, hk]
    rfl
  | wait hp he hw =>
    rw [pc_goto] at hc
    cases hc
    show (!s.isEmpty || !s.writeopen) = false
    rw [he, hw]
    rfl
  | full hp | wakeup hp | wakeup1 hp =>
    rw [hp] at hb
    rw [pc_goto] at hc
    exact hb hc
  | giveUp hp | written hp | refuse hp | read hp | closed hp =>
    rw [pc_leave] at hc
    cases hc
  | _ =>
    rw [pc_goto] at hc
    cases hc

/-! ### The debts -/

/-- The give-up path of `pipewrite` is taken only when no byte has been put in since the readers
were last woken. -/
def paying (s : State P) : Act P → Bool
  | .next p =>
    match s.pc p with
    | .body (.write src i) =>
      !(i < src.length && s.isFull && (!s.readopen || s.killed p)) || !s.fresh
    | _ => true
  | _ => true

theorem waits_goto {x : Pc P} (hx : x.falling = none) {s₁ : State P} (hpc : s₁.pc = s.pc)
    (hsl : ∀ q, s₁.sleeping q = some ch → s.sleeping q = some ch) (hw : (s₁.goto p x).Waits q ch) :
    s.Waits q ch := by
  rcases hw with hw | hw
  · exact .inl (hsl q hw)
  · by_cases hq : q = p
    · rw [hq, pc_goto, hx] at hw
      cases hw
    · rw [pc_goto_of_ne hq, hpc] at hw
      exact .inr hw

theorem owes_goto {x : Pc P} {s₁ : State P} (hpc : s₁.pc = s.pc) (hf : s₁.fresh = s.fresh)
    (hp : (s.pc p).owes s.fresh ch = false) (r : P) (hr : (s.pc r).owes s.fresh ch = true) :
    ((s₁.goto p x).pc r).owes (s₁.goto p x).fresh ch = true := by
  have hrp : r ≠ p := by
    rintro rfl
    rw [hp] at hr
    cases hr
  rw [pc_goto_of_ne hrp, hpc]
  exact hf ▸ hr

/-- After `wakeup1` no one waits: a process that is falling asleep would have `ptable.lock`. -/
theorem not_waits_wakeup1 {b : Body} (hi : Paid s) (hp : s.pc p = .wakeup1 ch b) :
    ¬ (({ s.wake ch with ptable := none } : State P).goto p (.body b)).Waits q ch := by
  rintro (hsl | hfall)
  · simp [State.goto, State.wake] at hsl
  · by_cases hqp : q = p
    · rw [hqp, pc_goto] at hfall
      cases hfall
    · rw [pc_goto_of_ne hqp] at hfall
      have hq := hi.table q (Pc.inTable_of_falling hfall)
      rw [hi.table p (by rw [hp]; rfl)] at hq
      exact hqp (Option.some.inj hq).symm

theorem Next.debt (hn : Next s p s' o) (hi : Paid s) (hg : paying s (.next p) = true)
    (hq : s'.Waits q ch) (hc : s'.holds ch = true) : ∃ r, (s'.pc r).owes s'.fresh ch = true := by
  cases hn with
  | @giveUp src i hp hlt hf hk =>
    -- Nothing is owed, so that nothing need be paid.
    have hfresh : s.fresh = false := by
      simp only [paying, hp, hlt, hf, decide_true, Bool.and_true, Bool.true_and] at hg
      rcases hk with hk | hk <;> simpa [hk] using hg
    refine hi.keep (fun q => waits_goto rfl rfl fun _ h => h) id (hi.owes_own (p := p) ?_ ?_) hq hc
    · rw [hp]
      rfl
    · rw [hp, hfresh]
      exact fun h => by cases h
  | put hp hb hf =>
    cases ch with
    | nread => exact ⟨p, by rw [pc_goto]; rfl⟩
    | nwrite =>
      refine hi.keep (fun q => waits_goto rfl rfl fun _ h => h) (fun _ => ?_)
        (hi.owes_own (p := p) (by rw [hp]; rfl) ?_) hq hc
      · show (!s.isFull || !s.readopen) = true
        rw [hf]
        rfl
      · rw [hp]
        simp [Pc.owes]
  | get hp he =>
    cases ch with
    | nwrite => exact ⟨p, by rw [pc_goto]; rfl⟩
    | nread =>
      refine hi.keep (fun q => waits_goto rfl rfl fun _ h => h) (fun _ => ?_)
        (hi.owes_own (p := p) (by rw [hp]; rfl) ?_) hq hc
      · show (!s.isEmpty || !s.writeopen) = true
        rw [he]
        rfl
      · rw [hp]
        simp [Pc.owes]
  | closeWrite hp =>
    cases ch with
    | nread => exact ⟨p, by rw [pc_goto]; rfl⟩
    | nwrite =>
      refine hi.keep (fun q => waits_goto rfl rfl fun _ h => h) id
        (owes_goto rfl rfl (by rw [hp]; rfl)) hq hc
  | closeRead hp =>
    cases ch with
    | nwrite => exact ⟨p, by rw [pc_goto]; rfl⟩
    | nread =>
      refine hi.keep (fun q => waits_goto rfl rfl fun _ h => h) id
        (owes_goto rfl rfl (by rw [hp]; rfl)) hq hc
  | block hp | finish hp =>
    refine hi.keep (fun q => waits_goto rfl rfl fun _ h => h) id
      (hi.owes_own (p := p) (by rw [hp]; rfl) ?_) hq hc
    rw [hp, pc_goto]
    intro ho
    have : ch = .nread := (by simpa [Pc.owes] using ho : _ ∧ _).2
    subst this
    rfl
  | copied hp =>
    refine hi.keep (fun q => waits_goto rfl rfl fun _ h => h) id
      (hi.owes_own (p := p) (by rw [hp]; rfl) ?_) hq hc
    rw [hp, pc_goto]
    intro ho
    have : ch = .nwrite := (by simpa [Pc.owes] using ho : _ ∧ _).2
    subst this
    rfl
  | wakeup hp =>
    refine hi.keep (fun q => waits_goto rfl rfl fun _ h => h) id
      (hi.owes_own (p := p) (by rw [hp]; rfl) ?_) hq hc
    rw [hp, pc_goto]
    exact id
  | @wakeup1 ch' b hp =>
    by_cases hch : ch' = ch
    · subst hch
      exact absurd hq (not_waits_wakeup1 hi hp)
    · refine hi.keep (fun q => waits_goto rfl rfl fun q hsl => ?_) id
        (hi.owes_own (p := p) (by rw [hp]; rfl) ?_) hq hc
      · simp only [State.wake] at hsl
        split at hsl
        · cases hsl
        · exact hsl
      · rw [hp]
        simp [Pc.owes, hch]
  | @sleep ch' b hp =>
    -- The one who falls asleep has seen that the condition does not hold.
    rcases hq with hsl | hfall
    · exact absurd (.inl hsl) (hi.not_waits_sleep hp hc)
    · by_cases hqp : q = p
      · rw [hqp, pc_goto] at hfall
        cases hfall
        have := hi.blocked p ch (by rw [hp]; rfl)
        rw [show s.holds ch = true from hc] at this
        cases this
      · rw [pc_goto_of_ne hqp] at hfall
        exact absurd (.inr hfall) (hi.not_waits_sleep hp hc)
  | @sched ch' b hp =>
    refine hi.keep (fun q hw => ?_) id (owes_goto rfl rfl (by rw [hp]; rfl)) hq hc
    by_cases hqp : q = p
    · subst hqp
      rcases hw with hsl | hfall
      · have hch : ch' = ch := by simpa [State.goto] using hsl
        exact .inr (by rw [hp, ← hch]; rfl)
      · rw [pc_goto] at hfall
        cases hfall
    · rcases hw with hsl | hfall
      · exact .inl (by simpa [State.goto, hqp] using hsl)
      · rw [pc_goto_of_ne hqp] at hfall
        exact .inr hfall
  | @strike q' hp =>
    refine hi.keep (fun q => waits_goto rfl rfl fun q hsl => ?_) id
      (owes_goto rfl rfl (by rw [hp]; rfl)) hq hc
    by_cases hqq : q = q'
    · rw [hqq] at hsl
      simp at hsl
    · simpa [hqq] using hsl
  | written hp | refuse hp | read hp | closed hp =>
    refine hi.keep (fun q => waits_goto rfl rfl fun _ h => h) id
      (hi.owes_own (p := p) (by rw [hp]; rfl) ?_) hq hc
    rw [hp]
    exact fun h => by cases h
  | acquire hp | full hp | wait hp | found hp | asleep hp | kill hp =>
    exact hi.keep (fun q => waits_goto rfl rfl fun _ h => h) id
      (owes_goto rfl rfl (by rw [hp]; rfl)) hq hc

/-! ### The runs -/

theorem Paid.next (hi : Paid s) (hn : Next s p s' o) (hready : s.ready p = true)
    (hg : paying s (.next p) = true) : Paid s' := by
  obtain ⟨hlock, hlock'⟩ := hn.lock hready (hi.lock p)
  obtain ⟨htable, htable'⟩ := hn.table hready (hi.table p)
  have hne : ∀ q ≠ p, s'.pc q = s.pc q := fun q hq => hn.pc_of_ne hq
  refine ⟨owner_step hi.lock hne hlock hlock', owner_step hi.table hne htable htable', fun q b hb => ?_,
    fun q ch hb => ?_, fun q ch => hn.debt hi hg⟩
  · by_cases hqp : q = p
    · subst hqp
      exact hn.starts (hi.starts q) b hb
    · rw [hne q hqp] at hb
      exact hi.starts q b hb
  · by_cases hqp : q = p
    · subst hqp
      exact hn.blocked hi hb
    · rw [hne q hqp] at hb
      rcases hn.holds with hh | hin
      · rw [hh]
        exact hi.blocked q ch hb
      · exact absurd (hi.eq_of_lock hin (Pc.inLock_of_blocked hb)) hqp

theorem Paid.call {x : Pc P} (hi : Paid s) (hp : s.pc p = .out) (hl : x.inLock = false)
    (ht : x.inTable = false) (hx : ∀ b, x.resumes = some b → b.starts = true) : Paid (s.goto p x) := by
  have hne : ∀ q ≠ p, (s.goto p x).pc q = s.pc q := fun q hq => pc_goto_of_ne hq ..
  have hfall : x.falling = none := by
    by_contra hf
    obtain ⟨ch, hch⟩ := Option.ne_none_iff_exists'.1 hf
    rw [Pc.inTable_of_falling hch] at ht
    cases ht
  refine ⟨owner_step hi.lock hne (fun h => ?_) (.inl rfl), owner_step hi.table hne (fun h => ?_) (.inl rfl),
    fun q b hb => ?_, fun q ch hb => ?_, fun q ch hq hc => ?_⟩
  · rw [pc_goto, hl] at h
    cases h
  · rw [pc_goto, ht] at h
    cases h
  · by_cases hqp : q = p
    · rw [hqp, pc_goto] at hb
      exact hx b hb
    · rw [hne q hqp] at hb
      exact hi.starts q b hb
  · by_cases hqp : q = p
    · rw [hqp, pc_goto] at hb
      rw [Pc.inLock_of_blocked hb] at hl
      cases hl
    · rw [hne q hqp] at hb
      exact hi.blocked q ch hb
  · exact hi.keep (fun q => waits_goto hfall rfl fun _ h => h) id
      (owes_goto rfl rfl (by rw [hp]; rfl)) hq hc

theorem paid_init : Paid (pipe P).init := by
  refine ⟨fun q hq => ?_, fun q hq => ?_, fun q b hb => ?_, fun q ch hb => ?_, fun q ch hw => ?_⟩
  · cases hq
  · cases hq
  · cases hb
  · cases hb
  · rcases hw with hw | hw <;> cases hw

theorem Paid.step (hi : Paid s) (ha : (pipe P).Guarded paying s (a, o) s') : Paid s' := by
  obtain ⟨⟨hen, hx⟩, hg⟩ := ha
  cases a with
  | next p => exact hi.next (next_of_exec hx) hen hg
  | kill q r =>
    have hq : s.pc q = .out := by simpa [pipe, enabled] using hen
    cases hx
    exact hi.call hq rfl rfl fun b hb => by cases hb
  | pipewrite q src | piperead q n | pipeclose q writable =>
    have hq : s.pc q = .out ∧ s.freed = false := by simpa [pipe, enabled] using hen
    cases hx
    refine hi.call hq.1 rfl rfl fun b hb => ?_
    cases hb
    rfl

/-- **No one sleeps on a ready pipe.** In a run in which no `pipewrite` gives up with bytes for which
the readers have not been woken, whenever the lock of the pipe is free: who sleeps on `nread` sleeps
on an empty pipe that is open for writing, and who sleeps on `nwrite` on a full pipe that is open for
reading. -/
theorem no_sleeper_on_ready_pipe (hr : (pipe P).GuardedRuns paying h s) (hl : s.lock = none) (q : P) :
    (s.sleeping q = some .nread → s.nread = s.nwrite ∧ s.writeopen = true) ∧
      (s.sleeping q = some .nwrite → s.nwrite = s.nread + .ofNat 32 PIPESIZE ∧ s.readopen = true) := by
  have hi : Paid s := hr.invariant (P := fun _ => Paid) paid_init fun _ hi hst => hi.step hst
  have hidle : ∀ ch, s.sleeping q = some ch → s.holds ch = false := by
    intro ch hs
    by_contra hh
    exact hi.not_waits hl (by simpa using hh) (.inl hs)
  refine ⟨fun hs => ?_, fun hs => ?_⟩
  · simpa [State.holds, State.isEmpty] using hidle _ hs
  · simpa [State.holds, State.isFull] using hidle _ hs

/-- A reader sleeps on an empty pipe. -/
theorem no_sleeper_on_ready_pipe_empty :
    ∃ h, ∃ s : State Bool, (pipe Bool).GuardedRuns paying h s ∧ s.sleeping true = some .nread ∧
      s.nread = s.nwrite ∧ s.writeopen = true := by
  obtain ⟨s, hr, hs⟩ := (pipe Bool).exists_guarded paying
    [(.piperead true 1, .done), (.next true, .done), (.next true, .done), (.next true, .done),
      (.next true, .done)]
    (fun s => s.lock = none && s.sleeping true = some .nread) (by decide +kernel)
  simp only [Bool.and_eq_true, decide_eq_true_eq] at hs
  exact ⟨_, s, hr, hs.2, (no_sleeper_on_ready_pipe hr hs.1 true).1 hs.2⟩

/-! ### The writer that gives up -/

/-- A writer with the lock goes on as long as there is room. -/
theorem exists_fill {src : List Byte} {i : ℕ} (hr : (pipe P).Runs h s)
    (hp : s.pc p = .body (.write src i)) :
    ∀ k, i + k ≤ src.length → (s.nwrite - s.nread).toNat + k ≤ PIPESIZE →
      ∃ h' s', (pipe P).Runs h' s' ∧ s'.pc p = .body (.write src (i + k)) ∧
        (s'.nwrite - s'.nread).toNat = (s.nwrite - s.nread).toNat + k ∧
        s'.sleeping = s.sleeping ∧ s'.killed = s.killed := by
  intro k
  induction k with
  | zero => exact fun _ _ => ⟨h, s, hr, hp, rfl, rfl, rfl⟩
  | succ k ih =>
    intro hk hroom
    obtain ⟨h', s', hr', hp', hlen, hsl, hkill⟩ := ih (by omega) (by omega)
    obtain ⟨b, hb⟩ : ∃ b, src[i + k]? = some b := ⟨_, List.getElem?_eq_getElem (by omega)⟩
    have hlt : (s'.nwrite - s'.nread).toNat < PIPESIZE := by omega
    have hfull : s'.isFull = false := by
      rw [Bool.eq_false_iff, Ne, s'.isFull_iff]
      omega
    have hbody : s'.body p (.write src (i + k)) =
        ((s'.put b).goto p (.body (.write src (i + k + 1))), .accept b) := by
      simp [State.body, hb, hfull]
    have hnext : s'.next p = .ok ((s'.put b).goto p (.body (.write src (i + k + 1))), .accept b) := by
      rw [State.next, hp', ← hbody]
    have hst : (pipe P).Step s' (.next p, .accept b)
        ((s'.put b).goto p (.body (.write src (i + k + 1)))) :=
      ⟨by simp [pipe, enabled, State.ready, hp'], hnext⟩
    refine ⟨_, _, .step hr' hst, pc_goto .., ?_, hsl, hkill⟩
    show (s'.nwrite + 1 - s'.nread).toNat = _
    rw [toNat_succ_sub (by unfold PIPESIZE at hlt; omega), hlen]
    omega

/-- A killed writer of more than `PIPESIZE` bytes that has got the lock of an empty pipe fills it
and gives up, and those who sleep go on sleeping. -/
theorem exists_giveUp {src : List Byte} (hr : (pipe P).Runs h s) (hp : s.pc p = .body (.write src 0))
    (hkill : s.killed p = true) (hempty : s.nwrite = s.nread) (hlen : PIPESIZE < src.length) :
    ∃ h' s', (pipe P).Runs h' s' ∧ s'.lock = none ∧ s'.sleeping = s.sleeping ∧ s'.nread ≠ s'.nwrite := by
  obtain ⟨h', s', hr', hp', hlen', hsl, hkill'⟩ :=
    exists_fill hr hp PIPESIZE (by omega) (by rw [hempty]; simp)
  have hdiff : (s'.nwrite - s'.nread).toNat = PIPESIZE := by
    rw [hlen', hempty]
    simp
  have hfull : s'.isFull = true := s'.isFull_iff.2 hdiff
  have hne : s'.nread ≠ s'.nwrite := by
    intro he
    rw [he] at hdiff
    simp at hdiff
  obtain ⟨b, hb⟩ : ∃ b, src[0 + PIPESIZE]? = some b := ⟨_, List.getElem?_eq_getElem (by omega)⟩
  have hbody : s'.body p (.write src (0 + PIPESIZE)) = s'.leave p (-1) := by
    simp only [State.body, hb, hfull, if_true, hkill', hkill, or_true]
  have hnext : s'.next p = .ok (s'.leave p (-1)) := by
    rw [State.next, hp', ← hbody]
  have hst : (pipe P).Step s' (.next p, .ret (-1)) (s'.leave p (-1)).1 :=
    ⟨by simp [pipe, enabled, State.ready, hp'], hnext⟩
  exact ⟨_, _, .step hr' hst, rfl, hsl, hne⟩

/-- The reader `0` sleeps on the empty pipe, and the writer `1` has begun a call of more than
`PIPESIZE` bytes when `2` kills it. It fills the buffer, gives up, and leaves the reader asleep. -/
theorem reader_left_asleep :
    ∃ h, ∃ s : State (Fin 3), (pipe (Fin 3)).Runs h s ∧ s.lock = none ∧
      s.sleeping 0 = some .nread ∧ s.nread ≠ s.nwrite := by
  obtain ⟨s, hr, hs⟩ := (pipe (Fin 3)).exists_runs
    [(.piperead 0 1, .done), (.next 0, .done), (.next 0, .done), (.next 0, .done), (.next 0, .done),
      (.pipewrite 1 (List.replicate 513 0), .done), (.kill 2 1, .done), (.next 2, .done),
      (.next 2, .ret 0), (.next 1, .done)]
    (fun s => s.pc 1 = .body (.write (List.replicate 513 0) 0) && s.killed 1 && s.nwrite = s.nread &&
      s.sleeping 0 = some .nread) (by decide +kernel)
  simp only [Bool.and_eq_true, decide_eq_true_eq] at hs
  obtain ⟨⟨⟨hp, hkill⟩, hempty⟩, hsl⟩ := hs
  obtain ⟨h', s', hr', hlock, hsl', hne⟩ := exists_giveUp hr hp hkill hempty
    (by rw [List.length_replicate]; decide)
  exact ⟨h', s', hr', hlock, hsl' ▸ hsl, hne⟩

end Xv6.Pipe
