import Xv6.Process.Sleep
import Xv6.Lib.Fold

/-!
# No wakeup is lost

A process that goes to sleep for a condition has `lk` when it finds the condition false, and keeps
`lk` or `ptable.lock` until it is `SLEEPING` and has switched away; a process that makes the
condition true has `lk` and scans the table with both. So whoever waits while the condition holds is
still ahead of a scan.
-/

namespace Xv6.Process.Sleep

open Lib

variable {n : ℕ} {C D Ch : Type} [DecidableEq C] [DecidableEq Ch]

/-! ### What a place in the code says -/

section places

variable (lk : LockId) (chan : Ch)

/-- The locks that a process has at a place. -/
def Pc.holds : Pc Ch → LockId → Bool
  | .inside, l => l = lk
  | .sleep own _, l | .wakeup own _, l => own && l = lk
  | .unlock own _, l | .scan own _ _, l | .wakeEnd own, l => l = .ptable || own && l = lk
  | .setChan .., l | .setState .., l | .sched _, l | .tidy _, l | .relock _, l | .setRunnable, l
  | .yieldSched, l | .yieldEnd, l => l = .ptable
  | .out, _ | .acquire, _ | .asleep _, _ | .yield, _ | .yielded, _ => false

/-- Switched away. -/
def Pc.parked : Pc Ch → Bool
  | .asleep _ | .yielded => true
  | _ => false

/-- Between `acquire(lk)` and `release(lk)`, and not in `sleep`. -/
def Pc.inSection : Pc Ch → Bool
  | .inside | .wakeup true _ | .scan true _ _ | .wakeEnd true => true
  | _ => false

/-- On the way to sleep on the condition's channel. -/
def Pc.bound : Pc Ch → Bool
  | .sleep _ ch | .unlock _ ch | .setChan _ ch | .setState _ ch => ch = chan
  | _ => false

/-- `ptable.lock` is not taken twice, and only waiters sleep on the channel. -/
def Pc.sane : Pc Ch → Prop
  | .sleep own ch | .unlock own ch => (own = true → lk ≠ .ptable) ∧ (ch = chan → own = true)
  | .setChan own ch | .setState own ch => ch = chan → own = true
  | .relock own | .wakeup own _ | .wakeEnd own => own = true → lk ≠ .ptable
  | _ => True

/-- The state and the channel of a process at a place. -/
def Pc.fits : Pc Ch → ProcState → Option Ch → Prop
  | .setState _ ch, st, chn => st = .running ∧ chn = some ch
  | .sched _, st, _ => st = .sleeping
  | .asleep _, st, _ => st = .sleeping ∨ st = .runnable
  | .yieldSched, st, _ | .yielded, st, _ => st = .runnable
  | _, st, _ => st = .running

/-- The locks that CPU `c` has. -/
def State.holds (s : State n C D Ch) (c : C) (l : LockId) : Bool :=
  match s.cpu c with
  | .idle => false
  | .looking | .back => l = .ptable
  | .run p => (s.pc p).holds lk l

/-- The process waits for the condition: it sleeps on the channel, or is about to. -/
def State.waits (s : State n C D Ch) (p : Fin n) : Prop :=
  (s.pc p).bound chan = true ∨ s.state p = .sleeping ∧ s.chan p = some chan

end places

/-- **The invariant.** If somebody waits though the condition holds, the process that made it true is
still in the critical section, and its `wakeup` has not passed the waiter. -/
structure Inv (lk : LockId) (chan : Ch) (cond : D → Bool) (s : State n C D Ch) : Prop where
  lock : ∀ l c, s.lock l = some c ↔ s.holds lk c l = true
  inj : ∀ {c c' p}, s.cpu c = .run p → s.cpu c' = .run p → c = c'
  parked : ∀ {c p}, s.cpu c = .run p → (s.pc p).parked = false
  onCpu : ∀ {p}, (s.pc p).parked = false → ∃ c, s.cpu c = .run p
  sane : ∀ p, (s.pc p).sane lk chan
  fits : ∀ p, (s.pc p).fits (s.state p) (s.chan p)
  section_ : s.owed = true → ∃ p, (s.pc p).inSection = true
  owed : s.owed = true → cond s.data = true
  debt : ∀ p, s.waits chan p → cond s.data = true →
    s.owed = true ∧ ∀ q i, s.pc q = .scan true chan i → i ≤ p

variable {lk : LockId} {chan : Ch} {cond : D → Bool} {s s' : State n C D Ch} {c : C} {p : Fin n}

omit [DecidableEq Ch] in
theorem inSection_holds {x : Pc Ch} (h : x.inSection = true) : x.holds lk lk = true := by
  unfold Pc.inSection at h
  split at h
  · simp [Pc.holds]
  · simp [Pc.holds]
  · simp [Pc.holds]
  · simp [Pc.holds]
  · cases h

omit [DecidableEq C] in
/-- The lock has one holder: two processes that have it are the same. -/
theorem Inv.unique (hi : Inv lk chan cond s) {l : LockId} {p q : Fin n}
    (hp : (s.pc p).holds lk l = true) (hq : (s.pc q).holds lk l = true) : p = q := by
  have hpark : ∀ {x : Pc Ch}, x.holds lk l = true → x.parked = false := by
    intro x hx
    cases x <;> first | rfl | cases hx
  obtain ⟨c, hc⟩ := hi.onCpu (hpark hp)
  obtain ⟨c', hc'⟩ := hi.onCpu (hpark hq)
  have h₁ := (hi.lock l c).2 (by rw [State.holds, hc]; exact hp)
  have h₂ := (hi.lock l c').2 (by rw [State.holds, hc']; exact hq)
  rw [h₁] at h₂
  cases h₂
  rw [hc] at hc'
  cases hc'
  rfl

/-! ### Moves of a process -/

theorem Inv.lock_same (hi : Inv lk chan cond s) (hc : s.cpu c = .run p) {y : Pc Ch}
    (hy : ∀ l, y.holds lk l = (s.pc p).holds lk l) (l : LockId) (c' : C) :
    s.lock l = some c' ↔ if c' = c then y.holds lk l = true else s.lock l = some c' := by
  split
  · rename_i h
    rw [h, hi.lock, State.holds, hc, hy]
  · rfl

section locks

variable {lock : LockId → Option C} {l₀ : LockId} {A B : LockId → Prop}

/-- The locks of a CPU that has taken one. -/
theorem lock_taken (hA : ∀ l, lock l = some c ↔ A l) (h₀ : lock l₀ = none) (hB : ∀ l, B l ↔ l = l₀ ∨ A l)
    (l : LockId) (c' : C) : Function.update lock l₀ (some c) l = some c' ↔
      if c' = c then B l else lock l = some c' := by
  by_cases hl : l = l₀
  · rw [hl, Function.update_self, Option.some.injEq, hB, h₀]
    split
    · rename_i h
      exact ⟨fun _ => .inl rfl, fun _ => h.symm⟩
    · rename_i h
      exact ⟨fun e => absurd e.symm h, nofun⟩
  · rw [Function.update_of_ne hl]
    split
    · rename_i h
      rw [h, hA, hB]
      simp [hl]
    · rfl

/-- The locks of a CPU that has given one back. -/
theorem lock_given (hA : ∀ l, lock l = some c ↔ A l) (h₀ : lock l₀ = some c) (hB : ∀ l, B l ↔ l ≠ l₀ ∧ A l)
    (l : LockId) (c' : C) : Function.update lock l₀ none l = some c' ↔
      if c' = c then B l else lock l = some c' := by
  by_cases hl : l = l₀
  · rw [hl, Function.update_self, hB, h₀]
    split
    · exact ⟨nofun, fun e => absurd rfl e.1⟩
    · rename_i h
      exact ⟨nofun, fun e => absurd (Option.some.inj e).symm h⟩
  · rw [Function.update_of_ne hl]
    split
    · rename_i h
      rw [h, hA, hB]
      simp [hl]
    · rfl

end locks

omit [DecidableEq C] in
theorem Inv.lock_run (hi : Inv lk chan cond s) (hc : s.cpu c = .run p) (l : LockId) :
    s.lock l = some c ↔ (s.pc p).holds lk l = true := by
  rw [hi.lock, State.holds, hc]

theorem Inv.move (hi : Inv lk chan cond s) (hc : s.cpu c = .run p) {y : Pc Ch}
    (hpc : s'.pc = Function.update s.pc p y) (hcpu : s'.cpu = s.cpu)
    (hlock : ∀ l c', s'.lock l = some c' ↔
      if c' = c then y.holds lk l = true else s.lock l = some c')
    (hpark : y.parked = false) (hsane : y.sane lk chan)
    (hfits : ∀ q, (s'.pc q).fits (s'.state q) (s'.chan q))
    (hsec : s'.owed = true → ∃ q, (s'.pc q).inSection = true)
    (howed : s'.owed = true → cond s'.data = true)
    (hdebt : ∀ q, s'.waits chan q → cond s'.data = true →
      s'.owed = true ∧ ∀ r i, s'.pc r = .scan true chan i → i ≤ q) : Inv lk chan cond s' where
  lock l c' := by
    rw [hlock]
    split
    · rename_i h
      rw [h, State.holds, hcpu, hc, hpc]
      simp only [Function.update_self]
    · rename_i h
      rw [hi.lock, State.holds, State.holds, hcpu]
      split
      · rfl
      · rfl
      · rfl
      · rename_i q hq
        have hqp : q ≠ p := by
          rintro rfl
          exact h (hi.inj hq hc)
        rw [hpc, Function.update_of_ne hqp]
  inj := by
    intro c₁ c₂ q h₁ h₂
    rw [hcpu] at h₁ h₂
    exact hi.inj h₁ h₂
  parked := by
    intro c₁ q h₁
    rw [hcpu] at h₁
    rw [hpc, Function.update_apply]
    split
    · exact hpark
    · exact hi.parked h₁
  onCpu := by
    intro q hq
    rw [hcpu]
    rw [hpc, Function.update_apply] at hq
    split at hq
    · rename_i h
      exact ⟨c, h ▸ hc⟩
    · exact hi.onCpu hq
  sane q := by
    rw [hpc, Function.update_apply]
    split
    · exact hsane
    · exact hi.sane q
  fits := hfits
  section_ := hsec
  owed := howed
  debt := hdebt

omit [DecidableEq C] in
/-- A process that moves to another place, and not into the middle of a scan, has passed no waiter. -/
theorem Inv.debt_move (hi : Inv lk chan cond s) {y : Pc Ch} (hpc : ∀ q, s'.pc q = if q = p then y else s.pc q)
    (hscan : ∀ i, y = .scan true chan i → i = 0) {q : Fin n} (hold : s.waits chan q)
    (hcd : cond s.data = true) :
    s.owed = true ∧ ∀ r i, s'.pc r = .scan true chan i → i ≤ q := by
  obtain ⟨ho, hs⟩ := hi.debt q hold hcd
  refine ⟨ho, fun r i hr => ?_⟩
  rw [hpc] at hr
  split at hr
  · rw [hscan i hr]
    exact Nat.zero_le _
  · exact hs r i hr

omit [DecidableEq C] in
theorem Inv.section_move (hi : Inv lk chan cond s) {y : Pc Ch} (hpc : ∀ q, s'.pc q = if q = p then y else s.pc q)
    (hsec : (s.pc p).inSection = true → y.inSection = true) (ho : s.owed = true) :
    ∃ q, (s'.pc q).inSection = true := by
  obtain ⟨q, hq⟩ := hi.section_ ho
  refine ⟨q, ?_⟩
  rw [hpc]
  split
  · rename_i h
    exact hsec (h ▸ hq)
  · exact hq

omit [DecidableEq C] in
theorem waits_move {y : Pc Ch} (hpc : ∀ q, s'.pc q = if q = p then y else s.pc q)
    (hbound : y.bound chan = true → (s.pc p).bound chan = true) (hstate : s'.state = s.state)
    (hchan : s'.chan = s.chan) {q : Fin n} (hq : s'.waits chan q) : s.waits chan q := by
  unfold State.waits at hq
  rw [hpc, hstate, hchan] at hq
  rcases hq with hq | hq
  · split at hq
    · rename_i h
      exact .inl (h ▸ hbound hq)
    · exact .inl hq
  · exact .inr hq

/-- The process on a CPU goes to another place, and nothing but a lock changes with it. -/
theorem Inv.plain (hi : Inv lk chan cond s) (hc : s.cpu c = .run p) {y : Pc Ch}
    {lock : LockId → Option C}
    (hlock : ∀ l c', lock l = some c' ↔ if c' = c then y.holds lk l = true else s.lock l = some c')
    (hpark : y.parked = false) (hsane : y.sane lk chan) (hfits : y.fits (s.state p) (s.chan p))
    (hsec : s.owed = true → (s.pc p).inSection = true → y.inSection = true)
    (hbound : y.bound chan = true → (s.pc p).bound chan = true)
    (hscan : ∀ i, y = .scan true chan i → i = 0) :
    Inv lk chan cond ({ s with lock := lock }.goto p y) := by
  have hpc : ∀ q, ({ s with lock := lock }.goto p y).pc q = if q = p then y else s.pc q := fun q => by
    simp [State.goto, Function.update_apply]
  refine hi.move hc rfl rfl hlock hpark hsane (fun q => ?_) (fun ho => hi.section_move hpc (hsec ho) ho) hi.owed
    fun q hq hcd => hi.debt_move hpc hscan (waits_move hpc hbound rfl rfl hq) hcd
  rw [hpc]
  split
  · rename_i h
    rw [h]
    exact hfits
  · exact hi.fits q

omit [DecidableEq Ch] in
theorem acquire_ok {l : LockId} (h : s.acquire c l = .ok s') (hl : s.lock l = none ∨ s.lock l = some c) :
    s.lock l = none ∧ s' = { s with lock := Function.update s.lock l (some c) } := by
  unfold State.acquire at h
  split at h
  · cases h
  · rename_i hne
    cases h
    exact ⟨hl.resolve_right hne, rfl⟩

omit [DecidableEq Ch] in
theorem release_ok {l : LockId} (h : s.release c l = .ok s') :
    s.lock l = some c ∧ s' = { s with lock := Function.update s.lock l none } := by
  unfold State.release at h
  split at h
  · cases h
  · rename_i hl
    cases h
    exact ⟨not_not.1 hl, rfl⟩

omit [DecidableEq Ch] in
theorem sched_ok (h : s.sched c p = .ok s') :
    s.lock .ptable = some c ∧ s.lock .other ≠ some c ∧
      s' = { s with cpu := Function.update s.cpu c .back } := by
  unfold State.sched at h
  split at h
  · cases h
  · rename_i hl
    split at h
    · cases h
    · rename_i ho
      split at h
      · cases h
      · cases h
        exact ⟨not_not.1 hl, ho, rfl⟩

theorem Inv.switch (hi : Inv lk chan cond s) (hc : s.cpu c = .run p) {y : Pc Ch}
    (hx : ∀ l, (s.pc p).holds lk l = true ↔ l = .ptable) (hpark : y.parked = true)
    (hsane : y.sane lk chan) (hfits : y.fits (s.state p) (s.chan p)) (hsec : (s.pc p).inSection = false)
    (hbound : y.bound chan = false) (hscan : ∀ i, y ≠ .scan true chan i) :
    Inv lk chan cond ({ s with cpu := Function.update s.cpu c .back }.goto p y) := by
  set s' := ({ s with cpu := Function.update s.cpu c .back } : State n C D Ch).goto p y with hs'
  have hpc : ∀ q, s'.pc q = if q = p then y else s.pc q := fun q => by
    simp [hs', State.goto, Function.update_apply]
  have hcpu : ∀ c', s'.cpu c' = if c' = c then .back else s.cpu c' := fun c' => by
    simp [hs', State.goto, Function.update_apply]
  constructor
  case lock =>
    intro l c'
    rw [show s'.lock = s.lock from rfl, hi.lock]
    unfold State.holds
    rw [hcpu]
    by_cases h : c' = c
    · rw [if_pos h, h, hc]
      simp [hx]
    · rw [if_neg h]
      split
      · rfl
      · rfl
      · rfl
      · rename_i q hq
        rw [hpc, if_neg]
        rintro rfl
        exact h (hi.inj hq hc)
  case inj =>
    intro c₁ c₂ q h₁ h₂
    rw [hcpu] at h₁ h₂
    split at h₁
    · cases h₁
    · split at h₂
      · cases h₂
      · exact hi.inj h₁ h₂
  case parked =>
    intro c₁ q h₁
    rw [hcpu] at h₁
    split at h₁
    · cases h₁
    · rename_i h
      rw [hpc, if_neg]
      · exact hi.parked h₁
      · rintro rfl
        exact h (hi.inj h₁ hc)
  case onCpu =>
    intro q hq
    rw [hpc] at hq
    split at hq
    · rw [hpark] at hq
      cases hq
    · rename_i h
      obtain ⟨c', hc'⟩ := hi.onCpu hq
      refine ⟨c', ?_⟩
      rw [hcpu, if_neg, hc']
      rintro rfl
      rw [hc] at hc'
      cases hc'
      exact h rfl
  case sane =>
    intro q
    rw [hpc]
    split
    · exact hsane
    · exact hi.sane q
  case fits =>
    intro q
    rw [hpc]
    split
    · rename_i h
      rw [h]
      exact hfits
    · exact hi.fits q
  case section_ => exact hi.section_move hpc (by simp [hsec])
  case owed => exact hi.owed
  case debt =>
    intro q hq hcd
    exact hi.debt_move hpc (fun i h => absurd h (hscan i)) (waits_move hpc (by simp [hbound]) rfl rfl hq) hcd

omit [DecidableEq C] in
/-- A runnable process that a scheduler with the lock finds is not on a CPU. -/
theorem Inv.runnable_parked (hi : Inv lk chan cond s) (hc : s.cpu c = .looking)
    (hp : s.state p = .runnable) : (s.pc p).parked = true := by
  by_contra hpark
  obtain ⟨c', hc'⟩ := hi.onCpu (Bool.not_eq_true _ ▸ hpark)
  have hl : s.lock .ptable = some c := (hi.lock _ _).2 (by simp [State.holds, hc])
  have hpc : s.pc p = .yieldSched := by
    have hf := hi.fits p
    rw [hp] at hf
    generalize s.pc p = x at hf hpark
    cases x <;> simp_all [Pc.fits, Pc.parked]
  have hl' : s.lock .ptable = some c' := (hi.lock _ _).2 (by simp [State.holds, hc', hpc, Pc.holds])
  rw [hl] at hl'
  cases hl'
  rw [hc] at hc'
  cases hc'

theorem Inv.dispatch (hi : Inv lk chan cond s) (hc : s.cpu c = .looking)
    (hp : s.state p = .runnable) :
    Inv lk chan cond ({ s with
      cpu := Function.update s.cpu c (.run p)
      state := Function.update s.state p .running }.goto p (s.pc p).resume) := by
  have hpark := hi.runnable_parked hc hp
  have hoff : ∀ {c' q}, s.cpu c' = .run q → c' ≠ c ∧ q ≠ p := by
    intro c' q hq
    refine ⟨?_, ?_⟩ <;> rintro rfl
    · rw [hc] at hq
      cases hq
    · rw [hi.parked hq] at hpark
      cases hpark
  -- where the process goes on
  obtain ⟨hh, hpark', hsane, hrun, hsec, hbound, hscan⟩ :
      (∀ l, (s.pc p).resume.holds lk l = decide (l = .ptable)) ∧ (s.pc p).resume.parked = false ∧
      (s.pc p).resume.sane lk chan ∧ (∀ chn, (s.pc p).resume.fits .running chn) ∧
      (s.pc p).inSection = false ∧ (s.pc p).resume.bound chan = false ∧
      ∀ i, (s.pc p).resume ≠ .scan true chan i := by
    generalize s.pc p = x at hpark
    cases x <;> simp_all [Pc.parked, Pc.resume, Pc.holds, Pc.sane, Pc.fits, Pc.inSection, Pc.bound]
  set s' := ({ s with
      cpu := Function.update s.cpu c (.run p)
      state := Function.update s.state p .running } : State n C D Ch).goto p (s.pc p).resume with hs'
  have hpc : ∀ q, s'.pc q = if q = p then (s.pc p).resume else s.pc q := fun q => by
    simp [hs', State.goto, Function.update_apply]
  have hcpu : ∀ c', s'.cpu c' = if c' = c then .run p else s.cpu c' := fun c' => by
    simp [hs', State.goto, Function.update_apply]
  have hstate : ∀ q, s'.state q = if q = p then .running else s.state q := fun q => by
    simp [hs', State.goto, Function.update_apply]
  constructor
  case lock =>
    intro l c'
    rw [show s'.lock = s.lock from rfl, hi.lock]
    unfold State.holds
    rw [hcpu]
    by_cases h : c' = c
    · rw [if_pos h, h, hc]
      simp [hpc, hh]
    · rw [if_neg h]
      split
      · rfl
      · rfl
      · rfl
      · rename_i q hq
        rw [hpc, if_neg (hoff hq).2]
  case inj =>
    intro c₁ c₂ q h₁ h₂
    rw [hcpu] at h₁ h₂
    split at h₁
    · cases h₁
      split at h₂
      · simp_all
      · exact absurd rfl (hoff h₂).2
    · split at h₂
      · cases h₂
        exact absurd rfl (hoff h₁).2
      · exact hi.inj h₁ h₂
  case parked =>
    intro c₁ q h₁
    rw [hpc]
    split
    · exact hpark'
    · rename_i hq
      rw [hcpu] at h₁
      split at h₁
      · cases h₁
        exact absurd rfl hq
      · exact hi.parked h₁
  case onCpu =>
    intro q hq
    by_cases h : q = p
    · exact ⟨c, by rw [hcpu, if_pos rfl, h]⟩
    · rw [hpc, if_neg h] at hq
      obtain ⟨c', hc'⟩ := hi.onCpu hq
      exact ⟨c', by rw [hcpu, if_neg (hoff hc').1, hc']⟩
  case sane =>
    intro q
    rw [hpc]
    split
    · exact hsane
    · exact hi.sane q
  case fits =>
    intro q
    rw [hpc, hstate]
    split
    · exact hrun _
    · exact hi.fits q
  case section_ => exact hi.section_move hpc (by simp [hsec])
  case owed => exact hi.owed
  case debt =>
    intro q hq hcd
    have hold : s.waits chan q := by
      rcases hq with hq | ⟨hq, hch⟩
      · rw [hpc] at hq
        split at hq
        · rw [hbound] at hq
          cases hq
        · exact .inl hq
      · rw [hstate] at hq
        split at hq
        · cases hq
        · exact .inr ⟨hq, hch⟩
    exact hi.debt_move hpc (fun i h => absurd h (hscan i)) hold hcd

theorem Inv.scheduler (hi : Inv lk chan cond s) {y : Cpu n} (hx : ∀ q, s.cpu c ≠ .run q)
    (hy : ∀ q, y ≠ .run q) {lock : LockId → Option C}
    (hlock : ∀ l c', lock l = some c' ↔
      if c' = c then l = .ptable ∧ y ≠ .idle else s.lock l = some c') :
    Inv lk chan cond { s with cpu := Function.update s.cpu c y, lock := lock } := by
  have hcpu : ∀ {c' q}, Function.update s.cpu c y c' = .run q ↔ s.cpu c' = .run q := by
    intro c' q
    rw [Function.update_apply]
    split
    · rename_i h
      exact ⟨fun e => absurd e (hy q), fun e => absurd (h ▸ e) (hx q)⟩
    · rfl
  refine ⟨fun l c' => ?_, fun h₁ h₂ => hi.inj (hcpu.1 h₁) (hcpu.1 h₂), fun h => hi.parked (hcpu.1 h),
    fun hq => ?_, hi.sane, hi.fits, hi.section_, hi.owed, hi.debt⟩
  · rw [hlock]
    unfold State.holds
    simp only [Function.update_apply]
    split
    · cases y with
      | run q => exact absurd rfl (hy q)
      | idle | looking | back => simp
    · rw [hi.lock]
      rfl
  · obtain ⟨c', hc'⟩ := hi.onCpu hq
    exact ⟨c', hcpu.2 hc'⟩

/-! ### Moves that change the process table -/

/-- The process on a CPU sets its own channel and state on the way to another place. -/
theorem Inv.self (hi : Inv lk chan cond s) (hc : s.cpu c = .run p) {y : Pc Ch} (st : ProcState)
    (chn : Option Ch) (hy : ∀ l, y.holds lk l = (s.pc p).holds lk l) (hpark : y.parked = false)
    (hsane : y.sane lk chan) (hfits : y.fits st chn)
    (hsec : (s.pc p).inSection = true → y.inSection = true)
    (hwaits : y.bound chan = true ∨ st = .sleeping ∧ chn = some chan → s.waits chan p)
    (hscan : ∀ i, y ≠ .scan true chan i) :
    Inv lk chan cond ({ s with
      state := Function.update s.state p st, chan := Function.update s.chan p chn }.goto p y) := by
  set s' := ({ s with
      state := Function.update s.state p st
      chan := Function.update s.chan p chn } : State n C D Ch).goto p y with hs'
  have hpc : ∀ q, s'.pc q = if q = p then y else s.pc q := fun q => by
    simp [hs', State.goto, Function.update_apply]
  have hstate : ∀ q, s'.state q = if q = p then st else s.state q := fun q => by
    simp [hs', State.goto, Function.update_apply]
  have hchan : ∀ q, s'.chan q = if q = p then chn else s.chan q := fun q => by
    simp [hs', State.goto, Function.update_apply]
  refine hi.move hc rfl rfl (hi.lock_same hc hy) hpark hsane (fun q => ?_) (hi.section_move hpc hsec) hi.owed
    fun q hq hcd => ?_
  · rw [hpc, hstate, hchan]
    split
    · exact hfits
    · exact hi.fits q
  · have hold : s.waits chan q := by
      unfold State.waits at hq
      rw [hpc, hstate, hchan] at hq
      split at hq
      · rename_i h
        exact h ▸ hwaits hq
      · exact hq
    exact hi.debt_move hpc (fun i h => absurd h (hscan i)) hold hcd

/-- One turn of `wakeup1`, at a process that is not the caller: it has switched away, since the
caller has `ptable.lock`. -/
theorem Inv.wake {held : Bool} {ch : Ch} {i : ℕ} (hi : Inv lk chan cond s) (hc : s.cpu c = .run p)
    (hp : s.pc p = .scan held ch i) (hin : i < n) :
    Inv lk chan cond ((s.wake ch ⟨i, hin⟩).goto p (.scan held ch (i + 1))) := by
  set s' := (s.wake ch ⟨i, hin⟩).goto p (.scan held ch (i + 1)) with hs'
  have hpc : ∀ q, s'.pc q = if q = p then .scan held ch (i + 1) else s.pc q := fun q => by
    rw [hs']
    unfold State.wake
    split <;> simp [State.goto, Function.update_apply]
  have hchan : s'.chan = s.chan := by
    rw [hs']
    unfold State.wake
    split <;> rfl
  have hstate : ∀ q, s'.state q =
      if q = ⟨i, hin⟩ ∧ s.state q = .sleeping ∧ s.chan q = some ch then .runnable
      else s.state q := by
    intro q
    rw [hs']
    unfold State.wake
    by_cases hq : q = ⟨i, hin⟩
    · subst hq
      split
      · rename_i h
        simp [State.goto, h]
      · rename_i h
        rw [if_neg (fun h' => h h'.2)]
        rfl
    · split <;> simp [State.goto, hq]
  have hpt : (s.pc p).holds lk .ptable = true := by simp [hp, Pc.holds]
  have hsame : s'.cpu = s.cpu ∧ s'.lock = s.lock ∧ s'.owed = s.owed ∧ s'.data = s.data := by
    rw [hs']
    unfold State.wake
    split <;> exact ⟨rfl, rfl, rfl, rfl⟩
  obtain ⟨hcpu, hlock, howed, hdata⟩ := hsame
  refine hi.move hc (y := .scan held ch (i + 1)) ?_ hcpu ?_ rfl trivial (fun q => ?_) (fun ho => ?_)
    ?_ fun q hq hcd => ?_
  · funext q
    rw [hpc, Function.update_apply]
  · rw [hlock]
    exact hi.lock_same hc fun l => by rw [hp]; rfl
  · rw [hpc, hstate, hchan]
    by_cases hqp : q = p
    · -- the caller runs
      have hf := hi.fits p
      rw [hp] at hf
      have hrun : s.state p = .running := hf
      rw [if_pos hqp, if_neg (by rw [hqp, hrun]; simp), hqp, hrun]
      exact rfl
    · rw [if_neg hqp]
      split
      · rename_i h
        have hf := hi.fits q
        rw [h.2.1] at hf
        have hno : (s.pc q).holds lk .ptable = false := by
          by_contra hh
          exact hqp (hi.unique (Bool.not_eq_false _ ▸ hh) hpt)
        generalize s.pc q = x at hf hno
        cases x <;> simp_all [Pc.fits, Pc.holds]
      · exact hi.fits q
  · refine hi.section_move hpc ?_ (howed ▸ ho)
    rw [hp]
    cases held <;> exact id
  · rw [howed, hdata]
    exact hi.owed
  · rw [hdata] at hcd
    have hold : s.waits chan q ∧ (held = true → ch = chan → q ≠ ⟨i, hin⟩) := by
      rcases hq with hq | ⟨hq, hch⟩
      · rw [hpc] at hq
        split at hq
        · cases hq
        · rename_i hqp
          refine ⟨.inl hq, ?_⟩
          rintro rfl rfl -
          -- a process on its way to sleep has `lk` or `ptable.lock`, and the caller has both
          have hlk : (s.pc p).holds lk lk = true := by simp [hp, Pc.holds]
          have hsane := hi.sane q
          have hno : ∀ l, (s.pc p).holds lk l = true → (s.pc q).holds lk l = false := by
            intro l hl
            by_contra hh
            exact hqp (hi.unique (Bool.not_eq_false _ ▸ hh) hl)
          have h₁ := hno _ hlk
          have h₂ := hno _ hpt
          generalize s.pc q = x at hq hsane h₁ h₂
          cases x <;> simp_all [Pc.bound, Pc.sane, Pc.holds]
      · rw [hstate] at hq
        rw [hchan] at hch
        split at hq
        · cases hq
        · rename_i h
          exact ⟨.inr ⟨hq, hch⟩, fun _ he hqi => h ⟨hqi, hq, he ▸ hch⟩⟩
    obtain ⟨ho, hs⟩ := hi.debt q hold.1 hcd
    refine ⟨by rw [howed, ho], fun r j hr => ?_⟩
    rw [hpc] at hr
    split at hr
    · cases hr
      have hle := hs p i hp
      have hne : (q : ℕ) ≠ i := fun h => hold.2 rfl rfl (Fin.ext h)
      omega
    · exact hs r j hr

/-- `wakeup1` is through: nobody waits for the condition any more if the caller has made it true. -/
theorem Inv.wokenUp {held : Bool} {ch : Ch} {i : ℕ} (hi : Inv lk chan cond s)
    (hc : s.cpu c = .run p) (hp : s.pc p = .scan held ch i) (hin : ¬ i < n) :
    Inv lk chan cond ({ s with owed := s.owed && !(held && ch = chan) }.goto p
      (if held ∧ lk = LockId.ptable then .inside else .wakeEnd held)) := by
  set y : Pc Ch := if held ∧ lk = LockId.ptable then .inside else .wakeEnd held with hy
  set s' := ({ s with owed := s.owed && !(held && ch = chan) } : State n C D Ch).goto p y with hs'
  have hpc : ∀ q, s'.pc q = if q = p then y else s.pc q := fun q => by
    simp [hs', State.goto, Function.update_apply]
  have hrun : s.state p = .running := by
    have hf := hi.fits p
    rw [hp] at hf
    exact hf
  refine hi.move hc rfl rfl (hi.lock_same hc fun l => ?_) ?_ ?_ (fun q => ?_) (fun ho => ?_)
    (fun ho => ?_) fun q hq hcd => ?_
  · rw [hp, hy]
    split
    · rename_i h
      obtain ⟨rfl, rfl⟩ := h
      simp [Pc.holds]
    · rfl
  · rw [hy]
    split <;> rfl
  · rw [hy]
    split
    · trivial
    · rename_i h
      exact fun hh hl => h ⟨hh, hl⟩
  · rw [hpc]
    split
    · rename_i h
      have : y.fits .running (s.chan q) := by
        rw [hy]
        split <;> exact rfl
      rw [h] at this ⊢
      rw [show s'.state p = .running from hrun]
      exact this
    · exact hi.fits q
  · refine hi.section_move hpc (fun hq => ?_) (Bool.and_eq_true_iff.1 ho).1
    rw [hp] at hq
    cases held with
    | true =>
      rw [hy]
      split <;> rfl
    | false => cases hq
  · exact hi.owed (Bool.and_eq_true_iff.1 ho).1
  · have hyb : y.bound chan = false := by
      rw [hy]
      split <;> rfl
    obtain ⟨ho, hs⟩ := hi.debt q (waits_move hpc (by simp [hyb]) rfl rfl hq) hcd
    have hno : ¬ (held = true ∧ ch = chan) := by
      rintro ⟨rfl, rfl⟩
      have := hs p i hp
      omega
    refine ⟨?_, fun r j hr => ?_⟩
    · show (s.owed && !(held && decide (ch = chan))) = true
      rw [ho, Bool.true_and, Bool.not_eq_true', Bool.eq_false_iff]
      simpa using hno
    · rw [hpc] at hr
      split at hr
      · rw [hy] at hr
        split at hr <;> cases hr
      · exact hs r j hr

/-! ### Every instruction -/

section moved

variable (hi : Inv lk chan cond s) (hc : s.cpu c = .run p) {l₀ : LockId} {y : Pc Ch}
include hi hc

theorem Inv.acquire (hen : s.lock l₀ = none ∨ s.lock l₀ = some c)
    (h : (s.acquire c l₀ >>= fun s₁ => pure (s₁.goto p y)) = .ok s')
    (hy : ∀ l, y.holds lk l = true ↔ l = l₀ ∨ (s.pc p).holds lk l = true)
    (hpark : y.parked = false) (hsane : y.sane lk chan) (hfits : y.fits (s.state p) (s.chan p))
    (hsec : s.owed = true → (s.pc p).inSection = true → y.inSection = true)
    (hbound : y.bound chan = true → (s.pc p).bound chan = true)
    (hscan : ∀ i, y = .scan true chan i → i = 0) : Inv lk chan cond s' := by
  obtain ⟨s₁, h₁, h⟩ := bind_eq_ok.1 h
  obtain ⟨hl, rfl⟩ := acquire_ok h₁ hen
  cases h
  exact hi.plain hc (lock_taken (hi.lock_run hc) hl hy) hpark hsane hfits hsec hbound hscan

/-- The process gives a lock back on the way to another place. -/
theorem Inv.release (h : (s.release c l₀ >>= fun s₁ => pure (s₁.goto p y)) = .ok s')
    (hy : ∀ l, y.holds lk l = true ↔ l ≠ l₀ ∧ (s.pc p).holds lk l = true)
    (hpark : y.parked = false) (hsane : y.sane lk chan) (hfits : y.fits (s.state p) (s.chan p))
    (hsec : s.owed = true → (s.pc p).inSection = true → y.inSection = true)
    (hbound : y.bound chan = true → (s.pc p).bound chan = true)
    (hscan : ∀ i, y ≠ .scan true chan i) : Inv lk chan cond s' := by
  obtain ⟨s₁, h₁, h⟩ := bind_eq_ok.1 h
  obtain ⟨hl, rfl⟩ := release_ok h₁
  cases h
  exact hi.plain hc (lock_given (hi.lock_run hc) hl hy) hpark hsane hfits hsec hbound fun i hi => absurd hi (hscan i)

theorem Inv.sched (h : (s.sched c p >>= fun s₁ => pure (s₁.goto p y)) = .ok s')
    (hx : ∀ l, (s.pc p).holds lk l = true ↔ l = .ptable) (hpark : y.parked = true)
    (hsane : y.sane lk chan) (hfits : y.fits (s.state p) (s.chan p)) (hsec : (s.pc p).inSection = false)
    (hbound : y.bound chan = false) (hscan : ∀ i, y ≠ .scan true chan i) : Inv lk chan cond s' := by
  obtain ⟨s₁, h₁, h⟩ := bind_eq_ok.1 h
  obtain ⟨-, -, rfl⟩ := sched_ok h₁
  cases h
  exact hi.switch hc hx hpark hsane hfits hsec hbound hscan

variable {own : Bool} {ch : Ch}

theorem Inv.unlock (hp : s.pc p = .unlock own ch)
    (h : (do
      let s ← if own then s.release c lk else pure s
      pure (s.goto p (.setChan own ch))) = .ok s') : Inv lk chan cond s' := by
  have hsane := hi.sane p
  have hfits := hi.fits p
  rw [hp] at hfits hsane
  cases own with
  | true =>
    have hlk := hsane.1 rfl
    refine hi.release hc h (fun l => ?_) rfl hsane.2 hfits (by simp [hp, Pc.inSection])
      (by simp [hp, Pc.bound]) (by simp)
    simp only [hp, Pc.holds, decide_eq_true_eq, Bool.true_and, Bool.or_eq_true]
    constructor
    · rintro rfl
      exact ⟨hlk.symm, .inl rfl⟩
    · rintro ⟨hne, hl | hl⟩
      · exact hl
      · exact absurd hl hne
  | false =>
    cases h
    exact hi.plain hc (hi.lock_same hc fun l => by simp [hp, Pc.holds]) rfl hsane.2 hfits
      (by simp [hp, Pc.inSection]) (by simp [hp, Pc.bound]) (by simp)

theorem Inv.setChan (hp : s.pc p = .setChan own ch) : Inv lk chan cond
    ({ s with chan := Function.update s.chan p (some ch) }.goto p (.setState own ch)) := by
  have hsane := hi.sane p
  have hrun := hi.fits p
  rw [hp] at hrun hsane
  replace hrun : s.state p = .running := hrun
  have := hi.self hc (y := .setState own ch) (s.state p) (some ch)
    (fun l => by rw [hp]; rfl) rfl hsane ⟨hrun, rfl⟩ (by simp [hp, Pc.inSection]) (fun hw => ?_)
    (by simp)
  · rw [Function.update_eq_self] at this
    exact this
  · rcases hw with hw | hw
    · exact .inl (by rw [hp]; exact hw)
    · rw [hrun] at hw
      cases hw.1

theorem Inv.setState (hp : s.pc p = .setState own ch) : Inv lk chan cond
    ({ s with state := Function.update s.state p .sleeping }.goto p (.sched own)) := by
  have hfits := hi.fits p
  rw [hp] at hfits
  obtain ⟨-, hch⟩ := hfits
  have := hi.self hc (y := .sched own) .sleeping (s.chan p)
    (fun l => by rw [hp]; rfl) rfl trivial rfl (by simp [hp, Pc.inSection]) (fun hw => ?_) (by simp)
  · rw [Function.update_eq_self] at this
    exact this
  · rcases hw with hw | ⟨-, hw⟩
    · cases hw
    · rw [hch] at hw
      cases hw
      exact .inl (by simp [hp, Pc.bound])

theorem Inv.setRunnable (hp : s.pc p = .setRunnable) : Inv lk chan cond
    ({ s with state := Function.update s.state p .runnable }.goto p .yieldSched) := by
  have := hi.self hc (y := .yieldSched) .runnable (s.chan p)
    (fun l => by rw [hp]; rfl) rfl trivial rfl (by simp [hp, Pc.inSection])
    (by simp [Pc.bound]) (by simp)
  rw [Function.update_eq_self] at this
  exact this

theorem Inv.tidy (hp : s.pc p = .tidy own) : Inv lk chan cond
    ({ s with chan := Function.update s.chan p none }.goto p
      (if own ∧ lk = LockId.ptable then .inside else .relock own)) := by
  have hrun := hi.fits p
  rw [hp] at hrun
  replace hrun : s.state p = .running := hrun
  have hy : ∀ l, (if own ∧ lk = LockId.ptable then Pc.inside else Pc.relock own : Pc Ch).holds lk l =
      (s.pc p).holds lk l := by
    intro l
    rw [hp]
    split
    · rename_i hl
      simp [Pc.holds, hl.2]
    · rfl
  have := hi.self hc (s.state p) none hy (by split <;> rfl)
    (by
      split
      · trivial
      · rename_i hl
        exact fun ho hlk => hl ⟨ho, hlk⟩)
    (by split <;> exact hrun) (by simp [hp, Pc.inSection]) (fun hw => ?_)
    (by intro i; split <;> simp)
  · rw [Function.update_eq_self] at this
    exact this
  · rcases hw with hw | hw
    · split at hw <;> cases hw
    · cases hw.2

theorem Inv.wakeEnd {held : Bool} (hp : s.pc p = .wakeEnd held)
    (h : (s.release c .ptable >>= fun s₁ => pure (s₁.goto p (if held then .inside else .out))) =
      .ok s') : Inv lk chan cond s' := by
  have hsane := hi.sane p
  have hfits := hi.fits p
  rw [hp] at hfits hsane
  refine hi.release hc h (fun l => ?_) (by split <;> rfl) (by split <;> trivial)
    (by split <;> exact hfits) (by cases held <;> simp [hp, Pc.inSection])
    (by split <;> simp [Pc.bound]) (by intro i; split <;> simp)
  rw [hp]
  cases held with
  | true =>
    have hlk := hsane rfl
    simp only [if_true, Pc.holds, decide_eq_true_eq, Bool.true_and, Bool.or_eq_true]
    constructor
    · rintro rfl
      exact ⟨hlk, .inr rfl⟩
    · rintro ⟨hne, hl | hl⟩
      · exact absurd hl hne
      · exact hl
  | false => simp [Pc.holds]

end moved

theorem Inv.next (hi : Inv lk chan cond s) (hc : s.cpu c = .run p)
    (hen : ((s.pc p).wants lk).all (fun l => s.lock l = none ∨ s.lock l = some c) = true)
    (h : next lk chan s c p = .ok s') : Inv lk chan cond s' := by
  have hsane := hi.sane p
  have hfits := hi.fits p
  unfold Sleep.next at h
  cases hp : s.pc p <;> rw [hp] at h hen hfits hsane
  case out | inside | asleep | yielded =>
    cases h
    exact hi
  case acquire =>
    exact hi.acquire hc (of_decide_eq_true hen) h (fun l => by simp [hp, Pc.holds]) rfl trivial hfits
      (fun _ _ => rfl) (by simp [Pc.bound]) (by simp)
  case sleep own ch =>
    exact hi.acquire hc (of_decide_eq_true hen) h (fun l => by simp [hp, Pc.holds]) rfl hsane hfits
      (by simp [hp, Pc.inSection]) (by simp [hp, Pc.bound]) (by simp)
  case wakeup held ch =>
    exact hi.acquire hc (of_decide_eq_true hen) h (fun l => by simp [hp, Pc.holds]) rfl trivial hfits
      (by cases held <;> simp [hp, Pc.inSection]) (by simp [Pc.bound]) (by simp_all)
  case yield =>
    exact hi.acquire hc (of_decide_eq_true hen) h (fun l => by simp [hp, Pc.holds]) rfl trivial hfits
      (by simp [hp, Pc.inSection]) (by simp [Pc.bound]) (by simp)
  case unlock own ch => exact hi.unlock hc hp h
  case relock own =>
    exact hi.release hc h (fun l => by rw [hp]; split <;> simp [Pc.holds]) (by split <;> rfl)
      (by split <;> trivial) (by split <;> exact hfits) (by simp [hp, Pc.inSection])
      (by split <;> simp [Pc.bound]) (by intro i; split <;> simp)
  case wakeEnd held => exact hi.wakeEnd hc hp h
  case yieldEnd =>
    exact hi.release hc h (fun l => by simp [hp, Pc.holds]) rfl trivial hfits
      (by simp [hp, Pc.inSection]) (by simp [Pc.bound]) (by simp)
  case setChan own ch =>
    cases h
    exact hi.setChan hc hp
  case setState own ch =>
    cases h
    exact hi.setState hc hp
  case setRunnable =>
    cases h
    exact hi.setRunnable hc hp
  case tidy own =>
    cases h
    exact hi.tidy hc hp
  case sched own =>
    exact hi.sched hc h (fun l => by simp [hp, Pc.holds]) rfl trivial (.inl hfits)
      (by simp [hp, Pc.inSection]) rfl (by simp)
  case yieldSched =>
    exact hi.sched hc h (fun l => by simp [hp, Pc.holds]) rfl trivial hfits
      (by simp [hp, Pc.inSection]) rfl (by simp)
  case scan held ch i =>
    dsimp only at h
    split at h
    · rename_i hin
      cases h
      exact hi.wake hc hp hin
    · rename_i hin
      cases h
      exact hi.wokenUp hc hp hin

/-- The process inside goes to sleep for the condition, which it has just found false. -/
theorem Inv.wait (hi : Inv lk chan cond s) (hc : s.cpu c = .run p) (hp : s.pc p = .inside)
    (hcd : cond s.data = false) : Inv lk chan cond (s.goto p (sleepPc lk true chan)) := by
  have hpc : ∀ q, (s.goto p (sleepPc lk true chan)).pc q =
      if q = p then sleepPc lk true chan else s.pc q := fun q => by
    simp [State.goto, Function.update_apply]
  have hrun : s.state p = .running := by
    have hf := hi.fits p
    rw [hp] at hf
    exact hf
  have hno : s.owed = false := by
    by_contra ho
    have := hi.owed (Bool.not_eq_false _ ▸ ho)
    rw [hcd] at this
    cases this
  refine hi.move hc rfl rfl (hi.lock_same hc fun l => ?_) ?_ ?_ (fun q => ?_) (fun ho => ?_) hi.owed
    fun q _ h => ?_
  · rw [hp]
    unfold sleepPc
    split
    · rename_i h
      simp [Pc.holds, h.2]
    · simp [Pc.holds]
  · unfold sleepPc
    split <;> rfl
  · unfold sleepPc
    split
    · exact fun _ => rfl
    · rename_i h
      exact ⟨fun _ hl => h ⟨rfl, hl⟩, fun _ => rfl⟩
  · rw [hpc]
    split
    · rename_i h
      rw [h]
      unfold sleepPc
      split <;> exact hrun
    · exact hi.fits q
  · exact absurd ho (by rw [show (s.goto p _).owed = s.owed from rfl, hno]; simp)
  · exact absurd h (by rw [show (s.goto p _).data = s.data from rfl, hcd]; simp)

omit [DecidableEq C] in
theorem Inv.write (hi : Inv lk chan cond s) (hp : s.pc p = .inside) (d : D) :
    Inv lk chan cond { s with data := d, owed := cond d && (s.owed || !cond s.data) } := by
  refine ⟨hi.lock, hi.inj, hi.parked, hi.onCpu, hi.sane, hi.fits, fun _ => ⟨p, by rw [hp]; rfl⟩,
    fun ho => (Bool.and_eq_true_iff.1 ho).1, fun q hq hd => ⟨?_, fun r i hr => ?_⟩⟩
  · have hd : cond d = true := hd
    show (cond d && (s.owed || !cond s.data)) = true
    rw [hd, Bool.true_and]
    cases hcd : cond s.data with
    | false => simp
    | true => rw [(hi.debt q hq hcd).1, Bool.true_or]
  · -- nobody else has `lk`
    have hr : s.pc r = .scan true chan i := hr
    have := hi.unique (l := lk) (p := p) (q := r) (by simp [hp, Pc.holds]) (by simp [hr, Pc.holds])
    rw [← this, hp] at hr
    cases hr

theorem Inv.instr_run {i : Instr n D Ch} (hi : Inv lk chan cond s) (hc : s.cpu c = .run p)
    (hen : enabled lk chan s (c, i) = true) (hx : instr lk chan cond s c i = .ok s') :
    Inv lk chan cond s' := by
  have hfits := hi.fits p
  simp only [Sleep.instr, hc] at hx
  cases i with
  | enter =>
    simp only [enabled, hc, decide_eq_true_eq] at hen
    cases hx
    rw [hen] at hfits
    exact hi.plain hc (hi.lock_same hc fun l => by rw [hen]; rfl) rfl trivial hfits
      (by simp [hen, Pc.inSection]) (by simp [Pc.bound]) (by simp)
  | yield =>
    simp only [enabled, hc, decide_eq_true_eq] at hen
    cases hx
    rw [hen] at hfits
    exact hi.plain hc (hi.lock_same hc fun l => by rw [hen]; rfl) rfl trivial hfits
      (by simp [hen, Pc.inSection]) (by simp [Pc.bound]) (by simp)
  | wakeup ch =>
    simp only [enabled, hc, Bool.or_eq_true, decide_eq_true_eq] at hen
    cases hx
    unfold wakeupPc
    rcases hen with hen | hen <;> rw [hen] at hfits
    · exact hi.plain hc (hi.lock_same hc fun l => by simp [hen, Pc.holds]) (by simp [hen, Pc.parked])
        (by simp [hen, Pc.sane]) (by simpa [hen, Pc.fits] using hfits) (by simp [hen, Pc.inSection])
        (by simp [hen, Pc.bound]) (by simp [hen])
    · refine hi.plain hc (hi.lock_same hc fun l => ?_) ?_ ?_ ?_ ?_ ?_ ?_ <;>
        simp only [hen, decide_true, true_and] <;> split
      · rename_i h
        simp [Pc.holds, h]
      · simp [Pc.holds]
      all_goals simp_all [Pc.parked, Pc.sane, Pc.inSection, Pc.bound, Pc.fits]
  | sleep ch =>
    simp only [enabled, hc, Bool.and_eq_true, Bool.or_eq_true, decide_eq_true_eq] at hen
    obtain ⟨hch, hen⟩ := hen
    cases hx
    unfold sleepPc
    rcases hen with hen | ⟨hen, ho⟩ <;> rw [hen] at hfits
    · exact hi.plain hc (hi.lock_same hc fun l => by simp [hen, Pc.holds]) (by simp [hen, Pc.parked])
        (by simp [hen, Pc.sane, hch]) (by simpa [hen, Pc.fits] using hfits) (by simp [hen, Pc.inSection])
        (by simp [hen, Pc.bound, hch]) (by simp [hen])
    · refine hi.plain hc (hi.lock_same hc fun l => ?_) ?_ ?_ ?_ ?_ ?_ ?_ <;>
        simp only [hen, decide_true, true_and] <;> split
      · rename_i h
        simp [Pc.holds, h]
      · simp [Pc.holds]
      all_goals simp_all [Pc.parked, Pc.sane, Pc.inSection, Pc.bound, Pc.fits]
  | wait =>
    simp only [enabled, hc, decide_eq_true_eq] at hen
    cases hx
    cases hcd : cond s.data with
    | true => simpa [hcd] using hi
    | false => simpa [hcd] using hi.wait hc hen hcd
  | write d =>
    simp only [enabled, hc, decide_eq_true_eq] at hen
    cases hx
    exact hi.write hen d
  | leave =>
    simp only [enabled, hc, Bool.and_eq_true, decide_eq_true_eq, Bool.not_eq_true'] at hen
    rw [hen.1] at hfits
    exact hi.release hc hx (fun l => by simp [hen.1, Pc.holds]) rfl trivial hfits
      (by simp [hen.2]) (by simp [Pc.bound]) (by simp)
  | next =>
    simp only [enabled, hc, Bool.and_eq_true] at hen
    exact hi.next hc hen.2 hx
  | dispatch | giveUp => cases hx

theorem Inv.instr {i : Instr n D Ch} (hi : Inv lk chan cond s)
    (hen : enabled lk chan s (c, i) = true) (hx : instr lk chan cond s c i = .ok s') :
    Inv lk chan cond s' := by
  cases hc : s.cpu c with
  | run p => exact hi.instr_run hc hen hx
  | idle =>
    cases i with
    | next =>
      simp only [enabled, hc, Bool.or_eq_true, decide_eq_true_eq] at hen
      simp only [Sleep.instr, hc, bind_eq_ok] at hx
      obtain ⟨s₂, h₂, hx⟩ := hx
      obtain ⟨hl, rfl⟩ := acquire_ok h₂ hen
      cases hx
      exact hi.scheduler (by simp [hc]) (by simp)
        (lock_taken (fun l => hi.lock l c) hl fun l => by simp [State.holds, hc])
    | _ => simp [Sleep.instr, hc] at hx
  | back =>
    cases i with
    | next =>
      simp only [Sleep.instr, hc] at hx
      cases hx
      refine hi.scheduler (by simp [hc]) (by simp) fun l c' => ?_
      split
      · rename_i h
        rw [h, hi.lock]
        simp [State.holds, hc]
      · rfl
    | _ => simp [Sleep.instr, hc] at hx
  | looking =>
    cases i with
    | dispatch p =>
      simp only [enabled, hc, Bool.and_eq_true, decide_eq_true_eq] at hen
      simp only [Sleep.instr, hc] at hx
      cases hx
      exact hi.dispatch hc hen.2
    | giveUp =>
      simp only [Sleep.instr, hc, bind_eq_ok] at hx
      obtain ⟨s₂, h₂, hx⟩ := hx
      obtain ⟨hl, rfl⟩ := release_ok h₂
      cases hx
      exact hi.scheduler (by simp [hc]) (by simp)
        (lock_given (fun l => hi.lock l c) hl fun l => by simp [State.holds, hc])
    | _ => simp [Sleep.instr, hc] at hx

omit [DecidableEq C] in
theorem Inv.init (d : D) : Inv lk chan cond ({ data := d } : State n C D Ch) where
  lock l c := ⟨nofun, nofun⟩
  inj := nofun
  parked := nofun
  onCpu := nofun
  sane _ := trivial
  fits _ := rfl
  section_ := nofun
  owed := nofun
  debt p hp := by
    rcases hp with hp | hp
    · cases hp
    · cases hp.1

/-- **The handshake of `sleep` and `wakeup`.** In every run of any number of waiters and wakers on
any number of CPUs, no state in which `lk` and `ptable.lock` are free has a process sleeping on the
channel while the condition holds. -/
theorem no_lost_wakeup {d : D} {h : List ((C × Instr n D Ch) × Unit)}
    (hr : (machine lk chan cond d).Runs h s) (hlk : s.lock lk = none)
    (p : Fin n) (hp : s.state p = .sleeping) (hch : s.chan p = some chan) : cond s.data = false := by
  have hi : Inv lk chan cond s := by
    refine hr.invariant (P := fun _ s => Inv lk chan cond s) (Inv.init d) ?_
    rintro h s ⟨⟨c, i⟩, o⟩ s' - hi ⟨hen, hx⟩
    obtain ⟨s₁, hx, hs₁⟩ := bind_eq_ok.1 hx
    cases hs₁
    exact hi.instr hen hx
  by_contra hcd
  obtain ⟨ho, -⟩ := hi.debt p (.inr ⟨hp, hch⟩) (Bool.not_eq_false _ ▸ hcd)
  -- whoever owes the wakeup has `lk`
  obtain ⟨q, hq⟩ := hi.section_ ho
  have hpark : (s.pc q).parked = false := by
    generalize s.pc q = x at hq
    cases x <;> first | rfl | cases hq
  obtain ⟨c, hc⟩ := hi.onCpu hpark
  have hl := (hi.lock lk c).2 (by rw [State.holds, hc]; exact inSection_holds hq)
  rw [hlk] at hl
  cases hl

/-- A process waits for a number to be positive; another raises it, wakes the channel, and the
first takes the number down again and waits once more. -/
def waitTwice : List ((Fin 2 × Instr 2 ℕ Unit) × Unit) :=
  [((0, .next), ()), ((0, .dispatch 0), ()), ((0, .next), ()), ((1, .next), ()),
    ((1, .dispatch 1), ()), ((1, .next), ()), ((0, .enter), ()), ((0, .next), ()), ((0, .wait), ()),
    ((1, .enter), ()), ((0, .next), ()), ((0, .next), ()), ((1, .next), ()), ((1, .write 1), ()),
    ((0, .next), ()), ((0, .next), ()), ((0, .next), ()), ((0, .next), ()), ((0, .giveUp), ()),
    ((1, .wakeup ()), ()), ((1, .next), ()), ((1, .next), ()), ((1, .next), ()), ((1, .next), ()),
    ((1, .next), ()), ((1, .leave), ()), ((0, .next), ()), ((0, .dispatch 0), ()), ((0, .next), ()),
    ((0, .next), ()), ((0, .next), ()), ((0, .write 0), ()), ((0, .wait), ()), ((0, .next), ()),
    ((0, .next), ()), ((0, .next), ()), ((0, .next), ()), ((0, .next), ())]

theorem no_lost_wakeup_twice :
    ∃ s : State 2 (Fin 2) ℕ Unit,
      (machine .other () (fun v => 0 < v) 0).Runs waitTwice.reverse s ∧
      (s.lock .other = none ∧ s.state 0 = .sleeping ∧ s.chan 0 = some ()) ∧
      decide (0 < s.data) = false := by
  obtain ⟨s, hr, hs⟩ := (machine .other () (fun v => 0 < v) 0).exists_runs waitTwice
    (fun s : State 2 (Fin 2) ℕ Unit => s.lock .other = none ∧ s.state 0 = .sleeping ∧
      s.chan 0 = some ()) (by decide +kernel)
  simp only [decide_eq_true_eq] at hs
  exact ⟨s, hr, hs, no_lost_wakeup hr hs.1 0 hs.2.1 hs.2.2⟩

end Xv6.Process.Sleep
