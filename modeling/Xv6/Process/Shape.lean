import Xv6.Process.Frame

/-!
# Who is where

The invariant that ties CPUs, the lock and the slots under construction together, for every
scheduler build: a process on a CPU is running unless it has just switched away, no process is on
two CPUs, and a slot that `fork` or `userinit` is filling belongs to nobody else.
-/

namespace Xv6.Process

open Lib

variable {C : Type} {b : Sched} {k k' : Kern C} {e : Event C}

/-- The shape of the states between two atomic pieces of code. -/
structure Shape (k : Kern C) : Prop where
  running : ∀ {c p}, k.cpu c = some p → k.lock ≠ .back c p → (k.proc p).state = .running
  resumed : ∀ {c p}, k.lock = .resumed c p → k.cpu c = some p
  back : ∀ {c p}, k.lock = .back c p → k.cpu c = some p
  cpu_inj : ∀ {c c' p}, k.cpu c = some p → k.cpu c' = some p → c = c'
  fork : ∀ {p np d}, (k.proc p).thread = .fork np d → (k.proc np).state = .embryo
  fork_inj : ∀ {p p' np d d'}, (k.proc p).thread = .fork np d → (k.proc p').thread = .fork np d' →
    p = p'
  boot : ∀ {p}, k.boot = .embryo p → (k.proc p).state = .embryo
  boot_fork : ∀ {p q d}, k.boot = .embryo p → (k.proc q).thread ≠ .fork p d

theorem Shape.init : Shape (Process.boot C) where
  running h := by cases h
  resumed h := by cases h
  back h := by cases h
  cpu_inj h := by cases h
  fork h := by cases h
  fork_inj h := by cases h
  boot h := by cases h
  boot_fork h := by cases h

/-- Nothing has moved: at most some sleeping processes have become runnable, and the lock may have
been released by a process that goes on. -/
structure Calm (k k' : Kern C) : Prop where
  cpu : ∀ c, k'.cpu c = k.cpu c
  boot : k'.boot = k.boot
  thread : ∀ q, (k'.proc q).thread = (k.proc q).thread
  state : ∀ q, (k'.proc q).state = (k.proc q).state ∨
    (k.proc q).state = .sleeping ∧ (k'.proc q).state = .runnable
  lock : k'.lock = k.lock ∨ k'.lock = .free ∧ ∀ c p, k.lock ≠ .back c p

theorem Shape.calm (hs : Shape k) (h : Calm k k') : Shape k' := by
  obtain ⟨h1, h2, h3, h4, h5⟩ := h
  obtain ⟨s1, s2, s3, s4, s5, s6, s7, s8⟩ := hs
  constructor <;> grind

/-! ### The moves -/

section moves

variable {c : C} {p np : ProcId} {f : Proc → Proc}

theorem Shape.leave (hs : Shape k) (hc : k.cpu c = some p) (hl : ∀ c p, k.lock ≠ .back c p)
    (hf : ∀ q, (f q).thread = q.thread) : Shape { k.setProc p f with lock := .back c p } := by
  obtain ⟨s1, s2, s3, s4, s5, s6, s7, s8⟩ := hs
  constructor <;> simp only [Kern.setProc_proc, Kern.setProc_cpu, Kern.setProc_boot] <;> grind

/-- The kernel thread of the process on a CPU goes on, and takes no slot it did not have. -/
theorem Shape.setThread (hs : Shape k) (hc : k.cpu c = some p) (hl : k.lock ≠ .back c p)
    {t : Thread} (ht : ∀ np d, t = .fork np d → ∃ d', (k.proc p).thread = .fork np d')
    (hf : ∀ q, (f q).thread = t ∧ (f q).state = q.state) : Shape (k.setProc p f) := by
  obtain ⟨s1, s2, s3, s4, s5, s6, s7, s8⟩ := hs
  constructor <;>
    simp only [Kern.setProc_proc, Kern.setProc_cpu, Kern.setProc_lock, Kern.setProc_boot] <;> grind

theorem Shape.take (hs : Shape k) (hl : k.lock = .free) (hp : (k.proc p).state = .unused)
    (hf : ∀ q, (f q).thread = .run ∧ (f q).state = .embryo) : Shape (k.setProc p f) := by
  obtain ⟨s1, s2, s3, s4, s5, s6, s7, s8⟩ := hs
  constructor <;>
    simp only [Kern.setProc_proc, Kern.setProc_cpu, Kern.setProc_lock, Kern.setProc_boot] <;> grind

theorem Shape.reap (hs : Shape k) (hl : ∀ c p, k.lock ≠ .back c p)
    (hp : (k.proc p).state = .zombie) :
    Shape { k.setProc p reap with lock := .free } := by
  obtain ⟨s1, s2, s3, s4, s5, s6, s7, s8⟩ := hs
  constructor <;> simp only [Kern.setProc_proc, Kern.setProc_cpu, Kern.setProc_boot, Process.reap]
    <;> grind

theorem Shape.own (hs : Shape k) (hc : k.cpu c = some p) (hl : k.lock = .free)
    (hnp : (k.proc np).state = .embryo) (hown : ∀ q d, (k.proc q).thread ≠ .fork np d)
    (hb : k.boot ≠ .embryo np) (hf : ∀ q, (f q).thread = .fork np false ∧ (f q).state = q.state) :
    Shape (k.setProc p f) := by
  obtain ⟨s1, s2, s3, s4, s5, s6, s7, s8⟩ := hs
  constructor <;>
    simp only [Kern.setProc_proc, Kern.setProc_cpu, Kern.setProc_lock, Kern.setProc_boot] <;> grind

/-- The slot a process has taken is given up or becomes a process. -/
theorem Shape.finish (hs : Shape k) (hc : k.cpu c = some p) (hl : k.lock ≠ .back c p) {d : Bool}
    (hp : (k.proc p).thread = .fork np d) (hf : ∀ q, (f q).thread = q.thread) :
    Shape ((k.setProc np f).setProc p fun q => { q with thread := .run }) := by
  obtain ⟨s1, s2, s3, s4, s5, s6, s7, s8⟩ := hs
  have hne : np ≠ p := by grind
  constructor <;>
    simp only [Kern.setProc_proc, Kern.setProc_cpu, Kern.setProc_lock, Kern.setProc_boot] <;> grind

theorem Shape.finishBoot (hs : Shape k) (hl : k.lock = .free) (hb : k.boot = .embryo p)
    (hf : ∀ q, (f q).thread = q.thread) : Shape { k.setProc p f with boot := .done } := by
  obtain ⟨s1, s2, s3, s4, s5, s6, s7, s8⟩ := hs
  constructor <;> simp only [Kern.setProc_proc, Kern.setProc_cpu, Kern.setProc_lock] <;> grind

/-- A CPU drops the process that has switched away from it. -/
theorem Shape.drop [DecidableEq C] (hs : Shape k) (hl : k.lock = .back c p) :
    Shape { k with cpu := Function.update k.cpu c none, lock := .free } := by
  obtain ⟨s1, s2, s3, s4, s5, s6, s7, s8⟩ := hs
  constructor <;> simp only [Function.update_apply] <;> grind

theorem Shape.dispatch [DecidableEq C] (hs : Shape k) (hl : k.lock = .free)
    (hp : (k.proc p).state = .runnable)
    (hf : ∀ q, (f q).thread = q.thread ∧ (f q).state = .running) :
    Shape { k.setProc p f with
      cpu := Function.update k.cpu c (some p), lock := .resumed c p } := by
  obtain ⟨s1, s2, s3, s4, s5, s6, s7, s8⟩ := hs
  constructor <;> simp only [Kern.setProc_proc, Kern.setProc_boot, Function.update_apply] <;> grind

end moves

/-! ### The pieces of code -/

section pieces

variable {c : C} {p : ProcId}

theorem Calm.refl (k : Kern C) : Calm k k :=
  ⟨fun _ => rfl, rfl, fun _ => rfl, fun _ => .inl rfl, .inl rfl⟩

/-- A change of one process that touches neither its state nor its kernel thread. -/
theorem Calm.setProc {f : Proc → Proc} (hf : ∀ q, (f q).thread = q.thread ∧ (f q).state = q.state) :
    Calm k (k.setProc p f) := by
  refine ⟨fun _ => rfl, rfl, fun q => ?_, fun q => .inl ?_, .inl rfl⟩ <;>
    rw [Kern.setProc_proc] <;> split <;> simp_all

theorem Stirred.calm (h : Stirred k k') : Calm k k' := by
  refine ⟨fun _ => by rw [h.1.cpu], h.1.boot, fun q => ?_, fun q => ?_, .inl h.1.lock⟩ <;>
    obtain ⟨par, hw | ⟨hs, t, a, hw⟩⟩ := h.2 q <;> rw [hw]
  · exact .inl rfl
  · exact .inr ⟨hs, rfl⟩

theorem Tallied.calm (h : Tallied k k') : Calm k k' := by
  refine ⟨fun _ => by rw [h.1.cpu], h.1.boot, fun q => ?_, fun q => .inl ?_, .inl h.1.lock⟩ <;>
    obtain ⟨i, a, t, ct, hq⟩ := h.2 q <;> rw [hq]

theorem Shape.release (hs : Shape k) (hl : ∀ c p, k.lock ≠ .back c p) :
    Shape { k with lock := .free } :=
  hs.calm ⟨fun _ => rfl, rfl, fun _ => rfl, fun _ => .inl rfl, .inr ⟨rfl, hl⟩⟩

theorem Shape.waitLoop {w : WaitKind} (hs : Shape k) (hc : k.cpu c = some p)
    (hl : ∀ c p, k.lock ≠ .back c p) : Shape (waitLoop w k c p).1 := by
  unfold Process.waitLoop
  split
  · rename_i z hz
    have hz := List.find?_some hz
    simp only [decide_eq_true_eq] at hz
    exact hs.reap hl hz.2
  · dsimp only
    split
    · exact hs.release hl
    · exact hs.leave hc hl fun _ => rfl

theorem Shape.resume (hs : Shape k) (hl : k.lock = .resumed c p) : Shape (resume k c p).1 := by
  have hb : ∀ c p, k.lock ≠ .back c p := by simp [hl]
  have hset : Shape (k.setProc p fun q => { q with chan := none }) :=
    hs.calm (.setProc fun _ => ⟨rfl, rfl⟩)
  unfold Process.resume
  split
  · exact hs.release hb
  · exact hs.release hb
  · exact hset.release hb
  · exact hset.waitLoop (hs.resumed hl) hb

theorem Shape.pass [DecidableEq C] {o : Out} (hs : Shape k) (hl : k.lock = .free) (h : Pass k c k' o) :
    Shape k' := by
  cases h with
  | rest h => exact (hs.calm h.calm).release (by simp [h.1.lock, hl])
  | dispatch h hp => exact (hs.calm h.calm).dispatch (h.1.lock.trans hl) hp fun _ => ⟨rfl, rfl⟩

theorem requeue_calm (h : requeue k p = .ok k') : Calm k k' ∧ SameRest k k' := by
  unfold requeue at h
  split at h
  · dsimp only at h
    obtain ⟨hr, hp⟩ := enqueue_frame h
    have hr' : SameRest k k' := by split at hr <;> exact hr
    refine ⟨⟨fun _ => by rw [hr'.cpu], hr'.boot, fun q => ?_, fun q => .inl ?_, .inl hr'.lock⟩, hr'⟩
    all_goals
      rw [hp]
      split <;> rw [Kern.setProc_proc] <;> split <;> simp_all
  · cases h
    exact ⟨.refl _, .refl _⟩

theorem Shape.back_step [DecidableEq C] {o : Out} (hs : Shape k) (hl : k.lock = .back c p)
    (h : Process.back b k c p = .ok (k', o)) : Shape k' := by
  have hd := hs.drop hl
  unfold Process.back at h
  dsimp only at h
  split at h
  · obtain ⟨rfl, rfl⟩ := Prod.mk.inj (Except.ok.inj h)
    exact hd.pass rfl (schedRR_pass _ c (p + 1))
  · split at h
    · cases h
    · rename_i k₁ h₁
      cases h
      obtain ⟨hc, hr⟩ := requeue_calm h₁
      exact hd.calm ⟨hc.cpu, hc.boot, hc.thread, hc.state, .inl rfl⟩
  · cases h
    exact hd

end pieces

/-! ### Every step keeps the shape -/

theorem allocproc_eq {p : ProcId} (h : allocproc k = some (p, k')) :
    (k.proc p).state = .unused ∧
      k' = { k.setProc p (embryo k) with nextpid := k.nextpid + 1 } := by
  unfold allocproc at h
  split at h
  · cases h
  · rename_i p hp
    cases h
    exact ⟨by simpa using List.find?_some hp, rfl⟩

theorem activate_frame {p : ProcId} (h : activate b k p = .ok k') :
    SameRest k k' ∧ k'.proc = (k.setProc p fun q => { q with state := .runnable }).proc := by
  unfold activate at h
  dsimp only at h
  split at h
  · obtain ⟨hr, hp⟩ := enqueue_frame h
    exact ⟨hr, hp⟩
  · cases h; exact ⟨rfl, rfl⟩

/-- The lock as a piece of code of the process on `c` finds it. -/
theorem lock_of_enabled [DecidableEq C] {a : ProcAct} {c : C} {p : ProcId} (hs : Shape k)
    (h : enabled b k (.proc c p a) = true) :
    k.cpu c = some p ∧ a.allowed (k.proc p).thread = true ∧ (a.locked = true → k.lock = .free) ∧
      k.lock ≠ .back c p ∧ (k.proc p).state = .running := by
  simp only [enabled, Bool.and_eq_true, decide_eq_true_eq] at h
  obtain ⟨⟨hc, hallow⟩, h⟩ := h
  have hl : (a.locked = true → k.lock = .free) ∧ k.lock ≠ .back c p := by
    cases hk : k.lock <;> grind [Lock.heldBy]
  exact ⟨hc, hallow, hl.1, hl.2, hs.running hc hl.2⟩

theorem Shape.exit {c : C} {p : ProcId} (hs : Shape k) (hc : k.cpu c = some p)
    (hl : k.lock = .free) (h : exit b k c p = .ok k') : Shape k' := by
  obtain ⟨k₁, hst, rfl⟩ := exit_frame h
  refine (hs.calm hst.calm).leave (by rw [hst.1.cpu, hc]) (by simp [hst.1.lock, hl]) fun _ => rfl

theorem kill_calm {pid : Word} {o : Out} (h : kill b k pid = .ok (k', o)) : Calm k k' := by
  rcases kill_cases h with ⟨rfl, -⟩ | ⟨p, -, -, h⟩
  · exact .refl _
  have hset : Calm k (k.setProc p fun q => { q with killed := true }) :=
    .setProc fun _ => ⟨rfl, rfl⟩
  rcases h with rfl | ⟨hs, h₁⟩
  · exact hset
  · have hw := (wake_frame (by simpa using hs) h₁).stirred.calm
    refine ⟨hw.cpu, hw.boot, fun q => (hw.thread q).trans (hset.thread q), fun q => ?_, hw.lock⟩
    rcases hset.state q with hq | hq <;> rcases hw.state q with hq' | hq' <;> grind

theorem Shape.execProc [DecidableEq C] {c : C} {p : ProcId} {a : ProcAct} {o : Out} (hs : Shape k)
    (he : enabled b k (.proc c p a) = true)
    (h : execProc b k c p a = .ok (k', o)) : Shape k' := by
  obtain ⟨hc, hallow, hfree, hnb, hrun⟩ := lock_of_enabled hs he
  have hcalm : ∀ {f : Proc → Proc}, (∀ q, (f q).thread = q.thread ∧ (f q).state = q.state) →
      Shape (k.setProc p f) := fun hf => hs.calm (.setProc hf)
  cases a with
  | yield =>
    cases h
    exact hs.leave hc (by simp [hfree rfl]) fun _ => rfl
  | sleep chan =>
    cases h
    exact hs.leave hc (by simp [hfree rfl]) fun _ => rfl
  | wait w =>
    obtain ⟨rfl, rfl⟩ := Prod.mk.inj (Except.ok.inj h)
    exact hs.waitLoop hc (by simp [hfree rfl])
  | exitBegin =>
    simp only [Process.execProc] at h
    split at h
    · cases h
    · cases h
      exact hs.setThread hc hnb (t := .exit) (by simp) fun _ => ⟨rfl, rfl⟩
  | exit =>
    obtain ⟨h₁, rfl⟩ := Process.execProc_exit h
    exact hs.exit hc (hfree rfl) h₁
  | forkAlloc =>
    simp only [Process.execProc] at h
    split at h
    · cases h; exact hs
    · rename_i np k₁ h₁
      cases h
      obtain ⟨hu, rfl⟩ := allocproc_eq h₁
      have hne : np ≠ p := by rintro rfl; simp [hrun] at hu
      have ht : Shape (k.setProc np (embryo k)) := hs.take (hfree rfl) hu fun _ => ⟨rfl, rfl⟩
      -- nobody has the slot: its old owner would have found it an embryo
      have hown : ∀ q d, ((k.setProc np (embryo k)).proc q).thread ≠ .fork np d := by
        intro q d hq
        rw [Kern.setProc_proc] at hq
        split at hq
        · simp [embryo] at hq
        · simp [hs.fork hq] at hu
      have hb : k.boot ≠ .embryo np := fun hb => by simp [hs.boot hb] at hu
      have hnp : ((k.setProc np (embryo k)).proc np).state = .embryo := by simp [embryo]
      have := ht.own (f := fun q => { q with thread := .fork np false }) hc (hfree rfl) hnp hown hb
        fun _ => ⟨rfl, rfl⟩
      exact ⟨this.running, this.resumed, this.back, this.cpu_inj, this.fork, this.fork_inj,
        this.boot, this.boot_fork⟩
  | forkFail =>
    obtain ⟨np, d, ht, rfl, rfl⟩ := Process.execProc_forkFail h
    exact hs.finish hc hnb ht fun _ => rfl
  | forkCopy =>
    obtain ⟨np, d, ht, rfl, rfl⟩ := Process.execProc_forkCopy h
    refine Shape.setThread (t := .fork np true) (hs.calm (.setProc fun _ => ⟨rfl, rfl⟩)) hc hnb
      ?_ fun _ => ⟨rfl, rfl⟩
    rintro np' d' h
    refine ⟨d, ?_⟩
    rw [Kern.setProc_proc]
    split <;> simp_all
  | fork =>
    obtain ⟨np, d, k₁, ht, h₁, rfl, rfl⟩ := Process.execProc_fork h
    obtain ⟨hr, hp⟩ := activate_frame h₁
    have := hs.finish (f := fun q => { q with state := .runnable }) hc hnb ht fun _ => rfl
    refine this.calm ⟨fun _ => by simp [hr.cpu], by simp [hr.boot], fun q => ?_,
      fun q => .inl ?_, .inl (by simp [hr.lock])⟩ <;>
    simp only [Kern.setProc_proc, hp]
  | kill pid => exact hs.calm (kill_calm h)
  | trapKill => cases h; exact hcalm fun _ => ⟨rfl, rfl⟩
  | setPriority n =>
    simp only [Process.execProc] at h
    split at h
    · cases h; exact hs
    · cases h; exact hcalm fun _ => ⟨rfl, rfl⟩
  | incPinfoTicks =>
    simp only [Process.execProc] at h
    split at h
    · cases h; exact hcalm fun _ => ⟨rfl, rfl⟩
    · cases h
  | punisher => cases h; exact hcalm fun _ => ⟨rfl, rfl⟩
  | incTimeslice => cases h; exact hcalm fun _ => ⟨rfl, rfl⟩

/-- **Every step keeps the shape.** -/
theorem Shape.step [DecidableEq C] (hs : Shape k) (h : Step b k e k') : Shape k' := by
  obtain ⟨a, o⟩ := e
  obtain ⟨he, hx⟩ := step_iff.1 h
  have hcalm : ∀ {k₁ : Kern C}, k₁.cpu = k.cpu → k₁.boot = k.boot → k₁.proc = k.proc →
      k₁.lock = k.lock → Shape k₁ := fun h1 h2 h3 h4 =>
    hs.calm ⟨fun _ => by rw [h1], h2, fun _ => by rw [h3], fun _ => .inl (by rw [h3]), .inl h4⟩
  cases a with
  | userinitAlloc =>
    simp only [enabled, Bool.and_eq_true, decide_eq_true_eq] at he
    obtain ⟨p, k₁, h₁, rfl, rfl⟩ := exec_userinitAlloc hx
    obtain ⟨hu, rfl⟩ := allocproc_eq h₁
    have ht : Shape (k.setProc p (embryo k)) := hs.take he.2 hu fun _ => ⟨rfl, rfl⟩
    refine ⟨ht.running, ht.resumed, ht.back, ht.cpu_inj, ht.fork, ht.fork_inj, ?_, ?_⟩
    · rintro q hq
      cases hq
      simp [embryo]
    · rintro q r d hq hr
      cases hq
      simp only [Kern.setProc_proc] at hr
      split at hr
      · simp [embryo] at hr
      · simp [hs.fork hr] at hu
  | userinit =>
    simp only [enabled, Bool.and_eq_true, decide_eq_true_eq] at he
    obtain ⟨p, k₁, hb, h₁, rfl, rfl⟩ := exec_userinit hx
    obtain ⟨hr, hp⟩ := activate_frame h₁
    have := hs.finishBoot (f := fun q => { q with state := .runnable }) he.2 hb fun _ => rfl
    exact this.calm ⟨fun _ => by simp [hr.cpu], rfl, fun q => by simp only [hp],
      fun q => .inl (by simp only [hp]), .inl (by simp [hr.lock])⟩
  | readTicks c => cases hx; exact hcalm rfl rfl rfl rfl
  | scheduler c =>
    simp only [enabled, Bool.and_eq_true, decide_eq_true_eq] at he
    have hseen : Shape { k with seen := Function.update k.seen c none } := hcalm rfl rfl rfl rfl
    exact hseen.pass he.1.2 (scheduler_pass hx)
  | resume c =>
    obtain ⟨p, hl, hx⟩ := exec_resume he hx
    obtain ⟨rfl, rfl⟩ := Prod.mk.inj hx
    exact hs.resume hl
  | back c =>
    obtain ⟨p, hl, hx⟩ := exec_back he hx
    exact hs.back_step hl hx
  | proc c p a => exact hs.execProc he hx
  | wakeup chan =>
    obtain ⟨h₁, rfl⟩ := exec_wakeup hx
    exact hs.calm (wakeup1_frame h₁).stirred.calm
  | tick => cases hx; exact hcalm rfl rfl rfl rfl
  | incRuntime =>
    cases hx
    refine hs.calm ⟨fun _ => rfl, rfl, fun q => ?_, fun q => .inl ?_, .inl rfl⟩ <;>
      simp only [Process.incRuntime] <;> split <;> rfl
  | wakeupTicks =>
    obtain ⟨k₁, h₁, rfl, rfl⟩ := exec_wakeupTicks hx
    have := (wakeup1_frame h₁).stirred.calm
    exact hs.calm ⟨this.cpu, this.boot, this.thread, this.state, this.lock⟩

/-- **In every run, every state reached has the shape.** -/
theorem Runs.shape [DecidableEq C] {h : List (Event C)} (hr : Runs b h k) : Shape k :=
  hr.invariant (P := fun _ k => Shape k) Shape.init fun _ hs hst => hs.step hst

end Xv6.Process
