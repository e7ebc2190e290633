import Xv6.Process.Family
import Xv6.Process.Turn

/-!
# `exit` and `wait` meet

Every piece of code keeps the family relations, so they hold in every state of every run. From them:
no process sleeps in `wait` or `waitx` next to a zombie child, every child is reaped at most once and
by its parent, and a process is running exactly if it is on one CPU.
-/

namespace Xv6.Process

open Lib

variable {C : Type} {b : Sched} {k k' : Kern C} {e : Event C}

/-! ### The pieces of code -/

section pieces

variable {c : C} {p : ProcId}

theorem Family.waitLoop {w : WaitKind} (hf : Family k) (hs : Shape k)
    (hrun : (k.proc p).state = .running) : Family (waitLoop w k c p).1 := by
  unfold Process.waitLoop
  split
  · rename_i z hz
    have hz := List.find?_some hz
    simp only [decide_eq_true_eq] at hz
    refine hf.slot (p := z) (f := Process.reap) (by rw [hz.2]; rfl) rfl rfl (.inr rfl) ?_ rfl rfl rfl
    intro r hr
    rw [hs.fork hr] at hz
    cases hz.2
  · rename_i hz
    dsimp only
    split
    · exact hf.release
    · refine hf.leave hrun (fun _ => ⟨rfl, rfl, rfl⟩) fun {w'} _ _ => ⟨rfl, fun q hq hqz => ?_⟩
      have := List.find?_eq_none.1 hz q (List.mem_finRange q)
      simp [hq, hqz] at this

theorem Family.resume (hf : Family k) (hs : Shape k) (hl : k.lock = .resumed c p) :
    Family (resume k c p).1 := by
  have hrun := hs.running (hs.resumed hl) (by simp [hl])
  have hset : Family (k.setProc p fun q => { q with chan := none }) :=
    hf.setProc (fun _ => ⟨rfl, rfl, rfl⟩) fun h => by
      rw [hrun] at h
      cases h
  unfold Process.resume
  split
  · exact hf.release
  · exact hf.release
  · exact hset.release
  · exact hset.waitLoop (hs.calm (.setProc fun _ => ⟨rfl, rfl⟩)) (by simpa using hrun)

theorem Family.tallied (hf : Family k) (h : Tallied k k') : Family k' :=
  hf.same h.1.boot h.1.initproc fun q => by
    obtain ⟨i, a, t, ct, hq⟩ := h.2 q
    rw [hq]
    exact ⟨rfl, rfl, rfl, fun _ => ⟨rfl, rfl⟩⟩

theorem Family.pass [DecidableEq C] {o : Out} (hf : Family k) (h : Pass k c k' o) : Family k' := by
  cases h with
  | rest h => exact (hf.tallied h).release
  | dispatch h hp => exact (hf.tallied h).switchTo hp

theorem requeue_same (h : requeue k p = .ok k') (q : ProcId) :
    (k'.proc q).state = (k.proc q).state ∧ (k'.proc q).thread = (k.proc q).thread ∧
      (k'.proc q).parent = (k.proc q).parent ∧ (k'.proc q).context = (k.proc q).context ∧
      (k'.proc q).chan = (k.proc q).chan := by
  unfold requeue at h
  split at h
  · dsimp only at h
    rw [(enqueue_frame h).2]
    split <;> rw [Kern.setProc_proc] <;> split <;> simp_all
  · cases h
    exact ⟨rfl, rfl, rfl, rfl, rfl⟩

theorem Family.back [DecidableEq C] {o : Out} (hf : Family k) (h : Process.back b k c p = .ok (k', o)) : Family k' := by
  have hd : Family { k with cpu := Function.update k.cpu c none, lock := .free } :=
    hf.same rfl rfl fun _ => ⟨rfl, rfl, rfl, fun _ => ⟨rfl, rfl⟩⟩
  unfold Process.back at h
  dsimp only at h
  split at h
  · obtain ⟨rfl, rfl⟩ := Prod.mk.inj (Except.ok.inj h)
    exact hd.pass (schedRR_pass _ c (p + 1))
  · split at h
    · cases h
    · rename_i k₁ h₁
      cases h
      obtain ⟨-, hr⟩ := requeue_calm h₁
      refine hd.same hr.boot hr.initproc fun q => ?_
      obtain ⟨h1, h2, h3, h4, h5⟩ := requeue_same h₁ q
      exact ⟨h1, h2, h3, fun _ => ⟨h4, h5⟩⟩
  · cases h
    exact hd

theorem Family.kill {pid : Word} {o : Out} (hf : Family k) (h : kill b k pid = .ok (k', o)) :
    Family k' := by
  rcases kill_cases h with ⟨rfl, -⟩ | ⟨p, -, -, h⟩
  · exact hf
  have hset : Family (k.setProc p fun q => { q with killed := true }) :=
    hf.setProc (fun _ => ⟨rfl, rfl, rfl⟩) fun _ => ⟨rfl, rfl⟩
  rcases h with rfl | ⟨hs, h₁⟩
  · exact hset
  · exact hset.woken (wake_frame (by simpa using hs) h₁)

end pieces

/-! ### Every step -/

theorem setProc_comm {p q : ProcId} (h : p ≠ q) (f g : Proc → Proc) :
    (k.setProc p f).setProc q g = (k.setProc q g).setProc p f := by
  unfold Kern.setProc
  simp only [Function.update_of_ne h, Function.update_of_ne h.symm, Function.update_comm h]

theorem setProc_setProc (p : ProcId) (f g : Proc → Proc) :
    (k.setProc p f).setProc p g = k.setProc p fun x => g (f x) := by
  unfold Kern.setProc
  simp only [Function.update_self, Function.update_idem]

/-- `fork` has copied the process: the child gets its parent. The thread of the caller lets go of the
child first and takes it back afterwards. -/
theorem Family.forkCopy {p np : ProcId} (hf : Family k) (hs : Shape k)
    (hrun : (k.proc p).state = .running) {d : Bool} (ht : (k.proc p).thread = .fork np d) :
    Family ((k.setProc np fun q => { q with parent := some p }).setProc p
      fun q => { q with thread := .fork np true }) := by
  have hnp := hs.fork ht
  have hne : np ≠ p := by
    rintro rfl
    rw [hrun] at hnp
    cases hnp
  have hi : k.initproc ≠ some np := by
    intro hi
    obtain ⟨i, hi', ha⟩ := hf.done (hf.boot_done (p := p) (by rw [hrun]; rfl))
    rw [hi] at hi'
    cases hi'
    rw [hnp] at ha
    cases ha
  have h₁ : Family (k.setProc p fun q => { q with thread := .run }) :=
    hf.setThread (t := .run) (fun _ => ⟨rfl, rfl, rfl, rfl, rfl⟩) (by simp) (by simp) (by simp)
  have h₂ := h₁.adopt (p := p) np (by rw [Kern.setProc_proc_ne _ _ _ hne, hnp]) hne hi (by
    intro r d' hr
    rw [Kern.setProc_proc] at hr
    split at hr
    · cases hr
    · rename_i hrp
      exact hrp (hs.fork_inj hr ht))
  have h₃ := h₂.setThread (p := p) (f := fun q => { q with thread := .fork np true })
    (t := .fork np true) (fun _ => ⟨rfl, rfl, rfl, rfl, rfl⟩) (by simp) (by simp) (by
      rintro q hq
      cases hq
      rw [Kern.setProc_proc_self])
  rw [setProc_comm hne.symm, setProc_setProc] at h₃
  exact h₃

theorem Family.execProc [DecidableEq C] {c : C} {p : ProcId} {a : ProcAct} {o : Out} (hf : Family k) (hs : Shape k)
    (he : enabled b k (.proc c p a) = true) (h : execProc b k c p a = .ok (k', o)) : Family k' := by
  obtain ⟨hc, hallow, hfree, hnb, hrun⟩ := lock_of_enabled hs he
  have hset : ∀ {f : Proc → Proc}, (∀ x : Proc, (f x).state = x.state ∧ (f x).thread = x.thread ∧
      (f x).parent = x.parent) → Family (k.setProc p f) := fun hx =>
    hf.setProc hx fun hsl => by
      rw [hrun] at hsl
      cases hsl
  have hdone := hf.boot_done (p := p) (by rw [hrun]; rfl)
  cases a with
  | yield =>
    cases h
    exact hf.leave hrun (fun _ => ⟨rfl, rfl, rfl⟩) fun hsl => by cases hsl
  | sleep chan =>
    cases h
    exact hf.leave hrun (fun _ => ⟨rfl, rfl, rfl⟩) fun _ hctx => by cases hctx
  | wait w =>
    obtain ⟨rfl, rfl⟩ := Prod.mk.inj (Except.ok.inj h)
    exact hf.waitLoop hs hrun
  | exitBegin =>
    simp only [Process.execProc] at h
    split at h
    · cases h
    · rename_i hi
      cases h
      have := hf.setThread (p := p) (f := fun q => { q with endTime := k.ticks, thread := .exit })
        (t := .exit) (fun _ => ⟨rfl, rfl, rfl, rfl, rfl⟩) (fun _ => hi) (by simp) (by simp)
      exact this
  | exit =>
    obtain ⟨h₁, rfl⟩ := Process.execProc_exit h
    exact hf.exit hrun (of_decide_eq_true hallow) h₁
  | forkAlloc =>
    simp only [Process.execProc] at h
    split at h
    · cases h
      exact hf
    · rename_i np k₁ h₁
      cases h
      obtain ⟨hu, rfl⟩ := allocproc_eq h₁
      have hslot : Family { k.setProc np (Process.embryo k) with nextpid := k.nextpid + 1 } :=
        hf.slot (f := Process.embryo k) (by rw [hu]; rfl) rfl (hf.unused hu) (.inl rfl)
          (fun r hr => by rw [hs.fork hr] at hu; cases hu) rfl rfl rfl
      refine hslot.setThread (t := .fork np false) (fun _ => ⟨rfl, rfl, rfl, rfl, rfl⟩) (by simp)
        ?_ (by simp)
      rintro q hq
      cases hq
      exact (congrArg Proc.parent (k.setProc_proc_self np (Process.embryo k))).trans (hf.unused hu)
  | forkFail =>
    obtain ⟨np, d, ht, rfl, rfl⟩ := Process.execProc_forkFail h
    rw [ht] at hallow
    obtain rfl : d = false := by
      cases d with
      | false => rfl
      | true => cases hallow
    have hslot : Family (k.setProc np fun q => { q with state := .unused }) :=
      hf.slot (f := fun q => { q with state := .unused }) (by rw [hs.fork ht]; rfl) rfl (hf.fork ht)
        (.inr rfl) (fun r hr => by
          rw [hs.fork_inj hr ht, ht] at hr
          cases hr) rfl rfl rfl
    exact hslot.setThread (t := .run) (fun _ => ⟨rfl, rfl, rfl, rfl, rfl⟩) (by simp) (by simp)
      (by simp)
  | forkCopy =>
    obtain ⟨np, d, ht, rfl, rfl⟩ := Process.execProc_forkCopy h
    exact hf.forkCopy hs hrun ht
  | fork =>
    obtain ⟨np, d, k₁, ht, h₁, rfl, rfl⟩ := Process.execProc_fork h
    rw [ht] at hallow
    obtain rfl : d = true := by
      cases d with
      | true => rfl
      | false => cases hallow
    obtain ⟨hr, hp⟩ := activate_frame h₁
    obtain ⟨i, hi, ha⟩ := hf.done hdone
    have hgrow : Family k₁ := hf.grow (hs.fork ht)
      (fun _ => ⟨p, hf.copied ht, by rw [hrun]; rfl⟩) hp hr.initproc
      ⟨i, hi, .inr ha⟩ (hr.boot.trans hdone)
    exact hgrow.setThread (t := .run) (fun _ => ⟨rfl, rfl, rfl, rfl, rfl⟩) (by simp) (by simp)
      (by simp)
  | kill pid => exact hf.kill h
  | trapKill =>
    cases h
    exact hset fun _ => ⟨rfl, rfl, rfl⟩
  | setPriority n =>
    simp only [Process.execProc] at h
    split at h
    · cases h
      exact hf
    · cases h
      exact hset fun _ => ⟨rfl, rfl, rfl⟩
  | incPinfoTicks =>
    simp only [Process.execProc] at h
    split at h
    · cases h
      exact hset fun _ => ⟨rfl, rfl, rfl⟩
    · cases h
  | punisher =>
    cases h
    exact hset fun _ => ⟨rfl, rfl, rfl⟩
  | incTimeslice =>
    cases h
    exact hset fun _ => ⟨rfl, rfl, rfl⟩

/-- **Every step keeps the family relations.** -/
theorem Family.step [DecidableEq C] (hf : Family k) (hs : Shape k) (h : Step b k e k') : Family k' := by
  obtain ⟨a, o⟩ := e
  obtain ⟨he, hx⟩ := step_iff.1 h
  have hsame : ∀ {k₁ : Kern C}, k₁.boot = k.boot → k₁.initproc = k.initproc →
      k₁.proc = k.proc → Family k₁ := fun h1 h2 h3 =>
    hf.same h1 h2 fun q => by
      rw [h3]
      exact ⟨rfl, rfl, rfl, fun _ => ⟨rfl, rfl⟩⟩
  cases a with
  | userinitAlloc =>
    simp only [enabled, Bool.and_eq_true, decide_eq_true_eq] at he
    obtain ⟨p, k₁, h₁, rfl, rfl⟩ := exec_userinitAlloc hx
    obtain ⟨hu, rfl⟩ := allocproc_eq h₁
    have hslot : Family (k.setProc p (Process.embryo k)) :=
      hf.slot (f := Process.embryo k) (by rw [hu]; rfl) rfl (hf.unused hu) (.inl rfl)
        (fun r hr => by rw [hs.fork hr] at hu; cases hu) rfl rfl rfl
    have hboot : (k.setProc p (Process.embryo k)).boot ≠ .done := by
      rw [Kern.setProc_boot, he.1]
      simp
    have hnone := hslot.booting hboot
    refine ⟨fun {q} hq => ?_, hslot.irrefl, hslot.asleep, fun {i} hi => ?_,
      fun {i} hi => ?_, (fun hb => by cases hb), fun _ => hnone, fun hb => ?_, hslot.unused,
      hslot.fork, hslot.copied⟩
    · rw [hnone] at hq
      cases hq
    · cases hi
      exact (congrArg Proc.parent (k.setProc_proc_self p (Process.embryo k))).trans (hf.unused hu)
    · cases hi
      rw [show ({ k.setProc p (Process.embryo k) with
        nextpid := k.nextpid + 1, initproc := some p, boot := .embryo p } : Kern C).proc p =
          Process.embryo k (k.proc p) from k.setProc_proc_self p _]
      simp [Process.embryo]
    · cases hb
      rfl
  | userinit =>
    obtain ⟨p, k₁, hb, h₁, rfl, rfl⟩ := exec_userinit hx
    obtain ⟨hr, hp⟩ := activate_frame h₁
    have hi := hf.embryo hb
    exact hf.grow (hs.boot hb) (fun h => absurd hi h) hp hr.initproc
      ⟨p, hi, .inl rfl⟩ rfl
  | readTicks c =>
    cases hx
    exact hsame rfl rfl rfl
  | scheduler c =>
    simp only [enabled, Bool.and_eq_true, decide_eq_true_eq] at he
    have hseen : Family { k with seen := Function.update k.seen c none } := hsame rfl rfl rfl
    exact hseen.pass (scheduler_pass hx)
  | resume c =>
    obtain ⟨p, hl, hx⟩ := exec_resume he hx
    obtain ⟨rfl, rfl⟩ := Prod.mk.inj hx
    exact hf.resume hs hl
  | back c =>
    obtain ⟨p, -, hx⟩ := exec_back he hx
    exact hf.back hx
  | proc c p a => exact hf.execProc hs he hx
  | wakeup chan =>
    obtain ⟨h₁, rfl⟩ := exec_wakeup hx
    exact hf.woken (wakeup1_frame h₁)
  | tick =>
    cases hx
    exact hsame rfl rfl rfl
  | incRuntime =>
    cases hx
    refine hf.same rfl rfl fun q => ?_
    simp only [Process.incRuntime]
    split <;> exact ⟨rfl, rfl, rfl, fun _ => ⟨rfl, rfl⟩⟩
  | wakeupTicks =>
    obtain ⟨k₁, h₁, rfl, rfl⟩ := exec_wakeupTicks hx
    have hw := hf.woken (wakeup1_frame h₁)
    exact hw.same rfl rfl fun q => ⟨rfl, rfl, rfl, fun _ => ⟨rfl, rfl⟩⟩

/-- **In every run, every state reached has the family relations.** -/
theorem Runs.family [DecidableEq C] {h : List (Event C)} (hr : Runs b h k) : Family k :=
  hr.invariant (P := fun _ k => Family k) Family.init fun hr hf hst => hf.step (Runs.shape hr) hst

/-! ### Who is on a CPU -/

/-- **One CPU per process.** Whenever the lock is free, a process is running exactly if one CPU has
it, and a CPU has no other; `wait` and `waitx` free the stack and the page directory of a process
that no CPU has. -/
theorem one_cpu [DecidableEq C] {h : List (Event C)} (hr : Runs b h k) :
    (k.lock = .free →
      (∀ p, (k.proc p).state = .running ↔ ∃! c, k.cpu c = some p) ∧
      ∀ c p, k.cpu c = some p → (k.proc p).state = .running) ∧
    ∀ e k' q pid times, Step b k e k' → e.2 = .reaped q pid times → ∀ c, k.cpu c ≠ some q := by
  have hs := Runs.shape hr
  refine ⟨fun hl => ?_, fun e k' q pid times hst he c hc => ?_⟩
  · have hon : ∀ c p, k.cpu c = some p → (k.proc p).state = .running := fun c p hc =>
      hs.running hc (by simp [hl])
    refine ⟨fun p => ⟨fun hp => ?_, fun ⟨c, hc, _⟩ => hon c p hc⟩, hon⟩
    obtain ⟨c, hc⟩ := (Runs.placed hr).cpu p hp
    exact ⟨c, hc, fun c' hc' => hs.cpu_inj hc' hc⟩
  · obtain ⟨hz, -, -, ⟨p, hw, -⟩, -⟩ := reaped_step hst he
    -- a zombie on a CPU has just switched away from it, and nobody else has the lock then
    have hl : k.lock = .back c q := by
      by_contra hl
      rw [hs.running hc hl] at hz
      cases hz
    have hen : enabled b k e.1 = true := hst.1
    unfold waiter at hw
    split at hw
    · rename_i heq
      rw [heq] at hen
      obtain ⟨-, -, hfree, -⟩ := lock_of_enabled hs hen
      rw [hfree rfl] at hl
      cases hl
    · rw [hl] at hw
      cases hw
    · cases hw

/-- A child on CPU 1 exits while its parent waits on CPU 0. -/
def reapEvents : List (Event (Fin 2)) :=
  [(.userinitAlloc, .alloc 0), (.userinit, .done), (.scheduler 0, .dispatch 0), (.resume 0, .done),
    (.proc 0 0 .forkAlloc, .alloc 1), (.proc 0 0 .forkCopy, .done), (.proc 0 0 .fork, .done),
    (.scheduler 1, .dispatch 1), (.resume 1, .done), (.proc 0 0 (.wait .wait), .asleep),
    (.back 0, .done), (.proc 1 1 .exitBegin, .done), (.proc 1 1 .exit, .done), (.back 1, .done),
    (.scheduler 0, .dispatch 0)]

theorem one_cpu_reap :
    ∃ k k' : Kern (Fin 2), Runs .mlfq reapEvents.reverse k ∧
      Step .mlfq k (.resume 0, .reaped 1 2 none) k' ∧ k.cpu 1 ≠ some 1 := by
  obtain ⟨k, hr, hk⟩ := (kernel .mlfq).exists_runs reapEvents
    (fun k => ((kernel .mlfq).step? k (.resume 0, .reaped 1 2 none)).isSome) (by decide +kernel)
  obtain ⟨k', hk'⟩ := Option.isSome_iff_exists.1 hk
  have hst := Machine.step?_step hk'
  exact ⟨k, k', hr, hst, (one_cpu hr).2 _ _ _ _ _ hst rfl 1⟩

/-! ### Who is reaped -/

/-- The event is `wait` or `waitx` freeing the slot `q`. -/
def reapsSlot (q : ProcId) : Event C → Bool
  | (_, .reaped r _ _) => r = q
  | _ => false

/-- How often the slot `q` has been reaped since it was last allocated. -/
def reaps (q : ProcId) : List (Event C) → ℕ
  | [] => 0
  | e :: h => if allocates q e then 0 else reaps q h + if reapsSlot q e then 1 else 0

theorem reapsSlot_iff {q : ProcId} : reapsSlot q e = true ↔ ∃ pid times, e.2 = .reaped q pid times := by
  obtain ⟨a, o⟩ := e
  cases o <;> simp [reapsSlot]

/-- A slot in use has not been reaped since it was allocated. -/
theorem Runs.reaps_le [DecidableEq C] {q : ProcId} {h : List (Event C)} (hr : Runs b h k) :
    reaps q h ≤ 1 ∧ ((k.proc q).state ≠ .unused → reaps q h = 0) := by
  refine hr.invariant (P := fun h k => reaps q h ≤ 1 ∧ ((k.proc q).state ≠ .unused → reaps q h = 0))
    ⟨Nat.zero_le _, fun _ => rfl⟩ ?_
  rintro h k e k' hr ⟨hle, h0⟩ hst
  have hs := Runs.shape hr
  unfold reaps
  by_cases ha : allocates q e = true
  · rw [if_pos ha]
    exact ⟨Nat.zero_le _, fun _ => rfl⟩
  · rw [if_neg ha]
    by_cases hq : reapsSlot q e = true
    · obtain ⟨pid, times, he⟩ := reapsSlot_iff.1 hq
      obtain ⟨hz, -, -, -, hu⟩ := reaped_step hst he
      rw [if_pos hq, h0 (by rw [hz]; simp)]
      exact ⟨le_refl _, fun hu' => absurd hu hu'⟩
    · rw [if_neg hq]
      refine ⟨hle, fun hu => h0 ?_⟩
      exact (core_step hs hst q).used (by simpa using ha) hu

theorem pid_step [DecidableEq C] {q : ProcId} (hs : Shape k) (hst : Step b k e k') (hu : (k.proc q).state ≠ .unused)
    (hu' : (k'.proc q).state ≠ .unused) : (k'.proc q).pid = (k.proc q).pid := by
  have hcore := core_step hs hst q
  rw [← core_pid, ← core_pid (k.proc q)]
  rw [← core_state] at hu hu'
  generalize (k'.proc q).core = y at hcore hu'
  cases hcore with
  | alloc _ hx => exact absurd hx hu
  | reap => exact absurd rfl hu'
  | same | wake | dispatch | yield | sleep | abandon | activate | kill | trap | exitBegin | exit
  | thread | incRuntime => rfl

/-- **No wakeup between `exit` and `wait` is lost.** Whenever the lock is free, every process but the
first has a parent that has not exited, and a process asleep in `wait` or `waitx` sleeps on its own
address and has no zombie child. A process has one pid for life; since its allocation it has been
reaped at most once, by its parent, which is told that pid, and its slot is free afterwards. -/
theorem exit_wait [DecidableEq C] {h : List (Event C)} (hr : Runs b h k) :
    (k.lock = .free →
      (∀ q, (k.proc q).state ≠ .unused → (k.proc q).state ≠ .embryo → k.initproc ≠ some q →
        ∃ p, (k.proc q).parent = some p ∧ (k.proc p).state ≠ .unused ∧
          (k.proc p).state ≠ .embryo ∧ (k.proc p).state ≠ .zombie) ∧
      ∀ p w, (k.proc p).state = .sleeping → (k.proc p).context = .wait w →
        (k.proc p).chan = some (.proc p) ∧
          ∀ q, (k.proc q).parent = some p → (k.proc q).state ≠ .zombie) ∧
    (∀ q, reaps q h ≤ 1) ∧
    (∀ e k' q, Step b k e k' → (k.proc q).state ≠ .unused → (k'.proc q).state ≠ .unused →
      (k'.proc q).pid = (k.proc q).pid) ∧
    ∀ e k' q pid times, Step b k e k' → e.2 = .reaped q pid times →
      reaps q h = 0 ∧ pid = (k.proc q).pid ∧
        (∃ p, waiter k e.1 = some p ∧ (k.proc q).parent = some p) ∧ (k'.proc q).state = .unused := by
  have hs := Runs.shape hr
  have hf := Runs.family hr
  refine ⟨fun _ => ⟨fun q hu he hi => ?_, fun p w => hf.asleep⟩, fun q => (Runs.reaps_le hr).1,
    fun e k' q hst => pid_step hs hst, fun e k' q pid times hst he => ?_⟩
  · have hg : (k.proc q).state.grown = true := by
      generalize (k.proc q).state = s at hu he
      cases s <;> first | rfl | exact absurd rfl hu | exact absurd rfl he
    obtain ⟨p, hp, ha⟩ := hf.parent hg hi
    refine ⟨p, hp, ?_, ?_, ?_⟩ <;> intro h <;> rw [h] at ha <;> cases ha
  · obtain ⟨hz, hpid, -, hw, hu⟩ := reaped_step hst he
    exact ⟨(Runs.reaps_le hr).2 (by rw [hz]; simp), hpid, hw, hu⟩

theorem exit_wait_reap :
    ∃ k k' : Kern (Fin 2), Runs .mlfq reapEvents.reverse k ∧
      Step .mlfq k (.resume 0, .reaped 1 2 none) k' ∧ reaps 1 reapEvents.reverse = 0 ∧
      (k'.proc 1).state = .unused := by
  obtain ⟨k, hr, hk⟩ := (kernel .mlfq).exists_runs reapEvents
    (fun k => ((kernel .mlfq).step? k (.resume 0, .reaped 1 2 none)).isSome) (by decide +kernel)
  obtain ⟨k', hk'⟩ := Option.isSome_iff_exists.1 hk
  have hst := Machine.step?_step hk'
  obtain ⟨h0, -, -, hu⟩ := (exit_wait hr).2.2.2 _ _ _ _ _ hst rfl
  exact ⟨k, k', hr, hst, h0, hu⟩

end Xv6.Process
