import Xv6.Process.Step
import Xv6.Lib.Fold

/-!
# What the pieces of code leave alone

For every piece that loops over the table or works on the queues: which fields it can change. The
invariants of the process table then never look into these pieces again.
-/

namespace Xv6.Process

open Lib

variable {C : Type} {b : Sched} {k k' : Kern C} {p : ProcId}

/-- The state differs from `k` at most in the process structures and the queues. -/
def SameRest (k k' : Kern C) : Prop :=
  k' = { k with proc := k'.proc, node := k'.node, queues := k'.queues }

theorem SameRest.refl (k : Kern C) : SameRest k k := rfl

theorem SameRest.trans {k k' k'' : Kern C} (h : SameRest k k') (h' : SameRest k' k'') :
    SameRest k k'' := by
  unfold SameRest at *
  rw [h', h]

section SameRest

variable (h : SameRest k k')
include h

theorem SameRest.initproc : k'.initproc = k.initproc := by rw [h]
theorem SameRest.ticks : k'.ticks = k.ticks := by rw [h]
theorem SameRest.cpu : k'.cpu = k.cpu := by rw [h]
theorem SameRest.lock : k'.lock = k.lock := by rw [h]
theorem SameRest.phase : k'.phase = k.phase := by rw [h]
theorem SameRest.boot : k'.boot = k.boot := by rw [h]

end SameRest

/-- The process `q'` is `q`, or `q` woken up. -/
def Woken (q q' : Proc) : Prop :=
  q' = q ∨ q.state = .sleeping ∧
    ∃ t a, q' = { q with state := .runnable, curTimeslices := t, ageTime := a }

theorem Woken.trans {q q' q'' : Proc} (h : Woken q q') (h' : Woken q' q'') : Woken q q'' := by
  rcases h with rfl | ⟨hs, t, a, rfl⟩
  · exact h'
  · rcases h' with rfl | ⟨hs', -⟩
    · exact .inr ⟨hs, t, a, rfl⟩
    · exact absurd hs' (by simp)

/-- Some sleeping processes have been woken up, and nothing else has changed in the table. -/
def WokenAll (k k' : Kern C) : Prop := SameRest k k' ∧ ∀ q, Woken (k.proc q) (k'.proc q)

theorem WokenAll.refl (k : Kern C) : WokenAll k k := ⟨.refl k, fun _ => .inl rfl⟩

theorem WokenAll.trans {k k' k'' : Kern C} (h : WokenAll k k') (h' : WokenAll k' k'') :
    WokenAll k k'' := ⟨h.1.trans h'.1, fun q => (h.2 q).trans (h'.2 q)⟩

theorem enqueue_frame {q : ℤ} (h : enqueue k q p = .ok k') :
    SameRest k k' ∧ k'.proc = k.proc := by
  unfold enqueue at h
  split at h
  · dsimp only at h
    split at h
    · cases h
    · cases h; exact ⟨rfl, rfl⟩
  · cases h

theorem wake_frame (hs : (k.proc p).state = .sleeping) (h : wake b k p = .ok k') :
    WokenAll k k' := by
  unfold wake at h
  dsimp only at h
  split at h
  · split at h
    · cases h
    · rename_i k₁ he
      obtain ⟨hr, hp⟩ := enqueue_frame he
      cases h
      have hr : SameRest k k₁ := hr
      refine ⟨hr.trans rfl, fun q => ?_⟩
      by_cases hq : q = p
      · subst hq
        simp only [Kern.setProc_proc_self, hp]
        exact .inr ⟨hs, _, _, rfl⟩
      · simp only [hp, Kern.setProc_proc_ne _ _ _ hq]
        exact .inl rfl
  · cases h
    refine ⟨rfl, fun q => ?_⟩
    by_cases hq : q = p
    · subst hq
      simp only [Kern.setProc_proc_self]
      exact .inr ⟨hs, _, _, rfl⟩
    · simp only [Kern.setProc_proc_ne _ _ _ hq]
      exact .inl rfl

theorem wakeup1Body_frame {chan : Option Chan} (h : wakeup1Body b chan k p = .ok k') :
    WokenAll k k' := by
  unfold wakeup1Body at h
  split at h
  · rename_i hc
    exact wake_frame hc.1 h
  · cases h; exact .refl _

theorem wakeup1_frame {chan : Option Chan} (h : wakeup1 b k chan = .ok k') : WokenAll k k' :=
  foldlM_rel WokenAll.refl WokenAll.trans wakeup1Body_frame _ h

/-- `kill` finds no process, marks one, or marks one that sleeps and wakes it. -/
theorem kill_cases {pid : Word} {o : Out} (h : kill b k pid = .ok (k', o)) : k' = k ∧ o = .failed ∨
    ∃ p, (List.finRange NPROC).find? (fun p => (k.proc p).pid = pid) = some p ∧ o = .done ∧
      (k' = k.setProc p (fun q => { q with killed := true }) ∨ (k.proc p).state = .sleeping ∧
        wake b (k.setProc p fun q => { q with killed := true }) p = .ok k') := by
  unfold kill at h
  split at h
  · cases h
    exact .inl ⟨rfl, rfl⟩
  · rename_i p hp
    dsimp only at h
    rw [Kern.setProc_proc_self] at h
    refine .inr ⟨p, hp, ?_⟩
    split at h
    · rename_i hs
      split at h
      · cases h
      · rename_i h₁
        cases h
        exact ⟨rfl, .inr ⟨hs, h₁⟩⟩
    · cases h
      exact ⟨rfl, .inl rfl⟩

/-- Some processes have been woken up, and some have another parent. -/
def Stirred (k k' : Kern C) : Prop :=
  SameRest k k' ∧ ∀ q, ∃ par, Woken { k.proc q with parent := par } (k'.proc q)

theorem WokenAll.stirred (h : WokenAll k k') : Stirred k k' :=
  ⟨h.1, fun q => ⟨(k.proc q).parent, h.2 q⟩⟩

theorem Stirred.trans {k k' k'' : Kern C} (h : Stirred k k') (h' : Stirred k' k'') :
    Stirred k k'' := by
  refine ⟨h.1.trans h'.1, fun q => ?_⟩
  obtain ⟨par, hw⟩ := h.2 q
  obtain ⟨par', hw'⟩ := h'.2 q
  refine ⟨par', ?_⟩
  rcases hw with he | ⟨hs, t, a, he⟩
  · rw [he] at hw'
    exact hw'
  · rw [he] at hw'
    exact .trans (.inr ⟨hs, t, a, rfl⟩) hw'

theorem reparent_frame {q : ProcId} (h : reparent b p k q = .ok k') : Stirred k k' := by
  unfold reparent at h
  split at h
  · have hset : Stirred k (k.setProc q fun r => { r with parent := k.initproc }) := by
      refine ⟨rfl, fun r => ?_⟩
      by_cases hr : r = q
      · subst hr
        exact ⟨k.initproc, .inl (by simp only [Kern.setProc_proc_self])⟩
      · exact ⟨(k.proc r).parent, .inl (by rw [Kern.setProc_proc_ne _ _ _ hr])⟩
    dsimp only at h
    split at h
    · exact hset.trans (wakeup1_frame h).stirred
    · cases h; exact hset
  · cases h; exact (WokenAll.refl _).stirred

/-- The locked section of `exit` stirs the table, turns the caller into a zombie and switches. -/
theorem exit_frame {c : C} (h : exit b k c p = .ok k') :
    ∃ k₁, Stirred k k₁ ∧
      k' = { k₁.setProc p fun q => { q with state := .zombie } with lock := .back c p } := by
  unfold exit at h
  split at h
  · cases h
  · rename_i k₁ h₁
    split at h
    · cases h
    · rename_i k₂ h₂
      cases h
      refine ⟨k₂, (wakeup1_frame h₁).stirred.trans ?_, rfl⟩
      exact foldlM_rel (fun k => (WokenAll.refl k).stirred) Stirred.trans reparent_frame _ h₂

/-- The ageing pass changes only the queue index and the age of processes. -/
def Aged (k k' : Kern C) : Prop :=
  SameRest k k' ∧ ∀ q, ∃ i a, k'.proc q = { k.proc q with queue := i, ageTime := a }

theorem Aged.refl (k : Kern C) : Aged k k := ⟨rfl, fun _ => ⟨_, _, rfl⟩⟩

theorem Aged.trans {k k' k'' : Kern C} (h : Aged k k') (h' : Aged k' k'') : Aged k k'' := by
  refine ⟨h.1.trans h'.1, fun q => ?_⟩
  obtain ⟨i, a, he⟩ := h.2 q
  obtain ⟨i', a', he'⟩ := h'.2 q
  exact ⟨i', a', by rw [he', he]⟩

theorem splitScan_frame {ticks threshold : Word} {node : NodeId → Node} {fuel count : ℕ}
    {proc : ProcId → Proc} {cur prev : Option NodeId}
    {r : (ProcId → Proc) × Option NodeId × Option NodeId × ℕ}
    (h : splitScan ticks threshold node fuel proc cur prev count = .ok r) (q : ProcId) :
    ∃ i a, r.1 q = { proc q with queue := i, ageTime := a } := by
  induction fuel generalizing proc cur prev count with
  | zero =>
    cases cur with
    | none => cases h; exact ⟨_, _, rfl⟩
    | some n => cases h
  | succ fuel ih =>
    cases cur with
    | none => cases h; exact ⟨_, _, rfl⟩
    | some n =>
      unfold splitScan at h
      split at h
      · cases h
      · rename_i p _
        split at h
        · obtain ⟨i, a, he⟩ := ih h
          refine ⟨i, a, ?_⟩
          rw [he]
          by_cases hq : q = p
          · subst hq; simp [aged]
          · simp [hq]
        · cases h; exact ⟨_, _, rfl⟩

theorem ageQueue_frame {i : Fin NUM_QUEUES} (h : ageQueue k i = .ok k') : Aged k k' := by
  unfold ageQueue at h
  split at h
  · cases h
  · rename_i r hr
    cases h
    refine ⟨rfl, fun q => ?_⟩
    unfold split at hr
    split at hr
    · cases hr
    · rename_i hs
      cases hr
      exact splitScan_frame hs q
    · rename_i hs
      split at hr
      · cases hr; exact splitScan_frame hs q
      · split at hr
        · cases hr
        · cases hr; exact splitScan_frame hs q

theorem popFirst_frame {is : List (Fin NUM_QUEUES)} {o : Option ProcId}
    (h : popFirst k is = .ok (k', o)) : SameRest k k' ∧ k'.proc = k.proc := by
  induction is with
  | nil => cases h; exact ⟨rfl, rfl⟩
  | cons i is ih =>
    unfold popFirst at h
    split at h
    · cases h
    · exact ih h
    · split at h
      · cases h
      · cases h; exact ⟨rfl, rfl⟩

/-! ### What the schedulers pick -/

theorem pickFCFS_runnable {t : Word} (h : pickFCFS k t = some p) :
    (k.proc p).state = .runnable := by
  refine foldl_select Prod.snd (P := fun p => (k.proc p).state = .runnable) ?_ _ (by simp) h
  intro m p
  split
  · exact .inl rfl
  · rename_i hr
    split
    · exact .inr ⟨rfl, by simpa using hr⟩
    · exact .inl rfl

theorem pickPBS_runnable {t : Word} (h : pickPBS k t = some p) :
    (k.proc p).state = .runnable := by
  refine foldl_select (fun m : ℤ × Word × Option ProcId => m.2.2)
    (P := fun p => (k.proc p).state = .runnable) ?_ _ (by simp) h
  intro m p
  dsimp only
  split
  · exact .inl rfl
  · rename_i hr
    split
    · exact .inr ⟨rfl, by simpa using hr⟩
    · split
      · exact .inr ⟨rfl, by simpa using hr⟩
      · exact .inl rfl

/-! ### A pass of a scheduler -/

/-- A scheduler at work changes the queue index, the age and the slices of processes. -/
def Tallied (k k' : Kern C) : Prop :=
  SameRest k k' ∧ ∀ q, ∃ i a t ct,
    k'.proc q = { k.proc q with queue := i, ageTime := a, timeslices := t, curTimeslices := ct }

theorem Tallied.refl (k : Kern C) : Tallied k k := ⟨rfl, fun _ => ⟨_, _, _, _, rfl⟩⟩

theorem Tallied.setProc {f : Proc → Proc} (h : Tallied k k')
    (hf : ∀ q, ∃ t ct, f q = { q with timeslices := t, curTimeslices := ct }) : Tallied k (k'.setProc p f) := by
  refine ⟨h.1.trans rfl, fun q => ?_⟩
  obtain ⟨i, a, t, ct, hq⟩ := h.2 q
  by_cases hqp : q = p
  · subst hqp
    obtain ⟨t', ct', hf⟩ := hf (k'.proc q)
    exact ⟨i, a, t', ct', by rw [Kern.setProc_proc_self, hf, hq]⟩
  · exact ⟨i, a, t, ct, by rw [Kern.setProc_proc_ne _ _ _ hqp, hq]⟩

/-- What a pass can do, whichever scheduler it is: dispatch a runnable process, or let the lock go. -/
inductive Pass [DecidableEq C] (k : Kern C) (c : C) : Kern C → Out → Prop
  | rest {k₁ : Kern C} {o : Out} (h : Tallied k k₁) (ho : o = .idle ∨ ∃ p, o = .discard p) :
    Pass k c { k₁ with lock := .free } o
  | dispatch {k₁ : Kern C} {p : ProcId} (h : Tallied k k₁) (hp : (k₁.proc p).state = .runnable) :
    Pass k c (switchTo k₁ c p) (.dispatch p)

section pass

variable [DecidableEq C] {c : C} {o : Out}

theorem schedRR_pass (k : Kern C) (c : C) (n : ℕ) : Pass k c (schedRR k c n).1 (schedRR k c n).2 := by
  unfold schedRR
  split
  · exact .rest (.refl k) (.inl rfl)
  · rename_i p hp
    have hp := List.find?_some hp
    simp only [decide_eq_true_eq] at hp
    exact .dispatch (.refl k) hp.2

theorem schedMLFQ_pass (h : schedMLFQ k c = .ok (k', o)) : Pass k c k' o := by
  unfold schedMLFQ at h
  split at h
  · cases h
  rename_i k₁ h₁
  have hag : Aged k k₁ := foldlM_rel Aged.refl Aged.trans ageQueue_frame _ h₁
  have hcount : ∀ {k₂ r}, popFirst k₁ [0, 1, 2, 3, 4] = .ok (k₂, r) → Tallied k k₂ := by
    intro k₂ r h₂
    obtain ⟨hr, hp⟩ := popFirst_frame h₂
    refine ⟨hag.1.trans hr, fun q => ?_⟩
    obtain ⟨i, a, hq⟩ := hag.2 q
    exact ⟨i, a, _, _, by rw [hp, hq]⟩
  split at h
  · cases h
  · rename_i h₂
    cases h
    exact .rest (hcount h₂) (.inl rfl)
  · rename_i k₂ p h₂
    split at h
    · cases h
      exact .rest (hcount h₂) (.inr ⟨p, rfl⟩)
    · rename_i hp
      cases h
      exact .dispatch ((hcount h₂).setProc fun _ => ⟨_, _, rfl⟩) (by simpa using hp)

theorem scheduler_pass {t : Word} (h : scheduler b k c t = .ok (k', o)) : Pass k c k' o := by
  unfold scheduler at h
  split at h
  · obtain ⟨rfl, rfl⟩ := Prod.mk.inj (Except.ok.inj h)
    exact schedRR_pass k c 0
  · split at h
    · cases h
      exact .rest (.refl k) (.inl rfl)
    · rename_i p hp
      cases h
      exact .dispatch (.refl k) (pickFCFS_runnable hp)
  · split at h
    · cases h
      exact .rest (.refl k) (.inl rfl)
    · rename_i p hp
      cases h
      exact .dispatch ((Tallied.refl k).setProc fun _ => ⟨_, _, rfl⟩) (by simpa using pickPBS_runnable hp)
  · exact schedMLFQ_pass h

end pass

end Xv6.Process
