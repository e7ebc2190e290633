import Xv6.Process.Turn
import Xv6.Lib.Scan

/-!
# Round robin

The scheduler loop of the round-robin build keeps its place in the table across `swtch`: when a
process comes back, the loop goes on behind its slot. So between two dispatches of `p` by one CPU the
loop passes every other slot, and a process that is always ready for this CPU gets its turn. It gets
exactly one turn if `p` is always ready too; a `p` that sleeps can be passed over, and then the
others get several.
-/

namespace Xv6.Process

open Lib

variable {C : Type} [DecidableEq C] {b : Sched} {k k' : Kern C} {e : Event C} {p q : ProcId} {c : C}
  {h : List (Event C)}

/-- The scheduler loop of `c` switches to `q`. -/
def dispatches (c : C) (q : ProcId) (e : Event C) : Bool :=
  (e.1 = .scheduler c ∨ e.1 = .back c) ∧ e.2 = .dispatch q

/-- The process is runnable whenever `c` is not running it. -/
def Steady (c : C) (q : ProcId) (k : Kern C) : Prop := k.cpu c ≠ some q → (k.proc q).state = .runnable

instance : Decidable (Steady c q k) := inferInstanceAs (Decidable (_ → _))

/-! ### The place of the loop -/

theorem schedRR_next {k : Kern C} {x : Option ProcId} {n : ℕ} (hn : ∀ p : ProcId, n ≤ p.val ↔ After x p)
    (hcpu : k.cpu c = none) :
    Next (fun q => (k.proc q).state = .runnable) x ((schedRR k c n).1.cpu c) ∧
      ∀ q, (schedRR k c n).2 = .dispatch q ↔ (schedRR k c n).1.cpu c = some q := by
  unfold schedRR
  cases hf : (List.finRange NPROC).find? fun p => n ≤ p.val ∧ (k.proc p).state = .runnable with
  | none =>
    refine ⟨?_, by simp [hcpu]⟩
    simp only [hcpu]
    intro z hz hrun
    have := find?_finRange_none hf z
    simp only [decide_eq_false_iff_not, not_and] at this
    exact this ((hn z).2 hz) hrun
  | some p =>
    have hp := List.find?_some hf
    simp only [decide_eq_true_eq] at hp
    refine ⟨?_, by simp [switchTo]⟩
    simp only [switchTo, Function.update_self]
    refine ⟨(hn p).1 hp.1, hp.2, fun z hz hrun => ?_⟩
    exact find?_finRange_le hf (by simpa using ⟨(hn z).2 hz, hrun⟩)

/-- **A step moves the loop of `c` to the next runnable process**, or leaves it in its place. -/
theorem place_step (hs : Shape k) (hst : Step .rr k e k') :
    (k'.cpu c = k.cpu c ∧ ∀ q, dispatches c q e = false) ∨
      Next (fun q => (k.proc q).state = .runnable) (k.cpu c) (k'.cpu c) ∧
        ∀ q, dispatches c q e = true ↔ k'.cpu c = some q := by
  obtain ⟨a, o⟩ := e
  have hands := (hands_step hst).cpu
  obtain ⟨hen, hx⟩ := step_iff.1 hst
  by_cases hsched : a = .scheduler c
  · subst hsched
    have hidle := (enabled_scheduler hen).1
    have hk : schedRR { k with seen := Function.update k.seen c none } c 0 = (k', o) := Except.ok.inj hx
    have hnext := schedRR_next (k := { k with seen := Function.update k.seen c none }) (x := none) (n := 0)
      (by simp) hidle
    rw [hk] at hnext
    rw [hidle]
    exact .inr ⟨hnext.1, fun q => by simpa [dispatches] using hnext.2 q⟩
  · by_cases hback : a = .back c
    · subst hback
      obtain ⟨p, hl⟩ := enabled_back hen
      simp only [exec, hl] at hx
      have hk : schedRR { k with cpu := Function.update k.cpu c none } c (p + 1) = (k', o) := Except.ok.inj hx
      have hnext := schedRR_next (c := c) (k := { k with cpu := Function.update k.cpu c none }) (x := some p)
        (n := p + 1) (fun z => by rw [after_some, Fin.lt_def, Nat.succ_le_iff]) (by simp)
      rw [hk] at hnext
      rw [hs.back hl]
      exact .inr ⟨hnext.1, fun q => by simpa [dispatches] using hnext.2 q⟩
    · left
      rw [hands, cpuAfter_of_ne hsched hback]
      exact ⟨rfl, fun q => by simp [dispatches, hsched, hback]⟩

/-! ### Between two dispatches -/

/-- A step in which `c` does not dispatch `p`, between two states in which the processes of `Q` are
ready for `c`. -/
structure PassStep (c : C) (p : ProcId) (Q : Set ProcId) (k : Kern C) (e : Event C) (k' : Kern C) : Prop where
  step : Step .rr k e k'
  other : dispatches c p e = false
  before : ∀ q ∈ Q, Steady c q k
  after : ∀ q ∈ Q, Steady c q k'

theorem bypass_pass {Q : Set ProcId} (hb : Bypass p q (p ∈ Q) (h.countP (dispatches c q)) (k.cpu c))
    (hs : Shape k) (hst : PassStep c p Q k e k') (hq : q ∈ Q) :
    Bypass p q (p ∈ Q) ((e :: h).countP (dispatches c q)) (k'.cpu c) := by
  rw [List.countP_cons]
  rcases place_step (c := c) hs hst.step with ⟨hcpu, hno⟩ | ⟨hnext, hiff⟩
  · rw [hcpu, hno q]
    exact hb
  · have hp : k'.cpu c ≠ some p := fun h => by
      have := (hiff p).2 h
      rw [hst.other] at this
      cases this
    simp only [hiff q]
    exact hb.next hnext (hst.before q hq) (fun hpQ => hst.before p hpQ) hp

/-- **Bounded bypass.** Between two dispatches of `p` by `c`, a process that is runnable whenever `c`
is not running it is dispatched by `c`, and exactly once if `p` is such a process too. -/
theorem rr_bypass {k₀ k₁ k₂ : Kern C} {e₁ e₂ : Event C} {h₀ : List (Event C)} {Q : Set ProcId}
    (hr : Runs .rr h₀ k₀) (hst₁ : Step .rr k₀ e₁ k₁) (hd₁ : dispatches c p e₁ = true)
    (hQ : ∀ q ∈ Q, Steady c q k₁) (hrun : Run (PassStep c p Q) k₁ h k)
    (hst₂ : Step .rr k e₂ k₂) (hd₂ : dispatches c p e₂ = true) (hq : q ∈ Q) (hne : q ≠ p) :
    1 ≤ h.countP (dispatches c q) ∧ (p ∈ Q → h.countP (dispatches c q) = 1) := by
  have hcpu₁ : k₁.cpu c = some p := by
    rcases place_step (c := c) hr.shape hst₁ with ⟨-, hno⟩ | ⟨-, hiff⟩
    · rw [hno p] at hd₁
      cases hd₁
    · exact (hiff p).1 hd₁
  have hinv : (∃ h, Runs .rr h k) ∧ Steady c q k ∧
      Bypass p q (p ∈ Q) (h.countP (dispatches c q)) (k.cpu c) := by
    refine hrun.invariant (P := fun h k => (∃ h, Runs .rr h k) ∧ Steady c q k ∧
      Bypass p q (p ∈ Q) (h.countP (dispatches c q)) (k.cpu c)) ⟨⟨_, .step hr hst₁⟩, hQ q hq, ?_⟩ ?_
    · rw [hcpu₁]
      exact .start p q _
    · rintro h k e k' - ⟨⟨h', hr'⟩, -, hb⟩ hst
      exact ⟨⟨_, .step hr' hst.step⟩, hst.after q hq, bypass_pass hb hr'.shape hst hq⟩
  obtain ⟨⟨h', hr'⟩, hsteady, hb⟩ := hinv
  rcases place_step (c := c) hr'.shape hst₂ with ⟨-, hno⟩ | ⟨hnext, hiff⟩
  · rw [hno p] at hd₂
    cases hd₂
  · rw [(hiff p).1 hd₂] at hnext
    exact hb.last hnext hne hsteady

/-- The step function of `PassStep`. -/
def passStep? (c : C) (p : ProcId) (Q : List ProcId) (k : Kern C) (e : Event C) : Option (Kern C) :=
  if dispatches c p e = false ∧ ∀ q ∈ Q, Steady c q k then
    ((kernel .rr).step? k e).filter fun k' => ∀ q ∈ Q, Steady c q k'
  else none

theorem passStep?_step {Q : List ProcId} (hst : passStep? c p Q k e = some k') :
    PassStep c p {q | q ∈ Q} k e k' := by
  unfold passStep? at hst
  split at hst
  · rename_i hd
    obtain ⟨hst, hQ⟩ := Option.filter_eq_some_iff.1 hst
    exact ⟨Machine.step?_step hst, hd.1, hd.2, by simpa using hQ⟩
  · cases hst

/-- Events that can be followed from a state reached by `es` are an interval of a run. -/
theorem exists_interval (es es' : List (Event C)) (c : C) (p : ProcId) (Q : List ProcId) (e e' : Event C)
    (hes : ((kernel .rr).follow (fun _ _ => true) es).any (fun k₀ => ((kernel .rr).step? k₀ e).any fun k₁ =>
      decide (∀ q ∈ Q, Steady c q k₁) && (es'.foldlM (passStep? c p Q) k₁).any fun k =>
        ((kernel .rr).step? k e').isSome) = true) :
    ∃ k₀ k₁ k k₂ : Kern C, Runs .rr es.reverse k₀ ∧ Step .rr k₀ e k₁ ∧ (∀ q ∈ {q | q ∈ Q}, Steady c q k₁) ∧
      Run (PassStep c p {q | q ∈ Q}) k₁ es'.reverse k ∧ Step .rr k e' k₂ := by
  obtain ⟨k₀, hr, hk₀⟩ := (kernel .rr).exists_runs es _ hes
  obtain ⟨k₁, hst₁, hk₁⟩ := (Option.any_eq_true ..).1 hk₀
  rw [Bool.and_eq_true, decide_eq_true_eq] at hk₁
  obtain ⟨k, hk, hsome⟩ := (Option.any_eq_true ..).1 hk₁.2
  obtain ⟨k₂, hst₂⟩ := Option.isSome_iff_exists.1 hsome
  have hrun := Run.of_foldlM passStep?_step .start hk
  rw [List.append_nil] at hrun
  exact ⟨k₀, k₁, k, k₂, hr, Machine.step?_step hst₁, hk₁.1, hrun, Machine.step?_step hst₂⟩

/-- The first process runs and forks a child. -/
def rrEvents : List (Event Unit) :=
  [(.userinitAlloc, .alloc 0), (.userinit, .done), (.scheduler (), .dispatch 0), (.resume (), .done),
    (.proc () 0 .forkAlloc, .alloc 1), (.proc () 0 .forkCopy, .done), (.proc () 0 .fork, .done),
    (.proc () 0 .yield, .done), (.back (), .dispatch 1), (.resume (), .done), (.proc () 1 .yield, .done),
    (.back (), .idle)]

/-- The first process and its child take turns. -/
theorem rr_bypass_turns :
    ∃ (h₀ h : List (Event Unit)) (k₀ k₁ k k₂ : Kern Unit), Runs .rr h₀ k₀ ∧
      Step .rr k₀ (.scheduler (), .dispatch 0) k₁ ∧ Run (PassStep () 0 {q | q ∈ [0, 1]}) k₁ h k ∧
      Step .rr k (.scheduler (), .dispatch 0) k₂ ∧ h.countP (dispatches () 1) = 1 := by
  obtain ⟨k₀, k₁, k, k₂, hr, hst₁, hQ, hrun, hst₂⟩ := exists_interval rrEvents
    [(.resume (), .done), (.proc () 0 .yield, .done), (.back (), .dispatch 1), (.resume (), .done),
      (.proc () 1 .yield, .done), (.back (), .idle)] () 0 [0, 1] (.scheduler (), .dispatch 0)
    (.scheduler (), .dispatch 0) (by decide +kernel)
  exact ⟨_, _, k₀, k₁, k, k₂, hr, hst₁, hrun, hst₂,
    (rr_bypass hr hst₁ (by decide) hQ hrun hst₂ (by decide) (show (1 : ProcId) ∈ [0, 1] by decide)
      (by decide)).2 (show (0 : ProcId) ∈ [0, 1] by decide)⟩

/-- While the first process sleeps, its child, which never does, is dispatched twice. -/
theorem rr_dispatched_twice :
    ∃ (h₀ h : List (Event Unit)) (k₀ k₁ k k₂ : Kern Unit), Runs .rr h₀ k₀ ∧
      Step .rr k₀ (.scheduler (), .dispatch 0) k₁ ∧ (∀ q ∈ {q | q ∈ [1]}, Steady () q k₁) ∧
      Run (PassStep () 0 {q | q ∈ [1]}) k₁ h k ∧ Step .rr k (.scheduler (), .dispatch 0) k₂ ∧
      h.countP (dispatches () 1) = 2 := by
  obtain ⟨k₀, k₁, k, k₂, hr, hst₁, hQ, hrun, hst₂⟩ := exists_interval rrEvents
    [(.resume (), .done), (.proc () 0 (.sleep (.addr 0)), .done), (.back (), .dispatch 1), (.resume (), .done),
      (.proc () 1 .yield, .done), (.back (), .idle), (.scheduler (), .dispatch 1), (.resume (), .done),
      (.proc () 1 .yield, .done), (.back (), .idle), (.wakeup (.addr 0), .done)] () 0 [1]
    (.scheduler (), .dispatch 0) (.scheduler (), .dispatch 0) (by decide +kernel)
  exact ⟨_, _, k₀, k₁, k, k₂, hr, hst₁, hQ, hrun, hst₂, by decide⟩

end Xv6.Process
