import Xv6.Process.Core

/-!
# Parents and children

The invariant that makes `exit` and `wait` meet, for every scheduler build: a process that has
grown out of `fork` has a parent that has not exited, and a process asleep in `wait` or `waitx` has
no child left to reap. `exit` wakes the parent before the caller is a zombie and hands its children
over before it dies, all in one section under the lock, so no state in between is ever seen.
-/

namespace Xv6.Process

open Lib

variable {C : Type} {b : Sched} {k k' : Kern C} {e : Event C}

/-- Past `fork` or `userinit`, and not yet exited. -/
def ProcState.alive : ProcState → Bool
  | .sleeping | .runnable | .running => true
  | _ => false

/-- Past `fork` or `userinit`, and not yet reaped. -/
def ProcState.grown : ProcState → Bool
  | .zombie => true
  | s => s.alive

theorem grown_of_alive {s : ProcState} (h : s.alive = true) : s.grown = true := by
  cases s <;> first | rfl | cases h

/-- The family relations between two atomic pieces of code. -/
structure Family (k : Kern C) : Prop where
  parent : ∀ {q}, (k.proc q).state.grown = true → k.initproc ≠ some q →
    ∃ p, (k.proc q).parent = some p ∧ (k.proc p).state.alive = true
  irrefl : ∀ {q}, (k.proc q).parent ≠ some q
  asleep : ∀ {p w}, (k.proc p).state = .sleeping → (k.proc p).context = .wait w →
    (k.proc p).chan = some (.proc p) ∧
      ∀ q, (k.proc q).parent = some p → (k.proc q).state ≠ .zombie
  orphan : ∀ {i}, k.initproc = some i → (k.proc i).parent = none
  immortal : ∀ {i}, k.initproc = some i → (k.proc i).thread ≠ .exit
  done : k.boot = .done → ∃ i, k.initproc = some i ∧ (k.proc i).state.alive = true
  booting : k.boot ≠ .done → ∀ q, (k.proc q).state.grown = false
  embryo : ∀ {i}, k.boot = .embryo i → k.initproc = some i
  unused : ∀ {q}, (k.proc q).state = .unused → (k.proc q).parent = none
  fork : ∀ {p np}, (k.proc p).thread = .fork np false → (k.proc np).parent = none
  copied : ∀ {p np}, (k.proc p).thread = .fork np true → (k.proc np).parent = some p

theorem Family.init : Family (Process.boot C) where
  parent h := by cases h
  irrefl h := by cases h
  asleep h := by cases h
  orphan h := by cases h
  immortal h := by cases h
  done h := by cases h
  booting _ _ := rfl
  embryo h := by cases h
  unused _ := rfl
  fork h := by cases h
  copied h := by cases h

theorem Family.boot_done {p : ProcId} (hf : Family k) (hp : (k.proc p).state.grown = true) :
    k.boot = .done := by
  by_contra hb
  rw [hf.booting hb] at hp
  cases hp

/-- Nobody is born, reaped or dies: at most living processes go from one living state to another. -/
structure Quiet (k k' : Kern C) : Prop where
  boot : k'.boot = k.boot
  initproc : k'.initproc = k.initproc
  thread : ∀ q, (k'.proc q).thread = (k.proc q).thread
  parent : ∀ q, (k'.proc q).parent = (k.proc q).parent
  state : ∀ q, (k'.proc q).state = (k.proc q).state ∨
    (k.proc q).state.alive = true ∧ (k'.proc q).state.alive = true

section quiet

variable (h : Quiet k k') {q : ProcId}
include h

theorem Quiet.alive : (k'.proc q).state.alive = (k.proc q).state.alive := by
  rcases h.state q with hq | ⟨hq, hq'⟩
  · rw [hq]
  · rw [hq, hq']

theorem Quiet.grown : (k'.proc q).state.grown = (k.proc q).state.grown := by
  rcases h.state q with hq | ⟨hq, hq'⟩
  · rw [hq]
  · rw [grown_of_alive hq, grown_of_alive hq']

theorem Quiet.zombie (hz : (k'.proc q).state = .zombie) : (k.proc q).state = .zombie := by
  rcases h.state q with hq | ⟨-, hq'⟩
  · rw [← hq, hz]
  · rw [hz] at hq'
    cases hq'

theorem Quiet.unused (hu : (k'.proc q).state = .unused) : (k.proc q).state = .unused := by
  rcases h.state q with hq | ⟨-, hq'⟩
  · rw [← hq, hu]
  · rw [hu] at hq'
    cases hq'

/-- What is left to check of a quiet step: who has gone to sleep in `wait`. -/
theorem Family.quiet (hf : Family k)
    (hwait : ∀ {p w}, (k'.proc p).state = .sleeping → (k'.proc p).context = .wait w →
      (k'.proc p).chan = some (.proc p) ∧
        ∀ q, (k.proc q).parent = some p → (k.proc q).state ≠ .zombie) : Family k' where
  parent hq hi := by
    rw [h.grown] at hq
    rw [h.initproc] at hi
    obtain ⟨p, hp, ha⟩ := hf.parent hq hi
    exact ⟨p, by rw [h.parent, hp], by rw [h.alive, ha]⟩
  irrefl {q} := by
    rw [h.parent]
    exact hf.irrefl
  asleep hs hw := by
    obtain ⟨hc, hk⟩ := hwait hs hw
    refine ⟨hc, fun q hq hz => ?_⟩
    rw [h.parent] at hq
    exact hk q hq (h.zombie hz)
  orphan hi := by
    rw [h.initproc] at hi
    rw [h.parent, hf.orphan hi]
  immortal hi := by
    rw [h.initproc] at hi
    rw [h.thread]
    exact hf.immortal hi
  done hb := by
    rw [h.boot] at hb
    obtain ⟨i, hi, ha⟩ := hf.done hb
    exact ⟨i, by rw [h.initproc, hi], by rw [h.alive, ha]⟩
  booting hb q := by
    rw [h.boot] at hb
    rw [h.grown, hf.booting hb]
  embryo hb := by
    rw [h.boot] at hb
    rw [h.initproc, hf.embryo hb]
  unused hu := by rw [h.parent, hf.unused (h.unused hu)]
  fork ht := by
    rw [h.thread] at ht
    rw [h.parent, hf.fork ht]
  copied ht := by
    rw [h.thread] at ht
    rw [h.parent, hf.copied ht]

end quiet

/-! ### `exit` -/

section woken

variable {x x' : Proc} (h : Woken x x')
include h

theorem Woken.awake {chan : Option Chan} (hx : x.state = .sleeping → x.chan ≠ chan) :
    x'.state = .sleeping → x'.chan ≠ chan := by
  rcases h with rfl | ⟨-, t, a, rfl⟩
  · exact hx
  · intro hs
    cases hs

theorem Woken.parent : x'.parent = x.parent := by
  rcases h with rfl | ⟨-, t, a, rfl⟩ <;> rfl

theorem Woken.zombie (hx : x.state = .zombie) : x'.state = .zombie := by
  rcases h with rfl | ⟨hs, -⟩
  · exact hx
  · rw [hx] at hs
    cases hs

theorem Woken.thread : x'.thread = x.thread := by
  rcases h with rfl | ⟨-, t, a, rfl⟩ <;> rfl

theorem Woken.context : x'.context = x.context := by
  rcases h with rfl | ⟨-, t, a, rfl⟩ <;> rfl

theorem Woken.chan : x'.chan = x.chan := by
  rcases h with rfl | ⟨-, t, a, rfl⟩ <;> rfl

theorem Woken.state : x'.state = x.state ∨ x.state = .sleeping ∧ x'.state = .runnable := by
  rcases h with rfl | ⟨hs, t, a, rfl⟩
  · exact .inl rfl
  · exact .inr ⟨hs, rfl⟩

theorem Woken.setParent (par : Option ProcId) :
    Woken { x with parent := par } { x' with parent := par } := by
  rcases h with rfl | ⟨hs, t, a, rfl⟩
  · exact .inl rfl
  · exact .inr ⟨hs, t, a, rfl⟩

end woken

theorem wake_runnable {p : ProcId} (h : wake b k p = .ok k') : (k'.proc p).state = .runnable := by
  unfold wake at h
  dsimp only at h
  split at h
  · split at h
    · cases h
    · rename_i k₁ he
      cases h
      rw [Kern.setProc_proc_self, (enqueue_frame he).2, Kern.setProc_proc_self]
  · cases h
    rw [Kern.setProc_proc_self]

/-- Nobody asleep on the channel is left behind by `wakeup1`. -/
theorem wakeup1_awake {chan : Option Chan} (h : wakeup1 b k chan = .ok k') (q : ProcId) :
    (k'.proc q).state = .sleeping → (k'.proc q).chan ≠ chan := by
  have hloop : ∀ (l : List ProcId) {k k' : Kern C}, l.foldlM (wakeup1Body b chan) k = .ok k' →
      q ∈ l → (k'.proc q).state = .sleeping → (k'.proc q).chan ≠ chan := by
    intro l
    induction l with
    | nil => intro k k' _ hq; cases hq
    | cons a l ih =>
      intro k k' h hq
      rw [List.foldlM_cons] at h
      cases ha : wakeup1Body b chan k a with
      | error e => rw [ha] at h; cases h
      | ok k₁ =>
        rw [ha] at h
        rcases List.mem_cons.1 hq with rfl | hq
        · have hk₁ : (k₁.proc q).state = .sleeping → (k₁.proc q).chan ≠ chan := by
            unfold wakeup1Body at ha
            split at ha
            · intro hs
              rw [wake_runnable ha] at hs
              cases hs
            · rename_i hc
              cases ha
              exact fun hs hch => hc ⟨hs, hch⟩
          -- the rest of the loop only wakes
          have hrest : WokenAll k₁ k' := foldlM_rel WokenAll.refl WokenAll.trans wakeup1Body_frame l h
          exact (hrest.2 q).awake hk₁
        · exact ih h hq
  exact hloop _ h (List.mem_finRange q)

/-- The children of `p` among `l` have been passed to `initproc`, which has been woken if one of
them is a zombie. -/
structure Passed (p : ProcId) (l : List ProcId) (k k' : Kern C) : Prop where
  rest : SameRest k k'
  proc : ∀ q, Woken { k.proc q with
    parent := if q ∈ l ∧ (k.proc q).parent = some p then k.initproc else (k.proc q).parent }
    (k'.proc q)
  awake : ∀ q ∈ l, (k.proc q).parent = some p → (k.proc q).state = .zombie →
    ∀ r, (k'.proc r).state = .sleeping → (k'.proc r).chan ≠ k.initproc.map .proc

theorem reparent_passed {p q : ProcId} (h : reparent b p k q = .ok k') : Passed p [q] k k' := by
  unfold reparent at h
  split at h
  · rename_i hpar
    have hset : ∀ r, (k.setProc q fun r => { r with parent := k.initproc }).proc r =
        { k.proc r with
          parent := if r ∈ [q] ∧ (k.proc r).parent = some p then k.initproc
            else (k.proc r).parent } := by
      intro r
      by_cases hr : r = q
      · subst hr
        rw [Kern.setProc_proc_self, if_pos ⟨List.mem_singleton.2 rfl, hpar⟩]
      · rw [Kern.setProc_proc_ne _ _ _ hr, if_neg (by simp [hr])]
    dsimp only at h
    split at h
    · obtain ⟨hr, hw⟩ := wakeup1_frame h
      exact ⟨hr, fun r => hset r ▸ hw r, fun _ _ _ _ r => wakeup1_awake h r⟩
    · rename_i hz
      cases h
      refine ⟨rfl, fun r => .inl (hset r), fun r hr _ hzr => ?_⟩
      obtain rfl := List.mem_singleton.1 hr
      rw [Kern.setProc_proc_self] at hz
      exact absurd hzr hz
  · rename_i hpar
    cases h
    refine ⟨rfl, fun r => .inl ?_, fun r hr hp => ?_⟩
    · rw [if_neg]
      rintro ⟨hr, hp⟩
      obtain rfl := List.mem_singleton.1 hr
      exact hpar hp
    · obtain rfl := List.mem_singleton.1 hr
      exact absurd hp hpar

theorem Passed.cons {p a : ProcId} {l : List ProcId} {k₁ : Kern C} (h : Passed p [a] k k₁)
    (h' : Passed p l k₁ k') (hi : k.initproc ≠ some p) : Passed p (a :: l) k k' := by
  have hinit : k₁.initproc = k.initproc := h.rest.initproc
  -- a process that `initproc` has got is not passed on again
  have hpar : ∀ q, (k₁.proc q).parent = some p ↔ (k.proc q).parent = some p ∧ q ≠ a := by
    intro q
    rw [(h.proc q).parent]
    simp only [List.mem_singleton]
    by_cases hq : q = a ∧ (k.proc q).parent = some p
    · rw [if_pos hq]
      exact ⟨fun h => absurd h hi, fun h => absurd hq.1 h.2⟩
    · rw [if_neg hq]
      exact ⟨fun h => ⟨h, fun he => hq ⟨he, h⟩⟩, fun h => h.1⟩
  refine ⟨h.rest.trans h'.rest, fun q => ?_, fun q hq hp hz r => ?_⟩
  · refine Woken.trans ?_ (h'.proc q)
    have hnew : (if q ∈ l ∧ (k₁.proc q).parent = some p then k₁.initproc
        else (k₁.proc q).parent) =
        if q ∈ a :: l ∧ (k.proc q).parent = some p then k.initproc else (k.proc q).parent := by
      simp only [hinit, hpar, List.mem_cons]
      rw [(h.proc q).parent]
      simp only [List.mem_singleton]
      by_cases hq : q = a <;> by_cases hp : (k.proc q).parent = some p <;> simp [hq, hp]
    rw [hnew]
    exact (h.proc q).setParent _
  · rcases List.mem_cons.1 hq with rfl | hql
    · exact (h'.proc r).awake (h.awake q (List.mem_singleton.2 rfl) hp hz r)
    · by_cases hqa : q = a
      · subst hqa
        exact (h'.proc r).awake (h.awake q (List.mem_singleton.2 rfl) hp hz r)
      · rw [← hinit]
        refine h'.awake q hql ((hpar q).2 ⟨hp, hqa⟩) ?_ r
        exact (h.proc q).zombie hz

theorem foldlM_reparent {p : ProcId} (hi : k.initproc ≠ some p) :
    ∀ (l : List ProcId), l.foldlM (reparent b p) k = .ok k' → Passed p l k k' := by
  intro l
  induction l generalizing k with
  | nil =>
    intro h
    cases h
    exact ⟨rfl, fun q => .inl (by simp), fun q hq => by cases hq⟩
  | cons a l ih =>
    intro h
    rw [List.foldlM_cons] at h
    cases ha : reparent b p k a with
    | error e => rw [ha] at h; cases h
    | ok k₁ =>
      rw [ha] at h
      have h₁ := reparent_passed ha
      exact h₁.cons (ih (by rwa [h₁.rest.initproc]) h) hi

/-- **What `exit` does to the family**: the children of `p` are those of `initproc`, some sleepers
are awake, among them the parent of `p` and, if there is a zombie among the children, `initproc`. -/
theorem exit_spec {c : C} {p : ProcId} (hi : k.initproc ≠ some p) (h : exit b k c p = .ok k') :
    ∃ k₂, k' = { k₂.setProc p fun q => { q with state := .zombie } with lock := .back c p } ∧
      SameRest k k₂ ∧
      (∀ q, Woken { k.proc q with
        parent := if (k.proc q).parent = some p then k.initproc else (k.proc q).parent }
        (k₂.proc q)) ∧
      (∀ r, (k₂.proc r).state = .sleeping → (k₂.proc r).chan ≠ (k.proc p).parent.map .proc) ∧
      ∀ q, (k.proc q).parent = some p → (k.proc q).state = .zombie →
        ∀ r, (k₂.proc r).state = .sleeping → (k₂.proc r).chan ≠ k.initproc.map .proc := by
  unfold exit at h
  split at h
  · cases h
  · rename_i k₁ h₁
    split at h
    · cases h
    · rename_i k₂ h₂
      cases h
      obtain ⟨hr, hw⟩ := wakeup1_frame h₁
      have hp := foldlM_reparent (by rwa [hr.initproc]) _ h₂
      refine ⟨k₂, rfl, hr.trans hp.rest, fun q => ?_, fun r => ?_, fun q hq hz r => ?_⟩
      · refine .trans ?_ (hp.proc q)
        simp only [List.mem_finRange, true_and, (hw q).parent, hr.initproc]
        exact (hw q).setParent _
      · exact (hp.proc r).awake (wakeup1_awake h₁ r)
      · rw [← hr.initproc]
        exact hp.awake q (List.mem_finRange q) ((hw q).parent.trans hq) ((hw q).zombie hz) r

/-- What `exit` of `p` leaves behind for the family, with `initproc` in the slot `i`. -/
structure Exited (p i : ProcId) (k k' : Kern C) : Prop where
  boot : k'.boot = k.boot
  initproc : k'.initproc = k.initproc
  self : (k'.proc p).state = .zombie
  thread : ∀ q, (k'.proc q).thread = (k.proc q).thread
  parent : ∀ q, (k'.proc q).parent = if (k.proc q).parent = some p then some i else (k.proc q).parent
  state : ∀ {q}, q ≠ p → (k'.proc q).state = (k.proc q).state ∨
    (k.proc q).state = .sleeping ∧ (k'.proc q).state = .runnable
  asleep : ∀ {r}, (k'.proc r).state = .sleeping →
    (k'.proc r).context = (k.proc r).context ∧ (k'.proc r).chan = (k.proc r).chan
  awake : ∀ {r}, (k'.proc r).state = .sleeping → (k'.proc r).chan ≠ (k.proc p).parent.map .proc
  passed : ∀ {q r}, (k.proc q).parent = some p → (k.proc q).state = .zombie →
    (k'.proc r).state = .sleeping → (k'.proc r).chan ≠ some (.proc i)

theorem exit_exited {c : C} {p i : ProcId} (hi : k.initproc = some i) (hip : i ≠ p)
    (h : exit b k c p = .ok k') : Exited p i k k' := by
  obtain ⟨k₂, rfl, hr, hw, hawake, hinit⟩ := exit_spec (by rw [hi]; simpa using hip) h
  rw [hi] at hw hinit
  have hproc : ∀ q, ({ k₂.setProc p fun q => { q with state := .zombie } with
      lock := .back c p } : Kern C).proc q =
      if q = p then { k₂.proc p with state := .zombie } else k₂.proc q := fun q => by
    simp [Kern.setProc_proc]
  have hother : ∀ {r}, (if r = p then { k₂.proc p with state := ProcState.zombie } else k₂.proc r).state =
      .sleeping → r ≠ p := by
    rintro r hr' rfl
    rw [if_pos rfl] at hr'
    cases hr'
  constructor
  case boot => exact hr.boot
  case initproc => exact hr.initproc
  case self => rw [hproc, if_pos rfl]
  case thread =>
    intro q
    rw [hproc]
    split
    · rename_i hq
      rw [hq]
      exact (hw p).thread
    · exact (hw q).thread
  case parent =>
    intro q
    rw [hproc]
    split
    · rename_i hq
      rw [hq]
      exact (hw p).parent
    · exact (hw q).parent
  case state =>
    intro q hq
    rw [hproc, if_neg hq]
    exact (hw q).state
  case asleep =>
    intro r hs
    rw [hproc] at hs ⊢
    rw [if_neg (hother hs)]
    exact ⟨(hw r).context, (hw r).chan⟩
  case awake =>
    intro r hs
    rw [hproc] at hs ⊢
    have hrp := hother hs
    rw [if_neg hrp] at hs ⊢
    exact hawake r hs
  case passed =>
    intro q r hq hz hs
    rw [hproc] at hs ⊢
    have hrp := hother hs
    rw [if_neg hrp] at hs ⊢
    exact hinit q hq hz r hs

section exited

variable {p i q : ProcId} (h : Exited p i k k')
include h

theorem Exited.ne {s : ProcState} (hq : (k'.proc q).state = s) (hs : s ≠ .zombie) : q ≠ p := by
  rintro rfl
  exact hs (hq.symm.trans h.self)

theorem Exited.alive (hq : q ≠ p) (ha : (k.proc q).state.alive = true) :
    (k'.proc q).state.alive = true := by
  rcases h.state hq with hs | ⟨-, hs⟩
  · rw [hs, ha]
  · rw [hs]
    rfl

/-- Nobody else has come to a state that is not `RUNNABLE`. -/
theorem Exited.before {s : ProcState} (hq : q ≠ p) (hs : (k'.proc q).state = s) (hne : s ≠ .runnable) :
    (k.proc q).state = s := by
  rcases h.state hq with h | ⟨-, h⟩
  · rw [← h, hs]
  · exact absurd (hs.symm.trans h) hne

theorem Exited.grown (hrun : (k.proc p).state = .running) (hq : (k'.proc q).state.grown = true) :
    (k.proc q).state.grown = true := by
  by_cases hqp : q = p
  · rw [hqp, hrun]
    rfl
  · rcases h.state hqp with hs | ⟨hs, -⟩
    · rw [← hs, hq]
    · rw [hs]
      rfl

theorem Exited.keep {par : Option ProcId} (hpar : par ≠ some p) (hq : (k.proc q).parent = par) :
    (k'.proc q).parent = par := by
  rw [h.parent, hq, if_neg hpar]

/-- No zombie has come to a process asleep in `wait`: not one that was passed to `initproc`, and not
the one that exits. -/
theorem Exited.kids (hf : Family k) {r : ProcId} {w : WaitKind} (hr : (k'.proc r).state = .sleeping)
    (hctx : (k'.proc r).context = .wait w) : (k'.proc r).chan = some (.proc r) ∧
      ∀ q, (k'.proc q).parent = some r → (k'.proc q).state ≠ .zombie := by
  have hslp := h.before (h.ne hr (by simp)) hr (by simp)
  obtain ⟨hcx, hch⟩ := h.asleep hr
  obtain ⟨hc, hkids⟩ := hf.asleep hslp (hcx.symm.trans hctx)
  refine ⟨hch.trans hc, fun q hq hz => ?_⟩
  rw [h.parent] at hq
  split at hq
  · rename_i hqp
    cases hq
    have hqne : q ≠ p := by
      rintro rfl
      exact hf.irrefl hqp
    exact h.passed hqp (h.before hqne hz (by simp)) hr (hch.trans hc)
  · by_cases hqp : q = p
    · -- its parent was woken
      refine h.awake hr ?_
      rw [hch, hc, ← hqp, hq]
      rfl
    · exact hkids q hq (h.before hqp hz (by simp))

end exited

theorem Family.exit {c : C} {p : ProcId} (hf : Family k)
    (hrun : (k.proc p).state = .running) (hthr : (k.proc p).thread = .exit)
    (h : exit b k c p = .ok k') : Family k' := by
  have hdone : k.boot = .done := hf.boot_done (p := p) (by rw [hrun]; rfl)
  obtain ⟨i, hinit, hia⟩ := hf.done hdone
  have hip : i ≠ p := by
    rintro rfl
    exact hf.immortal hinit hthr
  have hx := exit_exited hinit hip h
  constructor
  case parent =>
    intro q hq hqi
    rw [hx.initproc] at hqi
    obtain ⟨r, hr, ha⟩ := hf.parent (hx.grown hrun hq) hqi
    by_cases hrp : r = p
    · subst hrp
      exact ⟨i, by rw [hx.parent, if_pos hr], hx.alive hip hia⟩
    · exact ⟨r, hx.keep (by simp [hrp]) hr, hx.alive hrp ha⟩
  case irrefl =>
    intro q
    rw [hx.parent]
    split
    · rename_i hq
      rintro h
      cases h
      rw [hf.orphan hinit] at hq
      cases hq
    · exact hf.irrefl
  case asleep => exact hx.kids hf
  case orphan =>
    intro j hj
    exact hx.keep (by simp) (hf.orphan (hx.initproc ▸ hj))
  case immortal =>
    intro j hj
    rw [hx.thread]
    exact hf.immortal (hx.initproc ▸ hj)
  case done => exact fun _ => ⟨i, hx.initproc.trans hinit, hx.alive hip hia⟩
  case booting => exact fun hb => absurd (hx.boot.trans hdone) hb
  case embryo =>
    intro j hj
    rw [hx.boot, hdone] at hj
    cases hj
  case unused =>
    intro q hq
    exact hx.keep (by simp) (hf.unused (hx.before (hx.ne hq (by simp)) hq (by simp)))
  case fork =>
    intro r np ht
    rw [hx.thread] at ht
    exact hx.keep (by simp) (hf.fork ht)
  case copied =>
    intro r np ht
    rw [hx.thread] at ht
    refine hx.keep ?_ (hf.copied ht)
    rintro h
    cases h
    rw [hthr] at ht
    cases ht

/-! ### Steps without births and deaths -/

/-- A quiet step in which nobody moves: at most sleeping processes become runnable. -/
theorem Family.still (hf : Family k) (h : Quiet k k')
    (hstate : ∀ q, (k'.proc q).state = (k.proc q).state ∨
      (k.proc q).state = .sleeping ∧ (k'.proc q).state = .runnable)
    (hasleep : ∀ q, (k.proc q).state = .sleeping →
      (k'.proc q).context = (k.proc q).context ∧ (k'.proc q).chan = (k.proc q).chan) :
    Family k' := by
  have hback : ∀ {q s}, (k'.proc q).state = s → s ≠ .runnable → (k.proc q).state = s := by
    intro q s hq hs
    rcases hstate q with h | ⟨-, h⟩
    · rw [← h, hq]
    · exact absurd (hq.symm.trans h) hs
  refine hf.quiet h fun hs hw => ?_
  have hs' := hback hs (by simp)
  obtain ⟨hctx, hchan⟩ := hasleep _ hs'
  rw [hctx] at hw
  rw [hchan]
  exact hf.asleep hs' hw

theorem WokenAll.quiet (h : WokenAll k k') : Quiet k k' where
  boot := h.1.boot
  initproc := h.1.initproc
  thread q := (h.2 q).thread
  parent q := (h.2 q).parent
  state q := (h.2 q).state.imp_right fun ⟨hs, hr⟩ => by
    rw [hs, hr]
    exact ⟨rfl, rfl⟩

theorem Family.woken (hf : Family k) (h : WokenAll k k') : Family k' :=
  hf.still h.quiet (fun q => (h.2 q).state)
    fun q _ => ⟨(h.2 q).context, (h.2 q).chan⟩

theorem Family.same (hf : Family k) (hboot : k'.boot = k.boot) (hinit : k'.initproc = k.initproc)
    (hp : ∀ q, (k'.proc q).state = (k.proc q).state ∧ (k'.proc q).thread = (k.proc q).thread ∧
      (k'.proc q).parent = (k.proc q).parent ∧ ((k.proc q).state = .sleeping →
        (k'.proc q).context = (k.proc q).context ∧ (k'.proc q).chan = (k.proc q).chan)) :
    Family k' :=
  hf.still ⟨hboot, hinit, fun q => (hp q).2.1, fun q => (hp q).2.2.1, fun q => .inl (hp q).1⟩
    (fun q => .inl (hp q).1) fun q => (hp q).2.2.2

theorem Family.release (hf : Family k) : Family { k with lock := .free } :=
  hf.same rfl rfl fun _ => ⟨rfl, rfl, rfl, fun _ => ⟨rfl, rfl⟩⟩

section moves

variable {c : C} {p : ProcId} {f : Proc → Proc}

/-- Fields of one process outside the family have changed. -/
theorem Family.setProc (hf : Family k)
    (h : ∀ x : Proc, (f x).state = x.state ∧ (f x).thread = x.thread ∧ (f x).parent = x.parent)
    (hs : (k.proc p).state = .sleeping → (f (k.proc p)).context = (k.proc p).context ∧
      (f (k.proc p)).chan = (k.proc p).chan) : Family (k.setProc p f) := by
  refine hf.same rfl rfl fun q => ?_
  by_cases hq : q = p
  · subst hq
    rw [Kern.setProc_proc_self]
    exact ⟨(h _).1, (h _).2.1, (h _).2.2, hs⟩
  · rw [Kern.setProc_proc_ne _ _ _ hq]
    exact ⟨rfl, rfl, rfl, fun _ => ⟨rfl, rfl⟩⟩

theorem Quiet.setProc (hp : (k.proc p).state.alive = true)
    (h : ∀ x : Proc, (f x).state.alive = true ∧ (f x).thread = x.thread ∧ (f x).parent = x.parent)
    (hk : k'.proc = (k.setProc p f).proc) (hb : k'.boot = k.boot) (hi : k'.initproc = k.initproc) :
    Quiet k k' := by
  refine ⟨hb, hi, fun q => ?_, fun q => ?_, fun q => ?_⟩ <;> rw [hk, Kern.setProc_proc]
  · split
    · rename_i hq
      rw [hq, (h _).2.1]
    · rfl
  · split
    · rename_i hq
      rw [hq, (h _).2.2]
    · rfl
  · split
    · rename_i hq
      rw [hq]
      exact .inr ⟨hp, (h _).1⟩
    · exact .inl rfl

/-- The process on a CPU leaves it: to sleep or as a runnable process. In `wait` it has looked for
zombies before. -/
theorem Family.leave (hf : Family k) (hrun : (k.proc p).state = .running)
    (h : ∀ x : Proc, (f x).state.alive = true ∧ (f x).thread = x.thread ∧ (f x).parent = x.parent)
    (hw : ∀ {w}, (f (k.proc p)).state = .sleeping → (f (k.proc p)).context = .wait w →
      (f (k.proc p)).chan = some (.proc p) ∧
        ∀ q, (k.proc q).parent = some p → (k.proc q).state ≠ .zombie) :
    Family { k.setProc p f with lock := .back c p } := by
  refine hf.quiet (.setProc (by rw [hrun]; rfl) h rfl rfl rfl) fun {q w} hs hctx => ?_
  simp only [Kern.setProc_proc] at hs hctx ⊢
  split at hs
  · rename_i hq
    subst hq
    simp only [if_true] at hctx ⊢
    exact hw hs hctx
  · rename_i hq
    simp only [hq, if_false] at hctx ⊢
    exact hf.asleep hs hctx

theorem Family.switchTo [DecidableEq C] (hf : Family k) (hp : (k.proc p).state = .runnable) : Family (switchTo k c p) := by
  refine hf.quiet (.setProc (f := fun q => { q with numRun := q.numRun + 1, state := .running })
    (by rw [hp]; rfl) (fun _ => ⟨rfl, rfl, rfl⟩) rfl rfl rfl) fun {q w} hs hctx => ?_
  simp only [Process.switchTo, Kern.setProc_proc] at hs hctx ⊢
  split at hs
  · cases hs
  · rename_i hq
    simp only [hq, if_false] at hctx ⊢
    exact hf.asleep hs hctx

/-! ### Births and deaths -/

/-- A slot that nobody lives in changes hands: it is taken, given up or reaped. -/
theorem Family.slot (hf : Family k) (hp : (k.proc p).state.alive = false)
    (hg : (f (k.proc p)).state.grown = false) (hpar : (f (k.proc p)).parent = none)
    (ht : (f (k.proc p)).thread = .run ∨ (f (k.proc p)).thread = (k.proc p).thread)
    (hc : ∀ r, (k.proc r).thread ≠ .fork p true) (hk : k'.proc = (k.setProc p f).proc)
    (hboot : k'.boot = k.boot) (hinit : k'.initproc = k.initproc) : Family k' := by
  have hself : k'.proc p = f (k.proc p) := by rw [hk, Kern.setProc_proc_self]
  have hne : ∀ {q}, q ≠ p → k'.proc q = k.proc q := fun hq => by
    rw [hk, Kern.setProc_proc_ne _ _ _ hq]
  have hgrown : ∀ {q}, (k'.proc q).state.grown = true → q ≠ p ∧ k'.proc q = k.proc q := by
    intro q hq
    have hqp : q ≠ p := by
      rintro rfl
      rw [hself, hg] at hq
      cases hq
    exact ⟨hqp, hne hqp⟩
  have halive : ∀ {q}, (k.proc q).state.alive = true → (k'.proc q).state.alive = true := by
    intro q ha
    rw [hne, ha]
    rintro rfl
    rw [hp] at ha
    cases ha
  have hthread : ∀ {q t}, (k'.proc q).thread = t → t ≠ .run → (k.proc q).thread = t := by
    rintro q t rfl hrun
    by_cases hq : q = p
    · rw [hq, hself] at hrun ⊢
      rcases ht with ht | ht
      · exact absurd ht hrun
      · exact ht.symm
    · rw [hne hq]
  constructor
  case parent =>
    intro q hq hi
    obtain ⟨-, he⟩ := hgrown hq
    rw [he] at hq ⊢
    rw [hinit] at hi
    obtain ⟨r, hr, ha⟩ := hf.parent hq hi
    exact ⟨r, hr, halive ha⟩
  case irrefl =>
    intro q
    by_cases hq : q = p
    · rw [hq, hself, hpar]
      simp
    · rw [hne hq]
      exact hf.irrefl
  case asleep =>
    intro r w hr hctx
    obtain ⟨-, he⟩ := hgrown (show (k'.proc r).state.grown = true by rw [hr]; rfl)
    rw [he] at hr hctx ⊢
    obtain ⟨hc, hkids⟩ := hf.asleep hr hctx
    refine ⟨hc, fun q hq hz => ?_⟩
    obtain ⟨-, he⟩ := hgrown (show (k'.proc q).state.grown = true by rw [hz]; rfl)
    rw [he] at hq hz
    exact hkids q hq hz
  case orphan =>
    intro i hi
    rw [hinit] at hi
    by_cases hip : i = p
    · rw [hip, hself, hpar]
    · rw [hne hip, hf.orphan hi]
  case immortal =>
    intro i hi he
    rw [hinit] at hi
    exact hf.immortal hi (hthread he (by simp))
  case done =>
    intro hb
    rw [hboot] at hb
    obtain ⟨i, hi, ha⟩ := hf.done hb
    exact ⟨i, hinit.trans hi, halive ha⟩
  case booting =>
    intro hb q
    rw [hboot] at hb
    by_cases hq : q = p
    · rw [hq, hself, hg]
    · rw [hne hq, hf.booting hb]
  case embryo =>
    intro i hb
    rw [hboot] at hb
    rw [hinit, hf.embryo hb]
  case unused =>
    intro q hu
    by_cases hq : q = p
    · rw [hq, hself, hpar]
    · rw [hne hq] at hu ⊢
      exact hf.unused hu
  case fork =>
    intro r np hr
    by_cases hnp : np = p
    · rw [hnp, hself, hpar]
    · rw [hne hnp, hf.fork (hthread hr (by simp))]
  case copied =>
    intro r np hr
    have hr := hthread hr (by simp)
    rw [hne, hf.copied hr]
    rintro rfl
    exact hc r hr

theorem Family.setThread (hf : Family k) {t : Thread}
    (h : ∀ x : Proc, (f x).state = x.state ∧ (f x).parent = x.parent ∧ (f x).context = x.context ∧
      (f x).chan = x.chan ∧ (f x).thread = t)
    (hexit : t = .exit → k.initproc ≠ some p)
    (hfork : ∀ np, t = .fork np false → (k.proc np).parent = none)
    (hcopied : ∀ np, t = .fork np true → (k.proc np).parent = some p) : Family (k.setProc p f) := by
  have hsame : ∀ q, ((k.setProc p f).proc q).state = (k.proc q).state ∧
      ((k.setProc p f).proc q).parent = (k.proc q).parent ∧
      ((k.setProc p f).proc q).context = (k.proc q).context ∧
      ((k.setProc p f).proc q).chan = (k.proc q).chan := by
    intro q
    rw [Kern.setProc_proc]
    split
    · rename_i hq
      rw [hq]
      exact ⟨(h _).1, (h _).2.1, (h _).2.2.1, (h _).2.2.2.1⟩
    · exact ⟨rfl, rfl, rfl, rfl⟩
  have hthread : ∀ {q t'}, ((k.setProc p f).proc q).thread = t' →
      (q = p ∧ t = t') ∨ (k.proc q).thread = t' := by
    intro q t' hq
    rw [Kern.setProc_proc] at hq
    split at hq
    · rename_i hqp
      exact .inl ⟨hqp, by rw [← hq, (h _).2.2.2.2]⟩
    · exact .inr hq
  constructor
  case parent =>
    intro q hq hi
    rw [(hsame q).1] at hq
    obtain ⟨r, hr, ha⟩ := hf.parent hq hi
    exact ⟨r, by rw [(hsame q).2.1, hr], by rw [(hsame r).1, ha]⟩
  case irrefl =>
    intro q
    rw [(hsame q).2.1]
    exact hf.irrefl
  case asleep =>
    intro r w hr hctx
    rw [(hsame r).1] at hr
    rw [(hsame r).2.2.1] at hctx
    obtain ⟨hc, hkids⟩ := hf.asleep hr hctx
    refine ⟨(hsame r).2.2.2.trans hc, fun q hq => ?_⟩
    rw [(hsame q).2.1] at hq
    rw [(hsame q).1]
    exact hkids q hq
  case orphan =>
    intro i hi
    rw [(hsame i).2.1, hf.orphan hi]
  case immortal =>
    intro i hi he
    rcases hthread he with ⟨rfl, ht⟩ | ht
    · exact hexit ht hi
    · exact hf.immortal hi ht
  case done =>
    intro hb
    obtain ⟨i, hi, ha⟩ := hf.done hb
    exact ⟨i, hi, by rw [(hsame i).1, ha]⟩
  case booting =>
    intro hb q
    rw [(hsame q).1, hf.booting hb]
  case embryo => exact hf.embryo
  case unused =>
    intro q hu
    rw [(hsame q).1] at hu
    rw [(hsame q).2.1, hf.unused hu]
  case fork =>
    intro r np hr
    rw [(hsame np).2.1]
    rcases hthread hr with ⟨rfl, ht⟩ | ht
    · exact hfork np ht
    · exact hf.fork ht
  case copied =>
    intro r np hr
    rw [(hsame np).2.1]
    rcases hthread hr with ⟨rfl, ht⟩ | ht
    · exact hcopied np ht
    · exact hf.copied ht

theorem Family.adopt (np : ProcId) (hf : Family k) (hnp : (k.proc np).state = .embryo)
    (hne : np ≠ p) (hi : k.initproc ≠ some np) (ht : ∀ r d, (k.proc r).thread ≠ .fork np d) :
    Family (k.setProc np fun q => { q with parent := some p }) := by
  have hsame : ∀ q, ((k.setProc np fun q => { q with parent := some p }).proc q) =
      { k.proc q with parent := if q = np then some p else (k.proc q).parent } := by
    intro q
    rw [Kern.setProc_proc]
    split
    · rename_i hq
      rw [hq]
    · rfl
  have hparent : ∀ {q}, q ≠ np →
      ((k.setProc np fun q => { q with parent := some p }).proc q).parent = (k.proc q).parent :=
    fun hq => by rw [hsame, if_neg hq]
  have hstate : ∀ q, ((k.setProc np fun q => { q with parent := some p }).proc q).state =
      (k.proc q).state := fun q => by rw [hsame]
  have hthread : ∀ q, ((k.setProc np fun q => { q with parent := some p }).proc q).thread =
      (k.proc q).thread := fun q => by rw [hsame]
  constructor
  case parent =>
    intro q hq hqi
    rw [hstate] at hq
    have hqn : q ≠ np := by
      rintro rfl
      rw [hnp] at hq
      cases hq
    obtain ⟨r, hr, ha⟩ := hf.parent hq hqi
    exact ⟨r, by rw [hparent hqn, hr], by rw [hstate, ha]⟩
  case irrefl =>
    intro q
    by_cases hq : q = np
    · rw [hsame, if_pos hq, hq]
      simpa using hne.symm
    · rw [hparent hq]
      exact hf.irrefl
  case asleep =>
    intro r w hr hctx
    rw [hsame] at hr hctx
    obtain ⟨hc, hkids⟩ := hf.asleep hr hctx
    refine ⟨by rw [hsame]; exact hc, fun q hq hz => ?_⟩
    rw [hstate] at hz
    rw [hparent (by rintro rfl; rw [hnp] at hz; cases hz)] at hq
    exact hkids q hq hz
  case orphan =>
    intro i hii
    rw [hparent (by rintro rfl; exact hi hii), hf.orphan hii]
  case immortal =>
    intro i hii
    rw [hthread]
    exact hf.immortal hii
  case done =>
    intro hb
    obtain ⟨i, hii, ha⟩ := hf.done hb
    exact ⟨i, hii, by rw [hstate, ha]⟩
  case booting =>
    intro hb q
    rw [hstate, hf.booting hb]
  case embryo => exact hf.embryo
  case unused =>
    intro q hu
    rw [hstate] at hu
    rw [hparent (by rintro rfl; rw [hnp] at hu; cases hu), hf.unused hu]
  case fork =>
    intro r q hr
    rw [hthread] at hr
    rw [hparent (by rintro rfl; exact ht r _ hr), hf.fork hr]
  case copied =>
    intro r q hr
    rw [hthread] at hr
    rw [hparent (by rintro rfl; exact ht r _ hr), hf.copied hr]

/-- An embryo becomes a process: one with a living parent, or the first. -/
theorem Family.grow (hf : Family k) (hp : (k.proc p).state = .embryo)
    (hpar : k.initproc ≠ some p → ∃ r, (k.proc p).parent = some r ∧ (k.proc r).state.alive = true)
    (hk : k'.proc = (k.setProc p fun q => { q with state := .runnable }).proc)
    (hinit : k'.initproc = k.initproc)
    (hdone : ∃ i, k.initproc = some i ∧ (i = p ∨ (k.proc i).state.alive = true))
    (hboot : k'.boot = .done) : Family k' := by
  have hsame : ∀ q, k'.proc q =
      { k.proc q with state := if q = p then .runnable else (k.proc q).state } := by
    intro q
    rw [hk, Kern.setProc_proc]
    split
    · rename_i hq
      rw [hq]
    · rfl
  have hstate : ∀ {q s}, (k'.proc q).state = s → s ≠ .runnable → (k.proc q).state = s := by
    rintro q s rfl hs
    rw [hsame] at hs ⊢
    by_cases hq : q = p
    · simp [hq] at hs
    · simp [hq]
  have halive : ∀ {q}, q = p ∨ (k.proc q).state.alive = true → (k'.proc q).state.alive = true := by
    intro q hq
    rw [hsame]
    by_cases hqp : q = p
    · simp only [hqp, if_true]
      rfl
    · simp only [hqp, if_false]
      exact hq.resolve_left hqp
  have hparent : ∀ q, (k'.proc q).parent = (k.proc q).parent := fun q => by rw [hsame]
  have hthread : ∀ q, (k'.proc q).thread = (k.proc q).thread := fun q => by rw [hsame]
  constructor
  case parent =>
    intro q hq hi
    rw [hinit] at hi
    rw [hparent]
    by_cases hqp : q = p
    · subst hqp
      obtain ⟨r, hr, ha⟩ := hpar hi
      exact ⟨r, hr, halive (.inr ha)⟩
    · rw [hsame, if_neg hqp] at hq
      obtain ⟨r, hr, ha⟩ := hf.parent hq hi
      exact ⟨r, hr, halive (.inr ha)⟩
  case irrefl =>
    intro q
    rw [hparent]
    exact hf.irrefl
  case asleep =>
    intro r w hr hctx
    have hr := hstate hr (by simp)
    rw [hsame] at hctx
    obtain ⟨hc, hkids⟩ := hf.asleep hr hctx
    refine ⟨by rw [hsame]; exact hc, fun q hq hz => ?_⟩
    rw [hparent] at hq
    exact hkids q hq (hstate hz (by simp))
  case orphan =>
    intro i hi
    rw [hinit] at hi
    rw [hparent, hf.orphan hi]
  case immortal =>
    intro i hi
    rw [hinit] at hi
    rw [hthread]
    exact hf.immortal hi
  case done =>
    intro _
    obtain ⟨i, hi, ha⟩ := hdone
    exact ⟨i, hinit.trans hi, halive ha⟩
  case booting => exact fun hb => absurd hboot hb
  case embryo =>
    intro i hb
    rw [hboot] at hb
    cases hb
  case unused =>
    intro q hu
    rw [hparent, hf.unused (hstate hu (by simp))]
  case fork =>
    intro r np hr
    rw [hthread] at hr
    rw [hparent, hf.fork hr]
  case copied =>
    intro r np hr
    rw [hthread] at hr
    rw [hparent, hf.copied hr]

end moves

end Xv6.Process
