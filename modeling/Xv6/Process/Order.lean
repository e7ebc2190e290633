import Xv6.Process.Entry

/-!
# The order of the multi-level feedback scheduler

The record of the entries is carried along every run. From it: the queues behind the first are
ordered by waiting time, so that `split`, which stops at the first young process, moves all the old
ones; and the scheduler takes the process that entered the first non-empty queue earliest.
-/

namespace Xv6.Process

open Lib

variable {C : Type} {k k' : Kern C} {p : ProcId} {qs : Fin NUM_QUEUES → List ProcId}
  {low T : ℕ} {r : Arrivals ProcId (Fin NUM_QUEUES)} {pend : Option ProcId}

/-! ### Steps that leave the queues -/

/-- The queues and the clock are left, and the ages of the slots in use. -/
structure Unaged (k k' : Kern C) : Prop where
  node : k'.node = k.node
  queues : k'.queues = k.queues
  ticks : k'.ticks = k.ticks
  age : ∀ p, (k.proc p).state ≠ .unused → (k'.proc p).ageTime = (k.proc p).ageTime

theorem Unaged.setProc {f : Proc → Proc}
    (hf : (f (k.proc p)).ageTime = (k.proc p).ageTime ∨ (k.proc p).state = .unused) :
    Unaged k (k.setProc p f) := by
  refine ⟨rfl, rfl, rfl, fun q hq => ?_⟩
  rw [Kern.setProc_proc]
  split
  · rename_i hqp
    subst hqp
    exact hf.resolve_right hq
  · rfl

theorem waitLoop_unaged {w : WaitKind} {c : C} : Unaged k (waitLoop w k c p).1 := by
  unfold waitLoop
  split
  · rename_i q hq
    have := Unaged.setProc (k := k) (p := q) (f := reap) (.inl rfl)
    exact ⟨this.node, this.queues, this.ticks, this.age⟩
  · dsimp only
    split
    · exact ⟨rfl, rfl, rfl, fun _ _ => rfl⟩
    · have := Unaged.setProc (k := k) (p := p)
        (f := fun q => { q with chan := some (.proc p), state := .sleeping, context := .wait w }) (.inl rfl)
      exact ⟨this.node, this.queues, this.ticks, this.age⟩

theorem Unaged.refl (k : Kern C) : Unaged k k := ⟨rfl, rfl, rfl, fun _ _ => rfl⟩

theorem Unaged.trans {k'' : Kern C} (h : Unaged k k') (h' : Unaged k' k'')
    (hs : ∀ p, (k.proc p).state ≠ .unused → (k'.proc p).state ≠ .unused) : Unaged k k'' :=
  ⟨h'.node.trans h.node, h'.queues.trans h.queues, h'.ticks.trans h.ticks,
    fun p hp => (h'.age p (hs p hp)).trans (h.age p hp)⟩

theorem resume_unaged {c : C} : Unaged k (resume k c p).1 := by
  have hset : Unaged k (k.setProc p fun q => { q with chan := none }) := .setProc (.inl rfl)
  unfold resume
  split
  · exact ⟨rfl, rfl, rfl, fun _ _ => rfl⟩
  · exact ⟨rfl, rfl, rfl, fun _ _ => rfl⟩
  · exact ⟨hset.node, hset.queues, hset.ticks, hset.age⟩
  · refine hset.trans waitLoop_unaged fun q hq => ?_
    rwa [setProc_field Proc.state rfl q]

theorem Entered.unaged {pend pend' : Option ProcId} (h : Entered low T r k pend qs)
    (hq : Queued k' pend') (hu : Unaged k k') : Entered low T r k' pend' qs := by
  refine h.keep hq hu.node hu.queues hu.ticks fun p hw => hu.age p ?_
  rw [hw.1]
  exact fun h => by cases h

/-- The pieces of code of a process that put nobody onto a queue. -/
def ProcAct.quiet : ProcAct → Bool
  | .exit | .fork | .kill _ => false
  | _ => true

theorem execProc_unaged {c : C} {a : ProcAct} {o : Out} (ha : a.quiet = true)
    (hx : execProc .mlfq k c p a = .ok (k', o)) : Unaged k k' := by
  have hset : ∀ {f : Proc → Proc}, (f (k.proc p)).ageTime = (k.proc p).ageTime →
      Unaged k (k.setProc p f) := fun hf => .setProc (.inl hf)
  cases a with
  | exit | fork | kill pid => cases ha
  | yield =>
    cases hx
    have h := hset (f := fun q => { q with state := .runnable, context := .yield }) rfl
    exact ⟨h.node, h.queues, h.ticks, h.age⟩
  | sleep chan =>
    cases hx
    have h := hset (f := fun q => { q with chan := some chan, state := .sleeping, context := .sleep }) rfl
    exact ⟨h.node, h.queues, h.ticks, h.age⟩
  | wait w =>
    obtain ⟨rfl, rfl⟩ := Prod.ext_iff.1 (Except.ok.inj hx)
    exact waitLoop_unaged
  | exitBegin =>
    simp only [execProc] at hx
    split at hx
    · cases hx
    · cases hx
      exact hset rfl
  | forkAlloc =>
    simp only [execProc] at hx
    split at hx
    · cases hx
      exact .refl k
    · rename_i np k₁ h₁
      obtain ⟨hunused, rfl⟩ := allocproc_eq h₁
      cases hx
      refine ⟨rfl, rfl, rfl, fun q hq => ?_⟩
      refine (setProc_field Proc.ageTime rfl q).trans ?_
      exact (Unaged.setProc (.inr hunused)).age q hq
  | forkFail | forkCopy =>
    simp only [execProc] at hx
    split at hx
    · cases hx
      refine ⟨rfl, rfl, rfl, fun q _ => ?_⟩
      exact (setProc_field Proc.ageTime rfl q).trans (setProc_field Proc.ageTime rfl q)
    · cases hx
  | trapKill | punisher | incTimeslice =>
    cases hx
    exact hset rfl
  | setPriority n =>
    simp only [execProc] at hx
    split at hx
    · cases hx
      exact .refl k
    · cases hx
      exact hset rfl
  | incPinfoTicks =>
    simp only [execProc] at hx
    split at hx
    · cases hx
      exact hset rfl
    · cases hx

/-! ### Every step -/

theorem Entered.tick {pend : Option ProcId} (h : Entered low T r k pend qs) (hq : Queued k' pend)
    (hk : k' = { k with ticks := k.ticks + 1, phase := .ticked }) :
    Entered low (T + 1) r k' pend qs := by
  subst hk
  obtain ⟨qs', h'⟩ := hq
  obtain rfl : qs' = qs := h'.refines.unique h.ready.refines
  refine ⟨h', h.turn.later (Nat.le_succ T), h.low_le.trans (Nat.le_succ T), fun i hi p hp => ?_⟩
  obtain ⟨hlow, hage⟩ := h.age i hi p hp
  obtain ⟨-, -, hle⟩ := h.turn.mem i p hp
  refine ⟨hlow, ?_⟩
  show k.ticks + 1 - (k.proc p).ageTime = _
  rw [show T + 1 - r.time p = (T - r.time p) + 1 by omega, BitVec.ofNat_add, ← hage]
  bv_omega

/-- **Every step but a tick makes its entries.** -/
theorem Entered.step [DecidableEq C] {a : Act C} {o : Out} (h : Entered low T r k k.lock.pending qs) (hs : Sound k)
    (ha : a ≠ .tick) (hst : Step .mlfq k (a, o) k') :
    ∃ qs', Entered low T (r.enterAll T (entries k a)) k' k'.lock.pending qs' := by
  have hq := (hs.step hst).queued
  obtain ⟨hen, hx⟩ := step_iff.1 hst
  have hwake : k.lock = .free → ∀ {chan k₁}, Process.wakeup1 .mlfq k chan = .ok k₁ →
      k₁.lock = .free ∧ ∃ qs', Entered low T (r.enterAll T (wakeup1Entries chan k)) k₁ none qs' := by
    intro hl chan k₁ h₁
    rw [hl] at h
    exact ⟨by rw [(wakeup1_frame h₁).1.lock, hl], h.wakeup1 h₁⟩
  cases a with
  | tick => exact absurd rfl ha
  | userinitAlloc =>
    obtain ⟨p, k₁, h₁, rfl, rfl⟩ := exec_userinitAlloc hx
    obtain ⟨hunused, rfl⟩ := allocproc_eq h₁
    have hset : Unaged k (k.setProc p (embryo k)) := .setProc (.inr hunused)
    exact ⟨qs, h.unaged hq ⟨hset.node, hset.queues, hset.ticks, hset.age⟩⟩
  | userinit =>
    simp only [enabled, Bool.and_eq_true, decide_eq_true_eq] at hen
    obtain ⟨p, k₁, hb, h₁, rfl, rfl⟩ := exec_userinit hx
    rw [hen.2] at h
    obtain ⟨qs', h'⟩ := h.activate (hs.shape.boot hb) h₁
    refine ⟨qs', ?_⟩
    simp only [entries, hb]
    exact h'.keep hq rfl rfl rfl fun _ _ => rfl
  | readTicks c =>
    cases hx
    exact ⟨qs, h.unaged hq ⟨rfl, rfl, rfl, fun _ _ => rfl⟩⟩
  | scheduler c =>
    simp only [enabled, Bool.and_eq_true, decide_eq_true_eq] at hen
    rw [hen.1.2] at h
    have h₀ : Entered low T r { k with seen := Function.update k.seen c none } none qs :=
      h.keep ⟨qs, h.ready.of_eq rfl rfl rfl⟩ rfl rfl rfl fun _ _ => rfl
    obtain ⟨k₁, qs₁, -, h₁, ⟨-, -, rfl⟩ | ⟨p, i, ps, -, -, -, hl, -, h₂⟩⟩ := h₀.schedMLFQ hx
    · exact ⟨qs₁, h₁.keep hq rfl rfl rfl fun _ _ => rfl⟩
    · exact ⟨_, by rw [hl]; exact h₂⟩
  | resume c =>
    obtain ⟨p, -, hx⟩ := exec_resume hen hx
    obtain ⟨rfl, -⟩ := Prod.ext_iff.1 hx
    exact ⟨qs, h.unaged hq resume_unaged⟩
  | back c =>
    obtain ⟨p, hl, hx⟩ := exec_back hen hx
    rw [hl] at h
    have h₀ : Entered low T r { k with cpu := Function.update k.cpu c none } (some p) qs :=
      h.keep ⟨qs, h.ready.of_eq rfl rfl rfl⟩ rfl rfl rfl fun _ _ => rfl
    simp only [Process.back] at hx
    split at hx
    · cases hx
    · rename_i k₁ h₁
      cases hx
      obtain ⟨qs', h'⟩ := h₀.requeue h₁
      refine ⟨qs', ?_⟩
      simp only [entries, hl]
      exact h'.keep hq rfl rfl rfl fun _ _ => rfl
  | proc c p a =>
    obtain ⟨-, -, hfree, -, hrun⟩ := lock_of_enabled hs.shape hen
    have hx : execProc .mlfq k c p a = .ok (k', o) := hx
    cases a with
    | exit =>
      rw [hfree rfl] at h
      simp only [execProc] at hx
      split at hx
      · cases hx
      · rename_i k₁ h₁
        cases hx
        obtain ⟨qs', h'⟩ := h.exit hrun h₁
        exact ⟨qs', h'.keep hq rfl rfl rfl fun _ _ => rfl⟩
    | fork =>
      rw [hfree rfl] at h
      simp only [execProc] at hx
      split at hx
      · rename_i np copied ht
        split at hx
        · cases hx
        · rename_i k₁ h₁
          cases hx
          obtain ⟨qs', h'⟩ := h.activate (hs.shape.fork ht) h₁
          refine ⟨qs', ?_⟩
          simp only [entries, ht]
          exact h'.keep hq rfl rfl rfl fun q _ => setProc_field Proc.ageTime rfl q
      · cases hx
    | kill pid =>
      rw [hfree rfl] at h
      obtain ⟨qs', h'⟩ := h.kill hx
      exact ⟨qs', h'.keep hq rfl rfl rfl fun _ _ => rfl⟩
    | _ => exact ⟨qs, h.unaged hq (execProc_unaged (by rfl) hx)⟩
  | wakeup chan =>
    obtain ⟨h₁, rfl⟩ := exec_wakeup hx
    obtain ⟨-, qs', h'⟩ := hwake (by simpa [enabled] using hen) h₁
    exact ⟨qs', h'.keep hq rfl rfl rfl fun _ _ => rfl⟩
  | incRuntime =>
    cases hx
    refine ⟨qs, h.keep hq rfl rfl rfl fun p _ => ?_⟩
    simp only [incRuntime]
    split <;> rfl
  | wakeupTicks =>
    simp only [enabled, Bool.and_eq_true, decide_eq_true_eq] at hen
    obtain ⟨k₁, h₁, rfl, rfl⟩ := exec_wakeupTicks hx
    obtain ⟨-, qs', h'⟩ := hwake hen.2 h₁
    exact ⟨qs', h'.keep hq rfl rfl rfl fun _ _ => rfl⟩

/-! ### Ageing is complete -/

/-- How long the process has waited, as `split` computes it. -/
def waited (k : Kern C) (p : ProcId) : Word := k.ticks - (k.proc p).ageTime

/-- The list is ordered by waiting time, longest first. -/
def ByWait (k : Kern C) (l : List ProcId) : Prop := l.Pairwise fun p q => waited k q ≤ waited k p

/-- The process has waited for more than `AGE_LIMIT` ticks. -/
def old (k : Kern C) (p : ProcId) : Bool := decide (BitVec.ofNat 32 AGE_LIMIT < waited k p)

/-- What splitting off all the old processes of the queue `i` would leave: they go to the end of the
queue before, in their order. -/
def fullFilter (k : Kern C) (qs : Fin NUM_QUEUES → List ProcId) (i : Fin NUM_QUEUES) :
    Fin NUM_QUEUES → List ProcId :=
  moveFront qs i (i - 1) ((qs i).filter (old k)) ((qs i).filter fun p => !old k p)

/-- No wait behind the first queue comes to `2 ^ 32` ticks. -/
def waitsShort (k : Kern C) : Act C → Bool
  | .tick => ∀ p, (k.proc p).state = .runnable → (k.proc p).queue ≠ 0 → k.lock.pending ≠ some p →
      (waited k p).toNat + 1 < 2 ^ 32
  | _ => true

/-- In a list where nobody young stands before somebody old, the longest prefix of old ones is all
of them. -/
theorem takeWhile_eq_filter {l : List ProcId} {f : ProcId → Bool}
    (h : l.Pairwise fun p q => f q = true → f p = true) :
    l.takeWhile f = l.filter f ∧ l.dropWhile f = l.filter fun p => !f p := by
  induction l with
  | nil => exact ⟨rfl, rfl⟩
  | cons p l ih =>
    obtain ⟨hp, hl⟩ := List.pairwise_cons.1 h
    cases hf : f p with
    | true => simpa [hf] using ih hl
    | false =>
      have hyoung : ∀ q ∈ l, f q = false := fun q hq => by
        by_contra hc
        rw [hp q hq (by simpa using hc)] at hf
        cases hf
      have hnone : l.filter f = [] := List.filter_eq_nil_iff.2 fun q hq => by simp [hyoung q hq]
      have hall : l.filter (fun p => !f p) = l := List.filter_eq_self.2 fun q hq => by simp [hyoung q hq]
      simp [hf, hnone, hall]

/-- The waits are shorter than `2 ^ 32`, so that the word is the time since the entry. -/
theorem Entered.waited (h : Entered low T r k pend qs) (hT : T < low + 2 ^ 32) {i : Fin NUM_QUEUES}
    (hi : i ≠ 0) (hp : p ∈ qs i) : (Process.waited k p).toNat = T - r.time p := by
  obtain ⟨hlow, hage⟩ := h.age i hi p hp
  show (k.ticks - (k.proc p).ageTime).toNat = _
  rw [hage, BitVec.toNat_ofNat]
  exact Nat.mod_eq_of_lt (by omega)

/-- **The queues behind the first are ordered by waiting time.** -/
theorem Entered.byWait (h : Entered low T r k pend qs) (hT : T < low + 2 ^ 32) {i : Fin NUM_QUEUES}
    (hi : i ≠ 0) : ByWait k (qs i) := by
  refine (h.turn.order i).imp_of_mem fun {p q} hp hq hpq => ?_
  show Process.waited k q ≤ Process.waited k p
  rw [BitVec.le_def, h.waited hT hi hp, h.waited hT hi hq]
  have := hpq.2
  omega

theorem ByWait.old {l : List ProcId} (h : ByWait k l) :
    l.Pairwise fun p q => old k q = true → old k p = true := by
  refine h.imp fun {p q} hpq hq => ?_
  simp only [Process.old, decide_eq_true_eq] at hq ⊢
  exact Nat.lt_of_lt_of_le hq hpq

/-- **`split` stops at the first young process and has moved all the old ones.** -/
theorem Entered.split (h : Entered low T r k none qs) (hT : T < low + 2 ^ 32) {i : Fin NUM_QUEUES}
    (hi : i ≠ 0) : ∃ k', Process.ageQueue k i = .ok k' ∧
      k'.proc = agedAll k.ticks k.proc ((qs i).filter (Process.old k)) ∧
      Entered low T (r.enterAll T (ageEntries k i)) k' none (fullFilter k qs i) := by
  obtain ⟨k', hx, hproc, -⟩ := h.ready.ageQueue hi
  obtain ⟨htake, hdrop⟩ := takeWhile_eq_filter (h.byWait hT hi).old
  have h' := h.ageQueue hi hx
  dsimp only at h' hproc
  change k'.proc = agedAll k.ticks k.proc ((qs i).takeWhile (Process.old k)) at hproc
  change Entered _ _ _ _ _ (moveFront qs i (i - 1) ((qs i).takeWhile (Process.old k))
    ((qs i).dropWhile (Process.old k))) at h'
  rw [htake] at h' hproc
  rw [hdrop] at h'
  exact ⟨k', hx, hproc, h'⟩

/-- The ageing pass that began at `k₀` has gone through the queues `is`. -/
structure Swept (k₀ : Kern C) (is : List (Fin NUM_QUEUES)) (k : Kern C)
    (qs : Fin NUM_QUEUES → List ProcId) : Prop where
  ticks : k.ticks = k₀.ticks
  young : ∀ i ∈ is, ∀ p ∈ qs i, old k p = false
  /-- A process is left, or has gone up once and starts to wait again. -/
  proc : ∀ p, k.proc p = k₀.proc p ∨ k.proc p = aged k₀.ticks (k₀.proc p)

theorem old_aged (h : k'.proc p = aged k'.ticks (k.proc p)) : old k' p = false := by
  simp [old, waited, h, aged]

theorem mem_fullFilter {i j : Fin NUM_QUEUES} (hi : i ≠ 0) (hp : p ∈ fullFilter k qs i j) :
    p ∈ (qs i).filter (old k) ∨ p ∈ qs j ∧ (j = i → old k p = false) := by
  unfold fullFilter moveFront at hp
  by_cases hj : j = i - 1
  · subst hj
    rw [Function.update_self, List.mem_append] at hp
    exact hp.symm.imp id fun hp => ⟨hp, fun he => absurd he.symm (pred_ne hi)⟩
  · rw [Function.update_of_ne hj] at hp
    by_cases hji : j = i
    · subst hji
      rw [Function.update_self, List.mem_filter, Bool.not_eq_true'] at hp
      exact .inr ⟨hp.1, fun _ => hp.2⟩
    · rw [Function.update_of_ne hji] at hp
      exact .inr ⟨hp, fun he => absurd he hji⟩

theorem Swept.split {k₀ : Kern C} {is : List (Fin NUM_QUEUES)} {i : Fin NUM_QUEUES}
    (h : Swept k₀ is k qs) (hi : i ≠ 0) (ht : k'.ticks = k.ticks)
    (hproc : k'.proc = agedAll k.ticks k.proc ((qs i).filter (old k))) :
    Swept k₀ (is ++ [i]) k' (fullFilter k qs i) := by
  have hmoved : ∀ {p}, p ∈ (qs i).filter (old k) → k'.proc p = aged k'.ticks (k.proc p) := by
    intro p hp
    rw [hproc, agedAll, if_pos hp, ht]
  have hleft : ∀ {p}, p ∉ (qs i).filter (old k) → k'.proc p = k.proc p := by
    intro p hp
    rw [hproc, agedAll, if_neg hp]
  refine ⟨ht.trans h.ticks, fun j hj p hp => ?_, fun p => ?_⟩
  · by_cases hm : p ∈ (qs i).filter (old k)
    · exact old_aged (hmoved hm)
    · obtain ⟨hpj, hyoung⟩ := (mem_fullFilter hi hp).resolve_left hm
      have hsame : old k' p = old k p := by
        unfold old waited
        rw [ht, hleft hm]
      rw [hsame]
      rcases List.mem_append.1 hj with hj | hj
      · exact h.young j hj p hpj
      · exact hyoung (List.mem_singleton.1 hj)
  · by_cases hm : p ∈ (qs i).filter (old k)
    · -- it has not gone up before: it would be young
      have hold : old k p = true := (List.mem_filter.1 hm).2
      rcases h.proc p with hp | hp
      · rw [hmoved hm, hp, ht, h.ticks]
        exact .inr rfl
      · rw [← h.ticks] at hp
        rw [old_aged hp] at hold
        cases hold
    · rw [hleft hm]
      exact h.proc p

/-- **The ageing pass**, split by split. -/
theorem Entered.pass {k₀ : Kern C} {is done : List (Fin NUM_QUEUES)} (h : Entered low T r k none qs)
    (hT : T < low + 2 ^ 32) (hp : Swept k₀ done k qs) (his : ∀ i ∈ is, i ≠ 0) :
    ∃ k' qs' r', is.foldlM Process.ageQueue k = .ok k' ∧ Entered low T r' k' none qs' ∧
      Swept k₀ (done ++ is) k' qs' := by
  induction is generalizing k qs r done with
  | nil => exact ⟨k, qs, r, rfl, h, by rwa [List.append_nil]⟩
  | cons i is ih =>
    have hi := his i List.mem_cons_self
    obtain ⟨k₁, hx, hproc, h₁⟩ := h.split hT hi
    have hp₁ := hp.split hi (ageQueue_frame hx).1.ticks hproc
    obtain ⟨k', qs', r', hx', h', hp'⟩ := ih h₁ hp₁ fun j hj => his j (List.mem_cons_of_mem i hj)
    refine ⟨k', qs', r', ?_, h', by simpa using hp'⟩
    rw [List.foldlM_cons, hx]
    exact hx'

/-- The queues and their entries, in a state where no wait has come to `2 ^ 32` ticks. -/
def Timely (k : Kern C) : Prop :=
  ∃ low T r qs, Entered low T r k k.lock.pending qs ∧ T < low + 2 ^ 32

theorem Entered.init : Entered 0 0 ⟨0, fun _ => 0, fun _ => 0, fun _ => 0⟩ (Process.boot C) none fun _ => [] where
  ready := by
    obtain ⟨qs, h⟩ := (Sound.init (C := C)).queued
    have hqs : qs = fun _ => [] := by
      funext i
      refine List.eq_nil_iff_forall_not_mem.2 fun p hp => ?_
      have := ((h.mem p i).1 hp).1
      simp [Process.boot] at this
    exact hqs ▸ h
  turn := ⟨fun _ => .nil, fun _ _ => nofun⟩
  low_le := le_rfl
  age _ _ _ := nofun

theorem Timely.step [DecidableEq C] {a : Act C} {o : Out} (h : Timely k) (hs : Sound k) (hst : Step .mlfq k (a, o) k')
    (hg : waitsShort k a = true) : Timely k' := by
  obtain ⟨low, T, r, qs, h, hT⟩ := h
  by_cases ha : a = .tick
  · subst ha
    have hq := (hs.step hst).queued
    obtain ⟨-, hx⟩ := step_iff.1 hst
    cases hx
    -- nobody has waited for `2 ^ 32 - 1` ticks before this one
    refine ⟨T + 2 - 2 ^ 32, T + 1, r, qs, ?_, by omega⟩
    have h' := h.tick hq rfl
    refine ⟨h'.ready, h'.turn, by omega, fun i hi p hp => ⟨?_, (h'.age i hi p hp).2⟩⟩
    obtain ⟨hrun, hqueue, hpend⟩ := (h.ready.mem p i).1 hp
    have hne : (k.proc p).queue ≠ 0 := by
      rw [hqueue]
      exact fun h0 => hi (Fin.ext (by simpa using h0))
    simp only [waitsShort, decide_eq_true_eq] at hg
    have hshort := hg p hrun hne hpend
    rw [h.waited hT hi hp] at hshort
    omega
  · obtain ⟨qs', h'⟩ := h.step hs ha hst
    exact ⟨low, T, _, qs', h', hT⟩

theorem GuardedRuns.timely [DecidableEq C] {h : List (Event C)} (hr : GuardedRuns waitsShort .mlfq h k) : Timely k := by
  have : Sound k ∧ Timely k := by
    refine Run.invariant hr (P := fun _ k => Sound k ∧ Timely k) ⟨.init, ?_⟩ ?_
    · exact ⟨0, 0, _, _, Entered.init, by omega⟩
    · rintro _ k k' ⟨a, o⟩ - ⟨hs, ht⟩ ⟨hst, hg⟩
      exact ⟨hs.step hst, ht.step hs hst hg⟩
  exact this.2

/-- **Ageing is complete.** In every run of the multi-level feedback build in which no wait comes to
`2 ^ 32` ticks, the queues behind the first are ordered by waiting time. So when a scheduler goes
through them, each `split` on the way, though it stops at the first young process, moves what a full
filter would move and in the same order; and the whole pass leaves nobody behind the first queue who
has waited for more than `AGE_LIMIT` ticks, and moves nobody up by more than one queue. -/
theorem mlfq_ageing [DecidableEq C] {h : List (Event C)} (hr : GuardedRuns waitsShort .mlfq h k) :
    ∃ qs, Refines k.node k.queues qs ∧ (∀ i, i ≠ 0 → ByWait k (qs i)) ∧
      (k.lock = .free →
        (∀ is i, is ++ [i] <+: [1, 2, 3, 4] → ∃ k₁ qs₁ k₂, is.foldlM ageQueue k = .ok k₁ ∧
          Refines k₁.node k₁.queues qs₁ ∧ (∀ i, i ≠ 0 → ByWait k₁ (qs₁ i)) ∧
          ageQueue k₁ i = .ok k₂ ∧ Refines k₂.node k₂.queues (fullFilter k₁ qs₁ i)) ∧
        ∃ k' qs', [1, 2, 3, 4].foldlM ageQueue k = .ok k' ∧ k'.ticks = k.ticks ∧
          Refines k'.node k'.queues qs' ∧
          (∀ i, i ≠ 0 → ∀ p ∈ qs' i, waited k' p ≤ .ofNat 32 AGE_LIMIT) ∧
          (∀ p, (k'.proc p).queue = (k.proc p).queue ∨ (k'.proc p).queue = (k.proc p).queue - 1) ∧
          ∀ i, ∀ p ∈ qs i, p ∈ qs' i ∨ i ≠ 0 ∧ p ∈ qs' (i - 1)) := by
  obtain ⟨low, T, r, qs, he, hT⟩ := GuardedRuns.timely hr
  refine ⟨qs, he.ready.refines, fun i hi => he.byWait hT hi, fun hl => ?_⟩
  rw [hl] at he
  have hstart : Swept k [] k qs := ⟨rfl, nofun, fun _ => .inl rfl⟩
  have hpass : ∀ i ∈ ([1, 2, 3, 4] : List (Fin NUM_QUEUES)), i ≠ 0 := by decide
  refine ⟨fun is i hpre => ?_, ?_⟩
  · have hmem : ∀ j ∈ is ++ [i], j ≠ 0 := fun j hj => hpass j (hpre.subset hj)
    obtain ⟨k₁, qs₁, r₁, hx₁, h₁, -⟩ := he.pass hT hstart fun j hj => hmem j (List.mem_append_left _ hj)
    obtain ⟨k₂, hx₂, -, h₂⟩ := h₁.split hT (hmem i (by simp))
    exact ⟨k₁, qs₁, k₂, hx₁, h₁.ready.refines, fun i hi => h₁.byWait hT hi, hx₂, h₂.ready.refines⟩
  · obtain ⟨k', qs', r', hx, h', hp⟩ := he.pass hT hstart hpass
    have hqueue : ∀ p, (k'.proc p).queue = (k.proc p).queue ∨ (k'.proc p).queue = (k.proc p).queue - 1 := by
      intro p
      rcases hp.proc p with hp | hp
      · exact .inl (by rw [hp])
      · exact .inr (by rw [hp]; rfl)
    refine ⟨k', qs', hx, hp.ticks, h'.ready.refines, fun i hi p hpi => ?_, hqueue, fun i p hpi => ?_⟩
    · have hall : ∀ i : Fin NUM_QUEUES, i ≠ 0 → i ∈ [] ++ ([1, 2, 3, 4] : List (Fin NUM_QUEUES)) := by decide
      have := hp.young i (hall i hi) p hpi
      simpa [old] using this
    · obtain ⟨hrun, hqi, -⟩ := (he.ready.mem p i).1 hpi
      have hrun' : (k'.proc p).state = .runnable := by
        rcases hp.proc p with hp | hp
        · rw [hp, hrun]
        · rw [hp, ← hrun]; rfl
      rcases hqueue p with hq | hq
      · exact .inl ((h'.ready.mem p i).2 ⟨hrun', by rw [hq, hqi], nofun⟩)
      · have hpos := (h'.ready.queue p).1
        rw [hq, hqi] at hpos
        have hi : i ≠ 0 := by
          rintro rfl
          simp at hpos
        have hpred : ∀ i : Fin NUM_QUEUES, i ≠ 0 → ((i - 1 : Fin NUM_QUEUES).val : ℤ) = i.val - 1 := by decide
        exact .inr ⟨hi, (h'.ready.mem p _).2 ⟨hrun', by rw [hq, hqi, hpred i hi], nofun⟩⟩

/-- A tick, with all that the timer handler does. -/
def tickEvents : List (Event (Fin 2)) := [(.tick, .done), (.incRuntime, .done), (.wakeupTicks, .done)]

/-- Two processes use up their slices, one tick apart, go down to the second queue and wait there. -/
def demoteEvents : List (Event (Fin 2)) :=
  [(.userinitAlloc, .alloc 0), (.userinit, .done), (.scheduler 0, .dispatch 0), (.resume 0, .done),
    (.proc 0 0 .forkAlloc, .alloc 1), (.proc 0 0 .forkCopy, .done), (.proc 0 0 .fork, .done),
    (.proc 0 0 .punisher, .done), (.proc 0 0 .yield, .done), (.back 0, .done)] ++ tickEvents ++
  [(.scheduler 0, .dispatch 1), (.resume 0, .done), (.proc 0 1 .punisher, .done), (.proc 0 1 .yield, .done),
    (.back 0, .done)] ++ (List.replicate AGE_LIMIT tickEvents).flatten

/-- The pass moves the one up that has waited for too long. -/
def agesFirst (k : Kern (Fin 2)) : Bool :=
  match [1, 2, 3, 4].foldlM ageQueue k with
  | .ok k' => (k'.proc 0).queue = 0 ∧ (k'.proc 1).queue = 1
  | .error _ => false

theorem mlfq_ageing_demote :
    ∃ k : Kern (Fin 2), GuardedRuns waitsShort .mlfq demoteEvents.reverse k ∧
      ((k.proc 0).queue = 1 ∧ waited k 0 = 31 ∧ (k.proc 1).queue = 1 ∧ waited k 1 = 30 ∧ k.lock = .free) ∧
      ∃ qs, Refines k.node k.queues qs ∧ (∀ i, i ≠ 0 → ByWait k (qs i)) ∧
        ∃ k' qs', [1, 2, 3, 4].foldlM ageQueue k = .ok k' ∧ Refines k'.node k'.queues qs' ∧
          (∀ i, i ≠ 0 → ∀ p ∈ qs' i, waited k' p ≤ .ofNat 32 AGE_LIMIT) ∧
          (k'.proc 0).queue = 0 ∧ (k'.proc 1).queue = 1 := by
  obtain ⟨k, hr, hk⟩ := (kernel .mlfq).exists_guarded waitsShort demoteEvents
    (fun k => ((k.proc 0).queue = 1 ∧ waited k 0 = 31 ∧ (k.proc 1).queue = 1 ∧ waited k 1 = 30 ∧ k.lock = .free) ∧
      agesFirst k = true) (by decide +kernel)
  simp only [decide_eq_true_eq] at hk
  obtain ⟨hk, hfirst⟩ := hk
  obtain ⟨qs, href, hwait, hpass⟩ := mlfq_ageing hr
  obtain ⟨-, k', qs', hx, -, href', hyoung, -⟩ := hpass hk.2.2.2.2
  rw [agesFirst, hx] at hfirst
  exact ⟨k, hr, hk, qs, href, hwait, k', qs', hx, href', hyoung, of_decide_eq_true hfirst⟩

/-! ### The order of dispatch -/

/-- The record of the entries and the number of ticks, next to the kernel. -/
def record [DecidableEq C] (g : Arrivals ProcId (Fin NUM_QUEUES) × ℕ) (k : Kern C) (a : Act C) :
    Arrivals ProcId (Fin NUM_QUEUES) × ℕ :=
  (g.1.enterAll g.2 (entries k a), if a = .tick then g.2 + 1 else g.2)

/-- **The kernel with the record of its entries.** -/
def recorded [DecidableEq C] : Machine (Kern C × Arrivals ProcId (Fin NUM_QUEUES) × ℕ) (Act C) Out Fault :=
  (kernel .mlfq).ghost (⟨0, fun _ => 0, fun _ => 0, fun _ => 0⟩, 0) record

theorem recorded_entered [DecidableEq C] {h : List (Event C)} (hr : recorded.Runs h (k, r, T)) :
    Sound k ∧ ∃ qs, Entered 0 T r k k.lock.pending qs := by
  refine Run.invariant hr (P := fun _ s => Sound s.1 ∧ ∃ qs, Entered 0 s.2.2 s.2.1 s.1 s.1.lock.pending qs)
    ⟨.init, _, Entered.init⟩ ?_
  rintro _ ⟨k, r, T⟩ ⟨a, o⟩ ⟨k', r', T'⟩ - ⟨hs, qs, h⟩ hst
  obtain ⟨hst₁, hg⟩ := Machine.ghost_step.1 hst
  have hr : r' = r.enterAll T (entries k a) := congrArg Prod.fst hg
  have hT : T' = if a = .tick then T + 1 else T := congrArg Prod.snd hg
  refine ⟨hs.step hst₁, ?_⟩
  by_cases ha : a = .tick
  · subst ha hr hT
    have hq := (hs.step hst₁).queued
    obtain ⟨-, hx⟩ := step_iff.1 hst₁
    cases hx
    exact ⟨qs, h.tick hq rfl⟩
  · rw [if_neg ha] at hT
    subst hr hT
    exact h.step hs ha hst₁

/-- A process that waits is on the queue that its field names. -/
theorem Ready.exists_queue (h : Ready k pend qs) (hw : Waiting k pend p) :
    ∃ i, p ∈ qs i ∧ (k.proc p).queue = (i.val : ℤ) := by
  obtain ⟨h0, hlt⟩ := h.queue p
  have hq : (k.proc p).queue = ((⟨(k.proc p).queue.toNat, by omega⟩ : Fin NUM_QUEUES).val : ℤ) := by
    simp [h0]
  exact ⟨_, (h.mem p _).2 ⟨hw.1, hq, hw.2⟩, hq⟩

/-- Among the processes that are `RUNNABLE`, `p` stands first: nobody is on a lower queue, and those
on its queue have entered it later. -/
structure Foremost (k : Kern C) (r : Arrivals ProcId (Fin NUM_QUEUES)) (p : ProcId) : Prop where
  into : (r.into p : ℤ) = (k.proc p).queue
  le : ∀ q ≠ p, (k.proc q).state = .runnable → (k.proc p).queue ≤ (k.proc q).queue
  first : ∀ q ≠ p, (k.proc q).state = .runnable → (k.proc q).queue = (k.proc p).queue →
    r.into q = r.into p ∧ r.seq p < r.seq q

/-- **The order of dispatch.** Every run has a record of the entries into the queues, and whenever a
scheduler switches to a process in it, that process was runnable, no runnable process is on a lower
queue, and every other runnable process of its queue has entered that queue later. A scheduler finds
no process only if none is runnable. -/
theorem mlfq_dispatch [DecidableEq C] {h : List (Event C)} (hr : Runs .mlfq h k) :
    ∃ r T, recorded.Runs h (k, r, T) ∧
      ∀ c o k' r', recorded.Step (k, r, T) (.scheduler c, o) (k', r') →
        (∃ p, o = .dispatch p ∧ (k.proc p).state = .runnable ∧ Foremost k' r'.1 p ∧
          ∀ q ≠ p, (k'.proc q).state = .runnable ↔ (k.proc q).state = .runnable) ∨
        o = .idle ∧ ∀ q, (k.proc q).state ≠ .runnable := by
  obtain ⟨⟨r, T⟩, hg⟩ := Machine.Runs.exists_ghost
    ((⟨0, fun _ => 0, fun _ => 0, fun _ => 0⟩, 0) : Arrivals ProcId (Fin NUM_QUEUES) × ℕ) record hr
  refine ⟨r, T, hg, fun c o k' r' hst => ?_⟩
  obtain ⟨hs, qs, he⟩ := recorded_entered hg
  obtain ⟨hst₁, rfl⟩ := Machine.ghost_step.1 hst
  obtain ⟨hen, hx⟩ := step_iff.1 hst₁
  simp only [enabled, Bool.and_eq_true, decide_eq_true_eq] at hen
  rw [hen.1.2] at he
  have h₀ : Entered 0 T r { k with seen := Function.update k.seen c none } none qs :=
    he.keep ⟨qs, he.ready.of_eq rfl rfl rfl⟩ rfl rfl rfl fun _ _ => rfl
  obtain ⟨k₁, qs₁, hage, h₁, ho⟩ := h₀.schedMLFQ hx
  have hag : Aged { k with seen := Function.update k.seen c none } k₁ :=
    foldlM_rel Aged.refl Aged.trans ageQueue_frame _ hage
  have hstate : ∀ q, (k₁.proc q).state = (k.proc q).state := by
    intro q
    obtain ⟨i, a, hq⟩ := hag.2 q
    rw [hq]
  rcases ho with ⟨rfl, hempty, -⟩ | ⟨p, i, ps, rfl, hi, hbelow, -, hqueue, h₂⟩
  · refine .inr ⟨rfl, fun q hq => ?_⟩
    rw [← hstate] at hq
    obtain ⟨j, hj, -⟩ := h₁.ready.exists_queue ⟨hq, (Option.some_ne_none q).symm⟩
    rw [hempty j] at hj
    exact List.not_mem_nil hj
  · have hpi : p ∈ qs₁ i := by simp [hi]
    obtain ⟨hprun, hpq, -⟩ := (h₁.ready.mem p i).1 hpi
    -- the queues after the dispatch: `p` is off its queue
    have hother : ∀ q ≠ p, ∀ j, q ∈ Function.update qs₁ i ps j ↔ q ∈ qs₁ j := by
      intro q hq j
      by_cases hj : j = i
      · subst hj
        rw [Function.update_self, hi]
        simp [hq]
      · rw [Function.update_of_ne hj]
    have hafter : ∀ q ≠ p, (k'.proc q).state = .runnable →
        ∃ j, q ∈ qs₁ j ∧ (k'.proc q).queue = (j.val : ℤ) := by
      intro q hq hrun
      obtain ⟨j, hj, hqj⟩ := h₂.ready.exists_queue ⟨hrun, (Option.some_ne_none q).symm⟩
      exact ⟨j, (hother q hq j).1 hj, hqj⟩
    refine .inl ⟨p, rfl, by rw [← hstate, hprun], ⟨?_, fun q hq hrun => ?_, fun q hq hrun heq => ?_⟩, ?_⟩
    · rw [hqueue, hpq]
      exact congrArg (fun j : Fin NUM_QUEUES => (j.val : ℤ)) (h₁.turn.mem i p hpi).1
    · -- a queue below that of `p` is empty
      obtain ⟨j, hj, hqj⟩ := hafter q hq hrun
      rw [hqueue p, hpq, hqj]
      by_contra hlt
      rw [hbelow j (Fin.lt_def.2 (by omega))] at hj
      exact List.not_mem_nil hj
    · -- the others of its queue are behind `p`
      obtain ⟨j, hj, hqj⟩ := hafter q hq hrun
      rw [hqueue p, hpq, hqj] at heq
      obtain rfl : j = i := Fin.ext (by omega)
      refine ⟨(h₁.turn.mem j q hj).1.trans (h₁.turn.mem j p hpi).1.symm, ?_⟩
      have horder := h₁.turn.order j
      rw [hi] at horder hj
      exact ((List.pairwise_cons.1 horder).1 q ((List.mem_cons.1 hj).resolve_left hq)).1
    · intro q hq
      rw [← hstate]
      constructor
      · intro hrun
        obtain ⟨j, hj, -⟩ := hafter q hq hrun
        exact ((h₁.ready.mem q j).1 hj).1
      · intro hrun
        obtain ⟨j, hj, -⟩ := h₁.ready.exists_queue ⟨hrun, (Option.some_ne_none q).symm⟩
        exact ((h₂.ready.mem q j).1 ((hother q hq j).2 hj)).1

/-- The child of the first process is switched to before its parent, which went back onto the queue
after it. -/
theorem mlfq_dispatch_child :
    ∃ (k k' : Kern (Fin 2)) (r : Arrivals ProcId (Fin NUM_QUEUES)),
      Runs .mlfq forkEvents.reverse k ∧ Step .mlfq k (.scheduler 1, .dispatch 1) k' ∧
      (k'.proc 0).state = .runnable ∧ Foremost k' r 1 := by
  obtain ⟨k', hr, hk⟩ := (kernel .mlfq).exists_runs (forkEvents ++ [(.scheduler 1, .dispatch 1)])
    (fun k => (k.proc 0).state = .runnable) (by decide +kernel)
  rw [List.reverse_append] at hr
  obtain - | ⟨hr, hst⟩ := hr
  rename_i k
  obtain ⟨r, T, -, hdisp⟩ := mlfq_dispatch hr
  obtain ⟨p, hp, -, hfirst, -⟩ | ⟨hidle, -⟩ := hdisp _ _ _ _ (Machine.ghost_step.2 ⟨hst, rfl⟩)
  · cases hp
    exact ⟨k, k', _, hr, hst, by simpa using hk, hfirst⟩
  · cases hidle

end Xv6.Process
