import Xv6.Process.Core

/-!
# The ready queues of the multi-level feedback build

The invariant of the queues: they hold exactly the runnable processes, each once and on the queue
its `queue` field names. It has one gap, the process that has just left its CPU runnable and that
the scheduler has not put back yet. Every step is shown to succeed and to keep it.
-/

namespace Xv6.Process

open Lib

variable {C : Type} {k k' : Kern C} {p : ProcId} {pend pend' : Option ProcId}
  {qs : Fin NUM_QUEUES → List ProcId}

/-- The process that is on no queue although it may be runnable: the one between `swtch` and the
scheduler. -/
def Lock.pending : Lock C → Option ProcId
  | .back _ p => some p
  | _ => none

/-- **The invariant of the queues**, with `pend` left out. -/
structure Ready (k : Kern C) (pend : Option ProcId) (qs : Fin NUM_QUEUES → List ProcId) :
    Prop where
  refines : Refines k.node k.queues qs
  nodup : ∀ i, (qs i).Nodup
  mem : ∀ p i, p ∈ qs i ↔
    (k.proc p).state = .runnable ∧ (k.proc p).queue = (i.val : ℤ) ∧ pend ≠ some p
  queue : ∀ p, 0 ≤ (k.proc p).queue ∧ (k.proc p).queue < NUM_QUEUES
  embryo : ∀ p, (k.proc p).state = .embryo → (k.proc p).queue = 0

theorem Ready.distinct (h : Ready k pend qs) : Distinct qs where
  nodup := h.nodup
  owner p i j hi hj := by
    have hi := ((h.mem p i).1 hi).2.1
    have hj := ((h.mem p j).1 hj).2.1
    exact Fin.ext (by omega)

/-- Whether a process belongs on the queues. -/
def Waiting (k : Kern C) (pend : Option ProcId) (p : ProcId) : Prop :=
  (k.proc p).state = .runnable ∧ pend ≠ some p

/-- A change of the table that moves nobody on or off the queues. -/
theorem Ready.congr (h : Ready k pend qs) (hn : k'.node = k.node) (hq : k'.queues = k.queues)
    (hw : ∀ p, Waiting k' pend' p ↔ Waiting k pend p)
    (hp : ∀ p, (k'.proc p).queue = (k.proc p).queue ∧
        ((k'.proc p).state = .embryo → (k.proc p).state = .embryo) ∨
      ¬ Waiting k pend p ∧ (0 ≤ (k'.proc p).queue ∧ (k'.proc p).queue < NUM_QUEUES) ∧
        ((k'.proc p).state = .embryo → (k'.proc p).queue = 0)) : Ready k' pend' qs where
  refines := hn ▸ hq ▸ h.refines
  nodup := h.nodup
  mem p i := by
    rw [h.mem p i]
    have hw := hw p
    have hp := hp p
    unfold Waiting at hw hp
    grind
  queue p := by
    rcases hp p with ⟨hq, -⟩ | ⟨-, hq, -⟩
    · rw [hq]; exact h.queue p
    · exact hq
  embryo p he := by
    rcases hp p with ⟨hq, hs⟩ | ⟨-, -, hq⟩
    · rw [hq]; exact h.embryo p (hs he)
    · exact hq he

/-- The queues depend on nothing but the table and the pool. -/
theorem Ready.of_eq (h : Ready k pend qs) (hp : k'.proc = k.proc) (hn : k'.node = k.node)
    (hq : k'.queues = k.queues) : Ready k' pend qs :=
  h.congr hn hq (fun _ => by simp only [Waiting, hp]) fun _ => .inl (by simp [hp])

theorem Ready.setProc (h : Ready k pend qs) {f : Proc → Proc}
    (hw : (f (k.proc p)).state = .runnable ∧ pend' ≠ some p ↔ Waiting k pend p)
    (hq : (f (k.proc p)).queue = (k.proc p).queue)
    (hs : (f (k.proc p)).state = .embryo → (k.proc p).state = .embryo)
    (hpend : ∀ q, q ≠ p → (pend' ≠ some q ↔ pend ≠ some q)) : Ready (k.setProc p f) pend' qs := by
  refine h.congr rfl rfl (fun q => ?_) fun q => .inl ?_
  · by_cases hqp : q = p
    · subst hqp
      simpa [Waiting] using hw
    · simp only [Waiting, Kern.setProc_proc_ne _ _ _ hqp, hpend q hqp]
  · by_cases hqp : q = p
    · subst hqp
      simpa using ⟨hq, hs⟩
    · simp [Kern.setProc_proc_ne _ _ _ hqp]

/-- A change of one process outside its state and its queue index. -/
theorem Ready.setProc_same (h : Ready k pend qs) {f : Proc → Proc}
    (hf : (f (k.proc p)).state = (k.proc p).state ∧ (f (k.proc p)).queue = (k.proc p).queue) :
    Ready (k.setProc p f) pend qs :=
  h.setProc (by rw [hf.1]; rfl) hf.2 (by rw [hf.1]; exact id) fun _ _ => .rfl

def slot (z : ℤ) : Fin NUM_QUEUES := Fin.ofNat NUM_QUEUES z.toNat

theorem toNat_lt_queues {z : ℤ} (h : 0 ≤ z ∧ z < NUM_QUEUES) : z.toNat < NUM_QUEUES := by
  omega

theorem slot_eq {z : ℤ} (h : 0 ≤ z ∧ z < NUM_QUEUES) : slot z = ⟨z.toNat, toNat_lt_queues h⟩ :=
  Fin.ext (Nat.mod_eq_of_lt (by omega))

def snoc (qs : Fin NUM_QUEUES → List ProcId) (i : Fin NUM_QUEUES) (p : ProcId) :
    Fin NUM_QUEUES → List ProcId :=
  Function.update qs i (qs i ++ [p])

/-- The queues hold the runnable processes, `pend` left out. -/
def Queued (k : Kern C) (pend : Option ProcId) : Prop := ∃ qs, Ready k pend qs

/-! ### Pushing -/

theorem Ready.enqueue (h : Ready k (some p) qs) (hs : (k.proc p).state = .runnable) {z : ℤ}
    (hz : (k.proc p).queue = z) :
    ∃ k', enqueue k z p = .ok k' ∧ Ready k' none (snoc qs (slot z) p) := by
  have hr := h.queue p
  have hp : ∀ i, p ∉ qs i := fun i hi => ((h.mem p i).1 hi).2.2 rfl
  subst hz
  rw [slot_eq hr]
  set i : Fin NUM_QUEUES := ⟨(k.proc p).queue.toNat, by omega⟩ with hi
  obtain ⟨node', head', hpush, href⟩ := h.refines.push h.distinct hp i
  refine ⟨{ k with node := node', queues := Function.update k.queues i head' }, ?_, href,
    fun j => ?_, fun q j => ?_, h.queue, h.embryo⟩
  · unfold Process.enqueue
    rw [dif_pos hr]
    simp only [← hi, hpush]
  · unfold snoc
    by_cases hj : j = i
    · subst hj
      simp only [Function.update_self]
      exact List.nodup_append.2 ⟨h.nodup _, List.nodup_singleton p, fun a ha c hc => by
        rintro rfl
        exact hp _ (List.mem_singleton.1 hc ▸ ha)⟩
    · rw [Function.update_of_ne hj]
      exact h.nodup j
  · have hiq : (k.proc p).queue = (i.val : ℤ) := by simp [hi, hr.1]
    have hmem := h.mem q j
    unfold snoc
    by_cases hj : j = i
    · subst hj
      simp only [Function.update_self, List.mem_append, List.mem_singleton]
      grind
    · rw [Function.update_of_ne hj, hmem]
      have : (j.val : ℤ) ≠ i.val := fun he => hj (Fin.ext (by omega))
      grind

theorem Ready.wake (h : Ready k none qs) (hs : (k.proc p).state = .sleeping) :
    ∃ k', wake .mlfq k p = .ok k' ∧ Ready k' none (snoc qs (slot (k.proc p).queue) p) := by
  have h₁ : Ready (k.setProc p fun q => { q with state := .runnable }) (some p) qs :=
    h.setProc (by simp [Waiting, hs]) rfl (by simp) (by grind)
  obtain ⟨k₂, he, h₂⟩ := h₁.enqueue (by simp) (z := (k.proc p).queue) (by simp)
  refine ⟨_, ?_, h₂.setProc_same (p := p)
    (f := fun q => { q with curTimeslices := 0, ageTime := k.ticks }) ⟨rfl, rfl⟩⟩
  unfold Process.wake
  simp only [if_true, Kern.setProc_proc_self, he]
  rfl

theorem Ready.wakeup1 (h : Ready k none qs) (chan : Option Chan) :
    ∃ k', wakeup1 .mlfq k chan = .ok k' ∧ Queued k' none := by
  refine foldlM_ok (P := fun k => Queued k none) ?_ ⟨qs, h⟩
  rintro k p - ⟨qs, h⟩
  unfold wakeup1Body
  split
  · rename_i hc
    obtain ⟨k', hx, h'⟩ := h.wake hc.1
    exact ⟨k', hx, _, h'⟩
  · exact ⟨k, rfl, qs, h⟩

/-- A new process, whose `queue` is still that of `allocproc`, is pushed onto the first queue. -/
theorem Ready.activate (h : Ready k none qs) (hs : (k.proc p).state = .embryo) :
    ∃ k', activate .mlfq k p = .ok k' ∧ Ready k' none (snoc qs 0 p) := by
  have h₁ : Ready (k.setProc p fun q => { q with state := .runnable }) (some p) qs :=
    h.setProc (by simp [Waiting, hs]) rfl (by simp) (by grind)
  exact h₁.enqueue (by simp) (by simpa using h.embryo p hs)

theorem Ready.alloc (h : Ready k none qs) (hs : (k.proc p).state = .unused) :
    Ready (k.setProc p (Process.embryo k)) none qs := by
  refine h.congr rfl rfl (fun q => ?_) fun q => ?_
  · by_cases hq : q = p
    · subst hq; simp [Waiting, Process.embryo, hs]
    · simp only [Waiting, Kern.setProc_proc_ne _ _ _ hq]
  · by_cases hq : q = p
    · subst hq; exact .inr (by simp [Waiting, Process.embryo, hs])
    · simp [Kern.setProc_proc_ne _ _ _ hq]

theorem Ready.kill (h : Ready k none qs) (pid : Word) :
    ∃ k' o, kill .mlfq k pid = .ok (k', o) ∧ (∀ r, o ≠ .discard r) ∧ Queued k' none := by
  unfold Process.kill
  split
  · exact ⟨k, _, rfl, by simp, qs, h⟩
  · rename_i p _
    have h₁ : Ready (k.setProc p fun q => { q with killed := true }) none qs :=
      h.setProc_same ⟨rfl, rfl⟩
    dsimp only
    split
    · rename_i hs
      obtain ⟨k₂, he, h₂⟩ := h₁.wake hs
      exact ⟨k₂, .done, by rw [he], by simp, _, h₂⟩
    · exact ⟨_, _, rfl, by simp, qs, h₁⟩

/-- `exit` leaves the CPU as a zombie, so that nobody is left out. -/
theorem Ready.exit (h : Ready k none qs) {c : C} (hs : (k.proc p).state = .running) :
    ∃ k', exit .mlfq k c p = .ok k' ∧ Queued k' (some p) := by
  obtain ⟨k₁, h₁, qs₁, hr₁⟩ := h.wakeup1 ((k.proc p).parent.map .proc)
  have hrep : ∃ k₂, (List.finRange NPROC).foldlM (reparent .mlfq p) k₁ = .ok k₂ ∧
      Queued k₂ none := by
    refine foldlM_ok (P := fun k => Queued k none) ?_ ⟨qs₁, hr₁⟩
    rintro k q - ⟨qs, h⟩
    unfold reparent
    split
    · have h' : Ready (k.setProc q fun r => { r with parent := k.initproc }) none qs :=
        h.setProc_same ⟨rfl, rfl⟩
      dsimp only
      split
      · exact h'.wakeup1 _
      · exact ⟨_, rfl, qs, h'⟩
    · exact ⟨k, rfl, qs, h⟩
  obtain ⟨k₂, h₂, qs₂, hr₂⟩ := hrep
  -- the caller has not been woken up: it was running all along
  have hs₂ : (k₂.proc p).state = .running := by
    have hst := (wakeup1_frame h₁).stirred.trans
      (foldlM_rel (fun k => (WokenAll.refl k).stirred) Stirred.trans reparent_frame _ h₂)
    obtain ⟨par, hw | ⟨hsl, -⟩⟩ := hst.2 p
    · rw [hw]; exact hs
    · simp [hs] at hsl
  refine ⟨{ k₂.setProc p (fun q => { q with state := .zombie }) with lock := .back c p }, ?_,
    qs₂, ?_⟩
  · unfold Process.exit
    simp only [h₁, h₂]
  · have hz : Ready (k₂.setProc p fun q => { q with state := .zombie }) (some p) qs₂ :=
      hr₂.setProc (by simp [Waiting, hs₂]) rfl (by simp) (by grind)
    exact hz.of_eq rfl rfl rfl

/-! ### Ageing, popping and putting back -/

/-- Ageing moves processes between two queues together with their `queue` fields. -/
theorem Ready.ageQueue (h : Ready k none qs) {i : Fin NUM_QUEUES} (hi : i ≠ 0) :
    let old := fun p => isOld k.ticks (.ofNat 32 AGE_LIMIT) (k.proc p)
    ∃ k', ageQueue k i = .ok k' ∧ k'.proc = agedAll k.ticks k.proc ((qs i).takeWhile old) ∧
      Ready k' none (moveFront qs i (i - 1) ((qs i).takeWhile old) ((qs i).dropWhile old)) := by
  intro old
  have hij : ((i - 1 : Fin NUM_QUEUES).val : ℤ) = i.val - 1 := by
    revert hi; revert i; decide
  have hne : i ≠ i - 1 := fun he => by rw [← he] at hij; omega
  obtain ⟨r, hr, hproc, -, href⟩ :=
    h.refines.split h.distinct hne k.ticks (.ofNat 32 AGE_LIMIT) k.proc
  set moved := (qs i).takeWhile old with hmoved
  set rest := (qs i).dropWhile old with hrest
  have hq : qs i = moved ++ rest := (List.takeWhile_append_dropWhile).symm
  have hnd := h.nodup i
  rw [hq, List.nodup_append] at hnd
  have hmem : ∀ p, p ∈ moved ∨ p ∈ rest ↔
      (k.proc p).state = .runnable ∧ (k.proc p).queue = (i.val : ℤ) := fun p => by
    rw [← List.mem_append, ← hq, h.mem]
    simp
  have hproc' : ∀ p, r.proc p = if p ∈ moved then aged k.ticks (k.proc p) else k.proc p :=
    fun p => by rw [hproc]; rfl
  refine ⟨{ k with
      proc := r.proc, node := r.node
      queues := Function.update (Function.update k.queues i r.src) (i - 1) r.dst },
    by unfold Process.ageQueue; rw [hr], hproc, href, fun j => ?_, fun p j => ?_, fun p => ?_,
    fun p hp => ?_⟩
  · unfold moveFront
    by_cases hj : j = i - 1
    · subst hj
      rw [Function.update_self, List.nodup_append]
      refine ⟨h.nodup _, hnd.1, fun a ha c hc => ?_⟩
      rintro rfl
      have := ((h.mem a _).1 ha).2.1
      have := ((hmem a).1 (.inl hc)).2
      omega
    · rw [Function.update_of_ne hj]
      by_cases hj' : j = i
      · subst hj'; rw [Function.update_self]; exact hnd.2.1
      · rw [Function.update_of_ne hj']; exact h.nodup j
  · have hpm := hmem p
    have hpj := h.mem p j
    have hdis := hnd.2.2 p
    simp only [hproc' p]
    unfold moveFront
    by_cases hj : j = i - 1
    · subst hj
      rw [Function.update_self, List.mem_append]
      split <;> grind [aged]
    · rw [Function.update_of_ne hj]
      have hji : (j.val : ℤ) ≠ ((i - 1 : Fin NUM_QUEUES).val : ℤ) := fun he => hj (Fin.ext (by omega))
      by_cases hj' : j = i
      · subst hj'; rw [Function.update_self]; split <;> grind [aged]
      · rw [Function.update_of_ne hj']
        have : (j.val : ℤ) ≠ i.val := fun he => hj' (Fin.ext (by omega))
        split <;> grind [aged]
  · have hpm := (hmem p).1
    have := h.queue p
    simp only [hproc' p]
    split <;> grind [aged]
  · have hpm := (hmem p).1
    have := h.embryo p
    simp only [hproc' p] at hp ⊢
    split <;> grind [aged]

/-- What the search through the queues finds: nothing, if they are empty, or the head of the first
queue that is not, which is then left out. -/
theorem Ready.popFirst (h : Ready k none qs) (is : List (Fin NUM_QUEUES)) :
    popFirst k is = .ok (k, none) ∧ (∀ i ∈ is, qs i = []) ∨
      ∃ k' p i ps, popFirst k is = .ok (k', some p) ∧ qs i = p :: ps ∧
        (∃ is₁ is₂, is = is₁ ++ i :: is₂ ∧ ∀ j ∈ is₁, qs j = []) ∧
        Ready k' (some p) (Function.update qs i ps) := by
  induction is with
  | nil => exact .inl ⟨rfl, by simp⟩
  | cons i is ih =>
    obtain ⟨ns, hr, hm⟩ := h.refines
    have hlen : length k.node (k.queues i) = .ok (qs i).length := by
      have : (ns i).length = (qs i).length := by simpa using congrArg List.length (hm i)
      unfold length
      rw [countNodes_eq (hr.chain i) (hr.length_le i), this]
    unfold Process.popFirst
    cases hq : qs i with
    | nil =>
      rw [hlen, hq]
      rcases ih with ⟨he, hall⟩ | ⟨k', p, j, ps, he, hj, ⟨is₁, is₂, rfl, hall⟩, h'⟩
      · exact .inl ⟨he, by simpa [hq] using hall⟩
      · exact .inr ⟨k', p, j, ps, he, hj, ⟨i :: is₁, is₂, rfl, by simpa [hq] using hall⟩, h'⟩
    | cons p ps =>
      obtain ⟨n, hn⟩ : ∃ n, k.queues i = some n := by
        cases hh : k.queues i with
        | none =>
          have hnil := Chain.eq_nil (hh ▸ hr.chain i)
          simpa [hnil, hq] using hm i
        | some n => exact ⟨n, rfl⟩
      obtain ⟨p', ps', hq', hnp, href⟩ := h.refines.pop hn
      obtain ⟨rfl, rfl⟩ : p' = p ∧ ps' = ps := by simpa [hq', eq_comm] using hq
      have hp := (h.mem p' i).1 (by simp [hq'])
      rw [hn] at href
      refine .inr ⟨{ k with
          node := (pop k.node (some n)).1
          queues := Function.update k.queues i (pop k.node (some n)).2 }, p', i, ps', ?_, hq',
        ⟨[], is, rfl, by simp⟩, href, fun j => ?_, fun r j => ?_, h.queue, h.embryo⟩
      · rw [hlen, hq']
        simp only [List.length_cons, hn, hnp]
      · by_cases hj : j = i
        · subst hj
          have := h.nodup j
          rw [hq'] at this
          simpa using (List.nodup_cons.1 this).2
        · rw [Function.update_of_ne hj]; exact h.nodup j
      · have hrj := h.mem r j
        by_cases hj : j = i
        · subst hj
          have hnd := List.nodup_cons.1 (hq' ▸ h.nodup j)
          rw [Function.update_self]
          rw [hq'] at hrj
          grind
        · rw [Function.update_of_ne hj, hrj]
          have : (j.val : ℤ) ≠ i.val := fun he => hj (Fin.ext (by omega))
          grind

/-- **A pass of the scheduler** succeeds: it dispatches a runnable process, or finds none. What it
takes off a queue is never thrown away. -/
theorem Ready.schedMLFQ [DecidableEq C] (h : Ready k none qs) (c : C) :
    ∃ k' o, schedMLFQ k c = .ok (k', o) ∧ Queued k' k'.lock.pending ∧
      (o = .idle ∧ k'.cpu = k.cpu ∧ k'.lock = .free ∧
          (∀ p, (k'.proc p).state = (k.proc p).state) ∨
        ∃ p, o = .dispatch p ∧ (k.proc p).state = .runnable) := by
  obtain ⟨k₁, h₁, qs₁, hr₁⟩ :
      ∃ k₁, [1, 2, 3, 4].foldlM Process.ageQueue k = .ok k₁ ∧ Queued k₁ none := by
    refine foldlM_ok (P := fun k => Queued k none) ?_ ⟨qs, h⟩
    rintro k i hi ⟨qs, h⟩
    obtain ⟨k', hx, -, h'⟩ := h.ageQueue (i := i) (by rintro rfl; exact absurd hi (by decide))
    exact ⟨k', hx, _, h'⟩
  have hag : Aged k k₁ := foldlM_rel Aged.refl Aged.trans ageQueue_frame _ h₁
  have hst : ∀ p, (k₁.proc p).state = (k.proc p).state := fun p => by
    obtain ⟨i, a, hq⟩ := hag.2 p
    rw [hq]
  unfold Process.schedMLFQ
  simp only [h₁]
  rcases hr₁.popFirst [0, 1, 2, 3, 4] with ⟨he, -⟩ | ⟨k₂, p, i, ps, he, hi, -, hr₂⟩
  · simp only [he]
    exact ⟨_, _, rfl, ⟨qs₁, hr₁.of_eq rfl rfl rfl⟩,
      .inl ⟨rfl, hag.1.cpu, rfl, hst⟩⟩
  · have hp := (popFirst_frame he).2
    have hs : (k₁.proc p).state = .runnable := ((hr₁.mem p i).1 (by simp [hi])).1
    have hs₂ : (k₂.proc p).state = .runnable := by rw [hp, hs]
    simp only [he, hs₂, ne_eq, not_true, if_false]
    refine ⟨_, _, rfl, ⟨Function.update qs₁ i ps, ?_⟩, .inr ⟨p, rfl, ?_⟩⟩
    · have h₃ : Ready ((k₂.setProc p fun q => { q with curTimeslices := q.curTimeslices + 1 }).setProc
          p fun q => { q with numRun := q.numRun + 1, state := .running }) none
          (Function.update qs₁ i ps) :=
        Ready.setProc (hr₂.setProc_same ⟨rfl, rfl⟩) (by simp [Waiting]) rfl (by simp) (by grind)
      exact h₃.of_eq rfl rfl rfl
    · exact (hst p).symm.trans hs

/-- The queue that a process goes back to. -/
def backTo (q : Proc) : ℤ := if q.punish ∧ q.queue ≠ NUM_QUEUES - 1 then q.queue + 1 else q.queue

/-- The process that has come back goes onto its queue, or the next one, if it is runnable. -/
theorem Ready.requeue (h : Ready k (some p) qs) :
    ∃ k', requeue k p = .ok k' ∧ Ready k' none
      (if (k.proc p).state = .runnable then snoc qs (slot (backTo (k.proc p))) p else qs) := by
  unfold Process.requeue
  split
  · rename_i hs
    dsimp only
    split
    · rename_i hpunish
      have h₁ : Ready (k.setProc p fun q => { q with curTimeslices := 0, ageTime := k.ticks })
          (some p) qs := h.setProc_same ⟨rfl, rfl⟩
      have hto : ((k.setProc p fun q => { q with curTimeslices := 0, ageTime := k.ticks }).proc p).queue =
          backTo (k.proc p) := by
        simp only [Kern.setProc_proc_self, backTo]
        rw [if_neg fun hc => by simp [hc.1] at hpunish]
      rw [hto]
      exact h₁.enqueue (by simpa using hs) hto
    · rename_i hpunish
      set f := fun q : Proc => { q with
        curTimeslices := 0, punish := false, ageTime := k.ticks
        queue := if q.queue ≠ NUM_QUEUES - 1 then q.queue + 1 else q.queue } with hf
      have h₁ : Ready (k.setProc p f) (some p) qs := by
        refine h.congr rfl rfl (fun q => ?_) fun q => ?_
        · by_cases hq : q = p
          · subst hq; simp [Waiting]
          · simp only [Waiting, Kern.setProc_proc_ne _ _ _ hq]
        · by_cases hq : q = p
          · subst hq
            have := h.queue q
            refine .inr ⟨by simp [Waiting], ?_, by simp [hf, hs]⟩
            simp only [Kern.setProc_proc_self, hf]
            split <;> omega
          · simp [Kern.setProc_proc_ne _ _ _ hq]
      have hto : ((k.setProc p f).proc p).queue = backTo (k.proc p) := by
        have hpun : (k.proc p).punish = true := by simpa using hpunish
        simp only [Kern.setProc_proc_self, hf, backTo, hpun, true_and]
      rw [hto]
      exact h₁.enqueue (by simpa using hs) hto
  · rename_i hs
    refine ⟨k, rfl, h.congr rfl rfl (fun q => ?_) fun q => .inl ⟨rfl, id⟩⟩
    by_cases hq : q = p
    · subst hq; simp [Waiting, hs]
    · simp [Waiting, Ne.symm hq]

theorem Ready.release (h : Ready k none qs) : Queued { k with lock := .free } none :=
  ⟨qs, h.of_eq rfl rfl rfl⟩

/-- A process leaves its CPU and is left out until the scheduler sees it. -/
theorem Ready.leave (h : Ready k none qs) {c : C} (hs : (k.proc p).state = .running)
    {f : Proc → Proc} (hq : (f (k.proc p)).queue = (k.proc p).queue)
    (he : (f (k.proc p)).state ≠ .embryo) :
    Queued { k.setProc p f with lock := .back c p } (some p) := by
  have : Ready (k.setProc p f) (some p) qs :=
    h.setProc (by simp [Waiting, hs]) hq (fun hf => absurd hf he) (by grind)
  exact ⟨qs, this.of_eq rfl rfl rfl⟩

theorem Ready.waitLoop (h : Ready k none qs) {w : WaitKind} {c : C}
    (hs : (k.proc p).state = .running) :
    Queued (waitLoop w k c p).1 (waitLoop w k c p).1.lock.pending ∧
      ∀ r, (waitLoop w k c p).2 ≠ .discard r := by
  unfold Process.waitLoop
  split
  · rename_i z hz
    have hz := List.find?_some hz
    simp only [decide_eq_true_eq] at hz
    have : Ready (k.setProc z reap) none qs :=
      h.setProc (by simp [Waiting, hz.2, reap]) rfl (by simp [reap]) fun _ _ => .rfl
    exact ⟨this.release, by simp⟩
  · dsimp only
    split
    · exact ⟨h.release, by simp⟩
    · exact ⟨h.leave hs rfl (by simp), by simp⟩

theorem Ready.resume (h : Ready k none qs) {c : C} (hs : (k.proc p).state = .running) :
    Queued (resume k c p).1 (resume k c p).1.lock.pending ∧
      ∀ r, (resume k c p).2 ≠ .discard r := by
  have hset : Ready (k.setProc p fun q => { q with chan := none }) none qs :=
    h.setProc_same ⟨rfl, rfl⟩
  unfold Process.resume
  split
  · exact ⟨h.release, by simp⟩
  · exact ⟨h.release, by simp⟩
  · exact ⟨hset.release, by simp⟩
  · exact hset.waitLoop (by simpa using hs)

/-! ### Every step -/

/-- Before `userinit` nothing runs. -/
def Untouched (k : Kern C) : Prop :=
  k.boot = .start → k.lock = .free ∧ (∀ c, k.cpu c = none) ∧ ∀ p, (k.proc p).state = .unused

/-- A piece of code ends well: it throws nothing away and leaves the queues in order. -/
def Fine (r : Except Fault (Kern C × Out)) : Prop :=
  ∃ k o, r = .ok (k, o) ∧ (∀ p, o ≠ .discard p) ∧ Queued k k.lock.pending

theorem Fine.intro {o : Out} (h : Queued k k.lock.pending) (ho : ∀ p, o ≠ .discard p) :
    Fine (.ok (k, o)) := ⟨k, o, rfl, ho, h⟩

theorem Ready.execProc [DecidableEq C] (h : Ready k k.lock.pending qs) (hsh : Shape k) {c : C} {a : ProcAct}
    (he : enabled .mlfq k (.proc c p a) = true) :
    execProc .mlfq k c p a = .error (.panic "init exiting") ∨ Fine (execProc .mlfq k c p a) := by
  obtain ⟨-, hallow, hfree, -, hrun⟩ := lock_of_enabled hsh he
  have hnone : a.locked = true → Ready k none qs := fun ha => by
    have := h
    rwa [hfree ha] at this
  -- the fields that the queues do not depend on
  have hset : ∀ {f : Proc → Proc} {o : Out},
      (f (k.proc p)).state = (k.proc p).state ∧ (f (k.proc p)).queue = (k.proc p).queue →
      (∀ p, o ≠ .discard p) → Fine (.ok (k.setProc p f, o)) := fun hf ho =>
    .intro ⟨qs, h.setProc_same hf⟩ ho
  cases a with
  | yield => exact .inr (.intro ((hnone rfl).leave hrun rfl (by simp)) (by simp))
  | sleep chan => exact .inr (.intro ((hnone rfl).leave hrun rfl (by simp)) (by simp))
  | wait w =>
    obtain ⟨hq, ho⟩ := (hnone rfl).waitLoop (w := w) (c := c) hrun
    exact .inr (.intro hq ho)
  | exitBegin =>
    simp only [Process.execProc]
    split
    · exact .inl rfl
    · exact .inr (hset ⟨rfl, rfl⟩ (by simp))
  | exit =>
    obtain ⟨k', hx, hq⟩ := (hnone rfl).exit (c := c) hrun
    have hl : k'.lock.pending = some p := by
      obtain ⟨k₁, -, rfl⟩ := exit_frame hx
      rfl
    simp only [Process.execProc, hx]
    exact .inr (.intro (hl ▸ hq) (by simp))
  | forkAlloc =>
    simp only [Process.execProc]
    split
    · exact .inr (.intro ⟨qs, h⟩ (by simp))
    · rename_i np k₁ h₁
      obtain ⟨hu, rfl⟩ := allocproc_eq h₁
      have ht : Ready (k.setProc np (Process.embryo k)) none qs := (hnone rfl).alloc hu
      have := ht.setProc_same (p := p) (f := fun q => { q with thread := .fork np false }) ⟨rfl, rfl⟩
      refine .inr (.intro ⟨qs, ?_⟩ (by simp))
      simp only [Kern.setProc_lock, hfree rfl]
      exact this.of_eq rfl rfl rfl
  | forkFail =>
    cases ht : (k.proc p).thread with
    | fork np d =>
      have hu := hsh.fork ht
      have h₁ : Ready (k.setProc np fun q => { q with state := .unused }) k.lock.pending qs :=
        h.setProc (by simp [Waiting, hu]) rfl (by simp) fun _ _ => .rfl
      simp only [Process.execProc, ht]
      exact .inr (.intro ⟨qs, h₁.setProc_same ⟨rfl, rfl⟩⟩ (by simp))
    | run => rw [ht] at hallow; cases hallow
    | exit => rw [ht] at hallow; cases hallow
  | forkCopy =>
    cases ht : (k.proc p).thread with
    | fork np d =>
      have h₁ : Ready (k.setProc np fun q => { q with parent := some p }) k.lock.pending qs :=
        h.setProc_same ⟨rfl, rfl⟩
      simp only [Process.execProc, ht]
      exact .inr (.intro ⟨qs, h₁.setProc_same ⟨rfl, rfl⟩⟩ (by simp))
    | run => rw [ht] at hallow; cases hallow
    | exit => rw [ht] at hallow; cases hallow
  | fork =>
    cases ht : (k.proc p).thread with
    | fork np d =>
      obtain ⟨k', hx, h'⟩ := (hnone rfl).activate (hsh.fork ht)
      simp only [Process.execProc, ht, hx]
      have hl : k'.lock = .free := by rw [(activate_frame hx).1.lock, hfree rfl]
      refine .inr (.intro ⟨snoc qs 0 np, ?_⟩ (by simp))
      simp only [Kern.setProc_lock, hl]
      exact h'.setProc_same ⟨rfl, rfl⟩
    | run => rw [ht] at hallow; cases hallow
    | exit => rw [ht] at hallow; cases hallow
  | kill pid =>
    obtain ⟨k', o, hx, ho, hq⟩ := (hnone rfl).kill pid
    have hl : k'.lock = .free := by
      rcases (kill_calm hx).lock with hl | hl
      · rw [hl, hfree rfl]
      · exact hl.1
    exact .inr ⟨k', o, hx, ho, by rw [hl]; exact hq⟩
  | trapKill => exact .inr (hset ⟨rfl, rfl⟩ (by simp))
  | setPriority n =>
    simp only [Process.execProc]
    split
    · exact .inr (.intro ⟨qs, h⟩ (by simp))
    · exact .inr (hset ⟨rfl, rfl⟩ (by simp))
  | incPinfoTicks =>
    simp only [Process.execProc, dif_pos (h.queue p)]
    exact .inr (hset ⟨rfl, rfl⟩ (by simp))
  | punisher => exact .inr (hset ⟨rfl, rfl⟩ (by simp))
  | incTimeslice => exact .inr (hset ⟨rfl, rfl⟩ (by simp))

/-- **Every step succeeds and keeps the queues in order**, unless the first process exits. -/
theorem Ready.exec [DecidableEq C] (h : Ready k k.lock.pending qs) (hsh : Shape k) (hun : Untouched k) {a : Act C}
    (he : enabled .mlfq k a = true) :
    exec .mlfq k a = .error (.panic "init exiting") ∨ Fine (exec .mlfq k a) := by
  have hwake : k.lock = .free → ∀ chan, ∃ k', Process.wakeup1 .mlfq k chan = .ok k' ∧
      k'.lock = .free ∧ Queued k' none := fun hl chan => by
    rw [hl] at h
    obtain ⟨k', hx, hq⟩ := h.wakeup1 chan
    exact ⟨k', hx, by rw [(wakeup1_frame hx).1.lock, hl], hq⟩
  cases a with
  | userinitAlloc =>
    simp only [enabled, Bool.and_eq_true, decide_eq_true_eq] at he
    obtain ⟨-, -, hu⟩ := hun he.1
    simp only [Process.exec]
    split
    · rename_i ha
      unfold allocproc at ha
      split at ha
      · rename_i hf
        simpa [hu] using List.find?_eq_none.1 hf 0 (List.mem_finRange 0)
      · cases ha
    · rename_i p k₁ h₁
      obtain ⟨hu, rfl⟩ := allocproc_eq h₁
      rw [he.2] at h
      refine .inr (.intro ⟨qs, ?_⟩ (by simp))
      simp only [Kern.setProc_lock, he.2]
      exact (h.alloc hu).of_eq rfl rfl rfl
  | userinit =>
    simp only [enabled, Bool.and_eq_true, decide_eq_true_eq] at he
    cases hb : k.boot with
    | start | done => simp [hb] at he
    | embryo p =>
      rw [he.2] at h
      obtain ⟨k', hx, h'⟩ := h.activate (hsh.boot hb)
      simp only [Process.exec, hb, hx]
      have hl : k'.lock = .free := by rw [(activate_frame hx).1.lock, he.2]
      refine .inr (.intro ⟨snoc qs 0 p, ?_⟩ (by simp))
      simp only [hl]
      exact h'.of_eq rfl rfl rfl
  | readTicks c => exact .inr (.intro ⟨qs, h.of_eq rfl rfl rfl⟩ (by simp))
  | scheduler c =>
    simp only [enabled, Bool.and_eq_true, decide_eq_true_eq] at he
    rw [he.1.2] at h
    have h' : Ready { k with seen := Function.update k.seen c none } none qs :=
      h.of_eq rfl rfl rfl
    obtain ⟨k', o, hx, hq, ho⟩ := h'.schedMLFQ c
    refine .inr ⟨k', o, hx, ?_, hq⟩
    rcases ho with ⟨rfl, -⟩ | ⟨p, rfl, -⟩ <;> simp
  | resume c =>
    cases hl : k.lock with
    | free | back => simp [enabled, hl] at he
    | resumed c' p =>
      simp only [enabled, hl, decide_eq_true_eq] at he
      subst he
      have hs := hsh.running (hsh.resumed hl) (by simp [hl])
      rw [hl] at h
      obtain ⟨hq, ho⟩ := h.resume (c := c') hs
      simp only [Process.exec, hl]
      exact .inr (.intro hq ho)
  | back c =>
    cases hl : k.lock with
    | free | resumed => simp [enabled, hl] at he
    | back c' p =>
      rw [hl] at h
      have h' : Ready { k with cpu := Function.update k.cpu c none } (some p) qs :=
        h.of_eq rfl rfl rfl
      obtain ⟨k', hx, h''⟩ := h'.requeue
      have hb : Process.back .mlfq k c p = .ok ({ k' with lock := .free }, .done) := by
        simp only [Process.back, hx]
      simp only [Process.exec, hl, hb]
      exact .inr (.intro h''.release (by simp))
  | proc c p a => exact h.execProc hsh he
  | wakeup chan =>
    obtain ⟨k', hx, hl, hq⟩ := hwake (by simpa [enabled] using he) (some chan)
    simp only [Process.exec, hx]
    exact .inr (.intro (by rw [hl]; exact hq) (by simp))
  | tick => exact .inr (.intro ⟨qs, h.of_eq rfl rfl rfl⟩ (by simp))
  | incRuntime =>
    refine .inr (.intro ⟨qs, ?_⟩ (by simp))
    refine h.congr rfl rfl (fun p => ?_) fun p => .inl ?_ <;>
      simp only [Waiting, incRuntime] <;> split <;> simp
  | wakeupTicks =>
    simp only [enabled, Bool.and_eq_true, decide_eq_true_eq] at he
    obtain ⟨k', hx, hl, qs', h'⟩ := hwake he.2 (some .ticks)
    simp only [Process.exec, hx]
    refine .inr (.intro ⟨qs', ?_⟩ (by simp))
    simp only [hl]
    exact h'.of_eq rfl rfl rfl

theorem Untouched.step [DecidableEq C] {e : Event C} (hun : Untouched k) (hq : Queued k k.lock.pending)
    (h : Step .mlfq k e k') : Untouched k' := by
  obtain ⟨a, o⟩ := e
  obtain ⟨he, hx⟩ := step_iff.1 h
  have hwake : ∀ {k₁}, WokenAll k k₁ → Untouched k₁ := fun hw hb => by
    obtain ⟨hl, hc, hu⟩ := hun (hw.1.boot ▸ hb)
    refine ⟨by rw [hw.1.lock, hl], fun c => by rw [hw.1.cpu, hc], fun p => ?_⟩
    rcases hw.2 p with hp | ⟨hs, -⟩
    · rw [hp, hu]
    · simp [hu] at hs
  cases a with
  | userinitAlloc =>
    obtain ⟨p, k₁, -, rfl, -⟩ := exec_userinitAlloc hx
    rintro ⟨⟩
  | userinit =>
    obtain ⟨p, k₁, -, -, rfl, -⟩ := exec_userinit hx
    rintro ⟨⟩
  | readTicks c => cases hx; exact hun
  | scheduler c =>
    intro hb
    obtain ⟨hl, hc, hu⟩ := hun ((schedMLFQ_pass hx).clock.boot ▸ hb)
    obtain ⟨qs, h⟩ := hq
    rw [hl] at h
    have h' : Ready { k with seen := Function.update k.seen c none } none qs := h.of_eq rfl rfl rfl
    obtain ⟨k₁, o₁, hx₁, -, ho⟩ := h'.schedMLFQ c
    obtain ⟨rfl, rfl⟩ : k₁ = k' ∧ o₁ = o := Prod.mk.inj (Except.ok.inj (hx₁.symm.trans hx))
    -- nothing is runnable, so nothing is dispatched
    rcases ho with ⟨-, hc', hl', hs⟩ | ⟨p, -, hp⟩
    · exact ⟨hl', fun c => by rw [hc']; exact hc c, fun p => by rw [hs]; exact hu p⟩
    · simp [hu] at hp
  | resume c =>
    intro hb
    obtain ⟨p, hl, hx⟩ := exec_resume he hx
    have hk : (resume k c p).1 = k' := congrArg Prod.fst hx
    rw [← hk, resume_clock.boot] at hb
    simpa [hl] using (hun hb).1
  | back c =>
    intro hb
    obtain ⟨p, hl, hx⟩ := exec_back he hx
    simp only [back] at hx
    split at hx
    · cases hx
    · rename_i h₁
      cases hx
      simpa [hl] using (hun ((requeue_calm h₁).1.boot ▸ hb)).1
  | proc c p a =>
    intro hb
    simp only [enabled, Bool.and_eq_true, decide_eq_true_eq] at he
    simpa [he.1.1] using (hun ((execProc_clock hx).boot ▸ hb)).2.1 c
  | wakeup chan =>
    obtain ⟨h₁, rfl⟩ := exec_wakeup hx
    exact hwake (wakeup1_frame h₁)
  | tick => cases hx; exact hun
  | incRuntime =>
    cases hx
    intro hb
    obtain ⟨hl, hc, hu⟩ := hun hb
    exact ⟨hl, hc, fun p => by simp [incRuntime, hu]⟩
  | wakeupTicks =>
    obtain ⟨k₁, h₁, rfl, rfl⟩ := exec_wakeupTicks hx
    have := hwake (wakeup1_frame h₁)
    exact this

/-! ### Every run -/

/-- What the multi-level feedback build keeps: the shape of every build and the queues. -/
structure Sound (k : Kern C) : Prop where
  shape : Shape k
  queued : Queued k k.lock.pending
  untouched : Untouched k

theorem Sound.init : Sound (Process.boot C) where
  shape := .init
  queued := by
    refine ⟨fun _ => [], ⟨fun _ => [], ⟨fun i => rfl, by simp, by simp [Process.boot]⟩, by simp⟩,
      by simp, fun p i => ?_, fun p => ?_, fun p hp => ?_⟩
    · simp [Process.boot]
    · simp [Process.boot]
    · cases hp
  untouched _ := ⟨rfl, fun _ => rfl, fun _ => rfl⟩

theorem Sound.step [DecidableEq C] {e : Event C} (hs : Sound k) (h : Step .mlfq k e k') : Sound k' := by
  obtain ⟨qs, hq⟩ := hs.queued
  refine ⟨hs.shape.step h, ?_, hs.untouched.step hs.queued h⟩
  rcases hq.exec hs.shape hs.untouched h.1 with he | ⟨k₁, o, he, -, hq'⟩
  · rw [(step_iff.1 h).2] at he; cases he
  · rw [(step_iff.1 h).2] at he
    cases he
    exact hq'

theorem Runs.sound [DecidableEq C] {h : List (Event C)} (hr : Runs .mlfq h k) : Sound k :=
  hr.invariant (P := fun _ k => Sound k) .init fun _ hs hst => hs.step hst

/-- The ready queues are in order: the queue `i` is the null-terminated list of the nodes `ns i`,
no node is on two queues, the used cells of the pool are those on a queue, every process has a
queue, and the runnable processes are those on a node, which is then the only one and on the
queue of the process. -/
structure InOrder (k : Kern C) (ns : Fin NUM_QUEUES → List NodeId) : Prop where
  chain : ∀ i, Chain (links k.node) (k.queues i) (ns i)
  nodup : ∀ i, (ns i).Nodup
  disjoint : ∀ i j, i ≠ j → (ns i).Disjoint (ns j)
  used : ∀ n, (k.node n).use = true ↔ ∃ i, n ∈ ns i
  queue : ∀ p, 0 ≤ (k.proc p).queue ∧ (k.proc p).queue < NUM_QUEUES
  runnable : ∀ p, (k.proc p).state = .runnable ↔ ∃ i n, n ∈ ns i ∧ (k.node n).p = some p
  unique : ∀ p i n, n ∈ ns i → (k.node n).p = some p → (i.val : ℤ) = (k.proc p).queue ∧
    ∀ j m, m ∈ ns j → (k.node m).p = some p → m = n

theorem Ready.inOrder (h : Ready k none qs) : ∃ ns, InOrder k ns := by
  obtain ⟨ns, hr, hm⟩ := h.refines
  -- the nodes of a queue carry exactly its processes
  have hcar : ∀ {i n p}, n ∈ ns i → (k.node n).p = some p → p ∈ qs i := fun hn hp => by
    obtain ⟨q, hq, he⟩ := exists_proc (hm _) hn
    rwa [hp.symm.trans he |> Option.some.inj]
  refine ⟨ns, hr.chain, fun i => (hr.chain i).nodup, fun i j hij n hi hj =>
    hij (hr.owner n i j hi hj), hr.used, h.queue, fun p => ⟨fun hs => ?_, ?_⟩, fun p i n hn hp =>
    ⟨?_, fun j m hmj hpm => ?_⟩⟩
  · have hq := h.queue p
    have hp : p ∈ qs ⟨(k.proc p).queue.toNat, by omega⟩ :=
      (h.mem p _).2 ⟨hs, by simp [hq.1], by simp⟩
    obtain ⟨n, hn, hnp⟩ := exists_node (hm _) hp
    exact ⟨_, n, hn, hnp⟩
  · rintro ⟨i, n, hn, hp⟩
    exact ((h.mem p i).1 (hcar hn hp)).1
  · exact ((h.mem p i).1 (hcar hn hp)).2.1.symm
  · exact node_inj h.distinct hm hmj hn (hpm.trans hp.symm)

/-- **The ready queues of the multi-level feedback build.** In every run, on any CPUs and in any
order of the steps: whenever the lock is free the queues are in order; no step dereferences null,
leaves the array of queues or loops for ever (the one panic left is that of the first process
exiting); and the scheduler never takes a process off a queue that is not runnable. -/
theorem mlfq_queues [DecidableEq C] {h : List (Event C)} (hr : Runs .mlfq h k) :
    (k.lock = .free → ∃ ns, InOrder k ns) ∧
    (∀ a f, enabled .mlfq k a = true → exec .mlfq k a = .error f → f = .panic "init exiting") ∧
    ∀ e ∈ h, ∀ p, e.2 ≠ .discard p := by
  obtain ⟨hsh, ⟨qs, hq⟩, hun⟩ := Runs.sound hr
  refine ⟨fun hl => ?_, fun a f he hf => ?_, ?_⟩
  · rw [hl] at hq
    exact hq.inOrder
  · rcases hq.exec hsh hun he with hx | ⟨k₁, o, hx, -⟩
    · rw [hf] at hx
      cases hx; rfl
    · rw [hf] at hx; cases hx
  · refine hr.invariant (P := fun h _ => ∀ e ∈ h, ∀ p, e.2 ≠ .discard p) (by simp) ?_
    intro h s a s' hrs ih hst e he p
    rcases List.mem_cons.1 he with rfl | he
    · obtain ⟨hsh, ⟨qs, hq⟩, hun⟩ := Runs.sound hrs
      rcases hq.exec hsh hun hst.1 with hx | ⟨k₁, o, hx, ho, -⟩
      · rw [(step_iff.1 hst).2] at hx; cases hx
      · rw [(step_iff.1 hst).2] at hx
        cases hx
        exact ho p
    · exact ih e he p

/-- The first process forks, on the first of two CPUs. -/
def forkEvents : List (Event (Fin 2)) :=
  [(.userinitAlloc, .alloc 0), (.userinit, .done), (.scheduler 0, .dispatch 0), (.resume 0, .done),
    (.proc 0 0 .forkAlloc, .alloc 1), (.proc 0 0 .forkCopy, .done), (.proc 0 0 .fork, .done),
    (.proc 0 0 .yield, .done), (.back 0, .done)]

theorem mlfq_queues_fork :
    ∃ k : Kern (Fin 2), Runs .mlfq forkEvents.reverse k ∧
      ((k.proc 0).state = .runnable ∧ (k.proc 1).state = .runnable ∧ k.lock = .free) ∧
      ∃ ns, InOrder k ns := by
  obtain ⟨k, hr, hk⟩ := (kernel .mlfq).exists_runs forkEvents (fun k =>
    (k.proc 0).state = .runnable ∧ (k.proc 1).state = .runnable ∧ k.lock = .free)
    (by decide +kernel)
  simp only [decide_eq_true_eq] at hk
  exact ⟨k, hr, hk, (mlfq_queues hr).1 hk.2.2⟩

end Xv6.Process
