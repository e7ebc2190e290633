import Xv6.Process.Ready
import Xv6.Lib.Arrival

/-!
# When processes enter the ready queues

The pieces of code that put processes onto a queue, with the entries that they make in the order in
which the source makes them: `push` makes one, and `split` one for each process it passes over. A
record of these entries (`Lib.Arrivals`) numbers them along the run. The queues are in the order of
their entries, and behind the first queue the age of a process is the time since it entered.
-/

namespace Xv6.Process

open Lib

variable {C : Type} {k k' : Kern C} {p : ProcId} {pend pend' : Option ProcId}
  {qs : Fin NUM_QUEUES → List ProcId}

/-! ### The entries of a piece of code -/

abbrev Entry := ProcId × Fin NUM_QUEUES

def wakeEntry (chan : Option Chan) (k : Kern C) (p : ProcId) : List Entry :=
  if (k.proc p).state = .sleeping ∧ (k.proc p).chan = chan then [(p, slot (k.proc p).queue)] else []

/-- The entries of `wakeup1`, in the order of the table. -/
def wakeup1Entries (chan : Option Chan) (k : Kern C) : List Entry :=
  foldLog (wakeup1Body .mlfq chan) (wakeEntry chan) (List.finRange NPROC) k

/-- The entries of one turn of the loop of `exit`. -/
def reparentEntries (p : ProcId) (k : Kern C) (q : ProcId) : List Entry :=
  if (k.proc q).parent = some p ∧ (k.proc q).state = .zombie then
    wakeup1Entries (k.initproc.map .proc) (k.setProc q fun r => { r with parent := k.initproc })
  else []

def exitEntries (k : Kern C) (p : ProcId) : List Entry :=
  let parent := (k.proc p).parent.map .proc
  wakeup1Entries parent k ++ match wakeup1 .mlfq k parent with
    | .ok k => foldLog (reparent .mlfq p) (reparentEntries p) (List.finRange NPROC) k
    | .error _ => []

def killEntries (k : Kern C) (pid : Word) : List Entry :=
  match (List.finRange NPROC).find? fun p => (k.proc p).pid = pid with
  | none => []
  | some p => if (k.proc p).state = .sleeping then [(p, slot (k.proc p).queue)] else []

/-- The entry of a process that comes back runnable. -/
def requeueEntries (k : Kern C) (p : ProcId) : List Entry :=
  if (k.proc p).state = .runnable then [(p, slot (backTo (k.proc p)))] else []

/-- The processes that the first loop of `split` passes over. -/
def oldFront (old : ProcId → Bool) (node : NodeId → Node) : ℕ → Option NodeId → List ProcId
  | fuel + 1, some n =>
    match (node n).p with
    | some p => if old p then p :: oldFront old node fuel (node n).next else []
    | none => []
  | _, _ => []

/-- The entries of `split(&queues[i], &queues[i - 1], AGE_LIMIT)`. -/
def ageEntries (k : Kern C) (i : Fin NUM_QUEUES) : List Entry :=
  let old p := isOld k.ticks (.ofNat 32 AGE_LIMIT) (k.proc p)
  (oldFront old k.node NPROC (k.queues i)).map (·, i - 1)

def entries [DecidableEq C] (k : Kern C) : Act C → List Entry
  | .userinit => match k.boot with
    | .embryo p => [(p, 0)]
    | _ => []
  | .scheduler c =>
    foldLog ageQueue ageEntries [1, 2, 3, 4] { k with seen := Function.update k.seen c none }
  | .back _ => match k.lock with
    | .back _ p => requeueEntries k p
    | _ => []
  | .proc _ p .exit => exitEntries k p
  | .proc _ p .fork => match (k.proc p).thread with
    | .fork np _ => [(np, 0)]
    | _ => []
  | .proc _ _ (.kill pid) => killEntries k pid
  | .wakeup chan => wakeup1Entries (some chan) k
  | .wakeupTicks => wakeup1Entries (some .ticks) k
  | _ => []

/-! ### The queues are in the order of their entries -/

/-- The lists that the pool represents are determined by it. -/
theorem Refines.unique {node : NodeId → Node} {queues : Fin NUM_QUEUES → Option NodeId}
    {qs' : Fin NUM_QUEUES → List ProcId} (h : Refines node queues qs) (h' : Refines node queues qs') :
    qs = qs' := by
  obtain ⟨ns, hr, hm⟩ := h
  obtain ⟨ns', hr', hm'⟩ := h'
  funext i
  have hns : ns i = ns' i := (hr.chain i).unique (hr'.chain i)
  have hmap : (qs i).map some = (qs' i).map some := by rw [← hm i, ← hm' i, hns]
  exact List.map_injective_iff.2 (Option.some_injective _) hmap

/-- The queues, the record of the entries, and the time `T`: how many ticks there have been. No
process behind the first queue has entered before the time `low`. -/
structure Entered (low T : ℕ) (r : Arrivals ProcId (Fin NUM_QUEUES)) (k : Kern C)
    (pend : Option ProcId) (qs : Fin NUM_QUEUES → List ProcId) : Prop where
  ready : Ready k pend qs
  turn : InTurn r T qs
  low_le : low ≤ T
  age : ∀ i ≠ 0, ∀ p ∈ qs i, low ≤ r.time p ∧
    k.ticks - (k.proc p).ageTime = .ofNat 32 (T - r.time p)

variable {low T : ℕ} {r : Arrivals ProcId (Fin NUM_QUEUES)}

theorem Ready.waiting_of_mem (h : Ready k pend qs) {i : Fin NUM_QUEUES} (hp : p ∈ qs i) :
    Waiting k pend p := by
  obtain ⟨hs, -, hpend⟩ := (h.mem p i).1 hp
  exact ⟨hs, hpend⟩

/-- A step that leaves the queues, the clock and the ages of those who wait. -/
theorem Entered.keep (h : Entered low T r k pend qs) (hq : Queued k' pend') (hn : k'.node = k.node)
    (hqs : k'.queues = k.queues) (ht : k'.ticks = k.ticks)
    (hage : ∀ p, Waiting k pend p → (k'.proc p).ageTime = (k.proc p).ageTime) :
    Entered low T r k' pend' qs := by
  obtain ⟨qs', h'⟩ := hq
  have hsame : qs' = qs := h'.refines.unique (by rw [hn, hqs]; exact h.ready.refines)
  subst hsame
  refine ⟨h', h.turn, h.low_le, fun i hi p hp => ?_⟩
  rw [ht, hage p (h.ready.waiting_of_mem hp)]
  exact h.age i hi p hp

/-- A process enters the queue `i`, with its age restarted unless this is the first queue. -/
theorem Entered.push {i : Fin NUM_QUEUES} (h : Entered low T r k pend qs) (hp : ∀ i, p ∉ qs i)
    (h' : Ready k' pend' (snoc qs i p)) (ht : k'.ticks = k.ticks)
    (hother : ∀ q ≠ p, (k'.proc q).ageTime = (k.proc q).ageTime)
    (hage : i ≠ 0 → (k'.proc p).ageTime = k.ticks) :
    Entered low T (r.enter T p i) k' pend' (snoc qs i p) := by
  refine ⟨h', h.turn.push hp i, h.low_le, fun j hj q hq => ?_⟩
  by_cases hqp : q = p
  · subst hqp
    have hji : j = i := by
      by_contra hne
      rw [snoc, Function.update_of_ne hne] at hq
      exact hp j hq
    subst hji
    rw [show (r.enter T q j).time q = T from Function.update_self .., ht, hage hj]
    exact ⟨h.low_le, by simp⟩
  · have hq : q ∈ qs j := by
      by_cases hji : j = i
      · subst hji
        rw [snoc, Function.update_self] at hq
        simpa [hqp] using hq
      · rwa [snoc, Function.update_of_ne hji] at hq
    rw [show (r.enter T p i).time q = r.time q from Function.update_of_ne hqp .., ht, hother q hqp]
    exact h.age j hj q hq

/-- A process that is not waiting is on no queue. -/
theorem Ready.notMem (h : Ready k pend qs) (hp : ¬ Waiting k pend p) : ∀ i, p ∉ qs i :=
  fun _ hi => hp (h.waiting_of_mem hi)

/-! ### The pieces of code -/

theorem setProc_field {β : Type} (g : Proc → β) {f : Proc → Proc} (hf : g (f (k.proc p)) = g (k.proc p))
    (q : ProcId) : g ((k.setProc p f).proc q) = g (k.proc q) := by
  rw [Kern.setProc_proc]
  split
  · rename_i hq
    rw [hq, hf]
  · rfl

theorem wake_ageTime (hx : wake .mlfq k p = .ok k') :
    (k'.proc p).ageTime = k.ticks ∧ ∀ q ≠ p, (k'.proc q).ageTime = (k.proc q).ageTime := by
  unfold wake at hx
  simp only [if_true] at hx
  split at hx
  · cases hx
  · rename_i k₁ he
    obtain ⟨-, hp⟩ := enqueue_frame he
    cases hx
    refine ⟨by simp, fun q hq => ?_⟩
    rw [Kern.setProc_proc_ne _ _ _ hq, hp, Kern.setProc_proc_ne _ _ _ hq]

theorem Entered.wake (h : Entered low T r k none qs) (hs : (k.proc p).state = .sleeping)
    (hx : wake .mlfq k p = .ok k') :
    ∃ qs', Entered low T (r.enter T p (slot (k.proc p).queue)) k' none qs' := by
  obtain ⟨k₁, hx₁, h₁⟩ := h.ready.wake hs
  obtain rfl : k₁ = k' := Except.ok.inj (hx₁.symm.trans hx)
  obtain ⟨hage, hother⟩ := wake_ageTime hx
  refine ⟨_, h.push (h.ready.notMem fun hw => ?_) h₁ (wake_frame hs hx).1.ticks hother fun _ => hage⟩
  rw [hw.1] at hs
  cases hs

theorem Entered.wakeup1Body {chan : Option Chan} (h : Entered low T r k none qs)
    (hx : wakeup1Body .mlfq chan k p = .ok k') :
    ∃ qs', Entered low T (r.enterAll T (wakeEntry chan k p)) k' none qs' := by
  unfold Process.wakeup1Body at hx
  unfold wakeEntry
  split at hx
  · rename_i hc
    rw [if_pos hc]
    exact h.wake hc.1 hx
  · rename_i hc
    rw [if_neg hc]
    cases hx
    exact ⟨qs, h⟩

theorem Entered.wakeup1 {chan : Option Chan} (h : Entered low T r k none qs)
    (hx : wakeup1 .mlfq k chan = .ok k') :
    ∃ qs', Entered low T (r.enterAll T (wakeup1Entries chan k)) k' none qs' := by
  refine foldlM_log (P := fun es k => ∃ qs, Entered low T (r.enterAll T es) k none qs) ?_ hx ⟨qs, h⟩
  rintro es k k' p - hp ⟨qs, h⟩
  rw [Arrivals.enterAll_append]
  exact h.wakeup1Body hp

theorem Entered.reparent {q : ProcId} (h : Entered low T r k none qs)
    (hx : reparent .mlfq p k q = .ok k') :
    ∃ qs', Entered low T (r.enterAll T (reparentEntries p k q)) k' none qs' := by
  have hset : Entered low T r (k.setProc q fun r => { r with parent := k.initproc }) none qs := by
    exact h.keep ⟨qs, h.ready.setProc_same ⟨rfl, rfl⟩⟩ rfl rfl rfl fun p _ => setProc_field Proc.ageTime rfl p
  unfold Process.reparent at hx
  unfold reparentEntries
  split at hx
  · rename_i hp
    dsimp only at hx
    have hzombie : ((k.setProc q fun r => { r with parent := k.initproc }).proc q).state =
        (k.proc q).state := by simp
    split at hx
    · rename_i hz
      rw [hzombie] at hz
      rw [if_pos ⟨hp, hz⟩]
      exact hset.wakeup1 hx
    · rename_i hz
      rw [hzombie] at hz
      rw [if_neg fun hc => hz hc.2]
      cases hx
      exact ⟨qs, hset⟩
  · rename_i hp
    rw [if_neg fun hc => hp hc.1]
    cases hx
    exact ⟨qs, h⟩

/-- The two loops of `exit`; the caller is not on a queue and is left out. -/
theorem Entered.exit {c : C} (h : Entered low T r k none qs) (hs : (k.proc p).state = .running)
    (hx : exit .mlfq k c p = .ok k') :
    ∃ qs', Entered low T (r.enterAll T (exitEntries k p)) k' (some p) qs' := by
  obtain ⟨k₃, hx₃, hq₃⟩ := h.ready.exit (c := c) hs
  obtain rfl : k₃ = k' := Except.ok.inj (hx₃.symm.trans hx)
  unfold Process.exit at hx
  unfold exitEntries
  dsimp only
  split at hx
  · cases hx
  rename_i k₁ h₁
  rw [h₁, Arrivals.enterAll_append]
  obtain ⟨qs₁, he₁⟩ := h.wakeup1 h₁
  split at hx
  · cases hx
  rename_i k₂ h₂
  cases hx
  generalize r.enterAll T (wakeup1Entries ((k.proc p).parent.map .proc) k) = r₁ at he₁ ⊢
  obtain ⟨qs₂, he₂⟩ : ∃ qs, Entered low T
      (r₁.enterAll T (foldLog (Process.reparent .mlfq p) (reparentEntries p) (List.finRange NPROC) k₁))
      k₂ none qs := by
    refine foldlM_log (P := fun es k => ∃ qs, Entered low T (r₁.enterAll T es) k none qs) ?_ h₂ ⟨qs₁, he₁⟩
    rintro es k k' q - hq ⟨qs, h⟩
    rw [Arrivals.enterAll_append]
    exact h.reparent hq
  have hage : ∀ q, ((k₂.setProc p fun q => { q with state := .zombie }).proc q).ageTime =
      (k₂.proc q).ageTime := setProc_field Proc.ageTime rfl
  exact ⟨qs₂, he₂.keep hq₃ rfl rfl rfl fun q _ => hage q⟩

theorem Entered.activate (h : Entered low T r k none qs) (hs : (k.proc p).state = .embryo)
    (hx : activate .mlfq k p = .ok k') :
    ∃ qs', Entered low T (r.enter T p 0) k' none qs' := by
  obtain ⟨k₁, hx₁, h₁⟩ := h.ready.activate hs
  obtain rfl : k₁ = k' := Except.ok.inj (hx₁.symm.trans hx)
  obtain ⟨hrest, hproc⟩ := activate_frame hx
  refine ⟨_, h.push (h.ready.notMem fun hw => ?_) h₁ hrest.ticks (fun q hq => ?_) fun h0 => absurd rfl h0⟩
  · rw [hw.1] at hs
    cases hs
  · rw [hproc, Kern.setProc_proc_ne _ _ _ hq]

theorem Entered.kill {pid : Word} {o : Out} (h : Entered low T r k none qs)
    (hx : kill .mlfq k pid = .ok (k', o)) :
    ∃ qs', Entered low T (r.enterAll T (killEntries k pid)) k' none qs' := by
  cases hf : (List.finRange NPROC).find? fun p => (k.proc p).pid = pid with
  | none =>
    simp only [Process.kill, hf] at hx
    cases hx
    simp only [killEntries, hf]
    exact ⟨qs, h⟩
  | some p =>
    simp only [Process.kill, hf] at hx
    simp only [killEntries, hf]
    have hset : Entered low T r (k.setProc p fun q => { q with killed := true }) none qs := by
      exact h.keep ⟨qs, h.ready.setProc_same ⟨rfl, rfl⟩⟩ rfl rfl rfl fun q _ => setProc_field Proc.ageTime rfl q
    rw [Kern.setProc_proc_self] at hx
    dsimp only at hx
    split at hx
    · rename_i hs
      rw [if_pos hs]
      split at hx
      · cases hx
      · rename_i k₁ hw
        cases hx
        have := hset.wake (p := p) (by simpa using hs) hw
        rwa [Kern.setProc_proc_self] at this
    · rename_i hs
      rw [if_neg hs]
      cases hx
      exact ⟨qs, hset⟩

theorem requeue_ageTime (hx : requeue k p = .ok k') (hs : (k.proc p).state = .runnable) :
    k'.ticks = k.ticks ∧ (k'.proc p).ageTime = k.ticks ∧
      ∀ q ≠ p, (k'.proc q).ageTime = (k.proc q).ageTime := by
  unfold requeue at hx
  rw [if_pos hs] at hx
  dsimp only at hx
  obtain ⟨hrest, hproc⟩ := enqueue_frame hx
  split at hrest <;> rename_i hpunish
  · rw [if_pos hpunish] at hproc
    rw [hproc]
    exact ⟨hrest.ticks, by simp, fun q hq => by rw [Kern.setProc_proc_ne _ _ _ hq]⟩
  · rw [if_neg hpunish] at hproc
    rw [hproc]
    exact ⟨hrest.ticks, by simp, fun q hq => by rw [Kern.setProc_proc_ne _ _ _ hq]⟩

/-- The process that has come back enters its queue, with its age restarted. -/
theorem Entered.requeue (h : Entered low T r k (some p) qs) (hx : requeue k p = .ok k') :
    ∃ qs', Entered low T (r.enterAll T (requeueEntries k p)) k' none qs' := by
  obtain ⟨k₁, hx₁, h₁⟩ := h.ready.requeue
  obtain rfl : k₁ = k' := Except.ok.inj (hx₁.symm.trans hx)
  unfold requeueEntries
  by_cases hs : (k.proc p).state = .runnable
  · rw [if_pos hs] at h₁ ⊢
    obtain ⟨ht, hage, hother⟩ := requeue_ageTime hx hs
    exact ⟨_, h.push (h.ready.notMem fun hw => hw.2 rfl) h₁ ht hother fun _ => hage⟩
  · rw [if_neg hs] at h₁ ⊢
    unfold Process.requeue at hx
    rw [if_neg hs] at hx
    cases hx
    exact ⟨qs, h.keep ⟨qs, h₁⟩ rfl rfl rfl fun _ _ => rfl⟩

/-! ### Ageing and popping -/

/-- What the first loop of `split` passes over is the longest prefix of old processes. -/
theorem oldFront_eq {node : NodeId → Node} (old : ProcId → Bool) {l : List NodeId} {ps : List ProcId}
    {cur : Option NodeId} {fuel : ℕ} (hc : Chain (links node) cur l)
    (hm : l.map (fun n => (node n).p) = ps.map some) (hf : l.length ≤ fuel) :
    oldFront old node fuel cur = ps.takeWhile old := by
  induction l generalizing ps cur fuel with
  | nil =>
    obtain rfl : cur = none := hc
    obtain rfl : ps = [] := by simpa using hm.symm
    cases fuel <;> rfl
  | cons n l ih =>
    obtain ⟨rfl, hc⟩ := hc
    cases ps with
    | nil => simp at hm
    | cons p ps =>
      simp only [List.map_cons, List.cons.injEq] at hm
      obtain ⟨fuel, rfl⟩ : ∃ f, fuel = f + 1 := ⟨fuel - 1, by simp at hf; omega⟩
      have hrest := ih hc hm.2 (Nat.le_of_succ_le_succ hf)
      simp only [oldFront, hm.1, List.takeWhile_cons]
      rw [show (node n).next = links node n from rfl, hrest]

theorem ageEntries_eq (h : Ready k pend qs) (i : Fin NUM_QUEUES) :
    ageEntries k i =
      ((qs i).takeWhile fun p => isOld k.ticks (.ofNat 32 AGE_LIMIT) (k.proc p)).map (·, i - 1) := by
  obtain ⟨ns, hr, hm⟩ := h.refines
  unfold ageEntries
  dsimp only
  rw [oldFront_eq _ (hr.chain i) (hm i) (hr.length_le i)]

theorem pred_ne {i : Fin NUM_QUEUES} (hi : i ≠ 0) : i ≠ i - 1 := by
  revert hi
  revert i
  decide

/-- The old processes at the front of a queue enter the queue before it. -/
theorem Entered.ageQueue {i : Fin NUM_QUEUES} (h : Entered low T r k none qs) (hi : i ≠ 0)
    (hx : ageQueue k i = .ok k') :
    let old := fun p => isOld k.ticks (.ofNat 32 AGE_LIMIT) (k.proc p)
    Entered low T (r.enterAll T (ageEntries k i)) k' none
      (moveFront qs i (i - 1) ((qs i).takeWhile old) ((qs i).dropWhile old)) := by
  intro old
  obtain ⟨k₁, hx₁, hproc, h₁⟩ := h.ready.ageQueue hi
  obtain rfl : k₁ = k' := Except.ok.inj (hx₁.symm.trans hx)
  have hd := h.ready.distinct
  have hq : qs i = (qs i).takeWhile old ++ (qs i).dropWhile old := List.takeWhile_append_dropWhile.symm
  have hturn := h.turn.move (pred_ne hi) hd.nodup hd.owner hq
  have htime : ∀ q, (r.enterAll T (((qs i).takeWhile old).map (·, i - 1))).time q =
      if q ∈ (qs i).takeWhile old then T else r.time q := by
    intro q
    rw [Arrivals.time_enterAll, List.map_map, show Prod.fst ∘ (·, i - 1) = id from rfl, List.map_id]
  rw [ageEntries_eq h.ready]
  refine ⟨h₁, hturn, h.low_le, fun j hj q hqj => ?_⟩
  rw [htime, (ageQueue_frame hx).1.ticks, hproc]
  unfold agedAll
  by_cases hmoved : q ∈ (qs i).takeWhile old
  · rw [if_pos hmoved, if_pos hmoved]
    exact ⟨h.low_le, by simp [aged]⟩
  · rw [if_neg hmoved, if_neg hmoved]
    -- the others stay where they are
    have hqj : q ∈ qs j := by
      unfold moveFront at hqj
      by_cases hj' : j = i - 1
      · subst hj'
        rw [Function.update_self, List.mem_append] at hqj
        exact hqj.resolve_right hmoved
      · rw [Function.update_of_ne hj'] at hqj
        by_cases hji : j = i
        · subst hji
          rw [Function.update_self] at hqj
          exact List.dropWhile_subset _ hqj
        · rwa [Function.update_of_ne hji] at hqj
    exact h.age j hj q hqj

theorem Entered.ageing (h : Entered low T r k none qs) (hx : [1, 2, 3, 4].foldlM Process.ageQueue k = .ok k') :
    ∃ qs', Entered low T (r.enterAll T (foldLog Process.ageQueue ageEntries [1, 2, 3, 4] k)) k' none qs' := by
  refine foldlM_log (P := fun es k => ∃ qs, Entered low T (r.enterAll T es) k none qs) ?_ hx ⟨qs, h⟩
  rintro es k k' i hi hq ⟨qs, h⟩
  rw [Arrivals.enterAll_append]
  exact ⟨_, h.ageQueue (by rintro rfl; exact absurd hi (by decide)) hq⟩

/-- Taking processes off the queues leaves the others in turn. -/
theorem Entered.sublist {qs' : Fin NUM_QUEUES → List ProcId} (h : Entered low T r k pend qs)
    (h' : Ready k' pend' qs') (hs : ∀ i, (qs' i).Sublist (qs i)) (ht : k'.ticks = k.ticks)
    (hage : ∀ p, (k'.proc p).ageTime = (k.proc p).ageTime) : Entered low T r k' pend' qs' := by
  refine ⟨h', h.turn.sublist hs, h.low_le, fun i hi p hp => ?_⟩
  rw [ht, hage]
  exact h.age i hi p ((hs i).subset hp)

/-- **A pass of the scheduler**: after the ageing pass it takes the head of the first queue that is
not empty, or there is none. -/
theorem Entered.schedMLFQ [DecidableEq C] {c : C} {o : Out} (h : Entered low T r k none qs)
    (hx : schedMLFQ k c = .ok (k', o)) :
    ∃ k₁ qs₁, [1, 2, 3, 4].foldlM Process.ageQueue k = .ok k₁ ∧
      Entered low T (r.enterAll T (foldLog Process.ageQueue ageEntries [1, 2, 3, 4] k)) k₁ none qs₁ ∧
      (o = .idle ∧ (∀ i, qs₁ i = []) ∧ k' = { k₁ with lock := .free } ∨
        ∃ p i ps, o = .dispatch p ∧ qs₁ i = p :: ps ∧ (∀ j < i, qs₁ j = []) ∧
          k'.lock = .resumed c p ∧ (∀ q, (k'.proc q).queue = (k₁.proc q).queue) ∧
          Entered low T (r.enterAll T (foldLog Process.ageQueue ageEntries [1, 2, 3, 4] k)) k' none
            (Function.update qs₁ i ps)) := by
  unfold Process.schedMLFQ at hx
  split at hx
  · cases hx
  rename_i k₁ h₁
  obtain ⟨qs₁, he₁⟩ := h.ageing h₁
  refine ⟨k₁, qs₁, h₁, he₁, ?_⟩
  rcases he₁.ready.popFirst [0, 1, 2, 3, 4] with ⟨hp, hall⟩ | ⟨k₂, p, i, ps, hp, hi, hbefore, hr₂⟩
  · rw [hp] at hx
    cases hx
    exact .inl ⟨rfl, fun i => hall i (by revert i; decide), rfl⟩
  · have hs : (k₁.proc p).state = .runnable := ((he₁.ready.mem p i).1 (by simp [hi])).1
    obtain ⟨hrest, hproc⟩ := popFirst_frame hp
    have hs₂ : ¬ (k₂.proc p).state ≠ .runnable := by simp [hproc, hs]
    rw [hp] at hx
    simp only [if_neg hs₂] at hx
    cases hx
    have hset : ∀ {β : Type} (g : Proc → β), (∀ x : Proc, g { x with
          curTimeslices := x.curTimeslices + 1, numRun := x.numRun + 1, state := .running } = g x) →
        ∀ q, g ((switchTo (k₂.setProc p fun q => { q with curTimeslices := q.curTimeslices + 1 }) c p).proc
          q) = g (k₁.proc q) := by
      intro β g hg q
      rw [← hproc]
      by_cases hq : q = p
      · subst hq
        simp only [switchTo, Kern.setProc_proc_self]
        exact hg _
      · simp only [switchTo, Kern.setProc_proc_ne _ _ _ hq]
    refine .inr ⟨p, i, ps, rfl, hi, ?_, rfl, hset Proc.queue fun _ => rfl, ?_⟩
    · -- the queues are searched in their order
      obtain ⟨is₁, is₂, his, hempty⟩ := hbefore
      have hsorted : ([0, 1, 2, 3, 4] : List (Fin NUM_QUEUES)).Pairwise (· < ·) := by decide
      have hmem : ∀ j : Fin NUM_QUEUES, j ∈ ([0, 1, 2, 3, 4] : List (Fin NUM_QUEUES)) := by decide
      intro j hj
      have hmem := hmem j
      rw [his] at hsorted hmem
      obtain ⟨-, hafter, -⟩ := List.pairwise_append.1 hsorted
      rcases List.mem_append.1 hmem with hj' | hj'
      · exact hempty j hj'
      · rcases List.mem_cons.1 hj' with rfl | hj'
        · exact absurd hj (lt_irrefl _)
        · exact absurd (hj.trans ((List.pairwise_cons.1 hafter).1 j hj')) (lt_irrefl _)
    · have h₃ : Ready ((k₂.setProc p fun q => { q with curTimeslices := q.curTimeslices + 1 }).setProc p
          fun q => { q with numRun := q.numRun + 1, state := .running }) none (Function.update qs₁ i ps) :=
        Ready.setProc (hr₂.setProc_same ⟨rfl, rfl⟩) (by simp [Waiting]) rfl (by simp) (by grind)
      refine he₁.sublist (h₃.of_eq rfl rfl rfl) (fun j => ?_) hrest.ticks (hset Proc.ageTime fun _ => rfl)
      by_cases hj : j = i
      · subst hj
        rw [Function.update_self, hi]
        exact List.sublist_cons_self p ps
      · rw [Function.update_of_ne hj]

end Xv6.Process
