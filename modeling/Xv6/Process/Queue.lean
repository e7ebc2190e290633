import Xv6.Process.Table
import Xv6.Lib.Chain

/-!
# `queue.c`: the ready queues of the multi-level feedback scheduler

The queues are singly linked lists of cells of the pool `surplus_nodes`. The code of `queue.c` is
modelled on the pool as it is, with the loops bounded by the size of the pool and a fault where
the source would follow a null pointer.

What the queues are for is five lists of processes. `Refines` says that the pool represents such
lists, and the operations are shown to be the list operations: `push` appends, `pop` drops the
head, `split` moves the longest prefix of old processes to the end of the other list. The pool has
exactly `NPROC` cells, so `push` finds one whenever the queues hold distinct processes and the new
process is not among them.
-/

namespace Xv6.Process

open Lib

/-! ### The code -/

def links (node : NodeId → Node) (n : NodeId) : Option NodeId := (node n).next

/-- `q_alloc`: the first unused cell, marked as used, or null. -/
def qAlloc (node : NodeId → Node) : Option (NodeId × (NodeId → Node)) :=
  match (List.finRange NPROC).find? fun i => !(node i).use with
  | none => none
  | some i => some (i, Function.update node i { node i with use := true })

def qFree (node : NodeId → Node) (n : NodeId) : NodeId → Node :=
  Function.update node n { node n with use := false }

/-- `push`: a new last node for `p`; returns the head. -/
def push (node : NodeId → Node) (head : Option NodeId) (p : ProcId) :
    Except Fault ((NodeId → Node) × Option NodeId) :=
  match qAlloc node with
  | none => .error .null
  | some (new, node) =>
    let node := Function.update node new { node new with p := some p, next := none }
    match head with
    | none => .ok (node, some new)
    | some h =>
      match lastNode (links node) NPROC h with
      | none => .error .loop
      | some cur => .ok (Function.update node cur { node cur with next := some new }, some h)

/-- `pop`: give the first node back to the pool; returns the new head. -/
def pop (node : NodeId → Node) (head : Option NodeId) : (NodeId → Node) × Option NodeId :=
  match head with
  | none => (node, none)
  | some h => (qFree node h, (node h).next)

def length (node : NodeId → Node) (head : Option NodeId) : Except Fault ℕ :=
  match countNodes (links node) NPROC head with
  | none => .error .loop
  | some n => .ok n

/-- `ticks - p->age_time > threshold`, a comparison of unsigned words. -/
def isOld (ticks threshold : Word) (p : Proc) : Bool := decide (threshold < ticks - p.ageTime)

/-- What `split` does to a process it moves. -/
def aged (ticks : Word) (p : Proc) : Proc := { p with queue := p.queue - 1, ageTime := ticks }

/-- The first loop of `split`: walk over the old processes at the front. The results are the
process table, `cur`, `prev` and `count`. -/
def splitScan (ticks threshold : Word) (node : NodeId → Node) :
    ℕ → (ProcId → Proc) → Option NodeId → Option NodeId → ℕ →
      Except Fault ((ProcId → Proc) × Option NodeId × Option NodeId × ℕ)
  | _, proc, none, prev, count => .ok (proc, none, prev, count)
  | 0, _, some _, _, _ => .error .loop
  | fuel + 1, proc, some cur, prev, count =>
    match (node cur).p with
    | none => .error .null
    | some p =>
      if isOld ticks threshold (proc p) then
        splitScan ticks threshold node fuel (Function.update proc p (aged ticks (proc p)))
          (node cur).next (some cur) (count + 1)
      else .ok (proc, some cur, prev, count)

/-- What `split` returns: the process table, the pool, the two heads and the count. -/
structure SplitResult where
  proc : ProcId → Proc
  node : NodeId → Node
  src : Option NodeId
  dst : Option NodeId
  count : ℕ

/-- `split`: shift the old nodes at the front of the list `src` to the end of the list `dst`. -/
def split (ticks threshold : Word) (proc : ProcId → Proc) (node : NodeId → Node)
    (src dst : Option NodeId) : Except Fault SplitResult :=
  match splitScan ticks threshold node NPROC proc src none 0 with
  | .error e => .error e
  | .ok (proc, _, none, _) => .ok ⟨proc, node, src, dst, 0⟩
  | .ok (proc, cur, some prev, count) =>
    match dst with
    | none =>
      .ok ⟨proc, Function.update node prev { node prev with next := none }, cur, src, count⟩
    | some d =>
      match lastNode (links node) NPROC d with
      | none => .error .loop
      | some toEnd =>
        let node := Function.update node prev { node prev with next := none }
        .ok ⟨proc, Function.update node toEnd { node toEnd with next := src }, cur, some d, count⟩


/-! ### The pool as five lists of nodes -/

/-- The node lists `ns` are what the queue heads and the links of the pool spell out: each queue
is null-terminated, no node is on two queues, and the used cells are those on a queue. -/
structure Repr (node : NodeId → Node) (queues : Fin NUM_QUEUES → Option NodeId)
    (ns : Fin NUM_QUEUES → List NodeId) : Prop where
  chain : ∀ i, Chain (links node) (queues i) (ns i)
  owner : ∀ n i j, n ∈ ns i → n ∈ ns j → i = j
  used : ∀ n, (node n).use = true ↔ ∃ i, n ∈ ns i

/-- No process is twice on the queues `qs`. -/
structure Distinct (qs : Fin NUM_QUEUES → List ProcId) : Prop where
  nodup : ∀ i, (qs i).Nodup
  owner : ∀ p i j, p ∈ qs i → p ∈ qs j → i = j

/-- **The abstraction.** The pool and the heads represent the process queues `qs`. -/
def Refines (node : NodeId → Node) (queues : Fin NUM_QUEUES → Option NodeId)
    (qs : Fin NUM_QUEUES → List ProcId) : Prop :=
  ∃ ns, Repr node queues ns ∧ ∀ i, (ns i).map (fun n => (node n).p) = (qs i).map some

variable {node : NodeId → Node} {queues : Fin NUM_QUEUES → Option NodeId}
  {ns : Fin NUM_QUEUES → List NodeId} {qs : Fin NUM_QUEUES → List ProcId}

theorem links_update (n : NodeId) (x : Node) :
    links (Function.update node n x) = Function.update (links node) n x.next := by
  funext m
  by_cases h : m = n
  · subst h; simp [links]
  · simp [links, h]

theorem Repr.length_le (hr : Repr node queues ns) (i : Fin NUM_QUEUES) :
    (ns i).length ≤ NPROC := by
  simpa using (hr.chain i).nodup.length_le_card

/-- A list of processes is read off its nodes. -/
theorem exists_proc {l : List NodeId} {ps : List ProcId}
    (hm : l.map (fun n => (node n).p) = ps.map some) {n : NodeId} (hn : n ∈ l) :
    ∃ p ∈ ps, (node n).p = some p := by
  have : (node n).p ∈ ps.map some := hm ▸ List.mem_map_of_mem hn
  obtain ⟨p, hp, he⟩ := List.mem_map.1 this
  exact ⟨p, hp, he.symm⟩

theorem exists_node {l : List NodeId} {ps : List ProcId}
    (hm : l.map (fun n => (node n).p) = ps.map some) {p : ProcId} (hp : p ∈ ps) :
    ∃ n ∈ l, (node n).p = some p := by
  have : some p ∈ l.map (fun n => (node n).p) := hm ▸ List.mem_map_of_mem hp
  simpa using this

/-- Two nodes on the queues that carry the same process are the same node. -/
theorem node_inj (hd : Distinct qs) (hm : ∀ i, (ns i).map (fun n => (node n).p) = (qs i).map some)
    {n m : NodeId} {i j : Fin NUM_QUEUES} (hn : n ∈ ns i) (hm' : m ∈ ns j)
    (he : (node n).p = (node m).p) : n = m := by
  obtain ⟨p, hp, hnp⟩ := exists_proc (hm i) hn
  obtain ⟨q, hq, hmq⟩ := exists_proc (hm j) hm'
  obtain rfl : p = q := Option.some.inj (by rw [← hnp, ← hmq, he])
  obtain rfl := hd.owner p i j hp hq
  have hnd : ((ns i).map fun n => (node n).p).Nodup := by
    rw [hm i]
    exact (hd.nodup i).map (Option.some_injective _)
  exact List.inj_on_of_nodup_map hnd hn hm' he

/-- **There is always room.** If the queues hold distinct processes and `p` is not among them,
some cell of the pool is free: the used cells carry distinct processes other than `p`. -/
theorem Repr.exists_free (hr : Repr node queues ns) (hd : Distinct qs)
    (hm : ∀ i, (ns i).map (fun n => (node n).p) = (qs i).map some) {p : ProcId}
    (hp : ∀ i, p ∉ qs i) : ∃ n, (node n).use = false := by
  by_contra hno
  have hall : ∀ n, ∃ i, n ∈ ns i := fun n => by
    refine (hr.used n).1 ?_
    by_contra hu
    exact hno ⟨n, by simpa using hu⟩
  have hcar : ∀ n, ∃ q, (node n).p = some q := fun n => by
    obtain ⟨i, hi⟩ := hall n
    obtain ⟨q, -, hq⟩ := exists_proc (hm i) hi
    exact ⟨q, hq⟩
  choose q hq using hcar
  have hinj : Function.Injective q := fun n m hnm => by
    obtain ⟨i, hi⟩ := hall n
    obtain ⟨j, hj⟩ := hall m
    exact node_inj hd hm hi hj (by rw [hq, hq, hnm])
  obtain ⟨n, rfl⟩ := Finite.injective_iff_surjective.1 hinj p
  obtain ⟨i, hi⟩ := hall n
  obtain ⟨p', hp', he⟩ := exists_proc (hm i) hi
  rw [hq] at he
  exact hp i (Option.some.inj he ▸ hp')

theorem qAlloc_eq (h : ∃ n, (node n).use = false) :
    ∃ n, (node n).use = false ∧
      qAlloc node = some (n, Function.update node n { node n with use := true }) := by
  unfold qAlloc
  cases hf : (List.finRange NPROC).find? fun i => !(node i).use with
  | none =>
    obtain ⟨n, hn⟩ := h
    have := List.find?_eq_none.1 hf n (List.mem_finRange n)
    simp [hn] at this
  | some n => exact ⟨n, by simpa using List.find?_some hf, rfl⟩

/-! ### The operations on the lists -/

/-- A pool in which the node `new` has been added at the end of the queue `i`. -/
theorem Repr.snoc (hr : Repr node queues ns) {new : NodeId} (hnew : ∀ j, new ∉ ns j)
    (i : Fin NUM_QUEUES) {node' : NodeId → Node} {queues' : Fin NUM_QUEUES → Option NodeId}
    (hi : Chain (links node') (queues' i) (ns i ++ [new]))
    (hj : ∀ j, j ≠ i → Chain (links node') (queues' j) (ns j))
    (hu : ∀ n, (node' n).use = true ↔ n = new ∨ (node n).use = true) :
    Repr node' queues' (Function.update ns i (ns i ++ [new])) where
  chain j := by
    by_cases h : j = i
    · subst h; simpa using hi
    · simpa [h] using hj j h
  owner n j j' h h' := by
    have := hr.owner n j j'
    have := hnew j
    have := hnew j'
    grind [Function.update_apply]
  used n := by
    rw [hu, hr.used]
    constructor
    · rintro (rfl | ⟨j, hj⟩)
      · exact ⟨i, by simp⟩
      · exact ⟨j, by grind [Function.update_apply]⟩
    · rintro ⟨j, hj⟩
      grind [Function.update_apply]

theorem Refines.push (hr : Refines node queues qs) (hd : Distinct qs) {p : ProcId}
    (hp : ∀ i, p ∉ qs i) (i : Fin NUM_QUEUES) :
    ∃ node' head', push node (queues i) p = .ok (node', head') ∧
      Refines node' (Function.update queues i head') (Function.update qs i (qs i ++ [p])) := by
  obtain ⟨ns, hr, hm⟩ := hr
  obtain ⟨new, hfree, hal⟩ := qAlloc_eq (hr.exists_free hd hm hp)
  have hnew : ∀ j, new ∉ ns j := fun j hj => by
    have := (hr.used new).2 ⟨j, hj⟩
    simp [hfree] at this
  -- the pool with the new cell filled in, before it is linked
  let filled := Function.update node new { p := some p, next := none, use := true }
  have hfill : Function.update (Function.update node new { node new with use := true }) new
      { (Function.update node new { node new with use := true }) new with
        p := some p, next := none } = filled := by
    simp [filled]
  have hchain : ∀ j, Chain (links filled) (queues j) (ns j) := fun j => by
    rw [links_update]
    exact (hr.chain j).update (hnew j) _
  have hused : ∀ n, (filled n).use = true ↔ n = new ∨ (node n).use = true := fun n => by
    by_cases h : n = new <;> simp [filled, h]
  have hmap : ∀ j, (Function.update ns i (ns i ++ [new]) j).map (fun n => (filled n).p) =
      (Function.update qs i (qs i ++ [p]) j).map some := fun j => by
    have hold : (ns j).map (fun n => (filled n).p) = (qs j).map some := by
      rw [← hm j]
      refine List.map_congr_left fun n hn => ?_
      simp only [filled, Function.update_of_ne (ne_of_mem_of_not_mem hn (hnew j))]
    by_cases h : j = i
    · subst h
      simp [hold, filled]
    · simpa [h] using hold
  cases hq : queues i with
  | none =>
    have hnil : ns i = [] := by
      have := hr.chain i
      rw [hq] at this
      exact this.eq_nil
    refine ⟨filled, some new, by simp only [Process.push, hal, hfill], _,
      hr.snoc hnew i ?_ (fun j hj => ?_) hused, hmap⟩
    · simp [hnil, chain_cons, chain_nil, links, filled]
    · simpa [hj] using hchain j
  | some h =>
    have hch := hchain i
    rw [hq] at hch
    obtain ⟨l, z, hl, hz⟩ := lastNode_eq hch (hr.length_le i)
    have hzi : z ∈ ns i := by simp [hl]
    have hzl : z ∉ l := by
      have := (hr.chain i).nodup
      rw [hl] at this
      grind
    have hznew : new ≠ z := (ne_of_mem_of_not_mem hzi (hnew i)).symm
    -- linking changes neither the processes nor the use marks
    have hlink : ∀ n, (Function.update filled z { filled z with next := some new } n).use =
        (filled n).use ∧ (Function.update filled z { filled z with next := some new } n).p =
        (filled n).p := fun n => by
      by_cases h : n = z
      · subst h; simp
      · simp [h]
    refine ⟨Function.update filled z { filled z with next := some new }, some h,
      by simp only [Process.push, hal, hfill, hz], _,
      hr.snoc hnew i ?_ (fun j hj => ?_) fun n => by rw [(hlink n).1, hused], fun j => ?_⟩
    · rw [links_update, Function.update_self]
      rw [hl] at hch ⊢
      refine seg_append.2 ⟨some new, hch.relink hzl _, rfl, ?_⟩
      simp [Function.update_of_ne hznew, links, filled]
    · rw [links_update, Function.update_of_ne hj]
      exact (hchain j).update (fun hzj => hj (hr.owner z j i hzj hzi)) _
    · simp only [fun n => (hlink n).2, hmap]

theorem Refines.pop (hr : Refines node queues qs) {i : Fin NUM_QUEUES} {h : NodeId}
    (hq : queues i = some h) :
    ∃ p ps, qs i = p :: ps ∧ (node h).p = some p ∧
      Refines (pop node (queues i)).1 (Function.update queues i (pop node (queues i)).2)
        (Function.update qs i ps) := by
  obtain ⟨ns, hr, hm⟩ := hr
  have hch := hr.chain i
  rw [hq] at hch
  obtain ⟨l, hl⟩ : ∃ l, ns i = h :: l := by
    cases hn : ns i with
    | nil => rw [hn] at hch; exact absurd hch (by simp [chain_nil])
    | cons n l => rw [hn] at hch; exact ⟨l, by rw [Option.some.inj hch.1]⟩
  have hhl : h ∉ l := by
    have := (hr.chain i).nodup
    rw [hl] at this
    exact (List.nodup_cons.1 this).1
  have hmi := hm i
  rw [hl] at hmi hch
  obtain ⟨p, ps, hqs⟩ : ∃ p ps, qs i = p :: ps := by
    cases hqi : qs i with
    | nil => simp [hqi] at hmi
    | cons p ps => exact ⟨p, ps, rfl⟩
  rw [hqs] at hmi
  simp only [List.map_cons, List.cons.injEq] at hmi
  have hfree : ∀ n, (qFree node h n).next = (node n).next ∧ (qFree node h n).p = (node n).p :=
    fun n => by
      by_cases hn : n = h
      · subst hn; simp [qFree]
      · simp [qFree, hn]
  have hlinks : links (qFree node h) = links node := funext fun n => (hfree n).1
  refine ⟨p, ps, hqs, hmi.1, Function.update ns i l, ⟨fun j => ?_, ?_, fun n => ?_⟩, fun j => ?_⟩
  · simp only [Process.pop, hq, hlinks]
    by_cases hj : j = i
    · subst hj
      simp only [Function.update_self]
      exact hch.2
    · simpa [hj] using hr.chain j
  · intro n j j' hj hj'
    have := hr.owner n j j'
    grind [Function.update_apply]
  · simp only [Process.pop, hq, qFree]
    by_cases hn : n = h
    · subst hn
      have := fun j hj => hr.owner n j i hj (by simp [hl])
      simp only [Function.update_self, Bool.false_eq_true, false_iff, not_exists]
      grind [Function.update_apply]
    · rw [Function.update_of_ne hn, hr.used]
      constructor
      · rintro ⟨j, hj⟩
        exact ⟨j, by grind [Function.update_apply]⟩
      · rintro ⟨j, hj⟩
        exact ⟨j, by grind [Function.update_apply]⟩
  · simp only [Process.pop, hq, fun n => (hfree n).2]
    by_cases hj : j = i
    · subst hj; simpa using hmi.2
    · simpa [hj] using hm j

/-- The process table after `split` has moved the processes of `l`. -/
def agedAll (ticks : Word) (proc : ProcId → Proc) (l : List ProcId) (q : ProcId) : Proc :=
  if q ∈ l then aged ticks (proc q) else proc q

theorem agedAll_cons (ticks : Word) (proc : ProcId → Proc) {p : ProcId} {l : List ProcId}
    (hp : p ∉ l) :
    agedAll ticks (Function.update proc p (aged ticks (proc p))) l = agedAll ticks proc (p :: l) := by
  funext q
  by_cases hq : q = p
  · subst hq; simp [agedAll, hp]
  · simp [agedAll, hq]

/-- The scan of `split` passes over the longest prefix of old processes and stops at the rest. -/
theorem splitScan_eq {ticks threshold : Word} {l : List NodeId} {ps : List ProcId}
    {proc : ProcId → Proc} {cur : Option NodeId} {fuel : ℕ} {old : ProcId → Bool}
    (prev : Option NodeId) (count : ℕ) (hc : Chain (links node) cur l) (hm : l.map (fun n => (node n).p) = ps.map some)
    (hnd : ps.Nodup) (hold : ∀ p ∈ ps, isOld ticks threshold (proc p) = old p)
    (hf : l.length ≤ fuel) :
    ∃ l₁ l₂, l = l₁ ++ l₂ ∧ l₁.map (fun n => (node n).p) = (ps.takeWhile old).map some ∧
      l₂.map (fun n => (node n).p) = (ps.dropWhile old).map some ∧
      splitScan ticks threshold node fuel proc cur prev count =
        .ok (agedAll ticks proc (ps.takeWhile old), l₂.head?, l₁.getLast?.or prev,
          count + l₁.length) := by
  induction l generalizing ps proc cur prev count fuel with
  | nil =>
    obtain rfl : cur = none := hc
    obtain rfl : ps = [] := by simpa using hm.symm
    exact ⟨[], [], rfl, rfl, rfl, by simp [splitScan]; rfl⟩
  | cons n l ih =>
    obtain ⟨rfl, hc⟩ := hc
    cases ps with
    | nil => simp at hm
    | cons p ps =>
      simp only [List.map_cons, List.cons.injEq] at hm
      obtain ⟨fuel, rfl⟩ : ∃ f, fuel = f + 1 := ⟨fuel - 1, by simp at hf; omega⟩
      obtain ⟨hp, hnd⟩ := List.nodup_cons.1 hnd
      have hop := hold p (by simp)
      by_cases ho : old p = true
      · -- moving `p` does not change how old the processes behind it are
        have hrest : ∀ q ∈ ps, isOld ticks threshold
            (Function.update proc p (aged ticks (proc p)) q) = old q := fun q hq => by
          rw [Function.update_of_ne (ne_of_mem_of_not_mem hq hp)]
          exact hold q (by simp [hq])
        obtain ⟨l₁, l₂, rfl, h₁, h₂, hs⟩ := ih (some n) (count + 1) hc hm.2 hnd hrest
          (Nat.le_of_succ_le_succ hf)
        have hpt : p ∉ ps.takeWhile old := fun h => hp (List.takeWhile_subset _ h)
        refine ⟨n :: l₁, l₂, rfl, by simp [ho, hm.1, h₁], by simp [ho, h₂], ?_⟩
        rw [agedAll_cons _ _ hpt] at hs
        simp only [splitScan, hm.1, hop, ho, if_true, List.takeWhile_cons]
        rw [show (node n).next = links node n from rfl, hs]
        have hlast : l₁.getLast?.or (some n) = (n :: l₁).getLast?.or prev := by
          cases l₁ <;> simp [List.getLast?_cons]
        simp [hlast, Nat.add_assoc, Nat.add_comm 1]
      · exact ⟨[], n :: l, rfl, by simp [ho], by simp [ho, hm], by
          simp [splitScan, hm.1, hop, ho]; rfl⟩

/-- The queues after the processes of `moved` went from the front of the queue `i` to the end of
the queue `j`. -/
def moveFront (qs : Fin NUM_QUEUES → List ProcId) (i j : Fin NUM_QUEUES) (moved rest : List ProcId) :
    Fin NUM_QUEUES → List ProcId :=
  Function.update (Function.update qs i rest) j (qs j ++ moved)

/-- A pool in which the front `l₁` of the queue `i` has been moved to the end of the queue `j`. -/
theorem Repr.move (hr : Repr node queues ns) {i j : Fin NUM_QUEUES} (hij : i ≠ j)
    {l₁ l₂ : List NodeId} (hl : ns i = l₁ ++ l₂) {node' : NodeId → Node}
    {queues' : Fin NUM_QUEUES → Option NodeId} (hi : Chain (links node') (queues' i) l₂)
    (hj : Chain (links node') (queues' j) (ns j ++ l₁))
    (hk : ∀ k, k ≠ i → k ≠ j → Chain (links node') (queues' k) (ns k))
    (hu : ∀ n, (node' n).use = (node n).use) :
    Repr node' queues' (Function.update (Function.update ns i l₂) j (ns j ++ l₁)) where
  chain k := by
    by_cases hkj : k = j
    · subst hkj; simpa using hj
    · by_cases hki : k = i
      · subst hki; simpa [hkj] using hi
      · simpa [hkj, hki] using hk k hki hkj
  owner n a b ha hb := by
    have hnd := (hr.chain i).nodup
    have h₁ := hr.owner n a b
    have h₂ := fun k => hr.owner n k i
    have h₃ := fun k => hr.owner n k j
    rw [hl] at hnd h₂
    have := List.nodup_append.1 hnd
    grind [Function.update_apply]
  used n := by
    rw [hu, hr.used]
    constructor
    · rintro ⟨k, hkn⟩
      by_cases hki : k = i
      · subst hki
        rw [hl, List.mem_append] at hkn
        rcases hkn with h | h
        · exact ⟨j, by simp [h]⟩
        · exact ⟨k, by simp [hij, h]⟩
      · exact ⟨k, by grind [Function.update_apply]⟩
    · rintro ⟨k, hkn⟩
      grind [Function.update_apply]

/-- `split` moves the longest prefix of old processes of the queue `i` to the end of the queue
`j`, lowers their queue index and restarts their age. -/
theorem Refines.split (hr : Refines node queues qs) (hd : Distinct qs) {i j : Fin NUM_QUEUES}
    (hij : i ≠ j) (ticks threshold : Word) (proc : ProcId → Proc) :
    let old := fun p => isOld ticks threshold (proc p)
    ∃ r, split ticks threshold proc node (queues i) (queues j) = .ok r ∧
      r.proc = agedAll ticks proc ((qs i).takeWhile old) ∧
      r.count = ((qs i).takeWhile old).length ∧
      Refines r.node (Function.update (Function.update queues i r.src) j r.dst)
        (moveFront qs i j ((qs i).takeWhile old) ((qs i).dropWhile old)) := by
  intro old
  obtain ⟨ns, hr, hm⟩ := hr
  have hold : ∀ p ∈ qs i, isOld ticks threshold (proc p) = old p := fun _ _ => rfl
  obtain ⟨l₁, l₂, hl, h₁, h₂, hs⟩ :=
    splitScan_eq none 0 (hr.chain i) (hm i) (hd.nodup i) hold (hr.length_le i)
  have hlen : l₁.length = ((qs i).takeWhile old).length := by simpa using congrArg List.length h₁
  have hci := hr.chain i
  rw [hl] at hci
  obtain ⟨m, hs₁, hs₂⟩ := seg_append.1 hci
  have hhead : l₂.head? = m := by
    cases l₂ with
    | nil => exact hs₂.symm
    | cons n l => exact hs₂.1.symm
  -- the processes on the queues, once the pool has the same processes in its cells
  have hmap : ∀ node' : NodeId → Node, (∀ n, (node' n).p = (node n).p) → ∀ k,
      (Function.update (Function.update ns i l₂) j (ns j ++ l₁) k).map (fun n => (node' n).p) =
        (moveFront qs i j ((qs i).takeWhile old) ((qs i).dropWhile old) k).map some := by
    intro node' hp k
    simp only [hp, moveFront]
    by_cases hkj : k = j
    · subst hkj; simp [hm, h₁]
    · by_cases hki : k = i
      · subst hki; simpa [hkj] using h₂
      · simpa [hkj, hki] using hm k
  rcases List.eq_nil_or_concat' l₁ with rfl | ⟨l, z, rfl⟩
  · -- no old process: nothing is relinked
    obtain rfl : queues i = m := hs₁
    refine ⟨⟨agedAll ticks proc ((qs i).takeWhile old), node, queues i, queues j, 0⟩,
      by simp [Process.split, hs], rfl, by simpa using hlen, _,
      hr.move hij hl ?_ ?_ (fun k hki hkj => ?_) fun _ => rfl, hmap _ fun _ => rfl⟩
    · simp only [Function.update_of_ne hij, Function.update_self]
      exact hs₂
    · simpa using hr.chain j
    · simpa [hki, hkj] using hr.chain k
  · have hzi : z ∈ ns i := by simp [hl]
    have hnd := (hr.chain i).nodup
    rw [hl] at hnd
    have hzl : z ∉ l := by grind
    have hzl₂ : z ∉ l₂ := by grind
    have hzk : ∀ k, k ≠ i → z ∉ ns k := fun k hk hz => hk (hr.owner z k i hz hzi)
    -- the cut: the last moved node ends its list
    let cut := Function.update node z { node z with next := none }
    have hcut : links cut = Function.update (links node) z none := links_update _ _
    have hsrc : Chain (links cut) (queues i) (l ++ [z]) := by
      rw [hcut]; exact hs₁.relink hzl _
    have hrest : Chain (links cut) m l₂ := by
      rw [hcut]; exact hs₂.update hzl₂ _
    have hother : ∀ k, k ≠ i → Chain (links cut) (queues k) (ns k) := fun k hk => by
      rw [hcut]; exact (hr.chain k).update (hzk k hk) _
    have hcuse : ∀ n, (cut n).use = (node n).use ∧ (cut n).p = (node n).p := fun n => by
      by_cases hn : n = z
      · subst hn; simp [cut]
      · simp [cut, hn]
    simp only [List.getLast?_append, List.getLast?_singleton, Option.some_or] at hs
    cases hd' : queues j with
    | none =>
      have hnil : ns j = [] := by
        have := hr.chain j
        rw [hd'] at this
        exact this.eq_nil
      refine ⟨⟨_, cut, m, queues i, _⟩, by simp only [Process.split, hs, hhead]; rfl, rfl,
        by simpa using hlen, _, hr.move hij hl ?_ ?_ (fun k hki hkj => ?_) fun n => (hcuse n).1,
        hmap _ fun n => (hcuse n).2⟩
      · simpa [hij] using hrest
      · simpa [hnil] using hsrc
      · simpa [hki, hkj] using hother k hki
    | some d =>
      have hcj := hr.chain j
      rw [hd'] at hcj
      obtain ⟨dl, e, hdl, he⟩ := lastNode_eq hcj (hr.length_le j)
      have hej : e ∈ ns j := by simp [hdl]
      have hedl : e ∉ dl := by
        have := (hr.chain j).nodup
        rw [hdl] at this
        grind
      have hek : ∀ k, k ≠ j → e ∉ ns k := fun k hk hz => hk (hr.owner e k j hz hej)
      have hei := hek i hij
      rw [hl] at hei
      have hjuse : ∀ n, (Function.update cut e { cut e with next := queues i } n).use = (cut n).use ∧
          (Function.update cut e { cut e with next := queues i } n).p = (cut n).p := fun n => by
        by_cases hn : n = e
        · subst hn; simp
        · simp [hn]
      have hdst := hother j hij.symm
      rw [hd'] at hdst
      refine ⟨⟨_, Function.update cut e { cut e with next := queues i }, m, some d, _⟩,
        by simp only [Process.split, hs, hhead, he]; rfl, rfl, by simpa using hlen, _,
        hr.move hij hl ?_ ?_ (fun k hki hkj => ?_) fun n => by rw [(hjuse n).1, (hcuse n).1],
        hmap _ fun n => by rw [(hjuse n).2, (hcuse n).2]⟩
      · simp only [Function.update_of_ne hij, Function.update_self, links_update]
        exact hrest.update (by grind) _
      · simp only [Function.update_self, links_update]
        rw [hdl] at hdst ⊢
        exact seg_append.2 ⟨queues i, hdst.relink hedl _, hsrc.update (by grind) _⟩
      · simp only [Function.update_of_ne hki, Function.update_of_ne hkj, links_update]
        exact (hother k hki).update (hek k hkj) _

end Xv6.Process
