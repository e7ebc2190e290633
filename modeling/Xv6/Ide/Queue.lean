import Xv6.Ide.Code

/-!
# The discipline of the request queue

The queue is a list without duplicates, and the disk works for its head. Requests are completed in
the order in which they were made, and `iderw` comes back when its own is.
-/

namespace Xv6.Ide

open Lib

variable {B D : Type} {cfg : Config B} {s s' : State B D} {a : Act B D} {o : Out B} {b : B} {q : List B}
  {h : List (Act B D × Out B)}

/-! ### Reading the history -/

/-- The request that an event makes. -/
def Act.request : Act B D → Option B
  | .iderw b => some b
  | _ => none

/-- The buffers that were queued, in the order of their arrival. -/
def arrivals (h : List (Act B D × Out B)) : List B := h.reverse.filterMap fun e => e.1.request

def completions (h : List (Act B D × Out B)) : List B := h.reverse.filterMap fun e => e.2.completed

def Device.buf : Device B D → Option B
  | .idle => none
  | .busy c | .done c _ => some c.buf

/-- The command that the disk works on, or has finished. -/
def Device.command : Device B D → Option (Command B D)
  | .idle => none
  | .busy c | .done c _ => some c

theorem Device.buf_of_command {d : Device B D} {c : Command B D} (hc : d.command = some c) :
    d.buf = some c.buf := by
  cases d with
  | idle => cases hc
  | busy c' | done c' err =>
    cases hc
    rfl

def Device.isBusy : Device B D → Bool
  | .busy _ => true
  | _ => false

theorem Device.not_isBusy_of_buf {d : Device B D} (hd : d.buf = none) : d.isBusy = false := by
  cases d with
  | busy c => cases hd
  | idle | done c err => rfl

theorem arrivals_cons (e : Act B D × Out B) (h : List (Act B D × Out B)) :
    arrivals (e :: h) = arrivals h ++ e.1.request.toList := by
  unfold arrivals
  rw [List.reverse_cons, List.filterMap_append]
  cases he : e.1.request <;> simp [he]

theorem completions_cons (e : Act B D × Out B) (h : List (Act B D × Out B)) :
    completions (e :: h) = completions h ++ e.2.completed.toList := by
  unfold completions
  rw [List.reverse_cons, List.filterMap_append]
  cases he : e.2.completed <;> simp [he]

/-! ### The walk to the end of the queue -/

/-- The cell at the end of a list that starts in the cell `pp`. -/
def endCell (pp : Cell B) : List B → Cell B
  | [] => pp
  | b :: q => endCell (.qnext b) q

theorem walk_eq {pp : Cell B} {fuel : ℕ} (hc : Chain s.qnext (s.load pp) q) (hf : q.length < fuel) :
    s.walk fuel pp = some (endCell pp q) := by
  induction q generalizing pp fuel with
  | nil =>
    obtain ⟨fuel, rfl⟩ : ∃ f, fuel = f + 1 := ⟨fuel - 1, by simp at hf; omega⟩
    have hn : s.load pp = none := hc
    simp only [State.walk, hn, endCell]
  | cons b q ih =>
    obtain ⟨fuel, rfl⟩ : ∃ f, fuel = f + 1 := ⟨fuel - 1, by simp at hf; omega⟩
    obtain ⟨hb, hc⟩ := hc
    simp only [State.walk, hb, endCell]
    exact @ih (.qnext b) fuel hc (by simpa using hf)

theorem endCell_concat (pp : Cell B) (q : List B) (b : B) : endCell pp (q ++ [b]) = .qnext b := by
  induction q generalizing pp with
  | nil => rfl
  | cons b' q ih => exact ih _

/-- The command that a request for `b` leads to. -/
def State.command (cfg : Config B) (s : State B D) (b : B) : Command B D :=
  ⟨b, cfg.dev b % 2, cfg.blockno b, if s.dirty b then some (s.data b) else none⟩

theorem idestart_eq (hx : s.idestart cfg b = .ok s') :
    s' = { s with device := .busy (s.command cfg b) } := by
  unfold State.idestart at hx
  split at hx
  · cases hx
  · cases hx
    rfl

/-- The head of the queue is the buffer `b` that has just been appended iff the queue was empty. -/
theorem head_append (hc : Chain s.qnext s.idequeue (q ++ [b])) (hb : b ∉ q) :
    s.idequeue = some b ↔ q = [] := by
  cases q with
  | nil => simpa using hc.1
  | cons c q =>
    have hcb : c ≠ b := fun h => hb (by simp [h])
    rw [show s.idequeue = some c from hc.1]
    simpa using hcb

variable [DecidableEq B]

/-- **A buffer is appended.** -/
theorem chain_store (hc : Chain s.qnext s.idequeue q) (hq : q.Nodup) (hb : b ∉ q)
    (hn : s.qnext b = none) :
    Chain (s.store b (endCell .idequeue q)).qnext (s.store b (endCell .idequeue q)).idequeue
      (q ++ [b]) := by
  rcases List.eq_nil_or_concat q with rfl | ⟨q, z, rfl⟩
  · exact ⟨rfl, hn⟩
  · rw [List.concat_eq_append] at *
    have hz : z ∉ q := by
      intro hz
      have := List.nodup_append.1 hq
      exact this.2.2 z hz z (by simp) rfl
    have hbz : b ≠ z := fun h => hb (by simp [h])
    rw [endCell_concat]
    refine seg_append.2 ⟨some b, Seg.relink hc hz _, rfl, ?_⟩
    exact (Function.update_of_ne hbz ..).trans hn

/-! ### The invariant -/

/-- The queue is the list `q`, and the disk works for its head. -/
structure Queued (s : State B D) (q : List B) : Prop where
  chain : Chain s.qnext s.idequeue q
  device : s.device.buf = q.head?
  /-- Who made a queued request waits for it. -/
  queued : ∀ b ∈ q, s.waiting b = true ∧ s.clean b = false
  /-- Who waits for a request that is not queued any more finds it completed. -/
  done : ∀ b, s.waiting b = true → b ∉ q → s.clean b = true

theorem start_eq {started : Option B} (hx : s.start cfg b = .ok (s', started)) :
    (s.idequeue = some b ∧ started = some b ∧ s' = { s with device := .busy (s.command cfg b) }) ∨
    (s.idequeue ≠ some b ∧ started = none ∧ s' = s) := by
  unfold State.start at hx
  split at hx
  · rename_i hq
    obtain ⟨s₁, hs, hx⟩ := bind_eq_ok.1 hx
    cases hx
    exact .inl ⟨hq, rfl, idestart_eq hs⟩
  · rename_i hq
    cases hx
    exact .inr ⟨hq, rfl, rfl⟩

/-! ### The steps -/

omit [DecidableEq B] in
theorem Queued.qnext_eq (hi : Queued s (b :: q)) : s.qnext b = q.head? := by
  have hchain := hi.chain.2
  cases q with
  | nil => exact hchain
  | cons b' q => exact hchain.1

theorem Queued.pop (hi : Queued s (b :: q)) {dev : Device B D} (hdev : dev.buf = q.head?) {data : B → D}
    {sleeping : B → Bool} :
    Queued { s with
      idequeue := q.head?, device := dev, data, sleeping
      valid := Function.update s.valid b true
      dirty := Function.update s.dirty b false } q := by
  have hb : b ∉ q := (List.nodup_cons.1 hi.chain.nodup).1
  have hclean : ∀ c ≠ b, (Function.update s.valid b true c && !Function.update s.dirty b false c) =
      s.clean c := by
    intro c hc
    rw [Function.update_of_ne hc, Function.update_of_ne hc]
    rfl
  refine ⟨hi.qnext_eq ▸ hi.chain.2, hdev, fun c hc => ?_, fun c hc hcq => ?_⟩
  · obtain ⟨hw, hcl⟩ := hi.queued c (List.mem_cons_of_mem b hc)
    exact ⟨hw, (hclean c (ne_of_mem_of_not_mem hc hb)).trans hcl⟩
  · by_cases hcb : c = b
    · subst hcb
      simp [State.clean]
    · exact (hclean c hcb).trans (hi.done c hc (by simp [hcb, hcq]))

theorem Queued.ideintr_eq (hi : Queued s (b :: q)) (hx : s.ideintr cfg = .ok (s', o)) :
    ∃ c err device, s.device = .done c err ∧
      s' = { s with
        idequeue := q.head?, device
        data := if !s.dirty b && !err then Function.update s.data b (s.disk c.dev c.blockno) else s.data
        valid := Function.update s.valid b true
        dirty := Function.update s.dirty b false
        sleeping := Function.update s.sleeping b false } ∧
      device = (match q.head? with
        | none => .idle
        | some b' => .busy (s'.command cfg b')) ∧
      o = { started := q.head?, completed := some b } := by
  have hhead : s.idequeue = some b := hi.chain.1
  unfold State.ideintr at hx
  rw [hhead] at hx
  obtain ⟨s₁, hs₁, hx⟩ := bind_eq_ok.1 hx
  rw [hi.qnext_eq] at hs₁
  unfold State.collect at hs₁
  split at hs₁
  · rename_i c err hdone
    cases hs₁
    dsimp only at hx
    refine ⟨c, err, ?_⟩
    cases hq : q.head? with
    | none =>
      rw [hq] at hx
      cases hx
      exact ⟨.idle, hdone, rfl, rfl, rfl⟩
    | some b' =>
      rw [hq] at hx
      obtain ⟨s₂, hs₂, hx⟩ := bind_eq_ok.1 hx
      obtain rfl := idestart_eq hs₂
      cases hx
      exact ⟨_, hdone, rfl, rfl, rfl⟩
  · cases hs₁

theorem Queued.ideintr (hi : Queued s (b :: q)) (hx : s.ideintr cfg = .ok (s', o)) :
    Queued s' q ∧ o.completed = some b ∧ o.returned = none ∧
      ∀ b', o.started = some b' → s.device.isBusy = false ∧ s'.idequeue = some b' := by
  obtain ⟨c, err, device, hdone, hs', hdevice, rfl⟩ := hi.ideintr_eq hx
  have hdev : device.buf = q.head? := by
    rw [hdevice]
    cases q.head? <;> rfl
  refine ⟨hs' ▸ hi.pop hdev, rfl, rfl, fun b' hb' => ⟨by rw [hdone]; rfl, ?_⟩⟩
  rw [hs']
  exact hb'

/-- An interrupt that finds the queue empty does nothing. -/
theorem Queued.ideintr_nil (hi : Queued s []) (hx : s.ideintr cfg = .ok (s', o)) : s' = s ∧ o = {} := by
  have hhead : s.idequeue = none := hi.chain
  unfold State.ideintr at hx
  rw [hhead] at hx
  cases hx
  exact ⟨rfl, rfl⟩

omit [DecidableEq B] in
theorem Queued.finish {err : Bool} (hi : Queued s q) (hx : s.finish err = .ok s') : Queued s' q := by
  unfold State.finish at hx
  split at hx
  · rename_i c hd
    cases hx
    have hdev := hi.device
    rw [hd] at hdev
    exact ⟨hi.chain, hdev, hi.queued, hi.done⟩
  · cases hx

/-- A turn of the loop of `iderw`: it ends when the request is not queued any more. -/
theorem Queued.await (hi : Queued s q) (hw : s.waiting b = true) :
    Queued (s.await b).1 q ∧ ((s.await b).2 = true → b ∉ q) := by
  unfold State.await
  split
  · rename_i hclean
    have hb : b ∉ q := fun hb => by
      rw [(hi.queued b hb).2] at hclean
      cases hclean
    refine ⟨⟨hi.chain, hi.device, fun c hc => ?_, fun c hc hcq => ?_⟩, fun _ => hb⟩
    · obtain ⟨hw, hcl⟩ := hi.queued c hc
      exact ⟨(Function.update_of_ne (ne_of_mem_of_not_mem hc hb) ..).trans hw, hcl⟩
    · by_cases hcb : c = b
      · exact hcb ▸ hclean
      · exact hi.done c ((Function.update_of_ne hcb ..).symm.trans hc) hcq
  · refine ⟨⟨hi.chain, hi.device, fun c hc => ?_, fun c hc hcq => ?_⟩, nofun⟩
    · obtain ⟨hw', hcl⟩ := hi.queued c hc
      refine ⟨?_, hcl⟩
      by_cases hcb : c = b
      · exact hcb ▸ Function.update_self ..
      · exact (Function.update_of_ne hcb ..).trans hw'
    · by_cases hcb : c = b
      · exact hi.done c (hcb ▸ hw) hcq
      · exact hi.done c ((Function.update_of_ne hcb ..).symm.trans hc) hcq

omit [DecidableEq B] in
theorem Queued.hold (hi : Queued s q) {valid dirty : B → Bool} {data : B → D}
    (hsame : ∀ c, s.waiting c = true → valid c = s.valid c ∧ dirty c = s.dirty c) :
    Queued { s with valid, dirty, data } q := by
  have hclean : ∀ c, s.waiting c = true → (valid c && !dirty c) = s.clean c := by
    intro c hc
    rw [(hsame c hc).1, (hsame c hc).2]
    rfl
  refine ⟨hi.chain, hi.device, fun c hc => ?_, fun c hc hcq => ?_⟩
  · obtain ⟨hw', hcl⟩ := hi.queued c hc
    exact ⟨hw', (hclean c hw').trans hcl⟩
  · exact (hclean c hc).trans (hi.done c hc hcq)

theorem await_of_not_clean (hc : s.clean b = false) : s.await b = ({ s with
    waiting := Function.update s.waiting b true
    sleeping := Function.update s.sleeping b true }, false) := by
  unfold State.await
  rw [hc]
  rfl

variable [Fintype B]

theorem append_eq (hc : Chain s.qnext s.idequeue q) (hb : b ∉ q) (hx : s.append b = .ok s') :
    ∃ qnext idequeue, Chain qnext idequeue (q ++ [b]) ∧ s' = { s with qnext, idequeue } := by
  have hc' : Chain (Function.update s.qnext b none) s.idequeue q := Seg.update hc hb none
  have hlen : q.length < Fintype.card B + 1 := Nat.lt_succ_of_le hc.nodup.length_le_card
  have hst := chain_store (s := { s with qnext := Function.update s.qnext b none }) hc' hc.nodup hb
    (Function.update_self ..)
  unfold State.append at hx
  dsimp only at hx
  rw [walk_eq hc' hlen] at hx
  cases hx
  refine ⟨_, _, hst, ?_⟩
  cases endCell (Cell.idequeue) q <;> rfl

theorem Queued.iderw_eq (hi : Queued s q) (hw : s.waiting b = false) (hx : s.iderw cfg b = .ok (s', o)) :
    ∃ qnext idequeue device, Chain qnext idequeue (q ++ [b]) ∧ s.clean b = false ∧
      (q = [] ∧ device = .busy (s.command cfg b) ∧ o = { started := some b } ∨
        q ≠ [] ∧ device = s.device ∧ o = {}) ∧
      s' = { s with
        qnext, idequeue, device
        waiting := Function.update s.waiting b true
        sleeping := Function.update s.sleeping b true } := by
  have hb : b ∉ q := fun hb => by
    rw [(hi.queued b hb).1] at hw
    cases hw
  unfold State.iderw at hx
  split at hx
  · cases hx
  rename_i hclean
  have hclean : s.clean b = false := by simpa using hclean
  split at hx
  · cases hx
  obtain ⟨s₁, hs₁, hx⟩ := bind_eq_ok.1 hx
  obtain ⟨⟨s₂, started⟩, hs₂, hx₂⟩ := bind_eq_ok.1 hx
  clear hx
  obtain ⟨qnext, idequeue, hchain, rfl⟩ := append_eq hi.chain hb hs₁
  have hhead : idequeue = some b ↔ q = [] := head_append (s := { s with qnext, idequeue }) hchain hb
  -- the flags are as they were, so that the caller goes to sleep
  have hclean₂ : s₂.clean b = false := by
    rcases start_eq hs₂ with ⟨-, -, rfl⟩ | ⟨-, -, rfl⟩ <;> exact hclean
  dsimp only at hx₂
  rw [await_of_not_clean hclean₂] at hx₂
  cases hx₂
  rcases start_eq hs₂ with ⟨hq, rfl, rfl⟩ | ⟨hq, rfl, rfl⟩
  · exact ⟨_, _, _, hchain, hclean, .inl ⟨hhead.1 hq, rfl, rfl⟩, rfl⟩
  · exact ⟨_, _, _, hchain, hclean, .inr ⟨fun h => hq (hhead.2 h), rfl, rfl⟩, rfl⟩

theorem Queued.iderw (hi : Queued s q) (hw : s.waiting b = false) (hx : s.iderw cfg b = .ok (s', o)) :
    Queued s' (q ++ [b]) ∧ o.completed = none ∧ o.returned = none ∧
      ∀ b', o.started = some b' → s.device.isBusy = false ∧ s'.idequeue = some b' := by
  obtain ⟨qnext, idequeue, device, hchain, hclean, hdev, rfl⟩ := hi.iderw_eq hw hx
  refine ⟨⟨hchain, ?_, fun c hc => ?_, fun c hc hcq => ?_⟩, ?_⟩
  · rcases hdev with ⟨rfl, rfl, -⟩ | ⟨hq, rfl, -⟩
    · rfl
    · rw [List.head?_append_of_ne_nil _ hq]
      exact hi.device
  · by_cases hcb : c = b
    · subst hcb
      exact ⟨Function.update_self .., hclean⟩
    · obtain ⟨hwait, hcl⟩ := hi.queued c (by simpa [hcb] using hc)
      exact ⟨(Function.update_of_ne hcb ..).trans hwait, hcl⟩
  · have hcb : c ≠ b := fun h => hcq (by simp [h])
    exact hi.done c ((Function.update_of_ne hcb ..).symm.trans hc) fun h => hcq (by simp [h])
  · rcases hdev with ⟨rfl, rfl, rfl⟩ | ⟨hq, rfl, rfl⟩
    · -- the queue was empty, and so the disk idle
      refine ⟨rfl, rfl, ?_⟩
      rintro _ ⟨⟩
      exact ⟨Device.not_isBusy_of_buf hi.device, hchain.1⟩
    · exact ⟨rfl, rfl, nofun⟩

/-! ### The runs -/

/-- What a step does with the queue `q`: the new queue, and what it shows. -/
structure Moves (s s' : State B D) (a : Act B D) (o : Out B) (q q' : List B) : Prop where
  queued : Queued s' q'
  fifo : q ++ a.request.toList = o.completed.toList ++ q'
  /-- An interrupt completes the request at the head. -/
  completes : a = .ideintr → o.completed = q.head?
  /-- `idestart` is called with the disk idle, for the head of the queue. -/
  starts : ∀ b, o.started = some b → s.device.isBusy = false ∧ s'.idequeue = some b
  /-- `iderw` returns when its request is not queued any more. -/
  returns : ∀ b, o.returned = some b → b ∉ q

theorem Queued.step (hi : Queued s q) {data : B → D} {disk : ℕ → ℕ → D}
    (hst : (ide cfg data disk).Step s (a, o) s') : ∃ q', Moves s s' a o q q' := by
  obtain ⟨hen, hx⟩ := hst
  cases a with
  | hold b valid dirty d =>
    have hw : s.waiting b = false := by simpa [ide, enabled] using hen
    cases hx
    refine ⟨q, hi.hold fun c hc => ?_, by simp [Act.request], nofun, nofun, nofun⟩
    have hcb : c ≠ b := by
      rintro rfl
      rw [hw] at hc
      cases hc
    exact ⟨Function.update_of_ne hcb .., Function.update_of_ne hcb ..⟩
  | iderw b =>
    have hw : s.waiting b = false := by simpa [ide, enabled] using hen
    have hx : s.iderw cfg b = .ok (s', o) := hx
    obtain ⟨hq, hc, hr, hs⟩ := hi.iderw hw hx
    exact ⟨q ++ [b], hq, by simp [Act.request, hc], nofun, hs, by simp [hr]⟩
  | resume b =>
    have hw : s.waiting b = true ∧ s.sleeping b = false := by simpa [ide, enabled] using hen
    obtain ⟨hq, hret⟩ := hi.await hw.1
    cases hx
    refine ⟨q, hq, by simp [Act.request], nofun, nofun, fun c hc => ?_⟩
    dsimp only at hc
    split at hc
    · rename_i hr
      cases hc
      exact hret hr
    · cases hc
  | kill b =>
    cases hx
    exact ⟨q, ⟨hi.chain, hi.device, hi.queued, hi.done⟩, by simp [Act.request], nofun, nofun, nofun⟩
  | finish err =>
    obtain ⟨s₁, hs₁, hx⟩ := bind_eq_ok.1 hx
    cases hx
    exact ⟨q, hi.finish hs₁, by simp [Act.request], nofun, nofun, nofun⟩
  | ideintr =>
    cases q with
    | nil =>
      obtain ⟨rfl, rfl⟩ := hi.ideintr_nil hx
      exact ⟨[], hi, rfl, fun _ => rfl, nofun, nofun⟩
    | cons b q =>
      have hx : s.ideintr cfg = .ok (s', o) := hx
      obtain ⟨hq, hc, hr, hs⟩ := hi.ideintr hx
      exact ⟨q, hq, by simp [Act.request, hc], fun _ => hc, hs, by simp [hr]⟩

/-- **The request queue.** After any run the queue is a list `q` without duplicates; the requests
that have been made are those that have been completed, followed by `q`, so that each is completed
once and in its turn; and the disk works for the head of `q`, and is idle when there is none. And in
any step from there, an interrupt completes the head of `q`, `idestart` is called only with no command
in progress and for the head of the queue, and `iderw(b)` returns only with every request for `b`
completed. -/
theorem ide_queue_discipline {data : B → D} {disk : ℕ → ℕ → D} (hr : (ide cfg data disk).Runs h s) :
    ∃ q, Chain s.qnext s.idequeue q ∧ q.Nodup ∧ arrivals h = completions h ++ q ∧
      s.device.buf = q.head? ∧
      ∀ a o s', (ide cfg data disk).Step s (a, o) s' →
        (a = .ideintr → o.completed = q.head?) ∧
        (∀ b, o.started = some b → s.device.isBusy = false ∧ s'.idequeue = some b) ∧
        ∀ b, o.returned = some b → b ∉ q ∧ (completions h).count b = (arrivals h).count b := by
  have hinit : Queued (ide cfg data disk).init [] := ⟨rfl, rfl, nofun, nofun⟩
  obtain ⟨q, hq, hfifo⟩ : ∃ q, Queued s q ∧ arrivals h = completions h ++ q :=
    hr.invariant (P := fun h s => ∃ q, Queued s q ∧ arrivals h = completions h ++ q)
      ⟨[], hinit, rfl⟩ fun _ ⟨q, hq, hfifo⟩ hst => by
        obtain ⟨q', hm⟩ := hq.step hst
        refine ⟨q', hm.queued, ?_⟩
        rw [arrivals_cons, completions_cons, hfifo, List.append_assoc, hm.fifo, List.append_assoc]
  refine ⟨q, hq.chain, hq.chain.nodup, hfifo, hq.device, fun a o s' hst => ?_⟩
  obtain ⟨q', hm⟩ := hq.step hst
  refine ⟨hm.completes, hm.starts, fun b hb => ⟨hm.returns b hb, ?_⟩⟩
  rw [hfifo, List.count_append, List.count_eq_zero_of_not_mem (hm.returns b hb), Nat.add_zero]

/-- Two reads, of which the first is completed. -/
theorem ide_queue_discipline_two_reads :
    ∃ h, ∃ s : State Bool Unit,
      (ide ⟨fun _ => 1, fun b => if b then 7 else 8, true⟩ (fun _ => ()) fun _ _ => ()).Runs h s ∧
      completions h = [true] ∧ ∃ q, Chain s.qnext s.idequeue q ∧ [true, false] = [true] ++ q := by
  obtain ⟨s, hr, -⟩ :=
    (ide ⟨fun _ => 1, fun b => if b then 7 else 8, true⟩ (fun _ => ()) fun _ _ => ()).exists_runs
      [(.iderw true, { started := some true }), (.iderw false, {}), (.finish false, {}),
        (.ideintr, { started := some false, completed := some true }),
        (.resume true, { returned := some true })] (fun _ => true) (by decide +kernel)
  obtain ⟨q, hc, -, hfifo, -⟩ := ide_queue_discipline hr
  exact ⟨_, s, hr, rfl, q, hc, hfifo⟩

end Xv6.Ide
