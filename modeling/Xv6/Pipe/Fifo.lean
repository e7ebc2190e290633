import Xv6.Pipe.Code

/-!
# A pipe is a queue

What the readers have got and what the buffer holds is, in this order, what the writers have put in,
and of each call of `pipewrite` it is a beginning of the argument. The counters may wrap: all that
matters is their difference, which stays within the size of the buffer.
-/

namespace Xv6.Pipe

open Lib

variable {P : Type}

/-! ### Reading the history -/

/-- The byte that an event takes from a writer. -/
def Out.accepted : Out → Option Byte
  | .accept b => some b
  | _ => none

/-- The byte that an event hands to a reader. -/
def Out.delivered : Out → Option Byte
  | .deliver b => some b
  | _ => none

/-- The bytes taken from writers, in their order. -/
def accepted (h : List (Act P × Out)) : List Byte := h.reverse.filterMap fun e => e.2.accepted

/-- The bytes handed to readers, in their order. -/
def delivered (h : List (Act P × Out)) : List Byte := h.reverse.filterMap fun e => e.2.delivered

def Act.isNext [DecidableEq P] (p : P) : Act P → Bool
  | .next q => q = p
  | _ => false

def acceptedBy [DecidableEq P] (p : P) (h : List (Act P × Out)) : List Byte :=
  accepted (h.filter fun e => e.1.isNext p)

/-- A call of `pipewrite`: its argument, the bytes that have been taken, and its result. -/
structure WriteCall where
  src : List Byte
  taken : List Byte
  result : Option ℤ

/-- What an instruction adds to the last call. -/
def WriteCall.after (o : Out) (c : WriteCall) : WriteCall :=
  match o with
  | .accept b => { c with taken := c.taken ++ [b] }
  | .ret r => { c with result := c.result.or (some r) }
  | _ => c

/-- The calls of `pipewrite` by the process `p`, the last one first. -/
def calls [DecidableEq P] (p : P) : List (Act P × Out) → List WriteCall
  | [] => []
  | (.pipewrite q src, _) :: h => if q = p then ⟨src, [], none⟩ :: calls p h else calls p h
  | (.next q, o) :: h => if q = p then (calls p h).modifyHead (·.after o) else calls p h
  | _ :: h => calls p h

def State.buffered (s : State P) : List Byte := window s.data s.nread s.nwrite

theorem accepted_cons (e : Act P × Out) (h : List (Act P × Out)) :
    accepted (e :: h) = accepted h ++ e.2.accepted.toList := by
  unfold accepted
  rw [List.reverse_cons, List.filterMap_append]
  cases he : e.2.accepted <;> simp [he]

theorem delivered_cons (e : Act P × Out) (h : List (Act P × Out)) :
    delivered (e :: h) = delivered h ++ e.2.delivered.toList := by
  unfold delivered
  rw [List.reverse_cons, List.filterMap_append]
  cases he : e.2.delivered <;> simp [he]

theorem not_isFull {s : State P} (hf : s.isFull = false) (hle : (s.nwrite - s.nread).toNat ≤ PIPESIZE) :
    (s.nwrite - s.nread).toNat < PIPESIZE := by
  refine lt_of_le_of_ne hle fun he => ?_
  rw [s.isFull_iff.2 he] at hf
  cases hf

/-! ### The buffer -/

variable {s s' : State P} {p : P} {a : Act P} {o : Out} {h : List (Act P × Out)}

/-- The invariant of the buffer. -/
structure Fifo (h : List (Act P × Out)) (s : State P) : Prop where
  bound : (s.nwrite - s.nread).toNat ≤ PIPESIZE
  queue : delivered h ++ s.buffered = accepted h

theorem Fifo.same (hf : Fifo h s) (hd : s'.data = s.data) (hr : s'.nread = s.nread)
    (hw : s'.nwrite = s.nwrite) (ha : o.accepted = none) (ho : o.delivered = none) :
    Fifo ((a, o) :: h) s' := by
  refine ⟨by rw [hr, hw]; exact hf.bound, ?_⟩
  rw [accepted_cons, delivered_cons, ha, ho, State.buffered, hd, hr, hw, Option.toList_none,
    List.append_nil, List.append_nil]
  exact hf.queue

variable [DecidableEq P]

theorem Fifo.put (hf : Fifo h s) (hfull : s.isFull = false) (b : Byte) (x : Pc P) :
    Fifo ((a, .accept b) :: h) ((s.put b).goto p x) := by
  have hlt := not_isFull hfull hf.bound
  have hlen : (s.nwrite + 1 - s.nread).toNat = (s.nwrite - s.nread).toNat + 1 :=
    toNat_succ_sub (by unfold PIPESIZE at hlt; omega)
  have hbuf : ((s.put b).goto p x).buffered = s.buffered ++ [b] :=
    window_push (by decide) (by decide) b hlt
  refine ⟨hlen.trans_le hlt, ?_⟩
  rw [accepted_cons, delivered_cons, hbuf, ← hf.queue]
  simp [Out.accepted, Out.delivered]

theorem Fifo.get (hf : Fifo h s) (he : s.isEmpty = false) (x : Pc P) :
    Fifo ((a, .deliver s.get.2) :: h) (s.get.1.goto p x) := by
  have hne : s.nread ≠ s.nwrite := by simpa [State.isEmpty] using he
  have hlen := toNat_sub_succ hne
  have hbuf : s.buffered = s.get.2 :: (s.get.1.goto p x).buffered := window_pop hne s.data
  have hb := hf.bound
  refine ⟨?_, ?_⟩
  · show (s.nwrite - (s.nread + 1)).toNat ≤ PIPESIZE
    omega
  · rw [accepted_cons, delivered_cons, ← hf.queue, hbuf]
    simp [Out.accepted, Out.delivered]

theorem Fifo.step (hf : Fifo h s) (hx : exec s a = .ok (s', o)) : Fifo ((a, o) :: h) s' := by
  cases a with
  | next p =>
    cases next_of_exec hx with
    | put hp hb hfull => exact hf.put hfull _ _
    | get hp he => exact hf.get he _
    | _ => exact hf.same rfl rfl rfl rfl rfl
  | _ =>
    cases hx
    exact hf.same rfl rfl rfl rfl rfl

/-! ### The calls -/

/-- The call of `pipewrite` that is in progress: its argument, and how many bytes it has put in. -/
def Body.writing : Body → Option (List Byte × ℕ)
  | .write src i | .full src i => some (src, i)
  | .written src => some (src, src.length)
  | _ => none

def Pc.writing : Pc P → Option (List Byte × ℕ)
  | .acquire b | .body b | .wakeup _ b | .wakeup1 _ b | .sleep _ b | .sched _ b | .asleep b => b.writing
  | _ => none

/-- A call that has returned. -/
structure WriteCall.Over (c : WriteCall) : Prop where
  taken : c.taken <+: c.src
  result : ∃ r, c.result = some r ∧ (r = -1 ∨ r = c.src.length ∧ c.taken = c.src)

/-- The calls of a process, of which the last one is in progress if `x` says so. -/
def CallsOk (cs : List WriteCall) : Option (List Byte × ℕ) → Prop
  | none => ∀ c ∈ cs, c.Over
  | some (src, i) => i ≤ src.length ∧ ∃ rest, cs = ⟨src, src.take i, none⟩ :: rest ∧ ∀ c ∈ rest, c.Over

/-- What an instruction of a process does to the call of `pipewrite` that it is in. -/
inductive Progress : Option (List Byte × ℕ) → Out → Option (List Byte × ℕ) → Prop
  | idle {o : Out} (ho : o.accepted = none) : Progress none o none
  | stay (w : List Byte × ℕ) : Progress (some w) .done (some w)
  | accept {src : List Byte} {i : ℕ} {b : Byte} (hb : src[i]? = some b) :
      Progress (some (src, i)) (.accept b) (some (src, i + 1))
  | finish {src : List Byte} {i : ℕ} (hb : src[i]? = none) :
      Progress (some (src, i)) .done (some (src, src.length))
  | fail (src : List Byte) (i : ℕ) : Progress (some (src, i)) (.ret (-1)) none
  | ret (src : List Byte) : Progress (some (src, src.length)) (.ret src.length) none

theorem Progress.done (w : Option (List Byte × ℕ)) : Progress w .done w := by
  cases w with
  | none => exact .idle rfl
  | some w => exact .stay w

theorem Next.progress (hn : Next s p s' o) : Progress (s.pc p).writing o (s'.pc p).writing := by
  cases hn with
  | giveUp hp hi =>
    rw [hp, pc_leave]
    exact .fail _ _
  | put hp hb =>
    rw [hp, pc_goto]
    exact .accept hb
  | finish hp hi =>
    rw [hp, pc_goto]
    exact .finish (List.getElem?_eq_none_iff.2 hi)
  | written hp =>
    rw [hp, pc_leave]
    exact .ret _
  | refuse hp | read hp | closed hp =>
    rw [hp, pc_leave]
    exact .idle rfl
  | strike hp | get hp he =>
    rw [hp, pc_goto]
    exact .idle rfl
  | acquire hp | block hp | full hp | wait hp | found hp | copied hp | closeWrite hp | closeRead hp
  | wakeup hp | wakeup1 hp | sleep hp | sched hp | asleep hp | kill hp =>
    rw [hp, pc_goto]
    exact .done _

/-- What is taken from the calls, in its order. -/
def taken (cs : List WriteCall) : List Byte := (cs.map (·.taken)).reverse.flatten

/-- An instruction leaves a call that is over, unless it takes a byte. -/
theorem WriteCall.Over.after {c : WriteCall} (hc : c.Over) (ho : o.accepted = none) :
    c.after o = c := by
  obtain ⟨r, hr, -⟩ := hc.result
  cases o with
  | accept b => cases ho
  | ret r' =>
    have hres : c.result.or (some r') = c.result := by rw [hr, Option.some_or]
    simp only [WriteCall.after, hres]
  | done | deliver b => rfl

/-- The calls after an instruction, and the bytes that they have taken. -/
theorem CallsOk.progress {cs : List WriteCall} {w w' : Option (List Byte × ℕ)} (hc : CallsOk cs w)
    (hp : Progress w o w') :
    CallsOk (cs.modifyHead (·.after o)) w' ∧
      taken (cs.modifyHead (·.after o)) = taken cs ++ o.accepted.toList := by
  cases hp with
  | idle ho =>
    -- Every call is over, the first one too.
    have hsame : cs.modifyHead (·.after o) = cs := by
      cases cs with
      | nil => rfl
      | cons c cs => exact congrArg (· :: cs) ((hc c List.mem_cons_self).after ho)
    rw [hsame, ho, Option.toList_none, List.append_nil]
    exact ⟨hc, rfl⟩
  | stay w =>
    obtain ⟨hi, rest, rfl, hrest⟩ := hc
    exact ⟨⟨hi, rest, rfl, hrest⟩, (List.append_nil _).symm⟩
  | @accept src i b hb =>
    obtain ⟨hi, rest, rfl, hrest⟩ := hc
    have hlt : i < src.length := (List.getElem?_eq_some_iff.1 hb).1
    have htake : src.take (i + 1) = src.take i ++ [b] := by
      rw [List.take_add_one, hb, Option.toList_some]
    refine ⟨⟨hlt, rest, ?_, hrest⟩, ?_⟩
    · rw [htake]
      rfl
    · simp [taken, WriteCall.after, Out.accepted]
  | @finish src i hb =>
    obtain ⟨hi, rest, rfl, hrest⟩ := hc
    obtain rfl : i = src.length := le_antisymm hi (List.getElem?_eq_none_iff.1 hb)
    exact ⟨⟨le_rfl, rest, rfl, hrest⟩, (List.append_nil _).symm⟩
  | fail src i =>
    obtain ⟨hi, rest, rfl, hrest⟩ := hc
    have hover : WriteCall.Over ⟨src, src.take i, some (-1)⟩ :=
      ⟨List.take_prefix i src, -1, rfl, .inl rfl⟩
    exact ⟨List.forall_mem_cons.2 ⟨hover, hrest⟩, (List.append_nil _).symm⟩
  | ret src =>
    obtain ⟨hi, rest, rfl, hrest⟩ := hc
    have hover : WriteCall.Over ⟨src, src.take src.length, some src.length⟩ :=
      ⟨List.take_prefix _ src, _, rfl, .inr ⟨rfl, List.take_length⟩⟩
    exact ⟨List.forall_mem_cons.2 ⟨hover, hrest⟩, (List.append_nil _).symm⟩

theorem CallsOk.taken_src {cs : List WriteCall} {w : Option (List Byte × ℕ)} (hc : CallsOk cs w) :
    ∀ c ∈ cs, c.taken <+: c.src ∧ ∀ r, c.result = some r → r = -1 ∨ r = c.src.length ∧ c.taken = c.src := by
  have hover : ∀ c : WriteCall, c.Over → c.taken <+: c.src ∧
      ∀ r, c.result = some r → r = -1 ∨ r = c.src.length ∧ c.taken = c.src := by
    intro c hc
    obtain ⟨r, hr, hres⟩ := hc.result
    refine ⟨hc.taken, fun r' hr' => ?_⟩
    obtain rfl : r = r' := Option.some.inj (hr.symm.trans hr')
    exact hres
  cases w with
  | none => exact fun c hcs => hover c (hc c hcs)
  | some w =>
    obtain ⟨-, rest, rfl, hrest⟩ := hc
    refine List.forall_mem_cons.2 ⟨⟨List.take_prefix .., fun r hr => ?_⟩, fun c hcs => hover c (hrest c hcs)⟩
    cases hr

/-- The calls of the process `p` after a run. -/
structure Calls (p : P) (h : List (Act P × Out)) (s : State P) : Prop where
  ok : CallsOk (calls p h) (s.pc p).writing
  all : acceptedBy p h = taken (calls p h)

theorem acceptedBy_cons (p : P) (a : Act P) (o : Out) (h : List (Act P × Out)) :
    acceptedBy p ((a, o) :: h) =
      acceptedBy p h ++ if a.isNext p then o.accepted.toList else [] := by
  unfold acceptedBy
  rw [List.filter_cons]
  split
  · rw [accepted_cons]
  · rw [List.append_nil]

theorem Calls.next {q : P} (hc : Calls p h s) (hn : Next s q s' o) : Calls p ((.next q, o) :: h) s' := by
  by_cases hq : q = p
  · subst hq
    obtain ⟨hok, htaken⟩ := hc.ok.progress hn.progress
    have hcalls : calls q ((.next q, o) :: h) = (calls q h).modifyHead (·.after o) := if_pos rfl
    refine ⟨hcalls ▸ hok, ?_⟩
    rw [acceptedBy_cons, hcalls, htaken, if_pos (by simp [Act.isNext]), hc.all]
  · have hcalls : calls p ((.next q, o) :: h) = calls p h := if_neg hq
    refine ⟨?_, ?_⟩
    · rw [hcalls, hn.pc_of_ne (Ne.symm hq)]
      exact hc.ok
    · rw [acceptedBy_cons, hcalls, if_neg (by simp [Act.isNext, hq]), List.append_nil, hc.all]

theorem Calls.call {q : P} {x : Pc P} (hc : Calls p h s) (hq : s.pc q = .out) (hx : x.writing = none)
    (ha : a.isNext p = false) (hcalls : calls p ((a, o) :: h) = calls p h) :
    Calls p ((a, o) :: h) (s.goto q x) := by
  refine ⟨?_, ?_⟩
  · have hw : ((s.goto q x).pc p).writing = (s.pc p).writing := by
      by_cases hpq : p = q
      · rw [hpq, pc_goto, hq, hx]
        rfl
      · rw [pc_goto_of_ne hpq]
    rw [hcalls, hw]
    exact hc.ok
  · rw [acceptedBy_cons, hcalls, ha, hc.all]
    simp

theorem Calls.write {q : P} (hc : Calls p h s) (hq : s.pc q = .out) (src : List Byte) :
    Calls p ((.pipewrite q src, o) :: h) (s.goto q (.acquire (.write src 0))) := by
  by_cases hpq : q = p
  · subst hpq
    have hcalls : calls q ((.pipewrite q src, o) :: h) = ⟨src, [], none⟩ :: calls q h := if_pos rfl
    have hok := hc.ok
    rw [hq] at hok
    refine ⟨?_, ?_⟩
    · rw [hcalls, pc_goto]
      exact ⟨Nat.zero_le _, _, rfl, hok⟩
    · rw [acceptedBy_cons, hcalls, if_neg (by simp [Act.isNext]), hc.all]
      simp [taken]
  · have hcalls : calls p ((.pipewrite q src, o) :: h) = calls p h := if_neg hpq
    refine ⟨?_, ?_⟩
    · rw [hcalls, pc_goto_of_ne (Ne.symm hpq)]
      exact hc.ok
    · rw [acceptedBy_cons, hcalls, if_neg (by simp [Act.isNext]), List.append_nil, hc.all]

theorem Calls.step (hc : Calls p h s) (ha : (pipe P).Step s (a, o) s') : Calls p ((a, o) :: h) s' := by
  obtain ⟨hen, hx⟩ := ha
  cases a with
  | next q => exact hc.next (next_of_exec hx)
  | pipewrite q src =>
    have hq : s.pc q = .out ∧ s.freed = false := by simpa [pipe, enabled] using hen
    cases hx
    exact hc.write hq.1 src
  | piperead q n =>
    have hq : s.pc q = .out ∧ s.freed = false := by simpa [pipe, enabled] using hen
    cases hx
    exact hc.call hq.1 rfl rfl rfl
  | pipeclose q writable =>
    have hq : s.pc q = .out ∧ s.freed = false := by simpa [pipe, enabled] using hen
    cases hx
    exact hc.call hq.1 rfl rfl rfl
  | kill q r =>
    have hq : s.pc q = .out := by simpa [pipe, enabled] using hen
    cases hx
    exact hc.call hq rfl rfl rfl

/-! ### The queue -/

/-- **A pipe is a queue that loses nothing.** After any run the buffer holds at most `PIPESIZE`
bytes; what the readers have got, followed by what the buffer holds, is what has been taken from the
writers; and from each writer that is, call after call, a beginning of the argument, and all of it
when the call has returned its length. -/
theorem pipe_lossless_fifo (hr : (pipe P).Runs h s) :
    (s.nwrite - s.nread).toNat ≤ PIPESIZE ∧ delivered h ++ s.buffered = accepted h ∧
      ∀ p, acceptedBy p h = taken (calls p h) ∧ ∀ c ∈ calls p h, c.taken <+: c.src ∧
        ∀ r, c.result = some r → r = -1 ∨ r = c.src.length ∧ c.taken = c.src := by
  have hinit : Fifo [] (pipe P).init := ⟨by simp [pipe], window_self ..⟩
  have hf : Fifo h s := hr.invariant (P := Fifo) hinit fun _ hf hst => hf.step hst.2
  refine ⟨hf.bound, hf.queue, fun p => ?_⟩
  have hc : Calls p h s :=
    hr.invariant (P := Calls p) ⟨fun c hc => absurd hc List.not_mem_nil, rfl⟩ fun _ hc hst => hc.step hst
  exact ⟨hc.all, hc.ok.taken_src⟩

/-- A write of two bytes, of which a reader has got the first. -/
theorem pipe_lossless_fifo_first_of_two :
    ∃ h, ∃ s : State Bool, (pipe Bool).Runs h s ∧ delivered h = [7] ∧ [7] ++ s.buffered = [7, 8] := by
  obtain ⟨s, hr, -⟩ := (pipe Bool).exists_runs
    [(.pipewrite true [7, 8], .done), (.next true, .done), (.next true, .accept 7),
      (.next true, .accept 8), (.next true, .done), (.next true, .done), (.next true, .done),
      (.next true, .ret 2), (.piperead false 1, .done), (.next false, .done), (.next false, .done),
      (.next false, .deliver 7)] (fun _ => true) (by decide +kernel)
  exact ⟨_, s, hr, rfl, (pipe_lossless_fifo hr).2.1⟩

end Xv6.Pipe
