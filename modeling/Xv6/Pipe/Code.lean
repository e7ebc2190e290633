import Xv6.Basic
import Xv6.Lib.Machine
import Xv6.Lib.Ring
import Xv6.Lib.Bytes

/-!
# `pipe.c`

One pipe, and any number of processes that write to it, read from it, close its ends and kill each
other. A call runs from one point where a lock changes hands to the next: `p->lock` is held in the
body of a call, and `ptable.lock` where a process goes to sleep, wakes others or kills, so that
everything that can happen between two instructions of a call under these locks is a step of its own.

The scheduler is left out: a process that has gone to sleep gives `ptable.lock` up with it, and one
that has been woken takes it to come back.
-/

namespace Xv6.Pipe

open Lib

abbrev PIPESIZE : ℕ := 512

/-- The two addresses that processes sleep on. -/
inductive Chan
  | nread | nwrite
  deriving DecidableEq

/-- What is left of a call that holds `p->lock`. -/
inductive Body
  /-- `pipewrite` of `src`, before the test for the byte `i`. -/
  | write (src : List Byte) (i : ℕ)
  /-- `pipewrite`: `sleep(&p->nwrite, &p->lock)`. -/
  | full (src : List Byte) (i : ℕ)
  /-- `pipewrite`: `release`, and return `n`. -/
  | written (src : List Byte)
  /-- `piperead` of `n` bytes: the loop that waits for a byte. -/
  | wait (n : ℕ)
  /-- `piperead`: the loop that copies; `i` bytes are copied. -/
  | copy (n i : ℕ)
  /-- `piperead`: `release`, and return `i`. -/
  | copied (i : ℕ)
  /-- `pipeclose`. -/
  | close (writable : Bool)
  /-- `pipeclose`: `release`, and `kfree` if both ends are closed. -/
  | closed
  deriving DecidableEq

/-- What a process does next. -/
inductive Pc (P : Type)
  /-- Nothing with the pipe. -/
  | out
  /-- `acquire(&p->lock)`. -/
  | acquire (b : Body)
  /-- In a call, with `p->lock`. -/
  | body (b : Body)
  /-- `wakeup`: `acquire(&ptable.lock)`; the call goes on with `b`. -/
  | wakeup (ch : Chan) (b : Body)
  /-- `wakeup`: `wakeup1`, and `release(&ptable.lock)`. -/
  | wakeup1 (ch : Chan) (b : Body)
  /-- `sleep`: `acquire(&ptable.lock)`, and `release(&p->lock)`. -/
  | sleep (ch : Chan) (b : Body)
  /-- `sleep`: `p->state = SLEEPING`, and `sched`. -/
  | sched (ch : Chan) (b : Body)
  /-- Switched away in `sleep`. -/
  | asleep (b : Body)
  /-- `kill`: `acquire(&ptable.lock)`. -/
  | kill (q : P)
  /-- `kill`, with the lock held. -/
  | strike (q : P)
  deriving DecidableEq

/-- `struct pipe`, the processes, and `ptable.lock`. -/
structure State (P : Type) where
  data : Fin PIPESIZE → Byte := fun _ => 0
  nread : Word := 0
  nwrite : Word := 0
  readopen : Bool := true
  writeopen : Bool := true
  /-- The page has been given back. -/
  freed : Bool := false
  /-- `p->lock`. -/
  lock : Option P := none
  /-- `ptable.lock`. -/
  ptable : Option P := none
  pc : P → Pc P := fun _ => .out
  /-- The process is `SLEEPING`, on the given address. -/
  sleeping : P → Option Chan := fun _ => none
  killed : P → Bool := fun _ => false
  /-- The process that has `p->lock` has put bytes in the buffer since it last woke the readers. -/
  fresh : Bool := false

inductive Act (P : Type)
  | pipewrite (p : P) (src : List Byte)
  | piperead (p : P) (n : ℕ)
  | pipeclose (p : P) (writable : Bool)
  | kill (p q : P)
  | next (p : P)

inductive Out
  | done
  /-- A byte has been taken from the argument of `pipewrite`. -/
  | accept (b : Byte)
  /-- A byte has been stored in the buffer of `piperead`. -/
  | deliver (b : Byte)
  /-- The call returns. -/
  | ret (r : ℤ)
  deriving DecidableEq

namespace State

variable {P : Type} [DecidableEq P]

def goto (s : State P) (p : P) (x : Pc P) : State P := { s with pc := Function.update s.pc p x }

/-- `release(&p->lock)`, and return. -/
def leave (s : State P) (p : P) (r : ℤ) : State P × Out :=
  ({ s with lock := none, fresh := false }.goto p .out, .ret r)

/-- `p->nwrite == p->nread + PIPESIZE`. -/
def isFull (s : State P) : Bool := s.nwrite = s.nread + .ofNat 32 PIPESIZE

/-- `p->nread == p->nwrite`. -/
def isEmpty (s : State P) : Bool := s.nread = s.nwrite

/-- `p->data[p->nwrite++ % PIPESIZE] = b`. -/
def put (s : State P) (b : Byte) : State P :=
  { s with
    data := Function.update s.data (cell PIPESIZE s.nwrite) b
    nwrite := s.nwrite + 1
    fresh := true }

/-- `p->data[p->nread++ % PIPESIZE]`. -/
def get (s : State P) : State P × Byte :=
  ({ s with nread := s.nread + 1 }, s.data (cell PIPESIZE s.nread))

/-- The next instruction in the body of a call. -/
def body (s : State P) (p : P) : Body → State P × Out
  | .write src i =>
    match src[i]? with
    | some b =>
      if s.isFull then
        if s.readopen = false ∨ s.killed p then s.leave p (-1)
        else (s.goto p (.wakeup .nread (.full src i)), .done)
      else ((s.put b).goto p (.body (.write src (i + 1))), .accept b)
    | none => (s.goto p (.wakeup .nread (.written src)), .done)
  | .full src i => (s.goto p (.sleep .nwrite (.write src i)), .done)
  | .written src => s.leave p src.length
  | .wait n =>
    if s.isEmpty ∧ s.writeopen then
      if s.killed p then s.leave p (-1) else (s.goto p (.sleep .nread (.wait n)), .done)
    else (s.goto p (.body (.copy n 0)), .done)
  | .copy n i =>
    if i < n ∧ ¬ s.isEmpty then
      let (s, b) := s.get
      (s.goto p (.body (.copy n (i + 1))), .deliver b)
    else (s.goto p (.wakeup .nwrite (.copied i)), .done)
  | .copied i => s.leave p i
  | .close true => ({ s with writeopen := false }.goto p (.wakeup .nread .closed), .done)
  | .close false => ({ s with readopen := false }.goto p (.wakeup .nwrite .closed), .done)
  | .closed =>
    { s with freed := s.freed || !s.readopen && !s.writeopen }.leave p 0

/-- `wakeup1`. -/
def wake (s : State P) (ch : Chan) : State P :=
  { s with
    sleeping := fun q => if s.sleeping q = some ch then none else s.sleeping q
    fresh := s.fresh && ch ≠ .nread }

/-- The next instruction of the process `p`. -/
def next (s : State P) (p : P) : Except Fault (State P × Out) :=
  match s.pc p with
  | .out => .error .null
  | .acquire b => .ok ({ s with lock := some p }.goto p (.body b), .done)
  | .body b => .ok (s.body p b)
  | .wakeup ch b => .ok ({ s with ptable := some p }.goto p (.wakeup1 ch b), .done)
  | .wakeup1 ch b => .ok ({ s.wake ch with ptable := none }.goto p (.body b), .done)
  | .sleep ch b =>
    .ok ({ s with ptable := some p, lock := none, fresh := false }.goto p (.sched ch b), .done)
  | .sched ch b =>
    .ok ({ s with
      ptable := none
      sleeping := Function.update s.sleeping p (some ch) }.goto p (.asleep b), .done)
  | .asleep b => .ok (s.goto p (.acquire b), .done)
  | .kill q => .ok ({ s with ptable := some p }.goto p (.strike q), .done)
  | .strike q =>
    .ok ({ s with
      ptable := none
      killed := Function.update s.killed q true
      sleeping := Function.update s.sleeping q none }.goto p .out, .ret 0)

/-- The process can run its next instruction: the lock that it spins for is free, and it is not
asleep. -/
def ready (s : State P) (p : P) : Bool :=
  match s.pc p with
  | .out => false
  | .acquire _ => s.lock = none
  | .body _ | .wakeup1 _ _ | .sched _ _ | .strike _ => true
  | .wakeup _ _ | .sleep _ _ | .kill _ => s.ptable = none
  | .asleep _ => s.ptable = none && s.sleeping p = none

end State

theorem State.isFull_iff {P : Type} (s : State P) :
    s.isFull = true ↔ (s.nwrite - s.nread).toNat = PIPESIZE := by
  simp only [State.isFull, decide_eq_true_eq]
  constructor
  · intro h
    rw [h, BitVec.add_comm, BitVec.add_sub_cancel]
    rfl
  · intro h
    rw [← h, add_ofNat_sub]

variable {P : Type} [DecidableEq P]

/-- The step can be taken: a call is made by a process that is in none, on a pipe that is there. -/
def enabled (s : State P) : Act P → Bool
  | .pipewrite p _ | .piperead p _ | .pipeclose p _ => s.pc p = .out && !s.freed
  | .kill p _ => s.pc p = .out
  | .next p => s.ready p

def exec (s : State P) : Act P → Except Fault (State P × Out)
  | .pipewrite p src => .ok (s.goto p (.acquire (.write src 0)), .done)
  | .piperead p n => .ok (s.goto p (.acquire (.wait n)), .done)
  | .pipeclose p writable => .ok (s.goto p (.acquire (.close writable)), .done)
  | .kill p q => .ok (s.goto p (.kill q), .done)
  | .next p => s.next p

/-- **A pipe** as `pipealloc` makes it, in the hands of the processes `P`. -/
def pipe (P : Type) [DecidableEq P] : Machine (State P) (Act P) Out Fault := ⟨{}, enabled, exec⟩

/-! ### What an instruction can do -/

variable {s s' : State P} {p q : P} {o : Out}

/-- **The instructions of a process**: where it is, what it has found, and what it does. -/
inductive Next (s : State P) (p : P) : State P → Out → Prop
  | acquire {b : Body} (hp : s.pc p = .acquire b) :
      Next s p ({ s with lock := some p }.goto p (.body b)) .done
  | giveUp {src : List Byte} {i : ℕ} (hp : s.pc p = .body (.write src i)) (hi : i < src.length)
      (hf : s.isFull) (hk : s.readopen = false ∨ s.killed p) : Next s p (s.leave p (-1)).1 (.ret (-1))
  | block {src : List Byte} {i : ℕ} (hp : s.pc p = .body (.write src i)) (hf : s.isFull)
      (hk : s.readopen) : Next s p (s.goto p (.wakeup .nread (.full src i))) .done
  | put {src : List Byte} {i : ℕ} {b : Byte} (hp : s.pc p = .body (.write src i))
      (hb : src[i]? = some b) (hf : s.isFull = false) :
      Next s p ((s.put b).goto p (.body (.write src (i + 1)))) (.accept b)
  | finish {src : List Byte} {i : ℕ} (hp : s.pc p = .body (.write src i)) (hi : src.length ≤ i) :
      Next s p (s.goto p (.wakeup .nread (.written src))) .done
  | full {src : List Byte} {i : ℕ} (hp : s.pc p = .body (.full src i)) :
      Next s p (s.goto p (.sleep .nwrite (.write src i))) .done
  | written {src : List Byte} (hp : s.pc p = .body (.written src)) :
      Next s p (s.leave p src.length).1 (.ret src.length)
  | refuse {n : ℕ} (hp : s.pc p = .body (.wait n)) : Next s p (s.leave p (-1)).1 (.ret (-1))
  | wait {n : ℕ} (hp : s.pc p = .body (.wait n)) (he : s.isEmpty) (hw : s.writeopen) :
      Next s p (s.goto p (.sleep .nread (.wait n))) .done
  | found {n : ℕ} (hp : s.pc p = .body (.wait n)) : Next s p (s.goto p (.body (.copy n 0))) .done
  | get {n i : ℕ} (hp : s.pc p = .body (.copy n i)) (he : s.isEmpty = false) :
      Next s p (s.get.1.goto p (.body (.copy n (i + 1)))) (.deliver s.get.2)
  | copied {n i : ℕ} (hp : s.pc p = .body (.copy n i)) :
      Next s p (s.goto p (.wakeup .nwrite (.copied i))) .done
  | read {i : ℕ} (hp : s.pc p = .body (.copied i)) : Next s p (s.leave p i).1 (.ret i)
  | closeWrite (hp : s.pc p = .body (.close true)) :
      Next s p ({ s with writeopen := false }.goto p (.wakeup .nread .closed)) .done
  | closeRead (hp : s.pc p = .body (.close false)) :
      Next s p ({ s with readopen := false }.goto p (.wakeup .nwrite .closed)) .done
  | closed (hp : s.pc p = .body .closed) :
      Next s p ({ s with freed := s.freed || !s.readopen && !s.writeopen }.leave p 0).1 (.ret 0)
  | wakeup {ch : Chan} {b : Body} (hp : s.pc p = .wakeup ch b) :
      Next s p ({ s with ptable := some p }.goto p (.wakeup1 ch b)) .done
  | wakeup1 {ch : Chan} {b : Body} (hp : s.pc p = .wakeup1 ch b) :
      Next s p ({ s.wake ch with ptable := none }.goto p (.body b)) .done
  | sleep {ch : Chan} {b : Body} (hp : s.pc p = .sleep ch b) :
      Next s p ({ s with ptable := some p, lock := none, fresh := false }.goto p (.sched ch b)) .done
  | sched {ch : Chan} {b : Body} (hp : s.pc p = .sched ch b) :
      Next s p ({ s with
        ptable := none
        sleeping := Function.update s.sleeping p (some ch) }.goto p (.asleep b)) .done
  | asleep {b : Body} (hp : s.pc p = .asleep b) : Next s p (s.goto p (.acquire b)) .done
  | kill {q : P} (hp : s.pc p = .kill q) :
      Next s p ({ s with ptable := some p }.goto p (.strike q)) .done
  | strike {q : P} (hp : s.pc p = .strike q) :
      Next s p ({ s with
        ptable := none
        killed := Function.update s.killed q true
        sleeping := Function.update s.sleeping q none }.goto p .out) (.ret 0)

theorem next_of_body {b : Body} (hp : s.pc p = .body b) : Next s p (s.body p b).1 (s.body p b).2 := by
  cases b with
  | write src i =>
    unfold State.body
    dsimp only
    split
    · rename_i b hb
      have hi : i < src.length := (List.getElem?_eq_some_iff.1 hb).1
      split
      · rename_i hf
        split
        · rename_i hk
          exact .giveUp hp hi hf hk
        · rename_i hk
          exact .block hp hf (by simpa using fun h => hk (.inl h))
      · rename_i hf
        exact .put hp hb (by simpa using hf)
    · rename_i hb
      exact .finish hp (List.getElem?_eq_none_iff.1 hb)
  | full src i => exact .full hp
  | written src => exact .written hp
  | wait n =>
    unfold State.body
    dsimp only
    split
    · rename_i hw
      split
      · exact .refuse hp
      · exact .wait hp hw.1 hw.2
    · exact .found hp
  | copy n i =>
    unfold State.body
    dsimp only
    split
    · rename_i hc
      exact .get hp (by simpa using hc.2)
    · exact .copied hp
  | copied i => exact .read hp
  | close writable =>
    cases writable with
    | true => exact .closeWrite hp
    | false => exact .closeRead hp
  | closed => exact .closed hp

theorem next_of_exec (hx : s.next p = .ok (s', o)) : Next s p s' o := by
  unfold State.next at hx
  split at hx
  case h_1 => cases hx
  case h_3 b hp =>
    have := next_of_body hp
    rwa [Except.ok.inj hx] at this
  all_goals
    rename_i hp
    cases hx
  · exact .acquire hp
  · exact .wakeup hp
  · exact .wakeup1 hp
  · exact .sleep hp
  · exact .sched hp
  · exact .asleep hp
  · exact .kill hp
  · exact .strike hp

@[simp]
theorem pc_goto (s : State P) (p : P) (x : Pc P) : (s.goto p x).pc p = x :=
  Function.update_self ..

theorem pc_goto_of_ne (hq : q ≠ p) (s : State P) (x : Pc P) : (s.goto p x).pc q = s.pc q :=
  Function.update_of_ne hq ..

@[simp]
theorem pc_leave (s : State P) (p : P) (r : ℤ) : (s.leave p r).1.pc p = .out := pc_goto ..

theorem Next.pc_of_ne (hn : Next s p s' o) (hq : q ≠ p) : s'.pc q = s.pc q := by
  cases hn <;> exact pc_goto_of_ne hq ..

end Xv6.Pipe
