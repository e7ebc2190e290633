import Xv6.Basic
import Xv6.Lib.Machine
import Xv6.Lib.Ring
import Xv6.Lib.Bytes

/-!
# `console.c`: the input

`consoleintr` edits the line that is being typed and commits it, `consoleread` takes committed bytes.
Both work under `cons.lock`: an interrupt runs to its end, and a read runs until it returns or sleeps.
The echo of the input and the process listing are left out.
-/

namespace Xv6.Console

open Lib

abbrev INPUT_BUF : ℕ := 128

/-- `input`: the bytes from `r` to `w` are committed and unread, those from `w` to `e` are edited. -/
structure Input where
  buf : Fin INPUT_BUF → Byte := fun _ => 0
  r : Word := 0
  w : Word := 0
  e : Word := 0

abbrev ctrlP : Byte := 0x10

abbrev ctrlU : Byte := 0x15

abbrev ctrlH : Byte := 0x08

abbrev delete : Byte := 0x7f

abbrev ctrlD : Byte := 0x04

abbrev carriage : Byte := 0x0d

abbrev newline : Byte := 0x0a

namespace Input

/-- The loop of `C('U')`. It takes back one byte a turn and ends at `w`. -/
def killLine : ℕ → Input → Input
  | 0, i => i
  | k + 1, i =>
    if i.e ≠ i.w ∧ i.buf (cell INPUT_BUF (i.e - 1)) ≠ newline then killLine k { i with e := i.e - 1 }
    else i

/-- One key of `consoleintr`, and whether it calls `wakeup(&input.r)`. -/
def key (i : Input) (c : Byte) : Input × Bool :=
  if c = ctrlP then (i, false)
  else if c = ctrlU then (i.killLine (i.e - i.w).toNat, false)
  else if c = ctrlH ∨ c = delete then
    if i.e ≠ i.w then ({ i with e := i.e - 1 }, false) else (i, false)
  else if c ≠ 0 ∧ (i.e - i.r).toNat < INPUT_BUF then
    let c := if c = carriage then newline else c
    let i := { i with buf := Function.update i.buf (cell INPUT_BUF i.e) c, e := i.e + 1 }
    if c = newline ∨ c = ctrlD ∨ i.e = i.r + .ofNat 32 INPUT_BUF then ({ i with w := i.e }, true)
    else (i, false)
  else (i, false)

/-- `consoleintr`, with what `getc` gives. -/
def consoleintr (i : Input) : List Byte → Input × Bool
  | [] => (i, false)
  | c :: cs =>
    let (i, woken) := i.key c
    let (i, woken') := i.consoleintr cs
    (i, woken || woken')

end Input

/-- How the loop of `consoleread` ends: at `sleep` with `n` bytes to go, or with a result. -/
inductive Outcome
  | sleep (n : ℕ)
  | ret (r : ℤ)
  deriving DecidableEq

/-- The loop of `consoleread` with `n` bytes to go, and the bytes that it copies out. -/
def Input.readLoop (killed : Bool) (target : ℕ) : ℕ → Input → Input × List Byte × Outcome
  | 0, i => (i, [], .ret target)
  | n + 1, i =>
    if i.r = i.w then (i, [], if killed then .ret (-1) else .sleep (n + 1))
    else
      let c := i.buf (cell INPUT_BUF i.r)
      let i := { i with r := i.r + 1 }
      if c = ctrlD then
        -- kept for the next read, so that this one does not return 0
        (if n + 1 < target then { i with r := i.r - 1 } else i, [], .ret (target - (n + 1 : ℕ)))
      else if c = newline then (i, [c], .ret (target - n))
      else
        let (i, cs, o) := i.readLoop killed target n
        (i, c :: cs, o)

/-- The console and the processes that read from it. -/
structure State (P : Type) where
  input : Input := {}
  /-- The process is in `consoleread`: `target`, and `n`. -/
  reading : P → Option (ℕ × ℕ) := fun _ => none
  /-- The process is `SLEEPING` on `&input.r`. -/
  sleeping : P → Bool := fun _ => false
  killed : P → Bool := fun _ => false

inductive Act (P : Type)
  | consoleintr (cs : List Byte)
  | consoleread (p : P) (n : ℤ)
  /-- A reader that has been woken goes on. -/
  | resume (p : P)
  | kill (q : P)

/-- What is copied out, and the result of the call if it returns. -/
structure Out where
  copied : List Byte := []
  result : Option ℤ := none
  deriving DecidableEq

variable {P : Type} [DecidableEq P]

/-- The process `p` runs the loop of `consoleread`. -/
def State.read (s : State P) (p : P) (target n : ℕ) : State P × Out :=
  match s.input.readLoop (s.killed p) target n with
  | (i, cs, .sleep n) =>
    ({ s with
      input := i
      reading := Function.update s.reading p (some (target, n))
      sleeping := Function.update s.sleeping p true }, ⟨cs, none⟩)
  | (i, cs, .ret r) =>
    ({ s with input := i, reading := Function.update s.reading p none }, ⟨cs, some r⟩)

def enabled (s : State P) : Act P → Bool
  | .consoleintr _ | .kill _ => true
  | .consoleread p _ => s.reading p = none
  | .resume p => s.reading p ≠ none && !s.sleeping p

def exec (s : State P) : Act P → Except Fault (State P × Out)
  | .consoleintr cs =>
    let (i, woken) := s.input.consoleintr cs
    .ok ({ s with input := i, sleeping := fun q => s.sleeping q && !woken }, {})
  | .consoleread p n => .ok (s.read p n.toNat n.toNat)
  | .resume p =>
    match s.reading p with
    | some (target, n) => .ok (s.read p target n)
    | none => .error .null
  | .kill q =>
    .ok ({ s with
      killed := Function.update s.killed q true
      sleeping := Function.update s.sleeping q false }, {})

/-- **The console**, typed at and read from by the processes `P`. -/
def console (P : Type) [DecidableEq P] : Machine (State P) (Act P) Out Fault := ⟨{}, enabled, exec⟩

end Xv6.Console
