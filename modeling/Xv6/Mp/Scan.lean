import Xv6.Basic
import Xv6.Lib.Bytes
import Mathlib.Logic.Function.Iterate

/-!
# `mp.c`

`mpinit` goes through the entries of the table that the firmware describes the processors with. An entry
is as long as its type says, and one with an unknown type ends the `switch` and not the loop. Memory is
by physical address, as the kernel sees it above `KERNBASE`.
-/

namespace Xv6.Mp

open Lib

abbrev NCPU : ℕ := 8

inductive Kind
  | proc
  | bus
  | ioapic
  | iointr
  | lintr
  | unknown
  deriving DecidableEq

variable (mem : ℕ → Byte)

/-! ### The configuration table -/

def ushort (a : ℕ) : ℕ := (mem a).toNat + 256 * (mem (a + 1)).toNat

def uint (a : ℕ) : ℕ := ushort mem a + 65536 * ushort mem (a + 2)

def sum (addr len : ℕ) : Byte := (List.range len).foldl (fun s i => s + mem (addr + i)) 0

/-- `memcmp` with a string of four characters. -/
def isSig (a : ℕ) (sig : List ℕ) : Bool := (List.range 4).map (fun i => (mem (a + i)).toNat) == sig

/-- `mpsearch1`. A `struct mp` has 16 bytes. -/
def mpsearch1 (a len : ℕ) : Option ℕ :=
  ((List.range ((len + 15) / 16)).map fun i => a + 16 * i).find? fun p =>
    isSig mem p [0x5F, 0x4D, 0x50, 0x5F] && sum mem p 16 == 0

def mpsearch : Option ℕ :=
  let ebda := ushort mem 0x40E * 16
  let first :=
    if ebda ≠ 0 then mpsearch1 mem ebda 1024
    else mpsearch1 mem ((ushort mem 0x413 * 1024 + 2 ^ 32 - 1024) % 2 ^ 32) 1024
  first.or (mpsearch1 mem 0xF0000 0x10000)

/-- `conf->length`. -/
def length (conf : ℕ) : ℕ := ushort mem (conf + 4)

/-- `mpconfig`: the addresses of the `struct mp` and of the table. -/
def mpconfig : Option (ℕ × ℕ) := do
  let mp ← mpsearch mem
  let conf := uint mem (mp + 4)
  let version := (mem (conf + 6)).toNat
  if conf = 0 then none
  else if !isSig mem conf [0x50, 0x43, 0x4D, 0x50] then none
  else if version ≠ 1 ∧ version ≠ 4 then none
  else if sum mem conf (length mem conf) ≠ 0 then none
  else some (mp, conf)

/-! ### `mpinit` -/

structure State where
  ncpu : ℕ := 0
  /-- `cpus[i].apicid`. -/
  apicid : ℕ → Byte := fun _ => 0
  ioapicid : Byte := 0
  ismp : Bool := true
  lapic : ℕ := 0
  /-- The interrupt mode register has been written. -/
  imcr : Bool := false

/-- `*p`. -/
def kind (p : ℕ) : Kind :=
  match (mem p).toNat with
  | 0x00 => .proc
  | 0x01 => .bus
  | 0x02 => .ioapic
  | 0x03 => .iointr
  | 0x04 => .lintr
  | _ => .unknown

/-- The `switch` in the loop, at the entry `p`. -/
def entry (p : ℕ) (s : State) : ℕ × State :=
  match kind mem p with
  | .proc =>
    (p + 20, if s.ncpu < NCPU then
      { s with apicid := Function.update s.apicid s.ncpu (mem (p + 1)), ncpu := s.ncpu + 1 } else s)
  | .ioapic => (p + 8, { s with ioapicid := mem (p + 1) })
  | .bus => (p + 8, s)
  | .iointr => (p + 8, s)
  | .lintr => (p + 8, s)
  | .unknown => (p, { s with ismp := false })

/-- `for(; p < e; )`, for less than `n` turns. -/
def loop (e : ℕ) : ℕ → ℕ × State → Option State
  | 0, _ => none
  | n + 1, (p, s) => if p < e then loop e n (entry mem p s) else some s

/-- Where the loop begins. -/
def start (conf : ℕ) : ℕ × State := (conf + 44, { lapic := uint mem (conf + 36) })

/-- `mpinit`, if the loop ends in less than `n` turns. -/
def mpinit (n : ℕ) : Option (Except Fault State) :=
  match mpconfig mem with
  | none => some (.error (.panic "Expect to run on an SMP"))
  | some (mp, conf) => (loop mem (conf + length mem conf) n (start mem conf)).map fun s =>
    if !s.ismp then .error (.panic "Didn't find a suitable machine")
    else .ok { s with imcr := mem (mp + 12) ≠ 0 }

/-! ### The loop -/

variable {mem} {e p n mp conf : ℕ} {s : State}

def Kind.size : Kind → ℕ
  | proc => 20
  | unknown => 0
  | _ => 8

/-- From `p` on, an entry of unknown type is met before `e`. -/
inductive Unknown (mem : ℕ → Byte) (e : ℕ) : ℕ → Prop
  | here {p : ℕ} : p < e → kind mem p = .unknown → Unknown mem e p
  | next {p : ℕ} : p < e → kind mem p ≠ .unknown → Unknown mem e (p + (kind mem p).size) → Unknown mem e p

/-- The cursor moves by the size of the entry, and stays at one of unknown type. -/
theorem entry_fst : (entry mem p s).1 = p + (kind mem p).size := by
  unfold entry
  cases kind mem p <;> rfl

theorem entry_ismp (h : kind mem p ≠ .unknown) : (entry mem p s).2.ismp = s.ismp := by
  unfold entry
  cases hk : kind mem p with
  | proc =>
    dsimp only
    split <;> rfl
  | unknown => exact absurd hk h
  | _ => rfl

theorem entry_ncpu (h : s.ncpu ≤ NCPU) : (entry mem p s).2.ncpu ≤ NCPU := by
  unfold entry
  cases kind mem p with
  | proc =>
    dsimp only
    split <;> assumption
  | _ => exact h

theorem size_pos {k : Kind} (h : k ≠ .unknown) : 0 < k.size := by
  cases k <;> first | exact absurd rfl h | decide

theorem loop_lt (h : p < e) : loop mem e (n + 1) (p, s) = loop mem e n (p + (kind mem p).size, (entry mem p s).2) := by
  rw [loop, if_pos h, ← entry_fst (s := s)]

/-- The loop does not end if it meets an entry of unknown type. -/
theorem loop_of_unknown (h : Unknown mem e p) (n : ℕ) (s : State) : loop mem e n (p, s) = none := by
  induction h generalizing n s with
  | @here p hlt hkind =>
    induction n generalizing s with
    | zero => rfl
    | succ n ih => rw [loop_lt hlt, hkind, Kind.size, Nat.add_zero, ih]
  | next hlt _ _ ih =>
    cases n with
    | zero => rfl
    | succ n => rw [loop_lt hlt, ih]

/-- The loop ends if it meets none, since every entry is longer than 0. -/
theorem loop_of_known (h : ¬Unknown mem e p) (s : State) :
    ∃ n s', loop mem e n (p, s) = some s' ∧ s'.ismp = s.ismp := by
  induction hd : e - p using Nat.strong_induction_on generalizing p s with
  | _ d ih =>
    by_cases hlt : p < e
    · have hkind : kind mem p ≠ .unknown := fun hk => h (.here hlt hk)
      have hpos := size_pos hkind
      obtain ⟨n, s', hloop, hs'⟩ := ih _ (by omega) (fun hu => h (.next hlt hkind hu)) (entry mem p s).2 rfl
      exact ⟨n + 1, s', by rw [loop_lt hlt, hloop], hs'.trans (entry_ismp hkind)⟩
    · exact ⟨1, s, if_neg hlt, rfl⟩

/-- There is never a processor too many. -/
theorem iterate_ncpu (n : ℕ) {x : ℕ × State} (h : x.2.ncpu ≤ NCPU) :
    ((fun x => entry mem x.1 x.2)^[n] x).2.ncpu ≤ NCPU := by
  induction n generalizing x with
  | zero => exact h
  | succ n ih => exact ih (entry_ncpu h)

/-- **`mpinit` ends** if and only if no entry of the table has an unknown type, so that the panic for
those is never reached. However far it gets, it does not count more than `NCPU` processors. -/
theorem mpinit_ends_iff (hconf : mpconfig mem = some (mp, conf)) :
    ((∃ n r, mpinit mem n = some r ∧
        (r = .error (.panic "Didn't find a suitable machine") ↔
          Unknown mem (conf + length mem conf) (conf + 44))) ↔
      ¬Unknown mem (conf + length mem conf) (conf + 44)) ∧
    ∀ n, ((fun x => entry mem x.1 x.2)^[n] (start mem conf)).2.ncpu ≤ NCPU := by
  refine ⟨⟨?_, fun h => ?_⟩, fun n => iterate_ncpu n (Nat.zero_le NCPU)⟩
  · rintro ⟨n, r, hr, -⟩ h
    simp only [mpinit, hconf, start, loop_of_unknown h, Option.map_none] at hr
    cases hr
  · obtain ⟨n, s', hloop, hs'⟩ := loop_of_known h (start mem conf).2
    have hloop : loop mem (conf + length mem conf) n (start mem conf) = some s' := hloop
    have hs' : s'.ismp = true := hs'
    refine ⟨n, .ok { s' with imcr := mem (mp + 12) ≠ 0 }, ?_, iff_of_false nofun h⟩
    simp only [mpinit, hconf, hloop, Option.map_some, hs']
    rfl

/-! ### A table with one entry -/

/-- Memory with a table at `0x1000` that holds one entry of the type `t`. -/
def sample (t : ℕ) : ℕ → Byte := fun a =>
  if 0xF0000 ≤ a then
    BitVec.ofNat 8 ([0x5F, 0x4D, 0x50, 0x5F, 0, 0x10, 0, 0, 1, 4, 144].getD (a - 0xF0000) 0)
  else if a = 0x1000 + 44 then BitVec.ofNat 8 t
  else if 0x1000 ≤ a then BitVec.ofNat 8 ([0x50, 0x43, 0x4D, 0x50, 64, 0, 4, 140 - t].getD (a - 0x1000) 0)
  else 0

theorem mpconfig_sample : mpconfig (sample 0) = some (0xF0000, 0x1000) ∧
    mpconfig (sample 5) = some (0xF0000, 0x1000) := by decide +kernel

/-- With a processor in the table, `mpinit` ends. -/
theorem mpinit_ends_sample : ∃ n r, mpinit (sample 0) n = some r := by
  have hend : ¬Unknown (sample 0) (0x1000 + length (sample 0) 0x1000) (0x1000 + 44) := by
    rintro (⟨-, h⟩ | ⟨-, -, ⟨h, -⟩ | ⟨h, -, -⟩⟩)
    · exact absurd h (by decide)
    · exact absurd h (by decide)
    · exact absurd h (by decide)
  obtain ⟨n, r, h, -⟩ := (mpinit_ends_iff mpconfig_sample.1).1.2 hend
  exact ⟨n, r, h⟩

/-- With an entry of type 5, it does not. -/
theorem mpinit_loops : mpconfig (sample 5) = some (0xF0000, 0x1000) ∧ ∀ n, mpinit (sample 5) n = none := by
  refine ⟨mpconfig_sample.2, fun n => ?_⟩
  have h : Unknown (sample 5) (0x1000 + length (sample 5) 0x1000) (0x1000 + 44) := .here (by decide) (by decide)
  simp only [mpinit, mpconfig_sample.2, start, loop_of_unknown h, Option.map_none]

end Xv6.Mp
