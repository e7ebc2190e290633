import Xv6.Console.Code

/-!
# The line discipline

What the console is for: a line that is edited, and a stream of committed bytes that readers take
from. The ring shows exactly this, whatever the counters are, and the readers get the stream without
its control-Ds, each of which ends one read with the result 0.
-/

namespace Xv6.Console

open Lib

variable {P : Type} {i i' : Input} {c : Byte}

/-! ### What the console is for -/

/-- The stream of committed bytes, the part of it that is unread, and the line that is edited. -/
structure Line where
  committed : List Byte := []
  unread : List Byte := []
  edit : List Byte := []

namespace Line

def size (l : Line) : ℕ := l.unread.length + l.edit.length

def commit (l : Line) : Line := ⟨l.committed ++ l.edit, l.unread ++ l.edit, []⟩

/-- A byte is typed: a line ends with a newline, a control-D, or when there is no more room. -/
def type (l : Line) (c : Byte) : Line :=
  let l := { l with edit := l.edit ++ [c] }
  if c = newline ∨ c = ctrlD ∨ l.size = INPUT_BUF then l.commit else l

def key (l : Line) (c : Byte) : Line :=
  if c = ctrlP then l
  else if c = ctrlU then { l with edit := [] }
  else if c = ctrlH ∨ c = delete then { l with edit := l.edit.dropLast }
  else if c ≠ 0 ∧ l.size < INPUT_BUF then l.type (if c = carriage then newline else c)
  else l

/-- The first `k` bytes are read. -/
def take (l : Line) (k : ℕ) : Line := { l with unread := l.unread.drop k }

end Line

/-- The part of the stream that an event takes: what it copies out, and the control-D that makes it
return 0. -/
def taken : Act P × Out → List Byte
  | (.consoleread _ n, o) => o.copied ++ if o.result = some 0 ∧ 0 < n then [ctrlD] else []
  | (.resume _, o) => o.copied ++ if o.result = some 0 then [ctrlD] else []
  | _ => []

/-- The line discipline over a history. -/
def line : List (Act P × Out) → Line
  | [] => {}
  | (.consoleintr cs, _) :: h => cs.foldl Line.key (line h)
  | e :: h => (line h).take (taken e).length

/-- All that has been taken, in its order. -/
def takes (h : List (Act P × Out)) : List Byte := h.reverse.flatMap taken

/-- All that has been copied out, in its order. -/
def copied (h : List (Act P × Out)) : List Byte := h.reverse.flatMap fun e => e.2.copied

/-- A read of some bytes that returns 0. -/
def isEof : Act P × Out → Bool
  | (.consoleread _ n, o) => o.result = some 0 && 0 < n
  | (.resume _, o) => o.result = some 0
  | _ => false

/-! ### The ring shows the line -/

def Input.unread (i : Input) : List Byte := window i.buf i.r i.w

def Input.edit (i : Input) : List Byte := window i.buf i.w i.e

/-- The ring shows the line. -/
structure Shows (i : Input) (l : Line) : Prop where
  le : (i.w - i.r).toNat ≤ (i.e - i.r).toNat
  bound : (i.e - i.r).toNat ≤ INPUT_BUF
  unread : i.unread = l.unread
  edit : i.edit = l.edit

variable {l : Line}

theorem Shows.size (hs : Shows i l) : (i.e - i.r).toNat = l.size := by
  have h₁ : (i.w - i.r).toNat = l.unread.length := by rw [← hs.unread, Input.unread, length_window]
  have h₂ : (i.e - i.w).toNat = l.edit.length := by rw [← hs.edit, Input.edit, length_window]
  have hle := hs.le
  unfold Line.size
  bv_omega

theorem Shows.erase (hs : Shows i l) (he : i.e ≠ i.w) :
    Shows { i with e := i.e - 1 } { l with edit := l.edit.dropLast } := by
  have hle := hs.le
  have hb := hs.bound
  have hedit : l.edit.dropLast = window i.buf i.w (i.e - 1) := by
    rw [← hs.edit, Input.edit, window_unpush (Ne.symm he), List.dropLast_concat]
  have hlen : (i.e - 1 - i.r).toNat + 1 = (i.e - i.r).toNat := by bv_omega
  refine ⟨?_, ?_, hs.unread, hedit.symm⟩
  · show (i.w - i.r).toNat ≤ (i.e - 1 - i.r).toNat
    bv_omega
  · show (i.e - 1 - i.r).toNat ≤ INPUT_BUF
    omega

/-- The line is taken back byte by byte: there is no newline in it. -/
theorem Shows.killLine (hs : Shows i l) (hl : newline ∉ l.edit) :
    Shows (i.killLine (i.e - i.w).toNat) { l with edit := [] } := by
  generalize hk : (i.e - i.w).toNat = k
  induction k generalizing i l with
  | zero =>
    have hnil : l.edit = [] := by
      rw [← hs.edit, ← List.length_eq_zero_iff, Input.edit, length_window, hk]
    rw [← hnil]
    exact hs
  | succ k ih =>
    have hne : i.e ≠ i.w := by
      rintro he
      rw [he] at hk
      simp at hk
    have hlast : i.buf (cell INPUT_BUF (i.e - 1)) ≠ newline := by
      intro hc
      refine hl ?_
      rw [← hs.edit, Input.edit, window_unpush (Ne.symm hne), hc]
      simp
    have hlen : (i.e - 1 - i.w).toNat = k := by bv_omega
    rw [Input.killLine, if_pos ⟨hne, hlast⟩]
    have := ih (hs.erase hne) (fun hc => hl (List.mem_of_mem_dropLast hc)) hlen
    exact this

theorem Shows.store (hs : Shows i l) (hlt : (i.e - i.r).toNat < INPUT_BUF) (c : Byte) :
    Shows { i with buf := Function.update i.buf (cell INPUT_BUF i.e) c, e := i.e + 1 }
      { l with edit := l.edit ++ [c] } := by
  have hle := hs.le
  have hlen : (i.e + 1 - i.r).toNat = (i.e - i.r).toNat + 1 :=
    toNat_succ_sub (by unfold INPUT_BUF at hlt; omega)
  have hin : (i.e - i.w).toNat < INPUT_BUF := by bv_omega
  refine ⟨?_, ?_, ?_, ?_⟩
  · show (i.w - i.r).toNat ≤ (i.e + 1 - i.r).toNat
    omega
  · show (i.e + 1 - i.r).toNat ≤ INPUT_BUF
    omega
  · exact (window_update (by decide) c hle hlt).trans hs.unread
  · exact (window_push (by decide) (by decide) c hin).trans (congrArg (· ++ [c]) hs.edit)

theorem Shows.commit (hs : Shows i l) : Shows { i with w := i.e } l.commit := by
  refine ⟨le_rfl, hs.bound, ?_, window_self ..⟩
  show window i.buf i.r i.e = l.unread ++ l.edit
  rw [window_append hs.le, ← hs.unread, ← hs.edit]
  rfl

theorem Shows.full_iff (hs : Shows i l) : i.e = i.r + .ofNat 32 INPUT_BUF ↔ l.size = INPUT_BUF := by
  rw [← hs.size]
  constructor
  · intro h
    rw [h, BitVec.add_comm, BitVec.add_sub_cancel]
    rfl
  · intro h
    rw [← h, add_ofNat_sub]

/-! ### The keys -/

theorem Line.newline_notMem_type {l : Line} (hl : newline ∉ l.edit) (c : Byte) :
    newline ∉ (l.type c).edit := by
  unfold Line.type
  dsimp only
  split
  · exact List.not_mem_nil
  · rename_i h
    have hc : newline ≠ c := fun he => h (.inl he.symm)
    rw [List.mem_append, List.mem_singleton]
    rintro (h' | h')
    · exact hl h'
    · exact hc h'

theorem Line.newline_notMem_key {l : Line} (hl : newline ∉ l.edit) (c : Byte) :
    newline ∉ (l.key c).edit := by
  unfold Line.key
  split
  · exact hl
  split
  · exact List.not_mem_nil
  split
  · exact fun hc => hl (List.mem_of_mem_dropLast hc)
  split
  · exact newline_notMem_type hl _
  · exact hl

/-- **A key does to the ring what it does to the line.** -/
theorem Shows.key (hs : Shows i l) (hl : newline ∉ l.edit) (c : Byte) :
    Shows (i.key c).1 (l.key c) := by
  unfold Input.key Line.key
  split
  · exact hs
  split
  · exact hs.killLine hl
  split
  · by_cases he : i.e = i.w
    · have hnil : l.edit = [] := by rw [← hs.edit, Input.edit, he, window_self]
      rw [if_neg (not_not.2 he), hnil, List.dropLast_nil, ← hnil]
      exact hs
    · rw [if_pos he]
      exact hs.erase he
  rw [hs.size]
  split
  · rename_i hroom
    generalize (if c = carriage then newline else c) = d
    have hst := hs.store (hs.size ▸ hroom.2) d
    unfold Line.type
    dsimp only
    by_cases hend : d = newline ∨ d = ctrlD ∨ i.e + 1 = i.r + .ofNat 32 INPUT_BUF
    · rw [if_pos hend, if_pos (by rwa [← hst.full_iff])]
      exact hst.commit
    · rw [if_neg hend, if_neg (by rwa [← hst.full_iff])]
      exact hst
  · exact hs

theorem Shows.consoleintr (cs : List Byte) (hs : Shows i l) (hl : newline ∉ l.edit) :
    Shows (i.consoleintr cs).1 (cs.foldl Line.key l) ∧ newline ∉ (cs.foldl Line.key l).edit := by
  induction cs generalizing i l with
  | nil => exact ⟨hs, hl⟩
  | cons c cs ih => exact ih (hs.key hl c) (Line.newline_notMem_key hl c)

/-! ### The reads -/

theorem Shows.pop (hs : Shows i l) (hne : i.r ≠ i.w) :
    ∃ rest, l.unread = i.buf (cell INPUT_BUF i.r) :: rest ∧
      Shows { i with r := i.r + 1 } { l with unread := rest } := by
  have hle := hs.le
  have hb := hs.bound
  have hlen := toNat_sub_succ hne
  have hlen' : (i.e - i.r).toNat = (i.e - (i.r + 1)).toNat + 1 := by bv_omega
  refine ⟨window i.buf (i.r + 1) i.w, ?_, ?_, ?_, rfl, hs.edit⟩
  · rw [← hs.unread, Input.unread, window_pop hne]
  · show (i.w - (i.r + 1)).toNat ≤ (i.e - (i.r + 1)).toNat
    omega
  · show (i.e - (i.r + 1)).toNat ≤ INPUT_BUF
    omega

/-- The control-D that a read of `n` bytes takes. -/
def eof (n : ℕ) (o : Outcome) : List Byte := if o = .ret 0 ∧ 0 < n then [ctrlD] else []

theorem eof_zero (o : Outcome) : eof 0 o = [] := if_neg fun h => Nat.lt_irrefl 0 h.2

theorem eof_of_ne {n : ℕ} {o : Outcome} (h : o ≠ .ret 0) : eof n o = [] := if_neg fun h' => h h'.1

/-- What the loop of `consoleread` does with `n` of its `target` bytes to go. -/
structure Reads (target n : ℕ) (l : Line) (i : Input) (cs : List Byte) (o : Outcome) : Prop where
  plain : ctrlD ∉ cs
  /-- With bytes copied out the result is not 0. -/
  more : n < target → o ≠ .ret 0
  sleep : ∀ m, o = .sleep m → 0 < m ∧ m ≤ n
  rest : ∃ rest, l.unread = cs ++ eof n o ++ rest ∧ Shows i { l with unread := rest }

theorem reads_readLoop (killed : Bool) {target : ℕ} : ∀ {n : ℕ} {i : Input} {l : Line}, n ≤ target →
    Shows i l → Reads target n l (i.readLoop killed target n).1 (i.readLoop killed target n).2.1
      (i.readLoop killed target n).2.2 := by
  intro n
  induction n with
  | zero =>
    intro i l hn hs
    refine ⟨List.not_mem_nil, fun hlt he => ?_, nofun, l.unread, by rw [eof_zero]; rfl, hs⟩
    have : (target : ℤ) = 0 := Outcome.ret.inj he
    omega
  | succ n ih =>
    intro i l hn hs
    unfold Input.readLoop
    split
    · -- Nothing is committed.
      refine ⟨List.not_mem_nil, fun _ => ?_, fun m hm => ?_, l.unread, ?_, hs⟩
      · cases killed <;> simp
      · cases killed with
        | true => cases hm
        | false =>
          cases hm
          exact ⟨Nat.succ_pos n, le_rfl⟩
      · cases killed <;> simp [eof]
    · rename_i hne
      obtain ⟨rest, hrest, hs'⟩ := hs.pop hne
      dsimp only
      split
      · -- A control-D: it is taken if it comes first, and left otherwise.
        rename_i hc
        refine ⟨List.not_mem_nil, fun hlt he => ?_, nofun, ?_⟩
        · have := Outcome.ret.inj he
          omega
        · by_cases hlt : n + 1 < target
          · have hne0 : (target : ℤ) - (n + 1 : ℕ) ≠ 0 := by omega
            refine ⟨l.unread, ?_, ?_⟩
            · rw [eof_of_ne fun he => hne0 (Outcome.ret.inj he)]
              rfl
            · rw [if_pos hlt, BitVec.add_sub_cancel]
              exact hs
          · have h0 : (target : ℤ) - (n + 1 : ℕ) = 0 := by omega
            refine ⟨rest, ?_, ?_⟩
            · rw [hrest, hc, h0]
              rfl
            · rw [if_neg hlt]
              exact hs'
      · rename_i hc
        split
        · refine ⟨?_, fun hlt he => ?_, nofun, rest, ?_, hs'⟩
          · rw [List.mem_singleton]
            exact Ne.symm hc
          · have := Outcome.ret.inj he
            omega
          · have hne0 : (target : ℤ) - n ≠ 0 := by omega
            rw [hrest, eof_of_ne fun he => hne0 (Outcome.ret.inj he)]
            rfl
        · obtain ⟨hplain, hmore, hsleep, rest', hrest', hs''⟩ := ih (by omega) hs'
          refine ⟨?_, fun _ => hmore (by omega), fun m hm => ?_, rest', ?_, hs''⟩
          · rw [List.mem_cons]
            rintro (he | he)
            · exact hc he.symm
            · exact hplain he
          · obtain ⟨hpos, hle⟩ := hsleep m hm
            exact ⟨hpos, by omega⟩
          · have hne0 := hmore (by omega)
            rw [eof_of_ne hne0, List.append_nil] at hrest' ⊢
            exact hrest.trans (congrArg (_ :: ·) hrest')

/-! ### The stream -/

/-- What the console shows of its history. -/
structure Stream (h : List (Act P × Out)) (s : State P) : Prop where
  input : Shows s.input (line h)
  /-- A newline is never in the line: it ends it. -/
  plain : newline ∉ (line h).edit
  committed : (line h).committed = takes h ++ (line h).unread
  copied : copied h = (takes h).filter (· ≠ ctrlD)
  eofs : (takes h).count ctrlD = h.countP isEof
  reading : ∀ p target n, s.reading p = some (target, n) → 0 < n ∧ n ≤ target

theorem takes_cons (e : Act P × Out) (h : List (Act P × Out)) : takes (e :: h) = takes h ++ taken e := by
  simp [takes]

theorem copied_cons (e : Act P × Out) (h : List (Act P × Out)) :
    copied (e :: h) = copied h ++ e.2.copied := by
  simp [copied]

theorem Line.key_committed {l : Line} {pre : List Byte} (hl : l.committed = pre ++ l.unread) (c : Byte) :
    (l.key c).committed = pre ++ (l.key c).unread := by
  unfold Line.key Line.type
  dsimp only
  split_ifs <;> simp [Line.commit, hl]

theorem Line.foldl_key_committed (cs : List Byte) {l : Line} {pre : List Byte}
    (hl : l.committed = pre ++ l.unread) :
    (cs.foldl Line.key l).committed = pre ++ (cs.foldl Line.key l).unread := by
  induction cs generalizing l with
  | nil => exact hl
  | cons c cs ih => exact ih (Line.key_committed hl c)

theorem Line.key_unread (l : Line) (c : Byte) : l.unread <+: (l.key c).unread := by
  unfold Line.key Line.type
  dsimp only
  split_ifs <;> simp [Line.commit]

theorem Line.foldl_key_unread (cs : List Byte) (l : Line) : l.unread <+: (cs.foldl Line.key l).unread := by
  induction cs generalizing l with
  | nil => exact List.prefix_rfl
  | cons c cs ih => exact (l.key_unread c).trans (ih _)

theorem Input.killLine_r (k : ℕ) (i : Input) : (i.killLine k).r = i.r := by
  induction k generalizing i with
  | zero => rfl
  | succ k ih =>
    unfold Input.killLine
    split
    · exact ih _
    · rfl

theorem Input.consoleintr_r (cs : List Byte) (i : Input) : (i.consoleintr cs).1.r = i.r := by
  induction cs generalizing i with
  | nil => rfl
  | cons c cs ih =>
    refine (ih (i.key c).1).trans ?_
    unfold Input.key
    dsimp only
    split_ifs <;> first | rfl | exact killLine_r ..

variable {s s' : State P} {p : P} {h : List (Act P × Out)} {a : Act P} {o : Out}

theorem Stream.consoleintr (hs : Stream h s) (cs : List Byte) (woken : Bool) :
    Stream ((.consoleintr cs, {}) :: h)
      { s with input := (s.input.consoleintr cs).1, sleeping := fun q => s.sleeping q && !woken } := by
  obtain ⟨hin, hplain⟩ := hs.input.consoleintr cs hs.plain
  have htakes : takes ((Act.consoleintr cs, ({} : Out)) :: h) = takes h := by simp [takes_cons, taken]
  refine ⟨hin, hplain, ?_, ?_, ?_, hs.reading⟩
  · rw [htakes]
    exact Line.foldl_key_committed cs hs.committed
  · rw [htakes, copied_cons, hs.copied, List.append_nil]
  · rw [htakes, hs.eofs]
    rfl

/-- The result that an outcome shows. -/
def Outcome.result : Outcome → Option ℤ
  | .sleep _ => none
  | .ret r => some r

theorem Outcome.result_eq_some {o : Outcome} {r : ℤ} : o.result = some r ↔ o = .ret r := by
  cases o <;> simp [Outcome.result]

variable [DecidableEq P]

theorem State.read_input (s : State P) (p : P) (target n : ℕ) :
    (s.read p target n).1.input = (s.input.readLoop (s.killed p) target n).1 := by
  unfold State.read
  split <;> (rename_i hx; rw [hx])

theorem State.read_out (s : State P) (p : P) (target n : ℕ) :
    (s.read p target n).2 = ⟨(s.input.readLoop (s.killed p) target n).2.1,
      (s.input.readLoop (s.killed p) target n).2.2.result⟩ := by
  unfold State.read
  split <;> (rename_i hx; rw [hx]; rfl)

theorem State.read_reading (s : State P) (p : P) (target n : ℕ) {q : P} {x : ℕ × ℕ}
    (hx : (s.read p target n).1.reading q = some x) :
    s.reading q = some x ∨
      ∃ m, (s.input.readLoop (s.killed p) target n).2.2 = .sleep m ∧ x = (target, m) := by
  unfold State.read at hx
  by_cases hq : q = p
  · subst hq
    split at hx
    · rename_i m hm
      refine .inr ⟨m, by rw [hm], ?_⟩
      simpa using hx.symm
    · simp at hx
  · refine .inl ?_
    split at hx <;> simpa [hq] using hx

theorem Stream.read {target n : ℕ} {e : Act P × Out} (hs : Stream h s) (hn : n ≤ target)
    (he : e.2 = (s.read p target n).2) (hline : line (e :: h) = (line h).take (taken e).length)
    (htaken : taken e = e.2.copied ++ if e.2.result = some 0 ∧ 0 < n then [ctrlD] else [])
    (heof : isEof e = decide (e.2.result = some 0 ∧ 0 < n)) : Stream (e :: h) (s.read p target n).1 := by
  obtain ⟨hplain, -, hsleep, rest, hrest, hin⟩ := reads_readLoop (s.killed p) hn hs.input
  rw [s.read_out] at he
  rw [he] at htaken heof
  simp only [Outcome.result_eq_some] at htaken heof
  have hrest : (line h).unread = taken e ++ rest := htaken ▸ hrest
  have hl : line (e :: h) = { line h with unread := rest } := by
    rw [hline, Line.take, hrest, List.drop_left]
  -- the bytes that are copied out are those that are taken and no control-D
  have hfilter : (taken e).filter (· ≠ ctrlD) = e.2.copied := by
    rw [htaken, he, List.filter_append, List.filter_eq_self.2 fun c hc => by
      simpa using fun (hcd : c = ctrlD) => hplain (hcd ▸ hc)]
    split <;> simp
  have hcount : (taken e).count ctrlD = if isEof e then 1 else 0 := by
    rw [htaken, List.count_append, List.count_eq_zero_of_not_mem hplain, heof]
    by_cases hc : (s.input.readLoop (s.killed p) target n).2.2 = .ret 0 ∧ 0 < n
    · rw [if_pos hc, decide_eq_true hc]
      rfl
    · rw [if_neg hc, decide_eq_false hc]
      rfl
  refine ⟨?_, ?_, ?_, ?_, ?_, ?_⟩
  · rw [hl, State.read_input]
    exact hin
  · rw [hl]
    exact hs.plain
  · rw [hl, takes_cons, List.append_assoc, ← hrest]
    exact hs.committed
  · rw [copied_cons, takes_cons, List.filter_append, hfilter, hs.copied]
  · rw [takes_cons, List.count_append, hcount, hs.eofs, List.countP_cons]
  · intro q target' m hm
    rcases s.read_reading p target n hm with hm | ⟨m', hm', hx⟩
    · exact hs.reading q target' m hm
    · cases hx
      obtain ⟨hpos, hle⟩ := hsleep m hm'
      exact ⟨hpos, hle.trans hn⟩

theorem Stream.kill (hs : Stream h s) (q : P) :
    Stream ((.kill q, {}) :: h) { s with
      killed := Function.update s.killed q true, sleeping := Function.update s.sleeping q false } := by
  have htakes : takes ((Act.kill q, ({} : Out)) :: h) = takes h := by simp [takes_cons, taken]
  refine ⟨hs.input, hs.plain, ?_, ?_, ?_, hs.reading⟩
  · rw [htakes]
    exact hs.committed
  · rw [htakes, copied_cons, hs.copied, List.append_nil]
  · rw [htakes, hs.eofs]
    rfl

theorem stream_init : Stream [] (console P).init :=
  ⟨⟨le_rfl, by simp [console], window_self .., window_self ..⟩, List.not_mem_nil, rfl, rfl, rfl, nofun⟩

theorem Stream.step (hs : Stream h s) (hx : exec s a = .ok (s', o)) : Stream ((a, o) :: h) s' := by
  cases a with
  | consoleintr cs =>
    cases hx
    exact hs.consoleintr cs _
  | consoleread p n =>
    obtain ⟨rfl, rfl⟩ := Prod.ext_iff.1 (Except.ok.inj hx)
    refine hs.read le_rfl rfl rfl ?_ ?_
    · simp [taken]
    · simp [isEof]
  | resume p =>
    simp only [exec] at hx
    split at hx
    · rename_i target n hp
      obtain ⟨rfl, rfl⟩ := Prod.ext_iff.1 (Except.ok.inj hx)
      obtain ⟨hpos, hle⟩ := hs.reading p target n hp
      refine hs.read hle rfl rfl ?_ ?_
      · simp [taken, hpos]
      · simp [isEof, hpos]
    · cases hx
  | kill q =>
    cases hx
    exact hs.kill q

/-- **The console delivers what is typed.** After any run, the ring shows the line discipline: its
counters are in order and within the buffer, and it holds the unread part of the stream and the line
that is edited. What the reads have taken is the beginning of the stream; without its control-Ds it
is what has been copied out, and its control-Ds are as many as the reads of some bytes that returned
0. And no keys touch what is committed and unread. -/
theorem console_stream (hr : (console P).Runs h s) :
    (s.input.w - s.input.r).toNat ≤ (s.input.e - s.input.r).toNat ∧
      (s.input.e - s.input.r).toNat ≤ INPUT_BUF ∧
      s.input.unread = (line h).unread ∧ s.input.edit = (line h).edit ∧
      (line h).committed = takes h ++ s.input.unread ∧
      copied h = (takes h).filter (· ≠ ctrlD) ∧ (takes h).count ctrlD = h.countP isEof ∧
      ∀ cs, (s.input.consoleintr cs).1.r = s.input.r ∧
        s.input.unread <+: (s.input.consoleintr cs).1.unread := by
  have hs : Stream h s := hr.invariant (P := Stream) stream_init fun _ hs hst => hs.step hst.2
  refine ⟨hs.input.le, hs.input.bound, hs.input.unread, hs.input.edit, ?_, hs.copied, hs.eofs,
    fun cs => ⟨Input.consoleintr_r cs _, ?_⟩⟩
  · rw [hs.input.unread]
    exact hs.committed
  · rw [hs.input.unread, (hs.input.consoleintr cs hs.plain).1.unread]
    exact Line.foldl_key_unread cs _

/-- An `a` that is taken back, a `b` and a newline that are read, and a control-D that ends the next
read. -/
theorem console_stream_two_reads :
    ∃ h, ∃ s : State Unit, (console Unit).Runs h s ∧ copied h = [0x62, newline] ∧
      (line h).committed = [0x62, newline, ctrlD] ++ s.input.unread := by
  obtain ⟨s, hr, -⟩ := (console Unit).exists_runs
    [(.consoleread () 9, {}), (.consoleintr [0x61, ctrlH, 0x62], {}),
      (.consoleintr [carriage, ctrlD], {}), (.resume (), ⟨[0x62, newline], some 2⟩),
      (.consoleread () 9, ⟨[], some 0⟩)] (fun _ => true) (by decide +kernel)
  exact ⟨_, s, hr, rfl, (console_stream hr).2.2.2.2.1⟩

end Xv6.Console
