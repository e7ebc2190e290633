import Xv6.Grep.Match
import Xv6.Lib.Fold
import Xv6.Lib.Lines
import Xv6.Ulib.Memmove

/-!
# `grep.c`: lines in pieces

`grep` reads into the buffer behind what is left of the last line. If there is no newline in the buffer,
then it forgets what is in it.
-/

namespace Xv6.Grep

open Lib

def nl : Byte := ch '\n'

/-! ### The code -/

/-- `strchr(p, c)`, in a buffer that has `n` bytes from `p` on. -/
def strchr (buf : Mem) (c : Byte) : ℕ → ℕ → Except Fault (Option ℕ)
  | 0, _ => .error .bounds
  | n + 1, p =>
    if buf p = 0 then .ok none
    else if buf p = c then .ok (some p)
    else strchr buf c n (p + 1)

/-- The string at `p`, in a buffer that has `n` bytes from `p` on. -/
def cstr (buf : Mem) : ℕ → ℕ → List Byte
  | 0, _ => []
  | n + 1, p => if buf p = 0 then [] else buf p :: cstr buf n (p + 1)

def slice (buf : Mem) (p q : ℕ) : List Byte := (List.range (q - p)).map fun i => buf (p + i)

/-- `while((q = strchr(p, '\n')) != 0)`: the buffer, `p`, and what is written. -/
def scanLines (pattern : List Byte) : ℕ → Mem → ℕ → Except Fault (Mem × ℕ × List Byte)
  | 0, _, _ => .error .loop
  | n + 1, buf, p => do
    match ← strchr buf nl (1024 - p) p with
    | none => .ok (buf, p, [])
    | some q => do
      let buf := Function.update buf q 0
      if match_ pattern (cstr buf (1024 - p) p) then do
        let buf := Function.update buf q nl
        let (buf', p', out) ← scanLines pattern n buf (q + 1)
        .ok (buf', p', slice buf p (q + 1) ++ out)
      else scanLines pattern n buf (q + 1)

/-- The body of `while((n = read(fd, buf+m, sizeof(buf)-m-1)) > 0)`, where `read` gives `piece`. -/
def turn (pattern piece : List Byte) (buf : Mem) (m : ℕ) : Except Fault (Mem × ℕ × List Byte) :=
  if piece.length > 1024 - m - 1 then .error .bounds
  else do
    let buf := fun i => if m ≤ i then piece.getD (i - m) (buf i) else buf i
    let m := m + piece.length
    let buf := Function.update buf m 0
    let (buf, p, out) ← scanLines pattern 1024 buf 0
    let m := if p = 0 then 0 else m
    if m > 0 then
      let m := m - p
      .ok (Ulib.memmove buf 0 (BitVec.ofNat 32 p) (BitVec.ofNat 32 m), m, out)
    else .ok (buf, m, out)

/-- `grep`, where `read` gives `pieces` one after another and then the end of the file. -/
def grep (pattern : List Byte) : List (List Byte) → Mem → ℕ → Except Fault (List Byte)
  | [], _, _ => .ok []
  | piece :: pieces, buf, m =>
    if piece = [] then .ok []
    else do
      let (buf, m, out) ← turn pattern piece buf m
      let rest ← grep pattern pieces buf m
      .ok (out ++ rest)

/-! ### Strings in the buffer -/

variable {buf : Mem} {p n m : ℕ} {x y text pattern piece carry : List Byte} {pieces : List (List Byte)}

/-- The string `text` is at `p`. -/
def HasStr (buf : Mem) (p : ℕ) (text : List Byte) : Prop := ∀ i ≤ text.length, buf (p + i) = text.getD i 0

theorem HasStr.head {c : Byte} (h : HasStr buf p (c :: text)) : buf p = c := h 0 (Nat.zero_le _)

theorem HasStr.tail {c : Byte} (h : HasStr buf p (c :: text)) : HasStr buf (p + 1) text := by
  intro i hi
  have := h (i + 1) (Nat.succ_le_succ hi)
  rwa [Nat.add_assoc, Nat.add_comm 1]

theorem HasStr.drop (h : HasStr buf p (x ++ text)) : HasStr buf (p + x.length) text := by
  induction x generalizing p with
  | nil => exact h
  | cons c x ih =>
    have := ih h.tail
    rwa [List.length_cons, Nat.add_comm x.length, ← Nat.add_assoc]

theorem HasStr.cut {c : Byte} (h : HasStr buf p (x ++ c :: y)) : HasStr (Function.update buf (p + x.length) 0) p x := by
  intro i hi
  rcases Nat.lt_or_eq_of_le hi with hlt | rfl
  · rw [Function.update_of_ne (by omega), h i (by simp; omega), List.getD_append _ _ _ _ hlt]
  · rw [Function.update_self, List.getD_eq_default _ _ le_rfl]

theorem HasStr.congr {buf' : Mem} (h : HasStr buf p text) (heq : ∀ i, p ≤ i → buf' i = buf i) :
    HasStr buf' p text := fun i hi => by rw [heq _ (Nat.le_add_right p i), h i hi]

/-- `strchr` walks over the characters that are not looked for. -/
theorem strchr_append (h : HasStr buf p (x ++ text)) (h0 : 0 ∉ x) (hc : nl ∉ x) :
    strchr buf nl (x.length + n) p = strchr buf nl n (p + x.length) := by
  induction x generalizing p with
  | nil => rw [List.length_nil, Nat.zero_add, Nat.add_zero]
  | cons c x ih =>
    have hne0 : c ≠ 0 := fun he => h0 (he ▸ List.mem_cons_self)
    have hne : c ≠ nl := fun he => hc (he ▸ List.mem_cons_self)
    rw [List.length_cons, Nat.succ_add, strchr, h.head, if_neg hne0, if_neg hne,
      ih h.tail (fun hm => h0 (List.mem_cons_of_mem c hm)) (fun hm => hc (List.mem_cons_of_mem c hm)),
      Nat.add_comm x.length, ← Nat.add_assoc]

theorem strchr_none (h : HasStr buf p x) (h0 : 0 ∉ x) (hc : nl ∉ x) (hn : x.length < n) :
    strchr buf nl n p = .ok none := by
  obtain ⟨k, rfl⟩ := Nat.exists_eq_add_of_lt hn
  rw [Nat.add_assoc, strchr_append (by rwa [List.append_nil]) h0 hc, strchr,
    if_pos (by rw [h _ le_rfl, List.getD_eq_default _ _ le_rfl])]

theorem strchr_some (h : HasStr buf p (x ++ nl :: y)) (h0 : 0 ∉ x) (hc : nl ∉ x) (hn : x.length < n) :
    strchr buf nl n p = .ok (some (p + x.length)) := by
  obtain ⟨k, rfl⟩ := Nat.exists_eq_add_of_lt hn
  rw [Nat.add_assoc, strchr_append h h0 hc, strchr, h.drop.head, if_neg (by decide), if_pos rfl]

theorem cstr_eq (h : HasStr buf p x) (h0 : 0 ∉ x) (hn : x.length < n) : cstr buf n p = x := by
  induction x generalizing p n with
  | nil =>
    cases n with
    | zero => exact absurd hn (Nat.not_lt_zero _)
    | succ n => exact if_pos (h 0 le_rfl)
  | cons c x ih =>
    cases n with
    | zero => exact absurd hn (Nat.not_lt_zero _)
    | succ n =>
      have hne0 : c ≠ 0 := fun he => h0 (he ▸ List.mem_cons_self)
      rw [cstr, h.head, if_neg hne0, ih h.tail (fun hm => h0 (List.mem_cons_of_mem c hm)) (Nat.lt_of_succ_lt_succ hn)]

theorem slice_eq (h : HasStr buf p (x ++ y)) : slice buf p (p + x.length) = x := by
  unfold slice
  rw [Nat.add_sub_cancel_left]
  refine List.ext_getElem (by simp) fun i h₁ h₂ => ?_
  rw [List.getElem_map, List.getElem_range, h i (by simp; omega), List.getD_append _ _ _ _ h₂,
    List.getD_eq_getElem _ _ h₂]

/-! ### What is written -/

/-- **The lines of `text` that match**, each with its newline. -/
def select (pattern text : List Byte) : List Byte :=
  (lines nl text).flatMap fun line => if match_ pattern line then line ++ [nl] else []

theorem select_cons (h : nl ∉ x) : select pattern (x ++ nl :: y) =
    (if match_ pattern x then x ++ [nl] else []) ++ select pattern y := by
  rw [select, lines_cons h, List.flatMap_cons]
  rfl

theorem select_of_not_mem (h : nl ∉ x) : select pattern x = [] := by
  rw [select, lines_of_not_mem h, List.flatMap_nil]

theorem select_append : select pattern (x ++ y) = select pattern x ++ select pattern (left nl x ++ y) := by
  rw [select, lines_append, List.flatMap_append]
  rfl

theorem scanLines_eq (pattern : List Byte) (h : HasStr buf p text) (h0 : 0 ∉ text) (hp : p + text.length < 1024)
    (hn : text.length < n) : ∃ buf' q, scanLines pattern n buf p = .ok (buf', q, select pattern text) ∧
      q + (left nl text).length = p + text.length ∧ HasStr buf' q (left nl text) := by
  induction text using lines_induction nl generalizing buf p n with
  | last x hx =>
    cases n with
    | zero => exact absurd hn (Nat.not_lt_zero _)
    | succ n =>
      refine ⟨buf, p, ?_, ?_⟩
      · rw [scanLines, strchr_none h h0 hx (by omega), select_of_not_mem hx]
        rfl
      · rw [left_of_not_mem hx]
        exact ⟨rfl, h⟩
  | line x y hx ih =>
    have hlen : (x ++ nl :: y).length = x.length + 1 + y.length := by
      rw [List.length_append, List.length_cons]
      omega
    have h0x : 0 ∉ x := fun hm => h0 (List.mem_append_left _ hm)
    have h0y : 0 ∉ y := fun hm => h0 (List.mem_append_right x (List.mem_cons_of_mem nl hm))
    have hrest : HasStr buf (p + x.length + 1) y := h.drop.tail
    cases n with
    | zero => exact absurd hn (Nat.not_lt_zero _)
    | succ n =>
      have hline : cstr (Function.update buf (p + x.length) 0) (1024 - p) p = x := cstr_eq h.cut h0x (by omega)
      rw [scanLines, strchr_some h h0x hx (by omega), select_cons hx, left_cons hx]
      simp only [bind, Except.bind, hline]
      by_cases hm : match_ pattern x = true
      · -- the newline is put back
        have hback : Function.update (Function.update buf (p + x.length) 0) (p + x.length) nl = buf := by
          rw [Function.update_idem]
          exact Function.update_eq_self_iff.2 h.drop.head.symm
        obtain ⟨buf', q, hscan, hq, hs⟩ := ih (n := n) hrest h0y (by omega) (by omega)
        have hslice : slice buf p (p + x.length + 1) = x ++ [nl] := by
          have : HasStr buf p ((x ++ [nl]) ++ y) := by rwa [List.append_assoc]
          simpa [Nat.add_assoc] using slice_eq this
        refine ⟨buf', q, ?_, by omega, hs⟩
        rw [if_pos hm, if_pos hm, hback, hscan, hslice]
      · obtain ⟨buf', q, hscan, hq, hs⟩ := ih (n := n) (hrest.congr fun i hi =>
          Function.update_of_ne (by omega : i ≠ p + x.length) 0 buf) h0y (by omega) (by omega)
        refine ⟨buf', q, ?_, by omega, hs⟩
        rw [if_neg hm, if_neg hm, hscan, List.nil_append]

/-! ### Pieces -/

/-- `read` gives a piece that is not empty and not longer than `grep` asks for, while `m` bytes are left in
the buffer. -/
def Fits : ℕ → List (List Byte) → Prop
  | _, [] => True
  | m, piece :: pieces => piece ≠ [] ∧ piece.length ≤ 1024 - m - 1 ∧
    Fits (if nl ∈ piece then (left nl piece).length else 0) pieces

/-- What is left in the buffer after a piece, if `carry` was there before. -/
def carried (carry piece : List Byte) : List Byte := if nl ∈ piece then left nl (carry ++ piece) else []

/-- **One turn of `grep`** writes the lines that match of the buffer, and keeps what is left if there was
a line. -/
theorem turn_eq (pattern : List Byte) (hcarry : ∀ i < carry.length, buf i = carry.getD i 0)
    (hnl : nl ∉ carry) (h0 : 0 ∉ carry ++ piece) (hlen : piece.length ≤ 1024 - carry.length - 1)
    (hle : carry.length < 1024) :
    ∃ buf', turn pattern piece buf carry.length =
      .ok (buf', (carried carry piece).length, select pattern (carry ++ piece)) ∧
      ∀ i < (carried carry piece).length, buf' i = (carried carry piece).getD i 0 := by
  have htext : (carry ++ piece).length = carry.length + piece.length := List.length_append
  have hstr : HasStr (Function.update
      (fun i => if carry.length ≤ i then piece.getD (i - carry.length) (buf i) else buf i)
      (carry.length + piece.length) 0) 0 (carry ++ piece) := by
    intro i hi
    rw [Nat.zero_add]
    by_cases hend : i = carry.length + piece.length
    · rw [hend, Function.update_self, List.getD_eq_default _ _ (by omega)]
    · rw [Function.update_of_ne hend]
      by_cases hi' : carry.length ≤ i
      · rw [if_pos hi', List.getD_append_right _ _ _ _ hi', List.getD_eq_getElem _ _ (by omega),
          List.getD_eq_getElem _ _ (by omega)]
      · rw [if_neg hi', List.getD_append _ _ _ _ (by omega), hcarry i (by omega)]
  obtain ⟨buf', q, hscan, hq, hs⟩ := scanLines_eq pattern (n := 1024) hstr h0 (by omega) (by omega)
  unfold turn carried
  rw [if_neg (by omega)]
  simp only [bind, Except.bind, hscan]
  by_cases hmem : nl ∈ piece
  · have hlt := length_left_lt (List.mem_append_right carry hmem)
    simp only [if_pos hmem, if_neg (by omega : q ≠ 0), if_pos (by omega : carry.length + piece.length > 0)]
    have hm : carry.length + piece.length - q = (left nl (carry ++ piece)).length := by omega
    refine ⟨_, by rw [hm], fun i hi => ?_⟩
    have hword : ∀ k : ℕ, k ≤ 1024 → (BitVec.ofNat 32 k).toNat = k := fun k hk => by
      rw [BitVec.toNat_ofNat, Nat.mod_eq_of_lt (by omega)]
    rw [Ulib.memmove_of_le (Nat.zero_le _) (by rw [hword _ (by omega), hword _ (by omega)]; omega)
      (by rw [hword _ (by omega)]; omega), hword _ (by omega), hword _ (by omega), moved,
      if_pos ⟨Nat.zero_le i, by simp; omega⟩]
    exact hs i (by omega)
  · have hnone : nl ∉ carry ++ piece := fun h => (List.mem_append.1 h).elim hnl hmem
    rw [left_of_not_mem hnone] at hq
    simp only [if_neg hmem, if_pos (by omega : q = 0)]
    exact ⟨buf', rfl, fun i hi => absurd hi (Nat.not_lt_zero i)⟩

def written (pattern : List Byte) : List Byte → List (List Byte) → List Byte
  | _, [] => []
  | carry, piece :: pieces => select pattern (carry ++ piece) ++ written pattern (carried carry piece) pieces

theorem not_mem_carried (carry piece : List Byte) : nl ∉ carried carry piece := by
  unfold carried
  split
  · exact not_mem_left
  · exact List.not_mem_nil

theorem length_carried (carry piece : List Byte) :
    (carried carry piece).length = if nl ∈ piece then (left nl piece).length else 0 := by
  unfold carried
  split
  · rename_i h
    rw [left_append_of_mem h]
  · rfl

theorem mem_of_mem_carried {c : Byte} (h : c ∈ carried carry piece) : c ∈ piece := by
  unfold carried at h
  split at h
  · rename_i hmem
    rw [left_append_of_mem hmem] at h
    exact mem_of_mem_left h
  · cases h

theorem grep_eq (hcarry : ∀ i < carry.length, buf i = carry.getD i 0) (hnl : nl ∉ carry) (h0 : 0 ∉ carry)
    (h0s : 0 ∉ pieces.flatten) (hfits : Fits carry.length pieces) :
    grep pattern pieces buf carry.length = .ok (written pattern carry pieces) := by
  induction pieces generalizing buf carry with
  | nil => rfl
  | cons piece pieces ih =>
    obtain ⟨hne, hlen, hfits⟩ := hfits
    rw [List.flatten_cons, List.mem_append, not_or] at h0s
    obtain ⟨h0p, h0s⟩ := h0s
    have hpos := List.length_pos_iff.2 hne
    have h0all : 0 ∉ carry ++ piece := fun h => (List.mem_append.1 h).elim h0 h0p
    obtain ⟨buf', hturn, hbuf'⟩ := turn_eq pattern hcarry hnl h0all hlen (by omega)
    rw [← length_carried carry] at hfits
    have hrest := ih hbuf' (not_mem_carried carry piece) (fun h => h0p (mem_of_mem_carried h)) h0s hfits
    rw [grep, if_neg hne]
    simp only [bind, Except.bind, hturn, hrest]
    rfl

/-! ### When the lines are whole -/

/-- Of pieces that hold a newline if a later one does, `grep` writes the lines that match. -/
theorem written_eq (hpieces : pieces.Pairwise fun a b => nl ∈ b → nl ∈ a) (hnl : nl ∉ carry) :
    written pattern carry pieces = select pattern (carry ++ pieces.flatten) := by
  induction pieces generalizing carry with
  | nil =>
    rw [List.flatten_nil, List.append_nil, select_of_not_mem hnl]
    rfl
  | cons piece pieces ih =>
    obtain ⟨hhead, htail⟩ := List.pairwise_cons.1 hpieces
    rw [written, ih htail (not_mem_carried carry piece), List.flatten_cons, ← List.append_assoc carry]
    by_cases hmem : nl ∈ piece
    · rw [select_append (x := carry ++ piece), carried, if_pos hmem]
    · -- there is no newline any more
      have hlater : nl ∉ pieces.flatten := by
        intro h
        obtain ⟨b, hb, hbmem⟩ := List.mem_flatten.1 h
        exact hmem (hhead b hb hbmem)
      have hnone : nl ∉ carry ++ piece := fun h => (List.mem_append.1 h).elim hnl hmem
      rw [carried, if_neg hmem, List.nil_append, select_of_not_mem hnone, select_of_not_mem hlater,
        select_of_not_mem fun h => (List.mem_append.1 h).elim hnone hlater]
      rfl

theorem match_nil (text : List Byte) : match_ [] text = true := by
  cases text with
  | nil => exact matchhere_nil
  | cons c text => exact if_pos matchhere_nil

theorem length_select_append (h : nl ∈ y) (hx : nl ∉ x) :
    (select [] (x ++ y)).length = x.length + (select [] y).length := by
  obtain ⟨z, w, rfl, hz⟩ := List.eq_append_cons_of_mem h
  have hxz : nl ∉ x ++ z := fun hm => (List.mem_append.1 hm).elim hx hz
  rw [← List.append_assoc, select_cons hxz, select_cons hz, match_nil, match_nil]
  simp only [if_true, List.length_append]
  omega

/-- Bytes are lost where a piece without a newline comes before one with a newline. -/
theorem length_written (hne : ∀ piece ∈ pieces, piece ≠ []) (hnl : nl ∉ carry) :
    (written [] carry pieces).length ≤ (select [] (carry ++ pieces.flatten)).length ∧
      (¬pieces.Pairwise (fun a b => nl ∈ b → nl ∈ a) →
        (written [] carry pieces).length < (select [] (carry ++ pieces.flatten)).length) := by
  induction pieces generalizing carry with
  | nil => exact ⟨Nat.zero_le _, fun h => absurd .nil h⟩
  | cons piece pieces ih =>
    obtain ⟨hle, hlt⟩ := ih (fun b hb => hne b (List.mem_cons_of_mem piece hb)) (not_mem_carried carry piece)
    rw [written, List.flatten_cons, ← List.append_assoc carry, List.length_append]
    by_cases hmem : nl ∈ piece
    · rw [select_append (x := carry ++ piece), List.length_append]
      rw [carried, if_pos hmem] at hle hlt ⊢
      refine ⟨by omega, fun h => ?_⟩
      have := hlt fun htail => h (List.pairwise_cons.2 ⟨fun _ _ _ => hmem, htail⟩)
      omega
    · have hnone : nl ∉ carry ++ piece := fun h => (List.mem_append.1 h).elim hnl hmem
      rw [carried, if_neg hmem, List.nil_append] at hle
      rw [carried, if_neg hmem, select_of_not_mem hnone, List.length_nil, Nat.zero_add]
      by_cases hlater : nl ∈ pieces.flatten
      · have hpos := List.length_pos_iff.2 (hne piece List.mem_cons_self)
        rw [length_select_append hlater hnone, List.length_append]
        exact ⟨by omega, fun _ => by omega⟩
      · rw [select_of_not_mem hlater] at hle
        refine ⟨by rw [List.length_eq_zero_iff.1 (Nat.le_zero.1 hle)]; exact Nat.zero_le _, fun h => absurd ?_ h⟩
        have hno : ∀ b ∈ pieces, nl ∉ b := fun b hb hmem => hlater (List.mem_flatten.2 ⟨b, hb, hmem⟩)
        refine List.pairwise_cons.2 ⟨fun b hb hmem => absurd hmem (hno b hb), ?_⟩
        exact List.pairwise_iff_forall_sublist.2 fun {a b} hab hb =>
          absurd hb (hno b (hab.subset (by simp)))

theorem Fits.ne_nil (h : Fits m pieces) : ∀ piece ∈ pieces, piece ≠ [] := by
  induction pieces generalizing m with
  | nil => nofun
  | cons piece pieces ih =>
    intro b hb
    rcases List.mem_cons.1 hb with rfl | hb
    · exact h.1
    · exact ih h.2.2 b hb

/-- **The lines that `grep` writes.** Whatever the pattern is, `grep` writes the lines that match, whole
and in order, if and only if each piece that `read` gives before a newline holds a newline itself. -/
theorem grep_lines_iff (h0 : 0 ∉ pieces.flatten) (hfits : Fits 0 pieces) :
    (∀ pattern, grep pattern pieces buf 0 = .ok (select pattern pieces.flatten)) ↔
      pieces.Pairwise fun a b => nl ∈ b → nl ∈ a := by
  have hgrep : ∀ pattern, grep pattern pieces buf ([] : List Byte).length = .ok (written pattern [] pieces) :=
    fun pattern => grep_eq nofun List.not_mem_nil List.not_mem_nil h0 hfits
  constructor
  · intro h
    by_contra hpieces
    have hlt := (length_written hfits.ne_nil List.not_mem_nil).2 hpieces
    rw [Except.ok.inj ((hgrep []).symm.trans (h []))] at hlt
    exact absurd hlt (Nat.lt_irrefl _)
  · intro h pattern
    exact (hgrep pattern).trans (by rw [written_eq h List.not_mem_nil, List.nil_append])

/-- Two lines come in two pieces, with the break inside of the second line. -/
theorem grep_lines_whole : grep [ch 'a'] [[ch 'a', nl, ch 'b'], [ch 'a', nl]] (fun _ => 0) 0 =
    .ok (select [ch 'a'] [[ch 'a', nl, ch 'b'], [ch 'a', nl]].flatten) := by
  have hfits : Fits 0 [[ch 'a', nl, ch 'b'], [ch 'a', nl]] :=
    ⟨by decide, by decide, by decide, by decide, trivial⟩
  exact (grep_lines_iff (by decide) hfits).2 (by decide) [ch 'a']

/-- The line `ab` comes in two pieces, and only `b` is written. -/
theorem grep_line_cut : grep [] [[ch 'a'], [ch 'b', nl]] (fun _ => 0) 0 = .ok [ch 'b', nl] ∧
    select [] [[ch 'a'], [ch 'b', nl]].flatten = [ch 'a', ch 'b', nl] := by
  have hselect : ∀ x, nl ∉ x → select [] (x ++ [nl]) = x ++ [nl] := fun x hx => by
    rw [select_cons hx, match_nil, if_pos rfl, select_of_not_mem List.not_mem_nil, List.append_nil]
  refine ⟨?_, hselect [ch 'a', ch 'b'] (by decide)⟩
  have hgrep : grep [] [[ch 'a'], [ch 'b', nl]] (fun _ => 0) ([] : List Byte).length = _ :=
    grep_eq nofun List.not_mem_nil List.not_mem_nil (by decide)
      ⟨by decide, by decide, by decide, by decide, trivial⟩
  have hcarried : carried [] [ch 'a'] = [] := by decide
  have hline : select [] ([] ++ [ch 'b', nl]) = [ch 'b', nl] := hselect [ch 'b'] (by decide)
  rw [written, written, written, hcarried, List.nil_append, select_of_not_mem (by decide), hline] at hgrep
  exact hgrep

end Xv6.Grep
