import Xv6.Shell.Code

/-!
# The tokens of a line

The token sequence of a line, and what `gettoken` and `peek` do in terms of it. The cursor stands for the
tokens that are still to come; blanks do not count.
-/

namespace Xv6.Shell

open Lib

structure Token where
  tok : Tok
  span : Span
  deriving DecidableEq

def blank (c : Byte) : Bool := strchr whitespace c

/-- A word is made of these. -/
def wordChar (c : Byte) : Bool := !strchr whitespace c && !strchr symbols c

/-- The token of one character. -/
def symbol (c : Byte) : Option Tok :=
  if c = ch '|' then some .pipe
  else if c = ch '(' then some .lpar
  else if c = ch ')' then some .rpar
  else if c = ch ';' then some .semi
  else if c = ch '&' then some .amp
  else if c = ch '<' then some .lt
  else if c = ch '>' then some .gt
  else none

/-- The tokens of at most `n` characters, the first one of which is at `i`: a symbol, where `>>` is one, or
as many characters as make up a word. -/
def lexN : ℕ → ℕ → List Byte → List Token
  | 0, _, _ => []
  | _, _, [] => []
  | n + 1, i, c :: l =>
    if blank c then lexN n (i + 1) l
    else match symbol c with
      | some .gt =>
        if l.head? = some (ch '>') then ⟨.gtgt, ⟨i, i + 2⟩⟩ :: lexN n (i + 2) l.tail
        else ⟨.gt, ⟨i, i + 1⟩⟩ :: lexN n (i + 1) l
      | some k => ⟨k, ⟨i, i + 1⟩⟩ :: lexN n (i + 1) l
      | none => ⟨.word, ⟨i, i + ((c :: l).takeWhile wordChar).length⟩⟩ ::
          lexN n (i + ((c :: l).takeWhile wordChar).length) ((c :: l).dropWhile wordChar)

def lex (i : ℕ) (l : List Byte) : List Token := lexN l.length i l

def tokens (s : List Byte) : List Token := lex 0 s

variable {s l : List Byte} {c : Byte} {i n : ℕ} {ts : List Token}

/-! ### One token after the other -/

theorem lexN_nil (n i : ℕ) : lexN n i [] = [] := by cases n <;> rfl

theorem symbol_of_blank (h : blank c = true) : symbol c = none := by
  have hmem : c ∈ whitespace := by simpa [blank, strchr] using h
  have hall : ∀ c ∈ whitespace, symbol c = none := by decide
  exact hall c hmem

theorem symbol_ne_none (h : c ∈ symbols) : symbol c ≠ none := by
  have hall : ∀ c ∈ symbols, symbol c ≠ none := by decide
  exact hall c h

theorem wordChar_of (hb : ¬ blank c = true) (hs : symbol c = none) : wordChar c = true := by
  have hnot : strchr symbols c = false := by
    by_contra h
    exact symbol_ne_none (by simpa [strchr] using h) hs
  unfold wordChar
  rw [hnot]
  simpa [blank] using hb

theorem length_dropWhile_le (p : Byte → Bool) (l : List Byte) : (l.dropWhile p).length ≤ l.length :=
  (List.dropWhile_sublist p).length_le

/-- More characters than there are make no difference. -/
theorem lexN_of_le (h : l.length ≤ n) (i : ℕ) : lexN n i l = lex i l := by
  unfold lex
  induction hk : l.length using Nat.strong_induction_on generalizing n i l with
  | _ k ih =>
    subst hk
    cases l with
    | nil => rw [lexN_nil, lexN_nil]
    | cons c l =>
      cases n with
      | zero => simp at h
      | succ n =>
        rw [List.length_cons] at h ih ⊢
        have hsame : ∀ j (l' : List Byte), l'.length ≤ l.length → lexN n j l' = lexN l.length j l' := by
          intro j l' hl'
          rw [ih l'.length (by omega) (n := n) (by omega) j rfl, ih l'.length (by omega) hl' j rfl]
        have hdrop : ∀ p : Byte → Bool, p c = true → ((c :: l).dropWhile p).length ≤ l.length := by
          intro p hp
          rw [List.dropWhile_cons_of_pos hp]
          exact length_dropWhile_le p l
        simp only [lexN]
        by_cases hb : blank c
        · rw [if_pos hb, if_pos hb, hsame _ _ le_rfl]
        · rw [if_neg hb, if_neg hb]
          cases hs : symbol c with
          | none => rw [hsame _ _ (hdrop _ (wordChar_of hb hs))]
          | some k =>
            cases k with
            | gt =>
              dsimp only
              rw [hsame _ _ le_rfl, hsame _ l.tail (by simp)]
            | _ => rw [hsame _ _ le_rfl]

theorem lex_blank (h : blank c = true) : lex i (c :: l) = lex (i + 1) l := by
  unfold lex
  rw [List.length_cons, lexN, if_pos h]

theorem lex_word (hb : ¬ blank c = true) (hs : symbol c = none) :
    lex i (c :: l) = ⟨.word, ⟨i, i + ((c :: l).takeWhile wordChar).length⟩⟩ ::
      lex (i + ((c :: l).takeWhile wordChar).length) ((c :: l).dropWhile wordChar) := by
  have hle : ((c :: l).dropWhile wordChar).length ≤ l.length := by
    rw [List.dropWhile_cons_of_pos (wordChar_of hb hs)]
    exact length_dropWhile_le _ l
  rw [← lexN_of_le hle]
  conv_lhs => rw [lex, List.length_cons, lexN, if_neg hb, hs]

theorem lex_gtgt (h : l.head? = some (ch '>')) :
    lex i (ch '>' :: l) = ⟨.gtgt, ⟨i, i + 2⟩⟩ :: lex (i + 2) l.tail := by
  rw [← lexN_of_le (l := l.tail) (n := l.length) (by simp) (i + 2)]
  conv_lhs => rw [lex, List.length_cons, lexN, if_neg (by decide), show symbol (ch '>') = some .gt by decide]
  exact if_pos h

theorem lex_symbol {k : Tok} (hs : symbol c = some k) (hk : k = .gt → l.head? ≠ some (ch '>')) :
    lex i (c :: l) = ⟨k, ⟨i, i + 1⟩⟩ :: lex (i + 1) l := by
  have hb : ¬ blank c = true := fun hb => by
    rw [symbol_of_blank hb] at hs
    cases hs
  conv_lhs => rw [lex, List.length_cons, lexN, if_neg hb, hs]
  cases k with
  | gt => exact if_neg (hk rfl)
  | _ => rfl

/-- The character that a token begins with, unless it is a word. -/
def Tok.char : Tok → Option Byte
  | .pipe => some (ch '|')
  | .lpar => some (ch '(')
  | .rpar => some (ch ')')
  | .semi => some (ch ';')
  | .amp => some (ch '&')
  | .lt => some (ch '<')
  | .gt => some (ch '>')
  | .gtgt => some (ch '>')
  | .eof => none
  | .word => none

theorem char_of_symbol {k : Tok} (h : symbol c = some k) : k.char = some c := by
  unfold symbol at h
  split_ifs at h with h₁ h₂ h₃ h₄ h₅ h₆ h₇ <;> cases h
  · exact congrArg some h₁.symm
  · exact congrArg some h₂.symm
  · exact congrArg some h₃.symm
  · exact congrArg some h₄.symm
  · exact congrArg some h₅.symm
  · exact congrArg some h₆.symm
  · exact congrArg some h₇.symm

theorem lex_induct {motive : ℕ → List Byte → List Token → Prop} (nil : ∀ i, motive i [] [])
    (blanks : ∀ i c l, blank c = true → motive (i + 1) l (lex (i + 1) l) → motive i (c :: l) (lex (i + 1) l))
    (word : ∀ i c l, wordChar c = true →
      motive (i + ((c :: l).takeWhile wordChar).length) ((c :: l).dropWhile wordChar)
        (lex (i + ((c :: l).takeWhile wordChar).length) ((c :: l).dropWhile wordChar)) →
      motive i (c :: l) (⟨.word, ⟨i, i + ((c :: l).takeWhile wordChar).length⟩⟩ ::
        lex (i + ((c :: l).takeWhile wordChar).length) ((c :: l).dropWhile wordChar)))
    (gtgt : ∀ i l, l.head? = some (ch '>') → motive (i + 2) l.tail (lex (i + 2) l.tail) →
      motive i (ch '>' :: l) (⟨.gtgt, ⟨i, i + 2⟩⟩ :: lex (i + 2) l.tail))
    (sym : ∀ i c l k, symbol c = some k → motive (i + 1) l (lex (i + 1) l) →
      motive i (c :: l) (⟨k, ⟨i, i + 1⟩⟩ :: lex (i + 1) l)) :
    ∀ i l, motive i l (lex i l) := by
  intro i l
  induction hn : l.length using Nat.strong_induction_on generalizing i l with
  | _ n ih =>
    subst hn
    cases l with
    | nil => exact nil i
    | cons c l =>
      rw [List.length_cons] at ih
      by_cases hb : blank c = true
      · rw [lex_blank hb]
        exact blanks i c l hb (ih l.length (by omega) (i + 1) l rfl)
      · cases hs : symbol c with
        | none =>
          have hle : ((c :: l).dropWhile wordChar).length ≤ l.length := by
            rw [List.dropWhile_cons_of_pos (wordChar_of hb hs)]
            exact length_dropWhile_le _ l
          rw [lex_word hb hs]
          exact word i c l (wordChar_of hb hs) (ih _ (by omega) _ _ rfl)
        | some k =>
          by_cases hgt : k = .gt ∧ l.head? = some (ch '>')
          · obtain ⟨rfl, hhead⟩ := hgt
            have htail : l.tail.length ≤ l.length := by simp
            rw [← Option.some.inj (char_of_symbol hs), lex_gtgt hhead]
            exact gtgt i l hhead (ih l.tail.length (by omega) (i + 2) l.tail rfl)
          · rw [lex_symbol hs fun hk hhead => hgt ⟨hk, hhead⟩]
            exact sym i c l k hs (ih l.length (by omega) (i + 1) l rfl)

/-- There are not more tokens than characters. -/
theorem length_lex_le (i : ℕ) (l : List Byte) : (lex i l).length ≤ l.length := by
  induction i, l using lex_induct with
  | nil i => exact Nat.zero_le _
  | blanks i c l hb ih => exact Nat.le_succ_of_le ih
  | word i c l hw ih =>
    rw [List.dropWhile_cons_of_pos hw] at ih ⊢
    have := length_dropWhile_le wordChar l
    simp only [List.length_cons] at ih ⊢
    omega
  | gtgt i l hhead ih =>
    rw [List.length_tail] at ih
    simp only [List.length_cons]
    omega
  | sym i c l k hs ih =>
    simp only [List.length_cons]
    omega

/-! ### The cursor -/

/-- The buffer with the line `s`. -/
abbrev bufOf (s : List Byte) : List Byte := s ++ [0]

theorem drop_of_lt (h : i < s.length) : s.drop i = charAt (bufOf s) i :: s.drop (i + 1) := by
  have hget : charAt (bufOf s) i = s[i] := by
    unfold charAt bufOf
    rw [List.getD_eq_getElem?_getD, List.getElem?_append_left h, List.getElem?_eq_getElem h, Option.getD_some]
  rw [hget, List.drop_eq_getElem_cons h]

theorem charAt_end (s : List Byte) : charAt (bufOf s) s.length = 0 := by
  unfold charAt bufOf
  simp

theorem charAt_ne_zero (h0 : 0 ∉ s) (h : i < s.length) : charAt (bufOf s) i ≠ 0 := by
  have hmem : charAt (bufOf s) i ∈ s.drop i := by
    rw [drop_of_lt h]
    exact List.mem_cons_self
  intro heq
  rw [heq] at hmem
  exact h0 (List.mem_of_mem_drop hmem)

theorem strlen_bufOf (h0 : 0 ∉ s) : strlen (bufOf s) = s.length := by
  have hall : ∀ c ∈ s, decide (c ≠ 0) = true := by
    intro c hc
    simp only [ne_eq, decide_eq_true_eq]
    rintro rfl
    exact h0 hc
  unfold strlen bufOf
  rw [List.takeWhile_append_of_pos hall]
  simp

/-- `scan` goes to the end of the characters that have the property. -/
theorem scan_eq (p : Byte → Bool) (h : i ≤ s.length) :
    scan p (bufOf s) s.length i = i + ((s.drop i).takeWhile p).length := by
  unfold scan
  induction hn : s.length - i generalizing i with
  | zero => rw [show i = s.length by omega, List.drop_length]; rfl
  | succ n ih =>
    have hi : i < s.length := by omega
    rw [scanN, drop_of_lt hi]
    by_cases hp : p (charAt (bufOf s) i) = true
    · rw [if_pos hp, ih (by omega) (by omega), List.takeWhile_cons_of_pos hp, List.length_cons]
      omega
    · rw [if_neg hp, List.takeWhile_cons_of_neg hp]
      rfl

theorem drop_takeWhile (p : Byte → Bool) (l : List Byte) : l.drop (l.takeWhile p).length = l.dropWhile p := by
  induction l with
  | nil => rfl
  | cons c l ih =>
    by_cases hp : p c = true
    · rw [List.takeWhile_cons_of_pos hp, List.dropWhile_cons_of_pos hp, List.length_cons, List.drop_succ_cons, ih]
    · rw [List.takeWhile_cons_of_neg hp, List.dropWhile_cons_of_neg hp]
      rfl

theorem drop_scan (p : Byte → Bool) (h : i ≤ s.length) :
    s.drop (scan p (bufOf s) s.length i) = (s.drop i).dropWhile p := by
  rw [scan_eq p h, ← List.drop_drop, drop_takeWhile]

theorem scan_le (p : Byte → Bool) (h : i ≤ s.length) : scan p (bufOf s) s.length i ≤ s.length := by
  have hle := (List.takeWhile_sublist p (l := s.drop i)).length_le
  rw [List.length_drop] at hle
  rw [scan_eq p h]
  omega

/-- The cursor is in the line, and the tokens `ts` are still to come. -/
def Here (s : List Byte) (ts : List Token) (i : ℕ) : Prop := i ≤ s.length ∧ lex i (s.drop i) = ts

theorem here_zero (s : List Byte) : Here s (tokens s) 0 := ⟨Nat.zero_le _, rfl⟩

theorem Here.skip (h : Here s ts i) : Here s ts (scan (strchr whitespace) (bufOf s) s.length i) := by
  obtain ⟨hi, hlex⟩ := h
  refine ⟨scan_le _ hi, ?_⟩
  rw [drop_scan _ hi, scan_eq _ hi, ← hlex]
  generalize s.drop i = l
  clear hlex hi
  induction l generalizing i with
  | nil => rfl
  | cons c l ih =>
    by_cases hb : strchr whitespace c = true
    · rw [List.takeWhile_cons_of_pos hb, List.dropWhile_cons_of_pos hb, lex_blank hb, ← ih (i := i + 1),
        List.length_cons, Nat.add_right_comm, Nat.add_assoc]
    · rw [List.takeWhile_cons_of_neg hb, List.dropWhile_cons_of_neg hb]
      rfl

theorem skip_cases (hi : i ≤ s.length) :
    scan (strchr whitespace) (bufOf s) s.length i = s.length ∨
      scan (strchr whitespace) (bufOf s) s.length i < s.length ∧
        ¬ blank (charAt (bufOf s) (scan (strchr whitespace) (bufOf s) s.length i)) = true := by
  have hle := scan_le (strchr whitespace) hi
  by_cases hlt : scan (strchr whitespace) (bufOf s) s.length i < s.length
  · refine .inr ⟨hlt, fun hb => ?_⟩
    have hdrop := drop_scan (strchr whitespace) hi
    rw [drop_of_lt hlt] at hdrop
    have hhead := List.head?_dropWhile_not (strchr whitespace) (s.drop i)
    rw [← hdrop] at hhead
    simp only [List.head?_cons] at hhead
    rw [show strchr whitespace _ = true from hb] at hhead
    cases hhead
  · exact .inl (by omega)

theorem token_eq (buf : List Byte) (es i : ℕ) (h : charAt buf i ≠ 0) : token buf es i =
    match symbol (charAt buf i) with
    | some .gt => if charAt buf (i + 1) = ch '>' then (.gtgt, i + 2) else (.gt, i + 1)
    | some k => (k, i + 1)
    | none => (.word, scan wordChar buf es i) := by
  unfold token symbol
  dsimp only
  rw [if_neg h]
  split_ifs <;> rfl

/-- The character behind the cursor, in the buffer and in the line. -/
theorem head?_drop (h : i ≤ s.length) :
    (s.drop i).head? = some (ch '>') ↔ charAt (bufOf s) i = ch '>' := by
  by_cases hi : i < s.length
  · rw [drop_of_lt hi, List.head?_cons, Option.some_inj]
  · rw [show i = s.length by omega, List.drop_length, charAt_end]
    constructor <;> intro h <;> revert h <;> decide

/-- The token at the cursor: it is a word, or its first character tells what it is. -/
theorem token_spec (h0 : 0 ∉ s) (h : Here s ts i) (hi : i < s.length) (hb : ¬ blank (charAt (bufOf s) i) = true) :
    ∃ k e ts', token (bufOf s) s.length i = (k, e) ∧ ts = ⟨k, ⟨i, e⟩⟩ :: ts' ∧ Here s ts' e ∧
      (symbol (charAt (bufOf s) i) = none ∧ k = .word ∨ k.char = some (charAt (bufOf s) i)) := by
  obtain ⟨-, hlex⟩ := h
  rw [drop_of_lt hi] at hlex
  rw [token_eq _ _ _ (charAt_ne_zero h0 hi)]
  cases hs : symbol (charAt (bufOf s) i) with
  | none =>
    rw [lex_word hb hs, ← drop_of_lt hi] at hlex
    refine ⟨_, _, _, rfl, ?_, ⟨scan_le _ hi.le, rfl⟩, .inl ⟨rfl, rfl⟩⟩
    rw [drop_scan _ hi.le, scan_eq _ hi.le, ← hlex]
  | some k =>
    have hchar := char_of_symbol hs
    by_cases hgt : k = .gt ∧ charAt (bufOf s) (i + 1) = ch '>'
    · obtain ⟨rfl, hnext⟩ := hgt
      rw [← Option.some.inj hchar, lex_gtgt ((head?_drop hi).2 hnext), List.tail_drop] at hlex
      have hi1 : i + 1 < s.length := by
        by_contra hge
        rw [show i + 1 = s.length by omega, charAt_end] at hnext
        revert hnext
        decide
      dsimp only
      rw [if_pos hnext]
      exact ⟨_, _, _, rfl, hlex.symm, ⟨hi1, rfl⟩, .inr hchar⟩
    · rw [lex_symbol hs fun hk hhead => hgt ⟨hk, (head?_drop hi).1 hhead⟩] at hlex
      refine ⟨k, i + 1, _, ?_, hlex.symm, ⟨hi, rfl⟩, .inr hchar⟩
      cases k with
      | gt => exact if_neg fun hnext => hgt ⟨rfl, hnext⟩
      | _ => rfl

theorem here_end (h : Here s ts s.length) : ts = [] := by
  rw [← h.2, List.drop_length]
  rfl

/-! ### `gettoken` and `peek` -/

/-- The next one of the tokens `ts` has been taken. -/
def Taken (s : List Byte) (r : Tok × Span) (i : ℕ) : List Token → Prop
  | [] => r.1 = .eof ∧ Here s [] i
  | t :: ts => r = (t.tok, t.span) ∧ r.1 ≠ .eof ∧ Here s ts i

/-- **`gettoken` gives the next token.** At the end it gives 0, and stays there. -/
theorem gettoken_spec (h0 : 0 ∉ s) (ts : List Token) :
    Prog.Triple (Here s ts) (gettoken (bufOf s) s.length) fun r i => Taken s r i ts := by
  intro i hi
  have hskip := hi.skip
  obtain ⟨q, hq⟩ : ∃ q, q = scan (strchr whitespace) (bufOf s) s.length i := ⟨_, rfl⟩
  have heval : (gettoken (bufOf s) s.length).eval i =
      (.ok ((token (bufOf s) s.length q).1, ⟨q, (token (bufOf s) s.length q).2⟩),
        scan (strchr whitespace) (bufOf s) s.length (token (bufOf s) s.length q).2) := by
    rw [hq]
    rfl
  refine ⟨_, _, heval, ?_⟩
  have hcases := skip_cases hi.1
  rw [← hq] at hskip hcases
  rcases hcases with rfl | ⟨hlt, hb⟩
  · obtain rfl := here_end hskip
    have htok : token (bufOf s) s.length s.length = (.eof, s.length) := by
      unfold token
      rw [charAt_end]
      rfl
    rw [htok]
    exact ⟨rfl, hskip.skip⟩
  · obtain ⟨k, e, ts', htok, rfl, hhere, hchar⟩ := token_spec h0 hskip hlt hb
    rw [htok]
    refine ⟨rfl, ?_, hhere.skip⟩
    rintro (rfl : k = .eof)
    rcases hchar with ⟨-, hk⟩ | hk
    · cases hk
    · cases hk

/-- The token begins with one of the characters. -/
def Tok.starts (toks : List Byte) (k : Tok) : Bool := (k.char.map (strchr toks)).getD false

/-- The next token begins with one of the characters. -/
def begins (toks : List Byte) : List Token → Bool
  | [] => false
  | t :: _ => t.tok.starts toks

/-- **`peek` looks at the next token.** -/
theorem peek_spec (h0 : 0 ∉ s) (ts : List Token) {toks : List Byte} (htoks : toks ⊆ symbols) :
    Prog.Triple (Here s ts) (peek (bufOf s) s.length toks) fun b i => b = begins toks ts ∧ Here s ts i := by
  intro i hi
  have hskip := hi.skip
  obtain ⟨q, hq⟩ : ∃ q, q = scan (strchr whitespace) (bufOf s) s.length i := ⟨_, rfl⟩
  have heval : (peek (bufOf s) s.length toks).eval i =
      (.ok (charAt (bufOf s) q != 0 && strchr toks (charAt (bufOf s) q)), q) := by
    rw [hq]
    rfl
  have hcases := skip_cases hi.1
  rw [← hq] at hskip hcases
  refine ⟨_, _, heval, ?_, hskip⟩
  rcases hcases with rfl | ⟨hlt, hb⟩
  · obtain rfl := here_end hskip
    rw [charAt_end]
    rfl
  · obtain ⟨k, e, ts', -, rfl, -, hchar⟩ := token_spec h0 hskip hlt hb
    have hne : (charAt (bufOf s) q != 0) = true := by simpa using charAt_ne_zero h0 hlt
    rw [hne, Bool.true_and]
    rcases hchar with ⟨hs, rfl⟩ | hk
    · show strchr toks _ = false
      by_contra hc
      exact symbol_ne_none (htoks (by simpa [strchr] using hc)) hs
    · show _ = (k.char.map (strchr toks)).getD false
      rw [hk]
      rfl

theorem eval_peek_nil (h0 : 0 ∉ s) (h : Here s ts i) :
    ∃ b q, (peek (bufOf s) s.length []).eval i = (.ok b, q) ∧ (q = s.length ↔ ts = []) := by
  have hskip := h.skip
  refine ⟨_, _, rfl, ?_⟩
  rcases skip_cases h.1 with hend | ⟨hlt, hb⟩
  · rw [hend] at hskip
    exact ⟨fun _ => here_end hskip, fun _ => hend⟩
  · obtain ⟨k, e, ts', -, rfl, -, -⟩ := token_spec h0 hskip hlt hb
    exact ⟨fun hq => absurd hq hlt.ne, nofun⟩

theorem gettoken_nil (h0 : 0 ∉ s) :
    Prog.Triple (Here s []) (gettoken (bufOf s) s.length) fun r i => r.1 = .eof ∧ Here s [] i :=
  gettoken_spec h0 []

theorem gettoken_cons (h0 : 0 ∉ s) (t : Token) (ts : List Token) :
    Prog.Triple (Here s (t :: ts)) (gettoken (bufOf s) s.length) fun r i =>
      r = (t.tok, t.span) ∧ t.tok ≠ .eof ∧ Here s ts i := by
  refine (gettoken_spec h0 (t :: ts)).weaken (fun _ h => h) fun r i hr => ?_
  obtain ⟨rfl, hne, hhere⟩ := hr
  exact ⟨rfl, hne, hhere⟩

theorem exists_of_begins {toks : List Byte} (h : begins toks ts = true) :
    ∃ t ts', ts = t :: ts' ∧ t.tok.starts toks = true := by
  cases ts with
  | nil => cases h
  | cons t ts' => exact ⟨t, ts', rfl, h⟩

end Xv6.Shell
