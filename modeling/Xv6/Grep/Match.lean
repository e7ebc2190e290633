import Xv6.Basic
import Xv6.Lib.Bytes
import Xv6.Lib.Lang

/-!
# `grep.c`: the regular expression matcher

A string is the list of its characters; the NUL is what is read behind them.
-/

namespace Xv6.Grep

open Lib Computability

/-- `*s`. -/
def cur (s : List Byte) : Byte := s.headD 0

@[simp] theorem cur_cons {c : Byte} {s : List Byte} : cur (c :: s) = c := rfl

theorem ne_nil_of_cur {s : List Byte} (h : cur s ≠ 0) : s ≠ [] := by
  rintro rfl
  exact h rfl

/-! ### The code -/

mutual
def matchhere (re text : List Byte) : Bool :=
  if cur re = 0 then true
  else if cur re.tail = ch '*' then matchstar (cur re) re.tail.tail text
  else if cur re = ch '$' ∧ cur re.tail = 0 then cur text = 0
  else if cur text ≠ 0 ∧ (cur re = ch '.' ∨ cur re = cur text) then matchhere re.tail text.tail
  else false
termination_by (re.length, 0, text.length)
decreasing_by
  all_goals
    have := List.length_pos_iff.2 (ne_nil_of_cur ‹¬cur re = 0›)
    simp only [List.length_tail]
    exact Prod.Lex.left _ _ (by omega)

def matchstar (c : Byte) (re text : List Byte) : Bool :=
  if matchhere re text then true
  else if cur text ≠ 0 ∧ (cur text = c ∨ c = ch '.') then matchstar c re text.tail
  else false
termination_by (re.length, 1, text.length)
decreasing_by
  · exact Prod.Lex.right _ (Prod.Lex.left _ _ Nat.zero_lt_one)
  · rename_i h
    have := List.length_pos_iff.2 (ne_nil_of_cur h.1)
    simp only [List.length_tail]
    exact Prod.Lex.right _ (Prod.Lex.right _ (by omega))
end

/-- The loop of `match`. -/
def matchFrom (re : List Byte) : List Byte → Bool
  | [] => matchhere re []
  | c :: text => if matchhere re (c :: text) then true else if c ≠ 0 then matchFrom re text else false

def match_ (re text : List Byte) : Bool :=
  if cur re = ch '^' then matchhere re.tail text else matchFrom re text

/-! ### The language of a pattern -/

/-- The words that a character of the pattern stands for. -/
def symbol (c : Byte) : Language Byte := letter fun x => c = ch '.' ∨ x = c

/-- The language of a pattern. A `$` at its end stands for the empty word here. -/
def language : List Byte → Language Byte
  | [] => 1
  | [c] => if c = ch '$' then 1 else symbol c
  | c :: d :: re => if d = ch '*' then (symbol c)∗ * language re else symbol c * language (d :: re)

/-- The pattern ends with a `$` that stands for the end of the text. -/
def toEnd : List Byte → Bool
  | [] => false
  | [c] => c = ch '$'
  | _ :: d :: re => if d = ch '*' then toEnd re else toEnd (d :: re)

/-! ### The branches of the code -/

variable {c d : Byte} {re text : List Byte} {P : List Byte → Prop}

/-- The character `c` of the pattern stands for the next one of the text. -/
def Reads (c : Byte) (text : List Byte) : Prop := cur text ≠ 0 ∧ (c = ch '.' ∨ c = cur text)

theorem matchhere_nil : matchhere [] text = true := by
  rw [matchhere]
  rfl

theorem matchhere_star (hc : c ≠ 0) : matchhere (c :: ch '*' :: re) text = matchstar c re text := by
  rw [matchhere]
  simp only [cur_cons, List.tail_cons, hc, if_true, if_false]

theorem matchhere_end : matchhere [ch '$'] text = true ↔ cur text = 0 := by
  rw [matchhere, if_neg (by decide), if_neg (by decide), if_pos ⟨rfl, rfl⟩, decide_eq_true_iff]

/-- A character that is not followed by `*`, and not a `$` at the end. -/
theorem matchhere_cons (hc : c ≠ 0) (hstar : cur re ≠ ch '*') (hend : ¬(c = ch '$' ∧ cur re = 0)) :
    matchhere (c :: re) text = true ↔ Reads c text ∧ matchhere re text.tail = true := by
  rw [matchhere, if_neg (show cur (c :: re) ≠ 0 from hc), if_neg (show cur (c :: re).tail ≠ ch '*' from hstar),
    if_neg (show ¬(cur (c :: re) = ch '$' ∧ cur (c :: re).tail = 0) from hend)]
  split
  · rename_i h
    exact (and_iff_right h).symm
  · rename_i h
    exact iff_of_false Bool.false_ne_true fun hm => h hm.1

theorem matchstar_eq : matchstar c re text = true ↔
    matchhere re text = true ∨ Reads c text ∧ matchstar c re text.tail = true := by
  rw [matchstar]
  simp only [Bool.if_false_right, Bool.if_true_left, Bool.or_eq_true, Bool.and_eq_true, decide_eq_true_iff, Reads,
    eq_comm (a := cur text), or_comm (a := c = cur text)]

/-! ### The matcher finds the language -/

theorem cur_eq_zero (ht : 0 ∉ text) : cur text = 0 ↔ text = [] := by
  cases text with
  | nil => exact iff_of_true rfl rfl
  | cons x text =>
    refine iff_of_false (fun hx => ht ?_) (List.cons_ne_nil x text)
    rw [← show x = 0 from hx]
    exact List.mem_cons_self

theorem before_symbol (ht : 0 ∉ text) : Before (symbol c) P text ↔ Reads c text ∧ P text.tail := by
  unfold symbol
  rw [before_letter]
  constructor
  · rintro ⟨x, rest, rfl, hc, hP⟩
    exact ⟨⟨fun hx => ht (hx ▸ List.mem_cons_self), hc.imp_right Eq.symm⟩, hP⟩
  · rintro ⟨⟨hx, hc⟩, hP⟩
    cases text with
    | nil => exact absurd rfl hx
    | cons x text => exact ⟨x, text, rfl, hc.imp_right Eq.symm, hP⟩

/-- `matchstar` tries one more character until `matchhere` finds the rest of the pattern. -/
theorem matchstar_iff (hf : ∀ rest, 0 ∉ rest → (matchhere re rest = true ↔ P rest)) (ht : 0 ∉ text) :
    matchstar c re text = true ↔ Before (symbol c)∗ P text := by
  induction text with
  | nil =>
    have hreads : ¬Reads c [] := fun h => h.1 rfl
    rw [matchstar_eq, before_kstar, before_symbol ht, hf _ ht]
    simp only [hreads, false_and]
  | cons x text ih =>
    have htail : 0 ∉ text := fun h => ht (List.mem_cons_of_mem x h)
    rw [matchstar_eq, before_kstar, before_symbol ht, hf _ ht, List.tail_cons, ih htail]

/-- **`matchhere`**: a word of the pattern is at the front of the text. -/
theorem matchhere_iff (hre : 0 ∉ re) (ht : 0 ∉ text) :
    matchhere re text = true ↔ Before (language re) (fun rest => toEnd re = true → rest = []) text := by
  induction re using language.induct generalizing text with
  | case1 =>
    rw [matchhere_nil, language, before_one]
    exact iff_of_true rfl nofun
  | case2 =>
    rw [matchhere_end, cur_eq_zero ht, language, if_pos rfl, before_one]
    exact ⟨fun h _ => h, fun h => h (by decide)⟩
  | case3 c hend =>
    have hc : c ≠ 0 := fun h => hre (h ▸ List.mem_cons_self)
    rw [matchhere_cons hc (by decide) fun h => hend h.1, language, if_neg hend, before_symbol ht]
    refine and_congr_right fun _ => iff_of_true matchhere_nil fun h => ?_
    exact absurd (of_decide_eq_true h) hend
  | case4 c re ih =>
    have hc : c ≠ 0 := fun h => hre (h ▸ List.mem_cons_self)
    have hre' : 0 ∉ re := fun h => hre (List.mem_cons_of_mem c (List.mem_cons_of_mem _ h))
    rw [matchhere_star hc, matchstar_iff (fun rest hrest => ih hre' hrest) ht, language, if_pos rfl, before_mul]
    rfl
  | case5 c d re hstar ih =>
    have hc : c ≠ 0 := fun h => hre (h ▸ List.mem_cons_self)
    have hre' : 0 ∉ d :: re := fun h => hre (List.mem_cons_of_mem c h)
    have hd : d ≠ 0 := fun h => hre' (h ▸ List.mem_cons_self)
    have htail : 0 ∉ text.tail := fun h => ht (List.mem_of_mem_tail h)
    have hstar' : cur (d :: re) ≠ ch '*' := hstar
    have hend : ¬(c = ch '$' ∧ cur (d :: re) = 0) := fun h => hd h.2
    rw [matchhere_cons hc hstar' hend, language, if_neg hstar, before_mul, before_symbol ht,
      ih hre' htail]
    simp only [toEnd, if_neg hstar]

/-- The loop of `match` tries every suffix. -/
theorem matchFrom_iff {P : List Byte → Prop} (hf : ∀ rest, 0 ∉ rest → (matchhere re rest = true ↔ P rest))
    (ht : 0 ∉ text) : matchFrom re text = true ↔ ∃ s, s <:+ text ∧ P s := by
  induction text with
  | nil =>
    rw [matchFrom, hf _ ht]
    exact ⟨fun h => ⟨[], List.suffix_rfl, h⟩, fun ⟨s, hs, h⟩ => List.suffix_nil.1 hs ▸ h⟩
  | cons x text ih =>
    have hx : x ≠ 0 := fun h => ht (h ▸ List.mem_cons_self)
    have htail : 0 ∉ text := fun h => ht (List.mem_cons_of_mem x h)
    simp only [matchFrom, hx, ne_eq, not_false_eq_true, if_true, Bool.if_true_left, Bool.or_eq_true,
      decide_eq_true_iff, hf _ ht, ih htail, List.suffix_cons_iff, or_and_right, exists_or, exists_eq_left]

/-- **The matcher.** `match` ends, and finds a pattern in a text if and only if a word of its language is
at the front of a suffix of the text, or of the text itself if the pattern starts with `^`; a `$` at the
end of the pattern stands for the end of the text. -/
theorem match_iff (hre : 0 ∉ re) (ht : 0 ∉ text) :
    match_ re text = true ↔
      if cur re = ch '^' then
        ∃ w rest, text = w ++ rest ∧ w ∈ language re.tail ∧ (toEnd re.tail = true → rest = [])
      else
        ∃ s, s <:+ text ∧ ∃ w rest, s = w ++ rest ∧ w ∈ language re ∧ (toEnd re = true → rest = []) := by
  unfold match_
  split
  · exact matchhere_iff (fun h => hre (List.mem_of_mem_tail h)) ht
  · exact matchFrom_iff (fun rest hrest => matchhere_iff hre hrest) ht

/-- The pattern `^a` in the text `ab`. -/
theorem match_iff_ab : match_ [ch '^', ch 'a'] [ch 'a', ch 'b'] = true := by
  rw [match_iff (by decide) (by decide), if_pos cur_cons]
  refine ⟨[ch 'a'], [ch 'b'], rfl, ?_, by decide⟩
  rw [List.tail_cons, language, if_neg (by decide)]
  exact ⟨ch 'a', .inr rfl, rfl⟩

end Xv6.Grep
