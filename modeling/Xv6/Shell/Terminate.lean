import Xv6.Shell.Grammar
import Mathlib.Data.List.TakeWhile

/-!
# The strings of a command

`nulterminate` writes a NUL at the end of each word of a command, into the line itself. A word ends where
there is a character that is in no word, so that each string is the word that was read.
-/

namespace Xv6.Shell

open Lib

/-- The words that are recorded in a command, in the order of `nulterminate`. -/
def Cmd.spans : Cmd → List Span
  | exec argv => argv
  | redir cmd file _ _ => cmd.spans ++ [file]
  | pipe left right => left.spans ++ right.spans
  | list left right => left.spans ++ right.spans
  | back cmd => cmd.spans

/-- Write a NUL at the end of each word. -/
def terminate (spans : List Span) (buf : List Byte) : List Byte := spans.foldl (fun buf a => buf.set a.eq 0) buf

/-- Every node is visited. -/
theorem nulterminate_eq (c : Cmd) (buf : List Byte) : nulterminate c buf = terminate c.spans buf := by
  induction c generalizing buf with
  | exec argv => rfl
  | redir cmd file mode fd ih =>
    rw [nulterminate, ih, Cmd.spans, terminate, terminate, List.foldl_append]
    rfl
  | pipe left right ihl ihr =>
    rw [nulterminate, ihl, ihr, Cmd.spans, terminate, terminate, terminate, List.foldl_append]
  | list left right ihl ihr =>
    rw [nulterminate, ihl, ihr, Cmd.spans, terminate, terminate, terminate, List.foldl_append]
  | back cmd ih => rw [nulterminate, ih, Cmd.spans]

theorem getElem?_terminate (spans : List Span) (buf : List Byte) {j : ℕ} (hj : j < buf.length) :
    (terminate spans buf)[j]? = if ∃ a ∈ spans, a.eq = j then some 0 else buf[j]? := by
  induction spans generalizing buf with
  | nil => simp [terminate]
  | cons a spans ih =>
    show (terminate spans (buf.set a.eq 0))[j]? = _
    rw [ih _ (by rwa [List.length_set]), List.getElem?_set]
    by_cases hin : ∃ b ∈ spans, b.eq = j
    · obtain ⟨b, hb, hbj⟩ := hin
      rw [if_pos ⟨b, hb, hbj⟩, if_pos ⟨b, .tail a hb, hbj⟩]
    · rw [if_neg hin]
      by_cases haj : a.eq = j
      · subst haj
        rw [if_pos rfl, if_pos hj, if_pos ⟨a, List.mem_cons_self, rfl⟩]
      · rw [if_neg haj, if_neg]
        rintro ⟨b, hb, hbj⟩
        rcases List.mem_cons.1 hb with rfl | hb
        · exact haj hbj
        · exact hin ⟨b, hb, hbj⟩

/-! ### The recorded words are words of the line -/

/-- The spans are those of words among the tokens. -/
def AreWords (spans : List Span) (ts : List Token) : Prop := ∀ a ∈ spans, (⟨.word, a⟩ : Token) ∈ ts

theorem AreWords.mono {spans : List Span} {ts us : List Token} (h : AreWords spans ts) (hsub : ts ⊆ us) :
    AreWords spans us := fun a ha => hsub (h a ha)

theorem AreWords.append {as bs : List Span} {ts : List Token} (ha : AreWords as ts) (hb : AreWords bs ts) :
    AreWords (as ++ bs) ts := by
  intro a hin
  rcases List.mem_append.1 hin with h | h
  · exact ha a h
  · exact hb a h

theorem mem_spans_addArg {c : Cmd} {a b : Span} (h : b ∈ (c.addArg a).spans) : b = a ∨ b ∈ c.spans := by
  induction c with
  | exec argv =>
    rcases List.mem_append.1 h with h | h
    · exact .inr h
    · exact .inl (List.mem_singleton.1 h)
  | redir cmd file mode fd ih =>
    rcases List.mem_append.1 h with h | h
    · exact (ih h).imp id fun h => List.mem_append_left _ h
    · exact .inr (List.mem_append_right _ h)
  | pipe left right _ _ => exact .inr h
  | list left right _ _ => exact .inr h
  | back cmd _ => exact .inr h

theorem mem_spans_redircmd {c : Cmd} {a b : Span} {k : Tok} (h : b ∈ (redircmd c a k).spans) :
    b = a ∨ b ∈ c.spans := by
  cases k
  case lt | gt | gtgt =>
    rcases List.mem_append.1 h with h | h
    · exact .inr h
    · exact .inl (List.mem_singleton.1 h)
  all_goals exact .inr h

theorem token_eta {w : Token} (hw : w.tok = .word) : (⟨.word, w.span⟩ : Token) = w := by
  rw [← hw]

theorem Redirs.spans {c d : Cmd} {ts us : List Token} (h : Redirs c ts d) (hc : AreWords c.spans us)
    (hsub : ts ⊆ us) : AreWords d.spans us := by
  induction h with
  | nil => exact hc
  | @cons c d k w ts hk hw h ih =>
    refine ih (fun b hb => ?_) fun t ht => hsub (.tail k (.tail w ht))
    rcases mem_spans_redircmd hb with rfl | hb
    · rw [token_eta hw]
      exact hsub (.tail k List.mem_cons_self)
    · exact hc b hb

theorem Words.spans {c d : Cmd} {n : ℕ} {ts us : List Token} (h : Words c n ts d) (hc : AreWords c.spans us)
    (hsub : ts ⊆ us) : AreWords d.spans us := by
  induction h with
  | nil => exact hc
  | @cons c d e n w rs ts hw hr h ih =>
    have hrs : rs ⊆ us := fun t ht => hsub (.tail w (List.mem_append_left _ ht))
    have hts : ts ⊆ us := fun t ht => hsub (.tail w (List.mem_append_right _ ht))
    refine ih (hr.spans (fun b hb => ?_) hrs) hts
    rcases mem_spans_addArg hb with rfl | hb
    · rw [token_eta hw]
      exact hsub List.mem_cons_self
    · exact hc b hb

theorem spans_back (c : Cmd) (n : ℕ) : (Cmd.back^[n] c).spans = c.spans := by
  induction n generalizing c with
  | zero => rfl
  | succ n ih => exact ih c.back

/-- What is recorded in a tree are words of its derivation. -/
theorem Derives.spans {nt : Nonterminal} {ts : List Token} {c : Cmd} (h : Derives nt ts c) :
    AreWords c.spans ts := by
  induction h with
  | line h ha ih =>
    rw [spans_back]
    exact ih.mono (List.subset_append_left _ _)
  | list h ha ht h' ih ih' =>
    refine AreWords.append ?_ ?_
    · rw [spans_back]
      exact ih.mono (List.subset_append_left _ _)
    · exact ih'.mono fun t ht => List.mem_append_right _ (List.mem_append_right _ (.tail _ ht))
  | single h ih => exact ih
  | pipe h ht h' ih ih' =>
    exact AreWords.append (ih.mono (List.subset_append_left _ _))
      (ih'.mono fun t ht => List.mem_append_right _ (.tail _ ht))
  | block ht h hu hr ih =>
    refine hr.spans (ih.mono fun t ht => .tail _ (List.mem_append_left _ ht)) fun t ht => ?_
    exact .tail _ (List.mem_append_right _ (.tail _ ht))
  | simple hr hw hn =>
    exact hw.spans (hr.spans nofun (List.subset_append_left _ _)) (List.subset_append_right _ _)

/-! ### Where words end -/

/-- A word of the line: none of its characters separates words, and behind it there is one that does, or the
end of the line. -/
structure IsWord (s : List Byte) (a : Span) : Prop where
  pos : a.q < a.eq
  le : a.eq ≤ s.length
  char : ∀ j, a.q ≤ j → j < a.eq → ∃ c, s[j]? = some c ∧ wordChar c = true
  stop : ∀ c, s[a.eq]? = some c → wordChar c = false

theorem isWord_takeWhile {s l : List Byte} {c : Byte} {i : ℕ} (hl : c :: l = s.drop i) (hc : wordChar c = true) :
    IsWord s ⟨i, i + ((c :: l).takeWhile wordChar).length⟩ := by
  have hsplit : s.drop i = (c :: l).takeWhile wordChar ++ (c :: l).dropWhile wordChar := by
    rw [← hl, List.takeWhile_append_dropWhile]
  have hget : ∀ j, s[i + j]? = ((c :: l).takeWhile wordChar ++ (c :: l).dropWhile wordChar)[j]? := by
    intro j
    rw [← hsplit, List.getElem?_drop]
  have hlen := congrArg List.length hsplit
  rw [List.length_drop, List.length_append] at hlen
  refine ⟨?_, ?_, fun j h₁ h₂ => ?_, fun d hd => ?_⟩
  · dsimp only
    rw [List.takeWhile_cons_of_pos hc, List.length_cons]
    omega
  · have hi : i < s.length := by
      by_contra hge
      rw [List.drop_eq_nil_of_le (by omega)] at hl
      cases hl
    dsimp only
    omega
  · dsimp only at h₁ h₂
    have hj : j - i < ((c :: l).takeWhile wordChar).length := by omega
    have hval := hget (j - i)
    rw [Nat.add_sub_cancel' h₁, List.getElem?_append_left hj, List.getElem?_eq_getElem hj] at hval
    exact ⟨_, hval, List.mem_takeWhile_imp (List.getElem_mem hj)⟩
  · dsimp only at hd
    rw [hget, List.getElem?_append_right le_rfl, Nat.sub_self, ← List.head?_eq_getElem?] at hd
    have hnot := List.head?_dropWhile_not wordChar (c :: l)
    rw [hd] at hnot
    simpa using hnot

theorem drop_succ_of_cons {s l : List Byte} {c : Byte} {i : ℕ} (h : c :: l = s.drop i) : l = s.drop (i + 1) := by
  rw [← List.tail_drop, ← h]
  rfl

theorem lex_words (s : List Byte) (i : ℕ) (l : List Byte) (hl : l = s.drop i) {a : Span}
    (ha : (⟨.word, a⟩ : Token) ∈ lex i l) : IsWord s a := by
  induction i, l using lex_induct with
  | nil i => cases ha
  | blanks i c l hb ih => exact ih (drop_succ_of_cons hl) ha
  | word i c l hw ih =>
    rcases List.mem_cons.1 ha with h | h
    · obtain rfl : a = ⟨i, i + ((c :: l).takeWhile wordChar).length⟩ := (Token.mk.inj h).2
      exact isWord_takeWhile hl hw
    · refine ih ?_ h
      rw [← drop_takeWhile, hl, List.drop_drop]
  | gtgt i l hhead ih =>
    refine ih ?_ ((List.mem_cons.1 ha).resolve_left nofun)
    rw [drop_succ_of_cons hl, List.tail_drop]
  | sym i c l k hs ih =>
    refine ih (drop_succ_of_cons hl) ((List.mem_cons.1 ha).resolve_left fun h => ?_)
    -- no symbol is a word
    have hchar := char_of_symbol hs
    rw [← (Token.mk.inj h).1] at hchar
    cases hchar

/-- A word does not end inside another one. -/
theorem IsWord.not_inside {s : List Byte} {a b : Span} (ha : IsWord s a) (hb : IsWord s b) :
    ¬ (b.q ≤ a.eq ∧ a.eq < b.eq) := by
  rintro ⟨h₁, h₂⟩
  obtain ⟨c, hc, hword⟩ := hb.char a.eq h₁ h₂
  rw [ha.stop c hc] at hword
  cases hword

/-! ### The strings -/

/-- The C string at `q`. -/
def cstr (buf : List Byte) (q : ℕ) : List Byte := (buf.drop q).takeWhile (· ≠ 0)

theorem cstr_eq {s buf : List Byte} {q e : ℕ} (hq : q ≤ e) (h0 : 0 ∉ s)
    (hsame : ∀ j, q ≤ j → j < e → ∃ c ∈ s, buf[j]? = some c ∧ s[j]? = some c) (hend : buf[e]? = some 0) :
    cstr buf q = (s.drop q).take (e - q) := by
  have hprefix : (buf.drop q).take (e - q) = (s.drop q).take (e - q) := by
    apply List.ext_getElem?
    intro j
    by_cases hj : j < e - q
    · obtain ⟨c, -, h₁, h₂⟩ := hsame (q + j) (by omega) (by omega)
      rw [List.getElem?_take_of_lt hj, List.getElem?_take_of_lt hj, List.getElem?_drop, List.getElem?_drop, h₁, h₂]
    · rw [List.getElem?_take_eq_none (by omega), List.getElem?_take_eq_none (by omega)]
  have hrest : (buf.drop q).drop (e - q) = 0 :: buf.drop (e + 1) := by
    obtain ⟨he, hval⟩ := List.getElem?_eq_some_iff.1 hend
    rw [List.drop_drop, Nat.add_sub_cancel' hq, List.drop_eq_getElem_cons he, hval]
  have hne : ∀ c ∈ (s.drop q).take (e - q), decide (c ≠ 0) = true := by
    intro c hc
    simp only [ne_eq, decide_eq_true_eq]
    rintro rfl
    exact h0 (List.mem_of_mem_drop (List.mem_of_mem_take hc))
  unfold cstr
  rw [← List.take_append_drop (e - q) (buf.drop q), hrest, hprefix, List.takeWhile_append_of_pos hne,
    List.takeWhile_cons_of_neg (by decide), List.append_nil]

theorem cstr_terminate {s : List Byte} (h0 : 0 ∉ s) {spans : List Span} (hw : ∀ a ∈ spans, IsWord s a) {a : Span}
    (ha : a ∈ spans) : cstr (terminate spans (bufOf s)) a.q = (s.drop a.q).take (a.eq - a.q) := by
  have hle := (hw a ha).le
  have hlen : (bufOf s).length = s.length + 1 := by simp
  refine cstr_eq (hw a ha).pos.le h0 (fun j h₁ h₂ => ?_) ?_
  · obtain ⟨c, hc, -⟩ := (hw a ha).char j h₁ h₂
    have hnot : ¬ ∃ b ∈ spans, b.eq = j := by
      rintro ⟨b, hb, rfl⟩
      exact (hw b hb).not_inside (hw a ha) ⟨h₁, h₂⟩
    refine ⟨c, List.mem_of_getElem? hc, ?_, hc⟩
    rw [getElem?_terminate _ _ (by omega), if_neg hnot, List.getElem?_append_left (by omega), hc]
  · rw [getElem?_terminate _ _ (by omega), if_pos ⟨a, ha, rfl⟩]

/-- **The strings are the words that were read.** After `nulterminate` each argument and each file name of the
command, read as a string, is what its span of the line was; the spans are words of the line; and no word ends
inside another one. -/
theorem nulterminate_strings (s : List Byte) (h0 : 0 ∉ s) (n : ℕ) (hn : 4 * s.length + 4 ≤ n) (c : Cmd)
    (buf : List Byte) (h : parsecmd n s = .ok (c, buf)) :
    (∀ a ∈ c.spans, (⟨.word, a⟩ : Token) ∈ tokens s ∧ cstr buf a.q = (s.drop a.q).take (a.eq - a.q)) ∧
    ∀ a ∈ c.spans, ∀ b, (⟨.word, b⟩ : Token) ∈ tokens s → ¬ (b.q ≤ a.eq ∧ a.eq < b.eq) := by
  obtain ⟨r, q, hr, hres⟩ := parsetree_sound h0 hn
  rw [parsecmd_eq h0 hr] at h
  rcases hres with ⟨d, rfl, hd⟩ | ⟨msg, rfl⟩
  · cases h
    have hword : ∀ {a}, (⟨.word, a⟩ : Token) ∈ tokens s → IsWord s a := fun ha => lex_words s 0 s rfl ha
    have hspans : ∀ a ∈ c.spans, IsWord s a := fun a ha => hword (hd.spans a ha)
    constructor
    · intro a ha
      refine ⟨hd.spans a ha, ?_⟩
      rw [nulterminate_eq]
      exact cstr_terminate h0 hspans ha
    · exact fun a ha b hb => (hspans a ha).not_inside (hword hb)
  · cases h

/-- The words of `a>b;c`, which are next to each other. -/
theorem nulterminate_strings_dense :
    ∃ c buf, parsecmd 24 ("a>b;c".toList.map ch) = .ok (c, buf) ∧ c.spans = [⟨0, 1⟩, ⟨2, 3⟩, ⟨4, 5⟩] ∧
      cstr buf 2 = [ch 'b'] := by
  refine ⟨_, _, rfl, rfl, ?_⟩
  exact ((nulterminate_strings ("a>b;c".toList.map ch) (by decide) 24 (by decide) _ _ rfl).1 ⟨2, 3⟩ (by decide)).2

end Xv6.Shell
