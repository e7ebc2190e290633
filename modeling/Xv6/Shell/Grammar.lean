import Xv6.Shell.Lex
import Mathlib.Logic.Function.Iterate

/-!
# The grammar of the shell

    line ::= pipe '&'* [';' line]
    pipe ::= exec ['|' pipe]
    exec ::= '(' line ')' redir* | redir* (word redir*)*
    redir ::= ('<' | '>' | '>>') word

with fewer than `MAXARGS` words in an `exec`, and the tree that each derivation stands for. The parser
returns a tree exactly if the tokens of the line derive it.
-/

namespace Xv6.Shell

open Lib

/-! ### Derivations -/

/-- The tokens of some redirections, which are wrapped around a command one after the other. -/
inductive Redirs : Cmd → List Token → Cmd → Prop
  | nil {c : Cmd} : Redirs c [] c
  | cons {c d : Cmd} {k w : Token} {ts : List Token} (hk : k.tok = .lt ∨ k.tok = .gt ∨ k.tok = .gtgt)
      (hw : w.tok = .word) (h : Redirs (redircmd c w.span k.tok) ts d) : Redirs c (k :: w :: ts) d

/-- The tokens of `n` words, with redirections behind each one. -/
inductive Words : Cmd → ℕ → List Token → Cmd → Prop
  | nil {c : Cmd} : Words c 0 [] c
  | cons {c d e : Cmd} {n : ℕ} {w : Token} {rs ts : List Token} (hw : w.tok = .word)
      (hr : Redirs (c.addArg w.span) rs d) (h : Words d n ts e) : Words c (n + 1) (w :: (rs ++ ts)) e

inductive Nonterminal
  | line
  | pipe
  | exec

/-- The tokens derive the tree. -/
inductive Derives : Nonterminal → List Token → Cmd → Prop
  | line {c : Cmd} {ts amps : List Token} (h : Derives .pipe ts c) (ha : ∀ t ∈ amps, t.tok = .amp) :
      Derives .line (ts ++ amps) (Cmd.back^[amps.length] c)
  | list {c d : Cmd} {ts amps us : List Token} {t : Token} (h : Derives .pipe ts c)
      (ha : ∀ t ∈ amps, t.tok = .amp) (ht : t.tok = .semi) (h' : Derives .line us d) :
      Derives .line (ts ++ (amps ++ t :: us)) (.list (Cmd.back^[amps.length] c) d)
  | single {c : Cmd} {ts : List Token} (h : Derives .exec ts c) : Derives .pipe ts c
  | pipe {c d : Cmd} {ts us : List Token} {t : Token} (h : Derives .exec ts c) (ht : t.tok = .pipe)
      (h' : Derives .pipe us d) : Derives .pipe (ts ++ t :: us) (.pipe c d)
  | block {c d : Cmd} {t u : Token} {ts rs : List Token} (ht : t.tok = .lpar) (h : Derives .line ts c)
      (hu : u.tok = .rpar) (hr : Redirs c rs d) : Derives .exec (t :: (ts ++ u :: rs)) d
  | simple {c d : Cmd} {n : ℕ} {rs ts : List Token} (hr : Redirs (.exec []) rs c) (hw : Words c n ts d)
      (hn : n < MAXARGS) : Derives .exec (rs ++ ts) d

/-! ### The characters that `peek` is asked for -/

theorem starts_redir (k : Tok) : k.starts [ch '<', ch '>'] = true ↔ k = .lt ∨ k = .gt ∨ k = .gtgt := by
  cases k <;> decide

theorem starts_amp (k : Tok) : k.starts [ch '&'] = true ↔ k = .amp := by cases k <;> decide

theorem starts_semi (k : Tok) : k.starts [ch ';'] = true ↔ k = .semi := by cases k <;> decide

theorem starts_pipe (k : Tok) : k.starts [ch '|'] = true ↔ k = .pipe := by cases k <;> decide

theorem starts_lpar (k : Tok) : k.starts [ch '('] = true ↔ k = .lpar := by cases k <;> decide

theorem starts_rpar (k : Tok) : k.starts [ch ')'] = true ↔ k = .rpar := by cases k <;> decide

theorem starts_stop (k : Tok) : k.starts [ch '|', ch ')', ch '&', ch ';'] = true ↔
    k = .pipe ∨ k = .rpar ∨ k = .amp ∨ k = .semi := by cases k <;> decide

/-! ### What the parser returns is derived -/

/-- The parser has stopped with `panic`. -/
def Panics (e : Fault) (_ : ℕ) : Prop := ∃ msg, e = .panic msg

/-- Some of the tokens `ts` have been read and are in the relation to the tree. -/
def Read (s : List Byte) (ts : List Token) (R : List Token → Cmd → Prop) (c : Cmd) (i : ℕ) : Prop :=
  ∃ us vs, ts = us ++ vs ∧ R us c ∧ Here s vs i

section sound

variable {s : List Byte} (h0 : 0 ∉ s)
include h0

variable {ts : List Token}

theorem parseredirs_sound {n : ℕ} (c : Cmd) (hn : ts.length < n) :
    Prog.After (Here s ts) (parseredirs (bufOf s) s.length n c) (Read s ts (Redirs c)) Panics := by
  induction n generalizing ts c with
  | zero => omega
  | succ n ih =>
    unfold parseredirs
    rw [Prog.loop, bind_assoc]
    refine (peek_spec h0 ts (by simp [symbols])).after.bind fun b => Prog.After.of_imp fun hb => ?_
    cases b with
    | false =>
      rw [if_neg (by decide), pure_bind]
      exact Prog.After.pure fun i hi => ⟨[], ts, rfl, .nil, hi⟩
    | true =>
      obtain ⟨t, ts, rfl, ht⟩ := exists_of_begins hb.symm
      rw [if_pos rfl, bind_assoc]
      refine (gettoken_cons h0 t ts).after.bind fun r => Prog.After.of_imp fun hr => Prog.After.of_imp fun _ => ?_
      subst hr
      dsimp only
      rw [bind_assoc]
      cases ts with
      | nil =>
        refine (gettoken_nil h0).after.bind fun r => Prog.After.of_imp fun hr => ?_
        rw [if_pos (by rw [hr]; decide)]
        exact Prog.After.throw fun i _ => ⟨_, rfl⟩
      | cons w ts =>
        refine (gettoken_cons h0 w ts).after.bind fun r => Prog.After.of_imp fun hr => Prog.After.of_imp fun _ => ?_
        subst hr
        dsimp only
        by_cases hw : w.tok ≠ .word
        · rw [if_pos hw]
          exact Prog.After.throw fun i _ => ⟨_, rfl⟩
        · rw [if_neg hw, pure_bind]
          simp only [List.length_cons] at hn
          refine (ih (redircmd c w.span t.tok) (by omega)).weaken (fun _ h => h) fun d i hd => ?_
          obtain ⟨us, vs, rfl, hd, hi⟩ := hd
          exact ⟨t :: w :: us, vs, rfl, .cons ((starts_redir _).1 ht) (not_not.1 hw) hd, hi⟩

theorem parseamps_sound {n : ℕ} (c : Cmd) (hn : ts.length < n) :
    Prog.After (Here s ts) (parseamps (bufOf s) s.length n c)
      (Read s ts fun us d => (∀ t ∈ us, t.tok = .amp) ∧ d = Cmd.back^[us.length] c) Panics := by
  induction n generalizing ts c with
  | zero => omega
  | succ n ih =>
    unfold parseamps
    rw [Prog.loop, bind_assoc]
    refine (peek_spec h0 ts (by simp [symbols])).after.bind fun b => Prog.After.of_imp fun hb => ?_
    cases b with
    | false =>
      rw [if_neg (by decide), pure_bind]
      exact Prog.After.pure fun i hi => ⟨[], ts, rfl, ⟨nofun, rfl⟩, hi⟩
    | true =>
      obtain ⟨t, ts, rfl, ht⟩ := exists_of_begins hb.symm
      rw [if_pos rfl, bind_assoc]
      refine (gettoken_cons h0 t ts).after.bind fun r => Prog.After.of_imp fun _ => Prog.After.of_imp fun _ => ?_
      rw [pure_bind]
      rw [List.length_cons] at hn
      refine (ih (.back c) (by omega)).weaken (fun _ h => h) fun d i hd => ?_
      obtain ⟨us, vs, rfl, ⟨hus, rfl⟩, hi⟩ := hd
      refine ⟨t :: us, vs, rfl, ⟨fun u hu => ?_, rfl⟩, hi⟩
      rcases List.mem_cons.1 hu with rfl | hu
      · exact (starts_amp _).1 ht
      · exact hus u hu

theorem parseargs_sound {n m k : ℕ} (c : Cmd) (hn : ts.length < n) (hm : ts.length < m) (hk : k < MAXARGS) :
    Prog.After (Here s ts) (parseargs (bufOf s) s.length n m c k)
      (Read s ts fun us d => ∃ j, Words c j us d ∧ k + j < MAXARGS) Panics := by
  induction m generalizing ts c k with
  | zero => omega
  | succ m ih =>
    have hstop : Prog.After (Here s ts) (pure c : Parser Cmd)
        (Read s ts fun us d => ∃ j, Words c j us d ∧ k + j < MAXARGS) Panics :=
      Prog.After.pure fun i hi => ⟨[], ts, rfl, ⟨0, .nil, hk⟩, hi⟩
    unfold parseargs
    rw [Prog.loop]
    dsimp only
    rw [parsearg, bind_assoc]
    refine (peek_spec h0 ts (by simp [symbols])).after.bind fun b => Prog.After.of_imp fun _ => ?_
    cases b with
    | true =>
      rw [if_pos rfl, pure_bind]
      exact hstop
    | false =>
      rw [if_neg (by decide), bind_assoc]
      cases ts with
      | nil =>
        refine (gettoken_nil h0).after.bind fun (tok, a) => Prog.After.of_imp fun hr => ?_
        dsimp only at hr ⊢
        rw [if_pos hr, pure_bind]
        exact hstop
      | cons w ts =>
        refine (gettoken_cons h0 w ts).after.bind fun r => Prog.After.of_imp fun hr => Prog.After.of_imp fun hne => ?_
        subst hr
        dsimp only
        rw [if_neg hne]
        by_cases hw : w.tok ≠ .word
        · rw [if_pos hw]
          exact Prog.After.throw fun i _ => ⟨_, rfl⟩
        rw [if_neg hw]
        by_cases hargc : k + 1 ≥ MAXARGS
        · rw [if_pos hargc]
          exact Prog.After.throw fun i _ => ⟨_, rfl⟩
        rw [if_neg hargc, bind_assoc]
        rw [List.length_cons] at hn hm
        refine (parseredirs_sound h0 (c.addArg w.span) (by omega)).bind fun d => ?_
        rw [pure_bind]
        rintro i ⟨us, vs, rfl, hus, hi⟩
        rw [List.length_append] at hn hm
        refine (ih (k := k + 1) d (by omega) (by omega) (by omega)).weaken (fun _ h => h) (fun e i he => ?_) i hi
        obtain ⟨us', vs', rfl, ⟨j, hj, hlt⟩, hi⟩ := he
        refine ⟨w :: (us ++ us'), vs', by simp, ⟨j + 1, .cons (not_not.1 hw) hus hj, by omega⟩, hi⟩

/-! The four routines, with four calls for each token. -/

/-- What the routines do with the bound `n`. -/
structure Sound (s : List Byte) (n : ℕ) : Prop where
  line : ∀ ts, 4 * ts.length + 4 ≤ n →
    Prog.After (Here s ts) (parseline (bufOf s) s.length n) (Read s ts (Derives .line)) Panics
  pipe : ∀ ts, 4 * ts.length + 3 ≤ n →
    Prog.After (Here s ts) (parsepipe (bufOf s) s.length n) (Read s ts (Derives .pipe)) Panics
  exec : ∀ ts, 4 * ts.length + 2 ≤ n →
    Prog.After (Here s ts) (parseexec (bufOf s) s.length n) (Read s ts (Derives .exec)) Panics
  block : ∀ t ts, t.tok = .lpar → 4 * (t :: ts).length + 1 ≤ n →
    Prog.After (Here s (t :: ts)) (parseblock (bufOf s) s.length n) (Read s (t :: ts) (Derives .exec)) Panics

theorem parseline_sound {n : ℕ} (ih : Sound s n) (ts : List Token) (hn : 4 * ts.length + 4 ≤ n + 1) :
    Prog.After (Here s ts) (parseline (bufOf s) s.length (n + 1)) (Read s ts (Derives .line)) Panics := by
  rw [parseline]
  refine (ih.pipe ts (by omega)).bind fun c => ?_
  rintro i ⟨us, vs, rfl, hc, hi⟩
  rw [List.length_append] at hn
  refine (parseamps_sound h0 c (by omega)).bind (fun d => ?_) i hi
  rintro i ⟨amps, ws, rfl, ⟨hamps, rfl⟩, hi⟩
  rw [List.length_append] at hn
  refine (peek_spec h0 ws (by simp [symbols])).after.bind (fun b => Prog.After.of_imp fun hb => ?_) i hi
  cases b with
  | false =>
    rw [if_neg (by decide)]
    exact Prog.After.pure fun i hi => ⟨us ++ amps, ws, by simp, .line hc hamps, hi⟩
  | true =>
    obtain ⟨t, ws, rfl, ht⟩ := exists_of_begins hb.symm
    rw [if_pos rfl]
    refine (gettoken_cons h0 t ws).after.bind fun r => Prog.After.of_imp fun _ => Prog.After.of_imp fun _ => ?_
    rw [List.length_cons] at hn
    refine (ih.line ws (by omega)).bind fun d => Prog.After.pure ?_
    rintro i ⟨xs, ys, rfl, hd, hi⟩
    exact ⟨us ++ (amps ++ t :: xs), ys, by simp, .list hc hamps ((starts_semi _).1 ht) hd, hi⟩

theorem parsepipe_sound {n : ℕ} (ih : Sound s n) (ts : List Token) (hn : 4 * ts.length + 3 ≤ n + 1) :
    Prog.After (Here s ts) (parsepipe (bufOf s) s.length (n + 1)) (Read s ts (Derives .pipe)) Panics := by
  rw [parsepipe]
  refine (ih.exec ts (by omega)).bind fun c => ?_
  rintro i ⟨us, vs, rfl, hc, hi⟩
  rw [List.length_append] at hn
  refine (peek_spec h0 vs (by simp [symbols])).after.bind (fun b => Prog.After.of_imp fun hb => ?_) i hi
  cases b with
  | false =>
    rw [if_neg (by decide)]
    exact Prog.After.pure fun i hi => ⟨us, vs, rfl, .single hc, hi⟩
  | true =>
    obtain ⟨t, vs, rfl, ht⟩ := exists_of_begins hb.symm
    rw [if_pos rfl]
    refine (gettoken_cons h0 t vs).after.bind fun r => Prog.After.of_imp fun _ => Prog.After.of_imp fun _ => ?_
    rw [List.length_cons] at hn
    refine (ih.pipe vs (by omega)).bind fun d => Prog.After.pure ?_
    rintro i ⟨xs, ys, rfl, hd, hi⟩
    exact ⟨us ++ t :: xs, ys, by simp, .pipe hc ((starts_pipe _).1 ht) hd, hi⟩

theorem parseblock_sound {n : ℕ} (ih : Sound s n) (t : Token) (ts : List Token) (ht : t.tok = .lpar)
    (hn : 4 * (t :: ts).length + 1 ≤ n + 1) :
    Prog.After (Here s (t :: ts)) (parseblock (bufOf s) s.length (n + 1)) (Read s (t :: ts) (Derives .exec))
      Panics := by
  rw [List.length_cons] at hn
  rw [parseblock]
  refine (peek_spec h0 (t :: ts) (by simp [symbols])).after.bind fun b => Prog.After.of_imp fun hb => ?_
  rw [if_pos (hb.trans ((starts_lpar _).2 ht))]
  refine (gettoken_cons h0 t ts).after.bind fun r => Prog.After.of_imp fun _ => Prog.After.of_imp fun _ => ?_
  refine (ih.line ts (by omega)).bind fun c => ?_
  rintro i ⟨us, vs, rfl, hc, hi⟩
  rw [List.length_append] at hn
  refine (peek_spec h0 vs (by simp [symbols])).after.bind (fun b => Prog.After.of_imp fun hb => ?_) i hi
  cases b with
  | false =>
    rw [if_neg (by decide)]
    exact Prog.After.throw fun i _ => ⟨_, rfl⟩
  | true =>
    obtain ⟨u, vs, rfl, hu⟩ := exists_of_begins hb.symm
    rw [if_pos rfl]
    refine (gettoken_cons h0 u vs).after.bind fun r => Prog.After.of_imp fun _ => Prog.After.of_imp fun _ => ?_
    rw [List.length_cons] at hn
    refine (parseredirs_sound h0 c (by omega)).weaken (fun _ h => h) fun d i hd => ?_
    obtain ⟨xs, ys, rfl, hd, hi⟩ := hd
    exact ⟨t :: (us ++ u :: xs), ys, by simp, .block ht hc ((starts_rpar _).1 hu) hd, hi⟩

theorem parseexec_sound {n : ℕ} (ih : Sound s n) (ts : List Token) (hn : 4 * ts.length + 2 ≤ n + 1) :
    Prog.After (Here s ts) (parseexec (bufOf s) s.length (n + 1)) (Read s ts (Derives .exec)) Panics := by
  rw [parseexec]
  refine (peek_spec h0 ts (by simp [symbols])).after.bind fun b => Prog.After.of_imp fun hb => ?_
  cases b with
  | true =>
    obtain ⟨t, ts, rfl, ht⟩ := exists_of_begins hb.symm
    rw [if_pos rfl]
    exact ih.block t ts ((starts_lpar _).1 ht) (by omega)
  | false =>
    rw [if_neg (by decide)]
    refine (parseredirs_sound h0 (.exec []) (by omega)).bind fun c => ?_
    rintro i ⟨us, vs, rfl, hc, hi⟩
    rw [List.length_append] at hn
    refine (parseargs_sound h0 (k := 0) c (by omega) (by omega) (by decide)).weaken (fun _ h => h)
      (fun d i hd => ?_) i hi
    obtain ⟨xs, ys, rfl, ⟨j, hj, hlt⟩, hi⟩ := hd
    exact ⟨us ++ xs, ys, by simp, .simple hc hj (by omega), hi⟩

/-- **The parser comes to an end, and reads what the grammar derives.** -/
theorem parse_sound (n : ℕ) : Sound s n := by
  induction n with
  | zero =>
    constructor
    all_goals
      intros
      omega
  | succ n ih => exact ⟨parseline_sound h0 ih, parsepipe_sound h0 ih, parseexec_sound h0 ih, parseblock_sound h0 ih⟩

end sound

/-! ### What is derived is returned -/

theorem begins_false {toks : List Byte} {vs : List Token} (h : ∀ t ∈ vs.head?, ¬ t.tok.starts toks = true) :
    begins toks vs = false := by
  cases vs with
  | nil => rfl
  | cons t vs => simpa [begins] using h t rfl

theorem begins_redir {vs : List Token} (h : ∀ t ∈ vs.head?,
    t.tok = .word ∨ t.tok = .pipe ∨ t.tok = .rpar ∨ t.tok = .amp ∨ t.tok = .semi) :
    begins [ch '<', ch '>'] vs = false := by
  refine begins_false fun t ht hs => ?_
  have h₁ := h t ht
  have h₂ := (starts_redir _).1 hs
  generalize t.tok = k at h₁ h₂
  revert h₁ h₂
  cases k <;> decide

/-- What may come after a derivation. -/
def Follows : Nonterminal → List Token → Prop
  | .line, vs => ∀ t ∈ vs.head?, t.tok = .rpar
  | .pipe, vs => ∀ t ∈ vs.head?, t.tok = .rpar ∨ t.tok = .amp ∨ t.tok = .semi
  | .exec, vs => ∀ t ∈ vs.head?, t.tok = .pipe ∨ t.tok = .rpar ∨ t.tok = .amp ∨ t.tok = .semi

section complete

variable {s : List Byte} (h0 : 0 ∉ s)
include h0

variable {us vs : List Token} {c d : Cmd}

/-- The code has read the tokens before `vs` and returns the tree. -/
def Returns (s : List Byte) (us vs : List Token) (p : Parser Cmd) (d : Cmd) : Prop :=
  Prog.Triple (Here s (us ++ vs)) p fun e i => e = d ∧ Here s vs i

theorem parseredirs_complete (h : Redirs c us d) (hvs : begins [ch '<', ch '>'] vs = false) {n : ℕ}
    (hn : us.length < n) : Returns s us vs (parseredirs (bufOf s) s.length n c) d := by
  induction h generalizing n with
  | nil =>
    obtain ⟨n, rfl⟩ : ∃ m, n = m + 1 := ⟨n - 1, by omega⟩
    unfold Returns parseredirs
    rw [Prog.loop, bind_assoc]
    refine (peek_spec h0 _ (by simp [symbols])).bind fun b => Prog.Triple.of_imp fun hb => ?_
    rw [List.nil_append] at hb ⊢
    rw [if_neg (by rw [hb, hvs]; decide), pure_bind]
    exact Prog.Triple.pure fun i hi => ⟨rfl, hi⟩
  | @cons c d k w ts hk hw h ih =>
    simp only [List.length_cons] at hn
    obtain ⟨n, rfl⟩ : ∃ m, n = m + 1 := ⟨n - 1, by omega⟩
    unfold Returns parseredirs
    rw [Prog.loop, bind_assoc]
    refine (peek_spec h0 _ (by simp [symbols])).bind fun b => Prog.Triple.of_imp fun hb => ?_
    rw [if_pos (hb.trans ((starts_redir _).2 hk)), bind_assoc]
    refine (gettoken_cons h0 k (w :: ts ++ vs)).bind fun r => Prog.Triple.of_imp fun hr => Prog.Triple.of_imp fun _ => ?_
    subst hr
    dsimp only
    rw [bind_assoc]
    refine (gettoken_cons h0 w (ts ++ vs)).bind fun r => Prog.Triple.of_imp fun hr => Prog.Triple.of_imp fun _ => ?_
    subst hr
    dsimp only
    rw [if_neg (not_not.2 hw), pure_bind]
    exact ih (by omega)

theorem parseamps_complete {amps : List Token} (ha : ∀ t ∈ amps, t.tok = .amp)
    (hvs : begins [ch '&'] vs = false) {n : ℕ} (hn : amps.length < n) :
    Returns s amps vs (parseamps (bufOf s) s.length n c) (Cmd.back^[amps.length] c) := by
  induction amps generalizing n c with
  | nil =>
    obtain ⟨n, rfl⟩ : ∃ m, n = m + 1 := ⟨n - 1, by omega⟩
    unfold Returns parseamps
    rw [Prog.loop, bind_assoc]
    refine (peek_spec h0 _ (by simp [symbols])).bind fun b => Prog.Triple.of_imp fun hb => ?_
    rw [List.nil_append] at hb ⊢
    rw [if_neg (by rw [hb, hvs]; decide), pure_bind]
    exact Prog.Triple.pure fun i hi => ⟨rfl, hi⟩
  | cons t amps ih =>
    rw [List.length_cons] at hn
    obtain ⟨n, rfl⟩ : ∃ m, n = m + 1 := ⟨n - 1, by omega⟩
    unfold Returns parseamps
    rw [Prog.loop, bind_assoc]
    refine (peek_spec h0 _ (by simp [symbols])).bind fun b => Prog.Triple.of_imp fun hb => ?_
    rw [if_pos (hb.trans ((starts_amp _).2 (ha t List.mem_cons_self))), bind_assoc]
    refine (gettoken_cons h0 t (amps ++ vs)).bind fun r => Prog.Triple.of_imp fun _ => Prog.Triple.of_imp fun _ => ?_
    rw [pure_bind]
    exact ih (fun u hu => ha u (.tail t hu)) (by omega)

omit h0 in
theorem Words.head {j : ℕ} (h : Words c j us d) (hvs : Follows .exec vs) :
    ∀ t ∈ (us ++ vs).head?, t.tok = .word ∨ t.tok = .pipe ∨ t.tok = .rpar ∨ t.tok = .amp ∨ t.tok = .semi := by
  cases h with
  | nil => exact fun t ht => .inr (hvs t ht)
  | cons hw hr h =>
    intro t ht
    obtain rfl := Option.some.inj ht
    exact .inl hw

theorem parseargs_complete {j k n m : ℕ} (h : Words c j us d) (hvs : Follows .exec vs) (hk : k + j < MAXARGS)
    (hn : us.length < n) (hm : us.length < m) :
    Returns s us vs (parseargs (bufOf s) s.length n m c k) d := by
  induction h generalizing m k with
  | nil =>
    obtain ⟨m, rfl⟩ : ∃ x, m = x + 1 := ⟨m - 1, by omega⟩
    unfold Returns parseargs
    rw [Prog.loop]
    dsimp only
    rw [parsearg, bind_assoc]
    refine (peek_spec h0 _ (by simp [symbols])).bind fun b => Prog.Triple.of_imp fun hb => ?_
    rw [List.nil_append] at hb ⊢
    cases vs with
    | nil =>
      rw [if_neg (by rw [hb]; decide), bind_assoc]
      refine (gettoken_nil h0).bind fun (tok, a) => Prog.Triple.of_imp fun hr => ?_
      dsimp only at hr ⊢
      rw [if_pos hr, pure_bind]
      exact Prog.Triple.pure fun i hi => ⟨rfl, hi⟩
    | cons t vs =>
      rw [if_pos (hb.trans ((starts_stop _).2 (hvs t rfl))), pure_bind]
      exact Prog.Triple.pure fun i hi => ⟨rfl, hi⟩
  | @cons c d e j w rs ts hw hr h ih =>
    simp only [List.length_cons, List.length_append] at hn hm
    obtain ⟨m, rfl⟩ : ∃ x, m = x + 1 := ⟨m - 1, by omega⟩
    unfold Returns parseargs
    rw [Prog.loop]
    dsimp only
    rw [parsearg, bind_assoc]
    refine (peek_spec h0 _ (by simp [symbols])).bind fun b => Prog.Triple.of_imp fun hb => ?_
    have hstop : ¬ w.tok.starts [ch '|', ch ')', ch '&', ch ';'] = true := by
      rw [hw]
      decide
    rw [if_neg (by rw [hb]; exact hstop), bind_assoc]
    refine (gettoken_cons h0 w (rs ++ ts ++ vs)).bind fun r => Prog.Triple.of_imp fun hr' =>
      Prog.Triple.of_imp fun hne => ?_
    subst hr'
    dsimp only
    rw [if_neg hne, if_neg (not_not.2 hw), if_neg (by omega), bind_assoc, List.append_assoc]
    refine (parseredirs_complete h0 hr (begins_redir (h.head hvs)) (by omega)).bind fun x => Prog.Triple.of_imp fun hx => ?_
    subst hx
    rw [pure_bind]
    exact ih (by omega) (by omega) (by omega)

/-- The routine for a nonterminal. -/
def routine (buf : List Byte) (es : ℕ) : Nonterminal → ℕ → Parser Cmd
  | .line => parseline buf es
  | .pipe => parsepipe buf es
  | .exec => parseexec buf es

/-- The calls that the routine needs for `k` tokens. -/
def calls : Nonterminal → ℕ → ℕ
  | .line, k => 4 * k + 4
  | .pipe, k => 4 * k + 3
  | .exec, k => 4 * k + 2

omit h0 in
theorem Follows.head {nt : Nonterminal} (h : Follows nt vs) : Follows .exec vs := by
  cases nt with
  | line => exact fun t ht => .inr (.inl (h t ht))
  | pipe => exact fun t ht => .inr (h t ht)
  | exec => exact h

/-- **What the grammar derives is read by the parser.** -/
theorem parse_complete {nt : Nonterminal} (h : Derives nt us c) (hvs : Follows nt vs) {n : ℕ}
    (hn : calls nt us.length ≤ n) : Returns s us vs (routine (bufOf s) s.length nt n) c := by
  induction h generalizing vs n with
  | @line c ts amps h ha ih =>
    simp only [calls, List.length_append] at hn
    obtain ⟨n, rfl⟩ : ∃ m, n = m + 1 := ⟨n - 1, by omega⟩
    have hnot : ∀ k, k ≠ .rpar → ∀ t ∈ vs.head?, t.tok ≠ k := fun k hk t ht heq => hk (heq ▸ hvs t ht)
    have hfollow : Follows .pipe (amps ++ vs) := by
      cases amps with
      | nil => exact fun t ht => .inl (hvs t ht)
      | cons a amps =>
        intro t ht
        obtain rfl := Option.some.inj ht
        exact .inr (.inl (ha _ List.mem_cons_self))
    show Prog.Triple _ (parseline (bufOf s) s.length (n + 1)) _
    rw [parseline, List.append_assoc]
    refine Prog.Triple.bind (ih hfollow (n := n) (by simp only [calls]; omega)) fun x => Prog.Triple.of_imp fun hx => ?_
    subst hx
    refine Prog.Triple.bind (parseamps_complete h0 ha (begins_false fun t ht hs => ?_) (by omega)) fun x =>
      Prog.Triple.of_imp fun hx => ?_
    · exact hnot .amp (by decide) t ht ((starts_amp _).1 hs)
    subst hx
    refine (peek_spec h0 vs (by simp [symbols])).bind fun b => Prog.Triple.of_imp fun hb => ?_
    have hsemi : begins [ch ';'] vs = false :=
      begins_false fun t ht hs => hnot .semi (by decide) t ht ((starts_semi _).1 hs)
    rw [if_neg (by rw [hb, hsemi]; decide)]
    exact Prog.Triple.pure fun i hi => ⟨rfl, hi⟩
  | @list c d ts amps us t h ha ht h' ih ih' =>
    simp only [calls, List.length_append, List.length_cons] at hn
    obtain ⟨n, rfl⟩ : ∃ m, n = m + 1 := ⟨n - 1, by omega⟩
    have hfollow : Follows .pipe (amps ++ t :: us ++ vs) := by
      cases amps with
      | nil =>
        intro u hu
        obtain rfl := Option.some.inj hu
        exact .inr (.inr ht)
      | cons a amps =>
        intro u hu
        obtain rfl := Option.some.inj hu
        exact .inr (.inl (ha _ List.mem_cons_self))
    show Prog.Triple _ (parseline (bufOf s) s.length (n + 1)) _
    rw [parseline, List.append_assoc]
    refine Prog.Triple.bind (ih hfollow (n := n) (by simp only [calls]; omega)) fun x => Prog.Triple.of_imp fun hx => ?_
    subst hx
    rw [List.append_assoc]
    refine Prog.Triple.bind (parseamps_complete h0 ha (begins_false fun u hu hs => ?_) (by omega)) fun x =>
      Prog.Triple.of_imp fun hx => ?_
    · obtain rfl := Option.some.inj hu
      cases ht.symm.trans ((starts_amp _).1 hs)
    subst hx
    refine (peek_spec h0 (t :: us ++ vs) (by simp [symbols])).bind fun b => Prog.Triple.of_imp fun hb => ?_
    rw [if_pos (hb.trans ((starts_semi _).2 ht))]
    refine (gettoken_cons h0 t (us ++ vs)).bind fun r => Prog.Triple.of_imp fun _ => Prog.Triple.of_imp fun _ => ?_
    refine Prog.Triple.bind (ih' hvs (n := n) (by simp only [calls]; omega)) fun x => Prog.Triple.of_imp fun hx => ?_
    subst hx
    exact Prog.Triple.pure fun i hi => ⟨rfl, hi⟩
  | @single c ts h ih =>
    simp only [calls] at hn
    obtain ⟨n, rfl⟩ : ∃ m, n = m + 1 := ⟨n - 1, by omega⟩
    show Prog.Triple _ (parsepipe (bufOf s) s.length (n + 1)) _
    rw [parsepipe]
    refine Prog.Triple.bind (ih hvs.head (n := n) (by simp only [calls]; omega)) fun x => Prog.Triple.of_imp fun hx => ?_
    subst hx
    refine (peek_spec h0 vs (by simp [symbols])).bind fun b => Prog.Triple.of_imp fun hb => ?_
    have hpipe : begins [ch '|'] vs = false := begins_false fun t ht hs => by
      have h₁ := hvs t ht
      rw [(starts_pipe _).1 hs] at h₁
      revert h₁
      decide
    rw [if_neg (by rw [hb, hpipe]; decide)]
    exact Prog.Triple.pure fun i hi => ⟨rfl, hi⟩
  | @pipe c d ts us t h ht h' ih ih' =>
    simp only [calls, List.length_append, List.length_cons] at hn
    obtain ⟨n, rfl⟩ : ∃ m, n = m + 1 := ⟨n - 1, by omega⟩
    have hfollow : Follows .exec (t :: us ++ vs) := by
      intro u hu
      obtain rfl := Option.some.inj hu
      exact .inl ht
    show Prog.Triple _ (parsepipe (bufOf s) s.length (n + 1)) _
    rw [parsepipe, List.append_assoc]
    refine Prog.Triple.bind (ih hfollow (n := n) (by simp only [calls]; omega)) fun x => Prog.Triple.of_imp fun hx => ?_
    subst hx
    refine (peek_spec h0 (t :: us ++ vs) (by simp [symbols])).bind fun b => Prog.Triple.of_imp fun hb => ?_
    rw [if_pos (hb.trans ((starts_pipe _).2 ht))]
    refine (gettoken_cons h0 t (us ++ vs)).bind fun r => Prog.Triple.of_imp fun _ => Prog.Triple.of_imp fun _ => ?_
    refine Prog.Triple.bind (ih' hvs (n := n) (by simp only [calls]; omega)) fun x => Prog.Triple.of_imp fun hx => ?_
    subst hx
    exact Prog.Triple.pure fun i hi => ⟨rfl, hi⟩
  | @block c d t u ts rs ht h hu hr ih =>
    simp only [calls, List.length_append, List.length_cons] at hn
    obtain ⟨n, rfl⟩ : ∃ m, n = m + 2 := ⟨n - 2, by omega⟩
    have hfollow : Follows .line (u :: rs ++ vs) := by
      intro x hx
      obtain rfl := Option.some.inj hx
      exact hu
    show Prog.Triple _ (parseexec (bufOf s) s.length (n + 1 + 1)) _
    rw [parseexec]
    refine (peek_spec h0 _ (by simp [symbols])).bind fun b => Prog.Triple.of_imp fun hb => ?_
    rw [if_pos (hb.trans ((starts_lpar _).2 ht)), parseblock]
    refine (peek_spec h0 _ (by simp [symbols])).bind fun b => Prog.Triple.of_imp fun hb => ?_
    rw [if_pos (hb.trans ((starts_lpar _).2 ht))]
    refine (gettoken_cons h0 t (ts ++ u :: rs ++ vs)).bind fun r => Prog.Triple.of_imp fun _ =>
      Prog.Triple.of_imp fun _ => ?_
    rw [List.append_assoc]
    refine Prog.Triple.bind (ih hfollow (n := n) (by simp only [calls]; omega)) fun x => Prog.Triple.of_imp fun hx => ?_
    subst hx
    refine (peek_spec h0 (u :: rs ++ vs) (by simp [symbols])).bind fun b => Prog.Triple.of_imp fun hb => ?_
    rw [if_pos (hb.trans ((starts_rpar _).2 hu))]
    refine (gettoken_cons h0 u (rs ++ vs)).bind fun r => Prog.Triple.of_imp fun _ => Prog.Triple.of_imp fun _ => ?_
    exact parseredirs_complete h0 hr (begins_redir fun x hx => .inr (hvs x hx)) (by omega)
  | @simple c d j rs ts hr hw hj =>
    simp only [calls, List.length_append] at hn
    obtain ⟨n, rfl⟩ : ∃ m, n = m + 1 := ⟨n - 1, by omega⟩
    have hhead := hw.head hvs
    have hlpar : begins [ch '('] (rs ++ ts ++ vs) = false := begins_false fun t ht hs => by
      have hk := (starts_lpar _).1 hs
      rw [List.append_assoc] at ht
      cases hr with
      | nil =>
        have h₁ := hhead t ht
        rw [hk] at h₁
        revert h₁
        decide
      | cons hk' _ _ =>
        obtain rfl := Option.some.inj ht
        rw [hk] at hk'
        revert hk'
        decide
    show Prog.Triple _ (parseexec (bufOf s) s.length (n + 1)) _
    rw [parseexec]
    refine (peek_spec h0 _ (by simp [symbols])).bind fun b => Prog.Triple.of_imp fun hb => ?_
    rw [if_neg (by rw [hb, hlpar]; decide), List.append_assoc]
    refine Prog.Triple.bind (parseredirs_complete h0 hr (begins_redir hhead) (by omega)) fun x =>
      Prog.Triple.of_imp fun hx => ?_
    subst hx
    exact parseargs_complete h0 hw hvs (by omega) (by omega) (by omega)

end complete

/-! ### `parsecmd` -/

section parsecmd

variable {s : List Byte} (h0 : 0 ∉ s) {n : ℕ}
include h0

/-- What `parsecmd` does behind `parseline`, with the tokens `ts` left over. -/
theorem eval_rest {c : Cmd} {ts : List Token} {i : ℕ} (h : Here s ts i)
    (hline : (parseline (bufOf s) s.length n).eval 0 = (.ok c, i)) :
    ∃ q, (parsetree (bufOf s) s.length n).eval 0 = (if ts = [] then .ok c else .error (.panic "syntax"), q) := by
  obtain ⟨b, q, hpeek, hq⟩ := eval_peek_nil h0 h
  have hget : (get : Parser ℕ).eval q = (.ok q, q) := rfl
  refine ⟨q, ?_⟩
  unfold parsetree
  refine (Prog.eval_bind hline).trans ((Prog.eval_bind hpeek).trans ((Prog.eval_bind hget).trans ?_))
  by_cases hts : ts = []
  · rw [if_neg (not_not.2 (hq.2 hts)), if_pos hts]
    rfl
  · rw [if_pos (fun hend => hts (hq.1 hend)), if_neg hts]
    rfl

/-- `parsecmd` comes to an end, with a tree that is derived or with `panic`. -/
theorem parsetree_sound (hn : 4 * s.length + 4 ≤ n) :
    ∃ r q, (parsetree (bufOf s) s.length n).eval 0 = (r, q) ∧
      ((∃ c, r = .ok c ∧ Derives .line (tokens s) c) ∨ ∃ msg, r = .error (.panic msg)) := by
  have hlen := length_lex_le 0 s
  have hline := (parse_sound h0 n).line (tokens s) (by unfold tokens; omega) 0 (here_zero s)
  rcases hrun : (parseline (bufOf s) s.length n).eval 0 with ⟨e | c, i⟩
  · rw [hrun] at hline
    exact ⟨_, _, Prog.eval_bind_error hrun, .inr (hline.imp fun _ h => congrArg _ h)⟩
  · rw [hrun] at hline
    obtain ⟨us, vs, hts, hc, hi⟩ := hline
    obtain ⟨q, hq⟩ := eval_rest h0 hi hrun
    refine ⟨_, q, hq, ?_⟩
    by_cases hvs : vs = []
    · rw [if_pos hvs]
      rw [hvs, List.append_nil] at hts
      exact .inl ⟨c, rfl, hts ▸ hc⟩
    · rw [if_neg hvs]
      exact .inr ⟨_, rfl⟩

theorem parsetree_complete {c : Cmd} (h : Derives .line (tokens s) c) (hn : 4 * s.length + 4 ≤ n) :
    ∃ q, (parsetree (bufOf s) s.length n).eval 0 = (.ok c, q) := by
  have hlen := length_lex_le 0 s
  have hstart : Here s (tokens s ++ []) 0 := by
    rw [List.append_nil]
    exact here_zero s
  have hfollow : Follows .line [] := nofun
  obtain ⟨_, i, hrun, rfl, hi⟩ := parse_complete h0 h hfollow (n := n) (by simp only [calls, tokens]; omega) 0
    hstart
  exact eval_rest h0 hi hrun

theorem parsecmd_eq {r : Except Fault Cmd} {q : ℕ} (h : (parsetree (bufOf s) s.length n).eval 0 = (r, q)) :
    parsecmd n s = r.map fun c => (c, nulterminate c (bufOf s)) := by
  have hes : strlen (s ++ [0]) = s.length := strlen_bufOf h0
  unfold parsecmd
  dsimp only
  rw [hes, h]
  cases r with
  | ok c => rfl
  | error e => rfl

end parsecmd

/-- **The parser accepts exactly its grammar.** On a line of any characters it comes to an end within so many
calls and turns as the bound says; it returns a tree or stops with `panic`; and it returns a tree exactly if
the tokens of the line derive it. -/
theorem parsecmd_grammar (s : List Byte) (h0 : 0 ∉ s) (n : ℕ) (hn : 4 * s.length + 4 ≤ n) :
    ((∃ r, parsecmd n s = .ok r) ∨ ∃ msg, parsecmd n s = .error (.panic msg)) ∧
    ∀ c, (∃ buf, parsecmd n s = .ok (c, buf)) ↔ Derives .line (tokens s) c := by
  obtain ⟨r, q, hr, hres⟩ := parsetree_sound h0 hn
  constructor
  · rw [parsecmd_eq h0 hr]
    rcases hres with ⟨c, rfl, -⟩ | ⟨msg, rfl⟩
    · exact .inl ⟨_, rfl⟩
    · exact .inr ⟨msg, rfl⟩
  · intro c
    constructor
    · rintro ⟨buf, hc⟩
      rw [parsecmd_eq h0 hr] at hc
      rcases hres with ⟨d, rfl, hd⟩ | ⟨msg, rfl⟩
      · cases hc
        exact hd
      · cases hc
    · intro hc
      obtain ⟨q, hq⟩ := parsetree_complete h0 hc hn
      exact ⟨_, parsecmd_eq h0 hq⟩

/-- The line `a|(b;c)>d &`. -/
theorem parsecmd_grammar_block : Derives .line (tokens ("a|(b;c)>d &".toList.map ch))
    (.back (.pipe (.exec [⟨0, 1⟩]) (.redir (.list (.exec [⟨3, 4⟩]) (.exec [⟨5, 6⟩])) ⟨8, 9⟩ 0x201 1))) :=
  ((parsecmd_grammar ("a|(b;c)>d &".toList.map ch) (by decide) 48 (by decide)).2 _).1 ⟨_, rfl⟩

end Xv6.Shell
