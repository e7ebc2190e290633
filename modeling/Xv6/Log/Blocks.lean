import Xv6.Log.Group

/-!
# The blocks of a commit

What the operations have logged and what a commit writes, read off the history, and that a commit
writes the blocks of the operations that have ended since the previous one: all of them, each of
them once, and nothing else.
-/

namespace Xv6.Log

open Lib

variable {P : Type} [DecidableEq P] {size : ℤ} {s s' : State P} {e : Event P} {h : List (Event P)}

/-! ### Reading the history -/

/-- The blocks that the operation of `p` has logged since its `begin_op`. -/
def opBlocks (p : P) : List (Event P) → List BlockNo
  | [] => []
  | (.beginOp q, .admitted) :: h => if q = p then [] else opBlocks p h
  | (.logWrite q b, _) :: h => if q = p then b :: opBlocks p h else opBlocks p h
  | _ :: h => opBlocks p h

/-- The blocks logged by the operations that have ended since the previous commit. -/
def ended : List (Event P) → List BlockNo
  | [] => []
  | (.endOp p, _) :: h => opBlocks p h ++ ended h
  | (.commit _, .finished) :: _ => []
  | _ :: h => ended h

/-- The blocks that the latest commit has copied to the log, the last one first. -/
def copied : List (Event P) → List BlockNo
  | [] => []
  | (.endOp _, .commits) :: _ => []
  | (.commit _, .copied b) :: h => b :: copied h
  | _ :: h => copied h

/-- The home blocks that the latest commit has written, the last one first. -/
def installed : List (Event P) → List BlockNo
  | [] => []
  | (.endOp _, .commits) :: _ => []
  | (.commit _, .installed b) :: h => b :: installed h
  | _ :: h => installed h

/-! ### The invariant -/

/-- How far a commit has come with the list `lh`. -/
def Phase (h : List (Event P)) (lh : List BlockNo) : Pc → Prop
  | .commit => copied h = [] ∧ installed h = []
  | .writeLog t => copied h = (lh.take t).reverse ∧ installed h = []
  | .writeHead => copied h = lh.reverse ∧ installed h = []
  | .installTrans t => copied h = lh.reverse ∧ installed h = (lh.take t).reverse
  | .clear => copied h = lh.reverse ∧ installed h = lh.reverse
  | .eraseHead | .committed =>
    lh = [] ∧ installed h = copied h ∧ (copied h).Nodup ∧ ∀ b, b ∈ copied h ↔ b ∈ ended h
  | _ => True

/-- The commit has emptied the list. -/
def Pc.cleared : Pc → Bool
  | .eraseHead | .committed => true
  | _ => false

/-- The blocks of the operations in progress. -/
def Pending (h : List (Event P)) (s : State P) (b : BlockNo) : Prop :=
  ∃ p, (s.pc p).busy = true ∧ b ∈ opBlocks p h

/-- The list holds the blocks of the operations that have ended and of those in progress. -/
structure Logged (h : List (Event P)) (s : State P) : Prop where
  hand : Handshake s
  nodup : s.lh.Nodup
  blocks : (∀ p, (s.pc p).cleared = false) → ∀ b, b ∈ s.lh ↔ b ∈ ended h ∨ Pending h s b
  phase : ∀ p, Phase h s.lh (s.pc p)

theorem Logged.init : Logged [] ({} : State P) :=
  ⟨.init, .nil, by simp [ended, Pending, Pc.busy], fun _ => trivial⟩

theorem phase_of_not_commits {lh : List BlockNo} {x : Pc} (hx : x.commits = false) :
    Phase h lh x := by
  cases x <;> trivial

theorem not_cleared {x : Pc} (hx : x.commits = false) : x.cleared = false := by
  cases x <;> trivial

theorem Logged.phaseAt (hl : Logged h s) {p : P} {x : Pc} (hp : s.pc p = x) : Phase h s.lh x :=
  hp ▸ hl.phase p

/-- The blocks of the list when nobody is inside an operation. -/
theorem Logged.mem_ended (hl : Logged h s) {p : P} (hp : (s.pc p).commits = true)
    (hc : (s.pc p).cleared = false) (b : BlockNo) : b ∈ s.lh ↔ b ∈ ended h := by
  have hcl : ∀ q, (s.pc q).cleared = false := fun q => by
    by_cases hq : q = p
    · rw [hq, hc]
    · refine not_cleared ?_
      by_contra hne
      exact hq (hl.hand.one q p (by simpa using hne) hp)
  have hpend : ¬ Pending h s b := by
    rintro ⟨q, hq, _⟩
    simp [hl.hand.alone p q hp] at hq
  rw [hl.blocks hcl, or_iff_left hpend]

theorem phase_commit (hs : Handshake s) {p : P} (hp : (s.pc p).commits = true)
    {h' : List (Event P)} {lh : List BlockNo} {x : Pc} (hx : Phase h' lh x) (q : P) :
    Phase h' lh ((s.setPc p x).pc q) := by
  rw [State.setPc_pc]
  split
  · exact hx
  · rename_i hq
    refine phase_of_not_commits ?_
    by_contra hne
    exact hq (hs.one q p (by simpa using hne) hp)

/-- A step of a process inside an operation that adds no block of its own. -/
theorem pending_congr {h' : List (Event P)} (hb : ∀ q, (s'.pc q).busy = (s.pc q).busy)
    (ho : ∀ q, opBlocks q h' = opBlocks q h) (b : BlockNo) : Pending h' s' b ↔ Pending h s b := by
  simp only [Pending, hb, ho]

/-- `log_write(b)` by `p` puts `b` among the blocks of the operations in progress. -/
theorem pending_logWrite {p : P} {b : BlockNo} {o : Out} (hp : (s.pc p).busy = true)
    (hb : ∀ q, (s'.pc q).busy = (s.pc q).busy) (c : BlockNo) :
    Pending ((.logWrite p b, o) :: h) s' c ↔ c = b ∨ Pending h s c := by
  constructor
  · rintro ⟨q, hq, hc⟩
    rw [hb] at hq
    simp only [opBlocks] at hc
    split at hc
    · rename_i hpq
      subst hpq
      rcases List.mem_cons.1 hc with rfl | hc
      · exact .inl rfl
      · exact .inr ⟨p, hq, hc⟩
    · exact .inr ⟨q, hq, hc⟩
  · rintro (rfl | ⟨q, hq, hc⟩)
    · exact ⟨p, by rw [hb, hp], by simp [opBlocks]⟩
    · refine ⟨q, by rw [hb, hq], ?_⟩
      simp only [opBlocks]
      split
      · exact List.mem_cons_of_mem _ hc
      · exact hc

theorem pending_begin {p : P} (hp : (s.pc p).busy = false)
    (hq : ∀ q, q ≠ p → (s'.pc q).busy = (s.pc q).busy) (b : BlockNo) :
    Pending ((.beginOp p, .admitted) :: h) s' b ↔ Pending h s b := by
  constructor
  · rintro ⟨q, hb, hm⟩
    simp only [opBlocks] at hm
    split at hm
    · cases hm
    · rename_i hne
      exact ⟨q, by rw [← hq q (Ne.symm hne), hb], hm⟩
  · rintro ⟨q, hb, hm⟩
    have hne : q ≠ p := by
      rintro rfl
      simp [hp] at hb
    exact ⟨q, by rw [hq q hne, hb], by simpa [opBlocks, Ne.symm hne] using hm⟩

/-- The blocks of the operation of `p` go over to those that have ended. -/
theorem pending_endOp {p : P} {o : Out} (hp : (s.pc p).busy = true) (hp' : (s'.pc p).busy = false)
    (hq : ∀ q, q ≠ p → (s'.pc q).busy = (s.pc q).busy) (b : BlockNo) :
    b ∈ ended ((.endOp p, o) :: h) ∨ Pending ((.endOp p, o) :: h) s' b ↔
      b ∈ ended h ∨ Pending h s b := by
  have hpend : Pending h s b ↔ b ∈ opBlocks p h ∨ Pending ((.endOp p, o) :: h) s' b := by
    constructor
    · rintro ⟨q, hb, hm⟩
      by_cases hqp : q = p
      · exact .inl (hqp ▸ hm)
      · exact .inr ⟨q, by rw [hq q hqp, hb], hm⟩
    · rintro (hm | ⟨q, hb, hm⟩)
      · exact ⟨p, hp, hm⟩
      · have hqp : q ≠ p := by
          rintro rfl
          simp [hp'] at hb
        exact ⟨q, by rw [← hq q hqp, hb], hm⟩
  rw [hpend]
  simp only [ended, List.mem_append]
  tauto

/-- A step that logs nothing, of a process that does not commit. -/
theorem Logged.quiet (hl : Logged h s) {p : P} {x y : Pc} (hs : Handshake (s.setPc p y))
    (hp : s.pc p = x) (hb : y.busy = x.busy) (hcx : x.commits = false) (hcy : y.commits = false)
    (ho : ∀ q, opBlocks q (e :: h) = opBlocks q h) (he : ended (e :: h) = ended h)
    (hco : copied (e :: h) = copied h) (hi : installed (e :: h) = installed h) :
    Logged (e :: h) (s.setPc p y) := by
  subst hp
  refine ⟨hs, hl.nodup, fun hcl b => ?_, fun q => ?_⟩
  · have hcl' : ∀ q, (s.pc q).cleared = false := fun q => by
      by_cases hq : q = p
      · rw [hq, not_cleared hcx]
      · simpa [State.setPc_pc, hq] using hcl q
    rw [State.setPc_lh, he, pending_congr (setPc_busy hb) ho, hl.blocks hcl']
  · rw [State.setPc_pc]
    split
    · exact phase_of_not_commits hcy
    · have := hl.phase q
      unfold Phase at this ⊢
      rwa [he, hco, hi]

/-- A step inside an operation: no commit is under way, before it or after it. -/
theorem Logged.inside (hl : Logged h s) (hs : Handshake s') (hc : s.committing = false)
    (hc' : s'.committing = false) (hnd : s'.lh.Nodup)
    (hb : ∀ b, (b ∈ s.lh ↔ b ∈ ended h ∨ Pending h s b) →
      (b ∈ s'.lh ↔ b ∈ ended (e :: h) ∨ Pending (e :: h) s' b)) : Logged (e :: h) s' :=
  ⟨hs, hnd, fun _ b => hb b (hl.blocks (fun q => not_cleared (hl.hand.none hc q)) b),
    fun q => phase_of_not_commits (hs.none hc' q)⟩

theorem Logged.advance (hl : Logged h s) {p : P} {x y : Pc} (hs : Handshake s') (hp : s.pc p = x)
    (hp' : s'.pc = (s.setPc p y).pc) (hcx : x.commits = true) (hcy : y.commits = true)
    (hph : Phase (e :: h) s'.lh y) (hnd : s'.lh.Nodup)
    (hb : y.cleared = true ∨ x.cleared = false ∧ s'.lh = s.lh ∧ ended (e :: h) = ended h) :
    Logged (e :: h) s' := by
  subst hp
  have hpy : s'.pc p = y := by rw [hp', State.setPc_pc_self]
  refine ⟨hs, hnd, fun hcl b => ?_, fun q => hp' ▸ phase_commit hl.hand hcx hph q⟩
  obtain hb | ⟨hx, hlh, he⟩ := hb
  · simp [← hpy, hcl p] at hb
  · have hpend : ¬ Pending (e :: h) s' b := by
      rintro ⟨q, hq, _⟩
      simp [hs.alone p q (by rw [hpy, hcy])] at hq
    rw [hlh, he, or_iff_left hpend, hl.mem_ended hcx hx]

theorem Logged.step (hl : Logged h s) (hm : Move size s e s') : Logged (e :: h) s' := by
  have hs := hl.hand.step hm
  cases hm with
  | sleep hp =>
    rcases hp with hp | hp
    · exact hl.quiet hs hp rfl rfl rfl (fun _ => rfl) rfl rfl rfl
    · exact hl.quiet hs hp rfl rfl rfl (fun _ => rfl) rfl rfl rfl
  | wake hp | check hp => exact hl.quiet hs hp rfl rfl rfl (fun _ => rfl) rfl rfl rfl
  | @absorb p b l hp hb =>
    have hpb : (s.pc p).busy = true := by rw [hp]; rfl
    have hc : s.committing = false := hl.hand.idle hpb
    refine hl.inside hs hc hc hl.nodup fun c hmem => ?_
    rw [pending_logWrite hpb (setPc_busy (by rw [hp]; rfl))]
    show c ∈ s.lh ↔ c ∈ ended h ∨ c = b ∨ Pending h s c
    rw [or_left_comm, ← hmem, or_iff_right_of_imp]
    rintro rfl
    exact hb
  | @append p b l hp hb =>
    have hpb : (s.pc p).busy = true := by rw [hp]; rfl
    have hc : s.committing = false := hl.hand.idle hpb
    refine hl.inside hs hc hc (List.nodup_append.2 ⟨hl.nodup, by simp, by grind⟩) fun c hmem => ?_
    show c ∈ s.lh ++ [b] ↔
      c ∈ ended h ∨ Pending ((.logWrite p b, .done) :: h) (s.setPc p (.inOp (l.insert b))) c
    rw [pending_logWrite hpb (setPc_busy (by rw [hp]; rfl)), or_left_comm, ← hmem, List.mem_append,
      List.mem_singleton, or_comm]
  | @enter p hp hc _ =>
    have hpb : (s.pc p).busy = false := by rcases hp with hp | hp <;> rw [hp] <;> rfl
    refine hl.inside hs hc hc hl.nodup fun b hmem => ?_
    rw [pending_begin hpb fun q hq => by simp [State.setPc_pc, hq]]
    exact hmem
  | @endOp p l hp hc ho =>
    refine hl.inside hs hc hc hl.nodup fun b hmem => ?_
    rw [pending_endOp (by rw [hp]; rfl) (by simp [Pc.busy]) fun q hq => by
      rw [State.setPc_pc, if_neg hq, wakeup_busy]]
    exact hmem
  | @endLast p l hp hc ho =>
    have hnone := hl.hand.none hc
    have hm : ∀ b, b ∈ s.lh ↔ b ∈ ended ((.endOp p, .commits) :: h) ∨
        Pending ((.endOp p, .commits) :: h) (s.setPc p .commit) b := fun b => by
      rw [pending_endOp (by rw [hp]; rfl) (by simp [Pc.busy]) fun q hq => by
        rw [State.setPc_pc, if_neg hq]]
      exact hl.blocks (fun q => not_cleared (hnone q)) b
    refine ⟨hs, hl.nodup, fun _ => hm, fun q => ?_⟩
    show Phase _ _ ((s.setPc p .commit).pc q)
    rw [State.setPc_pc]
    split
    · exact ⟨rfl, rfl⟩
    · exact phase_of_not_commits (hnone q)
  | nothing hp hnil =>
    have hph := hl.phaseAt hp
    have hco : copied h = [] := hph.1
    refine hl.advance hs hp rfl rfl rfl ⟨hnil, hph.2.trans hco.symm, ?_, fun b => ?_⟩ hl.nodup (.inl rfl)
    · show (copied h).Nodup
      rw [hco]
      exact .nil
    · show b ∈ copied h ↔ b ∈ ended h
      rw [hco, ← hl.mem_ended (by rw [hp]; rfl) (by rw [hp]; rfl), hnil]
  | start hp =>
    have hph := hl.phaseAt hp
    exact hl.advance hs hp rfl rfl rfl hph hl.nodup (.inr ⟨rfl, rfl, rfl⟩)
  | copy hp hb =>
    have hph := hl.phaseAt hp
    refine hl.advance hs hp rfl rfl rfl ⟨?_, hph.2⟩ hl.nodup (.inr ⟨rfl, rfl, rfl⟩)
    simp [copied, hph.1, List.take_add_one, hb]
  | copied hp hn =>
    have hph := hl.phaseAt hp
    refine hl.advance hs hp rfl rfl rfl ⟨?_, hph.2⟩ hl.nodup (.inr ⟨rfl, rfl, rfl⟩)
    rw [State.setPc_lh, ← List.take_of_length_le (List.getElem?_eq_none_iff.1 hn)]
    exact hph.1
  | header hp =>
    have hph := hl.phaseAt hp
    exact hl.advance hs hp rfl rfl rfl hph hl.nodup (.inr ⟨rfl, rfl, rfl⟩)
  | install hp hb =>
    have hph := hl.phaseAt hp
    refine hl.advance hs hp rfl rfl rfl ⟨hph.1, ?_⟩ hl.nodup (.inr ⟨rfl, rfl, rfl⟩)
    simp [installed, hph.2, List.take_add_one, hb]
  | installed hp hn =>
    have hph := hl.phaseAt hp
    refine hl.advance hs hp rfl rfl rfl ⟨hph.1, ?_⟩ hl.nodup (.inr ⟨rfl, rfl, rfl⟩)
    rw [State.setPc_lh, ← List.take_of_length_le (List.getElem?_eq_none_iff.1 hn)]
    exact hph.2
  | clear hp =>
    have hph := hl.phaseAt hp
    have hco : copied h = s.lh.reverse := hph.1
    refine hl.advance hs hp rfl rfl rfl ⟨rfl, hph.2.trans hco.symm, ?_, fun b => ?_⟩ .nil (.inl rfl)
    · show (copied h).Nodup
      rw [hco]
      exact List.nodup_reverse.2 hl.nodup
    · show b ∈ copied h ↔ b ∈ ended h
      rw [hco, List.mem_reverse, hl.mem_ended (by rw [hp]; rfl) (by rw [hp]; rfl)]
  | erase hp =>
    have hph := hl.phaseAt hp
    exact hl.advance hs hp rfl rfl rfl hph hl.nodup (.inl rfl)
  | @finish p hp =>
    obtain ⟨hnil, -⟩ := hl.phaseAt hp
    refine ⟨hs, hl.nodup, fun _ b => ?_, fun q => phase_of_not_commits (hs.none rfl q)⟩
    have hpend : ¬ Pending ((.commit p, .finished) :: h)
        { s.wakeup.setPc p .out with committing := false } b := by
      rintro ⟨q, hq, _⟩
      rw [show _ = _ from setPc_busy (by rw [wakeup_busy, hp]; rfl) q, wakeup_busy,
        hl.hand.alone p q (by rw [hp]; rfl)] at hq
      cases hq
    rw [or_iff_left hpend]
    show b ∈ s.lh ↔ b ∈ []
    rw [hnil]

theorem Runs.logged (hr : (log P size).Runs h s) : Logged h s :=
  hr.invariant .init fun _ hl hst => hl.step (move_of_step hst)

/-! ### Isolation -/

omit [DecidableEq P] in
theorem Handshake.outstanding_eq_zero (hs : Handshake s) (hc : s.committing = true) :
    s.outstanding = 0 := by
  obtain ⟨S, hS, hcard⟩ := hs.count
  obtain ⟨p, hp⟩ := hs.flag.1 hc
  have hS0 : S = ∅ := Finset.eq_empty_of_forall_notMem fun q hq => by
    simpa [hs.alone p q hp] using (hS q).1 hq
  rw [hcard, hS0]
  rfl

omit [DecidableEq P] in
/-- A process that is not inside an operation cannot be at a `log_write`. -/
theorem not_logWrite {q : P} (hq : (s.pc q).busy = false) (b : BlockNo) :
    enabled s (.check q b) = false ∧ enabled s (.logWrite q b) = false := by
  simp only [enabled]
  cases hx : s.pc q <;> simp_all [Pc.busy]

theorem Handshake.endOp_ok (hs : Handshake s) {p : P} (he : enabled s (.endOp p) = true) :
    ∃ r, exec size s (.endOp p) = .ok r := by
  have hp : (s.pc p).busy = true := by
    simp only [enabled] at he
    split at he
    · rename_i hx
      rw [hx]; rfl
    · cases he
  simp only [exec, endOp, hs.idle hp, Bool.false_eq_true, if_false]
  split
  · exact ⟨_, rfl⟩
  · exact ⟨_, rfl⟩

/-- **Group commit is isolated**: whatever the processes do, a commit finds no operation in
progress and no `log_write` runs during it, `end_op` does not panic, the list has no duplicates,
and the blocks that a commit copies to the log, puts into the header and installs are those of the
operations that have ended since the previous commit. -/
theorem group_commit (hr : (log P size).Runs h s) :
    (s.committing = true → s.outstanding = 0) ∧
    (∀ p q b, (s.pc p).commits = true →
      enabled s (.check q b) = false ∧ enabled s (.logWrite q b) = false) ∧
    (∀ p, enabled s (.endOp p) = true → ∃ r, exec size s (.endOp p) = .ok r) ∧
    s.lh.Nodup ∧
    (∀ p, s.pc p = .writeHead → copied h = s.lh.reverse ∧ ∀ b, b ∈ s.lh ↔ b ∈ ended h) ∧
    ∀ p, s.pc p = .committed →
      (copied h).Nodup ∧ installed h = copied h ∧ ∀ b, b ∈ copied h ↔ b ∈ ended h := by
  have hl := Runs.logged hr
  refine ⟨hl.hand.outstanding_eq_zero, fun p q b hp => not_logWrite (hl.hand.alone p q hp) b,
    fun p he => hl.hand.endOp_ok he, hl.nodup, fun p hp => ?_, fun p hp => ?_⟩
  · obtain ⟨hco, -⟩ := hl.phaseAt hp
    exact ⟨hco, hl.mem_ended (by rw [hp]; rfl) (by rw [hp]; rfl)⟩
  · obtain ⟨-, hi, hnd, hmem⟩ := hl.phaseAt hp
    exact ⟨hnd, hi, hmem⟩

/-- Two operations that share a block: `begin_op` twice, three calls of `log_write`, `end_op` twice,
and the commit. -/
def twoOps : List (Event (Fin 2)) :=
  [(.beginOp 0, .admitted), (.beginOp 1, .admitted), (.check 0 50, .done), (.check 1 50, .done),
    (.logWrite 1 50, .done), (.logWrite 0 50, .done), (.endOp 1, .done), (.check 0 60, .done),
    (.logWrite 0 60, .done), (.endOp 0, .commits), (.commit 0, .done), (.commit 0, .copied 50),
    (.commit 0, .copied 60), (.commit 0, .done), (.commit 0, .header 2), (.commit 0, .installed 50),
    (.commit 0, .installed 60), (.commit 0, .done), (.commit 0, .done), (.commit 0, .header 0)]

theorem group_commit_twoOps :
    ∃ s : State (Fin 2), (log (Fin 2) nlog).Runs twoOps.reverse s ∧ s.pc 0 = .committed ∧
      copied twoOps.reverse = [60, 50] ∧
      ∀ b, b ∈ copied twoOps.reverse ↔ b ∈ ended twoOps.reverse := by
  obtain ⟨s, hr, hs⟩ := (log (Fin 2) nlog).exists_runs twoOps (fun s => s.pc 0 = .committed)
    (by decide +kernel)
  have hp : s.pc 0 = .committed := of_decide_eq_true hs
  exact ⟨s, hr, hp, by decide +kernel, ((group_commit hr).2.2.2.2.2 0 hp).2.2⟩

end Xv6.Log
