import Xv6.Log.Ops
import Mathlib.Data.Finset.Card

/-!
# Group commit

The handshake of `outstanding` and `committing`: a commit runs alone, with no operation in
progress, so that the blocks it writes are those of the operations that have ended since the
previous commit, all of them and nothing else. What the operations have logged is read off the
history.
-/

namespace Xv6.Log

open Lib

variable {P : Type} [DecidableEq P] {size : ℤ} {s s' : State P} {e : Event P} {h : List (Event P)}

/-! ### What a step can do -/

/-- The steps, with what each of them finds. -/
inductive Move (size : ℤ) (s : State P) : Event P → State P → Prop
  | sleep {p} : s.pc p = .out ∨ s.pc p = .retry → Move size s (.beginOp p, .asleep) (s.setPc p .asleep)
  | enter {p} : s.pc p = .out ∨ s.pc p = .retry → s.committing = false →
      s.lh.length + (s.outstanding + 1) * MAXOPBLOCKS ≤ LOGSIZE →
      Move size s (.beginOp p, .admitted)
        { s.setPc p (.inOp []) with outstanding := s.outstanding + 1 }
  | wake {p} : s.pc p = .asleep → Move size s (.wake p, .done) (s.setPc p .retry)
  | check {p b l} : s.pc p = .inOp l → s.lh.length < LOGSIZE → s.lh.length < size - 1 →
      Move size s (.check p b, .done) (s.setPc p (.checked l b))
  | absorb {p b l} : s.pc p = .checked l b → b ∈ s.lh →
      Move size s (.logWrite p b, .done) (s.setPc p (.inOp (l.insert b)))
  | append {p b l} : s.pc p = .checked l b → b ∉ s.lh → s.lh.length < LOGSIZE →
      Move size s (.logWrite p b, .done) { s.setPc p (.inOp (l.insert b)) with lh := s.lh ++ [b] }
  | endOp {p l} : s.pc p = .inOp l → s.committing = false → s.outstanding - 1 ≠ 0 →
      Move size s (.endOp p, .done)
        (({ s with outstanding := s.outstanding - 1 } : State P).wakeup.setPc p .out)
  | endLast {p l} : s.pc p = .inOp l → s.committing = false → s.outstanding - 1 = 0 →
      Move size s (.endOp p, .commits)
        { s.setPc p .commit with outstanding := s.outstanding - 1, committing := true }
  | nothing {p} : s.pc p = .commit → s.lh = [] → Move size s (.commit p, .done) (s.setPc p .committed)
  | start {p} : s.pc p = .commit → Move size s (.commit p, .done) (s.setPc p (.writeLog 0))
  | copy {p t b} : s.pc p = .writeLog t → s.lh[t]? = some b →
      Move size s (.commit p, .copied b) (s.setPc p (.writeLog (t + 1)))
  | copied {p t} : s.pc p = .writeLog t → s.lh[t]? = none →
      Move size s (.commit p, .done) (s.setPc p .writeHead)
  | header {p n} : s.pc p = .writeHead → Move size s (.commit p, .header n) (s.setPc p (.installTrans 0))
  | install {p t b} : s.pc p = .installTrans t → s.lh[t]? = some b →
      Move size s (.commit p, .installed b) (s.setPc p (.installTrans (t + 1)))
  | installed {p t} : s.pc p = .installTrans t → s.lh[t]? = none →
      Move size s (.commit p, .done) (s.setPc p .clear)
  | clear {p} : s.pc p = .clear → Move size s (.commit p, .done) { s.setPc p .eraseHead with lh := [] }
  | erase {p n} : s.pc p = .eraseHead → Move size s (.commit p, .header n) (s.setPc p .committed)
  | finish {p} : s.pc p = .committed →
      Move size s (.commit p, .finished) { s.wakeup.setPc p .out with committing := false }

theorem move_of_commit {p : P} {o : Out} (hx : commitStep s p (s.pc p) = .ok (s', o)) :
    Move size s (.commit p, o) s' := by
  unfold commitStep at hx
  split at hx
  · rename_i hp
    cases hx
    split
    · exact .start hp
    · exact .nothing hp (List.length_eq_zero_iff.1 (by omega))
  · rename_i hp
    split at hx <;> cases hx
    · exact .copy hp ‹_›
    · exact .copied hp ‹_›
  · cases hx; exact .header ‹_›
  · rename_i hp
    split at hx <;> cases hx
    · exact .install hp ‹_›
    · exact .installed hp ‹_›
  · cases hx; exact .clear ‹_›
  · cases hx; exact .erase ‹_›
  · cases hx; exact .finish ‹_›
  · cases hx

theorem move_of_step (h : (log P size).Step s e s') : Move size s e s' := by
  obtain ⟨a, o⟩ := e
  obtain ⟨he, hx⟩ := step_iff.1 h
  cases a with
  | beginOp p =>
    have hp : s.pc p = .out ∨ s.pc p = .retry := by simpa [enabled] using he
    simp only [exec, beginOp] at hx
    split at hx
    · cases hx; exact .sleep hp
    · rename_i hc
      split at hx
      · cases hx; exact .sleep hp
      · cases hx; exact .enter hp (by simpa using hc) (by omega)
  | wake p => cases hx; exact .wake (by simpa [enabled] using he)
  | check p b =>
    simp only [exec] at hx
    split at hx
    · rename_i hp
      unfold check at hx
      split at hx
      · cases hx
      · split at hx
        · cases hx
        · cases hx; exact .check hp (by omega) (by omega)
    · cases hx
  | logWrite p b =>
    simp only [exec] at hx
    split at hx
    · rename_i l c hp
      obtain rfl : b = c := by simpa [enabled, hp] using he
      unfold logWrite at hx
      dsimp only at hx
      split at hx
      · cases hx; exact .absorb hp ‹_›
      · split at hx
        · cases hx; exact .append hp ‹_› ‹_›
        · cases hx
    · cases hx
  | endOp p =>
    obtain ⟨l, hp⟩ : ∃ l, s.pc p = .inOp l := by
      simp only [enabled] at he
      split at he
      · exact ⟨_, ‹_›⟩
      · cases he
    simp only [exec, endOp] at hx
    split at hx
    · cases hx
    · rename_i hc
      split at hx
      · cases hx; exact .endLast hp (by simpa using hc) ‹_›
      · cases hx; exact .endOp hp (by simpa using hc) ‹_›
  | commit p => exact move_of_commit hx

/-! ### The handshake -/

def Pc.busy : Pc → Bool
  | .inOp _ | .checked _ _ => true
  | _ => false

/-- Inside the part of `end_op` that runs `commit`. -/
def Pc.commits : Pc → Bool
  | .commit | .writeLog _ | .writeHead | .installTrans _ | .clear | .eraseHead | .committed => true
  | _ => false

/-- `outstanding` counts the operations in progress, `committing` says that a process commits, and
a process that commits is alone. -/
structure Handshake (s : State P) : Prop where
  count : ∃ S : Finset P, (∀ p, p ∈ S ↔ (s.pc p).busy = true) ∧ s.outstanding = S.card
  flag : s.committing = true ↔ ∃ p, (s.pc p).commits = true
  one : ∀ p q, (s.pc p).commits = true → (s.pc q).commits = true → p = q
  alone : ∀ p q, (s.pc p).commits = true → (s.pc q).busy = false

omit [DecidableEq P] in
theorem Handshake.init : Handshake ({} : State P) :=
  ⟨⟨∅, by simp [Pc.busy]⟩, by simp [Pc.commits], by simp [Pc.commits], by simp [Pc.commits]⟩

omit [DecidableEq P] in
/-- A step that takes no process into or out of an operation or a commit. -/
theorem Handshake.congr (hs : Handshake s) (ho : s'.outstanding = s.outstanding)
    (hc : s'.committing = s.committing) (hi : ∀ p, (s'.pc p).busy = (s.pc p).busy)
    (hm : ∀ p, (s'.pc p).commits = (s.pc p).commits) : Handshake s' := by
  obtain ⟨S, hS, hcard⟩ := hs.count
  refine ⟨⟨S, fun p => by rw [hi, hS], by rw [ho, hcard]⟩, ?_, ?_, ?_⟩
  · simp only [hc, hm]; exact hs.flag
  · simp only [hm]; exact hs.one
  · simp only [hi, hm]; exact hs.alone

theorem setPc_busy {p : P} {x : Pc} (hx : x.busy = (s.pc p).busy) (q : P) :
    ((s.setPc p x).pc q).busy = (s.pc q).busy := by
  rw [State.setPc_pc]
  split
  · rename_i hq
    rw [hx, hq]
  · rfl

theorem setPc_commits {p : P} {x : Pc} (hx : x.commits = (s.pc p).commits) (q : P) :
    ((s.setPc p x).pc q).commits = (s.pc q).commits := by
  rw [State.setPc_pc]
  split
  · rename_i hq
    rw [hx, hq]
  · rfl

omit [DecidableEq P] in
theorem wakeup_busy (q : P) : (s.wakeup.pc q).busy = (s.pc q).busy := by
  simp only [State.wakeup]
  split
  · rename_i hq
    rw [hq]; rfl
  · rfl

omit [DecidableEq P] in
theorem wakeup_commits (q : P) : (s.wakeup.pc q).commits = (s.pc q).commits := by
  simp only [State.wakeup]
  split
  · rename_i hq
    rw [hq]; rfl
  · rfl

omit [DecidableEq P] in
theorem Handshake.none (hs : Handshake s) (hc : s.committing = false) (q : P) :
    (s.pc q).commits = false := by
  by_contra hne
  simpa [hc] using hs.flag.2 ⟨q, by simpa using hne⟩

omit [DecidableEq P] in
/-- No commit is under way while an operation is. -/
theorem Handshake.idle (hs : Handshake s) {p : P} (hp : (s.pc p).busy = true) :
    s.committing = false := by
  by_contra hne
  obtain ⟨q, hq⟩ := hs.flag.1 (by simpa using hne)
  simp [hs.alone q p hq] at hp

omit [DecidableEq P] in
/-- The last operation in progress is the only one. -/
theorem Handshake.last (hs : Handshake s) {p : P} (hp : (s.pc p).busy = true)
    (ho : s.outstanding - 1 = 0) (q : P) (hq : q ≠ p) : (s.pc q).busy = false := by
  obtain ⟨S, hS, hcard⟩ := hs.count
  have h1 : S.card ≤ 1 := by omega
  by_contra hne
  exact hq (Finset.card_le_one.1 h1 q ((hS q).2 (by simpa using hne)) p ((hS p).2 hp))

theorem Handshake.step (hs : Handshake s) (hm : Move size s e s') : Handshake s' := by
  -- most moves keep a process on its side of both boundaries
  have hkeep : ∀ {p x y} {s' : State P}, s.pc p = x → s'.pc = (s.setPc p y).pc →
      s'.outstanding = s.outstanding → s'.committing = s.committing →
      y.busy = x.busy → y.commits = x.commits → Handshake s' := fun hp hq ho hc hb hm =>
    hs.congr ho hc (fun q => hq ▸ setPc_busy (hp ▸ hb) q) fun q => hq ▸ setPc_commits (hp ▸ hm) q
  obtain ⟨S, hS, hcard⟩ := hs.count
  cases hm with
  | sleep hp =>
    rcases hp with hp | hp
    · exact hkeep hp rfl rfl rfl rfl rfl
    · exact hkeep hp rfl rfl rfl rfl rfl
  | wake hp | check hp | absorb hp | append hp | nothing hp | start hp | copy hp | copied hp
  | header hp | install hp | installed hp | clear hp | erase hp => exact hkeep hp rfl rfl rfl rfl rfl
  | @enter p hp hc _ =>
    have hpb : (s.pc p).busy = false := by rcases hp with hp | hp <;> rw [hp] <;> rfl
    have hpc : (s.pc p).commits = false := by rcases hp with hp | hp <;> rw [hp] <;> rfl
    have hnone := hs.none hc
    have hm : ∀ q, ((s.setPc p (.inOp [])).pc q).commits = false := fun q => by
      rw [setPc_commits (by rw [hpc]; rfl), hnone]
    refine ⟨⟨insert p S, fun q => ?_, ?_⟩, by simp [hm, hc], by simp [hm], by simp [hm]⟩
    · simp only [State.setPc_pc, Finset.mem_insert, hS]
      split <;> simp_all [Pc.busy]
    · rw [Finset.card_insert_of_notMem (by simp [hS, hpb])]
      simp [hcard]
  | @endOp p l hp hc ho =>
    have hnone := hs.none hc
    set w := ({ s with outstanding := s.outstanding - 1 } : State P).wakeup
    have hwb : ∀ q, (w.pc q).busy = (s.pc q).busy := wakeup_busy
    have hwc : ∀ q, (w.pc q).commits = (s.pc q).commits := wakeup_commits
    have hm : ∀ q, ((w.setPc p .out).pc q).commits = false := fun q => by
      rw [setPc_commits (by rw [hwc, hnone]; rfl), hwc, hnone]
    refine ⟨⟨S.erase p, fun q => ?_, ?_⟩, ?_, by simp [hm], by simp [hm]⟩
    · simp only [State.setPc_pc, Finset.mem_erase, hS]
      split <;> simp_all [Pc.busy]
    · have hmem : p ∈ S := (hS p).2 (by rw [hp]; rfl)
      have := Finset.card_erase_add_one hmem
      show s.outstanding - 1 = _
      omega
    · show s.committing = true ↔ _
      simp [hm, hc]
  | @endLast p l hp hc ho =>
    have hlast := hs.last (by rw [hp]; rfl) ho
    have hnone := hs.none hc
    have hb : ∀ q, ((s.setPc p .commit).pc q).busy = false := fun q => by
      rw [State.setPc_pc]
      split
      · rfl
      · exact hlast q ‹_›
    have hm : ∀ q, ((s.setPc p .commit).pc q).commits = true ↔ q = p := fun q => by
      rw [State.setPc_pc]
      split <;> simp_all [Pc.commits]
    refine ⟨⟨∅, by simp [hb], by simpa using ho⟩, by simp [hm], ?_, by simp [hb]⟩
    simp only [hm]
    rintro q r rfl rfl
    rfl
  | @finish p hp =>
    have hpc : (s.pc p).commits = true := by rw [hp]; rfl
    have hb : ∀ q, (((s.wakeup).setPc p .out).pc q).busy = false := fun q => by
      rw [setPc_busy (by rw [wakeup_busy, hp]; rfl), wakeup_busy]
      exact hs.alone p q hpc
    have hm : ∀ q, (((s.wakeup).setPc p .out).pc q).commits = false := fun q => by
      rw [State.setPc_pc]
      split
      · rfl
      · rename_i hq
        rw [wakeup_commits]
        by_contra hne
        exact hq (hs.one q p (by simpa using hne) hpc)
    have hS0 : S = ∅ := Finset.eq_empty_of_forall_notMem fun q hq => by
      simpa [hs.alone p q hpc] using (hS q).1 hq
    refine ⟨⟨∅, by simp [hb], ?_⟩, by simp [hm], by simp [hm], by simp [hm]⟩
    show s.outstanding = _
    rw [hcard, hS0]

end Xv6.Log
