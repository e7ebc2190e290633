import Xv6.Log.Group
import Mathlib.Algebra.BigOperators.Group.Finset.Basic
import Mathlib.Algebra.Group.Action.Defs
import Mathlib.Algebra.Order.BigOperators.Group.Finset

/-!
# Log space

`begin_op` reserves `MAXOPBLOCKS` entries of the list for each operation in progress, against a
limit of `LOGSIZE`, while `log_write` refuses a list of `log.size - 1` entries, and `mkfs` makes
`log.size` the same `LOGSIZE`. Three operations that are admitted together may therefore fill the
list up to the limit of `log_write` and stop there; a reservation against two entries less is
enough.

The argument is a potential: the entries in use and the entries that the operations in progress
may still add never exceed the reservation.
-/

namespace Xv6.Log

open Lib

variable {P : Type} [DecidableEq P] {s s' : State P} {e : Event P} {h : List (Event P)}

/-! ### The conditions -/

/-- The operation stays within `MAXOPBLOCKS` distinct blocks. -/
def opBound (s : State P) : Act P → Bool
  | .check p b =>
    match s.pc p with
    | .inOp logged => b ∈ logged || logged.length < MAXOPBLOCKS
    | _ => true
  | _ => true

/-- `begin_op` admits an operation only if two entries are left over. -/
def spare (s : State P) : Act P → Bool
  | .beginOp p =>
    (beginOp s p).2 ≠ .admitted ||
      s.lh.length + (s.outstanding + 1) * MAXOPBLOCKS ≤ (LOGSIZE : ℤ) - 2
  | _ => true

/-- The steps of operations that stay within their bound, with the larger reservation. -/
def reserveGuard (s : State P) (a : Act P) : Bool := opBound s a && spare s a

/-! ### The potential -/

/-- The entries that an operation may still add. -/
def Pc.room : Pc → ℕ
  | .inOp l | .checked l _ => MAXOPBLOCKS - l.length
  | _ => 0

/-- What an operation has logged is in the list, and what it is about to log is within its
bound. -/
def Pc.Within (lh : List BlockNo) : Pc → Prop
  | .inOp l => l ⊆ lh
  | .checked l b => l ⊆ lh ∧ (b ∈ l ∨ l.length < MAXOPBLOCKS)
  | _ => True

/-- The entries in use and those that may still be added leave two entries over. -/
structure Reserved (s : State P) : Prop where
  hand : Handshake s
  within : ∀ p, (s.pc p).Within s.lh
  fits : ∀ S : Finset P, (∀ p, p ∈ S ↔ (s.pc p).busy = true) →
    s.lh.length + ∑ p ∈ S, (s.pc p).room ≤ LOGSIZE - 2

omit [DecidableEq P] in
theorem Reserved.init : Reserved ({} : State P) :=
  ⟨.init, fun _ => trivial, fun S hS => by simp [Pc.room]⟩

theorem room_le (x : Pc) : x.room ≤ MAXOPBLOCKS := by
  cases x <;> simp [Pc.room]

theorem Pc.Within.mono {x : Pc} {lh lh' : List BlockNo} (hx : x.Within lh) (hl : lh ⊆ lh') :
    x.Within lh' := by
  cases x with
  | inOp l => exact fun b hb => hl (hx hb)
  | checked l b => exact ⟨fun b hb => hl (hx.1 hb), hx.2⟩
  | _ => trivial

omit [DecidableEq P] in
/-- `outstanding` is the number of operations in progress. -/
theorem Handshake.card (hs : Handshake s) {S : Finset P}
    (hS : ∀ p, p ∈ S ↔ (s.pc p).busy = true) : s.outstanding = S.card := by
  obtain ⟨T, hT, hcard⟩ := hs.count
  rw [hcard, show T = S by ext p; rw [hT, hS]]

omit [DecidableEq P] in
theorem Handshake.one_le (hs : Handshake s) {p : P} (hp : (s.pc p).busy = true) :
    1 ≤ s.outstanding := by
  obtain ⟨S, hS, hcard⟩ := hs.count
  have : 0 < S.card := Finset.card_pos.2 ⟨p, (hS p).2 hp⟩
  omega

omit [DecidableEq P] in
theorem Reserved.length_le (hr : Reserved s) : s.lh.length ≤ LOGSIZE - 2 := by
  obtain ⟨S, hS, -⟩ := hr.hand.count
  have := hr.fits S hS
  omega

theorem room_of_not_busy {x : Pc} (hx : x.busy = false) : x.room = 0 := by
  cases x <;> trivial

theorem within_of_not_busy {x : Pc} {lh : List BlockNo} (hx : x.busy = false) : x.Within lh := by
  cases x <;> trivial

/-- A step that pays for its new entries with the room of the process that takes it. -/
theorem Reserved.shift (hr : Reserved s) (hs : Handshake s') {p : P} {x y : Pc} (hp : s.pc p = x)
    (hp' : s'.pc = (s.setPc p y).pc) (hb : y.busy = x.busy) (hy : y.Within s'.lh)
    (hsub : s.lh ⊆ s'.lh) (hroom : s'.lh.length + y.room ≤ s.lh.length + x.room) : Reserved s' := by
  subst hp
  have hself : s'.pc p = y := by rw [hp', State.setPc_pc_self]
  have hne : ∀ q, q ≠ p → s'.pc q = s.pc q := fun q hq => by rw [hp', State.setPc_pc, if_neg hq]
  have hbusy : ∀ q, (s'.pc q).busy = (s.pc q).busy := fun q => by rw [hp']; exact setPc_busy hb q
  refine ⟨hs, fun q => ?_, fun S hS => ?_⟩
  · by_cases hq : q = p
    · rwa [hq, hself]
    · exact hne q hq ▸ (hr.within q).mono hsub
  · have hfits := hr.fits S fun q => by rw [hS, hbusy]
    have hrest : ∑ q ∈ S.erase p, (s'.pc q).room = ∑ q ∈ S.erase p, (s.pc q).room :=
      Finset.sum_congr rfl fun q hq => by rw [hne q (Finset.ne_of_mem_erase hq)]
    by_cases hmem : p ∈ S
    · rw [← Finset.add_sum_erase _ _ hmem] at hfits ⊢
      rw [hself]
      omega
    · -- outside an operation there is no room to pay with
      have hpb : (s.pc p).busy = false := by simpa [hS, hbusy] using hmem
      rw [Finset.erase_eq_of_notMem hmem] at hrest
      rw [room_of_not_busy hpb, room_of_not_busy (hb.trans hpb)] at hroom
      omega

omit [DecidableEq P] in
theorem Reserved.idle (hs : Handshake s) (hb : ∀ q, (s.pc q).busy = false)
    (hlen : s.lh.length ≤ LOGSIZE - 2) : Reserved s := by
  refine ⟨hs, fun q => within_of_not_busy (hb q), fun S hS => ?_⟩
  rw [Finset.sum_eq_zero fun q _ => room_of_not_busy (hb q)]
  exact hlen

theorem Reserved.enter (hr : Reserved s) {p : P} (hp : (s.pc p).busy = false)
    (hs : Handshake { s.setPc p (.inOp []) with outstanding := s.outstanding + 1 })
    (hroom : s.lh.length + (s.outstanding + 1) * MAXOPBLOCKS ≤ (LOGSIZE : ℤ) - 2) :
    Reserved { s.setPc p (.inOp []) with outstanding := s.outstanding + 1 } := by
  have hne : ∀ q, q ≠ p → (s.setPc p (.inOp [])).pc q = s.pc q := fun q hq => by
    rw [State.setPc_pc, if_neg hq]
  refine ⟨hs, fun q => ?_, fun S hS => ?_⟩
  · show ((s.setPc p (.inOp [])).pc q).Within s.lh
    by_cases hq : q = p
    · rw [hq, State.setPc_pc_self]
      exact List.nil_subset _
    · exact hne q hq ▸ hr.within q
  · have hmem : p ∈ S := (hS p).2 (by simp [Pc.busy])
    have hS' : ∀ q, q ∈ S.erase p ↔ (s.pc q).busy = true := fun q => by
      by_cases hq : q = p
      · simp [hq, hp]
      · rw [Finset.mem_erase, and_iff_right hq, hS]
        exact hne q hq ▸ Iff.rfl
    have hcard := hr.hand.card hS'
    have hrest : ∑ q ∈ S.erase p, ((s.setPc p (.inOp [])).pc q).room ≤
        (S.erase p).card • MAXOPBLOCKS := Finset.sum_le_card_nsmul _ _ _ fun q _ => room_le _
    show s.lh.length + ∑ q ∈ S, ((s.setPc p (.inOp [])).pc q).room ≤ LOGSIZE - 2
    rw [← Finset.add_sum_erase _ _ hmem, State.setPc_pc_self]
    have hroom' : Pc.room (.inOp []) = MAXOPBLOCKS := rfl
    simp only [smul_eq_mul, MAXOPBLOCKS, LOGSIZE] at *
    omega

theorem Reserved.endOp (hr : Reserved s) {p : P} (hp : (s.pc p).busy = true)
    (hs : Handshake s') (hlh : s'.lh = s.lh) (hp' : s'.pc p = .out)
    (hne : ∀ q, q ≠ p → s'.pc q = s.wakeup.pc q) : Reserved s' := by
  have hroom : ∀ q, q ≠ p → (s'.pc q).room = (s.pc q).room := fun q hq => by
    rw [hne q hq, State.wakeup]
    dsimp only
    split
    · rename_i hx; rw [hx]; rfl
    · rfl
  refine ⟨hs, fun q => ?_, fun S hS => ?_⟩
  · by_cases hq : q = p
    · rw [hq, hp']; trivial
    · rw [hne q hq, State.wakeup, hlh]
      dsimp only
      split
      · trivial
      · exact hr.within q
  · have hmem : p ∉ S := by simp [hS, hp', Pc.busy]
    have hfits := hr.fits (insert p S) fun q => by
      by_cases hq : q = p
      · simp [hq, hp]
      · rw [Finset.mem_insert, or_iff_right hq, hS, hne q hq, wakeup_busy]
    rw [Finset.sum_insert hmem] at hfits
    have hsum : ∑ q ∈ S, (s'.pc q).room = ∑ q ∈ S, (s.pc q).room :=
      Finset.sum_congr rfl fun q hq => hroom q fun h => hmem (h ▸ hq)
    rw [hlh, hsum]
    omega

theorem Reserved.step {size : ℤ} (hr : Reserved s) (hm : Move size s e s')
    (hg : reserveGuard s e.1 = true) : Reserved s' := by
  have hs := hr.hand.step hm
  obtain ⟨hop, hsp⟩ : opBound s e.1 = true ∧ spare s e.1 = true := by
    simpa [reserveGuard] using hg
  cases hm with
  | sleep hp =>
    rcases hp with hp | hp
    · exact hr.shift hs hp rfl rfl trivial (List.Subset.refl _) le_rfl
    · exact hr.shift hs hp rfl rfl trivial (List.Subset.refl _) le_rfl
  | wake hp | nothing hp | start hp | copy hp | copied hp | header hp | install hp | installed hp
  | erase hp => exact hr.shift hs hp rfl rfl trivial (List.Subset.refl _) le_rfl
  | @check p b l hp =>
    have hw := hr.within p
    rw [hp] at hw
    simp only [opBound, hp, Bool.or_eq_true, decide_eq_true_eq] at hop
    exact hr.shift hs hp rfl rfl ⟨hw, hop⟩ (List.Subset.refl _) le_rfl
  | @absorb p b l hp hb =>
    have hw := hr.within p
    rw [hp] at hw
    refine hr.shift hs hp rfl rfl ?_ (List.Subset.refl _) ?_
    · intro c hc
      rcases List.mem_insert_iff.1 hc with rfl | hc
      · exact hb
      · exact hw.1 hc
    · have : l.length ≤ (l.insert b).length := List.length_le_length_insert
      simp only [Pc.room, State.setPc_lh]
      omega
  | @append p b l hp hb =>
    have hw := hr.within p
    rw [hp] at hw
    have hbl : b ∉ l := fun h => hb (hw.1 h)
    have hlt : l.length < MAXOPBLOCKS := hw.2.resolve_left hbl
    refine hr.shift hs hp rfl rfl ?_ (List.subset_append_left _ _) ?_
    · intro c hc
      rcases List.mem_insert_iff.1 hc with rfl | hc
      · exact List.mem_append_right _ (List.mem_singleton.2 rfl)
      · exact List.mem_append_left _ (hw.1 hc)
    · have : (l.insert b).length = l.length + 1 := List.length_insert_of_not_mem hbl
      simp only [Pc.room, List.length_append, List.length_singleton]
      omega
  | @enter p hp hc hfit =>
    have hpb : (s.pc p).busy = false := by rcases hp with hp | hp <;> rw [hp] <;> rfl
    have hadm : (beginOp s p).2 = .admitted := by
      unfold beginOp
      rw [if_neg (by simp [hc]), if_neg (not_lt.2 hfit)]
    refine hr.enter hpb hs ?_
    simpa only [spare, hadm, ne_eq, not_true_eq_false, decide_false, Bool.false_or,
      decide_eq_true_eq] using hsp
  | endOp hp =>
    exact hr.endOp (by rw [hp]; rfl) hs rfl (State.setPc_pc_self ..) fun q hq => by
      rw [State.setPc_pc, if_neg hq]
      rfl
  | @endLast p l hp hc ho =>
    exact .idle hs (hs.alone p · (by simp [Pc.commits])) hr.length_le
  | @clear p hp => exact .idle hs (hs.alone p · (by simp [Pc.commits])) (Nat.zero_le _)
  | @finish p hp =>
    refine .idle hs (fun q => ?_) hr.length_le
    show ((s.wakeup.setPc p .out).pc q).busy = false
    rw [setPc_busy (by rw [wakeup_busy, hp]; rfl), wakeup_busy, hr.hand.alone p q (by rw [hp]; rfl)]

theorem GuardedRuns.reserved {size : ℤ} (hr : (log P size).GuardedRuns reserveGuard h s) :
    Reserved s :=
  hr.invariant (P := fun _ s => Reserved s) .init fun _ hres hst =>
    hres.step (move_of_step hst.1) hst.2

/-! ### `log_write` does not panic -/

/-- **The log space suffices** when every `begin_op` that returns has left two entries over: in the
log that `mkfs` makes, no `log_write` of an operation within its bound panics, absorbed ones
included, and none writes past the array. -/
theorem logWrite_fits (hr : (log P nlog).GuardedRuns reserveGuard h s) :
    s.lh.length < LOGSIZE - 1 ∧
    ∀ p b, (enabled s (.check p b) = true → ∃ r, exec nlog s (.check p b) = .ok r) ∧
      (enabled s (.logWrite p b) = true → ∃ r, exec nlog s (.logWrite p b) = .ok r) := by
  have hres := GuardedRuns.reserved hr
  have hlen := hres.length_le
  have hlog : LOGSIZE = 30 := rfl
  have hnlog : nlog = 30 := rfl
  refine ⟨by omega, fun p b => ⟨fun he => ?_, fun he => ?_⟩⟩
  · obtain ⟨l, hp⟩ : ∃ l, s.pc p = .inOp l := by
      simp only [enabled] at he
      split at he
      · exact ⟨_, ‹_›⟩
      · cases he
    have hout : 1 ≤ s.outstanding := hres.hand.one_le (by rw [hp]; rfl)
    refine ⟨(s.setPc p (.checked l b), .done), ?_⟩
    simp only [exec, hp, check]
    rw [if_neg (by omega), if_neg (by omega)]
  · obtain ⟨l, hp⟩ : ∃ l, s.pc p = .checked l b := by
      simp only [enabled] at he
      split at he
      · rename_i hx
        exact ⟨_, of_decide_eq_true he ▸ hx⟩
      · cases he
    simp only [exec, hp, logWrite]
    split
    · exact ⟨_, rfl⟩
    · exact ⟨_, if_pos (by omega)⟩

/-- The calls of `log_write` for `n` blocks, from the block `first` on. -/
def logAll (p : P) (first n : ℕ) : List (Event P) :=
  (List.range' first n).flatMap fun i =>
    [(.check p (BitVec.ofNat 32 i), .done), (.logWrite p (BitVec.ofNat 32 i), .done)]

/-- Two operations at once, each of them with all its blocks. -/
def twoFull : List (Event (Fin 3)) :=
  [(.beginOp 0, .admitted), (.beginOp 1, .admitted)] ++ logAll 0 100 10 ++
    logAll 1 110 10

theorem logWrite_fits_twoFull :
    ∃ s : State (Fin 3), (log (Fin 3) nlog).GuardedRuns reserveGuard twoFull.reverse s ∧
      s.lh.length = 20 ∧ enabled s (.check 1 110) = true ∧
      ∃ r, exec nlog s (.check 1 110) = .ok r := by
  obtain ⟨s, hr, hs⟩ := (log (Fin 3) nlog).exists_guarded reserveGuard twoFull
    (fun s => s.lh.length = 20 && enabled s (.check 1 110)) (by decide +kernel)
  obtain ⟨hlen, he⟩ : s.lh.length = 20 ∧ enabled s (.check 1 110) = true := by simpa using hs
  exact ⟨s, hr, hlen, he, ((logWrite_fits hr).2 1 110).1 he⟩

/-- Three operations at once, 29 blocks between them. -/
def threeFull : List (Event (Fin 3)) :=
  [(.beginOp 0, .admitted), (.beginOp 1, .admitted), (.beginOp 2, .admitted)] ++
    logAll 0 100 10 ++ logAll 1 110 10 ++
    logAll 2 120 9

/-- The tenth block of the third operation is one too many for `log_write`, though `begin_op` has
admitted all three. -/
theorem threeFull_panics :
    ∃ s : State (Fin 3), (log (Fin 3) nlog).GuardedRuns opBound threeFull.reverse s ∧
      enabled s (.check 2 129) = true ∧ opBound s (.check 2 129) = true ∧
      exec nlog s (.check 2 129) = .error (.panic "too big a transaction") := by
  obtain ⟨s, hr, hs⟩ := (log (Fin 3) nlog).exists_guarded opBound threeFull
    (fun s => enabled s (.check 2 129) && opBound s (.check 2 129) &&
      match exec nlog s (.check 2 129) with
      | .error f => f = .panic "too big a transaction"
      | .ok _ => false) (by decide +kernel)
  rw [Bool.and_eq_true, Bool.and_eq_true] at hs
  refine ⟨s, hr, hs.1.1, hs.1.2, ?_⟩
  obtain ⟨-, hx⟩ := hs
  split at hx
  · rename_i hf
    rw [hf, of_decide_eq_true hx]
  · cases hx

end Xv6.Log
