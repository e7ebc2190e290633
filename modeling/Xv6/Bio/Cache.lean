import Xv6.Bio.Code
import Xv6.Ide.Queue
import Xv6.Lib.Count
import Mathlib.Algebra.Order.BigOperators.Group.Finset

/-!
# The discipline of the buffer cache

What holds in every run: the list of buffers is a ring of all of them, the references to a buffer are
counted, locks are held by those who think so, the disk works on what the buffers ask for, and who
holds a buffer that `bread` has returned finds it valid.
-/

namespace Xv6.Bio

open Lib Finset

variable {n : ℕ} {P D : Type}

/-- The references to `b` that a process has without its lock. -/
def Pc.refs (b : Fin n) : Pc n → ℕ
  | .lock _ b' | .unref b' => if b' = b then 1 else 0
  | _ => 0

/-- The buffer whose lock a process holds for a call that it is in. -/
def Pc.holds : Pc n → Option (Fin n)
  | .test _ b | .iderw _ b => some b
  | _ => none

/-- The call of `bread` that a process is in, and its buffer. -/
def Pc.call : Pc n → Option (Block × Fin n)
  | .lock k b | .test k b | .iderw (some k) b => some (k, b)
  | _ => none

/-- The locked buffer of the call of `bread` that a process is in. -/
def Pc.reads : Pc n → Option (Fin n)
  | .test _ b | .iderw (some _) b => some b
  | _ => none

section refs

variable {b b' : Fin n} {k : Block} {k' : Option Block}

@[simp] theorem refs_out : Pc.refs b .out = 0 := rfl
@[simp] theorem refs_lock : Pc.refs b (.lock k b') = if b' = b then 1 else 0 := rfl
@[simp] theorem refs_test : Pc.refs b (.test k b') = 0 := rfl
@[simp] theorem refs_iderw : Pc.refs b (.iderw k' b') = 0 := rfl
@[simp] theorem refs_unref : Pc.refs b (.unref b') = if b' = b then 1 else 0 := rfl

/-- A call of `bread` has a reference to its buffer, or the lock of it. -/
theorem Pc.refs_or_holds {x : Pc n} (h : x.call = some (k, b)) : x.refs b = 1 ∨ x.holds = some b := by
  cases x with
  | out | unref b' => cases h
  | lock k' b' =>
    cases h
    exact .inl (if_pos rfl)
  | test k' b' =>
    cases h
    exact .inr rfl
  | iderw k' b' =>
    cases k' with
    | none => cases h
    | some k' =>
      cases h
      exact .inr rfl

end refs

/-- What a process at `x` relies on. -/
structure Relies (lock : Fin n → Option P) (block : Fin n → Block) (valid : Fin n → Bool) (p : P) (x : Pc n) :
    Prop where
  holds : ∀ b, x.holds = some b → lock b = some p
  call : ∀ k b, x.call = some (k, b) → block b = k
  valid : ∀ b, lock b = some p → x.reads ≠ some b → valid b = true

/-- **The discipline of the cache.** -/
structure Inv [Fintype P] (havedisk1 : Bool) (s : State n P D) : Prop where
  ring : ∃ l, s.links.Ring l ∧ ∀ b, b ∈ l
  queue : ∃ q, Ide.Queued s.ide q
  command : ∀ c, s.ide.device.command = some c → c = s.ide.command (s.cfg havedisk1) c.buf
  refs : ∀ b, s.refcnt b = (s.lock b).toList.length + ∑ p, (s.pc p).refs b
  relies : ∀ p, Relies s.lock s.block s.ide.valid p (s.pc p)
  waits : ∀ b, s.ide.waiting b = true → ∃ p k, s.pc p = .iderw k b
  dirty : ∀ b, s.ide.dirty b = true → s.ide.valid b = true

variable [Fintype P] {havedisk1 : Bool} {s s' : State n P D} {p : P} {b : Fin n} {k : Block}
  {a : Act n P D} {o : Out n D}

/-! ### The start -/

omit [Fintype P] in
theorem ring_binit : ∃ l, ((List.finRange n).foldl Links.pushFront Links.empty).Ring l ∧ ∀ b, b ∈ l := by
  have key : ∀ (bs : List (Fin n)) (L : Links (Fin n)) (l : List (Fin n)), L.Ring l → (bs ++ l).Nodup →
      (bs.foldl Links.pushFront L).Ring (bs.reverse ++ l) := by
    intro bs
    induction bs with
    | nil => exact fun L l h _ => h
    | cons b bs ih =>
      intro L l h hnd
      have hb : b ∉ bs ++ l := (List.nodup_cons.1 hnd).1
      have := ih (L.pushFront b) (b :: l) (h.pushFront fun hbl => hb (by simp [hbl]))
        (List.nodup_middle.2 hnd)
      simpa using this
  refine ⟨_, key (List.finRange n) .empty [] Links.ring_empty (by simpa using List.nodup_finRange n), ?_⟩
  simp

theorem Inv.binit (data : Fin n → D) (disk : ℕ → ℕ → D) :
    Inv havedisk1 (.binit data disk : State n P D) where
  ring := ring_binit
  queue := ⟨[], rfl, rfl, nofun, nofun⟩
  command := nofun
  refs b := by simp [State.binit, Pc.refs]
  relies _ := ⟨nofun, nofun, nofun⟩
  waits := nofun
  dirty := nofun

/-! ### Who can touch a buffer -/

/-- Nobody waits in `iderw` for a buffer that is not locked. -/
theorem Inv.not_waiting_of_unlocked (hi : Inv havedisk1 s) (hl : s.lock b = none) :
    s.ide.waiting b = false := by
  by_contra hw
  obtain ⟨p, k, hp⟩ := hi.waits b (by simpa using hw)
  have := (hi.relies p).holds b (by rw [hp]; rfl)
  rw [hl] at this
  cases this

/-- Nobody waits in `iderw` for a buffer whose lock is held by a process outside. -/
theorem Inv.not_waiting_of_out (hi : Inv havedisk1 s) (hl : s.lock b = some p)
    (hp : ∀ k, s.pc p ≠ .iderw k b) : s.ide.waiting b = false := by
  by_contra hw
  obtain ⟨p', k, hp'⟩ := hi.waits b (by simpa using hw)
  have := (hi.relies p').holds b (by rw [hp']; rfl)
  rw [hl] at this
  cases this
  exact hp k hp'

theorem Inv.unlocked_of_refcnt (hi : Inv havedisk1 s) (h0 : s.refcnt b = 0) :
    s.lock b = none ∧ ∀ p, (s.pc p).refs b = 0 := by
  have hrefs := hi.refs b
  rw [h0] at hrefs
  refine ⟨?_, fun p => ?_⟩
  · cases hl : s.lock b with
    | none => rfl
    | some p =>
      rw [hl] at hrefs
      simp at hrefs
      omega
  · have hsum : ∑ p, (s.pc p).refs b = 0 := by omega
    exact sum_eq_zero_iff.1 hsum p (mem_univ p)

/-- The command of the disk is for a buffer that somebody waits for. -/
theorem Inv.waiting_of_command (hi : Inv havedisk1 s) {c : Ide.Command (Fin n) D}
    (hc : s.ide.device.command = some c) : s.ide.waiting c.buf = true ∧ s.ide.clean c.buf = false := by
  obtain ⟨q, hq⟩ := hi.queue
  have hbuf := hq.device
  rw [Ide.Device.buf_of_command hc] at hbuf
  exact hq.queued c.buf (List.mem_of_mem_head? hbuf.symm)

/-! ### The steps -/

/-- A buffer that nobody waits for is changed: the queue and the disk do not see it. -/
theorem Inv.aside (hi : Inv havedisk1 s) (hw : s.ide.waiting b = false) (valid dirty : Fin n → Bool)
    (data : Fin n → D) (block : Fin n → Block) (hv : ∀ c ≠ b, valid c = s.ide.valid c)
    (hd : ∀ c ≠ b, dirty c = s.ide.dirty c) (hx : ∀ c ≠ b, data c = s.ide.data c)
    (hk : ∀ c ≠ b, block c = s.block c) :
    (∃ q, Ide.Queued { s.ide with valid, dirty, data } q) ∧
      ∀ c, s.ide.device.command = some c →
        c = ({ s.ide with valid, dirty, data } : Ide.State (Fin n) D).command
          (({ s with block } : State n P D).cfg havedisk1) c.buf := by
  have hne : ∀ c, s.ide.waiting c = true → c ≠ b := by
    rintro c hc rfl
    rw [hw] at hc
    cases hc
  refine ⟨?_, fun c hc => ?_⟩
  · obtain ⟨q, hq⟩ := hi.queue
    exact ⟨q, hq.hold fun c hc => ⟨hv c (hne c hc), hd c (hne c hc)⟩⟩
  · have hcb := hne c.buf (hi.waiting_of_command hc).1
    rw [hi.command c hc]
    simp only [Ide.State.command, State.cfg, hd c.buf hcb, hx c.buf hcb, hk c.buf hcb]

variable [DecidableEq P]

omit [Fintype P] in
/-- A process goes from `x` to `y`, and the others stay where they are. -/
theorem Relies.update {lock lock' : Fin n → Option P} {block block' : Fin n → Block}
    {valid valid' : Fin n → Bool} {pc : P → Pc n} {y : Pc n}
    (h : ∀ p, Relies lock block valid p (pc p)) (hy : Relies lock' block' valid' p y)
    (hother : ∀ p' ≠ p, Relies lock block valid p' (pc p') → Relies lock' block' valid' p' (pc p')) (p' : P) :
    Relies lock' block' valid' p' (Function.update pc p y p') := by
  by_cases hp : p' = p
  · subst hp
    rw [Function.update_self]
    exact hy
  · rw [Function.update_of_ne hp]
    exact hother p' hp (h p')

omit [Fintype P] in
theorem waits_update {waiting : Fin n → Bool} {pc : P → Pc n} {y : Pc n}
    (h : ∀ b, waiting b = true → ∃ p k, pc p = .iderw k b) (hp : ∀ k b, pc p ≠ .iderw k b) (b : Fin n)
    (hb : waiting b = true) : ∃ p' k, Function.update pc p y p' = .iderw k b := by
  obtain ⟨p', k, hp'⟩ := h b hb
  refine ⟨p', k, (Function.update_of_ne ?_ ..).trans hp'⟩
  rintro rfl
  exact hp k b hp'

/-- The counts stay right when a process and a buffer move together. -/
theorem Inv.refs_update (hi : Inv havedisk1 s) (b : Fin n) {y : Pc n} {refcnt : Fin n → ℕ} {lock : Fin n → Option P}
    (hother : ∀ b' ≠ b, refcnt b' = s.refcnt b' ∧ lock b' = s.lock b' ∧ y.refs b' = (s.pc p).refs b')
    (hself : refcnt b + (s.lock b).toList.length + (s.pc p).refs b =
      s.refcnt b + (lock b).toList.length + y.refs b) (b' : Fin n) :
    refcnt b' = (lock b').toList.length + ∑ p', (Function.update s.pc p y p').refs b' := by
  have hsum := sum_update (Pc.refs b') s.pc p y
  have hrefs := hi.refs b'
  by_cases hb : b' = b
  · subst hb
    omega
  · obtain ⟨hr, hl, hy⟩ := hother b' hb
    rw [hr, hl]
    omega

theorem Inv.hit (hi : Inv havedisk1 s) (hp : s.pc p = .out) (hk : s.block b = k) :
    Inv havedisk1 { s with
      refcnt := Function.update s.refcnt b (s.refcnt b + 1)
      pc := Function.update s.pc p (.lock k b) } where
  ring := hi.ring
  queue := hi.queue
  command := hi.command
  refs := hi.refs_update b (fun b' hb => by simp [hp, hb, hb.symm]) (by simp [hp]; omega)
  relies := Relies.update hi.relies
    ⟨nofun, by rintro _ _ ⟨⟩; exact hk, fun b' hb' _ => (hi.relies p).valid b' hb' (by rw [hp]; nofun)⟩
    fun _ _ h => h
  waits := waits_update hi.waits (by simp [hp])
  dirty := hi.dirty

theorem Inv.recycle (hi : Inv havedisk1 s) (hp : s.pc p = .out) (h0 : s.refcnt b = 0) :
    Inv havedisk1 { s with
      block := Function.update s.block b k
      ide := { s.ide with
        valid := Function.update s.ide.valid b false
        dirty := Function.update s.ide.dirty b false }
      refcnt := Function.update s.refcnt b 1
      pc := Function.update s.pc p (.lock k b) } := by
  obtain ⟨hl, hrefs0⟩ := hi.unlocked_of_refcnt h0
  have hne : ∀ b' p', s.lock b' = some p' → b' ≠ b := by
    rintro _ p' hb' rfl
    rw [hl] at hb'
    cases hb'
  obtain ⟨hqueue, hcommand⟩ := hi.aside (hi.not_waiting_of_unlocked hl)
    (Function.update s.ide.valid b false) (Function.update s.ide.dirty b false) s.ide.data
    (Function.update s.block b k) (fun c hc => Function.update_of_ne hc ..)
    (fun c hc => Function.update_of_ne hc ..) (fun _ _ => rfl) fun c hc => Function.update_of_ne hc ..
  refine ⟨hi.ring, hqueue, hcommand, fun b' => ?_, Relies.update hi.relies ⟨nofun, ?_, fun b' hb' _ => ?_⟩
    fun p' _ h => ⟨h.holds, fun k' b' hb' => ?_, fun b' hb' hr => ?_⟩,
    waits_update hi.waits (by simp [hp]), fun b' hb' => ?_⟩
  · exact hi.refs_update b (fun b' hb => by simp [hp, hb, hb.symm]) (by simp [hp, h0]; omega) b'
  · rintro _ _ ⟨⟩
    exact Function.update_self ..
  · dsimp only
    rw [Function.update_of_ne (hne b' p hb')]
    exact (hi.relies p).valid b' hb' (by rw [hp]; nofun)
  · have hb : b' ≠ b := by
      rintro rfl
      rcases Pc.refs_or_holds hb' with hr | hh
      · rw [hrefs0 p'] at hr
        cases hr
      · exact hne b' p' (h.holds b' hh) rfl
    dsimp only
    rw [Function.update_of_ne hb, h.call k' b' hb']
  · dsimp only
    rw [Function.update_of_ne (hne b' p' hb')]
    exact h.valid b' hb' hr
  · dsimp only at hb' ⊢
    by_cases hb : b' = b
    · subst hb
      rw [Function.update_self] at hb'
      cases hb'
    · rw [Function.update_of_ne hb] at hb' ⊢
      exact hi.dirty b' hb'

theorem Inv.acquire (hi : Inv havedisk1 s) (hp : s.pc p = .lock k b) (hl : s.lock b = none) :
    Inv havedisk1 { s with
      lock := Function.update s.lock b (some p)
      pc := Function.update s.pc p (.test k b) } where
  ring := hi.ring
  queue := hi.queue
  command := hi.command
  refs := hi.refs_update b (fun b' hb => by simp [hp, hb, hb.symm]) (by simp [hp, hl])
  relies := by
    dsimp only
    refine Relies.update hi.relies ⟨?_, ?_, fun b' hb' hr => ?_⟩
      fun p' hp' h => ⟨fun b' hb' => ?_, h.call, fun b' hb' hr => ?_⟩
    · rintro _ ⟨⟩
      exact Function.update_self ..
    · rintro _ _ ⟨⟩
      exact (hi.relies p).call k b (by rw [hp]; rfl)
    · have hb : b' ≠ b := fun h => hr (h ▸ rfl)
      rw [Function.update_of_ne hb] at hb'
      exact (hi.relies p).valid b' hb' (by rw [hp]; nofun)
    · have hlock := h.holds b' hb'
      have hb : b' ≠ b := by
        rintro rfl
        rw [hl] at hlock
        cases hlock
      rwa [Function.update_of_ne hb]
    · have hb : b' ≠ b := by
        rintro rfl
        rw [Function.update_self] at hb'
        exact hp' (Option.some.inj hb').symm
      rw [Function.update_of_ne hb] at hb'
      exact h.valid b' hb' hr
  waits := waits_update hi.waits (by simp [hp])
  dirty := hi.dirty

theorem Inv.iderw {k : Option Block} (hi : Inv havedisk1 s) (hl : s.lock b = some p)
    (hw : s.ide.waiting b = false) (hp : ∀ k b, s.pc p ≠ .iderw k b) (hrefs : ∀ b', (s.pc p).refs b' = 0)
    (hreads : ∀ b', (s.pc p).reads = some b' → b' = b ∧ k ≠ none)
    (hk : ∀ k', k = some k' → s.block b = k') (hx : s.iderw havedisk1 p k b = .ok s') :
    Inv havedisk1 s' := by
  obtain ⟨⟨ide, o⟩, hide, hx⟩ := bind_eq_ok.1 hx
  cases hx
  obtain ⟨q, hq⟩ := hi.queue
  have hq' := (hq.iderw hw hide).1
  obtain ⟨qnext, idequeue, device, -, -, hdev, rfl⟩ := hq.iderw_eq hw hide
  refine ⟨hi.ring, ⟨_, hq'⟩, fun c hc => ?_, fun b' => ?_, Relies.update hi.relies ⟨?_, ?_, fun b' hb' hr => ?_⟩
    fun _ _ h => h, fun b' hb' => ?_, hi.dirty⟩
  · rcases hdev with ⟨-, rfl, -⟩ | ⟨-, rfl, -⟩
    · cases hc
      rfl
    · exact hi.command c hc
  · have hsum := sum_update (Pc.refs b') s.pc p (.iderw k b)
    rw [hrefs, refs_iderw] at hsum
    rw [hi.refs b']
    dsimp only
    omega
  · rintro _ ⟨⟩
    exact hl
  · intro k' b' hb'
    cases k with
    | none => cases hb'
    | some k =>
      cases hb'
      exact hk _ rfl
  · refine (hi.relies p).valid b' hb' fun h => ?_
    obtain ⟨rfl, hk'⟩ := hreads b' h
    cases k with
    | none => exact hk' rfl
    | some k => exact hr rfl
  · by_cases hb : b' = b
    · subst hb
      exact ⟨p, k, Function.update_self ..⟩
    · dsimp only at hb'
      rw [Function.update_of_ne hb] at hb'
      exact waits_update hi.waits hp b' hb'

/-- A call that holds the lock returns, and leaves a valid buffer. -/
theorem Inv.returns (hi : Inv havedisk1 s) (hp : (s.pc p).holds = some b) (hv : s.ide.valid b = true)
    (hrefs : ∀ b', (s.pc p).refs b' = 0) (hreads : ∀ b', (s.pc p).reads = some b' → b' = b)
    (hw : s.ide.waiting b = false) :
    Inv havedisk1 { s with pc := Function.update s.pc p .out } where
  ring := hi.ring
  queue := hi.queue
  command := hi.command
  refs b' := by
    have hsum := sum_update (Pc.refs b') s.pc p .out
    rw [hrefs, refs_out] at hsum
    rw [hi.refs b']
    dsimp only
    omega
  relies := by
    refine Relies.update hi.relies ⟨nofun, nofun, fun b' hb' _ => ?_⟩ fun _ _ h => h
    by_cases hb : b' = b
    · exact hb ▸ hv
    · exact (hi.relies p).valid b' hb' fun h => hb (hreads b' h)
  waits b' hb' := by
    obtain ⟨p', k, hp'⟩ := hi.waits b' hb'
    refine ⟨p', k, (Function.update_of_ne ?_ ..).trans hp'⟩
    rintro rfl
    rw [hp'] at hp
    cases hp
    rw [hw] at hb'
    cases hb'
  dirty := hi.dirty

omit [DecidableEq P] in
theorem Inv.await (hi : Inv havedisk1 s) (hp : ∃ p k, s.pc p = .iderw k b) (hw : s.ide.waiting b = true) :
    Inv havedisk1 { s with ide := (s.ide.await b).1 } := by
  obtain ⟨q, hq⟩ := hi.queue
  have hq' := (hq.await hw).1
  unfold Ide.State.await at hq' ⊢
  split
  · rename_i hclean
    rw [if_pos hclean] at hq'
    refine ⟨hi.ring, ⟨q, hq'⟩, hi.command, hi.refs, hi.relies, fun b' hb' => hi.waits b' ?_, hi.dirty⟩
    dsimp only at hb'
    by_cases hb : b' = b
    · subst hb
      exact hw
    · rwa [Function.update_of_ne hb] at hb'
  · rename_i hclean
    rw [if_neg hclean] at hq'
    refine ⟨hi.ring, ⟨q, hq'⟩, hi.command, hi.refs, hi.relies, fun b' hb' => ?_, hi.dirty⟩
    by_cases hb : b' = b
    · exact hb ▸ hp
    · dsimp only at hb'
      rw [Function.update_of_ne hb] at hb'
      exact hi.waits b' hb'

omit [DecidableEq P] in
/-- The holder of the lock changes the data, or marks the buffer dirty. -/
theorem Inv.change (hi : Inv havedisk1 s) (hp : s.pc p = .out) (hl : s.lock b = some p) {dirty : Fin n → Bool}
    {data : Fin n → D} {owed : Fin n → Bool} (hd : ∀ c ≠ b, dirty c = s.ide.dirty c)
    (hx : ∀ c ≠ b, data c = s.ide.data c) :
    Inv havedisk1 { s with ide := { s.ide with dirty, data }, owed } := by
  have hw : s.ide.waiting b = false := hi.not_waiting_of_out hl (by simp [hp])
  obtain ⟨hqueue, hcommand⟩ := hi.aside hw s.ide.valid dirty data s.block (fun _ _ => rfl) hd hx fun _ _ => rfl
  refine ⟨hi.ring, hqueue, hcommand, hi.refs, hi.relies, hi.waits, fun b' hb' => ?_⟩
  by_cases hb : b' = b
  · subst hb
    exact (hi.relies p).valid b' hl (by rw [hp]; nofun)
  · exact hi.dirty b' (hd b' hb ▸ hb')

theorem Inv.release (hi : Inv havedisk1 s) (hp : s.pc p = .out) (hl : s.lock b = some p) :
    Inv havedisk1 { s with
      lock := Function.update s.lock b none
      pc := Function.update s.pc p (.unref b) } where
  ring := hi.ring
  queue := hi.queue
  command := hi.command
  refs := hi.refs_update b (fun b' hb => by simp [hp, hb, hb.symm]) (by simp [hp, hl])
  relies := by
    have hlock : ∀ b' p', Function.update s.lock b none b' = some p' → s.lock b' = some p' := by
      intro b' p' hb'
      by_cases hb : b' = b
      · rw [hb, Function.update_self] at hb'
        cases hb'
      · rwa [Function.update_of_ne hb] at hb'
    dsimp only
    refine Relies.update hi.relies ⟨nofun, nofun, fun b' hb' _ => ?_⟩
      fun p' hp' h => ⟨fun b' hb' => ?_, h.call, fun b' hb' hr => h.valid b' (hlock b' p' hb') hr⟩
    · exact (hi.relies p).valid b' (hlock b' p hb') (by rw [hp]; nofun)
    · have hb : b' ≠ b := by
        rintro rfl
        have := h.holds b' hb'
        rw [hl] at this
        exact hp' (Option.some.inj this).symm
      rw [Function.update_of_ne hb]
      exact h.holds b' hb'
  waits := waits_update hi.waits (by simp [hp])
  dirty := hi.dirty

theorem Inv.unref (hi : Inv havedisk1 s) (hp : s.pc p = .unref b) : Inv havedisk1 (s.unref p b) := by
  have hunref : Inv havedisk1 { s with
      refcnt := Function.update s.refcnt b (s.refcnt b - 1)
      pc := Function.update s.pc p .out } := by
    refine ⟨hi.ring, hi.queue, hi.command, fun b' => ?_, Relies.update hi.relies
      ⟨nofun, nofun, fun b' hb' _ => (hi.relies p).valid b' hb' (by rw [hp]; nofun)⟩ fun _ _ h => h,
      waits_update hi.waits (by simp [hp]), hi.dirty⟩
    have hpos : s.refcnt b ≠ 0 := fun h0 => by simpa [hp] using (hi.unlocked_of_refcnt h0).2 p
    exact hi.refs_update b (fun b' hb => by simp [hp, hb, hb.symm]) (by simp [hp]; omega) b'
  unfold State.unref
  dsimp only
  split
  · -- the buffer goes to the head of the list
    obtain ⟨l, hl, hall⟩ := hi.ring
    obtain ⟨l₁, l₂, rfl⟩ := List.append_of_mem (hall b)
    have hnd := List.nodup_middle.1 hl.nodup
    refine ⟨⟨b :: (l₁ ++ l₂), hl.unlink.pushFront (List.nodup_cons.1 hnd).1, fun b' => ?_⟩, hunref.queue,
      hunref.command, hunref.refs, hunref.relies, hunref.waits, hunref.dirty⟩
    simpa [or_left_comm] using hall b'
  · exact hunref

omit [DecidableEq P] in
theorem Inv.finish {err : Bool} {ide : Ide.State (Fin n) D} (hi : Inv havedisk1 s)
    (hx : s.ide.finish err = .ok ide) : Inv havedisk1 { s with ide } := by
  obtain ⟨q, hq⟩ := hi.queue
  have hq' := hq.finish hx
  unfold Ide.State.finish at hx
  split at hx
  · rename_i c hbusy
    cases hx
    refine ⟨hi.ring, ⟨q, hq'⟩, fun c' hc' => ?_, hi.refs, hi.relies, hi.waits, hi.dirty⟩
    cases hc'
    exact hi.command c (by rw [hbusy]; rfl)
  · cases hx

omit [DecidableEq P] in
theorem Inv.ideintr {ide : Ide.State (Fin n) D} {out : Ide.Out (Fin n)} (hi : Inv havedisk1 s)
    (hx : s.ide.ideintr (s.cfg havedisk1) = .ok (ide, out)) : Inv havedisk1 { s with ide } := by
  obtain ⟨q, hq⟩ := hi.queue
  cases q with
  | nil =>
    obtain ⟨rfl, -⟩ := hq.ideintr_nil hx
    exact hi
  | cons b q =>
    have hq' := (hq.ideintr hx).1
    obtain ⟨c, err, device, hdone, hide, hdevice, -⟩ := hq.ideintr_eq hx
    have hvalid : ∀ b', s.ide.valid b' = true → Function.update s.ide.valid b true b' = true := by
      intro b' hb'
      by_cases hb : b' = b
      · rw [hb, Function.update_self]
      · rwa [Function.update_of_ne hb]
    refine ⟨hi.ring, ⟨q, hq'⟩, fun c' hc' => ?_, hi.refs, fun p => ?_, ?_, fun b' hb' => ?_⟩
    · have hdev : ide.device = device := by rw [hide]
      dsimp only at hc'
      rw [hdev, hdevice] at hc'
      cases hh : q.head? with
      | none =>
        rw [hh] at hc'
        cases hc'
      | some b' =>
        rw [hh] at hc'
        cases hc'
        rfl
    · have h := hi.relies p
      refine ⟨h.holds, h.call, fun b' hb' hr => ?_⟩
      rw [hide]
      exact hvalid b' (h.valid b' hb' hr)
    · rw [hide]
      exact hi.waits
    · rw [hide] at hb' ⊢
      dsimp only at hb' ⊢
      by_cases hb : b' = b
      · rw [hb, Function.update_self]
      · rw [Function.update_of_ne hb] at hb'
        exact hvalid b' (hi.dirty b' hb')

end Xv6.Bio
