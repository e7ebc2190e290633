import Xv6.Bio.Cache

/-!
# What a step of the buffer cache does

The steps that can be taken from a state with the discipline of the cache, each with what it finds
there and what it leaves. What is said of runs is proved by cases on these.
-/

namespace Xv6.Bio

open Lib

variable {n : ℕ} {P D : Type} [DecidableEq P]

/-- **The steps.** -/
inductive Effect (havedisk1 : Bool) (s : State n P D) : Act n P D → Out n D → State n P D → Prop
  /-- The block is cached. -/
  | hit {p : P} {b : Fin n} : s.pc p = .out →
    Effect havedisk1 s (.bget p (s.block b)) {} { s with
      refcnt := Function.update s.refcnt b (s.refcnt b + 1)
      pc := Function.update s.pc p (.lock (s.block b) b) }
  | recycle {p : P} {k : Block} {b : Fin n} : s.pc p = .out → (∀ b', s.block b' ≠ k) → s.refcnt b = 0 →
    s.ide.dirty b = false →
    Effect havedisk1 s (.bget p k) { recycled := some b } { s with
      block := Function.update s.block b k
      ide := { s.ide with
        valid := Function.update s.ide.valid b false
        dirty := Function.update s.ide.dirty b false }
      refcnt := Function.update s.refcnt b 1
      pc := Function.update s.pc p (.lock k b) }
  | acquire {p : P} {k : Block} {b : Fin n} : s.pc p = .lock k b → s.lock b = none →
    Effect havedisk1 s (.acquire p) {} { s with
      lock := Function.update s.lock b (some p)
      pc := Function.update s.pc p (.test k b) }
  /-- `bread` finds the buffer valid. -/
  | valid {p : P} {k : Block} {b : Fin n} : s.pc p = .test k b → s.ide.valid b = true →
    Effect havedisk1 s (.test p) { bread := some (k, b) } { s with pc := Function.update s.pc p .out }
  /-- `bread` has to read the block. -/
  | read {p : P} {k : Block} {b : Fin n} {s' : State n P D} : s.pc p = .test k b → s.lock b = some p →
    s.ide.waiting b = false → s.ide.valid b = false → s.iderw havedisk1 p (some k) b = .ok s' →
    Effect havedisk1 s (.test p) {} s'
  /-- `iderw` returns. -/
  | returns {p : P} {k : Option Block} {b : Fin n} : s.pc p = .iderw k b → s.ide.waiting b = true →
    s.ide.clean b = true →
    Effect havedisk1 s (.resume p) { bread := k.map fun k => (k, b) } { s with
      ide := { s.ide with waiting := Function.update s.ide.waiting b false }
      pc := Function.update s.pc p .out }
  /-- `iderw` goes to sleep again. -/
  | again {p : P} {k : Option Block} {b : Fin n} : s.pc p = .iderw k b → s.ide.waiting b = true →
    s.ide.clean b = false →
    Effect havedisk1 s (.resume p) {} { s with
      ide := { s.ide with
        waiting := Function.update s.ide.waiting b true
        sleeping := Function.update s.ide.sleeping b true } }
  | kill {p : P} {k : Option Block} {b : Fin n} : s.pc p = .iderw k b →
    Effect havedisk1 s (.kill p) {} { s with
      ide := { s.ide with sleeping := Function.update s.ide.sleeping b false } }
  | modify {p : P} {b : Fin n} {d : D} : s.pc p = .out → s.lock b = some p →
    Effect havedisk1 s (.modify p b d) {} { s with
      ide := { s.ide with data := Function.update s.ide.data b d }
      owed := Function.update s.owed b (s.owed b || !s.ide.dirty b) }
  | bwrite {p : P} {b : Fin n} {s' : State n P D} : s.pc p = .out → s.lock b = some p →
    s.ide.waiting b = false → (s.markDirty b).iderw havedisk1 p none b = .ok s' →
    Effect havedisk1 s (.bwrite p b) {} s'
  | logWrite {p : P} {b : Fin n} : s.pc p = .out → s.lock b = some p →
    Effect havedisk1 s (.logWrite p b) {} (s.markDirty b)
  | brelse {p : P} {b : Fin n} : s.pc p = .out → s.lock b = some p →
    Effect havedisk1 s (.brelse p b) {} { s with
      lock := Function.update s.lock b none
      pc := Function.update s.pc p (.unref b) }
  | unref {p : P} {b : Fin n} : s.pc p = .unref b → Effect havedisk1 s (.unref p) {} (s.unref p b)
  | finish {err : Bool} {ide : Ide.State (Fin n) D} : s.ide.finish err = .ok ide →
    Effect havedisk1 s (.finish err) {} { s with ide }
  | ideintr {ide : Ide.State (Fin n) D} {out : Ide.Out (Fin n)} :
    s.ide.ideintr (s.cfg havedisk1) = .ok (ide, out) →
    Effect havedisk1 s .ideintr { read := incoming s } { s with ide }

variable [Fintype P] {havedisk1 : Bool} {s s' : State n P D} {p : P} {b : Fin n} {k : Block}
  {a : Act n P D} {o : Out n D} {data : Fin n → D} {disk : ℕ → ℕ → D}
  {h : List (Act n P D × Out n D)}

theorem Inv.effect_bget (hi : Inv havedisk1 s) (hp : s.pc p = .out)
    (hx : exec havedisk1 s (.bget p k) = .ok (s', o)) : Effect havedisk1 s (.bget p k) o s' := by
  obtain ⟨l, hl, hall⟩ := hi.ring
  have hlen : l.length ≤ n := by simpa using hl.nodup.length_le_card
  obtain ⟨⟨s₁, b, recycled⟩, hget, hx⟩ := bind_eq_ok.1 hx
  cases hx
  unfold State.bget at hget
  rw [findLink_eq hl.next_chain hlen, findLink_eq hl.prev_chain (by simpa using hlen)] at hget
  cases hfind : l.find? (fun b => s.block b = k) with
  | some b' =>
    rw [hfind] at hget
    cases hget
    obtain rfl : s.block b = k := by simpa using List.find?_some hfind
    exact .hit hp
  | none =>
    rw [hfind] at hget
    have hmiss : ∀ b', s.block b' ≠ k := fun b' => by
      simpa using List.find?_eq_none.1 hfind b' (hall b')
    cases hfree : l.reverse.find? (fun b => s.refcnt b = 0 && !s.ide.dirty b) with
    | some b' =>
      rw [hfree] at hget
      cases hget
      have hb : s.refcnt b = 0 ∧ s.ide.dirty b = false := by simpa using List.find?_some hfree
      exact .recycle hp hmiss hb.1 hb.2
    | none =>
      rw [hfree] at hget
      cases hget

/-- **A step is one of these.** -/
theorem Inv.effect (hi : Inv havedisk1 s) (hst : (bcache havedisk1 data disk).Step s (a, o) s') :
    Effect havedisk1 s a o s' := by
  obtain ⟨hen, hx⟩ := hst
  dsimp only [bcache] at hen hx
  cases a with
  | bget p k => exact hi.effect_bget (by simpa [enabled] using hen) hx
  | acquire p =>
    cases hp : s.pc p with
    | lock k b =>
      simp only [enabled, exec, hp] at hen hx
      cases hx
      exact .acquire hp (by simpa using hen)
    | _ => simp [enabled, hp] at hen
  | test p =>
    cases hp : s.pc p with
    | test k b =>
      simp only [exec, hp, State.test] at hx
      cases hv : s.ide.valid b with
      | true =>
        rw [hv] at hx
        cases hx
        exact .valid hp hv
      | false =>
        rw [hv] at hx
        obtain ⟨s₁, hs₁, hx⟩ := bind_eq_ok.1 hx
        cases hx
        have hl := (hi.relies p).holds b (by rw [hp]; rfl)
        exact .read hp hl (hi.not_waiting_of_out hl (by simp [hp])) hv hs₁
    | _ => simp [enabled, hp] at hen
  | resume p =>
    cases hp : s.pc p with
    | iderw k b =>
      have hw : s.ide.waiting b = true ∧ s.ide.sleeping b = false := by
        simpa [enabled, hp, Ide.enabled] using hen
      simp only [exec, hp, State.resume] at hx
      cases hc : s.ide.clean b with
      | true =>
        simp only [Ide.State.await, hc, if_true] at hx
        cases hx
        exact .returns hp hw.1 hc
      | false =>
        rw [Ide.await_of_not_clean hc] at hx
        cases hx
        exact .again hp hw.1 hc
    | _ => simp [enabled, hp] at hen
  | kill p =>
    cases hp : s.pc p with
    | iderw k b =>
      simp only [exec, hp] at hx
      cases hx
      exact .kill hp
    | _ => simp [enabled, hp] at hen
  | modify p b d =>
    have hen : s.pc p = .out ∧ s.lock b = some p := by simpa [enabled] using hen
    cases hx
    exact .modify hen.1 hen.2
  | bwrite p b =>
    have hp : s.pc p = .out := by simpa [enabled] using hen
    obtain ⟨s₁, hs₁, hx⟩ := bind_eq_ok.1 hx
    cases hx
    unfold State.bwrite at hs₁
    split at hs₁
    · cases hs₁
    · rename_i hl
      have hl := not_not.1 hl
      exact .bwrite hp hl (hi.not_waiting_of_out hl (by simp [hp])) hs₁
  | logWrite p b =>
    have hen : s.pc p = .out ∧ s.lock b = some p := by simpa [enabled] using hen
    cases hx
    exact .logWrite hen.1 hen.2
  | brelse p b =>
    have hp : s.pc p = .out := by simpa [enabled] using hen
    obtain ⟨s₁, hs₁, hx⟩ := bind_eq_ok.1 hx
    cases hx
    unfold State.brelse at hs₁
    split at hs₁
    · cases hs₁
    · rename_i hl
      cases hs₁
      exact .brelse hp (not_not.1 hl)
  | unref p =>
    cases hp : s.pc p with
    | unref b =>
      simp only [exec, hp] at hx
      cases hx
      exact .unref hp
    | _ => simp [enabled, hp] at hen
  | finish err =>
    obtain ⟨ide, hide, hx⟩ := bind_eq_ok.1 hx
    cases hx
    exact .finish hide
  | ideintr =>
    obtain ⟨⟨ide, out⟩, hide, hx⟩ := bind_eq_ok.1 hx
    cases hx
    exact .ideintr hide

theorem Inv.step (hi : Inv havedisk1 s) (he : Effect havedisk1 s a o s') : Inv havedisk1 s' := by
  cases he with
  | hit hp => exact hi.hit hp rfl
  | recycle hp _ h0 _ => exact hi.recycle hp h0
  | acquire hp hl => exact hi.acquire hp hl
  | valid hp hv =>
    have hl := (hi.relies _).holds _ (by rw [hp]; rfl)
    refine hi.returns (by rw [hp]; rfl) hv (by simp [hp]) (fun b' hb' => ?_)
      (hi.not_waiting_of_out hl (by simp [hp]))
    rw [hp] at hb'
    exact (Option.some.inj hb').symm
  | @read p k b _ hp hl hw _ hx =>
    refine hi.iderw hl hw (by simp [hp]) (by simp [hp])
      (fun b' hb' => ?_) (fun k' hk' => ?_) hx
    · rw [hp] at hb'
      exact ⟨(Option.some.inj hb').symm, Option.some_ne_none _⟩
    · cases hk'
      exact (hi.relies p).call k b (by rw [hp]; rfl)
  | @returns p k b hp hw hc =>
    have hawait : (s.ide.await b).1 = { s.ide with waiting := Function.update s.ide.waiting b false } := by
      simp [Ide.State.await, hc]
    have hv : s.ide.valid b = true := by
      rw [Ide.State.clean, Bool.and_eq_true] at hc
      exact hc.1
    have hi' := hi.await ⟨p, k, hp⟩ hw
    rw [hawait] at hi'
    refine hi'.returns (p := p) (by rw [hp]; rfl) hv (by simp [hp]) (fun b' hb' => ?_)
      (Function.update_self ..)
    dsimp only at hb'
    rw [hp] at hb'
    cases k with
    | none => cases hb'
    | some k => exact (Option.some.inj hb').symm
  | @again p k b hp hw hc =>
    have hi' := hi.await ⟨p, k, hp⟩ hw
    rwa [Ide.await_of_not_clean hc] at hi'
  | kill hp =>
    obtain ⟨q, hq⟩ := hi.queue
    exact ⟨hi.ring, ⟨q, hq.chain, hq.device, hq.queued, hq.done⟩, hi.command, hi.refs, hi.relies, hi.waits,
      hi.dirty⟩
  | modify hp hl => exact hi.change hp hl (fun _ _ => rfl) fun c hc => Function.update_of_ne hc ..
  | @bwrite p b _ hp hl hw hx =>
    have hi' : Inv havedisk1 (s.markDirty b) :=
      hi.change hp hl (fun c hc => Function.update_of_ne hc ..) fun _ _ => rfl
    refine hi'.iderw (k := none) hl hw ?_ ?_ (fun b' hb' => ?_) (fun k' hk' => by cases hk') hx
    · simp [State.markDirty, hp]
    · simp [State.markDirty, hp]
    · have hp' : (s.markDirty b).pc p = .out := hp
      rw [hp'] at hb'
      cases hb'
  | logWrite hp hl => exact hi.change hp hl (fun c hc => Function.update_of_ne hc ..) fun _ _ => rfl
  | brelse hp hl => exact hi.release hp hl
  | unref hp => exact hi.unref hp
  | finish hx => exact hi.finish hx
  | ideintr hx => exact hi.ideintr hx

/-! ### What the driver leaves -/

theorem Inv.iderw_eq {k : Option Block} (hi : Inv havedisk1 s) (hw : s.ide.waiting b = false)
    (hx : s.iderw havedisk1 p k b = .ok s') :
    ∃ qnext idequeue device waiting sleeping, (device = s.ide.device ∨ ∃ c, device = .busy c) ∧
      s' = { s with
        ide := { s.ide with qnext, idequeue, device, waiting, sleeping }
        pc := Function.update s.pc p (.iderw k b) } := by
  obtain ⟨⟨ide, o⟩, hide, hx⟩ := bind_eq_ok.1 hx
  cases hx
  obtain ⟨q, hq⟩ := hi.queue
  obtain ⟨qnext, idequeue, device, -, -, hdev, rfl⟩ := hq.iderw_eq hw hide
  refine ⟨qnext, idequeue, device, _, _, ?_, rfl⟩
  rcases hdev with ⟨-, rfl, -⟩ | ⟨-, rfl, -⟩
  · exact .inr ⟨_, rfl⟩
  · exact .inl rfl

omit [DecidableEq P] in
/-- An interrupt completes the command of the disk, unless there is none. -/
theorem Inv.ideintr_eq {ide : Ide.State (Fin n) D} {out : Ide.Out (Fin n)} (hi : Inv havedisk1 s)
    (hx : s.ide.ideintr (s.cfg havedisk1) = .ok (ide, out)) :
    (ide = s.ide ∧ incoming s = none) ∨
    ∃ b err idequeue device sleeping, s.ide.device = .done (s.ide.command (s.cfg havedisk1) b) err ∧
      (device = .idle ∨ ∃ c, device = .busy c) ∧
      (if !s.ide.dirty b && !err then
        let d := s.ide.disk ((s.block b).dev % 2) (s.block b).blockno
        incoming s = some (b, ⟨(s.block b).dev % 2, (s.block b).blockno⟩, d) ∧
          ide.data = Function.update s.ide.data b d
      else incoming s = none ∧ ide.data = s.ide.data) ∧
      ide = { s.ide with
        idequeue, device, sleeping, data := ide.data
        valid := Function.update s.ide.valid b true
        dirty := Function.update s.ide.dirty b false } := by
  obtain ⟨q, hq⟩ := hi.queue
  cases q with
  | nil =>
    obtain ⟨rfl, -⟩ := hq.ideintr_nil hx
    have hnone : s.ide.idequeue = none := hq.chain
    exact .inl ⟨rfl, by simp [incoming, hnone]⟩
  | cons b q =>
    obtain ⟨c, err, device, hdone, rfl, hdevice, -⟩ := hq.ideintr_eq hx
    have hhead : s.ide.idequeue = some b := hq.chain.1
    have hbuf : c.buf = b := by
      have := hq.device
      rw [hdone] at this
      exact Option.some.inj this
    have hc := hi.command c (by rw [hdone]; rfl)
    rw [hbuf] at hc
    subst hc
    refine .inr ⟨b, err, q.head?, device, Function.update s.ide.sleeping b false, hdone, ?_, ?_, rfl⟩
    · rw [hdevice]
      cases q.head? with
      | none => exact .inl rfl
      | some b' => exact .inr ⟨_, rfl⟩
    · cases hd : s.ide.dirty b <;> cases err <;>
        simp [incoming, hhead, hdone, hd, Ide.State.command, State.cfg]

/-- The buffer that `bread` returns is valid, and for the block that was asked for. -/
theorem Inv.bread {b : Fin n} {k : Block} (hi : Inv havedisk1 s) (he : Effect havedisk1 s a o s')
    (hb : o.bread = some (k, b)) : s'.block b = k ∧ s'.ide.valid b = true := by
  cases he with
  | valid hp hv =>
    cases hb
    exact ⟨(hi.relies _).call k b (by rw [hp]; rfl), hv⟩
  | @returns p k' b' hp hw hc =>
    cases k' with
    | none => cases hb
    | some k' =>
      cases hb
      rw [Ide.State.clean, Bool.and_eq_true] at hc
      exact ⟨(hi.relies p).call k b (by rw [hp]; rfl), hc.1⟩
  | _ => cases hb

/-! ### The runs -/

/-- The block that a buffer is assigned to. -/
def assigned : List (Act n P D × Out n D) → Fin n → Block
  | [], _ => ⟨0, 0⟩
  | (.bget _ k, o) :: h, b => if o.recycled = some b then k else assigned h b
  | _ :: h, b => assigned h b

theorem assigned_step (hi : Inv havedisk1 s) (ha : assigned h = s.block) (he : Effect havedisk1 s a o s') :
    assigned ((a, o) :: h) = s'.block := by
  cases he with
  | hit hp => exact ha
  | recycle hp hmiss h0 hd =>
    funext b'
    rename_i b
    by_cases hb : b' = b
    · subst hb
      simp [assigned]
    · simp [assigned, hb, Ne.symm hb, ha]
  | read _ _ hw _ hx =>
    obtain ⟨qnext, idequeue, device, waiting, sleeping, -, rfl⟩ := hi.iderw_eq hw hx
    exact ha
  | bwrite hp hl hw hx =>
    have hi' : Inv havedisk1 (s.markDirty _) := hi.step (.logWrite hp hl)
    obtain ⟨qnext, idequeue, device, waiting, sleeping, -, rfl⟩ := hi'.iderw_eq hw hx
    exact ha
  | unref hp =>
    unfold State.unref
    dsimp only
    split <;> exact ha
  | _ => exact ha

/-! ### A sample -/

/-- A disk whose blocks hold their own numbers. -/
def sample : Machine (State NBUF Unit ℕ) (Act NBUF Unit ℕ) (Out NBUF ℕ) Fault :=
  bcache true (fun _ => 0) fun _ blockno => blockno

/-- A call of `bread` that has to recycle the buffer `b`, up to the interrupt. -/
def sampleRead (b : Fin NBUF) (blockno : ℕ) (err : Bool) : List (Act NBUF Unit ℕ × Out NBUF ℕ) :=
  [(.bget () ⟨ROOTDEV, blockno⟩, { recycled := some b }), (.acquire (), {}), (.test (), {}),
    (.finish err, {}), (.ideintr, { read := if err then none else some (b, ⟨ROOTDEV, blockno⟩, blockno) })]

def sampleReturn (b : Fin NBUF) (blockno : ℕ) : Act NBUF Unit ℕ × Out NBUF ℕ :=
  (.resume (), { bread := some (⟨ROOTDEV, blockno⟩, b) })

end Xv6.Bio
