import Xv6.Bio.Step

/-!
# Read errors

`ideintr` marks the buffer valid also when the disk reports an error and nothing has been read. The
buffer then holds what it held before `bget` took it for another block, and `bread` returns it as the
contents of that block. As long as no read ends in an error, a valid buffer holds what the disk has
transferred for its own block, as changed by those who held it since.
-/

namespace Xv6.Bio

open Lib

variable {n : ℕ} {P D : Type}

/-! ### Reading the history -/

/-- What the disk has transferred for the block that a buffer is assigned to, since it has been assigned
to it, with the changes that were made to it. -/
def fill : List (Act n P D × Out n D) → Fin n → Option D
  | [], _ => none
  | (.bget _ _, o) :: h, b => if o.recycled = some b then none else fill h b
  | (.modify _ b' d, _) :: h, b => if b' = b then (fill h b).map fun _ => d else fill h b
  | (.ideintr, o) :: h, b =>
    match o.read with
    | some (b', k, d) =>
      if b' = b then
        -- the drives are told apart by the lowest bit of `dev`
        if k = ⟨(assigned h b).dev % 2, (assigned h b).blockno⟩ then some d else none
      else fill h b
    | none => fill h b
  | _ :: h, b => fill h b

/-- No read ends in an error. -/
def readsSucceed (s : State n P D) : Act n P D → Bool
  | .finish err =>
    match s.ide.device with
    | .busy c => !err || c.write.isSome
    | _ => true
  | _ => true

variable [Fintype P] [DecidableEq P] {havedisk1 : Bool} {s s' : State n P D} {a : Act n P D} {o : Out n D}
  {h : List (Act n P D × Out n D)} {data : Fin n → D} {disk : ℕ → ℕ → D}

/-! ### Without read errors -/

/-- Valid buffers hold what the disk has transferred. -/
structure Filled (h : List (Act n P D × Out n D)) (s : State n P D) : Prop where
  valid : ∀ b, s.ide.valid b = true → fill h b = some (s.ide.data b)
  /-- A command that has ended in an error is a write. -/
  error : ∀ c, s.ide.device = .done c true → c.write ≠ none

omit [Fintype P] [DecidableEq P] in
theorem Filled.same (hf : Filled h s) {h' : List (Act n P D × Out n D)} (hfill : fill h' = fill h)
    (hv : s'.ide.valid = s.ide.valid) (hd : s'.ide.data = s.ide.data)
    (hdev : s'.ide.device = s.ide.device ∨ ∃ c, s'.ide.device = .busy c) : Filled h' s' where
  valid b hb := by
    rw [hfill, hd]
    exact hf.valid b (hv ▸ hb)
  error c hc := by
    rcases hdev with hdev | ⟨c', hdev⟩
    · exact hf.error c (hdev ▸ hc)
    · rw [hdev] at hc
      cases hc

theorem Filled.step (hi : Inv havedisk1 s) (ha : assigned h = s.block) (hf : Filled h s)
    (hg : readsSucceed s a = true) (he : Effect havedisk1 s a o s') : Filled ((a, o) :: h) s' := by
  cases he with
  | hit hp => exact hf.same (by funext b; simp [fill]) rfl rfl (.inl rfl)
  | @recycle p k b hp hmiss h0 hd =>
    refine ⟨fun b' hb' => ?_, hf.error⟩
    dsimp only at hb' ⊢
    have hb : b' ≠ b := by
      rintro rfl
      rw [Function.update_self] at hb'
      cases hb'
    rw [Function.update_of_ne hb] at hb'
    rw [fill, if_neg fun h => hb (Option.some.inj h).symm]
    exact hf.valid b' hb'
  | read _ _ hw _ hx =>
    obtain ⟨qnext, idequeue, device, waiting, sleeping, hdev, rfl⟩ := hi.iderw_eq hw hx
    exact hf.same rfl rfl rfl hdev
  | @modify p b d hp hl =>
    refine ⟨fun b' hb' => ?_, hf.error⟩
    have hfill := hf.valid b' hb'
    by_cases hb : b' = b
    · subst hb
      simp [fill, hfill]
    · simp [fill, Ne.symm hb, hb, hfill]
  | bwrite hp hl hw hx =>
    have hi' : Inv havedisk1 (s.markDirty _) := hi.step (.logWrite hp hl)
    obtain ⟨qnext, idequeue, device, waiting, sleeping, hdev, rfl⟩ := hi'.iderw_eq hw hx
    exact hf.same rfl rfl rfl hdev
  | unref hp =>
    unfold State.unref
    dsimp only
    split <;> exact hf.same rfl rfl rfl (.inl rfl)
  | finish hx =>
    unfold Ide.State.finish at hx
    split at hx
    · rename_i c hbusy
      cases hx
      refine ⟨hf.valid, fun c' hc' => ?_⟩
      cases hc'
      simpa [readsSucceed, hbusy, Option.isSome_iff_ne_none] using hg
    · cases hx
  | @ideintr ide out hx =>
    rcases hi.ideintr_eq hx with ⟨rfl, hin⟩ | ⟨b, err, idequeue, device, sleeping, hdone, hdev, hin, hide⟩
    · exact hf.same (by funext b; simp [fill, hin]) rfl rfl (.inl rfl)
    · have herror : ∀ c, ide.device = .done c true → c.write ≠ none := by
        intro c hc
        rw [hide] at hc
        rcases hdev with rfl | ⟨c', rfl⟩ <;> cases hc
      refine ⟨fun b' hb' => ?_, herror⟩
      dsimp only at hb' ⊢
      have hvalid : b' ≠ b → s.ide.valid b' = true := by
        intro hb
        rw [hide] at hb'
        dsimp only at hb'
        rwa [Function.update_of_ne hb] at hb'
      cases hd : s.ide.dirty b with
      | true =>
        -- a write: the buffer is valid already
        simp only [hd, Bool.not_true, Bool.false_and, Bool.false_eq_true, if_false] at hin
        rw [hin.2]
        simp only [fill, hin.1]
        by_cases hb : b' = b
        · exact hf.valid b' (hi.dirty b' (hb ▸ hd))
        · exact hf.valid b' (hvalid hb)
      | false =>
        -- a read, which has succeeded
        have herr : err = false := by
          cases err with
          | false => rfl
          | true => exact absurd (by simp [Ide.State.command, hd]) (hf.error _ hdone)
        subst herr
        simp only [hd, Bool.not_false, Bool.and_self, if_true] at hin
        rw [hin.2]
        simp only [fill, hin.1, ha]
        by_cases hb : b' = b
        · subst hb
          simp
        · rw [if_neg (Ne.symm hb), Function.update_of_ne hb]
          exact hf.valid b' (hvalid hb)
  | logWrite hp hl => exact hf.same rfl rfl rfl (.inl rfl)
  | _ => exact hf.same rfl rfl rfl (.inl rfl)

theorem filled_of_runs (hr : (bcache havedisk1 data disk).GuardedRuns readsSucceed h s) :
    Inv havedisk1 s ∧ assigned h = s.block ∧ Filled h s :=
  hr.invariant (P := fun h s => Inv havedisk1 s ∧ assigned h = s.block ∧ Filled h s)
    ⟨.binit data disk, rfl, nofun, nofun⟩ fun _ ⟨hi, ha, hf⟩ ⟨hst, hg⟩ => by
      have he := hi.effect hst
      exact ⟨hi.step he, assigned_step hi ha he, hf.step hi ha hg he⟩

/-- **Valid buffers hold the data of the device.** In a run in which no read ends in an error, a buffer
that `bread` returns is valid, is assigned to the block that was asked for, and holds what the disk has
transferred for that block since the buffer was assigned to it, with the changes made to it since. -/
theorem bread_device_data {s₁ : State n P D} {b : Fin n} {k : Block}
    (hr : (bcache havedisk1 data disk).GuardedRuns readsSucceed h s)
    (hst : (bcache havedisk1 data disk).Step s (a, o) s₁) (hb : o.bread = some (k, b)) :
    s₁.ide.valid b = true ∧ s₁.block b = k ∧ assigned ((a, o) :: h) b = k ∧
      fill ((a, o) :: h) b = some (s₁.ide.data b) := by
  obtain ⟨hi, ha, hf⟩ := filled_of_runs hr
  have he := hi.effect hst
  have hg : readsSucceed s a = true := by
    cases a with
    | finish err =>
      cases he
      cases hb
    | _ => rfl
  obtain ⟨hk, hv⟩ := hi.bread he hb
  exact ⟨hv, hk, by rw [assigned_step hi ha he, hk], (hf.step hi ha hg he).valid b hv⟩

theorem bread_device_data_block : ∃ h s s₁, sample.GuardedRuns readsSucceed h s ∧
    sample.Step s (sampleReturn 0 6) s₁ ∧ fill (sampleReturn 0 6 :: h) 0 = some (s₁.ide.data 0) := by
  obtain ⟨s, hr, hs⟩ := sample.exists_guarded readsSucceed (sampleRead 0 6 false)
    (fun s => (sample.step? s (sampleReturn 0 6)).isSome) (by decide +kernel)
  obtain ⟨s₁, hs₁⟩ := Option.isSome_iff_exists.1 hs
  have hst := Machine.step?_step hs₁
  exact ⟨_, s, s₁, hr, hst, (bread_device_data hr hst rfl).2.2.2⟩

/-- The blocks 1 to `NBUF` are read, each into a buffer of its own, and the buffers are released. Then
block `NBUF + 1` is read, which ends in an error. -/
def sampleError : List (Act NBUF Unit ℕ × Out NBUF ℕ) :=
  ((List.finRange NBUF).flatMap fun b =>
    sampleRead b (b + 1) false ++ [sampleReturn b (b + 1), (.brelse () b, {}), (.unref (), {})]) ++
  sampleRead 0 (NBUF + 1) true

/-- **A read error goes unnoticed.** For block `NBUF + 1`, `bread` returns a valid buffer with the
contents of block 1. -/
theorem bread_stale_data : ∃ s, sample.Runs (sampleReturn 0 (NBUF + 1) :: sampleError.reverse) s ∧
    s.ide.valid 0 = true ∧ s.block 0 = ⟨ROOTDEV, NBUF + 1⟩ ∧ s.ide.data 0 = s.ide.disk ROOTDEV 1 ∧
    s.ide.data 0 ≠ s.ide.disk ROOTDEV (NBUF + 1) ∧
    fill (sampleReturn 0 (NBUF + 1) :: sampleError.reverse) 0 = none := by
  obtain ⟨s, hr, hs⟩ := sample.exists_runs (sampleError ++ [sampleReturn 0 (NBUF + 1)])
    (fun s => s.ide.valid 0 && s.block 0 == ⟨ROOTDEV, NBUF + 1⟩ && s.ide.data 0 == s.ide.disk ROOTDEV 1 &&
      s.ide.data 0 != s.ide.disk ROOTDEV (NBUF + 1)) (by decide +kernel)
  simp only [Bool.and_eq_true, beq_iff_eq, bne_iff_ne] at hs
  obtain ⟨⟨⟨hvalid, hblock⟩, hdata⟩, hdisk⟩ := hs
  rw [List.reverse_append] at hr
  exact ⟨s, hr, hvalid, hblock, hdata, hdisk, by decide +kernel⟩

end Xv6.Bio
