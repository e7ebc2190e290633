import Xv6.Bio.Step

/-!
# Coherence of the buffer cache

A block is in one buffer at most, and `bread` gives what was last left in it: what is not on the disk
yet stays in a buffer that is dirty, or locked by the process that has changed it.
-/

namespace Xv6.Bio

open Lib

variable {n : ℕ} {P D : Type}

/-- What was last left in the blocks of the file system's disk, of which `disk` are the contents at
first. -/
def content (disk : ℕ → D) : List (Act n P D × Out n D) → ℕ → D
  | [], blockno => disk blockno
  | (.modify _ b d, _) :: h, blockno =>
    if assigned h b = ⟨ROOTDEV, blockno⟩ then d else content disk h blockno
  | _ :: h, blockno => content disk h blockno

/-- Blocks of the file system's disk are read and written, commands succeed, and who has changed a
buffer calls `log_write` or `bwrite` before `brelse`. -/
def disciplined (s : State n P D) : Act n P D → Bool
  | .bget _ k => k.dev = ROOTDEV
  | .brelse _ b => !s.owed b
  | .finish err => !err
  | _ => true

variable [Fintype P] {havedisk1 : Bool} {s s' : State n P D} {a : Act n P D} {o : Out n D}
  {h : List (Act n P D × Out n D)} {data : Fin n → D} {disk : ℕ → ℕ → D} {b : Fin n} {p : P}

/-- **Buffers, disk and contents agree.** -/
structure Coherent (disk : ℕ → D) (h : List (Act n P D × Out n D)) (s : State n P D) : Prop where
  unique : ∀ b b', (s.block b).dev = ROOTDEV → s.block b = s.block b' → b = b'
  used : ∀ b, s.refcnt b ≠ 0 → (s.block b).dev = ROOTDEV
  valid : ∀ b, s.ide.valid b = true →
    (s.block b).dev = ROOTDEV ∧ s.ide.data b = content disk h (s.block b).blockno
  /-- What is not on the disk is in a buffer that cannot be recycled. -/
  disk : ∀ blockno, s.ide.disk ROOTDEV blockno = content disk h blockno ∨
    ∃ b, s.block b = ⟨ROOTDEV, blockno⟩ ∧ s.ide.valid b = true ∧ (s.ide.dirty b = true ∨ s.owed b = true)
  owed : ∀ b, s.owed b = true → s.lock b ≠ none
  done : ∀ c err, s.ide.device = .done c err →
    err = false ∧ ∀ d, c.write = some d → s.ide.disk c.dev c.blockno = d

theorem Coherent.locked {disk : ℕ → D} (hi : Inv havedisk1 s) (hc : Coherent disk h s) (hl : s.lock b ≠ none) :
    (s.block b).dev = ROOTDEV := by
  refine hc.used b fun h0 => hl ?_
  exact (hi.unlocked_of_refcnt h0).1

theorem Coherent.waiting {disk : ℕ → D} (hi : Inv havedisk1 s) (hc : Coherent disk h s)
    (hw : s.ide.waiting b = true) : (s.block b).dev = ROOTDEV := by
  obtain ⟨p, k, hp⟩ := hi.waits b hw
  have hl := (hi.relies p).holds b (by rw [hp]; rfl)
  exact hc.locked hi (by rw [hl]; nofun)

omit [Fintype P] in
/-- A step that leaves the buffers alone, except for who uses them. -/
theorem Coherent.same {disk : ℕ → D} (hc : Coherent disk h s) {h' : List (Act n P D × Out n D)}
    (hcontent : content disk h' = content disk h) (hblock : s'.block = s.block)
    (hvalid : s'.ide.valid = s.ide.valid) (hdata : s'.ide.data = s.ide.data)
    (hdirty : ∀ b, s.ide.dirty b = true → s'.ide.dirty b = true)
    (howed : ∀ b, s.owed b = true → s'.ide.dirty b = true ∨ s'.owed b = true)
    (hdisk : s'.ide.disk = s.ide.disk) (hused : ∀ b, s'.refcnt b ≠ 0 → (s.block b).dev = ROOTDEV)
    (hlock : ∀ b, s'.owed b = true → s'.lock b ≠ none)
    (hdev : s'.ide.device = s.ide.device ∨ ∃ c, s'.ide.device = .busy c) : Coherent disk h' s' where
  unique := hblock ▸ hc.unique
  used b hb := hblock ▸ hused b hb
  valid b hb := by
    rw [hblock, hdata, hcontent]
    exact hc.valid b (hvalid ▸ hb)
  disk blockno := by
    rw [hblock, hvalid, hdisk, hcontent]
    rcases hc.disk blockno with h | ⟨b, hb, hv, hd⟩
    · exact .inl h
    · exact .inr ⟨b, hb, hv, hd.elim (fun h => .inl (hdirty b h)) (howed b)⟩
  owed := hlock
  done c err hdone := by
    rw [hdisk]
    rcases hdev with hdev | ⟨c', hdev⟩
    · exact hc.done c err (hdev ▸ hdone)
    · rw [hdev] at hdone
      cases hdone

theorem Coherent.recycle {disk : ℕ → D} {k : Block} {refcnt : Fin n → ℕ} {pc : P → Pc n}
    (hi : Inv havedisk1 s) (hc : Coherent disk h s) (hk : k.dev = ROOTDEV) (hmiss : ∀ b', s.block b' ≠ k)
    (h0 : s.refcnt b = 0) (hd : s.ide.dirty b = false) (hrefcnt : ∀ b' ≠ b, refcnt b' = s.refcnt b')
    {h' : List (Act n P D × Out n D)} (hcontent : content disk h' = content disk h) :
    Coherent disk h' { s with
      block := Function.update s.block b k
      ide := { s.ide with
        valid := Function.update s.ide.valid b false
        dirty := Function.update s.ide.dirty b false }
      refcnt, pc } := by
  have hne : ∀ b', s.ide.dirty b' = true ∨ s.owed b' = true → b' ≠ b := by
    rintro b' hb' rfl
    rcases hb' with hb' | hb'
    · rw [hd] at hb'
      cases hb'
    · exact hc.owed b' hb' (hi.unlocked_of_refcnt h0).1
  refine ⟨fun b₁ b₂ h₁ h₂ => ?_, fun b' hb' => ?_, fun b' hb' => ?_, fun blockno => ?_, hc.owed, hc.done⟩
  · dsimp only at h₁ h₂
    by_cases hb₁ : b₁ = b
    · by_cases hb₂ : b₂ = b
      · rw [hb₁, hb₂]
      · rw [hb₁, Function.update_self, Function.update_of_ne hb₂] at h₂
        exact absurd h₂.symm (hmiss b₂)
    · rw [Function.update_of_ne hb₁] at h₁ h₂
      by_cases hb₂ : b₂ = b
      · rw [hb₂, Function.update_self] at h₂
        exact absurd h₂ (hmiss b₁)
      · rw [Function.update_of_ne hb₂] at h₂
        exact hc.unique b₁ b₂ h₁ h₂
  · dsimp only at hb' ⊢
    by_cases hb : b' = b
    · rw [hb, Function.update_self, hk]
    · rw [Function.update_of_ne hb]
      exact hc.used b' (hrefcnt b' hb ▸ hb')
  · dsimp only at hb' ⊢
    have hb : b' ≠ b := by
      rintro rfl
      rw [Function.update_self] at hb'
      cases hb'
    rw [Function.update_of_ne hb] at hb' ⊢
    rw [hcontent]
    exact hc.valid b' hb'
  · rw [hcontent]
    rcases hc.disk blockno with h | ⟨b', hb', hv, hd'⟩
    · exact .inl h
    · have hb := hne b' hd'
      refine .inr ⟨b', ?_, ?_, ?_⟩
      · exact (Function.update_of_ne hb ..).trans hb'
      · exact (Function.update_of_ne hb ..).trans hv
      · dsimp only
        rwa [Function.update_of_ne hb]

theorem Coherent.modify {disk : ℕ → D} {d : D} (hi : Inv havedisk1 s) (ha : assigned h = s.block)
    (hc : Coherent disk h s) (hp : s.pc p = .out) (hl : s.lock b = some p) :
    Coherent disk ((.modify p b d, o) :: h) { s with
      ide := { s.ide with data := Function.update s.ide.data b d }
      owed := Function.update s.owed b (s.owed b || !s.ide.dirty b) } := by
  have hdev : (s.block b).dev = ROOTDEV := hc.locked hi (by rw [hl]; nofun)
  have hv : s.ide.valid b = true := (hi.relies p).valid b hl (by rw [hp]; nofun)
  have howed : s.ide.dirty b = true ∨ (s.owed b || !s.ide.dirty b) = true := by
    cases s.ide.dirty b <;> simp
  refine ⟨hc.unique, hc.used, fun b' hb' => ?_, fun blockno => ?_, fun b' hb' => ?_, hc.done⟩
  · obtain ⟨hdev', hdata⟩ := hc.valid b' hb'
    refine ⟨hdev', ?_⟩
    simp only [content, ha]
    by_cases hb : b' = b
    · subst hb
      rw [if_pos (by rw [← hdev']), Function.update_self]
    · rw [if_neg fun h => hb (hc.unique b' b hdev' (by rw [h, ← hdev'])), Function.update_of_ne hb]
      exact hdata
  · simp only [content, ha]
    by_cases hk : s.block b = ⟨ROOTDEV, blockno⟩
    · exact .inr ⟨b, hk, hv, by rwa [Function.update_self]⟩
    · rw [if_neg hk]
      rcases hc.disk blockno with h | ⟨b', hb', hv', hd'⟩
      · exact .inl h
      · have hb : b' ≠ b := by
          rintro rfl
          exact hk hb'
        exact .inr ⟨b', hb', hv', by rwa [Function.update_of_ne hb]⟩
  · dsimp only at hb'
    by_cases hb : b' = b
    · rw [hb, hl]
      nofun
    · rw [Function.update_of_ne hb] at hb'
      exact hc.owed b' hb'

theorem Coherent.finish {disk : ℕ → D} {ide : Ide.State (Fin n) D} (hi : Inv havedisk1 s)
    (hc : Coherent disk h s) (hx : s.ide.finish false = .ok ide) :
    Coherent disk ((.finish false, o) :: h) { s with ide } := by
  unfold Ide.State.finish at hx
  split at hx
  · rename_i c hbusy
    have hcommand := hi.command c (by rw [hbusy]; rfl)
    have hdev := hc.waiting hi (hi.waiting_of_command (by rw [hbusy]; rfl)).1
    have hblock : c.dev = ROOTDEV ∧ c.blockno = (s.block c.buf).blockno := by
      rw [hcommand]
      simp [Ide.State.command, State.cfg, hdev]
    cases hw : c.write with
    | none =>
      rw [hw] at hx
      cases hx
      refine ⟨hc.unique, hc.used, hc.valid, hc.disk, hc.owed, fun c' err hdone => ?_⟩
      cases hdone
      exact ⟨rfl, by simp [hw]⟩
    | some d =>
      rw [hw] at hx
      cases hx
      -- what is written is what the buffer holds
      have hdirty : s.ide.dirty c.buf = true ∧ d = s.ide.data c.buf := by
        rw [hcommand] at hw
        simp only [Ide.State.command] at hw
        split at hw
        · rename_i hd
          exact ⟨hd, (Option.some.inj hw).symm⟩
        · cases hw
      refine ⟨hc.unique, hc.used, hc.valid, fun blockno => ?_, hc.owed, fun c' err hdone => ?_⟩
      · simp only [Bool.false_eq_true, if_false, hblock.1, hblock.2, Function.update_self]
        by_cases hk : blockno = (s.block c.buf).blockno
        · rw [hk, Function.update_self, hdirty.2]
          exact .inl (hc.valid c.buf (hi.dirty c.buf hdirty.1)).2
        · rw [Function.update_of_ne hk]
          exact hc.disk blockno
      · cases hdone
        refine ⟨rfl, fun d' hd' => ?_⟩
        rw [hw] at hd'
        cases hd'
        simp
  · cases hx

theorem Coherent.ideintr {disk : ℕ → D} {ide : Ide.State (Fin n) D} {out : Ide.Out (Fin n)}
    (hi : Inv havedisk1 s) (hc : Coherent disk h s)
    (hx : s.ide.ideintr (s.cfg havedisk1) = .ok (ide, out)) :
    Coherent disk ((.ideintr, o) :: h) { s with ide } := by
  rcases hi.ideintr_eq hx with ⟨rfl, -⟩ | ⟨b, err, idequeue, device, sleeping, hdone, hdev, hin, hide⟩
  · exact ⟨hc.unique, hc.used, hc.valid, hc.disk, hc.owed, hc.done⟩
  obtain ⟨hw, hclean⟩ := hi.waiting_of_command (c := s.ide.command (s.cfg havedisk1) b) (by rw [hdone]; rfl)
  have hroot : (s.block b).dev = ROOTDEV := hc.waiting hi hw
  obtain ⟨rfl, hwritten⟩ := hc.done _ _ hdone
  -- the buffer and the disk hold what was last left in the block
  have hagree : s.ide.disk ROOTDEV (s.block b).blockno = content disk h (s.block b).blockno ∧
      ide.data = Function.update s.ide.data b (content disk h (s.block b).blockno) := by
    have hclean : (s.ide.valid b && !s.ide.dirty b) = false := hclean
    simp only [hroot] at hin
    cases hd : s.ide.dirty b with
    | true =>
      have hdata := (hc.valid b (hi.dirty b hd)).2
      simp only [hd, Bool.not_true, Bool.false_and, Bool.false_eq_true, if_false] at hin
      refine ⟨?_, by rw [hin.2, ← hdata, Function.update_eq_self]⟩
      have := hwritten (s.ide.data b) (by simp [Ide.State.command, hd])
      rw [← hdata, ← this]
      simp [Ide.State.command, State.cfg, hroot]
    | false =>
      have hdisk : s.ide.disk ROOTDEV (s.block b).blockno = content disk h (s.block b).blockno := by
        refine (hc.disk _).resolve_right ?_
        rintro ⟨b', hb', hv, -⟩
        obtain rfl : b' = b := hc.unique b' b (by rw [hb']) (by rw [hb', ← hroot])
        rw [hv, hd] at hclean
        cases hclean
      simp only [hd, Bool.not_false, Bool.and_self, if_true] at hin
      refine ⟨hdisk, ?_⟩
      rw [← hdisk]
      exact hin.2
  rw [hide, hagree.2]
  refine ⟨hc.unique, hc.used, fun b' hb' => ?_, fun blockno => ?_, hc.owed, fun c' err hdone' => ?_⟩
  · dsimp only at hb' ⊢
    by_cases hb : b' = b
    · rw [hb, Function.update_self]
      exact ⟨hroot, rfl⟩
    · rw [Function.update_of_ne hb] at hb' ⊢
      exact hc.valid b' hb'
  · rcases hc.disk blockno with h' | ⟨b', hb', hv, hd⟩
    · exact .inl h'
    · by_cases hb : b' = b
      · subst hb
        rw [hb'] at hagree
        exact .inl hagree.1
      · refine .inr ⟨b', hb', ?_, ?_⟩
        · exact (Function.update_of_ne hb ..).trans hv
        · dsimp only
          rwa [Function.update_of_ne hb]
  · rcases hdev with rfl | ⟨c', rfl⟩ <;> cases hdone'

variable [DecidableEq P]

theorem Coherent.step {disk : ℕ → D} (hi : Inv havedisk1 s) (ha : assigned h = s.block)
    (hc : Coherent disk h s) (hg : disciplined s a = true) (he : Effect havedisk1 s a o s') :
    Coherent disk ((a, o) :: h) s' := by
  have hdirty : ∀ b b', s.ide.dirty b' = true → Function.update s.ide.dirty b true b' = true := by
    intro b b' hb'
    by_cases hb : b' = b
    · rw [hb, Function.update_self]
    · rwa [Function.update_of_ne hb]
  -- a buffer that is marked dirty owes nothing any more
  have hmark : ∀ b b', s.owed b' = true → Function.update s.ide.dirty b true b' = true ∨
      Function.update s.owed b false b' = true := by
    intro b b' hb'
    by_cases hb : b' = b
    · rw [hb, Function.update_self]
      exact .inl rfl
    · exact .inr ((Function.update_of_ne hb ..).trans hb')
  have hunmark : ∀ b b', Function.update s.owed b false b' = true → s.lock b' ≠ none := by
    intro b b' hb'
    by_cases hb : b' = b
    · rw [hb, Function.update_self] at hb'
      cases hb'
    · exact hc.owed b' ((Function.update_of_ne hb ..).symm.trans hb')
  cases he with
  | @hit p b hp =>
    refine hc.same rfl rfl rfl rfl (fun _ h => h) (fun _ h => .inr h) rfl (fun b' hb' => ?_) hc.owed (.inl rfl)
    by_cases hb : b' = b
    · rw [hb]
      simpa [disciplined] using hg
    · exact hc.used b' ((Function.update_of_ne hb ..).symm.trans_ne hb')
  | recycle hp hmiss h0 hd =>
    refine hc.recycle hi (by simpa [disciplined] using hg) hmiss h0 hd (fun b' hb => ?_) rfl
    exact Function.update_of_ne hb ..
  | @acquire p k b hp hl =>
    refine hc.same rfl rfl rfl rfl (fun _ h => h) (fun _ h => .inr h) rfl hc.used (fun b' hb' => ?_) (.inl rfl)
    dsimp only
    by_cases hb : b' = b
    · rw [hb, Function.update_self]
      nofun
    · rw [Function.update_of_ne hb]
      exact hc.owed b' hb'
  | read hp hl hw hv hx =>
    obtain ⟨qnext, idequeue, device, waiting, sleeping, hdev, rfl⟩ := hi.iderw_eq hw hx
    exact hc.same rfl rfl rfl rfl (fun _ h => h) (fun _ h => .inr h) rfl hc.used hc.owed hdev
  | modify hp hl => exact hc.modify hi ha hp hl
  | @bwrite p b _ hp hl hw hx =>
    have hi' : Inv havedisk1 (s.markDirty b) := hi.step (.logWrite hp hl)
    obtain ⟨qnext, idequeue, device, waiting, sleeping, hdev, rfl⟩ := hi'.iderw_eq hw hx
    exact hc.same rfl rfl rfl rfl (hdirty b) (hmark b) rfl hc.used (hunmark b) hdev
  | @logWrite p b hp hl =>
    exact hc.same rfl rfl rfl rfl (hdirty b) (hmark b) rfl hc.used (hunmark b) (.inl rfl)
  | @brelse p b hp hl =>
    refine hc.same rfl rfl rfl rfl (fun _ h => h) (fun _ h => .inr h) rfl hc.used (fun b' hb' => ?_) (.inl rfl)
    have hb : b' ≠ b := by
      rintro rfl
      have : s.owed b' = false := by simpa [disciplined] using hg
      rw [this] at hb'
      cases hb'
    dsimp only
    rw [Function.update_of_ne hb]
    exact hc.owed b' hb'
  | @unref p b hp =>
    have hused : ∀ b', Function.update s.refcnt b (s.refcnt b - 1) b' ≠ 0 → (s.block b').dev = ROOTDEV := by
      intro b' hb'
      refine hc.used b' fun h0 => hb' ?_
      by_cases hb : b' = b
      · rw [hb, Function.update_self, ← hb, h0]
      · rw [Function.update_of_ne hb, h0]
    unfold State.unref
    dsimp only
    split <;> exact hc.same rfl rfl rfl rfl (fun _ h => h) (fun _ h => .inr h) rfl hused hc.owed (.inl rfl)
  | @finish err ide hx =>
    obtain rfl : err = false := by simpa [disciplined] using hg
    exact hc.finish hi hx
  | ideintr hx => exact hc.ideintr hi hx
  | _ => exact hc.same rfl rfl rfl rfl (fun _ h => h) (fun _ h => .inr h) rfl hc.used hc.owed (.inl rfl)

theorem coherent_of_runs (hr : (bcache havedisk1 data disk).GuardedRuns disciplined h s) :
    Inv havedisk1 s ∧ assigned h = s.block ∧ Coherent (disk ROOTDEV) h s := by
  refine hr.invariant (P := fun h s => Inv havedisk1 s ∧ assigned h = s.block ∧ Coherent (disk ROOTDEV) h s)
    ⟨.binit data disk, rfl, ?_⟩ fun _ ⟨hi, ha, hc⟩ ⟨hst, hg⟩ => ?_
  · exact ⟨fun b b' hb => absurd hb (by simp [bcache, State.binit]), nofun, nofun, fun _ => .inl rfl, nofun, nofun⟩
  · have he := hi.effect hst
    exact ⟨hi.step he, assigned_step hi ha he, hc.step hi ha hg he⟩

/-- **The buffer cache is coherent.** After a run in which blocks of the file system's disk are read and
written, commands succeed, and who has changed a buffer calls `log_write` or `bwrite` before `brelse`: a
block is in one buffer at most; `next` and `prev` lead through each buffer once, and lead back from one
another; and in any step from there, a buffer that is assigned to another block has no references and is
not dirty, and a buffer that `bread` returns is for the block that was asked for and holds what was last
left in it. -/
theorem bcache_coherent (hr : (bcache havedisk1 data disk).GuardedRuns disciplined h s) :
    (∀ b b', (s.block b).dev = ROOTDEV → s.block b = s.block b' → b = b') ∧
    (∃ l : List (Fin n), l.Nodup ∧ (∀ b, b ∈ l) ∧
      Chain (fun b => s.links.next (some b)) (s.links.next none) l ∧
      Chain (fun b => s.links.prev (some b)) (s.links.prev none) l.reverse) ∧
    (∀ x, s.links.prev (s.links.next x) = x ∧ s.links.next (s.links.prev x) = x) ∧
    ∀ a o s', (bcache havedisk1 data disk).Step s (a, o) s' →
      (∀ b, s'.block b ≠ s.block b → s.refcnt b = 0 ∧ s.ide.dirty b = false) ∧
      ∀ k b, o.bread = some (k, b) → s'.block b = k ∧ k.dev = ROOTDEV ∧
        s'.ide.data b = content (disk ROOTDEV) ((a, o) :: h) k.blockno := by
  obtain ⟨hi, ha, hc⟩ := coherent_of_runs hr
  obtain ⟨l, hl, hall⟩ := hi.ring
  refine ⟨hc.unique, ⟨l, hl.nodup, hall, hl.next_chain, hl.prev_chain⟩,
    fun x => ⟨hl.prev_next hall x, hl.next_prev hall x⟩, fun a o s' hst => ?_⟩
  have he := hi.effect hst
  refine ⟨fun b hb => ?_, fun k b hb => ?_⟩
  · rw [← assigned_step hi ha he, ← ha] at hb
    cases he with
    | @recycle p k b' hp hmiss h0 hd =>
      by_cases hbb : b = b'
      · rw [hbb]
        exact ⟨h0, hd⟩
      · exact absurd (if_neg fun h => hbb (Option.some.inj h).symm) hb
    | _ => exact absurd rfl hb
  · obtain ⟨hk, hv⟩ := hi.bread he hb
    have hg : disciplined s a = true := by
      cases he with
      | valid | returns => rfl
      | _ => cases hb
    obtain ⟨hdev, hdata⟩ := (hc.step hi ha hg he).valid b hv
    rw [hk] at hdev hdata
    exact ⟨hk, hdev, hdata⟩

/-- Block 6 is read, changed and logged, and read again. -/
theorem bcache_coherent_reread : ∃ h s s', sample.GuardedRuns disciplined h s ∧
    sample.Step s (.test (), { bread := some (⟨ROOTDEV, 6⟩, 0) }) s' ∧ s'.ide.data 0 = 9 := by
  obtain ⟨s, hr, hs⟩ := sample.exists_guarded disciplined
    (sampleRead 0 6 false ++ [sampleReturn 0 6, (.modify () 0 9, {}), (.logWrite () 0, {}), (.brelse () 0, {}),
      (.unref (), {}), (.bget () ⟨ROOTDEV, 6⟩, {}), (.acquire (), {})])
    (fun s => (sample.step? s (.test (), { bread := some (⟨ROOTDEV, 6⟩, 0) })).isSome) (by decide +kernel)
  obtain ⟨s', hs'⟩ := Option.isSome_iff_exists.1 hs
  have hst := Machine.step?_step hs'
  exact ⟨_, s, s', hr, hst, ((bcache_coherent hr).2.2.2 _ _ _ hst).2 _ _ rfl |>.2.2⟩

end Xv6.Bio
