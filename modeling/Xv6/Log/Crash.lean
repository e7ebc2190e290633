import Xv6.Log.Disk

/-!
# The log is atomic under crashes

A commit writes the log, the header, the home blocks and the header again. Cut anywhere, and
recovered by a recovery that may itself be cut any number of times, it leaves the home blocks all
old or all new. Two invariants of the disk carry the proof: before the header write the on-disk
header is empty (`Clean`), and after it the log on disk is the transaction (`Committed`), until the
header is cleared and the disk is `Clean` again.
-/

namespace Xv6.Log

open Lib

/-- The block belongs to the log: the header and the `size - 1` blocks after it. -/
def InLog (start : Word) (size : ℕ) (b : BlockNo) : Prop :=
  ∃ i < size, b = start + .ofNat 32 i

instance (start : Word) (size : ℕ) : DecidablePred (InLog start size) := fun b =>
  inferInstanceAs (Decidable (∃ i < size, b = start + .ofNat 32 i))

/-- The disks that crashes of the recovery can leave, one after the other, out of the disk `d`:
each attempt starts with an empty cache and is cut after `n` of its writes. -/
inductive Crashes (start : Word) (d : BlockNo → Block) : (BlockNo → Block) → Prop
  | none : Crashes start d d
  | crash {d' : BlockNo → Block} {r : Dev} (n : ℕ) : Crashes start d d' →
      recoverFromLog start { disk := d' } = .ok r →
      Crashes start d (perform (r.writes.take n) d')

/-- The device on which `commit` runs: the blocks of the transaction are pinned with their new
contents. -/
def pinned (disk new : BlockNo → Block) (lh : LogHeader) : Dev where
  disk := disk
  dirty b := if b ∈ lh.block then some (new b) else none

section blocks

variable {start : Word} {size : ℕ} {t : ℕ}

theorem logBlock_inLog (h : t + 1 < size) : InLog start size (logBlock start t) := ⟨t + 1, h, rfl⟩

theorem start_inLog (h : 0 < size) : InLog start size start := ⟨0, h, by simp⟩

theorem logBlock_ne {s : ℕ} (ht : t < LOGSIZE) (hs : s < LOGSIZE) (hts : t ≠ s) :
    logBlock start t ≠ logBlock start s := by
  intro h
  have := congrArg BitVec.toNat ((BitVec.add_right_inj start).1 h)
  simp only [BitVec.toNat_ofNat, LOGSIZE, MAXOPBLOCKS] at this ht hs
  omega

theorem logBlock_ne_start (ht : t < LOGSIZE) : logBlock start t ≠ start := by
  intro h
  have h : start + BitVec.ofNat 32 (t + 1) = start + 0#32 := h.trans (BitVec.add_zero start).symm
  have := congrArg BitVec.toNat ((BitVec.add_right_inj start).1 h)
  simp only [BitVec.toNat_ofNat, LOGSIZE, MAXOPBLOCKS] at this ht
  omega

end blocks

/-! ### The header -/

theorem decode_encode (lh : LogHeader) (x : Block) : decodeHead (encodeHead lh x) = .ok lh := by
  obtain ⟨bs, hle⟩ := lh
  have hle' : bs.length ≤ 30 := hle
  have hn : ((encodeHead ⟨bs, hle⟩ x) 0).toInt.toNat = bs.length := by
    show (BitVec.ofNat 32 bs.length).toInt.toNat = _
    rw [word_toInt (by omega)]
    rfl
  unfold decodeHead
  simp only [hn, dif_pos hle]
  congr 2
  refine List.ext_getElem (by simp) fun i h₁ h₂ => ?_
  simp only [List.getElem_map, List.getElem_range]
  have hi : ((Fin.ofNat 128 (i + 1)) : Fin 128).val = i + 1 := Nat.mod_eq_of_lt (by omega)
  simp only [encodeHead, hi]
  rw [if_neg (by omega), Nat.add_sub_cancel, List.getElem?_eq_getElem h₂]
  rfl

theorem decode_clean {x : Block} (h : x 0 = 0) : decodeHead x = .ok .empty := by
  have hn : (x 0).toInt.toNat = 0 := by rw [h]; rfl
  unfold decodeHead
  simp [hn, LogHeader.empty]

theorem encode_empty (x : Block) : encodeHead .empty x 0 = 0 := rfl

/-! ### The two invariants -/

section invariants

variable {start : Word} {size : ℕ} {lh : LogHeader} {home disk new d : BlockNo → Block}

/-- The on-disk header is empty and the home blocks hold `home`. -/
structure Clean (start : Word) (size : ℕ) (home d : BlockNo → Block) : Prop where
  header : d start 0 = 0
  home : ∀ b, ¬ InLog start size b → d b = home b

/-- The log on disk is the transaction `lh` with the contents `new`; the home blocks outside it
are those of `disk`. -/
structure Committed (start : Word) (size : ℕ) (lh : LogHeader) (disk new d : BlockNo → Block) :
    Prop where
  header : decodeHead (d start) = .ok lh
  log : ∀ i (hi : i < lh.block.length), d (logBlock start i) = new lh.block[i]
  home : ∀ b, ¬ InLog start size b → b ∉ lh.block → d b = disk b

/-- A transaction that fits: its blocks are home blocks, and fewer than the log has. -/
structure Fits (start : Word) (size : ℕ) (lh : LogHeader) : Prop where
  lt : lh.block.length < size
  home : ∀ b ∈ lh.block, ¬ InLog start size b

theorem Fits.ne_logBlock (hf : Fits start size lh) {b : BlockNo} (hb : b ∈ lh.block) {t : ℕ}
    (ht : t < lh.block.length) : b ≠ logBlock start t := by
  rintro rfl
  exact hf.home _ hb (logBlock_inLog (by have := hf.lt; omega))

/-- The home blocks after the transaction. -/
def after (lh : LogHeader) (disk new : BlockNo → Block) (b : BlockNo) : Block :=
  if b ∈ lh.block then new b else disk b

/-- Clearing the header of a disk whose home blocks hold `home` makes it clean. -/
theorem Clean.clear (h0 : 0 < size) (hd : ∀ b, ¬ InLog start size b → d b = home b) (x : Block) :
    Clean start size home (Function.update d start (encodeHead .empty x)) where
  header := by rw [Function.update_self, encode_empty]
  home b hb := by
    rw [Function.update_of_ne (by rintro rfl; exact hb (start_inLog h0)), hd b hb]

theorem Committed.install (hf : Fits start size lh) (hc : Committed start size lh disk new d)
    {b : BlockNo} (hb : b ∈ lh.block) (x : Block) :
    Committed start size lh disk new (Function.update d b x) where
  header := by
    rw [Function.update_of_ne]
    · exact hc.header
    · rintro rfl
      exact hf.home _ hb (start_inLog (by have := hf.lt; omega))
  log i hi := by
    rw [Function.update_of_ne (hf.ne_logBlock hb hi).symm, hc.log i hi]
  home c hc' hcl := by
    rw [Function.update_of_ne (by rintro rfl; exact hcl hb), hc.home c hc' hcl]

/-- The second half of a commit, and all of a recovery: install the transaction, clear the header. -/
def installWrites (start : Word) (lh : LogHeader) (new : BlockNo → Block) (x : Block) :
    List (BlockNo × Block) :=
  (lh.block.map fun b => (b, new b)) ++ [(start, encodeHead .empty x)]

/-- All home blocks are new once every install is done. -/
theorem Committed.installed (hc : Committed start size lh disk new d) {b : BlockNo}
    (hb : ¬ InLog start size b) :
    perform (lh.block.map fun b => (b, new b)) d b = after lh disk new b := by
  unfold after
  split
  · rename_i hbl
    refine perform_eq (fun w hw => ?_) (by simpa using hbl)
    obtain ⟨c, -, rfl⟩ := List.mem_map.1 hw
    rfl
  · rename_i hbl
    rw [perform_other (by simpa using hbl)]
    exact hc.home b hb hbl

theorem Committed.finish (hf : Fits start size lh) (hc : Committed start size lh disk new d)
    (x : Block) : Clean start size (after lh disk new) (perform (installWrites start lh new x) d) := by
  have h0 : 0 < size := by have := hf.lt; omega
  rw [installWrites, perform_append]
  exact Clean.clear h0 (fun b hb => hc.installed hb) x

/-- Cut short, the second half leaves the disk committed or has done all of it. -/
theorem Committed.cut (hf : Fits start size lh) (hc : Committed start size lh disk new d)
    (x : Block) (n : ℕ) :
    Committed start size lh disk new (perform ((installWrites start lh new x).take n) d) ∨
      Clean start size (after lh disk new) (perform ((installWrites start lh new x).take n) d) := by
  by_cases hn : n ≤ lh.block.length
  · left
    rw [installWrites, List.take_append_of_le_length (by simpa using hn)]
    refine perform_take (fun w hw d hd => ?_) hc n
    obtain ⟨b, hb, rfl⟩ := List.mem_map.1 hw
    exact hd.install hf hb _
  · right
    rw [List.take_of_length_le (by simp [installWrites]; omega)]
    exact hc.finish hf x

/-! ### Recovery -/

/-- Recovery of a clean disk writes the header alone. -/
theorem Clean.recover (h0 : 0 < size) (hc : Clean start size home d) :
    ∃ r, recoverFromLog start { disk := d } = .ok r ∧ Clean start size home r.disk ∧
      ∀ n, Clean start size home (perform (r.writes.take n) d) := by
  have hread : readHead start { disk := d } = .ok .empty := decode_clean hc.header
  refine ⟨_, by simp only [recoverFromLog, hread]; rfl, Clean.clear h0 hc.home _, fun n => ?_⟩
  refine perform_take (fun w hw d hd => ?_) hc n
  obtain rfl := List.mem_singleton.1 hw
  exact Clean.clear h0 hd.home _

/-- Recovery of a committed disk installs the transaction and clears the header. -/
theorem Committed.recover (hf : Fits start size lh) (hc : Committed start size lh disk new d) :
    ∃ r x, recoverFromLog start { disk := d } = .ok r ∧
      r.writes = installWrites start lh new x ∧ r.disk = perform r.writes d := by
  have hinst : Emits { disk := d } (lh.block.map fun b => (b, new b))
      (installTrans start lh.block 0 { disk := d }) := by
    refine installTrans_emits (fun i hi => ?_) fun b hb t ht => hf.ne_logBlock hb (by omega)
    rw [Nat.zero_add]
    exact hc.log i hi
  set i := installTrans start lh.block 0 { disk := d } with hi
  have he := hinst.trans (emits_bwrite i start (encodeHead .empty (bread i start)))
  have hread : readHead start { disk := d } = .ok lh := hc.header
  have hw : (bwrite i start (encodeHead .empty (bread i start))).writes =
      installWrites start lh new (bread i start) := he.writes
  exact ⟨_, bread i start, by simp only [recoverFromLog, hread]; rfl, hw, hw ▸ he.disk⟩

/-- What every cut recovery keeps, any number of them keeps. -/
theorem Crashes.keeps {P : (BlockNo → Block) → Prop} {d' : BlockNo → Block}
    (h : Crashes start d d') (hd : P d)
    (hP : ∀ {d r} n, P d → recoverFromLog start { disk := d } = .ok r →
      P (perform (r.writes.take n) d)) : P d' := by
  induction h with
  | none => exact hd
  | crash n _ hr ih => exact hP n ih hr

theorem Crashes.clean (h0 : 0 < size) {d' : BlockNo → Block} (h : Crashes start d d')
    (hd : Clean start size home d) : Clean start size home d' :=
  h.keeps hd fun n hc hr => by
    obtain ⟨r, hr', -, hn⟩ := hc.recover h0
    obtain rfl := Except.ok.inj (hr.symm.trans hr')
    exact hn n

/-- Whatever crashes the recovery of a committed disk goes through, the next attempt finds it
committed or clean. -/
theorem Crashes.committed (hf : Fits start size lh) {d' : BlockNo → Block} (h : Crashes start d d')
    (hd : Committed start size lh disk new d ∨ Clean start size (after lh disk new) d) :
    Committed start size lh disk new d' ∨ Clean start size (after lh disk new) d' := by
  have h0 : 0 < size := by have := hf.lt; omega
  refine h.keeps (P := fun d => Committed start size lh disk new d ∨
    Clean start size (after lh disk new) d) hd fun {d r} n hc hr => ?_
  rcases hc with hc | hc
  · obtain ⟨r', x, hr', hw, -⟩ := hc.recover hf
    obtain rfl := Except.ok.inj (hr.symm.trans hr')
    rw [hw]
    exact hc.cut hf x n
  · obtain ⟨r', hr', -, hn⟩ := hc.recover h0
    obtain rfl := Except.ok.inj (hr.symm.trans hr')
    exact .inr (hn n)

end invariants

/-! ### Commit -/

section commit

variable {start : Word} {size : ℕ} {lh : LogHeader} {disk new d : BlockNo → Block}

theorem mem_logWrites {f : BlockNo → Block} {bs : List BlockNo} {tail : ℕ} {w : BlockNo × Block}
    (h : w ∈ logWrites start f bs tail) :
    ∃ t, tail ≤ t ∧ t < tail + bs.length ∧ w.1 = logBlock start t := by
  induction bs generalizing tail with
  | nil => cases h
  | cons b bs ih =>
    rcases List.mem_cons.1 h with rfl | h
    · exact ⟨tail, le_rfl, by simp, rfl⟩
    · obtain ⟨t, h₁, h₂, h₃⟩ := ih h
      exact ⟨t, by omega, by simp; omega, h₃⟩

theorem length_logWrites {f : BlockNo → Block} {bs : List BlockNo} {tail : ℕ} :
    (logWrites start f bs tail).length = bs.length := by
  induction bs generalizing tail with
  | nil => rfl
  | cons b bs ih => simp [logWrites, ih]

/-- The log blocks hold what was written to them: no later log write hits the same block. -/
theorem perform_logWrites {f : BlockNo → Block} {bs : List BlockNo} {tail i : ℕ}
    (hl : tail + bs.length ≤ LOGSIZE) (hi : i < bs.length) :
    perform (logWrites start f bs tail) d (logBlock start (tail + i)) = f bs[i] := by
  induction bs generalizing tail i d with
  | nil => simp at hi
  | cons b bs ih =>
    simp only [List.length_cons] at hl hi
    rw [logWrites, perform_cons]
    cases i with
    | zero =>
      rw [perform_other, Nat.add_zero, Function.update_self]
      · rfl
      · intro hm
        obtain ⟨w, hw, he⟩ := List.mem_map.1 hm
        obtain ⟨t, h₁, h₂, h₃⟩ := mem_logWrites hw
        exact logBlock_ne (by omega) (by omega) (by omega) (h₃.symm.trans he)
    | succ i =>
      rw [show tail + (i + 1) = tail + 1 + i by omega]
      exact ih (by omega) (by omega)

theorem committed_of_header (hf : Fits start size lh) (x : Block) :
    Committed start size lh disk new
      (perform (logWrites start new lh.block 0 ++ [(start, encodeHead lh x)]) disk) := by
  have hlt := hf.lt
  have hle := lh.le
  refine ⟨?_, fun i hi => ?_, fun b hb _ => ?_⟩ <;> rw [perform_append, perform_cons, perform_nil]
  · rw [Function.update_self]
    exact decode_encode lh x
  · rw [Function.update_of_ne (logBlock_ne_start (by omega))]
    have hlog : perform (logWrites start new lh.block 0) disk (logBlock start (0 + i)) =
        new lh.block[i] := perform_logWrites (by omega) hi
    simpa using hlog
  · rw [Function.update_of_ne (by rintro rfl; exact hb (start_inLog (by omega))), perform_other]
    intro hm
    obtain ⟨w, hw, rfl⟩ := List.mem_map.1 hm
    obtain ⟨t, -, ht, he⟩ := mem_logWrites hw
    exact hb (he ▸ logBlock_inLog (by omega))

variable (disk new) in
/-- What a commit writes: the log, the header, the home blocks, the empty header. -/
theorem commit_writes (hf : Fits start size lh) (hne : 0 < lh.block.length) :
    ∃ x y, (commit start lh (pinned disk new lh)).writes =
      logWrites start new lh.block 0 ++ [(start, encodeHead lh x)] ++
        installWrites start lh new y := by
  have hlt := hf.lt
  have hle := lh.le
  have hpin : ∀ b ∈ lh.block, bread (pinned disk new lh) b = new b := fun b hb => by
    simp [bread, pinned, hb]
  have h₁ : Emits (pinned disk new lh) _ (writeLog start lh.block 0 (pinned disk new lh)) :=
    writeLog_emits hpin fun b hb t ht => hf.ne_logBlock hb (by omega)
  set d₁ := writeLog start lh.block 0 (pinned disk new lh)
  have h₂ := h₁.trans (emits_bwrite d₁ start (encodeHead lh (bread d₁ start)))
  set d₂ := bwrite d₁ start (encodeHead lh (bread d₁ start)) with hd₂
  have h₃ : Emits d₂ (lh.block.map fun b => (b, new b)) (installTrans start lh.block 0 d₂) := by
    refine installTrans_emits (fun i hi => ?_) fun b hb t ht => hf.ne_logBlock hb (by omega)
    -- the log is read back from the disk: none of its blocks is pinned
    have hclean : (pinned disk new lh).dirty (logBlock start i) = none := by
      simp only [pinned]
      exact if_neg fun hm => hf.ne_logBlock hm hi rfl
    rw [Nat.zero_add, h₂.bread_clean hclean, h₂.disk]
    exact (committed_of_header hf (bread d₁ start)).log i hi
  have h₄ := (h₂.trans h₃).trans (emits_bwrite _ start
    (encodeHead .empty (bread (installTrans start lh.block 0 d₂) start)))
  refine ⟨bread d₁ start, bread (installTrans start lh.block 0 d₂) start, ?_⟩
  have hw := h₄.writes
  simp only [commit, gt_iff_lt, hne, if_true]
  rw [installWrites, ← List.append_assoc]
  exact hw

/-- **The redo log is atomic.** Start from any disk whose log header is empty, and pin any new
contents of distinct home blocks, fewer than the log has; cut the disk writes of `commit` after any
number `n` of them and let the recovery crash any number of times, anywhere. The next recovery
succeeds and leaves the header empty and all home blocks old, if the first header write had not
completed, and all new otherwise. -/
theorem commit_atomic (hclean : disk start 0 = 0) (hf : Fits start size lh) (n : ℕ)
    {d : BlockNo → Block}
    (hd : Crashes start
      (perform ((commit start lh (pinned disk new lh)).writes.take n) disk) d) :
    ∃ r, recoverFromLog start { disk := d } = .ok r ∧ r.disk start 0 = 0 ∧
      ∀ b, ¬ InLog start size b →
        r.disk b = if n ≤ lh.block.length then disk b else after lh disk new b := by
  have hlt := hf.lt
  have h0 : 0 < size := by omega
  have hinit : Clean start size disk disk := ⟨hclean, fun _ _ => rfl⟩
  -- a clean disk is recovered as it is
  have hrec : ∀ {home}, Clean start size home d → ∃ r, recoverFromLog start { disk := d } = .ok r ∧
      r.disk start 0 = 0 ∧ ∀ b, ¬ InLog start size b → r.disk b = home b := fun hc => by
    obtain ⟨r, hr, hc', -⟩ := hc.recover h0
    exact ⟨r, hr, hc'.header, hc'.home⟩
  by_cases hne : 0 < lh.block.length
  · obtain ⟨x, y, hw⟩ := commit_writes disk new hf hne
    rw [hw] at hd
    by_cases hn : n ≤ lh.block.length
    · -- the cut came before the header write: only log blocks differ
      simp only [hn, if_true]
      refine hrec (hd.clean h0 ?_)
      rw [List.append_assoc, List.take_append_of_le_length (by rwa [length_logWrites])]
      refine perform_take (fun w hw d hd => ?_) hinit n
      obtain ⟨t, -, ht, he⟩ := mem_logWrites hw
      have hle := lh.le
      refine ⟨?_, fun b hb => ?_⟩
      · rw [he, Function.update_of_ne (logBlock_ne_start (by omega)).symm, hd.header]
      · have hin : InLog start size (logBlock start t) := logBlock_inLog (by omega)
        rw [Function.update_of_ne (by rintro rfl; exact hb (he ▸ hin)), hd.home b hb]
    · -- the cut came after it: the log on disk is the transaction
      simp only [hn, if_false]
      have hlen : (logWrites start new lh.block 0 ++ [(start, encodeHead lh x)]).length ≤ n := by
        simp [length_logWrites]; omega
      rw [List.take_append, List.take_of_length_le hlen, perform_append] at hd
      rcases hd.committed hf ((committed_of_header hf x).cut hf y _) with hc | hc
      · obtain ⟨r, z, hr, hw', hdisk⟩ := hc.recover hf
        have hfin := hc.finish hf z
        rw [← hw', ← hdisk] at hfin
        exact ⟨r, hr, hfin.header, hfin.home⟩
      · exact hrec hc
  · -- an empty transaction writes nothing
    have hnil : lh.block = [] := List.length_eq_zero_iff.1 (by omega)
    have hw : (commit start lh (pinned disk new lh)).writes = [] := by simp [commit, hnil, pinned]
    have hafter : ∀ b, (if n ≤ lh.block.length then disk b else after lh disk new b) = disk b :=
      fun b => by simp [after, hnil]
    rw [hw, List.take_nil, perform_nil] at hd
    simp only [hafter]
    exact hrec (hd.clean h0 hinit)

def oneBlock : LogHeader := ⟨[40], by decide⟩

theorem oneBlock_fits : Fits 2 30 oneBlock where
  lt := by decide
  home b hb := by
    obtain rfl := List.mem_singleton.1 hb
    decide

/-- On a zeroed disk, cut right after the header write, with nothing installed. -/
theorem commit_atomic_oneBlock :
    ∃ r, recoverFromLog 2 { disk := perform ((commit 2 oneBlock
        (pinned (fun _ _ => 0) (fun _ _ => 9) oneBlock)).writes.take 2) fun _ _ => 0 } = .ok r ∧
      r.disk 2 0 = 0 ∧ r.disk 40 = fun _ => 9 := by
  obtain ⟨r, hr, h0, hb⟩ :=
    @commit_atomic 2 30 oneBlock (fun _ _ => 0) (fun _ _ => 9) rfl oneBlock_fits 2 _ .none
  exact ⟨r, hr, h0, (hb 40 (oneBlock_fits.home 40 (by decide))).trans (by simp [oneBlock, after])⟩

/-- A disk whose log header still names the block 50. -/
def staleDisk : BlockNo → Block := fun b i =>
  if b = 2 then (if i = 0 then 1 else if i = 1 then 50 else 0) else if b = 3 then 7 else 0

/-- Cut before its first write, a commit on that disk is recovered to contents of the block 50 that
are neither old nor new. -/
theorem stale_header :
    ∃ r, recoverFromLog 2 { disk := perform ((commit 2 oneBlock
        (pinned staleDisk (fun _ _ => 9) oneBlock)).writes.take 0) staleDisk } = .ok r ∧
      r.disk 50 ≠ staleDisk 50 ∧ r.disk 50 ≠ after oneBlock staleDisk (fun _ _ => 9) 50 := by
  refine ⟨_, rfl, ?_, ?_⟩ <;> exact fun h => absurd (congrFun h 0) (by decide)

end commit

end Xv6.Log
