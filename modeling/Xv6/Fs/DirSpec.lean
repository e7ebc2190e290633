import Xv6.Fs.Store
import Xv6.Fs.Entries

/-!
# What the code of directories does

On a directory whose size is a multiple of that of an entry, the loops of `dirlookup`, `dirlink` and
`isdirempty` find the entry that they look for, and end. The directory is locked, and each function is
given by what it answers and what it makes of the content.
-/

namespace Xv6.Fs

open Lib

variable {ninodes : Word} {devsw : Fin NDEV → Bool} {s : Store} {k : Slot} {i : Word} {data : List Byte}
  {j : ℕ} {name : List Byte}

/-- The entry `k` of the cache holds the directory `i`, which is locked, with the content `data`. -/
structure Locked (s : Store) (k : Slot) (i : Word) (data : List Byte) : Prop where
  lock : s.locked k = .ok i
  dir : (s.node i).type = T_DIR
  content : (s.node i).data = data
  size : DIRENT ∣ data.length
  small : data.length ≤ MAXFILE * BSIZE

/-- Where an entry is in the file. -/
def offset (j : ℕ) : Word := .ofNat 32 (DIRENT * j)

theorem Locked.pos_le (hk : Locked s k i data) (hj : j ≤ entries data) : DIRENT * j ≤ 71680 := by
  have h₁ : data.length ≤ 71680 := hk.small
  have h₂ := entry_pos hk.size hj
  omega

theorem Locked.offset_toNat (hk : Locked s k i data) (hj : j ≤ entries data) :
    (offset j).toNat = DIRENT * j := by
  have := hk.pos_le hj
  rw [offset, BitVec.toNat_ofNat, Nat.mod_eq_of_lt (by omega)]

theorem Locked.node_size (hk : Locked s k i data) : (s.node i).size = offset (entries data) := by
  rw [Vnode.size, hk.content, offset, entries, Nat.mul_div_cancel' hk.size]

theorem offset_succ (j : ℕ) : offset j + .ofNat 32 DIRENT = offset (j + 1) := by
  rw [offset, offset, ← BitVec.ofNat_add]
  rfl

theorem Locked.offset_lt (hk : Locked s k i data) (hj : j ≤ entries data) :
    offset j < offset (entries data) ↔ j < entries data := by
  rw [BitVec.lt_def, hk.offset_toNat hj, hk.offset_toNat le_rfl]
  exact Nat.mul_lt_mul_left (by decide)

theorem Locked.not_dev (hk : Locked s k i data) : ¬ (s.node i).type = T_DEV := by
  rw [hk.dir]
  decide

theorem run_fields (h : s.locked k = .ok i) :
    (Code.fields k).run (storeLayer ninodes devsw) s = .ok (⟨i, (s.node i).type, (s.node i).major,
      (s.node i).minor, (s.node i).nlink, (s.node i).size⟩, s) := by
  refine (Cmd.run_call (Act.fields k) s).trans ?_
  show (s.locked k >>= _) = _
  rw [h]
  rfl

theorem run_iget (i : Word) (s : Store) :
    (Code.iget i).run (storeLayer ninodes devsw) s = s.iget i := Cmd.run_call (Act.iget i) s

theorem run_ilock (k : Slot) (s : Store) :
    (Code.ilock k).run (storeLayer ninodes devsw) s = s.ilock k >>= fun s => pure ((), s) :=
  Cmd.run_call (Act.ilock k) s

theorem run_iunlock (k : Slot) (s : Store) :
    (Code.iunlock k).run (storeLayer ninodes devsw) s = s.iunlock k >>= fun s => pure ((), s) :=
  Cmd.run_call (Act.iunlock k) s

theorem run_iput (k : Slot) (s : Store) :
    (Code.iput k).run (storeLayer ninodes devsw) s = s.iput k >>= fun s => pure ((), s) :=
  Cmd.run_call (Act.iput k) s

theorem Locked.run_readEntry (hk : Locked s k i data) (hj : j < entries data) (e : Panic) :
    (Code.readEntry k (offset j) e).run (storeLayer ninodes devsw) s = .ok (entry data j, s) := by
  have hoff := hk.offset_toNat hj.le
  have hle : DIRENT * j + DIRENT ≤ data.length := entry_pos hk.size (Nat.succ_le_of_lt hj)
  have hread : (s.node i).read devsw (offset j) (.ofNat 32 DIRENT) = .done (record DIRENT data j) := by
    have := hk.pos_le hj.le
    rw [Vnode.read, if_neg hk.not_dev, hk.content, hoff, if_pos ⟨by omega, by show _ + 16 < _; omega⟩]
    rfl
  have hrun : (Code.readi k (offset j) (.ofNat 32 DIRENT)).run (storeLayer ninodes devsw) s =
      .ok (.done (record DIRENT data j), s) := by
    refine (Cmd.run_call (Act.readi k (offset j) (.ofNat 32 DIRENT)) s).trans ?_
    show (s.locked k >>= _) = _
    rw [hk.lock, ← hread]
    rfl
  rw [Code.readEntry, Cmd.run_bind, hrun]
  show Cmd.run _ (if (record DIRENT data j).length = DIRENT then _ else _) s = _
  rw [if_pos (length_record hle)]
  rfl

theorem Locked.run_writeEntry (hk : Locked s k i data) (hj : j ≤ entries data) {d : Dirent} (hd : d.Full)
    (e : Panic) : (Code.writeEntry k d (offset j) e).run (storeLayer ninodes devsw) s =
      if DIRENT * j + DIRENT ≤ MAXFILE * BSIZE then
        .ok ((), s.setNode i { s.node i with data := setEntry data j d }) else .error e.fault := by
  have hoff := hk.offset_toNat hj
  have hpos := entry_pos hk.size hj
  have hsrc := map_getD_range d.toBytes
  rw [Dirent.toBytes_length hd] at hsrc
  have hdata : (s.node i).data.take (offset j).toNat ++
      (List.range (BitVec.ofNat 32 DIRENT).toNat).map (d.toBytes.getD · 0) ++
      (s.node i).data.drop ((offset j).toNat + (BitVec.ofNat 32 DIRENT).toNat) = setEntry data j d := by
    rw [hoff, hk.content]
    show data.take (DIRENT * j) ++ (List.range DIRENT).map _ ++ data.drop (DIRENT * j + DIRENT) = _
    rw [hsrc]
    rfl
  have hwrite : (s.node i).write devsw (d.toBytes.getD · 0) (offset j) (.ofNat 32 DIRENT) =
      if DIRENT * j + DIRENT ≤ MAXFILE * BSIZE then
        (.done (.ofNat 32 DIRENT), { s.node i with data := setEntry data j d })
      else (.fail, s.node i) := by
    rw [Vnode.write, if_neg hk.not_dev, hdata, hk.content, hoff]
    exact if_congr (and_iff_right hpos) rfl rfl
  have hrun : (Code.writei k (d.toBytes.getD · 0) (offset j) (.ofNat 32 DIRENT)).run
      (storeLayer ninodes devsw) s = .ok (((s.node i).write devsw (d.toBytes.getD · 0) (offset j)
        (.ofNat 32 DIRENT)).1, s.setNode i ((s.node i).write devsw (d.toBytes.getD · 0) (offset j)
        (.ofNat 32 DIRENT)).2) := by
    refine (Cmd.run_call (Act.writei k (d.toBytes.getD · 0) (offset j) (.ofNat 32 DIRENT)) s).trans ?_
    show (s.locked k >>= _) = _
    rw [hk.lock]
    rfl
  rw [Code.writeEntry, Cmd.run_bind, hrun, hwrite]
  split
  · show Cmd.run _ (if BitVec.ofNat 32 DIRENT = .ofNat 32 DIRENT then _ else _) _ = _
    rw [if_pos rfl]
    rfl
  · rfl

/-- The loop over the entries that looks for the first one with `P`. -/
theorem Locked.run_scan {α : Type} (hk : Locked s k i data) (P : Dirent → Prop) [DecidablePred P]
    (loop : ℕ → Word → Code α) (e : Panic) (found : Word → Dirent → Code α) (rest : Word → Code α)
    (hloop : ∀ fuel off, loop (fuel + 1) off =
      if off < (s.node i).size then do
        let de ← Code.readEntry k off e
        if P de then found off de else loop fuel (off + .ofNat 32 DIRENT)
      else rest off) :
    ∀ {fuel j : ℕ}, j ≤ entries data → entries data < fuel + j →
      (loop fuel (offset j)).run (storeLayer ninodes devsw) s =
        match (List.range' j (entries data - j)).find? fun j => P (entry data j) with
        | some j' => (found (offset j') (entry data j')).run (storeLayer ninodes devsw) s
        | none => (rest (offset (entries data))).run (storeLayer ninodes devsw) s := by
  intro fuel
  induction fuel with
  | zero => intro j hj hf; omega
  | succ fuel ih =>
    intro j hj hf
    rw [hloop, hk.node_size]
    by_cases hlt : j < entries data
    · rw [if_pos ((hk.offset_lt hj).2 hlt), Cmd.run_bind, hk.run_readEntry hlt]
      have hrange : List.range' j (entries data - j) = j :: List.range' (j + 1) (entries data - (j + 1)) := by
        rw [show entries data - j = entries data - (j + 1) + 1 by omega, List.range'_succ]
      rw [hrange]
      show Cmd.run _ (if P (entry data j) then _ else _) s = _
      by_cases hP : P (entry data j)
      · rw [if_pos hP, List.find?_cons_of_pos (by simpa using hP)]
      · rw [if_neg hP, List.find?_cons_of_neg (by simpa using hP), offset_succ]
        exact ih hlt (by omega)
    · obtain rfl : j = entries data := by omega
      rw [if_neg (mt (hk.offset_lt hj).1 hlt), Nat.sub_self]
      rfl

theorem Locked.turns (hk : Locked s k i data) : Code.turns (s.node i).size = entries data + 2 := by
  rw [Code.turns, hk.node_size, hk.offset_toNat le_rfl, Nat.mul_div_cancel_left _ (by decide)]

/-- **`dirlookup`** finds the entry that the name names. -/
theorem Locked.run_dirlookup (hk : Locked s k i data) (name : List Byte) :
    (Code.dirlookup k name).run (storeLayer ninodes devsw) s =
      match lookup data name with
      | none => .ok (none, s)
      | some j => (s.iget ((entry data j).inum.setWidth 32)).map fun x => (some (x.1, offset j), x.2) := by
  rw [Code.dirlookup, Cmd.run_bind, run_fields hk.lock]
  show Cmd.run _ (if (s.node i).type ≠ T_DIR then _ else
    Code.lookupLoop k name (s.node i).size (Code.turns (s.node i).size) (offset 0)) s = _
  rw [if_neg (not_not_intro hk.dir), hk.turns]
  rw [hk.run_scan (fun de => de.inum ≠ 0 ∧ namecmp name de.name = 0)
    (Code.lookupLoop k name (s.node i).size) .dirlookupRead
    (fun off de => do
      let ip ← Code.iget (de.inum.setWidth 32)
      pure (some (ip, off)))
    (fun _ => pure none) (fun _ _ => rfl) (Nat.zero_le _) (by omega), lookup, List.range_eq_range',
    Nat.sub_zero]
  simp only [namecmp_eq_zero]
  cases (List.range' 0 (entries data)).find? fun j =>
    decide ((entry data j).inum ≠ 0 ∧ key name = key (entry data j).name) with
  | none => rfl
  | some j =>
    dsimp only
    rw [Cmd.run_bind, run_iget]
    cases s.iget ((entry data j).inum.setWidth 32) <;> rfl

theorem Locked.run_emptyLoop (hk : Locked s k i data) :
    (Code.emptyLoop k (s.node i).size (Code.turns (s.node i).size) 0).run (storeLayer ninodes devsw) s =
      .ok (offset (vacant data), s) := by
  show (Code.emptyLoop k (s.node i).size (Code.turns (s.node i).size) (offset 0)).run _ s = _
  rw [hk.turns]
  rw [hk.run_scan (fun de => de.inum = 0) (Code.emptyLoop k (s.node i).size) .dirlinkRead
    (fun off _ => pure off) (fun off => pure off) (fun _ _ => rfl) (Nat.zero_le _) (by omega), vacant,
    List.range_eq_range', Nat.sub_zero]
  cases (List.range' 0 (entries data)).find? fun j => decide ((entry data j).inum = 0) <;> rfl

/-- **`dirlink`** of a name that is not there. -/
theorem Locked.run_dirlink (hk : Locked s k i data) (hl : lookup data name = none) (inum : Word) :
    (Code.dirlink k name inum).run (storeLayer ninodes devsw) s =
      if DIRENT * vacant data + DIRENT ≤ MAXFILE * BSIZE then
        .ok (true, s.setNode i { s.node i with data := setEntry data (vacant data) (newEntry name inum) })
      else .error (.panic "dirlink") := by
  rw [Code.dirlink, Cmd.run_bind, hk.run_dirlookup, hl]
  show Cmd.run _ (Code.fields k >>= _) s = _
  rw [Cmd.run_bind, run_fields hk.lock]
  show Cmd.run _ (Code.emptyLoop k (s.node i).size (Code.turns (s.node i).size) 0 >>= _) s = _
  rw [Cmd.run_bind, hk.run_emptyLoop]
  show Cmd.run _ (Code.writeEntry k (newEntry name inum) (offset (vacant data)) .dirlink >>= _) s = _
  rw [Cmd.run_bind, hk.run_writeEntry (vacant_le data) (newEntry_full ..)]
  split <;> rfl

end Xv6.Fs
