import Xv6.Fs.Content
import Xv6.Fs.File
import Xv6.Lib.Machine
import Xv6.Lib.Count
import Mathlib.Algebra.Order.BigOperators.Group.Finset

/-!
# Writes through a shared open file

`filewrite` writes a few blocks at a time, each piece in a transaction of its own. Calls on the same
`struct file` may come between one another's pieces. Each piece goes where the one before it ended, and a
stretch of bytes that is written in two pieces is written as if at once; so all the calls together do what one
call of `writei` does with the pieces put one after the other.
-/

namespace Xv6.Fs

open Lib Log

/-! ### Writing in pieces -/

section pieces

variable {sb : Superblock} {d d' : Disk} {t : Word → Dinode} {i : Word} {ip ip' : Inode}

theorem writeLoop_fuel {fuel fuel' : ℕ} {ip : Inode} {d : Disk} {off : ℕ} {src : List Byte} (h : src.length ≤ fuel)
    (h' : src.length ≤ fuel') : writeLoop sb fuel ip d off src = writeLoop sb fuel' ip d off src := by
  induction fuel generalizing fuel' ip d off src with
  | zero =>
    obtain rfl := List.length_eq_zero_iff.1 (Nat.le_zero.1 h)
    cases fuel' <;> rfl
  | succ fuel ih =>
    cases src with
    | nil => cases fuel' <;> rfl
    | cons x src =>
      obtain ⟨fuel', rfl⟩ := Nat.exists_eq_add_one.2 (Nat.zero_lt_of_lt h')
      have hmod : off % BSIZE < BSIZE := Nat.mod_lt _ (by decide)
      rw [List.length_cons] at h h'
      have hdrop : ((x :: src).drop (min (src.length + 1) (BSIZE - off % BSIZE))).length ≤ src.length := by
        rw [List.length_drop, List.length_cons]
        omega
      rw [writeLoop_cons, writeLoop_cons]
      congr 1
      funext y
      exact ih (by omega) (by omega)

theorem writeLoop_nil (fuel : ℕ) (ip : Inode) (d : Disk) (off : ℕ) : writeLoop sb fuel ip d off [] = .ok (ip, d) := by
  cases fuel <;> rfl

/-- **A stretch of bytes can be written in two pieces.** If the first one ends inside of a block, the second one
finds it. -/
theorem writeLoop_append {fuel : ℕ} {ip : Inode} {d : Disk} {off : ℕ} {xs ys : List Byte}
    (ho : Owned sb d (Function.update t i ip.toDinode)) (hf : (xs ++ ys).length ≤ fuel) :
    writeLoop sb fuel ip d off (xs ++ ys) =
      writeLoop sb fuel ip d off xs >>= fun p => writeLoop sb fuel p.1 p.2 (off + xs.length) ys := by
  induction fuel generalizing ip d off xs with
  | zero =>
    obtain ⟨rfl, rfl⟩ := List.append_eq_nil_iff.1 (List.length_eq_zero_iff.1 (Nat.le_zero.1 hf))
    rfl
  | succ fuel ih =>
    cases xs with
    | nil =>
      rw [writeLoop_nil]
      rfl
    | cons x xs =>
    cases ys with
    | nil =>
      simp only [writeLoop_nil, List.append_nil]
      exact (bind_pure _).symm
    | cons y ys =>
    have hmod : off % BSIZE < BSIZE := Nat.mod_lt _ (by decide)
    set room := BSIZE - off % BSIZE with hroom
    simp only [List.cons_append, List.length_cons, List.length_append] at hf
    rw [List.cons_append, writeLoop_cons, writeLoop_cons]
    cases hb : bmap sb ip d (off / BSIZE) with
    | error e => rfl
    | ok z =>
    obtain ⟨b, ip₁, d₁⟩ := z
    have hmap := bmap_spec ho hb
    dsimp only [bind, Except.bind]
    rw [List.length_append, List.length_cons, ← hroom]
    by_cases hlt : room ≤ xs.length + 1
    · -- the block is filled by the first piece
      have hm : min (xs.length + (ys.length + 1) + 1) room = room := by omega
      have hm' : min (xs.length + 1) room = room := by omega
      have htake : (x :: (xs ++ y :: ys)).take room = (x :: xs).take room := by
        rw [← List.cons_append, List.take_append_of_le_length (by rw [List.length_cons]; omega)]
      have hdrop : (x :: (xs ++ y :: ys)).drop room = (x :: xs).drop room ++ y :: ys := by
        rw [← List.cons_append, List.drop_append_of_le_length (by rw [List.length_cons]; omega)]
      have hlen : ((x :: xs).take room).length = room := by
        rw [List.length_take, List.length_cons]
        omega
      have hturn := hmap.wrote (show 0 < ((x :: xs).take room).length by omega) (by omega)
      have hrest : ((x :: xs).drop room ++ y :: ys).length ≤ fuel := by
        simp only [List.length_append, List.length_drop, List.length_cons]
        omega
      rw [hm, hm', htake, hdrop, ih hturn.owned hrest]
      congr 1
      funext p
      have hoff : off + room + ((x :: xs).drop room).length = off + (x :: xs).length := by
        rw [List.length_drop, List.length_cons]
        omega
      rw [hoff]
      exact writeLoop_fuel (by rw [List.length_cons]; omega) (by rw [List.length_cons]; omega)
    · -- the first piece ends inside of the block
      set m₂ := min (ys.length + 1) (room - (xs.length + 1)) with hm₂
      have hm : min (xs.length + (ys.length + 1) + 1) room = (x :: xs).length + m₂ := by
        rw [List.length_cons]
        omega
      have hm' : min (xs.length + 1) room = (x :: xs).length := by
        rw [List.length_cons]
        omega
      have htake : (x :: (xs ++ y :: ys)).take ((x :: xs).length + m₂) = (x :: xs) ++ (y :: ys).take m₂ := by
        rw [← List.cons_append, List.take_length_add_append]
      have hdrop : (x :: (xs ++ y :: ys)).drop ((x :: xs).length + m₂) = (y :: ys).drop m₂ := by
        rw [← List.cons_append, List.drop_length_add_append]
      obtain ⟨hdiv, hrem⟩ := within_block (show off % BSIZE + (x :: xs).length < BSIZE by
        rw [List.length_cons]
        omega)
      rw [hm, hm', htake, hdrop, List.take_length, List.drop_length, writeLoop_nil]
      dsimp only
      have hpresent : ip₁.block { d₁ with
          data := Function.update d₁.data b (copyIn (d₁.data b) (off % BSIZE) (x :: xs)) }
            ((off + (x :: xs).length) / BSIZE) = b := by rw [hmap.block_write, hdiv, hmap.block]
      have hroom₂ : BSIZE - (off % BSIZE + (x :: xs).length) = room - (xs.length + 1) := by
        rw [List.length_cons]
        omega
      rw [writeLoop_cons, bmap_present (by rw [hpresent]; exact hmap.ne), hpresent, hrem, hroom₂, ← hm₂]
      dsimp only [bind, Except.bind]
      rw [Function.update_self, Function.update_idem, ← copyIn_append, Nat.add_assoc]

/-- Another size in the inode, and other inodes on the disk. -/
def reseat (z : Word) (D : Word → Dinode) (p : Inode × Disk) : Inode × Disk :=
  ({ p.1 with size := z }, { p.2 with dinode := D })

variable (z : Word) (D : Word → Dinode)

theorem balloc_reseat (d : Disk) :
    balloc sb { d with dinode := D } = (balloc sb d).map fun x => (x.1, { x.2 with dinode := D }) := by
  rw [balloc_eq, balloc_eq]
  dsimp only
  cases (List.range sb.size.toNat).find? fun b => !d.used (.ofNat 32 b) <;> rfl

/-- `bmap` looks neither at the size nor at the inodes on the disk. -/
theorem bmap_reseat (ip : Inode) (d : Disk) (bn : ℕ) :
    bmap sb { ip with size := z } { d with dinode := D } bn =
      (bmap sb ip d bn).map fun x => (x.1, reseat z D x.2) := by
  rw [bmap_eq, bmap_eq]
  simp only [balloc_reseat]
  split
  · split
    · cases balloc sb d <;> rfl
    · rfl
  · split
    · split
      · cases balloc sb d with
        | error e => rfl
        | ok x =>
          dsimp only [bind, Except.bind, Except.map, pure, Except.pure]
          rw [balloc_reseat]
          split
          · cases balloc sb x.2 <;> rfl
          · rfl
      · dsimp only [bind, Except.bind, Except.map, pure, Except.pure]
        rw [balloc_reseat]
        split
        · cases balloc sb d <;> rfl
        · rfl
    · rfl

theorem writeLoop_reseat (fuel : ℕ) (ip : Inode) (d : Disk) (off : ℕ) (src : List Byte) :
    writeLoop sb fuel { ip with size := z } { d with dinode := D } off src =
      (writeLoop sb fuel ip d off src).map (reseat z D) := by
  induction fuel generalizing ip d off src with
  | zero => cases src <;> rfl
  | succ fuel ih =>
    cases src with
    | nil => rfl
    | cons x src =>
      rw [writeLoop_cons, writeLoop_cons, bmap_reseat]
      cases bmap sb ip d (off / BSIZE) with
      | error e => rfl
      | ok y =>
        obtain ⟨b, ip₁, d₁⟩ := y
        exact ih ip₁ { d₁ with data := Function.update d₁.data b _ } _ _

/-- The loop of `writei` leaves the size and the inodes on the disk. -/
theorem writeLoop_same_size {fuel off : ℕ} {src : List Byte} (ho : Owned sb d (Function.update t i ip.toDinode))
    (h : writeLoop sb fuel ip d off src = .ok (ip', d')) :
    ip'.size = ip.size ∧ ip'.inum = ip.inum ∧ ip'.type = ip.type ∧ d'.dinode = d.dinode := by
  have hw := writeLoop_spec ho h
  have hin := hw.inode
  refine ⟨?_, ?_, ?_, hw.dinode⟩ <;> rw [hin]

/-- What `writei` does with two pieces one after the other it does with both at once. -/
theorem grow_append {off n m : Word} {D : Word → Dinode} {z : Word} (ip' : Inode) (d' : Disk)
    (hn : off.toNat + n.toNat + m.toNat < 2 ^ 32) (hm : 0 < m.toNat) (hsize : ip'.size = ip.size)
    (hinum : ip'.inum = ip.inum) (hd : d'.dinode = d.dinode) (hz : z = (grow off n ip d).1.size)
    (hD : D = (grow off n ip d).2.dinode) :
    grow (off + n) m (reseat z D (ip', d')).1 (reseat z D (ip', d')).2 = grow off (n + m) ip' d' := by
  have h₁ : (off + n).toNat = off.toNat + n.toNat := by
    rw [BitVec.toNat_add]
    omega
  have h₂ : (off + n + m).toNat = off.toNat + n.toNat + m.toNat := by
    rw [BitVec.toNat_add]
    omega
  have h₃ : off + (n + m) = off + n + m := (BitVec.add_assoc ..).symm
  have hm0 : m > 0 := by
    show (0 : Word).toNat < m.toNat
    exact hm
  have hnm : n + m > 0 := by
    show (0 : Word).toNat < (n + m).toNat
    rw [BitVec.toNat_add]
    exact Nat.lt_of_lt_of_le hm (by omega)
  unfold grow reseat
  dsimp only
  rw [h₃]
  by_cases hg : n > 0 ∧ off + n > ip.size
  · -- the first piece has made the file larger, so the second one does
    have hz : z = off + n := by
      rw [hz, grow, if_pos hg]
    have hD : D = Function.update d.dinode ip.inum { ip with size := off + n } := by
      rw [hD, grow, if_pos hg]
      rfl
    have hgt : off + n + m > off + n := by
      show (off + n).toNat < (off + n + m).toNat
      omega
    have hgt' : off + n + m > ip'.size := by
      rw [hsize]
      have : ip.size.toNat < (off + n).toNat := hg.2
      show ip.size.toNat < (off + n + m).toNat
      omega
    rw [if_pos ⟨hm0, hz ▸ hgt⟩, if_pos ⟨hnm, hgt'⟩, hD]
    unfold iupdate
    dsimp only
    rw [hinum, hd, Function.update_idem]
  · have hz : z = ip'.size := by
      rw [hz, grow, if_neg hg, hsize]
    have hD : D = d'.dinode := by
      rw [hD, grow, if_neg hg, hd]
    rw [hz, hD]
    by_cases hgt : off + n + m > ip'.size
    · rw [if_pos ⟨hm0, hgt⟩, if_pos ⟨hnm, hgt⟩]
    · rw [if_neg fun h => hgt h.2, if_neg fun h => hgt h.2]

end pieces

/-! ### The calls -/

/-- An open file on the inode `ip`, and `N` calls of `filewrite` on it. -/
structure Shared (N : ℕ) where
  ip : Inode
  disk : Disk
  /-- `f->off`. -/
  off : Word
  /-- The variable `i` of each call. -/
  i : Fin N → ℕ := fun _ => 0
  /-- What each call has returned. -/
  ret : Fin N → Option ℤ := fun _ => none

variable {N : ℕ}

namespace Shared

/-- The call `c` has written `n` bytes. -/
def advance (s : Shared N) (c : Fin N) (ip : Inode) (d : Disk) (n : ℕ) : Shared N :=
  { s with ip := ip, disk := d, off := s.off + .ofNat 32 n, i := Function.update s.i c (s.i c + n) }

def finish (s : Shared N) (c : Fin N) (r : ℤ) : Shared N := { s with ret := Function.update s.ret c (some r) }

/-- What the next turn of the call `c`, with the buffer `buf`, gives to `writei`. -/
def chunk (s : Shared N) (buf : List Byte) (c : Fin N) : List Byte :=
  (buf.drop (s.i c)).take (min (buf.length - s.i c) Code.writeMax)

/-- The next turn of the loop of `filewrite` in the call `c`, with the buffer `buf`: a piece is written in one
transaction, or the call returns. The answer is the piece that is given to `writei`. -/
def turn (sb : Superblock) (devsw : Fin NDEV → Bool) (s : Shared N) (c : Fin N) (buf : List Byte) :
    Except Fault (Shared N × List Byte) :=
  if s.i c < buf.length then do
    let n₁ := min (buf.length - s.i c) Code.writeMax
    let (r, ip, d) ← writei sb devsw s.ip s.disk (fun j => buf.getD (s.i c + j) 0) s.off (.ofNat 32 n₁)
    match r with
    | .fail => pure ({ s with ip := ip, disk := d }.finish c (-1), s.chunk buf c)
    -- the console takes all that it is given
    | .device => pure (s.advance c ip d n₁, s.chunk buf c)
    | .done r =>
      if r ≠ .ofNat 32 n₁ then .error (.panic "short filewrite")
      else pure (s.advance c ip d n₁, s.chunk buf c)
  else pure (s.finish c (if s.i c = buf.length then buf.length else -1), [])

end Shared

/-- The calls of `filewrite` with the buffers `buf`, in any order between their transactions. -/
def sharedFile (sb : Superblock) (devsw : Fin NDEV → Bool) (ip : Inode) (d : Disk) (off : Word)
    (buf : Fin N → List Byte) : Machine (Shared N) (Fin N) (List Byte) Fault where
  init := { ip := ip, disk := d, off := off }
  enabled s c := (s.ret c).isNone
  exec s c := s.turn sb devsw c (buf c)

def written (h : List (Fin N × List Byte)) : List Byte := h.reverse.flatMap Prod.snd

def writtenBy (h : List (Fin N × List Byte)) (c : Fin N) : List Byte :=
  (h.reverse.filter fun e => e.1 = c).flatMap Prod.snd

theorem written_cons (e : Fin N × List Byte) (h : List (Fin N × List Byte)) : written (e :: h) = written h ++ e.2 := by
  simp [written]

theorem writtenBy_cons (e : Fin N × List Byte) (h : List (Fin N × List Byte)) (c : Fin N) :
    writtenBy (e :: h) c = if e.1 = c then writtenBy h c ++ e.2 else writtenBy h c := by
  unfold writtenBy
  rw [List.reverse_cons, List.filter_append, List.flatMap_append]
  split
  · rw [List.filter_cons_of_pos (by simpa), List.filter_nil]
    simp
  · rw [List.filter_cons_of_neg (by simpa), List.filter_nil]
    simp

section shared

variable {sb : Superblock} {devsw : Fin NDEV → Bool} {d : Disk} {t : Word → Dinode} {ip : Inode} {off : Word}
  {buf : Fin N → List Byte} {h : List (Fin N × List Byte)} {s s' : Shared N} {c : Fin N}

/-- **All together the calls have done what one call of `writei` does.** -/
structure Together (sb : Superblock) (ip : Inode) (d : Disk) (off : Word) (buf : Fin N → List Byte)
    (h : List (Fin N × List Byte)) (s : Shared N) : Prop where
  state : ∃ ip₁ d₁, writeLoop sb (written h).length ip d off.toNat (written h) = .ok (ip₁, d₁) ∧
    (s.ip, s.disk) = grow off (.ofNat 32 (written h).length) ip₁ d₁
  off : s.off = off + .ofNat 32 (written h).length
  part : ∀ c, writtenBy h c = (buf c).take (s.i c)
  /-- How far a call is after so many turns. -/
  i : ∀ c, s.i c = min (buf c).length (Code.writeMax * (h.map Prod.fst).count c)
  ret : ∀ c, s.ret c =
    if ((buf c).length + (Code.writeMax - 1)) / Code.writeMax < (h.map Prod.fst).count c then some ((buf c).length : ℤ)
    else none
  sum : (written h).length = ∑ c, s.i c
  small : ∀ e ∈ h, e.2.length ≤ Code.writeMax

/-- The file is no device, the offset is in it, it does not get too large, and there are the blocks for what is
written. -/
structure Fitting (sb : Superblock) (t : Word → Dinode) (ip : Inode) (d : Disk) (off : Word)
    (buf : Fin N → List Byte) : Prop where
  owned : Owned sb d t
  inode : t ip.inum = ip.toDinode
  file : ip.type ≠ T_DEV
  start : off.toNat ≤ ip.size.toNat
  max : off.toNat + ∑ c, (buf c).length ≤ MAXFILE * BSIZE
  room : ip.need d off.toNat (∑ c, (buf c).length) ≤ (freeBlocks sb d).card

theorem need_mono (x : Dinode) (off : ℕ) {n m : ℕ} (h : n ≤ m) : x.need d off n ≤ x.need d off m := by
  have hsub : touched off n ⊆ touched off m := by
    intro k hk
    obtain ⟨j, h₁, h₂, rfl⟩ := mem_touched.1 hk
    exact mem_touched.2 ⟨j, h₁, by omega, rfl⟩
  refine Nat.add_le_add (Finset.card_le_card (Finset.filter_subset_filter _ hsub)) ?_
  split
  · rename_i hind
    obtain ⟨h0, k, hk, hle⟩ := hind
    rw [if_pos ⟨h0, k, hsub hk, hle⟩]
  · exact Nat.zero_le _

theorem Fitting.table (hf : Fitting sb t ip d off buf) : Owned sb d (Function.update t ip.inum ip.toDinode) := by
  rw [← hf.inode, Function.update_eq_self]
  exact hf.owned

/-- There is room for each part of what is to be written. -/
theorem Fitting.loop (hf : Fitting sb t ip d off buf) (src : List Byte) (h : src.length ≤ ∑ c, (buf c).length) :
    ∃ ip₁ d₁, writeLoop sb src.length ip d off.toNat src = .ok (ip₁, d₁) := by
  have hmax := hf.max
  exact writeLoop_total hf.table le_rfl (by omega) ((need_mono ip.toDinode _ h).trans hf.room)

theorem grow_reseat (off n : Word) (ip : Inode) (d : Disk) :
    grow off n ip d = reseat (grow off n ip d).1.size (grow off n ip d).2.dinode (ip, d) := by
  unfold grow
  split <;> rfl

theorem Together.le (hs : Together sb ip d off buf h s) (c : Fin N) : s.i c ≤ (buf c).length := by
  rw [hs.i]
  exact Nat.min_le_left ..

theorem Together.length_le (hs : Together sb ip d off buf h s) {m : ℕ} (hm : s.i c + m ≤ (buf c).length) :
    (written h).length + m ≤ ∑ c, (buf c).length := by
  have hupd := sum_update id s.i c (s.i c + m)
  have hle : ∑ c', Function.update s.i c (s.i c + m) c' ≤ ∑ c', (buf c').length := by
    refine Finset.sum_le_sum fun c' _ => ?_
    by_cases hc : c' = c
    · rw [hc, Function.update_self]
      exact hm
    · rw [Function.update_of_ne hc]
      exact hs.le c'
  simp only [id] at hupd
  rw [hs.sum]
  omega

theorem Together.off_toNat (hs : Together sb ip d off buf h s) (hf : Fitting sb t ip d off buf) :
    s.off.toNat = off.toNat + (written h).length ∧ (written h).length < 2 ^ 32 := by
  have hmax : off.toNat + ∑ c, (buf c).length ≤ 71680 := hf.max
  have hle : (written h).length ≤ ∑ c, (buf c).length := by
    rw [hs.sum]
    exact Finset.sum_le_sum fun c _ => hs.le c
  rw [hs.off, BitVec.toNat_add, BitVec.toNat_ofNat]
  omega

theorem Together.off_le (hs : Together sb ip d off buf h s) (hf : Fitting sb t ip d off buf) :
    s.off.toNat ≤ s.ip.size.toNat := by
  obtain ⟨hoff, hlt⟩ := hs.off_toNat hf
  obtain ⟨ip₁, d₁, hl, hst⟩ := hs.state
  have hsize := (writeLoop_same_size hf.table hl).1
  have hstart := hf.start
  have hip : s.ip = (grow off (.ofNat 32 (written h).length) ip₁ d₁).1 := congrArg Prod.fst hst
  rw [hip]
  unfold grow
  split
  · dsimp only
    rw [← hs.off]
  · rename_i hg
    dsimp only
    rw [hsize]
    rw [hsize, ← hs.off] at hg
    by_cases h0 : (written h).length = 0
    · omega
    · by_contra hlt'
      refine hg ⟨?_, Nat.lt_of_not_le hlt'⟩
      show (0 : Word).toNat < (BitVec.ofNat 32 (written h).length).toNat
      rw [BitVec.toNat_ofNat, Nat.mod_eq_of_lt hlt]
      exact Nat.pos_of_ne_zero h0

/-- **One more piece.** -/
theorem Together.writei (hs : Together sb ip d off buf h s) (hf : Fitting sb t ip d off buf) (devsw : Fin NDEV → Bool)
    {l : List Byte} (h0 : 0 < l.length) (hl : (written h).length + l.length ≤ ∑ c, (buf c).length) {src : ℕ → Byte}
    (hsrc : (List.range l.length).map src = l) :
    ∃ ip₂ d₂, writeLoop sb (written h ++ l).length ip d off.toNat (written h ++ l) = .ok (ip₂, d₂) ∧
      Fs.writei sb devsw s.ip s.disk src s.off (.ofNat 32 l.length) =
        .ok (.done (.ofNat 32 l.length), grow off (.ofNat 32 (written h ++ l).length) ip₂ d₂) := by
  obtain ⟨hoff, hlt⟩ := hs.off_toNat hf
  obtain ⟨ip₁, d₁, hloop, hst⟩ := hs.state
  obtain ⟨hsize, hinum, htype, hdinode⟩ := writeLoop_same_size hf.table hloop
  have hmax : off.toNat + ∑ c, (buf c).length ≤ 71680 := hf.max
  have hlen : (written h ++ l).length = (written h).length + l.length := List.length_append
  obtain ⟨ip₂, d₂, h₂⟩ := hf.loop (written h ++ l) (by omega)
  refine ⟨ip₂, d₂, h₂, ?_⟩
  -- the piece is written after what has been written before
  have hw₁ := writeLoop_spec hf.table hloop
  have hpiece : writeLoop sb l.length ip₁ d₁ (off.toNat + (written h).length) l = .ok (ip₂, d₂) := by
    rw [writeLoop_append hf.table le_rfl, writeLoop_fuel (by omega) le_rfl, hloop] at h₂
    rw [← h₂]
    exact writeLoop_fuel le_rfl (by omega)
  obtain ⟨hsize₂, hinum₂, -, hdinode₂⟩ := writeLoop_same_size hw₁.owned hpiece
  set g := grow off (.ofNat 32 (written h).length) ip₁ d₁ with hg
  have hip : s.ip = (reseat g.1.size g.2.dinode (ip₁, d₁)).1 :=
    (congrArg Prod.fst hst).trans (congrArg Prod.fst (grow_reseat ..))
  have hdisk : s.disk = (reseat g.1.size g.2.dinode (ip₁, d₁)).2 :=
    (congrArg Prod.snd hst).trans (congrArg Prod.snd (grow_reseat ..))
  have hdev : s.ip.type ≠ T_DEV := by
    rw [hip]
    exact htype ▸ hf.file
  have hn : (BitVec.ofNat 32 l.length).toNat = l.length := by
    rw [BitVec.toNat_ofNat]
    omega
  have hfits : Fits s.ip s.off (.ofNat 32 l.length) := by
    refine ⟨hs.off_le hf, ?_⟩
    show _ ≤ 71680
    omega
  rw [writei_fits hdev hfits, hn, hsrc, hoff]
  have hre : writeLoop sb l.length s.ip s.disk (off.toNat + (written h).length) l =
      .ok (reseat g.1.size g.2.dinode (ip₂, d₂)) := by
    rw [hip, hdisk]
    refine (writeLoop_reseat _ _ _ ip₁ d₁ _ _).trans ?_
    rw [hpiece]
    rfl
  rw [hre]
  show Except.ok (_, _) = _
  congr 2
  have hadd : BitVec.ofNat 32 (written h ++ l).length = .ofNat 32 (written h).length + .ofNat 32 l.length := by
    rw [hlen, BitVec.ofNat_add]
  have hwn : (BitVec.ofNat 32 (written h).length).toNat = (written h).length := by
    rw [BitVec.toNat_ofNat]
    omega
  rw [hadd, hs.off]
  exact grow_append ip₂ d₂ (by omega) (by omega) hsize₂ hinum₂ hdinode₂ rfl rfl

theorem range_getD (buf : List Byte) (i n : ℕ) :
    (List.range ((buf.drop i).take n).length).map (fun j => buf.getD (i + j) 0) = (buf.drop i).take n := by
  refine List.ext_getElem (by simp) fun j h₁ h₂ => ?_
  have hlt : i + j < buf.length := by
    rw [List.length_take, List.length_drop] at h₂
    omega
  rw [List.getElem_map, List.getElem_range, List.getElem_take, List.getElem_drop, List.getD_eq_getElem _ _ hlt]

theorem Together.start (sb : Superblock) (ip : Inode) (d : Disk) (off : Word) (buf : Fin N → List Byte) :
    Together sb ip d off buf [] { ip := ip, disk := d, off := off } where
  state := ⟨ip, d, rfl, (if_neg fun h => absurd (show (0 : Word) > 0 from h.1) (by decide)).symm⟩
  off := (BitVec.add_zero off).symm
  part c := rfl
  i c := (Nat.min_eq_right (Nat.zero_le _)).symm
  ret c := rfl
  sum := (Finset.sum_eq_zero fun _ _ => rfl).symm
  small := nofun

theorem count_fst_cons (h : List (Fin N × List Byte)) (c : Fin N) (l : List Byte) (c' : Fin N) :
    (((c, l) :: h).map Prod.fst).count c' = (h.map Prod.fst).count c' + if c = c' then 1 else 0 := by
  rw [List.map_cons, List.count_cons]
  simp only [beq_iff_eq]

/-- A call that has not returned has had a turn for each piece at most. -/
theorem Together.count_le (hs : Together sb ip d off buf h s) (hc : s.ret c = none) :
    (h.map Prod.fst).count c ≤ ((buf c).length + 1535) / 1536 := by
  have hret := hs.ret c
  rw [hc, show Code.writeMax = 1536 from rfl] at hret
  by_contra hlt
  rw [if_pos (Nat.lt_of_not_le hlt)] at hret
  cases hret

/-- A piece of `n` bytes has been written. -/
theorem Together.advance (hs : Together sb ip d off buf h s) (hc : s.ret c = none) {n : ℕ} {ip₂ : Inode} {d₂ : Disk}
    (hlt : s.i c < (buf c).length) (hn : n = min ((buf c).length - s.i c) Code.writeMax)
    (hloop : writeLoop sb (written h ++ s.chunk (buf c) c).length ip d off.toNat (written h ++ s.chunk (buf c) c) =
      .ok (ip₂, d₂)) :
    Together sb ip d off buf ((c, s.chunk (buf c) c) :: h)
      (s.advance c (grow off (.ofNat 32 (written h ++ s.chunk (buf c) c).length) ip₂ d₂).1
        (grow off (.ofNat 32 (written h ++ s.chunk (buf c) c).length) ip₂ d₂).2 n) := by
  have hmax : Code.writeMax = 1536 := rfl
  have hi := hs.i c
  have hcount := hs.count_le hc
  have hlen : (s.chunk (buf c) c).length = n := by
    rw [Shared.chunk, List.length_take, List.length_drop]
    omega
  have hself : Function.update s.i c (s.i c + n) c = s.i c + n := Function.update_self ..
  have hrest : ∀ c', c' ≠ c → Function.update s.i c (s.i c + n) c' = s.i c' := fun c' hne =>
    Function.update_of_ne hne ..
  rw [hmax] at hi
  constructor
  case state =>
    rw [written_cons]
    exact ⟨ip₂, d₂, hloop, rfl⟩
  case off =>
    show s.off + .ofNat 32 n = _
    rw [written_cons, List.length_append, hlen, hs.off, BitVec.ofNat_add, BitVec.add_assoc]
  case part =>
    intro c'
    rw [writtenBy_cons, hs.part]
    show _ = (buf c').take (Function.update s.i c (s.i c + n) c')
    by_cases hcc : c = c'
    · subst hcc
      rw [if_pos rfl, hself, hn]
      show _ ++ ((buf c).drop (s.i c)).take _ = _
      rw [← List.take_add]
    · rw [if_neg hcc, hrest c' (Ne.symm hcc)]
  case i =>
    intro c'
    show Function.update s.i c (s.i c + n) c' = _
    rw [count_fst_cons]
    by_cases hcc : c = c'
    · subst hcc
      rw [hself, if_pos rfl, hmax, Nat.mul_add]
      omega
    · rw [hrest c' (Ne.symm hcc), if_neg hcc, hs.i c']
      rfl
  case ret =>
    intro c'
    show s.ret c' = _
    rw [hs.ret c', count_fst_cons, hmax]
    by_cases hcc : c = c'
    · subst hcc
      rw [if_pos rfl, if_neg (by omega), if_neg (by omega)]
    · rw [if_neg hcc]
      rfl
  case sum =>
    have := sum_update id s.i c (s.i c + n)
    simp only [id] at this
    rw [written_cons, List.length_append, hlen, hs.sum]
    show _ = ∑ c', Function.update s.i c (s.i c + n) c'
    omega
  case small =>
    intro e he
    rcases List.mem_cons.1 he with rfl | he
    · show (s.chunk (buf c) c).length ≤ _
      omega
    · exact hs.small e he

/-- All is written, and the call returns. -/
theorem Together.finish (hs : Together sb ip d off buf h s) (hc : s.ret c = none) (heq : s.i c = (buf c).length) :
    Together sb ip d off buf ((c, []) :: h) (s.finish c (buf c).length) := by
  have hmax : Code.writeMax = 1536 := rfl
  have hi := hs.i c
  have hcount := hs.count_le hc
  rw [hmax] at hi
  have hwritten : written ((c, []) :: h) = written h := by rw [written_cons, List.append_nil]
  constructor
  case state =>
    rw [hwritten]
    exact hs.state
  case off =>
    rw [hwritten]
    exact hs.off
  case part =>
    intro c'
    rw [writtenBy_cons, List.append_nil, ite_self]
    exact hs.part c'
  case i =>
    intro c'
    show s.i c' = _
    rw [count_fst_cons]
    by_cases hcc : c = c'
    · subst hcc
      rw [if_pos rfl, hmax, Nat.mul_add]
      omega
    · rw [if_neg hcc, hs.i c']
      rfl
  case ret =>
    intro c'
    show Function.update s.ret c (some ((buf c).length : ℤ)) c' = _
    rw [count_fst_cons, hmax]
    by_cases hcc : c = c'
    · subst hcc
      rw [Function.update_self, if_pos rfl, if_pos (by omega)]
    · rw [Function.update_of_ne (Ne.symm hcc), hs.ret c', if_neg hcc]
      rfl
  case sum =>
    rw [hwritten]
    exact hs.sum
  case small =>
    intro e he
    rcases List.mem_cons.1 he with rfl | he
    · exact Nat.zero_le _
    · exact hs.small e he

/-- **A turn of a call** that has not returned goes well. -/
theorem Together.turn (hs : Together sb ip d off buf h s) (hf : Fitting sb t ip d off buf) (devsw : Fin NDEV → Bool)
    (hc : s.ret c = none) :
    ∃ s' l, s.turn sb devsw c (buf c) = .ok (s', l) ∧ Together sb ip d off buf ((c, l) :: h) s' := by
  have hmax : Code.writeMax = 1536 := rfl
  have hle := hs.le c
  unfold Shared.turn
  by_cases hlt : s.i c < (buf c).length
  · -- a piece is written
    rw [if_pos hlt]
    set n := min ((buf c).length - s.i c) Code.writeMax with hn
    have hlen : (s.chunk (buf c) c).length = n := by
      rw [Shared.chunk, List.length_take, List.length_drop]
      omega
    obtain ⟨ip₂, d₂, hloop, hw⟩ := hs.writei hf devsw (l := s.chunk (buf c) c) (by omega)
      (hs.length_le (c := c) (by omega)) (range_getD ..)
    rw [hlen] at hw
    refine ⟨_, _, ?_, hs.advance hc hlt hn hloop⟩
    dsimp only
    rw [hw]
    dsimp only [bind, Except.bind]
    rw [if_neg (not_not_intro rfl)]
    rfl
  · -- all is written
    have heq : s.i c = (buf c).length := by omega
    rw [if_neg hlt, if_pos heq]
    exact ⟨_, [], rfl, hs.finish hc heq⟩

theorem Together.runs (hf : Fitting sb t ip d off buf) (hr : (sharedFile sb devsw ip d off buf).Runs h s) :
    Together sb ip d off buf h s := by
  refine hr.invariant (P := fun h s => Together sb ip d off buf h s) (.start sb ip d off buf) ?_
  rintro h s ⟨c, l⟩ s' - hs ⟨hen, hx⟩
  obtain ⟨s₁, l₁, h₁, hs'⟩ := hs.turn hf devsw (Option.isNone_iff_eq_none.1 hen)
  obtain ⟨rfl, rfl⟩ := Prod.mk.inj (Except.ok.inj (h₁.symm.trans hx))
  exact hs'

theorem Together.all (hs : Together sb ip d off buf h s) (hret : ∀ c, s.ret c ≠ none) (c : Fin N) :
    s.i c = (buf c).length := by
  have hmax : Code.writeMax = 1536 := rfl
  have hlt : ((buf c).length + (Code.writeMax - 1)) / Code.writeMax < (h.map Prod.fst).count c := by
    by_contra hn
    exact hret c ((hs.ret c).trans (if_neg hn))
  rw [hs.i, hmax]
  rw [hmax] at hlt
  omega

/-- What `writei` would have done with all the pieces at once. -/
theorem Together.once (hs : Together sb ip d off buf h s) (hf : Fitting sb t ip d off buf) (devsw : Fin NDEV → Bool) :
    Fs.writei sb devsw ip d (fun j => (written h).getD j 0) off (.ofNat 32 (written h).length) =
      .ok (.done (.ofNat 32 (written h).length), s.ip, s.disk) := by
  obtain ⟨-, hlt⟩ := hs.off_toNat hf
  obtain ⟨ip₁, d₁, hloop, hst⟩ := hs.state
  have hn : (BitVec.ofNat 32 (written h).length).toNat = (written h).length := by
    rw [BitVec.toNat_ofNat]
    exact Nat.mod_eq_of_lt hlt
  have hle : (written h).length ≤ ∑ c, (buf c).length := by
    rw [hs.sum]
    exact Finset.sum_le_sum fun c _ => hs.le c
  have hmax := hf.max
  have hsrc : (List.range (written h).length).map (fun j => (written h).getD j 0) = written h := by
    have := range_getD (written h) 0 (written h).length
    simpa using this
  rw [writei_fits hf.file ⟨hf.start, by rw [hn]; omega⟩, hn, hsrc, hloop]
  show Except.ok (_, grow off _ ip₁ d₁) = _
  rw [← hst]

theorem Together.readi (hs : Together sb ip d off buf h s) (hf : Fitting sb t ip d off buf) (devsw : Fin NDEV → Bool) :
    Fs.readi sb devsw s.ip s.disk off (.ofNat 32 (written h).length) = .ok (.done (written h), s.ip, s.disk) := by
  obtain ⟨hoff, hlt⟩ := hs.off_toNat hf
  have hsize := hs.off_le hf
  obtain ⟨ip₁, d₁, hloop, hst⟩ := hs.state
  have hw := writeLoop_spec hf.table hloop
  have hst := hst.trans (grow_reseat ..)
  obtain ⟨hip, hdisk⟩ := Prod.mk.inj hst
  have hn : (BitVec.ofNat 32 (written h).length).toNat = (written h).length := by
    rw [BitVec.toNat_ofNat]
    exact Nat.mod_eq_of_lt hlt
  have hdev : s.ip.type ≠ T_DEV := by
    rw [hip]
    exact (writeLoop_same_size hf.table hloop).2.2.1 ▸ hf.file
  have hle : (written h).length ≤ ∑ c, (buf c).length := by
    rw [hs.sum]
    exact Finset.sum_le_sum fun c _ => hs.le c
  have hmax : off.toNat + ∑ c, (buf c).length ≤ 71680 := hf.max
  have hstart := hf.start
  have hblock : ∀ m, s.ip.block s.disk m = ip₁.block d₁ m := by
    intro m
    rw [hip, hdisk]
    rfl
  have hbyte : ∀ k, s.ip.byteAt s.disk k = ip₁.byteAt d₁ k := by
    intro k
    rw [Dinode.byteAt, Dinode.byteAt, hblock, hdisk]
  have hfirst : ¬ (off > s.ip.size ∨ off + .ofNat 32 (written h).length < off) := by
    rintro (hgt | hgt)
    · have : s.ip.size.toNat < off.toNat := hgt
      omega
    · have : (off + .ofNat 32 (written h).length).toNat < off.toNat := hgt
      rw [← hs.off] at this
      omega
  have hall : (if off + .ofNat 32 (written h).length > s.ip.size then s.ip.size - off
      else .ofNat 32 (written h).length).toNat = (written h).length := by
    rw [← hs.off, if_neg (show ¬ s.off > s.ip.size from Nat.not_lt.2 hsize), hn]
  unfold Fs.readi
  rw [if_neg hdev, if_neg hfirst]
  dsimp only
  rw [hall, readLoop_ok le_rfl fun k h₁ h₂ => by rw [hblock]; exact hw.present k h₁ h₂]
  show Except.ok (Io.done _, _, _) = _
  congr 3
  refine List.ext_getElem (by simp) fun k h₁ h₂ => ?_
  rw [List.getElem_map, List.getElem_range, hbyte, hw.bytes _ (by omega) (by omega), Nat.add_sub_cancel_left,
    List.getD_eq_getElem _ _ h₂]

/-- **Writes through a shared open file do not overlap.** Whatever the order of their transactions, no call goes
wrong, each one returns the number of its bytes, after as many transactions as it has pieces of at most 1536
bytes, and when all have returned the offset has moved on by all their bytes together; what is in the file from
the old offset on are their pieces, one after the other, in which each call has its bytes in their order and
once; and if there is one call only, the inode and the disk are what one call of `writei` makes of them. -/
theorem shared_writes (hf : Fitting sb t ip d off buf) (hr : (sharedFile sb devsw ip d off buf).Runs h s) :
    (∀ c, s.ret c = none → ∃ s' l, (sharedFile sb devsw ip d off buf).exec s c = .ok (s', l)) ∧
    (∀ c, ((buf c).length + 1535) / 1536 < (h.map Prod.fst).count c → s.ret c = some ((buf c).length : ℤ)) ∧
    (∀ c r, s.ret c = some r → r = (buf c).length) ∧ (∀ e ∈ h, e.2.length ≤ 1536) ∧
    ((∀ c, s.ret c ≠ none) →
      s.off.toNat = off.toNat + ∑ c, (buf c).length ∧
      (∀ c, (h.reverse.filter fun e => e.1 = c).flatMap Prod.snd = buf c) ∧
      readi sb devsw s.ip s.disk off (.ofNat 32 (∑ c, (buf c).length)) =
        .ok (.done (h.reverse.flatMap Prod.snd), s.ip, s.disk) ∧
      ∀ c, (∀ c', c' = c) → writei sb devsw ip d (fun j => (buf c).getD j 0) off (.ofNat 32 (buf c).length) =
        .ok (.done (.ofNat 32 (buf c).length), s.ip, s.disk)) := by
  have hs := Together.runs hf hr
  refine ⟨fun c hc => ?_, fun c hc => (hs.ret c).trans (if_pos hc), fun c r hc => ?_, hs.small, fun hret => ?_⟩
  · obtain ⟨s', l, hx, -⟩ := hs.turn hf devsw hc
    exact ⟨s', l, hx⟩
  · rw [hs.ret c] at hc
    split at hc
    · exact (Option.some.inj hc).symm
    · cases hc
  · have hall := hs.all hret
    have hpart : ∀ c, writtenBy h c = buf c := fun c => by rw [hs.part, hall, List.take_length]
    have hlen : (written h).length = ∑ c, (buf c).length := by
      rw [hs.sum]
      exact Finset.sum_congr rfl fun c _ => hall c
    refine ⟨?_, hpart, ?_, fun c hc => ?_⟩
    · rw [(hs.off_toNat hf).1, hlen]
    · rw [← hlen]
      exact hs.readi hf devsw
    · have hone : written h = buf c := by
        rw [← hpart c]
        unfold written writtenBy
        rw [List.filter_eq_self.2 fun e _ => by simpa using hc e.1]
      have := hs.once hf devsw
      rwa [hone] at this

end shared

def roomySb : Superblock := { tinySb with size := 16 }

theorem owned_roomySb : Owned roomySb tinyDisk tinyDisk.dinode := by
  refine owned_free fun b => ?_
  show b.toNat < 16 ∧ b ≠ 0 ∧ b ≠ 1 ∧ ¬ (2 ≤ b.toNat ∧ b.toNat < 2 + 1) ∧ ¬ (3 ≤ b.toNat ∧ b.toNat < 3 + 1) ∧
    ¬ (4 ≤ b.toNat ∧ b.toNat < 4 + 1) ↔ 5 ≤ b.toNat ∧ b.toNat < 16
  bv_omega

/-- Two calls, of which the first one has two pieces. -/
def twoBufs : Fin 2 → List Byte := fun c => if c = 0 then List.replicate 1540 1 else [4, 5]

/-- The second call comes between the two pieces of the first one. -/
def twoPieces : List (Fin 2 × List Byte) :=
  [(0, List.replicate 1536 1), (1, [4, 5]), (0, List.replicate 4 1), (1, []), (0, [])]

theorem shared_writes_two : ∃ h s,
    (sharedFile roomySb (fun _ => false) tinyInode tinyDisk 0 twoBufs).Runs h s ∧
    (∀ c, s.ret c ≠ none) ∧ s.off.toNat = 1542 ∧
    readi roomySb (fun _ => false) s.ip s.disk 0 1542 =
      .ok (.done (List.replicate 1536 1 ++ [4, 5] ++ List.replicate 4 1), s.ip, s.disk) := by
  obtain ⟨s, hr, hs⟩ := (sharedFile roomySb (fun _ => false) tinyInode tinyDisk 0 twoBufs).exists_runs
    twoPieces (fun s => ∀ c, s.ret c ≠ none) (by decide +kernel)
  have hret : ∀ c, s.ret c ≠ none := of_decide_eq_true hs
  have hlen : ∑ c, (twoBufs c).length = 1542 := by decide +kernel
  have hbytes : twoPieces.reverse.reverse.flatMap Prod.snd = List.replicate 1536 1 ++ [4, 5] ++ List.replicate 4 1 := by
    decide +kernel
  have hroom : tinyInode.need tinyDisk 0 1542 ≤ (freeBlocks roomySb tinyDisk).card := by
    have hcard : (touched 0 1542).card ≤ (0 + 1542 - 1) / 512 - 0 / 512 + 1 := card_touched 0 (by omega)
    have hfree : (freeBlocks roomySb tinyDisk).card = 11 := by decide +kernel
    have := need_le tinyDisk tinyInode.toDinode 0 1542
    omega
  have hf : Fitting roomySb tinyDisk.dinode tinyInode tinyDisk 0 twoBufs :=
    ⟨owned_roomySb, rfl, by decide, by decide, by rw [hlen]; decide, by rw [hlen]; exact hroom⟩
  obtain ⟨hoff, -, hread, -⟩ := (shared_writes hf hr).2.2.2.2 hret
  rw [hlen] at hoff hread
  rw [hbytes] at hread
  exact ⟨_, s, hr, hret, hoff, hread⟩

end Xv6.Fs
