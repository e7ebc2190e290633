import Xv6.Fs.Content
import Xv6.Fs.File
import Xv6.Ide.Code
import Xv6.Lib.Hoare

/-!
# What a file write logs

A transaction of `filewrite` is a call of `writei`, which works on at most four blocks of the file. For each
of them it logs that block, and maybe the indirect block. The blocks that it allocates are all in the first
block of the free map: the disk driver takes no block from `FSSIZE` on. With the block of the inode these are
no more than `MAXOPBLOCKS`, for every inode and every superblock, also where the kernel panics on the way.
-/

namespace Xv6.Fs

open Lib Log Ide

/-- Programs that log blocks; those that have been logged, the newest first. -/
abbrev LogM := Prog (List BlockNo) Fault

/-- The buffers of a disk of `FSSIZE` blocks, and the log. -/
def logging : Buffers LogM where
  bread b := if b.toNat < FSSIZE then pure () else throw (.panic "incorrect blockno")
  logWrite b := modify (b :: ·)

variable (sb : Superblock) {S T : Finset BlockNo} {K : ℕ} {ip : Inode} {d : Disk} {b c : BlockNo}

/-- What has been logged is among the blocks `S`, or the first block of the free map. -/
def Among (S : Finset BlockNo) (l : List BlockNo) : Prop := ∀ c ∈ l, c ∈ S ∨ c = sb.bmapstart

/-- At most `K` blocks have been logged besides the first block of the free map. -/
def AtMost (K : ℕ) (l : List BlockNo) : Prop := ∃ S : Finset BlockNo, S.card ≤ K ∧ Among sb S l

variable {sb}

theorem Among.mono {l : List BlockNo} (h : Among sb S l) (hST : S ⊆ T) : Among sb T l :=
  fun c hc => (h c hc).imp_left fun hc => hST hc

theorem AtMost.mono {l : List BlockNo} {K' : ℕ} (h : AtMost sb K l) (hK : K ≤ K') : AtMost sb K' l := by
  obtain ⟨S, hS, hl⟩ := h
  exact ⟨S, hS.trans hK, hl⟩

/-! ### The calls -/

theorem bread_after (hK : S.card ≤ K) (b : BlockNo) :
    Prog.After (Among sb S) (logging.bread b) (fun _ l => b.toNat < FSSIZE ∧ Among sb S l)
      fun _ => AtMost sb K := by
  change Prog.After _ (if _ then _ else _) _ _
  split
  · rename_i hb
    exact .pure fun l hl => ⟨hb, hl⟩
  · exact .throw fun l hl => ⟨S, hK, hl⟩

theorem logWrite_after {E : Fault → List BlockNo → Prop} (b : BlockNo) :
    Prog.After (Among sb S) (logging.logWrite b) (fun _ => Among sb (insert b S)) E := by
  intro l hl c hc
  rcases List.mem_cons.1 hc with rfl | hc
  · exact .inl (Finset.mem_insert_self ..)
  · exact (hl c hc).imp_left Finset.mem_insert_of_mem

theorem breads_after (hK : S.card ≤ K) {α : Type} (f : α → BlockNo) (xs : List α) :
    Prog.After (Among sb S) (xs.forM fun i => logging.bread (f i)) (fun _ => Among sb S) fun _ => AtMost sb K := by
  induction xs with
  | nil => exact .pure fun l hl => hl
  | cons x xs ih => exact (bread_after hK (f x)).bind fun _ => .of_imp fun _ => ih

/-- The bits of the blocks on the disk are in the first block of the free map. -/
theorem bblock_eq (hb : b.toNat < FSSIZE) : sb.bblock b = sb.bmapstart := by
  have h0 : b.toNat / BPB = 0 := Nat.div_eq_of_lt (hb.trans (by decide))
  rw [Superblock.bblock, h0]
  exact BitVec.zero_add _

/-- `balloc` logs one block besides the free map: the one that it gives, or, when it panics, another block of
the map. -/
theorem balloc_after (hK : S.card + 1 ≤ K) (d : Disk) :
    Prog.After (Among sb S) (logging.balloc sb d) (fun x => Among sb (insert x.1 S)) fun _ => AtMost sb K := by
  have hS : S.card ≤ K := by omega
  unfold Buffers.balloc
  split
  · exact (breads_after hS _ _).bind fun _ => .throw fun l hl => ⟨S, hS, hl⟩
  · rename_i k _
    refine (breads_after hS _ _).bind fun _ => ?_
    generalize BitVec.ofNat 32 k = b
    refine (logWrite_after (sb.bblock b)).bind fun _ => ?_
    refine Prog.After.bind (Q := fun _ => Among sb (insert b S)) ?_ fun d => .pure fun l hl => hl
    refine (bread_after ((Finset.card_insert_le ..).trans hK) b).bind fun _ => .of_imp fun hb => ?_
    refine Prog.After.bind (Q := fun _ => Among sb (insert b S)) ?_ fun _ => .pure fun l hl => hl
    refine (logWrite_after b).weaken (fun l hl c hc => ?_) fun _ _ h => h
    rcases hl c hc with hc | hc
    · rcases Finset.mem_insert.1 hc with rfl | hc
      · exact .inr (bblock_eq hb)
      · exact .inl hc
    · exact .inr hc

/-! ### The loop -/

theorem bmap_after (hK : S.card + 2 ≤ K) (ip : Inode) (d : Disk) (bn : ℕ) :
    Prog.After (Among sb S) (logging.bmap sb ip d bn)
      (fun x l => ∃ c, Among sb (insert x.1 (insert c S)) l) fun _ => AtMost sb K := by
  have hnone : ∀ {l : List BlockNo} (b : BlockNo), Among sb S l → ∃ c, Among sb (insert b (insert c S)) l := fun b hl =>
    ⟨b, hl.mono fun c hc => Finset.mem_insert_of_mem (Finset.mem_insert_of_mem hc)⟩
  have hone : ∀ {l : List BlockNo} {b : BlockNo}, Among sb (insert b S) l → ∃ c, Among sb (insert b (insert c S)) l :=
    fun {l b} hl => ⟨b, hl.mono (by rw [Finset.insert_idem])⟩
  unfold Buffers.bmap
  split
  · dsimp only
    split
    · exact (balloc_after (by omega) d).bind fun x => .pure fun l hl => hone hl
    · exact .pure fun l hl => hnone _ hl
  dsimp only
  split
  swap
  · exact .throw fun l hl => ⟨S, by omega, hl⟩
  rename_i hlt
  have hrest : ∀ {ip : Inode} {d : Disk}, Prog.After (Among sb (insert (ip.addrs (Fin.last NDIRECT)) S)) (do
      logging.bread (ip.addrs (Fin.last NDIRECT))
      if d.data (ip.addrs (Fin.last NDIRECT)) ⟨bn - NDIRECT, hlt⟩ = 0 then do
        let x ← logging.balloc sb d
        logging.logWrite (ip.addrs (Fin.last NDIRECT))
        pure (x.1, ip, { x.2 with
          data := Function.update x.2.data (ip.addrs (Fin.last NDIRECT))
            (Function.update (d.data (ip.addrs (Fin.last NDIRECT))) ⟨bn - NDIRECT, hlt⟩ x.1) })
      else pure (d.data (ip.addrs (Fin.last NDIRECT)) ⟨bn - NDIRECT, hlt⟩, ip, d))
      (fun x l => ∃ c, Among sb (insert x.1 (insert c S)) l) fun _ => AtMost sb K := by
    intro ip d
    have hcard := Finset.card_insert_le (ip.addrs (Fin.last NDIRECT)) S
    refine (bread_after (by omega) _).bind fun _ => .of_imp fun _ => ?_
    split
    · refine (balloc_after (by omega) d).bind fun x => ?_
      refine (logWrite_after (ip.addrs (Fin.last NDIRECT))).bind fun _ => .pure fun l hl =>
        ⟨_, hl.mono (T := insert x.1 (insert (ip.addrs (Fin.last NDIRECT)) S)) ?_⟩
      rw [Finset.insert_comm, Finset.insert_idem]
    · exact .pure fun l hl => ⟨_, hl.mono (Finset.subset_insert ..)⟩
  split
  · refine (balloc_after (by omega) d).bind fun x => ?_
    rw [pure_bind]
    exact hrest.weaken (fun l hl => by dsimp only; rwa [Function.update_self]) fun _ _ h => h
  · rw [pure_bind]
    exact hrest.weaken (fun l hl => hl.mono (Finset.subset_insert ..)) fun _ _ h => h

/-- **A turn of the loop of `writei` logs at most two blocks** besides the free map. -/
theorem writeLoop_after (fuel : ℕ) (ip : Inode) (d : Disk) (off : ℕ) (src : List Byte)
    (hK : S.card + 2 * (touched off src.length).card ≤ K) :
    Prog.After (Among sb S) (logging.writeLoop sb fuel ip d off src) (fun _ => AtMost sb K) fun _ => AtMost sb K := by
  have hS : ∀ l, Among sb S l → AtMost sb K l := fun l hl => ⟨S, by omega, hl⟩
  induction fuel generalizing S ip d off src with
  | zero =>
    cases src with
    | nil => exact .pure hS
    | cons x src => exact .throw hS
  | succ fuel ih =>
    cases src with
    | nil => exact .pure hS
    | cons x src =>
    set n := min (src.length + 1) (BSIZE - off % BSIZE) with hn
    obtain ⟨hins, hnot⟩ := touched_step (show 0 < src.length + 1 by omega) hn
    rw [List.length_cons, hins, Finset.card_insert_of_notMem hnot] at hK
    have hlen : ((x :: src).drop n).length = src.length + 1 - n := by rw [List.length_drop, List.length_cons]
    rw [Buffers.writeLoop]
    refine (bmap_after (by omega) ip d (off / BSIZE)).bind fun y l hl => ?_
    obtain ⟨b, ip, d⟩ := y
    obtain ⟨c, hl⟩ := hl
    change Among sb (insert b (insert c S)) l at hl
    have hcard : (insert b (insert c S)).card ≤ S.card + 2 :=
      (Finset.card_insert_le ..).trans (Nat.succ_le_succ (Finset.card_insert_le ..))
    refine ((bread_after (by omega) b).bind fun _ => .of_imp fun _ => (logWrite_after b).bind fun _ => ?_) l hl
    rw [Finset.insert_idem]
    have hrest : (insert b (insert c S)).card + 2 * (touched (off + n) ((x :: src).drop n).length).card ≤ K := by
      rw [hlen]
      omega
    exact ih _ _ _ _ hrest fun l hl => ⟨_, by omega, hl⟩

theorem card_touched_le (off : ℕ) {n : ℕ} (hn : n ≤ Code.writeMax) : (touched off n).card ≤ 4 := by
  have hn : n ≤ 1536 := hn
  rcases Nat.eq_zero_or_pos n with rfl | hpos
  · simp [touched]
  · have h : (touched off n).card ≤ (off + n - 1) / 512 - off / 512 + 1 := card_touched off hpos
    omega

/-! ### The transaction -/

theorem AtMost.card_le {l : List BlockNo} (h : AtMost sb K l) : l.toFinset.card ≤ K + 1 := by
  obtain ⟨S, hS, hl⟩ := h
  have hsub : l.toFinset ⊆ insert sb.bmapstart S := fun c hc => by
    rw [Finset.mem_insert]
    exact (hl c (List.mem_toFinset.1 hc)).symm
  exact (Finset.card_le_card hsub).trans ((Finset.card_insert_le ..).trans (Nat.succ_le_succ hS))

theorem writei_after (devsw : Fin NDEV → Bool) (ip : Inode) (d : Disk) (src : ℕ → Byte) (off : Word) {n : Word}
    (hn : n.toNat ≤ Code.writeMax) :
    Prog.After (Among sb ∅) (logging.writei sb devsw ip d src off n) (fun _ => AtMost sb 9) fun _ => AtMost sb 9 := by
  have hnone : ∀ l, Among sb ∅ l → AtMost sb 9 l := fun l hl => ⟨∅, Nat.zero_le _, hl⟩
  unfold Buffers.writei
  split
  · exact .pure hnone
  split
  · exact .pure hnone
  split
  · exact .pure hnone
  have htouched := card_touched_le off.toNat hn
  have hloop : Prog.After (Among sb ∅)
      (logging.writeLoop sb n.toNat ip d off.toNat ((List.range n.toNat).map src)) (fun _ => AtMost sb 8)
      fun _ => AtMost sb 8 :=
    writeLoop_after _ _ _ _ _ (by rw [Finset.card_empty, List.length_map, List.length_range]; omega)
  refine (hloop.mono_error fun _ l hl => hl.mono (by omega)).bind fun x l hl => ?_
  obtain ⟨S, hS, hl⟩ := hl
  refine Prog.After.weaken (P := Among sb S) (A := Among sb S) ?_ (fun l hl => hl) (fun _ _ h => h) l hl
  dsimp only
  split
  · refine Prog.After.bind (Q := fun _ => AtMost sb 9) ?_ fun _ => .pure fun l hl => hl
    refine (bread_after (by omega) _).bind fun _ => .of_imp fun _ => ?_
    exact (logWrite_after _).bind fun _ => .pure fun l hl =>
      ⟨_, (Finset.card_insert_le ..).trans (by omega), hl⟩
  · exact .pure fun l hl => ⟨S, by omega, hl⟩

/-- **A transaction of `filewrite` fits its reservation**: whatever the superblock, the inode and the disk hold,
a call of `writei` with as many bytes as `filewrite` gives it logs at most `MAXOPBLOCKS` blocks. -/
theorem filewrite_fits (sb : Superblock) (devsw : Fin NDEV → Bool) (ip : Inode) (d : Disk) (src : ℕ → Byte)
    (off n : Word) (hn : n.toNat ≤ Code.writeMax) :
    ((logging.writei sb devsw ip d src off n).eval []).2.toFinset.card ≤ MAXOPBLOCKS := by
  have h := @writei_after sb devsw ip d src off n hn [] nofun
  split at h
  · rename_i hr
    rw [hr]
    exact h.card_le
  · rename_i hr
    rw [hr]
    exact h.card_le

/-! ### A file with a hole -/

def holedSb : Superblock where
  size := 100
  ninodes := 16
  nlog := 1
  logstart := 2
  inodestart := 3
  bmapstart := 6

/-- A file of which all blocks are missing. -/
def holedInode : Inode where
  type := T_FILE
  nlink := 1
  size := 5376
  addrs _ := 0
  inum := 5
  ref := 1
  valid := true

def holedDisk : Disk where
  dinode i := if i = 5 then holedInode.toDinode else { type := 0, nlink := 0, addrs := fun _ => 0 }
  used b := b.toNat < 7
  data _ _ := 0

/-- A write of 1536 bytes from the middle of a missing block on, the last two blocks behind the indirect
block: four blocks of data, the indirect block, the free map and the inode. -/
theorem filewrite_fits_holed :
    ((logging.writei holedSb (fun _ => false) holedInode holedDisk (fun _ => 1) 5376 1536).eval []).2.toFinset =
      {3, 6, 7, 8, 9, 10, 11} ∧
    ((logging.writei holedSb (fun _ => false) holedInode holedDisk (fun _ => 1) 5376 1536).eval []).2.toFinset.card ≤
      MAXOPBLOCKS :=
  ⟨by decide +kernel, filewrite_fits _ _ _ _ _ _ _ (by decide)⟩

end Xv6.Fs
