import Xv6.Log.Disk

/-!
# `fs.c`: blocks and inodes

The free map, the inodes on disk and in memory, and `itrunc`, which gives the blocks of an inode
back. The free map is a bit for each block; `log_write` and the buffers do not show here.
-/

namespace Xv6.Fs

open Lib Log

structure Dinode where
  type : Short
  major : Short := 0
  minor : Short := 0
  nlink : Short
  size : Word := 0
  addrs : Fin (NDIRECT + 1) → Word

/-- `struct inode`: a cached inode. -/
structure Inode extends Dinode where
  inum : Word
  ref : ℤ
  valid : Bool

/-- The disk as `fs.c` sees it. -/
structure Disk where
  dinode : Word → Dinode
  /-- The free map: the block is in use. -/
  used : BlockNo → Bool
  /-- The data blocks. -/
  data : BlockNo → Block

def bfree (d : Disk) (b : BlockNo) : Except Fault Disk :=
  if d.used b = false then .error (.panic "freeing free block")
  else .ok { d with used := Function.update d.used b false }

/-- `iupdate`: copy an inode to the disk. -/
def iupdate (ip : Inode) (d : Disk) : Disk :=
  { d with dinode := Function.update d.dinode ip.inum ip.toDinode }

/-- One turn of the first loop of `itrunc`. -/
def freeDirect (s : Inode × Disk) (i : Fin NDIRECT) : Except Fault (Inode × Disk) :=
  let (ip, d) := s
  if ip.addrs i.castSucc ≠ 0 then do
    let d ← bfree d (ip.addrs i.castSucc)
    pure ({ ip with addrs := Function.update ip.addrs i.castSucc 0 }, d)
  else pure (ip, d)

/-- The blocks named by the indirect block `a`, and then that block itself. -/
def freeIndirect (d : Disk) (addr : BlockNo) : Except Fault Disk := do
  let a := d.data addr
  let d ← (List.finRange NINDIRECT).foldlM
    (fun d j => if a j ≠ 0 then bfree d (a j) else pure d) d
  bfree d addr

def itrunc (ip : Inode) (d : Disk) : Except Fault (Inode × Disk) := do
  let (ip, d) ← (List.finRange NDIRECT).foldlM freeDirect (ip, d)
  let (ip, d) ←
    if ip.addrs (Fin.last NDIRECT) ≠ 0 then do
      let d ← freeIndirect d (ip.addrs (Fin.last NDIRECT))
      pure ({ ip with addrs := Function.update ip.addrs (Fin.last NDIRECT) 0 }, d)
    else pure (ip, d)
  let ip := { ip with size := 0 }
  pure (ip, iupdate ip d)

/-! ### What `itrunc` does -/

/-- The blocks with the nonzero addresses among `bs`. -/
def named (bs : List BlockNo) : List BlockNo := bs.filter (· ≠ 0)

/-- The blocks of an inode, in the order in which `itrunc` frees them. -/
def blocks (ip : Inode) (d : Disk) : List BlockNo :=
  let addr := ip.addrs (Fin.last NDIRECT)
  named ((List.finRange NDIRECT).map fun i => ip.addrs i.castSucc) ++
    if addr ≠ 0 then named ((List.finRange NINDIRECT).map (d.data addr)) ++ [addr] else []

/-- The free map without the blocks `bs`. -/
def Disk.free (d : Disk) (bs : List BlockNo) : Disk :=
  { d with used := fun b => d.used b && b ∉ bs }

theorem free_nil (d : Disk) : d.free [] = d := by simp [Disk.free]

theorem free_append (d : Disk) (bs cs : List BlockNo) : d.free (bs ++ cs) = (d.free bs).free cs := by
  simp [Disk.free, Bool.and_assoc]

/-- The blocks can be freed one after the other: they are distinct and in use. -/
def Freeable (d : Disk) (bs : List BlockNo) : Prop := bs.Nodup ∧ ∀ b ∈ bs, d.used b = true

theorem Freeable.append {d : Disk} {bs cs : List BlockNo} (h : Freeable d (bs ++ cs)) :
    Freeable d bs ∧ Freeable (d.free bs) cs := by
  obtain ⟨hnd, hu⟩ := h
  obtain ⟨hb, hc, hdis⟩ := List.nodup_append.1 hnd
  refine ⟨⟨hb, fun b hb => hu b (List.mem_append_left _ hb)⟩, hc, fun c hm => ?_⟩
  have hne : c ∉ bs := fun hcb => hdis c hcb c hm rfl
  simp [Disk.free, hu c (List.mem_append_right _ hm), hne]

theorem bfree_ok {d : Disk} {b : BlockNo} (h : d.used b = true) : bfree d b = .ok (d.free [b]) := by
  unfold bfree
  rw [if_neg (by simp [h])]
  congr 2
  funext c
  by_cases hc : c = b <;> simp [hc]

theorem freeLoop_ok {ι : Type*} (a : ι → BlockNo) :
    ∀ {l : List ι} {d : Disk}, Freeable d (named (l.map a)) →
      l.foldlM (fun d j => if a j ≠ 0 then bfree d (a j) else pure d) d =
        .ok (d.free (named (l.map a)))
  | [], d, _ => by rw [List.foldlM_nil, List.map_nil, named, List.filter_nil, free_nil]; rfl
  | j :: l, d, h => by
    rw [List.foldlM_cons]
    by_cases hj : a j = 0
    · have hn : named ((j :: l).map a) = named (l.map a) :=
        List.filter_cons_of_neg (by simp [hj])
      rw [hn] at h ⊢
      rw [if_neg (by simp [hj])]
      exact freeLoop_ok a h
    · have hn : named ((j :: l).map a) = [a j] ++ named (l.map a) :=
        List.filter_cons_of_pos (by simpa using hj)
      rw [hn] at h ⊢
      obtain ⟨hb, hl⟩ := h.append
      rw [if_pos hj, bfree_ok (hb.2 _ (List.mem_singleton.2 rfl)), free_append]
      exact freeLoop_ok a hl

/-- The first loop of `itrunc`: every turn frees the address it finds and zeroes it. -/
theorem freeDirect_ok :
    ∀ {l : List (Fin NDIRECT)} {ip : Inode} {d : Disk}, l.Nodup →
      Freeable d (named (l.map fun i => ip.addrs i.castSucc)) →
      l.foldlM freeDirect (ip, d) =
        .ok ({ ip with addrs := fun k => if k ∈ l.map Fin.castSucc then 0 else ip.addrs k },
          d.free (named (l.map fun i => ip.addrs i.castSucc)))
  | [], ip, d, _, _ => by simp [named, free_nil, pure, Except.pure]
  | j :: l, ip, d, hnd, h => by
    obtain ⟨hj, hl⟩ := List.nodup_cons.1 hnd
    rw [List.foldlM_cons]
    by_cases h0 : ip.addrs j.castSucc = 0
    · have hn : named ((j :: l).map fun i => ip.addrs i.castSucc) =
          named (l.map fun i => ip.addrs i.castSucc) := List.filter_cons_of_neg (by simp [h0])
      rw [hn] at h ⊢
      have hf : freeDirect (ip, d) j = .ok (ip, d) := if_neg (by simpa using h0)
      rw [hf]
      refine (freeDirect_ok hl h).trans ?_
      congr 4
      funext k
      by_cases hk : k = j.castSucc
      · simp [hk, h0]
      · simp [hk]
    · have hn : named ((j :: l).map fun i => ip.addrs i.castSucc) =
          [ip.addrs j.castSucc] ++ named (l.map fun i => ip.addrs i.castSucc) :=
        List.filter_cons_of_pos (by simpa using h0)
      rw [hn] at h ⊢
      obtain ⟨hb, hrest⟩ := h.append
      set ip' : Inode := { ip with addrs := Function.update ip.addrs j.castSucc 0 } with hip'
      have hf : freeDirect (ip, d) j = .ok (ip', d.free [ip.addrs j.castSucc]) := by
        unfold freeDirect
        dsimp only
        rw [if_pos h0, bfree_ok (hb.2 _ (List.mem_singleton.2 rfl))]
        rfl
      -- the later turns do not look at the address that is gone
      have hsame : (l.map fun i => ip'.addrs i.castSucc) = l.map fun i => ip.addrs i.castSucc :=
        List.map_congr_left fun i hi => Function.update_of_ne (fun he => by
          obtain rfl : i = j := Fin.castSucc_injective _ he
          exact hj hi) _ _
      rw [hf, free_append]
      rw [← hsame] at hrest ⊢
      refine (freeDirect_ok hl hrest).trans ?_
      congr 4
      funext k
      by_cases hk : k = j.castSucc
      · simp [hk, hip']
      · simp [hk, hip']

theorem freeIndirect_ok {d : Disk} {addr : BlockNo}
    (h : Freeable d (named ((List.finRange NINDIRECT).map (d.data addr)) ++ [addr])) :
    freeIndirect d addr =
      .ok (d.free (named ((List.finRange NINDIRECT).map (d.data addr)) ++ [addr])) := by
  obtain ⟨hl, ha⟩ := h.append
  unfold freeIndirect
  dsimp only
  rw [freeLoop_ok _ hl]
  show bfree _ addr = _
  rw [bfree_ok (ha.2 _ (List.mem_singleton.2 rfl)), free_append]

/-- **`itrunc` frees the blocks of the inode** and nothing else, if they are distinct and in use. -/
theorem itrunc_ok {ip : Inode} {d : Disk} (h : Freeable d (blocks ip d)) :
    itrunc ip d = .ok ({ ip with addrs := fun _ => 0, size := 0 },
      iupdate { ip with addrs := fun _ => 0, size := 0 } (d.free (blocks ip d))) := by
  obtain ⟨hdir, hind⟩ := h.append
  have hlast : Fin.last NDIRECT ∉ (List.finRange NDIRECT).map Fin.castSucc := by
    simp [Fin.castSucc_ne_last]
  have hrest : ∀ k, k ≠ Fin.last NDIRECT → k ∈ (List.finRange NDIRECT).map Fin.castSucc :=
    fun k hk => List.mem_map.2 ⟨k.castPred hk, List.mem_finRange _, Fin.castSucc_castPred k hk⟩
  unfold itrunc
  rw [freeDirect_ok (List.nodup_finRange _) hdir]
  simp only [bind, Except.bind, if_neg hlast]
  by_cases h0 : ip.addrs (Fin.last NDIRECT) = 0
  · have hb : blocks ip d = named ((List.finRange NDIRECT).map fun i => ip.addrs i.castSucc) := by
      rw [blocks, if_neg (by simpa using h0), List.append_nil]
    have haddrs : (fun k => if k ∈ (List.finRange NDIRECT).map Fin.castSucc then 0 else ip.addrs k) =
        fun _ => 0 := by
      funext k
      by_cases hk : k = Fin.last NDIRECT
      · rw [hk, if_neg hlast, h0]
      · rw [if_pos (hrest k hk)]
    rw [if_neg (by simpa using h0), hb, haddrs]
    rfl
  · rw [if_pos h0] at hind
    have hb : blocks ip d = named ((List.finRange NDIRECT).map fun i => ip.addrs i.castSucc) ++
        (named ((List.finRange NINDIRECT).map (d.data (ip.addrs (Fin.last NDIRECT)))) ++
          [ip.addrs (Fin.last NDIRECT)]) := by
      rw [blocks, if_pos h0]
    have haddrs : Function.update (fun k => if k ∈ (List.finRange NDIRECT).map Fin.castSucc then 0
        else ip.addrs k) (Fin.last NDIRECT) 0 = fun _ => 0 := by
      funext k
      by_cases hk : k = Fin.last NDIRECT
      · rw [hk, Function.update_self]
      · rw [Function.update_of_ne hk, if_pos (hrest k hk)]
    rw [hb, free_append d, if_pos h0, freeIndirect_ok hind, haddrs]
    rfl

end Xv6.Fs
