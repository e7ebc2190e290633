import Xv6.Fs.Own
import Mathlib.Order.Interval.Finset.Nat

/-!
# Files as arrays of bytes

What `readi` and `writei` do to the content of an inode, read through the blocks it owns. The content
of a file without holes is the list of its bytes; `readi` gives a stretch of it, and `writei` lays the
bytes it is given over it and lets every other file alone, because no block belongs to two files.
-/

namespace Xv6.Fs

open Lib Log

def Dinode.byteAt (d : Disk) (x : Dinode) (k : ℕ) : Byte :=
  getByte (d.data (x.block d (k / BSIZE))) (k % BSIZE)

def Dinode.content (d : Disk) (x : Dinode) : List Byte := (List.range x.size.toNat).map (x.byteAt d)

/-- Every block of the file that the size covers is there. -/
def Dinode.NoHoles (d : Disk) (x : Dinode) : Prop := ∀ m, m * BSIZE < x.size.toNat → x.block d m ≠ 0

variable {sb : Superblock} {d d' : Disk} {t : Word → Dinode} {i : Word} {ip ip' : Inode}

theorem Dinode.NoHoles.block {x : Dinode} (hh : x.NoHoles d) {k : ℕ} (hk : k < x.size.toNat) :
    x.block d (k / BSIZE) ≠ 0 := hh _ (lt_of_le_of_lt (Nat.div_mul_le_self k BSIZE) hk)

theorem within_block {off k : ℕ} (h : off % BSIZE + k < BSIZE) :
    (off + k) / BSIZE = off / BSIZE ∧ (off + k) % BSIZE = off % BSIZE + k := by
  unfold BSIZE at h ⊢
  omega

/-! ### `readi` -/

theorem readLoop_ok :
    ∀ {fuel off n : ℕ}, n ≤ fuel → (∀ k, off ≤ k → k < off + n → ip.block d (k / BSIZE) ≠ 0) →
      readLoop sb fuel ip d off n = .ok ((List.range n).map fun k => ip.byteAt d (off + k), ip, d)
  | fuel, off, 0, _, _ => by
    cases fuel <;> rfl
  | 0, _, n + 1, h, _ => by omega
  | fuel + 1, off, n + 1, h, hb => by
    set m := min (n + 1) (BSIZE - off % BSIZE) with hm
    have hmod : off % BSIZE < BSIZE := Nat.mod_lt _ (by decide)
    have hrec : readLoop sb fuel ip d (off + m) (n + 1 - m) = _ :=
      readLoop_ok (by omega) fun k hk hk' => hb k (by omega) (by omega)
    have hcopy : copyOut (d.data (ip.block d (off / BSIZE))) (off % BSIZE) m =
        (List.range m).map fun k => ip.byteAt d (off + k) := by
      refine List.map_congr_left fun k hk => ?_
      have hk : k < m := List.mem_range.1 hk
      obtain ⟨hdiv, hrem⟩ := within_block (show off % BSIZE + k < BSIZE by omega)
      rw [Dinode.byteAt, hdiv, hrem]
    have hsum : n + 1 = m + (n + 1 - m) := by omega
    rw [readLoop, bmap_present (hb off le_rfl (by omega))]
    show (readLoop sb fuel ip d (off + m) (n + 1 - m) >>= _) = _
    rw [hrec]
    show Except.ok (_, _, _) = Except.ok _
    rw [hcopy]
    conv_rhs => rw [hsum, List.range_add, List.map_append, List.map_map]
    simp only [Function.comp_def, Nat.add_assoc]

/-- `readi` of a file without holes: the bytes from `off` on, at most `n` of them. -/
theorem readi_ok (hh : ip.NoHoles d) (hdev : ip.type ≠ T_DEV) (devsw : Fin NDEV → Bool)
    (off n : Word) :
    readi sb devsw ip d off n =
      .ok (if off ≤ ip.size ∧ off.toNat + n.toNat < 2 ^ 32
        then .done (((ip.content d).drop off.toNat).take n.toNat) else .fail, ip, d) := by
  have hoff : off > ip.size ↔ ¬ off ≤ ip.size := by simp
  have hwrap : off + n < off ↔ ¬ off.toNat + n.toNat < 2 ^ 32 := by bv_omega
  unfold readi
  rw [if_neg hdev]
  by_cases h : off ≤ ip.size ∧ off.toNat + n.toNat < 2 ^ 32
  · have hn : (if off + n > ip.size then ip.size - off else n).toNat =
        min n.toNat (ip.size.toNat - off.toNat) := by
      obtain ⟨h₁, h₂⟩ := h
      split <;> bv_omega
    rw [if_neg (by rw [hoff, hwrap]; tauto), if_pos h]
    dsimp only
    rw [hn, readLoop_ok le_rfl fun k hk hk' => hh.block (by omega)]
    show Except.ok (Io.done _, _, _) = _
    congr 3
    rw [Dinode.content, ← List.map_drop, ← List.map_take]
    refine List.ext_getElem (by simp) fun k hk hk' => ?_
    simp
  · rw [if_pos (by rw [hoff, hwrap]; tauto), if_neg h]

theorem readi_all (hh : ip.NoHoles d) (hdev : ip.type ≠ T_DEV) (devsw : Fin NDEV → Bool) :
    readi sb devsw ip d 0 ip.size = .ok (.done (ip.content d), ip, d) := by
  have h0 : (0 : Word).toNat = 0 := rfl
  have hle : (0 : Word) ≤ ip.size := Nat.zero_le ip.size.toNat
  rw [readi_ok hh hdev, h0, if_pos ⟨hle, by rw [Nat.zero_add]; exact ip.size.isLt⟩, List.drop_zero,
    List.take_of_length_le (by simp [Dinode.content])]

/-! ### `writei` -/

/-- The bytes `src` have been written to the file `ip`, which is `i` in the table, from the byte `off`
on. -/
structure Wrote (sb : Superblock) (t : Word → Dinode) (i : Word) (ip : Inode) (d : Disk) (off : ℕ)
    (src : List Byte) (ip' : Inode) (d' : Disk) : Prop where
  inode : ip' = { ip with addrs := ip'.addrs }
  owned : Owned sb d' (Function.update t i ip'.toDinode)
  dinode : d'.dinode = d.dinode
  blocks : ∀ m, ip.block d m ≠ 0 → ip'.block d' m = ip.block d m
  present : ∀ k, off ≤ k → k < off + src.length → ip'.block d' (k / BSIZE) ≠ 0
  bytes : ∀ k, off ≤ k → k < off + src.length → ip'.byteAt d' k = src.getD (k - off) 0
  old : ∀ k, ip.block d (k / BSIZE) ≠ 0 → ¬ (off ≤ k ∧ k < off + src.length) →
    ip'.byteAt d' k = ip.byteAt d k
  rest : ∀ j, j ≠ i → ∀ pl, (t j).num d' pl = (t j).num d pl
  data : ∀ j, j ≠ i → ∀ m, (t j).block d m ≠ 0 →
    d'.data ((t j).block d m) = d.data ((t j).block d m)
  /-- If no block is missing, the inode is the same. -/
  same : (∀ k, off ≤ k → k < off + src.length → ip.block d (k / BSIZE) ≠ 0) → ip' = ip

theorem Wrote.nil {off : ℕ} (ho : Owned sb d (Function.update t i ip.toDinode)) :
    Wrote sb t i ip d off [] ip d where
  inode := rfl
  owned := ho
  dinode := rfl
  blocks _ _ := rfl
  present k hk hk' := by simp at hk'; omega
  bytes k hk hk' := by simp at hk'; omega
  old _ _ _ := rfl
  rest _ _ _ := rfl
  data _ _ _ _ := rfl
  same _ := rfl

theorem block_rest (hr : ∀ pl, (t i).num d' pl = (t i).num d pl) (m : ℕ) :
    (t i).block d' m = (t i).block d m := by
  cases hp : place m with
  | none => rw [Dinode.block, Dinode.block, hp]; rfl
  | some pl => rw [block_eq hp, block_eq hp, hr]

theorem Wrote.append {off : ℕ} {xs ys : List Byte} {ip₁ : Inode} {d₁ : Disk}
    (h₁ : Wrote sb t i ip d off xs ip₁ d₁) (h₂ : Wrote sb t i ip₁ d₁ (off + xs.length) ys ip' d') :
    Wrote sb t i ip d off (xs ++ ys) ip' d' := by
  have hlen : (xs ++ ys).length = xs.length + ys.length := List.length_append
  have hkeep : ∀ k, off ≤ k → k < off + xs.length → ip₁.block d₁ (k / BSIZE) ≠ 0 ∧
      ¬ (off + xs.length ≤ k ∧ k < off + xs.length + ys.length) :=
    fun k hk hk' => ⟨h₁.present k hk hk', by omega⟩
  constructor
  case inode => rw [h₂.inode, h₁.inode]
  case owned => exact h₂.owned
  case dinode => rw [h₂.dinode, h₁.dinode]
  case blocks =>
    intro m hm
    rw [h₂.blocks m (by rwa [h₁.blocks m hm]), h₁.blocks m hm]
  case present =>
    intro k hk hk'
    by_cases hx : k < off + xs.length
    · rw [h₂.blocks _ (h₁.present k hk hx)]
      exact h₁.present k hk hx
    · exact h₂.present k (by omega) (by omega)
  case bytes =>
    intro k hk hk'
    by_cases hx : k < off + xs.length
    · rw [h₂.old k (hkeep k hk hx).1 (hkeep k hk hx).2, h₁.bytes k hk hx,
        List.getD_append _ _ _ _ (by omega)]
    · rw [h₂.bytes k (by omega) (by omega), List.getD_append_right _ _ _ _ (by omega)]
      congr 1
      omega
  case old =>
    intro k hb hk
    rw [h₂.old k (by rwa [h₁.blocks _ hb]) (by omega), h₁.old k hb (by omega)]
  case rest =>
    intro j hj pl
    rw [h₂.rest j hj, h₁.rest j hj]
  case data =>
    intro j hj m hm
    have he := block_rest (h₁.rest j hj) m
    have := h₂.data j hj m (by rwa [he])
    rw [he] at this
    rw [this, h₁.data j hj m hm]
  case same =>
    intro hb
    have he : ip₁ = ip := h₁.same fun k hk hk' => hb k hk (by omega)
    rw [h₂.same fun k hk hk' => ?_, he]
    have hk : ip.block d (k / BSIZE) ≠ 0 := hb k (by omega) (by omega)
    rwa [h₁.blocks _ hk]

/-- Writing to the block that `bmap` gives changes no block number. -/
theorem Mapped.num_write {bn : ℕ} {b : BlockNo} (hm : Mapped sb t i ip d bn b ip' d') (v : Block)
    (j : Word) (pl : Place) :
    (Function.update t i ip'.toDinode j).num { d' with data := Function.update d'.data b v } pl =
      (Function.update t i ip'.toDinode j).num d' pl := by
  have hbi : (Function.update t i ip'.toDinode i).block d' bn = b := by rw [inode_block, hm.block]
  have := hm.owned.num_write (i := i) (m := bn) (by rw [hbi]; exact hm.ne) v j pl
  rwa [hbi] at this

theorem Mapped.block_write {bn : ℕ} {b : BlockNo} (hm : Mapped sb t i ip d bn b ip' d') (v : Block)
    (m : ℕ) : ip'.block { d' with data := Function.update d'.data b v } m = ip'.block d' m := by
  have := block_rest (hm.num_write v i) m
  rwa [inode_block, inode_block] at this

theorem Mapped.wrote {off : ℕ} {src : List Byte} {b : BlockNo}
    (hm : Mapped sb t i ip d (off / BSIZE) b ip' d') (h0 : 0 < src.length)
    (hsrc : off % BSIZE + src.length ≤ BSIZE) :
    Wrote sb t i ip d off src ip' { d' with
      data := Function.update d'.data b (copyIn (d'.data b) (off % BSIZE) src) } := by
  set d₂ : Disk := { d' with
    data := Function.update d'.data b (copyIn (d'.data b) (off % BSIZE) src) } with hd₂
  have hbi : (Function.update t i ip'.toDinode i).block d' (off / BSIZE) = b := by
    rw [inode_block, hm.block]
  have hnum : ∀ j pl, (Function.update t i ip'.toDinode j).num d₂ pl =
      (Function.update t i ip'.toDinode j).num d' pl := hm.num_write _
  have hblock : ∀ m, ip'.block d₂ m = ip'.block d' m := hm.block_write _
  have hdata : ∀ c, c ≠ b → d₂.data c = d'.data c := fun c hc => Function.update_of_ne hc _ _
  -- a block the file had is still there, and no other block of it is `b`
  have hold : ∀ m, ip.block d m ≠ 0 → ip'.block d' m = ip.block d m := by
    intro m hne
    by_cases hmb : m = off / BSIZE
    · subst hmb
      obtain ⟨rfl, rfl⟩ := hm.same hne
      rfl
    · exact hm.others m hmb
  have hb : ∀ {j m}, (Function.update t i ip'.toDinode j).block d' m ≠ 0 →
      (Function.update t i ip'.toDinode j).block d' m = b → j = i ∧ m = off / BSIZE := by
    intro j m hne he
    obtain ⟨pl, hpl, hnb⟩ := place_of_block hne
    obtain ⟨pl', hpl', hnb'⟩ := place_of_block (by rw [hbi]; exact hm.ne)
    rw [hnb] at hne he
    obtain ⟨hj, hp⟩ := hm.owned.excl hne (he.trans (hbi.symm.trans hnb'))
    rw [← hp] at hpl'
    exact ⟨hj, place_inj hpl hpl'⟩
  have hblk : ∀ k, off ≤ k → k < off + src.length → k / BSIZE = off / BSIZE ∧
      k % BSIZE = off % BSIZE + (k - off) := by
    intro k hk hk'
    have := within_block (show off % BSIZE + (k - off) < BSIZE by omega)
    rwa [show off + (k - off) = k by omega] at this
  have hlt : ∀ k, k % BSIZE < 4 * 128 := fun k => Nat.mod_lt _ (by decide)
  constructor
  case inode => exact hm.inode
  case owned => exact hm.owned.congr hnum rfl
  case dinode => exact hm.dinode
  case blocks =>
    intro m hne
    rw [hblock, hold m hne]
  case present =>
    intro k hk hk'
    rw [hblock, (hblk k hk hk').1, hm.block]
    exact hm.ne
  case bytes =>
    intro k hk hk'
    obtain ⟨hdiv, hmod⟩ := hblk k hk hk'
    rw [Dinode.byteAt, hblock, hdiv, hm.block, hd₂]
    simp only [Function.update_self]
    rw [getByte_copyIn _ _ _ (hlt k), if_pos (by omega)]
    congr 1
    omega
  case old =>
    intro k hne hk
    rw [Dinode.byteAt, Dinode.byteAt, hblock, hold _ hne]
    by_cases hkb : k / BSIZE = off / BSIZE
    · rw [hkb] at hne ⊢
      obtain ⟨rfl, rfl⟩ := hm.same hne
      rw [hm.block, hd₂]
      simp only [Function.update_self]
      rw [getByte_copyIn _ _ _ (hlt k), if_neg ?_]
      have h₁ := Nat.div_add_mod k BSIZE
      have h₂ := Nat.div_add_mod off BSIZE
      rw [hkb] at h₁
      omega
    · rw [hdata _ fun he => ?_]
      · have := hm.data i (k / BSIZE) (by rwa [inode_block])
        rw [inode_block] at this
        rw [this]
      · have := hb (j := i) (m := k / BSIZE) (by rwa [inode_block, hold _ hne])
          (by rw [inode_block, hold _ hne, he])
        exact hkb this.2
  case rest =>
    intro j hj pl
    have := hnum j pl
    rw [Function.update_of_ne hj] at this
    rw [this, hm.rest j hj]
  case data =>
    intro j hj m hne
    have he := block_rest (hm.rest j hj) m
    rw [hdata _ fun heb => hj (hb (j := j) (m := m) ?_ ?_).1]
    · have := hm.data j m (by rwa [Function.update_of_ne hj])
      rwa [Function.update_of_ne hj] at this
    · rwa [Function.update_of_ne hj, he]
    · rw [Function.update_of_ne hj, he, heb]
  case same => exact fun hp => (hm.same (hp off le_rfl (by omega))).1

theorem writeLoop_spec :
    ∀ {fuel off : ℕ} {src : List Byte} {ip : Inode} {d : Disk},
      Owned sb d (Function.update t i ip.toDinode) →
      writeLoop sb fuel ip d off src = .ok (ip', d') → Wrote sb t i ip d off src ip' d'
  | fuel, off, [], ip, d, ho, h => by
    cases fuel <;> cases h <;> exact .nil ho
  | 0, _, _ :: _, _, _, _, h => by cases h
  | fuel + 1, off, x :: src, ip, d, ho, h => by
    rw [writeLoop_cons] at h
    obtain ⟨⟨b, ip₁, d₁⟩, hb, h⟩ := bind_eq_ok.1 h
    set m := min (src.length + 1) (BSIZE - off % BSIZE) with hm
    have hmod : off % BSIZE < BSIZE := Nat.mod_lt _ (by decide)
    have hlen : ((x :: src).take m).length = m := by
      rw [List.length_take, List.length_cons]
      omega
    have hturn := (bmap_spec ho hb).wrote (show 0 < ((x :: src).take m).length by omega) (by omega)
    have hrest := writeLoop_spec hturn.owned h
    have := hturn.append (by rwa [hlen])
    rwa [List.take_append_drop] at this

/-! #### Room on the disk -/

def freeBlocks (sb : Superblock) (d : Disk) : Finset ℕ :=
  (Finset.range sb.size.toNat).filter fun b => d.used (.ofNat 32 b) = false

theorem balloc_total (h : 0 < (freeBlocks sb d).card) :
    ∃ b d', balloc sb d = .ok (b, d') ∧ (freeBlocks sb d').card + 1 = (freeBlocks sb d).card ∧
      d'.data b = fun _ => 0 := by
  obtain ⟨k, hk⟩ := Finset.card_pos.1 h
  obtain ⟨hlt, hu⟩ := Finset.mem_filter.1 hk
  cases hf : (List.range sb.size.toNat).find? fun b => !d.used (.ofNat 32 b) with
  | none =>
    have := List.find?_eq_none.1 hf k (List.mem_range.2 (Finset.mem_range.1 hlt))
    simp [hu] at this
  | some b =>
    have hb : b < sb.size.toNat := List.mem_range.1 (List.mem_of_find?_eq_some hf)
    have hbu : d.used (.ofNat 32 b) = false := by simpa using List.find?_some hf
    refine ⟨.ofNat 32 b, bzero { d with used := Function.update d.used (.ofNat 32 b) true } (.ofNat 32 b),
      ?_, ?_, by simp [bzero]⟩
    · rw [balloc_eq, hf]
    · have he : freeBlocks sb (bzero { d with used := Function.update d.used (.ofNat 32 b) true }
          (.ofNat 32 b)) = (freeBlocks sb d).erase b := by
        ext c
        simp only [freeBlocks, bzero, Finset.mem_filter, Finset.mem_range, Finset.mem_erase,
          Function.update_apply]
        by_cases hcb : c = b
        · simp [hcb]
        · by_cases hc : c < sb.size.toNat
          · have hne : (BitVec.ofNat 32 c) ≠ .ofNat 32 b := by
              intro he
              have he := congrArg BitVec.toNat he
              rw [BitVec.toNat_ofNat, BitVec.toNat_ofNat,
                Nat.mod_eq_of_lt (lt_trans hc sb.size.isLt),
                Nat.mod_eq_of_lt (lt_trans hb sb.size.isLt)] at he
              exact hcb he
            simp [hcb, hne]
          · simp [hc]
      have hmem : b ∈ freeBlocks sb d := Finset.mem_filter.2 ⟨Finset.mem_range.2 hb, hbu⟩
      rw [he, Finset.card_erase_of_mem hmem]
      have := Finset.card_pos.2 ⟨b, hmem⟩
      omega

/-- The number of blocks that `bmap` allocates. -/
def Dinode.cost (d : Disk) (x : Dinode) (bn : ℕ) : ℕ :=
  (if x.block d bn = 0 then 1 else 0) +
    if x.addrs (Fin.last NDIRECT) = 0 ∧ NDIRECT ≤ bn then 1 else 0

theorem bmap_total {bn : ℕ} (hbn : bn < MAXFILE) (h : ip.cost d bn ≤ (freeBlocks sb d).card) :
    ∃ b ip' d', bmap sb ip d bn = .ok (b, ip', d') ∧
      (freeBlocks sb d').card + ip.cost d bn = (freeBlocks sb d).card ∧
      (bn < NDIRECT → ip'.addrs (Fin.last NDIRECT) = ip.addrs (Fin.last NDIRECT)) := by
  have hbn : bn < NDIRECT + NINDIRECT := hbn
  by_cases hb0 : ip.block d bn = 0
  · by_cases hlt : bn < NDIRECT
    · have h0 : ip.addrs ⟨bn, by omega⟩ = 0 := by
        rw [← hb0]
        exact (block_eq (dif_pos hlt)).symm
      have hcost : ip.cost d bn = 1 := by
        rw [Dinode.cost, if_pos hb0, if_neg (by omega)]
      obtain ⟨b, d', hb, hc, -⟩ := balloc_total (show 0 < (freeBlocks sb d).card by omega)
      refine ⟨b, { ip with addrs := Function.update ip.addrs ⟨bn, by omega⟩ b }, d', ?_, by omega,
        fun _ => Function.update_of_ne (fun he => ?_) _ _⟩
      · rw [bmap_eq, dif_pos hlt]
        simp only [if_pos h0, hb]
        rfl
      · have : NDIRECT = bn := congrArg Fin.val he
        omega
    · have hge : bn - NDIRECT < NINDIRECT := by omega
      have hplace : place bn = some (.entry ⟨bn - NDIRECT, hge⟩) := by
        rw [place, dif_neg hlt, dif_pos hge]
      rw [block_eq hplace, num_entry] at hb0
      by_cases hind : ip.addrs (Fin.last NDIRECT) = 0
      · have hcost : ip.cost d bn = 2 := by
          rw [Dinode.cost, block_eq hplace, num_entry, if_pos hb0, if_pos ⟨hind, by omega⟩]
        obtain ⟨b, d₁, hb, hc, hz⟩ := balloc_total (show 0 < (freeBlocks sb d).card by omega)
        obtain ⟨b', d₂, hb', hc', -⟩ := balloc_total (show 0 < (freeBlocks sb d₁).card by omega)
        refine ⟨b', { ip with addrs := Function.update ip.addrs (Fin.last NDIRECT) b },
          { d₂ with
            data := Function.update d₂.data b (Function.update (d₁.data b) ⟨bn - NDIRECT, hge⟩ b') },
          ?_, ?_, fun h => absurd h hlt⟩
        · -- the indirect block is fresh, so the entry is missing too
          rw [bmap_eq, dif_neg hlt, dif_pos hge, if_pos hind, hb]
          simp only [bind, Except.bind, pure, Except.pure, Function.update_self, hz, if_true, hb']
        · show (freeBlocks sb d₂).card + _ = _
          omega
      · rw [if_neg hind] at hb0
        have hcost : ip.cost d bn = 1 := by
          rw [Dinode.cost, block_eq hplace, num_entry, if_neg hind, if_pos hb0, if_neg fun h => hind h.1]
        obtain ⟨b, d', hb, hc, -⟩ := balloc_total (show 0 < (freeBlocks sb d).card by omega)
        refine ⟨b, ip,
          { d' with
            data := Function.update d'.data (ip.addrs (Fin.last NDIRECT))
              (Function.update (d.data (ip.addrs (Fin.last NDIRECT))) ⟨bn - NDIRECT, hge⟩ b) },
          ?_, ?_, fun _ => rfl⟩
        · rw [bmap_eq, dif_neg hlt, dif_pos hge, if_neg hind]
          simp only [bind, Except.bind, pure, Except.pure, hb0, if_true, hb]
        · show (freeBlocks sb d').card + _ = _
          omega
  · refine ⟨_, ip, d, bmap_present hb0, ?_, fun _ => rfl⟩
    have hind : ¬ (ip.addrs (Fin.last NDIRECT) = 0 ∧ NDIRECT ≤ bn) := by
      rintro ⟨hind, hge⟩
      have hplace : place bn = some (.entry ⟨bn - NDIRECT, by omega⟩) := by
        rw [place, dif_neg (by omega), dif_pos (by omega)]
      exact hb0 (by rw [block_eq hplace, num_entry, if_pos hind])
    rw [Dinode.cost, if_neg hb0, if_neg hind, Nat.add_zero]

/-- The blocks of a file that the bytes from `off` on are in, of which there are `n`. -/
def touched (off n : ℕ) : Finset ℕ := (Finset.Ico off (off + n)).image (· / BSIZE)

/-- The number of blocks that have to be allocated for a write of `n` bytes at `off`. -/
def Dinode.need (d : Disk) (x : Dinode) (off n : ℕ) : ℕ :=
  ((touched off n).filter fun m => x.block d m = 0).card +
    if x.addrs (Fin.last NDIRECT) = 0 ∧ ∃ m ∈ touched off n, NDIRECT ≤ m then 1 else 0

theorem mem_touched {off n m : ℕ} : m ∈ touched off n ↔ ∃ k, off ≤ k ∧ k < off + n ∧ k / BSIZE = m := by
  simp [touched, and_assoc]

theorem card_touched (off : ℕ) {n : ℕ} (hn : 0 < n) :
    (touched off n).card ≤ (off + n - 1) / BSIZE - off / BSIZE + 1 := by
  have hsub : touched off n ⊆ Finset.Icc (off / BSIZE) ((off + n - 1) / BSIZE) := by
    intro m hm
    obtain ⟨k, h₁, h₂, rfl⟩ := mem_touched.1 hm
    exact Finset.mem_Icc.2 ⟨Nat.div_le_div_right h₁, Nat.div_le_div_right (by omega)⟩
  have := Finset.card_le_card hsub
  rw [Nat.card_Icc] at this
  have hle : off / BSIZE ≤ (off + n - 1) / BSIZE := Nat.div_le_div_right (by omega)
  omega

theorem touched_step {off n m : ℕ} (hn : 0 < n) (hm : m = min n (BSIZE - off % BSIZE)) :
    touched off n = insert (off / BSIZE) (touched (off + m) (n - m)) ∧
      off / BSIZE ∉ touched (off + m) (n - m) := by
  have hmod : off % BSIZE < BSIZE := Nat.mod_lt _ (by decide)
  have hdiv := Nat.div_add_mod off BSIZE
  constructor
  · ext k
    rw [Finset.mem_insert, mem_touched, mem_touched]
    constructor
    · rintro ⟨j, hj, hj', rfl⟩
      by_cases h : j < off + m
      · left
        rw [← (within_block (show off % BSIZE + (j - off) < BSIZE by omega)).1]
        congr 1
        omega
      · exact .inr ⟨j, by omega, by omega, rfl⟩
    · rintro (rfl | ⟨j, hj, hj', rfl⟩)
      · exact ⟨off, le_rfl, by omega, rfl⟩
      · exact ⟨j, by omega, by omega, rfl⟩
  · rw [mem_touched]
    rintro ⟨j, hj, hj', he⟩
    have hjdiv := Nat.div_add_mod j BSIZE
    have := Nat.mod_lt j (show 0 < BSIZE by decide)
    rw [he] at hjdiv
    omega

/-- A turn of the loop of `writei` takes its cost off the need. -/
theorem need_step {x x' : Dinode} {off n m : ℕ} (hn : 0 < n) (hm : m = min n (BSIZE - off % BSIZE))
    (hothers : ∀ k, k ≠ off / BSIZE → x'.block d' k = x.block d k)
    (hlast : x'.addrs (Fin.last NDIRECT) = 0 ↔
      x.addrs (Fin.last NDIRECT) = 0 ∧ off / BSIZE < NDIRECT) :
    x.need d off n = x.cost d (off / BSIZE) + x'.need d' (off + m) (n - m) := by
  obtain ⟨hins, hnot⟩ := touched_step hn hm
  have hfilter : ((touched (off + m) (n - m)).filter fun k => x'.block d' k = 0) =
      (touched (off + m) (n - m)).filter fun k => x.block d k = 0 := by
    refine Finset.filter_congr fun k hk => ?_
    rw [hothers k fun he => hnot (he ▸ hk)]
  unfold Dinode.need Dinode.cost
  rw [hins, hfilter, Finset.filter_insert]
  have hcard : (if x.block d (off / BSIZE) = 0 then
        insert (off / BSIZE) ((touched (off + m) (n - m)).filter fun k => x.block d k = 0)
      else (touched (off + m) (n - m)).filter fun k => x.block d k = 0).card =
      (if x.block d (off / BSIZE) = 0 then 1 else 0) +
        ((touched (off + m) (n - m)).filter fun k => x.block d k = 0).card := by
    split
    · rw [Finset.card_insert_of_notMem fun h => hnot (Finset.mem_filter.1 h).1]
      omega
    · omega
  have hind : (if x.addrs (Fin.last NDIRECT) = 0 ∧
        ∃ k ∈ insert (off / BSIZE) (touched (off + m) (n - m)), NDIRECT ≤ k then 1 else 0) =
      (if x.addrs (Fin.last NDIRECT) = 0 ∧ NDIRECT ≤ off / BSIZE then 1 else 0) +
        if x'.addrs (Fin.last NDIRECT) = 0 ∧ ∃ k ∈ touched (off + m) (n - m), NDIRECT ≤ k
          then 1 else 0 := by
    simp only [Finset.exists_mem_insert, hlast]
    by_cases h0 : x.addrs (Fin.last NDIRECT) = 0
    · by_cases hd : NDIRECT ≤ off / BSIZE
      · simp [h0, hd]
      · simp [h0, hd, Nat.lt_of_not_le hd]
    · simp only [h0, false_and, if_false]
  rw [hcard, hind]
  omega

theorem cost_le_need {x : Dinode} {off n : ℕ} (hn : 0 < n) :
    x.cost d (off / BSIZE) ≤ x.need d off n := by
  have hmem : off / BSIZE ∈ touched off n := mem_touched.2 ⟨off, le_rfl, by omega, rfl⟩
  unfold Dinode.cost Dinode.need
  refine Nat.add_le_add ?_ ?_
  · split
    · exact Finset.card_pos.2 ⟨_, Finset.mem_filter.2 ⟨hmem, by assumption⟩⟩
    · omega
  · split
    · rename_i h
      rw [if_pos ⟨h.1, _, hmem, h.2⟩]
    · omega

theorem need_le (d : Disk) (x : Dinode) (off n : ℕ) : x.need d off n ≤ (touched off n).card + 1 := by
  unfold Dinode.need
  refine Nat.add_le_add (Finset.card_filter_le ..) ?_
  split <;> omega

/-- The indirect block is there after a call of `bmap` that goes through it. -/
theorem Mapped.indirect {bn : ℕ} {b : BlockNo} (hm : Mapped sb t i ip d bn b ip' d')
    (hbn : NDIRECT ≤ bn) : ip'.addrs (Fin.last NDIRECT) ≠ 0 := by
  intro h0
  have hne : ip'.block d' bn ≠ 0 := by rw [hm.block]; exact hm.ne
  obtain ⟨pl, hpl, he⟩ := place_of_block hne
  rw [place, dif_neg (by omega)] at hpl
  split at hpl
  · cases hpl
    rw [he, num_entry, if_pos h0] at hne
    exact hne rfl
  · cases hpl

/-- **The loop of `writei` ends** if there is room for what it has to allocate. -/
theorem writeLoop_total :
    ∀ {fuel off : ℕ} {src : List Byte} {ip : Inode} {d : Disk},
      Owned sb d (Function.update t i ip.toDinode) → src.length ≤ fuel →
      off + src.length ≤ MAXFILE * BSIZE → ip.need d off src.length ≤ (freeBlocks sb d).card →
      ∃ ip' d', writeLoop sb fuel ip d off src = .ok (ip', d')
  | fuel, off, [], ip, d, _, _, _, _ => ⟨ip, d, by cases fuel <;> rfl⟩
  | 0, _, _ :: _, _, _, _, hf, _, _ => by simp at hf
  | fuel + 1, off, x :: src, ip, d, ho, hf, hmax, hneed => by
    set m := min (src.length + 1) (BSIZE - off % BSIZE) with hm
    have hmod : off % BSIZE < BSIZE := Nat.mod_lt _ (by decide)
    rw [List.length_cons] at hf hmax hneed
    have hbn : off / BSIZE < MAXFILE := Nat.div_lt_of_lt_mul (by rw [Nat.mul_comm]; omega)
    have hlen : ((x :: src).take m).length = m := by
      rw [List.length_take, List.length_cons]
      omega
    have hdrop : ((x :: src).drop m).length = src.length + 1 - m := by
      rw [List.length_drop, List.length_cons]
    obtain ⟨b, ip₁, d₁, hb, hc, hl⟩ := bmap_total hbn ((cost_le_need (by omega)).trans hneed)
    have hmap := bmap_spec ho hb
    have hturn := hmap.wrote (show 0 < ((x :: src).take m).length by omega) (by omega)
    have hstep : ip.need d off (src.length + 1) = ip.cost d (off / BSIZE) +
        ip₁.need { d₁ with
          data := Function.update d₁.data b (copyIn (d₁.data b) (off % BSIZE) ((x :: src).take m)) }
          (off + m) (src.length + 1 - m) := by
      refine need_step (by omega) hm (fun k hk => ?_) ?_
      · rw [hmap.block_write, hmap.others k hk]
      · by_cases hd : off / BSIZE < NDIRECT
        · rw [hl hd]
          simp [hd]
        · have := hmap.indirect (by omega)
          tauto
    have hroom : ip₁.need { d₁ with
        data := Function.update d₁.data b (copyIn (d₁.data b) (off % BSIZE) ((x :: src).take m)) }
        (off + m) ((x :: src).drop m).length ≤ (freeBlocks sb d₁).card := by
      rw [hdrop]
      omega
    obtain ⟨ip', d', h⟩ := writeLoop_total hturn.owned (show _ ≤ fuel by omega) (by omega) hroom
    refine ⟨ip', d', ?_⟩
    rw [writeLoop_cons, hb]
    exact h

/-! #### The call -/

section call

variable {devsw : Fin NDEV → Bool} {src : ℕ → Byte} {off n : Word}

/-- A call of `writei` that is not refused. -/
def Fits (ip : Inode) (off n : Word) : Prop :=
  off ≤ ip.size ∧ off.toNat + n.toNat ≤ MAXFILE * BSIZE

theorem Fits.add (h : Fits ip off n) : (off + n).toNat = off.toNat + n.toNat := by
  have : off.toNat + n.toNat ≤ 71680 := h.2
  rw [BitVec.toNat_add]
  omega

theorem writei_fail (hdev : ip.type ≠ T_DEV) (h : ¬ Fits ip off n) :
    writei sb devsw ip d src off n = .ok (.fail, ip, d) := by
  rw [writei_eq]
  rw [if_neg hdev]
  by_cases hoff : off > ip.size ∨ off + n < off
  · rw [if_pos hoff]
  · rw [if_neg hoff, if_pos]
    by_contra hle
    refine h ⟨?_, ?_⟩
    · simp at hoff
      exact hoff.1
    · show _ ≤ 71680
      have h1 : ¬ off + n > .ofNat 32 71680 := hle
      push Not at hoff
      obtain ⟨-, hoff⟩ := hoff
      bv_omega

/-- What `writei` does after its loop. -/
def grow (off n : Word) (ip : Inode) (d : Disk) : Inode × Disk :=
  if n > 0 ∧ off + n > ip.size then ({ ip with size := off + n }, iupdate { ip with size := off + n } d)
  else (ip, d)

theorem writei_fits (hdev : ip.type ≠ T_DEV) (h : Fits ip off n) :
    writei sb devsw ip d src off n = (do
      let (ip, d) ← writeLoop sb n.toNat ip d off.toNat ((List.range n.toNat).map src)
      pure (.done n, grow off n ip d)) := by
  have hadd := h.add
  have hmax : off.toNat + n.toNat ≤ 71680 := h.2
  have hlimit : ¬ off + n > .ofNat 32 (MAXFILE * BSIZE) := by
    show ¬ off + n > .ofNat 32 71680
    bv_omega
  have hoff : ¬ (off > ip.size ∨ off + n < off) := by
    have := h.1
    bv_omega
  rw [writei_eq]
  rw [if_neg hdev, if_neg hoff, if_neg hlimit]
  congr 1
  funext ⟨ip, d⟩
  dsimp only
  unfold grow
  split <;> rfl

/-- The bytes that are in the file after the loop of `writei`: the old ones, with `src` laid over. -/
theorem Wrote.content {off : ℕ} {src : List Byte} (hw : Wrote sb t i ip d off src ip' d')
    (hh : ip.NoHoles d) (hoff : off ≤ ip.size.toNat) :
    (List.range (max ip.size.toNat (off + src.length))).map (ip'.byteAt d') =
      (ip.content d).take off ++ src ++ (ip.content d).drop (off + src.length) := by
  have hsize : (ip.content d).length = ip.size.toNat := by simp [Dinode.content]
  rw [List.append_assoc]
  refine List.ext_getElem (by simp [hsize]; omega) fun k hk hk' => ?_
  rw [List.length_map, List.length_range] at hk
  rw [List.getElem_map, List.getElem_range]
  by_cases h₁ : k < off
  · rw [hw.old k (hh.block (by omega)) (by omega),
      List.getElem_append_left (by simp [hsize]; omega), List.getElem_take]
    simp [Dinode.content]
  · by_cases h₂ : k < off + src.length
    · rw [hw.bytes k (by omega) h₂, List.getElem_append_right (by simp; omega),
        List.getElem_append_left (by simp [hsize]; omega), List.getD_eq_getElem _ _ (by omega)]
      congr 1
      simp [hsize]
      omega
    · rw [hw.old k (hh.block (by omega)) (by omega),
        List.getElem_append_right (by simp; omega), List.getElem_append_right (by simp; omega),
        List.getElem_drop]
      simp only [Dinode.content, List.getElem_map, List.getElem_range, List.length_take,
        List.length_map, List.length_range]
      congr 1
      omega

theorem Wrote.noHoles {off : ℕ} {src : List Byte} (hw : Wrote sb t i ip d off src ip' d')
    (hh : ip.NoHoles d) (hoff : off ≤ ip.size.toNat) {m : ℕ}
    (hm : m * BSIZE < max ip.size.toNat (off + src.length)) : ip'.block d' m ≠ 0 := by
  by_cases h : m * BSIZE < ip.size.toNat
  · rw [hw.blocks m (hh m h)]
    exact hh m h
  · have := hw.present (m * BSIZE) (by omega) (by omega)
    rwa [Nat.mul_div_cancel _ (by decide)] at this

/-- A call of `writei` has written `n` bytes. -/
structure Written (sb : Superblock) (t : Word → Dinode) (ip : Inode) (d : Disk) (src : ℕ → Byte)
    (off n : Word) (ip' : Inode) (d' : Disk) : Prop where
  inode : ip' = { ip with addrs := ip'.addrs, size := ip'.size }
  size : ip'.size.toNat = max ip.size.toNat (off.toNat + n.toNat)
  owned : Owned sb d' (Function.update t ip.inum ip'.toDinode)
  noHoles : ip'.NoHoles d'
  content : ip'.content d' = (ip.content d).take off.toNat ++ (List.range n.toNat).map src ++
    (ip.content d).drop (off.toNat + n.toNat)
  rest : ∀ j, j ≠ ip.inum → ∀ pl, (t j).num d' pl = (t j).num d pl
  data : ∀ j, j ≠ ip.inum → ∀ m, (t j).block d m ≠ 0 →
    d'.data ((t j).block d m) = d.data ((t j).block d m)
  /-- What the inode on disk says is still true if it was. -/
  through : d.dinode ip.inum = ip.toDinode → d'.dinode = Function.update d.dinode ip.inum ip'.toDinode

theorem Wrote.written (hw : Wrote sb t ip.inum ip d off.toNat ((List.range n.toNat).map src) ip' d')
    (hh : ip.NoHoles d) (hf : Fits ip off n) :
    Written sb t ip d src off n (grow off n ip' d').1 (grow off n ip' d').2 := by
  have hadd := hf.add
  have hoff : off.toNat ≤ ip.size.toNat := hf.1
  have hlen : ((List.range n.toNat).map src).length = n.toNat := by simp
  have hsize : ip'.size = ip.size := by rw [hw.inode]
  have hcont := hw.content hh hoff
  have hhole := fun m => hw.noHoles hh hoff (m := m)
  rw [hlen] at hcont hhole
  unfold grow
  split
  · rename_i hg
    have hmax : max ip.size.toNat (off.toNat + n.toNat) = off.toNat + n.toNat := by
      have := hg.2
      rw [hsize] at this
      bv_omega
    rw [hmax] at hcont
    rw [hmax, ← hadd] at hhole
    refine ⟨?_, by rw [hmax, ← hadd], ?_, hhole, ?_, hw.rest, hw.data, fun _ => ?_⟩
    · dsimp only
      rw [hw.inode]
    · refine hw.owned.congr (fun j pl => ?_) rfl
      by_cases hj : j = ip.inum
      · rw [hj, Function.update_self, Function.update_self]
        cases pl <;> rfl
      · rw [Function.update_of_ne hj, Function.update_of_ne hj]
        cases pl <;> rfl
    · show (List.range (off + n).toNat).map (ip'.byteAt d') = _
      rw [hadd, hcont]
    · have hi : ip'.inum = ip.inum := by rw [hw.inode]
      show Function.update d'.dinode ip'.inum _ = _
      rw [hw.dinode, hi]
  · rename_i hg
    have hmax : max ip.size.toNat (off.toNat + n.toNat) = ip.size.toNat := by
      rw [hsize] at hg
      by_cases hn : n > 0
      · have : ¬ off + n > ip.size := fun h => hg ⟨hn, h⟩
        bv_omega
      · bv_omega
    rw [hmax] at hcont
    rw [hmax, ← hsize] at hhole
    refine ⟨?_, by rw [hmax, ← hsize], hw.owned, hhole, ?_, hw.rest, hw.data, fun ht => ?_⟩
    · conv_lhs => rw [hw.inode]
      rw [hsize]
    · rw [Dinode.content, hsize, hcont]
    · -- every block was there, so the inode has not changed
      have hsame : ip' = ip := hw.same fun k hk hk' => hh.block (by rw [hlen] at hk'; omega)
      show d'.dinode = _
      rw [hw.dinode, hsame, ← ht, Function.update_eq_self]

theorem writei_done (ho : Owned sb d t) (hip : t ip.inum = ip.toDinode) (hh : ip.NoHoles d)
    (hdev : ip.type ≠ T_DEV) (hf : Fits ip off n) {r : Io Word}
    (h : writei sb devsw ip d src off n = .ok (r, ip', d')) :
    r = .done n ∧ Written sb t ip d src off n ip' d' := by
  rw [writei_fits hdev hf] at h
  obtain ⟨⟨ip₁, d₁⟩, hw, h⟩ := bind_eq_ok.1 h
  obtain ⟨rfl, hg⟩ := Prod.mk.inj (Except.ok.inj h)
  rw [← Function.update_eq_self ip.inum t, hip] at ho
  have := (writeLoop_spec ho hw).written hh hf
  rw [hg] at this
  exact ⟨rfl, this⟩

theorem Written.other (hw : Written sb t ip d src off n ip' d') {j : Word} (hj : j ≠ ip.inum)
    (hh : (t j).NoHoles d) : (t j).NoHoles d' ∧ (t j).content d' = (t j).content d := by
  have hblock := fun m => block_rest (hw.rest j hj) m
  refine ⟨fun m hm => by rw [hblock]; exact hh m hm, List.map_congr_left fun k hk => ?_⟩
  have hk := hh.block (List.mem_range.1 hk)
  rw [Dinode.byteAt, Dinode.byteAt, hblock, hw.data j hj _ hk]

/-- **Files are arrays of bytes.** The inodes are `t`, each as its copy in memory says if it has one,
and no block belongs to two of them. `readi` gives the bytes of a stretch of the file; `writei` lays
bytes over its content, and appends those that go past its end, if there is room for the blocks it
has to allocate; it changes no other file. Both refuse every other call and change nothing. -/
theorem readi_writei_bytes (sb : Superblock) (devsw : Fin NDEV → Bool) (d : Disk) (t : Word → Dinode)
    (ho : Owned sb d t) (hh : ∀ i, (t i).NoHoles d) (ip : Inode) (hip : t ip.inum = ip.toDinode)
    (hdev : ip.type ≠ T_DEV) (off n : Word) :
    readi sb devsw ip d off n =
      .ok (if off.toNat ≤ ip.size.toNat ∧ off.toNat + n.toNat < 2 ^ 32
        then .done (((ip.content d).drop off.toNat).take n.toNat) else .fail, ip, d) ∧
    ∀ src : ℕ → Byte,
      if off.toNat ≤ ip.size.toNat ∧ off.toNat + n.toNat ≤ MAXFILE * BSIZE then
        ip.need d off.toNat n.toNat ≤ (freeBlocks sb d).card →
        ∃ ip' d', writei sb devsw ip d src off n = .ok (.done n, ip', d') ∧
          ip'.size.toNat = max ip.size.toNat (off.toNat + n.toNat) ∧
          readi sb devsw ip' d' 0 ip'.size =
            .ok (.done ((ip.content d).take off.toNat ++ (List.range n.toNat).map src ++
              (ip.content d).drop (off.toNat + n.toNat)), ip', d') ∧
          ∀ q : Inode, q.inum ≠ ip.inum → t q.inum = q.toDinode → ∀ o l : Word,
            ∃ r, readi sb devsw q d o l = .ok (r, q, d) ∧ readi sb devsw q d' o l = .ok (r, q, d')
      else writei sb devsw ip d src off n = .ok (.fail, ip, d) := by
  have hhi : ip.NoHoles d := hip ▸ hh ip.inum
  refine ⟨readi_ok hhi hdev devsw off n, fun src => ?_⟩
  split
  · rename_i hf
    intro hneed
    have ho' := ho
    rw [← Function.update_eq_self ip.inum t, hip] at ho'
    obtain ⟨ip₁, d₁, hl⟩ : ∃ ip₁ d₁, writeLoop sb n.toNat ip d off.toNat
        ((List.range n.toNat).map src) = .ok (ip₁, d₁) :=
      writeLoop_total ho' (by simp) (by simpa using hf.2) (by simpa using hneed)
    have hw := (writeLoop_spec ho' hl).written hhi hf
    refine ⟨(grow off n ip₁ d₁).1, (grow off n ip₁ d₁).2, ?_, hw.size, ?_, fun q hq htq o l => ?_⟩
    · rw [writei_fits hdev hf, hl]
      rfl
    · have hdev' : (grow off n ip₁ d₁).1.type ≠ T_DEV := by
        rw [hw.inode]
        exact hdev
      rw [readi_all hw.noHoles hdev' devsw, hw.content]
    · by_cases hqdev : q.type = T_DEV
      · exact ⟨_, if_pos hqdev, if_pos hqdev⟩
      · obtain ⟨hhole, hcont⟩ := hw.other hq (hh q.inum)
        have hhq := hh q.inum
        rw [htq] at hhole hcont hhq
        refine ⟨_, readi_ok hhq hqdev devsw o l, ?_⟩
        rw [readi_ok hhole hqdev devsw o l, hcont]
  · rename_i hf
    exact writei_fail hdev hf

end call

/-- A disk of eight blocks, of which the last three hold data. -/
def tinySb : Superblock where
  size := 8
  ninodes := 7
  nlog := 1
  logstart := 2
  inodestart := 3
  bmapstart := 4

def tinyInode : Inode where
  type := T_FILE
  nlink := 1
  addrs _ := 0
  inum := 2
  ref := 1
  valid := true

/-- A disk on which every data block is free. -/
def tinyDisk : Disk where
  dinode _ := tinyInode.toDinode
  used b := b.toNat < 5
  data _ _ := 0

theorem owned_free {sb : Superblock} (hdata : ∀ b, sb.inData b ↔ 5 ≤ b.toNat ∧ b.toNat < sb.size.toNat) :
    Owned sb tinyDisk tinyDisk.dinode := by
  have hnum : ∀ i pl, (tinyDisk.dinode i).num tinyDisk pl = 0 := fun i pl => by cases pl <;> rfl
  have hused : ∀ b, tinyDisk.used b = true ↔ b.toNat < 5 := fun b => decide_eq_true_iff
  refine ⟨fun i pl h => absurd (hnum i pl) h, fun h => absurd (hnum _ _) h, fun b hb hu => ?_,
    fun i pl h => absurd (hnum i pl) h, fun b hb hn => ?_⟩
  · rw [hdata] at hb
    rw [hused] at hu
    omega
  · rw [hdata] at hn
    rw [hused]
    omega

theorem owned_tinyDisk : Owned tinySb tinyDisk tinyDisk.dinode := by
  refine owned_free fun b => ?_
  show b.toNat < 8 ∧ b ≠ 0 ∧ b ≠ 1 ∧ ¬ (2 ≤ b.toNat ∧ b.toNat < 2 + 1) ∧ ¬ (3 ≤ b.toNat ∧ b.toNat < 3 + 1) ∧
    ¬ (4 ≤ b.toNat ∧ b.toNat < 4 + 1) ↔ 5 ≤ b.toNat ∧ b.toNat < 8
  bv_omega

theorem readi_writei_bytes_three :
    Owned tinySb tinyDisk tinyDisk.dinode ∧
    ∃ ip' d', writei tinySb (fun _ => false) tinyInode tinyDisk (.ofNat 8) 0 3 = .ok (.done 3, ip', d') ∧
      readi tinySb (fun _ => false) ip' d' 0 ip'.size = .ok (.done [0, 1, 2], ip', d') := by
  refine ⟨owned_tinyDisk, ?_⟩
  have := (readi_writei_bytes tinySb (fun _ => false) tinyDisk tinyDisk.dinode owned_tinyDisk
    (fun i m hm => by simp [tinyDisk, tinyInode] at hm) tinyInode rfl (by decide) 0 3).2 (.ofNat 8)
  rw [if_pos (by decide)] at this
  obtain ⟨ip', d', hw, -, hr, -⟩ := this (by decide +kernel)
  exact ⟨ip', d', hw, hr⟩

end Xv6.Fs
