import Xv6.Fs.Bmap
import Xv6.Lib.Fold

/-!
# Who owns a block

A block number is stored in an inode or in the indirect block of one. The invariant: every number
that is stored lies in the data area, none is stored twice, and the free map knows exactly them. It is
stated over a table of inodes, in which the cached copy of an inode stands for the one on disk, since
`bmap` changes the copy alone.
-/

namespace Xv6.Fs

open Lib Log

/-- A place where an inode keeps a block number: in `addrs`, or in its indirect block. -/
inductive Place
  | addr (k : Fin (NDIRECT + 1))
  | entry (j : Fin NINDIRECT)
  deriving DecidableEq

/-- The block number at a place, or 0. -/
def Dinode.num (d : Disk) (x : Dinode) : Place → BlockNo
  | .addr k => x.addrs k
  | .entry j => if x.addrs (Fin.last NDIRECT) = 0 then 0 else d.data (x.addrs (Fin.last NDIRECT)) j

theorem num_entry {d : Disk} {x : Dinode} {j : Fin NINDIRECT} :
    x.num d (.entry j) =
      if x.addrs (Fin.last NDIRECT) = 0 then 0 else d.data (x.addrs (Fin.last NDIRECT)) j := rfl

/-- The place of the number of the block `bn` of a file. -/
def place (bn : ℕ) : Option Place :=
  if h : bn < NDIRECT then some (.addr ⟨bn, Nat.lt_succ_of_lt h⟩)
  else if h : bn - NDIRECT < NINDIRECT then some (.entry ⟨bn - NDIRECT, h⟩)
  else none

/-- The block `bn` of a file, or 0. -/
def Dinode.block (d : Disk) (x : Dinode) (bn : ℕ) : BlockNo := (place bn).elim 0 (x.num d)

theorem place_inj {m n : ℕ} {pl : Place} (hm : place m = some pl) (hn : place n = some pl) : m = n := by
  unfold place at hm hn
  split at hm <;> split at hn
  · cases hm
    simpa using hn.symm
  · cases hm
    split at hn <;> simp at hn
  · cases hn
    split at hm <;> simp at hm
  · split at hm <;> split at hn
    · cases hm
      simp at hn
      omega
    all_goals simp_all

/-- The block of a file is not kept where the number of the indirect block is. -/
theorem place_ne_last {n : ℕ} : place n ≠ some (.addr (Fin.last NDIRECT)) := by
  unfold place
  split
  · rename_i h
    simp only [ne_eq, Option.some.injEq, Place.addr.injEq, Fin.ext_iff, Fin.val_last]
    omega
  · split <;> simp

theorem block_eq {d : Disk} {x : Dinode} {n : ℕ} {pl : Place} (h : place n = some pl) :
    x.block d n = x.num d pl := by rw [Dinode.block, h]; rfl

theorem place_of_block {d : Disk} {x : Dinode} {n : ℕ} (h : x.block d n ≠ 0) :
    ∃ pl, place n = some pl ∧ x.block d n = x.num d pl := by
  cases hp : place n with
  | none => exact absurd (by rw [Dinode.block, hp]; rfl) h
  | some pl => exact ⟨pl, rfl, block_eq hp⟩

/-- **Ownership of blocks** by the inodes `t`. -/
structure Owned (sb : Superblock) (d : Disk) (t : Word → Dinode) : Prop where
  data : ∀ i pl, (t i).num d pl ≠ 0 → sb.inData ((t i).num d pl)
  excl : ∀ {i j pl pl'}, (t i).num d pl ≠ 0 → (t i).num d pl = (t j).num d pl' → i = j ∧ pl = pl'
  used : ∀ b, sb.inData b → d.used b = true → ∃ i pl, (t i).num d pl = b
  mark : ∀ i pl, (t i).num d pl ≠ 0 → d.used ((t i).num d pl) = true
  marked : ∀ b : BlockNo, b.toNat < sb.size.toNat → ¬ sb.inData b → d.used b = true

variable {sb : Superblock} {d d' : Disk} {t t' : Word → Dinode}

theorem Owned.congr (ho : Owned sb d t) (hnum : ∀ i pl, (t' i).num d' pl = (t i).num d pl)
    (hused : d'.used = d.used) : Owned sb d' t' where
  data i pl h := by
    rw [hnum] at h ⊢
    exact ho.data i pl h
  excl h he := by
    rw [hnum] at h he
    rw [hnum] at he
    exact ho.excl h he
  used b hb hu := by
    rw [hused] at hu
    obtain ⟨i, pl, h⟩ := ho.used b hb hu
    exact ⟨i, pl, by rw [hnum, h]⟩
  mark i pl h := by
    rw [hnum] at h ⊢
    rw [hused]
    exact ho.mark i pl h
  marked b hb hm := by
    rw [hused]
    exact ho.marked b hb hm

theorem Owned.fresh {b : BlockNo} (ho : Owned sb d t) (hb : sb.inData b) (hu : d.used b = false)
    (i : Word) (pl : Place) : (t i).num d pl ≠ b := by
  rintro rfl
  by_cases h : (t i).num d pl = 0
  · exact hb.2.1 h
  · rw [ho.mark i pl h] at hu
    cases hu

/-- A block that was free is stored at one place, which was empty. -/
theorem Owned.add {b : BlockNo} (ho : Owned sb d t) (i : Word) (pl : Place) (hb : sb.inData b)
    (hu : d.used b = false) (hused : d'.used = Function.update d.used b true)
    (hnew : (t' i).num d' pl = b) (h0 : (t i).num d pl = 0)
    (hold : ∀ j pl', (j, pl') ≠ (i, pl) → (t' j).num d' pl' = (t j).num d pl') : Owned sb d' t' := by
  have hfresh := ho.fresh hb hu
  have hcase : ∀ j pl', (j, pl') = (i, pl) ∧ (t' j).num d' pl' = b ∨
      (j, pl') ≠ (i, pl) ∧ (t' j).num d' pl' = (t j).num d pl' := by
    intro j pl'
    by_cases h : (j, pl') = (i, pl)
    · cases h
      exact .inl ⟨rfl, hnew⟩
    · exact .inr ⟨h, hold j pl' h⟩
  constructor
  case data =>
    intro j pl' h
    rcases hcase j pl' with ⟨-, he⟩ | ⟨-, he⟩
    · rw [he]
      exact hb
    · rw [he] at h ⊢
      exact ho.data j pl' h
  case excl =>
    intro j j' pl₁ pl₂ h he
    rcases hcase j pl₁ with ⟨h₁, he₁⟩ | ⟨h₁, he₁⟩ <;> rcases hcase j' pl₂ with ⟨h₂, he₂⟩ | ⟨h₂, he₂⟩
    · cases h₁
      cases h₂
      exact ⟨rfl, rfl⟩
    · rw [he₁, he₂] at he
      exact absurd he.symm (hfresh _ _)
    · rw [he₁, he₂] at he
      exact absurd he (hfresh _ _)
    · rw [he₁] at h he
      rw [he₂] at he
      exact ho.excl h he
  case used =>
    intro c hc hu'
    rw [hused, Function.update_apply] at hu'
    split at hu'
    · rename_i h
      exact ⟨i, pl, by rw [hnew, h]⟩
    · obtain ⟨j, pl', h⟩ := ho.used c hc hu'
      refine ⟨j, pl', ?_⟩
      rw [hold, h]
      rintro he
      cases he
      rw [h0] at h
      exact hc.2.1 h.symm
  case mark =>
    intro j pl' h
    rw [hused, Function.update_apply]
    split
    · rfl
    · rename_i hne
      rcases hcase j pl' with ⟨-, he⟩ | ⟨-, he⟩
      · exact absurd he hne
      · rw [he] at h ⊢
        exact ho.mark j pl' h
  case marked =>
    intro c hc hm
    rw [hused, Function.update_apply]
    split
    · rfl
    · exact ho.marked c hc hm

/-! ### `balloc` and `bmap` -/

theorem balloc_ok {b : BlockNo} (ho : Owned sb d t) (h : balloc sb d = .ok (b, d')) :
    sb.inData b ∧ d.used b = false ∧
      d' = bzero { d with used := Function.update d.used b true } b := by
  rw [balloc_eq] at h
  split at h
  · cases h
  · rename_i k hk
    cases h
    have hlt : k < sb.size.toNat := List.mem_range.1 (List.mem_of_find?_eq_some hk)
    have hu : d.used (.ofNat 32 k) = false := by simpa using List.find?_some hk
    refine ⟨?_, hu, rfl⟩
    by_contra hm
    have hb : (BitVec.ofNat 32 k).toNat = k :=
      Nat.mod_eq_of_lt (lt_trans hlt sb.size.isLt)
    rw [ho.marked _ (by rwa [hb]) hm] at hu
    cases hu

/-- The numbers do not change with a block that is no indirect block of the inode. -/
theorem num_congr {x : Dinode} {b : BlockNo} (hb : x.addrs (Fin.last NDIRECT) ≠ b)
    (hd : ∀ c, c ≠ b → d'.data c = d.data c) (pl : Place) : x.num d' pl = x.num d pl := by
  cases pl with
  | addr k => rfl
  | entry j => rw [num_entry, num_entry, hd _ hb]

/-- A block has been allocated for the block `bn` of the inode `ip`, which is `i` in the table, or for
its indirect block. -/
structure Stored (sb : Superblock) (t : Word → Dinode) (i : Word) (ip : Inode) (d : Disk) (bn : ℕ)
    (ip' : Inode) (d' : Disk) : Prop where
  inode : ip' = { ip with addrs := ip'.addrs }
  owned : Owned sb d' (Function.update t i ip'.toDinode)
  dinode : d'.dinode = d.dinode
  /-- The other blocks of the file are the same. -/
  others : ∀ m, m ≠ bn → ip'.block d' m = ip.block d m
  /-- The blocks of the other files are the same. -/
  rest : ∀ j, j ≠ i → ∀ pl, (t j).num d' pl = (t j).num d pl
  /-- No block of any file has changed. -/
  data : ∀ j m, (Function.update t i ip.toDinode j).block d m ≠ 0 →
    d'.data ((Function.update t i ip.toDinode j).block d m) =
      d.data ((Function.update t i ip.toDinode j).block d m)

section store

variable {i : Word} {ip ip' : Inode} {bn : ℕ} {b : BlockNo}

theorem Stored.refl (ho : Owned sb d (Function.update t i ip.toDinode)) : Stored sb t i ip d bn ip d :=
  ⟨rfl, ho, rfl, fun _ _ => rfl, fun _ _ _ => rfl, fun _ _ _ => rfl⟩

theorem store_addr {k : Fin (NDIRECT + 1)} (ho : Owned sb d (Function.update t i ip.toDinode))
    (h0 : ip.addrs k = 0) (h : balloc sb d = .ok (b, d'))
    (hbn : ∀ m, place m = some (.addr k) → m = bn) :
    Stored sb t i ip d bn { ip with addrs := Function.update ip.addrs k b } d' := by
  obtain ⟨hb, hu, rfl⟩ := balloc_ok ho h
  have hfresh := ho.fresh hb hu
  have hdata : ∀ c, c ≠ b →
      (bzero { d with used := Function.update d.used b true } b).data c = d.data c := fun c hc => by
    simp [bzero, hc]
  have hself : ∀ pl, pl ≠ .addr k →
      ({ ip.toDinode with addrs := Function.update ip.addrs k b } : Dinode).num
        (bzero { d with used := Function.update d.used b true } b) pl = ip.num d pl := by
    intro pl hpl
    cases pl with
    | addr k' =>
      have hk : k' ≠ k := fun h => hpl (by rw [h])
      simp [Dinode.num, hk]
    | entry j =>
      rw [num_entry, num_entry]
      by_cases hk : Fin.last NDIRECT = k
      · subst hk
        simp only [Function.update_self]
        rw [if_neg hb.2.1, if_pos h0]
        simp [bzero]
      · simp only [Function.update_of_ne hk]
        split
        · rfl
        · rw [hdata]
          have := hfresh i (.addr (Fin.last NDIRECT))
          rw [Function.update_self] at this
          exact this
  have hrest : ∀ j, j ≠ i → ∀ pl, (t j).num
      (bzero { d with used := Function.update d.used b true } b) pl = (t j).num d pl := by
    intro j hj pl
    refine num_congr ?_ hdata pl
    have := hfresh j (.addr (Fin.last NDIRECT))
    rw [Function.update_of_ne hj] at this
    exact this
  refine ⟨rfl, ?_, rfl, fun m hm => ?_, hrest, fun j m hm => hdata _ ?_⟩
  · refine ho.add i (.addr k) hb hu rfl ?_ ?_ fun j pl hne => ?_
    · rw [Function.update_self]
      exact Function.update_self ..
    · rw [Function.update_self]
      exact h0
    · by_cases hj : j = i
      · subst hj
        rw [Function.update_self, Function.update_self]
        exact hself pl fun hpl => hne (by rw [hpl])
      · rw [Function.update_of_ne hj, Function.update_of_ne hj]
        exact hrest j hj pl
  · cases hp : place m with
    | none => rw [Dinode.block, Dinode.block, hp]; rfl
    | some pl =>
      rw [block_eq hp, block_eq hp]
      exact hself pl fun hpl => hm (hbn m (by rw [hp, hpl]))
  · obtain ⟨pl, -, he⟩ := place_of_block hm
    rw [he]
    exact hfresh j pl

/-- The number of a fresh block goes into the indirect block. -/
theorem store_entry {j : Fin NINDIRECT} (ho : Owned sb d (Function.update t i ip.toDinode))
    (hind : ip.addrs (Fin.last NDIRECT) ≠ 0)
    (h0 : d.data (ip.addrs (Fin.last NDIRECT)) j = 0) (h : balloc sb d = .ok (b, d'))
    (hbn : place bn = some (.entry j)) :
    Stored sb t i ip d bn ip { d' with
      data := Function.update d'.data (ip.addrs (Fin.last NDIRECT))
        (Function.update (d.data (ip.addrs (Fin.last NDIRECT))) j b) } := by
  obtain ⟨hb, hu, rfl⟩ := balloc_ok ho h
  have hfresh := ho.fresh hb hu
  set ind := ip.addrs (Fin.last NDIRECT) with hindeq
  set d' : Disk := { bzero { d with used := Function.update d.used b true } b with
    data := Function.update (bzero { d with used := Function.update d.used b true } b).data ind
      (Function.update (d.data ind) j b) } with hd'
  have hdata : ∀ c, c ≠ b → c ≠ ind → d'.data c = d.data c := fun c hc hci => by
    simp [hd', bzero, hc, hci]
  have hselfi : (Function.update t i ip.toDinode i).num d (.addr (Fin.last NDIRECT)) = ind := by
    rw [Function.update_self]
    rfl
  have hself : ∀ pl, pl ≠ .entry j → ip.num d' pl = ip.num d pl := by
    intro pl hpl
    cases pl with
    | addr k => rfl
    | entry j' =>
      have hj : j' ≠ j := fun h => hpl (by rw [h])
      rw [num_entry, num_entry, if_neg hind, if_neg hind, ← hindeq]
      simp [hd', hj]
  have hrest : ∀ j', j' ≠ i → ∀ pl, (t j').num d' pl = (t j').num d pl := by
    intro j' hj' pl
    cases pl with
    | addr k => rfl
    | entry e =>
      rw [num_entry, num_entry]
      split
      · rfl
      · rename_i hne
        have hnum : (Function.update t i ip.toDinode j').num d (.addr (Fin.last NDIRECT)) =
            (t j').addrs (Fin.last NDIRECT) := by
          rw [Function.update_of_ne hj']
          rfl
        rw [hdata]
        · rw [← hnum]
          exact hfresh j' _
        · rw [← hnum]
          intro he
          exact hj' (ho.excl (by rw [hnum]; exact hne) (he.trans hselfi.symm)).1
  refine ⟨rfl, ?_, rfl, fun m hm => ?_, hrest, fun j' m hm => ?_⟩
  · refine ho.add i (.entry j) hb hu rfl ?_ ?_ fun j' pl hne => ?_
    · rw [Function.update_self, num_entry, if_neg hind, ← hindeq]
      simp [hd']
    · rw [Function.update_self, num_entry, if_neg hind, h0]
    · by_cases hj' : j' = i
      · subst hj'
        rw [Function.update_self]
        exact hself pl fun hpl => hne (by rw [hpl])
      · rw [Function.update_of_ne hj']
        exact hrest j' hj' pl
  · cases hp : place m with
    | none => rw [Dinode.block, Dinode.block, hp]; rfl
    | some pl =>
      rw [block_eq hp, block_eq hp]
      refine hself pl fun hpl => hm ?_
      rw [hpl] at hp
      exact place_inj hp hbn
  · obtain ⟨pl, hp, he⟩ := place_of_block hm
    rw [he] at hm ⊢
    refine hdata _ (hfresh j' pl) fun heq => ?_
    obtain ⟨-, rfl⟩ := ho.excl hm (heq.trans hselfi.symm)
    exact place_ne_last hp

/-- What a call of `bmap` has done for the inode `ip`, which is `i` in the table. -/
structure Mapped (sb : Superblock) (t : Word → Dinode) (i : Word) (ip : Inode) (d : Disk) (bn : ℕ)
    (b : BlockNo) (ip' : Inode) (d' : Disk) : Prop extends Stored sb t i ip d bn ip' d' where
  block : ip'.block d' bn = b
  ne : b ≠ 0
  /-- If there is a block already, nothing changes. -/
  same : ip.block d bn ≠ 0 → ip' = ip ∧ d' = d

theorem inode_block (x : Inode) (d : Disk) (m : ℕ) :
    (Function.update t i x.toDinode i).block d m = x.block d m := by rw [Function.update_self]

/-- The part of `bmap` that goes through the indirect block, which exists. -/
theorem bmap_entry {j : Fin NINDIRECT} (ho : Owned sb d (Function.update t i ip.toDinode))
    (hbn : place bn = some (.entry j)) (hind : ip.addrs (Fin.last NDIRECT) ≠ 0)
    (h : (if d.data (ip.addrs (Fin.last NDIRECT)) j = 0 then do
        let (addr, d₁) ← balloc sb d
        pure (addr, ip, { d₁ with
          data := Function.update d₁.data (ip.addrs (Fin.last NDIRECT)) <|
            Function.update (d.data (ip.addrs (Fin.last NDIRECT))) j addr })
      else pure (d.data (ip.addrs (Fin.last NDIRECT)) j, ip, d)) = .ok (b, ip', d')) :
    Mapped sb t i ip d bn b ip' d' := by
  have hblock : ip.block d bn = d.data (ip.addrs (Fin.last NDIRECT)) j := by
    rw [block_eq hbn, num_entry, if_neg hind]
  split at h
  · rename_i h0
    obtain ⟨⟨c, d₁⟩, hc, h⟩ := bind_eq_ok.1 h
    cases h
    refine ⟨store_entry ho hind h0 hc hbn, ?_, (balloc_ok ho hc).1.2.1, fun h => ?_⟩
    · rw [block_eq hbn, num_entry, if_neg hind]
      simp
    · rw [hblock] at h
      exact absurd h0 h
  · rename_i h0
    cases h
    exact ⟨.refl ho, hblock, h0, fun _ => ⟨rfl, rfl⟩⟩

/-- **`bmap`** gives the block `bn` of the file, which it allocates if need be. -/
theorem bmap_spec (ho : Owned sb d (Function.update t i ip.toDinode))
    (h : bmap sb ip d bn = .ok (b, ip', d')) : Mapped sb t i ip d bn b ip' d' := by
  rw [bmap_eq] at h
  split at h
  · rename_i hlt
    have hbn : place bn = some (.addr ⟨bn, by omega⟩) := dif_pos hlt
    dsimp only at h
    split at h
    · rename_i h0
      obtain ⟨⟨c, d₁⟩, hc, h⟩ := bind_eq_ok.1 h
      cases h
      refine ⟨store_addr ho h0 hc fun m hm => place_inj hm hbn, ?_, (balloc_ok ho hc).1.2.1,
        fun h => ?_⟩
      · rw [block_eq hbn]
        exact Function.update_self ..
      · rw [block_eq hbn] at h
        exact absurd h0 h
    · rename_i h0
      cases h
      exact ⟨.refl ho, block_eq hbn, h0, fun _ => ⟨rfl, rfl⟩⟩
  · rename_i hge
    dsimp only at h
    split at h
    · rename_i hlt
      have hbn : place bn = some (.entry ⟨bn - NDIRECT, hlt⟩) := by
        rw [place, dif_neg hge, dif_pos hlt]
      by_cases h0 : ip.addrs (Fin.last NDIRECT) = 0
      · rw [if_pos h0] at h
        obtain ⟨⟨c, d₁⟩, hc, h⟩ := bind_eq_ok.1 h
        have hs : ∀ bn, Stored sb t i ip d bn
            { ip with addrs := Function.update ip.addrs (Fin.last NDIRECT) c } d₁ := fun bn =>
          store_addr ho h0 hc fun m hm => absurd hm place_ne_last
        have hc0 := (balloc_ok ho hc).1.2.1
        have hind : Function.update ip.addrs (Fin.last NDIRECT) c (Fin.last NDIRECT) ≠ 0 := by
          rwa [Function.update_self]
        have hm := bmap_entry (hs bn).owned hbn hind h
        -- the indirect block is no block of the file, whose blocks are all as before
        have hself : ∀ m, ({ ip with addrs := Function.update ip.addrs (Fin.last NDIRECT) c } :
            Inode).block d₁ m = ip.block d m := fun m => (hs (m + 1)).others m (by omega)
        have hall : ∀ j m, (Function.update t i ({ ip with
            addrs := Function.update ip.addrs (Fin.last NDIRECT) c } : Inode).toDinode j).block d₁ m =
              (Function.update t i ip.toDinode j).block d m := by
          intro j m
          by_cases hj : j = i
          · rw [hj, inode_block, inode_block, hself]
          · rw [Function.update_of_ne hj, Function.update_of_ne hj]
            cases hp : place m with
            | none => rw [Dinode.block, Dinode.block, hp]; rfl
            | some pl => rw [block_eq hp, block_eq hp, (hs bn).rest j hj]
        refine ⟨⟨hm.inode, hm.owned, hm.dinode.trans (hs bn).dinode, fun m hne => ?_,
          fun j hj pl => ?_, fun j m hne => ?_⟩, hm.block, hm.ne, fun hne => ?_⟩
        · rw [hm.others m hne, hself]
        · rw [hm.rest j hj, (hs bn).rest j hj]
        · rw [← (hs bn).data j m hne]
          have := hm.data j m (by rwa [hall])
          rwa [hall] at this
        · rw [block_eq hbn, num_entry, if_pos h0] at hne
          exact absurd rfl hne
      · rw [if_neg h0] at h
        exact bmap_entry ho hbn h0 h
    · cases h

end store

/-- If the file has the block, `bmap` changes nothing. -/
theorem bmap_present {ip : Inode} {bn : ℕ} (h : ip.block d bn ≠ 0) :
    bmap sb ip d bn = .ok (ip.block d bn, ip, d) := by
  obtain ⟨pl, hpl, he⟩ := place_of_block h
  rw [he] at h ⊢
  unfold place at hpl
  rw [bmap_eq]
  split at hpl
  · rename_i hlt
    cases hpl
    rw [dif_pos hlt]
    exact if_neg h
  · rename_i hge
    split at hpl
    · rename_i hlt
      cases hpl
      rw [num_entry] at h ⊢
      by_cases h0 : ip.addrs (Fin.last NDIRECT) = 0
      · rw [if_pos h0] at h
        exact absurd rfl h
      · rw [if_neg h0] at h ⊢
        rw [dif_neg hge, dif_pos hlt, if_neg h0]
        exact if_neg h
    · cases hpl

theorem Owned.num_write (ho : Owned sb d t) {i : Word} {m : ℕ} (hm : (t i).block d m ≠ 0) (v : Block)
    (j : Word) (pl : Place) :
    (t j).num { d with data := Function.update d.data ((t i).block d m) v } pl = (t j).num d pl := by
  obtain ⟨pm, hpm, he⟩ := place_of_block hm
  refine num_congr (fun hind => ?_) (fun c hc => Function.update_of_ne hc _ _) pl
  rw [he] at hm hind
  have hsame : (t i).num d pm = (t j).num d (.addr (Fin.last NDIRECT)) := hind.symm
  obtain ⟨-, rfl⟩ := ho.excl hm hsame
  exact place_ne_last hpm

/-! ### `itrunc` -/

theorem mem_blocks {ip : Inode} {b : BlockNo} :
    b ∈ blocks ip d ↔ b ≠ 0 ∧ ∃ pl, ip.num d pl = b := by
  unfold blocks
  by_cases h0 : ip.addrs (Fin.last NDIRECT) = 0
  · simp only [named, h0, ne_eq, not_true_eq_false, if_false, List.append_nil, List.mem_filter,
      List.mem_map, List.mem_finRange, true_and, decide_eq_true_eq]
    constructor
    · rintro ⟨⟨k, rfl⟩, hb⟩
      exact ⟨hb, .addr k.castSucc, rfl⟩
    · rintro ⟨hb, pl, rfl⟩
      refine ⟨?_, hb⟩
      cases pl with
      | addr k =>
        refine ⟨k.castPred fun hk => hb ?_, ?_⟩
        · rw [hk]
          exact h0
        · rw [Fin.castSucc_castPred]
          rfl
      | entry j =>
        rw [num_entry, if_pos h0] at hb
        exact absurd rfl hb
  · simp only [named, if_pos h0, List.mem_append, List.mem_filter, List.mem_map, List.mem_finRange,
      true_and, decide_eq_true_eq, List.mem_singleton]
    constructor
    · rintro (⟨⟨k, rfl⟩, hb⟩ | ⟨⟨j, rfl⟩, hb⟩ | rfl)
      · exact ⟨hb, .addr k.castSucc, rfl⟩
      · exact ⟨hb, .entry j, by rw [num_entry, if_neg h0]⟩
      · exact ⟨h0, .addr (Fin.last NDIRECT), rfl⟩
    · rintro ⟨hb, pl, rfl⟩
      cases pl with
      | addr k =>
        by_cases hk : k = Fin.last NDIRECT
        · exact .inr (.inr (by rw [hk]; rfl))
        · exact .inl ⟨⟨k.castPred hk, by rw [Fin.castSucc_castPred]; rfl⟩, hb⟩
      | entry j =>
        rw [num_entry, if_neg h0] at hb ⊢
        exact .inr (.inl ⟨⟨j, rfl⟩, hb⟩)

/-- The nonzero values of a function that does not repeat them. -/
theorem nodup_named {n : ℕ} {f : Fin n → BlockNo} (h : ∀ {k k'}, f k ≠ 0 → f k = f k' → k = k') :
    (named ((List.finRange n).map f)).Nodup := by
  unfold named
  rw [List.filter_map]
  refine (List.nodup_finRange n).filter _ |>.map_on fun k hk k' _ he => h ?_ he
  simpa using (List.mem_filter.1 hk).2

theorem Owned.freeable (ho : Owned sb d t) {ip : Inode} {i : Word} (hi : t i = ip.toDinode) :
    Freeable d (blocks ip d) := by
  have hinj : ∀ pl pl', ip.num d pl ≠ 0 → ip.num d pl = ip.num d pl' → pl = pl' := by
    intro pl pl' h he
    rw [← hi] at h he
    exact (ho.excl h he).2
  constructor
  · have hdir : (named ((List.finRange NDIRECT).map fun k => ip.addrs k.castSucc)).Nodup := by
      refine nodup_named fun {k k'} h he => ?_
      have := hinj (.addr k.castSucc) (.addr k'.castSucc) h he
      exact Fin.castSucc_injective _ (Place.addr.inj this)
    unfold blocks
    by_cases h0 : ip.addrs (Fin.last NDIRECT) = 0
    · simpa [h0] using hdir
    · dsimp only
      rw [if_pos h0]
      have hent : ∀ j, ip.num d (.entry j) = d.data (ip.addrs (Fin.last NDIRECT)) j := fun j => by
        rw [num_entry, if_neg h0]
      have hind : (named ((List.finRange NINDIRECT).map (d.data (ip.addrs (Fin.last NDIRECT))))).Nodup := by
        refine nodup_named fun {k k'} h he => ?_
        rw [← hent, ← hent] at he
        rw [← hent] at h
        exact Place.entry.inj (hinj _ _ h he)
      have hmem : ∀ {b}, b ∈ named ((List.finRange NINDIRECT).map
          (d.data (ip.addrs (Fin.last NDIRECT)))) → ∃ j, ip.num d (.entry j) = b ∧ b ≠ 0 := by
        intro b hb
        obtain ⟨hb, h⟩ := List.mem_filter.1 hb
        obtain ⟨j, -, rfl⟩ := List.mem_map.1 hb
        exact ⟨j, hent j, by simpa using h⟩
      have hmem' : ∀ {b}, b ∈ named ((List.finRange NDIRECT).map fun k => ip.addrs k.castSucc) →
          ∃ k : Fin NDIRECT, ip.num d (.addr k.castSucc) = b ∧ b ≠ 0 := by
        intro b hb
        obtain ⟨hb, h⟩ := List.mem_filter.1 hb
        obtain ⟨k, -, rfl⟩ := List.mem_map.1 hb
        exact ⟨k, rfl, by simpa using h⟩
      refine List.nodup_append.2 ⟨hdir, List.nodup_append.2 ⟨hind, List.nodup_singleton _, ?_⟩, ?_⟩
      · rintro b hb c hc rfl
        obtain rfl := List.mem_singleton.1 hc
        obtain ⟨j, hj, hne⟩ := hmem hb
        cases hinj (.entry j) (.addr (Fin.last NDIRECT)) (by rwa [hj]) hj
      · rintro b hb c hc rfl
        obtain ⟨k, hk, hne⟩ := hmem' hb
        rcases List.mem_append.1 hc with hc | hc
        · obtain ⟨j, hj, -⟩ := hmem hc
          cases hinj _ _ (by rwa [hk]) (hk.trans hj.symm)
        · obtain rfl := List.mem_singleton.1 hc
          have := hinj _ (.addr (Fin.last NDIRECT)) (by rwa [hk]) hk
          exact Fin.castSucc_ne_last k (Place.addr.inj this)
  · intro b hb
    obtain ⟨hne, pl, rfl⟩ := mem_blocks.1 hb
    have := ho.mark i pl
    rw [hi] at this
    exact this hne

theorem Owned.trunc (ho : Owned sb d t) {ip : Inode} {i : Word} (hi : t i = ip.toDinode) {x : Dinode}
    (hx : x.addrs = fun _ => 0) {g : Word → Dinode} :
    Owned sb { d.free (blocks ip d) with dinode := g } (Function.update t i x) := by
  set d' : Disk := { d.free (blocks ip d) with dinode := g }
  have hself : ∀ pl, (Function.update t i x i).num d' pl = 0 := by
    intro pl
    rw [Function.update_self]
    cases pl with
    | addr k => exact congrFun hx k
    | entry j => rw [num_entry, if_pos (congrFun hx _)]
  have hrest : ∀ j, j ≠ i → ∀ pl, (Function.update t i x j).num d' pl = (t j).num d pl :=
    fun j hj pl => by
      rw [Function.update_of_ne hj]
      cases pl <;> rfl
  -- whatever is still stored belongs to another inode
  have hne : ∀ {j pl}, (Function.update t i x j).num d' pl ≠ 0 → j ≠ i := by
    rintro j pl h rfl
    exact h (hself pl)
  have hkeep : ∀ {j pl}, j ≠ i → (t j).num d pl ≠ 0 → (t j).num d pl ∉ blocks ip d := by
    intro j pl hj h hm
    obtain ⟨-, pl', he⟩ := mem_blocks.1 hm
    rw [← hi] at he
    exact hj (ho.excl h he.symm).1
  constructor
  case data =>
    intro j pl h
    have hj := hne h
    rw [hrest j hj] at h ⊢
    exact ho.data j pl h
  case excl =>
    intro j j' pl pl' h he
    have hj := hne h
    have hj' := hne (by rwa [he] at h)
    rw [hrest j hj] at h he
    rw [hrest j' hj'] at he
    exact ho.excl h he
  case used =>
    intro b hb hu
    obtain ⟨hu, hm⟩ : d.used b = true ∧ b ∉ blocks ip d := by simpa [d', Disk.free] using hu
    obtain ⟨j, pl, rfl⟩ := ho.used b hb hu
    refine ⟨j, pl, hrest j ?_ pl⟩
    rintro rfl
    rw [hi] at hm hb
    exact hm (mem_blocks.2 ⟨hb.2.1, pl, rfl⟩)
  case mark =>
    intro j pl h
    have hj := hne h
    rw [hrest j hj] at h ⊢
    simp [d', Disk.free, ho.mark j pl h, hkeep hj h]
  case marked =>
    intro b hb hm
    have hnm : b ∉ blocks ip d := by
      intro hbm
      obtain ⟨hne, pl, rfl⟩ := mem_blocks.1 hbm
      rw [← hi] at hne hm
      exact hm (ho.data i pl hne)
    simp [d', Disk.free, ho.marked b hb hm, hnm]

end Xv6.Fs
