import Mathlib.Data.List.TakeWhile
import Xv6.Fs.System
import Xv6.Fs.Store
import Xv6.Mkfs.Code

/-!
# The image that `mkfs` writes

`iappend` takes blocks from a counter, where the kernel looks for a free one in the map. With the map that marks the
blocks below the counter, which `mkfs` writes at its end, the two find the same blocks: `iappend` does what `writei`
does at the end of a file, and keeps the image in order as the kernel does.
-/

namespace Xv6.Mkfs

open Lib Fs Log Ide

/-- The image so far, with the free map that `balloc` would write. -/
def State.live (s : State) : Disk := { s.disk with used := fun b => b.toNat < s.freeblock }

/-- What has not been given away is zero, and on the disk. -/
structure State.Clear (s : State) : Prop where
  top : s.freeblock ≤ FSSIZE
  zero : ∀ b : BlockNo, s.freeblock ≤ b.toNat → s.disk.data b = fun _ => 0

variable {s s' : State} {din din' : Dinode} {ip : Inode} {i : Fin (NDIRECT + 1)} {b : BlockNo} {fbn : ℕ}

theorem toNat_ofNat_le {n : ℕ} (h : n ≤ FSSIZE) : (BitVec.ofNat 32 n).toNat = n :=
  Nat.mod_eq_of_lt (by unfold FSSIZE at h; omega)

/-! ### Blocks -/

/-- The state after `freeblock++`. -/
def State.next (s : State) : State := { s with freeblock := s.freeblock + 1 }

theorem State.Clear.next (hc : s.Clear) (h : (BitVec.ofNat 32 s.freeblock).toNat < FSSIZE) : s.next.Clear :=
  ⟨by rwa [toNat_ofNat_le hc.top] at h, fun b hb => hc.zero b (Nat.le_of_succ_le hb)⟩

theorem State.Clear.wsect (hc : s.Clear) (hb : b.toNat < s.freeblock) (v : Block) : (wsect b v s).Clear :=
  ⟨hc.top, fun c hle => (Function.update_of_ne (fun he => absurd (he ▸ hb) (Nat.not_lt.2 hle)) ..).trans (hc.zero c hle)⟩

theorem mark_next {n : ℕ} (h : n ≤ FSSIZE) : Function.update (fun b : BlockNo => decide (b.toNat < n)) (.ofNat 32 n) true =
    fun b => decide (b.toNat < n + 1) := by
  funext b
  by_cases hb : b = .ofNat 32 n
  · subst hb
    simp [toNat_ofNat_le h]
  · have hne : b.toNat ≠ n := fun he => hb (by rw [← he]; simp)
    rw [Function.update_of_ne hb]
    exact decide_eq_decide.2 (by omega)

/-- The kernel would take the same block. -/
theorem balloc_live (hc : s.Clear) (h : (BitVec.ofNat 32 s.freeblock).toNat < FSSIZE) :
    Fs.balloc superblock s.live = .ok (.ofNat 32 s.freeblock, s.next.live) := by
  have hself := toNat_ofNat_le hc.top
  rw [hself] at h
  have hfind : (List.range superblock.size.toNat).find? (fun b => !s.live.used (.ofNat 32 b)) = some s.freeblock := by
    rw [List.find?_range_eq_some]
    refine ⟨?_, List.mem_range.2 h, fun b hb => ?_⟩
    · simp [State.live, hself]
    · simpa [State.live, toNat_ofNat_le (hb.le.trans hc.top)] using hb
  rw [balloc_eq]
  rw [hfind]
  exact congrArg (fun d => Except.ok (BitVec.ofNat 32 s.freeblock, d)) (congrArg₂ (Disk.mk _) (mark_next hc.top)
    (Function.update_eq_self_iff.2 (hc.zero _ (by rw [hself])).symm))

/-- The states agree but for the blocks. -/
def State.Frame (s s' : State) : Prop := s'.disk.dinode = s.disk.dinode ∧ s'.freeinode = s.freeinode

/-- What `mapBlock` does, where the block is on the disk: what `bmap` does. -/
structure Found (s : State) (ip : Inode) (fbn : ℕ) (b : BlockNo) (din : Dinode) (s' : State) : Prop where
  bmap : bmap superblock ip s.live fbn = .ok (b, { ip with toDinode := din }, s'.live)
  clear : s'.Clear
  frame : s.Frame s'
  /-- A block that was not there is zero. -/
  fresh : ip.block s.live fbn = 0 → s'.disk.data b = fun _ => 0

theorem assign_spec (hc : s.Clear) (hlow : (ip.addrs i).toNat < s.freeblock) (ha : assign i ip.toDinode s = (din, s'))
    (hr : (din.addrs i).toNat < FSSIZE) :
    (∀ {α : Type} (f : Inode → Disk → Except Fault α), (if ip.addrs i = 0 then do
        let (addr, d) ← Fs.balloc superblock s.live
        f { ip with addrs := Function.update ip.addrs i addr } d
      else f ip s.live) = f { ip with toDinode := din } s'.live) ∧ s'.Clear ∧ s.Frame s' ∧
    (din.addrs i).toNat < s'.freeblock ∧ (ip.addrs i = 0 → s'.disk.data (din.addrs i) = fun _ => 0) ∧
    (ip.addrs i ≠ 0 → din = ip.toDinode ∧ s' = s) := by
  unfold assign at ha
  split at ha
  · rename_i h0
    obtain ⟨rfl, rfl⟩ := Prod.mk.inj ha
    simp only [Function.update_self] at hr ⊢
    have hself := toNat_ofNat_le hc.top
    exact ⟨fun f => by rw [if_pos h0, balloc_live hc hr]; rfl, hc.next hr, ⟨rfl, rfl⟩,
      by rw [hself]; exact Nat.lt_succ_self _, fun _ => hc.zero _ hself.ge, fun h => absurd h0 h⟩
  · rename_i h0
    obtain ⟨rfl, rfl⟩ := Prod.mk.inj ha
    exact ⟨fun f => if_neg h0, hc, ⟨rfl, rfl⟩, hlow, fun h => absurd h h0, fun _ => ⟨rfl, rfl⟩⟩

theorem found_direct (hc : s.Clear) (hlow : ∀ i, (ip.addrs i).toNat < s.freeblock) (hb : b.toNat < FSSIZE)
    (h : fbn < NDIRECT) (hm : mapBlock ip.toDinode s fbn = .ok (b, din, s')) : Found s ip fbn b din s' := by
  have hblock : ip.block s.live fbn = ip.addrs ⟨fbn, Nat.lt_succ_of_lt h⟩ := block_eq (dif_pos h)
  unfold mapBlock at hm
  rw [dif_pos h] at hm
  cases ha : assign ⟨fbn, Nat.lt_succ_of_lt h⟩ ip.toDinode s with | mk din₁ s₁ =>
  dsimp only at hm
  rw [ha] at hm
  cases hm
  obtain ⟨hbmap, hc₁, hf, -, hzero, -⟩ := assign_spec hc (hlow _) ha hb
  refine ⟨?_, hc₁, hf, fun h0 => hzero (hblock ▸ h0)⟩
  have := hbmap fun ip d => (pure (ip.addrs ⟨fbn, Nat.lt_succ_of_lt h⟩, ip, d) : Except Fault _)
  simp only [Function.update_self] at this
  rw [bmap_eq]
  rw [dif_pos h]
  exact this

theorem found_indirect (hc : s.Clear) (hlow : ∀ i, (ip.addrs i).toNat < s.freeblock) (hb : b.toNat < FSSIZE)
    (h : ¬ fbn < NDIRECT) (hm : mapBlock ip.toDinode s fbn = .ok (b, din, s')) : Found s ip fbn b din s' := by
  unfold mapBlock at hm
  rw [dif_neg h] at hm
  split at hm
  · rename_i hlt
    have hplace : place fbn = some (.entry ⟨fbn - NDIRECT, hlt⟩) := by rw [place, dif_neg h, dif_pos hlt]
    cases ha : assign (Fin.last NDIRECT) ip.toDinode s with | mk din₁ s₁ =>
    rw [ha] at hm
    obtain ⟨a, hr, hm⟩ := bind_eq_ok.1 hm
    unfold rsect at hr
    split at hr
    · rename_i hlt₁
      cases hr
      obtain ⟨hind, hc₁, hf, hlow₁, hzero, hsame⟩ := assign_spec hc (hlow _) ha hlt₁
      have hblock : ip.block s.live fbn = s₁.disk.data (din₁.addrs (Fin.last NDIRECT)) ⟨fbn - NDIRECT, hlt⟩ := by
        rw [block_eq hplace, num_entry]
        split
        · rename_i h0
          rw [hzero h0]
        · rename_i h0
          obtain ⟨rfl, rfl⟩ := hsame h0
          rfl
      have hbmap := hind fun ip d => if d.data (ip.addrs (Fin.last NDIRECT)) ⟨fbn - NDIRECT, hlt⟩ = 0 then do
          let (addr, d') ← Fs.balloc superblock d
          pure (addr, ip, { d' with
            data := Function.update d'.data (ip.addrs (Fin.last NDIRECT)) <|
              Function.update (d.data (ip.addrs (Fin.last NDIRECT))) ⟨fbn - NDIRECT, hlt⟩ addr })
        else pure (d.data (ip.addrs (Fin.last NDIRECT)) ⟨fbn - NDIRECT, hlt⟩, ip, d)
      dsimp only at hm
      split at hm
      · rename_i h0
        cases hm
        have hself := toNat_ofNat_le hc₁.top
        refine ⟨?_, (hc₁.next hb).wsect (Nat.lt_succ_of_lt hlow₁) _, hf, fun _ => ?_⟩
        · rw [bmap_eq]
          rw [dif_neg h, dif_pos hlt]
          exact hbmap.trans ((if_pos h0).trans (by rw [balloc_live hc₁ hb]; rfl))
        · exact (Function.update_of_ne (fun he => by rw [← he, hself] at hlow₁; omega) ..).trans
            (hc₁.zero _ hself.ge)
      · rename_i h0
        cases hm
        refine ⟨?_, hc₁, hf, fun h' => absurd (hblock.symm.trans h') h0⟩
        rw [bmap_eq]
        rw [dif_neg h, dif_pos hlt]
        exact hbmap.trans (if_neg h0)
    · cases hr
  · cases hm

/-! ### `iappend` -/

section append

variable {t : Word → Dinode} {i : Word} {off : ℕ} {p : List Byte}

theorem place_lt {pl : Place} (h : place fbn = some pl) : fbn < MAXFILE := by
  unfold place at h
  split at h
  · exact Nat.lt_of_lt_of_le (by assumption) (Nat.le_add_right ..)
  · split at h
    · show fbn < NDIRECT + NINDIRECT
      omega
    · cases h

theorem low_num (ho : Owned superblock s.live t) (i : Word) (pl : Place) :
    ((t i).num s.live pl).toNat < s.freeblock := by
  by_cases h0 : (t i).num s.live pl = 0
  · have : s.live.used 0 = true := ho.marked 0 (by decide) fun h => h.2.1 rfl
    rw [h0]
    exact of_decide_eq_true this
  · exact of_decide_eq_true (ho.mark i pl h0)

theorem found_mapBlock (hc : s.Clear) (ho : Owned superblock s.live (Function.update t i ip.toDinode))
    (hb : b.toNat < FSSIZE) (hm : mapBlock ip.toDinode s fbn = .ok (b, din, s')) : Found s ip fbn b din s' := by
  have hlow : ∀ k, (ip.addrs k).toNat < s.freeblock := fun k => by
    have := low_num ho i (.addr k)
    rwa [Function.update_self] at this
  by_cases h : fbn < NDIRECT
  · exact found_direct hc hlow hb h hm
  · exact found_indirect hc hlow hb h hm

/-- The bytes from `off` on are zero, as far as there are blocks for them, and these begin before `off`. -/
def Tail (d : Disk) (x : Dinode) (off : ℕ) : Prop :=
  ∀ k, off ≤ k → x.block d (k / BSIZE) ≠ 0 → k / BSIZE * BSIZE < off ∧ x.byteAt d k = 0

/-- One turn of the loop leaves zeros behind. -/
theorem Found.tail (hf : Found s ip (off / BSIZE) b din s')
    (hm : Mapped superblock t i ip s.live (off / BSIZE) b { ip with toDinode := din } s'.live) (h0 : 0 < p.length)
    (hp : off % BSIZE + p.length ≤ BSIZE) (ht : Tail s.live ip.toDinode off) :
    Tail (wsect b (copyIn (s'.disk.data b) (off % BSIZE) p) s').live din (off + p.length) := by
  intro k hk hne
  have hwrote := hm.wrote h0 hp
  have hblock : din.block (wsect b (copyIn (s'.disk.data b) (off % BSIZE) p) s').live (k / BSIZE) =
      din.block s'.live (k / BSIZE) := hm.block_write _ _
  by_cases hold : ip.block s.live (k / BSIZE) = 0
  · -- the block is new
    have hkb : k / BSIZE = off / BSIZE := by
      by_contra hkb
      exact hne (hblock.trans ((hm.others _ hkb).trans hold))
    have hb : din.block s'.live (k / BSIZE) = b := by rw [hkb]; exact hm.block
    have hpast : ¬ (off % BSIZE ≤ k % BSIZE ∧ k % BSIZE < off % BSIZE + p.length) := by
      have h₁ := Nat.div_add_mod k BSIZE
      have h₂ := Nat.div_add_mod off BSIZE
      rw [hkb] at h₁
      omega
    refine ⟨by have := Nat.div_mul_le_self off BSIZE; rw [hkb]; omega, ?_⟩
    rw [Dinode.byteAt, hblock, hb]
    show getByte (Function.update s'.disk.data b _ b) _ = 0
    rw [Function.update_self, getByte_copyIn _ _ _ (Nat.mod_lt _ (by decide)), if_neg hpast, hf.fresh (hkb ▸ hold),
      getByte_zero]
  · obtain ⟨hlt, h0⟩ := ht k (by omega) hold
    exact ⟨by omega, (hwrote.old k hold (by omega)).trans h0⟩

/-- **The loop of `iappend`** does what the loop of `writei` does. -/
theorem appendLoop_writes : ∀ {fuel off : ℕ} {p : List Byte} {ip : Inode} {s : State}, s.Clear →
    Owned superblock s.live (Function.update t i ip.toDinode) → appendLoop fuel ip.toDinode s off p = .ok (din', s') →
    writeLoop superblock fuel ip s.live off p = .ok ({ ip with toDinode := din' }, s'.live) ∧ s'.Clear ∧ s.Frame s' ∧
      (p ≠ [] → off + p.length ≤ MAXFILE * BSIZE) ∧
      (Tail s.live ip.toDinode off → Tail s'.live din' (off + p.length))
  | fuel, off, [], ip, s, hc, _, h => by
    cases fuel <;> cases h <;> exact ⟨rfl, hc, ⟨rfl, rfl⟩, fun h => absurd rfl h, id⟩
  | 0, _, _ :: _, _, _, _, _, h => by cases h
  | fuel + 1, off, x :: p, ip, s, hc, ho, h => by
    rw [appendLoop] at h
    obtain ⟨⟨b, din, s₁⟩, hm, h⟩ := bind_eq_ok.1 h
    obtain ⟨buf, hr, h⟩ := bind_eq_ok.1 h
    unfold rsect at hr
    split at hr
    · rename_i hb
      cases hr
      have hf := found_mapBlock hc ho hb hm
      have hmap := bmap_spec ho hf.bmap
      set n1 := min (p.length + 1) (BSIZE - off % BSIZE) with hn1
      have hmod : off % BSIZE < BSIZE := Nat.mod_lt _ (by decide)
      have hlen : ((x :: p).take n1).length = n1 := by
        rw [List.length_take, List.length_cons]
        omega
      have hdrop : ((x :: p).drop n1).length = p.length + 1 - n1 := by rw [List.length_drop, List.length_cons]
      obtain ⟨pl, hplace, hpl⟩ := place_of_block (by rw [hmap.block]; exact hmap.ne)
      have hb' : b.toNat < s₁.freeblock := by
        have := low_num hmap.owned i pl
        rwa [Function.update_self, ← hpl, hmap.block] at this
      have hturn := hmap.wrote (show 0 < ((x :: p).take n1).length by omega) (by omega)
      obtain ⟨hw, hc', hfr, hmax, htail⟩ := appendLoop_writes (hf.clear.wsect hb' _) hturn.owned h
      refine ⟨?_, hc', ⟨hfr.1.trans hf.frame.1, hfr.2.trans hf.frame.2⟩, fun _ => ?_, fun ht => ?_⟩
      · rw [writeLoop_cons, hf.bmap]
        exact hw
      · have hfile := place_lt hplace
        have hdiv := Nat.div_add_mod off BSIZE
        have hle : BSIZE * (off / BSIZE + 1) ≤ BSIZE * MAXFILE := Nat.mul_le_mul_left _ hfile
        rw [Nat.mul_succ] at hle
        rw [List.length_cons, Nat.mul_comm]
        by_cases hrest : (x :: p).drop n1 = []
        · rw [hrest, List.length_nil] at hdrop
          omega
        · have := hmax hrest
          rw [Nat.mul_comm] at this
          omega
      · have := htail (by
          have := hf.tail hmap (show 0 < ((x :: p).take n1).length by omega) (by omega) ht
          rwa [hlen] at this)
        rw [hdrop] at this
        rw [List.length_cons]
        rwa [show off + (p.length + 1) = off + n1 + (p.length + 1 - n1) by omega]
    · cases hr

end append

/-- **The image under construction** holds the inodes `n`. -/
structure Built (s : State) (n : Word → Vnode) : Prop where
  clear : s.Clear
  image : Image superblock s.live
  tail : ∀ i, Tail s.live (s.disk.dinode i) (s.disk.dinode i).size.toNat
  node : s.live.node = n

section append

variable {n : Word → Vnode} {inum : ℕ} {p : List Byte}

theorem Built.put (hb : Built s n) {i : Word} {x : Dinode} {v : Vnode} (hc : s'.Clear)
    (hdin : s'.disk.dinode = Function.update s.disk.dinode i x) (ho : Owned superblock s'.live s'.disk.dinode)
    (hnum : ∀ j, j ≠ i → ∀ pl, (s.disk.dinode j).num s'.live pl = (s.disk.dinode j).num s.live pl)
    (hdata : ∀ j, j ≠ i → ∀ m, (s.disk.dinode j).block s.live m ≠ 0 →
      s'.disk.data ((s.disk.dinode j).block s.live m) = s.disk.data ((s.disk.dinode j).block s.live m))
    (hh : x.NoHoles s'.live) (hfree : x.type = 0 → ∀ pl, x.num s'.live pl = 0) (ht : Tail s'.live x x.size.toNat)
    (hv : x.vnode s'.live = v) : Built s' (Function.update n i v) := by
  have hself : s'.live.dinode i = x := (congrFun hdin _).trans (Function.update_self ..)
  have hrest : ∀ j, j ≠ i → s'.live.dinode j = s.disk.dinode j := fun j hj =>
    (congrFun hdin _).trans (Function.update_of_ne hj ..)
  have hblock := fun j hj m => block_rest (t := s.disk.dinode) (hnum j hj) m
  have hbyte : ∀ j, j ≠ i → ∀ k, (s.disk.dinode j).block s.live (k / BSIZE) ≠ 0 →
      (s.disk.dinode j).byteAt s'.live k = (s.disk.dinode j).byteAt s.live k := fun j hj k hne => by
    rw [Dinode.byteAt, Dinode.byteAt, hblock j hj]
    exact congrArg (getByte · _) (hdata j hj _ hne)
  refine ⟨hc, ⟨ho, fun j => ?_, fun j => ?_⟩, fun j => ?_, funext fun j => ?_⟩
  all_goals by_cases hj : j = i
  · rw [hj, hself]
    exact hh
  · rw [hrest j hj]
    exact fun m hm => by rw [hblock j hj]; exact hb.image.noHoles j m hm
  · rw [hj, hself]
    exact hfree
  · rw [hrest j hj]
    exact fun h0 pl => by rw [hnum j hj]; exact hb.image.free j h0 pl
  · show Tail s'.live (s'.live.dinode j) (s'.live.dinode j).size.toNat
    rw [hj, hself]
    exact ht
  · show Tail s'.live (s'.live.dinode j) (s'.live.dinode j).size.toNat
    rw [hrest j hj]
    intro k hk hne
    rw [hblock j hj] at hne
    rw [hbyte j hj k hne]
    exact hb.tail j k hk hne
  · rw [hj, Function.update_self, Disk.node, hself, hv]
  · rw [Function.update_of_ne hj, ← hb.node, Disk.node, hrest j hj]
    exact congrArg (Vnode.mk _ _ _ _) (List.map_congr_left fun k hk =>
      hbyte j hj k ((hb.image.noHoles j).block (List.mem_range.1 hk)))

theorem Built.winode (hb : Built s n) {i : Word} {x : Dinode} {v : Vnode} (m : ℕ)
    (hx : ∀ pl, x.num s.live pl = (s.disk.dinode i).num s.live pl) (hh : x.NoHoles s.live)
    (hfree : x.type = 0 → ∀ pl, x.num s.live pl = 0) (ht : Tail s.live x x.size.toNat) (hv : x.vnode s.live = v) :
    Built ⟨{ s.disk with dinode := Function.update s.disk.dinode i x }, m, s.freeblock⟩ (Function.update n i v) := by
  refine hb.put ⟨hb.clear.top, hb.clear.zero⟩ rfl (hb.image.owned.congr (fun j pl => ?_) rfl) (fun _ _ _ => rfl)
    (fun _ _ _ _ => rfl) hh hfree ht hv
  by_cases hj : j = i
  · rw [hj]
    exact (congrArg (fun y : Dinode => y.num _ pl) (Function.update_self ..)).trans (hx pl)
  · exact congrArg (fun y : Dinode => y.num _ pl) (Function.update_of_ne hj ..)

/-- **`iappend`** adds bytes to a file. -/
theorem built_iappend (hb : Built s n) (ht : (n (.ofNat 32 inum)).type ≠ 0) (hp : p ≠ [])
    (h : iappend inum p s = .ok s') : s'.freeinode = s.freeinode ∧
      Built s' (Function.update n (.ofNat 32 inum)
        { n (.ofNat 32 inum) with data := (n (.ofNat 32 inum)).data ++ p }) := by
  obtain ⟨⟨din', s₁⟩, hl, h⟩ := bind_eq_ok.1 h
  cases h
  dsimp only [rinode] at hl ⊢
  set i : Word := .ofNat 32 inum with hi
  set ip : Inode := ⟨s.disk.dinode i, i, 0, true⟩ with hip
  have ho : Owned superblock s.live (Function.update s.disk.dinode i ip.toDinode) := by
    rw [Function.update_eq_self]
    exact hb.image.owned
  obtain ⟨hw, hc, hf, hmax, htail⟩ := appendLoop_writes hb.clear ho hl
  have hmax : ip.size.toNat + p.length ≤ 71680 := hmax hp
  have hpos := List.length_pos_iff.2 hp
  have hlen : (BitVec.ofNat 32 p.length).toNat = p.length := Nat.mod_eq_of_lt (by omega)
  have hsrc : (List.range (BitVec.ofNat 32 p.length).toNat).map (p.getD · 0) = p := by
    rw [hlen]
    exact map_getD_range p
  have hwrote := writeLoop_spec ho hw
  have hsize : din'.size = ip.size := congrArg (fun x : Inode => x.size) hwrote.inode
  have hsum : ip.size + .ofNat 32 p.length = .ofNat 32 (ip.size.toNat + p.length) := by
    rw [BitVec.ofNat_add, BitVec.ofNat_toNat, BitVec.setWidth_eq]
  have hwritten : Written superblock s.disk.dinode ip s.live (p.getD · 0) ip.size (.ofNat 32 p.length)
      (grow ip.size (.ofNat 32 p.length) { ip with toDinode := din' } s₁.live).1
      (grow ip.size (.ofNat 32 p.length) { ip with toDinode := din' } s₁.live).2 :=
    Wrote.written (by rw [hsrc]; exact hwrote) (hb.image.noHoles i) ⟨BitVec.le_refl _, by rw [hlen]; exact hmax⟩
  rw [grow, if_pos ⟨by bv_omega, by show ip.size + .ofNat 32 p.length > din'.size; rw [hsize]; bv_omega⟩, hsum]
    at hwritten
  have hnode : n i = ip.vnode s.live := by rw [← hb.node]; rfl
  have hfull : (ip.content s.live).length = ip.size.toNat := by simp [Dinode.content]
  have hdin : din' = { ip.toDinode with addrs := din'.addrs } := congrArg Inode.toDinode hwrote.inode
  refine ⟨hf.2, hb.put ⟨hc.top, hc.zero⟩ (congrArg (fun f => Function.update f i _) hf.1) ?_ hwritten.rest hwritten.data
    hwritten.noHoles (fun h0 => absurd ?_ ht) ?_ ?_⟩
  · have ho' := hwritten.owned
    rw [← hf.1] at ho'
    exact ho'
  · rw [hnode]
    exact (congrArg Dinode.type hdin).symm.trans h0
  · show Tail s₁.live din' (BitVec.ofNat 32 (ip.size.toNat + p.length)).toNat
    rw [BitVec.toNat_ofNat, Nat.mod_eq_of_lt (by omega)]
    exact htail (hb.tail i)
  · have hcont := hwritten.content
    rw [hsrc, List.take_of_length_le hfull.le, List.drop_of_length_le (by omega), List.append_nil] at hcont
    rw [hnode, Dinode.vnode, hdin]
    exact congrArg (Vnode.mk _ _ _ _) hcont

/-- **`ialloc`** takes the next inode. -/
theorem built_ialloc (hb : Built s n) (h0 : (n (.ofNat 32 s.freeinode)).type = 0) (type : Short) :
    Built (ialloc type s).2 (Function.update n (.ofNat 32 s.freeinode) ⟨type, 0, 0, 1, []⟩) := by
  set i : Word := .ofNat 32 s.freeinode with hi
  set x : Dinode := { type := type, nlink := 1, addrs := fun _ => 0 } with hx
  have hnum : ∀ d pl, x.num d pl = 0 := fun d pl => by cases pl <;> rfl
  have hblock : ∀ d m, x.block d m = 0 := fun d m => by unfold Dinode.block; cases place m <;> simp [hnum]
  have hfree : ∀ pl, (s.disk.dinode i).num s.live pl = 0 := hb.image.free i (by rw [← hb.node] at h0; exact h0)
  exact hb.winode _ (fun pl => (hnum _ pl).trans (hfree pl).symm)
    (fun m hm => absurd hm (Nat.not_lt_zero _)) (fun _ => hnum _) (fun k _ hne => absurd (hblock ..) hne) rfl

end append

/-! ### The inodes of the image -/

/-- An inode that is not in use. -/
abbrev freeNode : Vnode := ⟨0, 0, 0, 0, []⟩

/-- The inodes by their numbers. -/
def table (l : List Vnode) (i : Word) : Vnode := l.getD i.toNat freeNode

theorem table_concat {l : List Vnode} (h : l.length < 2 ^ 32) (v : Vnode) :
    Function.update (table l) (.ofNat 32 l.length) v = table (l ++ [v]) := by
  have hn : (BitVec.ofNat 32 l.length).toNat = l.length := Nat.mod_eq_of_lt h
  funext i
  by_cases hi : i = .ofNat 32 l.length
  · rw [hi, Function.update_self, table, hn]
    simp
  · have hne : i.toNat ≠ l.length := fun he => hi (by rw [← he]; simp)
    rw [Function.update_of_ne hi, table, table]
    by_cases hlt : i.toNat < l.length
    · simp [List.getElem?_append_left hlt]
    · rw [List.getD_eq_default _ _ (by omega), List.getD_eq_default _ _ (by simp; omega)]

theorem table_root (a b v : Vnode) (l : List Vnode) : Function.update (table (a :: b :: l)) 1 v = table (a :: v :: l) := by
  funext i
  by_cases hi : i = 1
  · subst hi
    rfl
  · rw [Function.update_of_ne hi, table, table]
    rcases hn : i.toNat with - | - | k
    · rfl
    · exact absurd (BitVec.eq_of_toNat_eq hn) hi
    · rfl

/-- The entries of the root directory. -/
def rootData (args : List Arg) : List Byte :=
  (newEntry dot 1).toBytes ++ (newEntry dotdot 1).toBytes ++
    (args.mapIdx fun j a => (newEntry a.fileName (.ofNat 32 (j + 2))).toBytes).flatten

/-- The inodes of an image with the given content of the root directory. -/
def inodes (root : List Byte) (args : List Arg) : List Vnode :=
  freeNode :: ⟨T_DIR, 0, 0, 1, root⟩ :: args.map fun a => ⟨T_FILE, 0, 0, 1, a.buffers.flatten⟩

theorem rootData_concat (args : List Arg) (a : Arg) : rootData (args ++ [a]) =
    rootData args ++ (newEntry a.fileName (.ofNat 32 (args.length + 2))).toBytes := by
  simp [rootData, List.mapIdx_concat]

theorem built_entry {x : List Byte} {l : List Vnode} {name : List Byte} {i : Word}
    (hb : Built s (table (freeNode :: ⟨T_DIR, 0, 0, 1, x⟩ :: l)))
    (h : iappend ROOTINO (newEntry name i).toBytes s = .ok s') :
    s'.freeinode = s.freeinode ∧
      Built s' (table (freeNode :: ⟨T_DIR, 0, 0, 1, x ++ (newEntry name i).toBytes⟩ :: l)) := by
  have happ := fun ht => built_iappend hb ht (List.cons_ne_nil _ _) h
  obtain ⟨hi, hb'⟩ := happ (show T_DIR ≠ 0 by decide)
  rw [show BitVec.ofNat 32 ROOTINO = 1 from rfl, table_root] at hb'
  exact ⟨hi, hb'⟩

theorem built_reads {l : List Vnode} (hl : l.length < 2 ^ 32) : ∀ {bufs : List (List Byte)} {x : List Byte} {s : State},
    (∀ buf ∈ bufs, buf ≠ []) → Built s (table (l ++ [⟨T_FILE, 0, 0, 1, x⟩])) →
    bufs.foldlM (fun s buf => iappend l.length buf s) s = .ok s' →
    s'.freeinode = s.freeinode ∧ Built s' (table (l ++ [⟨T_FILE, 0, 0, 1, x ++ bufs.flatten⟩]))
  | [], x, s, _, hb, h => by
    cases h
    rw [List.flatten_nil, List.append_nil]
    exact ⟨rfl, hb⟩
  | buf :: bufs, x, s, hne, hb, h => by
    obtain ⟨s₁, h₁, h⟩ := bind_eq_ok.1 h
    have hself : table (l ++ [⟨T_FILE, 0, 0, 1, x⟩]) (.ofNat 32 l.length) = ⟨T_FILE, 0, 0, 1, x⟩ := by
      rw [← table_concat hl, Function.update_self]
    obtain ⟨hi, hb₁⟩ := built_iappend hb (by rw [hself]; exact fun h => by cases h) (hne buf List.mem_cons_self) h₁
    rw [hself, ← table_concat hl, Function.update_idem, table_concat hl] at hb₁
    obtain ⟨hi', hb'⟩ := built_reads hl (fun b h => hne b (.tail _ h)) hb₁ h
    rw [List.flatten_cons, ← List.append_assoc]
    exact ⟨hi'.trans hi, hb'⟩

/-- The state of `main` after the files `done`. -/
def Filled (done : List Arg) (s : State) : Prop :=
  Built s (table (inodes (rootData done) done)) ∧ s.freeinode = done.length + 2

theorem filled_addFile {done : List Arg} {a : Arg} (hs : Filled done s) (hfit : done.length + 2 < ninodeblocks * IPB)
    (h : addFile s a = .ok s') : Filled (done ++ [a]) s' := by
  obtain ⟨hb, hi⟩ := hs
  set l := inodes (rootData done) done with hl
  have hlen : s.freeinode = l.length := by simp [hl, inodes, hi]
  have hlt : l.length < 2 ^ 32 := by
    rw [← hlen, hi]
    exact hfit.trans (by decide)
  unfold addFile at h
  split at h
  · cases h
  have h0 : (table l (.ofNat 32 s.freeinode)).type = 0 := by
    rw [hlen]
    exact congrArg Vnode.type (List.getD_eq_default _ _ (Nat.mod_eq_of_lt hlt).ge)
  have hb₁ := built_ialloc hb h0 T_FILE
  rw [hlen, table_concat hlt] at hb₁
  have h : (do
      let s₂ ← iappend ROOTINO (newEntry a.fileName (.ofNat 32 s.freeinode)).toBytes (ialloc T_FILE s).2
      a.buffers.foldlM (fun s₂ buf => iappend s.freeinode buf s₂) s₂) = Except.ok s' := h
  rw [hlen] at h
  obtain ⟨s₂, h₂, h⟩ := bind_eq_ok.1 h
  obtain ⟨hi₂, hb₂⟩ := built_entry hb₁ h₂
  rw [← hlen, hi, ← rootData_concat] at hb₂
  have hbufs : ∀ buf ∈ a.buffers, buf ≠ [] := fun buf hm => by simpa using List.mem_takeWhile_imp hm
  obtain ⟨hi₃, hb₃⟩ := built_reads (l := inodes (rootData (done ++ [a])) done) hlt hbufs hb₂ h
  refine ⟨?_, ?_⟩
  · rw [inodes, List.map_append]
    exact hb₃
  · rw [hi₃, hi₂]
    show s.freeinode + 1 = _
    rw [hi, List.length_append]
    rfl

theorem superblock_inData (b : BlockNo) : superblock.inData b ↔ nmeta ≤ b.toNat ∧ b.toNat < FSSIZE := by
  have h : superblock.inData b ↔ b.toNat < 1000 ∧ b ≠ 0 ∧ b ≠ 1 ∧ ¬ (2 ≤ b.toNat ∧ b.toNat < 2 + 30) ∧
      ¬ (32 ≤ b.toNat ∧ b.toNat < 32 + 26) ∧ ¬ (58 ≤ b.toNat ∧ b.toNat < 58 + 1) := Iff.rfl
  rw [h]
  show _ ↔ 59 ≤ b.toNat ∧ b.toNat < 1000
  bv_omega

theorem built_boot : Built .boot (table [freeNode]) := by
  have hnum : ∀ i pl, (State.boot.disk.dinode i).num State.boot.live pl = 0 := fun i pl => by cases pl <;> rfl
  refine ⟨⟨by decide, fun _ _ => rfl⟩, ⟨⟨fun i pl h => absurd (hnum i pl) h, fun {i j pl pl'} h => absurd (hnum i pl) h,
    fun b hb hu => ?_, fun i pl h => absurd (hnum i pl) h, fun b hlt hb => ?_⟩, fun i m hm => absurd hm (Nat.not_lt_zero _),
    fun i _ => hnum i⟩, fun i k _ hne => ?_, funext fun i => ?_⟩
  · exact absurd (of_decide_eq_true hu) (Nat.not_lt.2 ((superblock_inData b).1 hb).1)
  · rw [superblock_inData] at hb
    exact decide_eq_true (Nat.lt_of_not_le fun hle => hb ⟨hle, hlt⟩)
  · obtain ⟨pl, -, hpl⟩ := place_of_block hne
    exact absurd (hpl.trans (hnum i pl)) hne
  · show freeNode = [freeNode].getD i.toNat freeNode
    cases i.toNat <;> rfl

/-- **The loop of `main`**, for as many files as there is room for. -/
theorem filled_build {args : List Arg} (hfit : args.length + 2 ≤ ninodeblocks * IPB) (h : build args = .ok s') :
    Filled args s' := by
  have hfold : ∀ {args done : List Arg} {s : State}, done.length + args.length + 2 ≤ ninodeblocks * IPB →
      Filled done s → args.foldlM addFile s = .ok s' → Filled (done ++ args) s' := fun {args} => by
    induction args with
    | nil =>
      intro done s _ hs h
      cases h
      rwa [List.append_nil]
    | cons a args ih =>
      intro done s hfit hs h
      rw [List.length_cons] at hfit
      obtain ⟨s₁, h₁, h⟩ := bind_eq_ok.1 h
      rw [List.append_cons]
      refine ih ?_ (filled_addFile hs (by omega) h₁) h
      rw [List.length_append, List.length_singleton]
      omega
  have hb₁ := built_ialloc built_boot rfl T_DIR
  obtain ⟨s₂, h₂, h⟩ := bind_eq_ok.1 h
  obtain ⟨s₃, h₃, h⟩ := bind_eq_ok.1 h
  have hb₁ : Built (ialloc T_DIR .boot).2 (table [freeNode, ⟨T_DIR, 0, 0, 1, []⟩]) := by
    rw [← List.singleton_append, ← table_concat (by decide)]
    exact hb₁
  obtain ⟨hi₂, hb₂⟩ := built_entry hb₁ h₂
  obtain ⟨hi₃, hb₃⟩ := built_entry hb₂ h₃
  refine @hfold args [] s₃ (by rw [List.length_nil]; omega) ⟨?_, by rw [hi₃, hi₂]; rfl⟩ h
  rw [rootData, List.mapIdx_nil, List.flatten_nil, List.append_nil]
  exact hb₃

theorem marks (used : ℕ) (h : used ≤ FSSIZE) : (List.range used).foldl
    (fun (u : BlockNo → Bool) i => Function.update u (.ofNat 32 i) true) (fun _ => false) =
      fun b => decide (b.toNat < used) := by
  induction used with
  | zero => rfl
  | succ n ih =>
    rw [List.range_succ, List.foldl_append, ih (Nat.le_of_succ_le h)]
    exact mark_next (Nat.le_of_succ_le h)

theorem rootData_length (args : List Arg) : (rootData args).length = DIRENT * (args.length + 2) := by
  have hlen : ∀ name i, (newEntry name i).toBytes.length = DIRENT := fun name i => Dirent.toBytes_length (newEntry_full ..)
  induction args using List.reverseRecOn with
  | nil =>
    simp [rootData, hlen]
    rfl
  | append_singleton args a ih =>
    rw [rootData_concat, List.length_append, ih, hlen, List.length_append]
    rfl

section main

variable {args : List Arg}

theorem main_build (hfit : args.length + 2 ≤ ninodeblocks * IPB) (h : main args = .ok s') :
    ∃ s, Filled args s ∧ (s.disk.dinode 1).content s.live = rootData args ∧
    s'.disk = { s.live with dinode := Function.update s.disk.dinode 1 { s.disk.dinode 1 with
      size := .ofNat 32 ((DIRENT * (args.length + 2) / BSIZE + 1) * BSIZE) } } := by
  obtain ⟨s, hs, h⟩ := bind_eq_ok.1 h
  have hf := filled_build hfit hs
  have hcont : (s.disk.dinode 1).content s.live = rootData args := congrArg (fun n => (n 1).data) hf.1.node
  have hlen := congrArg List.length hcont
  rw [rootData_length, Dinode.content, List.length_map, List.length_range] at hlen
  refine ⟨s, hf, hcont, ?_⟩
  rw [← hlen]
  cases (if_pos (hf.1.clear.top.trans_lt (by decide))).symm.trans h
  show ({ s.disk with dinode := _, used := (List.range s.freeblock).foldl _ _ } : Disk) = _
  rw [marks _ hf.1.clear.top]
  rfl

theorem root_size {n : Word → Vnode} (hb : Built s n) (h : (s.disk.dinode 1).content s.live = rootData args) :
    (s.disk.dinode 1).size.toNat = DIRENT * (args.length + 2) ∧
      (BitVec.ofNat 32 ((DIRENT * (args.length + 2) / BSIZE + 1) * BSIZE)).toNat =
        (DIRENT * (args.length + 2) / BSIZE + 1) * BSIZE := by
  have hsize : (s.live.dinode 1).size.toNat = 16 * (args.length + 2) := by
    show (s.disk.dinode 1).size.toNat = DIRENT * (args.length + 2)
    rw [← rootData_length, ← h, Dinode.content, List.length_map, List.length_range]
  -- the last byte is in one of the blocks of a file
  have hlast := (hb.image.noHoles 1).block (show 16 * (args.length + 2) - 1 < _ by omega)
  obtain ⟨pl, hpl, -⟩ := place_of_block hlast
  have hlt : (16 * (args.length + 2) - 1) / 512 < 140 := place_lt hpl
  refine ⟨hsize, Nat.mod_eq_of_lt ?_⟩
  show (16 * (args.length + 2) / 512 + 1) * 512 < 2 ^ 32
  omega

/-- **The image that `mkfs` writes** is in order for the kernel, and holds the files under their inode numbers, where
the blocks of inodes have room for them and the root directory does not end with a block. -/
theorem main_image (hfit : args.length + 2 ≤ ninodeblocks * IPB) (h : main args = .ok s')
    (hpad : (args.length + 2) % 32 ≠ 0) : Image superblock s'.disk ∧
    s'.disk.node = table (inodes (rootData args ++
      List.replicate (BSIZE - DIRENT * (args.length + 2) % BSIZE) 0) args) := by
  obtain ⟨s, ⟨hb, -⟩, hcont, hd⟩ := main_build hfit h
  obtain ⟨hsize, hword⟩ := root_size hb hcont
  have hmod : DIRENT * (args.length + 2) % BSIZE ≠ 0 := by
    show 16 * (args.length + 2) % 512 ≠ 0
    omega
  obtain ⟨h₁, h₂, h₃, h₄, -⟩ := Vnode.mk.inj (congrFun hb.node 1)
  set off := DIRENT * (args.length + 2)
  set din := s.disk.dinode 1
  set new := (off / BSIZE + 1) * BSIZE with hnew
  have hdiv := Nat.div_add_mod off BSIZE
  have hlt : off % BSIZE < BSIZE := Nat.mod_lt _ (by decide)
  have hsum : new = off + (BSIZE - off % BSIZE) := by rw [hnew, Nat.mul_comm, Nat.mul_succ]; omega
  have hpres : ∀ k, k < new → din.block s.live (k / BSIZE) ≠ 0 := fun k hk => by
    have hle : k / BSIZE ≤ off / BSIZE := Nat.le_of_lt_succ (Nat.div_lt_of_lt_mul (by rwa [Nat.mul_comm]))
    have hmul := Nat.mul_le_mul_left BSIZE hle
    exact hb.image.noHoles 1 _ (by show _ < din.size.toNat; rw [Nat.mul_comm, hsize]; omega)
  have hput := hb.winode (i := 1) (x := { din with size := .ofNat 32 new })
    (v := ⟨T_DIR, 0, 0, 1, rootData args ++ List.replicate (BSIZE - off % BSIZE) 0⟩) s.freeinode
    (fun pl => by cases pl <;> rfl) (fun m hm => ?_) (fun h0 => ?_) (fun k hk hne => ?_) ?_
  · rw [hd]
    exact ⟨hput.image, hput.node.trans (table_root ..)⟩
  · have := hpres (m * BSIZE) (hword ▸ hm)
    rwa [Nat.mul_div_cancel _ (by decide)] at this
  · cases h₁.symm.trans h0
  · rw [hword] at hk
    have hbegin : k / BSIZE * BSIZE < din.size.toNat := (hb.tail 1 k (by show din.size.toNat ≤ k; omega) hne).1
    have hle := Nat.mul_le_mul_right BSIZE ((Nat.le_div_iff_mul_le (by decide)).2 hk)
    omega
  · have hzero : ∀ k ∈ List.range (BSIZE - off % BSIZE), (din.byteAt s.live ∘ (off + ·)) k = 0 := fun k hk =>
      (hb.tail 1 (off + k) (hsize ▸ Nat.le_add_right ..) (hpres (off + k) (by have := List.mem_range.1 hk; omega))).2
    have hdata : (List.range (BitVec.ofNat 32 new).toNat).map (din.byteAt s.live) =
        rootData args ++ List.replicate (BSIZE - off % BSIZE) 0 := by
      rw [hword, hsum, List.range_add, List.map_append, List.map_map, List.map_eq_replicate_iff.2 hzero,
        List.length_range, ← hcont, Dinode.content, hsize]
    exact (Vnode.mk.injEq ..).mpr ⟨h₁, h₂, h₃, h₄, hdata⟩

/-- One file of two bytes. -/
theorem main_image_one : ∃ s, main [⟨[0x5f, 0x78], [[0x79, 0x7a]]⟩] = .ok s ∧
    s.disk.node 2 = ⟨T_FILE, 0, 0, 1, [0x79, 0x7a]⟩ := by
  have hok : (main [⟨[0x5f, 0x78], [[0x79, 0x7a]]⟩]).toBool = true := by decide +kernel
  cases hx : main [⟨[0x5f, 0x78], [[0x79, 0x7a]]⟩] with
  | error e =>
    rw [hx] at hok
    cases hok
  | ok s => exact ⟨s, rfl, by rw [(main_image (by decide) hx (by decide)).2]; rfl⟩

end main

end Xv6.Mkfs
