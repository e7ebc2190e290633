import Mathlib.Data.List.TakeWhile
import Xv6.Fs.DirSpec
import Xv6.Lib.Count

/-!
# Path lookup

`namex` goes through a path element by element and looks each of them up in the directory that it has come to.
It gives back the references that it takes on its way: the number of references to an inode is a sum over the
inode cache, and a lookup adds one to that of the inode it returns. It frees nothing, since an inode without links
that it meets is in use by someone else. It locks one inode at a time, and waits for no lock that it holds.
-/

namespace Xv6.Fs

open Lib

/-- `iget` finds no entry of the cache that is not in use. -/
abbrev noInodes : Fault := .panic "iget: no inodes"

/-! ### References -/

/-- The references that an entry of the cache has to the inode `i`. -/
def Cached.refs (i : Word) (e : Cached) : ℕ := if e.inum = i then e.ref.toNat else 0

namespace Store

def refs (s : Store) (i : Word) : ℕ := ∑ k, (s.slot k).refs i

def inUse (s : Store) : Finset Slot := Finset.univ.filter fun k => 0 < (s.slot k).ref

theorem setNode_self (s : Store) (i : Word) (x : Vnode) : (s.setNode i x).node i = x := Function.update_self ..

theorem setLock_self (s : Store) (k : Slot) (b : Bool) : (s.setLock k b).lock k = b := Function.update_self ..

theorem setSlot_self (s : Store) (k : Slot) (e : Cached) : (s.setSlot k e).slot k = e := Function.update_self ..

theorem setSlot_of_ne (s : Store) {k k' : Slot} (e : Cached) (h : k' ≠ k) : (s.setSlot k e).slot k' = s.slot k' :=
  Function.update_of_ne h ..

theorem refs_setSlot (s : Store) (k : Slot) (e : Cached) (i : Word) :
    (s.setSlot k e).refs i + (s.slot k).refs i = s.refs i + e.refs i :=
  sum_update (Cached.refs i) s.slot k e

end Store

/-- The inode cache is in order. -/
structure CacheOk (s : Store) : Prop where
  nonneg : ∀ k, 0 ≤ (s.slot k).ref
  once : ∀ {k k'}, 0 < (s.slot k).ref → 0 < (s.slot k').ref → (s.slot k).inum = (s.slot k').inum → k = k'
  typed : ∀ k, 0 < (s.slot k).ref → (s.slot k).valid = true → (s.node (s.slot k).inum).type ≠ 0
  locked : ∀ k, s.lock k = true → 0 < (s.slot k).ref

/-- **A file system in order**: the directories are, what they name is allocated, and so is the root; an inode
without links is in use. -/
structure Tree (s : Store) : Prop where
  cache : CacheOk s
  kept : ∀ i, (s.node i).type ≠ 0 → (s.node i).nlink = 0 → 0 < s.refs i
  dirs : ∀ i, (s.node i).type = T_DIR → DirOk i (s.node i).data
  small : ∀ i, (s.node i).data.length ≤ MAXFILE * BSIZE
  root : (s.node (.ofNat 32 ROOTINO)).type ≠ 0
  live : ∀ i, (s.node i).type = T_DIR → ∀ j, (entry (s.node i).data j).inum ≠ 0 →
    (s.node ((entry (s.node i).data j).inum.setWidth 32)).type ≠ 0

section references

variable {s s₀ s' : Store} {k : Slot} {i : Word} {f : Slot → Bool} {l l' : List (Slot × Word)} {e : Cached}

/-- The references to an inode are those of the one entry that holds it. -/
theorem CacheOk.refs (hc : CacheOk s) (hk : 0 < (s.slot k).ref) :
    s.refs (s.slot k).inum = (s.slot k).ref.toNat := by
  refine (Finset.sum_eq_single k (fun k' _ hne => ?_) fun h => absurd (Finset.mem_univ k) h).trans (if_pos rfl)
  unfold Cached.refs
  split
  · rename_i he
    have h0 : ¬ 0 < (s.slot k').ref := fun hk' => hne (hc.once hk' hk he)
    have := hc.nonneg k'
    omega
  · rfl

theorem exists_of_refs (h : 0 < s.refs i) : ∃ k ∈ s.inUse, (s.slot k).inum = i := by
  obtain ⟨k, -, hk⟩ := Finset.exists_ne_zero_of_sum_ne_zero h.ne'
  unfold Cached.refs at hk
  split at hk
  · rename_i he
    exact ⟨k, Finset.mem_filter.2 ⟨Finset.mem_univ k, by omega⟩, he⟩
  · exact absurd rfl hk

/-- **A state inside of a lookup** that began in `s₀`: the code has the references `l`, and the locks are `f`. -/
structure Holds (s₀ : Store) (f : Slot → Bool) (l : List (Slot × Word)) (s : Store) : Prop where
  node : s.node = s₀.node
  cache : CacheOk s
  refs : ∀ i, s.refs i = s₀.refs i + (l.map Prod.snd).count i
  held : ∀ x ∈ l, (s.slot x.1).inum = x.2 ∧ 0 < (s.slot x.1).ref
  lock : s.lock = f

theorem Holds.nil (hc : CacheOk s) : Holds s s.lock [] s :=
  ⟨rfl, hc, fun _ => by simp, fun _ hx => absurd hx List.not_mem_nil, rfl⟩

theorem Holds.perm (h : Holds s₀ f l s) (hl : l.Perm l') : Holds s₀ f l' s :=
  ⟨h.node, h.cache, fun i => by rw [h.refs, (hl.map Prod.snd).count_eq], fun x hx => h.held x (hl.mem_iff.2 hx),
    h.lock⟩

/-- A lock of an inode that is in use is taken, or released. -/
theorem Holds.setLock (h : Holds s₀ f l s) (hk : 0 < (s.slot k).ref) (b : Bool) :
    Holds s₀ (Function.update f k b) l (s.setLock k b) := by
  refine ⟨h.node, ⟨h.cache.nonneg, h.cache.once, h.cache.typed, fun k' hk' => ?_⟩, h.refs, h.held, ?_⟩
  · by_cases he : k' = k
    · rw [he]
      exact hk
    · have hk' : Function.update s.lock k b k' = true := hk'
      rw [Function.update_of_ne he] at hk'
      exact h.cache.locked k' hk'
  · rw [← h.lock]
    rfl

theorem Holds.setSlot (h : Holds s₀ f l s) (hr : 0 ≤ e.ref)
    (hnew : 0 < e.ref → ∀ k', k' ≠ k → 0 < (s.slot k').ref → (s.slot k').inum ≠ e.inum)
    (ht : 0 < e.ref → e.valid = true → (s.node e.inum).type ≠ 0)
    (hcount : ∀ i, e.refs i + (l.map Prod.snd).count i = (s.slot k).refs i + (l'.map Prod.snd).count i)
    (hheld : ∀ x ∈ l', x ∈ l ∧ (x.1 = k → 0 < e.ref) ∨ x = (k, e.inum) ∧ 0 < e.ref)
    (hstay : 0 < (s.slot k).ref → e.inum = (s.slot k).inum) (hlock : f k = true → 0 < e.ref) :
    Holds s₀ f l' (s.setSlot k e) := by
  have hself := s.setSlot_self k e
  have hrest := fun k' (hk : k' ≠ k) => s.setSlot_of_ne e hk
  refine ⟨h.node, ⟨fun k' => ?_, fun {k₁ k₂} h₁ h₂ he => ?_, fun k' h₁ hv => ?_, fun k' hk' => ?_⟩, fun i => ?_,
    fun x hx => ?_, h.lock⟩
  · by_cases hk : k' = k
    · rw [hk, hself]
      exact hr
    · rw [hrest k' hk]
      exact h.cache.nonneg k'
  · by_cases hk₁ : k₁ = k <;> by_cases hk₂ : k₂ = k
    · exact hk₁.trans hk₂.symm
    · rw [hk₁, hself] at h₁ he
      rw [hrest k₂ hk₂] at h₂ he
      exact absurd he.symm (hnew h₁ k₂ hk₂ h₂)
    · rw [hk₂, hself] at h₂ he
      rw [hrest k₁ hk₁] at h₁ he
      exact absurd he (hnew h₂ k₁ hk₁ h₁)
    · rw [hrest k₁ hk₁] at h₁ he
      rw [hrest k₂ hk₂] at h₂ he
      exact h.cache.once h₁ h₂ he
  · by_cases hk : k' = k
    · rw [hk, hself] at h₁ hv ⊢
      exact ht h₁ hv
    · rw [hrest k' hk] at h₁ hv ⊢
      exact h.cache.typed k' h₁ hv
  · have hf : s.lock k' = true := hk'
    by_cases hk : k' = k
    · rw [hk, hself]
      rw [h.lock, hk] at hf
      exact hlock hf
    · rw [hrest k' hk]
      exact h.cache.locked k' hf
  · have h₁ := s.refs_setSlot k e i
    have h₂ := h.refs i
    have h₃ := hcount i
    omega
  · rcases hheld x hx with ⟨hl, hp⟩ | ⟨rfl, hp⟩
    · obtain ⟨hi, hpos⟩ := h.held x hl
      by_cases hk : x.1 = k
      · rw [hk] at hi hpos ⊢
        rw [hself, hstay hpos]
        exact ⟨hi, hp hk⟩
      · rw [hrest x.1 hk]
        exact ⟨hi, hpos⟩
    · rw [hself]
      exact ⟨rfl, hp⟩

theorem Holds.more (h : Holds s₀ f l s) (hk : 0 < (s.slot k).ref) :
    Holds s₀ f ((k, (s.slot k).inum) :: l) (s.setSlot k { s.slot k with ref := (s.slot k).ref + 1 }) := by
  have hpos : 0 < (s.slot k).ref + 1 := by omega
  refine h.setSlot hpos.le (fun _ k' hne hr he => hne (h.cache.once hr hk he)) (fun _ => h.cache.typed k hk)
    (fun i => ?_) (fun x hx => ?_) (fun _ => rfl) fun _ => hpos
  · rw [List.map_cons, List.count_cons]
    unfold Cached.refs
    simp only [beq_iff_eq]
    split <;> omega
  · rcases List.mem_cons.1 hx with rfl | hx
    · exact .inr ⟨rfl, hpos⟩
    · exact .inl ⟨hx, fun _ => hpos⟩

/-- A lookup that finds the cache full: all entries are in use, by others or by itself. -/
theorem Holds.full (h : Holds s₀ f l s) (hall : ∀ k, 0 < (s.slot k).ref) : NINODE ≤ s₀.inUse.card + l.length := by
  have hsub : Finset.univ.image (fun k => (s.slot k).inum) ⊆
      s₀.inUse.image (fun k => (s₀.slot k).inum) ∪ (l.map Prod.snd).toFinset := by
    intro i hi
    obtain ⟨k, -, rfl⟩ := Finset.mem_image.1 hi
    have hrefs := h.refs (s.slot k).inum
    rw [h.cache.refs (hall k)] at hrefs
    have := hall k
    rw [Finset.mem_union, List.mem_toFinset]
    by_cases h0 : 0 < s₀.refs (s.slot k).inum
    · obtain ⟨k₀, hk₀, he⟩ := exists_of_refs h0
      exact .inl (Finset.mem_image.2 ⟨k₀, hk₀, he⟩)
    · exact .inr (List.count_pos_iff.1 (by omega))
  have hinj : (Finset.univ.image fun k => (s.slot k).inum).card = NINODE := by
    rw [Finset.card_image_of_injective _ fun k k' he => h.cache.once (hall k) (hall k') he]
    exact Finset.card_fin NINODE
  have h₁ := Finset.card_le_card hsub
  have h₂ := Finset.card_union_le (s₀.inUse.image fun k => (s₀.slot k).inum) (l.map Prod.snd).toFinset
  have h₃ : (s₀.inUse.image fun k => (s₀.slot k).inum).card ≤ s₀.inUse.card := Finset.card_image_le
  have h₄ := List.toFinset_card_le (l.map Prod.snd)
  rw [List.length_map] at h₄
  omega

end references

/-! ### The operations of a lookup -/

section operations

variable {s₀ : Store} {k : Slot} {i : Word} {f : Slot → Bool} {l : List (Slot × Word)} {ninodes : Word}
  {devsw : Fin NDEV → Bool} {E : Fault → Prop}

theorem holds_iget (hE : NINODE ≤ s₀.inUse.card + l.length → E noInodes) (i : Word) :
    Cmd.After (storeLayer ninodes devsw) (Holds s₀ f l) (Code.iget i) (fun k => Holds s₀ f ((k, i) :: l)) E := by
  intro s h
  rw [run_iget]
  unfold Store.iget
  cases hf : (List.finRange NINODE).find? fun k => 0 < (s.slot k).ref ∧ (s.slot k).inum = i with
  | some k =>
    have hk := List.find?_some hf
    simp only [decide_eq_true_eq] at hk
    obtain ⟨hk, rfl⟩ := hk
    exact h.more hk
  | none =>
    have hnone : ∀ k, 0 < (s.slot k).ref → (s.slot k).inum ≠ i := fun k hk he =>
      absurd (decide_eq_true ⟨hk, he⟩) (List.find?_eq_none.1 hf k (List.mem_finRange k))
    dsimp only
    cases hf' : (List.finRange NINODE).find? fun k => (s.slot k).ref = 0 with
    | some k =>
      have h0 : (s.slot k).ref = 0 := by simpa using List.find?_some hf'
      refine h.setSlot zero_le_one (fun _ k' _ => hnone k') (fun _ hv => by cases hv) (fun j => ?_) (fun x hx => ?_)
        (fun hk => by omega) fun _ => zero_lt_one
      · rw [List.map_cons, List.count_cons]
        unfold Cached.refs
        simp only [beq_iff_eq, h0]
        split <;> simp [Nat.add_comm]
      · rcases List.mem_cons.1 hx with rfl | hx
        · exact .inr ⟨rfl, zero_lt_one⟩
        · exact .inl ⟨hx, fun _ => zero_lt_one⟩
    | none =>
      refine hE (h.full fun k => ?_)
      have h0 : (s.slot k).ref ≠ 0 := fun h0 =>
        absurd (decide_eq_true h0) (List.find?_eq_none.1 hf' k (List.mem_finRange k))
      have := h.cache.nonneg k
      omega

theorem holds_ilock (hk : (k, i) ∈ l) (ht : (s₀.node i).type ≠ 0) (hf : f k = false) :
    Cmd.After (storeLayer ninodes devsw) (Holds s₀ f l) (Code.ilock k)
      (fun _ s => Holds s₀ (Function.update f k true) l s ∧ s.locked k = .ok i) E := by
  intro s h
  obtain ⟨hi, hpos⟩ := h.held _ hk
  dsimp only at hi hpos
  have hfree : ¬ s.lock k = true := by rw [h.lock, hf]; exact Bool.false_ne_true
  rw [run_ilock, Store.ilock, if_neg (show ¬ (s.slot k).ref < 1 by omega), if_neg hfree]
  by_cases hv : (s.slot k).valid = true
  · rw [if_pos hv]
    refine ⟨h.setLock hpos true, ?_⟩
    rw [Store.locked, if_pos ⟨s.setLock_self k true, hpos, hv⟩]
    exact congrArg Except.ok hi
  · rw [if_neg hv, h.node, hi, if_neg ht]
    have hset : Holds s₀ f l (s.setSlot k { s.slot k with valid := true }) := by
      refine h.setSlot hpos.le (fun _ k' hne hr he => hne (h.cache.once hr hpos he)) (fun _ _ => ?_) (fun _ => rfl)
        (fun x hx => .inl ⟨hx, fun _ => hpos⟩) (fun _ => rfl) fun _ => hpos
      rw [h.node, hi]
      exact ht
    have hself := s.setSlot_self k { s.slot k with valid := true }
    have hpos' : 0 < ((s.setSlot k { s.slot k with valid := true }).slot k).ref := by rw [hself]; exact hpos
    refine ⟨hset.setLock hpos' true, ?_⟩
    rw [Store.locked, if_pos ⟨Store.setLock_self _ k true, hpos', congrArg Cached.valid hself⟩]
    exact congrArg Except.ok ((congrArg Cached.inum hself).trans hi)

theorem holds_iunlock (hk : (k, i) ∈ l) :
    Cmd.After (storeLayer ninodes devsw) (Holds s₀ (Function.update f k true) l) (Code.iunlock k)
      (fun _ => Holds s₀ (Function.update f k false) l) E := by
  intro s h
  obtain ⟨-, hpos⟩ := h.held _ hk
  dsimp only at hpos
  have hlock : s.lock k = true := by rw [h.lock, Function.update_self]
  rw [run_iunlock, Store.iunlock, if_neg (by rw [hlock]; rintro (h | h) <;> [cases h; omega])]
  have := h.setLock hpos false
  rwa [Function.update_idem] at this

theorem holds_iput (hkept : (s₀.node i).type ≠ 0 → (s₀.node i).nlink = 0 → 0 < s₀.refs i) (hf : f k = false) :
    Cmd.After (storeLayer ninodes devsw) (Holds s₀ f ((k, i) :: l)) (Code.iput k) (fun _ => Holds s₀ f l) E := by
  intro s h
  obtain ⟨hi, hpos⟩ := h.held _ List.mem_cons_self
  dsimp only at hi hpos
  have hrefs := h.refs i
  have hfree : ¬ s.lock k = true := by rw [h.lock, hf]; exact Bool.false_ne_true
  rw [← hi, h.cache.refs hpos, hi, List.map_cons, List.count_cons_self] at hrefs
  rw [run_iput, Store.iput]
  dsimp only
  rw [if_neg (show ¬ (s.slot k).ref < 1 by omega), if_neg hfree, if_neg]
  · refine h.setSlot (show 0 ≤ (s.slot k).ref - 1 by omega)
      (fun _ k' hne hr he => hne (h.cache.once hr hpos he)) (fun _ => h.cache.typed k hpos) (fun j => ?_)
      (fun x hx => .inl ⟨List.mem_cons_of_mem _ hx, fun hxk => ?_⟩) (fun _ => rfl) fun hk => absurd (hk.symm.trans hf) nofun
    · rw [List.map_cons, List.count_cons]
      unfold Cached.refs
      simp only [beq_iff_eq, hi]
      split <;> omega
    · -- another reference to the same inode
      have hx2 : x.2 = i := by rw [← (h.held x (List.mem_cons_of_mem _ hx)).1, hxk, hi]
      have hcount : 0 < (l.map Prod.snd).count i := List.count_pos_iff.2 (hx2 ▸ List.mem_map_of_mem hx)
      show 0 < (s.slot k).ref - 1
      omega
  · rintro ⟨hv, h0, h1⟩
    have ht := h.cache.typed k hpos hv
    rw [h.node, hi] at ht h0
    have := hkept ht h0
    omega

/-- `iput` waits for a lock that is held. -/
theorem holds_iput_waits (hf : f k = true) (hE : E .deadlock) :
    Cmd.After (storeLayer ninodes devsw) (Holds s₀ f ((k, i) :: l)) (Code.iput k) (fun _ _ => False) E := by
  intro s h
  obtain ⟨-, hpos⟩ := h.held _ List.mem_cons_self
  dsimp only at hpos
  have hlock : s.lock k = true := by rw [h.lock, hf]
  rw [run_iput, Store.iput]
  dsimp only
  rw [if_neg (show ¬ (s.slot k).ref < 1 by omega), if_pos hlock]
  exact hE

theorem holds_iunlockput (hkept : (s₀.node i).type ≠ 0 → (s₀.node i).nlink = 0 → 0 < s₀.refs i) (hf : f k = false) :
    Cmd.After (storeLayer ninodes devsw) (Holds s₀ (Function.update f k true) ((k, i) :: l)) (Code.iunlockput k)
      (fun _ => Holds s₀ f l) E := by
  have hsame : Function.update f k false = f := Function.update_eq_self_iff.2 hf.symm
  refine (holds_iunlock List.mem_cons_self).bind fun _ => ?_
  rw [hsame]
  exact holds_iput hkept hf

theorem holds_dirlookup (hE : NINODE ≤ s₀.inUse.card + l.length → E noInodes) (htree : Tree s₀)
    (hdir : (s₀.node i).type = T_DIR) (name : List Byte) :
    Cmd.After (storeLayer ninodes devsw) (fun s => Holds s₀ f l s ∧ s.locked k = .ok i) (Code.dirlookup k name)
      (fun r s => match r with
        | none => target (s₀.node i).data name = none ∧ Holds s₀ f l s
        | some (k', _) => ∃ i', target (s₀.node i).data name = some i' ∧ (s₀.node i').type ≠ 0 ∧
          Holds s₀ f ((k', i') :: l) s) E := by
  rintro s ⟨h, hlock⟩
  have hl : Locked s k i (s₀.node i).data := by
    refine ⟨hlock, ?_, ?_, (htree.dirs i hdir).size, htree.small i⟩ <;> rw [h.node]
    exact hdir
  rw [hl.run_dirlookup]
  cases hlk : lookup (s₀.node i).data name with
  | none => exact ⟨by rw [target, hlk]; rfl, h⟩
  | some j =>
    dsimp only
    have hget : Cmd.After (storeLayer ninodes devsw) (Holds s₀ f l) (Code.iget _) _ E :=
      holds_iget hE ((entry (s₀.node i).data j).inum.setWidth 32)
    have hget := hget h
    rw [run_iget] at hget
    cases hg : s.iget ((entry (s₀.node i).data j).inum.setWidth 32) with
    | error e =>
      rw [hg] at hget
      exact hget
    | ok x =>
      rw [hg] at hget
      exact ⟨_, by rw [target, hlk]; rfl, htree.live i hdir j (lookup_some hlk).2.1, hget⟩

end operations

/-! ### Paths -/

/-- The elements of a path: the longest pieces without a slash, of each no more than `DIRSIZ` bytes. -/
def components (path : List Byte) : List (List Byte) :=
  ((path.splitOn slash).filter (· ≠ [])).map (List.take DIRSIZ)

def walk (n : Word → Vnode) : Word → List (List Byte) → Option Word
  | i, [] => some i
  | i, name :: names =>
    if (n i).type = T_DIR then (target (n i).data name).bind fun i' => walk n i' names else none

/-- The directory that all names but the last one lead to, with the last one. -/
def walkParent (n : Word → Vnode) (i : Word) (names : List (List Byte)) : Option (Word × List Byte) :=
  names.getLast?.bind fun name =>
    ((walk n i names.dropLast).filter fun i' => (n i').type = T_DIR).map fun i' => (i', name)

/-- The inode that a path starts from, for a process in the directory `cwd`. -/
def startOf (cwd : Word) (path : List Byte) : Word := if path.head? = some slash then .ofNat 32 ROOTINO else cwd

section paths

variable {path name rest : List Byte}

theorem components_slash (path : List Byte) : components (slash :: path) = components path := by
  unfold components
  rw [show slash :: path = [] ++ slash :: path from rfl,
    List.splitOn_append_cons_self_of_not_mem List.not_mem_nil, List.filter_cons_of_neg (by simp)]

theorem components_dropWhile (path : List Byte) : components (path.dropWhile (· = slash)) = components path := by
  induction path with
  | nil => rfl
  | cons c path ih =>
    by_cases hc : c = slash
    · rw [List.dropWhile_cons_of_pos (by simpa using hc), ih, hc, components_slash]
    · rw [List.dropWhile_cons_of_neg (by simpa using hc)]

theorem components_element (hne : name ≠ []) (hs : slash ∉ name) :
    components (name ++ path.dropWhile (· ≠ slash)) = name.take DIRSIZ :: components (path.dropWhile (· ≠ slash)) := by
  cases h : path.dropWhile (· ≠ slash) with
  | nil =>
    unfold components
    rw [List.append_nil, List.splitOn_eq_singleton hs, List.filter_cons_of_pos (by simpa using hne)]
    rfl
  | cons c rest =>
    have hc : c = slash := by
      have := List.head?_dropWhile_not (fun c => decide (c ≠ slash)) path
      rw [h] at this
      simpa using this
    rw [hc, components_slash]
    unfold components
    rw [List.splitOn_append_cons_self_of_not_mem hs, List.filter_cons_of_pos (by simpa using hne)]
    rfl

theorem components_of_ne (hne : path ≠ []) (hh : path.head? ≠ some slash) :
    components path = (path.takeWhile (· ≠ slash)).take DIRSIZ :: components (path.dropWhile (· ≠ slash)) := by
  have hname : path.takeWhile (· ≠ slash) ≠ [] := by
    cases path with
    | nil => exact absurd rfl hne
    | cons c path =>
      have hc : c ≠ slash := fun hc => hh (by rw [hc]; rfl)
      rw [List.takeWhile_cons_of_pos (by simpa using hc)]
      exact List.cons_ne_nil _ _
  have hs : slash ∉ path.takeWhile (· ≠ slash) := fun hm => by simpa using List.mem_takeWhile_imp hm
  rw [← components_element hname hs, List.takeWhile_append_dropWhile]

/-- **`skipelem`** takes the first element of a path off. -/
theorem skipelem_components : match skipelem path with
    | none => components path = []
    | some (name, rest) => components path = name :: components rest ∧ (components rest = [] ↔ rest = []) := by
  have hhead : ∀ p : List Byte, (p.dropWhile (· = slash)).head? ≠ some slash := fun p h => by
    have := List.head?_dropWhile_not (fun c => decide (c = slash)) p
    rw [h] at this
    simp at this
  have hnil : components [] = [] := by decide
  unfold skipelem
  dsimp only
  by_cases h : path.dropWhile (· = slash) = []
  · rw [if_pos h]
    dsimp only
    rw [← components_dropWhile, h, hnil]
  · rw [if_neg h]
    dsimp only
    refine ⟨?_, fun hc => by_contra fun hne => ?_, fun hr => by rw [hr, hnil]⟩
    · rw [components_dropWhile, ← components_dropWhile path, components_of_ne h (hhead path)]
    · rw [components_of_ne hne (hhead _)] at hc
      cases hc

end paths

/-! ### The lookup -/

/-- What the lookup of the names from the inode `i` on is to find: the last inode, or the one before it with the
last name. -/
def resolve (n : Word → Vnode) (parent : Bool) (i : Word) (names : List (List Byte)) : Option (Word × List Byte) :=
  if parent then walkParent n i names else (walk n i names).map fun i' => (i', [])

theorem resolve_nil (n : Word → Vnode) (parent : Bool) (i : Word) :
    resolve n parent i [] = if parent then none else some (i, []) := rfl

theorem resolve_cons (n : Word → Vnode) (parent : Bool) (i : Word) (name : List Byte) (names : List (List Byte)) :
    resolve n parent i (name :: names) = if (n i).type ≠ T_DIR then none
      else if parent ∧ names = [] then some (i, name)
      else (target (n i).data name).bind fun i' => resolve n parent i' names := by
  by_cases hd : (n i).type = T_DIR
  · rw [if_neg (not_not.2 hd)]
    cases parent with
    | false =>
      simp only [resolve, walk, if_pos hd, Bool.false_eq_true, false_and, if_false]
      cases target (n i).data name <;> rfl
    | true =>
      cases names with
      | nil => simp [resolve, walkParent, walk, hd]
      | cons a names =>
        simp only [resolve, walkParent, List.getLast?_cons_cons, List.dropLast_cons_cons, walk, if_pos hd,
          if_true, reduceCtorEq, and_false, if_false]
        cases target (n i).data name with
        | none => cases (a :: names).getLast? <;> rfl
        | some i' => rfl
  · rw [if_pos hd]
    cases parent with
    | false =>
      simp only [resolve, walk, if_neg hd]
      rfl
    | true =>
      cases names with
      | nil =>
        have hd' : ¬ decide ((n i).type = T_DIR) = true := fun h => hd (of_decide_eq_true h)
        simp only [resolve, walkParent, walk, if_true, List.getLast?_singleton, List.dropLast_singleton,
          Option.bind_some, Option.filter_some, if_neg hd']
        rfl
      | cons a names =>
        simp only [resolve, walkParent, List.getLast?_cons_cons, List.dropLast_cons_cons, walk, if_neg hd, if_true]
        cases (a :: names).getLast? <;> rfl

/-- The lookup has come to `x`, and answers `r`. -/
def Found (s₀ : Store) (x : Option (Word × List Byte)) (r : Option (Slot × List Byte)) (s : Store) : Prop :=
  r.map Prod.snd = x.map Prod.snd ∧ Holds s₀ s₀.lock ((r.map Prod.fst).toList.zip (x.map Prod.fst).toList) s

section lookup

variable {s₀ : Store} {ninodes : Word} {devsw : Fin NDEV → Bool} {E : Fault → Prop}
  (hE : NINODE ≤ s₀.inUse.card + 1 → E noInodes) (htree : Tree s₀) (hfree : ∀ k, s₀.lock k = false)

include hE htree hfree

/-- The loop of `namex`, by its turns; it has one reference. -/
theorem holds_namexLoop (parent : Bool) (fuel : ℕ) (k : Slot) (i : Word) (path : List Byte)
    (hfuel : path.length < fuel) (ht : (s₀.node i).type ≠ 0) :
    Cmd.After (storeLayer ninodes devsw) (Holds s₀ s₀.lock [(k, i)]) (Code.namexLoop parent fuel k path)
      (Found s₀ (resolve s₀.node parent i (components path))) E := by
  induction fuel generalizing k i path with
  | zero => omega
  | succ fuel ih =>
    unfold Code.namexLoop
    have hput : ∀ {l}, Cmd.After (storeLayer ninodes devsw) (Holds s₀ (Function.update s₀.lock k true) ((k, i) :: l))
        (Code.iunlockput k) (fun _ => Holds s₀ s₀.lock l) E := fun {l} => holds_iunlockput (htree.kept i) (hfree k)
    have hnone : ∀ {x}, x = none → Cmd.After (storeLayer ninodes devsw)
        (Holds s₀ (Function.update s₀.lock k true) [(k, i)])
        (do Code.iunlockput k; pure (none : Option (Slot × List Byte))) (Found s₀ x) E := fun hx =>
      hput.bind fun _ => .pure fun s h => by rw [hx]; exact ⟨rfl, h⟩
    have hskip := @skipelem_components path
    cases hp : skipelem path with
    | none =>
      rw [hp] at hskip
      rw [hskip, resolve_nil]
      refine .ite (fun hpar => ?_) fun hpar => ?_
      · rw [if_pos hpar]
        exact (holds_iput (htree.kept i) (hfree k)).bind fun _ => .pure fun s h => ⟨rfl, h⟩
      · rw [if_neg hpar]
        exact .pure fun s h => ⟨rfl, h⟩
    | some x =>
      obtain ⟨name, rest⟩ := x
      rw [hp] at hskip
      obtain ⟨hcomp, hrest⟩ := hskip
      rw [hcomp, resolve_cons]
      have hlen := skipelem_length hp
      refine (holds_ilock List.mem_cons_self ht (hfree k)).bind fun _ => Cmd.After.bind (Q := fun f s =>
        (Holds s₀ (Function.update s₀.lock k true) [(k, i)] s ∧ s.locked k = .ok i) ∧ f.type = (s₀.node i).type) ?_
        fun f => .pre fun hf => ?_
      · rintro s ⟨h, hlock⟩
        rw [run_fields hlock, h.node]
        exact ⟨⟨h, hlock⟩, rfl⟩
      rw [hf]
      refine .ite (fun hd => ?_) fun hd => ?_
      · rw [if_pos hd]
        exact (hnone rfl).weaken (fun s h => h.1) fun _ _ => id
      have hdir := not_not.1 hd
      rw [if_neg hd]
      refine .ite (fun hpar => ?_) fun hpar => ?_
      · rw [if_pos ⟨hpar.1, hrest.2 hpar.2⟩]
        have hunlock : Cmd.After (storeLayer ninodes devsw) (Holds s₀ (Function.update s₀.lock k true) [(k, i)])
            (Code.iunlock k) (fun _ => Holds s₀ (Function.update s₀.lock k false) [(k, i)]) E :=
          holds_iunlock List.mem_cons_self
        rw [show Function.update s₀.lock k false = s₀.lock from Function.update_eq_self_iff.2 (hfree k).symm] at hunlock
        exact (hunlock.weaken (fun s h => h.1) fun _ _ => id).bind fun _ => .pure fun s h => ⟨rfl, h⟩
      rw [if_neg fun h => hpar ⟨h.1, hrest.1 h.2⟩]
      refine (holds_dirlookup hE htree hdir name).bind fun r => ?_
      cases r with
      | none => exact fun s h => hnone (by rw [h.1]; rfl) h.2
      | some r =>
        rintro s ⟨i', hi', ht', h⟩
        rw [hi']
        exact (hput.bind fun _ => ih r.1 i' rest (by omega) ht') (h.perm (.swap ..))

theorem holds_namex (parent : Bool) (cwd : Slot) (path : List Byte) (hcwd : 0 < (s₀.slot cwd).ref)
    (ht : (s₀.node (s₀.slot cwd).inum).type ≠ 0) :
    Cmd.After (storeLayer ninodes devsw) (· = s₀) (Code.namex cwd path parent)
      (Found s₀ (resolve s₀.node parent (startOf (s₀.slot cwd).inum path) (components path))) E := by
  have h₀ : Holds s₀ s₀.lock [] s₀ := .nil htree.cache
  refine Cmd.After.bind (Q := fun k => Holds s₀ s₀.lock [(k, startOf (s₀.slot cwd).inum path)]) ?_ fun k =>
    holds_namexLoop hE htree hfree parent _ k _ path (Nat.lt_succ_self _) ?_
  · unfold startOf
    refine .ite (fun hs => ?_) fun hs => ?_
    · rw [if_pos hs]
      have hfull : NINODE ≤ s₀.inUse.card + ([] : List (Slot × Word)).length → E noInodes := fun h =>
        hE (h.trans (Nat.add_le_add_left (Nat.zero_le 1) _))
      exact (holds_iget hfull _).weaken (fun s h => h ▸ h₀) fun _ _ => id
    · rw [if_neg hs]
      rintro s rfl
      have hrun : (Code.idup cwd).run (storeLayer ninodes devsw) s = s.idup cwd >>= fun s => pure ((), s) :=
        Cmd.run_call (Act.idup cwd) s
      rw [Cmd.run_bind, hrun, Store.idup, if_neg (show ¬ (s.slot cwd).ref < 1 by omega)]
      exact h₀.more hcwd
  · unfold startOf
    split
    · exact htree.root
    · exact ht

end lookup

/-! ### In the blocks -/

/-- The operation reads, and changes nothing on the disk. -/
def Act.Looks : Act → Prop
  | .iget _ => True
  | .fields _ => True
  | .readi .. => True
  | _ => False

/-- The operation allocates no blocks. -/
def Act.Reads : Act → Prop
  | .writei .. => False
  | _ => True

section reads

open Cmd

theorem Act.Looks.reads {a : Act} (h : a.Looks) : a.Reads := by
  cases a with
  | writei => exact h
  | _ => exact trivial

theorem Act.Reads.not_short {sb : Superblock} {s : Blocks} {a : Act} (h : a.Reads) : ¬ a.Short sb s := by
  cases a with
  | writei => exact absurd h id
  | _ => exact id

theorem looks_readEntry (k : Slot) (off : Word) (e : Panic) : (Code.readEntry k off e).Calls Act.Looks := by
  refine .bind (.call trivial) fun r => ?_
  cases r with
  | done l => exact .ite trivial trivial
  | _ => trivial

theorem looks_dirlookup (k : Slot) (name : List Byte) : (Code.dirlookup k name).Calls Act.Looks := by
  have hloop : ∀ size fuel off, (Code.lookupLoop k name size fuel off).Calls Act.Looks := by
    intro size fuel
    induction fuel with
    | zero => exact fun _ => trivial
    | succ fuel ih =>
      intro off
      refine .ite (.bind (looks_readEntry k off _) fun de => ?_) trivial
      exact .ite (.bind (.call trivial) fun _ => trivial) (ih _)
  exact .bind (.call trivial) fun f => .ite trivial (hloop ..)

theorem looks_emptyLoop (k : Slot) (size : Word) (fuel : ℕ) (off : Word) :
    (Code.emptyLoop k size fuel off).Calls Act.Looks := by
  induction fuel generalizing off with
  | zero => exact trivial
  | succ fuel ih => exact .ite (.bind (looks_readEntry k off _) fun de => .ite trivial (ih _)) trivial

theorem reads_namexLoop (parent : Bool) (fuel : ℕ) (k : Slot) (path : List Byte) :
    (Code.namexLoop parent fuel k path).Calls Act.Reads := by
  induction fuel generalizing k path with
  | zero => exact trivial
  | succ fuel ih =>
    unfold Code.namexLoop
    have hput : (Code.iunlockput k).Calls Act.Reads := .bind (.call trivial) fun _ => .call trivial
    have hnone : (do Code.iunlockput k; pure (none : Option (Slot × List Byte)) : Code _).Calls Act.Reads :=
      .bind hput fun _ => trivial
    cases skipelem path with
    | none => exact .ite (.bind (.call trivial) fun _ => trivial) trivial
    | some x =>
      refine .bind (.call trivial) fun _ => .bind (.call trivial) fun f => .ite hnone (.ite ?_ ?_)
      · exact .bind (.call trivial) fun _ => trivial
      refine .bind ((looks_dirlookup k x.1).mono fun _ => Act.Looks.reads) fun r => ?_
      cases r with
      | none => exact hnone
      | some r => exact .bind hput fun _ => ih r.1 x.2

theorem reads_namex (cwd : Slot) (path : List Byte) (parent : Bool) :
    (Code.namex cwd path parent).Calls Act.Reads :=
  .bind (.ite (.call trivial) (.bind (.call trivial) fun _ => trivial)) fun k => reads_namexLoop parent _ k path

end reads

section blocks

variable {sb : Superblock} {devsw : Fin NDEV → Bool} {s s' : Blocks} {α : Type} {m : Code α}
  {Q : α → Store → Prop} {E : Fault → Prop}

/-- What holds after a program on contents holds after it on the disk, unless it comes to a write for which too few
blocks are free. -/
theorem after_blocks (hs : Sound sb s) (h : Cmd.After (storeLayer sb.ninodes devsw) (· = s.store) m Q E) :
    Cmd.After (blockLayer sb devsw) (· = s) m (fun x s' => Sound sb s' ∧ Q x s'.store) fun e =>
      E e ∨ e = outOfBlocks ∧ ∃ a t, m.Reaches (blockLayer sb devsw) s a t ∧ a.Short sb t := by
  refine .of_run ?_ ?_
  · rintro s x s' rfl hr
    have hrun := (blockLayer_follows sb devsw).run m ⟨hs, rfl⟩
    rw [hr] at hrun
    obtain ⟨t, ht, hs', rfl⟩ := hrun
    exact ⟨hs', h.ok rfl ht⟩
  · rintro s e rfl hr
    have hrun := (blockLayer_follows sb devsw).run m ⟨hs, rfl⟩
    rw [hr] at hrun
    refine hrun.imp (h.error rfl) ?_
    rintro ⟨a, t, ha, he, hshort⟩
    exact ⟨he, a, t, ha, hshort⟩

theorem run_store (hs : Sound sb s) {x y : α} {t : Store} (h : m.run (blockLayer sb devsw) s = .ok (x, s'))
    (hy : m.run (storeLayer sb.ninodes devsw) s.store = .ok (y, t)) : Sound sb s' ∧ x = y ∧ s'.store = t := by
  have hrun := (blockLayer_follows sb devsw).run m ⟨hs, rfl⟩
  rw [h] at hrun
  obtain ⟨t, ht, hs', rfl⟩ := hrun
  rw [ht] at hy
  cases hy
  exact ⟨hs', rfl, rfl⟩

theorem looks_disk (hm : m.Calls Act.Looks) (hs : Sound sb s) {x : α} (h : m.run (blockLayer sb devsw) s = .ok (x, s')) :
    s'.disk = s.disk := by
  refine (hm.keeps (I := fun t => Sound sb t ∧ t.disk = s.disk) ?_ ⟨hs, rfl⟩ h).2
  rintro a t r t' ha ⟨ht, hd⟩ hx
  refine ⟨Sound.exec a t r t' ht hx, ?_⟩
  rw [← hd]
  cases a with
  | iget i =>
    have hx : t.iget i = .ok (r, t') := hx
    unfold Blocks.iget at hx
    split at hx
    · cases hx
      rfl
    · split at hx <;> cases hx
      rfl
  | fields k =>
    obtain ⟨ip, -, hx⟩ := bind_eq_ok.1 hx
    cases hx
    rfl
  | readi k off n =>
    obtain ⟨ip, h₁, hx⟩ := bind_eq_ok.1 hx
    obtain ⟨rfl, hk, hv⟩ := locked_ok h₁
    obtain ⟨r, hr⟩ := ht.readi hk hv devsw off n
    rw [hr] at hx
    cases hx
    rfl
  | _ => exact absurd ha id

end blocks

theorem Holds.tree {s₀ s : Store} {f : Slot → Bool} {l : List (Slot × Word)} (h : Holds s₀ f l s) (ht : Tree s₀) :
    Tree s := by
  refine ⟨h.cache, fun i h₁ h₂ => ?_, ?_, ?_, ?_, ?_⟩
  · rw [h.node] at h₁ h₂
    rw [h.refs]
    exact Nat.lt_add_right _ (ht.kept i h₁ h₂)
  all_goals rw [h.node]
  exacts [ht.dirs, ht.small, ht.root, ht.live]

theorem Found.spec {s₀ s : Store} {x : Option (Word × List Byte)} {r : Option (Slot × List Byte)} (h : Found s₀ x r s) :
    r.map (fun a => ((s.slot a.1).inum, a.2)) = x ∧
      ∀ i, s.refs i = s₀.refs i + if x.map Prod.fst = some i then 1 else 0 := by
  obtain ⟨hname, hh⟩ := h
  cases x with
  | none =>
    cases r with
    | none => exact ⟨rfl, fun i => by simpa using hh.refs i⟩
    | some a => cases hname
  | some b =>
    cases r with
    | none => cases hname
    | some a =>
      have hk := (hh.held (a.1, b.1) (List.mem_singleton.2 rfl)).1
      refine ⟨congrArg some (Prod.ext hk (Option.some.inj hname)), fun i => ?_⟩
      have := hh.refs i
      simpa [List.count_singleton] using this

/-- **Path lookup on the disk.** From a file system in order, where no inode is locked, `namex` finds what its names
lead to from the root or from the current directory, or their parent; it changes no inode, locks none for good, and
has one reference more, to the inode that it answers. It does not go wrong unless the inode cache is full, up to one
entry. -/
theorem namex_resolves {sb : Superblock} {devsw : Fin NDEV → Bool} {s₀ : Store} (htree : Tree s₀)
    (hfree : ∀ k, s₀.lock k = false) {cwd : Slot} (hcwd : 0 < (s₀.slot cwd).ref)
    (ht : (s₀.node (s₀.slot cwd).inum).type ≠ 0) (path : List Byte) (parent : Bool) :
    Cmd.After (blockLayer sb devsw) (fun s => Sound sb s ∧ s.store = s₀) (Code.namex cwd path parent)
      (fun r s => Sound sb s ∧ Tree s.store ∧ s.store.node = s₀.node ∧ s.store.lock = s₀.lock ∧
        r.map (fun a => ((s.store.slot a.1).inum, a.2)) =
          resolve s₀.node parent (startOf (s₀.slot cwd).inum path) (components path) ∧
        ∀ i, s.store.refs i = s₀.refs i + if r.map (fun a => (s.store.slot a.1).inum) = some i then 1 else 0)
      (fun e => e = noInodes ∧ NINODE ≤ s₀.inUse.card + 1) := by
  rintro s ⟨hs, rfl⟩
  have hname : Cmd.After (storeLayer sb.ninodes devsw) (· = s.store) (Code.namex cwd path parent)
      (Found s.store (resolve s.store.node parent (startOf (s.store.slot cwd).inum path) (components path)))
      (fun e => e = noInodes ∧ NINODE ≤ s.store.inUse.card + 1) :=
    holds_namex (fun h => ⟨rfl, h⟩) htree hfree parent cwd path hcwd ht
  refine Cmd.After.of_run (P := (· = s)) (fun s' x t hs' hr => ?_) (fun s' e hs' hr => ?_) rfl
  · have h := (after_blocks hs hname).ok hs' hr
    obtain ⟨hres, hrefs⟩ := h.2.spec
    refine ⟨h.1, h.2.2.tree htree, h.2.2.node, h.2.2.lock, hres, fun i => ?_⟩
    rw [hrefs, ← hres, Option.map_map]
    rfl
  · refine ((after_blocks hs hname).error hs' hr).resolve_right ?_
    rintro ⟨-, a, t, ha, hshort⟩
    exact ((reads_namex cwd path parent).reaches ha).not_short hshort

/-- The small image after boot, where the root directory may have been locked. -/
def rootStore (locked : Bool) : Store := ((Blocks.boot rootDisk).store.setSlot 0 ⟨1, 1, locked⟩).setLock 0 locked

theorem rootStore_boot : rootStore false = (Blocks.boot rootDisk).store :=
  Store.ext rfl (Function.update_eq_self_iff.2 rfl) (Function.update_eq_self_iff.2 rfl)

theorem rootStore_slot (valid : Bool) (k : Slot) : 0 ≤ ((rootStore valid).slot k).ref ∧
    (0 < ((rootStore valid).slot k).ref → k = 0) ∧
    ((rootStore valid).lock k = true → 0 < ((rootStore valid).slot k).ref) := by
  revert valid k
  decide

theorem rootStore_node (valid : Bool) (i : Word) : (rootStore valid).node i =
    if i = 1 then ⟨T_DIR, 0, 0, 1, newDir 1 1⟩ else ⟨0, 0, 0, 0, []⟩ := by
  by_cases hi : i = 1
  · have hdata : rootInode.content rootDisk = newDir 1 1 := by decide +kernel
    rw [if_pos hi, ← hdata, hi]
    rfl
  · rw [if_neg hi]
    show (rootDisk.dinode i).vnode rootDisk = _
    rw [show rootDisk.dinode i = { type := 0, nlink := 0, addrs := fun _ => 0 } from if_neg hi]
    rfl

theorem tree_rootStore (valid : Bool) : Tree (rootStore valid) := by
  have hroot : ∀ {i : Word}, ((rootStore valid).node i).type ≠ 0 → i = 1 := fun {i} h => by
    by_contra hi
    rw [rootStore_node, if_neg hi] at h
    exact h rfl
  have hdir : ∀ {i : Word}, ((rootStore valid).node i).type = T_DIR → i = 1 := fun h => hroot (by rw [h]; decide)
  have h1 : (rootStore valid).node 1 = ⟨T_DIR, 0, 0, 1, newDir 1 1⟩ := rootStore_node valid 1
  have hused := fun k => (rootStore_slot valid k).2.1
  have ht : ((rootStore valid).node 1).type ≠ 0 := by rw [h1]; decide
  refine ⟨⟨fun k => (rootStore_slot valid k).1, fun hk hk' _ => (hused _ hk).trans (hused _ hk').symm, fun k hk _ => ?_,
    fun k => (rootStore_slot valid k).2.2⟩, fun i h₁ h₂ => ?_, fun i h => ?_, fun i => ?_, ht, fun i h j hj => ?_⟩
  · rw [hused k hk]
    exact ht
  · rw [hroot h₁, h1] at h₂
    cases h₂
  · rw [hdir h, h1]
    exact .new (by decide) (by decide) (by decide)
  · rw [rootStore_node]
    split
    · show (newDir 1 1).length ≤ _
      rw [newDir_length]
      decide
    · exact Nat.zero_le _
  · rw [hdir h, h1] at hj ⊢
    dsimp only at hj ⊢
    have hlt : j < 2 := by
      by_contra hge
      exact hj (entry_newDir_of_le 1 1 (by omega))
    have hone : (entry (newDir 1 1) j).inum = 1 := by
      obtain rfl | rfl : j = 0 ∨ j = 1 := by omega
      · rw [(entry_newDir 1 1).1]
        rfl
      · rw [(entry_newDir 1 1).2]
        rfl
    rw [hone]
    exact ht

theorem ok_of_toBool {ε α : Type} {x : Except ε α} (h : x.toBool = true) : ∃ a, x = .ok a := by
  cases x with
  | error e => cases h
  | ok a => exact ⟨a, rfl⟩

/-- The path `/./..` leads from the root to the root. -/
theorem namex_resolves_dots : ∃ r s', (Code.namex 0 [slash, 0x2e, slash, 0x2e, 0x2e] false).run
    (blockLayer tinySb fun _ => false) (.boot rootDisk) = .ok (r, s') ∧
      r.map (fun a => ((s'.store.slot a.1).inum, a.2)) = some (1, []) := by
  have hres : resolve (rootStore false).node false 1 (components [slash, 0x2e, slash, 0x2e, 0x2e]) = some (1, []) := by
    decide +kernel
  obtain ⟨y, hy⟩ := ok_of_toBool (show ((Code.namex 0 [slash, 0x2e, slash, 0x2e, 0x2e] false).run
    (blockLayer tinySb fun _ => false) (.boot rootDisk)).toBool = true by decide +kernel)
  have h := @namex_resolves tinySb (fun _ => false) _ (tree_rootStore false) (by decide) 0 (by decide)
    (by rw [rootStore_node]; decide) [slash, 0x2e, slash, 0x2e, 0x2e] false _ ⟨image_rootDisk.boot, rootStore_boot.symm⟩
  rw [hy] at h
  exact ⟨y.1, y.2, hy, h.2.2.2.2.1.trans hres⟩

/-! ### Links -/

/-- The inode is locked. -/
def Store.Holding (s : Store) (i : Word) : Prop := ∃ k, s.lock k = true ∧ (s.slot k).inum = i

/-- What `dirlink` may do, by its answer: with the name added, it and all names that are cut to the same one lead to the
inode, and the other names lead where they did. A name that is there is refused, if its inode is not locked. -/
def Linked (s₀ : Store) (i : Word) (name : List Byte) (inum : Word) : Bool → Store → Prop
  | true, s => target (s₀.node i).data name = none ∧ DirOk i (s.node i).data ∧
      (∀ name', target (s.node i).data name' =
        if key name' = key name then some inum else target (s₀.node i).data name') ∧
      s = s₀.setNode i { s₀.node i with data := (s.node i).data }
  | false, s => (∃ i', target (s₀.node i).data name = some i' ∧ ¬ s₀.Holding i') ∧
      s.node = s₀.node ∧ s.lock = s₀.lock ∧ ∀ j, s.refs j = s₀.refs j

/-- How `dirlink` goes wrong: there is no room in the directory or in the cache, or the name is there and leads to an
inode that is locked, such as the directory itself. -/
def LinkFails (s₀ : Store) (i : Word) (name : List Byte) (e : Fault) : Prop :=
  e = noInodes ∧ NINODE ≤ s₀.inUse.card ∨
    e = .panic "dirlink" ∧ MAXFILE * BSIZE < (s₀.node i).data.length + DIRENT ∨
    e = .deadlock ∧ ∃ i', target (s₀.node i).data name = some i' ∧ s₀.Holding i'

/-- The entry that `iget` gives is locked just if the inode is. -/
theorem holding_iff {s s' : Store} {i : Word} {k : Slot} (hc : CacheOk s) (h : s.iget i = .ok (k, s')) :
    s.Holding i ↔ s.lock k = true := by
  unfold Store.iget at h
  split at h
  · rename_i k₁ hf
    cases h
    have hk := List.find?_some hf
    simp only [decide_eq_true_eq] at hk
    refine ⟨?_, fun hl => ⟨k, hl, hk.2⟩⟩
    rintro ⟨k₂, hl, hi⟩
    rwa [hc.once hk.1 (hc.locked k₂ hl) (hk.2.trans hi.symm)]
  · rename_i hf
    split at h
    · rename_i k₁ hf'
      cases h
      have h0 : (s.slot k).ref = 0 := by simpa using List.find?_some hf'
      refine iff_of_false ?_ fun hl => (hc.locked k hl).ne' h0
      rintro ⟨k₂, hl, hi⟩
      exact absurd (decide_eq_true ⟨hc.locked k₂ hl, hi⟩) (List.find?_eq_none.1 hf k₂ (List.mem_finRange k₂))
    · cases h

section links

variable {s₀ : Store} {ninodes : Word} {devsw : Fin NDEV → Bool} (htree : Tree s₀) {k : Slot} {i : Word}
  (hlock : s₀.locked k = .ok i) (hdir : (s₀.node i).type = T_DIR) (name : List Byte)

include htree hlock hdir

theorem locked_dir : Locked s₀ k i (s₀.node i).data := ⟨hlock, hdir, rfl, (htree.dirs i hdir).size, htree.small i⟩

theorem linked_new (hlk : lookup (s₀.node i).data name = none) {inum : Word} (h0 : inum ≠ 0) (hlt : inum.toNat < 2 ^ 16) :
    Cmd.After (storeLayer ninodes devsw) (· = s₀) (Code.dirlink k name inum) (Linked s₀ i name inum)
      (LinkFails s₀ i name) := by
  have hd := htree.dirs i hdir
  rintro s rfl
  rw [(locked_dir htree hlock hdir).run_dirlink hlk]
  split
  · rename_i x s' hx
    split at hx
    · cases hx
      have hdata := congrArg Vnode.data (s.setNode_self i
        { s.node i with data := setEntry (s.node i).data (vacant (s.node i).data) (newEntry name inum) })
      refine ⟨by rw [target, hlk]; rfl, ?_, fun name' => ?_, by rw [hdata]⟩
      · rw [hdata]
        exact hd.link hlk inum
      · rw [hdata]
        exact hd.target_link hlk (by bv_omega) hlt name'
    · cases hx
  · rename_i e he
    split at he
    · cases he
    · have := entry_pos hd.size (vacant_le (s.node i).data)
      exact .inr (.inl ⟨(Except.error.inj he).symm, by omega⟩)

/-- A name that is there: the lock of its inode is free, or it is waited for. -/
theorem linked_old {j : ℕ} (hlk : lookup (s₀.node i).data name = some j) (inum : Word) :
    Cmd.After (storeLayer ninodes devsw) (· = s₀) (Code.dirlink k name inum) (Linked s₀ i name inum)
      (LinkFails s₀ i name) := by
  rintro s rfl
  set i' := (entry (s.node i).data j).inum.setWidth 32 with hi'
  have htarget : target (s.node i).data name = some i' := by rw [target, hlk]; rfl
  have hget : Cmd.After (storeLayer ninodes devsw) (Holds s s.lock []) (Code.iget i')
      (fun k => Holds s s.lock [(k, i')]) (LinkFails s i name) := holds_iget (fun h => .inl ⟨rfl, h⟩) i'
  have hget := hget (.nil htree.cache)
  rw [run_iget] at hget
  rw [Code.dirlink, Cmd.run_bind, (locked_dir htree hlock hdir).run_dirlookup, hlk]
  dsimp only
  rw [← hi']
  cases hg : s.iget i' with
  | error e =>
    rw [hg] at hget
    exact hget
  | ok x =>
    obtain ⟨k', s₁⟩ := x
    rw [hg] at hget
    have hheld : Holds s s.lock [(k', i')] s₁ := hget
    by_cases hf : s.lock k' = true
    · have hwait : Cmd.After (storeLayer ninodes devsw) (Holds s s.lock [(k', i')])
          (do Code.iput k'; pure false) (Linked s i name inum) (LinkFails s i name) :=
        (holds_iput_waits hf (.inr (.inr ⟨rfl, i', htarget, (holding_iff htree.cache hg).2 hf⟩))).bind fun _ =>
          .pure fun _ h => h.elim
      exact hwait hheld
    · have hput : Cmd.After (storeLayer ninodes devsw) (Holds s s.lock [(k', i')])
          (do Code.iput k'; pure false) (Linked s i name inum) (LinkFails s i name) := by
        refine (holds_iput (htree.kept i') (Bool.eq_false_iff.2 hf)).bind fun _ => .pure fun t h => ?_
        refine ⟨⟨i', htarget, mt (holding_iff htree.cache hg).1 hf⟩, h.node, h.lock, fun j => ?_⟩
        simpa using h.refs j
      exact hput hheld

end links

section links

variable {sb : Superblock} {devsw : Fin NDEV → Bool} {s : Blocks} {k : Slot} {i : Word} {data : List Byte}

/-- The write of `dirlink` is in one block: it is short of blocks where fewer than two are free. -/
theorem dirlink_short (hs : Sound sb s) (hk : Locked s.store k i data) (name : List Byte) (inum : Word) {a : Act}
    {t : Blocks} (h : (Code.dirlink k name inum).Reaches (blockLayer sb devsw) s a t) (ha : a.Short sb t) :
    (freeBlocks sb s.disk).card < 2 := by
  have hlooks : ∀ {α : Type} {m : Code α} {s : Blocks}, m.Calls Act.Looks → ¬ m.Reaches (blockLayer sb devsw) s a t :=
    fun hm hr => (hm.reaches hr).reads.not_short ha
  rcases h.of_bind with h | ⟨r, s₁, hr, h⟩
  · exact absurd h (hlooks (looks_dirlookup k name))
  have hd₁ := looks_disk (looks_dirlookup k name) hs hr
  cases r with
  | some r =>
    rcases h.of_bind with h | ⟨_, _, -, h⟩
    · rw [h.of_call.1] at ha
      exact ha.elim
    · cases h
  | none =>
    obtain ⟨hs₁, hst₁⟩ : Sound sb s₁ ∧ s₁.store = s.store := by
      have hrun := (blockLayer_follows sb devsw).run (Code.dirlookup k name) ⟨hs, rfl⟩
      rw [hr] at hrun
      obtain ⟨t', ht', hs₁, rfl⟩ := hrun
      rw [hk.run_dirlookup] at ht'
      split at ht'
      · exact ⟨hs₁, (congrArg Prod.snd (Except.ok.inj ht')).symm⟩
      · cases hg : s.store.iget ((entry data _).inum.setWidth 32) <;> rw [hg] at ht' <;> cases ht'
    rw [← hst₁] at hk
    rcases h.of_bind with h | ⟨x, s₂, hx, h⟩
    · exact absurd h (hlooks (.call trivial))
    obtain ⟨hs₂, rfl, hst₂⟩ := run_store hs₁ hx (run_fields hk.lock)
    have hd₂ := looks_disk (m := Code.fields k) (.call trivial) hs₁ hx
    have hempty : (Code.emptyLoop k (s₁.store.node i).size (Code.turns (s₁.store.node i).size) 0).run
        (storeLayer sb.ninodes devsw) s₂.store = .ok (offset (vacant data), s₁.store) := by
      rw [hst₂]
      exact hk.run_emptyLoop
    rcases h.of_bind with h | ⟨off, s₃, hoff, h⟩
    · exact absurd h (hlooks (looks_emptyLoop k _ _ _))
    obtain ⟨-, rfl, -⟩ := run_store hs₂ hoff hempty
    have hd₃ := looks_disk (looks_emptyLoop k _ _ _) hs₂ hoff
    have hwrite : (Code.writei k ((newEntry name inum).toBytes.getD · 0) (offset (vacant data)) (.ofNat 32 DIRENT)).Reaches
        (blockLayer sb devsw) s₃ a t := by
      rcases h.of_bind with h | ⟨_, _, -, h⟩
      · rcases h.of_bind with h | ⟨r, _, -, h⟩
        · exact h
        · cases r with
          | done n =>
            dsimp only at h
            split at h <;> cases h
          | _ => cases h
      · cases h
    obtain ⟨rfl, rfl⟩ := hwrite.of_call
    have hpos : (offset (vacant data)).toNat = 16 * vacant data := hk.offset_toNat (vacant_le data)
    have hcard : (touched (offset (vacant data)).toNat 16).card ≤
        ((offset (vacant data)).toNat + 16 - 1) / 512 - (offset (vacant data)).toNat / 512 + 1 :=
      card_touched _ (by decide)
    rw [← hd₁, ← hd₂, ← hd₃]
    refine lt_of_lt_of_le ha ((need_le ..).trans ?_)
    show (touched (offset (vacant data)).toNat 16).card + 1 ≤ 2
    omega

end links

/-- **`dirlink` on the disk**: it adds the name where the directory does not have it, and changes nothing where it
does. It goes wrong where the directory or the inode cache is full, or where fewer than two blocks are free; and it
waits for ever where the name leads to an inode that is locked: the name `.`, and in the root also `..`, leads to the
directory itself. -/
theorem dirlink_links {sb : Superblock} {devsw : Fin NDEV → Bool} {s : Blocks} (hs : Sound sb s) (htree : Tree s.store)
    {k : Slot} {i : Word} (hlock : s.store.locked k = .ok i) (hdir : (s.store.node i).type = T_DIR) (name : List Byte)
    {inum : Word} (h0 : inum ≠ 0) (hlt : inum.toNat < 2 ^ 16) :
    Cmd.After (blockLayer sb devsw) (· = s) (Code.dirlink k name inum)
      (fun r s' => Sound sb s' ∧ Linked s.store i name inum r s'.store)
      (fun e => LinkFails s.store i name e ∨ e = outOfBlocks ∧ (freeBlocks sb s.disk).card < 2) := by
  have hlinked : Cmd.After (storeLayer sb.ninodes devsw) (· = s.store) (Code.dirlink k name inum)
      (Linked s.store i name inum) (LinkFails s.store i name) := by
    cases hlk : lookup (s.store.node i).data name with
    | none => exact linked_new htree hlock hdir name hlk h0 hlt
    | some j => exact linked_old htree hlock hdir name hlk inum
  refine .of_run (fun t x t' ht hr => (after_blocks hs hlinked).ok ht hr) fun t e ht hr => ?_
  refine ((after_blocks hs hlinked).error ht hr).imp_right ?_
  rintro ⟨he, a, t, ha, hshort⟩
  exact ⟨he, dirlink_short hs (locked_dir htree hlock hdir) name inum ha hshort⟩

/-- A first name in the root directory. -/
theorem dirlink_links_first : ∃ s r s', s.store = rootStore true ∧
    (Code.dirlink 0 [0x66] 1).run (blockLayer tinySb fun _ => false) s = .ok (r, s') ∧
      Linked (rootStore true) 1 [0x66] 1 r s'.store := by
  obtain ⟨y, hy⟩ := ok_of_toBool (show ((Code.ilock 0 >>= fun _ => Code.dirlink 0 [0x66] 1).run
    (blockLayer tinySb fun _ => false) (.boot rootDisk)).toBool = true by decide +kernel)
  rw [Cmd.run_bind] at hy
  obtain ⟨x, hx, hy⟩ := bind_eq_ok.1 hy
  have hlock := (blockLayer_follows tinySb fun _ => false).run (Code.ilock 0) ⟨image_rootDisk.boot, rfl⟩
  rw [hx] at hlock
  obtain ⟨t, ht, hs, rfl⟩ := hlock
  have hst : x.2.store = rootStore true := (congrArg Prod.snd (Except.ok.inj ht)).symm
  have h := @dirlink_links tinySb (fun _ => false) x.2 hs (by rw [hst]; exact tree_rootStore true) 0 1
    (by rw [hst]; rfl) (by rw [hst, rootStore_node]; decide) [0x66] 1 (by decide) (by decide) _ rfl
  rw [hy] at h
  rw [hst] at h
  exact ⟨x.2, y.1, y.2, hst, hy, h.2⟩

end Xv6.Fs
