import Xv6.Fs.Dirent
import Xv6.Lib.Records

/-!
# The entries of a directory

What the content of a directory says: its entries, which one a name names, and where a new entry goes.
A directory in order has the entries `.` and `..` in the first two places and no two entries in use
with the same name. It stays in order if an entry after these is freed, or taken for a name that is
not there.
-/

namespace Xv6.Fs

open Lib

variable {data : List Byte} {i : Word} {j j' : ℕ} {e : Dirent} {name : List Byte}

def entry (data : List Byte) (j : ℕ) : Dirent := .ofBytes (record DIRENT data j)

def entries (data : List Byte) : ℕ := data.length / DIRENT

def setEntry (data : List Byte) (j : ℕ) (e : Dirent) : List Byte := setRecord DIRENT data j e.toBytes

/-- The entry in use with the given name. -/
def lookup (data : List Byte) (name : List Byte) : Option ℕ :=
  (List.range (entries data)).find? fun j => (entry data j).inum ≠ 0 ∧ key name = key (entry data j).name

/-- The inode that a name names. -/
def target (data : List Byte) (name : List Byte) : Option Word :=
  (lookup data name).map fun j => (entry data j).inum.setWidth 32

/-- The first entry that is not in use, or the end. -/
def vacant (data : List Byte) : ℕ :=
  ((List.range (entries data)).find? fun j => (entry data j).inum = 0).getD (entries data)

/-- **The content of a directory in order**, of the inode number `i`. -/
structure DirOk (i : Word) (data : List Byte) : Prop where
  size : DIRENT ∣ data.length
  self : i ≠ 0
  dot : (entry data 0).inum.setWidth 32 = i ∧ key (entry data 0).name = dot
  dotdot : (entry data 1).inum ≠ 0 ∧ key (entry data 1).name = dotdot
  once : ∀ {j j'}, (entry data j).inum ≠ 0 → (entry data j').inum ≠ 0 →
    key (entry data j).name = key (entry data j').name → j = j'

/-! ### Reading -/

theorem map_getD_range (l : List Byte) : (List.range l.length).map (l.getD · 0) = l := by
  refine List.ext_getElem (by simp) fun k h₁ h₂ => ?_
  rw [List.getElem_map, List.getElem_range, List.getD_eq_getElem _ _ h₂]

theorem entry_of_le (hd : DIRENT ∣ data.length) (h : entries data ≤ j) : (entry data j).inum = 0 := by
  have hle : data.length ≤ DIRENT * j := by
    rw [← Nat.mul_div_cancel' hd]
    exact Nat.mul_le_mul_left DIRENT h
  rw [entry, record_of_length_le hle]
  rfl

theorem lt_entries (hd : DIRENT ∣ data.length) (h : (entry data j).inum ≠ 0) : j < entries data :=
  Nat.lt_of_not_le fun hle => h (entry_of_le hd hle)

theorem lookup_some (h : lookup data name = some j) :
    j < entries data ∧ (entry data j).inum ≠ 0 ∧ key name = key (entry data j).name := by
  have hp := List.find?_some h
  simp only [decide_eq_true_eq] at hp
  exact ⟨List.mem_range.1 (List.mem_of_find?_eq_some h), hp⟩

theorem lookup_none (hd : DIRENT ∣ data.length) (h : lookup data name = none)
    (hj : (entry data j).inum ≠ 0) : key name ≠ key (entry data j).name := by
  intro hk
  have := List.find?_eq_none.1 h j (List.mem_range.2 (lt_entries hd hj))
  simp only [decide_eq_true_eq] at this
  exact this ⟨hj, hk⟩

theorem DirOk.lookup (hd : DirOk i data) (hj : (entry data j).inum ≠ 0)
    (hk : key name = key (entry data j).name) : lookup data name = some j := by
  cases h : Fs.lookup data name with
  | none => exact absurd hk (lookup_none hd.size h hj)
  | some j' =>
    obtain ⟨-, hj', hk'⟩ := lookup_some h
    rw [hd.once hj' hj (hk'.symm.trans hk)]

theorem target_eq_some : target data name = some i ↔
    ∃ j, lookup data name = some j ∧ (entry data j).inum.setWidth 32 = i := by
  rw [target, Option.map_eq_some_iff]

theorem vacant_le (data : List Byte) : vacant data ≤ entries data := by
  unfold vacant
  cases h : (List.range (entries data)).find? fun j => (entry data j).inum = 0 with
  | none => exact le_rfl
  | some j => exact (List.mem_range.1 (List.mem_of_find?_eq_some h)).le

theorem entry_vacant (hd : DIRENT ∣ data.length) : (entry data (vacant data)).inum = 0 := by
  unfold vacant
  cases h : (List.range (entries data)).find? fun j => (entry data j).inum = 0 with
  | none => exact entry_of_le hd le_rfl
  | some j => simpa using List.find?_some h

theorem dot_inum_ne (hd : DirOk i data) : (entry data 0).inum ≠ 0 := by
  intro h
  have := hd.dot.1
  rw [h] at this
  exact hd.self this.symm

/-- The entries `.` and `..` stay where they are. -/
theorem DirOk.two_le_vacant (hd : DirOk i data) : 2 ≤ vacant data := by
  have h := entry_vacant hd.size
  rcases hv : vacant data with _ | _ | v
  · rw [hv] at h
    exact absurd h (dot_inum_ne hd)
  · rw [hv] at h
    exact absurd h hd.dotdot.1
  · omega

/-! ### Writing -/

/-- The name of an entry fills its place. -/
abbrev Dirent.Full (e : Dirent) : Prop := e.name.length = DIRSIZ

theorem entry_setEntry_self (he : e.Full) (hj : DIRENT * j ≤ data.length) :
    entry (setEntry data j e) j = e := by
  rw [entry, setEntry, record_setRecord_self (Dirent.toBytes_length he) hj, Dirent.ofBytes_toBytes he]

theorem entry_setEntry_of_ne (he : e.Full) (hj : DIRENT * j ≤ data.length) (h : j' ≠ j) :
    entry (setEntry data j e) j' = entry data j' := by
  rw [entry, setEntry, record_setRecord_of_ne (Dirent.toBytes_length he) hj h, entry]

theorem entry_pos (hd : DIRENT ∣ data.length) (h : j ≤ entries data) : DIRENT * j ≤ data.length := by
  rw [← Nat.mul_div_cancel' hd]
  exact Nat.mul_le_mul_left DIRENT h

theorem length_setEntry (he : e.Full) (hj : DIRENT * j ≤ data.length) :
    (setEntry data j e).length = max data.length (DIRENT * j + DIRENT) :=
  length_setRecord (Dirent.toBytes_length he) hj

theorem size_setEntry (hd : DIRENT ∣ data.length) (he : e.Full) (hj : j ≤ entries data) :
    DIRENT ∣ (setEntry data j e).length ∧ entries (setEntry data j e) = max (entries data) (j + 1) := by
  obtain ⟨m, hm⟩ := hd
  have hj' : j ≤ m := by
    rwa [entries, hm, Nat.mul_div_cancel_left m (by decide)] at hj
  have hlen : (setEntry data j e).length = DIRENT * max m (j + 1) := by
    rw [length_setEntry he (by rw [hm]; exact Nat.mul_le_mul_left _ hj'), hm,
      ← Nat.mul_succ, Nat.mul_max_mul_left]
  refine ⟨⟨_, hlen⟩, ?_⟩
  rw [entries, entries, hlen, hm, Nat.mul_div_cancel_left _ (by decide),
    Nat.mul_div_cancel_left _ (by decide)]

/-- **A directory stays in order** if an entry after the first two is freed, or written with a name
that no other entry has. -/
theorem DirOk.set (hd : DirOk i data) (he : e.Full) (hj : j ≤ entries data) (h2 : 2 ≤ j)
    (hnew : e.inum ≠ 0 → ∀ j', j' ≠ j → (entry data j').inum ≠ 0 → key e.name ≠ key (entry data j').name) :
    DirOk i (setEntry data j e) := by
  have hpos := entry_pos hd.size hj
  have hself := entry_setEntry_self he hpos
  have hrest : ∀ j', j' ≠ j → entry (setEntry data j e) j' = entry data j' := fun j' =>
    entry_setEntry_of_ne he hpos
  refine ⟨(size_setEntry hd.size he hj).1, hd.self, ?_, ?_, fun {j₁ j₂} h₁ h₂ hk => ?_⟩
  · rw [hrest 0 (by omega)]
    exact hd.dot
  · rw [hrest 1 (by omega)]
    exact hd.dotdot
  · by_cases hj₁ : j₁ = j <;> by_cases hj₂ : j₂ = j
    · exact hj₁.trans hj₂.symm
    · rw [hj₁, hself] at h₁ hk
      rw [hrest j₂ hj₂] at h₂ hk
      exact absurd hk (hnew h₁ j₂ hj₂ h₂)
    · rw [hj₂, hself] at h₂ hk
      rw [hrest j₁ hj₁] at h₁ hk
      exact absurd hk.symm (hnew h₂ j₁ hj₁ h₁)
    · rw [hrest j₁ hj₁] at h₁ hk
      rw [hrest j₂ hj₂] at h₂ hk
      exact hd.once h₁ h₂ hk

/-- The entry that `dirlink` writes. -/
def newEntry (name : List Byte) (inum : Word) : Dirent := ⟨inum.setWidth 16, strncpy DIRSIZ name⟩

theorem newEntry_full (name : List Byte) (inum : Word) : (newEntry name inum).Full := strncpy_length ..

theorem DirOk.link (hd : DirOk i data) (h : Fs.lookup data name = none) (inum : Word) :
    DirOk i (setEntry data (vacant data) (newEntry name inum)) := by
  refine hd.set (newEntry_full ..) (vacant_le data) hd.two_le_vacant fun _ j' _ hj' => ?_
  show key (strncpy DIRSIZ name) ≠ _
  rw [key_strncpy]
  exact lookup_none hd.size h hj'

/-- The entry that has been written is found under its name, and the others under theirs. -/
theorem DirOk.target_link (hd : DirOk i data) (h : Fs.lookup data name = none) {inum : Word}
    (h0 : inum.setWidth 16 ≠ 0) (hlt : inum.toNat < 2 ^ 16) (name' : List Byte) :
    target (setEntry data (vacant data) (newEntry name inum)) name' =
      if key name' = key name then some inum else target data name' := by
  have hpos := entry_pos hd.size (vacant_le data)
  have hd' := hd.link h inum
  have hself : entry (setEntry data (vacant data) (newEntry name inum)) (vacant data) = newEntry name inum :=
    entry_setEntry_self (newEntry_full ..) hpos
  split
  · rename_i hk
    refine target_eq_some.2 ⟨vacant data, hd'.lookup (by rw [hself]; exact h0) ?_, ?_⟩
    · rw [hself, hk]
      exact (key_strncpy name).symm
    · rw [hself]
      show (inum.setWidth 16).setWidth 32 = inum
      bv_omega
  · rename_i hk
    have hne : ∀ j, (entry data j).inum ≠ 0 → j ≠ vacant data := by
      rintro j hj rfl
      exact hj (entry_vacant hd.size)
    have hrest : ∀ j, j ≠ vacant data →
        entry (setEntry data (vacant data) (newEntry name inum)) j = entry data j := fun j hj =>
      entry_setEntry_of_ne (newEntry_full ..) hpos hj
    cases hl : Fs.lookup data name' with
    | some j =>
      obtain ⟨-, hj, hkj⟩ := lookup_some hl
      have hr := hrest j (hne j hj)
      rw [target, target, hl, hd'.lookup (j := j) (by rw [hr]; exact hj) (by rw [hr]; exact hkj)]
      simp only [Option.map_some, hr]
    | none =>
      cases hl' : Fs.lookup (setEntry data (vacant data) (newEntry name inum)) name' with
      | none =>
        rw [target, target, hl, hl']
        rfl
      | some j =>
        obtain ⟨-, hj, hkj⟩ := lookup_some hl'
        by_cases hjv : j = vacant data
        · rw [hjv, hself] at hkj
          exact absurd (hkj.trans (key_strncpy name)) hk
        · rw [hrest j hjv] at hj hkj
          exact absurd hkj (lookup_none hd.size hl hj)

/-! ### A new directory -/

/-- The content of a directory that `create` has made. -/
def newDir (i dp : Word) : List Byte :=
  setEntry (setEntry [] 0 (newEntry dot i)) 1 (newEntry dotdot dp)

theorem newDir_length (i dp : Word) : (newDir i dp).length = 2 * DIRENT := by
  rw [newDir, length_setEntry (newEntry_full ..)] <;>
    rw [length_setEntry (newEntry_full ..) (Nat.zero_le _)] <;> decide

theorem entry_newDir (i dp : Word) :
    entry (newDir i dp) 0 = newEntry dot i ∧ entry (newDir i dp) 1 = newEntry dotdot dp := by
  have hlen : (setEntry [] 0 (newEntry dot i)).length = DIRENT := by
    rw [length_setEntry (newEntry_full ..) (Nat.zero_le _)]
    rfl
  have hle : DIRENT * 1 ≤ (setEntry [] 0 (newEntry dot i)).length := by rw [hlen]; decide
  refine ⟨?_, entry_setEntry_self (newEntry_full ..) hle⟩
  rw [newDir, entry_setEntry_of_ne (newEntry_full ..) hle (by decide),
    entry_setEntry_self (newEntry_full ..) (Nat.zero_le _)]

theorem entry_newDir_of_le (i dp : Word) (h : 2 ≤ j) : (entry (newDir i dp) j).inum = 0 := by
  refine entry_of_le (by rw [newDir_length]; exact ⟨2, by decide⟩) ?_
  rw [entries, newDir_length]
  exact h

theorem DirOk.new {dp : Word} (h0 : i ≠ 0) (hlt : i.toNat < 2 ^ 16) (hdp : dp.setWidth 16 ≠ 0) :
    DirOk i (newDir i dp) := by
  obtain ⟨h₀, h₁⟩ := entry_newDir i dp
  have hk₀ : key (entry (newDir i dp) 0).name = Fs.dot := by
    rw [h₀]
    exact (key_strncpy Fs.dot).trans (by decide)
  have hk₁ : key (entry (newDir i dp) 1).name = Fs.dotdot := by
    rw [h₁]
    exact (key_strncpy Fs.dotdot).trans (by decide)
  refine ⟨by rw [newDir_length]; exact ⟨2, by decide⟩, h0, ⟨?_, hk₀⟩, ⟨by rw [h₁]; exact hdp, hk₁⟩, ?_⟩
  · rw [h₀]
    show (i.setWidth 16).setWidth 32 = i
    bv_omega
  · intro j j' hj hj' hk
    rcases j with _ | _ | j
    · rcases j' with _ | _ | j'
      · rfl
      · rw [hk₀, hk₁] at hk
        cases hk
      · exact absurd (entry_newDir_of_le i dp (by omega)) hj'
    · rcases j' with _ | _ | j'
      · rw [hk₀, hk₁] at hk
        cases hk
      · rfl
      · exact absurd (entry_newDir_of_le i dp (by omega)) hj'
    · exact absurd (entry_newDir_of_le i dp (by omega)) hj

end Xv6.Fs
