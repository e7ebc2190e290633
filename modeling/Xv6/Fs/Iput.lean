import Xv6.Fs.Itrunc
import Xv6.Lib.Machine
import Mathlib.Data.Finset.Card
import Mathlib.Data.Fintype.Card

/-!
# `iput` by several processes

Each of some processes drops its one reference to the same cached inode, which has no links left.
A step is a section under `ip->lock` or under `icache.lock`; the reference count is read in one
section and decremented in a later one. The last reference therefore frees the inode only if its
holder reads the count after the others have decremented it: two processes that both read 2 leave
the inode allocated for ever.
-/

namespace Xv6.Fs

open Lib Log

namespace Iput

inductive Pc
  | start
  /-- With `ip->lock` held. -/
  | locked
  /-- The same, past the first section under `icache.lock`, with `r` read there. -/
  | seen (r : ℤ)
  /-- About to release `ip->lock`. -/
  | leaving
  /-- Before the second section under `icache.lock`. -/
  | unlocked
  | done
  deriving DecidableEq

/-- The cached inode, its lock and the disk, and where every process is. -/
structure State (P : Type) where
  ip : Inode
  disk : Disk
  lock : Option P := none
  pc : P → Pc := fun _ => .start

inductive Act (P : Type)
  | acquiresleep (p : P)
  /-- The test of `valid` and `nlink`, and the reading of `ref`. -/
  | readRef (p : P)
  /-- The rest of the section under `ip->lock`. -/
  | free (p : P)
  | releasesleep (p : P)
  | decRef (p : P)
  deriving DecidableEq

inductive Out
  | done
  /-- The inode has been freed on disk. -/
  | freed
  deriving DecidableEq

abbrev Event (P : Type) := Act P × Out

variable {P : Type} [DecidableEq P]

def State.setPc (s : State P) (p : P) (x : Pc) : State P := { s with pc := Function.update s.pc p x }

theorem State.setPc_pc (s : State P) (p q : P) (x : Pc) :
    (s.setPc p x).pc q = if q = p then x else s.pc q := by
  simp [State.setPc, Function.update_apply]

def enabled (s : State P) : Act P → Bool
  | .acquiresleep p => s.pc p = .start && s.lock.isNone
  | .readRef p => s.pc p = .locked
  | .free p => match s.pc p with | .seen _ => true | _ => false
  | .releasesleep p => s.pc p = .leaving
  | .decRef p => s.pc p = .unlocked

/-- The body of the innermost `if`: truncate the inode and free it. -/
def freeInode (ip : Inode) (d : Disk) : Except Fault (Inode × Disk) := do
  let (ip, d) ← itrunc ip d
  let ip := { ip with type := 0 }
  pure ({ ip with valid := false }, iupdate ip d)

def exec (s : State P) : Act P → Except Fault (State P × Out)
  | .acquiresleep p => .ok ({ s.setPc p .locked with lock := some p }, .done)
  | .readRef p =>
    if s.ip.valid ∧ s.ip.nlink = 0 then .ok (s.setPc p (.seen s.ip.ref), .done)
    else .ok (s.setPc p .leaving, .done)
  | .free p =>
    if s.pc p = .seen 1 then do
      let (ip, d) ← freeInode s.ip s.disk
      pure ({ s.setPc p .leaving with ip := ip, disk := d }, .freed)
    else .ok (s.setPc p .leaving, .done)
  | .releasesleep p => .ok ({ s.setPc p .unlocked with lock := none }, .done)
  | .decRef p => .ok ({ s.setPc p .done with ip := { s.ip with ref := s.ip.ref - 1 } }, .done)

/-- The calls of `iput` by the processes `P`, from the inode `ip` and the disk `d`. -/
def iput (P : Type) [DecidableEq P] (ip : Inode) (d : Disk) : Machine (State P) (Act P) Out Fault :=
  ⟨{ ip := ip, disk := d }, enabled, exec⟩

/-! ### Reading the history -/

/-- How often the inode has been freed. -/
def freed : List (Event P) → ℕ
  | [] => 0
  | e :: h => if e.2 = .freed then freed h + 1 else freed h

/-- Some process has read the count after all others had decremented it. -/
def ReadLast : List (Event P) → Prop
  | [] => False
  | (.readRef p, _) :: h => (∀ q, q ≠ p → (.decRef q, .done) ∈ h) ∨ ReadLast h
  | _ :: h => ReadLast h

/-! ### The invariant -/

section invariant

variable [Fintype P] {ip : Inode} {d : Disk} {s s' : State P} {e : Event P} {h : List (Event P)}

def live (s : State P) : Finset P := Finset.univ.filter fun p => s.pc p ≠ .done

/-- The disk after the inode has been freed. -/
def freedDisk (ip : Inode) (d : Disk) : Disk :=
  iupdate { ip with addrs := fun _ => 0, size := 0, type := 0 }
    (iupdate { ip with addrs := fun _ => 0, size := 0 } (d.free (blocks ip d)))

/-- How far the freeing of the inode has come. -/
inductive Phase (ip : Inode) (d : Disk) (h : List (Event P)) (s : State P) : Prop
  /-- Nobody has seen the last reference. -/
  | before : ¬ ReadLast h → freed h = 0 → s.ip = { ip with ref := s.ip.ref } → s.disk = d →
      (∀ p, s.pc p ≠ .seen 1) → Phase ip d h s
  /-- `p` has, and is about to free the inode. -/
  | reading (p : P) : ReadLast h → freed h = 0 → s.ip = { ip with ref := s.ip.ref } → s.disk = d →
      s.pc p = .seen 1 → (∀ q, q ≠ p → s.pc q = .done) → Phase ip d h s
  /-- `p` has freed it. -/
  | after (p : P) : ReadLast h → freed h = 1 → s.disk = freedDisk ip d →
      s.pc p = .leaving ∨ s.pc p = .unlocked ∨ s.pc p = .done →
      (∀ q, q ≠ p → s.pc q = .done) → Phase ip d h s

/-- The reference count is the number of processes that hold a reference. -/
structure Counted (ip : Inode) (d : Disk) (h : List (Event P)) (s : State P) : Prop where
  done : ∀ p, s.pc p = .done ↔ (.decRef p, .done) ∈ h
  ref : s.ip.ref = (live s).card
  phase : Phase ip d h s

omit [DecidableEq P] in
theorem mem_live {p : P} : p ∈ live s ↔ s.pc p ≠ .done := by simp [live]

omit [DecidableEq P] in
theorem Counted.init (href : ip.ref = Fintype.card P) :
    Counted ip d [] ({ ip := ip, disk := d } : State P) where
  done p := by simp
  ref := by simp [live, href]
  phase := .before id rfl rfl rfl fun p => by simp

theorem Counted.move (hc : Counted ip d h s) {p : P} {y : Pc} (hp : s.pc p ≠ .done)
    (hy : y ≠ .done) (hpc : s'.pc = (s.setPc p y).pc) (href : s'.ip.ref = s.ip.ref)
    (he : ∀ q, e ≠ (.decRef q, .done)) (hph : Phase ip d (e :: h) s') : Counted ip d (e :: h) s' := by
  have hdone : ∀ q, s'.pc q = .done ↔ s.pc q = .done := fun q => by
    rw [hpc, State.setPc_pc]
    split
    · rename_i hq
      rw [hq]
      exact iff_of_false hy hp
    · rfl
  refine ⟨fun q => ?_, ?_, hph⟩
  · rw [hdone, hc.done, List.mem_cons, or_iff_right (he q).symm]
  · rw [href, hc.ref]
    congr 2
    ext q
    rw [mem_live, mem_live, ne_eq, ne_eq, hdone]

omit [Fintype P] in
/-- In a step that reads no count and frees nothing, a process that has freed the inode leaves
`iput`, and nobody comes to see the last reference. -/
theorem Phase.quiet (hph : Phase ip d h s) {p : P} {x y : Pc} (hp : s.pc p = x)
    (hpc : s'.pc = (s.setPc p y).pc) (hip : s'.ip = { s.ip with ref := s'.ip.ref })
    (hd : s'.disk = s.disk) (hx : x ≠ .done) (hx1 : x ≠ .seen 1) (hy1 : y ≠ .seen 1)
    (hxy : x = .leaving ∨ x = .unlocked → y = .unlocked ∨ y = .done)
    (hr : ReadLast (e :: h) ↔ ReadLast h) (hf : freed (e :: h) = freed h) :
    Phase ip d (e :: h) s' := by
  have hself : s'.pc p = y := by rw [hpc, State.setPc_pc, if_pos rfl]
  have hne : ∀ q, q ≠ p → s'.pc q = s.pc q := fun q hq => by rw [hpc, State.setPc_pc, if_neg hq]
  cases hph with
  | before hl hf0 hip0 hd0 hs =>
    refine .before (hr.not.2 hl) (hf.trans hf0) (by rw [hip, hip0]) (hd.trans hd0) fun q => ?_
    by_cases hq : q = p
    · rw [hq, hself]; exact hy1
    · rw [hne q hq]; exact hs q
  | reading q hl hf0 hip0 hd0 hs hq =>
    by_cases hqp : p = q
    · exact absurd (hp.symm.trans (hqp ▸ hs)) hx1
    · exact absurd (hp.symm.trans (hq p hqp)) hx
  | after q hl hf1 hd1 hs hq =>
    by_cases hqp : p = q
    · subst hqp
      have hxs : x = .leaving ∨ x = .unlocked := by
        rcases hs with hs | hs | hs
        · exact .inl (hp.symm.trans hs)
        · exact .inr (hp.symm.trans hs)
        · exact absurd (hp.symm.trans hs) hx
      refine .after p (hr.2 hl) (hf.trans hf1) (hd.trans hd1) ?_ fun r hrp => ?_
      · rw [hself]; exact .inr (hxy hxs)
      · rw [hne r hrp, hq r hrp]
    · exact absurd (hp.symm.trans (hq p hqp)) hx

/-- `readRef` sees the last reference exactly if nobody else holds one. -/
theorem Counted.last_iff (hc : Counted ip d h s) {p : P} (hp : s.pc p ≠ .done) :
    s.ip.ref = 1 ↔ ∀ q, q ≠ p → (.decRef q, .done) ∈ h := by
  have hmem : p ∈ live s := mem_live.2 hp
  have hcard : s.ip.ref = 1 ↔ (live s).card = 1 := by rw [hc.ref]; omega
  rw [hcard, Finset.card_eq_one]
  constructor
  · rintro ⟨r, hr⟩ q hq
    obtain rfl : p = r := by simpa [hr] using hmem
    rw [← hc.done]
    by_contra hne
    exact hq (by simpa [hr] using mem_live.2 hne)
  · intro hall
    refine ⟨p, Finset.eq_singleton_iff_unique_mem.2 ⟨hmem, fun q hq => ?_⟩⟩
    by_contra hne
    exact mem_live.1 hq ((hc.done q).2 (hall q hne))

theorem freeInode_ok (hb : Freeable d (blocks ip d)) (r : ℤ) :
    freeInode { ip with ref := r } d =
      .ok ({ ip with ref := r, addrs := fun _ => 0, size := 0, type := 0, valid := false },
        freedDisk ip d) := by
  unfold freeInode
  rw [itrunc_ok (show Freeable d (blocks { ip with ref := r } d) from hb)]
  rfl

theorem Counted.readRef (hc : Counted ip d h s) (hv : ip.valid = true) (hn : ip.nlink = 0) {p : P}
    (hp : s.pc p = .locked) (hx : exec s (.readRef p) = .ok (s', e.2)) (he : e.1 = .readRef p) :
    Counted ip d (e :: h) s' := by
  obtain ⟨a, o⟩ := e
  obtain rfl : a = .readRef p := he
  cases hc.phase with
  | before hl hf0 hip0 hd0 hs =>
    have hcond : s.ip.valid ∧ s.ip.nlink = 0 := by rw [hip0]; exact ⟨hv, hn⟩
    rw [exec, if_pos hcond] at hx
    obtain ⟨rfl, rfl⟩ := Prod.mk.inj (Except.ok.inj hx)
    have hlast := hc.last_iff (p := p) (by rw [hp]; decide)
    refine hc.move (p := p) (by rw [hp]; decide) (by simp) rfl rfl (by simp) ?_
    by_cases h1 : s.ip.ref = 1
    · refine .reading p (.inl (hlast.1 h1)) hf0 hip0 hd0 (by simp [State.setPc, h1]) fun q hq => ?_
      rw [State.setPc_pc, if_neg hq]
      exact (hc.done q).2 (hlast.1 h1 q hq)
    · refine .before (not_or.2 ⟨fun hall => h1 (hlast.2 hall), hl⟩) hf0 hip0 hd0 fun q => ?_
      rw [State.setPc_pc]
      split
      · simpa using h1
      · exact hs q
  | reading q hl hf0 hip0 hd0 hs hq =>
    by_cases hqp : p = q
    · rw [hqp, hs] at hp; cases hp
    · rw [hq p hqp] at hp; cases hp
  | after q hl hf1 hd1 hs hq =>
    by_cases hqp : p = q
    · rw [hqp] at hp
      simp [hp] at hs
    · rw [hq p hqp] at hp; cases hp

theorem Counted.free (hc : Counted ip d h s) (hb : Freeable d (blocks ip d)) {p : P}
    (hp : s.pc p = .seen 1) :
    ∃ r, exec s (.free p) = .ok (r, .freed) ∧ Counted ip d ((.free p, .freed) :: h) r := by
  cases hc.phase with
  | before hl hf0 hip0 hd0 hs => exact absurd hp (hs p)
  | reading q hl hf0 hip0 hd0 hs hq =>
    obtain rfl : p = q := by
      by_contra hqp
      rw [hq p hqp] at hp
      cases hp
    have hfree := freeInode_ok hb s.ip.ref
    rw [← hip0, ← hd0] at hfree
    refine ⟨_, by rw [exec, if_pos hp, hfree]; rfl, ?_⟩
    refine hc.move (p := p) (y := .leaving) (by rw [hp]; decide) (by decide) rfl rfl (by simp) ?_
    refine .after p hl (by simp [freed, hf0]) (by rw [hd0]) (.inl (by simp [State.setPc]))
      fun r hr => ?_
    show (s.setPc p .leaving).pc r = _
    rw [State.setPc_pc, if_neg hr, hq r hr]
  | after q hl hf1 hd1 hs hq =>
    by_cases hqp : p = q
    · rw [hqp] at hp
      simp [hp] at hs
    · rw [hq p hqp] at hp
      cases hp

theorem Counted.decRef (hc : Counted ip d h s) {p : P} (hp : s.pc p = .unlocked) :
    Counted ip d ((.decRef p, .done) :: h)
      { s.setPc p .done with ip := { s.ip with ref := s.ip.ref - 1 } } := by
  have hdone : ∀ q, (s.setPc p .done).pc q = .done ↔ q = p ∨ s.pc q = .done := fun q => by
    rw [State.setPc_pc]
    split <;> simp_all
  refine ⟨fun q => ?_, ?_, hc.phase.quiet hp rfl rfl rfl (by decide) (by decide) (by decide)
    (fun _ => .inr rfl) Iff.rfl rfl⟩
  · rw [hdone, hc.done, List.mem_cons]
    simp
  · have hlive : live { s.setPc p .done with ip := { s.ip with ref := s.ip.ref - 1 } } =
        (live s).erase p := by
      ext q
      rw [mem_live, Finset.mem_erase, mem_live, ne_eq, hdone, not_or]
    have hmem : p ∈ live s := mem_live.2 (by rw [hp]; decide)
    have := Finset.card_erase_add_one hmem
    have := hc.ref
    rw [hlive]
    show s.ip.ref - 1 = _
    omega

theorem Counted.step (hv : ip.valid = true) (hn : ip.nlink = 0) (hb : Freeable d (blocks ip d))
    (hc : Counted ip d h s) (hst : (iput P ip d).Step s e s') : Counted ip d (e :: h) s' := by
  obtain ⟨a, o⟩ := e
  obtain ⟨he, hx⟩ : enabled s a = true ∧ exec s a = .ok (s', o) := hst
  cases a with
  | acquiresleep p =>
    have hp : s.pc p = .start := by
      simp only [enabled, Bool.and_eq_true, decide_eq_true_eq] at he
      exact he.1
    obtain ⟨rfl, rfl⟩ := Prod.mk.inj (Except.ok.inj hx)
    exact hc.move (by rw [hp]; decide) (by decide) rfl rfl (by simp)
      (hc.phase.quiet hp rfl rfl rfl (by decide) (by decide) (by decide) (by simp) Iff.rfl rfl)
  | readRef p => exact hc.readRef hv hn (of_decide_eq_true he) hx rfl
  | free p =>
    obtain ⟨r, hp⟩ : ∃ r, s.pc p = .seen r := by
      simp only [enabled] at he
      split at he
      · exact ⟨_, ‹_›⟩
      · cases he
    by_cases h1 : r = 1
    · obtain ⟨s₁, hs₁, hc₁⟩ := hc.free hb (h1 ▸ hp)
      rw [hs₁] at hx
      obtain ⟨rfl, rfl⟩ := Prod.mk.inj (Except.ok.inj hx)
      exact hc₁
    · rw [exec, if_neg (by simpa [hp] using h1)] at hx
      obtain ⟨rfl, rfl⟩ := Prod.mk.inj (Except.ok.inj hx)
      exact hc.move (by rw [hp]; simp) (by decide) rfl rfl (by simp)
        (hc.phase.quiet hp rfl rfl rfl (by simp) (by simpa using h1) (by decide) (by simp) Iff.rfl rfl)
  | releasesleep p =>
    have hp : s.pc p = .leaving := of_decide_eq_true he
    obtain ⟨rfl, rfl⟩ := Prod.mk.inj (Except.ok.inj hx)
    exact hc.move (by rw [hp]; decide) (by decide) rfl rfl (by simp)
      (hc.phase.quiet hp rfl rfl rfl (by decide) (by decide) (by decide) (fun _ => .inl rfl)
        Iff.rfl rfl)
  | decRef p =>
    obtain ⟨rfl, rfl⟩ := Prod.mk.inj (Except.ok.inj hx)
    exact hc.decRef (of_decide_eq_true he)

theorem Counted.exec_ok (hb : Freeable d (blocks ip d)) (hc : Counted ip d h s) (a : Act P) :
    ∃ r, exec s a = .ok r := by
  cases a with
  | readRef p =>
    simp only [exec]
    split
    · exact ⟨_, rfl⟩
    · exact ⟨_, rfl⟩
  | free p =>
    by_cases hp : s.pc p = .seen 1
    · obtain ⟨r, hr, -⟩ := hc.free hb hp
      exact ⟨_, hr⟩
    · exact ⟨_, if_neg hp⟩
  | _ => exact ⟨_, rfl⟩

/-- **When the last reference to an unlinked inode is gone**, the inode has been freed, and once, if
and only if some process read the reference count after all others had decremented it. If there is
no such process the disk is as it was, with the inode allocated and no reference left to free it.
No section of `iput` goes wrong in either case. -/
theorem iput_frees (hv : ip.valid = true) (hn : ip.nlink = 0) (href : ip.ref = Fintype.card P)
    (hb : Freeable d (blocks ip d)) (hr : (iput P ip d).Runs h s) :
    (∀ a, ∃ r, exec s a = .ok r) ∧
    (s.ip.ref = 0 →
      ((freed h = 1 ∧ (s.disk.dinode ip.inum).type = 0 ∧ ∀ b ∈ blocks ip d, s.disk.used b = false) ↔
        ReadLast h) ∧
      (¬ ReadLast h → freed h = 0 ∧ s.disk = d)) := by
  have hc : Counted ip d h s := hr.invariant (.init href) fun _ hc hst => hc.step hv hn hb hst
  refine ⟨hc.exec_ok hb, fun h0 => ?_⟩
  have hall : ∀ p, s.pc p = .done := fun p => by
    by_contra hp
    have hpos : 0 < (live s).card := Finset.card_pos.2 ⟨p, mem_live.2 hp⟩
    have := hc.ref
    omega
  cases hc.phase with
  | before hl hf0 hip0 hd0 hs => exact ⟨by simp [hf0, hl], fun _ => ⟨hf0, hd0⟩⟩
  | reading p hl hf0 hip0 hd0 hs hq =>
    rw [hall p] at hs
    cases hs
  | after p hl hf1 hd1 hs hq =>
    refine ⟨iff_of_true ⟨hf1, ?_, fun b hmem => ?_⟩ hl, fun hnl => absurd hl hnl⟩
    · rw [hd1]
      simp [freedDisk, iupdate]
    · rw [hd1]
      simp [freedDisk, iupdate, Disk.free, hmem]

end invariant

/-- An open file without links: a direct block 40, and an indirect block 41 that names the block
42. -/
def openFile : Inode where
  type := 2
  nlink := 0
  size := 6656
  addrs i := if i = 0 then 40 else if i = Fin.last NDIRECT then 41 else 0
  inum := 5
  ref := 2
  valid := true

def openDisk : Disk where
  dinode _ := openFile.toDinode
  used b := b = 40 || b = 41 || b = 42
  data b j := if b = 41 ∧ j = 0 then 42 else 0

theorem blocks_openFile : blocks openFile openDisk = [40, 42, 41] := by decide +kernel

theorem freeable_openFile : Freeable openDisk (blocks openFile openDisk) := by
  rw [blocks_openFile]
  exact ⟨by decide, by simp [openDisk]⟩

/-- One process after the other. -/
def inTurn : List (Event (Fin 2)) :=
  [(.acquiresleep 0, .done), (.readRef 0, .done), (.free 0, .done), (.releasesleep 0, .done),
    (.decRef 0, .done), (.acquiresleep 1, .done), (.readRef 1, .done), (.free 1, .freed),
    (.releasesleep 1, .done), (.decRef 1, .done)]

theorem iput_frees_inTurn :
    ∃ s : State (Fin 2), (iput (Fin 2) openFile openDisk).Runs inTurn.reverse s ∧ s.ip.ref = 0 ∧
      (s.disk.dinode 5).type = 0 ∧ s.disk.used 42 = false := by
  obtain ⟨s, hr, hs⟩ := (iput (Fin 2) openFile openDisk).exists_runs inTurn (fun s => s.ip.ref = 0)
    (by decide +kernel)
  have h0 : s.ip.ref = 0 := of_decide_eq_true hs
  have hl : ReadLast inTurn.reverse := by
    refine .inl fun q hq => ?_
    obtain rfl : q = 0 := by omega
    decide
  have hfin := (((iput_frees rfl rfl rfl freeable_openFile hr).2 h0).1.2 hl).2
  exact ⟨s, hr, h0, hfin.1, hfin.2 42 (by rw [blocks_openFile]; decide)⟩

/-- Both processes read the count before either decrements it. -/
def bothRead : List (Event (Fin 2)) :=
  [(.acquiresleep 0, .done), (.readRef 0, .done), (.free 0, .done), (.releasesleep 0, .done),
    (.acquiresleep 1, .done), (.readRef 1, .done), (.free 1, .done), (.releasesleep 1, .done),
    (.decRef 0, .done), (.decRef 1, .done)]

/-- The inode is still allocated and its blocks are still in use, with no reference left. -/
theorem bothRead_leaks :
    ∃ s : State (Fin 2), (iput (Fin 2) openFile openDisk).Runs bothRead.reverse s ∧ s.ip.ref = 0 ∧
      freed bothRead.reverse = 0 ∧ (s.disk.dinode 5).type = 2 ∧
      (blocks openFile openDisk).all s.disk.used = true := by
  obtain ⟨s, hr, hs⟩ := (iput (Fin 2) openFile openDisk).exists_runs bothRead (fun s => s.ip.ref = 0 ∧
    (s.disk.dinode 5).type = 2 ∧ (blocks openFile openDisk).all s.disk.used = true)
    (by decide +kernel)
  obtain ⟨h0, ht, hu⟩ := of_decide_eq_true hs
  exact ⟨s, hr, h0, by decide, ht, hu⟩

end Iput

end Xv6.Fs
