import Xv6.Umalloc.Calls
import Xv6.Vm.Grow

/-!
# The allocator on the kernel

`sbrk` is the system call, on an `int`. A request is rounded up to units and the bytes for them are counted
in 32 bits, so that a large one can become a small or a negative number of bytes.
-/

namespace Xv6.Vm

open Lib Layout

variable [Layout] {k : Kern} {S S' : Space} {n : Word}

def sysSbrk (n : Word) : KernM Word := do
  let curproc ← myproc
  let addr := curproc.sz
  let r ← growproc n
  pure (if r < 0 then -1 else addr)

theorem Runs.grow (h : Runs k S) (hn : n.toInt > 0) :
    ∃ r k' S', (growproc n).eval k = (.ok r, k') ∧ Runs k' S' ∧
      (r = 0 ∧ (k'.curproc.sz.toNat : ℤ) = k.curproc.sz.toNat + n.toInt ∨
        r = -1 ∧ k'.curproc.sz = k.curproc.sz ∧
          (k.mem.luck = [] → k.curproc.sz.toNat + n.toInt < 2 ^ 31 →
            S.owned.card + k.mem.free.length ≤
              1026 + S.users.card + (pages (k.curproc.sz + n) - pages k.curproc.sz))) := by
  have hszlt : k.curproc.sz.toNat < 2 ^ 31 := h.sz
  have hadd := toNat_add_of_pos hszlt hn
  have hruns : ∀ {m : Mem} {S' : Space} {k' : Kern}, At h.pool S' m → k'.mem = m → k'.curproc.pgdir = some S'.dir →
      k'.curproc.kstack = k.curproc.kstack → k'.curproc.sz < KERNBASE →
      (∀ v < 2 ^ 19, Present (S'.leaf v) ↔ v < pages k'.curproc.sz) → Runs k' S' := by
    rintro m S' k' hat rfl hdir hkstack hsz hmapped
    refine ⟨hdir, hkstack ▸ h.kstack, hat.rep, ?_, fun f hf => ?_, hsz, hmapped⟩
    · rw [hat.pool.split]
      exact h.pool.frames.nodup
    · rw [hat.pool.split] at hf
      exact h.pool.usable f hf
  obtain ⟨m, S', hat, ⟨hev, hnew, hle, hg⟩ | ⟨hev, hg, hshort⟩⟩ := grow_run h hn
  · have hmono : pages k.curproc.sz ≤ pages (k.curproc.sz + n) := by
      unfold pages
      omega
    refine ⟨0, _, S', hev, hruns hat rfl ?_ ?_ ?_ fun v hv => ?_, .inl ⟨rfl, ?_⟩⟩
    · rw [resize_pgdir, h.pgdir, hg.dir]
    · show (Function.update k.proc k.cur _ k.cur).kstack = _
      rw [Function.update_self]
    · rw [resize_sz]
      exact hnew
    · rw [resize_sz]
      by_cases hin : pages k.curproc.sz ≤ v ∧ v < pages (k.curproc.sz + n)
      · exact ⟨fun _ => hin.2, fun _ => hg.present v hin.1 hin.2⟩
      · rw [hg.leaf v hin, h.mapped v hv]
        omega
    · rw [resize_sz]
      exact hadd
  · refine ⟨-1, _, S', hev, hruns hat rfl ?_ rfl h.sz fun v hv => ?_,
      .inr ⟨rfl, rfl, fun hluck hlt => ?_⟩⟩
    · rw [hg.dir]
      exact h.pgdir
    · rw [hg.leaf v (by omega)]
      exact h.mapped v hv
    · have hcard : h.pool.frames.card = S.owned.card + k.mem.free.length := by
        show (S.owned + ↑k.mem.free : Multiset Frame).card = _
        rw [Multiset.card_add, Multiset.coe_card]
      rw [← hcard]
      exact hshort hluck hlt

theorem eval_sbrk {r : Int} {k' : Kern} (hev : (growproc n).eval k = (.ok r, k')) :
    (sysSbrk n).eval k = (.ok (if r < 0 then -1 else k.curproc.sz), k') := by
  unfold sysSbrk
  refine (Prog.eval_bind (a := k.curproc) (t := k) rfl).trans ?_
  exact (Prog.eval_bind hev).trans rfl

theorem Runs.sbrk (h : Runs k S) (hn : n.toInt > 0) :
    ∃ p k' S', (sysSbrk n).eval k = (.ok p, k') ∧ Runs k' S' ∧
      (p = k.curproc.sz ∧ (k'.curproc.sz.toNat : ℤ) = k.curproc.sz.toNat + n.toInt ∨
        p = -1 ∧ k'.curproc.sz = k.curproc.sz) := by
  obtain ⟨r, k', S', hev, hruns, hres⟩ := h.grow hn
  refine ⟨_, k', S', eval_sbrk hev, hruns, ?_⟩
  rcases hres with ⟨rfl, hsz⟩ | ⟨rfl, hsz, -⟩
  · exact .inl ⟨rfl, hsz⟩
  · exact .inr ⟨rfl, hsz⟩

theorem Runs.userByte_isSome (h : Runs k S) {a : ℕ} (ha : a < k.curproc.sz.toNat) :
    (userByte k.mem.page S.dir a).isSome = true := by
  have hsz : k.curproc.sz.toNat < 2 ^ 31 := h.sz
  rw [h.rep.userByte (by omega), if_pos]
  · rfl
  · refine (h.mapped _ (by omega)).2 ?_
    unfold pages
    omega

end Xv6.Vm

namespace Xv6.Umalloc

open Lib Vm Vm.Layout

section layout

variable [Layout]

/-- The system of a user program: `sbrk` is the system call, and a header is in memory if all of its bytes
are mapped. -/
def kernSys (base : ℕ) : Sys Kern where
  base := base
  mapped k x := (List.range 8).all fun i => (k.curproc.pgdir.bind fun dir => userByte k.mem.page dir (x + i)).isSome
  sbrk n k :=
    match (sysSbrk (BitVec.ofNat 32 n)).eval k with
    | (.ok p, k') => .ok (p.toNat, k')
    | (.error e, _) => .error e

/-- A user program: its heap, the headers of the blocks in use, and the kernel below it. -/
structure Process where
  heap : Heap
  live : List ℕ := []
  kern : Kern

inductive Event
  | malloc (nbytes : ℕ)
  /-- `free` of the block whose header is at `bp`. -/
  | free (bp : ℕ)
  /-- Memory that can be read as a header at `x` is written. -/
  | write (x ptr size : ℕ)
  /-- Other processes run. -/
  | other (k : Kern)

/-- One step of a user program. Pointers that are given back are in use, and what is written is inside of a
block in use. -/
def Process.Step (base : ℕ) (p : Process) : Event → Process → Prop
  | .malloc nbytes, p' => ∃ r, Umalloc.malloc (kernSys base) nbytes p.heap p.kern = .ok (r, p'.heap, p'.kern) ∧
      p'.live = if r = 0 then p.live else (r - 8) :: p.live
  | .free bp, p' => bp ∈ p.live ∧ p.heap.free (kernSys base) p.kern (bp + 8) = .ok p'.heap ∧
      p'.live = p.live.erase bp ∧ p'.kern = p.kern
  | .write x ptr size, p' => (∃ b ∈ p.live, b < x ∧ x < b + 8 * p.heap.size b) ∧ p' = { p with heap := { p.heap with
      ptr := Function.update p.heap.ptr x ptr
      size := Function.update p.heap.size x size } }
  | .other k, p' => (∃ S, Runs k S) ∧ k.curproc.sz = p.kern.curproc.sz ∧ p' = { p with kern := k }

/-- A request of which the units have a positive `int` of bytes. -/
def Event.Small : Event → Prop
  | .malloc nbytes => ((nbytes + 7) / 8 + 1) * 8 < 2 ^ 31
  | _ => True

variable {base nbytes : ℕ} {p p' : Process} {e : Event} {S : Space} {rs : List (ℕ × ℕ)}

/-! ### The invariant -/

/-- The memory of the allocator is below the size of the process. -/
structure Sized (base : ℕ) (p : Process) : Prop where
  runs : ∃ S, Runs p.kern S
  ready : ∃ l rs, Ready base p.heap l p.live rs ∧ ∀ r ∈ rs, r.1 + 8 * r.2 ≤ p.kern.curproc.sz.toNat
  base : base + 8 ≤ p.kern.curproc.sz.toNat

theorem mapped_kernSys {k : Kern} (h : Runs k S) (hbase : base + 8 ≤ k.curproc.sz.toNat)
    (hrs : ∀ r ∈ rs, r.1 + 8 * r.2 ≤ k.curproc.sz.toNat) : Mapped (kernSys base) k rs := by
  intro x hx
  have hlt : x + 8 ≤ k.curproc.sz.toNat := by
    rcases hx with rfl | hx
    · exact hbase
    · obtain ⟨r, hr, i, hi, rfl⟩ := mem_allUnits.1 hx
      have := units_inside (mem_units.2 ⟨i, hi, rfl⟩ : r.1 + 8 * i ∈ units 8 r.1 r.2)
      have := hrs r hr
      omega
  refine List.all_eq_true.2 fun i hi => ?_
  have := List.mem_range.1 hi
  rw [h.pgdir]
  exact h.userByte_isSome (by omega)

omit [Layout] in
/-- A block ends where the memory from `sbrk` ends, or before. -/
theorem Inv.below {h : Heap} {l live : List ℕ} {x z : ℕ} (hi : Inv base h l live rs)
    (hrs : ∀ r ∈ rs, r.1 + 8 * r.2 ≤ z) (hx : x ∈ l ++ live) : x + 8 * h.size x ≤ z := by
  have hpos := hi.pos hx
  obtain ⟨r, hr, i, hlt, heq⟩ := mem_allUnits.1
    (hi.unit (List.mem_cons_of_mem base hx) (by omega : h.size x - 1 < h.size x))
  have := units_inside (mem_units.2 ⟨i, hlt, rfl⟩ : r.1 + 8 * i ∈ units 8 r.1 r.2)
  have := hrs r hr
  omega

theorem kernSys_sbrk (base : ℕ) {n : ℕ} {a : Word} {k k' : Kern}
    (hev : (sysSbrk (BitVec.ofNat 32 n)).eval k = (.ok a, k')) :
    (kernSys base).sbrk n k = .ok (a.toNat, k') := by
  show (match (sysSbrk _).eval k with
    | (.ok p, k') => Except.ok (p.toNat, k')
    | (.error e, _) => .error e) = _
  rw [hev]

/-- What `sbrk` gives to the allocator: nothing, or new memory at the end of the process. -/
theorem Sized.sbrk (hs : Sized base p) (hn : ((nbytes + 7) / 8 + 1) * 8 < 2 ^ 31) :
    ∃ a k' S', (kernSys base).sbrk (coreUnits (nunits nbytes) * 8 % 2 ^ 32) p.kern = .ok (a, k') ∧ Runs k' S' ∧
      (a = p.kern.curproc.sz.toNat ∧ k'.curproc.sz.toNat = a + 8 * coreUnits (nunits nbytes) ∨
        a = 2 ^ 32 - 1 ∧ k'.curproc.sz = p.kern.curproc.sz) := by
  obtain ⟨S, hruns⟩ := hs.runs
  obtain ⟨hunits, -⟩ := nunits_eq hn
  have hcore : 0 < coreUnits (nunits nbytes) * 8 ∧ coreUnits (nunits nbytes) * 8 < 2 ^ 31 := by
    rw [hunits]
    unfold coreUnits
    split <;> omega
  rw [Nat.mod_eq_of_lt (by omega)]
  have hint := word_toInt hcore.2
  obtain ⟨a, k', S', hev, hruns', hres⟩ := hruns.sbrk (n := BitVec.ofNat 32 (coreUnits (nunits nbytes) * 8)) (by omega)
  refine ⟨a.toNat, k', S', kernSys_sbrk base hev, hruns', ?_⟩
  rcases hres with ⟨rfl, hsz⟩ | ⟨rfl, hsz⟩
  · exact .inl ⟨rfl, by omega⟩
  · exact .inr ⟨rfl, hsz⟩

/-- **A small request** is served with enough memory of the process, or not at all. -/
theorem Sized.malloc (hs : Sized base p) (hn : ((nbytes + 7) / 8 + 1) * 8 < 2 ^ 31) :
    ∃ r h' k', Umalloc.malloc (kernSys base) nbytes p.heap p.kern = .ok (r, h', k') ∧
      Sized base { heap := h', live := if r = 0 then p.live else (r - 8) :: p.live, kern := k' } ∧
      p.kern.curproc.sz.toNat ≤ k'.curproc.sz.toNat ∧
      (r ≠ 0 → nbytes + 8 ≤ 8 * h'.size (r - 8) ∧ r + nbytes ≤ k'.curproc.sz.toNat) := by
  obtain ⟨S, hruns⟩ := hs.runs
  obtain ⟨l, rs, hready, hrs⟩ := hs.ready
  obtain ⟨a, k', S', hsbrk, hruns', hres⟩ := hs.sbrk hn
  have hbase := hs.base
  have hsz : k'.curproc.sz.toNat < 2 ^ 31 := hruns'.sz
  have hunits := (nunits_eq hn).1
  have hlarge : nbytes + 8 ≤ 8 * nunits nbytes := by omega
  -- the memory that `sbrk` gives is above what it has given before
  have hnew : a ≠ 2 ^ 32 - 1 → Regions base ((a, coreUnits (nunits nbytes)) :: rs) ∧
      (∀ r ∈ (a, coreUnits (nunits nbytes)) :: rs, r.1 + 8 * r.2 ≤ k'.curproc.sz.toNat) := by
    intro hne
    obtain ⟨ha, hsz'⟩ := hres.resolve_right fun h => hne h.1
    have hregions := hready.regions
    refine ⟨⟨hregions.pos, List.pairwise_cons.2 ⟨fun r hr => .inr ?_, hregions.apart⟩, fun r hr => ?_⟩, fun r hr => ?_⟩
    · rw [ha]
      exact hrs r hr
    · rcases List.mem_cons.1 hr with rfl | hr
      · dsimp only
        omega
      · exact hregions.bounds r hr
    · rcases List.mem_cons.1 hr with rfl | hr
      · dsimp only
        omega
      · have := hrs r hr
        omega
  have hmono : p.kern.curproc.sz.toNat ≤ k'.curproc.sz.toNat := by
    rcases hres with ⟨rfl, hsz'⟩ | ⟨-, hsz'⟩
    · omega
    · rw [hsz']
  obtain ⟨r, h', k'', hmalloc, hresult⟩ := Ready.malloc (S := kernSys base) hready (mapped_kernSys hruns hbase hrs) hsbrk
    fun hne => ⟨(hnew hne).1, mapped_kernSys hruns' (by omega) (hnew hne).2⟩
  refine ⟨r, h', k'', hmalloc, ?_⟩
  have hserved : ∀ {x : ℕ} {l' : List ℕ} {rs' : List (ℕ × ℕ)} {k₁ : Kern} {S₁ : Space},
      Taken base p.heap p.live rs' (nunits nbytes) x h' l' → Runs k₁ S₁ →
      (∀ r ∈ rs', r.1 + 8 * r.2 ≤ k₁.curproc.sz.toNat) → p.kern.curproc.sz.toNat ≤ k₁.curproc.sz.toNat →
      Sized base { heap := h', live := if x + 8 = 0 then p.live else (x + 8 - 8) :: p.live, kern := k₁ } ∧
        p.kern.curproc.sz.toNat ≤ k₁.curproc.sz.toNat ∧
        (x + 8 ≠ 0 → nbytes + 8 ≤ 8 * h'.size (x + 8 - 8) ∧ x + 8 + nbytes ≤ k₁.curproc.sz.toNat) := by
    intro x l' rs' k₁ S₁ ht hr₁ hrs' hle
    have hbelow := ht.inv.below hrs' (x := x) (by simp)
    rw [ht.size] at hbelow
    refine ⟨⟨⟨S₁, hr₁⟩, ⟨l', rs', .inr ?_, hrs'⟩, ?_⟩, hle, fun _ => ⟨?_, by omega⟩⟩
    · dsimp only
      rw [if_neg (Nat.succ_ne_zero _), Nat.add_sub_cancel]
      exact ht.inv
    · dsimp only
      omega
    · rw [Nat.add_sub_cancel, ht.size]
      exact hlarge
  cases hresult with
  | found ht => exact hserved ht hruns hrs le_rfl
  | grown hs' hne ht =>
    obtain ⟨rfl, rfl⟩ := Prod.mk.inj (Except.ok.inj (hsbrk.symm.trans hs'))
    exact hserved ht hruns' (hnew hne).2 hmono
  | failed hs' hi hframe =>
    obtain ⟨rfl, rfl⟩ := Prod.mk.inj (Except.ok.inj (hsbrk.symm.trans hs'))
    refine ⟨⟨⟨S', hruns'⟩, ⟨_, rs, .inr hi, fun r hr => (hrs r hr).trans hmono⟩, by dsimp only; omega⟩, hmono,
      fun h => absurd rfl h⟩

/-- **A step** with a small request keeps the memory of the allocator below the size of the process. -/
theorem Sized.step (hs : Sized base p) (hst : p.Step base e p') (hsmall : e.Small) : Sized base p' := by
  obtain ⟨S, hruns⟩ := hs.runs
  obtain ⟨l, rs, hready, hrs⟩ := hs.ready
  have hinv : p.live ≠ [] → Inv base p.heap l p.live rs := fun hne => hready.resolve_left fun h => hne h.2.2.2.1
  cases e with
  | malloc nbytes =>
    obtain ⟨r, hmalloc, hlive⟩ := hst
    obtain ⟨r', h', k', hmalloc', hs', -⟩ := hs.malloc hsmall
    obtain ⟨rfl, hrest⟩ := Prod.mk.inj (Except.ok.inj (hmalloc.symm.trans hmalloc'))
    obtain ⟨rfl, rfl⟩ := Prod.mk.inj hrest
    rw [← hlive] at hs'
    exact hs'
  | free bp =>
    obtain ⟨hbp, hfree, hlive, hkern⟩ := hst
    obtain ⟨h', l', hfree', hi', -⟩ := ((hinv (List.ne_nil_of_mem hbp)).perm (List.perm_cons_erase hbp)).free
      (S := kernSys base) (mapped_kernSys hruns hs.base hrs) rfl
    obtain rfl := Except.ok.inj (hfree.symm.trans hfree')
    refine ⟨⟨S, hkern ▸ hruns⟩, ⟨l', rs, .inr ?_, hkern ▸ hrs⟩, hkern ▸ hs.base⟩
    rw [hlive]
    exact hi'
  | write x ptr size =>
    obtain ⟨⟨b, hb, h₁, h₂⟩, rfl⟩ := hst
    exact ⟨⟨S, hruns⟩, ⟨l, rs, .inr ((hinv (List.ne_nil_of_mem hb)).write ptr size hb h₁ h₂).1, hrs⟩, hs.base⟩
  | other k =>
    obtain ⟨hk, hsz, rfl⟩ := hst
    exact ⟨hk, ⟨l, rs, hready, fun r hr => hsz ▸ hrs r hr⟩, hsz ▸ hs.base⟩

/-- **A block is as large as requested**, as its header says, and inside of the process, and `malloc` does not shrink
the process, in every run in which all requests are small. -/
theorem malloc_large_enough {ptr size : ℕ → ℕ} {k : Kern} {hist : List Event} (hruns : Runs k S) (hpos : 0 < base)
    (hbase : base + 8 ≤ k.curproc.sz.toNat)
    (hr : Run (fun p e p' => p.Step base e p' ∧ e.Small) { heap := { ptr, size }, kern := k } hist p)
    (hn : (Event.malloc nbytes).Small) :
    ∃ r h' k', malloc (kernSys base) nbytes p.heap p.kern = .ok (r, h', k') ∧
      p.kern.curproc.sz.toNat ≤ k'.curproc.sz.toNat ∧
      (r ≠ 0 → nbytes + 8 ≤ 8 * h'.size (r - 8) ∧ r + nbytes ≤ k'.curproc.sz.toNat) := by
  have hsized : Sized base p := hr.invariant (P := fun _ p => Sized base p)
    ⟨⟨S, hruns⟩, ⟨[], [], .inl ⟨rfl, hpos, rfl, rfl, rfl⟩, nofun⟩, hbase⟩ fun _ hs hst => hs.step hst.1 hst.2
  obtain ⟨r, h', k', hmalloc, -, hrest⟩ := hsized.malloc hn
  exact ⟨r, h', k', hmalloc, hrest⟩

end layout

attribute [local instance] sampleLayout

/-- A process of two pages, with frames for eight more: its first request, if it is for one call of `morecore` of the
smallest size, is served. -/
theorem exists_first : ∃ k S, Runs k S ∧ k.curproc.sz = 8192 ∧
    ∀ nbytes, coreUnits (nunits nbytes) = 4096 →
      ∃ r h' k', malloc (kernSys 4096) nbytes { ptr := fun _ => 0, size := fun _ => 0 } k = .ok (r, h', k') ∧
        r ≠ 0 ∧ k'.curproc.sz.toNat < 2 ^ 31 := by
  obtain ⟨k, S, h, -, hsz, hluck, hfree⟩ := exists_runs (n := 3000) (N := 2) (by omega) (by omega) fun _ _ => 0
  have hsz : k.curproc.sz = 8192 := hsz
  refine ⟨k, S, h, hsz, fun nbytes hunits => ?_⟩
  obtain ⟨r, k', S', hev, hruns', hres⟩ := h.grow (n := 32768) (by decide)
  have hgrown : r = 0 ∧ (k'.curproc.sz.toNat : ℤ) = k.curproc.sz.toNat + (32768 : Word).toInt := by
    refine hres.resolve_right fun hfail => ?_
    have hcard := hfail.2.2 hluck (by rw [hsz]; decide)
    have howned : S.users.card + 1 ≤ S.owned.card := by
      rw [Space.owned, Multiset.card_cons, Multiset.card_add]
      omega
    have hpages : pages (k.curproc.sz + 32768) - pages k.curproc.sz = 8 := by
      rw [hsz]
      decide
    omega
  obtain ⟨rfl, hsz'⟩ := hgrown
  have hsz' : k'.curproc.sz.toNat = 40960 := by
    rw [hsz] at hsz'
    exact Int.ofNat.inj hsz'
  have hsbrk : (kernSys 4096).sbrk (coreUnits (nunits nbytes) * 8 % 2 ^ 32) k = .ok (8192, k') := by
    have := kernSys_sbrk 4096 (n := 32768) (eval_sbrk hev)
    rw [hsz] at this
    rw [hunits]
    exact this
  have hmapped : Mapped (kernSys 4096) k [] := mapped_kernSys h (by rw [hsz]; decide)
    fun r hr => absurd hr List.not_mem_nil
  have hnew : Regions 4096 [(8192, 4096)] ∧ Mapped (kernSys 4096) k' [(8192, 4096)] := by
    refine ⟨⟨by decide, List.pairwise_singleton .., ?_⟩, mapped_kernSys hruns' (by omega) ?_⟩
    · rintro r hr
      rw [List.mem_singleton.1 hr]
      decide
    · rintro r hr
      rw [List.mem_singleton.1 hr, hsz']
      decide
  obtain ⟨r, h', k'', hmalloc, hresult⟩ := Ready.malloc (S := kernSys 4096) (l := [])
    (h := { ptr := fun _ => 0, size := fun _ => 0 }) (.inl ⟨rfl, by decide, rfl, rfl, rfl⟩) hmapped hsbrk
    fun _ => by rwa [hunits]
  refine ⟨r, h', k'', hmalloc, ?_⟩
  cases hresult with
  | found ht => exact ⟨Nat.succ_ne_zero _, h.sz⟩
  | grown hs' hne ht =>
    obtain ⟨rfl, rfl⟩ := Prod.mk.inj (Except.ok.inj (hsbrk.symm.trans hs'))
    exact ⟨Nat.succ_ne_zero _, hruns'.sz⟩
  | failed hs' hi hframe =>
    cases (Prod.mk.inj (Except.ok.inj (hsbrk.symm.trans hs'))).1

/-- A process of two pages asks for 100 bytes, and gets a block. -/
theorem malloc_large_enough_first : ∃ k S, Runs k S ∧ k.curproc.sz = 8192 ∧
    ∃ r h' k', malloc (kernSys 4096) 100 { ptr := fun _ => 0, size := fun _ => 0 } k = .ok (r, h', k') ∧ r ≠ 0 ∧
      k.curproc.sz.toNat ≤ k'.curproc.sz.toNat ∧ 108 ≤ 8 * h'.size (r - 8) ∧ r + 100 ≤ k'.curproc.sz.toNat := by
  obtain ⟨k, S, h, hsz, hfirst⟩ := exists_first
  obtain ⟨r, h', k', hmalloc, hr, -⟩ := hfirst 100 (by decide)
  have hbase : 4096 + 8 ≤ k.curproc.sz.toNat := by
    rw [hsz]
    decide
  have hsmall : (Event.malloc 100).Small := show ((100 + 7) / 8 + 1) * 8 < 2 ^ 31 by decide
  obtain ⟨r₁, h₁, k₁, hmalloc₁, hle, hlarge⟩ := malloc_large_enough h (by decide) hbase .start hsmall
  obtain ⟨rfl, hrest⟩ := Prod.mk.inj (Except.ok.inj (hmalloc₁.symm.trans hmalloc))
  obtain ⟨rfl, rfl⟩ := Prod.mk.inj hrest
  exact ⟨k, S, h, hsz, _, _, _, hmalloc, hr, hle, hlarge hr⟩

/-- A process of two pages asks for all of memory, and gets a block of one unit; and it asks for one page
less than all of memory, for which `sbrk` is called with `-4088`. -/
theorem malloc_too_small : ∃ k S, Runs k S ∧ k.curproc.sz = 8192 ∧
    (∃ r h' k', malloc (kernSys 4096) (2 ^ 32 - 1) { ptr := fun _ => 0, size := fun _ => 0 } k = .ok (r, h', k') ∧
      r ≠ 0 ∧ ¬r + (2 ^ 32 - 1) ≤ k'.curproc.sz.toNat) ∧
    ∃ k', (kernSys 4096).sbrk (coreUnits (nunits 0xFFFFF000) * 8 % 2 ^ 32) k = .ok (8192, k') ∧
      k'.curproc.sz.toNat < k.curproc.sz.toNat := by
  obtain ⟨k, S, h, hsz, hfirst⟩ := exists_first
  refine ⟨k, S, h, hsz, ?_, ?_⟩
  · obtain ⟨r, h', k', hmalloc, hr, hlt⟩ := hfirst (2 ^ 32 - 1) (by decide)
    exact ⟨r, h', k', hmalloc, hr, by omega⟩
  · obtain ⟨m, hm, -⟩ := dealloc_run h (k.curproc.sz + -4088)
    have hev := eval_grow_neg h (by decide) hm
    rw [hsz, if_neg (by decide), grown, if_neg (by decide)] at hev
    have hsbrk := kernSys_sbrk 4096 (n := 0xFFFFF008) (eval_sbrk hev)
    rw [hsz] at hsbrk
    refine ⟨_, hsbrk, ?_⟩
    rw [resize_sz, hsz]
    decide

end Xv6.Umalloc
