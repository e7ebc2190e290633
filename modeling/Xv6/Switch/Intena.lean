import Xv6.Switch.Code
import Mathlib.Algebra.BigOperators.Group.List.Basic
import Mathlib.Algebra.Ring.Int.Defs
import Mathlib.Data.Int.Notation

/-!
# Interrupt state belongs to the thread

On every CPU, `ncli` is the nesting depth of the thread that runs there, and `intena` is the flag of its
outermost `pushcli`, except in a thread that has just been resumed and still has `intena` on its stack.
-/

namespace Xv6.Switch

open Lib

variable {C T L : Type} {pt : L}

/-! ### Frames -/

/-- How an instruction changes the nesting depth. `readeflags` begins a `pushcli`. -/
def Op.delta : Op L → ℤ
  | readeflags => 1
  | cli _ => 1
  | popcli => -1
  | _ => 0

def net (ops : List (Op L)) : ℤ := (ops.map Op.delta).sum

/-- An instruction of the code, and not one that holds what was read before it. -/
def Op.plain : Op L → Bool
  | cli _ => false
  | resume _ => false
  | _ => true

theorem net_cons {o : Op L} {ops : List (Op L)} : net (o :: ops) = o.delta + net ops := List.sum_cons

theorem net_append {ops ops' : List (Op L)} : net (ops ++ ops') = net ops + net ops' := by
  unfold net
  rw [List.map_append, List.sum_append]

variable [DecidableEq L]

/-- The frames of a thread at the nesting depth `d`. Under all of them, the depth meets `B`, and a function
is called there only if `A` says so. -/
def Stack (pt : L) (A : Call L → ℕ → Prop) (B : ℕ → Prop) : ℕ → List (Frame L) → Prop
  | d, [] => B d
  | d, .call k ops b :: fs =>
    d + net ops = b + net (k.code pt) ∧ (∀ o ∈ ops.tail, o.plain = true) ∧ Frame.free fs = true ∧
      (fs = [] → A k b) ∧ Stack pt A B b fs
  | _, .intr saved :: fs =>
    -- an interrupt comes at the depth 0, with the flag set
    saved = true ∧ Stack pt A B 0 fs ∧ ∀ k e ops b gs, fs = .call k (.cli e :: ops) b :: gs → e = true

/-- A `pushcli` that goes on with `cli` has read the flag as it still is. -/
def Read (flag : Bool) (fs : List (Frame L)) : Prop :=
  ∀ k e ops b gs, fs = .call k (.cli e :: ops) b :: gs → e = flag

/-- What `intena` will be when the thread goes on. -/
def pending (intena : Bool) : List (Frame L) → Bool
  | .call _ (.resume i :: _) _ :: _ => i
  | _ => intena

/-- The functions that a scheduler calls in its loop, and at which nesting depth. -/
def allowed (scan : C → Bool) : Who C T → Call L → ℕ → Prop
  | .thread _, _, _ => True
  | .sched c, .acquire _, b => scan c = false ∧ b = 0
  | .sched c, .release _, b => scan c = true ∧ b = 1
  | .sched c, .switchuvm, b => scan c = true ∧ b = 1
  | .sched _, _, _ => False

/-- A scheduler holds `ptable.lock` while it looks through the process table, and nothing otherwise. -/
def base (scan : C → Bool) : Who C T → ℕ → Prop
  | .thread _, _ => True
  | .sched c, d => d = if scan c then 1 else 0

/-- **A thread on a CPU.** -/
structure Good (pt : L) (scan : C → Bool) (w : Who C T) (u : Cpu) (x : Ctx L) : Prop where
  ncli : u.ncli = x.depth
  flag : u.flag = true → u.ncli = 0
  stack : Stack pt (allowed scan w) (base scan w) x.depth x.frames
  read : Read u.flag x.frames
  intena : ∀ v, x.outer = some v → pending u.intena x.frames = v
  outer : ∀ v, x.outer = some v → 0 < x.depth
  sched : ∀ c, w = .sched c → x.outer = none

variable {scan : C → Bool} {w : Who C T} {A : Call L → ℕ → Prop} {B : ℕ → Prop} {u u' : Cpu} {x x' : Ctx L}
  {k : Call L} {b d d' : ℕ} {o : Op L} {ops : List (Op L)} {fs : List (Frame L)}

/-- The functions that may switch to another thread are balanced. -/
theorem net_code (hk : k = .yield ∨ (∃ lk, k = .sleep lk) ∨ k = .exit) : net (k.code pt) = 0 := by
  have hacquire : ∀ lk : L, net (Op.acquire lk) = 1 := fun lk => rfl
  have hrelease : ∀ lk : L, net (Op.release lk) = -1 := fun lk => rfl
  have hmyproc : net (Op.myproc : List (Op L)) = 0 := rfl
  have hsched : net (Op.sched pt) = 0 := rfl
  rcases hk with rfl | ⟨lk, rfl⟩ | rfl
  · simp only [Call.code, Op.yield, net_append, hacquire, hrelease, hmyproc, hsched]
    rfl
  · simp only [Call.code, Op.sleep, net_append, hmyproc]
    split
    · rw [hsched]
      rfl
    · simp only [net_append, hacquire, hrelease, hsched]
      rfl
  · exact hsched

theorem plain_code : ∀ o ∈ k.code pt, o.plain = true := by
  refine List.all_eq_true.1 ?_
  cases k with
  | sleep lk =>
    simp only [Call.code, Op.sleep]
    split <;> rfl
  | _ => rfl

omit [DecidableEq L] in
theorem read_of_plain {flag : Bool} (h : ∀ o ∈ ops, o.plain = true) : Read flag (.call k ops b :: fs) := by
  rintro k' e ops' b' gs heq
  obtain ⟨⟨-, rfl, -⟩, -⟩ := List.cons.inj heq |>.imp_left Frame.call.inj
  exact absurd (h (.cli e) List.mem_cons_self) Bool.false_ne_true

omit [DecidableEq L] in
theorem pending_of_plain {i : Bool} (h : ∀ o ∈ ops, o.plain = true) : pending i (.call k ops b :: fs) = i := by
  cases ops with
  | nil => rfl
  | cons o ops =>
    cases o with
    | resume j => exact absurd (h (.resume j) List.mem_cons_self) Bool.false_ne_true
    | _ => rfl

/-! ### One instruction -/

theorem Stack.plain (h : Stack pt A B d (.call k (o :: ops) b :: fs)) : ∀ o ∈ ops, o.plain = true := h.2.1

theorem Stack.next (h : Stack pt A B d (.call k (o :: ops) b :: fs)) (hd : (d' : ℤ) = d + o.delta) :
    Stack pt A B d' (.call k ops b :: fs) := by
  refine ⟨?_, fun o' ho' => h.plain o' (List.mem_of_mem_tail ho'), h.2.2⟩
  rw [← h.1, hd, net_cons, add_assoc]

theorem Stack.half (h : Stack pt A B d (.call k (o :: ops) b :: fs)) (o' : Op L) (ho : o'.delta = o.delta) :
    Stack pt A B d (.call k (o' :: ops) b :: fs) := by
  refine ⟨?_, h.plain, h.2.2⟩
  rw [← h.1, net_cons, net_cons, ho]

theorem Good.next (hg : Good pt scan w u x) (hx : x.frames = .call k (o :: ops) b :: fs)
    (hx' : x'.frames = .call k ops b :: fs) (hd : (x'.depth : ℤ) = x.depth + o.delta)
    (hncli : u'.ncli = x'.depth) (hflag : u'.flag = true → u'.ncli = 0)
    (hintena : ∀ v, x'.outer = some v → u'.intena = v ∧ 0 < x'.depth) (hsched : ∀ c, w = .sched c → x'.outer = none) :
    Good pt scan w u' x' := by
  have hstack := hg.stack
  rw [hx] at hstack
  refine ⟨hncli, hflag, ?_, ?_, fun v hv => ?_, fun v hv => (hintena v hv).2, hsched⟩
  · rw [hx']
    exact hstack.next hd
  · rw [hx']
    exact read_of_plain hstack.plain
  · rw [hx', pending_of_plain hstack.plain]
    exact (hintena v hv).1

/-- An instruction that does not touch the CPU. -/
theorem Good.skip (hg : Good pt scan w u x) (hx : x.frames = .call k (o :: ops) b :: fs) (hd : o.delta = 0)
    (ho : ∀ i, o ≠ .resume i) : Good pt scan w u { x with frames := .call k ops b :: fs } := by
  refine hg.next hx rfl (by rw [hd, add_zero]) hg.ncli hg.flag (fun v hv => ⟨?_, hg.outer v hv⟩) hg.sched
  have hi := hg.intena v hv
  rw [hx] at hi
  cases o with
  | resume i => exact absurd rfl (ho i)
  | _ => exact hi

theorem Good.readeflags (hg : Good pt scan w u x) (hx : x.frames = .call k (.readeflags :: ops) b :: fs) :
    Good pt scan w u { x with frames := .call k (.cli u.flag :: ops) b :: fs } := by
  have hstack := hg.stack
  have hintena := hg.intena
  rw [hx] at hstack hintena
  refine ⟨hg.ncli, hg.flag, hstack.half _ rfl, ?_, hintena, hg.outer, hg.sched⟩
  rintro k' e ops' b' gs heq
  obtain ⟨⟨-, hops, -⟩, -⟩ := List.cons.inj heq |>.imp_left Frame.call.inj
  exact (Op.cli.inj (List.cons.inj hops).1).symm

theorem Good.cli {e : Bool} {outer : Option Bool} (hg : Good pt scan w u x)
    (hx : x.frames = .call k (.cli e :: ops) b :: fs)
    (houter : ∀ v, outer = some v → (∃ t, w = .thread t) ∧ (if x.depth = 0 then v = u.flag else x.outer = some v)) :
    Good pt scan w (u.cli e) { frames := .call k ops b :: fs, depth := x.depth + 1, outer } := by
  refine hg.next hx rfl rfl (congrArg (· + 1) hg.ncli) nofun (fun v hv => ⟨?_, Nat.succ_pos _⟩) fun c hc => ?_
  · have hv := (houter v hv).2
    have he : e = u.flag := hg.read k e ops b fs hx
    unfold Cpu.cli
    dsimp only
    rw [hg.ncli]
    by_cases hd : x.depth = 0
    · rw [if_pos hd] at hv ⊢
      rw [he, hv]
    · rw [if_neg hd] at hv ⊢
      have hi := hg.intena v hv
      rwa [hx] at hi
  · cases outer with
    | none => rfl
    | some v =>
      obtain ⟨⟨t, rfl⟩, -⟩ := houter v rfl
      cases hc

theorem Good.popcli (hg : Good pt scan w u x) (hx : x.frames = .call k (.popcli :: ops) b :: fs)
    (hd : x.depth - 1 ≠ 0) :
    Good pt scan w u.popcli { x with frames := .call k ops b :: fs, depth := x.depth - 1 } := by
  have hncli := hg.ncli
  refine hg.next hx rfl ?_ (congrArg (· - 1) hncli) ?_ (fun v hv => ⟨?_, Nat.pos_of_ne_zero hd⟩) hg.sched
  · dsimp only [Op.delta]
    omega
  · intro h
    exact (of_decide_eq_true h).1
  · have hi := hg.intena v hv
    rwa [hx] at hi

theorem Good.popcli_last (hg : Good pt scan w u x) (hx : x.frames = .call k (.popcli :: ops) b :: fs)
    (h0 : u.ncli ≠ 0) (hd : x.depth - 1 = 0) :
    Good pt scan w u.popcli { frames := .call k ops b :: fs, depth := x.depth - 1, outer := none } ∧
      ∀ v, x.outer = some v → u.popcli.flag = v := by
  have hncli := hg.ncli
  refine ⟨hg.next hx rfl ?_ (congrArg (· - 1) hncli) ?_ nofun fun _ _ => rfl, fun v hv => ?_⟩
  · dsimp only [Op.delta]
    omega
  · intro h
    exact (of_decide_eq_true h).1
  · have hi := hg.intena v hv
    rw [hx] at hi
    have hi : u.intena = v := hi
    have hlast : u.ncli - 1 = 0 := by omega
    simp [Cpu.popcli, hlast, hi]

theorem Good.resume {i : Bool} (hg : Good pt scan w u x) (hx : x.frames = .call k (.resume i :: ops) b :: fs) :
    Good pt scan w { u with intena := i } { x with frames := .call k ops b :: fs } := by
  refine hg.next hx rfl (add_zero _).symm hg.ncli hg.flag (fun v hv => ⟨?_, hg.outer v hv⟩) hg.sched
  have hi := hg.intena v hv
  rwa [hx] at hi

/-! ### Calls and interrupts -/

omit [DecidableEq L] in
theorem pending_of_free {i : Bool} (h : Frame.free fs = true) : pending i fs = i := by
  cases fs with
  | nil => rfl
  | cons f fs =>
    cases f with
    | call k ops b => cases h
    | intr saved => rfl

omit [DecidableEq L] in
theorem read_of_free {flag : Bool} (h : Frame.free fs = true) : Read flag fs := by
  rintro k e ops b gs rfl
  cases h

theorem Good.invoke (hg : Good pt scan w u x) (hfree : Frame.free x.frames = true)
    (hcalls : x.frames = [] → allowed scan w k x.depth) :
    Good pt scan w u { x with frames := .call k (k.code pt) x.depth :: x.frames } := by
  refine ⟨hg.ncli, hg.flag, ⟨rfl, fun o ho => plain_code o (List.mem_of_mem_tail ho), hfree, hcalls, hg.stack⟩,
    read_of_plain plain_code, fun v hv => ?_, hg.outer, hg.sched⟩
  have hi := hg.intena v hv
  rw [pending_of_free hfree] at hi
  rwa [pending_of_plain plain_code]

theorem Good.ret {scan' : C → Bool} (hg : Good pt scan w u x) (hx : x.frames = .call k [] b :: fs)
    (hscan : fs = [] → allowed scan w k b → (x.depth : ℤ) = b + net (k.code pt) → base scan' w x.depth)
    (hother : fs ≠ [] → scan' = scan) : Good pt scan' w u { x with frames := fs } := by
  have hstack := hg.stack
  have hintena := hg.intena
  rw [hx] at hstack hintena
  obtain ⟨hnet, -, hfree, hallowed, hbelow⟩ := hstack
  have hnet : (x.depth : ℤ) = b + net (k.code pt) := by rw [← hnet]; exact (add_zero _).symm
  refine ⟨hg.ncli, hg.flag, ?_, read_of_free hfree, fun v hv => ?_, hg.outer, hg.sched⟩
  · dsimp only
    cases fs with
    | nil => exact hscan rfl (hallowed rfl) hnet
    | cons f fs =>
      rw [hother (List.cons_ne_nil f fs)]
      cases f with
      | call k ops b => cases hfree
      | intr saved => exact hbelow
  · rw [pending_of_free hfree]
    exact hintena v hv

/-- The depth at which a balanced function has been called. -/
theorem Good.returned (hg : Good pt scan w u x) (hx : x.frames = .call k [] b :: fs)
    (hk : k = .yield ∨ (∃ lk, k = .sleep lk) ∨ k = .exit) : u.ncli = b := by
  have hstack := hg.stack
  rw [hx] at hstack
  have hnet := hstack.1
  rw [net_code hk] at hnet
  have hnil : net ([] : List (Op L)) = 0 := rfl
  have := hg.ncli
  omega

theorem Good.intr (hg : Good pt scan w u x) (hf : u.flag = true) :
    Good pt scan w { u with flag := false } { x with frames := .intr u.flag :: x.frames } := by
  have hdepth : x.depth = 0 := hg.ncli.symm.trans (hg.flag hf)
  have houter : x.outer = none := by
    cases h : x.outer with
    | none => rfl
    | some v => exact absurd hdepth (Nat.pos_iff_ne_zero.1 (hg.outer v h))
  refine ⟨hg.ncli, nofun, ⟨hf, ?_, ?_⟩, nofun, fun v hv => ?_, hg.outer, hg.sched⟩
  · rw [← hdepth]
    exact hg.stack
  · rw [← hf]
    exact hg.read
  · rw [houter] at hv
    cases hv

theorem Good.iret {saved : Bool} (hg : Good pt scan w u x) (hx : x.frames = .intr saved :: fs) (h0 : u.ncli = 0) :
    Good pt scan w { u with flag := saved } { x with frames := fs } := by
  have hstack := hg.stack
  rw [hx] at hstack
  obtain ⟨rfl, hbelow, hread⟩ := hstack
  have hdepth : x.depth = 0 := hg.ncli.symm.trans h0
  refine ⟨hg.ncli, fun _ => h0, ?_, hread, fun v hv => ?_, hg.outer, hg.sched⟩
  · rw [← hdepth] at hbelow
    exact hbelow
  · exact absurd hdepth (Nat.pos_iff_ne_zero.1 (hg.outer v hv))

/-! ### All threads -/

variable {s s' : State C T L} {c c' : C} {t : T}

/-- A thread that does not run: it has one lock, and `intena` is on its stack unless it is new. -/
structure Away (pt : L) (x : Ctx L) : Prop where
  depth : x.depth = 1
  stack : Stack pt (fun _ _ => True) (fun _ => True) 1 x.frames
  read : ∀ flag, Read flag x.frames
  intena : ∀ i v, x.outer = some v → pending i x.frames = v

structure Inv (pt : L) (s : State C T L) : Prop where
  mine : ∀ c, s.cur c = .sched c ∨ ∃ t, s.cur c = .thread t ∧ s.out t = false
  inj : ∀ c c', s.cur c = s.cur c' → c = c'
  good : ∀ c, Good pt s.scan (s.cur c) (s.cpu c) (s.ctx (s.cur c))
  /-- A scheduler that has switched to a thread is inside of its loop. -/
  parked : ∀ c, s.cur c ≠ .sched c → s.scan c = true ∧ s.ctx (.sched c) = { depth := 1 }
  away : ∀ t, s.out t = true → Away pt (s.ctx (.thread t))

theorem Inv.cur_ne_thread (hi : Inv pt s) (ht : s.out t = true) (c : C) : s.cur c ≠ .thread t := by
  intro h
  rcases hi.mine c with hc | ⟨t', hc, ht'⟩
  · rw [h] at hc
    cases hc
  · rw [h] at hc
    cases hc
    rw [ht] at ht'
    cases ht'

theorem Inv.cur_eq_sched (hi : Inv pt s) (h : s.cur c = .sched c') : c' = c := by
  rcases hi.mine c with hc | ⟨t, hc, -⟩
  · rw [h] at hc
    exact (Who.sched.inj hc)
  · rw [h] at hc
    cases hc

theorem Inv.locks (hi : Inv pt s) (locks : L → Option C) : Inv pt { s with locks } :=
  ⟨hi.mine, hi.inj, hi.good, hi.parked, hi.away⟩

variable [DecidableEq C]

theorem Inv.inj_update (hi : Inv pt s) (hw : ∀ c', c' ≠ c → s.cur c' ≠ w) (c₁ c₂ : C)
    (h : Function.update s.cur c w c₁ = Function.update s.cur c w c₂) : c₁ = c₂ := by
  by_cases h₁ : c₁ = c
  · by_cases h₂ : c₂ = c
    · rw [h₁, h₂]
    · rw [h₁, Function.update_self, Function.update_of_ne h₂] at h
      exact absurd h.symm (hw c₂ h₂)
  · by_cases h₂ : c₂ = c
    · rw [h₂, Function.update_self, Function.update_of_ne h₁] at h
      exact absurd h (hw c₁ h₁)
    · rw [Function.update_of_ne h₁, Function.update_of_ne h₂] at h
      exact hi.inj c₁ c₂ h

theorem Good.other {v : Bool} (hg : Good pt scan w u x) (hw : w ≠ .sched c) :
    Good pt (Function.update scan c v) w u x := by
  have hbase : base (Function.update scan c v) w = base scan w := by
    cases w with
    | thread t => rfl
    | sched c' =>
      have hne : c' ≠ c := fun h => hw (h ▸ rfl)
      funext d
      simp only [base, Function.update_of_ne hne]
  have hallowed : (allowed (Function.update scan c v) w : Call L → ℕ → Prop) = allowed scan w := by
    cases w with
    | thread t => rfl
    | sched c' =>
      have hne : c' ≠ c := fun h => hw (h ▸ rfl)
      funext k b
      cases k <;> simp only [allowed, Function.update_of_ne hne]
  refine ⟨hg.ncli, hg.flag, ?_, hg.read, hg.intena, hg.outer, hg.sched⟩
  rw [hbase, hallowed]
  exact hg.stack

variable [DecidableEq T]

/-- **The frame rule**: the thread on one CPU moves, and its scheduler goes in or out of its loop. -/
theorem Inv.put_scan (hi : Inv pt s) {v : Bool} (hv : v = s.scan c ∨ s.cur c = .sched c)
    (hg : Good pt (Function.update s.scan c v) (s.cur c) u x) :
    Inv pt { s.put c u x with scan := Function.update s.scan c v } := by
  have hscan : ∀ c', s.cur c' ≠ .sched c' → Function.update s.scan c v c' = s.scan c' := by
    intro c' hc'
    by_cases h : c' = c
    · subst h
      rw [Function.update_self, hv.resolve_right hc']
    · exact Function.update_of_ne h ..
  refine ⟨hi.mine, hi.inj, fun c' => ?_, fun c' hc' => ⟨(hscan c' hc').trans (hi.parked c' hc').1, ?_⟩, fun t ht => ?_⟩
  · dsimp only [State.put]
    by_cases h : c' = c
    · subst h
      rw [Function.update_self, Function.update_self]
      exact hg
    · rw [Function.update_of_ne h, Function.update_of_ne fun hcur => h (hi.inj c' c hcur)]
      exact (hi.good c').other fun hcur => h (hi.cur_eq_sched hcur).symm
  · dsimp only [State.put] at hc' ⊢
    rw [Function.update_of_ne, (hi.parked c' hc').2]
    intro hcur
    rw [hi.cur_eq_sched hcur.symm] at hc'
    exact hc' (hi.cur_eq_sched hcur.symm ▸ hcur.symm)
  · dsimp only [State.put]
    rw [Function.update_of_ne (hi.cur_ne_thread ht c).symm]
    exact hi.away t ht

theorem Inv.put (hi : Inv pt s) (hg : Good pt s.scan (s.cur c) u x) : Inv pt (s.put c u x) := by
  have := hi.put_scan (c := c) (v := s.scan c) (.inl rfl) (by rwa [Function.update_eq_self])
  rwa [Function.update_eq_self] at this

/-! ### Steps -/

theorem Inv.swtch (hi : Inv pt s) (hcur : s.cur c = .thread t)
    (hx : (s.ctx (.thread t)).frames = .call k (.swtch :: ops) b :: fs) (h1 : (s.cpu c).ncli = 1)
    (hflag : (s.cpu c).flag = false) :
    Inv pt { s.put c (s.cpu c) { s.ctx (.thread t) with frames := .call k (.resume (s.cpu c).intena :: ops) b :: fs } with
      cur := Function.update s.cur c (.sched c), out := Function.update s.out t true } := by
  have hg := hi.good c
  rw [hcur] at hg
  have hstack := hg.stack
  rw [hx] at hstack
  obtain ⟨hscan, hsched⟩ := hi.parked c (by rw [hcur]; nofun)
  have hne : ∀ c', c' ≠ c → s.cur c' ≠ .thread t := fun c' h hc => h (hi.inj c' c (hc.trans hcur.symm))
  refine ⟨fun c' => ?_, hi.inj_update fun c' h hc => h (hi.cur_eq_sched hc).symm, fun c' => ?_, fun c' hc' => ?_,
    fun t' ht' => ?_⟩
  · dsimp only
    by_cases h : c' = c
    · subst h
      exact .inl (Function.update_self ..)
    · rw [Function.update_of_ne h]
      refine (hi.mine c').imp_right fun ⟨t', ht', hout⟩ => ⟨t', ht', ?_⟩
      rw [Function.update_of_ne, hout]
      rintro rfl
      exact hne c' h ht'
  · dsimp only [State.put]
    rw [hcur, Function.update_eq_self]
    by_cases h : c' = c
    · subst h
      rw [Function.update_self, Function.update_of_ne (by nofun), hsched]
      refine ⟨h1, fun hf => ?_, ?_, nofun, nofun, nofun, fun _ _ => rfl⟩
      · rw [hflag] at hf
        cases hf
      · simp only [Stack, base, hscan, if_true]
    · rw [Function.update_of_ne h, Function.update_of_ne (hne c' h)]
      exact hi.good c'
  · dsimp only [State.put] at hc' ⊢
    have h : c' ≠ c := by
      rintro rfl
      exact hc' (Function.update_self ..)
    rw [Function.update_of_ne h] at hc'
    rw [hcur, Function.update_of_ne (by nofun)]
    exact hi.parked c' hc'
  · dsimp only [State.put] at ht' ⊢
    rw [hcur]
    by_cases h : t' = t
    · subst h
      rw [Function.update_self]
      refine ⟨hg.ncli.symm.trans h1, ?_, fun flag => ?_, fun i v hv => ?_⟩
      · have := hstack.half (.resume (s.cpu c).intena) rfl
        rwa [← hg.ncli, h1] at this
      · rintro k' e ops' b' gs heq
        obtain ⟨⟨-, hops, -⟩, -⟩ := List.cons.inj heq |>.imp_left Frame.call.inj
        cases (List.cons.inj hops).1
      · have := hg.intena v hv
        rwa [hx] at this
    · rw [Function.update_of_ne h] at ht'
      rw [Function.update_of_ne (by simpa using h)]
      exact hi.away t' ht'

theorem Inv.run (hi : Inv pt s) (hcur : s.cur c = .sched c) (hframes : (s.ctx (.sched c)).frames = [])
    (hscan : s.scan c = true) (ht : s.out t = true) :
    Inv pt { s with cur := Function.update s.cur c (.thread t), out := Function.update s.out t false } := by
  have hg := hi.good c
  have haway := hi.away t ht
  rw [hcur] at hg
  have hstack := hg.stack
  rw [hframes] at hstack
  have hdepth : (s.ctx (.sched c)).depth = 1 := by simpa only [Stack, base, hscan, if_true] using hstack
  refine ⟨fun c' => ?_, hi.inj_update fun c' _ => hi.cur_ne_thread ht c', fun c' => ?_, fun c' hc' => ?_,
    fun t' ht' => ?_⟩
  · dsimp only
    by_cases h : c' = c
    · subst h
      exact .inr ⟨t, Function.update_self .., Function.update_self ..⟩
    · rw [Function.update_of_ne h]
      refine (hi.mine c').imp_right fun ⟨t', ht', hout⟩ => ⟨t', ht', ?_⟩
      rw [Function.update_of_ne, hout]
      rintro rfl
      exact hi.cur_ne_thread ht c' ht'
  · dsimp only
    by_cases h : c' = c
    · subst h
      rw [Function.update_self]
      have hncli : (s.cpu c').ncli = 1 := hg.ncli.trans hdepth
      refine ⟨hncli.trans haway.depth.symm, hg.flag, ?_, haway.read _, haway.intena _, fun v _ => ?_, nofun⟩
      · rw [haway.depth]
        exact haway.stack
      · rw [haway.depth]
        exact Nat.one_pos
    · rw [Function.update_of_ne h]
      exact hi.good c'
  · dsimp only at hc' ⊢
    by_cases h : c' = c
    · subst h
      exact ⟨hscan, Ctx.ext hframes hdepth (hg.sched c' rfl)⟩
    · rw [Function.update_of_ne h] at hc'
      exact hi.parked c' hc'
  · dsimp only at ht' ⊢
    have h : t' ≠ t := by
      rintro rfl
      rw [Function.update_self] at ht'
      cases ht'
    rw [Function.update_of_ne h] at ht'
    exact hi.away t' ht'

/-- What is promised of a step: a function that may switch to another thread returns at the depth at which
it was called, and the flag is as before when the outermost `pushcli` is undone. -/
structure Kept (out : Out L) : Prop where
  returned : ∀ k b n, out = .returned k b n → k = .yield ∨ (∃ lk, k = .sleep lk) ∨ k = .exit → n = b
  outermost : ∀ v w, out = .outermost v w → w = v

omit [DecidableEq L] in
theorem kept_none : Kept (.none : Out L) := ⟨nofun, nofun⟩

theorem Inv.execOp {out : Out L} (hi : Inv pt s) (hx : (s.ctx (s.cur c)).frames = .call k (o :: ops) b :: fs)
    (h : execOp s c k b ops fs o = .ok (s', out)) : Inv pt s' ∧ Kept out := by
  have hg := hi.good c
  cases o with
  | readeflags =>
    obtain ⟨rfl, rfl⟩ := Prod.mk.inj (Except.ok.inj h)
    exact ⟨hi.put (hg.readeflags hx), kept_none⟩
  | cli e =>
    obtain ⟨rfl, rfl⟩ := Prod.mk.inj (Except.ok.inj h)
    refine ⟨hi.put (hg.cli hx fun v hv => ?_), kept_none⟩
    cases hw : s.cur c with
    | sched c' =>
      simp only [hw] at hv
      cases hv
    | thread t =>
      simp only [hw] at hv ⊢
      refine ⟨⟨t, rfl⟩, ?_⟩
      split at hv
      · rename_i h0
        rw [if_pos h0]
        exact (Option.some.inj hv).symm
      · rename_i h0
        rwa [if_neg h0]
  | popcli =>
    simp only [Switch.execOp] at h
    split at h
    · cases h
    · split at h
      · cases h
      · rename_i h0
        split at h
        · rename_i hd
          obtain ⟨rfl, rfl⟩ := Prod.mk.inj (Except.ok.inj h)
          obtain ⟨hg', hflag⟩ := hg.popcli_last hx h0 hd
          refine ⟨hi.put hg', ?_, ?_⟩
          · intro k' b' n heq
            split at heq <;> cases heq
          · intro v w heq
            split at heq
            · rename_i v' hv'
              cases heq
              exact hflag _ hv'
            · cases heq
        · rename_i hd
          obtain ⟨rfl, rfl⟩ := Prod.mk.inj (Except.ok.inj h)
          exact ⟨hi.put (hg.popcli hx hd), kept_none⟩
  | check lk held msg =>
    simp only [Switch.execOp] at h
    split at h
    · cases h
    · obtain ⟨rfl, rfl⟩ := Prod.mk.inj (Except.ok.inj h)
      exact ⟨hi.put (hg.skip hx rfl nofun), kept_none⟩
  | lock lk =>
    obtain ⟨rfl, rfl⟩ := Prod.mk.inj (Except.ok.inj h)
    exact ⟨(hi.put (hg.skip hx rfl nofun)).locks _, kept_none⟩
  | unlock lk =>
    obtain ⟨rfl, rfl⟩ := Prod.mk.inj (Except.ok.inj h)
    exact ⟨(hi.put (hg.skip hx rfl nofun)).locks _, kept_none⟩
  | swtch =>
    simp only [Switch.execOp] at h
    split at h
    · cases h
    · rename_i h1
      split at h
      · cases h
      · rename_i hflag
        split at h
        · cases h
        · rename_i t ht
          obtain ⟨rfl, rfl⟩ := Prod.mk.inj (Except.ok.inj h)
          rw [ht] at hx ⊢
          exact ⟨hi.swtch ht hx (not_not.1 h1) (Bool.eq_false_iff.2 hflag), kept_none⟩
  | resume i =>
    obtain ⟨rfl, rfl⟩ := Prod.mk.inj (Except.ok.inj h)
    exact ⟨hi.put (hg.resume hx), kept_none⟩

omit [DecidableEq C] [DecidableEq T] in
/-- In its loop, a scheduler calls `switchuvm`, and `release` at the end. -/
theorem calls_sched (hw : s.cur c = .sched c') (hnil : (s.ctx (s.cur c)).frames = []) (h : s.calls pt c k = true) :
    s.scan c = true ∧ (k = .release pt ∨ k = .switchuvm) := by
  unfold State.calls at h
  rw [hw] at h hnil
  rw [hnil] at h
  cases k <;> simp_all

omit [DecidableEq C] [DecidableEq T] [DecidableEq L] in
theorem scanAfter_of_thread (hw : s.cur c = .thread t) : s.scanAfter c k fs = s.scan c := by
  unfold State.scanAfter
  rw [hw]

omit [DecidableEq C] [DecidableEq T] [DecidableEq L] in
theorem scanAfter_of_ne_nil (hfs : fs ≠ []) : s.scanAfter c k fs = s.scan c := by
  unfold State.scanAfter
  cases fs with
  | nil => exact absurd rfl hfs
  | cons f fs => cases s.cur c <;> rfl

omit [DecidableEq T] in
/-- When a function in the loop of a scheduler returns, the scheduler knows whether it has the lock. -/
theorem base_scanAfter (hallowed : allowed s.scan (.sched c : Who C T) k b) (hw : s.cur c = .sched c)
    (hnet : (d : ℤ) = b + net (k.code pt)) :
    base (Function.update s.scan c (s.scanAfter c k [])) (.sched c : Who C T) d := by
  unfold State.scanAfter base
  dsimp only
  rw [hw, Function.update_self]
  cases k with
  | acquire lk =>
    obtain ⟨-, rfl⟩ := hallowed
    have : net ((Call.acquire lk).code pt) = 1 := rfl
    dsimp only
    rw [if_pos rfl]
    omega
  | release lk =>
    obtain ⟨-, rfl⟩ := hallowed
    have : net ((Call.release lk).code pt) = -1 := rfl
    dsimp only
    rw [if_neg Bool.false_ne_true]
    omega
  | switchuvm =>
    obtain ⟨hscan, rfl⟩ := hallowed
    have : net ((Call.switchuvm : Call L).code pt) = 0 := rfl
    dsimp only
    rw [if_pos hscan]
    omega
  | _ => exact hallowed.elim

/-- **A step** keeps the invariant, and what is promised of it. -/
theorem Inv.step {a : Act C T L} {out : Out L} (hi : Inv pt s) (hst : (cpus pt).Step s (a, out) s') :
    Inv pt s' ∧ Kept out := by
  obtain ⟨hen, hx⟩ := hst
  change enabled pt s a = true at hen
  change exec pt s a = .ok (s', out) at hx
  cases a with
  | invoke c k =>
    obtain ⟨hfree, hcalls⟩ := Bool.and_eq_true_iff.1 hen
    obtain ⟨rfl, rfl⟩ := Prod.mk.inj (Except.ok.inj hx)
    have hg := hi.good c
    refine ⟨hi.put (hg.invoke hfree fun hnil => ?_), kept_none⟩
    cases hw : s.cur c with
    | thread t => trivial
    | sched c' =>
      obtain rfl := hi.cur_eq_sched hw
      obtain ⟨hscan, hk⟩ := calls_sched hw hnil hcalls
      have hbase := hg.stack
      rw [hnil, hw] at hbase
      simp only [Stack, base, hscan, if_true] at hbase
      rcases hk with rfl | rfl
      · exact ⟨hscan, hw ▸ hbase⟩
      · exact ⟨hscan, hw ▸ hbase⟩
  | op c =>
    simp only [Switch.exec] at hx
    split at hx
    · rename_i k o ops b fs hframes
      exact hi.execOp hframes hx
    · cases hx
  | ret c =>
    simp only [Switch.exec] at hx
    have hg := hi.good c
    split at hx
    · rename_i k ops b fs hframes
      have hops : ops = [] := by
        simp only [enabled, hframes] at hen
        cases ops with
        | nil => rfl
        | cons o ops => cases hen
      subst hops
      obtain ⟨rfl, rfl⟩ := Prod.mk.inj (Except.ok.inj hx)
      refine ⟨hi.put_scan ?_ (hg.ret hframes (fun hnil hallowed hnet => ?_) fun hne => ?_), ?_⟩
      · cases hw : s.cur c with
        | thread t => exact .inl (scanAfter_of_thread hw)
        | sched c' => exact .inr (by rw [hi.cur_eq_sched hw])
      · subst hnil
        cases hw : s.cur c with
        | thread t => trivial
        | sched c' =>
          obtain rfl := hi.cur_eq_sched hw
          rw [hw] at hallowed hnet
          exact base_scanAfter hallowed hw hnet
      · rw [scanAfter_of_ne_nil hne, Function.update_eq_self]
      · refine ⟨?_, nofun⟩
        intro k' b' n heq hk
        cases heq
        exact hg.returned hframes hk
    · cases hx
  | intr c =>
    obtain ⟨rfl, rfl⟩ := Prod.mk.inj (Except.ok.inj hx)
    exact ⟨hi.put ((hi.good c).intr hen), kept_none⟩
  | iret c =>
    simp only [Switch.exec] at hx
    split at hx
    · rename_i saved fs hframes
      simp only [enabled, hframes] at hen
      obtain ⟨rfl, rfl⟩ := Prod.mk.inj (Except.ok.inj hx)
      exact ⟨hi.put ((hi.good c).iret hframes (of_decide_eq_true hen)), kept_none⟩
    · cases hx
  | sti c =>
    obtain ⟨hw, hnil, hscan⟩ := of_decide_eq_true hen
    obtain ⟨rfl, rfl⟩ := Prod.mk.inj (Except.ok.inj hx)
    have hg := hi.good c
    have hnil := List.isEmpty_iff.1 hnil
    rw [← hw] at hnil
    refine ⟨hi.put ?_, kept_none⟩
    have hbase := hg.stack
    rw [hnil, hw] at hbase
    simp only [Stack, base, hscan] at hbase
    have hinvoke := hg.invoke (k := .acquire pt) (by rw [hnil]; rfl) fun _ => by
      rw [hw]
      exact ⟨hscan, hbase⟩
    exact ⟨hinvoke.ncli, fun _ => hinvoke.ncli.trans (hw ▸ hbase), hinvoke.stack, read_of_plain plain_code,
      hinvoke.intena, hinvoke.outer, hinvoke.sched⟩
  | run c t =>
    obtain ⟨hw, hnil, hscan, ht⟩ := of_decide_eq_true hen
    obtain ⟨rfl, rfl⟩ := Prod.mk.inj (Except.ok.inj hx)
    exact ⟨hi.run hw (List.isEmpty_iff.1 hnil) hscan ht, kept_none⟩

/-! ### Runs -/

omit [DecidableEq C] [DecidableEq T] in
theorem inv_init : Inv pt (init pt : State C T L) := by
  have hplain : ∀ o ∈ Op.release pt, o.plain = true := plain_code (k := .forkret)
  refine ⟨fun _ => .inl rfl, fun _ _ => Who.sched.inj, fun _ => ?_, fun _ h => absurd rfl h, fun _ _ => ?_⟩
  · exact ⟨rfl, nofun, rfl, nofun, nofun, nofun, fun _ _ => rfl⟩
  · exact ⟨rfl, ⟨rfl, fun o ho => hplain o (List.mem_of_mem_tail ho), rfl, nofun, rfl, trivial, nofun⟩,
      fun _ => read_of_plain hplain, nofun⟩

/-- **Interrupt state belongs to the thread.** In every run of any number of threads on any number of CPUs:
interrupts are enabled only where `ncli` is 0; when `yield` or `sleep` returns, maybe on another CPU, `ncli`
there is the nesting depth at which the thread has called it; and when a thread undoes its outermost
`pushcli`, the flag is what it was when the thread made it. -/
theorem interrupt_state {hist : List (Act C T L × Out L)} (hr : (cpus pt).Runs hist s) :
    (∀ c, (s.cpu c).flag = true → (s.cpu c).ncli = 0) ∧ ∀ e ∈ hist,
      (∀ k b n, e.2 = .returned k b n → k = .yield ∨ (∃ lk, k = .sleep lk) → n = b) ∧
      ∀ v w, e.2 = .outermost v w → w = v := by
  have hinv : Inv pt s ∧ ∀ e ∈ hist, Kept e.2 := by
    refine hr.invariant (P := fun hist s => Inv pt s ∧ ∀ e ∈ hist, Kept e.2) ⟨inv_init, nofun⟩ ?_
    rintro hist s e s' - ⟨hi, hh⟩ hst
    obtain ⟨hi', hk⟩ := hi.step hst
    refine ⟨hi', fun e' he' => ?_⟩
    rcases List.mem_cons.1 he' with rfl | he'
    · exact hk
    · exact hh e' he'
  refine ⟨fun c => (hinv.1.good c).flag, fun e he => ⟨fun k b n h hk => ?_, (hinv.2 e he).outermost⟩⟩
  exact (hinv.2 e he).returned k b n h (hk.imp_right .inl)

/-- A thread yields on one CPU and goes on on the other. -/
def sampleYield : List (Act Bool Unit Unit × Out Unit) :=
  let ops (c : Bool) (n : ℕ) : List (Act Bool Unit Unit × Out Unit) := List.replicate n (.op c, .none)
  [(.sti false, .none)] ++ ops false 7 ++ [(.ret false, .returned (.acquire ()) 0 1), (.run false (), .none)] ++
    ops false 6 ++ [(.ret false, .returned .forkret 1 0), (.iret false, .none), (.invoke false .yield, .none)] ++
    ops false 18 ++ [(.invoke false (.release ()), .none)] ++ ops false 6 ++
    [(.ret false, .returned (.release ()) 1 0), (.sti true, .none)] ++ ops true 7 ++
    [(.ret true, .returned (.acquire ()) 0 1), (.run true (), .none)] ++ ops true 6 ++
    [(.op true, .outermost true true), (.ret true, .returned .yield 0 0)]

theorem interrupt_state_yield : ∃ s, (cpus () : Machine (State Bool Unit Unit) _ _ _).Runs sampleYield.reverse s ∧
    (s.cpu true).flag = true ∧ (s.cpu true).ncli = 0 := by
  obtain ⟨s, hr, hs⟩ := (cpus () : Machine (State Bool Unit Unit) _ _ _).exists_runs sampleYield
    (fun s => (s.cpu true).flag) (by decide +kernel)
  exact ⟨s, hr, hs, (interrupt_state hr).1 true hs⟩

end Xv6.Switch
