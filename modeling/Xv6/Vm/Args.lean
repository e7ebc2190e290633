import Xv6.Vm.Copy

/-!
# The arguments on the stack

The strings of the process that calls `exec` are read through its page directory, which stays as it is
while the new image is made. They are laid down one below the other in the top page of the image, then
the array of their addresses; the number of bytes in use says whether the next one fits.
-/

namespace Xv6.Vm

open Lib Layout

section layout

variable {m : Mem} {S S₀ : Space} {sz psz sp a : Word} {s bs : List Byte}

/-! ### Reading strings -/

def Space.byte (S : Space) (a : ℕ) : Option Byte :=
  if Present (S.leaf (a / 4096)) then some (getByte (S.page (a / 4096)) (a % 4096)) else none

/-- A string of a process of size `psz`, with the zero behind it. -/
structure IsStr (S : Space) (psz : Word) (a : Word) (s : List Byte) : Prop where
  nonnull : a ≠ 0
  inside : a.toNat + s.length < psz.toNat
  nonzero : ∀ b ∈ s, b ≠ 0
  byte : ∀ i ≤ s.length, S.byte (a.toNat + i) = (s ++ [0])[i]?

theorem eval_readUser (h : Rep S₀ m.page) (ha : a.toNat < 2 ^ 31) {b : Byte}
    (hb : S₀.byte a.toNat = some b) : (readUser S₀.dir a).eval m = (.ok b, m) := by
  unfold Space.byte at hb
  have hp : Present (S₀.leaf (vpn a)) := by
    by_contra hp
    rw [show a.toNat / 4096 = vpn a from rfl, if_neg (not_not.2 hp)] at hb
    cases hb
  rw [show a.toNat / 4096 = vpn a from rfl, if_pos hp] at hb
  obtain ⟨t, ht⟩ := h.tab_of_present hp
  have hw := eval_walk h a
  rw [ht] at hw
  have hvpn : vpn a < 2 ^ 19 := by
    unfold vpn
    omega
  have hpage := h.page hvpn (mapped_some.2 ⟨hp, rfl⟩)
  unfold readUser
  refine (Prog.eval_bind hw).trans ?_
  refine (Prog.eval_bind (a := S₀.leaf (vpn a)) (t := m) ?_).trans ?_
  · rw [← h.leaf ht]
    rfl
  · rw [if_neg hp]
    refine (Prog.eval_bind (a := m) (t := m) rfl).trans ?_
    rw [hpage, Option.some.inj hb]
    rfl

theorem eval_readUsers (h : Rep S₀ m.page) (ha : a.toNat + bs.length ≤ 2 ^ 31)
    (hb : ∀ i < bs.length, S₀.byte (a.toNat + i) = bs[i]?) :
    (readUsers S₀.dir a bs.length).eval m = (.ok bs, m) := by
  induction bs generalizing a with
  | nil => rfl
  | cons b bs ih =>
    rw [List.length_cons] at ha
    have hlt := a.isLt
    have hnext : (a + 1).toNat = a.toNat + 1 := by
      rw [BitVec.toNat_add, show BitVec.toNat (1 : Word) = 1 from rfl]
      omega
    have hfirst : S₀.byte a.toNat = some b := hb 0 (by simp)
    refine (Prog.eval_bind (eval_readUser h (by omega) hfirst)).trans ?_
    refine (Prog.eval_bind (ih (a := a + 1) (by omega) fun i hi => ?_)).trans rfl
    have := hb (i + 1) (by simpa using hi)
    rw [List.getElem?_cons_succ] at this
    rw [hnext, ← this]
    congr 1
    omega

theorem add_ofNat_toNat {n : ℕ} (h : a.toNat + n < 2 ^ 32) : (a + BitVec.ofNat 32 n).toNat = a.toNat + n := by
  rw [BitVec.toNat_add, BitVec.toNat_ofNat]
  omega

theorem eval_strlen (h : Rep S₀ m.page) (hpsz : psz < KERNBASE) (hs : IsStr S₀ psz a s) :
    (strlen S₀.dir a).eval m = (.ok s.length, m) := by
  have hin := hs.inside
  have hlt : psz.toNat < 2 ^ 31 := hpsz
  have hloop : Prog.Triple (fun m' => m' = m) (strlen S₀.dir a) fun n m' => n = s.length ∧ m' = m := by
    unfold strlen
    -- no zero before the end of the string
    refine (Prog.Triple.loop (I := fun n m' => n ≤ s.length ∧ m' = m) (v := fun n => s.length - n)
      (fun n => Prog.Triple.of_imp fun hn => ?_) (by omega : s.length - 0 < 2 ^ 32 + 1)).weaken
      (fun m' hm' => ⟨Nat.zero_le _, hm'⟩) fun _ _ h => h
    rintro m' rfl
    have haddr : (a + BitVec.ofNat 32 n).toNat = a.toNat + n := add_ofNat_toNat (by omega)
    have hbyte := hs.byte n hn
    by_cases hend : n = s.length
    · have hb : S₀.byte (a + BitVec.ofNat 32 n).toNat = some 0 := by
        rw [haddr, hbyte, hend]
        simp
      refine ⟨.inr n, m', (Prog.eval_bind (eval_readUser h (by omega) hb)).trans ?_, hend, rfl⟩
      rw [if_pos rfl]
      rfl
    · have hlen : n < s.length := by omega
      have hget : (s ++ [0])[n]? = some s[n] := by
        rw [List.getElem?_append_left hlen, List.getElem?_eq_getElem hlen]
      have hb : S₀.byte (a + BitVec.ofNat 32 n).toNat = some s[n] := by
        rw [haddr, hbyte, hget]
      refine ⟨.inl (n + 1), m', (Prog.eval_bind (eval_readUser h (by omega) hb)).trans ?_,
        ⟨by omega, rfl⟩, by omega⟩
      rw [if_neg (hs.nonzero _ (List.getElem_mem _))]
      rfl
  obtain ⟨n, m', hm', rfl, rfl⟩ := hloop m rfl
  exact hm'

theorem reads_string [Layout] {W : Pool} (h : Aside S₀ W) (hpsz : psz < KERNBASE) (hs : IsStr S₀ psz a s) :
    Reads W S (fun o n => readUsers S₀.dir (a + BitVec.ofNat 32 o) n) (s ++ [0]) := by
  intro page o n hle m hat
  have hin := hs.inside
  have hlt : psz.toNat < 2 ^ 31 := hpsz
  rw [List.length_append, List.length_singleton] at hle
  have haddr : (a + BitVec.ofNat 32 o).toNat = a.toNat + o := add_ofNat_toNat (by omega)
  have hlen : (((s ++ [0]).drop o).take n).length = n := by
    simp
    omega
  refine ⟨_, m, ?_, rfl, hat⟩
  conv_lhs => rw [← hlen]
  refine eval_readUsers (h.rep_of_in hat.pool) (by omega) fun i hi => ?_
  rw [hlen] at hi
  rw [haddr, Nat.add_assoc, hs.byte (o + i) (by omega), List.getElem?_take_of_lt hi, List.getElem?_drop]

/-! ### The stack -/

/-- The bytes in use after a string of length `len`: its zero and the alignment are added. -/
def push (u len : ℕ) : ℕ := (u + len + 1 + 3) / 4 * 4

/-- The bytes in use after some strings. -/
def used : ℕ → List (List Byte) → ℕ
  | u, [] => u
  | u, s :: strs => used (push u s.length) strs

/-- Each string that is reached begins in the two pages of the stack: those that do not fit into the top
page, too. -/
def Near : ℕ → List (List Byte) → Prop
  | _, [] => True
  | u, s :: strs => push u s.length ≤ 8192 ∧ (push u s.length ≤ 4096 → Near (push u s.length) strs)

theorem le_push (u len : ℕ) : u + len + 1 ≤ push u len := by
  unfold push
  omega

theorem push_le (u len : ℕ) : push u len ≤ u + len + 4 := by
  unfold push
  omega

theorem push_mod (u len : ℕ) : push u len % 4 = 0 := by
  unfold push
  omega

theorem le_used (u : ℕ) (strs : List (List Byte)) : u ≤ used u strs := by
  induction strs generalizing u with
  | nil => exact Nat.le_refl u
  | cons s strs ih =>
    have h₁ := le_push u s.length
    have h₂ : push u s.length ≤ used (push u s.length) strs := ih _
    show u ≤ used (push u s.length) strs
    omega

theorem and_three_toNat (w : Word) : (w &&& ~~~3).toNat = w.toNat / 4 * 4 := by
  have h : w &&& ~~~(3 : Word) = (w >>> 2) <<< 2 := by
    ext i hi
    have hmask : (~~~(3 : Word)).getLsbD i = decide (2 ≤ i) :=
      (by decide : ∀ i : Fin 32, (~~~(3 : Word)).getLsbD i = decide (2 ≤ i.val)) ⟨i, hi⟩
    rw [← BitVec.getLsbD_eq_getElem hi, ← BitVec.getLsbD_eq_getElem hi, BitVec.getLsbD_and, hmask,
      BitVec.getLsbD_shiftLeft, BitVec.getLsbD_ushiftRight]
    by_cases h2 : i < 2
    · simp [h2, Nat.not_le.2 h2]
    · simp [h2, Nat.not_lt.1 h2, hi]
  have := w.isLt
  rw [h, BitVec.toNat_shiftLeft, BitVec.toNat_ushiftRight, Nat.shiftLeft_eq, Nat.shiftRight_eq_div_pow]
  omega

theorem sp_push {u : ℕ} (len : ℕ) (hsp : sp.toNat = sz.toNat - u) (hu : u ≤ sz.toNat) (hu4 : u % 4 = 0)
    (hsz : sz.toNat % 4 = 0) (hlen : len < 2 ^ 31) :
    ((sp - (BitVec.ofNat 32 len + 1)) &&& ~~~3).toNat =
      if push u len ≤ sz.toNat then sz.toNat - push u len else 2 ^ 32 + sz.toNat - push u len := by
  have hlt := sz.isLt
  have h1 : (BitVec.ofNat 32 len + 1).toNat = len + 1 := by
    rw [BitVec.toNat_add, BitVec.toNat_ofNat, show BitVec.toNat (1 : Word) = 1 from rfl]
    omega
  rw [and_three_toNat, BitVec.toNat_sub, h1, hsp]
  unfold push
  split <;> omega

/-- The strings `strs` have been laid down in the top page of an image of `P` pages: below the `u` bytes
in use there are zeros, and `us` holds the addresses of the strings. -/
structure Laid (P : ℕ) (strs : List (List Byte)) (u : ℕ) (us : Ustack) (pg : Page) : Prop where
  room : u ≤ 4096
  four : u % 4 = 0
  count : strs.length ≤ MAXARG
  low : ∀ o < 4096 - u, getByte pg o = 0
  str : ∀ i s, strs[i]? = some s → ∃ o, (∀ x : Fin 36, x.val = 3 + i →
    us x = BitVec.ofNat 32 (4096 * (P - 1) + o)) ∧ 4096 - u ≤ o ∧ o + s.length < 4096 ∧
      ∀ j ≤ s.length, getByte pg (o + j) = (s ++ [0]).getD j 0

variable {P u : ℕ} {strs rest : List (List Byte)} {us : Ustack} {pg : Page}

theorem Laid.empty (us : Ustack) : Laid P [] 0 us (fun _ => 0) where
  room := by omega
  four := rfl
  count := Nat.zero_le _
  low o _ := getByte_zero o
  str i s h := by cases h

theorem Laid.push (h : Laid P strs u us pg) (s : List Byte) (hu : push u s.length ≤ 4096)
    (hc : strs.length < MAXARG) (x : Fin 36) (hx : x.val = 3 + strs.length) :
    Laid P (strs ++ [s]) (Vm.push u s.length)
      (Function.update us x (BitVec.ofNat 32 (4096 * (P - 1) + (4096 - Vm.push u s.length))))
      (copyIn pg (4096 - Vm.push u s.length) (s ++ [0])) := by
  have hle := le_push u s.length
  have hroom := h.room
  have hlen : (s ++ [0]).length = s.length + 1 := by simp
  refine ⟨hu, push_mod _ _, ?_, fun o ho => ?_, fun i s' hs' => ?_⟩
  · rw [List.length_append, List.length_singleton]
    exact hc
  · rw [getByte_copyIn _ _ _ (by omega), if_neg (by omega)]
    exact h.low o (by omega)
  · by_cases hi : i < strs.length
    · -- the older strings are above
      rw [List.getElem?_append_left hi] at hs'
      obtain ⟨o, hus, ho, hend, hbyte⟩ := h.str i s' hs'
      refine ⟨o, fun y hy => ?_, by omega, hend, fun j hj => ?_⟩
      · have hyx : y ≠ x := by
          rintro rfl
          omega
        rw [Function.update_of_ne hyx, hus y hy]
      · rw [getByte_copyIn _ _ _ (by omega), if_neg (by omega), hbyte j hj]
    · have hi' : i = strs.length := by
        have := (List.getElem?_eq_some_iff.1 hs').1
        rw [List.length_append, List.length_singleton] at this
        omega
      subst hi'
      rw [List.getElem?_append_right (Nat.le_refl _), Nat.sub_self] at hs'
      obtain rfl : s = s' := Option.some.inj hs'
      refine ⟨4096 - Vm.push u s.length, fun y hy => ?_, Nat.le_refl _, by omega, fun j hj => ?_⟩
      · obtain rfl : y = x := Fin.ext (by omega)
        rw [Function.update_self]
      · rw [getByte_copyIn _ _ _ (by omega), if_pos (by omega)]
        congr 1
        omega

/-! ### The loop over the strings -/

/-- The range lies in the two pages of the stack. -/
def InStack (sz : Word) (c : Word × ℕ) : Prop :=
  sz.toNat - 8192 ≤ c.1.toNat ∧ c.1.toNat + c.2 ≤ sz.toNat

theorem Space.write_write (S : Space) (v : ℕ) (pg pg' : Page) :
    (S.write v pg).write v pg' = S.write v pg' := by
  unfold write
  rw [Function.update_idem]

theorem Space.write_page (S : Space) (v : ℕ) (pg : Page) : (S.write v pg).page v = pg :=
  Function.update_self ..

variable [Layout] {W : Pool}

theorem Stacked.write (h : Stacked S sz) (v : ℕ) (pg : Page) : Stacked (S.write v pg) sz := h.setPage _

omit [Layout] in
theorem eval_execCopyout {k : Kern} {d : Frame} {src : ℕ → ℕ → MemM (List Byte)} {len : ℕ}
    {r : Except Fault Int} (h : (copyout d sp src len).eval k.mem = (r, m)) :
    (execCopyout d sp src len).eval k = (r, { k with mem := m, copied := (sp, len) :: k.copied }) := by
  unfold execCopyout
  refine (Prog.eval_bind (a := ()) (t := { k with copied := (sp, len) :: k.copied }) rfl).trans ?_
  exact eval_onMem (k := { k with copied := (sp, len) :: k.copied }) h

/-- What becomes of bytes that are laid down below the `u - bs.length` or so that are in use. -/
theorem copyout_push {src : ℕ → ℕ → MemM (List Byte)} {va : Word} (h : Stacked S sz)
    (hat : At W (S.write (pages sz - 1) pg) m) (hsrc : Reads W (S.write (pages sz - 1) pg) src bs)
    (hlen : 0 < bs.length) (hle : bs.length ≤ u) (hreach : u < bs.length + 8192) (hu : u ≤ 2 ^ 31 + sz.toNat)
    (hva : va.toNat = if u ≤ sz.toNat then sz.toNat - u else 2 ^ 32 + sz.toNat - u) :
    ∃ r m', (copyout S.dir va src bs.length).eval m = (r, m') ∧
      (u ≤ 4096 ∧ r = .ok 0 ∧ At W (S.write (pages sz - 1) (copyIn pg (4096 - u) bs)) m' ∨
        4096 < u ∧ (r = .ok (-1) ∨ sz.toNat < u ∧ S.tab (PDX va) = none ∧ r = .error .null) ∧
          ∃ page, At W { S with page := page } m') := by
  have hst := h.write (pages sz - 1) pg
  have hsz := h.toNat
  have htwo := h.two
  by_cases hsmall : u ≤ 4096
  · rw [if_pos (by omega)] at hva
    obtain ⟨r, m', hm', rfl, hat'⟩ := copyout_top hst hsrc hva hlen hle hsmall m hat
    rw [Space.write_page, Space.write_write] at hat'
    exact ⟨_, m', hm', .inl ⟨hsmall, rfl, hat'⟩⟩
  · by_cases hlow : u ≤ sz.toNat
    · rw [if_pos hlow] at hva
      obtain ⟨r, m', hm', rfl, page, hat'⟩ :=
        copyout_low hst hsrc hva hlen hreach (Nat.not_le.1 hsmall) hlow m hat
      exact ⟨_, m', hm', .inr ⟨Nat.not_le.1 hsmall, .inl rfl, page, hat'⟩⟩
    · rw [if_neg hlow] at hva
      have hm' := copyout_high src hst hat (by omega : 2 ^ 31 ≤ va.toNat) hlen
      refine ⟨_, m, hm', .inr ⟨Nat.not_le.1 hsmall, ?_, _, hat⟩⟩
      by_cases ht : S.tab (PDX va) = none
      · exact .inr ⟨by omega, ht, if_pos ht⟩
      · exact .inl (if_neg ht)

/-- What the loop over the strings leaves: all of them are on the stack; or one of them did not fit; or
one of them was so long that there was no table for its address. -/
def StringsDone (W : Pool) (S : Space) (sz : Word) (u : ℕ) (done strs : List (List Byte)) (m : Mem)
    (new : List (Word × ℕ)) : Except Fault (Option (Word × ℕ × Ustack)) → Prop
  | .ok (some (sp, argc, us)) => argc = (done ++ strs).length ∧ sp.toNat = sz.toNat - used u strs ∧
      (∀ c ∈ new, InStack sz c) ∧ Near u strs ∧ ∃ pg, Laid (pages sz) (done ++ strs) (used u strs) us pg ∧
        At W (S.write (pages sz - 1) pg) m
  | .ok none => (done.length + strs.length ≤ MAXARG → 4096 < used u strs) ∧
      (Near u strs → ∀ c ∈ new, InStack sz c) ∧
      (done.length + strs.length ≤ MAXARG → ¬ Near u strs → ∃ c ∈ new, ¬ InStack sz c) ∧
      ∃ page, At W { S with page := page } m
  | .error e => e = .null ∧ ¬ Near u strs

theorem StringsDone.cons {new : List (Word × ℕ)} {c : Word × ℕ}
    {r : Except Fault (Option (Word × ℕ × Ustack))} (hfit : push u s.length ≤ 4096) (hc : InStack sz c)
    (h : StringsDone W S sz (push u s.length) (strs ++ [s]) rest m new r) :
    StringsDone W S sz u strs (s :: rest) m (new ++ [c]) r := by
  have happ : strs ++ [s] ++ rest = strs ++ s :: rest := by simp
  have hlen : (strs ++ [s]).length + rest.length = strs.length + (s :: rest).length := by
    simp
    omega
  have hnear : Near u (s :: rest) ↔ Near (push u s.length) rest :=
    ⟨fun h => h.2 hfit, fun h => ⟨by omega, fun _ => h⟩⟩
  have hall : (∀ x ∈ new, InStack sz x) → ∀ x ∈ new ++ [c], InStack sz x := fun hnew x hx => by
    rcases List.mem_append.1 hx with hx | hx
    · exact hnew x hx
    · rw [List.mem_singleton.1 hx]
      exact hc
  match r, h with
  | .ok (some (sp, argc, us)), ⟨hargc, hsp, hnew, hn, pg, hl, hat⟩ =>
    rw [happ] at hargc hl
    exact ⟨hargc, hsp, hall hnew, hnear.2 hn, pg, hl, hat⟩
  | .ok none, ⟨hbig, hin, hout, page, hat⟩ =>
    rw [hlen] at hbig hout
    refine ⟨hbig, fun hn => hall (hin (hnear.1 hn)), fun hcount hn => ?_, page, hat⟩
    obtain ⟨x, hx, hxout⟩ := hout hcount fun h => hn (hnear.2 h)
    exact ⟨x, List.mem_append_left _ hx, hxout⟩
  | .error e, ⟨he, hn⟩ => exact ⟨he, fun h => hn (hnear.1 h)⟩

/-- **The loop over the strings.** -/
theorem pushStrings_spec (hst : Stacked S sz) (haside : Aside S₀ W) (hpsz : psz < KERNBASE)
    {argv : List Word} (hargs : List.Forall₂ (IsStr S₀ psz) argv rest) {k : Kern}
    (hl : Laid (pages sz) strs u us pg) (hsp : sp.toNat = sz.toNat - u)
    (hat : At W (S.write (pages sz - 1) pg) k.mem) :
    ∃ r m' new, (pushStrings S₀.dir S.dir argv strs.length sp us).eval k =
        (r, { k with mem := m', copied := new ++ k.copied }) ∧
      StringsDone W S sz u strs rest m' new r := by
  have hsz := hst.toNat
  have htwo := hst.two
  induction hargs generalizing strs u us pg sp k with
  | nil =>
    refine ⟨_, k.mem, [], rfl, ?_, hsp, nofun, trivial, pg, ?_, hat⟩
    · rw [List.append_nil]
    · rw [List.append_nil]
      exact hl
  | @cons a s argv rest hs hargs ih =>
    have hroom := hl.room
    have hfour := hl.four
    have hpsz' : psz.toNat < 2 ^ 31 := hpsz
    have hin := hs.inside
    have hpush := le_push u s.length
    have hpush' := push_le u s.length
    unfold pushStrings
    rw [if_neg hs.nonnull]
    by_cases hc : strs.length ≥ MAXARG
    · -- too many arguments
      rw [if_pos hc]
      refine ⟨_, k.mem, [], rfl, fun h => ?_, fun _ => nofun, fun h => ?_, _, hat⟩
      all_goals
        rw [List.length_cons] at h
        omega
    rw [if_neg hc]
    have hlen := eval_strlen (haside.rep_of_in hat.pool) hpsz hs
    have hva := sp_push s.length hsp (by omega) hfour (by omega) (by omega)
    obtain ⟨r, m', hm', hres⟩ := copyout_push (u := push u s.length) hst hat
      (reads_string haside hpsz hs) (by simp) (by simp; omega) (by simp; omega) (by omega) hva
    rw [List.length_append, List.length_singleton] at hm'
    have hcopy := eval_execCopyout hm'
    have hstart : ∀ f : ℕ → KernM (Option (Word × ℕ × Ustack)),
        ((onMem (strlen S₀.dir a)) >>= f).eval k = (f s.length).eval k :=
      fun f => Prog.eval_bind (eval_onMem hlen)
    rw [hstart]
    dsimp only
    have hused : used u (s :: rest) = used (push u s.length) rest := rfl
    have hmono := le_used (push u s.length) rest
    rcases hres with ⟨hfit, rfl, hat'⟩ | ⟨hbig, hres, page, hat'⟩
    · -- the string fits, and the loop goes on
      have hidx : 3 + strs.length < 36 := by
        have : strs.length < 32 := Nat.not_le.1 hc
        omega
      rw [if_pos (by omega)] at hva
      have hsp' : (sp - (BitVec.ofNat 32 s.length + 1)) &&& ~~~3 =
          BitVec.ofNat 32 (4096 * (pages sz - 1) + (4096 - push u s.length)) := by
        apply BitVec.eq_of_toNat_eq
        have := sz.isLt
        rw [hva, BitVec.toNat_ofNat]
        omega
      have hl' := hl.push s hfit (Nat.not_le.1 hc) ⟨3 + strs.length, hidx⟩ rfl
      rw [← hsp'] at hl'
      obtain ⟨r', m'', new, hrun, hdone⟩ := ih (k := { k with
        mem := m'
        copied := ((sp - (BitVec.ofNat 32 s.length + 1)) &&& ~~~3, s.length + 1) :: k.copied })
        hl' hva hat'
      refine ⟨r', m'', new ++ [((sp - (BitVec.ofNat 32 s.length + 1)) &&& ~~~3, s.length + 1)], ?_,
        .cons hfit ⟨?_, ?_⟩ hdone⟩
      · refine (Prog.eval_bind hcopy).trans ?_
        rw [if_neg (by decide)]
        unfold setUstack
        rw [dif_pos hidx]
        refine (Prog.eval_bind (a := Function.update us ⟨3 + strs.length, hidx⟩ _) rfl).trans ?_
        rw [List.length_append, List.length_singleton] at hrun
        rw [hrun, List.append_assoc]
        rfl
      · dsimp only
        omega
      · dsimp only
        omega
    · -- the string does not fit
      have hnear : Near u (s :: rest) ↔ push u s.length ≤ 8192 :=
        ⟨fun h => h.1, fun h => ⟨h, fun h' => absurd h' (Nat.not_le.2 hbig)⟩⟩
      rcases hres with rfl | ⟨hwrap, -, rfl⟩
      · refine ⟨.ok none, m', [((sp - (BitVec.ofNat 32 s.length + 1)) &&& ~~~3, s.length + 1)], ?_,
          fun _ => by omega, fun hn c hc => ?_, fun _ hn => ⟨_, List.mem_singleton_self _, fun hc => ?_⟩,
          page, hat'⟩
        · refine (Prog.eval_bind hcopy).trans ?_
          rw [if_pos (by decide)]
          rfl
        · have hle := hnear.1 hn
          rw [List.mem_singleton.1 hc]
          rw [if_pos (by omega)] at hva
          refine ⟨?_, ?_⟩ <;> dsimp only <;> omega
        · have hgt : ¬ push u s.length ≤ 8192 := fun h => hn (hnear.2 h)
          obtain ⟨h₁, h₂⟩ := hc
          dsimp only at h₁ h₂
          split at hva <;> omega
      · refine ⟨.error .null, m', [((sp - (BitVec.ofNat 32 s.length + 1)) &&& ~~~3, s.length + 1)],
          Prog.eval_bind_error hcopy, rfl, fun hn => ?_⟩
        have := hnear.1 hn
        omega

/-! ### The array of addresses -/

/-- The bytes in use when the array is below the strings. -/
def total (strs : List (List Byte)) : ℕ := used 0 strs + 4 * (4 + strs.length)

/-- What is written into `ustack` at the end. -/
def lastUstack (us : Ustack) (argc : ℕ) (sp : Word) : Ustack :=
  Function.update (Function.update (Function.update (Function.update us (Fin.ofNat 36 (3 + argc)) 0)
    0 0xffffffff) 1 (BitVec.ofNat 32 argc)) 2 (sp - (BitVec.ofNat 32 argc + 1) * 4)

/-- What the second part of `exec` leaves. -/
def ArgsDone (W : Pool) (S : Space) (sz : Word) (strs : List (List Byte)) (m : Mem)
    (new : List (Word × ℕ)) : Except Fault (Option Word) → Prop
  | .ok (some sp) => total strs ≤ 4096 ∧ sp.toNat = sz.toNat - total strs ∧
      (∀ c ∈ new, InStack sz c) ∧ Near 0 strs ∧ ∃ pg us, Laid (pages sz) strs (used 0 strs) us pg ∧
        At W (S.write (pages sz - 1) (copyIn pg (4096 - total strs)
          (copyOut (lastUstack us strs.length (BitVec.ofNat 32 (sz.toNat - used 0 strs))) 0
            (4 * (4 + strs.length))))) m
  | .ok none => (strs.length ≤ MAXARG → 4096 < total strs) ∧
      (Near 0 strs → ∀ c ∈ new, InStack sz c) ∧
      (strs.length ≤ MAXARG → ¬ Near 0 strs → ∃ c ∈ new, ¬ InStack sz c) ∧
      ∃ page, At W { S with page := page } m
  | .error e => e = .null ∧ ¬ Near 0 strs

theorem reads_ustack (us : Ustack) {n : ℕ} (hn : n ≤ 144) : Reads W S (readUstack us) (copyOut us 0 n) := by
  intro page o n' hle m hat
  rw [copyOut_length] at hle
  refine ⟨_, m, ?_, rfl, hat⟩
  unfold readUstack
  rw [if_pos (by omega), copyOut_drop_take us hle]
  rfl

omit [Layout] in
theorem eval_setUstack {i : ℕ} (hi : i < 36) (us : Ustack) (w : Word) (k : Kern) :
    (setUstack us i w).eval k = (.ok (Function.update us (Fin.ofNat 36 i) w), k) := by
  have hfin : (⟨i, hi⟩ : Fin 36) = Fin.ofNat 36 i := Fin.ext (Nat.mod_eq_of_lt hi).symm
  unfold setUstack
  rw [dif_pos hi, hfin]
  rfl

theorem pushArray_spec (hst : Stacked S sz) {k : Kern} {new : List (Word × ℕ)}
    (hl : Laid (pages sz) strs (used 0 strs) us pg) (hsp : sp.toNat = sz.toNat - used 0 strs)
    (hin : ∀ c ∈ new, InStack sz c) (hn : Near 0 strs)
    (hat : At W (S.write (pages sz - 1) pg) k.mem) :
    ∃ r m' c, (pushArray S.dir sp strs.length us).eval k =
        (r, { k with mem := m', copied := c :: k.copied }) ∧ ArgsDone W S sz strs m' (c :: new) r := by
  have hsz := hst.toNat
  have htwo := hst.two
  have hszlt := sz.isLt
  have hcount : strs.length ≤ 32 := hl.count
  have hroom := hl.room
  have hspw : sp = BitVec.ofNat 32 (sz.toNat - used 0 strs) := by
    apply BitVec.eq_of_toNat_eq
    rw [hsp, BitVec.toNat_ofNat]
    omega
  have htotal : total strs = used 0 strs + 4 * (4 + strs.length) := rfl
  have hmul : (3 + BitVec.ofNat 32 strs.length + 1) * 4 = BitVec.ofNat 32 (4 * (4 + strs.length)) := by
    apply BitVec.eq_of_toNat_eq
    rw [BitVec.toNat_mul, BitVec.toNat_add, BitVec.toNat_add, BitVec.toNat_ofNat, BitVec.toNat_ofNat,
      show BitVec.toNat (3 : Word) = 3 from rfl, show BitVec.toNat (1 : Word) = 1 from rfl,
      show BitVec.toNat (4 : Word) = 4 from rfl]
    omega
  have hva : (sp - (3 + BitVec.ofNat 32 strs.length + 1) * 4).toNat = sz.toNat - total strs := by
    rw [hmul, BitVec.toNat_sub, BitVec.toNat_ofNat, hsp]
    omega
  have hlen : (3 + strs.length + 1) * 4 =
      (copyOut (lastUstack us strs.length sp) 0 (4 * (4 + strs.length))).length := by
    rw [copyOut_length]
    omega
  obtain ⟨r, m', hm', hres⟩ := copyout_push (u := total strs) hst hat
    (reads_ustack (lastUstack us strs.length sp) (by omega : 4 * (4 + strs.length) ≤ 144))
    (by omega) (by omega) (by omega) (by omega) (hva.trans (if_pos (by omega)).symm)
  rw [← hlen] at hm'
  have hall : ∀ c ∈ (sp - (3 + BitVec.ofNat 32 strs.length + 1) * 4, (3 + strs.length + 1) * 4) :: new,
      InStack sz c := by
    intro c hc
    rcases List.mem_cons.1 hc with rfl | hc
    · refine ⟨?_, ?_⟩ <;> dsimp only <;> omega
    · exact hin c hc
  have hcopy := eval_execCopyout hm'
  have hrun : (pushArray S.dir sp strs.length us).eval k =
      ((do
        let r ← execCopyout S.dir (sp - (3 + BitVec.ofNat 32 strs.length + 1) * 4)
          (readUstack (lastUstack us strs.length sp)) ((3 + strs.length + 1) * 4)
        if r < 0 then pure none
        else pure (some (sp - (3 + BitVec.ofNat 32 strs.length + 1) * 4)) : KernM (Option Word))).eval k := by
    unfold pushArray
    refine (Prog.eval_bind (eval_setUstack (by omega) _ _ _)).trans ?_
    refine (Prog.eval_bind (eval_setUstack (by omega) _ _ _)).trans ?_
    refine (Prog.eval_bind (eval_setUstack (by omega) _ _ _)).trans ?_
    exact Prog.eval_bind (eval_setUstack (by omega) _ _ _)
  rcases hres with ⟨hfit, rfl, hat'⟩ | ⟨hbig, hres, page, hat'⟩
  · refine ⟨.ok (some _), m', _, hrun.trans ((Prog.eval_bind hcopy).trans ?_), hfit, hva, hall, hn, pg, us,
      hl, hspw ▸ hat'⟩
    rw [if_neg (by decide)]
    rfl
  · rcases hres with rfl | ⟨hwrap, -⟩
    · refine ⟨.ok none, m', _, hrun.trans ((Prog.eval_bind hcopy).trans ?_), fun _ => hbig, fun _ => hall,
        fun _ hnear => absurd hn hnear, page, hat'⟩
      rw [if_pos (by decide)]
      rfl
    · omega

/-- **The second part of `exec`.** -/
theorem pushArgs_spec (hst : Stacked S sz) (hzero : S.page (pages sz - 1) = fun _ => 0)
    (haside : Aside S₀ W) (hpsz : psz < KERNBASE) {argv : List Word}
    (hargs : List.Forall₂ (IsStr S₀ psz) argv strs) {k : Kern} (hat : At W S k.mem) :
    ∃ r m' new, (pushArgs S₀.dir S.dir argv sz).eval k =
        (r, { k with mem := m', copied := new ++ k.copied }) ∧ ArgsDone W S sz strs m' new r := by
  have hself : S.write (pages sz - 1) (fun _ => 0) = S := by
    unfold Space.write
    rw [← hzero, Function.update_eq_self]
  have hat₀ : At W (S.write (pages sz - 1) fun _ => 0) k.mem := by rwa [hself]
  have hl₀ : Laid (pages sz) [] 0 (fun _ => 0) (fun _ => 0) := Laid.empty _
  obtain ⟨r, m₁, new, hrun, hdone⟩ := pushStrings_spec hst haside hpsz hargs hl₀ rfl hat₀
  unfold pushArgs
  match r, hdone with
  | .error e, ⟨he, hn⟩ =>
    exact ⟨.error e, m₁, new, Prog.eval_bind_error hrun, he, hn⟩
  | .ok none, ⟨hbig, hin, hout, page, hat₁⟩ =>
    rw [List.length_nil, Nat.zero_add] at hbig hout
    refine ⟨.ok none, m₁, new, (Prog.eval_bind hrun).trans rfl, fun h => ?_, hin, hout, page, hat₁⟩
    have := hbig h
    unfold total
    omega
  | .ok (some (sp, argc, us)), ⟨hargc, hsp, hin, hn, pg, hl, hat₁⟩ =>
    rw [List.nil_append] at hargc hl
    subst hargc
    obtain ⟨r, m₂, c, hrun₂, hdone⟩ :=
      pushArray_spec (k := { k with mem := m₁, copied := new ++ k.copied }) hst hl hsp hin hn hat₁
    exact ⟨r, m₂, c :: new, (Prog.eval_bind hrun).trans hrun₂, hdone⟩

end layout

end Xv6.Vm
