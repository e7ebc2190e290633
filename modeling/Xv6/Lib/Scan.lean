import Mathlib.Data.List.FinRange
import Mathlib.Data.List.Induction
import Mathlib.Order.Lattice

/-!
# Scans of a table

Loops over the slots of a table in their order: a search that stops at the first slot with a
property, a pass over all slots that keeps the one with the least key seen so far, and a scan that
stops at the ready slots one after the other and starts over at its end.
-/

namespace Xv6.Lib

variable {n : ℕ} {f : Fin n → Bool} {p q : Fin n}

/-- A search stops at the first slot with the property. -/
theorem find?_finRange_le (h : (List.finRange n).find? f = some p) (hq : f q = true) : p ≤ q := by
  obtain ⟨-, as, bs, hsplit, has⟩ := List.find?_eq_some_iff_append.1 h
  have hsorted : (as ++ p :: bs).Pairwise (· < ·) := hsplit ▸ List.pairwise_lt_finRange n
  have hmem : q ∈ as ++ p :: bs := hsplit ▸ List.mem_finRange q
  obtain ⟨-, hrest, -⟩ := List.pairwise_append.1 hsorted
  rcases List.mem_append.1 hmem with hq' | hq'
  · have := has q hq'
    simp [hq] at this
  · rcases List.mem_cons.1 hq' with rfl | hq'
    · exact le_rfl
    · exact ((List.pairwise_cons.1 hrest).1 q hq').le

theorem find?_finRange_none (h : (List.finRange n).find? f = none) (q : Fin n) : f q = false := by
  simpa using List.find?_eq_none.1 h q (List.mem_finRange q)

section select

variable {μ α κ : Type*} [LinearOrder κ] (g : μ → α → μ) (sel : μ → Option α) (val : μ → κ)
  (P : α → Prop) (key : α → κ)

/-- **A pass that keeps the least key.** The loop state `m` holds a bound `val m` and a candidate
`sel m`; an element with `P` and a key below the bound replaces both, and nothing else changes them.
If there was no candidate at first, the last one has the least key among all elements with `P`, and
there is none only if no element with `P` has a key below the first bound. -/
theorem foldl_least (htake : ∀ m a, P a → key a < val m → sel (g m a) = some a ∧ val (g m a) = key a)
    (hkeep : ∀ m a, (P a → ¬ key a < val m) → g m a = m) (l : List α) {m : μ} (hm : sel m = none) :
    (sel (l.foldl g m) = none ∧ ∀ a ∈ l, P a → val m ≤ key a) ∨
      ∃ a ∈ l, sel (l.foldl g m) = some a ∧ P a ∧ key a < val m ∧ ∀ b ∈ l, P b → key a ≤ key b := by
  -- what the prefix `l` of the elements has left in the loop state
  have hinv : (sel (l.foldl g m) = none ∧ val (l.foldl g m) = val m ∧ ∀ a ∈ l, P a → val m ≤ key a) ∨
      ∃ a ∈ l, sel (l.foldl g m) = some a ∧ val (l.foldl g m) = key a ∧ P a ∧ key a < val m ∧
        ∀ b ∈ l, P b → key a ≤ key b := by
    induction l using List.reverseRecOn with
    | nil => exact .inl ⟨hm, rfl, fun a ha => absurd ha List.not_mem_nil⟩
    | append_singleton l a ih =>
      rw [List.foldl_append, List.foldl_cons, List.foldl_nil]
      generalize l.foldl g m = m' at ih
      by_cases ha : P a ∧ key a < val m'
      · -- the new element is the least
        obtain ⟨hsel, hval⟩ := htake m' a ha.1 ha.2
        refine .inr ⟨a, by simp, hsel, hval, ha.1, ?_, fun b hb hPb => ?_⟩
        · rcases ih with ⟨-, hm', -⟩ | ⟨c, -, -, hm', -, hlt, -⟩
          · exact hm' ▸ ha.2
          · exact (hm' ▸ ha.2).trans hlt
        · rcases List.mem_append.1 hb with hb | hb
          · rcases ih with ⟨-, hm', hall⟩ | ⟨c, -, -, hm', -, -, hall⟩
            · exact (hm' ▸ ha.2).le.trans (hall b hb hPb)
            · exact (hm' ▸ ha.2).le.trans (hall b hb hPb)
          · rw [List.mem_singleton.1 hb]
      · have hge : P a → val m' ≤ key a := fun hPa => not_lt.1 fun hlt => ha ⟨hPa, hlt⟩
        rw [hkeep m' a fun hPa => not_lt.2 (hge hPa)]
        rcases ih with ⟨hsel, hval, hall⟩ | ⟨c, hc, hsel, hval, hPc, hlt, hall⟩
        · refine .inl ⟨hsel, hval, fun b hb hPb => ?_⟩
          rcases List.mem_append.1 hb with hb | hb
          · exact hall b hb hPb
          · obtain rfl := List.mem_singleton.1 hb
            exact hval ▸ hge hPb
        · refine .inr ⟨c, by simp [hc], hsel, hval, hPc, hlt, fun b hb hPb => ?_⟩
          rcases List.mem_append.1 hb with hb | hb
          · exact hall b hb hPb
          · obtain rfl := List.mem_singleton.1 hb
            exact hval ▸ hge hPb
  rcases hinv with ⟨hsel, -, hall⟩ | ⟨a, ha, hsel, -, hrest⟩
  · exact .inl ⟨hsel, hall⟩
  · exact .inr ⟨a, ha, hsel, hrest⟩

end select

/-! ### A scan that starts over -/

section cycle

variable {α : Type*} [LinearOrder α] {ready : α → Prop} {x y : Option α} {p q : α} {both : Prop} {n : ℕ}

/-- The element lies behind the position; a scan that has not begun is before everything. -/
def After (x : Option α) (z : α) : Prop := ∀ a, x = some a → a < z

@[simp] theorem after_none (z : α) : After none z := nofun

@[simp] theorem after_some {a z : α} : After (some a) z ↔ a < z := by simp [After]

/-- The scan moves from the position `x` to the first ready element behind it, and to its end if
there is none. -/
def Next (ready : α → Prop) (x : Option α) : Option α → Prop
  | some y => After x y ∧ ready y ∧ ∀ z, After x z → ready z → y ≤ z
  | none => ∀ z, After x z → ¬ ready z

/-- How often the scan has stopped at `q` since it was at `p`, with the position `x`: it is still in
the pass in which it was at `p`, or in a later one. If `both`, also `p` is ready whenever the scan is
elsewhere. -/
inductive Bypass (p q : α) (both : Prop) (n : ℕ) (x : Option α) : Prop
  | first (a : α) : x = some a → p ≤ a → n = (if p < q ∧ q ≤ a then 1 else 0) → Bypass p q both n x
  | later : (p < q ∨ (∃ a, x = some a ∧ q ≤ a) → 1 ≤ n) →
      (both → (∀ a, x = some a → a < p) ∧
        n = (if p < q then 1 else 0) + if ∃ a, x = some a ∧ q ≤ a then 1 else 0) →
      Bypass p q both n x

theorem Bypass.start (p q : α) (both : Prop) : Bypass p q both 0 (some p) :=
  .first p rfl le_rfl (by simp)

/-- A move of the scan: the stop at `q` is counted, and `q` is not left out. -/
theorem Bypass.next (hb : Bypass p q both n x) (hx : Next ready x y) (hq : x ≠ some q → ready q)
    (hp : both → x ≠ some p → ready p) (hy : y ≠ some p) :
    Bypass p q both (n + if y = some q then 1 else 0) y := by
  cases hb with
  | first a hxa hpa hn =>
    subst hxa
    have hq : a < q → ready q := fun hlt => hq (by simpa using hlt.ne)
    cases y with
    | none =>
      -- the pass has come to its end, so it has been at `q` if that was still to come
      have hle : q ≤ a := not_lt.1 fun hlt => hx q (by simpa using hlt) (hq hlt)
      refine .later ?_ (fun _ => ⟨by simp, ?_⟩)
      · rintro (hlt | ⟨_, h, -⟩)
        · simp [hn, hlt, hle]
        · cases h
      · simp [hn, hle]
    | some c =>
      obtain ⟨hac, -, hmin⟩ := hx
      rw [after_some] at hac
      refine .first c rfl (hpa.trans hac.le) ?_
      rcases le_or_gt q a with hle | hlt
      · have hcq : c ≠ q := (hle.trans_lt hac).ne'
        simp [hn, hle, hcq, hle.trans hac.le]
      · have hcq : c ≤ q := hmin q (by simpa using hlt) (hq hlt)
        simp only [hn, not_le.2 hlt, and_false, if_false, Option.some.injEq, (hpa.trans_lt hlt), true_and,
          Nat.zero_add]
        simp only [le_antisymm_iff, hcq, true_and]
  | later hge heq =>
    have hq : (∀ a, x = some a → a < q) → ready q := fun hlt => hq (by
      rintro rfl
      exact lt_irrefl q (hlt q rfl))
    cases y with
    | none =>
      refine .later ?_ (fun hboth => ?_)
      · rintro (hlt | ⟨_, h, -⟩)
        · exact (hge (.inl hlt)).trans (Nat.le_add_right _ _)
        · cases h
      · -- a later pass does not get past `p`
        have hlt := (heq hboth).1
        refine absurd (hp hboth ?_) (hx p hlt)
        rintro rfl
        exact lt_irrefl p (hlt p rfl)
    | some c =>
      obtain ⟨hac, -, hmin⟩ := hx
      have hcount : (if (some c : Option α) = some q then 1 else 0) + (if ∃ a, x = some a ∧ q ≤ a then 1 else 0) =
          if q ≤ c then 1 else 0 := by
        by_cases hle : ∃ a, x = some a ∧ q ≤ a
        · obtain ⟨a, rfl, hle⟩ := hle
          have hlt : q < c := hle.trans_lt (after_some.1 hac)
          simp [hle, hlt.ne', hlt.le]
        · have hcq : c ≤ q := by
            refine hmin q (fun a ha => not_le.1 fun h => hle ⟨a, ha, h⟩) (hq fun a ha => ?_)
            exact not_le.1 fun h => hle ⟨a, ha, h⟩
          simp only [hle, if_false, Nat.add_zero, Option.some.injEq, le_antisymm_iff, hcq, true_and]
      refine .later ?_ (fun hboth => ⟨?_, ?_⟩)
      · rintro (hlt | ⟨_, h, hle⟩)
        · exact (hge (.inl hlt)).trans (Nat.le_add_right _ _)
        · cases h
          rw [if_pos hle] at hcount
          by_cases hx' : ∃ a, x = some a ∧ q ≤ a
          · exact (hge (.inr hx')).trans (Nat.le_add_right _ _)
          · rw [if_neg hx'] at hcount
            omega
      · rintro a ha
        cases ha
        have hlt := (heq hboth).1
        refine lt_of_le_of_ne (hmin p hlt (hp hboth ?_)) (fun h => hy (by rw [h]))
        rintro rfl
        exact lt_irrefl p (hlt p rfl)
      · rw [(heq hboth).2, Nat.add_assoc, Nat.add_comm (ite _ 1 0) (ite (some c = _) 1 0), hcount]
        simp

/-- The scan comes to `p` again: it has been at `q` in between. -/
theorem Bypass.last (hb : Bypass p q both n x) (hx : Next ready x (some p)) (hne : q ≠ p)
    (hq : x ≠ some q → ready q) : 1 ≤ n ∧ (both → n = 1) := by
  obtain ⟨hxp, -, hmin⟩ := hx
  cases hb with
  | first a hxa hpa =>
    subst hxa
    exact absurd hpa (not_le.2 (after_some.1 hxp))
  | later hge heq =>
    by_cases hle : ∃ a, x = some a ∧ q ≤ a
    · refine ⟨hge (.inr hle), fun hboth => ?_⟩
      obtain ⟨hlt, hn⟩ := heq hboth
      obtain ⟨a, ha, hqa⟩ := hle
      have hqp : ¬ p < q := not_lt.2 (hqa.trans (hlt a ha).le)
      rw [hn, if_neg hqp, if_pos ⟨a, ha, hqa⟩]
    · have hbefore : ∀ a, x = some a → a < q := fun a ha => not_le.1 fun h => hle ⟨a, ha, h⟩
      have hready : ready q := hq (by
        rintro rfl
        exact lt_irrefl q (hbefore q rfl))
      have hlt : p < q := lt_of_le_of_ne (hmin q hbefore hready) hne.symm
      refine ⟨hge (.inl hlt), fun hboth => ?_⟩
      rw [(heq hboth).2, if_pos hlt, if_neg hle]

end cycle

end Xv6.Lib
