import Mathlib.Data.List.Induction
import Mathlib.Data.List.Nodup
import Mathlib.Logic.Function.Basic
import Mathlib.Tactic.Common

/-!
# Queues and arrivals

A record of arrivals numbers them in the order in which they happen: for each element the number and
the time of its last arrival, and the queue it went into. Queues are in turn when each holds its
elements in the order of their last arrivals. Appending the newest arrival keeps queues in turn, and
so do taking elements out and moving the front of one queue to the end of another.
-/

namespace Xv6.Lib

variable {α ι : Type*}

/-- The last arrival of every element. -/
structure Arrivals (α ι : Type*) where
  /-- How many arrivals there were. -/
  next : ℕ
  seq : α → ℕ
  time : α → ℕ
  into : α → ι

/-- The queues `qs` are in turn, at the time `T`. -/
structure InTurn (r : Arrivals α ι) (T : ℕ) (qs : ι → List α) : Prop where
  order : ∀ i, (qs i).Pairwise fun p q => r.seq p < r.seq q ∧ r.time p ≤ r.time q
  mem : ∀ i, ∀ p ∈ qs i, r.into p = i ∧ r.seq p < r.next ∧ r.time p ≤ T

variable {r : Arrivals α ι} {T : ℕ} {qs qs' : ι → List α}

theorem InTurn.later (h : InTurn r T qs) {T' : ℕ} (hT : T ≤ T') : InTurn r T' qs := by
  refine ⟨h.order, fun i p hp => ?_⟩
  obtain ⟨hi, hs, ht⟩ := h.mem i p hp
  exact ⟨hi, hs, Nat.le_trans ht hT⟩

theorem InTurn.sublist (h : InTurn r T qs) (hs : ∀ i, (qs' i).Sublist (qs i)) : InTurn r T qs' :=
  ⟨fun i => (h.order i).sublist (hs i), fun i p hp => h.mem i p ((hs i).subset hp)⟩

variable [DecidableEq α]

/-- The element `p` arrives in the queue `i`. -/
def Arrivals.enter (r : Arrivals α ι) (T : ℕ) (p : α) (i : ι) : Arrivals α ι where
  next := r.next + 1
  seq := Function.update r.seq p r.next
  time := Function.update r.time p T
  into := Function.update r.into p i

/-- Several elements arrive, one after the other. -/
def Arrivals.enterAll (r : Arrivals α ι) (T : ℕ) (es : List (α × ι)) : Arrivals α ι :=
  es.foldl (fun r e => r.enter T e.1 e.2) r

theorem Arrivals.enterAll_append (r : Arrivals α ι) (T : ℕ) (es es' : List (α × ι)) :
    r.enterAll T (es ++ es') = (r.enterAll T es).enterAll T es' :=
  List.foldl_append

theorem Arrivals.time_enterAll (r : Arrivals α ι) (T : ℕ) (es : List (α × ι)) (p : α) :
    (r.enterAll T es).time p = if p ∈ es.map Prod.fst then T else r.time p := by
  induction es using List.reverseRecOn with
  | nil => rfl
  | append_singleton es e ih =>
    rw [Arrivals.enterAll_append]
    show Function.update (r.enterAll T es).time e.1 T p = _
    rw [List.map_append, List.map_singleton]
    by_cases hp : p = e.1
    · rw [hp, Function.update_self, if_pos (by simp)]
    · rw [Function.update_of_ne hp, ih]
      simp only [List.mem_append, List.mem_singleton, hp, or_false]

variable [DecidableEq ι]

/-- **An arrival**: the element goes to the end of its queue. -/
theorem InTurn.push (h : InTurn r T qs) {p : α} (hp : ∀ i, p ∉ qs i) (i : ι) :
    InTurn (r.enter T p i) T (Function.update qs i (qs i ++ [p])) := by
  have hne : ∀ {j q}, q ∈ qs j → q ≠ p := by
    rintro j q hq rfl
    exact hp j hq
  -- the elements that were there keep their arrivals
  have hold : ∀ j, (qs j).Pairwise fun q q' =>
      (r.enter T p i).seq q < (r.enter T p i).seq q' ∧ (r.enter T p i).time q ≤ (r.enter T p i).time q' := by
    intro j
    refine (h.order j).imp_of_mem fun {q q'} hq hq' hqq' => ?_
    simpa only [Arrivals.enter, Function.update_of_ne (hne hq), Function.update_of_ne (hne hq')] using hqq'
  have hmem : ∀ j, ∀ q ∈ qs j, (r.enter T p i).into q = j ∧ (r.enter T p i).seq q < r.next ∧
      (r.enter T p i).time q ≤ T := by
    intro j q hq
    simpa only [Arrivals.enter, Function.update_of_ne (hne hq)] using h.mem j q hq
  have hnew : (r.enter T p i).seq p = r.next ∧ (r.enter T p i).time p = T ∧ (r.enter T p i).into p = i :=
    ⟨Function.update_self .., Function.update_self .., Function.update_self ..⟩
  refine ⟨fun j => ?_, fun j q hq => ?_⟩
  · by_cases hj : j = i
    · subst hj
      rw [Function.update_self, List.pairwise_append]
      refine ⟨hold j, List.pairwise_singleton _ _, fun q hq q' hq' => ?_⟩
      obtain rfl := List.mem_singleton.1 hq'
      obtain ⟨-, hs, ht⟩ := hmem j q hq
      rw [hnew.1, hnew.2.1]
      exact ⟨hs, ht⟩
    · rw [Function.update_of_ne hj]
      exact hold j
  · have hcase : q ∈ qs j ∨ j = i ∧ q = p := by
      by_cases hj : j = i
      · subst hj
        rw [Function.update_self, List.mem_append, List.mem_singleton] at hq
        exact hq.imp id fun hq => ⟨rfl, hq⟩
      · rw [Function.update_of_ne hj] at hq
        exact .inl hq
    rcases hcase with hq | ⟨rfl, rfl⟩
    · obtain ⟨hi, hs, ht⟩ := hmem j q hq
      exact ⟨hi, Nat.lt_succ_of_lt hs, ht⟩
    · rw [hnew.1, hnew.2.1, hnew.2.2]
      exact ⟨rfl, Nat.lt_succ_self _, Nat.le_refl _⟩

/-- **The front of a queue moves** to the end of another, element by element. -/
theorem InTurn.move {i j : ι} (hij : i ≠ j) {moved rest : List α} (h : InTurn r T qs)
    (hnd : ∀ i, (qs i).Nodup) (hown : ∀ p i j, p ∈ qs i → p ∈ qs j → i = j) (hq : qs i = moved ++ rest) :
    InTurn (r.enterAll T (moved.map (·, j))) T
      (Function.update (Function.update qs i rest) j (qs j ++ moved)) := by
  induction moved generalizing r qs with
  | nil =>
    have hsame : Function.update (Function.update qs i rest) j (qs j ++ []) = qs := by
      rw [List.append_nil, show rest = qs i from hq.symm, Function.update_eq_self, Function.update_eq_self]
    rw [hsame]
    exact h
  | cons p moved ih =>
    -- the first element goes first
    have hnd' := hnd i
    rw [hq] at hnd'
    obtain ⟨hpn, hndr⟩ := List.nodup_cons.1 hnd'
    have hpi : p ∈ qs i := by simp [hq]
    have hsub : ∀ k, (Function.update qs i (moved ++ rest) k).Sublist (qs k) := by
      intro k
      by_cases hk : k = i
      · subst hk
        rw [Function.update_self, hq]
        exact List.sublist_cons_self p _
      · rw [Function.update_of_ne hk]
    have hout : ∀ k, p ∉ Function.update qs i (moved ++ rest) k := by
      intro k hp
      by_cases hk : k = i
      · subst hk
        rw [Function.update_self] at hp
        exact hpn hp
      · rw [Function.update_of_ne hk] at hp
        exact hk (hown p k i hp hpi)
    have h₁ := (h.sublist hsub).push hout j
    set qs₁ := Function.update qs i (moved ++ rest) with hqs₁
    have hj₁ : qs₁ j = qs j := Function.update_of_ne (Ne.symm hij) ..
    have hnd₁ : ∀ k, (Function.update qs₁ j (qs₁ j ++ [p]) k).Nodup := by
      intro k
      by_cases hk : k = j
      · subst hk
        rw [Function.update_self, List.nodup_append]
        refine ⟨(hnd k).sublist (hsub k), List.nodup_singleton p, fun a ha b hb => ?_⟩
        rintro rfl
        exact hout k (List.mem_singleton.1 hb ▸ ha)
      · rw [Function.update_of_ne hk]
        exact (hnd k).sublist (hsub k)
    have hmem₁ : ∀ k q, q ∈ Function.update qs₁ j (qs₁ j ++ [p]) k → q ∈ qs₁ k ∨ k = j ∧ q = p := by
      intro k q hqk
      by_cases hk : k = j
      · subst hk
        rw [Function.update_self, List.mem_append, List.mem_singleton] at hqk
        exact hqk.imp id fun hqp => ⟨rfl, hqp⟩
      · rw [Function.update_of_ne hk] at hqk
        exact .inl hqk
    have hown₁ : ∀ q k k', q ∈ Function.update qs₁ j (qs₁ j ++ [p]) k →
        q ∈ Function.update qs₁ j (qs₁ j ++ [p]) k' → k = k' := by
      intro q k k' hk hk'
      rcases hmem₁ k q hk with hk | ⟨hkj, hqp⟩
      · rcases hmem₁ k' q hk' with hk' | ⟨-, hqp⟩
        · exact hown q k k' ((hsub k).subset hk) ((hsub k').subset hk')
        · exact absurd (hqp ▸ hk) (hout k)
      · rcases hmem₁ k' q hk' with hk' | ⟨hkj', -⟩
        · exact absurd (hqp ▸ hk') (hout k')
        · exact hkj.trans hkj'.symm
    have hi₁ : Function.update qs₁ j (qs₁ j ++ [p]) i = moved ++ rest := by
      rw [Function.update_of_ne hij, hqs₁, Function.update_self]
    have hend := ih h₁ hnd₁ hown₁ hi₁
    have hsame : Function.update (Function.update (Function.update qs₁ j (qs₁ j ++ [p])) i rest) j
        (Function.update qs₁ j (qs₁ j ++ [p]) j ++ moved) =
        Function.update (Function.update qs i rest) j (qs j ++ p :: moved) := by
      funext k
      by_cases hk : k = j
      · subst hk
        simp [hj₁]
      · by_cases hki : k = i
        · subst hki
          simp [hk]
        · simp [hqs₁, hk, hki]
    rw [hsame] at hend
    exact hend

end Xv6.Lib
