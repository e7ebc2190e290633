import Mathlib.Data.List.Basic
import Mathlib.Logic.Function.Basic

/-!
# Linked lists in a node heap

`Seg next h l e` says that following `next` from the pointer `h` visits the nodes of `l` in order
and ends at the pointer `e`; a list that ends at the null pointer is a `Chain`. The two loops that
such code runs are here with their answers: walking to the last node, and counting.
-/

namespace Xv6.Lib

variable {ν : Type*}

/-- From the pointer `h`, `next` leads through the nodes `l` to the pointer `e`. -/
def Seg (next : ν → Option ν) : Option ν → List ν → Option ν → Prop
  | h, [], e => h = e
  | h, n :: l, e => h = some n ∧ Seg next (next n) l e

/-- A null-terminated list. -/
def Chain (next : ν → Option ν) (h : Option ν) (l : List ν) : Prop := Seg next h l none

variable {next next' : ν → Option ν} {h m e : Option ν} {l l₁ l₂ : List ν} {n : ν}

@[simp] theorem seg_nil : Seg next h [] e ↔ h = e := Iff.rfl

@[simp] theorem seg_cons : Seg next h (n :: l) e ↔ h = some n ∧ Seg next (next n) l e := Iff.rfl

theorem seg_append : Seg next h (l₁ ++ l₂) e ↔ ∃ m, Seg next h l₁ m ∧ Seg next m l₂ e := by
  induction l₁ generalizing h with
  | nil => simp
  | cons n l ih =>
    simp only [List.cons_append, seg_cons, ih]
    constructor
    · rintro ⟨hn, m, h₁, h₂⟩
      exact ⟨m, ⟨hn, h₁⟩, h₂⟩
    · rintro ⟨m, ⟨hn, h₁⟩, h₂⟩
      exact ⟨hn, m, h₁, h₂⟩

theorem Seg.congr (hs : Seg next h l e) (hn : ∀ n ∈ l, next' n = next n) : Seg next' h l e := by
  induction l generalizing h with
  | nil => exact hs
  | cons n l ih =>
    obtain ⟨rfl, hs⟩ := hs
    refine ⟨rfl, ?_⟩
    rw [hn n (by simp)]
    exact ih hs fun m hm => hn m (by simp [hm])

/-- Storing a link in a node that is not on the segment leaves it as it was. -/
theorem Seg.update [DecidableEq ν] (hs : Seg next h l e) (hn : n ∉ l) (v : Option ν) :
    Seg (Function.update next n v) h l e :=
  hs.congr fun _ hm => Function.update_of_ne (ne_of_mem_of_not_mem hm hn) _ _

/-- Storing a link in the last node of a segment redirects its end. -/
theorem Seg.relink [DecidableEq ν] (hs : Seg next h (l ++ [n]) e) (hn : n ∉ l) (v : Option ν) :
    Seg (Function.update next n v) h (l ++ [n]) v := by
  obtain ⟨m, h₁, h₂⟩ := seg_append.1 hs
  refine seg_append.2 ⟨m, h₁.update hn v, h₂.1, ?_⟩
  simp

theorem chain_nil : Chain next h [] ↔ h = none := Iff.rfl

theorem chain_cons : Chain next h (n :: l) ↔ h = some n ∧ Chain next (next n) l := Iff.rfl

theorem Chain.eq_nil (hc : Chain next none l) : l = [] := by
  cases l with
  | nil => rfl
  | cons n l => exact absurd hc.1 (by simp)

/-- The nodes of a null-terminated list are determined by its head. -/
theorem Chain.unique {l' : List ν} (h₁ : Chain next h l) (h₂ : Chain next h l') : l = l' := by
  induction l generalizing l' h with
  | nil =>
    obtain rfl : h = none := h₁
    exact h₂.eq_nil.symm
  | cons n l ih =>
    obtain ⟨rfl, h₁⟩ := h₁
    cases l' with
    | nil => exact absurd h₂ (by simp [Chain])
    | cons n' l' =>
      obtain ⟨hn, h₂⟩ := h₂
      obtain rfl : n = n' := Option.some.inj hn
      rw [ih h₁ h₂]

/-- A null-terminated list never meets a node twice: it would head two suffixes of different
lengths. -/
theorem Chain.nodup : ∀ {l : List ν} {h : Option ν}, Chain next h l → l.Nodup := by
  intro l
  induction l with
  | nil => intro h _; exact List.nodup_nil
  | cons n l ih =>
    rintro h ⟨rfl, hc⟩
    refine List.nodup_cons.2 ⟨fun hn => ?_, ih hc⟩
    obtain ⟨l₁, l₂, rfl⟩ := List.append_of_mem hn
    obtain ⟨m, -, hm⟩ := seg_append.1 hc
    have := congrArg List.length (Chain.unique hc hm.2)
    simp at this
    omega

/-! ### The loops -/

/-- `while (cur->next != 0) cur = cur->next;`, for at most `fuel` turns. -/
def lastNode (next : ν → Option ν) : ℕ → ν → Option ν
  | 0, _ => none
  | fuel + 1, cur =>
    match next cur with
    | none => some cur
    | some n => lastNode next fuel n

/-- `while (head != 0) { head = head->next; count++; }`, for at most `fuel` turns. -/
def countNodes (next : ν → Option ν) : ℕ → Option ν → Option ℕ
  | _, none => some 0
  | 0, some _ => none
  | fuel + 1, some n => (countNodes next fuel (next n)).map (· + 1)

theorem lastNode_eq (hc : Chain next (some n) l) {fuel : ℕ} (hf : l.length ≤ fuel) :
    ∃ l' z, l = l' ++ [z] ∧ lastNode next fuel n = some z := by
  induction l generalizing n fuel with
  | nil => exact absurd hc (by simp [Chain])
  | cons n' l ih =>
    obtain ⟨hn, hc⟩ := hc
    obtain rfl : n = n' := Option.some.inj hn
    obtain ⟨fuel, rfl⟩ : ∃ f, fuel = f + 1 := ⟨fuel - 1, by simp at hf; omega⟩
    cases l with
    | nil =>
      have hz : next n = none := hc
      exact ⟨[], n, rfl, by simp [lastNode, hz]⟩
    | cons m l =>
      have hm : next n = some m := hc.1
      rw [hm] at hc
      have hf : (m :: l).length ≤ fuel := by simpa using hf
      obtain ⟨l', z, hl, hz⟩ := ih hc hf
      exact ⟨n :: l', z, by rw [hl]; rfl, by simp [lastNode, hm, hz]⟩

theorem countNodes_eq (hc : Chain next h l) {fuel : ℕ} (hf : l.length ≤ fuel) :
    countNodes next fuel h = some l.length := by
  induction l generalizing h fuel with
  | nil =>
    obtain rfl : h = none := hc
    simp [countNodes]
  | cons n l ih =>
    obtain ⟨rfl, hc⟩ := hc
    obtain ⟨fuel, rfl⟩ : ∃ f, fuel = f + 1 := ⟨fuel - 1, by simp at hf; omega⟩
    simp [countNodes, ih hc (by simpa using hf)]

end Xv6.Lib
