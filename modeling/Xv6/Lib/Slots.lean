import Mathlib.Data.Multiset.Filter
import Mathlib.Data.List.Nodup
import Mathlib.Data.Finset.Basic

/-!
# The values in a row of slots

A row of slots, each empty or with a value in it: the values as a multiset, and how it changes when
one slot is filled or emptied.
-/

namespace Xv6.Lib

variable {α β : Type*} {l : List α} {f g : α → Option β} {a a' : α} {b : β}

/-- The values in the slots `l`. -/
def slots (l : List α) (f : α → Option β) : Multiset β := ↑(l.filterMap f)

theorem mem_slots : b ∈ slots l f ↔ ∃ a ∈ l, f a = some b := by
  unfold slots
  rw [Multiset.mem_coe, List.mem_filterMap]

theorem slots_congr (h : ∀ a ∈ l, f a = g a) : slots l f = slots l g := by
  unfold slots
  rw [List.filterMap_congr h]

theorem slots_none (h : ∀ a ∈ l, f a = none) : slots l f = 0 := by
  unfold slots
  rw [List.filterMap_eq_nil_iff.2 h]
  rfl

theorem slots_cons_none (h : f a = none) : slots (a :: l) f = slots l f := by
  unfold slots
  rw [List.filterMap_cons_none h]

theorem slots_cons_some (h : f a = some b) : slots (a :: l) f = b ::ₘ slots l f := by
  unfold slots
  rw [List.filterMap_cons_some h]
  rfl

theorem slots_card_le : (slots l f).card ≤ l.length := List.length_filterMap_le f l

theorem slots_fill (hl : l.Nodup) (ha : a ∈ l) (hf : f a = none) (hg : g a = some b)
    (h : ∀ x ∈ l, x ≠ a → g x = f x) : slots l g = b ::ₘ slots l f := by
  induction l with
  | nil => cases ha
  | cons c l ih =>
    rw [List.nodup_cons] at hl
    rcases List.mem_cons.1 ha with rfl | hal
    · have hrest : slots l g = slots l f :=
        slots_congr fun x hx => h x (.tail a hx) fun hxa => hl.1 (hxa ▸ hx)
      rw [slots_cons_some hg, slots_cons_none hf, hrest]
    · have hrest := ih hl.2 hal fun x hx hxa => h x (.tail c hx) hxa
      have hc : g c = f c := h c List.mem_cons_self fun hca => hl.1 (hca ▸ hal)
      cases hfc : f c with
      | none => rw [slots_cons_none (hc.trans hfc), slots_cons_none hfc, hrest]
      | some d =>
        rw [slots_cons_some (hc.trans hfc), slots_cons_some hfc, hrest, Multiset.cons_swap]

theorem slots_split (p : α → Prop) [DecidablePred p] (h : ∀ a ∈ l, g a = if p a then none else f a) :
    slots l f = slots (l.filter fun a => p a) f + slots l g := by
  induction l with
  | nil => rfl
  | cons a l ih =>
    have hrest := ih fun x hx => h x (.tail a hx)
    have ha := h a List.mem_cons_self
    by_cases hp : p a
    · rw [if_pos hp] at ha
      rw [List.filter_cons_of_pos (by simpa using hp), slots_cons_none ha]
      cases hf : f a with
      | none => rw [slots_cons_none hf, slots_cons_none hf, hrest]
      | some b => rw [slots_cons_some hf, slots_cons_some hf, hrest, Multiset.cons_add]
    · rw [if_neg hp] at ha
      rw [List.filter_cons_of_neg (by simpa using hp)]
      cases hf : f a with
      | none => rw [slots_cons_none hf, slots_cons_none (ha.trans hf), hrest]
      | some b => rw [slots_cons_some hf, slots_cons_some (ha.trans hf), hrest, Multiset.add_cons]

theorem slots_inj (hl : l.Nodup) (hn : (slots l f).Nodup) (ha : a ∈ l) (ha' : a' ∈ l)
    (h : f a = some b) (h' : f a' = some b) : a = a' := by
  by_contra hne
  classical
  -- with the slot `a` emptied the value is still there
  have hfill := slots_fill (g := f) (f := Function.update f a none) hl ha
    (Function.update_self a none f) h fun x _ hx => (Function.update_of_ne hx none f).symm
  rw [hfill, Multiset.nodup_cons] at hn
  exact hn.1 (mem_slots.2 ⟨a', ha', (Function.update_of_ne (Ne.symm hne) none f).trans h'⟩)

end Xv6.Lib
