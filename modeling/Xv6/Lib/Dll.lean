import Xv6.Lib.Chain
import Mathlib.Data.List.Chain
import Mathlib.Data.List.Nodup
import Mathlib.Data.Option.Basic

/-!
# Circular doubly linked lists

The nodes are linked in both directions, around a head that is not a node itself; a pointer is
`none` if it points to the head. `Links.Ring` says that a list is what the links spell.
-/

namespace Xv6.Lib

variable {ν : Type*}

/-- The links of the head and of the nodes. -/
structure Links (ν : Type*) where
  next : Option ν → Option ν
  prev : Option ν → Option ν

/-- `for(b = ...; b != &head; b = b->link)`, for at most `fuel` turns: the first node with `f`. -/
def findLink (link : Option ν → Option ν) (f : ν → Bool) : ℕ → Option ν → Option (Option ν)
  | _, none => some none
  | 0, some _ => none
  | fuel + 1, some b => if f b then some (some b) else findLink link f fuel (link (some b))

namespace Links

def empty : Links ν := ⟨fun _ => none, fun _ => none⟩

variable [DecidableEq ν]

/-- Link the nodes around `b` to each other. -/
def unlink (L : Links ν) (b : ν) : Links ν :=
  let L := { L with prev := Function.update L.prev (L.next (some b)) (L.prev (some b)) }
  { L with next := Function.update L.next (L.prev (some b)) (L.next (some b)) }

def pushFront (L : Links ν) (b : ν) : Links ν :=
  let L := { L with next := Function.update L.next (some b) (L.next none) }
  let L := { L with prev := Function.update L.prev (some b) none }
  let L := { L with prev := Function.update L.prev (L.next none) (some b) }
  { L with next := Function.update L.next none (some b) }

end Links

variable {L : Links ν} {l l₁ l₂ : List ν} {b : ν} {x y : Option ν}

/-- `y` follows `x`, and `x` precedes `y`. -/
def Links.Linked (L : Links ν) (x y : Option ν) : Prop := L.next x = y ∧ L.prev y = x

/-- The pointers around the ring. -/
def around (l : List ν) : List (Option ν) := none :: l.map some ++ [none]

/-- **The links spell the list `l`.** -/
structure Links.Ring (L : Links ν) (l : List ν) : Prop where
  nodup : l.Nodup
  linked : (around l).IsChain L.Linked

theorem around_cons : around (b :: l) = none :: some b :: (l.map some ++ [none]) := rfl

theorem around_append : around (l₁ ++ b :: l₂) =
    (none :: l₁.map some) ++ some b :: (l₂.map some ++ [none]) := by
  simp [around]

theorem Links.ring_empty : (Links.empty : Links ν).Ring [] :=
  ⟨List.nodup_nil, by simp [around, Links.Linked, Links.empty]⟩

/-! ### Reading -/

/-- A loop through the nodes of a list finds what `find?` finds. -/
theorem findLink_eq {link : Option ν → Option ν} {f : ν → Bool} {fuel : ℕ}
    (hc : Chain (fun b => link (some b)) x l) (hf : l.length ≤ fuel) :
    findLink link f fuel x = some (l.find? f) := by
  induction l generalizing x fuel with
  | nil =>
    obtain rfl : x = none := hc
    cases fuel <;> rfl
  | cons b l ih =>
    obtain ⟨rfl, hc⟩ := hc
    obtain ⟨fuel, rfl⟩ : ∃ k, fuel = k + 1 := ⟨fuel - 1, by simp at hf; omega⟩
    cases hb : f b with
    | true => simp [findLink, hb]
    | false => simpa [findLink, hb] using ih hc (by simpa using hf)

theorem chain_of_isChain (h : (x :: (l.map some ++ [none])).IsChain L.Linked) :
    Chain (fun b => L.next (some b)) (L.next x) l := by
  induction l generalizing x with
  | nil => exact (List.isChain_cons_cons.1 h).1.1
  | cons b l ih =>
    obtain ⟨hb, h⟩ := List.isChain_cons_cons.1 h
    exact ⟨hb.1, ih h⟩

/-- The links within a stretch of the ring see only its own pointers. -/
theorem isChain_congr {L' : Links ν} : ∀ {k : List (Option ν)}, k.IsChain L.Linked →
    (∀ z ∈ k.dropLast, L'.next z = L.next z) → (∀ z ∈ k.tail, L'.prev z = L.prev z) →
    k.IsChain L'.Linked
  | [], _, _, _ => .nil
  | [x], _, _, _ => .singleton x
  | x :: y :: k, h, hn, hp => by
    obtain ⟨⟨h₁, h₂⟩, h⟩ := List.isChain_cons_cons.1 h
    rw [List.dropLast_cons_cons] at hn
    refine List.isChain_cons_cons.2 ⟨⟨?_, ?_⟩, isChain_congr h ?_ ?_⟩
    · rw [hn x List.mem_cons_self, h₁]
    · rw [hp y List.mem_cons_self, h₂]
    · exact fun z hz => hn z (List.mem_cons_of_mem x hz)
    · exact fun z hz => hp z (List.mem_cons_of_mem y hz)

namespace Links.Ring

theorem next_chain (h : L.Ring l) : Chain (fun b => L.next (some b)) (L.next none) l :=
  chain_of_isChain h.linked

theorem flip (h : L.Ring l) : Ring ⟨L.prev, L.next⟩ l.reverse := by
  refine ⟨List.nodup_reverse.2 h.nodup, ?_⟩
  have hr : around l.reverse = (around l).reverse := by simp [around]
  rw [hr, List.isChain_reverse]
  exact h.linked.imp fun _ _ hxy => ⟨hxy.2, hxy.1⟩

theorem prev_chain (h : L.Ring l) : Chain (fun b => L.prev (some b)) (L.prev none) l.reverse :=
  h.flip.next_chain

theorem prev_next (h : L.Ring l) (hall : ∀ b, b ∈ l) (x : Option ν) : L.prev (L.next x) = x := by
  have key : ∀ (k : List ν) (z : Option ν), (z :: (k.map some ++ [none])).IsChain L.Linked →
      x ∈ z :: k.map some → L.prev (L.next x) = x := by
    intro k
    induction k with
    | nil =>
      intro z hz hx
      obtain rfl : x = z := by simpa using hx
      obtain ⟨h₁, h₂⟩ := (List.isChain_cons_cons.1 hz).1
      rw [h₁, h₂]
    | cons b k ih =>
      intro z hz hx
      obtain ⟨⟨h₁, h₂⟩, hz⟩ := List.isChain_cons_cons.1 hz
      rcases List.mem_cons.1 hx with rfl | hx
      · rw [h₁, h₂]
      · exact ih _ hz hx
  refine key l none h.linked ?_
  cases x with
  | none => exact List.mem_cons_self
  | some b => exact List.mem_cons_of_mem _ (List.mem_map_of_mem (hall b))

theorem next_prev (h : L.Ring l) (hall : ∀ b, b ∈ l) (x : Option ν) : L.next (L.prev x) = x :=
  h.flip.prev_next (fun b => List.mem_reverse.2 (hall b)) x

/-! ### Writing -/

variable [DecidableEq ν]

theorem pushFront (h : L.Ring l) (hb : b ∉ l) : (L.pushFront b).Ring (b :: l) := by
  refine ⟨List.nodup_cons.2 ⟨hb, h.nodup⟩, ?_⟩
  -- what comes after the head: a node, or the head again
  obtain ⟨c, k, hk⟩ : ∃ c k, l.map some ++ [none] = c :: k := by
    cases l with
    | nil => exact ⟨none, [], rfl⟩
    | cons a l => exact ⟨some a, l.map some ++ [none], rfl⟩
  have hnodup : (l.map some ++ [none]).Nodup := by
    have := h.nodup.map (Option.some_injective ν)
    simpa [List.nodup_append] using this
  have hcb : c ≠ some b := by
    rintro rfl
    have : some b ∈ l.map some ++ [none] := by
      rw [hk]
      exact List.mem_cons_self
    simp [hb] at this
  have hlinked : (none :: c :: k).IsChain L.Linked := hk ▸ h.linked
  obtain ⟨⟨hn, hp⟩, htail⟩ := List.isChain_cons_cons.1 hlinked
  rw [around_cons, hk]
  refine List.isChain_cons_cons.2 ⟨⟨?_, ?_⟩, List.isChain_cons_cons.2 ⟨⟨?_, ?_⟩, ?_⟩⟩
  · simp [Links.pushFront]
  · simp [Links.pushFront, hn, hcb.symm]
  · simp [Links.pushFront, hn]
  · simp [Links.pushFront, hn]
  · refine isChain_congr htail (fun z hz => ?_) fun z hz => ?_
    · rw [← hk, List.dropLast_concat] at hz
      obtain ⟨a, ha, rfl⟩ := List.mem_map.1 hz
      have hab : a ≠ b := ne_of_mem_of_not_mem ha hb
      simp [Links.pushFront, hab]
    · have hzc : z ≠ c := by
        rintro rfl
        rw [hk] at hnodup
        exact (List.nodup_cons.1 hnodup).1 hz
      have hzb : z ≠ some b := by
        rintro rfl
        have : some b ∈ l.map some ++ [none] := hk ▸ List.mem_cons_of_mem _ hz
        simp [hb] at this
      simp [Links.pushFront, hn, hzc, hzb]

theorem unlink (h : L.Ring (l₁ ++ b :: l₂)) : (L.unlink b).Ring (l₁ ++ l₂) := by
  -- the pointers before `b` end with `a`, those after it begin with `c`
  obtain ⟨k₁, a, hk₁⟩ : ∃ k₁ a, (none :: l₁.map some : List (Option ν)) = k₁ ++ [a] :=
    ⟨_, _, (List.dropLast_append_getLast (List.cons_ne_nil _ _)).symm⟩
  obtain ⟨c, k₂, hk₂⟩ : ∃ c k₂, l₂.map some ++ [none] = c :: k₂ := by
    cases l₂ with
    | nil => exact ⟨none, [], rfl⟩
    | cons c l => exact ⟨some c, l.map some ++ [none], rfl⟩
  obtain ⟨hnodup₁, hnodup₂, hdisj⟩ := List.nodup_append.1 h.nodup
  obtain ⟨hb₂, hnodup₂⟩ := List.nodup_cons.1 hnodup₂
  have hb₁ : b ∉ l₁ := fun hb => hdisj b hb b List.mem_cons_self rfl
  have hmem₁ : ∀ z, z ∈ k₁ ++ [a] ↔ z = none ∨ ∃ d ∈ l₁, some d = z := by
    intro z
    rw [← hk₁]
    simp
  have hmem₂ : ∀ z, z ∈ c :: k₂ ↔ (∃ d ∈ l₂, some d = z) ∨ z = none := by
    intro z
    rw [← hk₂]
    simp
  have hak₁ : (k₁ ++ [a]).Nodup := by
    rw [← hk₁]
    simpa using hnodup₁.map (Option.some_injective ν)
  have hck₂ : (c :: k₂).Nodup := by
    rw [← hk₂]
    simpa [List.nodup_append] using hnodup₂.map (Option.some_injective ν)
  have hlinked := h.linked
  rw [around_append, hk₁, hk₂] at hlinked
  obtain ⟨h₁, h₂, hab⟩ := List.isChain_append.1 hlinked
  obtain ⟨hna, hpb⟩ : L.Linked a (some b) := hab a (by simp) _ (by simp)
  obtain ⟨⟨hnb, hpc⟩, h₂⟩ := List.isChain_cons_cons.1 h₂
  have hcb : c ≠ some b := by
    rintro rfl
    rcases (hmem₂ (some b)).1 List.mem_cons_self with ⟨d, hd, hdb⟩ | hn
    · exact hb₂ (Option.some.inj hdb ▸ hd)
    · cases hn
  have hprev : (L.unlink b).prev = Function.update L.prev c a := by
    simp only [Links.unlink, hnb, hpb]
  have hnext : (L.unlink b).next = Function.update L.next a c := by
    simp only [Links.unlink, hnb, hpb, Function.update_of_ne hcb.symm]
  refine ⟨?_, ?_⟩
  · exact List.nodup_append.2 ⟨hnodup₁, hnodup₂, fun x hx y hy =>
      hdisj x hx y (List.mem_cons_of_mem b hy)⟩
  · have hspell : around (l₁ ++ l₂) = (k₁ ++ [a]) ++ (c :: k₂) := by
      rw [← hk₁, ← hk₂]
      simp [around]
    rw [hspell]
    refine List.isChain_append.2 ⟨?_, ?_, ?_⟩
    · refine isChain_congr h₁ (fun z hz => ?_) fun z hz => ?_
      · rw [List.dropLast_concat] at hz
        have hza : z ≠ a := by
          rintro rfl
          exact (List.nodup_append.1 hak₁).2.2 z hz z (by simp) rfl
        rw [hnext, Function.update_of_ne hza]
      · rw [← hk₁] at hz
        obtain ⟨d, hd, rfl⟩ := List.mem_map.1 hz
        have hdc : some d ≠ c := by
          rintro rfl
          rcases (hmem₂ (some d)).1 List.mem_cons_self with ⟨d', hd', hdd⟩ | hn
          · exact hdisj d hd d' (List.mem_cons_of_mem b hd') (Option.some.inj hdd).symm
          · cases hn
        rw [hprev, Function.update_of_ne hdc]
    · refine isChain_congr h₂ (fun z hz => ?_) fun z hz => ?_
      · rw [← hk₂, List.dropLast_concat] at hz
        obtain ⟨d, hd, rfl⟩ := List.mem_map.1 hz
        have hda : some d ≠ a := by
          rintro rfl
          rcases (hmem₁ (some d)).1 (by simp) with hn | ⟨d', hd', hdd⟩
          · cases hn
          · exact hdisj d' hd' d (List.mem_cons_of_mem b hd) (Option.some.inj hdd)
        rw [hnext, Function.update_of_ne hda]
      · have hzc : z ≠ c := by
          rintro rfl
          exact (List.nodup_cons.1 hck₂).1 hz
        rw [hprev, Function.update_of_ne hzc]
    · intro x hx y hy
      obtain rfl : a = x := by simpa using hx
      obtain rfl : c = y := by simpa using hy
      exact ⟨by rw [hnext, Function.update_self], by rw [hprev, Function.update_self]⟩

end Links.Ring

end Xv6.Lib
