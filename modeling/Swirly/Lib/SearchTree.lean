import Mathlib.Order.Lattice
import Mathlib.Data.List.Pairwise
import Mathlib.Data.List.Nodup

/-!
# Swirly.Lib.SearchTree

**Binary trees, searched by an order that need not be the one they were built with.** The
standard ordered containers look up a key by a descent: right at the nodes before it, left
at the others, and what counts is the last node where the descent turned left. A container
may be searched with a comparison of its own. `sorted_iff_search` is what that needs: every
element is found under its own key exactly if the elements stand in the order of the keys
they are searched by, whatever the shape of the tree.
-/

namespace Lib

/-- A binary tree with an element at each node. -/
inductive SearchTree (α : Type)
  | leaf
  | node (left : SearchTree α) (a : α) (right : SearchTree α)

namespace SearchTree

variable {α κ : Type}

/-- The elements from left to right. -/
def elems : SearchTree α → List α
  | leaf => []
  | node left a right => left.elems ++ a :: right.elems

/-- The first element that is not `before` the key, as the descent finds it. -/
def lowerBound (before : α → Bool) : SearchTree α → Option α
  | leaf => none
  | node left a right =>
    if before a then right.lowerBound before else (left.lowerBound before).or (some a)

/-- The element that is neither `before` nor `after` the key. -/
def find (before after : α → Bool) (t : SearchTree α) : Option α :=
  (t.lowerBound before).filter (fun a => !after a)

/-- The element whose `f` is `k`. -/
def search [LinearOrder κ] (f : α → κ) (k : κ) (t : SearchTree α) : Option α :=
  t.find (fun a => f a < k) (fun a => k < f a)

/-- What the descent ends at is an element, and not before the key. -/
theorem lowerBound_spec {before : α → Bool} {t : SearchTree α} {a : α}
    (h : t.lowerBound before = some a) : a ∈ t.elems ∧ before a = false := by
  induction t with
  | leaf => cases h
  | node left b right ihl ihr =>
      unfold lowerBound at h
      unfold elems
      split at h
      · obtain ⟨hmem, hnot⟩ := ihr h
        exact ⟨by simp [hmem], hnot⟩
      · next hb =>
          cases hl : left.lowerBound before with
          | none => rw [hl] at h; cases h; exact ⟨by simp, by simpa using hb⟩
          | some c =>
              rw [hl] at h
              cases h
              obtain ⟨hmem, hnot⟩ := ihl hl
              exact ⟨by simp [hmem], hnot⟩

section Search

variable [LinearOrder κ] {f : α → κ} {k : κ} {t left right : SearchTree α} {a b : α}

theorem search_spec (h : t.search f k = some a) : a ∈ t.elems ∧ f a = k := by
  obtain ⟨hlb, hafter⟩ := Option.filter_eq_some_iff.mp h
  obtain ⟨hmem, hbefore⟩ := lowerBound_spec hlb
  refine ⟨hmem, le_antisymm ?_ ?_⟩
  · simpa using hafter
  · simpa using hbefore

/-- One step of the descent to the right. -/
theorem search_of_lt (hlt : f b < k) : (node left b right).search f k = right.search f k := by
  unfold search find
  rw [lowerBound, if_pos (decide_eq_true hlt)]

/-- One step of the descent to the left. -/
theorem search_of_gt (hgt : k < f b) : (node left b right).search f k = left.search f k := by
  unfold search find
  rw [lowerBound, if_neg (by simpa using hgt.le)]
  cases left.lowerBound (fun a => f a < k) with
  | none => simp [hgt]
  | some c => rfl

/-- The elements of a tree that is in the order it is searched by are found. -/
theorem search_of_mem (hs : t.elems.Pairwise (fun a b => f a < f b)) (ha : a ∈ t.elems) :
    t.search f (f a) = some a := by
  induction t with
  | leaf => cases ha
  | node left b right ihl ihr =>
      obtain ⟨hleft, hright, hcross⟩ := List.pairwise_append.mp hs
      rw [List.pairwise_cons] at hright
      rcases List.mem_append.mp ha with ha | ha
      · rw [search_of_gt (hcross a ha b List.mem_cons_self), ihl hleft ha]
      · rcases List.mem_cons.mp ha with rfl | ha
        · -- Nothing on the left is at or after the element.
          have hnone : left.lowerBound (fun c => f c < f a) = none := by
            cases hlb : left.lowerBound (fun c => f c < f a) with
            | none => rfl
            | some c =>
                obtain ⟨hc, hnot⟩ := lowerBound_spec hlb
                have hlt := hcross c hc a List.mem_cons_self
                simp [hlt] at hnot
          unfold search find
          rw [lowerBound, if_neg (by simp), hnone]
          simp
        · rw [search_of_lt (hright.1 a ha), ihr hright.2 ha]

theorem search_eq_some_iff (hs : t.elems.Pairwise (fun a b => f a < f b)) :
    t.search f k = some a ↔ a ∈ t.elems ∧ f a = k := by
  constructor
  · exact search_spec
  · rintro ⟨ha, rfl⟩
    exact search_of_mem hs ha

/-- **Search needs the elements in the order of what they are searched by.** -/
theorem sorted_iff_search (hf : (t.elems.map f).Nodup) :
    t.elems.Pairwise (fun a b => f a < f b) ↔ ∀ a ∈ t.elems, t.search f (f a) = some a := by
  refine ⟨fun hs a => search_of_mem hs, fun hall => ?_⟩
  induction t with
  | leaf => exact List.Pairwise.nil
  | node left b right ihl ihr =>
      unfold elems at hf hall
      rw [List.map_append, List.map_cons, List.nodup_append, List.nodup_cons] at hf
      obtain ⟨hfl, ⟨hfb, hfr⟩, hcross⟩ := hf
      have hcross : ∀ c ∈ left.elems, ∀ d ∈ b :: right.elems, f c ≠ f d :=
        fun c hc d hd => hcross _ (List.mem_map_of_mem hc) _ (List.mem_map_of_mem (f := f) hd)
      -- An element on the left is looked for on the left.
      have hleft : ∀ c ∈ left.elems, f c < f b ∧ left.search f (f c) = some c := by
        intro c hc
        have hfound := hall c (by simp [hc])
        rcases lt_trichotomy (f c) (f b) with hlt | heq | hgt
        · rw [search_of_gt hlt] at hfound
          exact ⟨hlt, hfound⟩
        · exact absurd heq (hcross c hc b List.mem_cons_self)
        · rw [search_of_lt hgt] at hfound
          have hr := (search_spec hfound).1
          exact absurd rfl (hcross c hc c (List.mem_cons_of_mem b hr))
      have hright : ∀ c ∈ right.elems, f b < f c ∧ right.search f (f c) = some c := by
        intro c hc
        have hfound := hall c (by simp [hc])
        rcases lt_trichotomy (f c) (f b) with hlt | heq | hgt
        · rw [search_of_gt hlt] at hfound
          have hl := (search_spec hfound).1
          exact absurd rfl (hcross c hl c (List.mem_cons_of_mem b hc))
        · exact absurd (heq ▸ List.mem_map_of_mem hc) hfb
        · rw [search_of_lt hgt] at hfound
          exact ⟨hgt, hfound⟩
      refine List.pairwise_append.mpr ⟨ihl hfl (fun c hc => (hleft c hc).2),
        List.pairwise_cons.mpr ⟨fun c hc => (hright c hc).1,
          ihr hfr (fun c hc => (hright c hc).2)⟩, fun c hc d hd => ?_⟩
      rcases List.mem_cons.mp hd with rfl | hd
      · exact (hleft c hc).1
      · exact (hleft c hc).1.trans (hright d hd).1

end Search

end SearchTree

end Lib
