import Mathlib.Algebra.BigOperators.Group.Finset.Basic
import Mathlib.Data.Finset.Sort

/-!
# Swirly.Lib.Ladder

**A set of elements by their keys, in order.** A ladder has one rung for each key that an
element has, with the sum of an amount over the elements at that key and their number. A list
of blocks in key order, each with the elements at its key, has the ladder of the set of its
elements (`map_block_eq_ladder`), however the blocks came about: this is how a structure that
keeps its sums up to date is compared with the set that it stands for.
-/

namespace Lib

variable {α κ G : Type} [LinearOrder κ] [AddCommMonoid G]

/-- One key of a ladder: the amount at it, and how many elements have it. -/
structure Rung (κ G : Type) where
  key : κ
  total : G
  count : Nat
  deriving DecidableEq

/-- The elements at a key. -/
def atKey (key : α → κ) (xs : Finset α) (k : κ) : Finset α := xs.filter (fun x => key x = k)

/-- The ladder of a set. -/
def ladder (key : α → κ) (amount : α → G) (xs : Finset α) : List (Rung κ G) :=
  (xs.image key).sort.map (fun k =>
    ⟨k, ∑ x ∈ atKey key xs k, amount x, (atKey key xs k).card⟩)

/-! ### Blocks -/

/-- The rung of a block. -/
def blockRung (amount : α → G) (e : κ × List α) : Rung κ G :=
  ⟨e.1, (e.2.map amount).sum, e.2.length⟩

/-- A list of blocks in key order, each with the elements of `xs` at its key. -/
structure Blocks (key : α → κ) (blocks : List (κ × List α)) (xs : Finset α) : Prop where
  sorted : blocks.Pairwise (fun e f => e.1 < f.1)
  ne_nil : ∀ e ∈ blocks, e.2 ≠ []
  nodup : ∀ e ∈ blocks, e.2.Nodup
  key_eq : ∀ e ∈ blocks, ∀ x ∈ e.2, key x = e.1
  mem_iff : ∀ x, x ∈ xs ↔ ∃ e ∈ blocks, x ∈ e.2

namespace Blocks

variable {key : α → κ} {blocks : List (κ × List α)} {xs : Finset α}

/-- A key is that of a block exactly if some element has it. -/
theorem mem_keys (h : Blocks key blocks xs) (k : κ) :
    k ∈ blocks.map Prod.fst ↔ k ∈ xs.image key := by
  rw [List.mem_map, Finset.mem_image]
  constructor
  · rintro ⟨e, he, rfl⟩
    obtain ⟨x, hx⟩ := List.exists_mem_of_ne_nil _ (h.ne_nil e he)
    exact ⟨x, (h.mem_iff x).mpr ⟨e, he, hx⟩, h.key_eq e he x hx⟩
  · rintro ⟨x, hx, rfl⟩
    obtain ⟨e, he, hxe⟩ := (h.mem_iff x).mp hx
    exact ⟨e, he, (h.key_eq e he x hxe).symm⟩

/-- The keys of the blocks are all keys, in order. -/
theorem keys_eq (h : Blocks key blocks xs) : blocks.map Prod.fst = (xs.image key).sort := by
  have hsorted : (blocks.map Prod.fst).SortedLT :=
    (List.pairwise_map.mpr h.sorted).sortedLT
  refine hsorted.eq_of_mem_iff (Finset.sortedLT_sort _) (fun k => ?_)
  rw [h.mem_keys k, Finset.mem_sort]

/-- Two blocks of one key are the same. -/
theorem eq_of_key (h : Blocks key blocks xs) {e f : κ × List α} (he : e ∈ blocks)
    (hf : f ∈ blocks) (hkey : e.1 = f.1) : e = f := by
  have hkeys : (blocks.map Prod.fst).Nodup := by
    rw [h.keys_eq]
    exact Finset.sort_nodup _ _
  exact List.inj_on_of_nodup_map hkeys he hf hkey

variable [DecidableEq α]

/-- A block has the elements at its key. -/
theorem toFinset_eq (h : Blocks key blocks xs) {e : κ × List α} (he : e ∈ blocks) :
    e.2.toFinset = atKey key xs e.1 := by
  ext x
  rw [List.mem_toFinset, atKey, Finset.mem_filter, h.mem_iff]
  constructor
  · exact fun hx => ⟨⟨e, he, hx⟩, h.key_eq e he x hx⟩
  · rintro ⟨⟨f, hf, hx⟩, hkey⟩
    rwa [h.eq_of_key he hf (hkey.symm.trans (h.key_eq f hf x hx))]

theorem rung_eq (h : Blocks key blocks xs) (amount : α → G) {e : κ × List α}
    (he : e ∈ blocks) : blockRung amount e =
      ⟨e.1, ∑ x ∈ atKey key xs e.1, amount x, (atKey key xs e.1).card⟩ := by
  have hnodup := h.nodup e he
  rw [blockRung, ← h.toFinset_eq he, List.sum_toFinset amount hnodup,
    List.toFinset_card_of_nodup hnodup]

/-- **Blocks have the ladder of their elements.** -/
theorem map_block_eq_ladder (h : Blocks key blocks xs) (amount : α → G) :
    blocks.map (blockRung amount) = ladder key amount xs := by
  unfold ladder
  rw [← h.keys_eq, List.map_map]
  exact List.map_congr_left (fun e he => h.rung_eq amount he)

end Blocks

end Lib
