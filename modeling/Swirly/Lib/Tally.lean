import Mathlib.Algebra.BigOperators.Group.List.Basic
import Mathlib.Algebra.Order.BigOperators.Group.List
import Mathlib.Algebra.Order.Monoid.Defs
import Mathlib.Data.List.Nodup
import Mathlib.Data.List.Perm.Subperm

/-!
# Swirly.Lib.Tally

**Sums over the entries of a log that meet a condition.** A tally does not depend on
the order of the entries, grows with the log, and may be taken owner by owner
(`sum_tally_owner`). Two tallies of a log that is written in batches agree when they
agree on each batch (`tally_flatMap_congr`), the argument behind double entry. Tallies of
amounts that are not negative are compared entry by entry (`tally_le_of_subset`).
-/

namespace Lib

variable {α β κ G : Type} [AddCommMonoid G]

/-- The sum of `f` over the entries that satisfy `p`. -/
def tally (p : α → Prop) [DecidablePred p] (f : α → G) (l : List α) : G :=
  ((l.filter p).map f).sum

section Tally

variable {p q : α → Prop} [DecidablePred p] [DecidablePred q] {f : α → G} {l l' : List α}

@[simp] theorem tally_nil : tally p f [] = 0 := rfl

@[simp] theorem tally_cons (a : α) :
    tally p f (a :: l) = (if p a then f a else 0) + tally p f l := by
  by_cases hp : p a <;> simp [tally, hp]

@[simp] theorem tally_append : tally p f (l ++ l') = tally p f l + tally p f l' := by
  simp [tally]

theorem tally_of_forall_not (h : ∀ a ∈ l, ¬ p a) : tally p f l = 0 := by
  unfold tally
  rw [List.filter_eq_nil_iff.mpr (fun a ha => by simpa using h a ha), List.map_nil, List.sum_nil]

theorem tally_of_forall (h : ∀ a ∈ l, p a) : tally p f l = (l.map f).sum := by
  unfold tally
  rw [List.filter_eq_self.mpr (fun a ha => decide_eq_true (h a ha))]

theorem tally_perm (h : l.Perm l') : tally p f l = tally p f l' :=
  ((h.filter _).map f).sum_eq

theorem tally_congr (h : ∀ a ∈ l, p a ↔ q a) : tally p f l = tally q f l := by
  unfold tally
  rw [List.filter_congr (fun a ha => decide_eq_decide.mpr (h a ha))]

theorem tally_congr_right {g : α → G} (h : ∀ a ∈ l, f a = g a) : tally p f l = tally p g l := by
  unfold tally
  rw [List.map_congr_left (fun a ha => h a (List.mem_of_mem_filter ha))]

/-- A condition checked before the tally is part of the tally's condition. -/
theorem tally_filter : tally p f (l.filter q) = tally (fun a => p a ∧ q a) f l := by
  simp [tally, List.filter_filter, Bool.decide_and]

theorem tally_map (g : β → α) (l : List β) :
    tally p f (l.map g) = tally (fun b => p (g b)) (fun b => f (g b)) l := by
  induction l with
  | nil => rfl
  | cons b l ih => rw [List.map_cons, tally_cons, tally_cons, ih]

/-- Tallies that agree on each batch agree on the log. -/
theorem tally_flatMap_congr {g : β → List α} {bs : List β}
    (h : ∀ b ∈ bs, tally p f (g b) = tally q f (g b)) :
    tally p f (bs.flatMap g) = tally q f (bs.flatMap g) := by
  induction bs with
  | nil => rfl
  | cons b bs ih =>
      rw [List.flatMap_cons, tally_append, tally_append, h b List.mem_cons_self,
        ih (fun b' hb' => h b' (List.mem_cons_of_mem b hb'))]

/-- **What counts here counts there, for no less.** -/
theorem tally_le_of_subset [PartialOrder G] [IsOrderedAddMonoid G] {g : α → G} (hnodup : l.Nodup)
    (h : ∀ a ∈ l, p a → a ∈ l' ∧ q a ∧ f a ≤ g a) (hg : ∀ a ∈ l', q a → 0 ≤ g a) :
    tally p f l ≤ tally q g l' := by
  have hmem : ∀ a ∈ l.filter p, a ∈ l'.filter q ∧ f a ≤ g a := by
    intro a ha
    obtain ⟨hal, hpa⟩ := List.mem_filter.mp ha
    obtain ⟨hal', hqa, hle⟩ := h a hal (of_decide_eq_true hpa)
    exact ⟨List.mem_filter.mpr ⟨hal', decide_eq_true hqa⟩, hle⟩
  obtain ⟨r, hperm, hsub⟩ := List.subperm_of_subset (hnodup.filter _) (fun a ha => (hmem a ha).1)
  have hnonneg : ∀ x ∈ (l'.filter q).map g, 0 ≤ x := by
    intro x hx
    obtain ⟨a, ha, rfl⟩ := List.mem_map.mp hx
    obtain ⟨hal', hqa⟩ := List.mem_filter.mp ha
    exact hg a hal' (of_decide_eq_true hqa)
  calc
    ((l.filter p).map f).sum ≤ ((l.filter p).map g).sum :=
      List.sum_le_sum (fun a ha => (hmem a ha).2)
    _ = (r.map g).sum := (hperm.map g).sum_eq.symm
    _ ≤ ((l'.filter q).map g).sum := (hsub.map g).sum_le_sum hnonneg

end Tally

section Owner

variable [DecidableEq κ] {p : α → Prop} [DecidablePred p] {f : α → G} {owner : α → κ}

/-- An amount that one key of a list gets is the sum over the list. -/
theorem sum_map_ite_eq {ks : List κ} (hnodup : ks.Nodup) {k : κ} (hk : k ∈ ks) (x : G) :
    (ks.map (fun k' => if k = k' then x else 0)).sum = x := by
  rw [List.sum_map_eq_nsmul_single k _ (fun k' hk' _ => if_neg (Ne.symm hk')),
    List.count_eq_one_of_mem hnodup hk, one_nsmul, if_pos rfl]

/-- **Owner by owner**: the tallies of each owner's entries sum up to the tally of all. -/
theorem sum_tally_owner {ks : List κ} (hnodup : ks.Nodup) {l : List α}
    (hmem : ∀ a ∈ l, owner a ∈ ks) :
    (ks.map (fun k => tally p f (l.filter (fun a => owner a = k)))).sum = tally p f l := by
  induction l with
  | nil => simp
  | cons a l ih =>
      have ha := hmem a List.mem_cons_self
      have hsplit : ∀ k, tally p f ((a :: l).filter (fun a => owner a = k)) =
          (if owner a = k then if p a then f a else 0 else 0) +
            tally p f (l.filter (fun a => owner a = k)) := by
        intro k
        by_cases hk : owner a = k <;> simp [hk]
      simp only [hsplit, List.sum_map_add, tally_cons]
      rw [sum_map_ite_eq hnodup ha, ih (fun b hb => hmem b (List.mem_cons_of_mem a hb))]

end Owner

end Lib
