import Mathlib.Algebra.BigOperators.Group.List.Basic
import Mathlib.Algebra.Order.Group.Defs
import Mathlib.Algebra.Order.BigOperators.Group.List
import Mathlib.Algebra.Order.Monoid.Unbundled.MinMax

/-!
# Swirly.Lib.Greedy

**Greedy allocation.** An amount is taken from a list of sources, from each source
as much as it has, until nothing is wanted any more. `fill` lists the sources it
took from, each with the amount taken.

The amounts are elements of an ordered group, so that what is left to take is the
difference. The result is a prefix of the sources (`fill_prefix`) in which only the
last source may be left with something (`fill_full`), its total is what was wanted
or all there is (`fill_sum`), and nothing is left behind as long as more is wanted
(`fill_exhausts`).
-/

namespace Lib.Greedy

variable {α G : Type} [AddCommGroup G] [LinearOrder G]

/-- Take `want` from the sources, each of which has an `amount`. -/
def fill (amount : α → G) : G → List α → List (α × G)
  | _, [] => []
  | want, a :: as =>
      if want = 0 then []
      else (a, min want (amount a)) :: fill amount (want - min want (amount a)) as

variable {amount : α → G} {want : G} {as : List α}

@[simp] theorem fill_nil : fill amount want [] = [] := rfl

@[simp] theorem fill_zero : fill amount 0 as = [] := by
  cases as <;> simp [fill]

theorem fill_cons {a : α} (hw : want ≠ 0) :
    fill amount want (a :: as) =
      (a, min want (amount a)) :: fill amount (want - min want (amount a)) as := by
  simp [fill, hw]

/-- The sources are taken in order, without leaving one out. -/
theorem fill_prefix (amount : α → G) (want : G) (as : List α) :
    (fill amount want as).map Prod.fst <+: as := by
  induction as generalizing want with
  | nil => simp
  | cons a as ih =>
      by_cases hw : want = 0
      · simp [hw]
      · rw [fill_cons hw, List.map_cons]
        exact (List.prefix_cons_inj a).mpr (ih _)

/-- When the sources in reach come first, stopping at the first one out of reach
passes over none. -/
theorem takeWhile_eq_filter {p : α → Bool} {as : List α}
    (hp : as.Pairwise (fun a b => p b → p a)) : as.takeWhile p = as.filter p := by
  induction as with
  | nil => rfl
  | cons a as ih =>
      obtain ⟨ha, has⟩ := List.pairwise_cons.mp hp
      by_cases hpa : p a = true
      · rw [List.takeWhile_cons_of_pos hpa, List.filter_cons_of_pos hpa, ih has]
      · have hnone : as.filter p = [] :=
          List.filter_eq_nil_iff.mpr (fun b hb hpb => hpa (ha b hb hpb))
        rw [List.takeWhile_cons_of_neg hpa, List.filter_cons_of_neg hpa, hnone]

variable [IsOrderedAddMonoid G]

/-- What is taken from a source is positive, and there. -/
theorem fill_bounds (hw : 0 ≤ want) (hpos : ∀ a ∈ as, 0 < amount a) :
    ∀ x ∈ fill amount want as, 0 < x.2 ∧ x.2 ≤ amount x.1 := by
  induction as generalizing want with
  | nil => simp
  | cons a as ih =>
      intro x hx
      by_cases hz : want = 0
      · simp [hz] at hx
      · rw [fill_cons hz, List.mem_cons] at hx
        rcases hx with rfl | hx
        · have hwant : 0 < want := lt_of_le_of_ne hw (Ne.symm hz)
          exact ⟨lt_min hwant (hpos a List.mem_cons_self), min_le_right _ _⟩
        · exact ih (sub_nonneg.mpr (min_le_left _ _))
            (fun b hb => hpos b (List.mem_cons_of_mem a hb)) x hx

/-- In total, what was wanted is taken, or all there is. -/
theorem fill_sum (hw : 0 ≤ want) (hpos : ∀ a ∈ as, 0 < amount a) :
    ((fill amount want as).map Prod.snd).sum = min want (as.map amount).sum := by
  induction as generalizing want with
  | nil => simp [hw]
  | cons a as ih =>
      have hpos' : ∀ b ∈ as, 0 < amount b := fun b hb => hpos b (List.mem_cons_of_mem a hb)
      have hnonneg : 0 ≤ (as.map amount).sum :=
        List.sum_nonneg (by
          intro y hy
          obtain ⟨b, hb, rfl⟩ := List.mem_map.mp hy
          exact (hpos' b hb).le)
      by_cases hz : want = 0
      · have htotal : 0 ≤ ((a :: as).map amount).sum := by
          rw [List.map_cons, List.sum_cons]
          exact add_nonneg (hpos a List.mem_cons_self).le hnonneg
        rw [hz, fill_zero, List.map_nil, List.sum_nil, min_eq_left htotal]
      · rw [fill_cons hz, List.map_cons, List.sum_cons, List.map_cons, List.sum_cons,
          ih (sub_nonneg.mpr (min_le_left _ _)) hpos']
        rcases le_total want (amount a) with hle | hle
        · have htotal : want ≤ amount a + (as.map amount).sum := le_add_of_le_of_nonneg hle hnonneg
          simp only [min_eq_left hle, sub_self, min_eq_left hnonneg, add_zero, min_eq_left htotal]
        · rw [min_eq_right hle, ← min_add_add_left, add_sub_cancel]

/-- Only the last source may be left with something. -/
theorem fill_full {xs ys : List (α × G)} {x y : α × G} (hw : 0 ≤ want)
    (h : fill amount want as = xs ++ x :: y :: ys) : x.2 = amount x.1 := by
  induction as generalizing want xs with
  | nil => simp at h
  | cons a as ih =>
      by_cases hz : want = 0
      · simp [hz] at h
      · rw [fill_cons hz] at h
        cases xs with
        | nil =>
            obtain ⟨rfl, htail⟩ := List.cons.inj h
            rcases le_total want (amount a) with hle | hle
            · -- A source that has all that is wanted is the last one.
              rw [min_eq_left hle, sub_self, fill_zero] at htail
              exact absurd htail (by simp)
            · exact min_eq_right hle
        | cons z zs => exact ih (sub_nonneg.mpr (min_le_left _ _)) (List.cons.inj h).2

/-- Every source before another one is taken whole. -/
theorem fill_full_of_before {xs ys : List (α × G)} {x : α × G} (hw : 0 ≤ want)
    (h : fill amount want as = xs ++ x :: ys) : ∀ y ∈ xs, y.2 = amount y.1 := by
  intro y hy
  obtain ⟨us, vs, rfl⟩ := List.append_of_mem hy
  cases vs with
  | nil => exact fill_full hw (h.trans (List.append_assoc us [y] (x :: ys)))
  | cons v vs => exact fill_full hw (h.trans (List.append_assoc us (y :: v :: vs) (x :: ys)))

/-- As long as more is wanted, every source is taken whole. -/
theorem fill_exhausts (hw : 0 ≤ want) (hlt : ((fill amount want as).map Prod.snd).sum < want) :
    fill amount want as = as.map (fun a => (a, amount a)) := by
  induction as generalizing want with
  | nil => rfl
  | cons a as ih =>
      by_cases hz : want = 0
      · simp [hz] at hlt
      · rw [fill_cons hz, List.map_cons, List.sum_cons] at hlt
        rw [fill_cons hz, List.map_cons]
        rcases le_total want (amount a) with hle | hle
        · rw [min_eq_left hle, sub_self, fill_zero] at hlt
          exact absurd hlt (by simp)
        · rw [min_eq_right hle] at hlt ⊢
          rw [ih (sub_nonneg.mpr hle) (lt_sub_iff_add_lt'.mpr hlt)]

end Lib.Greedy
