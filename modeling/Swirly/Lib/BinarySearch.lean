import Mathlib.Data.List.Basic

/-!
# Swirly.Lib.BinarySearch

**Binary search for the one index that a probe accepts.** The probe says of an index
whether what is looked for lies below it (`lt`), at it (`eq`) or above it (`gt`). It is
`Monotone` when an index that is not above sends every later index below, as the keys of a
sorted table do; the search then finds the index if there is one.
-/

namespace Lib

/-- The probe of a sorted table of `n` keys. -/
def ProbeSorted (probe : Nat → Ordering) (n : Nat) : Prop :=
  ∀ i j, i < j → j < n → probe i ≠ .gt → probe j = .lt

/-- Search the indices from `lo` up to but without `hi`. -/
def binarySearch (probe : Nat → Ordering) (lo hi : Nat) : Option Nat :=
  if hi ≤ lo then none
  else
    match probe (lo + (hi - 1 - lo) / 2) with
    | .lt => binarySearch probe lo (lo + (hi - 1 - lo) / 2)
    | .gt => binarySearch probe (lo + (hi - 1 - lo) / 2 + 1) hi
    | .eq => some (lo + (hi - 1 - lo) / 2)
termination_by hi - lo

section Search

variable {probe : Nat → Ordering} {n lo hi i : Nat}

/-- What is found is what was looked for. -/
theorem binarySearch_sound (h : binarySearch probe lo hi = some i) :
    lo ≤ i ∧ i < hi ∧ probe i = .eq := by
  fun_induction binarySearch probe lo hi with
  | case1 => cases h
  | case2 lo hi hlt hprobe ih =>
      obtain ⟨hlo, hhi, heq⟩ := ih h
      exact ⟨hlo, by omega, heq⟩
  | case3 lo hi hlt hprobe ih =>
      obtain ⟨hlo, hhi, heq⟩ := ih h
      exact ⟨by omega, hhi, heq⟩
  | case4 lo hi hlt hprobe =>
      cases h
      exact ⟨by omega, by omega, hprobe⟩

/-- An index that is above what is looked for is above its index. -/
theorem ProbeSorted.lt_of_lt {j : Nat} (hs : ProbeSorted probe n) (hi : i < n)
    (heq : probe i = .eq) (hj : probe j = .lt) : i < j := by
  rcases Nat.lt_trichotomy i j with hij | rfl | hji
  · exact hij
  · rw [heq] at hj
    cases hj
  · have hlt := hs j i hji hi (by rw [hj]; decide)
    rw [heq] at hlt
    cases hlt

/-- An index that is below what is looked for is below its index. -/
theorem ProbeSorted.lt_of_gt {j : Nat} (hs : ProbeSorted probe n) (hj : j < n)
    (heq : probe i = .eq) (hgt : probe j = .gt) : j < i := by
  rcases Nat.lt_trichotomy i j with hij | rfl | hji
  · have hlt := hs i j hij hj (by rw [heq]; decide)
    rw [hgt] at hlt
    cases hlt
  · rw [heq] at hgt
    cases hgt
  · exact hji

/-- No other index is at what is looked for. -/
theorem ProbeSorted.unique {j : Nat} (hs : ProbeSorted probe n) (hi : i < n) (hj : j < n)
    (heq : probe i = .eq) (heq' : probe j = .eq) : i = j := by
  rcases Nat.lt_trichotomy i j with hij | hij | hji
  · have hlt := hs i j hij hj (by rw [heq]; decide)
    rw [heq'] at hlt
    cases hlt
  · exact hij
  · have hlt := hs j i hji hi (by rw [heq']; decide)
    rw [heq] at hlt
    cases hlt

/-- What is there is found. -/
theorem binarySearch_complete (hs : ProbeSorted probe n) (hn : hi ≤ n) (hlo : lo ≤ i)
    (hhi : i < hi) (heq : probe i = .eq) : binarySearch probe lo hi = some i := by
  fun_induction binarySearch probe lo hi with
  | case1 lo hi hle => omega
  | case2 lo hi hlt hprobe ih =>
      exact ih (by omega) hlo (hs.lt_of_lt (by omega) heq hprobe)
  | case3 lo hi hlt hprobe ih =>
      exact ih hn (hs.lt_of_gt (by omega) heq hprobe) hhi
  | case4 lo hi hlt hprobe =>
      exact congrArg some (hs.unique (by omega) (by omega) hprobe heq)

end Search

/-! ### Lists -/

section List

variable {α : Type} {cmp : α → Ordering} {l : List α}

/-- Search a list, where `cmp` compares what is looked for with an element. -/
def searchList (cmp : α → Ordering) (l : List α) : Option Nat :=
  binarySearch (fun i => (l[i]?).elim .lt cmp) 0 l.length

/-- The elements are in order for `cmp`. -/
def SortedBy (cmp : α → Ordering) (l : List α) : Prop :=
  l.Pairwise (fun a b => cmp a ≠ .gt → cmp b = .lt)

theorem SortedBy.probe (hs : SortedBy cmp l) :
    ProbeSorted (fun i => (l[i]?).elim .lt cmp) l.length := by
  intro i j hij hj hne
  simp only [List.getElem?_eq_getElem hj, List.getElem?_eq_getElem (Nat.lt_trans hij hj),
    Option.elim_some] at hne ⊢
  exact List.pairwise_iff_getElem.mp hs i j _ _ hij hne

/-- **In a sorted list the search finds what a look at every element finds.** -/
theorem searchList_eq_findIdx? (hs : SortedBy cmp l) :
    searchList cmp l = l.findIdx? (fun a => cmp a = .eq) := by
  cases hfind : l.findIdx? (fun a => cmp a = .eq) with
  | none =>
      cases hsearch : searchList cmp l with
      | none => rfl
      | some i =>
          obtain ⟨-, hi, heq⟩ := binarySearch_sound hsearch
          rw [List.getElem?_eq_getElem hi, Option.elim_some] at heq
          have hno := List.findIdx?_eq_none_iff.mp hfind l[i] (List.getElem_mem hi)
          rw [heq] at hno
          cases hno
  | some i =>
      obtain ⟨hi, heq, -⟩ := List.findIdx?_eq_some_iff_getElem.mp hfind
      refine binarySearch_complete hs.probe (Nat.le_refl _) (Nat.zero_le i) hi ?_
      rw [List.getElem?_eq_getElem hi, Option.elim_some]
      exact of_decide_eq_true heq

end List

end Lib
