/-!
# Swirly.Lib.Trace

**Runs that remember their steps.** `Traced step s₀ trace s` is a run from `s₀` to `s`;
`trace` has each step with the state it was taken in, oldest first. An invariant holds
wherever a run leads. A property that a step keeps exactly on a condition holds throughout
a run exactly if every step of the run met the condition (`Traced.holds_iff`).
-/

namespace Lib

/-- A run from `s₀` and its steps. -/
inductive Traced {S A : Type} (step : S → A → S → Prop) (s₀ : S) : List (S × A) → S → Prop
  | nil : Traced step s₀ [] s₀
  | snoc {trace : List (S × A)} {s s' : S} {a : A} (hrun : Traced step s₀ trace s)
      (hstep : step s a s') : Traced step s₀ (trace ++ [(s, a)]) s'

namespace Traced

variable {S A : Type} {step : S → A → S → Prop} {s₀ s : S} {trace : List (S × A)}

theorem invariant {I : S → Prop} (h₀ : I s₀) (hkeep : ∀ s a s', I s → step s a s' → I s')
    (hrun : Traced step s₀ trace s) : I s := by
  induction hrun with
  | nil => exact h₀
  | snoc _ hstep ih => exact hkeep _ _ _ ih hstep

/-- **A property that a step keeps exactly on a condition.** -/
theorem holds_iff {I P : S → Prop} {C : S → A → Prop} (h₀ : I s₀) (hP₀ : P s₀)
    (hkeep : ∀ s a s', I s → step s a s' → I s')
    (hiff : ∀ s a s', I s → P s → step s a s' → (P s' ↔ C s a))
    (hrun : Traced step s₀ trace s) :
    (∀ e ∈ trace, P e.1) ∧ P s ↔ ∀ e ∈ trace, C e.1 e.2 := by
  induction hrun with
  | nil => exact iff_of_true ⟨by simp, hP₀⟩ (by simp)
  | snoc hrun hstep ih =>
      simp only [List.forall_mem_append, List.forall_mem_singleton]
      have hlast := fun hP => hiff _ _ _ (hrun.invariant h₀ hkeep) hP hstep
      exact (and_congr_right (fun hall => hlast hall.2)).trans (and_congr_left' ih)

end Traced

end Lib
