import Mathlib.Logic.Basic

/-!
# Swirly.Lib.Effect

**Calls that change a state and may throw.** What a call did to the state before
it threw stays done, unless a scope guard undoes it: `withFinally` is a guard
that always runs, `onFailure` one that runs when the scope is left by an
exception.

`wp x Q E` holds of a state when running `x` from it either returns a value and a
state related by `Q`, or throws an exception in a state related by `E`. There is
one rule for each way of composing calls, so the proof about a call follows its
text and never looks at the underlying function.
-/

namespace Lib

/-- A call on a state `σ` that may throw an `ε`. -/
abbrev Effect (ε σ : Type) := EStateM ε σ

namespace Effect

variable {ε σ α β : Type}

/-- Run a change of the state when the scope is left, in whatever way. -/
def withFinally (fin : σ → σ) (x : Effect ε σ α) : Effect ε σ α := fun s =>
  match x s with
  | .ok a s => .ok a (fin s)
  | .error e s => .error e (fin s)

/-- Run a change of the state when the scope is left by an exception. -/
def onFailure (undo : σ → σ) (x : Effect ε σ α) : Effect ε σ α := fun s =>
  match x s with
  | .ok a s => .ok a s
  | .error e s => .error e (undo s)

/-- The state a call ends in, whether it returns or throws. -/
def final (x : Effect ε σ α) (s : σ) : σ :=
  match x s with
  | .ok _ s => s
  | .error _ s => s

/-- Does the call return? -/
def returns (x : Effect ε σ α) (s : σ) : Bool :=
  match x s with
  | .ok _ _ => true
  | .error _ _ => false

/-- The weakest precondition for `Q` on return and `E` on an exception. -/
def wp (x : Effect ε σ α) (Q : α → σ → Prop) (E : ε → σ → Prop) (s : σ) : Prop :=
  match x s with
  | .ok a s => Q a s
  | .error e s => E e s

variable {x : Effect ε σ α} {f : α → Effect ε σ β} {s : σ}
variable {Q Q' : α → σ → Prop} {R : β → σ → Prop} {E E' : ε → σ → Prop}

/-! ### Reading a result off a precondition -/

/-- Whatever holds of both outcomes holds of the one there is. -/
theorem wp_cases (h : wp x Q E s) :
    (∃ a s', x s = .ok a s' ∧ Q a s') ∨ ∃ e s', x s = .error e s' ∧ E e s' := by
  unfold wp at h
  cases hx : x s with
  | ok a s' => rw [hx] at h; exact Or.inl ⟨a, s', rfl, h⟩
  | error e s' => rw [hx] at h; exact Or.inr ⟨e, s', rfl, h⟩

theorem final_ok {a : α} {s' : σ} (h : x s = .ok a s') : x.final s = s' := by
  unfold final; rw [h]

theorem final_error {e : ε} {s' : σ} (h : x s = .error e s') : x.final s = s' := by
  unfold final; rw [h]

theorem final_eq {x' : Effect ε σ α} (h : x' s = x s) : x'.final s = x.final s := by
  unfold final; rw [h]

theorem ok_final {x : Effect ε σ PUnit} (h : x.returns s = true) : x s = .ok ⟨⟩ (x.final s) := by
  unfold returns at h
  unfold final
  cases hx : x s with
  | ok a s' => rfl
  | error e s' => rw [hx] at h; cases h

theorem returns_ok {a : α} {s' : σ} (h : x s = .ok a s') : x.returns s = true := by
  unfold returns; rw [h]

theorem returns_error {e : ε} {s' : σ} (h : x s = .error e s') : x.returns s = false := by
  unfold returns; rw [h]

/-! ### Rules -/

theorem wp_mono (h : wp x Q E s) (hQ : ∀ a s, Q a s → Q' a s) (hE : ∀ e s, E e s → E' e s) :
    wp x Q' E' s := by
  unfold wp at h ⊢
  cases hx : x s with
  | ok a s' => rw [hx] at h; exact hQ a s' h
  | error e s' => rw [hx] at h; exact hE e s' h

/-- Two facts about one call. -/
theorem wp_and (h : wp x Q E s) (h' : wp x Q' E' s) :
    wp x (fun a s => Q a s ∧ Q' a s) (fun e s => E e s ∧ E' e s) s := by
  unfold wp at h h' ⊢
  cases hx : x s with
  | ok a s' => rw [hx] at h h'; exact ⟨h, h'⟩
  | error e s' => rw [hx] at h h'; exact ⟨h, h'⟩

@[simp] theorem wp_pure (a : α) : wp (pure a) Q E s ↔ Q a s := Iff.rfl

@[simp] theorem wp_throw (e : ε) : wp (throw e) Q E s ↔ E e s := Iff.rfl

@[simp] theorem wp_get {Q : σ → σ → Prop} : wp get Q E s ↔ Q s s := Iff.rfl

@[simp] theorem wp_modify {Q : PUnit → σ → Prop} (g : σ → σ) :
    wp (modify g) Q E s ↔ Q ⟨⟩ (g s) := Iff.rfl

@[simp] theorem wp_bind : wp (x >>= f) R E s ↔ wp x (fun a => wp (f a) R E) E s := by
  unfold wp
  simp only [bind, EStateM.bind]
  cases x s <;> rfl

theorem wp_ite (c : Prop) [Decidable c] (y : Effect ε σ α) :
    wp (if c then x else y) Q E s ↔ (c → wp x Q E s) ∧ (¬ c → wp y Q E s) := by
  by_cases hc : c <;> simp [hc]

@[simp] theorem wp_withFinally (fin : σ → σ) :
    wp (withFinally fin x) Q E s ↔ wp x (fun a s => Q a (fin s)) (fun e s => E e (fin s)) s := by
  unfold wp withFinally
  cases x s <;> rfl

@[simp] theorem wp_onFailure (undo : σ → σ) :
    wp (onFailure undo x) Q E s ↔ wp x Q (fun e s => E e (undo s)) s := by
  unfold wp onFailure
  cases x s <;> rfl

/-! ### What a call keeps -/

/-- Whether it returns or throws, the call keeps `I`. -/
def Preserves (I : σ → Prop) (x : Effect ε σ α) : Prop :=
  ∀ s, I s → wp x (fun _ s' => I s') (fun _ s' => I s') s

namespace Preserves

variable {I : σ → Prop}

theorem final (hx : Preserves I x) (h : I s) : I (x.final s) := by
  rcases wp_cases (hx s h) with ⟨a, s', hok, hI⟩ | ⟨e, s', herror, hI⟩
  · rwa [final_ok hok]
  · rwa [final_error herror]

theorem throw (e : ε) : Preserves I (MonadExcept.throw e : Effect ε σ α) := fun _ h => h

theorem update {g : σ → σ} (hg : ∀ s, I s → I (g s)) :
    Preserves I (modify g : Effect ε σ PUnit) := hg

theorem bind (hx : Preserves I x) (hf : ∀ a, Preserves I (f a)) : Preserves I (x >>= f) :=
  fun s h => wp_bind.mpr (wp_mono (hx s h) (fun a s' h' => hf a s' h') (fun _ _ h' => h'))

theorem ite {c : Prop} [Decidable c] {y : Effect ε σ α} (hx : c → Preserves I x)
    (hy : ¬ c → Preserves I y) : Preserves I (if c then x else y) := by
  split
  · next hc => exact hx hc
  · next hc => exact hy hc

theorem withFinally {fin : σ → σ} (hx : Preserves I x) (hfin : ∀ s, I s → I (fin s)) :
    Preserves I (Effect.withFinally fin x) :=
  fun s h => (wp_withFinally fin).mpr
    (wp_mono (hx s h) (fun _ s' h' => hfin s' h') (fun _ s' h' => hfin s' h'))

theorem onFailure {undo : σ → σ} (hx : Preserves I x) (hundo : ∀ s, I s → I (undo s)) :
    Preserves I (Effect.onFailure undo x) :=
  fun s h => (wp_onFailure undo).mpr
    (wp_mono (hx s h) (fun _ _ h' => h') (fun _ s' h' => hundo s' h'))

end Preserves

/-! ### Two calls that agree -/

/-- Calls that agree go on to agree, if what follows does wherever the first part leads. -/
theorem bind_eq {x' : Effect ε σ α} {f' : α → Effect ε σ β} (hx : x' s = x s)
    (hf : wp x (fun a s => f' a s = f a s) (fun _ _ => True) s) : (x' >>= f') s = (x >>= f) s := by
  unfold wp at hf
  simp only [bind, EStateM.bind, hx]
  cases hrun : x s with
  | ok a s' => rw [hrun] at hf; exact hf
  | error e s' => rfl

theorem withFinally_eq {x' : Effect ε σ α} (fin : σ → σ) (hx : x' s = x s) :
    withFinally fin x' s = withFinally fin x s := by
  unfold withFinally
  rw [hx]

theorem onFailure_eq {x' : Effect ε σ α} {undo undo' : σ → σ} (hx : x' s = x s)
    (hundo : wp x (fun _ _ => True) (fun _ s => undo' s = undo s) s) :
    onFailure undo' x' s = onFailure undo x s := by
  unfold wp at hundo
  unfold onFailure
  rw [hx]
  cases hrun : x s with
  | ok a s' => rfl
  | error e s' => rw [hrun] at hundo; exact congrArg _ hundo

end Effect

end Lib
