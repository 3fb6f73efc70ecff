import Swirly.Lib.Effect

/-!
# Swirly.Lib.Checked

**Calls with checks on the way.** A checked call ends early with an exception of the
call, or at a check that failed. `Erases y x` says that `y` is `x` with checks added:
as long as no check fails, the two do the same. A check may be an assertion of a
program, or a property that somebody claims of it.
-/

namespace Lib

/-- Why a checked call ended early. -/
inductive Halt (ε κ : Type)
  | thrown (e : ε)
  | failed (k : κ)

/-- A call with checks, which are named by a `κ`. -/
abbrev Checked (ε κ σ : Type) := Effect (Halt ε κ) σ

namespace Checked

variable {ε κ σ α β : Type}

/-- A call, as a part of a checked call. -/
def lift (x : Effect ε σ α) : Checked ε κ σ α := fun s =>
  match x s with
  | .ok a s => .ok a s
  | .error e s => .error (.thrown e) s

/-- Check a property of the state. -/
def check (k : κ) (P : σ → Prop) [DecidablePred P] : Checked ε κ σ PUnit := fun s =>
  if P s then .ok ⟨⟩ s else .error (.failed k) s

/-- No check fails. -/
def passes (y : Checked ε κ σ α) (s : σ) : Bool :=
  match y s with
  | .error (.failed _) _ => false
  | _ => true

variable {x : Effect ε σ α} {y : Checked ε κ σ α} {s : σ}
variable {Q : α → σ → Prop} {E : Halt ε κ → σ → Prop}

@[simp] theorem wp_lift :
    (lift x : Checked ε κ σ α).wp Q E s ↔ x.wp Q (fun e s => E (.thrown e) s) s := by
  unfold Effect.wp lift
  cases x s <;> rfl

@[simp] theorem wp_check {k : κ} {P : σ → Prop} [DecidablePred P] {Q : PUnit → σ → Prop} :
    (check k P : Checked ε κ σ PUnit).wp Q E s ↔ (P s → Q ⟨⟩ s) ∧ (¬ P s → E (.failed k) s) := by
  unfold Effect.wp check
  by_cases h : P s <;> simp [h]

theorem lift_bind (f : α → Effect ε σ β) :
    (lift x >>= fun a => lift (f a) : Checked ε κ σ β) = lift (x >>= f) := by
  funext s
  simp only [lift, Bind.bind, EStateM.bind]
  cases x s <;> rfl

/-- What is said of a checked call when no check of it may fail. -/
def OnlyThrows (h : Halt ε κ) (_ : σ) : Prop := ∃ e, h = .thrown e

/-- What is said of a checked call when a check of it must fail. -/
def Fails (h : Halt ε κ) (_ : σ) : Prop := ∃ k, h = .failed k

theorem passes_of_wp (h : y.wp (fun _ _ => True) OnlyThrows s) : y.passes s = true := by
  rcases Effect.wp_cases h with ⟨a, s', hy, -⟩ | ⟨_, s', hy, e, rfl⟩ <;>
    unfold passes <;> rw [hy]

theorem not_passes_of_wp (h : y.wp (fun _ _ => False) Fails s) : y.passes s = false := by
  rcases Effect.wp_cases h with ⟨a, s', -, hno⟩ | ⟨_, s', hy, k, rfl⟩
  · exact hno.elim
  · unfold passes
    rw [hy]

/-! ### Erasing the checks -/

/-- `y` is `x` with checks added. -/
def Erases (y : Checked ε κ σ α) (x : Effect ε σ α) : Prop :=
  ∀ s, match y s with
    | .ok a s' => x s = .ok a s'
    | .error (.thrown e) s' => x s = .error e s'
    | .error (.failed _) _ => True

theorem Erases.lift (x : Effect ε σ α) : Erases (lift x : Checked ε κ σ α) x := by
  intro s
  unfold Checked.lift
  cases x s <;> rfl

theorem Erases.check (k : κ) (P : σ → Prop) [DecidablePred P] :
    Erases (check k P : Checked ε κ σ PUnit) (pure ⟨⟩) := by
  intro s
  unfold Checked.check
  by_cases h : P s
  · rw [if_pos h]
    rfl
  · rw [if_neg h]
    trivial

theorem Erases.get : Erases (get : Checked ε κ σ σ) get := fun _ => rfl

theorem Erases.bind {g : α → Checked ε κ σ β} {f : α → Effect ε σ β} (h : Erases y x)
    (hg : ∀ a, Erases (g a) (f a)) : Erases (y >>= g) (x >>= f) := by
  intro s
  have hs := h s
  simp only [Bind.bind, EStateM.bind]
  cases hy : y s with
  | ok a s' =>
      rw [hy] at hs
      rw [hs]
      exact hg a s'
  | error e s' =>
      rw [hy] at hs
      cases e with
      | thrown e => rw [hs]
      | failed k => trivial

theorem Erases.check_bind (k : κ) (P : σ → Prop) [DecidablePred P] (h : Erases y x) :
    Erases (Checked.check k P >>= fun _ => y) x :=
  (Erases.check k P).bind (fun _ => h)

theorem Erases.withFinally (fin : σ → σ) (h : Erases y x) :
    Erases (Effect.withFinally fin y) (Effect.withFinally fin x) := by
  intro s
  have hs := h s
  unfold Effect.withFinally
  cases hy : y s with
  | ok a s' => rw [hy] at hs; rw [hs]
  | error e s' =>
      rw [hy] at hs
      cases e with
      | thrown e => rw [hs]
      | failed k => trivial

end Checked

end Lib
