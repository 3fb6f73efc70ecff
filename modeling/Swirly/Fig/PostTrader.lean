import Swirly.Fig.RoundTrip

/-!
# Swirly.Fig.PostTrader

**Traders without an email.** The email of a request is optional, and an empty one stands for
none. The email index does not know of that: an empty email is one like any other, and so only
one trader can do without (`postTrader_refuses_iff`).
-/

namespace Swirly

open Lib (KeySet Traced)

namespace Registry

/-- `Rest::postTrader`, with the fields of a request: what is written. -/
def postTrader (alloc : Bool) (mnem display : List Byte) (email : Option (List Byte))
    (s : Registry) : Except RecExn (List Byte × Registry) := do
  let (trader, s) ← s.createTrader alloc mnem display (email.getD [])
  .ok (trader.toJson, s)

/-- The records after the call; one that throws leaves them alone. -/
def afterPostTrader (alloc : Bool) (mnem display : List Byte) (email : Option (List Byte))
    (s : Registry) : Registry :=
  match s.postTrader alloc mnem display email with
  | .ok (_, s') => s'
  | .error _ => s

/-- Why a trader is refused: the name is taken or malformed, or an email is given that a trader
has. -/
def Refuses (s : Registry) (mnem : List Byte) (email : Option (List Byte)) : Prop :=
  (∃ t ∈ s.traders.elems, t.mnem.buf = mnem) ∨ mnemPattern mnem = false ∨
    ∃ e, email = some e ∧ ∃ t ∈ s.traders.elems, t.email.buf = e

/-- A trader is refused only for that, and then nothing is changed. -/
def CreatesAsTold (s : Registry) (mnem display : List Byte) (email : Option (List Byte)) : Prop :=
  ((∃ e, s.postTrader true mnem display email = .error e) ↔ s.Refuses mnem email) ∧
  ((∃ e, s.postTrader true mnem display email = .error e) →
    (s.afterPostTrader true mnem display email).traders = s.traders ∧
    (s.afterPostTrader true mnem display email).emailIdx = s.emailIdx)

variable {s : Registry} {mnem display : List Byte} {email : Option (List Byte)}

theorem postTrader_error_iff : (∃ e, s.postTrader true mnem display email = .error e) ↔
    ¬ s.Creates true mnem (email.getD []) := by
  by_cases h : s.Creates true mnem (email.getD [])
  · obtain ⟨r, hok⟩ : ∃ r, s.createTrader true mnem display (email.getD []) = .ok r :=
      ⟨_, Registry.createTrader_ok h⟩
    simp [postTrader, hok, h, bind, Except.bind]
  · obtain ⟨e, herror⟩ := Registry.createTrader_error h display
    simp [postTrader, herror, h, bind, Except.bind]

theorem afterPostTrader_of_error {e : RecExn}
    (h : s.postTrader true mnem display email = .error e) :
    s.afterPostTrader true mnem display email = s := by
  unfold afterPostTrader
  rw [h]

/-- The index has the emails of the traders and no others. -/
theorem Linked.find?_eq_none_iff (hl : s.Linked) (email : List Byte) :
    s.emailIdx.find? email = none ↔ ∀ t ∈ s.traders.elems, t.email.buf ≠ email := by
  rw [KeySet.find?_eq_none_iff]
  constructor
  · intro h t ht
    obtain ⟨n, hn, hemail⟩ := hl.indexed t ht
    rw [← hemail]
    exact h n hn
  · intro h n hn
    obtain ⟨t, ht, rfl⟩ := hl.entries n hn
    exact h t ht

/-- The tests of `createTrader`, on the traders. -/
theorem Linked.creates_iff (hl : s.Linked) (email : List Byte) :
    s.Creates true mnem email ↔ (∀ t ∈ s.traders.elems, t.mnem.buf ≠ mnem) ∧
      mnemPattern mnem = true ∧ ∀ t ∈ s.traders.elems, t.email.buf ≠ email := by
  rw [← hl.find?_eq_none_iff, ← KeySet.find?_eq_none_iff]
  exact ⟨fun h => ⟨h.mnem_free, h.pattern, h.email_free⟩, fun h => ⟨h.1, h.2.2, h.2.1, rfl⟩⟩

theorem Linked.createsAsTold_iff (hl : s.Linked) :
    s.CreatesAsTold mnem display email ↔ ¬ (email = none ∧
      (∀ t ∈ s.traders.elems, t.mnem.buf ≠ mnem) ∧ mnemPattern mnem = true ∧
      ∃ t ∈ s.traders.elems, t.email.buf = []) := by
  have hunchanged : (∃ e, s.postTrader true mnem display email = .error e) →
      (s.afterPostTrader true mnem display email).traders = s.traders ∧
      (s.afterPostTrader true mnem display email).emailIdx = s.emailIdx := by
    rintro ⟨e, herror⟩
    rw [afterPostTrader_of_error herror]
    exact ⟨rfl, rfl⟩
  have hmnem : (∃ t ∈ s.traders.elems, t.mnem.buf = mnem) ↔
      ¬ ∀ t ∈ s.traders.elems, t.mnem.buf ≠ mnem := by simp
  have hpattern : mnemPattern mnem = false ↔ ¬ mnemPattern mnem = true := by simp
  have hemail : ∀ e : List Byte, (∃ t ∈ s.traders.elems, t.email.buf = e) ↔
      ¬ ∀ t ∈ s.traders.elems, t.email.buf ≠ e := by simp
  unfold CreatesAsTold Refuses
  rw [and_iff_left hunchanged, postTrader_error_iff, hl.creates_iff, hmnem, hpattern]
  cases email with
  | none =>
      simp only [Option.getD_none, reduceCtorEq, false_and, exists_false, or_false, hemail]
      grind
  | some email =>
      simp only [Option.getD_some, Option.some.injEq, exists_eq_left', hemail]
      grind

end Registry

/-- **A trader is created exactly when it should be, but for one without an email after
another.** The traders are those of any run. -/
theorem postTrader_refuses_iff {contrs : List Mnem} {markets : MarketSet} {traders : TraderSet}
    {trace : List (Registry × TraderCall)} {s : Registry}
    (hrun : Traced TraderStep (.load contrs markets traders) trace s)
    (mnem display : List Byte) (email : Option (List Byte)) :
    s.CreatesAsTold mnem display email ↔ ¬ (email = none ∧
      (∀ t ∈ s.traders.elems, t.mnem.buf ≠ mnem) ∧ mnemPattern mnem = true ∧
      ∃ t ∈ s.traders.elems, t.email.buf = []) := by
  have hlinked : s.Linked := by
    refine hrun.invariant (I := Registry.Linked) (Registry.load_linked contrs markets traders)
      (fun s call s' hl hstep => ?_)
    rw [hstep]
    exact hl.step
  exact hlinked.createsAsTold_iff

namespace Mock

/-- SWIRLY joins without an email. -/
def joinSwirly : TraderCall := .createTrader true swirly.buf [] []

/-- The records after that. -/
def afterSwirly : Registry := joinSwirly.apply (.load [] .empty .empty)

theorem afterSwirly_run : Traced TraderStep (.load [] .empty .empty)
    [(.load [] .empty .empty, joinSwirly)] afterSwirly := Traced.nil.snoc rfl

end Mock

/-- MARAYL joins with an email. -/
theorem email_created : Mock.afterSwirly.CreatesAsTold Mock.marayl.buf [] (some [97]) :=
  (postTrader_refuses_iff Mock.afterSwirly_run _ _ _).mpr (by decide)

/-- **The second trader without an email is refused**, for an email that is in use. -/
theorem second_without_email_refused :
    Mock.afterSwirly.postTrader true Mock.marayl.buf [] none = .error (.emailInUse []) ∧
    ¬ Mock.afterSwirly.CreatesAsTold Mock.marayl.buf [] none := by
  have herror : Mock.afterSwirly.postTrader true Mock.marayl.buf [] none =
      .error (.emailInUse []) := rfl
  refine ⟨herror, fun h => ?_⟩
  rcases h.1.mp ⟨_, herror⟩ with hmnem | hpattern | ⟨e, hgiven, -⟩
  · revert hmnem
    decide
  · revert hpattern
    decide
  · cases hgiven

end Swirly
