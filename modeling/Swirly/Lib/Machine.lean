import Mathlib.Algebra.Group.Int.Defs
import Mathlib.Algebra.Group.Nat.Defs
import Mathlib.Algebra.GroupWithZero.Nat
import Mathlib.Algebra.Ring.Int.Defs

/-!
# Swirly.Lib.Machine

**Signed machine integers.** `Fits m` are the numbers of the signed type that has `m` numbers
from zero up and `m` below.

A `MachineInt m` is what an expression of the type comes to: a number, or `overflow` once the exact
result of an operation in it does not fit. So an expression that comes to a number is one in
which nothing overflows on the way.

Where a program stores results and goes on with them, an `Arith` stands for the machine instead:
what an operation leaves in a word, given its exact result. A `Faithful` one is exact as long as
the result fits, and does anything when it does not; two's complement (`wrap`) is one.
-/

namespace Lib

/-- The numbers of the type: from `-m` to `m - 1`, in two's complement with `m` a power of two. -/
def Fits (m : Nat) (n : Int) : Prop := -m ≤ n ∧ n < m

instance Fits.instDecidable {m : Nat} {n : Int} : Decidable (Fits m n) :=
  inferInstanceAs (Decidable (_ ∧ _))

/-- `int32_t`. -/
abbrev int32 : Nat := 2 ^ 31

/-- `int64_t`. -/
abbrev int64 : Nat := 2 ^ 63

theorem fits_int64 {n : Int} : Fits int64 n ↔ -2 ^ 63 ≤ n ∧ n < 2 ^ 63 := Iff.rfl

/-- What an expression of the type comes to. -/
inductive MachineInt (m : Nat)
  | of (n : Int)
  | overflow
  deriving DecidableEq, Repr

namespace MachineInt

variable {m : Nat} {a b n : Int}

/-- The result of an operation, if it fits. -/
def fit (n : Int) : MachineInt m := if Fits m n then of n else overflow

/-- An operation on two numbers. With an overflow on either side there is one in the result. -/
def lift (op : Int → Int → MachineInt m) : MachineInt m → MachineInt m → MachineInt m
  | of a, of b => op a b
  | _, _ => overflow

instance instOfNat {k : Nat} : OfNat (MachineInt m) k := ⟨of k⟩

instance instAdd : Add (MachineInt m) := ⟨lift (fun a b => fit (a + b))⟩

instance instSub : Sub (MachineInt m) := ⟨lift (fun a b => fit (a - b))⟩

instance instMul : Mul (MachineInt m) := ⟨lift (fun a b => fit (a * b))⟩

/-- A quotient is truncated. -/
instance instDiv : Div (MachineInt m) :=
  ⟨lift (fun a b => if b = 0 then overflow else fit (a.tdiv b))⟩

/-- A remainder has the sign of what is divided. -/
instance instMod : Mod (MachineInt m) :=
  ⟨lift (fun a b => if b = 0 then overflow else fit (a.tmod b))⟩

theorem fit_eq (h : Fits m n) : (fit n : MachineInt m) = of n := if_pos h

theorem ofNat_eq (k : Nat) : (OfNat.ofNat k : MachineInt m) = of (OfNat.ofNat k) := rfl

theorem of_add (h : Fits m (a + b)) : (of a + of b : MachineInt m) = of (a + b) := fit_eq h

theorem of_sub (h : Fits m (a - b)) : (of a - of b : MachineInt m) = of (a - b) := fit_eq h

theorem of_mul (h : Fits m (a * b)) : (of a * of b : MachineInt m) = of (a * b) := fit_eq h

/-- A quotient is no larger than what is divided. -/
theorem of_div (ha : Fits m a) (hb : 0 < b) : (of a / of b : MachineInt m) = of (a.tdiv b) := by
  have hle : (a.tdiv b).natAbs ≤ a.natAbs := Int.natAbs_tdiv_le_natAbs a b
  have hfits : Fits m (a.tdiv b) := by
    obtain ⟨hlow, hhigh⟩ := ha
    rcases Int.le_total 0 a with hnonneg | hnonpos
    · have hquot : 0 ≤ a.tdiv b := Int.tdiv_nonneg hnonneg (Int.le_of_lt hb)
      exact ⟨by omega, by omega⟩
    · have hquot : 0 ≤ (-a).tdiv b :=
        Int.tdiv_nonneg (Int.neg_nonneg_of_nonpos hnonpos) (Int.le_of_lt hb)
      rw [Int.neg_tdiv] at hquot
      exact ⟨by omega, by omega⟩
  show (if b = 0 then overflow else fit (a.tdiv b) : MachineInt m) = _
  rw [if_neg (Int.ne_of_gt hb), fit_eq hfits]

/-- A remainder is smaller than the divisor. -/
theorem of_mod (hb : 0 < b) (hfits : Fits m b) : (of a % of b : MachineInt m) = of (a.tmod b) := by
  have hlow : -b < a.tmod b := Int.lt_tmod_of_pos a hb
  have hhigh : a.tmod b < b := Int.tmod_lt_of_pos a hb
  obtain ⟨-, hle⟩ := hfits
  show (if b = 0 then overflow else fit (a.tmod b) : MachineInt m) = _
  rw [if_neg (Int.ne_of_gt hb)]
  exact fit_eq ⟨by omega, by omega⟩

theorem fits_int32 (h : -2 ^ 31 ≤ n) (h' : n < 2 ^ 31) : Fits int32 n := ⟨h, h'⟩

end MachineInt

/-! ### What an operation leaves in a word -/

/-- What the machine makes of an exact result. -/
abbrev Arith := Int → Int

/-- A result that fits is left as it is. -/
def Arith.Faithful (w : Arith) (m : Nat) : Prop := ∀ n, Fits m n → w n = n

/-- Two's complement: what is left of a result in the bits of the type. It is one of the functions
that are faithful to what fits. -/
def wrap (m : Nat) : Arith := fun n => n.bmod (2 * m)

section Wrap

variable {m : Nat} {n : Int}

theorem wrap_faithful (m : Nat) : (wrap m).Faithful m := by
  intro n hfits
  obtain ⟨hlow, hhigh⟩ := hfits
  exact Int.bmod_eq_of_le (by omega) (by omega)

/-- A result above the range comes back from below. -/
theorem wrap_of_le (h : m ≤ n) (h' : n < 2 * m) : wrap m n = n - 2 * m := by
  have hmod : n % ((2 * m : Nat) : Int) = n := Int.emod_eq_of_lt (by omega) (by omega)
  unfold wrap
  rw [Int.bmod_def, hmod, if_neg (by omega)]
  omega

/-- A result below the range comes back from above. -/
theorem wrap_of_lt (h : n < -m) (h' : -(2 * m) < n) : wrap m n = n + 2 * m := by
  have hmod : n % ((2 * m : Nat) : Int) = n + 2 * m := by
    rw [← Int.add_emod_right, Int.emod_eq_of_lt (by omega) (by omega)]
    omega
  unfold wrap
  rw [Int.bmod_def, hmod, if_pos (by omega)]

/-- **The sign of a difference is right exactly if the difference fits.** -/
theorem wrap_nonpos_iff (h : -(2 * m) < n) (h' : n < 2 * m) :
    (wrap m n ≤ 0 ↔ n ≤ 0) ↔ Fits m n := by
  rcases Int.lt_or_le n (-m) with hlow | hlow
  · rw [wrap_of_lt hlow h]
    unfold Fits
    omega
  · rcases Int.lt_or_le n m with hhigh | hhigh
    · rw [wrap_faithful m n ⟨hlow, hhigh⟩]
      exact iff_of_true Iff.rfl ⟨hlow, hhigh⟩
    · rw [wrap_of_le hhigh h']
      unfold Fits
      omega

end Wrap

/-- The running sums of `ns`, from `n`, stay in the range. -/
def Stays (m : Nat) : Int → List Int → Prop
  | n, [] => Fits m n
  | n, x :: xs => Fits m n ∧ Stays m (n + x) xs

instance Stays.instDecidable {m : Nat} : (n : Int) → (ns : List Int) → Decidable (Stays m n ns)
  | n, [] => inferInstanceAs (Decidable (Fits m n))
  | n, x :: xs =>
      have := Stays.instDecidable (m := m) (n + x) xs
      inferInstanceAs (Decidable (Fits m n ∧ Stays m (n + x) xs))

theorem Stays.fits {m : Nat} {n : Int} {ns : List Int} (h : Stays m n ns) : Fits m n := by
  cases ns with
  | nil => exact h
  | cons x xs => exact h.1

/-- The last of the sums is the whole. -/
theorem Stays.sum {m : Nat} {n : Int} {ns : List Int} (h : Stays m n ns) : Fits m (n + ns.sum) := by
  induction ns generalizing n with
  | nil => simpa using h.fits
  | cons x xs ih =>
      rw [List.sum_cons, ← add_assoc]
      exact ih h.2

end Lib
