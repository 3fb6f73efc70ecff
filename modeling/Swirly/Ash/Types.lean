import Mathlib.Data.List.Lex
import Mathlib.Data.Fintype.Basic
import Mathlib.Algebra.GroupWithZero.Nat

/-!
# Swirly.Ash.Types

The base types of the engine: dates and times, and the **bounded strings** that
mnemonics and references are stored in.

The source boxes its integers in enumerations (`Iden`, `Lots`, `Ticks`, `Cost`,
`Jday`, `IsoDate`, `Millis`), so that they cannot be mixed up. All of them are
exact integers here, told apart by the name of the field or argument. A result
about wrapping is stated separately, as a bound on the exact values.
-/

namespace Swirly

/-- Julian day to ISO8601, in exact integers. The `int` of the source is the same for every date
of the calendar, which `jdToIso32` is there to show. -/
def jdToIso (jd : Int) : Int :=
  let l := jd + 68569
  let n := (4 * l).tdiv 146097
  let l := l - (146097 * n + 3).tdiv 4
  let i := (4000 * (l + 1)).tdiv 1461001
  let l := l - (1461 * i).tdiv 4 + 31
  let j := (80 * l).tdiv 2447
  let k := l - (2447 * j).tdiv 80
  let l := j.tdiv 11
  let j := j + 2 - 12 * l
  let i := 100 * (n - 49) + i + l
  i * 10000 + j * 100 + k

/-- Julian day to ISO8601 if argument is non-zero. -/
def maybeJdToIso (jd : Int) : Int :=
  if jd ≠ 0 then jdToIso jd else 0

/-- A byte of a string. -/
abbrev Byte := Fin 256

/-- A literal byte is taken modulo 256. -/
instance Byte.neZero : NeZero 256 := ⟨by decide⟩

/-- `String<MaxN>`: at most `maxN` bytes, stored in place. -/
@[ext] structure FixedString (maxN : Nat) where
  /-- The bytes in use. -/
  buf : List Byte
  /-- They fit. -/
  len_le : buf.length ≤ maxN
  deriving DecidableEq

namespace FixedString

variable {maxN : Nat}

/-- Assignment keeps the first `maxN` bytes of the right-hand side. -/
def assign (maxN : Nat) (rhs : List Byte) : FixedString maxN :=
  ⟨rhs.take maxN, List.length_take_le maxN rhs⟩

/-- Is the string empty? -/
def empty (s : FixedString maxN) : Bool := s.buf.isEmpty

instance : Inhabited (FixedString maxN) := ⟨assign maxN []⟩

/-- `String::compare` orders strings by their bytes, a prefix first. -/
instance : LinearOrder (FixedString maxN) :=
  LinearOrder.lift' FixedString.buf (fun _ _ => FixedString.ext)

end FixedString

/-- `Mnem`: a mnemonic. -/
abbrev Mnem := FixedString 16

/-- `Ref`: the reference a trader attaches to an order; empty when absent. -/
abbrev Ref := FixedString 64

/-- `Display`: the text a record is shown as. -/
abbrev Display := FixedString 64

/-- `Email`: the address a trader is known by. -/
abbrev Email := FixedString 64

end Swirly
