import Swirly.Ash.Types
import Swirly.Lib.Heap
import Mathlib.Data.Prod.Lex

/-!
# Swirly.Elm.Types

The quantities and enumerations that orders, executions and positions are made
of, with the conversions between them.
-/

namespace Swirly

/-- `Side`: what an order wants. It also tells the side of the book that the order rests in. -/
inductive Side
  | buy
  | sell
  deriving DecidableEq, Repr, Inhabited

/-- The side an order trades against. Matching takes the two apart; nothing trades on its own
side. -/
def Side.opposite : Side → Side
  | .buy => .sell
  | .sell => .buy

@[simp] theorem Side.opposite_opposite (sd : Side) : sd.opposite.opposite = sd := by
  cases sd <;> rfl

@[simp] theorem Side.opposite_ne (sd : Side) : sd.opposite ≠ sd := by
  cases sd <;> decide

/-- `Direct`: which side was the aggressor. -/
inductive Direct
  /-- Aggressor bought. Taker lifted the offer. -/
  | paid
  /-- Aggressor sold. Taker hit the bid. -/
  | given
  deriving DecidableEq, Repr

/-- `Role`: the part a party played in a trade. -/
inductive Role
  | none
  | maker
  | taker
  deriving DecidableEq, Repr, Inhabited

/-- `State`: the last transition of an order. -/
inductive State
  | none
  | new
  | revise
  | cancel
  | trade
  deriving DecidableEq, Repr, Inhabited

/-- Cost of a number of lots at a price. -/
def cost (lots ticks : Int) : Int := lots * ticks

/-- Synthetic level key: the better price has the smaller key on either side. -/
def composeKey (side : Side) (ticks : Int) : Int :=
  if side = .buy then -ticks else ticks

/-- The price a key stands for on a side. -/
def ticksOf (side : Side) (key : Int) : Int :=
  if side = .buy then -key else key

@[simp] theorem ticksOf_composeKey (side : Side) (ticks : Int) :
    ticksOf side (composeKey side ticks) = ticks := by
  cases side <;> simp [ticksOf, composeKey]

/-- `OrderPtr`: orders are shared by address, between the book, the sessions and the matches. The
reference counts are modelled apart, in `RefCount`. -/
abbrev OrderPtr := Lib.Ptr

end Swirly
