import Swirly.Fig.TraderSess

/-!
# Swirly.Fig.Response

What a call reports to its caller. The two vectors have a capacity; `reserve`
allocates only when the capacity asked for is not there yet. Within the capacity
`push_back` does not allocate, which is how the commit phase uses it: the capacity that is
reserved counts from the start of the vector, and so it is enough for a response that the
caller hands over without entries (`Response.Cleared`), as `Rest::postOrder` does.
-/

namespace Swirly

/-- `Response`: what `createOrder` reports of a call. `Rest::postOrder` makes one for each call
and writes it out; the source holds the orders, executions and position by pointer, the model
executions by value. -/
structure Response where
  /-- The book the orders belong to, by mnemonic. -/
  book : Option Mnem := none
  orders : List OrderPtr := []
  execs : List Exec := []
  posn : Option PosnPtr := none
  ordersCapacity : Nat := 0
  execsCapacity : Nat := 0
  deriving DecidableEq

namespace Response

/-- `setPosn`. -/
def setPosn (r : Response) (posn : PosnPtr) : Response := { r with posn := some posn }

/-- `setBook`: the book that the orders belong to, which is also the book that `takeOrder` works
on. -/
def setBook (r : Response) (book : Mnem) : Response := { r with book := some book }

/-- `reserveOrders`, when it does not throw. The capacity is that of the whole vector: what is in
it already is not added. -/
def reserveOrders (r : Response) (capacity : Nat) : Response :=
  { r with ordersCapacity := max r.ordersCapacity capacity }

/-- `reserveExecs`, when it does not throw. The capacity is that of the whole vector: what is in
it already is not added. -/
def reserveExecs (r : Response) (capacity : Nat) : Response :=
  { r with execsCapacity := max r.execsCapacity capacity }

/-- `insertOrder`, within the capacity: the `push_back` is taken not to allocate, which is right
of the commit phase for a response that was `Cleared` before the call. -/
def insertOrder (r : Response) (order : OrderPtr) : Response :=
  { r with orders := r.orders ++ [order] }

/-- `insertExec`, within the capacity as `insertOrder` is. -/
def insertExec (r : Response) (exec : Exec) : Response := { r with execs := r.execs ++ [exec] }

/-- A response that holds nothing yet, whatever it has room for. -/
def Cleared (r : Response) : Prop :=
  r.book = none ∧ r.orders = [] ∧ r.execs = [] ∧ r.posn = none

@[simp] theorem setBook_ordersCapacity (r : Response) (book : Mnem) :
    (r.setBook book).ordersCapacity = r.ordersCapacity := rfl

@[simp] theorem setBook_execsCapacity (r : Response) (book : Mnem) :
    (r.setBook book).execsCapacity = r.execsCapacity := rfl

@[simp] theorem reserveOrders_execsCapacity (r : Response) (n : Nat) :
    (r.reserveOrders n).execsCapacity = r.execsCapacity := rfl

end Response

end Swirly
