import Swirly.Lib.KeySet
import Swirly.Elm.Order

/-!
# Swirly.Fig.TraderSess

A trader's session: the trader's orders, trades and positions, and the index of
orders by reference.

Orders are shared with the books, so the session's sets hold addresses, each
stored under the constant fields its set is ordered by. Executions never change
once they are in a session, so the trades are held by value. A position belongs
to one session and keeps its key there: a pointer to it is named by the trader,
the contract and the settlement day.
-/

namespace Swirly

open Lib (KeySet)

/-- The key orders and executions are ordered by: market, then id. -/
abbrev IdKey := Mnem ×ₗ Int

/-- The key positions are ordered by: contract, then settlement day. -/
abbrev PosnKey := Mnem ×ₗ Int

/-- An order as a member of an `OrderIdSet`. -/
structure OrderNode where
  market : Mnem
  id : Int
  order : OrderPtr
  deriving DecidableEq

/-- `RequestIdSet::ValueCompare` for orders: ids are given out by each market for itself, and so
the market comes first. -/
def OrderNode.key (n : OrderNode) : IdKey := toLex (n.market, n.id)

/-- `RequestIdSet::ValueCompare` for executions: ids are given out by each market for itself, and
so the market comes first. -/
def Exec.idKey (e : Exec) : IdKey := toLex (e.market, e.id)

/-- `TraderPosnSet::ValueCompare`: contract and settlement day. The trader is left out, as the set
belongs to one trader. -/
def Posn.key (q : Posn) : PosnKey := toLex (q.contr, q.settlDay)

/-- An order as a member of an `OrderRefSet`. -/
structure RefNode where
  contr : Mnem
  settlDay : Int
  order : OrderPtr
  deriving DecidableEq

/-- `OrderRefSet::ValueCompare`, which compares contract and settlement day; the reference that
the set is named after is no part of it. -/
def RefNode.key (n : RefNode) : PosnKey := toLex (n.contr, n.settlDay)

/-- `OrderIdSet`: a trader's orders, done ones included, as archiving is a stub in the service. An
insertion of a key that is there already is ignored. -/
abbrev OrderIdSet := KeySet OrderNode.key

/-- `ExecIdSet`: a trader's trades, all of them, as archiving is a stub in the service. An
insertion of a key that is there already is ignored. -/
abbrev ExecIdSet := KeySet Exec.idKey

/-- `TraderPosnSet`: a trader's positions, one for each contract and settlement day. -/
abbrev TraderPosnSet := KeySet Posn.key

/-- `OrderRefSet`: the index by reference of the orders that have one. With its comparison it
holds one order for each contract and day. -/
abbrev OrderRefSet := KeySet RefNode.key

/-- `PosnPtr`: a position as matches and responses point to it. The position is never removed, so
the name of a position is as good as its address. -/
structure PosnPtr where
  trader : Mnem
  contr : Mnem
  settlDay : Int
  deriving DecidableEq, Inhabited

/-- The key of the position a pointer names, within the trader's session. -/
def PosnPtr.key (p : PosnPtr) : PosnKey := toLex (p.contr, p.settlDay)

@[simp] theorem Posn.addTrade_key (e : Exec) (q : Posn) : (q.addTrade e).key = q.key := by
  unfold Posn.addTrade
  dsimp only
  split <;> rfl

/-- `TraderSess`: the record of a trader together with what belongs to the trader. The sets hold
addresses and keys of orders; what an order is now is in the heap. -/
structure TraderSess where
  mnem : Mnem
  display : Display
  email : Email
  orders : OrderIdSet
  trades : ExecIdSet
  posns : TraderPosnSet
  refIdx : OrderRefSet

namespace TraderSess

/-- `insertOrder`: `o` is the order at address `order`. -/
def insertOrder (u : TraderSess) (order : OrderPtr) (o : Order) : TraderSess :=
  let u := { u with orders := u.orders.insert ⟨o.market, o.id, order⟩ }
  if o.ref.empty then u
  else { u with refIdx := u.refIdx.insert ⟨o.contr, o.settlDay, order⟩ }

/-- `removeOrder`: both sets erase whatever has the order's key. -/
def removeOrder (u : TraderSess) (o : Order) : TraderSess :=
  let u := { u with orders := u.orders.erase (toLex (o.market, o.id)) }
  if o.ref.empty then u
  else { u with refIdx := u.refIdx.erase (toLex (o.contr, o.settlDay)) }

/-- `insertTrade`: the trade joins the others. The set links what was allocated already, so it
does not throw. -/
def insertTrade (u : TraderSess) (trade : Exec) : TraderSess :=
  { u with trades := u.trades.insert trade }

/-- `insertPosn`: the position joins the others, unless there is one under its key. -/
def insertPosn (u : TraderSess) (posn : Posn) : TraderSess :=
  { u with posns := u.posns.insert posn }

/-- Does the session hold a position for this contract and day? -/
def hasPosn (u : TraderSess) (contr : Mnem) (settlDay : Int) : Bool :=
  (u.posns.find? (toLex (contr, settlDay))).isSome

/-- `lazyPosn`, when it does not throw: find or create the position. -/
def lazyPosn (u : TraderSess) (contr : Mnem) (settlDay : Int) : TraderSess :=
  if u.hasPosn contr settlDay then u else u.insertPosn (newPosn u.mnem contr settlDay)

/-- `Posn::addTrade` on the session's position under a key. -/
def addTrade (u : TraderSess) (k : PosnKey) (trade : Exec) : TraderSess :=
  { u with posns := u.posns.modify k (Posn.addTrade · trade) (Posn.addTrade_key trade) }

/-- The session's position for a contract and day, zero when there is none. -/
def posnOf (u : TraderSess) (contr : Mnem) (settlDay : Int) : Posn :=
  (u.posns.find? (toLex (contr, settlDay))).getD (newPosn u.mnem contr settlDay)

@[simp] theorem insertOrder_mnem (p : OrderPtr) (o : Order) (u : TraderSess) :
    (u.insertOrder p o).mnem = u.mnem := by
  unfold insertOrder
  dsimp only
  split <;> rfl

@[simp] theorem insertOrder_orders (u : TraderSess) (p : OrderPtr) (o : Order) :
    (u.insertOrder p o).orders = u.orders.insert ⟨o.market, o.id, p⟩ := by
  unfold insertOrder
  dsimp only
  split <;> rfl

@[simp] theorem insertOrder_trades (u : TraderSess) (p : OrderPtr) (o : Order) :
    (u.insertOrder p o).trades = u.trades := by
  unfold insertOrder
  dsimp only
  split <;> rfl

@[simp] theorem insertOrder_posns (u : TraderSess) (p : OrderPtr) (o : Order) :
    (u.insertOrder p o).posns = u.posns := by
  unfold insertOrder
  dsimp only
  split <;> rfl

theorem insertOrder_refIdx (u : TraderSess) (p : OrderPtr) (o : Order) :
    (u.insertOrder p o).refIdx =
      if o.ref.empty then u.refIdx else u.refIdx.insert ⟨o.contr, o.settlDay, p⟩ := by
  unfold insertOrder
  dsimp only
  split <;> rfl

theorem removeOrder_orders (u : TraderSess) (o : Order) :
    (u.removeOrder o).orders = u.orders.erase (toLex (o.market, o.id)) := by
  unfold removeOrder
  dsimp only
  split <;> rfl

theorem removeOrder_refIdx (u : TraderSess) (o : Order) :
    (u.removeOrder o).refIdx =
      if o.ref.empty then u.refIdx else u.refIdx.erase (toLex (o.contr, o.settlDay)) := by
  unfold removeOrder
  dsimp only
  split <;> rfl

@[simp] theorem insertTrade_mnem (e : Exec) (u : TraderSess) : (u.insertTrade e).mnem = u.mnem :=
  rfl

@[simp] theorem insertPosn_mnem (q : Posn) (u : TraderSess) : (u.insertPosn q).mnem = u.mnem := rfl

@[simp] theorem lazyPosn_mnem (contr : Mnem) (settlDay : Int) (u : TraderSess) :
    (u.lazyPosn contr settlDay).mnem = u.mnem := by
  unfold lazyPosn
  split <;> rfl

@[simp] theorem addTrade_mnem (k : PosnKey) (e : Exec) (u : TraderSess) :
    (u.addTrade k e).mnem = u.mnem := rfl

end TraderSess

end Swirly
