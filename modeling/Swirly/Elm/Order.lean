import Swirly.Elm.Types

/-!
# Swirly.Elm.Order

Orders, executions and positions, and the transitions the source defines on
them. An execution is a snapshot of an order at one transition (`newExec`),
completed by the trade it records (`Exec.trade`).

`Order.level` stands for the source's pointer from a resting order to its price
level: a side never holds two levels of one key, so a level is named by its key.

The assertions of each transition are the proposition next to it. They are not
control flow: a build without assertions runs the same transition.
-/

namespace Swirly

/-- `Request`: what orders and executions have in common. -/
structure Request where
  /-- The executing trader. -/
  trader : Mnem
  market : Mnem
  contr : Mnem
  settlDay : Int
  id : Int
  /-- Ref is optional. -/
  ref : Ref
  side : Side
  lots : Int
  created : Int
  deriving DecidableEq, Inhabited

/-- `Order`: a request to trade, and how much of it has been done. It may rest in a book, in a
session, or nowhere; only `level` says something of that. -/
structure Order extends Request where
  /-- The level the order rests in, if it rests. -/
  level : Option Int := none
  state : State
  ticks : Int
  resd : Int
  exec : Int
  cost : Int
  lastLots : Int
  lastTicks : Int
  /-- Minimum to be filled by this order. -/
  minLots : Int
  modified : Int
  deriving DecidableEq, Inhabited

namespace Order

/-- The key of the price level the order belongs to. -/
def key (o : Order) : Int := composeKey o.side o.ticks

/-- Nothing is left to fill: such an order is in no book. A cancelled order is done as well. -/
def done (o : Order) : Bool := o.resd = 0

/-- `setLevel`: the order points at the level it rests in, or at none. The source's pointer is the
level's key. -/
def setLevel (o : Order) (level : Option Int) : Order := { o with level }

/-- `create`: reset the order to new, with all of its lots to be filled. What was traded before is
forgotten. -/
def create (o : Order) (now : Int) : Order :=
  { o with state := .new, resd := o.lots, exec := 0, cost := 0, modified := now }

/-- The assertions of `create`, for a build that has them: there is something to trade, and the
minimum does not exceed it. -/
def CreateAsserts (o : Order) : Prop := 0 < o.lots ∧ o.minLots ≤ o.lots

/-- `revise`: reduce the order to `lots`. What was executed stays, so that the residual lots take
the whole difference, and may fall below zero when more than that has gone. -/
def revise (o : Order) (lots : Int) (now : Int) : Order :=
  let delta := o.lots - lots
  { o with state := .revise, lots := lots, resd := o.resd - delta, modified := now }

/-- The assertions of `revise`, which `BookSide::reviseOrder` makes as well. -/
def ReviseAsserts (o : Order) (lots : Int) : Prop :=
  0 < lots ∧ o.exec ≤ lots ∧ o.minLots ≤ lots ∧ lots ≤ o.lots

/-- `cancel`. Note that executed lots is not affected. -/
def cancel (o : Order) (now : Int) : Order :=
  { o with state := .cancel, resd := 0, modified := now }

/-- `trade` of `takenLots` in total, the last fill being `lastLots` at `lastTicks`. -/
def trade (o : Order) (takenLots : Int) (takenCost : Int) (lastLots : Int) (lastTicks : Int)
    (now : Int) : Order :=
  { o with
    state := .trade
    resd := o.resd - takenLots
    exec := o.exec + takenLots
    cost := o.cost + takenCost
    lastLots := lastLots
    lastTicks := lastTicks
    modified := now }

/-- `trade` of a single fill: the lots taken are those of the fill, and so is their cost. Makers
trade this way. -/
def tradeLast (o : Order) (lastLots : Int) (lastTicks : Int) (now : Int) : Order :=
  o.trade lastLots (Swirly.cost lastLots lastTicks) lastLots lastTicks now

end Order

/-- `Exec`: an execution, the state of an order after one of its transitions. It is what the
journal is given and what sessions keep as trades. -/
structure Exec extends Request where
  orderId : Int
  state : State
  ticks : Int
  resd : Int
  exec : Int
  cost : Int
  lastLots : Int
  lastTicks : Int
  minLots : Int
  /-- The other execution of the match, zero when there is none. -/
  matchId : Int
  role : Role
  /-- The trader on the other side of the match, empty when there is none. -/
  cpty : Mnem
  deriving DecidableEq, Inhabited

namespace Exec

/-- `trade` of `sumLots` in total since the snapshot, the last fill being `lastLots`. -/
def trade (e : Exec) (sumLots : Int) (sumCost : Int) (lastLots : Int) (lastTicks : Int)
    (matchId : Int) (role : Role) (cpty : Mnem) : Exec :=
  { e with
    state := .trade
    resd := e.resd - sumLots
    exec := e.exec + sumLots
    cost := e.cost + sumCost
    lastLots := lastLots
    lastTicks := lastTicks
    matchId := matchId
    role := role
    cpty := cpty }

/-- `trade` of a single fill, for the execution of a maker: the lots taken are those of the fill,
and so is their cost. -/
def tradeLast (e : Exec) (lastLots : Int) (lastTicks : Int) (matchId : Int) (role : Role)
    (cpty : Mnem) : Exec :=
  e.trade lastLots (Swirly.cost lastLots lastTicks) lastLots lastTicks matchId role cpty

end Exec

/-- `Factory::newOrder`, when it does not throw: nothing is filled yet, and the reference is cut
to its 64 bytes. No test is made of the quantities. -/
def newOrder (trader market contr : Mnem) (settlDay : Int) (id : Int) (ref : List Byte)
    (side : Side) (lots : Int) (ticks : Int) (minLots : Int) (created : Int) : Order :=
  { trader, market, contr, settlDay, id, ref := .assign 64 ref, side, lots, created,
    level := none, state := .new, ticks, resd := lots, exec := 0, cost := 0, lastLots := 0,
    lastTicks := 0, minLots, modified := created }

/-- `Factory::newExec`, when it does not throw: the snapshot of an order, with an id and a time of
its own. Neither match, role nor counterparty is set; a trade sets them. -/
def newExec (order : Order) (id : Int) (created : Int) : Exec :=
  { trader := order.trader, market := order.market, contr := order.contr,
    settlDay := order.settlDay, id, ref := order.ref, side := order.side, lots := order.lots,
    created, orderId := order.id, state := order.state, ticks := order.ticks, resd := order.resd,
    exec := order.exec, cost := order.cost, lastLots := order.lastLots,
    lastTicks := order.lastTicks, minLots := order.minLots, matchId := 0, role := .none,
    cpty := .assign 16 [] }

/-- `Posn`: what a trader bought and sold of a contract for one settlement day. -/
structure Posn where
  trader : Mnem
  contr : Mnem
  settlDay : Int
  buyLots : Int
  buyCost : Int
  sellLots : Int
  sellCost : Int
  deriving DecidableEq, Inhabited

namespace Posn

/-- `addBuy`: more lots bought, and what they cost. The sums are exact here, and those of
`addBuy64` may wrap. -/
def addBuy (q : Posn) (lots : Int) (cost : Int) : Posn :=
  { q with buyLots := q.buyLots + lots, buyCost := q.buyCost + cost }

/-- `addSell`: more lots sold, and what they brought. The sums are exact here, and those of
`addSell64` may wrap. -/
def addSell (q : Posn) (lots : Int) (cost : Int) : Posn :=
  { q with sellLots := q.sellLots + lots, sellCost := q.sellCost + cost }

/-- `addTrade`: what a trade adds to the position, on the side that the order was on, at the price
and lots of its last fill. -/
def addTrade (q : Posn) (trade : Exec) : Posn :=
  let cost := Swirly.cost trade.lastLots trade.lastTicks
  if trade.side = .buy then q.addBuy trade.lastLots cost else q.addSell trade.lastLots cost

end Posn

/-- `Factory::newPosn`: a position with nothing bought or sold. -/
def newPosn (trader contr : Mnem) (settlDay : Int) : Posn :=
  { trader, contr, settlDay, buyLots := 0, buyCost := 0, sellLots := 0, sellCost := 0 }

end Swirly
