import Swirly.Elm.Machine
import Swirly.Fig.Serv

/-!
# Swirly.Fig.Machine

The text of `createOrder` once more, with the words it is compiled to (`Swirly.Elm.Machine`). What
computes with no lots, prices or costs is called from `Swirly.Fig.Serv` as it is: the checks, the
new order, the response.
-/

namespace Swirly

open Lib (Heap Table Arith)
open Lib.Effect (withFinally onFailure)

variable (w : Arith)

@[simp] theorem Posn.addTrade64_key (e : Exec) (q : Posn) : (q.addTrade64 w e).key = q.key := by
  unfold addTrade64 addBuy64 addSell64 key
  split <;> rfl

/-- `Posn::addTrade` through a pointer, in a trader's session, with sums that may wrap. -/
def TraderSess.addTrade64 (u : TraderSess) (k : PosnKey) (trade : Exec) : TraderSess :=
  { u with posns := u.posns.modify k (Posn.addTrade64 w · trade) (Posn.addTrade64_key w trade) }

@[simp] theorem TraderSess.addTrade64_mnem (k : PosnKey) (e : Exec) (u : TraderSess) :
    (u.addTrade64 w k e).mnem = u.mnem := rfl

namespace Serv

/-- `MarketBook::insertOrder` on a market of the service, with the machine's levels. -/
def insertOrder64 (s : Serv) (m : Mnem) (p : OrderPtr) : Serv :=
  { s.modifyBook m (fun b => (b.insertOrder64 w s.heap p).2)
      (MarketBook.insertOrder64_mnem w s.heap p) with
    heap := ((s.markets.get m).insertOrder64 w s.heap p).1 }

/-- `MarketBook::removeOrder` on a market of the service, with the machine's levels. -/
def removeOrder64 (s : Serv) (m : Mnem) (p : OrderPtr) : Serv :=
  { s.modifyBook m (fun b => (b.removeOrder64 w s.heap p).2)
      (MarketBook.removeOrder64_mnem w s.heap p) with
    heap := ((s.markets.get m).removeOrder64 w s.heap p).1 }

/-- `MarketBook::takeOrder` on a market of the service, with the machine's levels and trade. -/
def takeOrder64 (s : Serv) (m : Mnem) (p : OrderPtr) (lots now : Int) : Serv :=
  { s.modifyBook m (fun b => (b.takeOrder64 w s.heap p lots now).2)
      (MarketBook.takeOrder64_mnem w s.heap p lots now) with
    heap := ((s.markets.get m).takeOrder64 w s.heap p lots now).1 }

/-- `Posn::addTrade` through a pointer, with sums that may wrap. -/
def addTrade64 (s : Serv) (posn : PosnPtr) (trade : Exec) : Serv :=
  s.modifySess posn.trader (TraderSess.addTrade64 w · posn.key trade)
    (TraderSess.addTrade64_mnem w posn.key trade)

end Serv

/-! ### Matching -/

/-- `spread`: the machine's difference of two prices. Between prices far enough apart it wraps,
and has the other sign. -/
def spread64 (takerOrder makerOrder : Order) (direct : Direct) : Int :=
  if direct = .paid then w (makerOrder.ticks - takerOrder.ticks)
  else w (takerOrder.ticks - makerOrder.ticks)

theorem spread64_eq (takerOrder makerOrder : Order) (direct : Direct) :
    spread64 w takerOrder makerOrder direct = w (spread takerOrder makerOrder direct) := by
  unfold spread64 spread
  split <;> rfl

/-- Add one fill: the lots and the cost to the sums, each of which may wrap, and the lots and the
price as the last ones. -/
def Sums.add64 (a : Sums) (lots ticks : Int) : Sums :=
  { sumLots := w (a.sumLots + lots), sumCost := w (a.sumCost + cost64 w lots ticks),
    lastLots := lots, lastTicks := ticks }

/-- The taker's trade of everything matched, from sums that may have wrapped. -/
def Serv.tradeTaker64 (s : Serv) (takerOrder : OrderPtr) (sums : Sums) (now : Int) : Serv :=
  { s with heap := s.heap.modify takerOrder
             (Order.trade64 w · sums.sumLots sums.sumCost sums.lastLots sums.lastTicks now) }

/-- `newMatch`, the same text over the machine's trades. Ids are exact: there is no memory for so
many executions. -/
def newMatch64 (env : Env) (i : Nat) (book : Mnem) (takerOrder makerOrder : OrderPtr)
    (lots sumLots sumCost now : Int) : ServM Match := do
  let makerId ← allocExecId book
  let takerId ← allocExecId book
  let s := (← get).serv
  let maker := s.heap makerOrder
  let taker := s.heap takerOrder
  let b := s.markets.get book
  let makerPosn ← lazyPosn env maker.trader b.contr b.settlDay
  let ticks := maker.ticks
  allocate env (.makerTrade i)
  let makerTrade :=
    (newExec maker makerId now).tradeLast64 w lots ticks takerId .maker taker.trader
  allocate env (.takerTrade i)
  let takerTrade :=
    (newExec taker takerId now).trade64 w sumLots sumCost lots ticks makerId .taker maker.trader
  return { lots, makerOrder, makerTrade, makerPosn, takerTrade }

/-- The loop of `matchOrders`: the comparison of prices, what is left for the next maker, and the
sums are the machine's. -/
def matchLoop64 (env : Env) (book : Mnem) (takerOrder : OrderPtr) (direct : Direct) (now : Int) :
    Nat → List OrderPtr → Sums → ServM Sums
  | _, [], sums => return sums
  | i, makerOrder :: orders, sums => do
      let h := (← get).serv.heap
      -- Break if order is fully filled.
      if sums.sumLots = (h takerOrder).resd then return sums
      -- Only consider orders while prices cross.
      else if 0 < spread64 w (h takerOrder) (h makerOrder) direct then return sums
      else
        let lots := min (w ((h takerOrder).resd - sums.sumLots)) (h makerOrder).resd
        let sums := sums.add64 w lots (h makerOrder).ticks
        let m ← newMatch64 w env i book takerOrder makerOrder lots sums.sumLots sums.sumCost now
        allocate env (.pushMatch i)
        modifyServ (Serv.pushMatch · m)
        matchLoop64 env book takerOrder direct now (i + 1) orders sums

/-- `matchOrders` against one side, the same text over the machine's loop. -/
def matchSide64 (env : Env) (book : Mnem) (takerOrder : OrderPtr) (side : Side) (direct : Direct)
    (now : Int) : ServM Unit := do
  let orders := (((← get).serv.markets.get book).side side).orders
  let sums ← matchLoop64 w env book takerOrder direct now 0 orders {}
  if (← get).serv.matchVec ≠ [] then
    modifyServ (Serv.tradeTaker64 w · takerOrder sums now)

/-- `matchOrders`, the same text over the machine's loop. -/
def matchOrders64 (env : Env) (book : Mnem) (takerOrder : OrderPtr) (now : Int) : ServM Unit := do
  let side := ((← get).serv.heap takerOrder).side
  matchSide64 w env book takerOrder side.opposite side.direct now

/-! ### Committing -/

namespace Ctx

/-- `Response::takeOrder`, on the machine's book. -/
def takeOrder64 (c : Ctx) (order : OrderPtr) (lots now : Int) : Ctx :=
  match c.resp.book with
  | some m => { c with serv := c.serv.takeOrder64 w m order lots now }
  | none => c

/-- `Response::addTrade`, on the machine's position. -/
def addTrade64 (c : Ctx) (trade : Exec) : Ctx :=
  match c.resp.posn with
  | some posn => { c with serv := c.serv.addTrade64 w posn trade }
  | none => c

/-- One iteration of `commitMatches`, the same text over the machine's book and positions. -/
def commitMatch64 (takerSess : Mnem) (now : Int) (c : Ctx) (m : Match) : Ctx :=
  -- Reduce maker.
  let c := c.takeOrder64 w m.makerOrder m.lots now
  let trader := (c.serv.heap m.makerOrder).trader
  -- Update maker.
  let c :=
    { c with serv :=
        (c.serv.insertTrade trader m.makerTrade).addTrade64 w m.makerPosn m.makerTrade }
  -- Update taker.
  let c := { c with serv := c.serv.insertTrade takerSess m.takerTrade }
  let c := c.addTrade64 w m.takerTrade
  -- Insert order if trade crossed with self.
  let resp :=
    if trader = (c.serv.traders.get takerSess).mnem then
      (c.resp.insertOrder m.makerOrder).insertExec m.makerTrade
    else c.resp
  { c with resp := resp.insertExec m.takerTrade }

/-- `commitMatches`, the same text over the machine's iteration. -/
def commitMatches64 (takerSess : Mnem) (now : Int) (c : Ctx) : Ctx :=
  c.serv.matchVec.foldl (commitMatch64 w takerSess now) c

/-- The commit phase of `createOrder`, the same text over the machine's `commitMatches`. -/
def commitOrder64 (a : OrderArgs) (order : OrderPtr) (exec : Exec) (c : Ctx) : Ctx :=
  let c := { serv := c.serv.insertSessOrder a.sess order
             resp := (c.resp.insertOrder order).insertExec exec }
  if c.serv.matchVec ≠ [] then c.commitMatches64 w a.sess a.now else c

end Ctx

/-! ### Creating an order -/

/-- Place incomplete order in market, at the machine's key. -/
def placeOrder64 (env : Env) (book : Mnem) (order : OrderPtr) : ServM Unit := do
  let s := (← get).serv
  let o := s.heap order
  if o.done then return
  else
    if (((s.markets.get book).side o.side).levels.find? (o.key64 w)).isNone then
      allocate env .level
    modifyServ (Serv.insertOrder64 w · book order)

/-- `journ.createExec`, with the guard that undoes the market insertion in the same arithmetic. -/
def journOrder64 (env : Env) (book : Mnem) (order : OrderPtr) (exec : Exec) : ServM Unit :=
  onFailure (fun c =>
      if (c.serv.heap order).done then c
      else { c with serv := c.serv.removeOrder64 w book order })
    (if env.journ then
      modifyServ (fun s => { s with journ := s.journ ++ journExecs exec s.matchVec })
    else throw .journ)

/-- `createOrder`, the same text over 64-bit arithmetic: `w` is what the machine makes of each
result on lots, ticks and cost. Ids, counts and times are exact. -/
def createOrder64 (env : Env) (a : OrderArgs) : ServM Unit := do
  checkOrder env a
  let (order, exec) ← openOrder env a
  matchOrders64 w env a.book order a.now
  -- Ensure that matches are cleared when scope exits.
  withFinally Ctx.clearMatches do
    placeOrder64 w env a.book order
    journOrder64 w env a.book order exec
    preparePosn env a
    prepareResp env a
    modify (Ctx.commitOrder64 w a order exec)

/-- A call as it is made: what it meets, its arguments, and the caller's response. -/
structure OrderCall where
  env : Env
  args : OrderArgs
  resp : Response

/-- One call of the machine, with any arguments: the state after it, whether it returns or
throws. -/
def OrderCall.Step64 (w : Arith) (s : Serv) (x : OrderCall) (s' : Serv) : Prop :=
  s' = ((createOrder64 w x.env x.args).final ⟨s, x.resp⟩).serv

/-- The service after a call on the machine. -/
def Serv.call64 (s : Serv) (env : Env) (a : OrderArgs) : Serv :=
  ((createOrder64 (Lib.wrap Lib.int64) env a).final ⟨s, {}⟩).serv

end Swirly
