import Swirly.Lib.Effect
import Swirly.Lib.Table
import Swirly.Elm.MarketBook
import Swirly.Fig.Response

/-!
# Swirly.Fig.Serv

The order service: markets, trader sessions, the vector of matches, and the
`createOrder` call that every order enters through.

Design points:

* **State and failure are explicit.** A call runs in `ServM`: it changes a `Ctx`
  and may throw an `Exn`, and what it did before throwing stays done. The scope
  guards of the source are `withFinally` and `onFailure`.
* **What the call does not control is its `Env`**: the business day calendar,
  which of the allocations it attempts succeed, and whether the journal accepts
  its executions. An allocation is named by the place that makes it.
* **The journal is part of the state.** `Serv.journ` is what the journal has
  accepted so far, so that the state and its log can be compared.
* **Markets and sessions are named by their mnemonics.** Both are tables of
  records that never move (`Lib.Table`).
-/

namespace Swirly

open Lib (Heap Table Effect)
open Lib.Effect (withFinally onFailure)

/-- `Match`: a fill that was found and is not committed yet. It names the maker by address, so
that what happens to the maker until the commit is seen there; it holds the two executions as they
go to the journal. -/
structure Match where
  lots : Int
  makerOrder : OrderPtr
  makerTrade : Exec
  makerPosn : PosnPtr
  takerTrade : Exec
  deriving DecidableEq

/-- `Serv::Impl`, as far as orders are concerned. The records that no order looks at (assets,
contracts, the index of emails) are in `Service`; the factory and the journal are in `Env`. -/
@[ext] structure Serv where
  /-- The orders, by address. -/
  heap : Heap Order
  markets : Table MarketBook.mnem
  traders : Table TraderSess.mnem
  /-- `matches`: the matches of the call in progress. -/
  matchVec : List Match
  /-- The executions that the journal has accepted, oldest first. -/
  journ : List Exec

/-- What a call reads and writes: the service and the caller's response. -/
structure Ctx where
  serv : Serv
  resp : Response

/-- The exceptions of `createOrder`, with what their messages are made of. An allocation may fail
at each `AllocSite`; the journal's own exception passes through unseen. -/
inductive Exn
  | marketClosed (contr : Mnem) (settlDate : Int)
  | invalidLots (lots : Int)
  | badAlloc
  /-- Whatever the journal threw. -/
  | journ
  deriving DecidableEq

/-- The characters of a mnemonic. -/
def Mnem.text (m : Mnem) : String := String.ofList (m.buf.map (fun b => Char.ofNat b))

/-- The message of an exception, as `errMsg` puts it together. The journal's message is the
journal's affair and is left out. -/
def Exn.what : Exn → String
  | marketClosed contr settlDate =>
      "market for '" ++ Mnem.text contr ++ "' in '" ++ toString settlDate ++ "' has expired"
  | invalidLots lots => "invalid lots '" ++ toString lots ++ "'"
  | badAlloc => "std::bad_alloc"
  | journ => ""

/-- The places where `createOrder` allocates. Those in the matching loop carry the
number of the iteration. -/
inductive AllocSite
  /-- `newOrder` for the taker. -/
  | order
  /-- `newExec` for the taker's new order. -/
  | exec
  /-- `lazyPosn` in a trader's session. -/
  | posn (trader : Mnem)
  /-- `newExec` for the maker of a match. -/
  | makerTrade (i : Nat)
  /-- `newExec` for the taker of a match. -/
  | takerTrade (i : Nat)
  /-- `matches.push_back`. -/
  | pushMatch (i : Nat)
  /-- A new level in `insertOrder`. -/
  | level
  /-- `reserveOrders`. -/
  | respOrders
  /-- `reserveExecs`. -/
  | respExecs
  deriving DecidableEq

/-- What a call meets and does not control. -/
structure Env where
  /-- `getBusDay`. -/
  getBusDay : Int → Int
  /-- Does an allocation succeed, when it is attempted? -/
  alloc : AllocSite → Bool
  /-- Does the journal accept the call's executions? -/
  journ : Bool

/-- The arguments of `createOrder`. -/
structure OrderArgs where
  sess : Mnem
  book : Mnem
  ref : List Byte
  side : Side
  lots : Int
  ticks : Int
  minLots : Int
  now : Int

/-- Calls of the service: they change the service and the response, and keep what they have done
when they throw. -/
abbrev ServM := Effect Exn Ctx

/-! ### State changes -/

namespace Serv

/-- Change a market's book in place. The change keeps the mnemonic, so the market stays where the
set has it. -/
def modifyBook (s : Serv) (m : Mnem) (f : MarketBook → MarketBook)
    (hf : ∀ b, (f b).mnem = b.mnem) : Serv :=
  { s with markets := s.markets.modify m f hf }

/-- Change a trader's session in place. The change keeps the mnemonic, so the session stays where
the set has it. -/
def modifySess (s : Serv) (u : Mnem) (f : TraderSess → TraderSess)
    (hf : ∀ t, (f t).mnem = t.mnem) : Serv :=
  { s with traders := s.traders.modify u f hf }

section Modify

variable (s : Serv) (k : Mnem) (f : MarketBook → MarketBook) (hf : ∀ b, (f b).mnem = b.mnem)
variable (g : TraderSess → TraderSess) (hg : ∀ t, (g t).mnem = t.mnem)

@[simp] theorem modifyBook_heap : (s.modifyBook k f hf).heap = s.heap := rfl
@[simp] theorem modifyBook_traders : (s.modifyBook k f hf).traders = s.traders := rfl
@[simp] theorem modifyBook_matchVec : (s.modifyBook k f hf).matchVec = s.matchVec := rfl
@[simp] theorem modifyBook_journ : (s.modifyBook k f hf).journ = s.journ := rfl
@[simp] theorem modifyBook_keys : (s.modifyBook k f hf).markets.keys = s.markets.keys := rfl

@[simp] theorem modifyBook_get_self :
    (s.modifyBook k f hf).markets.get k = f (s.markets.get k) :=
  Table.modify_get_self hf

theorem modifyBook_get_of_ne {s : Serv} {k k' : Mnem} {f : MarketBook → MarketBook}
    {hf : ∀ b, (f b).mnem = b.mnem} (hk : k' ≠ k) :
    (s.modifyBook k f hf).markets.get k' = s.markets.get k' :=
  Table.modify_get_of_ne hf hk

@[simp] theorem modifySess_heap : (s.modifySess k g hg).heap = s.heap := rfl
@[simp] theorem modifySess_markets : (s.modifySess k g hg).markets = s.markets := rfl
@[simp] theorem modifySess_matchVec : (s.modifySess k g hg).matchVec = s.matchVec := rfl
@[simp] theorem modifySess_journ : (s.modifySess k g hg).journ = s.journ := rfl
@[simp] theorem modifySess_keys : (s.modifySess k g hg).traders.keys = s.traders.keys := rfl

@[simp] theorem modifySess_get_self :
    (s.modifySess k g hg).traders.get k = g (s.traders.get k) :=
  Table.modify_get_self hg

theorem modifySess_get_of_ne {s : Serv} {k k' : Mnem} {g : TraderSess → TraderSess}
    {hg : ∀ t, (g t).mnem = t.mnem} (hk : k' ≠ k) :
    (s.modifySess k g hg).traders.get k' = s.traders.get k' :=
  Table.modify_get_of_ne hg hk

end Modify

/-- `MarketBook::allocOrderId` on a market of the service. An id is used up even if the call fails
later. -/
def allocOrderId (s : Serv) (m : Mnem) : Serv :=
  s.modifyBook m MarketBook.allocOrderId MarketBook.allocOrderId_mnem

/-- `MarketBook::allocExecId` on a market of the service. As with orders, a failed call gives no
id back. -/
def allocExecId (s : Serv) (m : Mnem) : Serv :=
  s.modifyBook m MarketBook.allocExecId MarketBook.allocExecId_mnem

/-- `TraderSess::lazyPosn` in a trader's session, when it does not throw: a position that is not
there yet is added with nothing in it. -/
def lazyPosn (s : Serv) (u contr : Mnem) (settlDay : Int) : Serv :=
  s.modifySess u (TraderSess.lazyPosn · contr settlDay) (TraderSess.lazyPosn_mnem contr settlDay)

/-- `matches.push_back`, when it does not throw. The vector belongs to the service and outlives
the call, which is why its end has to be guarded. -/
def pushMatch (s : Serv) (m : Match) : Serv := { s with matchVec := s.matchVec ++ [m] }

/-- `matches.clear`: no match is left, and nothing else changes. The capacity that the vector
keeps is not modelled. -/
def clearMatches (s : Serv) : Serv := { s with matchVec := [] }

/-- `MarketBook::insertOrder` on a market of the service: the order is linked into its side, and
its level is found or made. The order itself changes too, in its pointer to the level. -/
def insertOrder (s : Serv) (m : Mnem) (p : OrderPtr) : Serv :=
  { s.modifyBook m (fun b => (b.insertOrder s.heap p).2) (MarketBook.insertOrder_mnem s.heap p) with
    heap := ((s.markets.get m).insertOrder s.heap p).1 }

/-- `MarketBook::removeOrder` on a market of the service: what the guard of the journal call uses
to take an insertion back. -/
def removeOrder (s : Serv) (m : Mnem) (p : OrderPtr) : Serv :=
  { s.modifyBook m (fun b => (b.removeOrder s.heap p).2) (MarketBook.removeOrder_mnem s.heap p) with
    heap := ((s.markets.get m).removeOrder s.heap p).1 }

/-- `MarketBook::takeOrder` on a market of the service: the level and the order lose the lots, the
order leaves the side when nothing is left, and the market's last trade is this one. -/
def takeOrder (s : Serv) (m : Mnem) (p : OrderPtr) (lots now : Int) : Serv :=
  { s.modifyBook m (fun b => (b.takeOrder s.heap p lots now).2)
      (MarketBook.takeOrder_mnem s.heap p lots now) with
    heap := ((s.markets.get m).takeOrder s.heap p lots now).1 }

section Market

variable (s : Serv) (m : Mnem) (p : OrderPtr) (lots now : Int)

theorem insertOrder_get_self : (s.insertOrder m p).markets.get m =
    ((s.markets.get m).insertOrder s.heap p).2 :=
  Table.modify_get_self (MarketBook.insertOrder_mnem s.heap p)

theorem takeOrder_get_self : (s.takeOrder m p lots now).markets.get m =
    ((s.markets.get m).takeOrder s.heap p lots now).2 :=
  Table.modify_get_self (MarketBook.takeOrder_mnem s.heap p lots now)

variable {m} {m' : Mnem}

theorem insertOrder_get_of_ne (hm : m' ≠ m) :
    (s.insertOrder m p).markets.get m' = s.markets.get m' :=
  Table.modify_get_of_ne (MarketBook.insertOrder_mnem s.heap p) hm

theorem takeOrder_get_of_ne (hm : m' ≠ m) :
    (s.takeOrder m p lots now).markets.get m' = s.markets.get m' :=
  Table.modify_get_of_ne (MarketBook.takeOrder_mnem s.heap p lots now) hm

/-- A removal that gives heap and book back as they were undoes an insertion. -/
theorem removeOrder_insertOrder
    (hback : ((s.markets.get m).insertOrder s.heap p).2.removeOrder
      ((s.markets.get m).insertOrder s.heap p).1 p = (s.heap, s.markets.get m)) :
    (s.insertOrder m p).removeOrder m p = s := by
  have hget := s.insertOrder_get_self m p
  refine Serv.ext ?_ ?_ rfl rfl rfl
  · show (((s.insertOrder m p).markets.get m).removeOrder (s.insertOrder m p).heap p).1 = s.heap
    rw [hget]
    exact congrArg Prod.fst hback
  · refine (Table.modify_modify (MarketBook.insertOrder_mnem s.heap p)
      (MarketBook.removeOrder_mnem (s.insertOrder m p).heap p)).trans (Table.modify_eq_self _ ?_)
    exact congrArg Prod.snd hback

end Market

/-- `TraderSess::insertOrder` in a trader's session, with the order as it is in the heap at the
time: the entry has its market and id, and the index its contract and day. -/
def insertSessOrder (s : Serv) (u : Mnem) (p : OrderPtr) : Serv :=
  s.modifySess u (TraderSess.insertOrder · p (s.heap p)) (TraderSess.insertOrder_mnem p (s.heap p))

/-- `TraderSess::insertTrade` in a trader's session. Both sides of a match are inserted, so a
trader who trades with itself gets both. -/
def insertTrade (s : Serv) (u : Mnem) (trade : Exec) : Serv :=
  s.modifySess u (TraderSess.insertTrade · trade) (TraderSess.insertTrade_mnem trade)

/-- `Posn::addTrade` through a pointer. The pointer names the trader and the key, and the position
stays where its session has it. -/
def addTrade (s : Serv) (posn : PosnPtr) (trade : Exec) : Serv :=
  s.modifySess posn.trader (TraderSess.addTrade · posn.key trade)
    (TraderSess.addTrade_mnem posn.key trade)

end Serv

/-- Change the service and leave the response as it is. Nothing is thrown. -/
def modifyServ (f : Serv → Serv) : ServM Unit := modify (fun c => { c with serv := f c.serv })

/-- Change the response and leave the service as it is. Nothing is thrown. -/
def modifyResp (f : Response → Response) : ServM Unit :=
  modify (fun c => { c with resp := f c.resp })

/-- Attempt an allocation. It changes nothing when it succeeds: what is allocated is put in its
place by the step that follows. -/
def allocate (env : Env) (site : AllocSite) : ServM Unit :=
  if env.alloc site then pure () else throw .badAlloc

/-- `MarketBook::allocOrderId`, returning the id that was allocated: one more than the last. -/
def allocOrderId (m : Mnem) : ServM Int := do
  modifyServ (Serv.allocOrderId · m)
  return ((← get).serv.markets.get m).maxOrderId

/-- `MarketBook::allocExecId`, returning the id that was allocated: one more than the last. -/
def allocExecId (m : Mnem) : ServM Int := do
  modifyServ (Serv.allocExecId · m)
  return ((← get).serv.markets.get m).maxExecId

/-- `TraderSess::lazyPosn`: it allocates only where the session has no position for the contract
and the day, and gives the position's address in any case. -/
def lazyPosn (env : Env) (trader contr : Mnem) (settlDay : Int) : ServM PosnPtr := do
  if !((← get).serv.traders.get trader).hasPosn contr settlDay then
    allocate env (.posn trader)
  modifyServ (Serv.lazyPosn · trader contr settlDay)
  return ⟨trader, contr, settlDay⟩

/-! ### Matching -/

/-- `spread`: how far the maker's price is from crossing the taker's. It is the exact difference
here; the 64-bit one, which may wrap, is `spread64`. -/
def spread (takerOrder makerOrder : Order) (direct : Direct) : Int :=
  if direct = .paid then makerOrder.ticks - takerOrder.ticks
  else takerOrder.ticks - makerOrder.ticks

/-- The running sums of the matching loop. They are written to the taker at the end, and to each
of its executions on the way. -/
structure Sums where
  sumLots : Int := 0
  sumCost : Int := 0
  lastLots : Int := 0
  lastTicks : Int := 0
  deriving DecidableEq

/-- Add one fill: its lots and its cost to the sums, and its lots and price as the last ones. The
sums are exact here, and those of `Sums.add64` may wrap. -/
def Sums.add (a : Sums) (lots ticks : Int) : Sums :=
  { sumLots := a.sumLots + lots, sumCost := a.sumCost + cost lots ticks, lastLots := lots,
    lastTicks := ticks }

/-- The taker's trade of everything matched, at once and at the end. The makers are left as they
are until the commit phase. -/
def Serv.tradeTaker (s : Serv) (takerOrder : OrderPtr) (sums : Sums) (now : Int) : Serv :=
  { s with heap := s.heap.modify takerOrder
             (Order.trade · sums.sumLots sums.sumCost sums.lastLots sums.lastTicks now) }

/-- `newMatch`, in iteration `i` of the loop. It takes two execution ids, finds or makes the
maker's position, and makes the two executions, from orders that have not been changed. -/
def newMatch (env : Env) (i : Nat) (book : Mnem) (takerOrder makerOrder : OrderPtr)
    (lots sumLots sumCost now : Int) : ServM Match := do
  let makerId ← allocExecId book
  let takerId ← allocExecId book
  let s := (← get).serv
  let maker := s.heap makerOrder
  let taker := s.heap takerOrder
  let b := s.markets.get book
  let makerPosn ← lazyPosn env maker.trader b.contr b.settlDay
  let ticks := maker.ticks
  allocate env (.makerTrade i)
  let makerTrade :=
    (newExec maker makerId now).tradeLast lots ticks takerId .maker taker.trader
  allocate env (.takerTrade i)
  let takerTrade :=
    (newExec taker takerId now).trade sumLots sumCost lots ticks makerId .taker maker.trader
  return { lots, makerOrder, makerTrade, makerPosn, takerTrade }

/-- The loop of `matchOrders`, entering iteration `i` with the orders still to be seen. -/
def matchLoop (env : Env) (book : Mnem) (takerOrder : OrderPtr) (direct : Direct) (now : Int) :
    Nat → List OrderPtr → Sums → ServM Sums
  | _, [], sums => return sums
  | i, makerOrder :: orders, sums => do
      let h := (← get).serv.heap
      -- Break if order is fully filled.
      if sums.sumLots = (h takerOrder).resd then return sums
      -- Only consider orders while prices cross.
      else if 0 < spread (h takerOrder) (h makerOrder) direct then return sums
      else
        let lots := min ((h takerOrder).resd - sums.sumLots) (h makerOrder).resd
        let sums := sums.add lots (h makerOrder).ticks
        let m ← newMatch env i book takerOrder makerOrder lots sums.sumLots sums.sumCost now
        allocate env (.pushMatch i)
        modifyServ (Serv.pushMatch · m)
        matchLoop env book takerOrder direct now (i + 1) orders sums

/-- `matchOrders` against one side: the side is gone through from its best order, and the taker
trades when there is a match in the vector, whoever has put it there. -/
def matchSide (env : Env) (book : Mnem) (takerOrder : OrderPtr) (side : Side) (direct : Direct)
    (now : Int) : ServM Unit := do
  let orders := (((← get).serv.markets.get book).side side).orders
  let sums ← matchLoop env book takerOrder direct now 0 orders {}
  if (← get).serv.matchVec ≠ [] then
    modifyServ (Serv.tradeTaker · takerOrder sums now)

/-- The aggressor's direction, as `matchOrders` passes it along with the side to match against. -/
def Side.direct : Side → Direct
  -- Paid when the taker lifts the offer.
  | .buy => .paid
  -- Given when the taker hits the bid.
  | .sell => .given

/-- `matchOrders`: a bid is matched against the offers and an offer against the bids. It changes
the taker, the ids and the positions, and no maker. -/
def matchOrders (env : Env) (book : Mnem) (takerOrder : OrderPtr) (now : Int) : ServM Unit := do
  let side := ((← get).serv.heap takerOrder).side
  matchSide env book takerOrder side.opposite side.direct now

/-! ### Committing -/

namespace Ctx

/-- The scope guard of `createOrder`, which is made after the matching and so does not stand while
it runs. -/
def clearMatches (c : Ctx) : Ctx := { c with serv := c.serv.clearMatches }

/-- `Response::takeOrder`, on the book that the response was given in the preparation. Without a
book the source would follow a null pointer; the model does nothing. -/
def takeOrder (c : Ctx) (order : OrderPtr) (lots now : Int) : Ctx :=
  match c.resp.book with
  | some m => { c with serv := c.serv.takeOrder m order lots now }
  | none => c

/-- `Response::addTrade`, on the position that the response was given in the preparation. There is
one whenever there is a match; without one the model does nothing. -/
def addTrade (c : Ctx) (trade : Exec) : Ctx :=
  match c.resp.posn with
  | some posn => { c with serv := c.serv.addTrade posn trade }
  | none => c

/-- One iteration of `commitMatches`: the maker gives up the lots, both executions go to their
sessions and positions, and the response is told the caller's part. It does not throw, given the
response's capacity. -/
def commitMatch (takerSess : Mnem) (now : Int) (c : Ctx) (m : Match) : Ctx :=
  -- Reduce maker.
  let c := c.takeOrder m.makerOrder m.lots now
  let trader := (c.serv.heap m.makerOrder).trader
  -- Update maker.
  let c :=
    { c with serv := (c.serv.insertTrade trader m.makerTrade).addTrade m.makerPosn m.makerTrade }
  -- Update taker.
  let c := { c with serv := c.serv.insertTrade takerSess m.takerTrade }
  let c := c.addTrade m.takerTrade
  -- Insert order if trade crossed with self.
  let resp :=
    if trader = (c.serv.traders.get takerSess).mnem then
      (c.resp.insertOrder m.makerOrder).insertExec m.makerTrade
    else c.resp
  { c with resp := resp.insertExec m.takerTrade }

/-- `commitMatches`: all matches in the vector, in the order they were made. Whatever is in it is
committed, also a match that an earlier call has left. -/
def commitMatches (takerSess : Mnem) (now : Int) (c : Ctx) : Ctx :=
  c.serv.matchVec.foldl (commitMatch takerSess now) c

/-- The commit phase of `createOrder`. It is a function of the state and throws nothing: the room
for what it inserts was made before, and the sets link what exists already. -/
def commitOrder (a : OrderArgs) (order : OrderPtr) (exec : Exec) (c : Ctx) : Ctx :=
  let c := { serv := c.serv.insertSessOrder a.sess order
             resp := (c.resp.insertOrder order).insertExec exec }
  if c.serv.matchVec ≠ [] then c.commitMatches a.sess a.now else c

end Ctx

/-! ### Creating an order -/

/-- The checks of `createOrder`, in their order. They look at the expiry day of the market and at
two of the quantities; ticks, a negative minimum and the size of anything are not looked at. -/
def checkOrder (env : Env) (a : OrderArgs) : ServM Unit := do
  let b := (← get).serv.markets.get a.book
  if b.expiryDay ≠ 0 ∧ b.expiryDay < env.getBusDay a.now then
    throw (.marketClosed b.contr (maybeJdToIso b.settlDay))
  else if a.lots = 0 ∨ a.lots < a.minLots then
    throw (.invalidLots a.lots)
  else return

/-- The new order and its new execution. The order is in the heap from here on, and in no book and
in no session yet. -/
def openOrder (env : Env) (a : OrderArgs) : ServM (OrderPtr × Exec) := do
  let orderId ← allocOrderId a.book
  let s := (← get).serv
  let b := s.markets.get a.book
  allocate env .order
  let order := s.heap.next
  let o := newOrder (s.traders.get a.sess).mnem b.mnem b.contr b.settlDay orderId a.ref a.side
    a.lots a.ticks a.minLots a.now
  modifyServ (fun s => { s with heap := s.heap.alloc o })
  let execId ← allocExecId a.book
  allocate env .exec
  return (order, newExec o execId a.now)

/-- Place incomplete order in market. A new level is the only thing that this allocates; an order
that was filled at once does not enter the book. -/
def placeOrder (env : Env) (book : Mnem) (order : OrderPtr) : ServM Unit := do
  let s := (← get).serv
  let o := s.heap order
  if o.done then return
  else
    if (((s.markets.get book).side o.side).levels.find? o.key).isNone then
      allocate env .level
    modifyServ (Serv.insertOrder · book order)

/-- The executions handed to the journal: the new execution plus two for each match. -/
def journExecs (exec : Exec) (ms : List Match) : List Exec :=
  exec :: ms.flatMap (fun m => [m.makerTrade, m.takerTrade])

/-- `journ.createExec`, with the guard that undoes the market insertion. The journal takes all
executions of the call or throws; whatever it throws, the guard runs. -/
def journOrder (env : Env) (book : Mnem) (order : OrderPtr) (exec : Exec) : ServM Unit :=
  onFailure (fun c =>
      if (c.serv.heap order).done then c
      else { c with serv := c.serv.removeOrder book order })
    (if env.journ then
      modifyServ (fun s => { s with journ := s.journ ++ journExecs exec s.matchVec })
    else throw .journ)

/-- `Response::reserveOrders`: it allocates only if the vector has less room, and counts from the
start of the vector, not from its end. -/
def reserveOrders (env : Env) (capacity : Nat) : ServM Unit := do
  if (← get).resp.ordersCapacity < capacity then allocate env .respOrders
  modifyResp (Response.reserveOrders · capacity)

/-- `Response::reserveExecs`: it allocates only if the vector has less room, and counts from the
start of the vector, not from its end. -/
def reserveExecs (env : Env) (capacity : Nat) : ServM Unit := do
  if (← get).resp.execsCapacity < capacity then allocate env .respExecs
  modifyResp (Response.reserveExecs · capacity)

/-- The taker's position, before the commit phase because this may fail. -/
def preparePosn (env : Env) (a : OrderArgs) : ServM Unit := do
  let s := (← get).serv
  let b := s.markets.get a.book
  -- Avoid allocating position when there are no matches.
  if s.matchVec ≠ [] then
    let posn ← lazyPosn env a.sess b.contr b.settlDay
    modifyResp (Response.setPosn · posn)

/-- The response, with room for what the commit phase will insert. -/
def prepareResp (env : Env) (a : OrderArgs) : ServM Unit := do
  let n := (← get).serv.matchVec.length
  modifyResp (Response.setBook · a.book)
  -- New order plus updated order for each match assuming crossed with self.
  reserveOrders env (1 + n)
  -- New execution plus 2 trade executions for each match assuming crossed with self.
  reserveExecs env (1 + 2 * n)

/-- `createOrder`: check, open, match, place, journal, prepare, commit. What has happened stays
done when a step throws, but for what the two guards undo. Quantities are exact integers here;
`createOrder64` is the same text over 64-bit arithmetic. -/
def createOrder (env : Env) (a : OrderArgs) : ServM Unit := do
  checkOrder env a
  let (order, exec) ← openOrder env a
  matchOrders env a.book order a.now
  -- Ensure that matches are cleared when scope exits.
  withFinally Ctx.clearMatches do
    placeOrder env a.book order
    journOrder env a.book order exec
    preparePosn env a
    prepareResp env a
    modify (Ctx.commitOrder a order exec)

end Swirly
