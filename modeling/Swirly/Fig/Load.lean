import Swirly.Fig.Run

/-!
# Swirly.Fig.Load

**How a service starts.** `Serv.load` is the service that the constructor makes of the
markets and traders of a model, and `Serv.load_empty` says that every run may start from
it when the records are as the factory makes them. `Mock.serv` is the service of the
source's own test fixture; the later modules run their examples on it.
-/

namespace Swirly

open Lib (Heap KeySet Table)
open Lib.Effect

/-- `ServFactory::newMarket`, when it does not throw: a market with no orders in it. What it
traded last and the ids it has given out come with it. -/
def newMarket (mnem : Mnem) (display : Display) (contr : Mnem) (settlDay expiryDay : Int)
    (state : Nat) (lastLots lastTicks lastTime maxOrderId maxExecId : Int) : MarketBook :=
  { mnem, display, contr, settlDay, expiryDay, state, lastLots, lastTicks, lastTime,
    bidSide := .empty, offerSide := .empty, maxOrderId, maxExecId }

/-- `ServFactory::newTrader`, when it does not throw: a trader with nothing in the session. -/
def newTrader (mnem : Mnem) (display : Display) (email : Email) : TraderSess :=
  { mnem, display, email, orders := .empty, trades := .empty, posns := .empty, refIdx := .empty }

/-- The constructor of `Serv`: the markets and traders that a model has, and no orders. -/
def Serv.load (markets : List MarketBook) (traders : List TraderSess)
    (hm : (markets.map MarketBook.mnem).Nodup) (ht : (traders.map TraderSess.mnem).Nodup) :
    Serv where
  heap := ⟨fun _ => default, 0⟩
  markets := .ofList markets
    (newMarket (.assign 16 []) (.assign 64 []) (.assign 16 []) 0 0 0 0 0 0 0 0) hm
  traders := .ofList traders (newTrader (.assign 16 []) (.assign 64 []) (.assign 64 [])) ht
  matchVec := []
  journ := []

theorem Serv.load_empty {markets : List MarketBook} {traders : List TraderSess}
    {hm : (markets.map MarketBook.mnem).Nodup} {ht : (traders.map TraderSess.mnem).Nodup}
    (hmarkets : ∀ b ∈ markets, b.bidSide = .empty ∧ b.offerSide = .empty)
    (htraders : ∀ u ∈ traders, u.orders = .empty ∧ u.trades = .empty ∧ u.posns = .empty) :
    (Serv.load markets traders hm ht).Empty where
  side m hmem sd := by
    obtain ⟨hbid, hoffer⟩ := hmarkets _ (Table.ofList_get_mem hmem)
    cases sd with
    | buy => exact hbid
    | sell => exact hoffer
  matchVec := rfl
  orders _ hu := (htraders _ (Table.ofList_get_mem hu)).1
  trades _ hu := (htraders _ (Table.ofList_get_mem hu)).2.1
  posns _ hu := (htraders _ (Table.ofList_get_mem hu)).2.2
  journ := rfl

/-- The service after a call with a new response. -/
def Serv.call (s : Serv) (env : Env) (a : OrderArgs) : Serv :=
  ((createOrder env a).final ⟨s, {}⟩).serv

/-- A run goes on with a call. -/
theorem Run.call {P : CallCond} {s₀ s : Serv} (hrun : Run P s₀ s) {env : Env} {a : OrderArgs}
    (hv : a.Valid s) (hP : P env s a {}) : Run P s₀ (s.call env a) :=
  hrun.tail ⟨env, a, {}, hv, ⟨rfl, rfl, rfl, rfl⟩, hP, rfl⟩

/-! ### The service of the tests -/

namespace Mock

/-- EURUSD.MAR14 -/
def market : Mnem := .assign 16 [69, 85, 82, 85, 83, 68, 46, 77, 65, 82, 49, 52]

/-- EURUSD -/
def contr : Mnem := .assign 16 [69, 85, 82, 85, 83, 68]

/-- MARAYL -/
def marayl : Mnem := .assign 16 [77, 65, 82, 65, 89, 76]

/-- SWIRLY -/
def swirly : Mnem := .assign 16 [83, 87, 73, 82, 76, 89]

/-- One market, which settles two days after today, and two traders. -/
def serv : Serv :=
  .load
    [newMarket market (.assign 64 []) contr 2456730 2456729 1 0 0 0 0 0]
    [newTrader marayl (.assign 64 []) (.assign 64 []),
      newTrader swirly (.assign 64 []) (.assign 64 [])]
    (by decide) (by decide)

theorem serv_empty : serv.Empty := Serv.load_empty (by simp [newMarket]) (by simp [newTrader])

/-- Today, with memory and a journal that accepts everything. -/
def env : Env := ⟨fun _ => 2456728, fun _ => true, true⟩

/-- An order of a trader. -/
def order (trader : Mnem) (side : Side) (lots ticks : Int) : OrderArgs :=
  ⟨trader, market, [], side, lots, ticks, 1, 0⟩

theorem order_valid {s : Serv} {trader : Mnem} {side : Side} {lots ticks : Int}
    (hsess : trader ∈ s.traders.keys) (hbook : market ∈ s.markets.keys) (hlots : 0 < lots) :
    (order trader side lots ticks).Valid s :=
  ⟨hsess, hbook, hlots⟩

/-- MARAYL bids for 10 lots. -/
def bid : Serv := serv.call env (order marayl .buy 10 12345)

/-- SWIRLY sells 4 of them. -/
def trade : Serv := bid.call env (order swirly .sell 4 12344)

/-- SWIRLY offers 3 lots at a higher price. -/
def offer : Serv := trade.call env (order swirly .sell 3 12350)

theorem offer_run : Run NoAllocFailure serv offer := by
  have hbid : Run NoAllocFailure serv bid :=
    Run.call .refl (order_valid (by decide) (by decide) (by decide)) (fun _ => rfl)
  have htrade : Run NoAllocFailure serv trade :=
    hbid.call (order_valid (by decide) (by decide) (by decide)) (fun _ => rfl)
  exact htrade.call (order_valid (by decide) (by decide) (by decide)) (fun _ => rfl)

theorem offer_sound : Run Sound serv offer := Run.mono (fun _ _ _ _ h => h.sound) offer_run

theorem offer_noStrand : Run NoStrand serv offer := Run.mono (fun _ _ _ _ h => h.1) offer_sound

end Mock

end Swirly
