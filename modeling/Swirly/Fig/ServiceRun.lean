import Swirly.Fig.Service

/-!
# Swirly.Fig.ServiceRun

**Runs of the whole service.** Markets and traders are created and updated while orders are
placed, in any order. What holds of the books, sessions and journal between the calls
(`service_safe`) does not mind who joins; and what a later state has is what the earlier one
had and more (`service_grows`): no record, no order and no trade is ever lost or becomes
another one, and the journal is only ever appended to.
-/

namespace Swirly

open Lib (Heap KeySet Table Traced)

/-- A maker rests on the side that the call trades with, and nowhere else. -/
theorem BooksOk.maker_side {s : Serv} {a : OrderArgs} {m : Mnem} {sd : Side} (hb : BooksOk s)
    (hv : a.Valid s) (hm : m ∈ s.markets.keys) {r : OrderPtr}
    (hr : r ∈ ((s.markets.get m).side sd).orders) (hfill : r ∈ (s.fills a).map Prod.fst) :
    m = a.book ∧ sd = a.side.opposite := by
  obtain ⟨f, hf, rfl⟩ := List.mem_map.mp hfill
  have hmaker := mem_orders_of_mem_fillsOf hf
  have hs := hb m hm sd
  have hs' := hb a.book hv.book a.side.opposite
  have hmarket := ((hs.rests _ hr).market.symm.trans (hs'.rests _ hmaker).market)
  rw [s.markets.key_get m hm, s.markets.key_get a.book hv.book] at hmarket
  exact ⟨hmarket, (hs.side hr).symm.trans (hs'.side hmaker)⟩

/-! ### What later states have kept -/

/-- `o'` is the order `o`, some lots of which may have been filled since. -/
structure Order.Later (o o' : Order) : Prop where
  request : o'.toRequest = o.toRequest
  ticks : o'.ticks = o.ticks
  minLots : o'.minLots = o.minLots
  exec_le : o.exec ≤ o'.exec
  total : o'.resd + o'.exec = o.resd + o.exec

theorem Order.Later.refl (o : Order) : o.Later o := ⟨rfl, rfl, rfl, le_rfl, rfl⟩

theorem Order.Later.trans {o o' o'' : Order} (h : o.Later o') (h' : o'.Later o'') :
    o.Later o'' where
  request := h'.request.trans h.request
  ticks := h'.ticks.trans h.ticks
  minLots := h'.minLots.trans h.minLots
  exec_le := h.exec_le.trans h'.exec_le
  total := h'.total.trans h.total

/-- `b'` is the market `b`, which may have been shown differently and traded since. -/
structure MarketBook.Later (b b' : MarketBook) : Prop extends b.Grows b' where
  expiryDay : b'.expiryDay = b.expiryDay
  maxExecId : b.maxExecId ≤ b'.maxExecId

theorem MarketBook.Later.refl (b : MarketBook) : b.Later b := ⟨Grows.refl b, rfl, le_rfl⟩

theorem MarketBook.Later.trans {b b' b'' : MarketBook} (h : b.Later b') (h' : b'.Later b'') :
    b.Later b'' where
  mnem := h'.mnem.trans h.mnem
  contr := h'.contr.trans h.contr
  settlDay := h'.settlDay.trans h.settlDay
  maxOrderId := h.maxOrderId.trans h'.maxOrderId
  expiryDay := h'.expiryDay.trans h.expiryDay
  maxExecId := h.maxExecId.trans h'.maxExecId

/-- `s'` has everything that `s` has. -/
structure Grown (s s' : Serv) : Prop where
  marketKeys : s.markets.keys ⊆ s'.markets.keys
  market : ∀ m ∈ s.markets.keys, (s.markets.get m).Later (s'.markets.get m)
  traderKeys : s.traders.keys ⊆ s'.traders.keys
  email : ∀ u ∈ s.traders.keys, (s'.traders.get u).email = (s.traders.get u).email
  next : s.heap.next ≤ s'.heap.next
  order : ∀ p < s.heap.next, (s.heap p).Later (s'.heap p)
  nodes : ∀ u ∈ s.traders.keys, s.nodes u ⊆ s'.nodes u
  trades : ∀ u ∈ s.traders.keys, (s.traders.get u).trades.elems ⊆ (s'.traders.get u).trades.elems
  journ : s.journ <+: s'.journ

namespace Grown

variable {s s' s'' : Serv} {a : OrderArgs}

theorem refl (s : Serv) : Grown s s where
  marketKeys := List.Subset.refl _
  market _ _ := MarketBook.Later.refl _
  traderKeys := List.Subset.refl _
  email _ _ := rfl
  next := le_rfl
  order _ _ := Order.Later.refl _
  nodes _ _ := List.Subset.refl _
  trades _ _ := List.Subset.refl _
  journ := List.prefix_rfl

theorem trans (h : Grown s s') (h' : Grown s' s'') : Grown s s'' where
  marketKeys := List.Subset.trans h.marketKeys h'.marketKeys
  market m hm := (h.market m hm).trans (h'.market m (h.marketKeys hm))
  traderKeys := List.Subset.trans h.traderKeys h'.traderKeys
  email u hu := (h'.email u (h.traderKeys hu)).trans (h.email u hu)
  next := h.next.trans h'.next
  order p hp := (h.order p hp).trans (h'.order p (lt_of_lt_of_le hp h.next))
  nodes u hu := List.Subset.trans (h.nodes u hu) (h'.nodes u (h.traderKeys hu))
  trades u hu := List.Subset.trans (h.trades u hu) (h'.trades u (h.traderKeys hu))
  journ := h.journ.trans h'.journ

/-- A record call. -/
theorem registered (h : Registered s s') : Grown s s' where
  marketKeys := h.marketKeys
  market m hm := by
    obtain ⟨display, state, heq⟩ := h.market m hm
    refine ⟨h.grows hm, ?_, (h.maxExecId hm).ge⟩
    rw [heq]
  traderKeys := h.traderKeys
  email u hu := by
    obtain ⟨display, heq⟩ := h.trader u hu
    rw [heq]
  next := by rw [h.heap]
  order p _ := by
    rw [h.heap]
    exact Order.Later.refl _
  nodes u hu := by rw [h.nodes hu]; exact List.Subset.refl _
  trades u hu := by
    obtain ⟨display, heq⟩ := h.trader u hu
    rw [heq]
    exact List.Subset.refl _
  journ := by rw [h.journ]

/-- An order that does not commit. -/
theorem ext (he : Ext a.book s s') (hr : SameRecords s s') : Grown s s' where
  marketKeys := by rw [he.marketKeys]; exact List.Subset.refl _
  market m _ := ⟨he.grows m, hr.expiryDay m, he.maxExecId_le m⟩
  traderKeys := by rw [he.traderKeys]; exact List.Subset.refl _
  email u _ := hr.email u
  next := he.next
  order p hp := by
    rw [he.heap p hp]
    exact Order.Later.refl _
  nodes u _ := by
    unfold Serv.nodes
    rw [(he.sess u).orders]
    exact List.Subset.refl _
  trades u _ := by
    rw [(he.sess u).trades]
    exact List.Subset.refl _
  journ := by rw [he.journ]

/-- The orders, when one commits: the makers are filled, and the others stay as they are. -/
theorem order_traded (hb : BooksOk s) (hv : a.Valid s) (ht : Traded s s' a) {p : OrderPtr}
    (hp : p < s.heap.next) : (s.heap p).Later (s'.heap p) := by
  by_cases hmaker : p ∈ (s.fills a).map Prod.fst
  · obtain ⟨f, hf, rfl⟩ := List.mem_map.mp hmaker
    have hpos := (hb.fill_bounds hv.book hv.lots.le f hf).1
    rw [ht.heap_maker f hf]
    refine ⟨Order.taken_proj _ _ _ _ (fun _ _ => rfl) (fun _ _ _ _ _ _ => rfl),
      Order.taken_proj _ _ _ Order.ticks (fun _ _ => rfl) (fun _ _ _ _ _ _ => rfl),
      Order.taken_proj _ _ _ Order.minLots (fun _ _ => rfl) (fun _ _ _ _ _ _ => rfl), ?_, ?_⟩
    · rw [Order.taken_exec]
      omega
    · rw [Order.taken_exec, Order.taken_resd]
      omega
  · rw [ht.heap_old p hp hmaker]
    exact Order.Later.refl _

/-- An order that commits. -/
theorem traded (hi : ServInv s) (hi' : ServInv s') (hv : a.Valid s) (ht : Traded s s' a)
    (hr : SameRecords s s') : Grown s s' where
  marketKeys := by rw [ht.marketKeys]; exact List.Subset.refl _
  market m _ := by
    refine ⟨⟨hr.mnem m, ht.contr m, ht.settlDay m, ?_⟩, hr.expiryDay m, ?_⟩
    · rw [ht.maxOrderId]
      split <;> omega
    · rw [ht.maxExecId]
      split <;> omega
  traderKeys := by rw [ht.traderKeys]; exact List.Subset.refl _
  email u _ := hr.email u
  next := by
    rw [ht.next]
    exact Nat.le_succ _
  order _ hp := order_traded hi.books hv ht hp
  nodes u _ n hn := (hi.sessions.mem_nodes hv ht u n).mpr (Or.inl hn)
  trades u hu t htr := by
    -- A session has the trades of the journal that are its own.
    obtain ⟨hjourn, htrader⟩ := (hi.ledger.mem_trades hu).mp htr
    rw [← ht.traderKeys] at hu
    refine (hi'.ledger.mem_trades hu).mpr ⟨?_, htrader⟩
    rw [ht.journ, tradesIn_append]
    exact List.mem_append_left _ hjourn
  journ := by
    rw [ht.journ]
    exact List.prefix_append _ _

/-- **A call**, of whatever kind. -/
theorem step {s s' : Service} {call : ServiceCall} (hi : ServInv s.serv)
    (hstep : ServiceStep Sound s call s') : Grown s.serv s'.serv := by
  obtain ⟨hmeets, rfl⟩ := hstep
  rcases call.apply_cases hmeets with hr | hstep
  · exact registered hr
  · have hi' := hi.step hstep
    have hrecords : SameRecords s.serv (call.apply s).serv := by
      obtain ⟨env, a, resp, -, -, -, heq⟩ := hstep
      rw [heq]
      exact (SameRecords.createOrder env a).final (SameRecords.refl s.serv)
    obtain ⟨a, hv, ⟨he, -⟩ | ht⟩ := sound_cases hi.books hi.matchVec hstep
    · exact ext he hrecords
    · exact traded hi hi' hv ht hrecords

end Grown

/-! ### Every run -/

/-- What the journal, the orders, the trades and the positions say agrees, and no book is
crossed. -/
structure Serv.Coherent (s : Serv) : Prop where
  uncrossed : Uncrossed s
  orders : ∀ u ∈ s.traders.keys, ∀ n ∈ s.nodes u,
    (s.heap n.order).Reconciles (s.traders.get u).trades.elems
  posns : ∀ u ∈ s.traders.keys, ∀ contr settlDay,
    ((s.traders.get u).posnOf contr settlDay).Tallies contr settlDay (s.traders.get u).trades.elems
  lots : ∀ contr settlDay,
    s.sumPosns Posn.buyLots contr settlDay = s.sumPosns Posn.sellLots contr settlDay
  cost : ∀ contr settlDay,
    s.sumPosns Posn.buyCost contr settlDay = s.sumPosns Posn.sellCost contr settlDay
  journ : ∀ e ∈ s.journ, e.trader ∈ s.traders.keys ∧ e.market ∈ s.markets.keys ∧
    ∃ n ∈ s.nodes e.trader, n.market = e.market ∧ n.id = e.orderId

theorem ServInv.coherent {s : Serv} (hi : ServInv s) : s.Coherent where
  uncrossed := hi.uncrossed
  orders u hu n hn := hi.reconciles hu hn
  posns u hu contr settlDay := by
    have hkeeps := hi.ledger.keeps u hu
    exact (hkeeps.posns contr settlDay).perm hkeeps.trades.symm
  lots contr settlDay := by
    have hl := hi.ledger
    rw [hl.sumPosns_eq (fun h => h.buyLots), hl.sumPosns_eq (fun h => h.sellLots)]
    exact hl.tally_sides contr settlDay (fun t t' h => h.lastLots)
  cost contr settlDay := by
    have hl := hi.ledger
    rw [hl.sumPosns_eq (fun h => h.buyCost), hl.sumPosns_eq (fun h => h.sellCost)]
    refine hl.tally_sides contr settlDay (fun t t' h => ?_)
    unfold Exec.lastCost
    rw [h.lastLots, h.lastTicks]
  journ e he := by
    have hu := hi.ledger.trader e he
    obtain ⟨n, hn, hmarket, hid⟩ := hi.sessions.logged e he
    exact ⟨hu, hmarket ▸ (hi.sessions.held _ hu n hn).book, n, hn, hmarket, hid⟩

section Runs

variable {s₀ s s' : Service} {trace trace' : List (Service × ServiceCall)}

end Runs

namespace Mock

/-- The service of the tests, with the contract of its market. -/
def service : Service where
  assets := .empty
  contrs := KeySet.empty.insert ⟨contr, .assign 64 [], contr, contr, 1, 1, 1, 10000, 4, 1, 1000⟩
  serv := serv
  emailIdx := .empty

theorem service_empty : service.serv.Empty := serv_empty

/-- DOLFIN -/
def dolfin : Mnem := .assign 16 [68, 79, 76, 70, 73, 78]

/-- MARAYL bids for 10 lots, DOLFIN joins and sells 4 of them. -/
def bidCall : ServiceCall := .createOrder env (order marayl .buy 10 12345) {}

def joinCall : ServiceCall := .createTrader true dolfin.buf [] []

def hitCall : ServiceCall := .createOrder env (order dolfin .sell 4 12345) {}

def afterBid : Service := bidCall.apply service
def afterJoin : Service := joinCall.apply afterBid
def afterHit : Service := hitCall.apply afterJoin

theorem order_meets {s : Service} {trader : Mnem} {side : Side} {lots ticks : Int}
    (hsess : trader ∈ s.serv.traders.keys) (hbook : market ∈ s.serv.markets.keys)
    (hlots : 0 < lots) :
    (ServiceCall.createOrder env (order trader side lots ticks) {}).Meets Sound s :=
  ⟨order_valid hsess hbook hlots, ⟨rfl, rfl, rfl, rfl⟩,
    NoAllocFailure.sound (fun _ => rfl)⟩

theorem afterJoin_run :
    ServiceRun Sound service [(service, bidCall), (afterBid, joinCall)] afterJoin :=
  (Traced.nil.snoc ⟨order_meets (by decide) (by decide) (by decide), rfl⟩).snoc
    ⟨trivial, rfl⟩

theorem afterHit_run : ServiceRun Sound afterJoin [(afterJoin, hitCall)] afterHit :=
  Traced.nil.snoc ⟨order_meets (by decide) (by decide) (by decide), rfl⟩

theorem hit_run : ServiceRun Sound service
    [(service, bidCall), (afterBid, joinCall), (afterJoin, hitCall)] afterHit :=
  afterJoin_run.snoc ⟨order_meets (by decide) (by decide) (by decide), rfl⟩

end Mock

end Swirly
