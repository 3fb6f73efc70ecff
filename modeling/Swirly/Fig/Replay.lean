import Swirly.Lib.Exchange
import Swirly.Fig.ServiceRun

/-!
# Swirly.Fig.Replay

**The service is a plain exchange.** The books are kept in levels and lists that are linked
through the orders, and brought up to date order by order and fill by fill. In every state that
a run of the service reaches, the orders that rest and the trades in the journal are what a plain
exchange (`Lib.Exchange`) makes of the new orders in the journal, taken one after the other
(`exchange_refines`). So the new orders alone decide on everything that is traded.

A call that commits is one step of the exchange (`Traded.shows`); a call that fails, and one
about the records, is none.
-/

namespace Swirly

open Lib (Heap)
open Lib.Exchange

/-! ### What the exchange is about -/

/-- Whose order it is, and which of the trader's. -/
structure OrderTag where
  trader : Mnem
  id : Int
  ref : Ref
  deriving DecidableEq

/-- A bid is as good as one that is lower, and an offer as one that is higher. -/
def sides : Sides Side Int where
  opposite := Side.opposite
  good
    | .buy, p, q => q ≤ p
    | .sell, p, q => p ≤ q

/-- What is left of an order. -/
def Order.quoted (o : Order) : Quote OrderTag Int Int := ⟨⟨o.trader, o.id, o.ref⟩, o.ticks, o.resd⟩

/-- The quotes that rest on a side, the best one first. -/
def Serv.quotes (s : Serv) (m : Mnem) (sd : Side) : List (Quote OrderTag Int Int) :=
  ((s.markets.get m).side sd).orders.map (fun p => (s.heap p).quoted)

/-- What the order of an execution asked for. -/
def Exec.asked (e : Exec) : Leg Mnem Side OrderTag Int Int :=
  ⟨e.market, e.side, ⟨⟨e.trader, e.orderId, e.ref⟩, e.ticks, e.lots⟩⟩

/-- The order's half of the trade that an execution is about. -/
def Exec.traded (e : Exec) : Leg Mnem Side OrderTag Int Int :=
  ⟨e.market, e.side, ⟨⟨e.trader, e.orderId, e.ref⟩, e.lastTicks, e.lastLots⟩⟩

/-- What the new orders among executions asked for. -/
def askedIn (es : List Exec) : List (Leg Mnem Side OrderTag Int Int) :=
  (es.filter (fun e => e.state = .new)).map Exec.asked

/-- The service has the quotes and the trades of an exchange. -/
structure Serv.Shows (s : Serv) (x : Board Mnem Side OrderTag Int Int) : Prop where
  quotes : ∀ m ∈ s.markets.keys, ∀ sd, x.quotes m sd = s.quotes m sd
  unknown : ∀ m ∉ s.markets.keys, ∀ sd, x.quotes m sd = []
  tape : x.tape = (tradesIn s.journ).map Exec.traded

/-! ### Priority -/

theorem Side.eq_of_ne_opposite {sd sd' : Side} (h : sd ≠ sd'.opposite) : sd = sd' := by
  cases sd <;> cases sd' <;> first | rfl | exact absurd rfl h

theorem Before.asymm {o o' : Order} (h : Before o o') : ¬ Before o' o := by
  unfold Before at h ⊢
  omega

theorem Before.trans {o o' o'' : Order} (h : Before o o') (h' : Before o' o'') :
    Before o o'' := by
  unfold Before at h h' ⊢
  omega

/-- Of two orders of a side, the one at the price that is as good goes before one that came
later. -/
theorem before_of_good {o new : Order} (hside : o.side = new.side) (hid : o.id < new.id) :
    if sides.good new.side o.ticks new.ticks then Before o new else Before new o := by
  unfold Before Order.key composeKey
  rw [hside]
  cases new.side <;> simp only [sides, decide_eq_true_eq, reduceIte, reduceCtorEq] <;>
    split <;> omega

/-- A taker crosses the quotes that are within its price. -/
theorem good_eq_crosses (takerOrder makerOrder : Order) :
    sides.good takerOrder.side.opposite makerOrder.ticks takerOrder.ticks =
      crosses takerOrder makerOrder := by
  rw [Bool.eq_iff_iff]
  cases hside : takerOrder.side with
  | buy => rw [crosses_buy hside]; exact decide_eq_true_iff
  | sell => rw [crosses_sell hside]; exact decide_eq_true_iff

section Call

variable {s s' : Serv} {a : OrderArgs} {m : Mnem} {sd : Side}

/-- The fills of a call, as the exchange takes them. -/
theorem Serv.fills_eq (s : Serv) (a : OrderArgs) :
    fillRefs (fun p => (s.heap p).quoted)
      (fun p => sides.good a.side.opposite p a.ticks) a.lots (s.makers a) = s.fills a := by
  have hreach : (fun p => sides.good a.side.opposite (s.heap p).ticks a.ticks) =
      fun p => crosses (s.newOrder a) (s.heap p) :=
    funext (fun p => good_eq_crosses (s.newOrder a) (s.heap p))
  exact congrArg (fun reach => Lib.Greedy.fill (fun p => (s.heap p).resd) a.lots
    ((s.makers a).takeWhile reach)) hreach

/-! ### The lists after a call -/

/-- A change that keeps the price and the id keeps the priority. -/
theorem Before.later {o o' p p' : Order} (h : Before o p) (ho : o.Later o') (hp : p.Later p') :
    Before o' p' := by
  have hkey : ∀ {q q' : Order}, q.Later q' → q'.key = q.key ∧ q'.id = q.id := by
    intro q q' hq
    unfold Order.key
    rw [hq.request, hq.ticks]
    exact ⟨rfl, rfl⟩
  unfold Before at h ⊢
  rwa [(hkey ho).1, (hkey ho).2, (hkey hp).1, (hkey hp).2]

/-- An order has the quote that it had, but for what is left. -/
theorem Order.Later.quoted {o o' : Order} (h : o.Later o') :
    o'.quoted = { o.quoted with size := o'.resd } := by
  unfold Order.quoted
  rw [h.request, h.ticks]

/-- The orders that go on resting, where no new one joins, are those that have something left. -/
theorem Traded.orders_eq (ht : Traded s s' a) (hb : BooksOk s) (hv : a.Valid s)
    (hm : m ∈ s.markets.keys)
    (hnot : ¬ (m = a.book ∧ sd = a.side ∧ 0 < (s'.heap s.heap.next).resd)) :
    ((s'.markets.get m).side sd).orders =
      ((s.markets.get m).side sd).orders.filter (fun p => 0 < (s'.heap p).resd) := by
  have hold := hb m hm sd
  have hnew := ht.books m (ht.marketKeys ▸ hm) sd
  have hlater : ∀ p ∈ ((s.markets.get m).side sd).orders, (s.heap p).Later (s'.heap p) :=
    fun p hp => Grown.order_traded hb hv ht (hold.rests p hp).lt_next
  have hordered : ((s.markets.get m).side sd).orders.Pairwise
      (fun p q => Before (s'.heap p) (s'.heap q)) :=
    hold.priority.imp_of_mem (fun hp hq hpq => hpq.later (hlater _ hp) (hlater _ hq))
  refine eq_of_ordered (fun p q => Before.asymm) hnew.priority
    (hordered.sublist List.filter_sublist) (fun p => ?_)
  rw [ht.mem m hm, List.mem_filter, decide_eq_true_eq]
  refine and_congr_left (fun hpos => or_iff_left ?_)
  rintro ⟨rfl, hbook, hside⟩
  exact hnot ⟨hbook, hside, hpos⟩

/-- A side on which nothing is filled and nothing joins shows what it showed. -/
theorem Traded.quotes_same (ht : Traded s s' a) (hb : BooksOk s) (hv : a.Valid s)
    (hm : m ∈ s.markets.keys) (hside : ¬ (m = a.book ∧ sd = a.side.opposite))
    (hnot : ¬ (m = a.book ∧ sd = a.side ∧ 0 < (s'.heap s.heap.next).resd)) :
    s'.quotes m sd = s.quotes m sd := by
  have hsame : ∀ p ∈ ((s.markets.get m).side sd).orders, s'.heap p = s.heap p := by
    intro p hp
    refine ht.heap_old p ((hb m hm sd).rests p hp).lt_next (fun hfill => hside ?_)
    exact hb.maker_side hv hm hp hfill
  have hall : ((s.markets.get m).side sd).orders.filter (fun p => 0 < (s'.heap p).resd) =
      ((s.markets.get m).side sd).orders := by
    refine List.filter_eq_self.mpr (fun p hp => ?_)
    rw [hsame p hp]
    exact decide_eq_true ((hb m hm sd).resd_pos hp)
  unfold Serv.quotes
  rw [ht.orders_eq hb hv hm hnot, hall]
  exact List.map_congr_left (fun p hp => by rw [hsame p hp])

/-- **The side that is traded with** has what the exchange leaves of it. -/
theorem Traded.quotes_opposite (ht : Traded s s' a) (hb : BooksOk s) (hv : a.Valid s) :
    s'.quotes a.book a.side.opposite =
      (take (fun p => sides.good a.side.opposite p a.ticks) a.lots
        (s.quotes a.book a.side.opposite)).rest := by
  have hside := hb a.book hv.book a.side.opposite
  have hne := Side.opposite_ne a.side
  have hfills := s.fills_eq a
  have hrest := @take_rest _ _ _ _ _ _ (fun p => (s.heap p).quoted)
    (fun p => sides.good a.side.opposite p a.ticks) a.lots (s.makers a) _
    (fun p => (s'.heap p).resd) hside.nodup (fun p hp => hside.resd_pos hp)
    (fun f hf => by
      rw [hfills] at hf
      rw [ht.heap_maker f hf, Order.taken_resd]
      rfl)
    (fun p hp hnot => by
      rw [hfills] at hnot
      rw [ht.heap_old p (hside.rests p hp).lt_next hnot]
      rfl)
  unfold Serv.quotes
  rw [ht.orders_eq hb hv hv.book (fun h => hne h.2.1)]
  refine Eq.trans (List.map_congr_left (fun p hp => ?_)) hrest.symm
  exact (Grown.order_traded hb hv ht
    (hside.rests p (List.mem_of_mem_filter hp)).lt_next).quoted

/-- **The side of the new order** has it where the exchange enters it, with what is left. -/
theorem Traded.quotes_own (ht : Traded s s' a) (hb : BooksOk s) (hv : a.Valid s)
    (hleft : 0 < (s.taker a).resd) :
    s'.quotes a.book a.side = Lib.Exchange.enter (sides.good a.side)
      { (s.newOrder a).quoted with size := (s.taker a).resd } (s.quotes a.book a.side) := by
  have hold := hb a.book hv.book a.side
  have hnew := ht.books a.book (ht.marketKeys ▸ hv.book) a.side
  have hne := Side.opposite_ne a.side
  have hsame : ∀ p ∈ ((s.markets.get a.book).side a.side).orders, s'.heap p = s.heap p := by
    intro p hp
    refine ht.heap_old p (hold.rests p hp).lt_next (fun hfill => hne ?_)
    exact (hb.maker_side hv hv.book hp hfill).2.symm
  have htaker : (s'.heap s.heap.next).quoted =
      { (s.newOrder a).quoted with size := (s.taker a).resd } := by
    rw [ht.taker_proj Order.quoted (fun _ _ => rfl)]
    unfold Serv.taker
    split <;> rfl
  have hbefore : ((s.markets.get a.book).side a.side).orders.Pairwise
      (fun p q => Before (s'.heap p) (s'.heap q)) := by
    refine hold.priority.imp_of_mem (fun hp hq hpq => ?_)
    rwa [hsame _ hp, hsame _ hq]
  have henter := @enter_refs _ _ _ _ (fun p => (s'.heap p).quoted)
    (fun p q => Before (s'.heap p) (s'.heap q)) ((s.markets.get a.book).side a.side).orders
    ((s'.markets.get a.book).side a.side).orders (fun p q => Before.asymm)
    (fun p q r => Before.trans) (sides.good a.side) s.heap.next hbefore hnew.priority ?_ ?_
  · unfold Serv.quotes
    rw [henter, htaker]
    exact congrArg _ (List.map_congr_left (fun p hp => by rw [hsame p hp]))
  · intro p
    rw [ht.mem a.book hv.book]
    constructor
    · rintro ⟨hp | ⟨rfl, -, -⟩, -⟩
      · exact Or.inl hp
      · exact Or.inr rfl
    · rintro (hp | rfl)
      · rw [hsame p hp]
        exact ⟨Or.inl hp, hold.resd_pos hp⟩
      · rw [ht.taker_proj Order.resd (fun _ _ => rfl)]
        exact ⟨Or.inr ⟨rfl, rfl, rfl⟩, hleft⟩
  · intro p hp
    have hside : (s'.heap s.heap.next).side = a.side :=
      (ht.taker_proj (fun o => o.side) (fun _ _ => rfl)).trans Serv.taker_side
    have hid : (s.heap p).id < (s'.heap s.heap.next).id := by
      have hle := (hold.rests p hp).id_le
      rw [ht.taker_proj (fun o => o.id) (fun _ _ => rfl), Serv.taker_id]
      omega
    have hgood := before_of_good ((hold.side hp).trans hside.symm) hid
    rw [hside] at hgood
    rw [hsame p hp]
    exact hgood

/-! ### One call -/

/-- What the exchange takes for the call is what the call fills. -/
theorem Serv.take_eq (s : Serv) (a : OrderArgs) :
    let t := take (fun p => sides.good a.side.opposite p a.ticks) a.lots
      (s.quotes a.book a.side.opposite)
    t.fills = (s.fills a).map (fun f => { (s.heap f.1).quoted with size := f.2 }) ∧
      t.left = (s.taker a).resd := by
  have hfills := @take_fills _ _ _ _ _ _ (fun p => (s.heap p).quoted)
    (fun p => sides.good a.side.opposite p a.ticks) a.lots (s.makers a)
  rw [s.fills_eq a, ← Serv.taker_resd] at hfills
  exact hfills

/-- The trades of the matches are those of the exchange. -/
theorem buildMatches_traded {h : Heap Order} {taker : Order} (b : MarketBook) (now : Int)
    {fs : List (OrderPtr × Int)} (id : Int) (sums : Sums)
    (hmakers : ∀ f ∈ fs, (h f.1).market = taker.market ∧ (h f.1).side = taker.side.opposite) :
    (tradesOf (buildMatches h b taker now id sums fs)).map Exec.traded =
      legs sides taker.market taker.side taker.quoted.tag
        (fs.map (fun f => { (h f.1).quoted with size := f.2 })) := by
  induction fs generalizing id sums with
  | nil => rfl
  | cons f fs ih =>
      obtain ⟨hmarket, hside⟩ := hmakers f List.mem_cons_self
      have hmaker : (mkMatch b taker (h f.1) f.1 f.2 (sums.fill h f) (id + 1)
          now).makerTrade.traded =
          ⟨taker.market, sides.opposite taker.side, { (h f.1).quoted with size := f.2 }⟩ := by
        show Leg.mk (h f.1).market (h f.1).side { (h f.1).quoted with size := f.2 } = _
        rw [hmarket, hside]
        rfl
      have hrest := ih (id + 2) (sums.fill h f)
        (fun f hf => hmakers f (List.mem_cons_of_mem _ hf))
      exact congrArg₂ (fun l ls => l :: _ :: ls) hmaker hrest

theorem Serv.makers_of (hb : BooksOk s) (hv : a.Valid s) {f : OrderPtr × Int}
    (hf : f ∈ s.fills a) :
    (s.heap f.1).market = a.book ∧ (s.heap f.1).side = a.side.opposite := by
  have hside := hb a.book hv.book a.side.opposite
  have hmaker := mem_orders_of_mem_fillsOf hf
  exact ⟨(hside.rests _ hmaker).market.trans (s.markets.key_get a.book hv.book),
    hside.side hmaker⟩

/-- What a new order asks for. -/
theorem Serv.newExec_asked (hv : a.Valid s) :
    (s.newExec a).asked = ⟨a.book, a.side, (s.newOrder a).quoted⟩ := by
  have hbook := s.markets.key_get a.book hv.book
  show Leg.mk (s.markets.get a.book).mnem a.side (s.newOrder a).quoted = _
  rw [hbook]

/-- **A call that commits is a step of the exchange.** -/
theorem Traded.shows (ht : Traded s s' a) (hb : BooksOk s) (hv : a.Valid s)
    {x : Board Mnem Side OrderTag Int Int} (hx : s.Shows x) :
    s'.Shows (x.place sides (s.newExec a).asked) := by
  rw [Serv.newExec_asked hv]
  have htaken : x.taken sides ⟨a.book, a.side, (s.newOrder a).quoted⟩ =
      take (fun p => sides.good a.side.opposite p a.ticks) a.lots
        (s.quotes a.book a.side.opposite) := by
    rw [← hx.quotes a.book hv.book a.side.opposite]
    rfl
  obtain ⟨hfills, hleft⟩ := s.take_eq a
  rw [← htaken] at hfills hleft
  refine ⟨fun m hm sd => ?_, fun m hm sd => ?_, ?_⟩
  · rw [ht.marketKeys] at hm
    by_cases hbook : m = a.book
    · subst hbook
      by_cases hopp : sd = a.side.opposite
      · subst hopp
        rw [ht.quotes_opposite hb hv, ← htaken]
        exact Board.place_opposite
      · obtain rfl := Side.eq_of_ne_opposite hopp
        rcases (hb.taker_resd_nonneg hv.book hv.lots.le).eq_or_lt with hdone | hrests
        · have hgone : ¬ 0 < (s'.heap s.heap.next).resd := by
            rw [ht.taker_proj Order.resd (fun _ _ => rfl)]
            omega
          rw [ht.quotes_same hb hv hm (fun h => hopp h.2) (fun h => hgone h.2.2),
            ← hx.quotes a.book hm a.side]
          exact Board.place_done hopp (fun _ => hleft.trans hdone.symm)
        · rw [ht.quotes_own hb hv hrests, ← hleft, ← hx.quotes a.book hm a.side]
          exact Board.place_own (Side.opposite_ne a.side) (hleft.trans_ne hrests.ne')
    · rw [ht.quotes_same hb hv hm (fun h => hbook h.1) (fun h => hbook h.1), ← hx.quotes m hm sd]
      exact Board.place_other hbook
  · rw [ht.marketKeys] at hm
    have hbook : m ≠ a.book := fun heq => hm (heq ▸ hv.book)
    rw [Board.place_other hbook, hx.unknown m hm sd]
  · have hbook : (s.newOrder a).market = a.book := s.markets.key_get a.book hv.book
    have hlegs := buildMatches_traded (s.markets.get a.book) a.now
      ((s.markets.get a.book).maxExecId + 1) {}
      (fun f hf => ⟨(Serv.makers_of hb hv hf).1.trans hbook.symm, (Serv.makers_of hb hv hf).2⟩)
    have htrades : tradesIn (s.newExec a :: tradesOf (s.newMatches a)) =
        tradesOf (s.newMatches a) := Serv.tradesIn_batch hb hv
    rw [hbook, ← hfills] at hlegs
    rw [ht.journ, tradesIn_append, List.map_append, htrades, ← hx.tape]
    exact congrArg _ hlegs.symm

end Call

/-! ### Runs -/

section Runs

variable {s₀ s : Service} {trace : List (Service × ServiceCall)}
  {x : Board Mnem Side OrderTag Int Int}

/-- A call that leaves the books, the orders in them and the journal alone is no step. -/
theorem Serv.Shows.congr {s s' : Serv} (hx : s.Shows x) (hkeys : s'.markets.keys = s.markets.keys)
    (hquotes : ∀ m ∈ s.markets.keys, ∀ sd, s'.quotes m sd = s.quotes m sd)
    (hjourn : s'.journ = s.journ) : s'.Shows x where
  quotes m hm sd := by
    rw [hkeys] at hm
    rw [hquotes m hm sd, hx.quotes m hm sd]
  unknown m hm sd := hx.unknown m (hkeys ▸ hm) sd
  tape := by rw [hjourn, hx.tape]

theorem Serv.Shows.ext {s s' : Serv} {m : Mnem} (hx : s.Shows x) (hb : BooksOk s)
    (he : Ext m s s') : s'.Shows x := by
  refine hx.congr he.marketKeys (fun m' hm' sd => ?_) he.journ
  unfold Serv.quotes
  rw [he.side]
  exact List.map_congr_left (fun p hp => by rw [he.heap p ((hb m' hm' sd).rests p hp).lt_next])

/-- A new market has nothing to show. -/
theorem Serv.Shows.registered {s s' : Serv} (hx : s.Shows x) (hr : Registered s s') :
    s'.Shows x where
  quotes m hm sd := by
    unfold Serv.quotes
    by_cases hold : m ∈ s.markets.keys
    · rw [hx.quotes m hold sd, hr.side hold sd, hr.heap]
      rfl
    · rw [hx.unknown m hold sd, hr.side_new hm hold sd]
      rfl
  unknown m hm sd := hx.unknown m (fun hold => hm (hr.marketKeys hold)) sd
  tape := by rw [hr.journ, hx.tape]

/-- **A run of the service is a run of the exchange.** -/
theorem ServiceRun.shows (h₀ : s₀.serv.Empty) (hrun : ServiceRun Sound s₀ trace s) :
    s.serv.Shows (Board.init.run sides (askedIn s.serv.journ)) := by
  have hboth : ServInv s.serv ∧ s.serv.Shows (Board.init.run sides (askedIn s.serv.journ)) := by
    refine hrun.invariant (I := fun s => ServInv s.serv ∧
      s.serv.Shows (Board.init.run sides (askedIn s.serv.journ))) ⟨ServInv.init h₀, ?_⟩ ?_
    · rw [h₀.journ]
      refine ⟨fun m hm sd => ?_, fun _ _ _ => rfl, ?_⟩
      · unfold Serv.quotes
        rw [h₀.side m hm sd]
        rfl
      · rw [h₀.journ]
        rfl
    · rintro s call s' ⟨hi, hx⟩ hstep
      refine ⟨hi.serviceStep hstep, ?_⟩
      obtain ⟨hmeets, rfl⟩ := hstep
      rcases call.apply_cases hmeets with hr | hstep
      · rw [hr.journ]
        exact hx.registered hr
      · obtain ⟨a, hv, ⟨he, -⟩ | ht⟩ := sound_cases hi.books hi.matchVec hstep
        · rw [he.journ]
          exact hx.ext hi.books he
        · have hasked : askedIn (call.apply s).serv.journ =
              askedIn s.serv.journ ++ [(s.serv.newExec a).asked] := by
            have hnew := Serv.batch_new hi.books hv
            unfold Serv.batch at hnew
            unfold askedIn
            rw [ht.journ, List.filter_append, hnew, List.map_append]
            rfl
          rw [hasked, Board.run_append]
          exact ht.shows hi.books hv hx
  exact hboth.2

/-- What is asked for or traded on a side, of executions of one kind. -/
theorem legSizes_filter {es : List Exec} (state : Swirly.State)
    (leg : Exec → Leg Mnem Side OrderTag Int Int) (m : Mnem) (sd : Side)
    (hleg : ∀ e, (leg e).market = e.market ∧ (leg e).side = e.side) :
    legSizes m sd ((es.filter (fun e => e.state = state)).map leg) =
      Lib.tally (fun e => e.state = state ∧ e.market = m ∧ e.side = sd)
        (fun e => (leg e).quote.size) es := by
  unfold legSizes
  rw [Lib.tally_map, Lib.tally_filter]
  refine Lib.tally_congr (fun e _ => ?_)
  rw [Leg.On, (hleg e).1, (hleg e).2]
  exact and_comm

end Runs

end Swirly
