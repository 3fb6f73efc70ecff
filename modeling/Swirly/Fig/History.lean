import Swirly.Fig.Journal
import Mathlib.Data.List.Chain

/-!
# Swirly.Fig.History

**The executions of one order.** An order's executions in the journal start with the
one that opened it, each trade continues the one before it, and the last one tells the
current state of the order (`History`). Nothing in a call keeps the journal and the
order together: the taker's executions carry running sums over one snapshot of the
taker, and the maker's executions are made before the makers are filled. The two are
shown to agree here, fill by fill.
-/

namespace Swirly

open Lib (Heap tally)

/-! ### Histories -/

/-- The execution opens an order: it shows the order new, with nothing traded and all of its lots
left. -/
structure Exec.Opens (e : Exec) : Prop where
  state : e.state = .new
  exec : e.exec = 0
  cost : e.cost = 0
  resd : e.resd = e.lots

/-- `e'` is a trade of the same order, the next one after `e`. -/
structure Exec.Follows (e e' : Exec) : Prop where
  state : e'.state = .trade
  lots : e'.lots = e.lots
  exec : e'.exec = e.exec + e'.lastLots
  cost : e'.cost = e.cost + e'.lastCost
  resd : e'.resd = e.resd - e'.lastLots

/-- The execution tells the state of the order. -/
structure Exec.Agrees (e : Exec) (o : Order) : Prop where
  state : e.state = o.state
  lots : e.lots = o.lots
  resd : e.resd = o.resd
  exec : e.exec = o.exec
  cost : e.cost = o.cost
  lastLots : e.lastLots = o.lastLots
  lastTicks : e.lastTicks = o.lastTicks

/-- `es` are the executions of the order `o`. -/
structure History (es : List Exec) (o : Order) : Prop where
  opens : ∃ e, es.head? = some e ∧ e.Opens
  chain : es.IsChain Exec.Follows
  live : ∃ e, es.getLast? = some e ∧ e.Agrees o
  trader : ∀ e ∈ es, e.trader = o.trader

/-- The executions of an order. -/
def execsOf (market : Mnem) (orderId : Int) (es : List Exec) : List Exec :=
  es.filter (fun e => e.market = market ∧ e.orderId = orderId)

@[simp] theorem execsOf_append (market : Mnem) (orderId : Int) (es es' : List Exec) :
    execsOf market orderId (es ++ es') = execsOf market orderId es ++ execsOf market orderId es' :=
  List.filter_append ..

theorem mem_execsOf {market : Mnem} {orderId : Int} {es : List Exec} {e : Exec} :
    e ∈ execsOf market orderId es ↔ e ∈ es ∧ e.market = market ∧ e.orderId = orderId := by
  simp [execsOf]

theorem execsOf_eq_nil {market : Mnem} {orderId : Int} {es : List Exec}
    (h : ∀ e ∈ es, e.market = market → e.orderId ≠ orderId) : execsOf market orderId es = [] := by
  refine List.filter_eq_nil_iff.mpr ?_
  intro e he
  simpa using h e he

/-- What a chain adds up to. -/
theorem Exec.Follows.total {e : Exec} {es : List Exec} (hchain : (e :: es).IsChain Exec.Follows) :
    ∀ e', (e :: es).getLast? = some e' → e'.lots = e.lots ∧ e'.exec + e'.resd = e.exec + e.resd ∧
      e'.exec = e.exec + tally (fun t => t.state = .trade) (fun t => t.lastLots) es ∧
      e'.cost = e.cost + tally (fun t => t.state = .trade) Exec.lastCost es := by
  induction es generalizing e with
  | nil =>
      intro e' he'
      obtain rfl : e = e' := by simpa using he'
      simp
  | cons t es ih =>
      intro e' he'
      obtain ⟨hfollows, hchain'⟩ := List.isChain_cons_cons.mp hchain
      rw [List.getLast?_cons_cons] at he'
      obtain ⟨hlots, hsum, hexec, hcost⟩ := ih hchain' e' he'
      obtain ⟨hstate, hlots', hexec', hcost', hresd'⟩ := hfollows
      rw [Lib.tally_cons, Lib.tally_cons, if_pos hstate, if_pos hstate]
      refine ⟨hlots.trans hlots', ?_, ?_, ?_⟩ <;> omega

namespace History

variable {es : List Exec} {o o' : Order}

/-- What happened to the order is the sum of its trades. -/
theorem total (h : History es o) : o.lots = o.exec + o.resd ∧
    o.exec = tally (fun t => t.state = .trade) (fun t => t.lastLots) es ∧
    o.cost = tally (fun t => t.state = .trade) Exec.lastCost es := by
  obtain ⟨⟨e, hhead, hopens⟩, hchain, ⟨e', hlast, hagrees⟩, -⟩ := h
  obtain ⟨es, rfl⟩ := List.head?_eq_some_iff.mp hhead
  obtain ⟨hlots, hsum, hexec, hcost⟩ := Exec.Follows.total hchain e' hlast
  have hno : ¬ e.state = .trade := by rw [hopens.state]; decide
  rw [Lib.tally_cons, Lib.tally_cons, if_neg hno, if_neg hno, ← hagrees.lots, ← hagrees.exec,
    ← hagrees.resd, ← hagrees.cost]
  have hopen := hopens.exec
  have hopen' := hopens.cost
  have hopen'' := hopens.resd
  refine ⟨?_, ?_, ?_⟩ <;> omega

/-- A change that the executions do not tell. -/
theorem congr (h : History es o) (hagrees : ∀ e : Exec, e.Agrees o → e.Agrees o')
    (htrader : o'.trader = o.trader) : History es o' where
  opens := h.opens
  chain := h.chain
  live := h.live.imp (fun _ he => ⟨he.1, hagrees _ he.2⟩)
  trader e he := (h.trader e he).trans htrader.symm

/-- One more trade. -/
theorem trade (h : History es o) {t : Exec} (hfollows : ∀ e : Exec, e.Agrees o → e.Follows t)
    (hagrees : t.Agrees o') (ht : t.trader = o'.trader) (htrader : o'.trader = o.trader) :
    History (es ++ [t]) o' where
  opens := by
    obtain ⟨e, hhead, hopens⟩ := h.opens
    exact ⟨e, by rw [List.head?_append, hhead]; rfl, hopens⟩
  chain := by
    obtain ⟨e, hlast, hagr⟩ := h.live
    refine List.IsChain.append h.chain (List.isChain_singleton t) ?_
    intro x hx y hy
    obtain rfl : e = x := by rw [hlast] at hx; exact Option.some.inj hx
    obtain rfl : t = y := by simpa using hy
    exact hfollows e hagr
  live := ⟨t, List.getLast?_concat, hagrees⟩
  trader e he := by
    rcases List.mem_append.mp he with he | he
    · exact (h.trader e he).trans htrader.symm
    · obtain rfl : e = t := by simpa using he
      exact ht

end History

/-! ### A maker's fill -/

/-- The maker's execution of a fill tells what the fill will do to the maker. -/
theorem History.taken {es : List Exec} {o : Order} (h : History es o) (id now lots matchId : Int)
    (cpty : Mnem) :
    History (es ++ [(newExec o id now).tradeLast lots o.ticks matchId .maker cpty])
      (o.taken lots now) := by
  have htrader : (o.taken lots now).trader = o.trader :=
    Order.taken_proj _ _ _ (fun o : Order => o.trader) (fun _ _ => rfl) (fun _ _ _ _ _ _ => rfl)
  refine h.trade (fun e he => ?_) ?_ htrader.symm htrader
  · refine ⟨rfl, he.lots.symm, ?_, ?_, ?_⟩
    · rw [he.exec]; rfl
    · rw [he.cost]; rfl
    · rw [he.resd]; rfl
  · unfold Order.taken
    split <;> exact ⟨rfl, rfl, rfl, rfl, rfl, rfl, rfl⟩

/-! ### The taker's fills -/

/-- The execution tells the taker's state after fills that sum up to `sums`. -/
structure Exec.After (taker : Order) (sums : Sums) (e : Exec) : Prop where
  lots : e.lots = taker.lots
  resd : e.resd = taker.resd - sums.sumLots
  exec : e.exec = taker.exec + sums.sumLots
  cost : e.cost = taker.cost + sums.sumCost

section Taker

variable {h : Heap Order} {b : MarketBook} {taker : Order} {now : Int}

/-- **The taker's executions are a chain**: each tells the running sums. -/
theorem takerTrades_chain (fs : List (OrderPtr × Int)) {id : Int} {sums : Sums} {e : Exec}
    (he : e.After taker sums) :
    (e :: (buildMatches h b taker now id sums fs).map Match.takerTrade).IsChain Exec.Follows := by
  induction fs generalizing id sums e with
  | nil => exact List.isChain_singleton e
  | cons f fs ih =>
      rw [buildMatches, List.map_cons]
      refine List.isChain_cons_cons.mpr ⟨⟨rfl, he.lots.symm, ?_, ?_, ?_⟩,
        ih ⟨rfl, rfl, rfl, rfl⟩⟩
      · rw [he.exec, add_assoc]; rfl
      · rw [he.cost, add_assoc]; rfl
      · rw [he.resd, sub_sub]; rfl

variable (h b taker now)

/-- The last of them tells the taker's state after all fills. -/
theorem takerTrades_getLast (id : Int) (sums : Sums) {fs : List (OrderPtr × Int)} (hfs : fs ≠ []) :
    ∃ e, ((buildMatches h b taker now id sums fs).map Match.takerTrade).getLast? = some e ∧
      e.Agrees (taker.trade (fs.foldl (Sums.fill h) sums).sumLots
        (fs.foldl (Sums.fill h) sums).sumCost (fs.foldl (Sums.fill h) sums).lastLots
        (fs.foldl (Sums.fill h) sums).lastTicks now) := by
  induction fs generalizing id sums with
  | nil => exact absurd rfl hfs
  | cons f fs ih =>
      cases fs with
      | nil => exact ⟨_, rfl, rfl, rfl, rfl, rfl, rfl, rfl, rfl⟩
      | cons g fs =>
          obtain ⟨e, hlast, hagrees⟩ := ih (id + 2) (sums.fill h f) (List.cons_ne_nil g fs)
          refine ⟨e, ?_, hagrees⟩
          rw [buildMatches, List.map_cons, List.getLast?_cons_of_ne_nil (by simp [buildMatches])]
          exact hlast

end Taker

section Call

variable {s : Serv} {a : OrderArgs}

/-- The history of the new order. -/
theorem Serv.taker_history (hmv : s.matchVec = []) :
    History (s.newExec a :: (s.newMatches a).map Match.takerTrade) (s.taker a) where
  opens := ⟨_, rfl, rfl, rfl, rfl, rfl⟩
  chain := takerTrades_chain (s.fills a) ⟨rfl, (sub_zero _).symm, (add_zero _).symm,
    (add_zero _).symm⟩
  live := by
    unfold Serv.taker
    by_cases hfs : s.fills a = []
    · have hms := Serv.newMatches_eq_nil.mpr hfs
      rw [hmv, hms, List.append_nil, if_pos rfl]
      exact ⟨_, rfl, rfl, rfl, rfl, rfl, rfl, rfl, rfl⟩
    · have hms : s.newMatches a ≠ [] := fun hms => hfs (Serv.newMatches_eq_nil.mp hms)
      obtain ⟨e, hlast, hagrees⟩ := takerTrades_getLast s.heap (s.markets.get a.book)
        (s.newOrder a) a.now ((s.markets.get a.book).maxExecId + 1) {} hfs
      rw [hmv, List.nil_append, if_neg hms]
      refine ⟨e, ?_, hagrees⟩
      rw [List.getLast?_cons_of_ne_nil (by simpa using hms)]
      exact hlast
  trader e he := by
    have htrader : (s.taker a).trader = (s.newOrder a).trader :=
      Serv.taker_proj (fun o : Order => o.trader) (fun _ _ _ _ _ _ => rfl)
    rw [htrader]
    rcases List.mem_cons.mp he with rfl | he
    · rfl
    · obtain ⟨m, hm, rfl⟩ := List.mem_map.mp he
      obtain ⟨f, -, sums, id, rfl⟩ := mem_buildMatches hm
      rfl

end Call

/-! ### The batch, order by order -/

section Batch

variable {s : Serv} {a : OrderArgs} {market : Mnem} {orderId : Int}

theorem execsOf_tradesOf (market : Mnem) (orderId : Int) (ms : List Match) :
    execsOf market orderId (tradesOf ms) =
      ms.flatMap (fun m => execsOf market orderId [m.makerTrade, m.takerTrade]) :=
  List.filter_flatMap

/-- Of a list whose elements differ in `key`, one element contributes. -/
private theorem flatMap_eq_of_others {α β κ : Type} {key : α → κ} {g : α → List β} {l : List α}
    (hnd : (l.map key).Nodup) {x : α} (hx : x ∈ l)
    (hothers : ∀ y ∈ l, key y ≠ key x → g y = []) : l.flatMap g = g x := by
  induction l with
  | nil => exact absurd hx List.not_mem_nil
  | cons y l ih =>
      rw [List.map_cons, List.nodup_cons] at hnd
      rw [List.flatMap_cons]
      rcases List.mem_cons.mp hx with rfl | hx
      · have hnil : l.flatMap g = [] := by
          refine List.flatMap_eq_nil_iff.mpr ?_
          intro z hz
          refine hothers z (List.mem_cons_of_mem _ hz) ?_
          exact fun hkey => hnd.1 (hkey ▸ List.mem_map_of_mem hz)
        rw [hnil, List.append_nil]
      · have hne : key y ≠ key x := fun hkey => hnd.1 (hkey ▸ List.mem_map_of_mem hx)
        rw [hothers y List.mem_cons_self hne, List.nil_append]
        exact ih hnd.2 hx (fun z hz => hothers z (List.mem_cons_of_mem _ hz))

variable (hb : BooksOk s) (hv : a.Valid s)

include hb hv

theorem Serv.maker_id_le {p : OrderPtr} (hp : p ∈ s.makers a) :
    (s.heap p).id ≤ (s.markets.get a.book).maxOrderId :=
  ((hb a.book hv.book a.side.opposite).rests p hp).id_le

/-- The executions about the new order. -/
theorem Serv.execsOf_taker : execsOf a.book ((s.markets.get a.book).maxOrderId + 1) (s.batch a) =
    s.newExec a :: (s.newMatches a).map Match.takerTrade := by
  have hnew : (s.newExec a).market = a.book ∧
      (s.newExec a).orderId = (s.markets.get a.book).maxOrderId + 1 :=
    ⟨Serv.newOrder_market hv, rfl⟩
  have hms : ∀ m ∈ s.newMatches a, execsOf a.book ((s.markets.get a.book).maxOrderId + 1)
      [m.makerTrade, m.takerTrade] = [m.takerTrade] := by
    intro m hm
    have hofc := Serv.newMatches_ofCall hb hv hm
    have hmaker : m.makerTrade.orderId ≠ (s.markets.get a.book).maxOrderId + 1 := by
      have hle := Serv.maker_id_le hb hv hofc.maker
      rw [hofc.makerTrade.orderId]
      omega
    have htaker : m.takerTrade.market = a.book ∧
        m.takerTrade.orderId = (s.markets.get a.book).maxOrderId + 1 :=
      ⟨hofc.takerTrade.market.trans (Serv.newOrder_market hv), hofc.takerTrade.orderId⟩
    simp [execsOf, hmaker, htaker]
  have htrades := execsOf_tradesOf a.book ((s.markets.get a.book).maxOrderId + 1) (s.newMatches a)
  rw [List.flatMap_congr hms] at htrades
  rw [Serv.batch, execsOf, List.filter_cons_of_pos (by simpa using hnew)]
  exact congrArg _ (htrades.trans (List.map_eq_flatMap ..).symm)

/-- Each maker is matched once. -/
theorem Serv.newMatches_nodup : ((s.newMatches a).map Match.makerOrder).Nodup := by
  rw [s.newMatches_makers a]
  exact hb.fills_nodup hv.book

/-- No execution about the taker is about a maker. -/
theorem Serv.orderId_ne_maker {m : Match} (hm : m ∈ s.newMatches a) {e : Exec}
    (he : e.Of (s.newOrder a)) : e.orderId ≠ (s.heap m.makerOrder).id := by
  have hle := Serv.maker_id_le hb hv (Serv.newMatches_ofCall hb hv hm).maker
  have hid : (s.newOrder a).id = (s.markets.get a.book).maxOrderId + 1 := rfl
  rw [he.orderId, hid]
  omega

/-- The executions about a maker. -/
theorem Serv.execsOf_maker (hinj : ∀ p ∈ s.makers a, ∀ q ∈ s.makers a,
      (s.heap p).id = (s.heap q).id → p = q) {m : Match} (hm : m ∈ s.newMatches a) :
    execsOf a.book (s.heap m.makerOrder).id (s.batch a) = [m.makerTrade] := by
  have hofc := Serv.newMatches_ofCall hb hv hm
  have hnew : execsOf a.book (s.heap m.makerOrder).id (s.batch a) =
      execsOf a.book (s.heap m.makerOrder).id (tradesOf (s.newMatches a)) :=
    List.filter_cons_of_neg
      (by simpa using fun _ => Serv.orderId_ne_maker hb hv hm (s.newExec_of a))
  have hother : ∀ m' ∈ s.newMatches a, m'.makerOrder ≠ m.makerOrder →
      execsOf a.book (s.heap m.makerOrder).id [m'.makerTrade, m'.takerTrade] = [] := by
    intro m' hm' hne
    have hofc' := Serv.newMatches_ofCall hb hv hm'
    refine execsOf_eq_nil ?_
    intro e he _
    rcases List.mem_pair.mp he with rfl | rfl
    · rw [hofc'.makerTrade.orderId]
      exact fun hid => hne (hinj _ hofc'.maker _ hofc.maker hid)
    · exact Serv.orderId_ne_maker hb hv hm hofc'.takerTrade
  have hself : execsOf a.book (s.heap m.makerOrder).id [m.makerTrade, m.takerTrade] =
      [m.makerTrade] := by
    have hmarket : m.makerTrade.market = a.book :=
      Serv.batch_market hb hv (List.mem_cons_of_mem _ (mem_tradesOf.mpr ⟨m, hm, Or.inl rfl⟩))
    have hmaker := hofc.makerTrade.orderId
    have hno := Serv.orderId_ne_maker hb hv hm hofc.takerTrade
    simp [execsOf, hmarket, hmaker, hno]
  rw [hnew, execsOf_tradesOf, flatMap_eq_of_others (Serv.newMatches_nodup hb hv) hm hother, hself]

/-- No execution is about any other order. -/
theorem Serv.execsOf_other
    (hnew : market = a.book → orderId ≠ (s.markets.get a.book).maxOrderId + 1)
    (hmakers : ∀ f ∈ s.fills a, market = a.book → (s.heap f.1).id ≠ orderId) :
    execsOf market orderId (s.batch a) = [] := by
  refine execsOf_eq_nil ?_
  intro e he hmarket
  have hbook : market = a.book := hmarket.symm.trans (Serv.batch_market hb hv he)
  have htaker : ∀ e : Exec, e.Of (s.newOrder a) → e.orderId ≠ orderId :=
    fun e hof heq => hnew hbook (heq.symm.trans hof.orderId)
  rcases List.mem_cons.mp he with rfl | he
  · exact htaker _ (s.newExec_of a)
  · obtain ⟨m, hm, rfl | rfl⟩ := mem_tradesOf.mp he
    · have hofc := Serv.newMatches_ofCall hb hv hm
      rw [hofc.makerTrade.orderId]
      exact hmakers _ hofc.fill hbook
    · exact htaker _ (Serv.newMatches_ofCall hb hv hm).takerTrade

end Batch

end Swirly
