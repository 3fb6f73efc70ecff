import Swirly.Fig.ServiceRun
import Swirly.Fig.Texts
import Swirly.Lib.Ladder

/-!
# Swirly.Fig.MarketView

**What a market shows is what there is.** The view of a market shows the best three prices of
each side, with the lots and orders at each, and the last trade. The book keeps the sums up to
date order by order and fill by fill; here they are compared with what they stand for. The
prices are those of the open orders in the traders' sessions (`Serv.openOrders`), grouped by
price, and the last trade is the last one that the journal has for the market (`lastOf`).
-/

namespace Swirly

open Lib (Heap Blocks Rung)
open Lib.Effect

/-! ### The last trade -/

/-- The last trade of a market, as the market shows it. -/
structure LastTrade where
  lots : Int := 0
  ticks : Int := 0
  time : Int := 0
  deriving DecidableEq

/-- The last trade that the book has recorded. -/
def MarketBook.last (b : MarketBook) : LastTrade := ⟨b.lastLots, b.lastTicks, b.lastTime⟩

/-- The trade that an execution is about. -/
def Exec.lastTrade (e : Exec) : LastTrade := ⟨e.lastLots, e.lastTicks, e.created⟩

/-- The last trade in a market that executions tell of, or `last` if they tell of none. -/
def lastOf (m : Mnem) (es : List Exec) (last : LastTrade) : LastTrade :=
  es.foldl (fun last e => if e.market = m ∧ e.state = .trade then e.lastTrade else last) last

theorem lastOf_append (m : Mnem) (es es' : List Exec) (last : LastTrade) :
    lastOf m (es ++ es') last = lastOf m es' (lastOf m es last) := List.foldl_append

/-- Executions of other markets do not count. -/
theorem lastOf_other {m : Mnem} {es : List Exec} (h : ∀ e ∈ es, e.market ≠ m)
    (last : LastTrade) : lastOf m es last = last := by
  induction es with
  | nil => rfl
  | cons e es ih =>
      have he := h e List.mem_cons_self
      show lastOf m es (if e.market = m ∧ e.state = .trade then e.lastTrade else last) = last
      rw [if_neg (fun hand => he hand.1)]
      exact ih (fun e' he' => h e' (List.mem_cons_of_mem e he'))

theorem Serv.insertOrder_last (s : Serv) (m : Mnem) (p : OrderPtr) (m' : Mnem) :
    ((s.insertOrder m p).markets.get m').last = (s.markets.get m').last := by
  by_cases hm' : m' = m
  · subst hm'
    rw [Serv.insertOrder_get_self]
    unfold MarketBook.insertOrder MarketBook.setSide
    dsimp only
    split <;> rfl
  · rw [Serv.insertOrder_get_of_ne _ _ hm']

theorem BookSide.takeOrder_ticks (h : Heap Order) (b : BookSide) (p : OrderPtr) (lots now : Int)
    (q : OrderPtr) : ((b.takeOrder h p lots now).1 q).ticks = (h q).ticks := by
  have htrade : ∀ h' : Heap Order,
      (h'.modify p (fun o => o.tradeLast lots o.ticks now) q).ticks = (h' q).ticks :=
    fun h' => Heap.proj_modify (fun o : Order => o.ticks) rfl q
  unfold takeOrder
  cases (h p).level with
  | none => exact htrade h
  | some k =>
      refine (htrade _).trans ?_
      show ((b.reduceLevel h k p lots).1 q).ticks = (h q).ticks
      rw [reduceLevel_heap]
      refine Heap.proj_modify (fun o : Order => o.ticks) ?_ q
      split <;> rfl

theorem Serv.takeOrder_last (s : Serv) (m : Mnem) (p : OrderPtr) (lots now : Int) (m' : Mnem) :
    ((s.takeOrder m p lots now).markets.get m').last =
      if m' = m then ⟨lots, (s.heap p).ticks, now⟩ else (s.markets.get m').last := by
  split
  · next heq =>
      subst heq
      rw [Serv.takeOrder_get_self]
      rfl
  · next hne => rw [Serv.takeOrder_get_of_ne _ _ _ _ hne]

/-- **The last fill is the last trade of its market**, at the price of the maker. -/
theorem Serv.takeAll_last {s : Serv} (m : Mnem) (now : Int) (fs : List (OrderPtr × Int))
    (m' : Mnem) : ((s.takeAll m now fs).markets.get m').last =
      if m' = m then
        fs.foldl (fun _ f => ⟨f.2, (s.heap f.1).ticks, now⟩) (s.markets.get m').last
      else (s.markets.get m').last := by
  induction fs generalizing s with
  | nil => exact (ite_self _).symm
  | cons f fs ih =>
      have hticks : ∀ q, ((s.takeOrder m f.1 f.2 now).heap q).ticks = (s.heap q).ticks :=
        fun q => BookSide.takeOrder_ticks _ _ _ _ _ _
      refine (ih (s := s.takeOrder m f.1 f.2 now)).trans ?_
      simp only [hticks, Serv.takeOrder_last, List.foldl_cons]
      split <;> rfl

section Call

variable {env : Env} {s s₁ : Serv} {a : OrderArgs} {resp : Response} {c' : Ctx}

/-- The trades of a match tell of the fill. -/
theorem Serv.newMatches_lastTrade (hb : BooksOk s) (hv : a.Valid s) {m : Match}
    (hm : m ∈ s.newMatches a) (last : LastTrade) :
    lastOf a.book [m.makerTrade, m.takerTrade] last =
      ⟨m.lots, (s.heap m.makerOrder).ticks, a.now⟩ := by
  have hof := Serv.newMatches_ofCall hb hv hm
  have hmarket : m.takerTrade.market = a.book :=
    hof.takerTrade.market.trans (s.markets.key_get a.book hv.book)
  obtain ⟨f, -, sums, id, rfl⟩ := mem_buildMatches hm
  refine (if_pos ⟨hmarket, hof.taker_trade⟩).trans ?_
  rfl

/-- The trades of a call tell of its fills. -/
theorem Serv.tradesOf_lastOf (hb : BooksOk s) (hv : a.Valid s) (last : LastTrade) :
    lastOf a.book (tradesOf (s.newMatches a)) last =
      (s.fills a).foldl (fun _ f => ⟨f.2, (s.heap f.1).ticks, a.now⟩) last := by
  rw [← s.newMatches_map a, List.foldl_map]
  have hall : ∀ m ∈ s.newMatches a, ∀ last, lastOf a.book [m.makerTrade, m.takerTrade] last =
      ⟨m.lots, (s.heap m.makerOrder).ticks, a.now⟩ :=
    fun m hm => Serv.newMatches_lastTrade hb hv hm
  generalize s.newMatches a = ms at hall
  induction ms generalizing last with
  | nil => rfl
  | cons m ms ih =>
      have hsplit : tradesOf (m :: ms) = [m.makerTrade, m.takerTrade] ++ tradesOf ms := rfl
      rw [hsplit, lastOf_append, hall m List.mem_cons_self, List.foldl_cons]
      exact ih _ (fun m' hm' => hall m' (List.mem_cons_of_mem m hm'))

/-- **A committed call leaves every market with the last trade that was journaled.** -/
theorem Committed.last (hC : Committed env s a resp s₁ c') (hb : BooksOk s) (hv : a.Valid s)
    (hmv : s.matchVec = []) (m : Mnem) : (c'.serv.markets.get m).last =
      lastOf m (s.newExec a :: tradesOf (s.newMatches a)) (s.markets.get m).last := by
  have hM := hC.matched
  -- Until the fills begin, no market has a new trade.
  have hcommitting : ((s.committing s₁ a).markets.get m).last = (s.markets.get m).last := by
    rw [s.committing_markets]
    have hplaced : ((s₁.placed a.book s.heap.next).markets.get m).last =
        (s₁.markets.get m).last := by
      unfold Serv.placed
      split
      · rfl
      · exact Serv.insertOrder_last _ _ _ _
    refine hplaced.trans ?_
    by_cases hm : m = a.book
    · subst hm
      rw [hM.ext.book]
      rfl
    · rw [hM.ext.other m hm]
  have hfills : ∀ f ∈ s.fills a, ((s.committing s₁ a).heap f.1).ticks = (s.heap f.1).ticks :=
    fun f hf => congrArg Order.ticks
      (hM.committing_heap_old f.1 (Serv.mem_fills_lt (hb.makers_lt hv.book) hf))
  have htrades : ∀ t ∈ tradesOf (s.newMatches a), t.market = a.book := by
    intro t ht
    obtain ⟨m, hm, hcases⟩ := mem_tradesOf.mp ht
    have hof := Serv.newMatches_ofCall hb hv hm
    have hbook := s.markets.key_get a.book hv.book
    have hrest := (hb a.book hv.book a.side.opposite).rests m.makerOrder hof.maker
    rcases hcases with rfl | rfl
    · exact (hof.makerTrade.market.trans hrest.market).trans hbook
    · exact hof.takerTrade.market.trans hbook
  have hnew : lastOf m (s.newExec a :: tradesOf (s.newMatches a)) (s.markets.get m).last =
      lastOf m (tradesOf (s.newMatches a)) (s.markets.get m).last := by
    refine congrArg (lastOf m _) (if_neg ?_)
    rintro ⟨-, hstate⟩
    cases hstate
  rw [hC.serv_eq hb hv.book hv.sess hmv, hnew]
  refine (Serv.takeAll_last _ _ _ _).trans ?_
  rw [hcommitting]
  split
  · next heq =>
      subst heq
      rw [Serv.tradesOf_lastOf hb hv]
      exact List.foldl_ext _ _ _ (fun last f hf => by rw [hfills f hf])
  · next hne => exact (lastOf_other (fun t ht heq => hne (heq.symm.trans (htrades t ht))) _).symm

end Call

/-- The last trade that a market came with; a market that is created has none. -/
def Serv.cameWith (s₀ : Serv) (m : Mnem) : LastTrade :=
  if m ∈ s₀.markets.keys then (s₀.markets.get m).last else {}

/-- Every market shows the last trade that the journal has for it, or, if there is none, the
one that it came with. -/
def LastShown (s₀ s : Serv) : Prop :=
  s₀.markets.keys ⊆ s.markets.keys ∧ ∀ m ∈ s.markets.keys,
    (s.markets.get m).last = lastOf m s.journ (s₀.cameWith m)

namespace LastShown

variable {s₀ s s' : Serv}

/-- What is journaled is about markets that are there. -/
theorem journ_market (hi : ServInv s) {e : Exec} (he : e ∈ s.journ) :
    e.market ∈ s.markets.keys := by
  obtain ⟨n, hn, hmarket, -⟩ := hi.sessions.logged e he
  exact hmarket ▸ (hi.sessions.held _ (hi.ledger.trader e he) n hn).book

theorem init (h₀ : s₀.Empty) : LastShown s₀ s₀ := by
  refine ⟨List.Subset.refl _, fun m hm => ?_⟩
  rw [h₀.journ, Serv.cameWith, if_pos hm]
  rfl

theorem registered (hl : LastShown s₀ s) (hi : ServInv s) (hr : Registered s s') :
    LastShown s₀ s' := by
  refine ⟨List.Subset.trans hl.1 hr.marketKeys, fun m hm => ?_⟩
  rw [hr.journ]
  by_cases hold : m ∈ s.markets.keys
  · obtain ⟨display, state, heq⟩ := hr.market m hold
    rw [heq]
    exact hl.2 m hold
  · -- No trade can have been journaled for a market that has just been created.
    rw [lastOf_other (fun e he (heq : e.market = m) => hold (heq ▸ journ_market hi he)),
      Serv.cameWith, if_neg (fun hm₀ => hold (hl.1 hm₀)), hr.newMarket m hm hold]
    rfl

theorem step (hl : LastShown s₀ s) (hi : ServInv s) (hstep : Step Sound s s') :
    LastShown s₀ s' := by
  obtain ⟨env, a, resp, hv, -, hp, rfl⟩ := hstep
  rcases createOrder_cases env resp hi.books hv.book hv.lots.le with
    ⟨c', s₁, hrun, hC⟩ | ⟨e, c', hrun, hf⟩
  · rw [final_ok hrun]
    have ht := hC.traded hi.books hv.book hv.sess hv.lots.le hi.matchVec
    refine ⟨ht.marketKeys ▸ hl.1, fun m hm => ?_⟩
    rw [ht.marketKeys] at hm
    rw [hC.last hi.books hv hi.matchVec, hl.2 m hm, ht.journ, lastOf_append]
  · rw [final_error hrun]
    rcases hf.cases hi.books hv.book hv.lots.le hi.matchVec hp.1 with ⟨he, -⟩ | ⟨hlost, -⟩
    · refine ⟨he.marketKeys ▸ hl.1, fun m hm => ?_⟩
      rw [he.marketKeys] at hm
      rw [he.journ, ← hl.2 m hm]
      by_cases hbook : m = a.book
      · subst hbook
        rw [he.book]
        rfl
      · rw [he.other m hbook]
    · exact absurd hlost hp.2

end LastShown

theorem ServiceRun.lastShown {s₀ s : Service} {trace : List (Service × ServiceCall)}
    (h₀ : s₀.serv.Empty) (hrun : ServiceRun Sound s₀ trace s) : LastShown s₀.serv s.serv := by
  have hboth : ServInv s.serv ∧ LastShown s₀.serv s.serv := by
    refine hrun.invariant (I := fun s => ServInv s.serv ∧ LastShown s₀.serv s.serv)
      ⟨ServInv.init h₀, LastShown.init h₀⟩ ?_
    rintro s call _ ⟨hi, hl⟩ ⟨hmeets, rfl⟩
    rcases call.apply_cases hmeets with hr | hstep
    · exact ⟨hi.registered hr, hl.registered hi hr⟩
    · exact ⟨hi.step hstep, hl.step hi hstep⟩
  exact hboth.2

/-! ### The open orders -/

namespace Serv

/-- The orders of a market and side, in any trader's session, that have lots left. -/
def openOrders (s : Serv) (m : Mnem) (sd : Side) : Finset OrderPtr :=
  (((s.traders.keys.flatMap s.nodes).filter (fun n =>
    n.market = m ∧ (s.heap n.order).side = sd ∧ 0 < (s.heap n.order).resd)).map
      OrderNode.order).toFinset

/-- The open orders by price, the best price first: at each, the lots and the orders. -/
def depth (s : Serv) (m : Mnem) (sd : Side) : List (Rung Int Int) :=
  Lib.ladder (fun p => (s.heap p).key) (fun p => (s.heap p).resd) (s.openOrders m sd)

theorem mem_openOrders {s : Serv} {m : Mnem} {sd : Side} {p : OrderPtr} :
    p ∈ s.openOrders m sd ↔ ∃ u ∈ s.traders.keys, ∃ n ∈ s.nodes u, n.market = m ∧
      n.order = p ∧ (s.heap p).side = sd ∧ 0 < (s.heap p).resd := by
  unfold openOrders
  simp only [List.mem_toFinset, List.mem_map, List.mem_filter, List.mem_flatMap,
    decide_eq_true_eq]
  constructor
  · rintro ⟨n, ⟨⟨u, hu, hn⟩, hmarket, hside, hresd⟩, rfl⟩
    exact ⟨u, hu, n, hn, hmarket, rfl, hside, hresd⟩
  · rintro ⟨u, hu, n, hn, hmarket, rfl, hside, hresd⟩
    exact ⟨n, ⟨⟨u, hu, hn⟩, hmarket, hside, hresd⟩, rfl⟩

end Serv

section Depth

variable {s : Serv} {m : Mnem} {sd : Side}

/-- The open orders are those that rest. -/
theorem ServInv.mem_openOrders_iff (hi : ServInv s) (hm : m ∈ s.markets.keys) {p : OrderPtr} :
    p ∈ s.openOrders m sd ↔ p ∈ ((s.markets.get m).side sd).orders := by
  rw [Serv.mem_openOrders]
  constructor
  · rintro ⟨u, hu, n, hn, rfl, rfl, rfl, hresd⟩
    exact (hi.sessions.held u hu n hn).rests hresd
  · intro hp
    obtain ⟨hu, hn⟩ := hi.sessions.owned m hm sd p hp
    exact ⟨_, hu, _, hn, rfl, rfl, (hi.books m hm sd).side hp, (hi.books m hm sd).resd_pos hp⟩

/-- The blocks that a side stands for are those of its orders. -/
theorem Rep.blocks {h : Heap Order} {b : BookSide} {blocks : List Block} {xs : Finset OrderPtr}
    (hr : Rep sd h b blocks) (hxs : ∀ p, p ∈ xs ↔ p ∈ b.orders) :
    Blocks (fun p => (h p).key) blocks xs where
  sorted := hr.sorted
  ne_nil := hr.block_ne
  nodup := (List.nodup_flatMap.mp (hr.orders_eq ▸ hr.nodup)).1
  key_eq e he p hp := (hr.rests e he p hp).key
  mem_iff p := (hxs p).trans hr.mem_orders

/-- **The levels of a side are the depth of its open orders**, whatever is shown of them. -/
theorem ServInv.levels_depth (hi : ServInv s) (hm : m ∈ s.markets.keys) (sd : Side)
    (fn : Level → Int) (fn' : Rung Int Int → Int)
    (hfn : ∀ e : Block, fn (levelOf sd s.heap e) =
      fn' (Lib.blockRung (fun p => (s.heap p).resd) e)) :
    levelsJson ((s.markets.get m).side sd).levels.elems fn = levelsJson (s.depth m sd) fn' := by
  obtain ⟨blocks, hr⟩ := (hi.books m hm sd).rep
  have hblocks := hr.blocks (fun _ => hi.mem_openOrders_iff hm)
  have hdepth : s.depth m sd = blocks.map (Lib.blockRung (fun p => (s.heap p).resd)) :=
    (hblocks.map_block_eq_ladder _).symm
  unfold levelsJson
  rw [hr.levels_eq, hdepth]
  refine congrArg Lib.Json.arr (List.map_congr_left (fun i _ => ?_))
  rw [List.getElem?_map, List.getElem?_map]
  cases blocks[i]? with
  | none => rfl
  | some e => exact congrArg Lib.Json.num (hfn e)

end Depth

/-! ### The view -/

/-- What is to be shown of a market: its last trade, and the depth of either side. -/
def Serv.viewOf (s : Serv) (m : Mnem) (last : LastTrade) : Lib.Json :=
  .obj [(bytes "market", .str m.buf), (bytes "contr", .str (s.markets.get m).contr.buf),
    (bytes "settlDate", dateJson (s.markets.get m).settlDay),
    (bytes "lastLots", numJson last.lots),
    (bytes "lastTicks", if last.lots ≠ 0 then .num last.ticks else .null),
    (bytes "lastTime", if last.lots ≠ 0 then .num last.time else .null),
    (bytes "bidTicks", levelsJson (s.depth m .buy) (fun r => ticksOf .buy r.key)),
    (bytes "bidResd", levelsJson (s.depth m .buy) (fun r => r.total)),
    (bytes "bidCount", levelsJson (s.depth m .buy) (fun r => r.count)),
    (bytes "offerTicks", levelsJson (s.depth m .sell) (fun r => ticksOf .sell r.key)),
    (bytes "offerResd", levelsJson (s.depth m .sell) (fun r => r.total)),
    (bytes "offerCount", levelsJson (s.depth m .sell) (fun r => r.count))]

theorem ServInv.viewJson_eq {s : Serv} {m : Mnem} (hi : ServInv s) (hm : m ∈ s.markets.keys) :
    (s.markets.get m).viewJson = s.viewOf m (s.markets.get m).last := by
  have hbid : (s.markets.get m).bidSide = (s.markets.get m).side .buy := rfl
  have hoffer : (s.markets.get m).offerSide = (s.markets.get m).side .sell := rfl
  unfold MarketBook.viewJson Serv.viewOf
  rw [hbid, hoffer, s.markets.key_get m hm,
    hi.levels_depth hm .buy Level.ticks (fun r => ticksOf .buy r.key) (fun _ => rfl),
    hi.levels_depth hm .buy Level.resd (fun r => r.total) (fun _ => rfl),
    hi.levels_depth hm .buy Level.count (fun r => r.count) (fun _ => rfl),
    hi.levels_depth hm .sell Level.ticks (fun r => ticksOf .sell r.key) (fun _ => rfl),
    hi.levels_depth hm .sell Level.resd (fun r => r.total) (fun _ => rfl),
    hi.levels_depth hm .sell Level.count (fun r => r.count) (fun _ => rfl)]
  rfl

end Swirly
