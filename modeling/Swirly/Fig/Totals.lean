import Swirly.Fig.Agree
import Swirly.Fig.Failure
import Swirly.Fig.Ledger
import Swirly.Fig.Limits

/-!
# Swirly.Fig.Totals

**What has to fit for no total to wrap.** `createOrder` tests no price and no cost. So the sums it
keeps are right as long as the orders are such that they fit, and `totals_exact` says of which
orders that is so, for whole runs:

* of what matching adds up (`LoopFits`);
* of the level that the rest of the order joins (`Serv.LevelFits`);
* of the positions that the trades are added to (`PostFits`).

Each is a condition on the state before the call and its arguments. The run is one of the
machine, whose results are not assumed to be anything when they do not fit; under the conditions
it is the run of the integers, so the invariants of the books (`HoldInv`) apply to it.
-/

namespace Swirly

open Lib (Heap Table KeySet Fits Stays Arith Traced int64 wrap)
open Lib.Effect

/-! ### Positions -/

/-- The positions `q` of the traders have room for the trades, one after the other. -/
def PostFits : (Mnem → Posn) → List Exec → Prop
  | _, [] => True
  | q, t :: ts => ((q t.trader).addTrade t).InRange ∧
      PostFits (Function.update q t.trader ((q t.trader).addTrade t)) ts

instance PostFits.instDecidable : (q : Mnem → Posn) → (ts : List Exec) → Decidable (PostFits q ts)
  | _, [] => inferInstanceAs (Decidable True)
  | q, t :: ts =>
      have := PostFits.instDecidable (Function.update q t.trader ((q t.trader).addTrade t)) ts
      inferInstanceAs (Decidable (_ ∧ PostFits _ ts))

theorem postFits_cons {q : Mnem → Posn} {t : Exec} {ts : List Exec} : PostFits q (t :: ts) ↔
    ((q t.trader).addTrade t).InRange ∧
      PostFits (Function.update q t.trader ((q t.trader).addTrade t)) ts := Iff.rfl

theorem tradesOf_cons (m : Match) (ms : List Match) :
    tradesOf (m :: ms) = m.makerTrade :: m.takerTrade :: tradesOf ms := rfl

section Posting

variable {T : Sessions} {contr : Mnem} {settlDay : Int} {q : Mnem → Posn} {t : Exec}

theorem Sessions.post_one_get (T : Sessions) (t : Exec) (u : Mnem) :
    (Sessions.post T [t]).get u = if u = t.trader then (T.get t.trader).post t else T.get u :=
  Table.modify_get (TraderSess.post_mnem t) u

/-- A trade changes the position of its trader. -/
theorem Sessions.posnOf_post (hkey : t.contr = contr ∧ t.settlDay = settlDay)
    (hp : (T.get t.trader).hasPosn contr settlDay = true)
    (hq : ∀ u, (T.get u).posnOf contr settlDay = q u) (u : Mnem) :
    ((Sessions.post T [t]).get u).posnOf contr settlDay =
      Function.update q t.trader ((q t.trader).addTrade t) u := by
  obtain ⟨rfl, rfl⟩ := hkey
  rw [Sessions.post_one_get]
  by_cases hu : u = t.trader
  · subst hu
    rw [if_pos rfl, TraderSess.posnOf_post hp, Function.update_self, ← hq]
    exact if_pos rfl
  · rw [if_neg hu, Function.update_of_ne hu]
    exact hq u

theorem Sessions.hasPosn_post {u : Mnem} (hp : (T.get u).hasPosn contr settlDay = true) :
    ((Sessions.post T [t]).get u).hasPosn contr settlDay = true := by
  rw [Sessions.post_one_get]
  split
  · next hu => exact TraderSess.hasPosn_post (hu ▸ hp)
  · exact hp

end Posting

/-! ### The commit loop -/

section Commit

variable {w : Arith} (hw : w.Faithful int64) {s : Serv} {c : Ctx} {sess book : Mnem}
variable {posn : PosnPtr} {now : Int} {m : Match} {t : Exec}

include hw

/-- A trade is kept, and added to a position that has room for it. -/
theorem Serv.post64_eq (hcost : Fits int64 (cost t.lastLots t.lastTicks))
    (hposn : (((s.traders.get t.trader).posnOf t.contr t.settlDay).addTrade t).InRange) :
    (s.insertTrade t.trader t).addTrade64 w ⟨t.trader, t.contr, t.settlDay⟩ t =
      { s with traders := Sessions.post s.traders [t] } := by
  refine (Serv.addTrade64_eq hw hcost (fun q hq => ?_)).trans (s.insertTrade_addTrade t)
  have hsess : (s.insertTrade t.trader t).traders.get t.trader =
      (s.traders.get t.trader).insertTrade t := Serv.modifySess_get_self s _ _ _
  have hq' : (s.traders.get t.trader).posns.find? (toLex (t.contr, t.settlDay)) = some q := by
    rw [hsess] at hq
    exact hq
  have heq : (s.traders.get t.trader).posnOf t.contr t.settlDay = q := by
    unfold TraderSess.posnOf
    rw [hq']
    rfl
  rwa [heq] at hposn

theorem Ctx.commitMatch64_eq (hbook : c.resp.book = some book) (hposn : c.resp.posn = some posn)
    (hm : m.Posts c.serv.heap sess posn)
    (htake : c.serv.takeOrder64 w book m.makerOrder m.lots now =
      c.serv.takeOrder book m.makerOrder m.lots now)
    (hmakerCost : Fits int64 (cost m.makerTrade.lastLots m.makerTrade.lastTicks))
    (htakerCost : Fits int64 (cost m.takerTrade.lastLots m.takerTrade.lastTicks))
    (hmaker : (((c.serv.traders.get m.makerTrade.trader).posnOf m.makerTrade.contr
      m.makerTrade.settlDay).addTrade m.makerTrade).InRange)
    (htaker : ((((Sessions.post c.serv.traders [m.makerTrade]).get m.takerTrade.trader).posnOf
      m.takerTrade.contr m.takerTrade.settlDay).addTrade m.takerTrade).InRange) :
    c.commitMatch64 w sess now m = c.commitMatch sess now m := by
  obtain ⟨hmakerOrder, hmakerPosn, rfl, rfl⟩ := hm
  have htrader : ((c.serv.takeOrder book m.makerOrder m.lots now).heap m.makerOrder).trader =
      m.makerTrade.trader := (Serv.takeOrder_trader _ _ _ _ _ _).trans hmakerOrder
  have htraders : (c.serv.takeOrder book m.makerOrder m.lots now).traders = c.serv.traders := rfl
  unfold commitMatch64 commitMatch takeOrder64 takeOrder addTrade64 addTrade
  simp only [hbook, hposn, htake, htrader, hmakerPosn]
  generalize c.serv.takeOrder book m.makerOrder m.lots now = s₁ at htraders ⊢
  rw [← htraders] at hmaker htaker
  -- The maker's position, and then the taker's.
  have hfirst := Serv.post64_eq hw (s := s₁) hmakerCost hmaker
  have hsecond := Serv.post64_eq hw
    (s := { s₁ with traders := Sessions.post s₁.traders [m.makerTrade] }) htakerCost htaker
  simp only [hfirst, hsecond, Serv.insertTrade_addTrade]

/-- What a match is committed to: a maker at rest with the lots for it, and positions that are
there. -/
structure Match.Committable (contr : Mnem) (settlDay : Int) (s : Serv) (resting : List OrderPtr)
    (m : Match) : Prop where
  maker : m.makerOrder ∈ resting
  lots : 0 < m.lots
  lots_le : m.lots ≤ (s.heap m.makerOrder).resd
  fill : (s.heap m.makerOrder).FillFits m.lots
  trades : ∀ t ∈ [m.makerTrade, m.takerTrade], (t.contr = contr ∧ t.settlDay = settlDay) ∧
    Fits int64 (cost t.lastLots t.lastTicks) ∧
    (s.traders.get t.trader).hasPosn contr settlDay = true

omit hw in
/-- It stays so while its maker is left alone and positions are kept. -/
theorem Match.Committable.next {contr : Mnem} {settlDay : Int} {s s' : Serv}
    {resting resting' : List OrderPtr} (h : m.Committable contr settlDay s resting)
    (hrests : m.makerOrder ∈ resting') (hheap : s'.heap m.makerOrder = s.heap m.makerOrder)
    (hkeep : ∀ u, (s.traders.get u).hasPosn contr settlDay = true →
      (s'.traders.get u).hasPosn contr settlDay = true) :
    m.Committable contr settlDay s' resting' where
  maker := hrests
  lots := h.lots
  lots_le := hheap ▸ h.lots_le
  fill := hheap ▸ h.fill
  trades t ht := by
    obtain ⟨hkey, hcost, hhas⟩ := h.trades t ht
    exact ⟨hkey, hcost, hkeep t.trader hhas⟩

/-- **The commit loop**, by induction on the matches still to be committed. -/
theorem Ctx.commitMatches64_eq {contr : Mnem} {settlDay : Int} (sd : Side) {ms : List Match}
    {c : Ctx} {q : Mnem → Posn} (hb : BooksOk c.serv) (hs : Sane c.serv)
    (hm : book ∈ c.serv.markets.keys) (hbook : c.resp.book = some book)
    (hposn : ms ≠ [] → c.resp.posn = some posn)
    (hposts : ∀ m ∈ ms, m.Posts c.serv.heap sess posn)
    (hms : ∀ m ∈ ms, m.Committable contr settlDay c.serv
      ((c.serv.markets.get book).side sd).orders)
    (hnodup : (ms.map Match.makerOrder).Nodup)
    (hq : ∀ u, (c.serv.traders.get u).posnOf contr settlDay = q u)
    (hfits : PostFits q (tradesOf ms)) :
    ms.foldl (commitMatch64 w sess now) c = ms.foldl (commitMatch sess now) c := by
  induction ms generalizing c q with
  | nil => rw [List.foldl_nil, List.foldl_nil]
  | cons m ms ih =>
      have hposn := hposn (List.cons_ne_nil m ms)
      obtain ⟨hmem, hpos, hle, hfill, htrades⟩ := hms m List.mem_cons_self
      obtain ⟨hmakerKey, hmakerCost, hmakerPosn⟩ := htrades m.makerTrade List.mem_cons_self
      obtain ⟨htakerKey, htakerCost, htakerPosn⟩ :=
        htrades m.takerTrade (List.mem_cons_of_mem _ List.mem_cons_self)
      rw [tradesOf_cons, postFits_cons, postFits_cons] at hfits
      obtain ⟨hfits₁, hfits₂, hrest⟩ := hfits
      rw [List.map_cons, List.nodup_cons] at hnodup
      have hq₁ := Sessions.posnOf_post hmakerKey hmakerPosn hq
      have hq₂ := Sessions.posnOf_post htakerKey (Sessions.hasPosn_post htakerPosn) hq₁
      have hone : c.commitMatch64 w sess now m = c.commitMatch sess now m := by
        refine commitMatch64_eq hw hbook hposn (hposts m List.mem_cons_self)
          (hs.takeOrder64_eq hw hb hm hmem now hpos.le hle hfill) hmakerCost htakerCost ?_ ?_
        · rw [hmakerKey.1, hmakerKey.2, hq]
          exact hfits₁
        · rw [htakerKey.1, htakerKey.2, hq₁]
          exact hfits₂
      have hserv := commitMatch_serv now hbook hposn (hposts m List.mem_cons_self)
      have hposts' := posts_commitMatch now hbook hposn hposts
      obtain ⟨hbook', hposn'⟩ := commitMatch_resp sess now m hbook hposn
      have htaken : TakenAll c.serv (c.serv.takeOrder book m.makerOrder m.lots now) now
          [(m.makerOrder, m.lots)] := TakenAll.one (f := (m.makerOrder, m.lots)) hb hm hmem
      have hbooks : _ ∧ _ ∧ (c.commitMatch sess now m).resp.book = _ := commitMatch_books hbook
      obtain ⟨hheap, hmarkets, -⟩ := hbooks
      have htraders : (c.commitMatch sess now m).serv.traders =
          Sessions.post (Sessions.post c.serv.traders [m.makerTrade]) [m.takerTrade] := by
        rw [hserv]
        rfl
      rw [List.foldl_cons, List.foldl_cons, hone]
      refine ih (htaken.books.of_eq hheap hmarkets)
        ((hs.takenAll hb htaken (by simpa using hpos.le)).of_eq hheap hmarkets)
        (by rw [hmarkets]; exact hm) hbook' (fun _ => hposn') hposts' (fun m' hm' => ?_) hnodup.2
        (fun u => by rw [htraders]; exact hq₂ u) hrest
      -- The makers still to be taken are as they were, and positions stay.
      have hms' := hms m' (List.mem_cons_of_mem m hm')
      have hne : m'.makerOrder ≠ m.makerOrder :=
        fun heq => hnodup.1 (heq ▸ List.mem_map_of_mem hm')
      obtain ⟨hrests, hsame⟩ := htaken.rest hb hm hms'.maker (by simpa using hne)
      refine hms'.next (by rw [hmarkets]; exact hrests) (by rw [hheap, hsame]) (fun u hu => ?_)
      rw [htraders]
      exact Sessions.hasPosn_post (Sessions.hasPosn_post hu)

end Commit

/-! ### What has to fit -/

/-- What the level comes to that the rest of the order joins. -/
def Serv.LevelFits (s : Serv) (a : OrderArgs) : Prop :=
  0 < s.leaves a → Fits int64 (composeKey a.side a.ticks) ∧
    levelLots s.heap ((s.markets.get a.book).side a.side).orders (composeKey a.side a.ticks) +
      s.leaves a < 2 ^ 63

instance Serv.LevelFits.instDecidable (s : Serv) (a : OrderArgs) : Decidable (s.LevelFits a) :=
  inferInstanceAs (Decidable (_ → _ ∧ _))

/-- The position of each trader in the contract and for the day of the market. -/
def Serv.positions (s : Serv) (book : Mnem) (u : Mnem) : Posn :=
  (s.traders.get u).posnOf (s.markets.get book).contr (s.markets.get book).settlDay

/-- What a call computes fits, as far as it gets. The prices compared and the level key belong to
it: the totals are those of the makers, and of the level, that the exact prices give the call, and
with a price that wraps it trades with others or joins another. -/
structure TotalsFit (env : Env) (s : Serv) (a : OrderArgs) (resp : Response) : Prop where
  matching : ChecksOk env s a → OpenOk env →
    LoopFits s.heap (s.newOrder a) a.lots 0 (s.makers a)
  placing : ChecksOk env s a → OpenOk env → LoopOk env s a → s.LevelFits a
  committing : ReachesJourn env s a → env.journ = true → PrepOk env s a resp →
    PostFits (s.positions a.book) (tradesOf (s.newMatches a))

/-! ### The lots of the orders at rest -/

/-- What every run preserves whose calls compute what fits. -/
structure TotalsInv (s : Serv) : Prop extends HoldInv s where
  whole : ∀ m ∈ s.markets.keys, ∀ sd, ∀ p ∈ ((s.markets.get m).side sd).orders,
    (s.heap p).exec + (s.heap p).resd < 2 ^ 63

namespace TotalsInv

variable {env : Env} {s s' : Serv} {a : OrderArgs} {resp : Response}

theorem restLots (hi : TotalsInv s) {m : Mnem} (hm : m ∈ s.markets.keys) {sd : Side}
    {p : OrderPtr} (hp : p ∈ ((s.markets.get m).side sd).orders) : (s.heap p).RestLots :=
  ⟨(hi.books m hm sd).resd_pos hp, hi.sane.exec m hm sd p hp, hi.whole m hm sd p hp⟩

theorem init (h : s.EmptyBooks) : TotalsInv s where
  toHoldInv := HoldInv.init h
  whole m hm sd p hp := by
    rw [h.side m hm] at hp
    exact absurd hp List.not_mem_nil

/-- Orders keep their lots, and the new one has those it was made with. -/
theorem of_taker (hi : TotalsInv s) (hi' : HoldInv s') (ha : a.Delivered s)
    (hkeys : s'.markets.keys = s.markets.keys)
    (hmem : ∀ m ∈ s.markets.keys, ∀ sd, ∀ q ∈ ((s'.markets.get m).side sd).orders,
      q ∈ ((s.markets.get m).side sd).orders ∨ q = s.heap.next)
    (hold : ∀ q < s.heap.next,
      (s'.heap q).exec + (s'.heap q).resd = (s.heap q).exec + (s.heap q).resd)
    (hnew : s'.heap s.heap.next = s.takerPlaced a) : TotalsInv s' where
  toHoldInv := hi'
  whole m hm sd p hp := by
    rw [hkeys] at hm
    rcases hmem m hm sd p hp with hp | rfl
    · rw [hold p (hi.books.lt_next hm sd p hp)]
      exact hi.whole m hm sd p hp
    · have hlots : (s.takerPlaced a).exec + (s.takerPlaced a).resd = a.lots := by
        rw [Serv.takerPlaced_proj (fun o : Order => o.exec + o.resd) (fun _ _ => rfl),
          Serv.taker_exec]
        omega
      rw [hnew, hlots]
      exact ha.lots.2

theorem ext (hi : TotalsInv s) (hi' : HoldInv s') (he : Ext a.book s s') : TotalsInv s' where
  toHoldInv := hi'
  whole m hm sd p hp := by
    rw [he.marketKeys] at hm
    rw [he.side] at hp
    rw [he.heap p (hi.books.lt_next hm sd p hp)]
    exact hi.whole m hm sd p hp

theorem traded (hi : TotalsInv s) (hi' : HoldInv s') (ha : a.Delivered s)
    (ht : Traded s s' a) : TotalsInv s' := by
  refine hi.of_taker hi' ha ht.marketKeys (fun m hm sd q hq => ?_) (fun q hq => ?_) ht.heap_taker
  · exact ((ht.mem m hm sd q).mp hq).1.imp_right And.left
  · by_cases hmaker : q ∈ (s.fills a).map Prod.fst
    · obtain ⟨f, hf, rfl⟩ := List.mem_map.mp hmaker
      rw [ht.heap_maker f hf, Order.taken_resd, Order.taken_exec]
      omega
    · rw [ht.heap_old q hq hmaker]

theorem orphaned (hi : TotalsInv s) (hi' : HoldInv s') (ha : a.Delivered s)
    (ho : Orphaned s s' a) : TotalsInv s' := by
  refine hi.of_taker hi' ha ho.marketKeys (fun m _ sd q hq => ?_) (fun q hq => ?_) ?_
  · exact ((ho.mem m sd q).mp hq).imp_right And.left
  · rw [ho.heap, Heap.alloc_of_lt hq]
  · rw [ho.heap, Heap.alloc_self]

/-- **Every call that gets as far as the journal only with an order there is room for** keeps
the invariant. -/
theorem call (hi : TotalsInv s) (ha : a.Delivered s) (hlots : 0 < a.lots)
    (hroom : ReachesJourn env s a → s.HasRoom a) (hstrand : ¬ Strands env s a) :
    TotalsInv ((createOrder env a).final ⟨s, resp⟩).serv := by
  have hi' : HoldInv ((createOrder env a).final ⟨s, resp⟩).serv :=
    hi.toHoldInv.call ha (fun _ => hlots) hroom hstrand
  rcases createOrder_cases env resp hi.books ha.book hlots.le with
    ⟨c', s₁, hok, hC⟩ | ⟨e, c', herror, hf⟩
  · rw [final_ok hok] at hi' ⊢
    exact hi.traded hi' ha (hC.traded hi.books ha.book ha.sess hlots.le hi.matchVec)
  · rw [final_error herror] at hi' ⊢
    rcases hf.cases hi.books ha.book hlots.le hi.matchVec hstrand with ⟨he, -⟩ | ⟨-, ho⟩
    · exact hi.ext hi' he
    · exact hi.orphaned hi' ha ho

end TotalsInv

/-! ### One call -/

section Call

variable {w : Arith} (hw : w.Faithful int64) {env : Env} {s s₁ : Serv} {a : OrderArgs}
variable {resp : Response}

theorem Serv.LevelFits.room (h : s.LevelFits a) (hlots : 0 < a.lots) : s.HasRoom a :=
  ⟨hlots, fun hleft => (h hleft).2⟩

theorem Serv.newOrder_fresh (ha : a.Delivered s) (hlots : 0 < a.lots) : (s.newOrder a).Fresh :=
  ⟨hlots.le, ha.lots.2, rfl, rfl⟩

/-- The trades of a call are of its contract and day, at prices and for lots of its fills. -/
theorem Serv.tradesOf_fills (hb : BooksOk s) (hm : a.book ∈ s.markets.keys) {m : Match}
    (hmem : m ∈ s.newMatches a) {t : Exec} (ht : t ∈ [m.makerTrade, m.takerTrade]) :
    (t.contr = (s.markets.get a.book).contr ∧ t.settlDay = (s.markets.get a.book).settlDay) ∧
      cost t.lastLots t.lastTicks = fillCost s.heap (m.makerOrder, m.lots) := by
  obtain ⟨f, hf, sums, id, rfl⟩ := mem_buildMatches hmem
  have hrest := (hb a.book hm a.side.opposite).rests f.1 (mem_orders_of_mem_fillsOf hf)
  rcases List.mem_pair.mp ht with rfl | rfl
  · exact ⟨⟨hrest.contr, hrest.settlDay⟩, rfl⟩
  · exact ⟨⟨rfl, rfl⟩, rfl⟩

include hw

/-- Matching, from the state in which the order was opened. -/
theorem TotalsInv.matchOrders64_eq (hi : TotalsInv s) (ha : a.Delivered s) (hlots : 0 < a.lots)
    (hfits : LoopFits s.heap (s.newOrder a) a.lots 0 (s.makers a)) :
    matchOrders64 w env a.book s.heap.next a.now ⟨s.opened a, resp⟩ =
      matchOrders env a.book s.heap.next a.now ⟨s.opened a, resp⟩ := by
  have htaker : (s.opened a).heap s.heap.next = s.newOrder a := Serv.opened_taker
  have hside : ((s.opened a).markets.get a.book).side a.side.opposite =
      (s.markets.get a.book).side a.side.opposite := (s.ext_opened a).side a.book _
  have hheap : ∀ q ∈ s.makers a, (s.opened a).heap q = s.heap q :=
    fun q hq => Heap.alloc_of_lt (hi.books.makers_lt ha.book q hq) _
  refine Swirly.matchOrders64_eq hw ?_ ?_ ?_
  · show ((s.opened a).heap s.heap.next).Fresh
    rw [htaker]
    exact Serv.newOrder_fresh ha hlots
  · show ∀ q ∈ (((s.opened a).markets.get a.book).side
      ((s.opened a).heap s.heap.next).side.opposite).orders, ((s.opened a).heap q).RestLots
    rw [htaker]
    show ∀ q ∈ (((s.opened a).markets.get a.book).side a.side.opposite).orders, _
    rw [hside]
    intro q hq
    rw [hheap q hq]
    exact hi.restLots ha.book hq
  · show LoopFits (s.opened a).heap ((s.opened a).heap s.heap.next)
      ((s.opened a).heap s.heap.next).resd 0 (((s.opened a).markets.get a.book).side
        ((s.opened a).heap s.heap.next).side.opposite).orders
    rw [htaker]
    show LoopFits (s.opened a).heap (s.newOrder a) a.lots 0
      (((s.opened a).markets.get a.book).side a.side.opposite).orders
    rw [hside]
    exact hfits.congr hheap

/-- Placing what is left of the order. -/
theorem Matched.placeOrder64_eq (hM : Matched s s₁ a) (hi : TotalsInv s) (ha : a.Delivered s)
    (hlots : 0 < a.lots) (hfits : s.LevelFits a) :
    placeOrder64 w env a.book s.heap.next ⟨s₁, resp⟩ =
      placeOrder env a.book s.heap.next ⟨s₁, resp⟩ := by
  have hb := hi.books
  have htaker := hM.taker
  have hresd := hb.taker_resd_eq ha.book hlots.le
  have hnonneg := levelLots_nonneg (fun q hq => ((hb a.book ha.book a.side).resd_pos hq).le)
    (composeKey a.side a.ticks)
  have hleft : (s.taker a).done = false → 0 < s.leaves a := by
    intro hdone
    have hne : (s.taker a).resd ≠ 0 := by simpa [Order.done] using hdone
    omega
  refine Swirly.placeOrder64_eq hw (fun hdone => ?_) (fun hdone l hl => ?_)
  · rw [htaker] at hdone ⊢
    rw [Serv.taker_level_key]
    exact (hfits (hleft hdone)).1
  · rw [htaker, Serv.taker_side, Serv.taker_level_key, hM.ext.side] at hl
    rw [htaker] at hdone ⊢
    obtain ⟨hmem, hkey⟩ := KeySet.mem_of_find? hl
    obtain ⟨blocks, hr⟩ := (hb a.book ha.book a.side).rep
    have hlevel := hr.level_resd hmem
    rw [hkey] at hlevel
    have hroom := (hfits (hleft hdone)).2
    have hpos := hleft hdone
    exact Lib.fits_int64.mpr ⟨by omega, by omega⟩

/-- Journaling, with the guard that takes the order out again. -/
theorem Matched.journOrder64_eq (hM : Matched s s₁ a) (hi : TotalsInv s) (ha : a.Delivered s)
    (hlots : 0 < a.lots) (hfits : s.LevelFits a) {exec : Exec} :
    journOrder64 w env a.book s.heap.next exec ⟨s₁.placed a.book s.heap.next, resp⟩ =
      journOrder env a.book s.heap.next exec ⟨s₁.placed a.book s.heap.next, resp⟩ := by
  have hb := hi.books
  obtain ⟨hb', hmem⟩ := hM.placed_books hb ha.book hlots.le
  have hs' := hM.placed_sane hi.sane hb ha.book (hfits.room hlots)
  have hm' : a.book ∈ (s₁.placed a.book s.heap.next).markets.keys := by
    rw [Serv.placed_keys, hM.ext.marketKeys]
    exact ha.book
  have hheap : (s₁.placed a.book s.heap.next).heap s.heap.next = s.takerPlaced a := by
    rw [hM.placed_heap, Heap.alloc_self]
  refine Swirly.journOrder64_eq hw (fun hdone k hk l hl => ?_)
  have hpos : 0 < (s.taker a).resd := by
    have hnonneg := hb.taker_resd_nonneg ha.book hlots.le
    rw [hheap] at hdone
    have hne : (s.takerPlaced a).resd ≠ 0 := by simpa [Order.done] using hdone
    rw [Serv.takerPlaced_proj Order.resd (fun _ _ => rfl)] at hne
    omega
  have hin := (hmem a.book a.side s.heap.next).mpr (Or.inr ⟨rfl, rfl, rfl, hpos⟩)
  rw [(hb' a.book hm' a.side).side hin] at hl
  exact hs'.level_sub_fits hb' hm' hin ((hb' a.book hm' a.side).resd_pos hin).le le_rfl hk hl

omit hw in
/-- When the commit phase begins, positions are what they were. -/
theorem Matched.committing_posnOf (hM : Matched s s₁ a) (hi : TotalsInv s) (ha : a.Delivered s)
    (u : Mnem) : ((s.committing s₁ a).traders.get u).posnOf (s.markets.get a.book).contr
      (s.markets.get a.book).settlDay = s.positions a.book u := by
  obtain ⟨T, -, hext, -, hcommit⟩ := hM.sessions hi.books ha.book ha.sess hi.matchVec
  have hsame := (hext u).posnOf (s.markets.get a.book).contr (s.markets.get a.book).settlDay
  rw [hcommit, Table.modify_get]
  split
  · next hu =>
      subst hu
      rw [Serv.positions, ← hsame]
      unfold TraderSess.posnOf
      rw [TraderSess.insertOrder_posns, TraderSess.insertOrder_mnem]
  · exact hsame

omit hw in
/-- What the matches of the call are committed to. -/
theorem Matched.committable (hM : Matched s s₁ a) (hi : TotalsInv s) (ha : a.Delivered s)
    (hlots : 0 < a.lots) (hfits : LoopFits s.heap (s.newOrder a) a.lots 0 (s.makers a)) {m : Match}
    (hmem : m ∈ s.newMatches a) :
    m.Committable (s.markets.get a.book).contr (s.markets.get a.book).settlDay
      (s.committing s₁ a)
      (((s.committing s₁ a).markets.get a.book).side a.side.opposite).orders := by
  have hb := hi.books
  have hf := Serv.mem_fills hmem
  have hmaker := mem_orders_of_mem_fillsOf hf
  obtain ⟨hpos, hle⟩ := hb.fill_bounds ha.book hlots.le _ hf
  have hheap : (s.committing s₁ a).heap m.makerOrder = s.heap m.makerOrder :=
    hM.committing_heap_old _ (hb.makers_lt ha.book _ hmaker)
  refine ⟨(hM.mem_committing hb ha.book hlots.le _ _ _).mpr (Or.inl hmaker), hpos, ?_, ?_,
    fun t ht => ?_⟩
  · rw [hheap]
    exact hle
  · rw [hheap]
    exact (hi.restLots ha.book hmaker).fillFits hpos.le hle (hfits.costs _ hf) (hfits.totals _ hf)
  · obtain ⟨hkey, hcost⟩ := Serv.tradesOf_fills hb ha.book hmem ht
    obtain ⟨T, -, -, hhas, hcommit⟩ := hM.sessions hb ha.book ha.sess hi.matchVec
    have hp := hhas t (List.mem_flatMap.mpr ⟨m, hmem, ht⟩)
    rw [hkey.1, hkey.2] at hp
    refine ⟨hkey, hcost ▸ hfits.costs _ hf, ?_⟩
    rw [hcommit, Table.modify_get]
    split
    · next hu =>
        unfold TraderSess.hasPosn at hp ⊢
        rw [TraderSess.insertOrder_posns, ← hu]
        exact hp
    · exact hp

/-- The commit phase. -/
theorem Matched.commitOrder64_eq (hM : Matched s s₁ a) (hi : TotalsInv s) (ha : a.Delivered s)
    (hlots : 0 < a.lots) (hfits : LoopFits s.heap (s.newOrder a) a.lots 0 (s.makers a))
    (hlevel : s.LevelFits a) (hposns : PostFits (s.positions a.book) (tradesOf (s.newMatches a))) :
    Ctx.commitOrder64 w a s.heap.next (s.newExec a)
        ⟨(s.journaled s₁ a).prepared a, resp.prepared (s.journaled s₁ a) a⟩ =
      Ctx.commitOrder a s.heap.next (s.newExec a)
        ⟨(s.journaled s₁ a).prepared a, resp.prepared (s.journaled s₁ a) a⟩ := by
  have hb := hi.books
  have hbooks := hM.committing_books hb ha.book hlots.le
  have hsane : Sane (s.committing s₁ a) :=
    (hM.placed_sane hi.sane hb ha.book (hlevel.room hlots)).of_eq (s.committing_heap s₁ a)
      (s.committing_markets s₁ a)
  have hloop : (s.newMatches a).foldl (Ctx.commitMatch64 w a.sess a.now)
      ⟨s.committing s₁ a, resp.committing s s₁ a⟩ = (s.newMatches a).foldl
        (Ctx.commitMatch a.sess a.now) ⟨s.committing s₁ a, resp.committing s s₁ a⟩ := by
    refine Ctx.commitMatches64_eq hw a.side.opposite hbooks hsane ?_ rfl ?_
      (fun m hmem => hb.matches_post ha.book ha.sess hmem hM.committing_heap_old)
      (fun m hmem => hM.committable hi ha hlots hfits hmem) ?_
      (hM.committing_posnOf hi ha) hposns
    · exact hM.committing_keys ▸ ha.book
    · exact fun hne => hM.preparedPosn hi.matchVec hne
    · rw [s.newMatches_makers]
      exact hb.fills_nodup ha.book
  rw [hM.commitOrder_eq hi.matchVec, ← hloop]
  refine (foldl_of_ne_nil (Ctx.commitMatch64 w a.sess a.now)
    ⟨s.committing s₁ a, resp.committing s s₁ a⟩ (s.committing s₁ a).matchVec).trans ?_
  rw [hM.committing_matchVec hi.matchVec]

/-- **A call that computes what fits is the call of the integers.** -/
theorem TotalsInv.createOrder64_eq (hi : TotalsInv s) (ha : a.Delivered s)
    (hpos : ChecksOk env s a → 0 < a.lots) (hfits : TotalsFit env s a resp) :
    createOrder64 w env a ⟨s, resp⟩ = createOrder env a ⟨s, resp⟩ := by
  have hb := hi.books
  unfold createOrder64 createOrder
  refine bind_eq rfl ?_
  unfold checkOrder
  simp only [wp_bind, wp_get, wp_ite, wp_throw, wp_pure]
  refine ⟨fun _ => trivial, fun hopen => ⟨fun _ => trivial, fun hgood => ?_⟩⟩
  have hchecks : ChecksOk env s a := ⟨hopen, hgood⟩
  have hlots := hpos hchecks
  refine bind_eq rfl (openOrder_wp (fun hopenOk => ?_) (fun _ _ _ _ => trivial))
  have hmatching := hfits.matching hchecks hopenOk
  refine bind_eq (hi.matchOrders64_eq hw ha hlots hmatching)
    (matchOrders_opened_wp (hb.makers_lt ha.book) (fun s₁ hM hloop hposn => ?_)
      (fun _ _ _ _ _ => trivial))
  have hlevel := hfits.placing hchecks hopenOk hloop
  refine withFinally_eq _ (bind_eq (hM.placeOrder64_eq hw hi ha hlots hlevel)
    (placeOrder_wp (fun hroom => ?_) (fun _ => trivial)))
  refine bind_eq (hM.journOrder64_eq hw hi ha hlots hlevel)
    (journOrder_wp (fun hyes => ?_) (fun _ => trivial))
  rw [← bind_assoc, ← bind_assoc]
  refine bind_eq rfl (prepare_wp (fun hprep => ?_) (fun _ _ _ => trivial))
  have hreaches : ReachesJourn env s a := ⟨hchecks, hopenOk, hloop, hM.levelOk.mpr hroom⟩
  have hposns := hfits.committing hreaches hyes ((PrepOk.iff_at hM hposn).mp hprep)
  exact congrArg (EStateM.Result.ok ()) (hM.commitOrder64_eq hw hi ha hlots hmatching hlevel hposns)

end Call

/-! ### Runs -/

/-- **No total wraps in a run whose calls compute what fits**: every call of the run does, for
the service and its caller, what `createOrder` does with the integers, whatever the machine
makes of results that do not fit. -/
theorem totals_exact {w : Arith} (hw : w.Faithful int64) {s₀ s : Serv} (h₀ : s₀.EmptyBooks)
    {trace : List (Serv × OrderCall)} (hrun : Traced (OrderCall.Step64 w) s₀ trace s)
    (hcalls : ∀ e ∈ trace, e.2.args.Delivered e.1 ∧ 0 < e.2.args.lots)
    (hfits : ∀ e ∈ trace, TotalsFit e.2.env e.1 e.2.args e.2.resp ∧
      ¬ Strands e.2.env e.1 e.2.args) :
    ∀ e ∈ trace, createOrder64 w e.2.env e.2.args ⟨e.1, e.2.resp⟩ =
      createOrder e.2.env e.2.args ⟨e.1, e.2.resp⟩ := by
  have hall : TotalsInv s ∧ ∀ e ∈ trace, createOrder64 w e.2.env e.2.args ⟨e.1, e.2.resp⟩ =
      createOrder e.2.env e.2.args ⟨e.1, e.2.resp⟩ := by
    induction hrun with
    | nil => exact ⟨TotalsInv.init h₀, by simp⟩
    | snoc hrun hstep ih =>
        rw [List.forall_mem_append, List.forall_mem_singleton] at hcalls hfits
        obtain ⟨hcalls, ha, hlots⟩ := hcalls
        obtain ⟨hfits, hfit, hstrand⟩ := hfits
        obtain ⟨hi, hexact⟩ := ih hcalls hfits
        have hcall := hi.createOrder64_eq hw ha (fun _ => hlots) hfit
        refine ⟨?_, List.forall_mem_append.mpr ⟨hexact, by simpa using hcall⟩⟩
        rw [hstep, final_eq hcall]
        refine hi.call ha hlots (fun hreaches => ?_) hstrand
        exact (hfit.placing hreaches.checks hreaches.openOk hreaches.loop).room hlots
  exact hall.2

namespace Mock

theorem call_fits {s : Serv} {a : OrderArgs}
    (hmatching : LoopFits s.heap (s.newOrder a) a.lots 0 (s.makers a)) (hplacing : s.LevelFits a)
    (hcommitting : PostFits (s.positions a.book) (tradesOf (s.newMatches a))) :
    TotalsFit env s a {} ∧ ¬ Strands env s a := by
  have hsound : Sound env s a {} := NoAllocFailure.sound (fun _ => rfl)
  exact ⟨⟨fun _ _ => hmatching, fun _ _ _ => hplacing, fun _ _ _ => hcommitting⟩, hsound.1⟩

/-- MARAYL bids for 2³² lots at 2³¹, and SWIRLY sells them. -/
def bigTrade : Serv :=
  (serv.call64 env (order marayl .buy (2 ^ 32) (2 ^ 31))).call64 env
    (order swirly .sell (2 ^ 32) (2 ^ 31))

/-- MARAYL bids for 2⁶² lots, twice. -/
def deepBid : Serv :=
  (serv.call64 env (order marayl .buy (2 ^ 62) 12345)).call64 env
    (order marayl .buy (2 ^ 62) 12345)

end Mock

/-- The two calls, one after the other. -/
theorem sellFour_totals :
    createOrder64 (wrap int64) Mock.bidTen.env Mock.bidTen.args ⟨Mock.serv, {}⟩ =
      createOrder Mock.bidTen.env Mock.bidTen.args ⟨Mock.serv, {}⟩ ∧
    createOrder64 (wrap int64) Mock.sellFour.env Mock.sellFour.args ⟨Mock.bid64, {}⟩ =
      createOrder Mock.sellFour.env Mock.sellFour.args ⟨Mock.bid64, {}⟩ := by
  have htotals := totals_exact (Lib.wrap_faithful int64) Mock.serv_empty.toEmptyBooks
    Mock.sellFour_run ?_ ?_
  · exact ⟨htotals (Mock.serv, Mock.bidTen) List.mem_cons_self,
      htotals (Mock.bid64, Mock.sellFour) (List.mem_cons_of_mem _ List.mem_cons_self)⟩
  · refine List.forall_mem_cons.mpr ⟨⟨?_, by decide⟩,
      List.forall_mem_singleton.mpr ⟨?_, by decide⟩⟩ <;>
    exact Mock.order_delivered (by decide) (by decide) ⟨by decide, by decide⟩
      ⟨by decide, by decide⟩
  · refine List.forall_mem_cons.mpr ⟨?_, List.forall_mem_singleton.mpr ?_⟩ <;>
    exact Mock.call_fits ⟨by decide, by decide, by decide, by decide⟩ (by decide) (by decide)

/-- **Totals wrap**: a trade for 2⁶³ in all is journaled, and posted to the positions, as one for
−2⁶³; and a level of 2⁶³ lots has −2⁶³. -/
theorem bigTrade_wraps :
    (∃ e ∈ Mock.bigTrade.journ, e.state = .trade ∧ cost e.lastLots e.lastTicks = 2 ^ 63 ∧
      e.cost = -2 ^ 63) ∧
    (Mock.bigTrade.positions Mock.market Mock.marayl).buyCost = -2 ^ 63 ∧
    (Mock.bigTrade.positions Mock.market Mock.swirly).sellCost = -2 ^ 63 ∧
    levelLots Mock.deepBid.heap ((Mock.deepBid.markets.get Mock.market).side .buy).orders (-12345) =
      2 ^ 63 ∧
    (((Mock.deepBid.markets.get Mock.market).side .buy).levels.find? (-12345)).map Level.resd =
      some (-2 ^ 63) := by
  refine ⟨by decide, by decide, by decide, by decide, by decide⟩

end Swirly
