import Swirly.Fig.Journal
import Swirly.Fig.PriceTime

/-!
# Swirly.Fig.Report

**What a call tells its trader.** The commit loop fills the response beside the
sessions, by a rule of its own: the taker's trade always goes in, the maker's order
and trade only when the maker is the caller. `Response.report` is that rule, and
`Told` what comes of it: the response is the caller's part of what was journaled,
and the position in it has all of it added.
-/

namespace Swirly

open Lib (Heap KeySet Table)
open Lib.Effect

/-! ### The commit loop on the response -/

/-- What one match adds to the response of the trader `sess`. -/
def Response.report (sess : Mnem) (r : Response) (m : Match) : Response :=
  let r :=
    if m.makerTrade.trader = sess then (r.insertOrder m.makerOrder).insertExec m.makerTrade else r
  r.insertExec m.takerTrade

section CommitMatch

variable {c : Ctx} {sess book : Mnem} {posn : PosnPtr} {m : Match} {ms : List Match}

theorem Ctx.commitMatch_report (now : Int) (hbook : c.resp.book = some book)
    (hposn : c.resp.posn = some posn) (hu : sess ∈ c.serv.traders.keys)
    (hm : m.Posts c.serv.heap sess posn) :
    (c.commitMatch sess now m).resp = c.resp.report sess m := by
  have htrader : ((c.serv.takeOrder book m.makerOrder m.lots now).heap m.makerOrder).trader =
      m.makerTrade.trader := (Serv.takeOrder_trader _ _ _ _ _ _).trans hm.maker
  have hmnem : ∀ T : Sessions, sess ∈ T.keys → (T.get sess).mnem = sess :=
    fun T => T.key_get sess
  unfold commitMatch takeOrder addTrade
  simp only [hbook, hposn, htrader]
  rw [hmnem]
  · rfl
  · exact hu

/-- The commit loop reports every match. -/
theorem Ctx.commitMatches_report (now : Int) (hbook : c.resp.book = some book)
    (hposn : ms ≠ [] → c.resp.posn = some posn) (hu : sess ∈ c.serv.traders.keys)
    (hms : ∀ m ∈ ms, m.Posts c.serv.heap sess posn) :
    (ms.foldl (commitMatch sess now) c).resp = ms.foldl (Response.report sess) c.resp := by
  induction ms generalizing c with
  | nil => rfl
  | cons m ms ih =>
      have hposn := hposn (List.cons_ne_nil m ms)
      obtain ⟨hbook', hposn'⟩ := commitMatch_resp sess now m hbook hposn
      have hu' : sess ∈ (c.commitMatch sess now m).serv.traders.keys := by
        rw [commitMatch_serv now hbook hposn (hms m List.mem_cons_self)]
        exact (Sessions.post_keys _ _).symm ▸ hu
      have hms' := posts_commitMatch now hbook hposn hms
      rw [List.foldl_cons, List.foldl_cons, ih hbook' (fun _ => hposn') hu' hms',
        commitMatch_report now hbook hposn hu (hms m List.mem_cons_self)]

end CommitMatch

/-- What all matches add: the orders and the executions of the trader. -/
theorem Response.foldl_report {sess : Mnem} {ms : List Match}
    (htaker : ∀ m ∈ ms, m.takerTrade.trader = sess) (r : Response) :
    ms.foldl (report sess) r =
      { r with
        orders := r.orders ++
          (ms.filter (fun m => m.makerTrade.trader = sess)).map Match.makerOrder
        execs := r.execs ++ (tradesOf ms).filter (fun t => t.trader = sess) } := by
  induction ms generalizing r with
  | nil => simp [tradesOf]
  | cons m ms ih =>
      have hm : m.takerTrade.trader = sess := htaker m List.mem_cons_self
      have htrades : tradesOf (m :: ms) = m.makerTrade :: m.takerTrade :: tradesOf ms := rfl
      rw [List.foldl_cons, ih (fun m' hm' => htaker m' (List.mem_cons_of_mem m hm')), htrades]
      by_cases hown : m.makerTrade.trader = sess
      · simp [report, insertOrder, insertExec, hown, hm]
      · simp [report, insertExec, hown, hm]

/-! ### The position -/

/-- The caller's position, after all trades of its contract and day are posted. -/
theorem TraderSess.posnOf_foldl_post {contr : Mnem} {settlDay : Int} {ts : List Exec}
    (hkey : ∀ t ∈ ts, t.contr = contr ∧ t.settlDay = settlDay) {u : TraderSess}
    (hp : u.hasPosn contr settlDay = true) :
    (ts.foldl post u).hasPosn contr settlDay = true ∧
      (ts.foldl post u).posnOf contr settlDay =
        ts.foldl Posn.addTrade (u.posnOf contr settlDay) := by
  induction ts generalizing u with
  | nil => exact ⟨hp, rfl⟩
  | cons t ts ih =>
      obtain ⟨hcontr, hday⟩ := hkey t List.mem_cons_self
      have hpt : u.hasPosn t.contr t.settlDay = true := by rw [hcontr, hday]; exact hp
      have hpost : (u.post t).posnOf contr settlDay = (u.posnOf contr settlDay).addTrade t := by
        rw [posnOf_post hpt, Exec.posnKey, hcontr, hday, if_pos rfl]
      have hrest := ih (fun t' ht' => hkey t' (List.mem_cons_of_mem t ht'))
        (hasPosn_post (t := t) hp)
      rw [List.foldl_cons, List.foldl_cons, ← hpost]
      exact hrest

/-! ### The response of a call -/

/-- What the response says of a call that opened `order` with `exec`, made the matches
`ms`, and ended in `c'`. -/
structure Told (s : Serv) (a : OrderArgs) (order : OrderPtr) (exec : Exec) (ms : List Match)
    (c' : Ctx) : Prop where
  /-- What the journal was given. -/
  journ : c'.serv.journ = s.journ ++ journExecs exec ms
  /-- The executions of the caller, as they were journaled. -/
  execs : c'.resp.execs = (journExecs exec ms).filter (fun e => e.trader = a.sess)
  /-- The new order, and then the makers of the caller, as they were matched. -/
  orders : c'.resp.orders = order ::
    (ms.filter (fun m => (c'.serv.heap m.makerOrder).trader = a.sess)).map Match.makerOrder
  /-- The makers are the orders that were filled. -/
  filled : ∀ q, q ∈ ms.map Match.makerOrder ↔
    q < s.heap.next ∧ (s.heap q).exec < (c'.serv.heap q).exec
  posn_none : c'.resp.posn = none ↔ ms = []
  posn_key : ms ≠ [] → c'.resp.posn =
    some ⟨a.sess, (s.markets.get a.book).contr, (s.markets.get a.book).settlDay⟩
  /-- The position has every trade of the caller added, whichever side of the match the
  caller is on. -/
  posn : ∀ p, c'.resp.posn = some p →
    (c'.serv.traders.get p.trader).hasPosn p.contr p.settlDay = true ∧
      (c'.serv.traders.get p.trader).posnOf p.contr p.settlDay =
        ((tradesOf ms).filter (fun t => t.trader = a.sess)).foldl Posn.addTrade
          ((s.traders.get a.sess).posnOf p.contr p.settlDay)
  /-- The commit phase stays within what was reserved before it. -/
  ordersRoom : c'.resp.orders.length ≤ 1 + ms.length ∧ 1 + ms.length ≤ c'.resp.ordersCapacity
  execsRoom : c'.resp.execs.length ≤ 1 + 2 * ms.length ∧
    1 + 2 * ms.length ≤ c'.resp.execsCapacity

section Call

variable {env : Env} {s s₁ : Serv} {a : OrderArgs} {resp : Response} {c' : Ctx}

/-- The response of a committed call. -/
theorem Committed.resp_eq (hC : Committed env s a resp s₁ c') (hb : BooksOk s)
    (hm : a.book ∈ s.markets.keys) (hu : a.sess ∈ s.traders.keys) (hmv : s.matchVec = []) :
    c'.resp = (s.newMatches a).foldl (Response.report a.sess) (resp.committing s s₁ a) := by
  have hM := hC.matched
  have hkeys : a.sess ∈ (s.committing s₁ a).traders.keys := by
    obtain ⟨T, hT, -, -, htraders⟩ := hM.sessions hb hm hu hmv
    rw [htraders]
    exact hT.symm ▸ hu
  rw [hC.eq, hM.commitOrder_eq hmv]
  exact Ctx.commitMatches_report a.now rfl (fun hne => hM.preparedPosn hmv hne) hkeys
    (fun m hmem => hb.matches_post hm hu hmem hM.committing_heap_old)

theorem Serv.takerTrade_trader (hb : BooksOk s) (hv : a.Valid s) {m : Match}
    (hm : m ∈ s.newMatches a) : m.takerTrade.trader = a.sess :=
  (Serv.newMatches_ofCall hb hv hm).takerTrade.trader.trans (Serv.newOrder_trader hv)

/-- All trades of a call are in the contract and for the day of its book. -/
theorem Serv.tradesOf_posn (hb : BooksOk s) (hv : a.Valid s) {t : Exec}
    (ht : t ∈ tradesOf (s.newMatches a)) :
    t.contr = (s.markets.get a.book).contr ∧ t.settlDay = (s.markets.get a.book).settlDay := by
  obtain ⟨m, hm, hcases⟩ := mem_tradesOf.mp ht
  have hof := Serv.newMatches_ofCall hb hv hm
  have hrest := (hb a.book hv.book a.side.opposite).rests m.makerOrder hof.maker
  rcases hcases with rfl | rfl
  · exact ⟨hof.makerTrade.contr.trans hrest.contr, hof.makerTrade.settlDay.trans hrest.settlDay⟩
  · exact ⟨hof.takerTrade.contr, hof.takerTrade.settlDay⟩

/-- The preparation sets no position where there is no match. -/
theorem Response.prepared_posn (hresp : resp.Cleared) {s : Serv} (hnil : s.matchVec = []) :
    (resp.prepared s a).posn = none := by
  unfold prepared preparedPosn
  rw [if_pos hnil]
  exact hresp.2.2.2

theorem tradesOf_length (ms : List Match) : (tradesOf ms).length = 2 * ms.length := by
  unfold tradesOf
  rw [List.length_flatMap]
  simp [mul_comm]

/-- The orders of the response, and its room for them. -/
theorem Committed.resp_orders (hC : Committed env s a resp s₁ c') (hb : BooksOk s)
    (hv : a.Valid s) (hmv : s.matchVec = []) (hresp : resp.Cleared) :
    c'.resp.orders = s.heap.next ::
        ((s.newMatches a).filter (fun m => m.makerTrade.trader = a.sess)).map Match.makerOrder ∧
      1 + (s.newMatches a).length ≤ c'.resp.ordersCapacity := by
  rw [hC.resp_eq hb hv.book hv.sess hmv,
    Response.foldl_report (fun m hm => Serv.takerTrade_trader hb hv hm)]
  refine ⟨?_, ?_⟩
  · show (resp.prepared _ a).orders ++ [s.heap.next] ++ _ = _
    rw [Response.prepared_orders, hresp.2.1]
    rfl
  · show _ ≤ max _ (1 + (s.journaled s₁ a).matchVec.length)
    rw [hC.matched.journaled_matchVec hmv]
    exact le_max_right _ _

/-- The executions of the response, and its room for them. -/
theorem Committed.resp_execs (hC : Committed env s a resp s₁ c') (hb : BooksOk s)
    (hv : a.Valid s) (hmv : s.matchVec = []) (hresp : resp.Cleared) :
    c'.resp.execs =
        s.newExec a :: (tradesOf (s.newMatches a)).filter (fun t => t.trader = a.sess) ∧
      1 + 2 * (s.newMatches a).length ≤ c'.resp.execsCapacity := by
  rw [hC.resp_eq hb hv.book hv.sess hmv,
    Response.foldl_report (fun m hm => Serv.takerTrade_trader hb hv hm)]
  refine ⟨?_, ?_⟩
  · show (resp.prepared _ a).execs ++ [s.newExec a] ++ _ = _
    rw [Response.prepared_execs, hresp.2.2.1]
    rfl
  · show _ ≤ max _ (1 + 2 * (s.journaled s₁ a).matchVec.length)
    rw [hC.matched.journaled_matchVec hmv]
    exact le_max_right _ _

/-- The position of the response. -/
theorem Committed.resp_posn (hC : Committed env s a resp s₁ c') (hb : BooksOk s) (hv : a.Valid s)
    (hmv : s.matchVec = []) (hresp : resp.Cleared) :
    c'.resp.posn = if s.newMatches a = [] then none else
      some ⟨a.sess, (s.markets.get a.book).contr, (s.markets.get a.book).settlDay⟩ := by
  have hM := hC.matched
  rw [hC.resp_eq hb hv.book hv.sess hmv,
    Response.foldl_report (fun m hm => Serv.takerTrade_trader hb hv hm)]
  split
  · next hnil =>
      exact Response.prepared_posn hresp ((hM.journaled_matchVec hmv).trans hnil)
  · next hne => exact hM.preparedPosn hmv hne

/-- The position that a call with matches leaves its trader. -/
theorem Traded.posnOf_taker {s' : Serv} (ht : Traded s s' a) (hb : BooksOk s) (hv : a.Valid s)
    (hne : s.newMatches a ≠ []) :
    (s'.traders.get a.sess).hasPosn (s.markets.get a.book).contr
        (s.markets.get a.book).settlDay = true ∧
      (s'.traders.get a.sess).posnOf (s.markets.get a.book).contr
          (s.markets.get a.book).settlDay =
        ((tradesOf (s.newMatches a)).filter (fun t => t.trader = a.sess)).foldl Posn.addTrade
          ((s.traders.get a.sess).posnOf (s.markets.get a.book).contr
            (s.markets.get a.book).settlDay) := by
  obtain ⟨T, -, hext, hposn, hpost⟩ := ht.sessions
  -- The taker's trade of the first match needs the position.
  obtain ⟨m, hm⟩ := List.exists_mem_of_ne_nil _ hne
  have hmem : m.takerTrade ∈ tradesOf (s.newMatches a) := mem_tradesOf.mpr ⟨m, hm, Or.inr rfl⟩
  have hp := hposn _ hmem
  obtain ⟨hcontr, hday⟩ := Serv.tradesOf_posn hb hv hmem
  rw [Serv.takerTrade_trader hb hv hm, hcontr, hday] at hp
  have hp' : ((T.get a.sess).insertOrder s.heap.next (s.takerPlaced a)).hasPosn
      (s.markets.get a.book).contr (s.markets.get a.book).settlDay = true := by
    unfold TraderSess.hasPosn
    rw [TraderSess.insertOrder_posns]
    exact hp
  have hsame : ((T.get a.sess).insertOrder s.heap.next (s.takerPlaced a)).posnOf
      (s.markets.get a.book).contr (s.markets.get a.book).settlDay =
        (s.traders.get a.sess).posnOf (s.markets.get a.book).contr
          (s.markets.get a.book).settlDay := by
    rw [← (hext a.sess).posnOf]
    unfold TraderSess.posnOf
    rw [TraderSess.insertOrder_posns, TraderSess.insertOrder_mnem]
  rw [hpost, Sessions.post_get, Table.modify_get_self, ← hsame]
  exact TraderSess.posnOf_foldl_post
    (fun t ht => Serv.tradesOf_posn hb hv (List.mem_of_mem_filter ht)) hp'

/-- The makers are the orders whose executed lots have grown. -/
theorem Traded.mem_makers_iff {s' : Serv} (ht : Traded s s' a) (hb : BooksOk s) (hv : a.Valid s)
    {q : OrderPtr} : q ∈ (s.fills a).map Prod.fst ↔
      q < s.heap.next ∧ (s.heap q).exec < (s'.heap q).exec := by
  constructor
  · intro hq
    obtain ⟨f, hf, rfl⟩ := List.mem_map.mp hq
    refine ⟨Serv.mem_fills_lt (hb.makers_lt hv.book) hf, ?_⟩
    have hpos := (hb.fill_bounds hv.book hv.lots.le f hf).1
    rw [ht.heap_maker f hf, Order.taken_exec]
    omega
  · rintro ⟨hq, hless⟩
    by_contra hnot
    rw [ht.heap_old q hq hnot] at hless
    exact lt_irrefl _ hless

/-- The makers of a call keep their trader: the caller's makers are found in the heap after
the call exactly as they were found among the matches. -/
theorem Traded.maker_trader {s' : Serv} (ht : Traded s s' a) (hb : BooksOk s) (hv : a.Valid s)
    {m : Match} (hm : m ∈ s.newMatches a) :
    (s'.heap m.makerOrder).trader = m.makerTrade.trader := by
  have hof := Serv.newMatches_ofCall hb hv hm
  rw [ht.proj_old (fun o => o.trader) (fun _ _ => rfl) (fun _ _ _ _ _ _ => rfl)
    (hb.makers_lt hv.book _ hof.maker)]
  exact hof.makerTrade.trader.symm

/-- The orders of the response, with the caller's makers taken from the heap after the call. -/
theorem Committed.told_orders (hC : Committed env s a resp s₁ c') (hb : BooksOk s)
    (hv : a.Valid s) (hmv : s.matchVec = []) (hresp : resp.Cleared) :
    c'.resp.orders = s.heap.next :: ((s.newMatches a).filter
      (fun m => (c'.serv.heap m.makerOrder).trader = a.sess)).map Match.makerOrder := by
  have ht := hC.traded hb hv.book hv.sess hv.lots.le hmv
  rw [(hC.resp_orders hb hv hmv hresp).1]
  refine congrArg (fun ms => s.heap.next :: ms.map Match.makerOrder) (List.filter_congr ?_)
  intro m hm
  rw [ht.maker_trader hb hv hm]

/-- The orders of the response stay within what was reserved: one for the new order and one
for each match, of which only the caller's makers are told. -/
theorem Committed.told_ordersRoom (hC : Committed env s a resp s₁ c') (hb : BooksOk s)
    (hv : a.Valid s) (hmv : s.matchVec = []) (hresp : resp.Cleared) :
    c'.resp.orders.length ≤ 1 + (s.newMatches a).length ∧
      1 + (s.newMatches a).length ≤ c'.resp.ordersCapacity := by
  obtain ⟨horders, hroom⟩ := hC.resp_orders hb hv hmv hresp
  refine ⟨?_, hroom⟩
  have hle := List.length_filter_le (fun m => decide (m.makerTrade.trader = a.sess))
    (s.newMatches a)
  rw [horders, List.length_cons, List.length_map]
  omega

/-- The executions of the response stay within what was reserved: one for the new order and
two for each match. -/
theorem Committed.told_execsRoom (hC : Committed env s a resp s₁ c') (hb : BooksOk s)
    (hv : a.Valid s) (hmv : s.matchVec = []) (hresp : resp.Cleared) :
    c'.resp.execs.length ≤ 1 + 2 * (s.newMatches a).length ∧
      1 + 2 * (s.newMatches a).length ≤ c'.resp.execsCapacity := by
  obtain ⟨hexecs, hroom⟩ := hC.resp_execs hb hv hmv hresp
  refine ⟨?_, hroom⟩
  have hle := List.length_filter_le (fun t => decide (t.trader = a.sess))
    (tradesOf (s.newMatches a))
  rw [tradesOf_length] at hle
  rw [hexecs, List.length_cons]
  omega

/-- The position of the response has every trade of the caller added. -/
theorem Committed.told_posn (hC : Committed env s a resp s₁ c') (hb : BooksOk s)
    (hv : a.Valid s) (hmv : s.matchVec = []) (hresp : resp.Cleared) {p : PosnPtr}
    (hp : c'.resp.posn = some p) :
    (c'.serv.traders.get p.trader).hasPosn p.contr p.settlDay = true ∧
      (c'.serv.traders.get p.trader).posnOf p.contr p.settlDay =
        ((tradesOf (s.newMatches a)).filter (fun t => t.trader = a.sess)).foldl Posn.addTrade
          ((s.traders.get a.sess).posnOf p.contr p.settlDay) := by
  rw [hC.resp_posn hb hv hmv hresp] at hp
  split at hp
  · cases hp
  · next hne =>
      cases hp
      exact (hC.traded hb hv.book hv.sess hv.lots.le hmv).posnOf_taker hb hv hne

/-- **The response of a committed call** is the caller's part of what was journaled. -/
theorem Committed.told (hC : Committed env s a resp s₁ c') (hb : BooksOk s) (hv : a.Valid s)
    (hmv : s.matchVec = []) (hresp : resp.Cleared) :
    Told s a s.heap.next (s.newExec a) (s.newMatches a) c' := by
  have ht := hC.traded hb hv.book hv.sess hv.lots.le hmv
  have hposn := hC.resp_posn hb hv hmv hresp
  have hexec : (s.newExec a).trader = a.sess := Serv.newOrder_trader hv
  exact {
    journ := ht.journ
    execs := by
      have hcons := List.filter_cons_of_pos (p := fun e : Exec => e.trader = a.sess)
        (l := tradesOf (s.newMatches a)) (decide_eq_true hexec)
      exact (hC.resp_execs hb hv hmv hresp).1.trans hcons.symm
    orders := hC.told_orders hb hv hmv hresp
    filled := by
      intro q
      rw [s.newMatches_makers a]
      exact ht.mem_makers_iff hb hv
    posn_none := by
      rw [hposn]
      split <;> simp [*]
    posn_key := fun hne => by rw [hposn, if_neg hne]
    posn := fun p hp => hC.told_posn hb hv hmv hresp hp
    ordersRoom := hC.told_ordersRoom hb hv hmv hresp
    execsRoom := hC.told_execsRoom hb hv hmv hresp }

/-- The order and the matches of a committed call, as the call makes them. -/
theorem Committed.matchOrders_eq (hC : Committed env s a resp s₁ c') (hb : BooksOk s)
    (hv : a.Valid s) (hmv : s.matchVec = []) :
    ∃ c₁ c₂, openOrder env a ⟨s, resp⟩ = .ok (s.heap.next, s.newExec a) c₁ ∧
      matchOrders env a.book s.heap.next a.now c₁ = .ok () c₂ ∧
      c₂.serv.matchVec = s.newMatches a := by
  obtain ⟨s₂, hopen, hmatch, hM⟩ :=
    matchOrders_opened_ok (hb.makers_lt hv.book) hC.reaches.openOk hC.reaches.loop
  exact ⟨_, ⟨s₂, resp⟩, hopen, hmatch, by rw [hM.matchVec, hmv, List.nil_append]⟩

end Call

/-- **The response tells a trader exactly what happened to that trader**: in any state that
a run reaches, a call that returns reports the caller's part of the executions it
journaled, the caller's orders among those it filled, and the position they leave. -/
theorem createOrder_told {s₀ s : Serv} (h₀ : s₀.EmptyBooks) (hrun : Run NoStrand s₀ s)
    {env : Env} {a : OrderArgs} {resp : Response} {c' : Ctx} (hv : a.Valid s)
    (hresp : resp.Cleared) (hok : createOrder env a ⟨s, resp⟩ = .ok () c') :
    ∃ order exec c₁ c₂, openOrder env a ⟨s, resp⟩ = .ok (order, exec) c₁ ∧
      matchOrders env a.book order a.now c₁ = .ok () c₂ ∧
      Told s a order exec c₂.serv.matchVec c' := by
  have hi := CallInv.run h₀ hrun
  rcases createOrder_cases env resp hi.books hv.book hv.lots.le with
    ⟨c, s₁, hok', hC⟩ | ⟨e, c, herror, -⟩
  · rw [hok'] at hok
    cases hok
    obtain ⟨c₁, c₂, hopen, hmatch, hvec⟩ := hC.matchOrders_eq hi.books hv hi.matchVec
    refine ⟨_, _, c₁, c₂, hopen, hmatch, ?_⟩
    rw [hvec]
    exact hC.told hi.books hv hi.matchVec hresp
  · rw [herror] at hok
    cases hok

/-- SWIRLY buys five lots and meets its own offer of three. -/
theorem offer_told : ∃ order exec c₁ c₂,
    openOrder Mock.env (Mock.order Mock.swirly .buy 5 12350) ⟨Mock.offer, {}⟩ =
      .ok (order, exec) c₁ ∧
    matchOrders Mock.env Mock.market order 0 c₁ = .ok () c₂ ∧
    Told Mock.offer (Mock.order Mock.swirly .buy 5 12350) order exec c₂.serv.matchVec
      ((createOrder Mock.env (Mock.order Mock.swirly .buy 5 12350)).final ⟨Mock.offer, {}⟩) :=
  createOrder_told Mock.serv_empty.toEmptyBooks Mock.offer_noStrand
    (Mock.order_valid (by decide) (by decide) (by decide)) ⟨rfl, rfl, rfl, rfl⟩
    (ok_final (by decide))

end Swirly
