import Swirly.Fig.CommitBooks

/-!
# Swirly.Fig.Commit

**The commit phase, taken apart.** Each iteration of `commitMatches` fills a maker
in the book, posts the maker's trade to the maker's session and the taker's trade
to the taker's session. The two halves do not read what the other writes, so the
whole phase is `takeAll` on the books and the posting of all trades on the
sessions. `Traded` is the result: the state after a committed call as seen from the
state before it.
-/

namespace Swirly

open Lib (Heap Table)

/-! ### Posting trades -/

/-- The position key of a trade. -/
def Exec.posnKey (t : Exec) : PosnKey := toLex (t.contr, t.settlDay)

/-- A trade in its trader's session: kept, and added to the position. -/
def TraderSess.post (u : TraderSess) (t : Exec) : TraderSess :=
  (u.insertTrade t).addTrade t.posnKey t

theorem TraderSess.post_mnem (t : Exec) (u : TraderSess) : (u.post t).mnem = u.mnem := rfl

/-- The sessions of all traders. -/
abbrev Sessions := Table TraderSess.mnem

/-- A list of trades, each posted in the session of its trader. -/
def Sessions.post (T : Sessions) (ts : List Exec) : Sessions :=
  ts.foldl (fun T t => T.modify t.trader (TraderSess.post · t) (TraderSess.post_mnem t)) T

theorem Sessions.post_get (T : Sessions) (ts : List Exec) (u : Mnem) :
    (Sessions.post T ts).get u =
      (ts.filter (fun t => t.trader = u)).foldl TraderSess.post (T.get u) :=
  Table.foldl_modify_get (fun t : Exec => t.trader) (fun t u => TraderSess.post u t)
    TraderSess.post_mnem ts T u

theorem Sessions.post_keys (T : Sessions) (ts : List Exec) : (Sessions.post T ts).keys = T.keys :=
  Table.foldl_modify_keys (fun t : Exec => t.trader) (fun t u => TraderSess.post u t)
    TraderSess.post_mnem ts T

theorem Sessions.post_append (T : Sessions) (ts ts' : List Exec) :
    Sessions.post T (ts ++ ts') = Sessions.post (Sessions.post T ts) ts' :=
  List.foldl_append

/-! ### One iteration -/

/-- A match whose parts name the sessions and positions that its trades belong to. -/
structure Match.Posts (h : Heap Order) (sess : Mnem) (posn : PosnPtr) (m : Match) : Prop where
  maker : (h m.makerOrder).trader = m.makerTrade.trader
  makerPosn : m.makerPosn = ⟨m.makerTrade.trader, m.makerTrade.contr, m.makerTrade.settlDay⟩
  taker : m.takerTrade.trader = sess
  posn : posn = ⟨m.takerTrade.trader, m.takerTrade.contr, m.takerTrade.settlDay⟩

theorem BookSide.takeOrder_trader (h : Heap Order) (b : BookSide) (p : OrderPtr) (lots now : Int)
    (q : OrderPtr) : ((b.takeOrder h p lots now).1 q).trader = (h q).trader := by
  have htrade : ∀ h' : Heap Order,
      (h'.modify p (fun o => o.tradeLast lots o.ticks now) q).trader = (h' q).trader :=
    fun h' => Heap.proj_modify (fun o : Order => o.trader) rfl q
  unfold takeOrder
  cases (h p).level with
  | none => exact htrade h
  | some k =>
      refine (htrade _).trans ?_
      show ((b.reduceLevel h k p lots).1 q).trader = (h q).trader
      rw [reduceLevel_heap]
      refine Heap.proj_modify (fun o : Order => o.trader) ?_ q
      split <;> rfl

theorem Serv.takeOrder_trader (s : Serv) (m : Mnem) (p : OrderPtr) (lots now : Int)
    (q : OrderPtr) : ((s.takeOrder m p lots now).heap q).trader = (s.heap q).trader :=
  BookSide.takeOrder_trader _ _ _ _ _ _

/-- Fills do not look at the sessions. -/
theorem Serv.takeAll_with_traders (s : Serv) (T : Sessions) (m : Mnem) (now : Int)
    (fs : List (OrderPtr × Int)) : { s with traders := T }.takeAll m now fs =
      { s.takeAll m now fs with traders := T } := by
  induction fs generalizing s with
  | nil => rfl
  | cons f fs ih => exact ih (s.takeOrder m f.1 f.2 now)

/-- Keeping a trade and adding it to its position posts it. -/
theorem Serv.insertTrade_addTrade (s : Serv) (t : Exec) :
    (s.insertTrade t.trader t).addTrade ⟨t.trader, t.contr, t.settlDay⟩ t =
      { s with traders := Sessions.post s.traders [t] } := by
  refine Serv.ext rfl rfl ?_ rfl rfl
  exact Table.modify_modify (TraderSess.insertTrade_mnem t) (TraderSess.addTrade_mnem t.posnKey t)

section CommitMatch

variable {c : Ctx} {sess book : Mnem} {posn : PosnPtr} {now : Int} {m : Match} {ms : List Match}

theorem Ctx.commitMatch_resp (sess : Mnem) (now : Int) (m : Match)
    (hbook : c.resp.book = some book) (hposn : c.resp.posn = some posn) :
    (c.commitMatch sess now m).resp.book = some book ∧
      (c.commitMatch sess now m).resp.posn = some posn := by
  unfold commitMatch takeOrder addTrade
  simp only [hbook, hposn]
  split <;> exact ⟨hbook, hposn⟩

theorem Ctx.commitMatch_serv (now : Int) (hbook : c.resp.book = some book)
    (hposn : c.resp.posn = some posn)
    (hm : m.Posts c.serv.heap sess posn) :
    (c.commitMatch sess now m).serv =
      { c.serv.takeOrder book m.makerOrder m.lots now with
        traders := Sessions.post c.serv.traders [m.makerTrade, m.takerTrade] } := by
  obtain ⟨hmaker, hmakerPosn, rfl, rfl⟩ := hm
  have htrader : ((c.serv.takeOrder book m.makerOrder m.lots now).heap m.makerOrder).trader =
      m.makerTrade.trader := (Serv.takeOrder_trader _ _ _ _ _ _).trans hmaker
  unfold commitMatch takeOrder addTrade
  simp only [hbook, hposn, htrader, hmakerPosn, Serv.insertTrade_addTrade]
  rfl

/-- What the later matches post stays the same. -/
theorem Ctx.posts_commitMatch (now : Int) (hbook : c.resp.book = some book)
    (hposn : c.resp.posn = some posn) (hms : ∀ m' ∈ m :: ms, m'.Posts c.serv.heap sess posn) :
    ∀ m' ∈ ms, m'.Posts (c.commitMatch sess now m).serv.heap sess posn := by
  intro m' hm'
  obtain ⟨hmaker, hmakerPosn, htaker, htakerPosn⟩ := hms m' (List.mem_cons_of_mem m hm')
  refine ⟨?_, hmakerPosn, htaker, htakerPosn⟩
  rw [commitMatch_serv now hbook hposn (hms m List.mem_cons_self)]
  exact (Serv.takeOrder_trader _ _ _ _ _ _).trans hmaker

/-- **The commit loop in two halves.** -/
theorem Ctx.commitMatches_serv (hbook : c.resp.book = some book)
    (hposn : ms ≠ [] → c.resp.posn = some posn)
    (hms : ∀ m ∈ ms, m.Posts c.serv.heap sess posn) :
    (ms.foldl (commitMatch sess now) c).serv =
      { c.serv.takeAll book now (ms.map (fun m => (m.makerOrder, m.lots))) with
        traders := Sessions.post c.serv.traders
          (ms.flatMap (fun m => [m.makerTrade, m.takerTrade])) } := by
  induction ms generalizing c with
  | nil => rfl
  | cons m ms ih =>
      have hposn := hposn (List.cons_ne_nil m ms)
      obtain ⟨hbook', hposn'⟩ := commitMatch_resp sess now m hbook hposn
      have hserv := commitMatch_serv now hbook hposn (hms m List.mem_cons_self)
      have hms' := posts_commitMatch now hbook hposn hms
      rw [List.foldl_cons, ih hbook' (fun _ => hposn') hms', hserv, Serv.takeAll_with_traders,
        List.flatMap_cons, Sessions.post_append]
      rfl

end CommitMatch

/-! ### The call as a whole -/

/-- The trades of a list of matches: the maker's and the taker's for each. -/
def tradesOf (ms : List Match) : List Exec := ms.flatMap (fun m => [m.makerTrade, m.takerTrade])

/-- The service after a committed call. -/
structure Traded (s s' : Serv) (a : OrderArgs) : Prop where
  books : BooksOk s'
  next : s'.heap.next = s.heap.next + 1
  marketKeys : s'.markets.keys = s.markets.keys
  contr : ∀ m, (s'.markets.get m).contr = (s.markets.get m).contr
  settlDay : ∀ m, (s'.markets.get m).settlDay = (s.markets.get m).settlDay
  maxOrderId : ∀ m, (s'.markets.get m).maxOrderId =
    (s.markets.get m).maxOrderId + if m = a.book then 1 else 0
  maxExecId : ∀ m, (s'.markets.get m).maxExecId = (s.markets.get m).maxExecId +
    if m = a.book then 1 + 2 * ((s.fills a).length : Int) else 0
  /-- Every order but the makers and the taker is as it was. -/
  heap_old : ∀ q < s.heap.next, q ∉ (s.fills a).map Prod.fst → s'.heap q = s.heap q
  heap_maker : ∀ f ∈ s.fills a, s'.heap f.1 = (s.heap f.1).taken f.2 a.now
  heap_taker : s'.heap s.heap.next = s.takerPlaced a
  /-- Orders rest as long as they have residual lots. -/
  mem : ∀ m ∈ s.markets.keys, ∀ sd q, q ∈ ((s'.markets.get m).side sd).orders ↔
    (q ∈ ((s.markets.get m).side sd).orders ∨ q = s.heap.next ∧ m = a.book ∧ sd = a.side) ∧
      0 < (s'.heap q).resd
  matchVec : s'.matchVec = []
  journ : s'.journ = s.journ ++ s.newExec a :: tradesOf (s.newMatches a)
  /-- The sessions, with the positions they need, the new order, and the trades. -/
  sessions : ∃ T : Sessions, T.keys = s.traders.keys ∧
    (∀ u, SessExt (s.traders.get u) (T.get u)) ∧
    (∀ t ∈ tradesOf (s.newMatches a), (T.get t.trader).hasPosn t.contr t.settlDay = true) ∧
    s'.traders = Sessions.post (T.modify a.sess
      (TraderSess.insertOrder · s.heap.next (s.takerPlaced a))
      (TraderSess.insertOrder_mnem s.heap.next (s.takerPlaced a))) (tradesOf (s.newMatches a))

/-- The service after a call whose executions were journaled and never applied: the new
order may rest in its book, and nothing else was done. -/
structure Orphaned (s s' : Serv) (a : OrderArgs) : Prop where
  books : BooksOk s'
  heap : s'.heap = s.heap.alloc (s.takerPlaced a)
  marketKeys : s'.markets.keys = s.markets.keys
  traderKeys : s'.traders.keys = s.traders.keys
  mem : ∀ m sd q, q ∈ ((s'.markets.get m).side sd).orders ↔
    q ∈ ((s.markets.get m).side sd).orders ∨
      q = s.heap.next ∧ m = a.book ∧ sd = a.side ∧ 0 < (s.taker a).resd
  maxOrderId_le : ∀ m, (s.markets.get m).maxOrderId ≤ (s'.markets.get m).maxOrderId
  maxExecId_le : ∀ m, (s.markets.get m).maxExecId ≤ (s'.markets.get m).maxExecId
  sess : ∀ u, SessExt (s.traders.get u) (s'.traders.get u)
  matchVec : s'.matchVec = []
  journ : s'.journ = s.journ ++ s.newExec a :: tradesOf (s.newMatches a)

section Call

variable {env : Env} {s s₁ : Serv} {a : OrderArgs} {resp : Response} {c' : Ctx}

theorem BooksOk.matches_post (hb : BooksOk s) (hm : a.book ∈ s.markets.keys)
    (hu : a.sess ∈ s.traders.keys) {m : Match} (hmem : m ∈ s.newMatches a) {h : Heap Order}
    (hh : ∀ q < s.heap.next, h q = s.heap q) :
    m.Posts h a.sess
      ⟨a.sess, (s.markets.get a.book).contr, (s.markets.get a.book).settlDay⟩ := by
  obtain ⟨f, hf, sums, id, rfl⟩ := mem_buildMatches hmem
  have hrest := (hb a.book hm a.side.opposite).rests f.1 (mem_orders_of_mem_fillsOf hf)
  have htrader : (s.newOrder a).trader = a.sess := s.traders.key_get a.sess hu
  refine ⟨?_, ?_, htrader, ?_⟩
  · exact congrArg (fun o : Order => o.trader) (hh f.1 hrest.lt_next)
  · simp only [mkMatch, Exec.tradeLast, Exec.trade, newExec, hrest.contr, hrest.settlDay]
  · simp only [mkMatch, Exec.trade, newExec, htrader]
    rfl

section Prepared

variable (s : Serv) (a : OrderArgs)

@[simp] theorem Serv.prepared_heap : (s.prepared a).heap = s.heap := by
  unfold Serv.prepared; split <;> rfl

@[simp] theorem Serv.prepared_markets : (s.prepared a).markets = s.markets := by
  unfold Serv.prepared; split <;> rfl

theorem Serv.ext_prepared : Ext a.book s (s.prepared a) := by
  unfold Serv.prepared
  split
  · exact Ext.refl _ _
  · exact Ext.lazyPosn _ _ _ _ _

end Prepared

/-- The service that the commit loop starts from. -/
def Serv.committing (s s₁ : Serv) (a : OrderArgs) : Serv :=
  ((s.journaled s₁ a).prepared a).insertSessOrder a.sess s.heap.next

theorem Matched.journaled_matchVec (hM : Matched s s₁ a) (hmv : s.matchVec = []) :
    (s.journaled s₁ a).matchVec = s.newMatches a := by
  refine (s₁.placed_matchVec _ _).trans ?_
  rw [hM.matchVec, hmv, List.nil_append]

theorem Matched.committing_matchVec (hM : Matched s s₁ a) (hmv : s.matchVec = []) :
    (s.committing s₁ a).matchVec = s.newMatches a :=
  (Serv.prepared_matchVec (s.journaled s₁ a) a).trans (hM.journaled_matchVec hmv)

theorem Matched.committing_heap_old (hM : Matched s s₁ a) :
    ∀ q < s.heap.next, (s.committing s₁ a).heap q = s.heap q := by
  intro q hq
  show ((s.journaled s₁ a).prepared a).heap q = _
  rw [Serv.prepared_heap]
  show (s₁.placed a.book s.heap.next).heap q = _
  rw [hM.placed_heap, Heap.alloc_of_lt hq]

/-- The position in the response when the commit phase begins. -/
theorem Matched.preparedPosn (hM : Matched s s₁ a) (hmv : s.matchVec = [])
    (hne : s.newMatches a ≠ []) : (resp.prepared (s.journaled s₁ a) a).posn =
      some ⟨a.sess, (s.markets.get a.book).contr, (s.markets.get a.book).settlDay⟩ := by
  have hvec : (s.journaled s₁ a).matchVec ≠ [] := by rwa [hM.journaled_matchVec hmv]
  show (resp.preparedPosn (s.journaled s₁ a) a).posn = _
  rw [Response.preparedPosn, if_neg hvec, ← hM.contr, ← hM.settlDay,
    ← s₁.placed_contr a.book s.heap.next, ← s₁.placed_settlDay a.book s.heap.next]
  rfl

/-- The response that the commit loop starts from. -/
def Response.committing (resp : Response) (s s₁ : Serv) (a : OrderArgs) : Response :=
  ((resp.prepared (s.journaled s₁ a) a).insertOrder s.heap.next).insertExec (s.newExec a)

/-- A loop over a list that is tested for being empty first. -/
theorem foldl_of_ne_nil {A B : Type} (f : B → A → B) (b : B) (as : List A) :
    (if as ≠ [] then as.foldl f b else b) = as.foldl f b := by
  cases as with
  | nil => rw [List.foldl_nil, ite_self]
  | cons x xs => exact if_pos (List.cons_ne_nil x xs)

/-- The commit phase is the commit loop over the matches of the call. -/
theorem Matched.commitOrder_eq (hM : Matched s s₁ a) (hmv : s.matchVec = []) :
    Ctx.commitOrder a s.heap.next (s.newExec a)
        ⟨(s.journaled s₁ a).prepared a, resp.prepared (s.journaled s₁ a) a⟩ =
      (s.newMatches a).foldl (Ctx.commitMatch a.sess a.now)
        ⟨s.committing s₁ a, resp.committing s s₁ a⟩ := by
  refine (foldl_of_ne_nil (Ctx.commitMatch a.sess a.now)
    ⟨s.committing s₁ a, resp.committing s s₁ a⟩ (s.committing s₁ a).matchVec).trans ?_
  rw [hM.committing_matchVec hmv]

/-- **A committed call**: fills on the books, postings on the sessions. -/
theorem Committed.serv_eq (hC : Committed env s a resp s₁ c') (hb : BooksOk s)
    (hm : a.book ∈ s.markets.keys) (hu : a.sess ∈ s.traders.keys) (hmv : s.matchVec = []) :
    c'.serv = { (s.committing s₁ a).takeAll a.book a.now (s.fills a) with
      traders := Sessions.post (s.committing s₁ a).traders (tradesOf (s.newMatches a))
      matchVec := [] } := by
  have hM := hC.matched
  have hloop : ((s.newMatches a).foldl (Ctx.commitMatch a.sess a.now)
      ⟨s.committing s₁ a, resp.committing s s₁ a⟩).serv = _ :=
    Ctx.commitMatches_serv rfl (fun hne => hM.preparedPosn hmv hne)
      (fun m hmem => hb.matches_post hm hu hmem hM.committing_heap_old)
  rw [hC.eq, hM.commitOrder_eq hmv]
  show Serv.clearMatches _ = _
  rw [hloop, s.newMatches_map a]
  rfl

section Committing

variable (s s₁ : Serv) (a : OrderArgs)

theorem Serv.committing_heap :
    (s.committing s₁ a).heap = (s₁.placed a.book s.heap.next).heap :=
  (s.journaled s₁ a).prepared_heap a

theorem Serv.committing_markets :
    (s.committing s₁ a).markets = (s₁.placed a.book s.heap.next).markets :=
  (s.journaled s₁ a).prepared_markets a

theorem Serv.committing_journ : (s.committing s₁ a).journ =
    s₁.journ ++ journExecs (s.newExec a) s₁.matchVec := by
  refine ((s.journaled s₁ a).prepared_journ a).trans ?_
  show (s₁.placed a.book s.heap.next).journ ++
    journExecs (s.newExec a) (s₁.placed a.book s.heap.next).matchVec = _
  rw [Serv.placed_journ, Serv.placed_matchVec]

end Committing

/-- **What is left of a call that fails after the journal.** -/
theorem Matched.orphaned (hM : Matched s s₁ a) (hb : BooksOk s) (hm : a.book ∈ s.markets.keys)
    (hlots : 0 ≤ a.lots) (hmv : s.matchVec = []) {s' : Serv}
    (hs' : s' = (s.journaled s₁ a).clearMatches ∨
      s' = ((s.journaled s₁ a).prepared a).clearMatches) : Orphaned s s' a := by
  obtain ⟨hb₂, hmem₂⟩ := hM.placed_books hb hm hlots
  have hext : ∀ u, SessExt ((s.journaled s₁ a).traders.get u) (s'.traders.get u) := by
    rcases hs' with rfl | rfl
    · exact fun u => SessExt.refl _
    · exact ((s.journaled s₁ a).ext_prepared a).sess
  have hkeys : s'.traders.keys = (s.journaled s₁ a).traders.keys := by
    rcases hs' with rfl | rfl
    · rfl
    · exact ((s.journaled s₁ a).ext_prepared a).traderKeys
  have hheap : s'.heap = (s₁.placed a.book s.heap.next).heap := by
    rcases hs' with rfl | rfl
    · rfl
    · exact s.committing_heap s₁ a
  have hmarkets : s'.markets = (s₁.placed a.book s.heap.next).markets := by
    rcases hs' with rfl | rfl
    · rfl
    · exact s.committing_markets s₁ a
  have hjourn : s'.journ = s₁.journ ++ journExecs (s.newExec a) s₁.matchVec := by
    rw [← s.committing_journ s₁ a]
    rcases hs' with rfl | rfl
    · exact ((s.journaled s₁ a).prepared_journ a).symm
    · rfl
  have htraders : (s.journaled s₁ a).traders = s₁.traders := s₁.placed_traders _ _
  have hframe := s₁.placed_frame a.book s.heap.next
  exact {
    books := hb₂.of_eq hheap hmarkets
    heap := hheap.trans hM.placed_heap
    marketKeys := by rw [hmarkets, Serv.placed_keys, hM.ext.marketKeys]
    traderKeys := by rw [hkeys, htraders, hM.ext.traderKeys]
    mem := fun m sd q => by rw [hmarkets]; exact hmem₂ m sd q
    maxOrderId_le := fun m => by
      rw [hmarkets, (hframe m).maxOrderId]
      exact hM.ext.maxOrderId_le m
    maxExecId_le := fun m => by
      rw [hmarkets, (hframe m).maxExecId]
      exact hM.ext.maxExecId_le m
    sess := fun u => (hM.ext.sess u).trans (htraders ▸ hext u)
    matchVec := by rcases hs' with rfl | rfl <;> rfl
    journ := by
      rw [hjourn, hM.ext.journ, hM.matchVec, hmv, List.nil_append]
      rfl }

/-- The positions that the trades need are there when they are posted. -/
theorem Matched.trades_hasPosn (hM : Matched s s₁ a) (hb : BooksOk s)
    (hm : a.book ∈ s.markets.keys) (hu : a.sess ∈ s.traders.keys) (hmv : s.matchVec = []) :
    ∀ t ∈ tradesOf (s.newMatches a),
      ((((s.journaled s₁ a).prepared a).traders.get t.trader).hasPosn t.contr t.settlDay) =
        true := by
  intro t ht
  obtain ⟨m, hmem, hcases⟩ := List.mem_flatMap.mp ht
  obtain ⟨f, hf, sums, id, rfl⟩ := mem_buildMatches hmem
  have hrest := (hb a.book hm a.side.opposite).rests f.1 (mem_orders_of_mem_fillsOf hf)
  have htraders : (s.journaled s₁ a).traders = s₁.traders := s₁.placed_traders _ _
  rcases List.mem_pair.mp hcases with rfl | rfl
  · -- The maker's position was had in the loop.
    have hp := hM.posns f hf
    rw [← htraders, ← hrest.contr, ← hrest.settlDay] at hp
    exact (((s.journaled s₁ a).ext_prepared a).sess _).hasPosn hp
  · have htrader : (s.newOrder a).trader = a.sess := s.traders.key_get a.sess hu
    have hvec : (s.journaled s₁ a).matchVec ≠ [] := by
      rw [show (s.journaled s₁ a).matchVec = s₁.matchVec from s₁.placed_matchVec _ _,
        hM.matchVec, hmv, List.nil_append]
      exact List.ne_nil_of_mem hmem
    show ((((s.journaled s₁ a).prepared a).traders.get (s.newOrder a).trader).hasPosn
      (s.markets.get a.book).contr (s.markets.get a.book).settlDay) = true
    rw [htrader, Serv.prepared, if_neg hvec, ← hM.contr, ← hM.settlDay,
      ← s₁.placed_contr a.book s.heap.next, ← s₁.placed_settlDay a.book s.heap.next]
    unfold Serv.lazyPosn
    rw [Serv.modifySess_get_self]
    exact TraderSess.hasPosn_lazyPosn _ _ _

/-! ### The commit loop on the books -/

theorem Matched.committing_heap (hM : Matched s s₁ a) :
    (s.committing s₁ a).heap = s.heap.alloc (s.takerPlaced a) :=
  (s.committing_heap s₁ a).trans hM.placed_heap

theorem Matched.committing_keys (hM : Matched s s₁ a) :
    (s.committing s₁ a).markets.keys = s.markets.keys := by
  rw [s.committing_markets, Serv.placed_keys, hM.ext.marketKeys]

theorem Matched.committing_books (hM : Matched s s₁ a) (hb : BooksOk s)
    (hm : a.book ∈ s.markets.keys) (hlots : 0 ≤ a.lots) : BooksOk (s.committing s₁ a) :=
  (hM.placed_books hb hm hlots).1.of_eq (s.committing_heap s₁ a) (s.committing_markets s₁ a)

theorem Matched.mem_committing (hM : Matched s s₁ a) (hb : BooksOk s)
    (hm : a.book ∈ s.markets.keys) (hlots : 0 ≤ a.lots) (m : Mnem) (sd : Side) (q : OrderPtr) :
    q ∈ (((s.committing s₁ a).markets.get m).side sd).orders ↔
      q ∈ ((s.markets.get m).side sd).orders ∨
        q = s.heap.next ∧ m = a.book ∧ sd = a.side ∧ 0 < (s.taker a).resd := by
  rw [s.committing_markets]
  exact (hM.placed_books hb hm hlots).2 m sd q

/-- The service after the commit loop, without its postings. -/
def Serv.committed (s s₁ : Serv) (a : OrderArgs) : Serv :=
  (s.committing s₁ a).takeAll a.book a.now (s.fills a)

/-- **The makers are taken from where they rest.** -/
theorem Matched.takenAll (hM : Matched s s₁ a) (hb : BooksOk s)
    (hm : a.book ∈ s.markets.keys) (hlots : 0 ≤ a.lots) :
    TakenAll (s.committing s₁ a) (s.committed s₁ a) a.now (s.fills a) := by
  have hmakers : ∀ f ∈ s.fills a,
      f.1 ∈ (((s.committing s₁ a).markets.get a.book).side a.side.opposite).orders := by
    intro f hf
    exact (hM.mem_committing hb hm hlots _ _ _).mpr (Or.inl (mem_orders_of_mem_fillsOf hf))
  have hbc := hM.committing_books hb hm hlots
  exact Serv.takeAll_spec a.now hbc (hM.committing_keys ▸ hm) hmakers (hb.fills_nodup hm)

theorem Matched.committed_frame (hM : Matched s s₁ a) (hb : BooksOk s)
    (hm : a.book ∈ s.markets.keys) (hlots : 0 ≤ a.lots) (m : Mnem) :
    (s₁.markets.get m).Frame ((s.committed s₁ a).markets.get m) := by
  refine MarketBook.Frame.trans ?_ ((hM.takenAll hb hm hlots).frame m)
  rw [s.committing_markets]
  exact s₁.placed_frame _ _ _

/-- The taker is not one of its makers. -/
theorem Matched.committed_taker (hM : Matched s s₁ a) (hb : BooksOk s)
    (hm : a.book ∈ s.markets.keys) (hlots : 0 ≤ a.lots) :
    (s.committed s₁ a).heap s.heap.next = s.takerPlaced a := by
  have hnot : s.heap.next ∉ (s.fills a).map Prod.fst := by
    intro hmem
    obtain ⟨f, hf, heq⟩ := List.mem_map.mp hmem
    exact absurd (Serv.mem_fills_lt (hb.makers_lt hm) hf) (heq ▸ lt_irrefl _)
  rw [(hM.takenAll hb hm hlots).heap_of_not_mem _ hnot, hM.committing_heap, Heap.alloc_self]

/-- The sessions that the trades are posted to. -/
theorem Matched.sessions (hM : Matched s s₁ a) (hb : BooksOk s) (hm : a.book ∈ s.markets.keys)
    (hu : a.sess ∈ s.traders.keys) (hmv : s.matchVec = []) :
    ∃ T : Sessions, T.keys = s.traders.keys ∧
      (∀ u, SessExt (s.traders.get u) (T.get u)) ∧
      (∀ t ∈ tradesOf (s.newMatches a), (T.get t.trader).hasPosn t.contr t.settlDay = true) ∧
      (s.committing s₁ a).traders = T.modify a.sess
        (TraderSess.insertOrder · s.heap.next (s.takerPlaced a))
        (TraderSess.insertOrder_mnem s.heap.next (s.takerPlaced a)) := by
  have hext := (s.journaled s₁ a).ext_prepared a
  have htraders : (s.journaled s₁ a).traders = s₁.traders := s₁.placed_traders _ _
  refine ⟨((s.journaled s₁ a).prepared a).traders, ?_, ?_, hM.trades_hasPosn hb hm hu hmv, ?_⟩
  · rw [hext.traderKeys, htraders, hM.ext.traderKeys]
  · intro u
    exact (hM.ext.sess u).trans (htraders ▸ hext.sess u)
  · have hp : ((s.journaled s₁ a).prepared a).heap s.heap.next = s.takerPlaced a := by
      rw [← Heap.alloc_self s.heap (s.takerPlaced a), ← hM.committing_heap]
      rfl
    simp only [Serv.committing, Serv.insertSessOrder, Serv.modifySess, hp]

/-- The ids of a book after the commit loop: those of the call's book go on by one order and by
the executions that the call made, and those of the other books stay. -/
theorem Matched.committed_ids (hM : Matched s s₁ a) (hb : BooksOk s)
    (hm : a.book ∈ s.markets.keys) (hlots : 0 ≤ a.lots) (m : Mnem) :
    ((s.committed s₁ a).markets.get m).maxOrderId =
        (s.markets.get m).maxOrderId + (if m = a.book then 1 else 0) ∧
      ((s.committed s₁ a).markets.get m).maxExecId = (s.markets.get m).maxExecId +
        (if m = a.book then 1 + 2 * ((s.fills a).length : Int) else 0) := by
  have hframe := hM.committed_frame hb hm hlots m
  rw [hframe.maxOrderId, hframe.maxExecId]
  split
  · next hmb => rw [hmb, hM.maxOrderId, hM.maxExecId, add_assoc]; exact ⟨rfl, rfl⟩
  · next hmb => rw [hM.ext.other m hmb, add_zero, add_zero]; exact ⟨rfl, rfl⟩

/-- An order that the call did not fill is in the heap as it was before the call. -/
theorem Matched.committed_heap_old (hM : Matched s s₁ a) (hb : BooksOk s)
    (hm : a.book ∈ s.markets.keys) (hlots : 0 ≤ a.lots) {q : OrderPtr} (hq : q < s.heap.next)
    (hq' : q ∉ (s.fills a).map Prod.fst) : (s.committed s₁ a).heap q = s.heap q := by
  refine ((hM.takenAll hb hm hlots).heap_of_not_mem q hq').trans ?_
  rw [hM.committing_heap, Heap.alloc_of_lt hq]

/-- A maker has its fill taken from it as it was before the call: a call fills no order twice. -/
theorem Matched.committed_heap_maker (hM : Matched s s₁ a) (hb : BooksOk s)
    (hm : a.book ∈ s.markets.keys) (hlots : 0 ≤ a.lots) {f : OrderPtr × Int}
    (hf : f ∈ s.fills a) : (s.committed s₁ a).heap f.1 = (s.heap f.1).taken f.2 a.now := by
  refine ((hM.takenAll hb hm hlots).heap_of_mem f hf).trans ?_
  rw [hM.committing_heap, Heap.alloc_of_lt (Serv.mem_fills_lt (hb.makers_lt hm) hf)]

/-- What rests after the commit loop: the orders that rested before it or the one that was
placed, so far as they have lots left. -/
theorem Matched.mem_committed (hM : Matched s s₁ a) (hb : BooksOk s)
    (hm : a.book ∈ s.markets.keys) (hlots : 0 ≤ a.lots) {m : Mnem} (hm' : m ∈ s.markets.keys)
    (sd : Side) (q : OrderPtr) :
    q ∈ (((s.committed s₁ a).markets.get m).side sd).orders ↔
      (q ∈ ((s.markets.get m).side sd).orders ∨ q = s.heap.next ∧ m = a.book ∧ sd = a.side) ∧
        0 < ((s.committed s₁ a).heap q).resd := by
  have htaker := hM.committed_taker hb hm hlots
  have hkeys := hM.committing_keys
  refine ((hM.takenAll hb hm hlots).mem m (hkeys ▸ hm') sd q).trans ?_
  rw [hM.mem_committing hb hm hlots]
  constructor
  · rintro ⟨hq, hpos⟩
    exact ⟨hq.imp_right (fun h => ⟨h.1, h.2.1, h.2.2.1⟩), hpos⟩
  · rintro ⟨hq, hpos⟩
    refine ⟨hq.imp_right (fun h => ⟨h.1, h.2.1, h.2.2, ?_⟩), hpos⟩
    rwa [h.1, htaker, Serv.takerPlaced_proj Order.resd (fun _ _ => rfl)] at hpos

/-- The journal after the commit loop is what the call gave it: nothing is written later. -/
theorem Matched.committed_journ (hM : Matched s s₁ a) (hb : BooksOk s)
    (hm : a.book ∈ s.markets.keys) (hlots : 0 ≤ a.lots) (hmv : s.matchVec = []) :
    (s.committed s₁ a).journ = s.journ ++ journExecs (s.newExec a) (s.newMatches a) := by
  refine (hM.takenAll hb hm hlots).journ.trans ?_
  rw [Serv.committing_journ, hM.ext.journ, hM.matchVec, hmv, List.nil_append]

/-- **What a committed call does.** -/
theorem Committed.traded (hC : Committed env s a resp s₁ c') (hb : BooksOk s)
    (hm : a.book ∈ s.markets.keys) (hu : a.sess ∈ s.traders.keys) (hlots : 0 ≤ a.lots)
    (hmv : s.matchVec = []) : Traded s c'.serv a := by
  have hM := hC.matched
  have hT := hM.takenAll hb hm hlots
  have hframe := hM.committed_frame hb hm hlots
  obtain ⟨T, hTkeys, hText, hTposn, hTtraders⟩ := hM.sessions hb hm hu hmv
  rw [hC.serv_eq hb hm hu hmv]
  exact {
    books := hT.books.of_eq rfl rfl
    next := by
      refine hT.next.trans ?_
      rw [hM.committing_heap]
      rfl
    marketKeys := hT.keys.trans hM.committing_keys
    contr := fun m => (hframe m).contr.trans (hM.ext.grows m).contr
    settlDay := fun m => (hframe m).settlDay.trans (hM.ext.grows m).settlDay
    maxOrderId := fun m => (hM.committed_ids hb hm hlots m).1
    maxExecId := fun m => (hM.committed_ids hb hm hlots m).2
    heap_old := fun q hq hq' => hM.committed_heap_old hb hm hlots hq hq'
    heap_maker := fun f hf => hM.committed_heap_maker hb hm hlots hf
    heap_taker := hM.committed_taker hb hm hlots
    mem := fun m hm' sd q => hM.mem_committed hb hm hlots hm' sd q
    matchVec := rfl
    journ := hM.committed_journ hb hm hlots hmv
    sessions := ⟨T, hTkeys, hText, hTposn, by rw [hTtraders]⟩ }

end Call

end Swirly
