import Swirly.Fig.Ledger
import Swirly.Fig.Run

/-!
# Swirly.Fig.Journal

**The ledger of the whole service.** `LedgerInv s es` says that `es` are the executions
that were applied: ids increase in each market, no execution names an order or an
execution that was not given out yet, trades come in mirrored pairs, and the session of
each trader keeps exactly the trader's trades (`TraderSess.Keeps`). In a sound run `es`
is the journal; a call that fails after the journal makes the two differ.

A committed call appends one batch: the new execution and then the two trades of each
match. Everything is read off that batch (`Match.OfCall`, `batch_ids`).
-/

namespace Swirly

open Lib (Heap KeySet Table)

/-! ### The executions of one call -/

/-- The execution is about the order. -/
structure Exec.Of (e : Exec) (o : Order) : Prop where
  market : e.market = o.market
  orderId : e.orderId = o.id
  trader : e.trader = o.trader
  contr : e.contr = o.contr
  settlDay : e.settlDay = o.settlDay
  side : e.side = o.side
  lots : e.lots = o.lots

/-- `t'` is the other half of the trade `t`. -/
structure Exec.Mirror (t t' : Exec) : Prop where
  market : t'.market = t.market
  id : t'.id = t.matchId
  matchId : t'.matchId = t.id
  side : t'.side = t.side.opposite
  lastLots : t'.lastLots = t.lastLots
  lastTicks : t'.lastTicks = t.lastTicks
  contr : t'.contr = t.contr
  settlDay : t'.settlDay = t.settlDay
  role : t.role = .maker ∧ t'.role = .taker ∨ t.role = .taker ∧ t'.role = .maker
  trader : t'.trader = t.cpty
  cpty : t'.cpty = t.trader

theorem Exec.Mirror.symm {t t' : Exec} (h : t.Mirror t') : t'.Mirror t where
  market := h.market.symm
  id := h.matchId.symm
  matchId := h.id.symm
  side := by rw [h.side, Side.opposite_opposite]
  lastLots := h.lastLots.symm
  lastTicks := h.lastTicks.symm
  contr := h.contr.symm
  settlDay := h.settlDay.symm
  role := h.role.symm.imp And.symm And.symm
  trader := h.cpty.symm
  cpty := h.trader.symm

/-- The trades among the executions. -/
def tradesIn (es : List Exec) : List Exec := es.filter (fun e => e.state = .trade)

@[simp] theorem tradesIn_append (es es' : List Exec) :
    tradesIn (es ++ es') = tradesIn es ++ tradesIn es' := List.filter_append ..

theorem mem_tradesIn {es : List Exec} {t : Exec} :
    t ∈ tradesIn es ↔ t ∈ es ∧ t.state = .trade := by
  simp [tradesIn]

theorem mem_tradesOf {ms : List Match} {t : Exec} :
    t ∈ tradesOf ms ↔ ∃ m ∈ ms, t = m.makerTrade ∨ t = m.takerTrade := by
  simp [tradesOf]

theorem tradesOf_append (ms ms' : List Match) :
    tradesOf (ms ++ ms') = tradesOf ms ++ tradesOf ms' :=
  List.flatMap_append

section Batch

variable (h : Heap Order) (b : MarketBook) (taker : Order) (now : Int)

/-- Ids are given out in the order of the trades. -/
theorem buildMatches_ids (fs : List (OrderPtr × Int)) (id : Int) (sums : Sums) :
    (tradesOf (buildMatches h b taker now id sums fs)).Pairwise (fun t t' => t.id < t'.id) ∧
      ∀ t ∈ tradesOf (buildMatches h b taker now id sums fs),
        id < t.id ∧ t.id ≤ id + 2 * (fs.length : Int) := by
  induction fs generalizing id sums with
  | nil => exact ⟨List.Pairwise.nil, by simp [buildMatches, tradesOf]⟩
  | cons f fs ih =>
      obtain ⟨hsorted, hbound⟩ := ih (id + 2) (sums.fill h f)
      have hlen : ((f :: fs).length : Int) = fs.length + 1 := by simp
      have hmk : ∀ m, m = mkMatch b taker (h f.1) f.1 f.2 (sums.fill h f) (id + 1) now →
          m.makerTrade.id = id + 1 ∧ m.takerTrade.id = id + 2 := by
        intro m hm
        subst hm
        exact ⟨rfl, add_assoc id 1 1⟩
      rw [buildMatches]
      generalize mkMatch b taker (h f.1) f.1 f.2 (sums.fill h f) (id + 1) now = m at hmk ⊢
      obtain ⟨hmaker, htaker⟩ := hmk m rfl
      show (m.makerTrade :: m.takerTrade :: tradesOf (buildMatches h b taker now (id + 2)
        (sums.fill h f) fs)).Pairwise _ ∧ ∀ t ∈ m.makerTrade :: m.takerTrade ::
          tradesOf (buildMatches h b taker now (id + 2) (sums.fill h f) fs), _
      rw [hlen]
      refine ⟨List.pairwise_cons.mpr ⟨?_, List.pairwise_cons.mpr ⟨?_, hsorted⟩⟩, ?_⟩
      · intro t ht
        rcases List.mem_cons.mp ht with rfl | ht
        · omega
        · have := hbound t ht
          omega
      · intro t ht
        have := hbound t ht
        omega
      · intro t ht
        rcases List.mem_cons.mp ht with rfl | ht
        · omega
        · rcases List.mem_cons.mp ht with rfl | ht
          · omega
          · have := hbound t ht
            omega

end Batch

/-- What a match of a call says about its orders. -/
structure Match.OfCall (s : Serv) (a : OrderArgs) (m : Match) : Prop where
  maker : m.makerOrder ∈ s.makers a
  fill : (m.makerOrder, m.lots) ∈ s.fills a
  makerTrade : m.makerTrade.Of (s.heap m.makerOrder)
  takerTrade : m.takerTrade.Of (s.newOrder a)
  maker_trade : m.makerTrade.state = .trade
  taker_trade : m.takerTrade.state = .trade
  mirror : m.makerTrade.Mirror m.takerTrade

section Call

variable {s : Serv} {a : OrderArgs} (hb : BooksOk s) (hv : a.Valid s)

include hb hv

theorem Serv.newMatches_ofCall {m : Match} (hm : m ∈ s.newMatches a) : m.OfCall s a := by
  obtain ⟨f, hf, sums, id, rfl⟩ := mem_buildMatches hm
  have hmaker := mem_orders_of_mem_fillsOf hf
  have hs := hb a.book hv.book a.side.opposite
  have hrest := hs.rests f.1 hmaker
  have hside : (s.heap f.1).side = a.side.opposite := hs.side hmaker
  exact {
    maker := hmaker
    fill := hf
    makerTrade := ⟨rfl, rfl, rfl, rfl, rfl, rfl, rfl⟩
    takerTrade := ⟨rfl, rfl, rfl, rfl, rfl, rfl, rfl⟩
    maker_trade := rfl
    taker_trade := rfl
    mirror := {
      market := hrest.market.symm
      id := rfl
      matchId := rfl
      side := by
        show a.side = (s.heap f.1).side.opposite
        rw [hside, Side.opposite_opposite]
      lastLots := rfl
      lastTicks := rfl
      contr := hrest.contr.symm
      settlDay := hrest.settlDay.symm
      role := Or.inl ⟨rfl, rfl⟩
      trader := rfl
      cpty := rfl } }

end Call

/-- The executions that a committed call journals. -/
def Serv.batch (s : Serv) (a : OrderArgs) : List Exec := s.newExec a :: tradesOf (s.newMatches a)

section Batch

variable {s : Serv} {a : OrderArgs}

theorem Serv.newExec_of (s : Serv) (a : OrderArgs) : (s.newExec a).Of (s.newOrder a) :=
  ⟨rfl, rfl, rfl, rfl, rfl, rfl, rfl⟩

/-- **The ids of a batch** are new and increase. -/
theorem Serv.batch_ids (s : Serv) (a : OrderArgs) :
    (s.batch a).Pairwise (fun e e' => e.id < e'.id) ∧
      ∀ e ∈ s.batch a, (s.markets.get a.book).maxExecId < e.id ∧
        e.id ≤ (s.markets.get a.book).maxExecId + (1 + 2 * ((s.fills a).length : Int)) := by
  obtain ⟨hsorted, hbound⟩ := buildMatches_ids s.heap (s.markets.get a.book)
    (s.newOrder a) a.now (s.fills a) ((s.markets.get a.book).maxExecId + 1) {}
  have hid : (s.newExec a).id = (s.markets.get a.book).maxExecId + 1 := rfl
  refine ⟨List.pairwise_cons.mpr ⟨?_, hsorted⟩, ?_⟩
  · intro t ht
    have := hbound t ht
    omega
  · intro e he
    rcases List.mem_cons.mp he with rfl | he
    · omega
    · have := hbound e he
      omega

variable (hb : BooksOk s) (hv : a.Valid s)

include hv in
theorem Serv.newOrder_market : (s.newOrder a).market = a.book := s.markets.key_get a.book hv.book

include hv in
theorem Serv.newOrder_trader : (s.newOrder a).trader = a.sess := s.traders.key_get a.sess hv.sess

include hb hv

/-- An execution of a batch is about the new order or about a maker. -/
theorem Serv.batch_of {e : Exec} (he : e ∈ s.batch a) :
    e.Of (s.newOrder a) ∨ ∃ p ∈ s.makers a, e.Of (s.heap p) := by
  rcases List.mem_cons.mp he with rfl | he
  · exact Or.inl (s.newExec_of a)
  · obtain ⟨m, hm, rfl | rfl⟩ := mem_tradesOf.mp he
    · have hofc := Serv.newMatches_ofCall hb hv hm
      exact Or.inr ⟨_, hofc.maker, hofc.makerTrade⟩
    · exact Or.inl (Serv.newMatches_ofCall hb hv hm).takerTrade

theorem Serv.batch_market {e : Exec} (he : e ∈ s.batch a) : e.market = a.book := by
  rcases Serv.batch_of hb hv he with hof | ⟨p, hp, hof⟩
  · exact hof.market.trans (Serv.newOrder_market hv)
  · have hrest := (hb a.book hv.book a.side.opposite).rests p hp
    exact (hof.market.trans hrest.market).trans (s.markets.key_get a.book hv.book)

theorem Serv.batch_orderId {e : Exec} (he : e ∈ s.batch a) :
    e.orderId ≤ (s.markets.get a.book).maxOrderId + 1 := by
  rcases Serv.batch_of hb hv he with hof | ⟨p, hp, hof⟩
  · exact hof.orderId.le
  · have hrest := (hb a.book hv.book a.side.opposite).rests p hp
    have hle := hrest.id_le
    rw [hof.orderId]
    omega

/-- The trades of a batch are those of its matches. -/
theorem Serv.tradesIn_batch : tradesIn (s.batch a) = tradesOf (s.newMatches a) := by
  have htrades : tradesIn (tradesOf (s.newMatches a)) = tradesOf (s.newMatches a) := by
    refine List.filter_eq_self.mpr (fun t ht => decide_eq_true ?_)
    obtain ⟨m, hm, rfl | rfl⟩ := mem_tradesOf.mp ht
    · exact (Serv.newMatches_ofCall hb hv hm).maker_trade
    · exact (Serv.newMatches_ofCall hb hv hm).taker_trade
  exact htrades

/-- The new order of a batch is its first execution, and no other. -/
theorem Serv.batch_new : (s.batch a).filter (fun e => e.state = .new) = [s.newExec a] := by
  have htrades : (tradesOf (s.newMatches a)).filter (fun e => e.state = .new) = [] := by
    refine List.filter_eq_nil_iff.mpr (fun t hmem hnew => ?_)
    rw [← Serv.tradesIn_batch hb hv, mem_tradesIn, of_decide_eq_true hnew] at hmem
    exact absurd hmem.2 (by decide)
  show (s.newExec a :: tradesOf (s.newMatches a)).filter _ = _
  rw [List.filter_cons_of_pos (by rfl), htrades]

end Batch

/-! ### What every run keeps of the ledger -/

/-- What the sessions and the id counters see of a call that does not commit. -/
structure Idle (s s' : Serv) : Prop where
  traderKeys : s'.traders.keys = s.traders.keys
  maxOrderId_le : ∀ m, (s.markets.get m).maxOrderId ≤ (s'.markets.get m).maxOrderId
  maxExecId_le : ∀ m, (s.markets.get m).maxExecId ≤ (s'.markets.get m).maxExecId
  sess : ∀ u, SessExt (s.traders.get u) (s'.traders.get u)

theorem Ext.idle {m : Mnem} {s s' : Serv} (he : Ext m s s') : Idle s s' :=
  ⟨he.traderKeys, he.maxOrderId_le, he.maxExecId_le, he.sess⟩

theorem Orphaned.idle {s s' : Serv} {a : OrderArgs} (ho : Orphaned s s' a) : Idle s s' :=
  ⟨ho.traderKeys, ho.maxOrderId_le, ho.maxExecId_le, ho.sess⟩

/-- The executions `es` are the ones that were applied to the sessions. -/
structure LedgerInv (s : Serv) (es : List Exec) : Prop where
  /-- Per market, ids increase. -/
  ids : es.Pairwise (fun e e' => e.market = e'.market → e.id < e'.id)
  id_le : ∀ e ∈ es, e.id ≤ (s.markets.get e.market).maxExecId
  orderId_le : ∀ e ∈ es, e.orderId ≤ (s.markets.get e.market).maxOrderId
  trader : ∀ e ∈ es, e.trader ∈ s.traders.keys
  /-- Trades come in pairs. -/
  mirrored : ∃ ms : List Match, tradesIn es = tradesOf ms ∧
    ∀ m ∈ ms, m.makerTrade.Mirror m.takerTrade
  /-- Each trader keeps the trader's trades. -/
  keeps : ∀ u ∈ s.traders.keys,
    (s.traders.get u).Keeps ((tradesIn es).filter (fun t => t.trader = u))

namespace LedgerInv

variable {s s' : Serv} {a : OrderArgs} {es : List Exec}

/-- Where ids increase per market, no two executions share market and id. -/
theorem idKeys_nodup (hids : es.Pairwise (fun e e' => e.market = e'.market → e.id < e'.id)) :
    (es.map Exec.idKey).Nodup := by
  refine List.pairwise_map.mpr (hids.imp (fun {e e'} hlt heq => ?_))
  have hkey : e.market = e'.market ∧ e.id = e'.id := by simpa [Exec.idKey] using heq
  exact absurd hkey.2 (hlt hkey.1).ne

theorem eq_of_idKey (hl : LedgerInv s es) {e e' : Exec} (he : e ∈ es) (he' : e' ∈ es)
    (hmarket : e.market = e'.market) (hid : e.id = e'.id) : e = e' := by
  have hkey : e.idKey = e'.idKey := by unfold Exec.idKey; rw [hmarket, hid]
  exact List.inj_on_of_nodup_map (idKeys_nodup hl.ids) he he' hkey

theorem nil (htrades : ∀ u ∈ s.traders.keys, (s.traders.get u).trades = KeySet.empty)
    (hposns : ∀ u ∈ s.traders.keys, (s.traders.get u).posns = KeySet.empty) : LedgerInv s [] where
  ids := List.Pairwise.nil
  id_le := by simp
  orderId_le := by simp
  trader := by simp
  mirrored := ⟨[], rfl, by simp⟩
  keeps u hu := TraderSess.Keeps.empty (htrades u hu) (hposns u hu)

theorem idle (hl : LedgerInv s es) (hi : Idle s s') : LedgerInv s' es where
  ids := hl.ids
  id_le e he := (hl.id_le e he).trans (hi.maxExecId_le _)
  orderId_le e he := (hl.orderId_le e he).trans (hi.maxOrderId_le _)
  trader e he := hi.traderKeys ▸ hl.trader e he
  mirrored := hl.mirrored
  keeps u hu := (hl.keeps u (hi.traderKeys ▸ hu)).ext (hi.sess u)

section Traded

variable (hl : LedgerInv s es) (hb : BooksOk s) (hv : a.Valid s)

include hl hb hv

theorem ids_append :
    (es ++ s.batch a).Pairwise (fun e e' => e.market = e'.market → e.id < e'.id) := by
  obtain ⟨hsorted, hbound⟩ := s.batch_ids a
  refine List.pairwise_append.mpr ⟨hl.ids, ?_, fun e he e' he' hm => ?_⟩
  · exact hsorted.imp (fun {e e'} (hlt : e.id < e'.id) _ => hlt)
  · have hle := hl.id_le e he
    rw [hm, Serv.batch_market hb hv he'] at hle
    exact lt_of_le_of_lt hle (hbound e' he').1

/-- The trades of the batch are posted in the sessions. -/
theorem keeps_append (ht : Traded s s' a) {u : Mnem} (hu : u ∈ s.traders.keys) :
    (s'.traders.get u).Keeps ((tradesIn (es ++ s.batch a)).filter (fun t => t.trader = u)) := by
  obtain ⟨T, hTkeys, hext, hposn, hpost⟩ := ht.sessions
  rw [hpost, Sessions.post_get, tradesIn_append, Serv.tradesIn_batch hb hv, List.filter_append]
  have hkeep : (Table.get (T.modify a.sess (TraderSess.insertOrder · s.heap.next (s.takerPlaced a))
      (TraderSess.insertOrder_mnem s.heap.next (s.takerPlaced a))) u).Keeps
      ((tradesIn es).filter (fun t => t.trader = u)) := by
    have hTu := (hl.keeps u hu).ext (hext u)
    rw [Table.modify_get]
    split
    · next heq => subst heq; exact hTu.insertOrder _ _
    · exact hTu
  refine hkeep.foldl_post ?_ ?_
  · have hsub : List.Sublist ((tradesIn es).filter (fun t => t.trader = u) ++
        (tradesOf (s.newMatches a)).filter (fun t => t.trader = u)) (es ++ s.batch a) :=
      (List.filter_sublist.trans List.filter_sublist).append
        (List.filter_sublist.trans (List.sublist_cons_self _ _))
    exact (hsub.map Exec.idKey).nodup (idKeys_nodup (hl.ids_append hb hv))
  · intro t htr
    obtain ⟨hmem, htrader⟩ := List.mem_filter.mp htr
    have hp := hposn t hmem
    rw [of_decide_eq_true htrader] at hp
    rw [Table.modify_get]
    split
    · next heq =>
        subst heq
        unfold TraderSess.hasPosn at hp ⊢
        rwa [TraderSess.insertOrder_posns]
    · exact hp

/-- **A committed call applies its batch.** -/
theorem traded (hmakers : ∀ p ∈ s.makers a, (s.heap p).trader ∈ s.traders.keys)
    (ht : Traded s s' a) : LedgerInv s' (es ++ s.batch a) := by
  refine ⟨hl.ids_append hb hv, ?_, ?_, ?_, ?_, ?_⟩
  · intro e he
    rw [ht.maxExecId]
    rcases List.mem_append.mp he with he | he
    · have hle := hl.id_le e he
      split <;> omega
    · rw [Serv.batch_market hb hv he, if_pos rfl]
      exact ((s.batch_ids a).2 e he).2
  · intro e he
    rw [ht.maxOrderId]
    rcases List.mem_append.mp he with he | he
    · have hle := hl.orderId_le e he
      split <;> omega
    · rw [Serv.batch_market hb hv he, if_pos rfl]
      exact Serv.batch_orderId hb hv he
  · intro e he
    rw [ht.traderKeys]
    rcases List.mem_append.mp he with he | he
    · exact hl.trader e he
    · rcases Serv.batch_of hb hv he with hof | ⟨p, hp, hof⟩
      · rw [hof.trader, Serv.newOrder_trader hv]
        exact hv.sess
      · rw [hof.trader]
        exact hmakers p hp
  · obtain ⟨ms, hms, hmirror⟩ := hl.mirrored
    refine ⟨ms ++ s.newMatches a, ?_, ?_⟩
    · rw [tradesIn_append, Serv.tradesIn_batch hb hv, hms, tradesOf_append]
    · intro m hm
      rcases List.mem_append.mp hm with hm | hm
      · exact hmirror m hm
      · exact (Serv.newMatches_ofCall hb hv hm).mirror
  · intro u hu
    exact hl.keeps_append hb hv ht (ht.traderKeys ▸ hu)

end Traded

end LedgerInv

/-- What every run without stranded matches preserves: the books are in order, and some
executions were applied. -/
structure ApplyInv (s : Serv) : Prop extends CallInv s where
  applied : ∃ es, LedgerInv s es

namespace ApplyInv

variable {s₀ s s' : Serv}

theorem init (h : s.Empty) : ApplyInv s :=
  ⟨CallInv.init h.toEmptyBooks, [], LedgerInv.nil h.trades h.posns⟩

theorem step (hi : ApplyInv s) (hstep : Step NoStrand s s') : ApplyInv s' := by
  refine ⟨hi.toCallInv.step hstep, ?_⟩
  obtain ⟨es, hl⟩ := hi.applied
  obtain ⟨env, a, resp, hv, -, ⟨he, -⟩ | ht | ⟨-, ho⟩⟩ :=
    step_cases (fun _ _ _ _ h => h) hi.books hi.matchVec hstep
  · exact ⟨es, hl.idle he.idle⟩
  · exact ⟨_, hl.traded hi.books hv (hi.traders a.book hv.book _) ht⟩
  · exact ⟨es, hl.idle ho.idle⟩

theorem run (h₀ : s₀.Empty) (hrun : Run NoStrand s₀ s) : ApplyInv s :=
  hrun.invariant (fun _ _ hi hstep => hi.step hstep) (ApplyInv.init h₀)

end ApplyInv

end Swirly
