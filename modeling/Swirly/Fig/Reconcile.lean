import Swirly.Fig.Sessions

/-!
# Swirly.Fig.Reconcile

**What the invariant says between calls.** Orders, trades and positions of a trader
reconcile (`run_reconciles`); every trade has one mirror image and the market is zero-sum
(`run_mirrored`); the journal is a faithful log (`run_journal`); and the books hold
exactly the live orders of the sessions (`run_live`).
-/

namespace Swirly

open Lib (Heap KeySet Table tally)

variable {s₀ s : Serv}

/-! ### Orders, trades and positions -/

/-- The trade is about the order. -/
def Exec.About (o : Order) (t : Exec) : Prop := t.market = o.market ∧ t.orderId = o.id

instance (o : Order) : DecidablePred (Exec.About o) := fun _ => inferInstanceAs (Decidable (_ ∧ _))

/-- The order is what its trades among `ts` made of it. -/
structure Order.Reconciles (o : Order) (ts : List Exec) : Prop where
  lots : o.lots = o.exec + o.resd
  resd : 0 ≤ o.resd
  exec : o.exec = tally (Exec.About o) (fun t => t.lastLots) ts
  cost : o.cost = tally (Exec.About o) Exec.lastCost ts

namespace ServInv

/-- The trades about an order are with its trader. -/
theorem tally_about (hi : ServInv s) {u : Mnem} (hu : u ∈ s.traders.keys) {n : OrderNode}
    (hn : n ∈ s.nodes u) (f : Exec → Int) :
    tally (Exec.About (s.heap n.order)) f (s.traders.get u).trades.elems =
      tally (fun t => t.state = .trade) f (execsOf n.market n.id s.journ) := by
  have hh := hi.sessions.held u hu n hn
  have hkeeps := hi.ledger.keeps u hu
  have habout : ∀ t : Exec,
      Exec.About (s.heap n.order) t ↔ t.market = n.market ∧ t.orderId = n.id := by
    intro t
    unfold Exec.About
    rw [hh.market, hh.id]
  rw [Lib.tally_perm hkeeps.trades, tradesIn, execsOf, Lib.tally_filter, Lib.tally_filter,
    Lib.tally_filter]
  refine Lib.tally_congr ?_
  intro t ht
  rw [habout]
  constructor
  · rintro ⟨⟨hof, -⟩, hstate⟩
    exact ⟨hstate, hof⟩
  · rintro ⟨hstate, hof⟩
    have htrader := hh.history.trader t (mem_execsOf.mpr ⟨ht, hof⟩)
    exact ⟨⟨hof, htrader.trans hh.trader⟩, hstate⟩

theorem reconciles (hi : ServInv s) {u : Mnem} (hu : u ∈ s.traders.keys) {n : OrderNode}
    (hn : n ∈ s.nodes u) :
    (s.heap n.order).Reconciles (s.traders.get u).trades.elems := by
  have hh := hi.sessions.held u hu n hn
  obtain ⟨hlots, hexec, hcost⟩ := hh.history.total
  exact ⟨hlots, hh.resd_nonneg, hexec.trans (hi.tally_about hu hn _).symm,
    hcost.trans (hi.tally_about hu hn _).symm⟩

end ServInv

/-- **Orders, trades and positions of a trader reconcile**, between any two calls. -/
theorem run_reconciles (h₀ : s₀.Empty) (hrun : Run Sound s₀ s) {u : Mnem}
    (hu : u ∈ s.traders.keys) :
    (∀ n ∈ (s.traders.get u).orders.elems,
      (s.heap n.order).Reconciles (s.traders.get u).trades.elems) ∧
    ∀ contr settlDay, ((s.traders.get u).posnOf contr settlDay).Tallies contr settlDay
      (s.traders.get u).trades.elems := by
  have hi := ServInv.run h₀ hrun
  have hkeeps := hi.ledger.keeps u hu
  exact ⟨fun n hn => hi.reconciles hu hn,
    fun contr settlDay => (hkeeps.posns contr settlDay).perm hkeeps.trades.symm⟩

theorem offer_reconciles :
    (Mock.offer.heap 0).Reconciles (Mock.offer.traders.get Mock.marayl).trades.elems ∧
      (Mock.offer.heap 0).exec = 4 := by
  obtain ⟨horders, -⟩ := run_reconciles Mock.serv_empty Mock.offer_sound (u := Mock.marayl)
    (by decide)
  exact ⟨horders ⟨Mock.market, 1, 0⟩ (by decide), by decide⟩

/-! ### Mirror images -/

/-- The sum of a quantity over the positions of all traders. -/
def Serv.sumPosns (s : Serv) (f : Posn → Int) (contr : Mnem) (settlDay : Int) : Int :=
  (s.traders.keys.map (fun u => f ((s.traders.get u).posnOf contr settlDay))).sum

namespace LedgerInv

variable {es : List Exec}

theorem mem_trades (hl : LedgerInv s es) {u : Mnem} (hu : u ∈ s.traders.keys) {t : Exec} :
    t ∈ (s.traders.get u).trades.elems ↔ t ∈ tradesIn es ∧ t.trader = u := by
  rw [(hl.keeps u hu).trades.mem_iff, List.mem_filter, decide_eq_true_iff]

/-- The other half of a trade was applied too. -/
theorem exists_mirror (hl : LedgerInv s es) {t : Exec} (ht : t ∈ tradesIn es) :
    ∃ t' ∈ tradesIn es, t.Mirror t' := by
  obtain ⟨ms, hms, hmirror⟩ := hl.mirrored
  rw [hms] at ht ⊢
  obtain ⟨m, hm, rfl | rfl⟩ := mem_tradesOf.mp ht
  · exact ⟨m.takerTrade, mem_tradesOf.mpr ⟨m, hm, Or.inr rfl⟩, hmirror m hm⟩
  · exact ⟨m.makerTrade, mem_tradesOf.mpr ⟨m, hm, Or.inl rfl⟩, (hmirror m hm).symm⟩

/-- Both sides of the market tally. -/
theorem tally_sides (hl : LedgerInv s es) (contr : Mnem) (settlDay : Int) {f : Exec → Int}
    (hf : ∀ t t' : Exec, t.Mirror t' → f t' = f t) :
    tally (Exec.For contr settlDay .buy) f (tradesIn es) =
      tally (Exec.For contr settlDay .sell) f (tradesIn es) := by
  obtain ⟨ms, hms, hmirror⟩ := hl.mirrored
  rw [hms]
  refine Lib.tally_flatMap_congr ?_
  intro m hm
  have hm' := hmirror m hm
  have hfor : ∀ sd, Exec.For contr settlDay sd m.takerTrade ↔
      Exec.For contr settlDay sd.opposite m.makerTrade := by
    intro sd
    unfold Exec.For
    rw [hm'.contr, hm'.settlDay, hm'.side]
    cases m.makerTrade.side <;> cases sd <;> simp [Side.opposite]
  simp only [Lib.tally_cons, Lib.tally_nil, hfor, hf _ _ hm', Side.opposite, add_zero]
  exact add_comm _ _

theorem sumPosns_eq (hl : LedgerInv s es) {g : Posn → Int} {f : Exec → Int} {contr : Mnem}
    {settlDay : Int} {sd : Side}
    (hg : ∀ {q : Posn} {ts : List Exec}, q.Tallies contr settlDay ts →
      g q = tally (Exec.For contr settlDay sd) f ts) :
    s.sumPosns g contr settlDay = tally (Exec.For contr settlDay sd) f (tradesIn es) := by
  unfold Serv.sumPosns
  rw [List.map_congr_left (fun u hu => hg ((hl.keeps u hu).posns contr settlDay))]
  exact Lib.sum_tally_owner s.traders.nodup (fun t ht => hl.trader t (mem_tradesIn.mp ht).1)

/-- The sessions hold the trades that were applied, each once. -/
theorem tradesIn_perm (hl : LedgerInv s es) : (tradesIn es).Perm
    (s.traders.keys.flatMap (fun u => (s.traders.get u).trades.elems)) := by
  have hes : es.Nodup := List.Nodup.of_map _ (idKeys_nodup hl.ids)
  have hnodup : (s.traders.keys.flatMap (fun u => (s.traders.get u).trades.elems)).Nodup := by
    refine List.nodup_flatMap.mpr ⟨fun u _ => (s.traders.get u).trades.nodup, ?_⟩
    refine s.traders.nodup.imp_of_mem ?_
    intro u u' hu hu' hne t ht ht'
    exact hne (((hl.mem_trades hu).mp ht).2.symm.trans ((hl.mem_trades hu').mp ht').2)
  refine (List.perm_ext_iff_of_nodup (hes.filter _) hnodup).mpr ?_
  intro t
  rw [List.mem_flatMap]
  constructor
  · intro ht
    have hu := hl.trader t (mem_tradesIn.mp ht).1
    exact ⟨t.trader, hu, (hl.mem_trades hu).mpr ⟨ht, rfl⟩⟩
  · rintro ⟨u, hu, ht⟩
    exact ((hl.mem_trades hu).mp ht).1

end LedgerInv

/-- **Every trade has exactly one mirror image, and the market is zero-sum**, whatever the
calls that failed left behind. -/
theorem run_mirrored (h₀ : s₀.Empty) (hrun : Run NoStrand s₀ s) :
    (∀ u ∈ s.traders.keys, ∀ t ∈ (s.traders.get u).trades.elems,
      ∃ u' ∈ s.traders.keys, ∃ t' ∈ (s.traders.get u').trades.elems, t.Mirror t' ∧
        ∀ u'' ∈ s.traders.keys, ∀ t'' ∈ (s.traders.get u'').trades.elems,
          t''.market = t.market → t''.id = t.matchId → u'' = u' ∧ t'' = t') ∧
    ∀ contr settlDay,
      s.sumPosns Posn.buyLots contr settlDay = s.sumPosns Posn.sellLots contr settlDay ∧
      s.sumPosns Posn.buyCost contr settlDay = s.sumPosns Posn.sellCost contr settlDay := by
  obtain ⟨es, hl⟩ := (ApplyInv.run h₀ hrun).applied
  refine ⟨fun u hu t ht => ?_, fun contr settlDay => ⟨?_, ?_⟩⟩
  · obtain ⟨t', ht', hmirror⟩ := hl.exists_mirror ((hl.mem_trades hu).mp ht).1
    have hes' := (mem_tradesIn.mp ht').1
    have hu' := hl.trader t' hes'
    refine ⟨t'.trader, hu', t', (hl.mem_trades hu').mpr ⟨ht', rfl⟩, hmirror, ?_⟩
    intro u'' hu'' t'' ht'' hmarket hid
    obtain ⟨htrade'', rfl⟩ := (hl.mem_trades hu'').mp ht''
    have heq := hl.eq_of_idKey (mem_tradesIn.mp htrade'').1 hes'
      (hmarket.trans hmirror.market.symm) (hid.trans hmirror.id.symm)
    rw [heq]
    exact ⟨rfl, rfl⟩
  · rw [hl.sumPosns_eq (fun h => h.buyLots), hl.sumPosns_eq (fun h => h.sellLots)]
    exact hl.tally_sides contr settlDay (fun t t' h => h.lastLots)
  · rw [hl.sumPosns_eq (fun h => h.buyCost), hl.sumPosns_eq (fun h => h.sellCost)]
    refine hl.tally_sides contr settlDay ?_
    intro t t' h
    unfold Exec.lastCost
    rw [h.lastLots, h.lastTicks]

theorem offer_mirrored :
    Mock.offer.sumPosns Posn.buyLots Mock.contr 2456730 =
      Mock.offer.sumPosns Posn.sellLots Mock.contr 2456730 ∧
    Mock.offer.sumPosns Posn.sellLots Mock.contr 2456730 = 4 := by
  obtain ⟨-, hsums⟩ := run_mirrored Mock.serv_empty Mock.offer_noStrand
  exact ⟨(hsums Mock.contr 2456730).1, by decide⟩

/-! ### The journal -/

/-- **The journal is a faithful log**: ids increase in each market, every order has its
history in it, and its trades are exactly those that the sessions hold. -/
theorem run_journal (h₀ : s₀.Empty) (hrun : Run NoAllocFailure s₀ s) :
    s.journ.Pairwise (fun e e' => e.market = e'.market → e.id < e'.id) ∧
    (∀ u ∈ s.traders.keys, ∀ n ∈ (s.traders.get u).orders.elems,
      History (execsOf (s.heap n.order).market (s.heap n.order).id s.journ) (s.heap n.order)) ∧
    (tradesIn s.journ).Perm
      (s.traders.keys.flatMap (fun u => (s.traders.get u).trades.elems)) := by
  have hsound : Run Sound s₀ s := Run.mono (fun _ _ _ _ h => h.sound) hrun
  have hi := ServInv.run h₀ hsound
  refine ⟨hi.ledger.ids, ?_, hi.ledger.tradesIn_perm⟩
  intro u hu n hn
  have hh := hi.sessions.held u hu n hn
  rw [hh.market, hh.id]
  exact hh.history

theorem offer_journal : History (execsOf Mock.market 1 Mock.offer.journ) (Mock.offer.heap 0) := by
  obtain ⟨-, hhistory, -⟩ := run_journal Mock.serv_empty Mock.offer_run
  exact hhistory Mock.marayl (by decide) ⟨Mock.market, 1, 0⟩ (by decide)

/-! ### Live orders -/

/-- The order is in the session of its own trader. -/
def Serv.InSession (s : Serv) (p : OrderPtr) : Prop :=
  (s.heap p).trader ∈ s.traders.keys ∧
    ∃ n ∈ (s.traders.get (s.heap p).trader).orders.elems, n.order = p

/-- The book of market `m` and the sessions agree on what is live. -/
structure LiveAgree (s : Serv) (m : Mnem) : Prop where
  live : ∀ p, p ∈ ((s.markets.get m).side (s.heap p).side).orders ↔
    s.InSession p ∧ (s.heap p).market = m ∧ 0 < (s.heap p).resd
  once : ∀ sd, ∀ p ∈ ((s.markets.get m).side sd).orders, (s.heap p).side = sd ∧
    ((s.markets.get m).side sd).orders.count p = 1
  unique : ∀ p q, s.InSession p → s.InSession q → (s.heap p).market = m →
    (s.heap q).market = m → (s.heap p).id = (s.heap q).id → p = q
  id_le : ∀ p, s.InSession p → (s.heap p).market = m →
    (s.heap p).id ≤ (s.markets.get m).maxOrderId

/-- **Sessions and books agree on what is live.** -/
theorem run_live (h₀ : s₀.Empty) (hrun : Run NoAllocFailure s₀ s) {m : Mnem}
    (hm : m ∈ s.markets.keys) : LiveAgree s m := by
  have hsound : Run Sound s₀ s := Run.mono (fun _ _ _ _ h => h.sound) hrun
  have hi := ServInv.run h₀ hsound
  refine ⟨fun p => ⟨fun hp => ?_, ?_⟩, fun sd p hp => ?_, ?_, ?_⟩
  · obtain ⟨hu, hn⟩ := hi.sessions.owned m hm _ p hp
    have hs := hi.books m hm (s.heap p).side
    have hmarket := (hs.rests p hp).market.trans (s.markets.key_get m hm)
    exact ⟨⟨hu, _, hn, rfl⟩, hmarket, hs.resd_pos hp⟩
  · rintro ⟨⟨hu, n, hn, rfl⟩, hmarket, hpos⟩
    have hh := hi.sessions.held _ hu n hn
    have hrests := hh.rests hpos
    rwa [← hh.market, hmarket] at hrests
  · have hs := hi.books m hm sd
    exact ⟨hs.side hp, List.count_eq_one_of_mem hs.nodup hp⟩
  · rintro _ _ ⟨hu, n, hn, rfl⟩ ⟨hu', n', hn', rfl⟩ hmarket hmarket' hid
    have hh := hi.sessions.held _ hu n hn
    have hh' := hi.sessions.held _ hu' n' hn'
    rw [hi.sessions.unique _ hu n hn _ hu' n' hn' (OrderNode.key_eq_iff.mpr
      ⟨hh.market.symm.trans ((hmarket.trans hmarket'.symm).trans hh'.market),
        hh.id.symm.trans (hid.trans hh'.id)⟩)]
  · rintro _ ⟨hu, n, hn, rfl⟩ hmarket
    have hh := hi.sessions.held _ hu n hn
    have hle := hh.id_le
    rwa [← hh.market, hmarket, ← hh.id] at hle

theorem offer_live : LiveAgree Mock.offer Mock.market :=
  run_live Mock.serv_empty Mock.offer_run (by decide)

end Swirly
