import Swirly.Fig.Outcome
import Swirly.Fig.Reconcile
import Swirly.Lib.Trace

/-!
# Swirly.Fig.Failure

**What a failed call leaves behind.** A call that the journal refuses is rolled back
(`journ_rolledBack`). Two failures are not. A call that runs out of memory after the
journal has accepted its executions has journaled what it never applies, and leaves its
order in the book without an entry in any session (`Loses.orphaned`). A call that runs out
of memory in the matching loop leaves the matches it has made behind, because the guard that
clears them is set up after the loop: `run_matchVec` says that this is the only way to strand
one, whatever the calls of the run ask for.
-/

namespace Swirly

open Lib (Heap KeySet Table Arith Traced int64 wrap)
open Lib.Effect

variable {s₀ s : Serv}

/-! ### The journal refuses -/

/-- The service `s'` after a call on market `m` was rolled back. -/
structure RolledBack (m : Mnem) (s s' : Serv) : Prop where
  marketKeys : s'.markets.keys = s.markets.keys
  traderKeys : s'.traders.keys = s.traders.keys
  /-- Order list and levels of both sides. -/
  side : ∀ sd, (s'.markets.get m).side sd = (s.markets.get m).side sd
  lastLots : (s'.markets.get m).lastLots = (s.markets.get m).lastLots
  lastTicks : (s'.markets.get m).lastTicks = (s.markets.get m).lastTicks
  lastTime : (s'.markets.get m).lastTime = (s.markets.get m).lastTime
  other : ∀ m' ≠ m, s'.markets.get m' = s.markets.get m'
  mnem : (s'.markets.get m).mnem = (s.markets.get m).mnem
  display : (s'.markets.get m).display = (s.markets.get m).display
  contr : (s'.markets.get m).contr = (s.markets.get m).contr
  settlDay : (s'.markets.get m).settlDay = (s.markets.get m).settlDay
  expiryDay : (s'.markets.get m).expiryDay = (s.markets.get m).expiryDay
  state : (s'.markets.get m).state = (s.markets.get m).state
  heap : ∀ p < s.heap.next, s'.heap p = s.heap p
  sessMnem : ∀ u, (s'.traders.get u).mnem = (s.traders.get u).mnem
  sessDisplay : ∀ u, (s'.traders.get u).display = (s.traders.get u).display
  sessEmail : ∀ u, (s'.traders.get u).email = (s.traders.get u).email
  orders : ∀ u, (s'.traders.get u).orders = (s.traders.get u).orders
  trades : ∀ u, (s'.traders.get u).trades = (s.traders.get u).trades
  refIdx : ∀ u, (s'.traders.get u).refIdx = (s.traders.get u).refIdx
  /-- A position is as it was, or is new and zero. -/
  posns : ∀ u contr settlDay,
    (s'.traders.get u).posns.find? (toLex (contr, settlDay)) =
        (s.traders.get u).posns.find? (toLex (contr, settlDay)) ∨
      (s.traders.get u).posns.find? (toLex (contr, settlDay)) = none ∧
        (s'.traders.get u).posns.find? (toLex (contr, settlDay)) =
          some (newPosn (s.traders.get u).mnem contr settlDay)
  maxOrderId_le : (s.markets.get m).maxOrderId ≤ (s'.markets.get m).maxOrderId
  maxExecId_le : (s.markets.get m).maxExecId ≤ (s'.markets.get m).maxExecId
  journ : s'.journ = s.journ
  matchVec : s'.matchVec = []

theorem Ext.rolledBack {m : Mnem} {s' : Serv} (he : Ext m s s') (hmv : s'.matchVec = []) :
    RolledBack m s s' where
  marketKeys := he.marketKeys
  traderKeys := he.traderKeys
  side := he.side m
  lastLots := by rw [he.book]
  lastTicks := by rw [he.book]
  lastTime := by rw [he.book]
  other := he.other
  mnem := by rw [he.book]
  display := by rw [he.book]
  contr := by rw [he.book]
  settlDay := by rw [he.book]
  expiryDay := by rw [he.book]
  state := by rw [he.book]
  heap := he.heap
  sessMnem u := (he.sess u).mnem
  sessDisplay u := by rw [(he.sess u).eq]
  sessEmail u := by rw [(he.sess u).eq]
  orders u := (he.sess u).orders
  trades u := (he.sess u).trades
  refIdx u := (he.sess u).refIdx
  posns u := (he.sess u).posns
  maxOrderId_le := he.maxOrderId
  maxExecId_le := he.maxExecId
  journ := he.journ
  matchVec := hmv

section Call

variable {env : Env} {a : OrderArgs} {resp : Response}

theorem ReachesJourn.not_failsFirst (h : ReachesJourn env s a) {j : Nat} :
    ¬ FailsFirst env s a.book 0 (s.fills a) j := by
  rintro ⟨-, f, hf, hno⟩
  rw [Nat.zero_add] at hno
  exact hno (h.loop j f hf)

/-- With memory, a call whose checks pass reaches the journal. -/
theorem NoAllocFailure.reachesJourn (h : NoAllocFailure env s a resp) (hchecks : ChecksOk env s a) :
    ReachesJourn env s a where
  checks := hchecks
  openOk := ⟨h _, h _⟩
  loop _ _ _ := ⟨Or.inr (h _), h _, h _, h _⟩
  level := Or.inr (Or.inr (h _))

/-- A call that reaches the journal and fails is refused there, or fails to prepare. -/
theorem Failed.of_reaches {e : Exn} {c' : Ctx} (hf : Failed env s a resp e c')
    (hreaches : ReachesJourn env s a) :
    (env.journ = false ∧ e = .journ ∧ c'.resp = resp ∧ Ext a.book s c'.serv ∧
      c'.serv.matchVec = []) ∨
    (env.journ = true ∧ ∃ s₁, Matched s s₁ a ∧
      (c'.serv = (s.journaled s₁ a).clearMatches ∨
        c'.serv = ((s.journaled s₁ a).prepared a).clearMatches)) := by
  cases hf with
  | expired h => exact absurd h hreaches.checks.1
  | lots _ h => exact absurd h hreaches.checks.2
  | opening s' _ h _ _ => exact absurd hreaches.openOk h
  | matching s' j _ _ h _ _ => exact absurd h hreaches.not_failsFirst
  | placing s' _ _ _ h _ _ => exact absurd hreaches.level h
  | journ s' _ h hext hmv => exact Or.inl ⟨h, rfl, rfl, hext, hmv⟩
  | preparing s₁ c' _ h _ hM hserv => exact Or.inr ⟨h, s₁, hM, hserv⟩

/-- A call that reaches a refusing journal fails there. -/
theorem Failed.of_refused {e : Exn} {c' : Ctx} (hf : Failed env s a resp e c')
    (hreaches : ReachesJourn env s a) (hjourn : env.journ = false) :
    e = .journ ∧ c'.resp = resp ∧ Ext a.book s c'.serv ∧ c'.serv.matchVec = [] := by
  rcases hf.of_reaches hreaches with ⟨-, hrefused⟩ | ⟨haccepts, -⟩
  · exact hrefused
  · rw [hjourn] at haccepts
    cases haccepts

/-- **A call that the journal refuses throws, and is rolled back.** -/
theorem journ_rolledBack (h₀ : s₀.EmptyBooks) (hrun : Run NoAllocFailure s₀ s) (hv : a.Valid s)
    (halloc : NoAllocFailure env s a resp) (hchecks : ChecksOk env s a)
    (hjourn : env.journ = false) :
    ∃ s', createOrder env a ⟨s, resp⟩ = .error .journ ⟨s', resp⟩ ∧ RolledBack a.book s s' := by
  have hsound : Run NoStrand s₀ s := Run.mono (fun _ _ _ _ h => h.sound.1) hrun
  have hi := CallInv.run h₀ hsound
  rcases createOrder_cases env resp hi.books hv.book hv.lots.le with
    ⟨c', s₁, -, hC⟩ | ⟨e, c', herror, hf⟩
  · rw [hC.journ] at hjourn
    exact absurd hjourn (by decide)
  · obtain ⟨rfl, hresp, hext, hmv⟩ := hf.of_refused (halloc.reachesJourn hchecks) hjourn
    refine ⟨c'.serv, ?_, hext.rolledBack hmv⟩
    rw [herror, ← hresp]

end Call

/-- The journal refuses two lots for the bid that rests. -/
theorem offer_rolledBack : ∃ s',
    createOrder { Mock.env with journ := false } (Mock.order Mock.swirly .sell 2 12340)
      ⟨Mock.offer, {}⟩ = .error .journ ⟨s', {}⟩ ∧ RolledBack Mock.market Mock.offer s' :=
  journ_rolledBack Mock.serv_empty.toEmptyBooks Mock.offer_run
    (Mock.order_valid (by decide) (by decide) (by decide)) (fun _ => rfl)
    ⟨by unfold Expired; decide, by decide⟩ rfl

/-! ### The journal has accepted -/

/-- The executions in the journal are exactly those applied to books, sessions and
positions, and no order rests without being in its trader's session. -/
structure Applied (s : Serv) : Prop where
  orders : ∀ e ∈ s.journ, ∃ n ∈ (s.traders.get e.trader).orders.elems,
    n.market = e.market ∧ n.id = e.orderId
  history : ∀ u ∈ s.traders.keys, ∀ n ∈ (s.traders.get u).orders.elems,
    History (execsOf n.market n.id s.journ) (s.heap n.order)
  trades : (tradesIn s.journ).Perm
    (s.traders.keys.flatMap (fun u => (s.traders.get u).trades.elems))
  posns : ∀ u ∈ s.traders.keys, ∀ contr settlDay,
    ((s.traders.get u).posnOf contr settlDay).Tallies contr settlDay
      ((tradesIn s.journ).filter (fun t => t.trader = u))
  rests : ∀ m ∈ s.markets.keys, ∀ sd, ∀ p ∈ ((s.markets.get m).side sd).orders, s.InSession p

theorem ServInv.applied (hi : ServInv s) : Applied s where
  orders := hi.sessions.logged
  history u hu n hn := (hi.sessions.held u hu n hn).history
  trades := hi.ledger.tradesIn_perm
  posns u hu := (hi.ledger.keeps u hu).posns
  rests m hm sd p hp := by
    obtain ⟨hu, hn⟩ := hi.sessions.owned m hm sd p hp
    exact ⟨hu, _, hn, rfl⟩

section Call

variable {env : Env} {a : OrderArgs} {resp : Response}

/-- A call that fails without losing executions has not journaled any. -/
theorem Failed.journ_eq {e : Exn} {c' : Ctx} (hf : Failed env s a resp e c')
    (hlost : ¬ Loses env s a resp) : c'.serv.journ = s.journ := by
  cases hf with
  | expired _ => rfl
  | lots _ _ => rfl
  | opening s' _ _ hext _ => exact hext.journ
  | matching s' j _ _ _ hext _ => exact hext.journ
  | placing s' _ _ _ _ hext _ => exact hext.journ
  | journ s' _ _ hext _ => exact hext.journ
  | preparing s₁ c' hreaches hjourn hno _ _ => exact absurd ⟨hreaches, hjourn, hno⟩ hlost

theorem Failed.orphaned {e : Exn} {c' : Ctx} (hf : Failed env s a resp e c') (hi : CallInv s)
    (hv : a.Valid s) (hlost : Loses env s a resp) : Orphaned s c'.serv a := by
  obtain ⟨hreaches, hjourn, -⟩ := hlost
  rcases hf.of_reaches hreaches with ⟨hrefuses, -⟩ | ⟨-, s₁, hM, hserv⟩
  · rw [hjourn] at hrefuses
    cases hrefuses
  · exact hM.orphaned hi.books hv.book hv.lots.le hi.matchVec hserv

/-- A call that loses executions leaves its order behind. -/
theorem Loses.orphaned (hi : CallInv s) (hv : a.Valid s) (hlost : Loses env s a resp) :
    Orphaned s ((createOrder env a).final ⟨s, resp⟩).serv a := by
  rcases createOrder_cases env resp hi.books hv.book hv.lots.le with
    ⟨c', s₁, -, hC⟩ | ⟨e, c', herror, hf⟩
  · exact absurd hC.prep hlost.2.2
  · rw [final_error herror]
    exact hf.orphaned hi hv hlost

/-- It is one that throws with something journaled. -/
theorem loses_iff_throws (hi : CallInv s) (hv : a.Valid s) : Loses env s a resp ↔
    ((createOrder env a).final ⟨s, resp⟩).serv.journ ≠ s.journ ∧
      (createOrder env a).returns ⟨s, resp⟩ = false := by
  rcases createOrder_cases env resp hi.books hv.book hv.lots.le with
    ⟨c', s₁, hok, hC⟩ | ⟨e, c', herror, hf⟩
  · rw [returns_ok hok]
    exact iff_of_false (fun h => h.2.2 hC.prep) (by simp)
  · rw [returns_error herror, final_error herror]
    by_cases hlost : Loses env s a resp
    · refine iff_of_true hlost ⟨?_, rfl⟩
      rw [(hf.orphaned hi hv hlost).journ]
      simp
    · exact iff_of_false hlost (fun h => h.1 (hf.journ_eq hlost))

end Call

/-! ### The matches of a failed call -/

/-- A call that runs out of memory in the loop keeps the matches it has made. -/
theorem Strands.matchVec_ne {env : Env} {a : OrderArgs} (hi : CallInv s) (resp : Response)
    (hv : a.Valid s) (hs : Strands env s a) :
    ((createOrder env a).final ⟨s, resp⟩).serv.matchVec ≠ [] := by
  obtain ⟨hchecks, hopen, j, hpos, hfails⟩ := hs
  have hnot : ¬ LoopOk env s a := fun hloop => by
    obtain ⟨-, f, hf, hno⟩ := hfails
    rw [Nat.zero_add] at hno
    exact hno (hloop j f hf)
  rcases createOrder_cases env resp hi.books hv.book hv.lots.le with
    ⟨c', s₁, -, hC⟩ | ⟨e, c', herror, hf⟩
  · exact absurd hC.reaches.loop hnot
  · rw [final_error herror]
    cases hf with
    | expired h => exact absurd h hchecks.1
    | lots _ h => exact absurd h hchecks.2
    | opening s' _ h _ _ => exact absurd hopen h
    | matching s' k _ _ h _ hmv =>
        rw [hmv, h.unique hfails, hi.matchVec, List.nil_append]
        obtain ⟨-, f, hget, -⟩ := hfails
        have hlt : j < (s.newMatches a).length := by
          rw [Serv.newMatches, buildMatches_length]
          exact (List.getElem?_eq_some_iff.mp hget).1
        exact fun hnil => by
          have hlen := congrArg List.length hnil
          rw [List.length_take, List.length_nil] at hlen
          omega
    | placing s' _ _ h _ _ _ => exact absurd h hnot
    | journ s' h _ _ _ => exact absurd h.loop hnot
    | preparing s₁ c' h _ _ _ _ => exact absurd h.loop hnot

/-- The vector is empty after a call of the machine, exactly if the call strands no match. -/
theorem matchVec_iff {w : Arith} (env : Env) (a : OrderArgs) (resp : Response)
    (hmv : s.matchVec = []) :
    ((createOrder64 w env a).final ⟨s, resp⟩).serv.matchVec = [] ↔ ¬ Strands64 w env s a := by
  rcases createOrder64_cases w env a resp hmv with
    ⟨c', hok, hreaches, -, c, -, heq⟩ | ⟨e, c', herror, hf⟩
  · rw [final_ok hok, heq]
    exact iff_of_true rfl hreaches.loop.not_strands
  · rw [final_error herror]
    cases hf with
    | clean _ hstrand _ hvec => exact iff_of_true hvec hstrand
    | stranded h _ hvec => exact iff_of_false hvec (not_not.mpr h)
    | lost h _ hvec => exact iff_of_true hvec h.1.loop.not_strands

/-- The vector is empty throughout a run, exactly if no call of it strands a match. -/
theorem matchVec_empty_iff {w : Arith} {trace : List (Serv × OrderCall)} (h₀ : s₀.matchVec = [])
    (hrun : Traced (OrderCall.Step64 w) s₀ trace s) :
    (∀ e ∈ trace, e.1.matchVec = []) ∧ s.matchVec = [] ↔
      ∀ e ∈ trace, ¬ Strands64 w e.2.env e.1 e.2.args := by
  refine Traced.holds_iff (I := fun _ => True) (P := fun s => s.matchVec = [])
    (C := fun s x => ¬ Strands64 w x.env s x.args) trivial h₀ (fun _ _ _ _ _ => trivial) ?_ hrun
  rintro s' x _ - hmv rfl
  exact matchVec_iff x.env x.args x.resp hmv

/-- **No match survives the call that made it**, in any run of calls of any kind, exactly if
none of them runs out of memory in the matching loop with a match made. As long as that is so, a
call that returns has committed its own matches, and no others. -/
theorem run_matchVec {w : Arith} {trace : List (Serv × OrderCall)} (h₀ : s₀.matchVec = [])
    (hrun : Traced (OrderCall.Step64 w) s₀ trace s) :
    ((∀ e ∈ trace, e.1.matchVec = []) ∧ s.matchVec = [] ↔
      ∀ e ∈ trace, ¬ Strands64 w e.2.env e.1 e.2.args) ∧
    (s.matchVec = [] → ∀ env a resp c', createOrder64 w env a ⟨s, resp⟩ = .ok () c' →
      Commits64 w s a resp c') := by
  refine ⟨matchVec_empty_iff h₀ hrun, ?_⟩
  intro hmv env a resp c' hok
  rcases createOrder64_cases w env a resp hmv with
    ⟨c, hok', -, -, hcommits⟩ | ⟨e, c, herror, -⟩
  · rw [hok] at hok'
    cases hok'
    exact hcommits
  · rw [hok] at herror
    cases herror

namespace Mock

/-- MARAYL bids for ten lots. -/
def bidTen : OrderCall := ⟨env, order marayl .buy 10 12345, {}⟩

/-- SWIRLY sells four. -/
def sellFour : OrderCall := ⟨env, order swirly .sell 4 12344, {}⟩

/-- The service after the bid, on the machine. -/
def bid64 : Serv := serv.call64 env bidTen.args

theorem sellFour_run : Traced (OrderCall.Step64 (wrap int64)) serv
    [(serv, bidTen), (bid64, sellFour)] (bid64.call64 env sellFour.args) :=
  (Traced.nil.snoc rfl).snoc rfl

/-- MARAYL bids for five lots more, at a lower price. -/
def bidFive : OrderCall := ⟨env, order marayl .buy 5 12344, {}⟩

def bids : Serv := bid64.call64 env bidFive.args

/-- SWIRLY sells twelve lots, and there is no memory for the maker's trade of the second match. -/
def sellTwelve : OrderCall :=
  ⟨{ env with alloc := fun site => site ≠ .makerTrade 1 }, order swirly .sell 12 12340, {}⟩

def stranded : Serv := bids.call64 sellTwelve.env sellTwelve.args

/-- SWIRLY bids for one lot at a price that crosses nothing. -/
def stale : Serv := stranded.call64 env (order swirly .buy 1 1)

theorem stranded_run : Traced (OrderCall.Step64 (wrap int64)) serv
    [(serv, bidTen), (bid64, bidFive), (bids, sellTwelve)] stranded :=
  ((Traced.nil.snoc rfl).snoc rfl).snoc rfl

end Mock

theorem Mock.env_noStrands (s : Serv) (a : OrderArgs) :
    ¬ Strands64 (wrap int64) Mock.env s a := by
  rintro ⟨-, -, j, -, -, f, -, hno⟩
  exact hno ⟨Or.inr rfl, rfl, rfl, rfl⟩

/-- The bid and the sale leave no match. -/
theorem offer_matchVec :
    (∀ e ∈ [(Mock.serv, Mock.bidTen), (Mock.bid64, Mock.sellFour)], e.1.matchVec = []) ∧
      (Mock.bid64.call64 Mock.env Mock.sellFour.args).matchVec = [] := by
  refine (run_matchVec (rfl : Mock.serv.matchVec = []) Mock.sellFour_run).1.mpr (fun e he => ?_)
  rcases List.mem_pair.mp he with rfl | rfl
  · exact Mock.env_noStrands _ _
  · exact Mock.env_noStrands _ _

/-- **A match outlives its call**, and the next call, which matches nothing, takes its maker:
the first bid goes from 10 lots to none. -/
theorem stranded_matchVec :
    Traced (OrderCall.Step64 (wrap int64)) Mock.serv
      [(Mock.serv, Mock.bidTen), (Mock.bid64, Mock.bidFive), (Mock.bids, Mock.sellTwelve)]
      Mock.stranded ∧
    Mock.stranded.matchVec ≠ [] ∧
    Mock.stranded.newMatches64 (wrap int64) (Mock.order Mock.swirly .buy 1 1) = [] ∧
    (Mock.stranded.heap 0).resd = 10 ∧ (Mock.stale.heap 0).resd = 0 :=
  ⟨Mock.stranded_run, by decide, by decide, by decide, by decide⟩

end Swirly
