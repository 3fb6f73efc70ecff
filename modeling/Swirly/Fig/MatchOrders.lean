import Swirly.Lib.Greedy
import Swirly.Fig.Ext

/-!
# Swirly.Fig.MatchOrders

**The matching loop computes a list of fills.** The loop walks the opposite side
in list order, with two exits, and allocates as it goes. What it computes does
not depend on the allocations: `fillsOf` is the greedy allocation of the taker's
lots to the orders that cross, and `buildMatches` the match for each fill, with
the running sums. `matchLoop_wp` says that the loop builds exactly these, or fails
at the first iteration in which an allocation fails (`IterOk`), leaving the matches
of the iterations before it behind.
-/

namespace Swirly

open Lib (Heap Table)
open Lib.Effect

variable {env : Env} {c : Ctx} {E : Exn → Ctx → Prop}

/-! ### The rules for the primitive calls -/

@[simp] theorem modifyServ_wp {f : Serv → Serv} {Q : Unit → Ctx → Prop} :
    wp (modifyServ f) Q E c ↔ Q () { c with serv := f c.serv } := Iff.rfl

@[simp] theorem modifyResp_wp {f : Response → Response} {Q : Unit → Ctx → Prop} :
    wp (modifyResp f) Q E c ↔ Q () { c with resp := f c.resp } := Iff.rfl

theorem allocate_wp {site : AllocSite} {Q : Unit → Ctx → Prop} :
    wp (allocate env site) Q E c ↔
      (env.alloc site = true → Q () c) ∧ (¬ env.alloc site = true → E .badAlloc c) := by
  unfold allocate
  rw [wp_ite, wp_pure, wp_throw]

@[simp] theorem allocOrderId_wp {m : Mnem} {Q : Int → Ctx → Prop} :
    wp (allocOrderId m) Q E c ↔
      Q ((c.serv.markets.get m).maxOrderId + 1) { c with serv := c.serv.allocOrderId m } := by
  unfold allocOrderId
  simp only [wp_bind, modifyServ_wp, wp_get, wp_pure]
  simp [Serv.allocOrderId, MarketBook.allocOrderId]

@[simp] theorem allocExecId_wp {m : Mnem} {Q : Int → Ctx → Prop} :
    wp (allocExecId m) Q E c ↔
      Q ((c.serv.markets.get m).maxExecId + 1) { c with serv := c.serv.allocExecId m } := by
  unfold allocExecId
  simp only [wp_bind, modifyServ_wp, wp_get, wp_pure]
  simp [Serv.allocExecId, MarketBook.allocExecId]

/-- A position is there, or can be allocated. -/
def PosnOk (env : Env) (s : Serv) (trader contr : Mnem) (settlDay : Int) : Prop :=
  (s.traders.get trader).hasPosn contr settlDay = true ∨ env.alloc (.posn trader) = true

theorem lazyPosn_wp {trader contr : Mnem} {settlDay : Int} {Q : PosnPtr → Ctx → Prop} :
    wp (lazyPosn env trader contr settlDay) Q E c ↔
      (PosnOk env c.serv trader contr settlDay →
        Q ⟨trader, contr, settlDay⟩ { c with serv := c.serv.lazyPosn trader contr settlDay }) ∧
      (¬ PosnOk env c.serv trader contr settlDay → E .badAlloc c) := by
  unfold lazyPosn PosnOk
  simp only [wp_bind, wp_get, wp_ite, allocate_wp, modifyServ_wp, wp_pure]
  cases (c.serv.traders.get trader).hasPosn contr settlDay <;> simp

/-! ### What the loop computes -/

/-- Do the prices cross? The loop goes on while they do; prices are compared exactly here, and by
`spread64` on the machine. -/
def crosses (takerOrder makerOrder : Order) : Bool :=
  spread takerOrder makerOrder takerOrder.side.direct ≤ 0

/-- A bid crosses the offers at its price or below. -/
theorem crosses_buy {takerOrder makerOrder : Order} (hside : takerOrder.side = .buy) :
    crosses takerOrder makerOrder = true ↔ makerOrder.ticks ≤ takerOrder.ticks := by
  simp [crosses, spread, hside, Side.direct]

/-- An offer crosses the bids at its price or above. -/
theorem crosses_sell {takerOrder makerOrder : Order} (hside : takerOrder.side = .sell) :
    crosses takerOrder makerOrder = true ↔ takerOrder.ticks ≤ makerOrder.ticks := by
  simp [crosses, spread, hside, Side.direct]

/-- The greedy allocation of the `want` lots of a taker to the orders that cross. -/
def fillsOf (h : Heap Order) (taker : Order) (want : Int) (orders : List OrderPtr) :
    List (OrderPtr × Int) :=
  Lib.Greedy.fill (fun p => (h p).resd) want (orders.takeWhile (fun p => crosses taker (h p)))

section FillsOf

variable (h : Heap Order) (taker : Order) (p : OrderPtr) (orders : List OrderPtr)

@[simp] theorem fillsOf_nil (want : Int) : fillsOf h taker want [] = [] := rfl

@[simp] theorem fillsOf_zero : fillsOf h taker 0 orders = [] := Lib.Greedy.fill_zero

variable {h taker p}

theorem fillsOf_cons_of_not {want : Int} (hno : ¬ crosses taker (h p)) :
    fillsOf h taker want (p :: orders) = [] := by
  simp [fillsOf, hno]

theorem fillsOf_cons {want : Int} (hw : want ≠ 0) (hyes : crosses taker (h p)) :
    fillsOf h taker want (p :: orders) =
      (p, min want (h p).resd) :: fillsOf h taker (want - min want (h p).resd) orders := by
  simp [fillsOf, hyes, Lib.Greedy.fill_cons hw]

/-- A fill takes from one of the orders. -/
theorem mem_orders_of_mem_fillsOf {want : Int} {orders : List OrderPtr} {f : OrderPtr × Int}
    (hf : f ∈ fillsOf h taker want orders) : f.1 ∈ orders := by
  have hmem := (Lib.Greedy.fill_prefix _ _ _).subset (List.mem_map_of_mem hf)
  exact (List.takeWhile_prefix _).subset hmem

theorem fillsOf_congr {h' : Heap Order} {want : Int} {orders : List OrderPtr}
    (hh : ∀ p ∈ orders, h' p = h p) :
    fillsOf h' taker want orders = fillsOf h taker want orders := by
  induction orders generalizing want with
  | nil => rfl
  | cons p orders ih =>
      have hp := hh p List.mem_cons_self
      by_cases hc : crosses taker (h p)
      · by_cases hw : want = 0
        · rw [hw, fillsOf_zero, fillsOf_zero]
        · rw [fillsOf_cons orders hw hc, fillsOf_cons orders hw (by rwa [hp]), hp,
            ih (fun q hq => hh q (List.mem_cons_of_mem p hq))]
      · rw [fillsOf_cons_of_not orders hc, fillsOf_cons_of_not orders (by rwa [hp])]

end FillsOf

/-- The makers whose price is compared with the taker's: those it trades with, and the next
one if it still wants lots. -/
def seenOf (h : Heap Order) (taker : Order) : Int → List OrderPtr → List OrderPtr
  | _, [] => []
  | want, p :: orders =>
      if want = 0 then []
      else if crosses taker (h p) then p :: seenOf h taker (want - min want (h p).resd) orders
      else [p]

theorem mem_orders_of_mem_seenOf {h : Heap Order} {taker : Order} {want : Int}
    {orders : List OrderPtr} {p : OrderPtr} (hp : p ∈ seenOf h taker want orders) :
    p ∈ orders := by
  induction orders generalizing want with
  | nil => exact absurd hp List.not_mem_nil
  | cons q orders ih =>
      unfold seenOf at hp
      split at hp
      · exact absurd hp List.not_mem_nil
      · split at hp
        · rcases List.mem_cons.mp hp with rfl | hp
          · exact List.mem_cons_self
          · exact List.mem_cons_of_mem q (ih hp)
        · exact List.mem_singleton.mp hp ▸ List.mem_cons_self

theorem seenOf_congr {h h' : Heap Order} {taker : Order} {want : Int} {orders : List OrderPtr}
    (hh : ∀ p ∈ orders, h' p = h p) :
    seenOf h' taker want orders = seenOf h taker want orders := by
  induction orders generalizing want with
  | nil => rfl
  | cons p orders ih =>
      unfold seenOf
      rw [hh p List.mem_cons_self, ih (fun q hq => hh q (List.mem_cons_of_mem p hq))]

/-- The match for one fill. The maker's execution has id `makerId`, the taker's the next. -/
def mkMatch (b : MarketBook) (taker maker : Order) (p : OrderPtr) (lots : Int) (sums : Sums)
    (makerId now : Int) : Match :=
  { lots, makerOrder := p
    makerTrade := (newExec maker makerId now).tradeLast lots maker.ticks (makerId + 1) .maker
      taker.trader
    makerPosn := ⟨maker.trader, b.contr, b.settlDay⟩
    takerTrade := (newExec taker (makerId + 1) now).trade sums.sumLots sums.sumCost lots
      maker.ticks makerId .taker maker.trader }

/-- The running sums after a fill. -/
def Sums.fill (h : Heap Order) (sums : Sums) (f : OrderPtr × Int) : Sums :=
  sums.add f.2 (h f.1).ticks

/-- A sum that every fill adds to. -/
theorem Sums.foldl_fill {h : Heap Order} (total : Sums → Int) (part : OrderPtr × Int → Int)
    (hfill : ∀ sums f, total (Sums.fill h sums f) = total sums + part f)
    (fs : List (OrderPtr × Int)) (sums : Sums) :
    total (fs.foldl (Sums.fill h) sums) = total sums + (fs.map part).sum := by
  induction fs generalizing sums with
  | nil => simp
  | cons f fs ih => rw [List.foldl_cons, ih, hfill, List.map_cons, List.sum_cons, ← add_assoc]

theorem sumLots_foldl (h : Heap Order) (fs : List (OrderPtr × Int)) (sums : Sums) :
    (fs.foldl (Sums.fill h) sums).sumLots = sums.sumLots + (fs.map Prod.snd).sum :=
  Sums.foldl_fill Sums.sumLots Prod.snd (fun _ _ => rfl) fs sums

/-- The matches for a list of fills; `maxExecId` is the last id given out before. -/
def buildMatches (h : Heap Order) (b : MarketBook) (taker : Order) (now : Int) :
    Int → Sums → List (OrderPtr × Int) → List Match
  | _, _, [] => []
  | maxExecId, sums, f :: fs =>
      mkMatch b taker (h f.1) f.1 f.2 (sums.fill h f) (maxExecId + 1) now ::
        buildMatches h b taker now (maxExecId + 2) (sums.fill h f) fs

@[simp] theorem buildMatches_length (h : Heap Order) (b : MarketBook) (taker : Order) (now : Int)
    (id : Int) (sums : Sums) (fs : List (OrderPtr × Int)) :
    (buildMatches h b taker now id sums fs).length = fs.length := by
  induction fs generalizing id sums with
  | nil => rfl
  | cons f fs ih => simp [buildMatches, ih]

/-- The matches are those of the fills, in order. -/
theorem buildMatches_map (h : Heap Order) (b : MarketBook) (taker : Order) (now : Int)
    (id : Int) (sums : Sums) (fs : List (OrderPtr × Int)) :
    (buildMatches h b taker now id sums fs).map (fun m => (m.makerOrder, m.lots)) = fs := by
  induction fs generalizing id sums with
  | nil => rfl
  | cons f fs ih => rw [buildMatches, List.map_cons, ih]; rfl

theorem mem_buildMatches {h : Heap Order} {b : MarketBook} {taker : Order} {now id : Int}
    {sums : Sums} {fs : List (OrderPtr × Int)} {m : Match}
    (hm : m ∈ buildMatches h b taker now id sums fs) :
    ∃ f ∈ fs, ∃ sums' makerId, m = mkMatch b taker (h f.1) f.1 f.2 sums' makerId now := by
  induction fs generalizing id sums with
  | nil => simp [buildMatches] at hm
  | cons f fs ih =>
      rw [buildMatches, List.mem_cons] at hm
      rcases hm with rfl | hm
      · exact ⟨f, List.mem_cons_self, _, _, rfl⟩
      · obtain ⟨g, hg, sums', makerId, rfl⟩ := ih hm
        exact ⟨g, List.mem_cons_of_mem f hg, sums', makerId, rfl⟩

/-- The matches depend on the makers, the contract and the settlement day. -/
theorem buildMatches_congr {h h' : Heap Order} {b b' : MarketBook} (hcontr : b'.contr = b.contr)
    (hday : b'.settlDay = b.settlDay) {fs : List (OrderPtr × Int)} (hh : ∀ f ∈ fs, h' f.1 = h f.1)
    (taker : Order) (now id : Int) (sums : Sums) :
    buildMatches h' b' taker now id sums fs = buildMatches h b taker now id sums fs := by
  induction fs generalizing id sums with
  | nil => rfl
  | cons f fs ih =>
      have hf := hh f List.mem_cons_self
      have hsums : sums.fill h' f = sums.fill h f := by unfold Sums.fill; rw [hf]
      simp only [buildMatches, mkMatch, hcontr, hday, hf, hsums,
        ih (fun g hg => hh g (List.mem_cons_of_mem f hg))]

/-! ### One iteration -/

/-- Every allocation of iteration `i`, against the maker `p`, succeeds. -/
def IterOk (env : Env) (s : Serv) (book : Mnem) (i : Nat) (p : OrderPtr) : Prop :=
  PosnOk env s (s.heap p).trader (s.markets.get book).contr (s.markets.get book).settlDay ∧
    env.alloc (.makerTrade i) = true ∧ env.alloc (.takerTrade i) = true ∧
    env.alloc (.pushMatch i) = true

/-- The service after the ids and the maker's position of an iteration were allocated. -/
def Serv.iterate (s : Serv) (book : Mnem) (p : OrderPtr) : Serv :=
  ((s.allocExecId book).allocExecId book).lazyPosn (s.heap p).trader
    (s.markets.get book).contr (s.markets.get book).settlDay

namespace Serv

variable (s : Serv) (book : Mnem) (p : OrderPtr)

theorem ext_allocTwo : Ext book s ((s.allocExecId book).allocExecId book) :=
  (Ext.allocExecId book s).trans (Ext.allocExecId book _)

theorem ext_iterate : Ext book s (s.iterate book p) :=
  (s.ext_allocTwo book).trans (Ext.lazyPosn _ _ _ _ _)

@[simp] theorem iterate_heap : (s.iterate book p).heap = s.heap := rfl

@[simp] theorem iterate_matchVec : (s.iterate book p).matchVec = s.matchVec := rfl

theorem iterate_book : (s.iterate book p).markets.get book =
    { s.markets.get book with maxExecId := (s.markets.get book).maxExecId + 2 } := by
  simp [iterate, Serv.lazyPosn, Serv.allocExecId, MarketBook.allocExecId]
  omega

theorem iterate_hasPosn : ((s.iterate book p).traders.get (s.heap p).trader).hasPosn
    (s.markets.get book).contr (s.markets.get book).settlDay = true := by
  simp only [iterate, Serv.lazyPosn, modifySess_get_self]
  exact TraderSess.hasPosn_lazyPosn _ _ _

end Serv

theorem buildMatches_iterate (s : Serv) (book : Mnem) (p : OrderPtr) (taker : Order) (now : Int)
    (sums : Sums) (fs : List (OrderPtr × Int)) :
    buildMatches s.heap ((s.iterate book p).markets.get book) taker now
        ((s.iterate book p).markets.get book).maxExecId sums fs =
      buildMatches s.heap (s.markets.get book) taker now ((s.markets.get book).maxExecId + 2)
        sums fs := by
  have hid : ((s.iterate book p).markets.get book).maxExecId =
      (s.markets.get book).maxExecId + 2 := by rw [s.iterate_book]
  rw [hid]
  exact buildMatches_congr (by rw [s.iterate_book]) (by rw [s.iterate_book]) (fun _ _ => rfl)
    taker now _ sums

/-- An iteration that got its position changes nothing for the positions needed later. -/
theorem PosnOk.iterate {s : Serv} {book : Mnem} {p : OrderPtr} {trader : Mnem}
    (hp : PosnOk env s (s.heap p).trader (s.markets.get book).contr (s.markets.get book).settlDay) :
    PosnOk env (s.iterate book p) trader (s.markets.get book).contr (s.markets.get book).settlDay ↔
      PosnOk env s trader (s.markets.get book).contr (s.markets.get book).settlDay := by
  unfold PosnOk at hp ⊢
  by_cases ht : trader = (s.heap p).trader
  · subst ht
    exact iff_of_true (Or.inl (s.iterate_hasPosn book p)) hp
  · have hsame : (s.iterate book p).traders.get trader = s.traders.get trader :=
      Serv.modifySess_get_of_ne ht
    rw [hsame]

theorem newMatch_wp {i : Nat} {book : Mnem} {taker p : OrderPtr} {lots now : Int} {sums : Sums}
    {Q : Match → Ctx → Prop}
    (hok : PosnOk env c.serv (c.serv.heap p).trader (c.serv.markets.get book).contr
        (c.serv.markets.get book).settlDay → env.alloc (.makerTrade i) = true →
      env.alloc (.takerTrade i) = true →
      Q (mkMatch (c.serv.markets.get book) (c.serv.heap taker) (c.serv.heap p) p lots sums
          ((c.serv.markets.get book).maxExecId + 1) now)
        { c with serv := c.serv.iterate book p })
    (herr : ∀ s, Ext book c.serv s → s.matchVec = c.serv.matchVec →
      ¬ IterOk env c.serv book i p → E .badAlloc { c with serv := s }) :
    wp (newMatch env i book taker p lots sums.sumLots sums.sumCost now) Q E c := by
  have hbook : ((c.serv.allocExecId book).allocExecId book).markets.get book =
      { c.serv.markets.get book with
        maxExecId := (c.serv.markets.get book).maxExecId + 1 + 1 } := by
    simp [Serv.allocExecId, MarketBook.allocExecId]
  have hid : ((c.serv.allocExecId book).markets.get book).maxExecId =
      (c.serv.markets.get book).maxExecId + 1 := by
    simp [Serv.allocExecId, MarketBook.allocExecId]
  unfold newMatch
  simp only [wp_bind, allocExecId_wp, wp_get, lazyPosn_wp, allocate_wp, wp_pure, hbook, hid]
  refine ⟨fun hp => ⟨fun hm => ⟨fun ht => hok hp hm ht, fun ht => ?_⟩, fun hm => ?_⟩, fun hp => ?_⟩
  · exact herr _ (c.serv.ext_iterate book p) rfl (fun hall => ht hall.2.2.1)
  · exact herr _ (c.serv.ext_iterate book p) rfl (fun hall => hm hall.2.1)
  · exact herr _ (c.serv.ext_allocTwo book) rfl (fun hall => hp hall.1)

/-! ### The loop -/

/-- What a finished loop leaves behind for the fills `fs`, apart from the matches. -/
structure LoopRun (book : Mnem) (s s' : Serv) (fs : List (OrderPtr × Int)) : Prop where
  ext : Ext book s s'
  heap : s'.heap = s.heap
  maxOrderId : (s'.markets.get book).maxOrderId = (s.markets.get book).maxOrderId
  maxExecId : (s'.markets.get book).maxExecId =
    (s.markets.get book).maxExecId + 2 * (fs.length : Int)
  posns : ∀ f ∈ fs, (s'.traders.get (s.heap f.1).trader).hasPosn (s.markets.get book).contr
    (s.markets.get book).settlDay = true

theorem LoopRun.nil (book : Mnem) (s : Serv) : LoopRun book s s [] :=
  ⟨Ext.refl book s, rfl, rfl, by simp, by simp⟩

/-- The first iteration with a failing allocation is the `j`-th from `i`. -/
def FailsFirst (env : Env) (s : Serv) (book : Mnem) (i : Nat) (fs : List (OrderPtr × Int))
    (j : Nat) : Prop :=
  (∀ k < j, ∀ f, fs[k]? = some f → IterOk env s book (i + k) f.1) ∧
    ∃ f, fs[j]? = some f ∧ ¬ IterOk env s book (i + j) f.1

/-- There is only one. -/
theorem FailsFirst.unique {s : Serv} {i : Nat} {m : Mnem} {fs : List (OrderPtr × Int)} {j k : Nat}
    (hj : FailsFirst env s m i fs j) (hk : FailsFirst env s m i fs k) : j = k := by
  obtain ⟨hbefore, f, hf, hno⟩ := hj
  obtain ⟨hbefore', g, hg, hno'⟩ := hk
  rcases lt_trichotomy j k with hlt | heq | hlt
  · exact absurd (hbefore' j hlt f hf) hno
  · exact heq
  · exact absurd (hbefore k hlt g hg) hno'

section Iteration

variable {s s' : Serv} {book : Mnem} {f : OrderPtr × Int} {fs : List (OrderPtr × Int)} {m : Match}

/-- What later iterations need is the same before and after an iteration. -/
theorem IterOk.iterate {i : Nat} (hok : IterOk env s book i f.1) {k : Nat} {q : OrderPtr} :
    IterOk env ((s.iterate book f.1).pushMatch m) book k q ↔ IterOk env s book k q := by
  have hbook : ((s.iterate book f.1).pushMatch m).markets.get book =
      { s.markets.get book with maxExecId := (s.markets.get book).maxExecId + 2 } :=
    s.iterate_book book f.1
  unfold IterOk
  rw [hbook]
  exact and_congr_left' (hok.1.iterate)

theorem LoopRun.cons (hr : LoopRun book ((s.iterate book f.1).pushMatch m) s' fs) :
    LoopRun book s s' (f :: fs) := by
  have hbook : ((s.iterate book f.1).pushMatch m).markets.get book =
      { s.markets.get book with maxExecId := (s.markets.get book).maxExecId + 2 } :=
    s.iterate_book book f.1
  have hposns := hr.posns
  rw [hbook] at hposns
  refine ⟨((s.ext_iterate book f.1).of_matchVec _).trans hr.ext, hr.heap, ?_, ?_, ?_⟩
  · rw [hr.maxOrderId, hbook]
  · rw [hr.maxExecId, hbook, List.length_cons]
    push_cast
    omega
  · intro g hg
    rcases List.mem_cons.mp hg with rfl | hg
    · exact (hr.ext.sess _).hasPosn (s.iterate_hasPosn book g.1)
    · exact hposns g hg

theorem FailsFirst.cons {i j : Nat} (hok : IterOk env s book i f.1)
    (hfail : FailsFirst env ((s.iterate book f.1).pushMatch m) book (i + 1) fs j) :
    FailsFirst env s book i (f :: fs) (j + 1) := by
  obtain ⟨hbefore, g, hg, hno⟩ := hfail
  refine ⟨?_, g, hg, ?_⟩
  · intro k hk g hg
    cases k with
    | zero =>
        obtain rfl : f = g := by simpa using hg
        exact hok
    | succ k =>
        have hk' := hok.iterate.mp (hbefore k (by omega) g hg)
        rwa [show i + (k + 1) = i + 1 + k by omega]
  · rw [show i + (j + 1) = i + 1 + j by omega]
    exact fun h => hno (hok.iterate.mpr h)

end Iteration

/-- A loop that was entered at iteration `i` and ran to its end has made the matches `ms`,
one for each of the fills. -/
structure LoopMade (env : Env) (book : Mnem) (i : Nat) (fs : List (OrderPtr × Int))
    (ms : List Match) (c c' : Ctx) : Prop where
  resp : c'.resp = c.resp
  run : LoopRun book c.serv c'.serv fs
  matchVec : c'.serv.matchVec = c.serv.matchVec ++ ms
  iterOk : ∀ k f, fs[k]? = some f → IterOk env c.serv book (i + k) f.1
  posnOk : ∀ trader, PosnOk env c'.serv trader (c.serv.markets.get book).contr
    (c.serv.markets.get book).settlDay ↔ PosnOk env c.serv trader
      (c.serv.markets.get book).contr (c.serv.markets.get book).settlDay

/-- The outcome of such a loop. -/
structure LoopDone (env : Env) (book : Mnem) (i : Nat) (fs : List (OrderPtr × Int))
    (ms : List Match) (sums : Sums) (c : Ctx) (sums' : Sums) (c' : Ctx) : Prop
    extends LoopMade env book i fs ms c c' where
  sums : sums' = fs.foldl (Sums.fill c.serv.heap) sums

/-- The outcome of a loop that was entered at iteration `i` and ran out of memory. -/
structure LoopFailed (env : Env) (book : Mnem) (i : Nat) (fs : List (OrderPtr × Int))
    (ms : List Match) (c : Ctx) (e : Exn) (c' : Ctx) : Prop where
  exn : e = .badAlloc
  resp : c'.resp = c.resp
  ext : Ext book c.serv c'.serv
  fails : ∃ j, FailsFirst env c.serv book i fs j ∧
    c'.serv.matchVec = c.serv.matchVec ++ ms.take j

theorem LoopMade.nil (env : Env) (book : Mnem) (i : Nat) (c : Ctx) :
    LoopMade env book i [] [] c c :=
  ⟨rfl, LoopRun.nil book c.serv, by simp, by simp, fun _ => Iff.rfl⟩

theorem LoopDone.nil (env : Env) (book : Mnem) (i : Nat) (sums : Sums) (c : Ctx) :
    LoopDone env book i [] [] sums c sums c :=
  ⟨LoopMade.nil env book i c, rfl⟩

section Cons

variable {book : Mnem} {i : Nat} {f : OrderPtr × Int} {fs : List (OrderPtr × Int)} {m : Match}
variable {ms : List Match} {sums sums' : Sums} {c' : Ctx}

theorem LoopMade.cons (hok : IterOk env c.serv book i f.1)
    (hd : LoopMade env book (i + 1) fs ms
      { c with serv := (c.serv.iterate book f.1).pushMatch m } c') :
    LoopMade env book i (f :: fs) (m :: ms) c c' where
  resp := hd.resp
  run := hd.run.cons
  matchVec := by
    rw [hd.matchVec]
    simp [Serv.pushMatch]
  iterOk k g hg := by
    cases k with
    | zero =>
        obtain rfl : f = g := by simpa using hg
        exact hok
    | succ k =>
        rw [show i + (k + 1) = i + 1 + k by omega]
        exact hok.iterate.mp (hd.iterOk k g hg)
  posnOk trader := by
    have hp := hd.posnOk trader
    rw [show ((c.serv.iterate book f.1).pushMatch m).markets.get book =
      { c.serv.markets.get book with maxExecId := (c.serv.markets.get book).maxExecId + 2 } from
      c.serv.iterate_book book f.1] at hp
    exact hp.trans hok.1.iterate

theorem LoopDone.cons (hok : IterOk env c.serv book i f.1)
    (hd : LoopDone env book (i + 1) fs ms (sums.fill c.serv.heap f)
      { c with serv := (c.serv.iterate book f.1).pushMatch m } sums' c') :
    LoopDone env book i (f :: fs) (m :: ms) sums c sums' c' :=
  ⟨hd.toLoopMade.cons hok, hd.sums⟩

theorem LoopFailed.cons (hok : IterOk env c.serv book i f.1) {e : Exn}
    (hf : LoopFailed env book (i + 1) fs ms
      { c with serv := (c.serv.iterate book f.1).pushMatch m } e c') :
    LoopFailed env book i (f :: fs) (m :: ms) c e c' where
  exn := hf.exn
  resp := hf.resp
  ext := ((c.serv.ext_iterate book f.1).of_matchVec _).trans hf.ext
  fails := by
    obtain ⟨j, hfail, hmv⟩ := hf.fails
    refine ⟨j + 1, hfail.cons hok, ?_⟩
    rw [hmv]
    simp [Serv.pushMatch]

/-- The first iteration may fail itself. -/
theorem LoopFailed.head {s : Serv} (hext : Ext book c.serv s)
    (hmv : s.matchVec = c.serv.matchVec) (hno : ¬ IterOk env c.serv book i f.1) :
    LoopFailed env book i (f :: fs) ms c .badAlloc { c with serv := s } :=
  ⟨rfl, rfl, hext, 0, ⟨by simp, f, rfl, hno⟩, by simp [hmv]⟩

end Cons

theorem matchLoop_wp {book : Mnem} {taker : OrderPtr} {direct : Direct} {now : Int}
    (orders : List OrderPtr) (i : Nat) (sums : Sums) (c : Ctx)
    (hd : direct = (c.serv.heap taker).side.direct) {fs : List (OrderPtr × Int)}
    (hfs : fs = fillsOf c.serv.heap (c.serv.heap taker)
      ((c.serv.heap taker).resd - sums.sumLots) orders) {ms : List Match}
    (hms : ms = buildMatches c.serv.heap (c.serv.markets.get book) (c.serv.heap taker) now
      (c.serv.markets.get book).maxExecId sums fs) :
    wp (matchLoop env book taker direct now i orders sums)
      (LoopDone env book i fs ms sums c) (LoopFailed env book i fs ms c) c := by
  induction orders generalizing i sums c fs ms with
  | nil =>
      obtain rfl : fs = [] := hfs
      obtain rfl : ms = [] := hms
      exact LoopDone.nil env book i sums c
  | cons p orders ih =>
      unfold matchLoop
      simp only [wp_bind, wp_get, wp_ite, wp_pure]
      refine ⟨fun hfull => ?_, fun hwant => ⟨fun hspread => ?_, fun hspread => ?_⟩⟩
      · -- The taker is filled.
        obtain rfl : fs = [] := by rw [hfs, ← hfull, sub_self, fillsOf_zero]
        obtain rfl : ms = [] := hms
        exact LoopDone.nil env book i sums c
      · -- The maker is out of reach.
        have hno : ¬ crosses (c.serv.heap taker) (c.serv.heap p) := by
          simpa [crosses, ← hd] using hspread
        obtain rfl : fs = [] := hfs.trans (fillsOf_cons_of_not orders hno)
        obtain rfl : ms = [] := hms
        exact LoopDone.nil env book i sums c
      · have hyes : crosses (c.serv.heap taker) (c.serv.heap p) := by
          simpa [crosses, ← hd] using hspread
        have hne : (c.serv.heap taker).resd - sums.sumLots ≠ 0 := by omega
        rw [fillsOf_cons orders hne hyes] at hfs
        generalize hlots :
          min ((c.serv.heap taker).resd - sums.sumLots) (c.serv.heap p).resd = lots at hfs ⊢
        subst hfs
        rw [buildMatches] at hms
        subst hms
        refine newMatch_wp (fun hp hm ht => ?_) (fun s hext hmv hno => ?_)
        · simp only [wp_bind, allocate_wp, modifyServ_wp]
          refine ⟨?_, ?_⟩
          · intro hpush
            have hok : IterOk env c.serv book i p := ⟨hp, hm, ht, hpush⟩
            refine wp_mono
              (ih (i + 1) (sums.fill c.serv.heap (p, lots))
                { c with serv := (c.serv.iterate book p).pushMatch _ } hd ?_ ?_)
              (fun _ _ h => LoopDone.cons hok h) (fun _ _ h => LoopFailed.cons hok h)
            · rw [sub_sub]; rfl
            · exact (buildMatches_iterate c.serv book p _ _ _ _).symm
          · intro hpush
            exact LoopFailed.head (c.serv.ext_iterate book p) rfl (fun hall => hpush hall.2.2.2)
        · exact LoopFailed.head hext hmv hno

/-! ### The whole of `matchOrders` -/

/-- The taker's trade follows the loop unless no match is there at all. -/
theorem matchOrders_wp {book : Mnem} {p : OrderPtr} {now : Int} {fs : List (OrderPtr × Int)}
    (hfs : fs = fillsOf c.serv.heap (c.serv.heap p) (c.serv.heap p).resd
      ((c.serv.markets.get book).side (c.serv.heap p).side.opposite).orders) {ms : List Match}
    (hms : ms = buildMatches c.serv.heap (c.serv.markets.get book) (c.serv.heap p) now
      (c.serv.markets.get book).maxExecId {} fs) {Q : Unit → Ctx → Prop}
    (hok : ∀ sums c', LoopDone env book 0 fs ms {} c sums c' →
      Q () (if c'.serv.matchVec = [] then c' else
        { c' with serv := c'.serv.tradeTaker p sums now }))
    (herr : ∀ e c', LoopFailed env book 0 fs ms c e c' → E e c') :
    wp (matchOrders env book p now) Q E c := by
  unfold matchOrders matchSide
  simp only [wp_bind, wp_get]
  refine wp_mono (matchLoop_wp _ 0 {} c rfl ?_ hms) (fun sums c' hdone => ?_) herr
  · rw [hfs]; simp
  · have hQ := hok sums c' hdone
    simp only [wp_bind, wp_get, wp_ite, modifyServ_wp, wp_pure]
    refine ⟨?_, ?_⟩
    · intro hne
      rwa [if_neg hne] at hQ
    · intro hempty
      rwa [if_pos (not_not.mp hempty)] at hQ

end Swirly
