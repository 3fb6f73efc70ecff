import Swirly.Fig.MatchOrders
import Swirly.Fig.Books

/-!
# Swirly.Fig.CreateOrder

**Every way a `createOrder` call can end.** The first part says what the call
computes, as functions of the state it starts from: the fills, the matches, the
taker after the trade. The second says which allocations and checks decide how far
the call gets. `createOrder_wp` puts them together: the call commits, or it fails
in one of the six ways of `Failed`.
-/

namespace Swirly

open Lib (Heap Table)
open Lib.Effect

/-! ### What the call computes -/

namespace Serv

/-- The order that the call opens, from its arguments and from the record of its market. It has
the next id of the market. -/
def newOrder (s : Serv) (a : OrderArgs) : Order :=
  Swirly.newOrder (s.traders.get a.sess).mnem (s.markets.get a.book).mnem
    (s.markets.get a.book).contr (s.markets.get a.book).settlDay
    ((s.markets.get a.book).maxOrderId + 1) a.ref a.side a.lots a.ticks a.minLots a.now

/-- The execution that the call opens the order with, the first of its executions in the
journal. -/
def newExec (s : Serv) (a : OrderArgs) : Exec :=
  Swirly.newExec (s.newOrder a) ((s.markets.get a.book).maxExecId + 1) a.now

/-- The resting orders that the call may trade with, in their priority: all of the other side of
the book. -/
def makers (s : Serv) (a : OrderArgs) : OrderList :=
  ((s.markets.get a.book).side a.side.opposite).orders

/-- Those of them that cross. They are a prefix, as the side is sorted by price and the loop stops
at the first that does not cross. -/
def crossing (s : Serv) (a : OrderArgs) : OrderList :=
  (s.makers a).takeWhile (fun p => crosses (s.newOrder a) (s.heap p))

/-- The fills of the call: which makers give up how many lots. Allocations have no part in it; a
loop that fails stops within them. -/
def fills (s : Serv) (a : OrderArgs) : List (OrderPtr × Int) :=
  fillsOf s.heap (s.newOrder a) a.lots (s.makers a)

/-- The running sums after the last fill. -/
def sums (s : Serv) (a : OrderArgs) : Sums := (s.fills a).foldl (Sums.fill s.heap) {}

/-- The matches of the call, one for each fill, as the loop makes them when no allocation
fails. -/
def newMatches (s : Serv) (a : OrderArgs) : List Match :=
  buildMatches s.heap (s.markets.get a.book) (s.newOrder a) a.now
    ((s.markets.get a.book).maxExecId + 1) {} (s.fills a)

/-- The taker's order after matching. A match that an earlier call has left makes it trade as
well, with sums of nothing. -/
def taker (s : Serv) (a : OrderArgs) : Order :=
  if s.matchVec ++ s.newMatches a = [] then s.newOrder a
  else (s.newOrder a).trade (s.sums a).sumLots (s.sums a).sumCost (s.sums a).lastLots
    (s.sums a).lastTicks a.now

/-- The service after the order was opened: an order and an execution id are used up, and the
order is in the heap. -/
def opened (s : Serv) (a : OrderArgs) : Serv :=
  { (s.allocOrderId a.book) with heap := s.heap.alloc (s.newOrder a) }.allocExecId a.book

/-- The service after an incomplete order was placed in its market. -/
def placed (s : Serv) (book : Mnem) (p : OrderPtr) : Serv :=
  if (s.heap p).done then s else s.insertOrder book p

/-- The service after the journal accepted the call's executions, the new one and two for each
match in the vector. -/
def accepted (s : Serv) (exec : Exec) : Serv :=
  { s with journ := s.journ ++ journExecs exec s.matchVec }

/-- The service with the taker's position, if there is a match. -/
def prepared (s : Serv) (a : OrderArgs) : Serv :=
  if s.matchVec = [] then s
  else s.lazyPosn a.sess (s.markets.get a.book).contr (s.markets.get a.book).settlDay

end Serv

/-- The response with the taker's position, if there is a match. -/
def Response.preparedPosn (r : Response) (s : Serv) (a : OrderArgs) : Response :=
  if s.matchVec = [] then r
  else r.setPosn ⟨a.sess, (s.markets.get a.book).contr, (s.markets.get a.book).settlDay⟩

/-- The response, ready for the commit phase: with its book, the position where there is a match,
and the room that was reserved. -/
def Response.prepared (r : Response) (s : Serv) (a : OrderArgs) : Response :=
  (((r.preparedPosn s a).setBook a.book).reserveOrders (1 + s.matchVec.length)).reserveExecs
    (1 + 2 * s.matchVec.length)

/-! ### What decides how far the call gets -/

section Conditions

variable (env : Env) (s : Serv) (a : OrderArgs)

/-- The market has expired: it has an expiry day, and the business day of the call is after it. -/
def Expired : Prop :=
  (s.markets.get a.book).expiryDay ≠ 0 ∧
    (s.markets.get a.book).expiryDay < env.getBusDay a.now

/-- The call's own checks pass. Nothing else is asked of the quantities, so the lots may be
negative if the minimum is. -/
def ChecksOk : Prop := ¬ Expired env s a ∧ ¬ (a.lots = 0 ∨ a.lots < a.minLots)

/-- The new order and its execution can be allocated. Neither depends on what the book looks
like. -/
def OpenOk : Prop := env.alloc .order = true ∧ env.alloc .exec = true

/-- Every iteration of the matching loop can allocate what it needs. -/
def LoopOk : Prop := ∀ i f, (s.fills a)[i]? = some f → IterOk env s a.book i f.1

/-- The order needs no new level, or one can be allocated. -/
def LevelOk : Prop :=
  (s.taker a).done = true ∨
    (((s.markets.get a.book).side a.side).levels.find? (s.newOrder a).key).isNone = false ∨
    env.alloc .level = true

/-- The call gets as far as the journal: its checks pass, and every allocation before the journal
that it attempts succeeds. -/
structure ReachesJourn : Prop where
  checks : ChecksOk env s a
  openOk : OpenOk env
  loop : LoopOk env s a
  level : LevelOk env s a

/-- After the journal: the taker's position and the room in the response can be had. -/
structure PrepOk (resp : Response) : Prop where
  posn : s.matchVec ++ s.newMatches a ≠ [] →
    PosnOk env s a.sess (s.markets.get a.book).contr (s.markets.get a.book).settlDay
  orders : resp.ordersCapacity < 1 + (s.matchVec ++ s.newMatches a).length →
    env.alloc .respOrders = true
  execs : resp.execsCapacity < 1 + 2 * (s.matchVec ++ s.newMatches a).length →
    env.alloc .respExecs = true

end Conditions

/-! ### Opening and matching -/

/-- The service after the order was opened and matched: ids and positions have grown, the taker
has traded, and no maker has changed. -/
structure Matched (s s₁ : Serv) (a : OrderArgs) : Prop where
  ext : Ext a.book s s₁
  heap : s₁.heap = s.heap.alloc (s.taker a)
  maxOrderId : (s₁.markets.get a.book).maxOrderId = (s.markets.get a.book).maxOrderId + 1
  maxExecId : (s₁.markets.get a.book).maxExecId =
    (s.markets.get a.book).maxExecId + 1 + 2 * ((s.fills a).length : Int)
  matchVec : s₁.matchVec = s.matchVec ++ s.newMatches a
  posns : ∀ f ∈ s.fills a, (s₁.traders.get (s.heap f.1).trader).hasPosn
    (s.markets.get a.book).contr (s.markets.get a.book).settlDay = true

section Opened

variable {env : Env} {s : Serv} {a : OrderArgs} {E : Exn → Ctx → Prop} {resp : Response}

theorem Serv.opened_book : (s.opened a).markets.get a.book =
    { s.markets.get a.book with
      maxOrderId := (s.markets.get a.book).maxOrderId + 1
      maxExecId := (s.markets.get a.book).maxExecId + 1 } := by
  simp [Serv.opened, Serv.allocExecId, Serv.allocOrderId, Serv.modifyBook,
    MarketBook.allocExecId, MarketBook.allocOrderId]

theorem Serv.ext_opened (s : Serv) (a : OrderArgs) : Ext a.book s (s.opened a) :=
  ((Ext.allocOrderId a.book s).trans (Ext.alloc a.book _ _)).trans (Ext.allocExecId a.book _)

theorem Serv.opened_taker : (s.opened a).heap s.heap.next = s.newOrder a := s.heap.alloc_self _

theorem openOrder_wp {Q : OrderPtr × Exec → Ctx → Prop}
    (hok : OpenOk env → Q (s.heap.next, s.newExec a) ⟨s.opened a, resp⟩)
    (herr : ∀ s', Ext a.book s s' → s'.matchVec = s.matchVec → ¬ OpenOk env →
      E .badAlloc ⟨s', resp⟩) : wp (openOrder env a) Q E ⟨s, resp⟩ := by
  have hid : (s.allocOrderId a.book).markets.get a.book =
      { s.markets.get a.book with maxOrderId := (s.markets.get a.book).maxOrderId + 1 } := by
    simp [Serv.allocOrderId, MarketBook.allocOrderId]
  unfold openOrder
  simp only [wp_bind, allocOrderId_wp, wp_get, allocate_wp, modifyServ_wp, allocExecId_wp, wp_pure,
    hid]
  refine ⟨fun horder => ⟨fun hexec => hok ⟨horder, hexec⟩, fun hexec => ?_⟩, fun horder => ?_⟩
  · exact herr _ (s.ext_opened a) rfl (fun h => hexec h.2)
  · exact herr _ (Ext.allocOrderId a.book s) rfl (fun h => horder h.1)

/-- Opening the order does not change what it may trade with. -/
theorem IterOk.opened {i : Nat} {p : OrderPtr} (hp : p < s.heap.next) :
    IterOk env (s.opened a) a.book i p ↔ IterOk env s a.book i p := by
  have hheap : (s.opened a).heap p = s.heap p := Heap.alloc_of_lt hp _
  have htraders : (s.opened a).traders = s.traders := rfl
  unfold IterOk PosnOk
  rw [hheap, htraders, Serv.opened_book]

variable (hlt : ∀ p ∈ s.makers a, p < s.heap.next)

include hlt

theorem Serv.mem_fills_lt {f : OrderPtr × Int} (hf : f ∈ s.fills a) : f.1 < s.heap.next :=
  hlt f.1 (mem_orders_of_mem_fillsOf hf)

theorem Serv.opened_heap {f : OrderPtr × Int} (hf : f ∈ s.fills a) :
    (s.opened a).heap f.1 = s.heap f.1 :=
  Heap.alloc_of_lt (Serv.mem_fills_lt hlt hf) _

theorem Serv.opened_fills : fillsOf (s.opened a).heap ((s.opened a).heap s.heap.next)
    ((s.opened a).heap s.heap.next).resd
    (((s.opened a).markets.get a.book).side a.side.opposite).orders = s.fills a := by
  have hside : ((s.opened a).markets.get a.book).side a.side.opposite =
      (s.markets.get a.book).side a.side.opposite := (s.ext_opened a).side a.book _
  rw [Serv.opened_taker, hside]
  exact fillsOf_congr (fun p hp => Heap.alloc_of_lt (hlt p hp) _)

theorem Serv.opened_matches : buildMatches (s.opened a).heap ((s.opened a).markets.get a.book)
    ((s.opened a).heap s.heap.next) a.now ((s.opened a).markets.get a.book).maxExecId {}
    (s.fills a) = s.newMatches a := by
  have hid : ((s.opened a).markets.get a.book).maxExecId =
      (s.markets.get a.book).maxExecId + 1 := by rw [Serv.opened_book]
  rw [Serv.opened_taker, hid]
  exact buildMatches_congr (by rw [Serv.opened_book]) (by rw [Serv.opened_book])
    (fun f hf => Serv.opened_heap hlt hf) _ _ _ _

theorem Serv.opened_sums : (s.fills a).foldl (Sums.fill (s.opened a).heap) {} = s.sums a := by
  unfold Serv.sums
  refine List.foldl_ext _ _ _ ?_
  intro sums f hf
  unfold Sums.fill
  rw [Serv.opened_heap hlt hf]

/-- The state after the loop, with the taker's trade. -/
theorem LoopDone.matched {sums : Sums} {c' : Ctx}
    (hd : LoopDone env a.book 0 (s.fills a) (s.newMatches a) {} ⟨s.opened a, resp⟩ sums c') :
    Matched s (if c'.serv.matchVec = [] then c'.serv
      else c'.serv.tradeTaker s.heap.next sums a.now) a := by
  have hmv : c'.serv.matchVec = s.matchVec ++ s.newMatches a := hd.matchVec
  have hheap : c'.serv.heap = s.heap.alloc (s.newOrder a) := hd.run.heap
  have hsums : sums = s.sums a := hd.sums.trans (Serv.opened_sums hlt)
  have hext : Ext a.book s c'.serv := (s.ext_opened a).trans hd.run.ext
  have hposns : ∀ f ∈ s.fills a, (c'.serv.traders.get (s.heap f.1).trader).hasPosn
      (s.markets.get a.book).contr (s.markets.get a.book).settlDay = true := by
    intro f hf
    have hp := hd.run.posns f hf
    rwa [Serv.opened_heap hlt hf, Serv.opened_book] at hp
  have horder := hd.run.maxOrderId
  have hexec := hd.run.maxExecId
  rw [Serv.opened_book] at horder hexec
  rw [hmv, hsums]
  split
  · next hempty =>
      exact ⟨hext, by rw [hheap, Serv.taker, if_pos hempty], horder, hexec, hmv, hposns⟩
  · next hne =>
      refine ⟨hext.modify le_rfl _, ?_, horder, hexec, hmv, hposns⟩
      rw [Serv.taker, if_neg hne]
      unfold Serv.tradeTaker
      rw [hheap]
      exact Heap.modify_alloc s.heap (s.newOrder a) (Order.trade · (s.sums a).sumLots
        (s.sums a).sumCost (s.sums a).lastLots (s.sums a).lastTicks a.now)

/-- The matching loop, run on the order just opened. -/
theorem matchOrders_opened_wp {Q : Unit → Ctx → Prop}
    (hok : ∀ s₁, Matched s s₁ a → LoopOk env s a →
      (∀ trader, PosnOk env s₁ trader (s.markets.get a.book).contr
        (s.markets.get a.book).settlDay ↔ PosnOk env s trader (s.markets.get a.book).contr
          (s.markets.get a.book).settlDay) → Q () ⟨s₁, resp⟩)
    (herr : ∀ s' j, Ext a.book s s' → FailsFirst env s a.book 0 (s.fills a) j →
      s'.matchVec = s.matchVec ++ (s.newMatches a).take j → E .badAlloc ⟨s', resp⟩) :
    wp (matchOrders env a.book s.heap.next a.now) Q E ⟨s.opened a, resp⟩ := by
  have hside : ((s.opened a).heap s.heap.next).side = a.side := by rw [Serv.opened_taker]; rfl
  have hiter : ∀ {i : Nat} {f : OrderPtr × Int}, f ∈ s.fills a →
      (IterOk env (s.opened a) a.book i f.1 ↔ IterOk env s a.book i f.1) :=
    fun hf => IterOk.opened (Serv.mem_fills_lt hlt hf)
  refine matchOrders_wp ?_ (Serv.opened_matches hlt).symm (fun sums c' hd => ?_) (fun e c' hf => ?_)
  · rw [hside]; exact (Serv.opened_fills hlt).symm
  · have hQ := hok _ (LoopDone.matched hlt hd)
      (fun i f hf => by
        have hi := hd.iterOk i f hf
        rwa [Nat.zero_add, hiter (List.mem_of_getElem? hf)] at hi)
      (fun trader => by
        have hp := hd.posnOk trader
        rw [Serv.opened_book] at hp
        split <;> exact hp)
    rw [show resp = c'.resp from hd.resp.symm] at hQ
    by_cases hempty : c'.serv.matchVec = []
    · rwa [if_pos hempty] at hQ ⊢
    · rwa [if_neg hempty] at hQ ⊢
  · obtain ⟨rfl, hresp, hext, j, ⟨hbefore, f, hf, hno⟩, hmv⟩ := hf
    have hfail : FailsFirst env s a.book 0 (s.fills a) j :=
      ⟨fun k hk g hg => (hiter (List.mem_of_getElem? hg)).mp (hbefore k hk g hg), f, hf,
        fun h => hno ((hiter (List.mem_of_getElem? hf)).mpr h)⟩
    have hE := herr c'.serv j ((s.ext_opened a).trans hext) hfail hmv
    rwa [show resp = c'.resp from hresp.symm] at hE

/-- With the memory for it, an order is opened and matched. -/
theorem matchOrders_opened_ok (hopen : OpenOk env) (hloop : LoopOk env s a) :
    ∃ s₁, openOrder env a ⟨s, resp⟩ = .ok (s.heap.next, s.newExec a) ⟨s.opened a, resp⟩ ∧
      matchOrders env a.book s.heap.next a.now ⟨s.opened a, resp⟩ = .ok () ⟨s₁, resp⟩ ∧
      Matched s s₁ a := by
  have hopened : wp (openOrder env a)
      (fun r c => r = (s.heap.next, s.newExec a) ∧ c = ⟨s.opened a, resp⟩)
      (fun _ _ => False) ⟨s, resp⟩ :=
    openOrder_wp (fun _ => ⟨rfl, rfl⟩) (fun _ _ _ hno => hno hopen)
  have hmatched : wp (matchOrders env a.book s.heap.next a.now)
      (fun _ c => ∃ s₁, c = ⟨s₁, resp⟩ ∧ Matched s s₁ a) (fun _ _ => False)
      ⟨s.opened a, resp⟩ := by
    refine matchOrders_opened_wp hlt (fun s₁ hM _ _ => ⟨s₁, rfl, hM⟩) (fun s' j _ hfail _ => ?_)
    obtain ⟨-, f, hf, hno⟩ := hfail
    exact hno (by simpa using hloop j f hf)
  obtain ⟨_, _, hrun, rfl, rfl⟩ := (wp_cases hopened).resolve_right (fun ⟨_, _, _, hno⟩ => hno)
  obtain ⟨_, _, hrun', s₁, rfl, hM⟩ :=
    (wp_cases hmatched).resolve_right (fun ⟨_, _, _, hno⟩ => hno)
  exact ⟨s₁, hrun, hrun', hM⟩

end Opened

/-! ### The taker -/

section Taker

variable {s : Serv} {a : OrderArgs}

theorem Serv.sums_sumLots (s : Serv) (a : OrderArgs) :
    (s.sums a).sumLots = ((s.fills a).map Prod.snd).sum := by
  rw [Serv.sums, sumLots_foldl, zero_add]

theorem Serv.newMatches_eq_nil : s.newMatches a = [] ↔ s.fills a = [] := by
  rw [← List.length_eq_zero_iff, ← List.length_eq_zero_iff, Serv.newMatches, buildMatches_length]

/-- Each match is of one fill. -/
theorem Serv.newMatches_map (s : Serv) (a : OrderArgs) :
    (s.newMatches a).map (fun m => (m.makerOrder, m.lots)) = s.fills a :=
  buildMatches_map _ _ _ _ _ _ _

theorem Serv.newMatches_makers (s : Serv) (a : OrderArgs) :
    (s.newMatches a).map Match.makerOrder = (s.fills a).map Prod.fst := by
  rw [← s.newMatches_map a, List.map_map]
  rfl

theorem Serv.mem_fills {m : Match} (hm : m ∈ s.newMatches a) :
    (m.makerOrder, m.lots) ∈ s.fills a := by
  rw [← s.newMatches_map a]
  exact List.mem_map_of_mem hm

/-- A trade leaves the constant fields of the taker alone. -/
theorem Serv.taker_proj {β : Type} (π : Order → β)
    (hπ : ∀ (o : Order) lots cost lastLots lastTicks now,
      π (o.trade lots cost lastLots lastTicks now) = π o) :
    π (s.taker a) = π (s.newOrder a) := by
  unfold Serv.taker
  split
  · rfl
  · exact hπ _ _ _ _ _ _

theorem Serv.taker_side : (s.taker a).side = a.side :=
  taker_proj (fun o => o.side) (fun _ _ _ _ _ _ => rfl)

theorem Serv.taker_level : (s.taker a).level = none :=
  taker_proj (fun o => o.level) (fun _ _ _ _ _ _ => rfl)

theorem Serv.taker_key : (s.taker a).key = (s.newOrder a).key :=
  taker_proj Order.key (fun _ _ _ _ _ _ => rfl)

theorem Serv.taker_id : (s.taker a).id = (s.markets.get a.book).maxOrderId + 1 :=
  taker_proj (fun o => o.id) (fun _ _ _ _ _ _ => rfl)

theorem Serv.taker_contr : (s.taker a).contr = (s.markets.get a.book).contr :=
  taker_proj (fun o => o.contr) (fun _ _ _ _ _ _ => rfl)

theorem Serv.taker_settlDay : (s.taker a).settlDay = (s.markets.get a.book).settlDay :=
  taker_proj (fun o => o.settlDay) (fun _ _ _ _ _ _ => rfl)

theorem Serv.taker_market (hm : a.book ∈ s.markets.keys) : (s.taker a).market = a.book :=
  (taker_proj (fun o => o.market) (fun _ _ _ _ _ _ => rfl)).trans (s.markets.key_get a.book hm)

/-- What is left of the taker is what the fills left. -/
theorem Serv.taker_resd : (s.taker a).resd = a.lots - ((s.fills a).map Prod.snd).sum := by
  unfold Serv.taker
  split
  · next hnil =>
      have hfills : s.fills a = [] := newMatches_eq_nil.mp (List.append_eq_nil_iff.mp hnil).2
      rw [hfills, List.map_nil, List.sum_nil, sub_zero]
      rfl
  · rw [← s.sums_sumLots a]
    rfl

end Taker

/-! ### The fills in a book that is in order -/

section Fills

variable {s : Serv} {a : OrderArgs} (hb : BooksOk s) (hm : a.book ∈ s.markets.keys)

include hb hm

theorem BooksOk.makers_lt : ∀ p ∈ s.makers a, p < s.heap.next :=
  fun p hp => ((hb a.book hm a.side.opposite).rests p hp).lt_next

theorem BooksOk.makers_resd_pos : ∀ p ∈ s.makers a, 0 < (s.heap p).resd :=
  fun _ hp => (hb a.book hm a.side.opposite).resd_pos hp

theorem BooksOk.crossing_resd_pos : ∀ p ∈ s.crossing a, 0 < (s.heap p).resd :=
  fun p hp => hb.makers_resd_pos hm p ((List.takeWhile_prefix _).subset hp)

theorem BooksOk.fill_bounds (hlots : 0 ≤ a.lots) :
    ∀ f ∈ s.fills a, 0 < f.2 ∧ f.2 ≤ (s.heap f.1).resd :=
  Lib.Greedy.fill_bounds hlots (hb.crossing_resd_pos hm)

/-- In total, the taker trades its lots, or all there is to trade with. -/
theorem BooksOk.sum_fills (hlots : 0 ≤ a.lots) :
    ((s.fills a).map Prod.snd).sum = min a.lots (sumResd s.heap (s.crossing a)) :=
  Lib.Greedy.fill_sum hlots (hb.crossing_resd_pos hm)

theorem BooksOk.taker_resd_nonneg (hlots : 0 ≤ a.lots) : 0 ≤ (s.taker a).resd := by
  have hsum := hb.sum_fills hm hlots
  rw [Serv.taker_resd]
  omega

end Fills

/-! ### Placing the order, and undoing it -/

section Place

variable {env : Env} {s s₁ : Serv} {a : OrderArgs} {E : Exn → Ctx → Prop} {resp : Response}

theorem placeOrder_wp {book : Mnem} {p : OrderPtr} {Q : Unit → Ctx → Prop}
    (hok : (s.heap p).done = true ∨
        ((((s.markets.get book).side (s.heap p).side).levels.find? (s.heap p).key).isNone = false ∨
          env.alloc .level = true) → Q () ⟨s.placed book p, resp⟩)
    (herr : ¬ ((s.heap p).done = true ∨
        ((((s.markets.get book).side (s.heap p).side).levels.find? (s.heap p).key).isNone = false ∨
          env.alloc .level = true)) → E .badAlloc ⟨s, resp⟩) :
    wp (placeOrder env book p) Q E ⟨s, resp⟩ := by
  unfold placeOrder
  simp only [wp_bind, wp_get, wp_ite, allocate_wp, modifyServ_wp, wp_pure]
  unfold Serv.placed at hok
  cases hdone : (s.heap p).done with
  | true => simpa [hdone] using hok
  | false =>
      simp only [hdone, Bool.false_eq_true, false_or, if_false] at hok herr ⊢
      refine ⟨False.elim, fun _ =>
        ⟨fun hnone => ⟨fun halloc => ?_, fun halloc => ?_⟩, fun hsome => ?_⟩⟩
      · exact hok (Or.inr halloc)
      · exact herr (by simp [hnone, halloc])
      · exact hok (Or.inl (Bool.eq_false_of_not_eq_true hsome))

theorem journOrder_wp {book : Mnem} {p : OrderPtr} {exec : Exec} {Q : Unit → Ctx → Prop}
    (hok : env.journ = true → Q () ⟨s.accepted exec, resp⟩)
    (herr : env.journ = false →
      E .journ ⟨if (s.heap p).done then s else s.removeOrder book p, resp⟩) :
    wp (journOrder env book p exec) Q E ⟨s, resp⟩ := by
  unfold journOrder
  rw [wp_onFailure, wp_ite, modifyServ_wp, wp_throw]
  refine ⟨hok, ?_⟩
  intro hno
  have hE := herr (by simpa using hno)
  split
  · next hdone => rwa [if_pos hdone] at hE
  · next hdone => rwa [if_neg hdone] at hE

/-- What the call needs after the journal, in the state it is in by then. -/
structure PrepOkAt (env : Env) (s : Serv) (a : OrderArgs) (resp : Response) : Prop where
  posn : s.matchVec ≠ [] →
    PosnOk env s a.sess (s.markets.get a.book).contr (s.markets.get a.book).settlDay
  orders : resp.ordersCapacity < 1 + s.matchVec.length → env.alloc .respOrders = true
  execs : resp.execsCapacity < 1 + 2 * s.matchVec.length → env.alloc .respExecs = true

theorem preparePosn_wp {Q : Unit → Ctx → Prop}
    (hok : (s.matchVec ≠ [] →
        PosnOk env s a.sess (s.markets.get a.book).contr (s.markets.get a.book).settlDay) →
      Q () ⟨s.prepared a, resp.preparedPosn s a⟩)
    (herr : ¬ (s.matchVec ≠ [] →
        PosnOk env s a.sess (s.markets.get a.book).contr (s.markets.get a.book).settlDay) →
      E .badAlloc ⟨s, resp⟩) : wp (preparePosn env a) Q E ⟨s, resp⟩ := by
  unfold preparePosn
  unfold Serv.prepared Response.preparedPosn at hok
  simp only [wp_bind, wp_get, wp_ite, lazyPosn_wp, modifyResp_wp, wp_pure]
  refine ⟨fun hne => ⟨fun hp => ?_, fun hp => ?_⟩, fun hempty => ?_⟩
  · rw [if_neg hne, if_neg hne] at hok
    exact hok (fun _ => hp)
  · exact herr (fun h => hp (h hne))
  · rw [if_pos (not_not.mp hempty), if_pos (not_not.mp hempty)] at hok
    exact hok (fun h => absurd h hempty)

theorem reserveOrders_wp {n : Nat} {Q : Unit → Ctx → Prop} :
    wp (reserveOrders env n) Q E ⟨s, resp⟩ ↔
      ((resp.ordersCapacity < n → env.alloc .respOrders = true) →
        Q () ⟨s, resp.reserveOrders n⟩) ∧
      (¬ (resp.ordersCapacity < n → env.alloc .respOrders = true) → E .badAlloc ⟨s, resp⟩) := by
  unfold reserveOrders
  simp only [wp_bind, wp_get, wp_ite, allocate_wp, modifyResp_wp]
  by_cases hn : resp.ordersCapacity < n <;> simp [hn]

theorem reserveExecs_wp {n : Nat} {Q : Unit → Ctx → Prop} :
    wp (reserveExecs env n) Q E ⟨s, resp⟩ ↔
      ((resp.execsCapacity < n → env.alloc .respExecs = true) →
        Q () ⟨s, resp.reserveExecs n⟩) ∧
      (¬ (resp.execsCapacity < n → env.alloc .respExecs = true) → E .badAlloc ⟨s, resp⟩) := by
  unfold reserveExecs
  simp only [wp_bind, wp_get, wp_ite, allocate_wp, modifyResp_wp]
  by_cases hn : resp.execsCapacity < n <;> simp [hn]

@[simp] theorem Serv.prepared_matchVec (s : Serv) (a : OrderArgs) :
    (s.prepared a).matchVec = s.matchVec := by
  unfold Serv.prepared
  split <;> rfl

@[simp] theorem Serv.prepared_journ (s : Serv) (a : OrderArgs) :
    (s.prepared a).journ = s.journ := by
  unfold Serv.prepared
  split <;> rfl

@[simp] theorem Response.prepared_orders (r : Response) (s : Serv) (a : OrderArgs) :
    (r.prepared s a).orders = r.orders := by
  unfold Response.prepared Response.preparedPosn
  split <;> rfl

@[simp] theorem Response.prepared_execs (r : Response) (s : Serv) (a : OrderArgs) :
    (r.prepared s a).execs = r.execs := by
  unfold Response.prepared Response.preparedPosn
  split <;> rfl

@[simp] theorem Response.preparedPosn_ordersCapacity (r : Response) (s : Serv) (a : OrderArgs) :
    (r.preparedPosn s a).ordersCapacity = r.ordersCapacity := by
  unfold Response.preparedPosn
  split <;> rfl

@[simp] theorem Response.preparedPosn_execsCapacity (r : Response) (s : Serv) (a : OrderArgs) :
    (r.preparedPosn s a).execsCapacity = r.execsCapacity := by
  unfold Response.preparedPosn
  split <;> rfl

/-- Everything between the journal and the commit phase. -/
theorem prepare_wp {Q : Unit → Ctx → Prop}
    (hok : PrepOkAt env s a resp → Q () ⟨s.prepared a, resp.prepared s a⟩)
    (herr : ∀ c', ¬ PrepOkAt env s a resp → c'.serv = s ∨ c'.serv = s.prepared a →
      E .badAlloc c') :
    wp (do preparePosn env a; prepareResp env a) Q E ⟨s, resp⟩ := by
  rw [wp_bind]
  refine preparePosn_wp (fun hposn => ?_) (fun hposn => ?_)
  · unfold prepareResp
    simp only [wp_bind, wp_get, modifyResp_wp, reserveOrders_wp, reserveExecs_wp,
      Serv.prepared_matchVec, Response.setBook_ordersCapacity, Response.setBook_execsCapacity,
      Response.reserveOrders_execsCapacity, Response.preparedPosn_ordersCapacity,
      Response.preparedPosn_execsCapacity]
    refine ⟨fun horders => ⟨fun hexecs => hok ⟨hposn, horders, hexecs⟩, fun hexecs => ?_⟩,
      fun horders => ?_⟩
    · exact herr _ (fun h => hexecs h.execs) (Or.inr rfl)
    · exact herr _ (fun h => horders h.orders) (Or.inr rfl)
  · exact herr _ (fun h => hposn h.posn) (Or.inl rfl)

end Place

/-! ### Undoing the market insertion -/

section Undo

variable {s s₁ : Serv} {a : OrderArgs}

theorem Matched.taker (hM : Matched s s₁ a) : s₁.heap s.heap.next = s.taker a := by
  rw [hM.heap]
  exact s.heap.alloc_self _

/-- The taker rests nowhere yet. -/
theorem Matched.not_mem (hM : Matched s s₁ a) (hb : BooksOk s) {m : Mnem}
    (hm : m ∈ s.markets.keys) (sd : Side) :
    s.heap.next ∉ ((s₁.markets.get m).side sd).orders := by
  rw [hM.ext.side]
  intro hmem
  exact lt_irrefl _ ((hb m hm sd).rests _ hmem).lt_next

theorem Matched.levelOk (hM : Matched s s₁ a) {env : Env} : LevelOk env s a ↔
    (s₁.heap s.heap.next).done = true ∨
      ((((s₁.markets.get a.book).side (s₁.heap s.heap.next).side).levels.find?
        (s₁.heap s.heap.next).key).isNone = false ∨ env.alloc .level = true) := by
  rw [hM.taker, Serv.taker_side, Serv.taker_key, hM.ext.side]
  exact Iff.rfl

/-- **The guard around the journal restores the service.** -/
theorem Matched.undo (hM : Matched s s₁ a) (hb : BooksOk s) (hm : a.book ∈ s.markets.keys)
    (hlots : 0 ≤ a.lots) :
    (if ((s₁.placed a.book s.heap.next).heap s.heap.next).done then
      s₁.placed a.book s.heap.next
    else (s₁.placed a.book s.heap.next).removeOrder a.book s.heap.next) = s₁ := by
  have htaker := hM.taker
  unfold Serv.placed
  by_cases hdone : (s₁.heap s.heap.next).done = true
  · simp only [hdone, if_true]
  · have hheap : (s₁.insertOrder a.book s.heap.next).heap = s₁.heap.modify s.heap.next
        (Order.setLevel · (some (s₁.heap s.heap.next).key)) := by
      exact BookSide.insertOrder_heap _ _ _
    have hdone' : ¬ ((s₁.insertOrder a.book s.heap.next).heap s.heap.next).done = true := by
      rw [hheap, Heap.modify_self]
      exact hdone
    rw [if_neg hdone, if_neg hdone']
    have hside : (s₁.heap s.heap.next).side = a.side := by rw [htaker, Serv.taker_side]
    have hs₁ := hb.ext hM.ext a.book (hM.ext.marketKeys ▸ hm) a.side
    obtain ⟨blocks, hr⟩ := hs₁.rep
    rw [← hside] at hr
    refine Serv.removeOrder_insertOrder _ _
      (MarketBook.removeOrder_insertOrder hr (hM.not_mem hb hm _) ?_ ?_)
    · have hnonneg := hb.taker_resd_nonneg hm hlots
      rw [htaker] at hdone ⊢
      have hne : (s.taker a).resd ≠ 0 := by simpa [Order.done] using hdone
      omega
    · rw [htaker, Serv.taker_level]

end Undo

/-! ### The outcome of a call -/

section Outcome

variable (env : Env) (s : Serv) (a : OrderArgs) (resp : Response)

/-- The service when the journal has accepted the call's executions; `s₁` is the
service after matching. -/
def Serv.journaled (s s₁ : Serv) (a : OrderArgs) : Serv :=
  (s₁.placed a.book s.heap.next).accepted (s.newExec a)

/-- The call commits: it has passed every point where it could fail, and ends in the state that
the commit phase makes of the matched service. -/
structure Committed (s₁ : Serv) (c' : Ctx) : Prop where
  reaches : ReachesJourn env s a
  journ : env.journ = true
  prep : PrepOk env s a resp
  matched : Matched s s₁ a
  eq : c' = (Ctx.commitOrder a s.heap.next (s.newExec a)
    ⟨(s.journaled s₁ a).prepared a, resp.prepared (s.journaled s₁ a) a⟩).clearMatches

/-- The ways a call can fail, by the step that throws, with what it leaves in each of them. -/
inductive Failed : Exn → Ctx → Prop
  | expired (h : Expired env s a) :
      Failed (.marketClosed (s.markets.get a.book).contr
        (maybeJdToIso (s.markets.get a.book).settlDay)) ⟨s, resp⟩
  | lots (hopen : ¬ Expired env s a) (h : a.lots = 0 ∨ a.lots < a.minLots) :
      Failed (.invalidLots a.lots) ⟨s, resp⟩
  /-- No memory for the order or its execution. -/
  | opening (s' : Serv) (hchecks : ChecksOk env s a) (h : ¬ OpenOk env) (hext : Ext a.book s s')
      (hmv : s'.matchVec = s.matchVec) : Failed .badAlloc ⟨s', resp⟩
  /-- No memory in iteration `j` of the matching loop. -/
  | matching (s' : Serv) (j : Nat) (hchecks : ChecksOk env s a) (hopen : OpenOk env)
      (h : FailsFirst env s a.book 0 (s.fills a) j) (hext : Ext a.book s s')
      (hmv : s'.matchVec = s.matchVec ++ (s.newMatches a).take j) : Failed .badAlloc ⟨s', resp⟩
  /-- No memory for a new level. -/
  | placing (s' : Serv) (hchecks : ChecksOk env s a) (hopen : OpenOk env)
      (hloop : LoopOk env s a) (h : ¬ LevelOk env s a) (hext : Ext a.book s s')
      (hmv : s'.matchVec = []) : Failed .badAlloc ⟨s', resp⟩
  | journ (s' : Serv) (hreaches : ReachesJourn env s a) (h : env.journ = false)
      (hext : Ext a.book s s') (hmv : s'.matchVec = []) : Failed .journ ⟨s', resp⟩
  /-- No memory after the journal has accepted the executions. -/
  | preparing (s₁ : Serv) (c' : Ctx) (hreaches : ReachesJourn env s a) (hjourn : env.journ = true)
      (h : ¬ PrepOk env s a resp) (hM : Matched s s₁ a)
      (hserv : c'.serv = (s.journaled s₁ a).clearMatches ∨
        c'.serv = ((s.journaled s₁ a).prepared a).clearMatches) : Failed .badAlloc c'

end Outcome

section Placed

variable (s : Serv) (book : Mnem) (p : OrderPtr)

@[simp] theorem Serv.placed_traders : (s.placed book p).traders = s.traders := by
  unfold Serv.placed; split <;> rfl

@[simp] theorem Serv.placed_matchVec : (s.placed book p).matchVec = s.matchVec := by
  unfold Serv.placed; split <;> rfl

@[simp] theorem Serv.placed_journ : (s.placed book p).journ = s.journ := by
  unfold Serv.placed; split <;> rfl

@[simp] theorem Serv.placed_contr :
    ((s.placed book p).markets.get book).contr = (s.markets.get book).contr := by
  unfold Serv.placed
  split
  · rfl
  · exact (Serv.insertOrder_frame book).contr

@[simp] theorem Serv.placed_settlDay :
    ((s.placed book p).markets.get book).settlDay = (s.markets.get book).settlDay := by
  unfold Serv.placed
  split
  · rfl
  · exact (Serv.insertOrder_frame book).settlDay

end Placed

section Outcome

variable {env : Env} {s : Serv} {a : OrderArgs} {resp : Response}

theorem Matched.contr {s₁ : Serv} (hM : Matched s s₁ a) :
    (s₁.markets.get a.book).contr = (s.markets.get a.book).contr := by rw [hM.ext.book]

theorem Matched.settlDay {s₁ : Serv} (hM : Matched s s₁ a) :
    (s₁.markets.get a.book).settlDay = (s.markets.get a.book).settlDay := by rw [hM.ext.book]

/-- What is needed after the journal is known before the call. -/
theorem PrepOk.iff_at {s₁ : Serv} (hM : Matched s s₁ a)
    (hposn : ∀ trader, PosnOk env s₁ trader (s.markets.get a.book).contr
      (s.markets.get a.book).settlDay ↔ PosnOk env s trader (s.markets.get a.book).contr
        (s.markets.get a.book).settlDay) :
    PrepOkAt env (s.journaled s₁ a) a resp ↔ PrepOk env s a resp := by
  have hmv : (s.journaled s₁ a).matchVec = s.matchVec ++ s.newMatches a :=
    (s₁.placed_matchVec _ _).trans hM.matchVec
  have hcontr : ((s.journaled s₁ a).markets.get a.book).contr = (s.markets.get a.book).contr :=
    (s₁.placed_contr _ _).trans hM.contr
  have hday : ((s.journaled s₁ a).markets.get a.book).settlDay =
      (s.markets.get a.book).settlDay := (s₁.placed_settlDay _ _).trans hM.settlDay
  have htraders : (s.journaled s₁ a).traders = s₁.traders := s₁.placed_traders _ _
  have hposn' : PosnOk env (s.journaled s₁ a) a.sess (s.markets.get a.book).contr
      (s.markets.get a.book).settlDay ↔ PosnOk env s a.sess (s.markets.get a.book).contr
        (s.markets.get a.book).settlDay := by
    rw [← hposn a.sess]
    unfold PosnOk
    rw [htraders]
  constructor
  · rintro ⟨h₁, h₂, h₃⟩
    rw [hmv] at h₁ h₂ h₃
    rw [hcontr, hday, hposn'] at h₁
    exact ⟨h₁, h₂, h₃⟩
  · rintro ⟨h₁, h₂, h₃⟩
    refine ⟨?_, ?_, ?_⟩ <;> rw [hmv]
    · rw [hcontr, hday, hposn']; exact h₁
    · exact h₂
    · exact h₃

/-- **Every way a call can end.** -/
theorem createOrder_wp (hb : BooksOk s) (hm : a.book ∈ s.markets.keys) (hlots : 0 ≤ a.lots) :
    wp (createOrder env a) (fun _ c' => ∃ s₁, Committed env s a resp s₁ c') (Failed env s a resp)
      ⟨s, resp⟩ := by
  unfold createOrder checkOrder
  simp only [wp_bind, wp_get, wp_ite, wp_throw, wp_pure]
  refine ⟨fun hexp => Failed.expired hexp,
    fun hopen => ⟨fun hbad => Failed.lots hopen hbad, fun hgood => ?_⟩⟩
  have hchecks : ChecksOk env s a := ⟨hopen, hgood⟩
  refine openOrder_wp (fun hopenOk => ?_)
    (fun s' hext hmv hno => Failed.opening s' hchecks hno hext hmv)
  rw [wp_bind]
  refine matchOrders_opened_wp (hb.makers_lt hm) (fun s₁ hM hloop hposn => ?_)
    (fun s' j hext hfail hmv => Failed.matching s' j hchecks hopenOk hfail hext hmv)
  rw [wp_withFinally, wp_bind]
  refine placeOrder_wp (fun hlevel => ?_) (fun hlevel => ?_)
  · have hreaches : ReachesJourn env s a := ⟨hchecks, hopenOk, hloop, hM.levelOk.mpr hlevel⟩
    rw [wp_bind]
    refine journOrder_wp (fun hyes => ?_) (fun hno => ?_)
    · rw [← bind_assoc, wp_bind]
      refine prepare_wp (fun hprep => ?_) (fun c' hprep hserv => ?_)
      · exact ⟨s₁, hreaches, hyes, (PrepOk.iff_at hM hposn).mp hprep, hM, rfl⟩
      · refine Failed.preparing s₁ _ hreaches hyes
          (fun h => hprep ((PrepOk.iff_at hM hposn).mpr h)) hM ?_
        rcases hserv with hserv | hserv
        · exact Or.inl (congrArg Serv.clearMatches hserv)
        · exact Or.inr (congrArg Serv.clearMatches hserv)
    · rw [hM.undo hb hm hlots]
      exact Failed.journ _ hreaches hno (hM.ext.of_matchVec []) rfl
  · exact Failed.placing _ hchecks hopenOk hloop (fun h => hlevel (hM.levelOk.mp h))
      (hM.ext.of_matchVec []) rfl

/-- A call commits, or it fails. -/
theorem createOrder_cases (env : Env) (resp : Response) (hb : BooksOk s)
    (hm : a.book ∈ s.markets.keys) (hlots : 0 ≤ a.lots) :
    (∃ c' s₁, createOrder env a ⟨s, resp⟩ = .ok () c' ∧ Committed env s a resp s₁ c') ∨
      ∃ e c', createOrder env a ⟨s, resp⟩ = .error e c' ∧ Failed env s a resp e c' := by
  rcases wp_cases (createOrder_wp hb hm hlots) with ⟨⟨⟩, c', hok, s₁, hC⟩ | hfailed
  · exact Or.inl ⟨c', s₁, hok, hC⟩
  · exact Or.inr hfailed

end Outcome

end Swirly
