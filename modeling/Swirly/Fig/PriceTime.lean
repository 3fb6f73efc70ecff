import Swirly.Fig.Load
import Mathlib.Data.List.Sort

/-!
# Swirly.Fig.PriceTime

**Matching is price-time priority.** `PriceTime.allocate` is what the matching is
for: take the resting orders of the opposite side in any order, sort them by price
and then by id, keep those within the taker's limit, and fill them greedily. The
code never sorts. It relies on the order its list is kept in (`SideOk.priority`), so
that the two agree in every state a run reaches, and no book is left crossed.
-/

namespace Swirly

open Lib (Heap)
open Lib.Effect

namespace PriceTime

/-- Among the orders of side `sd`, `o` goes before `o'`: by the better price, and
then by the smaller id. -/
def Prior (sd : Side) (o o' : Order) : Prop :=
  (if sd = .buy then o'.ticks < o.ticks else o.ticks < o'.ticks) ∨
    o.ticks = o'.ticks ∧ o.id < o'.id

/-- The maker's price is at or better than the taker's limit. -/
def Within (takerOrder makerOrder : Order) : Prop :=
  if takerOrder.side = .buy then makerOrder.ticks ≤ takerOrder.ticks
  else takerOrder.ticks ≤ makerOrder.ticks

instance (sd : Side) (o o' : Order) : Decidable (Prior sd o o') := by
  unfold Prior; infer_instance

/-- `q` has no priority over `p`. -/
def mayPrecede (sd : Side) (h : Heap Order) (p q : OrderPtr) : Bool :=
  !decide (Prior sd (h q) (h p))

instance (takerOrder makerOrder : Order) : Decidable (Within takerOrder makerOrder) := by
  unfold Within; infer_instance

/-- The resting orders within the taker's limit, by priority. -/
def queue (h : Heap Order) (taker : Order) (resting : List OrderPtr) : List OrderPtr :=
  (resting.mergeSort (mayPrecede taker.side.opposite h)).filter (fun p => Within taker (h p))

/-- The reference allocation: the taker's lots go to the queue from its head, to each as many as
it has, until none are left. -/
def allocate (h : Heap Order) (taker : Order) (resting : List OrderPtr) :
    List (OrderPtr × Int) :=
  Lib.Greedy.fill (fun p => (h p).resd) taker.lots (queue h taker resting)

/-- The matches `ms` are the allocation of the taker to the orders `resting`, at the
makers' prices. -/
structure Holds (h : Heap Order) (taker : Order) (resting : List OrderPtr) (ms : List Match) :
    Prop where
  eq_allocate : ms.map (fun m => (m.makerOrder, m.lots)) = allocate h taker resting
  lots : ∀ m ∈ ms, 0 < m.lots ∧ m.lots ≤ (h m.makerOrder).resd
  makerTrade : ∀ m ∈ ms, m.makerTrade.lastLots = m.lots ∧
    m.makerTrade.lastTicks = (h m.makerOrder).ticks
  takerTrade : ∀ m ∈ ms, m.takerTrade.lastLots = m.lots ∧
    m.takerTrade.lastTicks = (h m.makerOrder).ticks
  total : (ms.map Match.lots).sum =
    min taker.lots (sumResd h (resting.filter (fun p => Within taker (h p))))
  /-- Only the last match may be partial. -/
  full : ∀ xs m n ys, ms = xs ++ m :: n :: ys → m.lots = (h m.makerOrder).resd
  /-- An order with priority over a filled maker is filled. -/
  priority : ∀ m ∈ ms, ∀ q ∈ resting, Prior taker.side.opposite (h q) (h m.makerOrder) →
    ∃ n ∈ ms, n.makerOrder = q ∧ n.lots = (h q).resd

/-! ### The list of a side is its sorted list -/

theorem prior_iff {sd : Side} {o o' : Order} (ho : o.side = sd) (ho' : o'.side = sd) :
    Prior sd o o' ↔ Before o o' := by
  unfold Prior Before Order.key composeKey
  rw [ho, ho']
  cases sd <;> simp

theorem within_iff (takerOrder makerOrder : Order) :
    Within takerOrder makerOrder ↔ crosses takerOrder makerOrder = true := by
  unfold Within
  cases hside : takerOrder.side with
  | buy => rw [crosses_buy hside, if_pos rfl]
  | sell => rw [crosses_sell hside, if_neg (by decide)]

theorem mayPrecede_iff {sd : Side} {h : Heap Order} {p q : OrderPtr} :
    mayPrecede sd h p q = true ↔ ¬ Prior sd (h q) (h p) := by
  simp [mayPrecede]

theorem mayPrecede_trans (sd : Side) (h : Heap Order) (p q r : OrderPtr)
    (hpq : mayPrecede sd h p q = true) (hqr : mayPrecede sd h q r = true) :
    mayPrecede sd h p r = true := by
  rw [mayPrecede_iff] at hpq hqr ⊢
  unfold Prior at hpq hqr ⊢
  cases sd <;> simp only [if_true, reduceCtorEq, if_false] at hpq hqr ⊢ <;> omega

theorem mayPrecede_total (sd : Side) (h : Heap Order) (p q : OrderPtr) :
    (mayPrecede sd h p q || mayPrecede sd h q p) = true := by
  rw [Bool.or_eq_true, mayPrecede_iff, mayPrecede_iff]
  unfold Prior
  cases sd <;> simp only [if_true, reduceCtorEq, if_false] <;> omega

theorem Prior.asymm {sd : Side} {o o' : Order} (h : Prior sd o o') : ¬ Prior sd o' o := by
  intro h'
  unfold Prior at h h'
  cases sd <;> simp only [if_true, reduceCtorEq, if_false] at h h' <;> omega

/-- **The order of the list is the priority order.** -/
theorem mergeSort_eq {h : Heap Order} {k : MarketBook} {sd : Side} {b : BookSide}
    (hs : SideOk h k sd b) {resting : List OrderPtr} (hperm : resting.Perm b.orders) :
    resting.mergeSort (mayPrecede sd h) = b.orders := by
  have hprior : b.orders.Pairwise (fun p q => Prior sd (h p) (h q)) :=
    hs.priority.imp_of_mem (fun hp hq hpq => (prior_iff (hs.side hp) (hs.side hq)).mpr hpq)
  have hsortperm := (List.mergeSort_perm resting (mayPrecede sd h)).trans hperm
  have hsorted : (resting.mergeSort (mayPrecede sd h)).Pairwise
      (fun p q => mayPrecede sd h p q = true) :=
    List.pairwise_mergeSort (mayPrecede_trans sd h) (mayPrecede_total sd h) resting
  have horders : b.orders.Pairwise (fun p q => mayPrecede sd h p q = true) :=
    hprior.imp (fun hlt => mayPrecede_iff.mpr hlt.asymm)
  -- Of two orders of the side, one has priority.
  have hcomparable : ∀ p ∈ b.orders, ∀ q ∈ b.orders, p ≠ q →
      Prior sd (h p) (h q) ∨ Prior sd (h q) (h p) := by
    have hsymm : Std.Symm (fun p q => Prior sd (h p) (h q) ∨ Prior sd (h q) (h p)) :=
      ⟨fun _ _ hor => hor.symm⟩
    exact (hprior.imp Or.inl).forall
  refine List.Perm.eq_of_pairwise (fun p q hp hq hpq hqp => ?_) hsorted horders hsortperm
  by_contra hne
  rcases hcomparable p (hsortperm.subset hp) q hq hne with hlt | hlt
  · exact mayPrecede_iff.mp hqp hlt
  · exact mayPrecede_iff.mp hpq hlt

/-! ### The matches of a call -/

section Call

variable {s : Serv} {a : OrderArgs}

theorem Within.of_prior {sd : Side} {takerOrder o o' : Order} (hsd : sd = takerOrder.side.opposite)
    (hprior : Prior sd o o') (h : Within takerOrder o') : Within takerOrder o := by
  subst hsd
  unfold Prior at hprior
  unfold Within at h ⊢
  cases hside : takerOrder.side <;>
    simp only [hside, Side.opposite, if_true, reduceCtorEq, if_false] at hprior h ⊢ <;> omega

variable (hb : BooksOk s) (hv : a.Valid s) {resting : List OrderPtr}
  (hperm : resting.Perm (s.makers a))

include hb hv hperm

/-- The queue is the crossing part of the list. -/
theorem queue_eq : queue s.heap (s.newOrder a) resting = s.crossing a := by
  have hsort : resting.mergeSort (mayPrecede a.side.opposite s.heap) = s.makers a :=
    mergeSort_eq (hb a.book hv.book _) hperm
  rw [hb.crossing_eq_filter hv.book, queue, show (s.newOrder a).side = a.side from rfl, hsort]
  refine List.filter_congr ?_
  intro p _
  rw [Bool.eq_iff_iff, decide_eq_true_iff, within_iff]

theorem allocate_eq : allocate s.heap (s.newOrder a) resting = s.fills a := by
  rw [allocate, queue_eq hb hv hperm]
  rfl

theorem sumResd_filter_within :
    sumResd s.heap (resting.filter (fun p => Within (s.newOrder a) (s.heap p))) =
      sumResd s.heap (s.crossing a) := by
  have hqueue := queue_eq hb hv hperm
  have hsort := List.mergeSort_perm resting (mayPrecede (s.newOrder a).side.opposite s.heap)
  rw [← hqueue]
  exact (((hsort.filter _).map (fun p => (s.heap p).resd)).sum_eq).symm

/-- A maker with priority over a filled one is filled whole. -/
theorem fills_priority {f : OrderPtr × Int} (hf : f ∈ s.fills a) {q : OrderPtr} (hq : q ∈ resting)
    (hprior : Prior a.side.opposite (s.heap q) (s.heap f.1)) :
    (q, (s.heap q).resd) ∈ s.fills a := by
  have hs := hb a.book hv.book a.side.opposite
  have hsorted : (s.crossing a).Pairwise (fun p q => Before (s.heap p) (s.heap q)) :=
    hs.priority.sublist (List.takeWhile_sublist _)
  have hmem : ∀ {p}, p ∈ s.crossing a ↔
      p ∈ s.makers a ∧ Within (s.newOrder a) (s.heap p) := by
    intro p
    rw [hb.crossing_eq_filter hv.book, List.mem_filter, within_iff]
  have hpre : (s.fills a).map Prod.fst <+: s.crossing a := Lib.Greedy.fill_prefix _ _ _
  have hfc : f.1 ∈ s.crossing a := hpre.subset (List.mem_map_of_mem hf)
  have hqc : q ∈ s.crossing a :=
    hmem.mpr ⟨hperm.subset hq, Within.of_prior rfl hprior (hmem.mp hfc).2⟩
  have hbefore := (prior_iff (hs.side (hmem.mp hqc).1) (hs.side (hmem.mp hfc).1)).mp hprior
  -- `q` stands before the maker of `f`, so it was filled, and was not the last.
  obtain ⟨xs, ys, hsplit⟩ := List.append_of_mem hf
  obtain ⟨rest, hrest⟩ := hpre
  rw [hsplit, List.map_append, List.map_cons, List.append_assoc, List.cons_append] at hrest
  rw [← hrest] at hqc hsorted
  have hq' : q ∈ xs.map Prod.fst := by
    rcases List.mem_append.mp hqc with hq' | hq'
    · exact hq'
    · exfalso
      have htail := List.pairwise_cons.mp (List.pairwise_append.mp hsorted).2.1
      have hprior' := (prior_iff (hs.side (hmem.mp hfc).1) (hs.side (hperm.subset hq))).mpr
      rcases List.mem_cons.mp hq' with rfl | hq'
      · exact hprior.asymm hprior
      · exact hprior.asymm (hprior' (htail.1 q hq'))
  obtain ⟨g, hg, rfl⟩ := List.mem_map.mp hq'
  have hfull := Lib.Greedy.fill_full_of_before hv.lots.le hsplit g hg
  rw [hsplit, ← hfull]
  exact List.mem_append_left _ hg

/-- **The matches of a call are the reference allocation.** -/
theorem newMatches_holds : Holds s.heap (s.newOrder a) resting (s.newMatches a) := by
  have hmap := s.newMatches_map a
  have hfill : ∀ m ∈ s.newMatches a, (m.makerOrder, m.lots) ∈ s.fills a := fun _ => Serv.mem_fills
  refine ⟨hmap.trans (allocate_eq hb hv hperm).symm, fun m hm => ?_, fun m hm => ?_,
    fun m hm => ?_, ?_, fun xs m n ys hms => ?_, fun m hm q hq hprior => ?_⟩
  · exact hb.fill_bounds hv.book hv.lots.le _ (hfill m hm)
  · obtain ⟨f, -, sums, id, rfl⟩ := mem_buildMatches hm
    exact ⟨rfl, rfl⟩
  · obtain ⟨f, -, sums, id, rfl⟩ := mem_buildMatches hm
    exact ⟨rfl, rfl⟩
  · have hlots : (s.newMatches a).map Match.lots = (s.fills a).map Prod.snd := by
      rw [← hmap, List.map_map]
      rfl
    rw [hlots, sumResd_filter_within hb hv hperm]
    exact hb.sum_fills hv.book hv.lots.le
  · rw [hms, List.map_append] at hmap
    exact Lib.Greedy.fill_full hv.lots.le hmap.symm
  · have hmem := fills_priority hb hv hperm (hfill m hm) hq hprior
    rw [← hmap] at hmem
    obtain ⟨n, hn, heq⟩ := List.mem_map.mp hmem
    exact ⟨n, hn, (Prod.mk.inj heq).1, (Prod.mk.inj heq).2⟩

end Call

end PriceTime

/-! ### In every state that a run reaches -/

variable {s₀ s : Serv}

theorem BooksInv.run (h₀ : s₀.EmptyBooks) (hrun : Run Sound s₀ s) : BooksInv s :=
  hrun.invariant (fun _ _ hi hstep => hi.step hstep) (BooksInv.init h₀)

theorem CallInv.run (h₀ : s₀.EmptyBooks) (hrun : Run NoStrand s₀ s) : CallInv s :=
  hrun.invariant (fun _ _ hi hstep => hi.step hstep) (CallInv.init h₀)

/-- **No book is left crossed.** -/
theorem run_uncrossed (h₀ : s₀.EmptyBooks) (hrun : Run NoAllocFailure s₀ s) {m : Mnem}
    (hm : m ∈ s.markets.keys) {p q : OrderPtr} (hp : p ∈ ((s.markets.get m).side .buy).orders)
    (hq : q ∈ ((s.markets.get m).side .sell).orders) : (s.heap p).ticks < (s.heap q).ticks := by
  have hsound : Run Sound s₀ s := Run.mono (fun _ _ _ _ h => h.sound) hrun
  exact (BooksInv.run h₀ hsound).uncrossed m hm p hp q hq

theorem offer_uncrossed : (Mock.offer.heap 0).ticks < (Mock.offer.heap 2).ticks :=
  run_uncrossed Mock.serv_empty.toEmptyBooks Mock.offer_run (m := Mock.market) (by decide)
    (by decide) (by decide)

/-- **Matching is price-time priority**: a new order, opened in any state that a run
reaches and matched, gets the allocation of its lots to the resting orders of the other
side, whatever order these are listed in. -/
theorem matchOrders_priceTime (h₀ : s₀.EmptyBooks) (hrun : Run NoStrand s₀ s) {env : Env}
    {a : OrderArgs} (hv : a.Valid s) (halloc : ∀ site, env.alloc site = true) (resp : Response)
    {resting : List OrderPtr}
    (hperm : resting.Perm ((s.markets.get a.book).side a.side.opposite).orders) :
    ∃ order exec c₁ c₂, openOrder env a ⟨s, resp⟩ = .ok (order, exec) c₁ ∧
      matchOrders env a.book order a.now c₁ = .ok () c₂ ∧
      PriceTime.Holds s.heap (c₁.serv.heap order) resting c₂.serv.matchVec := by
  have hi := CallInv.run h₀ hrun
  have hloop : LoopOk env s a :=
    fun _ _ _ => ⟨Or.inr (halloc _), halloc _, halloc _, halloc _⟩
  obtain ⟨s₁, hopen, hmatch, hM⟩ :=
    matchOrders_opened_ok (hi.books.makers_lt hv.book) ⟨halloc _, halloc _⟩ hloop
  have hmv : s₁.matchVec = s.newMatches a := by rw [hM.matchVec, hi.matchVec, List.nil_append]
  refine ⟨_, _, _, ⟨s₁, resp⟩, hopen, hmatch, ?_⟩
  rw [hmv, Serv.opened_taker]
  exact PriceTime.newMatches_holds hi.books hv hperm

/-- Two lots for the bid that rests. -/
theorem offer_priceTime : ∃ order exec c₁ c₂,
    openOrder Mock.env (Mock.order Mock.swirly .sell 2 12340) ⟨Mock.offer, {}⟩ =
      .ok (order, exec) c₁ ∧
    matchOrders Mock.env Mock.market order 0 c₁ = .ok () c₂ ∧
    PriceTime.Holds Mock.offer.heap (c₁.serv.heap order) [0] c₂.serv.matchVec :=
  matchOrders_priceTime Mock.serv_empty.toEmptyBooks Mock.offer_noStrand
    (Mock.order_valid (by decide) (by decide) (by decide)) (fun _ => rfl) {}
    (List.Perm.refl _)

end Swirly
