import Swirly.Fig.Machine
import Swirly.Fig.Admit

/-!
# Swirly.Fig.Agree

**The machine agrees with the integers, part by part.** Each part of `createOrder64` is the part
of `createOrder` in a state where the results in it fit: one lemma for each, with what has to fit
as its hypotheses. Books in order (`Sane`) see to what is taken out of a level.
-/

namespace Swirly

open Lib (Heap Table Fits Stays Arith int64)
open Lib.Effect

/-! ### Levels -/

section Levels

variable {s : Serv} {m : Mnem} {sd : Side} {p : OrderPtr}

theorem le_levelLots {h : Heap Order} {ps : List OrderPtr} (hps : ∀ q ∈ ps, 0 ≤ (h q).resd)
    (hp : p ∈ ps) : (h p).resd ≤ levelLots h ps (h p).key := by
  have hle : Lib.tally (fun q => (h q).key = (h p).key) (fun q => (h q).resd) [p] ≤
      levelLots h ps (h p).key :=
    Lib.tally_le_of_subset (List.nodup_singleton p)
      (fun q hq hk => ⟨List.mem_singleton.mp hq ▸ hp, hk, le_rfl⟩) (fun q hq _ => hps q hq)
  simpa using hle

/-- What an order at rest has left can be taken out of its level. -/
theorem Sane.level_sub_fits (hs : Sane s) (hb : BooksOk s) (hm : m ∈ s.markets.keys)
    (hp : p ∈ ((s.markets.get m).side sd).orders) {lots : Int} (hpos : 0 ≤ lots)
    (hle : lots ≤ (s.heap p).resd) {k : Int} (hk : k ∈ (s.heap p).level) {l : Level}
    (hl : ((s.markets.get m).side sd).levels.find? k = some l) : Fits int64 (l.resd - lots) := by
  have hok := hb m hm sd
  obtain ⟨blocks, hr⟩ := hok.rep
  have hlevel := (hr.rests_key hp).level
  obtain rfl := Option.some.inj ((Option.mem_def.mp hk).symm.trans hlevel)
  obtain ⟨hmem, hkey⟩ := Lib.KeySet.mem_of_find? hl
  have hresd := hr.level_resd hmem
  rw [hkey] at hresd
  have hrest := le_levelLots (fun q hq => (hok.resd_pos hq).le) hp
  have hfits := hs.fits m hm sd (s.heap p).key
  exact Lib.fits_int64.mpr ⟨by omega, by omega⟩

end Levels

/-! ### Operations of the service -/

section Ops

variable {w : Arith} (hw : w.Faithful int64) {s : Serv} {m : Mnem} {p : OrderPtr}

include hw

theorem Serv.insertOrder64_eq (hkey : Fits int64 (s.heap p).key)
    (hresd : ∀ l, ((s.markets.get m).side (s.heap p).side).levels.find? (s.heap p).key = some l →
      Fits int64 (l.resd + (s.heap p).resd)) : s.insertOrder64 w m p = s.insertOrder m p := by
  have heq := MarketBook.insertOrder64_eq hw (b := s.markets.get m) hkey hresd
  refine Serv.ext ?_ ?_ rfl rfl rfl
  · exact congrArg Prod.fst heq
  · exact Table.modify_congr (MarketBook.insertOrder64_mnem w s.heap p)
      (MarketBook.insertOrder_mnem s.heap p) (congrArg Prod.snd heq)

theorem Serv.removeOrder64_eq (hresd : ∀ k ∈ (s.heap p).level, ∀ l,
    ((s.markets.get m).side (s.heap p).side).levels.find? k = some l →
      Fits int64 (l.resd - (s.heap p).resd)) : s.removeOrder64 w m p = s.removeOrder m p := by
  have heq := MarketBook.removeOrder64_eq hw (b := s.markets.get m) hresd
  refine Serv.ext ?_ ?_ rfl rfl rfl
  · exact congrArg Prod.fst heq
  · exact Table.modify_congr (MarketBook.removeOrder64_mnem w s.heap p)
      (MarketBook.removeOrder_mnem s.heap p) (congrArg Prod.snd heq)

theorem Serv.takeOrder64_eq {lots : Int} (now : Int) (hfill : (s.heap p).FillFits lots)
    (hresd : ∀ k ∈ (s.heap p).level, ∀ l,
      ((s.markets.get m).side (s.heap p).side).levels.find? k = some l →
        Fits int64 (l.resd - min lots (s.heap p).resd)) :
    s.takeOrder64 w m p lots now = s.takeOrder m p lots now := by
  have heq := MarketBook.takeOrder64_eq hw (b := s.markets.get m) now hfill hresd
  refine Serv.ext ?_ ?_ rfl rfl rfl
  · exact congrArg Prod.fst heq
  · exact Table.modify_congr (MarketBook.takeOrder64_mnem w s.heap p lots now)
      (MarketBook.takeOrder_mnem s.heap p lots now) (congrArg Prod.snd heq)

/-- A trade is added to a position that has room for it. -/
theorem Serv.addTrade64_eq {posn : PosnPtr} {t : Exec}
    (hcost : Fits int64 (cost t.lastLots t.lastTicks))
    (h : ∀ q, (s.traders.get posn.trader).posns.find? posn.key = some q →
      (q.addTrade t).InRange) : s.addTrade64 w posn t = s.addTrade posn t := by
  refine Serv.ext rfl rfl (Table.modify_congr (TraderSess.addTrade64_mnem w posn.key t)
    (TraderSess.addTrade_mnem posn.key t) ?_) rfl rfl
  unfold TraderSess.addTrade64 TraderSess.addTrade
  rw [Lib.KeySet.modify_congr (fun q hq => Posn.addTrade64_eq hw hcost (h q hq))]

/-- A fill out of a book in order. -/
theorem Sane.takeOrder64_eq (hs : Sane s) (hb : BooksOk s) (hm : m ∈ s.markets.keys) {sd : Side}
    (hp : p ∈ ((s.markets.get m).side sd).orders) {lots : Int} (now : Int) (hpos : 0 ≤ lots)
    (hle : lots ≤ (s.heap p).resd) (hfill : (s.heap p).FillFits lots) :
    s.takeOrder64 w m p lots now = s.takeOrder m p lots now := by
  refine Serv.takeOrder64_eq hw now hfill (fun k hk l hl => ?_)
  rw [(hb m hm sd).side hp] at hl
  rw [min_eq_left hle]
  exact hs.level_sub_fits hb hm hp hpos hle hk hl

end Ops

theorem modifyServ_eq {f g : Serv → Serv} {c : Ctx} (h : f c.serv = g c.serv) :
    modifyServ f c = modifyServ g c := by
  show EStateM.Result.ok () { c with serv := f c.serv } = _
  rw [h]
  rfl

/-! ### Matching -/

/-- The cost of a fill. -/
def fillCost (h : Heap Order) (f : OrderPtr × Int) : Int := cost f.2 (h f.1).ticks

/-- The prices and costs in a matching loop that is about to look at `orders`: the taker
wants `want` lots, and the fills so far cost `sumCost`. -/
structure LoopFits (h : Heap Order) (taker : Order) (want sumCost : Int)
    (orders : List OrderPtr) : Prop where
  /-- Prices are compared by their difference. -/
  spreads : ∀ p ∈ seenOf h taker want orders, Fits int64 (spread taker (h p) taker.side.direct)
  costs : ∀ f ∈ fillsOf h taker want orders, Fits int64 (fillCost h f)
  /-- What the maker has traded for in all. -/
  totals : ∀ f ∈ fillsOf h taker want orders, Fits int64 ((h f.1).cost + fillCost h f)
  sums : Stays int64 sumCost ((fillsOf h taker want orders).map (fillCost h))

namespace LoopFits

variable {h : Heap Order} {taker : Order} {want sumCost : Int} {p : OrderPtr}
variable {orders : List OrderPtr}

theorem spread (hf : LoopFits h taker want sumCost (p :: orders)) (hne : want ≠ 0) :
    Fits int64 (Swirly.spread taker (h p) taker.side.direct) := by
  refine hf.spreads p ?_
  unfold seenOf
  rw [if_neg hne]
  split <;> exact List.mem_cons_self

theorem head (hf : LoopFits h taker want sumCost (p :: orders)) (hne : want ≠ 0)
    (hyes : crosses taker (h p) = true) :
    Fits int64 (fillCost h (p, min want (h p).resd)) ∧
      Fits int64 ((h p).cost + fillCost h (p, min want (h p).resd)) ∧
      Fits int64 (sumCost + fillCost h (p, min want (h p).resd)) := by
  obtain ⟨-, hcosts, htotals, hsums⟩ := hf
  rw [fillsOf_cons orders hne hyes] at hcosts htotals hsums
  exact ⟨hcosts _ List.mem_cons_self, htotals _ List.mem_cons_self, hsums.2.fits⟩

theorem tail (hf : LoopFits h taker want sumCost (p :: orders)) (hne : want ≠ 0)
    (hyes : crosses taker (h p) = true) :
    LoopFits h taker (want - min want (h p).resd)
      (sumCost + fillCost h (p, min want (h p).resd)) orders := by
  obtain ⟨hspreads, hcosts, htotals, hsums⟩ := hf
  rw [fillsOf_cons orders hne hyes] at hcosts htotals hsums
  unfold seenOf at hspreads
  rw [if_neg hne, if_pos hyes] at hspreads
  exact ⟨fun q hq => hspreads q (List.mem_cons_of_mem p hq),
    fun f hf => hcosts f (List.mem_cons_of_mem _ hf),
    fun f hf => htotals f (List.mem_cons_of_mem _ hf), hsums.2⟩

/-- Only the orders that the loop may look at matter. -/
theorem congr {h' : Heap Order} (hf : LoopFits h taker want sumCost orders)
    (hh : ∀ p ∈ orders, h' p = h p) : LoopFits h' taker want sumCost orders := by
  obtain ⟨hspreads, hcosts, htotals, hsums⟩ := hf
  have hcost : ∀ f ∈ fillsOf h taker want orders, fillCost h' f = fillCost h f := by
    intro f hf
    unfold fillCost
    rw [hh f.1 (mem_orders_of_mem_fillsOf hf)]
  refine ⟨fun p hp => ?_, fun f hf => ?_, fun f hf => ?_, ?_⟩
  · rw [seenOf_congr hh] at hp
    rw [hh p (mem_orders_of_mem_seenOf hp)]
    exact hspreads p hp
  · rw [fillsOf_congr hh] at hf
    rw [hcost f hf]
    exact hcosts f hf
  · rw [fillsOf_congr hh] at hf
    rw [hcost f hf, hh f.1 (mem_orders_of_mem_fillsOf hf)]
    exact htotals f hf
  · rw [fillsOf_congr hh, List.map_congr_left hcost]
    exact hsums

end LoopFits

/-- The lots of an order at rest. -/
structure Order.RestLots (o : Order) : Prop where
  resd : 0 < o.resd
  exec : 0 ≤ o.exec
  fits : o.exec + o.resd < 2 ^ 63

/-- A fill of an order at rest, at a price and for lots that fit. -/
theorem Order.RestLots.fillFits {o : Order} {lots : Int} (h : o.RestLots) (hpos : 0 ≤ lots)
    (hle : lots ≤ o.resd) (hcost : Fits int64 (Swirly.cost lots o.ticks))
    (htotal : Fits int64 (o.cost + Swirly.cost lots o.ticks)) : o.FillFits lots := by
  obtain ⟨hresd, hexec, hfits⟩ := h
  exact ⟨hcost, Lib.fits_int64.mpr ⟨by omega, by omega⟩, Lib.fits_int64.mpr ⟨by omega, by omega⟩,
    htotal⟩

/-- The lots and cost of an order that has not traded yet. -/
structure Order.Fresh (o : Order) : Prop where
  resd : 0 ≤ o.resd
  fits : o.resd < 2 ^ 63
  exec : o.exec = 0
  cost : o.cost = 0

/-- It has room for any lots that it still wants. -/
theorem Order.Fresh.lots_fit {o : Order} {lots : Int} (h : o.Fresh) (hnonneg : 0 ≤ lots)
    (hle : lots ≤ o.resd) :
    Fits int64 lots ∧ Fits int64 (o.resd - lots) ∧ Fits int64 (o.exec + lots) := by
  obtain ⟨-, hfits, hexec, -⟩ := h
  rw [hexec, zero_add]
  exact ⟨Lib.fits_int64.mpr ⟨by omega, by omega⟩, Lib.fits_int64.mpr ⟨by omega, by omega⟩,
    Lib.fits_int64.mpr ⟨by omega, by omega⟩⟩

theorem sumCost_foldl (h : Heap Order) (fs : List (OrderPtr × Int)) (sums : Sums) :
    (fs.foldl (Sums.fill h) sums).sumCost = sums.sumCost + (fs.map (fillCost h)).sum :=
  Sums.foldl_fill Sums.sumCost (fillCost h) (fun _ _ => rfl) fs sums

theorem fillsOf_sum_bounds {h : Heap Order} {taker : Order} {want : Int} {orders : List OrderPtr}
    (hwant : 0 ≤ want) (hpos : ∀ p ∈ orders, 0 < (h p).resd) :
    0 ≤ ((fillsOf h taker want orders).map Prod.snd).sum ∧
      ((fillsOf h taker want orders).map Prod.snd).sum ≤ want := by
  have hpos' : ∀ p ∈ orders.takeWhile (fun p => crosses taker (h p)), 0 < (h p).resd :=
    fun p hp => hpos p ((List.takeWhile_prefix _).subset hp)
  have hsum : ((fillsOf h taker want orders).map Prod.snd).sum =
      min want (sumResd h (orders.takeWhile (fun p => crosses taker (h p)))) :=
    Lib.Greedy.fill_sum hwant hpos'
  have hnonneg : 0 ≤ sumResd h (orders.takeWhile (fun p => crosses taker (h p))) :=
    List.sum_nonneg (fun x hx => by
      obtain ⟨p, hp, rfl⟩ := List.mem_map.mp hx
      exact (hpos' p hp).le)
  omega

section Matching

variable {w : Arith} (hw : w.Faithful int64) {env : Env} {c : Ctx} {book : Mnem}
variable {takerOrder p : OrderPtr} {i : Nat} {now : Int}

include hw

theorem Sums.add64_eq {sums : Sums} {lots ticks : Int} (hlots : Fits int64 (sums.sumLots + lots))
    (hcost : Fits int64 (cost lots ticks)) (hsum : Fits int64 (sums.sumCost + cost lots ticks)) :
    sums.add64 w lots ticks = sums.add lots ticks := by
  unfold add64 add
  rw [cost64_eq hw hcost, hw _ hlots, hw _ hsum]

theorem newMatch64_eq {lots sumLots sumCost : Int}
    (hmaker : (c.serv.heap p).FillFits lots)
    (hresd : Fits int64 ((c.serv.heap takerOrder).resd - sumLots))
    (hexec : Fits int64 ((c.serv.heap takerOrder).exec + sumLots))
    (hcost : Fits int64 ((c.serv.heap takerOrder).cost + sumCost)) :
    newMatch64 w env i book takerOrder p lots sumLots sumCost now c =
      newMatch env i book takerOrder p lots sumLots sumCost now c := by
  have hmakerTrade : ∀ makerId takerId cpty,
      (newExec (c.serv.heap p) makerId now).tradeLast64 w lots (c.serv.heap p).ticks takerId
          .maker cpty =
        (newExec (c.serv.heap p) makerId now).tradeLast lots (c.serv.heap p).ticks takerId
          .maker cpty := by
    intro makerId takerId cpty
    unfold Exec.tradeLast64 Exec.tradeLast
    rw [cost64_eq hw hmaker.cost]
    exact Exec.trade64_eq hw _ _ _ _ _ hmaker.resd hmaker.exec hmaker.total
  have htakerTrade : ∀ makerId takerId ticks cpty,
      (newExec (c.serv.heap takerOrder) takerId now).trade64 w sumLots sumCost lots ticks makerId
          .taker cpty =
        (newExec (c.serv.heap takerOrder) takerId now).trade sumLots sumCost lots ticks makerId
          .taker cpty :=
    fun makerId takerId ticks cpty => Exec.trade64_eq hw _ _ _ _ _ hresd hexec hcost
  unfold newMatch64 newMatch
  refine bind_eq rfl (allocExecId_wp.mpr ?_)
  refine bind_eq rfl (allocExecId_wp.mpr ?_)
  refine bind_eq rfl (wp_get.mpr ?_)
  refine bind_eq rfl (lazyPosn_wp.mpr ⟨fun _ => ?_, fun _ => trivial⟩)
  refine bind_eq rfl (allocate_wp.mpr ⟨fun _ => ?_, fun _ => trivial⟩)
  refine bind_eq rfl (allocate_wp.mpr ⟨fun _ => ?_, fun _ => trivial⟩)
  have hheap : ((c.serv.allocExecId book).allocExecId book).heap = c.serv.heap := rfl
  simp only [hheap, hmakerTrade, htakerTrade]

/-- **The loop**, by induction on the orders it has not looked at. -/
theorem matchLoop64_eq {direct : Direct} (orders : List OrderPtr) (i : Nat) (sums : Sums) (c : Ctx)
    (hd : direct = (c.serv.heap takerOrder).side.direct)
    (htaker : (c.serv.heap takerOrder).Fresh) (hnonneg : 0 ≤ sums.sumLots)
    (hle : sums.sumLots ≤ (c.serv.heap takerOrder).resd)
    (hrest : ∀ p ∈ orders, (c.serv.heap p).RestLots)
    (hfits : LoopFits c.serv.heap (c.serv.heap takerOrder)
      ((c.serv.heap takerOrder).resd - sums.sumLots) sums.sumCost orders) :
    matchLoop64 w env book takerOrder direct now i orders sums c =
      matchLoop env book takerOrder direct now i orders sums c := by
  induction orders generalizing i sums c with
  | nil => rfl
  | cons p orders ih =>
      unfold matchLoop64 matchLoop
      refine bind_eq rfl (wp_get.mpr ?_)
      by_cases hfull : sums.sumLots = (c.serv.heap takerOrder).resd
      · simp only [hfull, if_true]
      · have hne : (c.serv.heap takerOrder).resd - sums.sumLots ≠ 0 := by omega
        have hspread := hfits.spread hne
        have hwant := (htaker.lots_fit hnonneg hle).2.1
        rw [← hd] at hspread
        simp only [hfull, if_false, spread64_eq, hw _ hspread, hw _ hwant]
        split
        · rfl
        · next hcross =>
            have hyes : crosses (c.serv.heap takerOrder) (c.serv.heap p) = true := by
              simpa [crosses, ← hd] using hcross
            obtain ⟨hcost, htotal, hsum⟩ := hfits.head hne hyes
            have htail := hfits.tail hne hyes
            have hmaker := hrest p List.mem_cons_self
            have hlots : 0 < min ((c.serv.heap takerOrder).resd - sums.sumLots)
                (c.serv.heap p).resd := lt_min (by omega) hmaker.resd
            have hlots' := min_le_left ((c.serv.heap takerOrder).resd - sums.sumLots)
              (c.serv.heap p).resd
            have hlots'' := min_le_right ((c.serv.heap takerOrder).resd - sums.sumLots)
              (c.serv.heap p).resd
            generalize min ((c.serv.heap takerOrder).resd - sums.sumLots) (c.serv.heap p).resd =
              lots at hcost htotal hsum htail hlots hlots' hlots'' ⊢
            -- What the taker has matched after this order.
            have hnonneg' : 0 ≤ sums.sumLots + lots := by omega
            have hle' : sums.sumLots + lots ≤ (c.serv.heap takerOrder).resd := by omega
            obtain ⟨hlotsFit, hresdFit, hexecFit⟩ := htaker.lots_fit hnonneg' hle'
            rw [Sums.add64_eq hw hlotsFit hcost hsum]
            refine bind_eq (newMatch64_eq hw (hmaker.fillFits hlots.le hlots'' hcost htotal)
              hresdFit hexecFit ?_) (newMatch_wp (fun _ _ _ => ?_) (fun _ _ _ _ => trivial))
            · rw [htaker.cost, zero_add]
              exact hsum
            · refine bind_eq rfl (allocate_wp.mpr ⟨fun _ => ?_, fun _ => trivial⟩)
              refine bind_eq rfl (modifyServ_wp.mpr ?_)
              refine ih (i + 1) _ _ hd htaker hnonneg' hle'
                (fun q hq => hrest q (List.mem_cons_of_mem p hq)) ?_
              rw [sub_sub] at htail
              exact htail

/-- The taker's trade of everything matched. -/
theorem Serv.tradeTaker64_eq {s : Serv} {sums : Sums} (htaker : (s.heap p).Fresh)
    (hnonneg : 0 ≤ sums.sumLots) (hle : sums.sumLots ≤ (s.heap p).resd)
    (hcost : Fits int64 sums.sumCost) : s.tradeTaker64 w p sums now = s.tradeTaker p sums now := by
  obtain ⟨-, hresd, hexec⟩ := htaker.lots_fit hnonneg hle
  have htrade : (s.heap p).trade64 w sums.sumLots sums.sumCost sums.lastLots sums.lastTicks now =
      (s.heap p).trade sums.sumLots sums.sumCost sums.lastLots sums.lastTicks now := by
    refine Order.trade64_eq hw _ _ _ hresd hexec ?_
    rw [htaker.cost, zero_add]
    exact hcost
  have hheap : s.heap.modify p
        (Order.trade64 w · sums.sumLots sums.sumCost sums.lastLots sums.lastTicks now) =
      s.heap.modify p (Order.trade · sums.sumLots sums.sumCost sums.lastLots sums.lastTicks now) :=
    Heap.modify_congr htrade
  unfold tradeTaker64 tradeTaker
  rw [hheap]

theorem matchOrders64_eq (htaker : (c.serv.heap p).Fresh)
    (hrest : ∀ q ∈ ((c.serv.markets.get book).side (c.serv.heap p).side.opposite).orders,
      (c.serv.heap q).RestLots)
    (hfits : LoopFits c.serv.heap (c.serv.heap p) (c.serv.heap p).resd 0
      ((c.serv.markets.get book).side (c.serv.heap p).side.opposite).orders) :
    matchOrders64 w env book p now c = matchOrders env book p now c := by
  have hstart : (c.serv.heap p).resd - ({} : Sums).sumLots = (c.serv.heap p).resd := sub_zero _
  have htotals := @fillsOf_sum_bounds c.serv.heap (c.serv.heap p) _ _ htaker.resd
    (fun q hq => (hrest q hq).resd)
  have hcosts := hfits.sums.sum
  generalize hfs : fillsOf c.serv.heap (c.serv.heap p) (c.serv.heap p).resd
    ((c.serv.markets.get book).side (c.serv.heap p).side.opposite).orders = fs at htotals hcosts
  unfold matchOrders64 matchOrders matchSide64 matchSide
  refine bind_eq rfl (wp_get.mpr (bind_eq rfl (wp_get.mpr (bind_eq
    (matchLoop64_eq hw _ 0 {} c rfl htaker le_rfl htaker.resd hrest (by rw [hstart]; exact hfits))
    ?_))))
  refine wp_mono (matchLoop_wp _ 0 {} c rfl
    (show fs = fillsOf c.serv.heap (c.serv.heap p) ((c.serv.heap p).resd - ({} : Sums).sumLots) _
      by rw [hstart, hfs]) rfl)
    (fun sums c' hdone => ?_) (fun _ _ _ => trivial)
  refine bind_eq rfl (wp_get.mpr ?_)
  have hsame : c'.serv.heap p = c.serv.heap p := by rw [hdone.run.heap]
  have hlots : sums.sumLots = (fs.map Prod.snd).sum := by
    rw [hdone.sums, sumLots_foldl, zero_add]
  have hcost : sums.sumCost = (fs.map (fillCost c.serv.heap)).sum := by
    rw [hdone.sums, sumCost_foldl, zero_add]
  have htrade : c'.serv.tradeTaker64 w p sums now = c'.serv.tradeTaker p sums now := by
    refine Serv.tradeTaker64_eq hw (hsame ▸ htaker) ?_ ?_ ?_
    · rw [hlots]; exact htotals.1
    · rw [hlots, hsame]; exact htotals.2
    · rw [hcost, ← zero_add (List.sum _)]; exact hcosts
  split
  · exact modifyServ_eq htrade
  · rfl

end Matching

/-! ### Placing the order -/

section Placing

variable {w : Arith} (hw : w.Faithful int64) {env : Env} {s : Serv} {resp : Response}
variable {book : Mnem} {p : OrderPtr}

include hw

theorem placeOrder64_eq (hkey : (s.heap p).done = false → Fits int64 (s.heap p).key)
    (hresd : (s.heap p).done = false → ∀ l,
      ((s.markets.get book).side (s.heap p).side).levels.find? (s.heap p).key = some l →
        Fits int64 (l.resd + (s.heap p).resd)) :
    placeOrder64 w env book p ⟨s, resp⟩ = placeOrder env book p ⟨s, resp⟩ := by
  unfold placeOrder64 placeOrder
  refine bind_eq rfl (wp_get.mpr ?_)
  dsimp only
  cases hdone : (s.heap p).done with
  | true => rfl
  | false =>
      have hinsert := Serv.insertOrder64_eq hw (hkey hdone) (hresd hdone)
      simp only [Bool.false_eq_true, if_false, Order.key64_eq hw (hkey hdone)]
      split
      · refine bind_eq rfl (allocate_wp.mpr ⟨fun _ => ?_, fun _ => trivial⟩)
        exact modifyServ_eq hinsert
      · exact modifyServ_eq hinsert

theorem journOrder64_eq {exec : Exec} (hresd : (s.heap p).done = false →
      ∀ k ∈ (s.heap p).level, ∀ l,
        ((s.markets.get book).side (s.heap p).side).levels.find? k = some l →
          Fits int64 (l.resd - (s.heap p).resd)) :
    journOrder64 w env book p exec ⟨s, resp⟩ = journOrder env book p exec ⟨s, resp⟩ := by
  unfold journOrder64 journOrder
  refine onFailure_eq rfl ?_
  rw [wp_ite, modifyServ_wp, wp_throw]
  refine ⟨fun _ => trivial, fun _ => ?_⟩
  dsimp only
  split
  · rfl
  · next hdone =>
      rw [Serv.removeOrder64_eq hw (hresd (Bool.eq_false_of_not_eq_true hdone))]

end Placing

end Swirly
