import Swirly.Lib.Machine
import Swirly.Elm.MarketBook

/-!
# Swirly.Elm.Machine

**Orders, levels and positions as the machine counts them.** The other modules count lots,
prices and costs with integers. Here is the same code with the words it is compiled to: `w` says
what an operation leaves in a word, and stands in front of every operation the source makes on
`Lots`, `Ticks` or `Cost`. Comparisons, and the count of orders in a level, are as they were.

With a faithful `w`, each function is the exact one as long as the results in it fit.
-/

namespace Swirly

open Lib (Heap Fits Arith int64)

variable (w : Arith)

/-- `cost`: a product of two 64-bit numbers. It is what leaves the type first: lots and ticks of
2³² and 2³¹ are enough. -/
def cost64 (lots ticks : Int) : Int := w (lots * ticks)

/-- `composeKey`: the negation of a bid's ticks is the one operation, and wraps for the least of
the numbers alone. -/
def composeKey64 (side : Side) (ticks : Int) : Int := if side = .buy then w (-ticks) else ticks

namespace Order

/-- `key`: that of the level an order belongs to, by the machine's `composeKey`. -/
def key64 (o : Order) : Int := composeKey64 w o.side o.ticks

/-- `trade` of an order, with three results that may wrap: what is left, what is executed, and the
cost so far. -/
def trade64 (o : Order) (takenLots : Int) (takenCost : Int) (lastLots : Int) (lastTicks : Int)
    (now : Int) : Order :=
  { o with
    state := .trade
    resd := w (o.resd - takenLots)
    exec := w (o.exec + takenLots)
    cost := w (o.cost + takenCost)
    lastLots := lastLots
    lastTicks := lastTicks
    modified := now }

/-- `trade` of a single fill, whose cost is a product that may wrap before it is added. -/
def tradeLast64 (o : Order) (lastLots : Int) (lastTicks : Int) (now : Int) : Order :=
  o.trade64 w lastLots (cost64 w lastLots lastTicks) lastLots lastTicks now

end Order

namespace Exec

/-- `trade` of an execution, with the three results of the order's, as they go to the journal. -/
def trade64 (e : Exec) (sumLots : Int) (sumCost : Int) (lastLots : Int) (lastTicks : Int)
    (matchId : Int) (role : Role) (cpty : Mnem) : Exec :=
  { e with
    state := .trade
    resd := w (e.resd - sumLots)
    exec := w (e.exec + sumLots)
    cost := w (e.cost + sumCost)
    lastLots := lastLots
    lastTicks := lastTicks
    matchId := matchId
    role := role
    cpty := cpty }

/-- `trade` of a single fill, for an execution: the product may wrap before it is added. -/
def tradeLast64 (e : Exec) (lastLots : Int) (lastTicks : Int) (matchId : Int) (role : Role)
    (cpty : Mnem) : Exec :=
  e.trade64 w lastLots (cost64 w lastLots lastTicks) lastLots lastTicks matchId role cpty

end Exec

namespace Posn

/-- `addBuy`: two sums over the whole life of a position, either of which may wrap after calls
that are small each. -/
def addBuy64 (q : Posn) (lots : Int) (cost : Int) : Posn :=
  { q with buyLots := w (q.buyLots + lots), buyCost := w (q.buyCost + cost) }

/-- `addSell`: two sums over the whole life of a position, either of which may wrap after calls
that are small each. -/
def addSell64 (q : Posn) (lots : Int) (cost : Int) : Posn :=
  { q with sellLots := w (q.sellLots + lots), sellCost := w (q.sellCost + cost) }

/-- `addTrade`: the product for the last fill, and then one of the two additions. -/
def addTrade64 (q : Posn) (trade : Exec) : Posn :=
  let cost := cost64 w trade.lastLots trade.lastTicks
  if trade.side = .buy then q.addBuy64 w trade.lastLots cost
  else q.addSell64 w trade.lastLots cost

end Posn

namespace Level

/-- `Level::Level`: a level with one order, under the machine's key. Nothing is added yet. -/
def ofOrder64 (p : OrderPtr) (firstOrder : Order) : Level :=
  { firstOrder := p, key := composeKey64 w firstOrder.side firstOrder.ticks,
    ticks := firstOrder.ticks, resd := firstOrder.resd, count := 1 }

/-- `reduce`: lots are taken from the level. The difference wraps where the sum before it did. -/
def reduce64 (l : Level) (delta : Int) : Level := { l with resd := w (l.resd - delta) }

/-- `addOrder`: the level's lots may wrap; the count of its orders is exact, as there is no memory
for so many. -/
def addOrder64 (l : Level) (order : Order) : Level :=
  { l with resd := w (l.resd + order.resd), count := l.count + 1 }

/-- `subOrder`: the level's lots may wrap back; the count of its orders is exact. -/
def subOrder64 (l : Level) (order : Order) : Level :=
  { l with resd := w (l.resd - order.resd), count := l.count - 1 }

@[simp] theorem reduce64_key (delta : Int) (l : Level) : (l.reduce64 w delta).key = l.key := rfl
@[simp] theorem addOrder64_key (order : Order) (l : Level) : (l.addOrder64 w order).key = l.key :=
  rfl
@[simp] theorem subOrder64_key (order : Order) (l : Level) : (l.subOrder64 w order).key = l.key :=
  rfl

end Level

namespace BookSide

/-- `insertLevel`, with the machine's key and sum: a bid at the least of the numbers finds the
level of that key. -/
def insertLevel64 (h : Heap Order) (b : BookSide) (order : OrderPtr) :
    Heap Order × BookSide × Int :=
  let key := composeKey64 w (h order).side (h order).ticks
  let levels :=
    match b.levels.find? key with
    | none => b.levels.insert (Level.ofOrder64 w order (h order))
    | some _ =>
      b.levels.modify key (Level.addOrder64 w · (h order)) (Level.addOrder64_key w _)
  (h.modify order (Order.setLevel · (some key)), { b with levels }, key)

/-- `insertOrder`, the same text over the machine's levels. -/
def insertOrder64 (h : Heap Order) (b : BookSide) (order : OrderPtr) : Heap Order × BookSide :=
  let (h, b, it) := b.insertLevel64 w h order
  match b.levels.next it with
  -- Insert order after the level's last order, i.e. before the next level's first order.
  | some level => (h, { b with orders := OrderList.insertBefore order level.firstOrder b.orders })
  | none => (h, { b with orders := b.orders ++ [order] })

/-- `removeOrder` from a given level, the same text over the machine's levels. -/
def removeFrom64 (h : Heap Order) (b : BookSide) (level : Int) (order : OrderPtr) :
    Heap Order × BookSide :=
  let levels :=
    b.levels.modify level (Level.subOrder64 w · (h order)) (Level.subOrder64_key w _)
  let levels :=
    match levels.find? level with
    | none => levels
    | some l =>
      if l.count = 0 then
        -- Remove level.
        levels.erase level
      else if l.firstOrder = order then
        -- First order at this level is being removed.
        match OrderList.next order b.orders with
        | some q => levels.modify level (Level.setFirstOrder · q) (Level.setFirstOrder_key _)
        | none => levels
      else levels
  -- No longer associated with side.
  (h.modify order (Order.setLevel · none), ⟨levels, b.orders.erase order⟩)

/-- `reduceLevel`: lots are compared as they are, and only what the level loses is computed. -/
def reduceLevel64 (h : Heap Order) (b : BookSide) (level : Int) (order : OrderPtr)
    (delta : Int) : Heap Order × BookSide :=
  if delta < (h order).resd then
    -- Reduce level's resd by delta.
    (h, { b with levels :=
            b.levels.modify level (Level.reduce64 w · delta) (Level.reduce64_key w _) })
  else b.removeFrom64 w h level order

/-- `removeOrder`, the same text over the machine's levels. -/
def removeOrder64 (h : Heap Order) (b : BookSide) (order : OrderPtr) : Heap Order × BookSide :=
  match (h order).level with
  | some level => b.removeFrom64 w h level order
  | none => (h, b)

/-- `takeOrder`, the same text over the machine's levels and the machine's trade. -/
def takeOrder64 (h : Heap Order) (b : BookSide) (order : OrderPtr) (lots : Int) (now : Int) :
    Heap Order × BookSide :=
  let (h, b) :=
    match (h order).level with
    | some level => b.reduceLevel64 w h level order lots
    | none => (h, b)
  (h.modify order (fun o => o.tradeLast64 w lots o.ticks now), b)

end BookSide

namespace MarketBook

/-- `insertOrder`, on the side of the order, with the machine's levels. -/
def insertOrder64 (h : Heap Order) (b : MarketBook) (order : OrderPtr) :
    Heap Order × MarketBook :=
  let (h', s) := (b.side (h order).side).insertOrder64 w h order
  (h', b.setSide (h order).side s)

/-- `removeOrder`, on the side of the order, with the machine's levels. -/
def removeOrder64 (h : Heap Order) (b : MarketBook) (order : OrderPtr) :
    Heap Order × MarketBook :=
  let (h', s) := (b.side (h order).side).removeOrder64 w h order
  (h', b.setSide (h order).side s)

/-- `takeOrder`, on the side of the order; what becomes the last trade of the market is not
computed. -/
def takeOrder64 (h : Heap Order) (b : MarketBook) (order : OrderPtr) (lots now : Int) :
    Heap Order × MarketBook :=
  let (h', s) := (b.side (h order).side).takeOrder64 w h order lots now
  (h', { b.setSide (h order).side s with
    lastLots := lots, lastTicks := (h order).ticks, lastTime := now })

@[simp] theorem insertOrder64_mnem (h : Heap Order) (p : OrderPtr) (b : MarketBook) :
    (b.insertOrder64 w h p).2.mnem = b.mnem := by
  simp [insertOrder64]

@[simp] theorem removeOrder64_mnem (h : Heap Order) (p : OrderPtr) (b : MarketBook) :
    (b.removeOrder64 w h p).2.mnem = b.mnem := by
  simp [removeOrder64]

@[simp] theorem takeOrder64_mnem (h : Heap Order) (p : OrderPtr) (lots now : Int)
    (b : MarketBook) : (b.takeOrder64 w h p lots now).2.mnem = b.mnem := by
  simp [takeOrder64]

end MarketBook

/-! ### Results that fit -/

section Exact

variable {w} (hw : w.Faithful int64)

include hw

theorem cost64_eq {lots ticks : Int} (h : Fits int64 (cost lots ticks)) :
    cost64 w lots ticks = cost lots ticks := hw _ h

theorem composeKey64_eq {side : Side} {ticks : Int} (h : Fits int64 (composeKey side ticks)) :
    composeKey64 w side ticks = composeKey side ticks := by
  cases side with
  | buy => exact hw _ h
  | sell => rfl

theorem Order.key64_eq {o : Order} (h : Fits int64 o.key) : o.key64 w = o.key :=
  composeKey64_eq hw h

theorem Order.trade64_eq {o : Order} {takenLots takenCost : Int} (lastLots lastTicks now : Int)
    (hresd : Fits int64 (o.resd - takenLots)) (hexec : Fits int64 (o.exec + takenLots))
    (hcost : Fits int64 (o.cost + takenCost)) :
    o.trade64 w takenLots takenCost lastLots lastTicks now =
      o.trade takenLots takenCost lastLots lastTicks now := by
  unfold trade64 trade
  rw [hw _ hresd, hw _ hexec, hw _ hcost]

theorem Exec.trade64_eq {e : Exec} {sumLots sumCost : Int} (lastLots lastTicks matchId : Int)
    (role : Role) (cpty : Mnem) (hresd : Fits int64 (e.resd - sumLots))
    (hexec : Fits int64 (e.exec + sumLots)) (hcost : Fits int64 (e.cost + sumCost)) :
    e.trade64 w sumLots sumCost lastLots lastTicks matchId role cpty =
      e.trade sumLots sumCost lastLots lastTicks matchId role cpty := by
  unfold trade64 trade
  rw [hw _ hresd, hw _ hexec, hw _ hcost]

/-- The totals of a position are numbers of the type, as they are before any trade. -/
structure Posn.InRange (q : Posn) : Prop where
  buyLots : Fits int64 q.buyLots
  buyCost : Fits int64 q.buyCost
  sellLots : Fits int64 q.sellLots
  sellCost : Fits int64 q.sellCost

omit hw in
theorem Posn.inRange_iff {q : Posn} : q.InRange ↔ Fits int64 q.buyLots ∧ Fits int64 q.buyCost ∧
    Fits int64 q.sellLots ∧ Fits int64 q.sellCost :=
  ⟨fun h => ⟨h.buyLots, h.buyCost, h.sellLots, h.sellCost⟩,
    fun h => ⟨h.1, h.2.1, h.2.2.1, h.2.2.2⟩⟩

omit hw in
instance Posn.InRange.instDecidable {q : Posn} : Decidable q.InRange :=
  decidable_of_iff _ Posn.inRange_iff.symm

theorem Posn.addBuy64_eq {q : Posn} {lots cost : Int} (h : (q.addBuy lots cost).InRange) :
    q.addBuy64 w lots cost = q.addBuy lots cost := by
  have hlots : w (q.buyLots + lots) = q.buyLots + lots := hw _ h.buyLots
  have hcost : w (q.buyCost + cost) = q.buyCost + cost := hw _ h.buyCost
  simp [addBuy64, addBuy, hlots, hcost]

theorem Posn.addSell64_eq {q : Posn} {lots cost : Int} (h : (q.addSell lots cost).InRange) :
    q.addSell64 w lots cost = q.addSell lots cost := by
  have hlots : w (q.sellLots + lots) = q.sellLots + lots := hw _ h.sellLots
  have hcost : w (q.sellCost + cost) = q.sellCost + cost := hw _ h.sellCost
  simp [addSell64, addSell, hlots, hcost]

theorem Posn.addTrade64_eq {q : Posn} {t : Exec}
    (hcost : Fits int64 (Swirly.cost t.lastLots t.lastTicks)) (h : (q.addTrade t).InRange) :
    q.addTrade64 w t = q.addTrade t := by
  unfold addTrade at h
  unfold addTrade64 addTrade
  rw [cost64_eq hw hcost]
  dsimp only at h ⊢
  split at h
  · next hside => rw [if_pos hside, if_pos hside, addBuy64_eq hw h]
  · next hside => rw [if_neg hside, if_neg hside, addSell64_eq hw h]

/-- What a fill of an order comes to. -/
structure Order.FillFits (o : Order) (lots : Int) : Prop where
  cost : Fits int64 (Swirly.cost lots o.ticks)
  resd : Fits int64 (o.resd - lots)
  exec : Fits int64 (o.exec + lots)
  total : Fits int64 (o.cost + Swirly.cost lots o.ticks)

theorem Order.tradeLast64_eq {o : Order} {lots : Int} (now : Int) (h : o.FillFits lots) :
    o.tradeLast64 w lots o.ticks now = o.tradeLast lots o.ticks now := by
  unfold tradeLast64 tradeLast
  rw [cost64_eq hw h.cost]
  exact Order.trade64_eq hw _ _ _ h.resd h.exec h.total

namespace BookSide

variable {h : Heap Order} {b : BookSide} {p : OrderPtr} {k lots : Int}

theorem insertLevel64_eq (hkey : Fits int64 (h p).key)
    (hresd : ∀ l, b.levels.find? (h p).key = some l → Fits int64 (l.resd + (h p).resd)) :
    b.insertLevel64 w h p = b.insertLevel h p := by
  have hk : composeKey64 w (h p).side (h p).ticks = composeKey (h p).side (h p).ticks :=
    composeKey64_eq hw hkey
  unfold insertLevel64 insertLevel Level.ofOrder64 Level.ofOrder
  rw [hk]
  dsimp only
  cases hfind : b.levels.find? (composeKey (h p).side (h p).ticks) with
  | none => rfl
  | some l =>
      have hadd : ∀ l', b.levels.find? (composeKey (h p).side (h p).ticks) = some l' →
          l'.addOrder64 w (h p) = l'.addOrder (h p) := by
        intro l' hl'
        simp [Level.addOrder64, Level.addOrder, hw _ (hresd l' hl')]
      dsimp only
      rw [Lib.KeySet.modify_congr hadd]

theorem insertOrder64_eq (hkey : Fits int64 (h p).key)
    (hresd : ∀ l, b.levels.find? (h p).key = some l → Fits int64 (l.resd + (h p).resd)) :
    b.insertOrder64 w h p = b.insertOrder h p := by
  have hlevel := insertLevel64_eq hw hkey hresd
  unfold insertOrder64 insertOrder
  exact hlevel ▸ rfl

theorem removeFrom64_eq
    (hresd : ∀ l, b.levels.find? k = some l → Fits int64 (l.resd - (h p).resd)) :
    b.removeFrom64 w h k p = b.removeFrom h k p := by
  have hsub : ∀ l, b.levels.find? k = some l → l.subOrder64 w (h p) = l.subOrder (h p) := by
    intro l hl
    simp [Level.subOrder64, Level.subOrder, hw _ (hresd l hl)]
  have hlevels : b.levels.modify k (Level.subOrder64 w · (h p)) (Level.subOrder64_key w _) =
      b.levels.modify k (Level.subOrder · (h p)) (Level.subOrder_key _) :=
    Lib.KeySet.modify_congr hsub
  unfold removeFrom64 removeFrom
  exact hlevels ▸ rfl

theorem removeOrder64_eq (hresd : ∀ k ∈ (h p).level, ∀ l, b.levels.find? k = some l →
    Fits int64 (l.resd - (h p).resd)) : b.removeOrder64 w h p = b.removeOrder h p := by
  unfold removeOrder64 removeOrder
  cases hlevel : (h p).level with
  | none => rfl
  | some k => exact removeFrom64_eq hw (hresd k hlevel)

theorem reduceLevel64_eq
    (hresd : ∀ l, b.levels.find? k = some l → Fits int64 (l.resd - min lots (h p).resd)) :
    b.reduceLevel64 w h k p lots = b.reduceLevel h k p lots := by
  unfold reduceLevel64 reduceLevel
  split
  · next hlt =>
      rw [min_eq_left hlt.le] at hresd
      have hreduce : ∀ l, b.levels.find? k = some l → l.reduce64 w lots = l.reduce lots := by
        intro l hl
        simp [Level.reduce64, Level.reduce, hw _ (hresd l hl)]
      rw [Lib.KeySet.modify_congr hreduce]
  · next hge =>
      rw [min_eq_right (not_lt.mp hge)] at hresd
      exact removeFrom64_eq hw hresd

theorem takeOrder64_eq (now : Int) (hfill : (h p).FillFits lots)
    (hresd : ∀ k ∈ (h p).level, ∀ l, b.levels.find? k = some l →
      Fits int64 (l.resd - min lots (h p).resd)) :
    b.takeOrder64 w h p lots now = b.takeOrder h p lots now := by
  have htrade : ∀ h' : Heap Order, (h' p).FillFits lots →
      h'.modify p (fun o => o.tradeLast64 w lots o.ticks now) =
        h'.modify p (fun o => o.tradeLast lots o.ticks now) :=
    fun h' hfits => Heap.modify_congr (Order.tradeLast64_eq hw now hfits)
  unfold takeOrder64 takeOrder
  cases hlevel : (h p).level with
  | none => exact congrArg (Prod.mk · b) (htrade h hfill)
  | some k =>
      dsimp only
      rw [reduceLevel64_eq hw (hresd k hlevel)]
      refine congrArg (Prod.mk · _) (htrade _ ?_)
      -- Leaving the level changes nothing that a fill reads.
      rw [reduceLevel_heap, Heap.modify_self]
      split
      · exact hfill
      · exact ⟨hfill.cost, hfill.resd, hfill.exec, hfill.total⟩

end BookSide

namespace MarketBook

variable {h : Heap Order} {b : MarketBook} {p : OrderPtr} {lots : Int}

theorem insertOrder64_eq (hkey : Fits int64 (h p).key)
    (hresd : ∀ l, (b.side (h p).side).levels.find? (h p).key = some l →
      Fits int64 (l.resd + (h p).resd)) : b.insertOrder64 w h p = b.insertOrder h p := by
  unfold insertOrder64 insertOrder
  rw [BookSide.insertOrder64_eq hw hkey hresd]

theorem removeOrder64_eq (hresd : ∀ k ∈ (h p).level, ∀ l,
    (b.side (h p).side).levels.find? k = some l → Fits int64 (l.resd - (h p).resd)) :
    b.removeOrder64 w h p = b.removeOrder h p := by
  unfold removeOrder64 removeOrder
  rw [BookSide.removeOrder64_eq hw hresd]

theorem takeOrder64_eq (now : Int) (hfill : (h p).FillFits lots)
    (hresd : ∀ k ∈ (h p).level, ∀ l, (b.side (h p).side).levels.find? k = some l →
      Fits int64 (l.resd - min lots (h p).resd)) :
    b.takeOrder64 w h p lots now = b.takeOrder h p lots now := by
  unfold takeOrder64 takeOrder
  rw [BookSide.takeOrder64_eq hw now hfill hresd]

end MarketBook

end Exact

/-! ### What two's complement does to prices -/

/-- On the side `sd`, the price `a` is strictly better than `b`. -/
def Side.Better (sd : Side) (a b : Int) : Prop := if sd = .buy then b < a else a < b

/-- **Keys are in the order of the prices**, but for one bid whose negation does not fit. -/
theorem composeKey64_lt_iff {sd : Side} {a b : Int} (ha : Fits int64 a) (hb : Fits int64 b) :
    (composeKey64 (Lib.wrap int64) sd a < composeKey64 (Lib.wrap int64) sd b ↔ sd.Better a b) ↔
      (sd = .buy → (Fits int64 (-a) ↔ Fits int64 (-b))) := by
  cases sd with
  | sell => simp [composeKey64, Side.Better]
  | buy =>
      have hkey : ∀ n, Fits int64 n → composeKey64 (Lib.wrap int64) .buy n =
          if Fits int64 (-n) then -n else n := by
        intro n hn
        show Lib.wrap int64 (-n) = _
        split
        · next hfits => exact Lib.wrap_faithful int64 _ hfits
        · next hno =>
            unfold Fits at hn hno
            rw [Lib.wrap_of_le (by omega) (by omega)]
            omega
      rw [hkey a ha, hkey b hb]
      by_cases hna : Fits int64 (-a) <;> by_cases hnb : Fits int64 (-b) <;>
        simp only [Side.Better, hna, hnb, if_true, if_false, forall_const, iff_true, iff_false,
          not_true] <;>
        unfold Fits at ha hb hna hnb <;> omega

end Swirly
