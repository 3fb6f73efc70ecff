import Swirly.Lib.KeySet
import Swirly.Elm.Order

/-!
# Swirly.Elm.BookSide

One side of a book as the source keeps it: an ordered set of price levels and
one flat list of orders, kept in step by hand.

The side holds order addresses; the orders themselves live in the heap, which
every operation takes and returns. A level is reached through its key
(`Order.level`). Two places dereference what the representation promises to be
there: the level behind an order's pointer, and the order after the first one of
a level that stays. Both leave the level set alone when it is not.
-/

namespace Swirly

open Lib (Heap KeySet)

/-- `Level`: the aggregate of the orders at one price. -/
structure Level where
  firstOrder : OrderPtr
  key : Int
  ticks : Int
  /-- Must be greater than zero. -/
  resd : Int
  /-- Must be greater than zero. -/
  count : Int
  deriving DecidableEq, Inhabited

namespace Level

/-- `Level::Level`: a level with one order. -/
def ofOrder (p : OrderPtr) (firstOrder : Order) : Level :=
  { firstOrder := p, key := composeKey firstOrder.side firstOrder.ticks,
    ticks := firstOrder.ticks, resd := firstOrder.resd, count := 1 }

/-- `setFirstOrder`: the level's orders begin with another one, when the first of them has left
and others stay. -/
def setFirstOrder (l : Level) (p : OrderPtr) : Level := { l with firstOrder := p }

/-- `reduce`: lots are taken from one of the level's orders, which stays. The count and the first
order stay with it. -/
def reduce (l : Level) (delta : Int) : Level := { l with resd := l.resd - delta }

/-- `addOrder`: one order more and its residual lots. There is no test that the sum fits;
`addOrder64` is the sum that may wrap. -/
def addOrder (l : Level) (order : Order) : Level :=
  { l with resd := l.resd + order.resd, count := l.count + 1 }

/-- `subOrder`: one order less and its residual lots. A level that has none left is still there;
`removeFrom` takes it away. -/
def subOrder (l : Level) (order : Order) : Level :=
  { l with resd := l.resd - order.resd, count := l.count - 1 }

@[simp] theorem setFirstOrder_key (p : OrderPtr) (l : Level) : (l.setFirstOrder p).key = l.key :=
  rfl
@[simp] theorem reduce_key (delta : Int) (l : Level) : (l.reduce delta).key = l.key := rfl
@[simp] theorem addOrder_key (order : Order) (l : Level) : (l.addOrder order).key = l.key := rfl
@[simp] theorem subOrder_key (order : Order) (l : Level) : (l.subOrder order).key = l.key := rfl

end Level

/-- `LevelSet`: the levels of a side, best price first. -/
abbrev LevelSet := KeySet Level.key

/-- `OrderList`: the orders of a side in priority order. -/
abbrev OrderList := List OrderPtr

namespace OrderList

/-- `insertBefore`: insert an order in front of the order `next`. -/
def insertBefore (p next : OrderPtr) : OrderList → OrderList
  | [] => [p]
  | q :: qs => if q = next then p :: q :: qs else q :: insertBefore p next qs

/-- The order an iterator standing at `p` reaches when it is advanced. -/
def next (p : OrderPtr) : OrderList → Option OrderPtr
  | [] => none
  | q :: qs => if q = p then qs.head? else next p qs

end OrderList

/-- `BookSide`: the levels and the orders are two containers, and nothing in the types says that
they agree. That they do is what `BookSide.Rep` is about. -/
@[ext] structure BookSide where
  levels : LevelSet
  orders : OrderList

namespace BookSide

/-- A side with no orders and no levels, as a new market has two of. A pair of empty containers
agrees. -/
def empty : BookSide := ⟨KeySet.empty, []⟩

/-- `insertLevel`: find or create the order's level; the result names the level. -/
def insertLevel (h : Heap Order) (b : BookSide) (order : OrderPtr) :
    Heap Order × BookSide × Int :=
  let key := composeKey (h order).side (h order).ticks
  let levels :=
    match b.levels.find? key with
    | none => b.levels.insert (Level.ofOrder order (h order))
    | some _ => b.levels.modify key (Level.addOrder · (h order)) (Level.addOrder_key _)
  (h.modify order (Order.setLevel · (some key)), { b with levels }, key)

/-- `insertOrder`: the order goes behind the last order of its level, which the next level's first
order gives away, or to the end if there is no next level. -/
def insertOrder (h : Heap Order) (b : BookSide) (order : OrderPtr) : Heap Order × BookSide :=
  let (h, b, it) := b.insertLevel h order
  match b.levels.next it with
  -- Insert order after the level's last order, i.e. before the next level's first order.
  | some level => (h, { b with orders := OrderList.insertBefore order level.firstOrder b.orders })
  | none => (h, { b with orders := b.orders ++ [order] })

/-- The assertions of `insertOrder`. They are compiled out of a release build, and a call that
violates one goes on there; see `Checked` for the build that stops. -/
def InsertAsserts (o : Order) : Prop :=
  o.level = none ∧ o.ticks ≠ 0 ∧ 0 < o.resd ∧ o.exec ≤ o.lots ∧ 0 < o.lots ∧ 0 ≤ o.minLots

/-- `removeOrder` from a given level: the level is reduced, and goes when that was its last order;
otherwise the next order comes first if the first one has left. The order forgets its level. -/
def removeFrom (h : Heap Order) (b : BookSide) (level : Int) (order : OrderPtr) :
    Heap Order × BookSide :=
  let levels :=
    b.levels.modify level (Level.subOrder · (h order)) (Level.subOrder_key _)
  let levels :=
    match levels.find? level with
    | none => levels
    | some l =>
      if l.count = 0 then
        -- Remove level.
        levels.erase level
      else if l.firstOrder = order then
        -- First order at this level is being removed.
        match OrderList.next order b.orders with
        | some q => levels.modify level (Level.setFirstOrder · q) (Level.setFirstOrder_key _)
        | none => levels
      else levels
  -- No longer associated with side.
  (h.modify order (Order.setLevel · none), ⟨levels, b.orders.erase order⟩)

/-- The assertion of `removeFrom`: a level without orders has nothing residual. -/
def RemoveAsserts (h : Heap Order) (b : BookSide) (level : Int) (order : OrderPtr) : Prop :=
  ∀ l, b.levels.find? level = some l →
    (l.subOrder (h order)).count = 0 → (l.subOrder (h order)).resd = 0

/-- `reduceLevel`: reduce a level by `delta` lots of one of its orders. -/
def reduceLevel (h : Heap Order) (b : BookSide) (level : Int) (order : OrderPtr)
    (delta : Int) : Heap Order × BookSide :=
  if delta < (h order).resd then
    -- Reduce level's resd by delta.
    (h, { b with levels := b.levels.modify level (Level.reduce · delta) (Level.reduce_key _) })
  else b.removeFrom h level order

/-- The assertions of `reduceLevel`, with those of the removal it ends in. -/
def ReduceAsserts (h : Heap Order) (b : BookSide) (level : Int) (order : OrderPtr)
    (delta : Int) : Prop :=
  0 ≤ delta ∧ delta ≤ (h order).resd ∧
    (¬ delta < (h order).resd → delta = (h order).resd ∧ RemoveAsserts h b level order)

/-- `removeOrder`: remove an order from the side, if it rests there. -/
def removeOrder (h : Heap Order) (b : BookSide) (order : OrderPtr) : Heap Order × BookSide :=
  match (h order).level with
  | some level => b.removeFrom h level order
  | none => (h, b)

/-- `createOrder`: reset the order to new, and insert it. The service does not use it, its orders
are new when they are inserted. -/
def createOrder (h : Heap Order) (b : BookSide) (order : OrderPtr) (now : Int) :
    Heap Order × BookSide :=
  b.insertOrder (h.modify order (Order.create · now)) order

/-- `reviseOrder`: the level loses what the order's lots are reduced by. An order that rests
nowhere is revised all the same. -/
def reviseOrder (h : Heap Order) (b : BookSide) (order : OrderPtr) (lots : Int) (now : Int) :
    Heap Order × BookSide :=
  let (h, b) :=
    match (h order).level with
    | some level => b.reduceLevel h level order ((h order).lots - lots)
    | none => (h, b)
  (h.modify order (Order.revise · lots now), b)

/-- `cancelOrder`: the order leaves the side, if it rests there, and nothing of it is left to
fill. Cancelling twice does no more than once. -/
def cancelOrder (h : Heap Order) (b : BookSide) (order : OrderPtr) (now : Int) :
    Heap Order × BookSide :=
  let (h, b) := b.removeOrder h order
  (h.modify order (Order.cancel · now), b)

/-- `takeOrder`: reduce the order by a fill; it leaves the side when nothing is left. -/
def takeOrder (h : Heap Order) (b : BookSide) (order : OrderPtr) (lots : Int) (now : Int) :
    Heap Order × BookSide :=
  let (h, b) :=
    match (h order).level with
    | some level => b.reduceLevel h level order lots
    | none => (h, b)
  (h.modify order (fun o => o.tradeLast lots o.ticks now), b)

end BookSide

end Swirly
