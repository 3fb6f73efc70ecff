import Swirly.Elm.BookSideRun

/-!
# Swirly.Elm.MarketBook

A market with its two book sides, its last trade and its id counters.
-/

namespace Swirly

open Lib (Heap)

/-- `MarketBook`: the record of a market, which the requests name and show, together with its two
sides and the ids it has given out. The copy of some of it in `view_` is left out, as nothing
reads it. -/
structure MarketBook where
  mnem : Mnem
  display : Display
  contr : Mnem
  settlDay : Int
  expiryDay : Int
  state : Nat
  lastLots : Int
  lastTicks : Int
  lastTime : Int
  bidSide : BookSide
  offerSide : BookSide
  maxOrderId : Int
  maxExecId : Int

namespace MarketBook

/-- `side`: the side of the book that orders of a side rest in. -/
def side (b : MarketBook) (sd : Side) : BookSide :=
  if sd = .buy then b.bidSide else b.offerSide

/-- Replace one side of the book, and leave the other side and the record of the market as they
are. -/
def setSide (b : MarketBook) (sd : Side) (s : BookSide) : MarketBook :=
  if sd = .buy then { b with bidSide := s } else { b with offerSide := s }

/-- `insertOrder`, on the side of the order. The two sides share nothing but the heap, where the
order is given its level. -/
def insertOrder (h : Heap Order) (b : MarketBook) (order : OrderPtr) : Heap Order × MarketBook :=
  let (h', s) := (b.side (h order).side).insertOrder h order
  (h', b.setSide (h order).side s)

/-- `removeOrder`, on the side of the order. An order that rests nowhere leaves everything as it
is. -/
def removeOrder (h : Heap Order) (b : MarketBook) (order : OrderPtr) : Heap Order × MarketBook :=
  let (h', s) := (b.side (h order).side).removeOrder h order
  (h', b.setSide (h order).side s)

/-- `reviseOrder`, on the side of the order. The service's call of that name is a stub, so no
request leads here yet. -/
def reviseOrder (h : Heap Order) (b : MarketBook) (order : OrderPtr) (lots now : Int) :
    Heap Order × MarketBook :=
  let (h', s) := (b.side (h order).side).reviseOrder h order lots now
  (h', b.setSide (h order).side s)

/-- `cancelOrder`, on the side of the order. The service's call of that name is a stub, so no
request leads here yet. -/
def cancelOrder (h : Heap Order) (b : MarketBook) (order : OrderPtr) (now : Int) :
    Heap Order × MarketBook :=
  let (h', s) := (b.side (h order).side).cancelOrder h order now
  (h', b.setSide (h order).side s)

/-- `takeOrder`: fill a resting order and record it as the market's last trade. -/
def takeOrder (h : Heap Order) (b : MarketBook) (order : OrderPtr) (lots now : Int) :
    Heap Order × MarketBook :=
  let (h', s) := (b.side (h order).side).takeOrder h order lots now
  (h', { b.setSide (h order).side s with
    lastLots := lots, lastTicks := (h order).ticks, lastTime := now })

/-- `allocOrderId`: the counter goes on by one, and the id is what it stands at. Ids are never
given back. -/
def allocOrderId (b : MarketBook) : MarketBook := { b with maxOrderId := b.maxOrderId + 1 }

/-- `allocExecId`: the counter goes on by one, and the id is what it stands at. Ids are never
given back. -/
def allocExecId (b : MarketBook) : MarketBook := { b with maxExecId := b.maxExecId + 1 }

/-- `b'` is the market `b`, which may have given out order ids since. -/
structure Grows (b b' : MarketBook) : Prop where
  mnem : b'.mnem = b.mnem
  contr : b'.contr = b.contr
  settlDay : b'.settlDay = b.settlDay
  maxOrderId : b.maxOrderId ≤ b'.maxOrderId

theorem Grows.refl (b : MarketBook) : b.Grows b := ⟨rfl, rfl, rfl, le_rfl⟩

/-- `b'` is the market `b` with other orders in it. -/
structure Frame (b b' : MarketBook) : Prop where
  mnem : b'.mnem = b.mnem
  contr : b'.contr = b.contr
  settlDay : b'.settlDay = b.settlDay
  maxOrderId : b'.maxOrderId = b.maxOrderId
  maxExecId : b'.maxExecId = b.maxExecId

theorem Frame.refl (b : MarketBook) : b.Frame b := ⟨rfl, rfl, rfl, rfl, rfl⟩

theorem Frame.trans {b b' b'' : MarketBook} (h : b.Frame b') (h' : b'.Frame b'') : b.Frame b'' :=
  ⟨h'.mnem.trans h.mnem, h'.contr.trans h.contr, h'.settlDay.trans h.settlDay,
    h'.maxOrderId.trans h.maxOrderId, h'.maxExecId.trans h.maxExecId⟩

theorem Frame.grows {b b' : MarketBook} (h : b.Frame b') : b.Grows b' :=
  ⟨h.mnem, h.contr, h.settlDay, h.maxOrderId.ge⟩

section SetSide

variable (b : MarketBook) (sd : Side) (s : BookSide)

@[simp] theorem setSide_mnem : (b.setSide sd s).mnem = b.mnem := by
  unfold setSide; split <;> rfl

@[simp] theorem setSide_contr : (b.setSide sd s).contr = b.contr := by
  unfold setSide; split <;> rfl

@[simp] theorem setSide_settlDay : (b.setSide sd s).settlDay = b.settlDay := by
  unfold setSide; split <;> rfl

@[simp] theorem setSide_maxOrderId : (b.setSide sd s).maxOrderId = b.maxOrderId := by
  unfold setSide; split <;> rfl

@[simp] theorem setSide_maxExecId : (b.setSide sd s).maxExecId = b.maxExecId := by
  unfold setSide; split <;> rfl

@[simp] theorem setSide_side_self : (b.setSide sd s).side sd = s := by
  cases sd <;> simp [setSide, side]

theorem setSide_side_of_ne {sd' : Side} (hne : sd' ≠ sd) :
    (b.setSide sd s).side sd' = b.side sd' := by
  cases sd <;> cases sd' <;> simp_all [setSide, side]

@[simp] theorem setSide_side_eq : b.setSide sd (b.side sd) = b := by
  cases sd <;> simp [setSide, side]

end SetSide

@[simp] theorem insertOrder_mnem (h : Heap Order) (p : OrderPtr) (b : MarketBook) :
    (b.insertOrder h p).2.mnem = b.mnem := by
  simp [insertOrder]

@[simp] theorem removeOrder_mnem (h : Heap Order) (p : OrderPtr) (b : MarketBook) :
    (b.removeOrder h p).2.mnem = b.mnem := by
  simp [removeOrder]

@[simp] theorem takeOrder_mnem (h : Heap Order) (p : OrderPtr) (lots now : Int) (b : MarketBook) :
    (b.takeOrder h p lots now).2.mnem = b.mnem := by
  simp [takeOrder]

section Sides

variable (h : Heap Order) (b : MarketBook) (p : OrderPtr) (lots now : Int)

theorem insertOrder_heap :
    (b.insertOrder h p).1 = ((b.side (h p).side).insertOrder h p).1 := rfl

theorem takeOrder_heap :
    (b.takeOrder h p lots now).1 = ((b.side (h p).side).takeOrder h p lots now).1 := rfl

/-- An insertion changes one side. -/
theorem insertOrder_side (sd : Side) : (b.insertOrder h p).2.side sd =
    if sd = (h p).side then ((b.side sd).insertOrder h p).2 else b.side sd := by
  split
  · next hsd => rw [hsd]; exact setSide_side_self _ _ _
  · next hsd => exact setSide_side_of_ne _ _ _ hsd

/-- A fill changes one side. -/
theorem takeOrder_side (sd : Side) : (b.takeOrder h p lots now).2.side sd =
    if sd = (h p).side then ((b.side sd).takeOrder h p lots now).2 else b.side sd := by
  split
  · next hsd => rw [hsd]; exact setSide_side_self _ _ _
  · next hsd => exact setSide_side_of_ne _ _ _ hsd

theorem setSide_frame (sd : Side) (s : BookSide) : b.Frame (b.setSide sd s) :=
  ⟨setSide_mnem b sd s, setSide_contr b sd s, setSide_settlDay b sd s, setSide_maxOrderId b sd s,
    setSide_maxExecId b sd s⟩

theorem insertOrder_frame : b.Frame (b.insertOrder h p).2 := setSide_frame b _ _

theorem takeOrder_frame : b.Frame (b.takeOrder h p lots now).2 :=
  have hf := setSide_frame b (h p).side ((b.side (h p).side).takeOrder h p lots now).2
  ⟨hf.mnem, hf.contr, hf.settlDay, hf.maxOrderId, hf.maxExecId⟩

/-- **Inserting and then removing an order is the identity.** -/
theorem removeOrder_insertOrder {h : Heap Order} {b : MarketBook} {p : OrderPtr}
    {blocks : List Block} (hr : Rep (h p).side h (b.side (h p).side) blocks)
    (hp : p ∉ (b.side (h p).side).orders) (hresd : 0 < (h p).resd) (hlevel : (h p).level = none) :
    (b.insertOrder h p).2.removeOrder (b.insertOrder h p).1 p = (h, b) := by
  have hback := BookSide.removeOrder_insertOrder hr hp rfl hresd hlevel
  have hside : ((b.insertOrder h p).1 p).side = (h p).side := by
    rw [insertOrder_heap, BookSide.insertOrder_heap, Heap.modify_self]
    rfl
  unfold removeOrder
  rw [hside, insertOrder_side, if_pos rfl, insertOrder_heap, hback]
  refine Prod.ext rfl ?_
  simp only [insertOrder, setSide]
  split <;> simp_all [side]

end Sides

@[simp] theorem allocOrderId_mnem (b : MarketBook) : b.allocOrderId.mnem = b.mnem := rfl
@[simp] theorem allocExecId_mnem (b : MarketBook) : b.allocExecId.mnem = b.mnem := rfl

end MarketBook

end Swirly
