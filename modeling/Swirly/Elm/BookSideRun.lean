import Swirly.Elm.BookSideRep
import Mathlib.Logic.Relation

/-!
# Swirly.Elm.BookSideRun

Runs of operations on one side of a book. `SideOp` lists the six public
operations, `SideOp.Admissible` what a caller owes (the assertions the operation
makes on its arguments), and `SideInv` what every run preserves.

The assertions *inside* the operations (`SideOp.InnerAsserts`) are not assumed:
they follow from the invariant.
-/

namespace Swirly

open Lib (Heap)
open Relation (ReflTransGen)

namespace BookSide

variable {sd : Side} {h : Heap Order} {b : BookSide} {blocks : List Block} {p : OrderPtr}

/-! ### Fills of a resting order -/

theorem takeOrder_of_level {k : Int} (hk : (h p).level = some k) (lots now : Int) :
    b.takeOrder h p lots now =
      ((b.reduceLevel h k p lots).1.modify p (fun o => o.tradeLast lots o.ticks now),
        (b.reduceLevel h k p lots).2) := by
  simp only [takeOrder, hk]

theorem takeOrder_rep (hr : Rep sd h b blocks) (hp : p ∈ b.orders) (lots now : Int) :
    ∃ blocks', Rep sd (b.takeOrder h p lots now).1 (b.takeOrder h p lots now).2 blocks' := by
  rw [takeOrder_of_level (hr.rests_key hp).level]
  exact reduceLevel_rep hr hp (f := fun o => o.tradeLast lots o.ticks now)
    (fun _ => rfl) (fun _ => rfl) (fun _ => rfl) rfl

theorem takeOrder_orders (hr : Rep sd h b blocks) (hp : p ∈ b.orders) (lots now : Int) :
    (b.takeOrder h p lots now).2.orders =
      if lots < (h p).resd then b.orders else b.orders.erase p := by
  rw [takeOrder_of_level (hr.rests_key hp).level]
  exact reduceLevel_orders h b _ p lots

end BookSide

/-- A fill of a resting order, as `takeOrder` leaves it. -/
def Order.taken (o : Order) (lots now : Int) : Order :=
  (if lots < o.resd then o else o.setLevel none).tradeLast lots o.ticks now

namespace Order

variable (o : Order) (lots now : Int)

@[simp] theorem taken_resd : (o.taken lots now).resd = o.resd - lots := by
  unfold taken; split <;> rfl

@[simp] theorem taken_exec : (o.taken lots now).exec = o.exec + lots := by
  unfold taken; split <;> rfl

/-- A fill keeps the constant fields. -/
theorem taken_proj {β : Type} (π : Order → β) (hlevel : ∀ o level, π (setLevel o level) = π o)
    (htrade : ∀ (o : Order) lots cost lastLots lastTicks now,
      π (o.trade lots cost lastLots lastTicks now) = π o) : π (o.taken lots now) = π o := by
  unfold taken tradeLast
  rw [htrade]
  split
  · rfl
  · exact hlevel _ _

end Order

namespace BookSide

variable {sd : Side} {h : Heap Order} {b : BookSide} {blocks : List Block} {p : OrderPtr}

theorem takeOrder_heap (hr : Rep sd h b blocks) (hp : p ∈ b.orders) (lots now : Int) :
    (b.takeOrder h p lots now).1 = h.modify p (Order.taken · lots now) := by
  rw [takeOrder_of_level (hr.rests_key hp).level, reduceLevel_heap, Heap.modify_modify]
  refine congrArg (h.modify p) (funext fun o => ?_)
  simp only [Function.comp, Order.taken]
  split <;> rfl

/-! ### Operations that may find the order at rest or not -/

theorem removeOrder_of_mem (hr : Rep sd h b blocks) (hp : p ∈ b.orders) :
    b.removeOrder h p = b.removeFrom h (h p).key p := by
  simp only [removeOrder, (hr.rests_key hp).level]

theorem removeOrder_of_level_none (hk : (h p).level = none) : b.removeOrder h p = (h, b) := by
  simp only [removeOrder, hk]

/-- **Inserting and then removing an order is the identity.** -/
theorem removeOrder_insertOrder (hr : Rep sd h b blocks) (hp : p ∉ b.orders)
    (hside : (h p).side = sd) (hresd : 0 < (h p).resd) (hlevel : (h p).level = none) :
    (b.insertOrder h p).2.removeOrder (b.insertOrder h p).1 p = (h, b) := by
  obtain ⟨blocks₁, s, t, hr₁, horders, hplaced, -, -⟩ := insertOrder_rep hr hp hside hresd
  have hmem : p ∈ (b.insertOrder h p).2.orders := by rw [hplaced]; simp
  obtain ⟨blocks₂, hr₂⟩ := removeFrom_rep hr₁ hmem
  rw [← removeOrder_of_mem hr₁ hmem] at hr₂
  have hheap : ((b.insertOrder h p).2.removeOrder (b.insertOrder h p).1 p).1 = h := by
    rw [removeOrder_of_mem hr₁ hmem, removeFrom_heap, insertOrder_heap, Heap.modify_modify]
    refine Heap.modify_eq_self ?_
    simp only [Function.comp, Order.setLevel, ← hlevel]
  have hback : ((b.insertOrder h p).2.removeOrder (b.insertOrder h p).1 p).2.orders =
      b.orders := by
    have hps : p ∉ s := fun hmem => hp (horders ▸ List.mem_append_left _ hmem)
    rw [removeOrder_of_mem hr₁ hmem, removeFrom_orders, hplaced, horders,
      List.erase_append_right _ hps, List.erase_cons_head]
  rw [hheap] at hr₂
  exact Prod.ext hheap (hr₂.levels_unique hr hback)

end BookSide

/-! ### Operations and runs -/

/-- The public operations of a book side. -/
inductive SideOp
  | insertOrder (order : OrderPtr)
  | createOrder (order : OrderPtr) (now : Int)
  | removeOrder (order : OrderPtr)
  | reviseOrder (order : OrderPtr) (lots now : Int)
  | cancelOrder (order : OrderPtr) (now : Int)
  | takeOrder (order : OrderPtr) (lots now : Int)

namespace SideOp

/-- The order an operation is about. -/
def order : SideOp → OrderPtr
  | insertOrder p | createOrder p _ | removeOrder p | reviseOrder p _ _ | cancelOrder p _
  | takeOrder p _ _ => p

/-- Run an operation. -/
def apply (st : Heap Order × BookSide) : SideOp → Heap Order × BookSide
  | insertOrder p => st.2.insertOrder st.1 p
  | createOrder p now => st.2.createOrder st.1 p now
  | removeOrder p => st.2.removeOrder st.1 p
  | reviseOrder p lots now => st.2.reviseOrder st.1 p lots now
  | cancelOrder p now => st.2.cancelOrder st.1 p now
  | takeOrder p lots now => st.2.takeOrder st.1 p lots now

/-- What a caller owes: the operation's own assertions, on an order of this side. An
inserted order has its lots split into executed and residual; orders are revised and
taken only while they rest. -/
def Admissible (sd : Side) (st : Heap Order × BookSide) (op : SideOp) : Prop :=
  (st.1 op.order).side = sd ∧
    match op with
    | insertOrder p =>
        BookSide.InsertAsserts (st.1 p) ∧ (st.1 p).exec + (st.1 p).resd = (st.1 p).lots
    | createOrder p now =>
        (st.1 p).CreateAsserts ∧ BookSide.InsertAsserts ((st.1 p).create now)
    | removeOrder _ | cancelOrder _ _ => True
    | reviseOrder p lots _ => p ∈ st.2.orders ∧ (st.1 p).ReviseAsserts lots
    | takeOrder p lots _ => p ∈ st.2.orders ∧ 0 ≤ lots ∧ lots ≤ (st.1 p).resd

/-- The assertions met on the way through an operation. -/
def InnerAsserts (st : Heap Order × BookSide) (op : SideOp) : Prop :=
  ∀ k, (st.1 op.order).level = some k →
    match op with
    | insertOrder _ | createOrder _ _ => True
    | removeOrder p | cancelOrder p _ => BookSide.RemoveAsserts st.1 st.2 k p
    | reviseOrder p lots _ => BookSide.ReduceAsserts st.1 st.2 k p ((st.1 p).lots - lots)
    | takeOrder p lots _ => BookSide.ReduceAsserts st.1 st.2 k p lots

end SideOp

/-- One admissible operation. -/
def SideStep (sd : Side) (st st' : Heap Order × BookSide) : Prop :=
  ∃ op : SideOp, op.Admissible sd st ∧ op.apply st = st'

/-- What every run of a side preserves. -/
structure SideInv (sd : Side) (h : Heap Order) (b : BookSide) : Prop where
  rep : ∃ blocks, Rep sd h b blocks
  lots_eq : ∀ p ∈ b.orders, (h p).exec + (h p).resd = (h p).lots
  level_off : ∀ p, p ∉ b.orders → (h p).level = none

namespace SideInv

variable {sd : Side} {h : Heap Order} {b : BookSide} {p : OrderPtr}

theorem level_iff (hi : SideInv sd h b) : p ∈ b.orders ↔ (h p).level ≠ none := by
  obtain ⟨blocks, hr⟩ := hi.rep
  constructor
  · intro hp; simp [(hr.rests_key hp).level]
  · intro hne; by_contra hp; exact hne (hi.level_off p hp)

/-- An operation that changes one order only, and puts it at rest or takes it away,
leaves the rest of the invariant alone. -/
theorem of_modify (hi : SideInv sd h b) {f : Order → Order} {b' : BookSide}
    (hrep : ∃ blocks, Rep sd (h.modify p f) b' blocks)
    (hmem : ∀ q, q ≠ p → (q ∈ b'.orders ↔ q ∈ b.orders))
    (hlots : p ∈ b'.orders → (f (h p)).exec + (f (h p)).resd = (f (h p)).lots)
    (hoff : p ∉ b'.orders → (f (h p)).level = none) : SideInv sd (h.modify p f) b' := by
  refine ⟨hrep, ?_, ?_⟩
  · intro q hq
    by_cases hqp : q = p
    · subst hqp; rw [Heap.modify_self]; exact hlots hq
    · rw [Heap.modify_of_ne hqp]; exact hi.lots_eq q ((hmem q hqp).mp hq)
  · intro q hq
    by_cases hqp : q = p
    · subst hqp; rw [Heap.modify_self]; exact hoff hq
    · rw [Heap.modify_of_ne hqp]; exact hi.level_off q (fun h => hq ((hmem q hqp).mpr h))

theorem insertOrder (hi : SideInv sd h b) (hside : (h p).side = sd)
    (ha : BookSide.InsertAsserts (h p)) (hlots : (h p).exec + (h p).resd = (h p).lots) :
    SideInv sd (b.insertOrder h p).1 (b.insertOrder h p).2 := by
  obtain ⟨hlevel, -, hresd, -, -, -⟩ := ha
  have hp : p ∉ b.orders := fun hmem => hi.level_iff.mp hmem hlevel
  obtain ⟨blocks, hr⟩ := hi.rep
  obtain ⟨blocks', s, t, hr', horders, hplaced, -, -⟩ :=
    BookSide.insertOrder_rep hr hp hside hresd
  rw [BookSide.insertOrder_heap] at hr' ⊢
  refine hi.of_modify ⟨blocks', hr'⟩ (fun q hq => ?_) (fun _ => hlots) (fun hmem => ?_)
  · rw [hplaced, horders]; simp [hq]
  · exact absurd (by rw [hplaced]; simp) hmem

theorem removeOrder (hi : SideInv sd h b) :
    SideInv sd (b.removeOrder h p).1 (b.removeOrder h p).2 ∧
      p ∉ (b.removeOrder h p).2.orders := by
  obtain ⟨blocks, hr⟩ := hi.rep
  by_cases hp : p ∈ b.orders
  · rw [BookSide.removeOrder_of_mem hr hp]
    have hnot : p ∉ (b.removeFrom h (h p).key p).2.orders := hr.nodup.not_mem_erase
    refine ⟨?_, hnot⟩
    have hrep := BookSide.removeFrom_rep hr hp
    rw [BookSide.removeFrom_heap] at hrep ⊢
    refine hi.of_modify hrep (fun q hq => ?_) (fun hmem => absurd hmem hnot) (fun _ => rfl)
    rw [BookSide.removeFrom_orders, List.mem_erase_of_ne hq]
  · rw [BookSide.removeOrder_of_level_none (hi.level_off p hp)]
    exact ⟨hi, hp⟩

/-- A change of an order that does not rest. -/
theorem modify_off (hi : SideInv sd h b) (hp : p ∉ b.orders) {f : Order → Order}
    (hf : (f (h p)).level = (h p).level) : SideInv sd (h.modify p f) b := by
  obtain ⟨blocks, hr⟩ := hi.rep
  refine hi.of_modify ⟨blocks, hr.modify_of_not_mem hp f⟩ (fun _ _ => Iff.rfl)
    (fun hmem => absurd hmem hp) (fun _ => ?_)
  rw [hf, hi.level_off p hp]

/-- A reduction of a resting order that keeps its lots split. -/
theorem reduceLevel (hi : SideInv sd h b) (hp : p ∈ b.orders) {delta : Int} {f : Order → Order}
    (hlevel : ∀ o, (f o).level = o.level) (hside : ∀ o, (f o).side = o.side)
    (hkey : ∀ o, (f o).key = o.key) (hresd : (f (h p)).resd = (h p).resd - delta)
    (hlots : (f (h p)).exec + (f (h p)).resd = (f (h p)).lots) :
    SideInv sd ((b.reduceLevel h (h p).key p delta).1.modify p f)
      (b.reduceLevel h (h p).key p delta).2 := by
  obtain ⟨blocks, hr⟩ := hi.rep
  have hrep := BookSide.reduceLevel_rep hr hp hlevel hside hkey hresd
  have horders := BookSide.reduceLevel_orders h b (h p).key p delta
  rw [BookSide.reduceLevel_heap, Heap.modify_modify] at hrep ⊢
  refine hi.of_modify hrep (fun q hq => ?_) (fun hmem => ?_) (fun hmem => ?_)
  · rw [horders]; split
    · exact Iff.rfl
    · exact List.mem_erase_of_ne hq
  · rw [horders] at hmem
    split at hmem
    · next hlt => simpa [hlt] using hlots
    · exact absurd hmem hr.nodup.not_mem_erase
  · rw [horders] at hmem
    split at hmem
    · exact absurd hp hmem
    · next hlt => simp [hlt, hlevel, Order.setLevel]

/-- **Every admissible operation preserves the invariant.** -/
theorem step (hi : SideInv sd h b) {op : SideOp} (ha : op.Admissible sd (h, b)) :
    SideInv sd (op.apply (h, b)).1 (op.apply (h, b)).2 := by
  obtain ⟨hside, ha⟩ := ha
  cases op with
  | insertOrder p => exact hi.insertOrder hside ha.1 ha.2
  | createOrder p now =>
      have hp : p ∉ b.orders := fun hmem => hi.level_iff.mp hmem ha.2.1
      have hi' := hi.modify_off (f := (Order.create · now)) hp rfl
      refine hi'.insertOrder ?_ ?_ ?_ <;> rw [Heap.modify_self]
      · exact hside
      · exact ha.2
      · simp [Order.create]
  | removeOrder p => exact (hi.removeOrder (p := p)).1
  | reviseOrder p lots now =>
      obtain ⟨hp, -, -, -, -⟩ := ha
      obtain ⟨blocks, hr⟩ := hi.rep
      simp only [SideOp.apply, BookSide.reviseOrder, (hr.rests_key hp).level]
      refine hi.reduceLevel hp (fun _ => rfl) (fun _ => rfl) (fun _ => rfl) rfl ?_
      have hlots := hi.lots_eq p hp
      simp only [Order.revise]
      omega
  | cancelOrder p now =>
      obtain ⟨hi', hp⟩ := hi.removeOrder (p := p)
      exact hi'.modify_off (f := (Order.cancel · now)) hp rfl
  | takeOrder p lots now =>
      obtain ⟨hp, -, -⟩ := ha
      obtain ⟨blocks, hr⟩ := hi.rep
      simp only [SideOp.apply, BookSide.takeOrder_of_level (hr.rests_key hp).level]
      refine hi.reduceLevel hp (fun _ => rfl) (fun _ => rfl) (fun _ => rfl) rfl ?_
      have hlots := hi.lots_eq p hp
      simp only [Order.tradeLast, Order.trade]
      omega

/-- **Every run preserves the invariant.** -/
theorem run {st st' : Heap Order × BookSide} (hi : SideInv sd st.1 st.2)
    (hrun : ReflTransGen (SideStep sd) st st') : SideInv sd st'.1 st'.2 := by
  induction hrun with
  | refl => exact hi
  | tail _ hstep ih =>
      obtain ⟨op, ha, rfl⟩ := hstep
      exact ih.step ha

theorem empty (hoff : ∀ p, (h p).level = none) : SideInv sd h BookSide.empty :=
  ⟨⟨[], Rep.empty sd h⟩, by simp [BookSide.empty], fun p _ => hoff p⟩

/-- The assertions inside an admissible operation hold. -/
theorem innerAsserts (hi : SideInv sd h b) {op : SideOp} (ha : op.Admissible sd (h, b)) :
    op.InnerAsserts (h, b) := by
  intro k hk
  obtain ⟨blocks, hr⟩ := hi.rep
  have hk' : (h op.order).level = some k := hk
  have hp : op.order ∈ b.orders := hi.level_iff.mpr (by simp [hk'])
  obtain rfl : (h op.order).key = k :=
    Option.some.inj ((hr.rests_key hp).level.symm.trans hk')
  cases op with
  | insertOrder p => trivial
  | createOrder p now => trivial
  | removeOrder p => exact BookSide.removeAsserts hr hp
  | cancelOrder p now => exact BookSide.removeAsserts hr hp
  | reviseOrder p lots now =>
      obtain ⟨-, -, -, hexec, -, hle⟩ := ha
      have hlots := hi.lots_eq p hp
      refine BookSide.reduceAsserts hr hp ?_ ?_
      · exact Int.sub_nonneg_of_le hle
      · simp only [SideOp.order] at hexec hlots ⊢
        omega
  | takeOrder p lots now => exact BookSide.reduceAsserts hr hp ha.2.2.1 ha.2.2.2

end SideInv

/-! ### The invariant in the source's terms -/

/-- The level `l` is the aggregate of the orders `ps`, and they point at it. -/
structure Level.Holds (h : Heap Order) (l : Level) (ps : List OrderPtr) : Prop where
  ne : ps ≠ []
  count : l.count = ps.length
  resd : l.resd = sumResd h ps
  resd_pos : 0 < l.resd
  firstOrder : ps.head? = some l.firstOrder
  key : ∀ p ∈ ps, (h p).key = l.key
  level : ∀ p ∈ ps, (h p).level = some l.key

theorem sumResd_pos {h : Heap Order} : ∀ {ps : List OrderPtr}, ps ≠ [] →
    (∀ p ∈ ps, 0 < (h p).resd) → 0 < sumResd h ps
  | [p], _, hpos => by simpa using hpos p List.mem_cons_self
  | p :: q :: ps, _, hpos => by
      have ih := sumResd_pos (List.cons_ne_nil q ps)
        (fun x hx => hpos x (List.mem_cons_of_mem p hx))
      have hp := hpos p List.mem_cons_self
      rw [sumResd_cons]
      omega

theorem Rep.holds {sd : Side} {h : Heap Order} {b : BookSide} {blocks : List Block}
    (hr : Rep sd h b blocks) {e : Block} (he : e ∈ blocks) : (levelOf sd h e).Holds h e.2 where
  ne := hr.block_ne e he
  count := rfl
  resd := rfl
  resd_pos := sumResd_pos (hr.block_ne e he) (fun p hp => (hr.rests e he p hp).resd_pos)
  firstOrder := by
    obtain ⟨p, ps, hps⟩ := List.exists_cons_of_ne_nil (hr.block_ne e he)
    simp [levelOf, hps]
  key p hp := (hr.rests e he p hp).key
  level p hp := (hr.rests e he p hp).level

/-- **The representation invariant over runs.** After any run of admissible
operations that starts with an empty side and orders that rest nowhere, the level
keys increase strictly, the order list is cut into one block for each level, an
order outside the list has no level, and no assertion inside a further operation
fails. -/
theorem sideStep_run_holds {sd : Side} {h₀ h : Heap Order} {b : BookSide}
    (hoff : ∀ p, (h₀ p).level = none)
    (hrun : ReflTransGen (SideStep sd) (h₀, BookSide.empty) (h, b)) :
    b.levels.elems.Pairwise (fun l m => l.key < m.key) ∧
      (∃ blocks : List (List OrderPtr), b.orders = blocks.flatten ∧ b.orders.Nodup ∧
        List.Forall₂ (Level.Holds h) b.levels.elems blocks) ∧
      (∀ p, p ∉ b.orders → (h p).level = none) ∧
      (∀ op : SideOp, op.Admissible sd (h, b) → op.InnerAsserts (h, b)) := by
  have hi : SideInv sd h b := SideInv.run (SideInv.empty hoff) hrun
  obtain ⟨blocks, hr⟩ := hi.rep
  refine ⟨b.levels.sorted, ⟨blocks.map Prod.snd, ?_, hr.nodup, ?_⟩, hi.level_off,
    fun op ha => hi.innerAsserts ha⟩
  · rw [hr.orders_eq, List.flatMap_def]
  · rw [hr.levels_eq, List.forall₂_map_left_iff, List.forall₂_map_right_iff, List.forall₂_same]
    exact fun e he => hr.holds he

/-- Bids of 10 lots, two at each price. -/
def bids : Heap Order :=
  ⟨fun p => newOrder (.assign 16 []) (.assign 16 []) (.assign 16 []) 0 p [] .buy 10
    (12345 - (p / 2 : Nat)) 1 0, 2⟩

/-- Two bids come in at one price, and the first one is filled in part. -/
def bidsTaken : Heap Order × BookSide :=
  SideOp.apply (SideOp.apply (SideOp.apply (bids, .empty) (.insertOrder 0)) (.insertOrder 1))
    (.takeOrder 0 4 0)

theorem bidsTaken_run : ReflTransGen (SideStep .buy) (bids, .empty) bidsTaken := by
  have hzero : SideStep .buy (bids, .empty) (SideOp.apply (bids, .empty) (.insertOrder 0)) :=
    ⟨.insertOrder 0, ⟨rfl, by unfold BookSide.InsertAsserts; decide, rfl⟩, rfl⟩
  have hone : SideStep .buy (SideOp.apply (bids, .empty) (.insertOrder 0))
      (SideOp.apply (SideOp.apply (bids, .empty) (.insertOrder 0)) (.insertOrder 1)) :=
    ⟨.insertOrder 1, ⟨rfl, by unfold BookSide.InsertAsserts; decide, rfl⟩, rfl⟩
  have htake : SideStep .buy
      (SideOp.apply (SideOp.apply (bids, .empty) (.insertOrder 0)) (.insertOrder 1)) bidsTaken :=
    ⟨.takeOrder 0 4 0, ⟨rfl, by decide, by decide, by decide⟩, rfl⟩
  exact .tail (.tail (.single hzero) hone) htake

theorem bidsTaken_holds : bidsTaken.2.levels.elems.Pairwise (fun l m => l.key < m.key) ∧
    ∃ blocks : List (List OrderPtr), bidsTaken.2.orders = blocks.flatten ∧
      List.Forall₂ (Level.Holds bidsTaken.1) bidsTaken.2.levels.elems blocks := by
  obtain ⟨hsorted, ⟨blocks, horders, -, hholds⟩, -, -⟩ :=
    sideStep_run_holds (fun _ => rfl) bidsTaken_run
  exact ⟨hsorted, blocks, horders, hholds⟩

/-- **An order that is inserted and removed again leaves no trace**: the order list and the
levels are the ones before, and so is every order, with the level of this one null again. -/
theorem BookSide.removeOrder_undoes {sd : Side} {h : Heap Order} {b : BookSide}
    {blocks : List Block} {p : OrderPtr} (hr : Rep sd h b blocks) (hside : (h p).side = sd)
    (hlevel : (h p).level = none) (hresd : 0 < (h p).resd) :
    (b.insertOrder h p).2.removeOrder (b.insertOrder h p).1 p = (h, b) := by
  have hp : p ∉ b.orders := by
    intro hmem
    have hrests := (hr.rests_key hmem).level
    rw [hlevel] at hrests
    cases hrests
  exact removeOrder_insertOrder hr hp hside hresd hlevel

/-- A third bid comes in and goes. -/
theorem bidsTaken_undone :
    (bidsTaken.2.insertOrder bidsTaken.1 2).2.removeOrder (bidsTaken.2.insertOrder bidsTaken.1 2).1
      2 = bidsTaken := by
  obtain ⟨blocks, hr⟩ := (SideInv.run (SideInv.empty (fun _ => rfl)) bidsTaken_run).rep
  exact BookSide.removeOrder_undoes hr (by decide) (by decide) (by decide)

end Swirly
