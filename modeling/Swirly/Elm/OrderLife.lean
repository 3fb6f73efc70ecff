import Swirly.Lib.Trace
import Swirly.Elm.Commute
import Swirly.Elm.MarketBook

/-!
# Swirly.Elm.OrderLife

**The life of one order**: it is inserted into a market, revised, taken and
cancelled, in any order and any number of times, at rest and afterwards.

`LifeInv` holds in every such life. It says less of an order that has left the
book, because there a revision subtracts from lots that are not there any more:
cancelling keeps the order's lots and clears its residual lots, and only the branch
for an order at rest compares the two. `order_sane_iff` has what follows: the
quantities stay sane exactly as long as every revision finds the order at rest, or
asks for the lots it has.
-/

namespace Swirly

open Lib (Heap Traced)

/-! ### Lives -/

/-- The orders and a market. -/
abbrev BookState := Heap Order × MarketBook

/-- What may be done with an order after it was inserted. -/
inductive OrderOp
  | revise (lots now : Int)
  | cancel (now : Int)
  | take (lots now : Int)

/-- The order rests in the market. -/
def BookState.Rests (st : BookState) (p : OrderPtr) : Prop :=
  p ∈ (st.2.side (st.1 p).side).orders

namespace OrderOp

variable (p : OrderPtr) (st : BookState)

/-- Do it with order `p`. -/
def apply : OrderOp → BookState
  | revise lots now => st.2.reviseOrder st.1 p lots now
  | cancel now => st.2.cancelOrder st.1 p now
  | take lots now => st.2.takeOrder st.1 p lots now

/-- What the caller owes: a revision its assertions, a fill an order at rest that has
the lots. -/
def Admissible : OrderOp → Prop
  | revise lots _ => (st.1 p).ReviseAsserts lots
  | cancel _ => True
  | take lots _ => st.Rests p ∧ 0 < lots ∧ lots ≤ (st.1 p).resd

/-- A revision finds the order at rest, or asks for the lots it has. -/
def Harmless : OrderOp → Prop
  | revise lots _ => st.Rests p ∨ lots = (st.1 p).lots
  | cancel _ | take _ _ => True

/-- The operation on the order's side. -/
def sideOp : OrderOp → SideOp
  | revise lots now => .reviseOrder p lots now
  | cancel now => .cancelOrder p now
  | take lots now => .takeOrder p lots now

variable {p st}

@[simp] theorem sideOp_order (op : OrderOp) : (op.sideOp p).order = p := by
  cases op <;> rfl

/-- One side of the market takes part. -/
theorem apply_side (op : OrderOp) :
    ((op.apply p st).1, (op.apply p st).2.side (st.1 p).side) =
      (op.sideOp p).apply (st.1, st.2.side (st.1 p).side) := by
  have hset : ∀ s : BookSide, (st.2.setSide (st.1 p).side s).side (st.1 p).side = s :=
    fun s => MarketBook.setSide_side_self _ _ _
  cases op with
  | revise lots now => exact congrArg (Prod.mk _) (hset _)
  | cancel now => exact congrArg (Prod.mk _) (hset _)
  | take lots now =>
      refine congrArg (Prod.mk _) ((MarketBook.takeOrder_side _ _ _ _ _ _).trans ?_)
      rw [if_pos rfl]
      rfl

end OrderOp

/-- One admissible operation on order `p`. -/
def OrderStep (p : OrderPtr) (st : BookState) (op : OrderOp) (st' : BookState) : Prop :=
  op.Admissible p st ∧ op.apply p st = st'

/-- The quantities of an order are sane. -/
structure BookState.Sane (st : BookState) (p : OrderPtr) : Prop where
  resd_nonneg : 0 ≤ (st.1 p).resd
  exec_nonneg : 0 ≤ (st.1 p).exec
  le_lots : (st.1 p).exec + (st.1 p).resd ≤ (st.1 p).lots
  rests_iff : st.Rests p ↔ 0 < (st.1 p).resd

/-! ### What every life preserves -/

/-- The quantities of an order, at rest or not. -/
structure Order.Lives (o : Order) (rests : Prop) : Prop where
  exec_nonneg : 0 ≤ o.exec
  exec_le : o.exec ≤ o.lots
  lots_eq : rests → o.exec + o.resd = o.lots
  off : ¬ rests → o.level = none ∧ o.resd ≤ 0

/-- What the caller of an operation owes for an order at rest. -/
def OrderOp.Owes (o : Order) : OrderOp → Prop
  | revise lots _ => o.ReviseAsserts lots
  | cancel _ => True
  | take lots _ => 0 < lots ∧ lots ≤ o.resd

/-- An operation leaves an order at rest its lots, or takes it off the side. -/
theorem OrderOp.lives_on {o : Order} (ho : o.Lives True) (hpos : 0 < o.resd) {op : OrderOp}
    (howes : op.Owes o) (p : OrderPtr) :
    ((op.sideOp p).change o).Lives ((op.sideOp p).keeps o = true) := by
  have hexec := ho.exec_nonneg
  have hlots := ho.lots_eq trivial
  cases op with
  | revise lots now =>
      obtain ⟨-, hle, -, hle'⟩ := howes
      by_cases hlt : o.lots - lots < o.resd
      · constructor <;> simp [sideOp, SideOp.change, SideOp.keeps, Order.revise, hlt] <;> omega
      · constructor <;>
          simp [sideOp, SideOp.change, SideOp.keeps, Order.revise, Order.setLevel, hlt] <;> omega
  | cancel now =>
      constructor <;>
        simp [sideOp, SideOp.change, SideOp.keeps, Order.cancel, Order.setLevel] <;> omega
  | take lots now =>
      obtain ⟨hlots', hle⟩ := howes
      by_cases hlt : lots < o.resd
      · constructor <;>
          simp [sideOp, SideOp.change, SideOp.keeps, Order.taken, Order.tradeLast, Order.trade,
            hlt] <;> omega
      · constructor <;>
          simp [sideOp, SideOp.change, SideOp.keeps, Order.taken, Order.tradeLast, Order.trade,
            Order.setLevel, hlt] <;> omega

theorem OrderOp.resd_on {o : Order} (ho : o.Lives True) {op : OrderOp} (howes : op.Owes o)
    (p : OrderPtr) : 0 ≤ ((op.sideOp p).change o).resd := by
  have hlots := ho.lots_eq trivial
  cases op with
  | revise lots now =>
      obtain ⟨-, hle, -, -⟩ := howes
      have hresd : (((OrderOp.revise lots now).sideOp p).change o).resd =
          o.resd - (o.lots - lots) := by
        simp only [sideOp, SideOp.change, Order.revise]
        split <;> rfl
      omega
  | cancel now => exact Int.le_refl 0
  | take lots now =>
      have hresd := Order.taken_resd o lots now
      exact hresd.symm ▸ Int.sub_nonneg_of_le howes.2

/-- Operations do not move an order to the other side. -/
theorem OrderOp.change_side (op : OrderOp) (p : OrderPtr) (o : Order) :
    ((op.sideOp p).change o).side = o.side := by
  cases op with
  | revise lots now => simp only [sideOp, SideOp.change, Order.revise]; split <;> rfl
  | cancel now => rfl
  | take lots now =>
      simp only [sideOp, SideOp.change, Order.taken, Order.tradeLast, Order.trade]
      split <;> rfl

/-- What an operation makes of an order that does not rest. -/
def OrderOp.changeOff : OrderOp → Order → Order
  | revise lots now, o => o.revise lots now
  | cancel now, o => o.cancel now
  | take lots now, o => o.tradeLast lots o.ticks now

theorem OrderOp.apply_off {h : Heap Order} {b : BookSide} {p : OrderPtr}
    (hlevel : (h p).level = none) (op : OrderOp) :
    (op.sideOp p).apply (h, b) = (h.modify p op.changeOff, b) := by
  cases op with
  | revise lots now =>
      simp only [sideOp, SideOp.apply, BookSide.reviseOrder, hlevel]
      rfl
  | cancel now =>
      simp only [sideOp, SideOp.apply, BookSide.cancelOrder,
        BookSide.removeOrder_of_level_none hlevel]
      rfl
  | take lots now =>
      simp only [sideOp, SideOp.apply, BookSide.takeOrder, hlevel]
      rfl

/-- Order `p` of its side, whether it rests there or not. -/
structure LifeInv (p : OrderPtr) (st : BookState) : Prop where
  rep : ∃ blocks, Rep (st.1 p).side st.1 (st.2.side (st.1 p).side) blocks
  lives : (st.1 p).Lives (st.Rests p)

namespace LifeInv

variable {p : OrderPtr} {st st' : BookState} {op : OrderOp}

theorem resd_pos (hi : LifeInv p st) (hp : st.Rests p) : 0 < (st.1 p).resd := by
  obtain ⟨blocks, hr⟩ := hi.rep
  exact (hr.rests_key hp).resd_pos

/-- **Of an order in its life, the residual lots alone can go wrong.** -/
theorem sane_iff (hi : LifeInv p st) : st.Sane p ↔ 0 ≤ (st.1 p).resd := by
  refine ⟨fun h => h.resd_nonneg, fun hresd => ⟨hresd, hi.lives.exec_nonneg, ?_, ?_⟩⟩
  · by_cases hp : st.Rests p
    · exact (hi.lives.lots_eq hp).le
    · have hle := hi.lives.exec_le
      have hoff := (hi.lives.off hp).2
      omega
  · refine ⟨hi.resd_pos, fun hpos => ?_⟩
    by_contra hp
    have hoff := (hi.lives.off hp).2
    omega

/-- A change of the order, with its side as it is afterwards. -/
theorem of_modify {sd : Side} {f : Order → Order} {h : Heap Order} (hheap : st'.1 = h.modify p f)
    (hside : (f (h p)).side = sd) (hrep : ∃ blocks, Rep sd st'.1 (st'.2.side sd) blocks)
    (hlives : (f (h p)).Lives (p ∈ (st'.2.side sd).orders)) : LifeInv p st' := by
  have hp : st'.1 p = f (h p) := by rw [hheap, Heap.modify_self]
  subst hside
  refine ⟨?_, ?_⟩
  · rwa [hp]
  · unfold BookState.Rests
    rwa [hp]

theorem step_on (hi : LifeInv p st) (hp : st.Rests p) (howes : op.Owes (st.1 p)) :
    LifeInv p (op.apply p st) ∧ 0 ≤ ((op.apply p st).1 p).resd := by
  obtain ⟨blocks, hr⟩ := hi.rep
  obtain ⟨hheap, hside⟩ := Prod.ext_iff.mp (@OrderOp.apply_side p st op)
  dsimp only at hheap hside
  have hlower : (op.sideOp p).Lowers (st.1, st.2.side (st.1 p).side) := by
    refine ⟨by rw [OrderOp.sideOp_order]; exact hp, ?_⟩
    cases op with
    | revise lots now | take lots now => exact howes
    | cancel now => trivial
  have ho : (st.1 p).Lives True :=
    ⟨hi.lives.exec_nonneg, hi.lives.exec_le, fun _ => hi.lives.lots_eq hp,
      fun hno => (hno trivial).elim⟩
  have hpos := hi.resd_pos hp
  have hmodify := hlower.heap hr
  have horders := hlower.orders hr
  rw [OrderOp.sideOp_order] at hmodify horders
  have hrests : p ∈ ((op.sideOp p).apply (st.1, st.2.side (st.1 p).side)).2.orders ↔
      (op.sideOp p).keeps (st.1 p) = true := by
    rw [horders]
    split
    · next hkeeps => exact iff_of_true hp hkeeps
    · next hkeeps => exact iff_of_false hr.nodup.not_mem_erase hkeeps
  refine ⟨of_modify (hheap.trans hmodify) (op.change_side p _) ?_ ?_, ?_⟩
  · rw [hheap, hside]
    exact hlower.rep hr
  · rw [hside, hrests]
    exact OrderOp.lives_on ho hpos howes p
  · rw [hheap, hmodify, Heap.modify_self]
    exact OrderOp.resd_on ho howes p

theorem step_off (hi : LifeInv p st) (hp : ¬ st.Rests p) (hadm : op.Admissible p st) :
    LifeInv p (op.apply p st) ∧
      (0 ≤ (st.1 p).resd → (0 ≤ ((op.apply p st).1 p).resd ↔ op.Harmless p st)) := by
  obtain ⟨blocks, hr⟩ := hi.rep
  obtain ⟨hlevel, hresd⟩ := hi.lives.off hp
  have hexec := hi.lives.exec_nonneg
  have hle := hi.lives.exec_le
  obtain ⟨hheap, hside⟩ := Prod.ext_iff.mp (@OrderOp.apply_side p st op)
  dsimp only at hheap hside
  rw [OrderOp.apply_off hlevel] at hheap hside
  dsimp only at hheap hside
  have hrep : ∃ blocks, Rep (st.1 p).side (op.apply p st).1
      ((op.apply p st).2.side (st.1 p).side) blocks := by
    rw [hheap, hside]
    exact ⟨blocks, hr.modify_of_not_mem hp _⟩
  have hrests : p ∉ ((op.apply p st).2.side (st.1 p).side).orders := by rw [hside]; exact hp
  have hself : (op.apply p st).1 p = op.changeOff (st.1 p) := by rw [hheap, Heap.modify_self]
  rw [hself]
  cases op with
  | revise lots now =>
      obtain ⟨-, hle', -, hlots⟩ := hadm
      refine ⟨of_modify hheap rfl hrep ⟨hexec, hle', fun h => absurd h hrests,
        fun _ => ⟨hlevel, ?_⟩⟩, ?_⟩
      · simp only [OrderOp.changeOff, Order.revise]
        omega
      · intro hnonneg
        simp only [OrderOp.changeOff, Order.revise, OrderOp.Harmless, hp, false_or]
        omega
  | cancel now =>
      exact ⟨of_modify hheap rfl hrep ⟨hexec, hle, fun h => absurd h hrests,
        fun _ => ⟨hlevel, Int.le_refl 0⟩⟩, fun _ => iff_of_true (Int.le_refl 0) trivial⟩
  | take lots now => exact absurd hadm.1 hp

/-- **Every operation keeps the invariant**, and what the quantities are afterwards. -/
theorem step (hi : LifeInv p st) (hstep : OrderStep p st op st') :
    LifeInv p st' ∧ (st.Sane p → (st'.Sane p ↔ op.Harmless p st)) := by
  obtain ⟨hadm, rfl⟩ := hstep
  by_cases hp : st.Rests p
  · have howes : op.Owes (st.1 p) := by
      cases op with
      | revise lots now => exact hadm
      | cancel now => trivial
      | take lots now => exact hadm.2
    have hharmless : op.Harmless p st := by
      cases op with
      | revise lots now => exact Or.inl hp
      | cancel now | take lots now => trivial
    obtain ⟨hi', hresd⟩ := hi.step_on hp howes
    exact ⟨hi', fun _ => iff_of_true (hi'.sane_iff.mpr hresd) hharmless⟩
  · obtain ⟨hi', hresd⟩ := hi.step_off hp hadm
    exact ⟨hi', fun hsane => hi'.sane_iff.trans (hresd hsane.resd_nonneg)⟩

/-- A new order, inserted into its market. -/
theorem insertOrder {h : Heap Order} {k : MarketBook} {o : Order} {blocks : List Block}
    (hr : Rep o.side h (k.side o.side) blocks) (hlt : ∀ q ∈ (k.side o.side).orders, q < h.next)
    (hexec : o.exec = 0) (hresd : o.resd = o.lots) (hlots : 0 < o.lots) :
    LifeInv h.next (k.insertOrder (h.alloc o) h.next) ∧
      BookState.Sane (k.insertOrder (h.alloc o) h.next) h.next := by
  have hself : h.alloc o h.next = o := h.alloc_self o
  have hr₀ : Rep o.side (h.alloc o) (k.side o.side) blocks := by
    refine hr.congr (fun q hq => ?_)
    rw [Heap.alloc_of_lt (hlt q hq)]
    exact ⟨rfl, rfl, rfl, rfl⟩
  have hnew : h.next ∉ (k.side o.side).orders := fun hmem => Nat.lt_irrefl _ (hlt _ hmem)
  obtain ⟨blocks', l, r, hr', -, hplaced, -, -⟩ :=
    BookSide.insertOrder_rep hr₀ hnew (by rw [hself]) (by rw [hself]; omega)
  have hside : (k.insertOrder (h.alloc o) h.next).2.side o.side =
      ((k.side o.side).insertOrder (h.alloc o) h.next).2 := by
    rw [MarketBook.insertOrder_side, hself, if_pos rfl]
  have hheap : (k.insertOrder (h.alloc o) h.next).1 =
      ((k.side o.side).insertOrder (h.alloc o) h.next).1 := by
    rw [MarketBook.insertOrder_heap, hself]
  have hmem : h.next ∈ ((k.insertOrder (h.alloc o) h.next).2.side o.side).orders := by
    rw [hside, hplaced]
    simp
  have hmodify := hheap.trans (BookSide.insertOrder_heap _ _ _)
  rw [hself] at hmodify
  have hlives : (o.setLevel (some o.key)).Lives
      (h.next ∈ ((k.insertOrder (h.alloc o) h.next).2.side o.side).orders) := by
    refine ⟨?_, ?_, fun _ => ?_, fun hno => absurd hmem hno⟩ <;> simp only [Order.setLevel]
    · omega
    · omega
    · omega
  have hi : LifeInv h.next (k.insertOrder (h.alloc o) h.next) := by
    have hkept : ((h.alloc o h.next).setLevel (some o.key)).side = o.side := by rw [hself]; rfl
    refine of_modify hmodify hkept ⟨blocks', ?_⟩ ?_
    · rw [hheap, hside]
      exact hr'
    · rw [hself]
      exact hlives
  refine ⟨hi, hi.sane_iff.mpr ?_⟩
  rw [hmodify, Heap.modify_self, hself]
  exact hresd ▸ hlots.le

end LifeInv

/-! ### Whole lives -/

/-- **An order's quantities stay sane exactly as long as it is revised at rest**, or to
the lots it has. -/
theorem order_sane_iff {h : Heap Order} {k : MarketBook} {sd : Side} {blocks : List Block}
    (hr : Rep sd h (k.side sd) blocks) (hlt : ∀ q ∈ (k.side sd).orders, q < h.next)
    (trader market contr : Mnem) (settlDay id : Int) (ref : List Byte) {lots : Int}
    (hlots : 0 < lots) (ticks minLots created : Int) {trace : List (BookState × OrderOp)}
    {st : BookState} (hrun : Traced (OrderStep h.next)
      (k.insertOrder (h.alloc (newOrder trader market contr settlDay id ref sd lots ticks minLots
        created)) h.next) trace st) :
    (∀ e ∈ trace, e.1.Sane h.next) ∧ st.Sane h.next ↔
      ∀ e ∈ trace, e.2.Harmless h.next e.1 := by
  obtain ⟨hi, hsane⟩ := LifeInv.insertOrder (o := newOrder trader market contr settlDay id ref sd
    lots ticks minLots created) hr hlt rfl rfl hlots
  exact hrun.holds_iff (I := LifeInv h.next) (P := fun st => st.Sane h.next)
    (C := fun st op => op.Harmless h.next st) hi hsane
    (fun _ _ _ hi hstep => (hi.step hstep).1) (fun _ _ _ hi hsane hstep => (hi.step hstep).2 hsane)

/-! ### A life that goes wrong -/

namespace Mock

/-- A market with no orders. -/
def emptyMarket : MarketBook :=
  ⟨.assign 16 [], .assign 64 [], .assign 16 [], 0, 0, 0, 0, 0, 0, .empty, .empty, 0, 0⟩

/-- No orders at all. -/
def noneYet : Heap Order := ⟨fun _ => default, 0⟩

/-- A bid for 10 lots. -/
def tenLots : BookState :=
  emptyMarket.insertOrder (noneYet.alloc (newOrder (.assign 16 []) (.assign 16 []) (.assign 16 []) 0
    1 [] .buy 10 12345 1 0)) 0

/-- The bid is cancelled. -/
def cancelled : BookState := (OrderOp.cancel 1).apply 0 tenLots

/-- The bid is revised to 5 lots after that. -/
def revised : BookState := (OrderOp.revise 5 2).apply 0 cancelled

theorem revised_run : Traced (OrderStep 0) tenLots
    [(tenLots, .cancel 1), (cancelled, .revise 5 2)] revised :=
  (Traced.nil.snoc ⟨trivial, rfl⟩).snoc ⟨⟨by decide, by decide, by decide, by decide⟩, rfl⟩

/-- Filled to its last lot, and revised to the lots it has. -/
theorem filled_run : Traced (OrderStep 0) tenLots
    [(tenLots, .take 10 1), ((OrderOp.take 10 1).apply 0 tenLots, .revise 10 2)]
    ((OrderOp.revise 10 2).apply 0 ((OrderOp.take 10 1).apply 0 tenLots)) :=
  (Traced.nil.snoc ⟨⟨by unfold BookState.Rests; decide, by decide, by decide⟩, rfl⟩).snoc
    ⟨⟨by decide, by decide, by decide, by decide⟩, rfl⟩

end Mock

/-- **Five lots fewer than nothing.** -/
theorem revised_after_cancel : Traced (OrderStep 0) Mock.tenLots
    [(Mock.tenLots, .cancel 1), (Mock.cancelled, .revise 5 2)] Mock.revised ∧
      (Mock.revised.1 0).resd = -5 ∧ ¬ Mock.revised.Sane 0 :=
  ⟨Mock.revised_run, by decide, fun h => absurd h.resd_nonneg (by decide)⟩

/-- A life without harm. -/
theorem filled_sane : BookState.Sane ((OrderOp.revise 10 2).apply 0
    ((OrderOp.take 10 1).apply 0 Mock.tenLots)) 0 := by
  refine ((order_sane_iff (h := Mock.noneYet) (k := Mock.emptyMarket) (Rep.empty .buy _)
    (fun _ h => absurd h List.not_mem_nil) (.assign 16 []) (.assign 16 []) (.assign 16 []) 0 1 []
    (by decide) 12345 1 0 Mock.filled_run).mpr ?_).2
  intro e he
  rcases List.mem_pair.mp he with rfl | rfl
  · trivial
  · exact Or.inr (by decide)

end Swirly
