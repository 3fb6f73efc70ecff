import Swirly.Fig.Load
import Swirly.Fig.MatchOrders

/-!
# Swirly.Fig.Records

**An order changes no record.** What a market or a trader is known by (`MarketBook.record`,
`TraderSess.record`) is the same before and after every call of `createOrder`, whatever the
call is given and however it ends (`SameRecords.createOrder`). Each change that the call makes
goes through one market or one session, and it is enough that none of these touches the
record.
-/

namespace Swirly

open Lib (Heap Table)
open Lib.Effect

/-- `Market`: what the book has besides its orders. -/
def MarketBook.record (b : MarketBook) : MarketBook :=
  newMarket b.mnem b.display b.contr b.settlDay b.expiryDay b.state 0 0 0 0 0

/-- `Trader`: what the session has besides its orders, trades and positions. -/
def TraderSess.record (u : TraderSess) : TraderSess := newTrader u.mnem u.display u.email

section Record

variable (b : MarketBook) (u : TraderSess)

@[simp] theorem MarketBook.setSide_record (sd : Side) (t : BookSide) :
    (b.setSide sd t).record = b.record := by
  unfold setSide
  split <;> rfl

theorem MarketBook.insertOrder_record (h : Heap Order) (p : OrderPtr) :
    (b.insertOrder h p).2.record = b.record := b.setSide_record _ _

theorem MarketBook.removeOrder_record (h : Heap Order) (p : OrderPtr) :
    (b.removeOrder h p).2.record = b.record := b.setSide_record _ _

theorem MarketBook.takeOrder_record (h : Heap Order) (p : OrderPtr) (lots now : Int) :
    (b.takeOrder h p lots now).2.record = b.record := b.setSide_record _ _

theorem TraderSess.lazyPosn_record (contr : Mnem) (settlDay : Int) :
    (u.lazyPosn contr settlDay).record = u.record := by
  unfold lazyPosn
  split <;> rfl

theorem TraderSess.insertOrder_record (p : OrderPtr) (o : Order) :
    (u.insertOrder p o).record = u.record := by
  unfold insertOrder
  dsimp only
  split <;> rfl

end Record

section Get

variable (s : Serv) (k k' : Mnem)

theorem Serv.modifyBook_get (f : MarketBook → MarketBook) (hf : ∀ b, (f b).mnem = b.mnem) :
    (s.modifyBook k f hf).markets.get k' =
      if k' = k then f (s.markets.get k) else s.markets.get k' := Table.modify_get hf k'

theorem Serv.modifySess_get (f : TraderSess → TraderSess) (hf : ∀ t, (f t).mnem = t.mnem) :
    (s.modifySess k f hf).traders.get k' =
      if k' = k then f (s.traders.get k) else s.traders.get k' := Table.modify_get hf k'

end Get

/-- The same markets and traders, with the same records. -/
structure SameRecords (s s' : Serv) : Prop where
  marketKeys : s'.markets.keys = s.markets.keys
  market : ∀ m, (s'.markets.get m).record = (s.markets.get m).record
  traderKeys : s'.traders.keys = s.traders.keys
  trader : ∀ u, (s'.traders.get u).record = (s.traders.get u).record

namespace SameRecords

variable {s₀ s s' : Serv} {m u : Mnem}

theorem refl (s : Serv) : SameRecords s s := ⟨rfl, fun _ => rfl, rfl, fun _ => rfl⟩

theorem mnem (h : SameRecords s s') (m : Mnem) :
    (s'.markets.get m).mnem = (s.markets.get m).mnem := by
  have hrecord := congrArg MarketBook.mnem (h.market m)
  exact hrecord

theorem expiryDay (h : SameRecords s s') (m : Mnem) :
    (s'.markets.get m).expiryDay = (s.markets.get m).expiryDay := by
  have hrecord := congrArg MarketBook.expiryDay (h.market m)
  exact hrecord

theorem email (h : SameRecords s s') (u : Mnem) :
    (s'.traders.get u).email = (s.traders.get u).email := by
  have hrecord := congrArg TraderSess.email (h.trader u)
  exact hrecord

theorem of_eq (h : SameRecords s₀ s) (hmarkets : s'.markets = s.markets)
    (htraders : s'.traders = s.traders) : SameRecords s₀ s' := by
  obtain ⟨hkeys, hmarket, htraderKeys, htrader⟩ := h
  refine ⟨?_, ?_, ?_, ?_⟩
  · rwa [hmarkets]
  · rwa [hmarkets]
  · rwa [htraders]
  · rwa [htraders]

theorem modifyBook (h : SameRecords s₀ s) {f : MarketBook → MarketBook}
    {hf : ∀ b, (f b).mnem = b.mnem} (hsame : ∀ b, (f b).record = b.record) :
    SameRecords s₀ (s.modifyBook m f hf) where
  marketKeys := h.marketKeys
  market m' := by
    refine Eq.trans ?_ (h.market m')
    rw [Serv.modifyBook_get]
    split
    · next heq => rw [hsame, heq]
    · rfl
  traderKeys := h.traderKeys
  trader := h.trader

theorem modifySess (h : SameRecords s₀ s) {f : TraderSess → TraderSess}
    {hf : ∀ t, (f t).mnem = t.mnem} (hsame : ∀ t, (f t).record = t.record) :
    SameRecords s₀ (s.modifySess u f hf) where
  marketKeys := h.marketKeys
  market := h.market
  traderKeys := h.traderKeys
  trader u' := by
    refine Eq.trans ?_ (h.trader u')
    rw [Serv.modifySess_get]
    split
    · next heq => rw [hsame, heq]
    · rfl

theorem allocOrderId (h : SameRecords s₀ s) : SameRecords s₀ (s.allocOrderId m) :=
  h.modifyBook (f := MarketBook.allocOrderId) (fun _ => rfl)

theorem allocExecId (h : SameRecords s₀ s) : SameRecords s₀ (s.allocExecId m) :=
  h.modifyBook (f := MarketBook.allocExecId) (fun _ => rfl)

theorem lazyPosn (h : SameRecords s₀ s) (contr : Mnem) (settlDay : Int) :
    SameRecords s₀ (s.lazyPosn u contr settlDay) :=
  h.modifySess (fun t => t.lazyPosn_record contr settlDay)

theorem insertOrder (h : SameRecords s₀ s) (p : OrderPtr) : SameRecords s₀ (s.insertOrder m p) :=
  have hbook : SameRecords s₀ (s.modifyBook m _ (MarketBook.insertOrder_mnem s.heap p)) :=
    h.modifyBook (fun b => b.insertOrder_record s.heap p)
  hbook.of_eq rfl rfl

theorem removeOrder (h : SameRecords s₀ s) (p : OrderPtr) : SameRecords s₀ (s.removeOrder m p) :=
  have hbook : SameRecords s₀ (s.modifyBook m _ (MarketBook.removeOrder_mnem s.heap p)) :=
    h.modifyBook (fun b => b.removeOrder_record s.heap p)
  hbook.of_eq rfl rfl

theorem takeOrder (h : SameRecords s₀ s) (p : OrderPtr) (lots now : Int) :
    SameRecords s₀ (s.takeOrder m p lots now) :=
  have hbook : SameRecords s₀ (s.modifyBook m _ (MarketBook.takeOrder_mnem s.heap p lots now)) :=
    h.modifyBook (fun b => b.takeOrder_record s.heap p lots now)
  hbook.of_eq rfl rfl

/-! ### The parts of the call -/

section Parts

variable {env : Env} {a : OrderArgs} {c : Ctx}

theorem openOrder :
    Preserves (fun c => SameRecords s₀ c.serv) (Swirly.openOrder env a) := by
  intro c h
  have hid : SameRecords s₀ (c.serv.allocOrderId a.book) := h.allocOrderId
  have hexec : ∀ heap : Heap Order,
      SameRecords s₀ (Serv.allocExecId { c.serv.allocOrderId a.book with heap } a.book) :=
    fun heap => allocExecId (hid.of_eq rfl rfl)
  unfold Swirly.openOrder
  simp only [wp_bind, allocOrderId_wp, wp_get, allocate_wp, modifyServ_wp, allocExecId_wp,
    wp_pure]
  exact ⟨fun _ => ⟨fun _ => hexec _, fun _ => hexec _⟩, fun _ => hid⟩

theorem newMatch {i : Nat} {book : Mnem} {taker p : OrderPtr} {lots sumLots sumCost now : Int} :
    Preserves (fun c => SameRecords s₀ c.serv)
      (Swirly.newMatch env i book taker p lots sumLots sumCost now) := by
  intro c h
  have hids : SameRecords s₀ ((c.serv.allocExecId book).allocExecId book) :=
    h.allocExecId.allocExecId
  unfold Swirly.newMatch
  simp only [wp_bind, allocExecId_wp, wp_get, lazyPosn_wp, allocate_wp, wp_pure]
  have hposn := fun contr settlDay => hids.lazyPosn (u := (c.serv.heap p).trader) contr settlDay
  exact ⟨fun _ => ⟨fun _ => ⟨fun _ => hposn _ _, fun _ => hposn _ _⟩, fun _ => hposn _ _⟩,
    fun _ => hids⟩

theorem matchLoop {book : Mnem} {taker : OrderPtr} {direct : Direct} {now : Int}
    (orders : List OrderPtr) (i : Nat) (sums : Sums) :
    Preserves (fun c => SameRecords s₀ c.serv)
      (Swirly.matchLoop env book taker direct now i orders sums) := by
  induction orders generalizing i sums with
  | nil => exact fun _ h => h
  | cons p orders ih =>
      intro c h
      unfold Swirly.matchLoop
      simp only [wp_bind, wp_get, wp_ite, wp_pure]
      refine ⟨fun _ => h, fun _ => ⟨fun _ => h, fun _ => ?_⟩⟩
      refine wp_mono (newMatch c h) (fun m c' h' => ?_) (fun _ _ h' => h')
      simp only [wp_bind, allocate_wp, modifyServ_wp]
      exact ⟨fun _ => ih (i + 1) _ _ (h'.of_eq rfl rfl), fun _ => h'⟩

theorem matchOrders {book : Mnem} {p : OrderPtr} {now : Int} :
    Preserves (fun c => SameRecords s₀ c.serv) (Swirly.matchOrders env book p now) := by
  intro c h
  unfold Swirly.matchOrders matchSide
  simp only [wp_bind, wp_get]
  refine wp_mono (matchLoop _ 0 {} c h) (fun sums c' h' => ?_) (fun _ _ h' => h')
  simp only [wp_bind, wp_get, wp_ite, modifyServ_wp, wp_pure]
  exact ⟨fun _ => h'.of_eq rfl rfl, fun _ => h'⟩

theorem placeOrder {book : Mnem} {p : OrderPtr} :
    Preserves (fun c => SameRecords s₀ c.serv) (Swirly.placeOrder env book p) := by
  intro c h
  unfold Swirly.placeOrder
  simp only [wp_bind, wp_get, wp_ite, allocate_wp, modifyServ_wp, wp_pure]
  exact ⟨fun _ => h, fun _ => ⟨fun _ => ⟨fun _ => h.insertOrder p, fun _ => h⟩,
    fun _ => h.insertOrder p⟩⟩

theorem journOrder {book : Mnem} {p : OrderPtr} {exec : Exec} :
    Preserves (fun c => SameRecords s₀ c.serv) (Swirly.journOrder env book p exec) := by
  refine Preserves.onFailure (Preserves.ite (fun _ => ?_) (fun _ => Preserves.throw _))
    (fun c h => ?_)
  · exact Preserves.update (fun c h => h.of_eq rfl rfl)
  · split
    · exact h
    · exact h.removeOrder p

theorem preparePosn : Preserves (fun c => SameRecords s₀ c.serv) (Swirly.preparePosn env a) := by
  intro c h
  unfold Swirly.preparePosn
  simp only [wp_bind, wp_get, wp_ite, lazyPosn_wp, modifyResp_wp, wp_pure]
  exact ⟨fun _ => ⟨fun _ => h.lazyPosn _ _, fun _ => h⟩, fun _ => h⟩

theorem prepareResp : Preserves (fun c => SameRecords s₀ c.serv) (Swirly.prepareResp env a) := by
  intro c h
  unfold Swirly.prepareResp reserveOrders reserveExecs
  simp only [wp_bind, wp_get, wp_ite, allocate_wp, modifyResp_wp, h, implies_true, and_self]

theorem commitMatch (h : SameRecords s₀ c.serv) (sess : Mnem) (now : Int) (m : Match) :
    SameRecords s₀ (c.commitMatch sess now m).serv := by
  have hpost : ∀ {s : Serv} {u : Mnem} (e : Exec), SameRecords s₀ s →
      SameRecords s₀ (s.insertTrade u e) := fun e h => h.modifySess (fun _ => rfl)
  have hadd : ∀ {s : Serv} (posn : PosnPtr) (e : Exec), SameRecords s₀ s →
      SameRecords s₀ (s.addTrade posn e) := fun posn e h => h.modifySess (fun _ => rfl)
  have htake : SameRecords s₀ (c.takeOrder m.makerOrder m.lots now).serv := by
    unfold Ctx.takeOrder
    split
    · exact h.takeOrder _ _ _
    · exact h
  unfold Ctx.commitMatch Ctx.addTrade
  dsimp only
  split
  · exact hadd _ _ (hpost _ (hadd _ _ (hpost _ htake)))
  · exact hpost _ (hadd _ _ (hpost _ htake))

theorem commitOrder (h : SameRecords s₀ c.serv) (order : OrderPtr) (exec : Exec) :
    SameRecords s₀ (c.commitOrder a order exec).serv := by
  have hloop : ∀ (ms : List Match) (c : Ctx), SameRecords s₀ c.serv →
      SameRecords s₀ (ms.foldl (Ctx.commitMatch a.sess a.now) c).serv := by
    intro ms
    induction ms with
    | nil => exact fun _ h => h
    | cons m ms ih => exact fun c h => ih _ (commitMatch h a.sess a.now m)
  have hinsert : SameRecords s₀ (c.serv.insertSessOrder a.sess order) :=
    h.modifySess (fun t => t.insertOrder_record order _)
  unfold Ctx.commitOrder
  dsimp only
  split
  · exact hloop _ _ hinsert
  · exact hinsert

end Parts

/-- **Every call**, whatever it is given and however it ends. -/
theorem createOrder (env : Env) (a : OrderArgs) :
    Preserves (fun c => SameRecords s₀ c.serv) (Swirly.createOrder env a) := by
  intro c h
  unfold Swirly.createOrder checkOrder
  simp only [wp_bind, wp_get, wp_ite, wp_throw, wp_pure]
  refine ⟨fun _ => h, fun _ => ⟨fun _ => h, fun _ => ?_⟩⟩
  refine wp_mono (openOrder c h) (fun r c₁ h₁ => ?_) (fun _ _ h' => h')
  obtain ⟨order, exec⟩ := r
  rw [wp_bind]
  refine wp_mono (matchOrders c₁ h₁) (fun _ c₂ h₂ => ?_) (fun _ _ h' => h')
  have htail : Preserves (fun c => SameRecords s₀ c.serv) (withFinally Ctx.clearMatches (do
      Swirly.placeOrder env a.book order
      Swirly.journOrder env a.book order exec
      Swirly.preparePosn env a
      Swirly.prepareResp env a
      modify (Ctx.commitOrder a order exec))) :=
    Preserves.withFinally (placeOrder.bind (fun _ => journOrder.bind (fun _ =>
      preparePosn.bind (fun _ => prepareResp.bind (fun _ =>
        Preserves.update (fun c h => commitOrder h order exec))))))
      (fun c h => h.of_eq rfl rfl)
  exact htail c₂ h₂

end SameRecords

end Swirly
