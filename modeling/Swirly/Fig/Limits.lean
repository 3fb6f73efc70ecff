import Swirly.Fig.Machine
import Swirly.Fig.PriceTime

/-!
# Swirly.Fig.Limits

**Prices near the ends of the range.** Two prices are compared by the sign of their difference,
and bids are put in order by their negations; neither is right when the result does not fit.
`prices_right_iff` says when it is: for a pair of prices, for two keys, and for every trade that
any run journals, whatever fails on the way.

The run part needs one fact about each trade, that the code saw its spread as no more than zero
(`Exec.Crossed`). It holds of every match when it is made, so of all that is journaled.
-/

namespace Swirly

open Lib (Heap Fits Arith int64 wrap)
open Lib.Effect
open Relation (ReflTransGen)

/-! ### A trade and its limit -/

namespace Exec

/-- How far the price of the trade is behind the limit of the order. -/
def behind (e : Exec) : Int :=
  if e.side = .buy then e.lastTicks - e.ticks else e.ticks - e.lastTicks

/-- The price of the trade is within the limit of the order. -/
def WithinLimit (e : Exec) : Prop :=
  if e.side = .buy then e.lastTicks ≤ e.ticks else e.ticks ≤ e.lastTicks

instance WithinLimit.instDecidable {e : Exec} : Decidable e.WithinLimit := by
  unfold WithinLimit
  infer_instance

/-- The code saw the prices of the trade cross. -/
structure Crossed (w : Arith) (e : Exec) : Prop where
  ticks : Fits int64 e.ticks
  lastTicks : Fits int64 e.lastTicks
  behind : w e.behind ≤ 0

/-- **The sign of the wrapped difference** decides whether what was seen is so. -/
theorem Crossed.within_iff {e : Exec} (h : e.Crossed (wrap int64)) :
    e.WithinLimit ↔ Fits int64 e.behind := by
  obtain ⟨⟨hlow, hhigh⟩, ⟨hlow', hhigh'⟩, hseen⟩ := h
  have hwithin : e.WithinLimit ↔ e.behind ≤ 0 := by
    unfold WithinLimit Exec.behind
    split <;> omega
  have hbounds : -(2 * int64) < e.behind ∧ e.behind < 2 * int64 := by
    unfold Exec.behind
    split <;> omega
  rw [hwithin, ← Lib.wrap_nonpos_iff hbounds.1 hbounds.2]
  simp only [hseen, true_iff]

end Exec

/-! ### What no part of the call changes -/

section Ticks

variable (w : Arith) (h : Heap Order) (p q : OrderPtr)

theorem BookSide.insertOrder64_ticks (b : BookSide) :
    ((b.insertOrder64 w h p).1 q).ticks = (h q).ticks := by
  have hheap : (b.insertOrder64 w h p).1 =
      h.modify p (Order.setLevel · (some ((h p).key64 w))) := by
    unfold insertOrder64
    dsimp only
    split <;> rfl
  rw [hheap]
  exact Heap.proj_modify Order.ticks (by rfl) q

theorem BookSide.removeFrom64_ticks (b : BookSide) (k : Int) :
    ((b.removeFrom64 w h k p).1 q).ticks = (h q).ticks :=
  Heap.proj_modify (f := (Order.setLevel · none)) Order.ticks rfl q

theorem BookSide.removeOrder64_ticks (b : BookSide) :
    ((b.removeOrder64 w h p).1 q).ticks = (h q).ticks := by
  unfold removeOrder64
  split
  · exact b.removeFrom64_ticks w h p q _
  · rfl

theorem BookSide.takeOrder64_ticks (b : BookSide) (lots now : Int) :
    ((b.takeOrder64 w h p lots now).1 q).ticks = (h q).ticks := by
  have htrade : ∀ h' : Heap Order,
      (h'.modify p (fun o => o.tradeLast64 w lots o.ticks now) q).ticks = (h' q).ticks :=
    fun h' => Heap.proj_modify Order.ticks (by rfl) q
  unfold takeOrder64
  cases (h p).level with
  | none => exact htrade h
  | some k =>
      refine (htrade _).trans ?_
      show ((b.reduceLevel64 w h k p lots).1 q).ticks = (h q).ticks
      unfold reduceLevel64
      split
      · rfl
      · exact b.removeFrom64_ticks w h p q k

end Ticks

/-- A trade of the taker is as far behind its limit as the spread says. -/
theorem Exec.behind_eq_spread {e : Exec} (takerOrder makerOrder : Order)
    (hside : e.side = takerOrder.side) (hticks : e.ticks = takerOrder.ticks)
    (hlast : e.lastTicks = makerOrder.ticks) :
    e.behind = spread takerOrder makerOrder takerOrder.side.direct := by
  unfold Exec.behind spread Side.direct
  rw [hside, hticks, hlast]
  cases takerOrder.side <;> simp

/-! ### Every match the code makes -/

/-- The prices are words, and the code saw the prices of every trade cross. -/
structure Priced (w : Arith) (s : Serv) : Prop where
  ticks : ∀ p, Fits int64 (s.heap p).ticks
  matchVec : ∀ m ∈ s.matchVec, m.makerTrade.Crossed w ∧ m.takerTrade.Crossed w
  journ : ∀ e ∈ s.journ, e.state = .trade → e.Crossed w

namespace Priced

variable {w : Arith} {s s' : Serv} {env : Env} {c : Ctx} {a : OrderArgs}

theorem of_ticks (hs : Priced w s) (hticks : ∀ q, (s'.heap q).ticks = (s.heap q).ticks)
    (hmv : s'.matchVec = s.matchVec) (hjourn : s'.journ = s.journ) : Priced w s' where
  ticks p := by rw [hticks]; exact hs.ticks p
  matchVec := by rw [hmv]; exact hs.matchVec
  journ := by rw [hjourn]; exact hs.journ

theorem insertOrder64 (hs : Priced w s) (m : Mnem) (p : OrderPtr) :
    Priced w (s.insertOrder64 w m p) :=
  hs.of_ticks (fun q => BookSide.insertOrder64_ticks w s.heap p q _) rfl rfl

theorem removeOrder64 (hs : Priced w s) (m : Mnem) (p : OrderPtr) :
    Priced w (s.removeOrder64 w m p) :=
  hs.of_ticks (fun q => BookSide.removeOrder64_ticks w s.heap p q _) rfl rfl

theorem takeOrder64 (hs : Priced w s) (m : Mnem) (p : OrderPtr) (lots now : Int) :
    Priced w (s.takeOrder64 w m p lots now) :=
  hs.of_ticks (fun q => BookSide.takeOrder64_ticks w s.heap p q _ lots now) rfl rfl

theorem clearMatches (hs : Priced w s) : Priced w s.clearMatches :=
  ⟨hs.ticks, by simp [Serv.clearMatches], hs.journ⟩

theorem pushMatch (hs : Priced w s) {m : Match} (hmaker : m.makerTrade.Crossed w)
    (htaker : m.takerTrade.Crossed w) : Priced w (s.pushMatch m) where
  ticks := hs.ticks
  matchVec m' hm' := by
    rcases List.mem_append.mp hm' with hm' | hm'
    · exact hs.matchVec m' hm'
    · obtain rfl := List.mem_singleton.mp hm'
      exact ⟨hmaker, htaker⟩
  journ := hs.journ

/-- The journal gets a new execution and the trades of the matches. -/
theorem accepted (hs : Priced w s) {exec : Exec} (hnew : exec.state = .new) :
    Priced w { s with journ := s.journ ++ journExecs exec s.matchVec } where
  ticks := hs.ticks
  matchVec := hs.matchVec
  journ e he hstate := by
    rcases List.mem_append.mp he with he | he
    · exact hs.journ e he hstate
    · rcases List.mem_cons.mp he with rfl | he
      · rw [hnew] at hstate
        cases hstate
      · obtain ⟨m, hm, hem⟩ := List.mem_flatMap.mp he
        obtain ⟨hmaker, htaker⟩ := hs.matchVec m hm
        rcases List.mem_pair.mp hem with rfl | rfl
        · exact hmaker
        · exact htaker

/-! ### The parts of the call -/

/-- `newMatch`, for prices that the code saw cross. -/
theorem newMatch64 (hw : w.Faithful int64) (hs : Priced w c.serv) {i : Nat} {book : Mnem}
    {taker p : OrderPtr} {lots sumLots sumCost now : Int}
    (hseen : spread64 w (c.serv.heap taker) (c.serv.heap p)
      (c.serv.heap taker).side.direct ≤ 0) :
    wp (Swirly.newMatch64 w env i book taker p lots sumLots sumCost now)
      (fun m c' => c'.serv.heap = c.serv.heap ∧ Priced w c'.serv ∧
        m.makerTrade.Crossed w ∧ m.takerTrade.Crossed w)
      (fun _ c' => Priced w c'.serv) c := by
  have hzero : w 0 = 0 := hw 0 ⟨by decide, by decide⟩
  have hp := hs.ticks p
  have htaker := hs.ticks taker
  have hsame : ∀ s', s'.heap = c.serv.heap → s'.matchVec = c.serv.matchVec →
      s'.journ = c.serv.journ → Priced w s' :=
    fun s' hheap hmv hjourn => hs.of_ticks (fun q => by rw [hheap]) hmv hjourn
  unfold Swirly.newMatch64
  simp only [wp_bind, allocExecId_wp, wp_get, lazyPosn_wp, allocate_wp, wp_pure]
  refine ⟨fun _ => ⟨fun _ => ⟨fun _ => ⟨rfl, hsame _ rfl rfl rfl, ⟨hp, hp, ?_⟩, htaker, hp, ?_⟩,
    fun _ => hsame _ rfl rfl rfl⟩, fun _ => hsame _ rfl rfl rfl⟩, fun _ => hsame _ rfl rfl rfl⟩
  · -- The maker trades at its own price.
    have hbehind : ∀ e : Exec, e.lastTicks = e.ticks → e.behind = 0 := by
      intro e he
      simp [Exec.behind, he]
    rw [hbehind _ rfl, hzero]
  · rw [spread64_eq] at hseen
    rw [Exec.behind_eq_spread (c.serv.heap taker) (c.serv.heap p) rfl rfl rfl]
    exact hseen

theorem matchLoop64 (hw : w.Faithful int64) {book : Mnem} {taker : OrderPtr} {direct : Direct}
    {now : Int} (orders : List OrderPtr) (i : Nat) (sums : Sums) (c : Ctx) (hs : Priced w c.serv)
    (hd : direct = (c.serv.heap taker).side.direct) :
    wp (Swirly.matchLoop64 w env book taker direct now i orders sums)
      (fun _ c' => Priced w c'.serv) (fun _ c' => Priced w c'.serv) c := by
  induction orders generalizing i sums c with
  | nil => exact hs
  | cons p orders ih =>
      unfold Swirly.matchLoop64
      simp only [wp_bind, wp_get, wp_ite, wp_pure]
      refine ⟨fun _ => hs, fun _ => ⟨fun _ => hs, fun hseen => ?_⟩⟩
      rw [hd] at hseen
      refine wp_mono (newMatch64 hw hs (not_lt.mp hseen)) (fun m c' hm => ?_) (fun _ _ h => h)
      obtain ⟨hheap, hs', hmaker, htaker⟩ := hm
      simp only [wp_bind, allocate_wp, modifyServ_wp]
      refine ⟨fun _ => ?_, fun _ => hs'⟩
      refine ih (i + 1) _ _ (hs'.pushMatch hmaker htaker) ?_
      show direct = (c'.serv.heap taker).side.direct
      rw [hheap]
      exact hd

theorem matchOrders64 (hw : w.Faithful int64) {book : Mnem} {p : OrderPtr} {now : Int} :
    Preserves (fun c => Priced w c.serv) (Swirly.matchOrders64 w env book p now) := by
  intro c hs
  unfold Swirly.matchOrders64 matchSide64
  simp only [wp_bind, wp_get]
  refine wp_mono (matchLoop64 hw _ 0 {} c hs rfl) (fun sums c' hs' => ?_) (fun _ _ h => h)
  simp only [wp_bind, wp_get, wp_ite, modifyServ_wp, wp_pure]
  refine ⟨fun _ => ?_, fun _ => hs'⟩
  exact hs'.of_ticks (fun q => Heap.proj_modify
    (f := (Order.trade64 w · sums.sumLots sums.sumCost sums.lastLots sums.lastTicks now))
    Order.ticks rfl q) rfl rfl

theorem openOrder (hs : Priced w c.serv) (ha : Fits int64 a.ticks) :
    wp (Swirly.openOrder env a) (fun r c' => Priced w c'.serv ∧ r.2.state = .new)
      (fun _ c' => Priced w c'.serv) c := by
  have hopened : ∀ s', s'.matchVec = c.serv.matchVec → s'.journ = c.serv.journ →
      (∀ q, (s'.heap q).ticks = (c.serv.heap q).ticks ∨ (s'.heap q).ticks = a.ticks) →
      Priced w s' := by
    intro s' hmv hjourn hticks
    refine ⟨fun q => ?_, hmv ▸ hs.matchVec, hjourn ▸ hs.journ⟩
    rcases hticks q with h | h
    · rw [h]; exact hs.ticks q
    · rw [h]; exact ha
  have halloc : ∀ (h : Heap Order) (o : Order) q, o.ticks = a.ticks →
      (h.alloc o q).ticks = (h q).ticks ∨ (h.alloc o q).ticks = a.ticks := by
    intro h o q ho
    by_cases hq : q = h.next
    · subst hq
      rw [Heap.alloc_self]
      exact Or.inr ho
    · exact Or.inl (by simp [Heap.alloc, Function.update_of_ne hq])
  unfold Swirly.openOrder
  simp only [wp_bind, allocOrderId_wp, wp_get, allocate_wp, modifyServ_wp, allocExecId_wp,
    wp_pure]
  refine ⟨fun _ => ⟨fun _ => ⟨hopened _ rfl rfl (fun q => halloc _ _ q rfl), ?_⟩,
    fun _ => hopened _ rfl rfl (fun q => halloc _ _ q rfl)⟩,
    fun _ => hopened _ rfl rfl (fun _ => Or.inl rfl)⟩
  rfl

theorem commitMatch64 (hs : Priced w c.serv) (sess : Mnem) (now : Int) (m : Match) :
    Priced w (c.commitMatch64 w sess now m).serv := by
  have htake : Priced w (c.takeOrder64 w m.makerOrder m.lots now).serv := by
    unfold Ctx.takeOrder64
    split
    · exact hs.takeOrder64 _ _ _ _
    · exact hs
  unfold Ctx.commitMatch64 Ctx.addTrade64
  dsimp only
  split <;> exact htake.of_ticks (fun _ => rfl) rfl rfl

theorem commitOrder64 (hs : Priced w c.serv) (order : OrderPtr) (exec : Exec) :
    Priced w (c.commitOrder64 w a order exec).serv := by
  have hloop : ∀ (ms : List Match) (c : Ctx), Priced w c.serv →
      Priced w (ms.foldl (Ctx.commitMatch64 w a.sess a.now) c).serv := by
    intro ms
    induction ms with
    | nil => exact fun _ h => h
    | cons m ms ih => exact fun c h => ih _ (h.commitMatch64 a.sess a.now m)
  have hinsert : Priced w (c.serv.insertSessOrder a.sess order) :=
    hs.of_ticks (fun _ => rfl) rfl rfl
  unfold Ctx.commitOrder64
  dsimp only
  split
  · exact hloop _ _ hinsert
  · exact hinsert

theorem placeOrder64 {book : Mnem} {p : OrderPtr} :
    Preserves (fun c => Priced w c.serv) (Swirly.placeOrder64 w env book p) := by
  intro c hs
  unfold Swirly.placeOrder64
  simp only [wp_bind, wp_get, wp_ite, allocate_wp, modifyServ_wp, wp_pure]
  exact ⟨fun _ => hs, fun _ => ⟨fun _ => ⟨fun _ => hs.insertOrder64 book p, fun _ => hs⟩,
    fun _ => hs.insertOrder64 book p⟩⟩

theorem journOrder64 {book : Mnem} {p : OrderPtr} {exec : Exec} (hnew : exec.state = .new) :
    Preserves (fun c => Priced w c.serv) (Swirly.journOrder64 w env book p exec) := by
  refine Preserves.onFailure (Preserves.ite (fun _ => ?_) (fun _ => Preserves.throw _))
    (fun c hs => ?_)
  · exact Preserves.update (fun c hs => hs.accepted hnew)
  · split
    · exact hs
    · exact hs.removeOrder64 book p

theorem preparePosn : Preserves (fun c => Priced w c.serv) (Swirly.preparePosn env a) := by
  intro c hs
  unfold Swirly.preparePosn
  simp only [wp_bind, wp_get, wp_ite, lazyPosn_wp, modifyResp_wp, wp_pure]
  exact ⟨fun _ => ⟨fun _ => hs.of_ticks (fun _ => rfl) rfl rfl, fun _ => hs⟩, fun _ => hs⟩

theorem prepareResp : Preserves (fun c => Priced w c.serv) (Swirly.prepareResp env a) := by
  intro c hs
  unfold Swirly.prepareResp reserveOrders reserveExecs
  simp only [wp_bind, wp_get, wp_ite, allocate_wp, modifyResp_wp, hs, implies_true, and_self]

/-- **Every call**, whatever it meets. -/
theorem createOrder64 (hw : w.Faithful int64) (ha : Fits int64 a.ticks) :
    Preserves (fun c => Priced w c.serv) (Swirly.createOrder64 w env a) := by
  intro c hs
  unfold Swirly.createOrder64 checkOrder
  simp only [wp_bind, wp_get, wp_ite, wp_throw, wp_pure]
  refine ⟨fun _ => hs, fun _ => ⟨fun _ => hs, fun _ => ?_⟩⟩
  refine wp_mono (openOrder hs ha) (fun r c₁ h₁ => ?_) (fun _ _ h => h)
  obtain ⟨order, exec⟩ := r
  obtain ⟨hs₁, hnew⟩ := h₁
  rw [wp_bind]
  refine wp_mono (matchOrders64 hw c₁ hs₁) (fun _ c₂ hs₂ => ?_) (fun _ _ h => h)
  have htail : Preserves (fun c => Priced w c.serv) (withFinally Ctx.clearMatches (do
      Swirly.placeOrder64 w env a.book order
      Swirly.journOrder64 w env a.book order exec
      Swirly.preparePosn env a
      Swirly.prepareResp env a
      modify (Ctx.commitOrder64 w a order exec))) :=
    Preserves.withFinally (placeOrder64.bind (fun _ => (journOrder64 hnew).bind (fun _ =>
      preparePosn.bind (fun _ => prepareResp.bind (fun _ =>
        Preserves.update (fun c hs => hs.commitOrder64 order exec))))))
      (fun c hs => hs.clearMatches)
  exact htail c₂ hs₂

end Priced

/-! ### Runs -/

/-- One call of the machine's `createOrder`, at any price there is. -/
def PricedCall (s s' : Serv) : Prop :=
  ∃ env a resp, Fits int64 a.ticks ∧
    s' = ((createOrder64 (wrap int64) env a).final ⟨s, resp⟩).serv

theorem Priced.run {s₀ s : Serv} (h₀ : Priced (wrap int64) s₀)
    (hrun : ReflTransGen PricedCall s₀ s) : Priced (wrap int64) s := by
  induction hrun with
  | refl => exact h₀
  | tail _ hstep ih =>
      obtain ⟨env, a, resp, ha, rfl⟩ := hstep
      exact (Priced.createOrder64 (Lib.wrap_faithful int64) ha).final ih

/-- **When prices are compared right.** A pair of prices crosses for the code exactly if it
does, exactly if their difference fits in a word; two keys of a side are in the order of the
prices exactly if not just one of them is of a bid whose negation does not fit; and a trade
that any run journals is within the limit of its order exactly if the difference of its price
and the limit fits. -/
theorem prices_right_iff (takerOrder makerOrder : Order) (side : Side) (a b : Int) (s₀ s : Serv) :
    (Fits int64 takerOrder.ticks → Fits int64 makerOrder.ticks →
      ((spread64 (wrap int64) takerOrder makerOrder takerOrder.side.direct ≤ 0 ↔
          PriceTime.Within takerOrder makerOrder) ↔
        Fits int64 (spread takerOrder makerOrder takerOrder.side.direct))) ∧
    (Fits int64 a → Fits int64 b →
      ((composeKey64 (wrap int64) side a < composeKey64 (wrap int64) side b ↔
          side.Better a b) ↔
        (side = .buy → (Fits int64 (-a) ↔ Fits int64 (-b))))) ∧
    (s₀.matchVec = [] → s₀.journ = [] → (∀ p, Fits int64 (s₀.heap p).ticks) →
      ReflTransGen PricedCall s₀ s →
      ∀ e ∈ s.journ, e.state = .trade → (e.WithinLimit ↔ Fits int64 e.behind)) := by
  refine ⟨fun ht hm => ?_, composeKey64_lt_iff, fun hmv hjourn hticks hrun e he hstate => ?_⟩
  · have hbounds : -(2 * int64) < spread takerOrder makerOrder takerOrder.side.direct ∧
        spread takerOrder makerOrder takerOrder.side.direct < 2 * int64 := by
      obtain ⟨htlow, hthigh⟩ := ht
      obtain ⟨hmlow, hmhigh⟩ := hm
      unfold spread
      split <;> omega
    have hwithin : PriceTime.Within takerOrder makerOrder ↔
        spread takerOrder makerOrder takerOrder.side.direct ≤ 0 := by
      rw [PriceTime.within_iff, crosses, decide_eq_true_iff]
    rw [spread64_eq, hwithin]
    exact Lib.wrap_nonpos_iff hbounds.1 hbounds.2
  · have h₀ : Priced (wrap int64) s₀ := ⟨hticks, by simp [hmv], by simp [hjourn]⟩
    exact ((h₀.run hrun).journ e he hstate).within_iff

namespace Mock

/-- MARAYL offers a lot at the highest price there is. -/
def far : Serv := serv.call64 env (order marayl .sell 1 (2 ^ 63 - 1))

/-- SWIRLY bids for one at -2. -/
def farBid : Serv := far.call64 env (order swirly .buy 1 (-2))

theorem farBid_run : ReflTransGen PricedCall serv farBid :=
  (ReflTransGen.single ⟨env, order marayl .sell 1 (2 ^ 63 - 1), {}, by decide, rfl⟩).tail
    ⟨env, order swirly .buy 1 (-2), {}, by decide, rfl⟩

end Mock

/-- The pair, two bids and the run. -/
theorem farBid_prices :
    ((spread64 (wrap int64) (Mock.farBid.heap 1) (Mock.farBid.heap 0) .paid ≤ 0 ↔
        PriceTime.Within (Mock.farBid.heap 1) (Mock.farBid.heap 0)) ↔
      Fits int64 (spread (Mock.farBid.heap 1) (Mock.farBid.heap 0) .paid)) ∧
    ((composeKey64 (wrap int64) .buy (-2 ^ 63) < composeKey64 (wrap int64) .buy 5 ↔
        Side.buy.Better (-2 ^ 63) 5) ↔ (Fits int64 (- -2 ^ 63) ↔ Fits int64 (-5))) ∧
    ∀ e ∈ Mock.farBid.journ, e.state = .trade → (e.WithinLimit ↔ Fits int64 e.behind) := by
  obtain ⟨hcross, hkeys, hrun⟩ := prices_right_iff (Mock.farBid.heap 1) (Mock.farBid.heap 0) .buy
    (-2 ^ 63) 5 Mock.serv Mock.farBid
  refine ⟨hcross (by decide) (by decide), ?_, ?_⟩
  · exact (hkeys (by decide) (by decide)).trans (forall_prop_of_true rfl)
  · exact hrun rfl rfl (fun _ => show Fits int64 0 by decide) Mock.farBid_run

/-- **A bid at -2 lifts the offer at the highest price**, as the difference of the two is out of
the range; and the worst bid there is has the key of the best. -/
theorem farBid_beyond :
    (spread64 (wrap int64) (Mock.farBid.heap 1) (Mock.farBid.heap 0) .paid ≤ 0 ∧
      ¬ PriceTime.Within (Mock.farBid.heap 1) (Mock.farBid.heap 0)) ∧
    (composeKey64 (wrap int64) .buy (-2 ^ 63) < composeKey64 (wrap int64) .buy 5 ∧
      ¬ Side.buy.Better (-2 ^ 63) 5) ∧
    ∃ e ∈ Mock.farBid.journ, e.state = .trade ∧ e.ticks = -2 ∧ e.lastTicks = 2 ^ 63 - 1 ∧
      ¬ e.WithinLimit := by
  exact ⟨by decide, ⟨by decide, by unfold Side.Better; decide⟩, by decide⟩

end Swirly
