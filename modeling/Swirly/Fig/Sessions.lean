import Swirly.Fig.History
import Swirly.Fig.PriceTime

/-!
# Swirly.Fig.Sessions

**Sessions, books and journal say the same about every order.** `Held` is what is known
of one order in a trader's session: its fields are those its set entry is sorted by, it
rests in its book as long as it has residual lots, and the journal tells its history.
`SessInv` adds that no two entries share market and id, and that every resting order
has an entry in the session of its own trader.

`ServInv` is the invariant of the whole service, kept by every call (`ServInv.step`).
-/

namespace Swirly

open Lib (Heap KeySet Table)

/-- What is known of the entry `n` in the session of trader `u`. -/
structure Held (s : Serv) (u : Mnem) (n : OrderNode) : Prop where
  lt_next : n.order < s.heap.next
  book : n.market ∈ s.markets.keys
  market : (s.heap n.order).market = n.market
  id : (s.heap n.order).id = n.id
  trader : (s.heap n.order).trader = u
  id_le : n.id ≤ (s.markets.get n.market).maxOrderId
  resd_nonneg : 0 ≤ (s.heap n.order).resd
  rests : 0 < (s.heap n.order).resd →
    n.order ∈ ((s.markets.get n.market).side (s.heap n.order).side).orders
  history : History (execsOf n.market n.id s.journ) (s.heap n.order)

/-- The entries of a trader's session. -/
def Serv.nodes (s : Serv) (u : Mnem) : List OrderNode := (s.traders.get u).orders.elems

/-- The orders of all sessions: each entry is about an order of its trader, no id is held twice,
and what rests in a book or was journaled is held by its trader. -/
structure SessInv (s : Serv) : Prop where
  held : ∀ u ∈ s.traders.keys, ∀ n ∈ s.nodes u, Held s u n
  unique : ∀ u ∈ s.traders.keys, ∀ n ∈ s.nodes u, ∀ u' ∈ s.traders.keys, ∀ n' ∈ s.nodes u',
    n.key = n'.key → n = n'
  owned : ∀ m ∈ s.markets.keys, ∀ sd, ∀ p ∈ ((s.markets.get m).side sd).orders,
    (s.heap p).trader ∈ s.traders.keys ∧ ⟨m, (s.heap p).id, p⟩ ∈ s.nodes (s.heap p).trader
  /-- What is journaled is about an order that its trader's session holds. -/
  logged : ∀ e ∈ s.journ, ∃ n ∈ s.nodes e.trader, n.market = e.market ∧ n.id = e.orderId

theorem OrderNode.key_eq_iff {n n' : OrderNode} :
    n.key = n'.key ↔ n.market = n'.market ∧ n.id = n'.id := by
  simp [OrderNode.key]

namespace SessInv

variable {s s' : Serv} {a : OrderArgs}

/-- The ids of resting orders are unique in their market. -/
theorem resting_inj (hi : SessInv s) {m : Mnem} (hm : m ∈ s.markets.keys) {sd sd' : Side}
    {p q : OrderPtr} (hp : p ∈ ((s.markets.get m).side sd).orders)
    (hq : q ∈ ((s.markets.get m).side sd').orders) (hid : (s.heap p).id = (s.heap q).id) :
    p = q := by
  obtain ⟨hu, hn⟩ := hi.owned m hm sd p hp
  obtain ⟨hu', hn'⟩ := hi.owned m hm sd' q hq
  have heq := hi.unique _ hu _ hn _ hu' _ hn' (OrderNode.key_eq_iff.mpr ⟨rfl, hid⟩)
  exact congrArg OrderNode.order heq

/-- A resting order with the market and id of an entry is the entry's order. -/
theorem eq_of_id (hi : SessInv s) {u : Mnem} (hu : u ∈ s.traders.keys) {n : OrderNode}
    (hn : n ∈ s.nodes u) {m : Mnem} (hm : m ∈ s.markets.keys) {sd : Side} {p : OrderPtr}
    (hp : p ∈ ((s.markets.get m).side sd).orders) (hmarket : n.market = m)
    (hid : (s.heap p).id = n.id) : p = n.order := by
  obtain ⟨hu', hn'⟩ := hi.owned m hm sd p hp
  have heq := hi.unique _ hu' _ hn' _ hu _ hn (OrderNode.key_eq_iff.mpr ⟨hmarket.symm, hid⟩)
  exact congrArg OrderNode.order heq

/-! ### A call that does not commit -/

theorem ext (hi : SessInv s) (hb : BooksOk s) (he : Ext a.book s s') : SessInv s' := by
  have hnodes : ∀ u, s'.nodes u = s.nodes u := fun u => by
    unfold Serv.nodes
    rw [(he.sess u).orders]
  refine ⟨fun u hu n hn => ?_, fun u hu n hn u' hu' n' hn' => ?_, fun m hm sd p hp => ?_,
    fun e hmem => ?_⟩
  · rw [he.traderKeys] at hu
    rw [hnodes] at hn
    have hh := hi.held u hu n hn
    have hheap := he.heap n.order hh.lt_next
    refine ⟨lt_of_lt_of_le hh.lt_next he.next, he.marketKeys ▸ hh.book, ?_, ?_, ?_,
      hh.id_le.trans (he.maxOrderId_le _), ?_, ?_, ?_⟩ <;> rw [hheap]
    · exact hh.market
    · exact hh.id
    · exact hh.trader
    · exact hh.resd_nonneg
    · rw [he.side]; exact hh.rests
    · rw [he.journ]; exact hh.history
  · rw [he.traderKeys] at hu hu'
    rw [hnodes] at hn hn'
    exact hi.unique u hu n hn u' hu' n' hn'
  · rw [he.marketKeys] at hm
    rw [he.side] at hp
    rw [he.heap p ((hb m hm sd).rests p hp).lt_next, he.traderKeys, hnodes]
    exact hi.owned m hm sd p hp
  · rw [he.journ] at hmem
    rw [hnodes]
    exact hi.logged e hmem

/-! ### A call that commits -/

/-- The entry of the new order. -/
def newNode (s : Serv) (a : OrderArgs) : OrderNode :=
  ⟨a.book, (s.markets.get a.book).maxOrderId + 1, s.heap.next⟩

theorem not_key_newNode (hi : SessInv s) {u : Mnem} (hu : u ∈ s.traders.keys) {n : OrderNode}
    (hn : n ∈ s.nodes u) : n.key ≠ (newNode s a).key := by
  intro hkey
  obtain ⟨hmarket, hid⟩ := OrderNode.key_eq_iff.mp hkey
  have hle := (hi.held u hu n hn).id_le
  rw [hmarket] at hle
  have hid' : n.id = (s.markets.get a.book).maxOrderId + 1 := hid
  have hle' : n.id ≤ (s.markets.get a.book).maxOrderId := hle
  omega

section Traded

variable (hi : SessInv s) (hb : BooksOk s) (hv : a.Valid s) (ht : Traded s s' a)

include hi hv ht

/-- The new order gets an entry in the session that created it. -/
theorem mem_nodes (u : Mnem) (n : OrderNode) :
    n ∈ s'.nodes u ↔ n ∈ s.nodes u ∨ u = a.sess ∧ n = newNode s a := by
  obtain ⟨T, -, hext, -, hpost⟩ := ht.sessions
  have horders : ∀ u, (T.get u).orders = (s.traders.get u).orders := fun u => (hext u).orders
  have hnew : (⟨(s.takerPlaced a).market, (s.takerPlaced a).id, s.heap.next⟩ : OrderNode) =
      newNode s a := by
    rw [Serv.takerPlaced_proj (fun o : Order => o.market) (fun _ _ => rfl),
      Serv.takerPlaced_proj (fun o : Order => o.id) (fun _ _ => rfl),
      Serv.taker_market hv.book, Serv.taker_id]
    rfl
  unfold Serv.nodes
  rw [hpost, Sessions.post_get, TraderSess.foldl_post_orders, Table.modify_get]
  split
  · next heq =>
      have hfresh : (s.traders.get a.sess).orders.find? (newNode s a).key = none :=
        KeySet.find?_eq_none_iff.mpr (fun n hn => hi.not_key_newNode hv.sess hn)
      rw [TraderSess.insertOrder_orders, hnew, horders, KeySet.mem_insert hfresh, heq]
      simp [or_comm]
  · next hne =>
      rw [horders]
      simp [hne]

include hb

/-- The journal goes on with the batch of the call. -/
theorem history_old {u : Mnem} (hu : u ∈ s.traders.keys) {n : OrderNode} (hn : n ∈ s.nodes u) :
    History (execsOf n.market n.id s'.journ) (s'.heap n.order) := by
  have hh := hi.held u hu n hn
  have hjourn : execsOf n.market n.id s'.journ =
      execsOf n.market n.id s.journ ++ execsOf n.market n.id (s.batch a) := by
    rw [ht.journ]
    exact execsOf_append _ _ _ _
  rw [hjourn]
  by_cases hmaker : n.order ∈ (s.fills a).map Prod.fst
  · obtain ⟨f, hf, hforder⟩ := List.mem_map.mp hmaker
    have hmem := mem_orders_of_mem_fillsOf hf
    have hmarket : n.market = a.book := by
      have hrest := (hb a.book hv.book a.side.opposite).rests f.1 hmem
      rw [← hh.market, ← hforder, hrest.market, s.markets.key_get a.book hv.book]
    -- The match of this fill.
    have hfill : f ∈ (s.newMatches a).map (fun m => (m.makerOrder, m.lots)) := by
      rwa [s.newMatches_map a]
    obtain ⟨m, hm, hmf⟩ := List.mem_map.mp hfill
    have horder : m.makerOrder = n.order := by rw [← hforder, ← hmf]
    have hone : execsOf n.market n.id (s.batch a) = [m.makerTrade] := by
      have hmk := Serv.execsOf_maker hb hv (fun p hp q hq hid =>
        hi.resting_inj hv.book hp hq hid) hm
      rwa [horder, hh.id, ← hmarket] at hmk
    have hlots : f.2 = m.lots := by rw [← hmf]
    rw [hone, ← hforder, ht.heap_maker f hf, hlots, hforder]
    obtain ⟨g, -, sums, id, rfl⟩ := mem_buildMatches hm
    have hg : g.1 = n.order := horder
    have htaken := hh.history.taken id a.now g.2 (id + 1) (s.newOrder a).trader
    rwa [← hg] at htaken ⊢
  · have hnone : execsOf n.market n.id (s.batch a) = [] := by
      refine Serv.execsOf_other hb hv (fun hmarket => ?_) (fun f hf hmarket hid => ?_)
      · have hle := hh.id_le
        rw [hmarket] at hle
        omega
      · have heq := hi.eq_of_id hu hn hv.book (mem_orders_of_mem_fillsOf hf) hmarket hid
        exact hmaker (heq ▸ List.mem_map_of_mem hf)
    rw [hnone, List.append_nil, ht.heap_old n.order hh.lt_next hmaker]
    exact hh.history

theorem resd_nonneg_old {u : Mnem} (hu : u ∈ s.traders.keys) {n : OrderNode}
    (hn : n ∈ s.nodes u) : 0 ≤ (s'.heap n.order).resd := by
  have hh := hi.held u hu n hn
  by_cases hmaker : n.order ∈ (s.fills a).map Prod.fst
  · obtain ⟨f, hf, hforder⟩ := List.mem_map.mp hmaker
    have hle := (hb.fill_bounds hv.book hv.lots.le f hf).2
    rw [← hforder, ht.heap_maker f hf, Order.taken_resd]
    omega
  · rw [ht.heap_old n.order hh.lt_next hmaker]
    exact hh.resd_nonneg

theorem resd_le_old {u : Mnem} (hu : u ∈ s.traders.keys) {n : OrderNode}
    (hn : n ∈ s.nodes u) : (s'.heap n.order).resd ≤ (s.heap n.order).resd := by
  have hh := hi.held u hu n hn
  by_cases hmaker : n.order ∈ (s.fills a).map Prod.fst
  · obtain ⟨f, hf, hforder⟩ := List.mem_map.mp hmaker
    have hpos := (hb.fill_bounds hv.book hv.lots.le f hf).1
    rw [← hforder, ht.heap_maker f hf, Order.taken_resd]
    omega
  · rw [ht.heap_old n.order hh.lt_next hmaker]

/-- An entry that was there before the call. -/
theorem held_old {u : Mnem} (hu : u ∈ s.traders.keys) {n : OrderNode} (hn : n ∈ s.nodes u) :
    Held s' u n := by
  have hh := hi.held u hu n hn
  have hproj : ∀ {β : Type} (π : Order → β), (∀ (o : Order) level, π (o.setLevel level) = π o) →
      (∀ (o : Order) lots cost lastLots lastTicks now,
        π (o.trade lots cost lastLots lastTicks now) = π o) →
      π (s'.heap n.order) = π (s.heap n.order) :=
    fun π hlevel htrade => ht.proj_old π hlevel htrade hh.lt_next
  exact {
    lt_next := by rw [ht.next]; exact Nat.lt_succ_of_lt hh.lt_next
    book := ht.marketKeys ▸ hh.book
    market := (hproj (fun o => o.market) (fun _ _ => rfl) (fun _ _ _ _ _ _ => rfl)).trans hh.market
    id := (hproj (fun o => o.id) (fun _ _ => rfl) (fun _ _ _ _ _ _ => rfl)).trans hh.id
    trader := (hproj (fun o => o.trader) (fun _ _ => rfl) (fun _ _ _ _ _ _ => rfl)).trans hh.trader
    id_le := by
      have hle := hh.id_le
      rw [ht.maxOrderId]
      split <;> omega
    resd_nonneg := resd_nonneg_old hi hb hv ht hu hn
    rests := by
      intro hpos
      have hle := resd_le_old hi hb hv ht hu hn
      rw [hproj (fun o => o.side) (fun _ _ => rfl) (fun _ _ _ _ _ _ => rfl)]
      exact (ht.mem n.market hh.book _ n.order).mpr
        ⟨Or.inl (hh.rests (lt_of_lt_of_le hpos hle)), hpos⟩
    history := history_old hi hb hv ht hu hn }

omit hi

/-- The entry of the new order. -/
theorem held_new (hj : LedgerInv s s.journ) (hmv : s.matchVec = []) :
    Held s' a.sess (newNode s a) := by
  have hproj : ∀ {β : Type} (π : Order → β), (∀ (o : Order) level, π (o.setLevel level) = π o) →
      (∀ (o : Order) lots cost lastLots lastTicks now,
        π (o.trade lots cost lastLots lastTicks now) = π o) →
      π (s'.heap s.heap.next) = π (s.newOrder a) :=
    fun π hlevel htrade => (ht.taker_proj π hlevel).trans (Serv.taker_proj π htrade)
  have hside : (s'.heap s.heap.next).side = a.side :=
    hproj (fun o => o.side) (fun _ _ => rfl) (fun _ _ _ _ _ _ => rfl)
  exact {
    lt_next := by rw [ht.next]; exact Nat.lt_succ_self _
    book := ht.marketKeys ▸ hv.book
    market := (hproj (fun o => o.market) (fun _ _ => rfl) (fun _ _ _ _ _ _ => rfl)).trans
      (Serv.newOrder_market hv)
    id := hproj (fun o => o.id) (fun _ _ => rfl) (fun _ _ _ _ _ _ => rfl)
    trader := (hproj (fun o => o.trader) (fun _ _ => rfl) (fun _ _ _ _ _ _ => rfl)).trans
      (Serv.newOrder_trader hv)
    id_le := by
      show (s.markets.get a.book).maxOrderId + 1 ≤ (s'.markets.get a.book).maxOrderId
      rw [ht.maxOrderId, if_pos rfl]
    resd_nonneg := by
      have hnonneg := hb.taker_resd_nonneg hv.book hv.lots.le
      rwa [← ht.taker_proj Order.resd (fun _ _ => rfl)] at hnonneg
    rests := by
      intro hpos
      have hmem := ht.mem a.book hv.book (s'.heap s.heap.next).side s.heap.next
      exact hmem.mpr ⟨Or.inr ⟨rfl, rfl, hside⟩, hpos⟩
    history := by
      -- The journal did not know the order before.
      have hnone : execsOf a.book ((s.markets.get a.book).maxOrderId + 1) s.journ = [] := by
        refine execsOf_eq_nil ?_
        intro e he hmarket
        have hle := hj.orderId_le e he
        rw [hmarket] at hle
        omega
      have hjourn : execsOf a.book ((s.markets.get a.book).maxOrderId + 1) s'.journ =
          s.newExec a :: (s.newMatches a).map Match.takerTrade := by
        rw [ht.journ]
        refine (execsOf_append _ _ _ _).trans ?_
        rw [hnone, List.nil_append]
        exact Serv.execsOf_taker hb hv
      show History (execsOf a.book ((s.markets.get a.book).maxOrderId + 1) s'.journ)
        (s'.heap s.heap.next)
      rw [hjourn, ht.heap_taker]
      refine (Serv.taker_history hmv).congr (fun e he => ?_)
        (Serv.takerPlaced_proj (fun o : Order => o.trader) (fun _ _ => rfl))
      unfold Serv.takerPlaced
      split
      · exact he
      · exact ⟨he.state, he.lots, he.resd, he.exec, he.cost, he.lastLots, he.lastTicks⟩ }

end Traded

theorem traded (hi : SessInv s) (hb : BooksOk s) (hmv : s.matchVec = []) (hj : LedgerInv s s.journ)
    (hv : a.Valid s) (ht : Traded s s' a) : SessInv s' := by
  have hkeys : s'.traders.keys = s.traders.keys := ht.traderKeys
  refine ⟨fun u hu n hn => ?_, fun u hu n hn u' hu' n' hn' hkey => ?_, fun m hm sd p hp => ?_,
    fun e he => ?_⟩
  · rw [hkeys] at hu
    rcases (hi.mem_nodes hv ht u n).mp hn with hn | ⟨rfl, rfl⟩
    · exact held_old hi hb hv ht hu hn
    · exact held_new hb hv ht hj hmv
  · rw [hkeys] at hu hu'
    rcases (hi.mem_nodes hv ht u n).mp hn with hn | ⟨rfl, rfl⟩
    · rcases (hi.mem_nodes hv ht u' n').mp hn' with hn' | ⟨rfl, rfl⟩
      · exact hi.unique u hu n hn u' hu' n' hn' hkey
      · exact absurd hkey (hi.not_key_newNode hu hn)
    · rcases (hi.mem_nodes hv ht u' n').mp hn' with hn' | ⟨rfl, rfl⟩
      · exact absurd hkey.symm (hi.not_key_newNode hu' hn')
      · rfl
  · rw [ht.marketKeys] at hm
    obtain ⟨hmem | ⟨rfl, rfl, rfl⟩, -⟩ := (ht.mem m hm sd p).mp hp
    · have hlt := ((hb m hm sd).rests p hmem).lt_next
      rw [hkeys, ht.proj_old (fun o => o.trader) (fun _ _ => rfl) (fun _ _ _ _ _ _ => rfl) hlt,
        ht.proj_old (fun o => o.id) (fun _ _ => rfl) (fun _ _ _ _ _ _ => rfl) hlt]
      obtain ⟨hu, hn⟩ := hi.owned m hm sd p hmem
      exact ⟨hu, (hi.mem_nodes hv ht _ _).mpr (Or.inl hn)⟩
    · have hnew := held_new hb hv ht hj hmv
      have htrader : (s'.heap s.heap.next).trader = a.sess := hnew.trader
      have hid : (s'.heap s.heap.next).id = (s.markets.get a.book).maxOrderId + 1 := hnew.id
      rw [htrader, hid, hkeys]
      exact ⟨hv.sess, (hi.mem_nodes hv ht _ _).mpr (Or.inr ⟨rfl, rfl⟩)⟩
  · rw [ht.journ] at he
    rcases List.mem_append.mp he with he | he
    · obtain ⟨n, hn, hof⟩ := hi.logged e he
      exact ⟨n, (hi.mem_nodes hv ht _ _).mpr (Or.inl hn), hof⟩
    · rcases Serv.batch_of hb hv he with hof | ⟨p, hp, hof⟩
      · refine ⟨newNode s a, (hi.mem_nodes hv ht _ _).mpr (Or.inr ⟨?_, rfl⟩), ?_, ?_⟩
        · rw [hof.trader, Serv.newOrder_trader hv]
        · rw [hof.market, Serv.newOrder_market hv]
          rfl
        · rw [hof.orderId]
          rfl
      · obtain ⟨-, hn⟩ := hi.owned a.book hv.book _ p hp
        rw [hof.trader, hof.orderId, Serv.batch_market hb hv he]
        exact ⟨_, (hi.mem_nodes hv ht _ _).mpr (Or.inl hn), rfl, rfl⟩

end SessInv

/-! ### The whole service -/

/-- What every sound run preserves. -/
structure ServInv (s : Serv) : Prop extends BooksInv s where
  ledger : LedgerInv s s.journ
  sessions : SessInv s

namespace ServInv

variable {s s' : Serv}

theorem init (h : s.Empty) : ServInv s where
  toBooksInv := BooksInv.init h.toEmptyBooks
  ledger := by
    rw [h.journ]
    exact LedgerInv.nil h.trades h.posns
  sessions := by
    have hnodes : ∀ u ∈ s.traders.keys, s.nodes u = [] := fun u hu => by
      unfold Serv.nodes
      rw [h.orders u hu]
      rfl
    refine ⟨?_, ?_, ?_, ?_⟩
    · intro u hu n hn
      rw [hnodes u hu] at hn
      exact absurd hn List.not_mem_nil
    · intro u hu n hn
      rw [hnodes u hu] at hn
      exact absurd hn List.not_mem_nil
    · intro m hm sd p hp
      rw [h.side m hm] at hp
      exact absurd hp List.not_mem_nil
    · intro e he
      rw [h.journ] at he
      exact absurd he List.not_mem_nil

theorem ext {a : OrderArgs} (hi : ServInv s) (he : Ext a.book s s') (hmv : s'.matchVec = []) :
    ServInv s' where
  toBooksInv := hi.toBooksInv.ext he hmv
  ledger := by
    rw [he.journ]
    exact hi.ledger.idle he.idle
  sessions := hi.sessions.ext hi.books he

theorem traded {a : OrderArgs} (hi : ServInv s) (hv : a.Valid s) (ht : Traded s s' a) :
    ServInv s' where
  toBooksInv := hi.toBooksInv.traded hv ht
  ledger := by
    rw [ht.journ]
    exact hi.ledger.traded hi.books hv (hi.traders a.book hv.book _) ht
  sessions := hi.sessions.traded hi.books hi.matchVec hi.ledger hv ht

/-- **Every sound call keeps the invariant.** -/
theorem step (hi : ServInv s) (hstep : Step Sound s s') : ServInv s' := by
  obtain ⟨a, hv, ⟨he, hmv⟩ | ht⟩ := sound_cases hi.books hi.matchVec hstep
  · exact hi.ext he hmv
  · exact hi.traded hv ht

theorem run {s₀ : Serv} (h₀ : s₀.Empty) (hrun : Run Sound s₀ s) : ServInv s :=
  hrun.invariant (fun _ _ hi hstep => hi.step hstep) (ServInv.init h₀)

end ServInv

end Swirly
