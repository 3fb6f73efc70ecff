import Swirly.Elm.BookSideRun
import Swirly.Fig.Ext

/-!
# Swirly.Fig.Books

**What every book of the service is like**, whatever the sessions hold: each side
of each market is represented as `Rep` says, holds only orders of its market and
side whose ids the market gave out, and lists them in price-time priority.

`BooksOk` is kept by every step of a call, including the insertion of a taker that
leaves the book crossed for a while; that no book is crossed *between* calls is
`Uncrossed`, and is proved of whole calls.
-/

namespace Swirly

open Lib (Heap Table)

/-- Price-time priority: the better price, and then the smaller id. -/
def Before (o o' : Order) : Prop := o.key < o'.key ∨ o.key = o'.key ∧ o.id < o'.id

theorem Before.key_le {o o' : Order} (h : Before o o') : o.key ≤ o'.key := by
  rcases h with h | h
  · exact h.le
  · exact h.1.le

/-- What is known of an order that rests in market `k`. -/
structure Rests (h : Heap Order) (k : MarketBook) (p : OrderPtr) : Prop where
  lt_next : p < h.next
  market : (h p).market = k.mnem
  contr : (h p).contr = k.contr
  settlDay : (h p).settlDay = k.settlDay
  id_le : (h p).id ≤ k.maxOrderId

theorem Rests.congr {h h' : Heap Order} {k k' : MarketBook} {p : OrderPtr} (hr : Rests h k p)
    (hnext : h.next ≤ h'.next) (hk : k.Grows k') (hreq : (h' p).toRequest = (h p).toRequest) :
    Rests h' k' p := by
  refine ⟨lt_of_lt_of_le hr.lt_next hnext, ?_, ?_, ?_, ?_⟩ <;> rw [hreq]
  · exact hr.market.trans hk.mnem.symm
  · exact hr.contr.trans hk.contr.symm
  · exact hr.settlDay.trans hk.settlDay.symm
  · exact hr.id_le.trans hk.maxOrderId

/-- One side of market `k`: the two containers agree, the orders are orders of this market with
lots left, and they stand in the order of price and id. -/
structure SideOk (h : Heap Order) (k : MarketBook) (sd : Side) (b : BookSide) : Prop where
  rep : ∃ blocks, Rep sd h b blocks
  rests : ∀ p ∈ b.orders, Rests h k p
  priority : b.orders.Pairwise (fun p q => Before (h p) (h q))

namespace SideOk

variable {h h' : Heap Order} {k k' : MarketBook} {sd : Side} {b : BookSide} {p : OrderPtr}

theorem empty (h : Heap Order) (k : MarketBook) (sd : Side) : SideOk h k sd BookSide.empty :=
  ⟨⟨[], Rep.empty sd h⟩, by simp [BookSide.empty], by simp [BookSide.empty]⟩

theorem side (hs : SideOk h k sd b) (hp : p ∈ b.orders) : (h p).side = sd := by
  obtain ⟨blocks, hr⟩ := hs.rep
  exact (hr.rests_key hp).side

theorem resd_pos (hs : SideOk h k sd b) (hp : p ∈ b.orders) : 0 < (h p).resd := by
  obtain ⟨blocks, hr⟩ := hs.rep
  exact (hr.rests_key hp).resd_pos

theorem nodup (hs : SideOk h k sd b) : b.orders.Nodup := by
  obtain ⟨blocks, hr⟩ := hs.rep
  exact hr.nodup

/-- The orders of a side are in key order. -/
theorem keys_sorted (hs : SideOk h k sd b) :
    b.orders.Pairwise (fun p q => (h p).key ≤ (h q).key) :=
  hs.priority.imp (fun hpq => hpq.key_le)

/-- Only the orders that rest here matter. -/
theorem congr (hs : SideOk h k sd b) (hnext : h.next ≤ h'.next) (hk : k.Grows k')
    (hh : ∀ p ∈ b.orders, h' p = h p) : SideOk h' k' sd b where
  rep := by
    obtain ⟨blocks, hr⟩ := hs.rep
    refine ⟨blocks, hr.congr (?_)⟩
    intro p hp
    rw [hh p hp]
    exact ⟨rfl, rfl, rfl, rfl⟩
  rests p hp := (hs.rests p hp).congr hnext hk (by rw [hh p hp])
  priority := by
    refine hs.priority.imp_of_mem ?_
    intro p q hp hq hpq
    rw [hh p hp, hh q hq]
    exact hpq

theorem modify_of_not_mem (hs : SideOk h k sd b) (hp : p ∉ b.orders)
    (f : Order → Order) : SideOk (h.modify p f) k sd b := by
  have hh : ∀ q ∈ b.orders, h.modify p f q = h q :=
    fun q hq => Heap.modify_of_ne (fun heq : q = p => hp (heq ▸ hq)) f
  refine hs.congr ?_ (MarketBook.Grows.refl k) hh
  exact Nat.le_refl h.next

/-- A new order goes behind all orders that have priority over it. -/
theorem insertOrder (hs : SideOk h k sd b) (hp : p ∉ b.orders) (hrest : Rests h k p)
    (hside : (h p).side = sd) (hresd : 0 < (h p).resd) (hid : ∀ q ∈ b.orders, (h q).id < (h p).id) :
    SideOk (b.insertOrder h p).1 k sd (b.insertOrder h p).2 ∧
      ∀ q, q ∈ (b.insertOrder h p).2.orders ↔ q ∈ b.orders ∨ q = p := by
  obtain ⟨blocks, hr⟩ := hs.rep
  obtain ⟨blocks', l, r, hr', horders, hplaced, hl, hr₂⟩ :=
    BookSide.insertOrder_rep hr hp hside hresd
  have hheap := BookSide.insertOrder_heap h b p
  have hkey : ∀ q, ((b.insertOrder h p).1 q).key = (h q).key := by
    rw [hheap]; exact Heap.proj_modify Order.key rfl
  have hreq : ∀ q, ((b.insertOrder h p).1 q).toRequest = (h q).toRequest := by
    rw [hheap]; exact Heap.proj_modify Order.toRequest rfl
  have hnext : (b.insertOrder h p).1.next = h.next := by rw [hheap]; rfl
  have hmem : ∀ q, q ∈ (b.insertOrder h p).2.orders ↔ q ∈ b.orders ∨ q = p := by
    intro q
    rw [hplaced, horders]
    simp only [List.mem_append, List.mem_cons]
    tauto
  refine ⟨⟨⟨blocks', hr'⟩, ?_, ?_⟩, hmem⟩
  · intro q hq
    have hq' : Rests h k q := by
      rcases (hmem q).mp hq with hq | rfl
      · exact hs.rests q hq
      · exact hrest
    exact hq'.congr hnext.ge (MarketBook.Grows.refl k) (hreq q)
  · have hbefore : ∀ q q', Before ((b.insertOrder h p).1 q) ((b.insertOrder h p).1 q') ↔
        Before (h q) (h q') := by
      intro q q'
      simp only [Before, hkey, hreq]
    simp only [hbefore, hplaced]
    have hpri := hs.priority
    rw [horders, List.pairwise_append] at hpri
    rw [List.pairwise_append, List.pairwise_cons]
    refine ⟨hpri.1, ⟨fun q hq => Or.inl (hr₂ q hq), hpri.2.1⟩, fun q hq q' hq' => ?_⟩
    rcases List.mem_cons.mp hq' with rfl | hq'
    · -- An order with the same price came before.
      have hlt := hid q (horders ▸ List.mem_append_left _ hq)
      have hkq := hl q hq
      unfold Before
      omega
    · exact hpri.2.2 q hq q' hq'

/-- A fill leaves the other orders in place. -/
theorem takeOrder (hs : SideOk h k sd b) (hp : p ∈ b.orders) (lots now : Int) :
    SideOk (b.takeOrder h p lots now).1 k sd (b.takeOrder h p lots now).2 := by
  obtain ⟨blocks, hr⟩ := hs.rep
  have hheap := BookSide.takeOrder_heap hr hp lots now
  have hproj : ∀ q, ((b.takeOrder h p lots now).1 q).key = (h q).key ∧
      ((b.takeOrder h p lots now).1 q).toRequest = (h q).toRequest := by
    intro q
    rw [hheap]
    refine ⟨Heap.proj_modify Order.key ?_ q, Heap.proj_modify Order.toRequest ?_ q⟩ <;>
    · unfold Order.taken; split <;> rfl
  have hsub : (b.takeOrder h p lots now).2.orders.Sublist b.orders := by
    rw [BookSide.takeOrder_orders hr hp lots now]
    split
    · exact List.Sublist.refl _
    · exact List.erase_sublist
  refine ⟨BookSide.takeOrder_rep hr hp lots now, ?_, ?_⟩
  · intro q hq
    refine (hs.rests q (hsub.subset hq)).congr ?_ (MarketBook.Grows.refl k) (hproj q).2
    rw [hheap]
    exact Nat.le_refl h.next
  · refine (hs.priority.sublist hsub).imp ?_
    intro q q' hqq'
    simp only [Before, (hproj q).1, (hproj q').1, (hproj q).2, (hproj q').2]
    exact hqq'

end SideOk

/-! ### All books -/

/-- Every side of every market. -/
def BooksOk (s : Serv) : Prop :=
  ∀ m ∈ s.markets.keys, ∀ sd,
    SideOk s.heap (s.markets.get m) sd ((s.markets.get m).side sd)

namespace BooksOk

variable {s s' : Serv} {m : Mnem}

theorem ext (hb : BooksOk s) (he : Ext m s s') : BooksOk s' := by
  intro m' hm' sd
  rw [he.marketKeys] at hm'
  rw [he.side]
  have hs := hb m' hm' sd
  exact hs.congr he.next (he.grows m') (fun p hp => he.heap p (hs.rests p hp).lt_next)

theorem market (hb : BooksOk s) (hm : m ∈ s.markets.keys) {sd : Side} {p : OrderPtr}
    (hp : p ∈ ((s.markets.get m).side sd).orders) : (s.heap p).market = m :=
  ((hb m hm sd).rests p hp).market.trans (s.markets.key_get m hm)

/-- Only orders and markets matter. -/
theorem of_eq (hb : BooksOk s) (hheap : s'.heap = s.heap) (hmarkets : s'.markets = s.markets) :
    BooksOk s' := by
  unfold BooksOk
  rw [hheap, hmarkets]
  exact hb

/-- Orders that rest in different places are different. -/
theorem not_mem (hb : BooksOk s) {m' : Mnem} (hm : m ∈ s.markets.keys)
    (hm' : m' ∈ s.markets.keys) {sd sd' : Side} {p : OrderPtr}
    (hp : p ∈ ((s.markets.get m).side sd).orders) (hne : m' ≠ m ∨ sd' ≠ sd) :
    p ∉ ((s.markets.get m').side sd').orders := by
  intro hp'
  rcases hne with hne | hne
  · exact hne ((hb.market hm' hp').symm.trans (hb.market hm hp))
  · exact hne (((hb m' hm' sd').side hp').symm.trans ((hb m hm sd).side hp))

/-- One market operation: it changes the order `p` only, and keeps one side of one
market in order. -/
theorem of_modify (hb : BooksOk s) {sd : Side} {p : OrderPtr} {f : Order → Order}
    (hkeys : s'.markets.keys = s.markets.keys) (hheap : s'.heap = s.heap.modify p f)
    (hother : ∀ m' sd', m' ≠ m ∨ sd' ≠ sd →
      (s'.markets.get m').side sd' = (s.markets.get m').side sd')
    (hgrows : ∀ m', (s.markets.get m').Grows (s'.markets.get m'))
    (hoff : ∀ m' ∈ s.markets.keys, ∀ sd', m' ≠ m ∨ sd' ≠ sd →
      p ∉ ((s.markets.get m').side sd').orders)
    (hside : SideOk s'.heap (s.markets.get m) sd ((s'.markets.get m).side sd)) :
    BooksOk s' := by
  intro m' hm' sd'
  rw [hkeys] at hm'
  by_cases hsame : m' = m ∧ sd' = sd
  · obtain ⟨rfl, rfl⟩ := hsame
    exact hside.congr (Nat.le_refl _) (hgrows m') (fun _ _ => rfl)
  · have hne : m' ≠ m ∨ sd' ≠ sd := by
      by_cases h : m' = m
      · exact Or.inr (fun h' => hsame ⟨h, h'⟩)
      · exact Or.inl h
    rw [hother m' sd' hne, hheap]
    exact ((hb m' hm' sd').modify_of_not_mem (hoff m' hm' sd' hne) f).congr (Nat.le_refl _)
      (hgrows m') (fun _ _ => rfl)

end BooksOk

/-! ### Insertions -/

namespace Serv

section Insert

variable {s : Serv} {m : Mnem} {p : OrderPtr}

theorem insertOrder_heap (s : Serv) (m : Mnem) (p : OrderPtr) :
    (s.insertOrder m p).heap = s.heap.modify p (Order.setLevel · (some (s.heap p).key)) :=
  BookSide.insertOrder_heap _ _ _

theorem insertOrder_side_self : ((s.insertOrder m p).markets.get m).side (s.heap p).side =
    (((s.markets.get m).side (s.heap p).side).insertOrder s.heap p).2 := by
  rw [insertOrder_get_self, MarketBook.insertOrder_side, if_pos rfl]

theorem insertOrder_side_of_ne {m' : Mnem} {sd' : Side} (hne : m' ≠ m ∨ sd' ≠ (s.heap p).side) :
    ((s.insertOrder m p).markets.get m').side sd' = (s.markets.get m').side sd' := by
  by_cases hm' : m' = m
  · subst hm'
    rw [insertOrder_get_self, MarketBook.insertOrder_side,
      if_neg (hne.resolve_left (fun h => h rfl))]
  · rw [insertOrder_get_of_ne _ _ hm']

theorem insertOrder_frame (m' : Mnem) :
    (s.markets.get m').Frame ((s.insertOrder m p).markets.get m') := by
  by_cases hm' : m' = m
  · subst hm'
    rw [insertOrder_get_self]
    exact MarketBook.insertOrder_frame _ _ _
  · rw [insertOrder_get_of_ne _ _ hm']
    exact MarketBook.Frame.refl _

/-- **An insertion keeps every book in order.** -/
theorem insertOrder_booksOk (hb : BooksOk s) (hm : m ∈ s.markets.keys)
    (hoff : ∀ m' ∈ s.markets.keys, ∀ sd, p ∉ ((s.markets.get m').side sd).orders)
    (hrest : Rests s.heap (s.markets.get m) p) (hresd : 0 < (s.heap p).resd)
    (hid : ∀ q ∈ ((s.markets.get m).side (s.heap p).side).orders,
      (s.heap q).id < (s.heap p).id) :
    BooksOk (s.insertOrder m p) ∧
      ∀ m' sd q, q ∈ (((s.insertOrder m p).markets.get m').side sd).orders ↔
        q ∈ ((s.markets.get m').side sd).orders ∨ q = p ∧ m' = m ∧ sd = (s.heap p).side := by
  have hheap := s.insertOrder_heap m p
  obtain ⟨hside, hmem⟩ :=
    (hb m hm (s.heap p).side).insertOrder (hoff m hm _) hrest rfl hresd hid
  rw [BookSide.insertOrder_heap, ← hheap, ← insertOrder_side_self] at hside
  rw [← insertOrder_side_self] at hmem
  refine ⟨hb.of_modify rfl hheap (fun m' sd' hne => insertOrder_side_of_ne hne)
    (fun m' => (insertOrder_frame m').grows) (fun m' hm' sd' _ => hoff m' hm' sd') hside, ?_⟩
  intro m' sd q
  by_cases hsame : m' = m ∧ sd = (s.heap p).side
  · obtain ⟨rfl, rfl⟩ := hsame
    rw [hmem]
    simp
  · rw [insertOrder_side_of_ne (by tauto)]
    simp [hsame]

end Insert

end Serv

/-! ### Fills -/

namespace Serv

variable {s : Serv} {m : Mnem} {sd : Side} {p : OrderPtr}

theorem takeOrder_heap (hb : BooksOk s) (hm : m ∈ s.markets.keys)
    (hp : p ∈ ((s.markets.get m).side sd).orders) (lots now : Int) :
    (s.takeOrder m p lots now).heap = s.heap.modify p (Order.taken · lots now) := by
  have hs := hb m hm sd
  obtain ⟨blocks, hr⟩ := hs.rep
  have hside := hs.side hp
  show ((s.markets.get m).takeOrder s.heap p lots now).1 = _
  rw [MarketBook.takeOrder_heap, hside]
  exact BookSide.takeOrder_heap hr hp lots now

theorem takeOrder_side_self (hb : BooksOk s) (hm : m ∈ s.markets.keys)
    (hp : p ∈ ((s.markets.get m).side sd).orders) (lots now : Int) :
    ((s.takeOrder m p lots now).markets.get m).side sd =
      (((s.markets.get m).side sd).takeOrder s.heap p lots now).2 := by
  rw [takeOrder_get_self, MarketBook.takeOrder_side, if_pos ((hb m hm sd).side hp).symm]

theorem takeOrder_side_of_ne (hb : BooksOk s) (hm : m ∈ s.markets.keys)
    (hp : p ∈ ((s.markets.get m).side sd).orders) (lots now : Int) {m' : Mnem} {sd' : Side}
    (hne : m' ≠ m ∨ sd' ≠ sd) :
    ((s.takeOrder m p lots now).markets.get m').side sd' = (s.markets.get m').side sd' := by
  by_cases hm' : m' = m
  · subst hm'
    have hsd : sd' ≠ sd := hne.resolve_left (fun h => h rfl)
    rw [takeOrder_get_self, MarketBook.takeOrder_side, if_neg]
    rw [(hb m' hm sd).side hp]
    exact hsd
  · rw [takeOrder_get_of_ne s p lots now hm']

theorem takeOrder_frame (m' : Mnem) (lots now : Int) :
    (s.markets.get m').Frame ((s.takeOrder m p lots now).markets.get m') := by
  by_cases hm' : m' = m
  · subst hm'
    rw [takeOrder_get_self]
    exact MarketBook.takeOrder_frame _ _ _ _ _
  · rw [takeOrder_get_of_ne s p lots now hm']
    exact MarketBook.Frame.refl _

theorem takeOrder_orders (hb : BooksOk s) (hm : m ∈ s.markets.keys)
    (hp : p ∈ ((s.markets.get m).side sd).orders) (lots now : Int) :
    (((s.takeOrder m p lots now).markets.get m).side sd).orders =
      if lots < (s.heap p).resd then ((s.markets.get m).side sd).orders
      else ((s.markets.get m).side sd).orders.erase p := by
  obtain ⟨blocks, hr⟩ := (hb m hm sd).rep
  rw [takeOrder_side_self hb hm hp]
  exact BookSide.takeOrder_orders hr hp lots now

/-- **A fill keeps every book in order.** -/
theorem takeOrder_booksOk (hb : BooksOk s) (hm : m ∈ s.markets.keys)
    (hp : p ∈ ((s.markets.get m).side sd).orders) (lots now : Int) :
    BooksOk (s.takeOrder m p lots now) := by
  have hheap := takeOrder_heap hb hm hp lots now
  refine hb.of_modify (m := m) rfl hheap (fun _ _ => takeOrder_side_of_ne hb hm hp lots now)
    (fun m' => (takeOrder_frame m' lots now).grows)
    (fun m' hm' sd' hne => hb.not_mem hm hm' hp hne) ?_
  obtain ⟨blocks, hr⟩ := (hb m hm sd).rep
  rw [takeOrder_side_self hb hm hp, hheap, ← BookSide.takeOrder_heap hr hp]
  exact (hb m hm sd).takeOrder hp lots now

end Serv

end Swirly
