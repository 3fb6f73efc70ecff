import Swirly.Fig.Load
import Swirly.Fig.Report

/-!
# Swirly.Fig.Untouched

**A call touches only what takes part in it.** Updates go through shared
references, so what a call leaves alone is read off the keys it looks things up
by: its market, its trader, the traders of the orders it matched, and one
contract and settlement day.

* `TraderSess.Only` is what may happen to the session of a maker, in the matching
  loop (`matchLoop_only`) and in the commit phase (`TraderSess.only_foldl_post`).
* The lists of orders are compared without the orders that were matched
  (`Serv.unmatched`): an insertion of the new order and an erasure of a matched one
  cannot be seen there.
* `createOrder_ends` is the call once more, with every allocation succeeding: it
  commits, or its matches were all that it did.
-/

namespace Swirly

open Lib (Heap Table KeySet)
open Lib.Effect

/-! ### The session of a maker -/

/-- Nothing but some trades and the position with one key is new. -/
structure TraderSess.Only (key : PosnKey) (ts : List Exec) (u u' : TraderSess) : Prop where
  mnem : u'.mnem = u.mnem
  display : u'.display = u.display
  email : u'.email = u.email
  orders : u'.orders = u.orders
  refIdx : u'.refIdx = u.refIdx
  trades_old : ∀ t ∈ u.trades.elems, t ∈ u'.trades.elems
  trades_new : ∀ t ∈ u'.trades.elems, t ∈ u.trades.elems ∨ t ∈ ts
  posns : ∀ k ≠ key, u'.posns.find? k = u.posns.find? k

namespace TraderSess

variable {key : PosnKey} {ts : List Exec} {u u' u'' : TraderSess} {t : Exec}

theorem Only.refl (key : PosnKey) (ts : List Exec) (u : TraderSess) : Only key ts u u :=
  ⟨rfl, rfl, rfl, rfl, rfl, fun _ h => h, fun _ h => Or.inl h, fun _ _ => rfl⟩

theorem Only.trans (h : Only key ts u u') (h' : Only key ts u' u'') : Only key ts u u'' where
  mnem := h'.mnem.trans h.mnem
  display := h'.display.trans h.display
  email := h'.email.trans h.email
  orders := h'.orders.trans h.orders
  refIdx := h'.refIdx.trans h.refIdx
  trades_old t ht := h'.trades_old t (h.trades_old t ht)
  trades_new t ht := by
    rcases h'.trades_new t ht with ht' | ht'
    · exact h.trades_new t ht'
    · exact Or.inr ht'
  posns k hk := (h'.posns k hk).trans (h.posns k hk)

theorem Only.mono {ts' : List Exec} (h : Only key ts u u') (hts : ts ⊆ ts') : Only key ts' u u' :=
  { h with trades_new := fun t ht => (h.trades_new t ht).imp_right (fun h => hts h) }

theorem only_lazyPosn (ts : List Exec) (u : TraderSess) (contr : Mnem) (settlDay : Int) :
    Only (toLex (contr, settlDay)) ts u (u.lazyPosn contr settlDay) := by
  unfold lazyPosn
  split
  · exact Only.refl _ ts u
  · exact ⟨rfl, rfl, rfl, rfl, rfl, fun _ h => h, fun _ h => Or.inl h,
      fun k hk => KeySet.find?_insert_of_ne u.posns hk⟩

theorem only_post (ht : t ∈ ts) (hkey : t.posnKey = key) (u : TraderSess) :
    Only key ts u (u.post t) where
  mnem := rfl
  display := rfl
  email := rfl
  orders := rfl
  refIdx := rfl
  trades_old t' ht' := by
    show t' ∈ (u.trades.insert t).elems
    cases hfind : u.trades.find? t.idKey with
    | none => exact (KeySet.mem_insert hfind).mpr (Or.inr ht')
    | some e => rwa [KeySet.insert_of_mem hfind]
  trades_new t' ht' := by
    have hmem : t' ∈ (u.trades.insert t).elems := ht'
    rcases KeySet.mem_of_mem_insert hmem with rfl | hold
    · exact Or.inr ht
    · exact Or.inl hold
  posns k hk := by
    rw [find?_post, if_neg (fun heq => hk (heq.trans hkey))]

theorem only_foldl_post {ts' : List Exec} (hts : ∀ t ∈ ts', t ∈ ts ∧ t.posnKey = key)
    (u : TraderSess) : Only key ts u (ts'.foldl post u) := by
  induction ts' generalizing u with
  | nil => exact Only.refl key ts u
  | cons t ts' ih =>
      obtain ⟨hmem, hkey⟩ := hts t List.mem_cons_self
      exact (only_post hmem hkey u).trans (ih (fun t' ht' => hts t' (List.mem_cons_of_mem t ht'))
        (u.post t))

end TraderSess

/-! ### Matching -/

/-- Matching gave the makers their position, and left the other sessions alone. -/
structure Matching (book : Mnem) (fs : List (OrderPtr × Int)) (s s' : Serv) : Prop where
  sess : ∀ u, (∀ f ∈ fs, (s.heap f.1).trader ≠ u) → s'.traders.get u = s.traders.get u
  only : ∀ u, TraderSess.Only
    (toLex ((s.markets.get book).contr, (s.markets.get book).settlDay)) []
    (s.traders.get u) (s'.traders.get u)

section Matching

variable {env : Env} {book : Mnem} {s s' : Serv} {f : OrderPtr × Int} {fs : List (OrderPtr × Int)}

theorem Matching.refl (book : Mnem) (fs : List (OrderPtr × Int)) (s : Serv) :
    Matching book fs s s :=
  ⟨fun _ _ => rfl, fun _ => TraderSess.Only.refl _ _ _⟩

theorem Matching.cons {m : Match} (h : Matching book fs ((s.iterate book f.1).pushMatch m) s') :
    Matching book (f :: fs) s s' where
  sess u hu := by
    have hiter : (s.iterate book f.1).traders.get u = s.traders.get u :=
      Serv.modifySess_get_of_ne (hu f List.mem_cons_self).symm
    exact (h.sess u (fun g hg => hu g (List.mem_cons_of_mem f hg))).trans hiter
  only u := by
    have hbook : ((s.iterate book f.1).pushMatch m).markets.get book =
        { s.markets.get book with maxExecId := (s.markets.get book).maxExecId + 2 } :=
      s.iterate_book book f.1
    have hrest := h.only u
    rw [hbook] at hrest
    refine TraderSess.Only.trans ?_ hrest
    show TraderSess.Only _ _ _ ((s.iterate book f.1).traders.get u)
    unfold Serv.iterate Serv.lazyPosn
    by_cases hu : u = (s.heap f.1).trader
    · rw [hu, Serv.modifySess_get_self]
      exact TraderSess.only_lazyPosn _ _ _ _
    · rw [Serv.modifySess_get_of_ne hu]
      exact TraderSess.Only.refl _ _ _

/-- **The matching loop visits the sessions of the makers only.** -/
theorem matchLoop_matching {taker : OrderPtr} {direct : Direct} {now : Int}
    (orders : List OrderPtr) (i : Nat) (sums : Sums) (c : Ctx)
    (hd : direct = (c.serv.heap taker).side.direct)
    (hfs : fs = fillsOf c.serv.heap (c.serv.heap taker)
      ((c.serv.heap taker).resd - sums.sumLots) orders) :
    wp (matchLoop env book taker direct now i orders sums)
      (fun _ c' => Matching book fs c.serv c'.serv) (fun _ _ => True) c := by
  induction orders generalizing i sums c fs with
  | nil => exact Matching.refl book fs c.serv
  | cons p orders ih =>
      unfold matchLoop
      simp only [wp_bind, wp_get, wp_ite, wp_pure]
      refine ⟨fun _ => Matching.refl book fs c.serv, fun hwant => ⟨fun _ => Matching.refl _ _ _,
        fun hspread => ?_⟩⟩
      have hyes : crosses (c.serv.heap taker) (c.serv.heap p) := by
        simpa [crosses, ← hd] using hspread
      have hne : (c.serv.heap taker).resd - sums.sumLots ≠ 0 := by omega
      rw [fillsOf_cons orders hne hyes] at hfs
      generalize hlots :
        min ((c.serv.heap taker).resd - sums.sumLots) (c.serv.heap p).resd = lots at hfs ⊢
      subst hfs
      refine newMatch_wp (fun _ _ _ => ?_) (fun _ _ _ _ => trivial)
      simp only [wp_bind, allocate_wp, modifyServ_wp]
      refine ⟨fun _ => ?_, fun _ => trivial⟩
      refine wp_mono (ih (i + 1) (sums.fill c.serv.heap (p, lots))
        { c with serv := (c.serv.iterate book p).pushMatch _ } hd ?_)
        (fun _ _ h => Matching.cons h) (fun _ _ _ => trivial)
      rw [sub_sub]
      rfl

theorem matchOrders_matching {p : OrderPtr} {now : Int} {c : Ctx}
    (hfs : fs = fillsOf c.serv.heap (c.serv.heap p) (c.serv.heap p).resd
      ((c.serv.markets.get book).side (c.serv.heap p).side.opposite).orders) :
    wp (matchOrders env book p now) (fun _ c' => Matching book fs c.serv c'.serv)
      (fun _ _ => True) c := by
  unfold matchOrders matchSide
  simp only [wp_bind, wp_get]
  refine wp_mono (matchLoop_matching _ 0 {} c rfl (by simpa using hfs)) (fun sums c' h => ?_)
    (fun _ _ h => h)
  simp only [wp_bind, wp_get, wp_ite, modifyServ_wp, wp_pure]
  exact ⟨fun _ => ⟨h.sess, h.only⟩, fun _ => h⟩

end Matching

/-! ### Lists of orders -/

/-- Does this order rest in a list when the call is made, and does the call not match it? -/
def Serv.unmatched (s : Serv) (a : OrderArgs) (m : Mnem) (sd : Side) (p : OrderPtr) : Bool :=
  p ∈ ((s.markets.get m).side sd).orders && p ∉ (s.fills a).map Prod.fst

section Lists

variable {s s₁ : Serv} {a : OrderArgs} {P : OrderPtr → Bool}

theorem Serv.unmatched_fill {f : OrderPtr × Int} (hf : f ∈ s.fills a) (m : Mnem) (sd : Side) :
    s.unmatched a m sd f.1 = false := by
  have hmem : f.1 ∈ (s.fills a).map Prod.fst := List.mem_map_of_mem hf
  simp [unmatched, hmem]

theorem BooksOk.unmatched_lt (hb : BooksOk s) {m : Mnem} (hm : m ∈ s.markets.keys) {sd : Side}
    {p : OrderPtr} (hp : s.unmatched a m sd p = true) :
    p < s.heap.next ∧ p ∉ (s.fills a).map Prod.fst := by
  obtain ⟨hmem, hno⟩ : p ∈ ((s.markets.get m).side sd).orders ∧ p ∉ (s.fills a).map Prod.fst := by
    simpa [Serv.unmatched] using hp
  exact ⟨((hb m hm sd).rests p hmem).lt_next, hno⟩

/-- The new order goes between the others. -/
theorem Matched.placed_filter (hM : Matched s s₁ a) (hb : BooksOk s) (hm : a.book ∈ s.markets.keys)
    (hlots : 0 ≤ a.lots) (hP : P s.heap.next = false) (m : Mnem) (sd : Side) :
    (((s₁.placed a.book s.heap.next).markets.get m).side sd).orders.filter P =
      ((s.markets.get m).side sd).orders.filter P := by
  have htaker := hM.taker
  rw [← hM.ext.side m sd]
  unfold Serv.placed
  split
  · rfl
  · next hdone =>
      by_cases hsame : m = a.book ∧ sd = (s₁.heap s.heap.next).side
      · obtain ⟨rfl, rfl⟩ := hsame
        have hpos : 0 < (s₁.heap s.heap.next).resd := by
          have hnonneg := hb.taker_resd_nonneg hm hlots
          have hne : (s₁.heap s.heap.next).resd ≠ 0 := by simpa [Order.done] using hdone
          rw [htaker] at hne ⊢
          omega
        obtain ⟨blocks, hr⟩ := (hb.ext hM.ext a.book (hM.ext.marketKeys ▸ hm) _).rep
        obtain ⟨_, l, r, -, horders, hplaced, -, -⟩ :=
          BookSide.insertOrder_rep hr (hM.not_mem hb hm _) rfl hpos
        rw [Serv.insertOrder_side_self, hplaced, horders]
        simp [hP]
      · rw [Serv.insertOrder_side_of_ne (by grind)]

/-- The makers go out from between the others. -/
theorem Serv.takeAll_filter {m : Mnem} {sd : Side} (now : Int) {fs : List (OrderPtr × Int)}
    (hb : BooksOk s) (hm : m ∈ s.markets.keys)
    (hmem : ∀ f ∈ fs, f.1 ∈ ((s.markets.get m).side sd).orders) (hnd : (fs.map Prod.fst).Nodup)
    (hP : ∀ f ∈ fs, P f.1 = false) (m' : Mnem) (sd' : Side) :
    (((s.takeAll m now fs).markets.get m').side sd').orders.filter P =
      ((s.markets.get m').side sd').orders.filter P := by
  induction fs generalizing s with
  | nil => rfl
  | cons f fs ih =>
      rw [List.map_cons, List.nodup_cons] at hnd
      have hf := hmem f List.mem_cons_self
      have h₁ : TakenAll s (s.takeOrder m f.1 f.2 now) now [f] := TakenAll.one hb hm hf
      have hrest : ∀ g ∈ fs,
          g.1 ∈ (((s.takeOrder m f.1 f.2 now).markets.get m).side sd).orders := by
        intro g hg
        have hne : g.1 ≠ f.1 := fun heq => hnd.1 (heq ▸ List.mem_map_of_mem hg)
        exact (h₁.rest hb hm (hmem g (List.mem_cons_of_mem f hg)) (by simpa using hne)).1
      refine (ih h₁.books hm hrest hnd.2 (fun g hg => hP g (List.mem_cons_of_mem f hg))).trans ?_
      by_cases hsame : m' = m ∧ sd' = sd
      · obtain ⟨rfl, rfl⟩ := hsame
        rw [Serv.takeOrder_orders hb hm hf]
        split
        · rfl
        · rw [← List.erase_filter, List.erase_of_not_mem]
          simp [hP f List.mem_cons_self]
      · rw [Serv.takeOrder_side_of_ne hb hm hf _ _ (by grind)]

theorem Serv.placed_get_of_ne (s : Serv) {m m' : Mnem} (hne : m' ≠ m) (p : OrderPtr) :
    (s.placed m p).markets.get m' = s.markets.get m' := by
  unfold placed
  split
  · rfl
  · exact s.insertOrder_get_of_ne p hne

theorem Serv.takeAll_get_of_ne (s : Serv) {m m' : Mnem} (hne : m' ≠ m) (now : Int)
    (fs : List (OrderPtr × Int)) :
    (s.takeAll m now fs).markets.get m' = s.markets.get m' := by
  induction fs generalizing s with
  | nil => rfl
  | cons f fs ih =>
      exact (ih (s.takeOrder m f.1 f.2 now)).trans (s.takeOrder_get_of_ne f.1 f.2 now hne)

end Lists

/-! ### What a call touches -/

/-- Everything but the market, the trader, the matched orders and their traders is as it
was, and of the sessions of these only what the matches are about. -/
structure TouchesOnly (s s' : Serv) (a : OrderArgs) : Prop where
  marketKeys : s'.markets.keys = s.markets.keys
  traderKeys : s'.traders.keys = s.traders.keys
  /-- Sides, last trade and id counters of the other markets. -/
  book : ∀ m ≠ a.book, s'.markets.get m = s.markets.get m
  sess : ∀ u ≠ a.sess, (∀ f ∈ s.fills a, (s.heap f.1).trader ≠ u) →
    s'.traders.get u = s.traders.get u
  maker : ∀ u ≠ a.sess, TraderSess.Only
    (toLex ((s.markets.get a.book).contr, (s.markets.get a.book).settlDay))
    ((tradesOf (s.newMatches a)).filter (fun t => t.trader = u))
    (s.traders.get u) (s'.traders.get u)
  heap : ∀ p < s.heap.next, p ∉ (s.fills a).map Prod.fst → s'.heap p = s.heap p
  rest : ∀ m ∈ s.markets.keys, ∀ sd p, s.unmatched a m sd p = true → s'.heap p = s.heap p
  /-- The orders that were not matched are in their lists, in the same order. -/
  place : ∀ m ∈ s.markets.keys, ∀ sd,
    ((s'.markets.get m).side sd).orders.filter (s.unmatched a m sd) =
      ((s.markets.get m).side sd).orders.filter (s.unmatched a m sd)

section Touches

variable {env : Env} {s s₁ s' : Serv} {a : OrderArgs} {resp : Response} {c' : Ctx}

theorem TouchesOnly.refl (s : Serv) (a : OrderArgs) : TouchesOnly s s a :=
  ⟨rfl, rfl, fun _ _ => rfl, fun _ _ _ => rfl, fun _ _ => TraderSess.Only.refl _ _ _,
    fun _ _ _ => rfl, fun _ _ _ _ _ => rfl, fun _ _ _ => rfl⟩

/-- A call that did no more than match. -/
theorem Matching.touches (h : Matching a.book (s.fills a) s s₁) (hM : Matched s s₁ a)
    (hb : BooksOk s) : TouchesOnly s s₁.clearMatches a where
  marketKeys := hM.ext.marketKeys
  traderKeys := hM.ext.traderKeys
  book := hM.ext.other
  sess u _ hu := h.sess u hu
  maker u _ := (h.only u).mono (List.nil_subset _)
  heap p hp _ := hM.ext.heap p hp
  rest _ hm _ p hp := hM.ext.heap p (hb.unmatched_lt hm hp).1
  place m _ sd :=
    congrArg (fun b : BookSide => b.orders.filter (s.unmatched a m sd)) (hM.ext.side m sd)

theorem Serv.committing_get_of_ne {u : Mnem} (hu : u ≠ a.sess) :
    (s.committing s₁ a).traders.get u = s₁.traders.get u := by
  have htraders : (s.journaled s₁ a).traders = s₁.traders := s₁.placed_traders _ _
  refine (modifySess_get_of_ne hu).trans ?_
  rw [← htraders]
  unfold prepared
  split
  · rfl
  · exact modifySess_get_of_ne hu

/-- The trades of a trader other than the taker's are those of the trader's orders. -/
theorem Serv.exists_fill (hb : BooksOk s) (hv : a.Valid s) {t : Exec}
    (ht : t ∈ tradesOf (s.newMatches a)) (hne : t.trader ≠ a.sess) :
    ∃ f ∈ s.fills a, (s.heap f.1).trader = t.trader := by
  obtain ⟨m, hm, hcases⟩ := mem_tradesOf.mp ht
  have hposts := hb.matches_post hv.book hv.sess hm (fun _ _ => rfl)
  rcases hcases with rfl | rfl
  · exact ⟨_, Serv.mem_fills hm, hposts.maker⟩
  · exact absurd hposts.taker hne

/-- A call that commits. -/
theorem Committed.touches (hC : Committed env s a resp s₁ c') (hi : CallInv s) (hv : a.Valid s)
    (h : Matching a.book (s.fills a) s s₁) : TouchesOnly s c'.serv a := by
  have hM := hC.matched
  have hb := hi.books
  have hlots := hv.lots.le
  have hfills : ∀ f ∈ s.fills a,
      f.1 ∈ (((s.committing s₁ a).markets.get a.book).side a.side.opposite).orders := fun f hf =>
    (hM.mem_committing hb hv.book hlots _ _ _).mpr (Or.inl (mem_orders_of_mem_fillsOf hf))
  have hsess : ∀ u ≠ a.sess, c'.serv.traders.get u =
      ((tradesOf (s.newMatches a)).filter (fun t => t.trader = u)).foldl TraderSess.post
        (s₁.traders.get u) := by
    intro u hu
    rw [hC.serv_eq hb hv.book hv.sess hi.matchVec]
    refine (Sessions.post_get _ _ u).trans ?_
    rw [Serv.committing_get_of_ne hu]
  have ht := hC.traded hb hv.book hv.sess hlots hi.matchVec
  have hheap := ht.heap_old
  refine ⟨ht.marketKeys, ht.traderKeys, fun m hne => ?_, fun u hne hu => ?_, fun u hne => ?_,
    hheap, fun m hm sd p hp => ?_, fun m hm sd => ?_⟩
  · rw [hC.serv_eq hb hv.book hv.sess hi.matchVec]
    refine (Serv.takeAll_get_of_ne _ hne _ _).trans ?_
    rw [s.committing_markets, Serv.placed_get_of_ne _ hne, hM.ext.other m hne]
  · have hnone : (tradesOf (s.newMatches a)).filter (fun t => t.trader = u) = [] := by
      rw [List.filter_eq_nil_iff]
      intro t ht htrader
      obtain rfl : t.trader = u := by simpa using htrader
      obtain ⟨f, hf, heq⟩ := Serv.exists_fill hb hv ht hne
      exact hu f hf heq
    rw [hsess u hne, hnone]
    exact h.sess u hu
  · rw [hsess u hne]
    refine ((h.only u).mono (List.nil_subset _)).trans
      (TraderSess.only_foldl_post (fun t ht => ⟨ht, ?_⟩) _)
    obtain ⟨hcontr, hday⟩ := Serv.tradesOf_posn hb hv (List.mem_of_mem_filter ht)
    rw [Exec.posnKey, hcontr, hday]
  · obtain ⟨hlt, hno⟩ := hb.unmatched_lt hm hp
    exact hheap p hlt hno
  · rw [hC.serv_eq hb hv.book hv.sess hi.matchVec]
    refine (Serv.takeAll_filter a.now (hM.committing_books hb hv.book hlots)
      (hM.committing_keys ▸ hv.book) hfills (hb.fills_nodup hv.book)
      (fun f hf => Serv.unmatched_fill hf m sd) m sd).trans ?_
    have hnew : s.unmatched a m sd s.heap.next = false :=
      Bool.eq_false_iff.mpr (fun hp => Nat.lt_irrefl _ (hb.unmatched_lt hm hp).1)
    rw [s.committing_markets]
    exact hM.placed_filter hb hv.book hlots hnew m sd

/-! ### The call -/

/-- **The ends of a call that has the memory it asks for.** -/
theorem createOrder_ends (hall : ∀ site, env.alloc site = true) (hb : BooksOk s)
    (hv : a.Valid s) (resp : Response) : wp (createOrder env a)
      (fun _ c' => ∃ s₁, Committed env s a resp s₁ c' ∧ Matching a.book (s.fills a) s s₁)
      (fun _ c' => c'.serv = s ∨ ∃ s₁, Matched s s₁ a ∧ Matching a.book (s.fills a) s s₁ ∧
        c'.serv = s₁.clearMatches) ⟨s, resp⟩ := by
  have hlt := hb.makers_lt hv.book
  have hopened : ∀ {s₁}, Matching a.book (s.fills a) (s.opened a) s₁ →
      Matching a.book (s.fills a) s s₁ := fun h => {
    sess := fun u hu => h.sess u (fun f hf => by rw [Serv.opened_heap hlt hf]; exact hu f hf)
    only := fun u => by
      have honly := h.only u
      rwa [Serv.opened_book] at honly }
  have hmatched : wp (matchOrders env a.book s.heap.next a.now)
      (fun _ c => ∃ s₁, c = ⟨s₁, resp⟩ ∧ Matched s s₁ a ∧ LoopOk env s a) (fun _ _ => False)
      ⟨s.opened a, resp⟩ := by
    refine matchOrders_opened_wp hlt (fun s₁ hM hloop _ => ⟨s₁, rfl, hM, hloop⟩) ?_
    rintro _ _ _ ⟨_, _, _, hno⟩ _
    exact hno ⟨Or.inr (hall _), hall _, hall _, hall _⟩
  have hmatching : wp (matchOrders env a.book s.heap.next a.now)
      (fun _ c => Matching a.book (s.fills a) (s.opened a) c.serv) (fun _ _ => True)
      ⟨s.opened a, resp⟩ := by
    refine matchOrders_matching ?_
    have hside : ((s.opened a).heap s.heap.next).side = a.side := by rw [Serv.opened_taker]; rfl
    rw [hside]
    exact (Serv.opened_fills hlt).symm
  unfold createOrder checkOrder
  simp only [wp_bind, wp_get, wp_ite, wp_throw, wp_pure]
  refine ⟨fun _ => Or.inl trivial, fun hopen => ⟨fun _ => Or.inl trivial, fun hgood => ?_⟩⟩
  refine openOrder_wp (fun hopenOk => ?_) (fun _ _ _ hno => absurd ⟨hall _, hall _⟩ hno)
  rw [wp_bind]
  refine wp_mono (wp_and hmatched hmatching) ?_ (fun _ _ h => h.1.elim)
  rintro ⟨⟩ _ ⟨⟨s₁, rfl, hM, hloop⟩, hmatching⟩
  rw [wp_withFinally, wp_bind]
  refine placeOrder_wp (fun hlevel => ?_) (fun hno => absurd (Or.inr (Or.inr (hall _))) hno)
  have hreaches : ReachesJourn env s a := ⟨⟨hopen, hgood⟩, hopenOk, hloop, hM.levelOk.mpr hlevel⟩
  rw [wp_bind]
  refine journOrder_wp (fun hyes => ?_) (fun hno => ?_)
  · rw [← bind_assoc, wp_bind]
    refine prepare_wp (fun _ => ?_) (fun _ hno _ => ?_)
    · exact ⟨s₁, ⟨hreaches, hyes, ⟨fun _ => Or.inr (hall _), fun _ => hall _, fun _ => hall _⟩,
        hM, rfl⟩, hopened hmatching⟩
    · exact absurd ⟨fun _ => Or.inr (hall _), fun _ => hall _, fun _ => hall _⟩ hno
  · rw [hM.undo hb hv.book hv.lots.le]
    exact Or.inr ⟨s₁, hM, hopened hmatching, rfl⟩

/-- **A call touches only what takes part**, whether it commits, is refused, or is stopped
by the journal. -/
theorem createOrder_touches {s₀ : Serv} (h₀ : s₀.EmptyBooks) (hrun : Run NoAllocFailure s₀ s)
    (hv : a.Valid s) (hall : ∀ site, env.alloc site = true) (resp : Response) :
    TouchesOnly s ((createOrder env a).final ⟨s, resp⟩).serv a := by
  have hi := CallInv.run h₀ (Run.mono (fun _ _ _ _ h => h.sound.1) hrun)
  rcases wp_cases (createOrder_ends hall hi.books hv resp) with
    ⟨⟨⟩, c', hok, s₁, hC, h⟩ | ⟨e, c', herror, hsame | ⟨s₁, hM, h, hclear⟩⟩
  · rw [final_ok hok]
    exact hC.touches hi hv h
  · rw [final_error herror, hsame]
    exact TouchesOnly.refl s a
  · rw [final_error herror, hclear]
    exact h.touches hM hi.books

/-- The next order meets MARAYL's bid. -/
theorem offer_touches : TouchesOnly Mock.offer
    ((createOrder Mock.env (Mock.order Mock.swirly .sell 2 12345)).final ⟨Mock.offer, {}⟩).serv
    (Mock.order Mock.swirly .sell 2 12345) :=
  createOrder_touches Mock.serv_empty.toEmptyBooks Mock.offer_run
    (Mock.order_valid (by decide) (by decide) (by decide)) (fun _ => rfl) {}

end Touches

end Swirly
