import Swirly.Fig.Checked
import Swirly.Fig.Load
import Swirly.Fig.Outcome

/-!
# Swirly.Fig.Admit

**Which orders the book can hold.** A request may carry any 64-bit quantities, and
`createOrder` tests two things: the lots are not zero, and no less than the minimum. That
lets orders through that the book has no place for. `Serv.CanHold` is what an order must
meet: its lots are positive, and if some of them are left after matching, it has a price,
its minimum is not negative, and the lots of its level still fit in 64 bits.

`createOrder_admits` says that this is exactly what it takes: as long as only such orders
get past the tests, no check of `createOrderChecked` fails in any run, and an order that
is not of this kind fails one.

Prices may be any 64-bit values as well, and their differences wrap. So the calls are those in
which the differences that the loop looks at fit, and the key of what is left to rest
(`Serv.PricesFit`): there the lots that the machine gives to each maker are the fills
(`HoldInv.fills64_eq`). Costs are read by no check, and may wrap.
-/

namespace Swirly

open Lib (Heap Halt Fits Arith int64 wrap)
open Lib.Effect
open Lib.Checked (lift check wp_lift wp_check lift_bind OnlyThrows Fails passes_of_wp
  not_passes_of_wp)
open Relation (ReflTransGen)

/-! ### What is asked of an order -/

/-- The lots that are left of the order when it has traded with all orders it crosses. -/
def Serv.leaves (s : Serv) (a : OrderArgs) : Int := a.lots - sumResd s.heap (s.crossing a)

/-- The book can hold the order. -/
structure Serv.CanHold (s : Serv) (a : OrderArgs) : Prop where
  lots : 0 < a.lots
  ticks : 0 < s.leaves a → a.ticks ≠ 0
  minLots : 0 < s.leaves a → 0 ≤ a.minLots
  fits : 0 < s.leaves a →
    levelLots s.heap ((s.markets.get a.book).side a.side).orders (composeKey a.side a.ticks) +
      s.leaves a < 2 ^ 63

/-- There is room for the order in the book, whatever else is asked of it. -/
structure Serv.HasRoom (s : Serv) (a : OrderArgs) : Prop where
  lots : 0 < a.lots
  fits : 0 < s.leaves a →
    levelLots s.heap ((s.markets.get a.book).side a.side).orders (composeKey a.side a.ticks) +
      s.leaves a < 2 ^ 63

theorem Serv.CanHold.room {s : Serv} {a : OrderArgs} (h : s.CanHold a) : s.HasRoom a :=
  ⟨h.lots, h.fits⟩

/-- The prices that the call compares are the machine's: the spread to each maker that the loop
looks at fits, and so does the key of the level that a remainder is to rest at. -/
structure Serv.PricesFit (s : Serv) (a : OrderArgs) : Prop where
  spreads : ∀ p ∈ seenOf s.heap (s.newOrder a) a.lots (s.makers a),
    Fits int64 (spread (s.newOrder a) (s.heap p) a.side.direct)
  key : 0 < s.leaves a → Fits int64 (composeKey a.side a.ticks)

/-- The values of a 64-bit field. -/
def IsInt64 (x : Int) : Prop := -2 ^ 63 ≤ x ∧ x < 2 ^ 63

/-- What a request delivers: an existing session and market, and any quantities. -/
structure OrderArgs.Delivered (a : OrderArgs) (s : Serv) : Prop where
  sess : a.sess ∈ s.traders.keys
  book : a.book ∈ s.markets.keys
  lots : IsInt64 a.lots
  ticks : IsInt64 a.ticks
  minLots : IsInt64 a.minLots

/-- One call with what a request delivers. -/
def Submit (P : CallCond) (s s' : Serv) : Prop :=
  ∃ env a resp, a.Delivered s ∧ resp.Cleared ∧ P env s a resp ∧
    s' = ((createOrder env a).final ⟨s, resp⟩).serv

/-- The tests let through what the book can hold, at prices that fit, and no match is left
behind. -/
def Admitted : CallCond := fun env s a _ =>
  (ChecksOk env s a → s.PricesFit a ∧ s.CanHold a) ∧ ¬ Strands env s a

/-! ### Quantities in order -/

theorem levelLots_nonneg {h : Heap Order} {ps : List OrderPtr} (hps : ∀ p ∈ ps, 0 ≤ (h p).resd)
    (k : Int) : 0 ≤ levelLots h ps k := by
  have hle : Lib.tally (fun p => (h p).key = k) (fun p => (h p).resd) [] ≤ levelLots h ps k :=
    Lib.tally_le_of_subset List.nodup_nil (by simp) (fun p hp _ => hps p hp)
  exact hle

theorem Level.resd64_nonneg {l : Level} (h₀ : 0 ≤ l.resd) (h : l.resd < 2 ^ 63) :
    0 ≤ l.resd64 := by
  unfold resd64
  rw [Int.bmod_eq_of_le (by omega) (by omega)]
  exact h₀

theorem Level.resd64_neg {l : Level} (h : 2 ^ 63 ≤ l.resd) (h' : l.resd < 2 ^ 64) :
    l.resd64 < 0 := by
  have hmod : l.resd % ((2 ^ 64 : Nat) : Int) = l.resd :=
    Int.emod_eq_of_lt (by omega) (by push_cast; omega)
  unfold resd64
  rw [Int.bmod_def, hmod, if_neg (by push_cast; omega)]
  push_cast
  omega

/-- What the checks on the quantities ask of the books at rest. -/
structure Sane (s : Serv) : Prop where
  exec : ∀ m ∈ s.markets.keys, ∀ sd, ∀ p ∈ ((s.markets.get m).side sd).orders,
    0 ≤ (s.heap p).exec
  fits : ∀ m ∈ s.markets.keys, ∀ sd k,
    levelLots s.heap ((s.markets.get m).side sd).orders k < 2 ^ 63

namespace Sane

variable {s s' : Serv}

/-- Nothing in the market is negative. -/
theorem sides (hs : Sane s) (hb : BooksOk s) {m : Mnem} (hm : m ∈ s.markets.keys) (sd : Side) :
    ((s.markets.get m).side sd).NonNeg s.heap := by
  have hok := hb m hm sd
  refine ⟨fun q hq => ⟨(hok.resd_pos hq).le, hs.exec m hm sd q hq⟩, fun l hl => ?_⟩
  obtain ⟨blocks, hr⟩ := hok.rep
  have hresd := hr.level_resd hl
  have hnonneg := levelLots_nonneg (fun q hq => (hok.resd_pos hq).le) l.key
  exact Level.resd64_nonneg (by rwa [hresd]) (by rw [hresd]; exact hs.fits m hm sd l.key)

theorem nonNeg (hs : Sane s) (hb : BooksOk s) {m : Mnem} (hm : m ∈ s.markets.keys) {p : OrderPtr}
    (hp : (s.heap p).NonNeg) : s.NonNeg m p :=
  ⟨hp, hs.sides hb hm .buy, hs.sides hb hm .sell⟩

theorem of_eq (hs : Sane s) (hheap : s'.heap = s.heap) (hmarkets : s'.markets = s.markets) :
    Sane s' := by
  refine ⟨?_, ?_⟩ <;> rw [hheap, hmarkets]
  · exact hs.exec
  · exact hs.fits

end Sane

/-- **Orders that only lose lots** make no level larger. -/
theorem levelLots_le {h h' : Heap Order} {ps ps' : List OrderPtr} (hnodup : ps'.Nodup)
    (hps : ∀ p ∈ ps, 0 ≤ (h p).resd)
    (hsub : ∀ q ∈ ps', q ∈ ps ∧ (h' q).key = (h q).key ∧ (h' q).resd ≤ (h q).resd) (k : Int) :
    levelLots h' ps' k ≤ levelLots h ps k := by
  refine Lib.tally_le_of_subset hnodup (fun q hq hk => ?_) (fun p hp _ => hps p hp)
  obtain ⟨hmem, hkey, hle⟩ := hsub q hq
  exact ⟨hmem, hkey.symm.trans hk, hle⟩

section Alloc

variable {h : Heap Order} {ps : List OrderPtr} (hps : ∀ p ∈ ps, p < h.next) (o : Order) (k : Int)

include hps

theorem levelLots_alloc_of_lt : levelLots (h.alloc o) ps k = levelLots h ps k := by
  unfold levelLots
  rw [Lib.tally_congr (fun p hp => by rw [Heap.alloc_of_lt (hps p hp)])]
  exact Lib.tally_congr_right (fun p hp => by rw [Heap.alloc_of_lt (hps p hp)])

/-- A new order among orders that are known. -/
theorem levelLots_alloc : levelLots (h.alloc o) (h.next :: ps) k =
    (if o.key = k then o.resd else 0) + levelLots h ps k := by
  rw [← levelLots_alloc_of_lt hps o k]
  unfold levelLots
  rw [Lib.tally_cons, Heap.alloc_self]

end Alloc

theorem BooksOk.lt_next {s : Serv} (hb : BooksOk s) {m : Mnem} (hm : m ∈ s.markets.keys)
    (sd : Side) : ∀ p ∈ ((s.markets.get m).side sd).orders, p < s.heap.next :=
  fun p hp => ((hb m hm sd).rests p hp).lt_next

/-- **Books that only lose lots** stay in order. -/
theorem Sane.shrink {s s' : Serv} (hs : Sane s) (hb : BooksOk s) (hb' : BooksOk s')
    (hkeys : s'.markets.keys = s.markets.keys)
    (hmem : ∀ m ∈ s.markets.keys, ∀ sd, ∀ q ∈ ((s'.markets.get m).side sd).orders,
      q ∈ ((s.markets.get m).side sd).orders ∧ (s'.heap q).key = (s.heap q).key ∧
        (s'.heap q).resd ≤ (s.heap q).resd ∧ (s.heap q).exec ≤ (s'.heap q).exec) : Sane s' := by
  refine ⟨fun m hm sd q hq => ?_, fun m hm sd k => ?_⟩
  · rw [hkeys] at hm
    obtain ⟨hq, -, -, hexec⟩ := hmem m hm sd q hq
    exact (hs.exec m hm sd q hq).trans hexec
  · have hnodup := (hb' m hm sd).nodup
    rw [hkeys] at hm
    refine lt_of_le_of_lt (levelLots_le hnodup (fun p hp => ((hb m hm sd).resd_pos hp).le)
      (fun q hq => ?_) k) (hs.fits m hm sd k)
    obtain ⟨hq, hkey, hresd, -⟩ := hmem m hm sd q hq
    exact ⟨hq, hkey, hresd⟩

/-! ### The taker -/

section Taker

variable {s s' : Serv} {a : OrderArgs}

theorem BooksOk.taker_resd_eq (hb : BooksOk s) (hm : a.book ∈ s.markets.keys)
    (hlots : 0 ≤ a.lots) : (s.taker a).resd = max (s.leaves a) 0 := by
  have hsum := hb.sum_fills hm hlots
  have hresd := s.taker_resd (a := a)
  unfold Serv.leaves
  omega

/-- Lots are executed or residual. -/
theorem Serv.taker_exec : (s.taker a).exec = a.lots - (s.taker a).resd := by
  unfold Serv.taker
  split
  · show (0 : Int) = a.lots - a.lots
    omega
  · show 0 + (s.sums a).sumLots = a.lots - (a.lots - (s.sums a).sumLots)
    omega

theorem Serv.taker_level_key : (s.taker a).key = composeKey a.side a.ticks := Serv.taker_key

theorem BooksOk.taker_nonNeg (hb : BooksOk s) (hm : a.book ∈ s.markets.keys)
    (hroom : s.HasRoom a) : (s.taker a).NonNeg := by
  have hlots := hroom.lots
  have hresd := hb.taker_resd_eq hm hlots.le
  have hexec := s.taker_exec (a := a)
  have hleaves : s.leaves a ≤ a.lots := by
    have hcross : 0 ≤ sumResd s.heap (s.crossing a) := List.sum_nonneg (fun x hx => by
      obtain ⟨p, hp, rfl⟩ := List.mem_map.mp hx
      exact (hb.crossing_resd_pos hm p hp).le)
    unfold Serv.leaves
    omega
  exact ⟨by omega, by omega⟩

/-- The orders of a side, with the taker where it may have come to rest. -/
def Serv.withTaker (s : Serv) (a : OrderArgs) (m : Mnem) (sd : Side) : List OrderPtr :=
  if m = a.book ∧ sd = a.side ∧ 0 < (s.taker a).resd then
    s.heap.next :: ((s.markets.get m).side sd).orders
  else ((s.markets.get m).side sd).orders

theorem Serv.mem_withTaker {m : Mnem} {sd : Side} {q : OrderPtr} : q ∈ s.withTaker a m sd ↔
    q ∈ ((s.markets.get m).side sd).orders ∨
      q = s.heap.next ∧ m = a.book ∧ sd = a.side ∧ 0 < (s.taker a).resd := by
  unfold withTaker
  split
  · next h => simp [h, or_comm]
  · next h => simp [h]

/-- There is room for the taker. -/
theorem Sane.fits_withTaker (hs : Sane s) (hb : BooksOk s) (hbook : a.book ∈ s.markets.keys)
    (hroom : s.HasRoom a) {m : Mnem} (hm : m ∈ s.markets.keys) (sd : Side) (k : Int) :
    levelLots (s.heap.alloc (s.taker a)) (s.withTaker a m sd) k < 2 ^ 63 := by
  have hlt := hb.lt_next hm sd
  have hfits := hs.fits m hm sd k
  unfold Serv.withTaker
  split
  · next hrests =>
      obtain ⟨rfl, rfl, hpos⟩ := hrests
      have hresd := hb.taker_resd_eq hbook hroom.lots.le
      have hlotsFit := hroom.fits (by omega)
      rw [levelLots_alloc hlt, Serv.taker_level_key]
      split
      · next hk => rw [← hk]; omega
      · omega
  · rw [levelLots_alloc_of_lt hlt]
    exact hfits

/-- **Books that gained the taker at most** are in order. -/
theorem Sane.of_taker (hs : Sane s) (hb : BooksOk s) (hbook : a.book ∈ s.markets.keys)
    (hroom : s.HasRoom a) (hb' : BooksOk s') (hkeys : s'.markets.keys = s.markets.keys)
    (hmem : ∀ m ∈ s.markets.keys, ∀ sd, ∀ q ∈ ((s'.markets.get m).side sd).orders,
      q ∈ s.withTaker a m sd)
    (hold : ∀ q < s.heap.next, (s'.heap q).key = (s.heap q).key ∧
      (s'.heap q).resd ≤ (s.heap q).resd ∧ (s.heap q).exec ≤ (s'.heap q).exec)
    (hnew : (s'.heap s.heap.next).key = (s.taker a).key ∧
      (s'.heap s.heap.next).resd = (s.taker a).resd ∧
      (s'.heap s.heap.next).exec = (s.taker a).exec) : Sane s' := by
  have htaker := hb.taker_nonNeg hbook hroom
  refine ⟨fun m hm sd q hq => ?_, fun m hm sd k => ?_⟩
  · rw [hkeys] at hm
    rcases Serv.mem_withTaker.mp (hmem m hm sd q hq) with hq | ⟨rfl, -, -, -⟩
    · exact (hs.exec m hm sd q hq).trans (hold q (hb.lt_next hm sd q hq)).2.2
    · rw [hnew.2.2]
      exact htaker.2
  · have hnodup := (hb' m hm sd).nodup
    rw [hkeys] at hm
    refine lt_of_le_of_lt (levelLots_le hnodup (fun p hp => ?_) (fun q hq => ?_) k)
      (hs.fits_withTaker hb hbook hroom hm sd k)
    · rcases Serv.mem_withTaker.mp hp with hp | ⟨rfl, -, -, -⟩
      · rw [Heap.alloc_of_lt (hb.lt_next hm sd p hp)]
        exact ((hb m hm sd).resd_pos hp).le
      · rw [Heap.alloc_self]
        exact htaker.1
    · have hq' := hmem m hm sd q hq
      refine ⟨hq', ?_⟩
      rcases Serv.mem_withTaker.mp hq' with hq | ⟨rfl, -, -, -⟩
      · have hlt := hb.lt_next hm sd q hq
        rw [Heap.alloc_of_lt hlt]
        exact ⟨(hold q hlt).1, (hold q hlt).2.1⟩
      · rw [Heap.alloc_self]
        exact ⟨hnew.1, hnew.2.1.le⟩

end Taker

/-! ### One call -/

/-- What every run of calls that the books can hold preserves. -/
structure HoldInv (s : Serv) : Prop extends CallInv s where
  sane : Sane s

section Step

variable {env : Env} {s s' : Serv} {a : OrderArgs} {resp : Response}

theorem HoldInv.init (h : s.EmptyBooks) : HoldInv s where
  toCallInv := CallInv.init h
  sane := by
    refine ⟨fun m hm sd p hp => ?_, fun m hm sd k => ?_⟩
    · rw [h.side m hm] at hp
      exact absurd hp List.not_mem_nil
    · rw [h.side m hm]
      show (0 : Int) < 2 ^ 63
      decide

/-- A call that its tests reject changes nothing. -/
theorem createOrder_rejected (h : ¬ ChecksOk env s a) :
    ((createOrder env a).final ⟨s, resp⟩).serv = s := by
  have hwp : wp (createOrder env a) (fun _ _ => False) (fun _ c' => c'.serv = s) ⟨s, resp⟩ := by
    unfold createOrder checkOrder
    simp only [wp_bind, wp_get, wp_ite, wp_throw, wp_pure]
    exact ⟨fun _ => trivial,
      fun hopen => ⟨fun _ => trivial, fun hgood => absurd ⟨hopen, hgood⟩ h⟩⟩
  rcases wp_cases hwp with ⟨_, _, -, hno⟩ | ⟨e, c', herror, hserv⟩
  · exact hno.elim
  · rw [final_error herror]
    exact hserv

theorem Sane.ext (hs : Sane s) (hb : BooksOk s) (he : Ext a.book s s') : Sane s' := by
  refine hs.shrink hb (hb.ext he) he.marketKeys (fun m hm sd q hq => ?_)
  rw [he.side] at hq
  rw [he.heap q (hb.lt_next hm sd q hq)]
  exact ⟨hq, rfl, le_rfl, le_rfl⟩

theorem Sane.takenAll {now : Int} {fs : List (OrderPtr × Int)} (hs : Sane s) (hb : BooksOk s)
    (hT : TakenAll s s' now fs) (hfs : ∀ f ∈ fs, 0 ≤ f.2) : Sane s' := by
  refine hs.shrink hb hT.books hT.keys (fun m hm sd q hq => ⟨((hT.mem m hm sd q).mp hq).1, ?_⟩)
  by_cases hmaker : q ∈ fs.map Prod.fst
  · obtain ⟨f, hf, rfl⟩ := List.mem_map.mp hmaker
    have hpos := hfs f hf
    rw [hT.heap_of_mem f hf, Order.taken_resd, Order.taken_exec]
    exact ⟨Order.taken_proj _ _ _ Order.key (fun _ _ => rfl) (fun _ _ _ _ _ _ => rfl),
      by omega, by omega⟩
  · rw [hT.heap_of_not_mem q hmaker]
    exact ⟨rfl, le_rfl, le_rfl⟩

theorem Sane.traded (hs : Sane s) (hb : BooksOk s) (hbook : a.book ∈ s.markets.keys)
    (hroom : s.HasRoom a) (ht : Traded s s' a) : Sane s' := by
  refine hs.of_taker hb hbook hroom ht.books ht.marketKeys (fun m hm sd q hq => ?_)
    (fun q hq => ?_) ⟨?_, ?_, ?_⟩
  · obtain ⟨hq, hpos⟩ := (ht.mem m hm sd q).mp hq
    refine Serv.mem_withTaker.mpr (hq.imp_right ?_)
    rintro ⟨rfl, rfl, rfl⟩
    rw [ht.taker_proj Order.resd (fun _ _ => rfl)] at hpos
    exact ⟨rfl, rfl, rfl, hpos⟩
  · refine ⟨ht.proj_old Order.key (fun _ _ => rfl) (fun _ _ _ _ _ _ => rfl) hq, ?_⟩
    by_cases hmaker : q ∈ (s.fills a).map Prod.fst
    · obtain ⟨f, hf, rfl⟩ := List.mem_map.mp hmaker
      have hpos := (hb.fill_bounds hbook hroom.lots.le f hf).1
      rw [ht.heap_maker f hf, Order.taken_resd, Order.taken_exec]
      exact ⟨by omega, by omega⟩
    · rw [ht.heap_old q hq hmaker]
      exact ⟨le_rfl, le_rfl⟩
  · exact ht.taker_proj Order.key (fun _ _ => rfl)
  · exact ht.taker_proj Order.resd (fun _ _ => rfl)
  · exact ht.taker_proj (fun o : Order => o.exec) (fun _ _ => rfl)

theorem Sane.orphaned (hs : Sane s) (hb : BooksOk s) (hbook : a.book ∈ s.markets.keys)
    (hroom : s.HasRoom a) (ho : Orphaned s s' a) : Sane s' := by
  refine hs.of_taker hb hbook hroom ho.books ho.marketKeys (fun m _ sd q hq => ?_)
    (fun q hq => ?_) ?_
  · exact Serv.mem_withTaker.mpr ((ho.mem m sd q).mp hq)
  · rw [ho.heap, Heap.alloc_of_lt hq]
    exact ⟨rfl, le_rfl, le_rfl⟩
  · rw [ho.heap, Heap.alloc_self]
    exact ⟨Serv.takerPlaced_proj Order.key (fun _ _ => rfl),
      Serv.takerPlaced_proj Order.resd (fun _ _ => rfl),
      Serv.takerPlaced_proj (fun o : Order => o.exec) (fun _ _ => rfl)⟩

/-- **Every call that gets as far as the journal only with an order there is room for** keeps
the invariant. -/
theorem HoldInv.call (hi : HoldInv s) (ha : a.Delivered s) (hlots : ChecksOk env s a → 0 < a.lots)
    (hroom : ReachesJourn env s a → s.HasRoom a) (hstrand : ¬ Strands env s a) :
    HoldInv ((createOrder env a).final ⟨s, resp⟩).serv := by
  by_cases hchecks : ChecksOk env s a
  · have hlots := (hlots hchecks).le
    have hb := hi.books
    rcases createOrder_cases env resp hb ha.book hlots with ⟨c', s₁, hok, hC⟩ | ⟨e, c', herror, hf⟩
    · have ht := hC.traded hb ha.book ha.sess hlots hi.matchVec
      rw [final_ok hok]
      exact ⟨hi.toCallInv.traded ha.sess ht, hi.sane.traded hb ha.book (hroom hC.reaches) ht⟩
    · rw [final_error herror]
      rcases hf.cases hb ha.book hlots hi.matchVec hstrand with ⟨he, hmv⟩ | ⟨⟨hreaches, -⟩, ho⟩
      · exact ⟨hi.toCallInv.ext he hmv, hi.sane.ext hb he⟩
      · exact ⟨hi.toCallInv.orphaned ha.sess ho,
          hi.sane.orphaned hb ha.book (hroom hreaches) ho⟩
  · rw [createOrder_rejected hchecks]
    exact hi

/-- **Every call that gets past the tests only with an order that the book can hold** keeps
the invariant. -/
theorem HoldInv.step (hi : HoldInv s) (hstep : Submit Admitted s s') : HoldInv s' := by
  obtain ⟨env, a, resp, ha, -, ⟨hcan, hstrand⟩, rfl⟩ := hstep
  exact hi.call ha (fun hchecks => (hcan hchecks).2.lots)
    (fun hreaches => (hcan hreaches.checks).2.room) hstrand

/-! ### The fills of the machine -/

/-- **The machine makes the fills** where the spreads fit, by induction on the orders it has not
looked at: what it has filled so far is between nothing and what is wanted, so it fits. -/
theorem fillsOf64_eq {w : Arith} (hw : w.Faithful int64) (h : Heap Order) (taker : Order)
    (hfit : taker.resd < 2 ^ 63) (orders : List OrderPtr) (sums : Sums)
    (hnonneg : 0 ≤ sums.sumLots) (hle : sums.sumLots ≤ taker.resd)
    (hpos : ∀ p ∈ orders, 0 < (h p).resd)
    (hspreads : ∀ p ∈ seenOf h taker (taker.resd - sums.sumLots) orders,
      Fits int64 (spread taker (h p) taker.side.direct)) :
    fillsOf64 w h taker sums orders = fillsOf h taker (taker.resd - sums.sumLots) orders := by
  induction orders generalizing sums with
  | nil => rfl
  | cons p orders ih =>
      have hresd := hpos p List.mem_cons_self
      unfold fillsOf64
      by_cases hfull : sums.sumLots = taker.resd
      · rw [if_pos hfull, hfull, sub_self, fillsOf_zero]
      · have hwant : taker.resd - sums.sumLots ≠ 0 := by omega
        unfold seenOf at hspreads
        rw [if_neg hwant] at hspreads
        have hspread : Fits int64 (spread taker (h p) taker.side.direct) := by
          refine hspreads p ?_
          split
          · exact List.mem_cons_self
          · exact List.mem_singleton_self p
        rw [if_neg hfull, spread64_eq, hw _ hspread]
        by_cases hyes : crosses taker (h p) = true
        · have hno : ¬ 0 < spread taker (h p) taker.side.direct := by
            simpa [crosses] using hyes
          rw [if_pos hyes] at hspreads
          have hleft : w (taker.resd - sums.sumLots) = taker.resd - sums.sumLots :=
            hw _ (Lib.fits_int64.mpr ⟨by omega, by omega⟩)
          rw [if_neg hno, fillsOf_cons orders hwant hyes, hleft]
          generalize hlots : min (taker.resd - sums.sumLots) (h p).resd = lots at hspreads
          have hsum : (sums.add64 w lots (h p).ticks).sumLots = sums.sumLots + lots :=
            hw _ (Lib.fits_int64.mpr ⟨by omega, by omega⟩)
          have hrest := ih (sums.add64 w lots (h p).ticks) (by omega) (by omega)
            (fun q hq => hpos q (List.mem_cons_of_mem p hq))
          rw [hsum, ← sub_sub] at hrest
          show (p, lots) :: fillsOf64 w h taker _ orders = _
          rw [hrest (fun q hq => hspreads q (List.mem_cons_of_mem p hq))]
        · have hbeyond : 0 < spread taker (h p) taker.side.direct := by
            simpa [crosses] using hyes
          rw [if_pos hbeyond, fillsOf_cons_of_not orders hyes]

/-- The fills of a call in a run, with a price that fits. -/
theorem HoldInv.fills64_eq {w : Arith} (hw : w.Faithful int64) (hi : HoldInv s)
    (ha : a.Delivered s) (hlots : 0 < a.lots) (hprices : s.PricesFit a) :
    s.fills64 w a = s.fills a := by
  have hheap : ∀ p ∈ s.makers a, (s.opened a).heap p = s.heap p :=
    fun p hp => Heap.alloc_of_lt (hi.books.makers_lt ha.book p hp) _
  unfold Serv.fills64 Serv.fills
  refine (fillsOf64_eq hw (s.opened a).heap (s.newOrder a) ha.lots.2 (s.makers a) {} le_rfl
    hlots.le (fun p hp => ?_) (fun p hp => ?_)).trans ?_
  · rw [hheap p hp]
    exact (hi.books a.book ha.book a.side.opposite).resd_pos hp
  · change p ∈ seenOf _ _ (a.lots - 0) _ at hp
    rw [sub_zero, seenOf_congr hheap] at hp
    rw [hheap p (mem_orders_of_mem_seenOf hp)]
    exact hprices.spreads p hp
  · show fillsOf _ _ (a.lots - 0) _ = _
    rw [sub_zero]
    exact fillsOf_congr hheap

end Step

/-! ### No check fails -/

section Passes

variable {env : Env} {s s₁ : Serv} {a : OrderArgs} {resp : Response}

theorem Ctx.commitMatch_books {c : Ctx} {sess book : Mnem} {now : Int} {m : Match}
    (hbook : c.resp.book = some book) :
    (c.commitMatch sess now m).serv.heap = (c.serv.takeOrder book m.makerOrder m.lots now).heap ∧
      (c.commitMatch sess now m).serv.markets =
        (c.serv.takeOrder book m.makerOrder m.lots now).markets ∧
      (c.commitMatch sess now m).resp.book = some book := by
  unfold commitMatch takeOrder addTrade
  simp only [hbook]
  cases c.resp.posn with
  | none =>
      refine ⟨rfl, rfl, ?_⟩
      dsimp only
      split <;> exact hbook
  | some posn =>
      refine ⟨rfl, rfl, ?_⟩
      dsimp only
      split <;> exact hbook

theorem BooksOk.takeOk {m : Mnem} (hb : BooksOk s) (hm : m ∈ s.markets.keys) {sd : Side}
    {p : OrderPtr} (hp : p ∈ ((s.markets.get m).side sd).orders) {lots : Int} (hpos : 0 ≤ lots)
    (hle : lots ≤ (s.heap p).resd) : s.TakeOk m p lots := by
  intro k hk
  have hs := hb m hm sd
  obtain ⟨blocks, hr⟩ := hs.rep
  have hkey : k = (s.heap p).key := by
    have hlevel := (hr.rests_key hp).level
    exact Option.some.inj ((Option.mem_def.mp hk).symm.trans hlevel)
  rw [hs.side hp, hkey]
  exact BookSide.reduceAsserts hr hp hpos hle

/-- The commit loop, entered with the matches `ms` still to be committed. -/
theorem commitMatchesChecked_wp {sess book : Mnem} {now : Int} (sd : Side) {ms : List Match}
    {c : Ctx} (hb : BooksOk c.serv) (hs : Sane c.serv) (hm : book ∈ c.serv.markets.keys)
    (hbook : c.resp.book = some book)
    (hms : ∀ m ∈ ms, m.makerOrder ∈ ((c.serv.markets.get book).side sd).orders ∧
      0 < m.lots ∧ m.lots ≤ (c.serv.heap m.makerOrder).resd)
    (hnodup : (ms.map Match.makerOrder).Nodup) :
    wp (commitMatchesChecked sess book now ms) (fun _ _ => True) OnlyThrows c := by
  induction ms generalizing c with
  | nil => exact trivial
  | cons m ms ih =>
      obtain ⟨hmem, hpos, hle⟩ := hms m List.mem_cons_self
      rw [List.map_cons, List.nodup_cons] at hnodup
      have hone : TakenAll c.serv (c.serv.takeOrder book m.makerOrder m.lots now) now
          [(m.makerOrder, m.lots)] := TakenAll.one (f := (m.makerOrder, m.lots)) hb hm hmem
      have hbooks : _ ∧ _ ∧ (c.commitMatch sess now m).resp.book = _ := Ctx.commitMatch_books hbook
      obtain ⟨hheap, hmarkets, hbook'⟩ := hbooks
      have hb' := hone.books.of_eq hheap hmarkets
      have hs' := (hs.takenAll hb hone (by simpa using hpos.le)).of_eq hheap hmarkets
      have hm' : book ∈ (c.commitMatch sess now m).serv.markets.keys := by
        rw [hmarkets]
        exact hm
      have hmaker : ((c.commitMatch sess now m).serv.heap m.makerOrder).NonNeg := by
        have hexec := hs.exec book hm sd _ hmem
        have htaken : _ = (c.serv.heap m.makerOrder).taken m.lots now :=
          hone.heap_of_mem _ List.mem_cons_self
        rw [hheap, htaken]
        unfold Order.NonNeg
        rw [Order.taken_resd, Order.taken_exec]
        exact ⟨by omega, by omega⟩
      unfold commitMatchesChecked commitMatchChecked
      simp only [wp_bind, wp_check, wp_lift, wp_modify]
      refine ⟨fun _ => ⟨fun _ => ?_, fun hno => absurd (hs'.nonNeg hb' hm' hmaker) hno⟩,
        fun hno => absurd (hb.takeOk hm hmem hpos.le hle) hno⟩
      refine ih hb' hs' hm' hbook' (fun m' hm'' => ?_) hnodup.2
      -- The makers still to be taken are as they were.
      obtain ⟨hmem', hpos', hle'⟩ := hms m' (List.mem_cons_of_mem m hm'')
      have hne : m'.makerOrder ≠ m.makerOrder :=
        fun heq => hnodup.1 (heq ▸ List.mem_map_of_mem hm'')
      obtain ⟨hrests, hsame⟩ := hone.rest hb hm hmem' (by simpa using hne)
      rw [hheap, hmarkets, hsame]
      exact ⟨hrests, hpos', hle'⟩

/-- The books with the taker in its place. -/
theorem Matched.placed_sane (hM : Matched s s₁ a) (hs : Sane s) (hb : BooksOk s)
    (hm : a.book ∈ s.markets.keys) (hroom : s.HasRoom a) :
    Sane (s₁.placed a.book s.heap.next) := by
  obtain ⟨hb', hmem⟩ := hM.placed_books hb hm hroom.lots.le
  refine hs.of_taker hb hm hroom hb' (by rw [Serv.placed_keys, hM.ext.marketKeys])
    (fun m _ sd q hq => Serv.mem_withTaker.mpr ((hmem m sd q).mp hq)) (fun q hq => ?_) ?_
  · rw [hM.placed_heap, Heap.alloc_of_lt hq]
    exact ⟨rfl, le_rfl, le_rfl⟩
  · rw [hM.placed_heap, Heap.alloc_self]
    exact ⟨Serv.takerPlaced_proj Order.key (fun _ _ => rfl),
      Serv.takerPlaced_proj Order.resd (fun _ _ => rfl),
      Serv.takerPlaced_proj (fun o : Order => o.exec) (fun _ _ => rfl)⟩

/-- The assertions that stand before the insertion. -/
theorem BooksOk.insertAsserts (hb : BooksOk s) (hm : a.book ∈ s.markets.keys)
    (hcan : s.CanHold a) : (s.taker a).done = true ∨ BookSide.InsertAsserts (s.taker a) := by
  have hlots := hcan.lots
  have hresd := hb.taker_resd_eq hm hlots.le
  have hexec := s.taker_exec (a := a)
  by_cases hleft : 0 < s.leaves a
  · have htlots : (s.taker a).lots = a.lots :=
      Serv.taker_proj (fun o => o.lots) (fun _ _ _ _ _ _ => rfl)
    have hticks : (s.taker a).ticks = a.ticks :=
      Serv.taker_proj (fun o => o.ticks) (fun _ _ _ _ _ _ => rfl)
    have hmin : (s.taker a).minLots = a.minLots :=
      Serv.taker_proj (fun o => o.minLots) (fun _ _ _ _ _ _ => rfl)
    refine Or.inr ⟨Serv.taker_level, ?_, ?_, ?_, ?_, ?_⟩
    · rw [hticks]; exact hcan.ticks hleft
    · omega
    · rw [htlots]; omega
    · rw [htlots]; exact hlots
    · rw [hmin]; exact hcan.minLots hleft
  · refine Or.inl ?_
    have hzero : (s.taker a).resd = 0 := by omega
    simpa [Order.done] using hzero

/-- The assertions of the guard that takes the order out again. -/
theorem Matched.removeOk (hM : Matched s s₁ a) (hb : BooksOk s) (hm : a.book ∈ s.markets.keys)
    (hlots : 0 ≤ a.lots) :
    ((s₁.placed a.book s.heap.next).heap s.heap.next).done = true ∨
      (s₁.placed a.book s.heap.next).RemoveOk a.book s.heap.next := by
  obtain ⟨hb', hmem⟩ := hM.placed_books hb hm hlots
  have hnonneg := hb.taker_resd_nonneg hm hlots
  have hresd : ((s₁.placed a.book s.heap.next).heap s.heap.next).resd = (s.taker a).resd := by
    rw [hM.placed_heap, Heap.alloc_self]
    exact Serv.takerPlaced_proj Order.resd (fun _ _ => rfl)
  rcases Int.lt_or_eq_of_le hnonneg with hpos | hzero
  · have hin := (hmem a.book a.side s.heap.next).mpr (Or.inr ⟨rfl, rfl, rfl, hpos⟩)
    have hm' : a.book ∈ (s₁.placed a.book s.heap.next).markets.keys := by
      rw [Serv.placed_keys, hM.ext.marketKeys]
      exact hm
    have hside := hb' a.book hm' a.side
    obtain ⟨blocks, hr⟩ := hside.rep
    refine Or.inr (fun k hk => ?_)
    have hlevel := (hr.rests_key hin).level
    have hkey := Option.some.inj ((Option.mem_def.mp hk).symm.trans hlevel)
    rw [hside.side hin, hkey]
    exact BookSide.removeAsserts hr hin
  · refine Or.inl ?_
    simpa [Order.done, hresd] using hzero.symm

/-- The commit phase takes the makers from where they rest. -/
theorem Matched.commits_wp (hM : Matched s s₁ a) (hi : HoldInv s) (hm : a.book ∈ s.markets.keys)
    (hcan : s.CanHold a) :
    wp (commitMatchesChecked a.sess a.book a.now (s.committing s₁ a).matchVec)
      (fun _ _ => True) OnlyThrows ⟨s.committing s₁ a, resp.committing s s₁ a⟩ := by
  have hb := hi.books
  have hlots := hcan.lots.le
  have hsane := (hM.placed_sane hi.sane hb hm hcan.room).of_eq (s.committing_heap s₁ a)
    (s.committing_markets s₁ a)
  rw [hM.committing_matchVec hi.matchVec]
  refine commitMatchesChecked_wp a.side.opposite (hM.committing_books hb hm hlots) hsane
    (hM.committing_keys ▸ hm) rfl (fun m hmem => ?_) ?_
  · have hfill := Serv.mem_fills hmem
    have hmaker := mem_orders_of_mem_fillsOf hfill
    have hbounds := hb.fill_bounds hm hlots _ hfill
    rw [hM.committing_heap_old _ (hb.makers_lt hm _ hmaker)]
    exact ⟨(hM.mem_committing hb hm hlots _ _ _).mpr (Or.inl hmaker), hbounds⟩
  · rw [s.newMatches_makers]
    exact hb.fills_nodup hm

/-- No check fails from the placing of the order on. -/
theorem Matched.settle_wp (hM : Matched s s₁ a) (hi : HoldInv s) (hm : a.book ∈ s.markets.keys)
    (hcan : s.CanHold a) :
    wp (do
        placeOrderChecked env a.book s.heap.next
        check .nonNeg (fun c => c.serv.NonNeg a.book s.heap.next)
        journOrderChecked env a.book s.heap.next (s.newExec a)
        lift (preparePosn env a)
        lift (prepareResp env a)
        commitOrderChecked a s.heap.next (s.newExec a))
      (fun _ _ => True) OnlyThrows ⟨s₁, resp⟩ := by
  have hb := hi.books
  have hlots := hcan.lots.le
  have hplaced := hM.placed_sane hi.sane hb hm hcan.room
  have hm₁ : a.book ∈ s₁.markets.keys := hM.ext.marketKeys ▸ hm
  have hnonNeg : (s₁.placed a.book s.heap.next).NonNeg a.book s.heap.next := by
    refine hplaced.nonNeg (hM.placed_books hb hm hlots).1 (by rwa [Serv.placed_keys]) ?_
    have htaker := hb.taker_nonNeg hm hcan.room
    rw [hM.placed_heap, Heap.alloc_self]
    exact ⟨(Serv.takerPlaced_proj Order.resd (fun _ _ => rfl)).symm ▸ htaker.1,
      (Serv.takerPlaced_proj (fun o : Order => o.exec) (fun _ _ => rfl)).symm ▸ htaker.2⟩
  unfold placeOrderChecked journOrderChecked
  rw [wp_bind, wp_bind, wp_check]
  refine ⟨fun _ => ?_, fun hno => absurd (by rw [hM.taker]; exact hb.insertAsserts hm hcan) hno⟩
  rw [wp_lift]
  refine placeOrder_wp (fun _ => ?_) (fun _ => ⟨_, rfl⟩)
  rw [wp_bind, wp_check]
  refine ⟨fun _ => ?_, fun hno => absurd hnonNeg hno⟩
  rw [wp_bind, wp_bind, wp_check]
  refine ⟨fun _ => ?_, fun hno => absurd (Or.inr (hM.removeOk hb hm hlots)) hno⟩
  rw [wp_lift]
  refine journOrder_wp (fun _ => ?_) (fun _ => ⟨_, rfl⟩)
  rw [← bind_assoc, lift_bind, wp_bind, wp_lift]
  refine prepare_wp (fun _ => ?_) (fun c' _ _ => ⟨_, rfl⟩)
  unfold commitOrderChecked
  rw [wp_bind, wp_lift, wp_modify, wp_bind, wp_get]
  exact hM.commits_wp hi hm hcan

/-- **No check fails** in a call with an order that the book can hold. -/
theorem HoldInv.passes_wp (hi : HoldInv s) (hm : a.book ∈ s.markets.keys)
    (hcan : ChecksOk env s a → s.CanHold a) :
    wp (createOrderChecked env a) (fun _ _ => True) OnlyThrows ⟨s, resp⟩ := by
  have hb := hi.books
  unfold createOrderChecked checkOrder
  simp only [wp_bind, wp_lift, wp_get, wp_ite, wp_throw, wp_pure]
  refine ⟨fun _ => ⟨_, rfl⟩, fun hopen => ⟨fun _ => ⟨_, rfl⟩, fun hgood => ?_⟩⟩
  have hcan := hcan ⟨hopen, hgood⟩
  have hlots := hcan.lots.le
  refine openOrder_wp (fun _ => ?_) (fun s' _ _ _ => ⟨_, rfl⟩)
  simp only [wp_bind, wp_lift]
  refine matchOrders_opened_wp (hb.makers_lt hm) (fun s₁ hM _ _ => ?_)
    (fun s' j _ _ _ => ⟨_, rfl⟩)
  have hmatches : ∀ m ∈ s₁.matchVec, 0 < m.lots := by
    rw [hM.matchVec, hi.matchVec, List.nil_append]
    intro m hmem
    exact (hb.fill_bounds hm hlots _ (Serv.mem_fills hmem)).1
  have hnonNeg : s₁.NonNeg a.book s.heap.next :=
    (hi.sane.ext hb hM.ext).nonNeg (hb.ext hM.ext) (hM.ext.marketKeys ▸ hm)
      (hM.taker ▸ hb.taker_nonNeg hm hcan.room)
  rw [wp_bind, wp_check]
  refine ⟨fun _ => ?_, fun hno => absurd hmatches hno⟩
  rw [wp_bind, wp_check]
  refine ⟨fun _ => ?_, fun hno => absurd hnonNeg hno⟩
  rw [wp_withFinally]
  exact hM.settle_wp hi hm hcan

end Passes

/-! ### A check fails -/

section Fails

variable {env : Env} {s s₁ : Serv} {a : OrderArgs} {resp : Response}

/-- The level of a taker that came to rest has its lots and those that were there. -/
theorem Matched.level_resd (hM : Matched s s₁ a) (hb : BooksOk s) (hm : a.book ∈ s.markets.keys)
    (hlots : 0 ≤ a.lots) (hleft : 0 < (s.taker a).resd) :
    ∃ l ∈ (((s₁.placed a.book s.heap.next).markets.get a.book).side a.side).levels.elems,
      l.resd = levelLots s.heap ((s.markets.get a.book).side a.side).orders
        (composeKey a.side a.ticks) + (s.taker a).resd := by
  obtain ⟨hb', hmem⟩ := hM.placed_books hb hm hlots
  have hm' : a.book ∈ (s₁.placed a.book s.heap.next).markets.keys := by
    rw [Serv.placed_keys]
    exact hM.ext.marketKeys ▸ hm
  have hside := hb' a.book hm' a.side
  obtain ⟨blocks, hr⟩ := hside.rep
  have hin := (hmem a.book a.side s.heap.next).mpr (Or.inr ⟨rfl, rfl, rfl, hleft⟩)
  obtain ⟨l, hl, hkey⟩ := hr.exists_level hin
  refine ⟨l, hl, ?_⟩
  -- Both sides have the same orders, and these are the same up to their level.
  have hlt := hb.lt_next hm a.side
  have hperm : (((s₁.placed a.book s.heap.next).markets.get a.book).side a.side).orders.Perm
      (s.heap.next :: ((s.markets.get a.book).side a.side).orders) := by
    refine (List.perm_ext_iff_of_nodup hside.nodup ?_).mpr (fun q => ?_)
    · refine List.nodup_cons.mpr ⟨fun hnext => ?_, (hb a.book hm a.side).nodup⟩
      exact lt_irrefl _ (hlt _ hnext)
    · rw [hmem, List.mem_cons]
      simp [hleft, or_comm]
  have hproj : ∀ {β : Type} (π : Order → β), (∀ (o : Order) level, π (o.setLevel level) = π o) →
      ∀ q, π ((s₁.placed a.book s.heap.next).heap q) = π ((s.heap.alloc (s.taker a)) q) := by
    intro β π hπ q
    rw [hM.placed_heap]
    exact Heap.proj_alloc π s.heap (Serv.takerPlaced_proj π hπ) q
  have hkey' : l.key = composeKey a.side a.ticks := by
    rw [hkey, hproj Order.key (fun _ _ => rfl), Heap.alloc_self, Serv.taker_level_key]
  rw [hr.level_resd hl, hkey']
  calc
    levelLots (s₁.placed a.book s.heap.next).heap _ (composeKey a.side a.ticks)
      = levelLots (s.heap.alloc (s.taker a)) _ (composeKey a.side a.ticks) := by
        unfold levelLots
        simp only [hproj Order.key (fun _ _ => rfl), hproj Order.resd (fun _ _ => rfl)]
    _ = levelLots (s.heap.alloc (s.taker a)) _ (composeKey a.side a.ticks) :=
        Lib.tally_perm hperm
    _ = _ := by
        rw [levelLots_alloc hlt, Serv.taker_level_key, if_pos rfl, add_comm]

/-- **What passes the checks can be held.** -/
theorem Matched.canHold (hM : Matched s s₁ a) (hi : HoldInv s) (ha : a.Delivered s)
    (hlots : a.lots ≠ 0) (htaker : (s₁.heap s.heap.next).NonNeg)
    (hinsert : (s₁.heap s.heap.next).done = true ∨
      BookSide.InsertAsserts (s₁.heap s.heap.next))
    (hplaced : (s₁.placed a.book s.heap.next).NonNeg a.book s.heap.next) : s.CanHold a := by
  have hb := hi.books
  rw [hM.taker] at htaker hinsert
  obtain ⟨hresd, hexec⟩ := htaker
  rw [Serv.taker_exec] at hexec
  have hpos : 0 < a.lots := by omega
  have hleaves := hb.taker_resd_eq ha.book hpos.le
  have hrests : 0 < s.leaves a → BookSide.InsertAsserts (s.taker a) := by
    intro hleft
    refine hinsert.resolve_left (fun hdone => ?_)
    have hzero : (s.taker a).resd = 0 := by simpa [Order.done] using hdone
    omega
  refine ⟨hpos, fun hleft => ?_, fun hleft => ?_, fun hleft => ?_⟩
  · have hticks := (hrests hleft).2.1
    rwa [Serv.taker_proj (fun o => o.ticks) (fun _ _ _ _ _ _ => rfl)] at hticks
  · have hmin := (hrests hleft).2.2.2.2.2
    rwa [Serv.taker_proj (fun o => o.minLots) (fun _ _ _ _ _ _ => rfl)] at hmin
  · by_contra hfull
    obtain ⟨l, hl, hlots⟩ := hM.level_resd hb ha.book hpos.le (by omega)
    have hfits := hi.sane.fits a.book ha.book a.side (composeKey a.side a.ticks)
    have hmax := ha.lots.2
    have hneg : l.resd64 < 0 := Level.resd64_neg (by omega) (by omega)
    have hnonneg : 0 ≤ l.resd64 := by
      cases hside : a.side with
      | buy => rw [hside] at hl; exact hplaced.2.1.2 l hl
      | sell => rw [hside] at hl; exact hplaced.2.2.2 l hl
    omega

/-- **A check fails** in a call that gets past the tests with another order. -/
theorem HoldInv.fails_wp (hi : HoldInv s) (ha : a.Delivered s)
    (halloc : NoAllocFailure env s a resp) (hchecks : ChecksOk env s a) (hno : ¬ s.CanHold a) :
    wp (createOrderChecked env a) (fun _ _ => False) Fails ⟨s, resp⟩ := by
  have hb := hi.books
  unfold createOrderChecked checkOrder
  simp only [wp_bind, wp_lift, wp_get, wp_ite, wp_throw, wp_pure]
  refine ⟨fun hexp => absurd hexp hchecks.1,
    fun _ => ⟨fun hbad => absurd hbad hchecks.2, fun hgood => ?_⟩⟩
  refine openOrder_wp (fun _ => ?_) (fun s' _ _ h => absurd ⟨halloc _, halloc _⟩ h)
  simp only [wp_bind, wp_lift]
  refine matchOrders_opened_wp (hb.makers_lt ha.book) (fun s₁ hM _ _ => ?_)
    (fun s' j _ hfail _ => ?_)
  · rw [wp_bind, wp_check]
    refine ⟨fun _ => ?_, fun _ => ⟨_, rfl⟩⟩
    rw [wp_bind, wp_check]
    refine ⟨fun hnonNeg => ?_, fun _ => ⟨_, rfl⟩⟩
    unfold placeOrderChecked
    rw [wp_withFinally, wp_bind, wp_bind, wp_check]
    refine ⟨fun hinsert => ?_, fun _ => ⟨_, rfl⟩⟩
    rw [wp_lift]
    refine placeOrder_wp (fun _ => ?_) (fun hlevel => absurd (Or.inr (Or.inr (halloc _))) hlevel)
    rw [wp_bind, wp_check]
    refine ⟨fun hplaced => ?_, fun _ => ⟨_, rfl⟩⟩
    have hlots : a.lots ≠ 0 := fun hzero => hgood (Or.inl hzero)
    exact absurd (hM.canHold hi ha hlots hnonNeg.1 hinsert hplaced) hno
  · obtain ⟨-, f, -, hiter⟩ := hfail
    exact absurd ⟨Or.inr (halloc _), halloc _, halloc _, halloc _⟩ hiter

end Fails

/-! ### In every run -/

theorem HoldInv.run {s₀ s : Serv} (h₀ : s₀.EmptyBooks)
    (hrun : ReflTransGen (Submit Admitted) s₀ s) : HoldInv s := by
  induction hrun with
  | refl => exact HoldInv.init h₀
  | tail _ hlast ih => exact ih.step hlast

/-- **`createOrder` admits only orders the book can hold, exactly if its tests let no other
through.** In every state that a run of such calls reaches, nothing in the books is
negative; a further call with such an order fails no check, whatever it runs out of; and
given memory, a call with any other order that gets past the tests fails one. The fills are the
machine's, as long as the prices fit. -/
theorem createOrder_admits {w : Arith} (hw : w.Faithful int64) {s₀ s : Serv}
    (h₀ : s₀.EmptyBooks) (hrun : ReflTransGen (Submit Admitted) s₀ s) :
    (∀ m ∈ s.markets.keys, ∀ sd, ((s.markets.get m).side sd).NonNeg s.heap) ∧
    ∀ env a resp, a.Delivered s → (ChecksOk env s a → s.PricesFit a) →
      (ChecksOk env s a → 0 < a.lots → s.fills64 w a = s.fills a) ∧
      ((ChecksOk env s a → s.CanHold a) →
        (createOrderChecked env a).passes ⟨s, resp⟩ = true) ∧
      (NoAllocFailure env s a resp →
        ((createOrderChecked env a).passes ⟨s, resp⟩ = true ↔
          (ChecksOk env s a → s.CanHold a))) := by
  have hi := HoldInv.run h₀ hrun
  refine ⟨fun m hm => hi.sane.sides hi.books hm, fun env a resp ha hprices =>
    ⟨fun hchecks hlots => hi.fills64_eq hw ha hlots (hprices hchecks), ?_⟩⟩
  have hpasses : (ChecksOk env s a → s.CanHold a) →
      (createOrderChecked env a).passes ⟨s, resp⟩ = true :=
    fun hcan => passes_of_wp (hi.passes_wp ha.book hcan)
  refine ⟨hpasses, fun halloc => ⟨fun hpass hchecks => ?_, hpasses⟩⟩
  by_contra hno
  rw [not_passes_of_wp (hi.fails_wp ha halloc hchecks hno)] at hpass
  exact absurd hpass (by decide)

namespace Mock

theorem order_delivered {s : Serv} {trader : Mnem} {side : Side} {lots ticks : Int}
    (hsess : trader ∈ s.traders.keys) (hbook : market ∈ s.markets.keys) (hlots : IsInt64 lots)
    (hticks : IsInt64 ticks) : (order trader side lots ticks).Delivered s :=
  ⟨hsess, hbook, hlots, hticks, show IsInt64 1 from ⟨by decide, by decide⟩⟩

theorem bid_submitted : ReflTransGen (Submit Admitted) serv bid := by
  refine .single ⟨env, order marayl .buy 10 12345, {}, ?_, ⟨rfl, rfl, rfl, rfl⟩, ⟨?_, ?_⟩, rfl⟩
  · exact order_delivered (by decide) (by decide) ⟨by decide, by decide⟩ ⟨by decide, by decide⟩
  · exact fun _ => ⟨⟨by decide, fun _ => by decide⟩,
      by decide, fun _ => by decide, fun _ => by decide, fun _ => by decide⟩
  · have hsound : Sound env serv (order marayl .buy 10 12345) {} :=
      NoAllocFailure.sound (fun _ => rfl)
    exact hsound.1

end Mock

/-- SWIRLY sells four lots to the bid. -/
theorem bid_admits : (createOrderChecked Mock.env (Mock.order Mock.swirly .sell 4 12344)).passes
    ⟨Mock.bid, {}⟩ = true :=
  ((createOrder_admits (Lib.wrap_faithful int64) Mock.serv_empty.toEmptyBooks
    Mock.bid_submitted).2 Mock.env (Mock.order Mock.swirly .sell 4 12344) {}
    (Mock.order_delivered (by decide) (by decide) ⟨by decide, by decide⟩ ⟨by decide, by decide⟩)
    (fun _ => ⟨by decide, fun _ => by decide⟩)).2.1
    (fun _ => ⟨by decide, fun _ => by decide, fun _ => by decide, fun _ => by decide⟩)

/-- **Orders the book cannot hold get past the tests**: one without a price, and one for
minus three lots. -/
theorem createOrder_unholdable :
    (ChecksOk Mock.env Mock.serv (Mock.order Mock.marayl .buy 10 0) ∧
      (createOrderChecked Mock.env (Mock.order Mock.marayl .buy 10 0)).passes
        ⟨Mock.serv, {}⟩ = false) ∧
    (ChecksOk Mock.env Mock.serv { Mock.order Mock.marayl .buy (-3) 12345 with minLots := -5 } ∧
      (createOrderChecked Mock.env
        { Mock.order Mock.marayl .buy (-3) 12345 with minLots := -5 }).passes
          ⟨Mock.serv, {}⟩ = false) :=
  ⟨⟨⟨by unfold Expired; decide, by decide⟩, by decide⟩,
    ⟨⟨by unfold Expired; decide, by decide⟩, by decide⟩⟩

end Swirly
