import Swirly.Fig.CreateOrder

/-!
# Swirly.Fig.CommitBooks

**What a committed call does to the books.** The taker's remainder is placed
first, which may leave the book crossed; then the makers are taken, one fill after
the other. `takeAll_spec` describes the second part as a whole: the books stay in
order, an order keeps its place as long as it has residual lots, and the makers end
up filled. A taker with a remainder has consumed every order it crossed
(`crossing_filled`), so the book is not crossed any more.
-/

namespace Swirly

open Lib (Heap Table)

/-! ### The taker in its place -/

section Place

variable {s s₁ : Serv} {a : OrderArgs}

/-- The taker, pointing at its level if it rests. -/
def Serv.takerPlaced (s : Serv) (a : OrderArgs) : Order :=
  if (s.taker a).done then s.taker a else (s.taker a).setLevel (some (s.taker a).key)

/-- Placing changes the level of the taker only. -/
theorem Serv.takerPlaced_proj {β : Type} (π : Order → β)
    (hπ : ∀ (o : Order) level, π (o.setLevel level) = π o) :
    π (s.takerPlaced a) = π (s.taker a) := by
  unfold Serv.takerPlaced
  split
  · rfl
  · exact hπ _ _

theorem Matched.placed_heap (hM : Matched s s₁ a) :
    (s₁.placed a.book s.heap.next).heap = s.heap.alloc (s.takerPlaced a) := by
  have htaker := hM.taker
  unfold Serv.placed Serv.takerPlaced
  rw [htaker]
  split
  · exact hM.heap
  · have hheap : (s₁.insertOrder a.book s.heap.next).heap =
        s₁.heap.modify s.heap.next (Order.setLevel · (some (s₁.heap s.heap.next).key)) :=
      BookSide.insertOrder_heap _ _ _
    rw [hheap, htaker, hM.heap]
    exact Heap.modify_alloc _ _ _

theorem Serv.placed_keys (s : Serv) (book : Mnem) (p : OrderPtr) :
    (s.placed book p).markets.keys = s.markets.keys := by
  unfold placed; split <;> rfl

theorem Serv.placed_frame (s : Serv) (book : Mnem) (p : OrderPtr) (m : Mnem) :
    (s.markets.get m).Frame ((s.placed book p).markets.get m) := by
  unfold placed
  split
  · exact MarketBook.Frame.refl _
  · exact insertOrder_frame m

/-- **The books once the taker is in its place.** -/
theorem Matched.placed_books (hM : Matched s s₁ a) (hb : BooksOk s) (hm : a.book ∈ s.markets.keys)
    (hlots : 0 ≤ a.lots) :
    BooksOk (s₁.placed a.book s.heap.next) ∧
      ∀ m sd q, q ∈ (((s₁.placed a.book s.heap.next).markets.get m).side sd).orders ↔
        q ∈ ((s.markets.get m).side sd).orders ∨
          q = s.heap.next ∧ m = a.book ∧ sd = a.side ∧ 0 < (s.taker a).resd := by
  have htaker := hM.taker
  have hnonneg := hb.taker_resd_nonneg hm hlots
  have hb₁ := hb.ext hM.ext
  unfold Serv.placed
  by_cases hdone : (s.taker a).done = true
  · have hzero : (s.taker a).resd = 0 := by simpa [Order.done] using hdone
    rw [htaker, if_pos hdone]
    refine ⟨hb₁, ?_⟩
    intro m sd q
    rw [hM.ext.side]
    simp [hzero]
  · have hpos : 0 < (s.taker a).resd := by
      have hne : (s.taker a).resd ≠ 0 := by simpa [Order.done] using hdone
      omega
    have hm₁ : a.book ∈ s₁.markets.keys := hM.ext.marketKeys ▸ hm
    have hside : (s₁.heap s.heap.next).side = a.side := by rw [htaker, Serv.taker_side]
    have hrest : Rests s₁.heap (s₁.markets.get a.book) s.heap.next := by
      refine ⟨?_, ?_, ?_, ?_, ?_⟩
      · rw [hM.heap]; exact Nat.lt_succ_self _
      · rw [htaker, Serv.taker_market hm, s₁.markets.key_get a.book hm₁]
      · rw [htaker, Serv.taker_contr, hM.contr]
      · rw [htaker, Serv.taker_settlDay, hM.settlDay]
      · rw [htaker, Serv.taker_id, hM.maxOrderId]
    have hid : ∀ q ∈ ((s₁.markets.get a.book).side (s₁.heap s.heap.next).side).orders,
        (s₁.heap q).id < (s₁.heap s.heap.next).id := by
      intro q hq
      rw [hM.ext.side] at hq
      have hr := (hb a.book hm _).rests q hq
      have hle := hr.id_le
      rw [htaker, Serv.taker_id, hM.ext.heap q hr.lt_next]
      omega
    obtain ⟨hb₂, hmem⟩ := Serv.insertOrder_booksOk hb₁ hm₁
      (fun m hm sd => hM.not_mem hb (hM.ext.marketKeys ▸ hm) sd) hrest (htaker ▸ hpos) hid
    rw [htaker, if_neg hdone]
    refine ⟨hb₂, ?_⟩
    intro m sd q
    rw [hmem, hM.ext.side, hside]
    simp [hpos]

end Place

/-! ### Taking the makers -/

/-- The fills `fs` taken from market `m`, one after the other. -/
def Serv.takeAll (s : Serv) (m : Mnem) (now : Int) (fs : List (OrderPtr × Int)) : Serv :=
  fs.foldl (fun s f => s.takeOrder m f.1 f.2 now) s

/-- The state after all fills, seen from the state before. -/
structure TakenAll (s s' : Serv) (now : Int) (fs : List (OrderPtr × Int)) : Prop where
  books : BooksOk s'
  next : s'.heap.next = s.heap.next
  keys : s'.markets.keys = s.markets.keys
  frame : ∀ m, (s.markets.get m).Frame (s'.markets.get m)
  traders : s'.traders = s.traders
  matchVec : s'.matchVec = s.matchVec
  journ : s'.journ = s.journ
  heap_of_not_mem : ∀ q, q ∉ fs.map Prod.fst → s'.heap q = s.heap q
  heap_of_mem : ∀ f ∈ fs, s'.heap f.1 = (s.heap f.1).taken f.2 now
  mem : ∀ m ∈ s.markets.keys, ∀ sd q, q ∈ ((s'.markets.get m).side sd).orders ↔
    q ∈ ((s.markets.get m).side sd).orders ∧ 0 < (s'.heap q).resd

section TakeAll

variable {s s' s'' : Serv} {m : Mnem} {sd : Side} {now : Int}

theorem TakenAll.nil (hb : BooksOk s) (now : Int) : TakenAll s s now [] :=
  ⟨hb, rfl, rfl, fun _ => MarketBook.Frame.refl _, rfl, rfl, rfl, fun _ _ => rfl, by simp,
    fun m hm sd _ => ⟨fun hq => ⟨hq, (hb m hm sd).resd_pos hq⟩, And.left⟩⟩

/-- One fill of a resting order. -/
theorem TakenAll.one {f : OrderPtr × Int} (hb : BooksOk s) (hm : m ∈ s.markets.keys)
    (hp : f.1 ∈ ((s.markets.get m).side sd).orders) :
    TakenAll s (s.takeOrder m f.1 f.2 now) now [f] := by
  have hheap := Serv.takeOrder_heap hb hm hp f.2 now
  refine ⟨Serv.takeOrder_booksOk hb hm hp f.2 now, ?_, rfl,
    fun m' => Serv.takeOrder_frame m' f.2 now, rfl, rfl, rfl, fun q hq => ?_, fun g hg => ?_,
    fun m' hm' sd' q => ?_⟩
  · rw [hheap]; rfl
  · rw [hheap, Heap.modify_of_ne (by simpa using hq)]
  · obtain rfl := List.mem_singleton.mp hg
    rw [hheap, Heap.modify_self]
  · by_cases hsame : m' = m ∧ sd' = sd
    · obtain ⟨rfl, rfl⟩ := hsame
      rw [Serv.takeOrder_orders hb hm hp, hheap]
      have hs := hb m' hm sd'
      by_cases hqp : q = f.1
      · subst hqp
        rw [Heap.modify_self, Order.taken_resd]
        split
        · next hlt => simp [hp]; omega
        · next hge =>
            have hnot := hs.nodup.not_mem_erase (a := f.1)
            simp only [hnot, hp, true_and, false_iff]
            omega
      · rw [Heap.modify_of_ne hqp]
        split
        · exact ⟨fun hq => ⟨hq, hs.resd_pos hq⟩, And.left⟩
        · rw [List.mem_erase_of_ne hqp]
          exact ⟨fun hq => ⟨hq, hs.resd_pos hq⟩, And.left⟩
    · rw [Serv.takeOrder_side_of_ne hb hm hp f.2 now (by tauto)]
      refine ⟨fun hq => ⟨hq, ?_⟩, And.left⟩
      have hqp : q ≠ f.1 := by
        rintro rfl
        exact hb.not_mem hm hm' hp (by tauto) hq
      rw [hheap, Heap.modify_of_ne hqp]
      exact (hb m' hm' sd').resd_pos hq

theorem TakenAll.cons {f : OrderPtr × Int} {fs : List (OrderPtr × Int)} (hb : BooksOk s)
    (h₁ : TakenAll s s' now [f]) (h₂ : TakenAll s' s'' now fs) (hf : f.1 ∉ fs.map Prod.fst) :
    TakenAll s s'' now (f :: fs) where
  books := h₂.books
  next := h₂.next.trans h₁.next
  keys := h₂.keys.trans h₁.keys
  frame m := (h₁.frame m).trans (h₂.frame m)
  traders := h₂.traders.trans h₁.traders
  matchVec := h₂.matchVec.trans h₁.matchVec
  journ := h₂.journ.trans h₁.journ
  heap_of_not_mem q hq := by
    rw [List.map_cons, List.mem_cons, not_or] at hq
    rw [h₂.heap_of_not_mem q hq.2, h₁.heap_of_not_mem q (by simpa using hq.1)]
  heap_of_mem g hg := by
    rcases List.mem_cons.mp hg with rfl | hg
    · rw [h₂.heap_of_not_mem g.1 hf, h₁.heap_of_mem g List.mem_cons_self]
    · have hne : g.1 ≠ f.1 := fun heq => hf (heq ▸ List.mem_map_of_mem hg)
      rw [h₂.heap_of_mem g hg, h₁.heap_of_not_mem g.1 (by simpa using hne)]
  mem m hm sd q := by
    rw [h₂.mem m (h₁.keys ▸ hm) sd q, h₁.mem m hm sd q]
    refine ⟨fun hq => ⟨hq.1.1, hq.2⟩, fun hq => ⟨⟨hq.1, ?_⟩, hq.2⟩⟩
    by_cases hqf : q = f.1
    · subst hqf
      rw [← h₂.heap_of_not_mem f.1 hf]
      exact hq.2
    · rw [h₁.heap_of_not_mem q (by simpa using hqf)]
      exact (hb m hm sd).resd_pos hq.1

/-- An order that no lots are taken from stays as it was, and where it was. -/
theorem TakenAll.rest {fs : List (OrderPtr × Int)} {q : OrderPtr} (h : TakenAll s s' now fs)
    (hb : BooksOk s) (hm : m ∈ s.markets.keys) (hq : q ∈ ((s.markets.get m).side sd).orders)
    (hne : q ∉ fs.map Prod.fst) :
    q ∈ ((s'.markets.get m).side sd).orders ∧ s'.heap q = s.heap q := by
  have hsame := h.heap_of_not_mem q hne
  refine ⟨(h.mem m hm sd q).mpr ⟨hq, ?_⟩, hsame⟩
  rw [hsame]
  exact (hb m hm sd).resd_pos hq

/-- **All fills.** Each maker rests on one side of the market and is filled once. -/
theorem Serv.takeAll_spec (now : Int) {fs : List (OrderPtr × Int)} (hb : BooksOk s)
    (hm : m ∈ s.markets.keys) (hmem : ∀ f ∈ fs, f.1 ∈ ((s.markets.get m).side sd).orders)
    (hnd : (fs.map Prod.fst).Nodup) : TakenAll s (s.takeAll m now fs) now fs := by
  induction fs generalizing s with
  | nil => exact TakenAll.nil hb now
  | cons f fs ih =>
      rw [List.map_cons, List.nodup_cons] at hnd
      have h₁ : TakenAll s (s.takeOrder m f.1 f.2 now) now [f] :=
        TakenAll.one hb hm (hmem f List.mem_cons_self)
      have h₂ := ih h₁.books hm (fun g hg => ?_) hnd.2
      · exact TakenAll.cons hb h₁ h₂ hnd.1
      · -- The makers still to be taken are as they were.
        have hne : g.1 ≠ f.1 := fun heq => hnd.1 (heq ▸ List.mem_map_of_mem hg)
        exact (h₁.rest hb hm (hmem g (List.mem_cons_of_mem f hg)) (by simpa using hne)).1

end TakeAll

/-! ### The fills of a call -/

/-- The prices cross when the maker's key is no worse than the taker's price. -/
theorem crosses_iff {takerOrder makerOrder : Order}
    (hside : makerOrder.side = takerOrder.side.opposite) :
    crosses takerOrder makerOrder = true ↔
      makerOrder.key ≤ composeKey takerOrder.side.opposite takerOrder.ticks := by
  unfold crosses spread Order.key composeKey Side.direct
  rw [hside]
  cases takerOrder.side <;> simp [Side.opposite]

section Fills

variable {s : Serv} {a : OrderArgs}

/-- The orders that cross are the first ones of their side. -/
theorem BooksOk.crossing_eq_filter (hb : BooksOk s) (hm : a.book ∈ s.markets.keys) :
    s.crossing a = (s.makers a).filter (fun p => crosses (s.newOrder a) (s.heap p)) := by
  have hs := hb a.book hm a.side.opposite
  refine Lib.Greedy.takeWhile_eq_filter (hs.keys_sorted.imp_of_mem (fun {p q} hp hq hpq hc => ?_))
  rw [crosses_iff (hs.side hq)] at hc
  rw [crosses_iff (hs.side hp)]
  exact hpq.trans hc

theorem BooksOk.fills_nodup (hb : BooksOk s) (hm : a.book ∈ s.markets.keys) :
    ((s.fills a).map Prod.fst).Nodup :=
  ((Lib.Greedy.fill_prefix _ _ _).sublist.trans (List.takeWhile_sublist _)).nodup
    (hb a.book hm a.side.opposite).nodup

/-- **A taker with lots left over has filled every order it crossed.** -/
theorem Serv.crossing_filled (hlots : 0 ≤ a.lots) (hleft : 0 < (s.taker a).resd) :
    ∀ p ∈ s.crossing a, (p, (s.heap p).resd) ∈ s.fills a := by
  intro p hp
  rw [Serv.taker_resd] at hleft
  have hall : s.fills a = (s.crossing a).map (fun p => (p, (s.heap p).resd)) :=
    Lib.Greedy.fill_exhausts hlots (Int.lt_of_sub_pos hleft)
  rw [hall]
  exact List.mem_map_of_mem hp

end Fills

end Swirly
