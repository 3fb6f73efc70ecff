import Swirly.Fig.Commit
import Mathlib.Logic.Relation

/-!
# Swirly.Fig.Run

**Runs of the service**: any traders, any markets, any sequence of `createOrder`
calls. What a run is about is the calls it allows, so `Step` takes that as a
parameter: calls without allocation failure (`NoAllocFailure`), or all calls but
those that meet a defect (`Sound`).

`step_cases` is what every later invariant is derived from: between two calls, the
service either was extended by traces of a call that did not commit (`Ext`), or a
call committed (`Traded`), or a call failed after its executions had been journaled
(`Orphaned`), which is the one defect that a run without stranded matches can meet.
-/

namespace Swirly

open Lib (Heap KeySet)
open Lib.Effect
open Relation (ReflTransGen)

/-- What a caller owes: references to an existing session and market, and an order of some
lots. `BookSide::insertOrder` asserts more, of the minimum and of the price, but no total and
no place in the queue depends on these, so nothing is asked of them here. -/
structure OrderArgs.Valid (a : OrderArgs) (s : Serv) : Prop where
  sess : a.sess ∈ s.traders.keys
  book : a.book ∈ s.markets.keys
  lots : 0 < a.lots

/-- A condition on a call: what it meets, where it starts from, and its arguments. -/
abbrev CallCond := Env → Serv → OrderArgs → Response → Prop

/-- One call that meets a condition, with a response that holds nothing yet. Whether it returns or
throws is left open, and so is what it meets. -/
def Step (P : CallCond) (s s' : Serv) : Prop :=
  ∃ env a resp, a.Valid s ∧ resp.Cleared ∧ P env s a resp ∧
    s' = ((createOrder env a).final ⟨s, resp⟩).serv

/-- A sequence of such calls, each from the state that the one before it left, also when that one
threw. -/
abbrev Run (P : CallCond) : Serv → Serv → Prop := ReflTransGen (Step P)

/-- Every allocation succeeds. The journal may still refuse. -/
def NoAllocFailure : CallCond := fun env _ _ _ => ∀ site, env.alloc site = true

/-- The call runs out of memory in the matching loop when it has made a match
already. -/
def Strands (env : Env) (s : Serv) (a : OrderArgs) : Prop :=
  ChecksOk env s a ∧ OpenOk env ∧ ∃ j, 0 < j ∧ FailsFirst env s a.book 0 (s.fills a) j

/-- The call runs out of memory when the journal has accepted its executions. -/
def Loses (env : Env) (s : Serv) (a : OrderArgs) (resp : Response) : Prop :=
  ReachesJourn env s a ∧ env.journ = true ∧ ¬ PrepOk env s a resp

/-- No match is left behind: whatever else fails, the matching loop does not after it has made a
match. -/
def NoStrand : CallCond := fun env s a _ => ¬ Strands env s a

/-- Neither of the two defects is met. The journal may refuse, and every other allocation may
fail. -/
def Sound : CallCond := fun env s a resp => ¬ Strands env s a ∧ ¬ Loses env s a resp

theorem NoAllocFailure.sound {env : Env} {s : Serv} {a : OrderArgs} {resp : Response}
    (h : NoAllocFailure env s a resp) : Sound env s a resp := by
  refine ⟨?_, ?_⟩
  · rintro ⟨-, -, j, -, -, f, -, hno⟩
    exact hno ⟨Or.inr (h _), h _, h _, h _⟩
  · rintro ⟨-, -, hno⟩
    exact hno ⟨fun _ => Or.inr (h _), fun _ => h _, fun _ => h _⟩

theorem Run.mono {P Q : CallCond} (hPQ : ∀ env s a resp, P env s a resp → Q env s a resp)
    {s s' : Serv} (hrun : Run P s s') : Run Q s s' :=
  ReflTransGen.mono (fun _ _ ⟨env, a, resp, hv, hc, hp, heq⟩ =>
    ⟨env, a, resp, hv, hc, hPQ _ _ _ _ hp, heq⟩) _ _ hrun

/-- **What holds at the start and is kept by every call holds after every run.** -/
theorem Run.invariant {P : CallCond} {I : Serv → Prop}
    (hstep : ∀ s s', I s → Step P s s' → I s') {s s' : Serv} (h : I s) (hrun : Run P s s') :
    I s' := by
  induction hrun with
  | refl => exact h
  | tail _ hlast ih => exact hstep _ _ ih hlast

/-! ### What one call can do -/

section Cases

variable {env : Env} {s : Serv} {a : OrderArgs} {resp : Response}

/-- A call that does not commit, and strands no match. -/
theorem Failed.cases {e : Exn} {c' : Ctx} (hf : Failed env s a resp e c') (hb : BooksOk s)
    (hm : a.book ∈ s.markets.keys) (hlots : 0 ≤ a.lots) (hmv : s.matchVec = [])
    (hs : ¬ Strands env s a) :
    (Ext a.book s c'.serv ∧ c'.serv.matchVec = []) ∨
      (Loses env s a resp ∧ Orphaned s c'.serv a) := by
  cases hf with
  | expired _ => exact Or.inl ⟨Ext.refl _ _, hmv⟩
  | lots _ _ => exact Or.inl ⟨Ext.refl _ _, hmv⟩
  | opening s' _ _ hext hmv' => exact Or.inl ⟨hext, hmv'.trans hmv⟩
  | matching s' j hchecks hopen hfail hext hmv' =>
      refine Or.inl ⟨hext, ?_⟩
      cases j with
      | zero => rw [hmv', hmv]; rfl
      | succ j => exact absurd ⟨hchecks, hopen, j + 1, Nat.succ_pos j, hfail⟩ hs
  | placing s' _ _ _ _ hext hmv' => exact Or.inl ⟨hext, hmv'⟩
  | journ s' _ _ hext hmv' => exact Or.inl ⟨hext, hmv'⟩
  | preparing s₁ c' hreaches hjourn hno hM hserv =>
      exact Or.inr ⟨⟨hreaches, hjourn, hno⟩, hM.orphaned hb hm hlots hmv hserv⟩

end Cases

/-- **What one call can do**, as long as it strands no match. -/
theorem step_cases {P : CallCond} (hP : ∀ env s a resp, P env s a resp → NoStrand env s a resp)
    {s s' : Serv} (hb : BooksOk s) (hmv : s.matchVec = []) (hstep : Step P s s') :
    ∃ env a resp, a.Valid s ∧ P env s a resp ∧
      ((Ext a.book s s' ∧ s'.matchVec = []) ∨ Traded s s' a ∨
        (Loses env s a resp ∧ Orphaned s s' a)) := by
  obtain ⟨env, a, resp, hv, -, hp, rfl⟩ := hstep
  refine ⟨env, a, resp, hv, hp, ?_⟩
  rcases createOrder_cases env resp hb hv.book hv.lots.le with
    ⟨c', s₁, hrun, hC⟩ | ⟨e, c', hrun, hf⟩
  · rw [final_ok hrun]
    exact Or.inr (Or.inl (hC.traded hb hv.book hv.sess hv.lots.le hmv))
  · rw [final_error hrun]
    exact (hf.cases hb hv.book hv.lots.le hmv (hP _ _ _ _ hp)).imp_right Or.inr

/-- A sound call commits, or leaves nothing but traces. -/
theorem sound_cases {s s' : Serv} (hb : BooksOk s) (hmv : s.matchVec = [])
    (hstep : Step Sound s s') :
    ∃ a : OrderArgs, a.Valid s ∧ ((Ext a.book s s' ∧ s'.matchVec = []) ∨ Traded s s' a) := by
  obtain ⟨env, a, resp, hv, hp, hcases⟩ := step_cases (fun _ _ _ _ h => h.1) hb hmv hstep
  refine ⟨a, hv, ?_⟩
  rcases hcases with hext | ht | ⟨hlost, -⟩
  · exact Or.inl hext
  · exact Or.inr ht
  · exact absurd hlost hp.2

/-! ### The books in every run -/

/-- A service with empty books. -/
structure Serv.EmptyBooks (s : Serv) : Prop where
  side : ∀ m ∈ s.markets.keys, ∀ sd, (s.markets.get m).side sd = BookSide.empty
  matchVec : s.matchVec = []

/-- A service in which nothing has happened yet. -/
structure Serv.Empty (s : Serv) : Prop extends s.EmptyBooks where
  orders : ∀ u ∈ s.traders.keys, (s.traders.get u).orders = KeySet.empty
  trades : ∀ u ∈ s.traders.keys, (s.traders.get u).trades = KeySet.empty
  posns : ∀ u ∈ s.traders.keys, (s.traders.get u).posns = KeySet.empty
  journ : s.journ = []

/-- Every bid is below every offer of its market, so that nothing at rest could trade. -/
def Uncrossed (s : Serv) : Prop :=
  ∀ m ∈ s.markets.keys, ∀ p ∈ ((s.markets.get m).side .buy).orders,
    ∀ q ∈ ((s.markets.get m).side .sell).orders, (s.heap p).ticks < (s.heap q).ticks

/-- What every run without stranded matches preserves of the books. -/
structure CallInv (s : Serv) : Prop where
  books : BooksOk s
  matchVec : s.matchVec = []
  traders : ∀ m ∈ s.markets.keys, ∀ sd, ∀ p ∈ ((s.markets.get m).side sd).orders,
    (s.heap p).trader ∈ s.traders.keys

/-- What every sound run preserves of the books. -/
structure BooksInv (s : Serv) : Prop extends CallInv s where
  uncrossed : Uncrossed s

section Ext

variable {s s' : Serv} {a : OrderArgs}

theorem CallInv.init (h : s.EmptyBooks) : CallInv s where
  books m hm sd := by
    rw [h.side m hm sd]
    exact SideOk.empty _ _ _
  matchVec := h.matchVec
  traders m hm sd p hp := by
    rw [h.side m hm] at hp
    exact absurd hp List.not_mem_nil

theorem BooksInv.init (h : s.EmptyBooks) : BooksInv s where
  toCallInv := CallInv.init h
  uncrossed m hm p hp := by
    rw [h.side m hm] at hp
    exact absurd hp List.not_mem_nil

theorem CallInv.ext (hi : CallInv s) (he : Ext a.book s s') (hmv : s'.matchVec = []) :
    CallInv s' where
  books := hi.books.ext he
  matchVec := hmv
  traders m hm sd p hp := by
    rw [he.marketKeys] at hm
    rw [he.side] at hp
    rw [he.heap p ((hi.books m hm sd).rests p hp).lt_next, he.traderKeys]
    exact hi.traders m hm sd p hp

theorem BooksInv.ext (hi : BooksInv s) (he : Ext a.book s s') (hmv : s'.matchVec = []) :
    BooksInv s' where
  toCallInv := hi.toCallInv.ext he hmv
  uncrossed m hm p hp q hq := by
    rw [he.marketKeys] at hm
    rw [he.side] at hp hq
    rw [he.heap p ((hi.books m hm _).rests p hp).lt_next,
      he.heap q ((hi.books m hm _).rests q hq).lt_next]
    exact hi.uncrossed m hm p hp q hq

end Ext

namespace Traded

variable {s s' : Serv} {a : OrderArgs}

/-- What a trade does not change is the same for every order already in the system. -/
theorem proj_old (ht : Traded s s' a) {β : Type} (π : Order → β)
    (hlevel : ∀ (o : Order) level, π (o.setLevel level) = π o)
    (htrade : ∀ (o : Order) lots cost lastLots lastTicks now,
      π (o.trade lots cost lastLots lastTicks now) = π o) {q : OrderPtr} (hq : q < s.heap.next) :
    π (s'.heap q) = π (s.heap q) := by
  by_cases hmem : q ∈ (s.fills a).map Prod.fst
  · obtain ⟨f, hf, rfl⟩ := List.mem_map.mp hmem
    rw [ht.heap_maker f hf]
    exact Order.taken_proj _ _ _ π hlevel htrade
  · rw [ht.heap_old q hq hmem]

theorem traderKeys (ht : Traded s s' a) : s'.traders.keys = s.traders.keys := by
  obtain ⟨T, hT, -, -, hpost⟩ := ht.sessions
  rw [hpost, Sessions.post_keys]
  exact hT

theorem taker_proj (ht : Traded s s' a) {β : Type} (π : Order → β)
    (hlevel : ∀ (o : Order) level, π (o.setLevel level) = π o) :
    π (s'.heap s.heap.next) = π (s.taker a) := by
  rw [ht.heap_taker]
  exact Serv.takerPlaced_proj π hlevel

/-- An order that the taker crossed does not rest beside it. -/
theorem not_crosses (ht : Traded s s' a) (hb : BooksOk s) (hv : a.Valid s) {q : OrderPtr}
    (hq : q ∈ s.makers a) (hpos : 0 < (s'.heap q).resd) (hleft : 0 < (s'.heap s.heap.next).resd) :
    ¬ crosses (s.newOrder a) (s.heap q) = true := by
  intro hc
  have hmem : q ∈ s.crossing a := by
    rw [hb.crossing_eq_filter hv.book]
    exact List.mem_filter.mpr ⟨hq, hc⟩
  rw [ht.taker_proj Order.resd (fun _ _ => rfl)] at hleft
  have hf := Serv.crossing_filled hv.lots.le hleft q hmem
  rw [ht.heap_maker _ hf, Order.taken_resd, sub_self] at hpos
  exact lt_irrefl _ hpos

end Traded

section Step

variable {s s' : Serv} {a : OrderArgs}

theorem Serv.takerPlaced_trader (hu : a.sess ∈ s.traders.keys) :
    (s.takerPlaced a).trader = a.sess := by
  rw [Serv.takerPlaced_proj (fun o : Order => o.trader) (fun _ _ => rfl),
    Serv.taker_proj (fun o : Order => o.trader) (fun _ _ _ _ _ _ => rfl)]
  exact s.traders.key_get a.sess hu

theorem CallInv.traded (hi : CallInv s) (hu : a.sess ∈ s.traders.keys) (ht : Traded s s' a) :
    CallInv s' where
  books := ht.books
  matchVec := ht.matchVec
  traders m hm sd p hp := by
    rw [ht.marketKeys] at hm
    rw [ht.traderKeys]
    obtain ⟨hp | ⟨rfl, -, -⟩, -⟩ := (ht.mem m hm sd p).mp hp
    · rw [ht.proj_old (fun o : Order => o.trader) (fun _ _ => rfl) (fun _ _ _ _ _ _ => rfl)
        ((hi.books m hm sd).rests p hp).lt_next]
      exact hi.traders m hm sd p hp
    · rw [ht.heap_taker, Serv.takerPlaced_trader hu]
      exact hu

theorem CallInv.orphaned (hi : CallInv s) (hu : a.sess ∈ s.traders.keys)
    (ho : Orphaned s s' a) : CallInv s' where
  books := ho.books
  matchVec := ho.matchVec
  traders m hm sd p hp := by
    rw [ho.marketKeys] at hm
    rw [ho.traderKeys, ho.heap]
    rcases (ho.mem m sd p).mp hp with hp | ⟨rfl, -, -, -⟩
    · rw [Heap.alloc_of_lt ((hi.books m hm sd).rests p hp).lt_next]
      exact hi.traders m hm sd p hp
    · rw [Heap.alloc_self, Serv.takerPlaced_trader hu]
      exact hu

/-- **Every call that strands no match keeps the books in order.** -/
theorem CallInv.step (hi : CallInv s) (hstep : Step NoStrand s s') : CallInv s' := by
  obtain ⟨env, a, resp, hv, -, ⟨he, hmv⟩ | ht | ⟨-, ho⟩⟩ :=
    step_cases (fun _ _ _ _ h => h) hi.books hi.matchVec hstep
  · exact hi.ext he hmv
  · exact hi.traded hv.sess ht
  · exact hi.orphaned hv.sess ho

end Step

namespace Traded

variable {s s' : Serv} {a : OrderArgs}

theorem ticks_old (ht : Traded s s' a) {q : OrderPtr} (hq : q < s.heap.next) :
    (s'.heap q).ticks = (s.heap q).ticks :=
  ht.proj_old Order.ticks (fun _ _ => rfl) (fun _ _ _ _ _ _ => rfl) hq

theorem ticks_taker (ht : Traded s s' a) : (s'.heap s.heap.next).ticks = a.ticks :=
  (ht.taker_proj Order.ticks (fun _ _ => rfl)).trans
    (Serv.taker_proj Order.ticks (fun _ _ _ _ _ _ => rfl))

/-- A bid that rests after the call is below the offers that rest beside it. -/
theorem bid_lt (ht : Traded s s' a) (hb : BooksOk s) (hv : a.Valid s) (hside : a.side = .buy)
    {q : OrderPtr} (hq : q ∈ ((s.markets.get a.book).side .sell).orders)
    (hpos : 0 < (s'.heap q).resd) (hleft : 0 < (s'.heap s.heap.next).resd) :
    (s'.heap s.heap.next).ticks < (s'.heap q).ticks := by
  have hmaker : q ∈ s.makers a := by
    unfold Serv.makers
    rw [hside]
    exact hq
  have hno := ht.not_crosses hb hv hmaker hpos hleft
  have hside' : (s.newOrder a).side = .buy := hside
  rw [crosses_buy hside', not_le] at hno
  rw [ht.ticks_taker, ht.ticks_old ((hb a.book hv.book .sell).rests q hq).lt_next]
  exact hno

/-- An offer that rests after the call is above the bids that rest beside it. -/
theorem lt_offer (ht : Traded s s' a) (hb : BooksOk s) (hv : a.Valid s) (hside : a.side = .sell)
    {p : OrderPtr} (hp : p ∈ ((s.markets.get a.book).side .buy).orders)
    (hpos : 0 < (s'.heap p).resd) (hleft : 0 < (s'.heap s.heap.next).resd) :
    (s'.heap p).ticks < (s'.heap s.heap.next).ticks := by
  have hmaker : p ∈ s.makers a := by
    unfold Serv.makers
    rw [hside]
    exact hp
  have hno := ht.not_crosses hb hv hmaker hpos hleft
  have hside' : (s.newOrder a).side = .sell := hside
  rw [crosses_sell hside', not_le] at hno
  rw [ht.ticks_taker, ht.ticks_old ((hb a.book hv.book .buy).rests p hp).lt_next]
  exact hno

end Traded

theorem BooksInv.traded {s s' : Serv} {a : OrderArgs} (hi : BooksInv s) (hv : a.Valid s)
    (ht : Traded s s' a) : BooksInv s' where
  toCallInv := hi.toCallInv.traded hv.sess ht
  uncrossed m hm p hp q hq := by
    have hb := hi.books
    rw [ht.marketKeys] at hm
    obtain ⟨hp, hp'⟩ := (ht.mem m hm .buy p).mp hp
    obtain ⟨hq, hq'⟩ := (ht.mem m hm .sell q).mp hq
    rcases hp with hp | ⟨rfl, rfl, hside⟩
    · rcases hq with hq | ⟨rfl, rfl, hside⟩
      · rw [ht.ticks_old ((hb m hm .buy).rests p hp).lt_next,
          ht.ticks_old ((hb m hm .sell).rests q hq).lt_next]
        exact hi.uncrossed m hm p hp q hq
      · exact ht.lt_offer hb hv hside.symm hp hp' hq'
    · rcases hq with hq | ⟨-, -, hside'⟩
      · exact ht.bid_lt hb hv hside.symm hq hq' hp'
      · exact absurd (hside.trans hside'.symm) (by decide)

/-- **Every sound call keeps the books uncrossed.** -/
theorem BooksInv.step {s s' : Serv} (hi : BooksInv s) (hstep : Step Sound s s') : BooksInv s' := by
  obtain ⟨a, hv, ⟨he, hmv⟩ | ht⟩ := sound_cases hi.books hi.matchVec hstep
  · exact hi.ext he hmv
  · exact hi.traded hv ht

end Swirly
