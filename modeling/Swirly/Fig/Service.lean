import Swirly.Lib.TableSet
import Swirly.Elm.Rec
import Swirly.Fig.MarketDates
import Swirly.Fig.Reconcile
import Swirly.Fig.Records

/-!
# Swirly.Fig.Service

**The whole of `Serv`**: the records together with the books and sessions that orders work
on. Markets and traders join while others trade, so a run of the service is any sequence of
record calls and orders.

A record call leaves the orders alone (`Registered`), and that is all that the invariants of
the order runs need (`ServInv.registered`). What it does to the records is what the same call
of `Registry` does (`createMarket_registry` and its like).
-/

namespace Swirly

open Lib (Heap KeySet Table Traced)

/-! ### The service -/

/-- `MarketBook`'s part of `setDisplay`: the display is cut to the 64 bytes that the field holds.
No order and no text of an order looks at it. -/
def MarketBook.setDisplay (display : List Byte) (b : MarketBook) : MarketBook :=
  { b with display := .assign 64 display }

/-- `setState`. The state is stored and shown; neither the checks of an order nor the matching
looks at it. -/
def MarketBook.setState (state : Nat) (b : MarketBook) : MarketBook := { b with state }

theorem TraderSess.setDisplay_mnem (display : List Byte) (u : TraderSess) :
    (u.setDisplay display).mnem = u.mnem := rfl

/-- What the calls of the service throw: an exception of the records, one that names a market
which is not there, or one of `createOrder`. -/
inductive ServiceExn
  | record (e : RecExn)
  | marketNotFound (mnem : List Byte)
  | order (e : Exn)
  deriving DecidableEq

/-- The message of an exception, as it goes into the body of the response: names in quotes, as
they were asked for. -/
def ServiceExn.what : ServiceExn → String
  | record e => e.what
  | marketNotFound mnem => "market '" ++ text mnem ++ "' does not exist"
  | order e => e.what

/-- `Serv::Impl`, with the records: what the order service works on together with the assets and
contracts, which never change, and the index of traders by email. -/
structure Service where
  assets : AssetSet
  contrs : ContrSet
  /-- The markets and sessions, the orders and the journal. -/
  serv : Serv
  emailIdx : TraderSessSet

namespace Service

/-- The constructor of `Serv`: the records of the model, and the index of the traders. -/
def load (assets : AssetSet) (contrs : ContrSet) (markets : List MarketBook)
    (traders : List TraderSess) (hm : (markets.map MarketBook.mnem).Nodup)
    (ht : (traders.map TraderSess.mnem).Nodup) : Service where
  assets
  contrs
  serv := .load markets traders hm ht
  emailIdx := (KeySet.ofList traders : TraderSet).elems.foldl TraderSessSet.insert .empty

/-- `markets`: the set of the market records, in the order of their mnemonics. It is read off the
table of books, so that a book and its record cannot differ. -/
def markets (s : Service) : MarketSet := s.serv.markets.toSet FixedString.buf

/-- `traders`: the set of the trader records, in the order of their mnemonics, read off the table
of sessions. -/
def traders (s : Service) : TraderSet := s.serv.traders.toSet FixedString.buf

/-- The market with a name. The name is compared with the whole mnemonic, as the set compares it,
so a name of more than 16 bytes is found nowhere. -/
def findMarket (s : Service) (mnem : List Byte) : Option Mnem :=
  s.serv.markets.keys.find? (fun m => m.buf = mnem)

/-- The trader with a name. The name is compared with the whole mnemonic, as the set compares
it. -/
def findTrader (s : Service) (mnem : List Byte) : Option Mnem :=
  s.serv.traders.keys.find? (fun u => u.buf = mnem)

/-- `market`: the market with a name, or the exception that the server turns into a 404
response. -/
def market (s : Service) (mnem : List Byte) : Except ServiceExn Mnem :=
  match s.findMarket mnem with
  | none => .error (.marketNotFound mnem)
  | some m => .ok m

/-- `trader`: the trader with a name, or the exception that the server turns into a 404
response. -/
def trader (s : Service) (mnem : List Byte) : Except ServiceExn Mnem :=
  match s.findTrader mnem with
  | none => .error (.record (.traderNotFound mnem))
  | some u => .ok u

/-- The service with a new market, with an empty book. The other markets stay where they are, and
so do the pointers to them. -/
def addMarket (s : Service) (market : MarketBook) : Service :=
  { s with serv := { s.serv with markets := s.serv.markets.add market } }

/-- The service with a new trader, with an empty session. The index of emails takes the trader
only if it has no trader with that email yet. -/
def addTrader (s : Service) (trader : TraderSess) : Service :=
  { s with
    serv := { s.serv with traders := s.serv.traders.add trader }
    emailIdx := TraderSessSet.insert s.emailIdx trader }

/-- `createMarket`, on the business day `busDay`. The tests come in the order of the source, the
pattern of the mnemonic last, and then the allocation of the book. The texts are cut to their
fields, the tests look at them as they were given. The journal is told nothing. -/
def createMarket (busDay : Int) (alloc : Bool) (mnem display contr : List Byte)
    (settlDay expiryDay : Int) (state : Nat) (s : Service) :
    Except ServiceExn (Mnem × Service) :=
  if (s.contrs.find? contr).isNone then .error (.record (.contrNotFound contr))
  else if settlDay ≠ 0 ∧ settlDay < expiryDay then .error (.record .settlBeforeExpiry)
  else if settlDay ≠ 0 ∧ expiryDay < busDay then .error (.record .expiryBeforeBus)
  else if settlDay = 0 ∧ expiryDay ≠ 0 then .error (.record .expiryWithoutSettl)
  else if (s.findMarket mnem).isSome then .error (.record (.marketExists mnem))
  else if mnemPattern mnem = false then .error (.record (.invalidMnem mnem))
  else if alloc = false then .error (.record .badAlloc)
  else
    let market := newMarket (.assign 16 mnem) (.assign 64 display) (.assign 16 contr) settlDay
      expiryDay state 0 0 0 0 0
    .ok (market.mnem, s.addMarket market)

/-- Change the display and the state of a market, where they are given. -/
def amendMarket (display : Option (List Byte)) (state : Option Nat) (b : MarketBook) :
    MarketBook :=
  let b := match display with
    | some display => b.setDisplay display
    | none => b
  match state with
  | some state => b.setState state
  | none => b

theorem amendMarket_mnem (display : Option (List Byte)) (state : Option Nat) (b : MarketBook) :
    (amendMarket display state b).mnem = b.mnem := by
  cases display <;> cases state <;> rfl

/-- `updateMarket`: an unknown name throws before anything changes. There is no test of the new
values, and the journal is told nothing. -/
def updateMarket (mnem : List Byte) (display : Option (List Byte)) (state : Option Nat)
    (s : Service) : Except ServiceExn (Mnem × Service) :=
  match s.findMarket mnem with
  | none => .error (.marketNotFound mnem)
  | some m =>
    .ok (m, { s with
      serv := s.serv.modifyBook m (amendMarket display state) (amendMarket_mnem display state) })

/-- `createTrader`. An email is in use when the index has it, also the empty one; otherwise the
tests come in the order of the source, and then the allocation of the session. -/
def createTrader (alloc : Bool) (mnem display email : List Byte) (s : Service) :
    Except ServiceExn (Mnem × Service) :=
  if (s.findTrader mnem).isSome then .error (.record (.traderExists mnem))
  else if (s.emailIdx.find? email).isSome then .error (.record (.emailInUse email))
  else if mnemPattern mnem = false then .error (.record (.invalidMnem mnem))
  else if alloc = false then .error (.record .badAlloc)
  else
    let trader := newTrader (.assign 16 mnem) (.assign 64 display) (.assign 64 email)
    .ok (trader.mnem, s.addTrader trader)

/-- `updateTrader`: an unknown name throws before anything changes. The display is all that can be
changed; the mnemonic and the email stay. -/
def updateTrader (mnem display : List Byte) (s : Service) : Except ServiceExn (Mnem × Service) :=
  match s.findTrader mnem with
  | none => .error (.record (.traderNotFound mnem))
  | some u =>
    .ok (u, { s with
      serv := s.serv.modifySess u (TraderSess.setDisplay display)
        (TraderSess.setDisplay_mnem display) })

/-- `createOrder` of the service: the order's part of it changes, the records do not. What a
failed call has done stays done, as `Serv`'s does. -/
def createOrder (env : Env) (a : OrderArgs) (resp : Response) (s : Service) :
    Except ServiceExn Response × Service :=
  match Swirly.createOrder env a ⟨s.serv, resp⟩ with
  | .ok _ c => (.ok c.resp, { s with serv := c.serv })
  | .error e c => (.error (.order e), { s with serv := c.serv })

end Service

/-! ### Calls -/

/-- The calls that change the service, with what they meet: the business day, whether the
allocation succeeds, or the whole `Env` of an order. Reads are left out: they change nothing. -/
inductive ServiceCall
  | createMarket (busDay : Int) (alloc : Bool) (mnem display contr : List Byte)
      (settlDay expiryDay : Int) (state : Nat)
  | updateMarket (mnem : List Byte) (display : Option (List Byte)) (state : Option Nat)
  | createTrader (alloc : Bool) (mnem display email : List Byte)
  | updateTrader (mnem display : List Byte)
  | createOrder (env : Env) (a : OrderArgs) (resp : Response)

/-- The service after a record call; one that throws leaves it alone. -/
def Service.afterRecord (s : Service) (result : Except ServiceExn (Mnem × Service)) : Service :=
  match result with
  | .ok (_, s') => s'
  | .error _ => s

/-- The service after a call, whether the call returns or throws. An order that throws may have
changed it; a record call that throws has not. -/
def ServiceCall.apply (s : Service) : ServiceCall → Service
  | createMarket busDay alloc mnem display contr settlDay expiryDay state =>
      s.afterRecord (s.createMarket busDay alloc mnem display contr settlDay expiryDay state)
  | updateMarket mnem display state => s.afterRecord (s.updateMarket mnem display state)
  | createTrader alloc mnem display email =>
      s.afterRecord (s.createTrader alloc mnem display email)
  | updateTrader mnem display => s.afterRecord (s.updateTrader mnem display)
  | createOrder env a resp => (s.createOrder env a resp).2

/-- A record call throws. Orders do not count here: what they throw and leave is said of
`createOrder`. -/
def ServiceCall.refuses (s : Service) : ServiceCall → Bool
  | createMarket busDay alloc mnem display contr settlDay expiryDay state =>
      !(s.createMarket busDay alloc mnem display contr settlDay expiryDay state).isOk
  | updateMarket mnem display state => !(s.updateMarket mnem display state).isOk
  | createTrader alloc mnem display email => !(s.createTrader alloc mnem display email).isOk
  | updateTrader mnem display => !(s.updateTrader mnem display).isOk
  | createOrder _ _ _ => false

/-- What is asked of an order: positive lots of an existing session and market, a response that
holds nothing yet, and the condition `P`. Anything may be asked of the records. -/
def ServiceCall.Meets (P : CallCond) (s : Service) : ServiceCall → Prop
  | createOrder env a resp => a.Valid s.serv ∧ resp.Cleared ∧ P env s.serv a resp
  | _ => True

/-- One call that is asked what `Meets` asks. What it returns or throws is not part of the
step. -/
def ServiceStep (P : CallCond) (s : Service) (call : ServiceCall) (s' : Service) : Prop :=
  call.Meets P s ∧ s' = call.apply s

/-- A sequence of calls, with the states they were made in. -/
abbrev ServiceRun (P : CallCond) : Service → List (Service × ServiceCall) → Service → Prop :=
  Traced (ServiceStep P)

/-! ### The records -/

namespace Service

/-- The records and their index, as `Registry` has them: the part of the service that the claims
about records are about. -/
def registry (s : Service) : Registry :=
  { contrs := s.contrs.elems.map Contr.mnem
    markets := s.markets
    traders := s.traders
    emailIdx := s.emailIdx }

section Records

variable {s : Service} {mnem : List Byte}

theorem buf_injective {maxN : Nat} :
    Function.Injective (fun s : FixedString maxN => s.buf) := fun _ _ => FixedString.ext

theorem find?_markets (s : Service) (mnem : List Byte) :
    s.markets.find? mnem = (s.findMarket mnem).map s.serv.markets.get :=
  Table.find?_toSet (t := s.serv.markets) buf_injective mnem

theorem find?_traders (s : Service) (mnem : List Byte) :
    s.traders.find? mnem = (s.findTrader mnem).map s.serv.traders.get :=
  Table.find?_toSet (t := s.serv.traders) buf_injective mnem

theorem findMarket_some {m : Mnem} (h : s.findMarket mnem = some m) :
    m ∈ s.serv.markets.keys ∧ m.buf = mnem :=
  ⟨List.mem_of_find?_eq_some h, by simpa using List.find?_some h⟩

theorem findTrader_some {u : Mnem} (h : s.findTrader mnem = some u) :
    u ∈ s.serv.traders.keys ∧ u.buf = mnem :=
  ⟨List.mem_of_find?_eq_some h, by simpa using List.find?_some h⟩

theorem findMarket_none (h : s.findMarket mnem = none) {m : Mnem} (hm : m.buf = mnem) :
    m ∉ s.serv.markets.keys := by
  intro hmem
  exact absurd hm (by simpa using List.find?_eq_none.mp h m hmem)

theorem findTrader_none (h : s.findTrader mnem = none) {u : Mnem} (hu : u.buf = mnem) :
    u ∉ s.serv.traders.keys := by
  intro hmem
  exact absurd hu (by simpa using List.find?_eq_none.mp h u hmem)

theorem mem_markets {b : MarketBook} :
    b ∈ s.markets.elems ↔ ∃ m ∈ s.serv.markets.keys, s.serv.markets.get m = b :=
  (Table.mem_toSet buf_injective).trans Table.mem_records

theorem mem_traders {u : TraderSess} :
    u ∈ s.traders.elems ↔ ∃ m ∈ s.serv.traders.keys, s.serv.traders.get m = u :=
  (Table.mem_toSet buf_injective).trans Table.mem_records

theorem registry_contrs_all (s : Service) (contr : List Byte) :
    (s.contrs.find? contr).isNone = s.registry.contrs.all (fun c => c.buf ≠ contr) := by
  rw [Bool.eq_iff_iff, Option.isNone_iff_eq_none, KeySet.find?_eq_none_iff]
  simp [registry]

theorem addTrader_registry {u : TraderSess} (h : u.mnem ∉ s.serv.traders.keys) :
    (s.addTrader u).registry =
      { s.registry with
        traders := s.traders.insert u
        emailIdx := TraderSessSet.insert s.emailIdx u } := by
  unfold registry
  congr 1
  exact Table.toSet_add h

end Records

/-! ### Record calls -/

section Calls

variable (s : Service) (busDay : Int) (alloc : Bool) (mnem display contr email : List Byte)
  (settlDay expiryDay : Int) (state : Nat)

/-- `createMarket` does what it does on the records alone. -/
theorem createMarket_registry :
    s.createMarket busDay alloc mnem display contr settlDay expiryDay state =
      ((s.registry.createMarket busDay alloc mnem display contr settlDay expiryDay
        state).mapError .record).map (fun r => (r.1.mnem, s.addMarket r.1)) := by
  have hfind : (s.registry.markets.find? mnem).isSome = (s.findMarket mnem).isSome := by
    rw [show s.registry.markets = s.markets from rfl, find?_markets, Option.isSome_map]
  unfold createMarket Registry.createMarket
  rw [registry_contrs_all, hfind]
  split_ifs <;> rfl

/-- `createTrader` does what it does on the records alone. -/
theorem createTrader_registry :
    s.createTrader alloc mnem display email =
      ((s.registry.createTrader alloc mnem display email).mapError .record).map
        (fun r => (r.1.mnem, s.addTrader r.1)) := by
  have hfind : (s.registry.traders.find? mnem).isSome = (s.findTrader mnem).isSome := by
    rw [show s.registry.traders = s.traders from rfl, find?_traders, Option.isSome_map]
  have hidx : s.registry.emailIdx = s.emailIdx := rfl
  unfold createTrader Registry.createTrader
  rw [hfind, hidx]
  split_ifs <;> rfl

end Calls

end Service

/-! ### What a record call leaves alone -/

/-- Markets and traders have joined, and what there was differs in what it is shown as at
most. -/
structure Registered (s s' : Serv) : Prop where
  heap : s'.heap = s.heap
  matchVec : s'.matchVec = s.matchVec
  journ : s'.journ = s.journ
  marketKeys : s.markets.keys ⊆ s'.markets.keys
  market : ∀ m ∈ s.markets.keys, ∃ display state,
    s'.markets.get m = { s.markets.get m with display, state }
  /-- A new market is no more than its record. -/
  newMarket : ∀ m ∈ s'.markets.keys, m ∉ s.markets.keys →
    s'.markets.get m = (s'.markets.get m).record
  traderKeys : s.traders.keys ⊆ s'.traders.keys
  trader : ∀ u ∈ s.traders.keys, ∃ display,
    s'.traders.get u = { s.traders.get u with display }
  newTrader : ∀ u ∈ s'.traders.keys, u ∉ s.traders.keys →
    (s'.traders.get u).orders = KeySet.empty ∧ (s'.traders.get u).trades = KeySet.empty ∧
      (s'.traders.get u).posns = KeySet.empty

namespace Registered

variable {s s' : Serv}

theorem refl (s : Serv) : Registered s s where
  heap := rfl
  matchVec := rfl
  journ := rfl
  marketKeys := List.Subset.refl _
  market _ _ := ⟨_, _, rfl⟩
  newMarket _ hm hnew := absurd hm hnew
  traderKeys := List.Subset.refl _
  trader _ _ := ⟨_, rfl⟩
  newTrader _ hu hnew := absurd hu hnew

theorem side (h : Registered s s') {m : Mnem} (hm : m ∈ s.markets.keys) (sd : Side) :
    (s'.markets.get m).side sd = (s.markets.get m).side sd := by
  obtain ⟨display, state, heq⟩ := h.market m hm
  rw [heq]
  rfl

theorem side_new (h : Registered s s') {m : Mnem} (hm : m ∈ s'.markets.keys)
    (hnew : m ∉ s.markets.keys) (sd : Side) : (s'.markets.get m).side sd = BookSide.empty := by
  rw [h.newMarket m hm hnew]
  cases sd <;> rfl

theorem grows (h : Registered s s') {m : Mnem} (hm : m ∈ s.markets.keys) :
    (s.markets.get m).Grows (s'.markets.get m) := by
  obtain ⟨display, state, heq⟩ := h.market m hm
  rw [heq]
  exact ⟨rfl, rfl, rfl, le_rfl⟩

theorem maxExecId (h : Registered s s') {m : Mnem} (hm : m ∈ s.markets.keys) :
    (s'.markets.get m).maxExecId = (s.markets.get m).maxExecId := by
  obtain ⟨display, state, heq⟩ := h.market m hm
  rw [heq]

theorem nodes (h : Registered s s') {u : Mnem} (hu : u ∈ s.traders.keys) :
    s'.nodes u = s.nodes u := by
  obtain ⟨display, heq⟩ := h.trader u hu
  unfold Serv.nodes
  rw [heq]

/-- An order that rests rested before, in a market that was there. -/
theorem rested (h : Registered s s') {m : Mnem} (hm : m ∈ s'.markets.keys) {sd : Side}
    {p : OrderPtr} (hp : p ∈ ((s'.markets.get m).side sd).orders) :
    m ∈ s.markets.keys ∧ p ∈ ((s.markets.get m).side sd).orders := by
  by_cases hold : m ∈ s.markets.keys
  · rw [h.side hold] at hp
    exact ⟨hold, hp⟩
  · rw [h.side_new hm hold] at hp
    exact absurd hp List.not_mem_nil

/-- An entry in a session was there before, in a session that was there. -/
theorem noted (h : Registered s s') {u : Mnem} (hu : u ∈ s'.traders.keys) {n : OrderNode}
    (hn : n ∈ s'.nodes u) : u ∈ s.traders.keys ∧ n ∈ s.nodes u := by
  by_cases hold : u ∈ s.traders.keys
  · rw [h.nodes hold] at hn
    exact ⟨hold, hn⟩
  · unfold Serv.nodes at hn
    rw [(h.newTrader u hu hold).1] at hn
    exact absurd hn List.not_mem_nil

theorem booksOk (h : Registered s s') (hb : BooksOk s) : BooksOk s' := by
  intro m hm sd
  by_cases hold : m ∈ s.markets.keys
  · rw [h.side hold, h.heap]
    exact (hb m hold sd).congr le_rfl (h.grows hold) (fun _ _ => rfl)
  · rw [h.side_new hm hold]
    exact SideOk.empty _ _ _

theorem keeps (h : Registered s s') {u : Mnem} (hu : u ∈ s.traders.keys) {ts : List Exec}
    (hk : (s.traders.get u).Keeps ts) : (s'.traders.get u).Keeps ts := by
  obtain ⟨display, heq⟩ := h.trader u hu
  rw [heq]
  exact hk.congr rfl (fun _ _ => rfl)

/-- The journal is about markets and traders that were there. -/
theorem ledger (h : Registered s s') (hi : ServInv s) : LedgerInv s' s.journ := by
  have hmarket : ∀ e ∈ s.journ, e.market ∈ s.markets.keys := by
    intro e he
    obtain ⟨n, hn, hmarket, -⟩ := hi.sessions.logged e he
    exact hmarket ▸ (hi.sessions.held _ (hi.ledger.trader e he) n hn).book
  refine {
    ids := hi.ledger.ids
    id_le := fun e he => ?_
    orderId_le := fun e he => ?_
    trader := fun e he => h.traderKeys (hi.ledger.trader e he)
    mirrored := hi.ledger.mirrored
    keeps := fun u hu => ?_ }
  · rw [h.maxExecId (hmarket e he)]
    exact hi.ledger.id_le e he
  · exact (hi.ledger.orderId_le e he).trans (h.grows (hmarket e he)).maxOrderId
  · by_cases hold : u ∈ s.traders.keys
    · exact h.keeps hold (hi.ledger.keeps u hold)
    · obtain ⟨-, htrades, hposns⟩ := h.newTrader u hu hold
      have hnone : (tradesIn s.journ).filter (fun t => t.trader = u) = [] := by
        refine List.filter_eq_nil_iff.mpr (fun t ht => ?_)
        have hof := hi.ledger.trader t (mem_tradesIn.mp ht).1
        simp only [decide_eq_true_eq]
        rintro rfl
        exact hold hof
      rw [hnone]
      exact TraderSess.Keeps.empty htrades hposns

theorem sessions (h : Registered s s') (hi : ServInv s) : SessInv s' where
  held u hu n hn := by
    obtain ⟨hu', hn'⟩ := h.noted hu hn
    have hh := hi.sessions.held u hu' n hn'
    have hgrows := h.grows hh.book
    have hside := h.side hh.book (s.heap n.order).side
    rw [← h.heap] at hside
    refine ⟨?_, h.marketKeys hh.book, ?_, ?_, ?_, hh.id_le.trans hgrows.maxOrderId, ?_, ?_, ?_⟩
    · rw [h.heap]
      exact hh.lt_next
    · rw [h.heap]
      exact hh.market
    · rw [h.heap]
      exact hh.id
    · rw [h.heap]
      exact hh.trader
    · rw [h.heap]
      exact hh.resd_nonneg
    · rw [hside, h.heap]
      exact hh.rests
    · rw [h.journ, h.heap]
      exact hh.history
  unique u hu n hn u' hu' n' hn' := by
    obtain ⟨hu, hn⟩ := h.noted hu hn
    obtain ⟨hu', hn'⟩ := h.noted hu' hn'
    exact hi.sessions.unique u hu n hn u' hu' n' hn'
  owned m hm sd p hp := by
    obtain ⟨hm, hp⟩ := h.rested hm hp
    obtain ⟨hu, hn⟩ := hi.sessions.owned m hm sd p hp
    rw [h.heap, h.nodes hu]
    exact ⟨h.traderKeys hu, hn⟩
  logged e he := by
    rw [h.journ] at he
    obtain ⟨n, hn, hof⟩ := hi.sessions.logged e he
    rw [h.nodes (hi.ledger.trader e he)]
    exact ⟨n, hn, hof⟩

end Registered

/-- **A record call keeps what the orders rely on.** -/
theorem ServInv.registered {s s' : Serv} (hi : ServInv s) (h : Registered s s') :
    ServInv s' where
  books := h.booksOk hi.books
  matchVec := h.matchVec.trans hi.matchVec
  traders m hm sd p hp := by
    obtain ⟨hm, hp⟩ := h.rested hm hp
    rw [h.heap]
    exact h.traderKeys (hi.traders m hm sd p hp)
  uncrossed m hm p hp q hq := by
    obtain ⟨hold, hp⟩ := h.rested hm hp
    obtain ⟨-, hq⟩ := h.rested hm hq
    rw [h.heap]
    exact hi.uncrossed m hold p hp q hq
  ledger := h.journ ▸ h.ledger hi
  sessions := h.sessions hi

/-! ### What each call does -/

namespace Service

variable {s : Service}

theorem addMarket_registered {b : MarketBook} (hfree : b.mnem ∉ s.serv.markets.keys)
    (hrecord : b = b.record) : Registered s.serv (s.addMarket b).serv where
  heap := rfl
  matchVec := rfl
  journ := rfl
  marketKeys _ hm := Table.mem_add_keys.mpr (Or.inl hm)
  market m hm := ⟨_, _, Table.add_get_of_mem hm⟩
  newMarket m hm hnew := by
    obtain rfl := (Table.mem_add_keys.mp hm).resolve_left hnew
    show (s.serv.markets.add b).get b.mnem = ((s.serv.markets.add b).get b.mnem).record
    rw [Table.add_get_self hfree]
    exact hrecord
  traderKeys := List.Subset.refl _
  trader _ _ := ⟨_, rfl⟩
  newTrader _ hu hnew := absurd hu hnew

theorem addTrader_registered {u : TraderSess} (hfree : u.mnem ∉ s.serv.traders.keys)
    (hempty : u.orders = .empty ∧ u.trades = .empty ∧ u.posns = .empty) :
    Registered s.serv (s.addTrader u).serv where
  heap := rfl
  matchVec := rfl
  journ := rfl
  marketKeys := List.Subset.refl _
  market _ _ := ⟨_, _, rfl⟩
  newMarket _ hm hnew := absurd hm hnew
  traderKeys _ hu := Table.mem_add_keys.mpr (Or.inl hu)
  trader v hv := ⟨_, Table.add_get_of_mem hv⟩
  newTrader v hv hnew := by
    obtain rfl := (Table.mem_add_keys.mp hv).resolve_left hnew
    show ((s.serv.traders.add u).get u.mnem).orders = _ ∧ _
    rw [show (s.addTrader u).serv.traders.get u.mnem = u from Table.add_get_self hfree,
      Table.add_get_self hfree]
    exact hempty

theorem amendMarket_registered (m : Mnem) (display : Option (List Byte)) (state : Option Nat) :
    Registered s.serv
      (s.serv.modifyBook m (amendMarket display state) (amendMarket_mnem display state)) where
  heap := rfl
  matchVec := rfl
  journ := rfl
  marketKeys := List.Subset.refl _
  market m' _ := by
    rw [Serv.modifyBook_get]
    split
    · next heq =>
        subst heq
        cases display <;> cases state <;> exact ⟨_, _, rfl⟩
    · exact ⟨_, _, rfl⟩
  newMarket _ hm hnew := absurd hm hnew
  traderKeys := List.Subset.refl _
  trader _ _ := ⟨_, rfl⟩
  newTrader _ hu hnew := absurd hu hnew

theorem setDisplay_registered (u : Mnem) (display : List Byte) :
    Registered s.serv
      (s.serv.modifySess u (TraderSess.setDisplay display)
        (TraderSess.setDisplay_mnem display)) where
  heap := rfl
  matchVec := rfl
  journ := rfl
  marketKeys := List.Subset.refl _
  market _ _ := ⟨_, _, rfl⟩
  newMarket _ hm hnew := absurd hm hnew
  traderKeys := List.Subset.refl _
  trader v _ := by
    rw [Serv.modifySess_get]
    split
    · next heq =>
        subst heq
        exact ⟨_, rfl⟩
    · exact ⟨_, rfl⟩
  newTrader _ hu hnew := absurd hu hnew

/-- A name that fits the pattern is stored as it is. -/
theorem assign_of_pattern {mnem : List Byte} (h : mnemPattern mnem = true) :
    (FixedString.assign 16 mnem).buf = mnem := by
  simp only [mnemPattern, Bool.and_eq_true, decide_eq_true_eq] at h
  exact List.take_of_length_le h.1.2

/-- An order leaves the service as `Swirly.createOrder` leaves its part. -/
theorem createOrder_serv (s : Service) (env : Env) (a : OrderArgs) (resp : Response) :
    (s.createOrder env a resp).2 =
      { s with serv := ((Swirly.createOrder env a).final ⟨s.serv, resp⟩).serv } := by
  unfold createOrder Lib.Effect.final
  cases Swirly.createOrder env a ⟨s.serv, resp⟩ <;> rfl

end Service

namespace ServiceCall

/-- What a call does to the service, and whether it throws. -/
inductive Outcome (s : Service) : ServiceCall → Bool → Service → Prop
  | marketRefused {busDay alloc mnem display contr settlDay expiryDay state}
      (h : ¬ s.registry.CreatesMarket busDay alloc mnem contr settlDay expiryDay) :
      Outcome s (createMarket busDay alloc mnem display contr settlDay expiryDay state) true s
  | marketCreated {busDay alloc mnem display contr settlDay expiryDay state}
      (h : s.registry.CreatesMarket busDay alloc mnem contr settlDay expiryDay)
      (hfree : .assign 16 mnem ∉ s.serv.markets.keys) :
      Outcome s (createMarket busDay alloc mnem display contr settlDay expiryDay state) false
        (s.addMarket (newMarket (.assign 16 mnem) (.assign 64 display) (.assign 16 contr) settlDay
          expiryDay state 0 0 0 0 0))
  | marketUnknown {mnem display state} (h : s.findMarket mnem = none) :
      Outcome s (updateMarket mnem display state) true s
  | marketUpdated {mnem display state m} (h : s.findMarket mnem = some m) :
      Outcome s (updateMarket mnem display state) false { s with
        serv := s.serv.modifyBook m (Service.amendMarket display state)
          (Service.amendMarket_mnem display state) }
  | traderRefused {alloc mnem display email} (h : ¬ s.registry.Creates alloc mnem email) :
      Outcome s (createTrader alloc mnem display email) true s
  | traderCreated {alloc mnem display email} (h : s.registry.Creates alloc mnem email)
      (hfree : .assign 16 mnem ∉ s.serv.traders.keys) :
      Outcome s (createTrader alloc mnem display email) false
        (s.addTrader (newTrader (.assign 16 mnem) (.assign 64 display) (.assign 64 email)))
  | traderUnknown {mnem display} (h : s.findTrader mnem = none) :
      Outcome s (updateTrader mnem display) true s
  | traderUpdated {mnem display u} (h : s.findTrader mnem = some u) :
      Outcome s (updateTrader mnem display) false { s with
        serv := s.serv.modifySess u (TraderSess.setDisplay display)
          (TraderSess.setDisplay_mnem display) }
  | ordered (env : Env) (a : OrderArgs) (resp : Response) :
      Outcome s (createOrder env a resp) false
        { s with serv := ((Swirly.createOrder env a).final ⟨s.serv, resp⟩).serv }

variable {P : CallCond} {s : Service} {call : ServiceCall}

/-- **What a call can do.** -/
theorem outcome (s : Service) (call : ServiceCall) :
    call.Outcome s (call.refuses s) (call.apply s) := by
  cases call with
  | createMarket busDay alloc mnem display contr settlDay expiryDay state =>
      simp only [apply, refuses, Service.createMarket_registry]
      by_cases h : s.registry.CreatesMarket busDay alloc mnem contr settlDay expiryDay
      · have hfree := h.mnem_free
        rw [show s.registry.markets = s.markets from rfl, Service.find?_markets,
          Option.map_eq_none_iff] at hfree
        rw [Registry.createMarket_of_creates h]
        exact .marketCreated h
          (Service.findMarket_none hfree (Service.assign_of_pattern h.pattern))
      · obtain ⟨e, herror⟩ := Registry.createMarket_error h display state
        rw [herror]
        exact .marketRefused h
  | updateMarket mnem display state =>
      simp only [apply, refuses, Service.updateMarket]
      cases hfind : s.findMarket mnem with
      | none => exact .marketUnknown hfind
      | some m => exact .marketUpdated hfind
  | createTrader alloc mnem display email =>
      simp only [apply, refuses, Service.createTrader_registry]
      by_cases h : s.registry.Creates alloc mnem email
      · have hfree := h.mnem_free
        rw [show s.registry.traders = s.traders from rfl, Service.find?_traders,
          Option.map_eq_none_iff] at hfree
        rw [Registry.createTrader_ok h]
        exact .traderCreated h (Service.findTrader_none hfree h.mnem_eq)
      · obtain ⟨e, herror⟩ := Registry.createTrader_error h display
        rw [herror]
        exact .traderRefused h
  | updateTrader mnem display =>
      simp only [apply, refuses, Service.updateTrader]
      cases hfind : s.findTrader mnem with
      | none => exact .traderUnknown hfind
      | some u => exact .traderUpdated hfind
  | createOrder env a resp =>
      simp only [apply, refuses, Service.createOrder_serv]
      exact .ordered env a resp

/-- **A call is about the records or is an order.** -/
theorem apply_cases (hmeets : call.Meets P s) :
    Registered s.serv (call.apply s).serv ∨ Step P s.serv (call.apply s).serv := by
  have hout := outcome s call
  generalize call.refuses s = refused, call.apply s = s' at hout
  cases hout with
  | marketRefused h => exact Or.inl (Registered.refl _)
  | marketCreated h hfree =>
      exact Or.inl (Service.addMarket_registered hfree rfl)
  | marketUnknown h => exact Or.inl (Registered.refl _)
  | marketUpdated h => exact Or.inl (Service.amendMarket_registered _ _ _)
  | traderRefused h => exact Or.inl (Registered.refl _)
  | traderCreated h hfree => exact Or.inl (Service.addTrader_registered hfree ⟨rfl, rfl, rfl⟩)
  | traderUnknown h => exact Or.inl (Registered.refl _)
  | traderUpdated h => exact Or.inl (Service.setDisplay_registered _ _)
  | ordered env a resp =>
      obtain ⟨hv, hc, hp⟩ := hmeets
      exact Or.inr ⟨env, a, resp, hv, hc, hp, rfl⟩

end ServiceCall

/-! ### Runs -/

/-- **One call keeps the invariant of the orders**, be it about the records or an order. -/
theorem ServInv.serviceStep {s s' : Service} {call : ServiceCall} (hi : ServInv s.serv)
    (hstep : ServiceStep Sound s call s') : ServInv s'.serv := by
  obtain ⟨hmeets, rfl⟩ := hstep
  rcases call.apply_cases hmeets with hr | hstep
  · exact hi.registered hr
  · exact hi.step hstep

namespace ServiceRun

variable {s₀ s : Service} {trace : List (Service × ServiceCall)}

/-- **Whoever joins while orders are placed, the invariant of the orders holds.** -/
theorem servInv (h₀ : s₀.serv.Empty) (hrun : ServiceRun Sound s₀ trace s) : ServInv s.serv := by
  refine hrun.invariant (I := fun s => ServInv s.serv) (ServInv.init h₀) ?_
  exact fun s call s' hi hstep => hi.serviceStep hstep

end ServiceRun

end Swirly
