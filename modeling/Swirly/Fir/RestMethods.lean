import Swirly.Fig.Directory
import Swirly.Fig.Posted
import Swirly.Fir.Rest

/-!
# Swirly.Fir.RestMethods

**The methods of `Rest` on the service.** Each method reads the service or makes one call of it,
and writes what comes of it as JSON (`RestMethod.run`). Methods that are not implemented write
a text that has nothing to do with the service, and are here as they are. `Service.rest` is the
`Rest` that the server in front of it sees: what a method writes depends on the calls before it
through the service that they have left.

A call that reads changes nothing, one that throws leaves nothing that can be seen
(`Unseen`), and what is read of the records is what the directory has (`rest_reads`).
-/

namespace Swirly

open Lib (KeySet Table)
open Lib.Effect (final_ok final_error)

/-! ### Exceptions -/

/-- The class of the exception, and its message. A failed allocation is none of the service's own
classes. -/
def RecExn.caught : RecExn → Caught
  | e@(contrNotFound _) => .serv .notFound (bytes e.what)
  | e@(traderNotFound _) => .serv .notFound (bytes e.what)
  | badAlloc => .other (bytes RecExn.badAlloc.what)
  | e => .serv .badRequest (bytes e.what)

/-- The class of the exception; what the journal throws is its own. -/
def ServiceExn.caught (journ : Caught) : ServiceExn → Caught
  | record e => e.caught
  | e@(marketNotFound _) => .serv .notFound (bytes e.what)
  | e@(order (.marketClosed _ _)) => .serv .notFound (bytes e.what)
  | e@(order (.invalidLots _)) => .serv .badRequest (bytes e.what)
  | order .badAlloc => .other (bytes Exn.badAlloc.what)
  | order .journ => journ

theorem RecExn.caught_status (e : RecExn) : e.caught.status ≠ 405 := by
  cases e <;> simp [caught, Caught.status, HttpError.httpStatus]

theorem ServiceExn.caught_status {journ : Caught} (hjourn : journ.status ≠ 405)
    (e : ServiceExn) : (e.caught journ).status ≠ 405 := by
  cases e with
  | record e => exact e.caught_status
  | marketNotFound mnem => exact (by decide : 404 ≠ 405)
  | order e =>
      cases e with
      | marketClosed contr settlDate => exact (by decide : 404 ≠ 405)
      | invalidLots lots => exact (by decide : 400 ≠ 405)
      | badAlloc => exact (by decide : 500 ≠ 405)
      | journ => exact hjourn

/-- What a method meets and does not control. -/
structure RestEnv where
  /-- What an order meets. -/
  env : Env
  /-- Does the allocation of a new record succeed? -/
  alloc : Bool
  /-- What the journal throws if it does. -/
  journ : RestExn

/-- What is thrown by a method. -/
def RestEnv.throws (env : RestEnv) (e : ServiceExn) : RestExn :=
  ⟨e.caught env.journ.val, e.caught_status env.journ.property⟩

/-! ### The methods -/

/-- What a method writes, and what it throws if it does. -/
abbrev RestResult := List Byte × Option RestExn

/-- A record that was looked for under a name. -/
def writeFound {α : Type} (kind : String) (mnem : List Byte) (toJson : α → List Byte) :
    Option α → RestResult
  | some a => (toJson a, none)
  | none => ([], some ⟨.serv .notFound
      (bytes kind ++ bytes " '" ++ mnem ++ bytes "' does not exist"), (by decide : 404 ≠ 405)⟩)

/-- Records with commas between them, in brackets. -/
def writeAll {α : Type} (toJson : α → List Byte) (as : List α) : List Byte :=
  bracket (joinTexts (as.map toJson))

/-- One of the members that a text is put together of. -/
def entry (key : String) (value : List Byte) : List Byte :=
  bytes "\"" ++ bytes key ++ bytes "\":" ++ value

/-- What was created or updated, or what was thrown. -/
def RestEnv.writeRec (env : RestEnv) (s : Service) (toJson : Service → Mnem → List Byte) :
    Except ServiceExn (Mnem × Service) → Service × RestResult
  | .ok (mnem, s') => (s', toJson s' mnem, none)
  | .error e => (s, [], some (env.throws e))

/-- `getRec`, of the records that there are. -/
def recText (es : EntitySet) (assets : List Asset) (contrs : List Contr)
    (markets : List MarketBook) (traders : List TraderSess) : List Byte :=
  bytes "\x7b" ++ joinTexts
    ((if .asset ∈ es then [entry "assets" (writeAll Asset.toJson assets)] else [])
      ++ (if .contr ∈ es then [entry "contrs" (writeAll Contr.toJson contrs)] else [])
      ++ (if .market ∈ es then [entry "markets" (writeAll MarketBook.toJson markets)] else [])
      ++ (if .trader ∈ es then [entry "traders" (writeAll TraderSess.toJson traders)] else []))
    ++ bytes "\x7d"

namespace Service

/-- `getRec`: the kinds of records that are asked for, in a fixed order, each as the list that its
own method writes. -/
def getRec (s : Service) (es : EntitySet) : List Byte :=
  recText es s.assets.elems s.contrs.elems s.markets.elems s.traders.elems

/-- The text of a market, as it is after the call that writes it. -/
def marketText (s : Service) (mnem : Mnem) : List Byte := (s.serv.markets.get mnem).toJson

/-- The text of a trader, as it is after the call that writes it. -/
def traderText (s : Service) (mnem : Mnem) : List Byte := (s.serv.traders.get mnem).toJson

end Service

/-- `getSess`: none of its parts is implemented. -/
def getSess (es : EntitySet) : List Byte :=
  bytes "\x7b" ++ joinTexts
    ((if .order ∈ es then [entry "orders" (bytes "[]")] else [])
      ++ (if .trade ∈ es then [entry "trades" (bytes "[]")] else [])
      ++ (if .posn ∈ es then [entry "posns" (bytes "[]")] else [])
      ++ (if .view ∈ es then [entry "views" (bytes "[]")] else []))
    ++ bytes "\x7d"

/-- What is written where a method is not implemented, of a name. -/
def stubOf (key : String) (name : List Byte) : List Byte :=
  firstMember key ++ quote name ++ bytes "\x7d"

/-- What is written where a method is not implemented, of a name and a number. The quote that
should end the name is missing. -/
def stubAt (key : String) (name : List Byte) (key' : String) (n : Int) : List Byte :=
  firstMember key ++ bytes "\"" ++ name ++ member key' ++ intText n ++ bytes "\x7d"

/-- What is written where a method is not implemented, of a name and some ids. -/
def stubIds (name : List Byte) (ids : List Int) : List Byte :=
  firstMember "market" ++ quote name ++ member "ids" ++ bracket (joinTexts (ids.map intText))
    ++ bytes "\x7d"

/-- `postOrder`: the trader is looked for before the market, then the order is created with a new
response, and the response is written. The text is made after the call, of what is in the service
then. -/
def RestEnv.postOrder (env : RestEnv) (now : Int) (s : Service) (trader market ref : List Byte)
    (side : Side) (lots ticks minLots : Int) : Service × RestResult :=
  match s.trader trader, s.market market with
  | .error e, _ => (s, [], some (env.throws e))
  | .ok _, .error e => (s, [], some (env.throws e))
  | .ok sess, .ok book =>
    match s.createOrder env.env ⟨sess, book, ref, side, lots, ticks, minLots, now⟩ {} with
    | (.ok resp, s') => (s', resp.toJson s'.serv, none)
    | (.error e, s') => (s', [], some (env.throws e))

/-- The methods of `Rest`: the service after the method, and what the method writes. A `side` or
an `id` that is not there is not asked for by the server, and the method does nothing. -/
def RestMethod.run (env : RestEnv) (now : Int) (s : Service) :
    RestMethod → Service × RestResult
  | getRec es => (s, s.getRec es, none)
  | getAssets => (s, writeAll Asset.toJson s.assets.elems, none)
  | getAsset mnem => (s, writeFound "asset" mnem Asset.toJson (s.assets.find? mnem))
  | getContrs => (s, writeAll Contr.toJson s.contrs.elems, none)
  | getContr mnem => (s, writeFound "contr" mnem Contr.toJson (s.contrs.find? mnem))
  | getMarkets => (s, writeAll MarketBook.toJson s.markets.elems, none)
  | getMarket mnem => (s, writeFound "market" mnem MarketBook.toJson (s.markets.find? mnem))
  | getTraders => (s, writeAll TraderSess.toJson s.traders.elems, none)
  | getTrader mnem => (s, writeFound "trader" mnem TraderSess.toJson (s.traders.find? mnem))
  | getSess es => (s, Swirly.getSess es, none)
  | getOrders => (s, bytes "[]", none)
  | getOrdersOf market => (s, stubOf "market" market, none)
  | getOrder market id =>
      (s, match id with | some id => stubAt "market" market "id" id | none => [], none)
  | getTrades => (s, bytes "[]", none)
  | getTradesOf market => (s, stubOf "market" market, none)
  | getTrade market id =>
      (s, match id with | some id => stubAt "market" market "id" id | none => [], none)
  | getPosns => (s, bytes "[]", none)
  | getPosnsOf contr => (s, stubOf "contr" contr, none)
  | getPosn contr settlDate => (s, stubAt "contr" contr "settlDate" settlDate, none)
  | getViews => (s, bytes "[]", none)
  | getView market => (s, stubOf "market" market, none)
  | postMarket mnem display contr settlDate expiryDate state =>
      env.writeRec s Service.marketText
        (s.createMarket (env.env.getBusDay now) env.alloc mnem display contr
          (maybeIsoToJd settlDate) (maybeIsoToJd expiryDate) state.toNat)
  | putMarket mnem display state =>
      env.writeRec s Service.marketText (s.updateMarket mnem display (state.map Int.toNat))
  | postTrader mnem display email =>
      env.writeRec s Service.traderText (s.createTrader env.alloc mnem display email)
  | putTrader mnem display =>
      env.writeRec s Service.traderText (s.updateTrader mnem display)
  | postOrder trader market ref side lots ticks minLots =>
      match side with
      | some side => env.postOrder now s trader market ref side lots ticks minLots
      | none => (s, [], none)
  | putOrder market ids => (s, stubIds market ids, none)
  | deleteOrder market ids => (s, stubIds market ids, none)
  | postTrade market => (s, stubOf "market" market, none)
  | deleteTrade market ids => (s, stubIds market ids, none)

/-- The service after calls, the first of which meets `env 0`. -/
def Service.afterCalls (env : Nat → RestEnv) (s : Service) (calls : List Call) : Service :=
  calls.zipIdx.foldl (fun s c => (c.1.method.run (env c.2) c.1.now s).1) s

/-- `Rest`, with the service that it was made with. -/
def Service.rest (env : Nat → RestEnv) (s : Service) : Rest := fun calls c =>
  (c.method.run (env calls.length) c.now (s.afterCalls env calls)).2

theorem Service.afterCalls_snoc (env : Nat → RestEnv) (s : Service) (calls : List Call)
    (c : Call) : s.afterCalls env (calls ++ [c]) =
      (c.method.run (env calls.length) c.now (s.afterCalls env calls)).1 := by
  unfold afterCalls
  rw [List.zipIdx_append, List.foldl_append]
  simp

theorem Service.trader_ok {s : Service} {mnem : List Byte} {u : Mnem}
    (h : s.trader mnem = .ok u) : u ∈ s.serv.traders.keys ∧ u.buf = mnem := by
  unfold trader at h
  split at h
  · cases h
  · next hfind =>
      cases h
      exact findTrader_some hfind

theorem Service.market_ok {s : Service} {mnem : List Byte} {m : Mnem}
    (h : s.market mnem = .ok m) : m ∈ s.serv.markets.keys ∧ m.buf = mnem := by
  unfold market at h
  split at h
  · cases h
  · next hfind =>
      cases h
      exact findMarket_some hfind

/-! ### Methods as calls of the service -/

namespace RestMethod

/-- The call of the service that a method about the records makes. -/
def recordCall (env : RestEnv) (now : Int) : RestMethod → Option ServiceCall
  | postMarket mnem display contr settlDate expiryDate state =>
      some (.createMarket (env.env.getBusDay now) env.alloc mnem display contr
        (maybeIsoToJd settlDate) (maybeIsoToJd expiryDate) state.toNat)
  | putMarket mnem display state => some (.updateMarket mnem display (state.map Int.toNat))
  | postTrader mnem display email => some (.createTrader env.alloc mnem display email)
  | putTrader mnem display => some (.updateTrader mnem display)
  | _ => none

/-- The call of the service that an order leads to, if its trader and market are found. -/
def orderCall (env : RestEnv) (now : Int) (s : Service) : RestMethod → Option ServiceCall
  | postOrder trader market ref (some side) lots ticks minLots =>
    match s.trader trader, s.market market with
    | .ok sess, .ok book =>
        some (.createOrder env.env ⟨sess, book, ref, side, lots, ticks, minLots, now⟩ {})
    | _, _ => none
  | _ => none

/-- What is asked of the quantities of an order: that it is of some lots. The other methods
are asked nothing, and neither is an order for its price or its minimum. -/
def Asks : RestMethod → Prop
  | postOrder _ _ _ _ lots _ _ => 0 < lots
  | _ => True

/-- What a method does to the service: nothing, or what its call does. -/
inductive Runs (env : RestEnv) (now : Int) (s : Service) (m : RestMethod) :
    Service → Option RestExn → Prop
  | idle (thrown : Option RestExn) (hrecord : m.recordCall env now = none)
      (horder : m.orderCall env now s = none) : Runs env now s m s thrown
  | record {call : ServiceCall} (hrecord : m.recordCall env now = some call)
      (horder : m.orderCall env now s = none) : Runs env now s m (call.apply s) none
  | refused (thrown : Option RestExn) {call : ServiceCall}
      (hrecord : m.recordCall env now = some call) (horder : m.orderCall env now s = none)
      (h : call.apply s = s) : Runs env now s m s thrown
  | ordered {a : OrderArgs} {c' : Ctx} (hrecord : m.recordCall env now = none)
      (horder : m.orderCall env now s = some (.createOrder env.env a {}))
      (h : createOrder env.env a ⟨s.serv, {}⟩ = .ok () c') :
      Runs env now s m { s with serv := c'.serv } none
  | failed {a : OrderArgs} {e : Exn} {c' : Ctx} (thrown : Option RestExn)
      (hrecord : m.recordCall env now = none)
      (horder : m.orderCall env now s = some (.createOrder env.env a {}))
      (h : createOrder env.env a ⟨s.serv, {}⟩ = .error e c') :
      Runs env now s m { s with serv := c'.serv } thrown

variable {env : RestEnv} {now : Int} {s : Service} {m : RestMethod}

/-- A record call that returns has been made, and one that throws leaves the service alone. -/
theorem runs_record {call : ServiceCall} {result : Except ServiceExn (Mnem × Service)}
    {toJson : Service → Mnem → List Byte} (hrecord : m.recordCall env now = some call)
    (horder : m.orderCall env now s = none) (happly : call.apply s = s.afterRecord result) :
    Runs env now s m (env.writeRec s toJson result).1 (env.writeRec s toJson result).2.2 := by
  cases result with
  | ok r =>
      obtain ⟨mnem, s'⟩ := r
      have heq : s' = call.apply s := happly.symm
      subst heq
      exact .record hrecord horder
  | error e => exact .refused _ hrecord horder happly

theorem runs_postOrder (trader market ref : List Byte) (side : Side) (lots ticks minLots : Int) :
    Runs env now s (.postOrder trader market ref (some side) lots ticks minLots)
      (env.postOrder now s trader market ref side lots ticks minLots).1
      (env.postOrder now s trader market ref side lots ticks minLots).2.2 := by
  unfold RestEnv.postOrder
  cases htrader : s.trader trader with
  | error e => exact .idle _ rfl (by simp only [orderCall, htrader])
  | ok sess =>
      cases hmarket : s.market market with
      | error e => exact .idle _ rfl (by simp only [orderCall, htrader, hmarket])
      | ok book =>
          have horder : orderCall env now s
              (.postOrder trader market ref (some side) lots ticks minLots) =
              some (.createOrder env.env ⟨sess, book, ref, side, lots, ticks, minLots, now⟩
                {}) := by
            simp only [orderCall, htrader, hmarket]
          simp only [Service.createOrder]
          cases hcreate : Swirly.createOrder env.env
              ⟨sess, book, ref, side, lots, ticks, minLots, now⟩ ⟨s.serv, {}⟩ with
          | ok _ c => exact .ordered rfl horder hcreate
          | error e c => exact .failed _ rfl horder hcreate

/-- **What a method does to the service.** -/
theorem runs (env : RestEnv) (now : Int) (s : Service) (m : RestMethod) :
    Runs env now s m (m.run env now s).1 (m.run env now s).2.2 := by
  cases m with
  | postMarket mnem display contr settlDate expiryDate state => exact runs_record rfl rfl rfl
  | putMarket mnem display state => exact runs_record rfl rfl rfl
  | postTrader mnem display email => exact runs_record rfl rfl rfl
  | putTrader mnem display => exact runs_record rfl rfl rfl
  | postOrder trader market ref side lots ticks minLots =>
      cases side with
      | none => exact .idle _ rfl rfl
      | some side => exact runs_postOrder trader market ref side lots ticks minLots
  | _ => exact .idle _ rfl rfl

/-- The call that an order leads to is one that the service is asked in a sound run. -/
theorem meets_orderCall (hasks : m.Asks) (hmem : ∀ site, env.env.alloc site = true)
    {call : ServiceCall} (h : m.orderCall env now s = some call) : call.Meets Sound s := by
  unfold orderCall at h
  split at h
  · next trader market ref side lots ticks minLots =>
      split at h
      · next sess book htrader hmarket =>
          cases h
          have hlots : 0 < lots := hasks
          exact ⟨⟨(Service.trader_ok htrader).1, (Service.market_ok hmarket).1, hlots⟩,
            ⟨rfl, rfl, rfl, rfl⟩, NoAllocFailure.sound hmem⟩
      · cases h
  · cases h

/-- The call of the service that a method makes, if it makes one. -/
def serviceCall (env : RestEnv) (now : Int) (s : Service) (m : RestMethod) :
    Option ServiceCall :=
  (m.recordCall env now).or (m.orderCall env now s)

theorem meets_serviceCall (hasks : m.Asks) (hmem : ∀ site, env.env.alloc site = true)
    {call : ServiceCall} (h : m.serviceCall env now s = some call) : call.Meets Sound s := by
  unfold serviceCall at h
  rcases Option.or_eq_some_iff.mp h with hrecord | ⟨-, horder⟩
  · unfold recordCall at hrecord
    split at hrecord <;> cases hrecord <;> exact trivial
  · exact meets_orderCall hasks hmem horder

/-- **A method is a call of the service, or none.** -/
theorem run_state (env : RestEnv) (now : Int) (s : Service) (m : RestMethod) :
    (m.run env now s).1 = ((m.serviceCall env now s).map (·.apply s)).getD s := by
  have hruns := runs env now s m
  unfold serviceCall
  generalize (m.run env now s).1 = s', (m.run env now s).2.2 = thrown at hruns
  cases hruns with
  | idle thrown hrecord horder => simp only [hrecord, horder, Option.or_none, Option.map_none,
      Option.getD_none]
  | record hrecord horder => simp only [hrecord, Option.some_or, Option.map_some, Option.getD_some]
  | refused thrown hrecord horder h =>
      simp only [hrecord, Option.some_or, Option.map_some, Option.getD_some, h]
  | ordered hrecord horder h =>
      simp only [hrecord, horder, Option.none_or, Option.map_some, Option.getD_some,
        ServiceCall.apply, Service.createOrder_serv, final_ok h]
  | failed thrown hrecord horder h =>
      simp only [hrecord, horder, Option.none_or, Option.map_some, Option.getD_some,
        ServiceCall.apply, Service.createOrder_serv, final_error h]

/-- An order is not seen in the directory. -/
theorem orderCall_directory (d : Directory) {call : ServiceCall}
    (h : m.orderCall env now s = some call) : d.after call = d := by
  unfold orderCall at h
  split at h
  · split at h
    · cases h
      rfl
    · cases h
  · cases h

/-- What a method does is seen in the directory if it is about the records. -/
theorem run_directory (hl : s.registry.Linked) (env : RestEnv) (now : Int) (m : RestMethod) :
    (m.run env now s).1.registry.Linked ∧ (m.run env now s).1.directory =
      ((m.recordCall env now).map s.directory.after).getD s.directory := by
  rw [run_state]
  unfold serviceCall
  cases hrecord : m.recordCall env now with
  | some call => exact ⟨Service.linked_apply hl call, (Service.directory_apply hl call).2⟩
  | none =>
      cases horder : m.orderCall env now s with
      | none => exact ⟨hl, rfl⟩
      | some call =>
          refine ⟨Service.linked_apply hl call, ?_⟩
          exact ((Service.directory_apply hl call).2).trans (orderCall_directory _ horder)

end RestMethod

/-! ### What is read of the records -/

/-- The assets and contracts are those that were loaded. -/
theorem ServiceCall.apply_loaded (call : ServiceCall) (s : Service) :
    (call.apply s).assets = s.assets ∧ (call.apply s).contrs = s.contrs := by
  have hout := call.outcome s
  generalize call.refuses s = refused, call.apply s = s' at hout
  cases hout <;> exact ⟨rfl, rfl⟩

/-- The calls about the records that calls of `Rest` make, the first of which meets `env 0`. -/
def recordCalls (env : Nat → RestEnv) (calls : List Call) : List ServiceCall :=
  calls.zipIdx.filterMap (fun c => c.1.method.recordCall (env c.2) c.1.now)

theorem recordCalls_snoc (env : Nat → RestEnv) (calls : List Call) (c : Call) :
    recordCalls env (calls ++ [c]) =
      recordCalls env calls ++ (c.method.recordCall (env calls.length) c.now).toList := by
  unfold recordCalls
  rw [List.zipIdx_append, List.filterMap_append]
  cases h : c.method.recordCall (env calls.length) c.now <;> simp [h]

theorem afterCalls_directory {s : Service} (hl : s.registry.Linked) (env : Nat → RestEnv)
    (calls : List Call) :
    (s.afterCalls env calls).registry.Linked ∧ (s.afterCalls env calls).directory =
      (recordCalls env calls).foldl Directory.after s.directory := by
  induction calls using List.reverseRecOn with
  | nil => exact ⟨hl, rfl⟩
  | append_singleton calls c ih =>
      obtain ⟨hlinked, hdir⟩ := ih
      rw [Service.afterCalls_snoc, recordCalls_snoc, List.foldl_append, ← hdir]
      obtain ⟨hlinked', hdir'⟩ :=
        RestMethod.run_directory hlinked (env calls.length) c.now c.method
      refine ⟨hlinked', hdir'.trans ?_⟩
      cases c.method.recordCall (env calls.length) c.now <;> rfl

theorem afterCalls_loaded (env : Nat → RestEnv) (s : Service) (calls : List Call) :
    (s.afterCalls env calls).assets = s.assets ∧ (s.afterCalls env calls).contrs = s.contrs := by
  induction calls using List.reverseRecOn with
  | nil => exact ⟨rfl, rfl⟩
  | append_singleton calls c ih =>
      rw [Service.afterCalls_snoc, RestMethod.run_state]
      cases c.method.serviceCall (env calls.length) c.now (s.afterCalls env calls) with
      | none => exact ih
      | some call =>
          obtain ⟨hassets, hcontrs⟩ := call.apply_loaded (s.afterCalls env calls)
          exact ⟨hassets.trans ih.1, hcontrs.trans ih.2⟩

/-- The records `as`, in the order of their names, are those that `find` has. -/
structure Lists {α : Type} (name : α → List Byte) (find : List Byte → Option α)
    (as : List α) : Prop where
  sorted : as.Pairwise (fun a b => name a < name b)
  mem : ∀ n a, find n = some a ↔ a ∈ as ∧ name a = n

/-- The elements of a set, as they are shown. -/
theorem KeySet.lists {α : Type} {name : α → List Byte} (t : KeySet name) {f : α → α}
    (hf : ∀ a, name (f a) = name a) :
    Lists name (fun n => (t.find? n).map f) (t.elems.map f) where
  sorted := List.pairwise_map.mpr (t.sorted.imp (fun h => by rwa [hf, hf]))
  mem n a := by
    rw [Option.map_eq_some_iff, List.mem_map]
    constructor
    · rintro ⟨b, hfind, rfl⟩
      obtain ⟨hb, rfl⟩ := KeySet.mem_of_find? hfind
      exact ⟨⟨b, hb, rfl⟩, hf b⟩
    · rintro ⟨⟨b, hb, rfl⟩, rfl⟩
      exact ⟨b, by rw [hf, KeySet.find?_of_mem hb], rfl⟩

theorem MarketBook.toJson_record (b : MarketBook) : b.record.toJson = b.toJson := rfl

theorem TraderSess.toJson_record (t : TraderSess) : t.record.toJson = t.toJson := rfl

/-- Records are shown by what the directory has of them. -/
theorem writeAll_map {α : Type} {toJson : α → List Byte} {f : α → α}
    (hf : ∀ a, toJson (f a) = toJson a) (as : List α) :
    writeAll toJson (as.map f) = writeAll toJson as := by
  unfold writeAll
  rw [List.map_map]
  exact congrArg (fun g => bracket (joinTexts (as.map g))) (funext hf)

theorem writeFound_map {α : Type} {toJson : α → List Byte} {f : α → α}
    (hf : ∀ a, toJson (f a) = toJson a) (kind : String) (mnem : List Byte) (found : Option α) :
    writeFound kind mnem toJson (found.map f) = writeFound kind mnem toJson found := by
  cases found with
  | none => rfl
  | some a => exact congrArg (·, none) (hf a)

/-- **What is read of the records is what the directory has**, after any calls: each record under
its name, and all of them in the order of their names. -/
theorem rest_reads {assets : AssetSet} {contrs : ContrSet} {markets : List MarketBook}
    {traders : List TraderSess} (hm : (markets.map MarketBook.mnem).Nodup)
    (hu : (traders.map TraderSess.mnem).Nodup) (env : Nat → RestEnv) (calls : List Call)
    (now : Int) :
    let s : Service := .load assets contrs markets traders hm hu
    let d := (recordCalls env calls).foldl Directory.after s.directory
    ∃ bs ts, Lists (fun b => b.mnem.buf) d.market bs ∧ Lists (fun t => t.mnem.buf) d.trader ts ∧
      s.rest env calls ⟨.getMarkets, now⟩ = (writeAll MarketBook.toJson bs, none) ∧
      s.rest env calls ⟨.getTraders, now⟩ = (writeAll TraderSess.toJson ts, none) ∧
      (∀ es, s.rest env calls ⟨.getRec es, now⟩ =
        (recText es assets.elems contrs.elems bs ts, none)) ∧
      s.rest env calls ⟨.getAssets, now⟩ = (writeAll Asset.toJson assets.elems, none) ∧
      s.rest env calls ⟨.getContrs, now⟩ = (writeAll Contr.toJson contrs.elems, none) ∧
      ∀ mnem,
        s.rest env calls ⟨.getAsset mnem, now⟩ =
          writeFound "asset" mnem Asset.toJson (assets.find? mnem) ∧
        s.rest env calls ⟨.getContr mnem, now⟩ =
          writeFound "contr" mnem Contr.toJson (contrs.find? mnem) ∧
        s.rest env calls ⟨.getMarket mnem, now⟩ =
          writeFound "market" mnem MarketBook.toJson (d.market mnem) ∧
        s.rest env calls ⟨.getTrader mnem, now⟩ =
          writeFound "trader" mnem TraderSess.toJson (d.trader mnem) := by
  intro s d
  obtain ⟨-, hdir⟩ := afterCalls_directory (Service.load_linked assets contrs markets traders hm hu)
    env calls
  have hassets : (s.afterCalls env calls).assets = assets := (afterCalls_loaded env s calls).1
  have hcontrs : (s.afterCalls env calls).contrs = contrs := (afterCalls_loaded env s calls).2
  have hd : d = (s.afterCalls env calls).directory := hdir.symm
  generalize d = d at hd
  subst hd
  -- The lists are those of the service, which has more of each record than the directory.
  refine ⟨(s.afterCalls env calls).markets.elems.map MarketBook.record,
    (s.afterCalls env calls).traders.elems.map TraderSess.record,
    KeySet.lists _ (fun _ => rfl), KeySet.lists _ (fun _ => rfl), ?_, ?_, fun es => ?_, ?_, ?_,
    fun mnem => ⟨?_, ?_, ?_, ?_⟩⟩
  · rw [writeAll_map MarketBook.toJson_record]
    rfl
  · rw [writeAll_map TraderSess.toJson_record]
    rfl
  · unfold recText
    rw [writeAll_map MarketBook.toJson_record, writeAll_map TraderSess.toJson_record, ← hassets,
      ← hcontrs]
    rfl
  · rw [← hassets]
    rfl
  · rw [← hcontrs]
    rfl
  · rw [← hassets]
    rfl
  · rw [← hcontrs]
    rfl
  · exact (writeFound_map MarketBook.toJson_record _ _ _).symm
  · exact (writeFound_map TraderSess.toJson_record _ _ _).symm

namespace Mock

/-- Memory is not short, and the journal does not throw. -/
def restEnv : RestEnv := ⟨env, true, ⟨.other [], by decide⟩⟩

end Mock

/-- MARAYL is given a name to be shown as, and then is shown as it. -/
theorem put_reads :
    (Service.load .empty Mock.service.contrs []
      [newTrader Mock.marayl (.assign 64 []) (.assign 64 [64])] (by decide) (by decide)).rest
        (fun _ => Mock.restEnv) [⟨.putTrader Mock.marayl.buf [77], 0⟩]
        ⟨.getTrader Mock.marayl.buf, 0⟩ =
      ((newTrader Mock.marayl (.assign 64 [77]) (.assign 64 [64])).toJson, none) := by
  obtain ⟨-, -, -, -, -, -, -, -, -, hread⟩ := @rest_reads .empty
    Mock.service.contrs [] [newTrader Mock.marayl (.assign 64 []) (.assign 64 [64])]
    (by decide) (by decide) (fun _ => Mock.restEnv) [⟨.putTrader Mock.marayl.buf [77], 0⟩] 0
  exact (hread Mock.marayl.buf).2.2.2.trans rfl

/-! ### What calls leave -/

/-- **Calls of `Rest` are a run of the service**, if all are asked for what may be asked. -/
theorem afterCalls_run {env : Nat → RestEnv} (hmem : ∀ i site, (env i).env.alloc site = true)
    (s : Service) {calls : List Call} (hasks : ∀ c ∈ calls, c.method.Asks) :
    ∃ trace, ServiceRun Sound s trace (s.afterCalls env calls) := by
  induction calls using List.reverseRecOn with
  | nil => exact ⟨[], .nil⟩
  | append_singleton calls c ih =>
      obtain ⟨trace, hrun⟩ := ih (fun c hc => hasks c (List.mem_append_left _ hc))
      rw [Service.afterCalls_snoc, RestMethod.run_state]
      cases hcall : c.method.serviceCall (env calls.length) c.now (s.afterCalls env calls) with
      | none => exact ⟨trace, hrun⟩
      | some call =>
          refine ⟨_, hrun.snoc ⟨?_, rfl⟩⟩
          have hasked := hasks c (List.mem_append_right _ (List.mem_singleton_self c))
          exact RestMethod.meets_serviceCall hasked (hmem _) hcall

/-- The service `s'` has nothing that `s` does not show: no record, order, trade or execution is
new or lost, and no position is another one. -/
structure Unseen (s s' : Service) : Prop where
  assets : s'.assets = s.assets
  contrs : s'.contrs = s.contrs
  emailIdx : s'.emailIdx = s.emailIdx
  records : SameRecords s.serv s'.serv
  side : ∀ m sd, (s'.serv.markets.get m).side sd = (s.serv.markets.get m).side sd
  orders : ∀ u, (s'.serv.traders.get u).orders = (s.serv.traders.get u).orders
  order : ∀ p < s.serv.heap.next, s'.serv.heap p = s.serv.heap p
  trades : ∀ u, (s'.serv.traders.get u).trades = (s.serv.traders.get u).trades
  posnOf : ∀ u contr settlDay,
    (s'.serv.traders.get u).posnOf contr settlDay = (s.serv.traders.get u).posnOf contr settlDay
  journ : s'.serv.journ = s.serv.journ

theorem Unseen.refl (s : Service) : Unseen s s :=
  ⟨rfl, rfl, rfl, .refl _, fun _ _ => rfl, fun _ => rfl, fun _ _ => rfl, fun _ => rfl,
    fun _ _ _ => rfl, rfl⟩

theorem Ext.unseen {s : Service} {serv : Serv} {m : Mnem} (he : Ext m s.serv serv)
    (hr : SameRecords s.serv serv) : Unseen s { s with serv } where
  assets := rfl
  contrs := rfl
  emailIdx := rfl
  records := hr
  side := he.side
  orders u := (he.sess u).orders
  order := he.heap
  trades u := (he.sess u).trades
  posnOf u := (he.sess u).posnOf
  journ := he.journ

/-- **A method that throws leaves nothing to be seen.** -/
theorem RestMethod.throws_unseen {env : RestEnv} {now : Int} {s : Service} {m : RestMethod}
    (hi : ServInv s.serv) (hmem : ∀ site, env.env.alloc site = true) (hasks : m.Asks)
    (hthrown : (m.run env now s).2.2 ≠ none) : Unseen s (m.run env now s).1 := by
  have hruns := runs env now s m
  generalize (m.run env now s).1 = s', (m.run env now s).2.2 = thrown at hruns hthrown
  cases hruns with
  | idle thrown hrecord horder => exact Unseen.refl s
  | record hrecord horder => exact absurd rfl hthrown
  | refused thrown hrecord horder h => exact Unseen.refl s
  | ordered hrecord horder h => exact absurd rfl hthrown
  | @failed a e c' thrown hrecord horder h =>
      obtain ⟨hv, -, hsound⟩ := meets_orderCall hasks hmem horder
      have hrecords : SameRecords s.serv ((createOrder env.env a).final ⟨s.serv, {}⟩).serv :=
        (SameRecords.createOrder env.env a).final (SameRecords.refl s.serv)
      rw [final_error h] at hrecords
      rcases createOrder_cases env.env {} hi.books hv.book hv.lots.le with
        ⟨c'', s₁, hok, -⟩ | ⟨e', c'', herror, hf⟩
      · rw [h] at hok
        cases hok
      · rw [h] at herror
        cases herror
        rcases hf.cases hi.books hv.book hv.lots.le hi.matchVec hsound.1 with ⟨he, -⟩ | ⟨hlost, -⟩
        · exact he.unseen hrecords
        · exact absurd hlost hsound.2

end Swirly
