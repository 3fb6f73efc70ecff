import Swirly.Fir.Rest
import Swirly.Lib.Effect
import Swirly.Swirlyd.Stream

/-!
# Swirly.Swirlyd.RestServ

**The server in front of `Rest`.** A request is routed by the pieces of its URI. The handlers
take one piece after the other from the tokeniser; the one that finds it empty has matched
the URI, and acts if it knows the method. Whether both have matched is looked at only when
they have returned.

The handlers are of two kinds. An `endpoint` is where a URI may end; `node` is one where it
may also go on. `calls` has every call of `Rest` since the server was made.
-/

namespace Swirly

open Lib (Effect)

/-- `HttpMessage`: a request as it was parsed from the connection. A header that is missing is
empty. -/
structure HttpMessage where
  method : List Byte
  uri : List Byte
  body : List Byte
  header : List Byte → List Byte

/-- `RestServ`, with what it keeps between requests: the buffers are reused, and every request
begins by resetting them. The calls it has made are remembered for `Rest`, which is a
parameter. -/
structure RestServ where
  httpUser : List Byte
  /-- The bits of `MethodMask` in `state_`. -/
  method : Option HttpMethod
  /-- `MatchMethod`. -/
  matchMethod : Bool
  /-- `MatchUri`. -/
  matchUri : Bool
  uri : Tokeniser Ascii.slash
  ids : List Int
  request : RestRequest
  out : OStream
  /-- The calls so far; the source does not keep them. -/
  calls : List Call

/-- What a handler does: it goes on through the pieces of the URI, calls `Rest`, or throws what
`httpRequest` catches. -/
abbrev Handler := Effect Caught RestServ

/-- The method of a request, if it is one that is known. -/
def HttpMethod.parse (method : List Byte) : Option HttpMethod :=
  if method = bytes "GET" then some .get
  else if method = bytes "POST" then some .post
  else if method = bytes "PUT" then some .put
  else if method = bytes "DELETE" then some .delete
  else none

/-- `getSwirlyTime`: the time in the request's header, or the time of day if there is none. What
the header has is read as a number of 64 bits, whatever it is. -/
def getSwirlyTime (getTimeOfDay : Int) (data : HttpMessage) : Int :=
  let header := data.header (bytes "Swirly-Time")
  if header.isEmpty then getTimeOfDay else (stou64 header : Int).bmod (2 ^ 64)

namespace RestServ

/-- `reset`: nothing of the last request is left but the buffers' size. A method that is not known
is none, and matches nowhere. -/
def reset (data : HttpMessage) (s : RestServ) : RestServ :=
  -- A leading slash is removed.
  let uri := match data.uri with
    | b :: uri => if b = Ascii.slash then uri else data.uri
    | [] => []
  { s with
    method := HttpMethod.parse data.method
    matchMethod := false
    matchUri := false
    uri := ⟨uri⟩
    request := s.request.reset true }

/-- A call of `Rest`: what it writes follows what was written, and what it throws goes on. `Rest`
may have been asked anything before, so it is given all calls. -/
def call (rest : Rest) (now : Int) (method : RestMethod) : Handler Unit := fun s =>
  let c := ⟨method, now⟩
  let (written, thrown) := rest s.calls c
  let s := { s with calls := s.calls ++ [c], out := s.out.write written }
  match thrown with
  | none => .ok () s
  | some e => .error e.val s

/-- Where a URI may end: the action for the method, if there is one. -/
def endpoint (actions : HttpMethod → Option (Handler Unit)) : Handler Unit := do
  modify (fun s => { s with matchUri := true })
  match (← get).method.bind actions with
  | some action => do
    modify (fun s => { s with matchMethod := true })
    action
  | none => pure ()

/-- Where a URI has to end. If it goes on, nothing is matched, and the request is refused as not
found. -/
def leaf (actions : HttpMethod → Option (Handler Unit)) : Handler Unit := do
  if (← get).uri.empty then endpoint actions else pure ()

/-- Where a URI may end or go on with a piece. -/
def node (actions : HttpMethod → Option (Handler Unit)) (sub : List Byte → Handler Unit) :
    Handler Unit := do
  let s ← get
  if s.uri.empty then endpoint actions
  else do
    modify (fun s => { s with uri := s.uri.pop })
    sub s.uri.top

/-- The action of an endpoint that knows no method but GET. -/
def onGet (action : Handler Unit) : HttpMethod → Option (Handler Unit)
  | .get => some action
  | _ => none

/-- `request_.valid(required, optional)`, or an exception: a field that is neither required nor
optional is refused as well. -/
def checkFields (required optional : Finset ReqField) : Handler Unit := do
  if (← get).request.valid required optional then pure ()
  else throw (.serv .badRequest (bytes "request fields are invalid"))

/-- `request_.valid(required)`, or an exception: with required fields alone, any others are let
through. -/
def checkRequired (required : Finset ReqField) : Handler Unit := do
  if required ⊆ (← get).request.fields then pure ()
  else throw (.serv .badRequest (bytes "request fields are invalid"))

/-- `parseIds`: the ids between commas. What is no number is read as far as it is one, and an
empty piece gives no id at all. -/
def parseIds (sv : List Byte) : Handler Unit :=
  modify (fun s => { s with
    ids := (Tokeniser.mk sv : Tokeniser Ascii.comma).tokens.map
      (fun tok => (stou64 tok : Int).bmod (2 ^ 64)) })

section Handlers

variable (rest : Rest) (data : HttpMessage) (now : Int)

/-- `assetRequest`: assets are read only, all of them or one by its mnemonic. A URI that goes on
is not found. -/
def assetRequest : Handler Unit :=
  -- /api/rec/asset
  node (onGet (call rest now .getAssets)) fun mnem =>
    -- /api/rec/asset/MNEM
    leaf (onGet (call rest now (.getAsset mnem)))

/-- `contrRequest`: contracts are read only, all of them or one by its mnemonic. A URI that goes
on is not found. -/
def contrRequest : Handler Unit :=
  -- /api/rec/contr
  node (onGet (call rest now .getContrs)) fun mnem =>
    -- /api/rec/contr/MNEM
    leaf (onGet (call rest now (.getContr mnem)))

/-- `POST /api/rec/market`: the name, the display and the contract must be there; dates and state
that are not there are zero. -/
def postMarket : Handler Unit := do
  checkFields {.str .mnem, .str .display, .str .contr}
    {.num .settlDate, .num .expiryDate, .num .state}
  let d := (← get).request
  call rest now (.postMarket d.mnem d.display d.contr d.settlDate d.expiryDate d.state)

/-- `PUT /api/rec/market/MNEM`: none of the fields must be there, and what is not there stays as
it is. The mnemonic is that of the URI. -/
def putMarket (mnem : List Byte) : Handler Unit := do
  checkFields ∅ {.str .display, .num .state}
  let d := (← get).request
  let display := if .str .display ∈ d.fields then some d.display else none
  let state := if .num .state ∈ d.fields then some d.state else none
  call rest now (.putMarket mnem display state)

/-- `marketRequest`: markets are read, made and changed, each where the URI of it ends. -/
def marketRequest : Handler Unit :=
  -- /api/rec/market
  node (fun
    | .get => some (call rest now .getMarkets)
    | .post => some (postMarket rest now)
    | _ => none) fun mnem =>
    -- /api/rec/market/MNEM
    leaf (fun
      | .get => some (call rest now (.getMarket mnem))
      | .put => some (putMarket rest now mnem)
      | _ => none)

/-- `POST /api/rec/trader`: the name and the display must be there; an email that is not there is
empty. -/
def postTrader : Handler Unit := do
  checkFields {.str .mnem, .str .display} {.str .email}
  let d := (← get).request
  call rest now (.postTrader d.mnem d.display d.email)

/-- `PUT /api/rec/trader/MNEM`: the display must be there, and other fields are not looked at. The
mnemonic is that of the URI. -/
def putTrader (mnem : List Byte) : Handler Unit := do
  checkRequired {.str .display}
  call rest now (.putTrader mnem (← get).request.display)

/-- `traderRequest`: traders are read, made and changed, each where the URI of it ends. -/
def traderRequest : Handler Unit :=
  -- /api/rec/trader
  node (fun
    | .get => some (call rest now .getTraders)
    | .post => some (postTrader rest now)
    | _ => none) fun mnem =>
    -- /api/rec/trader/MNEM
    leaf (fun
      | .get => some (call rest now (.getTrader mnem))
      | .put => some (putTrader rest now mnem)
      | _ => none)

/-- The entities of a piece, or an exception. -/
def parseEntities (tok : List Byte) : Handler EntitySet :=
  match EntitySet.parse tok with
  | .ok es => pure es
  | .error e => throw e

/-- `recRequest`: the records. Several entities at once can only be read; a piece that names no
entity throws. -/
def recRequest : Handler Unit :=
  -- /api/rec
  node (onGet (call rest now (.getRec {.asset, .contr, .market}))) fun tok => do
    let es ← parseEntities tok
    if es.many then
      -- /api/rec/entity,entity...
      leaf (onGet (call rest now (.getRec es)))
    else if es = {.asset} then assetRequest rest now
    else if es = {.contr} then contrRequest rest now
    else if es = {.market} then marketRequest rest now
    else if es = {.trader} then traderRequest rest now
    else pure ()

/-- `POST /api/sess/order/MARKET`: the trader comes in a header and must be there, the order in
the body. Lots, ticks and minimum are passed on as they are, a missing minimum as zero. -/
def postOrder (market : List Byte) : Handler Unit := do
  let trader := data.header (← get).httpUser
  if trader.isEmpty then throw (.serv .unauthorized (bytes "authorisation required")) else pure ()
  checkFields {.side, .num .lots, .num .ticks} {.str .ref, .num .minLots}
  let d := (← get).request
  call rest now (.postOrder trader market d.ref d.side d.lots d.ticks d.minLots)

/-- `orderRequest`: orders are read, made, revised and cancelled. A read of one order takes the
first id of the piece, and there may be none. -/
def orderRequest : Handler Unit :=
  -- /api/sess/order
  node (onGet (call rest now .getOrders)) fun market =>
    -- /api/sess/order/MARKET
    node (fun
      | .get => some (call rest now (.getOrdersOf market))
      | .post => some (postOrder rest data now market)
      | _ => none) fun tok => do
      parseIds tok
      -- /api/sess/order/MARKET/ID,ID...
      leaf (fun
        | .get => some (do call rest now (.getOrder market (← get).ids.head?))
        | .put => some (do call rest now (.putOrder market (← get).ids))
        | .delete => some (do call rest now (.deleteOrder market (← get).ids))
        | .post => none)

/-- `tradeRequest`: trades are read, made by hand, and archived. A read of one trade takes the
first id of the piece, and there may be none. -/
def tradeRequest : Handler Unit :=
  -- /api/sess/trade
  node (onGet (call rest now .getTrades)) fun market =>
    -- /api/sess/trade/MARKET
    node (fun
      | .get => some (call rest now (.getTradesOf market))
      | .post => some (call rest now (.postTrade market))
      | _ => none) fun tok => do
      parseIds tok
      -- /api/sess/trade/MARKET/ID,ID...
      leaf (fun
        | .get => some (do call rest now (.getTrade market (← get).ids.head?))
        | .delete => some (do call rest now (.deleteTrade market (← get).ids))
        | _ => none)

/-- `posnRequest`: positions are read only, by contract and settlement date. A piece that is no
date is read as the number it begins with. -/
def posnRequest : Handler Unit :=
  -- /api/sess/posn
  node (onGet (call rest now .getPosns)) fun contr =>
    -- /api/sess/posn/CONTR
    node (onGet (call rest now (.getPosnsOf contr))) fun tok =>
      let settlDate := (stou64 tok : Int).bmod (2 ^ 32)
      -- /api/sess/posn/CONTR/SETTL_DATE
      leaf (onGet (call rest now (.getPosn contr settlDate)))

/-- `viewRequest`: the views of the markets are read only, all of them or one by its market. -/
def viewRequest : Handler Unit :=
  -- /api/view
  node (onGet (call rest now .getViews)) fun market =>
    -- /api/view/MARKET
    leaf (onGet (call rest now (.getView market)))

/-- `sessRequest`: what belongs to a trader. Only the POST of an order looks at who that is. -/
def sessRequest : Handler Unit :=
  -- /api/sess
  node (onGet (call rest now (.getSess {.order, .trade, .posn, .view}))) fun tok => do
    let es ← parseEntities tok
    if es.many then
      -- /api/sess/entity,entity...
      leaf (onGet (call rest now (.getSess es)))
    else if es = {.order} then orderRequest rest data now
    else if es = {.trade} then tradeRequest rest now
    else if es = {.posn} then posnRequest rest now
    else if es = {.view} then viewRequest rest now
    else pure ()

/-- `restRequest`: the first piece after `api` says which part is asked for. Any other piece is
not found. -/
def restRequest : Handler Unit := do
  let s ← get
  -- /api
  if s.uri.empty then pure ()
  else do
    modify (fun s => { s with uri := s.uri.pop })
    let tok := s.uri.top
    if tok = bytes "rec" then recRequest rest now
    else if tok = bytes "sess" then sessRequest rest data now
    else if tok = bytes "view" then viewRequest rest now
    else pure ()

/-- `request_.parse`, on a body that is not empty. -/
def parseBody : Handler Unit := do
  if data.body.isEmpty then pure ()
  else do
    let (result, request) := (← get).request.parse data.body
    modify (fun s => { s with request })
    match result with
    | .ok true => pure ()
    | .ok false => throw (.serv .badRequest (bytes "request body is incomplete"))
    | .error msg => throw (.serv .badRequest (bytes msg))

/-- What `httpRequest` tries: the body, the URI, and then whether anything matched, first the URI
and then the method. Whatever is thrown on the way becomes the response. -/
def handle : Handler Unit := do
  parseBody data
  restRequest rest data now
  if (← get).matchUri then pure ()
  else throw (.serv .notFound (bytes "resource '" ++ data.uri ++ bytes "' does not exist"))
  if (← get).matchMethod then pure ()
  else throw (.serv .methodNotAllowed
    (bytes "method '" ++ data.method ++ bytes "' is not allowed"))

end Handlers

/-- The response is begun again, with what was thrown. -/
def report (e : Caught) (s : RestServ) : RestServ :=
  { s with out := (s.out.reset e.status e.reason).write e.toJson }

/-- Is the request one for the API? -/
def isApi (s : RestServ) : Bool := !s.uri.empty && s.uri.top = bytes "api"

/-- The response is begun in the send buffer of the connection. -/
def attach (sendMbuf : List Byte) (s : RestServ) : RestServ :=
  { s with
    uri := s.uri.pop
    out := { s.out with buf := sendMbuf }.reset 200 (bytes "OK") }

/-- `httpRequest`: the server and the send buffer after it. Any other request than one for the
API is left to `mg_serve_http`. -/
def httpRequest (rest : Rest) (mgServeHttp : HttpMessage → List Byte → List Byte)
    (getTimeOfDay : Int) (data : HttpMessage) (sendMbuf : List Byte) (s : RestServ) :
    RestServ × List Byte :=
  let s := s.reset data
  if s.isApi then
    let now := getSwirlyTime getTimeOfDay data
    let s := match handle rest data now (s.attach sendMbuf) with
      | .ok _ s => s
      | .error e s => s.report e
    let s := { s with out := s.out.setContentLength }
    (s, s.out.buf)
  else (s, mgServeHttp data sendMbuf)

end RestServ

end Swirly
