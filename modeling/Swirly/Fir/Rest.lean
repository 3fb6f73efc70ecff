import Swirly.Fir.RestRequest
import Mathlib.Data.Finset.Card

/-!
# Swirly.Fir.Rest

**The methods of `Rest`, seen from the server in front of it.** `RestMethod` has a method
with its arguments; `Rest` says what a method writes and throws, which may depend on all the
calls before it. What the methods do to the engine is not told here.

The exceptions carry the status of the response that reports them.
-/

namespace Swirly

/-! ### Exceptions -/

/-- The classes right below `ServException`; those below them differ in nothing that is
reported. -/
inductive HttpError
  | badRequest
  | unauthorized
  | forbidden
  | notFound
  | methodNotAllowed
  | internal
  | serviceUnavailable
  deriving DecidableEq, Repr

namespace HttpError

/-- `httpStatus`: the status of each class. Those below a class in the hierarchy inherit it. -/
def httpStatus : HttpError → Nat
  | badRequest => 400
  | unauthorized => 401
  | forbidden => 403
  | notFound => 404
  | methodNotAllowed => 405
  | internal => 500
  | serviceUnavailable => 503

/-- `httpReason`: the reason phrase of each class, as it stands in the first line of the
response. -/
def httpReason : HttpError → List Byte
  | badRequest => bytes "Bad Request"
  | unauthorized => bytes "Unauthorized"
  | forbidden => bytes "Forbidden"
  | notFound => bytes "Not Found"
  | methodNotAllowed => bytes "Method Not Allowed"
  | internal => bytes "Internal Server Error"
  | serviceUnavailable => bytes "Service Unavailable"

end HttpError

/-- `what` of an exception that is made with a text: a string of C, of at most `ErrMsgMax`
bytes. The text, where it is put together in `errMsg`, is cut there to as many. -/
def exceptionWhat (what : List Byte) : List Byte := (what.take 127).takeWhile (· ≠ 0)

/-- What `httpRequest` catches: an exception of the service, with its class and message, or any
other one, of which it has the message alone. -/
inductive Caught
  /-- A `ServException`, and the text that it is made with. -/
  | serv (error : HttpError) (what : List Byte)
  /-- Any other `std::exception`. -/
  | other (what : List Byte)
  deriving DecidableEq

namespace Caught

/-- The status of the response. -/
def status : Caught → Nat
  | serv error _ => error.httpStatus
  | other _ => 500

/-- The reason of the response, in its first line and again in the body. -/
def reason : Caught → List Byte
  | serv error _ => error.httpReason
  | other _ => bytes "Internal Server Error"

/-- What the exception is about: its message, in the body of the response. -/
def detail : Caught → List Byte
  | serv _ what => exceptionWhat what
  | other what => what

/-- `ServException::toJson`: status, reason and message. A quote in the message is not escaped. -/
def toJson (e : Caught) : List Byte :=
  bytes "\x7b\"status\":" ++ natText e.status
    ++ bytes ",\"reason\":\"" ++ e.reason
    ++ bytes "\",\"detail\":\"" ++ e.detail
    ++ bytes "\"\x7d"

end Caught

/-! ### Entities -/

/-- The members of an `EntitySet`: the kinds of records, and what a session has. -/
inductive Entity
  | asset
  | contr
  | market
  | trader
  | order
  | trade
  | posn
  | view
  deriving DecidableEq, Repr

/-- `EntitySet`: a bit for each member. A set of bits is a finite set of members here. -/
abbrev EntitySet := Finset Entity

namespace EntitySet

/-- `bit`: the member with a name, in letters of this case only. Any other name is refused as not
found. -/
def bit (sv : List Byte) : Except Caught Entity :=
  if sv = bytes "asset" then .ok .asset
  else if sv = bytes "contr" then .ok .contr
  else if sv = bytes "market" then .ok .market
  else if sv = bytes "trader" then .ok .trader
  else if sv = bytes "order" then .ok .order
  else if sv = bytes "trade" then .ok .trade
  else if sv = bytes "posn" then .ok .posn
  else if sv = bytes "view" then .ok .view
  else .error (.serv .notFound (bytes "unknown entity '" ++ sv ++ bytes "'"))

/-- `parse`: the names between commas. The first name that is unknown ends it, and an empty text
names nothing. -/
def parse (sv : List Byte) : Except Caught EntitySet :=
  (Tokeniser.mk sv : Tokeniser Ascii.comma).tokens.foldlM
    (fun bs tok => (bit tok).map (fun e => insert e bs)) ∅

/-- `many`: more than one bit, so that no single kind of record can be gone into. -/
def many (es : EntitySet) : Bool := 1 < es.card

/-- A name that is not one of an entity is not found. -/
theorem bit_error {sv : List Byte} {e : Caught} (h : bit sv = .error e) : e.status = 404 := by
  unfold bit at h
  split_ifs at h
  cases h
  rfl

theorem parse_error {sv : List Byte} {e : Caught} (h : parse sv = .error e) : e.status = 404 := by
  unfold parse at h
  generalize (Tokeniser.mk sv : Tokeniser Ascii.comma).tokens = toks at h
  generalize (∅ : EntitySet) = bs at h
  induction toks generalizing bs with
  | nil => cases h
  | cons tok toks ih =>
      rw [List.foldlM_cons] at h
      cases hbit : bit tok with
      | error e' =>
          rw [hbit] at h
          cases h
          exact bit_error hbit
      | ok a =>
          rw [hbit] at h
          exact ih _ h

end EntitySet

/-! ### Calls -/

/-- `MethodGet`, `MethodPost`, `MethodPut` and `MethodDelete`. -/
inductive HttpMethod
  | get
  | post
  | put
  | delete
  deriving DecidableEq, Repr

/-- The methods of `Rest` with what they are called with, but for the time. A read of `ids_[0]`
gives none where there is no element. -/
inductive RestMethod
  | getRec (es : EntitySet)
  | getAssets
  | getAsset (mnem : List Byte)
  | getContrs
  | getContr (mnem : List Byte)
  | getMarkets
  | getMarket (mnem : List Byte)
  | getTraders
  | getTrader (mnem : List Byte)
  | getSess (es : EntitySet)
  | getOrders
  | getOrdersOf (market : List Byte)
  | getOrder (market : List Byte) (id : Option Int)
  | getTrades
  | getTradesOf (market : List Byte)
  | getTrade (market : List Byte) (id : Option Int)
  | getPosns
  | getPosnsOf (contr : List Byte)
  | getPosn (contr : List Byte) (settlDate : Int)
  | getViews
  | getView (market : List Byte)
  | postMarket (mnem display contr : List Byte) (settlDate expiryDate state : Int)
  | putMarket (mnem : List Byte) (display : Option (List Byte)) (state : Option Int)
  | postTrader (mnem display email : List Byte)
  | putTrader (mnem display : List Byte)
  | postOrder (trader market ref : List Byte) (side : Option Side) (lots ticks minLots : Int)
  | putOrder (market : List Byte) (ids : List Int)
  | deleteOrder (market : List Byte) (ids : List Int)
  | postTrade (market : List Byte)
  | deleteTrade (market : List Byte) (ids : List Int)
  deriving DecidableEq

/-- A call of `Rest`: the method with its arguments, and the time that the request was given. -/
structure Call where
  method : RestMethod
  now : Int
  deriving DecidableEq

/-- What a method of `Rest` throws: `MethodNotAllowedException` is thrown by the server alone. -/
abbrev RestExn := { e : Caught // e.status ≠ 405 }

/-- What a call writes, and what it throws if it does, after the calls before it. -/
abbrev Rest := List Call → Call → List Byte × Option RestExn

end Swirly
