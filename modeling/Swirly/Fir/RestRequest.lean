import Swirly.Ash.Text
import Swirly.Elm.Types
import Mathlib.Data.Finset.Basic

/-!
# Swirly.Fir.RestRequest

**The request parser.** `RestRequest` reads one JSON object of known keys. The source
writes it as a grammar with actions, from which a machine of numbered states is generated;
`Cs` names the states by what has been read, and `trans` has for each state and byte the
actions of the transition and the state after it.

A value takes effect on the byte after it, in the transition that leaves it. Until then the
digits of a number are in `scratch`, and the bytes of a string are already in its field,
which `scratch` points to.

The string fields are of a kind, and so are the numbers: their actions are one definition
each, with the field as a parameter.
-/

namespace Swirly

/-! ### Fields -/

/-- A letter's lower case, for what is matched in either case. -/
def lower (b : Byte) : Byte := if 65 ≤ b ∧ b ≤ 90 then b + 32 else b

/-- The fields that hold strings. Their actions are of a kind; what differs is the key and the
length that a value may have. -/
inductive StrField
  | mnem
  | display
  | email
  | trader
  | contr
  | ref
  | cpty
  deriving DecidableEq, Repr

/-- The fields that hold numbers. All are read into 64 bits, and three of them are narrower. -/
inductive NumField
  | settlDate
  | expiryDate
  | state
  | ticks
  | lots
  | minLots
  deriving DecidableEq, Repr

/-- The fields of a request, each a bit of `fields_`. A request has any of them; which it must
have is for its handler to say. -/
inductive ReqField
  | str (f : StrField)
  | num (f : NumField)
  | side
  | role
  deriving DecidableEq, Repr

/-- `MnemMax`, `DisplayMax`, `EmailMax` and `RefMax`: a value that is longer ends the parse. -/
def StrField.max : StrField → Nat
  | mnem => 16
  | display => 64
  | email => 64
  | trader => 16
  | contr => 16
  | ref => 64
  | cpty => 16

/-- What a field of 32 bits, signed or not, keeps of a number of 64 bits. -/
def NumField.narrow (n : Int) : NumField → Int
  | settlDate => n.bmod (2 ^ 32)
  | expiryDate => n.bmod (2 ^ 32)
  | state => n % 2 ^ 32
  | ticks => n
  | lots => n
  | minLots => n

/-- The key of a field, in lower case. -/
def ReqField.key : ReqField → List Byte
  | str .mnem => chars ['m', 'n', 'e', 'm']
  | str .display => chars ['d', 'i', 's', 'p', 'l', 'a', 'y']
  | str .email => chars ['e', 'm', 'a', 'i', 'l']
  | str .trader => chars ['t', 'r', 'a', 'd', 'e', 'r']
  | str .contr => chars ['c', 'o', 'n', 't', 'r']
  | num .settlDate => chars ['s', 'e', 't', 't', 'l', 'd', 'a', 't', 'e']
  | num .expiryDate => chars ['e', 'x', 'p', 'i', 'r', 'y', 'd', 'a', 't', 'e']
  | str .ref => chars ['r', 'e', 'f']
  | num .state => chars ['s', 't', 'a', 't', 'e']
  | side => chars ['s', 'i', 'd', 'e']
  | num .lots => chars ['l', 'o', 't', 's']
  | num .ticks => chars ['t', 'i', 'c', 'k', 's']
  | num .minLots => chars ['m', 'i', 'n', 'l', 'o', 't', 's']
  | role => chars ['r', 'o', 'l', 'e']
  | str .cpty => chars ['c', 'p', 't', 'y']

/-- The fields, in the order of their bits. -/
def ReqField.all : List ReqField :=
  [str .mnem, str .display, str .email, str .trader, str .contr, num .settlDate, num .expiryDate,
    str .ref, num .state, side, num .lots, num .ticks, num .minLots, role, str .cpty]

/-- The words that stand for values of the two enumerations. They are strings in the text, in
letters of either case. -/
inductive Word
  | buy
  | sell
  | maker
  | taker
  deriving DecidableEq, Repr

/-- The field that takes the word: no word is a value of both. -/
def Word.field : Word → ReqField
  | buy => .side
  | sell => .side
  | maker => .role
  | taker => .role

/-- The word in lower case, as it is compared with what was read. -/
def Word.text : Word → List Byte
  | buy => chars ['b', 'u', 'y']
  | sell => chars ['s', 'e', 'l', 'l']
  | maker => chars ['m', 'a', 'k', 'e', 'r']
  | taker => chars ['t', 'a', 'k', 'e', 'r']

def Word.all : List Word := [buy, sell, maker, taker]

/-! ### The request -/

/-- The states of the machine, by what they mean: where in the object, and with what read of a
key, a word or `null`. The numbers of the generated machine are in `Generated`. -/
inductive Cs
  | error
  /-- Nothing but spaces. -/
  | start
  /-- In the object, where it may end at once. -/
  | first
  /-- In a key, after the letters `w`. -/
  | key (w : List Byte)
  /-- After the key of `f`. -/
  | colon (f : ReqField)
  /-- Where the value of `f` begins. -/
  | value (f : ReqField)
  /-- In `null`, with `rest` to come. -/
  | null (f : ReqField) (rest : List Byte)
  /-- In a string. -/
  | char (f : StrField)
  /-- In a string, after a backslash. -/
  | escape (f : StrField)
  /-- After a string. -/
  | strEnd (f : StrField)
  /-- `reqDigit`: after a sign. -/
  | reqDigit (f : NumField)
  /-- `optDigit`: after a digit. -/
  | optDigit (f : NumField)
  /-- In a word, after the letters `w`. -/
  | word (f : ReqField) (w : List Byte)
  /-- After a word. -/
  | wordEnd (x : Word)
  /-- After a value and a space. -/
  | sep
  /-- After a comma. -/
  | next
  /-- After the object. -/
  | done
  deriving DecidableEq, Repr

/-- The union of `num_` and `str_`. That the member that is read is the one that was written is no
matter of types in the source; here the other one reads as nothing. -/
inductive Scratch
  /-- Not written yet. -/
  | none
  /-- `num_`. -/
  | num (sign : Int) (digits : Nat)
  /-- `str_`, which points to the string of a field. -/
  | str (f : StrField)
  deriving DecidableEq, Repr

/-- The fields of a request and their values. -/
@[ext] structure ReqFields where
  fields : Finset ReqField
  strs : (f : StrField) → FixedString f.max
  nums : NumField → Int
  /-- Zero in the source when there is none. -/
  side : Option Side
  role : Role

/-- `RestRequest`. -/
structure RestRequest extends ReqFields where
  cs : Cs
  scratch : Scratch

namespace ReqFields

/-- What `reset` clears the fields to: no bit is set, and every value is as a constructor leaves
it. -/
def clear : ReqFields :=
  { fields := ∅, strs := fun f => .assign f.max [], nums := fun _ => 0, side := none,
    role := .none }

variable (d : ReqFields)

def mnem : List Byte := (d.strs .mnem).buf
def display : List Byte := (d.strs .display).buf
def email : List Byte := (d.strs .email).buf
def trader : List Byte := (d.strs .trader).buf
def contr : List Byte := (d.strs .contr).buf
def settlDate : Int := d.nums .settlDate
def expiryDate : Int := d.nums .expiryDate
def ref : List Byte := (d.strs .ref).buf
def state : Int := d.nums .state
def lots : Int := d.nums .lots
def ticks : Int := d.nums .ticks
def minLots : Int := d.nums .minLots
def cpty : List Byte := (d.strs .cpty).buf

/-- `valid`: the required fields are there, and no others but the optional ones. -/
def valid (required optional : Finset ReqField) : Bool :=
  required ⊆ d.fields ∧ d.fields ⊆ required ∪ optional

/-- A string field takes a value, or is cleared. -/
def setStr (f : StrField) (s : FixedString f.max) : ReqFields :=
  { d with strs := Function.update d.strs f s }

/-- `null<Field>`: the bit goes, and the value is what a cleared request has. -/
def null : ReqField → ReqFields
  | .str f => { d.setStr f (.assign f.max []) with fields := d.fields.erase (.str f) }
  | .num f => { d with fields := d.fields.erase (.num f), nums := Function.update d.nums f 0 }
  | .side => { d with fields := d.fields.erase .side, side := none }
  | .role => { d with fields := d.fields.erase .role, role := .none }

/-- `end<Field>` of a string field: the bit is set; the value has been written byte by byte
before. -/
def endStr (f : StrField) : ReqFields := { d with fields := insert (.str f) d.fields }

/-- `end<Field>` of a number: the bit is set, and the field keeps what it can of the 64 bits. -/
def endNum (f : NumField) (n : Int) : ReqFields :=
  { d with fields := insert (.num f) d.fields, nums := Function.update d.nums f (f.narrow n) }

/-- `buySide`, `sellSide`, `makerRole` and `takerRole`: the bit of the field is set, and the field
has the word's value. -/
def endWord : Word → ReqFields
  | .buy => { d with fields := insert .side d.fields, side := some .buy }
  | .sell => { d with fields := insert .side d.fields, side := some .sell }
  | .maker => { d with fields := insert .role d.fields, role := .maker }
  | .taker => { d with fields := insert .role d.fields, role := .taker }

end ReqFields

/-- A string grows by a byte, where there is room for it. The terminator that the source's buffer
has room for is left out. -/
def FixedString.push {maxN : Nat} (s : FixedString maxN) (b : Byte) (h : s.buf.length < maxN) :
    FixedString maxN :=
  ⟨s.buf ++ [b], by rw [List.length_append]; exact h⟩

/-! ### The machine -/

/-- The actions of the grammar, with the field as a parameter where the source has one for
each. -/
inductive Action
  | beginNum
  | negate
  | addDigit
  | beginStr
  | addChar
  /-- `null<Field>` -/
  | null (f : ReqField)
  /-- `begin<Field>` -/
  | beginField (f : StrField)
  /-- `end<Field>` of a string field -/
  | endStr (f : StrField)
  /-- `end<Field>` of a number -/
  | endNum (f : NumField)
  /-- `buySide`, `sellSide`, `makerRole` and `takerRole` -/
  | endWord (x : Word)
  deriving DecidableEq, Repr

namespace RestRequest

/-- `num_.sign`: 1, or -1 after a minus sign. -/
def sign (r : RestRequest) : Int :=
  match r.scratch with
  | .num sign _ => sign
  -- The other member of the union is never read.
  | _ => 0

/-- `num`, of a product of 64 bits. -/
def num (r : RestRequest) : Int :=
  match r.scratch with
  | .num sign digits => (sign * digits).bmod (2 ^ 64)
  | _ => 0

/-- What an action does on the byte `b`; one that ends the parse has a message. -/
def act (b : Byte) (r : RestRequest) : Action → RestRequest × Option String
  | .beginNum => ({ r with scratch := .num 1 0 }, none)
  | .negate =>
    match r.scratch with
    | .num _ digits => ({ r with scratch := .num (-1) digits }, none)
    | _ => (r, none)
  | .addDigit =>
    match r.scratch with
    | .num sign digits =>
      ({ r with scratch := .num sign ((digits * 10 + digit b) % 2 ^ 64) }, none)
    | _ => (r, none)
  | .beginField f => ({ r with scratch := .str f }, none)
  | .beginStr =>
    match r.scratch with
    | .str f => ({ r with toReqFields := r.setStr f (.assign f.max []) }, none)
    | _ => (r, none)
  | .addChar =>
    match r.scratch with
    | .str f =>
      if h : (r.strs f).buf.length < f.max then
        ({ r with toReqFields := r.setStr f ((r.strs f).push b h) }, none)
      else ({ r with cs := .error }, some "max length exceeded")
    | _ => (r, none)
  | .null f => ({ r with toReqFields := r.toReqFields.null f }, none)
  | .endStr f => ({ r with toReqFields := r.toReqFields.endStr f }, none)
  | .endNum f =>
    if f = .state ∧ r.sign < 0 then ({ r with cs := .error }, some "negative state field")
    else ({ r with toReqFields := r.toReqFields.endNum f r.num }, none)
  | .endWord x => ({ r with toReqFields := r.toReqFields.endWord x }, none)

/-- The actions of a transition, one after the other. -/
def acts (b : Byte) (r : RestRequest) : List Action → RestRequest × String
  | [] => (r, "parse error")
  | a :: as =>
    match r.act b a with
    | (r', none) => r'.acts b as
    | (r', some msg) => (r', msg)

theorem act_endNum {b : Byte} {r : RestRequest} {f : NumField}
    (h : ¬ (f = .state ∧ r.sign < 0)) :
    r.act b (.endNum f) = ({ r with toReqFields := r.toReqFields.endNum f r.num }, none) :=
  if_neg h

/-- A state with a minus sign ends the parse. -/
theorem act_endNum_negative {b : Byte} {r : RestRequest} {f : NumField}
    (h : f = .state ∧ r.sign < 0) :
    r.act b (.endNum f) = ({ r with cs := .error }, some "negative state field") :=
  if_pos h

end RestRequest

/-- No transition. -/
def noTrans : List Action × Cs := ([], .error)

/-- The byte after a value: a space, or what follows the value. -/
def leave (as : List Action) (b : Byte) : List Action × Cs :=
  if isSpace b then (as, .sep)
  else if b = Ascii.comma then (as, .next)
  else if b = Ascii.closeBrace then (as, .done)
  else noTrans

/-- The byte that begins a value. -/
def enter (b : Byte) : ReqField → List Action × Cs
  | .str f =>
    if b = Ascii.quote then ([.beginField f, .beginStr], .char f) else noTrans
  | .num f =>
    if b = Ascii.minus then ([.beginNum, .negate], .reqDigit f)
    else if b = Ascii.plus then ([.beginNum], .reqDigit f)
    else if isDigit b then ([.beginNum, .addDigit], .optDigit f)
    else noTrans
  | .side => if b = Ascii.quote then ([], .word .side []) else noTrans
  | .role => if b = Ascii.quote then ([], .word .role []) else noTrans

/-- The transition from a state on a byte: its actions, and the state after it. -/
def trans (b : Byte) : Cs → List Action × Cs
  | .error => noTrans
  | .start =>
    if isSpace b then ([], .start)
    else if b = Ascii.openBrace then ([], .first)
    else noTrans
  | .first =>
    if isSpace b then ([], .first)
    else if b = Ascii.quote then ([], .key [])
    else if b = Ascii.closeBrace then ([], .done)
    else noTrans
  | .key w =>
    if b = Ascii.quote then
      match ReqField.all.find? (fun f => f.key = w) with
      | some f => ([], .colon f)
      | none => noTrans
    else if ReqField.all.any (fun f => (w ++ [lower b]).isPrefixOf f.key) then
      ([], .key (w ++ [lower b]))
    else noTrans
  | .colon f =>
    if isSpace b then ([], .colon f)
    else if b = Ascii.colon then ([], .value f)
    else noTrans
  | .value f =>
    if isSpace b then ([], .value f)
    else if b = 110 then ([], .null f (chars ['u', 'l', 'l']))
    else enter b f
  | .null f (c :: rest) => if b = c then ([], .null f rest) else noTrans
  | .null f [] => leave [.null f] b
  | .char f =>
    if b = Ascii.quote then ([], .strEnd f)
    else if b = Ascii.backslash then ([], .escape f)
    else ([.addChar], .char f)
  | .escape f => ([.addChar], .char f)
  | .strEnd f => leave [.endStr f] b
  | .reqDigit f => if isDigit b then ([.addDigit], .optDigit f) else noTrans
  | .optDigit f => if isDigit b then ([.addDigit], .optDigit f) else leave [.endNum f] b
  | .word f w =>
    if b = Ascii.quote then
      match Word.all.find? (fun x => x.field = f ∧ x.text = w) with
      | some x => ([], .wordEnd x)
      | none => noTrans
    else if Word.all.any (fun x => x.field = f ∧ (w ++ [lower b]).isPrefixOf x.text) then
      ([], .word f (w ++ [lower b]))
    else noTrans
  | .wordEnd x => leave [.endWord x] b
  | .sep => leave [] b
  | .next =>
    if isSpace b then ([], .next)
    else if b = Ascii.quote then ([], .key [])
    else noTrans
  | .done => if isSpace b then ([], .done) else noTrans

namespace RestRequest

/-- One byte: the actions of its transition are run in the state that the transition leads to. -/
def step (r : RestRequest) (b : Byte) : RestRequest × String :=
  let (as, cs) := trans b r.cs
  { r with cs }.acts b as

/-- The loop of `parse`: it stops in the error state. -/
def exec (r : RestRequest) : List Byte → RestRequest × String
  | [] => (r, "parse error")
  | b :: buf =>
    if r.cs = .error then (r, "parse error")
    else
      let (r', msg) := r.step b
      if r'.cs = .error then (r', msg) else r'.exec buf

/-- `parse`: throws a `BadRequestException` with a message, or returns whether the object is
complete. -/
def parse (r : RestRequest) (buf : List Byte) : Except String Bool × RestRequest :=
  let (r', msg) := r.exec buf
  (if r'.cs = .error then .error msg else .ok (r'.cs = .done), r')

/-- `reset`: the machine goes back to its start, and the fields are cleared if that is asked for.
Scratch data stays. -/
def reset (clear : Bool) (r : RestRequest) : RestRequest :=
  if clear then { ReqFields.clear with cs := .start, scratch := r.scratch }
  else { r with cs := .start }

/-- The constructor: no field, and the machine at its start. Nothing has been written to the
scratch data. -/
def new : RestRequest := { ReqFields.clear with cs := .start, scratch := .none }

end RestRequest

end Swirly
