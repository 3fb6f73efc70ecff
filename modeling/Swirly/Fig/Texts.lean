import Swirly.Lib.Json
import Swirly.Elm.Rec
import Swirly.Fig.RoundTrip

/-!
# Swirly.Fig.Texts

**What is written of the records, orders, executions and positions.** `toJson` writes each of
them piece by piece; every text is that of a JSON value (`Order.toJson_eq` and its like), so
that a reader of JSON gets the value back, as long as no string in it needs an escape: strings
are written as they are.
-/

namespace Swirly

open Lib (Heap KeySet)

/-! ### Numbers -/

/-- The number that a text begins with. -/
def readNat (s : List Byte) : Option (Nat × List Byte) :=
  let ds := s.takeWhile isDigit
  if ds = [] then none else some (decimal ds, s.dropWhile isDigit)

/-- The number, with its sign, that a text begins with. -/
def readInt (s : List Byte) : Option (Int × List Byte) :=
  if s.head? = some Ascii.minus then (readNat s.tail).map (fun r => (-(r.1 : Int), r.2))
  else (readNat s).map (fun r => ((r.1 : Int), r.2))

/-- A byte of a number. -/
def isNumber (b : Byte) : Bool := isDigit b || b = Ascii.minus

theorem isNumber_of_isDigit {b : Byte} (h : isDigit b = true) : isNumber b = true := by
  unfold isNumber
  rw [h]
  rfl

theorem isDigit_of_not_isNumber {b : Byte} (h : isNumber b = false) : isDigit b = false := by
  unfold isNumber at h
  exact (Bool.or_eq_false_iff.mp h).1

theorem readNat_natText (n : Nat) {rest : List Byte} (h : ∀ b ∈ rest.head?, isNumber b = false) :
    readNat (natText n ++ rest) = some (n, rest) := by
  have htake : rest.takeWhile isDigit = [] := by
    cases rest with
    | nil => rfl
    | cons b rest => simp [isDigit_of_not_isNumber (h b rfl)]
  have hdrop : rest.dropWhile isDigit = rest := by
    cases rest with
    | nil => rfl
    | cons b rest => simp [isDigit_of_not_isNumber (h b rfl)]
  have hdigits := natText_isDigit n
  have hne := natText_ne_nil n
  unfold readNat
  rw [List.takeWhile_append_of_pos hdigits, List.dropWhile_append_of_pos hdigits, htake, hdrop,
    List.append_nil]
  dsimp only
  rw [if_neg hne, decimal_natText]

theorem natText_head (n : Nat) (rest : List Byte) :
    (natText n ++ rest).head? ≠ some Ascii.minus := by
  have hdigits := natText_isDigit n
  cases hs : natText n with
  | nil => exact absurd hs (natText_ne_nil n)
  | cons b s =>
      rw [hs] at hdigits
      rw [List.cons_append, List.head?_cons, Ne, Option.some_inj]
      rintro rfl
      exact absurd (hdigits _ List.mem_cons_self) (by decide)

theorem readInt_intText (n : Int) {rest : List Byte} (h : ∀ b ∈ rest.head?, isNumber b = false) :
    readInt (intText n ++ rest) = some (n, rest) := by
  unfold intText readInt
  split
  · next hneg =>
      rw [List.cons_append, List.head?_cons, if_pos rfl, List.tail_cons, readNat_natText _ h,
        Option.map_some]
      refine congrArg some (Prod.ext ?_ rfl)
      show -(n.natAbs : Int) = n
      omega
  · next hpos =>
      rw [if_neg (natText_head _ _), readNat_natText _ h, Option.map_some]
      refine congrArg some (Prod.ext ?_ rfl)
      show (n.toNat : Int) = n
      omega

/-- How an output stream writes integers, and how they are read. -/
def intFormat : Lib.NumFormat where
  write := intText
  read := readInt
  isNum := isNumber
  write_ne_nil n := by
    unfold intText
    split
    · exact List.cons_ne_nil _ _
    · exact natText_ne_nil _
  write_isNum n b hb := by
    unfold intText at hb
    split at hb
    · rcases List.mem_cons.mp hb with rfl | hb
      · rfl
      · exact isNumber_of_isDigit (natText_isDigit _ b hb)
    · exact isNumber_of_isDigit (natText_isDigit _ b hb)
  structural_isNum := by decide +kernel
  read_write n rest h := readInt_intText n h

/-! ### Enumerations -/

/-- `enumString` of the kinds of assets, in capital letters, as a record shows them. -/
def AssetType.enumString : AssetType → List Byte
  | commodity => bytes "COMMODITY"
  | corporate => bytes "CORPORATE"
  | currency => bytes "CURRENCY"
  | equity => bytes "EQUITY"
  | government => bytes "GOVERNMENT"
  | index => bytes "INDEX"

/-- `enumString` of the sides. The parser takes these words in letters of either case. -/
def Side.enumString : Side → List Byte
  | buy => bytes "BUY"
  | sell => bytes "SELL"

/-- `enumString` of the last transition of an order. There is a name for none, which no order
has. -/
def State.enumString : State → List Byte
  | none => bytes "NONE"
  | new => bytes "NEW"
  | revise => bytes "REVISE"
  | cancel => bytes "CANCEL"
  | trade => bytes "TRADE"

/-- `enumString` of the roles. An execution without one is shown with `null` instead. -/
def Role.enumString : Role → List Byte
  | none => bytes "NONE"
  | maker => bytes "MAKER"
  | taker => bytes "TAKER"

/-! ### Texts -/

/-- What stands before the value of a member that is not the first one. -/
def member (key : String) : List Byte := bytes ",\"" ++ bytes key ++ bytes "\":"

/-- What stands before the value of the first member. -/
def firstMember (key : String) : List Byte := bytes "\x7b\"" ++ bytes key ++ bytes "\":"

/-- A string between quotes, byte by byte: what is in it is not escaped, and a quote in it ends
the string for a reader. -/
def quote (s : List Byte) : List Byte := Ascii.quote :: s ++ [Ascii.quote]

/-- A number, or `null` for none. -/
def numText (n : Int) : List Byte := if n ≠ 0 then intText n else bytes "null"

/-- A string, or `null` for none. -/
def strText (s : List Byte) : List Byte := if s.isEmpty then bytes "null" else quote s

/-- `Asset::toJson`: the record as the getters show it. The strings are written as they are,
whatever is in them. -/
def Asset.toJson (a : Asset) : List Byte :=
  firstMember "mnem" ++ quote a.mnem.buf
    ++ member "display" ++ quote a.display.buf
    ++ member "type" ++ quote a.type.enumString
    ++ bytes "\x7d"

/-- `Contr::toJson`: the record as the getters show it, with the fractions as they were given.
What is worked out of these is not shown. -/
def Contr.toJson (c : Contr) : List Byte :=
  firstMember "mnem" ++ quote c.mnem.buf
    ++ member "display" ++ quote c.display.buf
    ++ member "asset" ++ quote c.asset.buf
    ++ member "ccy" ++ quote c.ccy.buf
    ++ member "lotNumer" ++ intText c.lotNumer
    ++ member "lotDenom" ++ intText c.lotDenom
    ++ member "tickNumer" ++ intText c.tickNumer
    ++ member "tickDenom" ++ intText c.tickDenom
    ++ member "pipDp" ++ intText c.pipDp
    ++ member "minLots" ++ intText c.minLots
    ++ member "maxLots" ++ intText c.maxLots
    ++ bytes "\x7d"

/-- `Order::toJson`: the state of the order when it is written. What has no value is `null`: the
reference, the last trade, a minimum of zero. -/
def Order.toJson (o : Order) : List Byte :=
  firstMember "trader" ++ quote o.trader.buf
    ++ member "market" ++ quote o.market.buf
    ++ member "contr" ++ quote o.contr.buf
    ++ member "settlDate" ++ dateText o.settlDay
    ++ member "id" ++ intText o.id
    ++ member "ref" ++ strText o.ref.buf
    ++ member "state" ++ quote o.state.enumString
    ++ member "side" ++ quote o.side.enumString
    ++ member "lots" ++ intText o.lots
    ++ member "ticks" ++ intText o.ticks
    ++ member "resd" ++ intText o.resd
    ++ member "exec" ++ intText o.exec
    ++ member "cost" ++ intText o.cost
    ++ (if o.lastLots ≠ 0 then
          member "lastLots" ++ intText o.lastLots ++ member "lastTicks" ++ intText o.lastTicks
        else member "lastLots" ++ bytes "null" ++ member "lastTicks" ++ bytes "null")
    ++ member "minLots" ++ numText o.minLots
    ++ member "created" ++ intText o.created
    ++ member "modified" ++ intText o.modified
    ++ bytes "\x7d"

/-- `Exec::toJson`: the snapshot and the trade, if it is one. What has no value is `null`: the
match, the role, the counterparty. -/
def Exec.toJson (e : Exec) : List Byte :=
  firstMember "trader" ++ quote e.trader.buf
    ++ member "market" ++ quote e.market.buf
    ++ member "contr" ++ quote e.contr.buf
    ++ member "settlDate" ++ dateText e.settlDay
    ++ member "id" ++ intText e.id
    ++ member "ref" ++ strText e.ref.buf
    ++ member "orderId" ++ intText e.orderId
    ++ member "state" ++ quote e.state.enumString
    ++ member "side" ++ quote e.side.enumString
    ++ member "lots" ++ intText e.lots
    ++ member "ticks" ++ intText e.ticks
    ++ member "resd" ++ intText e.resd
    ++ member "exec" ++ intText e.exec
    ++ member "cost" ++ intText e.cost
    ++ (if e.lastLots ≠ 0 then
          member "lastLots" ++ intText e.lastLots ++ member "lastTicks" ++ intText e.lastTicks
        else member "lastLots" ++ bytes "null" ++ member "lastTicks" ++ bytes "null")
    ++ member "minLots" ++ numText e.minLots
    ++ member "matchId" ++ numText e.matchId
    ++ member "role" ++ (if e.role ≠ .none then quote e.role.enumString else bytes "null")
    ++ member "cpty" ++ strText e.cpty.buf
    ++ member "created" ++ intText e.created
    ++ bytes "\x7d"

/-- `Posn::toJson`: what was bought and sold. A side without lots shows a cost of zero, whatever
its cost is. -/
def Posn.toJson (q : Posn) : List Byte :=
  firstMember "trader" ++ quote q.trader.buf
    ++ member "contr" ++ quote q.contr.buf
    ++ member "settlDate" ++ dateText q.settlDay
    ++ (if q.buyLots ≠ 0 then
          member "buyLots" ++ intText q.buyLots ++ member "buyCost" ++ intText q.buyCost
        else member "buyLots" ++ bytes "0" ++ member "buyCost" ++ bytes "0")
    ++ (if q.sellLots ≠ 0 then
          member "sellLots" ++ intText q.sellLots ++ member "sellCost" ++ intText q.sellCost
        else member "sellLots" ++ bytes "0" ++ member "sellCost" ++ bytes "0")
    ++ bytes "\x7d"

/-- `OStreamJoiner`: the texts with commas between them. -/
def joinTexts (texts : List (List Byte)) : List Byte := [Ascii.comma].intercalate texts

/-- `toJsonLevels`: of three levels, or `null` where there is none. -/
def levelsText {α : Type} (levels : List α) (fn : α → Int) : List Byte :=
  joinTexts ((List.range 3).map (fun i =>
    match levels[i]? with
    | some level => intText (fn level)
    | none => bytes "null"))

/-- Between brackets, as the elements of an array are written. -/
def bracket (s : List Byte) : List Byte := bytes "[" ++ s ++ bytes "]"

/-- `MarketBook::toJsonView`: the last trade, if there was one, and the best three levels of each
side, whose missing ones are `null`. -/
def MarketBook.toJsonView (b : MarketBook) : List Byte :=
  firstMember "market" ++ quote b.mnem.buf
    ++ member "contr" ++ quote b.contr.buf
    ++ member "settlDate" ++ dateText b.settlDay
    ++ (if b.lastLots ≠ 0 then
          member "lastLots" ++ intText b.lastLots ++ member "lastTicks" ++ intText b.lastTicks
            ++ member "lastTime" ++ intText b.lastTime
        else member "lastLots" ++ bytes "null" ++ member "lastTicks" ++ bytes "null"
            ++ member "lastTime" ++ bytes "null")
    ++ member "bidTicks" ++ bracket (levelsText b.bidSide.levels.elems Level.ticks)
    ++ member "bidResd" ++ bracket (levelsText b.bidSide.levels.elems Level.resd)
    ++ member "bidCount" ++ bracket (levelsText b.bidSide.levels.elems Level.count)
    ++ member "offerTicks" ++ bracket (levelsText b.offerSide.levels.elems Level.ticks)
    ++ member "offerResd" ++ bracket (levelsText b.offerSide.levels.elems Level.resd)
    ++ member "offerCount" ++ bracket (levelsText b.offerSide.levels.elems Level.count)
    ++ bytes "\x7d"

/-! ### Values -/

/-- A day as its date, which is a number and no string; a day of zero is none. -/
def dateJson (day : Int) : Lib.Json := if day ≠ 0 then .num (jdToIso day) else .null

/-- A number that zero stands for none of. -/
def numJson (n : Int) : Lib.Json := if n ≠ 0 then .num n else .null

/-- A string that is none if it is empty. -/
def strJson (s : List Byte) : Lib.Json := if s.isEmpty then .null else .str s

/-- An asset, as a value that `Asset.toJson` is the text of if no string needs an escape. -/
def Asset.json (a : Asset) : Lib.Json :=
  .obj [(bytes "mnem", .str a.mnem.buf), (bytes "display", .str a.display.buf),
    (bytes "type", .str a.type.enumString)]

/-- A contract, as a value that `Contr.toJson` is the text of if no string needs an escape. -/
def Contr.json (c : Contr) : Lib.Json :=
  .obj [(bytes "mnem", .str c.mnem.buf), (bytes "display", .str c.display.buf),
    (bytes "asset", .str c.asset.buf), (bytes "ccy", .str c.ccy.buf),
    (bytes "lotNumer", .num c.lotNumer), (bytes "lotDenom", .num c.lotDenom),
    (bytes "tickNumer", .num c.tickNumer), (bytes "tickDenom", .num c.tickDenom),
    (bytes "pipDp", .num c.pipDp), (bytes "minLots", .num c.minLots),
    (bytes "maxLots", .num c.maxLots)]

/-- A market, as a value that `MarketBook.toJson` is the text of if no string needs an escape. -/
def MarketBook.json (b : MarketBook) : Lib.Json :=
  .obj [(bytes "mnem", .str b.mnem.buf), (bytes "display", .str b.display.buf),
    (bytes "contr", .str b.contr.buf), (bytes "settlDate", dateJson b.settlDay),
    (bytes "expiryDate", dateJson b.expiryDay), (bytes "state", .num b.state)]

/-- A trader, as a value that `TraderSess.toJson` is the text of if no string needs an escape. -/
def TraderSess.json (t : TraderSess) : Lib.Json :=
  .obj [(bytes "mnem", .str t.mnem.buf), (bytes "display", .str t.display.buf),
    (bytes "email", .str t.email.buf)]

/-- An order, as a value that `Order.toJson` is the text of if no string needs an escape. -/
def Order.json (o : Order) : Lib.Json :=
  .obj [(bytes "trader", .str o.trader.buf), (bytes "market", .str o.market.buf),
    (bytes "contr", .str o.contr.buf), (bytes "settlDate", dateJson o.settlDay),
    (bytes "id", .num o.id), (bytes "ref", strJson o.ref.buf),
    (bytes "state", .str o.state.enumString), (bytes "side", .str o.side.enumString),
    (bytes "lots", .num o.lots), (bytes "ticks", .num o.ticks), (bytes "resd", .num o.resd),
    (bytes "exec", .num o.exec), (bytes "cost", .num o.cost),
    (bytes "lastLots", numJson o.lastLots),
    (bytes "lastTicks", if o.lastLots ≠ 0 then .num o.lastTicks else .null),
    (bytes "minLots", numJson o.minLots), (bytes "created", .num o.created),
    (bytes "modified", .num o.modified)]

/-- An execution, as a value that `Exec.toJson` is the text of if no string needs an escape. -/
def Exec.json (e : Exec) : Lib.Json :=
  .obj [(bytes "trader", .str e.trader.buf), (bytes "market", .str e.market.buf),
    (bytes "contr", .str e.contr.buf), (bytes "settlDate", dateJson e.settlDay),
    (bytes "id", .num e.id), (bytes "ref", strJson e.ref.buf),
    (bytes "orderId", .num e.orderId), (bytes "state", .str e.state.enumString),
    (bytes "side", .str e.side.enumString), (bytes "lots", .num e.lots),
    (bytes "ticks", .num e.ticks), (bytes "resd", .num e.resd), (bytes "exec", .num e.exec),
    (bytes "cost", .num e.cost), (bytes "lastLots", numJson e.lastLots),
    (bytes "lastTicks", if e.lastLots ≠ 0 then .num e.lastTicks else .null),
    (bytes "minLots", numJson e.minLots), (bytes "matchId", numJson e.matchId),
    (bytes "role", if e.role ≠ .none then .str e.role.enumString else .null),
    (bytes "cpty", strJson e.cpty.buf), (bytes "created", .num e.created)]

/-- A position, as a value that `Posn.toJson` is the text of if no string needs an escape. A side
without lots has a cost of zero here too. -/
def Posn.json (q : Posn) : Lib.Json :=
  .obj [(bytes "trader", .str q.trader.buf), (bytes "contr", .str q.contr.buf),
    (bytes "settlDate", dateJson q.settlDay), (bytes "buyLots", .num q.buyLots),
    (bytes "buyCost", .num (if q.buyLots ≠ 0 then q.buyCost else 0)),
    (bytes "sellLots", .num q.sellLots),
    (bytes "sellCost", .num (if q.sellLots ≠ 0 then q.sellCost else 0))]

/-- A property of the best three levels. -/
def levelsJson {α : Type} (levels : List α) (fn : α → Int) : Lib.Json :=
  .arr ((List.range 3).map (fun i =>
    match levels[i]? with
    | some level => .num (fn level)
    | none => .null))

/-- What is shown of a market. -/
def MarketBook.viewJson (b : MarketBook) : Lib.Json :=
  .obj [(bytes "market", .str b.mnem.buf), (bytes "contr", .str b.contr.buf),
    (bytes "settlDate", dateJson b.settlDay), (bytes "lastLots", numJson b.lastLots),
    (bytes "lastTicks", if b.lastLots ≠ 0 then .num b.lastTicks else .null),
    (bytes "lastTime", if b.lastLots ≠ 0 then .num b.lastTime else .null),
    (bytes "bidTicks", levelsJson b.bidSide.levels.elems Level.ticks),
    (bytes "bidResd", levelsJson b.bidSide.levels.elems Level.resd),
    (bytes "bidCount", levelsJson b.bidSide.levels.elems Level.count),
    (bytes "offerTicks", levelsJson b.offerSide.levels.elems Level.ticks),
    (bytes "offerResd", levelsJson b.offerSide.levels.elems Level.resd),
    (bytes "offerCount", levelsJson b.offerSide.levels.elems Level.count)]

/-! ### Texts of values -/

section Text

open Lib.Json (elemsText membersText quoted)

/-- The text of an array is what is joined between brackets. -/
theorem text_arr (l : List Lib.Json) :
    (Lib.Json.arr l).text intFormat =
      91 :: joinTexts (l.map (Lib.Json.text intFormat)) ++ [93] := by
  have hrest : ∀ (v : Lib.Json) (l : List Lib.Json), v.text intFormat ++ elemsText intFormat l =
      joinTexts ((v :: l).map (Lib.Json.text intFormat)) ++ [93] := by
    intro v l
    unfold joinTexts
    induction l generalizing v with
    | nil => simp [elemsText]
    | cons w l ih =>
        rw [elemsText, ih w, List.map_cons, List.map_cons, List.map_cons,
          List.intercalate_cons_cons]
        simp
  cases l with
  | nil => rfl
  | cons v l =>
      rw [Lib.Json.text, hrest v l]
      rfl

theorem text_dateJson (day : Int) : (dateJson day).text intFormat = dateText day := by
  unfold dateJson dateText
  split <;> rfl

theorem text_numJson (n : Int) : (numJson n).text intFormat = numText n := by
  unfold numJson numText
  split <;> rfl

theorem text_strJson (s : List Byte) : (strJson s).text intFormat = strText s := by
  unfold strJson strText
  split <;> rfl

theorem text_levelsJson {α : Type} (levels : List α) (fn : α → Int) :
    (levelsJson levels fn).text intFormat = bracket (levelsText levels fn) := by
  unfold levelsJson levelsText
  rw [text_arr, List.map_map]
  refine congrArg (fun t => 91 :: joinTexts t ++ [93]) (List.map_congr_left (fun i _ => ?_))
  rw [Function.comp_apply]
  cases levels[i]? <;> rfl

theorem text_num (n : Int) : (Lib.Json.num n).text intFormat = intText n := rfl

theorem text_str (s : List Byte) : (Lib.Json.str s).text intFormat = quote s := rfl

theorem text_null : Lib.Json.null.text intFormat = bytes "null" := rfl

theorem member_append (key : String) (s : List Byte) :
    member key ++ s = 44 :: (quoted (bytes key) ++ 58 :: s) := by
  have hopen : bytes ",\"" = [44, 34] := rfl
  have hclose : bytes "\":" = [34, 58] := rfl
  simp [member, quoted, hopen, hclose]

theorem firstMember_append (key : String) (s : List Byte) :
    firstMember key ++ s = 123 :: (quoted (bytes key) ++ 58 :: s) := by
  have hopen : bytes "\x7b\"" = [123, 34] := rfl
  have hclose : bytes "\":" = [34, 58] := rfl
  simp [firstMember, quoted, hopen, hclose]

theorem text_first (k : String) (v : Lib.Json) (m : List (List Byte × Lib.Json)) :
    (Lib.Json.obj ((bytes k, v) :: m)).text intFormat =
      firstMember k ++ (v.text intFormat ++ membersText intFormat m) := by
  rw [Lib.Json.text, firstMember_append]

theorem text_member (k : String) (v : Lib.Json) (m : List (List Byte × Lib.Json)) :
    membersText intFormat ((bytes k, v) :: m) =
      member k ++ (v.text intFormat ++ membersText intFormat m) := by
  rw [membersText, member_append]

theorem text_close : membersText intFormat [] = bytes "\x7d" := rfl

theorem Asset.toJson_eq (a : Asset) : a.toJson = a.json.text intFormat := by
  unfold toJson json
  rw [text_first]
  simp only [text_member, text_close]
  simp only [text_str]
  simp only [List.append_assoc]

theorem Contr.toJson_eq (c : Contr) : c.toJson = c.json.text intFormat := by
  unfold toJson json
  rw [text_first]
  simp only [text_member, text_close]
  simp only [text_str, text_num]
  simp only [List.append_assoc]

theorem MarketBook.toJson_json (b : MarketBook) : b.toJson = b.json.text intFormat := by
  have hstate : intText (b.state : Int) = natText b.state := by
    rw [intText_of_nonneg (Int.natCast_nonneg _), Int.toNat_natCast]
  unfold toJson json
  rw [text_first]
  simp only [text_member, text_close]
  simp only [text_str, text_num, text_dateJson, hstate]
  simp only [quote, firstMember_append, member_append, List.append_assoc, List.cons_append]
  rfl

theorem TraderSess.toJson_json (t : TraderSess) : t.toJson = t.json.text intFormat := by
  unfold toJson json
  rw [text_first]
  simp only [text_member, text_close]
  simp only [text_str]
  simp only [quote, firstMember_append, member_append, List.append_assoc, List.cons_append]
  rfl

/-- What is written of the last trade, if there was one. -/
theorem text_last (lots ticks : Int) (s : List Byte) :
    member "lastLots" ++ ((numJson lots).text intFormat ++ (member "lastTicks" ++
      ((if lots ≠ 0 then Lib.Json.num ticks else .null).text intFormat ++ s))) =
    (if lots ≠ 0 then
        member "lastLots" ++ intText lots ++ member "lastTicks" ++ intText ticks
      else member "lastLots" ++ bytes "null" ++ member "lastTicks" ++ bytes "null") ++ s := by
  rw [text_numJson, numText]
  split
  · simp only [text_num, List.append_assoc]
  · simp only [text_null, List.append_assoc]

theorem Order.toJson_eq (o : Order) : o.toJson = o.json.text intFormat := by
  unfold toJson json
  rw [text_first]
  simp only [text_member, text_close]
  simp only [text_last]
  simp only [text_str, text_num, text_dateJson, text_numJson, text_strJson]
  simp only [List.append_assoc]

theorem Exec.toJson_eq (e : Exec) : e.toJson = e.json.text intFormat := by
  have hrole : (if e.role ≠ .none then Lib.Json.str e.role.enumString else .null).text intFormat =
      if e.role ≠ .none then quote e.role.enumString else bytes "null" := by
    split <;> rfl
  unfold toJson json
  rw [text_first]
  simp only [text_member, text_close]
  simp only [text_last]
  simp only [text_str, text_num, text_dateJson, text_numJson, text_strJson, hrole]
  simp only [List.append_assoc]

/-- What is written of one side of a position. -/
theorem text_posnSide (lotsKey costKey : String) (lots cost : Int)
    (m : List (List Byte × Lib.Json)) :
    membersText intFormat ((bytes lotsKey, .num lots) ::
      (bytes costKey, .num (if lots ≠ 0 then cost else 0)) :: m) =
    (if lots ≠ 0 then member lotsKey ++ intText lots ++ member costKey ++ intText cost
      else member lotsKey ++ bytes "0" ++ member costKey ++ bytes "0")
      ++ membersText intFormat m := by
  have hzero : intText 0 = bytes "0" := rfl
  rw [text_member, text_member, text_num, text_num]
  split
  · simp only [List.append_assoc]
  · next hlots =>
      rw [not_not.mp hlots, hzero]
      simp only [List.append_assoc]

theorem Posn.toJson_eq (q : Posn) : q.toJson = q.json.text intFormat := by
  unfold toJson json
  rw [text_first, text_member, text_member, text_posnSide, text_posnSide, text_close]
  simp only [text_str, text_dateJson]
  simp only [List.append_assoc]

theorem MarketBook.toJsonView_eq (b : MarketBook) :
    b.toJsonView = b.viewJson.text intFormat := by
  have hticks : (if b.lastLots ≠ 0 then Lib.Json.num b.lastTicks else .null).text intFormat =
      if b.lastLots ≠ 0 then intText b.lastTicks else bytes "null" := by
    split <;> rfl
  have htime : (if b.lastLots ≠ 0 then Lib.Json.num b.lastTime else .null).text intFormat =
      if b.lastLots ≠ 0 then intText b.lastTime else bytes "null" := by
    split <;> rfl
  unfold toJsonView viewJson
  rw [text_first]
  simp only [text_member, text_close]
  simp only [text_str, text_dateJson, text_numJson, text_levelsJson, hticks, htime, numText]
  split <;> simp only [List.append_assoc]

end Text

end Swirly
