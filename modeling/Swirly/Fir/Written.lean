import Swirly.Fir.RestMethods

/-!
# Swirly.Fir.Written

**What `Rest` writes is JSON.** Strings are written as they are, so this rests on what every
string in the service has come from. As long as no string that the service is loaded with or
asked with needs an escape, what a method writes and what is written of an exception is the text
of a value, in every state that calls of `Rest` lead to (`rest_writes`).

Three of the methods that are not implemented leave a quote out, and what they write is never
read as a value (`parse_stubAt`).
-/

namespace Swirly

open Lib.Effect
open Lib.Json (PlainStr parse quoted)

/-! ### Texts of values -/

/-- The text of a value in which no string needs an escape. -/
def IsText (s : List Byte) : Prop := ∃ v : Lib.Json, v.Plain ∧ s = v.text intFormat

/-- Such a text is read as the value. -/
theorem IsText.reads {s : List Byte} (h : IsText s) : (parse intFormat s).isSome := by
  obtain ⟨v, hv, rfl⟩ := h
  rw [Lib.Json.parse_text intFormat hv]
  rfl

/-- Texts of values are those of a list of values. -/
theorem IsText.values {texts : List (List Byte)} (h : ∀ s ∈ texts, IsText s) :
    ∃ l : List Lib.Json, (∀ v ∈ l, v.Plain) ∧ texts = l.map (Lib.Json.text intFormat) := by
  induction texts with
  | nil => exact ⟨[], by simp, rfl⟩
  | cons s texts ih =>
      obtain ⟨v, hv, rfl⟩ := h s List.mem_cons_self
      obtain ⟨l, hl, rfl⟩ := ih (fun s hs => h s (List.mem_cons_of_mem _ hs))
      exact ⟨v :: l, List.forall_mem_cons.mpr ⟨hv, hl⟩, rfl⟩

/-- An array is written with its elements. -/
theorem IsText.array {texts : List (List Byte)} (h : ∀ s ∈ texts, IsText s) :
    IsText (bracket (joinTexts texts)) := by
  obtain ⟨l, hl, rfl⟩ := IsText.values h
  refine ⟨.arr l, Lib.Json.plain_arr.mpr hl, ?_⟩
  rw [text_arr]
  rfl

theorem IsText.all {α : Type} {toJson : α → List Byte} {as : List α}
    (h : ∀ a ∈ as, IsText (toJson a)) : IsText (writeAll toJson as) := by
  refine IsText.array (fun s hs => ?_)
  obtain ⟨a, ha, rfl⟩ := List.mem_map.mp hs
  exact h a ha

/-- The text of an object is what is joined between braces. -/
theorem text_obj (m : List (String × Lib.Json)) :
    (Lib.Json.obj (m.map (fun e => (bytes e.1, e.2)))).text intFormat =
      bytes "\x7b" ++ joinTexts (m.map (fun e => entry e.1 (e.2.text intFormat)))
        ++ bytes "\x7d" := by
  have hfirst : ∀ (k : String) (s : List Byte),
      firstMember k ++ s = bytes "\x7b" ++ (entry k s) := by
    intro k s
    have hopen : bytes "\x7b\"" = bytes "\x7b" ++ bytes "\"" := rfl
    unfold firstMember entry
    simp only [hopen, List.append_assoc]
  have hmember : ∀ (k : String) (s : List Byte),
      member k ++ s = Ascii.comma :: (entry k s) := by
    intro k s
    have hopen : bytes ",\"" = Ascii.comma :: bytes "\"" := rfl
    unfold member entry
    simp only [hopen, List.append_assoc, List.cons_append]
  have hentry : ∀ (k : String) (s t : List Byte), entry k (s ++ t) = entry k s ++ t := by
    intro k s t
    unfold entry
    simp only [List.append_assoc]
  have hrest : ∀ (m : List (String × Lib.Json)) (k : String) (v : Lib.Json),
      entry k (v.text intFormat) ++
          Lib.Json.membersText intFormat (m.map (fun e => (bytes e.1, e.2))) =
        joinTexts (((k, v) :: m).map (fun e => entry e.1 (e.2.text intFormat)))
          ++ bytes "\x7d" := by
    intro m
    unfold joinTexts
    induction m with
    | nil => simp [text_close]
    | cons e m ih =>
        intro k v
        rw [List.map_cons, text_member, hmember, hentry, ih e.1 e.2, List.map_cons, List.map_cons,
          List.map_cons, List.intercalate_cons_cons]
        simp
  cases m with
  | nil => rfl
  | cons e m =>
      rw [List.map_cons, text_first, hfirst, hentry, hrest m e.1 e.2, List.append_assoc]

/-- An object is written with its members. -/
theorem IsText.object {entries : List (List Byte)}
    (h : ∀ s ∈ entries, ∃ k t, PlainStr (bytes k) ∧ IsText t ∧ s = entry k t) :
    IsText (bytes "\x7b" ++ joinTexts entries ++ bytes "\x7d") := by
  have hmembers : ∃ m : List (String × Lib.Json), (∀ e ∈ m, PlainStr (bytes e.1) ∧ e.2.Plain) ∧
      entries = m.map (fun e => entry e.1 (e.2.text intFormat)) := by
    induction entries with
    | nil => exact ⟨[], by simp, rfl⟩
    | cons s entries ih =>
        obtain ⟨k, -, hk, ⟨v, hv, rfl⟩, rfl⟩ := h s List.mem_cons_self
        obtain ⟨m, hm, rfl⟩ := ih (fun s hs => h s (List.mem_cons_of_mem _ hs))
        exact ⟨(k, v) :: m, List.forall_mem_cons.mpr ⟨⟨hk, hv⟩, hm⟩, rfl⟩
  obtain ⟨m, hm, rfl⟩ := hmembers
  refine ⟨.obj (m.map (fun e => (bytes e.1, e.2))), Lib.Json.plain_obj.mpr (fun e he => ?_),
    (text_obj m).symm⟩
  obtain ⟨e', he', rfl⟩ := List.mem_map.mp he
  exact hm e' he'

/-! ### Exceptions -/

theorem bytes_append (s t : String) : bytes (s ++ t) = bytes s ++ bytes t := by
  unfold bytes chars
  rw [String.toList_append, List.map_append]

/-- The bytes of a text are those that it was made of. -/
theorem bytes_text (s : List Byte) : bytes (text s) = s := by
  have hbyte : ∀ b : Byte, Fin.ofNat 256 (Char.ofNat b).toNat = b := by decide +kernel
  unfold bytes chars text
  rw [String.toList_ofList]
  induction s with
  | nil => rfl
  | cons b s ih => exact congrArg₂ List.cons (hbyte b) ih

theorem bytes_int (n : Int) : bytes (toString n) = intText n := by
  have hnat : ∀ k : Nat, bytes k.repr = natText k := by
    intro k
    unfold bytes natText
    rw [Nat.toList_repr]
  have hminus : bytes "-" = [Ascii.minus] := rfl
  rw [Int.toString_eq_repr, Int.repr_eq_if]
  unfold intText
  by_cases hneg : n < 0
  · rw [if_neg (not_le.mpr hneg), if_pos hneg, bytes_append, hnat, hminus, List.singleton_append]
    exact congrArg (fun k => Ascii.minus :: natText k) (by omega)
  · rw [if_pos (not_lt.mp hneg), if_neg hneg, hnat]

theorem plain_append {s t : List Byte} (hs : PlainStr s) (ht : PlainStr t) :
    PlainStr (s ++ t) := by
  intro b hb
  rcases List.mem_append.mp hb with hb | hb
  · exact hs b hb
  · exact ht b hb

theorem plain_intText (n : Int) : PlainStr (intText n) := by
  have hall : ∀ b : Byte, isNumber b = true → b ≠ 34 ∧ b ≠ 92 ∧ 32 ≤ b := by decide +kernel
  exact fun b hb => hall b (intFormat.write_isNum n b hb)

/-- An exception is written as a value if what it is about needs no escape. -/
theorem Caught.isText {e : Caught} (h : PlainStr e.detail) : IsText e.toJson := by
  have hreason : PlainStr e.reason := by
    cases e with
    | serv error what =>
        have hall : ∀ error : HttpError, PlainStr error.httpReason := by
          intro error
          cases error <;> exact plain_bytes (by decide +kernel)
        exact hall error
    | other what => exact plain_bytes (by decide +kernel : Printable "Internal Server Error")
  refine ⟨.obj [(bytes "status", .num e.status), (bytes "reason", .str e.reason),
    (bytes "detail", .str e.detail)], ?_, ?_⟩
  · refine plain_of_keys ["status", "reason", "detail"] rfl (by decide +kernel) ?_
    simp only [List.forall_mem_cons, List.not_mem_nil, false_implies, implies_true, plain_num,
      plain_str hreason, plain_str h, and_true]
  · have hstatus : intText (e.status : Int) = natText e.status := by
      rw [intText_of_nonneg (Int.natCast_nonneg _), Int.toNat_natCast]
    have hopen : bytes "\x7b\"status\":" = firstMember "status" := rfl
    have hnext : bytes ",\"reason\":\"" = member "reason" ++ [Ascii.quote] := rfl
    have hlast : bytes "\",\"detail\":\"" = Ascii.quote :: member "detail" ++ [Ascii.quote] := rfl
    have hclose : bytes "\"\x7d" = Ascii.quote :: bytes "\x7d" := rfl
    rw [text_first]
    simp only [text_member, text_close]
    simp only [text_str, text_num, hstatus]
    unfold toJson
    simp only [hopen, hnext, hlast, hclose, quote, List.append_assoc, List.cons_append,
      List.nil_append]

/-! ### Strings -/

/-- No string needs an escape. -/
def AllPlain (strs : List (List Byte)) : Prop := ∀ t ∈ strs, PlainStr t

instance (strs : List (List Byte)) : Decidable (AllPlain strs) :=
  inferInstanceAs (Decidable (∀ t ∈ strs, PlainStr t))

@[simp] theorem allPlain_nil : AllPlain [] := fun _ ht => absurd ht List.not_mem_nil

@[simp] theorem allPlain_cons {t : List Byte} {ts : List (List Byte)} :
    AllPlain (t :: ts) ↔ PlainStr t ∧ AllPlain ts := List.forall_mem_cons

theorem plain_take {t : List Byte} (h : PlainStr t) (n : Nat) : PlainStr (t.take n) :=
  fun b hb => h b (List.mem_of_mem_take hb)

def Asset.strs (a : Asset) : List (List Byte) := [a.mnem.buf, a.display.buf]

def Contr.strs (c : Contr) : List (List Byte) :=
  [c.mnem.buf, c.display.buf, c.asset.buf, c.ccy.buf]

def MarketBook.strs (b : MarketBook) : List (List Byte) :=
  [b.mnem.buf, b.display.buf, b.contr.buf]

def TraderSess.strs (u : TraderSess) : List (List Byte) :=
  [u.mnem.buf, u.display.buf, u.email.buf]

/-- The strings that a message is about. -/
def RecExn.strs : RecExn → List (List Byte)
  | contrNotFound contr => [contr]
  | marketExists mnem => [mnem]
  | traderExists mnem => [mnem]
  | emailInUse email => [email]
  | traderNotFound mnem => [mnem]
  | invalidMnem mnem => [mnem]
  | _ => []

def ServiceExn.strs : ServiceExn → List (List Byte)
  | record e => e.strs
  | marketNotFound mnem => [mnem]
  | order (.marketClosed contr _) => [contr.buf]
  | order _ => []

/-- The strings that a call of the service is given. -/
def ServiceCall.strs : ServiceCall → List (List Byte)
  | createMarket _ _ mnem display contr _ _ _ => [mnem, display, contr]
  | updateMarket _ display _ => display.toList
  | createTrader _ mnem display email => [mnem, display, email]
  | updateTrader _ display => [display]
  | createOrder _ a _ => [a.ref]

/-- The strings that a method is given. -/
def RestMethod.strs : RestMethod → List (List Byte)
  | getAsset mnem => [mnem]
  | getContr mnem => [mnem]
  | getMarket mnem => [mnem]
  | getTrader mnem => [mnem]
  | getOrdersOf market => [market]
  | getOrder market _ => [market]
  | getTradesOf market => [market]
  | getTrade market _ => [market]
  | getPosnsOf contr => [contr]
  | getPosn contr _ => [contr]
  | getView market => [market]
  | postMarket mnem display contr _ _ _ => [mnem, display, contr]
  | putMarket mnem display _ => mnem :: display.toList
  | postTrader mnem display email => [mnem, display, email]
  | putTrader mnem display => [mnem, display]
  | postOrder trader market ref _ _ _ _ => [trader, market, ref]
  | putOrder market _ => [market]
  | deleteOrder market _ => [market]
  | postTrade market => [market]
  | deleteTrade market _ => [market]
  | _ => []

/-- A record is written as a value if none of its strings needs an escape. -/
theorem Asset.isText {a : Asset} (h : AllPlain a.strs) : IsText a.toJson := by
  obtain ⟨hmnem, hdisplay⟩ : PlainStr a.mnem.buf ∧ PlainStr a.display.buf := by
    simpa [strs] using h
  have htype : PlainStr a.type.enumString := by
    cases a.type <;> exact plain_bytes (by decide +kernel)
  refine ⟨a.json, plain_of_keys ["mnem", "display", "type"] rfl (by decide +kernel) ?_,
    a.toJson_eq⟩
  simp only [List.forall_mem_cons, List.not_mem_nil, false_implies, implies_true,
    plain_str hmnem, plain_str hdisplay, plain_str htype, and_true]

theorem Contr.isText {c : Contr} (h : AllPlain c.strs) : IsText c.toJson := by
  obtain ⟨hmnem, hdisplay, hasset, hccy⟩ : PlainStr c.mnem.buf ∧ PlainStr c.display.buf ∧
      PlainStr c.asset.buf ∧ PlainStr c.ccy.buf := by
    simpa [strs] using h
  refine ⟨c.json, plain_of_keys ["mnem", "display", "asset", "ccy", "lotNumer", "lotDenom",
    "tickNumer", "tickDenom", "pipDp", "minLots", "maxLots"] rfl (by decide +kernel) ?_,
    c.toJson_eq⟩
  simp only [List.forall_mem_cons, List.not_mem_nil, false_implies, implies_true, plain_num,
    plain_str hmnem, plain_str hdisplay, plain_str hasset, plain_str hccy, and_true]

theorem MarketBook.isText {b : MarketBook} (h : AllPlain b.strs) : IsText b.toJson := by
  obtain ⟨hmnem, hdisplay, hcontr⟩ : PlainStr b.mnem.buf ∧ PlainStr b.display.buf ∧
      PlainStr b.contr.buf := by
    simpa [strs] using h
  refine ⟨b.json, plain_of_keys ["mnem", "display", "contr", "settlDate", "expiryDate",
    "state"] rfl (by decide +kernel) ?_, b.toJson_json⟩
  simp only [List.forall_mem_cons, List.not_mem_nil, false_implies, implies_true, plain_num,
    plain_str hmnem, plain_str hdisplay, plain_str hcontr, plain_dateJson, and_true]

theorem TraderSess.isText {u : TraderSess} (h : AllPlain u.strs) : IsText u.toJson := by
  obtain ⟨hmnem, hdisplay, hemail⟩ : PlainStr u.mnem.buf ∧ PlainStr u.display.buf ∧
      PlainStr u.email.buf := by
    simpa [strs] using h
  refine ⟨u.json, plain_of_keys ["mnem", "display", "email"] rfl (by decide +kernel) ?_,
    u.toJson_json⟩
  simp only [List.forall_mem_cons, List.not_mem_nil, false_implies, implies_true,
    plain_str hmnem, plain_str hdisplay, plain_str hemail, and_true]

/-- A message is free of escapes if what it is about is. -/
theorem plain_about {pre post : String} {t : List Byte} (hpre : Printable pre)
    (ht : PlainStr t) (hpost : Printable post) : PlainStr (bytes (pre ++ text t ++ post)) := by
  rw [bytes_append, bytes_append, bytes_text]
  exact plain_append (plain_append (plain_bytes hpre) ht) (plain_bytes hpost)

theorem RecExn.plain_what {e : RecExn} (h : AllPlain e.strs) : PlainStr (bytes e.what) := by
  cases e with
  | settlBeforeExpiry => exact plain_bytes (by decide +kernel)
  | expiryBeforeBus => exact plain_bytes (by decide +kernel)
  | expiryWithoutSettl => exact plain_bytes (by decide +kernel)
  | badAlloc => exact plain_bytes (by decide +kernel)
  | _ => exact plain_about (by decide +kernel) (h _ List.mem_cons_self) (by decide +kernel)

theorem ServiceExn.plain_what {e : ServiceExn} (h : AllPlain e.strs) :
    PlainStr (bytes e.what) := by
  cases e with
  | record e => exact RecExn.plain_what h
  | marketNotFound mnem =>
      exact plain_about (by decide +kernel) (h _ List.mem_cons_self) (by decide +kernel)
  | order e =>
      cases e with
      | marketClosed contr settlDate =>
          show PlainStr (bytes ("market for '" ++ text contr.buf ++ "' in '" ++
            toString settlDate ++ "' has expired"))
          rw [bytes_append, bytes_append, bytes_int]
          have hcontr : PlainStr (bytes ("market for '" ++ text contr.buf ++ "' in '")) :=
            plain_about (by decide +kernel) (h _ List.mem_cons_self) (by decide +kernel)
          exact plain_append (plain_append hcontr (plain_intText _))
            (plain_bytes (by decide +kernel))
      | invalidLots lots =>
          show PlainStr (bytes ("invalid lots '" ++ toString lots ++ "'"))
          rw [bytes_append, bytes_append, bytes_int]
          exact plain_append (plain_append (plain_bytes (by decide +kernel)) (plain_intText _))
            (plain_bytes (by decide +kernel))
      | badAlloc => exact plain_bytes (by decide +kernel)
      | journ => exact plain_bytes (by decide +kernel)

theorem plain_exceptionWhat {what : List Byte} (h : PlainStr what) :
    PlainStr (exceptionWhat what) :=
  fun b hb => plain_take h 127 b (List.takeWhile_subset _ hb)

/-- What is thrown is written as a value if what it is about needs no escape. -/
theorem RestEnv.throws_isText {env : RestEnv} (hjourn : PlainStr env.journ.val.detail)
    {e : ServiceExn} (h : AllPlain e.strs) : IsText (env.throws e).val.toJson := by
  have hwhat := ServiceExn.plain_what h
  refine Caught.isText ?_
  cases e with
  | record e =>
      cases e with
      | badAlloc => exact hwhat
      | _ => exact plain_exceptionWhat hwhat
  | marketNotFound mnem => exact plain_exceptionWhat hwhat
  | order e =>
      cases e with
      | badAlloc => exact hwhat
      | journ => exact hjourn
      | _ => exact plain_exceptionWhat hwhat

/-! ### Methods that are not implemented -/

theorem stubOf_isText {key : String} {name : List Byte} (hkey : PlainStr (bytes key))
    (hname : PlainStr name) : IsText (stubOf key name) := by
  refine ⟨.obj [(bytes key, .str name)], Lib.Json.plain_obj.mpr ?_, ?_⟩
  · simpa using ⟨hkey, hname⟩
  · rw [text_first, text_close, text_str, ← List.append_assoc]
    rfl

theorem stubIds_isText {name : List Byte} (ids : List Int) (hname : PlainStr name) :
    IsText (stubIds name ids) := by
  refine ⟨.obj [(bytes "market", .str name), (bytes "ids", .arr (ids.map .num))], ?_, ?_⟩
  · have hids : (Lib.Json.arr (ids.map .num)).Plain := by
      refine Lib.Json.plain_arr.mpr (fun v hv => ?_)
      obtain ⟨n, -, rfl⟩ := List.mem_map.mp hv
      trivial
    refine plain_of_keys ["market", "ids"] rfl (by decide +kernel) ?_
    simp only [List.forall_mem_cons, List.not_mem_nil, false_implies, implies_true,
      plain_str hname, hids, and_true]
  · rw [text_first, text_member, text_close, text_map (fun n => (text_num n).symm), text_str]
    unfold stubIds
    simp only [List.append_assoc]

/-- **The name is read to the quote of the next key**, and that key is not what comes after a
value. -/
theorem parse_stubAt {key key' : String} {name k : List Byte} {b : Byte} (n : Int)
    (hkey : PlainStr (bytes key)) (hname : PlainStr name) (hkey' : bytes key' = b :: k)
    (hb : b ≠ 125 ∧ b ≠ 44) (hnum : isNumber b = false) :
    parse intFormat (stubAt key name key' n) = none := by
  have hquote : bytes "\"" = [34] := rfl
  have hvalue : (Lib.Json.str (name ++ [44])).Plain := plain_append hname (by decide +kernel)
  have hstub : stubAt key name key' n = 123 :: (quoted (bytes key) ++ 58 ::
      ((Lib.Json.str (name ++ [44])).text intFormat ++
        b :: (k ++ 34 :: 58 :: (intText n ++ bytes "\x7d")))) := by
    unfold stubAt
    rw [List.append_assoc, List.append_assoc, List.append_assoc, List.append_assoc,
      firstMember_append, member_append, hquote, hkey']
    simp [quoted, text_str, quote]
  rw [hstub]
  exact Lib.Json.parse_obj_none intFormat hkey hvalue hb hnum

/-! ### What calls keep free of escapes -/

/-- No string in the records needs an escape. -/
structure Service.PlainRecords (s : Service) : Prop where
  asset : ∀ a ∈ s.assets.elems, AllPlain a.strs
  contr : ∀ c ∈ s.contrs.elems, AllPlain c.strs
  market : ∀ m ∈ s.serv.markets.keys, AllPlain (s.serv.markets.get m).strs
  trader : ∀ u ∈ s.serv.traders.keys, AllPlain (s.serv.traders.get u).strs

/-- The names in the records are strings of them. -/
theorem Service.PlainRecords.names {s : Service} (h : s.PlainRecords) : s.PlainNames where
  contr c hc := h.contr c hc _ List.mem_cons_self
  trader u hu := s.serv.traders.key_get u hu ▸ h.trader u hu _ List.mem_cons_self
  market m hm := by
    have hmarket := h.market m hm
    refine ⟨s.serv.markets.key_get m hm ▸ hmarket _ List.mem_cons_self, hmarket _ ?_⟩
    simp [MarketBook.strs]

theorem plain_assign {t : List Byte} (h : PlainStr t) (maxN : Nat) :
    PlainStr (FixedString.assign maxN t).buf := plain_take h maxN

theorem amendMarket_strs {b : MarketBook} (hb : AllPlain b.strs) {display : Option (List Byte)}
    (hdisplay : AllPlain display.toList) (state : Option Nat) :
    AllPlain (Service.amendMarket display state b).strs := by
  have hstate : (Service.amendMarket display state b).strs =
      (Service.amendMarket display none b).strs := by cases state <;> rfl
  rw [hstate]
  cases display with
  | none => exact hb
  | some display =>
      simp only [MarketBook.strs, allPlain_cons, Option.toList_some] at hb hdisplay
      obtain ⟨hmnem, -, hcontr⟩ := hb
      have hrest := allPlain_cons.mpr ⟨plain_assign hdisplay.1 64, allPlain_cons.mpr hcontr⟩
      exact allPlain_cons.mpr ⟨hmnem, hrest⟩

/-- **A call that is given no string with an escape leaves none in the records.** -/
theorem Service.PlainRecords.apply {s : Service} (h : s.PlainRecords) (call : ServiceCall)
    (hcall : AllPlain call.strs) : (call.apply s).PlainRecords := by
  have hout := call.outcome s
  generalize call.refuses s = refused, call.apply s = s' at hout
  cases hout with
  | marketRefused _ => exact h
  | @marketCreated busDay alloc mnem display contr settlDay expiryDay state _ hfree =>
      simp only [ServiceCall.strs, allPlain_cons] at hcall
      obtain ⟨hmnem, hdisplay, hcontr, -⟩ := hcall
      refine ⟨h.asset, h.contr, Lib.Table.forall_add
        (P := fun b : MarketBook => AllPlain b.strs) hfree h.market ?_, h.trader⟩
      simp [MarketBook.strs, newMarket, plain_assign hmnem, plain_assign hdisplay,
        plain_assign hcontr]
  | marketUnknown _ => exact h
  | @marketUpdated mnem display state m hfind =>
      refine ⟨h.asset, h.contr, fun m' hm => ?_, h.trader⟩
      show AllPlain ((s.serv.modifyBook m _ _).markets.get m').strs
      rw [Serv.modifyBook_get]
      split
      · exact amendMarket_strs (h.market m (findMarket_some hfind).1) hcall state
      · exact h.market m' hm
  | traderRefused _ => exact h
  | @traderCreated alloc mnem display email _ hfree =>
      simp only [ServiceCall.strs, allPlain_cons] at hcall
      obtain ⟨hmnem, hdisplay, hemail, -⟩ := hcall
      refine ⟨h.asset, h.contr, h.market, Lib.Table.forall_add
        (P := fun u : TraderSess => AllPlain u.strs) hfree h.trader ?_⟩
      simp [TraderSess.strs, newTrader, plain_assign hmnem, plain_assign hdisplay,
        plain_assign hemail]
  | traderUnknown _ => exact h
  | @traderUpdated mnem display u hfind =>
      refine ⟨h.asset, h.contr, h.market, fun u' hu => ?_⟩
      show AllPlain ((s.serv.modifySess u _ _).traders.get u').strs
      rw [Serv.modifySess_get]
      split
      · have hstrs := h.trader u (findTrader_some hfind).1
        simp only [TraderSess.strs, ServiceCall.strs, allPlain_cons] at hstrs hcall
        simp [TraderSess.strs, TraderSess.setDisplay, hstrs, plain_assign hcall.1]
      · exact h.trader u' hu
  | ordered env a resp =>
      have hsame : SameRecords s.serv ((Swirly.createOrder env a).final ⟨s.serv, resp⟩).serv :=
        (SameRecords.createOrder env a).final (SameRecords.refl s.serv)
      refine ⟨h.asset, h.contr, fun m hm => ?_, fun u hu => ?_⟩
      · have hstrs := congrArg MarketBook.strs (hsame.market m)
        exact hstrs ▸ h.market m (hsame.marketKeys ▸ hm)
      · have hstrs := congrArg TraderSess.strs (hsame.trader u)
        exact hstrs ▸ h.trader u (hsame.traderKeys ▸ hu)

/-- What holds of the strings in every state that calls of `Rest` lead to. -/
structure WriteInv (s₀ s : Service) : Prop where
  post : PostInv s₀ s
  records : s.PlainRecords

namespace RestMethod

section Calls

variable {env : RestEnv} {now : Int} {s : Service} {m : RestMethod} {call : ServiceCall}

/-- A call of the service is given strings of the method. -/
theorem serviceCall_strs (h : m.serviceCall env now s = some call) : call.strs ⊆ m.strs := by
  unfold serviceCall at h
  rcases Option.or_eq_some_iff.mp h with hrecord | ⟨-, horder⟩
  · unfold recordCall at hrecord
    split at hrecord <;> cases hrecord <;> simp [ServiceCall.strs, strs]
  · unfold orderCall at horder
    split at horder
    · split at horder
      · cases horder
        simp [ServiceCall.strs, strs]
      · cases horder
    · cases horder

theorem meets_plainRef (hasks : m.Asks) (hmem : ∀ site, env.env.alloc site = true)
    (hplain : AllPlain m.strs) (h : m.serviceCall env now s = some call) :
    call.Meets PlainRef s := by
  have hmeets := meets_serviceCall hasks hmem h
  have hstrs := serviceCall_strs h
  cases call with
  | createOrder env a resp =>
      obtain ⟨hv, hresp, hsound⟩ := hmeets
      exact ⟨hv, hresp, hsound, plain_assign (hplain _ (hstrs List.mem_cons_self)) 64⟩
  | _ => exact trivial

end Calls

end RestMethod

/-- **A method** keeps what holds of the strings if it is given none with an escape. -/
theorem WriteInv.method {s₀ s : Service} (hi : WriteInv s₀ s) {env : RestEnv} {now : Int}
    {m : RestMethod} (hasks : m.Asks) (hmem : ∀ site, env.env.alloc site = true)
    (hplain : AllPlain m.strs) : WriteInv s₀ (m.run env now s).1 := by
  rw [RestMethod.run_state]
  cases hcall : m.serviceCall env now s with
  | none => exact hi
  | some call =>
      have hstrs : AllPlain call.strs := fun t ht =>
        hplain t (RestMethod.serviceCall_strs hcall ht)
      exact ⟨hi.post.step (RestMethod.meets_plainRef hasks hmem hplain hcall),
        hi.records.apply call hstrs⟩

/-- **Calls** keep it. -/
theorem WriteInv.calls {s₀ : Service} (h₀ : s₀.serv.Empty) (hrecords : s₀.PlainRecords)
    {env : Nat → RestEnv} (hmem : ∀ i site, (env i).env.alloc site = true) {calls : List Call}
    (hcalls : ∀ c ∈ calls, c.method.Asks ∧ AllPlain c.method.strs) :
    WriteInv s₀ (s₀.afterCalls env calls) := by
  induction calls using List.reverseRecOn with
  | nil => exact ⟨PostInv.init h₀ hrecords.names, hrecords⟩
  | append_singleton calls c ih =>
      have hi := ih (fun c hc => hcalls c (List.mem_append_left _ hc))
      obtain ⟨hasks, hplain⟩ := hcalls c (List.mem_append_right _ (List.mem_singleton_self c))
      rw [Service.afterCalls_snoc]
      exact hi.method hasks (hmem _) hplain

/-! ### What is written -/

/-- The methods that write what is not JSON: those that leave out a quote, and an order without a
side, which writes nothing. -/
def RestMethod.Broken : RestMethod → Prop
  | getOrder _ _ => True
  | getTrade _ _ => True
  | getPosn _ _ => True
  | postOrder _ _ _ side _ _ _ => side = none
  | _ => False

/-- What a method has written or thrown is JSON, unless it is one of those that write no JSON. -/
structure Written (m : RestMethod) (r : RestResult) : Prop where
  thrown : ∀ e, r.2 = some e → IsText e.val.toJson
  value : r.2 = none → ¬ m.Broken → IsText r.1
  broken : r.2 = none → m.Broken → parse intFormat r.1 = none

theorem Written.of_isText {m : RestMethod} {text : List Byte} (hm : ¬ m.Broken)
    (h : IsText text) : Written m (text, none) where
  thrown e he := by cases he
  value _ _ := h
  broken _ hb := absurd hb hm

theorem Written.of_broken {m : RestMethod} {text : List Byte} (hm : m.Broken)
    (h : parse intFormat text = none) : Written m (text, none) where
  thrown e he := by cases he
  value _ hb := absurd hm hb
  broken _ _ := h

theorem Written.of_thrown {m : RestMethod} {text : List Byte} {e : RestExn}
    (h : IsText e.val.toJson) : Written m (text, some e) where
  thrown e' he := by
    cases he
    exact h
  value hnone := by cases hnone
  broken hnone := by cases hnone

/-- A record that is looked for is written, or its name is in the message. -/
theorem Written.found {α : Type} {m : RestMethod} (hm : ¬ m.Broken) {kind : String}
    (hkind : Printable kind) {mnem : List Byte} (hmnem : PlainStr mnem) {toJson : α → List Byte}
    {found : Option α} (h : ∀ a ∈ found, IsText (toJson a)) :
    Written m (writeFound kind mnem toJson found) := by
  cases found with
  | some a => exact .of_isText hm (h a rfl)
  | none =>
      refine .of_thrown (Caught.isText (plain_exceptionWhat ?_))
      have hquote : Printable " '" := by decide +kernel
      have hend : Printable "' does not exist" := by decide +kernel
      exact plain_append (plain_append (plain_append (plain_bytes hkind) (plain_bytes hquote))
        hmnem) (plain_bytes hend)

/-! ### Methods that change the service -/

section Records

variable {s s' : Service} {alloc : Bool} {busDay settlDay expiryDay : Int} {state : Nat}
  {mnem display contr email : List Byte} {shown : Option (List Byte)} {st : Option Nat}
  {k : Mnem} {e : ServiceExn}

theorem createMarket_error (hplain : AllPlain [mnem, display, contr])
    (h : s.createMarket busDay alloc mnem display contr settlDay expiryDay state = .error e) :
    AllPlain e.strs := by
  simp only [allPlain_cons] at hplain
  unfold Service.createMarket at h
  split_ifs at h <;> cases h <;> simp [ServiceExn.strs, RecExn.strs, hplain]

theorem createMarket_known
    (h : s.createMarket busDay alloc mnem display contr settlDay expiryDay state = .ok (k, s')) :
    k ∈ s'.serv.markets.keys := by
  unfold Service.createMarket at h
  split_ifs at h
  cases h
  exact Lib.Table.mem_add_keys.mpr (Or.inr rfl)

theorem updateMarket_error (hplain : PlainStr mnem)
    (h : s.updateMarket mnem shown st = .error e) : AllPlain e.strs := by
  unfold Service.updateMarket at h
  split at h
  · cases h
    simp [ServiceExn.strs, hplain]
  · cases h

theorem updateMarket_known (h : s.updateMarket mnem shown st = .ok (k, s')) :
    k ∈ s'.serv.markets.keys := by
  unfold Service.updateMarket at h
  split at h
  · cases h
  · next hfind =>
      cases h
      exact (Service.findMarket_some hfind).1

theorem createTrader_error (hplain : AllPlain [mnem, display, email])
    (h : s.createTrader alloc mnem display email = .error e) : AllPlain e.strs := by
  simp only [allPlain_cons] at hplain
  unfold Service.createTrader at h
  split_ifs at h <;> cases h <;> simp [ServiceExn.strs, RecExn.strs, hplain]

theorem createTrader_known (h : s.createTrader alloc mnem display email = .ok (k, s')) :
    k ∈ s'.serv.traders.keys := by
  unfold Service.createTrader at h
  split_ifs at h
  cases h
  exact Lib.Table.mem_add_keys.mpr (Or.inr rfl)

theorem updateTrader_error (hplain : PlainStr mnem) (h : s.updateTrader mnem display = .error e) :
    AllPlain e.strs := by
  unfold Service.updateTrader at h
  split at h
  · cases h
    simp [ServiceExn.strs, RecExn.strs, hplain]
  · cases h

theorem updateTrader_known (h : s.updateTrader mnem display = .ok (k, s')) :
    k ∈ s'.serv.traders.keys := by
  unfold Service.updateTrader at h
  split at h
  · cases h
  · next hfind =>
      cases h
      exact (Service.findTrader_some hfind).1

end Records

/-- A record call writes the record that it leaves, or what it throws. -/
theorem Written.record {env : RestEnv} {s : Service} {m : RestMethod} (hm : ¬ m.Broken)
    (hjourn : PlainStr env.journ.val.detail) {toJson : Service → Mnem → List Byte}
    {result : Except ServiceExn (Mnem × Service)}
    (herror : ∀ e, result = .error e → AllPlain e.strs)
    (hok : ∀ k, result = .ok (k, s.afterRecord result) →
      IsText (toJson (s.afterRecord result) k)) :
    Written m (env.writeRec s toJson result).2 := by
  cases result with
  | ok r => exact .of_isText hm (hok r.1 rfl)
  | error e => exact .of_thrown (RestEnv.throws_isText hjourn (herror e rfl))

/-- What an order is refused for is about the contract of its market. -/
theorem Failed.strs {env : Env} {s : Serv} {a : OrderArgs} {resp : Response} {e : Exn} {c : Ctx}
    (h : Failed env s a resp e c) (hcontr : PlainStr (s.markets.get a.book).contr.buf) :
    AllPlain (ServiceExn.order e).strs := by
  cases h with
  | expired _ => exact allPlain_cons.mpr ⟨hcontr, allPlain_nil⟩
  | _ => exact allPlain_nil

/-- An order writes the response, or what it throws. -/
theorem WriteInv.postOrder {s₀ s : Service} (hi : WriteInv s₀ s) {env : RestEnv} {now : Int}
    {trader market ref : List Byte} {side : Side} {lots ticks minLots : Int}
    (hasks : (RestMethod.postOrder trader market ref (some side) lots ticks minLots).Asks)
    (hmem : ∀ site, env.env.alloc site = true) (hjourn : PlainStr env.journ.val.detail)
    (hplain : AllPlain [trader, market, ref]) :
    Written (.postOrder trader market ref (some side) lots ticks minLots)
      (env.postOrder now s trader market ref side lots ticks minLots).2 := by
  have hm : ¬ (RestMethod.postOrder trader market ref (some side) lots ticks minLots).Broken := by
    simp [RestMethod.Broken]
  have hstrs := hplain
  simp only [allPlain_cons] at hstrs
  obtain ⟨htrader, hmarket, -⟩ := hstrs
  unfold RestEnv.postOrder
  cases hsess : s.trader trader with
  | error e =>
      refine .of_thrown (RestEnv.throws_isText hjourn ?_)
      unfold Service.trader at hsess
      split at hsess <;> cases hsess
      exact allPlain_cons.mpr ⟨htrader, allPlain_nil⟩
  | ok sess =>
      cases hbook : s.market market with
      | error e =>
          refine .of_thrown (RestEnv.throws_isText hjourn ?_)
          unfold Service.market at hbook
          split at hbook <;> cases hbook
          exact allPlain_cons.mpr ⟨hmarket, allPlain_nil⟩
      | ok book =>
          have hcall : (RestMethod.postOrder trader market ref (some side) lots ticks
              minLots).serviceCall env now s = some (.createOrder env.env
                ⟨sess, book, ref, side, lots, ticks, minLots, now⟩ {}) := by
            simp only [RestMethod.serviceCall, RestMethod.recordCall, RestMethod.orderCall, hsess,
              hbook, Option.none_or]
          obtain ⟨hv, hresp, href⟩ := RestMethod.meets_plainRef hasks hmem hplain hcall
          simp only [Service.createOrder]
          cases hcreate : Swirly.createOrder env.env
              ⟨sess, book, ref, side, lots, ticks, minLots, now⟩ ⟨s.serv, {}⟩ with
          | ok _ c =>
              obtain ⟨-, -, -, v, hv', htext, -⟩ := hi.post.told hv hresp href hcreate
              exact .of_isText hm ⟨v, hv', htext⟩
          | error e c =>
              refine .of_thrown (RestEnv.throws_isText hjourn ?_)
              rcases createOrder_cases env.env {} hi.post.serv.books hv.book hv.lots.le with
                ⟨c', s₁, hok, -⟩ | ⟨e', c', herror, hf⟩
              · rw [hcreate] at hok
                cases hok
              · rw [hcreate] at herror
                cases herror
                exact hf.strs (hi.post.text.market book hv.book).2

/-- What a condition selects is all that is in a list of it. -/
theorem mem_selected {p : Prop} [Decidable p] {t u : List Byte}
    (h : t ∈ if p then [u] else []) : t = u := by
  split at h
  · exact List.mem_singleton.mp h
  · exact absurd h List.not_mem_nil

theorem emptyArray_isText : IsText (bytes "[]") := ⟨.arr [], trivial, rfl⟩

theorem recText_isText {es : EntitySet} {assets : List Asset} {contrs : List Contr}
    {markets : List MarketBook} {traders : List TraderSess}
    (hassets : ∀ a ∈ assets, IsText a.toJson) (hcontrs : ∀ c ∈ contrs, IsText c.toJson)
    (hmarkets : ∀ b ∈ markets, IsText b.toJson) (htraders : ∀ u ∈ traders, IsText u.toJson) :
    IsText (recText es assets contrs markets traders) := by
  refine IsText.object (fun t ht => ?_)
  simp only [List.mem_append] at ht
  rcases ht with ((ht | ht) | ht) | ht
  · exact ⟨"assets", _, plain_bytes (by decide +kernel), .all hassets, mem_selected ht⟩
  · exact ⟨"contrs", _, plain_bytes (by decide +kernel), .all hcontrs, mem_selected ht⟩
  · exact ⟨"markets", _, plain_bytes (by decide +kernel), .all hmarkets, mem_selected ht⟩
  · exact ⟨"traders", _, plain_bytes (by decide +kernel), .all htraders, mem_selected ht⟩

theorem getSess_isText (es : EntitySet) : IsText (getSess es) := by
  refine IsText.object (fun t ht => ?_)
  simp only [List.mem_append] at ht
  rcases ht with ((ht | ht) | ht) | ht
  · exact ⟨"orders", _, plain_bytes (by decide +kernel), emptyArray_isText, mem_selected ht⟩
  · exact ⟨"trades", _, plain_bytes (by decide +kernel), emptyArray_isText, mem_selected ht⟩
  · exact ⟨"posns", _, plain_bytes (by decide +kernel), emptyArray_isText, mem_selected ht⟩
  · exact ⟨"views", _, plain_bytes (by decide +kernel), emptyArray_isText, mem_selected ht⟩

/-- A name and a number are never read, and neither is nothing. -/
theorem parse_stubId {name : List Byte} (hname : PlainStr name) (id : Option Int) :
    parse intFormat
      (match id with | some id => stubAt "market" name "id" id | none => []) = none := by
  cases id with
  | none => rfl
  | some id =>
      exact parse_stubAt id (plain_bytes (by decide +kernel)) hname
        (rfl : bytes "id" = 105 :: [100]) (by decide) rfl

/-- The methods that read the records: each writes all of a kind, all of the kinds asked for, or
the one with a name. -/
def RestMethod.ReadsRecords : RestMethod → Prop
  | getRec _ => True
  | getAssets => True
  | getAsset _ => True
  | getContrs => True
  | getContr _ => True
  | getMarkets => True
  | getMarket _ => True
  | getTraders => True
  | getTrader _ => True
  | _ => False

/-- The methods that neither read the service nor change it: what they write is a text that is
made of their arguments alone. -/
def RestMethod.IsStub : RestMethod → Prop
  | getSess _ => True
  | getOrders => True
  | getOrdersOf _ => True
  | getOrder _ _ => True
  | getTrades => True
  | getTradesOf _ => True
  | getTrade _ _ => True
  | getPosns => True
  | getPosnsOf _ => True
  | getPosn _ _ => True
  | getViews => True
  | getView _ => True
  | putOrder _ _ => True
  | deleteOrder _ _ => True
  | postTrade _ => True
  | deleteTrade _ _ => True
  | _ => False

theorem AllPlain.head {t : List Byte} {ts : List (List Byte)} (h : AllPlain (t :: ts)) :
    PlainStr t := h t List.mem_cons_self

section Cases

variable {s : Service} {env : RestEnv} {now : Int} {m : RestMethod}

theorem Service.PlainRecords.assets_isText (h : s.PlainRecords) :
    ∀ a ∈ s.assets.elems, IsText a.toJson := fun a ha => Asset.isText (h.asset a ha)

theorem Service.PlainRecords.contrs_isText (h : s.PlainRecords) :
    ∀ c ∈ s.contrs.elems, IsText c.toJson := fun c hc => Contr.isText (h.contr c hc)

theorem Service.PlainRecords.markets_isText (h : s.PlainRecords) :
    ∀ b ∈ s.markets.elems, IsText b.toJson := by
  intro b hb
  obtain ⟨k, hk, rfl⟩ := Service.mem_markets.mp hb
  exact MarketBook.isText (h.market k hk)

theorem Service.PlainRecords.traders_isText (h : s.PlainRecords) :
    ∀ u ∈ s.traders.elems, IsText u.toJson := by
  intro u hu
  obtain ⟨k, hk, rfl⟩ := Service.mem_traders.mp hu
  exact TraderSess.isText (h.trader k hk)

/-- A read of the records writes them, or that the one that was asked for is not there. -/
theorem Service.PlainRecords.written_read (h : s.PlainRecords) (hm : m.ReadsRecords)
    (hplain : AllPlain m.strs) : Written m (m.run env now s).2 := by
  have hassets := h.assets_isText
  have hcontrs := h.contrs_isText
  have hmarkets := h.markets_isText
  have htraders := h.traders_isText
  cases m with
  | getRec es => exact .of_isText id (recText_isText hassets hcontrs hmarkets htraders)
  | getAssets => exact .of_isText id (.all hassets)
  | getAsset mnem =>
      exact .found id (by decide +kernel) hplain.head
        (fun a ha => hassets a (Lib.KeySet.mem_of_find? ha).1)
  | getContrs => exact .of_isText id (.all hcontrs)
  | getContr mnem =>
      exact .found id (by decide +kernel) hplain.head
        (fun c hc => hcontrs c (Lib.KeySet.mem_of_find? hc).1)
  | getMarkets => exact .of_isText id (.all hmarkets)
  | getMarket mnem =>
      exact .found id (by decide +kernel) hplain.head
        (fun b hb => hmarkets b (Lib.KeySet.mem_of_find? hb).1)
  | getTraders => exact .of_isText id (.all htraders)
  | getTrader mnem =>
      exact .found id (by decide +kernel) hplain.head
        (fun u hu => htraders u (Lib.KeySet.mem_of_find? hu).1)
  | _ => exact hm.elim

/-- A stub writes JSON, unless it is one that writes a name without quotes or nothing at all. -/
theorem Written.stub (hm : m.IsStub) (hplain : AllPlain m.strs) :
    Written m (m.run env now s).2 := by
  have hmarket : PlainStr (bytes "market") := plain_bytes (by decide +kernel)
  have hcontr : PlainStr (bytes "contr") := plain_bytes (by decide +kernel)
  cases m with
  | getSess es => exact .of_isText id (getSess_isText es)
  | getOrders => exact .of_isText id emptyArray_isText
  | getOrdersOf market => exact .of_isText id (stubOf_isText hmarket hplain.head)
  | getOrder market id => exact .of_broken trivial (parse_stubId hplain.head id)
  | getTrades => exact .of_isText id emptyArray_isText
  | getTradesOf market => exact .of_isText id (stubOf_isText hmarket hplain.head)
  | getTrade market id => exact .of_broken trivial (parse_stubId hplain.head id)
  | getPosns => exact .of_isText id emptyArray_isText
  | getPosnsOf contr => exact .of_isText id (stubOf_isText hcontr hplain.head)
  | getPosn contr settlDate =>
      exact .of_broken trivial (parse_stubAt settlDate hcontr hplain.head
        (rfl : bytes "settlDate" = 115 :: [101, 116, 116, 108, 68, 97, 116, 101]) (by decide) rfl)
  | getViews => exact .of_isText id emptyArray_isText
  | getView market => exact .of_isText id (stubOf_isText hmarket hplain.head)
  | putOrder market ids => exact .of_isText id (stubIds_isText ids hplain.head)
  | deleteOrder market ids => exact .of_isText id (stubIds_isText ids hplain.head)
  | postTrade market => exact .of_isText id (stubOf_isText hmarket hplain.head)
  | deleteTrade market ids => exact .of_isText id (stubIds_isText ids hplain.head)
  | _ => exact hm.elim

/-- A change of the records writes the record that it leaves, and that one has the strings of
the request and of the records before it. -/
theorem Service.PlainRecords.written_change (h : s.PlainRecords)
    (hm : (m.recordCall env now).isSome) (hjourn : PlainStr env.journ.val.detail)
    (hplain : AllPlain m.strs) : Written m (m.run env now s).2 := by
  cases m with
  | postMarket mnem display contr settlDate expiryDate state =>
      have hafter := h.apply (.createMarket (env.env.getBusDay now) env.alloc mnem display contr
        (maybeIsoToJd settlDate) (maybeIsoToJd expiryDate) state.toNat) hplain
      exact .record id hjourn (fun e he => createMarket_error hplain he)
        (fun k hk => MarketBook.isText (hafter.market k (createMarket_known hk)))
  | putMarket mnem display state =>
      have hafter := h.apply (.updateMarket mnem display (state.map Int.toNat))
        (fun t ht => hplain t (List.mem_cons_of_mem mnem ht))
      exact .record id hjourn (fun e he => updateMarket_error hplain.head he)
        (fun k hk => MarketBook.isText (hafter.market k (updateMarket_known hk)))
  | postTrader mnem display email =>
      have hafter := h.apply (.createTrader env.alloc mnem display email) hplain
      exact .record id hjourn (fun e he => createTrader_error hplain he)
        (fun k hk => TraderSess.isText (hafter.trader k (createTrader_known hk)))
  | putTrader mnem display =>
      have hafter := h.apply (.updateTrader mnem display)
        (fun t ht => hplain t (List.mem_cons_of_mem mnem ht))
      exact .record id hjourn (fun e he => updateTrader_error hplain.head he)
        (fun k hk => TraderSess.isText (hafter.trader k (updateTrader_known hk)))
  | _ => cases hm

end Cases

/-- **What a method writes or throws is JSON**, unless it is one of those that write no JSON. -/
theorem WriteInv.written {s₀ s : Service} (hi : WriteInv s₀ s) {env : RestEnv} (now : Int)
    {m : RestMethod} (hasks : m.Asks) (hmem : ∀ site, env.env.alloc site = true)
    (hjourn : PlainStr env.journ.val.detail) (hplain : AllPlain m.strs) :
    Written m (m.run env now s).2 := by
  cases m with
  | getRec | getAssets | getAsset | getContrs | getContr | getMarkets | getMarket | getTraders
  | getTrader => exact hi.records.written_read trivial hplain
  | postMarket | putMarket | postTrader | putTrader =>
      exact hi.records.written_change rfl hjourn hplain
  | postOrder trader market ref side lots ticks minLots =>
      cases side with
      | none => exact .of_broken rfl rfl
      | some side => exact hi.postOrder hasks hmem hjourn hplain
  | _ => exact .stub trivial hplain

/-- **What `Rest` writes is JSON**, after any calls: of an exception always, and of a result
exactly if the method is not one of those that write no JSON. -/
theorem rest_writes {s₀ : Service} (h₀ : s₀.serv.Empty) (hrecords : s₀.PlainRecords)
    {env : Nat → RestEnv} (hmem : ∀ i site, (env i).env.alloc site = true)
    (hjourn : ∀ i, PlainStr (env i).journ.val.detail) {calls : List Call}
    (hcalls : ∀ c ∈ calls, c.method.Asks ∧ AllPlain c.method.strs) {c : Call}
    (hasks : c.method.Asks) (hplain : AllPlain c.method.strs) :
    (∀ e, (s₀.rest env calls c).2 = some e → (parse intFormat e.val.toJson).isSome) ∧
      ((s₀.rest env calls c).2 = none →
        ((parse intFormat (s₀.rest env calls c).1).isSome ↔ ¬ c.method.Broken)) := by
  have hi := WriteInv.calls h₀ hrecords hmem hcalls
  have hw := hi.written c.now hasks (hmem calls.length) (hjourn calls.length) hplain
  refine ⟨fun e he => (hw.thrown e he).reads, fun hnone => ⟨fun hsome hbroken => ?_, fun h => ?_⟩⟩
  · have hparse : parse intFormat (s₀.rest env calls c).1 = none := hw.broken hnone hbroken
    rw [hparse] at hsome
    cases hsome
  · exact (hw.value hnone h).reads

namespace Mock

theorem service_plainRecords : service.PlainRecords :=
  ⟨by decide +kernel, by decide +kernel, by decide +kernel, by decide +kernel⟩

/-- MARAYL bids for 10 lots. -/
def bidPosted : Call := ⟨.postOrder marayl.buf market.buf [] (some .buy) 10 12345 0, 0⟩

end Mock

/-- The response to the bid can be read, and what is written of the order afterwards cannot. -/
theorem bid_writes :
    (parse intFormat (Mock.service.rest (fun _ => Mock.restEnv) [] Mock.bidPosted).1).isSome ∧
    ¬ (parse intFormat (Mock.service.rest (fun _ => Mock.restEnv) [Mock.bidPosted]
      ⟨.getOrder Mock.market.buf (some 1), 0⟩).1).isSome := by
  have hjourn : ∀ i : Nat, PlainStr ((fun _ => Mock.restEnv) i).journ.val.detail :=
    fun _ => (by decide +kernel : PlainStr Mock.restEnv.journ.val.detail)
  have hbid : Mock.bidPosted.method.Asks ∧ AllPlain Mock.bidPosted.method.strs :=
    ⟨(by decide : (0 : Int) < 10), by decide +kernel⟩
  have hfirst := @rest_writes Mock.service Mock.service_empty Mock.service_plainRecords
    (fun _ => Mock.restEnv) (fun _ _ => rfl) hjourn [] (by simp) Mock.bidPosted hbid.1 hbid.2
  have hnext := @rest_writes Mock.service Mock.service_empty Mock.service_plainRecords
    (fun _ => Mock.restEnv) (fun _ _ => rfl) hjourn [Mock.bidPosted] (by simpa using hbid)
    ⟨.getOrder Mock.market.buf (some 1), 0⟩ trivial (by decide +kernel)
  refine ⟨(hfirst.2 (by decide +kernel)).mpr (Option.some_ne_none _), fun hsome => ?_⟩
  exact (hnext.2 rfl).mp hsome trivial

end Swirly
