import Swirly.Fig.Registry
import Swirly.Fir.RawString

/-!
# Swirly.Fig.RoundTrip

**Records as text and back.** `toJson` writes the strings of a record between quotes as they
are, and a request reads them. A market or trader that is created from the fields of a
request survives the round trip exactly if its strings hold neither a quote nor a backslash
(`records_survive_iff`); the dates, which are stored as days, and the state always do.
-/

namespace Swirly

open RestRequest (Reads openText nextText rawText)

/-! ### Records as text -/

/-- `Trader::toJson`: the record of the trader. What is in the session is not part of it. -/
def TraderSess.toJson (t : TraderSess) : List Byte :=
  chars ['{', '"', 'm', 'n', 'e', 'm', '"', ':', '"'] ++ t.mnem.buf
    ++ chars ['"', ',', '"', 'd', 'i', 's', 'p', 'l', 'a', 'y', '"', ':', '"'] ++ t.display.buf
    ++ chars ['"', ',', '"', 'e', 'm', 'a', 'i', 'l', '"', ':', '"'] ++ t.email.buf
    ++ chars ['"', '}']

/-- A day as its date, or `null` for none. -/
def dateText (day : Int) : List Byte :=
  if day ≠ 0 then intText (jdToIso day) else chars ['n', 'u', 'l', 'l']

/-- `Market::toJson`: the record of the market. What is in the book is not part of it; the view
shows that. -/
def MarketBook.toJson (b : MarketBook) : List Byte :=
  chars ['{', '"', 'm', 'n', 'e', 'm', '"', ':', '"'] ++ b.mnem.buf
    ++ chars ['"', ',', '"', 'd', 'i', 's', 'p', 'l', 'a', 'y', '"', ':', '"'] ++ b.display.buf
    ++ chars ['"', ',', '"', 'c', 'o', 'n', 't', 'r', '"', ':', '"'] ++ b.contr.buf
    ++ chars ['"', ',', '"', 's', 'e', 't', 't', 'l', 'D', 'a', 't', 'e', '"', ':']
    ++ dateText b.settlDay
    ++ chars [',', '"', 'e', 'x', 'p', 'i', 'r', 'y', 'D', 'a', 't', 'e', '"', ':']
    ++ dateText b.expiryDay
    ++ chars [',', '"', 's', 't', 'a', 't', 'e', '"', ':'] ++ natText b.state
    ++ chars ['}']

/-- A request that is parsed from the text of the trader has its fields. -/
structure TraderSess.Survives (t : TraderSess) (r : RestRequest) : Prop where
  complete : ((r.reset true).parse t.toJson).1 = .ok true
  mnem : ((r.reset true).parse t.toJson).2.mnem = t.mnem.buf
  display : ((r.reset true).parse t.toJson).2.display = t.display.buf
  email : ((r.reset true).parse t.toJson).2.email = t.email.buf

/-- A request that is parsed from the text of the market has its fields. -/
structure MarketBook.Survives (b : MarketBook) (r : RestRequest) : Prop where
  complete : ((r.reset true).parse b.toJson).1 = .ok true
  mnem : ((r.reset true).parse b.toJson).2.mnem = b.mnem.buf
  display : ((r.reset true).parse b.toJson).2.display = b.display.buf
  contr : ((r.reset true).parse b.toJson).2.contr = b.contr.buf
  settlDate : ((r.reset true).parse b.toJson).2.settlDate = maybeJdToIso b.settlDay
  expiryDate : ((r.reset true).parse b.toJson).2.expiryDate = maybeJdToIso b.expiryDay
  state : ((r.reset true).parse b.toJson).2.state = b.state

/-! ### Traders -/

/-- The strings of a trader with their keys. -/
def TraderSess.strings (t : TraderSess) : List (StrField × List Byte) :=
  [(.display, t.display.buf), (.email, t.email.buf)]

theorem TraderSess.toJson_eq (t : TraderSess) :
    t.toJson = Ascii.openBrace :: rawText (.mnem, t.mnem.buf) t.strings
      ++ [Ascii.quote, Ascii.closeBrace] := by
  simp [toJson, rawText, strings, nextText, openText, chars, ReqField.key]

/-- A text that is accepted leads to the final state. -/
theorem feed_done {r : RestRequest} {s : List Byte}
    (h : ((r.reset true).parse s).1 = .ok true) : ((r.reset true).feed s).cs = .done :=
  of_decide_eq_true (RestRequest.parse_ok_iff.mp h).2.symm

theorem TraderSess.plain_of_survives {t : TraderSess} {r : RestRequest} (h : t.Survives r) :
    Plain t.mnem.buf ∧ Plain t.display.buf ∧ Plain t.email.buf := by
  have hdone := feed_done h.complete
  have hfields : ∀ q ∈ (.mnem, t.mnem.buf) :: t.strings,
      (((r.reset true).feed t.toJson).strs q.1).buf = q.2 := by
    rw [← RestRequest.parse_snd]
    simpa [strings] using ⟨h.mnem, h.display, h.email⟩
  rw [t.toJson_eq] at hdone hfields
  have hplain := RestRequest.plain_of_object rfl (by simp [strings]) hdone hfields
    RestRequest.strs_of_done
  simpa [strings] using hplain

theorem TraderSess.doc_of_plain {t : TraderSess} (hmnem : Plain t.mnem.buf)
    (hdisplay : Plain t.display.buf) (hemail : Plain t.email.buf) :
    Doc t.toJson [(.str .mnem, .str t.mnem.buf), (.str .display, .str t.display.buf),
      (.str .email, .str t.email.buf)] := by
  have hms := RestRequest.members_of_plain (.mnem, t.mnem.buf) t.strings
    (by simp [strings, hmnem, hdisplay, hemail])
    (by simpa [strings] using ⟨t.mnem.len_le, t.display.len_le, t.email.len_le⟩)
  have hdoc := Doc.members Spaces.nil Spaces.nil hms Spaces.nil Spaces.nil
  rw [t.toJson_eq]
  simpa [strings] using hdoc

theorem TraderSess.survives_iff (t : TraderSess) (r : RestRequest) :
    t.Survives r ↔ Plain t.mnem.buf ∧ Plain t.display.buf ∧ Plain t.email.buf := by
  refine ⟨plain_of_survives, fun ⟨hmnem, hdisplay, hemail⟩ => ?_⟩
  have hdoc := doc_of_plain hmnem hdisplay hemail
  obtain ⟨hok, hholds⟩ := RestRequest.parse_decides r t.toJson
  have hstrs := (hholds _ hdoc).2.1.strs
  exact ⟨hok.mpr ⟨_, hdoc⟩, hstrs .mnem, hstrs .display, hstrs .email⟩

/-! ### Markets -/

/-- The strings of a market with their keys. -/
def MarketBook.strings (b : MarketBook) : List (StrField × List Byte) :=
  [(.display, b.display.buf), (.contr, b.contr.buf)]

/-- The numbers of a market with their keys. -/
def MarketBook.numbers (b : MarketBook) : List Byte :=
  chars ['"', 's', 'e', 't', 't', 'l', 'D', 'a', 't', 'e', '"', ':'] ++ dateText b.settlDay
    ++ chars [',', '"', 'e', 'x', 'p', 'i', 'r', 'y', 'D', 'a', 't', 'e', '"', ':']
    ++ dateText b.expiryDay
    ++ chars [',', '"', 's', 't', 'a', 't', 'e', '"', ':'] ++ natText b.state

theorem MarketBook.toJson_eq (b : MarketBook) :
    b.toJson = Ascii.openBrace :: rawText (.mnem, b.mnem.buf) b.strings
      ++ ([Ascii.quote, Ascii.comma] ++ b.numbers ++ [Ascii.closeBrace]) := by
  simp [toJson, rawText, strings, numbers, nextText, openText, chars, ReqField.key]

/-- The value that a day is written as. -/
def dateVal (day : Int) : Val := if day ≠ 0 then .num (jdToIso day) else .null

theorem dateText_valueText (f : NumField) {day : Int} (h : 0 ≤ maybeJdToIso day) :
    ValueText (.num f) (dateText day) (dateVal day) := by
  unfold maybeJdToIso at h
  unfold dateText dateVal
  split
  · next hday =>
      rw [if_pos hday] at h
      exact intText_valueText f h
  · exact .null _

theorem dateVal_int (day : Int) : (dateVal day).int = maybeJdToIso day := by
  unfold dateVal maybeJdToIso
  split <;> rfl

/-- The pairs of the numbers of a market. -/
def MarketBook.numberPairs (b : MarketBook) : List (ReqField × Val) :=
  [(.num .settlDate, dateVal b.settlDay), (.num .expiryDate, dateVal b.expiryDay),
    (.num .state, .num b.state)]

/-- The pairs of a market. -/
def MarketBook.pairs (b : MarketBook) : List (ReqField × Val) :=
  [(.str .mnem, .str b.mnem.buf), (.str .display, .str b.display.buf),
    (.str .contr, .str b.contr.buf)] ++ b.numberPairs

theorem MarketBook.numbers_members {b : MarketBook} (hsettl : 0 ≤ maybeJdToIso b.settlDay)
    (hexpiry : 0 ≤ maybeJdToIso b.expiryDay) : Members b.numbers b.numberPairs := by
  have hkey : ∀ {f : ReqField} {k : List Byte}, k.map lower = f.key →
      KeyText f (Ascii.quote :: k ++ Ascii.quote :: [] ++ Ascii.colon :: []) :=
    fun hk => .mk hk Spaces.nil Spaces.nil
  have hsettlKey := hkey (f := .num .settlDate)
    (k := chars ['s', 'e', 't', 't', 'l', 'D', 'a', 't', 'e']) (by decide)
  have hexpiryKey := hkey (f := .num .expiryDate)
    (k := chars ['e', 'x', 'p', 'i', 'r', 'y', 'D', 'a', 't', 'e']) (by decide)
  have hstateKey := hkey (f := .num .state) (k := chars ['s', 't', 'a', 't', 'e']) (by decide)
  have hone := Members.one hsettlKey (dateText_valueText .settlDate hsettl)
  have htwo := hone.snoc Spaces.nil Spaces.nil hexpiryKey (dateText_valueText .expiryDate hexpiry)
  have hthree := htwo.snoc Spaces.nil Spaces.nil hstateKey (natText_valueText .state b.state)
  simpa [numbers, numberPairs, chars] using hthree

/-- Pairs of numbers leave the strings alone. -/
theorem foldl_assign_strs {d : ReqFields} {ps : List (ReqField × Val)}
    (hof : ∀ p ∈ ps, p.2.Of p.1) (hnum : ∀ p ∈ ps, ∀ f, p.1 ≠ .str f) :
    (ps.foldl (fun d p => d.assign p.1 p.2) d).strs = d.strs := by
  induction ps generalizing d with
  | nil => rfl
  | cons p ps ih =>
      have hsame := ReqFields.assign_sameBut (d := d) (hof p List.mem_cons_self)
      rw [List.foldl_cons, ih (fun q hq => hof q (List.mem_cons_of_mem p hq))
        (fun q hq => hnum q (List.mem_cons_of_mem p hq))]
      funext f
      exact hsame.strs f (hnum p List.mem_cons_self f)

/-- After the strings of a market, its numbers leave them alone. -/
theorem MarketBook.strs_of_numbers {b : MarketBook} (hsettl : 0 ≤ maybeJdToIso b.settlDay)
    (hexpiry : 0 ≤ maybeJdToIso b.expiryDay) {s : List Byte} {r : RestRequest} (hreads : Reads s r)
    (hdone : (r.feed ([Ascii.quote, Ascii.comma] ++ b.numbers ++ [Ascii.closeBrace])).cs = .done) :
    (r.feed ([Ascii.quote, Ascii.comma] ++ b.numbers ++ [Ascii.closeBrace])).strs = r.strs := by
  have hms := numbers_members hsettl hexpiry
  obtain ⟨buf, hbuf⟩ : ∃ buf, [Ascii.quote, Ascii.comma] ++ b.numbers ++ [Ascii.closeBrace] =
      Ascii.quote :: Ascii.comma :: Ascii.quote :: 115 :: buf := by
    simp [numbers, chars]
  have hok : (r.feed (Ascii.quote :: Ascii.comma :: Ascii.quote :: 115 :: buf)).cs ≠ .error := by
    rw [← hbuf, hdone]
    decide
  have hnext := RestRequest.feed_next hreads (by unfold Leaves; decide) hok
  obtain ⟨hfields, -⟩ := RestRequest.feed_members (r := r.feed [Ascii.quote, Ascii.comma]) hms
    (by rw [hnext.1]; rfl) Ascii.closeBrace (Or.inr (Or.inr rfl))
  rw [RestRequest.feed_append, RestRequest.feed_append, RestRequest.feed_cons,
    RestRequest.feed_nil, hfields, foldl_assign_strs hms.of (by simp [numberPairs]), hnext.2]

theorem MarketBook.plain_of_survives {b : MarketBook} {r : RestRequest} (h : b.Survives r)
    (hsettl : 0 ≤ maybeJdToIso b.settlDay) (hexpiry : 0 ≤ maybeJdToIso b.expiryDay) :
    Plain b.mnem.buf ∧ Plain b.display.buf ∧ Plain b.contr.buf := by
  have hdone := feed_done h.complete
  have hfields : ∀ q ∈ (.mnem, b.mnem.buf) :: b.strings,
      (((r.reset true).feed b.toJson).strs q.1).buf = q.2 := by
    rw [← RestRequest.parse_snd]
    simpa [strings] using ⟨h.mnem, h.display, h.contr⟩
  rw [b.toJson_eq] at hdone hfields
  have hplain := RestRequest.plain_of_object rfl (by simp [strings]) hdone hfields
    (strs_of_numbers hsettl hexpiry)
  simpa [strings] using hplain

/-- The numbers of a market are of its fields' types. -/
structure MarketBook.Fits (b : MarketBook) : Prop where
  settl_nonneg : 0 ≤ maybeJdToIso b.settlDay
  settl_fits : NumField.settlDate.Fits (maybeJdToIso b.settlDay)
  expiry_nonneg : 0 ≤ maybeJdToIso b.expiryDay
  expiry_fits : NumField.expiryDate.Fits (maybeJdToIso b.expiryDay)
  state_fits : NumField.state.Fits b.state

theorem MarketBook.doc_of_plain {b : MarketBook} (hfits : b.Fits) (hmnem : Plain b.mnem.buf)
    (hdisplay : Plain b.display.buf) (hcontr : Plain b.contr.buf) :
    Doc b.toJson b.pairs := by
  have hms := RestRequest.members_of_plain (.mnem, b.mnem.buf) b.strings
    (by simp [strings, hmnem, hdisplay, hcontr])
    (by simpa [strings] using ⟨b.mnem.len_le, b.display.len_le, b.contr.len_le⟩)
  have hall := hms.append (numbers_members hfits.settl_nonneg hfits.expiry_nonneg)
  have hdoc := Doc.members Spaces.nil Spaces.nil hall Spaces.nil Spaces.nil
  rw [b.toJson_eq]
  simpa [strings, pairs] using hdoc

theorem MarketBook.survives_iff {b : MarketBook} (hfits : b.Fits) (r : RestRequest) :
    b.Survives r ↔ Plain b.mnem.buf ∧ Plain b.display.buf ∧ Plain b.contr.buf := by
  refine ⟨fun h => plain_of_survives h hfits.settl_nonneg hfits.expiry_nonneg,
    fun ⟨hmnem, hdisplay, hcontr⟩ => ?_⟩
  have hdoc := doc_of_plain hfits hmnem hdisplay hcontr
  obtain ⟨hok, hholds⟩ := RestRequest.parse_decides r b.toJson
  obtain ⟨-, hfields, hnums⟩ := hholds _ hdoc
  have hnum : ∀ {f : NumField} {n : Int}, (last (.num f) b.pairs).int = n → f.Fits n →
      ((r.reset true).parse b.toJson).2.nums f = n := by
    intro f n hlast hfit
    rw [← hlast] at hfit ⊢
    exact hnums f hfit
  exact ⟨hok.mpr ⟨_, hdoc⟩, hfields.strs .mnem, hfields.strs .display, hfields.strs .contr,
    hnum (dateVal_int b.settlDay) hfits.settl_fits,
    hnum (dateVal_int b.expiryDay) hfits.expiry_fits, hnum rfl hfits.state_fits⟩

/-! ### Records that are created -/

set_option maxRecDepth 2000 in
theorem mnemChar_plain : ∀ b : Byte, mnemChar b = true →
    b ≠ Ascii.quote ∧ b ≠ Ascii.backslash := by decide

/-- A mnemonic that is accepted is stored whole and is plain. -/
theorem mnem_of_pattern {mnem : List Byte} (h : mnemPattern mnem = true) :
    (FixedString.assign 16 mnem).buf = mnem ∧ Plain mnem := by
  simp only [mnemPattern, Bool.and_eq_true, decide_eq_true_eq, List.all_eq_true] at h
  obtain ⟨⟨-, hlen⟩, hchars⟩ := h
  exact ⟨List.take_of_length_le hlen, fun b hb => mnemChar_plain b (hchars b hb)⟩

/-- A string of a request is stored whole. -/
theorem assign_strs (d : ReqFields) (f : StrField) :
    (FixedString.assign f.max (d.strs f).buf).buf = (d.strs f).buf :=
  List.take_of_length_le (d.strs f).len_le

theorem Registry.createMarket_ok {busDay : Int} {alloc : Bool} {mnem display contr : List Byte}
    {settlDay expiryDay : Int} {state : Nat} {g g' : Registry} {b : MarketBook}
    (h : g.createMarket busDay alloc mnem display contr settlDay expiryDay state = .ok (b, g')) :
    mnemPattern mnem = true ∧
      b = newMarket (.assign 16 mnem) (.assign 64 display) (.assign 16 contr) settlDay expiryDay
        state 0 0 0 0 0 := by
  unfold Registry.createMarket at h
  split_ifs at h with _ _ _ _ _ hpattern _
  cases h
  exact ⟨by simpa using hpattern, rfl⟩

theorem Registry.createTrader_eq {alloc : Bool} {mnem display email : List Byte}
    {g g' : Registry} {t : TraderSess} (h : g.createTrader alloc mnem display email = .ok (t, g')) :
    mnemPattern mnem = true ∧
      t = newTrader (.assign 16 mnem) (.assign 64 display) (.assign 64 email) := by
  have hcreates := Registry.createTrader_ok_iff.mp ⟨_, h⟩
  rw [Registry.createTrader_ok hcreates] at h
  cases h
  exact ⟨hcreates.pattern, rfl⟩

/-- The fields of an accepted request. -/
theorem nums_fits {r : RestRequest} {s : List Byte}
    (hok : ((r.reset true).parse s).1 = .ok true) (f : NumField) :
    f.Fits (((r.reset true).parse s).2.nums f) := by
  obtain ⟨hdecides, hholds⟩ := RestRequest.parse_decides r s
  obtain ⟨ps, hdoc⟩ := hdecides.mp hok
  rw [(hholds ps hdoc).2.1.nums]
  exact f.stored_fits _

/-- **Records survive exactly if their strings are plain.** The fields are those of a request,
and its dates are dates of the calendar or none. -/
theorem records_survive_iff {r₀ d : RestRequest} {s : List Byte}
    (hd : (r₀.reset true).parse s = (.ok true, d)) :
    (∀ (g : Registry) alloc t g',
      g.createTrader alloc d.mnem d.display d.email = .ok (t, g') →
      ((∀ r, t.Survives r) ↔ Plain d.display ∧ Plain d.email)) ∧
    ∀ (g : Registry) busDay alloc b g', DateOrNone d.settlDate → DateOrNone d.expiryDate →
      g.createMarket busDay alloc d.mnem d.display d.contr (maybeIsoToJd d.settlDate)
        (maybeIsoToJd d.expiryDate) d.state.toNat = .ok (b, g') →
      ((∀ r, b.Survives r) ↔ Plain d.display ∧ Plain d.contr) := by
  have hne : Nonempty RestRequest := ⟨.new⟩
  have hdisplay : (FixedString.assign 64 d.display).buf = d.display :=
    assign_strs d.toReqFields .display
  have hemail : (FixedString.assign 64 d.email).buf = d.email := assign_strs d.toReqFields .email
  have hcontr : (FixedString.assign 16 d.contr).buf = d.contr := assign_strs d.toReqFields .contr
  have hfits : ∀ f : NumField, f.Fits (d.nums f) := by
    intro f
    have h := nums_fits (r := r₀) (s := s) (by rw [hd]) f
    rwa [hd] at h
  constructor
  · intro g alloc t g' hcreate
    obtain ⟨hpattern, rfl⟩ := Registry.createTrader_eq hcreate
    obtain ⟨hmnem, hplain⟩ := mnem_of_pattern hpattern
    simp only [TraderSess.survives_iff, forall_const]
    simp only [newTrader, hmnem, hdisplay, hemail, hplain, true_and]
  · intro g busDay alloc b g' hsettl hexpiry hcreate
    obtain ⟨hpattern, rfl⟩ := Registry.createMarket_ok hcreate
    obtain ⟨hmnem, hplain⟩ := mnem_of_pattern hpattern
    have hstate : (d.state.toNat : Int) = d.state := Int.toNat_of_nonneg (hfits .state).1
    have hnumbers : (newMarket (.assign 16 d.mnem) (.assign 64 d.display) (.assign 16 d.contr)
        (maybeIsoToJd d.settlDate) (maybeIsoToJd d.expiryDate) d.state.toNat 0 0 0 0 0).Fits := by
      refine ⟨?_, ?_, ?_, ?_, ?_⟩
      · exact hsettl.maybeJdToIso_maybeIsoToJd.symm ▸ hsettl.nonneg
      · exact hsettl.maybeJdToIso_maybeIsoToJd.symm ▸ hfits .settlDate
      · exact hexpiry.maybeJdToIso_maybeIsoToJd.symm ▸ hexpiry.nonneg
      · exact hexpiry.maybeJdToIso_maybeIsoToJd.symm ▸ hfits .expiryDate
      · exact hstate.symm ▸ hfits .state
    simp only [MarketBook.survives_iff hnumbers, forall_const]
    simp only [newMarket, hmnem, hdisplay, hcontr, hplain, true_and]

namespace Mock

/-- `{"mnem":"abc","display":"A B","email":"e"}` -/
def plainTrader : List Byte :=
  chars ['{', '"', 'm', 'n', 'e', 'm', '"', ':', '"', 'a', 'b', 'c', '"', ',', '"', 'd', 'i', 's',
    'p', 'l', 'a', 'y', '"', ':', '"', 'A', ' ', 'B', '"', ',', '"', 'e', 'm', 'a', 'i', 'l', '"',
    ':', '"', 'e', '"', '}']

/-- `{"mnem":"abc","display":"A\"B","email":"e"}` -/
def quotedTrader : List Byte :=
  chars ['{', '"', 'm', 'n', 'e', 'm', '"', ':', '"', 'a', 'b', 'c', '"', ',', '"', 'd', 'i', 's',
    'p', 'l', 'a', 'y', '"', ':', '"', 'A', '\\', '"', 'B', '"', ',', '"', 'e', 'm', 'a', 'i', 'l',
    '"', ':', '"', 'e', '"', '}']

/-- `{"mnem":"abc","display":"A","contr":"c","settlDate":20140315,"expiryDate":20140314}` -/
def datedMarket : List Byte :=
  chars ['{', '"', 'm', 'n', 'e', 'm', '"', ':', '"', 'a', 'b', 'c', '"', ',', '"', 'd', 'i', 's',
    'p', 'l', 'a', 'y', '"', ':', '"', 'A', '"', ',', '"', 'c', 'o', 'n', 't', 'r', '"', ':', '"',
    'c', '"', ',', '"', 's', 'e', 't', 't', 'l', 'D', 'a', 't', 'e', '"', ':', '2', '0', '1', '4',
    '0', '3', '1', '5', ',', '"', 'e', 'x', 'p', 'i', 'r', 'y', 'D', 'a', 't', 'e', '"', ':', '2',
    '0', '1', '4', '0', '3', '1', '4', '}']

/-- No records but a contract. -/
def oneContr : Registry := .load [.assign 16 (chars ['c'])] .empty .empty

/-- The fields of a request. -/
def fields (s : List Byte) : ReqFields := ((RestRequest.new.reset true).parse s).2.toReqFields

/-- A trader with the fields of a request. -/
def traderOf (d : ReqFields) : TraderSess :=
  newTrader (.assign 16 d.mnem) (.assign 64 d.display) (.assign 64 d.email)

/-- A market with the fields of a request. -/
def marketOf (d : ReqFields) : MarketBook :=
  newMarket (.assign 16 d.mnem) (.assign 64 d.display) (.assign 16 d.contr)
    (maybeIsoToJd d.settlDate) (maybeIsoToJd d.expiryDate) d.state.toNat 0 0 0 0 0

end Mock

set_option maxRecDepth 4000 in
theorem plain_records_survive :
    (∀ r, (Mock.traderOf (Mock.fields Mock.plainTrader)).Survives r) ∧
    ∀ r, (Mock.marketOf (Mock.fields Mock.datedMarket)).Survives r := by
  constructor
  · have hd : (RestRequest.new.reset true).parse Mock.plainTrader = (.ok true, _) :=
      Prod.ext (by decide) rfl
    exact ((records_survive_iff hd).1 Mock.oneContr true _ _
      (Registry.createTrader_ok ⟨by decide, by decide, by decide, rfl⟩)).mpr (by decide)
  · have hd : (RestRequest.new.reset true).parse Mock.datedMarket = (.ok true, _) :=
      Prod.ext (by decide) rfl
    have hdate : ∀ mday, 1 ≤ mday → mday ≤ 31 → DateOrNone (ymdToIso 2014 (3 - 1) mday) :=
      fun mday hpos hle => .date ⟨by decide, by decide, by decide, hpos, hle⟩
    have hsettl : (Mock.fields Mock.datedMarket).settlDate = ymdToIso 2014 (3 - 1) 15 := by decide
    have hexpiry : (Mock.fields Mock.datedMarket).expiryDate = ymdToIso 2014 (3 - 1) 14 := by
      decide
    exact ((records_survive_iff hd).2 Mock.oneContr 0 true
      (Mock.marketOf (Mock.fields Mock.datedMarket)) _
      (hsettl ▸ hdate 15 (by decide) (by decide)) (hexpiry ▸ hdate 14 (by decide) (by decide))
      rfl).mpr (by decide)

set_option maxRecDepth 4000 in
/-- **A display with a quote is stored, and what is written of it is no request.** -/
theorem quoted_display_lost :
    ((RestRequest.new.reset true).parse Mock.quotedTrader).1 = .ok true ∧
    (∃ g', Mock.oneContr.createTrader true (Mock.fields Mock.quotedTrader).mnem
      (Mock.fields Mock.quotedTrader).display (Mock.fields Mock.quotedTrader).email =
        .ok (Mock.traderOf (Mock.fields Mock.quotedTrader), g')) ∧
    ((RestRequest.new.reset true).parse (Mock.traderOf (Mock.fields Mock.quotedTrader)).toJson).1 ≠
      .ok true ∧
    ¬ ∀ r, (Mock.traderOf (Mock.fields Mock.quotedTrader)).Survives r := by
  have hlost : ((RestRequest.new.reset true).parse
      (Mock.traderOf (Mock.fields Mock.quotedTrader)).toJson).1 ≠ .ok true := by decide
  exact ⟨by decide, ⟨_, Registry.createTrader_ok ⟨by decide, by decide, by decide, rfl⟩⟩, hlost,
    fun h => hlost (h .new).complete⟩

end Swirly
