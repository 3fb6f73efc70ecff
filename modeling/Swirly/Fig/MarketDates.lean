import Swirly.Fig.RoundTrip

/-!
# Swirly.Fig.MarketDates

**The dates of a market that is created.** `postMarket` takes two numbers for dates, stores them
as days, and writes the dates of these days. It looks at the order of the days, but not whether
a number shows a date: a day beyond the end of a month is carried into the next one. So a market
has the dates that were asked for exactly if these are dates (`postMarket_dates_iff`).

The calendar is computed in exact integers here and in `int` by the source. Both are the same for
every calendar date up to the year 200000 (`julianDay_faithful`). A number that shows no date may
be carried so far that `int` overflows; such a number is not shown again in either arithmetic.
-/

namespace Swirly

/-- The text of a market, with the dates as texts. -/
def marketText (mnem display contr settlDate expiryDate : List Byte) (state : Nat) : List Byte :=
  chars ['{', '"', 'm', 'n', 'e', 'm', '"', ':', '"'] ++ mnem
    ++ chars ['"', ',', '"', 'd', 'i', 's', 'p', 'l', 'a', 'y', '"', ':', '"'] ++ display
    ++ chars ['"', ',', '"', 'c', 'o', 'n', 't', 'r', '"', ':', '"'] ++ contr
    ++ chars ['"', ',', '"', 's', 'e', 't', 't', 'l', 'D', 'a', 't', 'e', '"', ':'] ++ settlDate
    ++ chars [',', '"', 'e', 'x', 'p', 'i', 'r', 'y', 'D', 'a', 't', 'e', '"', ':'] ++ expiryDate
    ++ chars [',', '"', 's', 't', 'a', 't', 'e', '"', ':'] ++ natText state
    ++ chars ['}']

/-- A date as it was asked for, or `null` for none. -/
def isoText (iso : Int) : List Byte :=
  if iso ≠ 0 then intText iso else chars ['n', 'u', 'l', 'l']

theorem DateOrNone.dateText_eq {iso : Int} (h : DateOrNone iso) :
    dateText (maybeIsoToJd iso) = isoText iso := by
  have hiso := h.maybeJdToIso_maybeIsoToJd
  unfold maybeJdToIso at hiso
  unfold dateText isoText
  split at hiso
  · next hday =>
      have hne : iso ≠ 0 := by
        intro hzero
        rw [hzero] at hday
        exact hday rfl
      rw [if_pos hday, if_pos hne, hiso]
  · next hday => rw [if_neg hday, ← hiso, if_neg (by decide)]

namespace Registry

/-- `Rest::postMarket`, with the fields of a request: what is written of the market that was
created. Dates become days on the way in and dates on the way out. -/
def postMarket (busDay : Int) (alloc : Bool) (mnem display contr : List Byte)
    (settlDate expiryDate : Int) (state : Nat) (s : Registry) :
    Except RecExn (List Byte × Registry) := do
  let settlDay := maybeIsoToJd settlDate
  let expiryDay := maybeIsoToJd expiryDate
  let (book, s) ← s.createMarket busDay alloc mnem display contr settlDay expiryDay state
  .ok (book.toJson, s)

/-- The tests of `createMarket` pass: the contract is known, the days are in order, the name is
free and has the form it must have, and there is memory. -/
structure CreatesMarket (s : Registry) (busDay : Int) (alloc : Bool) (mnem contr : List Byte)
    (settlDay expiryDay : Int) : Prop where
  contr_known : ∃ c ∈ s.contrs, c.buf = contr
  expiry_le : settlDay ≠ 0 → expiryDay ≤ settlDay
  bus_le : settlDay ≠ 0 → busDay ≤ expiryDay
  no_expiry : settlDay = 0 → expiryDay = 0
  mnem_free : s.markets.find? mnem = none
  pattern : mnemPattern mnem = true
  alloc_ok : alloc = true

variable {s s' : Registry} {busDay : Int} {alloc : Bool} {mnem display contr : List Byte}
  {settlDay expiryDay settlDate expiryDate : Int} {state : Nat}

theorem createMarket_of_creates
    (h : s.CreatesMarket busDay alloc mnem contr settlDay expiryDay) :
    s.createMarket busDay alloc mnem display contr settlDay expiryDay state =
      .ok (newMarket (.assign 16 mnem) (.assign 64 display) (.assign 16 contr) settlDay expiryDay
        state 0 0 0 0 0, { s with markets := s.markets.insert (newMarket (.assign 16 mnem)
          (.assign 64 display) (.assign 16 contr) settlDay expiryDay state 0 0 0 0 0) }) := by
  have hcontr : ¬ (s.contrs.all (fun c => c.buf ≠ contr)) = true := by
    simpa using h.contr_known
  have hexpiry := h.expiry_le
  have hbus := h.bus_le
  have hno := h.no_expiry
  unfold createMarket
  rw [if_neg hcontr, if_neg (by omega), if_neg (by omega), if_neg (by omega), h.mnem_free,
    h.pattern, h.alloc_ok]
  rfl

/-- A call that fails a test throws. -/
theorem createMarket_error
    (h : ¬ s.CreatesMarket busDay alloc mnem contr settlDay expiryDay)
    (display : List Byte) (state : Nat) :
    ∃ e, s.createMarket busDay alloc mnem display contr settlDay expiryDay state = .error e := by
  unfold createMarket
  split_ifs with hcontr hexpiry hbus hno hmnem hpattern halloc
  all_goals first
    | exact ⟨_, rfl⟩
    | skip
  refine absurd ⟨by simpa using hcontr, ?_, ?_, ?_, by simpa using hmnem, by simpa using hpattern,
    by simpa using halloc⟩ h
  · omega
  · omega
  · omega

theorem postMarket_of_creates (h : s.CreatesMarket busDay alloc mnem contr
    (maybeIsoToJd settlDate) (maybeIsoToJd expiryDate)) (display : List Byte) (state : Nat) :
    ∃ s', s.postMarket busDay alloc mnem display contr settlDate expiryDate state =
      .ok (marketText (mnem.take 16) (display.take 64) (contr.take 16)
        (dateText (maybeIsoToJd settlDate)) (dateText (maybeIsoToJd expiryDate)) state, s') := by
  unfold postMarket
  dsimp only
  rw [createMarket_of_creates h]
  exact ⟨_, rfl⟩

theorem postMarket_error (h : ¬ s.CreatesMarket busDay alloc mnem contr
    (maybeIsoToJd settlDate) (maybeIsoToJd expiryDate)) (display : List Byte) (state : Nat) :
    ∃ e, s.postMarket busDay alloc mnem display contr settlDate expiryDate state = .error e := by
  obtain ⟨e, herror⟩ := createMarket_error h display state
  refine ⟨e, ?_⟩
  unfold postMarket
  dsimp only
  rw [herror]
  rfl

/-- The market is shown with the dates that were asked for, and both of them are dates. -/
def KeepsDates (s : Registry) (busDay : Int) (alloc : Bool) (mnem display contr : List Byte)
    (settlDate expiryDate : Int) (state : Nat) : Prop :=
  (∀ out s', s.postMarket busDay alloc mnem display contr settlDate expiryDate state =
      .ok (out, s') →
    out = marketText (mnem.take 16) (display.take 64) (contr.take 16) (isoText settlDate)
      (isoText expiryDate) state) ∧
  (¬ (DateOrNone settlDate ∧ DateOrNone expiryDate) →
    ∃ e, s.postMarket busDay alloc mnem display contr settlDate expiryDate state = .error e)

/-- **A market has the dates that were asked for exactly if these are dates**, or the call is
refused for another reason. -/
theorem postMarket_dates_iff (s : Registry) (busDay : Int) (alloc : Bool)
    (mnem display contr : List Byte) (settlDate expiryDate : Int) (state : Nat) :
    s.KeepsDates busDay alloc mnem display contr settlDate expiryDate state ↔
      (DateOrNone settlDate ∧ DateOrNone expiryDate) ∨
        ¬ s.CreatesMarket busDay alloc mnem contr (maybeIsoToJd settlDate)
          (maybeIsoToJd expiryDate) := by
  unfold KeepsDates
  by_cases hcreates : s.CreatesMarket busDay alloc mnem contr (maybeIsoToJd settlDate)
    (maybeIsoToJd expiryDate)
  · obtain ⟨s₁, hok⟩ := postMarket_of_creates hcreates display state
    rw [hok, or_iff_left (not_not_intro hcreates)]
    constructor
    · rintro ⟨-, hreject⟩
      by_contra hno
      obtain ⟨e, herror⟩ := hreject hno
      cases herror
    · rintro ⟨hsettl, hexpiry⟩
      refine ⟨fun out s' h => ?_, fun hno => absurd ⟨hsettl, hexpiry⟩ hno⟩
      cases h
      rw [hsettl.dateText_eq, hexpiry.dateText_eq]
  · obtain ⟨e, herror⟩ := postMarket_error hcreates display state
    rw [herror]
    exact iff_of_true ⟨nofun, fun _ => ⟨e, rfl⟩⟩ (Or.inr hcreates)

end Registry

set_option maxRecDepth 4000 in
/-- **The 31st of February becomes the 3rd of March.** -/
theorem february_carried :
    (∃ s', Mock.oneContr.postMarket (ymdToJd 2014 0 1) true (chars ['a', 'b', 'c'])
      (chars ['A']) (chars ['c']) 20140231 20140231 0 =
        .ok (marketText (chars ['a', 'b', 'c']) (chars ['A']) (chars ['c']) (isoText 20140303)
          (isoText 20140303) 0, s')) ∧
    ¬ Mock.oneContr.KeepsDates (ymdToJd 2014 0 1) true (chars ['a', 'b', 'c']) (chars ['A'])
      (chars ['c']) 20140231 20140231 0 := by
  have hok : ∃ s', Mock.oneContr.postMarket (ymdToJd 2014 0 1) true (chars ['a', 'b', 'c'])
      (chars ['A']) (chars ['c']) 20140231 20140231 0 =
        .ok (marketText (chars ['a', 'b', 'c']) (chars ['A']) (chars ['c']) (isoText 20140303)
          (isoText 20140303) 0, s') := ⟨_, rfl⟩
  refine ⟨hok, fun h => ?_⟩
  obtain ⟨s', hok⟩ := hok
  have hout := h.1 _ _ hok
  revert hout
  decide

end Swirly
