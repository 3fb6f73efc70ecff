import Swirly.Ash.JulianDay
import Swirly.Lib.Trace
import Swirly.Fig.Load

/-!
# Swirly.Fig.Registry

**The records of the service**: the markets and traders, and the index of the traders by
email. `createMarket`, `createTrader` and `updateTrader` are the calls of `Serv` that add and
change records; the rest of `Serv` is left out here, as they leave it alone.

`createTrader` looks for the email it is given, and stores the email cut to 64 bytes. So the
index identifies the traders exactly as long as no email that is cut meets a stored one
(`emailIdx_identifies_iff`).
-/

namespace Swirly

open Lib (KeySet Traced)

/-- The characters of a byte string, as a message shows them. Names are ASCII; bytes above that
become the characters of Latin-1. -/
def text (l : List Byte) : String := String.ofList (l.map (fun b => Char.ofNat b))

/-- What the calls throw, with the names that the messages are made of. Those that are not there
are a 404, those that exist already and invalid ones a 400 response. -/
inductive RecExn
  | contrNotFound (contr : List Byte)
  | settlBeforeExpiry
  | expiryBeforeBus
  | expiryWithoutSettl
  | marketExists (mnem : List Byte)
  | traderExists (mnem : List Byte)
  | emailInUse (email : List Byte)
  | traderNotFound (mnem : List Byte)
  | invalidMnem (mnem : List Byte)
  | badAlloc
  deriving DecidableEq

/-- The message of an exception, word for word. Names are shown as they were asked for, not as
they were cut. -/
def RecExn.what : RecExn → String
  | contrNotFound contr => "contr '" ++ text contr ++ "' does not exist"
  | settlBeforeExpiry => "settl-day before expiry-day"
  | expiryBeforeBus => "expiry-day before bus-day"
  | expiryWithoutSettl => "expiry-day without settl-day"
  | marketExists mnem => "market '" ++ text mnem ++ "' already exists"
  | traderExists mnem => "trader '" ++ text mnem ++ "' already exists"
  | emailInUse email => "email '" ++ text email ++ "' is already in use"
  | traderNotFound mnem => "trader '" ++ text mnem ++ "' does not exist"
  | invalidMnem mnem => "invalid mnem '" ++ text mnem ++ "'"
  | badAlloc => "std::bad_alloc"

/-- A character of `[0-9A-Za-z-._]`, the class that the pattern repeats. Letters are not folded,
so names differ in their case. -/
def mnemChar (b : Byte) : Bool :=
  (48 ≤ b && b ≤ 57) || (65 ≤ b && b ≤ 90) || (97 ≤ b && b ≤ 122) || b = 45 || b = 46 || b = 95

/-- `mnemPattern`: 3 to 16 of these. The pattern is matched by the factory of the service, after
the tests for names that exist. -/
def mnemPattern (mnem : List Byte) : Bool :=
  3 ≤ mnem.length && mnem.length ≤ 16 && mnem.all mnemChar

/-- `MarketSet`: the markets in the order of their mnemonics, at most one for each. -/
abbrev MarketSet := KeySet (fun b : MarketBook => b.mnem.buf)

/-- `TraderSet`: the traders in the order of their mnemonics, at most one for each. -/
abbrev TraderSet := KeySet (fun u : TraderSess => u.mnem.buf)

/-- A trader as a member of a `TraderSessSet`: linked by address there, named by its mnemonic
here. The email of a trader never changes. -/
structure EmailNode where
  email : Email
  trader : Mnem
  deriving DecidableEq

/-- `TraderSessSet`: at most one trader for each email. It is hashed, and what it iterates
over is never asked. -/
abbrev TraderSessSet := KeySet (fun n : EmailNode => n.email.buf)

/-- The entry of a trader in the index. -/
def TraderSess.emailNode (trader : TraderSess) : EmailNode := ⟨trader.email, trader.mnem⟩

/-- `setDisplay`: the display is cut to the 64 bytes that the field holds. Neither the mnemonic
nor the email can be changed. -/
def TraderSess.setDisplay (display : List Byte) (u : TraderSess) : TraderSess :=
  { u with display := .assign 64 display }

theorem TraderSess.setDisplay_key (display : List Byte) (u : TraderSess) :
    (u.setDisplay display).mnem.buf = u.mnem.buf := rfl

/-- `TraderSessSet::insert`: a trader whose email is in the index already is not taken. The caller
does not learn of it. -/
def TraderSessSet.insert (idx : TraderSessSet) (trader : TraderSess) : TraderSessSet :=
  KeySet.insert idx trader.emailNode

/-- The records in `Serv::Impl`, without what orders add to them. Claims about names, dates and
emails are about this part of the service alone. -/
structure Registry where
  contrs : List Mnem
  markets : MarketSet
  traders : TraderSet
  emailIdx : TraderSessSet

namespace Registry

/-- The constructor of `Serv`: the records of the model, and their index. -/
def load (contrs : List Mnem) (markets : MarketSet) (traders : TraderSet) : Registry :=
  { contrs, markets, traders, emailIdx := traders.elems.foldl TraderSessSet.insert .empty }

/-- `findTraderByEmail`: whoever the index has for the email. It compares all of the bytes it is
given with the bytes that the field has kept. -/
def findTraderByEmail (s : Registry) (email : List Byte) : Option Mnem :=
  (s.emailIdx.find? email).map EmailNode.trader

/-- `createMarket`, on the business day `busDay`. The tests come in the order of the source, the
pattern of the mnemonic after that for a market with the name; the allocation comes last. -/
def createMarket (busDay : Int) (alloc : Bool) (mnem display contr : List Byte)
    (settlDay expiryDay : Int) (state : Nat) (s : Registry) :
    Except RecExn (MarketBook × Registry) :=
  if s.contrs.all (fun c => c.buf ≠ contr) then .error (.contrNotFound contr)
  else if settlDay ≠ 0 ∧ settlDay < expiryDay then .error .settlBeforeExpiry
  else if settlDay ≠ 0 ∧ expiryDay < busDay then .error .expiryBeforeBus
  else if settlDay = 0 ∧ expiryDay ≠ 0 then .error .expiryWithoutSettl
  else if (s.markets.find? mnem).isSome then .error (.marketExists mnem)
  else if mnemPattern mnem = false then .error (.invalidMnem mnem)
  else if alloc = false then .error .badAlloc
  else
    let market := newMarket (.assign 16 mnem) (.assign 64 display) (.assign 16 contr) settlDay
      expiryDay state 0 0 0 0 0
    .ok (market, { s with markets := s.markets.insert market })

/-- `createTrader`. The tests come in the order of the source, the email's on all of the bytes
that were given, and the pattern after them; the allocation comes last. -/
def createTrader (alloc : Bool) (mnem display email : List Byte) (s : Registry) :
    Except RecExn (TraderSess × Registry) :=
  if (s.traders.find? mnem).isSome then .error (.traderExists mnem)
  else if (s.emailIdx.find? email).isSome then .error (.emailInUse email)
  else if mnemPattern mnem = false then .error (.invalidMnem mnem)
  else if alloc = false then .error .badAlloc
  else
    let trader := newTrader (.assign 16 mnem) (.assign 64 display) (.assign 64 email)
    -- Whether the index took the trader is not looked at.
    .ok (trader, { s with
      traders := s.traders.insert trader
      emailIdx := TraderSessSet.insert s.emailIdx trader })

/-- `updateTrader`: only the display can be changed. A name that is not there throws, and nothing
is changed. -/
def updateTrader (mnem display : List Byte) (s : Registry) :
    Except RecExn (TraderSess × Registry) :=
  match s.traders.find? mnem with
  | none => .error (.traderNotFound mnem)
  | some trader =>
    let traders := s.traders.modify mnem (TraderSess.setDisplay display)
      (TraderSess.setDisplay_key display)
    .ok (trader.setDisplay display, { s with traders })

end Registry

/-- The calls that are about the traders, and whether the allocation in them succeeds. Market
calls leave the index of emails alone. -/
inductive TraderCall
  | createTrader (alloc : Bool) (mnem display email : List Byte)
  | updateTrader (mnem display : List Byte)

/-- The call and what it returns or throws. -/
def TraderCall.run (s : Registry) : TraderCall → Except RecExn (TraderSess × Registry)
  | createTrader alloc mnem display email => s.createTrader alloc mnem display email
  | updateTrader mnem display => s.updateTrader mnem display

/-- The records after a call; one that throws leaves them alone. -/
def TraderCall.apply (s : Registry) (call : TraderCall) : Registry :=
  match call.run s with
  | .ok (_, s') => s'
  | .error _ => s

/-- No two traders have one email, and the index gives every trader for the trader's email. -/
structure Registry.EmailsIdentify (s : Registry) : Prop where
  distinct : ∀ t ∈ s.traders.elems, ∀ u ∈ s.traders.elems, t.email = u.email → t = u
  find : ∀ t ∈ s.traders.elems, s.findTraderByEmail t.email.buf = some t.mnem

/-- The tests of `createTrader` pass: the name and the email are free, the name has the form it
must have, and there is memory for the session. -/
structure Registry.Creates (s : Registry) (alloc : Bool) (mnem email : List Byte) : Prop where
  mnem_free : s.traders.find? mnem = none
  email_free : s.emailIdx.find? email = none
  pattern : mnemPattern mnem = true
  alloc_ok : alloc = true

/-- A trader that is created has an email of at most 64 bytes, or one whose first 64 bytes are
the email of no trader. -/
def TraderCall.KeepsApart (s : Registry) : TraderCall → Prop
  | createTrader alloc mnem _ email => s.Creates alloc mnem email → 64 < email.length →
      ∀ t ∈ s.traders.elems, t.email.buf ≠ email.take 64
  | updateTrader _ _ => True

/-! ### What the calls do -/

section Calls

variable {s s' : Registry} {alloc : Bool} {mnem display email : List Byte} {trader : TraderSess}
  {call : TraderCall}

theorem Registry.createTrader_ok (h : s.Creates alloc mnem email) :
    s.createTrader alloc mnem display email =
      .ok (newTrader (.assign 16 mnem) (.assign 64 display) (.assign 64 email),
        { s with
          traders := s.traders.insert
            (newTrader (.assign 16 mnem) (.assign 64 display) (.assign 64 email))
          emailIdx := TraderSessSet.insert s.emailIdx
            (newTrader (.assign 16 mnem) (.assign 64 display) (.assign 64 email)) }) := by
  unfold Registry.createTrader
  simp only [h.mnem_free, h.email_free, h.pattern, h.alloc_ok, Option.isSome_none,
    Bool.false_eq_true, if_false, Bool.true_eq_false]

/-- A call that fails a test throws. -/
theorem Registry.createTrader_error (h : ¬ s.Creates alloc mnem email) (display : List Byte) :
    ∃ e, s.createTrader alloc mnem display email = .error e := by
  unfold Registry.createTrader
  split
  · exact ⟨_, rfl⟩
  · next hmnem =>
      split
      · exact ⟨_, rfl⟩
      · next hemail =>
          split
          · exact ⟨_, rfl⟩
          · next hpattern =>
              split
              · exact ⟨_, rfl⟩
              · next halloc =>
                  exact absurd ⟨by simpa using hmnem, by simpa using hemail,
                    by simpa using hpattern, by simpa using halloc⟩ h

theorem Registry.createTrader_ok_iff :
    (∃ r, s.createTrader alloc mnem display email = .ok r) ↔ s.Creates alloc mnem email := by
  constructor
  · rintro ⟨r, hok⟩
    by_contra hno
    obtain ⟨e, herror⟩ := Registry.createTrader_error hno display
    rw [herror] at hok
    cases hok
  · intro h
    exact ⟨_, Registry.createTrader_ok h⟩

theorem TraderCall.apply_of_ok (h : call.run s = .ok (trader, s')) : call.apply s = s' := by
  unfold TraderCall.apply
  rw [h]

theorem TraderCall.apply_of_error {e : RecExn} (h : call.run s = .error e) :
    call.apply s = s := by
  unfold TraderCall.apply
  rw [h]

theorem TraderCall.apply_create (h : s.Creates alloc mnem email) :
    (TraderCall.createTrader alloc mnem display email).apply s =
      { s with
        traders := s.traders.insert
          (newTrader (.assign 16 mnem) (.assign 64 display) (.assign 64 email))
        emailIdx := TraderSessSet.insert s.emailIdx
          (newTrader (.assign 16 mnem) (.assign 64 display) (.assign 64 email)) } :=
  TraderCall.apply_of_ok (Registry.createTrader_ok h)

theorem TraderCall.apply_no_create (h : ¬ s.Creates alloc mnem email) :
    (TraderCall.createTrader alloc mnem display email).apply s = s := by
  obtain ⟨e, herror⟩ := Registry.createTrader_error h display
  exact TraderCall.apply_of_error herror

/-- An update changes the display of the trader, if there is one. -/
theorem TraderCall.apply_update :
    (TraderCall.updateTrader mnem display).apply s =
      { s with
        traders := (s.traders.modify mnem (TraderSess.setDisplay display)
          (TraderSess.setDisplay_key display)) } := by
  unfold TraderCall.apply TraderCall.run Registry.updateTrader
  cases hfind : s.traders.find? mnem with
  | none =>
      rw [KeySet.modify_of_find?_none hfind]
      simp only [hfind]
  | some t => simp only [hfind]

end Calls

/-! ### The index -/

/-- What the calls preserve: the index has traders under their emails, and an entry for every
trader's email. -/
structure Registry.Linked (s : Registry) : Prop where
  entries : ∀ n ∈ s.emailIdx.elems, ∃ t ∈ s.traders.elems, n = t.emailNode
  indexed : ∀ t ∈ s.traders.elems, ∃ n ∈ s.emailIdx.elems, n.email = t.email

section Index

variable {s s' : Registry} {idx : TraderSessSet} {t u : TraderSess} {call : TraderCall}

theorem TraderSessSet.mem_insert {n : EmailNode} (hn : n ∈ (idx.insert t).elems) :
    n = t.emailNode ∨ n ∈ idx.elems := KeySet.mem_of_mem_insert hn

/-- After an insertion the index has the entries it had, and one for the trader's email. -/
theorem TraderSessSet.insert_indexes (idx : TraderSessSet) (t : TraderSess) :
    (∃ n ∈ (idx.insert t).elems, n.email = t.email) ∧
      ∀ n ∈ idx.elems, n ∈ (idx.insert t).elems := by
  cases hfind : idx.find? t.email.buf with
  | none =>
      have hmem := fun n => KeySet.mem_insert (x := n) (a := t.emailNode) hfind
      exact ⟨⟨_, (hmem _).mpr (Or.inl rfl), rfl⟩, fun n hn => (hmem n).mpr (Or.inr hn)⟩
  | some m =>
      have hsame : idx.insert t = idx := KeySet.insert_of_mem (a := t.emailNode) hfind
      obtain ⟨hm, hkey⟩ := KeySet.mem_of_find? hfind
      rw [hsame]
      exact ⟨⟨m, hm, FixedString.ext hkey⟩, fun n hn => hn⟩

/-- Inserting one trader after the other. -/
theorem TraderSessSet.foldl_insert (traders : List TraderSess) (idx : TraderSessSet) :
    (∀ n ∈ (traders.foldl TraderSessSet.insert idx).elems,
      (∃ t ∈ traders, n = t.emailNode) ∨ n ∈ idx.elems) ∧
    (∀ t ∈ traders, ∃ n ∈ (traders.foldl TraderSessSet.insert idx).elems, n.email = t.email) ∧
    ∀ n ∈ idx.elems, n ∈ (traders.foldl TraderSessSet.insert idx).elems := by
  induction traders generalizing idx with
  | nil => simp
  | cons t traders ih =>
      obtain ⟨hentries, hindexed, hkept⟩ := ih (idx.insert t)
      obtain ⟨⟨m, hm, hemail⟩, hold⟩ := idx.insert_indexes t
      refine ⟨fun n hn => ?_, fun u hu => ?_, fun n hn => hkept n (hold n hn)⟩
      · rcases hentries n hn with ⟨u, hu, rfl⟩ | hn
        · exact Or.inl ⟨u, List.mem_cons_of_mem t hu, rfl⟩
        · exact (TraderSessSet.mem_insert hn).imp_left (fun heq => ⟨t, List.mem_cons_self, heq⟩)
      · rcases List.mem_cons.mp hu with rfl | hu
        · exact ⟨m, hkept m hm, hemail⟩
        · exact hindexed u hu

theorem Registry.load_linked (contrs : List Mnem) (markets : MarketSet) (traders : TraderSet) :
    (Registry.load contrs markets traders).Linked := by
  obtain ⟨hentries, hindexed, -⟩ :=
    TraderSessSet.foldl_insert traders.elems .empty
  refine ⟨fun n hn => ?_, hindexed⟩
  rcases hentries n hn with h | h
  · exact h
  · cases h

/-- With the index linked to the traders, distinct emails are all it takes. -/
theorem Registry.Linked.identify_iff (hl : s.Linked) :
    s.EmailsIdentify ↔ ∀ t ∈ s.traders.elems, ∀ u ∈ s.traders.elems, t.email = u.email → t = u := by
  refine ⟨Registry.EmailsIdentify.distinct, fun hdistinct => ⟨hdistinct, fun t ht => ?_⟩⟩
  obtain ⟨n, hn, hemail⟩ := hl.indexed t ht
  obtain ⟨u, hu, rfl⟩ := hl.entries n hn
  unfold Registry.findTraderByEmail
  rw [← hdistinct u hu t ht hemail]
  exact congrArg (Option.map EmailNode.trader) (KeySet.find?_of_mem hn)

/-- A new trader has the name that was asked for: it is not too long. -/
theorem Registry.Creates.mnem_eq {alloc : Bool} {mnem email : List Byte}
    (h : s.Creates alloc mnem email) : (FixedString.assign 16 mnem).buf = mnem := by
  have hpattern := h.pattern
  simp only [mnemPattern, Bool.and_eq_true, decide_eq_true_eq] at hpattern
  exact List.take_of_length_le hpattern.1.2

theorem Registry.Creates.mem_traders {alloc : Bool} {mnem display email : List Byte}
    (h : s.Creates alloc mnem email) {t : TraderSess} :
    t ∈ ((TraderCall.createTrader alloc mnem display email).apply s).traders.elems ↔
      t = newTrader (.assign 16 mnem) (.assign 64 display) (.assign 64 email) ∨
        t ∈ s.traders.elems := by
  have hfree : s.traders.find? (FixedString.assign 16 mnem).buf = none := by
    rw [h.mnem_eq]
    exact h.mnem_free
  rw [TraderCall.apply_create h]
  exact KeySet.mem_insert hfree

/-- Nothing that the index looks at changes in an update. -/
theorem TraderCall.apply_update_elems (s : Registry) (mnem display : List Byte) :
    ∃ f : TraderSess → TraderSess, (∀ t, (f t).mnem = t.mnem ∧ (f t).email = t.email) ∧
      ((TraderCall.updateTrader mnem display).apply s).traders.elems = s.traders.elems.map f := by
  refine ⟨_, fun t => ?_, congrArg (fun r => r.traders.elems) TraderCall.apply_update⟩
  split <;> exact ⟨rfl, rfl⟩

theorem Registry.Linked.step (hl : s.Linked) : (call.apply s).Linked := by
  cases call with
  | createTrader alloc mnem display email =>
      by_cases h : s.Creates alloc mnem email
      · obtain ⟨⟨m, hm, hemail⟩, hold⟩ := s.emailIdx.insert_indexes
          (newTrader (.assign 16 mnem) (.assign 64 display) (.assign 64 email))
        refine ⟨fun n hn => ?_, fun t ht => ?_⟩
        · rw [TraderCall.apply_create h] at hn
          rcases TraderSessSet.mem_insert hn with rfl | hn
          · exact ⟨_, h.mem_traders.mpr (Or.inl rfl), rfl⟩
          · obtain ⟨t, ht, rfl⟩ := hl.entries n hn
            exact ⟨t, h.mem_traders.mpr (Or.inr ht), rfl⟩
        · rw [TraderCall.apply_create h]
          rcases h.mem_traders.mp ht with rfl | ht
          · exact ⟨m, hm, hemail⟩
          · obtain ⟨n, hn, heq⟩ := hl.indexed t ht
            exact ⟨n, hold n hn, heq⟩
      · rw [TraderCall.apply_no_create h]
        exact hl
  | updateTrader mnem display =>
      obtain ⟨f, hf, helems⟩ := TraderCall.apply_update_elems s mnem display
      refine ⟨fun n hn => ?_, fun t ht => ?_⟩
      · rw [TraderCall.apply_update] at hn
        obtain ⟨t, ht, rfl⟩ := hl.entries n hn
        refine ⟨f t, ?_, ?_⟩
        · rw [helems]
          exact List.mem_map_of_mem ht
        · unfold TraderSess.emailNode
          rw [(hf t).1, (hf t).2]
      · rw [helems] at ht
        obtain ⟨u, hu, rfl⟩ := List.mem_map.mp ht
        rw [TraderCall.apply_update, (hf u).2]
        exact hl.indexed u hu

/-- A call that keeps the stored emails apart adds one that no trader has. -/
theorem Registry.Linked.email_ne {alloc : Bool} {mnem display email : List Byte}
    (hl : s.Linked) (h : s.Creates alloc mnem email)
    (hapart : (TraderCall.createTrader alloc mnem display email).KeepsApart s) :
    ∀ t ∈ s.traders.elems, t.email ≠ FixedString.assign 64 email := by
  intro t ht heq
  have hbuf : t.email.buf = email.take 64 := by rw [heq]; rfl
  by_cases hlong : 64 < email.length
  · exact hapart h hlong t ht hbuf
  · rw [List.take_of_length_le (by omega)] at hbuf
    obtain ⟨n, hn, hnt⟩ := hl.indexed t ht
    exact KeySet.find?_eq_none_iff.mp h.email_free n hn (by rw [hnt, hbuf])

/-- **A call keeps the traders identified exactly if it keeps the stored emails apart.** -/
theorem Registry.EmailsIdentify.step_iff (hl : s.Linked) (hi : s.EmailsIdentify) :
    (call.apply s).EmailsIdentify ↔ call.KeepsApart s := by
  rw [hl.step.identify_iff]
  cases call with
  | createTrader alloc mnem display email =>
      by_cases h : s.Creates alloc mnem email
      · constructor
        · intro hdistinct _ _ t ht heq
          have hnew : t = newTrader (.assign 16 mnem) (.assign 64 display) (.assign 64 email) :=
            hdistinct t (h.mem_traders.mpr (Or.inr ht)) _ (h.mem_traders.mpr (Or.inl rfl))
              (FixedString.ext heq)
          refine KeySet.find?_eq_none_iff.mp h.mnem_free t ht ?_
          rw [hnew]
          exact h.mnem_eq
        · intro hapart t ht u hu heq
          have hne := hl.email_ne h hapart
          rcases h.mem_traders.mp ht with rfl | ht
          · rcases h.mem_traders.mp hu with rfl | hu
            · rfl
            · exact absurd heq.symm (hne u hu)
          · rcases h.mem_traders.mp hu with rfl | hu
            · exact absurd heq (hne t ht)
            · exact hi.distinct t ht u hu heq
      · rw [TraderCall.apply_no_create h]
        exact iff_of_true hi.distinct (fun hcreates => absurd hcreates h)
  | updateTrader mnem display =>
      obtain ⟨f, hf, helems⟩ := TraderCall.apply_update_elems s mnem display
      refine iff_of_true (fun t ht u hu heq => ?_) trivial
      rw [helems] at ht hu
      obtain ⟨t, ht', rfl⟩ := List.mem_map.mp ht
      obtain ⟨u, hu', rfl⟩ := List.mem_map.mp hu
      rw [(hf t).2, (hf u).2] at heq
      rw [hi.distinct t ht' u hu' heq]

end Index

/-! ### Runs -/

/-- One call. -/
def TraderStep (s : Registry) (call : TraderCall) (s' : Registry) : Prop := s' = call.apply s

/-- **The email index identifies the traders exactly as long as every trader that is created
has an email whose first 64 bytes are its own.** -/
theorem emailIdx_identifies_iff {contrs : List Mnem} {markets : MarketSet} {traders : TraderSet}
    {trace : List (Registry × TraderCall)} {s : Registry}
    (hdistinct : ∀ t ∈ traders.elems, ∀ u ∈ traders.elems, t.email = u.email → t = u)
    (hrun : Traced TraderStep (.load contrs markets traders) trace s) :
    (∀ e ∈ trace, e.1.EmailsIdentify) ∧ s.EmailsIdentify ↔
      ∀ e ∈ trace, e.2.KeepsApart e.1 := by
  have h₀ := Registry.load_linked contrs markets traders
  refine hrun.holds_iff (C := fun s call => call.KeepsApart s) h₀ (h₀.identify_iff.mpr hdistinct)
    ?_ ?_
  · rintro s call s' hl rfl
    exact hl.step
  · rintro s call s' hl hi rfl
    exact hi.step_iff hl

namespace Mock

/-- SWIRLY, with an email of 64 bytes. -/
def mailTrader : TraderSess := newTrader swirly (.assign 64 []) (.assign 64 (.replicate 64 97))

/-- A service of one trader. -/
def oneTrader : Registry := .load [] .empty (KeySet.empty.insert mailTrader)

/-- MARAYL joins with an email. -/
def join (email : List Byte) : TraderCall := .createTrader true marayl.buf [] email

theorem oneTrader_distinct : ∀ t ∈ (KeySet.empty.insert mailTrader : TraderSet).elems,
    ∀ u ∈ (KeySet.empty.insert mailTrader : TraderSet).elems, t.email = u.email → t = u := by
  intro t ht u hu _
  rw [List.mem_singleton.mp ht, List.mem_singleton.mp hu]

theorem join_run (email : List Byte) :
    Traced TraderStep oneTrader [(oneTrader, join email)] ((join email).apply oneTrader) :=
  Traced.nil.snoc rfl

end Mock

/-- MARAYL joins with an email of 63 bytes. -/
theorem short_email_identifies :
    (∀ e ∈ [(Mock.oneTrader, Mock.join (.replicate 63 97))], e.1.EmailsIdentify) ∧
      ((Mock.join (.replicate 63 97)).apply Mock.oneTrader).EmailsIdentify := by
  refine (emailIdx_identifies_iff Mock.oneTrader_distinct (Mock.join_run _)).mpr ?_
  simp only [List.forall_mem_singleton]
  intro _ hlong
  exact absurd hlong (by decide)

set_option maxRecDepth 4000 in
/-- **An email of 65 bytes is cut to one that is taken.** The new trader is found under
nobody's email, and shares its own with the other. -/
theorem long_email_collides :
    Traced TraderStep Mock.oneTrader [(Mock.oneTrader, Mock.join (.replicate 65 97))]
      ((Mock.join (.replicate 65 97)).apply Mock.oneTrader) ∧
    ((Mock.join (.replicate 65 97)).apply Mock.oneTrader).traders.elems.map TraderSess.email =
      [.assign 64 (.replicate 64 97), .assign 64 (.replicate 64 97)] ∧
    ((Mock.join (.replicate 65 97)).apply Mock.oneTrader).findTraderByEmail (.replicate 64 97) =
      some Mock.swirly ∧
    ¬ ((Mock.join (.replicate 65 97)).apply Mock.oneTrader).EmailsIdentify := by
  have hemails : ((Mock.join (.replicate 65 97)).apply Mock.oneTrader).traders.elems.map
      TraderSess.email = [.assign 64 (.replicate 64 97), .assign 64 (.replicate 64 97)] := by
    decide
  refine ⟨Mock.join_run _, hemails, by decide, fun hi => ?_⟩
  -- The emails of distinct traders would be distinct.
  have hnodup := List.Nodup.map_on (fun t ht u hu => hi.distinct t ht u hu)
    ((Mock.join (.replicate 65 97)).apply Mock.oneTrader).traders.nodup
  rw [hemails] at hnodup
  simp at hnodup

end Swirly
