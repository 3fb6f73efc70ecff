import Swirly.Fig.MarketView
import Swirly.Fig.Report

/-!
# Swirly.Fig.Posted

**What a trader is told, as text.** The response to a new order is written as JSON, with the
strings in it as they are. Names fit a pattern that allows nothing to be escaped, so that only
the references of orders can spoil a text. In a run in which no reference does, every response
is read as what it is about (`posted_reads`): the trader's orders as the call left them, the
trader's part of what was journaled, the position it left, and the view of the market.
-/

namespace Swirly

open Lib (Heap)
open Lib.Effect
open Lib.Json (PlainStr parse)

/-! ### The response as text -/

/-- `Response::toJson`. The book is there, as the source asserts. -/
def Response.toJson (s : Serv) (r : Response) : List Byte :=
  firstMember "orders" ++ bracket (joinTexts (r.orders.map (fun p => (s.heap p).toJson)))
    ++ member "execs" ++ bracket (joinTexts (r.execs.map Exec.toJson))
    ++ member "posn" ++ (match r.posn with
        | some p => ((s.traders.get p.trader).posnOf p.contr p.settlDay).toJson
        | none => bytes "null")
    ++ member "view" ++ (match r.book with
        | some m => (s.markets.get m).toJsonView
        | none => [])
    ++ bytes "\x7d"

/-- The position that a response is about. -/
def Response.posnJson (s : Serv) (r : Response) : Lib.Json :=
  match r.posn with
  | some p => ((s.traders.get p.trader).posnOf p.contr p.settlDay).json
  | none => .null

/-- What a response says, with the view of its market. -/
def Response.json (s : Serv) (r : Response) (view : Lib.Json) : Lib.Json :=
  .obj [(bytes "orders", .arr (r.orders.map (fun p => (s.heap p).json))),
    (bytes "execs", .arr (r.execs.map Exec.json)),
    (bytes "posn", r.posnJson s), (bytes "view", view)]

/-- An array of values that are written one by one. -/
theorem text_map {α : Type} {write : α → List Byte} {json : α → Lib.Json}
    (h : ∀ x, write x = (json x).text intFormat) (l : List α) :
    (Lib.Json.arr (l.map json)).text intFormat = bracket (joinTexts (l.map write)) := by
  rw [text_arr, List.map_map]
  exact congrArg (fun t => 91 :: joinTexts t ++ [93])
    (List.map_congr_left (fun x _ => (h x).symm))

theorem Response.toJson_eq (s : Serv) (r : Response) {m : Mnem} (hbook : r.book = some m) :
    r.toJson s = (r.json s (s.markets.get m).viewJson).text intFormat := by
  have hposn : (r.posnJson s).text intFormat = match r.posn with
      | some p => ((s.traders.get p.trader).posnOf p.contr p.settlDay).toJson
      | none => bytes "null" := by
    unfold posnJson
    cases r.posn with
    | none => rfl
    | some p => exact (Posn.toJson_eq _).symm
  unfold toJson json
  rw [text_first, text_map (fun p => (s.heap p).toJson_eq), hbook]
  simp only [text_member, text_close]
  rw [text_map Exec.toJson_eq, hposn, ← MarketBook.toJsonView_eq]
  simp only [List.append_assoc]

/-! ### Values without escapes -/

/-- Characters that need no escapes, of one byte each. -/
def Printable (k : String) : Prop :=
  ∀ c ∈ k.toList, 32 ≤ c.toNat ∧ c.toNat ≠ 34 ∧ c.toNat ≠ 92 ∧ c.toNat < 128

instance (k : String) : Decidable (Printable k) :=
  List.decidableBAll
    (fun c : Char => 32 ≤ c.toNat ∧ c.toNat ≠ 34 ∧ c.toNat ≠ 92 ∧ c.toNat < 128) k.toList

theorem plain_bytes {k : String} (h : Printable k) : PlainStr (bytes k) := by
  intro b hb
  obtain ⟨c, hc, rfl⟩ := List.mem_map.mp hb
  obtain ⟨hlow, hquote, hbackslash, hhigh⟩ := h c hc
  have hval : (Fin.ofNat 256 c.toNat).val = c.toNat := Nat.mod_eq_of_lt (by omega)
  refine ⟨fun heq => hquote ?_, fun heq => hbackslash ?_, ?_⟩
  · rw [← hval, heq]
    rfl
  · rw [← hval, heq]
    rfl
  · show 32 ≤ (Fin.ofNat 256 c.toNat).val
    omega

/-- An object whose keys are these. -/
theorem plain_of_keys {m : List (List Byte × Lib.Json)} (keys : List String)
    (hkeys : m.map Prod.fst = keys.map bytes) (hplain : ∀ k ∈ keys, Printable k)
    (hvalues : ∀ e ∈ m, e.2.Plain) : (Lib.Json.obj m).Plain := by
  refine Lib.Json.plain_obj.mpr (fun e he => ⟨?_, hvalues e he⟩)
  have hmem : e.1 ∈ keys.map bytes := hkeys ▸ List.mem_map_of_mem he
  obtain ⟨k, hk, heq⟩ := List.mem_map.mp hmem
  exact heq ▸ plain_bytes (hplain k hk)

theorem plain_num (n : Int) : (Lib.Json.num n).Plain := trivial

theorem plain_null : Lib.Json.null.Plain := trivial

theorem plain_str {s : List Byte} (h : PlainStr s) : (Lib.Json.str s).Plain := h

theorem plain_dateJson (day : Int) : (dateJson day).Plain := by
  unfold dateJson
  split <;> trivial

theorem plain_numJson (n : Int) : (numJson n).Plain := by
  unfold numJson
  split <;> trivial

theorem plain_strJson {s : List Byte} (h : PlainStr s) : (strJson s).Plain := by
  unfold strJson
  split
  · trivial
  · exact h

theorem plain_ite {c : Prop} [Decidable c] {v w : Lib.Json} (hv : v.Plain) (hw : w.Plain) :
    (if c then v else w).Plain := by
  split
  · exact hv
  · exact hw

theorem plain_levelsJson {α : Type} (levels : List α) (fn : α → Int) :
    (levelsJson levels fn).Plain := by
  refine Lib.Json.plain_arr.mpr (fun v hv => ?_)
  obtain ⟨i, -, rfl⟩ := List.mem_map.mp hv
  cases levels[i]? <;> trivial

theorem State.plain_enumString (st : State) : PlainStr st.enumString := by
  cases st <;> exact plain_bytes (by decide +kernel)

theorem Side.plain_enumString (sd : Side) : PlainStr sd.enumString := by
  cases sd <;> exact plain_bytes (by decide +kernel)

theorem Role.plain_enumString (r : Role) : PlainStr r.enumString := by
  cases r <;> exact plain_bytes (by decide +kernel)

/-- The strings of an order or an execution need no escapes. -/
structure Request.PlainStrs (r : Request) : Prop where
  trader : PlainStr r.trader.buf
  market : PlainStr r.market.buf
  contr : PlainStr r.contr.buf
  ref : PlainStr r.ref.buf

theorem Order.json_plain {o : Order} (h : o.toRequest.PlainStrs) : o.json.Plain := by
  refine plain_of_keys ["trader", "market", "contr", "settlDate", "id", "ref", "state", "side",
    "lots", "ticks", "resd", "exec", "cost", "lastLots", "lastTicks", "minLots", "created",
    "modified"] rfl (by decide +kernel) ?_
  simp only [List.forall_mem_cons, List.not_mem_nil, false_implies, implies_true, plain_num,
    plain_str h.trader, plain_str h.market, plain_str h.contr, plain_strJson h.ref,
    plain_dateJson, plain_numJson, plain_str o.state.plain_enumString,
    plain_str o.side.plain_enumString, plain_ite (plain_num _) plain_null, and_true]

theorem Exec.json_plain {e : Exec} (h : e.toRequest.PlainStrs) (hcpty : PlainStr e.cpty.buf) :
    e.json.Plain := by
  refine plain_of_keys ["trader", "market", "contr", "settlDate", "id", "ref", "orderId",
    "state", "side", "lots", "ticks", "resd", "exec", "cost", "lastLots", "lastTicks", "minLots",
    "matchId", "role", "cpty", "created"] rfl (by decide +kernel) ?_
  simp only [List.forall_mem_cons, List.not_mem_nil, false_implies, implies_true, plain_num,
    plain_str h.trader, plain_str h.market, plain_str h.contr, plain_strJson h.ref,
    plain_strJson hcpty, plain_dateJson, plain_numJson, plain_str e.state.plain_enumString,
    plain_str e.side.plain_enumString, plain_ite (plain_num _) plain_null,
    plain_ite (plain_str e.role.plain_enumString) plain_null, and_true]

theorem Posn.json_plain {q : Posn} (htrader : PlainStr q.trader.buf)
    (hcontr : PlainStr q.contr.buf) : q.json.Plain := by
  refine plain_of_keys ["trader", "contr", "settlDate", "buyLots", "buyCost", "sellLots",
    "sellCost"] rfl (by decide +kernel) ?_
  simp only [List.forall_mem_cons, List.not_mem_nil, false_implies, implies_true, plain_num,
    plain_str htrader, plain_str hcontr, plain_dateJson, and_true]

theorem Serv.viewOf_plain {s : Serv} {m : Mnem} (hmarket : PlainStr m.buf)
    (hcontr : PlainStr (s.markets.get m).contr.buf) (last : LastTrade) :
    (s.viewOf m last).Plain := by
  refine plain_of_keys ["market", "contr", "settlDate", "lastLots", "lastTicks", "lastTime",
    "bidTicks", "bidResd", "bidCount", "offerTicks", "offerResd", "offerCount"] rfl
    (by decide +kernel) ?_
  simp only [List.forall_mem_cons, List.not_mem_nil, false_implies, implies_true,
    plain_str hmarket, plain_str hcontr, plain_dateJson, plain_numJson, plain_levelsJson,
    plain_ite (plain_num _) plain_null, and_true]

/-! ### What a run keeps free of escapes -/

/-- A name that fits the pattern needs no escapes. -/
theorem plain_of_pattern {mnem : List Byte} (h : mnemPattern mnem = true) : PlainStr mnem := by
  have hall : ∀ b : Byte, mnemChar b = true → b ≠ 34 ∧ b ≠ 92 ∧ 32 ≤ b := by decide +kernel
  simp only [mnemPattern, Bool.and_eq_true] at h
  exact fun b hb => hall b (List.all_eq_true.mp h.2 b hb)

/-- The reference that the call gives its order needs no escapes. -/
def PlainRef : CallCond := fun env s a resp =>
  Sound env s a resp ∧ PlainStr (FixedString.assign 64 a.ref).buf

/-- What is known of the strings and the positions that are written as text. -/
structure TextInv (s : Serv) : Prop where
  trader : ∀ u ∈ s.traders.keys, PlainStr u.buf
  market : ∀ m ∈ s.markets.keys, PlainStr m.buf ∧ PlainStr (s.markets.get m).contr.buf
  order : ∀ u ∈ s.traders.keys, ∀ n ∈ s.nodes u, (s.heap n.order).toRequest.PlainStrs
  posn : ∀ u ∈ s.traders.keys, ∀ contr settlDay,
    ((s.traders.get u).posnOf contr settlDay).trader = u

/-- A position is posted to under its trader's name. -/
theorem TraderSess.posnOf_post_trader (u : TraderSess) (t : Exec) (contr : Mnem)
    (settlDay : Int) :
    ((u.post t).posnOf contr settlDay).trader = (u.posnOf contr settlDay).trader := by
  have hadd : ∀ q : Posn, (q.addTrade t).trader = q.trader := by
    intro q
    unfold Posn.addTrade
    dsimp only
    split <;> rfl
  unfold posnOf
  rw [find?_post]
  split
  · next hkey =>
      rw [hkey]
      cases u.posns.find? t.posnKey with
      | none => rfl
      | some q => exact hadd q
  · rfl

theorem TraderSess.posnOf_foldl_post_trader (ts : List Exec) (u : TraderSess) (contr : Mnem)
    (settlDay : Int) :
    ((ts.foldl post u).posnOf contr settlDay).trader = (u.posnOf contr settlDay).trader := by
  induction ts generalizing u with
  | nil => rfl
  | cons t ts ih => exact (ih (u.post t)).trans (u.posnOf_post_trader t contr settlDay)

section Strings

variable {s s' : Serv} {a : OrderArgs}

theorem Serv.newOrder_plainStrs (hp : TextInv s) (hv : a.Valid s)
    (href : PlainStr (FixedString.assign 64 a.ref).buf) :
    (s.newOrder a).toRequest.PlainStrs where
  trader := by
    rw [Serv.newOrder_trader hv]
    exact hp.trader _ hv.sess
  market := by
    show PlainStr (s.markets.get a.book).mnem.buf
    rw [s.markets.key_get a.book hv.book]
    exact (hp.market _ hv.book).1
  contr := (hp.market _ hv.book).2
  ref := href

/-- The orders that a call may trade with. -/
theorem TextInv.maker (hp : TextInv s) (hi : ServInv s) (hv : a.Valid s) {q : OrderPtr}
    (hq : q ∈ s.makers a) : (s.heap q).toRequest.PlainStrs := by
  obtain ⟨hu, hn⟩ := hi.sessions.owned a.book hv.book _ q hq
  exact hp.order _ hu _ hn

/-- The executions that a call journals. -/
theorem TextInv.batch (hp : TextInv s) (hi : ServInv s) (hv : a.Valid s)
    (href : PlainStr (FixedString.assign 64 a.ref).buf) {e : Exec}
    (he : e ∈ s.newExec a :: tradesOf (s.newMatches a)) :
    e.toRequest.PlainStrs ∧ PlainStr e.cpty.buf := by
  have hnew := Serv.newOrder_plainStrs hp hv href
  rcases List.mem_cons.mp he with rfl | he
  · exact ⟨⟨hnew.trader, hnew.market, hnew.contr, hnew.ref⟩, fun _ hb => absurd hb List.not_mem_nil⟩
  · obtain ⟨m, hm, hcases⟩ := mem_tradesOf.mp he
    have hmaker := hp.maker hi hv (Serv.newMatches_ofCall hi.books hv hm).maker
    obtain ⟨f, -, sums, id, rfl⟩ := mem_buildMatches hm
    rcases hcases with rfl | rfl
    · exact ⟨⟨hmaker.trader, hmaker.market, hmaker.contr, hmaker.ref⟩, hnew.trader⟩
    · exact ⟨⟨hnew.trader, hnew.market, hnew.contr, hnew.ref⟩, hmaker.trader⟩

theorem TextInv.ext (hp : TextInv s) (hi : ServInv s) (he : Ext a.book s s') : TextInv s' := by
  have hnodes : ∀ u, s'.nodes u = s.nodes u := fun u => by
    unfold Serv.nodes
    rw [(he.sess u).orders]
  refine ⟨fun u hu => hp.trader u (he.traderKeys ▸ hu), fun m hm => ?_, fun u hu n hn => ?_,
    fun u hu contr settlDay => ?_⟩
  · rw [(he.grows m).contr]
    exact hp.market m (he.marketKeys ▸ hm)
  · rw [he.traderKeys] at hu
    rw [hnodes] at hn
    rw [he.heap _ (hi.sessions.held u hu n hn).lt_next]
    exact hp.order u hu n hn
  · rw [he.traderKeys] at hu
    rw [(he.sess u).posnOf]
    exact hp.posn u hu contr settlDay

theorem TextInv.traded (hp : TextInv s) (hi : ServInv s) (hv : a.Valid s)
    (href : PlainStr (FixedString.assign 64 a.ref).buf) (ht : Traded s s' a) : TextInv s' := by
  refine ⟨fun u hu => hp.trader u (ht.traderKeys ▸ hu), fun m hm => ?_, fun u hu n hn => ?_,
    fun u hu contr settlDay => ?_⟩
  · rw [ht.contr]
    exact hp.market m (ht.marketKeys ▸ hm)
  · rw [ht.traderKeys] at hu
    rcases (hi.sessions.mem_nodes hv ht u n).mp hn with hn | ⟨-, rfl⟩
    · rw [ht.proj_old (fun o => o.toRequest) (fun _ _ => rfl) (fun _ _ _ _ _ _ => rfl)
        (hi.sessions.held u hu n hn).lt_next]
      exact hp.order u hu n hn
    · have htaker : (s.taker a).toRequest = (s.newOrder a).toRequest := by
        unfold Serv.taker
        split <;> rfl
      show (s'.heap s.heap.next).toRequest.PlainStrs
      rw [ht.taker_proj (fun o => o.toRequest) (fun _ _ => rfl), htaker]
      exact Serv.newOrder_plainStrs hp hv href
  · rw [ht.traderKeys] at hu
    obtain ⟨T, -, hext, -, hpost⟩ := ht.sessions
    rw [hpost, Sessions.post_get, TraderSess.posnOf_foldl_post_trader, Lib.Table.modify_get]
    have hold := hp.posn u hu contr settlDay
    rw [← (hext u).posnOf] at hold
    split
    · next heq =>
        subst heq
        unfold TraderSess.posnOf at hold ⊢
        rw [TraderSess.insertOrder_posns, TraderSess.insertOrder_mnem]
        exact hold
    · exact hold

theorem TextInv.step (hp : TextInv s) (hi : ServInv s) (hstep : Step PlainRef s s') :
    TextInv s' := by
  obtain ⟨env, a, resp, hv, hplain, hcases⟩ :=
    step_cases (fun _ _ _ _ h => h.1.1) hi.books hi.matchVec hstep
  rcases hcases with ⟨he, -⟩ | ht | ⟨hlost, -⟩
  · exact hp.ext hi he
  · exact hp.traded hi hv hplain.2 ht
  · exact absurd hlost hplain.1.2

/-- Records join under plain names. -/
theorem TextInv.registered (hp : TextInv s) (hr : Registered s s')
    (htrader : ∀ u ∈ s'.traders.keys, u ∉ s.traders.keys → PlainStr u.buf)
    (hmarket : ∀ m ∈ s'.markets.keys, m ∉ s.markets.keys →
      PlainStr m.buf ∧ PlainStr (s'.markets.get m).contr.buf) : TextInv s' := by
  refine ⟨fun u hu => ?_, fun m hm => ?_, fun u hu n hn => ?_, fun u hu contr settlDay => ?_⟩
  · by_cases hold : u ∈ s.traders.keys
    · exact hp.trader u hold
    · exact htrader u hu hold
  · by_cases hold : m ∈ s.markets.keys
    · rw [(hr.grows hold).contr]
      exact hp.market m hold
    · exact hmarket m hm hold
  · obtain ⟨hu, hn⟩ := hr.noted hu hn
    rw [hr.heap]
    exact hp.order u hu n hn
  · by_cases hold : u ∈ s.traders.keys
    · obtain ⟨display, heq⟩ := hr.trader u hold
      rw [heq]
      exact hp.posn u hold contr settlDay
    · unfold TraderSess.posnOf
      rw [(hr.newTrader u hu hold).2.2]
      exact s'.traders.key_get u hu

end Strings

/-! ### Runs -/

/-- The names that a service is started with need no escapes. -/
structure Service.PlainNames (s : Service) : Prop where
  contr : ∀ c ∈ s.contrs.elems, PlainStr c.mnem.buf
  trader : ∀ u ∈ s.serv.traders.keys, PlainStr u.buf
  market : ∀ m ∈ s.serv.markets.keys, PlainStr m.buf ∧ PlainStr (s.serv.markets.get m).contr.buf

/-- The contracts stay, and new names fit the pattern, but for the contracts of new markets. -/
structure Joined (s s' : Service) : Prop where
  contrs : s'.contrs = s.contrs
  trader : ∀ u ∈ s'.serv.traders.keys, u ∉ s.serv.traders.keys → mnemPattern u.buf = true
  market : ∀ m ∈ s'.serv.markets.keys, m ∉ s.serv.markets.keys → mnemPattern m.buf = true ∧
    ∃ c ∈ s.contrs.elems, (s'.serv.markets.get m).contr = c.mnem

theorem Joined.of_keys {s s' : Service} (hcontrs : s'.contrs = s.contrs)
    (htraders : s'.serv.traders.keys = s.serv.traders.keys)
    (hmarkets : s'.serv.markets.keys = s.serv.markets.keys) : Joined s s' where
  contrs := hcontrs
  trader _ hu hnew := absurd (htraders ▸ hu) hnew
  market _ hm hnew := absurd (hmarkets ▸ hm) hnew

theorem ServiceCall.joined (s : Service) (call : ServiceCall) : Joined s (call.apply s) := by
  have hout := outcome s call
  generalize call.refuses s = refused, call.apply s = s' at hout
  cases hout with
  | marketRefused h => exact .of_keys rfl rfl rfl
  | @marketCreated busDay alloc mnem display contr settlDay expiryDay state h hfree =>
      refine ⟨rfl, fun u hu hnew => absurd hu hnew, fun m hm hnew => ?_⟩
      obtain rfl := (Lib.Table.mem_add_keys.mp hm).resolve_left hnew
      refine ⟨?_, ?_⟩
      · show mnemPattern (FixedString.assign 16 mnem).buf = true
        rw [Service.assign_of_pattern h.pattern]
        exact h.pattern
      · obtain ⟨c, hc, heq⟩ := h.contr_known
        obtain ⟨k, hk, rfl⟩ := List.mem_map.mp hc
        refine ⟨k, hk, ?_⟩
        show ((s.serv.markets.add _).get _).contr = k.mnem
        rw [Lib.Table.add_get_self hfree]
        refine FixedString.ext ?_
        show contr.take 16 = k.mnem.buf
        rw [← heq, List.take_of_length_le k.mnem.len_le]
  | marketUnknown h => exact .of_keys rfl rfl rfl
  | marketUpdated h => exact .of_keys rfl rfl rfl
  | traderRefused h => exact .of_keys rfl rfl rfl
  | @traderCreated alloc mnem display email h hfree =>
      refine ⟨rfl, fun u hu hnew => ?_, fun m hm hnew => absurd hm hnew⟩
      obtain rfl := (Lib.Table.mem_add_keys.mp hu).resolve_left hnew
      show mnemPattern (FixedString.assign 16 mnem).buf = true
      rw [Service.assign_of_pattern h.pattern]
      exact h.pattern
  | traderUnknown h => exact .of_keys rfl rfl rfl
  | traderUpdated h => exact .of_keys rfl rfl rfl
  | ordered env a resp =>
      have hsame : SameRecords s.serv ((Swirly.createOrder env a).final ⟨s.serv, resp⟩).serv :=
        (SameRecords.createOrder env a).final (SameRecords.refl s.serv)
      exact .of_keys rfl hsame.traderKeys hsame.marketKeys

/-- What holds of the texts in every state of a run. -/
structure PostInv (s₀ s : Service) : Prop where
  serv : ServInv s.serv
  text : TextInv s.serv
  last : LastShown s₀.serv s.serv
  contr : ∀ c ∈ s.contrs.elems, PlainStr c.mnem.buf

section Runs

variable {s₀ s : Service} {trace : List (Service × ServiceCall)}

theorem PostInv.init (h₀ : s₀.serv.Empty) (hnames : s₀.PlainNames) : PostInv s₀ s₀ where
  serv := ServInv.init h₀
  text := by
    refine ⟨hnames.trader, hnames.market, fun u hu n hn => ?_, fun u hu contr settlDay => ?_⟩
    · unfold Serv.nodes at hn
      rw [h₀.orders u hu] at hn
      exact absurd hn List.not_mem_nil
    · unfold TraderSess.posnOf
      rw [h₀.posns u hu]
      exact s₀.serv.traders.key_get u hu
  last := LastShown.init h₀
  contr := hnames.contr

theorem PostInv.step {call : ServiceCall} (hi : PostInv s₀ s) (hmeets : call.Meets PlainRef s) :
    PostInv s₀ (call.apply s) := by
  have hj := call.joined s
  have hcontr : ∀ c ∈ (call.apply s).contrs.elems, PlainStr c.mnem.buf := by
    rw [hj.contrs]
    exact hi.contr
  rcases call.apply_cases hmeets with hr | hstep
  · refine ⟨hi.serv.registered hr, hi.text.registered hr ?_ ?_, hi.last.registered hi.serv hr,
      hcontr⟩
    · exact fun u hu hnew => plain_of_pattern (hj.trader u hu hnew)
    · intro m hm hnew
      obtain ⟨hpattern, c, hc, heq⟩ := hj.market m hm hnew
      exact ⟨plain_of_pattern hpattern, heq ▸ hi.contr c hc⟩
  · have hsound : Step Sound s.serv (call.apply s).serv := by
      obtain ⟨env, a, resp, hv, hc, hplain, heq⟩ := hstep
      exact ⟨env, a, resp, hv, hc, hplain.1, heq⟩
    exact ⟨hi.serv.step hsound, hi.text.step hi.serv hstep, hi.last.step hi.serv hsound, hcontr⟩

theorem PostInv.run (h₀ : s₀.serv.Empty) (hnames : s₀.PlainNames)
    (hrun : ServiceRun PlainRef s₀ trace s) : PostInv s₀ s := by
  refine hrun.invariant (I := fun s => PostInv s₀ s) (PostInv.init h₀ hnames) ?_
  rintro s call _ hi ⟨hmeets, rfl⟩
  exact hi.step hmeets

end Runs

/-! ### What is read -/

/-- What a trader has bought and sold of a contract for one day, from the journal. -/
def positionOf (u contr : Mnem) (settlDay : Int) (es : List Exec) : Posn :=
  let ts := (tradesIn es).filter (fun t => t.trader = u)
  { trader := u, contr, settlDay
    buyLots := Lib.tally (Exec.For contr settlDay .buy) (fun t => t.lastLots) ts
    buyCost := Lib.tally (Exec.For contr settlDay .buy) Exec.lastCost ts
    sellLots := Lib.tally (Exec.For contr settlDay .sell) (fun t => t.lastLots) ts
    sellCost := Lib.tally (Exec.For contr settlDay .sell) Exec.lastCost ts }

/-- **A position is the one that the journal tells of.** -/
theorem TextInv.posnOf_eq {s : Serv} (hp : TextInv s) (hi : ServInv s) {u : Mnem}
    (hu : u ∈ s.traders.keys) (contr : Mnem) (settlDay : Int) :
    (s.traders.get u).posnOf contr settlDay = positionOf u contr settlDay s.journ := by
  have hkey : ((s.traders.get u).posnOf contr settlDay).contr = contr ∧
      ((s.traders.get u).posnOf contr settlDay).settlDay = settlDay := by
    unfold TraderSess.posnOf
    cases hfind : (s.traders.get u).posns.find? (toLex (contr, settlDay)) with
    | none => exact ⟨rfl, rfl⟩
    | some q =>
        have heq : toLex (q.contr, q.settlDay) = toLex (contr, settlDay) :=
          (Lib.KeySet.mem_of_find? hfind).2
        exact Prod.mk.inj heq
  have htrader := hp.posn u hu contr settlDay
  obtain ⟨h₁, h₂, h₃, h₄⟩ := (hi.ledger.keeps u hu).posns contr settlDay
  generalize (s.traders.get u).posnOf contr settlDay = q at hkey htrader h₁ h₂ h₃ h₄
  cases q
  obtain ⟨rfl, rfl⟩ := hkey
  obtain rfl := htrader
  simp only [positionOf, Posn.mk.injEq, true_and]
  exact ⟨h₁, h₂, h₃, h₄⟩

section Call

variable {env : Env} {s s₁ : Serv} {a : OrderArgs} {resp : Response} {c' : Ctx}

/-- The response of a committed call is about the call's market. -/
theorem Committed.resp_book (hC : Committed env s a resp s₁ c') (hb : BooksOk s) (hv : a.Valid s)
    (hmv : s.matchVec = []) : c'.resp.book = some a.book := by
  rw [hC.resp_eq hb hv.book hv.sess hmv,
    Response.foldl_report (fun m hm => Serv.takerTrade_trader hb hv hm)]
  rfl

/-- The position in the response is the caller's in the contract that was traded. -/
theorem Told.posn_some (htold : Told s a s.heap.next (s.newExec a) (s.newMatches a) c')
    {p : PosnPtr} (hsome : c'.resp.posn = some p) : s.newMatches a ≠ [] ∧
      p = ⟨a.sess, (s.markets.get a.book).contr, (s.markets.get a.book).settlDay⟩ := by
  have hne : s.newMatches a ≠ [] := by
    intro hnil
    rw [htold.posn_none.mpr hnil] at hsome
    cases hsome
  rw [htold.posn_key hne] at hsome
  exact ⟨hne, (Option.some_inj.mp hsome).symm⟩

/-- What the response to a committed call says. -/
theorem Told.json_eq {view : Lib.Json}
    (htold : Told s a s.heap.next (s.newExec a) (s.newMatches a) c') (hb : BooksOk s)
    (hv : a.Valid s) (hp' : TextInv c'.serv) (hi' : ServInv c'.serv)
    (hsess : a.sess ∈ c'.serv.traders.keys) :
    c'.resp.json c'.serv view = .obj [
      (bytes "orders", .arr (c'.resp.orders.map (fun p => (c'.serv.heap p).json))),
      (bytes "execs", .arr (((s.batch a).filter (fun e => e.trader = a.sess)).map Exec.json)),
      (bytes "posn", if tradesIn (s.batch a) = [] then .null
        else (positionOf a.sess (s.markets.get a.book).contr (s.markets.get a.book).settlDay
          c'.serv.journ).json),
      (bytes "view", view)] := by
  have hposn : c'.resp.posnJson c'.serv = if tradesIn (s.batch a) = [] then .null
      else (positionOf a.sess (s.markets.get a.book).contr (s.markets.get a.book).settlDay
        c'.serv.journ).json := by
    rw [Serv.tradesIn_batch hb hv]
    unfold Response.posnJson
    split
    · next p hsome =>
        obtain ⟨hne, rfl⟩ := htold.posn_some hsome
        have htrades : tradesOf (s.newMatches a) ≠ [] := fun hnil => hne
          (List.eq_nil_of_length_eq_zero (by
            have hlen := tradesOf_length (s.newMatches a)
            rw [hnil, List.length_nil] at hlen
            omega))
        rw [if_neg htrades]
        exact congrArg Posn.json (hp'.posnOf_eq hi' hsess _ _)
    · next hnone =>
        rw [htold.posn_none.mp hnone]
        rfl
  unfold Response.json
  rw [hposn, htold.execs]
  rfl

/-- The orders in the response are the new order, and the caller's orders that it filled. -/
theorem Told.mem_orders (htold : Told s a s.heap.next (s.newExec a) (s.newMatches a) c')
    {p : OrderPtr} : p ∈ c'.resp.orders ↔ p = s.heap.next ∨ p < s.heap.next ∧
      (c'.serv.heap p).trader = a.sess ∧ (s.heap p).exec < (c'.serv.heap p).exec := by
  have hfilled := htold.filled p
  rw [List.mem_map] at hfilled
  rw [htold.orders, List.mem_cons, List.mem_map]
  refine or_congr_right ⟨?_, ?_⟩
  · rintro ⟨m, hm, rfl⟩
    obtain ⟨hmem, hown⟩ := List.mem_filter.mp hm
    obtain ⟨hlt, hexec⟩ := hfilled.mp ⟨m, hmem, rfl⟩
    exact ⟨hlt, of_decide_eq_true hown, hexec⟩
  · rintro ⟨hlt, hown, hexec⟩
    obtain ⟨m, hm, rfl⟩ := hfilled.mpr ⟨hlt, hexec⟩
    exact ⟨m, List.mem_filter.mpr ⟨hm, decide_eq_true hown⟩, rfl⟩

theorem Told.orders_plain (htold : Told s a s.heap.next (s.newExec a) (s.newMatches a) c')
    (hi : ServInv s) (hv : a.Valid s) (ht : Traded s c'.serv a) (hp' : TextInv c'.serv) :
    ∀ p ∈ c'.resp.orders, (c'.serv.heap p).toRequest.PlainStrs := by
  intro p hp
  rw [htold.orders, List.mem_cons, List.mem_map] at hp
  rcases hp with rfl | ⟨m, hm, rfl⟩
  · exact hp'.order a.sess (ht.traderKeys ▸ hv.sess) _
      ((hi.sessions.mem_nodes hv ht a.sess _).mpr (Or.inr ⟨rfl, rfl⟩))
  · have hmaker := (Serv.newMatches_ofCall hi.books hv (List.mem_of_mem_filter hm)).maker
    obtain ⟨hu, hn⟩ := hi.sessions.owned a.book hv.book _ _ hmaker
    exact hp'.order _ (ht.traderKeys ▸ hu) _
      ((hi.sessions.mem_nodes hv ht _ _).mpr (Or.inl hn))

/-- No string in the response needs an escape. -/
theorem Response.json_plain {s : Serv} {r : Response} {view : Lib.Json} (hview : view.Plain)
    (horders : ∀ p ∈ r.orders, (s.heap p).toRequest.PlainStrs)
    (hexecs : ∀ e ∈ r.execs, e.toRequest.PlainStrs ∧ PlainStr e.cpty.buf)
    (hposn : (r.posnJson s).Plain) : (r.json s view).Plain := by
  have harr : (Lib.Json.arr (r.orders.map (fun p => (s.heap p).json))).Plain := by
    refine Lib.Json.plain_arr.mpr (fun v hv => ?_)
    obtain ⟨p, hp, rfl⟩ := List.mem_map.mp hv
    exact Order.json_plain (horders p hp)
  have harr' : (Lib.Json.arr (r.execs.map Exec.json)).Plain := by
    refine Lib.Json.plain_arr.mpr (fun v hv => ?_)
    obtain ⟨e, he, rfl⟩ := List.mem_map.mp hv
    exact Exec.json_plain (hexecs e he).1 (hexecs e he).2
  refine plain_of_keys ["orders", "execs", "posn", "view"] rfl (by decide +kernel) ?_
  simp only [List.forall_mem_cons, List.not_mem_nil, false_implies, implies_true, harr, harr',
    hposn, hview, and_true]

end Call

/-- What the response to an order that is created says, in any state of a run. -/
theorem PostInv.told {s₀ s : Service} (hi : PostInv s₀ s) {env : Env} {a : OrderArgs}
    {resp : Response} {c' : Ctx} (hv : a.Valid s.serv) (hresp : resp.Cleared)
    (hplain : PlainRef env s.serv a resp)
    (hok : createOrder env a ⟨s.serv, resp⟩ = .ok () c') :
    ∃ es, c'.serv.journ = s.serv.journ ++ es ∧
      (∀ p, p ∈ c'.resp.orders ↔ p = s.serv.heap.next ∨ p < s.serv.heap.next ∧
        (c'.serv.heap p).trader = a.sess ∧ (s.serv.heap p).exec < (c'.serv.heap p).exec) ∧
      ∃ v : Lib.Json, v.Plain ∧ c'.resp.toJson c'.serv = v.text intFormat ∧ v = .obj [
        (bytes "orders", .arr (c'.resp.orders.map (fun p => (c'.serv.heap p).json))),
        (bytes "execs", .arr ((es.filter (fun e => e.trader = a.sess)).map Exec.json)),
        (bytes "posn", if tradesIn es = [] then .null
          else (positionOf a.sess (s.serv.markets.get a.book).contr
            (s.serv.markets.get a.book).settlDay c'.serv.journ).json),
        (bytes "view", c'.serv.viewOf a.book
          (lastOf a.book c'.serv.journ (s₀.serv.cameWith a.book)))] := by
  have hb := hi.serv.books
  have hmv := hi.serv.matchVec
  have hsound : Step Sound s.serv c'.serv :=
    ⟨env, a, resp, hv, hresp, hplain.1, by rw [final_ok hok]⟩
  have hi' := hi.serv.step hsound
  have hlast' := hi.last.step hi.serv hsound
  rcases createOrder_cases env resp hb hv.book hv.lots.le with
    ⟨c, s₁, hok', hC⟩ | ⟨e, c, herror, -⟩
  · rw [hok'] at hok
    cases hok
    have ht := hC.traded hb hv.book hv.sess hv.lots.le hmv
    have hp' := hi.text.traded hi.serv hv hplain.2 ht
    have htold := hC.told hb hv hmv hresp
    have hmarket : a.book ∈ c'.serv.markets.keys := ht.marketKeys ▸ hv.book
    have hsess : a.sess ∈ c'.serv.traders.keys := ht.traderKeys ▸ hv.sess
    have hview := Serv.viewOf_plain (hp'.market _ hmarket).1 (hp'.market _ hmarket).2
      (c'.serv.markets.get a.book).last
    have hexecs : ∀ e ∈ c'.resp.execs, e.toRequest.PlainStrs ∧ PlainStr e.cpty.buf := by
      rw [htold.execs]
      exact fun e he => hi.text.batch hi.serv hv hplain.2 (List.mem_of_mem_filter he)
    have hposn : (c'.resp.posnJson c'.serv).Plain := by
      unfold Response.posnJson
      split
      · next p hsome =>
          obtain ⟨-, rfl⟩ := htold.posn_some hsome
          rw [hp'.posnOf_eq hi' hsess]
          exact Posn.json_plain (hp'.trader _ hsess) (hi.text.market _ hv.book).2
      · trivial
    have htext := Response.json_plain hview (htold.orders_plain hi.serv hv ht hp') hexecs hposn
    refine ⟨s.serv.batch a, ht.journ, fun p => htold.mem_orders, _, htext, ?_, ?_⟩
    · rw [Response.toJson_eq c'.serv c'.resp (hC.resp_book hb hv hmv), hi'.viewJson_eq hmarket]
    · rw [htold.json_eq hb hv hp' hi' hsess, hlast'.2 _ hmarket]
  · rw [herror] at hok
    cases hok

theorem Mock.service_plainNames : Mock.service.PlainNames where
  contr := by decide +kernel
  trader := by decide +kernel
  market := by decide +kernel

theorem Mock.order_plain {s : Service} {trader : Mnem} {side : Side} {lots ticks : Int}
    (hsess : trader ∈ s.serv.traders.keys) (hbook : Mock.market ∈ s.serv.markets.keys)
    (hlots : 0 < lots) :
    (ServiceCall.createOrder env (order trader side lots ticks) {}).Meets PlainRef s := by
  obtain ⟨hv, hresp, hsound⟩ := Mock.order_meets hsess hbook hlots
  exact ⟨hv, hresp, hsound, fun _ hb => absurd hb List.not_mem_nil⟩

theorem Mock.afterJoin_plain :
    ServiceRun PlainRef service [(service, bidCall), (afterBid, joinCall)] afterJoin :=
  (Lib.Traced.nil.snoc
    ⟨Mock.order_plain (by decide) (by decide) (by decide), rfl⟩).snoc ⟨trivial, rfl⟩

/-- The call of DOLFIN and its end. -/
def Mock.hitEnd : Ctx :=
  (createOrder env (order dolfin .sell 4 12345)).final ⟨afterJoin.serv, {}⟩

end Swirly
