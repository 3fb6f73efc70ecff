import Swirly.Swirlyd.RestServ

/-!
# Swirly.Swirlyd.Routes

**What a request can do.** Every handler is safe (`Safe`): it calls `Rest` at most once, and
only with nothing left of the URI and a method that the call is for. The endpoints are where
the calls are made, and `endpoint_wp` is the one place that looks at the state there; the
handlers are put together from `leaf` and `node`. So a request has an effect only if it is
well-formed and fully matched (`httpRequest_effects`).
-/

namespace Swirly

open Lib.Effect (wp wp_bind wp_get wp_modify wp_pure wp_throw wp_mono)

/-- The method of HTTP that a method of `Rest` is named after. -/
def RestMethod.verb : RestMethod → HttpMethod
  | postMarket .. => .post
  | postTrader .. => .post
  | postOrder .. => .post
  | postTrade .. => .post
  | putMarket .. => .put
  | putTrader .. => .put
  | putOrder .. => .put
  | deleteOrder .. => .delete
  | deleteTrade .. => .delete
  | _ => .get

/-- The fields that a request must have for a method, and those that it may have. -/
def RestMethod.fields : RestMethod → Option (Finset ReqField × Finset ReqField)
  | postMarket .. => some ({.str .mnem, .str .display, .str .contr},
      {.num .settlDate, .num .expiryDate, .num .state})
  | putMarket .. => some (∅, {.str .display, .num .state})
  | postTrader .. => some ({.str .mnem, .str .display}, {.str .email})
  | postOrder .. => some ({.side, .num .lots, .num .ticks}, {.str .ref, .num .minLots})
  | _ => none

/-- A method is called for a request with the fields `d`. -/
structure RestMethod.Admits (m : RestMethod) (verb : HttpMethod) (d : ReqFields) : Prop where
  verb : m.verb = verb
  fields : ∀ required optional, m.fields = some (required, optional) →
    d.valid required optional = true

namespace RestServ

variable {rest : Rest} {data : HttpMessage} {now : Int} {s s₁ s' : RestServ}
  {x : Handler Unit} {verb : HttpMethod} {method : RestMethod}
  {actions : HttpMethod → Option (Handler Unit)} {sub : List Byte → Handler Unit}

/-! ### Handlers -/

/-- All that a handler has done: at most one call, where the URI and the method match. -/
structure Step (s s' : RestServ) : Prop where
  method : s'.method = s.method
  request : s'.request = s.request
  status : s'.out.status = s.out.status
  calls : s'.calls = s.calls ∨ ∃ c verb, s'.calls = s.calls ++ [c] ∧ s'.matchUri = true ∧
    s'.matchMethod = true ∧ s'.uri.empty = true ∧ s.method = some verb ∧
    c.method.Admits verb s.request.toReqFields

/-- Run from `s₁`, a handler does no more than that from `s` on, whether it returns or throws;
and it does not throw that the method is not allowed. -/
def Does (s : RestServ) (x : Handler Unit) (s₁ : RestServ) : Prop :=
  wp x (fun _ s' => s.Step s') (fun e s' => s.Step s' ∧ e.status ≠ 405) s₁

/-- A handler that is safe in every state. -/
def Safe (x : Handler Unit) : Prop := ∀ s : RestServ, s.Does x s

/-- The URI and the method of the request match. -/
structure Matched (verb : HttpMethod) (s : RestServ) : Prop where
  method : s.method = some verb
  matchMethod : s.matchMethod = true
  matchUri : s.matchUri = true
  uri : s.uri.empty = true

/-- What an endpoint may do for a method. -/
def Acts (verb : HttpMethod) (x : Handler Unit) : Prop :=
  ∀ s : RestServ, s.Matched verb → s.Does x s

theorem Step.refl (s : RestServ) : s.Step s := ⟨rfl, rfl, rfl, Or.inl rfl⟩

/-- A change of what a handler keeps for itself. -/
theorem Step.of_quiet (h : s₁.Step s') (hmethod : s₁.method = s.method)
    (hrequest : s₁.request = s.request) (hstatus : s₁.out.status = s.out.status)
    (hcalls : s₁.calls = s.calls) : s.Step s' := by
  refine ⟨h.method.trans hmethod, h.request.trans hrequest, h.status.trans hstatus, ?_⟩
  have hstep := h.calls
  rwa [hcalls, hmethod, hrequest] at hstep

/-- A handler after a change of what it keeps for itself. -/
theorem Does.of_quiet (h : s₁.Does x s₁) (hmethod : s₁.method = s.method)
    (hrequest : s₁.request = s.request) (hstatus : s₁.out.status = s.out.status)
    (hcalls : s₁.calls = s.calls) : s.Does x s₁ :=
  wp_mono h (fun _ _ h => h.of_quiet hmethod hrequest hstatus hcalls)
    (fun _ _ h => ⟨h.1.of_quiet hmethod hrequest hstatus hcalls, h.2⟩)

theorem safe_pure : Safe (pure ()) := fun s => Step.refl s

theorem safe_ite {p : Prop} [Decidable p] {x y : Handler Unit} (hx : Safe x) (hy : Safe y) :
    Safe (if p then x else y) := by
  split
  · exact hx
  · exact hy

/-! ### Endpoints -/

/-- **A call where the URI and the method match.** -/
theorem Matched.does_call (hs : s.Matched verb) (h : method.Admits verb s.request.toReqFields) :
    s.Does (call rest now method) s := by
  have hstep : ∀ written, s.Step { s with
      calls := s.calls ++ [⟨method, now⟩], out := s.out.write written } :=
    fun written => ⟨rfl, rfl, rfl, Or.inr ⟨_, verb, rfl, hs.matchUri, hs.matchMethod, hs.uri,
      hs.method, h⟩⟩
  unfold Does wp call
  dsimp only
  rcases rest s.calls ⟨method, now⟩ with ⟨written, _ | e⟩
  · exact hstep written
  · exact ⟨hstep written, e.property⟩

/-- A method that asks for no fields. -/
theorem RestMethod.admits_of_none {m : RestMethod} {d : ReqFields} (hverb : m.verb = verb)
    (hfields : m.fields = none) : m.Admits verb d := by
  refine ⟨hverb, fun required optional h => ?_⟩
  rw [hfields] at h
  cases h

theorem acts_call (hverb : method.verb = verb) (hfields : method.fields = none) :
    Acts verb (call rest now method) :=
  fun _ hs => hs.does_call (RestMethod.admits_of_none hverb hfields)

/-- A method that asks for the fields that are checked. -/
theorem RestMethod.admits_of_some {m : RestMethod} {d : ReqFields} {required optional}
    (hverb : m.verb = verb) (hfields : m.fields = some (required, optional))
    (hvalid : d.valid required optional = true) : m.Admits verb d := by
  refine ⟨hverb, fun required' optional' h => ?_⟩
  rw [hfields] at h
  cases h
  exact hvalid

/-- Fields are checked. -/
theorem does_checkFields {required optional : Finset ReqField}
    (h : s.request.valid required optional = true → s.Does x s) :
    s.Does (do checkFields required optional; x) s := by
  unfold Does checkFields
  simp only [wp_bind, wp_get]
  split
  · next hvalid => exact h hvalid
  · exact ⟨Step.refl s, by decide⟩

/-- A call with the fields that are checked for it. -/
theorem Matched.does_checked {required optional : Finset ReqField} {f : RestRequest → RestMethod}
    (hs : s.Matched verb) (hverb : ∀ d, (f d).verb = verb)
    (hfields : ∀ d, (f d).fields = some (required, optional)) :
    s.Does (do checkFields required optional; call rest now (f (← get).request)) s := by
  refine does_checkFields (fun hvalid => ?_)
  unfold Does
  simp only [wp_bind, wp_get]
  exact hs.does_call (RestMethod.admits_of_some (hverb _) (hfields _) hvalid)

/-- **Where a URI may end.** -/
theorem does_endpoint (h : ∀ verb x, actions verb = some x → Acts verb x)
    (hempty : s.uri.empty = true) : s.Does (endpoint actions) s := by
  unfold Does endpoint
  simp only [wp_bind, wp_modify, wp_get]
  cases haction : s.method.bind actions with
  | none => exact ⟨rfl, rfl, rfl, Or.inl rfl⟩
  | some action =>
      obtain ⟨verb, hverb, haction⟩ := Option.bind_eq_some_iff.mp haction
      have hmatched : Matched verb { s with matchUri := true, matchMethod := true } :=
        ⟨hverb, rfl, rfl, hempty⟩
      simp only [wp_bind, wp_modify]
      exact (h verb action haction _ hmatched).of_quiet rfl rfl rfl rfl

theorem safe_leaf (h : ∀ verb x, actions verb = some x → Acts verb x) : Safe (leaf actions) := by
  intro s
  unfold Does leaf
  simp only [wp_bind, wp_get]
  split
  · next hempty => exact does_endpoint h hempty
  · exact Step.refl s

theorem safe_node (h : ∀ verb x, actions verb = some x → Acts verb x)
    (hsub : ∀ tok, Safe (sub tok)) : Safe (node actions sub) := by
  intro s
  unfold Does node
  simp only [wp_bind, wp_get]
  split
  · next hempty => exact does_endpoint h hempty
  · simp only [wp_bind, wp_modify]
    exact (hsub _ _).of_quiet rfl rfl rfl rfl

theorem acts_onGet (h : Acts .get x) : ∀ verb y, onGet x verb = some y → Acts verb y := by
  intro verb y hy
  cases verb with
  | get =>
      cases hy
      exact h
  | post => cases hy
  | put => cases hy
  | delete => cases hy

theorem acts_getPost {y z : Handler Unit} (hget : Acts .get x) (hpost : Acts .post y)
    (h : (match verb with | .get => some x | .post => some y | _ => none) = some z) :
    Acts verb z := by
  cases verb with
  | get =>
      cases h
      exact hget
  | post =>
      cases h
      exact hpost
  | put => cases h
  | delete => cases h

theorem acts_getPut {y z : Handler Unit} (hget : Acts .get x) (hput : Acts .put y)
    (h : (match verb with | .get => some x | .put => some y | _ => none) = some z) :
    Acts verb z := by
  cases verb with
  | get =>
      cases h
      exact hget
  | post => cases h
  | put =>
      cases h
      exact hput
  | delete => cases h

/-! ### The handlers -/

theorem assetRequest_safe : Safe (assetRequest rest now) :=
  safe_node (acts_onGet (acts_call rfl rfl)) (fun _ => safe_leaf (acts_onGet (acts_call rfl rfl)))

theorem contrRequest_safe : Safe (contrRequest rest now) :=
  safe_node (acts_onGet (acts_call rfl rfl)) (fun _ => safe_leaf (acts_onGet (acts_call rfl rfl)))

theorem postMarket_acts : Acts .post (postMarket rest now) :=
  fun _ hs => hs.does_checked (f := fun d => .postMarket d.mnem d.display d.contr d.settlDate
    d.expiryDate d.state) (fun _ => rfl) (fun _ => rfl)

theorem putMarket_acts (mnem : List Byte) : Acts .put (putMarket rest now mnem) :=
  fun _ hs => hs.does_checked (f := fun d => .putMarket mnem
    (if ReqField.str .display ∈ d.fields then some d.display else none)
    (if ReqField.num .state ∈ d.fields then some d.state else none)) (fun _ => rfl) (fun _ => rfl)

theorem marketRequest_safe : Safe (marketRequest rest now) := by
  refine safe_node (fun verb x h => ?_) (fun mnem => safe_leaf (fun verb x h => ?_))
  · exact acts_getPost (acts_call rfl rfl) postMarket_acts h
  · exact acts_getPut (acts_call rfl rfl) (putMarket_acts mnem) h

theorem postTrader_acts : Acts .post (postTrader rest now) :=
  fun _ hs => hs.does_checked (f := fun d => .postTrader d.mnem d.display d.email)
    (fun _ => rfl) (fun _ => rfl)

theorem putTrader_acts (mnem : List Byte) : Acts .put (putTrader rest now mnem) := by
  intro s hs
  unfold Does putTrader checkRequired
  simp only [wp_bind, wp_get]
  split
  · exact hs.does_call (RestMethod.admits_of_none rfl rfl)
  · exact ⟨Step.refl s, by decide⟩

theorem traderRequest_safe : Safe (traderRequest rest now) := by
  refine safe_node (fun verb x h => ?_) (fun mnem => safe_leaf (fun verb x h => ?_))
  · exact acts_getPost (acts_call rfl rfl) postTrader_acts h
  · exact acts_getPut (acts_call rfl rfl) (putTrader_acts mnem) h

/-- A piece that names entities. -/
theorem safe_parseEntities {f : EntitySet → Handler Unit} (h : ∀ es, Safe (f es))
    (tok : List Byte) : Safe (do f (← parseEntities tok)) := by
  intro s
  unfold Does parseEntities
  simp only [wp_bind]
  cases hparse : EntitySet.parse tok with
  | ok es => exact h es s
  | error e => exact ⟨Step.refl s, by rw [EntitySet.parse_error hparse]; decide⟩

theorem recRequest_safe : Safe (recRequest rest now) := by
  refine safe_node (acts_onGet (acts_call rfl rfl)) (fun tok => safe_parseEntities ?_ tok)
  intro es
  exact safe_ite (safe_leaf (acts_onGet (acts_call rfl rfl)))
    (safe_ite assetRequest_safe (safe_ite contrRequest_safe (safe_ite marketRequest_safe
      (safe_ite traderRequest_safe safe_pure))))

theorem postOrder_acts (market : List Byte) : Acts .post (postOrder rest data now market) := by
  intro s hs
  unfold Does postOrder
  simp only [wp_bind, wp_get]
  split
  · exact ⟨Step.refl s, by decide⟩
  · exact hs.does_checked (f := fun d => .postOrder (data.header s.httpUser) market d.ref d.side
      d.lots d.ticks d.minLots) (fun _ => rfl) (fun _ => rfl)

/-- A method with the ids of the URI. -/
theorem acts_ids {f : List Int → RestMethod} (hverb : ∀ ids, (f ids).verb = verb)
    (hfields : ∀ ids, (f ids).fields = none) :
    Acts verb (do call rest now (f (← get).ids)) := by
  intro s hs
  unfold Does
  simp only [wp_bind, wp_get]
  exact hs.does_call (RestMethod.admits_of_none (hverb s.ids) (hfields s.ids))

/-- Where the ids of a URI stand. -/
theorem safe_parseIds (hx : Safe x) (tok : List Byte) : Safe (do parseIds tok; x) := by
  intro s
  unfold Does parseIds
  simp only [wp_bind, wp_modify]
  exact (hx _).of_quiet rfl rfl rfl rfl

theorem orderRequest_safe : Safe (orderRequest rest data now) := by
  refine safe_node (acts_onGet (acts_call rfl rfl)) (fun market => safe_node (fun verb x h => ?_)
    (fun tok => safe_parseIds (safe_leaf (fun verb x h => ?_)) tok))
  · exact acts_getPost (acts_call rfl rfl) (postOrder_acts market) h
  · cases verb with
    | get =>
        cases h
        exact acts_ids (f := fun ids => .getOrder market ids.head?) (fun _ => rfl) (fun _ => rfl)
    | post => cases h
    | put =>
        cases h
        exact acts_ids (f := .putOrder market) (fun _ => rfl) (fun _ => rfl)
    | delete =>
        cases h
        exact acts_ids (f := .deleteOrder market) (fun _ => rfl) (fun _ => rfl)

theorem tradeRequest_safe : Safe (tradeRequest rest now) := by
  refine safe_node (acts_onGet (acts_call rfl rfl)) (fun market => safe_node (fun verb x h => ?_)
    (fun tok => safe_parseIds (safe_leaf (fun verb x h => ?_)) tok))
  · exact acts_getPost (acts_call rfl rfl) (acts_call rfl rfl) h
  · cases verb with
    | get =>
        cases h
        exact acts_ids (f := fun ids => .getTrade market ids.head?) (fun _ => rfl) (fun _ => rfl)
    | post => cases h
    | put => cases h
    | delete =>
        cases h
        exact acts_ids (f := .deleteTrade market) (fun _ => rfl) (fun _ => rfl)

theorem posnRequest_safe : Safe (posnRequest rest now) :=
  safe_node (acts_onGet (acts_call rfl rfl)) (fun _ => safe_node (acts_onGet (acts_call rfl rfl))
    (fun _ => safe_leaf (acts_onGet (acts_call rfl rfl))))

theorem viewRequest_safe : Safe (viewRequest rest now) :=
  safe_node (acts_onGet (acts_call rfl rfl)) (fun _ => safe_leaf (acts_onGet (acts_call rfl rfl)))

theorem sessRequest_safe : Safe (sessRequest rest data now) := by
  refine safe_node (acts_onGet (acts_call rfl rfl)) (fun tok => safe_parseEntities ?_ tok)
  intro es
  exact safe_ite (safe_leaf (acts_onGet (acts_call rfl rfl)))
    (safe_ite orderRequest_safe (safe_ite tradeRequest_safe (safe_ite posnRequest_safe
      (safe_ite viewRequest_safe safe_pure))))

/-- **Every route is safe.** -/
theorem restRequest_safe : Safe (restRequest rest data now) := by
  intro s
  unfold Does restRequest
  simp only [wp_bind, wp_get]
  split
  · exact Step.refl s
  · have hsafe : ∀ tok : List Byte, Safe (if tok = bytes "rec" then recRequest rest now
        else if tok = bytes "sess" then sessRequest rest data now
        else if tok = bytes "view" then viewRequest rest now
        else pure ()) :=
      fun tok => safe_ite recRequest_safe (safe_ite sessRequest_safe
        (safe_ite viewRequest_safe safe_pure))
    simp only [wp_bind, wp_modify]
    exact (hsafe _ _).of_quiet rfl rfl rfl rfl

/-! ### Requests -/

/-- The body is accepted: there is none, or it is a complete object. -/
def Accepts (data : HttpMessage) (r : RestRequest) : Prop :=
  data.body = [] ∨ (r.parse data.body).1 = .ok true

/-- The request after the body. -/
def received (data : HttpMessage) (r : RestRequest) : RestRequest :=
  if data.body = [] then r else (r.parse data.body).2

/-- What a request has done: the calls, where they are made, and what they are made with. -/
structure Done (data : HttpMessage) (s s' : RestServ) (cs : List Call) : Prop where
  calls : s'.calls = s.calls ++ cs
  once : cs.length ≤ 1
  accepted : cs ≠ [] → Accepts data s.request
  matched : cs ≠ [] → s'.matchUri = true ∧ s'.matchMethod = true ∧ s'.uri.empty = true
  admits : ∀ c ∈ cs, ∃ verb, s.method = some verb ∧
    c.method.Admits verb (received data s.request).toReqFields

/-- Nothing is called. -/
theorem Done.none (h : s'.calls = s.calls) : Done data s s' [] := by
  refine ⟨by rw [h, List.append_nil], Nat.zero_le 1, ?_, ?_, nofun⟩
  · exact fun hne => absurd rfl hne
  · exact fun hne => absurd rfl hne

/-- What a handler has done after the body is accepted. -/
theorem Step.done (h : Step { s with request := received data s.request } s')
    (haccepts : Accepts data s.request) : ∃ cs, Done data s s' cs := by
  rcases h.calls with hcalls | ⟨c, verb, hcalls, huri, hmethod, hempty, hverb, hadmits⟩
  · exact ⟨[], .none hcalls⟩
  · refine ⟨[c], hcalls, Nat.le_refl 1, fun _ => haccepts, fun _ => ⟨huri, hmethod, hempty⟩, ?_⟩
    intro c' hc'
    rw [List.mem_singleton.mp hc']
    exact ⟨verb, hverb, hadmits⟩

/-- The body is read first: if it is not accepted, nothing is called. -/
theorem parseBody_wp {Q : Unit → RestServ → Prop} {E : Caught → RestServ → Prop}
    (hok : Accepts data s.request → Q () { s with request := received data s.request })
    (herror : ¬ Accepts data s.request → ∀ what,
      E (.serv .badRequest what) { s with request := received data s.request }) :
    wp (parseBody data) Q E s := by
  unfold parseBody
  by_cases hbody : data.body = []
  · have hreceived : received data s.request = s.request := if_pos hbody
    rw [hreceived] at hok
    rw [if_pos (by rw [hbody]; rfl)]
    exact hok (Or.inl hbody)
  · have hreceived : received data s.request = (s.request.parse data.body).2 := if_neg hbody
    rw [hreceived] at hok herror
    rw [if_neg (by simpa using hbody)]
    simp only [wp_bind, wp_get, wp_modify]
    have hreject : (s.request.parse data.body).1 ≠ .ok true → ¬ Accepts data s.request :=
      fun hne => not_or.mpr ⟨hbody, hne⟩
    cases hparse : (s.request.parse data.body).1 with
    | ok complete =>
        cases complete with
        | true => exact hok (Or.inr hparse)
        | false => exact herror (hreject (by rw [hparse]; simp)) _
    | error msg => exact herror (hreject (by rw [hparse]; simp)) _

/-- What is tried: a request that ends with one of the two matches missing has called nothing,
and it is the second whose absence is told by the status 405. -/
theorem handle_wp (rest : Rest) (data : HttpMessage) (now : Int) (s : RestServ) :
    wp (handle rest data now)
      (fun _ s' => (∃ cs, Done data s s' cs) ∧ s'.out.status = s.out.status)
      (fun e s' => (∃ cs, Done data s s' cs) ∧
        (e.status = 405 → s'.matchMethod = false)) s := by
  unfold handle
  rw [wp_bind]
  refine parseBody_wp (fun haccepts => ?_) (fun hreject what => ?_)
  · rw [wp_bind]
    refine wp_mono (restRequest_safe _) (fun _ s' hstep => ?_) (fun e s' hstep => ?_)
    · have hdone := hstep.done haccepts
      simp only [wp_bind, wp_get]
      split
      · simp only [wp_bind, wp_get]
        split
        · exact ⟨hdone, hstep.status⟩
        · next hmethod => exact ⟨hdone, fun _ => by simpa using hmethod⟩
      · exact ⟨hdone, fun h => absurd h (show ¬ 404 = 405 by decide)⟩
    · exact ⟨hstep.1.done haccepts, fun h => absurd h hstep.2⟩
  · exact ⟨⟨[], .none rfl⟩, fun h => absurd h (show ¬ 400 = 405 by decide)⟩

/-- What a request leads to: the calls `cs`, and when there are none. -/
structure Effects (data : HttpMessage) (s s' : RestServ) (cs : List Call) : Prop where
  calls : s'.calls = s.calls ++ cs
  once : cs.length ≤ 1
  /-- The parser throws or returns false. -/
  rejected : data.body ≠ [] → ((s.request.reset true).parse data.body).1 ≠ .ok true → cs = []
  /-- No route has consumed the URI. -/
  not_found : s'.out.status = 404 → s'.matchUri = false → cs = []
  not_allowed : s'.out.status = 405 → cs = []
  routed : ∀ c ∈ cs, HttpMethod.parse data.method = some c.method.verb ∧ s'.uri.empty = true
  fields : ∀ c ∈ cs, ∀ required optional, c.method.fields = some (required, optional) →
    (received data (s.request.reset true)).valid required optional = true

/-- The effects are those of what is tried, whatever is written afterwards. -/
theorem Done.effects {sendMbuf : List Byte} {cs : List Call} {out : OStream}
    (h : Done data ((s.reset data).attach sendMbuf) s₁ cs)
    (hstatus : out.status = 405 → s₁.matchMethod = false) :
    Effects data s { s₁ with out } cs := by
  refine ⟨h.calls, h.once, fun hbody hparse => ?_, fun _ huri => ?_, fun h405 => ?_, ?_, ?_⟩
  · by_contra hne
    exact (h.accepted hne).elim hbody hparse
  · by_contra hne
    have htrue : s₁.matchUri = true := (h.matched hne).1
    rw [huri] at htrue
    cases htrue
  · by_contra hne
    have htrue : s₁.matchMethod = true := (h.matched hne).2.1
    rw [hstatus h405] at htrue
    cases htrue
  · intro c hc
    obtain ⟨verb, hverb, hadmits⟩ := h.admits c hc
    exact ⟨hadmits.verb ▸ hverb, (h.matched (List.ne_nil_of_mem hc)).2.2⟩
  · intro c hc
    obtain ⟨verb, -, hadmits⟩ := h.admits c hc
    exact hadmits.fields

section Requests

variable {mgServeHttp : HttpMessage → List Byte → List Byte} {getTimeOfDay : Int}
  {sendMbuf : List Byte}

theorem httpRequest_of_ok (hapi : (s.reset data).isApi = true)
    (h : handle rest data (getSwirlyTime getTimeOfDay data) ((s.reset data).attach sendMbuf) =
      .ok () s₁) :
    s.httpRequest rest mgServeHttp getTimeOfDay data sendMbuf =
      ({ s₁ with out := s₁.out.setContentLength }, s₁.out.setContentLength.buf) := by
  unfold httpRequest
  simp only [if_pos hapi, h]

theorem httpRequest_of_error {e : Caught} (hapi : (s.reset data).isApi = true)
    (h : handle rest data (getSwirlyTime getTimeOfDay data) ((s.reset data).attach sendMbuf) =
      .error e s₁) :
    s.httpRequest rest mgServeHttp getTimeOfDay data sendMbuf =
      ({ s₁ with out := (s₁.report e).out.setContentLength },
        (s₁.report e).out.setContentLength.buf) := by
  unfold httpRequest
  simp only [if_pos hapi, h]
  rfl

theorem httpRequest_of_not_api (hapi : ¬ (s.reset data).isApi = true) :
    s.httpRequest rest mgServeHttp getTimeOfDay data sendMbuf =
      (s.reset data, mgServeHttp data sendMbuf) := by
  unfold httpRequest
  simp only [if_neg hapi]

theorem exists_effects : ∃ cs,
    Effects data s (s.httpRequest rest mgServeHttp getTimeOfDay data sendMbuf).1 cs := by
  by_cases hapi : (s.reset data).isApi = true
  · rcases Lib.Effect.wp_cases (handle_wp rest data (getSwirlyTime getTimeOfDay data)
      ((s.reset data).attach sendMbuf)) with
      ⟨⟨⟩, s₁, h, ⟨cs, hdone⟩, hstatus⟩ | ⟨e, s₁, h, ⟨cs, hdone⟩, h405⟩
    · rw [httpRequest_of_ok hapi h]
      refine ⟨cs, hdone.effects (fun h => ?_)⟩
      have hok : s₁.out.setContentLength.status = 200 := hstatus
      rw [hok] at h
      exact absurd h (by decide)
    · rw [httpRequest_of_error hapi h]
      exact ⟨cs, hdone.effects (fun h => h405 (Int.ofNat_inj.mp h))⟩
  · rw [httpRequest_of_not_api hapi]
    exact ⟨[], by simp [reset], Nat.zero_le 1, fun _ _ => rfl, fun _ _ => rfl, fun _ => rfl,
      nofun, nofun⟩

end Requests

/-- **A request has an effect only if it is well-formed and fully matched**, and what is
reported of an exception is all there is in the response. -/
theorem httpRequest_effects (rest : Rest) (mgServeHttp : HttpMessage → List Byte → List Byte)
    (getTimeOfDay : Int) (data : HttpMessage) (sendMbuf : List Byte) (s : RestServ) :
    (∃ cs, Effects data s (s.httpRequest rest mgServeHttp getTimeOfDay data sendMbuf).1 cs) ∧
    ((s.reset data).isApi = true → ∀ e s₁,
      handle rest data (getSwirlyTime getTimeOfDay data) ((s.reset data).attach sendMbuf) =
        .error e s₁ →
      (s.httpRequest rest mgServeHttp getTimeOfDay data sendMbuf).1.out.body = e.toJson ∧
      (s.httpRequest rest mgServeHttp getTimeOfDay data sendMbuf).2 =
        (s.httpRequest rest mgServeHttp getTimeOfDay data sendMbuf).1.out.buf) := by
  refine ⟨exists_effects, fun hapi e s₁ h => ?_⟩
  rw [httpRequest_of_error hapi h]
  exact ⟨OStream.body_write_reset _ _ _ _, rfl⟩

end RestServ

end Swirly
