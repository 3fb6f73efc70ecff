import Swirly.Fir.RestMethods
import Swirly.Swirlyd.Routes

/-!
# Swirly.Swirlyd.Http

**What the server answers.** A request that is not refused by the server calls `Rest` once, and
then the call is all that there is in the response: what it has written, or the exception that
it has thrown (`http_answers`). Here `Rest` may be anything.

With the methods on the service for `Rest`, requests one after the other are a run of the
service (`http_safe`).
-/

namespace Swirly

open Lib.Effect (wp wp_bind wp_get wp_modify wp_pure wp_throw wp_mono)

namespace RestServ

variable {rest : Rest} {data : HttpMessage} {now : Int} {s s₁ s' : RestServ}
  {x : Handler Unit} {verb : HttpMethod} {method : RestMethod}
  {actions : HttpMethod → Option (Handler Unit)} {sub : List Byte → Handler Unit}

/-! ### Calls -/

/-- The server after a call. -/
def called (rest : Rest) (c : Call) (s : RestServ) : RestServ :=
  { s with calls := s.calls ++ [c], out := s.out.write (rest s.calls c).1 }

/-- The status of an exception that a handler throws by itself. -/
def Refuses (e : Caught) : Prop := e.status = 400 ∨ e.status = 401 ∨ e.status = 404

/-- What an action has done when it returns: its call has not thrown. -/
def Acted (rest : Rest) (now : Int) (s s' : RestServ) : Prop :=
  ∃ c, c.now = now ∧ (rest s.calls c).2 = none ∧ s' = s.called rest c

/-- What an action has done when it throws: it has not called, or throws what its call did. -/
def Failed (rest : Rest) (now : Int) (s : RestServ) (e : Caught) (s' : RestServ) : Prop :=
  (Refuses e ∧ s' = s) ∨
    ∃ c e', c.now = now ∧ (rest s.calls c).2 = some e' ∧ e = e'.val ∧ s' = s.called rest c

/-- An action. -/
def Calls (rest : Rest) (now : Int) (x : Handler Unit) : Prop :=
  ∀ s : RestServ, wp x (fun _ => s.Acted rest now) (s.Failed rest now) s

theorem calls_call (method : RestMethod) : Calls rest now (call rest now method) := by
  intro s
  unfold wp call
  dsimp only
  cases hthrown : (rest s.calls ⟨method, now⟩).2 with
  | none => exact ⟨_, rfl, hthrown, rfl⟩
  | some e => exact Or.inr ⟨_, e, rfl, hthrown, rfl, rfl⟩

/-- A call of what is read in the state. -/
theorem calls_get {f : RestServ → RestMethod} :
    Calls rest now (do call rest now (f (← get))) := by
  intro s
  simp only [wp_bind, wp_get]
  exact calls_call (f s) s

/-! ### Handlers -/

/-- Nothing is called, and no method is matched. -/
structure Silent (s s' : RestServ) : Prop where
  calls : s'.calls = s.calls
  out : s'.out = s.out
  matchMethod : s'.matchMethod = s.matchMethod

/-- `c` is called. -/
structure Called (rest : Rest) (now : Int) (s : RestServ) (c : Call) (s' : RestServ) : Prop where
  now : c.now = now
  calls : s'.calls = s.calls ++ [c]
  out : s'.out = s.out.write (rest s.calls c).1
  matchUri : s'.matchUri = true
  matchMethod : s'.matchMethod = true

/-- What a handler has done when it returns. -/
def Returned (rest : Rest) (now : Int) (s s' : RestServ) : Prop :=
  s.Silent s' ∨ ∃ c, (rest s.calls c).2 = none ∧ s.Called rest now c s'

/-- What a handler has done when it throws. -/
def Threw (rest : Rest) (now : Int) (s : RestServ) (e : Caught) (s' : RestServ) : Prop :=
  (Refuses e ∧ s'.calls = s.calls) ∨
    ∃ c e', (rest s.calls c).2 = some e' ∧ e = e'.val ∧ s.Called rest now c s'

/-- Run from `s₁`, a handler does so from `s` on. -/
def AnswersFrom (rest : Rest) (now : Int) (s : RestServ) (x : Handler Unit) (s₁ : RestServ) :
    Prop :=
  wp x (fun _ => s.Returned rest now) (s.Threw rest now) s₁

/-- A handler that does so in every state. -/
def Answers (rest : Rest) (now : Int) (x : Handler Unit) : Prop :=
  ∀ s : RestServ, s.AnswersFrom rest now x s

theorem Silent.refl (s : RestServ) : s.Silent s := ⟨rfl, rfl, rfl⟩

theorem Silent.trans {s'' : RestServ} (h : s.Silent s') (h' : s'.Silent s'') : s.Silent s'' where
  calls := h'.calls.trans h.calls
  out := h'.out.trans h.out
  matchMethod := h'.matchMethod.trans h.matchMethod

theorem Silent.called (h : s.Silent s₁) {c : Call} (hc : s₁.Called rest now c s') :
    s.Called rest now c s' where
  now := hc.now
  calls := by rw [hc.calls, h.calls]
  out := by rw [hc.out, h.out, h.calls]
  matchUri := hc.matchUri
  matchMethod := hc.matchMethod

/-- A handler after a change of what it keeps for itself. -/
theorem Silent.answersFrom (h : s.Silent s₁) (hx : Answers rest now x) :
    s.AnswersFrom rest now x s₁ := by
  refine wp_mono (hx s₁) (fun _ s' hreturned => ?_) (fun e s' hthrew => ?_)
  · rcases hreturned with hsilent | ⟨c, hnone, hc⟩
    · exact Or.inl (h.trans hsilent)
    · exact Or.inr ⟨c, by rw [← h.calls, hnone], h.called hc⟩
  · rcases hthrew with ⟨he, hcalls⟩ | ⟨c, e', hsome, he, hc⟩
    · exact Or.inl ⟨he, hcalls.trans h.calls⟩
    · exact Or.inr ⟨c, e', by rw [← h.calls, hsome], he, h.called hc⟩

theorem answers_pure : Answers rest now (pure ()) := fun s => Or.inl (Silent.refl s)

theorem answers_ite {p : Prop} [Decidable p] {x y : Handler Unit} (hx : Answers rest now x)
    (hy : Answers rest now y) : Answers rest now (if p then x else y) := by
  split
  · exact hx
  · exact hy

/-- **Where a URI may end.** -/
theorem answers_endpoint (h : ∀ verb x, actions verb = some x → Calls rest now x) :
    Answers rest now (endpoint actions) := by
  intro s
  unfold AnswersFrom endpoint
  simp only [wp_bind, wp_modify, wp_get]
  cases haction : s.method.bind actions with
  | none => exact Or.inl ⟨rfl, rfl, rfl⟩
  | some action =>
      obtain ⟨verb, -, haction⟩ := Option.bind_eq_some_iff.mp haction
      simp only [wp_bind, wp_modify]
      refine wp_mono (h verb action haction _) (fun _ s' hacted => ?_) (fun e s' hfailed => ?_)
      · obtain ⟨c, hnow, hnone, rfl⟩ := hacted
        exact Or.inr ⟨c, hnone, hnow, rfl, rfl, rfl, rfl⟩
      · rcases hfailed with ⟨he, rfl⟩ | ⟨c, e', hnow, hsome, he, rfl⟩
        · exact Or.inl ⟨he, rfl⟩
        · exact Or.inr ⟨c, e', hsome, he, hnow, rfl, rfl, rfl, rfl⟩

theorem answers_leaf (h : ∀ verb x, actions verb = some x → Calls rest now x) :
    Answers rest now (leaf actions) := by
  intro s
  unfold AnswersFrom leaf
  simp only [wp_bind, wp_get]
  split
  · exact answers_endpoint h s
  · exact Or.inl (Silent.refl s)

theorem answers_node (h : ∀ verb x, actions verb = some x → Calls rest now x)
    (hsub : ∀ tok, Answers rest now (sub tok)) : Answers rest now (node actions sub) := by
  intro s
  unfold AnswersFrom node
  simp only [wp_bind, wp_get]
  split
  · exact answers_endpoint h s
  · simp only [wp_bind, wp_modify]
    exact Silent.answersFrom ⟨rfl, rfl, rfl⟩ (hsub _)

theorem calls_onGet (h : Calls rest now x) :
    ∀ verb y, onGet x verb = some y → Calls rest now y := by
  intro verb y hy
  cases verb with
  | get =>
      cases hy
      exact h
  | post => cases hy
  | put => cases hy
  | delete => cases hy

/-! ### The handlers -/

theorem assetRequest_answers : Answers rest now (assetRequest rest now) :=
  answers_node (calls_onGet (calls_call _)) (fun _ => answers_leaf (calls_onGet (calls_call _)))

theorem contrRequest_answers : Answers rest now (contrRequest rest now) :=
  answers_node (calls_onGet (calls_call _)) (fun _ => answers_leaf (calls_onGet (calls_call _)))

/-- The fields are checked before a call. -/
theorem calls_checked {required optional : Finset ReqField} {f : RestRequest → RestMethod} :
    Calls rest now (do checkFields required optional; call rest now (f (← get).request)) := by
  intro s
  unfold checkFields
  simp only [wp_bind, wp_get]
  split
  · exact calls_get (f := fun s => f s.request) s
  · exact Or.inl ⟨Or.inl rfl, rfl⟩

theorem marketRequest_answers : Answers rest now (marketRequest rest now) := by
  refine answers_node (fun verb x h => ?_) (fun mnem => answers_leaf (fun verb x h => ?_))
  · cases verb with
    | get => cases h; exact calls_call _
    | post =>
        cases h
        exact calls_checked (f := fun d => .postMarket d.mnem d.display d.contr d.settlDate
          d.expiryDate d.state)
    | put => cases h
    | delete => cases h
  · cases verb with
    | get => cases h; exact calls_call _
    | post => cases h
    | put =>
        cases h
        exact calls_checked (f := fun d => .putMarket mnem
          (if ReqField.str .display ∈ d.fields then some d.display else none)
          (if ReqField.num .state ∈ d.fields then some d.state else none))
    | delete => cases h

theorem putTrader_calls (mnem : List Byte) : Calls rest now (putTrader rest now mnem) := by
  intro s
  unfold putTrader checkRequired
  simp only [wp_bind, wp_get]
  split
  · exact calls_call _ s
  · exact Or.inl ⟨Or.inl rfl, rfl⟩

theorem traderRequest_answers : Answers rest now (traderRequest rest now) := by
  refine answers_node (fun verb x h => ?_) (fun mnem => answers_leaf (fun verb x h => ?_))
  · cases verb with
    | get => cases h; exact calls_call _
    | post => cases h; exact calls_checked (f := fun d => .postTrader d.mnem d.display d.email)
    | put => cases h
    | delete => cases h
  · cases verb with
    | get => cases h; exact calls_call _
    | post => cases h
    | put => cases h; exact putTrader_calls mnem
    | delete => cases h

/-- A piece that names entities. -/
theorem answers_parseEntities {f : EntitySet → Handler Unit} (h : ∀ es, Answers rest now (f es))
    (tok : List Byte) : Answers rest now (do f (← parseEntities tok)) := by
  intro s
  unfold AnswersFrom parseEntities
  simp only [wp_bind]
  cases hparse : EntitySet.parse tok with
  | ok es => exact h es s
  | error e => exact Or.inl ⟨Or.inr (Or.inr (EntitySet.parse_error hparse)), rfl⟩

theorem recRequest_answers : Answers rest now (recRequest rest now) := by
  refine answers_node (calls_onGet (calls_call _)) (fun tok => answers_parseEntities ?_ tok)
  intro es
  exact answers_ite (answers_leaf (calls_onGet (calls_call _)))
    (answers_ite assetRequest_answers (answers_ite contrRequest_answers
      (answers_ite marketRequest_answers (answers_ite traderRequest_answers answers_pure))))

theorem postOrder_calls (market : List Byte) : Calls rest now (postOrder rest data now market) := by
  intro s
  unfold postOrder
  simp only [wp_bind, wp_get]
  split
  · exact Or.inl ⟨Or.inr (Or.inl rfl), rfl⟩
  · exact calls_checked (f := fun d => .postOrder (data.header s.httpUser) market d.ref d.side
      d.lots d.ticks d.minLots) s

/-- Where the ids of a URI stand. -/
theorem answers_parseIds (hx : Answers rest now x) (tok : List Byte) :
    Answers rest now (do parseIds tok; x) := by
  intro s
  unfold AnswersFrom parseIds
  simp only [wp_bind, wp_modify]
  exact Silent.answersFrom ⟨rfl, rfl, rfl⟩ hx

theorem orderRequest_answers : Answers rest now (orderRequest rest data now) := by
  refine answers_node (calls_onGet (calls_call _)) (fun market => answers_node
    (fun verb x h => ?_) (fun tok => answers_parseIds (answers_leaf (fun verb x h => ?_)) tok))
  · cases verb with
    | get => cases h; exact calls_call _
    | post => cases h; exact postOrder_calls market
    | put => cases h
    | delete => cases h
  · cases verb with
    | get => cases h; exact calls_get (f := fun s => .getOrder market s.ids.head?)
    | post => cases h
    | put => cases h; exact calls_get (f := fun s => .putOrder market s.ids)
    | delete => cases h; exact calls_get (f := fun s => .deleteOrder market s.ids)

theorem tradeRequest_answers : Answers rest now (tradeRequest rest now) := by
  refine answers_node (calls_onGet (calls_call _)) (fun market => answers_node
    (fun verb x h => ?_) (fun tok => answers_parseIds (answers_leaf (fun verb x h => ?_)) tok))
  · cases verb with
    | get => cases h; exact calls_call _
    | post => cases h; exact calls_call _
    | put => cases h
    | delete => cases h
  · cases verb with
    | get => cases h; exact calls_get (f := fun s => .getTrade market s.ids.head?)
    | post => cases h
    | put => cases h
    | delete => cases h; exact calls_get (f := fun s => .deleteTrade market s.ids)

theorem posnRequest_answers : Answers rest now (posnRequest rest now) :=
  answers_node (calls_onGet (calls_call _)) (fun _ => answers_node (calls_onGet (calls_call _))
    (fun _ => answers_leaf (calls_onGet (calls_call _))))

theorem viewRequest_answers : Answers rest now (viewRequest rest now) :=
  answers_node (calls_onGet (calls_call _)) (fun _ => answers_leaf (calls_onGet (calls_call _)))

theorem sessRequest_answers : Answers rest now (sessRequest rest data now) := by
  refine answers_node (calls_onGet (calls_call _)) (fun tok => answers_parseEntities ?_ tok)
  intro es
  exact answers_ite (answers_leaf (calls_onGet (calls_call _)))
    (answers_ite orderRequest_answers (answers_ite tradeRequest_answers
      (answers_ite posnRequest_answers (answers_ite viewRequest_answers answers_pure))))

theorem restRequest_answers : Answers rest now (restRequest rest data now) := by
  intro s
  unfold AnswersFrom restRequest
  simp only [wp_bind, wp_get]
  split
  · exact Or.inl (Silent.refl s)
  · have hanswers : ∀ tok : List Byte, Answers rest now
        (if tok = bytes "rec" then recRequest rest now
        else if tok = bytes "sess" then sessRequest rest data now
        else if tok = bytes "view" then viewRequest rest now
        else pure ()) :=
      fun tok => answers_ite recRequest_answers (answers_ite sessRequest_answers
        (answers_ite viewRequest_answers answers_pure))
    simp only [wp_bind, wp_modify]
    exact Silent.answersFrom ⟨rfl, rfl, rfl⟩ (hanswers _)

/-! ### Requests -/

/-- **What is tried**: it returns only after a call that has returned, and throws what its call
did or, if there was none, that the request was refused. -/
theorem handle_answers (rest : Rest) (data : HttpMessage) (now : Int)
    (hmatch : s.matchMethod = false) :
    wp (handle rest data now)
      (fun _ s' => ∃ c, (rest s.calls c).2 = none ∧ s.Called rest now c s')
      (fun e s' => ((Refuses e ∨ e.status = 405) ∧ s'.calls = s.calls) ∨
        ∃ c e', (rest s.calls c).2 = some e' ∧ e = e'.val ∧ s.Called rest now c s') s := by
  unfold handle
  rw [wp_bind]
  refine parseBody_wp (fun _ => ?_) (fun _ what => Or.inl ⟨Or.inl (Or.inl rfl), rfl⟩)
  rw [wp_bind]
  refine wp_mono (restRequest_answers _) (fun _ s' hreturned => ?_) (fun e s' hthrew => ?_)
  · simp only [wp_bind, wp_get]
    rcases hreturned with hsilent | ⟨c, hnone, hc⟩
    · have hmethod : s'.matchMethod = false := hsilent.matchMethod.trans hmatch
      split
      · simp only [wp_bind, wp_get, hmethod]
        exact Or.inl ⟨Or.inr rfl, hsilent.calls⟩
      · exact Or.inl ⟨Or.inl (Or.inr (Or.inr rfl)), hsilent.calls⟩
    · simp only [hc.matchUri, hc.matchMethod, wp_bind, wp_get, if_true]
      exact ⟨c, hnone, hc.now, hc.calls, hc.out, hc.matchUri, hc.matchMethod⟩
  · rcases hthrew with ⟨he, hcalls⟩ | ⟨c, e', hsome, he, hc⟩
    · exact Or.inl ⟨Or.inl he, hcalls⟩
    · exact Or.inr ⟨c, e', hsome, he, hc.now, hc.calls, hc.out, hc.matchUri, hc.matchMethod⟩

/-- The response with a status, a reason and a body. The length of the body stands in the head
as long as there is room for it. -/
structure Replies (out : OStream) (status : Int) (reason body : List Byte) : Prop where
  status_eq : out.status = status
  body_eq : out.body = body
  buf_eq : body.length < 10 ^ 10 → ∃ k, 1 ≤ k ∧ k + (natText body.length).length = 11 ∧
    out.buf = OStream.headWith status reason (OStream.blanks k ++ natText body.length) ++ body

theorem replies_write_reset (out : OStream) (status : Int) (reason body : List Byte) :
    Replies ((out.reset status reason).write body).setContentLength status reason body where
  status_eq := rfl
  body_eq := OStream.body_write_reset out status reason body
  buf_eq := by
    intro hlen
    have hwidth : (natText body.length).length ≤ 10 := (length_natText_le_iff (by decide)).mpr hlen
    refine ⟨11 - (natText body.length).length, by omega, by omega, ?_⟩
    have hbuf := OStream.setContentLength_foldl_write out status reason [body]
      (k := 11 - (natText body.length).length) (by simp; omega)
    simp only [List.flatten_singleton] at hbuf
    refine hbuf.trans ?_
    unfold OStream.headWith
    simp only [List.append_assoc]

/-- The response to a call has what the call wrote, or what it threw. -/
def RepliesTo (out : OStream) : RestResult → Prop
  | (written, none) => Replies out 200 (bytes "OK") written
  | (_, some e) => Replies out e.val.status e.val.reason e.val.toJson

section Requests

variable (rest : Rest) (mgServeHttp : HttpMessage → List Byte → List Byte) (getTimeOfDay : Int)
  (data : HttpMessage) (sendMbuf : List Byte) (s : RestServ)

theorem exists_answer (hapi : (s.reset data).isApi = true) :
    let s' := (s.httpRequest rest mgServeHttp getTimeOfDay data sendMbuf).1
    (∃ c, c.now = getSwirlyTime getTimeOfDay data ∧ s'.calls = s.calls ++ [c] ∧
      RepliesTo s'.out (rest s.calls c)) ∨
    ∃ e : Caught, (Refuses e ∨ e.status = 405) ∧ s'.calls = s.calls ∧
      Replies s'.out e.status e.reason e.toJson := by
  have hanswers := handle_answers (s := (s.reset data).attach sendMbuf) rest data
    (getSwirlyTime getTimeOfDay data) rfl
  rcases Lib.Effect.wp_cases hanswers with ⟨⟨⟩, s₁, h, c, hnone, hc⟩ | ⟨e, s₁, h, hthrew⟩
  · rw [httpRequest_of_ok hapi h]
    refine Or.inl ⟨c, hc.now, hc.calls, ?_⟩
    have hresult : rest s.calls c = ((rest s.calls c).1, none) := Prod.ext rfl hnone
    rw [hresult]
    show Replies s₁.out.setContentLength 200 _ _
    rw [hc.out]
    exact replies_write_reset s.out 200 (bytes "OK") _
  · rw [httpRequest_of_error hapi h]
    rcases hthrew with ⟨he, hcalls⟩ | ⟨c, e', hsome, rfl, hc⟩
    · exact Or.inr ⟨e, he, hcalls, replies_write_reset s₁.out _ _ _⟩
    · refine Or.inl ⟨c, hc.now, hc.calls, ?_⟩
      have hresult : rest s.calls c = ((rest s.calls c).1, some e') := Prod.ext rfl hsome
      rw [hresult]
      exact replies_write_reset s₁.out _ _ _

/-- The response is what is in the buffer. -/
theorem httpRequest_buf (hapi : (s.reset data).isApi = true) :
    (s.httpRequest rest mgServeHttp getTimeOfDay data sendMbuf).2 =
      (s.httpRequest rest mgServeHttp getTimeOfDay data sendMbuf).1.out.buf := by
  unfold httpRequest
  simp only [if_pos hapi]

/-- A request calls nothing, or once what its method is for; and a call that is answered with
another status than 200 has thrown. -/
theorem request_cases :
    let s' := (s.httpRequest rest mgServeHttp getTimeOfDay data sendMbuf).1
    s'.calls = s.calls ∨ ∃ c, s'.calls = s.calls ++ [c] ∧
      HttpMethod.parse data.method = some c.method.verb ∧
      (s'.out.status ≠ 200 → (rest s.calls c).2 ≠ none) := by
  by_cases hapi : (s.reset data).isApi = true
  · rcases exists_answer rest mgServeHttp getTimeOfDay data sendMbuf s hapi with
      ⟨c, -, hcalls, hreplies⟩ | ⟨e, -, hcalls, -⟩
    · obtain ⟨cs, heffects⟩ : ∃ cs, Effects data s
          (s.httpRequest rest mgServeHttp getTimeOfDay data sendMbuf).1 cs := exists_effects
      obtain rfl : cs = [c] := List.append_cancel_left (heffects.calls.symm.trans hcalls)
      refine Or.inr ⟨c, hcalls, (heffects.routed c (List.mem_singleton_self c)).1, ?_⟩
      intro hstatus hnone
      have hresult : rest s.calls c = ((rest s.calls c).1, none) := Prod.ext rfl hnone
      rw [hresult] at hreplies
      exact hstatus (Replies.status_eq hreplies)
    · exact Or.inl hcalls
  · rw [httpRequest_of_not_api hapi]
    exact Or.inl rfl

end Requests

/-- **A request for the API is one call, or is refused**, and the response tells which: it has
what the call wrote with the status 200, or what was thrown by the call, or what the server has
against the request. -/
theorem http_answers (rest : Rest) (mgServeHttp : HttpMessage → List Byte → List Byte)
    (getTimeOfDay : Int) (data : HttpMessage) (sendMbuf : List Byte) (s : RestServ)
    (hapi : (s.reset data).isApi = true) :
    let s' := (s.httpRequest rest mgServeHttp getTimeOfDay data sendMbuf).1
    (s.httpRequest rest mgServeHttp getTimeOfDay data sendMbuf).2 = s'.out.buf ∧
    ((∃ c, c.now = getSwirlyTime getTimeOfDay data ∧ s'.calls = s.calls ++ [c] ∧
        RepliesTo s'.out (rest s.calls c)) ∨
      ∃ e : Caught, (Refuses e ∨ e.status = 405) ∧ s'.calls = s.calls ∧
        Replies s'.out e.status e.reason e.toJson) :=
  ⟨httpRequest_buf rest mgServeHttp getTimeOfDay data sendMbuf s hapi,
    exists_answer rest mgServeHttp getTimeOfDay data sendMbuf s hapi⟩

end RestServ

namespace Mock

/-- The header in which the trader is told. -/
def httpUser : List Byte := bytes "Swirly-User"

/-- A server that has handled nothing. -/
def server : RestServ :=
  { httpUser, method := none, matchMethod := false, matchUri := false, uri := ⟨[]⟩, ids := [],
    request := .new, out := { buf := [], headSize := 0, lengthAt := 0, status := 0 }, calls := [] }

/-- MARAYL bids for 10 lots. -/
def postBid : HttpMessage where
  method := bytes "POST"
  uri := bytes "/api/sess/order/" ++ market.buf
  body := bytes "\x7b\"side\":\"BUY\",\"lots\":10,\"ticks\":12345\x7d"
  header name := if name = httpUser then marayl.buf else []

def noFiles : HttpMessage → List Byte → List Byte := fun _ sendMbuf => sendMbuf

/-- The bid without the header. -/
def postNobody : HttpMessage := { postBid with header := fun _ => [] }

/-- The interface of the service behind the server. -/
def rest : Rest := service.rest (fun _ => restEnv)

/-- What the bid asks for. -/
def bidMade : Call := ⟨.postOrder marayl.buf market.buf [] (some .buy) 10 12345 0, 0⟩

theorem postBid_calls :
    (server.httpRequest rest noFiles 0 postBid []).1.calls = [bidMade] := by
  decide +kernel

theorem postNobody_calls : (server.httpRequest rest noFiles 0 postNobody []).1.calls = [] := by
  decide +kernel

end Mock

/-- The bid is one call, whose answer is the response; it is not placed where nobody tells whose
it is. -/
theorem nobody_answers :
    RestServ.RepliesTo (Mock.server.httpRequest Mock.rest Mock.noFiles 0 Mock.postBid []).1.out
      (Mock.rest [] Mock.bidMade) ∧
    ∃ e : Caught, RestServ.Replies
      (Mock.server.httpRequest Mock.rest Mock.noFiles 0 Mock.postNobody []).1.out e.status
        e.reason e.toJson := by
  have hbid := RestServ.http_answers Mock.rest Mock.noFiles 0 Mock.postBid [] Mock.server
    (by decide)
  have hnobody := RestServ.http_answers Mock.rest Mock.noFiles 0 Mock.postNobody [] Mock.server
    (by decide)
  refine ⟨?_, ?_⟩
  · rcases hbid.2 with ⟨c, -, hcalls, hreplies⟩ | ⟨e, -, hcalls, -⟩
    · rw [Mock.postBid_calls] at hcalls
      obtain rfl := List.singleton_inj.mp hcalls
      exact hreplies
    · rw [Mock.postBid_calls] at hcalls
      exact absurd hcalls (List.cons_ne_nil _ _)
  · rcases hnobody.2 with ⟨c, -, hcalls, -⟩ | ⟨e, -, -, hreplies⟩
    · rw [Mock.postNobody_calls] at hcalls
      exact absurd hcalls.symm (by simp)
    · exact ⟨e, hreplies⟩

/-! ### Requests one after the other -/

/-- A request, the time when it comes and the buffer for its response. -/
structure Arrival where
  getTimeOfDay : Int
  data : HttpMessage
  sendMbuf : List Byte

/-- The server after requests. -/
def RestServ.serve (rest : Rest) (mgServeHttp : HttpMessage → List Byte → List Byte)
    (s : RestServ) (arrivals : List Arrival) : RestServ :=
  arrivals.foldl
    (fun s a => (s.httpRequest rest mgServeHttp a.getTimeOfDay a.data a.sendMbuf).1) s

theorem RestMethod.run_get {env : RestEnv} {now : Int} {s : Service} {m : RestMethod}
    (hverb : m.verb = .get) : (m.run env now s).1 = s := by
  cases m <;> first | rfl | cases hverb

section Server

variable {s₀ : Service} {env : Nat → RestEnv} {calls : List Call}

theorem afterCalls_servInv (h₀ : s₀.serv.Empty) (hmem : ∀ i site, (env i).env.alloc site = true)
    (hasks : ∀ c ∈ calls, c.method.Asks) : ServInv (s₀.afterCalls env calls).serv := by
  obtain ⟨trace, hrun⟩ := afterCalls_run hmem s₀ hasks
  exact ServiceRun.servInv h₀ hrun

/-- The service before and after one more call. -/
theorem afterCalls_grown (h₀ : s₀.serv.Empty) (hmem : ∀ i site, (env i).env.alloc site = true)
    {c : Call} (hasks : ∀ c' ∈ calls ++ [c], c'.method.Asks) :
    Grown (s₀.afterCalls env calls).serv (s₀.afterCalls env (calls ++ [c])).serv := by
  have hi := afterCalls_servInv h₀ hmem (fun c' hc => hasks c' (List.mem_append_left _ hc))
  rw [Service.afterCalls_snoc, RestMethod.run_state]
  cases hcall : c.method.serviceCall (env calls.length) c.now (s₀.afterCalls env calls) with
  | none => exact Grown.refl _
  | some call =>
      have hasked := hasks c (List.mem_append_right _ (List.mem_singleton_self c))
      exact Grown.step hi ⟨RestMethod.meets_serviceCall hasked (hmem _) hcall, rfl⟩

/-- A call that throws. -/
theorem afterCalls_unseen (h₀ : s₀.serv.Empty) (hmem : ∀ i site, (env i).env.alloc site = true)
    {c : Call} (hasks : ∀ c' ∈ calls ++ [c], c'.method.Asks)
    (hthrown : (s₀.rest env calls c).2 ≠ none) :
    Unseen (s₀.afterCalls env calls) (s₀.afterCalls env (calls ++ [c])) := by
  have hi := afterCalls_servInv h₀ hmem (fun c' hc => hasks c' (List.mem_append_left _ hc))
  rw [Service.afterCalls_snoc]
  exact RestMethod.throws_unseen hi (hmem _)
    (hasks c (List.mem_append_right _ (List.mem_singleton_self c))) hthrown

end Server

/-- **Requests one after the other keep the service coherent, and only add to it.** A request
with GET changes nothing, and one whose response has another status than 200 leaves nothing to
be seen. -/
theorem http_safe {s₀ : Service} {env : Nat → RestEnv} (h₀ : s₀.serv.Empty)
    (hmem : ∀ i site, (env i).env.alloc site = true)
    (mgServeHttp : HttpMessage → List Byte → List Byte) (s : RestServ)
    (arrivals : List Arrival) (a : Arrival)
    (hasks : ∀ c ∈ (s.serve (s₀.rest env) mgServeHttp (arrivals ++ [a])).calls, c.method.Asks) :
    let s₁ := s.serve (s₀.rest env) mgServeHttp arrivals
    let s₂ := s.serve (s₀.rest env) mgServeHttp (arrivals ++ [a])
    (s₀.afterCalls env s₂.calls).serv.Coherent ∧
    Grown (s₀.afterCalls env s₁.calls).serv (s₀.afterCalls env s₂.calls).serv ∧
    (HttpMethod.parse a.data.method = some .get →
      s₀.afterCalls env s₂.calls = s₀.afterCalls env s₁.calls) ∧
    (s₂.out.status ≠ 200 → Unseen (s₀.afterCalls env s₁.calls) (s₀.afterCalls env s₂.calls)) := by
  intro s₁ s₂
  have hsnoc : s₂ = (s₁.httpRequest (s₀.rest env) mgServeHttp a.getTimeOfDay a.data
      a.sendMbuf).1 := List.foldl_append ..
  rcases RestServ.request_cases (s₀.rest env) mgServeHttp a.getTimeOfDay a.data a.sendMbuf s₁ with
    hcalls | ⟨c, hcalls, hverb, hstatus⟩
  · rw [← hsnoc] at hcalls
    rw [← hcalls]
    exact ⟨(afterCalls_servInv h₀ hmem hasks).coherent, Grown.refl _, fun _ => rfl,
      fun _ => Unseen.refl _⟩
  · rw [← hsnoc] at hcalls hstatus
    refine ⟨(afterCalls_servInv h₀ hmem hasks).coherent, ?_, fun hget => ?_, fun hne => ?_⟩
    · rw [hcalls] at hasks ⊢
      exact afterCalls_grown h₀ hmem hasks
    · rw [hverb, Option.some_inj] at hget
      rw [hcalls, Service.afterCalls_snoc, RestMethod.run_get hget]
    · rw [hcalls] at hasks ⊢
      exact afterCalls_unseen h₀ hmem hasks (hstatus hne)

theorem Mock.serve_calls :
    (Mock.server.serve Mock.rest Mock.noFiles [⟨0, Mock.postBid, []⟩]).calls = [Mock.bidMade] := by
  decide +kernel

/-- The bid is in the journal, and all that there is agrees. -/
theorem post_safe :
    (Mock.service.afterCalls (fun _ => Mock.restEnv) [Mock.bidMade]).serv.Coherent ∧
    (Mock.service.afterCalls (fun _ => Mock.restEnv) [Mock.bidMade]).serv.journ.length = 1 := by
  refine ⟨?_, by decide⟩
  have hsafe := @http_safe _ (fun _ => Mock.restEnv) Mock.service_empty (fun _ _ => rfl)
    Mock.noFiles Mock.server [] ⟨0, Mock.postBid, []⟩ (fun c hc => by
      rw [List.nil_append] at hc
      have hmade : c ∈ [Mock.bidMade] := by
        rw [← Mock.serve_calls]
        exact hc
      rw [List.mem_singleton.mp hmade]
      exact (by decide : (0 : Int) < 10))
  have hcoherent := hsafe.1
  rw [List.nil_append] at hcoherent
  rw [← Mock.serve_calls]
  exact hcoherent

end Swirly
