import Swirly.Lib.Trace
import Swirly.Swirlyd.Routes

/-!
# Swirly.Swirlyd.Connection

**A connection and its bytes.** Between requests the network takes bytes off the send buffer
in its own time; a client that does not wait may have its next request handled while there
are some left. `httpRequest` writes each response into the buffer as if it were empty, and
what is left there is gone. So nothing is lost exactly if every request is handled with the
buffer flushed (`responses_delivered_iff`).
-/

namespace Swirly

open Lib (Traced)

/-- A connection and the server behind it. -/
structure Conn where
  serv : RestServ
  /-- The bytes delivered. -/
  sent : List Byte
  /-- `nc.send_mbuf`. -/
  unsent : List Byte
  /-- The complete responses of the requests handled, one after the other. -/
  responses : List Byte

/-- What happens to a connection. -/
inductive ConnEvent
  /-- A request is handled at a time of the day. -/
  | request (getTimeOfDay : Int) (data : HttpMessage)
  /-- The network takes `n` bytes. -/
  | flush (n : Nat)

namespace Conn

/-- A new connection. -/
def new (serv : RestServ) : Conn := { serv, sent := [], unsent := [], responses := [] }

section Steps

variable (rest : Rest) (mgServeHttp : HttpMessage → List Byte → List Byte)

/-- The complete response to a request: what is written into an empty buffer. -/
def response (c : Conn) (getTimeOfDay : Int) (data : HttpMessage) : List Byte :=
  (c.serv.httpRequest rest mgServeHttp getTimeOfDay data []).2

/-- One event: a request for the API, or the network takes the first bytes. -/
inductive Step : Conn → ConnEvent → Conn → Prop
  | request {c : Conn} {getTimeOfDay : Int} {data : HttpMessage}
      (hapi : (c.serv.reset data).isApi = true) :
      Step c (.request getTimeOfDay data)
        { c with
          serv := (c.serv.httpRequest rest mgServeHttp getTimeOfDay data c.unsent).1
          unsent := (c.serv.httpRequest rest mgServeHttp getTimeOfDay data c.unsent).2
          responses := c.responses ++ c.response rest mgServeHttp getTimeOfDay data }
  | flush {c : Conn} {n : Nat} (hpos : 0 < n) (hle : n ≤ c.unsent.length) :
      Step c (.flush n)
        { c with sent := c.sent ++ c.unsent.take n, unsent := c.unsent.drop n }

end Steps

/-- No byte is lost, and none is there twice. -/
def Complete (c : Conn) : Prop := c.sent ++ c.unsent = c.responses

/-- A request is handled only when the buffer is flushed. -/
def Flushed (c : Conn) : ConnEvent → Prop
  | .request _ _ => c.unsent = []
  | .flush _ => True

section Runs

variable {rest : Rest} {mgServeHttp : HttpMessage → List Byte → List Byte} {serv : RestServ}
  {c c' : Conn} {e : ConnEvent} {trace : List (Conn × ConnEvent)}

theorem attach_sendMbuf (s : RestServ) (sendMbuf : List Byte) :
    s.attach sendMbuf = s.attach [] := by
  unfold RestServ.attach
  rw [OStream.reset_eq _ { s.out with buf := [] }]

/-- What a request leaves in the buffer does not depend on what was there. -/
theorem httpRequest_sendMbuf {getTimeOfDay : Int} {data : HttpMessage} (sendMbuf : List Byte)
    (hapi : (serv.reset data).isApi = true) :
    serv.httpRequest rest mgServeHttp getTimeOfDay data sendMbuf =
      serv.httpRequest rest mgServeHttp getTimeOfDay data [] := by
  unfold RestServ.httpRequest
  simp only [if_pos hapi]
  rw [attach_sendMbuf]

/-- **A request keeps the bytes exactly if the buffer is flushed**; the network always does. -/
theorem Step.complete_iff (hstep : Step rest mgServeHttp c e c') (hcomplete : c.Complete) :
    c'.Complete ↔ c.Flushed e := by
  unfold Complete at hcomplete ⊢
  cases hstep with
  | request hapi =>
      next getTimeOfDay data =>
      show c.sent ++ (c.serv.httpRequest rest mgServeHttp getTimeOfDay data c.unsent).2 =
        c.responses ++ c.response rest mgServeHttp getTimeOfDay data ↔ c.unsent = []
      rw [httpRequest_sendMbuf c.unsent hapi, ← hcomplete, List.append_assoc,
        List.append_cancel_left_eq]
      exact List.self_eq_append_left
  | flush hpos hle =>
      next n =>
      show c.sent ++ c.unsent.take n ++ c.unsent.drop n = c.responses ↔ True
      rw [List.append_assoc, List.take_append_drop, hcomplete]
      exact iff_true_intro rfl

/-- **The bytes are kept all the way exactly if every request finds the buffer flushed.** -/
theorem responses_delivered_iff
    (hrun : Traced (Step rest mgServeHttp) (.new serv) trace c) :
    (∀ e ∈ trace, e.1.Complete) ∧ c.Complete ↔ ∀ e ∈ trace, e.1.Flushed e.2 := by
  have hnew : (Conn.new serv).Complete := rfl
  exact hrun.holds_iff (I := fun _ => True) trivial hnew (fun _ _ _ _ _ => trivial)
    (fun _ _ _ _ hcomplete hstep => hstep.complete_iff hcomplete)

end Runs

namespace Mock

/-- Every method writes an empty list. -/
def rest : Rest := fun _ _ => (bytes "[]", none)

/-- No files. -/
def noFiles : HttpMessage → List Byte → List Byte := fun _ sendMbuf => sendMbuf

/-- `GET /api/rec/asset` -/
def getAssets : HttpMessage :=
  { method := bytes "GET", uri := bytes "/api/rec/asset", body := [], header := fun _ => [] }

/-- A server that has handled nothing. -/
def serv : RestServ :=
  { httpUser := bytes "Swirly-User", method := none, matchMethod := false, matchUri := false,
    uri := ⟨[]⟩, ids := [], request := .new,
    out := { buf := [], headSize := 0, lengthAt := 0, status := 0 }, calls := [] }

/-- The connection after a request. -/
def afterRequest (c : Conn) : Conn :=
  { c with
    serv := (c.serv.httpRequest rest noFiles 0 getAssets c.unsent).1
    unsent := (c.serv.httpRequest rest noFiles 0 getAssets c.unsent).2
    responses := c.responses ++ c.response rest noFiles 0 getAssets }

/-- The connection after the network has taken what there is. -/
def afterFlush (c : Conn) : Conn :=
  { c with
    sent := c.sent ++ c.unsent.take c.unsent.length
    unsent := c.unsent.drop c.unsent.length }

theorem step_request {c : Conn} (hapi : (c.serv.reset getAssets).isApi = true) :
    Step rest noFiles c (.request 0 getAssets) (afterRequest c) := .request hapi

theorem step_flush {c : Conn} (hne : c.unsent ≠ []) :
    Step rest noFiles c (.flush c.unsent.length) (afterFlush c) :=
  .flush (List.length_pos_iff.mpr hne) (Nat.le_refl _)

end Mock

set_option maxRecDepth 4000 in
/-- A client that waits for each response gets them all. -/
theorem flushed_delivered :
    (Mock.afterRequest (Mock.afterFlush (Mock.afterRequest (.new Mock.serv)))).Complete := by
  have hrun : Traced (Step Mock.rest Mock.noFiles) (.new Mock.serv) _
      (Mock.afterRequest (Mock.afterFlush (Mock.afterRequest (.new Mock.serv)))) :=
    .snoc (.snoc (.snoc .nil (Mock.step_request (by decide))) (Mock.step_flush (by decide)))
      (Mock.step_request (by decide))
  refine ((responses_delivered_iff hrun).mpr ?_).2
  simp [Flushed, new, Mock.afterFlush]

set_option maxRecDepth 4000 in
/-- **A second request that is handled before the first response is taken leaves nothing of
it.** -/
theorem pipelined_response_lost : ∃ trace c,
    Traced (Step Mock.rest Mock.noFiles) (.new Mock.serv) trace c ∧ c.sent = [] ∧
    c.responses = c.unsent ++ c.unsent ∧ ¬ c.Complete := by
  have hrun : Traced (Step Mock.rest Mock.noFiles) (.new Mock.serv) _
      (Mock.afterRequest (Mock.afterRequest (.new Mock.serv))) :=
    .snoc (.snoc .nil (Mock.step_request (by decide))) (Mock.step_request (by decide))
  exact ⟨_, _, hrun, rfl, by decide, by unfold Complete; decide⟩

end Conn

end Swirly
