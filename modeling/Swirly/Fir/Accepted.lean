import Swirly.Fig.Failure
import Swirly.Fir.RestMethods

/-!
# Swirly.Fir.Accepted

**The journal has the orders that were accepted.** A call that asks for an order and does not
throw has opened it with one execution in the journal, and no other call does
(`orders_journaled`): after any calls, the new orders of the journal are those of the calls that
did not throw, each with what was asked for, in the order of the calls. So an order that was
accepted is not lost, and one that was refused is not there.
-/

namespace Swirly

open Lib (Table)
open Lib.Effect (final_ok final_error)

/-- What an order is asked for with. -/
structure OrderAsk where
  trader : List Byte
  market : List Byte
  ref : FixedString 64
  side : Side
  lots : Int
  ticks : Int
  minLots : Int
  now : Int
  deriving DecidableEq

/-- What a call asks for, if it is about a new order. -/
def RestMethod.ask (now : Int) : RestMethod → Option OrderAsk
  | postOrder trader market ref (some side) lots ticks minLots =>
      some ⟨trader, market, .assign 64 ref, side, lots, ticks, minLots, now⟩
  | _ => none

/-- What the order of an execution was asked for with. -/
def Exec.ask (e : Exec) : OrderAsk :=
  ⟨e.trader.buf, e.market.buf, e.ref, e.side, e.lots, e.ticks, e.minLots, e.created⟩

/-- The orders that are new in the journal. -/
def newOrders (es : List Exec) : List OrderAsk :=
  (es.filter (fun e => e.state = .new)).map Exec.ask

/-- The orders of the calls that did not throw. -/
def Service.accepted (env : Nat → RestEnv) (s : Service) (calls : List Call) : List OrderAsk :=
  calls.zipIdx.flatMap (fun c =>
    if (s.rest env (calls.take c.2) c.1).2 = none then (c.1.method.ask c.1.now).toList else [])

theorem Service.accepted_snoc (env : Nat → RestEnv) (s : Service) (calls : List Call) (c : Call) :
    s.accepted env (calls ++ [c]) = s.accepted env calls ++
      if (s.rest env calls c).2 = none then (c.method.ask c.now).toList else [] := by
  unfold accepted
  rw [List.zipIdx_append, List.flatMap_append]
  congr 1
  · refine List.flatMap_congr (fun d hd => ?_)
    have hlt : d.2 < calls.length := by
      have := List.snd_lt_of_mem_zipIdx hd
      omega
    rw [List.take_append_of_le_length hlt.le]
  · simp

section Step

variable {env : Env} {s s' : Serv} {a : OrderArgs}

/-- A committed order is one that is new, and its trades are not. -/
theorem Traded.newOrders (hb : BooksOk s) (hv : a.Valid s) (ht : Traded s s' a) :
    newOrders s'.journ = newOrders s.journ ++ [(s.newExec a).ask] := by
  have hnew := Serv.batch_new hb hv
  unfold Serv.batch at hnew
  unfold Swirly.newOrders
  rw [ht.journ, List.filter_append, hnew, List.map_append]
  rfl

/-- The execution of a new order has what was asked for. -/
theorem Serv.newExec_ask (hv : a.Valid s) : (s.newExec a).ask =
    ⟨a.sess.buf, a.book.buf, .assign 64 a.ref, a.side, a.lots, a.ticks, a.minLots, a.now⟩ := by
  have hsess : (s.traders.get a.sess).mnem = a.sess := s.traders.key_get a.sess hv.sess
  have hbook : (s.markets.get a.book).mnem = a.book := s.markets.key_get a.book hv.book
  show OrderAsk.mk (s.traders.get a.sess).mnem.buf (s.markets.get a.book).mnem.buf
    (.assign 64 a.ref) a.side a.lots a.ticks a.minLots a.now = _
  rw [hsess, hbook]

end Step

section Calls

variable {env : RestEnv} {now : Int} {s : Service} {m : RestMethod}

/-- An order: it is new in the journal, or the call throws. -/
theorem RestEnv.postOrder_journ (hi : ServInv s.serv)
    (hmem : ∀ site, env.env.alloc site = true) (trader market ref : List Byte) (side : Side)
    (lots ticks minLots : Int) (hasks : 0 < lots) :
    newOrders (env.postOrder now s trader market ref side lots ticks minLots).1.serv.journ =
      newOrders s.serv.journ ++
        if (env.postOrder now s trader market ref side lots ticks minLots).2.2 = none then
          [⟨trader, market, .assign 64 ref, side, lots, ticks, minLots, now⟩] else [] := by
  unfold RestEnv.postOrder
  cases htrader : s.trader trader with
  | error e => simp
  | ok sess =>
      cases hmarket : s.market market with
      | error e => simp
      | ok book =>
          obtain ⟨hsess, rfl⟩ := Service.trader_ok htrader
          obtain ⟨hbook, rfl⟩ := Service.market_ok hmarket
          have hv : OrderArgs.Valid ⟨sess, book, ref, side, lots, ticks, minLots, now⟩ s.serv :=
            ⟨hsess, hbook, hasks⟩
          simp only [Service.createOrder]
          rcases createOrder_cases env.env {} hi.books hv.book hv.lots.le with
            ⟨c', s₁, hok, hC⟩ | ⟨e, c', herror, hf⟩
          · have ht := hC.traded hi.books hv.book hv.sess hv.lots.le hi.matchVec
            simp only [hok, if_true]
            rw [ht.newOrders hi.books hv, Serv.newExec_ask hv]
          · have halloc : NoAllocFailure env.env s.serv
                ⟨sess, book, ref, side, lots, ticks, minLots, now⟩ {} := hmem
            simp only [herror]
            rw [hf.journ_eq halloc.sound.2]
            simp

/-- A call about the records leaves the journal alone. -/
theorem RestMethod.recordCall_journ {call : ServiceCall} (h : m.recordCall env now = some call) :
    (call.apply s).serv.journ = s.serv.journ := by
  have hmeets : call.Meets (fun _ _ _ _ => False) s := by
    unfold recordCall at h
    split at h <;> cases h <;> exact trivial
  rcases call.apply_cases hmeets with hr | ⟨_, _, _, _, _, hfalse, _⟩
  · exact hr.journ
  · exact hfalse.elim

/-- **A call of `Rest`**: the order that it asks for is new in the journal if it does not
throw. -/
theorem RestMethod.run_journ (hi : ServInv s.serv) (hmem : ∀ site, env.env.alloc site = true)
    (hasks : m.Asks) : newOrders (m.run env now s).1.serv.journ = newOrders s.serv.journ ++
      if (m.run env now s).2.2 = none then (m.ask now).toList else [] := by
  have hquiet : m.ask now = none → (m.run env now s).1.serv.journ = s.serv.journ →
      newOrders (m.run env now s).1.serv.journ = newOrders s.serv.journ ++
        if (m.run env now s).2.2 = none then (m.ask now).toList else [] := by
    intro hask hjourn
    rw [hask, hjourn, Option.toList_none, ite_self, List.append_nil]
  cases hrecord : m.recordCall env now with
  | some call =>
      refine hquiet (by cases m <;> first | rfl | cases hrecord) ?_
      rw [run_state, serviceCall, hrecord]
      exact recordCall_journ hrecord
  | none =>
      cases m with
      | postOrder trader market ref side lots ticks minLots =>
          cases side with
          | none => exact hquiet rfl rfl
          | some side =>
              exact env.postOrder_journ hi hmem trader market ref side lots ticks minLots hasks
      | _ => first | exact hquiet rfl rfl | cases hrecord

end Calls

/-- **The new orders of the journal are those of the calls that did not throw**, in their
order. -/
theorem orders_journaled {s₀ : Service} {env : Nat → RestEnv} (h₀ : s₀.serv.Empty)
    (hmem : ∀ i site, (env i).env.alloc site = true) (calls : List Call)
    (hasks : ∀ c ∈ calls, c.method.Asks) :
    newOrders (s₀.afterCalls env calls).serv.journ = s₀.accepted env calls := by
  induction calls using List.reverseRecOn with
  | nil =>
      show newOrders s₀.serv.journ = []
      rw [h₀.journ]
      rfl
  | append_singleton calls c ih =>
      have hbefore : ∀ c ∈ calls, c.method.Asks := fun c hc => hasks c (List.mem_append_left _ hc)
      obtain ⟨trace, hrun⟩ := afterCalls_run hmem s₀ hbefore
      have hi := ServiceRun.servInv h₀ hrun
      rw [Service.afterCalls_snoc, Service.accepted_snoc, ← ih hbefore]
      exact RestMethod.run_journ hi (hmem _)
        (hasks c (List.mem_append_right _ (List.mem_singleton_self c)))

namespace Mock

/-- MARAYL bids for 10 lots; then a trader who is not known does. -/
def bidCalls : List Call :=
  [⟨.postOrder marayl.buf market.buf [] (some .buy) 10 12345 0, 0⟩,
    ⟨.postOrder dolfin.buf market.buf [] (some .buy) 10 12345 0, 0⟩]

end Mock

/-- The bid that is refused is not in the journal. -/
theorem bid_journaled :
    newOrders (Mock.service.afterCalls (fun _ => Mock.restEnv) Mock.bidCalls).serv.journ =
      [⟨Mock.marayl.buf, Mock.market.buf, .assign 64 [], .buy, 10, 12345, 0, 0⟩] :=
  (orders_journaled Mock.service_empty (fun _ _ => rfl) Mock.bidCalls
    (fun c hc => by
      rcases List.mem_cons.mp hc with rfl | hc
      · exact (by decide : (0 : Int) < 10)
      · rw [List.mem_singleton.mp hc]
        exact (by decide : (0 : Int) < 10))).trans (by decide +kernel)

end Swirly
