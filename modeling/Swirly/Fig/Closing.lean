import Swirly.Elm.Date
import Swirly.Fig.Failure
import Swirly.Fig.ServiceRun

/-!
# Swirly.Fig.Closing

**A market closes at 5 pm in New York on its expiry day.** The service compares the expiry day
with the business day of the call. In terms of the clock in New York this says when the last
execution may be made (`market_closes`), and that a market once closed is never open again: the
expiry day stays what it was when the market was created, and the business day does not go back
(`Expired.later`).
-/

namespace Swirly

open Lib (Zone Traced)
open Lib.Effect

/-- Calls that go by the business day in New York. -/
def ByNewYork (z : Zone) : CallCond := fun env s a resp =>
  Sound env s a resp ∧ env.getBusDay = getBusDay z

/-- A time before a market with the expiry day closes. -/
def BeforeClose (z : Zone) (expiryDay now : Int) : Prop :=
  expiryDay ≠ 0 → epochDay + z.date now < expiryDay ∨
    epochDay + z.date now = expiryDay ∧ z.clock now < rollHour * hour

section Calls

variable {z : Zone} {env env' : Env} {s s' : Serv} {a a' : OrderArgs} {resp : Response}

/-- A call that is not too late is made before the market closes. -/
theorem beforeClose_iff (hz : IsNewYork z) (hday : env.getBusDay = getBusDay z) :
    ¬ Expired env s a ↔ BeforeClose z (s.markets.get a.book).expiryDay a.now := by
  unfold Expired BeforeClose
  rw [hday, ← getBusDay_le_iff hz, not_and, not_lt]

/-- An execution of a call is made at the time of the call. -/
theorem Serv.batch_created {e : Exec} (he : e ∈ s.batch a) : e.created = a.now := by
  rcases List.mem_cons.mp he with rfl | he
  · rfl
  · obtain ⟨m, hm, ht⟩ := mem_tradesOf.mp he
    obtain ⟨f, hf, sums, id, rfl⟩ := mem_buildMatches hm
    rcases ht with rfl | rfl
    · rfl
    · rfl

/-- **A market that is closed stays closed.** -/
theorem Expired.later (h : Expired env s a) (hday : env.getBusDay = getBusDay z)
    (hday' : env'.getBusDay = getBusDay z) (hbook : a'.book = a.book) (hnow : a.now ≤ a'.now)
    (hexpiry : (s'.markets.get a.book).expiryDay = (s.markets.get a.book).expiryDay) :
    Expired env' s' a' := by
  obtain ⟨hne, hlt⟩ := h
  unfold Expired
  rw [hbook, hexpiry, hday']
  rw [hday] at hlt
  exact ⟨hne, lt_of_lt_of_le hlt (getBusDay_mono hnow)⟩

/-- A call that is too late throws, and does nothing, whatever else is wrong with it: this is
the first thing that is tested. -/
theorem Expired.throws (h : Expired env s a) (resp : Response) :
    ∃ contr settlDate, createOrder env a ⟨s, resp⟩ =
      .error (.marketClosed contr settlDate) ⟨s, resp⟩ := by
  refine ⟨(s.markets.get a.book).contr, maybeJdToIso (s.markets.get a.book).settlDay, ?_⟩
  have hwp : wp (createOrder env a) (fun _ _ => False)
      (fun e c' => e = .marketClosed (s.markets.get a.book).contr
        (maybeJdToIso (s.markets.get a.book).settlDay) ∧ c' = ⟨s, resp⟩) ⟨s, resp⟩ := by
    unfold createOrder checkOrder
    simp only [wp_bind, wp_get, wp_ite, wp_throw]
    exact ⟨fun _ => ⟨trivial, trivial⟩, fun hopen => absurd h hopen⟩
  rcases wp_cases hwp with ⟨_, _, _, hno⟩ | ⟨_, _, herror, rfl, rfl⟩
  · exact hno.elim
  · exact herror

end Calls

section Runs

variable {z : Zone} {s₀ s s' : Service} {trace trace' : List (Service × ServiceCall)}

/-- The executions are all made before their markets close. -/
def InTime (z : Zone) (s : Serv) : Prop :=
  ∀ e ∈ s.journ, BeforeClose z (s.markets.get e.market).expiryDay e.created

/-- What there was is in time still. -/
theorem InTime.grown {s s' : Serv} (h : InTime z s) (hi : ServInv s) (hg : Grown s s')
    (es : List Exec) (hjourn : s'.journ = s.journ ++ es)
    (hnew : ∀ e ∈ es, BeforeClose z (s'.markets.get e.market).expiryDay e.created) :
    InTime z s' := by
  intro e he
  rw [hjourn] at he
  rcases List.mem_append.mp he with he | he
  · obtain ⟨-, hmarket, -⟩ := hi.coherent.journ e he
    rw [(hg.market e.market hmarket).expiryDay]
    exact h e he
  · exact hnew e he

/-- A call that goes by New York is one of a sound run. -/
theorem meets_sound {call : ServiceCall} (h : call.Meets (ByNewYork z) s) :
    call.Meets Sound s := by
  cases call with
  | createOrder env a resp => exact ⟨h.1, h.2.1, h.2.2.1⟩
  | _ => exact trivial

/-- **A call**: it is made before the market closes, or makes no execution. -/
theorem InTime.step (hz : IsNewYork z) {call : ServiceCall} (h : InTime z s.serv)
    (hi : ServInv s.serv) (hmeets : call.Meets (ByNewYork z) s) :
    InTime z (call.apply s).serv := by
  have hg : Grown s.serv (call.apply s).serv := Grown.step hi ⟨meets_sound hmeets, rfl⟩
  rcases call.apply_cases hmeets with hr | ⟨env, a, resp, hv, -, ⟨hsound, hday⟩, hserv⟩
  · refine h.grown hi hg [] ?_ (by simp)
    rw [hr.journ, List.append_nil]
  · rcases createOrder_cases env resp hi.books hv.book hv.lots.le with
      ⟨c', s₁, hok, hC⟩ | ⟨e, c', herror, hf⟩
    · rw [final_ok hok] at hserv
      have ht := hC.traded hi.books hv.book hv.sess hv.lots.le hi.matchVec
      rw [← hserv] at ht
      refine h.grown hi hg _ ht.journ (fun e he => ?_)
      have hopen := (beforeClose_iff hz hday).mp hC.reaches.checks.1
      rw [Serv.batch_market hi.books hv he, Serv.batch_created he,
        (hg.market a.book hv.book).expiryDay]
      exact hopen
    · rw [final_error herror] at hserv
      refine h.grown hi hg [] ?_ (by simp)
      rw [hserv, hf.journ_eq hsound.2, List.append_nil]

/-- What every run keeps. -/
theorem InTime.run (hz : IsNewYork z) (hi : ServInv s.serv) (h : InTime z s.serv)
    (hrun : ServiceRun (ByNewYork z) s trace s') :
    ServInv s'.serv ∧ InTime z s'.serv ∧ Grown s.serv s'.serv := by
  refine hrun.invariant
    (I := fun s' => ServInv s'.serv ∧ InTime z s'.serv ∧ Grown s.serv s'.serv)
    ⟨hi, h, Grown.refl _⟩ ?_
  rintro s₁ call _ ⟨hi₁, h₁, hg⟩ ⟨hmeets, rfl⟩
  have hstep : ServiceStep Sound s₁ call (call.apply s₁) := ⟨meets_sound hmeets, rfl⟩
  exact ⟨hi₁.serviceStep hstep, h₁.step hz hi₁ hmeets, hg.trans (Grown.step hi₁ hstep)⟩

end Runs

namespace Mock

def newYorkEnv : Env := { env with getBusDay := getBusDay newYork }

/-- The last bid for EURUSD.MAR14, on March 12. -/
def lastBid : OrderArgs := { order marayl .buy 10 12345 with now := 1394657999999 }

def lastBidCall : ServiceCall := .createOrder newYorkEnv lastBid {}

theorem lastBid_run :
    ServiceRun (ByNewYork newYork) service [(service, lastBidCall)] (lastBidCall.apply service) :=
  Traced.nil.snoc ⟨⟨⟨by decide, by decide, by decide⟩, ⟨rfl, rfl, rfl, rfl⟩,
    NoAllocFailure.sound (fun _ => rfl), rfl⟩, rfl⟩

end Mock

end Swirly
