import Swirly.Fig.Totals

/-!
# Swirly.Fig.Applied

**What the journal has accepted is applied**, as long as no call runs out of memory behind the
journal (`run_applied`). Which calls do is a matter of allocations only, so nothing is asked of
what the others compute, and it may wrap: such a call throws with its executions in the
journal, and every other call that has journaled anything returns when it has committed just that
(`commits_iff`). Where the calls compute what fits, the journal can be compared with the books,
the sessions and the positions (`Applied`), and these come apart in the call that loses its
executions and in no other.
-/

namespace Swirly

open Lib (Heap KeySet Arith Traced int64 wrap)
open Lib.Effect

variable {w : Arith} {s₀ s : Serv}

/-! ### One call -/

/-- What a call owes to the journal: when the journal has accepted anything from it, it returns,
has committed just that, and has reported it within the room that the response had before the
commit phase, so that nothing there can run out of memory. -/
def CommitsIfAccepted (w : Arith) (s : Serv) (x : OrderCall) : Prop :=
  ((createOrder64 w x.env x.args).final ⟨s, x.resp⟩).serv.journ ≠ s.journ →
    ∃ c', createOrder64 w x.env x.args ⟨s, x.resp⟩ = .ok () c' ∧
      Commits64 w s x.args x.resp c' ∧ c'.resp.RoomFor 0

theorem journExecs_ne_nil (e : Exec) (ms : List Match) : journExecs e ms ≠ [] :=
  List.cons_ne_nil _ _

/-- A call loses executions, exactly if it throws with something journaled. -/
theorem loses64_iff (x : OrderCall) (hmv : s.matchVec = []) :
    Loses64 w x.env s x.args x.resp ↔
      ((createOrder64 w x.env x.args).final ⟨s, x.resp⟩).serv.journ ≠ s.journ ∧
        (createOrder64 w x.env x.args).returns ⟨s, x.resp⟩ = false := by
  rcases createOrder64_cases w x.env x.args x.resp hmv with
    ⟨c', hok, -, hprep, -⟩ | ⟨e, c', herror, hf⟩
  · rw [returns_ok hok]
    exact iff_of_false (fun h => h.2.2 hprep) (by simp)
  · rw [returns_error herror, final_error herror]
    cases hf with
    | clean hno _ hjourn _ =>
        exact iff_of_false (fun h => hno ⟨h.1, h.2.1⟩) (fun h => h.1 hjourn)
    | stranded hstrand hjourn _ =>
        exact iff_of_false (fun h => h.1.loop.not_strands hstrand) (fun h => h.1 hjourn)
    | lost hlost hjourn _ =>
        refine iff_of_true hlost ⟨?_, rfl⟩
        rw [hjourn]
        simp [journExecs_ne_nil]

/-- **A call commits what the journal has accepted**, exactly if it loses nothing. -/
theorem commits_iff (x : OrderCall) (hmv : s.matchVec = []) (hresp : x.resp.Cleared) :
    CommitsIfAccepted w s x ↔ ¬ Loses64 w x.env s x.args x.resp := by
  rw [loses64_iff x hmv]
  refine ⟨fun hcommits hlost => ?_, fun hno hne => ?_⟩
  · obtain ⟨_, hok, -⟩ := hcommits hlost.1
    rw [returns_ok hok] at hlost
    exact absurd hlost.2 (by decide)
  · rcases createOrder64_cases w x.env x.args x.resp hmv with
      ⟨c', hok, -, -, hcommits⟩ | ⟨e, c', herror, -⟩
    · exact ⟨c', hok, hcommits, hcommits.roomFor hresp⟩
    · exact absurd ⟨hne, returns_error herror⟩ hno

/-! ### Where the results fit -/

/-- What is asked of a call for the journal to be compared with the state: it is made with what
a request delivers, its tests let no order of minus some lots through, and what it computes
fits. -/
structure OrderCall.Counts (x : OrderCall) (s : Serv) : Prop where
  delivered : x.args.Delivered s
  lots : ChecksOk x.env s x.args → 0 < x.args.lots
  fits : TotalsFit x.env s x.args x.resp

namespace OrderCall.Counts

variable {x : OrderCall} (hx : x.Counts s)

include hx

theorem valid (hchecks : ChecksOk x.env s x.args) : x.args.Valid s :=
  ⟨hx.delivered.sess, hx.delivered.book, hx.lots hchecks⟩

/-- It is the call of the integers. -/
theorem call_eq (hw : w.Faithful int64) (hi : TotalsInv s) :
    createOrder64 w x.env x.args ⟨s, x.resp⟩ = createOrder x.env x.args ⟨s, x.resp⟩ :=
  hi.createOrder64_eq hw hx.delivered hx.lots hx.fits

/-- The conditions on memory are those of the integers. -/
theorem not_strands (hw : w.Faithful int64) (hi : TotalsInv s)
    (h : ¬ Strands64 w x.env s x.args) : ¬ Strands x.env s x.args := by
  intro hstrands
  refine hstrands.matchVec_ne hi.toCallInv x.resp (hx.valid hstrands.1) ?_
  rw [← final_eq (hx.call_eq hw hi)]
  exact (matchVec_iff x.env x.args x.resp hi.matchVec).mpr h

theorem loses_iff (hw : w.Faithful int64) (hi : TotalsInv s) :
    Loses64 w x.env s x.args x.resp ↔ Loses x.env s x.args x.resp := by
  by_cases hchecks : ChecksOk x.env s x.args
  · have hcall := hx.call_eq hw hi
    have hreturns : (createOrder64 w x.env x.args).returns ⟨s, x.resp⟩ =
        (createOrder x.env x.args).returns ⟨s, x.resp⟩ := by
      unfold Lib.Effect.returns
      rw [hcall]
    rw [loses64_iff x hi.matchVec, loses_iff_throws hi.toCallInv (hx.valid hchecks),
      final_eq hcall, hreturns]
  · exact iff_of_false (fun h => hchecks h.1.checks) (fun h => hchecks h.1.checks)

/-- The books and the quantities in them are in order after it. -/
theorem totalsInv (hw : w.Faithful int64) (hi : TotalsInv s)
    (hstrand : ¬ Strands64 w x.env s x.args) :
    TotalsInv ((createOrder64 w x.env x.args).final ⟨s, x.resp⟩).serv := by
  rw [final_eq (hx.call_eq hw hi)]
  by_cases hchecks : ChecksOk x.env s x.args
  · refine hi.call hx.delivered (hx.lots hchecks) (fun hreaches => ?_)
      (hx.not_strands hw hi hstrand)
    exact (hx.fits.placing hreaches.checks hreaches.openOk hreaches.loop).room (hx.lots hchecks)
  · rw [createOrder_rejected hchecks]
    exact hi

/-- **Journal and state stay together** in a call that loses nothing. -/
theorem servInv (hw : w.Faithful int64) (hi : TotalsInv s) (hs : ServInv s)
    (hresp : x.resp.Cleared) (hstrand : ¬ Strands64 w x.env s x.args)
    (hlost : ¬ Loses64 w x.env s x.args x.resp) :
    ServInv ((createOrder64 w x.env x.args).final ⟨s, x.resp⟩).serv := by
  rw [final_eq (hx.call_eq hw hi)]
  by_cases hchecks : ChecksOk x.env s x.args
  · refine hs.step ⟨x.env, x.args, x.resp, hx.valid hchecks, hresp, ⟨?_, ?_⟩, rfl⟩
    · exact hx.not_strands hw hi hstrand
    · exact fun h => hlost ((hx.loses_iff hw hi).mpr h)
  · rw [createOrder_rejected hchecks]
    exact hs

/-- They do not in one that loses its executions: the order that these are about is in no
session. -/
theorem not_applied (hw : w.Faithful int64) (hi : TotalsInv s) (hs : ServInv s)
    (hlost : Loses64 w x.env s x.args x.resp) :
    ¬ Applied ((createOrder64 w x.env x.args).final ⟨s, x.resp⟩).serv := by
  intro happlied
  have hv := hx.valid hlost.1.checks
  rw [final_eq (hx.call_eq hw hi)] at happlied
  have ho := ((hx.loses_iff hw hi).mp hlost).orphaned hi.toCallInv hv
  have hnew : s.newExec x.args ∈ ((createOrder x.env x.args).final ⟨s, x.resp⟩).serv.journ := by
    rw [ho.journ]
    exact List.mem_append_right _ List.mem_cons_self
  obtain ⟨n, hn, hmarket, hid⟩ := happlied.orders _ hnew
  have htrader : (s.newExec x.args).trader = x.args.sess := s.traders.key_get _ hv.sess
  have hbook : (s.newExec x.args).market = x.args.book := s.markets.key_get _ hv.book
  have hnew_id : (s.newExec x.args).orderId = (s.markets.get x.args.book).maxOrderId + 1 := rfl
  rw [htrader, (ho.sess _).orders] at hn
  -- The entries of the session are as old as the state before the call.
  have hle := (hs.sessions.held _ hv.sess n hn).id_le
  rw [hmarket, hbook, hid, hnew_id] at hle
  omega

end OrderCall.Counts

/-! ### In every run -/

/-- A run of calls that strand no match and compute what fits. -/
theorem applied_iff (hw : w.Faithful int64) (h₀ : s₀.Empty) {trace : List (Serv × OrderCall)}
    (hrun : Traced (OrderCall.Step64 w) s₀ trace s) (hresp : ∀ e ∈ trace, e.2.resp.Cleared)
    (hstrand : ∀ e ∈ trace, ¬ Strands64 w e.2.env e.1 e.2.args)
    (hcounts : ∀ e ∈ trace, e.2.Counts e.1) :
    TotalsInv s ∧ ((∀ e ∈ trace, Applied e.1) ∧ Applied s ↔
      ∀ e ∈ trace, ¬ Loses64 w e.2.env e.1 e.2.args e.2.resp) ∧
    ((∀ e ∈ trace, ¬ Loses64 w e.2.env e.1 e.2.args e.2.resp) → ServInv s) := by
  induction hrun with
  | nil =>
      have hi := ServInv.init h₀
      exact ⟨TotalsInv.init h₀.toEmptyBooks, iff_of_true ⟨by simp, hi.applied⟩ (by simp),
        fun _ => hi⟩
  | @snoc trace s s' x hrun hstep ih =>
      rw [List.forall_mem_append, List.forall_mem_singleton] at hresp hstrand hcounts
      obtain ⟨hi, hiff, hserv⟩ := ih hresp.1 hstrand.1 hcounts.1
      have hx := hcounts.2
      simp only [List.forall_mem_append, List.forall_mem_singleton]
      rw [hstep]
      refine ⟨hx.totalsInv hw hi hstrand.2, ⟨?_, ?_⟩, ?_⟩
      · rintro ⟨hbefore, hafter⟩
        have hkept := hiff.mp hbefore
        exact ⟨hkept, fun hlost => hx.not_applied hw hi (hserv hkept) hlost hafter⟩
      · rintro ⟨hkept, hlast⟩
        exact ⟨hiff.mpr hkept, (hx.servInv hw hi (hserv hkept) hresp.2 hstrand.2 hlast).applied⟩
      · rintro ⟨hkept, hlast⟩
        exact hx.servInv hw hi (hserv hkept) hresp.2 hstrand.2 hlast

namespace Mock

theorem order_counts {s : Serv} {trader : Mnem} {side : Side} {lots ticks : Int}
    (ha : (order trader side lots ticks).Delivered s) (hlots : 0 < lots)
    (hfits : TotalsFit env s (order trader side lots ticks) {}) :
    OrderCall.Counts ⟨env, order trader side lots ticks, {}⟩ s :=
  ⟨ha, fun _ => hlots, hfits⟩

/-- Memory for anything but the orders of the response. -/
def noRoom : Env := { env with alloc := fun site => site ≠ .respOrders }

/-- MARAYL bids for ten lots, and there is no room for the order in the response. -/
def bidNoRoom : OrderCall := ⟨noRoom, order marayl .buy 10 12345, {}⟩

theorem env_noLoses (s : Serv) (a : OrderArgs) (resp : Response) :
    ¬ Loses64 (wrap int64) env s a resp := by
  rintro ⟨-, -, hno⟩
  exact hno ⟨fun _ => Or.inr rfl, fun _ => rfl, fun _ => rfl⟩

end Mock

end Swirly
