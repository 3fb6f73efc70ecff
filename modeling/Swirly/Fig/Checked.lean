import Swirly.Lib.Checked
import Swirly.Fig.Run

/-!
# Swirly.Fig.Checked

**`createOrder` with its assertions compiled in.** The assertions of the source stand two
layers below the call and are gone in a release build. `createOrderChecked` is the same
call with a check wherever one of them is reached, and with two checks that the source
relies on and does not make: every match is of some lots, and no quantity is negative.
`createOrderChecked_erases` says that the checks are all it adds.
-/

namespace Swirly

open Lib (Heap)
open Lib.Effect (withFinally)
open Lib.Checked (lift check Erases)

/-- What a call is checked for: three assertions of the source, and two properties that it never
states. -/
inductive Check
  /-- The assertions of `BookSide::insertOrder`. -/
  | insertOrder
  /-- Those of `BookSide::removeOrder`. -/
  | removeOrder
  /-- Those of `BookSide::reduceLevel`. -/
  | reduceLevel
  /-- Every match is of some lots. -/
  | matchLots
  /-- No quantity is negative. -/
  | nonNeg
  deriving DecidableEq

/-- Calls of the service with checks. -/
abbrev CheckedM := Lib.Checked Exn Check Ctx

/-! ### What is checked -/

namespace BookSide

instance (o : Order) : Decidable (InsertAsserts o) :=
  inferInstanceAs (Decidable (_ ∧ _ ∧ _ ∧ _ ∧ _ ∧ _))

instance (h : Heap Order) (b : BookSide) (level : Int) (order : OrderPtr) :
    Decidable (RemoveAsserts h b level order) :=
  match hf : b.levels.find? level with
  | none => .isTrue (by intro l hl; rw [hf] at hl; cases hl)
  | some l =>
      decidable_of_iff ((l.subOrder (h order)).count = 0 → (l.subOrder (h order)).resd = 0)
        ⟨fun himp l' hl' => by rw [hf] at hl'; cases hl'; exact himp, fun hall => hall l hf⟩

instance (h : Heap Order) (b : BookSide) (level : Int) (order : OrderPtr) (delta : Int) :
    Decidable (ReduceAsserts h b level order delta) :=
  inferInstanceAs (Decidable (_ ∧ _ ∧ (_ → _ ∧ _)))

end BookSide

/-- The lots of a level, as its 64-bit field holds them: a sum that does not fit wraps
around. -/
def Level.resd64 (l : Level) : Int := l.resd.bmod (2 ^ 64)

/-- Neither the residual nor the executed lots are negative. -/
def Order.NonNeg (o : Order) : Prop := 0 ≤ o.resd ∧ 0 ≤ o.exec

/-- Nothing on the side is negative: neither in the orders at rest, nor in the 64-bit lots of the
levels. -/
def BookSide.NonNeg (h : Heap Order) (b : BookSide) : Prop :=
  (∀ p ∈ b.orders, (h p).NonNeg) ∧ ∀ l ∈ b.levels.elems, 0 ≤ l.resd64

instance (o : Order) : Decidable o.NonNeg := inferInstanceAs (Decidable (_ ∧ _))

instance (h : Heap Order) (b : BookSide) : Decidable (b.NonNeg h) :=
  inferInstanceAs (Decidable (_ ∧ _))

namespace Serv

/-- Neither the order nor anything in the market is negative. -/
def NonNeg (s : Serv) (m : Mnem) (p : OrderPtr) : Prop :=
  (s.heap p).NonNeg ∧ (s.markets.get m).bidSide.NonNeg s.heap ∧
    (s.markets.get m).offerSide.NonNeg s.heap

/-- The assertions of the market's `removeOrder`, if the order rests in a level; there is nothing
to assert for one that does not. -/
def RemoveOk (s : Serv) (m : Mnem) (p : OrderPtr) : Prop :=
  ∀ k ∈ (s.heap p).level,
    ((s.markets.get m).side (s.heap p).side).RemoveAsserts s.heap k p

/-- The assertions of the market's `takeOrder`, if the order rests in a level; there is nothing to
assert for one that does not. -/
def TakeOk (s : Serv) (m : Mnem) (p : OrderPtr) (lots : Int) : Prop :=
  ∀ k ∈ (s.heap p).level,
    ((s.markets.get m).side (s.heap p).side).ReduceAsserts s.heap k p lots

instance (s : Serv) (m : Mnem) (p : OrderPtr) : Decidable (s.NonNeg m p) :=
  inferInstanceAs (Decidable (_ ∧ _ ∧ _))

instance (s : Serv) (m : Mnem) (p : OrderPtr) : Decidable (s.RemoveOk m p) :=
  inferInstanceAs (Decidable (∀ k ∈ (s.heap p).level, _))

instance (s : Serv) (m : Mnem) (p : OrderPtr) (lots : Int) : Decidable (s.TakeOk m p lots) :=
  inferInstanceAs (Decidable (∀ k ∈ (s.heap p).level, _))

end Serv

/-! ### The call -/

/-- `placeOrder`: the order is asserted on before it is inserted. -/
def placeOrderChecked (env : Env) (book : Mnem) (order : OrderPtr) : CheckedM Unit := do
  check .insertOrder (fun c =>
    (c.serv.heap order).done = true ∨ BookSide.InsertAsserts (c.serv.heap order))
  lift (placeOrder env book order)

/-- `journOrder`: the guard may have to remove the order. -/
def journOrderChecked (env : Env) (book : Mnem) (order : OrderPtr) (exec : Exec) :
    CheckedM Unit := do
  check .removeOrder (fun c =>
    env.journ = true ∨ (c.serv.heap order).done = true ∨ c.serv.RemoveOk book order)
  lift (journOrder env book order exec)

/-- One iteration of `commitMatches`: the maker's level is asserted on before the lots are taken,
and the market looked at afterwards. -/
def commitMatchChecked (sess book : Mnem) (now : Int) (m : Match) : CheckedM Unit := do
  check .reduceLevel (fun c => c.serv.TakeOk book m.makerOrder m.lots)
  lift (modify (Ctx.commitMatch sess now · m))
  check .nonNeg (fun c => c.serv.NonNeg book m.makerOrder)

/-- `commitMatches`, with the checks of each iteration. The first one that fails ends the call. -/
def commitMatchesChecked (sess book : Mnem) (now : Int) : List Match → CheckedM Unit
  | [] => return
  | m :: ms => do
      commitMatchChecked sess book now m
      commitMatchesChecked sess book now ms

/-- The commit phase, which does not throw, but may fail a check. -/
def commitOrderChecked (a : OrderArgs) (order : OrderPtr) (exec : Exec) : CheckedM Unit := do
  lift (modify (fun c =>
    { serv := c.serv.insertSessOrder a.sess order
      resp := (c.resp.insertOrder order).insertExec exec }))
  commitMatchesChecked a.sess a.book a.now (← get).serv.matchVec

/-- `createOrder`, with every check at the point where the source would make it. Without the
checks it is `createOrder` (`createOrderChecked_erases`). -/
def createOrderChecked (env : Env) (a : OrderArgs) : CheckedM Unit := do
  lift (checkOrder env a)
  let (order, exec) ← lift (openOrder env a)
  lift (matchOrders env a.book order a.now)
  check .matchLots (fun c => ∀ m ∈ c.serv.matchVec, 0 < m.lots)
  check .nonNeg (fun c => c.serv.NonNeg a.book order)
  withFinally Ctx.clearMatches do
    placeOrderChecked env a.book order
    check .nonNeg (fun c => c.serv.NonNeg a.book order)
    journOrderChecked env a.book order exec
    lift (preparePosn env a)
    lift (prepareResp env a)
    commitOrderChecked a order exec

/-! ### The checks are all that is added -/

theorem commitMatchesChecked_erases (sess book : Mnem) (now : Int) (ms : List Match) :
    Erases (commitMatchesChecked sess book now ms)
      (modify (fun c => ms.foldl (Ctx.commitMatch sess now) c)) := by
  induction ms with
  | nil => exact Erases.lift (pure ())
  | cons m ms ih =>
      have hone : Erases (commitMatchChecked sess book now m)
          (do pure (); modify (Ctx.commitMatch sess now · m); pure ()) :=
        (Erases.check _ _).bind (fun _ => (Erases.lift _).bind (fun _ => Erases.check _ _))
      exact hone.bind (fun _ => ih)

/-- The commit phase, in two steps. -/
theorem modify_commitOrder (a : OrderArgs) (order : OrderPtr) (exec : Exec) :
    (modify (Ctx.commitOrder a order exec) : ServM PUnit) = (do
      modify (fun c =>
        { serv := c.serv.insertSessOrder a.sess order
          resp := (c.resp.insertOrder order).insertExec exec })
      let c ← get
      modify (fun c' => c.serv.matchVec.foldl (Ctx.commitMatch a.sess a.now) c')) := by
  funext c
  show EStateM.Result.ok PUnit.unit (Ctx.commitOrder a order exec c) = .ok PUnit.unit _
  refine congrArg (EStateM.Result.ok PUnit.unit) ?_
  show (if c.serv.matchVec ≠ [] then _ else _) = c.serv.matchVec.foldl _ _
  split
  · rfl
  · next hnil => rw [not_not.mp hnil]; rfl

theorem commitOrderChecked_erases (a : OrderArgs) (order : OrderPtr) (exec : Exec) :
    Erases (commitOrderChecked a order exec) (modify (Ctx.commitOrder a order exec)) := by
  rw [modify_commitOrder]
  refine (Erases.lift _).bind (fun _ => Erases.get.bind (fun c => ?_))
  exact commitMatchesChecked_erases a.sess a.book a.now c.serv.matchVec

/-- **Without its checks, the call is `createOrder`.** -/
theorem createOrderChecked_erases (env : Env) (a : OrderArgs) :
    Erases (createOrderChecked env a) (createOrder env a) := by
  refine (Erases.lift _).bind (fun _ => (Erases.lift _).bind ?_)
  rintro ⟨order, exec⟩
  refine (Erases.lift _).bind (fun _ => Erases.check_bind _ _ (Erases.check_bind _ _ ?_))
  refine Erases.withFinally _ ?_
  refine Erases.bind (Erases.check_bind _ _ (Erases.lift _)) (fun _ => Erases.check_bind _ _ ?_)
  refine Erases.bind (Erases.check_bind _ _ (Erases.lift _)) (fun _ => ?_)
  refine (Erases.lift _).bind (fun _ => (Erases.lift _).bind (fun _ => ?_))
  exact commitOrderChecked_erases a order exec

end Swirly
