import Swirly.Fig.CreateOrder
import Swirly.Fig.Machine

/-!
# Swirly.Fig.Outcome

**Every way a call of the machine can end.** Nothing is asked here of the call or of the books:
lots may be negative, and sums, prices and keys may wrap. So what the call computes is stated in
the machine's own words: `fills64` are the fills that its loop comes to, `newMatches64` the
matches for them, `taker64` the order after its trade.

What does not depend on any number is which allocations and checks decide how far the call gets,
what it has journaled by then, and which matches it leaves behind. `createOrder64_wp` says so: the
call commits what it has journaled (`Commits64`), or it fails in one of the three ways of
`Failed64`.
-/

namespace Swirly

open Lib (Heap Table Arith)
open Lib.Effect

variable (w : Arith)

/-! ### What the loop computes -/

/-- The fills that the loop comes to, from the running sums on: the taker's lots that are still
wanted, as far as the maker has them, while the spread is not positive. -/
def fillsOf64 (h : Heap Order) (taker : Order) : Sums → List OrderPtr → List (OrderPtr × Int)
  | _, [] => []
  | sums, p :: orders =>
      if sums.sumLots = taker.resd then []
      else if 0 < spread64 w taker (h p) taker.side.direct then []
      else
        let lots := min (w (taker.resd - sums.sumLots)) (h p).resd
        (p, lots) :: fillsOf64 h taker (sums.add64 w lots (h p).ticks) orders

/-- The running sums after a fill. -/
def Sums.fill64 (h : Heap Order) (sums : Sums) (f : OrderPtr × Int) : Sums :=
  sums.add64 w f.2 (h f.1).ticks

/-- The match for one fill. The maker's execution has id `makerId`, the taker's the next. -/
def mkMatch64 (contr : Mnem) (settlDay : Int) (taker maker : Order) (p : OrderPtr) (lots : Int)
    (sums : Sums) (makerId now : Int) : Match :=
  { lots, makerOrder := p
    makerTrade := (newExec maker makerId now).tradeLast64 w lots maker.ticks (makerId + 1) .maker
      taker.trader
    makerPosn := ⟨maker.trader, contr, settlDay⟩
    takerTrade := (newExec taker (makerId + 1) now).trade64 w sums.sumLots sums.sumCost lots
      maker.ticks makerId .taker maker.trader }

/-- The matches for a list of fills; `maxExecId` is the last id given out before. -/
def buildMatches64 (h : Heap Order) (contr : Mnem) (settlDay : Int) (taker : Order) (now : Int) :
    Int → Sums → List (OrderPtr × Int) → List Match
  | _, _, [] => []
  | maxExecId, sums, f :: fs =>
      mkMatch64 w contr settlDay taker (h f.1) f.1 f.2 (sums.fill64 w h f) (maxExecId + 1) now ::
        buildMatches64 h contr settlDay taker now (maxExecId + 2) (sums.fill64 w h f) fs

@[simp] theorem buildMatches64_length (h : Heap Order) (contr : Mnem) (settlDay : Int)
    (taker : Order) (now id : Int) (sums : Sums) (fs : List (OrderPtr × Int)) :
    (buildMatches64 w h contr settlDay taker now id sums fs).length = fs.length := by
  induction fs generalizing id sums with
  | nil => rfl
  | cons f fs ih => simp [buildMatches64, ih]

section Loop

variable {w} {env : Env} {c : Ctx} {E : Exn → Ctx → Prop} {book : Mnem} {p : OrderPtr} {i : Nat}
variable {taker : OrderPtr} {now : Int}

theorem newMatch64_wp {lots : Int} {sums : Sums} {Q : Match → Ctx → Prop}
    (hok : PosnOk env c.serv (c.serv.heap p).trader (c.serv.markets.get book).contr
        (c.serv.markets.get book).settlDay → env.alloc (.makerTrade i) = true →
      env.alloc (.takerTrade i) = true →
      Q (mkMatch64 w (c.serv.markets.get book).contr (c.serv.markets.get book).settlDay
          (c.serv.heap taker) (c.serv.heap p) p lots sums
          ((c.serv.markets.get book).maxExecId + 1) now)
        { c with serv := c.serv.iterate book p })
    (herr : ∀ s, Ext book c.serv s → s.matchVec = c.serv.matchVec →
      ¬ IterOk env c.serv book i p → E .badAlloc { c with serv := s }) :
    wp (newMatch64 w env i book taker p lots sums.sumLots sums.sumCost now) Q E c := by
  have hbook : ((c.serv.allocExecId book).allocExecId book).markets.get book =
      { c.serv.markets.get book with
        maxExecId := (c.serv.markets.get book).maxExecId + 1 + 1 } := by
    simp [Serv.allocExecId, MarketBook.allocExecId]
  have hid : ((c.serv.allocExecId book).markets.get book).maxExecId =
      (c.serv.markets.get book).maxExecId + 1 := by
    simp [Serv.allocExecId, MarketBook.allocExecId]
  unfold newMatch64
  simp only [wp_bind, allocExecId_wp, wp_get, lazyPosn_wp, allocate_wp, wp_pure, hbook, hid]
  refine ⟨fun hp => ⟨fun hm => ⟨fun ht => hok hp hm ht, fun ht => ?_⟩, fun hm => ?_⟩, fun hp => ?_⟩
  · exact herr _ (c.serv.ext_iterate book p) rfl (fun hall => ht hall.2.2.1)
  · exact herr _ (c.serv.ext_iterate book p) rfl (fun hall => hm hall.2.1)
  · exact herr _ (c.serv.ext_allocTwo book) rfl (fun hall => hp hall.1)

/-- **The loop**, by induction on the orders it has not looked at. -/
theorem matchLoop64_wp {direct : Direct} (orders : List OrderPtr) (i : Nat) (sums : Sums) (c : Ctx)
    (hd : direct = (c.serv.heap taker).side.direct) {fs : List (OrderPtr × Int)}
    (hfs : fs = fillsOf64 w c.serv.heap (c.serv.heap taker) sums orders) {ms : List Match}
    (hms : ms = buildMatches64 w c.serv.heap (c.serv.markets.get book).contr
      (c.serv.markets.get book).settlDay (c.serv.heap taker) now
      (c.serv.markets.get book).maxExecId sums fs) :
    wp (matchLoop64 w env book taker direct now i orders sums)
      (fun sums' c' => LoopMade env book i fs ms c c' ∧
        sums' = fs.foldl (Sums.fill64 w c.serv.heap) sums)
      (LoopFailed env book i fs ms c) c := by
  induction orders generalizing i sums c fs ms with
  | nil =>
      obtain rfl : fs = [] := hfs
      obtain rfl : ms = [] := hms
      exact ⟨LoopMade.nil env book i c, rfl⟩
  | cons p orders ih =>
      unfold matchLoop64
      unfold fillsOf64 at hfs
      simp only [wp_bind, wp_get, wp_ite, wp_pure]
      refine ⟨fun hfull => ?_, fun hwant => ⟨fun hspread => ?_, fun hspread => ?_⟩⟩
      · -- The taker is filled.
        rw [if_pos hfull] at hfs
        subst hfs
        obtain rfl : ms = [] := hms
        exact ⟨LoopMade.nil env book i c, rfl⟩
      · -- The maker is out of reach.
        rw [if_neg hwant, ← hd, if_pos hspread] at hfs
        subst hfs
        obtain rfl : ms = [] := hms
        exact ⟨LoopMade.nil env book i c, rfl⟩
      · rw [if_neg hwant, ← hd, if_neg hspread] at hfs
        generalize hlots : min (w ((c.serv.heap taker).resd - sums.sumLots))
          (c.serv.heap p).resd = lots at hfs ⊢
        subst hfs
        rw [buildMatches64] at hms
        subst hms
        refine newMatch64_wp (fun hp hm ht => ?_) (fun s hext hmv hno => ?_)
        · simp only [wp_bind, allocate_wp, modifyServ_wp]
          refine ⟨fun hpush => ?_, fun hpush => ?_⟩
          · have hok : IterOk env c.serv book i p := ⟨hp, hm, ht, hpush⟩
            have hbook := c.serv.iterate_book book p
            refine wp_mono (ih (i + 1) (sums.fill64 w c.serv.heap (p, lots))
                { c with serv := (c.serv.iterate book p).pushMatch _ } hd rfl ?_)
              (fun _ _ h => ⟨LoopMade.cons hok h.1, h.2⟩) (fun _ _ h => LoopFailed.cons hok h)
            show _ = buildMatches64 w c.serv.heap ((c.serv.iterate book p).markets.get book).contr
              ((c.serv.iterate book p).markets.get book).settlDay (c.serv.heap taker) now
              ((c.serv.iterate book p).markets.get book).maxExecId _ _
            rw [hbook]
            rfl
          · exact LoopFailed.head (c.serv.ext_iterate book p) rfl (fun hall => hpush hall.2.2.2)
        · exact LoopFailed.head hext hmv hno

end Loop

/-! ### What the call computes -/

namespace Serv

variable (s : Serv) (a : OrderArgs)

/-- The fills of the call. -/
def fills64 : List (OrderPtr × Int) :=
  fillsOf64 w (s.opened a).heap (s.newOrder a) {} (s.makers a)

/-- The running sums after the last fill. -/
def sums64 : Sums := (s.fills64 w a).foldl (Sums.fill64 w (s.opened a).heap) {}

/-- The matches of the call, one for each of the machine's fills, as the loop makes them when no
allocation fails. -/
def newMatches64 : List Match :=
  buildMatches64 w (s.opened a).heap (s.markets.get a.book).contr (s.markets.get a.book).settlDay
    (s.newOrder a) a.now ((s.markets.get a.book).maxExecId + 1) {} (s.fills64 w a)

/-- The taker's order after matching, with the machine's sums. It is the new order if there was no
match. -/
def taker64 : Order :=
  if s.newMatches64 w a = [] then s.newOrder a
  else (s.newOrder a).trade64 w (s.sums64 w a).sumLots (s.sums64 w a).sumCost
    (s.sums64 w a).lastLots (s.sums64 w a).lastTicks a.now

@[simp] theorem newMatches64_length :
    (s.newMatches64 w a).length = (s.fills64 w a).length :=
  buildMatches64_length w _ _ _ _ _ _ _ _

@[simp] theorem taker64_side : (s.taker64 w a).side = a.side := by
  unfold taker64
  split <;> rfl

end Serv

/-! ### What decides how far the call gets -/

section Conditions

variable (env : Env) (s : Serv) (a : OrderArgs)

/-- Every iteration of the matching loop can allocate what it needs. -/
def LoopOk64 : Prop :=
  ∀ i f, (s.fills64 w a)[i]? = some f → IterOk env (s.opened a) a.book i f.1

/-- The call runs out of memory in the matching loop when it has made a match already. -/
def Strands64 : Prop :=
  ChecksOk env s a ∧ OpenOk env ∧
    ∃ j, 0 < j ∧ FailsFirst env (s.opened a) a.book 0 (s.fills64 w a) j

/-- The order needs no new level, or one can be allocated. -/
def LevelOk64 : Prop :=
  (s.taker64 w a).done = true ∨
    (((s.markets.get a.book).side a.side).levels.find? ((s.taker64 w a).key64 w)).isNone = false ∨
    env.alloc .level = true

/-- The call gets as far as the journal. -/
structure ReachesJourn64 : Prop where
  checks : ChecksOk env s a
  openOk : OpenOk env
  loop : LoopOk64 w env s a
  level : LevelOk64 w env s a

/-- After the journal: the taker's position and the room in the response can be had. -/
structure PrepOk64 (resp : Response) : Prop where
  posn : s.newMatches64 w a ≠ [] →
    PosnOk env s a.sess (s.markets.get a.book).contr (s.markets.get a.book).settlDay
  orders : resp.ordersCapacity < 1 + (s.newMatches64 w a).length → env.alloc .respOrders = true
  execs : resp.execsCapacity < 1 + 2 * (s.newMatches64 w a).length → env.alloc .respExecs = true

/-- The call runs out of memory when the journal has accepted its executions. -/
def Loses64 (resp : Response) : Prop :=
  ReachesJourn64 w env s a ∧ env.journ = true ∧ ¬ PrepOk64 w env s a resp

end Conditions

/-! ### Matching -/

/-- The service `s₁` after the order was opened and matched, as far as the rest of the call
depends on it. -/
structure Matched64 (env : Env) (s s₁ : Serv) (a : OrderArgs) : Prop where
  ext : Ext a.book s s₁
  taker : s₁.heap s.heap.next = s.taker64 w a
  matchVec : s₁.matchVec = s.newMatches64 w a
  loopOk : LoopOk64 w env s a
  posnOk : ∀ trader, PosnOk env s₁ trader (s.markets.get a.book).contr
    (s.markets.get a.book).settlDay ↔ PosnOk env s trader (s.markets.get a.book).contr
      (s.markets.get a.book).settlDay

section Matching

variable {w} {env : Env} {s : Serv} {a : OrderArgs} {resp : Response} {E : Exn → Ctx → Prop}

/-- The state after the loop, with the taker's trade. -/
theorem LoopMade.matched64 (hmv : s.matchVec = []) {c' : Ctx}
    (hd : LoopMade env a.book 0 (s.fills64 w a) (s.newMatches64 w a) ⟨s.opened a, resp⟩ c') :
    Matched64 w env s (if c'.serv.matchVec = [] then c'.serv
      else c'.serv.tradeTaker64 w s.heap.next (s.sums64 w a) a.now) a := by
  have hvec : c'.serv.matchVec = s.newMatches64 w a := by
    have hmade := hd.matchVec
    rwa [show (s.opened a).matchVec = [] from hmv, List.nil_append] at hmade
  have hheap : c'.serv.heap = s.heap.alloc (s.newOrder a) := hd.run.heap
  have hext : Ext a.book s c'.serv := (s.ext_opened a).trans hd.run.ext
  have hloop : LoopOk64 w env s a := fun i f hf => by simpa using hd.iterOk i f hf
  have hposn : ∀ trader, PosnOk env c'.serv trader (s.markets.get a.book).contr
      (s.markets.get a.book).settlDay ↔ PosnOk env s trader (s.markets.get a.book).contr
        (s.markets.get a.book).settlDay := by
    intro trader
    have hp := hd.posnOk trader
    rw [Serv.opened_book] at hp
    exact hp
  split
  · next hempty =>
      refine ⟨hext, ?_, hvec, hloop, hposn⟩
      rw [hheap, Heap.alloc_self, Serv.taker64, if_pos (hvec.symm.trans hempty)]
  · next hne =>
      refine ⟨hext.modify le_rfl _, ?_, hvec, hloop, hposn⟩
      rw [Serv.taker64, if_neg (hvec ▸ hne)]
      unfold Serv.tradeTaker64
      rw [hheap, Heap.modify_self, Heap.alloc_self]

/-- The matching loop, run on the order just opened. -/
theorem matchOrders64_opened_wp {Q : Unit → Ctx → Prop} (hmv : s.matchVec = [])
    (hok : ∀ s₁, Matched64 w env s s₁ a → Q () ⟨s₁, resp⟩)
    (herr : ∀ s' j, Ext a.book s s' → FailsFirst env (s.opened a) a.book 0 (s.fills64 w a) j →
      s'.matchVec = (s.newMatches64 w a).take j → E .badAlloc ⟨s', resp⟩) :
    wp (matchOrders64 w env a.book s.heap.next a.now) Q E ⟨s.opened a, resp⟩ := by
  have htaker : (s.opened a).heap s.heap.next = s.newOrder a := Serv.opened_taker
  have hside : ((s.opened a).markets.get a.book).side a.side.opposite =
      (s.markets.get a.book).side a.side.opposite := (s.ext_opened a).side a.book _
  have hbook := s.opened_book (a := a)
  have hloop : wp (matchLoop64 w env a.book s.heap.next
      ((s.opened a).heap s.heap.next).side.direct a.now 0 (((s.opened a).markets.get a.book).side
        ((s.opened a).heap s.heap.next).side.opposite).orders {})
      (fun sums c' => LoopMade env a.book 0 (s.fills64 w a) (s.newMatches64 w a)
        ⟨s.opened a, resp⟩ c' ∧ sums = s.sums64 w a)
      (LoopFailed env a.book 0 (s.fills64 w a) (s.newMatches64 w a) ⟨s.opened a, resp⟩)
      ⟨s.opened a, resp⟩ := by
    unfold Serv.sums64
    refine matchLoop64_wp _ 0 {} ⟨s.opened a, resp⟩ rfl ?_ ?_
    · rw [htaker]
      exact congrArg (fun b => fillsOf64 w (s.opened a).heap (s.newOrder a) {} b.orders) hside.symm
    · rw [htaker, hbook]
      rfl
  unfold matchOrders64 matchSide64
  simp only [wp_bind, wp_get]
  refine wp_mono hloop (fun sums c' hd => ?_) (fun e c' hf => ?_)
  · obtain ⟨hmade, rfl⟩ := hd
    have hQ := hok _ (hmade.matched64 hmv)
    rw [show resp = c'.resp from hmade.resp.symm] at hQ
    simp only [wp_bind, wp_get, wp_ite, modifyServ_wp, wp_pure]
    refine ⟨fun hne => ?_, fun hempty => ?_⟩
    · rw [if_neg hne] at hQ
      exact hQ
    · rw [if_pos (not_not.mp hempty)] at hQ
      exact hQ
  · obtain ⟨rfl, hresp, hext, j, hfail, hvec⟩ := hf
    rw [show (⟨s.opened a, resp⟩ : Ctx).serv.matchVec = [] from hmv, List.nil_append] at hvec
    have hE := herr c'.serv j ((s.ext_opened a).trans hext) hfail hvec
    rwa [show resp = c'.resp from hresp.symm] at hE

end Matching

/-! ### Placing and journaling -/

/-- The service after an incomplete order was placed in its market. -/
def Serv.placed64 (s : Serv) (book : Mnem) (p : OrderPtr) : Serv :=
  if (s.heap p).done then s else s.insertOrder64 w book p

section Placed

variable (s : Serv) (book : Mnem) (p : OrderPtr)

@[simp] theorem Serv.placed64_traders : (s.placed64 w book p).traders = s.traders := by
  unfold placed64
  split <;> rfl

@[simp] theorem Serv.placed64_matchVec : (s.placed64 w book p).matchVec = s.matchVec := by
  unfold placed64
  split <;> rfl

@[simp] theorem Serv.placed64_journ : (s.placed64 w book p).journ = s.journ := by
  unfold placed64
  split <;> rfl

/-- What an insertion leaves of the record of the market. -/
theorem Serv.placed64_record :
    ((s.placed64 w book p).markets.get book).contr = (s.markets.get book).contr ∧
      ((s.placed64 w book p).markets.get book).settlDay = (s.markets.get book).settlDay := by
  unfold placed64
  split
  · exact ⟨rfl, rfl⟩
  · unfold insertOrder64
    rw [Serv.modifyBook_get_self]
    exact ⟨MarketBook.setSide_contr _ _ _, MarketBook.setSide_settlDay _ _ _⟩

/-- The orders that it may trade with rest on the other side. -/
theorem Serv.placed64_opposite :
    ((s.placed64 w book p).markets.get book).side (s.heap p).side.opposite =
      (s.markets.get book).side (s.heap p).side.opposite := by
  unfold placed64
  split
  · rfl
  · unfold insertOrder64
    rw [Serv.modifyBook_get_self]
    exact MarketBook.setSide_side_of_ne _ _ _ (Side.opposite_ne _)

end Placed

section Place

variable {w} {env : Env} {s : Serv} {resp : Response} {E : Exn → Ctx → Prop} {book : Mnem}
variable {p : OrderPtr} {Q : Unit → Ctx → Prop}

theorem placeOrder64_wp
    (hok : (s.heap p).done = true ∨ ((((s.markets.get book).side (s.heap p).side).levels.find?
        ((s.heap p).key64 w)).isNone = false ∨ env.alloc .level = true) →
      Q () ⟨s.placed64 w book p, resp⟩)
    (herr : ¬ ((s.heap p).done = true ∨ ((((s.markets.get book).side (s.heap p).side).levels.find?
        ((s.heap p).key64 w)).isNone = false ∨ env.alloc .level = true)) →
      E .badAlloc ⟨s, resp⟩) :
    wp (placeOrder64 w env book p) Q E ⟨s, resp⟩ := by
  unfold placeOrder64
  simp only [wp_bind, wp_get, wp_ite, allocate_wp, modifyServ_wp, wp_pure]
  unfold Serv.placed64 at hok
  cases hdone : (s.heap p).done with
  | true => simpa [hdone] using hok
  | false =>
      simp only [hdone, Bool.false_eq_true, false_or, if_false] at hok herr ⊢
      refine ⟨False.elim, fun _ =>
        ⟨fun hnone => ⟨fun halloc => ?_, fun halloc => ?_⟩, fun hsome => ?_⟩⟩
      · exact hok (Or.inr halloc)
      · exact herr (by simp [hnone, halloc])
      · exact hok (Or.inl (Bool.eq_false_of_not_eq_true hsome))

/-- A journal that refuses leaves nothing behind in it, whatever the guard undoes. -/
theorem journOrder64_wp {exec : Exec}
    (hok : env.journ = true → Q () ⟨s.accepted exec, resp⟩)
    (herr : env.journ = false → ∀ s', s'.journ = s.journ → E .journ ⟨s', resp⟩) :
    wp (journOrder64 w env book p exec) Q E ⟨s, resp⟩ := by
  unfold journOrder64
  rw [wp_onFailure, wp_ite, modifyServ_wp, wp_throw]
  refine ⟨hok, fun hno => ?_⟩
  have hno' : env.journ = false := by simpa using hno
  split
  · exact herr hno' s rfl
  · exact herr hno' _ rfl

end Place

/-! ### The outcome of a call -/

/-- What the commit phase meets: the matches are those of the call, made from the side of the
book as it still is, the executions in the journal are those of the new order and of these
matches, and the response has the room that was asked for beside what the caller left in it. -/
structure Ready64 (s : Serv) (a : OrderArgs) (resp : Response) (c : Ctx) : Prop where
  matchVec : c.serv.matchVec = s.newMatches64 w a
  opposite : (c.serv.markets.get a.book).side a.side.opposite =
    (s.markets.get a.book).side a.side.opposite
  journ : c.serv.journ = s.journ ++ journExecs (s.newExec a) (s.newMatches64 w a)
  orders : c.resp.orders = resp.orders
  execs : c.resp.execs = resp.execs
  ordersRoom : 1 + (s.newMatches64 w a).length ≤ c.resp.ordersCapacity
  execsRoom : 1 + 2 * (s.newMatches64 w a).length ≤ c.resp.execsCapacity

/-- The call has committed what it has journaled, and nothing else. -/
def Commits64 (s : Serv) (a : OrderArgs) (resp : Response) (c' : Ctx) : Prop :=
  ∃ c : Ctx, Ready64 w s a resp c ∧
    c' = (Ctx.commitOrder64 w a s.heap.next (s.newExec a) c).clearMatches

/-- The ways a call can fail. -/
inductive Failed64 (env : Env) (s : Serv) (a : OrderArgs) (resp : Response) : Ctx → Prop
  /-- It has journaled nothing, and leaves no match. -/
  | clean (c' : Ctx) (h : ¬ (ReachesJourn64 w env s a ∧ env.journ = true))
      (hstrand : ¬ Strands64 w env s a) (hjourn : c'.serv.journ = s.journ)
      (hmv : c'.serv.matchVec = []) : Failed64 env s a resp c'
  /-- No memory in the matching loop, when a match is made already. -/
  | stranded (c' : Ctx) (h : Strands64 w env s a) (hjourn : c'.serv.journ = s.journ)
      (hmv : c'.serv.matchVec ≠ []) : Failed64 env s a resp c'
  /-- No memory after the journal has accepted the executions. -/
  | lost (c' : Ctx) (h : Loses64 w env s a resp)
      (hjourn : c'.serv.journ = s.journ ++ journExecs (s.newExec a) (s.newMatches64 w a))
      (hmv : c'.serv.matchVec = []) : Failed64 env s a resp c'

/-! ### Room in the response -/

/-- The response has room for what `n` matches may add: an order and two executions each. -/
structure Response.RoomFor (r : Response) (n : Nat) : Prop where
  orders : r.orders.length + n ≤ r.ordersCapacity
  execs : r.execs.length + 2 * n ≤ r.execsCapacity

section Room

variable {w}

theorem Ctx.takeOrder64_resp (c : Ctx) (order : OrderPtr) (lots now : Int) :
    (c.takeOrder64 w order lots now).resp = c.resp := by
  unfold takeOrder64
  split <;> rfl

theorem Ctx.addTrade64_resp (c : Ctx) (trade : Exec) :
    (c.addTrade64 w trade).resp = c.resp := by
  unfold addTrade64
  split <;> rfl

/-- One match takes the room of one. -/
theorem Response.RoomFor.commitMatch {c : Ctx} {n : Nat} (h : c.resp.RoomFor (n + 1))
    (sess : Mnem) (now : Int) (m : Match) : (c.commitMatch64 w sess now m).resp.RoomFor n := by
  obtain ⟨horders, hexecs⟩ := h
  unfold Ctx.commitMatch64
  simp only [Ctx.addTrade64_resp, Ctx.takeOrder64_resp]
  split
  · refine ⟨?_, ?_⟩
    · show (c.resp.orders ++ [m.makerOrder]).length + n ≤ c.resp.ordersCapacity
      rw [List.length_append, List.length_singleton]
      omega
    · show (c.resp.execs ++ [m.makerTrade] ++ [m.takerTrade]).length + 2 * n ≤
        c.resp.execsCapacity
      rw [List.length_append, List.length_append, List.length_singleton, List.length_singleton]
      omega
  · refine ⟨?_, ?_⟩
    · show c.resp.orders.length + n ≤ c.resp.ordersCapacity
      omega
    · show (c.resp.execs ++ [m.takerTrade]).length + 2 * n ≤ c.resp.execsCapacity
      rw [List.length_append, List.length_singleton]
      omega

/-- The commit loop takes the room of its matches. -/
theorem Response.RoomFor.commitMatches {c : Ctx} {ms : List Match}
    (h : c.resp.RoomFor ms.length) (sess : Mnem) (now : Int) :
    (ms.foldl (Ctx.commitMatch64 w sess now) c).resp.RoomFor 0 := by
  induction ms generalizing c with
  | nil => exact h
  | cons m ms ih => exact ih (h.commitMatch sess now m)

/-- **The commit phase does not allocate** for a caller that hands over a response without
entries: it ends within the room that was made before it, and the vectors only grow. -/
theorem Commits64.roomFor {s : Serv} {a : OrderArgs} {resp : Response} {c' : Ctx}
    (h : Commits64 w s a resp c') (hresp : resp.Cleared) : c'.resp.RoomFor 0 := by
  obtain ⟨c, hc, rfl⟩ := h
  have hroom : ((c.resp.insertOrder s.heap.next).insertExec (s.newExec a)).RoomFor
      c.serv.matchVec.length := by
    refine ⟨?_, ?_⟩
    · show (c.resp.orders ++ [s.heap.next]).length + _ ≤ c.resp.ordersCapacity
      rw [hc.orders, hresp.2.1, hc.matchVec]
      exact hc.ordersRoom
    · show (c.resp.execs ++ [s.newExec a]).length + _ ≤ c.resp.execsCapacity
      rw [hc.execs, hresp.2.2.1, hc.matchVec]
      exact hc.execsRoom
  show (Ctx.commitOrder64 w a s.heap.next (s.newExec a) c).resp.RoomFor 0
  unfold Ctx.commitOrder64
  dsimp only
  split
  · exact Response.RoomFor.commitMatches hroom a.sess a.now
  · next hnil =>
      have hnil' : c.serv.matchVec = [] := not_not.mp hnil
      rwa [hnil'] at hroom

end Room

section Outcome

variable {w} {env : Env} {s s₁ : Serv} {a : OrderArgs} {resp : Response}

theorem Matched64.levelOk (hM : Matched64 w env s s₁ a) : LevelOk64 w env s a ↔
    (s₁.heap s.heap.next).done = true ∨
      ((((s₁.markets.get a.book).side (s₁.heap s.heap.next).side).levels.find?
        ((s₁.heap s.heap.next).key64 w)).isNone = false ∨ env.alloc .level = true) := by
  rw [hM.taker, Serv.taker64_side, hM.ext.side]
  exact Iff.rfl

/-- A loop that runs to its end strands nothing. -/
theorem LoopOk64.not_strands (h : LoopOk64 w env s a) : ¬ Strands64 w env s a := by
  rintro ⟨-, -, j, -, -, f, hf, hno⟩
  rw [Nat.zero_add] at hno
  exact hno (h j f hf)

/-- The service when the journal has accepted the call's executions. -/
def Serv.journaled64 (w : Arith) (s s₁ : Serv) (a : OrderArgs) : Serv :=
  (s₁.placed64 w a.book s.heap.next).accepted (s.newExec a)

theorem Matched64.journaled_matchVec (hM : Matched64 w env s s₁ a) :
    (s.journaled64 w s₁ a).matchVec = s.newMatches64 w a :=
  (s₁.placed64_matchVec w _ _).trans hM.matchVec

theorem Matched64.journaled_journ (hM : Matched64 w env s s₁ a) :
    (s.journaled64 w s₁ a).journ =
      s.journ ++ journExecs (s.newExec a) (s.newMatches64 w a) := by
  show (s₁.placed64 w a.book s.heap.next).journ ++
    journExecs _ (s₁.placed64 w a.book s.heap.next).matchVec = _
  rw [Serv.placed64_journ, Serv.placed64_matchVec, hM.ext.journ, hM.matchVec]

theorem Matched64.journaled_opposite (hM : Matched64 w env s s₁ a) :
    (((s.journaled64 w s₁ a).prepared a).markets.get a.book).side a.side.opposite =
      (s.markets.get a.book).side a.side.opposite := by
  have hplaced := s₁.placed64_opposite w a.book s.heap.next
  rw [hM.taker, Serv.taker64_side, hM.ext.side] at hplaced
  unfold Serv.prepared
  split <;> exact hplaced

/-- The preparation leaves what the commit phase needs. -/
theorem Matched64.ready (hM : Matched64 w env s s₁ a) (resp : Response) :
    Ready64 w s a resp
      ⟨(s.journaled64 w s₁ a).prepared a, resp.prepared (s.journaled64 w s₁ a) a⟩ where
  matchVec := (Serv.prepared_matchVec _ _).trans hM.journaled_matchVec
  opposite := hM.journaled_opposite
  journ := (Serv.prepared_journ _ _).trans hM.journaled_journ
  orders := Response.prepared_orders _ _ _
  execs := Response.prepared_execs _ _ _
  ordersRoom := by
    show _ ≤ max _ (1 + (s.journaled64 w s₁ a).matchVec.length)
    rw [hM.journaled_matchVec]
    exact le_max_right _ _
  execsRoom := by
    show _ ≤ max _ (1 + 2 * (s.journaled64 w s₁ a).matchVec.length)
    rw [hM.journaled_matchVec]
    exact le_max_right _ _

/-- What is needed after the journal is known before the call. -/
theorem PrepOk64.iff_at (hM : Matched64 w env s s₁ a) :
    PrepOkAt env (s.journaled64 w s₁ a) a resp ↔ PrepOk64 w env s a resp := by
  obtain ⟨hcontr, hday⟩ := s₁.placed64_record w a.book s.heap.next
  have hposn : PosnOk env (s.journaled64 w s₁ a) a.sess (s.markets.get a.book).contr
      (s.markets.get a.book).settlDay ↔ PosnOk env s a.sess (s.markets.get a.book).contr
        (s.markets.get a.book).settlDay := by
    rw [← hM.posnOk a.sess]
    unfold PosnOk
    rw [show (s.journaled64 w s₁ a).traders = s₁.traders from s₁.placed64_traders w _ _]
  have hcontr' : ((s.journaled64 w s₁ a).markets.get a.book).contr =
      (s.markets.get a.book).contr := hcontr.trans (by rw [hM.ext.book])
  have hday' : ((s.journaled64 w s₁ a).markets.get a.book).settlDay =
      (s.markets.get a.book).settlDay := hday.trans (by rw [hM.ext.book])
  constructor
  · rintro ⟨hposns, horders, hexecs⟩
    rw [hM.journaled_matchVec] at hposns horders hexecs
    rw [hcontr', hday', hposn] at hposns
    exact ⟨hposns, horders, hexecs⟩
  · rintro ⟨hposns, horders, hexecs⟩
    refine ⟨?_, ?_, ?_⟩ <;> rw [hM.journaled_matchVec]
    · rw [hcontr', hday', hposn]
      exact hposns
    · exact horders
    · exact hexecs

/-- A loop that fails in its first iteration has made no match; in a later one it leaves those
of the iterations before. -/
theorem Failed64.of_failsFirst {s' : Serv} {j : Nat} (hchecks : ChecksOk env s a)
    (hopenOk : OpenOk env) (hext : Ext a.book s s')
    (hfail : FailsFirst env (s.opened a) a.book 0 (s.fills64 w a) j)
    (hvec : s'.matchVec = (s.newMatches64 w a).take j) : Failed64 w env s a resp ⟨s', resp⟩ := by
  cases j with
  | zero =>
      have hno : ¬ LoopOk64 w env s a := fun hloop => by
        obtain ⟨-, f, hf, hno⟩ := hfail
        rw [Nat.zero_add] at hno
        exact hno (hloop 0 f hf)
      refine .clean _ (fun h => hno h.1.loop) (fun h => ?_) hext.journ hvec
      obtain ⟨-, -, k, hpos, hfail'⟩ := h
      have heq := hfail.unique hfail'
      omega
  | succ j =>
      refine .stranded _ ⟨hchecks, hopenOk, j + 1, Nat.succ_pos j, hfail⟩ hext.journ ?_
      obtain ⟨-, f, hget, -⟩ := hfail
      have hlt : j + 1 < (s.newMatches64 w a).length := by
        rw [Serv.newMatches64_length]
        exact (List.getElem?_eq_some_iff.mp hget).1
      show s'.matchVec ≠ []
      intro hnil
      have hlen := congrArg List.length (hvec.symm.trans hnil)
      rw [List.length_take, List.length_nil] at hlen
      omega

/-- **Every way a call can end**, whatever it asks for. -/
theorem createOrder64_wp (hmv : s.matchVec = []) :
    wp (createOrder64 w env a)
      (fun _ c' => ReachesJourn64 w env s a ∧ PrepOk64 w env s a resp ∧
        Commits64 w s a resp c')
      (fun _ c' => Failed64 w env s a resp c') ⟨s, resp⟩ := by
  unfold createOrder64 checkOrder
  simp only [wp_bind, wp_get, wp_ite, wp_throw, wp_pure]
  have hrejected : ¬ ChecksOk env s a → Failed64 w env s a resp ⟨s, resp⟩ := fun hno =>
    .clean _ (fun h => hno h.1.checks) (fun h => hno h.1) rfl hmv
  refine ⟨fun hexp => hrejected (fun h => h.1 hexp),
    fun hopen => ⟨fun hbad => hrejected (fun h => h.2 hbad), fun hgood => ?_⟩⟩
  have hchecks : ChecksOk env s a := ⟨hopen, hgood⟩
  refine openOrder_wp (fun hopenOk => ?_) (fun s' hext hmv' hno =>
    .clean _ (fun h => hno h.1.openOk) (fun h => hno h.2.1) hext.journ (hmv'.trans hmv))
  rw [wp_bind]
  refine matchOrders64_opened_wp hmv (fun s₁ hM => ?_) (fun s' j hext hfail hvec => ?_)
  · rw [wp_withFinally, wp_bind]
    refine placeOrder64_wp (fun hlevel => ?_) (fun hlevel => ?_)
    · have hreaches : ReachesJourn64 w env s a :=
        ⟨hchecks, hopenOk, hM.loopOk, hM.levelOk.mpr hlevel⟩
      rw [wp_bind]
      refine journOrder64_wp (fun hyes => ?_) (fun hno s' hjourn => ?_)
      · rw [← bind_assoc, wp_bind]
        refine prepare_wp (fun hprep => ?_) (fun c' hprep hserv => ?_)
        · exact ⟨hreaches, (PrepOk64.iff_at hM).mp hprep, _, hM.ready resp, rfl⟩
        · refine .lost _ ⟨hreaches, hyes, fun h => hprep ((PrepOk64.iff_at hM).mpr h)⟩ ?_ rfl
          show c'.serv.journ = _
          rcases hserv with hserv | hserv <;> rw [hserv]
          · exact hM.journaled_journ
          · exact (Serv.prepared_journ _ _).trans hM.journaled_journ
      · refine .clean _ (fun h => ?_) hM.loopOk.not_strands ?_ rfl
        · rw [hno] at h
          exact absurd h.2 (by decide)
        · show s'.journ = _
          rw [hjourn, Serv.placed64_journ, hM.ext.journ]
    · exact .clean _ (fun h => hlevel (hM.levelOk.mp h.1.level)) hM.loopOk.not_strands
        hM.ext.journ rfl
  · exact .of_failsFirst hchecks hopenOk hext hfail hvec

/-- A call commits, or it fails. -/
theorem createOrder64_cases (w : Arith) (env : Env) (a : OrderArgs) (resp : Response)
    (hmv : s.matchVec = []) :
    (∃ c', createOrder64 w env a ⟨s, resp⟩ = .ok () c' ∧ ReachesJourn64 w env s a ∧
        PrepOk64 w env s a resp ∧ Commits64 w s a resp c') ∨
      ∃ e c', createOrder64 w env a ⟨s, resp⟩ = .error e c' ∧ Failed64 w env s a resp c' := by
  have hwp : wp (createOrder64 w env a) _ _ ⟨s, resp⟩ := createOrder64_wp hmv
  rcases wp_cases hwp with ⟨⟨⟩, c', hok, h⟩ | hfailed
  · exact Or.inl ⟨c', hok, h⟩
  · exact Or.inr hfailed

end Outcome

end Swirly
