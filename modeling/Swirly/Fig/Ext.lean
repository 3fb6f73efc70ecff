import Swirly.Fig.Serv

/-!
# Swirly.Fig.Ext

**What a call may leave behind when it does not commit.** `Ext m s s'` says that
`s'` is `s` but for traces that no later call can tell apart from nothing: the id
counters of market `m` may have grown, new orders may have been allocated that
nothing refers to, and sessions may have gained positions in which nothing was
bought or sold (`SessExt`).

Every step before the commit phase is an extension, apart from the market
insertion, which is undone (`Swirly.Fig.CreateOrder`).
-/

namespace Swirly

open Lib (Heap Table KeySet)

/-! ### Sessions -/

/-- A session with more positions, all of them zero. -/
structure SessExt (u u' : TraderSess) : Prop where
  eq : u' = { u with posns := u'.posns }
  posns : ∀ contr settlDay,
    u'.posns.find? (toLex (contr, settlDay)) = u.posns.find? (toLex (contr, settlDay)) ∨
      u.posns.find? (toLex (contr, settlDay)) = none ∧
        u'.posns.find? (toLex (contr, settlDay)) = some (newPosn u.mnem contr settlDay)

namespace SessExt

variable {u u' u'' : TraderSess}

theorem refl (u : TraderSess) : SessExt u u := ⟨rfl, fun _ _ => Or.inl rfl⟩

theorem mnem (h : SessExt u u') : u'.mnem = u.mnem := by rw [h.eq]

theorem orders (h : SessExt u u') : u'.orders = u.orders := by rw [h.eq]

theorem trades (h : SessExt u u') : u'.trades = u.trades := by rw [h.eq]

theorem refIdx (h : SessExt u u') : u'.refIdx = u.refIdx := by rw [h.eq]

theorem trans (h : SessExt u u') (h' : SessExt u' u'') : SessExt u u'' := by
  refine ⟨?_, ?_⟩
  · conv_lhs => rw [h'.eq, h.eq]
  · intro contr settlDay
    rcases h.posns contr settlDay with heq | ⟨hnone, hsome⟩
    · rcases h'.posns contr settlDay with heq' | ⟨hnone', hsome'⟩
      · exact Or.inl (heq'.trans heq)
      · exact Or.inr ⟨heq.symm.trans hnone', by rw [hsome', h.mnem]⟩
    · refine Or.inr ⟨hnone, ?_⟩
      rcases h'.posns contr settlDay with heq' | ⟨hnone', -⟩
      · rw [heq', hsome]
      · rw [hsome] at hnone'; exact absurd hnone' (by simp)

/-- The position of a contract and day, or zero, is the same. -/
theorem posnOf (h : SessExt u u') (contr : Mnem) (settlDay : Int) :
    u'.posnOf contr settlDay = u.posnOf contr settlDay := by
  unfold TraderSess.posnOf
  rw [h.mnem]
  rcases h.posns contr settlDay with heq | ⟨hnone, hsome⟩
  · rw [heq]
  · rw [hnone, hsome]; rfl

theorem hasPosn (h : SessExt u u') {contr : Mnem} {settlDay : Int}
    (hp : u.hasPosn contr settlDay) : u'.hasPosn contr settlDay := by
  unfold TraderSess.hasPosn at hp ⊢
  rcases h.posns contr settlDay with heq | ⟨hnone, -⟩
  · rw [heq]; exact hp
  · rw [hnone] at hp; exact absurd hp (by simp)

theorem lazyPosn (u : TraderSess) (contr : Mnem) (settlDay : Int) :
    SessExt u (u.lazyPosn contr settlDay) := by
  unfold TraderSess.lazyPosn TraderSess.hasPosn
  cases hfind : u.posns.find? (toLex (contr, settlDay)) with
  | some q => exact refl u
  | none =>
      have hfresh : u.posns.find? (newPosn u.mnem contr settlDay).key = none := hfind
      refine ⟨rfl, ?_⟩
      intro contr' settlDay'
      by_cases hk : (toLex (contr', settlDay') : PosnKey) = toLex (contr, settlDay)
      · obtain ⟨rfl, rfl⟩ : contr' = contr ∧ settlDay' = settlDay := by simpa using hk
        exact Or.inr ⟨hfind, KeySet.find?_insert_self hfresh⟩
      · exact Or.inl (KeySet.find?_insert_of_ne _ hk)

end SessExt

namespace TraderSess

theorem hasPosn_lazyPosn (u : TraderSess) (contr : Mnem) (settlDay : Int) :
    (u.lazyPosn contr settlDay).hasPosn contr settlDay := by
  unfold lazyPosn
  split
  · assumption
  · next hno =>
      have hnone : u.posns.find? (toLex (contr, settlDay)) = none := by
        simpa [hasPosn] using hno
      have hfound := KeySet.find?_insert_self (a := newPosn u.mnem contr settlDay) hnone
      exact Option.isSome_iff_exists.mpr ⟨_, hfound⟩

end TraderSess

/-! ### The service -/

/-- A service with traces of an uncommitted call on market `m`. -/
structure Ext (m : Mnem) (s s' : Serv) : Prop where
  /-- Every order already in the system is as it was. -/
  heap : ∀ p < s.heap.next, s'.heap p = s.heap p
  next : s.heap.next ≤ s'.heap.next
  marketKeys : s'.markets.keys = s.markets.keys
  traderKeys : s'.traders.keys = s.traders.keys
  other : ∀ m' ≠ m, s'.markets.get m' = s.markets.get m'
  book : s'.markets.get m =
    { s.markets.get m with
      maxOrderId := (s'.markets.get m).maxOrderId
      maxExecId := (s'.markets.get m).maxExecId }
  maxOrderId : (s.markets.get m).maxOrderId ≤ (s'.markets.get m).maxOrderId
  maxExecId : (s.markets.get m).maxExecId ≤ (s'.markets.get m).maxExecId
  sess : ∀ u, SessExt (s.traders.get u) (s'.traders.get u)
  journ : s'.journ = s.journ

namespace Ext

variable {m : Mnem} {s s' s'' : Serv}

theorem refl (m : Mnem) (s : Serv) : Ext m s s :=
  ⟨fun _ _ => rfl, le_rfl, rfl, rfl, fun _ _ => rfl, rfl, le_rfl, le_rfl,
    fun _ => SessExt.refl _, rfl⟩

theorem trans (h : Ext m s s') (h' : Ext m s' s'') : Ext m s s'' where
  heap p hp := (h'.heap p (lt_of_lt_of_le hp h.next)).trans (h.heap p hp)
  next := h.next.trans h'.next
  marketKeys := h'.marketKeys.trans h.marketKeys
  traderKeys := h'.traderKeys.trans h.traderKeys
  other m' hm' := (h'.other m' hm').trans (h.other m' hm')
  book := by conv_lhs => rw [h'.book, h.book]
  maxOrderId := h.maxOrderId.trans h'.maxOrderId
  maxExecId := h.maxExecId.trans h'.maxExecId
  sess u := (h.sess u).trans (h'.sess u)
  journ := h'.journ.trans h.journ

/-- The sides of every book are the same. -/
theorem side (h : Ext m s s') (m' : Mnem) (sd : Side) :
    (s'.markets.get m').side sd = (s.markets.get m').side sd := by
  by_cases hm : m' = m
  · subst hm; rw [h.book]; rfl
  · rw [h.other m' hm]

theorem grows (h : Ext m s s') (m' : Mnem) :
    (s.markets.get m').Grows (s'.markets.get m') := by
  by_cases hm : m' = m
  · subst hm
    have hid := h.maxOrderId
    rw [h.book] at hid ⊢
    exact ⟨rfl, rfl, rfl, hid⟩
  · rw [h.other m' hm]
    exact MarketBook.Grows.refl _

theorem maxOrderId_le (h : Ext m s s') (m' : Mnem) :
    (s.markets.get m').maxOrderId ≤ (s'.markets.get m').maxOrderId := by
  by_cases hm : m' = m
  · subst hm; exact h.maxOrderId
  · rw [h.other m' hm]

theorem maxExecId_le (h : Ext m s s') (m' : Mnem) :
    (s.markets.get m').maxExecId ≤ (s'.markets.get m').maxExecId := by
  by_cases hm : m' = m
  · subst hm; exact h.maxExecId
  · rw [h.other m' hm]

/-- The vector of matches is not looked at. -/
theorem of_matchVec (h : Ext m s s') (ms : List Match) : Ext m s { s' with matchVec := ms } :=
  ⟨h.heap, h.next, h.marketKeys, h.traderKeys, h.other, h.book, h.maxOrderId, h.maxExecId, h.sess,
    h.journ⟩

/-! #### Steps that extend -/

theorem allocOrderId (m : Mnem) (s : Serv) : Ext m s (s.allocOrderId m) where
  heap _ _ := rfl
  next := le_rfl
  marketKeys := rfl
  traderKeys := rfl
  other _ hm' := Serv.modifyBook_get_of_ne hm'
  book := by simp [Serv.allocOrderId, MarketBook.allocOrderId]
  maxOrderId := by
    simp only [Serv.allocOrderId, Serv.modifyBook_get_self, MarketBook.allocOrderId]
    omega
  maxExecId := by simp [Serv.allocOrderId, MarketBook.allocOrderId]
  sess _ := SessExt.refl _
  journ := rfl

theorem allocExecId (m : Mnem) (s : Serv) : Ext m s (s.allocExecId m) where
  heap _ _ := rfl
  next := le_rfl
  marketKeys := rfl
  traderKeys := rfl
  other _ hm' := Serv.modifyBook_get_of_ne hm'
  book := by simp [Serv.allocExecId, MarketBook.allocExecId]
  maxOrderId := by simp [Serv.allocExecId, MarketBook.allocExecId]
  maxExecId := by
    simp only [Serv.allocExecId, Serv.modifyBook_get_self, MarketBook.allocExecId]
    omega
  sess _ := SessExt.refl _
  journ := rfl

theorem lazyPosn (m : Mnem) (s : Serv) (u contr : Mnem) (settlDay : Int) :
    Ext m s (s.lazyPosn u contr settlDay) where
  heap _ _ := rfl
  next := le_rfl
  marketKeys := rfl
  traderKeys := rfl
  other _ _ := rfl
  book := rfl
  maxOrderId := le_rfl
  maxExecId := le_rfl
  sess u' := by
    by_cases hu : u' = u
    · subst hu
      rw [Serv.lazyPosn, Serv.modifySess_get_self]
      exact SessExt.lazyPosn _ contr settlDay
    · rw [Serv.lazyPosn, Serv.modifySess_get_of_ne hu]
      exact SessExt.refl _
  journ := rfl

theorem alloc (m : Mnem) (s : Serv) (o : Order) : Ext m s { s with heap := s.heap.alloc o } where
  heap _ hp := Heap.alloc_of_lt hp o
  next := Nat.le_succ _
  marketKeys := rfl
  traderKeys := rfl
  other _ _ := rfl
  book := rfl
  maxOrderId := le_rfl
  maxExecId := le_rfl
  sess _ := SessExt.refl _
  journ := rfl

/-- A change of an order that was not in the system yet. -/
theorem modify (h : Ext m s s') {p : OrderPtr} (hp : s.heap.next ≤ p) (f : Order → Order) :
    Ext m s { s' with heap := s'.heap.modify p f } where
  heap q hq := by
    rw [← h.heap q hq]
    exact Heap.modify_of_ne (Nat.ne_of_lt (lt_of_lt_of_le hq hp)) f
  next := h.next
  marketKeys := h.marketKeys
  traderKeys := h.traderKeys
  other := h.other
  book := h.book
  maxOrderId := h.maxOrderId
  maxExecId := h.maxExecId
  sess := h.sess
  journ := h.journ

end Ext

end Swirly
