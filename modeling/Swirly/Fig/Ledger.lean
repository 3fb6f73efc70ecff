import Swirly.Lib.Tally
import Swirly.Fig.Commit

/-!
# Swirly.Fig.Ledger

**A session is a ledger.** `TraderSess.Keeps u ts` says that the session holds exactly
the trades `ts`, and that each of its positions is the tally of those trades that
belong to it. Posting a trade with a new key keeps this, provided that the position
is there (`TraderSess.Keeps.post`). Both provisos matter: a set drops an element whose
key is taken, and a position that is not there is not added to.
-/

namespace Swirly

open Lib (KeySet Table tally)

/-! ### Positions -/

/-- The trade counts towards one side of a position. -/
def Exec.For (contr : Mnem) (settlDay : Int) (sd : Side) (t : Exec) : Prop :=
  t.contr = contr ∧ t.settlDay = settlDay ∧ t.side = sd

instance (contr : Mnem) (settlDay : Int) (sd : Side) : DecidablePred (Exec.For contr settlDay sd) :=
  fun _ => inferInstanceAs (Decidable (_ ∧ _ ∧ _))

/-- What was paid in a trade. -/
def Exec.lastCost (t : Exec) : Int := t.lastLots * t.lastTicks

/-- The position is the sum of the trades of its contract and day. -/
structure Posn.Tallies (q : Posn) (contr : Mnem) (settlDay : Int) (ts : List Exec) : Prop where
  buyLots : q.buyLots = tally (Exec.For contr settlDay .buy) (fun t => t.lastLots) ts
  buyCost : q.buyCost = tally (Exec.For contr settlDay .buy) Exec.lastCost ts
  sellLots : q.sellLots = tally (Exec.For contr settlDay .sell) (fun t => t.lastLots) ts
  sellCost : q.sellCost = tally (Exec.For contr settlDay .sell) Exec.lastCost ts

namespace Posn.Tallies

variable {q : Posn} {contr : Mnem} {settlDay : Int} {ts ts' : List Exec} {t : Exec}

theorem nil (trader contr : Mnem) (settlDay : Int) :
    (newPosn trader contr settlDay).Tallies contr settlDay [] := ⟨rfl, rfl, rfl, rfl⟩

theorem perm (h : q.Tallies contr settlDay ts) (hts : ts.Perm ts') :
    q.Tallies contr settlDay ts' := by
  obtain ⟨h₁, h₂, h₃, h₄⟩ := h
  exact ⟨h₁.trans (Lib.tally_perm hts), h₂.trans (Lib.tally_perm hts),
    h₃.trans (Lib.tally_perm hts), h₄.trans (Lib.tally_perm hts)⟩

/-- A trade of another contract or day does not count. -/
theorem append_of_ne (h : q.Tallies contr settlDay ts)
    (hkey : t.posnKey ≠ toLex (contr, settlDay)) : q.Tallies contr settlDay (ts ++ [t]) := by
  have hno : ∀ sd, ¬ Exec.For contr settlDay sd t := by
    rintro sd ⟨rfl, rfl, -⟩
    exact hkey rfl
  obtain ⟨h₁, h₂, h₃, h₄⟩ := h
  constructor <;> simp [*]

/-- A trade of the position's contract and day counts on its side. -/
theorem addTrade (h : q.Tallies contr settlDay ts) (hkey : t.posnKey = toLex (contr, settlDay)) :
    (q.addTrade t).Tallies contr settlDay (ts ++ [t]) := by
  obtain ⟨rfl, rfl⟩ : t.contr = contr ∧ t.settlDay = settlDay := by simpa [Exec.posnKey] using hkey
  have hfor : ∀ sd, Exec.For t.contr t.settlDay sd t ↔ t.side = sd := by simp [Exec.For]
  obtain ⟨h₁, h₂, h₃, h₄⟩ := h
  unfold Posn.addTrade
  cases hside : t.side <;>
    constructor <;> simp [Posn.addBuy, Posn.addSell, Exec.lastCost, cost, *]

end Posn.Tallies

/-! ### Sessions -/

/-- The session holds the trades `ts` and their positions. -/
structure TraderSess.Keeps (u : TraderSess) (ts : List Exec) : Prop where
  trades : u.trades.elems.Perm ts
  posns : ∀ contr settlDay, (u.posnOf contr settlDay).Tallies contr settlDay ts

namespace TraderSess

theorem post_orders (u : TraderSess) (t : Exec) : (u.post t).orders = u.orders := rfl

theorem foldl_post_orders (ts : List Exec) (u : TraderSess) :
    (ts.foldl post u).orders = u.orders := by
  induction ts generalizing u with
  | nil => rfl
  | cons t ts ih => exact (ih (u.post t)).trans (u.post_orders t)

theorem find?_post (u : TraderSess) (t : Exec) (k : PosnKey) : (u.post t).posns.find? k =
    if k = t.posnKey then (u.posns.find? t.posnKey).map (Posn.addTrade · t)
    else u.posns.find? k := by
  show (u.posns.modify t.posnKey (Posn.addTrade · t) (Posn.addTrade_key t)).find? k = _
  rw [KeySet.find?_modify]
  by_cases hk : k = t.posnKey
  · rw [if_pos hk, if_pos hk]
  · rw [if_neg hk, if_neg hk]

/-- Posting adds to the position of the trade and to no other. -/
theorem posnOf_post {u : TraderSess} {t : Exec} (hp : u.hasPosn t.contr t.settlDay = true)
    (contr : Mnem) (settlDay : Int) : (u.post t).posnOf contr settlDay =
      if toLex (contr, settlDay) = t.posnKey then (u.posnOf contr settlDay).addTrade t
      else u.posnOf contr settlDay := by
  unfold posnOf
  rw [find?_post, post_mnem]
  split
  · next hkey =>
      obtain ⟨q, hq⟩ := Option.isSome_iff_exists.mp hp
      have hq' : u.posns.find? t.posnKey = some q := hq
      rw [hkey, hq']
      rfl
  · rfl

theorem hasPosn_post {u : TraderSess} {t : Exec} {contr : Mnem} {settlDay : Int}
    (hp : u.hasPosn contr settlDay = true) : (u.post t).hasPosn contr settlDay = true := by
  unfold hasPosn at hp ⊢
  rw [find?_post]
  split
  · next hkey => rw [Option.isSome_map, ← hkey]; exact hp
  · exact hp

namespace Keeps

variable {u u' : TraderSess} {ts ts' : List Exec} {t : Exec}

theorem empty (htrades : u.trades = KeySet.empty) (hposns : u.posns = KeySet.empty) :
    u.Keeps [] where
  trades := by rw [htrades]; rfl
  posns contr settlDay := by
    unfold posnOf
    rw [hposns]
    exact Posn.Tallies.nil _ _ _

theorem congr (h : u.Keeps ts) (htrades : u'.trades = u.trades)
    (hposns : ∀ contr settlDay, u'.posnOf contr settlDay = u.posnOf contr settlDay) :
    u'.Keeps ts where
  trades := by rw [htrades]; exact h.trades
  posns contr settlDay := by rw [hposns]; exact h.posns contr settlDay

theorem insertOrder (h : u.Keeps ts) (p : OrderPtr) (o : Order) : (u.insertOrder p o).Keeps ts :=
  h.congr (u.insertOrder_trades p o) (fun contr settlDay => by
    unfold posnOf
    rw [insertOrder_posns, insertOrder_mnem])

theorem ext (h : u.Keeps ts) (he : SessExt u u') : u'.Keeps ts := h.congr he.trades he.posnOf

/-- **Posting a trade with a new key.** -/
theorem post (h : u.Keeps ts) (hnew : ∀ t' ∈ ts, t'.idKey ≠ t.idKey)
    (hp : u.hasPosn t.contr t.settlDay = true) : (u.post t).Keeps (ts ++ [t]) where
  trades := by
    have hnone : u.trades.find? t.idKey = none :=
      KeySet.find?_eq_none_iff.mpr (fun t' ht' => hnew t' (h.trades.subset ht'))
    have hins : (u.post t).trades.elems.Perm (t :: u.trades.elems) := KeySet.insert_perm hnone
    exact (hins.trans (h.trades.cons t)).trans (List.perm_append_singleton t ts).symm
  posns contr settlDay := by
    rw [posnOf_post hp]
    split
    · next hkey => exact (h.posns contr settlDay).addTrade hkey.symm
    · next hkey => exact (h.posns contr settlDay).append_of_ne (Ne.symm hkey)

/-- Posting a batch of trades. -/
theorem foldl_post (h : u.Keeps ts) (hnodup : ((ts ++ ts').map Exec.idKey).Nodup)
    (hp : ∀ t ∈ ts', u.hasPosn t.contr t.settlDay = true) :
    (ts'.foldl TraderSess.post u).Keeps (ts ++ ts') := by
  induction ts' generalizing u ts with
  | nil => simpa using h
  | cons t ts' ih =>
      have hnew : ∀ t' ∈ ts, t'.idKey ≠ t.idKey := by
        rw [List.map_append, List.map_cons] at hnodup
        intro t' ht'
        exact (List.nodup_append.mp hnodup).2.2 _ (List.mem_map_of_mem ht') _ List.mem_cons_self
      have hpost := h.post hnew (hp t List.mem_cons_self)
      rw [List.append_cons] at hnodup ⊢
      exact ih hpost hnodup (fun t' ht' => hasPosn_post (hp t' (List.mem_cons_of_mem t ht')))

end Keeps

end TraderSess

end Swirly
