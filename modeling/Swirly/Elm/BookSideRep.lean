import Swirly.Elm.BookSide
import Swirly.Lib.Tally
import Mathlib.Algebra.Order.Ring.Int
import Mathlib.Algebra.BigOperators.Group.List.Basic
import Mathlib.Data.List.Flatten

/-!
# Swirly.Elm.BookSideRep

The **representation invariant of a book side**. A side stands for a list of
blocks, one for each price, each holding the orders at that price in arrival
order. The level set is the list of the blocks' aggregates and the order list is
the concatenation of the blocks, so both are functions of one thing (`Rep`).

Each operation of `BookSide` is given here as what it does to the blocks: an
insertion appends to a block or opens one, a removal shortens a block or closes
it, and a partial fill or revision leaves the blocks as they are and lowers one
aggregate. The level set is determined by the order list (`Rep.levels_unique`),
so a side whose order list is restored is restored altogether.
-/

namespace Swirly

open Lib (Heap KeySet)

/-- The orders at one price, in arrival order. -/
abbrev Block := Int × List OrderPtr

/-- The residual lots of a list of orders. -/
def sumResd (h : Heap Order) (ps : List OrderPtr) : Int := (ps.map (fun p => (h p).resd)).sum

@[simp] theorem sumResd_nil (h : Heap Order) : sumResd h [] = 0 := rfl

@[simp] theorem sumResd_cons (h : Heap Order) (p : OrderPtr) (ps : List OrderPtr) :
    sumResd h (p :: ps) = (h p).resd + sumResd h ps := by
  simp [sumResd]

@[simp] theorem sumResd_append (h : Heap Order) (ps qs : List OrderPtr) :
    sumResd h (ps ++ qs) = sumResd h ps + sumResd h qs := by
  simp [sumResd]

theorem sumResd_congr {h h' : Heap Order} {ps : List OrderPtr}
    (hh : ∀ p ∈ ps, (h' p).resd = (h p).resd) : sumResd h' ps = sumResd h ps := by
  unfold sumResd
  rw [List.map_congr_left hh]

/-- The residual lots that the orders `ps` have at one key. -/
def levelLots (h : Heap Order) (ps : List OrderPtr) (k : Int) : Int :=
  Lib.tally (fun p => (h p).key = k) (fun p => (h p).resd) ps

/-- The block of the orders `ps` at key `k`; no block when there are none. -/
def blockAt (k : Int) (ps : List OrderPtr) : List Block :=
  if ps = [] then [] else [(k, ps)]

@[simp] theorem blockAt_flatMap (k : Int) (ps : List OrderPtr) :
    (blockAt k ps).flatMap Prod.snd = ps := by
  unfold blockAt
  split
  · next hps => rw [hps]; rfl
  · simp

theorem mem_blockAt {k : Int} {ps : List OrderPtr} {e : Block} (he : e ∈ blockAt k ps) :
    e = (k, ps) ∧ ps ≠ [] := by
  unfold blockAt at he
  split at he
  · simp at he
  · next hps => exact ⟨List.mem_singleton.mp he, hps⟩

/-- The aggregate of a block on a side. -/
def levelOf (sd : Side) (h : Heap Order) (e : Block) : Level :=
  { firstOrder := e.2.headD 0, key := e.1, ticks := ticksOf sd e.1, resd := sumResd h e.2,
    count := e.2.length }

@[simp] theorem levelOf_key (sd : Side) (h : Heap Order) (e : Block) :
    (levelOf sd h e).key = e.1 := rfl

theorem levelOf_congr {sd : Side} {h h' : Heap Order} {e : Block}
    (hh : ∀ p ∈ e.2, (h' p).resd = (h p).resd) : levelOf sd h' e = levelOf sd h e := by
  simp only [levelOf, sumResd_congr hh]

/-- `o` rests in the level with key `k` on side `sd`. -/
structure RestsAt (sd : Side) (k : Int) (o : Order) : Prop where
  level : o.level = some k
  side : o.side = sd
  key : o.key = k
  resd_pos : 0 < o.resd

/-- The side `b` stands for `blocks`. -/
structure Rep (sd : Side) (h : Heap Order) (b : BookSide) (blocks : List Block) : Prop where
  levels_eq : b.levels.elems = blocks.map (levelOf sd h)
  orders_eq : b.orders = blocks.flatMap Prod.snd
  nodup : b.orders.Nodup
  block_ne : ∀ e ∈ blocks, e.2 ≠ []
  rests : ∀ e ∈ blocks, ∀ p ∈ e.2, RestsAt sd e.1 (h p)

namespace Rep

variable {sd : Side} {h h' : Heap Order} {b : BookSide} {blocks : List Block} {p q : OrderPtr}

theorem empty (sd : Side) (h : Heap Order) : Rep sd h BookSide.empty [] :=
  ⟨rfl, rfl, List.nodup_nil, by simp, by simp⟩

theorem sorted (hr : Rep sd h b blocks) : blocks.Pairwise (fun e f => e.1 < f.1) := by
  have hs := b.levels.sorted
  rw [hr.levels_eq, List.pairwise_map] at hs
  exact hs

theorem mem_orders (hr : Rep sd h b blocks) : p ∈ b.orders ↔ ∃ e ∈ blocks, p ∈ e.2 := by
  rw [hr.orders_eq, List.mem_flatMap]

/-- A resting order rests at its own key. -/
theorem rests_key (hr : Rep sd h b blocks) (hp : p ∈ b.orders) : RestsAt sd (h p).key (h p) := by
  obtain ⟨e, he, hpe⟩ := hr.mem_orders.mp hp
  have hrest := hr.rests e he p hpe
  rw [hrest.key]
  exact hrest

/-- The block of a resting order, with the blocks and orders around it. -/
theorem split (hr : Rep sd h b blocks) (hp : p ∈ b.orders) :
    ∃ l s t r, blocks = l ++ ((h p).key, s ++ p :: t) :: r := by
  obtain ⟨e, he, hpe⟩ := hr.mem_orders.mp hp
  obtain ⟨l, r, rfl⟩ := List.append_of_mem he
  obtain ⟨s, t, hst⟩ := List.append_of_mem hpe
  refine ⟨l, s, t, r, ?_⟩
  rw [(hr.rests e he p hpe).key, ← hst]

/-- The level set around the level of one block. -/
theorem level_split {l r : List Block} {e : Block} (hr : Rep sd h b (l ++ e :: r)) :
    b.levels.elems = l.map (levelOf sd h) ++ levelOf sd h e :: r.map (levelOf sd h) ∧
      (∀ x ∈ l.map (levelOf sd h), x.key < e.1) ∧
      (∀ x ∈ r.map (levelOf sd h), e.1 < x.key) := by
  have hsorted := hr.sorted
  rw [List.pairwise_append] at hsorted
  refine ⟨by rw [hr.levels_eq, List.map_append, List.map_cons], ?_, ?_⟩
  · exact List.forall_mem_map.mpr (fun f hf => hsorted.2.2 f hf e List.mem_cons_self)
  · exact List.forall_mem_map.mpr (List.pairwise_cons.mp hsorted.2.1).1

/-- Only what `Rep` reads of the resting orders matters. -/
theorem congr (hr : Rep sd h b blocks)
    (hh : ∀ p ∈ b.orders, (h' p).level = (h p).level ∧ (h' p).side = (h p).side ∧
      (h' p).key = (h p).key ∧ (h' p).resd = (h p).resd) : Rep sd h' b blocks where
  levels_eq := by
    rw [hr.levels_eq]
    refine List.map_congr_left (fun e he => (levelOf_congr (fun p hp => ?_)).symm)
    exact (hh p (hr.mem_orders.mpr ⟨e, he, hp⟩)).2.2.2
  orders_eq := hr.orders_eq
  nodup := hr.nodup
  block_ne := hr.block_ne
  rests e he p hp := by
    obtain ⟨hl, hs, hk, hres⟩ := hh p (hr.mem_orders.mpr ⟨e, he, hp⟩)
    have hrest := hr.rests e he p hp
    exact ⟨hl ▸ hrest.level, hs ▸ hrest.side, hk ▸ hrest.key, hres ▸ hrest.resd_pos⟩

/-- An order that does not rest on the side can change freely. -/
theorem modify_of_not_mem (hr : Rep sd h b blocks) (hp : p ∉ b.orders) (f : Order → Order) :
    Rep sd (h.modify p f) b blocks := by
  refine hr.congr ?_
  intro q hq
  have hne : q ≠ p := fun heq => hp (heq ▸ hq)
  simp [Heap.modify_of_ne hne]

/-- The orders of one slot rest at its key. -/
theorem rests_blockAt {l r : List Block} {k : Int} {s : List OrderPtr}
    (hr : Rep sd h b (l ++ blockAt k s ++ r)) : ∀ p ∈ s, RestsAt sd k (h p) := by
  intro p hp
  have hs : s ≠ [] := List.ne_nil_of_mem hp
  exact hr.rests (k, s) (by simp [blockAt, hs]) p hp

/-- **Changing one slot.** The orders `s` at key `k` become `t`; the orders at
other keys keep their places and their fields. -/
theorem reslot {l r : List Block} {k : Int} {s t : List OrderPtr} {b' : BookSide}
    (hr : Rep sd h b (l ++ blockAt k s ++ r))
    (hlv : b'.levels.elems = (l ++ blockAt k t ++ r).map (levelOf sd h'))
    (ho : b'.orders = l.flatMap Prod.snd ++ t ++ r.flatMap Prod.snd)
    (hnd : b'.orders.Nodup) (ht : ∀ p ∈ t, RestsAt sd k (h' p))
    (hh : ∀ p ∈ l.flatMap Prod.snd ++ r.flatMap Prod.snd, h' p = h p) :
    Rep sd h' b' (l ++ blockAt k t ++ r) := by
  have hold : ∀ e, e ∈ l ∨ e ∈ r → e ∈ l ++ blockAt k s ++ r := by
    rintro e (he | he) <;> simp [he]
  have hcases : ∀ e ∈ l ++ blockAt k t ++ r, (e ∈ l ∨ e ∈ r) ∨ e = (k, t) ∧ t ≠ [] := by
    intro e he
    rcases List.mem_append.mp he with he | he
    · rcases List.mem_append.mp he with he | he
      · exact Or.inl (Or.inl he)
      · exact Or.inr (mem_blockAt he)
    · exact Or.inl (Or.inr he)
  refine ⟨hlv, by simpa using ho, hnd, ?_, ?_⟩
  · intro e he
    rcases hcases e he with he | ⟨rfl, hne⟩
    · exact hr.block_ne e (hold e he)
    · exact hne
  · intro e he p hp
    rcases hcases e he with he' | ⟨rfl, -⟩
    · rw [hh p (by
        rcases he' with he' | he'
        · exact List.mem_append_left _ (List.mem_flatMap.mpr ⟨e, he', hp⟩)
        · exact List.mem_append_right _ (List.mem_flatMap.mpr ⟨e, he', hp⟩))]
      exact hr.rests e (hold e he') p hp
    · exact ht p hp

/-! ### The order list determines the level set -/

private theorem flatMap_eq_nil_iff' {l : List Block} (hne : ∀ e ∈ l, e.2 ≠ []) :
    l.flatMap Prod.snd = [] ↔ l = [] := by
  cases l with
  | nil => simp
  | cons e l => simp [hne e List.mem_cons_self]

/-- The first block is the part of the order list at the first order's key. -/
private theorem filter_head {k : Int} {ps : List OrderPtr} {l : List Block}
    (hs : ((k, ps) :: l).Pairwise (fun e f => e.1 < f.1)) {key : OrderPtr → Int}
    (hkey : ∀ e ∈ (k, ps) :: l, ∀ p ∈ e.2, key p = e.1) :
    (((k, ps) :: l).flatMap Prod.snd).filter (fun p => key p = k) = ps := by
  rw [List.flatMap_cons, List.filter_append, List.filter_eq_self.mpr, List.filter_eq_nil_iff.mpr,
    List.append_nil]
  · intro p hp
    obtain ⟨e, he, hpe⟩ := List.mem_flatMap.mp hp
    have hlt := (List.pairwise_cons.mp hs).1 e he
    rw [hkey e (List.mem_cons_of_mem _ he) p hpe]
    simpa using ne_of_gt hlt
  · intro p hp
    simpa using hkey (k, ps) List.mem_cons_self p hp

private theorem blocks_unique (key : OrderPtr → Int) : ∀ {l l' : List Block},
    l.Pairwise (fun e f => e.1 < f.1) → l'.Pairwise (fun e f => e.1 < f.1) →
    (∀ e ∈ l, e.2 ≠ []) → (∀ e ∈ l', e.2 ≠ []) →
    (∀ e ∈ l, ∀ p ∈ e.2, key p = e.1) → (∀ e ∈ l', ∀ p ∈ e.2, key p = e.1) →
    l.flatMap Prod.snd = l'.flatMap Prod.snd → l = l'
  | [], l', _, _, _, hne', _, _, heq => ((flatMap_eq_nil_iff' hne').mp heq.symm).symm
  | e :: l, [], _, _, hne, _, _, _, heq => absurd ((flatMap_eq_nil_iff' hne).mp heq) (by simp)
  | (k, ps) :: l, (k', ps') :: l', hs, hs', hne, hne', hk, hk', heq => by
      -- The two lists start with the same order, hence with blocks of one key.
      have hkk : k = k' := by
        obtain ⟨p, s, rfl⟩ := List.exists_cons_of_ne_nil (hne _ List.mem_cons_self)
        obtain ⟨p', s', rfl⟩ := List.exists_cons_of_ne_nil (hne' _ List.mem_cons_self)
        simp only [List.flatMap_cons, List.cons_append, List.cons.injEq] at heq
        have h1 := hk _ List.mem_cons_self p List.mem_cons_self
        have h2 := hk' _ List.mem_cons_self p' List.mem_cons_self
        calc
          k = key p := h1.symm
          _ = key p' := by rw [heq.1]
          _ = k' := h2
      subst hkk
      have hps : ps = ps' := by
        rw [← filter_head hs hk, ← filter_head hs' hk', heq]
      subst hps
      simp only [List.flatMap_cons, List.append_cancel_left_eq] at heq
      rw [blocks_unique key (List.pairwise_cons.mp hs).2 (List.pairwise_cons.mp hs').2
        (fun e he => hne e (List.mem_cons_of_mem _ he))
        (fun e he => hne' e (List.mem_cons_of_mem _ he))
        (fun e he => hk e (List.mem_cons_of_mem _ he))
        (fun e he => hk' e (List.mem_cons_of_mem _ he)) heq]

/-- **Two sides over one heap with the same order list are the same side.** -/
theorem levels_unique {b' : BookSide} {blocks' : List Block} (hr : Rep sd h b blocks)
    (hr' : Rep sd h b' blocks') (ho : b.orders = b'.orders) : b = b' := by
  have hblocks : blocks = blocks' := by
    refine blocks_unique (fun p => (h p).key) hr.sorted hr'.sorted hr.block_ne hr'.block_ne
      (fun e he p hp => (hr.rests e he p hp).key) (fun e he p hp => (hr'.rests e he p hp).key) ?_
    rw [← hr.orders_eq, ← hr'.orders_eq, ho]
  subst hblocks
  refine BookSide.ext (KeySet.ext ?_) ho
  rw [hr.levels_eq, hr'.levels_eq]

/-! ### The lots of a level -/

/-- A level has the lots of its orders. -/
theorem level_resd (hr : Rep sd h b blocks) {l : Level} (hl : l ∈ b.levels.elems) :
    l.resd = levelLots h b.orders l.key := by
  rw [hr.levels_eq] at hl
  obtain ⟨e, he, rfl⟩ := List.mem_map.mp hl
  obtain ⟨left, right, rfl⟩ := List.append_of_mem he
  obtain ⟨-, hsright, hsleft⟩ := List.pairwise_append.mp hr.sorted
  have hkey : ∀ f ∈ left ++ e :: right, ∀ p ∈ f.2, (h p).key = f.1 :=
    fun f hf p hp => (hr.rests f hf p hp).key
  -- Other blocks have other keys.
  have hother : ∀ fs : List Block, (∀ f ∈ fs, f ∈ left ++ e :: right ∧ f.1 ≠ e.1) →
      levelLots h (fs.flatMap Prod.snd) e.1 = 0 := by
    intro fs hfs
    refine Lib.tally_of_forall_not ?_
    intro p hp hpk
    obtain ⟨f, hf, hpf⟩ := List.mem_flatMap.mp hp
    obtain ⟨hmem, hne⟩ := hfs f hf
    exact hne ((hkey f hmem p hpf).symm.trans hpk)
  have hown : levelLots h e.2 e.1 = sumResd h e.2 :=
    Lib.tally_of_forall (fun p hp => hkey e (by simp) p hp)
  have hl := hother left (fun f hf => ⟨List.mem_append_left _ hf,
    ne_of_lt (hsleft f hf e List.mem_cons_self)⟩)
  have hr' := hother right (fun f hf => ⟨by simp [hf],
    ne_of_gt ((List.pairwise_cons.mp hsright).1 f hf)⟩)
  show sumResd h e.2 = levelLots h b.orders e.1
  rw [hr.orders_eq, List.flatMap_append, List.flatMap_cons]
  unfold levelLots at hl hr' hown ⊢
  rw [Lib.tally_append, Lib.tally_append, hl, hr', hown, zero_add, add_zero]

/-- A resting order has a level. -/
theorem exists_level (hr : Rep sd h b blocks) (hp : p ∈ b.orders) :
    ∃ l ∈ b.levels.elems, l.key = (h p).key := by
  obtain ⟨e, he, hpe⟩ := hr.mem_orders.mp hp
  rw [hr.levels_eq]
  exact ⟨_, List.mem_map_of_mem he, (hr.rests e he p hpe).key.symm⟩

end Rep

/-! ### Insertion -/

theorem insertBefore_append {p q : OrderPtr} : ∀ {s : List OrderPtr}, q ∉ s → ∀ t,
    OrderList.insertBefore p q (s ++ q :: t) = s ++ p :: q :: t
  | [], _, t => by simp [OrderList.insertBefore]
  | x :: s, hq, t => by
      have hx : x ≠ q := fun heq => hq (heq ▸ List.mem_cons_self)
      rw [List.cons_append, OrderList.insertBefore, if_neg hx,
        insertBefore_append (fun hmem => hq (List.mem_cons_of_mem x hmem)), List.cons_append]

theorem next_append {p : OrderPtr} : ∀ {s : List OrderPtr}, p ∉ s → ∀ t,
    OrderList.next p (s ++ p :: t) = t.head?
  | [], _, t => by simp [OrderList.next]
  | x :: s, hp, t => by
      have hx : x ≠ p := fun heq => hp (heq ▸ List.mem_cons_self)
      rw [List.cons_append, OrderList.next, if_neg hx,
        next_append (fun hmem => hp (List.mem_cons_of_mem x hmem))]

/-- Placing an order by the level that follows puts it between the blocks before
that level and the blocks from it on. -/
theorem place_order {sd : Side} {h : Heap Order} {p : OrderPtr} {s : List OrderPtr}
    {r : List Block} (hnd : (s ++ r.flatMap Prod.snd).Nodup) (hne : ∀ e ∈ r, e.2 ≠ []) :
    (match (r.map (levelOf sd h)).head? with
      | some level => OrderList.insertBefore p level.firstOrder (s ++ r.flatMap Prod.snd)
      | none => s ++ r.flatMap Prod.snd ++ [p]) = s ++ p :: r.flatMap Prod.snd := by
  cases r with
  | nil => simp
  | cons e r =>
      obtain ⟨q, t, hqt⟩ := List.exists_cons_of_ne_nil (hne e List.mem_cons_self)
      have hq : q ∉ s := by
        intro hmem
        refine List.disjoint_of_nodup_append hnd hmem ?_
        simp [hqt]
      simp only [List.map_cons, List.head?_cons, levelOf, List.flatMap_cons, hqt, List.headD_cons,
        List.cons_append]
      exact insertBefore_append hq _

namespace BookSide

variable {sd : Side} {h : Heap Order} {b : BookSide} {blocks : List Block} {p : OrderPtr}

theorem insertOrder_heap (h : Heap Order) (b : BookSide) (p : OrderPtr) :
    (b.insertOrder h p).1 = h.modify p (Order.setLevel · (some (h p).key)) := by
  simp only [insertOrder, insertLevel, Order.key]
  split <;> rfl

/-- At a price without a level, an insertion opens one. -/
theorem insertOrder_of_none (hf : b.levels.find? (h p).key = none) :
    (b.insertOrder h p).2.levels = b.levels.insert (Level.ofOrder p (h p)) := by
  have hf' : b.levels.find? (composeKey (h p).side (h p).ticks) = none := hf
  simp only [insertOrder, insertLevel, hf']
  split <;> rfl

/-- At a price with a level, an insertion joins it. -/
theorem insertOrder_of_some {lv : Level} (hf : b.levels.find? (h p).key = some lv) :
    (b.insertOrder h p).2.levels =
      b.levels.modify (h p).key (Level.addOrder · (h p)) (Level.addOrder_key _) := by
  have hf' : b.levels.find? (composeKey (h p).side (h p).ticks) = some lv := hf
  simp only [insertOrder, insertLevel, hf']
  split <;> rfl

theorem insertOrder_orders (h : Heap Order) (b : BookSide) (p : OrderPtr) :
    (b.insertOrder h p).2.orders =
      match (b.insertOrder h p).2.levels.next (h p).key with
      | some level => OrderList.insertBefore p level.firstOrder b.orders
      | none => b.orders ++ [p] := by
  have hkey : (h p).key = composeKey (h p).side (h p).ticks := rfl
  simp only [insertOrder, insertLevel]
  split
  · next hn => simp only [hkey, hn]
  · next hn => simp only [hkey, hn]

/-- Where an order goes: behind the orders `s` at its own price, between the blocks
`l` at better prices and the blocks `r` at worse ones. -/
theorem exists_slot (hr : Rep sd h b blocks) (hside : (h p).side = sd) :
    ∃ l s r, blocks = l ++ blockAt (h p).key s ++ r ∧
      (∀ e ∈ l, e.1 < (h p).key) ∧ (∀ e ∈ r, (h p).key < e.1) ∧
      (b.insertOrder h p).2.levels.elems =
        (l ++ blockAt (h p).key (s ++ [p]) ++ r).map (levelOf sd h) := by
  cases hf : b.levels.find? (h p).key with
  | none =>
      obtain ⟨l, r, hs, hins, hl, hrk⟩ :=
        KeySet.exists_split_of_not_mem (a := Level.ofOrder p (h p)) hf
      rw [hr.levels_eq] at hs
      obtain ⟨l, r, rfl, rfl, rfl⟩ := List.map_eq_append_iff.mp hs
      have hnew : Level.ofOrder p (h p) = levelOf sd h ((h p).key, [p]) := by
        simp [Level.ofOrder, levelOf, Order.key, hside]
      refine ⟨l, [], r, by simp [blockAt], fun e he => hl _ (List.mem_map_of_mem he),
        fun e he => hrk _ (List.mem_map_of_mem he), ?_⟩
      rw [insertOrder_of_none hf, hins, hnew]
      simp [blockAt]
  | some lv =>
      obtain ⟨hlv, hk⟩ := KeySet.mem_of_find? hf
      obtain ⟨l, r, hs, hl, hrk⟩ := KeySet.exists_split_of_mem hlv
      have hs' := hs
      rw [hr.levels_eq] at hs'
      obtain ⟨l, r, hbl, rfl, hr'⟩ := List.map_eq_append_iff.mp hs'
      obtain ⟨⟨k, s⟩, r, rfl, rfl, rfl⟩ := List.map_eq_cons_iff.mp hr'
      obtain rfl : k = (h p).key := hk
      have hs_ne : s ≠ [] := hr.block_ne ((h p).key, s) (by simp [hbl])
      have hadd : (levelOf sd h ((h p).key, s)).addOrder (h p) =
          levelOf sd h ((h p).key, s ++ [p]) := by
        obtain ⟨q, t, rfl⟩ := List.exists_cons_of_ne_nil hs_ne
        simp [levelOf, Level.addOrder, add_assoc]
      refine ⟨l, s, r, by simp [hbl, blockAt, hs_ne], fun e he => hl _ (List.mem_map_of_mem he),
        fun e he => hrk _ (List.mem_map_of_mem he), ?_⟩
      have hmod := KeySet.modify_elems_of_split hs hl hrk (Level.addOrder · (h p))
        (Level.addOrder_key _)
      rw [levelOf_key, hadd] at hmod
      rw [insertOrder_of_some hf, hmod]
      simp [blockAt]

/-- **What an insertion does to the blocks.** The order goes behind every order
whose key is not beyond its own. -/
theorem insertOrder_rep (hr : Rep sd h b blocks) (hp : p ∉ b.orders) (hside : (h p).side = sd)
    (hresd : 0 < (h p).resd) :
    ∃ blocks' s t, Rep sd (b.insertOrder h p).1 (b.insertOrder h p).2 blocks' ∧
      b.orders = s ++ t ∧ (b.insertOrder h p).2.orders = s ++ p :: t ∧
      (∀ q ∈ s, (h q).key ≤ (h p).key) ∧ (∀ q ∈ t, (h p).key < (h q).key) := by
  obtain ⟨l, s, r, rfl, hl, hrk, hlv⟩ := exists_slot (p := p) hr hside
  have horders : b.orders = (l.flatMap Prod.snd ++ s) ++ r.flatMap Prod.snd := by
    rw [hr.orders_eq]; simp
  have hnd := hr.nodup
  rw [horders] at hnd
  have hnext : (b.insertOrder h p).2.levels.next (h p).key = (r.map (levelOf sd h)).head? := by
    have hkey : (levelOf sd h ((h p).key, s ++ [p])).key = (h p).key := rfl
    rw [← hkey]
    refine KeySet.next_of_split (l := l.map (levelOf sd h)) ?_ (List.forall_mem_map.mpr hl)
      (List.forall_mem_map.mpr hrk)
    rw [hlv]
    simp [blockAt]
  have hplaced : (b.insertOrder h p).2.orders =
      (l.flatMap Prod.snd ++ s) ++ p :: r.flatMap Prod.snd := by
    rw [insertOrder_orders, hnext, horders]
    exact place_order hnd (fun e he => hr.block_ne e (by simp [he]))
  refine ⟨l ++ blockAt (h p).key (s ++ [p]) ++ r, l.flatMap Prod.snd ++ s, r.flatMap Prod.snd,
    ?_, horders, hplaced, ?_, ?_⟩
  · refine hr.reslot (t := s ++ [p]) ?_ (by simpa using hplaced) ?_ ?_ ?_
    · rw [hlv, insertOrder_heap]
      refine List.map_congr_left (fun e _ => (levelOf_congr (fun q _ => ?_)).symm)
      exact Heap.proj_modify Order.resd rfl q
    · rw [hplaced, List.nodup_middle, List.nodup_cons]
      exact ⟨horders ▸ hp, hnd⟩
    · intro q hq
      rw [insertOrder_heap]
      rcases List.mem_append.mp hq with hq | hq
      · have hmem : q ∈ b.orders := by rw [horders]; simp [hq]
        rw [Heap.modify_of_ne (fun heq : q = p => hp (heq ▸ hmem))]
        exact hr.rests_blockAt q hq
      · obtain rfl := List.mem_singleton.mp hq
        rw [Heap.modify_self]
        exact ⟨rfl, hside, rfl, hresd⟩
    · intro q hq
      have hmem : q ∈ b.orders := by
        rw [horders]
        rcases List.mem_append.mp hq with hq | hq <;> simp [hq]
      rw [insertOrder_heap, Heap.modify_of_ne (fun heq : q = p => hp (heq ▸ hmem))]
  · intro q hq
    rcases List.mem_append.mp hq with hq | hq
    · obtain ⟨e, he, hqe⟩ := List.mem_flatMap.mp hq
      rw [(hr.rests e (by simp [he]) q hqe).key]
      exact (hl e he).le
    · rw [(hr.rests_blockAt q hq).key]
  · intro q hq
    obtain ⟨e, he, hqe⟩ := List.mem_flatMap.mp hq
    rw [(hr.rests e (by simp [he]) q hqe).key]
    exact hrk e he

/-! ### Removal -/

theorem removeFrom_heap (h : Heap Order) (b : BookSide) (k : Int) (p : OrderPtr) :
    (b.removeFrom h k p).1 = h.modify p (Order.setLevel · none) := rfl

@[simp] theorem removeFrom_orders (h : Heap Order) (b : BookSide) (k : Int) (p : OrderPtr) :
    (b.removeFrom h k p).2.orders = b.orders.erase p := rfl

theorem levelOf_subOrder (sd : Side) (h : Heap Order) (k : Int) (s t : List OrderPtr)
    (p : OrderPtr) : (levelOf sd h (k, s ++ p :: t)).subOrder (h p) =
      { levelOf sd h (k, s ++ t) with firstOrder := (s ++ p :: t).headD 0 } := by
  have hresd : sumResd h (s ++ p :: t) - (h p).resd = sumResd h (s ++ t) := by
    simp only [sumResd_append, sumResd_cons]; omega
  have hcount : ((s ++ p :: t).length : Int) - 1 = (s ++ t).length := by
    simp only [List.length_append, List.length_cons]; omega
  simp only [levelOf, Level.subOrder, hresd, hcount]

/-- The level set after a removal, by the position of the order in its block. -/
theorem removeFrom_levels {l r : List Block} {s t : List OrderPtr}
    (hr : Rep sd h b (l ++ blockAt (h p).key (s ++ p :: t) ++ r)) :
    (b.removeFrom h (h p).key p).2.levels.elems =
      (l ++ blockAt (h p).key (s ++ t) ++ r).map (levelOf sd h) := by
  have hblocks : l ++ blockAt (h p).key (s ++ p :: t) ++ r =
      l ++ ((h p).key, s ++ p :: t) :: r := by
    simp [blockAt]
  rw [hblocks] at hr
  obtain ⟨hlv, hl, hrk⟩ := hr.level_split
  -- The level with the order's lots taken off.
  let lv := { levelOf sd h ((h p).key, s ++ t) with firstOrder := (s ++ p :: t).headD 0 }
  have hsub : (b.levels.modify (h p).key (Level.subOrder · (h p)) (Level.subOrder_key _)).elems =
      l.map (levelOf sd h) ++ lv :: r.map (levelOf sd h) := by
    have hmod := KeySet.modify_elems_of_split hlv hl hrk (Level.subOrder · (h p))
      (Level.subOrder_key _)
    rwa [levelOf_subOrder] at hmod
  have hfind : (b.levels.modify (h p).key (Level.subOrder · (h p)) (Level.subOrder_key _)).find?
      (h p).key = some lv :=
    KeySet.find?_of_mem (a := lv) (KeySet.mem_of_split hsub)
  simp only [removeFrom, hfind]
  by_cases hst : s ++ t = []
  · -- Last order of the level: the level goes.
    have hcount : lv.count = 0 := by simp only [lv, levelOf, hst]; rfl
    rw [if_pos hcount]
    refine (KeySet.erase_elems_of_split (a := lv) hsub hl hrk).trans ?_
    simp [blockAt, hst]
  · have hcount : lv.count ≠ 0 := by
      simpa only [lv, levelOf, ne_eq, Int.natCast_eq_zero, List.length_eq_zero_iff] using hst
    rw [if_neg hcount]
    cases s with
    | nil =>
        -- First order of the level: the next one takes its place.
        obtain ⟨q, t, rfl⟩ := List.exists_cons_of_ne_nil hst
        have hnd := hr.nodup
        have horders : b.orders = l.flatMap Prod.snd ++ p :: (q :: t ++ r.flatMap Prod.snd) := by
          rw [hr.orders_eq]; simp
        have hp : p ∉ l.flatMap Prod.snd := by
          rw [horders] at hnd
          exact fun hmem => List.disjoint_of_nodup_append hnd hmem List.mem_cons_self
        have hnext : OrderList.next p b.orders = some q := by
          rw [horders, next_append hp]; rfl
        have hfirst : lv.firstOrder = p := rfl
        rw [if_pos hfirst, hnext]
        refine (KeySet.modify_elems_of_split (a := lv) hsub hl hrk _
          (Level.setFirstOrder_key _)).trans ?_
        simp [blockAt, Level.setFirstOrder, lv, levelOf]
    | cons q s =>
        -- Not the first: the first order stays.
        have hq : q ≠ p := by
          have hnd := hr.nodup
          rw [hr.orders_eq] at hnd
          intro heq
          simp [heq, List.nodup_append] at hnd
        have hfirst : lv.firstOrder ≠ p := hq
        rw [if_neg hfirst, hsub]
        simp [blockAt, lv, levelOf]

theorem removeFrom_rep (hr : Rep sd h b blocks) (hp : p ∈ b.orders) :
    ∃ blocks', Rep sd (b.removeFrom h (h p).key p).1 (b.removeFrom h (h p).key p).2 blocks' := by
  obtain ⟨l, s, t, r, rfl⟩ := hr.split hp
  have hblocks : l ++ ((h p).key, s ++ p :: t) :: r =
      l ++ blockAt (h p).key (s ++ p :: t) ++ r := by
    simp [blockAt]
  rw [hblocks] at hr
  have horders : b.orders = l.flatMap Prod.snd ++ s ++ p :: (t ++ r.flatMap Prod.snd) := by
    rw [hr.orders_eq]; simp
  have hnd := hr.nodup
  have hps : p ∉ l.flatMap Prod.snd ++ s := by
    rw [horders] at hnd
    exact fun hmem => List.disjoint_of_nodup_append hnd hmem List.mem_cons_self
  have herase : b.orders.erase p = l.flatMap Prod.snd ++ (s ++ t) ++ r.flatMap Prod.snd := by
    rw [horders, List.erase_append_right _ hps, List.erase_cons_head]
    simp
  have hne : ∀ q ∈ b.orders.erase p, q ≠ p := fun q hq heq => hnd.not_mem_erase (heq ▸ hq)
  refine ⟨l ++ blockAt (h p).key (s ++ t) ++ r, hr.reslot ?_ herase (hnd.erase p) ?_ ?_⟩
  · rw [removeFrom_levels hr, removeFrom_heap]
    refine List.map_congr_left (fun e _ => (levelOf_congr (fun q _ => ?_)).symm)
    exact Heap.proj_modify Order.resd rfl q
  · intro q hq
    have hmem : q ∈ b.orders.erase p := by
      rw [herase]; exact List.mem_append_left _ (List.mem_append_right _ hq)
    rw [removeFrom_heap, Heap.modify_of_ne (hne q hmem)]
    exact hr.rests_blockAt q (by simp only [List.mem_append, List.mem_cons] at hq ⊢; tauto)
  · intro q hq
    rw [removeFrom_heap, Heap.modify_of_ne (hne q ?_)]
    rw [herase]
    simp only [List.mem_append] at hq ⊢
    tauto

/-! ### Partial fills -/

theorem sumResd_modify {f : Order → Order} {delta : Int} {s t : List OrderPtr}
    (hnd : (s ++ p :: t).Nodup) (hf : (f (h p)).resd = (h p).resd - delta) :
    sumResd (h.modify p f) (s ++ p :: t) = sumResd h (s ++ p :: t) - delta := by
  rw [List.nodup_middle, List.nodup_cons, List.mem_append, not_or] at hnd
  have hoff : ∀ {ps : List OrderPtr}, p ∉ ps → sumResd (h.modify p f) ps = sumResd h ps := by
    intro ps hps
    refine sumResd_congr ?_
    intro q hq
    rw [Heap.modify_of_ne (fun heq : q = p => hps (heq ▸ hq))]
  simp only [sumResd_append, sumResd_cons, hoff hnd.1.1, hoff hnd.1.2, Heap.modify_self, hf]
  omega

/-- **Reducing one level with its order.** Taking `delta` lots off an order that
stays and off its level leaves the blocks as they are. -/
theorem reduce_rep (hr : Rep sd h b blocks) (hp : p ∈ b.orders) {delta : Int}
    {f : Order → Order} (hlevel : (f (h p)).level = (h p).level)
    (hside : (f (h p)).side = (h p).side) (hkey : (f (h p)).key = (h p).key)
    (hresd : (f (h p)).resd = (h p).resd - delta) (hpos : delta < (h p).resd) :
    Rep sd (h.modify p f)
      { b with levels := b.levels.modify (h p).key (Level.reduce · delta) (Level.reduce_key _) }
      blocks := by
  obtain ⟨l, s, t, r, rfl⟩ := hr.split hp
  obtain ⟨hlv, hl, hrk⟩ := hr.level_split
  have horders := hr.orders_eq
  have hnd := hr.nodup
  rw [horders] at hnd
  simp only [List.flatMap_append, List.flatMap_cons, List.append_assoc] at hnd
  have hblock : (s ++ p :: t).Nodup := by
    have := (List.nodup_append.mp hnd).2.1
    rw [← List.append_assoc] at this
    exact (List.nodup_append.mp this).1
  -- The other blocks do not hold the order.
  have hoff : ∀ e, e ∈ l ∨ e ∈ r → levelOf sd (h.modify p f) e = levelOf sd h e := by
    intro e he
    refine levelOf_congr ?_
    intro q hq
    have hne : q ≠ p := by
      rintro rfl
      have hlt : e.1 ≠ (h q).key := by
        rcases he with he | he
        · exact ne_of_lt (hl _ (List.mem_map_of_mem he))
        · exact ne_of_gt (hrk _ (List.mem_map_of_mem he))
      exact hlt (hr.rests e (by rcases he with he | he <;> simp [he]) q hq).key.symm
    rw [Heap.modify_of_ne hne]
  have hself : levelOf sd (h.modify p f) ((h p).key, s ++ p :: t) =
      (levelOf sd h ((h p).key, s ++ p :: t)).reduce delta := by
    simp only [levelOf, Level.reduce, sumResd_modify hblock hresd]
  refine ⟨?_, horders, hr.nodup, hr.block_ne, ?_⟩
  · refine (KeySet.modify_elems_of_split hlv hl hrk _ (Level.reduce_key _)).trans ?_
    rw [List.map_append, List.map_cons, hself,
      List.map_congr_left (fun e he => hoff e (Or.inl he)),
      List.map_congr_left (fun e he => hoff e (Or.inr he))]
  · intro e he q hq
    have hq' := hr.rests e he q hq
    by_cases hqp : q = p
    · subst hqp
      rw [Heap.modify_self]
      exact ⟨hlevel ▸ hq'.level, hside ▸ hq'.side, hkey ▸ hq'.key, by rw [hresd]; omega⟩
    · rw [Heap.modify_of_ne hqp]
      exact hq'

/-- **Reducing an order.** `reduceLevel` followed by any change that takes `delta`
lots off the order keeps the representation, whether the order stays or leaves. -/
theorem reduceLevel_rep (hr : Rep sd h b blocks) (hp : p ∈ b.orders) {delta : Int}
    {f : Order → Order} (hlevel : ∀ o, (f o).level = o.level) (hside : ∀ o, (f o).side = o.side)
    (hkey : ∀ o, (f o).key = o.key) (hresd : (f (h p)).resd = (h p).resd - delta) :
    ∃ blocks', Rep sd ((b.reduceLevel h (h p).key p delta).1.modify p f)
      (b.reduceLevel h (h p).key p delta).2 blocks' := by
  unfold reduceLevel
  split
  · next hlt => exact ⟨blocks, reduce_rep hr hp (hlevel _) (hside _) (hkey _) hresd hlt⟩
  · obtain ⟨blocks', hr'⟩ := removeFrom_rep hr hp
    exact ⟨blocks', hr'.modify_of_not_mem hr.nodup.not_mem_erase f⟩

theorem reduceLevel_orders (h : Heap Order) (b : BookSide) (k : Int) (p : OrderPtr) (delta : Int) :
    (b.reduceLevel h k p delta).2.orders =
      if delta < (h p).resd then b.orders else b.orders.erase p := by
  unfold reduceLevel
  split <;> rfl

theorem reduceLevel_heap (h : Heap Order) (b : BookSide) (k : Int) (p : OrderPtr) (delta : Int) :
    (b.reduceLevel h k p delta).1 =
      h.modify p (fun o => if delta < o.resd then o else o.setLevel none) := by
  unfold reduceLevel
  split
  · next hlt => exact (Heap.modify_eq_self (by simp [hlt])).symm
  · next hlt => simp [removeFrom_heap, Heap.modify, hlt]

/-! ### The assertions inside the operations -/

/-- When the last order leaves a level, nothing residual is left in it. -/
theorem removeAsserts (hr : Rep sd h b blocks) (hp : p ∈ b.orders) :
    RemoveAsserts h b (h p).key p := by
  intro lv hlv hcount
  obtain ⟨l, s, t, r, rfl⟩ := hr.split hp
  obtain ⟨hmem, hkey⟩ := KeySet.mem_of_find? hlv
  have hlv' : lv = levelOf sd h ((h p).key, s ++ p :: t) := by
    refine KeySet.eq_of_key_eq hmem ?_ hkey
    rw [hr.levels_eq]
    simp
  subst hlv'
  rw [levelOf_subOrder] at hcount ⊢
  have hst : s ++ t = [] := by
    simpa only [levelOf, Int.natCast_eq_zero, List.length_eq_zero_iff] using hcount
  simp [levelOf, hst]

theorem reduceAsserts (hr : Rep sd h b blocks) (hp : p ∈ b.orders) {delta : Int}
    (h0 : 0 ≤ delta) (hle : delta ≤ (h p).resd) : ReduceAsserts h b (h p).key p delta :=
  ⟨h0, hle, fun hlt => ⟨by omega, removeAsserts hr hp⟩⟩

end BookSide

end Swirly
