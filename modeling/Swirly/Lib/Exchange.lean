import Swirly.Lib.Greedy
import Swirly.Lib.Tally
import Mathlib.Tactic.Abel

/-!
# Swirly.Lib.Exchange

**A plain exchange.** Each side of a market is a list of quotes, the best one first. A quote that
comes trades with the quotes of the other side that are within its price, one after the other
(`take`), and what is left of it stands behind those of its own side that are as good (`enter`).
There is nothing else: no order has an address, no price has a level, and no sum is kept. What
is asked for on a side is always either quoted there or traded (`Board.run_total`).

What sides there are, and which prices are good on them, is a parameter (`Sides`). An engine
that keeps its quotes behind references is compared with this one by `take_refs` and
`enter_refs`, which say what the two operations are on the references.
-/

namespace Lib.Exchange

/-- The sides of a market, and which prices a quote on a side is content with. -/
structure Sides (σ P : Type) where
  opposite : σ → σ
  /-- On the side, the first price is as good as the second, or better. -/
  good : σ → P → P → Bool

/-- So much at a price, for whoever the tag names. -/
structure Quote (τ P G : Type) where
  tag : τ
  price : P
  size : G
  deriving DecidableEq

/-- One half of a trade: on which side, for whom, how much and at what price. -/
structure Leg (μ σ τ P G : Type) where
  market : μ
  side : σ
  quote : Quote τ P G
  deriving DecidableEq

/-! ### Lists of quotes -/

section Lists

variable {τ P G ι : Type} [AddCommGroup G] [LinearOrder G]

/-- What comes of taking: the quotes that were traded with, of the size that was taken of each,
the quotes that are left, and what was not found. -/
structure Taken (τ P G : Type) where
  fills : List (Quote τ P G)
  rest : List (Quote τ P G)
  left : G

/-- Take as much as is wanted from the quotes, from the first one on, to the first one that is
out of reach. -/
def take (reach : P → Bool) : G → List (Quote τ P G) → Taken τ P G
  | want, [] => ⟨[], [], want⟩
  | want, q :: qs =>
    if want = 0 ∨ reach q.price = false then ⟨[], q :: qs, want⟩
    else if want < q.size then
      ⟨[{ q with size := want }], { q with size := q.size - want } :: qs, 0⟩
    else
      let t := take reach (want - q.size) qs
      { t with fills := q :: t.fills }

/-- Stand behind the quotes that are as good. -/
def enter (good : P → P → Bool) (q : Quote τ P G) (qs : List (Quote τ P G)) :
    List (Quote τ P G) :=
  qs.takeWhile (fun r => good r.price q.price) ++
    q :: qs.dropWhile (fun r => good r.price q.price)

end Lists

/-! ### The exchange -/

section Exchange

variable {μ σ τ P G : Type} [DecidableEq μ] [DecidableEq σ] [AddCommGroup G] [LinearOrder G]

/-- The quotes of each side of each market, and the trades. -/
structure Board (μ σ τ P G : Type) where
  quotes : μ → σ → List (Quote τ P G)
  tape : List (Leg μ σ τ P G)

/-- No quotes, and no trades. -/
def Board.init : Board μ σ τ P G := ⟨fun _ _ => [], []⟩

/-- The two halves of the trades with a quote: each is at the price that was quoted first. -/
def legs (S : Sides σ P) (m : μ) (sd : σ) (tag : τ) (fills : List (Quote τ P G)) :
    List (Leg μ σ τ P G) :=
  fills.flatMap (fun f => [⟨m, S.opposite sd, f⟩, ⟨m, sd, { f with tag }⟩])

/-- What a quote that comes takes of the other side. -/
def Board.taken (S : Sides σ P) (x : Board μ σ τ P G) (l : Leg μ σ τ P G) : Taken τ P G :=
  take (fun p => S.good (S.opposite l.side) p l.quote.price) l.quote.size
    (x.quotes l.market (S.opposite l.side))

/-- A quote comes. -/
def Board.place (S : Sides σ P) (x : Board μ σ τ P G) (l : Leg μ σ τ P G) : Board μ σ τ P G :=
  { quotes := fun m sd =>
      if m ≠ l.market then x.quotes m sd
      else if sd = S.opposite l.side then (x.taken S l).rest
      else if sd = l.side ∧ (x.taken S l).left ≠ 0 then
        enter (S.good sd) { l.quote with size := (x.taken S l).left } (x.quotes m sd)
      else x.quotes m sd
    tape := x.tape ++ legs S l.market l.side l.quote.tag (x.taken S l).fills }

section Place

variable {S : Sides σ P} {x : Board μ σ τ P G} {l : Leg μ σ τ P G} {m : μ} {sd : σ}

theorem Board.place_other (h : m ≠ l.market) : (x.place S l).quotes m sd = x.quotes m sd :=
  if_pos h

theorem Board.place_opposite :
    (x.place S l).quotes l.market (S.opposite l.side) = (x.taken S l).rest :=
  (if_neg (not_not.mpr rfl)).trans (if_pos rfl)

theorem Board.place_own (hne : S.opposite l.side ≠ l.side) (hleft : (x.taken S l).left ≠ 0) :
    (x.place S l).quotes l.market l.side =
      enter (S.good l.side) { l.quote with size := (x.taken S l).left }
        (x.quotes l.market l.side) :=
  (if_neg (not_not.mpr rfl)).trans ((if_neg hne.symm).trans (if_pos ⟨rfl, hleft⟩))

theorem Board.place_done (hopp : sd ≠ S.opposite l.side)
    (h : sd = l.side → (x.taken S l).left = 0) :
    (x.place S l).quotes l.market sd = x.quotes l.market sd :=
  (if_neg (not_not.mpr rfl)).trans ((if_neg hopp).trans (if_neg (fun h' => h'.2 (h h'.1))))

end Place

/-- Quotes come one after the other. -/
def Board.run (S : Sides σ P) (x : Board μ σ τ P G) (ls : List (Leg μ σ τ P G)) :
    Board μ σ τ P G := ls.foldl (Board.place S) x

theorem Board.run_append (S : Sides σ P) (x : Board μ σ τ P G) (ls ls' : List (Leg μ σ τ P G)) :
    x.run S (ls ++ ls') = (x.run S ls).run S ls' := List.foldl_append

end Exchange

/-! ### What is asked for is quoted or traded -/

section Total

variable {μ σ τ P G : Type} [DecidableEq μ] [DecidableEq σ] [AddCommGroup G] [LinearOrder G]
  {S : Sides σ P} {x : Board μ σ τ P G} {m : μ} {sd : σ}

/-- The sum of the sizes. -/
def sizes (qs : List (Quote τ P G)) : G := (qs.map Quote.size).sum

omit [LinearOrder G] in
@[simp] theorem sizes_nil : sizes ([] : List (Quote τ P G)) = 0 := rfl

omit [LinearOrder G] in
@[simp] theorem sizes_cons (q : Quote τ P G) (qs : List (Quote τ P G)) :
    sizes (q :: qs) = q.size + sizes qs := by
  simp [sizes]

theorem take_sizes (reach : P → Bool) (want : G) (qs : List (Quote τ P G)) :
    sizes (take reach want qs).fills + sizes (take reach want qs).rest = sizes qs ∧
      sizes (take reach want qs).fills + (take reach want qs).left = want := by
  induction qs generalizing want with
  | nil => exact ⟨add_zero 0, zero_add want⟩
  | cons q qs ih =>
      rw [take]
      split
      · exact ⟨zero_add _, zero_add want⟩
      · split
        · simp only [sizes_cons, sizes_nil, add_zero]
          exact ⟨by abel, trivial⟩
        · obtain ⟨hrest, hleft⟩ := ih (want - q.size)
          simp only [sizes_cons]
          rw [add_assoc, hrest, add_assoc, hleft]
          exact ⟨rfl, add_sub_cancel _ _⟩

omit [LinearOrder G] in
theorem enter_sizes (good : P → P → Bool) (q : Quote τ P G) (qs : List (Quote τ P G)) :
    sizes (enter good q qs) = q.size + sizes qs := by
  have hsplit := congrArg sizes
    (List.takeWhile_append_dropWhile (p := fun r => good r.price q.price) (l := qs))
  unfold enter sizes at *
  rw [List.map_append, List.sum_append] at *
  rw [List.map_cons, List.sum_cons, ← hsplit]
  abel

/-- The half of a trade is on this side of this market. -/
abbrev Leg.On (m : μ) (sd : σ) (l : Leg μ σ τ P G) : Prop := l.market = m ∧ l.side = sd

/-- What is traded of a side, or asked for on it. -/
def legSizes (m : μ) (sd : σ) (ls : List (Leg μ σ τ P G)) : G :=
  tally (fun l => l.On m sd) (fun l => l.quote.size) ls

omit [LinearOrder G] in
theorem legSizes_legs (m' : μ) (sd' : σ) (tag : τ) (fills : List (Quote τ P G)) :
    legSizes m sd (legs S m' sd' tag fills) =
      (if m' = m ∧ S.opposite sd' = sd then sizes fills else 0) +
        if m' = m ∧ sd' = sd then sizes fills else 0 := by
  unfold legSizes legs
  induction fills with
  | nil => simp
  | cons f fills ih =>
      rw [List.flatMap_cons, tally_append, ih]
      simp only [tally_cons, tally_nil, sizes_cons]
      split <;> split <;> abel

/-- What is quoted on a side, and what has been traded of it. -/
def Board.total (x : Board μ σ τ P G) (m : μ) (sd : σ) : G :=
  sizes (x.quotes m sd) + legSizes m sd x.tape

/-- A quote adds its size to its side. -/
theorem Board.place_total (hne : ∀ sd, S.opposite sd ≠ sd) (l : Leg μ σ τ P G) :
    (x.place S l).total m sd = x.total m sd + if l.On m sd then l.quote.size else 0 := by
  obtain ⟨hrest, hleft⟩ : sizes (x.taken S l).fills + sizes (x.taken S l).rest =
      sizes (x.quotes l.market (S.opposite l.side)) ∧
      sizes (x.taken S l).fills + (x.taken S l).left = l.quote.size := take_sizes _ _ _
  have htape : legSizes m sd (x.place S l).tape = legSizes m sd x.tape +
      legSizes m sd (legs S l.market l.side l.quote.tag (x.taken S l).fills) := tally_append
  unfold total
  rw [htape, legSizes_legs]
  by_cases hm : l.market = m
  · subst hm
    by_cases hopp : sd = S.opposite l.side
    · -- What is taken of the other side has been traded.
      subst hopp
      have hoff : ¬ l.On l.market (S.opposite l.side) := fun h => hne l.side h.2.symm
      have hoff' : ¬ (l.market = l.market ∧ l.side = S.opposite l.side) := hoff
      rw [place_opposite, if_pos ⟨rfl, rfl⟩, if_neg hoff, if_neg hoff', ← hrest]
      abel
    · have hfar : ¬ (l.market = l.market ∧ S.opposite l.side = sd) := fun h => hopp h.2.symm
      rw [if_neg hfar]
      by_cases hside : l.side = sd
      · -- What is not taken is entered.
        subst hside
        have hon : l.On l.market l.side := ⟨rfl, rfl⟩
        have hon' : l.market = l.market ∧ l.side = l.side := hon
        rw [if_pos hon, if_pos hon', ← hleft]
        by_cases hzero : (x.taken S l).left = 0
        · rw [place_done hopp (fun _ => hzero), hzero]
          abel
        · rw [place_own (hne l.side) hzero, enter_sizes]
          abel
      · have hoff : ¬ l.On l.market sd := fun h => hside h.2
        have hoff' : ¬ (l.market = l.market ∧ l.side = sd) := hoff
        rw [place_done hopp (fun h => absurd h.symm hside), if_neg hoff, if_neg hoff']
        abel
  · have hoff : ¬ l.On m sd := fun h => hm h.1
    rw [place_other (Ne.symm hm), if_neg (fun h => hm h.1), if_neg (fun h => hm h.1), if_neg hoff]
    abel

/-- **What is asked for on a side is quoted there or has been traded.** -/
theorem Board.run_total (hne : ∀ sd, S.opposite sd ≠ sd) (ls : List (Leg μ σ τ P G)) :
    (x.run S ls).total m sd = x.total m sd + legSizes m sd ls := by
  induction ls generalizing x with
  | nil => simp [Board.run, legSizes]
  | cons l ls ih =>
      have hrun : x.run S (l :: ls) = (x.place S l).run S ls := rfl
      rw [hrun, ih, place_total hne]
      simp only [legSizes, tally_cons]
      abel

end Total

/-! ### Quotes behind references -/

section Refs

variable {τ P G ι : Type} [AddCommGroup G] [LinearOrder G] {quote : ι → Quote τ P G}
  {reach : P → Bool} {want : G} {refs : List ι}

/-- The references that are filled, with what is taken of each. -/
def fillRefs (quote : ι → Quote τ P G) (reach : P → Bool) (want : G) (refs : List ι) :
    List (ι × G) :=
  Greedy.fill (fun i => (quote i).size) want (refs.takeWhile (fun i => reach (quote i).price))

theorem fillRefs_zero : fillRefs quote reach 0 refs = [] := Greedy.fill_zero

theorem fillRefs_stop {i : ι} (h : want = 0 ∨ reach (quote i).price = false) :
    fillRefs quote reach want (i :: refs) = [] := by
  rcases h with rfl | h
  · exact fillRefs_zero
  · unfold fillRefs
    rw [List.takeWhile_cons_of_neg (by simp [h])]
    rfl

theorem fillRefs_go {i : ι} (h : ¬ (want = 0 ∨ reach (quote i).price = false)) :
    fillRefs quote reach want (i :: refs) = (i, min want (quote i).size) ::
      fillRefs quote reach (want - min want (quote i).size) refs := by
  obtain ⟨hwant, hreach⟩ := not_or.mp h
  unfold fillRefs
  rw [List.takeWhile_cons_of_pos (by simpa using hreach), Greedy.fill_cons hwant]

/-- What is taken of the quotes is what is taken of the references. -/
theorem take_fills :
    (take reach want (refs.map quote)).fills =
      (fillRefs quote reach want refs).map (fun f => { quote f.1 with size := f.2 }) ∧
    (take reach want (refs.map quote)).left =
      want - ((fillRefs quote reach want refs).map Prod.snd).sum := by
  induction refs generalizing want with
  | nil => exact ⟨rfl, (sub_zero want).symm⟩
  | cons i refs ih =>
      rw [List.map_cons, take]
      by_cases hstop : want = 0 ∨ reach (quote i).price = false
      · rw [if_pos hstop, fillRefs_stop hstop]
        exact ⟨rfl, (sub_zero want).symm⟩
      · rw [if_neg hstop, fillRefs_go hstop]
        by_cases hlt : want < (quote i).size
        · rw [if_pos hlt, min_eq_left hlt.le, sub_self, fillRefs_zero]
          exact ⟨rfl, by simp⟩
        · obtain ⟨hfills, hleft⟩ := @ih (want - (quote i).size)
          rw [if_neg hlt, min_eq_right (not_lt.mp hlt)]
          refine ⟨congrArg (quote i :: ·) hfills, hleft.trans ?_⟩
          rw [List.map_cons, List.sum_cons, sub_sub]

/-- Where nothing is taken, the quotes are all left. -/
theorem map_quote_of_left {left : ι → G} (hleft : ∀ i ∈ refs, left i = (quote i).size)
    (hpos : ∀ i ∈ refs, 0 < (quote i).size) : refs.map quote =
      (refs.filter (fun i => 0 < left i)).map (fun i => { quote i with size := left i }) := by
  rw [List.filter_eq_self.mpr (fun i hi => by simpa [hleft i hi] using hpos i hi)]
  exact List.map_congr_left (fun i hi => by rw [hleft i hi])

/-- **What is left of the quotes** is left behind the references that have something left, if
`left` is what is left behind each. -/
theorem take_rest [IsOrderedAddMonoid G] {left : ι → G} (hnodup : refs.Nodup)
    (hpos : ∀ i ∈ refs, 0 < (quote i).size)
    (hfilled : ∀ f ∈ fillRefs quote reach want refs, left f.1 = (quote f.1).size - f.2)
    (hsame : ∀ i ∈ refs, i ∉ (fillRefs quote reach want refs).map Prod.fst →
      left i = (quote i).size) :
    (take reach want (refs.map quote)).rest =
      (refs.filter (fun i => 0 < left i)).map (fun i => { quote i with size := left i }) := by
  induction refs generalizing want with
  | nil => rfl
  | cons i refs ih =>
      obtain ⟨hi, hnodup⟩ := List.nodup_cons.mp hnodup
      have hposTail : ∀ j ∈ refs, 0 < (quote j).size :=
        fun j hj => hpos j (List.mem_cons_of_mem i hj)
      by_cases hstop : want = 0 ∨ reach (quote i).price = false
      · rw [List.map_cons, take, if_pos hstop, ← List.map_cons]
        rw [fillRefs_stop hstop] at hsame
        exact map_quote_of_left (fun j hj => hsame j hj List.not_mem_nil) hpos
      · rw [fillRefs_go hstop] at hfilled hsame
        rw [List.map_cons, take, if_neg hstop]
        -- The fills of the others are not of the first one.
        have hother : ∀ j ∈ refs, j ≠ i := fun j hj heq => hi (heq ▸ hj)
        have hsameTail : ∀ j ∈ refs,
            j ∉ (fillRefs quote reach (want - min want (quote i).size) refs).map Prod.fst →
            left j = (quote j).size := by
          intro j hj hnot
          refine hsame j (List.mem_cons_of_mem i hj) (fun hmem => ?_)
          rcases List.mem_cons.mp hmem with heq | hmem
          · exact hother j hj heq
          · exact hnot hmem
        have hlefti : left i = (quote i).size - min want (quote i).size :=
          hfilled _ List.mem_cons_self
        by_cases hlt : want < (quote i).size
        · rw [min_eq_left hlt.le] at hlefti hsameTail
          rw [sub_self, fillRefs_zero] at hsameTail
          have hkeep : 0 < left i := by
            rw [hlefti]
            exact sub_pos.mpr hlt
          rw [if_pos hlt, List.filter_cons_of_pos (by simpa using hkeep), List.map_cons, ← hlefti]
          exact congrArg _
            (map_quote_of_left (fun j hj => hsameTail j hj List.not_mem_nil) hposTail)
        · rw [min_eq_right (not_lt.mp hlt)] at hlefti hsameTail hfilled
          have hgone : ¬ 0 < left i := by
            rw [hlefti, sub_self]
            exact lt_irrefl 0
          rw [if_neg hlt, List.filter_cons_of_neg (by simpa using hgone)]
          exact ih hnodup hposTail (fun f hf => hfilled f (List.mem_cons_of_mem _ hf)) hsameTail

end Refs

section Order

variable {τ P G ι : Type} {quote : ι → Quote τ P G} {before : ι → ι → Prop} {refs refs' : List ι}

/-- Two lists of the same members in a strict order are one list. -/
theorem eq_of_ordered (hasymm : ∀ i j, before i j → ¬ before j i) (hrefs : refs.Pairwise before)
    (hrefs' : refs'.Pairwise before) (hmem : ∀ i, i ∈ refs ↔ i ∈ refs') : refs = refs' := by
  have hnodup : ∀ {l : List ι}, l.Pairwise before → l.Nodup := by
    intro l hl
    refine hl.imp (fun {i j} hij heq => ?_)
    subst heq
    exact hasymm i i hij hij
  have hperm := (List.perm_ext_iff_of_nodup (hnodup hrefs) (hnodup hrefs')).mpr hmem
  exact hperm.eq_of_pairwise (fun i j _ _ hij hji => absurd hji (hasymm i j hij)) hrefs hrefs'

/-- A newcomer stands between those that come before it and those that do not. -/
theorem eq_takeWhile_append (hasymm : ∀ i j, before i j → ¬ before j i)
    (htrans : ∀ i j k, before i j → before j k → before i k) {p : ι → Bool} {new : ι}
    (hrefs : refs.Pairwise before) (hrefs' : refs'.Pairwise before)
    (hmem : ∀ i, i ∈ refs' ↔ i ∈ refs ∨ i = new)
    (hp : ∀ i ∈ refs, if p i then before i new else before new i) :
    refs' = refs.takeWhile p ++ new :: refs.dropWhile p := by
  have hall := List.takeWhile_append_dropWhile (p := p) (l := refs)
  have hhead := List.head?_dropWhile_not p refs
  have hfront : ∀ i ∈ refs.takeWhile p, p i = true := List.all_eq_true.mp List.all_takeWhile
  generalize refs.takeWhile p = front, refs.dropWhile p = back at *
  subst hall
  obtain ⟨hordered, hback, hcross⟩ := List.pairwise_append.mp hrefs
  refine eq_of_ordered hasymm hrefs' ?_ (fun i => ?_)
  · refine List.pairwise_append.mpr ⟨hordered, List.pairwise_cons.mpr ⟨?_, hback⟩, ?_⟩
    · cases back with
      | nil => simp
      | cons j back =>
          have hj := hp j (List.mem_append_right _ List.mem_cons_self)
          rw [if_neg (by simpa using hhead)] at hj
          intro i hi
          rcases List.mem_cons.mp hi with rfl | hi
          · exact hj
          · exact htrans _ _ _ hj ((List.pairwise_cons.mp hback).1 i hi)
    · intro i hi j hj
      rcases List.mem_cons.mp hj with rfl | hj
      · have hi' := hp i (List.mem_append_left _ hi)
        rwa [if_pos (hfront i hi)] at hi'
      · exact hcross i hi j hj
  · rw [hmem i]
    simp only [List.mem_append, List.mem_cons]
    tauto

/-- **A reference that joins a list in order** stands behind those that come before it. -/
theorem enter_refs (hasymm : ∀ i j, before i j → ¬ before j i)
    (htrans : ∀ i j k, before i j → before j k → before i k) {good : P → P → Bool} {new : ι}
    (hrefs : refs.Pairwise before) (hrefs' : refs'.Pairwise before)
    (hmem : ∀ i, i ∈ refs' ↔ i ∈ refs ∨ i = new)
    (hgood : ∀ i ∈ refs, if good (quote i).price (quote new).price then before i new
      else before new i) :
    refs'.map quote = enter good (quote new) (refs.map quote) := by
  rw [eq_takeWhile_append hasymm htrans hrefs hrefs' hmem hgood, List.map_append, List.map_cons]
  unfold enter
  rw [List.takeWhile_map, List.dropWhile_map]
  rfl

end Order

end Lib.Exchange
