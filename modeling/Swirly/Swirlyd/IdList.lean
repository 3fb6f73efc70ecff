import Swirly.Fir.ParseComplete
import Swirly.Swirlyd.Connection

/-!
# Swirly.Swirlyd.IdList

**The ids of a URI.** The last piece of a URI for orders or trades has ids with commas between
them. `parseIds` gives back the ids that are written there (`parseIds_idsText`), but a piece
without a byte has none.

The handlers look whether there is a piece, and not whether there is an id in it. Each `Reads`
rule says of a handler when it makes a call with an id list that is empty; put together they
leave one shape of URI (`reads_ids_iff`).
-/

namespace Swirly

open Lib.Effect (wp wp_bind wp_get wp_modify wp_pure wp_throw wp_mono)

/-! ### Ids as text -/

/-- The digits are read modulo the width of the register. -/
theorem foldl_digits_mod (ds : List Byte) (init : Nat) :
    ds.foldl (fun l b => (l * 10 + digit b) % 2 ^ 64) (init % 2 ^ 64) =
      ds.foldl (fun n b => n * 10 + digit b) init % 2 ^ 64 := by
  induction ds generalizing init with
  | nil => rfl
  | cons b ds ih =>
      have hmod : (init % 2 ^ 64 * 10 + digit b) % 2 ^ 64 = (init * 10 + digit b) % 2 ^ 64 := by
        omega
      rw [List.foldl_cons, List.foldl_cons, hmod, ih]

/-- `stou64` reads what an output stream writes, modulo the width of the register. -/
theorem stou64_natText (n : Nat) : stou64 (natText n) = n % 2 ^ 64 := by
  have hspace : (natText n).dropWhile isSpace = natText n := by
    refine List.dropWhile_eq_self_iff.mpr (fun hpos hspace => ?_)
    have hdigit := natText_isDigit n _ (List.getElem_mem hpos)
    rw [isDigit_of_isSpace _ hspace] at hdigit
    cases hdigit
  have hdigits : (natText n).takeWhile isDigit = natText n :=
    List.takeWhile_eq_self_iff.mpr (natText_isDigit n)
  have hdecimal := decimal_natText n
  unfold stou64
  rw [hspace, hdigits, ← Nat.zero_mod (2 ^ 64), foldl_digits_mod]
  exact congrArg (· % 2 ^ 64) hdecimal

theorem comma_not_mem_natText (n : Nat) : Ascii.comma ∉ natText n :=
  fun h => absurd (natText_isDigit n _ h) (by decide)

/-- Ids in decimal, with commas between them. -/
def idsText (ids : List Int) : List Byte := [Ascii.comma].intercalate (ids.map intText)

namespace RestServ

/-- The ids of a piece. -/
def idsOf (sv : List Byte) : List Int :=
  (Tokeniser.mk sv : Tokeniser Ascii.comma).tokens.map (fun tok => (stou64 tok : Int).bmod (2 ^ 64))

theorem parseIds_eq (sv : List Byte) (s : RestServ) :
    parseIds sv s = .ok () { s with ids := idsOf sv } := rfl

/-- An id of 63 bits is read as it is written. -/
theorem stou64_intText {n : Int} (h : 0 ≤ n ∧ n < 2 ^ 63) :
    (stou64 (intText n) : Int).bmod (2 ^ 64) = n := by
  have hmod : n.toNat % 2 ^ 64 = n.toNat := Nat.mod_eq_of_lt (by omega)
  rw [intText_of_nonneg h.1, stou64_natText, hmod, Int.toNat_of_nonneg h.1]
  exact Int.bmod_eq_of_le (by omega) (by omega)

/-- Ids are read one by one. -/
theorem map_stou64_intText {ids : List Int} (h : ∀ n ∈ ids, 0 ≤ n ∧ n < 2 ^ 63) :
    (ids.map intText).map (fun tok => (stou64 tok : Int).bmod (2 ^ 64)) = ids := by
  induction ids with
  | nil => rfl
  | cons n ids ih =>
      obtain ⟨hn, hids⟩ := List.forall_mem_cons.mp h
      rw [List.map_cons, List.map_cons, stou64_intText hn, ih hids]

/-- **Id lists decode to what was encoded.** -/
theorem parseIds_idsText (ids : List Int) (h : ∀ n ∈ ids, 0 ≤ n ∧ n < 2 ^ 63) (s : RestServ) :
    parseIds (idsText ids) s = .ok () { s with ids } ∧
    (ids ≠ [] → parseIds (idsText ids ++ [Ascii.comma]) s = .ok () { s with ids }) := by
  have hpieces : ∀ piece ∈ ids.map intText, Ascii.comma ∉ piece ∧ piece ≠ [] := by
    intro piece hpiece
    obtain ⟨n, hn, rfl⟩ := List.mem_map.mp hpiece
    rw [intText_of_nonneg (h n hn).1]
    exact ⟨comma_not_mem_natText _, natText_ne_nil _⟩
  obtain ⟨hplain, htrailing⟩ := Tokeniser.tokens_intercalate hpieces
  refine ⟨?_, fun hne => ?_⟩
  · rw [parseIds_eq, idsOf, idsText, hplain, map_stou64_intText h]
  · rw [parseIds_eq, idsOf, idsText, htrailing (by simpa using hne), map_stou64_intText h]

/-- Ids are told apart. -/
theorem idsText_decoded : parseIds (idsText [0, 7, 9223372036854775807] ++ [Ascii.comma])
    Conn.Mock.serv = .ok () { Conn.Mock.serv with ids := [0, 7, 9223372036854775807] } :=
  (parseIds_idsText [0, 7, 9223372036854775807] (by decide) Conn.Mock.serv).2 (by decide)

theorem idsOf_eq_nil_iff (sv : List Byte) : idsOf sv = [] ↔ sv = [] := by
  unfold idsOf
  rw [List.map_eq_nil_iff, Tokeniser.tokens_eq]
  cases sv with
  | nil => simp [Tokeniser.empty]
  | cons b sv => simp [Tokeniser.empty]

end RestServ

/-! ### Empty lists -/

/-- The ids that a method is called with; the first of them alone for `getOrder` and
`getTrade`. -/
def RestMethod.ids : RestMethod → Option (List Int)
  | getOrder _ id => some id.toList
  | putOrder _ ids => some ids
  | deleteOrder _ ids => some ids
  | getTrade _ id => some id.toList
  | deleteTrade _ ids => some ids
  | _ => none

namespace RestServ

variable {rest : Rest} {data : HttpMessage} {now : Int} {x y : Handler Unit}
  {method : RestMethod} {p q : RestServ → Prop} {s s' : RestServ}
  {actions : HttpMethod → Option (Handler Unit)} {sub : List Byte → Handler Unit}

/-- A call was made with a list of ids that has none. -/
def EmptyIds (s s' : RestServ) : Prop :=
  ∃ c ∈ s'.calls.drop s.calls.length, c.method.ids = some []

/-- A handler makes such a call, whether it returns or throws, exactly from the states `p`. -/
def Reads (x : Handler Unit) (p : RestServ → Prop) : Prop :=
  ∀ s, wp x (fun _ s' => EmptyIds s s' ↔ p s) (fun _ s' => EmptyIds s s' ↔ p s) s

/-- A handler that makes no such call. -/
abbrev Quiet (x : Handler Unit) : Prop := Reads x (fun _ => False)

theorem not_emptyIds (h : s'.calls = s.calls) : ¬ EmptyIds s s' := by
  simp [EmptyIds, h]

/-- A change of what a handler keeps for itself. -/
theorem Reads.after (h : Reads x p) (s s₁ : RestServ) (hcalls : s₁.calls = s.calls) :
    wp x (fun _ s' => EmptyIds s s' ↔ p s₁) (fun _ s' => EmptyIds s s' ↔ p s₁) s₁ := by
  have hiff : ∀ s', EmptyIds s s' ↔ EmptyIds s₁ s' := fun s' => by simp [EmptyIds, hcalls]
  simp only [hiff]
  exact h s₁

theorem quiet_pure : Quiet (pure ()) := fun _ => iff_false_intro (not_emptyIds rfl)

theorem quiet_ite {c : Prop} [Decidable c] (hx : Quiet x) (hy : Quiet y) :
    Quiet (if c then x else y) := by
  split
  · exact hx
  · exact hy

theorem emptyIds_call (written : List Byte) : EmptyIds s { s with
    calls := s.calls ++ [⟨method, now⟩], out := s.out.write written } ↔ method.ids = some [] := by
  simp [EmptyIds]

theorem reads_call : Reads (call rest now method) (fun _ => method.ids = some []) := by
  intro s
  simp only [wp, call]
  rcases rest s.calls ⟨method, now⟩ with ⟨written, _ | e⟩
  · exact emptyIds_call written
  · exact emptyIds_call written

theorem quiet_call (h : method.ids = none) : Quiet (call rest now method) := by
  intro s
  have hcall : Reads (call rest now method) (fun _ => method.ids = some []) := reads_call
  simpa [h] using hcall s

/-- A call with the ids of the URI. -/
theorem reads_ids {f : List Int → RestMethod} (h : ∀ ids, (f ids).ids = some [] ↔ ids = []) :
    Reads (do call rest now (f (← get).ids)) (fun s => s.ids = []) := by
  intro s
  have hcall : Reads (call rest now (f s.ids)) (fun _ => (f s.ids).ids = some []) := reads_call
  simp only [wp_bind, wp_get]
  simpa only [h] using hcall s

/-! ### Routes -/

/-- Where a URI may end: `P` says for which methods, with which ids, such a call is made. -/
theorem reads_endpoint {P : HttpMethod → List Int → Prop}
    (hsome : ∀ verb x, actions verb = some x → Reads x (fun s => P verb s.ids))
    (hnone : ∀ verb ids, actions verb = none → ¬ P verb ids) :
    Reads (endpoint actions) (fun s => ∃ verb, s.method = some verb ∧ P verb s.ids) := by
  intro s
  unfold endpoint
  simp only [wp_bind, wp_modify, wp_get]
  cases hmethod : s.method with
  | none => simp [not_emptyIds]
  | some verb =>
      cases haction : actions verb with
      | none => simp [haction, hnone verb s.ids haction, not_emptyIds]
      | some x =>
          simp only [Option.bind_some, haction, wp_bind, wp_modify, Option.some.injEq,
            exists_eq_left']
          exact (hsome verb x haction).after _ _ rfl

theorem reads_leaf {P : HttpMethod → List Int → Prop}
    (hsome : ∀ verb x, actions verb = some x → Reads x (fun s => P verb s.ids))
    (hnone : ∀ verb ids, actions verb = none → ¬ P verb ids) :
    Reads (leaf actions)
      (fun s => s.uri.empty = true ∧ ∃ verb, s.method = some verb ∧ P verb s.ids) := by
  intro s
  unfold leaf
  simp only [wp_bind, wp_get]
  split
  · next hempty => simpa [hempty] using reads_endpoint hsome hnone s
  · next hempty => simp [hempty, not_emptyIds]

theorem quiet_endpoint (h : ∀ verb x, actions verb = some x → Quiet x) :
    Quiet (endpoint actions) := by
  intro s
  simpa using reads_endpoint (P := fun _ _ => False) h (fun _ _ _ => id) s

theorem quiet_leaf (h : ∀ verb x, actions verb = some x → Quiet x) : Quiet (leaf actions) := by
  intro s
  simpa using reads_leaf (P := fun _ _ => False) h (fun _ _ _ => id) s

/-- Where a URI may go on; where it ends, no ids are there. -/
theorem reads_node {q : List Byte → RestServ → Prop}
    (h : ∀ verb x, actions verb = some x → Quiet x) (hsub : ∀ tok, Reads (sub tok) (q tok)) :
    Reads (node actions sub)
      (fun s => s.uri.empty = false ∧ q s.uri.top { s with uri := s.uri.pop }) := by
  intro s
  unfold node
  simp only [wp_bind, wp_get]
  split
  · next hempty => simpa [hempty] using quiet_endpoint h s
  · next hempty =>
      simp only [wp_bind, wp_modify]
      have hafter := (hsub s.uri.top).after s { s with uri := s.uri.pop } rfl
      simpa [hempty] using hafter

theorem quiet_node (h : ∀ verb x, actions verb = some x → Quiet x)
    (hsub : ∀ tok, Quiet (sub tok)) : Quiet (node actions sub) := by
  intro s
  simpa using reads_node h hsub s

theorem quiet_onGet (h : Quiet x) : ∀ verb y, onGet x verb = some y → Quiet y := by
  intro verb y hy
  cases verb with
  | get =>
      cases hy
      exact h
  | post => cases hy
  | put => cases hy
  | delete => cases hy

/-! ### The handlers -/

theorem Reads.congr (h : Reads x p) (hiff : ∀ s, p s ↔ q s) : Reads x q := by
  intro s
  simpa only [hiff] using h s

theorem quiet_get {f : RestServ → Handler Unit} (h : ∀ s, Quiet (f s)) :
    Quiet (do f (← get)) := by
  intro s
  simp only [wp_bind, wp_get]
  exact h s s

theorem quiet_checkFields {required optional : Finset ReqField} (h : Quiet x) :
    Quiet (do checkFields required optional; x) := by
  intro s
  unfold checkFields
  simp only [wp_bind, wp_get]
  split
  · exact h s
  · exact iff_false_intro (not_emptyIds rfl)

theorem quiet_getPost {verb : HttpMethod} {z : Handler Unit} (hget : Quiet x) (hpost : Quiet y)
    (h : (match verb with | .get => some x | .post => some y | _ => none) = some z) :
    Quiet z := by
  cases verb with
  | get =>
      cases h
      exact hget
  | post =>
      cases h
      exact hpost
  | put => cases h
  | delete => cases h

theorem quiet_getPut {verb : HttpMethod} {z : Handler Unit} (hget : Quiet x) (hput : Quiet y)
    (h : (match verb with | .get => some x | .put => some y | _ => none) = some z) :
    Quiet z := by
  cases verb with
  | get =>
      cases h
      exact hget
  | post => cases h
  | put =>
      cases h
      exact hput
  | delete => cases h

theorem assetRequest_quiet : Quiet (assetRequest rest now) :=
  quiet_node (quiet_onGet (quiet_call rfl)) (fun _ => quiet_leaf (quiet_onGet (quiet_call rfl)))

theorem contrRequest_quiet : Quiet (contrRequest rest now) :=
  quiet_node (quiet_onGet (quiet_call rfl)) (fun _ => quiet_leaf (quiet_onGet (quiet_call rfl)))

theorem postMarket_quiet : Quiet (postMarket rest now) :=
  quiet_checkFields (quiet_get (fun _ => quiet_call rfl))

theorem putMarket_quiet (mnem : List Byte) : Quiet (putMarket rest now mnem) :=
  quiet_checkFields (quiet_get (fun _ => quiet_call rfl))

theorem marketRequest_quiet : Quiet (marketRequest rest now) := by
  refine quiet_node (fun verb x h => ?_) (fun mnem => quiet_leaf (fun verb x h => ?_))
  · exact quiet_getPost (quiet_call rfl) postMarket_quiet h
  · exact quiet_getPut (quiet_call rfl) (putMarket_quiet mnem) h

theorem postTrader_quiet : Quiet (postTrader rest now) :=
  quiet_checkFields (quiet_get (fun _ => quiet_call rfl))

theorem putTrader_quiet (mnem : List Byte) : Quiet (putTrader rest now mnem) := by
  intro s
  unfold putTrader checkRequired
  simp only [wp_bind, wp_get]
  split
  · exact quiet_call rfl s
  · exact iff_false_intro (not_emptyIds rfl)

theorem traderRequest_quiet : Quiet (traderRequest rest now) := by
  refine quiet_node (fun verb x h => ?_) (fun mnem => quiet_leaf (fun verb x h => ?_))
  · exact quiet_getPost (quiet_call rfl) postTrader_quiet h
  · exact quiet_getPut (quiet_call rfl) (putTrader_quiet mnem) h

/-- A piece that names entities. -/
theorem reads_parseEntities {f : EntitySet → Handler Unit} {q : EntitySet → RestServ → Prop}
    (h : ∀ es, Reads (f es) (q es)) (tok : List Byte) :
    Reads (do f (← parseEntities tok)) (fun s => ∃ es, EntitySet.parse tok = .ok es ∧ q es s) := by
  intro s
  unfold parseEntities
  simp only [wp_bind]
  cases hparse : EntitySet.parse tok with
  | ok es => simpa using h es s
  | error e => simp [not_emptyIds]

theorem recRequest_quiet : Quiet (recRequest rest now) := by
  refine quiet_node (quiet_onGet (quiet_call rfl)) (fun tok => ?_)
  have hsub : ∀ es : EntitySet, Quiet (if es.many then leaf (onGet (call rest now (.getRec es)))
      else if es = {.asset} then assetRequest rest now
      else if es = {.contr} then contrRequest rest now
      else if es = {.market} then marketRequest rest now
      else if es = {.trader} then traderRequest rest now
      else pure ()) := fun es =>
    quiet_ite (quiet_leaf (quiet_onGet (quiet_call rfl))) (quiet_ite assetRequest_quiet
      (quiet_ite contrRequest_quiet (quiet_ite marketRequest_quiet
        (quiet_ite traderRequest_quiet quiet_pure))))
  exact (reads_parseEntities hsub tok).congr (by simp)

theorem postOrder_quiet (market : List Byte) : Quiet (postOrder rest data now market) := by
  intro s
  unfold postOrder
  simp only [wp_bind, wp_get]
  split
  · exact iff_false_intro (not_emptyIds rfl)
  · exact quiet_checkFields (quiet_get (fun _ => quiet_call rfl)) s

/-- **Where the ids of a URI stand**: the last piece is looked at, and not what is in it. -/
theorem reads_parseIds {verbs : List HttpMethod} (tok : List Byte)
    (hsome : ∀ verb x, actions verb = some x → verb ∈ verbs ∧ Reads x (fun s => s.ids = []))
    (hnone : ∀ verb, actions verb = none → verb ∉ verbs) :
    Reads (do parseIds tok; leaf actions) (fun s =>
      tok = [] ∧ s.uri.empty = true ∧ ∃ verb ∈ verbs, s.method = some verb) := by
  intro s
  unfold parseIds
  simp only [wp_bind, wp_modify]
  have hleaf : Reads (leaf actions) (fun s => s.uri.empty = true ∧
      ∃ verb, s.method = some verb ∧ verb ∈ verbs ∧ s.ids = []) := by
    refine reads_leaf (P := fun verb ids => verb ∈ verbs ∧ ids = []) (fun verb x h => ?_)
      (fun verb ids h hmem => hnone verb h hmem.1)
    obtain ⟨hmem, hx⟩ := hsome verb x h
    exact hx.congr (fun s => by simp [hmem])
  have hiff : (tok = [] ∧ s.uri.empty = true ∧ ∃ verb ∈ verbs, s.method = some verb) ↔
      s.uri.empty = true ∧ ∃ verb, s.method = some verb ∧ verb ∈ verbs ∧ idsOf tok = [] := by
    rw [idsOf_eq_nil_iff]
    grind
  simp only [hiff]
  exact hleaf.after s { s with ids := idsOf tok } rfl

/-- The URI has a market and a piece for ids after it. -/
theorem reads_market {verbs : List HttpMethod}
    {onMarket onIds : List Byte → HttpMethod → Option (Handler Unit)}
    (h : ∀ verb x, actions verb = some x → Quiet x)
    (hmarket : ∀ market verb x, onMarket market verb = some x → Quiet x)
    (hsome : ∀ market verb x, onIds market verb = some x →
      verb ∈ verbs ∧ Reads x (fun s => s.ids = []))
    (hnone : ∀ market verb, onIds market verb = none → verb ∉ verbs) :
    Reads (node actions fun market => node (onMarket market) fun tok => do
        parseIds tok
        leaf (onIds market))
      (fun s => ∃ market, s.uri.tokens = [market, []] ∧ ∃ verb ∈ verbs, s.method = some verb) := by
  have hnode := reads_node h (fun market => reads_node (hmarket market)
    (fun tok => reads_parseIds tok (hsome market) (hnone market)))
  refine hnode.congr (fun s => ?_)
  simp only [Tokeniser.tokens_eq_cons_iff, Tokeniser.tokens_eq_nil_iff]
  grind

theorem orderRequest_reads : Reads (orderRequest rest data now) (fun s =>
    ∃ market, s.uri.tokens = [market, []] ∧
      ∃ verb ∈ [HttpMethod.get, .put, .delete], s.method = some verb) := by
  refine reads_market (quiet_onGet (quiet_call rfl)) (fun market verb x h => ?_)
    (fun market verb x h => ?_) (fun market verb h => ?_)
  · exact quiet_getPost (quiet_call rfl) (postOrder_quiet market) h
  · cases verb with
    | get =>
        cases h
        exact ⟨by decide, reads_ids (f := fun ids => .getOrder market ids.head?)
          (fun ids => by simp [RestMethod.ids])⟩
    | post => cases h
    | put =>
        cases h
        exact ⟨by decide, reads_ids (f := .putOrder market) (fun ids => by simp [RestMethod.ids])⟩
    | delete =>
        cases h
        exact ⟨by decide, reads_ids (f := .deleteOrder market)
          (fun ids => by simp [RestMethod.ids])⟩
  · cases verb with
    | get => cases h
    | post => decide
    | put => cases h
    | delete => cases h

theorem tradeRequest_reads : Reads (tradeRequest rest now) (fun s =>
    ∃ market, s.uri.tokens = [market, []] ∧
      ∃ verb ∈ [HttpMethod.get, .delete], s.method = some verb) := by
  refine reads_market (quiet_onGet (quiet_call rfl)) (fun market verb x h => ?_)
    (fun market verb x h => ?_) (fun market verb h => ?_)
  · exact quiet_getPost (quiet_call rfl) (quiet_call rfl) h
  · cases verb with
    | get =>
        cases h
        exact ⟨by decide, reads_ids (f := fun ids => .getTrade market ids.head?)
          (fun ids => by simp [RestMethod.ids])⟩
    | post => cases h
    | put => cases h
    | delete =>
        cases h
        exact ⟨by decide, reads_ids (f := .deleteTrade market)
          (fun ids => by simp [RestMethod.ids])⟩
  · cases verb with
    | get => cases h
    | post => decide
    | put => decide
    | delete => cases h

theorem posnRequest_quiet : Quiet (posnRequest rest now) :=
  quiet_node (quiet_onGet (quiet_call rfl)) (fun _ => quiet_node (quiet_onGet (quiet_call rfl))
    (fun _ => quiet_leaf (quiet_onGet (quiet_call rfl))))

theorem viewRequest_quiet : Quiet (viewRequest rest now) :=
  quiet_node (quiet_onGet (quiet_call rfl)) (fun _ => quiet_leaf (quiet_onGet (quiet_call rfl)))

/-- The pieces after the entities end with an empty one for ids, and the method takes ids. -/
def OmitsIds (es : EntitySet) (method : Option HttpMethod) (pieces : List (List Byte)) : Prop :=
  ∃ market, pieces = [market, []] ∧
    (es = {.order} ∧ (∃ verb ∈ [HttpMethod.get, .put, .delete], method = some verb) ∨
      es = {.trade} ∧ ∃ verb ∈ [HttpMethod.get, .delete], method = some verb)

theorem reads_entities (es : EntitySet) :
    Reads (if es.many then leaf (onGet (call rest now (.getSess es)))
      else if es = {.order} then orderRequest rest data now
      else if es = {.trade} then tradeRequest rest now
      else if es = {.posn} then posnRequest rest now
      else if es = {.view} then viewRequest rest now
      else pure ()) (fun s => OmitsIds es s.method s.uri.tokens) := by
  by_cases horder : es = {.order}
  · subst horder
    rw [if_neg (by decide), if_pos rfl]
    exact orderRequest_reads.congr (fun s => by simp [OmitsIds])
  · by_cases htrade : es = {.trade}
    · subst htrade
      rw [if_neg (by decide), if_neg (by decide), if_pos rfl]
      exact tradeRequest_reads.congr (fun s => by simp [OmitsIds])
    · rw [if_neg horder, if_neg htrade]
      refine Reads.congr (p := fun _ => False) ?_ (fun s => by simp [OmitsIds, horder, htrade])
      exact quiet_ite (quiet_leaf (quiet_onGet (quiet_call rfl)))
        (quiet_ite posnRequest_quiet (quiet_ite viewRequest_quiet quiet_pure))

/-- The pieces after `/api` are those of a request for orders or trades without an id. -/
def OmitsAll (method : Option HttpMethod) (pieces : List (List Byte)) : Prop :=
  ∃ tok rest, pieces = bytes "sess" :: tok :: rest ∧
    ∃ es, EntitySet.parse tok = .ok es ∧ OmitsIds es method rest

theorem sessRequest_reads : Reads (sessRequest rest data now) (fun s => s.uri.empty = false ∧
    ∃ es, EntitySet.parse s.uri.top = .ok es ∧ OmitsIds es s.method s.uri.pop.tokens) :=
  reads_node (quiet_onGet (quiet_call rfl)) (fun tok => reads_parseEntities reads_entities tok)

theorem restRequest_reads :
    Reads (restRequest rest data now) (fun s => OmitsAll s.method s.uri.tokens) := by
  intro s
  unfold restRequest
  simp only [wp_bind, wp_get]
  split
  · next hempty => simp [OmitsAll, Tokeniser.tokens_eq_nil_iff.mpr hempty, not_emptyIds]
  · next hempty =>
      simp only [wp_bind, wp_modify]
      have hcons : s.uri.tokens = s.uri.top :: s.uri.pop.tokens :=
        Tokeniser.tokens_eq_cons_iff.mpr ⟨by simpa using hempty, rfl, rfl⟩
      by_cases hsess : s.uri.top = bytes "sess"
      · have hiff : OmitsAll s.method s.uri.tokens ↔ s.uri.pop.empty = false ∧
            ∃ es, EntitySet.parse s.uri.pop.top = .ok es ∧
              OmitsIds es s.method s.uri.pop.pop.tokens := by
          simp only [OmitsAll, Tokeniser.tokens_eq_cons_iff]
          grind
        rw [hsess, if_neg (by decide), if_pos rfl]
        simp only [hiff]
        exact sessRequest_reads.after s { s with uri := s.uri.pop } rfl
      · have hiff : OmitsAll s.method s.uri.tokens ↔ False := by
          simp [OmitsAll, hcons, hsess]
        rw [if_neg hsess]
        simp only [hiff]
        exact (quiet_ite recRequest_quiet (quiet_ite viewRequest_quiet quiet_pure)).after
          s { s with uri := s.uri.pop } rfl

/-! ### Requests -/

theorem handle_reads : Reads (handle rest data now) (fun s =>
    Accepts data s.request ∧ OmitsAll s.method s.uri.tokens) := by
  intro s
  unfold handle
  rw [wp_bind]
  refine parseBody_wp (fun haccepts => ?_) (fun hreject what => ?_)
  · have hrest := @restRequest_reads rest data now
    rw [wp_bind]
    refine wp_mono (hrest.after s _ rfl) (fun _ s' h => ?_) (fun e s' h => ?_)
    · have hcalls : EmptyIds s s' ↔ Accepts data s.request ∧ OmitsAll s.method s.uri.tokens := by
        simpa [haccepts] using h
      simp only [wp_bind, wp_get]
      split
      · simp only [wp_bind, wp_get]
        split
        · exact hcalls
        · exact hcalls
      · exact hcalls
    · simpa [haccepts] using h
  · simp [hreject, not_emptyIds]

/-- The pieces of the URI, after a slash in front of them. -/
def pieces (data : HttpMessage) : List (List Byte) :=
  (Tokeniser.mk (match data.uri with
    | b :: uri => if b = Ascii.slash then uri else data.uri
    | [] => []) : Tokeniser Ascii.slash).tokens

/-- `GET /api/sess/order/MARKET//` and the like: the piece for the ids is there, and empty. -/
def OmitsIdList (data : HttpMessage) : Prop := ∃ entities market,
  pieces data = [bytes "api", bytes "sess", entities, market, []] ∧
    (EntitySet.parse entities = .ok {.order} ∧
        HttpMethod.parse data.method ∈ [some .get, some .put, some .delete] ∨
      EntitySet.parse entities = .ok {.trade} ∧
        HttpMethod.parse data.method ∈ [some .get, some .delete])

theorem omitsIdList_iff : OmitsIdList data ↔ ∃ pieces', pieces data = bytes "api" :: pieces' ∧
    OmitsAll (HttpMethod.parse data.method) pieces' := by
  unfold OmitsIdList OmitsAll OmitsIds
  constructor
  · rintro ⟨entities, market, hpieces, ⟨hparse, hverb⟩ | ⟨hparse, hverb⟩⟩
    · exact ⟨_, hpieces, entities, _, rfl, _, hparse, market, rfl,
        Or.inl ⟨rfl, by simpa using hverb⟩⟩
    · exact ⟨_, hpieces, entities, _, rfl, _, hparse, market, rfl,
        Or.inr ⟨rfl, by simpa using hverb⟩⟩
  · rintro ⟨_, hpieces, entities, _, rfl, es, hparse, market, rfl, ⟨rfl, hverb⟩ | ⟨rfl, hverb⟩⟩
    · exact ⟨entities, market, hpieces, Or.inl ⟨hparse, by simpa using hverb⟩⟩
    · exact ⟨entities, market, hpieces, Or.inr ⟨hparse, by simpa using hverb⟩⟩

theorem isApi_iff : (s.reset data).isApi = true ↔
    pieces data = bytes "api" :: (s.reset data).uri.pop.tokens := by
  have huri : pieces data = (s.reset data).uri.tokens := rfl
  rw [huri, Tokeniser.tokens_eq_cons_iff]
  simp [isApi]

/-- **An id list is used while it is empty exactly in a request for orders or trades whose URI
has an empty piece for the ids and nothing after it.** -/
theorem reads_ids_iff (rest : Rest) (mgServeHttp : HttpMessage → List Byte → List Byte)
    (getTimeOfDay : Int) (data : HttpMessage) (sendMbuf : List Byte) (s : RestServ) :
    (∀ c ∈ (s.httpRequest rest mgServeHttp getTimeOfDay data sendMbuf).1.calls.drop
      s.calls.length, c.method.ids ≠ some []) ↔
    ¬ (Accepts data (s.request.reset true) ∧ OmitsIdList data) := by
  have hnone : (∀ c ∈ (s.httpRequest rest mgServeHttp getTimeOfDay data sendMbuf).1.calls.drop
      s.calls.length, c.method.ids ≠ some []) ↔
      ¬ EmptyIds s (s.httpRequest rest mgServeHttp getTimeOfDay data sendMbuf).1 := by
    simp [EmptyIds]
  rw [hnone, not_iff_not]
  by_cases hapi : (s.reset data).isApi = true
  · have homits : OmitsIdList data ↔ OmitsAll (HttpMethod.parse data.method)
        (s.reset data).uri.pop.tokens := by
      rw [omitsIdList_iff, isApi_iff.mp hapi]
      simp
    rw [homits]
    rcases Lib.Effect.wp_cases (@handle_reads rest data (getSwirlyTime getTimeOfDay data)
      ((s.reset data).attach sendMbuf)) with
      ⟨⟨⟩, s₁, h, hreads⟩ | ⟨e, s₁, h, hreads⟩
    · rw [httpRequest_of_ok hapi h]
      exact hreads
    · rw [httpRequest_of_error hapi h]
      exact hreads
  · rw [httpRequest_of_not_api hapi]
    have hnot : ¬ OmitsIdList data := by
      rw [omitsIdList_iff]
      rintro ⟨pieces', hpieces, -⟩
      have huri : (s.reset data).uri.tokens = bytes "api" :: pieces' := hpieces
      obtain ⟨hempty, htop, -⟩ := Tokeniser.tokens_eq_cons_iff.mp huri
      exact hapi (by simp [isApi, hempty, htop])
    simp [hnot, not_emptyIds, reset]

/-- `GET /api/sess/order/EURUSD//` -/
def getNoOrder : HttpMessage :=
  { method := bytes "GET", uri := bytes "/api/sess/order/EURUSD//", body := [],
    header := fun _ => [] }

set_option maxRecDepth 4000 in
/-- **The first id is read where there is none.** -/
theorem getNoOrder_reads_ids : ∃ c ∈ (Conn.Mock.serv.httpRequest Conn.Mock.rest
    Conn.Mock.noFiles 0 getNoOrder []).1.calls.drop Conn.Mock.serv.calls.length,
    c.method.ids = some [] := by
  decide

end RestServ

end Swirly
