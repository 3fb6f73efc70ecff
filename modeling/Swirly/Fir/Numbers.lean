import Swirly.Fir.ParseSound

/-!
# Swirly.Fir.Numbers

**The numbers of a request.** The parser keeps 64 bits of a number, and then as many as the
field has; it looks at no bound. So a request gives back the numbers that are written in it
exactly if every one of them fits its field (`numbers_exact_iff`): one that does not is
accepted as another number.
-/

namespace Swirly.RestRequest

/-- The text up to a number of the field `f`, and the byte after it. -/
inductive Literal (f : NumField) (n : Int) : List Byte → Prop
  | mk {s t : List Byte} {b : Byte} {ps : List (ReqField × Val)} (h : ValueAt (.num f) s ps)
      (ht : ValueText (.num f) t (.num n)) (hb : Leaves b) : Literal f n (s ++ t ++ [b])

/-- Numbers are not silently altered: an accepted request gives back the numbers that are
written last, and the parse throws after a number that does not fit. -/
structure NumbersExact (r : RestRequest) (s : List Byte) : Prop where
  exact : ∀ ps, Doc s ps → ∀ f : NumField,
    ((r.reset true).parse s).2.nums f = (last (.num f) ps).int
  throws : ∀ f n p, p <+: s → Literal f n p → ¬ f.Fits n →
    ∃ msg, ((r.reset true).parse p).1 = .error msg

section Literals

variable {s ws ws' ms : List Byte} {ps : List (ReqField × Val)} {f : NumField} {n : Int} {b : Byte}

/-- What follows a value begins with a byte that leaves it. -/
theorem exists_leaves {c : Byte} (hws : Spaces ws) (hc : Leaves c) (rest : List Byte) :
    ∃ b buf, Leaves b ∧ ws ++ c :: rest = b :: buf := by
  cases ws with
  | nil => exact ⟨c, rest, hc, rfl⟩
  | cons b ws => exact ⟨b, ws ++ c :: rest, Or.inl (hws b List.mem_cons_self), rfl⟩

theorem afterValue_ne_error (hb : Leaves b) : afterValue b ≠ .error := by
  unfold afterValue leave
  rcases hb with hb | rfl | rfl
  · rw [if_pos hb]
    decide
  · decide
  · decide

/-- A number among the pairs of an object is written in its text. -/
theorem exists_literal_of_members (hms : Members ms ps) (hws : Spaces ws) (hws' : Spaces ws')
    (hb : Leaves b) (hmem : (.num f, .num n) ∈ ps) :
    ∃ p, Literal f n p ∧ p <+: ws ++ Ascii.openBrace :: ws' ++ ms ++ [b] := by
  induction hms generalizing b with
  | one hk ht =>
      cases List.mem_singleton.mp hmem
      refine ⟨_, .mk (.mk (.first hws hws') hk) ht hb, ?_⟩
      rw [← List.append_assoc]
  | snoc hms hws₁ hws₂ hk ht ih =>
      next ms ws₁ ws₂ k t ps g v =>
      rcases List.mem_append.mp hmem with hmem | hmem
      · obtain ⟨c, buf, hc, hbuf⟩ := exists_leaves hws₁ (Or.inr (Or.inl rfl) : Leaves Ascii.comma)
          (ws₂ ++ k ++ t ++ [b])
        obtain ⟨p, hp, hpre⟩ := ih hc hmem
        refine ⟨p, hp, hpre.trans ⟨buf, ?_⟩⟩
        simp only [List.append_assoc, List.cons_append, List.nil_append] at hbuf ⊢
        rw [← hbuf]
      · cases List.mem_singleton.mp hmem
        refine ⟨_, .mk (.mk (.next (.mk hws hws' hms) hws₁ hws₂) hk) ht hb, ?_⟩
        simp only [List.append_assoc, List.cons_append]
        exact List.prefix_rfl

theorem exists_literal (hdoc : Doc s ps) (hmem : (.num f, .num n) ∈ ps) :
    ∃ p, Literal f n p ∧ p <+: s := by
  cases hdoc with
  | empty => cases hmem
  | members hws hws' hms hws₂ hws₃ =>
      next ws ws' ms ws₂ ws₃ =>
      obtain ⟨b, buf, hb, hbuf⟩ :=
        exists_leaves hws₂ (Or.inr (Or.inr rfl) : Leaves Ascii.closeBrace) ws₃
      obtain ⟨p, hp, hpre⟩ := exists_literal_of_members hms hws hws' hb hmem
      refine ⟨p, hp, hpre.trans ⟨buf, ?_⟩⟩
      simp only [List.append_assoc, List.cons_append, List.nil_append] at hbuf ⊢
      rw [← hbuf]

/-- A number is accepted, whatever it is. -/
theorem literal_accepted {r : RestRequest} {p : List Byte} (hp : Literal f n p)
    (hcs : r.cs = .start) : (r.feed p).cs ≠ .error := by
  cases hp with
  | mk h ht hb =>
      have hpending := feed_value ht (feed_valueAt h hcs)
      rw [feed_append, feed_append, feed_cons, feed_nil, (hpending _ hb).2]
      exact afterValue_ne_error hb

theorem last_mem {g : ReqField} {v : Val} (hlast : last g ps = v) (hv : v ≠ .null) :
    (g, v) ∈ ps := by
  induction ps using List.reverseRecOn with
  | nil => exact absurd hlast.symm hv
  | append_singleton ps p ih =>
      obtain ⟨k, w⟩ := p
      rw [last_snoc] at hlast
      split at hlast
      · next hk =>
          rw [hk, hlast]
          exact List.mem_append_right _ List.mem_cons_self
      · exact List.mem_append_left _ (ih hlast)

end Literals

/-- **Numbers are kept exactly if every number of the text fits its field.** -/
theorem numbers_exact_iff (r : RestRequest) (s : List Byte) :
    r.NumbersExact s ↔ ∀ f n p, p <+: s → Literal f n p → f.Fits n := by
  constructor
  · intro h f n p hp hliteral
    by_contra hno
    exact literal_accepted (r := r.reset true) hliteral rfl
      (parse_throws_iff.mp (h.throws f n p hp hliteral hno))
  · intro hfits
    refine ⟨fun ps hdoc f => ?_, fun f n p hp hliteral hno => absurd (hfits f n p hp hliteral) hno⟩
    refine ((parse_decides r s).2 ps hdoc).2.2 f ?_
    cases hlast : last (.num f) ps with
    | num n =>
        obtain ⟨p, hliteral, hp⟩ := exists_literal hdoc (last_mem hlast (by simp))
        exact hfits f n p hp hliteral
    | null => exact (f.stored_eq_iff 0).mp f.stored_zero
    | str l => exact (f.stored_eq_iff 0).mp f.stored_zero
    | word x => exact (f.stored_eq_iff 0).mp f.stored_zero

namespace Mock

/-- `{"lots":18446744073709551617}` -/
def wideLots : List Byte :=
  chars ['{', '"', 'l', 'o', 't', 's', '"', ':', '1', '8', '4', '4', '6', '7', '4', '4', '0', '7',
    '3', '7', '0', '9', '5', '5', '1', '6', '1', '7', '}']

set_option maxRecDepth 4000 in
theorem wideLots_doc : Doc wideLots [(.num .lots, .num 18446744073709551617)] := by
  have hk : KeyText (.num .lots) (chars ['"', 'l', 'o', 't', 's', '"', ':']) :=
    .mk (k := chars ['l', 'o', 't', 's']) (by decide) Spaces.nil Spaces.nil
  have ht : ValueText (.num .lots) (Sign.text .none ++ chars ['1', '8', '4', '4', '6', '7', '4',
      '4', '0', '7', '3', '7', '0', '9', '5', '5', '1', '6', '1', '7'])
      (.num (Sign.factor .none * 18446744073709551617)) :=
    .num (by decide) (by decide) (by decide)
  exact .members Spaces.nil Spaces.nil (.one hk ht) Spaces.nil Spaces.nil

end Mock

set_option maxRecDepth 4000 in
/-- **2⁶⁴ + 1 lots are accepted as one.** -/
theorem wide_lots_wrap :
    Doc Mock.wideLots [(.num .lots, .num 18446744073709551617)] ∧
    ((new.reset true).parse Mock.wideLots).1 = .ok true ∧
    ((new.reset true).parse Mock.wideLots).2.lots = 1 ∧ ¬ new.NumbersExact Mock.wideLots := by
  have hlots : ((new.reset true).parse Mock.wideLots).2.lots = 1 := by decide
  refine ⟨Mock.wideLots_doc, by decide, hlots, fun h => ?_⟩
  have hexact := h.exact _ Mock.wideLots_doc .lots
  change ((new.reset true).parse Mock.wideLots).2.lots = 18446744073709551617 at hexact
  rw [hlots] at hexact
  cases hexact

end Swirly.RestRequest
