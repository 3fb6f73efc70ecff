import Swirly.Fir.Grammar
import Swirly.Fir.ParseRun

/-!
# Swirly.Fir.ParseComplete

**The parser accepts what the grammar has.** Each part of a text takes the machine from the
state where the part may begin to one where it is complete. A value is complete before it
takes effect: `Pending d` is a state that any byte which may follow a value leaves with the
fields `d` (`feed_value`). Pairs follow one another the same way (`feed_members`), and the
brace that closes the object leaves the last of them.
-/

namespace Swirly

/-- A byte that may follow a value. -/
def Leaves (b : Byte) : Prop := isSpace b = true ∨ b = Ascii.comma ∨ b = Ascii.closeBrace

/-- The state after a byte that follows a value. -/
def afterValue (b : Byte) : Cs := (leave [] b).2

theorem leave_eq {b : Byte} (hb : Leaves b) (as : List Action) :
    leave as b = (as, afterValue b) := by
  unfold afterValue leave
  rcases hb with hb | rfl | rfl
  · rw [if_pos hb, if_pos hb]
  · rfl
  · rfl

set_option maxRecDepth 2000 in
theorem isDigit_of_isSpace : ∀ b : Byte, isSpace b = true → isDigit b = false := by decide

theorem Leaves.not_digit {b : Byte} (hb : Leaves b) : isDigit b = false := by
  rcases hb with hb | rfl | rfl
  · exact isDigit_of_isSpace b hb
  · rfl
  · rfl

/-! ### Keys -/

theorem ReqField.mem_all (f : ReqField) : f ∈ ReqField.all := by
  cases f with
  | str f => cases f <;> decide
  | num f => cases f <;> decide
  | side => decide
  | role => decide

/-- A field is found by its key. -/
theorem ReqField.find_key (f : ReqField) :
    ReqField.all.find? (fun g => g.key = f.key) = some f := by
  cases f with
  | str f => cases f <;> decide
  | num f => cases f <;> decide
  | side => decide
  | role => decide

theorem ReqField.quote_not_mem (f : ReqField) : Ascii.quote ∉ f.key := by
  cases f with
  | str f => cases f <;> decide
  | num f => cases f <;> decide
  | side => decide
  | role => decide

theorem Word.mem_all (x : Word) : x ∈ Word.all := by cases x <;> decide

theorem Word.find_text (x : Word) :
    Word.all.find? (fun y => y.field = x.field ∧ y.text = x.text) = some x := by
  cases x <;> decide

theorem Word.quote_not_mem (x : Word) : Ascii.quote ∉ x.text := by cases x <;> decide

namespace RestRequest

variable {r : RestRequest} {b : Byte} {buf ws t : List Byte} {cs : Cs} {as : List Action}
  {d : ReqFields} {f : ReqField} {v : Val}

theorem step_of_trans (h : trans b r.cs = (as, cs)) : r.step b = { r with cs }.acts b as := by
  unfold step
  rw [h]

theorem step_silent (h : trans b r.cs = ([], cs)) : (r.step b).1 = { r with cs } := by
  rw [step_of_trans h]
  rfl

/-- White space where it leads nowhere else. -/
theorem feed_spaces (hloop : ∀ b, isSpace b = true → trans b r.cs = ([], r.cs))
    (hws : Spaces ws) : r.feed ws = r := by
  induction ws with
  | nil => rfl
  | cons b ws ih =>
      have hb := hloop b (hws b List.mem_cons_self)
      rw [feed_cons, step_silent hb]
      exact ih (fun c hc => hws c (List.mem_cons_of_mem b hc))

/-- The letters of a name, in either case. -/
theorem feed_letters (state : List Byte → Cs) {name w k : List Byte}
    (hname : Ascii.quote ∉ name)
    (hread : ∀ w b, b ≠ Ascii.quote → w ++ [lower b] <+: name →
      trans b (state w) = ([], state (w ++ [lower b])))
    (hcs : r.cs = state w) (hk : w ++ k.map lower <+: name) :
    r.feed k = { r with cs := state (w ++ k.map lower) } := by
  induction k generalizing r w with
  | nil =>
      rw [List.map_nil, List.append_nil, ← hcs]
      rfl
  | cons b k ih =>
      rw [List.map_cons, List.append_cons] at hk
      have hpre : w ++ [lower b] <+: name := (List.prefix_append _ _).trans hk
      have hb : b ≠ Ascii.quote := by
        rintro rfl
        have hquote : lower Ascii.quote = Ascii.quote := by decide
        exact hname (hpre.subset (by simp [hquote]))
      rw [feed_cons, step_silent (hcs ▸ hread w b hb hpre), ih rfl hk, List.map_cons,
        List.append_assoc, List.singleton_append]

theorem trans_key {w : List Byte} (hb : b ≠ Ascii.quote) (hw : w ++ [lower b] <+: f.key) :
    trans b (.key w) = ([], .key (w ++ [lower b])) := by
  rw [trans, if_neg hb, if_pos]
  exact List.any_eq_true.mpr ⟨f, f.mem_all, List.isPrefixOf_iff_prefix.mpr hw⟩

theorem trans_word {x : Word} {w : List Byte} (hb : b ≠ Ascii.quote)
    (hw : w ++ [lower b] <+: x.text) :
    trans b (.word x.field w) = ([], .word x.field (w ++ [lower b])) := by
  rw [trans, if_neg hb, if_pos]
  refine List.any_eq_true.mpr ⟨x, x.mem_all, decide_eq_true ⟨rfl, ?_⟩⟩
  exact List.isPrefixOf_iff_prefix.mpr hw

/-- A key, from a state where one may begin. -/
theorem feed_key (hopen : trans Ascii.quote r.cs = ([], .key [])) {k : List Byte}
    (hk : KeyText f k) : r.feed k = { r with cs := .value f } := by
  cases hk with
  | mk hk hws hws' =>
      next k ws ws' =>
      have hkey : r.feed (Ascii.quote :: k) = { r with cs := .key f.key } := by
        have hletters := feed_letters .key (r := { r with cs := .key [] }) (w := []) (k := k)
          f.quote_not_mem (fun w b => trans_key) rfl (by rw [hk]; exact List.prefix_rfl)
        rw [feed_cons, step_silent hopen, hletters, hk]
        rfl
      have hcolon : { r with cs := .key f.key }.feed (Ascii.quote :: ws) =
          { r with cs := .colon f } := by
        have htrans : trans Ascii.quote (.key f.key) = ([], .colon f) := by
          rw [trans, if_pos rfl, f.find_key]
        rw [feed_cons, step_silent htrans]
        exact feed_spaces (fun b hb => by simp [trans, hb]) hws
      have hvalue : { r with cs := .colon f }.feed (Ascii.colon :: ws') =
          { r with cs := .value f } := by
        rw [feed_cons, step_silent (show trans _ _ = ([], Cs.value f) from rfl)]
        exact feed_spaces (fun b hb => by simp [trans, hb]) hws'
      rw [feed_append, feed_append, hkey, hcolon, hvalue]

/-! ### Values -/

/-- Whatever byte follows the value, the machine leaves it with the fields `d`. -/
def Pending (d : ReqFields) (r : RestRequest) : Prop :=
  ∀ b, Leaves b → (r.step b).1.toReqFields = d ∧ (r.step b).1.cs = afterValue b

/-- A state that any byte leaves with one action. -/
theorem pending_of {a : Action} (scratch : Scratch)
    (htrans : ∀ b, Leaves b → trans b r.cs = leave [a] b)
    (hact : ∀ b cs, ({ r with cs }.act b a) = ({ d with cs, scratch }, none)) : r.Pending d := by
  intro b hb
  rw [step_of_trans ((htrans b hb).trans (leave_eq hb _))]
  unfold acts
  rw [hact]
  exact ⟨rfl, rfl⟩

/-- `null`. -/
theorem feed_null (hcs : r.cs = .value f) :
    (r.feed (chars ['n', 'u', 'l', 'l'])).Pending (r.toReqFields.null f) := by
  have hfeed : r.feed (chars ['n', 'u', 'l', 'l']) = { r with cs := .null f [] } := by
    have htrans : trans 110 r.cs = ([], .null f (chars ['u', 'l', 'l'])) := by rw [hcs]; rfl
    show (r.step 110).1.feed _ = _
    rw [step_silent htrans]
    rfl
  rw [hfeed]
  exact pending_of (a := .null f) r.scratch (fun b _ => rfl) (fun b cs => rfl)

/-! ### Strings -/

/-- In a string of `f`, after the bytes `s`. -/
def inString (d : ReqFields) (f : StrField) (s : FixedString f.max) : RestRequest :=
  { d.setStr f s with cs := .char f, scratch := .str f }

/-- A byte is added to the string while there is room. -/
theorem step_addChar {f : StrField} {s : FixedString f.max}
    (htrans : trans b cs = ([.addChar], .char f)) (hlen : s.buf.length < f.max) :
    ({ inString d f s with cs }.step b).1 = inString d f (s.push b hlen) := by
  rw [step_of_trans htrans]
  unfold acts act
  simp only [inString, ReqFields.setStr, Function.update_self, Function.update_idem, dif_pos hlen]
  rfl

theorem push_assign {f : StrField} {l : List Byte} (hlen : (l ++ [b]).length ≤ f.max)
    (h : (FixedString.assign f.max l).buf.length < f.max) :
    (FixedString.assign f.max l).push b h = .assign f.max (l ++ [b]) := by
  have hl : l.length ≤ f.max := le_trans (by simp) hlen
  refine FixedString.ext ?_
  show l.take f.max ++ [b] = (l ++ [b]).take f.max
  rw [List.take_of_length_le hl, List.take_of_length_le hlen]

/-- The inside of a string. -/
theorem feed_quoted {f : StrField} {raw l : List Byte} (h : Quoted raw l)
    (hlen : l.length ≤ f.max) :
    (inString d f (.assign f.max [])).feed raw = inString d f (.assign f.max l) := by
  induction h with
  | nil => rfl
  | char h hquote hbackslash ih =>
      next raw l b =>
      have hl : l.length < f.max := Nat.lt_of_succ_le (by simpa using hlen)
      have htrans : trans b (.char f) = ([.addChar], .char f) := by
        rw [trans, if_neg hquote, if_neg hbackslash]
      have hroom : (FixedString.assign f.max l).buf.length < f.max :=
        lt_of_le_of_lt (List.length_take_le' f.max l) hl
      rw [feed_append, ih hl.le, ← push_assign hlen hroom]
      exact step_addChar htrans hroom
  | escape h ih =>
      next raw l b =>
      have hl : l.length < f.max := Nat.lt_of_succ_le (by simpa using hlen)
      have hroom : (FixedString.assign f.max l).buf.length < f.max :=
        lt_of_le_of_lt (List.length_take_le' f.max l) hl
      have htrans : trans b (.escape f) = ([.addChar], .char f) := rfl
      rw [feed_append, ih hl.le, ← push_assign hlen hroom]
      exact step_addChar htrans hroom

/-- A string. -/
theorem feed_str {f : StrField} {raw l : List Byte} (h : Quoted raw l) (hlen : l.length ≤ f.max)
    (hcs : r.cs = .value (.str f)) :
    (r.feed (Ascii.quote :: raw ++ [Ascii.quote])).Pending
      ((r.setStr f (.assign f.max l)).endStr f) := by
  have hopen : (r.step Ascii.quote).1 = inString r.toReqFields f (.assign f.max []) := by
    have htrans : trans Ascii.quote r.cs = ([.beginField f, .beginStr], .char f) := by
      rw [hcs]
      rfl
    rw [step_of_trans htrans]
    rfl
  have hraw : r.feed (Ascii.quote :: raw) = inString r.toReqFields f (.assign f.max l) := by
    rw [feed_cons, hopen, feed_quoted h hlen]
  rw [feed_append, hraw]
  exact pending_of (a := .endStr f) (.str f) (fun b _ => rfl) (fun b cs => rfl)

/-! ### Numbers -/

/-- A digit is added to the number. -/
theorem step_addDigit {sign : Int} {n : Nat} {f : NumField}
    (htrans : trans b r.cs = ([.addDigit], .optDigit f)) (hscratch : r.scratch = .num sign n) :
    (r.step b).1 =
      { r with cs := .optDigit f, scratch := .num sign ((n * 10 + digit b) % 2 ^ 64) } := by
  rw [step_of_trans htrans]
  unfold acts act
  simp only [hscratch]
  rfl

/-- Digits after a digit: the number is kept to 64 bits. -/
theorem feed_digits {sign : Int} {n : Nat} {f : NumField} {ds : List Byte}
    (hds : ∀ b ∈ ds, isDigit b = true) (hcs : r.cs = .optDigit f)
    (hscratch : r.scratch = .num sign (n % 2 ^ 64)) :
    r.feed ds =
      { r with scratch := .num sign (ds.foldl (fun n b => n * 10 + digit b) n % 2 ^ 64) } := by
  induction ds generalizing r n with
  | nil =>
      rw [List.foldl_nil, ← hscratch]
      rfl
  | cons b ds ih =>
      have htrans : trans b r.cs = ([.addDigit], .optDigit f) := by
        rw [hcs, trans, if_pos (hds b List.mem_cons_self)]
      have hmod : (n % 2 ^ 64 * 10 + digit b) % 2 ^ 64 = (n * 10 + digit b) % 2 ^ 64 := by omega
      rw [feed_cons, step_addDigit htrans hscratch, hmod,
        ih (fun c hc => hds c (List.mem_cons_of_mem b hc)) rfl rfl, List.foldl_cons, ← hcs]

/-- All digits of a number, after its sign. -/
theorem feed_decimal {sign : Int} {f : NumField} {ds : List Byte} (hne : ds ≠ [])
    (hds : ∀ b ∈ ds, isDigit b = true)
    (hfirst : ∀ b, isDigit b = true →
      (r.step b).1 = { r with cs := .optDigit f, scratch := .num sign (digit b % 2 ^ 64) }) :
    r.feed ds = { r with cs := .optDigit f, scratch := .num sign (decimal ds % 2 ^ 64) } := by
  cases ds with
  | nil => exact absurd rfl hne
  | cons b ds =>
      have hzero : 0 * 10 + digit b = digit b := by omega
      rw [feed_cons, hfirst b (hds b List.mem_cons_self),
        feed_digits (fun c hc => hds c (List.mem_cons_of_mem b hc)) rfl rfl]
      unfold decimal
      rw [List.foldl_cons, hzero]

set_option maxRecDepth 2000 in
/-- A digit begins nothing else. -/
theorem not_of_isDigit : ∀ b : Byte, isDigit b = true →
    isSpace b = false ∧ b ≠ 110 ∧ b ≠ Ascii.minus ∧ b ≠ Ascii.plus := by decide

/-- A signed number. -/
theorem feed_sign {f : NumField} {sign : Sign} {ds : List Byte} (hne : ds ≠ [])
    (hds : ∀ b ∈ ds, isDigit b = true) (hcs : r.cs = .value (.num f)) :
    r.feed (sign.text ++ ds) =
      { r with cs := .optDigit f, scratch := .num sign.factor (decimal ds % 2 ^ 64) } := by
  have hreq : ∀ s : Int, ∀ b, isDigit b = true →
      ({ r with cs := .reqDigit f, scratch := .num s 0 }.step b).1 =
        { r with cs := .optDigit f, scratch := .num s (digit b % 2 ^ 64) } := by
    intro s b hb
    have hzero : 0 * 10 + digit b = digit b := by omega
    rw [step_addDigit (n := 0) (f := f) (by rw [trans, if_pos hb]) rfl, hzero]
  rw [feed_append]
  cases sign with
  | none =>
      refine feed_decimal hne hds (fun b hb => ?_)
      have htrans : trans b r.cs = ([.beginNum, .addDigit], .optDigit f) := by
        obtain ⟨hspace, hnull, hminus, hplus⟩ := not_of_isDigit b hb
        rw [hcs, trans, if_neg (by simp [hspace]), if_neg hnull, enter, if_neg hminus,
          if_neg hplus, if_pos hb]
      have hzero : 0 * 10 + digit b = digit b := by omega
      show (r.step b).1 = _
      rw [step_of_trans htrans, ← hzero]
      rfl
  | plus =>
      have hsign : r.feed (Sign.text .plus) =
          { r with cs := .reqDigit f, scratch := .num 1 0 } := by
        have htrans : trans Ascii.plus r.cs = ([.beginNum], .reqDigit f) := by rw [hcs]; rfl
        show (r.step Ascii.plus).1 = _
        rw [step_of_trans htrans]
        rfl
      rw [hsign]
      exact feed_decimal hne hds (hreq 1)
  | minus =>
      have hsign : r.feed (Sign.text .minus) =
          { r with cs := .reqDigit f, scratch := .num (-1) 0 } := by
        have htrans : trans Ascii.minus r.cs = ([.beginNum, .negate], .reqDigit f) := by
          rw [hcs]
          rfl
        show (r.step Ascii.minus).1 = _
        rw [step_of_trans htrans]
        rfl
      rw [hsign]
      exact feed_decimal hne hds (hreq (-1))

/-- A number. -/
theorem feed_num {f : NumField} {sign : Sign} {ds : List Byte} (hne : ds ≠ [])
    (hds : ∀ b ∈ ds, isDigit b = true) (hstate : f = .state → sign ≠ .minus)
    (hcs : r.cs = .value (.num f)) :
    (r.feed (sign.text ++ ds)).Pending
      (r.endNum f ((sign.factor * decimal ds).bmod (2 ^ 64))) := by
  rw [feed_sign hne hds hcs]
  refine pending_of (a := .endNum f) (.num sign.factor (decimal ds % 2 ^ 64))
    (fun b hb => ?_) (fun b cs => ?_)
  · rw [trans, if_neg (by simp [hb.not_digit])]
  · have hnum : (sign.factor * ((decimal ds % 2 ^ 64 : Nat) : Int)).bmod (2 ^ 64) =
        (sign.factor * decimal ds).bmod (2 ^ 64) := by
      rw [Int.natCast_emod]
      exact Int.mul_emod_bmod _ _
    have hact : ∀ r : RestRequest, r.scratch = .num sign.factor (decimal ds % 2 ^ 64) →
        r.act b (.endNum f) = ({ r with toReqFields := r.endNum f r.num }, none) := by
      intro r hr
      refine act_endNum ?_
      rintro ⟨hf, hneg⟩
      unfold RestRequest.sign at hneg
      rw [hr] at hneg
      cases sign with
      | none => exact absurd hneg (show ¬ (1 : Int) < 0 by decide)
      | plus => exact absurd hneg (show ¬ (1 : Int) < 0 by decide)
      | minus => exact hstate hf rfl
    rw [hact _ rfl]
    simp only [num, hnum]

/-! ### Words -/

theorem feed_word {x : Word} (ht : t.map lower = x.text) (hcs : r.cs = .value x.field) :
    (r.feed (Ascii.quote :: t ++ [Ascii.quote])).Pending (r.endWord x) := by
  have hopen : trans Ascii.quote r.cs = ([], .word x.field []) := by
    rw [hcs]
    cases x <;> rfl
  have hletters : r.feed (Ascii.quote :: t) = { r with cs := .word x.field x.text } := by
    have h := feed_letters (.word x.field) (r := { r with cs := .word x.field [] }) (w := [])
      (k := t) x.quote_not_mem (fun w b => trans_word) rfl
      (by rw [ht]; exact List.prefix_rfl)
    rw [feed_cons, step_silent hopen, h, ht]
    rfl
  have hclose : trans Ascii.quote (.word x.field x.text) = ([], .wordEnd x) := by
    rw [trans, if_pos rfl, x.find_text]
  rw [feed_append, hletters, feed_cons, step_silent hclose]
  exact pending_of (a := .endWord x) r.scratch (fun b _ => rfl) (fun b cs => rfl)

/-- **A value takes effect on the byte after it.** -/
theorem feed_value (h : ValueText f t v) (hcs : r.cs = .value f) :
    (r.feed t).Pending (r.assign f v) := by
  cases h with
  | null =>
      rw [ReqFields.assign_null]
      exact feed_null hcs
  | str h hlen => exact feed_str h hlen hcs
  | num hne hds hstate => exact feed_num hne hds hstate hcs
  | word ht =>
      next x t =>
      have hassign : r.assign x.field (.word x) = r.endWord x := by cases x <;> rfl
      rw [hassign]
      exact feed_word ht hcs

/-! ### Objects -/

/-- White space after a value. -/
theorem Pending.spaces (h : r.Pending d) (hws : Spaces ws) : (r.feed ws).Pending d := by
  cases ws with
  | nil => exact h
  | cons b ws =>
      have hb := hws b List.mem_cons_self
      obtain ⟨hd, hcs⟩ := h b (Or.inl hb)
      have hsep : (r.step b).1.cs = .sep := by
        rw [hcs]
        exact congrArg Prod.snd (if_pos hb)
      have hloop : ∀ c, isSpace c = true → trans c (r.step b).1.cs = ([], (r.step b).1.cs) := by
        intro c hc
        rw [hsep]
        exact if_pos hc
      rw [feed_cons, feed_spaces hloop (fun c hc => hws c (List.mem_cons_of_mem b hc))]
      intro c hc
      have htrans : trans c (r.step b).1.cs = ([], afterValue c) := by
        rw [hsep]
        exact leave_eq hc []
      rw [step_silent htrans]
      exact ⟨hd, rfl⟩

/-- A pair of a key and a value. -/
theorem feed_pair {k : List Byte} (hopen : trans Ascii.quote r.cs = ([], .key []))
    (hk : KeyText f k) (ht : ValueText f t v) : (r.feed (k ++ t)).Pending (r.assign f v) := by
  rw [feed_append, feed_key hopen hk]
  exact feed_value (r := { r with cs := .value f }) ht rfl

/-- **The pairs of an object take effect one after the other.** -/
theorem feed_members {ms : List Byte} {ps : List (ReqField × Val)} (h : Members ms ps)
    (hopen : trans Ascii.quote r.cs = ([], .key [])) :
    (r.feed ms).Pending (ps.foldl (fun d p => d.assign p.1 p.2) r.toReqFields) := by
  induction h with
  | one hk ht => exact feed_pair hopen hk ht
  | snoc hms hws hws' hk ht ih =>
      next ms ws ws' k t ps f v =>
      obtain ⟨hd, hnext⟩ := (ih.spaces hws) Ascii.comma (Or.inr (Or.inl rfl))
      have hloop : ∀ b, isSpace b = true →
          trans b (((r.feed ms).feed ws).step Ascii.comma).1.cs =
            ([], (((r.feed ms).feed ws).step Ascii.comma).1.cs) := by
        intro b hb
        rw [hnext]
        exact if_pos hb
      have hfeed : r.feed (ms ++ ws ++ Ascii.comma :: ws') =
          (((r.feed ms).feed ws).step Ascii.comma).1 := by
        rw [feed_append, feed_append, feed_cons, feed_spaces hloop hws']
      rw [List.append_assoc, feed_append, hfeed, List.foldl_append, List.foldl_cons,
        List.foldl_nil, ← hd]
      exact feed_pair (by rw [hnext]; rfl) hk ht

/-- The white space around the object. -/
theorem feed_outer (hstart : r.cs = .start) (hws : Spaces ws) : r.feed ws = r :=
  feed_spaces (fun b hb => by rw [hstart]; exact if_pos hb) hws

/-- The opening of the object. -/
theorem feed_open (hcs : r.cs = .start) {ws' : List Byte} (hws : Spaces ws) (hws' : Spaces ws') :
    r.feed (ws ++ Ascii.openBrace :: ws') = { r with cs := .first } := by
  have htrans : trans Ascii.openBrace r.cs = ([], .first) := by rw [hcs]; rfl
  rw [feed_append, feed_outer hcs hws, feed_cons, step_silent htrans]
  exact feed_spaces (fun b hb => if_pos hb) hws'

/-- The text up to the end of a value. -/
theorem feed_membersAt {s : List Byte} {ps : List (ReqField × Val)} (h : MembersAt s ps)
    (hcs : r.cs = .start) :
    (r.feed s).Pending (ps.foldl (fun d p => d.assign p.1 p.2) r.toReqFields) := by
  cases h with
  | mk hws hws' hms =>
      rw [feed_append, feed_open hcs hws hws']
      exact feed_members (r := { r with cs := .first }) hms rfl

/-- The text up to where a key may begin. -/
theorem feed_keyAt {s : List Byte} {ps : List (ReqField × Val)} (h : KeyAt s ps)
    (hcs : r.cs = .start) : trans Ascii.quote (r.feed s).cs = ([], .key []) := by
  cases h with
  | first hws hws' =>
      rw [feed_open hcs hws hws']
      rfl
  | next h hws hws' =>
      next s ws ws' =>
      obtain ⟨-, hnext⟩ := (feed_membersAt h hcs).spaces hws Ascii.comma (Or.inr (Or.inl rfl))
      rw [feed_append, feed_append, feed_cons, feed_spaces (fun b hb => ?_) hws', hnext]
      · rfl
      · rw [hnext]
        exact if_pos hb

/-- The text up to where the value of a key begins. -/
theorem feed_valueAt {s : List Byte} {ps : List (ReqField × Val)} (h : ValueAt f s ps)
    (hcs : r.cs = .start) : (r.feed s).cs = .value f := by
  cases h with
  | mk hkey hk => rw [feed_append, feed_key (feed_keyAt hkey hcs) hk]

/-- **A text of the grammar is accepted, and every key takes its values in turn.** -/
theorem feed_doc {s : List Byte} {ps : List (ReqField × Val)} (h : Doc s ps) (hcs : r.cs = .start) :
    (r.feed s).cs = .done ∧
      (r.feed s).toReqFields = ps.foldl (fun d p => d.assign p.1 p.2) r.toReqFields := by
  have hdone : ∀ {r : RestRequest} {ws}, r.cs = .done → Spaces ws → r.feed ws = r := by
    intro r ws hcs hws
    exact feed_spaces (fun b hb => by rw [hcs]; exact if_pos hb) hws
  cases h with
  | empty hws hws' hws₂ =>
      rw [feed_append, feed_open hcs hws hws', feed_cons,
        step_silent (show trans _ _ = ([], Cs.done) from rfl), hdone rfl hws₂]
      exact ⟨rfl, rfl⟩
  | members hws hws' hms hws₂ hws₃ =>
      obtain ⟨hd, hclose⟩ := (feed_membersAt (.mk hws hws' hms) hcs).spaces hws₂
        Ascii.closeBrace (Or.inr (Or.inr rfl))
      rw [feed_append, feed_append, feed_cons, hdone hclose hws₃]
      exact ⟨hclose, hd⟩

end RestRequest

end Swirly
