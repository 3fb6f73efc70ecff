import Swirly.Fir.ParseSound

/-!
# Swirly.Fir.RawString

**Bytes that are written raw between quotes.** A string that holds neither a quote nor a
backslash is read as it is written. Any other string is not: each of these bytes takes two
to be read, so that a field has room for at most `rawLength` of what is written for it
(`step_rawLength`), and a string with one of them is longer than its text
(`plain_of_raw`).

What follows the string is of no help, whatever state the string leaves the machine in: a
quote and a key are read as such only in a state that leaves the strings alone
(`feed_next`).
-/

namespace Swirly

/-- Neither a quote nor a backslash. -/
def Plain (l : List Byte) : Prop := ∀ b ∈ l, b ≠ Ascii.quote ∧ b ≠ Ascii.backslash

instance (l : List Byte) : Decidable (Plain l) :=
  inferInstanceAs (Decidable (∀ b ∈ l, b ≠ Ascii.quote ∧ b ≠ Ascii.backslash))

/-- A plain string stands for itself. -/
theorem Plain.quoted {l : List Byte} (h : Plain l) : Quoted l l := by
  induction l using List.reverseRecOn with
  | nil => exact .nil
  | append_singleton l b ih =>
      obtain ⟨hquote, hbackslash⟩ := h b (by simp)
      exact .char (ih (fun c hc => h c (List.mem_append_left _ hc))) hquote hbackslash

/-- The bytes it takes to write a string. -/
def rawLength (l : List Byte) : Nat :=
  (l.map (fun b => if b = Ascii.quote ∨ b = Ascii.backslash then 2 else 1)).sum

@[simp] theorem rawLength_nil : rawLength [] = 0 := rfl

theorem rawLength_append (l l' : List Byte) :
    rawLength (l ++ l') = rawLength l + rawLength l' := by
  unfold rawLength
  rw [List.map_append, List.sum_append]

theorem rawLength_singleton (b : Byte) : rawLength [b] ≤ 2 := by
  simp only [rawLength, List.map_cons, List.map_nil, List.sum_cons, List.sum_nil]
  split <;> omega

theorem rawLength_singleton_of_ne {b : Byte} (hquote : b ≠ Ascii.quote)
    (hbackslash : b ≠ Ascii.backslash) : rawLength [b] = 1 := by
  simp [rawLength, hquote, hbackslash]

/-- A string that is as long as it takes to write it is plain. -/
theorem plain_of_rawLength {l : List Byte} (h : rawLength l ≤ l.length) : Plain l := by
  have hlen : ∀ l, l.length ≤ rawLength l := by
    intro l
    induction l with
    | nil => exact Nat.le_refl 0
    | cons b l ih =>
        simp only [rawLength, List.map_cons, List.sum_cons, List.length_cons] at ih ⊢
        split <;> omega
  induction l with
  | nil =>
      intro b hb
      cases hb
  | cons b l ih =>
      have hrest := hlen l
      have hcons := rawLength_append [b] l
      rw [List.singleton_append] at hcons
      rw [hcons, List.length_cons] at h
      have hb : ¬ (b = Ascii.quote ∨ b = Ascii.backslash) := by
        intro hspecial
        have htwo : rawLength [b] = 2 := by simp [rawLength, hspecial]
        omega
      have hone : rawLength [b] = 1 := by simp [rawLength, hb]
      intro c hc
      rcases List.mem_cons.mp hc with rfl | hc
      · exact not_or.mp hb
      · exact ih (by omega) c hc

namespace RestRequest

variable {r : RestRequest} {b : Byte} {f : StrField} {s : List Byte}

/-! ### The string of a field -/

/-- In a string of `f` the machine writes to `f`. -/
def Wired (r : RestRequest) : Prop :=
  ∀ f, r.cs = .char f ∨ r.cs = .escape f → r.scratch = .str f

theorem Reads.wired (h : Reads s r) : r.Wired := by
  intro f hcs
  unfold Reads at h
  rcases hcs with hcs | hcs
  · rw [hcs] at h
    obtain ⟨-, -, -, -, -, hscratch, -⟩ := h
    exact hscratch
  · rw [hcs] at h
    obtain ⟨-, -, -, -, -, hscratch, -⟩ := h
    exact hscratch

/-- The string of `f` is left alone or emptied. -/
def Keeps (f : StrField) (r r' : RestRequest) : Prop :=
  r'.strs f = r.strs f ∨ (r'.strs f).buf = []

theorem act_keeps {a : Action} (ha : a ≠ .addChar) : Keeps f r (r.act b a).1 := by
  have hset : ∀ g, Keeps f r { r with toReqFields := r.setStr g (.assign g.max []) } := by
    intro g
    by_cases hg : f = g
    · subst hg
      right
      simp [ReqFields.setStr, FixedString.assign]
    · exact Or.inl (Function.update_of_ne hg _ _)
  cases a with
  | beginNum => exact Or.inl rfl
  | negate =>
      simp only [act]
      split <;> exact Or.inl rfl
  | addDigit =>
      simp only [act]
      split <;> exact Or.inl rfl
  | beginStr =>
      simp only [act]
      split
      · exact hset _
      · exact Or.inl rfl
  | addChar => exact absurd rfl ha
  | null g =>
      cases g with
      | str g => exact hset g
      | num g => exact Or.inl rfl
      | side => exact Or.inl rfl
      | role => exact Or.inl rfl
  | beginField g => exact Or.inl rfl
  | endStr g => exact Or.inl rfl
  | endNum g =>
      by_cases hneg : g = .state ∧ r.sign < 0
      · rw [act_endNum_negative hneg]
        exact Or.inl rfl
      · rw [act_endNum hneg]
        exact Or.inl rfl
  | endWord x => cases x <;> exact Or.inl rfl

theorem acts_keeps {as : List Action} (has : .addChar ∉ as) : Keeps f r (r.acts b as).1 := by
  induction as generalizing r with
  | nil => exact Or.inl rfl
  | cons a as ih =>
      have ha := act_keeps (r := r) (b := b) (f := f) (fun heq => has (heq ▸ List.mem_cons_self))
      unfold acts
      split
      · next r' hact =>
          rw [hact] at ha
          rcases ih (r := r') (fun hmem => has (List.mem_cons_of_mem a hmem)) with h | h
          · exact ha.imp h.trans (by rw [h]; exact id)
          · exact Or.inr h
      · next r' msg hact =>
          rw [hact] at ha
          exact ha

/-! ### Transitions that add no byte -/

theorem not_mem_ite {p : Prop} [Decidable p] {x y : List Action × Cs} (hx : .addChar ∉ x.1)
    (hy : .addChar ∉ y.1) : .addChar ∉ (if p then x else y).1 := by
  split
  · exact hx
  · exact hy

theorem not_mem_noTrans : .addChar ∉ noTrans.1 := List.not_mem_nil

theorem not_mem_leave {as : List Action} (has : .addChar ∉ as) : .addChar ∉ (leave as b).1 :=
  not_mem_ite has (not_mem_ite has (not_mem_ite has not_mem_noTrans))

theorem not_mem_enter (f : ReqField) : .addChar ∉ (enter b f).1 := by
  cases f with
  | str f => exact not_mem_ite (by simp) not_mem_noTrans
  | num f =>
      exact not_mem_ite (by simp) (not_mem_ite (by simp) (not_mem_ite (by simp) not_mem_noTrans))
  | side => exact not_mem_ite List.not_mem_nil not_mem_noTrans
  | role => exact not_mem_ite List.not_mem_nil not_mem_noTrans

/-- A byte is added only in a string. -/
theorem not_mem_trans {cs : Cs} (hchar : ∀ f, cs ≠ .char f) (hescape : ∀ f, cs ≠ .escape f) :
    .addChar ∉ (trans b cs).1 := by
  have hnil : .addChar ∉ ([] : List Action) := List.not_mem_nil
  cases cs with
  | error => exact not_mem_noTrans
  | start => exact not_mem_ite hnil (not_mem_ite hnil not_mem_noTrans)
  | first => exact not_mem_ite hnil (not_mem_ite hnil (not_mem_ite hnil not_mem_noTrans))
  | key w =>
      refine not_mem_ite ?_ (not_mem_ite hnil not_mem_noTrans)
      split
      · exact hnil
      · exact not_mem_noTrans
  | colon f => exact not_mem_ite hnil (not_mem_ite hnil not_mem_noTrans)
  | value f => exact not_mem_ite hnil (not_mem_ite hnil (not_mem_enter f))
  | null f rest =>
      cases rest with
      | nil => exact not_mem_leave (by simp)
      | cons c rest => exact not_mem_ite hnil not_mem_noTrans
  | char f => exact absurd rfl (hchar f)
  | escape f => exact absurd rfl (hescape f)
  | strEnd f => exact not_mem_leave (by simp)
  | reqDigit f => exact not_mem_ite (by simp) not_mem_noTrans
  | optDigit f => exact not_mem_ite (by simp) (not_mem_leave (by simp))
  | word f w =>
      refine not_mem_ite ?_ (not_mem_ite hnil not_mem_noTrans)
      split
      · exact hnil
      · exact not_mem_noTrans
  | wordEnd x => exact not_mem_leave (by simp)
  | sep => exact not_mem_leave hnil
  | next => exact not_mem_ite hnil (not_mem_ite hnil not_mem_noTrans)
  | done => exact not_mem_ite hnil not_mem_noTrans

/-- So a transition that adds a byte is one of a string, to itself. -/
theorem exists_of_mem_trans {cs : Cs} (h : .addChar ∈ (trans b cs).1) :
    ∃ g, (cs = .char g ∨ cs = .escape g) ∧ trans b cs = ([.addChar], .char g) := by
  by_cases hescape : ∃ g, cs = .escape g
  · obtain ⟨g, rfl⟩ := hescape
    exact ⟨g, Or.inr rfl, rfl⟩
  · by_cases hchar : ∃ g, cs = .char g
    · obtain ⟨g, rfl⟩ := hchar
      refine ⟨g, Or.inl rfl, ?_⟩
      rw [trans] at h ⊢
      split at h
      · cases h
      · next hquote =>
          split at h
          · cases h
          · next hbackslash => rw [if_neg hquote, if_neg hbackslash]
    · exact absurd h (not_mem_trans (fun g hg => hchar ⟨g, hg⟩) (fun g hg => hescape ⟨g, hg⟩))

/-! ### Room -/

/-- A byte is added to the field that the machine writes to, if it has room. -/
theorem step_addChar_of {g : StrField} (hscratch : r.scratch = .str g)
    (htrans : trans b r.cs = ([.addChar], .char g)) :
    (r.step b).1.cs = .char g ∧ ((r.step b).1.strs g).buf = (r.strs g).buf ++ [b] ∧
        (∀ f, f ≠ g → (r.step b).1.strs f = r.strs f) ∨
      (r.step b).1.cs = .error ∧ ∀ f, (r.step b).1.strs f = r.strs f := by
  rw [step_of_trans htrans]
  unfold acts act
  by_cases hroom : (r.strs g).buf.length < g.max
  · left
    simp only [hscratch, hroom, dif_pos]
    refine ⟨rfl, ?_, fun f hf => Function.update_of_ne hf _ _⟩
    simp [acts, ReqFields.setStr, FixedString.push]
  · right
    simp [hscratch, hroom]

/-- Outside its string a field gets no byte. -/
theorem step_keeps (hwired : r.Wired) (hchar : r.cs ≠ .char f) (hescape : r.cs ≠ .escape f) :
    Keeps f r (r.step b).1 := by
  by_cases hmem : .addChar ∈ (trans b r.cs).1
  · obtain ⟨g, hg, htrans⟩ := exists_of_mem_trans hmem
    have hne : f ≠ g := by
      rintro rfl
      exact hg.elim hchar hescape
    rcases step_addChar_of (hwired g hg) htrans with ⟨-, -, hsame⟩ | ⟨-, hsame⟩
    · exact Or.inl (hsame f hne)
    · exact Or.inl (hsame f)
  · rw [step_of_trans rfl]
    exact acts_keeps hmem

/-- A byte that is to come before the string of `f` can go on. -/
def waits (f : StrField) (cs : Cs) : Nat := if cs = .char f then 0 else 1

theorem waits_le (f : StrField) (cs : Cs) : waits f cs ≤ 1 := by
  unfold waits
  split <;> omega

theorem waits_of_ne {cs : Cs} (h : cs ≠ .char f) : waits f cs = 1 := if_neg h

/-- **A byte makes room for no more than itself.** -/
theorem step_rawLength (hwired : r.Wired) (b : Byte) :
    rawLength ((r.step b).1.strs f).buf + waits f (r.step b).1.cs ≤
      rawLength (r.strs f).buf + waits f r.cs + 1 := by
  have hle := waits_le f (r.step b).1.cs
  by_cases hchar : r.cs = .char f
  · have hscratch := hwired f (Or.inl hchar)
    by_cases hquote : b = Ascii.quote
    · have htrans : trans b r.cs = ([], .strEnd f) := by rw [hchar, trans, if_pos hquote]
      rw [step_silent htrans] at hle ⊢
      dsimp only at hle ⊢
      omega
    · by_cases hbackslash : b = Ascii.backslash
      · have htrans : trans b r.cs = ([], .escape f) := by
          rw [hchar, trans, if_neg hquote, if_pos hbackslash]
        rw [step_silent htrans] at hle ⊢
        dsimp only at hle ⊢
        omega
      · have htrans : trans b r.cs = ([.addChar], .char f) := by
          rw [hchar, trans, if_neg hquote, if_neg hbackslash]
        rcases step_addChar_of hscratch htrans with ⟨hcs, hbuf, -⟩ | ⟨hcs, hbuf⟩
        · rw [hbuf, rawLength_append, rawLength_singleton_of_ne hquote hbackslash, hcs, hchar]
          omega
        · rw [hbuf f]
          omega
  · have hwaits := waits_of_ne hchar
    by_cases hescape : r.cs = .escape f
    · have hscratch := hwired f (Or.inr hescape)
      have htrans : trans b r.cs = ([.addChar], .char f) := by rw [hescape]; rfl
      rcases step_addChar_of hscratch htrans with ⟨hcs, hbuf, -⟩ | ⟨hcs, hbuf⟩
      · have hone : waits f (.char f) = 0 := if_pos rfl
        have htwo := rawLength_singleton b
        rw [hbuf, rawLength_append, hcs, hone, hwaits]
        omega
      · rw [hbuf f]
        omega
    · rcases step_keeps (b := b) hwired hchar hescape with h | h
      · rw [h]
        omega
      · rw [h, rawLength_nil]
        omega

/-- **A string that is read as it is written is plain**, and the machine is still in it. -/
theorem plain_of_raw {d : ReqFields} {l : List Byte}
    (hreads : Reads s (inString d f (.assign f.max [])))
    (hbuf : (((inString d f (.assign f.max [])).feed l).strs f).buf = l) :
    Plain l ∧ (inString d f (.assign f.max [])).feed l = inString d f (.assign f.max l) := by
  have hroom : ∀ l, rawLength (((inString d f (.assign f.max [])).feed l).strs f).buf +
      waits f ((inString d f (.assign f.max [])).feed l).cs ≤ l.length := by
    intro l
    induction l using List.reverseRecOn with
    | nil => simp [inString, ReqFields.setStr, FixedString.assign, waits]
    | append_singleton l b ih =>
        have hstep := step_rawLength (f := f) (hreads.feed l).wired b
        rw [feed_append, feed_cons, feed_nil, List.length_append, List.length_singleton]
        omega
  have hle := hroom l
  rw [hbuf] at hle
  have hplain : Plain l := plain_of_rawLength (by omega)
  have hlen : l.length ≤ f.max := by
    rw [← hbuf]
    exact FixedString.len_le _
  exact ⟨hplain, feed_quoted hplain.quoted hlen⟩

/-! ### What follows a string -/

/-- After a quote: a string or a word is complete, a string goes on, or something begins. -/
inductive AfterQuote (r r' : RestRequest) : Prop
  | complete (hstrs : r'.strs = r.strs) (hcs : (∃ g, r'.cs = .strEnd g) ∨ ∃ x, r'.cs = .wordEnd x)
  | char (g : StrField) (hcs : r'.cs = .char g)
  | begins (hcs : r'.cs = .key [] ∨ (∃ g, r'.cs = .colon g) ∨ ∃ g, r'.cs = .word g [])
  | error (hcs : r'.cs = .error)

theorem AfterQuote.of_noTrans (h : trans Ascii.quote r.cs = noTrans) :
    AfterQuote r (r.step Ascii.quote).1 := by
  rw [step_silent h]
  exact .error rfl

theorem afterQuote (hreads : Reads s r) : AfterQuote r (r.step Ascii.quote).1 := by
  have hsilent : ∀ {cs}, trans Ascii.quote r.cs = ([], cs) →
      (r.step Ascii.quote).1.cs = cs ∧ (r.step Ascii.quote).1.strs = r.strs := by
    intro cs h
    rw [step_silent h]
    exact ⟨rfl, rfl⟩
  cases hcs : r.cs with
  | error => exact .of_noTrans (by rw [hcs]; rfl)
  | start => exact .of_noTrans (by rw [hcs]; rfl)
  | first => exact .begins (Or.inl (hsilent (by rw [hcs]; rfl)).1)
  | key w =>
      have htrans : trans Ascii.quote r.cs = trans Ascii.quote (.key w) := by rw [hcs]
      rw [trans, if_pos rfl] at htrans
      split at htrans
      · exact .begins (Or.inr (Or.inl ⟨_, (hsilent htrans).1⟩))
      · exact .of_noTrans htrans
  | colon f => exact .of_noTrans (by rw [hcs]; rfl)
  | value f =>
      cases f with
      | str f =>
          have htrans : trans Ascii.quote r.cs = ([.beginField f, .beginStr], .char f) := by
            rw [hcs]
            rfl
          refine .char f ?_
          rw [step_of_trans htrans]
          rfl
      | num f => exact .of_noTrans (by rw [hcs]; rfl)
      | side => exact .begins (Or.inr (Or.inr ⟨_, (hsilent (by rw [hcs]; rfl)).1⟩))
      | role => exact .begins (Or.inr (Or.inr ⟨_, (hsilent (by rw [hcs]; rfl)).1⟩))
  | null f rest =>
      cases rest with
      | nil => exact .of_noTrans (by rw [hcs]; rfl)
      | cons c rest =>
          unfold Reads at hreads
          rw [hcs] at hreads
          obtain ⟨-, -, t, -, ht, -⟩ := hreads
          have hc : c ∈ chars ['n', 'u', 'l', 'l'] := by
            rw [← ht]
            simp
          have hne : Ascii.quote ≠ c := by
            rintro rfl
            revert hc
            decide
          exact .of_noTrans (by rw [hcs, trans, if_neg hne])
  | char f =>
      have h := hsilent (show trans Ascii.quote r.cs = ([], .strEnd f) by rw [hcs]; rfl)
      exact .complete h.2 (Or.inl ⟨f, h.1⟩)
  | escape f =>
      have htrans : trans Ascii.quote r.cs = ([.addChar], .char f) := by rw [hcs]; rfl
      rcases step_addChar_of (hreads.wired f (Or.inr hcs)) htrans with ⟨h, -⟩ | ⟨h, -⟩
      · exact .char f h
      · exact .error h
  | strEnd f => exact .of_noTrans (by rw [hcs]; rfl)
  | reqDigit f => exact .of_noTrans (by rw [hcs]; rfl)
  | optDigit f => exact .of_noTrans (by rw [hcs]; rfl)
  | word f w =>
      have htrans : trans Ascii.quote r.cs = trans Ascii.quote (.word f w) := by rw [hcs]
      rw [trans, if_pos rfl] at htrans
      split at htrans
      · exact .complete (hsilent htrans).2 (Or.inr ⟨_, (hsilent htrans).1⟩)
      · exact .of_noTrans htrans
  | wordEnd x => exact .of_noTrans (by rw [hcs]; rfl)
  | sep => exact .of_noTrans (by rw [hcs]; rfl)
  | next => exact .begins (Or.inl (hsilent (by rw [hcs]; rfl)).1)
  | done => exact .of_noTrans (by rw [hcs]; rfl)

/-- A quote and the byte that is to follow a value: the value is complete, or they are bytes
of a string. -/
theorem feed_quote {c : Byte} (hreads : Reads s r) (hc : c = Ascii.comma ∨ c = Ascii.closeBrace) :
    (r.feed [Ascii.quote, c]).cs = afterValue c ∧ (r.feed [Ascii.quote, c]).strs = r.strs ∨
      (∃ g, (r.feed [Ascii.quote, c]).cs = .char g) ∨ (r.feed [Ascii.quote, c]).cs = .error := by
  have hwired : (r.step Ascii.quote).1.Wired := (hreads.step Ascii.quote).wired
  rw [feed_cons, feed_cons, feed_nil]
  cases afterQuote hreads with
  | complete hstrs hcs =>
      have hpending : ∃ d : ReqFields, d.strs = r.strs ∧ (r.step Ascii.quote).1.Pending d := by
        rcases hcs with ⟨g, hcs⟩ | ⟨x, hcs⟩
        · refine ⟨(r.step Ascii.quote).1.endStr g, hstrs, ?_⟩
          exact pending_of (a := .endStr g) _ (fun b _ => by rw [hcs]; rfl) (fun b cs => rfl)
        · refine ⟨(r.step Ascii.quote).1.endWord x, ?_, ?_⟩
          · rw [← hstrs]
            cases x <;> rfl
          · exact pending_of (a := .endWord x) _ (fun b _ => by rw [hcs]; rfl) (fun b cs => rfl)
      obtain ⟨d, hd, hpending⟩ := hpending
      obtain ⟨hfields, hafter⟩ := hpending c (Or.inr hc)
      left
      rw [hfields]
      exact ⟨hafter, hd⟩
  | char g hcs =>
      have htrans : trans c (r.step Ascii.quote).1.cs = ([.addChar], .char g) := by
        rw [hcs]
        rcases hc with rfl | rfl <;> rfl
      right
      rcases step_addChar_of (hwired g (Or.inl hcs)) htrans with ⟨h, -⟩ | ⟨h, -⟩
      · exact Or.inl ⟨g, h⟩
      · exact Or.inr h
  | begins hcs =>
      have htrans : trans c (r.step Ascii.quote).1.cs = noTrans := by
        rcases hcs with hcs | ⟨g, hcs⟩ | ⟨g, hcs⟩
        · rw [hcs]
          rcases hc with rfl | rfl <;> rfl
        · rw [hcs]
          rcases hc with rfl | rfl <;> rfl
        · rw [hcs]
          rcases hc with rfl | rfl <;> cases g <;> rfl
      rw [step_silent htrans]
      exact Or.inr (Or.inr rfl)
  | error hcs =>
      rw [step_error hcs, hcs]
      exact Or.inr (Or.inr rfl)

/-- **Before a quote and a brace that end the object, the strings are all read.** -/
theorem strs_of_done (hreads : Reads s r)
    (hdone : (r.feed [Ascii.quote, Ascii.closeBrace]).cs = .done) :
    (r.feed [Ascii.quote, Ascii.closeBrace]).strs = r.strs := by
  rcases feed_quote hreads (Or.inr rfl) with ⟨-, hstrs⟩ | ⟨g, hcs⟩ | hcs
  · exact hstrs
  · rw [hcs] at hdone
    cases hdone
  · rw [hcs] at hdone
    cases hdone

/-- **Before a quote and the next key, the strings are all read**: what else the quote could
be has no place for the key. -/
theorem feed_next {c : Byte} {buf : List Byte} (hreads : Reads s r) (hc : ¬ Leaves c)
    (hok : (r.feed (Ascii.quote :: Ascii.comma :: Ascii.quote :: c :: buf)).cs ≠ .error) :
    (r.feed [Ascii.quote, Ascii.comma]).cs = .next ∧
      (r.feed [Ascii.quote, Ascii.comma]).strs = r.strs := by
  have hsplit : Ascii.quote :: Ascii.comma :: Ascii.quote :: c :: buf =
      [Ascii.quote, Ascii.comma] ++ (Ascii.quote :: c :: buf) := rfl
  rw [hsplit, feed_append] at hok
  rcases feed_quote hreads (Or.inl rfl) with h | ⟨g, hcs⟩ | hcs
  · exact h
  · -- The second quote ends the string, and the key stands where a comma should.
    have hquote : trans Ascii.quote (r.feed [Ascii.quote, Ascii.comma]).cs = ([], .strEnd g) := by
      rw [hcs]
      rfl
    have hkey : trans c (.strEnd g) = noTrans := by
      unfold Leaves at hc
      simp only [not_or] at hc
      rw [trans, leave, if_neg hc.1, if_neg hc.2.1, if_neg hc.2.2]
    rw [feed_cons, step_silent hquote, feed_cons, step_silent hkey, feed_error rfl] at hok
    exact absurd rfl hok
  · rw [feed_error hcs] at hok
    exact absurd hcs hok

/-! ### Objects of raw strings -/

/-- A key and the quote that begins its string. -/
def openText (f : StrField) : List Byte :=
  Ascii.quote :: (ReqField.str f).key ++ [Ascii.quote, Ascii.colon, Ascii.quote]

/-- A key with its string, after another string. -/
def nextText (p : StrField × List Byte) : List Byte :=
  [Ascii.quote, Ascii.comma] ++ openText p.1 ++ p.2

/-- The keys with their strings as they are, up to the quote that ends the last of them. -/
def rawText (p : StrField × List Byte) (ps : List (StrField × List Byte)) : List Byte :=
  openText p.1 ++ p.2 ++ ps.flatMap nextText

theorem keyText (f : ReqField) :
    KeyText f (Ascii.quote :: f.key ++ [Ascii.quote, Ascii.colon]) := by
  have hlower : f.key.map lower = f.key := by
    cases f with
    | str f => cases f <;> decide
    | num f => cases f <;> decide
    | side => decide
    | role => decide
  have h : KeyText f _ := .mk hlower Spaces.nil Spaces.nil
  rwa [List.append_assoc] at h

theorem feed_openText (hopen : trans Ascii.quote r.cs = ([], .key [])) :
    r.feed (openText f) = inString r.toReqFields f (.assign f.max []) := by
  have hsplit : openText f =
      (Ascii.quote :: (ReqField.str f).key ++ [Ascii.quote, Ascii.colon]) ++ [Ascii.quote] := by
    simp [openText]
  rw [hsplit, feed_append, feed_key hopen (keyText (.str f))]
  rfl

/-- The string of a field, and the strings of the others. -/
theorem inString_strs_of_ne {d : ReqFields} {g : StrField} {s : FixedString f.max} (hg : g ≠ f) :
    (inString d f s).strs g = d.strs g := Function.update_of_ne hg _ _

/-- A key begins with a letter. -/
theorem exists_key (f : StrField) :
    ∃ c w, ¬ Leaves c ∧ (ReqField.str f).key = c :: w := by
  have h : ∀ f : StrField, ∃ c w, ¬ (isSpace c = true ∨ c = Ascii.comma ∨ c = Ascii.closeBrace) ∧
      (ReqField.str f).key = c :: w := by
    intro f
    cases f <;> exact ⟨_, _, by decide, rfl⟩
  exact h f

/-- A string after another. -/
theorem plain_of_nextText {l : List Byte} (hreads : Reads s r)
    (hok : (r.feed (nextText (f, l))).cs ≠ .error)
    (hbuf : ((r.feed (nextText (f, l))).strs f).buf = l) :
    Plain l ∧ ∀ g, g ≠ f → (r.feed (nextText (f, l))).strs g = r.strs g := by
  have hnext : (r.feed [Ascii.quote, Ascii.comma]).cs = .next ∧
      (r.feed [Ascii.quote, Ascii.comma]).strs = r.strs := by
    obtain ⟨c, w, hc, hkey⟩ := exists_key f
    have hsplit : nextText (f, l) = Ascii.quote :: Ascii.comma :: Ascii.quote :: c ::
        (w ++ [Ascii.quote, Ascii.colon, Ascii.quote] ++ l) := by
      simp [nextText, openText, hkey]
    rw [hsplit] at hok
    exact feed_next hreads hc hok
  have hopen := feed_openText (r := r.feed [Ascii.quote, Ascii.comma]) (f := f)
    (by rw [hnext.1]; rfl)
  have hfeed : r.feed (nextText (f, l)) =
      (inString (r.feed [Ascii.quote, Ascii.comma]).toReqFields f (.assign f.max [])).feed l := by
    rw [nextText, feed_append, feed_append, hopen]
  have hreads' := (hreads.feed [Ascii.quote, Ascii.comma]).feed (openText f)
  rw [hopen] at hreads'
  rw [hfeed] at hbuf ⊢
  obtain ⟨hplain, hin⟩ := plain_of_raw hreads' hbuf
  refine ⟨hplain, fun g hg => ?_⟩
  rw [hin, inString_strs_of_ne hg, hnext.2]

/-- The strings after another: from the last, as each is at the end what it was before those
that come after it. -/
theorem plain_of_nexts {ps : List (StrField × List Byte)} (hreads : Reads s r)
    (hnodup : (ps.map Prod.fst).Nodup) (hok : (r.feed (ps.flatMap nextText)).cs ≠ .error)
    (hbuf : ∀ p ∈ ps, ((r.feed (ps.flatMap nextText)).strs p.1).buf = p.2) :
    (∀ p ∈ ps, Plain p.2) ∧
      ∀ g, g ∉ ps.map Prod.fst → (r.feed (ps.flatMap nextText)).strs g = r.strs g := by
  induction ps generalizing r s with
  | nil => exact ⟨nofun, fun g _ => rfl⟩
  | cons p ps ih =>
      obtain ⟨f, l⟩ := p
      rw [List.map_cons, List.nodup_cons] at hnodup
      rw [List.flatMap_cons, feed_append] at hok hbuf ⊢
      obtain ⟨hplains, hsame⟩ := ih (hreads.feed (nextText (f, l))) hnodup.2 hok
        (fun p hp => hbuf p (List.mem_cons_of_mem _ hp))
      have hok' : (r.feed (nextText (f, l))).cs ≠ .error := by
        intro herror
        rw [feed_error herror] at hok
        exact hok herror
      have hlast : ((r.feed (nextText (f, l))).strs f).buf = l := by
        rw [← hsame f hnodup.1]
        exact hbuf (f, l) List.mem_cons_self
      obtain ⟨hplain, hrest⟩ := plain_of_nextText hreads hok' hlast
      refine ⟨fun p hp => ?_, fun g hg => ?_⟩
      · rcases List.mem_cons.mp hp with rfl | hp
        · exact hplain
        · exact hplains p hp
      · rw [List.map_cons, List.mem_cons, not_or] at hg
        rw [hsame g hg.2, hrest g hg.1]

/-- **Strings that are read as they are written are plain.** -/
theorem plain_of_rawText {p : StrField × List Byte} {ps : List (StrField × List Byte)}
    (hreads : Reads s r) (hcs : r.cs = .first) (hnodup : ((p :: ps).map Prod.fst).Nodup)
    (hok : (r.feed (rawText p ps)).cs ≠ .error)
    (hbuf : ∀ q ∈ p :: ps, ((r.feed (rawText p ps)).strs q.1).buf = q.2) :
    ∀ q ∈ p :: ps, Plain q.2 := by
  obtain ⟨f, l⟩ := p
  have hopen := feed_openText (r := r) (f := f) (by rw [hcs]; rfl)
  have hreads' := hreads.feed (openText f)
  rw [List.map_cons, List.nodup_cons] at hnodup
  rw [rawText, feed_append, feed_append, hopen] at hok hbuf
  rw [hopen] at hreads'
  obtain ⟨hplains, hsame⟩ := plain_of_nexts (hreads'.feed l) hnodup.2 hok
    (fun q hq => hbuf q (List.mem_cons_of_mem _ hq))
  have hfirst := hbuf (f, l) List.mem_cons_self
  rw [hsame f hnodup.1] at hfirst
  intro q hq
  rcases List.mem_cons.mp hq with rfl | hq
  · exact (plain_of_raw hreads' hfirst).1
  · exact hplains q hq

/-- The same of an object whose tail leaves the strings alone if it ends the object. -/
theorem plain_of_object {p : StrField × List Byte} {ps : List (StrField × List Byte)}
    {tail : List Byte} (hcs : r.cs = .start) (hnodup : ((p :: ps).map Prod.fst).Nodup)
    (hdone : (r.feed (Ascii.openBrace :: rawText p ps ++ tail)).cs = .done)
    (hbuf : ∀ q ∈ p :: ps,
      ((r.feed (Ascii.openBrace :: rawText p ps ++ tail)).strs q.1).buf = q.2)
    (htail : ∀ {s r}, Reads s r → (r.feed tail).cs = .done → (r.feed tail).strs = r.strs) :
    ∀ q ∈ p :: ps, Plain q.2 := by
  have hopen : r.feed [Ascii.openBrace] = { r with cs := .first } :=
    feed_open hcs Spaces.nil Spaces.nil
  have hreads : Reads [Ascii.openBrace] { r with cs := .first } :=
    ⟨[], [], Spaces.nil, Spaces.nil, rfl⟩
  have hfeed : r.feed (Ascii.openBrace :: rawText p ps ++ tail) =
      ({ r with cs := .first }.feed (rawText p ps)).feed tail := by
    rw [List.cons_append, ← List.singleton_append, feed_append, hopen, feed_append]
  rw [hfeed] at hdone hbuf
  rw [htail (hreads.feed _) hdone] at hbuf
  refine plain_of_rawText hreads rfl hnodup (fun herror => ?_) hbuf
  rw [feed_error herror, herror] at hdone
  cases hdone

theorem valueText {l : List Byte} (hl : Plain l) (hlen : l.length ≤ f.max) :
    ValueText (.str f) (Ascii.quote :: l ++ [Ascii.quote]) (.str l) := .str hl.quoted hlen

/-- **Plain strings are the pairs of an object.** -/
theorem members_of_plain (p : StrField × List Byte) (ps : List (StrField × List Byte))
    (hplain : ∀ q ∈ p :: ps, Plain q.2) (hlen : ∀ q ∈ p :: ps, q.2.length ≤ q.1.max) :
    Members (rawText p ps ++ [Ascii.quote])
      ((p :: ps).map (fun q => (ReqField.str q.1, Val.str q.2))) := by
  induction ps using List.reverseRecOn with
  | nil =>
      have hmem := List.mem_cons_self (a := p) (l := [])
      have h := Members.one (keyText (.str p.1)) (valueText (hplain p hmem) (hlen p hmem))
      simpa [rawText, openText] using h
  | append_singleton ps q ih =>
      have hmem : q ∈ p :: (ps ++ [q]) := by simp
      have hsub : ∀ q' ∈ p :: ps, q' ∈ p :: (ps ++ [q]) := by
        intro q' hq'
        simp only [List.mem_cons, List.mem_append] at hq' ⊢
        tauto
      have hms := ih (fun q' hq' => hplain q' (hsub q' hq')) (fun q' hq' => hlen q' (hsub q' hq'))
      have h := hms.snoc Spaces.nil Spaces.nil (keyText (.str q.1))
        (valueText (hplain q hmem) (hlen q hmem))
      simpa [rawText, nextText, openText] using h

end RestRequest

end Swirly
