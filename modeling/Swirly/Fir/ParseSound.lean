import Swirly.Fir.ParseComplete

/-!
# Swirly.Fir.ParseSound

**The parser accepts nothing but what the grammar has.** `Reads s r` says of each state of
the machine what the text `s` is that leads to it: how much of an object it has, and which
part it is in. Every byte preserves this (`Reads.step`), and a text that leads to the final
state is one of the grammar. With the other direction, `parse` decides the grammar, and
every key has its last value (`parse_decides`).
-/

namespace Swirly.RestRequest

/-- What is read in each state. -/
def Reads (s : List Byte) (r : RestRequest) : Prop :=
  match r.cs with
  | .error => True
  | .start => Spaces s
  | .first => ∃ ws ws', Spaces ws ∧ Spaces ws' ∧ s = ws ++ Ascii.openBrace :: ws'
  | .key w => ∃ s₀ ps k, KeyAt s₀ ps ∧ k.map lower = w ∧ s = s₀ ++ Ascii.quote :: k
  | .colon f => ∃ s₀ ps k ws, KeyAt s₀ ps ∧ k.map lower = f.key ∧ Spaces ws ∧
      s = s₀ ++ (Ascii.quote :: k ++ Ascii.quote :: ws)
  | .value f => ∃ ps, ValueAt f s ps
  | .null f rest => ∃ s₀ ps t, ValueAt f s₀ ps ∧ t ++ rest = chars ['n', 'u', 'l', 'l'] ∧
      s = s₀ ++ t
  | .char f => ∃ s₀ ps raw, ValueAt (.str f) s₀ ps ∧ Quoted raw (r.strs f).buf ∧
      r.scratch = .str f ∧ s = s₀ ++ Ascii.quote :: raw
  | .escape f => ∃ s₀ ps raw, ValueAt (.str f) s₀ ps ∧ Quoted raw (r.strs f).buf ∧
      r.scratch = .str f ∧ s = s₀ ++ (Ascii.quote :: raw ++ [Ascii.backslash])
  | .strEnd f => ∃ s₀ ps t l, ValueAt (.str f) s₀ ps ∧ ValueText (.str f) t (.str l) ∧
      s = s₀ ++ t
  | .reqDigit f => ∃ s₀ ps sign n, ValueAt (.num f) s₀ ps ∧
      r.scratch = .num (Sign.factor sign) n ∧ s = s₀ ++ sign.text
  | .optDigit f => ∃ s₀ ps sign ds n, ValueAt (.num f) s₀ ps ∧ ds ≠ [] ∧
      (∀ b ∈ ds, isDigit b = true) ∧ r.scratch = .num (Sign.factor sign) n ∧
      s = s₀ ++ (sign.text ++ ds)
  | .word f w => ∃ s₀ ps t, ValueAt f s₀ ps ∧ t.map lower = w ∧ s = s₀ ++ Ascii.quote :: t
  | .wordEnd x => ∃ s₀ ps t, ValueAt x.field s₀ ps ∧ ValueText x.field t (.word x) ∧ s = s₀ ++ t
  | .sep => ∃ s₀ ps ws, MembersAt s₀ ps ∧ Spaces ws ∧ s = s₀ ++ ws
  | .next => ∃ s₀ ps ws ws', MembersAt s₀ ps ∧ Spaces ws ∧ Spaces ws' ∧
      s = s₀ ++ ws ++ Ascii.comma :: ws'
  | .done => ∃ ps, Doc s ps

section Step

variable {s s₀ t : List Byte} {r : RestRequest} {b : Byte} {ps : List (ReqField × Val)}
  {f : ReqField}

theorem Reads.of_error (h : r.cs = .error) : Reads s r := by
  unfold Reads
  rw [h]
  trivial

theorem Reads.of_noTrans (h : trans b r.cs = noTrans) : Reads s (r.step b).1 := by
  rw [step_silent h]
  exact Reads.of_error rfl

/-- One branch of a state, on bytes that lead on with no action. -/
theorem Reads.of_ite {p : Prop} [Decidable p] {cs : Cs} {rest : List Action × Cs}
    (htrans : trans b r.cs = if p then ([], cs) else rest) (hthen : p → Reads s { r with cs })
    (helse : ¬ p → trans b r.cs = rest → Reads s (r.step b).1) : Reads s (r.step b).1 := by
  by_cases hp : p
  · rw [if_pos hp] at htrans
    rw [step_silent htrans]
    exact hthen hp
  · rw [if_neg hp] at htrans
    exact helse hp htrans

/-- The byte after a value. -/
theorem Reads.step_leave (as : List Action) (h : MembersAt s ps) {ws : List Byte} (hws : Spaces ws)
    (htrans : trans b r.cs = leave as b)
    (hacts : ∀ cs, ({ r with cs }.acts b as).1.cs = cs) :
    Reads (s ++ ws ++ [b]) (r.step b).1 := by
  have hstep : ∀ cs, trans b r.cs = (as, cs) → (r.step b).1.cs = cs := by
    intro cs h
    rw [step_of_trans h]
    exact hacts cs
  rw [leave] at htrans
  by_cases hspace : isSpace b = true
  · rw [if_pos hspace] at htrans
    unfold Reads
    rw [hstep _ htrans]
    exact ⟨s, ps, ws ++ [b], h, hws.snoc hspace, List.append_assoc _ _ _⟩
  · rw [if_neg hspace] at htrans
    by_cases hcomma : b = Ascii.comma
    · rw [if_pos hcomma] at htrans
      unfold Reads
      rw [hstep _ htrans, hcomma]
      exact ⟨s, ps, ws, [], h, hws, Spaces.nil, rfl⟩
    · rw [if_neg hcomma] at htrans
      by_cases hclose : b = Ascii.closeBrace
      · rw [if_pos hclose] at htrans
        unfold Reads
        rw [hstep _ htrans, hclose]
        exact ⟨ps, h.doc hws Spaces.nil⟩
      · rw [if_neg hclose] at htrans
        exact Reads.of_noTrans htrans

theorem Reads.step_start (h : Spaces s) (hcs : r.cs = .start) : Reads (s ++ [b]) (r.step b).1 := by
  have htrans : trans b r.cs = trans b .start := by rw [hcs]
  rw [trans] at htrans
  refine Reads.of_ite htrans (fun hspace => h.snoc hspace) (fun _ htrans => ?_)
  refine Reads.of_ite htrans (fun hopen => ?_) (fun _ htrans => Reads.of_noTrans htrans)
  rw [hopen]
  exact ⟨s, [], h, Spaces.nil, rfl⟩

theorem Reads.step_first {ws ws' : List Byte} (hws : Spaces ws) (hws' : Spaces ws')
    (hcs : r.cs = .first) :
    Reads (ws ++ Ascii.openBrace :: ws' ++ [b]) (r.step b).1 := by
  have htrans : trans b r.cs = trans b .first := by rw [hcs]
  rw [trans] at htrans
  refine Reads.of_ite htrans (fun hspace => ?_) (fun _ htrans =>
    Reads.of_ite htrans (fun hquote => ?_) (fun _ htrans =>
      Reads.of_ite htrans (fun hclose => ?_) (fun _ htrans => Reads.of_noTrans htrans)))
  · exact ⟨ws, ws' ++ [b], hws, hws'.snoc hspace, by simp⟩
  · rw [hquote]
    exact ⟨_, [], [], .first hws hws', rfl, rfl⟩
  · rw [hclose]
    exact ⟨[], .empty hws hws' Spaces.nil⟩

/-- A key goes on, or it ends as the key of a field. -/
theorem Reads.step_key {k : List Byte} (h : KeyAt s₀ ps) (hcs : r.cs = .key (k.map lower)) :
    Reads (s₀ ++ Ascii.quote :: k ++ [b]) (r.step b).1 := by
  have htrans : trans b r.cs = trans b (.key (k.map lower)) := by rw [hcs]
  rw [trans] at htrans
  by_cases hquote : b = Ascii.quote
  · rw [if_pos hquote] at htrans
    cases hfind : ReqField.all.find? (fun f => f.key = k.map lower) with
    | none =>
        rw [hfind] at htrans
        exact Reads.of_noTrans htrans
    | some f =>
        have hkey : f.key = k.map lower := by simpa using List.find?_some hfind
        rw [hfind] at htrans
        rw [step_silent htrans, hquote]
        exact ⟨s₀, ps, k, [], h, hkey.symm, Spaces.nil, by simp⟩
  · rw [if_neg hquote] at htrans
    split at htrans
    · rw [step_silent htrans]
      exact ⟨s₀, ps, k ++ [b], h, by simp, by simp⟩
    · exact Reads.of_noTrans htrans

theorem Reads.step_colon {k ws : List Byte} (h : KeyAt s₀ ps) (hk : k.map lower = f.key)
    (hws : Spaces ws) (hcs : r.cs = .colon f) :
    Reads (s₀ ++ (Ascii.quote :: k ++ Ascii.quote :: ws) ++ [b]) (r.step b).1 := by
  have htrans : trans b r.cs = trans b (.colon f) := by rw [hcs]
  rw [trans] at htrans
  refine Reads.of_ite htrans (fun hspace => ?_) (fun _ htrans =>
    Reads.of_ite htrans (fun hcolon => ?_) (fun _ htrans => Reads.of_noTrans htrans))
  · exact ⟨s₀, ps, k, ws ++ [b], h, hk, hws.snoc hspace, by simp⟩
  · rw [hcolon, List.append_assoc]
    exact ⟨ps, .mk h (.mk hk hws Spaces.nil)⟩

/-! ### Values -/

theorem Reads.enter_str {f : StrField} (h : ValueAt (.str f) s ps)
    (htrans : trans b r.cs = enter b (.str f)) : Reads (s ++ [b]) (r.step b).1 := by
  rw [enter] at htrans
  by_cases hquote : b = Ascii.quote
  · rw [if_pos hquote] at htrans
    have hempty : ((r.step b).1.strs f).buf = [] := by
      rw [step_of_trans htrans]
      unfold acts act
      simp [acts, act, ReqFields.setStr, FixedString.assign]
    have hraw : Quoted [] ((r.step b).1.strs f).buf := hempty ▸ .nil
    rw [step_of_trans htrans] at hraw ⊢
    rw [hquote] at hraw ⊢
    exact ⟨s, ps, [], h, hraw, rfl, rfl⟩
  · rw [if_neg hquote] at htrans
    exact Reads.of_noTrans htrans

theorem Reads.enter_num {f : NumField} (h : ValueAt (.num f) s ps)
    (htrans : trans b r.cs = enter b (.num f)) : Reads (s ++ [b]) (r.step b).1 := by
  rw [enter] at htrans
  by_cases hminus : b = Ascii.minus
  · rw [if_pos hminus] at htrans
    rw [step_of_trans htrans, hminus]
    exact ⟨s, ps, .minus, 0, h, rfl, rfl⟩
  · rw [if_neg hminus] at htrans
    by_cases hplus : b = Ascii.plus
    · rw [if_pos hplus] at htrans
      rw [step_of_trans htrans, hplus]
      exact ⟨s, ps, .plus, 0, h, rfl, rfl⟩
    · rw [if_neg hplus] at htrans
      by_cases hdigit : isDigit b = true
      · rw [if_pos hdigit] at htrans
        rw [step_of_trans htrans]
        exact ⟨s, ps, .none, [b], _, h, by simp, by simpa using hdigit, rfl, rfl⟩
      · rw [if_neg hdigit] at htrans
        exact Reads.of_noTrans htrans

theorem Reads.enter_word (h : ValueAt f s ps)
    (htrans : trans b r.cs = if b = Ascii.quote then ([], .word f []) else noTrans) :
    Reads (s ++ [b]) (r.step b).1 := by
  refine Reads.of_ite htrans (fun hquote => ?_) (fun _ htrans => Reads.of_noTrans htrans)
  rw [hquote]
  exact ⟨s, ps, [], h, rfl, rfl⟩

theorem Reads.step_value (h : ValueAt f s ps) (hcs : r.cs = .value f) :
    Reads (s ++ [b]) (r.step b).1 := by
  have htrans : trans b r.cs = trans b (.value f) := by rw [hcs]
  rw [trans] at htrans
  refine Reads.of_ite htrans (fun hspace => ?_) (fun _ htrans =>
    Reads.of_ite htrans (fun hnull => ?_) (fun _ htrans => ?_))
  · exact ⟨ps, h.space hspace⟩
  · rw [hnull]
    exact ⟨s, ps, [110], h, rfl, rfl⟩
  · cases f with
    | str f => exact Reads.enter_str h htrans
    | num f => exact Reads.enter_num h htrans
    | side => exact Reads.enter_word h htrans
    | role => exact Reads.enter_word h htrans

theorem Reads.step_null {rest : List Byte} (h : ValueAt f s₀ ps)
    (ht : t ++ rest = chars ['n', 'u', 'l', 'l']) (hcs : r.cs = .null f rest) :
    Reads (s₀ ++ t ++ [b]) (r.step b).1 := by
  cases rest with
  | nil =>
      rw [List.append_nil] at ht
      have hmembers := h.members (ht ▸ ValueText.null f)
      have hread := Reads.step_leave (b := b) [.null f] hmembers Spaces.nil
        (by rw [hcs]; rfl) (fun cs => rfl)
      rwa [List.append_nil] at hread
  | cons c rest =>
      have htrans : trans b r.cs = trans b (.null f (c :: rest)) := by rw [hcs]
      rw [trans] at htrans
      refine Reads.of_ite htrans (fun hc => ?_) (fun _ htrans => Reads.of_noTrans htrans)
      rw [hc]
      exact ⟨s₀, ps, t ++ [c], h, by simpa using ht, by simp⟩

/-- A byte of a string: there is room for it, or the parse ends. -/
theorem Reads.addChar {f : StrField} {raw : List Byte} (h : ValueAt (.str f) s₀ ps)
    (hscratch : r.scratch = .str f) (htrans : trans b r.cs = ([.addChar], .char f))
    (hraw : Quoted raw ((r.strs f).buf ++ [b])) :
    Reads (s₀ ++ Ascii.quote :: raw) (r.step b).1 := by
  by_cases hroom : (r.strs f).buf.length < f.max
  · have hbuf : ((r.step b).1.strs f).buf = (r.strs f).buf ++ [b] := by
      rw [step_of_trans htrans]
      unfold acts act
      simp [hscratch, hroom, acts, ReqFields.setStr, FixedString.push]
    have hcs : (r.step b).1.cs = .char f ∧ (r.step b).1.scratch = .str f := by
      rw [step_of_trans htrans]
      unfold acts act
      simp [hscratch, hroom, acts]
    unfold Reads
    rw [hcs.1]
    exact ⟨s₀, ps, raw, h, hbuf ▸ hraw, hcs.2, rfl⟩
  · refine Reads.of_error ?_
    rw [step_of_trans htrans]
    unfold acts act
    simp [hscratch, hroom]

theorem Reads.step_char {f : StrField} {raw : List Byte} (h : ValueAt (.str f) s₀ ps)
    (hraw : Quoted raw (r.strs f).buf) (hscratch : r.scratch = .str f) (hcs : r.cs = .char f) :
    Reads (s₀ ++ Ascii.quote :: raw ++ [b]) (r.step b).1 := by
  have htrans : trans b r.cs = trans b (.char f) := by rw [hcs]
  rw [trans] at htrans
  refine Reads.of_ite htrans (fun hquote => ?_) (fun hquote htrans =>
    Reads.of_ite htrans (fun hbackslash => ?_) (fun hbackslash htrans => ?_))
  · rw [hquote, List.append_assoc]
    exact ⟨s₀, ps, _, _, h, .str hraw (r.strs f).len_le, rfl⟩
  · rw [hbackslash, List.append_assoc]
    exact ⟨s₀, ps, raw, h, hraw, hscratch, rfl⟩
  · rw [List.append_assoc, List.cons_append]
    exact Reads.addChar h hscratch htrans (hraw.char hquote hbackslash)

theorem Reads.step_escape {f : StrField} {raw : List Byte} (h : ValueAt (.str f) s₀ ps)
    (hraw : Quoted raw (r.strs f).buf) (hscratch : r.scratch = .str f) (hcs : r.cs = .escape f) :
    Reads (s₀ ++ (Ascii.quote :: raw ++ [Ascii.backslash]) ++ [b]) (r.step b).1 := by
  have htrans : trans b r.cs = ([.addChar], .char f) := by rw [hcs]; rfl
  have hread := Reads.addChar h hscratch htrans hraw.escape
  simpa using hread

theorem Reads.step_reqDigit {f : NumField} {sign : Sign} {n : Nat} (h : ValueAt (.num f) s₀ ps)
    (hscratch : r.scratch = .num sign.factor n) (hcs : r.cs = .reqDigit f) :
    Reads (s₀ ++ sign.text ++ [b]) (r.step b).1 := by
  have htrans : trans b r.cs = trans b (.reqDigit f) := by rw [hcs]
  rw [trans] at htrans
  by_cases hdigit : isDigit b = true
  · rw [if_pos hdigit] at htrans
    rw [step_addDigit htrans hscratch, List.append_assoc]
    exact ⟨s₀, ps, sign, [b], _, h, by simp, by simpa using hdigit, rfl, rfl⟩
  · rw [if_neg hdigit] at htrans
    exact Reads.of_noTrans htrans

/-- A number goes on, or it is left; a state without a minus sign. -/
theorem Reads.step_optDigit {f : NumField} {sign : Sign} {ds : List Byte} {n : Nat}
    (h : ValueAt (.num f) s₀ ps) (hne : ds ≠ []) (hds : ∀ b ∈ ds, isDigit b = true)
    (hscratch : r.scratch = .num sign.factor n) (hcs : r.cs = .optDigit f) :
    Reads (s₀ ++ (sign.text ++ ds) ++ [b]) (r.step b).1 := by
  have htrans : trans b r.cs = trans b (.optDigit f) := by rw [hcs]
  rw [trans] at htrans
  by_cases hdigit : isDigit b = true
  · rw [if_pos hdigit] at htrans
    rw [step_addDigit htrans hscratch, List.append_assoc, List.append_assoc]
    refine ⟨s₀, ps, sign, ds ++ [b], _, h, by simp, fun c hc => ?_, rfl, rfl⟩
    rcases List.mem_append.mp hc with hc | hc
    · exact hds c hc
    · rw [List.mem_singleton.mp hc]
      exact hdigit
  · rw [if_neg hdigit] at htrans
    have hsign : r.sign = sign.factor := by
      unfold RestRequest.sign
      rw [hscratch]
    by_cases hneg : f = .state ∧ sign.factor < 0
    · have herror : ∀ cs, ({ r with cs }.acts b [.endNum f]).1.cs = .error := by
        intro cs
        unfold acts
        rw [act_endNum_negative (r := { r with cs }) (hsign ▸ hneg)]
      refine Reads.of_error ?_
      rw [leave] at htrans
      split at htrans
      · rw [step_of_trans htrans]
        exact herror _
      · split at htrans
        · rw [step_of_trans htrans]
          exact herror _
        · split at htrans
          · rw [step_of_trans htrans]
            exact herror _
          · rw [step_silent htrans]
    · have hstate : f = .state → sign ≠ .minus := by
        rintro hf rfl
        exact hneg ⟨hf, by decide⟩
      have hmembers := h.members (.num hne hds hstate)
      have hread := Reads.step_leave (b := b) [.endNum f] hmembers Spaces.nil htrans
        (fun cs => by
          unfold acts
          rw [act_endNum (r := { r with cs }) (hsign ▸ hneg)]
          rfl)
      rwa [List.append_nil] at hread

theorem Reads.step_word {w : List Byte} (h : ValueAt f s₀ ps) (ht : t.map lower = w)
    (hcs : r.cs = .word f w) : Reads (s₀ ++ Ascii.quote :: t ++ [b]) (r.step b).1 := by
  have htrans : trans b r.cs = trans b (.word f w) := by rw [hcs]
  rw [trans] at htrans
  by_cases hquote : b = Ascii.quote
  · rw [if_pos hquote] at htrans
    cases hfind : Word.all.find? (fun x => x.field = f ∧ x.text = w) with
    | none =>
        rw [hfind] at htrans
        exact Reads.of_noTrans htrans
    | some x =>
        obtain ⟨rfl, hx⟩ : x.field = f ∧ x.text = w := by simpa using List.find?_some hfind
        rw [hfind] at htrans
        rw [step_silent htrans, hquote, List.append_assoc]
        exact ⟨s₀, ps, _, h, .word (ht.trans hx.symm), rfl⟩
  · rw [if_neg hquote] at htrans
    split at htrans
    · rw [step_silent htrans]
      exact ⟨s₀, ps, t ++ [b], h, by simp [ht], by simp⟩
    · exact Reads.of_noTrans htrans

theorem Reads.step_next {ws ws' : List Byte} (h : MembersAt s₀ ps) (hws : Spaces ws)
    (hws' : Spaces ws') (hcs : r.cs = .next) :
    Reads (s₀ ++ ws ++ Ascii.comma :: ws' ++ [b]) (r.step b).1 := by
  have htrans : trans b r.cs = trans b .next := by rw [hcs]
  rw [trans] at htrans
  refine Reads.of_ite htrans (fun hspace => ?_) (fun _ htrans =>
    Reads.of_ite htrans (fun hquote => ?_) (fun _ htrans => Reads.of_noTrans htrans))
  · exact ⟨s₀, ps, ws, ws' ++ [b], h, hws, hws'.snoc hspace, by simp⟩
  · rw [hquote]
    exact ⟨_, ps, [], .next h hws hws', rfl, rfl⟩

theorem Reads.step_done (h : Doc s ps) (hcs : r.cs = .done) :
    Reads (s ++ [b]) (r.step b).1 := by
  have htrans : trans b r.cs = trans b .done := by rw [hcs]
  rw [trans] at htrans
  exact Reads.of_ite htrans (fun hspace => ⟨ps, h.space hspace⟩)
    (fun _ htrans => Reads.of_noTrans htrans)

/-- **Every byte preserves what the states say.** -/
theorem Reads.step (h : Reads s r) (b : Byte) : Reads (s ++ [b]) (r.step b).1 := by
  unfold Reads at h
  cases hcs : r.cs with
  | error =>
      rw [step_error hcs]
      exact Reads.of_error hcs
  | start =>
      rw [hcs] at h
      exact Reads.step_start h hcs
  | first =>
      rw [hcs] at h
      obtain ⟨ws, ws', hws, hws', rfl⟩ := h
      exact Reads.step_first hws hws' hcs
  | key w =>
      rw [hcs] at h
      obtain ⟨s₀, ps, k, h, rfl, rfl⟩ := h
      exact Reads.step_key h hcs
  | colon f =>
      rw [hcs] at h
      obtain ⟨s₀, ps, k, ws, h, hk, hws, rfl⟩ := h
      exact Reads.step_colon h hk hws hcs
  | value f =>
      rw [hcs] at h
      obtain ⟨ps, h⟩ := h
      exact Reads.step_value h hcs
  | null f rest =>
      rw [hcs] at h
      obtain ⟨s₀, ps, t, h, ht, rfl⟩ := h
      exact Reads.step_null h ht hcs
  | char f =>
      rw [hcs] at h
      obtain ⟨s₀, ps, raw, h, hraw, hscratch, rfl⟩ := h
      exact Reads.step_char h hraw hscratch hcs
  | escape f =>
      rw [hcs] at h
      obtain ⟨s₀, ps, raw, h, hraw, hscratch, rfl⟩ := h
      exact Reads.step_escape h hraw hscratch hcs
  | strEnd f =>
      rw [hcs] at h
      obtain ⟨s₀, ps, t, l, h, ht, rfl⟩ := h
      have hread := Reads.step_leave (b := b) [.endStr f] (h.members ht) Spaces.nil
        (by rw [hcs]; rfl) (fun cs => rfl)
      rwa [List.append_nil] at hread
  | reqDigit f =>
      rw [hcs] at h
      obtain ⟨s₀, ps, sign, n, h, hscratch, rfl⟩ := h
      exact Reads.step_reqDigit h hscratch hcs
  | optDigit f =>
      rw [hcs] at h
      obtain ⟨s₀, ps, sign, ds, n, h, hne, hds, hscratch, rfl⟩ := h
      exact Reads.step_optDigit h hne hds hscratch hcs
  | word f w =>
      rw [hcs] at h
      obtain ⟨s₀, ps, t, h, ht, rfl⟩ := h
      exact Reads.step_word h ht hcs
  | wordEnd x =>
      rw [hcs] at h
      obtain ⟨s₀, ps, t, h, ht, rfl⟩ := h
      have hread := Reads.step_leave (b := b) [.endWord x] (h.members ht) Spaces.nil
        (by rw [hcs]; rfl) (fun cs => rfl)
      rwa [List.append_nil] at hread
  | sep =>
      rw [hcs] at h
      obtain ⟨s₀, ps, ws, h, hws, rfl⟩ := h
      exact Reads.step_leave [] h hws (by rw [hcs]; rfl) (fun cs => rfl)
  | next =>
      rw [hcs] at h
      obtain ⟨s₀, ps, ws, ws', h, hws, hws', rfl⟩ := h
      exact Reads.step_next h hws hws' hcs
  | done =>
      rw [hcs] at h
      obtain ⟨ps, h⟩ := h
      exact Reads.step_done h hcs

theorem Reads.feed (h : Reads s r) (buf : List Byte) : Reads (s ++ buf) (r.feed buf) := by
  induction buf generalizing s r with
  | nil =>
      rw [List.append_nil]
      exact h
  | cons b buf ih =>
      rw [List.append_cons]
      exact ih (h.step b)

/-- **What leads to the final state is a text of the grammar.** -/
theorem doc_of_done (hcs : r.cs = .start) (hdone : (r.feed s).cs = .done) : ∃ ps, Doc s ps := by
  have hstart : Reads [] r := by
    unfold Reads
    rw [hcs]
    exact Spaces.nil
  have h : Reads ([] ++ s) (r.feed s) := hstart.feed s
  unfold Reads at h
  rwa [hdone] at h

end Step

/-! ### The parser and the grammar -/

/-- The fields after the pairs of an object have the last values. -/
theorem foldl_assign_holds {d : ReqFields} {ps qs : List (ReqField × Val)} (h : d.Holds qs)
    (hps : ∀ p ∈ ps, p.2.Of p.1) :
    (ps.foldl (fun d p => d.assign p.1 p.2) d).Holds (qs ++ ps) := by
  induction ps generalizing d qs with
  | nil =>
      rw [List.append_nil]
      exact h
  | cons p ps ih =>
      rw [List.append_cons]
      exact ih (h.assign (hps p List.mem_cons_self))
        (fun q hq => hps q (List.mem_cons_of_mem p hq))

/-- **The parser accepts exactly its grammar, and the last occurrence of a key wins.** -/
theorem parse_decides (r : RestRequest) (s : List Byte) :
    (((r.reset true).parse s).1 = .ok true ↔ ∃ ps, Doc s ps) ∧
    ∀ ps, Doc s ps →
      (∀ p, p <+: s → ∃ complete, ((r.reset true).parse p).1 = .ok complete) ∧
      ((r.reset true).parse s).2.Holds ps ∧
      ∀ f : NumField, f.Fits (last (.num f) ps).int →
        ((r.reset true).parse s).2.nums f = (last (.num f) ps).int := by
  have hcs : (r.reset true).cs = .start := rfl
  refine ⟨⟨fun hok => ?_, fun ⟨ps, hdoc⟩ => ?_⟩, fun ps hdoc => ?_⟩
  · exact doc_of_done hcs (of_decide_eq_true (parse_ok_iff.mp hok).2.symm)
  · have hdone := (feed_doc hdoc hcs).1
    exact parse_ok_iff.mpr ⟨by rw [hdone]; decide, (decide_eq_true hdone).symm⟩
  · obtain ⟨hdone, hfields⟩ := feed_doc hdoc hcs
    have hholds : ((r.reset true).parse s).2.Holds ps := by
      have hfold := foldl_assign_holds ReqFields.clear_holds hdoc.of
      rw [parse_snd, hfields]
      exact hfold
    refine ⟨fun p hp => ?_, hholds, fun f hfits => ?_⟩
    · obtain ⟨buf, rfl⟩ := hp
      refine ⟨_, parse_ok_iff.mpr ⟨fun herror => ?_, rfl⟩⟩
      rw [feed_append, feed_error herror, herror] at hdone
      cases hdone
    · rw [hholds.nums, (f.stored_eq_iff _).mpr hfits]

end Swirly.RestRequest
