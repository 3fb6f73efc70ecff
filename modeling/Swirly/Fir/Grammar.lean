import Swirly.Fir.RestRequest

/-!
# Swirly.Fir.Grammar

**What a request says.** The grammar of `RestRequest`, as relations between a text and its
meaning: the values of the keys in the order in which they are written. `last` is the value
that counts, and `ReqFields.Holds` says that the fields of a request have it.
-/

namespace Swirly

/-! ### Texts -/

/-- White space. -/
def Spaces (ws : List Byte) : Prop := ∀ b ∈ ws, isSpace b = true

/-- A value that a key is given. -/
inductive Val
  | null
  | str (l : List Byte)
  | num (n : Int)
  | word (x : Word)
  deriving DecidableEq, Repr

/-- The inside of a quoted string, and the bytes it stands for. -/
inductive Quoted : List Byte → List Byte → Prop
  | nil : Quoted [] []
  | char {raw l : List Byte} {b : Byte} (h : Quoted raw l) (hquote : b ≠ Ascii.quote)
      (hbackslash : b ≠ Ascii.backslash) : Quoted (raw ++ [b]) (l ++ [b])
  | escape {raw l : List Byte} {b : Byte} (h : Quoted raw l) :
      Quoted (raw ++ [Ascii.backslash, b]) (l ++ [b])

/-- The number that digits write. -/
def decimal (ds : List Byte) : Nat := ds.foldl (fun n b => n * 10 + digit b) 0

/-- The sign of a number. -/
inductive Sign
  | none
  | plus
  | minus
  deriving DecidableEq, Repr

/-- How a sign is written. -/
def Sign.text : Sign → List Byte
  | none => []
  | plus => [Ascii.plus]
  | minus => [Ascii.minus]

/-- What a sign stands for. -/
def Sign.factor : Sign → Int
  | none => 1
  | plus => 1
  | minus => -1

/-- A value that may be written for a key. -/
inductive ValueText : ReqField → List Byte → Val → Prop
  | null (f : ReqField) : ValueText f (chars ['n', 'u', 'l', 'l']) .null
  | str {f : StrField} {raw l : List Byte} (h : Quoted raw l) (hlen : l.length ≤ f.max) :
      ValueText (.str f) (Ascii.quote :: raw ++ [Ascii.quote]) (.str l)
  | num {f : NumField} {sign : Sign} {ds : List Byte} (hne : ds ≠ [])
      (hds : ∀ b ∈ ds, isDigit b = true) (hstate : f = .state → sign ≠ .minus) :
      ValueText (.num f) (sign.text ++ ds) (.num (sign.factor * decimal ds))
  | word {x : Word} {t : List Byte} (h : t.map lower = x.text) :
      ValueText x.field (Ascii.quote :: t ++ [Ascii.quote]) (.word x)

/-- A key in quotes and what may stand before its value. -/
inductive KeyText : ReqField → List Byte → Prop
  | mk {f : ReqField} {k ws ws' : List Byte} (hk : k.map lower = f.key) (hws : Spaces ws)
      (hws' : Spaces ws') :
      KeyText f (Ascii.quote :: k ++ Ascii.quote :: ws ++ Ascii.colon :: ws')

/-- The pairs of keys and values of an object: at least one. -/
inductive Members : List Byte → List (ReqField × Val) → Prop
  | one {k t : List Byte} {f : ReqField} {v : Val} (hk : KeyText f k) (ht : ValueText f t v) :
      Members (k ++ t) [(f, v)]
  | snoc {ms ws ws' k t : List Byte} {ps : List (ReqField × Val)} {f : ReqField} {v : Val}
      (hms : Members ms ps) (hws : Spaces ws) (hws' : Spaces ws') (hk : KeyText f k)
      (ht : ValueText f t v) :
      Members (ms ++ ws ++ Ascii.comma :: ws' ++ k ++ t) (ps ++ [(f, v)])

/-- A request with its pairs of keys and values. -/
inductive Doc : List Byte → List (ReqField × Val) → Prop
  | empty {ws ws' ws₂ : List Byte} (hws : Spaces ws) (hws' : Spaces ws') (hws₂ : Spaces ws₂) :
      Doc (ws ++ Ascii.openBrace :: ws' ++ Ascii.closeBrace :: ws₂) []
  | members {ws ws' ms ws₂ ws₃ : List Byte} {ps : List (ReqField × Val)} (hws : Spaces ws)
      (hws' : Spaces ws') (hms : Members ms ps) (hws₂ : Spaces ws₂) (hws₃ : Spaces ws₃) :
      Doc (ws ++ Ascii.openBrace :: ws' ++ ms ++ ws₂ ++ Ascii.closeBrace :: ws₃) ps

/-- The pairs of two texts. -/
theorem Members.append {ms ms' : List Byte} {ps ps' : List (ReqField × Val)} (h : Members ms ps)
    (h' : Members ms' ps') : Members (ms ++ Ascii.comma :: ms') (ps ++ ps') := by
  have hnil : Spaces [] := by
    intro b hb
    cases hb
  induction h' with
  | one hk ht =>
      have hsnoc := h.snoc hnil hnil hk ht
      simpa using hsnoc
  | snoc hms hws hws' hk ht ih =>
      have hsnoc := ih.snoc hws hws' hk ht
      simpa using hsnoc

/-! ### Positions in a text -/

/-- The text up to the end of a value. -/
inductive MembersAt : List Byte → List (ReqField × Val) → Prop
  | mk {ws ws' ms : List Byte} {ps : List (ReqField × Val)} (hws : Spaces ws) (hws' : Spaces ws')
      (hms : Members ms ps) : MembersAt (ws ++ Ascii.openBrace :: ws' ++ ms) ps

/-- The text up to where a key may begin. -/
inductive KeyAt : List Byte → List (ReqField × Val) → Prop
  | first {ws ws' : List Byte} (hws : Spaces ws) (hws' : Spaces ws') :
      KeyAt (ws ++ Ascii.openBrace :: ws') []
  | next {s ws ws' : List Byte} {ps : List (ReqField × Val)} (h : MembersAt s ps)
      (hws : Spaces ws) (hws' : Spaces ws') : KeyAt (s ++ ws ++ Ascii.comma :: ws') ps

/-- The text up to where the value of a key begins. -/
inductive ValueAt (f : ReqField) : List Byte → List (ReqField × Val) → Prop
  | mk {s k : List Byte} {ps : List (ReqField × Val)} (h : KeyAt s ps) (hk : KeyText f k) :
      ValueAt f (s ++ k) ps

theorem ValueAt.members {f : ReqField} {s t : List Byte} {ps : List (ReqField × Val)} {v : Val}
    (h : ValueAt f s ps) (ht : ValueText f t v) : MembersAt (s ++ t) (ps ++ [(f, v)]) := by
  cases h with
  | mk hkey hk =>
      next s k =>
      cases hkey with
      | first hws hws' =>
          rw [List.append_assoc]
          exact .mk hws hws' (.one hk ht)
      | next h hws hws' =>
          cases h with
          | mk hws₀ hws₀' hms =>
              have hall := MembersAt.mk hws₀ hws₀' (hms.snoc hws hws' hk ht)
              simpa only [List.append_assoc, List.cons_append] using hall

theorem MembersAt.doc {s ws ws' : List Byte} {ps : List (ReqField × Val)} (h : MembersAt s ps)
    (hws : Spaces ws) (hws' : Spaces ws') : Doc (s ++ ws ++ Ascii.closeBrace :: ws') ps := by
  cases h with
  | mk hws₀ hws₀' hms => exact .members hws₀ hws₀' hms hws hws'

theorem Spaces.snoc {ws : List Byte} {b : Byte} (hws : Spaces ws) (hb : isSpace b = true) :
    Spaces (ws ++ [b]) := by
  intro c hc
  rcases List.mem_append.mp hc with hc | hc
  · exact hws c hc
  · rw [List.mem_singleton.mp hc]
    exact hb

theorem Spaces.nil : Spaces [] := by
  intro b hb
  cases hb

/-- White space after the object. -/
theorem Doc.space {s : List Byte} {b : Byte} {ps : List (ReqField × Val)} (h : Doc s ps)
    (hb : isSpace b = true) : Doc (s ++ [b]) ps := by
  cases h with
  | empty hws hws' hws₂ =>
      rw [List.append_assoc]
      exact .empty hws hws' (hws₂.snoc hb)
  | members hws hws' hms hws₂ hws₃ =>
      rw [List.append_assoc]
      exact .members hws hws' hms hws₂ (hws₃.snoc hb)

/-- White space before a value. -/
theorem ValueAt.space {f : ReqField} {s : List Byte} {b : Byte} {ps : List (ReqField × Val)}
    (h : ValueAt f s ps) (hb : isSpace b = true) : ValueAt f (s ++ [b]) ps := by
  cases h with
  | mk hkey hk =>
      cases hk with
      | mk hk hws hws' =>
          rw [List.append_assoc, List.append_assoc, List.cons_append]
          exact .mk hkey (.mk hk hws (hws'.snoc hb))

/-! ### Meaning -/

/-- The value of the last occurrence of a key; a key that does not occur is null. -/
def last (f : ReqField) (ps : List (ReqField × Val)) : Val :=
  ((ps.filter (fun p => p.1 = f)).getLast?.map Prod.snd).getD .null

namespace Val

/-- The string of a value, empty for null. -/
def bytes : Val → List Byte
  | str l => l
  | _ => []

/-- The number of a value, zero for null. -/
def int : Val → Int
  | num n => n
  | _ => 0

/-- The side of a value. -/
def side : Val → Option Side
  | word .buy => some .buy
  | word .sell => some .sell
  | _ => none

/-- The role of a value. -/
def role : Val → Role
  | word .maker => .maker
  | word .taker => .taker
  | _ => .none

end Val

/-- What a field keeps of a number: 64 bits of it, and then what the field is wide. -/
def NumField.stored (f : NumField) (n : Int) : Int := f.narrow (n.bmod (2 ^ 64))

/-- The least number of a field's type. -/
def NumField.min : NumField → Int
  | settlDate => -2 ^ 31
  | expiryDate => -2 ^ 31
  | state => 0
  | ticks => -2 ^ 63
  | lots => -2 ^ 63
  | minLots => -2 ^ 63

/-- The greatest number of a field's type. -/
def NumField.max : NumField → Int
  | settlDate => 2 ^ 31 - 1
  | expiryDate => 2 ^ 31 - 1
  | state => 2 ^ 32 - 1
  | ticks => 2 ^ 63 - 1
  | lots => 2 ^ 63 - 1
  | minLots => 2 ^ 63 - 1

/-- The number is one of the field's type. -/
def NumField.Fits (f : NumField) (n : Int) : Prop := f.min ≤ n ∧ n ≤ f.max

instance (f : NumField) (n : Int) : Decidable (f.Fits n) :=
  inferInstanceAs (Decidable (f.min ≤ n ∧ n ≤ f.max))

/-- The fields have the last values of their keys. -/
structure ReqFields.Holds (d : ReqFields) (ps : List (ReqField × Val)) : Prop where
  fields : ∀ f, f ∈ d.fields ↔ last f ps ≠ .null
  strs : ∀ f, (d.strs f).buf = (last (.str f) ps).bytes
  nums : ∀ f, d.nums f = f.stored (last (.num f) ps).int
  side : d.side = (last .side ps).side
  role : d.role = (last .role ps).role

theorem last_nil (f : ReqField) : last f [] = .null := rfl

theorem last_snoc (f g : ReqField) (v : Val) (ps : List (ReqField × Val)) :
    last f (ps ++ [(g, v)]) = if g = f then v else last f ps := by
  unfold last
  by_cases hg : g = f
  · rw [if_pos hg, List.filter_append, List.filter_cons_of_pos (by simpa using hg)]
    simp
  · rw [if_neg hg, List.filter_append, List.filter_cons_of_neg (by simpa using hg)]
    simp

theorem last_snoc_self (f : ReqField) (v : Val) (ps : List (ReqField × Val)) :
    last f (ps ++ [(f, v)]) = v := by
  rw [last_snoc, if_pos rfl]

theorem last_snoc_of_ne {f g : ReqField} (h : g ≠ f) (v : Val) (ps : List (ReqField × Val)) :
    last f (ps ++ [(g, v)]) = last f ps := by
  rw [last_snoc, if_neg h]

/-- The signed numbers of an even width. -/
theorem bmod_eq_self_iff {m : Nat} (hm : 0 < m) (n : Int) :
    n.bmod (2 * m) = n ↔ -m ≤ n ∧ n ≤ m - 1 := by
  rw [Int.bmod_eq_iff (by omega)]
  simp only [Int.sub_self, Int.dvd_zero, and_true]
  omega

/-- **A number is stored as it is written exactly if it fits.** -/
theorem NumField.stored_eq_iff (f : NumField) (n : Int) : f.stored n = n ↔ f.Fits n := by
  have h32 : (n.bmod (2 ^ 64)).bmod (2 ^ 32) = n.bmod (2 * 2 ^ 31) :=
    Int.bmod_bmod_of_dvd (by decide)
  have h64 : n.bmod (2 ^ 64) = n.bmod (2 * 2 ^ 63) := rfl
  unfold NumField.stored
  cases f with
  | settlDate =>
      show (n.bmod (2 ^ 64)).bmod (2 ^ 32) = n ↔ _
      rw [h32]
      exact bmod_eq_self_iff (by decide) n
  | expiryDate =>
      show (n.bmod (2 ^ 64)).bmod (2 ^ 32) = n ↔ _
      rw [h32]
      exact bmod_eq_self_iff (by decide) n
  | state =>
      have hmod : (n.bmod (2 ^ 64)) % 2 ^ 32 = n % 2 ^ 32 := by
        rw [← Int.emod_emod_of_dvd n (by decide : (2 : Int) ^ 32 ∣ 2 ^ 64),
          ← Int.emod_emod_of_dvd (n.bmod (2 ^ 64)) (by decide : (2 : Int) ^ 32 ∣ 2 ^ 64)]
        exact congrArg (· % 2 ^ 32) Int.bmod_emod
      show (n.bmod (2 ^ 64)) % 2 ^ 32 = n ↔ 0 ≤ n ∧ n ≤ 2 ^ 32 - 1
      rw [hmod]
      omega
  | ticks => exact h64 ▸ bmod_eq_self_iff (by decide) n
  | lots => exact h64 ▸ bmod_eq_self_iff (by decide) n
  | minLots => exact h64 ▸ bmod_eq_self_iff (by decide) n

theorem NumField.stored_zero (f : NumField) : f.stored 0 = 0 :=
  (f.stored_eq_iff 0).mpr (by cases f <;> decide)

/-! ### Values that a key takes -/

/-- A request with one more value. -/
def ReqFields.assign (d : ReqFields) : ReqField → Val → ReqFields
  | f, .null => d.null f
  | .str f, .str l => (d.setStr f (.assign f.max l)).endStr f
  | .num f, .num n => d.endNum f (n.bmod (2 ^ 64))
  | _, .word x => d.endWord x
  | _, _ => d

/-- A value of a key's kind. -/
inductive Val.Of : ReqField → Val → Prop
  | null (f : ReqField) : Of f .null
  | str {f : StrField} {l : List Byte} (hlen : l.length ≤ f.max) : Of (.str f) (.str l)
  | num (f : NumField) (n : Int) : Of (.num f) (.num n)
  | word (x : Word) : Of x.field (.word x)

theorem ValueText.of {f : ReqField} {t : List Byte} {v : Val} (h : ValueText f t v) : v.Of f := by
  cases h with
  | null => exact .null f
  | str _ hlen => exact .str hlen
  | num => exact .num _ _
  | word => exact .word _

theorem ReqFields.clear_holds : ReqFields.clear.Holds [] := by
  refine ⟨fun f => ?_, fun f => List.take_nil, fun f => ?_, rfl, rfl⟩
  · rw [last_nil]
    simp [ReqFields.clear]
  · exact f.stored_zero.symm

/-- The values of a text are of their keys' kinds. -/
theorem Members.of {ms : List Byte} {ps : List (ReqField × Val)} (h : Members ms ps) :
    ∀ p ∈ ps, p.2.Of p.1 := by
  induction h with
  | one hk ht =>
      intro p hp
      rw [List.mem_singleton.mp hp]
      exact ht.of
  | snoc hms hws hws' hk ht ih =>
      intro p hp
      rcases List.mem_append.mp hp with hp | hp
      · exact ih p hp
      · rw [List.mem_singleton.mp hp]
        exact ht.of

theorem Doc.of {s : List Byte} {ps : List (ReqField × Val)} (h : Doc s ps) :
    ∀ p ∈ ps, p.2.Of p.1 := by
  cases h with
  | empty => intro p hp; cases hp
  | members _ _ hms => exact hms.of

/-- Nothing but the field `f` differs. -/
structure ReqFields.SameBut (f : ReqField) (d d' : ReqFields) : Prop where
  fields : ∀ g, f ≠ g → (g ∈ d'.fields ↔ g ∈ d.fields)
  strs : ∀ g, f ≠ .str g → d'.strs g = d.strs g
  nums : ∀ g, f ≠ .num g → d'.nums g = d.nums g
  side : f ≠ .side → d'.side = d.side
  role : f ≠ .role → d'.role = d.role

/-- The field `f` has the value. -/
structure ReqFields.Has (f : ReqField) (v : Val) (d : ReqFields) : Prop where
  fields : f ∈ d.fields ↔ v ≠ .null
  strs : ∀ g, f = .str g → (d.strs g).buf = v.bytes
  nums : ∀ g, f = .num g → d.nums g = g.stored v.int
  side : f = .side → d.side = v.side
  role : f = .role → d.role = v.role

section Assign

variable {d : ReqFields} {ps : List (ReqField × Val)} {f : ReqField} {v : Val}

theorem ReqFields.null_sameBut (d : ReqFields) (f : ReqField) : SameBut f d (d.null f) := by
  cases f with
  | str f =>
      refine ⟨fun g hg => ?_, fun g hg => ?_, fun _ _ => rfl, fun _ => rfl, fun _ => rfl⟩
      · exact Finset.mem_erase.trans (and_iff_right hg.symm)
      · exact Function.update_of_ne (fun heq => hg (by rw [heq])) _ _
  | num f =>
      refine ⟨fun g hg => ?_, fun _ _ => rfl, fun g hg => ?_, fun _ => rfl, fun _ => rfl⟩
      · exact Finset.mem_erase.trans (and_iff_right hg.symm)
      · exact Function.update_of_ne (fun heq => hg (by rw [heq])) _ _
  | side =>
      refine ⟨fun g hg => ?_, fun _ _ => rfl, fun _ _ => rfl, fun h => absurd rfl h, fun _ => rfl⟩
      exact Finset.mem_erase.trans (and_iff_right hg.symm)
  | role =>
      refine ⟨fun g hg => ?_, fun _ _ => rfl, fun _ _ => rfl, fun _ => rfl, fun h => absurd rfl h⟩
      exact Finset.mem_erase.trans (and_iff_right hg.symm)

theorem ReqFields.assign_null (d : ReqFields) (f : ReqField) : d.assign f .null = d.null f := by
  cases f <;> rfl

theorem ReqFields.assign_sameBut (hv : v.Of f) : SameBut f d (d.assign f v) := by
  have hinsert : ∀ g, f ≠ g → (g ∈ insert f d.fields ↔ g ∈ d.fields) :=
    fun g hg => Finset.mem_insert.trans (or_iff_right hg.symm)
  cases hv with
  | null =>
      rw [d.assign_null f]
      exact d.null_sameBut f
  | str hlen =>
      refine ⟨hinsert, fun g hg => ?_, fun _ _ => rfl, fun _ => rfl, fun _ => rfl⟩
      exact Function.update_of_ne (fun heq => hg (by rw [heq])) _ _
  | num f n =>
      refine ⟨hinsert, fun _ _ => rfl, fun g hg => ?_, fun _ => rfl, fun _ => rfl⟩
      exact Function.update_of_ne (fun heq => hg (by rw [heq])) _ _
  | word x =>
      cases x with
      | buy => exact ⟨hinsert, fun _ _ => rfl, fun _ _ => rfl, fun h => absurd rfl h, fun _ => rfl⟩
      | sell => exact ⟨hinsert, fun _ _ => rfl, fun _ _ => rfl, fun h => absurd rfl h, fun _ => rfl⟩
      | maker =>
          exact ⟨hinsert, fun _ _ => rfl, fun _ _ => rfl, fun _ => rfl, fun h => absurd rfl h⟩
      | taker =>
          exact ⟨hinsert, fun _ _ => rfl, fun _ _ => rfl, fun _ => rfl, fun h => absurd rfl h⟩

theorem ReqFields.null_has (d : ReqFields) (f : ReqField) : (d.null f).Has f .null := by
  cases f with
  | str f =>
      refine ⟨by simp [ReqFields.null], fun g hg => ?_, nofun, nofun, nofun⟩
      cases hg
      simp [ReqFields.null, ReqFields.setStr, FixedString.assign, Val.bytes]
  | num f =>
      refine ⟨by simp [ReqFields.null], nofun, fun g hg => ?_, nofun, nofun⟩
      cases hg
      simp [ReqFields.null, Val.int, NumField.stored_zero]
  | side => exact ⟨by simp [ReqFields.null], nofun, nofun, fun _ => rfl, nofun⟩
  | role => exact ⟨by simp [ReqFields.null], nofun, nofun, nofun, fun _ => rfl⟩

theorem ReqFields.assign_has (hv : v.Of f) : (d.assign f v).Has f v := by
  cases hv with
  | null =>
      rw [d.assign_null f]
      exact d.null_has f
  | str hlen =>
      refine ⟨by simp [ReqFields.assign, ReqFields.endStr], fun g hg => ?_, nofun, nofun, nofun⟩
      cases hg
      simpa [ReqFields.assign, ReqFields.endStr, ReqFields.setStr, FixedString.assign, Val.bytes]
        using hlen
  | num f n =>
      refine ⟨by simp [ReqFields.assign, ReqFields.endNum], nofun, fun g hg => ?_, nofun, nofun⟩
      cases hg
      simp [ReqFields.assign, ReqFields.endNum, Val.int, NumField.stored]
  | word x =>
      have hfields : x.field ∈ (d.assign x.field (.word x)).fields ↔ Val.word x ≠ .null := by
        cases x <;> simp [ReqFields.assign, endWord, Word.field]
      cases x with
      | buy => exact ⟨hfields, nofun, nofun, fun _ => rfl, nofun⟩
      | sell => exact ⟨hfields, nofun, nofun, fun _ => rfl, nofun⟩
      | maker => exact ⟨hfields, nofun, nofun, nofun, fun _ => rfl⟩
      | taker => exact ⟨hfields, nofun, nofun, nofun, fun _ => rfl⟩

/-- **A value that a key takes is the last one.** -/
theorem ReqFields.Holds.assign (h : d.Holds ps) (hv : v.Of f) :
    (d.assign f v).Holds (ps ++ [(f, v)]) := by
  have hsame : SameBut f d (d.assign f v) := ReqFields.assign_sameBut hv
  have hhas : (d.assign f v).Has f v := ReqFields.assign_has hv
  refine ⟨fun g => ?_, fun g => ?_, fun g => ?_, ?_, ?_⟩
  · by_cases hg : f = g
    · subst hg
      rw [last_snoc_self, hhas.fields]
    · rw [last_snoc_of_ne hg, hsame.fields g hg, h.fields]
  · by_cases hg : f = .str g
    · rw [← hg, last_snoc_self, hhas.strs g hg]
    · rw [last_snoc_of_ne hg, hsame.strs g hg, h.strs]
  · by_cases hg : f = .num g
    · rw [← hg, last_snoc_self, hhas.nums g hg]
    · rw [last_snoc_of_ne hg, hsame.nums g hg, h.nums]
  · by_cases hg : f = .side
    · rw [← hg, last_snoc_self, hhas.side hg]
    · rw [last_snoc_of_ne hg, hsame.side hg, h.side]
  · by_cases hg : f = .role
    · rw [← hg, last_snoc_self, hhas.role hg]
    · rw [last_snoc_of_ne hg, hsame.role hg, h.role]

end Assign

/-! ### Decimal text -/

/-- The byte of a digit. -/
theorem digit_of_isDigit {c : Char} (h : c.isDigit = true) :
    isDigit (Fin.ofNat 256 c.toNat) = true ∧
      digit (Fin.ofNat 256 c.toNat) = c.toNat - '0'.toNat := by
  have hc : 48 ≤ c.toNat ∧ c.toNat ≤ 57 := by
    simp only [Char.isDigit, Bool.and_eq_true, decide_eq_true_eq] at h
    exact h
  have hval : (Fin.ofNat 256 c.toNat).val = c.toNat := Nat.mod_eq_of_lt (by omega)
  constructor
  · simp only [isDigit, Bool.and_eq_true, decide_eq_true_eq, Fin.le_def, hval]
    exact hc
  · unfold digit
    rw [hval]
    rfl

theorem natText_isDigit (n : Nat) : ∀ b ∈ natText n, isDigit b = true := by
  intro b hb
  obtain ⟨c, hc, rfl⟩ := List.mem_map.mp hb
  exact (digit_of_isDigit (Nat.isDigit_of_mem_toDigits (by decide) (by decide) hc)).1

theorem foldl_chars {l : List Char} (h : ∀ c ∈ l, c.isDigit = true) (init : Nat) :
    (chars l).foldl (fun n b => n * 10 + digit b) init = Nat.ofDigitChars 10 l init := by
  induction l generalizing init with
  | nil => exact Nat.ofDigitChars_nil.symm
  | cons c l ih =>
      have hc := (digit_of_isDigit (h c List.mem_cons_self)).2
      rw [Nat.ofDigitChars_cons, ← ih (fun c' hc' => h c' (List.mem_cons_of_mem c hc')), ← hc,
        Nat.mul_comm]
      rfl

/-- **The digits of a number write it.** -/
theorem decimal_natText (n : Nat) : decimal (natText n) = n := by
  have hdigits : ∀ c ∈ Nat.toDigits 10 n, c.isDigit = true :=
    fun c hc => Nat.isDigit_of_mem_toDigits (by decide) (by decide) hc
  exact (foldl_chars hdigits 0).trans Nat.ofDigitChars_ten_toDigits

/-- A number is a value of a field for numbers. -/
theorem natText_valueText (f : NumField) (n : Nat) : ValueText (.num f) (natText n) (.num n) := by
  have h : ValueText (.num f) (Sign.text .none ++ natText n)
      (.num (Sign.factor .none * decimal (natText n))) :=
    .num (natText_ne_nil n) (natText_isDigit n) (by simp)
  rwa [decimal_natText, show Sign.factor .none = 1 from rfl, Int.one_mul] at h

theorem intText_of_nonneg {n : Int} (h : 0 ≤ n) : intText n = natText n.toNat :=
  if_neg (by omega)

theorem intText_valueText (f : NumField) {n : Int} (h : 0 ≤ n) :
    ValueText (.num f) (intText n) (.num n) := by
  have hnat := natText_valueText f n.toNat
  rwa [← intText_of_nonneg h, Int.toNat_of_nonneg h] at hnat

/-- What a field keeps is of its type. -/
theorem NumField.stored_fits (f : NumField) (n : Int) : f.Fits (f.stored n) := by
  have hbmod : ∀ (n : Int) (m : Nat), 0 < m → -m ≤ n.bmod (2 * m) ∧ n.bmod (2 * m) ≤ m - 1 := by
    intro n m hm
    rw [← bmod_eq_self_iff hm, Int.bmod_bmod]
  cases f with
  | settlDate => exact hbmod _ (2 ^ 31) (by decide)
  | expiryDate => exact hbmod _ (2 ^ 31) (by decide)
  | state =>
      show 0 ≤ (n.bmod (2 ^ 64)) % 2 ^ 32 ∧ (n.bmod (2 ^ 64)) % 2 ^ 32 ≤ 2 ^ 32 - 1
      omega
  | ticks => exact hbmod n (2 ^ 63) (by decide)
  | lots => exact hbmod n (2 ^ 63) (by decide)
  | minLots => exact hbmod n (2 ^ 63) (by decide)

end Swirly
