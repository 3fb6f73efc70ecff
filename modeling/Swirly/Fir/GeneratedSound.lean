import Swirly.Fir.Generated
import Swirly.Fir.ParseRun
import Swirly.Fir.Scratch

/-!
# Swirly.Fir.GeneratedSound

**The generated parser is the machine of the grammar.** `Json.states` gives every number the
state it stands for, and a request that the tables drive simulates one that `trans` drives,
byte by byte, through every call.

The tables are compared with `trans` by one computation, `checkState`, for each state. Of a
state, both look only at the bytes in `Cs.bytes`; any other byte takes the same way
(`trans_other`, `Row.find_other`), so that the comparison is of a few bytes.
-/

namespace Swirly

open Lib

/-! ### What a state looks at -/

namespace Cs

/-- The letters that may follow `w` in one of the texts. -/
def letters (w : List Byte) (texts : List (List Byte)) : List Byte :=
  (texts.filter (fun t => w.isPrefixOf t)).filterMap (fun t => t[w.length]?)

/-- Letters in both cases. -/
def cases (l : List Byte) : List Byte := l ++ l.map (fun b => b - 32)

/-- `space`. -/
def spaces : List Byte := [9, 10, 11, 12, 13, 32]

/-- The digits. -/
def digits : List Byte := [48, 49, 50, 51, 52, 53, 54, 55, 56, 57]

/-- What may follow a value. -/
def ends : List Byte := Ascii.comma :: Ascii.closeBrace :: spaces

/-- The bytes that a state tells from the others. -/
def bytes : Cs → List Byte
  | error => []
  | start => Ascii.openBrace :: spaces
  | first => Ascii.quote :: Ascii.closeBrace :: spaces
  | key w => Ascii.quote :: cases (letters w (ReqField.all.map ReqField.key))
  | colon _ => Ascii.colon :: spaces
  | value _ => Ascii.quote :: Ascii.plus :: Ascii.minus :: 110 :: digits ++ spaces
  | null _ (c :: _) => [c]
  | null _ [] => ends
  | char _ => [Ascii.quote, Ascii.backslash]
  | escape _ => []
  | strEnd _ => ends
  | reqDigit _ => digits
  | optDigit _ => digits ++ ends
  | word f w =>
    Ascii.quote :: cases (letters w ((Word.all.filter (fun x => x.field = f)).map Word.text))
  | wordEnd _ => ends
  | sep => ends
  | next => Ascii.quote :: spaces
  | done => spaces

/-- What a state does on the others. -/
def other : Cs → List Action × Cs
  | char f => ([.addChar], .char f)
  | escape f => ([.addChar], .char f)
  | _ => noTrans

end Cs

section Other

variable {b : Byte}

theorem isSpace_eq_false (h : b ∉ Cs.spaces) : isSpace b = false := by
  revert b
  decide +kernel

theorem isDigit_eq_false (h : b ∉ Cs.digits) : isDigit b = false := by
  revert b
  decide +kernel

theorem leave_other (h : b ∉ Cs.ends) (as : List Action) : leave as b = noTrans := by
  unfold Cs.ends at h
  rw [List.mem_cons, List.mem_cons, not_or, not_or] at h
  obtain ⟨hcomma, hclose, hspace⟩ := h
  unfold leave
  rw [isSpace_eq_false hspace, if_neg Bool.false_ne_true, if_neg hcomma, if_neg hclose]

theorem add_sub_byte (b : Byte) : b + 32 - 32 = b := by
  revert b
  decide +kernel

/-- A letter in lower case, and the letter. -/
theorem mem_cases {l : List Byte} (h : lower b ∈ l) : b ∈ Cs.cases l := by
  unfold Cs.cases
  unfold lower at h
  split at h
  · exact List.mem_append_right l (List.mem_map.mpr ⟨b + 32, h, add_sub_byte b⟩)
  · exact List.mem_append_left _ h

/-- The letter after `w` in a text that goes on with it. -/
theorem mem_letters {w t : List Byte} {texts : List (List Byte)} (ht : t ∈ texts)
    (h : (w ++ [b]).isPrefixOf t = true) : b ∈ Cs.letters w texts := by
  obtain ⟨rest, rfl⟩ := List.isPrefixOf_iff_prefix.mp h
  refine List.mem_filterMap.mpr ⟨_, List.mem_filter.mpr ⟨ht, ?_⟩, ?_⟩
  · exact List.isPrefixOf_iff_prefix.mpr ⟨b :: rest, by simp⟩
  · simp

/-- No text goes on with a letter that is not among those. -/
theorem not_mem_letters {w : List Byte} {texts : List (List Byte)}
    (h : b ∉ Cs.cases (Cs.letters w texts)) :
    ∀ t ∈ texts, (w ++ [lower b]).isPrefixOf t = false := by
  intro t ht
  refine Bool.eq_false_iff.mpr (fun hpre => h (mem_cases (mem_letters ht hpre)))

theorem enter_other {f : ReqField} (h : b ∉ (Cs.value f).bytes) : enter b f = noTrans := by
  simp only [Cs.bytes, List.mem_cons, List.mem_append, List.cons_append, not_or] at h
  obtain ⟨hquote, hplus, hminus, -, hdigit, -⟩ := h
  cases f with
  | str f => exact if_neg hquote
  | num f =>
      simp only [enter, if_neg hminus, if_neg hplus, isDigit_eq_false hdigit]
      rfl
  | side => exact if_neg hquote
  | role => exact if_neg hquote

/-- **A byte that a state does not look at goes the way of the others.** -/
theorem trans_other {c : Cs} (h : b ∉ c.bytes) : trans b c = c.other := by
  cases c with
  | error => rfl
  | start =>
      obtain ⟨hopen, hspace⟩ := not_or.mp (List.mem_cons.not.mp h)
      simp only [trans, isSpace_eq_false hspace, if_neg hopen]
      rfl
  | first =>
      simp only [Cs.bytes, List.mem_cons, not_or] at h
      obtain ⟨hquote, hclose, hspace⟩ := h
      simp only [trans, isSpace_eq_false hspace, if_neg hquote, if_neg hclose]
      rfl
  | key w =>
      obtain ⟨hquote, hletters⟩ := not_or.mp (List.mem_cons.not.mp h)
      have hno := not_mem_letters hletters
      have hany : ReqField.all.any (fun f => (w ++ [lower b]).isPrefixOf f.key) = false := by
        refine List.any_eq_false.mpr (fun f hf hpre => ?_)
        rw [hno f.key (List.mem_map_of_mem hf)] at hpre
        cases hpre
      simp only [trans, if_neg hquote, hany]
      rfl
  | colon f =>
      obtain ⟨hcolon, hspace⟩ := not_or.mp (List.mem_cons.not.mp h)
      simp only [trans, isSpace_eq_false hspace, if_neg hcolon]
      rfl
  | value f =>
      have henter := enter_other h
      simp only [Cs.bytes, List.mem_cons, List.mem_append, List.cons_append, not_or] at h
      obtain ⟨-, -, -, hnull, -, hspace⟩ := h
      simp only [trans, isSpace_eq_false hspace, if_neg hnull, henter]
      rfl
  | null f rest =>
      cases rest with
      | nil => exact leave_other h _
      | cons c rest => exact if_neg (List.mem_singleton.not.mp h)
  | char f =>
      simp only [Cs.bytes, List.mem_cons, List.not_mem_nil, or_false, not_or] at h
      simp only [trans, if_neg h.1, if_neg h.2]
      rfl
  | escape f => rfl
  | strEnd f => exact leave_other h _
  | reqDigit f =>
      simp only [trans, isDigit_eq_false h]
      rfl
  | optDigit f =>
      obtain ⟨hdigit, hend⟩ := not_or.mp (List.mem_append.not.mp h)
      simp only [trans, isDigit_eq_false hdigit, leave_other hend]
      rfl
  | word f w =>
      obtain ⟨hquote, hletters⟩ := not_or.mp (List.mem_cons.not.mp h)
      have hno := not_mem_letters hletters
      have hany : Word.all.any
          (fun x => x.field = f ∧ (w ++ [lower b]).isPrefixOf x.text) = false := by
        refine List.any_eq_false.mpr (fun x hx hmem => ?_)
        obtain ⟨hfield, hpre⟩ := of_decide_eq_true hmem
        have hmem : x ∈ Word.all.filter (fun x => x.field = f) :=
          List.mem_filter.mpr ⟨hx, by simpa using hfield⟩
        rw [hno x.text (List.mem_map_of_mem hmem)] at hpre
        cases hpre
      simp only [trans, if_neg hquote, hany]
      rfl
  | wordEnd x => exact leave_other h _
  | sep => exact leave_other h _
  | next =>
      obtain ⟨hquote, hspace⟩ := not_or.mp (List.mem_cons.not.mp h)
      simp only [trans, isSpace_eq_false hspace, if_neg hquote]
      rfl
  | done =>
      simp only [trans, isSpace_eq_false h]
      rfl

end Other

/-! ### What a row says -/

namespace Json

/-- The keys of a row are in order, and are ASCII. -/
def Row.Sorted (r : Row) : Prop :=
  r.keys.Pairwise (· < ·) ∧ r.ranges.Pairwise (fun p q => p.1 ≤ p.2 ∧ p.2 < q.1) ∧
    (∀ k ∈ r.keys, k < 128) ∧ ∀ p ∈ r.ranges, p.1 < 128 ∧ p.2 < 128

instance (r : Row) : Decidable r.Sorted := by
  unfold Row.Sorted
  infer_instance

/-- The place of the transition on a byte in its row, without a search. -/
def Row.place (r : Row) (b : Byte) : Nat :=
  match r.keys.findIdx? (fun k => k = b.val) with
  | some i => i
  | none =>
    r.keys.length +
      (r.ranges.findIdx? (fun p => p.1 ≤ b.val ∧ b.val ≤ p.2)).getD r.ranges.length

/-- The place of the transition on any other byte. -/
def Row.otherPlace (r : Row) : Nat := r.keys.length + r.ranges.length

/-- A row finds nothing but the bytes of a list. -/
def Row.Within (r : Row) (bytes : List Byte) : Prop :=
  (∀ k ∈ r.keys, Fin.ofNat 256 k ∈ bytes) ∧
    ∀ p ∈ r.ranges, ∀ b ∈ List.range' p.1 (p.2 + 1 - p.1), Fin.ofNat 256 b ∈ bytes

instance (r : Row) (bytes : List Byte) : Decidable (r.Within bytes) := by
  unfold Row.Within
  infer_instance

section Row

variable {r : Row} {signed : Bool} {b : Byte} {c : Int}

theorem charVal_eq_iff {k : Nat} (hk : k < 128) : charVal signed b = k ↔ k = b := by
  unfold charVal
  have hb : (b : Nat) < 256 := b.isLt
  split
  · next h =>
      have h128 : 128 ≤ (b : Nat) := h.2
      omega
  · omega

theorem charVal_between_iff {k l : Nat} (hk : k < 128) (hl : l < 128) :
    (k : Int) ≤ charVal signed b ∧ charVal signed b ≤ l ↔ k ≤ (b : Nat) ∧ (b : Nat) ≤ l := by
  unfold charVal
  have hb : (b : Nat) < 256 := b.isLt
  split
  · next h =>
      have h128 : 128 ≤ (b : Nat) := h.2
      omega
  · omega

theorem cmpKey_eq_iff {k : Nat} : cmpKey c k = .eq ↔ c = k := by
  unfold cmpKey
  split_ifs with hlt hgt
  · simp [hlt.ne]
  · simp [hgt.ne']
  · simp [le_antisymm (not_lt.mp hgt) (not_lt.mp hlt)]

theorem cmpRange_eq_iff {p : Nat × Nat} : cmpRange c p = .eq ↔ p.1 ≤ c ∧ c ≤ p.2 := by
  unfold cmpRange
  split_ifs with hlt hgt
  · simp [not_le.mpr hlt]
  · simp [not_le.mpr hgt]
  · simp [not_lt.mp hlt, not_lt.mp hgt]

theorem Row.Sorted.keys (hs : r.Sorted) (c : Int) : SortedBy (cmpKey c) r.keys := by
  refine hs.1.imp ?_
  intro k l hkl hle
  unfold cmpKey at hle ⊢
  split_ifs at hle ⊢ <;> first | rfl | exact absurd rfl hle | omega

theorem Row.Sorted.ranges (hs : r.Sorted) (c : Int) : SortedBy (cmpRange c) r.ranges := by
  refine hs.2.1.imp ?_
  intro p q ⟨hp, hpq⟩ hle
  unfold cmpRange at hle ⊢
  split_ifs at hle ⊢ <;> first | rfl | exact absurd rfl hle | omega

theorem findIdx?_congr {α : Type} {p q : α → Bool} {l : List α} (h : ∀ a ∈ l, p a = q a) :
    l.findIdx? p = l.findIdx? q := by
  induction l with
  | nil => rfl
  | cons a l ih =>
      rw [List.findIdx?_cons, List.findIdx?_cons, h a List.mem_cons_self,
        ih (fun a ha => h a (List.mem_cons_of_mem _ ha))]

/-- **The two searches find what a look at every key finds**, whether or not a `char` is
signed. -/
theorem Row.find_eq_place (hs : r.Sorted) : r.find (charVal signed b) = r.index + r.place b := by
  have hkey : searchList (cmpKey (charVal signed b)) r.keys =
      r.keys.findIdx? (fun k => k = b.val) := by
    rw [searchList_eq_findIdx? (hs.keys _)]
    refine findIdx?_congr (fun k hk => decide_eq_decide.mpr ?_)
    exact cmpKey_eq_iff.trans (charVal_eq_iff (hs.2.2.1 k hk))
  have hrange : searchList (cmpRange (charVal signed b)) r.ranges =
      r.ranges.findIdx? (fun p => p.1 ≤ b.val ∧ b.val ≤ p.2) := by
    rw [searchList_eq_findIdx? (hs.ranges _)]
    refine findIdx?_congr (fun p hp => decide_eq_decide.mpr ?_)
    exact cmpRange_eq_iff.trans (charVal_between_iff (hs.2.2.2 p hp).1 (hs.2.2.2 p hp).2)
  unfold Row.find Row.place
  rw [hkey, hrange]
  cases r.keys.findIdx? (fun k => k = b.val) with
  | some i => rfl
  | none =>
      cases r.ranges.findIdx? (fun p => p.1 ≤ b.val ∧ b.val ≤ p.2) with
      | some i => exact Nat.add_assoc _ _ _
      | none => exact Nat.add_assoc _ _ _

/-- Any other byte takes the last transition of the row. -/
theorem Row.place_other {bytes : List Byte} (hw : r.Within bytes) (hb : b ∉ bytes) :
    r.place b = r.otherPlace := by
  have hval : Fin.ofNat 256 b.val = b := Fin.ofNat_val_eq_self b
  have hkey : r.keys.findIdx? (fun k => k = b.val) = none := by
    refine List.findIdx?_eq_none_iff.mpr (fun k hk => decide_eq_false (fun heq => hb ?_))
    rw [← hval, ← heq]
    exact hw.1 k hk
  have hrange : r.ranges.findIdx? (fun p => p.1 ≤ b.val ∧ b.val ≤ p.2) = none := by
    refine List.findIdx?_eq_none_iff.mpr (fun p hp => decide_eq_false (fun hle => hb ?_))
    rw [← hval]
    exact hw.2 p hp b.val (List.mem_range'_1.mpr ⟨hle.1, by omega⟩)
  unfold Row.place Row.otherPlace
  rw [hkey, hrange]
  rfl

end Row

/-! ### The states by number -/

/-- The states in a key after the letters `w`, one for each letter of `l`. -/
def keyStates (w : List Char) : List Char → List Cs
  | [] => []
  | c :: l => .key (chars (w ++ [c])) :: keyStates (w ++ [c]) l

/-- The states in `null`. -/
def nullStates (f : ReqField) : List Cs :=
  [.null f (chars ['u', 'l', 'l']), .null f (chars ['l', 'l']), .null f (chars ['l']), .null f []]

/-- The states after the key of a string field. -/
def strStates (f : StrField) : List Cs :=
  [.colon (.str f), .value (.str f), .char f, .strEnd f, .escape f] ++ nullStates (.str f)

/-- The states after the key of a number. -/
def numStates (f : NumField) : List Cs :=
  [.colon (.num f), .value (.num f), .reqDigit f, .optDigit f] ++ nullStates (.num f)

/-- The states in a word after the letters `w`, one for each letter of `l`. -/
def wordStates (f : ReqField) (w : List Char) : List Char → List Cs
  | [] => []
  | c :: l => .word f (chars (w ++ [c])) :: wordStates f (w ++ [c]) l

/-- **The state that each number stands for.** They are numbered by the keys in alphabetical
order. -/
def states : List Cs :=
  [.error, .start, .first, .key []] ++
  keyStates [] ['c', 'o', 'n', 't', 'r'] ++
  [.colon (.str .contr), .value (.str .contr), .char .contr, .strEnd .contr, .sep, .next,
    .escape .contr] ++ nullStates (.str .contr) ++
  keyStates ['c'] ['p', 't', 'y'] ++ strStates .cpty ++
  keyStates [] ['d', 'i', 's', 'p', 'l', 'a', 'y'] ++ strStates .display ++
  keyStates [] ['e', 'm', 'a', 'i', 'l'] ++ strStates .email ++
  keyStates ['e'] ['x', 'p', 'i', 'r', 'y', 'd', 'a', 't', 'e'] ++ numStates .expiryDate ++
  keyStates [] ['l', 'o', 't', 's'] ++ numStates .lots ++
  keyStates [] ['m', 'i', 'n', 'l', 'o', 't', 's'] ++ numStates .minLots ++
  keyStates ['m'] ['n', 'e', 'm'] ++ strStates .mnem ++
  keyStates [] ['r', 'e', 'f'] ++ strStates .ref ++
  keyStates ['r'] ['o', 'l', 'e'] ++
  [.colon .role, .value .role, .word .role []] ++
  wordStates .role [] ['m', 'a', 'k', 'e', 'r'] ++ [.wordEnd .maker] ++
  wordStates .role [] ['t', 'a', 'k', 'e', 'r'] ++ [.wordEnd .taker] ++ nullStates .role ++
  keyStates [] ['s', 'e', 't', 't', 'l', 'd', 'a', 't', 'e'] ++ numStates .settlDate ++
  keyStates ['s'] ['i', 'd', 'e'] ++
  [.colon .side, .value .side, .word .side []] ++
  wordStates .side [] ['b', 'u', 'y'] ++ [.wordEnd .buy] ++
  wordStates .side [] ['s', 'e', 'l', 'l'] ++ [.wordEnd .sell] ++ nullStates .side ++
  keyStates ['s'] ['t', 'a', 't', 'e'] ++ numStates .state ++
  keyStates [] ['t', 'i', 'c', 'k', 's'] ++ numStates .ticks ++
  keyStates ['t'] ['r', 'a', 'd', 'e', 'r'] ++ strStates .trader ++
  [.done]

/-- The case of the `switch` that an action is. -/
def code : Action → Nat
  | .beginNum => 0
  | .negate => 1
  | .addDigit => 2
  | .beginStr => 3
  | .addChar => 4
  | .null f => nullCode f
  | .beginField f => nullCode (.str f) + 1
  | .endStr f => nullCode (.str f) + 2
  | .endNum f => nullCode (.num f) + 1
  | .endWord .buy => 32
  | .endWord .sell => 33
  | .endWord .maker => 39
  | .endWord .taker => 40
where
  /-- The case of `null<Field>`. -/
  nullCode : ReqField → Nat
    | .str .mnem => 5
    | .str .display => 8
    | .str .email => 11
    | .str .trader => 14
    | .str .contr => 17
    | .num .settlDate => 20
    | .num .expiryDate => 22
    | .str .ref => 24
    | .num .state => 27
    | .num .ticks => 29
    | .side => 31
    | .num .lots => 34
    | .num .minLots => 36
    | .role => 38
    | .str .cpty => 41

/-- A transition of the tables is one of the grammar: its actions are those, `endState` is
not followed by another, and the number is that of the state. -/
def Agrees (t : List Action × Cs) : Option (List Nat × Nat) → Bool
  | some (acts, cs) =>
    acts = t.1.map code ∧ .endNum .state ∉ t.1.dropLast ∧ states[cs]? = some t.2
  | none => false

/-- The four tables of the states side by side. -/
def heads : List (Nat × Nat × Nat × Nat) :=
  keyOffsets.zip (indexOffsets.zip (singleLengths.zip rangeLengths))

/-- The row of a state, from what the four tables have. -/
def headRow : Nat × Nat × Nat × Nat → Option Row
  | (off, index, klen, rlen) => do
    let keys ← slice transKeys off klen
    let ranges ← slice transKeys (off + klen) (2 * rlen)
    return { index, keys, ranges := pairs ranges }

/-- A transition of a row, from the tables cut to it. -/
def entryFrom (targs acts : List Nat) (place : Nat) : Option (List Nat × Nat) := do
  let cs ← targs[place]?
  let off ← acts[place]?
  let acts ← actsAt off
  return (acts, cs)

/-- The comparison of a state with its row. -/
def checkState (head : Nat × Nat × Nat × Nat) (c : Cs) : Bool :=
  match headRow head with
  | some r =>
    let entries := entryFrom (transTargs.drop r.index) (transActions.drop r.index)
    r.Sorted ∧ r.Within c.bytes ∧
      (c.bytes.all fun b => Agrees (trans b c) (entries (r.place b))) ∧
      Agrees c.other (entries r.otherPlace)
  | none => false

theorem checkState_all :
    (heads.zip states).tail.all (fun p => checkState p.1 p.2) = true := by
  decide +kernel

/-! ### Every transition -/

section Transition

variable {cs : Nat} {c : Cs} {b : Byte}

theorem row_of_head {head : Nat × Nat × Nat × Nat} (h : heads[cs]? = some head) :
    row cs = headRow head := by
  obtain ⟨off, index, klen, rlen⟩ := head
  obtain ⟨hoff, h⟩ := List.getElem?_zip_eq_some.mp h
  obtain ⟨hindex, h⟩ := List.getElem?_zip_eq_some.mp h
  obtain ⟨hklen, hrlen⟩ := List.getElem?_zip_eq_some.mp h
  unfold row
  simp only [hoff, hindex, hklen, hrlen]
  rfl

theorem entry_add (r : Row) (place : Nat) :
    entry (r.index + place) =
      entryFrom (transTargs.drop r.index) (transActions.drop r.index) place := by
  unfold entry entryFrom
  rw [List.getElem?_drop, List.getElem?_drop]

theorem states_length : states.length = 228 := by
  decide +kernel

theorem heads_length : heads.length = 228 := by
  decide +kernel

theorem states_error : states[error]? = some .error := by
  decide +kernel

/-- What the computation checks of a state. -/
theorem checkState_of_states (hcs : states[cs]? = some c) (hpos : cs ≠ error) :
    ∃ head, heads[cs]? = some head ∧ checkState head c = true := by
  obtain ⟨hlt, -⟩ := List.getElem?_eq_some_iff.mp hcs
  have hlt' : cs < heads.length := by
    rw [heads_length, ← states_length]
    exact hlt
  have hhead : heads[cs]? = some heads[cs] := List.getElem?_eq_getElem hlt'
  refine ⟨_, hhead, ?_⟩
  have hzip := (List.getElem?_zip_eq_some (z := (_, c))).mpr ⟨hhead, hcs⟩
  refine List.all_eq_true.mp checkState_all (_, c) (List.mem_of_getElem? (i := cs - 1) ?_)
  rw [List.getElem?_tail, Nat.sub_add_cancel (Nat.pos_of_ne_zero hpos)]
  exact hzip

/-- **Every transition of the tables is that of the grammar.** -/
theorem transition (hcs : states[cs]? = some c) (hpos : cs ≠ error) (signed : Bool) (b : Byte) :
    ∃ r cs', row cs = some r ∧
      entry (r.find (charVal signed b)) = some ((trans b c).1.map code, cs') ∧
      states[cs']? = some (trans b c).2 ∧ Action.endNum .state ∉ (trans b c).1.dropLast := by
  obtain ⟨head, hhead, hcheck⟩ := checkState_of_states hcs hpos
  unfold checkState at hcheck
  cases hr : headRow head with
  | none =>
      rw [hr] at hcheck
      cases hcheck
  | some r =>
      rw [hr] at hcheck
      obtain ⟨hs, hw, hbytes, hother⟩ := of_decide_eq_true hcheck
      have hagrees : Agrees (trans b c) (entry (r.find (charVal signed b))) = true := by
        rw [Row.find_eq_place hs, entry_add]
        by_cases hb : b ∈ c.bytes
        · exact List.all_eq_true.mp hbytes b hb
        · rw [trans_other hb, Row.place_other hw hb]
          exact hother
      cases hentry : entry (r.find (charVal signed b)) with
      | none =>
          rw [hentry] at hagrees
          cases hagrees
      | some e =>
          obtain ⟨acts, cs'⟩ := e
          rw [hentry] at hagrees
          obtain ⟨rfl, hlast, hcs'⟩ := of_decide_eq_true hagrees
          exact ⟨r, cs', (row_of_head hhead).trans hr, hentry, hcs', hlast⟩

/-- The number of the error state. -/
theorem eq_error_iff (hcs : states[cs]? = some c) : cs = error ↔ c = .error := by
  have hall : ∀ n ∈ List.range 228, (n = error ↔ states[n]? = some .error) := by
    decide +kernel
  obtain ⟨hlt, -⟩ := List.getElem?_eq_some_iff.mp hcs
  rw [hall cs (List.mem_range.mpr (states_length ▸ hlt)), hcs, Option.some_inj]

/-- The number of the final state. -/
theorem lt_firstFinal_iff (hcs : states[cs]? = some c) : cs < firstFinal ↔ c ≠ .done := by
  have hall : ∀ n ∈ List.range 228, (n < firstFinal ↔ states[n]? ≠ some .done) := by
    decide +kernel
  obtain ⟨hlt, -⟩ := List.getElem?_eq_some_iff.mp hcs
  rw [hall cs (List.mem_range.mpr (states_length ▸ hlt)), hcs, Ne, Option.some_inj]

end Transition

end Json

/-! ### The simulation -/

/-- A request that the tables drive stands for one that the grammar drives. -/
structure JsonRequest.Simulates (g : JsonRequest) (r : RestRequest) : Prop where
  cs : Json.states[g.cs]? = some r.cs
  data : g.toReqFields = r.toReqFields
  scratch : g.scratch = r.scratch

namespace JsonRequest.Simulates

variable {g : JsonRequest} {r : RestRequest} {b : Byte}

theorem sign (h : g.Simulates r) : g.sign = r.sign := by
  unfold JsonRequest.sign RestRequest.sign
  exact h.scratch ▸ rfl

theorem num (h : g.Simulates r) : g.num = r.num := by
  unfold JsonRequest.num RestRequest.num
  exact h.scratch ▸ rfl

/-- The fields change alike. -/
theorem withData (h : g.Simulates r) {d d' : ReqFields} (hd : d = d') :
    Simulates { g with toReqFields := d } { r with toReqFields := d' } :=
  ⟨h.cs, hd, h.scratch⟩

/-- The scratch space changes alike. -/
theorem withScratch (h : g.Simulates r) (scratch : Scratch) :
    Simulates { g with scratch } { r with scratch } :=
  ⟨h.cs, h.data, rfl⟩

/-- Both stop. -/
theorem withError (h : g.Simulates r) (msg : String) :
    Simulates { g with cs := Json.error, msg } { r with cs := .error } :=
  ⟨Json.states_error, h.data, h.scratch⟩

/-- What a case of the `switch` does, beside what the action does. -/
structure Acts (g : JsonRequest) (a : Action) (s : JsonRequest × Bool)
    (t : RestRequest × Option String) : Prop where
  simulates : s.1.Simulates t.1
  goes_on : t.2 = none → s.2 = false ∧ s.1.msg = g.msg
  stops : ∀ msg, t.2 = some msg → s.1.msg = msg ∧ t.1.cs = .error ∧
    (a ≠ .endNum .state → s.2 = true)

/-- An action that only changes the request. -/
theorem Acts.goOn {a : Action} {g' : JsonRequest} {r' : RestRequest} (h : g'.Simulates r')
    (hmsg : g'.msg = g.msg) : Acts g a (JsonRequest.goOn g') (r', none) :=
  ⟨h, fun _ => ⟨rfl, hmsg⟩, fun _ hsome => by cases hsome⟩

theorem addChar (h : g.Simulates r) (b : Byte) :
    Acts g .addChar (g.addChar b) (r.act b .addChar) := by
  obtain ⟨⟨fields, strs, nums, side, role⟩, cs, scratch, msg⟩ := g
  obtain ⟨⟨fields', strs', nums', side', role'⟩, cs', scratch'⟩ := r
  obtain ⟨hcs, hdata, rfl⟩ := h
  cases hdata
  cases scratch with
  | none => exact .goOn ⟨hcs, rfl, rfl⟩ rfl
  | num sign digits => exact .goOn ⟨hcs, rfl, rfl⟩ rfl
  | str f =>
      unfold JsonRequest.addChar RestRequest.act
      dsimp only
      split
      · exact .goOn ⟨hcs, rfl, rfl⟩ rfl
      · refine ⟨⟨Json.states_error, rfl, rfl⟩, fun hnone => (by cases hnone), fun msg hsome => ?_⟩
        cases hsome
        exact ⟨rfl, rfl, fun _ => rfl⟩

theorem endState (h : g.Simulates r) (b : Byte) :
    Acts g (.endNum .state) g.endState (r.act b (.endNum .state)) := by
  unfold JsonRequest.endState
  rw [h.sign]
  by_cases hneg : r.sign < 0
  · rw [if_neg (not_le.mpr hneg), RestRequest.act_endNum_negative ⟨rfl, hneg⟩]
    refine ⟨h.withError _, fun hnone => (by cases hnone), fun msg hsome => ?_⟩
    cases hsome
    exact ⟨rfl, rfl, fun hne => absurd rfl hne⟩
  · rw [if_pos (not_lt.mp hneg), RestRequest.act_endNum (fun hstate => hneg hstate.2)]
    exact .goOn (h.withData (by rw [h.data, h.num])) rfl

/-- **Every case of the `switch` is its action.** -/
theorem switch (h : g.Simulates r) (b : Byte) (a : Action) :
    Acts g a (g.switch b (Json.code a)) (r.act b a) := by
  have hnull : ∀ f, g.switch b (Json.code (.null f)) = g.null f := by
    rintro ((_ | _ | _ | _ | _ | _ | _) | (_ | _ | _ | _ | _ | _) | _ | _) <;> rfl
  cases a with
  | beginNum => exact .goOn (h.withScratch _) rfl
  | negate =>
      unfold RestRequest.act
      show Acts g _ g.negate _
      unfold JsonRequest.negate
      rw [h.scratch]
      cases r.scratch with
      | none => exact .goOn h rfl
      | num sign digits => exact .goOn (h.withScratch _) rfl
      | str f => exact .goOn h rfl
  | addDigit =>
      unfold RestRequest.act
      show Acts g _ (g.addDigit b) _
      unfold JsonRequest.addDigit
      rw [h.scratch]
      cases r.scratch with
      | none => exact .goOn h rfl
      | num sign digits => exact .goOn (h.withScratch _) rfl
      | str f => exact .goOn h rfl
  | beginStr =>
      unfold RestRequest.act
      show Acts g _ g.beginStr _
      unfold JsonRequest.beginStr
      rw [h.scratch]
      cases r.scratch with
      | none => exact .goOn h rfl
      | num sign digits => exact .goOn h rfl
      | str f =>
          have hdata := congrArg (fun d => d.setStr f (.assign f.max [])) h.data
          exact .goOn ⟨h.cs, hdata, rfl⟩ rfl
  | addChar => exact h.addChar b
  | null f =>
      rw [hnull]
      exact .goOn (h.withData (by rw [h.data])) rfl
  | beginField f => cases f <;> exact .goOn (h.withScratch _) rfl
  | endStr f =>
      have hdata := congrArg (ReqFields.endStr · f) h.data
      cases f <;> exact .goOn (h.withData hdata) rfl
  | endNum f =>
      cases f with
      | state => exact h.endState b
      | settlDate | expiryDate | ticks | lots | minLots =>
          rw [RestRequest.act_endNum (fun hstate => by cases hstate.1)]
          exact .goOn (h.withData (by rw [h.data, h.num])) rfl
  | endWord x =>
      have hdata := congrArg (ReqFields.endWord · x) h.data
      cases x <;> exact .goOn (h.withData hdata) rfl

/-- What the tables have done when the grammar's machine has a request and a message. -/
structure Reaches (g : JsonRequest) (out : Bool) (t : RestRequest × String) : Prop where
  simulates : g.Simulates t.1
  msg : g.msg = t.2
  leaves : out = true → t.1.cs = .error
  goes_on : t.1.cs ≠ .error → t.2 = "parse error"

/-- The loop over the actions of a transition. -/
theorem runActs {as : List Action} (h : g.Simulates r) (hmsg : g.msg = "parse error") (b : Byte)
    (has : .endNum .state ∉ as.dropLast) :
    Reaches (g.runActs b (as.map Json.code)).1 (g.runActs b (as.map Json.code)).2
      (r.acts b as) := by
  induction as generalizing g r with
  | nil => exact ⟨h, hmsg, fun hout => (by cases hout), fun _ => rfl⟩
  | cons a as ih =>
      obtain ⟨hsim, hgo, hstop⟩ := h.switch b a
      rw [List.map_cons]
      unfold JsonRequest.runActs RestRequest.acts
      rcases hs : g.switch b (Json.code a) with ⟨g', out⟩
      rcases ht : r.act b a with ⟨r', msg⟩
      rw [hs, ht] at hsim hgo hstop
      cases msg with
      | none =>
          obtain ⟨rfl, hmsg'⟩ := hgo rfl
          refine ih hsim (hmsg'.trans hmsg) (fun hmem => has ?_)
          cases as with
          | nil => cases hmem
          | cons a' as => exact List.mem_cons_of_mem _ hmem
      | some msg =>
          obtain ⟨hmsg', hcs, hout⟩ := hstop msg rfl
          cases out with
          | true => exact ⟨hsim, hmsg', fun _ => hcs, fun hne => absurd hcs hne⟩
          | false =>
              -- Only `endState` goes on, and it is the last.
              have hlast : a = .endNum .state := by
                by_contra hne
                cases hout hne
              cases as with
              | nil => exact ⟨hsim, hmsg', fun _ => hcs, fun hne => absurd hcs hne⟩
              | cons a' as => exact absurd (hlast ▸ List.mem_cons_self) has

/-- One byte. -/
theorem step (h : g.Simulates r) (hmsg : g.msg = "parse error") (hcs : r.cs ≠ .error)
    (signed : Bool) (b : Byte) :
    ∃ g' out, g.step signed b = some (g', out) ∧ Reaches g' out (r.step b) := by
  have hpos : g.cs ≠ Json.error := fun heq => hcs ((Json.eq_error_iff h.cs).mp heq)
  obtain ⟨row, cs', hrow, hentry, hcs', hlast⟩ := Json.transition h.cs hpos signed b
  have hsim : Simulates { g with cs := cs' } { r with cs := (trans b r.cs).2 } :=
    ⟨hcs', h.data, h.scratch⟩
  refine ⟨_, _, ?_, hsim.runActs hmsg b hlast⟩
  unfold JsonRequest.step
  simp only [hrow, hentry, Option.bind_eq_bind, Option.bind_some]
  rfl

/-- The loop while there are bytes. -/
theorem resume (h : g.Simulates r) (hmsg : g.msg = "parse error") (hcs : r.cs ≠ .error)
    (signed : Bool) (buf : List Byte) :
    ∃ g', g.resume signed buf = some g' ∧ g'.Simulates (r.exec buf).1 ∧
      g'.msg = (r.exec buf).2 := by
  induction buf generalizing g r with
  | nil => exact ⟨g, rfl, h, hmsg⟩
  | cons b buf ih =>
      obtain ⟨g', out, hstep, hsim, hmsg', hleaves, hgo⟩ := h.step hmsg hcs signed b
      unfold JsonRequest.resume
      rw [RestRequest.exec_cons hcs, hstep, Option.bind_eq_bind, Option.bind_some]
      by_cases herror : (r.step b).1.cs = .error
      · have hstop : out ∨ g'.cs = Json.error := Or.inr ((Json.eq_error_iff hsim.cs).mpr herror)
        rw [if_pos herror]
        exact ⟨g', if_pos hstop, hsim, hmsg'⟩
      · have hgo' : ¬ (out ∨ g'.cs = Json.error) := by
          rintro (hout | hcs')
          · exact herror (hleaves hout)
          · exact herror ((Json.eq_error_iff hsim.cs).mp hcs')
        obtain ⟨g₂, hresume, hrest⟩ := ih hsim (hmsg'.trans (hgo herror)) herror
        rw [if_neg herror]
        exact ⟨g₂, (if_neg hgo').trans hresume, hrest⟩

/-- The loop as it is entered. -/
theorem exec (h : g.Simulates r) (hmsg : g.msg = "parse error") (signed : Bool)
    (buf : List Byte) :
    ∃ g', g.exec signed buf = some g' ∧ g'.Simulates (r.exec buf).1 ∧
      g'.msg = (r.exec buf).2 := by
  unfold JsonRequest.exec
  by_cases hcs : r.cs = .error
  · rw [RestRequest.exec_error hcs, if_pos ((Json.eq_error_iff h.cs).mpr hcs), ite_self]
    exact ⟨g, rfl, h, hmsg⟩
  · rw [if_neg (fun heq => hcs ((Json.eq_error_iff h.cs).mp heq))]
    by_cases hbuf : buf = []
    · rw [if_pos hbuf, hbuf]
      exact ⟨g, rfl, h, hmsg⟩
    · rw [if_neg hbuf]
      exact h.resume hmsg hcs signed buf

/-- **A call of `parse`**: the same result, and the same request after it. -/
theorem parse (h : g.Simulates r) (signed : Bool) (buf : List Byte) :
    ∃ g', g.parse signed buf = some ((r.parse buf).1, g') ∧ g'.Simulates (r.parse buf).2 := by
  have hstart : Simulates { g with msg := "parse error" } r := ⟨h.cs, h.data, h.scratch⟩
  obtain ⟨g', hexec, hsim, hmsg⟩ := hstart.exec rfl signed buf
  refine ⟨g', ?_, hsim⟩
  unfold JsonRequest.parse RestRequest.parse
  rw [hexec, Option.bind_eq_bind, Option.bind_some]
  dsimp only
  by_cases herror : (r.exec buf).1.cs = .error
  · rw [if_pos ((Json.eq_error_iff hsim.cs).mpr herror), if_pos herror, hmsg]
    rfl
  · rw [if_neg (fun heq => herror ((Json.eq_error_iff hsim.cs).mp heq)), if_neg herror]
    by_cases hdone : (r.exec buf).1.cs = .done
    · rw [if_neg (fun hlt => (Json.lt_firstFinal_iff hsim.cs).mp hlt hdone), hdone]
      rfl
    · rw [if_pos ((Json.lt_firstFinal_iff hsim.cs).mpr hdone), decide_eq_false hdone]
      rfl

theorem reset (h : g.Simulates r) (clear : Bool) : (g.reset clear).Simulates (r.reset clear) := by
  have hstart : Json.states[Json.start]? = some .start := by decide +kernel
  cases clear with
  | false => exact ⟨hstart, h.data, h.scratch⟩
  | true => exact ⟨hstart, rfl, h.scratch⟩

theorem new : JsonRequest.new.Simulates .new :=
  ⟨by decide +kernel, rfl, rfl⟩

end JsonRequest.Simulates

/-- One call after the other, with what each of `parse` returns or throws. -/
def JsonRequest.calls (signed : Bool) (g : JsonRequest) :
    List ReqCall → Option (List (Except String Bool) × JsonRequest)
  | [] => some ([], g)
  | .reset clear :: rest => (g.reset clear).calls signed rest
  | .parse buf :: rest => do
    let (result, g) ← g.parse signed buf
    let (results, g) ← g.calls signed rest
    return (result :: results, g)

/-- What each call of `parse` returns or throws, of the same calls. -/
def RestRequest.results (r : RestRequest) : List ReqCall → List (Except String Bool)
  | [] => []
  | .reset clear :: rest => (r.reset clear).results rest
  | .parse buf :: rest => (r.parse buf).1 :: (r.parse buf).2.results rest

theorem JsonRequest.Simulates.calls {g : JsonRequest} {r : RestRequest} (h : g.Simulates r)
    (signed : Bool) (calls : List ReqCall) :
    ∃ g', g.calls signed calls = some (r.results calls, g') ∧
      g'.Simulates (r.calls calls) := by
  induction calls generalizing g r with
  | nil => exact ⟨g, rfl, h⟩
  | cons call rest ih =>
      cases call with
      | reset clear => exact ih (h.reset clear)
      | parse buf =>
          obtain ⟨g', hparse, hsim⟩ := h.parse signed buf
          obtain ⟨g₂, hcalls, hsim₂⟩ := ih hsim
          refine ⟨g₂, ?_, hsim₂⟩
          unfold JsonRequest.calls RestRequest.results
          rw [hparse, Option.bind_eq_bind, Option.bind_some]
          dsimp only
          rw [hcalls]
          rfl

/-- **The generated parser does what the grammar says**: through any calls, and whether or not
a `char` is signed, it reads inside of its tables, each call of `parse` returns or throws what
the grammar's machine does, and the fields of the request are the same. -/
theorem generated_refines (signed : Bool) (calls : List ReqCall) :
    ∃ g, JsonRequest.new.calls signed calls = some (RestRequest.new.results calls, g) ∧
      g.toReqFields = (RestRequest.new.calls calls).toReqFields ∧
      g.scratch = (RestRequest.new.calls calls).scratch ∧
      Json.states[g.cs]? = some (RestRequest.new.calls calls).cs := by
  obtain ⟨g, hcalls, hsim⟩ := JsonRequest.Simulates.new.calls signed calls
  exact ⟨g, hcalls, hsim.data, hsim.scratch, hsim.cs⟩

end Swirly
