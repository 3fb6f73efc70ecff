import Swirly.Ash.Text

/-!
# Swirly.Ash.Tokeniser

**The tokeniser with its two positions.** The source keeps the whole text, the place `i_` where
the rest of it begins and the place `j_` of the first delimiter in the rest. `empty` looks at
`i_` only, and so a delimiter at the end of the text has no piece after it.

* As long as `j_` is where the next delimiter is (`TokeniserAt.Found`), a caller sees the rest
  of the text and nothing else: `Tokeniser` stands for it (`TokeniserAt.rest`).
* The pieces are the ones between the delimiters, without the last if it is empty
  (`Tokeniser.tokens_eq_cut`).
-/

namespace Swirly

/-! ### Cutting -/

/-- The pieces of a text that is cut at every delimiter, without the last if it is empty. -/
def cut (delim : Byte) (s : List Byte) : List (List Byte) :=
  if (s.splitOn delim).getLast? = some [] then (s.splitOn delim).dropLast else s.splitOn delim

section Cut

variable {delim : Byte} {s piece rest : List Byte}

theorem cut_nil : cut delim [] = [] := rfl

theorem cut_of_not_mem (h : delim ∉ s) (hne : s ≠ []) : cut delim s = [s] := by
  unfold cut
  rw [List.splitOn_eq_singleton h]
  exact if_neg (by simpa using hne)

/-- The first piece, with what is cut off after it. -/
theorem cut_append_cons (h : delim ∉ piece) :
    cut delim (piece ++ delim :: rest) = piece :: cut delim rest := by
  have hne := List.splitOn_ne_nil delim rest
  unfold cut
  rw [List.splitOn_append_cons_self_of_not_mem h, List.getLast?_cons_of_ne_nil hne,
    List.dropLast_cons_of_ne_nil hne]
  split
  · rfl
  · rfl

/-- A text is empty, or a last piece, or a piece with a delimiter and another text. -/
theorem cut_induction (delim : Byte) {P : List Byte → Prop} (nil : P [])
    (last : ∀ piece, delim ∉ piece → piece ≠ [] → P piece)
    (cons : ∀ piece rest, delim ∉ piece → P rest → P (piece ++ delim :: rest)) (s : List Byte) :
    P s := by
  induction hn : s.length using Nat.strong_induction_on generalizing s with
  | _ n ih =>
      by_cases hmem : delim ∈ s
      · obtain ⟨piece, rest, rfl, hpiece⟩ := List.eq_append_cons_of_mem hmem
        have hlt : rest.length < n := by
          rw [← hn, List.length_append, List.length_cons]
          omega
        exact cons piece rest hpiece (ih _ hlt rest rfl)
      · by_cases hne : s = []
        · rw [hne]
          exact nil
        · exact last s hmem hne

theorem cut_eq_nil_iff : cut delim s = [] ↔ s = [] := by
  induction s using cut_induction delim with
  | nil => exact iff_of_true cut_nil rfl
  | last piece hpiece hne => simp [cut_of_not_mem hpiece hne, hne]
  | cons piece rest hpiece _ => simp [cut_append_cons hpiece]

/-- No piece has the delimiter in it. -/
theorem not_mem_of_mem_cut : ∀ piece ∈ cut delim s, delim ∉ piece := by
  induction s using cut_induction delim with
  | nil => simp [cut_nil]
  | last piece hpiece hne =>
      rw [cut_of_not_mem hpiece hne]
      exact List.forall_mem_singleton.mpr hpiece
  | cons piece rest hpiece ih =>
      rw [cut_append_cons hpiece]
      exact List.forall_mem_cons.mpr ⟨hpiece, ih⟩

/-- **The pieces put together again** give the text, or the text without its last delimiter. -/
theorem intercalate_cut :
    [delim].intercalate (cut delim s) = if s.getLast? = some delim then s.dropLast else s := by
  induction s using cut_induction delim with
  | nil => rfl
  | last piece hpiece hne =>
      have hlast : piece.getLast? ≠ some delim :=
        fun heq => hpiece (List.mem_of_getLast? heq)
      rw [cut_of_not_mem hpiece hne, List.intercalate_singleton, if_neg hlast]
  | cons piece rest hpiece ih =>
      rw [cut_append_cons hpiece]
      by_cases hrest : rest = []
      · -- The text ends in this delimiter.
        subst hrest
        rw [cut_nil, List.intercalate_singleton, List.getLast?_concat, if_pos rfl,
          List.dropLast_concat]
      · obtain ⟨first, others, hcut⟩ :=
          List.exists_cons_of_ne_nil (fun heq => hrest (cut_eq_nil_iff.mp heq))
        have hlast : (piece ++ delim :: rest).getLast? = rest.getLast? := by
          rw [List.getLast?_append_of_ne_nil _ (List.cons_ne_nil delim rest),
            List.getLast?_cons_of_ne_nil hrest]
        rw [hcut, List.intercalate_cons_cons, ← hcut, ih, hlast]
        split
        · rw [List.dropLast_append_of_ne_nil (List.cons_ne_nil delim rest),
            List.dropLast_cons_of_ne_nil hrest]
          simp
        · simp

end Cut

/-- A loop that takes pieces until there are none takes those of the text. -/
theorem Tokeniser.tokens_eq_cut {delim : Byte} (toks : Tokeniser delim) :
    toks.tokens = cut delim toks.buf := by
  obtain ⟨s⟩ := toks
  induction s using cut_induction delim with
  | nil => rfl
  | last piece hpiece hne => rw [tokens_singleton hpiece hne, cut_of_not_mem hpiece hne]
  | cons piece rest hpiece ih => rw [tokens_append_cons hpiece, cut_append_cons hpiece, ih]

/-! ### The two positions -/

/-- `std::find` of the delimiter from a position on. -/
def findFrom (buf : List Byte) (i : Nat) (delim : Byte) : Nat :=
  i + (buf.drop i).findIdx (· = delim)

/-- `Tokeniser<DelimN>`, as the source keeps it: the text, where the current piece begins, and
where it ends. The iterators are positions in the text. -/
structure TokeniserAt (delim : Byte) where
  buf : List Byte
  i : Nat
  j : Nat
  deriving DecidableEq, Repr

namespace TokeniserAt

variable {delim : Byte}

/-- `reset`: the first piece of another text. An empty text has none. -/
def reset (delim : Byte) (buf : List Byte) : TokeniserAt delim := ⟨buf, 0, findFrom buf 0 delim⟩

/-- `top`: the current piece, between the two positions. It may be empty, where two delimiters
follow each other. -/
def top (toks : TokeniserAt delim) : List Byte := (toks.buf.drop toks.i).take (toks.j - toks.i)

/-- `empty`: there is no current piece. A last piece that is empty is not seen for that reason. -/
def empty (toks : TokeniserAt delim) : Bool := toks.i = toks.buf.length

/-- `pop`: go on to the next piece, behind the delimiter, or to the end of the text. -/
def pop (toks : TokeniserAt delim) : TokeniserAt delim :=
  if toks.j ≠ toks.buf.length then
    { toks with i := toks.j + 1, j := findFrom toks.buf (toks.j + 1) delim }
  else { toks with i := toks.j }

/-- The loop over the pieces, for at most `n` turns: what it takes, and the tokeniser after it. -/
def drain : Nat → TokeniserAt delim → List (List Byte) × TokeniserAt delim
  | 0, toks => ([], toks)
  | n + 1, toks =>
    if toks.empty then ([], toks)
    else
      let (pieces, toks') := toks.pop.drain n
      (toks.top :: pieces, toks')

/-- `i_` is in the text, and `j_` is at the first delimiter from there on. -/
structure Found (toks : TokeniserAt delim) : Prop where
  i_le : toks.i ≤ toks.buf.length
  j_eq : toks.j = findFrom toks.buf toks.i delim

/-- What is left of the text. -/
def rest (toks : TokeniserAt delim) : Tokeniser delim := ⟨toks.buf.drop toks.i⟩

theorem found_reset (buf : List Byte) : (reset delim buf).Found := ⟨Nat.zero_le _, rfl⟩

section Found

variable {toks : TokeniserAt delim} (h : toks.Found)

include h

/-- The delimiter ends the piece that comes next. -/
theorem j_sub_i : toks.j - toks.i = (toks.rest.buf.findIdx (· = delim)) := by
  rw [h.j_eq, findFrom, Nat.add_sub_cancel_left]
  rfl

theorem top_rest : toks.top = toks.rest.top := by
  rw [top, j_sub_i h, Tokeniser.top, List.takeWhile_eq_take_findIdx_not]
  simp only [ne_eq, decide_not, Bool.not_not]
  rfl

theorem empty_rest : toks.empty = toks.rest.empty := by
  have hle := h.i_le
  unfold empty Tokeniser.empty rest
  rw [Bool.eq_iff_iff, decide_eq_true_iff, List.isEmpty_iff, List.drop_eq_nil_iff]
  omega

/-- What comes after the piece begins with the delimiter, or there is nothing more. -/
theorem drop_j : toks.buf.drop toks.j = toks.rest.buf.dropWhile (· ≠ delim) := by
  have hdrop : toks.buf.drop toks.j = toks.rest.buf.drop (toks.rest.buf.findIdx (· = delim)) := by
    rw [h.j_eq, findFrom, ← List.drop_drop]
    rfl
  rw [hdrop, List.dropWhile_eq_drop_findIdx_not]
  simp only [ne_eq, decide_not, Bool.not_not]

theorem j_le : toks.j ≤ toks.buf.length := by
  have hle := h.i_le
  have hfind : (toks.buf.drop toks.i).findIdx (· = delim) ≤ (toks.buf.drop toks.i).length :=
    List.findIdx_le_length
  rw [List.length_drop] at hfind
  rw [h.j_eq, findFrom]
  omega

theorem found_pop : toks.pop.Found := by
  have hle := j_le h
  unfold pop
  split
  · next hne => exact ⟨by dsimp only; omega, rfl⟩
  · next heq =>
      rw [not_not] at heq
      refine ⟨hle, ?_⟩
      dsimp only
      rw [findFrom, heq, List.drop_length]
      rfl

theorem pop_rest : toks.pop.rest = toks.rest.pop := by
  refine congrArg Tokeniser.mk ?_
  rw [← drop_j h, List.tail_drop]
  unfold pop
  split
  · rfl
  · next heq =>
      rw [not_not] at heq
      dsimp only
      rw [heq, List.drop_length, List.drop_eq_nil_of_le (Nat.le_succ _)]

end Found

/-- **The loop over the two positions is the loop over the rest of the text.** -/
theorem drain_eq {toks : TokeniserAt delim} (h : toks.Found) (n : Nat) :
    (toks.drain n).1 = toks.rest.take n ∧
      (toks.rest.buf.length ≤ n → (toks.drain n).2.empty = true) := by
  induction n generalizing toks with
  | zero =>
      refine ⟨rfl, fun hlen => ?_⟩
      have hnil := List.eq_nil_of_length_eq_zero (Nat.le_zero.mp hlen)
      show toks.empty = true
      rw [empty_rest h, Tokeniser.empty, hnil]
      rfl
  | succ n ih =>
      obtain ⟨htake, hempty⟩ := ih (found_pop h)
      rw [pop_rest h] at htake hempty
      unfold drain Tokeniser.take
      rw [← empty_rest h, ← top_rest h, ← htake]
      split
      · next hdone => exact ⟨rfl, fun _ => hdone⟩
      · next hmore =>
          refine ⟨rfl, fun hlen => hempty ?_⟩
          rw [empty_rest h, Bool.not_eq_true] at hmore
          have hlt := Tokeniser.pop_length_lt hmore
          omega

/-- **The tokeniser is a split that drops a last piece that is empty**: the loop ends, it takes
the pieces between the delimiters, and these are the text. -/
theorem drain_reset (delim : Byte) (s : List Byte) :
    (((reset delim s).drain s.length).1 = cut delim s ∧
      ((reset delim s).drain s.length).2.empty = true) ∧
    (∀ piece ∈ cut delim s, delim ∉ piece) ∧
    [delim].intercalate (cut delim s) = if s.getLast? = some delim then s.dropLast else s := by
  obtain ⟨hpieces, hempty⟩ := drain_eq (found_reset s : (reset delim s).Found) s.length
  refine ⟨⟨?_, hempty le_rfl⟩, not_mem_of_mem_cut, intercalate_cut⟩
  rw [hpieces]
  exact (reset delim s).rest.tokens_eq_cut

example : ((reset Ascii.comma (bytes ",a,,")).drain 4).1 = [[], bytes "a", []] := by decide

end TokeniserAt

end Swirly
