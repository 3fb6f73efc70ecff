import Swirly.Ash.Types
import Mathlib.Algebra.Group.Int.Defs
import Mathlib.Algebra.Group.Nat.Defs
import Mathlib.Data.List.TakeWhile

/-!
# Swirly.Ash.Text

**Text as bytes.** The classes of characters, the numbers and the pieces that the rest reads
out of text. `Tokeniser` cuts at a delimiter; a loop that takes its pieces until it is empty
sees `Tokeniser.tokens`.
-/

namespace Swirly

/-! ### Bytes -/

/-- The bytes of a text. -/
def chars (l : List Char) : List Byte := l.map (fun c => Fin.ofNat 256 c.toNat)

/-- The bytes of a string in the source. -/
def bytes (s : String) : List Byte := chars s.toList

namespace Ascii

/-- `"` -/
abbrev quote : Byte := 34

/-- `+` -/
abbrev plus : Byte := 43

/-- `,` -/
abbrev comma : Byte := 44

/-- `-` -/
abbrev minus : Byte := 45

/-- `:` -/
abbrev colon : Byte := 58

/-- `/` -/
abbrev slash : Byte := 47

/-- `\` -/
abbrev backslash : Byte := 92

/-- `{` -/
abbrev openBrace : Byte := 123

/-- `}` -/
abbrev closeBrace : Byte := 125

end Ascii

/-- `space`. -/
def isSpace (b : Byte) : Bool := (9 ≤ b && b ≤ 13) || b = 32

/-- `[0-9]`. -/
def isDigit (b : Byte) : Bool := 48 ≤ b && b ≤ 57

/-- The value of a digit. -/
def digit (b : Byte) : Nat := b - 48

/-- `stou64`: white space and then digits, kept to 64 bits; what comes after is ignored. -/
def stou64 (sv : List Byte) : Nat :=
  ((sv.dropWhile isSpace).takeWhile isDigit).foldl (fun l b => (l * 10 + digit b) % 2 ^ 64) 0

/-- A natural number as an output stream writes it. -/
def natText (n : Nat) : List Byte := chars (Nat.toDigits 10 n)

/-- An integer as an output stream writes it. -/
def intText (n : Int) : List Byte :=
  if n < 0 then Ascii.minus :: natText n.natAbs else natText n.toNat

theorem natText_ne_nil (n : Nat) : natText n ≠ [] := by
  unfold natText chars
  rw [Ne, List.map_eq_nil_iff]
  exact Nat.toDigits_ne_nil

theorem natText_of_lt {n : Nat} (h : n < 10) : natText n = [Fin.ofNat 256 (48 + n)] := by
  unfold natText chars
  rw [Nat.toDigits_of_lt_base h, List.map_singleton, Nat.toNat_digitChar_of_lt_ten h]

/-- The last digit is that of the remainder, and the others are those of the quotient. -/
theorem natText_of_le {n : Nat} (h : 10 ≤ n) :
    natText n = natText (n / 10) ++ [Fin.ofNat 256 (48 + n % 10)] := by
  have hmod : n % 10 < 10 := Nat.mod_lt n (by decide)
  unfold natText chars
  rw [Nat.toDigits_of_base_le (by decide) h, List.map_append, List.map_singleton,
    Nat.toNat_digitChar_of_lt_ten hmod]

theorem length_natText_le_iff {n k : Nat} (hk : 0 < k) :
    (natText n).length ≤ k ↔ n < 10 ^ k := by
  unfold natText chars
  rw [List.length_map]
  exact Nat.length_toDigits_le_iff (by decide) hk

/-! ### Pieces -/

/-- `Tokeniser<DelimN>`: the bytes that are left, from `i_` to the end; `j_` is where the first
delimiter is among them. -/
structure Tokeniser (delim : Byte) where
  buf : List Byte
  deriving DecidableEq, Repr

namespace Tokeniser

variable {delim : Byte}

/-- `top`: the bytes up to the delimiter. -/
def top (toks : Tokeniser delim) : List Byte := toks.buf.takeWhile (· ≠ delim)

/-- `empty`. -/
def empty (toks : Tokeniser delim) : Bool := toks.buf.isEmpty

/-- `pop`: past the delimiter, or to the end if there is none. -/
def pop (toks : Tokeniser delim) : Tokeniser delim := ⟨(toks.buf.dropWhile (· ≠ delim)).tail⟩

/-- The pieces that are taken until there are none, or `n` have been taken. -/
def take (toks : Tokeniser delim) : Nat → List (List Byte)
  | 0 => []
  | n + 1 => if toks.empty then [] else toks.top :: toks.pop.take n

/-- The pieces that are taken until there are none. -/
def tokens (toks : Tokeniser delim) : List (List Byte) := toks.take toks.buf.length

/-- A piece that is taken makes the rest shorter. -/
theorem pop_length_lt {toks : Tokeniser delim} (h : toks.empty = false) :
    toks.pop.buf.length < toks.buf.length := by
  have hpos : 0 < toks.buf.length := by
    rw [List.length_pos_iff]
    exact List.isEmpty_eq_false_iff.mp h
  have hle : (toks.buf.dropWhile (· ≠ delim)).length ≤ toks.buf.length :=
    (List.dropWhile_suffix _).length_le
  show (toks.buf.dropWhile (· ≠ delim)).tail.length < _
  rw [List.length_tail]
  omega

theorem take_of_length_le {toks : Tokeniser delim} {n : Nat} (h : toks.buf.length ≤ n) :
    toks.take n = toks.tokens := by
  have hall : ∀ {m n : Nat} {toks : Tokeniser delim}, toks.buf.length ≤ m → m ≤ n →
      toks.take n = toks.take m := by
    intro m
    induction m with
    | zero =>
        intro n toks hm _
        have hnil : toks.buf = [] := List.eq_nil_of_length_eq_zero (Nat.le_zero.mp hm)
        cases n with
        | zero => rfl
        | succ n => simp [take, empty, hnil]
    | succ m ih =>
        intro n toks hm hn
        obtain ⟨n, rfl⟩ : ∃ k, n = k + 1 := ⟨n - 1, by omega⟩
        unfold take
        cases hempty : toks.empty with
        | true => rfl
        | false =>
            have hlt := pop_length_lt hempty
            rw [ih (by omega) (by omega)]
  exact hall (Nat.le_refl _) h

/-- **The loop over the pieces.** -/
theorem tokens_eq (toks : Tokeniser delim) :
    toks.tokens = if toks.empty then [] else toks.top :: toks.pop.tokens := by
  cases hempty : toks.empty with
  | true =>
      have hnil : toks.buf = [] := List.isEmpty_iff.mp hempty
      simp [tokens, take, hnil]
  | false =>
      have hlt := pop_length_lt hempty
      obtain ⟨n, hn⟩ : ∃ n, toks.buf.length = n + 1 := ⟨toks.buf.length - 1, by omega⟩
      have htake : toks.tokens = toks.top :: toks.pop.take n := by
        unfold tokens
        rw [hn, take, hempty]
        rfl
      rw [htake, take_of_length_le (by omega)]
      rfl

theorem tokens_eq_nil_iff {toks : Tokeniser delim} : toks.tokens = [] ↔ toks.empty = true := by
  rw [tokens_eq]
  cases toks.empty with
  | true => simp
  | false => simp

theorem tokens_eq_cons_iff {toks : Tokeniser delim} {piece : List Byte}
    {pieces : List (List Byte)} : toks.tokens = piece :: pieces ↔
      toks.empty = false ∧ toks.top = piece ∧ toks.pop.tokens = pieces := by
  rw [tokens_eq]
  cases toks.empty with
  | true => simp
  | false => simp

@[simp] theorem tokens_nil : (⟨[]⟩ : Tokeniser delim).tokens = [] := rfl

/-- No byte of a piece ends it. -/
theorem forall_ne_delim {piece : List Byte} (h : delim ∉ piece) :
    ∀ b ∈ piece, decide (b ≠ delim) = true :=
  fun _ hb => decide_eq_true (fun heq => h (heq ▸ hb))

/-- A piece and its delimiter. -/
theorem tokens_append_cons {piece rest : List Byte} (h : delim ∉ piece) :
    (⟨piece ++ delim :: rest⟩ : Tokeniser delim).tokens =
      piece :: (⟨rest⟩ : Tokeniser delim).tokens := by
  have htop : (⟨piece ++ delim :: rest⟩ : Tokeniser delim).top = piece := by
    rw [top, List.takeWhile_append_of_pos (forall_ne_delim h)]
    simp
  have hpop : (⟨piece ++ delim :: rest⟩ : Tokeniser delim).pop = ⟨rest⟩ := by
    rw [pop, List.dropWhile_append_of_pos (forall_ne_delim h)]
    simp
  rw [tokens_eq, if_neg (by simp [empty]), htop, hpop]

/-- The last piece needs no delimiter. -/
theorem tokens_singleton {piece : List Byte} (h : delim ∉ piece) (hne : piece ≠ []) :
    (⟨piece⟩ : Tokeniser delim).tokens = [piece] := by
  have htop : (⟨piece⟩ : Tokeniser delim).top = piece :=
    List.takeWhile_eq_self_iff.mpr (forall_ne_delim h)
  have hpop : (⟨piece⟩ : Tokeniser delim).pop = ⟨[]⟩ := by
    rw [pop, List.dropWhile_eq_nil_iff.mpr (forall_ne_delim h), List.tail_nil]
  rw [tokens_eq, if_neg (by simpa [empty] using hne), htop, hpop, tokens_nil]

/-- **Pieces that are joined are taken apart again**, also if the last one is followed by a
delimiter. -/
theorem tokens_intercalate {pieces : List (List Byte)}
    (h : ∀ piece ∈ pieces, delim ∉ piece ∧ piece ≠ []) :
    (⟨[delim].intercalate pieces⟩ : Tokeniser delim).tokens = pieces ∧
    (pieces ≠ [] →
      (⟨[delim].intercalate pieces ++ [delim]⟩ : Tokeniser delim).tokens = pieces) := by
  induction pieces with
  | nil => exact ⟨rfl, fun hne => absurd rfl hne⟩
  | cons piece pieces ih =>
      obtain ⟨⟨hpiece, hne⟩, hpieces⟩ := List.forall_mem_cons.mp h
      cases pieces with
      | nil =>
          rw [List.intercalate_singleton]
          exact ⟨tokens_singleton hpiece hne, fun _ => tokens_append_cons hpiece⟩
      | cons piece' pieces =>
          obtain ⟨ih, ihTrailing⟩ := ih hpieces
          rw [List.intercalate_cons_cons, List.append_assoc, List.singleton_append,
            tokens_append_cons hpiece, ih, List.append_assoc, List.cons_append,
            tokens_append_cons hpiece, ihTrailing (List.cons_ne_nil piece' pieces)]
          exact ⟨rfl, fun _ => rfl⟩

end Tokeniser

end Swirly
