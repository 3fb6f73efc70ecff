import Mathlib.Algebra.GroupWithZero.Nat
import Mathlib.Data.List.Basic
import Mathlib.Order.Fin.Basic

/-!
# Swirly.Lib.Json

**JSON values as compact text, and the text read back.** `Json.text` writes a value without
white space and without escapes; `Json.parse` reads such a text. A value whose strings are
`Plain`, so that no byte of theirs needs an escape, is what its text is read as
(`parse_text`).

How numbers are written is a parameter, `NumFormat`, which carries what the reading of a
number relies on.
-/

namespace Lib

/-- A byte of a text. -/
abbrev Octet := Fin 256

/-- A literal is taken modulo 256. -/
local instance Octet.neZero : NeZero 256 := ⟨by decide⟩

/-- The bytes that JSON is punctuated with: `"` `,` `:` `[` `]` `{` `}`, and the `n` of
`null`. -/
def structural : List Octet := [34, 44, 58, 91, 93, 123, 125, 110]

/-- How numbers are written and read. -/
structure NumFormat where
  write : Int → List Octet
  read : List Octet → Option (Int × List Octet)
  /-- The bytes of a number. -/
  isNum : Octet → Bool
  write_ne_nil : ∀ n, write n ≠ []
  write_isNum : ∀ n, ∀ b ∈ write n, isNum b = true
  structural_isNum : ∀ b ∈ structural, isNum b = false
  read_write : ∀ n rest, (∀ b ∈ rest.head?, isNum b = false) →
    read (write n ++ rest) = some (n, rest)

/-- A JSON value. -/
inductive Json
  | null
  | num (n : Int)
  | str (s : List Octet)
  | arr (l : List Json)
  | obj (m : List (List Octet × Json))

namespace Json

/-! ### Text -/

/-- `null`. -/
def nullText : List Octet := [110, 117, 108, 108]

/-- A string between quotes. -/
def quoted (s : List Octet) : List Octet := 34 :: s ++ [34]

mutual

/-- The text of a value. -/
def text (fmt : NumFormat) : Json → List Octet
  | null => nullText
  | num n => fmt.write n
  | str s => quoted s
  | arr [] => [91, 93]
  | arr (v :: l) => 91 :: (v.text fmt ++ elemsText fmt l)
  | obj [] => [123, 125]
  | obj ((k, v) :: m) => 123 :: (quoted k ++ 58 :: (v.text fmt ++ membersText fmt m))

/-- The other elements of an array, to its end. -/
def elemsText (fmt : NumFormat) : List Json → List Octet
  | [] => [93]
  | v :: l => 44 :: (v.text fmt ++ elemsText fmt l)

/-- The other members of an object, to its end. -/
def membersText (fmt : NumFormat) : List (List Octet × Json) → List Octet
  | [] => [125]
  | (k, v) :: m => 44 :: (quoted k ++ 58 :: (v.text fmt ++ membersText fmt m))

end

/-! ### Reading -/

/-- The rest of a string, to its closing quote. Escapes are not read. -/
def string : List Octet → Option (List Octet × List Octet)
  | [] => none
  | b :: s =>
    if b = 34 then some ([], s)
    else if b = 92 ∨ b < 32 then none
    else (string s).map (fun (t, rest) => (b :: t, rest))

/-- A key and the colon after it. -/
def key : List Octet → Option (List Octet × List Octet)
  | [] => none
  | b :: s =>
    if b = 34 then
      (string s).bind (fun (k, rest) => if rest.head? = some 58 then some (k, rest.tail) else none)
    else none

mutual

/-- A value, and what comes after it. The number bounds how deep it is read. -/
def value (fmt : NumFormat) : Nat → List Octet → Option (Json × List Octet)
  | 0, _ => none
  | _ + 1, [] => none
  | n + 1, b :: s =>
    if b = 110 then if s.take 3 = [117, 108, 108] then some (null, s.drop 3) else none
    else if b = 34 then (string s).map (fun (t, rest) => (str t, rest))
    else if b = 91 then
      if s.head? = some 93 then some (arr [], s.tail)
      else
        (value fmt n s).bind (fun (v, rest) =>
          (elems fmt n rest).map (fun (l, rest) => (arr (v :: l), rest)))
    else if b = 123 then
      if s.head? = some 125 then some (obj [], s.tail)
      else
        (key s).bind (fun (k, rest) => (value fmt n rest).bind (fun (v, rest) =>
          (members fmt n rest).map (fun (m, rest) => (obj ((k, v) :: m), rest))))
    else (fmt.read (b :: s)).map (fun (i, rest) => (num i, rest))

/-- The other elements of an array. -/
def elems (fmt : NumFormat) : Nat → List Octet → Option (List Json × List Octet)
  | 0, _ => none
  | _ + 1, [] => none
  | n + 1, b :: s =>
    if b = 93 then some ([], s)
    else if b = 44 then
      (value fmt n s).bind (fun (v, rest) =>
        (elems fmt n rest).map (fun (l, rest) => (v :: l, rest)))
    else none

/-- The other members of an object. -/
def members (fmt : NumFormat) :
    Nat → List Octet → Option (List (List Octet × Json) × List Octet)
  | 0, _ => none
  | _ + 1, [] => none
  | n + 1, b :: s =>
    if b = 125 then some ([], s)
    else if b = 44 then
      (key s).bind (fun (k, rest) => (value fmt n rest).bind (fun (v, rest) =>
        (members fmt n rest).map (fun (m, rest) => ((k, v) :: m, rest))))
    else none

end

/-- A text that is a value and nothing else. -/
def parse (fmt : NumFormat) (s : List Octet) : Option Json :=
  match value fmt s.length s with
  | some (v, []) => some v
  | _ => none

/-! ### Round trip -/

/-- No byte of the string needs an escape. -/
def PlainStr (s : List Octet) : Prop := ∀ b ∈ s, b ≠ 34 ∧ b ≠ 92 ∧ 32 ≤ b

instance (s : List Octet) : Decidable (PlainStr s) :=
  inferInstanceAs (Decidable (∀ b ∈ s, b ≠ 34 ∧ b ≠ 92 ∧ 32 ≤ b))

mutual

/-- No string in the value needs an escape. -/
def Plain : Json → Prop
  | null => True
  | num _ => True
  | str s => PlainStr s
  | arr l => PlainElems l
  | obj m => PlainMembers m

def PlainElems : List Json → Prop
  | [] => True
  | v :: l => v.Plain ∧ PlainElems l

def PlainMembers : List (List Octet × Json) → Prop
  | [] => True
  | (k, v) :: m => PlainStr k ∧ v.Plain ∧ PlainMembers m

end

theorem plain_arr {l : List Json} : (arr l).Plain ↔ ∀ v ∈ l, v.Plain := by
  induction l with
  | nil => simp [Plain, PlainElems]
  | cons v l ih => simpa [Plain, PlainElems] using fun _ => ih

theorem plain_obj {m : List (List Octet × Json)} :
    (obj m).Plain ↔ ∀ e ∈ m, PlainStr e.1 ∧ e.2.Plain := by
  induction m with
  | nil => simp [Plain, PlainMembers]
  | cons e m ih => simpa [Plain, PlainMembers, and_assoc] using fun _ _ => ih

section RoundTrip

variable {fmt : NumFormat} {s k rest : List Octet} {n : Nat}

theorem string_append (hs : PlainStr s) : string (s ++ 34 :: rest) = some (s, rest) := by
  induction s with
  | nil => rfl
  | cons b s ih =>
      obtain ⟨hquote, hbackslash, hcontrol⟩ := hs b List.mem_cons_self
      have hgo : ¬ (b = 92 ∨ b < 32) := not_or.mpr ⟨hbackslash, not_lt.mpr hcontrol⟩
      rw [List.cons_append, string, if_neg hquote, if_neg hgo,
        ih (fun c hc => hs c (List.mem_cons_of_mem b hc))]
      rfl

theorem quoted_append (s rest : List Octet) : quoted s ++ rest = 34 :: (s ++ 34 :: rest) := by
  simp [quoted]

theorem key_quoted (hk : PlainStr k) : key (quoted k ++ 58 :: rest) = some (k, rest) := by
  rw [quoted_append, key, if_pos rfl, string_append hk]
  rfl

/-- A number begins with a byte of its own. -/
theorem head_write (fmt : NumFormat) (i : Int) :
    ∃ b t, fmt.write i = b :: t ∧ b ∉ structural := by
  cases hw : fmt.write i with
  | nil => exact absurd hw (fmt.write_ne_nil i)
  | cons b t =>
      refine ⟨b, t, rfl, fun hmem => ?_⟩
      have hnum := fmt.write_isNum i b (hw ▸ List.mem_cons_self)
      rw [fmt.structural_isNum b hmem] at hnum
      cases hnum

theorem value_num (i : Int) (hn : 0 < n) (hrest : ∀ b ∈ rest.head?, fmt.isNum b = false) :
    value fmt n (fmt.write i ++ rest) = some (num i, rest) := by
  obtain ⟨n, rfl⟩ := Nat.exists_eq_add_of_lt hn
  obtain ⟨b, t, hw, hb⟩ := head_write fmt i
  have hread := fmt.read_write i rest hrest
  simp only [structural, List.mem_cons, List.not_mem_nil, or_false, not_or] at hb
  obtain ⟨hquote, -, -, harr, -, hobj, -, hnull⟩ := hb
  rw [hw, List.cons_append] at hread ⊢
  rw [Nat.zero_add, value, if_neg hnull, if_neg hquote, if_neg harr, if_neg hobj, hread]
  rfl

/-- The text of a value does not begin with a closing bracket. -/
theorem head_text (fmt : NumFormat) (v : Json) (rest : List Octet) :
    (v.text fmt ++ rest).head? ≠ some 93 := by
  cases v with
  | null => simp [text, nullText]
  | num i =>
      obtain ⟨b, t, hw, hb⟩ := head_write fmt i
      rw [text, hw, List.cons_append, List.head?_cons, Ne, Option.some_inj]
      rintro rfl
      exact hb (by decide)
  | str s => simp [text, quoted]
  | arr l => cases l <;> simp [text]
  | obj m => cases m <;> simp [text]

/-- What follows an element or a member is no number. -/
theorem head_elemsText (fmt : NumFormat) (l : List Json) (rest : List Octet) :
    ∀ b ∈ (elemsText fmt l ++ rest).head?, fmt.isNum b = false := by
  cases l <;> simp [elemsText] <;> exact fmt.structural_isNum _ (by decide)

theorem head_membersText (fmt : NumFormat) (m : List (List Octet × Json)) (rest : List Octet) :
    ∀ b ∈ (membersText fmt m ++ rest).head?, fmt.isNum b = false := by
  cases m <;> simp [membersText] <;> exact fmt.structural_isNum _ (by decide)

/-- `value` on a text that begins with a bracket reads the first element and the others. -/
theorem value_arr {v : Json} {l : List Json} {t u : List Octet} (hhead : t.head? ≠ some 93)
    (hv : value fmt n t = some (v, u)) (hl : elems fmt n u = some (l, rest)) :
    value fmt (n + 1) (91 :: t) = some (arr (v :: l), rest) := by
  rw [value, if_neg (by decide), if_neg (by decide), if_pos rfl, if_neg hhead]
  simp only [hv, hl, Option.bind_some, Option.map_some]

/-- `value` on a text that begins with a brace reads the first member and the others. -/
theorem value_obj {v : Json} {m : List (List Octet × Json)} {t u : List Octet}
    (hk : PlainStr k) (hv : value fmt n t = some (v, u))
    (hm : members fmt n u = some (m, rest)) :
    value fmt (n + 1) (123 :: (quoted k ++ 58 :: t)) = some (obj ((k, v) :: m), rest) := by
  have hhead : (quoted k ++ 58 :: t).head? ≠ some 125 := by simp [quoted]
  rw [value, if_neg (by decide), if_neg (by decide), if_neg (by decide), if_pos rfl,
    if_neg hhead]
  simp only [key_quoted hk, hv, hm, Option.bind_some, Option.map_some]

theorem elems_cons {v : Json} {l : List Json} {t u : List Octet}
    (hv : value fmt n t = some (v, u)) (hl : elems fmt n u = some (l, rest)) :
    elems fmt (n + 1) (44 :: t) = some (v :: l, rest) := by
  rw [elems, if_neg (by decide), if_pos rfl]
  simp only [hv, hl, Option.bind_some, Option.map_some]

theorem members_cons {v : Json} {m : List (List Octet × Json)} {t u : List Octet}
    (hk : PlainStr k) (hv : value fmt n t = some (v, u))
    (hm : members fmt n u = some (m, rest)) :
    members fmt (n + 1) (44 :: (quoted k ++ 58 :: t)) = some ((k, v) :: m, rest) := by
  rw [members, if_neg (by decide), if_pos rfl]
  simp only [key_quoted hk, hv, hm, Option.bind_some, Option.map_some]

end RoundTrip

mutual

/-- The text of a value is read as the value, whatever follows it, as long as no number runs
on into what follows. -/
theorem value_text (fmt : NumFormat) :
    (v : Json) → v.Plain → ∀ (n : Nat) (rest : List Octet),
      (∀ b ∈ rest.head?, fmt.isNum b = false) → (v.text fmt ++ rest).length ≤ n →
      value fmt n (v.text fmt ++ rest) = some (v, rest)
  | null, _, n, rest, _, hn => by
      cases n with
      | zero => simp [text, nullText] at hn
      | succ n => rfl
  | num i, _, n, rest, hrest, hn => by
      obtain ⟨b, t, hw, -⟩ := head_write fmt i
      have hpos : 0 < n := by
        rw [text, hw, List.cons_append, List.length_cons] at hn
        omega
      rw [text]
      exact value_num i hpos hrest
  | str s, hs, n, rest, _, hn => by
      cases n with
      | zero => simp [text, quoted] at hn
      | succ n =>
          rw [text, quoted_append, value, if_neg (by decide), if_pos rfl, string_append hs]
          rfl
  | arr [], _, n, rest, _, hn => by
      cases n with
      | zero => simp [text] at hn
      | succ n => rfl
  | arr (v :: l), hp, n, rest, _, hn => by
      obtain ⟨hv, hl⟩ := hp
      cases n with
      | zero => simp [text] at hn
      | succ n =>
          rw [text, List.cons_append, List.append_assoc] at hn ⊢
          have hlen : (v.text fmt ++ (elemsText fmt l ++ rest)).length ≤ n :=
            Nat.le_of_succ_le_succ hn
          have hrest : (elemsText fmt l ++ rest).length ≤ n :=
            (by simp : (elemsText fmt l ++ rest).length ≤
              (v.text fmt ++ (elemsText fmt l ++ rest)).length).trans hlen
          exact value_arr (head_text fmt v _)
            (value_text fmt v hv n _ (head_elemsText fmt l rest) hlen)
            (elems_text fmt l hl n rest hrest)
  | obj [], _, n, rest, _, hn => by
      cases n with
      | zero => simp [text] at hn
      | succ n => rfl
  | obj ((k, v) :: m), hp, n, rest, _, hn => by
      obtain ⟨hk, hv, hm⟩ := hp
      cases n with
      | zero => simp [text] at hn
      | succ n =>
          rw [text, List.cons_append, List.append_assoc, List.cons_append,
            List.append_assoc] at hn ⊢
          have hlen : (v.text fmt ++ (membersText fmt m ++ rest)).length ≤ n := by
            simp only [List.length_cons, List.length_append] at hn ⊢
            omega
          have hrest : (membersText fmt m ++ rest).length ≤ n := by
            simp only [List.length_append] at hlen ⊢
            omega
          exact value_obj hk (value_text fmt v hv n _ (head_membersText fmt m rest) hlen)
            (members_text fmt m hm n rest hrest)

theorem elems_text (fmt : NumFormat) :
    (l : List Json) → PlainElems l → ∀ (n : Nat) (rest : List Octet),
      (elemsText fmt l ++ rest).length ≤ n →
      elems fmt n (elemsText fmt l ++ rest) = some (l, rest)
  | [], _, n, rest, hn => by
      cases n with
      | zero => simp [elemsText] at hn
      | succ n => rfl
  | v :: l, ⟨hv, hl⟩, n, rest, hn => by
      cases n with
      | zero => simp [elemsText] at hn
      | succ n =>
          rw [elemsText, List.cons_append, List.append_assoc] at hn ⊢
          have hlen : (v.text fmt ++ (elemsText fmt l ++ rest)).length ≤ n :=
            Nat.le_of_succ_le_succ hn
          have hrest : (elemsText fmt l ++ rest).length ≤ n := by
            simp only [List.length_append] at hlen ⊢
            omega
          exact elems_cons (value_text fmt v hv n _ (head_elemsText fmt l rest) hlen)
            (elems_text fmt l hl n rest hrest)

theorem members_text (fmt : NumFormat) :
    (m : List (List Octet × Json)) → PlainMembers m → ∀ (n : Nat) (rest : List Octet),
      (membersText fmt m ++ rest).length ≤ n →
      members fmt n (membersText fmt m ++ rest) = some (m, rest)
  | [], _, n, rest, hn => by
      cases n with
      | zero => simp [membersText] at hn
      | succ n => rfl
  | (k, v) :: m, ⟨hk, hv, hm⟩, n, rest, hn => by
      cases n with
      | zero => simp [membersText] at hn
      | succ n =>
          rw [membersText, List.cons_append, List.append_assoc, List.cons_append,
            List.append_assoc] at hn ⊢
          have hlen : (v.text fmt ++ (membersText fmt m ++ rest)).length ≤ n := by
            simp only [List.length_cons, List.length_append] at hn ⊢
            omega
          have hrest : (membersText fmt m ++ rest).length ≤ n := by
            simp only [List.length_append] at hlen ⊢
            omega
          exact members_cons hk
            (value_text fmt v hv n _ (head_membersText fmt m rest) hlen)
            (members_text fmt m hm n rest hrest)

end

/-- The text of a plain value is read as that value. -/
theorem parse_text (fmt : NumFormat) {v : Json} (hv : v.Plain) :
    parse fmt (v.text fmt) = some v := by
  have h := value_text fmt v hv (v.text fmt).length [] (by simp) (by simp)
  rw [List.append_nil] at h
  rw [parse, h]

/-- A text is not read as an object if neither a comma nor a brace follows its first member. -/
theorem parse_obj_none (fmt : NumFormat) {k u : List Octet} {v : Json} {b : Octet}
    (hk : PlainStr k) (hv : v.Plain) (hb : b ≠ 125 ∧ b ≠ 44) (hnum : fmt.isNum b = false) :
    parse fmt (123 :: (quoted k ++ 58 :: (v.text fmt ++ b :: u))) = none := by
  have hnone : ∀ n, (v.text fmt ++ b :: u).length ≤ n →
      value fmt (n + 1) (123 :: (quoted k ++ 58 :: (v.text fmt ++ b :: u))) = none := by
    intro n hn
    have hvalue := value_text fmt v hv n (b :: u) (by simp [hnum]) hn
    have hhead : (quoted k ++ 58 :: (v.text fmt ++ b :: u)).head? ≠ some 125 := by simp [quoted]
    have hmembers : members fmt n (b :: u) = none := by
      cases n with
      | zero => rfl
      | succ n => rw [members, if_neg hb.1, if_neg hb.2]
    rw [value, if_neg (by decide), if_neg (by decide), if_neg (by decide), if_pos rfl,
      if_neg hhead]
    simp only [key_quoted hk, hvalue, hmembers, Option.bind_some, Option.map_none]
  rw [parse, List.length_cons, hnone _ (by simp; omega)]

end Json

end Lib
