import Mathlib.Logic.Function.Basic
import Swirly.Fir.RestRequest

/-!
# Swirly.Fir.Scratch

**The memory of a request.** `RestRequest` has a union that is read as the right member
because the machine is where it is, and strings that do not overrun because a length is
compared with a constant. `RawRequest` has neither from its types: the union holds what was
written last, `str_` is a pointer to a length, a pointer to bytes and a bound, and an action
that reads the wrong member or writes behind an array fails.

No action fails, whatever is called (`calls_safe`). What an action reads is what the last of
the actions before it set (`memberAfter`), and each state of the machine says what that is
(`Cs.Needs`, `trans_suits`). So the request with memory does what `RestRequest` does
(`Stands`), where these failures cannot be written down.
-/

namespace Swirly

/-! ### Memory -/

/-- `StringData<MaxN>`: all bytes of the array, and how many of them are used. -/
structure StringData (maxN : Nat) where
  len : Nat
  buf : Vector Byte maxN

namespace StringData

variable {maxN : Nat}

/-- The bytes that are used. What is behind them in the array stays from before, and is not read
as a string. -/
def bytes (s : StringData maxN) : List Byte := s.buf.toList.take s.len

/-- `len = 0`: the string is empty. The bytes of the array are left as they are. -/
def clear (s : StringData maxN) : StringData maxN := { s with len := 0 }

end StringData

/-- The union of `num_` and `str_`, with what was written last. The machine reads the one that its
last action of this kind wrote, which is to be shown. -/
inductive RawScratch
  /-- Not written yet. -/
  | none
  /-- `num_`. -/
  | num (sign : Int) (digits : Nat)
  /-- `str_`, with pointers to the length of a string and to the bytes of a string. -/
  | str (len buf : StrField) (max : Nat)
  deriving DecidableEq

/-- `str_.max`, as `begin<Field>` sets it. -/
def StrField.strMax : StrField → Nat
  | mnem => 16
  | display => 64
  | email => 64
  | trader => 16
  | contr => 16
  | ref => 64
  | cpty => 16

/-- The bound that is set is the size of the array that is pointed to. -/
theorem StrField.strMax_eq (f : StrField) : f.strMax = f.max := by
  cases f <;> rfl

/-- `RestRequest`. -/
structure RawRequest where
  cs : Cs
  scratch : RawScratch
  fields : Finset ReqField
  strs : (f : StrField) → StringData f.max
  nums : NumField → Int
  side : Option Side
  role : Role

namespace RawRequest

variable (r : RawRequest)

/-- A string of the request changes. The other strings do not, whatever the pointers say. -/
def setStr (f : StrField) (s : StringData f.max) : RawRequest :=
  { r with strs := Function.update r.strs f s }

/-- `null<Field>`: the bit goes, and the string is emptied or the value is set back. -/
def null : ReqField → RawRequest
  | .str f => { r.setStr f (r.strs f).clear with fields := r.fields.erase (.str f) }
  | .num f => { r with fields := r.fields.erase (.num f), nums := Function.update r.nums f 0 }
  | .side => { r with fields := r.fields.erase .side, side := none }
  | .role => { r with fields := r.fields.erase .role, role := .none }

/-- `end<Field>` of a string field: the bit is set, and the bytes are there already. -/
def endStr (f : StrField) : RawRequest := { r with fields := insert (.str f) r.fields }

/-- `end<Field>` of a number: the bit is set, and the number is cut to the width of the field. -/
def endNum (f : NumField) (n : Int) : RawRequest :=
  { r with fields := insert (.num f) r.fields, nums := Function.update r.nums f (f.narrow n) }

/-- `buySide`, `sellSide`, `makerRole` and `takerRole`: the bit and the value of the field are
set. -/
def endWord : Word → RawRequest
  | .buy => { r with fields := insert .side r.fields, side := some .buy }
  | .sell => { r with fields := insert .side r.fields, side := some .sell }
  | .maker => { r with fields := insert .role r.fields, role := .maker }
  | .taker => { r with fields := insert .role r.fields, role := .taker }

/-- `str_.buf[len++] = fc`, where `len` is the length of one string and `str_.buf` are the
bytes of another, or of the same; the index has to be in the array. -/
def write (len buf : StrField) (b : Byte) : Option RawRequest :=
  let i := (r.strs len).len
  if h : i < buf.max then
    let r := r.setStr len { r.strs len with len := i + 1 }
    some (r.setStr buf { r.strs buf with buf := (r.strs buf).buf.set i b })
  else none

/-- What an action does on the byte `b`; one that ends the parse has a message. It fails if
it reads a member of the union that was not written last, or writes behind an array. -/
def act (b : Byte) : Action → Option (RawRequest × Option String)
  | .beginNum => some ({ r with scratch := .num 1 0 }, none)
  | .negate =>
    match r.scratch with
    | .num _ digits => some ({ r with scratch := .num (-1) digits }, none)
    | _ => none
  | .addDigit =>
    match r.scratch with
    | .num sign digits =>
      some ({ r with scratch := .num sign ((digits * 10 + digit b) % 2 ^ 64) }, none)
    | _ => none
  | .beginField f => some ({ r with scratch := .str f f f.strMax }, none)
  | .beginStr =>
    match r.scratch with
    | .str len _ _ => some (r.setStr len (r.strs len).clear, none)
    | _ => none
  | .addChar =>
    match r.scratch with
    | .str len buf max =>
      if (r.strs len).len < max then (r.write len buf b).map (·, none)
      else some ({ r with cs := .error }, some "max length exceeded")
    | _ => none
  | .null f => some (r.null f, none)
  | .endStr f => some (r.endStr f, none)
  | .endNum f =>
    match r.scratch with
    | .num sign digits =>
      if f = .state ∧ sign < 0 then some ({ r with cs := .error }, some "negative state field")
      else some (r.endNum f ((sign * digits).bmod (2 ^ 64)), none)
    | _ => none
  | .endWord x => some (r.endWord x, none)

/-- `reset`: the machine goes back to its start, and the fields are cleared if that is asked for.
The scratch data stays, as nothing reads it before it is written. -/
def reset (clear : Bool) : RawRequest :=
  if clear then
    { cs := .start, scratch := r.scratch, fields := ∅, strs := fun f => (r.strs f).clear,
      nums := fun _ => 0, side := none, role := .none }
  else { r with cs := .start }

/-- The constructor, in memory that holds any bytes. -/
def new (mem : (f : StrField) → Vector Byte f.max) : RawRequest :=
  { cs := .start, scratch := .none, fields := ∅, strs := fun f => ⟨0, mem f⟩, nums := fun _ => 0,
    side := none, role := .none }

end RawRequest

/-! ### Runs -/

/-- An action that ran, and the request it ran on. -/
structure Ran where
  action : Action
  req : RawRequest

/-- A request, and the actions that ran on it. -/
structure RawRun where
  req : RawRequest
  ran : List Ran

namespace RawRun

/-- The actions of a transition, one after the other. -/
def acts (b : Byte) (σ : RawRun) : List Action → Option (RawRun × String)
  | [] => some (σ, "parse error")
  | a :: as =>
    match σ.req.act b a with
    | none => none
    | some (r, none) => acts b ⟨r, σ.ran ++ [⟨a, σ.req⟩]⟩ as
    | some (r, some msg) => some (⟨r, σ.ran ++ [⟨a, σ.req⟩]⟩, msg)

/-- One byte: the actions of its transition, in the state that the transition leads to. -/
def step (σ : RawRun) (b : Byte) : Option (RawRun × String) :=
  let (as, cs) := trans b σ.req.cs
  acts b { σ with req := { σ.req with cs } } as

/-- The loop of `parse`: it stops in the error state. -/
def exec (σ : RawRun) : List Byte → Option (RawRun × String)
  | [] => some (σ, "parse error")
  | b :: buf =>
    if σ.req.cs = .error then some (σ, "parse error")
    else
      match σ.step b with
      | none => none
      | some (σ', msg) => if σ'.req.cs = .error then some (σ', msg) else σ'.exec buf

/-- `parse`, which gives nothing where an action would read or write what it must not. -/
def parse (σ : RawRun) (buf : List Byte) : Option (Except String Bool × RawRun) :=
  (σ.exec buf).map (fun (σ', msg) =>
    (if σ'.req.cs = .error then .error msg else .ok (σ'.req.cs = .done), σ'))

end RawRun

/-- The calls on a request. -/
inductive ReqCall
  | reset (clear : Bool)
  | parse (buf : List Byte)

/-- One call after the other; an exception leaves the request as it is. -/
def RawRun.calls (σ : RawRun) : List ReqCall → Option RawRun
  | [] => some σ
  | .reset clear :: rest => calls { σ with req := σ.req.reset clear } rest
  | .parse buf :: rest =>
    match σ.parse buf with
    | none => none
    | some (_, σ') => σ'.calls rest

/-- The same calls on a request without memory. -/
def RestRequest.calls (r : RestRequest) : List ReqCall → RestRequest
  | [] => r
  | .reset clear :: rest => (r.reset clear).calls rest
  | .parse buf :: rest => (r.parse buf).2.calls rest

/-! ### Which member was written last -/

/-- What the union holds. -/
inductive Member
  | none
  | num
  | str (f : StrField)
  deriving DecidableEq

/-- What the union holds after an action. -/
def Action.sets (m : Member) : Action → Member
  | .beginNum => .num
  | .beginField f => .str f
  | _ => m

/-- What the union has to hold for an action. -/
def Action.Reads (m : Member) : Action → Prop
  | .negate => m = .num
  | .addDigit => m = .num
  | .endNum _ => m = .num
  | .beginStr => ∃ f, m = .str f
  | .addChar => ∃ f, m = .str f
  | _ => True

/-- What the union has to hold in a state of the machine. -/
def Cs.Needs (m : Member) : Cs → Prop
  | .char f => m = .str f
  | .escape f => m = .str f
  | .reqDigit _ => m = .num
  | .optDigit _ => m = .num
  | _ => True

/-- The actions find what they read, and leave what the state after them needs. -/
def Suits (m : Member) : List Action → Cs → Prop
  | [], cs => cs.Needs m
  | a :: as, cs => a.Reads m ∧ Suits (a.sets m) as cs

section Suits

variable {m : Member} {b : Byte}

theorem Suits.ite {p : Prop} [Decidable p] {x y : List Action × Cs} (hx : Suits m x.1 x.2)
    (hy : Suits m y.1 y.2) : Suits m (if p then x else y).1 (if p then x else y).2 := by
  split
  · exact hx
  · exact hy

theorem suits_noTrans : Suits m noTrans.1 noTrans.2 := trivial

/-- After a value the union is not needed. -/
theorem suits_leave {as : List Action} (has : ∀ cs, (∀ m, Cs.Needs m cs) → Suits m as cs) :
    Suits m (leave as b).1 (leave as b).2 :=
  .ite (has .sep (fun _ => trivial)) (.ite (has .next (fun _ => trivial))
    (.ite (has .done (fun _ => trivial)) suits_noTrans))

theorem suits_enter (f : ReqField) : Suits m (enter b f).1 (enter b f).2 := by
  cases f with
  | str f => exact .ite ⟨trivial, ⟨f, rfl⟩, rfl⟩ suits_noTrans
  | num f =>
      exact .ite ⟨trivial, rfl, rfl⟩ (.ite ⟨trivial, rfl⟩ (.ite ⟨trivial, rfl, rfl⟩ suits_noTrans))
  | side => exact .ite trivial suits_noTrans
  | role => exact .ite trivial suits_noTrans

/-- **Each state of the machine has what the transitions from it read.** -/
theorem trans_suits {cs : Cs} (h : cs.Needs m) : Suits m (trans b cs).1 (trans b cs).2 := by
  cases cs with
  | error => exact suits_noTrans
  | start => exact .ite trivial (.ite trivial suits_noTrans)
  | first => exact .ite trivial (.ite trivial (.ite trivial suits_noTrans))
  | key w =>
      refine .ite ?_ (.ite trivial suits_noTrans)
      split
      · exact trivial
      · exact suits_noTrans
  | colon f => exact .ite trivial (.ite trivial suits_noTrans)
  | value f => exact .ite trivial (.ite trivial (suits_enter f))
  | null f rest =>
      cases rest with
      | nil => exact suits_leave (fun _ hcs => ⟨trivial, hcs _⟩)
      | cons c rest => exact .ite trivial suits_noTrans
  | char f => exact .ite trivial (.ite h ⟨⟨f, h⟩, h⟩)
  | escape f => exact ⟨⟨f, h⟩, h⟩
  | strEnd f => exact suits_leave (fun _ hcs => ⟨trivial, hcs _⟩)
  | reqDigit f => exact .ite ⟨h, h⟩ suits_noTrans
  | optDigit f => exact .ite ⟨h, h⟩ (suits_leave (fun _ hcs => ⟨h, hcs _⟩))
  | word f w =>
      refine .ite ?_ (.ite trivial suits_noTrans)
      split
      · exact trivial
      · exact suits_noTrans
  | wordEnd x => exact suits_leave (fun _ hcs => ⟨trivial, hcs _⟩)
  | sep => exact suits_leave (fun _ hcs => hcs _)
  | next => exact .ite trivial (.ite trivial suits_noTrans)
  | done => exact .ite trivial suits_noTrans

end Suits

/-- What the union holds after the actions. -/
def memberAfter (as : List Action) : Member := as.foldl Action.sets .none

theorem memberAfter_concat (as : List Action) (a : Action) :
    memberAfter (as ++ [a]) = a.sets (memberAfter as) := by
  unfold memberAfter
  rw [List.foldl_append, List.foldl_cons, List.foldl_nil]

/-- An action writes the union or leaves it as it is. -/
theorem Action.sets_cases (a : Action) : a = .beginNum ∨ (∃ f, a = .beginField f) ∨
    (a ≠ .beginNum ∧ (∀ f, a ≠ .beginField f) ∧ ∀ m, a.sets m = m) := by
  cases a with
  | beginNum => exact .inl rfl
  | beginField f => exact .inr (.inl ⟨f, rfl⟩)
  | _ => exact .inr (.inr ⟨nofun, nofun, fun _ => rfl⟩)

/-- **The union holds `str_` if the last of the actions that write it is a `begin<Field>`.** -/
theorem exists_of_memberAfter_str {as : List Action} {f : StrField} (h : memberAfter as = .str f) :
    ∃ l r, as = l ++ .beginField f :: r ∧ .beginNum ∉ r ∧ ∀ g, .beginField g ∉ r := by
  induction as using List.reverseRecOn with
  | nil => cases h
  | append_singleton as a ih =>
      rw [memberAfter_concat] at h
      rcases a.sets_cases with rfl | ⟨g, rfl⟩ | ⟨hnum, hfield, hkeep⟩
      · cases h
      · cases h
        exact ⟨as, [], rfl, List.not_mem_nil, fun _ => List.not_mem_nil⟩
      · rw [hkeep] at h
        obtain ⟨l, r, rfl, hnotNum, hnotField⟩ := ih h
        refine ⟨l, r ++ [a], by simp, ?_, fun g => ?_⟩
        · simpa [hnotNum] using hnum.symm
        · simpa [hnotField g] using (hfield g).symm

/-- **The union holds `num_` if the last of the actions that write it is `beginNum`.** -/
theorem exists_of_memberAfter_num {as : List Action} (h : memberAfter as = .num) :
    ∃ l r, as = l ++ .beginNum :: r ∧ ∀ g, .beginField g ∉ r := by
  induction as using List.reverseRecOn with
  | nil => cases h
  | append_singleton as a ih =>
      rw [memberAfter_concat] at h
      rcases a.sets_cases with rfl | ⟨g, rfl⟩ | ⟨hnum, hfield, hkeep⟩
      · exact ⟨as, [], rfl, fun _ => List.not_mem_nil⟩
      · cases h
      · rw [hkeep] at h
        obtain ⟨l, r, rfl, hnotField⟩ := ih h
        refine ⟨l, r ++ [a], by simp, fun g => ?_⟩
        simpa [hnotField g] using (hfield g).symm

/-! ### The request without memory -/

/-- What the union holds. -/
def Scratch.member : Scratch → Member
  | .none => .none
  | .num _ _ => .num
  | .str f => .str f

/-- The union of a request that needs no memory, as it stands in memory. -/
def Scratch.raw : Scratch → RawScratch
  | .none => .none
  | .num sign digits => .num sign digits
  | .str f => .str f f f.max

/-- A request in memory, and the request that it is. -/
structure Stands (σ : RawRequest) (r : RestRequest) : Prop where
  cs : σ.cs = r.cs
  scratch : σ.scratch = r.scratch.raw
  fields : σ.fields = r.fields
  /-- The length is that of the bytes in use, and so it is in the array. -/
  len : ∀ f, (σ.strs f).len = (r.strs f).buf.length
  bytes : ∀ f, (σ.strs f).bytes = (r.strs f).buf
  nums : σ.nums = r.nums
  side : σ.side = r.side
  role : σ.role = r.role

namespace Stands

variable {σ : RawRequest} {r : RestRequest} {b : Byte} {f : StrField}

theorem len_le (h : Stands σ r) (f : StrField) : (σ.strs f).len ≤ f.max :=
  h.len f ▸ (r.strs f).len_le

/-- A string that is changed in both. -/
theorem setStr (h : Stands σ r) {s : StringData f.max} {t : FixedString f.max}
    (hlen : s.len = t.buf.length) (hbytes : s.bytes = t.buf) :
    Stands (σ.setStr f s) { r with toReqFields := r.setStr f t } where
  cs := h.cs
  scratch := h.scratch
  fields := h.fields
  len g := by
    simp only [RawRequest.setStr, ReqFields.setStr]
    rcases eq_or_ne g f with rfl | hne
    · rw [Function.update_self, Function.update_self, hlen]
    · rw [Function.update_of_ne hne, Function.update_of_ne hne, h.len]
  bytes g := by
    simp only [RawRequest.setStr, ReqFields.setStr]
    rcases eq_or_ne g f with rfl | hne
    · rw [Function.update_self, Function.update_self, hbytes]
    · rw [Function.update_of_ne hne, Function.update_of_ne hne, h.bytes]
  nums := h.nums
  side := h.side
  role := h.role

/-- A string that is cleared in both. -/
theorem clearStr (h : Stands σ r) (f : StrField) :
    Stands (σ.setStr f (σ.strs f).clear) { r with toReqFields := r.setStr f (.assign f.max []) } :=
  h.setStr (by simp [StringData.clear, FixedString.assign])
    (by simp [StringData.bytes, StringData.clear, FixedString.assign])

/-- A byte that is written behind the bytes in use. -/
theorem write (h : Stands σ r) (b : Byte) (hroom : (r.strs f).buf.length < f.max) :
    ∃ σ', σ.write f f b = some σ' ∧
      Stands σ' { r with toReqFields := r.setStr f ((r.strs f).push b hroom) } := by
  have hlen : (σ.strs f).len < f.max := h.len f ▸ hroom
  refine ⟨σ.setStr f ⟨(σ.strs f).len + 1, (σ.strs f).buf.set (σ.strs f).len b hlen⟩, ?_,
    h.setStr ?_ ?_⟩
  · simp only [RawRequest.write, dif_pos hlen, RawRequest.setStr, Function.update_self,
      Function.update_idem]
  · rw [FixedString.push, List.length_append, ← h.len, List.length_singleton]
  · have hsize : (σ.strs f).len < (σ.strs f).buf.toList.length := by
      rw [Vector.length_toList]
      exact hlen
    show StringData.bytes _ = (r.strs f).buf ++ [b]
    rw [← h.bytes f, StringData.bytes, StringData.bytes, Vector.toList_set, List.take_add_one,
      List.take_set_of_le (Nat.le_refl _), List.getElem?_set_self hsize, Option.toList_some]

theorem null (h : Stands σ r) (f : ReqField) :
    Stands (σ.null f) { r with toReqFields := r.toReqFields.null f } := by
  cases f with
  | str f => exact { h.clearStr f with fields := congrArg (·.erase (.str f)) h.fields }
  | num f =>
      exact { h with
        fields := congrArg (·.erase (.num f)) h.fields
        nums := congrArg (Function.update · f 0) h.nums }
  | side => exact { h with fields := congrArg (·.erase .side) h.fields, side := rfl }
  | role => exact { h with fields := congrArg (·.erase .role) h.fields, role := rfl }

theorem endStr (h : Stands σ r) (f : StrField) :
    Stands (σ.endStr f) { r with toReqFields := r.toReqFields.endStr f } :=
  { h with fields := congrArg (insert (.str f)) h.fields }

theorem endNum (h : Stands σ r) (f : NumField) (n : Int) :
    Stands (σ.endNum f n) { r with toReqFields := r.toReqFields.endNum f n } :=
  { h with
    fields := congrArg (insert (.num f)) h.fields
    nums := congrArg (fun nums : NumField → Int => Function.update nums f (f.narrow n)) h.nums }

theorem endWord (h : Stands σ r) (x : Word) :
    Stands (σ.endWord x) { r with toReqFields := r.toReqFields.endWord x } := by
  cases x with
  | buy => exact { h with fields := congrArg (insert .side) h.fields, side := rfl }
  | sell => exact { h with fields := congrArg (insert .side) h.fields, side := rfl }
  | maker => exact { h with fields := congrArg (insert .role) h.fields, role := rfl }
  | taker => exact { h with fields := congrArg (insert .role) h.fields, role := rfl }

/-- A request whose fields are cleared. -/
theorem cleared {scratch : Scratch} {raw : RawScratch}
    (strs : (f : StrField) → StringData f.max) (hscratch : raw = scratch.raw) :
    Stands { cs := .start, scratch := raw, fields := ∅, strs := fun f => (strs f).clear,
             nums := fun _ => 0, side := none, role := .none }
      { ReqFields.clear with cs := .start, scratch } where
  cs := rfl
  scratch := hscratch
  fields := rfl
  len f := by simp [StringData.clear, ReqFields.clear, FixedString.assign]
  bytes f := by simp [StringData.bytes, StringData.clear, ReqFields.clear, FixedString.assign]
  nums := rfl
  side := rfl
  role := rfl

theorem withCs (h : Stands σ r) (cs : Cs) : Stands { σ with cs } { r with cs } :=
  { h with cs := rfl }

theorem withScratch (h : Stands σ r) (scratch : Scratch) :
    Stands { σ with scratch := scratch.raw } { r with scratch } :=
  { h with scratch := rfl }

theorem num_scratch (h : Stands σ r) (hnum : r.scratch.member = .num) :
    ∃ sign digits, r.scratch = .num sign digits ∧ σ.scratch = .num sign digits := by
  have hscratch := h.scratch
  cases hs : r.scratch with
  | none => rw [hs] at hnum; cases hnum
  | num sign digits =>
      rw [hs] at hscratch
      exact ⟨sign, digits, rfl, hscratch⟩
  | str g => rw [hs] at hnum; cases hnum

theorem str_scratch (h : Stands σ r) (hstr : r.scratch.member = .str f) :
    r.scratch = .str f ∧ σ.scratch = .str f f f.max := by
  have hscratch := h.scratch
  cases hs : r.scratch with
  | none => rw [hs] at hstr; cases hstr
  | num sign digits => rw [hs] at hstr; cases hstr
  | str g =>
      rw [hs] at hstr hscratch
      cases hstr
      exact ⟨rfl, hscratch⟩

/-- The action does not fail, and does to the request in memory what it does to the request. -/
def ActsAlike (σ : RawRequest) (r : RestRequest) (b : Byte) (a : Action) : Prop :=
  ∃ σ', σ.act b a = some (σ', (r.act b a).2) ∧ Stands σ' (r.act b a).1

theorem act_negate (h : Stands σ r) (hnum : r.scratch.member = .num) :
    ActsAlike σ r b .negate := by
  obtain ⟨sign, digits, hr, hσ⟩ := h.num_scratch hnum
  cases r
  cases σ
  cases hr
  cases hσ
  exact ⟨_, rfl, h.withScratch (.num (-1) digits)⟩

theorem act_addDigit (h : Stands σ r) (hnum : r.scratch.member = .num) :
    ActsAlike σ r b .addDigit := by
  obtain ⟨sign, digits, hr, hσ⟩ := h.num_scratch hnum
  cases r
  cases σ
  cases hr
  cases hσ
  exact ⟨_, rfl, h.withScratch (.num sign ((digits * 10 + digit b) % 2 ^ 64))⟩

theorem act_endNum (h : Stands σ r) (hnum : r.scratch.member = .num) (f : NumField) :
    ActsAlike σ r b (.endNum f) := by
  obtain ⟨sign, digits, hr, hσ⟩ := h.num_scratch hnum
  have hsign : r.sign = sign := by rw [RestRequest.sign, hr]
  have hvalue : r.num = (sign * digits).bmod (2 ^ 64) := by rw [RestRequest.num, hr]
  by_cases hneg : f = .state ∧ r.sign < 0
  · refine ⟨{ σ with cs := .error }, ?_, ?_⟩
    · simp only [RestRequest.act_endNum_negative hneg, RawRequest.act]
      rw [hσ]
      exact if_pos (hsign ▸ hneg)
    · rw [RestRequest.act_endNum_negative hneg]
      exact h.withCs .error
  · refine ⟨σ.endNum f r.num, ?_, ?_⟩
    · simp only [RestRequest.act_endNum hneg, RawRequest.act, hvalue]
      rw [hσ]
      exact if_neg (hsign ▸ hneg)
    · rw [RestRequest.act_endNum hneg]
      exact h.endNum f r.num

theorem act_beginStr (h : Stands σ r) (hstr : r.scratch.member = .str f) :
    ActsAlike σ r b .beginStr := by
  obtain ⟨hr, hσ⟩ := h.str_scratch hstr
  cases r
  cases σ
  cases hr
  cases hσ
  exact ⟨_, rfl, h.clearStr f⟩

/-- The length in memory is compared with what the array has room for. -/
theorem act_addChar (h : Stands σ r) (hstr : r.scratch.member = .str f) :
    ActsAlike σ r b .addChar := by
  obtain ⟨hr, hσ⟩ := h.str_scratch hstr
  cases r
  cases σ
  cases hr
  cases hσ
  unfold ActsAlike
  simp only [RawRequest.act, RestRequest.act]
  split
  · next hroom =>
      have hroom' := h.len f ▸ hroom
      obtain ⟨σ', hwrite, hstands⟩ := h.write b hroom'
      rw [dif_pos hroom', hwrite]
      exact ⟨σ', rfl, hstands⟩
  · next hroom =>
      rw [dif_neg (h.len f ▸ hroom)]
      exact ⟨_, rfl, h.withCs .error⟩

/-- **An action that finds what it reads does not fail**, and does to the request in memory
what it does to the request. -/
theorem act (h : Stands σ r) (b : Byte) {a : Action} (ha : a.Reads r.scratch.member) :
    ActsAlike σ r b a := by
  cases a with
  | beginNum => exact ⟨_, rfl, h.withScratch (.num 1 0)⟩
  | negate => exact h.act_negate ha
  | addDigit => exact h.act_addDigit ha
  | beginStr => exact ha.elim (fun _ hstr => h.act_beginStr hstr)
  | addChar => exact ha.elim (fun _ hstr => h.act_addChar hstr)
  | null f => exact ⟨_, rfl, h.null f⟩
  | beginField f =>
      refine ⟨_, rfl, ?_⟩
      rw [f.strMax_eq]
      exact h.withScratch (.str f)
  | endStr f => exact ⟨_, rfl, h.endStr f⟩
  | endNum f => exact h.act_endNum ha f
  | endWord x => exact ⟨_, rfl, h.endWord x⟩

end Stands

namespace RestRequest

variable {r : RestRequest} {b : Byte}

/-- The union holds what the action sets. An action leaves the state of the machine as it is,
or ends the parse in the error state. -/
theorem act_spec (r : RestRequest) (b : Byte) (a : Action) :
    (r.act b a).1.scratch.member = a.sets r.scratch.member ∧
      (((r.act b a).2 = none ∧ (r.act b a).1.cs = r.cs) ∨
        ∃ msg, (r.act b a).2 = some msg ∧ (r.act b a).1.cs = .error) := by
  obtain ⟨d, cs, scratch⟩ := r
  cases a with
  | negate => cases scratch <;> exact ⟨rfl, .inl ⟨rfl, rfl⟩⟩
  | addDigit => cases scratch <;> exact ⟨rfl, .inl ⟨rfl, rfl⟩⟩
  | beginStr => cases scratch <;> exact ⟨rfl, .inl ⟨rfl, rfl⟩⟩
  | addChar =>
      cases scratch with
      | none => exact ⟨rfl, .inl ⟨rfl, rfl⟩⟩
      | num sign digits => exact ⟨rfl, .inl ⟨rfl, rfl⟩⟩
      | str f =>
          simp only [act]
          split
          · exact ⟨rfl, .inl ⟨rfl, rfl⟩⟩
          · exact ⟨rfl, .inr ⟨_, rfl, rfl⟩⟩
  | endNum f =>
      simp only [act]
      split
      · exact ⟨rfl, .inr ⟨_, rfl, rfl⟩⟩
      · exact ⟨rfl, .inl ⟨rfl, rfl⟩⟩
  | _ => exact ⟨rfl, .inl ⟨rfl, rfl⟩⟩

end RestRequest

/-! ### Safety -/

/-- What holds of an action when it runs after others. -/
structure Ran.Safe (before : List Action) (e : Ran) : Prop where
  /-- `str_` was set by a `begin<Field>` after the last `beginNum`. -/
  str : e.action = .addChar ∨ e.action = .beginStr → ∃ f l r,
    before = l ++ .beginField f :: r ∧ .beginNum ∉ r ∧ (∀ g, .beginField g ∉ r) ∧
      e.req.scratch = .str f f f.max
  /-- A byte is written before the end of the array. -/
  write : e.action = .addChar → ∀ len buf max, e.req.scratch = .str len buf max →
    (e.req.strs len).len < max → (e.req.strs len).len < buf.max
  /-- `num_` was initialised by `beginNum` after the last `begin<Field>`. -/
  num : e.action = .negate ∨ e.action = .addDigit ∨ (∃ f, e.action = .endNum f) → ∃ l r,
    before = l ++ .beginNum :: r ∧ (∀ g, .beginField g ∉ r) ∧
      ∃ sign digits, e.req.scratch = .num sign digits
  len : ∀ f, (e.req.strs f).len ≤ f.max

/-- What a run preserves. -/
structure RawRun.Holds (σ : RawRun) (r : RestRequest) : Prop where
  stands : Stands σ.req r
  member : r.scratch.member = memberAfter (σ.ran.map Ran.action)
  safe : ∀ l e l', σ.ran = l ++ e :: l' → e.Safe (l.map Ran.action)

/-- An action that finds what it reads is safe. -/
theorem Stands.safe {σ : RawRequest} {r : RestRequest} (h : Stands σ r) {before : List Action}
    (hmember : r.scratch.member = memberAfter before) {a : Action}
    (ha : a.Reads r.scratch.member) : Ran.Safe before ⟨a, σ⟩ where
  str hstr := by
    obtain ⟨f, hf⟩ : ∃ f, r.scratch.member = .str f := by
      rcases hstr with rfl | rfl <;> exact ha
    obtain ⟨l, l', hbefore, hnum, hfield⟩ := exists_of_memberAfter_str (hmember.symm.trans hf)
    exact ⟨f, l, l', hbefore, hnum, hfield, (h.str_scratch hf).2⟩
  write hadd len buf max hscratch hlt := by
    cases hadd
    obtain ⟨f, hf⟩ := ha
    rw [(h.str_scratch hf).2] at hscratch
    cases hscratch
    exact hlt
  num hnum := by
    have hread : r.scratch.member = .num := by
      rcases hnum with rfl | rfl | ⟨f, rfl⟩ <;> exact ha
    obtain ⟨l, l', hbefore, hfield⟩ := exists_of_memberAfter_num (hmember.symm.trans hread)
    obtain ⟨sign, digits, -, hscratch⟩ := h.num_scratch hread
    exact ⟨l, l', hbefore, hfield, sign, digits, hscratch⟩
  len := h.len_le

namespace RawRun.Holds

variable {σ : RawRun} {r : RestRequest} {b : Byte}

/-- **One action.** -/
theorem act (h : σ.Holds r) (b : Byte) {a : Action} (ha : a.Reads r.scratch.member) :
    ∃ σ', σ.req.act b a = some (σ', (r.act b a).2) ∧
      Holds ⟨σ', σ.ran ++ [⟨a, σ.req⟩]⟩ (r.act b a).1 := by
  obtain ⟨σ', hact, hstands⟩ := h.stands.act b ha
  refine ⟨σ', hact, hstands, ?_, fun l e l' hran => ?_⟩
  · rw [(RestRequest.act_spec r b a).1, h.member, List.map_append, List.map_singleton, memberAfter_concat]
  · rcases List.eq_nil_or_concat' l' with rfl | ⟨l', e', rfl⟩
    · -- The action that runs.
      obtain ⟨rfl, he⟩ := List.append_inj' hran rfl
      cases he
      exact h.stands.safe h.member ha
    · -- One of the actions before it.
      rw [← List.cons_append, ← List.append_assoc] at hran
      exact h.safe l e l' (List.append_inj' hran rfl).1

/-- **The actions of a transition.** -/
theorem acts (h : σ.Holds r) (b : Byte) {as : List Action}
    (has : Suits r.scratch.member as r.cs) :
    ∃ σ', σ.acts b as = some (σ', (r.acts b as).2) ∧ σ'.Holds (r.acts b as).1 ∧
      (r.acts b as).1.cs.Needs (r.acts b as).1.scratch.member := by
  induction as generalizing σ r with
  | nil => exact ⟨σ, rfl, h, has⟩
  | cons a as ih =>
      obtain ⟨hread, hrest⟩ := has
      obtain ⟨σ', hact, hholds⟩ := h.act b hread
      obtain ⟨hmember, hend⟩ := RestRequest.act_spec r b a
      unfold RawRun.acts RestRequest.acts
      rw [hact]
      rcases hr : r.act b a with ⟨r', msg⟩
      rw [hr] at hholds hmember hend
      rcases hend with ⟨rfl, hcs⟩ | ⟨msg, rfl, hcs⟩
      · rw [← hmember, ← hcs] at hrest
        exact ih hholds hrest
      · refine ⟨_, rfl, hholds, ?_⟩
        rw [hcs]
        exact trivial

/-- **One byte.** -/
theorem step (h : σ.Holds r) (hneeds : r.cs.Needs r.scratch.member) (b : Byte) :
    ∃ σ', σ.step b = some (σ', (r.step b).2) ∧ σ'.Holds (r.step b).1 ∧
      (r.step b).1.cs.Needs (r.step b).1.scratch.member := by
  have hholds : Holds { σ with req := { σ.req with cs := (trans b r.cs).2 } }
      { r with cs := (trans b r.cs).2 } :=
    ⟨h.stands.withCs _, h.member, h.safe⟩
  unfold RawRun.step RestRequest.step
  rw [h.stands.cs]
  exact hholds.acts b (trans_suits hneeds)

/-- **The loop.** -/
theorem exec (h : σ.Holds r) (hneeds : r.cs.Needs r.scratch.member) (buf : List Byte) :
    ∃ σ', σ.exec buf = some (σ', (r.exec buf).2) ∧ σ'.Holds (r.exec buf).1 ∧
      (r.exec buf).1.cs.Needs (r.exec buf).1.scratch.member := by
  induction buf generalizing σ r with
  | nil => exact ⟨σ, rfl, h, hneeds⟩
  | cons b buf ih =>
      obtain ⟨σ', hstep, hholds, hneeds'⟩ := h.step hneeds b
      unfold RawRun.exec RestRequest.exec
      rw [h.stands.cs, hstep]
      by_cases herror : r.cs = .error
      · rw [if_pos herror, if_pos herror]
        exact ⟨σ, rfl, h, hneeds⟩
      · rw [if_neg herror, if_neg herror]
        dsimp only
        rw [hholds.stands.cs]
        by_cases herror' : (r.step b).1.cs = .error
        · rw [if_pos herror', if_pos herror']
          exact ⟨σ', rfl, hholds, hneeds'⟩
        · rw [if_neg herror', if_neg herror']
          exact ih hholds hneeds'

theorem parse (h : σ.Holds r) (hneeds : r.cs.Needs r.scratch.member) (buf : List Byte) :
    ∃ σ', σ.parse buf = some ((r.parse buf).1, σ') ∧ σ'.Holds (r.parse buf).2 ∧
      (r.parse buf).2.cs.Needs (r.parse buf).2.scratch.member := by
  obtain ⟨σ', hexec, hholds, hneeds'⟩ := h.exec hneeds buf
  refine ⟨σ', ?_, hholds, hneeds'⟩
  unfold RawRun.parse RestRequest.parse
  rw [hexec, Option.map_some]
  dsimp only
  rw [hholds.stands.cs]

theorem reset (h : σ.Holds r) (clear : Bool) :
    Holds { σ with req := σ.req.reset clear } (r.reset clear) := by
  cases clear with
  | false => exact ⟨h.stands.withCs .start, h.member, h.safe⟩
  | true => exact ⟨.cleared _ h.stands.scratch, h.member, h.safe⟩

theorem new (mem : (f : StrField) → Vector Byte f.max) : Holds ⟨.new mem, []⟩ .new :=
  ⟨.cleared (fun f => ⟨0, mem f⟩) rfl, rfl, fun _ _ _ hran => by simp at hran⟩

/-- **One call after the other.** -/
theorem calls (h : σ.Holds r) (hneeds : r.cs.Needs r.scratch.member)
    (calls : List ReqCall) :
    ∃ σ', σ.calls calls = some σ' ∧ σ'.Holds (r.calls calls) := by
  induction calls generalizing σ r with
  | nil => exact ⟨σ, rfl, h⟩
  | cons call rest ih =>
      cases call with
      | reset clear =>
          refine ih (h.reset clear) ?_
          cases clear <;> exact trivial
      | parse buf =>
          obtain ⟨σ', hparse, hholds, hneeds'⟩ := h.parse hneeds buf
          unfold RawRun.calls RestRequest.calls
          rw [hparse]
          exact ih hholds hneeds'

end RawRun.Holds

/-- **The union is never read as the wrong member, and no string overruns.** -/
theorem calls_safe (mem : (f : StrField) → Vector Byte f.max) (calls : List ReqCall) :
    ∃ σ, RawRun.calls ⟨.new mem, []⟩ calls = some σ ∧
      (∀ l e l', σ.ran = l ++ e :: l' → e.Safe (l.map Ran.action)) ∧
      ∀ f, (σ.req.strs f).len ≤ f.max := by
  obtain ⟨σ, hcalls, hholds⟩ := (RawRun.Holds.new mem).calls trivial calls
  exact ⟨σ, hcalls, hholds.safe, hholds.stands.len_le⟩

/-- **A request in memory is the request that the calls make of it**, whatever the memory
holds before. -/
theorem calls_stands (mem : (f : StrField) → Vector Byte f.max) (calls : List ReqCall) :
    ∃ σ, RawRun.calls ⟨.new mem, []⟩ calls = some σ ∧
      Stands σ.req (RestRequest.new.calls calls) := by
  obtain ⟨σ, hcalls, hholds⟩ := (RawRun.Holds.new mem).calls trivial calls
  exact ⟨σ, hcalls, hholds.stands⟩

end Swirly
